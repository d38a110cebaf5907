import WasmSafeThread.Condvar.Progress
import WasmSafeThread.Mpsc.Wakeup

/-!
# Calls on the channel that go on

Of the agents in a call on the channel one can go on, as long as not all of them are asleep
(`advances`).  A call on the channel that has the guard never rests, so nobody sits on the guard of the
queue.

A receive waits again when it is woken and finds the queue empty.  So its rank depends on the queue: while
that is empty, a receive that is back from a wait is farther from its end than one that is asleep.
-/

namespace WasmSafeThread

namespace Mpsc

variable {ι T : Type*}

/-- Nothing in progress below has a deadline, and an acquisition of the queue has not been refused. -/
structure Local.Untimed (l : Local ι T) : Prop where
  cv : l.cv.Untimed
  locking : l.pc.phase = .locking → l.cv.mx.pc.quiet = false

/-- A receive that is back from its wait, or has not waited yet. -/
def Local.looks (l : Local ι T) : Bool :=
  match l.pc with
  | .recvPop _ => true
  | .recvWaited _ => l.cv.pc.back
  | _ => false

/-- How far a call on the channel is from its end; a wait does not count. -/
def Pc.rank : Pc T → ℕ
  | .ready => 0
  | .sendLoad _ => 100
  | .sendLock _ => 90
  | .sendRecheck _ => 70
  | .sendPush _ => 60
  | .sendDrop _ | .sendReject _ => 50
  | .sendNotify _ => 40
  | .sendReturn _ | .sendErr _ => 30
  | .recvLock _ => 1000
  | .recvLoad _ => 210
  | .recvWait _ => 200
  | .recvWaited _ => 50
  | .recvPop _ => 40
  | .recvDrop _ _ => 30
  | .recvReturn _ _ => 20
  | .senderNotify | .receiverNotify => 20
  | .senderReturn | .receiverReturn => 1

/-- The wait that is to come if the queue is empty. -/
def Local.bonus (queue : List T) (l : Local ι T) : ℕ := if queue.isEmpty && l.looks then 500 else 0

/-- The rank of all frames, and of the wait that is to come. -/
def Local.rank (queue : List T) (l : Local ι T) : ℕ := l.pc.rank + l.cv.rank + l.bonus queue

/-- The entries of all the lists. -/
def Shared.entries (s : Shared ι T) : ℕ := s.cv.entries

variable {i j : ι} {s s₁ : Shared ι T} {l l₁ : Local ι T} {c : Config ι (Shared ι T) (Local ι T)}
  {plat : Platform ι} {p : Pc T}

/-! ### Deadlines -/

theorem untimed_lock (how : How) (canBlock : Bool) : (how.lock canBlock none).untimed = true := by
  cases how <;> cases canBlock <;> rfl

theorem rank_lock (how : How) (canBlock : Bool) :
    ((how.lock canBlock none).start : Mutex.Pc ι).rank = 9 := by
  cases how <;> cases canBlock <;> rfl

/-- Every receive in progress is a `recv_*` without a deadline. -/
def Untimed (c : Config ι (Shared ι T) (Local ι T)) : Prop :=
  ∀ i y, (c.loc i).pc.receives = some y → ∃ how, y.op = .recv how none

variable [DecidableEq ι] [DecidableEq T]

omit [DecidableEq T] in
theorem Local.Untimed.below {lcv : Condvar.Local ι (Option T)}
    {cv : Condvar.Shared ι (Option T) (List T)} {b : Condvar.Act (Option T) (List T)} (hl : l.Shape)
    (h : l.Untimed) (hb : b = .step ∧ l.cv.atRest = false ∨ b = .spurious)
    (hs : Condvar.step i b s.cv l.cv = some (cv, lcv)) : (⟨lcv, l.pc⟩ : Local ι T).Untimed := by
  refine ⟨Condvar.step_untimed h.cv hs (by rcases hb with ⟨rfl, -⟩ | rfl <;> trivial), fun hph => ?_⟩
  have hready : l.cv.pc = .ready := by
    have hl' := hl
    rw [Local.Shape, show l.pc.phase = .locking from hph] at hl'
    exact hl'
  rcases Condvar.step_goes_on hb hs with ⟨-, -, b', hb', hm⟩ | ⟨-, hne, -⟩
  · have hquiet := (Mutex.goes_on_untimed h.cv.mx hb' hm).2
    have hbefore := h.locking hph
    by_contra hq
    rw [hquiet (Bool.eq_true_of_not_eq_false hq)] at hbefore
    cases hbefore
  · exact absurd hready hne

/-- **No operation brings a deadline**, as long as no receive has one. -/
theorem Move.untimed (m : Move i s l s₁ l₁) (hl : l.Shape) (h : l.Untimed)
    (hrecv : ∀ y, l.pc.receives = some y → ∃ how, y.op = .recv how none) : l₁.Untimed := by
  cases m with
  | below b hb cv lcv hcv => exact h.below hl hb hcv
  | call b p hcall cv lcv hcv =>
    have hlock : ∀ how : How, b = .lock (how.lock (s.cv.mx.plat.canBlock i) none) →
        (⟨lcv, p⟩ : Local ι T).Untimed := fun how hb => by
      subst hb
      have hun := unrefused_lock hcv
      refine ⟨Condvar.step_untimed h.cv hcv (untimed_lock _ _), fun _ => ?_⟩
      show lcv.mx.pc.quiet = false
      cases hm : lcv.mx.pc <;> rw [hm] at hun <;> first | rfl | cases hun
    generalize l.pc = q at hcall hrecv
    cases hcall with
    | sendLock x => exact hlock _ rfl
    | tryLock y hy =>
      obtain ⟨how, hop⟩ := hrecv y rfl
      rw [hy] at hop
      cases hop
    | recvLock y how deadline hy =>
      obtain ⟨how', hop⟩ := hrecv y rfl
      rw [hy] at hop
      cases hop
      exact hlock _ rfl
    | recvWait y how deadline hy =>
      obtain ⟨how', hop⟩ := hrecv y rfl
      rw [hy] at hop
      cases hop
      obtain ⟨k, hk⟩ := how.wait_eq (T := T) (s.cv.mx.plat.canBlock i) none
      rw [hk] at hcv
      exact ⟨Condvar.step_untimed h.cv hcv rfl, by rintro ⟨⟩⟩
    | sendDrop | sendReject | sendNotify | recvDrop | senderNotify | receiverNotify | consume =>
      exact ⟨Condvar.step_untimed h.cv hcv trivial, by rintro ⟨⟩⟩
  | reads p hrest hreads =>
    refine ⟨h.cv, fun hph => ?_⟩
    rw [Local.Shape] at hl
    generalize l.pc = q at hreads hl
    cases hreads with
    | notified y =>
      rcases hl with hwait | ⟨-, hg⟩
      · rw [(Condvar.Local.atRest_iff.1 hrest).2] at hwait
        cases hwait
      · rw [Local.goto_cv, hg]
        rfl
    | _ => cases hph
  | push x hp cv lcv hcv => exact ⟨Condvar.step_untimed h.cv hcv trivial, by rintro ⟨⟩⟩
  | pop y hp hg cv lcv hcv =>
    refine ⟨Condvar.step_untimed h.cv hcv trivial, ?_⟩
    cases lcv.mx.reg <;> rintro ⟨⟩
  | cancel cv lcv hcv => exact ⟨Condvar.step_untimed h.cv hcv trivial, by rintro ⟨⟩⟩
  | returnOk | returnErr | returnRecv | send | recv | dropReceiver => exact ⟨h.cv, by rintro ⟨⟩⟩
  | clone => exact h
  | dropSender =>
    refine ⟨h.cv, ?_⟩
    rw [Local.goto_pc]
    split <;> rintro ⟨⟩

/-! ### Going on -/

omit [DecidableEq ι] [DecidableEq T] in
theorem rank_of_not_looks (queue : List T) (h : l.looks = false) : l.rank queue = l.pc.rank + l.cv.rank := by
  simp [Local.rank, Local.bonus, h]

omit [DecidableEq ι] [DecidableEq T] in
theorem rank_le (queue : List T) : l.rank queue ≤ l.pc.rank + l.cv.rank + 500 := by
  refine Nat.add_le_add_left ?_ _
  rw [Local.bonus]
  split <;> omega

omit [DecidableEq ι] [DecidableEq T] in
theorem bonus_le {queue : List T}
    (h : queue ≠ [] ∨ (l₁.looks = true → l.looks = true)) : l₁.bonus queue ≤ l.bonus queue := by
  rw [Local.bonus, Local.bonus]
  by_cases hb : (queue.isEmpty && l₁.looks) = true
  · rw [Bool.and_eq_true, List.isEmpty_iff] at hb
    have hlooks := (h.resolve_left fun hne => hne hb.1) hb.2
    simp [hb, hlooks]
  · rw [if_neg hb]
    exact Nat.zero_le _

/-- Agent `i` can make a step that brings it nearer to the end of its call. -/
def Advances (i : ι) (c : Config ι (Shared ι T) (Local ι T)) : Prop :=
  ∃ s l, step i .step c.shared (c.loc i) = some (s, l) ∧
    l.rank s.queue + s.entries < (c.loc i).rank c.shared.queue + c.shared.entries

theorem Advances.of_step (hturn : turn i c.shared (c.loc i) = true)
    (hs : (if (c.loc i).cv.atRest then advance i c.shared (c.loc i)
      else lift i .step c.shared (c.loc i) (c.loc i).pc) = some (s, l))
    (hlt : l.rank s.queue + s.entries < (c.loc i).rank c.shared.queue + c.shared.entries) :
    Advances i c := by
  have hstep : step i .step c.shared (c.loc i) = some (settle i (s, l)) := by
    simp [step, hturn, hs]
  -- whose turn it is does not matter to the rank
  have hsettle : (settle i (s, l)).1.queue = s.queue ∧ (settle i (s, l)).1.entries = s.entries ∧
      (settle i (s, l)).2 = l := by
    rw [settle]
    split <;> exact ⟨rfl, rfl, rfl⟩
  refine ⟨(settle i (s, l)).1, (settle i (s, l)).2, hstep, ?_⟩
  rw [hsettle.1, hsettle.2.1, hsettle.2.2]
  exact hlt

theorem Advances.of_advance (hturn : turn i c.shared (c.loc i) = true) (hrest : (c.loc i).cv.atRest = true)
    (hs : advance i c.shared (c.loc i) = some (s, l))
    (hlt : l.rank s.queue + s.entries < (c.loc i).rank c.shared.queue + c.shared.entries) :
    Advances i c :=
  .of_step hturn (by rw [if_pos hrest]; exact hs) hlt

theorem Advances.of_goto (hturn : turn i c.shared (c.loc i) = true) (hrest : (c.loc i).cv.atRest = true)
    (hs : advance i c.shared (c.loc i) = some (s, (c.loc i).goto p)) (hcv : s.cv = c.shared.cv)
    (hlt : p.rank < (c.loc i).pc.rank)
    (hlooks : ((c.loc i).goto p).looks = true → (c.loc i).looks = true) : Advances i c := by
  refine .of_advance hturn hrest hs ?_
  have hq : s.queue = c.shared.queue := congrArg (fun cv => cv.mx.inner) hcv
  have he : s.entries = c.shared.entries := congrArg Condvar.Shared.entries hcv
  rw [hq, he]
  exact Nat.add_lt_add_right (Nat.add_lt_add_of_lt_of_le (Nat.add_lt_add_right hlt _)
    (bonus_le (.inr hlooks))) _

/-- The lock of the queue is called. -/
theorem advances_lock (hturn : turn i c.shared (c.loc i) = true) (hpc : (c.loc i).cv.pc = .ready)
    (hmx : (c.loc i).cv.mx.pc = .idle)
    (hp : (∃ x, (c.loc i).pc = .sendLock x) ∨ ∃ y how, (c.loc i).pc = .recvLock y ∧ y.op = .recv how none) :
    Advances i c := by
  have hrest : (c.loc i).cv.atRest = true := Condvar.Local.atRest_iff.2 ⟨by rw [hmx]; rfl, hpc⟩
  have hcv : (c.loc i).cv.rank = 0 := by rw [Condvar.Local.rank, hpc, hmx]; rfl
  have hlcv : ∀ how : How, ({ (c.loc i).cv with
      mx := (c.loc i).cv.mx.goto (how.lock (c.shared.cv.mx.plat.canBlock i) none).start, pc := .ready } :
      Condvar.Local ι (Option T)).rank = 9 := fun how => by
    rw [Condvar.Local.rank, Mutex.Local.goto_pc, rank_lock]
    rfl
  rcases hp with ⟨x, hp⟩ | ⟨y, how, hp, hop⟩
  · have hs : advance i c.shared (c.loc i) = some (c.shared, ⟨{ (c.loc i).cv with
        mx := (c.loc i).cv.mx.goto (x.how.lock (c.shared.cv.mx.plat.canBlock i) none).start, pc := .ready },
        .sendRecheck x⟩) := by
      simp [advance, hp, lift, Condvar.starts_lock _ hpc hmx]
    refine .of_advance hturn hrest hs (Nat.add_lt_add_right ?_ _)
    rw [rank_of_not_looks _ rfl, rank_of_not_looks _ (by rw [Local.looks, hp]), hlcv, hcv, hp]
    exact (by decide : 70 + 9 < 90 + 0)
  · have hs : advance i c.shared (c.loc i) = some (c.shared, ⟨{ (c.loc i).cv with
        mx := (c.loc i).cv.mx.goto (how.lock (c.shared.cv.mx.plat.canBlock i) none).start, pc := .ready },
        .recvPop y⟩) := by
      simp [advance, hp, hop, lift, Condvar.starts_lock _ hpc hmx]
    refine .of_advance hturn hrest hs (Nat.add_lt_add_right ?_ _)
    rw [rank_of_not_looks (l := c.loc i) _ (by rw [Local.looks, hp]), hcv, hp]
    refine Nat.lt_of_le_of_lt (rank_le _) ?_
    rw [hlcv]
    exact (by decide : 40 + 9 + 500 < 1000 + 0)

theorem advances_drop (hturn : turn i c.shared (c.loc i) = true) (hpc : (c.loc i).cv.pc = .ready)
    (hmx : (c.loc i).cv.mx.pc = .guard) {q : Pc T} (hrank : q.rank < (c.loc i).pc.rank)
    (hp : (∃ x, (c.loc i).pc = .sendDrop x ∧ q = .sendNotify x) ∨
      (∃ x, (c.loc i).pc = .sendReject x ∧ q = .sendErr x) ∨
      ∃ y r, (c.loc i).pc = .recvDrop y r ∧ q = .recvReturn y r) : Advances i c := by
  have hrest : (c.loc i).cv.atRest = true := Condvar.Local.atRest_iff.2 ⟨by rw [hmx]; rfl, hpc⟩
  have hcv : (c.loc i).cv.rank = 6 := by rw [Condvar.Local.rank, hpc, hmx]; rfl
  have hs : advance i c.shared (c.loc i) = some
      ({ c.shared with cv := { c.shared.cv with mx := { c.shared.cv.mx with dataLock := false } } },
        ⟨{ (c.loc i).cv with mx := (c.loc i).cv.mx.goto Mutex.didUnlock, pc := .ready }, q⟩) := by
    rcases hp with ⟨x, hp, rfl⟩ | ⟨x, hp, rfl⟩ | ⟨y, r, hp, rfl⟩ <;>
      simp [advance, hp, lift, Condvar.starts_drop hpc hmx]
  have hlooks : (c.loc i).looks = false ∧ ∀ lcv, (⟨lcv, q⟩ : Local ι T).looks = false := by
    rcases hp with ⟨x, hp, rfl⟩ | ⟨x, hp, rfl⟩ | ⟨y, r, hp, rfl⟩ <;>
      exact ⟨by rw [Local.looks, hp], fun _ => rfl⟩
  refine .of_advance hturn hrest hs (Nat.add_lt_add_right ?_ _)
  rw [rank_of_not_looks _ (hlooks.2 _), rank_of_not_looks _ hlooks.1, hcv]
  exact Nat.add_lt_add hrank (by decide : 5 < 6)

/-- A notification starts. -/
theorem advances_notify (hturn : turn i c.shared (c.loc i) = true) (hpc : (c.loc i).cv.pc = .ready)
    (hmx : (c.loc i).cv.mx.pc = .idle)
    (hp : (∃ x, (c.loc i).pc = .sendNotify x) ∨ (c.loc i).pc = .senderNotify ∨
      (c.loc i).pc = .receiverNotify) : Advances i c := by
  have hrest : (c.loc i).cv.atRest = true := Condvar.Local.atRest_iff.2 ⟨by rw [hmx]; rfl, hpc⟩
  have hcv : (c.loc i).cv.rank = 0 := by rw [Condvar.Local.rank, hpc, hmx]; rfl
  have hmx0 : (c.loc i).cv.mx.pc.rank = 0 := by rw [hmx]; rfl
  have hcalls : ∃ p q, (q.rank + p.rank < (c.loc i).pc.rank) ∧ (∀ lcv, (⟨lcv, q⟩ : Local ι T).looks = false) ∧
      (c.loc i).looks = false ∧
      advance i c.shared (c.loc i) = some (c.shared, ⟨(c.loc i).cv.goto p, q⟩) := by
    rcases hp with ⟨x, hp⟩ | hp | hp
    · exact ⟨.notifyOne .spin, .sendReturn x, by rw [hp]; exact (by decide : 30 + 5 < 40), fun _ => rfl,
        by rw [Local.looks, hp], by simp [advance, hp, lift, Condvar.step, hrest]⟩
    · exact ⟨Condvar.notifyAll, .senderReturn, by rw [hp]; exact (by decide : 1 + 7 < 20), fun _ => rfl,
        by rw [Local.looks, hp], by simp [advance, hp, lift, Condvar.step, hrest]⟩
    · exact ⟨Condvar.notifyAll, .receiverReturn, by rw [hp]; exact (by decide : 1 + 7 < 20), fun _ => rfl,
        by rw [Local.looks, hp], by simp [advance, hp, lift, Condvar.step, hrest]⟩
  obtain ⟨p, q, hlt, hq, hlooks, hs⟩ := hcalls
  refine .of_advance hturn hrest hs (Nat.add_lt_add_right ?_ _)
  rw [rank_of_not_looks _ (hq _), rank_of_not_looks _ hlooks, hcv]
  have hlcv : ((c.loc i).cv.goto p).rank = p.rank := by
    rw [Condvar.Local.rank, Condvar.Local.goto_pc, Condvar.Local.goto_mx, hmx0, Nat.add_zero]
  rw [hlcv]
  exact hlt

/-- The queue is accessed. -/
theorem advances_access (hturn : turn i c.shared (c.loc i) = true) (hpc : (c.loc i).cv.pc = .ready)
    (hmx : (c.loc i).cv.mx.pc = .guard)
    (hp : (∃ x, (c.loc i).pc = .sendPush x) ∨ ∃ y, (c.loc i).pc = .recvPop y) : Advances i c := by
  have hrest : (c.loc i).cv.atRest = true := Condvar.Local.atRest_iff.2 ⟨by rw [hmx]; rfl, hpc⟩
  have hacc : ∀ f, ∃ cv lcv, Condvar.step i (.access f) c.shared.cv (c.loc i).cv = some (cv, lcv) ∧
      cv.entries = c.shared.cv.entries ∧ lcv.rank = (c.loc i).cv.rank ∧
      lcv.mx.reg = (f ((c.loc i).cv.mx.reg, c.shared.queue)).1 := fun f =>
    ⟨_, _, Condvar.starts_access f hpc hmx, rfl, by rw [Condvar.Local.rank, Condvar.Local.rank, hpc], rfl⟩
  rcases hp with ⟨x, hp⟩ | ⟨y, hp⟩
  · obtain ⟨cv, lcv, hacc, hentries, hrank, -⟩ := hacc (pushBack x.value)
    have hs : advance i c.shared (c.loc i) =
        some ({ c.shared with cv := cv, pushed := c.shared.pushed ++ [x] }, ⟨lcv, .sendDrop x⟩) := by
      simp [advance, hp, lift, hacc]
    refine .of_advance hturn hrest hs ?_
    rw [rank_of_not_looks _ rfl, rank_of_not_looks _ (by rw [Local.looks, hp]), hp]
    show 50 + lcv.rank + cv.entries < 60 + (c.loc i).cv.rank + c.shared.cv.entries
    omega
  · obtain ⟨cv, lcv, hacc, hentries, hrank, hreg⟩ := hacc popFront
    have hpcr : (c.loc i).pc.rank = 40 := by rw [hp]; rfl
    have hlooks : (c.loc i).looks = true := by rw [Local.looks, hp]
    have hreg : lcv.mx.reg = c.shared.queue.head? := hreg
    cases hq : c.shared.queue with
    | cons t ts =>
      rw [hq] at hreg
      have hs : advance i c.shared (c.loc i) =
          some ({ c.shared with cv := cv }, ⟨lcv, .recvDrop y (.ok t)⟩) := by
        simp [advance, hp, hmx, lift, hacc, hreg, Local.goto]
      refine .of_advance hturn hrest hs ?_
      rw [rank_of_not_looks _ rfl, Local.rank, hpcr, hq]
      show 30 + lcv.rank + cv.entries < 40 + (c.loc i).cv.rank + 0 + c.shared.cv.entries
      omega
    | nil =>
      rw [hq] at hreg
      have hs : advance i c.shared (c.loc i) = some ({ c.shared with cv := cv }, ⟨lcv, .recvLoad y⟩) := by
        simp [advance, hp, hmx, lift, hacc, hreg]
      refine .of_advance hturn hrest hs ?_
      rw [rank_of_not_looks _ rfl, Local.rank, Local.bonus, hpcr, hq, hlooks]
      show 210 + lcv.rank + cv.entries < 40 + (c.loc i).cv.rank + 500 + c.shared.cv.entries
      omega

theorem advances_wait (hturn : turn i c.shared (c.loc i) = true) (hpc : (c.loc i).cv.pc = .ready)
    (hmx : (c.loc i).cv.mx.pc = .guard) {y : Recv} {how : How} (hop : y.op = .recv how none)
    (hp : (c.loc i).pc = .recvWait y) : Advances i c := by
  have hrest : (c.loc i).cv.atRest = true := Condvar.Local.atRest_iff.2 ⟨by rw [hmx]; rfl, hpc⟩
  obtain ⟨k, hk⟩ := how.wait_eq (T := T) (c.shared.cv.mx.plat.canBlock i) none
  have hs : advance i c.shared (c.loc i) =
      some (c.shared, ⟨(c.loc i).cv.goto (.register k none), .recvWaited y⟩) := by
    simp [advance, hp, hop, hk, lift, Condvar.starts_wait hpc hmx]
  have hmxr : (c.loc i).cv.mx.pc.rank = 6 := by rw [hmx]; rfl
  have hcv : (c.loc i).cv.rank = 6 := by rw [Condvar.Local.rank, hpc, hmx]; rfl
  refine .of_advance hturn hrest hs (Nat.add_lt_add_right ?_ _)
  rw [rank_of_not_looks _ rfl, rank_of_not_looks _ (by rw [Local.looks, hp]), hcv, hp,
    Condvar.Local.rank, Condvar.Local.goto_mx, hmxr]
  exact (by decide : 50 + (100 + 6) < 200 + 6)

theorem Advances.of_below (hturn : turn i c.shared (c.loc i) = true) (hrest : (c.loc i).cv.atRest = false)
    (hlooks : ∀ s l, Condvar.step i .step c.shared.cv (c.loc i).cv = some (s, l) →
      c.shared.queue ≠ [] ∨ ((⟨l, (c.loc i).pc⟩ : Local ι T).looks = true → (c.loc i).looks = true))
    (h : Condvar.Advances i (toCondvar.config c)) : Advances i c := by
  obtain ⟨cv, lcv, hs, hlt⟩ := h
  have hs' : Condvar.step i .step c.shared.cv (c.loc i).cv = some (cv, lcv) := hs
  have hq : cv.mx.inner = c.shared.queue := Condvar.step_inner hs' nofun
  refine .of_step (s := { c.shared with cv := cv }) (l := ⟨lcv, (c.loc i).pc⟩) hturn
    (by rw [if_neg (by rw [hrest]; exact Bool.false_ne_true)]; simp [lift, hs']) ?_
  have hlt' : lcv.rank + cv.entries < (c.loc i).cv.rank + c.shared.cv.entries := hlt
  have hbonus : (⟨lcv, (c.loc i).pc⟩ : Local ι T).bonus cv.mx.inner ≤ (c.loc i).bonus c.shared.queue := by
    rw [hq]
    exact bonus_le (hlooks cv lcv hs')
  show (c.loc i).pc.rank + lcv.rank + (⟨lcv, (c.loc i).pc⟩ : Local ι T).bonus cv.mx.inner + cv.entries <
    (c.loc i).pc.rank + (c.loc i).cv.rank + (c.loc i).bonus c.shared.queue + c.shared.cv.entries
  omega

/-- **A call on the channel goes on** while no call below is in progress. -/
theorem advances_rest (hl : (c.loc i).Shape) (hun : (c.loc i).Untimed) (hturn : turn i c.shared (c.loc i) = true)
    (hrecv : ∀ y, (c.loc i).pc.receives = some y → ∃ how, y.op = .recv how none)
    (hrest : (c.loc i).cv.atRest = true) (hne : (c.loc i).pc ≠ .ready) : Advances i c := by
  obtain ⟨hmx, hpc⟩ := Condvar.Local.atRest_iff.1 hrest
  rw [Local.Shape] at hl
  have hidle : (c.loc i).cv.mx.pc.quiet = true → (c.loc i).cv.mx.pc = .idle :=
    Mutex.Pc.eq_idle hun.cv.mx hmx
  cases hp : (c.loc i).pc with
  | ready => exact absurd hp hne
  | sendLoad x =>
    by_cases hactive : c.shared.receiverActive = true
    · exact .of_goto (p := .sendLock x) hturn hrest (by simp [advance, hp, hactive]) rfl
        (by rw [hp]; exact (by decide : 90 < 100)) (by rintro ⟨⟩)
    · exact .of_goto (p := .sendErr x) hturn hrest (by simp [advance, hp, hactive]) rfl
        (by rw [hp]; exact (by decide : 30 < 100)) (by rintro ⟨⟩)
  | sendLock x =>
    rw [hp] at hl
    exact advances_lock hturn hpc (hidle hl.2.2) (.inl ⟨x, hp⟩)
  | sendRecheck x =>
    have hg := Mutex.Pc.eq_guard hun.cv.mx hmx (hun.locking (by rw [hp]; rfl))
    by_cases hactive : c.shared.receiverActive = true
    · exact .of_goto (p := .sendPush x) hturn hrest (by simp [advance, hp, hg, hactive]) rfl
        (by rw [hp]; exact (by decide : 60 < 70)) (by rintro ⟨⟩)
    · exact .of_goto (p := .sendReject x) hturn hrest (by simp [advance, hp, hg, hactive]) rfl
        (by rw [hp]; exact (by decide : 50 < 70)) (by rintro ⟨⟩)
  | sendPush x =>
    rw [hp] at hl
    exact advances_access hturn hpc hl.2 (.inl ⟨x, hp⟩)
  | sendDrop x =>
    rw [hp] at hl
    exact advances_drop hturn hpc hl.2 (q := .sendNotify x) (by rw [hp]; exact (by decide : 40 < 50))
      (.inl ⟨x, hp, rfl⟩)
  | sendReject x =>
    rw [hp] at hl
    exact advances_drop hturn hpc hl.2 (q := .sendErr x) (by rw [hp]; exact (by decide : 30 < 50))
      (.inr (.inl ⟨x, hp, rfl⟩))
  | recvDrop y r =>
    rw [hp] at hl
    exact advances_drop hturn hpc hl.2 (q := .recvReturn y r) (by rw [hp]; exact (by decide : 20 < 30))
      (.inr (.inr ⟨y, r, hp, rfl⟩))
  | sendNotify x =>
    rw [hp] at hl
    exact advances_notify hturn hpc (hidle hl.2) (.inl ⟨x, hp⟩)
  | senderNotify =>
    rw [hp] at hl
    exact advances_notify hturn hpc (hidle hl.2.2) (.inr (.inl hp))
  | receiverNotify =>
    rw [hp] at hl
    exact advances_notify hturn hpc (hidle hl.2.2) (.inr (.inr hp))
  | sendReturn x =>
    exact .of_goto (s := returnSend i x (.ok ()) c.shared) (p := .ready) hturn hrest
      (by simp [advance, hp]) rfl (by rw [hp]; exact (by decide : 0 < 30)) (by rintro ⟨⟩)
  | sendErr x =>
    exact .of_goto (s := returnSend i x (.error x.value) c.shared) (p := .ready) hturn hrest
      (by simp [advance, hp]) rfl (by rw [hp]; exact (by decide : 0 < 30)) (by rintro ⟨⟩)
  | recvReturn y r =>
    exact .of_goto (s := returnRecv i y r c.shared) (p := .ready) hturn hrest
      (by simp [advance, hp]) rfl (by rw [hp]; exact (by decide : 0 < 20)) (by rintro ⟨⟩)
  | senderReturn | receiverReturn =>
    exact .of_goto (p := .ready) hturn hrest (by simp [advance, hp]) rfl
      (by rw [hp]; exact (by decide : 0 < 1)) (by rintro ⟨⟩)
  | recvLock y =>
    rw [hp] at hl
    obtain ⟨how, hop⟩ := hrecv y (by rw [hp]; rfl)
    exact advances_lock hturn hpc (hidle hl.2.2) (.inr ⟨y, how, hp, hop⟩)
  | recvPop y =>
    have hg := Mutex.Pc.eq_guard hun.cv.mx hmx (hun.locking (by rw [hp]; rfl))
    exact advances_access hturn hpc hg (.inr ⟨y, hp⟩)
  | recvLoad y =>
    obtain ⟨how, hop⟩ := hrecv y (by rw [hp]; rfl)
    by_cases hcount : c.shared.senderCount = 0
    · exact .of_goto (p := .recvDrop y .disconnected) hturn hrest (by simp [advance, hp, hcount]) rfl
        (by rw [hp]; exact (by decide : 30 < 210)) (by rintro ⟨⟩)
    · exact .of_goto (p := .recvWait y) hturn hrest (by simp [advance, hp, hcount, hop]) rfl
        (by rw [hp]; exact (by decide : 200 < 210)) (by rintro ⟨⟩)
  | recvWait y =>
    rw [hp] at hl
    obtain ⟨how, hop⟩ := hrecv y (by rw [hp]; rfl)
    exact advances_wait hturn hpc hl.2 hop hp
  | recvWaited y =>
    obtain ⟨how, hop⟩ := hrecv y (by rw [hp]; rfl)
    exact .of_goto (p := .recvPop y) hturn hrest (by simp [advance, hp, hop]) rfl
      (by rw [hp]; exact (by decide : 40 < 50)) fun _ => by rw [Local.looks, hp, hpc]; rfl

/-- **Somebody goes on**, as long as some call is neither over nor asleep. -/
theorem advances (h : sys.Reachable (init plat) c) (hun : ∀ i, (c.loc i).Untimed) (hrecv : Untimed c)
    (hturn : ∀ i, turn i c.shared (c.loc i) = true)
    (hcall : ∃ i, (c.loc i).pc ≠ .ready ∧ (c.loc i).cv.pc.asleep = false) : ∃ i, Advances i c := by
  by_contra hno
  have hno : ∀ i, ¬ Advances i c := fun i hi => hno ⟨i, hi⟩
  have hcv := condvar_reachable h
  have hrest : ∀ i, (c.loc i).cv.atRest = true → (c.loc i).pc = .ready := fun i hi => by
    by_contra hne
    exact hno i (advances_rest (shape h i) (hun i) (hturn i) (hrecv i) hi hne)
  have hready : ∀ i, (c.loc i).pc = .ready → (c.loc i).cv.atRest = true ∧
      (c.loc i).cv.mx.pc.quiet = true := fun i hp => by
    have hl := shape h i
    rw [Local.Shape, hp] at hl
    exact ⟨Condvar.Local.atRest_iff.2 ⟨hl.2.1, hl.1⟩, hl.2.2⟩
  -- nobody sits on the guard of the queue
  have hguard : ∀ i, (c.loc i).cv.pc = .ready → (c.loc i).cv.mx.pc ≠ .guard := fun i hpc hg => by
    have hp := hrest i (Condvar.Local.atRest_iff.2 ⟨by rw [hg]; rfl, hpc⟩)
    have := (hready i hp).2
    rw [hg] at this
    cases this
  obtain ⟨i, hne, hs⟩ := hcall
  have hbusy : (c.loc i).cv.atRest = false := by
    by_contra hi
    exact hne (hrest i (Bool.eq_true_of_not_eq_false hi))
  obtain ⟨j, hj, hsj, hadv⟩ := Condvar.advances hcv (fun i => (hun i).cv) hguard ⟨i, hbusy, hs⟩
  refine hno j (.of_below (hturn j) hj (fun cv lcv hcv => .inr fun hlooks => ?_) hadv)
  -- whoever is not asleep does not come back from a wait
  have hl := shape h j
  cases hp : (c.loc j).pc with
  | recvPop => rw [Local.looks, hp]
  | recvWaited y =>
    rw [Local.looks, hp] at hlooks ⊢
    rw [Local.Shape, hp] at hl
    rcases hl with hwait | ⟨hpc, -⟩
    · exact Condvar.back_of_step (hun j).cv.pc hwait hsj hcv hlooks
    · rw [hpc]
      rfl
  | _ =>
    rw [Local.looks, hp] at hlooks
    cases hlooks

theorem advances_wake (h : sys.Reachable (init plat) c) (hun : (c.loc i).Untimed)
    (hturn : turn i c.shared (c.loc i) = true) (hs : (c.loc i).cv.pc.asleep = true)
    (hq : c.shared.queue ≠ []) {k : Condvar.Kind} {r : ℕ} (hsleep : (c.loc i).cv.pc.sleeps = some (k, r))
    (hsig : c.shared.cv.signalled (k, ⟨r, i⟩) = true) : Advances i c := by
  have hl := Condvar.shape (condvar_reachable h) i
  have hmx : (c.loc i).cv.mx.pc.atRest = true := by
    have hl : (c.loc i).cv.Shape := hl
    cases hp : (c.loc i).cv.pc with
    | load | park | await =>
      simp only [Condvar.Local.Shape, hp] at hl
      exact hl.1
    | _ => rw [hp] at hs; cases hs
  have hbusy : (c.loc i).cv.atRest = false := by
    by_contra hrest
    rw [(Condvar.Local.atRest_iff.1 (Bool.eq_true_of_not_eq_false hrest)).2] at hs
    cases hs
  exact .of_below hturn hbusy (fun _ _ _ => .inl hq)
    (Condvar.advances_wake (c := toCondvar.config c) hmx hun.cv.pc hs hsleep hsig)

end Mpsc

end WasmSafeThread
