import WasmSafeThread.Mpsc.Timed

/-!
# What `try_recv` reports

`try_recv` returns `Empty` when the queue is empty and a `Sender` is alive, and also when its `try_lock`
fails, whatever is in the queue.

* `Glance` : the channel at the start of a call, and what was true during the call.
* `Glancing` : how the history fits the state, at each point of a `try_recv`.
* `try_recv_iff` : a `try_recv` reports the truth exactly when it obtained the lock, or the channel was
  empty and connected when the call began.
-/

namespace WasmSafeThread

namespace Mpsc

variable {ι T : Type*}

/-! ### The history of a call -/

/-- The queue is empty and a `Sender` is alive. -/
def Shared.idle (s : Shared ι T) : Bool := s.queue.isEmpty && decide (s.senderCount ≠ 0)

/-- The history of a `try_recv`. -/
structure Glance (T : Type*) where
  /-- The queue when the call began. -/
  queue : List T
  /-- The number of senders when the call began. -/
  senders : ℕ
  /-- The mutex was free at its `try_lock`. -/
  free : Bool
  /-- At some instant during the call the queue was empty and a `Sender` alive. -/
  idle : Bool
  deriving DecidableEq

namespace Glance

/-- A call starts. -/
def new (s : Shared ι T) : Glance T := ⟨s.queue, s.senderCount, false, s.idle⟩

/-- Before any call: the new channel is idle. -/
def init : Glance T := ⟨[], 1, false, true⟩

/-- The next instant of the call. -/
def sees (s : Shared ι T) (h : Glance T) : Glance T := { h with idle := h.idle || s.idle }

section Note

variable [DecidableEq ι] [DecidableEq T]

/-- The agent itself moves. -/
def own (s : Shared ι T) (l l₁ : Local ι T) (h : Glance T) : Glance T :=
  match l.pc, l₁.pc with
  | .ready, .recvLock _ => new s
  | .recvPop _, .recvPop _ =>
    if l.cv.mx.pc = .tryLock then { h with free := !s.cv.mx.dataLock } else h
  | _, _ => h

/-- The histories of the calls. -/
def note (c : Config ι (Shared ι T) (Local ι T)) :
    Label ι (Act T) (Event ι) → (ι → Glance T) → ι → Glance T
  | .agent i a, h =>
    match step i a c.shared (c.loc i) with
    | some (s₁, l₁) => fun j =>
      (if j = i then (h j).own c.shared (c.loc i) l₁ else h j).sees s₁
    | none => h
  | .env _, h => h

end Note

/-- The history and the senders of the channel. -/
structure Sound (h : Glance T) (s : Shared ι T) : Prop where
  start : h.queue = [] → h.senders ≠ 0 → h.idle = true
  alive : h.idle = true → h.senders ≠ 0
  gone : h.senders = 0 → s.senderCount = 0

/-- What the history says of a result. -/
structure Verdict (h : Glance T) (r : Outcome T) : Prop where
  locked : h.free = true →
    (r = .empty → h.idle = true) ∧ ∀ t q, h.queue = t :: q → r = .ok t
  refused : h.free = false → r = .empty

end Glance

/-- How the history of a `try_recv` fits the state. -/
def Glancing (h : Glance T) (s : Shared ι T) (l : Local ι T) : Prop :=
  match l.pc with
  | .recvLock _ => h.queue <+: s.queue
  | .recvPop _ =>
    (l.cv.mx.pc = .tryLock ∨ l.cv.mx.pc = .guard ∧ h.free = true ∨
      l.cv.mx.pc = .failed ∧ h.free = false) ∧ h.queue <+: s.queue
  | .recvLoad _ => h.free = true ∧ h.queue = [] ∧ s.queue = []
  | .recvWait _ | .recvWaited _ => False
  | .recvDrop _ r | .recvReturn _ r => h.Verdict r
  | _ => True

variable [DecidableEq ι] [DecidableEq T] {i j : ι} {a : Act T} {s s₁ : Shared ι T}
  {l l₁ : Local ι T} {plat : Platform ι} {c : Config ι (Shared ι T) (Local ι T)}
  {h : Glance T} {y : Recv} {b : Condvar.Act (Option T) (List T)}
  {cv : Condvar.Shared ι (Option T) (List T)} {lcv : Condvar.Local ι (Option T)} {p : Pc T}

omit [DecidableEq ι] [DecidableEq T] in
theorem Glance.Sound.sees (hS : h.Sound s) (hcount : s.senderCount = 0 → s₁.senderCount = 0) :
    (h.sees s₁).Sound s₁ := by
  have hgone : h.senders = 0 → s₁.senderCount = 0 := fun hnone => hcount (hS.gone hnone)
  refine ⟨fun hempty halive => ?_, fun hidle hnone => ?_, hgone⟩
  · simp only [Glance.sees, Bool.or_eq_true]
    exact .inl (hS.start hempty halive)
  · simp only [Glance.sees, Bool.or_eq_true] at hidle
    rcases hidle with hidle | hidle
    · exact hS.alive hidle hnone
    · simp only [Shared.idle, Bool.and_eq_true, decide_eq_true_eq] at hidle
      exact hidle.2 (hgone hnone)

omit [DecidableEq ι] [DecidableEq T] in
theorem Glance.Sound.new : (Glance.new s).Sound s := by
  refine ⟨fun hempty halive => ?_, fun hidle => ?_, id⟩
  · have hempty : s.queue = [] := hempty
    simpa [Glance.new, Shared.idle, hempty] using halive
  · simp only [Glance.new, Shared.idle, Bool.and_eq_true, decide_eq_true_eq] at hidle
    exact hidle.2

omit [DecidableEq T] in
theorem Glance.Sound.own (hS : h.Sound s) : (h.own s l l₁).Sound s := by
  simp only [Glance.own]
  split
  · exact .new
  · split
    · exact ⟨hS.start, hS.alive, hS.gone⟩
    · exact hS
  · exact hS

omit [DecidableEq ι] [DecidableEq T] in
theorem Glance.Verdict.sees {r : Outcome T} (hV : h.Verdict r) : (h.sees s₁).Verdict r := by
  refine ⟨fun hfree => ⟨fun hr => ?_, (hV.locked hfree).2⟩, hV.refused⟩
  simp only [Glance.sees, Bool.or_eq_true]
  exact .inl ((hV.locked hfree).1 hr)

/-! ### Another agent moves -/

omit [DecidableEq ι] [DecidableEq T] in
/-- Others only push, and nothing while the call has the lock. -/
theorem Glancing.others (hG : Glancing h s l) (hl : l.Shape)
    (hstarts : suspended l.cv = false → s.queue <+: s₁.queue)
    (hqueue : l.cv.mx.pc = .guard → s₁.queue = s.queue) : Glancing (h.sees s₁) s₁ l := by
  cases hp : l.pc with
  | recvLock =>
    simp only [Glancing, hp] at hG ⊢
    rw [Local.Shape, hp] at hl
    exact hG.trans (hstarts (not_suspended (by rw [hl.1]; rfl) (.inl hl.2.2)))
  | recvPop =>
    simp only [Glancing, hp] at hG ⊢
    refine ⟨hG.1, hG.2.trans (hstarts ?_)⟩
    -- a `try_lock` never suspends
    rw [Local.Shape, hp] at hl
    have hpc : l.cv.pc = .ready := hl
    rcases hG.1 with hmx | ⟨hmx, -⟩ | ⟨hmx, -⟩ <;> simp [suspended, hmx, hpc]
  | recvLoad =>
    simp only [Glancing, hp] at hG ⊢
    rw [Local.Shape, hp] at hl
    exact ⟨hG.1, hG.2.1, (hqueue hl.2).trans hG.2.2⟩
  | recvDrop | recvReturn =>
    simp only [Glancing, hp] at hG ⊢
    exact hG.sees
  | recvWait | recvWaited => simp only [Glancing, hp] at hG
  | _ => simp only [Glancing, hp]

omit [DecidableEq ι] [DecidableEq T] in
theorem Glancing.setPlat {q : Platform ι} (hG : Glancing h s l) : Glancing h (s.setPlat q) l := by
  unfold Glancing at hG ⊢
  split at hG <;> exact hG

theorem queue_prefix (h : sys.Reachable (init plat) c) (m : Move i c.shared (c.loc i) s₁ l₁)
    (hji : j ≠ i) (hy : (c.loc j).pc.receives = some y) (hrun : suspended (c.loc j).cv = false) :
    c.shared.queue <+: s₁.queue := by
  rcases m.queue with hq | ⟨x, -, hq⟩ | ⟨y', hp, hg, -⟩
  · rw [hq]
  · rw [hq]
    exact List.prefix_append _ _
  · have hl := shape h i
    rw [Local.Shape, hp] at hl
    have hi : c.shared.running = some i := (runs h i).2 ⟨y', by rw [hp]; rfl,
      not_suspended (by rw [show (c.loc i).cv.pc = .ready from hl]; rfl) (.inr (by rw [hg]; rfl))⟩
    have hj : c.shared.running = some j := (runs h j).2 ⟨y, hy, hrun⟩
    rw [hi, Option.some.injEq] at hj
    exact absurd hj.symm hji

/-! ### The call moves -/

omit [DecidableEq T] in
theorem step_tryLock (h : Condvar.step i b s.cv l.cv = some (cv, lcv))
    (hmx : l.cv.mx.pc = .tryLock) (hb : b = .step ∨ b = .spurious) :
    lcv.mx.pc = if s.cv.mx.dataLock then .failed else .guard := by
  rcases hb with rfl | rfl
  · simp only [Condvar.step, hmx, Mutex.Pc.atRest] at h
    obtain ⟨m, lm, hm, -, rfl⟩ := Condvar.lift_eq_some h
    simp only [Mutex.step, Mutex.advance, hmx, Mutex.Shared.tryLock] at hm
    split at hm <;> cases hm <;> simp_all
  · simp only [Condvar.step, hmx, Mutex.Pc.atRest] at h
    obtain ⟨m, lm, hm, -, -⟩ := Condvar.lift_eq_some h
    simp [Mutex.step, hmx] at hm

omit [DecidableEq T] in
/-- A call below goes on. -/
theorem Glancing.below (hG : Glancing h s l) (hl : l.Shape)
    (hb : b = .step ∧ l.cv.atRest = false ∨ b = .spurious)
    (hcv : Condvar.step i b s.cv l.cv = some (cv, lcv)) (running : Option ι) :
    Glancing ((h.own s l ⟨lcv, l.pc⟩).sees { s with cv := cv, running := running })
      { s with cv := cv, running := running } ⟨lcv, l.pc⟩ := by
  have hbusy : l.cv.atRest ≠ true := fun hrest => absurd hcv (Condvar.not_goes_on hrest hb)
  have hqueue : cv.mx.inner = s.cv.mx.inner := Condvar.step_inner hcv (by
    rcases hb with ⟨rfl, -⟩ | rfl <;> exact nofun)
  cases hp : l.pc with
  | recvPop y =>
    simp only [Glancing, hp] at hG
    rw [Local.Shape, hp] at hl
    have hmx : l.cv.mx.pc = .tryLock := by
      rcases hG.1 with hmx | ⟨hmx, -⟩ | ⟨hmx, -⟩
      · exact hmx
      · exact absurd (Condvar.Local.atRest_iff.2 ⟨by rw [hmx]; rfl, hl⟩) hbusy
      · exact absurd (Condvar.Local.atRest_iff.2 ⟨by rw [hmx]; rfl, hl⟩) hbusy
    have hmx₁ := step_tryLock hcv hmx (hb.imp_left And.left)
    simp only [Glancing, Glance.own, hp, hmx, if_true]
    refine ⟨?_, by rw [Shared.queue, hqueue]; exact hG.2⟩
    cases hlock : s.cv.mx.dataLock with
    | true => exact .inr (.inr ⟨by rw [hmx₁, hlock]; rfl, rfl⟩)
    | false => exact .inr (.inl ⟨by rw [hmx₁, hlock]; rfl, rfl⟩)
  | recvReturn y r =>
    simp only [Glancing, Glance.own, hp] at hG ⊢
    exact hG.sees
  | recvWait | recvWaited => simp only [Glancing, hp] at hG
  | recvLock | recvLoad | recvDrop =>
    rw [Local.Shape, hp] at hl
    refine absurd (Condvar.Local.atRest_iff.2 ⟨?_, hl.1⟩) hbusy
    first | exact hl.2.1 | (rw [hl.2]; rfl)
  | _ => trivial

omit [DecidableEq T] in
theorem Glancing.call (hG : Glancing h s l) {canBlock : Bool} (hcall : Calls canBlock l.pc b p)
    (hcv : Condvar.step i b s.cv l.cv = some (cv, lcv))
    (hy : ∀ y, l.pc.receives = some y → y.op = .tryRecv) (running : Option ι) :
    Glancing ((h.own s l ⟨lcv, p⟩).sees { s with cv := cv, running := running })
      { s with cv := cv, running := running } ⟨lcv, p⟩ := by
  have hqueue : cv.mx.inner = s.cv.mx.inner := Condvar.step_inner hcv hcall.not_access
  generalize hq : l.pc = q at hcall
  simp only [Glancing, Glance.own, hq] at hG ⊢
  cases hcall with
  | tryLock y hop =>
    exact ⟨.inl (Condvar.step_lock hcv).1, by rw [Shared.queue, hqueue]; exact hG⟩
  | recvLock y how deadline hop =>
    have htry := hy y (by rw [hq]; rfl)
    rw [htry] at hop
    cases hop
  | recvWait => exact hG.elim
  | recvDrop y r => exact hG.sees
  | _ => trivial

omit [DecidableEq T] in
/-- The state of the channel is read. -/
theorem Glancing.reads (hG : Glancing h s l) (hreads : Reads s l l.pc p)
    (hy : ∀ y, l.pc.receives = some y → y.op = .tryRecv) (running : Option ι) :
    Glancing ((h.own s l (l.goto p)).sees { s with running := running })
      { s with running := running } (l.goto p) := by
  generalize hq : l.pc = q at hreads
  simp only [Glancing, Glance.own, hq, Local.goto_pc] at hG ⊢
  cases hreads with
  | tryFailed y hg =>
    have hfree : h.free = false := by
      rcases hG.1 with hmx | ⟨hmx, -⟩ | ⟨-, hfree⟩
      · rw [hg] at hmx; cases hmx
      · rw [hg] at hmx; cases hmx
      · exact hfree
    refine ⟨fun htrue => ?_, fun _ => rfl⟩
    simp [Glance.sees, hfree] at htrue
  | disconnected y hcount =>
    refine ⟨fun _ => ⟨nofun, fun t q hcons => ?_⟩, fun hfalse => ?_⟩
    · simp [Glance.sees, hG.2.1] at hcons
    · simp [Glance.sees, hG.1] at hfalse
  | empty y hcount =>
    refine ⟨fun _ => ⟨fun _ => ?_, fun t q hcons => ?_⟩, fun hfalse => ?_⟩
    · -- this is the instant: the queue is empty and a sender alive
      have hempty : s.cv.mx.inner = [] := hG.2.2
      simp [Glance.sees, Shared.idle, Shared.queue, hempty, hcount]
    · simp [Glance.sees, hG.2.1] at hcons
    · simp [Glance.sees, hG.1] at hfalse
  | lockFailed y _ _ _ hop | wait y _ _ _ hop =>
    have htry := hy y (by rw [hq]; rfl)
    rw [htry] at hop
    cases hop
  | timedOut | notified => exact hG.elim
  | _ => trivial

omit [DecidableEq T] in
/-- The call pops. -/
theorem Glancing.pop (hG : Glancing h s l) (hp : l.pc = .recvPop y) (hg : l.cv.mx.pc = .guard)
    (hcv : Condvar.step i (.access popFront) s.cv l.cv = some (cv, lcv)) (running : Option ι)
    (hpc : p = match lcv.mx.reg with
      | some t => .recvDrop y (.ok t)
      | none => .recvLoad y) :
    Glancing ((h.own s l ⟨lcv, p⟩).sees { s with cv := cv, running := running })
      { s with cv := cv, running := running } ⟨lcv, p⟩ := by
  obtain ⟨-, -, -, haccess⟩ := access_guarded hcv
  have hreg : lcv.mx.reg = s.queue.head? := congrArg Prod.fst haccess
  have hqueue : cv.mx.inner = s.queue.tail := congrArg Prod.snd haccess
  simp only [Glancing, hp] at hG
  have hfree : h.free = true := by
    rcases hG.1 with hmx | ⟨-, hfree⟩ | ⟨hmx, -⟩
    · rw [hg] at hmx; cases hmx
    · exact hfree
    · rw [hg] at hmx; cases hmx
  subst hpc
  cases hq : s.queue with
  | nil =>
    simp only [hreg, hq, List.head?_nil, Glancing, Glance.own, hp]
    rw [hq] at hqueue
    exact ⟨hfree, List.prefix_nil.1 (hq ▸ hG.2), hqueue⟩
  | cons t q =>
    simp only [hreg, hq, List.head?_cons, Glancing, Glance.own, hp]
    refine ⟨fun _ => ⟨nofun, fun t' q' hcons => ?_⟩, fun hfalse => ?_⟩
    · -- the head of the queue is still the one of the start
      obtain ⟨r, hr⟩ := hG.2
      have hcons : h.queue = t' :: q' := hcons
      rw [hcons, hq] at hr
      cases hr
      rfl
    · have hfalse : h.free = false := hfalse
      rw [hfree] at hfalse
      cases hfalse

/-- A step of a `try_recv`. -/
theorem Move.glancing (m : Move i s l s₁ l₁) (hl : l.Shape) (hy : l₁.pc.receives = some y)
    (htry : y.op = .tryRecv) (ih : l.pc.receives = some y → Glancing h s l) :
    Glancing ((h.own s l l₁).sees s₁) s₁ l₁ := by
  have honly : ∀ {p₁ : Pc T}, p₁.receives = some y → ∀ y', p₁.receives = some y' →
      y'.op = .tryRecv := fun hy y' hy' => by
    rw [hy] at hy'
    cases hy'
    exact htry
  cases m with
  | below b hb cv lcv hcv running hrun => exact (ih hy).below hl hb hcv running
  | call b p hcall cv lcv hcv running hrun =>
    have hy : l.pc.receives = some y := hcall.receives ▸ hy
    exact (ih hy).call hcall hcv (honly hy) running
  | reads p hrest hreads running hrun =>
    have hy : l.pc.receives = some y := hreads.receives ▸ hy
    exact (ih hy).reads hreads (honly hy) running
  | pop y' hp hg cv lcv hcv running hrun =>
    have hy' : y = y' := by
      dsimp only at hy
      split at hy <;> cases hy <;> rfl
    subst hy'
    exact (ih (by rw [hp]; rfl)).pop hp hg hcv running rfl
  | recv op hp =>
    simp only [Glancing, Glance.own, hp, Local.goto_pc]
    exact List.prefix_rfl
  | clone handle hp => rw [hp] at hy; cases hy
  | dropSender handle hp =>
    rw [Local.goto_pc] at hy
    split at hy <;> cases hy
  | _ => cases hy

variable {h : ι → Glance T}

theorem Glance.note_eq (hs : step i a c.shared (c.loc i) = some (s₁, l₁)) (j : ι) :
    Glance.note c (.agent i a) h j =
      (if j = i then (h j).own c.shared (c.loc i) l₁ else h j).sees s₁ := by
  simp only [Glance.note, hs]

/-- What is true of every call in a run. -/
structure Glances (h : ι → Glance T) (c : Config ι (Shared ι T) (Local ι T)) : Prop where
  sound : ∀ i, (h i).Sound c.shared
  glancing : ∀ i y, (c.loc i).pc.receives = some y → y.op = .tryRecv →
    Glancing (h i) c.shared (c.loc i)

theorem Glances.step (hc : sys.Reachable (init plat) c) (H : Glances h c)
    (hs : step i a c.shared (c.loc i) = some (s₁, l₁)) :
    Glances (Glance.note c (.agent i a) h) (c.set i s₁ l₁) := by
  have m := step_move hs
  have hcount := m.no_senders (borrowed hc)
  refine ⟨fun j => ?_, fun j y hy htry => ?_⟩ <;> rw [Glance.note_eq hs]
  · split
    · exact (H.sound j).own.sees hcount
    · exact (H.sound j).sees hcount
  · by_cases hj : j = i
    · subst hj
      rw [if_pos rfl, Config.set_loc_self]
      rw [Config.set_loc_self] at hy
      exact m.glancing (shape hc j) hy htry fun hy' => H.glancing j y hy' htry
    · rw [if_neg hj, Config.set_loc_of_ne hj]
      rw [Config.set_loc_of_ne hj] at hy
      refine (H.glancing j y hy htry).others (shape hc j)
        (fun hrun => queue_prefix hc m hj hy hrun) fun hg => m.queue_of_no_guard ?_
      by_contra hi
      exact hj (guard_unique hc (by rw [Local.hasGuard, hg]; rfl) (Bool.eq_true_of_not_eq_false hi))

theorem glances (H : sys.History Glance.note (fun _ => .init) (init plat) h c) :
    Glances h c := by
  refine System.ReachNote.invariant (I := Glances) H ?_ ?_ ?_
  · exact ⟨fun _ => ⟨fun _ _ => rfl, fun _ => one_ne_zero, nofun⟩, fun _ _ hy => by cases hy⟩
  · intro h c i a s l hc ih _ hs
    exact ih.step hc hs
  · intro h c e s _ ih _ hs
    simp only [sys, Option.map_eq_some_iff] at hs
    obtain ⟨p, -, rfl⟩ := hs
    exact ⟨fun i => ⟨(ih.sound i).start, (ih.sound i).alive, (ih.sound i).gone⟩, fun i y hy htry =>
      (ih.glancing i y hy htry).setPlat⟩

/-- **A `try_recv` reports the truth exactly when its `try_lock` found the mutex free, or the queue was
empty and a `Sender` alive when the call began.**  The truth is that the queue was empty and a `Sender`
alive at some instant of the call, if it returns `Empty`, and that a value that was in the queue when
the call began, at its head, is what it returns. -/
theorem try_recv_iff (H : sys.History Glance.note (fun _ => .init) (init plat) h c)
    {r : Outcome T} (hp : (c.loc i).pc = .recvReturn y r) (htry : y.op = .tryRecv) :
    ((r = .empty → (h i).idle = true) ∧ ∀ t q, (h i).queue = t :: q → r = .ok t) ↔
      (h i).free = true ∨ (h i).queue = [] ∧ (h i).senders ≠ 0 := by
  have hG := (glances H).glancing i y (by rw [hp]; rfl) htry
  have hS := (glances H).sound i
  simp only [Glancing, hp] at hG
  cases hfree : (h i).free with
  | true => exact ⟨fun _ => .inl rfl, fun _ => hG.locked hfree⟩
  | false =>
    obtain rfl := hG.refused hfree
    constructor
    · rintro ⟨hidle, hok⟩
      refine .inr ⟨?_, hS.alive (hidle rfl)⟩
      cases hq : (h i).queue with
      | nil => rfl
      | cons t q => cases hok t q hq
    · rintro (htrue | ⟨hempty, halive⟩)
      · cases htrue
      · refine ⟨fun _ => hS.start hempty halive, fun t q hcons => ?_⟩
        rw [hempty] at hcons
        cases hcons

/-- A `try_recv` up to its return. -/
def tryRecv (n : ℕ) : List (Label Bool (Act ℕ) (Event Bool)) :=
  .agent true (.recv .tryRecv) :: List.replicate n (.agent true .step)

/-- A run in which a `try_recv` follows a send. -/
theorem try_recv_free :
    ∃ (h : Bool → Glance ℕ) (c : Config Bool (Shared Bool ℕ) (Local Bool ℕ)),
      sys.History Glance.note (fun _ => .init) (init (.new .native)) h c ∧
      (c.loc true).pc = .recvReturn ⟨.tryRecv, false⟩ (.ok 7) ∧ (h true).queue = [7] ∧
      ((Outcome.ok 7 = .empty → (h true).idle = true) ∧
        ∀ t q, (h true).queue = t :: q → Outcome.ok 7 = .ok t) := by
  obtain ⟨h, c, H, hend⟩ := System.exists_note_of_along (M := sys) (P := fun _ _ _ => True)
    (h := fun _ => Glance.init) (c := init (ι := Bool) (T := ℕ) (.new .native))
    Glance.note (p := fun h c => decide (h true = ⟨[7], 1, true, true⟩ ∧
      (c.loc true).pc = .recvReturn ⟨.tryRecv, false⟩ (.ok 7)))
    (sendSpin false 0 7 ++ tryRecv 4) (by decide) (by decide)
  rw [decide_eq_true_eq] at hend
  obtain ⟨hh, hp⟩ := hend
  exact ⟨h, c, H, hp, by rw [hh], (try_recv_iff H hp rfl).2 (.inl (by rw [hh]))⟩

/-- The send `x` is the only one that has returned, and it returned `Ok`. -/
def returnedOk (sends : List (Send ℕ × Except ℕ Unit)) (x : Send ℕ) : Bool :=
  match sends with
  | [(y, .ok ())] => decide (y = x)
  | _ => false

theorem eq_of_returnedOk {sends : List (Send ℕ × Except ℕ Unit)} {x : Send ℕ}
    (h : returnedOk sends x = true) : sends = [(x, .ok ())] := by
  unfold returnedOk at h
  split at h
  · rw [of_decide_eq_true h]
  · cases h

/-- **A value is hidden by another send.**  The send of 7 has returned `Ok`; while the next send has the
lock, a `try_recv` returns `Empty`, and the queue was not empty at any instant of the call. -/
theorem try_recv_hides :
    ∃ (h : Bool → Glance ℕ) (c : Config Bool (Shared Bool ℕ) (Local Bool ℕ)),
      sys.History Glance.note (fun _ => .init) (init (.new .native)) h c ∧
      (c.loc true).pc = .recvReturn ⟨.tryRecv, false⟩ .empty ∧ (h true).idle = false ∧
      (h true).queue = [7] ∧ c.shared.sends = [(⟨.spin, 0, 7, 0, false⟩, .ok ())] := by
  obtain ⟨h, c, H, hend⟩ := System.exists_note_of_along (M := sys) (P := fun _ _ _ => True)
    (h := fun _ => Glance.init) (c := init (ι := Bool) (T := ℕ) (.new .native))
    Glance.note (p := fun h c => decide (h true = ⟨[7], 1, false, false⟩ ∧
      (c.loc true).pc = .recvReturn ⟨.tryRecv, false⟩ .empty) &&
      returnedOk c.shared.sends ⟨.spin, 0, 7, 0, false⟩)
    (sendSpin false 0 7 ++ (sendSpin false 0 8).take 4 ++ tryRecv 3) (by decide) (by decide)
  simp only [Bool.and_eq_true, decide_eq_true_eq] at hend
  obtain ⟨⟨hh, hp⟩, hsends⟩ := hend
  exact ⟨h, c, H, hp, by rw [hh], by rw [hh], eq_of_returnedOk hsends⟩

end Mpsc

end WasmSafeThread
