import WasmSafeThread.Mpsc.Ownership
import WasmSafeThread.Condvar.Waiting
import Mathlib.Data.Fintype.Basic

/-!
# The drop of the last sender

An untimed receive registers in a list of the condition variable because it has found
`sender_count` not zero; the last `Sender::drop` sets `sender_count` to zero and visits the lists.
This would be the discipline of `WaitList`, a list being blocked while `sender_count` is not zero,
if the receive looked at `sender_count` and registered in one section.  It does not: the guard of
the queue is no obstacle to `Sender::drop`.

* `Heard` : the condition on a step that a receive registers only while `sender_count` is not zero
  or the last `Sender::drop` has still to visit the list.
* `refines` : in runs of such steps the channel refines the discipline.
* `last_sender_wakes` : in these runs no receive is left asleep after the last sender is gone.
* `last_sender_unheard` : a run with a step that is not such, which leaves a receive asleep.
-/

namespace WasmSafeThread

namespace Mpsc

open WaitList

variable {ι T : Type*}

/-! ### What the discipline sees -/

/-- The lists of the condition variable; they are blocked while there is a sender. -/
def view (s : Shared ι T) : View Condvar.Kind (Condvar.Kind × Condvar.Entry ι) :=
  Condvar.view (fun _ => s.senderCount ≠ 0) s.cv

/-- The role of agent `i`: the last `Sender::drop` owes its visits from its `fetch_sub` on. -/
def Local.role (i : ι) (l : Local ι T) :
    Role Condvar.Kind (Condvar.Kind × Condvar.Entry ι) :=
  match l.pc with
  | .senderNotify => .waking [] [.spin, .sync, .async]
  | _ => l.cv.pc.role i

/-- Agent `j` is in the last `Sender::drop` and has still to visit list `k`. -/
def WillVisit (c : Config ι (Shared ι T) (Local ι T)) (j : ι) (k : Condvar.Kind) : Prop :=
  (c.loc j).pc = .senderNotify ∨ (c.loc j).pc = .senderReturn ∧
    match (c.loc j).cv.pc with
    | .notifying _ _ rest => k ∈ rest
    | _ => False

/-- The step does not register an untimed receive after `sender_count` is zero and its list has
been visited. -/
def Heard (c : Config ι (Shared ι T) (Local ι T)) : Label ι (Act T) (Event ι) → Prop
  | .agent i _ => ∀ k, (c.loc i).cv.pc = .register k none →
      c.shared.senderCount ≠ 0 ∨ ∃ j, WillVisit c j k
  | .env _ => True

variable {i j : ι} {s s₁ : Shared ι T} {l l₁ : Local ι T} {c : Config ι (Shared ι T) (Local ι T)}
  {k : Condvar.Kind} {owed : Condvar.Kind → Prop}

theorem role_of_ne (h : l.pc ≠ .senderNotify) : l.role i = l.cv.pc.role i := by
  cases hp : l.pc <;> first | exact absurd hp h | simp only [Local.role, hp]

theorem WillVisit.owes (h : WillVisit c j k) : k ∈ ((c.loc j).role j).owes := by
  rcases h with hp | ⟨hp, hrest⟩
  · simp only [Local.role, hp, Role.owes]
    cases k <;> simp
  · rw [role_of_ne (by rw [hp]; rintro ⟨⟩)]
    cases hq : (c.loc j).cv.pc <;> simp only [hq] at hrest
    exact hrest

variable [DecidableEq ι] [DecidableEq T]

/-! ### The refinement -/

/-- What the refinement uses of a reachable configuration. -/
structure Fit (c : Config ι (Shared ι T) (Local ι T)) : Prop where
  shape : ∀ i, (c.loc i).Shape
  below : ∀ i, (c.loc i).cv.Shape
  registered : Condvar.Registered (toCondvar.config c)

theorem fit {plat : Platform ι} (h : sys.Reachable (init plat) c) : Fit c :=
  ⟨shape h, Condvar.shape (condvar_reachable h), Condvar.registered_inv (condvar_reachable h)⟩

theorem below_move (hc : Fit c) {b : Condvar.Act (Option T) (List T)}
    (hne : (c.loc i).pc ≠ .senderNotify) (hne₁ : l₁.pc ≠ .senderNotify)
    (hcount : s₁.senderCount = c.shared.senderCount)
    (h : Condvar.step i b c.shared.cv (c.loc i).cv = some (s₁.cv, l₁.cv))
    (hgate : b = .step → ∀ k, (c.loc i).cv.pc = .register k none →
      c.shared.senderCount ≠ 0 ∨ owed k) :
    WaitList.Move False Condvar.owner owed i (view c.shared) ((c.loc i).role i) (view s₁) (l₁.role i) := by
  rw [role_of_ne hne, role_of_ne hne₁, view, view, hcount]
  exact Condvar.step_move (hc.below i)
    (fun k r hw e he her => ((hc.registered.wait i k r hw).2 k e he her).2) hgate h

omit [DecidableEq ι] [DecidableEq T] in
theorem role_goto {p : Pc T} (hne : l.pc ≠ .senderNotify) (hp : p ≠ .senderNotify) :
    (l.goto p).role i = l.role i := by
  rw [role_of_ne hne, role_of_ne (by simpa using hp)]
  rfl

theorem step_discipline (hc : Fit c) (hheard : ∀ k, (c.loc i).cv.pc = .register k none →
      c.shared.senderCount ≠ 0 ∨ owed k) (m : Mpsc.Move i c.shared (c.loc i) s₁ l₁) :
    WaitList.Move False Condvar.owner owed i (view c.shared) ((c.loc i).role i) (view s₁) (l₁.role i) := by
  cases m with
  | below b hb cv lcv hcv =>
    -- `Sender::drop` has nothing in progress below before its `notify_all`
    have hne : (c.loc i).pc ≠ .senderNotify := fun hp => by
      have hshape := hc.shape i
      rw [Local.Shape, hp] at hshape
      rcases Condvar.step_goes_on hb hcv with ⟨-, hbusy, -⟩ | ⟨-, hready, -⟩
      · rw [hshape.2.1] at hbusy; cases hbusy
      · exact hready hshape.1
    exact below_move hc hne hne rfl hcv fun _ => hheard
  | call b p hcall cv lcv hcv =>
    by_cases hp : (c.loc i).pc = .senderNotify
    · -- `notify_all` starts: it is the visits that were owed
      rw [hp] at hcall
      cases hcall
      simp only [Condvar.step] at hcv
      split at hcv <;> cases hcv
      refine .of_eq rfl ?_
      simp only [Local.role, hp]
      rfl
    · exact below_move hc hp hcall.ne_senderNotify rfl hcv fun hb => absurd hb hcall.not_step
  | reads p hrest hreads =>
    refine .of_eq rfl (role_goto (fun hp => ?_) fun hp => ?_)
    · rw [hp] at hreads; cases hreads
    · rw [hp] at hreads
      generalize (c.loc i).pc = q at hreads
      cases hreads
  | push x hp cv lcv hcv =>
    exact below_move hc (by rw [hp]; rintro ⟨⟩) (by rintro ⟨⟩) rfl hcv fun hb => by cases hb
  | pop y hp hg cv lcv hcv =>
    refine below_move hc (by rw [hp]; rintro ⟨⟩) ?_ rfl hcv fun hb => by cases hb
    dsimp only
    split <;> rintro ⟨⟩
  | returnOk x hp | returnErr x hp | returnRecv y r hp | send how handle t hp | recv op hp
    | dropReceiver hp =>
    exact .of_eq rfl (role_goto (by rw [hp]; rintro ⟨⟩) (by rintro ⟨⟩))
  | cancel cv lcv hcv =>
    have hne : (c.loc i).pc ≠ .senderNotify := fun hp => by
      have hshape := hc.shape i
      rw [Local.Shape, hp] at hshape
      have hsusp := not_suspended (by rw [hshape.1]; rfl) (.inl hshape.2.2)
      rw [suspended_of_cancel hcv] at hsusp
      cases hsusp
    obtain ⟨B, R, heq⟩ := dropFuture_eq i (c.loc i).pc { c.shared with cv := cv }
    rw [heq]
    exact below_move hc hne (by rintro ⟨⟩) rfl hcv fun hb => by cases hb
  | clone handle hp =>
    refine .word (B := fun _ => c.shared.senderCount + 1 ≠ 0) fun _ _ => Nat.succ_ne_zero _
  | dropSender handle hp hh =>
    have hout : (c.loc i).role i = .out := by
      have hshape := hc.shape i
      rw [Local.Shape, hp] at hshape
      rw [role_of_ne (by rw [hp]; rintro ⟨⟩), hshape.1]
      rfl
    by_cases hcount : c.shared.senderCount = 1
    · rw [if_pos hcount, hout]
      exact .unblock (B := fun _ => c.shared.senderCount - 1 ≠ 0) fun k _ => .inr (by cases k <;> simp)
    · rw [if_neg hcount, role_goto (p := .ready) (by rw [hp]; rintro ⟨⟩) (by rintro ⟨⟩)]
      refine .word (B := fun _ => c.shared.senderCount - 1 ≠ 0) fun _ hne => ?_
      have : c.shared.senderCount ≠ 0 := hne
      omega

/-- **The channel refines the discipline of waiting lists**, in steps that satisfy `Heard`. -/
def refines : Refines (Q := Condvar.Kind) (sys (ι := ι) (T := T)) (fun c a => Heard c a ∧ Fit c)
    False Condvar.owner where
  view := view
  role := Local.role
  step {i a c s l} hP hs := by
    refine step_discipline hP.2 (fun k hk => ?_) (step_move hs)
    exact (hP.1 k hk).imp_right fun ⟨j, hj⟩ => ⟨j, hj.owes⟩
  env h := by
    simp only [sys, Option.map_eq_some_iff] at h
    obtain ⟨p, hp, rfl⟩ := h
    refine ⟨_, fun ⟨k, e⟩ hx => ?_, Condvar.view_signalled _ _ rfl⟩
    cases k with
    | spin | async => exact hx
    | sync => exact Platform.signalled_apply (x := .unpark e.agent) hp hx

variable {plat : Platform ι}

theorem waiting_inv (h : sys.Reach Heard (init plat) c) :
    WaitList.Inv False Condvar.owner (refines.config c) :=
  refines.inv (h.strengthen fun _ _ hc hP => ⟨hP, fit hc.reachable⟩)
    (.init (fun k => by cases k <;> rfl) fun _ => rfl)

/-! ### The last sender -/

/-- No `Sender` exists and no `Sender::drop` is in progress. -/
structure SendersGone (c : Config ι (Shared ι T) (Local ι T)) : Prop where
  count : c.shared.senderCount = 0
  drops : ∀ j, (c.loc j).pc ≠ .senderNotify ∧ (c.loc j).pc ≠ .senderReturn

omit [DecidableEq ι] [DecidableEq T] in
theorem Pc.call_cases (p : Pc T) : p = .ready ∨ (∃ x, p.sends = some x) ∨
    (∃ y, p.receives = some y) ∨ (p = .senderNotify ∨ p = .senderReturn) ∨
      p.dropsReceiver = true := by
  cases p <;> simp [Pc.sends, Pc.receives, Pc.dropsReceiver]

omit [DecidableEq ι] [DecidableEq T] in
theorem Local.Shape.recvWaited (hl : l.Shape) (h : l.cv.pc.inWait = true) :
    ∃ y, l.pc = .recvWaited y := by
  cases hp : l.pc with
  | recvWaited y => exact ⟨y, rfl⟩
  | sendReturn | senderReturn | receiverReturn =>
    rw [Local.Shape, hp] at hl
    rw [hl.1] at h
    cases h
  | sendRecheck | recvPop =>
    rw [Local.Shape, hp] at hl
    rw [show l.cv.pc = .ready from hl] at h
    cases h
  | _ =>
    rw [Local.Shape, hp] at hl
    rw [hl.1] at h
    cases h

theorem active_of_receives (h : sys.Reachable (init plat) c) {y : Recv}
    (hy : (c.loc i).pc.receives = some y) : c.shared.receiverActive = true := by
  by_contra hactive
  rw [Bool.not_eq_true] at hactive
  have hmem := (borrowed h).recv i y hy
  rw [(borrowed h).active hactive] at hmem
  exact absurd hmem (Finset.notMem_empty _)

/-- When the senders are gone and the receiver is there, only a receive has the guard or a call
below in progress. -/
theorem SendersGone.receives (h : sys.Reachable (init plat) c) (hgone : SendersGone c)
    (hactive : c.shared.receiverActive = true) {j : ι}
    (hj : (c.loc j).cv.atRest = false ∨ (c.loc j).hasGuard = true) :
    ∃ y, (c.loc j).pc.receives = some y := by
  rcases (c.loc j).pc.call_cases with hp | ⟨x, hx⟩ | hy | hp | hp
  · have hshape := shape h j
    rw [Local.Shape, hp] at hshape
    rcases hj with hj | hj
    · rw [Condvar.Local.atRest_iff.2 ⟨hshape.2.1, hshape.1⟩] at hj
      cases hj
    · rw [Local.hasGuard, Mutex.Pc.hasGuard_of_quiet hshape.2.2] at hj
      cases hj
  · have hmem := ((borrowed h).send j x hx).1
    have hcount := (borrowed h).count
    rw [hgone.count, eq_comm, Finset.card_eq_zero] at hcount
    rw [hcount] at hmem
    exact absurd hmem (Finset.notMem_empty _)
  · exact hy
  · exact absurd hp (not_or.2 (hgone.drops j))
  · rw [(borrowed h).gone j hp] at hactive
    cases hactive

omit [DecidableEq ι] [DecidableEq T] in
theorem Local.Shape.not_notifying (hl : l.Shape) {y : Recv} (hy : l.pc.receives = some y)
    {pending : List (Condvar.Entry ι)} {rest : List Condvar.Kind} :
    l.cv.pc ≠ .notifying k pending rest := by
  intro hp
  cases hq : l.pc with
  | recvWaited =>
    rw [Local.Shape, hq] at hl
    rcases hl with hl | hl <;> rw [hp] at hl
    · cases hl
    · cases hl.1
  | recvPop =>
    rw [Local.Shape, hq] at hl
    cases hp.symm.trans hl
  | recvLock | recvLoad | recvWait | recvDrop | recvReturn =>
    rw [Local.Shape, hq] at hl
    cases hp.symm.trans hl.1
  | _ => rw [hq] at hy; cases hy

theorem SendersGone.quiet (h : sys.Reachable (init plat) c) (hgone : SendersGone c)
    (hactive : c.shared.receiverActive = true) {x : Condvar.Kind × Condvar.Entry ι} :
    k ∉ ((c.loc j).role j).owes ∧ (k, x) ∉ ((c.loc j).role j).carries := by
  have hnot : ∀ k pending rest, (c.loc j).cv.pc ≠ .notifying k pending rest := by
    intro k pending rest hp
    have hrest : (c.loc j).cv.atRest = false := by simp [Condvar.Local.atRest, hp]
    obtain ⟨y, hy⟩ := hgone.receives h hactive (.inl hrest)
    exact (shape h j).not_notifying hy hp
  rw [role_of_ne (hgone.drops j).1]
  refine ⟨fun howes => ?_, fun hcarries => ?_⟩
  · obtain ⟨k', pending, rest, hp, -⟩ := Condvar.owes_role howes
    exact hnot k' pending rest hp
  · obtain ⟨pending, rest, hp, -⟩ := Condvar.carries_role hcarries
    exact hnot k pending rest hp

/-- **No receive is left asleep after the last sender is gone**, in runs whose steps register a
receive only while `sender_count` is not zero or the last `Sender::drop` has still to visit the
list.  When `sender_count` is zero and no `Sender::drop` is in progress, an untimed wait that
sleeps has its wake-up; and a wait that is back in the lock of the queue has its wake-up too, or
waits for another receive of the same receiver, which has the guard or is dropping it. -/
theorem last_sender_wakes (h : sys.Reach Heard (init plat) c) (hgone : SendersGone c) :
    (∀ i k r, (c.loc i).cv.pc.sleeps = some (k, r) →
      c.shared.cv.signalled (k, ⟨r, i⟩) = true) ∧
    ∀ i timedOut slot, (c.loc i).cv.pc = .relocking timedOut →
      (c.loc i).cv.mx.pc.waitsOn = some slot →
      c.shared.cv.mx.plat.Signalled (slot.wake i) = true ∨
        ∃ j y, j ≠ i ∧ (c.loc j).pc.receives = some y ∧
          ((c.loc j).cv.mx.pc.hasGuard = true ∨
            Mutex.WillSignal (Condvar.toMutex.config (toCondvar.config c)) j slot.way
              (slot.wake i)) := by
  have hr := h.reachable
  have hactive : ∀ i, (c.loc i).cv.pc.inWait = true → c.shared.receiverActive = true := by
    intro i hi
    obtain ⟨y, hy⟩ := (shape hr i).recvWaited hi
    exact active_of_receives hr (i := i) (y := y) (by rw [hy]; rfl)
  refine ⟨fun i k r hi => ?_, fun i timedOut slot hi hslot => ?_⟩
  · have hwait := Condvar.inWait_of_sleeps hi
    obtain ⟨y, hy⟩ := (shape hr i).recvWaited hwait
    have hrole : ((c.loc i).role i).waitsOn = some (k, (k, ⟨r, i⟩)) := by
      rw [role_of_ne (by rw [hy]; exact nofun)]
      exact Condvar.waitsOn_role hi
    -- no entry is stranded, and nobody is left who could still owe it a signal
    by_contra hsig
    rw [Bool.not_eq_true] at hsig
    rcases (waiting_inv h).not_stranded hrole hsig with ⟨-, hcount⟩ | ⟨j, -, howes⟩ | ⟨j, hcarries⟩
    · exact hcount hgone.count
    · exact (hgone.quiet hr (hactive i hwait) (x := (k, ⟨r, i⟩))).1 howes
    · exact (hgone.quiet hr (hactive i hwait)).2 hcarries
  · by_cases hsig : c.shared.cv.mx.plat.Signalled (slot.wake i) = true
    · exact .inl hsig
    have hmx := Condvar.mutex_reachable (condvar_reachable hr)
    have hrecv : ∀ j, (c.loc j).cv.atRest = false ∨ (c.loc j).hasGuard = true →
        ∃ y, (c.loc j).pc.receives = some y := fun j hj =>
      hgone.receives hr (hactive i (by rw [hi]; rfl)) hj
    -- an acquisition that waits is waited for by somebody, and that is a receive
    rcases Mutex.guard_or_willSignal hmx hslot
      (Bool.eq_false_of_not_eq_true hsig) with ⟨j, hj⟩ | ⟨j, hj⟩
    · obtain ⟨y, hy⟩ := hrecv j (.inr hj)
      refine .inr ⟨j, y, ?_, hy, .inl hj⟩
      rintro rfl
      exact Bool.false_ne_true ((Mutex.Pc.hasGuard_of_waitsOn hslot).symm.trans hj)
    · obtain ⟨w, pending, rest, hp, hin⟩ := hj
      have hp' : (c.loc j).cv.mx.pc = .didUnlock w pending rest := hp
      obtain ⟨y, hy⟩ := hrecv j (.inl (by simp [Condvar.Local.atRest, hp', Mutex.Pc.atRest]))
      refine .inr ⟨j, y, ?_, hy, .inr ⟨w, pending, rest, hp, hin⟩⟩
      rintro rfl
      rw [hp'] at hslot
      cases hslot

instance (c : Config ι (Shared ι T) (Local ι T)) (j : ι) (k : Condvar.Kind) :
    Decidable (WillVisit c j k) :=
  have : Decidable (match (c.loc j).cv.pc with
      | .notifying _ _ rest => k ∈ rest
      | _ => False) :=
    match (c.loc j).cv.pc with
    | .notifying _ _ rest => inferInstanceAs (Decidable (k ∈ rest))
    | .ready | .register _ _ | .spawnTimer _ _ | .drop _ _ | .dropping _ _ | .load _ _
    | .loadNow _ _ | .loadLeave _ | .loadNotified _ | .parkNow _ _ | .park _ _ | .parkCheck _ _
    | .parkLeave _ | .await _ | .race _ _ | .raceTimeout _ _ | .raceLeave _ | .relock _ _
    | .relocking _ | .notifyOne _ => .isFalse id
  inferInstanceAs (Decidable (_ ∨ _ ∧ _))

instance [Fintype ι] (c : Config ι (Shared ι T) (Local ι T)) :
    (a : Label ι (Act T) (Event ι)) → Decidable (Heard c a)
  | .agent i _ => inferInstanceAs (Decidable (∀ k, (c.loc i).cv.pc = .register k none → _))
  | .env _ => .isTrue trivial

/-! ### Two runs -/

/-- The labels of a `recv_block` on an empty queue, up to its `sender_count.load()`. -/
def recvBlockLoad (i : ι) : List (Label ι (Act T) (Event ι)) :=
  .agent i (.recv (.recv .block none)) :: List.replicate 6 (.agent i .step)

/-- The labels of the rest of that receive, up to its park. -/
def recvBlockPark (i : ι) : List (Label ι (Act T) (Event ι)) := List.replicate 7 (.agent i .step)

/-- The labels of the `Sender::drop` of the last sender, when no receive is registered. -/
def dropLast (i : ι) (handle : ℕ) : List (Label ι (Act T) (Event ι)) :=
  .agent i (.dropSender handle) :: List.replicate 6 (.agent i .step)

/-- A run in which the receiver is asleep when the last sender is dropped. -/
theorem last_sender_wakes_park :
    ∃ c : Config Bool (Shared Bool ℕ) (Local Bool ℕ), sys.Reach Heard (init (.new .native)) c ∧
      (c.loc true).cv.pc = .park none 0 ∧ c.shared.senderCount = 0 ∧
      c.shared.cv.mx.plat.token true = true := by
  obtain ⟨c, hc, hend⟩ := System.exists_of_along (M := sys) (P := Heard)
    (c := init (ι := Bool) (T := ℕ) (.new .native))
    (p := fun c => decide ((c.loc true).cv.pc = .park none 0 ∧ c.shared.senderCount = 0 ∧
      ∀ j, (c.loc j).pc ≠ .senderNotify ∧ (c.loc j).pc ≠ .senderReturn))
    (recvBlockLoad true ++ recvBlockPark true ++ dropLast false 0 ++ [.agent false .step])
    (by decide) (by decide)
  simp only [decide_eq_true_eq] at hend
  obtain ⟨hpc, hcount, hdrops⟩ := hend
  exact ⟨c, hc, hpc, hcount,
    (last_sender_wakes hc ⟨hcount, hdrops⟩).1 true .sync 0 (by rw [hpc]; rfl)⟩

/-- **A receive that is left asleep.**  The receiver finds `sender_count` one; before it registers,
the last sender is dropped and notifies nobody; the receiver then registers and parks.  No
`Sender` is left and no step of a `Sender::drop` is to come. -/
theorem last_sender_unheard :
    ∃ c : Config Bool (Shared Bool ℕ) (Local Bool ℕ), sys.Reachable (init (.new .native)) c ∧
      SendersGone c ∧ (c.loc true).pc = .recvWaited ⟨.recv .block none, false⟩ ∧
      (c.loc true).cv.pc = .park none 0 ∧ c.shared.cv.mx.plat.token true = false ∧
      c.shared.handles = ∅ ∧ (c.loc false).pc = .ready := by
  obtain ⟨c, hc, hend⟩ := System.exists_of_run (M := sys)
    (c := init (ι := Bool) (T := ℕ) (.new .native))
    (p := fun c => decide ((c.shared.senderCount = 0 ∧
      ∀ j, (c.loc j).pc ≠ .senderNotify ∧ (c.loc j).pc ≠ .senderReturn) ∧
      (c.loc true).pc = .recvWaited ⟨.recv .block none, false⟩ ∧
      (c.loc true).cv.pc = .park none 0 ∧ c.shared.cv.mx.plat.token true = false ∧
      c.shared.handles = ∅ ∧ (c.loc false).pc = .ready))
    (recvBlockLoad true ++ dropLast false 0 ++ recvBlockPark true) (by decide)
  simp only [decide_eq_true_eq] at hend
  exact ⟨c, hc, ⟨hend.1.1, hend.1.2⟩, hend.2⟩

end Mpsc

end WasmSafeThread
