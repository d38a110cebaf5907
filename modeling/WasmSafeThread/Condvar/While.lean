import WasmSafeThread.Agents.History
import WasmSafeThread.Condvar.Registration

/-!
# Waiting for a predicate

`wait_*_while` and `wait_*_timeout_while` are loops around the waits: they evaluate `condition` on the
protected value, under the guard, and wait as long as it is true.  The timed forms return as soon as a
wait has timed out, without another look at the value.

The eight loops differ in the wait they call and in the deadline, so they are one loop with a `Call`.
Between the evaluation of the condition and the return the value is another agent's only if that agent
has the guard, so what the loop saw is still true of the guard that it returns.

* `step`, `sys` : the loops over `Condvar.sys`.
* `toCondvar` : a run of the loops is a run of the condition variable.
* `Looping` : what is true at each point of a loop.
* `predicate_wait` : what a loop returns.
-/

namespace WasmSafeThread

namespace Condvar

namespace While

variable {ι R D : Type*}

/-- A call of one of the loops. -/
structure Call (D : Type*) where
  /-- The wait that it calls. -/
  kind : Kind
  /-- The deadline of a `wait_*_timeout_while`. -/
  deadline : Option ℕ
  /-- A pure `condition`. -/
  condition : D → Bool

/-- `wait_spin_while` and `wait_spin_timeout_while`. -/
def waitSpinWhile (deadline : Option ℕ) (condition : D → Bool) : Call D :=
  ⟨.spin, deadline, condition⟩

/-- `wait_block_while` and `wait_block_timeout_while`. -/
def waitBlockWhile (deadline : Option ℕ) (condition : D → Bool) : Call D :=
  ⟨.sync, deadline, condition⟩

/-- `wait_async_while` and `wait_async_timeout_while`. -/
def waitAsyncWhile (deadline : Option ℕ) (condition : D → Bool) : Call D :=
  ⟨.async, deadline, condition⟩

/-- `wait_sync_while` and `wait_sync_timeout_while`: block where `Atomics.wait` is supported, else
spin. -/
def waitSyncWhile (canBlock : Bool) (deadline : Option ℕ) (condition : D → Bool) : Call D :=
  if canBlock then waitBlockWhile deadline condition else waitSpinWhile deadline condition

/-- The control points of a loop. -/
inductive Pc (D : Type*) where
  /-- No loop. -/
  | ready
  /-- Before `condition(&mut guard)`. -/
  | check (x : Call D)
  /-- The condition is true: before the wait. -/
  | wait (x : Call D)
  /-- In the wait; then before `result.timed_out()`. -/
  | waited (x : Call D)
  /-- Before the return of the guard, with this `timed_out()`. -/
  | done (x : Call D) (timedOut : Bool)

/-- The local state of an agent: a frame for the loop over the frames of the condition variable. -/
structure Local (ι R D : Type*) where
  cv : Condvar.Local ι R
  pc : Pc D

/-- The operations of an agent. -/
inductive Act (R D : Type*) where
  /-- An operation outside the loops. -/
  | cv (a : Condvar.Act R D)
  /-- Call one of the loops. -/
  | waitWhile (x : Call D)
  /-- The next atomic operation of the loop in progress. -/
  | step
  /-- A park returns without a token. -/
  | spurious
  /-- The pending future is dropped. -/
  | cancel

namespace Local

/-- Move to control point `p`. -/
def goto (l : Local ι R D) (p : Pc D) : Local ι R D := { l with pc := p }

@[simp] theorem goto_pc (l : Local ι R D) (p : Pc D) : (l.goto p).pc = p := rfl
@[simp] theorem goto_cv (l : Local ι R D) (p : Pc D) : (l.goto p).cv = l.cv := rfl

end Local

section Step

variable [DecidableEq ι]

/-- An operation on the condition variable or the mutex, after which the loop is at `p`. -/
def lift (i : ι) (a : Condvar.Act R D) (s : Condvar.Shared ι R D) (l : Local ι R D) (p : Pc D) :
    Option (Condvar.Shared ι R D × Local ι R D) :=
  (Condvar.step i a s l.cv).map fun r => (r.1, ⟨r.2, p⟩)

/-- The next atomic operation of a loop, when no call below is in progress. -/
def advance (i : ι) (s : Condvar.Shared ι R D) (l : Local ι R D) :
    Option (Condvar.Shared ι R D × Local ι R D) :=
  match l.pc with
  | .ready => none
  | .check x => some (s, l.goto (if x.condition s.mx.inner then .wait x else .done x false))
  | .wait x => lift i (.wait x.kind x.deadline) s l (.waited x)
  | .waited x =>
    some (s, l.goto (
      if x.deadline.isSome && l.cv.timedOut then .done x true else .check x))
  | .done _ _ => some (s, l.goto .ready)

/-- One operation of agent `i`. -/
def step (i : ι) (a : Act R D) (s : Condvar.Shared ι R D) (l : Local ι R D) :
    Option (Condvar.Shared ι R D × Local ι R D) :=
  match a, l.pc with
  | .cv a, .ready => lift i a s l .ready
  | .waitWhile x, .ready =>
    if l.cv.atRest && l.cv.mx.pc.hasGuard then some (s, l.goto (.check x)) else none
  | .step, p => if l.cv.atRest then advance i s l else lift i .step s l p
  | .spurious, p => lift i .spurious s l p
  | .cancel, _ => lift i .cancel s l .ready
  | _, _ => none

/-- The loops as a system. -/
def sys : System ι (Condvar.Shared ι R D) (Local ι R D) (Act R D) (Event ι) where
  step := step
  env e s := (s.mx.plat.apply e).map s.setPlat

end Step

/-- A new condition variable and mutex, and agents with registers `regs`, none in a call. -/
def init (plat : Platform ι) (value : D) (regs : ι → R) :
    Config ι (Condvar.Shared ι R D) (Local ι R D) :=
  ⟨.new plat value, fun i => ⟨⟨⟨.idle, regs i⟩, .ready, false⟩, .ready⟩⟩

variable [DecidableEq ι] {i : ι} {a : Act R D} {s s₁ : Condvar.Shared ι R D}
  {l l₁ : Local ι R D} {p : Pc D} {c : Config ι (Condvar.Shared ι R D) (Local ι R D)} {x : Call D}

/-! ### What one step can do -/

/-- What a step of a loop does. -/
inductive Move (i : ι) (s : Condvar.Shared ι R D) (l : Local ι R D) :
    Act R D → Condvar.Shared ι R D → Local ι R D → Prop
  /-- An operation outside the loops. -/
  | outside (b : Condvar.Act R D) (hp : l.pc = .ready) (s₁ : Condvar.Shared ι R D)
      (lcv : Condvar.Local ι R) (hs : Condvar.step i b s l.cv = some (s₁, lcv)) :
      Move i s l (.cv b) s₁ ⟨lcv, .ready⟩
  /-- A loop starts. -/
  | start (x : Call D) (hrest : l.cv.atRest = true) (hguard : l.cv.mx.pc.hasGuard = true) :
      Move i s l (.waitWhile x) s (l.goto (.check x))
  /-- A call below goes on. -/
  | below (hbusy : l.cv.atRest = false) (s₁ : Condvar.Shared ι R D) (lcv : Condvar.Local ι R)
      (hs : Condvar.step i .step s l.cv = some (s₁, lcv)) : Move i s l .step s₁ ⟨lcv, l.pc⟩
  | spurious (s₁ : Condvar.Shared ι R D) (lcv : Condvar.Local ι R)
      (hs : Condvar.step i .spurious s l.cv = some (s₁, lcv)) : Move i s l .spurious s₁ ⟨lcv, l.pc⟩
  /-- The pending future is dropped. -/
  | cancel (s₁ : Condvar.Shared ι R D) (lcv : Condvar.Local ι R)
      (hs : Condvar.step i .cancel s l.cv = some (s₁, lcv)) : Move i s l .cancel s₁ ⟨lcv, .ready⟩
  /-- The condition is evaluated. -/
  | again (x : Call D) (hp : l.pc = .check x) (hcond : x.condition s.mx.inner = true) :
      Move i s l .step s (l.goto (.wait x))
  | enough (x : Call D) (hp : l.pc = .check x) (hcond : x.condition s.mx.inner = false) :
      Move i s l .step s (l.goto (.done x false))
  /-- The wait starts. -/
  | wait (x : Call D) (hp : l.pc = .wait x) (s₁ : Condvar.Shared ι R D) (lcv : Condvar.Local ι R)
      (hs : Condvar.step i (.wait x.kind x.deadline) s l.cv = some (s₁, lcv)) :
      Move i s l .step s₁ ⟨lcv, .waited x⟩
  /-- The wait has returned. -/
  | timedOut (x : Call D) (hp : l.pc = .waited x) (hrest : l.cv.atRest = true)
      (hdeadline : x.deadline ≠ none) (htimed : l.cv.timedOut = true) :
      Move i s l .step s (l.goto (.done x true))
  | notified (x : Call D) (hp : l.pc = .waited x) (hrest : l.cv.atRest = true)
      (hgo : x.deadline ≠ none → l.cv.timedOut = false) : Move i s l .step s (l.goto (.check x))
  /-- The loop returns. -/
  | returns (x : Call D) (b : Bool) (hp : l.pc = .done x b) : Move i s l .step s (l.goto .ready)

theorem lift_eq_some {b : Condvar.Act R D} (h : lift i b s l p = some (s₁, l₁)) :
    ∃ lcv, Condvar.step i b s l.cv = some (s₁, lcv) ∧ l₁ = ⟨lcv, p⟩ := by
  simp only [lift, Option.map_eq_some_iff, Prod.mk.injEq] at h
  obtain ⟨⟨s₂, lcv⟩, hs, rfl, rfl⟩ := h
  exact ⟨lcv, hs, rfl⟩

theorem step_move (h : step i a s l = some (s₁, l₁)) : Move i s l a s₁ l₁ := by
  cases a with
  | cv b =>
    cases hp : l.pc <;> simp only [step, hp, reduceCtorEq] at h
    obtain ⟨lcv, hs, rfl⟩ := lift_eq_some h
    exact .outside b hp s₁ lcv hs
  | waitWhile x =>
    cases hp : l.pc <;> simp only [step, hp, reduceCtorEq, Bool.and_eq_true] at h
    split at h <;> cases h
    rename_i hrest
    exact .start x hrest.1 hrest.2
  | spurious =>
    simp only [step] at h
    obtain ⟨lcv, hs, rfl⟩ := lift_eq_some h
    exact .spurious s₁ lcv hs
  | cancel =>
    simp only [step] at h
    obtain ⟨lcv, hs, rfl⟩ := lift_eq_some h
    exact .cancel s₁ lcv hs
  | step =>
    simp only [step] at h
    split at h
    · rename_i hrest
      cases hp : l.pc with
      | ready => simp [advance, hp] at h
      | check x =>
        simp only [advance, hp] at h
        split at h <;> cases h
        · exact .again x hp ‹_›
        · exact .enough x hp (Bool.eq_false_of_not_eq_true ‹_›)
      | wait x =>
        simp only [advance, hp] at h
        obtain ⟨lcv, hs, rfl⟩ := lift_eq_some h
        exact .wait x hp s₁ lcv hs
      | waited x =>
        simp only [advance, hp, Bool.and_eq_true, Option.isSome_iff_ne_none] at h
        split at h <;> cases h
        · rename_i hend
          exact .timedOut x hp hrest hend.1 hend.2
        · rename_i hgo
          exact .notified x hp hrest fun hd => Bool.eq_false_of_not_eq_true fun ht => hgo ⟨hd, ht⟩
      | done x b =>
        simp only [advance, hp] at h
        cases h
        exact .returns x b hp
    · rename_i hbusy
      obtain ⟨lcv, hs, rfl⟩ := lift_eq_some h
      exact .below (Bool.eq_false_of_not_eq_true hbusy) s₁ lcv hs

/-- **The condition variable under the loops.** -/
def toCondvar : Projection (sys (ι := ι) (R := R) (D := D))
    (Condvar.sys (ι := ι) (R := R) (D := D)) where
  shared s := s
  loc l := l.cv
  step h := by
    cases step_move h with
    | outside b _ _ _ hs => exact .inr (.inl ⟨b, hs⟩)
    | below _ _ _ hs => exact .inr (.inl ⟨.step, hs⟩)
    | spurious _ _ hs => exact .inr (.inl ⟨.spurious, hs⟩)
    | cancel _ _ hs => exact .inr (.inl ⟨.cancel, hs⟩)
    | wait x _ _ _ hs => exact .inr (.inl ⟨.wait x.kind x.deadline, hs⟩)
    | start | again | enough | timedOut | notified | returns => exact .inl ⟨rfl, rfl⟩
  env {e s s₁} h := .inr ⟨e, h⟩

/-! ### What is true at each point of a loop -/

/-- The agent is at rest with the guard. -/
def Guarded (l : Condvar.Local ι R) : Prop := l.pc = .ready ∧ l.mx.pc = .guard

/-- What is true at each point of a loop: the guard is there but in the wait, and what the loop saw of
the value is still so. -/
def Looping (s : Condvar.Shared ι R D) (l : Local ι R D) : Prop :=
  match l.pc with
  | .ready => True
  | .check _ => Guarded l.cv
  | .wait x => Guarded l.cv ∧ x.condition s.mx.inner = true
  | .waited _ => l.cv.pc.inWait = true ∨ Guarded l.cv
  | .done x false => Guarded l.cv ∧ x.condition s.mx.inner = false
  | .done x true => Guarded l.cv ∧ x.deadline ≠ none ∧ l.cv.timedOut = true

omit [DecidableEq ι] in
theorem Guarded.hasGuard {lcv : Condvar.Local ι R} (h : Guarded lcv) :
    lcv.mx.pc.hasGuard = true := by
  rw [h.2]
  rfl

omit [DecidableEq ι] in
theorem Looping.of_inner (h : Looping s l) (hinner : Guarded l.cv → s₁.mx.inner = s.mx.inner) :
    Looping s₁ l := by
  unfold Looping at h ⊢
  split at h
  · trivial
  · exact h
  · exact ⟨h.1, hinner h.1 ▸ h.2⟩
  · exact h
  · exact ⟨h.1, hinner h.1 ▸ h.2⟩
  · exact h

omit [DecidableEq ι] in
theorem Guarded.atRest {lcv : Condvar.Local ι R} (h : Guarded lcv) : lcv.atRest = true := by
  rw [Condvar.Local.atRest_iff, h.2]
  exact ⟨rfl, h.1⟩

omit [DecidableEq ι] in
theorem Looping.guarded (h : Looping s l) (hrest : l.cv.atRest = true) (hp : l.pc ≠ .ready) :
    Guarded l.cv := by
  cases hpc : l.pc with
  | ready => exact absurd hpc hp
  | check => simpa only [Looping, hpc] using h
  | wait =>
    simp only [Looping, hpc] at h
    exact h.1
  | waited =>
    simp only [Looping, hpc] at h
    refine h.resolve_left fun hw => ?_
    rw [(Condvar.Local.atRest_iff.1 hrest).2] at hw
    cases hw
  | done x b =>
    simp only [Looping, hpc] at h
    cases b <;> exact h.1

theorem Looping.below {b : Condvar.Act R D} {lcv : Condvar.Local ι R} (h : Looping s l)
    (hb : b = .step ∧ l.cv.atRest = false ∨ b = .spurious)
    (hs : Condvar.step i b s l.cv = some (s₁, lcv)) : Looping s₁ ⟨lcv, l.pc⟩ := by
  cases hp : l.pc with
  | ready => trivial
  | waited x =>
    simp only [Looping, hp] at h
    rcases h with hw | hguard
    · rcases step_goes_on hb hs with ⟨hpc, -, -⟩ | ⟨-, -, ⟨-, hadv⟩ | ⟨-, hw₁, -⟩⟩
      · exact .inl (hpc ▸ hw)
      · exact advance_inWait hw hadv
      · exact .inl hw₁
    · exact absurd hs (not_goes_on hguard.atRest hb)
  | check | wait =>
    simp only [Looping, hp] at h
    first | exact absurd hs (not_goes_on h.atRest hb) | exact absurd hs (not_goes_on h.1.atRest hb)
  | done x b' =>
    simp only [Looping, hp] at h
    cases b' <;> exact absurd hs (not_goes_on h.1.atRest hb)

/-- A step of a loop. -/
theorem Move.looping (h : Looping s l) (m : Move i s l a s₁ l₁) : Looping s₁ l₁ := by
  cases m with
  | outside | cancel | returns => trivial
  | below hbusy _ _ hs => exact h.below (.inl ⟨rfl, hbusy⟩) hs
  | spurious _ _ hs => exact h.below (.inr rfl) hs
  | start x hrest hguard =>
    have hrest := Condvar.Local.atRest_iff.1 hrest
    refine ⟨hrest.2, ?_⟩
    cases hq : l.cv.mx.pc <;> simp_all [Mutex.Pc.atRest, Mutex.Pc.hasGuard]
  | again x hp hcond =>
    simp only [Looping, hp] at h
    exact ⟨h, hcond⟩
  | enough x hp hcond =>
    simp only [Looping, hp] at h
    exact ⟨h, hcond⟩
  | wait x hp _ _ hs =>
    simp only [Condvar.step] at hs
    split at hs <;> cases hs
    exact .inl rfl
  | timedOut x hp hrest hdeadline htimed =>
    exact ⟨h.guarded hrest (by rw [hp]; rintro ⟨⟩), hdeadline, htimed⟩
  | notified x hp hrest => exact h.guarded hrest (by rw [hp]; rintro ⟨⟩)

theorem Move.inner (m : Move i s l a s₁ l₁) (hguard : l.cv.mx.pc.hasGuard = false) :
    s₁.mx.inner = s.mx.inner := by
  cases m with
  | outside _ _ _ _ hs => exact step_inner_of_no_guard hs hguard
  | below _ _ _ hs | spurious _ _ hs | cancel _ _ hs | wait _ _ _ _ hs =>
    exact step_inner_of_no_guard hs hguard
  | _ => rfl

/-! ### The last wait of a call -/

/-- The wait that the loop called has returned. -/
def Local.waitReturned (l : Local ι R D) : Bool :=
  l.cv.atRest && match l.pc with
    | .waited _ => true
    | _ => false

/-- What the last wait of the call in progress reported, if the call has waited. -/
def lastWait (c : Config ι (Condvar.Shared ι R D) (Local ι R D)) :
    Label ι (Act R D) (Event ι) → (ι → Option Bool) → ι → Option Bool
  | .agent i (.waitWhile _), v => Function.update v i none
  | .agent i .step, v =>
    if (c.loc i).waitReturned then Function.update v i (some (c.loc i).cv.timedOut) else v
  | _, v => v

theorem lastWait_of_ne {v : ι → Option Bool} {j : ι} (hj : j ≠ i) :
    lastWait c (.agent i a) v j = v j := by
  cases a with
  | waitWhile x => exact Function.update_of_ne hj _ _
  | step =>
    simp only [lastWait]
    split
    · exact Function.update_of_ne hj _ _
    · rfl
  | _ => rfl

/-- A timed loop goes on only after a wait that was notified. -/
def Recalled (v : Option Bool) : Pc D → Prop
  | .ready => True
  | .check x | .wait x | .waited x => x.deadline ≠ none → v ≠ some true
  | .done x b => x.deadline ≠ none → (b = true ↔ v = some true)

/-- A step of agent `i` and its last wait. -/
theorem Move.recalled {v : ι → Option Bool} (m : Move i c.shared (c.loc i) a s₁ l₁)
    (h : Recalled (v i) (c.loc i).pc) : Recalled (lastWait c (.agent i a) v i) l₁.pc := by
  cases m with
  | outside | cancel | returns => trivial
  | start x =>
    intro _
    simp [lastWait]
  | below hbusy =>
    simpa [lastWait, Local.waitReturned, hbusy] using h
  | spurious => exact h
  | again x hp | enough x hp | wait x hp =>
    rw [hp] at h
    intro hd
    simpa [lastWait, Local.waitReturned, hp] using h hd
  | timedOut x hp hrest hdeadline htimed =>
    intro _
    simp [lastWait, Local.waitReturned, hp, hrest, htimed]
  | notified x hp hrest hgo =>
    intro hd
    simp [lastWait, Local.waitReturned, hp, hrest, hgo hd]

/-- What is true of every loop in a run. -/
structure Truthful (v : ι → Option Bool) (c : Config ι (Condvar.Shared ι R D) (Local ι R D)) :
    Prop where
  looping : ∀ i, Looping c.shared (c.loc i)
  recalled : ∀ i, Recalled (v i) (c.loc i).pc

theorem Truthful.step {v : ι → Option Bool} (h : Truthful v c)
    (hguards : ∀ i j, (c.loc i).cv.mx.pc.hasGuard = true → (c.loc j).cv.mx.pc.hasGuard = true → i = j)
    (m : Move i c.shared (c.loc i) a s₁ l₁) :
    Truthful (lastWait c (.agent i a) v) (c.set i s₁ l₁) := by
  refine ⟨fun j => ?_, fun j => ?_⟩ <;> by_cases hj : j = i
  · subst hj
    rw [Config.set_loc_self]
    exact m.looping (h.looping j)
  · rw [Config.set_loc_of_ne hj]
    -- another agent changes the value only if it has the guard
    refine (h.looping j).of_inner fun hguard => m.inner ?_
    by_contra hi
    exact hj (hguards j i hguard.hasGuard (Bool.eq_true_of_not_eq_false hi))
  · subst hj
    rw [Config.set_loc_self]
    exact m.recalled (h.recalled j)
  · rw [Config.set_loc_of_ne hj, lastWait_of_ne hj]
    exact h.recalled j

variable {plat : Platform ι} {value : D} {regs : ι → R} {v : ι → Option Bool}

theorem guards_unique (h : sys.Reachable (init plat value regs) c) (i j : ι)
    (hi : (c.loc i).cv.mx.pc.hasGuard = true) (hj : (c.loc j).cv.mx.pc.hasGuard = true) : i = j :=
  (atomic_cell (toCondvar.reachable h)).2.1 i j hi hj

theorem truthful (H : sys.History lastWait (fun _ => none) (init plat value regs) v c) :
    Truthful v c := by
  refine System.ReachNote.invariant (I := Truthful) H ?_ ?_ ?_
  · exact ⟨fun _ => trivial, fun _ => trivial⟩
  · intro v c i a s l hc ih _ hs
    exact ih.step (guards_unique hc) (step_move hs)
  · intro v c e s _ ih _ hs
    simp only [sys, Option.map_eq_some_iff] at hs
    obtain ⟨p, -, rfl⟩ := hs
    exact ⟨fun j => (ih.looping j).of_inner fun _ => rfl, ih.recalled⟩

/-- **What a loop returns.**  The guard is there; a loop without a deadline returns with the condition
false.  A loop with a deadline reports a timeout exactly when its last wait did, and else the condition
is false; so it reports one whenever the condition is still true.  The return leaves the guard and the
value. -/
theorem predicate_wait (H : sys.History lastWait (fun _ => none) (init plat value regs) v c) {b : Bool}
    (hp : (c.loc i).pc = .done x b) :
    (x.deadline = none → b = false) ∧ (x.deadline ≠ none → (b = true ↔ v i = some true)) ∧
    (b = false → x.condition c.shared.mx.inner = false) ∧
    (x.condition c.shared.mx.inner = true → b = true) ∧
    ∃ l, step i .step c.shared (c.loc i) = some (c.shared, l) ∧ l.pc = .ready ∧
      l.cv.mx.pc = .guard := by
  have ht := truthful H
  have hloop := ht.looping i
  have hrecalled := ht.recalled i
  rw [hp] at hrecalled
  have hguard : Guarded (c.loc i).cv := by
    simp only [Looping, hp] at hloop
    cases b <;> exact hloop.1
  have hfalse : b = false → x.condition c.shared.mx.inner = false := by
    rintro rfl
    simp only [Looping, hp] at hloop
    exact hloop.2
  refine ⟨fun hd => ?_, hrecalled, hfalse, fun hcond => ?_, ?_⟩
  · cases b
    · rfl
    · simp only [Looping, hp] at hloop
      exact absurd hd hloop.2.1
  · by_contra hb
    rw [hfalse (Bool.eq_false_of_not_eq_true hb)] at hcond
    cases hcond
  · refine ⟨(c.loc i).goto .ready, ?_, rfl, hguard.2⟩
    simp [step, hguard.atRest, advance, hp]

/-- A thread waits until the value is `true`, with a deadline that has passed; its wait times out. -/
def waitExpired : List (Label Bool (Act Unit Bool) (Event Bool)) :=
  [.agent false (.cv (.lock .tryLock)), .agent false (.cv .step),
    .agent false (.waitWhile (waitBlockWhile (some 0) fun ready => !ready)),
    .agent false .step, .agent false .step, .agent false .step, .agent false .step,
    .agent false .step, .agent false .step, .agent false .step, .agent false .step,
    .agent false .step, .agent false .step]

/-- The thread locks again, and the loop is about to return. -/
def lockReturn : List (Label Bool (Act Unit Bool) (Event Bool)) :=
  [.agent false .step, .agent false .step, .agent false .step, .agent false .step,
    .agent false .step, .agent false .step]

/-- The loop of agent `i` is about to return, in a state that satisfies `p`. -/
def Returns (i : ι) (p : Call D → Bool → D → Bool)
    (c : Config ι (Condvar.Shared ι R D) (Local ι R D)) : Bool :=
  match (c.loc i).pc with
  | .done x b => p x b c.shared.mx.inner
  | _ => false

omit [DecidableEq ι] in
theorem Returns.exists {p : Call D → Bool → D → Bool} (h : Returns i p c = true) :
    ∃ x b, (c.loc i).pc = .done x b ∧ p x b c.shared.mx.inner = true := by
  cases hp : (c.loc i).pc with
  | done x b => exact ⟨x, b, rfl, by simpa [Returns, hp] using h⟩
  | _ => simp [Returns, hp] at h

/-- A run in which the deadline of the only waiter passes while the value is `false`. -/
theorem predicate_wait_expired :
    ∃ (v : Bool → Option Bool) (c : Config Bool (Condvar.Shared Bool Unit Bool) (Local Bool Unit Bool))
      (x : Call Bool), sys.History lastWait (fun _ => none)
        (init (.new .native) false fun _ => ()) v c ∧ (c.loc false).pc = .done x true ∧
      x.condition c.shared.mx.inner = true ∧ (true = true ↔ v false = some true) := by
  obtain ⟨v, c, H, hend⟩ := System.exists_note_of_along (M := sys) (P := fun _ _ _ => True)
    (h := fun _ => none) (c := init (ι := Bool) (R := Unit) (.new .native) false fun _ => ()) lastWait
    (p := fun _ c => Returns false (fun x b value => b && x.deadline.isSome && x.condition value) c)
    (waitExpired ++ lockReturn) (by decide) (by decide)
  obtain ⟨x, b, hp, hx⟩ := Returns.exists hend
  simp only [Bool.and_eq_true] at hx
  obtain ⟨⟨rfl, hdeadline⟩, hcond⟩ := hx
  exact ⟨v, c, x, H, hp, hcond,
    (predicate_wait H hp).2.1 (Option.isSome_iff_ne_none.1 hdeadline)⟩

/-- **The value changes after the wait has timed out.**  Before the waiter has locked again the other
thread stores what it waits for; the loop reports a timeout, with its condition false. -/
theorem timeout_with_condition_false :
    ∃ (c : Config Bool (Condvar.Shared Bool Unit Bool) (Local Bool Unit Bool)) (x : Call Bool),
      sys.Reachable (init (.new .native) false fun _ => ()) c ∧ (c.loc false).pc = .done x true ∧
      x.deadline = some 0 ∧ x.condition c.shared.mx.inner = false := by
  obtain ⟨c, hc, hend⟩ := System.exists_of_run (M := sys)
    (c := init (ι := Bool) (R := Unit) (.new .native) false fun _ => ())
    (p := Returns false fun x b value => b && decide (x.deadline = some 0) && !x.condition value)
    (waitExpired ++ [.agent true (.cv (.lock .tryLock)), .agent true (.cv .step),
      .agent true (.cv (.access fun x => (x.1, true))), .agent true (.cv .drop)] ++ lockReturn)
    (by decide)
  obtain ⟨x, b, hp, hx⟩ := Returns.exists hend
  simp only [Bool.and_eq_true, decide_eq_true_eq, Bool.not_eq_true'] at hx
  obtain ⟨⟨rfl, hdeadline⟩, hcond⟩ := hx
  exact ⟨c, x, hc, hp, hdeadline, hcond⟩

end While

end Condvar

end WasmSafeThread
