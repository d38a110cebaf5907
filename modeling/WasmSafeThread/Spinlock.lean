import WasmSafeThread.Agents.Basic
import Mathlib.Data.Bool.Basic

/-!
# The spinlock

`Spinlock<T>` (`spinlock.rs`): `with_mut` swaps the flag until it finds it clear, runs the closure,
and stores `false`.  The store is the statement after the call of the closure, so a closure that
panics unwinds past it.

An agent makes one call of `with_mut` after the other; a call inside a closure is a call of another
agent.  A closure is any sequence of accesses to the protected value and to what it has computed
so far (`Local.reg`), and ends by returning or by panicking.

* `Released` : what `with_mut` promises.
* `closure_unique` : at most one closure runs, in every run.
* `released_iff` : the promise is kept exactly as long as no closure has panicked.
* `not_released_after_panic` : a run with a panic, after which the flag is set for ever.
-/

namespace WasmSafeThread

namespace Spinlock

/-- The fields of `Spinlock<T>`, and the history. -/
structure Shared (D : Type*) where
  data : D
  locked : Bool
  /-- History: the number of closures that have panicked. -/
  panics : ℕ

/-- The control points of an agent. -/
inductive Pc where
  /-- No call. -/
  | ready
  /-- Before `locked.swap(true)`. -/
  | swap
  /-- In the closure. -/
  | closure
  /-- The closure has returned: before `locked.store(false)`. -/
  | store
  /-- The panic of a closure has ended the thread. -/
  | ended
  deriving DecidableEq

/-- The local state of an agent. -/
structure Local (R : Type*) where
  pc : Pc
  reg : R

/-- The operations of an agent. -/
inductive Act (R D : Type*) where
  /-- Call `with_mut`. -/
  | withMut
  /-- The next atomic operation of `with_mut`. -/
  | step
  /-- An access of the closure. -/
  | access (f : R × D → R × D)
  /-- The closure returns. -/
  | ret
  /-- The closure panics; the panic is caught by the caller of `with_mut`, or ends the thread. -/
  | panic (caught : Bool)

variable {ι R D : Type*}

/-- The agent is between its successful swap and the end of its `with_mut`. -/
def Pc.inside : Pc → Bool
  | .closure | .store => true
  | _ => false

/-- The agent is in a call of `with_mut`. -/
def Pc.inCall : Pc → Bool
  | .swap | .closure | .store => true
  | _ => false

/-- One operation of an agent. -/
def step (a : Act R D) (s : Shared D) (l : Local R) : Option (Shared D × Local R) :=
  match l.pc, a with
  | .ready, .withMut => some (s, { l with pc := .swap })
  | .swap, .step =>
    some ({ s with locked := true }, { l with pc := if s.locked then .swap else .closure })
  | .closure, .access f =>
    let x := f (l.reg, s.data)
    some ({ s with data := x.2 }, { l with reg := x.1 })
  | .closure, .ret => some (s, { l with pc := .store })
  | .closure, .panic caught =>
    some ({ s with panics := s.panics + 1 }, { l with pc := if caught then .ready else .ended })
  | .store, .step => some ({ s with locked := false }, { l with pc := .ready })
  | _, _ => none

/-- The spinlock as a system. -/
def sys : System ι (Shared D) (Local R) (Act R D) Empty where
  step _ := step
  env e _ := nomatch e

/-- `Spinlock::new(data)`, and agents with registers `regs`, none in a call. -/
def init (data : D) (regs : ι → R) : Config ι (Shared D) (Local R) :=
  ⟨⟨data, false, 0⟩, fun i => ⟨.ready, regs i⟩⟩

variable {i j : ι} {a : Act R D} {s s₁ : Shared D} {l l₁ : Local R} {data : D} {regs : ι → R}
  {c : Config ι (Shared D) (Local R)}

/-! ### What one operation does to the flag -/

/-- What an operation does to the flag and to the place of the agent. -/
inductive FlagMove (s : Shared D) (l : Local R) (s₁ : Shared D) (l₁ : Local R) : Prop where
  /-- Nothing. -/
  | quiet (hlocked : s₁.locked = s.locked) (hpanics : s₁.panics = s.panics)
      (hinside : l₁.pc.inside = l.pc.inside)
  /-- The swap finds the flag clear. -/
  | enter (hfree : s.locked = false) (hlocked : s₁.locked = true) (hpanics : s₁.panics = s.panics)
      (hinside : l₁.pc.inside = true)
  /-- The closure panics, and the flag stays as it is. -/
  | panic (hpc : l.pc = .closure) (hlocked : s₁.locked = s.locked) (hpanics : s₁.panics = s.panics + 1)
      (hinside : l₁.pc.inside = false)
  /-- The flag is cleared. -/
  | release (hpc : l.pc = .store) (hlocked : s₁.locked = false) (hpanics : s₁.panics = s.panics)
      (hinside : l₁.pc.inside = false)

theorem step_flag (h : step a s l = some (s₁, l₁)) : FlagMove s l s₁ l₁ := by
  unfold step at h
  split at h
  · rename_i hpc
    cases h
    exact .quiet rfl rfl (by rw [hpc]; rfl)
  · rename_i hpc
    cases h
    by_cases hlocked : s.locked = true
    · exact .quiet hlocked.symm rfl (by rw [hpc, if_pos hlocked])
    · exact .enter (Bool.eq_false_of_not_eq_true hlocked) rfl rfl (by rw [if_neg hlocked]; rfl)
  · cases h
    exact .quiet rfl rfl rfl
  · rename_i hpc
    cases h
    exact .quiet rfl rfl (by rw [hpc]; rfl)
  · rename_i caught hpc
    cases h
    exact .panic hpc rfl rfl (by cases caught <;> rfl)
  · rename_i hpc
    cases h
    exact .release hpc rfl rfl rfl
  · cases h

/-- The flag is set by the agent inside or by a closure that has panicked, and there is only one of
these. -/
structure Taken (c : Config ι (Shared D) (Local R)) : Prop where
  iff : c.shared.locked = true ↔ (∃ i, (c.loc i).pc.inside = true) ∨ c.shared.panics ≠ 0
  unique : ∀ i j, (c.loc i).pc.inside = true → (c.loc j).pc.inside = true → i = j
  alone : c.shared.panics ≠ 0 → ∀ i, (c.loc i).pc.inside = false

theorem Taken.locked (h : Taken c) (hi : (c.loc i).pc.inside = true) : c.shared.locked = true :=
  h.iff.2 (.inl ⟨i, hi⟩)

theorem Taken.no_panic (h : Taken c) (hi : (c.loc i).pc.inside = true) : c.shared.panics = 0 := by
  by_contra hne
  rw [h.alone hne i] at hi
  cases hi

variable [DecidableEq ι]

theorem Taken.none_inside (h : Taken c) (s₁ : Shared D) (hin : (c.loc i).pc.inside = true)
    (hout : l₁.pc.inside = false) (j : ι) : ((c.set i s₁ l₁).loc j).pc.inside = false := by
  by_cases hj : j = i
  · subst hj; simpa using hout
  · rw [Config.set_loc_of_ne hj]
    by_contra hjn
    exact hj (h.unique j i (Bool.eq_true_of_not_eq_false hjn) hin)

theorem Taken.step (h : Taken c) (hs : step a c.shared (c.loc i) = some (s₁, l₁)) :
    Taken (c.set i s₁ l₁) := by
  cases step_flag hs with
  | quiet hlocked hpanics hinside =>
    have hloc : ∀ j, ((c.set i s₁ l₁).loc j).pc.inside = (c.loc j).pc.inside :=
      Config.set_loc_congr (f := fun l : Local R => l.pc.inside) hinside
    refine ⟨?_, fun j k hj hk => ?_, fun hp j => ?_⟩
    · simpa only [Config.set_shared, hlocked, hpanics, hloc] using h.iff
    · rw [hloc] at hj hk
      exact h.unique j k hj hk
    · rw [hloc]
      rw [Config.set_shared, hpanics] at hp
      exact h.alone hp j
  | enter hfree hlocked hpanics hinside =>
    -- the flag was clear, so nobody was inside and no closure had panicked
    have hnone : ∀ j, (c.loc j).pc.inside = false := by
      intro j
      by_contra hj
      rw [h.locked (Bool.eq_true_of_not_eq_false hj)] at hfree
      cases hfree
    have hzero : c.shared.panics = 0 := by
      by_contra hne
      rw [h.iff.2 (.inr hne)] at hfree
      cases hfree
    have honly : ∀ j, ((c.set i s₁ l₁).loc j).pc.inside = true → j = i := by
      intro j hj
      by_contra hji
      rw [Config.set_loc_of_ne hji, hnone j] at hj
      cases hj
    refine ⟨⟨fun _ => .inl ⟨i, by simpa using hinside⟩, fun _ => hlocked⟩, fun j k hj hk => ?_,
      fun hp => ?_⟩
    · rw [honly j hj, honly k hk]
    · rw [Config.set_shared, hpanics] at hp
      exact absurd hzero hp
  | panic hpc hlocked hpanics hinside =>
    have hin : (c.loc i).pc.inside = true := by rw [hpc]; rfl
    have hnone := h.none_inside s₁ hin hinside
    refine ⟨⟨fun _ => .inr ?_, fun _ => ?_⟩, fun j k hj => ?_, fun _ => hnone⟩
    · rw [Config.set_shared, hpanics]
      omega
    · rw [Config.set_shared, hlocked]
      exact h.locked hin
    · rw [hnone j] at hj
      cases hj
  | release hpc hlocked hpanics hinside =>
    have hin : (c.loc i).pc.inside = true := by rw [hpc]; rfl
    have hnone := h.none_inside s₁ hin hinside
    refine ⟨⟨fun ht => ?_, ?_⟩, fun j k hj => ?_, fun _ => hnone⟩
    · rw [Config.set_shared, hlocked] at ht
      cases ht
    · rintro (⟨j, hj⟩ | hp)
      · rw [hnone j] at hj
        cases hj
      · rw [Config.set_shared, hpanics, h.no_panic hin] at hp
        exact absurd rfl hp
    · rw [hnone j] at hj
      cases hj

theorem taken (h : sys.Reachable (init data regs) c) : Taken c := by
  refine h.invariant ?_ (fun c i a s l _ ih _ hs => ih.step hs) fun c e => nomatch e
  refine ⟨?_, nofun, fun hp => absurd rfl hp⟩
  simp [init, Pc.inside]

/-- **At most one closure runs**, whether closures panic or not. -/
theorem closure_unique (h : sys.Reachable (init data regs) c) (hi : (c.loc i).pc = .closure)
    (hj : (c.loc j).pc = .closure) : i = j :=
  (taken h).unique i j (by rw [hi]; rfl) (by rw [hj]; rfl)

/-! ### The release -/

/-- What `with_mut` promises of a configuration: the flag is set exactly when one agent is between
its successful swap and the end of its call, at most one closure runs, and when no call is in
progress the next one enters. -/
structure Released (c : Config ι (Shared D) (Local R)) : Prop where
  flag : c.shared.locked = true ↔ ∃! i, (c.loc i).pc.inside = true
  closures : ∀ i j, (c.loc i).pc = .closure → (c.loc j).pc = .closure → i = j
  enters : (∀ i, (c.loc i).pc.inCall = false) → ∀ i, (c.loc i).pc = .ready →
    ∃ c', sys.run c [.agent i .withMut, .agent i .step] = some c' ∧ (c'.loc i).pc = .closure

theorem run_enters (hfree : c.shared.locked = false) (hi : (c.loc i).pc = .ready) :
    ∃ c', sys.run c [.agent i .withMut, .agent i .step] = some c' ∧ (c'.loc i).pc = .closure := by
  simp [System.run, System.next, sys, step, hi, hfree]

/-- **`with_mut` releases the lock exactly as long as no closure panics.** -/
theorem released_iff (h : sys.Reachable (init data regs) c) :
    Released c ↔ c.shared.panics = 0 := by
  have ht := taken h
  constructor
  · intro hr
    by_contra hp
    obtain ⟨i, hi, -⟩ := hr.flag.1 (ht.iff.2 (.inr hp))
    rw [ht.alone hp i] at hi
    cases hi
  · intro hp
    have hflag : c.shared.locked = true ↔ ∃ i, (c.loc i).pc.inside = true := by
      simpa [hp] using ht.iff
    refine ⟨⟨fun hl => ?_, fun ⟨i, hi, _⟩ => ht.locked hi⟩, fun i j => closure_unique h,
      fun hnone i hi => run_enters ?_ hi⟩
    · obtain ⟨i, hi⟩ := hflag.1 hl
      exact ⟨i, hi, fun j hj => ht.unique j i hj hi⟩
    · by_contra hl
      obtain ⟨j, hj⟩ := hflag.1 (Bool.eq_true_of_not_eq_false hl)
      have hcall := hnone j
      cases hpc : (c.loc j).pc <;> simp [Pc.inCall, Pc.inside, hpc] at hcall hj

/-- A run in which a closure returns and its call has ended. -/
theorem released_iff_return :
    ∃ c : Config Bool (Shared ℕ) (Local Unit), sys.Reachable (init 0 fun _ => ()) c ∧
      c.shared.data = 1 ∧ Released c := by
  obtain ⟨c, hc, hend⟩ := System.exists_of_run (M := sys)
    (c := init (ι := Bool) (0 : ℕ) fun _ => ())
    (p := fun c => decide (c.shared.panics = 0 ∧ c.shared.data = 1))
    [.agent true .withMut, .agent true .step, .agent true (.access fun x => (x.1, x.2 + 1)),
      .agent true .ret, .agent true .step] (by decide)
  rw [decide_eq_true_eq] at hend
  exact ⟨c, hc, hend.2, (released_iff hc).2 hend.1⟩

/-- **The lock is not released after a panic.**  A closure panics and the panic is caught; no call
is in progress, the flag is set, and the next call spins on it. -/
theorem not_released_after_panic :
    ∃ c : Config Bool (Shared Unit) (Local Unit), sys.Reachable (init () fun _ => ()) c ∧
      (∀ i, (c.loc i).pc = .ready) ∧ c.shared.locked = true ∧ ¬ Released c := by
  obtain ⟨c, hc, hend⟩ := System.exists_of_run (M := sys)
    (c := init (ι := Bool) () fun _ => ())
    (p := fun c => decide ((∀ i, (c.loc i).pc = .ready) ∧ c.shared.locked = true))
    [.agent true .withMut, .agent true .step, .agent true (.panic true)] (by decide)
  obtain ⟨hready, hlocked⟩ := of_decide_eq_true hend
  refine ⟨c, hc, hready, hlocked, fun hr => ?_⟩
  obtain ⟨i, hi, -⟩ := hr.flag.1 hlocked
  rw [hready i] at hi
  cases hi

end Spinlock

end WasmSafeThread
