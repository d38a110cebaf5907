import WasmSafeThread.Agents.Closure
import WasmSafeThread.Agents.Measure
import WasmSafeThread.Spinlock

/-!
# Closures under the spinlock

`with_mut` (`spinlock.rs`) with what its closure does: each access is a step of its own.

* `step`, `sys` : the calls over `Spinlock.sys`.
* `toSpinlock` : a run of the calls is a run of the spinlock.
* `linearizable_withMut` : **a closure is applied at one instant**, also one that panics.
* `withMut_returns` : as long as the closures do not panic, all calls can return.
-/

namespace WasmSafeThread

namespace Spinlock

namespace With

variable {ι D R : Type*}

/-- The control points of a call. -/
inductive Pc (D R : Type*) where
  /-- No call. -/
  | ready
  /-- Before the swap. -/
  | locking (f : Body D R)
  /-- In the closure `f`, of which `b` is left. -/
  | running (f b : Body D R)
  /-- Before the store. -/
  | storing (r : R)
  /-- The panic of a closure has ended the thread. -/
  | ended

/-- The local state of an agent: its call over the frame of the lock. -/
structure Local (D R : Type*) where
  sp : Spinlock.Local Unit
  pc : Pc D R

/-- The operations of an agent. -/
inductive Act (D R : Type*) where
  /-- Call `with_mut`. -/
  | withMut (f : Body D R)
  /-- The next operation of the call. -/
  | step
  /-- The closure panics; the panic is caught by the caller of `with_mut`, or ends the thread. -/
  | panic (caught : Bool)

/-- An operation on the lock, after which the call is at `p`. -/
def lift (a : Spinlock.Act Unit D) (s : Shared D) (l : Local D R) (p : Pc D R) :
    Option (Shared D × Local D R) :=
  (Spinlock.step a s l.sp).map fun r => (r.1, ⟨r.2, p⟩)

/-- One operation of an agent. -/
def step (a : Act D R) (s : Shared D) (l : Local D R) : Option (Shared D × Local D R) :=
  match l.pc, a with
  | .ready, .withMut f => lift .withMut s l (.locking f)
  | .locking f, .step => lift .step s l (if s.locked then .locking f else .running f f)
  | .running f (.access write next), .step =>
    lift (.access fun y => (y.1, write y.2)) s l (.running f (next s.data))
  | .running _ (.ret r), .step => lift .ret s l (.storing r)
  | .running _ .panic, .panic caught => lift (.panic caught) s l (if caught then .ready else .ended)
  | .storing _, .step => lift .step s l .ready
  | _, _ => none

/-- The calls as a system. -/
def sys : System ι (Shared D) (Local D R) (Act D R) Empty where
  step _ := step
  env e _ := nomatch e

/-- A new lock, and agents that have made no call. -/
def init (data : D) : Config ι (Shared D) (Local D R) :=
  ⟨⟨data, false, 0⟩, fun _ => ⟨⟨.ready, ()⟩, .ready⟩⟩

variable {i j : ι} {a : Act D R} {s s₁ : Shared D} {l l₁ : Local D R} {lsp lsp₁ : Spinlock.Local Unit}
  {data d : D} {c : Config ι (Shared D) (Local D R)}

/-! ### What one step can do -/

/-- What a step of a call does. -/
inductive Move (s : Shared D) (l : Local D R) (s₁ : Shared D) (l₁ : Local D R) : Act D R → Prop
  | call (f : Body D R) (hp : l.pc = .ready) (hp₁ : l₁.pc = .locking f)
      (hs : Spinlock.step .withMut s l.sp = some (s₁, l₁.sp)) : Move s l s₁ l₁ (.withMut f)
  /-- The swap finds the flag set. -/
  | spin (f : Body D R) (hp : l.pc = .locking f) (hlocked : s.locked = true) (hp₁ : l₁.pc = .locking f)
      (hs : Spinlock.step .step s l.sp = some (s₁, l₁.sp)) : Move s l s₁ l₁ .step
  /-- It finds the flag clear, and the closure is called. -/
  | enter (f : Body D R) (hp : l.pc = .locking f) (hfree : s.locked = false)
      (hp₁ : l₁.pc = .running f f) (hs : Spinlock.step .step s l.sp = some (s₁, l₁.sp)) :
      Move s l s₁ l₁ .step
  | access (f : Body D R) (write : D → D) (next : D → Body D R)
      (hp : l.pc = .running f (.access write next)) (hp₁ : l₁.pc = .running f (next s.data))
      (hs : Spinlock.step (.access fun y => (y.1, write y.2)) s l.sp = some (s₁, l₁.sp)) :
      Move s l s₁ l₁ .step
  | ret (f : Body D R) (r : R) (hp : l.pc = .running f (.ret r)) (hp₁ : l₁.pc = .storing r)
      (hs : Spinlock.step .ret s l.sp = some (s₁, l₁.sp)) : Move s l s₁ l₁ .step
  | panic (f : Body D R) (caught : Bool) (hp : l.pc = .running f .panic)
      (hp₁ : l₁.pc = if caught then .ready else .ended)
      (hs : Spinlock.step (.panic caught) s l.sp = some (s₁, l₁.sp)) : Move s l s₁ l₁ (.panic caught)
  | store (r : R) (hp : l.pc = .storing r) (hp₁ : l₁.pc = .ready)
      (hs : Spinlock.step .step s l.sp = some (s₁, l₁.sp)) : Move s l s₁ l₁ .step

theorem lift_eq_some {m : Spinlock.Act Unit D} {p : Pc D R} (h : lift m s l p = some (s₁, l₁)) :
    Spinlock.step m s l.sp = some (s₁, l₁.sp) ∧ l₁.pc = p := by
  simp only [lift, Option.map_eq_some_iff, Prod.mk.injEq] at h
  obtain ⟨⟨s₂, lsp⟩, hs, rfl, rfl⟩ := h
  exact ⟨hs, rfl⟩

theorem step_move (h : step a s l = some (s₁, l₁)) : Move s l s₁ l₁ a := by
  unfold step at h
  split at h
  · rename_i f hp
    obtain ⟨hs, hp₁⟩ := lift_eq_some h
    exact .call f hp hp₁ hs
  · rename_i f hp
    obtain ⟨hs, hp₁⟩ := lift_eq_some h
    split at hp₁
    · exact .spin f hp ‹_› hp₁ hs
    · exact .enter f hp (Bool.eq_false_of_not_eq_true ‹_›) hp₁ hs
  · rename_i f write next hp
    obtain ⟨hs, hp₁⟩ := lift_eq_some h
    exact .access f write next hp hp₁ hs
  · rename_i f r hp
    obtain ⟨hs, hp₁⟩ := lift_eq_some h
    exact .ret f r hp hp₁ hs
  · rename_i f caught hp
    obtain ⟨hs, hp₁⟩ := lift_eq_some h
    exact .panic f caught hp hp₁ hs
  · rename_i r hp
    obtain ⟨hs, hp₁⟩ := lift_eq_some h
    exact .store r hp hp₁ hs
  · cases h

/-- **The spinlock under the calls.** -/
def toSpinlock : Projection (sys (ι := ι) (D := D) (R := R)) (Spinlock.sys (ι := ι) (R := Unit) (D := D)) where
  shared s := s
  loc l := l.sp
  step h := by
    cases step_move h with
    | call _ _ _ hs | spin _ _ _ _ hs | enter _ _ _ _ hs | access _ _ _ _ _ hs | ret _ _ _ _ hs
    | panic _ _ _ _ hs | store _ _ _ hs => exact .inr (.inl ⟨_, hs⟩)
  env {e _ _} _ := by cases e

/-! ### The two frames -/

/-- Where the lock is in a call. -/
def Pc.frame : Pc D R → Spinlock.Pc
  | .ready => .ready
  | .locking _ => .swap
  | .running _ _ => .closure
  | .storing _ => .store
  | .ended => .ended

theorem Move.frame (hm : Move s l s₁ l₁ a) (hl : l.sp.pc = l.pc.frame) : l₁.sp.pc = l₁.pc.frame := by
  cases hm with
  | call f hp hp₁ hs | access f write next hp hp₁ hs | ret f r hp hp₁ hs | store r hp hp₁ hs =>
    rw [hp] at hl
    simp only [Spinlock.step, hl, Pc.frame, Option.some.injEq, Prod.mk.injEq] at hs
    rw [hp₁, ← hs.2]
    rfl
  | spin f hp hflag hp₁ hs | enter f hp hflag hp₁ hs =>
    rw [hp] at hl
    simp only [Spinlock.step, hl, Pc.frame, hflag, Option.some.injEq, Prod.mk.injEq] at hs
    rw [hp₁, ← hs.2]
    rfl
  | panic f caught hp hp₁ hs =>
    rw [hp] at hl
    simp only [Spinlock.step, hl, Pc.frame, Option.some.injEq, Prod.mk.injEq] at hs
    rw [hp₁, ← hs.2]
    cases caught <;> rfl

/-- The closure has begun, and has not ended. -/
def Pc.inside : Pc D R → Bool
  | .running _ _ => true
  | _ => false

variable [DecidableEq ι]

theorem frames (h : sys.Reachable (init data) c) (i : ι) : (c.loc i).sp.pc = (c.loc i).pc.frame := by
  revert i
  refine h.invariant (I := fun c => ∀ i, (c.loc i).sp.pc = (c.loc i).pc.frame) (fun _ => rfl) ?_ ?_
  · intro c i a s l _ ih _ hs j
    by_cases hj : j = i
    · subst hj
      rw [Config.set_loc_self]
      exact (step_move hs).frame (ih j)
    · rw [Config.set_loc_of_ne hj]
      exact ih j
  · intro c e
    cases e

theorem spinlock_reachable (h : sys.Reachable (init data) c) :
    Spinlock.sys.Reachable (Spinlock.init data fun _ => ()) (toSpinlock.config c) :=
  toSpinlock.reachable h

theorem inside_unique (h : sys.Reachable (init data) c) (hi : (c.loc i).pc.inside = true) (hj : j ≠ i) :
    (c.loc j).pc.inside = false := by
  have hclosure : ∀ k, (c.loc k).pc.inside = true → ((toSpinlock.config c).loc k).pc = .closure :=
    fun k hk => by
      show (c.loc k).sp.pc = .closure
      rw [frames h k]
      cases hp : (c.loc k).pc <;> rw [hp] at hk <;> first | rfl | cases hk
  by_contra hjn
  exact hj (closure_unique (spinlock_reachable h) (hclosure j (Bool.eq_true_of_not_eq_false hjn))
    (hclosure i hi))

/-! ### A closure is applied at one instant -/

/-- Where an agent is with its call. -/
def Pc.phase : Pc D R → Phase (Body D R) (Option R)
  | .ready | .ended => .idle
  | .locking f | .running f _ => .called f
  | .storing r => .done (some r)

/-- What is seen when agent `i` performs `a`.  A call that unwinds gives `none`. -/
def occurs (i : ι) (a : Act D R) (_ : Shared D) (l : Local D R) :
    List (Occurrence ι (Body D R) (Option R)) :=
  match l.pc, a with
  | .ready, .withMut f => [.call i f]
  | .running _ _, .panic _ => [.ret i none]
  | .storing r, .step => [.ret i (some r)]
  | _, _ => []

/-- The value, when the closure that runs has not begun. -/
structure Seen (c : Config ι (Shared D) (Local D R)) (d : D) : Prop where
  closure : ∀ i f b, (c.loc i).pc = .running f b → b.exec c.shared.data = f.exec d
  value : (∀ i, (c.loc i).pc.inside = false) → c.shared.data = d

omit [DecidableEq ι] in
theorem step_data {m : Spinlock.Act Unit D} (hm : ∀ f, m ≠ .access f)
    (hs : Spinlock.step m s lsp = some (s₁, lsp₁)) : s₁.data = s.data := by
  unfold Spinlock.step at hs
  split at hs <;> cases hs <;> first | rfl | exact absurd rfl (hm _)

theorem Seen.keep (h : Seen c d) (hdata : s.data = c.shared.data) (hi : (c.loc i).pc.inside = false)
    (hl : l.pc.inside = false) : Seen (c.set i s l) d := by
  refine ⟨fun j f b hj => ?_, fun hno => ?_⟩
  · by_cases hji : j = i
    · subst hji
      rw [Config.set_loc_self] at hj
      rw [hj] at hl
      cases hl
    · rw [Config.set_loc_of_ne hji] at hj
      rw [Config.set_shared, hdata]
      exact h.closure j f b hj
  · rw [Config.set_shared, hdata]
    refine h.value fun j => ?_
    by_cases hji : j = i
    · rwa [hji]
    · have := hno j
      rwa [Config.set_loc_of_ne hji] at this

theorem Seen.alone (hothers : ∀ j, j ≠ i → (c.loc j).pc.inside = false)
    (hclosure : ∀ f b, l.pc = .running f b → b.exec s.data = f.exec d)
    (hvalue : l.pc.inside = false → s.data = d) : Seen (c.set i s l) d := by
  refine ⟨fun j f b hj => ?_, fun hno => ?_⟩
  · by_cases hji : j = i
    · subst hji
      rw [Config.set_loc_self] at hj
      exact hclosure f b hj
    · rw [Config.set_loc_of_ne hji] at hj
      have hin := hothers j hji
      rw [hj] at hin
      cases hin
  · have hself := hno i
    rw [Config.set_loc_self] at hself
    exact hvalue hself

theorem Move.turn (hc : sys.Reachable (init data) c) (h : Seen c d)
    (hstep : step a c.shared (c.loc i) = some (s, l)) :
    ∃ d', Seen (c.set i s l) d' ∧
      applied.Turn i d (c.loc i).pc.phase (occurs i a c.shared (c.loc i)) d' l.pc.phase := by
  have hl := frames hc i
  have hothers : (c.loc i).pc.inside = true → ∀ j, j ≠ i → (c.loc j).pc.inside = false :=
    fun hi j hj => inside_unique hc hi hj
  cases step_move hstep with
  | call f hp hp₁ hs =>
    refine ⟨d, h.keep (step_data (by rintro _ ⟨⟩) hs) (by rw [hp]; rfl) (by rw [hp₁]; rfl), ?_⟩
    simp only [occurs, hp, hp₁]
    exact .calls
  | spin f hp hflag hp₁ hs =>
    refine ⟨d, h.keep (step_data (by rintro _ ⟨⟩) hs) (by rw [hp]; rfl) (by rw [hp₁]; rfl), ?_⟩
    simp only [occurs, hp, hp₁]
    exact .stay
  | enter f hp hfree hp₁ hs =>
    have hdata := step_data (by rintro _ ⟨⟩) hs
    have hlone : ∀ j, j ≠ i → (c.loc j).pc.inside = false := fun j hj => by
      have := inside_unique (i := i) (hc.agent trivial hstep)
        (by rw [Config.set_loc_self, hp₁]; rfl) hj
      rwa [Config.set_loc_of_ne hj] at this
    have hd : c.shared.data = d := h.value fun j => by
      by_cases hj : j = i
      · rw [hj, hp]
        rfl
      · exact hlone j hj
    refine ⟨d, .alone hlone (fun g b hg => ?_) fun _ => hdata.trans hd, ?_⟩
    · rw [hp₁] at hg
      cases hg
      rw [hdata, hd]
    · simp only [occurs, hp, hp₁]
      exact .stay
  | access f write next hp hp₁ hs =>
    have hclosure := h.closure i f _ hp
    rw [hp] at hl
    simp only [Spinlock.step, hl, Pc.frame, Option.some.injEq, Prod.mk.injEq] at hs
    refine ⟨d, .alone (hothers (by rw [hp]; rfl)) (fun g b hg => ?_) fun hin => ?_, ?_⟩
    · rw [hp₁] at hg
      cases hg
      rw [← hs.1]
      exact hclosure
    · rw [hp₁] at hin
      cases hin
    · simp only [occurs, hp, hp₁]
      exact .stay
  | ret f r hp hp₁ hs =>
    have hclosure := h.closure i f _ hp
    have hdata := step_data (by rintro _ ⟨⟩) hs
    refine ⟨c.shared.data, .alone (hothers (by rw [hp]; rfl)) (fun g b hg => ?_) fun _ => hdata, ?_⟩
    · rw [hp₁] at hg
      cases hg
    · simp only [occurs, hp, hp₁]
      exact .commits hclosure.symm
  | panic f caught hp hp₁ hs =>
    have hclosure := h.closure i f _ hp
    have hdata := step_data (by rintro _ ⟨⟩) hs
    refine ⟨c.shared.data, .alone (hothers (by rw [hp]; rfl)) (fun g b hg => ?_) fun _ => hdata, ?_⟩
    · rw [hp₁] at hg
      cases caught <;> cases hg
    · have hphase : l.pc.phase = .idle := by rw [hp₁]; cases caught <;> rfl
      simp only [occurs, hp, hphase]
      exact .ends hclosure.symm
  | store r hp hp₁ hs =>
    refine ⟨d, h.keep (step_data (by rintro _ ⟨⟩) hs) (by rw [hp]; rfl) (by rw [hp₁]; rfl), ?_⟩
    simp only [occurs, hp, hp₁]
    exact .returns

/-- The calls are the object. -/
def simulation (data : D) :
    PhaseMap (sys (ι := ι) (D := D) (R := R)) (init data) applied data occurs where
  phase l := l.pc.phase
  Rel := Seen
  init := ⟨by rintro i f b ⟨⟩, fun _ => rfl⟩
  idle _ := rfl
  agent hc hd hs := Move.turn hc hd hs
  env {_ e _ _} _ _ _ := by cases e

/-- **A closure is applied at one instant.**  In every run the closures take effect one after the other,
each as a whole, between the call of `with_mut` and its end; a closure that panics leaves what it has
written. -/
theorem linearizable_withMut {h : List (Occurrence ι (Body D R) (Option R))}
    (H : sys.History (visible occurs) [] (init data) h c) : applied.Linearizable data h :=
  (simulation data).simulation.linearizable H

/-- A closure that adds 1 and gives what it found, and one that adds 5 and panics. -/
def addOne : Body ℕ ℕ := .access (· + 1) .ret

def addPanic : Body ℕ ℕ := .access (· + 5) fun _ => .panic

/-- A closure waits for another; then one panics. -/
theorem linearizable_withMut_panics :
    ∃ (h : List (Occurrence Bool (Body ℕ ℕ) (Option ℕ))) (c : Config Bool (Shared ℕ) (Local ℕ ℕ)),
      sys.History (visible occurs) [] (init 0) h c ∧ results true h = [some 0, none] ∧
      results false h = [some 1] ∧ c.shared.data = 7 ∧ applied.Linearizable 0 h := by
  obtain ⟨h, c, H, hend⟩ := System.exists_note_of_along (M := sys) (P := fun _ _ _ => True)
    (h := []) (c := init (ι := Bool) (R := ℕ) 0) (visible occurs)
    (p := fun h c => decide (results true h = [some 0, none] ∧ results false h = [some 1] ∧
      c.shared.data = 7))
    [.agent true (.withMut addOne), .agent false (.withMut addOne), .agent true .step,
      .agent false .step, .agent true .step, .agent true .step, .agent true .step, .agent false .step,
      .agent false .step, .agent false .step, .agent false .step, .agent true (.withMut addPanic),
      .agent true .step, .agent true .step, .agent true (.panic true)] (by decide) (by decide)
  rw [decide_eq_true_eq] at hend
  exact ⟨h, c, H, hend.1, hend.2.1, hend.2.2, linearizable_withMut H⟩

/-! ### Every call returns -/

/-- A call is one of a closure that does not panic. -/
def Calm : Label ι (Act D R) Empty → Prop
  | .agent _ (.withMut f) => f.Safe
  | _ => True

/-- What is left of the closure does not panic. -/
def Pc.Safe : Pc D R → Prop
  | .locking f => f.Safe
  | .running _ b => b.Safe
  | .ended => False
  | .ready | .storing _ => True

/-- No closure has panicked, and none will. -/
structure Safe (c : Config ι (Shared D) (Local D R)) : Prop where
  calls : ∀ i, (c.loc i).pc.Safe
  panics : c.shared.panics = 0

omit [DecidableEq ι] in
theorem step_panics {m : Spinlock.Act Unit D} (hm : ∀ b, m ≠ .panic b)
    (hs : Spinlock.step m s lsp = some (s₁, lsp₁)) : s₁.panics = s.panics := by
  unfold Spinlock.step at hs
  split at hs <;> cases hs <;> first | rfl | exact absurd rfl (hm _)

omit [DecidableEq ι] in
theorem Move.safe (hm : Move s l s₁ l₁ a) (hl : l.pc.Safe) (ha : Calm (ι := ι) (.agent i a)) :
    l₁.pc.Safe ∧ s₁.panics = s.panics := by
  cases hm with
  | call f hp hp₁ hs => exact ⟨hp₁ ▸ ha, step_panics (by rintro _ ⟨⟩) hs⟩
  | spin f hp _ hp₁ hs | enter f hp _ hp₁ hs =>
    rw [hp] at hl
    exact ⟨hp₁ ▸ hl, step_panics (by rintro _ ⟨⟩) hs⟩
  | access f write next hp hp₁ hs =>
    rw [hp] at hl
    exact ⟨hp₁ ▸ hl _, step_panics (by rintro _ ⟨⟩) hs⟩
  | ret f r hp hp₁ hs | store r hp hp₁ hs => exact ⟨hp₁ ▸ trivial, step_panics (by rintro _ ⟨⟩) hs⟩
  | panic f caught hp hp₁ hs =>
    rw [hp] at hl
    exact hl.elim

theorem safe (h : sys.Reach (fun _ a => Calm a) (init data) c) : Safe c := by
  refine h.invariant (I := Safe) ⟨fun _ => trivial, rfl⟩ ?_ ?_
  · intro c i a s l _ ih ha hs
    obtain ⟨hl, hpanics⟩ := (step_move hs).safe (ih.calls i) ha
    refine ⟨fun j => ?_, hpanics.trans ih.panics⟩
    by_cases hj : j = i
    · subst hj
      rwa [Config.set_loc_self]
    · rw [Config.set_loc_of_ne hj]
      exact ih.calls j
  · intro c e
    cases e

/-- The closure has not ended. -/
def Pc.todo : Pc D R → ℕ
  | .locking _ | .running _ _ => 1
  | _ => 0

/-- How far the call is from its end, apart from the closure. -/
def Pc.rank : Pc D R → ℕ
  | .locking _ => 2
  | .running _ _ | .storing _ => 1
  | _ => 0

/-- How many accesses the closure will make, on the value `d`. -/
def Pc.left (d : D) : Pc D R → ℕ
  | .running _ b => b.length d
  | _ => 0

/-- The closures that have not ended; the steps of the calls without them; the accesses of the closure
that runs. -/
def measure (F : Finset ι) (c : Config ι (Shared D) (Local D R)) : ℕ ×ₗ ℕ ×ₗ ℕ :=
  c.lexSum F (fun l => l.pc.todo) (fun l => l.pc.rank) (fun _ => 0) fun s l => l.pc.left s.data

/-- Agent `i` can make a step that brings the calls nearer to their ends. -/
def Advances (F : Finset ι) (i : ι) (c : Config ι (Shared D) (Local D R)) : Prop :=
  ∃ s l, step .step c.shared (c.loc i) = some (s, l) ∧ measure F (c.set i s l) < measure F c

variable {F : Finset ι}

theorem advances_running (h : sys.Reachable (init data) c) (hsafe : Safe c) (hi : i ∈ F) {f b : Body D R}
    (hp : (c.loc i).pc = .running f b) : Advances F i c := by
  have hl := frames h i
  have hb := hsafe.calls i
  rw [hp] at hl hb
  cases b with
  | ret r =>
    exact ⟨c.shared, ⟨⟨.store, ()⟩, .storing r⟩, by simp [step, hp, lift, Spinlock.step, hl, Pc.frame],
      Config.lexSum_lt_of_first hi (by rw [hp]; exact Nat.zero_lt_one)⟩
  | panic => exact hb.elim
  | access write next =>
    refine ⟨{ c.shared with data := write c.shared.data },
      ⟨⟨.closure, ()⟩, .running f (next c.shared.data)⟩,
      by simp [step, hp, lift, Spinlock.step, hl, Pc.frame],
      Config.lexSum_lt_of_third hi (by rw [hp]; rfl) (by rw [hp]; rfl) rfl (fun j hj => ?_) ?_⟩
    · have hin := inside_unique h (i := i) (by rw [hp]; rfl) hj
      cases hpj : (c.loc j).pc <;> rw [hpj] at hin <;> first | rfl | cases hin
    · rw [hp]
      exact Nat.lt_succ_self _

theorem advances_storing (h : sys.Reachable (init data) c) (hi : i ∈ F) {r : R}
    (hp : (c.loc i).pc = .storing r) : Advances F i c := by
  have hl := frames h i
  rw [hp] at hl
  exact ⟨{ c.shared with locked := false }, ⟨⟨.ready, ()⟩, .ready⟩,
    by simp [step, hp, lift, Spinlock.step, hl, Pc.frame],
    Config.lexSum_lt_of_second hi (by rw [hp]; rfl) (by rw [hp]; exact Nat.zero_lt_one)⟩

theorem advances_locking (h : sys.Reachable (init data) c) (hfree : c.shared.locked = false) (hi : i ∈ F)
    {f : Body D R} (hp : (c.loc i).pc = .locking f) : Advances F i c := by
  have hl := frames h i
  rw [hp] at hl
  exact ⟨{ c.shared with locked := true }, ⟨⟨.closure, ()⟩, .running f f⟩,
    by simp [step, hp, lift, Spinlock.step, hl, hfree, Pc.frame],
    Config.lexSum_lt_of_second hi (by rw [hp]; rfl) (by rw [hp]; exact Nat.lt_succ_self 1)⟩

theorem unlocked (h : sys.Reachable (init data) c) (hsafe : Safe c)
    (hrun : ∀ i f b, (c.loc i).pc ≠ .running f b) (hstore : ∀ i r, (c.loc i).pc ≠ .storing r) :
    c.shared.locked = false := by
  by_contra hlocked
  rcases (taken (spinlock_reachable h)).iff.1 (Bool.eq_true_of_not_eq_false hlocked) with ⟨k, hk⟩ | hp
  · have hk : (c.loc k).sp.pc.inside = true := hk
    rw [frames h k] at hk
    cases hpk : (c.loc k).pc with
    | running f b => exact hrun k f b hpk
    | storing r => exact hstore k r hpk
    | _ => rw [hpk] at hk; cases hk
  · exact hp hsafe.panics

/-- **Some call goes on**, as long as not all have returned. -/
theorem advances (h : sys.Reachable (init data) c) (hsafe : Safe c)
    (hF : ∀ i, (c.loc i).pc ≠ .ready → i ∈ F) (hcall : ∃ i, (c.loc i).pc ≠ .ready) :
    ∃ i, (c.loc i).pc ≠ .ready ∧ Advances F i c := by
  by_contra hno
  have hno : ∀ i, (c.loc i).pc ≠ .ready → ¬ Advances F i c := fun i hi hadv => hno ⟨i, hi, hadv⟩
  have hrun : ∀ i f b, (c.loc i).pc ≠ .running f b := fun i f b hp => by
    have hi : (c.loc i).pc ≠ .ready := by rw [hp]; rintro ⟨⟩
    exact hno i hi (advances_running h hsafe (hF i hi) hp)
  have hstore : ∀ i r, (c.loc i).pc ≠ .storing r := fun i r hp => by
    have hi : (c.loc i).pc ≠ .ready := by rw [hp]; rintro ⟨⟩
    exact hno i hi (advances_storing h (hF i hi) hp)
  have hfree := unlocked h hsafe hrun hstore
  obtain ⟨i, hi⟩ := hcall
  have hcalls := hsafe.calls i
  cases hp : (c.loc i).pc with
  | ready => exact hi hp
  | locking f => exact hno i hi (advances_locking h hfree (hF i hi) hp)
  | running f b => exact hrun i f b hp
  | storing r => exact hstore i r hp
  | ended =>
    rw [hp] at hcalls
    exact hcalls

/-- **Every call returns** if the closures do not panic: wherever the calls are, all of them can still
return, by steps of their own alone, and then the flag is clear. -/
theorem withMut_returns (h : sys.Reach (fun _ a => Calm a) (init data) c) :
    ∃ c', sys.Reach (fun _ a => ∃ i, a = .agent i .step) c c' ∧ (∀ i, (c'.loc i).pc = .ready) ∧
      c'.shared.locked = false := by
  obtain ⟨c', hreach, hc', hready⟩ := System.reach_rest (p := fun l : Local D R => l.pc = .ready)
    (a := .step) measure (fun _ => rfl) (fun F c₁ h₁ hF hcall => by
      obtain ⟨i, hi, s, l, hs, hlt⟩ := advances h₁.reachable (safe h₁) hF hcall
      exact ⟨i, s, l, hi, hs, trivial, hlt⟩) h
  refine ⟨c', hreach.mono fun _ _ hstep => hstep.1, hready,
    unlocked hc'.reachable (safe hc') (fun i f b hp => ?_) fun i r hp => ?_⟩
  · rw [hready i] at hp
    cases hp
  · rw [hready i] at hp
    cases hp

/-- One agent is in its closure, and two spin. -/
theorem withMut_returns_spinning :
    ∃ c : Config (Fin 3) (Shared ℕ) (Local ℕ ℕ), (c.loc 0).pc.inside = true ∧
      (c.loc 1).sp.pc = .swap ∧ (c.loc 2).sp.pc = .swap ∧
      ∃ c', sys.Reach (fun _ a => ∃ i, a = .agent i .step) c c' ∧ (∀ i, (c'.loc i).pc = .ready) ∧
        c'.shared.locked = false := by
  let calls : List (Label (Fin 3) (Act ℕ ℕ) Empty) :=
    [.agent 0 (.withMut addOne), .agent 1 (.withMut addOne), .agent 2 (.withMut addOne),
      .agent 0 .step, .agent 1 .step, .agent 2 .step]
  let c : Config (Fin 3) (Shared ℕ) (Local ℕ ℕ) := (sys.run (init 0) calls).get (by decide)
  have hrun : sys.run (init 0) calls = some c := (Option.some_get _).symm
  have hcalm : ∀ a ∈ calls, Calm a := by
    simp [calls, Calm, addOne, Body.Safe]
  exact ⟨c, by decide, by decide, by decide, withMut_returns (System.reach_of_forall hrun hcalm)⟩

end With

end Spinlock

end WasmSafeThread
