import WasmSafeThread.Agents.Closure
import WasmSafeThread.Mutex.Progress

/-!
# Closures under the mutex

`with_sync`, `with_mut_sync`, `with_async` and `with_mut_async` (`mutex/with.rs`): lock, call the closure
with a reference to the value, and drop the guard.

An agent makes one call at a time.  A closure is a `Body`; the operations of other agents come between its
accesses.  A panic of the closure unwinds through the call and drops the guard on the native backend; on
wasm the worker aborts, and the mutex stays locked.

* `step`, `sys` : the calls over `Mutex.sys`.
* `toMutex` : a run of the calls is a run of the mutex.
* `linearizable_closure` : **a closure runs as if alone.**
-/

namespace WasmSafeThread

namespace Mutex

namespace With

variable {ι D R : Type*}

/-- A call of one of the four functions. -/
structure Call (D R : Type*) where
  /-- The lock is that of `lock_async`. -/
  async : Bool
  /-- What the closure does. -/
  closure : Body D R

/-- `with_sync`. -/
def withSync (f : Body D R) : Call D R := ⟨false, f.frozen⟩

/-- `with_mut_sync`. -/
def withMutSync (f : Body D R) : Call D R := ⟨false, f⟩

/-- `with_async`. -/
def withAsync (f : Body D R) : Call D R := ⟨true, f.frozen⟩

/-- `with_mut_async`. -/
def withMutAsync (f : Body D R) : Call D R := ⟨true, f⟩

/-- The acquisition that the call begins with. -/
def Call.op (x : Call D R) (canBlock : Bool) : Op :=
  if x.async then .lockAsync else .lockSync canBlock none

/-- The control points of a call. -/
inductive Pc (D R : Type*) where
  /-- No call. -/
  | ready
  /-- In the acquisition. -/
  | locking (x : Call D R)
  /-- In the closure, of which `b` is left. -/
  | running (x : Call D R) (b : Body D R)
  /-- In the drop of the guard, before the return, or on the way out with a panic. -/
  | dropping (r : Option R)
  /-- Wasm: the closure has panicked. -/
  | aborted (x : Call D R)

/-- The local state of an agent: its call over the frame of the mutex. -/
structure Local (ι D R : Type*) where
  mx : Mutex.Local ι Unit
  pc : Pc D R

/-- The operations of an agent. -/
inductive Act (D R : Type*) where
  /-- Call one of the four functions. -/
  | call (x : Call D R)
  /-- The next operation of the call in progress. -/
  | step
  /-- A park returns without a token. -/
  | spurious
  /-- The pending future is dropped. -/
  | cancel
  /-- The token is consumed by a `park` that is not the mutex's. -/
  | consume

namespace Local

/-- Move to control point `p`. -/
def goto (l : Local ι D R) (p : Pc D R) : Local ι D R := { l with pc := p }

@[simp] theorem goto_pc (l : Local ι D R) (p : Pc D R) : (l.goto p).pc = p := rfl
@[simp] theorem goto_mx (l : Local ι D R) (p : Pc D R) : (l.goto p).mx = l.mx := rfl

end Local

section Step

variable [DecidableEq ι]

/-- An operation on the mutex, after which the call is at `p`. -/
def lift (i : ι) (a : Mutex.Act Unit D) (s : Shared ι Unit D) (l : Local ι D R) (p : Pc D R) :
    Option (Shared ι Unit D × Local ι D R) :=
  (Mutex.step i a s l.mx).map fun r => (r.1, ⟨r.2, p⟩)

/-- The next operation of a closure. -/
def run (i : ι) (s : Shared ι Unit D) (l : Local ι D R) (x : Call D R) :
    Body D R → Option (Shared ι Unit D × Local ι D R)
  | .ret r => lift i .drop s l (.dropping (some r))
  | .panic =>
    match s.plat.backend with
    | .native => lift i .drop s l (.dropping none)
    | .wasm => some (s, l.goto (.aborted x))
  | .access write next =>
    lift i (.access fun y => (y.1, write y.2)) s l (.running x (next s.inner))

/-- One operation of agent `i`. -/
def step (i : ι) (a : Act D R) (s : Shared ι Unit D) (l : Local ι D R) :
    Option (Shared ι Unit D × Local ι D R) :=
  match a, l.pc with
  | .call x, .ready => lift i (.call (x.op (s.plat.canBlock i))) s l (.locking x)
  | .step, .locking x =>
    if l.mx.pc = .guard then some (s, l.goto (.running x x.closure)) else lift i .step s l (.locking x)
  | .step, .running x b => run i s l x b
  | .step, .dropping r =>
    if l.mx.pc = .idle then some (s, l.goto .ready) else lift i .step s l (.dropping r)
  | .spurious, p => lift i .spurious s l p
  | .cancel, .locking _ => lift i .cancel s l .ready
  | .consume, .ready => lift i .consume s l .ready
  | _, _ => none

/-- The calls as a system. -/
def sys : System ι (Shared ι Unit D) (Local ι D R) (Act D R) (Event ι) where
  step := step
  env e s := (s.plat.apply e).map s.setPlat

end Step

/-- A new mutex, and agents that have made no call. -/
def init (plat : Platform ι) (value : D) : Config ι (Shared ι Unit D) (Local ι D R) :=
  ⟨.new plat value, fun _ => ⟨⟨.idle, ()⟩, .ready⟩⟩

variable [DecidableEq ι] {i : ι} {a : Act D R} {s s₁ : Shared ι Unit D} {l l₁ : Local ι D R}
  {p : Pc D R} {x : Call D R} {b : Body D R} {c : Config ι (Shared ι Unit D) (Local ι D R)}

/-! ### What one step can do -/

/-- What a step of a call does. -/
inductive Move (i : ι) (s : Shared ι Unit D) (l : Local ι D R) :
    Act D R → Shared ι Unit D → Local ι D R → Prop
  | call (x : Call D R) (hp : l.pc = .ready) (s₁ : Shared ι Unit D) (lmx : Mutex.Local ι Unit)
      (hs : Mutex.step i (.call (x.op (s.plat.canBlock i))) s l.mx = some (s₁, lmx)) :
      Move i s l (.call x) s₁ ⟨lmx, .locking x⟩
  /-- The acquisition goes on. -/
  | lock (x : Call D R) (hp : l.pc = .locking x) (hmx : l.mx.pc ≠ .guard) (s₁ : Shared ι Unit D)
      (lmx : Mutex.Local ι Unit) (hs : Mutex.step i .step s l.mx = some (s₁, lmx)) :
      Move i s l .step s₁ ⟨lmx, .locking x⟩
  /-- The closure is called. -/
  | run (x : Call D R) (hp : l.pc = .locking x) (hmx : l.mx.pc = .guard) :
      Move i s l .step s (l.goto (.running x x.closure))
  /-- It makes an access. -/
  | access (x : Call D R) (write : D → D) (next : D → Body D R)
      (hp : l.pc = .running x (.access write next)) (s₁ : Shared ι Unit D) (lmx : Mutex.Local ι Unit)
      (hs : Mutex.step i (.access fun y => (y.1, write y.2)) s l.mx = some (s₁, lmx)) :
      Move i s l .step s₁ ⟨lmx, .running x (next s.inner)⟩
  /-- It ends, and the guard is dropped. -/
  | ends (x : Call D R) (b : Body D R) (r : Option R) (hp : l.pc = .running x b)
      (hb : ∀ d, b.exec d = (d, r)) (s₁ : Shared ι Unit D) (lmx : Mutex.Local ι Unit)
      (hs : Mutex.step i .drop s l.mx = some (s₁, lmx)) : Move i s l .step s₁ ⟨lmx, .dropping r⟩
  | abort (x : Call D R) (hp : l.pc = .running x .panic) (hwasm : s.plat.backend = .wasm) :
      Move i s l .step s (l.goto (.aborted x))
  /-- The drop goes on. -/
  | drop (r : Option R) (hp : l.pc = .dropping r) (hmx : l.mx.pc ≠ .idle) (s₁ : Shared ι Unit D)
      (lmx : Mutex.Local ι Unit) (hs : Mutex.step i .step s l.mx = some (s₁, lmx)) :
      Move i s l .step s₁ ⟨lmx, .dropping r⟩
  | returns (r : Option R) (hp : l.pc = .dropping r) (hmx : l.mx.pc = .idle) :
      Move i s l .step s (l.goto .ready)
  | spurious (s₁ : Shared ι Unit D) (lmx : Mutex.Local ι Unit)
      (hs : Mutex.step i .spurious s l.mx = some (s₁, lmx)) : Move i s l .spurious s₁ ⟨lmx, l.pc⟩
  /-- The pending future is dropped. -/
  | cancel (x : Call D R) (hp : l.pc = .locking x) (s₁ : Shared ι Unit D) (lmx : Mutex.Local ι Unit)
      (hs : Mutex.step i .cancel s l.mx = some (s₁, lmx)) : Move i s l .cancel s₁ ⟨lmx, .ready⟩
  | consume (hp : l.pc = .ready) (s₁ : Shared ι Unit D) (lmx : Mutex.Local ι Unit)
      (hs : Mutex.step i .consume s l.mx = some (s₁, lmx)) : Move i s l .consume s₁ ⟨lmx, .ready⟩

theorem lift_eq_some {m : Mutex.Act Unit D} (h : lift i m s l p = some (s₁, l₁)) :
    ∃ lmx, Mutex.step i m s l.mx = some (s₁, lmx) ∧ l₁ = ⟨lmx, p⟩ := by
  simp only [lift, Option.map_eq_some_iff, Prod.mk.injEq] at h
  obtain ⟨⟨s₂, lmx⟩, hs, rfl, rfl⟩ := h
  exact ⟨lmx, hs, rfl⟩

theorem run_move (hp : l.pc = .running x b) (h : run i s l x b = some (s₁, l₁)) :
    Move i s l .step s₁ l₁ := by
  cases b with
  | ret r =>
    obtain ⟨lmx, hs, rfl⟩ := lift_eq_some h
    exact .ends x _ (some r) hp (fun _ => rfl) s₁ lmx hs
  | panic =>
    simp only [run] at h
    split at h
    · obtain ⟨lmx, hs, rfl⟩ := lift_eq_some h
      exact .ends x _ none hp (fun _ => rfl) s₁ lmx hs
    · cases h
      exact .abort x hp ‹_›
  | access write next =>
    obtain ⟨lmx, hs, rfl⟩ := lift_eq_some h
    exact .access x write next hp s₁ lmx hs

theorem step_move (h : step i a s l = some (s₁, l₁)) : Move i s l a s₁ l₁ := by
  cases a with
  | call x =>
    cases hp : l.pc <;> simp only [step, hp, reduceCtorEq] at h
    obtain ⟨lmx, hs, rfl⟩ := lift_eq_some h
    exact .call x hp s₁ lmx hs
  | step =>
    cases hp : l.pc with
    | ready | aborted => simp only [step, hp, reduceCtorEq] at h
    | locking x =>
      simp only [step, hp] at h
      split at h
      · cases h
        exact .run x hp ‹_›
      · obtain ⟨lmx, hs, rfl⟩ := lift_eq_some h
        exact .lock x hp ‹_› s₁ lmx hs
    | running x b =>
      simp only [step, hp] at h
      exact run_move hp h
    | dropping r =>
      simp only [step, hp] at h
      split at h
      · cases h
        exact .returns r hp ‹_›
      · obtain ⟨lmx, hs, rfl⟩ := lift_eq_some h
        exact .drop r hp ‹_› s₁ lmx hs
  | spurious =>
    simp only [step] at h
    obtain ⟨lmx, hs, rfl⟩ := lift_eq_some h
    exact .spurious s₁ lmx hs
  | cancel =>
    cases hp : l.pc <;> simp only [step, hp, reduceCtorEq] at h
    obtain ⟨lmx, hs, rfl⟩ := lift_eq_some h
    exact .cancel _ hp s₁ lmx hs
  | consume =>
    cases hp : l.pc <;> simp only [step, hp, reduceCtorEq] at h
    obtain ⟨lmx, hs, rfl⟩ := lift_eq_some h
    exact .consume hp s₁ lmx hs

/-- **The mutex under the calls.** -/
def toMutex : Projection (sys (ι := ι) (D := D) (R := R)) (Mutex.sys (ι := ι) (R := Unit) (D := D)) where
  shared s := s
  loc l := l.mx
  step h := by
    cases step_move h with
    | call x _ _ _ hs => exact .inr (.inl ⟨_, hs⟩)
    | lock _ _ _ _ _ hs | drop _ _ _ _ _ hs => exact .inr (.inl ⟨.step, hs⟩)
    | access _ _ _ _ _ _ hs => exact .inr (.inl ⟨_, hs⟩)
    | ends _ _ _ _ _ _ _ hs => exact .inr (.inl ⟨.drop, hs⟩)
    | spurious _ _ hs => exact .inr (.inl ⟨.spurious, hs⟩)
    | cancel _ _ _ _ hs => exact .inr (.inl ⟨.cancel, hs⟩)
    | consume _ _ _ hs => exact .inr (.inl ⟨.consume, hs⟩)
    | run | abort | returns => exact .inl ⟨rfl, rfl⟩
  env {e s s₁} h := .inr ⟨e, h⟩

/-! ### Where the mutex is in a call -/

/-- The control points of the two frames fit. -/
def Local.Shape (l : Local ι D R) : Prop :=
  match l.pc with
  | .ready => l.mx.pc = .idle
  | .locking _ => l.mx.pc.untimed = true ∧ l.mx.pc.quiet = false
  | .running _ _ | .aborted _ => l.mx.pc = .guard
  | .dropping _ => l.mx.pc.untimed = true ∧ l.mx.pc.quiet = true

omit [DecidableEq ι] in
theorem Call.untimed (x : Call D R) (canBlock : Bool) : (x.op canBlock).untimed = true := by
  unfold Call.op
  split
  · rfl
  · cases canBlock <;> rfl

omit [DecidableEq ι] in
theorem start_not_quiet {op : Op} (h : op.untimed = true) : (op.start : Mutex.Pc ι).quiet = false := by
  cases op with
  | tryLock => cases h
  | lockSpin d | lockWait w d => cases d <;> rfl

theorem step_inner {m : Mutex.Act Unit D} {lmx lmx₁ : Mutex.Local ι Unit} (hm : ∀ f, m ≠ .access f)
    (hs : Mutex.step i m s lmx = some (s₁, lmx₁)) : s₁.inner = s.inner := by
  cases step_data hs with
  | acquire _ _ _ _ hinner | drop _ _ _ hinner | other _ _ hinner => exact hinner
  | access f hf => exact absurd hf (hm f)

theorem Move.shape (hl : l.Shape) (hm : Move i s l a s₁ l₁) : l₁.Shape := by
  cases hm with
  | call x hp s₁ lmx hs =>
    have hx := x.untimed (s.plat.canBlock i)
    rw [Local.Shape, hp] at hl
    simp only [Mutex.step, hl] at hs
    cases hs
    exact ⟨Op.untimed_start hx, start_not_quiet hx⟩
  | lock x hp hmx s₁ lmx hs =>
    rw [Local.Shape, hp] at hl
    obtain ⟨hun, hquiet⟩ := goes_on_untimed hl.1 (.inl rfl) hs
    refine ⟨hun, ?_⟩
    by_contra hq
    rw [hl.2] at hquiet
    cases hquiet (Bool.eq_true_of_not_eq_false hq)
  | run x hp hmx => exact hmx
  | access x write next hp s₁ lmx hs =>
    rw [Local.Shape, hp] at hl
    simp only [Mutex.step, hl] at hs
    cases hs
    rfl
  | ends x b r hp hb s₁ lmx hs =>
    rw [Local.Shape, hp] at hl
    simp only [Mutex.step, hl] at hs
    cases hs
    exact ⟨rfl, rfl⟩
  | abort x hp _ =>
    rw [Local.Shape, hp] at hl
    exact hl
  | drop r hp hmx s₁ lmx hs =>
    rw [Local.Shape, hp] at hl
    exact ⟨(goes_on_untimed hl.1 (.inl rfl) hs).1, step_quiet hs (by rintro _ ⟨⟩) hl.2⟩
  | returns r hp hmx => exact hmx
  | spurious s₁ lmx hs =>
    cases hp : l.pc with
    | ready | running | aborted =>
      rw [Local.Shape, hp] at hl
      simp only [Mutex.step, hl, reduceCtorEq] at hs
    | locking x =>
      rw [Local.Shape, hp] at hl
      obtain ⟨hun, hquiet⟩ := goes_on_untimed hl.1 (.inr rfl) hs
      refine ⟨hun, ?_⟩
      by_contra hq
      rw [hl.2] at hquiet
      cases hquiet (Bool.eq_true_of_not_eq_false hq)
    | dropping r =>
      rw [Local.Shape, hp] at hl
      exact ⟨(goes_on_untimed hl.1 (.inr rfl) hs).1, step_quiet hs (by rintro _ ⟨⟩) hl.2⟩
  | cancel x hp s₁ lmx hs =>
    rw [Local.Shape]
    cases hmx : l.mx.pc <;> simp only [Mutex.step, hmx, reduceCtorEq] at hs <;> cases hs <;> rfl
  | consume hp s₁ lmx hs =>
    rw [Local.Shape, hp] at hl
    simp only [Mutex.step, hl] at hs
    cases hs
    exact hl

variable {plat : Platform ι} {value : D}

theorem shape (h : sys.Reachable (init plat value) c) (i : ι) : (c.loc i).Shape := by
  revert i
  refine h.invariant (I := fun c => ∀ i, (c.loc i).Shape) (fun _ => rfl) ?_ fun _ _ _ _ ih _ _ => ih
  intro c i a s l _ ih _ hs j
  by_cases hj : j = i
  · subst hj
    rw [Config.set_loc_self]
    exact (step_move hs).shape (ih j)
  · rw [Config.set_loc_of_ne hj]
    exact ih j

theorem mutex_reachable (h : sys.Reachable (init plat value) c) :
    Mutex.sys.Reachable (Mutex.init plat value fun _ => ()) (toMutex.config c) :=
  toMutex.reachable h

/-! ### A closure runs as if alone -/

/-- Where an agent is with its call. -/
def Pc.phase : Pc D R → Phase (Body D R) (Option R)
  | .ready => .idle
  | .locking x | .running x _ | .aborted x => .called x.closure
  | .dropping r => .done r

/-- The closure has begun, and has not ended. -/
def Pc.inside : Pc D R → Bool
  | .running _ _ | .aborted _ => true
  | _ => false

/-- What is seen when agent `i` performs `a`. -/
def occurs (i : ι) (a : Act D R) (_ : Shared ι Unit D) (l : Local ι D R) :
    List (Occurrence ι (Body D R) (Option R)) :=
  match a, l.pc with
  | .call x, _ => [.call i x.closure]
  | .step, .dropping r => if l.mx.pc = .idle then [.ret i r] else []
  | .cancel, _ => [.abort i]
  | _, _ => []

/-- The value, when the closure that runs has not begun: it is ahead of it by the accesses so far. -/
structure Seen (c : Config ι (Shared ι Unit D) (Local ι D R)) (d : D) : Prop where
  closure : ∀ i x b, (c.loc i).pc = .running x b → b.exec c.shared.inner = x.closure.exec d
  value : (∀ i, (c.loc i).pc.inside = false) → c.shared.inner = d

theorem guard_of_inside (h : sys.Reachable (init plat value) c) (hi : (c.loc i).pc.inside = true) :
    (c.loc i).mx.pc = .guard := by
  have hl := shape h i
  cases hp : (c.loc i).pc with
  | running | aborted => rwa [Local.Shape, hp] at hl
  | _ => rw [hp] at hi; cases hi

theorem inside_unique (h : sys.Reachable (init plat value) c) (hi : (c.loc i).mx.pc = .guard) {j : ι}
    (hj : j ≠ i) : (c.loc j).pc.inside = false := by
  by_contra hin
  have hg := guard_of_inside h (Bool.eq_true_of_not_eq_false hin)
  refine hj ((owned (mutex_reachable h)).unique j i ?_ ?_)
  · show (c.loc j).mx.pc.hasGuard = true
    rw [hg]
    rfl
  · show (c.loc i).mx.pc.hasGuard = true
    rw [hi]
    rfl

/-- An agent that stays outside, or inside as it was. -/
theorem Seen.same {d : D} (h : Seen c d) (hinner : s.inner = c.shared.inner)
    (hp : l.pc = (c.loc i).pc ∨ l.pc.inside = false ∧ (c.loc i).pc.inside = false) :
    Seen (c.set i s l) d := by
  have hin : ∀ j, ((c.set i s l).loc j).pc.inside = (c.loc j).pc.inside :=
    Config.set_loc_congr (f := fun l : Local ι D R => l.pc.inside) <| by
      rcases hp with hp | ⟨hl, hi⟩
      · rw [hp]
      · rw [hl, hi]
  refine ⟨fun j x b hj => ?_, fun hno => ?_⟩
  · rw [Config.set_shared, hinner]
    by_cases hji : j = i
    · subst hji
      rw [Config.set_loc_self] at hj
      rcases hp with hp | ⟨hl, -⟩
      · exact h.closure j x b (by rw [← hp]; exact hj)
      · rw [hj] at hl
        cases hl
    · rw [Config.set_loc_of_ne hji] at hj
      exact h.closure j x b hj
  · rw [Config.set_shared, hinner]
    exact h.value fun j => by rw [← hin j]; exact hno j

theorem Seen.alone {d : D} (hothers : ∀ j, j ≠ i → (c.loc j).pc.inside = false)
    (hclosure : ∀ x b, l.pc = .running x b → b.exec s.inner = x.closure.exec d)
    (hvalue : l.pc.inside = false → s.inner = d) : Seen (c.set i s l) d := by
  refine ⟨fun j x b hj => ?_, fun hno => ?_⟩
  · by_cases hji : j = i
    · subst hji
      rw [Config.set_loc_self] at hj
      exact hclosure x b hj
    · rw [Config.set_loc_of_ne hji] at hj
      have hin := hothers j hji
      rw [hj] at hin
      cases hin
  · refine hvalue ?_
    have hself := hno i
    rwa [Config.set_loc_self] at hself

theorem Move.turn {d : D} (hc : sys.Reachable (init plat value) c) (h : Seen c d)
    (hm : Move i c.shared (c.loc i) a s l) :
    ∃ d', Seen (c.set i s l) d' ∧
      applied.Turn i d (c.loc i).pc.phase (occurs i a c.shared (c.loc i)) d' l.pc.phase := by
  have hlone : (c.loc i).mx.pc = .guard → ∀ j, j ≠ i → (c.loc j).pc.inside = false :=
    fun hg j hj => inside_unique hc hg hj
  have hguard := guard_of_inside (i := i) hc
  cases hm with
  | call x hp s lmx hs =>
    refine ⟨d, h.same (step_inner (by rintro _ ⟨⟩) hs) (.inr ⟨rfl, by rw [hp]; rfl⟩), ?_⟩
    rw [hp]
    exact .calls
  | lock x hp hmx s lmx hs =>
    refine ⟨d, h.same (step_inner (by rintro _ ⟨⟩) hs) (.inl hp.symm), ?_⟩
    simp only [occurs, hp]
    exact .stay
  | run x hp hmx =>
    have hvalue : c.shared.inner = d := h.value fun j => by
      by_cases hj : j = i
      · subst hj
        rw [hp]
        rfl
      · exact hlone hmx j hj
    refine ⟨d, .alone (hlone hmx) (fun y b hy => ?_) (by rintro ⟨⟩), ?_⟩
    · cases hy
      rw [hvalue]
    · simp only [occurs, hp]
      exact .stay
  | access x write next hp s lmx hs =>
    have hg := hguard (by rw [hp]; rfl)
    have hclosure := h.closure i x _ hp
    refine ⟨d, .alone (hlone hg) (fun y b hy => ?_) (by rintro ⟨⟩), ?_⟩
    · cases hy
      simp only [Mutex.step, hg] at hs
      cases hs
      exact hclosure
    · simp only [occurs, hp]
      exact .stay
  | ends x b r hp hb s lmx hs =>
    have hclosure := h.closure i x b hp
    rw [hb] at hclosure
    refine ⟨c.shared.inner, .alone (hlone (hguard (by rw [hp]; rfl))) (by rintro y b ⟨⟩)
      fun _ => step_inner (by rintro _ ⟨⟩) hs, ?_⟩
    simp only [occurs, hp]
    exact .commits hclosure.symm
  | abort x hp _ =>
    refine ⟨d, .alone (hlone (hguard (by rw [hp]; rfl))) (by rintro y b ⟨⟩) (by rintro ⟨⟩), ?_⟩
    simp only [occurs, hp]
    exact .stay
  | drop r hp hmx s lmx hs =>
    refine ⟨d, h.same (step_inner (by rintro _ ⟨⟩) hs) (.inl hp.symm), ?_⟩
    simp only [occurs, hp, hmx, if_false]
    exact .stay
  | returns r hp hmx =>
    refine ⟨d, h.same rfl (.inr ⟨rfl, by rw [hp]; rfl⟩), ?_⟩
    simp only [occurs, hp, hmx, if_true]
    exact .returns
  | spurious s lmx hs => exact ⟨d, h.same (step_inner (by rintro _ ⟨⟩) hs) (.inl rfl), .stay⟩
  | cancel x hp s lmx hs =>
    refine ⟨d, h.same (step_inner (by rintro _ ⟨⟩) hs) (.inr ⟨rfl, by rw [hp]; rfl⟩), ?_⟩
    rw [hp]
    exact .aborts
  | consume hp s lmx hs =>
    refine ⟨d, h.same (step_inner (by rintro _ ⟨⟩) hs) (.inl hp.symm), ?_⟩
    simp only [occurs, hp]
    exact .stay

/-- The calls are the object. -/
def simulation (plat : Platform ι) (value : D) :
    PhaseMap (sys (ι := ι) (D := D) (R := R)) (init plat value) applied value occurs where
  phase l := l.pc.phase
  Rel := Seen
  init := ⟨by rintro i x b ⟨⟩, fun _ => rfl⟩
  idle _ := rfl
  agent hc hx hs := (step_move hs).turn hc hx
  env _ hx hs := by
    obtain ⟨p, -, rfl⟩ := env_data hs
    exact ⟨hx.closure, hx.value⟩

/-- **A closure runs as if alone.**  In every run of calls of the four functions the closures take effect
one after the other, each as a whole, between its call and its return: each sees the value that the one
before it left, also one that has panicked, and returns what it returns without interruption.  A future
that is dropped while it waits for the lock has not run its closure. -/
theorem linearizable_closure {h : List (Occurrence ι (Body D R) (Option R))}
    (H : sys.History (visible occurs) [] (init plat value) h c) : applied.Linearizable value h :=
  (simulation plat value).simulation.linearizable H

/-- A closure that adds 2, in two accesses, and returns what it found. -/
def addTwo : Body ℕ ℕ := .access (· + 1) fun d => .access (· + 1) fun _ => .ret d

/-- One that adds 5 and panics. -/
def addFive : Body ℕ ℕ := .access (· + 5) fun _ => .panic

/-- An agent whose closure panics, one that adds 2 after it, and one that reads the value then. -/
theorem linearizable_closure_panics :
    ∃ (h : List (Occurrence (Fin 3) (Body ℕ ℕ) (Option ℕ)))
      (c : Config (Fin 3) (Shared (Fin 3) Unit ℕ) (Local (Fin 3) ℕ ℕ)),
      sys.History (visible occurs) [] (init (.new .native) 0) h c ∧ results 0 h = [none] ∧
      results 1 h = [some 5] ∧ results 2 h = [some 7] ∧ applied.Linearizable 0 h := by
  obtain ⟨h, c, H, hend⟩ := System.exists_note_of_along (M := sys) (P := fun _ _ _ => True)
    (h := []) (c := init (ι := Fin 3) (R := ℕ) (.new .native) 0) (visible occurs)
    (p := fun h _ => decide (results 0 h = [none] ∧ results 1 h = [some 5] ∧ results 2 h = [some 7]))
    ([.agent 0 (.call (withMutSync addFive)), .agent 1 (.call (withMutSync addTwo)),
        .agent 2 (.call (withAsync addTwo))] ++ List.replicate 10 (.agent 0 .step) ++
      List.replicate 6 (.agent 1 .step) ++ List.replicate 4 (.agent 2 .step) ++
      List.replicate 6 (.agent 1 .step) ++ List.replicate 12 (.agent 2 .step)) (by decide) (by decide)
  rw [decide_eq_true_eq] at hend
  exact ⟨h, c, H, hend.1, hend.2.1, hend.2.2, linearizable_closure H⟩

end With

end Mutex

end WasmSafeThread
