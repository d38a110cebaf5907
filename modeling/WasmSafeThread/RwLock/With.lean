import WasmSafeThread.Agents.Closure
import WasmSafeThread.RwLock.Linearizable

/-!
# Closures under the reader-writer lock

`with_sync` and `with_async` (`rwlock/read.rs`) call the closure under a `ReadGuard`, `with_mut_sync` and
`with_mut_async` (`rwlock/write.rs`) under a `WriteGuard`.  The closures of readers run side by side.

* `step`, `sys` : the calls over `RwLock.sys`.
* `toRwLock` : a run of the calls is a run of the lock.
* `linearizable_with` : **a closure runs as if alone**, beside other readers too.
-/

namespace WasmSafeThread

namespace RwLock

namespace With

variable {ι D R : Type*}

/-- A call of one of the four functions. -/
structure Call (D R : Type*) where
  mode : Mode
  /-- The lock is that of `lock_async_read` or `lock_async_write`. -/
  async : Bool
  /-- What the closure does. -/
  closure : Body D R
  /-- Under a `ReadGuard` the closure has a shared reference. -/
  shared : mode = .read → closure.ReadOnly

/-- `with_sync`. -/
def withSync (f : Body D R) : Call D R := ⟨.read, false, f.frozen, fun _ => f.readOnly_frozen⟩

/-- `with_async`. -/
def withAsync (f : Body D R) : Call D R := ⟨.read, true, f.frozen, fun _ => f.readOnly_frozen⟩

/-- `with_mut_sync`. -/
def withMutSync (f : Body D R) : Call D R := ⟨.write, false, f, by rintro ⟨⟩⟩

/-- `with_mut_async`. -/
def withMutAsync (f : Body D R) : Call D R := ⟨.write, true, f, by rintro ⟨⟩⟩

/-- The acquisition that the call begins with. -/
def Call.op (x : Call D R) (canBlock : Bool) : Op :=
  if x.async then .lockAsync x.mode else .lockSync x.mode canBlock

/-- The control points of a call. -/
inductive Pc (D R : Type*) where
  /-- No call. -/
  | ready
  /-- In the acquisition. -/
  | locking (x : Call D R)
  /-- In the closure, of which `b` is left. -/
  | running (x : Call D R) (b : Body D R)
  /-- In the drop of the guard, before the return, or on the way out with a panic. -/
  | dropping (r : Option R)
  /-- Wasm: the closure has panicked. -/
  | aborted (x : Call D R)

/-- The local state of an agent: its call over the frame of the lock. -/
structure Local (ι D R : Type*) where
  rw : RwLock.Local ι Unit
  pc : Pc D R

/-- The operations of an agent. -/
inductive Act (D R : Type*) where
  /-- Call one of the four functions. -/
  | call (x : Call D R)
  /-- The next operation of the call in progress. -/
  | step
  /-- `compare_exchange_weak` fails although the value has not changed, or a park returns without a
  token. -/
  | spurious
  /-- The pending future is dropped. -/
  | cancel
  /-- The token is consumed by a `park` that is not the lock's. -/
  | consume

namespace Local

/-- Move to control point `p`. -/
def goto (l : Local ι D R) (p : Pc D R) : Local ι D R := { l with pc := p }

@[simp] theorem goto_pc (l : Local ι D R) (p : Pc D R) : (l.goto p).pc = p := rfl
@[simp] theorem goto_rw (l : Local ι D R) (p : Pc D R) : (l.goto p).rw = l.rw := rfl

end Local

/-- An access of a closure that has the lock for `m`. -/
def access (write : D → D) : Mode → RwLock.Act Unit D
  | .read => .read fun r _ => r
  | .write => .write fun y => (y.1, write y.2)

section Step

variable [DecidableEq ι]

/-- An operation on the lock, after which the call is at `p`. -/
def lift (i : ι) (a : RwLock.Act Unit D) (s : Shared ι D) (l : Local ι D R) (p : Pc D R) :
    Option (Shared ι D × Local ι D R) :=
  (RwLock.step i a s l.rw).map fun r => (r.1, ⟨r.2, p⟩)

/-- The next operation of a closure. -/
def run (i : ι) (s : Shared ι D) (l : Local ι D R) (x : Call D R) :
    Body D R → Option (Shared ι D × Local ι D R)
  | .ret r => lift i .drop s l (.dropping (some r))
  | .panic =>
    match s.plat.backend with
    | .native => lift i .drop s l (.dropping none)
    | .wasm => some (s, l.goto (.aborted x))
  | .access write next => lift i (access write x.mode) s l (.running x (next s.inner))

/-- One operation of agent `i`. -/
def step (i : ι) (a : Act D R) (s : Shared ι D) (l : Local ι D R) :
    Option (Shared ι D × Local ι D R) :=
  match a, l.pc with
  | .call x, .ready => lift i (.call (x.op (s.plat.canBlock i))) s l (.locking x)
  | .step, .locking x =>
    if l.rw.pc = .guard x.mode then some (s, l.goto (.running x x.closure))
    else lift i .step s l (.locking x)
  | .step, .running x b => run i s l x b
  | .step, .dropping r =>
    if l.rw.pc = .idle then some (s, l.goto .ready) else lift i .step s l (.dropping r)
  | .spurious, p => lift i .spurious s l p
  | .cancel, .locking _ => lift i .cancel s l .ready
  | .consume, .ready => lift i .consume s l .ready
  | _, _ => none

/-- The calls as a system. -/
def sys : System ι (Shared ι D) (Local ι D R) (Act D R) (Event ι) where
  step := step
  env e s := (s.plat.apply e).map s.setPlat

end Step

/-- A new lock, and agents that have made no call. -/
def init (plat : Platform ι) (value : D) : Config ι (Shared ι D) (Local ι D R) :=
  ⟨.new plat value, fun _ => ⟨⟨.idle, ()⟩, .ready⟩⟩

/-! ### Where the lock is in a call -/

/-- In an acquisition for `m`, that of a guard that the agent already has included. -/
def acquires (m : Mode) : RwLock.Pc ι → Bool
  | .attempt m' k => decide (m' = m) && decide (k ≠ .user)
  | .exchange _ k => decide (m = .read) && decide (k ≠ .user)
  | .tooManyReaders _ => decide (m = .read)
  | .enter m' _ | .push m' _ | .leaveOk m' _ | .leaveErr m' _ | .park m' | .await m' _ | .guard m' =>
    decide (m' = m)
  | _ => false

/-- In a drop, or after it. -/
def quits : RwLock.Pc ι → Bool
  | .idle | .didUnlockRead .. | .didUnlockWrite .. | .assertFailed => true
  | _ => false

variable [DecidableEq ι] {i : ι} {a : Act D R} {s s₁ : Shared ι D} {l l₁ : Local ι D R}
  {p : Pc D R} {x : Call D R} {b : Body D R} {m : Mode} {lrw lrw₁ : RwLock.Local ι Unit}
  {c : Config ι (Shared ι D) (Local ι D R)}

omit [DecidableEq ι] in
theorem Call.acquires_start (x : Call D R) (canBlock : Bool) :
    acquires x.mode ((x.op canBlock).start : RwLock.Pc ι) = true := by
  unfold Call.op
  split
  · simp [acquires, Op.lockAsync, Op.start]
  · cases canBlock <;> simp [acquires, Op.lockSync, Op.lockBlock, Op.start]

omit [DecidableEq ι] in
theorem acquires_next {f : BitVec 8} {k : Caller} (hk : k ≠ .user) :
    acquires .read ((readClosure f).next k : RwLock.Pc ι) = true := by
  cases readClosure f with
  | refuse => cases k <;> first | rfl | exact absurd rfl hk
  | tooManyReaders => rfl
  | add f => simpa [Verdict.next, acquires] using hk

omit [DecidableEq ι] in
theorem acquires_ok {k : Caller} (hk : k ≠ .user) :
    acquires m (k.ok m : RwLock.Pc ι) = true ∧ acquires m (k.err m : RwLock.Pc ι) = true := by
  cases k with
  | user => exact absurd rfl hk
  | spin | sect w => simp [acquires, Caller.ok, Caller.err]

/-- An acquisition goes on. -/
theorem acquires_advance (hl : acquires m lrw.pc = true) (hs : advance i s lrw = some (s₁, lrw₁)) :
    acquires m lrw₁.pc = true := by
  cases hp : lrw.pc with
  | idle | failed | guard | tooManyReaders | assertFailed => simp [advance, hp] at hs
  | attempt m' k =>
    simp only [hp, acquires, Bool.and_eq_true, decide_eq_true_eq] at hl
    obtain ⟨rfl, hk⟩ := hl
    cases m' with
    | read =>
      simp only [advance, hp] at hs
      cases hs
      exact acquires_next hk
    | write =>
      simp only [advance, hp] at hs
      split at hs <;> cases hs
      · exact (acquires_ok hk).1
      · exact (acquires_ok hk).2
  | exchange f k =>
    simp only [hp, acquires, Bool.and_eq_true, decide_eq_true_eq] at hl
    obtain ⟨rfl, hk⟩ := hl
    simp only [advance, hp] at hs
    split at hs <;> cases hs
    · exact (acquires_ok hk).1
    · exact acquires_next hk
  | enter m' w =>
    simp only [advance, hp] at hs
    split at hs <;> cases hs
    simpa [hp, acquires] using hl
  | park m' | await m' n =>
    simp only [advance, hp] at hs
    split at hs <;> cases hs
    simpa [hp, acquires] using hl
  | push m' w | leaveOk m' w =>
    simp only [advance, hp] at hs
    cases hs
    simpa [hp, acquires] using hl
  | leaveErr m' slot =>
    simp only [advance, hp] at hs
    cases hs
    cases slot <;> simpa [hp, acquires, suspend] using hl
  | didUnlockRead | didUnlockWrite => rw [hp] at hl; cases hl

theorem quits_advance (hl : quits lrw.pc = true) (hs : advance i s lrw = some (s₁, lrw₁)) :
    quits lrw₁.pc = true := by
  cases hp : lrw.pc with
  | idle | assertFailed => simp [advance, hp] at hs
  | didUnlockRead q pending rest | didUnlockWrite q pending rest =>
    rcases pending with _ | ⟨x, pending⟩
    · rcases rest with _ | ⟨q', rest⟩ <;> simp only [advance, hp] at hs
      · cases hs
        rfl
      · split at hs <;> cases hs
        rfl
    · simp only [advance, hp] at hs
      cases hs
      rfl
  | _ => rw [hp] at hl; cases hl

/-! ### What one step can do -/

/-- What a step of a call does. -/
inductive Move (i : ι) (s : Shared ι D) (l : Local ι D R) :
    Act D R → Shared ι D → Local ι D R → Prop
  | call (x : Call D R) (hp : l.pc = .ready) (s₁ : Shared ι D) (lrw : RwLock.Local ι Unit)
      (hs : RwLock.step i (.call (x.op (s.plat.canBlock i))) s l.rw = some (s₁, lrw)) :
      Move i s l (.call x) s₁ ⟨lrw, .locking x⟩
  /-- The acquisition goes on. -/
  | lock (x : Call D R) (hp : l.pc = .locking x) (hrw : l.rw.pc ≠ .guard x.mode) (s₁ : Shared ι D)
      (lrw : RwLock.Local ι Unit) (hs : RwLock.step i .step s l.rw = some (s₁, lrw)) :
      Move i s l .step s₁ ⟨lrw, .locking x⟩
  /-- The closure is called. -/
  | run (x : Call D R) (hp : l.pc = .locking x) (hrw : l.rw.pc = .guard x.mode) :
      Move i s l .step s (l.goto (.running x x.closure))
  /-- It makes an access. -/
  | access (x : Call D R) (write : D → D) (next : D → Body D R)
      (hp : l.pc = .running x (.access write next)) (s₁ : Shared ι D) (lrw : RwLock.Local ι Unit)
      (hs : RwLock.step i (access write x.mode) s l.rw = some (s₁, lrw)) :
      Move i s l .step s₁ ⟨lrw, .running x (next s.inner)⟩
  /-- It ends, and the guard is dropped. -/
  | ends (x : Call D R) (b : Body D R) (r : Option R) (hp : l.pc = .running x b)
      (hb : ∀ d, b.exec d = (d, r)) (s₁ : Shared ι D) (lrw : RwLock.Local ι Unit)
      (hs : RwLock.step i .drop s l.rw = some (s₁, lrw)) : Move i s l .step s₁ ⟨lrw, .dropping r⟩
  | abort (x : Call D R) (hp : l.pc = .running x .panic) (hwasm : s.plat.backend = .wasm) :
      Move i s l .step s (l.goto (.aborted x))
  /-- The drop goes on. -/
  | drop (r : Option R) (hp : l.pc = .dropping r) (hrw : l.rw.pc ≠ .idle) (s₁ : Shared ι D)
      (lrw : RwLock.Local ι Unit) (hs : RwLock.step i .step s l.rw = some (s₁, lrw)) :
      Move i s l .step s₁ ⟨lrw, .dropping r⟩
  | returns (r : Option R) (hp : l.pc = .dropping r) (hrw : l.rw.pc = .idle) :
      Move i s l .step s (l.goto .ready)
  | spurious (s₁ : Shared ι D) (lrw : RwLock.Local ι Unit)
      (hs : RwLock.step i .spurious s l.rw = some (s₁, lrw)) : Move i s l .spurious s₁ ⟨lrw, l.pc⟩
  /-- The pending future is dropped. -/
  | cancel (x : Call D R) (hp : l.pc = .locking x) (s₁ : Shared ι D) (lrw : RwLock.Local ι Unit)
      (hs : RwLock.step i .cancel s l.rw = some (s₁, lrw)) : Move i s l .cancel s₁ ⟨lrw, .ready⟩
  | consume (hp : l.pc = .ready) (s₁ : Shared ι D) (lrw : RwLock.Local ι Unit)
      (hs : RwLock.step i .consume s l.rw = some (s₁, lrw)) : Move i s l .consume s₁ ⟨lrw, .ready⟩

theorem lift_eq_some {m : RwLock.Act Unit D} (h : lift i m s l p = some (s₁, l₁)) :
    ∃ lrw, RwLock.step i m s l.rw = some (s₁, lrw) ∧ l₁ = ⟨lrw, p⟩ := by
  simp only [lift, Option.map_eq_some_iff, Prod.mk.injEq] at h
  obtain ⟨⟨s₂, lrw⟩, hs, rfl, rfl⟩ := h
  exact ⟨lrw, hs, rfl⟩

theorem run_move (hp : l.pc = .running x b) (h : run i s l x b = some (s₁, l₁)) :
    Move i s l .step s₁ l₁ := by
  cases b with
  | ret r =>
    obtain ⟨lrw, hs, rfl⟩ := lift_eq_some h
    exact .ends x _ (some r) hp (fun _ => rfl) s₁ lrw hs
  | panic =>
    simp only [run] at h
    split at h
    · obtain ⟨lrw, hs, rfl⟩ := lift_eq_some h
      exact .ends x _ none hp (fun _ => rfl) s₁ lrw hs
    · cases h
      exact .abort x hp ‹_›
  | access write next =>
    obtain ⟨lrw, hs, rfl⟩ := lift_eq_some h
    exact .access x write next hp s₁ lrw hs

theorem step_move (h : step i a s l = some (s₁, l₁)) : Move i s l a s₁ l₁ := by
  cases a with
  | call x =>
    cases hp : l.pc <;> simp only [step, hp, reduceCtorEq] at h
    obtain ⟨lrw, hs, rfl⟩ := lift_eq_some h
    exact .call x hp s₁ lrw hs
  | step =>
    cases hp : l.pc with
    | ready | aborted => simp only [step, hp, reduceCtorEq] at h
    | locking x =>
      simp only [step, hp] at h
      split at h
      · cases h
        exact .run x hp ‹_›
      · obtain ⟨lrw, hs, rfl⟩ := lift_eq_some h
        exact .lock x hp ‹_› s₁ lrw hs
    | running x b =>
      simp only [step, hp] at h
      exact run_move hp h
    | dropping r =>
      simp only [step, hp] at h
      split at h
      · cases h
        exact .returns r hp ‹_›
      · obtain ⟨lrw, hs, rfl⟩ := lift_eq_some h
        exact .drop r hp ‹_› s₁ lrw hs
  | spurious =>
    simp only [step] at h
    obtain ⟨lrw, hs, rfl⟩ := lift_eq_some h
    exact .spurious s₁ lrw hs
  | cancel =>
    cases hp : l.pc <;> simp only [step, hp, reduceCtorEq] at h
    obtain ⟨lrw, hs, rfl⟩ := lift_eq_some h
    exact .cancel _ hp s₁ lrw hs
  | consume =>
    cases hp : l.pc <;> simp only [step, hp, reduceCtorEq] at h
    obtain ⟨lrw, hs, rfl⟩ := lift_eq_some h
    exact .consume hp s₁ lrw hs

/-- **The lock under the calls.** -/
def toRwLock : Projection (sys (ι := ι) (D := D) (R := R)) (RwLock.sys (ι := ι) (R := Unit) (D := D)) where
  shared s := s
  loc l := l.rw
  step h := by
    cases step_move h with
    | call x _ _ _ hs => exact .inr (.inl ⟨_, hs⟩)
    | lock _ _ _ _ _ hs | drop _ _ _ _ _ hs => exact .inr (.inl ⟨.step, hs⟩)
    | access _ _ _ _ _ _ hs => exact .inr (.inl ⟨_, hs⟩)
    | ends _ _ _ _ _ _ _ hs => exact .inr (.inl ⟨.drop, hs⟩)
    | spurious _ _ hs => exact .inr (.inl ⟨.spurious, hs⟩)
    | cancel _ _ _ _ hs => exact .inr (.inl ⟨.cancel, hs⟩)
    | consume _ _ _ hs => exact .inr (.inl ⟨.consume, hs⟩)
    | run | abort | returns => exact .inl ⟨rfl, rfl⟩
  env {e s s₁} h := .inr ⟨e, h⟩

/-! ### The two frames -/

/-- The control points of the two frames fit. -/
def Local.Shape (l : Local ι D R) : Prop :=
  match l.pc with
  | .ready => l.rw.pc = .idle
  | .locking x => acquires x.mode l.rw.pc = true
  | .running x b => l.rw.pc = .guard x.mode ∧ (x.mode = .read → b.ReadOnly)
  | .aborted x => l.rw.pc = .guard x.mode
  | .dropping _ => quits l.rw.pc = true

theorem step_inner {m : RwLock.Act Unit D} (hm : ∀ f, m ≠ .write f)
    (hs : RwLock.step i m s lrw = some (s₁, lrw₁)) : s₁.inner = s.inner := by
  cases step_data hs with
  | acquireRead _ _ _ _ _ _ h | acquireWrite _ _ _ _ h | dropRead _ _ _ h | dropWrite _ _ _ h
  | other _ _ h _ => exact h
  | write hl _ _ =>
    cases m with
    | write f => exact absurd rfl (hm f)
    | drop | consume =>
      simp only [RwLock.step, hl, Pc.atRest, if_true] at hs
      cases hs
      rfl
    | _ => simp [RwLock.step, advance, hl] at hs

theorem step_access {write : D → D} (hl : lrw.pc = .guard m)
    (hs : RwLock.step i (access write m) s lrw = some (s₁, lrw₁)) :
    lrw₁.pc = .guard m ∧ s₁.inner = if m = .write then write s.inner else s.inner := by
  cases m <;> simp only [access, RwLock.step, hl] at hs <;> cases hs <;> exact ⟨rfl, rfl⟩

theorem step_drop (hl : lrw.pc = .guard m) (hs : RwLock.step i .drop s lrw = some (s₁, lrw₁)) :
    quits lrw₁.pc = true ∧ s₁.inner = s.inner := by
  cases m <;> simp only [RwLock.step, hl] at hs <;> cases hs <;> refine ⟨?_, rfl⟩ <;>
    rw [RwLock.Local.goto_pc] <;> split <;> rfl

theorem acquires_spurious (hs : RwLock.step i .spurious s lrw = some (s₁, lrw₁)) :
    quits lrw.pc = false ∧ lrw.pc ≠ .guard m ∧ s₁ = s ∧
      (acquires m lrw.pc = true → acquires m lrw₁.pc = true) := by
  cases hp : lrw.pc <;> simp only [RwLock.step, hp, reduceCtorEq] at hs
  case exchange f k =>
    cases hs
    refine ⟨rfl, by rintro ⟨⟩, rfl, fun hl => ?_⟩
    simp only [acquires, Bool.and_eq_true, decide_eq_true_eq] at hl
    obtain ⟨rfl, hk⟩ := hl
    exact acquires_next hk
  case park m' =>
    cases hs
    exact ⟨rfl, by rintro ⟨⟩, rfl, id⟩

theorem Move.shape (hl : l.Shape) (hm : Move i s l a s₁ l₁) : l₁.Shape := by
  cases hm with
  | call x hp s₁ lrw hs =>
    rw [Local.Shape, hp] at hl
    simp only [RwLock.step, hl] at hs
    cases hs
    exact x.acquires_start _
  | lock x hp hrw s₁ lrw hs =>
    rw [Local.Shape, hp] at hl
    exact acquires_advance hl hs
  | run x hp hrw => exact ⟨hrw, x.shared⟩
  | access x write next hp s₁ lrw hs =>
    rw [Local.Shape, hp] at hl
    exact ⟨(step_access hl.1 hs).1, fun hx => (hl.2 hx).2 _⟩
  | ends x b r hp hb s₁ lrw hs =>
    rw [Local.Shape, hp] at hl
    exact (step_drop hl.1 hs).1
  | abort x hp _ =>
    rw [Local.Shape, hp] at hl
    exact hl.1
  | drop r hp hrw s₁ lrw hs =>
    rw [Local.Shape, hp] at hl
    exact quits_advance hl hs
  | returns r hp hrw => exact hrw
  | spurious s₁ lrw hs =>
    cases hp : l.pc with
    | ready | dropping =>
      obtain ⟨hno, -⟩ := acquires_spurious (m := .read) hs
      rw [Local.Shape, hp] at hl
      simp_all [quits]
    | running x b =>
      obtain ⟨-, hno, -⟩ := acquires_spurious (m := x.mode) hs
      rw [Local.Shape, hp] at hl
      exact absurd hl.1 hno
    | aborted x =>
      obtain ⟨-, hno, -⟩ := acquires_spurious (m := x.mode) hs
      rw [Local.Shape, hp] at hl
      exact absurd hl hno
    | locking x =>
      obtain ⟨-, -, -, hgo⟩ := acquires_spurious (m := x.mode) hs
      rw [Local.Shape, hp] at hl
      exact hgo hl
  | cancel x hp s₁ lrw hs =>
    cases hrw : l.rw.pc <;> simp only [RwLock.step, hrw, reduceCtorEq] at hs
    case await m n =>
      cases hs
      rfl
  | consume hp s₁ lrw hs =>
    rw [Local.Shape, hp] at hl
    simp only [RwLock.step, hl, Pc.atRest, if_true] at hs
    cases hs
    exact hl

variable {plat : Platform ι} {value : D}

theorem shape (h : sys.Reachable (init plat value) c) (i : ι) : (c.loc i).Shape := by
  revert i
  refine h.invariant (I := fun c => ∀ i, (c.loc i).Shape) (fun _ => rfl) ?_ fun _ _ _ _ ih _ _ => ih
  intro c i a s l _ ih _ hs j
  by_cases hj : j = i
  · subst hj
    rw [Config.set_loc_self]
    exact (step_move hs).shape (ih j)
  · rw [Config.set_loc_of_ne hj]
    exact ih j

theorem rwLock_reachable (h : sys.Reachable (init plat value) c) :
    RwLock.sys.Reachable (RwLock.init plat value fun _ => ()) (toRwLock.config c) :=
  toRwLock.reachable h

/-! ### A closure runs as if alone -/

/-- Where an agent is with its call. -/
def Pc.phase : Pc D R → Phase (Body D R) (Option R)
  | .ready => .idle
  | .locking x | .running x _ | .aborted x => .called x.closure
  | .dropping r => .done r

/-- The closure has begun, and has not ended; what it has the lock for. -/
def Pc.inside : Pc D R → Option Mode
  | .running x _ | .aborted x => some x.mode
  | _ => none

/-- What is seen when agent `i` performs `a`. -/
def occurs (i : ι) (a : Act D R) (_ : Shared ι D) (l : Local ι D R) :
    List (Occurrence ι (Body D R) (Option R)) :=
  match a, l.pc with
  | .call x, _ => [.call i x.closure]
  | .step, .dropping r => if l.rw.pc = .idle then [.ret i r] else []
  | .cancel, _ => [.abort i]
  | _, _ => []

/-- The value, when the closure that writes has not begun: it is ahead of it by the accesses so far. -/
structure Seen (c : Config ι (Shared ι D) (Local ι D R)) (d : D) : Prop where
  closure : ∀ i x b, (c.loc i).pc = .running x b → b.exec c.shared.inner = x.closure.exec d
  value : (∀ i, (c.loc i).pc.inside ≠ some .write) → c.shared.inner = d

theorem guard_of_inside (h : sys.Reachable (init plat value) c) (hi : (c.loc i).pc.inside = some m) :
    (c.loc i).rw.pc = .guard m := by
  have hl := shape h i
  cases hp : (c.loc i).pc with
  | running x b =>
    rw [hp] at hi
    cases hi
    rw [Local.Shape, hp] at hl
    exact hl.1
  | aborted x =>
    rw [hp] at hi
    cases hi
    rwa [Local.Shape, hp] at hl
  | _ => rw [hp] at hi; cases hi

theorem inside_excluded (h : sys.Reachable (init plat value) c) (hi : (c.loc i).rw.pc = .guard m) {j : ι}
    (hj : j ≠ i) {m' : Mode} (hin : (c.loc j).pc.inside = some m') : m = .read ∧ m' = .read := by
  have hcount := counted (rwLock_reachable h)
  have hgi : ((toRwLock.config c).loc i).pc.hasGuard m = true := by
    show (c.loc i).rw.pc.hasGuard m = true
    simp [hi, Pc.hasGuard]
  have hgj : ((toRwLock.config c).loc j).pc.hasGuard m' = true := by
    show (c.loc j).rw.pc.hasGuard m' = true
    simp [guard_of_inside h hin, Pc.hasGuard]
  cases m with
  | read =>
    cases m' with
    | read => exact ⟨rfl, rfl⟩
    | write => rw [hcount.no_reader hgj] at hgi; cases hgi
  | write =>
    cases m' with
    | read => rw [hcount.no_reader hgi] at hgj; cases hgj
    | write => exact absurd (hcount.writer_unique hgj hgi) hj

/-- The value stays. -/
theorem Seen.keep {d : D} (h : Seen c d) (hinner : s.inner = c.shared.inner)
    (hclosure : ∀ x b, l.pc = .running x b → b.exec s.inner = x.closure.exec d)
    (hvalue : l.pc.inside = (c.loc i).pc.inside ∨ (c.loc i).pc.inside ≠ some .write ∨ s.inner = d) :
    Seen (c.set i s l) d := by
  refine ⟨fun j x b hj => ?_, fun hno => ?_⟩
  · by_cases hji : j = i
    · subst hji
      rw [Config.set_loc_self] at hj
      exact hclosure x b hj
    · rw [Config.set_loc_of_ne hji] at hj
      rw [Config.set_shared, hinner]
      exact h.closure j x b hj
  · have hold : (c.loc i).pc.inside ≠ some .write → s.inner = d := fun hi => by
      rw [hinner]
      refine h.value fun j => ?_
      by_cases hji : j = i
      · rwa [hji]
      · have := hno j
        rwa [Config.set_loc_of_ne hji] at this
    rcases hvalue with hsame | hi | hd
    · have := hno i
      rw [Config.set_loc_self, hsame] at this
      exact hold this
    · exact hold hi
    · exact hd

theorem Seen.alone {d : D} (hothers : ∀ j, j ≠ i → (c.loc j).pc.inside = none)
    (hclosure : ∀ x b, l.pc = .running x b → b.exec s.inner = x.closure.exec d)
    (hvalue : l.pc.inside ≠ some .write → s.inner = d) : Seen (c.set i s l) d := by
  refine ⟨fun j x b hj => ?_, fun hno => ?_⟩
  · by_cases hji : j = i
    · subst hji
      rw [Config.set_loc_self] at hj
      exact hclosure x b hj
    · rw [Config.set_loc_of_ne hji] at hj
      have hin := hothers j hji
      rw [hj] at hin
      cases hin
  · refine hvalue ?_
    have hself := hno i
    rwa [Config.set_loc_self] at hself

theorem Move.turn {d : D} (hc : sys.Reachable (init plat value) c) (h : Seen c d)
    (hm : Move i c.shared (c.loc i) a s l) :
    ∃ d', Seen (c.set i s l) d' ∧
      applied.Turn i d (c.loc i).pc.phase (occurs i a c.shared (c.loc i)) d' l.pc.phase := by
  have hlone : (c.loc i).rw.pc = .guard .write → ∀ j, j ≠ i → (c.loc j).pc.inside = none :=
    fun hg j hj => Option.eq_none_iff_forall_ne_some.2 fun m' hin => by
      cases (inside_excluded hc hg hj hin).1
  -- while an agent has a guard, and does not write, nobody does
  have hvalue : ∀ {m}, (c.loc i).rw.pc = .guard m → (c.loc i).pc.inside ≠ some .write →
      c.shared.inner = d := fun hg hi => h.value fun j hin => by
    by_cases hj : j = i
    · exact hi (hj ▸ hin)
    · cases (inside_excluded hc hg hj hin).2
  have hl := With.shape hc i
  cases hm with
  | call x hp s lrw hs =>
    refine ⟨d, h.keep (step_inner (by rintro _ ⟨⟩) hs) (by rintro y b ⟨⟩)
      (.inr (.inl (by rw [hp]; rintro ⟨⟩))), ?_⟩
    rw [hp]
    exact .calls
  | lock x hp hrw s lrw hs =>
    refine ⟨d, h.keep (step_inner (by rintro _ ⟨⟩) hs) (by rintro y b ⟨⟩)
      (.inr (.inl (by rw [hp]; rintro ⟨⟩))), ?_⟩
    simp only [occurs, hp]
    exact .stay
  | run x hp hrw =>
    have hd : c.shared.inner = d := hvalue hrw (by rw [hp]; rintro ⟨⟩)
    refine ⟨d, h.keep rfl (fun y b hy => ?_) (.inr (.inr hd)), ?_⟩
    · cases hy
      rw [hd]
    · simp only [occurs, hp]
      exact .stay
  | access x write next hp s lrw hs =>
    rw [Local.Shape, hp] at hl
    have hclosure := h.closure i x _ hp
    have hs := (step_access hl.1 hs).2
    refine ⟨d, ?_, by simp only [occurs, hp]; exact .stay⟩
    by_cases hx : x.mode = .write
    · refine .alone (hlone (by rw [hl.1, hx])) (fun y b hy => ?_) fun hno => absurd (congrArg some hx) hno
      cases hy
      rw [if_pos hx] at hs
      rw [hs]
      exact hclosure
    · rw [if_neg hx] at hs
      refine h.keep hs (fun y b hy => ?_) (.inl (by rw [hp]; rfl))
      cases hy
      have hread : x.mode = .read := by cases hx' : x.mode <;> first | rfl | exact absurd hx' hx
      rw [Body.exec_access, (hl.2 hread).1] at hclosure
      rw [hs]
      exact hclosure
  | ends x b r hp hb s lrw hs =>
    rw [Local.Shape, hp] at hl
    have hclosure := h.closure i x b hp
    rw [hb] at hclosure
    have hs := (step_drop hl.1 hs).2
    refine ⟨c.shared.inner, ?_, by simp only [occurs, hp]; exact .commits hclosure.symm⟩
    by_cases hx : x.mode = .write
    · exact .alone (hlone (by rw [hl.1, hx])) (by rintro y b ⟨⟩) fun _ => hs
    · have hd := hvalue hl.1 (by rw [hp]; exact fun heq => hx (Option.some.inj heq))
      rw [hd]
      exact h.keep hs (by rintro y b ⟨⟩) (.inr (.inr (hs.trans hd)))
  | abort x hp _ =>
    refine ⟨d, h.keep rfl (by rintro y b ⟨⟩) (.inl (by rw [hp]; rfl)), ?_⟩
    simp only [occurs, hp]
    exact .stay
  | drop r hp hrw s lrw hs =>
    refine ⟨d, h.keep (step_inner (by rintro _ ⟨⟩) hs) (by rintro y b ⟨⟩)
      (.inl (by rw [hp])), ?_⟩
    simp only [occurs, hp, hrw, if_false]
    exact .stay
  | returns r hp hrw =>
    refine ⟨d, h.keep rfl (by rintro y b ⟨⟩) (.inl (by rw [hp]; rfl)), ?_⟩
    simp only [occurs, hp, hrw, if_true]
    exact .returns
  | spurious s lrw hs =>
    have hs := step_inner (by rintro _ ⟨⟩) hs
    exact ⟨d, h.keep hs (fun y b hy => by rw [hs]; exact h.closure i y b hy) (.inl rfl), .stay⟩
  | cancel x hp s lrw hs =>
    refine ⟨d, h.keep (step_inner (by rintro _ ⟨⟩) hs) (by rintro y b ⟨⟩)
      (.inl (by rw [hp]; rfl)), ?_⟩
    rw [hp]
    exact .aborts
  | consume hp s lrw hs =>
    refine ⟨d, h.keep (step_inner (by rintro _ ⟨⟩) hs) (by rintro y b ⟨⟩)
      (.inl (by rw [hp])), ?_⟩
    simp only [occurs, hp]
    exact .stay

/-- The calls are the object. -/
def simulation (plat : Platform ι) (value : D) :
    PhaseMap (sys (ι := ι) (D := D) (R := R)) (init plat value) applied value occurs where
  phase l := l.pc.phase
  Rel := Seen
  init := ⟨by rintro i x b ⟨⟩, fun _ => rfl⟩
  idle _ := rfl
  agent hc hx hs := (step_move hs).turn hc hx
  env _ hx hs := by
    obtain ⟨p, -, rfl⟩ := env_data (R := Unit) hs
    exact ⟨hx.closure, hx.value⟩

/-- **A closure runs as if alone.**  In every run of calls of the four functions the closures take effect
one after the other, each as a whole, between its call and its return, although the closures of readers
run at the same time: each sees the value that the last writer left, also one that has panicked, and
returns what it returns without interruption. -/
theorem linearizable_with {h : List (Occurrence ι (Body D R) (Option R))}
    (H : sys.History (visible occurs) [] (init plat value) h c) : applied.Linearizable value h :=
  (simulation plat value).simulation.linearizable H

/-- A closure that adds 2, in two accesses, and returns what it found at each. -/
def addTwice : Body ℕ (ℕ × ℕ) := .access (· + 1) fun d => .access (· + 1) fun d' => .ret (d, d')

/-- Two readers side by side, and a writer that waits for both. -/
theorem linearizable_with_readers :
    ∃ (h : List (Occurrence (Fin 3) (Body ℕ (ℕ × ℕ)) (Option (ℕ × ℕ))))
      (c : Config (Fin 3) (Shared (Fin 3) ℕ) (Local (Fin 3) ℕ (ℕ × ℕ))),
      sys.History (visible occurs) [] (init (.new .native) 0) h c ∧ results 0 h = [some (0, 0)] ∧
      results 1 h = [some (0, 0)] ∧ results 2 h = [some (0, 1)] ∧ applied.Linearizable 0 h := by
  obtain ⟨h, c, H, hend⟩ := System.exists_note_of_along (M := sys) (P := fun _ _ _ => True)
    (h := []) (c := init (ι := Fin 3) (R := ℕ × ℕ) (.new .native) 0) (visible occurs)
    (p := fun h _ => decide (results 0 h = [some (0, 0)] ∧ results 1 h = [some (0, 0)] ∧
      results 2 h = [some (0, 1)]))
    ([.agent 0 (.call (withSync addTwice)), .agent 1 (.call (withAsync addTwice)),
        .agent 2 (.call (withMutSync addTwice))] ++ List.replicate 6 (.agent 0 .step) ++
      List.replicate 6 (.agent 1 .step) ++ List.replicate 4 (.agent 2 .step) ++
      List.replicate 7 (.agent 0 .step) ++ List.replicate 6 (.agent 1 .step) ++
      List.replicate 14 (.agent 2 .step)) (by decide) (by decide)
  rw [decide_eq_true_eq] at hend
  exact ⟨h, c, H, hend.1, hend.2.1, hend.2.2, linearizable_with H⟩

end With

end RwLock

end WasmSafeThread
