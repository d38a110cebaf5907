import WasmSafeThread.Agents.History
import WasmSafeThread.OrderedMap
import Mathlib.Data.Bool.Basic

/-!
# The spawn hooks

`SPAWN_HOOKS` is a list of named closures behind a mutex.  User code registers, replaces and removes
hooks, and every spawned thread runs them before its own closure.  The closures are in `Arc`s: a run
clones the `Arc`s, releases the mutex and calls them, so that a hook can be replaced or removed while it
runs, and is destroyed where its last `Arc` is dropped.  What a hook has captured may have a destructor
of its own, which is user code like the body of the hook.

An agent is a thread.  Its local state is the part of the thread that it is in (`Phase`), the calls of
operations that are in progress (`Frame`), and whether user code runs on top of them.  User code calls an
operation, the operation drops an `Arc`, the drop runs user code, and so on; below the first call is the
user code of the thread itself.  The mutex is its flag: it is not reentrant, and `lock_sync` waits while
the flag is set, whoever has set it.

* `registerSpawnHook`, `removeSpawnHook`, `clearSpawnHooks` : the three operations, under the guard.
* `advance` : the next operation of the thread itself.
* `act` : what user code may do: call an operation, join a thread, return, panic.
* `Move` : what one step of a thread can be.
* `excl` : one guard at a time, in every run.
-/

namespace WasmSafeThread

namespace Hooks

variable {ι N : Type*}

/-- An operation of user code on the registry. -/
inductive Op (N : Type*) where
  /-- `register_spawn_hook`, with the `Arc` it has made of the hook. -/
  | register (n : N) (k : ℕ)
  /-- `remove_spawn_hook`. -/
  | remove (n : N)
  /-- `clear_spawn_hooks`. -/
  | clear
  deriving DecidableEq

/-- A call that user code has made. -/
inductive Frame (ι N : Type*) where
  /-- The operation is at `lock_sync`. -/
  | lock (op : Op N)
  /-- The operation has the guard. -/
  | body (op : Op N)
  /-- The operation has changed the list and has these `Arc`s to drop; then it drops the guard and
  returns `r`. -/
  | drops (ks : List ℕ) (r : Option Bool)
  /-- The thread waits for thread `j` to end. -/
  | join (j : ι)
  deriving DecidableEq

/-- The part of a thread. -/
inductive Phase where
  /-- The thread has not begun. -/
  | unborn
  /-- `run_spawn_hooks`, at `lock_sync`. -/
  | run
  /-- `run_spawn_hooks` has the guard. -/
  | snapshot
  /-- It has cloned the hooks, and drops the guard next. -/
  | cloned (todo : List ℕ)
  /-- At the top of `for hook in hooks`. -/
  | hooks (todo : List ℕ)
  /-- In the call of hook `k`. -/
  | called (k : ℕ) (todo : List ℕ)
  /-- A hook has panicked, and the thread drops its `Arc`s. -/
  | unwind (ks : List ℕ)
  /-- The closure of the thread. -/
  | main
  /-- The thread has ended. -/
  | ended
  deriving DecidableEq

/-- What a thread has of its own. -/
structure Local (ι N : Type*) where
  /-- The part of the thread. -/
  phase : Phase
  /-- The calls in progress, the latest first. -/
  calls : List (Frame ι N)
  /-- User code is running, on top of the calls. -/
  user : Bool
  /-- What the last operation has returned. -/
  result : Option Bool
  deriving DecidableEq

/-- A thread that has not begun. -/
def Local.new : Local ι N := ⟨.unborn, [], false, none⟩

/-- What the threads share. -/
structure Shared (ι N : Type*) where
  /-- The names and the `Arc`s in `SPAWN_HOOKS`. -/
  hooks : List (N × ℕ)
  /-- The mutex is taken. -/
  locked : Bool
  /-- The `Arc` that the next registration makes. -/
  next : ℕ
  /-- The strong count of each `Arc`. -/
  strong : ℕ → ℕ
  /-- The hook has captured a value with a destructor of its own. -/
  destructs : ℕ → Bool
  /-- The threads that have ended. -/
  ended : ι → Bool

/-- What a thread can do. -/
inductive Act (ι N : Type*) where
  /-- The main thread begins. -/
  | start
  /-- A spawned thread begins. -/
  | spawned
  /-- User code calls `register_spawn_hook`. -/
  | register (n : N) (destructs : Bool)
  /-- User code calls `remove_spawn_hook`. -/
  | remove (n : N)
  /-- User code calls `clear_spawn_hooks`. -/
  | clear
  /-- User code joins thread `j`. -/
  | join (j : ι)
  /-- User code returns. -/
  | ret
  /-- User code panics. -/
  | panic
  /-- The next operation of the thread. -/
  | step
  deriving DecidableEq

section Body

variable [DecidableEq N]

/-- The body of `register_spawn_hook`: the list, and the `Arc` that is replaced. -/
def registerSpawnHook (hooks : List (N × ℕ)) (n : N) (k : ℕ) : List (N × ℕ) × List ℕ :=
  (OrderedMap.put hooks n k, (OrderedMap.get hooks n).toList)

/-- The body of `remove_spawn_hook`: the list, the `Arc` that is removed, and the result. -/
def removeSpawnHook (hooks : List (N × ℕ)) (n : N) : List (N × ℕ) × List ℕ × Bool :=
  (OrderedMap.remove hooks n, (OrderedMap.get hooks n).toList,
    (OrderedMap.position hooks n).isSome)

omit [DecidableEq N] in
/-- The body of `clear_spawn_hooks`: the list, and the `Arc`s that it held. -/
def clearSpawnHooks (hooks : List (N × ℕ)) : List (N × ℕ) × List ℕ := ([], hooks.map Prod.snd)

/-- The list after the operation. -/
def Op.hooks (hooks : List (N × ℕ)) : Op N → List (N × ℕ)
  | .register n k => (registerSpawnHook hooks n k).1
  | .remove n => (removeSpawnHook hooks n).1
  | .clear => (clearSpawnHooks hooks).1

/-- The `Arc`s that the operation drops while it has the guard. -/
def Op.dropped (hooks : List (N × ℕ)) : Op N → List ℕ
  | .register n k => (registerSpawnHook hooks n k).2
  | .remove n => (removeSpawnHook hooks n).2.1
  | .clear => (clearSpawnHooks hooks).2

/-- What the operation returns, if that is not `()`. -/
def Op.result (hooks : List (N × ℕ)) : Op N → Option Bool
  | .remove n => some (removeSpawnHook hooks n).2.2
  | _ => none

end Body

namespace Shared

/-- `Arc::new`. -/
def make (s : Shared ι N) (destructs : Bool) : Shared ι N :=
  { s with
    next := s.next + 1
    strong := Function.update s.strong s.next 1
    destructs := Function.update s.destructs s.next destructs }

/-- `Arc::clone` of each. -/
def clone (s : Shared ι N) (ks : List ℕ) : Shared ι N :=
  { s with strong := fun k => s.strong k + ks.count k }

/-- One reference to `Arc` `k` is dropped. -/
def drop (s : Shared ι N) (k : ℕ) : Shared ι N :=
  { s with strong := Function.update s.strong k (s.strong k - 1) }

/-- The drop of a reference to `Arc` `k` runs user code: it is the last one, and the hook has captured a
value with a destructor. -/
def destroys (s : Shared ι N) (k : ℕ) : Bool := s.strong k == 1 && s.destructs k

variable [DecidableEq ι]

/-- Thread `i` has ended. -/
def finish (s : Shared ι N) (i : ι) : Shared ι N := { s with ended := Function.update s.ended i true }

end Shared

variable [DecidableEq ι] [DecidableEq N]

/-- The next operation of the thread: of its latest call, or of the thread when none is in progress. -/
def advance (i : ι) (s : Shared ι N) (l : Local ι N) : Option (Shared ι N × Local ι N) :=
  match l.calls with
  | .lock op :: rest =>
    if s.locked then none else some ({ s with locked := true }, { l with calls := .body op :: rest })
  | .body op :: rest =>
    -- a replaced or removed `Arc` is dropped before the guard is
    some ({ s with hooks := op.hooks s.hooks },
      { l with calls := .drops (op.dropped s.hooks) (op.result s.hooks) :: rest })
  | .drops (k :: ks) r :: rest =>
    some (s.drop k, { l with calls := .drops ks r :: rest, user := s.destroys k })
  | .drops [] r :: rest =>
    some ({ s with locked := false }, { l with calls := rest, user := true, result := r })
  | .join j :: rest => if s.ended j then some (s, { l with calls := rest, user := true }) else none
  | [] =>
    match l.phase with
    | .run =>
      if s.locked then none else some ({ s with locked := true }, { l with phase := .snapshot })
    | .snapshot =>
      some (s.clone (s.hooks.map Prod.snd), { l with phase := .cloned (s.hooks.map Prod.snd) })
    | .cloned todo => some ({ s with locked := false }, { l with phase := .hooks todo })
    | .hooks [] => some (s, { l with phase := .main, user := true })
    | .hooks (k :: todo) => some (s, { l with phase := .called k todo, user := true })
    | .called k todo => some (s.drop k, { l with phase := .hooks todo, user := s.destroys k })
    | .unwind (k :: ks) => some (s.drop k, { l with phase := .unwind ks, user := s.destroys k })
    | .unwind [] => some (s.finish i, { l with phase := .ended })
    | .main => some (s.finish i, { l with phase := .ended })
    | .unborn | .ended => none

/-- A panic of user code goes through the operation that runs it, which drops what is left and the guard
but has no result, or through the thread.  One that starts while the thread unwinds aborts the program,
and nothing happens after it. -/
def unwindTo (l : Local ι N) : Option (Local ι N) :=
  match l.calls with
  | .drops ks _ :: rest => some { l with calls := .drops ks none :: rest, user := false }
  | [] =>
    match l.phase with
    | .called k todo => some { l with phase := .unwind (k :: todo), user := false }
    | .hooks todo => some { l with phase := .unwind todo, user := false }
    | .main => some { l with user := false }
    | _ => none
  | _ => none

/-- User code calls an operation. -/
def Local.call (l : Local ι N) (op : Op N) : Local ι N :=
  { l with calls := .lock op :: l.calls, user := false, result := none }

/-- What user code does. -/
def act (s : Shared ι N) (l : Local ι N) : Act ι N → Option (Shared ι N × Local ι N)
  | .register n d => some (s.make d, l.call (.register n s.next))
  | .remove n => some (s, l.call (.remove n))
  | .clear => some (s, l.call .clear)
  | .join j => some (s, { l with calls := .join j :: l.calls, user := false })
  | .ret => some (s, { l with user := false })
  | .panic => (unwindTo l).map fun l => (s, l)
  | .start | .spawned | .step => none

/-- One operation of a thread. -/
def step (i : ι) (a : Act ι N) (s : Shared ι N) (l : Local ι N) :
    Option (Shared ι N × Local ι N) :=
  if l.user then act s l a
  else
    match a with
    | .start => if l = .new then some (s, ⟨.main, [], true, none⟩) else none
    | .spawned => if l = .new then some (s, ⟨.run, [], false, none⟩) else none
    | .step => advance i s l
    | _ => none

/-- The threads and the registry. -/
def sys : System ι (Shared ι N) (Local ι N) (Act ι N) Empty where
  step := step
  env := fun e _ => nomatch e

omit [DecidableEq ι] [DecidableEq N] in
/-- No thread has begun, and no hook is registered. -/
def init : Config ι (Shared ι N) (Local ι N) :=
  ⟨⟨[], false, 0, fun _ => 0, fun _ => false, fun _ => false⟩, fun _ => .new⟩

/-! ### What one step can be -/

omit [DecidableEq ι] [DecidableEq N] in
/-- The operation with which user code begins a call. -/
inductive Calls (s : Shared ι N) : Act ι N → Op N → Shared ι N → Prop
  | register {n : N} {d : Bool} : Calls s (.register n d) (.register n s.next) (s.make d)
  | remove {n : N} : Calls s (.remove n) (.remove n) s
  | clear : Calls s .clear .clear s

/-- What one step of thread `i` can be. -/
inductive Move (i : ι) : Act ι N → Shared ι N → Local ι N → Shared ι N → Local ι N → Prop
  | start {s} : Move i .start s .new s ⟨.main, [], true, none⟩
  | spawned {s} : Move i .spawned s .new s ⟨.run, [], false, none⟩
  | call {a s l s₁ op} : l.user = true → Calls s a op s₁ → Move i a s l s₁ (l.call op)
  | join {s l j} : l.user = true →
      Move i (.join j) s l s { l with calls := .join j :: l.calls, user := false }
  | ret {s l} : l.user = true → Move i .ret s l s { l with user := false }
  | panicked {s l ks r rest} : l.user = true → l.calls = .drops ks r :: rest →
      Move i .panic s l s { l with calls := .drops ks none :: rest, user := false }
  | panic {s l ks} : l.user = true → l.calls = [] →
      (∃ k todo, l.phase = .called k todo ∧ ks = k :: todo) ∨ l.phase = .hooks ks →
      Move i .panic s l s { l with phase := .unwind ks, user := false }
  | died {s l} : l.user = true → l.calls = [] → l.phase = .main →
      Move i .panic s l s { l with user := false }
  | lock {s l op rest} : l.user = false → l.calls = .lock op :: rest → s.locked = false →
      Move i .step s l { s with locked := true } { l with calls := .body op :: rest }
  | body {s l op rest} : l.user = false → l.calls = .body op :: rest →
      Move i .step s l { s with hooks := op.hooks s.hooks }
        { l with calls := .drops (op.dropped s.hooks) (op.result s.hooks) :: rest }
  | drop {s l k ks r rest} : l.user = false → l.calls = .drops (k :: ks) r :: rest →
      Move i .step s l (s.drop k) { l with calls := .drops ks r :: rest, user := s.destroys k }
  | unlock {s l r rest} : l.user = false → l.calls = .drops [] r :: rest →
      Move i .step s l { s with locked := false } { l with calls := rest, user := true, result := r }
  | joined {s l j rest} : l.user = false → l.calls = .join j :: rest → s.ended j = true →
      Move i .step s l s { l with calls := rest, user := true }
  | run {s l} : l.user = false → l.calls = [] → l.phase = .run → s.locked = false →
      Move i .step s l { s with locked := true } { l with phase := .snapshot }
  | snapshot {s l} : l.user = false → l.calls = [] → l.phase = .snapshot →
      Move i .step s l (s.clone (s.hooks.map Prod.snd))
        { l with phase := .cloned (s.hooks.map Prod.snd) }
  | cloned {s l todo} : l.user = false → l.calls = [] → l.phase = .cloned todo →
      Move i .step s l { s with locked := false } { l with phase := .hooks todo }
  | hook {s l k todo} : l.user = false → l.calls = [] → l.phase = .hooks (k :: todo) →
      Move i .step s l s { l with phase := .called k todo, user := true }
  | called {s l k todo} : l.user = false → l.calls = [] → l.phase = .called k todo →
      Move i .step s l (s.drop k) { l with phase := .hooks todo, user := s.destroys k }
  | main {s l} : l.user = false → l.calls = [] → l.phase = .hooks [] →
      Move i .step s l s { l with phase := .main, user := true }
  | unwind {s l k ks} : l.user = false → l.calls = [] → l.phase = .unwind (k :: ks) →
      Move i .step s l (s.drop k) { l with phase := .unwind ks, user := s.destroys k }
  | finish {s l} : l.user = false → l.calls = [] → l.phase = .unwind [] ∨ l.phase = .main →
      Move i .step s l (s.finish i) { l with phase := .ended }

variable {i : ι} {a : Act ι N} {s s₁ : Shared ι N} {l l₁ : Local ι N}

theorem advance_move (hu : l.user = false) (h : advance i s l = some (s₁, l₁)) :
    Move i .step s l s₁ l₁ := by
  unfold advance at h
  split at h
  · rename_i op rest hl
    split at h
    · cases h
    · rename_i hlock
      cases h
      exact .lock hu hl (Bool.eq_false_of_not_eq_true hlock)
  · rename_i op rest hl
    cases h
    exact .body hu hl
  · rename_i k ks r rest hl
    cases h
    exact .drop hu hl
  · rename_i r rest hl
    cases h
    exact .unlock hu hl
  · rename_i j rest hl
    split at h
    · rename_i hj
      cases h
      exact .joined hu hl hj
    · cases h
  · rename_i hl
    split at h
    · rename_i hp
      split at h
      · cases h
      · rename_i hlock
        cases h
        exact .run hu hl hp (Bool.eq_false_of_not_eq_true hlock)
    · rename_i hp; cases h; exact .snapshot hu hl hp
    · rename_i todo hp; cases h; exact .cloned hu hl hp
    · rename_i hp; cases h; exact .main hu hl hp
    · rename_i k todo hp; cases h; exact .hook hu hl hp
    · rename_i k todo hp; cases h; exact .called hu hl hp
    · rename_i k ks hp; cases h; exact .unwind hu hl hp
    · rename_i hp; cases h; exact .finish hu hl (.inl hp)
    · rename_i hp; cases h; exact .finish hu hl (.inr hp)
    · cases h
    · cases h

theorem unwindTo_move (hu : l.user = true) (h : unwindTo l = some l₁) :
    Move i .panic s l s l₁ := by
  unfold unwindTo at h
  split at h
  · rename_i ks r rest hl
    cases h
    exact .panicked hu hl
  · rename_i hl
    split at h
    · rename_i k todo hp; cases h; exact .panic hu hl (.inl ⟨k, todo, hp, rfl⟩)
    · rename_i todo hp; cases h; exact .panic hu hl (.inr hp)
    · rename_i hp; cases h; exact .died hu hl hp
    · cases h
  · cases h

theorem act_move (hu : l.user = true) (h : act s l a = some (s₁, l₁)) : Move i a s l s₁ l₁ := by
  cases a with
  | start | spawned | step => cases h
  | register n d => cases h; exact .call hu .register
  | remove n => cases h; exact .call hu .remove
  | clear => cases h; exact .call hu .clear
  | join j => cases h; exact .join hu
  | ret => cases h; exact .ret hu
  | panic =>
    simp only [act, Option.map_eq_some_iff] at h
    obtain ⟨l₂, h, heq⟩ := h
    cases heq
    exact unwindTo_move hu h

theorem step_move (h : step i a s l = some (s₁, l₁)) : Move i a s l s₁ l₁ := by
  unfold step at h
  split at h
  · rename_i hu
    exact act_move hu h
  · rename_i hu
    have hu : l.user = false := Bool.eq_false_of_not_eq_true hu
    split at h
    · split at h
      · rename_i hl; cases h; subst hl; exact .start
      · cases h
    · split at h
      · rename_i hl; cases h; subst hl; exact .spawned
      · cases h
    · exact advance_move hu h
    · cases h

/-! ### The guard -/

/-- The frame has the guard. -/
def Frame.guarded : Frame ι N → Bool
  | .body _ | .drops _ _ => true
  | _ => false

/-- The run has the guard. -/
def Phase.guarded : Phase → Bool
  | .snapshot | .cloned _ => true
  | _ => false

/-- How many guards the thread has. -/
def Local.guards (l : Local ι N) : ℕ := l.calls.countP Frame.guarded + l.phase.guarded.toNat

/-- A guard is taken when the mutex is free, and given back. -/
theorem Move.guards (h : Move i a s l s₁ l₁) :
    (s₁.locked = s.locked ∧ l₁.guards = l.guards) ∨
    (s.locked = false ∧ s₁.locked = true ∧ l₁.guards = l.guards + 1) ∨
    (s₁.locked = false ∧ l.guards = l₁.guards + 1) := by
  cases h with
  | start => exact .inl ⟨rfl, rfl⟩
  | spawned => exact .inl ⟨rfl, rfl⟩
  | call hu hc => exact .inl ⟨by cases hc <;> rfl, by simp [Local.guards, Local.call, Frame.guarded]⟩
  | join hu => exact .inl ⟨rfl, by simp [Local.guards, Frame.guarded]⟩
  | ret hu => exact .inl ⟨rfl, rfl⟩
  | panicked hu hl => exact .inl ⟨rfl, by simp [Local.guards, hl, List.countP_cons, Frame.guarded]⟩
  | panic hu hl hp =>
    refine .inl ⟨rfl, ?_⟩
    rcases hp with ⟨k, todo, hp, -⟩ | hp <;> simp [Local.guards, hp, Phase.guarded]
  | died hu hl hp => exact .inl ⟨rfl, rfl⟩
  | lock hu hl hlock =>
    refine .inr (.inl ⟨hlock, rfl, ?_⟩)
    simp only [Local.guards, hl, List.countP_cons, Frame.guarded, if_true, Bool.false_eq_true,
      if_false]
    omega
  | body hu hl => exact .inl ⟨rfl, by simp [Local.guards, hl, List.countP_cons, Frame.guarded]⟩
  | drop hu hl => exact .inl ⟨rfl, by simp [Local.guards, hl, List.countP_cons, Frame.guarded]⟩
  | unlock hu hl =>
    refine .inr (.inr ⟨rfl, ?_⟩)
    simp only [Local.guards, hl, List.countP_cons, Frame.guarded, if_true]
    omega
  | joined hu hl _ => exact .inl ⟨rfl, by simp [Local.guards, hl, Frame.guarded]⟩
  | run hu hl hp hlock =>
    exact .inr (.inl ⟨hlock, rfl, by simp [Local.guards, hp, Phase.guarded]⟩)
  | snapshot hu hl hp => exact .inl ⟨rfl, by simp [Local.guards, hp, Phase.guarded]⟩
  | cloned hu hl hp => exact .inr (.inr ⟨rfl, by simp [Local.guards, hp, Phase.guarded]⟩)
  | hook hu hl hp | called hu hl hp | main hu hl hp | unwind hu hl hp =>
    exact .inl ⟨rfl, by simp [Local.guards, hp, Phase.guarded]⟩
  | finish hu hl hp =>
    refine .inl ⟨rfl, ?_⟩
    rcases hp with hp | hp <;> simp [Local.guards, hp, Phase.guarded]

/-- The mutex is taken exactly when a thread has a guard, and then one thread has one. -/
structure Excl (c : Config ι (Shared ι N) (Local ι N)) : Prop where
  free : c.shared.locked = false → ∀ i, (c.loc i).guards = 0
  taken : c.shared.locked = true →
    ∃ i, (c.loc i).guards = 1 ∧ ∀ j, j ≠ i → (c.loc j).guards = 0

variable {c : Config ι (Shared ι N) (Local ι N)}

omit [DecidableEq N] in
theorem Excl.le_one (h : Excl c) (i : ι) :
    (c.loc i).guards ≤ 1 := by
  cases hlock : c.shared.locked with
  | false => rw [h.free hlock i]; omega
  | true =>
    obtain ⟨j, hj, hothers⟩ := h.taken hlock
    by_cases hij : i = j
    · rw [hij]
      omega
    · rw [hothers i hij]
      omega

omit [DecidableEq N] in
theorem Excl.other (h : Excl c) {i j : ι} (hi : 0 < (c.loc i).guards) (hj : j ≠ i) :
    (c.loc j).guards = 0 := by
  cases hlock : c.shared.locked with
  | false => exact h.free hlock j
  | true =>
    obtain ⟨k, hk, hothers⟩ := h.taken hlock
    have hik : i = k := by
      by_contra hne
      rw [hothers i hne] at hi
      omega
    exact hothers j (by rw [← hik]; exact hj)

theorem Excl.step (h : Excl c) (hs : Move i a c.shared (c.loc i) s l) : Excl (c.set i s l) := by
  have hothers : ∀ j, j ≠ i → ((c.set i s l).loc j).guards = (c.loc j).guards := fun j hj => by
    rw [Config.set_loc_of_ne hj]
  rcases hs.guards with ⟨hlock, hg⟩ | ⟨hfree, hlock, hg⟩ | ⟨hlock, hg⟩
  · have hall := Config.set_loc_congr (f := Local.guards) (c := c) (i := i) (s := s) hg
    refine ⟨fun hf j => ?_, fun ht => ?_⟩
    · rw [hall]
      exact h.free (hlock ▸ hf) j
    · obtain ⟨j, hj, hrest⟩ := h.taken (hlock ▸ ht)
      exact ⟨j, by rw [hall, hj], fun k hk => by rw [hall, hrest k hk]⟩
  · refine ⟨fun hf => ?_, fun _ => ⟨i, ?_, fun j hj => ?_⟩⟩
    · rw [Config.set_shared, hlock] at hf
      cases hf
    · rw [Config.set_loc_self, hg, h.free hfree i]
    · rw [hothers j hj, h.free hfree j]
  · refine ⟨fun _ j => ?_, fun ht => ?_⟩
    · by_cases hj : j = i
      · have := h.le_one i
        rw [hj, Config.set_loc_self]
        omega
      · rw [hothers j hj]
        exact h.other (by omega) hj
    · rw [Config.set_shared, hlock] at ht
      cases ht

/-- **One guard at a time**, in every run. -/
theorem excl (h : sys.Reachable init c) : Excl c := by
  refine h.invariant ?_ (fun c i a s l _ ih _ hs => ih.step (step_move hs)) fun _ e => nomatch e
  exact ⟨fun _ _ => rfl, fun ht => nomatch ht⟩

end Hooks

end WasmSafeThread
