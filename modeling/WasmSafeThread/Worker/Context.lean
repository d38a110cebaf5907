import WasmSafeThread.Worker.ExactlyOnce

/-!
# What a context keeps, and who waits for it

Over `Worker.sys`: the threads (`Thread`, `THREAD_COUNTER`, `CURRENT_THREAD`, `current` in
`wasm/thread_api.rs`), the tasks that a worker has begun (`task_begin`, `task_finished` in `wasm.rs`, and
the loop of the worker's script that waits for them), and `wait_for_exit_async`, with which `join_async`
waits for the code that `signalExit` stores.

* A thread is an `Arc<ThreadInner>`.  Its number stands for its address, and so for its parking word.
* `wait_for_exit_async` loads the code; while it is 0 it waits on the word with `Atomics.waitAsync`, or
  polls where that is missing.  `signalExit` stores and then notifies.
* The future that waits owns the `JoinHandle`.  When it is dropped the `JoinHandle` is, and the promise
  goes on.

In a browser the script of a worker ends when it finds no pending task.  On Node it closes its port then,
and the worker exits some time later.

* `step`, `sys` : the system, and `toWorker`: a run of it is one of `Worker.sys`.
* `Move` : what one step does.
-/

namespace WasmSafeThread

namespace Worker

namespace Context

variable {ρ : Type*}

/-- What the program runs on, and how it was built. -/
structure Setup (ρ : Type*) where
  host : Host
  /-- `Atomics.waitAsync` is there. -/
  waitAsync : Bool
  /-- With assertions and overflow checks. -/
  debug : Bool
  /-- `wstIsWorkerGlobal()` of a root. -/
  isWorker : ρ → Bool
  /-- `is_main_thread()` of a root. -/
  isMain : ρ → Bool

/-- `is_main_thread()`. -/
def Setup.isMainThread (S : Setup ρ) : Ctx ρ → Bool
  | .root x => S.isMain x
  | .worker _ => false

/-- `ThreadInner`. -/
structure ThreadInner where
  name : Option String
  /-- `ThreadId`. -/
  id : BitVec 64
  deriving DecidableEq

/-- Where `wait_for_exit_async` is with a request. -/
inductive Wait (ρ : Type*) where
  /-- It has not been called. -/
  | none
  /-- The load has found 0. -/
  | arming (x : Ctx ρ)
  /-- `Atomics.waitAsync` has returned a promise. -/
  | waiting (x : Ctx ρ)
  /-- The promise is resolved. -/
  | woken (x : Ctx ρ)
  /-- Without `Atomics.waitAsync`: before the next `poll`. -/
  | polling (x : Ctx ρ)
  /-- The code has been read. -/
  | resolved (x : Ctx ρ) (code : ℕ)
  deriving DecidableEq

/-- The context that has called it. -/
def Wait.owner : Wait ρ → Option (Ctx ρ)
  | .none => Option.none
  | .arming x | .waiting x | .woken x | .polling x | .resolved x _ => some x

/-- `Atomics.notify`. -/
def Wait.notify : Wait ρ → Wait ρ
  | .waiting x => .woken x
  | w => w

/-- A call in JavaScript that the context is in the middle of. -/
inductive Call where
  /-- `signalExit`, before `Atomics.notify`. -/
  | notify (ptr : ℕ)
  /-- `wait_for_exit_async`, before `Atomics.waitAsync`. -/
  | arm (r : ℕ)
  /-- After it, when it has found a code. -/
  | reload (r : ℕ)
  deriving DecidableEq

/-- The linear memory and the waiting promises. -/
structure Shared (ρ : Type*) where
  base : Worker.Shared ρ
  /-- `THREAD_COUNTER`. -/
  counter : BitVec 64
  /-- The threads, in the order of their creation. -/
  threads : List ThreadInner
  /-- The thread of a request: that of the `JoinHandle` and of the closure. -/
  thread : ℕ → Option ℕ
  wait : ℕ → Wait ρ
  /-- History: `wait_for_exit_async` has read the memory after it had been freed. -/
  stale : ℕ → Bool

/-- The variables of a context. -/
structure Local where
  base : Worker.Local
  call : Option Call
  /-- `CURRENT_THREAD`. -/
  current : Option ℕ
  /-- `PENDING_TASKS`. -/
  pending : BitVec 32
  /-- Node: the script has closed its port. -/
  closing : Bool
  /-- History: the tasks that have begun, and those that have finished. -/
  begun : ℕ
  finished : ℕ
  /-- History: how many had begun when the script found none pending. -/
  drained : Option ℕ

/-- The operations of a context. -/
inductive Act where
  /-- One of `Worker.sys` that has nothing to do with what is added here. -/
  | base (a : Worker.Act)
  /-- The call in JavaScript goes on. -/
  | step
  /-- `Builder::spawn`, with the name that the builder was given. -/
  | spawn (name : Option String) (shimUrl : String)
  /-- The entry point of a worker calls its closure. -/
  | enter
  /-- `current()`. -/
  | current
  | taskBegin
  | taskFinished
  /-- The script of a worker finds that no task is pending. -/
  | drain
  /-- Node: the worker exits. -/
  | exit
  /-- `join_async` calls `wait_for_exit_async`. -/
  | waitForExit (r : ℕ)
  /-- What is after `Atomics.waitAsync` runs. -/
  | settle (r : ℕ)
  /-- `poll`. -/
  | poll (r : ℕ)
  /-- `JoinHandle::drop`, also with the future of `join_async`. -/
  | dropHandle (r : ℕ)
  deriving DecidableEq

namespace Shared

variable (s : Shared ρ)

/-- A new thread. -/
def create (name : Option String) : Shared ρ :=
  { s with counter := s.counter + 1, threads := s.threads ++ [⟨name, s.counter⟩] }

/-- `exit_code` of request `r`. -/
def code (r : ℕ) : ℕ := (s.base.exits r).exitCode

/-- `wait_for_exit_async` reads the memory, and then is at `w`. -/
def read (r : ℕ) (w : Wait ρ) : Shared ρ :=
  { s with
    wait := Function.update s.wait r w
    stale := Function.update s.stale r (s.stale r || decide (0 < (s.base.exits r).frees)) }

end Shared

namespace Local

variable (l : Local)

/-- The context runs code of the user, or takes events. -/
def free : Prop := l.base.task = .rest ∧ l.base.phase.runs = true

instance : Decidable l.free := inferInstanceAs (Decidable (_ ∧ _))

/-- `task_begin`.  With overflow checks it panics before it writes. -/
def taskBegin (debug : Bool) : Local :=
  if debug ∧ l.pending = BitVec.allOnes 32 then l
  else { l with pending := l.pending + 1, begun := l.begun + 1 }

/-- `task_finished`, with its assertion. -/
def taskFinished (debug : Bool) : Local :=
  if debug ∧ l.pending = 0 then l
  else { l with pending := l.pending - 1, finished := l.finished + 1 }

end Local

/-- The operation is in `Worker.sys` as it is. -/
def plain : Worker.Act → Bool
  | .step | .throws | .start | .fail | .uncaught | .recv _ | .recvError _ => true
  | .spawn _ _ | .enter | .exit | .load _ | .dropHandle _ => false

/-- What follows the store of `signalExit`. -/
def afterStore : Task → Option Call
  | .signal _ ptr _ _ => some (.notify ptr)
  | _ => none

/-- The name of a worker: that of the builder, or the default one. -/
def workerName (name : Option String) (id : BitVec 64) : String :=
  name.getD ("wasm_safe_thread " ++ toString id.toNat)

section Step

variable [DecidableEq ρ] (S : Setup ρ) (x : Ctx ρ) (s : Shared ρ) (l : Local)

/-- An operation of `Worker.sys`, and what else it changes. -/
def lift (a : Worker.Act) (f : Worker.Shared ρ → Shared ρ) (g : Worker.Local → Local) :
    Option (Shared ρ × Local) :=
  (Worker.step S.host x a s.base l.base).map fun r => (f r.1, g r.2)

/-- The call in JavaScript goes on. -/
def proceed : Call → Shared ρ × Local
  | .notify ptr => ({ s with wait := Function.update s.wait ptr (s.wait ptr).notify }, { l with call := none })
  | .arm r =>
    if s.code r = 0 then (s.read r (.waiting x), { l with call := none })
    else (s.read r (.arming x), { l with call := some (.reload r) })
  | .reload r => (s.read r (.resolved x (s.code r)), { l with call := none })

/-- `wait_for_exit_async`, up to its first operation on the memory. -/
def waitForExit (r : ℕ) : Shared ρ × Local :=
  if s.code r ≠ 0 then (s.read r (.resolved x (s.code r)), l)
  else if S.waitAsync then (s.read r (.arming x), { l with call := some (.arm r) })
  else (s.read r (.polling x), l)

/-- What a context does that is in no call in JavaScript. -/
def perform : Act → Option (Shared ρ × Local)
  | .step => none
  | .base a =>
    if plain a then
      lift S x s l a (fun b => { s with base := b })
        fun b => { l with base := b, call := afterStore l.base.task }
    else none
  | .spawn name shimUrl =>
    lift S x s l (.spawn (workerName name s.counter) shimUrl)
      (fun b => { s.create name with
        base := b
        thread := Function.update s.thread s.base.requests.length (some s.threads.length) })
      fun b => { l with base := b }
  | .enter =>
    match l.base.phase with
    | .importing work =>
      lift S x s l .enter (fun b => { s with base := b })
        fun b => { l with base := b, current := s.thread work }
    | _ => none
  | .current =>
    if l.free then
      match l.current with
      | some _ => some (s, l)
      | none =>
        some (s.create (if S.isMainThread x then some "main" else none),
          { l with current := some s.threads.length })
    else none
  | .taskBegin => if l.free then some (s, l.taskBegin S.debug) else none
  | .taskFinished => if l.free then some (s, l.taskFinished S.debug) else none
  | .drain =>
    if l.base.phase = .entered ∧ l.base.task = .rest ∧ l.pending = 0 ∧ l.closing = false then
      match S.host, x with
      | .browser, _ =>
        lift S x s l .exit (fun b => { s with base := b })
          fun b => { l with base := b, drained := some l.begun }
      | .node, .worker _ => some (s, { l with closing := true, drained := some l.begun })
      | .node, .root _ => none
    else none
  | .exit =>
    if l.closing then lift S x s l .exit (fun b => { s with base := b }) fun b => { l with base := b }
    else none
  | .waitForExit r =>
    if l.free ∧ s.base.handle r = true ∧ s.wait r = .none then some (waitForExit S x s l r) else none
  | .settle r =>
    if l.free ∧ s.wait r = .woken x then some (s.read r (.resolved x (s.code r)), l) else none
  | .poll r =>
    if l.free ∧ s.wait r = .polling x then
      some (s.read r (if s.code r = 0 then .polling x else .resolved x (s.code r)), l)
    else none
  | .dropHandle r =>
    if (s.wait r).owner = none ∨ (s.wait r).owner = some x then
      lift S x s l (.dropHandle r) (fun b => { s with base := b }) fun b => { l with base := b }
    else none

/-- One operation of context `x`. -/
def step (a : Act) : Option (Shared ρ × Local) :=
  match l.call, a with
  | some k, .step => some (proceed x s l k)
  | some _, _ => none
  | none, a => perform S x s l a

end Step

/-- The contexts, with what they keep. -/
def sys [DecidableEq ρ] (S : Setup ρ) : System (Ctx ρ) (Shared ρ) Local Act Empty where
  step x a s l := step S x s l a
  env e _ := nomatch e

/-- The roots, before the first spawn and the first call of `current()`. -/
def init (S : Setup ρ) : Config (Ctx ρ) (Shared ρ) Local :=
  ⟨⟨.start, 0, [], fun _ => none, fun _ => .none, fun _ => false⟩,
    fun x => ⟨Local.start S.isWorker x, none, none, 0, false, 0, 0, none⟩⟩

/-- A browser, with one main thread. -/
def browser : Setup Unit := ⟨.browser, true, false, fun _ => false, fun _ => true⟩

/-! ### What one step can do -/

variable [DecidableEq ρ] {S : Setup ρ} {x : Ctx ρ} {a : Act} {s s₁ : Shared ρ} {l l₁ : Local}
  {c : Config (Ctx ρ) (Shared ρ) Local}

/-- The operations of context `x`. -/
inductive Move (S : Setup ρ) (x : Ctx ρ) (s : Shared ρ) (l : Local) : Act → Shared ρ → Local → Prop
  | base (a : Worker.Act) (hcall : l.call = none) (hplain : plain a = true) (b : Worker.Shared ρ)
      (bl : Worker.Local) (hs : Worker.step S.host x a s.base l.base = some (b, bl)) :
      Move S x s l (.base a) { s with base := b }
        { l with base := bl, call := afterStore l.base.task }
  | spawn (name : Option String) (shimUrl : String) (hcall : l.call = none) (b : Worker.Shared ρ)
      (bl : Worker.Local)
      (hs : Worker.step S.host x (.spawn (workerName name s.counter) shimUrl) s.base l.base =
        some (b, bl)) :
      Move S x s l (.spawn name shimUrl)
        { s.create name with
          base := b
          thread := Function.update s.thread s.base.requests.length (some s.threads.length) }
        { l with base := bl }
  /-- The closure sets `CURRENT_THREAD`. -/
  | enter (work : ℕ) (hcall : l.call = none) (hphase : l.base.phase = .importing work)
      (b : Worker.Shared ρ) (bl : Worker.Local)
      (hs : Worker.step S.host x .enter s.base l.base = some (b, bl)) :
      Move S x s l .enter { s with base := b } { l with base := bl, current := s.thread work }
  | notify (ptr : ℕ) (hcall : l.call = some (.notify ptr)) :
      Move S x s l .step { s with wait := Function.update s.wait ptr (s.wait ptr).notify }
        { l with call := none }
  /-- `Atomics.waitAsync` finds 0, or a code. -/
  | armed (r : ℕ) (hcall : l.call = some (.arm r)) (hcode : s.code r = 0) :
      Move S x s l .step (s.read r (.waiting x)) { l with call := none }
  | found (r : ℕ) (hcall : l.call = some (.arm r)) (hcode : s.code r ≠ 0) :
      Move S x s l .step (s.read r (.arming x)) { l with call := some (.reload r) }
  | reload (r : ℕ) (hcall : l.call = some (.reload r)) :
      Move S x s l .step (s.read r (.resolved x (s.code r))) { l with call := none }
  /-- `current()` in a context that has no thread, or has one. -/
  | create (hcall : l.call = none) (hfree : l.free) (hnone : l.current = none) :
      Move S x s l .current (s.create (if S.isMainThread x then some "main" else none))
        { l with current := some s.threads.length }
  | current (hcall : l.call = none) : Move S x s l .current s l
  | taskBegin (hcall : l.call = none) (hfree : l.free) :
      Move S x s l .taskBegin s (l.taskBegin S.debug)
  | taskFinished (hcall : l.call = none) (hfree : l.free) :
      Move S x s l .taskFinished s (l.taskFinished S.debug)
  | drain (hcall : l.call = none) (hphase : l.base.phase = .entered) (hpending : l.pending = 0)
      (hhost : S.host = .browser) (b : Worker.Shared ρ) (bl : Worker.Local)
      (hs : Worker.step S.host x .exit s.base l.base = some (b, bl)) :
      Move S x s l .drain { s with base := b } { l with base := bl, drained := some l.begun }
  | closePort (k : ℕ) (hx : x = .worker k) (hcall : l.call = none) (hphase : l.base.phase = .entered)
      (hpending : l.pending = 0) (hclosing : l.closing = false) (hhost : S.host = .node) :
      Move S x s l .drain s { l with closing := true, drained := some l.begun }
  | exit (hcall : l.call = none) (hclosing : l.closing = true) (b : Worker.Shared ρ)
      (bl : Worker.Local) (hs : Worker.step S.host x .exit s.base l.base = some (b, bl)) :
      Move S x s l .exit { s with base := b } { l with base := bl }
  /-- `wait_for_exit_async` finds a code at once, or goes on. -/
  | loaded (r : ℕ) (hcall : l.call = none) (hhandle : s.base.handle r = true) (hwait : s.wait r = .none)
      (hcode : s.code r ≠ 0) : Move S x s l (.waitForExit r) (s.read r (.resolved x (s.code r))) l
  | arm (r : ℕ) (hcall : l.call = none) (hhandle : s.base.handle r = true) (hwait : s.wait r = .none) :
      Move S x s l (.waitForExit r) (s.read r (.arming x)) { l with call := some (.arm r) }
  | startPolling (r : ℕ) (hcall : l.call = none) (hhandle : s.base.handle r = true)
      (hwait : s.wait r = .none) : Move S x s l (.waitForExit r) (s.read r (.polling x)) l
  | settle (r : ℕ) (hcall : l.call = none) (hwait : s.wait r = .woken x) :
      Move S x s l (.settle r) (s.read r (.resolved x (s.code r))) l
  | poll (r : ℕ) (hcall : l.call = none) (hwait : s.wait r = .polling x) :
      Move S x s l (.poll r) (s.read r (.polling x)) l
  | polled (r : ℕ) (hcall : l.call = none) (hwait : s.wait r = .polling x) (hcode : s.code r ≠ 0) :
      Move S x s l (.poll r) (s.read r (.resolved x (s.code r))) l
  | dropHandle (r : ℕ) (hcall : l.call = none)
      (howner : (s.wait r).owner = none ∨ (s.wait r).owner = some x) (b : Worker.Shared ρ)
      (bl : Worker.Local) (hs : Worker.step S.host x (.dropHandle r) s.base l.base = some (b, bl)) :
      Move S x s l (.dropHandle r) { s with base := b } { l with base := bl }

theorem lift_eq_some {b : Worker.Act} {f : Worker.Shared ρ → Shared ρ} {g : Worker.Local → Local}
    (h : lift S x s l b f g = some (s₁, l₁)) :
    ∃ t tl, Worker.step S.host x b s.base l.base = some (t, tl) ∧ s₁ = f t ∧ l₁ = g tl := by
  simp only [lift, Option.map_eq_some_iff, Prod.mk.injEq] at h
  obtain ⟨⟨t, tl⟩, hs, rfl, rfl⟩ := h
  exact ⟨t, tl, hs, rfl, rfl⟩

theorem proceed_move {k : Call} (hcall : l.call = some k) :
    Move S x s l .step (proceed x s l k).1 (proceed x s l k).2 := by
  cases k with
  | notify ptr => exact .notify ptr hcall
  | arm r =>
    unfold proceed
    dsimp only
    split
    · exact .armed r hcall ‹_›
    · exact .found r hcall ‹_›
  | reload r => exact .reload r hcall

theorem waitForExit_move {r : ℕ} (hcall : l.call = none) (hhandle : s.base.handle r = true)
    (hwait : s.wait r = .none) :
    Move S x s l (.waitForExit r) (waitForExit S x s l r).1 (waitForExit S x s l r).2 := by
  unfold waitForExit
  split
  · exact .loaded r hcall hhandle hwait ‹_›
  · split
    · exact .arm r hcall hhandle hwait
    · exact .startPolling r hcall hhandle hwait

theorem perform_move (hcall : l.call = none) (h : perform S x s l a = some (s₁, l₁)) :
    Move S x s l a s₁ l₁ := by
  cases a with
  | step => cases h
  | base a =>
    simp only [perform] at h
    split at h
    · obtain ⟨t, tl, hs, rfl, rfl⟩ := lift_eq_some h
      exact .base a hcall ‹_› t tl hs
    · cases h
  | spawn name shimUrl =>
    simp only [perform] at h
    obtain ⟨t, tl, hs, rfl, rfl⟩ := lift_eq_some h
    exact .spawn name shimUrl hcall t tl hs
  | enter =>
    simp only [perform] at h
    split at h
    · obtain ⟨t, tl, hs, rfl, rfl⟩ := lift_eq_some h
      exact .enter _ hcall ‹_› t tl hs
    · cases h
  | current =>
    simp only [perform] at h
    split at h
    · split at h <;> cases h
      · exact .current hcall
      · exact .create hcall ‹_› ‹_›
    · cases h
  | taskBegin =>
    simp only [perform] at h
    split at h <;> cases h
    exact .taskBegin hcall ‹_›
  | taskFinished =>
    simp only [perform] at h
    split at h <;> cases h
    exact .taskFinished hcall ‹_›
  | drain =>
    simp only [perform] at h
    split at h
    · rename_i hg
      obtain ⟨hphase, -, hpending, hclosing⟩ := hg
      split at h
      · obtain ⟨t, tl, hs, rfl, rfl⟩ := lift_eq_some h
        exact .drain hcall hphase hpending ‹_› t tl hs
      · cases h
        exact .closePort _ rfl hcall hphase hpending hclosing ‹_›
      · cases h
    · cases h
  | exit =>
    simp only [perform] at h
    split at h
    · obtain ⟨t, tl, hs, rfl, rfl⟩ := lift_eq_some h
      exact .exit hcall ‹_› t tl hs
    · cases h
  | waitForExit r =>
    simp only [perform] at h
    split at h
    · rename_i hg
      have hmove := waitForExit_move (S := S) (x := x) hcall hg.2.1 hg.2.2
      rwa [Option.some.inj h] at hmove
    · cases h
  | settle r =>
    simp only [perform] at h
    split at h <;> cases h
    rename_i hg
    exact .settle r hcall hg.2
  | poll r =>
    simp only [perform] at h
    split at h <;> cases h
    rename_i hg
    split
    · exact .poll r hcall hg.2
    · exact .polled r hcall hg.2 ‹_›
  | dropHandle r =>
    simp only [perform] at h
    split at h
    · obtain ⟨t, tl, hs, rfl, rfl⟩ := lift_eq_some h
      exact .dropHandle r hcall ‹_› t tl hs
    · cases h

theorem step_move (h : step S x s l a = some (s₁, l₁)) : Move S x s l a s₁ l₁ := by
  unfold step at h
  split at h
  · have hmove := proceed_move (S := S) (x := x) (s := s) ‹l.call = some _›
    rwa [Option.some.inj h] at hmove
  · cases h
  · exact perform_move ‹_› h

theorem Move.below (h : Move S x s l a s₁ l₁) :
    s₁.base = s.base ∧ l₁.base = l.base ∨
      ∃ b, Worker.step S.host x b s.base l.base = some (s₁.base, l₁.base) ∧
        (a = .base b ∨ plain b = false) := by
  cases h with
  | base b _ _ _ _ hs => exact .inr ⟨b, hs, .inl rfl⟩
  | spawn _ _ _ _ _ hs | enter _ _ _ _ _ hs | drain _ _ _ _ _ _ hs | exit _ _ _ _ hs
  | dropHandle _ _ _ _ _ hs => exact .inr ⟨_, hs, .inr rfl⟩
  | taskBegin =>
    refine .inl ⟨rfl, ?_⟩
    unfold Local.taskBegin
    split <;> rfl
  | taskFinished =>
    refine .inl ⟨rfl, ?_⟩
    unfold Local.taskFinished
    split <;> rfl
  | _ => exact .inl ⟨rfl, rfl⟩

/-- **The workers below.** -/
def toWorker (S : Setup ρ) : Projection (sys S) (Worker.sys S.host) where
  shared s := s.base
  loc l := l.base
  step h := by
    rcases (step_move h).below with hsame | ⟨b, hs, -⟩
    · exact .inl hsame
    · exact .inr (.inl ⟨b, hs⟩)
  env {e} := nomatch e

theorem worker_reachable (h : (sys S).Reachable (init S) c) :
    (Worker.sys S.host).Reachable (Worker.init S.isWorker) ((toWorker S).config c) :=
  (toWorker S).reachable h

end Context

end Worker

end WasmSafeThread
