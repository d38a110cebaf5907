import WasmSafeThread.Agents.Basic
import Mathlib.Data.Nat.Notation

/-!
# Workers

How `Builder::spawn` creates a worker on wasm, and how its `exit_state` is released (`wasm.rs`,
`wasm/thread_api.rs`).

The agents are the JavaScript contexts, all of them on one linear memory: the *roots* (the main thread,
workers that this crate has not created) and the workers that the crate creates, numbered in the order
of their creation.  A context does one thing at a time (`Task`); between two tasks it runs code of the
user or takes one event from one of its workers.

* In a browser the worker that spawns posts the request to its parent (`wstForwardSpawnToParent`), which
  forwards it again or creates the `Worker` (`wstSpawnBrowserWorkerDirect`).  Which of the two a context
  does depends on a flag that a worker sets when it receives its first message.  On Node every context
  creates its workers itself.
* Messages from a worker to its parent arrive in the order in which they were posted; error events
  arrive in any order with respect to them.
* A spawn allocates an `exit_state`, `[exit_code, ref_count]`, with `ref_count` 2.  The handlers of the
  events of a worker store the code and decrement the count, and so does, for the other reference,
  `JoinHandle::drop`; the one that finds 1 frees the memory.  JavaScript does it through a handler that
  is registered under a `Once`: the `Once` is in the linear memory, the handler in a context.

A request, its boxed closure and its `exit_state` are numbered together.  What every context has the same
of, `module` and `memory`, is left out of the messages.  `new Worker` and the message that starts a worker
do not throw here.
-/

namespace WasmSafeThread

namespace Worker

/-- The platform that the program runs on. -/
inductive Host where
  | browser
  | node
  deriving DecidableEq

/-- A JavaScript context. -/
inductive Ctx (ρ : Type*) where
  /-- A context that the crate has not created. -/
  | root (x : ρ)
  /-- The `k`-th worker. -/
  | worker (k : ℕ)
  deriving DecidableEq

/-- The payload of a spawn request. -/
structure Payload where
  /-- The pointer to the boxed closure. -/
  work : ℕ
  name : String
  shimUrl : String
  exitStatePtr : ℕ
  workerId : String
  entryName : String
  deriving DecidableEq

/-- `wasm_safe_thread_spawn_worker`: the payload of request `r`. -/
def Payload.new (r : ℕ) (name shimUrl : String) : Payload where
  work := r
  name := name
  shimUrl := shimUrl
  exitStatePtr := r
  workerId := name ++ "#" ++ toString r
  entryName := "wasm_safe_thread_entry_point"

/-- What a worker posts to its parent. -/
inductive Msg where
  /-- `__wst_relay_spawn`. -/
  | relaySpawn (p : Payload)
  /-- `__wasm_safe_thread_exit`, or on Node the event `'exit'` with code 0. -/
  | exit
  /-- `__wasm_safe_thread_error`, or on Node the event `'exit'` with another code. -/
  | error
  deriving DecidableEq

/-- What a worker receives from its parent. -/
structure StartMsg where
  work : ℕ
  /-- `__wst_parent_managed`. -/
  parentManaged : Bool
  deriving DecidableEq

/-- An `exit_state`, with its history. -/
structure ExitState where
  exitCode : ℕ
  refCount : BitVec 32
  /-- History: how often the worker side has begun to release its reference. -/
  begun : ℕ
  /-- History: the codes stored and the workers they were stored for, newest first. -/
  signals : List (Option ℕ × ℕ)
  /-- History: how often the worker side has decremented the count. -/
  decrements : ℕ
  /-- History: the `JoinHandle` has been dropped. -/
  dropped : Bool
  /-- History: how often the memory has been freed. -/
  frees : ℕ
  /-- History: the memory was accessed after it had been freed. -/
  late : Bool
  /-- History: a code other than 0 was overwritten by another one. -/
  changed : Bool
  deriving DecidableEq

namespace ExitState

/-- `[AtomicU32::new(0), AtomicU32::new(2)]`. -/
def new : ExitState := ⟨0, 2, 0, [], 0, false, 0, false, false⟩

variable (e : ExitState)

/-- An access to the memory. -/
def touch : ExitState := { e with late := e.late || decide (0 < e.frees) }

/-- The worker side begins to release its reference. -/
def begin : ExitState := { e with begun := e.begun + 1 }

/-- `signalExit` for worker `src`: the store.  The notification that follows changes nothing. -/
def signal (src : Option ℕ) (code : ℕ) : ExitState :=
  { e.touch with
    exitCode := code
    signals := (src, code) :: e.signals
    changed := e.changed || decide (e.exitCode ≠ 0 ∧ e.exitCode ≠ code) }

/-- `decrementRefCountAndCleanup`: `Atomics.sub`. -/
def decrement : ExitState :=
  { e.touch with refCount := e.refCount - 1, decrements := e.decrements + 1 }

/-- `JoinHandle::drop`: `fetch_sub`. -/
def dropHandle : ExitState := { e.touch with refCount := e.refCount - 1, dropped := true }

/-- The memory is freed.  Its words stay as they are here, but nothing is promised about them: `late` and
`Context.Shared.stale` note that it was accessed after this. -/
def free : ExitState := { e with frees := e.frees + 1 }

end ExitState

/-- What a context is doing.  `ret` is the request of the spawn that is in progress, if any: its
`JoinHandle` is returned at the end. -/
inductive Task where
  /-- Code of the user, or nothing. -/
  | rest
  /-- A spawn, before `INIT_HANDLERS.call_once`. -/
  | initHandlers (p : Payload)
  /-- Before `self.postMessage` in `wstForwardSpawnToParent`. -/
  | forward (p : Payload) (ret : Option ℕ)
  /-- Before `new Worker`. -/
  | create (p : Payload) (ret : Option ℕ)
  /-- Before the store of `signalExit`, for worker `src`. -/
  | signal (src : Option ℕ) (ptr code : ℕ) (ret : Option ℕ)
  /-- Before the `Atomics.sub` of `decrementRefCountAndCleanup`. -/
  | decrement (ptr : ℕ) (ret : Option ℕ)
  /-- Before the call of `__cleanup_handler`. -/
  | cleanup (ptr : ℕ) (ret : Option ℕ)
  /-- In `JoinHandle::drop`, before the memory is freed. -/
  | freeBox (ptr : ℕ)
  deriving DecidableEq

/-- How far the script of a worker is. -/
inductive Phase where
  /-- Before its first message. -/
  | unborn
  /-- In `await import(url)`. -/
  | importing (work : ℕ)
  /-- The entry point has been called: code of the user, and waiting for its tasks.  A root is always
  here. -/
  | entered
  /-- It has ended. -/
  | closed
  /-- In a browser, after the `catch` branch: what has been scheduled before still runs. -/
  | failed
  deriving DecidableEq

/-- The context runs code of the user, or takes events. -/
def Phase.runs : Phase → Bool
  | .entered | .failed => true
  | _ => false

/-- The variables of a context. -/
structure Local where
  /-- `wstIsWorkerGlobal()`. -/
  isWorker : Bool
  /-- `wstCanRelayToParent()`. -/
  canRelay : Bool
  /-- `__cleanup_handler` is set. -/
  cleanup : Bool
  phase : Phase
  task : Task
  deriving DecidableEq

/-- A `Worker`, with what its handlers have captured. -/
structure Created (ρ : Type*) where
  parent : Ctx ρ
  payload : Payload
  deriving DecidableEq

/-- A call of `Builder::spawn`. -/
structure Request (ρ : Type*) where
  ctx : Ctx ρ
  payload : Payload
  deriving DecidableEq

/-- Where a request is. -/
inductive Place (ρ : Type*) where
  /-- In the hands of a context, which is about to post it or to create the worker. -/
  | held (x : Ctx ρ)
  /-- In a relay message of worker `k`. -/
  | posted (k : ℕ)
  /-- Worker `k` was created for it. -/
  | created (k : ℕ)
  /-- `postMessage` has thrown. -/
  | thrown
  /-- Not in the program. -/
  | outside
  deriving DecidableEq

/-- The linear memory, the workers and the messages. -/
structure Shared (ρ : Type*) where
  /-- `INIT_HANDLERS` is done. -/
  initDone : Bool
  /-- The `exit_state` of each request. -/
  exits : ℕ → ExitState
  /-- The `JoinHandle` of a request exists. -/
  handle : ℕ → Bool
  /-- The workers, in the order of their creation. -/
  workers : List (Created ρ)
  /-- The messages to worker `k`. -/
  inbox : ℕ → List StartMsg
  /-- The messages of worker `k` to its parent. -/
  outbox : ℕ → List Msg
  /-- The error events of worker `k` that its parent has not taken. -/
  errors : ℕ → ℕ
  /-- History: the calls of `spawn`. -/
  requests : List (Request ρ)
  /-- History: where each request is. -/
  place : ℕ → Place ρ
  /-- History: how often the boxed closure of a request has been consumed. -/
  consumed : ℕ → ℕ
  /-- History: the messages about its end that the parent of worker `k` has taken. -/
  finals : ℕ → ℕ
  /-- History: the error events that the parent of worker `k` has taken. -/
  onerrors : ℕ → ℕ

/-- The operations of a context. -/
inductive Act where
  /-- Code of the user calls `Builder::spawn`. -/
  | spawn (name shimUrl : String)
  /-- The next operation of the task. -/
  | step
  /-- `self.postMessage` throws. -/
  | throws
  /-- The worker receives its first message. -/
  | start
  /-- The module has been imported, and the entry point is called. -/
  | enter
  /-- The script of the worker throws. -/
  | fail
  /-- The script of the worker ends. -/
  | exit
  /-- An error in code of the user that nothing catches. -/
  | uncaught
  /-- The first message of worker `k` is taken. -/
  | recv (k : ℕ)
  /-- An error event of worker `k` is taken. -/
  | recvError (k : ℕ)
  /-- `join_async` loads the exit code of request `r`. -/
  | load (r : ℕ)
  /-- `JoinHandle::drop`. -/
  | dropHandle (r : ℕ)
  deriving DecidableEq

variable {ρ : Type*}

namespace Shared

variable (s : Shared ρ)

/-- The `exit_state` of request `r` is changed. -/
def setExit (r : ℕ) (e : ExitState) : Shared ρ := { s with exits := Function.update s.exits r e }

/-- The request is somewhere else. -/
def setPlace (r : ℕ) (x : Place ρ) : Shared ρ := { s with place := Function.update s.place r x }

/-- Worker `k` posts a message to its parent. -/
def post (k : ℕ) (m : Msg) : Shared ρ :=
  { s with outbox := Function.update s.outbox k (s.outbox k ++ [m]) }

/-- The parent of worker `k` takes a message about its end. -/
def takeFinal (k : ℕ) : Shared ρ := { s with finals := Function.update s.finals k (s.finals k + 1) }

/-- The parent of worker `k` takes an error event of it. -/
def takeError (k : ℕ) : Shared ρ :=
  { s with
    errors := Function.update s.errors k (s.errors k - 1)
    onerrors := Function.update s.onerrors k (s.onerrors k + 1) }

/-- The end of a call: where it is a spawn, its `JoinHandle` is returned. -/
def finish : Option ℕ → Shared ρ
  | none => s
  | some r => { s with handle := Function.update s.handle r true }

/-- An error event of worker `k`. -/
def raise (k : ℕ) : Shared ρ := { s with errors := Function.update s.errors k (s.errors k + 1) }

end Shared

/-- "`wstIsWorkerGlobal() && wstCanRelayToParent()`", and whether there is a parent to ask at all. -/
def placeTask (host : Host) (l : Local) (relayed direct : Payload) (ret : Option ℕ) : Task :=
  match host with
  | .browser => if l.isWorker && l.canRelay then .forward relayed ret else .create direct ret
  | .node => .create direct ret

/-- `Builder::spawn` up to `spawn_with_shared_module`: the `exit_state` is allocated. -/
def spawn (x : Ctx ρ) (name shimUrl : String) (s : Shared ρ) (l : Local) : Shared ρ × Local :=
  let r := s.requests.length
  let p := Payload.new r name shimUrl
  ({ (s.setExit r .new).setPlace r (.held x) with requests := s.requests ++ [⟨x, p⟩] },
    { l with task := .initHandlers p })

/-- `new Worker`, and the message that starts it. -/
def create (host : Host) (x : Ctx ρ) (p : Payload) (s : Shared ρ) : Shared ρ :=
  let k := s.workers.length
  { s.setPlace p.exitStatePtr (.created k) with
    workers := s.workers ++ [⟨x, p⟩]
    inbox := Function.update s.inbox k (s.inbox k ++ [⟨p.work, decide (host = .browser)⟩]) }

/-- The worker side begins to release its reference, for worker `src`. -/
def release (src : Option ℕ) (ptr code : ℕ) (ret : Option ℕ) (s : Shared ρ) (l : Local) :
    Shared ρ × Local :=
  (s.setExit ptr (s.exits ptr).begin, { l with task := .signal src ptr code ret })

/-- `wstForwardSpawnToParent`: `self.postMessage`. -/
def forward (x : Ctx ρ) (p : Payload) (s : Shared ρ) : Shared ρ :=
  match x with
  | .worker k => (s.post k (.relaySpawn p)).setPlace p.exitStatePtr (.posted k)
  | .root _ => s.setPlace p.exitStatePtr .outside

/-- `w.onmessage`, or on Node `w.on('exit', …)`, for worker `k`. -/
def onMessage (host : Host) (x : Ctx ρ) (k : ℕ) (w : Created ρ) (s : Shared ρ) (l : Local) :
    Msg → Shared ρ × Local
  | .relaySpawn p =>
    -- the payload of a worker that is created here gets the entry name of worker `k`
    (s.setPlace p.exitStatePtr (.held x),
      { l with task := placeTask host l p { p with entryName := w.payload.entryName } none })
  | .exit => release (some k) w.payload.exitStatePtr 1 none (s.takeFinal k) l
  | .error => release (some k) w.payload.exitStatePtr 2 none (s.takeFinal k) l

/-- `w.onerror`, or on Node `w.on('error', …)`, which only logs. -/
def onError (host : Host) (k : ℕ) (w : Created ρ) (s : Shared ρ) (l : Local) : Shared ρ × Local :=
  match host with
  | .browser => release (some k) w.payload.exitStatePtr 2 none (s.takeError k) l
  | .node => (s.takeError k, l)

/-- The next operation of the task of a context. -/
def advance (host : Host) (x : Ctx ρ) (s : Shared ρ) (l : Local) : Option (Shared ρ × Local) :=
  match l.task with
  | .rest => none
  | .initHandlers p =>
    some ({ s with initDone := true },
      { l with
        cleanup := l.cleanup || !s.initDone
        task := placeTask host l p p (some p.exitStatePtr) })
  | .forward p ret => some ((forward x p s).finish ret, { l with task := .rest })
  | .create p ret => some ((create host x p s).finish ret, { l with task := .rest })
  | .signal src ptr code ret =>
    some (s.setExit ptr ((s.exits ptr).signal src code), { l with task := .decrement ptr ret })
  | .decrement ptr ret =>
    let s₁ := s.setExit ptr (s.exits ptr).decrement
    if (s.exits ptr).refCount = 1 ∧ l.cleanup = true then
      some (s₁, { l with task := .cleanup ptr ret })
    else some (s₁.finish ret, { l with task := .rest })
  | .cleanup ptr ret =>
    some ((s.setExit ptr (s.exits ptr).free).finish ret, { l with task := .rest })
  | .freeBox ptr => some (s.setExit ptr (s.exits ptr).free, { l with task := .rest })

/-- What the script of worker `k` does by itself. -/
def script (host : Host) (k : ℕ) (a : Act) (s : Shared ρ) (l : Local) : Option (Shared ρ × Local) :=
  match a, l.phase with
  | .start, .unborn =>
    match s.inbox k with
    | [] => none
    | m :: rest =>
      some ({ s with inbox := Function.update s.inbox k rest },
        { l with phase := .importing m.work, canRelay := l.canRelay || m.parentManaged })
  | .enter, .importing work =>
    some ({ s with consumed := Function.update s.consumed work (s.consumed work + 1) },
      { l with phase := .entered })
  | .fail, .importing _ | .fail, .entered =>
    match host with
    | .browser => some (s.post k .error, { l with phase := .failed })
    | .node => some ((s.post k .error).raise k, { l with phase := .closed })
  | .exit, .entered => some (s.post k .exit, { l with phase := .closed })
  | .uncaught, phase =>
    if host = .browser ∧ k < s.workers.length ∧ phase ≠ .closed then some (s.raise k, l) else none
  | _, _ => none

/-- One operation of context `x`. -/
def step [DecidableEq ρ] (host : Host) (x : Ctx ρ) (a : Act) (s : Shared ρ) (l : Local) :
    Option (Shared ρ × Local) :=
  match a with
  | .step => advance host x s l
  | .throws =>
    match l.task with
    | .forward p ret =>
      some (release none p.exitStatePtr 2 ret (s.setPlace p.exitStatePtr .thrown) l)
    | _ => none
  | .spawn name shimUrl =>
    if l.task = .rest ∧ l.phase.runs then some (spawn x name shimUrl s l) else none
  | .recv k =>
    match s.workers[k]?, s.outbox k with
    | some w, m :: rest =>
      if l.task = .rest ∧ l.phase.runs ∧ w.parent = x then
        some (onMessage host x k w { s with outbox := Function.update s.outbox k rest } l m)
      else none
    | _, _ => none
  | .recvError k =>
    match s.workers[k]? with
    | some w =>
      if l.task = .rest ∧ l.phase.runs ∧ w.parent = x ∧ 0 < s.errors k then
        some (onError host k w s l)
      else none
    | none => none
  | .load r =>
    if l.task = .rest ∧ l.phase.runs ∧ s.handle r then some (s.setExit r (s.exits r).touch, l)
    else none
  | .dropHandle r =>
    if l.task = .rest ∧ l.phase.runs ∧ s.handle r then
      some ({ s.setExit r (s.exits r).dropHandle with handle := Function.update s.handle r false },
        { l with task := if (s.exits r).refCount = 1 then .freeBox r else .rest })
    else none
  | .start | .enter | .fail | .exit | .uncaught =>
    match x with
    | .worker k => if l.task = .rest then script host k a s l else none
    | .root _ => none

/-- The contexts around the linear memory. -/
def sys [DecidableEq ρ] (host : Host) : System (Ctx ρ) (Shared ρ) Local Act Empty where
  step := step host
  env e _ := nomatch e

/-- The memory before the first spawn. -/
def Shared.start : Shared ρ where
  initDone := false
  exits _ := .new
  handle _ := false
  workers := []
  inbox _ := []
  outbox _ := []
  errors _ := 0
  requests := []
  place _ := .outside
  consumed _ := 0
  finals _ := 0
  onerrors _ := 0

/-- The variables of a context at its start; `isWorker` tells which of the roots are workers. -/
def Local.start (isWorker : ρ → Bool) : Ctx ρ → Local
  | .root x => ⟨isWorker x, false, false, .entered, .rest⟩
  | .worker _ => ⟨true, false, false, .unborn, .rest⟩

/-- The roots, before the first spawn. -/
def init (isWorker : ρ → Bool) : Config (Ctx ρ) (Shared ρ) Local :=
  ⟨.start, Local.start isWorker⟩

end Worker

end WasmSafeThread
