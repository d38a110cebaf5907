import WasmSafeThread.Mpsc.Wakeup
import WasmSafeThread.PanicHook

/-!
# A spawned thread and its `JoinHandle`

`spawn` and `Builder::spawn` of both backends (`stdlib.rs`, `wasm/thread_api.rs`), with
`run_spawn_hooks` (`hooks.rs`), and `JoinHandle::join` and `join_async`.

There are two parties, the thread and the owner of the `JoinHandle`, over the channel between them.
The hooks and the closure are code of the user: all that is known of them is whether they panic
(`Program`).  What differs between the spawn bodies is what happens then.

* Native: `run_spawn_hooks` is called before `catch_unwind`, which guards the closure alone.  A panic of
  a hook unwinds out of the thread, and its `Sender` is dropped.
* Wasm: a panic aborts.  Before that the panic hook in the process-wide slot is called; if it is the hook
  of a worker, it takes the `PANIC_SENDER` of the thread, which sends the error with a clone of the
  `Sender`.  Nothing is dropped.

The slot is not the thread's own: `take_hook` and `set_hook` of others are events.  Neither is the exit
code on wasm: the worker may report an error at any time, also when its closure has returned, because a
timer or a task of it has failed.
-/

namespace WasmSafeThread

namespace Spawn

/-- The two parties. -/
inductive Party where
  /-- The spawned thread. -/
  | thread
  /-- The owner of the `JoinHandle`. -/
  | joiner
  deriving DecidableEq

/-- The code that a thread runs: it returns a `V` or panics with an `E`. -/
structure Program (E V : Type*) where
  /-- The hooks that `run_spawn_hooks` has cloned: each returns, or panics. -/
  hooks : List (Option E)
  /-- `f`. -/
  closure : Except E V

/-- `join`, or `join_async`. -/
inductive Join where
  | sync
  | async
  deriving DecidableEq

/-- How a `join` or `join_async` ends. -/
inductive Joined (E V : Type*) where
  /-- `Ok(v)`. -/
  | ok (v : V)
  /-- `Err`, with the panic of the thread. -/
  | err (e : E)
  /-- Wasm: `Err`, with the text of the receive's error. -/
  | disconnected
  /-- Wasm: "Worker exited with error". -/
  | exitError
  /-- Wasm: "Can't join from the main thread on wasm32". -/
  | mainThread
  /-- Native: the panic "thread terminated without sending result". -/
  | panicked
  deriving DecidableEq

/-- What is left to do with the channel. -/
inductive Chan (E V : Type*) where
  /-- `send_sync`. -/
  | send (handle : ℕ) (r : Except E V)
  /-- The drop of a `Sender`. -/
  | drop (handle : ℕ)

/-- How a thread ends. -/
inductive Exit where
  /-- The closure of the thread has returned. -/
  | returned
  /-- A panic has left it. -/
  | unwound
  /-- The worker has aborted. -/
  | aborted
  deriving DecidableEq

/-- `exit_code`, when the worker reports its end. -/
def Exit.code : Exit → ℕ
  | .returned => 1
  | .unwound | .aborted => 2

/-- The control points of the two parties. -/
inductive Pc (E V : Type*) where
  /-- Wasm: before `send.clone()`. -/
  | cloneSender
  /-- Wasm: before `take_hook`. -/
  | takeHook
  /-- Wasm: before `set_hook`, with `prev_hook`. -/
  | setHook (prev : PanicHook.Hook)
  /-- In `run_spawn_hooks`, before the first of these hooks. -/
  | hooks (rest : List (Option E))
  /-- Before `f()`. -/
  | closure
  /-- After it, or after a panic. -/
  | finish (todo : List (Chan E V)) (e : Exit)
  /-- The thread has ended. -/
  | ended (e : Exit)
  /-- The owner has the `JoinHandle`. -/
  | handle
  /-- In the receive of `join` or `join_async`. -/
  | receiving (j : Join)
  /-- `join_async` on wasm: before `wait_for_exit_async` resolves. -/
  | awaitExit (v : V)
  /-- The result is known, or there is none: before `Receiver::drop`. -/
  | consumed (r : Option (Joined E V))
  /-- In that drop. -/
  | releasing (r : Option (Joined E V))
  /-- The `JoinHandle` is gone. -/
  | joined (r : Option (Joined E V))

variable {E V : Type*}

/-- The parts of the state that both parties, or others, act on. -/
structure Shared (E V : Type*) where
  /-- The channel. -/
  ch : Mpsc.Shared Party (Except E V)
  /-- The backend that the crate is compiled for. -/
  backend : Backend
  /-- The slot of the process-wide panic hook. -/
  panicHook : PanicHook.Hook
  /-- `exit_code`. -/
  exitCode : ℕ
  /-- `is_main_thread()` of the owner of the `JoinHandle`. -/
  isMainThread : Bool

/-- The local state of a party: its control point over the frames of the channel. -/
structure Local (E V : Type*) where
  ch : Mpsc.Local Party (Except E V)
  pc : Pc E V

/-- The operations of a party. -/
inductive Act where
  /-- The next operation. -/
  | step
  /-- Call `join` or `join_async`. -/
  | join (j : Join)
  /-- Drop the `JoinHandle`. -/
  | discard
  /-- The pending future of `join_async` is dropped. -/
  | cancel
  /-- A park returns without a token. -/
  | spurious
  /-- The token is consumed by a `park` of somebody else. -/
  | consume

/-- What others do. -/
inductive Env where
  | plat (e : Event Party)
  /-- `take_hook`. -/
  | takeHook
  /-- `set_hook`. -/
  | setHook (h : PanicHook.Hook)
  /-- Wasm: the worker reports an error, by `onerror` or its message, or exits with a code. -/
  | workerError

/-- The result of the thread: the first panic of a hook, or that of the closure. -/
def Program.result (p : Program E V) : Except E V :=
  match p.hooks.findSome? id with
  | some e => .error e
  | none => p.closure

/-- The `Result` that `join` and `join_async` make of the one received. -/
def Joined.ofResult : Except E V → Joined E V
  | .ok v => .ok v
  | .error e => .err e

namespace Local

/-- Move to control point `p`. -/
def goto (l : Local E V) (p : Pc E V) : Local E V := { l with pc := p }

@[simp] theorem goto_pc (l : Local E V) (p : Pc E V) : (l.goto p).pc = p := rfl
@[simp] theorem goto_ch (l : Local E V) (p : Pc E V) : (l.goto p).ch = l.ch := rfl

end Local

/-! ### The thread -/

/-- Where the closure of a thread starts. -/
def Program.start (p : Program E V) : Backend → Pc E V
  | .native => .hooks p.hooks
  | .wasm => .cloneSender

/-- A panic on wasm: the hook in the slot is called, on a thread whose `PANIC_SENDER` is set, and the
worker aborts. -/
def panicHook (slot : PanicHook.Hook) (e : E) : Pc E V :=
  if (slot.call true).2 then .finish [] .aborted
  else .finish [.send 1 (.error e), .drop 1] .aborted

/-- A hook panics. -/
def hookPanics (slot : PanicHook.Hook) (e : E) : Backend → Pc E V
  | .native => .finish [.drop 0] .unwound
  | .wasm => panicHook slot e

/-- `f` panics. -/
def closurePanics (slot : PanicHook.Hook) (e : E) : Backend → Pc E V
  -- `catch_unwind` returns `Err`
  | .native => .finish [.send 0 (.error e), .drop 0] .returned
  | .wasm => panicHook slot e

/-- `f` returns. -/
def closureReturns (v : V) : Backend → Pc E V
  | .native => .finish [.send 0 (.ok v), .drop 0] .returned
  -- `PANIC_SENDER` is cleared first
  | .wasm => .finish [.drop 1, .send 0 (.ok v), .drop 0] .returned

/-! ### The owner of the `JoinHandle` -/

/-- The receive that `join` or `join_async` calls. -/
def Join.how : Join → Mpsc.How
  | .sync => .sync
  | .async => .async

/-- After the receive. -/
def received (j : Join) : Backend → Mpsc.Outcome (Except E V) → Pc E V
  | .native, .ok r => .consumed (some (.ofResult r))
  | .native, _ => .consumed (some .panicked)
  | .wasm, .ok (.error e) => .consumed (some (.err e))
  | .wasm, .ok (.ok v) => match j with
    | .sync => .consumed (some (.ok v))
    | .async => .awaitExit v
  | .wasm, _ => .consumed (some .disconnected)

section Step

variable [DecidableEq E] [DecidableEq V]

/-- An operation on the channel, after which the party is at `p`. -/
def lift (i : Party) (a : Mpsc.Act (Except E V)) (s : Shared E V) (l : Local E V) (p : Pc E V) :
    Option (Shared E V × Local E V) :=
  (Mpsc.step i a s.ch l.ch).map fun r => ({ s with ch := r.1 }, ⟨r.2, p⟩)

/-- A call on the channel goes on; when the receive returns, its result is looked at. -/
def below (i : Party) (a : Mpsc.Act (Except E V)) (s : Shared E V) (l : Local E V) :
    Option (Shared E V × Local E V) :=
  (Mpsc.step i a s.ch l.ch).map fun r => ({ s with ch := r.1 },
    ⟨r.2, match l.pc, l.ch.pc, r.2.pc with
      | .receiving j, .recvReturn _ o, .ready => received j s.backend o
      | pc, _, _ => pc⟩)

/-- The next operation of a party that is in no call on the channel. -/
def advance (p : Program E V) (i : Party) (s : Shared E V) (l : Local E V) :
    Option (Shared E V × Local E V) :=
  match l.pc with
  | .cloneSender => lift i (.clone 0) s l .takeHook
  | .takeHook => some ({ s with panicHook := .default }, l.goto (.setHook s.panicHook))
  | .setHook prev => some ({ s with panicHook := .worker prev }, l.goto (.hooks p.hooks))
  | .hooks [] => some (s, l.goto .closure)
  | .hooks (none :: rest) => some (s, l.goto (.hooks rest))
  | .hooks (some e :: _) => some (s, l.goto (hookPanics s.panicHook e s.backend))
  | .closure =>
    match p.closure with
    | .ok v => some (s, l.goto (closureReturns v s.backend))
    | .error e => some (s, l.goto (closurePanics s.panicHook e s.backend))
  | .finish (.send k r :: todo) e => lift i (.send .sync k r) s l (.finish todo e)
  | .finish (.drop k :: todo) e => lift i (.dropSender k) s l (.finish todo e)
  | .finish [] e => some ({ s with exitCode := e.code }, l.goto (.ended e))
  | .awaitExit v =>
    if s.exitCode = 0 then none
    else some (s, l.goto (.consumed (some (if s.exitCode = 2 then .exitError else .ok v))))
  | .consumed r => lift i .dropReceiver s l (.releasing r)
  | .releasing r => some (s, l.goto (.joined r))
  | .ended _ | .handle | .receiving _ | .joined _ => none

/-- One operation of a party. -/
def step (p : Program E V) (i : Party) (a : Act) (s : Shared E V) (l : Local E V) :
    Option (Shared E V × Local E V) :=
  match a, l.pc with
  | .step, _ => if l.ch.pc = .ready then advance p i s l else below i .step s l
  | .spurious, _ => below i .spurious s l
  | .consume, pc => lift i .consume s l pc
  | .join j, .handle =>
    if s.backend = .wasm ∧ j = .sync ∧ s.isMainThread = true then
      some (s, l.goto (.consumed (some .mainThread)))
    else lift i (.recv (.recv j.how none)) s l (.receiving j)
  | .discard, .handle => some (s, l.goto (.consumed none))
  | .cancel, .receiving .async => lift i .cancel s l (.consumed none)
  | .cancel, .awaitExit _ => some (s, l.goto (.consumed none))
  | _, _ => none

/-- What others do to the shared state. -/
def env (e : Env) (s : Shared E V) : Option (Shared E V) :=
  match e with
  | .plat e => (s.ch.cv.mx.plat.apply e).map fun q => { s with ch := s.ch.setPlat q }
  | .takeHook => some { s with panicHook := .default }
  | .setHook h => some { s with panicHook := h }
  | .workerError => if s.backend = .wasm then some { s with exitCode := 2 } else none

/-- A thread with the program `p`, and the owner of its `JoinHandle`. -/
def sys (p : Program E V) : System Party (Shared E V) (Local E V) Act Env where
  step := step p
  env := env

end Step

/-- The thread has been spawned, on a platform `plat`, with this panic hook in the slot. -/
def init (p : Program E V) (plat : Platform Party) (hook : PanicHook.Hook) (isMainThread : Bool) :
    Config Party (Shared E V) (Local E V) :=
  ⟨⟨.new plat, plat.backend, hook, 0, isMainThread⟩, fun i => ⟨⟨⟨⟨.idle, none⟩, .ready, false⟩, .ready⟩, match i with
    | .thread => p.start plat.backend
    | .joiner => .handle⟩⟩

/-! ### The channel -/

section Moves

variable [DecidableEq E] [DecidableEq V] {p : Program E V} {i : Party} {a : Act} {s s₁ : Shared E V}
  {l l₁ : Local E V} {pc : Pc E V} {c : Config Party (Shared E V) (Local E V)}

theorem lift_eq_some {b : Mpsc.Act (Except E V)} (h : lift i b s l pc = some (s₁, l₁)) :
    ∃ ch lch, Mpsc.step i b s.ch l.ch = some (ch, lch) ∧ s₁ = { s with ch := ch } ∧ l₁ = ⟨lch, pc⟩ := by
  simp only [lift, Option.map_eq_some_iff, Prod.mk.injEq] at h
  obtain ⟨⟨ch, lch⟩, hs, rfl, rfl⟩ := h
  exact ⟨ch, lch, hs, rfl, rfl⟩

/-- Where a party is after an operation below. -/
def belowPc (s : Shared E V) (l : Local E V) (lch : Mpsc.Local Party (Except E V)) : Pc E V :=
  match l.pc, l.ch.pc, lch.pc with
  | .receiving j, .recvReturn _ o, .ready => received j s.backend o
  | pc, _, _ => pc

theorem below_eq_some {b : Mpsc.Act (Except E V)} (h : below i b s l = some (s₁, l₁)) :
    ∃ ch lch, Mpsc.step i b s.ch l.ch = some (ch, lch) ∧ s₁ = { s with ch := ch } ∧
      l₁ = ⟨lch, belowPc s l lch⟩ := by
  simp only [below, Option.map_eq_some_iff, Prod.mk.injEq] at h
  obtain ⟨⟨ch, lch⟩, hs, rfl, rfl⟩ := h
  exact ⟨ch, lch, hs, rfl, rfl⟩

/-- What an operation does. -/
inductive Move (p : Program E V) (i : Party) (s : Shared E V) (l : Local E V) :
    Act → Shared E V → Local E V → Prop
  /-- A call on the channel goes on. -/
  | below (a : Act) (b : Mpsc.Act (Except E V)) (hb : b = .step ∧ l.ch.pc ≠ .ready ∨ b = .spurious)
      (ha : a = .step ∨ a = .spurious) (ch : Mpsc.Shared Party (Except E V))
      (lch : Mpsc.Local Party (Except E V)) (h : Mpsc.step i b s.ch l.ch = some (ch, lch)) :
      Move p i s l a { s with ch := ch } ⟨lch, belowPc s l lch⟩
  /-- A call on the channel starts. -/
  | call (b : Mpsc.Act (Except E V)) (pc : Pc E V) (hp : l.ch.pc = .ready)
      (hb : l.pc = .cloneSender ∧ b = .clone 0 ∧ pc = .takeHook ∨
        (∃ k r todo e, l.pc = .finish (.send k r :: todo) e ∧ b = .send .sync k r ∧ pc = .finish todo e) ∨
        (∃ k todo e, l.pc = .finish (.drop k :: todo) e ∧ b = .dropSender k ∧ pc = .finish todo e) ∨
        ∃ r, l.pc = .consumed r ∧ b = .dropReceiver ∧ pc = .releasing r)
      (ch : Mpsc.Shared Party (Except E V)) (lch : Mpsc.Local Party (Except E V))
      (h : Mpsc.step i b s.ch l.ch = some (ch, lch)) :
      Move p i s l .step { s with ch := ch } ⟨lch, pc⟩
  /-- The panic hook is taken, or set. -/
  | takeHook (hp : l.pc = .takeHook) (hready : l.ch.pc = .ready) :
      Move p i s l .step { s with panicHook := .default } (l.goto (.setHook s.panicHook))
  | setHook (prev : PanicHook.Hook) (hp : l.pc = .setHook prev) (hready : l.ch.pc = .ready) :
      Move p i s l .step { s with panicHook := .worker prev } (l.goto (.hooks p.hooks))
  /-- A hook returns, or all have. -/
  | hook (rest : List (Option E)) (hp : l.pc = .hooks (none :: rest)) (hready : l.ch.pc = .ready) :
      Move p i s l .step s (l.goto (.hooks rest))
  | hooksDone (hp : l.pc = .hooks []) (hready : l.ch.pc = .ready) :
      Move p i s l .step s (l.goto .closure)
  /-- A panic. -/
  | hookPanics (e : E) (rest : List (Option E)) (hp : l.pc = .hooks (some e :: rest))
      (hready : l.ch.pc = .ready) :
      Move p i s l .step s (l.goto (hookPanics s.panicHook e s.backend))
  | closurePanics (e : E) (hp : l.pc = .closure) (hready : l.ch.pc = .ready) (he : p.closure = .error e) :
      Move p i s l .step s (l.goto (closurePanics s.panicHook e s.backend))
  | closureReturns (v : V) (hp : l.pc = .closure) (hready : l.ch.pc = .ready) (hv : p.closure = .ok v) :
      Move p i s l .step s (l.goto (closureReturns v s.backend))
  /-- The thread ends. -/
  | ends (e : Exit) (hp : l.pc = .finish [] e) (hready : l.ch.pc = .ready) :
      Move p i s l .step { s with exitCode := e.code } (l.goto (.ended e))
  /-- `join` or `join_async` is called. -/
  | join (j : Join) (hp : l.pc = .handle)
      (hmain : ¬ (s.backend = .wasm ∧ j = .sync ∧ s.isMainThread = true))
      (ch : Mpsc.Shared Party (Except E V)) (lch : Mpsc.Local Party (Except E V))
      (h : Mpsc.step i (.recv (.recv j.how none)) s.ch l.ch = some (ch, lch)) :
      Move p i s l (.join j) { s with ch := ch } ⟨lch, .receiving j⟩
  | joinMain (j : Join) (hp : l.pc = .handle)
      (hmain : s.backend = .wasm ∧ j = .sync ∧ s.isMainThread = true) :
      Move p i s l (.join j) s (l.goto (.consumed (some .mainThread)))
  | discard (hp : l.pc = .handle) : Move p i s l .discard s (l.goto (.consumed none))
  /-- The worker has exited. -/
  | exited (v : V) (hp : l.pc = .awaitExit v) (hready : l.ch.pc = .ready) (hcode : s.exitCode ≠ 0) :
      Move p i s l .step s
        (l.goto (.consumed (some (if s.exitCode = 2 then .exitError else .ok v))))
  /-- The future is dropped. -/
  | cancel (hp : l.pc = .receiving .async) (ch : Mpsc.Shared Party (Except E V))
      (lch : Mpsc.Local Party (Except E V)) (h : Mpsc.step i .cancel s.ch l.ch = some (ch, lch)) :
      Move p i s l .cancel { s with ch := ch } ⟨lch, .consumed none⟩
  | cancelExit (v : V) (hp : l.pc = .awaitExit v) : Move p i s l .cancel s (l.goto (.consumed none))
  /-- The `JoinHandle` is gone. -/
  | released (r : Option (Joined E V)) (hp : l.pc = .releasing r) (hready : l.ch.pc = .ready) :
      Move p i s l .step s (l.goto (.joined r))
  | consume (ch : Mpsc.Shared Party (Except E V)) (lch : Mpsc.Local Party (Except E V))
      (h : Mpsc.step i .consume s.ch l.ch = some (ch, lch)) :
      Move p i s l .consume { s with ch := ch } ⟨lch, l.pc⟩

theorem advance_move (hready : l.ch.pc = .ready) (h : advance p i s l = some (s₁, l₁)) :
    Move p i s l .step s₁ l₁ := by
  cases hp : l.pc with
  | ended | handle | receiving | joined => simp [advance, hp] at h
  | cloneSender =>
    simp only [advance, hp] at h
    obtain ⟨ch, lch, hs, rfl, rfl⟩ := lift_eq_some h
    exact .call _ _ hready (.inl ⟨hp, rfl, rfl⟩) ch lch hs
  | takeHook =>
    simp only [advance, hp] at h
    cases h
    exact .takeHook hp hready
  | setHook prev =>
    simp only [advance, hp] at h
    cases h
    exact .setHook prev hp hready
  | hooks rest =>
    rcases rest with _ | ⟨_ | e, rest⟩ <;> simp only [advance, hp] at h <;> cases h
    · exact .hooksDone hp hready
    · exact .hook rest hp hready
    · exact .hookPanics e rest hp hready
  | closure =>
    cases hf : p.closure <;> simp only [advance, hp, hf] at h <;> cases h
    · exact .closurePanics _ hp hready hf
    · exact .closureReturns _ hp hready hf
  | finish todo e =>
    rcases todo with _ | ⟨⟨k, r⟩ | k, todo⟩ <;> simp only [advance, hp] at h
    · cases h
      exact .ends e hp hready
    · obtain ⟨ch, lch, hs, rfl, rfl⟩ := lift_eq_some h
      exact .call _ _ hready (.inr (.inl ⟨k, r, todo, e, hp, rfl, rfl⟩)) ch lch hs
    · obtain ⟨ch, lch, hs, rfl, rfl⟩ := lift_eq_some h
      exact .call _ _ hready (.inr (.inr (.inl ⟨k, todo, e, hp, rfl, rfl⟩))) ch lch hs
  | awaitExit v =>
    simp only [advance, hp] at h
    split at h
    · cases h
    · cases h
      exact .exited v hp hready ‹_›
  | consumed r =>
    simp only [advance, hp] at h
    obtain ⟨ch, lch, hs, rfl, rfl⟩ := lift_eq_some h
    exact .call _ _ hready (.inr (.inr (.inr ⟨r, hp, rfl, rfl⟩))) ch lch hs
  | releasing r =>
    simp only [advance, hp] at h
    cases h
    exact .released r hp hready

theorem step_move (h : step p i a s l = some (s₁, l₁)) : Move p i s l a s₁ l₁ := by
  cases a with
  | step =>
    simp only [step] at h
    split at h
    · exact advance_move ‹_› h
    · obtain ⟨ch, lch, hs, rfl, rfl⟩ := below_eq_some h
      exact .below _ .step (.inl ⟨rfl, ‹_›⟩) (.inl rfl) ch lch hs
  | spurious =>
    simp only [step] at h
    obtain ⟨ch, lch, hs, rfl, rfl⟩ := below_eq_some h
    exact .below _ .spurious (.inr rfl) (.inr rfl) ch lch hs
  | consume =>
    simp only [step] at h
    obtain ⟨ch, lch, hs, rfl, rfl⟩ := lift_eq_some h
    exact .consume ch lch hs
  | join j =>
    cases hp : l.pc <;> simp only [step, hp, reduceCtorEq] at h
    split at h
    · cases h
      exact .joinMain j hp ‹_›
    · obtain ⟨ch, lch, hs, rfl, rfl⟩ := lift_eq_some h
      exact .join j hp ‹_› ch lch hs
  | discard =>
    cases hp : l.pc <;> simp only [step, hp, reduceCtorEq] at h
    cases h
    exact .discard hp
  | cancel =>
    cases hp : l.pc with
    | receiving j =>
      cases j <;> simp only [step, hp, reduceCtorEq] at h
      obtain ⟨ch, lch, hs, rfl, rfl⟩ := lift_eq_some h
      exact .cancel hp ch lch hs
    | awaitExit v =>
      simp only [step, hp] at h
      cases h
      exact .cancelExit v hp
    | _ => simp only [step, hp, reduceCtorEq] at h

theorem env_eq_some {e : Env} (h : (sys p).env e s = some s₁) :
    (∃ e' q, s.ch.cv.mx.plat.apply e' = some q ∧ s₁ = { s with ch := s.ch.setPlat q }) ∨
      (∃ hook, s₁ = { s with panicHook := hook }) ∨ s₁ = { s with exitCode := 2 } := by
  cases e with
  | plat e =>
    simp only [sys, env, Option.map_eq_some_iff] at h
    obtain ⟨q, hq, rfl⟩ := h
    exact .inl ⟨e, q, hq, rfl⟩
  | takeHook | setHook =>
    cases h
    exact .inr (.inl ⟨_, rfl⟩)
  | workerError =>
    simp only [sys, env] at h
    split at h <;> cases h
    exact .inr (.inr rfl)

/-- **The channel under the two parties.** -/
def toMpsc (p : Program E V) : Projection (sys p) (Mpsc.sys (ι := Party) (T := Except E V)) where
  shared s := s.ch
  loc l := l.ch
  step h := by
    cases step_move h with
    | below _ b _ _ _ _ hs => exact .inr (.inl ⟨b, hs⟩)
    | call b _ _ _ _ _ hs => exact .inr (.inl ⟨b, hs⟩)
    | join j _ _ _ _ hs => exact .inr (.inl ⟨.recv (.recv j.how none), hs⟩)
    | cancel _ _ _ hs => exact .inr (.inl ⟨.cancel, hs⟩)
    | consume _ _ hs => exact .inr (.inl ⟨.consume, hs⟩)
    | _ => exact .inl ⟨rfl, rfl⟩
  env h := by
    rcases env_eq_some h with ⟨e, q, hq, rfl⟩ | ⟨hook, rfl⟩ | rfl
    · exact .inr ⟨e, by simp [Mpsc.sys, hq]⟩
    · exact .inl rfl
    · exact .inl rfl

variable {plat : Platform Party} {hook : PanicHook.Hook} {isMainThread : Bool}

theorem mpsc_reachable (h : (sys p).Reachable (init p plat hook isMainThread) c) :
    Mpsc.sys.Reachable (Mpsc.init plat) ((toMpsc p).config c) :=
  (toMpsc p).reachable h

end Moves

end Spawn

end WasmSafeThread
