import WasmSafeThread.Condvar.Basic
import Mathlib.Data.Finset.Card

/-!
# The channel

`mpsc` (`mpsc.rs`): the queue in its mutex, the condition variable, `sender_count` and
`receiver_active`, one atomic operation per step.

An agent is a thread or a task; its call stack has a third frame, the call on the channel (`Pc`),
over the frames of the condition variable and the mutex.  While a call below is in progress only
that call moves.

What Rust guarantees by ownership is part of the state: the `Sender`s that exist (`handles`), the
calls that borrow each of them (`borrows`), and the receives that borrow the `Receiver`
(`receiving`).  The `Receiver` is not `Sync`: its receives run on one thread, and another one can
run only while the others are suspended at an `await` (`running`).

`sender_count` is a natural number: each `Sender` also holds a reference count of the `Arc`, whose
overflow aborts long before `usize` wraps.

`tickets`, `pushed`, `sends` and `results` are history variables.  No operation reads them, but to
write the history.
-/

namespace WasmSafeThread

namespace Mpsc

/-- The suffix of an operation. -/
inductive How where
  | spin
  | block
  | sync
  | async
  deriving DecidableEq

/-- `lock_spin`, `lock_block`, `lock_sync`, `lock_async` and their timed forms. -/
def How.lock (canBlock : Bool) : How → Option ℕ → Mutex.Op
  | .spin, deadline => .lockSpin deadline
  | .block, deadline => .lockWait .sync deadline
  | .sync, deadline => .lockSync canBlock deadline
  | .async, deadline => .lockWait .async deadline

/-- `wait_spin`, `wait_block`, `wait_sync`, `wait_async` and their timed forms. -/
def How.wait {R D : Type*} (canBlock : Bool) : How → Option ℕ → Condvar.Act R D
  | .spin, deadline => .wait .spin deadline
  | .block, deadline => .wait .sync deadline
  | .sync, deadline => Condvar.waitSync canBlock deadline
  | .async, deadline => .wait .async deadline

/-- A call of `send_*`. -/
structure Send (T : Type*) where
  how : How
  /-- The `Sender` it borrows. -/
  handle : ℕ
  value : T
  /-- History: the number of the call. -/
  ticket : ℕ
  /-- History: the call started after `Receiver::drop`. -/
  late : Bool
  deriving DecidableEq

/-- The receive operations. -/
inductive RecvOp where
  | tryRecv
  /-- `recv_*`, or `recv_*_timeout`. -/
  | recv (how : How) (deadline : Option ℕ)
  deriving DecidableEq

/-- A call of a receive operation. -/
structure Recv where
  op : RecvOp
  /-- History: the call started after some receive had returned `Disconnected`. -/
  late : Bool
  deriving DecidableEq

/-- The results of the receive operations. -/
inductive Outcome (T : Type*) where
  /-- `Ok(t)`. -/
  | ok (t : T)
  /-- `Err(TryRecvError::Empty)`. -/
  | empty
  /-- `Err(RecvTimeoutError::Timeout)`. -/
  | timeout
  /-- `Err(Disconnected)`. -/
  | disconnected
  deriving DecidableEq

/-- `Result::ok`. -/
def Outcome.ok? {T : Type*} : Outcome T → Option T
  | .ok t => some t
  | _ => none

/-- `IntoIter::next` is `self.rx.recv_sync().ok()`. -/
def intoIterNext : RecvOp := .recv .sync none

/-- The control points of a call on the channel. -/
inductive Pc (T : Type*) where
  /-- No call. -/
  | ready
  /-- `send_*`: before the first `receiver_active.load`. -/
  | sendLoad (x : Send T)
  /-- Before the lock of the queue. -/
  | sendLock (x : Send T)
  /-- In that call; then, with the guard, before the second `receiver_active.load`. -/
  | sendRecheck (x : Send T)
  /-- Before `queue.push_back(t)`. -/
  | sendPush (x : Send T)
  /-- Before `drop(queue)`. -/
  | sendDrop (x : Send T)
  /-- In `drop(queue)`; then before `notify_one`. -/
  | sendNotify (x : Send T)
  /-- In `notify_one`; then before `Ok(())`. -/
  | sendReturn (x : Send T)
  /-- The receiver is gone: before the drop of the guard. -/
  | sendReject (x : Send T)
  /-- In that drop, or without a guard; then before `Err(SendError(t))`. -/
  | sendErr (x : Send T)
  /-- A receive: before the lock of the queue. -/
  | recvLock (y : Recv)
  /-- In that call, or just back from a wait; then, with the guard, before `queue.pop_front()`. -/
  | recvPop (y : Recv)
  /-- Before `sender_count.load`. -/
  | recvLoad (y : Recv)
  /-- Before the wait. -/
  | recvWait (y : Recv)
  /-- In the wait; then before `result.timed_out()`. -/
  | recvWaited (y : Recv)
  /-- The result is known: before the drop of the guard. -/
  | recvDrop (y : Recv) (r : Outcome T)
  /-- In that drop, or without a guard; then before the return. -/
  | recvReturn (y : Recv) (r : Outcome T)
  /-- `Sender::drop` of the last sender: before `notify_all`. -/
  | senderNotify
  /-- In that `notify_all`. -/
  | senderReturn
  /-- `Receiver::drop`: before `notify_all`. -/
  | receiverNotify
  /-- In that `notify_all`. -/
  | receiverReturn
  deriving DecidableEq

/-- The fields of `Shared<T>`, what the ownership of the handles adds, and the history. -/
structure Shared (ι T : Type*) where
  /-- `queue` and `condvar`. -/
  cv : Condvar.Shared ι (Option T) (List T)
  /-- `sender_count`. -/
  senderCount : ℕ
  /-- `receiver_active`; it is cleared when the `Receiver` is dropped. -/
  receiverActive : Bool
  /-- The `Sender`s that exist. -/
  handles : Finset ℕ
  /-- The next `Sender`. -/
  nextHandle : ℕ
  /-- The agents in a call on this `Sender`. -/
  borrows : ℕ → Finset ι
  /-- The agents in a receive. -/
  receiving : Finset ι
  /-- The receive that runs on the thread of the `Receiver`. -/
  running : Option ι
  /-- History: the number of the next send. -/
  tickets : ℕ
  /-- History: the sends whose value was pushed, in the order of the pushes. -/
  pushed : List (Send T)
  /-- History: the sends that returned, with their results. -/
  sends : List (Send T × Except T Unit)
  /-- History: the receives that returned, with their results. -/
  results : List (Recv × Outcome T)

/-- The local state of an agent. -/
structure Local (ι T : Type*) where
  cv : Condvar.Local ι (Option T)
  pc : Pc T

/-- The operations of an agent. -/
inductive Act (T : Type*) where
  /-- Call `send_*` on a `Sender`. -/
  | send (how : How) (handle : ℕ) (t : T)
  /-- Call a receive operation. -/
  | recv (op : RecvOp)
  /-- `Sender::clone`: `sender_count.fetch_add(1)`. -/
  | clone (handle : ℕ)
  /-- `Sender::drop`: `sender_count.fetch_sub(1)`. -/
  | dropSender (handle : ℕ)
  /-- `Receiver::drop`: `receiver_active.store(false)`. -/
  | dropReceiver
  /-- The token is consumed by a `park` of somebody else. -/
  | consume
  /-- The next atomic operation of the call in progress. -/
  | step
  /-- A park returns without a token. -/
  | spurious
  /-- The pending future is dropped. -/
  | cancel

variable {ι T : Type*}

/-- `queue.push_back(t)`. -/
def pushBack (t : T) : Mutex.Access (Option T) (List T) := fun x => (x.1, x.2 ++ [t])

/-- `queue.pop_front()`; the register gets the result. -/
def popFront : Mutex.Access (Option T) (List T) := fun x => (x.2.head?, x.2.tail)

/-- The agent is in a send. -/
def Pc.sends : Pc T → Option (Send T)
  | .sendLoad x | .sendLock x | .sendRecheck x | .sendPush x | .sendDrop x | .sendNotify x
  | .sendReturn x | .sendReject x | .sendErr x => some x
  | _ => none

/-- The agent is in a receive. -/
def Pc.receives : Pc T → Option Recv
  | .recvLock y | .recvPop y | .recvLoad y | .recvWait y | .recvWaited y | .recvDrop y _
  | .recvReturn y _ => some y
  | _ => none

/-- The call is suspended at an `await`, and the thread runs something else. -/
def suspended (l : Condvar.Local ι (Option T)) : Bool :=
  match l.mx.pc, l.pc with
  | .await _, _ | .race _ _ _, _ | _, .await _ | _, .race _ _ => true
  | _, _ => false

namespace Local

/-- Move to control point `p`. -/
def goto (l : Local ι T) (p : Pc T) : Local ι T := { l with pc := p }

@[simp, grind =] theorem goto_pc (l : Local ι T) (p : Pc T) : (l.goto p).pc = p := rfl
@[simp, grind =] theorem goto_cv (l : Local ι T) (p : Pc T) : (l.goto p).cv = l.cv := rfl

end Local

namespace Shared

variable (s : Shared ι T)

/-- The contents of the queue. -/
def queue : List T := s.cv.mx.inner

/-- The platform changes. -/
def setPlat (p : Platform ι) : Shared ι T := { s with cv := s.cv.setPlat p }

/-- History: some receive has returned `Disconnected`. -/
def disconnected [DecidableEq T] : Bool := s.results.any fun z => z.2 = .disconnected

end Shared

section Step

variable [DecidableEq ι] [DecidableEq T]

/-- An operation on the condition variable or the mutex, after which the call on the channel is at
`p`. -/
def lift (i : ι) (a : Condvar.Act (Option T) (List T)) (s : Shared ι T) (l : Local ι T)
    (p : Pc T) : Option (Shared ι T × Local ι T) :=
  (Condvar.step i a s.cv l.cv).map fun r => ({ s with cv := r.1 }, { l with cv := r.2, pc := p })

/-- The call of a send returns. -/
def returnSend (i : ι) (x : Send T) (r : Except T Unit) (s : Shared ι T) : Shared ι T :=
  { s with
    borrows := Function.update s.borrows x.handle (s.borrows x.handle \ {i})
    sends := s.sends ++ [(x, r)] }

/-- The call of a receive returns. -/
def returnRecv (i : ι) (y : Recv) (r : Outcome T) (s : Shared ι T) : Shared ι T :=
  { s with receiving := s.receiving \ {i}, running := none, results := s.results ++ [(y, r)] }

/-- The pending future of a call is dropped. -/
def dropFuture (i : ι) (p : Pc T) (s : Shared ι T) : Shared ι T :=
  match p.sends, p.receives with
  | some x, _ =>
    { s with borrows := Function.update s.borrows x.handle (s.borrows x.handle \ {i}) }
  | _, some _ => { s with receiving := s.receiving \ {i} }
  | _, _ => s

/-- The next atomic operation of a call on the channel, when no call below is in progress. -/
def advance (i : ι) (s : Shared ι T) (l : Local ι T) : Option (Shared ι T × Local ι T) :=
  match l.pc with
  | .ready => none
  | .sendLoad x => some (s, l.goto (if s.receiverActive then .sendLock x else .sendErr x))
  | .sendLock x =>
    lift i (.lock (x.how.lock (s.cv.mx.plat.canBlock i) none)) s l (.sendRecheck x)
  | .sendRecheck x =>
    match l.cv.mx.pc with
    | .guard => some (s, l.goto (if s.receiverActive then .sendPush x else .sendReject x))
    | _ => none
  | .sendPush x =>
    (lift i (.access (pushBack x.value)) s l (.sendDrop x)).map fun r =>
      ({ r.1 with pushed := r.1.pushed ++ [x] }, r.2)
  | .sendDrop x => lift i .drop s l (.sendNotify x)
  | .sendNotify x => lift i .notifyOne s l (.sendReturn x)
  | .sendReturn x => some (returnSend i x (.ok ()) s, l.goto .ready)
  | .sendReject x => lift i .drop s l (.sendErr x)
  | .sendErr x => some (returnSend i x (.error x.value) s, l.goto .ready)
  | .recvLock y =>
    match y.op with
    | .tryRecv => lift i (.lock .tryLock) s l (.recvPop y)
    | .recv how deadline =>
      lift i (.lock (how.lock (s.cv.mx.plat.canBlock i) deadline)) s l (.recvPop y)
  | .recvPop y =>
    match l.cv.mx.pc, y.op with
    | .guard, _ =>
      (lift i (.access popFront) s l (.recvLoad y)).map fun r =>
        match r.2.cv.mx.reg with
        | some t => (r.1, r.2.goto (.recvDrop y (.ok t)))
        | none => r
    | .failed, .tryRecv => some (s, l.goto (.recvReturn y .empty))
    | .failed, .recv _ (some _) => some (s, l.goto (.recvReturn y .timeout))
    | _, _ => none
  | .recvLoad y =>
    some (s, l.goto (
      if s.senderCount = 0 then .recvDrop y .disconnected
      else match y.op with
        | .tryRecv => .recvDrop y .empty
        | .recv _ _ => .recvWait y))
  | .recvWait y =>
    match y.op with
    | .tryRecv => none
    | .recv how deadline =>
      lift i (how.wait (s.cv.mx.plat.canBlock i) deadline) s l (.recvWaited y)
  | .recvWaited y =>
    some (s, l.goto (
      match y.op with
      | .recv _ (some _) => if l.cv.timedOut then .recvDrop y .timeout else .recvPop y
      | _ => .recvPop y))
  | .recvDrop y r => lift i .drop s l (.recvReturn y r)
  | .recvReturn y r => some (returnRecv i y r s, l.goto .ready)
  | .senderNotify => lift i .notifyAll s l .senderReturn
  | .receiverNotify => lift i .notifyAll s l .receiverReturn
  | .senderReturn | .receiverReturn => some (s, l.goto .ready)

/-- Agent `i` may move: a receive runs only while no other one does. -/
def turn (i : ι) (s : Shared ι T) (l : Local ι T) : Bool :=
  l.pc.receives.isNone || decide (s.running = none ∨ s.running = some i)

/-- After a step of agent `i`: a receive keeps the thread until it is suspended. -/
def settle (i : ι) (r : Shared ι T × Local ι T) : Shared ι T × Local ι T :=
  if r.2.pc.receives.isSome then
    ({ r.1 with running := if suspended r.2.cv then none else some i }, r.2)
  else r

/-- One operation of agent `i`. -/
def step (i : ι) (a : Act T) (s : Shared ι T) (l : Local ι T) :
    Option (Shared ι T × Local ι T) :=
  match a with
  | .send how handle t =>
    if l.pc = .ready ∧ handle ∈ s.handles then
      some ({ s with
          borrows := Function.update s.borrows handle (insert i (s.borrows handle))
          tickets := s.tickets + 1 },
        l.goto (.sendLoad ⟨how, handle, t, s.tickets, !s.receiverActive⟩))
    else none
  | .recv op =>
    if l.pc = .ready ∧ s.receiverActive = true ∧ s.running = none then
      some ({ s with receiving := insert i s.receiving, running := some i },
        l.goto (.recvLock ⟨op, s.disconnected⟩))
    else none
  | .clone handle =>
    if l.pc = .ready ∧ handle ∈ s.handles then
      some ({ s with
          senderCount := s.senderCount + 1
          handles := insert s.nextHandle s.handles
          nextHandle := s.nextHandle + 1 }, l)
    else none
  | .dropSender handle =>
    if l.pc = .ready ∧ handle ∈ s.handles ∧ s.borrows handle = ∅ then
      some ({ s with senderCount := s.senderCount - 1, handles := s.handles.erase handle },
        l.goto (if s.senderCount = 1 then .senderNotify else .ready))
    else none
  | .dropReceiver =>
    if l.pc = .ready ∧ s.receiverActive = true ∧ s.receiving = ∅ then
      some ({ s with receiverActive := false }, l.goto .receiverNotify)
    else none
  | .consume => if l.pc = .ready then lift i .consume s l .ready else none
  | .step =>
    if turn i s l then
      (if l.cv.atRest then advance i s l else lift i .step s l l.pc).map (settle i)
    else none
  | .spurious => if turn i s l then (lift i .spurious s l l.pc).map (settle i) else none
  | .cancel =>
    if turn i s l then
      (lift i .cancel s l .ready).map fun r => (dropFuture i l.pc r.1, r.2)
    else none

/-- The channel as a system. -/
def sys : System ι (Shared ι T) (Local ι T) (Act T) (Event ι) where
  step := step
  env e s := (s.cv.mx.plat.apply e).map s.setPlat

end Step

/-- `channel()`: an empty queue, one `Sender` and the `Receiver`. -/
def Shared.new (plat : Platform ι) : Shared ι T where
  cv := .new plat []
  senderCount := 1
  receiverActive := true
  handles := {0}
  nextHandle := 1
  borrows := fun _ => ∅
  receiving := ∅
  running := none
  tickets := 0
  pushed := []
  sends := []
  results := []

/-- A new channel, and agents none of which is in a call. -/
def init (plat : Platform ι) : Config ι (Shared ι T) (Local ι T) :=
  ⟨.new plat, fun _ => ⟨⟨⟨.idle, none⟩, .ready, false⟩, .ready⟩⟩

end Mpsc

end WasmSafeThread
