import WasmSafeThread.Agents.Basic
import WasmSafeThread.Platform.Basic
import Mathlib.Data.Nat.Notation

/-!
# The reader-writer lock

`RwLock<T>` (`rwlock.rs`, `rwlock/inner.rs`, `rwlock/read.rs`, `rwlock/write.rs`, and
`ReadGuard::drop`, `WriteGuard::drop` in `guard.rs`), one atomic operation per step.

An agent is one activity on the lock: an acquisition for reading or writing by any of the entry
points and, if it succeeds, the life of the guard up to the end of its drop.

`try_lock_read` is `AtomicU8::fetch_update` with the closure `readClosure`: a load, then
`compare_exchange_weak` until it succeeds or the closure refuses the value read.  The closure
panics at 127 readers; a panic inside the section of a waiting list leaves its spinlock locked.
-/

namespace WasmSafeThread

namespace RwLock

/-- Reading or writing. -/
inductive Mode where
  | read
  | write
  deriving DecidableEq

/-- `UNLOCKED`. -/
def UNLOCKED : BitVec 8 := 0

/-- `LOCKED_WRITE`. -/
def LOCKED_WRITE : BitVec 8 := 0b10000000

/-- A value of `data_lock` to which a reader may be added. -/
def Readable : Type := {f : BitVec 8 // f &&& LOCKED_WRITE = 0 ∧ f ≠ LOCKED_WRITE - 1}
  deriving DecidableEq

/-- What the closure of `try_lock_read` does with the value read. -/
inductive Verdict where
  /-- `None`. -/
  | refuse
  /-- `panic!("Too many readers")`. -/
  | tooManyReaders
  /-- `Some(f + 1)`. -/
  | add (f : Readable)

/-- The closure of `try_lock_read`. -/
def readClosure (f : BitVec 8) : Verdict :=
  if h : f &&& LOCKED_WRITE ≠ 0 then .refuse
  else if h' : f = LOCKED_WRITE - 1 then .tooManyReaders
  else .add ⟨f, not_not.1 h, h'⟩

/-- The four waiting lists: `waiting_sync_read_threads`, `waiting_sync_write_threads`,
`waiting_async_read_threads`, `waiting_async_write_threads`. -/
abbrev Queue := Mode × Way

/-- The fields of `RwLock<T>`, with the platform. -/
structure Shared (ι D : Type*) where
  plat : Platform ι
  /-- `data_lock`. -/
  dataLock : BitVec 8
  /-- `inner`, the protected value. -/
  inner : D
  /-- The waiting lists, each in its spinlock. -/
  waiting : Lists Queue ι

/-- From where a `try_lock_read` or `try_lock_write` is called. -/
inductive Caller where
  /-- By the user. -/
  | user
  /-- In the loop of `lock_spin_read` or `lock_spin_write`. -/
  | spin
  /-- In the section of a waiting list. -/
  | sect (w : Way)
  deriving DecidableEq

/-- The control points of an agent. -/
inductive Pc (ι : Type*) where
  /-- No call and no guard. -/
  | idle
  /-- The last attempt returned `Err(NotAvailable)`. -/
  | failed
  /-- The agent has a guard. -/
  | guard (m : Mode)
  /-- Before the first atomic operation of `try_lock_read` (the load of `fetch_update`) or
  `try_lock_write` (the `compare_exchange`). -/
  | attempt (m : Mode) (k : Caller)
  /-- In `fetch_update`, before `compare_exchange_weak(f, f + 1)`. -/
  | exchange (f : Readable) (k : Caller)
  /-- Before the `swap(true)` of the spinlock of a list. -/
  | enter (m : Mode) (w : Way)
  /-- In the section, after `Err(NotAvailable)`. -/
  | push (m : Mode) (w : Way)
  /-- In the section with `Ok(guard)`, before the spinlock's `store(false)`. -/
  | leaveOk (m : Mode) (w : Way)
  /-- In the section after the push, before the spinlock's `store(false)`. -/
  | leaveErr (m : Mode) (slot : Slot)
  /-- `lock_block_read`, `lock_block_write`: at `thread::park`. -/
  | park (m : Mode)
  /-- `lock_async_read`, `lock_async_write`: at `receiver.await`. -/
  | await (m : Mode) (c : ℕ)
  /-- In `did_unlock_read`: the entries taken from list `(write, w)` and still to be signalled, and
  the lists for writers still to be taken. -/
  | didUnlockRead (w : Way) (pending : List (Wake ι)) (rest : List Way)
  /-- In `did_unlock_write`: the entries taken from list `q` and still to be signalled, and the
  lists still to be taken. -/
  | didUnlockWrite (q : Queue) (pending : List (Wake ι)) (rest : List Queue)
  /-- "Too many readers". -/
  | tooManyReaders (k : Caller)
  /-- The assertion in a guard's drop has failed. -/
  | assertFailed
  deriving DecidableEq

/-- The local state of an agent: its control point and its register (what it remembers of the
values it read through its guards). -/
structure Local (ι R : Type*) where
  pc : Pc ι
  reg : R

/-- The acquisitions. -/
inductive Op where
  | tryLock (m : Mode)
  | lockSpin (m : Mode)
  | lockWait (m : Mode) (w : Way)
  deriving DecidableEq

/-- `lock_block_read`, `lock_block_write`. -/
def Op.lockBlock (m : Mode) : Op := .lockWait m .sync

/-- `lock_async_read`, `lock_async_write`. -/
def Op.lockAsync (m : Mode) : Op := .lockWait m .async

/-- `lock_sync_read`, `lock_sync_write`: block where `Atomics.wait` is supported, else spin. -/
def Op.lockSync (m : Mode) (canBlock : Bool) : Op :=
  if canBlock then .lockBlock m else .lockSpin m

/-- The operations of an agent. -/
inductive Act (R D : Type*) where
  /-- Call one of the acquisitions. -/
  | call (op : Op)
  /-- The next atomic operation of the call in progress. -/
  | step
  /-- `compare_exchange_weak` fails although the value has not changed, or `park` returns without
  a token. -/
  | spurious
  /-- The pending future is dropped. -/
  | cancel
  /-- An access through a `ReadGuard`. -/
  | read (f : R → D → R)
  /-- An access through a `WriteGuard`. -/
  | write (f : R × D → R × D)
  /-- The guard is dropped: `fetch_sub(1)` or `swap(UNLOCKED)`, and the assertion on the old
  value. -/
  | drop
  /-- The token is consumed by a `park` that is not the lock's. -/
  | consume

variable {ι R D : Type*}

/-- The control point at which an acquisition starts. -/
def Op.start : Op → Pc ι
  | .tryLock m => .attempt m .user
  | .lockSpin m => .attempt m .spin
  | .lockWait m w => .enter m w

/-- No call is in progress: the agent may call, or act on its guard. -/
def Pc.atRest : Pc ι → Bool
  | .idle | .failed | .guard _ => true
  | _ => false

/-- The agent has a guard for `m`, the one inside a spinlock section included. -/
def Pc.hasGuard (m : Mode) : Pc ι → Bool
  | .guard m' | .leaveOk m' _ => decide (m' = m)
  | _ => false

/-- The list and the slot an agent waits with: from its push to its next attempt. -/
def Pc.waitsOn : Pc ι → Option (Mode × Slot)
  | .leaveErr m slot => some (m, slot)
  | .park m => some (m, .thread)
  | .await m c => some (m, .cont c)
  | _ => none

/-- Where a successful attempt leads. -/
def Caller.ok (m : Mode) : Caller → Pc ι
  | .user | .spin => .guard m
  | .sect w => .leaveOk m w

/-- Where a failed attempt leads. -/
def Caller.err (m : Mode) : Caller → Pc ι
  | .user => .failed
  | .spin => .attempt m .spin
  | .sect w => .push m w

/-- In `fetch_update` after the closure has looked at the value read. -/
def Verdict.next (k : Caller) : Verdict → Pc ι
  | .refuse => k.err .read
  | .tooManyReaders => .tooManyReaders k
  | .add f => .exchange f k

namespace Local

/-- Move to control point `p`. -/
def goto (l : Local ι R) (p : Pc ι) : Local ι R := { l with pc := p }

@[simp, grind =] theorem goto_pc (l : Local ι R) (p : Pc ι) : (l.goto p).pc = p := rfl
@[simp, grind =] theorem goto_reg (l : Local ι R) (p : Pc ι) : (l.goto p).reg = l.reg := rfl

end Local

namespace Shared

variable (s : Shared ι D)

/-- `data_lock` is replaced. -/
def setLock (f : BitVec 8) : Shared ι D := { s with dataLock := f }

/-- The spinlock of list `q` is taken or released. -/
def setLocked (q : Queue) (b : Bool) : Shared ι D :=
  { s with waiting := s.waiting.setLocked q b }

/-- The data of list `q` is replaced. -/
def setList (q : Queue) (es : List (Wake ι)) : Shared ι D :=
  { s with waiting := s.waiting.setData q es }

/-- The platform changes. -/
def setPlat (p : Platform ι) : Shared ι D := { s with plat := p }

end Shared

/-- `did_unlock_read`: "unlock only WRITE threads". -/
def didUnlockRead : Pc ι :=
  .didUnlockRead .sync [] [.sync, .async]

/-- `did_unlock_write`: the readers, and the writers. -/
def didUnlockWrite : Pc ι :=
  .didUnlockWrite (.read, .sync) []
    [(.read, .sync), (.read, .async), (.write, .sync), (.write, .async)]

/-- In a section after `Err(NotAvailable)`: push the slot. -/
def register (i : ι) (s : Shared ι D) (m : Mode) (w : Way) : Shared ι D :=
  (s.setList (m, w) ((s.waiting (m, w)).data ++ [(s.plat.slot w).wake i])).setPlat
    (s.plat.register w)

/-- Where an acquisition suspends after it left the section in which it registered. -/
def suspend (m : Mode) : Slot → Pc ι
  | .thread => .park m
  | .cont c => .await m c

section Step

variable [DecidableEq ι]

/-- The next atomic operation of a call in progress. -/
def advance (i : ι) (s : Shared ι D) (l : Local ι R) : Option (Shared ι D × Local ι R) :=
  match l.pc with
  | .idle | .failed | .guard _ | .tooManyReaders _ | .assertFailed => none
  | .attempt .read k => some (s, l.goto ((readClosure s.dataLock).next k))
  | .exchange f k =>
    if s.dataLock = f.1 then some (s.setLock (f.1 + 1), l.goto (k.ok .read))
    else some (s, l.goto ((readClosure s.dataLock).next k))
  | .attempt .write k =>
    if s.dataLock = UNLOCKED then some (s.setLock LOCKED_WRITE, l.goto (k.ok .write))
    else some (s, l.goto (k.err .write))
  | .enter m w =>
    if (s.waiting (m, w)).locked then none
    else some (s.setLocked (m, w) true, l.goto (.attempt m (.sect w)))
  | .push m w => some (register i s m w, l.goto (.leaveErr m (s.plat.slot w)))
  | .leaveOk m w => some (s.setLocked (m, w) false, l.goto (.guard m))
  | .leaveErr m slot => some (s.setLocked (m, slot.way) false, l.goto (suspend m slot))
  | .park m =>
    if s.plat.token i then some (s.setPlat (s.plat.consume i), l.goto (.enter m .sync)) else none
  | .await m c => if s.plat.sent c then some (s, l.goto (.enter m .async)) else none
  | .didUnlockRead _ [] [] => some (s, l.goto .idle)
  | .didUnlockRead _ [] (w :: rest) =>
    if (s.waiting (.write, w)).locked then none
    else some (s.setList (.write, w) [],
      l.goto (.didUnlockRead w (s.waiting (.write, w)).data rest))
  | .didUnlockRead w (h :: pending) rest =>
    some (s.setPlat (s.plat.wake h), l.goto (.didUnlockRead w pending rest))
  | .didUnlockWrite _ [] [] => some (s, l.goto .idle)
  | .didUnlockWrite _ [] (q :: rest) =>
    if (s.waiting q).locked then none
    else some (s.setList q [], l.goto (.didUnlockWrite q (s.waiting q).data rest))
  | .didUnlockWrite q (h :: pending) rest =>
    some (s.setPlat (s.plat.wake h), l.goto (.didUnlockWrite q pending rest))

/-- One operation of agent `i`. -/
def step (i : ι) (a : Act R D) (s : Shared ι D) (l : Local ι R) :
    Option (Shared ι D × Local ι R) :=
  match a, l.pc with
  | .call op, .idle | .call op, .failed => some (s, l.goto op.start)
  | .step, _ => advance i s l
  | .spurious, .exchange _ k => some (s, l.goto ((readClosure s.dataLock).next k))
  | .spurious, .park m => some (s, l.goto (.enter m .sync))
  | .cancel, .await _ _ => some (s, l.goto .idle)
  | .read f, .guard .read => some (s, { l with reg := f l.reg s.inner })
  | .write f, .guard .write =>
    let r := f (l.reg, s.inner)
    some ({ s with inner := r.2 }, { l with reg := r.1 })
  | .drop, .guard .read =>
    some (s.setLock (s.dataLock - 1),
      l.goto (if 0 < s.dataLock then didUnlockRead else .assertFailed))
  | .drop, .guard .write =>
    some (s.setLock UNLOCKED,
      l.goto (if s.dataLock = LOCKED_WRITE then didUnlockWrite else .assertFailed))
  | .consume, p => if p.atRest then some (s.setPlat (s.plat.consume i), l) else none
  | _, _ => none

/-- The lock as a system: any agents, and any other use of the platform around them. -/
def sys : System ι (Shared ι D) (Local ι R) (Act R D) (Event ι) where
  step := step
  env e s := (s.plat.apply e).map s.setPlat

end Step

/-- `RwLock::new(value)`. -/
def Shared.new (plat : Platform ι) (value : D) : Shared ι D where
  plat := plat
  dataLock := UNLOCKED
  inner := value
  waiting := fun _ => ⟨false, []⟩

/-- A new lock and agents with registers `regs`, none of them in a call. -/
def init (plat : Platform ι) (value : D) (regs : ι → R) :
    Config ι (Shared ι D) (Local ι R) :=
  ⟨Shared.new plat value, fun i => ⟨.idle, regs i⟩⟩

end RwLock

end WasmSafeThread
