import WasmSafeThread.Mutex.Basic
import Mathlib.Data.List.Basic

/-!
# The condition variable

`Condvar` (`condvar.rs`, `condvar/wait_spin.rs`, `condvar/wait_block.rs`, `condvar/wait_async.rs`,
`condvar/wait_sync.rs`, `condvar/notify.rs`) together with the mutex whose guards it takes, one
atomic operation per step.

An agent is a thread or a task.  Its local state is a call stack of two frames: a call on the
condition variable (`Pc`), and under it the agent's activity on the mutex.  While a call on the
mutex is in progress only that call moves.

The three waiting lists are touched in sections of their spinlocks only, and no section looks at
anything that the spinlock does not protect, so a section is one step.  `regs` numbers the waits:
the number of a wait is the identity of its flag `wake` (`wait_spin`) and the `id` of its
`AsyncWaiter` (`wait_async`).  A parked thread is found in its list by its thread only.

What `notify_one` prints between the pop of a spin entry and the store of its flag is left out: standard
error is taken to be writable.  So are the panics of a wait that has registered (a park where
`Atomics.wait` is not available, a timer thread that cannot be spawned) and the wrap-around of the `id`,
which is an `AtomicU64`.
-/

namespace WasmSafeThread

namespace Condvar

/-- The waiting lists: `waiting_spin_threads`, `waiting_sync_threads`,
`waiting_async_threads`. -/
inductive Kind where
  | spin
  | sync
  | async
  deriving DecidableEq

instance {p : Kind → Prop} [DecidablePred p] : Decidable (∀ k, p k) :=
  decidable_of_iff (p .spin ∧ p .sync ∧ p .async)
    ⟨fun h k => by cases k <;> simp [h], fun h => ⟨h _, h _, h _⟩⟩

/-- An entry of a waiting list: the number of the wait that pushed it, and its agent. -/
structure Entry (ι : Type*) where
  reg : ℕ
  agent : ι
  deriving DecidableEq

/-- The fields of `Condvar`, with the mutex. -/
structure Shared (ι R D : Type*) where
  mx : Mutex.Shared ι R D
  /-- The waiting lists. -/
  waiting : Kind → List (Entry ι)
  /-- The flag `wake` of a `wait_spin` is set; `send(())` was called for a `wait_async`. -/
  flags : ℕ → Bool
  /-- The number of the next wait. -/
  regs : ℕ

/-- How a wait sleeps, once it is registered and has dropped the guard. -/
inductive Sleep where
  | spin (deadline : Option ℕ)
  | sync (deadline : Option ℕ)
  | async
  /-- With the continuation of its timer thread. -/
  | asyncTimeout (t : ℕ)
  deriving DecidableEq

/-- The control points of a call on the condition variable; `r` is the number of the wait. -/
inductive Pc (ι : Type*) where
  /-- No call on the condition variable. -/
  | ready
  /-- `wait_*`: before the section that pushes the entry. -/
  | register (k : Kind) (deadline : Option ℕ)
  /-- `wait_async_timeout`: before `thread::spawn`. -/
  | spawnTimer (deadline r : ℕ)
  /-- Before `drop(guard)`. -/
  | drop (z : Sleep) (r : ℕ)
  /-- In `drop(guard)`. -/
  | dropping (z : Sleep) (r : ℕ)
  /-- `wait_spin`, `wait_spin_timeout`: before `wake.load()` in the loop. -/
  | load (deadline : Option ℕ) (r : ℕ)
  /-- `wait_spin_timeout`: before `Instant::now() >= deadline`. -/
  | loadNow (deadline r : ℕ)
  /-- `wait_spin_timeout`: past the deadline, before the section that looks for the entry. -/
  | loadLeave (r : ℕ)
  /-- `wait_spin_timeout`: the entry was not in the list, "we MUST have been notified/popped". -/
  | loadNotified (r : ℕ)
  /-- `wait_block_timeout`: the top of the loop, before `Instant::now()`. -/
  | parkNow (deadline r : ℕ)
  /-- `wait_block`, `wait_block_timeout`: at `thread::park` or `thread::park_timeout`. -/
  | park (deadline : Option ℕ) (r : ℕ)
  /-- `wait_block_timeout`: before the section that looks for the thread after a park. -/
  | parkCheck (deadline r : ℕ)
  /-- `wait_block_timeout`: past the deadline, before the section that looks for the thread. -/
  | parkLeave (r : ℕ)
  /-- `wait_async`: at `receiver.await`. -/
  | await (r : ℕ)
  /-- `Race::poll`: before it polls the notification. -/
  | race (r t : ℕ)
  /-- `Race::poll`: before it polls the timeout. -/
  | raceTimeout (r t : ℕ)
  /-- `wait_async_timeout`: timed out, before the section that looks for the entry. -/
  | raceLeave (r : ℕ)
  /-- Before `mutex.lock_sync()` or `mutex.lock_async()`. -/
  | relock (w : Way) (timedOut : Bool)
  /-- In that call. -/
  | relocking (timedOut : Bool)
  /-- `notify_one`: before the section that pops from list `k`. -/
  | notifyOne (k : Kind)
  /-- `notify_one` and `notify_all`: the entries taken from list `k` and still to be signalled, and
  the lists still to be taken. -/
  | notifying (k : Kind) (pending : List (Entry ι)) (rest : List Kind)
  deriving DecidableEq

/-- The local state of an agent. -/
structure Local (ι R : Type*) where
  mx : Mutex.Local ι R
  pc : Pc ι
  /-- The `WaitTimeoutResult` of the last wait. -/
  timedOut : Bool

/-- The operations of an agent. -/
inductive Act (R D : Type*) where
  /-- Call one of the acquisitions of the mutex. -/
  | lock (op : Mutex.Op)
  /-- An access through the guard. -/
  | access (f : Mutex.Access R D)
  /-- The guard is dropped. -/
  | drop
  /-- The token is consumed by a `park` of somebody else. -/
  | consume
  /-- Call one of the waits. -/
  | wait (k : Kind) (deadline : Option ℕ)
  | notifyOne
  | notifyAll
  /-- The next atomic operation of the call in progress. -/
  | step
  /-- A park returns without a token. -/
  | spurious
  /-- The pending future is dropped. -/
  | cancel

variable {ι R D : Type*}

/-- `wait_sync`, `wait_sync_timeout`: block where `Atomics.wait` is supported, else spin. -/
def waitSync (canBlock : Bool) (deadline : Option ℕ) : Act R D :=
  .wait (if canBlock then .sync else .spin) deadline

/-- The list in which a sleeping wait has its entry. -/
def Sleep.kind : Sleep → Kind
  | .spin _ => .spin
  | .sync _ => .sync
  | .async | .asyncTimeout _ => .async

/-- Where a wait sleeps after `drop(guard)`. -/
def Sleep.start (r : ℕ) : Sleep → Pc ι
  | .spin deadline => .load deadline r
  | .sync none => .park none r
  | .sync (some d) => .parkNow d r
  | .async => .await r
  | .asyncTimeout t => .race r t

/-- What follows the section that pushes the entry. -/
def registered (r : ℕ) : Kind → Option ℕ → Pc ι
  | .spin, deadline => .drop (.spin deadline) r
  | .sync, deadline => .drop (.sync deadline) r
  | .async, none => .drop .async r
  | .async, some d => .spawnTimer d r

/-- The list that `notify_one` tries after list `k`. -/
def Kind.next : Kind → Option Kind
  | .spin => some .sync
  | .sync => some .async
  | .async => none

/-- `notify_all`: every list in turn. -/
def notifyAll : Pc ι := .notifying .spin [] [.spin, .sync, .async]

/-- The wait in progress, from its push to its last look at the lists: the list in which its
entry was pushed, and its number. -/
def Pc.waitsOn : Pc ι → Option (Kind × ℕ)
  | .spawnTimer _ r => some (.async, r)
  | .drop z r | .dropping z r => some (z.kind, r)
  | .load _ r | .loadNow _ r | .loadLeave r | .loadNotified r => some (.spin, r)
  | .parkNow _ r | .park _ r | .parkCheck _ r | .parkLeave r => some (.sync, r)
  | .await r | .race r _ | .raceTimeout r _ | .raceLeave r => some (.async, r)
  | _ => none

namespace Local

/-- Move to control point `p`. -/
def goto (l : Local ι R) (p : Pc ι) : Local ι R := { l with pc := p }

@[simp, grind =] theorem goto_pc (l : Local ι R) (p : Pc ι) : (l.goto p).pc = p := rfl
@[simp, grind =] theorem goto_mx (l : Local ι R) (p : Pc ι) : (l.goto p).mx = l.mx := rfl

/-- No call is in progress: the agent may call, or act on its guard. -/
def atRest (l : Local ι R) : Bool :=
  l.mx.pc.atRest && match l.pc with
    | .ready => true
    | _ => false

end Local

namespace Shared

variable (s : Shared ι R D)

/-- The platform changes. -/
def setPlat (p : Platform ι) : Shared ι R D := { s with mx := s.mx.setPlat p }

/-- The data of list `k` is replaced. -/
def setList (k : Kind) (es : List (Entry ι)) : Shared ι R D :=
  { s with waiting := Function.update s.waiting k es }

/-- The flag or the continuation of wait `r` is set. -/
def setFlag (r : ℕ) : Shared ι R D := { s with flags := Function.update s.flags r true }

/-- A new wait pushes its entry. -/
def push (k : Kind) (i : ι) : Shared ι R D :=
  { s.setList k (s.waiting k ++ [⟨s.regs, i⟩]) with regs := s.regs + 1 }

end Shared

section Step

variable [DecidableEq ι]

/-- Signal an entry of list `k`: store the flag, unpark the thread, or send. -/
def signal (s : Shared ι R D) (k : Kind) (e : Entry ι) : Shared ι R D :=
  match k with
  | .sync => s.setPlat (s.mx.plat.wake (.unpark e.agent))
  | .spin | .async => s.setFlag e.reg

/-- An operation on the mutex, after which the call on the condition variable is at `p`. -/
def lift (i : ι) (a : Mutex.Act R D) (s : Shared ι R D) (l : Local ι R) (p : Pc ι) :
    Option (Shared ι R D × Local ι R) :=
  (Mutex.step i a s.mx l.mx).map fun r => ({ s with mx := r.1 }, { l with mx := r.2, pc := p })

/-- The next atomic operation of a call on the condition variable, when no call on the mutex is
in progress. -/
def advance (i : ι) (s : Shared ι R D) (l : Local ι R) : Option (Shared ι R D × Local ι R) :=
  match l.pc with
  | .ready => none
  | .register k deadline => some (s.push k i, l.goto (registered s.regs k deadline))
  | .spawnTimer d r =>
    some (s.setPlat (s.mx.plat.spawn d), l.goto (.drop (.asyncTimeout s.mx.plat.conts) r))
  | .drop z r => lift i .drop s l (.dropping z r)
  | .dropping z r => some (s, l.goto (z.start r))
  | .load deadline r =>
    if s.flags r then some (s, l.goto (.relock .sync false))
    else some (s, l.goto (match deadline with
      | none => .load none r
      | some d => .loadNow d r))
  | .loadNow d r =>
    some (s, l.goto (if d ≤ s.mx.plat.clock then .loadLeave r else .load (some d) r))
  | .loadLeave r =>
    if (s.waiting .spin).any fun e => e.reg = r then
      some (s.setList .spin ((s.waiting .spin).eraseP fun e => e.reg = r),
        l.goto (.relock .sync true))
    else some (s, l.goto (.loadNotified r))
  | .loadNotified r =>
    some (s, l.goto (if s.flags r then .relock .sync false else .loadNotified r))
  | .parkNow d r =>
    some (s, l.goto (if d ≤ s.mx.plat.clock then .parkLeave r else .park (some d) r))
  | .park deadline r =>
    if s.mx.plat.token i then
      some (s.setPlat (s.mx.plat.consume i), l.goto (match deadline with
        | none => .relock .sync false
        | some d => .parkCheck d r))
    else none
  | .parkCheck d r =>
    -- any entry of this thread counts as "still in the list"
    some (s, l.goto (if (s.waiting .sync).any fun e => e.agent = i then .parkNow d r
      else .relock .sync false))
  | .parkLeave _ =>
    if (s.waiting .sync).any fun e => e.agent = i then
      some (s.setList .sync ((s.waiting .sync).eraseP fun e => e.agent = i),
        l.goto (.relock .sync true))
    else some (s, l.goto (.relock .sync false))
  | .await r => if s.flags r then some (s, l.goto (.relock .async false)) else none
  | .race r t => some (s, l.goto (if s.flags r then .relock .async false else .raceTimeout r t))
  | .raceTimeout r t => some (s, l.goto (if s.mx.plat.sent t then .raceLeave r else .race r t))
  | .raceLeave r =>
    if (s.waiting .async).any fun e => e.reg = r then
      some ((s.setList .async ((s.waiting .async).eraseP fun e => e.reg = r)).setFlag r,
        l.goto (.relock .async true))
    else some (s, l.goto (.relock .async true))
  | .relock .sync timedOut =>
    lift i (.call (.lockSync (s.mx.plat.canBlock i) none)) s l (.relocking timedOut)
  | .relock .async timedOut => lift i (.call .lockAsync) s l (.relocking timedOut)
  | .relocking timedOut =>
    match l.mx.pc with
    | .guard => some (s, { l with pc := .ready, timedOut := timedOut })
    | _ => none
  | .notifyOne k =>
    match (s.waiting k).getLast? with
    | some e => some (s.setList k (s.waiting k).dropLast, l.goto (.notifying k [e] []))
    | none => some (s, l.goto (match k.next with
      | some k' => .notifyOne k'
      | none => .notifying k [] []))
  | .notifying _ [] [] => some (s, l.goto .ready)
  | .notifying _ [] (k :: rest) =>
    some (s.setList k [], l.goto (.notifying k (s.waiting k) rest))
  | .notifying k (e :: pending) rest => some (signal s k e, l.goto (.notifying k pending rest))

/-- One operation of agent `i`. -/
def step (i : ι) (a : Act R D) (s : Shared ι R D) (l : Local ι R) :
    Option (Shared ι R D × Local ι R) :=
  match a with
  | .lock op => if l.atRest then lift i (.call op) s l .ready else none
  | .access f => if l.atRest then lift i (.access f) s l .ready else none
  | .drop => if l.atRest then lift i .drop s l .ready else none
  | .consume => if l.atRest then lift i .consume s l .ready else none
  | .wait k deadline =>
    if l.atRest && l.mx.pc.hasGuard then some (s, l.goto (.register k deadline)) else none
  | .notifyOne => if l.atRest then some (s, l.goto (.notifyOne .spin)) else none
  | .notifyAll => if l.atRest then some (s, l.goto notifyAll) else none
  | .step => if l.mx.pc.atRest then advance i s l else lift i .step s l l.pc
  | .spurious =>
    if l.mx.pc.atRest then
      match l.pc with
      | .park none _ => some (s, l.goto (.relock .sync false))
      | .park (some d) r => some (s, l.goto (.parkCheck d r))
      | _ => none
    else lift i .spurious s l l.pc
  | .cancel =>
    if l.mx.pc.atRest then
      match l.pc with
      | .await _ | .race _ _ => some (s, l.goto .ready)
      | _ => none
    else lift i .cancel s l .ready

/-- The condition variable and its mutex as a system. -/
def sys : System ι (Shared ι R D) (Local ι R) (Act R D) (Event ι) where
  step := step
  env e s := (s.mx.plat.apply e).map s.setPlat

end Step

/-- `Condvar::new()` and `Mutex::new(value)`. -/
def Shared.new (plat : Platform ι) (value : D) : Shared ι R D where
  mx := .new plat value
  waiting := fun _ => []
  flags := fun _ => false
  regs := 0

/-- A new condition variable and mutex, and agents with registers `regs`, none in a call. -/
def init (plat : Platform ι) (value : D) (regs : ι → R) :
    Config ι (Shared ι R D) (Local ι R) :=
  ⟨.new plat value, fun i => ⟨⟨.idle, regs i⟩, .ready, false⟩⟩

end Condvar

end WasmSafeThread
