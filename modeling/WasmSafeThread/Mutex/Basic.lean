import WasmSafeThread.Agents.Basic
import WasmSafeThread.Platform.Basic

/-!
# The mutex

`Mutex<T>` (`mutex.rs`, `mutex/spin.rs`, `mutex/block.rs`, `mutex/async_impl.rs`, and
`Guard::drop` in `guard.rs`), one atomic operation per step.

An agent is one activity on the mutex: an acquisition by any of the entry points and, if it
succeeds, the life of the guard it returns up to the end of the guard's drop.  A thread or task
that tries to lock again while it holds a guard is a second agent.  `Mutex.step` gives the next
atomic operation of an agent from its control point `Pc`; the sections of the two spinlocks that
contain a `try_lock` are split into their four steps (enter, attempt, push, leave), because
`data_lock` is not protected by these spinlocks and can change inside a section.

`Shared.log` is a history variable: the critical sections in acquisition order, newest first,
each with the accesses made through its guard.  No operation reads it.

The panics of an acquisition that has pushed its entry are left out: that of a park where `Atomics.wait`
is not available, and that of a timer thread that cannot be spawned.
-/

namespace WasmSafeThread

namespace Mutex

/-- One access through a guard: it reads and writes the register of the agent (what the critical
section remembers) and the protected value. -/
abbrev Access (R D : Type*) := R × D → R × D

/-- A critical section: who ran it, and its accesses so far. -/
structure Section (ι R D : Type*) where
  agent : ι
  accesses : List (Access R D)

/-- The fields of `Mutex<T>`, with the platform and the history. -/
structure Shared (ι R D : Type*) where
  plat : Platform ι
  /-- `data_lock`. -/
  dataLock : Bool
  /-- `inner`, the protected value. -/
  inner : D
  /-- `waiting_sync_threads` and `waiting_async_threads`. -/
  waiting : Lists Way ι
  /-- History: the critical sections, newest first. -/
  log : List (Section ι R D)

/-- The control points of an agent.  A deadline of `none` is the form without a timeout. -/
inductive Pc (ι : Type*) where
  /-- No call and no guard. -/
  | idle
  /-- The last attempt returned `Err(NotAvailable)` or `None`. -/
  | failed
  /-- The agent has the guard. -/
  | guard
  /-- Before the `compare_exchange` of `try_lock`. -/
  | tryLock
  /-- `lock_spin`: before `data_lock.swap(true)`. -/
  | lockSpin (deadline : Option ℕ)
  /-- `lock_spin_timeout`: before `Instant::now() >= deadline`. -/
  | lockSpinNow (deadline : ℕ)
  /-- `lock_block_timeout`, `lock_async_timeout`: the top of the loop, before `Instant::now()`. -/
  | lockNow (w : Way) (deadline : ℕ)
  /-- Before the `swap(true)` of the list's spinlock. -/
  | enter (w : Way) (deadline : Option ℕ)
  /-- In the section, before `mutex.try_lock()`. -/
  | attempt (w : Way) (deadline : Option ℕ)
  /-- In the section, after `Err(NotAvailable)`. -/
  | push (w : Way) (deadline : Option ℕ)
  /-- In the section with `Ok(guard)`, before the spinlock's `store(false)`. -/
  | leaveOk (w : Way)
  /-- In the section after the push, before the spinlock's `store(false)`. -/
  | leaveErr (slot : Slot) (deadline : Option ℕ)
  /-- `lock_block`: at `thread::park` or `thread::park_timeout`. -/
  | park (deadline : Option ℕ)
  /-- `lock_async`: at `receiver.await`. -/
  | await (c : ℕ)
  /-- `lock_async_timeout`: before the timer thread is spawned. -/
  | spawnTimer (deadline c : ℕ)
  /-- `Race::poll`: before it polls the notification `c`. -/
  | race (deadline c t : ℕ)
  /-- `Race::poll`: before it polls the timeout `t`. -/
  | raceTimeout (deadline c t : ℕ)
  /-- In `did_unlock`: the entries taken from list `w` and still to be signalled, and the lists
  still to be taken. -/
  | didUnlock (w : Way) (pending : List (Wake ι)) (rest : List Way)
  deriving DecidableEq

/-- The local state of an agent: its control point and its register. -/
structure Local (ι R : Type*) where
  pc : Pc ι
  reg : R

/-- The acquisitions. -/
inductive Op where
  | tryLock
  | lockSpin (deadline : Option ℕ)
  | lockWait (w : Way) (deadline : Option ℕ)
  deriving DecidableEq

/-- `lock_block`. -/
def Op.lockBlock : Op := .lockWait .sync none

/-- `lock_block_timeout`. -/
def Op.lockBlockTimeout (deadline : ℕ) : Op := .lockWait .sync (some deadline)

/-- `lock_async`. -/
def Op.lockAsync : Op := .lockWait .async none

/-- `lock_async_timeout`. -/
def Op.lockAsyncTimeout (deadline : ℕ) : Op := .lockWait .async (some deadline)

/-- `lock_sync` and `lock_sync_timeout`: block where `Atomics.wait` is supported, else spin. -/
def Op.lockSync (canBlock : Bool) (deadline : Option ℕ) : Op :=
  if canBlock then .lockWait .sync deadline else .lockSpin deadline

/-- The operations of an agent. -/
inductive Act (R D : Type*) where
  /-- Call one of the acquisitions. -/
  | call (op : Op)
  /-- The next atomic operation of the call in progress. -/
  | step
  /-- `park` or `park_timeout` returns without a token. -/
  | spurious
  /-- The pending future is dropped. -/
  | cancel
  /-- An access through the guard. -/
  | access (f : Access R D)
  /-- The guard is dropped: `data_lock.store(false)`. -/
  | drop
  /-- The token is consumed by a `park` that is not the mutex's. -/
  | consume

variable {ι R D : Type*}

/-- The control point at which an acquisition starts. -/
def Op.start : Op → Pc ι
  | .tryLock => .tryLock
  | .lockSpin deadline => .lockSpin deadline
  | .lockWait w none => .enter w none
  | .lockWait w (some deadline) => .lockNow w deadline

/-- No call is in progress: the agent may call, or act on its guard. -/
def Pc.atRest : Pc ι → Bool
  | .idle | .failed | .guard => true
  | _ => false

/-- The agent has no guard and is in no acquisition. -/
def Pc.quiet : Pc ι → Bool
  | .idle | .failed | .didUnlock _ _ _ => true
  | _ => false

/-- The agent has a guard, the one inside a spinlock section included. -/
def Pc.hasGuard : Pc ι → Bool
  | .guard | .leaveOk _ => true
  | _ => false

/-- The agent is between the `swap(true)` and the `store(false)` of the spinlock of `w`. -/
def Pc.inSection (w : Way) : Pc ι → Bool
  | .attempt w' _ | .push w' _ | .leaveOk w' => decide (w' = w)
  | .leaveErr slot _ => decide (slot.way = w)
  | _ => false

/-- The slot an agent waits for: from its push to its next attempt. -/
def Pc.waitsOn : Pc ι → Option Slot
  | .leaveErr slot _ => some slot
  | .park _ => some .thread
  | .await c | .spawnTimer _ c | .race _ c _ | .raceTimeout _ c _ => some (.cont c)
  | _ => none

/-- Add an access to the newest section of agent `i`. -/
def record [DecidableEq ι] (i : ι) (f : Access R D) :
    List (Section ι R D) → List (Section ι R D)
  | [] => []
  | x :: older =>
    if x.agent = i then { x with accesses := x.accesses ++ [f] } :: older
    else x :: record i f older

namespace Local

/-- Move to control point `p`. -/
def goto (l : Local ι R) (p : Pc ι) : Local ι R := { l with pc := p }

@[simp, grind =] theorem goto_pc (l : Local ι R) (p : Pc ι) : (l.goto p).pc = p := rfl
@[simp, grind =] theorem goto_reg (l : Local ι R) (p : Pc ι) : (l.goto p).reg = l.reg := rfl

end Local

namespace Shared

variable (s : Shared ι R D)

/-- The mutex becomes locked by agent `i`. -/
def acquire (i : ι) : Shared ι R D := { s with dataLock := true, log := ⟨i, []⟩ :: s.log }

/-- `try_lock`: `compare_exchange(false, true)`. -/
def tryLock (i : ι) : Option (Shared ι R D) := if s.dataLock then none else some (s.acquire i)

/-- `data_lock.swap(true)` when the old value is `true`. -/
def swapTaken : Shared ι R D := { s with dataLock := true }

/-- The spinlock of list `w` is taken or released. -/
def setLocked (w : Way) (b : Bool) : Shared ι R D :=
  { s with waiting := s.waiting.setLocked w b }

/-- The data of list `w` is replaced. -/
def setList (w : Way) (es : List (Wake ι)) : Shared ι R D :=
  { s with waiting := s.waiting.setData w es }

/-- The platform changes. -/
def setPlat (p : Platform ι) : Shared ι R D := { s with plat := p }

variable {s} {w w' : Way} {es : List (Wake ι)}

theorem setLocked_data (w w' : Way) (b : Bool) :
    ((s.setLocked w b).waiting w').data = (s.waiting w').data := by
  by_cases h : w' = w
  · subst h; simp [setLocked, Lists.setLocked]
  · simp [setLocked, Lists.setLocked, h]

theorem setList_data : ((s.setList w es).waiting w').data =
    if w' = w then es else (s.waiting w').data := by
  by_cases hw : w' = w
  · subst hw; simp [setList, Lists.setData]
  · simp [setList, Lists.setData, hw]

theorem mem_setList {x : Wake ι} (h : x ∈ ((s.setList w es).waiting w').data) :
    x ∈ (s.waiting w').data ∨ w' = w ∧ x ∈ es := by
  rw [setList_data] at h
  split at h
  · exact .inr ⟨‹_›, h⟩
  · exact .inl h

end Shared

/-- `did_unlock`: the parked threads, then the tasks. -/
def didUnlock : Pc ι := .didUnlock .sync [] [.sync, .async]

section Step

variable [DecidableEq ι]

/-- In a section after `Err(NotAvailable)`: push the slot. -/
def register (i : ι) (s : Shared ι R D) (w : Way) : Shared ι R D :=
  (s.setList w ((s.waiting w).data ++ [(s.plat.slot w).wake i])).setPlat (s.plat.register w)

/-- Where an acquisition suspends after it left the section in which it registered. -/
def suspend : Slot → Option ℕ → Pc ι
  | .thread, deadline => .park deadline
  | .cont c, none => .await c
  | .cont c, some deadline => .spawnTimer deadline c

/-- The next attempt of `lock_block`, `lock_async` and their timed forms. -/
def again (w : Way) : Option ℕ → Pc ι
  | none => .enter w none
  | some deadline => .lockNow w deadline

/-- The next atomic operation of a call in progress. -/
def advance (i : ι) (s : Shared ι R D) (l : Local ι R) :
    Option (Shared ι R D × Local ι R) :=
  match l.pc with
  | .idle | .failed | .guard => none
  | .tryLock =>
    match s.tryLock i with
    | some s' => some (s', l.goto .guard)
    | none => some (s, l.goto .failed)
  | .lockSpin deadline =>
    if s.dataLock then
      some (s.swapTaken, l.goto (match deadline with
        | none => .lockSpin none
        | some d => .lockSpinNow d))
    else some (s.acquire i, l.goto .guard)
  | .lockSpinNow d =>
    some (s, l.goto (if d ≤ s.plat.clock then .failed else .lockSpin (some d)))
  | .lockNow w d =>
    -- past the deadline: "try one last time"
    some (s, l.goto (if d ≤ s.plat.clock then .tryLock else .enter w (some d)))
  | .enter w deadline =>
    if (s.waiting w).locked then none
    else some (s.setLocked w true, l.goto (.attempt w deadline))
  | .attempt w deadline =>
    match s.tryLock i with
    | some s' => some (s', l.goto (.leaveOk w))
    | none => some (s, l.goto (.push w deadline))
  | .push w deadline => some (register i s w, l.goto (.leaveErr (s.plat.slot w) deadline))
  | .leaveOk w => some (s.setLocked w false, l.goto .guard)
  | .leaveErr slot deadline => some (s.setLocked slot.way false, l.goto (suspend slot deadline))
  | .park deadline =>
    if s.plat.token i then some (s.setPlat (s.plat.consume i), l.goto (again .sync deadline))
    else none
  | .await c => if s.plat.sent c then some (s, l.goto (again .async none)) else none
  | .spawnTimer d c =>
    some (s.setPlat (s.plat.spawn d), l.goto (.race d c s.plat.conts))
  | .race d c t =>
    some (s, l.goto (if s.plat.sent c then again .async (some d) else .raceTimeout d c t))
  | .raceTimeout d c t => some (s, l.goto (if s.plat.sent t then .failed else .race d c t))
  | .didUnlock _ [] [] => some (s, l.goto .idle)
  | .didUnlock _ [] (w :: rest) =>
    if (s.waiting w).locked then none
    else some (s.setList w [], l.goto (.didUnlock w (s.waiting w).data rest))
  | .didUnlock w (h :: pending) rest =>
    some (s.setPlat (s.plat.wake h), l.goto (.didUnlock w pending rest))

/-- One operation of agent `i`. -/
def step (i : ι) (a : Act R D) (s : Shared ι R D) (l : Local ι R) :
    Option (Shared ι R D × Local ι R) :=
  match a, l.pc with
  | .call op, .idle | .call op, .failed => some (s, l.goto op.start)
  | .step, _ => advance i s l
  | .spurious, .park deadline => some (s, l.goto (again .sync deadline))
  | .cancel, .await _ | .cancel, .race _ _ _ => some (s, l.goto .idle)
  | .access f, .guard =>
    let r := f (l.reg, s.inner)
    some ({ s with inner := r.2, log := record i f s.log }, { l with reg := r.1 })
  | .drop, .guard => some ({ s with dataLock := false }, l.goto didUnlock)
  | .consume, p => if p.atRest then some (s.setPlat (s.plat.consume i), l) else none
  | _, _ => none

/-- The mutex as a system: any agents, and any other use of the platform around them. -/
def sys : System ι (Shared ι R D) (Local ι R) (Act R D) (Event ι) where
  step := step
  env e s := (s.plat.apply e).map s.setPlat

end Step

/-- `Mutex::new(value)`. -/
def Shared.new (plat : Platform ι) (value : D) : Shared ι R D where
  plat := plat
  dataLock := false
  inner := value
  waiting := fun _ => ⟨false, []⟩
  log := []

/-- A new mutex and agents with registers `regs`, none of them in a call. -/
def init (plat : Platform ι) (value : D) (regs : ι → R) :
    Config ι (Shared ι R D) (Local ι R) :=
  ⟨Shared.new plat value, fun i => ⟨.idle, regs i⟩⟩

end Mutex

end WasmSafeThread
