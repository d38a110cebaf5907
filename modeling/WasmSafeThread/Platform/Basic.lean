import Mathlib.Logic.Function.Basic
import Mathlib.Data.Nat.Notation

/-!
# What the primitives use of the platform

The locks, the condition variable and the channel use four things that are not theirs: park
tokens, one-shot continuations, a monotone clock and timer threads.

* `Platform.token i` : thread `i` has a park token (`thread::unpark` sets it, `thread::park`
  waits for it and clears it).
* `Platform.sent c` : `send(())` was called on the sender of continuation `c`; the receiver is
  ready from then on.  `r#continue::continuation()` returns the next identifier.
* `Platform.clock` : `Instant::now()`, in nanoseconds.
* `Platform.timer t` : the thread spawned to send on continuation `t` at a deadline.

`Slot` is what a sleeper leaves in a waiting list, and `Spinlock` what guards the lists.

`Platform.apply` is everything that can happen to the platform.
-/

namespace WasmSafeThread

/-- The two backends of the crate. -/
inductive Backend where
  /-- `stdlib.rs`, on top of `std::thread`. -/
  | native
  /-- `wasm.rs`, on top of `Atomics`. -/
  | wasm
  deriving DecidableEq

/-- `n as f64`: the nearest multiple of the distance between two neighbouring numbers with a significand
of 53 bits, and the even one of the two when `n` is half way between them. -/
def asF64 (n : ℕ) : ℕ :=
  let ulp := 1 <<< (n.log2 - 52)
  let below := n / ulp
  let rest := n % ulp
  if 2 * rest < ulp ∨ 2 * rest = ulp ∧ below % 2 = 0 then below * ulp else (below + 1) * ulp

/-- How long `sleep(dur)` lasts at least, in nanoseconds.  The native backend forwards to
`std::thread::sleep`; the wasm backend waits `dur.as_millis() as f64` milliseconds. -/
def Backend.sleep : Backend → ℕ → ℕ
  | .native, dur => dur
  | .wasm, dur => asF64 (dur / 1000000) * 1000000

/-- The thread spawned by a timed async operation. -/
inductive Timer where
  /-- Not spawned. -/
  | off
  /-- Spawned, before it reads the clock. -/
  | spawned (deadline : ℕ)
  /-- In `sleep`, not before `wake` on the clock. -/
  | asleep (wake : ℕ)
  /-- It has sent its signal. -/
  | done
  deriving DecidableEq

/-- The state of the platform. -/
structure Platform (ι : Type*) where
  /-- The backend in use. -/
  backend : Backend
  /-- `atomics_wait_supported()` in the context of a thread; always true on the native
  backend. -/
  canBlock : ι → Bool
  /-- The park token of each thread. -/
  token : ι → Bool
  /-- The continuations created so far are those below `conts`. -/
  conts : ℕ
  /-- The continuations whose sender was called. -/
  sent : ℕ → Bool
  /-- The clock. -/
  clock : ℕ
  /-- The timer thread of each continuation. -/
  timer : ℕ → Timer

/-- The handle by which a sleeper is woken: a thread to unpark, or a continuation to send on. -/
inductive Wake (ι : Type*) where
  | unpark (i : ι)
  | send (c : ℕ)
  deriving DecidableEq

/-- The two ways to sleep, each with waiting lists of its own: a thread that parks, or a task that
awaits a continuation. -/
inductive Way where
  | sync
  | async
  deriving DecidableEq

/-- What a sleeper registers: its thread, or the sender of its continuation `c`. -/
inductive Slot where
  | thread
  | cont (c : ℕ)
  deriving DecidableEq

/-- The kind of list a slot goes to. -/
def Slot.way : Slot → Way
  | .thread => .sync
  | .cont _ => .async

/-- The handle that agent `i` registers for its slot. -/
def Slot.wake {ι : Type*} (i : ι) : Slot → Wake ι
  | .thread => .unpark i
  | .cont c => .send c

/-- `Spinlock<T>`: the flag and the data it guards. -/
structure Spinlock (α : Type*) where
  locked : Bool
  data : α

/-- Waiting lists, each in its spinlock. -/
abbrev Lists (Q ι : Type*) := Q → Spinlock (List (Wake ι))

namespace Lists

variable {Q ι : Type*} [DecidableEq Q]

/-- The spinlock of list `q` is taken or released. -/
def setLocked (ls : Lists Q ι) (q : Q) (b : Bool) : Lists Q ι :=
  Function.update ls q { ls q with locked := b }

/-- The data of list `q` is replaced. -/
def setData (ls : Lists Q ι) (q : Q) (es : List (Wake ι)) : Lists Q ι :=
  Function.update ls q { ls q with data := es }

end Lists

/-- What can happen to the platform. -/
inductive Event (ι : Type*) where
  /-- Time passes. -/
  | tick (n : ℕ)
  /-- Somebody wakes a sleeper. -/
  | wake (w : Wake ι)
  /-- A continuation is created. -/
  | alloc
  /-- A continuation is created and a timer thread with this deadline is spawned for it. -/
  | spawn (deadline : ℕ)
  /-- A timer thread runs. -/
  | timer (t : ℕ)
  deriving DecidableEq

namespace Platform

/-- A platform on which nothing has happened yet and every thread may block. -/
def new {ι : Type*} (backend : Backend) : Platform ι where
  backend := backend
  canBlock := fun _ => true
  token := fun _ => false
  conts := 0
  sent := fun _ => false
  clock := 0
  timer := fun _ => .off

variable {ι : Type*} [DecidableEq ι] (p : Platform ι)

/-- `thread.unpark()` or `sender.send(())`. -/
def wake : Wake ι → Platform ι
  | .unpark i => { p with token := Function.update p.token i true }
  | .send c => { p with sent := Function.update p.sent c true }

/-- `park` of thread `i` consumes the token. -/
def consume (i : ι) : Platform ι := { p with token := Function.update p.token i false }

/-- `r#continue::continuation()`; the new continuation is `p.conts`. -/
def alloc : Platform ι := { p with conts := p.conts + 1 }

/-- What a sleeper registers: `thread::current()`, or the sender of a new continuation. -/
def slot : Way → Slot
  | .sync => .thread
  | .async => .cont p.conts

/-- The platform after a sleeper has made its slot. -/
def register : Way → Platform ι
  | .sync => p
  | .async => p.alloc

/-- A new continuation, and `thread::spawn` of its timer thread; it is again `p.conts`. -/
def spawn (deadline : ℕ) : Platform ι :=
  { p with
    conts := p.conts + 1
    timer := Function.update p.timer p.conts (.spawned deadline) }

/-- The timer thread of continuation `t` sends its signal and ends. -/
def fire (t : ℕ) : Platform ι :=
  { p with sent := Function.update p.sent t true, timer := Function.update p.timer t .done }

/-- One step of the timer thread of continuation `t`: read the clock and sleep for
`deadline - now` if the deadline is in the future, then send. -/
def runTimer (t : ℕ) : Option (Platform ι) :=
  match p.timer t with
  | .off | .done => none
  | .spawned deadline =>
    if p.clock < deadline then
      let wake := p.clock + p.backend.sleep (deadline - p.clock)
      some { p with timer := Function.update p.timer t (.asleep wake) }
    else some (p.fire t)
  | .asleep wake => if wake ≤ p.clock then some (p.fire t) else none

/-- Whether the handle can be anybody's: a thread, or the sender of a continuation that exists and
was not given to a timer thread, which alone can call the sender that was moved into it. -/
def free : Wake ι → Bool
  | .unpark _ => true
  | .send c => decide (c < p.conts ∧ p.timer c = .off)

/-- Everything that can happen to the platform. -/
def apply : Event ι → Option (Platform ι)
  | .tick n => some { p with clock := p.clock + n }
  | .wake w => if p.free w then some (p.wake w) else none
  | .alloc => some p.alloc
  | .spawn deadline => some (p.spawn deadline)
  | .timer t => p.runTimer t

/-- The sleeper with handle `w` has a wake-up waiting for it. -/
def Signalled : Wake ι → Bool
  | .unpark i => p.token i
  | .send c => p.sent c

end Platform

end WasmSafeThread
