import WasmSafeThread.Agents.Basic
import WasmSafeThread.Agents.Owner
import WasmSafeThread.Agents.History
import WasmSafeThread.Agents.Progress
import WasmSafeThread.Agents.Measure
import WasmSafeThread.Agents.Linearization
import WasmSafeThread.Agents.Budget
import WasmSafeThread.Agents.Closure
import WasmSafeThread.Spinlock
import WasmSafeThread.Spinlock.With
import WasmSafeThread.Platform.Basic
import WasmSafeThread.WaitList.Basic
import WasmSafeThread.Platform.Signals
import WasmSafeThread.Platform.Timers
import WasmSafeThread.Mutex.Basic
import WasmSafeThread.Mutex.Exclusion
import WasmSafeThread.Mutex.Waiting
import WasmSafeThread.Mutex.Deadlines
import WasmSafeThread.Mutex.Entries
import WasmSafeThread.Mutex.Success
import WasmSafeThread.Mutex.Progress
import WasmSafeThread.Mutex.With
import WasmSafeThread.Mutex.Returns
import WasmSafeThread.RwLock.Basic
import WasmSafeThread.RwLock.Exclusion
import WasmSafeThread.RwLock.Waiting
import WasmSafeThread.RwLock.ReaderLimit
import WasmSafeThread.RwLock.Linearizable
import WasmSafeThread.RwLock.With
import WasmSafeThread.RwLock.Returns
import WasmSafeThread.Condvar.Basic
import WasmSafeThread.Condvar.Exclusion
import WasmSafeThread.Condvar.Registration
import WasmSafeThread.Condvar.Notify
import WasmSafeThread.Condvar.Waiting
import WasmSafeThread.Condvar.NotifyAll
import WasmSafeThread.Condvar.Deeds
import WasmSafeThread.Condvar.HandOff
import WasmSafeThread.Condvar.Deadlines
import WasmSafeThread.Condvar.Fates
import WasmSafeThread.Condvar.Verdicts
import WasmSafeThread.Condvar.While
import WasmSafeThread.Condvar.Progress
import WasmSafeThread.Mpsc.Basic
import WasmSafeThread.Mpsc.Moves
import WasmSafeThread.Mpsc.Ownership
import WasmSafeThread.Mpsc.Fifo
import WasmSafeThread.Mpsc.Disconnect
import WasmSafeThread.Mpsc.LastSender
import WasmSafeThread.Mpsc.Wakeup
import WasmSafeThread.Mpsc.Timed
import WasmSafeThread.Mpsc.TryRecv
import WasmSafeThread.Mpsc.Steps
import WasmSafeThread.Mpsc.Progress
import WasmSafeThread.Mpsc.Linearizable
import WasmSafeThread.Threads.Basic
import WasmSafeThread.Threads.Locks
import WasmSafeThread.Parking
import WasmSafeThread.Parking.Token
import WasmSafeThread.PanicHook
import WasmSafeThread.Worker.Basic
import WasmSafeThread.Worker.Moves
import WasmSafeThread.Worker.Relay
import WasmSafeThread.Worker.Script
import WasmSafeThread.Worker.Accesses
import WasmSafeThread.Worker.Lifetime
import WasmSafeThread.Worker.Release
import WasmSafeThread.Worker.Delivery
import WasmSafeThread.Worker.ExactlyOnce
import WasmSafeThread.Worker.Cleanup
import WasmSafeThread.Worker.Context
import WasmSafeThread.Worker.Identity
import WasmSafeThread.Worker.Exit
import WasmSafeThread.OrderedMap
import WasmSafeThread.Hooks.Basic
import WasmSafeThread.Hooks.Order
import WasmSafeThread.Hooks.Reentry
import WasmSafeThread.Hooks.Linearizable
import WasmSafeThread.Hooks.Arcs
import WasmSafeThread.Spawn.Basic
import WasmSafeThread.Spawn.Delivery
import WasmSafeThread.Spawn.Calls
import WasmSafeThread.Spawn.Progress
import WasmSafeThread.Spawn.Result
