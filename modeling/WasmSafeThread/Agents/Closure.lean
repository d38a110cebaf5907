import WasmSafeThread.Agents.Linearization

/-!
# Closures on a shared value

A closure that is called with a reference to a value reads and writes it step by step, and then returns or
panics.  What it does next may depend on everything that it has read.

* `Body` : the rest of a closure.
* `Body.exec` : the closure without interruption.
* `Body.frozen`, `Body.ReadOnly` : the same closure with a reference through which it can only read.
* `applied` : a value as a sequential object, whose operations are closures.
-/

namespace WasmSafeThread

/-- A closure on a value of type `D`, or what is left of one. -/
inductive Body (D R : Type*) where
  | ret (r : R)
  | panic
  /-- An access that replaces the value by `write` of it; the closure goes on with what it has read. -/
  | access (write : D → D) (next : D → Body D R)

namespace Body

variable {D R : Type*}

/-- The value that a closure leaves, and what it returns; `none` if it panics. -/
def exec : Body D R → D → D × Option R
  | .ret r, d => (d, some r)
  | .panic, d => (d, none)
  | .access write next, d => (next d).exec (write d)

/-- The closure with a shared reference. -/
def frozen : Body D R → Body D R
  | .ret r => .ret r
  | .panic => .panic
  | .access _ next => .access id fun d => (next d).frozen

/-- How many accesses the closure makes on the value `d`. -/
def length : Body D R → D → ℕ
  | .ret _, _ => 0
  | .panic, _ => 0
  | .access write next, d => (next d).length (write d) + 1

/-- The closure does not panic, whatever it reads. -/
def Safe : Body D R → Prop
  | .ret _ => True
  | .panic => False
  | .access _ next => ∀ d, (next d).Safe

/-- The closure changes nothing. -/
def ReadOnly : Body D R → Prop
  | .ret _ => True
  | .panic => True
  | .access write next => (∀ d, write d = d) ∧ ∀ d, (next d).ReadOnly

@[simp] theorem exec_ret (r : R) (d : D) : (ret r).exec d = (d, some r) := rfl
@[simp] theorem exec_panic (d : D) : (panic : Body D R).exec d = (d, none) := rfl
@[simp] theorem exec_access (write : D → D) (next : D → Body D R) (d : D) :
    (access write next).exec d = (next d).exec (write d) := rfl
@[simp] theorem length_access (write : D → D) (next : D → Body D R) (d : D) :
    (access write next).length d = (next d).length (write d) + 1 := rfl

/-- A closure that has only a shared reference changes nothing. -/
theorem readOnly_frozen (b : Body D R) : b.frozen.ReadOnly := by
  induction b with
  | ret r => trivial
  | panic => trivial
  | access write next ih => exact ⟨fun _ => rfl, ih⟩

end Body

/-- A value whose operations are closures; the result of one is `none` if it panics. -/
def applied {ι D R : Type*} : Object ι (Body D R) (Option R) D where
  apply _ b d r d' := b.exec d = (d', r)

end WasmSafeThread
