import WasmSafeThread.Platform.Basic
import WasmSafeThread.WaitList.Basic

/-!
# Signals on the platform

What the discipline of waiting lists needs to know of the platform: a signal stays until the
thread that owns it consumes it.
-/

namespace WasmSafeThread

variable {ι : Type*}

/-- The agent that a handle wakes; a continuation is nobody's in particular. -/
def Wake.owner : Wake ι → Option ι
  | .unpark i => some i
  | .send _ => none

theorem Slot.owner_wake {i : ι} (slot : Slot) : ∀ j, (slot.wake i).owner = some j → j = i := by
  intro j hj
  cases slot <;> cases hj
  rfl

namespace Platform

variable {p p' : Platform ι} {i : ι} {deadline : ℕ} {x : Wake ι}

@[simp] theorem signalled_alloc : p.alloc.Signalled = p.Signalled := by
  funext x; cases x <;> rfl

@[simp] theorem signalled_register (w : Way) : (p.register w).Signalled = p.Signalled := by
  cases w
  · rfl
  · exact signalled_alloc

@[simp] theorem signalled_spawn : (p.spawn deadline).Signalled = p.Signalled := by
  funext x; cases x <;> rfl

theorem signalled_fire (t : ℕ) (h : p.Signalled x = true) : (p.fire t).Signalled x = true := by
  cases x <;> simp_all [fire, Signalled, Function.update_apply]

theorem signalled_runTimer (hp : p.runTimer t = some p') (h : p.Signalled x = true) :
    p'.Signalled x = true := by
  simp only [runTimer] at hp
  split at hp
  · cases hp
  · cases hp
  · split at hp <;> cases hp
    · cases x <;> exact h
    · exact signalled_fire t h
  · split at hp <;> cases hp
    exact signalled_fire t h

variable [DecidableEq ι]

theorem signalled_wake_self (x : Wake ι) : (p.wake x).Signalled x = true := by
  cases x <;> simp [wake, Signalled]

theorem signalled_wake (y : Wake ι) (h : p.Signalled x = true) :
    (p.wake y).Signalled x = true := by
  cases x <;> cases y <;> simp_all [wake, Signalled, Function.update_apply]

theorem signalled_apply {e : Event ι} (hp : p.apply e = some p') (h : p.Signalled x = true) :
    p'.Signalled x = true := by
  cases e with
  | tick n => cases hp; cases x <;> exact h
  | wake y =>
    simp only [apply] at hp
    split at hp <;> cases hp
    exact signalled_wake y h
  | alloc => cases hp; rwa [signalled_alloc]
  | spawn deadline => cases hp; rwa [signalled_spawn]
  | timer t => exact signalled_runTimer hp h

theorem clears_consume : WaitList.Clears Wake.owner i p.Signalled (p.consume i).Signalled := by
  intro x hx
  cases x with
  | unpark j =>
    by_cases hj : j = i
    · subst hj; exact .inr rfl
    · exact .inl (by simpa [consume, Signalled, hj] using hx)
  | send c => exact .inl hx

end Platform

/-! ### The discipline over spinlocked lists of handles -/

namespace WaitList.View

variable {Q : Type*} [DecidableEq Q] {ls : Lists Q ι} {p : Platform ι} {B : Q → Prop} {q : Q}

/-- What the discipline sees of lists of handles on a platform. -/
def ofLists (ls : Lists Q ι) (p : Platform ι) (B : Q → Prop) : View Q (Wake ι) where
  locked q := (ls q).locked
  list q := (ls q).data
  signalled := p.Signalled
  blocks := B

theorem ofLists_setLocked (b : Bool) :
    ofLists (ls.setLocked q b) p B = (ofLists ls p B).setLocked q b := by
  simp only [ofLists, Lists.setLocked, setLocked, mk.injEq, and_true]
  refine ⟨?_, ?_⟩ <;> funext q' <;> by_cases h : q' = q <;> simp [h]

theorem ofLists_setData (es : List (Wake ι)) :
    ofLists (ls.setData q es) p B = (ofLists ls p B).setList q es := by
  simp only [ofLists, Lists.setData, setList, mk.injEq, and_true]
  refine ⟨?_, ?_⟩ <;> funext q' <;> by_cases h : q' = q <;> simp [h]

omit [DecidableEq Q] in
theorem ofLists_register (w : Way) : ofLists ls (p.register w) B = ofLists ls p B := by
  rw [ofLists, Platform.signalled_register]
  rfl

end WaitList.View

end WasmSafeThread
