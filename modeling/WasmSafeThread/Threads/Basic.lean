import WasmSafeThread.Agents.Basic
import Mathlib.Data.Bool.Basic

/-!
# Threads, and what may cross between them

A lock is modelled as a system of *activities*: an acquisition and the life of the handle that it
yields (a guard, or the `&mut T` of a closure).  This module says in which threads they run.  Rust
decides what may cross from one thread to another by two traits of a type, and derives them for
references and for structs (`Traits`).  `Lock.threads` adds to a lock what these traits allow: an
activity goes on in another thread, and its handle is shared by reference with other threads.

* `Alone T c` : two threads have access to the protected value only if `T` is `Sync`.
* `Lock.alone_of_unique` : this holds of every lock that has one handle at a time, if the handle is
  `Sync` only for a `T` that is.
-/

namespace WasmSafeThread

/-- The two traits of a type that say what may cross between threads. -/
structure Traits where
  /-- `Send` : a value may be moved to another thread. -/
  send : Bool
  /-- `Sync` : a value may be used from several threads by reference. -/
  sync : Bool
  deriving DecidableEq

namespace Traits

/-- `&T`. -/
def ref (T : Traits) : Traits := ⟨T.sync, T.sync⟩

/-- `&mut T`. -/
def refMut (T : Traits) : Traits := ⟨T.send, T.sync⟩

/-- A struct with fields of the types `T` and `U`. -/
def pair (T U : Traits) : Traits := ⟨T.send && U.send, T.sync && U.sync⟩

end Traits

variable {ι σ ℓ α ε τ : Type*}

/-- A lock, seen from the outside. -/
structure Lock (ι σ ℓ α ε : Type*) where
  /-- The lock. -/
  sys : System ι σ ℓ α ε
  /-- The activity has a handle. -/
  gives : ℓ → Bool
  /-- The operation needs the handle by shared reference only. -/
  viaRef : α → Bool
  /-- The traits of the lock. -/
  traits : Traits
  /-- The traits of the handle. -/
  handle : Traits

/-- An activity, with the thread that it runs in. -/
structure Activity (ℓ τ : Type*) where
  /-- Its local state in the lock. -/
  loc : ℓ
  /-- The thread that it runs in, and that owns its handle. -/
  thread : τ
  /-- The other threads that have a reference to its handle. -/
  shared : List τ

/-- The operations of an activity. -/
inductive ThreadAct (α τ : Type*) where
  /-- An operation on the lock. -/
  | lock (a : α)
  /-- The handle, or what is left of the acquisition, is sent to thread `t`. -/
  | send (t : τ)
  /-- A reference to the handle is sent to thread `t`. -/
  | share (t : τ)
  /-- Thread `t` gives the reference back. -/
  | giveBack (t : τ)

namespace Lock

/-- The activity may go on in another thread.  Without a handle it has a reference to the lock, and
nothing else of it. -/
def maySend (L : Lock ι σ ℓ α ε) (l : Activity ℓ τ) : Bool :=
  l.shared.isEmpty && if L.gives l.loc then L.handle.send else L.traits.sync

variable [DecidableEq τ]

/-- One operation of an activity.  A handle that is shared is neither moved nor used other than by
reference. -/
def step (L : Lock ι σ ℓ α ε) (i : ι) (a : ThreadAct α τ) (s : σ) (l : Activity ℓ τ) :
    Option (σ × Activity ℓ τ) :=
  match a with
  | .lock a =>
    if l.shared.isEmpty || L.viaRef a then
      (L.sys.step i a s l.loc).map fun r => (r.1, { l with loc := r.2 })
    else none
  | .send t => if L.maySend l then some (s, { l with thread := t }) else none
  | .share t =>
    if L.gives l.loc && L.handle.sync then some (s, { l with shared := t :: l.shared }) else none
  | .giveBack t => some (s, { l with shared := l.shared.erase t })

/-- The lock and the threads. -/
def threads (τ : Type*) [DecidableEq τ] (L : Lock ι σ ℓ α ε) :
    System ι σ (Activity ℓ τ) (ThreadAct α τ) ε where
  step := L.step
  env := L.sys.env

/-- The activities of a configuration of the lock, all of them in thread `t`. -/
def start (t : τ) (c : Config ι σ ℓ) : Config ι σ (Activity ℓ τ) :=
  ⟨c.shared, fun i => ⟨c.loc i, t, []⟩⟩

variable (L : Lock ι σ ℓ α ε)

/-- Thread `t` has access to the protected value through the handle of activity `i`. -/
def Access (c : Config ι σ (Activity ℓ τ)) (i : ι) (t : τ) : Prop :=
  L.gives (c.loc i).loc = true ∧ (t = (c.loc i).thread ∨ t ∈ (c.loc i).shared)

/-- Two threads have access to the protected value only if its type is `Sync`. -/
def Alone (T : Traits) (c : Config ι σ (Activity ℓ τ)) : Prop :=
  T.sync = true ∨ ∀ i j t u, L.Access c i t → L.Access c j u → t = u

variable {L} [DecidableEq ι] {T : Traits} {t₀ : τ} {c₀ : Config ι σ ℓ}
  {c : Config ι σ (Activity ℓ τ)}

/-! ### What one operation does -/

/-- An operation on the lock by the thread of the activity, or a move of the handle. -/
inductive Moved (L : Lock ι σ ℓ α ε) (i : ι) (a : ThreadAct α τ) (s : σ) (l : Activity ℓ τ) (s₁ : σ)
    (l₁ : Activity ℓ τ) : Prop where
  | lock (b : α) (ha : a = .lock b) (hs : L.sys.step i b s l.loc = some (s₁, l₁.loc))
      (hthread : l₁.thread = l.thread) (hshared : l₁.shared = l.shared)
  | send (t : τ) (ha : a = .send t) (hshared : l.shared = []) (hs : s₁ = s)
      (hl₁ : l₁ = { l with thread := t })
  | share (t : τ) (ha : a = .share t) (hsync : L.handle.sync = true) (hs : s₁ = s)
      (hl₁ : l₁ = { l with shared := t :: l.shared })
  | giveBack (t : τ) (hs : s₁ = s) (hl₁ : l₁ = { l with shared := l.shared.erase t })

omit [DecidableEq ι] in
theorem step_moved {i : ι} {a : ThreadAct α τ} {s s₁ : σ} {l l₁ : Activity ℓ τ}
    (h : L.step i a s l = some (s₁, l₁)) : Moved L i a s l s₁ l₁ := by
  unfold step at h
  split at h
  · split at h
    · obtain ⟨⟨s', m⟩, hr, heq⟩ := Option.map_eq_some_iff.1 h
      cases heq
      exact .lock _ rfl hr rfl rfl
    · cases h
  · split at h <;> cases h
    rename_i hsend
    simp only [maySend, Bool.and_eq_true, List.isEmpty_iff] at hsend
    exact .send _ rfl hsend.1 rfl rfl
  · split at h <;> cases h
    rename_i hshare
    rw [Bool.and_eq_true] at hshare
    exact .share _ rfl hshare.2 rfl rfl
  · cases h
    exact .giveBack _ rfl rfl

/-- What the threads do is, for the lock, one of its operations or nothing. -/
def projection (L : Lock ι σ ℓ α ε) : Projection (L.threads τ) L.sys where
  shared := id
  loc := Activity.loc
  step := by
    intro i a s l s₁ l₁ h
    cases step_moved h with
    | lock b ha hs hthread hshared => exact .inr (.inl ⟨b, hs⟩)
    | send t ha hshared hs hl₁ | share t ha hsync hs hl₁ | giveBack t hs hl₁ =>
      subst hs hl₁
      exact .inl ⟨rfl, rfl⟩
  env := fun h => .inr ⟨_, h⟩

/-! ### One handle at a time -/

omit [DecidableEq ι] in
theorem step_shared (hsync : L.handle.sync = false) {i : ι} {a : ThreadAct α τ} {s s₁ : σ}
    {l l₁ : Activity ℓ τ} (h : L.step i a s l = some (s₁, l₁)) (hl : l.shared = []) :
    l₁.shared = [] := by
  cases step_moved h with
  | lock b ha hs hthread hshared => rw [hshared, hl]
  | send t ha hshared hs hl₁ => rw [hl₁, hl]
  | share t ha hs' hs hl₁ =>
    rw [hsync] at hs'
    cases hs'
  | giveBack t hs hl₁ => simp [hl₁, hl]

theorem shared_eq_nil (hsync : L.handle.sync = false)
    (h : (L.threads τ).Reachable (start t₀ c₀) c) (i : ι) : (c.loc i).shared = [] := by
  refine h.invariant (I := fun c => ∀ i, (c.loc i).shared = []) (fun _ => rfl) ?_ ?_ i
  · intro c j a s l _ ih _ hs i
    by_cases hi : i = j
    · subst hi
      rw [Config.set_loc_self]
      exact step_shared hsync hs (ih i)
    · rw [Config.set_loc_of_ne hi, ih i]
  · intro c e s _ ih _ _
    exact ih

/-- **One handle at a time is enough**, if the handle is `Sync` only for a `T` that is. -/
theorem alone_of_unique (hsync : L.handle.sync = true → T.sync = true)
    (hunique : ∀ c, L.sys.Reachable c₀ c →
      ∀ i j, L.gives (c.loc i) = true → L.gives (c.loc j) = true → i = j)
    (h : (L.threads τ).Reachable (start t₀ c₀) c) : L.Alone T c := by
  by_cases hT : T.sync = true
  · exact .inl hT
  · right
    have hshared := shared_eq_nil (Bool.eq_false_of_not_eq_true fun hs => hT (hsync hs)) h
    intro i j t u ⟨hi, ht⟩ ⟨hj, hu⟩
    have hij : i = j := hunique _ ((projection L).reachable h) i j hi hj
    subst hij
    simp only [hshared i, List.not_mem_nil, or_false] at ht hu
    rw [ht, hu]

end Lock

end WasmSafeThread
