import Mathlib.Logic.Function.Basic
import Mathlib.Data.Prod.Basic

/-!
# Agents over a shared state

Every component of this development is a family of *agents* (threads, tasks, activities) that
act on one shared state.  An agent has a local state (its control point and registers); one
atomic operation reads and writes the shared state and the local state of the agent that
performs it, and nothing else.  The environment (the clock, timers, other parts of the program)
acts on the shared state alone.  Any interleaving of these operations is a run.

* `System` : the operations, as partial functions; `none` means "not possible now" (a blocked
  operation, or one that is not at this control point).
* `System.next` : one labelled step of a configuration; `System.run` executes a list of labels.
* `System.Reach P c₀ c` : `c` is reached from `c₀` by steps that all satisfy `P`, a condition on
  the state before the step and its label.  `System.Reachable` is the case without a condition.
* `System.Reach.invariant` : the induction over a run.
* `Projection` : a system whose steps are, seen through a map, steps of another system (or
  nothing); `Projection.reachable` transports reachability, so every invariant of the lower
  system holds in the upper one.
-/

namespace WasmSafeThread

/-- A configuration: the shared state and the local state of every agent. -/
structure Config (ι σ ℓ : Type*) where
  /-- The state all agents act on. -/
  shared : σ
  /-- The local state of each agent. -/
  loc : ι → ℓ

/-- Who performs a step, and which operation it is. -/
inductive Label (ι α ε : Type*) where
  /-- Agent `i` performs `a`. -/
  | agent (i : ι) (a : α)
  /-- The environment performs `e`. -/
  | env (e : ε)

/-- A system of agents `ι` with shared states `σ`, local states `ℓ`, operations `α` of the
agents and operations `ε` of the environment. -/
structure System (ι σ ℓ α ε : Type*) where
  /-- `step i a s l` : agent `i`, in local state `l`, performs `a` on the shared state `s`. -/
  step : ι → α → σ → ℓ → Option (σ × ℓ)
  /-- `env e s` : the environment performs `e` on the shared state `s`. -/
  env : ε → σ → Option σ

variable {ι σ ℓ α ε : Type*} [DecidableEq ι]

namespace Config

/-- The configuration after agent `i` moved to local state `l` and made the shared state `s`. -/
def set (c : Config ι σ ℓ) (i : ι) (s : σ) (l : ℓ) : Config ι σ ℓ :=
  ⟨s, Function.update c.loc i l⟩

variable {c : Config ι σ ℓ} {i j : ι} {s : σ} {l : ℓ}

@[simp, grind =] theorem set_shared : (c.set i s l).shared = s := rfl

@[grind =] theorem set_loc : (c.set i s l).loc j = if j = i then l else c.loc j := by
  simp [set, Function.update_apply]

@[simp] theorem set_loc_self : (c.set i s l).loc i = l := by simp [set]

theorem set_loc_of_ne (h : j ≠ i) : (c.set i s l).loc j = c.loc j := by simp [set, h]

/-- What the agent that moves keeps, every agent keeps. -/
theorem set_loc_congr {β : Type*} {f : ℓ → β} (h : f l = f (c.loc i)) (j : ι) :
    f ((c.set i s l).loc j) = f (c.loc j) := by
  by_cases hj : j = i
  · subst hj
    rw [set_loc_self, h]
  · rw [set_loc_of_ne hj]

end Config

namespace System

variable (M : System ι σ ℓ α ε)

/-- One labelled step. -/
def next (c : Config ι σ ℓ) : Label ι α ε → Option (Config ι σ ℓ)
  | .agent i a => (M.step i a c.shared (c.loc i)).map fun r => c.set i r.1 r.2
  | .env e => (M.env e c.shared).map fun s => ⟨s, c.loc⟩

/-- Execute a list of labels. -/
def run (c : Config ι σ ℓ) : List (Label ι α ε) → Option (Config ι σ ℓ)
  | [] => some c
  | a :: as => (M.next c a).bind fun c' => run c' as

/-- `Reach P c₀ c` : a run leads from `c₀` to `c`, and `P` holds before each of its steps. -/
inductive Reach (P : Config ι σ ℓ → Label ι α ε → Prop) (c₀ : Config ι σ ℓ) :
    Config ι σ ℓ → Prop
  | refl : Reach P c₀ c₀
  | tail {c c' : Config ι σ ℓ} {a : Label ι α ε} :
      Reach P c₀ c → P c a → M.next c a = some c' → Reach P c₀ c'

/-- A run leads from `c₀` to `c`. -/
abbrev Reachable : Config ι σ ℓ → Config ι σ ℓ → Prop := M.Reach fun _ _ => True

/-- `P` holds before every step of the run with labels `as` from `c`, and the run exists. -/
def Along (P : Config ι σ ℓ → Label ι α ε → Prop) : Config ι σ ℓ → List (Label ι α ε) → Prop
  | _, [] => True
  | c, a :: as => P c a ∧ match M.next c a with
    | some c' => Along P c' as
    | none => False

variable {M} {P Q : Config ι σ ℓ → Label ι α ε → Prop} {c₀ c c' c'' : Config ι σ ℓ}

theorem next_agent {i : ι} {a : α} (h : M.next c (.agent i a) = some c') :
    ∃ s l, M.step i a c.shared (c.loc i) = some (s, l) ∧ c' = c.set i s l := by
  simp only [next, Option.map_eq_some_iff] at h
  obtain ⟨⟨s, l⟩, hstep, rfl⟩ := h
  exact ⟨s, l, hstep, rfl⟩

theorem next_env {e : ε} (h : M.next c (.env e) = some c') :
    ∃ s, M.env e c.shared = some s ∧ c' = ⟨s, c.loc⟩ := by
  simp only [next, Option.map_eq_some_iff] at h
  obtain ⟨s, hstep, rfl⟩ := h
  exact ⟨s, hstep, rfl⟩

namespace Reach

theorem mono (h : M.Reach P c₀ c) (hPQ : ∀ c a, P c a → Q c a) : M.Reach Q c₀ c := by
  induction h with
  | refl => exact refl
  | tail _ hP hn ih => exact ih.tail (hPQ _ _ hP) hn

theorem reachable (h : M.Reach P c₀ c) : M.Reachable c₀ c := h.mono fun _ _ _ => trivial

/-- Every step of a run starts in a configuration that the run has reached. -/
theorem strengthen (h : M.Reach P c₀ c) (hQ : ∀ c a, M.Reach P c₀ c → P c a → Q c a) :
    M.Reach Q c₀ c := by
  induction h with
  | refl => exact refl
  | tail hc hP hn ih => exact ih.tail (hQ _ _ hc hP) hn

theorem trans (h : M.Reach P c c') (h' : M.Reach P c' c'') : M.Reach P c c'' := by
  induction h' with
  | refl => exact h
  | tail _ hP hn ih => exact ih.tail hP hn

/-- One more step, of an agent. -/
theorem agent {i : ι} {a : α} {s : σ} {l : ℓ} (h : M.Reach P c₀ c) (hP : P c (.agent i a))
    (hs : M.step i a c.shared (c.loc i) = some (s, l)) : M.Reach P c₀ (c.set i s l) :=
  h.tail hP (by simp [next, hs])

/-- **The induction over a run.**  A property that holds at the start and is kept by every
operation of every agent and of the environment holds at the end.  Each step is given the run
that leads to it, so that invariants already proved can be used. -/
theorem invariant {I : Config ι σ ℓ → Prop} (h : M.Reach P c₀ c) (h₀ : I c₀)
    (hagent : ∀ c i a s l, M.Reach P c₀ c → I c → P c (.agent i a) →
      M.step i a c.shared (c.loc i) = some (s, l) → I (c.set i s l))
    (henv : ∀ c e s, M.Reach P c₀ c → I c → P c (.env e) →
      M.env e c.shared = some s → I ⟨s, c.loc⟩) : I c := by
  induction h with
  | refl => exact h₀
  | @tail c c' a hc hP hn ih =>
    cases a with
    | agent i a =>
      obtain ⟨s, l, hs, rfl⟩ := next_agent hn
      exact hagent c i a s l hc ih hP hs
    | env e =>
      obtain ⟨s, hs, rfl⟩ := next_env hn
      exact henv c e s hc ih hP hs

end Reach

/-- A run that executes is a run, if `P` holds along it. -/
theorem reach_of_along {as : List (Label ι α ε)} (h : M.run c as = some c')
    (hP : M.Along P c as) : M.Reach P c c' := by
  induction as generalizing c with
  | nil => cases h; exact .refl
  | cons a as ih =>
    obtain ⟨c₁, h₁, h₂⟩ := Option.bind_eq_some_iff.1 h
    obtain ⟨hPa, hrest⟩ := hP
    rw [h₁] at hrest
    exact (Reach.refl.tail hPa h₁).trans (ih h₂ hrest)

/-- The same if `Q` holds of all labels. -/
theorem reach_of_forall {Q : Label ι α ε → Prop} {as : List (Label ι α ε)} (h : M.run c as = some c')
    (hQ : ∀ a ∈ as, Q a) : M.Reach (fun _ => Q) c c' := by
  induction as generalizing c with
  | nil => cases h; exact .refl
  | cons a as ih =>
    obtain ⟨c₁, h₁, h₂⟩ := Option.bind_eq_some_iff.1 h
    have hrest := ih h₂ fun b hb => hQ b (List.mem_cons_of_mem _ hb)
    exact (Reach.refl.tail (hQ a List.mem_cons_self) h₁).trans hrest

theorem reachable_of_run {as : List (Label ι α ε)} (h : M.run c as = some c') :
    M.Reachable c c' := by
  induction as generalizing c with
  | nil => cases h; exact .refl
  | cons a as ih =>
    obtain ⟨c₁, h₁, h₂⟩ := Option.bind_eq_some_iff.1 h
    exact (Reach.refl.tail trivial h₁).trans (ih h₂)

instance decidableAlong [∀ c a, Decidable (P c a)] :
    (c : Config ι σ ℓ) → (as : List (Label ι α ε)) → Decidable (M.Along P c as)
  | _, [] => .isTrue trivial
  | c, a :: as =>
    have : Decidable (match M.next c a with
        | some c' => M.Along P c' as
        | none => False) :=
      match M.next c a with
      | some c' => decidableAlong c' as
      | none => .isFalse id
    inferInstanceAs (Decidable (_ ∧ _))

/-- A run that executes and ends in a configuration with a property shows that one with this
property is reachable, here by steps that satisfy `P`. -/
theorem exists_of_along {p : Config ι σ ℓ → Bool} (as : List (Label ι α ε))
    (h : (M.run c as).any p = true) (hP : M.Along P c as) : ∃ c', M.Reach P c c' ∧ p c' = true := by
  obtain ⟨c', hc', hp⟩ := (Option.any_eq_true _ _).1 h
  exact ⟨c', reach_of_along hc' hP, hp⟩

/-- The same without a condition on the steps. -/
theorem exists_of_run {p : Config ι σ ℓ → Bool} (as : List (Label ι α ε))
    (h : (M.run c as).any p = true) : ∃ c', M.Reachable c c' ∧ p c' = true := by
  obtain ⟨c', hc', hp⟩ := (Option.any_eq_true _ _).1 h
  exact ⟨c', reachable_of_run hc', hp⟩

end System

/-! ### Projections -/

variable {σ' ℓ' α' ε' : Type*}

/-- `M` projects to `M'` through `shared` and `loc`: what one step of an agent of `M` does is,
in `M'`, nothing, a step of the same agent, or a step of the environment. -/
structure Projection (M : System ι σ ℓ α ε) (M' : System ι σ' ℓ' α' ε') where
  /-- The part of the shared state that belongs to `M'`. -/
  shared : σ → σ'
  /-- The part of the local state that belongs to `M'`. -/
  loc : ℓ → ℓ'
  step : ∀ {i a s l s₁ l₁}, M.step i a s l = some (s₁, l₁) →
    (shared s₁ = shared s ∧ loc l₁ = loc l) ∨
    (∃ a', M'.step i a' (shared s) (loc l) = some (shared s₁, loc l₁)) ∨
    ∃ e', M'.env e' (shared s) = some (shared s₁) ∧ loc l₁ = loc l
  env : ∀ {e s s₁}, M.env e s = some s₁ →
    shared s₁ = shared s ∨ ∃ e', M'.env e' (shared s) = some (shared s₁)

namespace Projection

variable {M : System ι σ ℓ α ε} {M' : System ι σ' ℓ' α' ε'} (π : Projection M M')

/-- The configuration of `M'` inside a configuration of `M`. -/
def config (c : Config ι σ ℓ) : Config ι σ' ℓ' := ⟨π.shared c.shared, fun i => π.loc (c.loc i)⟩

theorem config_set {c : Config ι σ ℓ} {i : ι} {s : σ} {l : ℓ} :
    π.config (c.set i s l) = (π.config c).set i (π.shared s) (π.loc l) := by
  simp only [config, Config.set, Config.mk.injEq, true_and]
  funext j
  by_cases h : j = i
  · subst h; simp
  · simp [h]

theorem config_set_of_eq {c : Config ι σ ℓ} {i : ι} {s : σ} {l : ℓ}
    (h : π.loc l = π.loc (c.loc i)) :
    π.config (c.set i s l) = ⟨π.shared s, (π.config c).loc⟩ := by
  rw [config_set, h]
  simp [config, Config.set]

/-- **The lower layer of a run is a run.** -/
theorem reachable {c₀ c : Config ι σ ℓ} {P : Config ι σ ℓ → Label ι α ε → Prop}
    (h : M.Reach P c₀ c) : M'.Reachable (π.config c₀) (π.config c) := by
  refine h.invariant (I := fun c => M'.Reachable (π.config c₀) (π.config c)) .refl ?_ ?_
  · intro c i a s l _ ih _ hs
    rcases π.step hs with ⟨h₁, h₂⟩ | ⟨a', ha'⟩ | ⟨e', he', h₂⟩
    · rw [config_set_of_eq π h₂, h₁]
      exact ih
    · refine ih.tail (a := .agent i a') trivial ?_
      rw [config_set]
      simp [System.next, config, ha']
    · refine ih.tail (a := .env e') trivial ?_
      rw [config_set_of_eq π h₂]
      simp [System.next, config, he']
  · intro c e s _ ih _ hs
    rcases π.env hs with h₁ | ⟨e', he'⟩
    · simp only [config, h₁] at ih ⊢
      exact ih
    · refine ih.tail (a := .env e') trivial ?_
      simp [System.next, config, he']

end Projection

end WasmSafeThread
