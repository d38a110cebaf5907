import WasmSafeThread.Agents.Basic
import Mathlib.Data.Set.Card

/-!
# Ownership of a flag, and counting agents

Two facts about a system of agents that need no knowledge of what the agents do.

* `Owner M taken holds` : every step either leaves the flag `taken` and the agent's `holds`
  alone, or sets a clear flag and starts holding, or stops holding and clears the flag.  Then in
  every reachable configuration the flag is set exactly when some agent holds it, and no two
  agents hold it (`Owner.inv`).
* `Config.holders p c` : the agents whose local state satisfies `p`.  One step changes their
  number by what it changes of `p` at the agent that moves (`Config.ncard_holders_set`).
-/

namespace WasmSafeThread

variable {ι σ ℓ α ε : Type*}

/-- The steps of `M` treat `taken` as a flag that the agents satisfying `holds` own. -/
structure Owner (M : System ι σ ℓ α ε) (taken : σ → Bool) (holds : ℓ → Bool) : Prop where
  step : ∀ {i a s l s₁ l₁}, M.step i a s l = some (s₁, l₁) →
    (taken s₁ = taken s ∧ holds l₁ = holds l) ∨
    (taken s = false ∧ taken s₁ = true ∧ holds l₁ = true) ∨
    (holds l = true ∧ taken s₁ = false ∧ holds l₁ = false)
  env : ∀ {e s s₁}, M.env e s = some s₁ → taken s₁ = taken s

/-- The flag is set exactly when an agent holds it, and at most one does. -/
structure Owned (taken : σ → Bool) (holds : ℓ → Bool) (c : Config ι σ ℓ) : Prop where
  iff : taken c.shared = true ↔ ∃ i, holds (c.loc i) = true
  unique : ∀ i j, holds (c.loc i) = true → holds (c.loc j) = true → i = j

theorem Owned.init {taken : σ → Bool} {holds : ℓ → Bool} {c : Config ι σ ℓ}
    (ht : taken c.shared = false) (hh : ∀ i, holds (c.loc i) = false) : Owned taken holds c :=
  ⟨by simp [ht, hh], by simp [hh]⟩

theorem Owned.taken_of_holds {taken : σ → Bool} {holds : ℓ → Bool} {c : Config ι σ ℓ}
    (h : Owned taken holds c) {i : ι} (hi : holds (c.loc i) = true) : taken c.shared = true :=
  h.iff.2 ⟨i, hi⟩

theorem Owned.not_holds {taken : σ → Bool} {holds : ℓ → Bool} {c : Config ι σ ℓ}
    (h : Owned taken holds c) (hf : taken c.shared = false) (i : ι) : holds (c.loc i) = false := by
  by_contra hi
  rw [Bool.not_eq_false] at hi
  rw [h.taken_of_holds hi] at hf
  cases hf

namespace Owner

variable [DecidableEq ι] {M : System ι σ ℓ α ε} {taken : σ → Bool} {holds : ℓ → Bool}

theorem owned_set (O : Owner M taken holds) {c : Config ι σ ℓ} {i : ι} {a : α} {s : σ} {l : ℓ}
    (h : Owned taken holds c) (hs : M.step i a c.shared (c.loc i) = some (s, l)) :
    Owned taken holds (c.set i s l) := by
  rcases O.step hs with ⟨ht, hl⟩ | ⟨hfree, ht, hl⟩ | ⟨hold, ht, hl⟩
  · have hloc : ∀ j, holds ((c.set i s l).loc j) = holds (c.loc j) := by grind
    refine ⟨?_, fun j k hj hk => ?_⟩
    · simp only [Config.set_shared, ht, hloc, h.iff]
    · rw [hloc] at hj hk
      exact h.unique j k hj hk
  · -- the flag was clear, so nobody held it before
    have hnone := h.not_holds hfree
    refine ⟨⟨fun _ => ⟨i, by simpa using hl⟩, fun _ => ht⟩, fun j k hj hk => ?_⟩
    grind
  · refine ⟨⟨fun hc => ?_, fun ⟨j, hj⟩ => ?_⟩, fun j k hj hk => ?_⟩
    · rw [Config.set_shared, ht] at hc
      cases hc
    · have := h.unique i j hold
      grind
    · have := h.unique i j hold
      grind

/-- **Ownership.**  From a configuration in which the flag is clear and nobody holds it, every
run keeps "set exactly when held, and by one agent". -/
theorem inv (O : Owner M taken holds) {P : Config ι σ ℓ → Label ι α ε → Prop}
    {c₀ c : Config ι σ ℓ} (h : M.Reach P c₀ c) (h₀ : Owned taken holds c₀) :
    Owned taken holds c := by
  refine h.invariant h₀ (fun c i a s l _ ih _ hs => O.owned_set ih hs) ?_
  intro c e s _ ih _ hs
  exact ⟨by rw [O.env hs]; exact ih.iff, ih.unique⟩

end Owner

/-! ### Counting -/

namespace Config

/-- The agents whose local state satisfies `p`. -/
def holders (p : ℓ → Bool) (c : Config ι σ ℓ) : Set ι := {i | p (c.loc i) = true}

variable {p : ℓ → Bool} {c : Config ι σ ℓ} {i : ι} {s : σ} {l : ℓ}

@[simp] theorem mem_holders : i ∈ c.holders p ↔ p (c.loc i) = true := Iff.rfl

variable [DecidableEq ι]

theorem holders_set_of_pos (h : p l = true) : (c.set i s l).holders p = insert i (c.holders p) := by
  ext j
  by_cases hj : j = i
  · subst hj; simp [h]
  · simp [set_loc_of_ne hj, hj]

theorem holders_set_of_neg (h : p l = false) : (c.set i s l).holders p = c.holders p \ {i} := by
  ext j
  by_cases hj : j = i
  · subst hj; simp [h]
  · simp [set_loc_of_ne hj, hj]

theorem finite_holders_set (hfin : (c.holders p).Finite) : ((c.set i s l).holders p).Finite := by
  cases h : p l
  · rw [holders_set_of_neg h]; exact hfin.sdiff
  · rw [holders_set_of_pos h]; exact hfin.insert i

/-- **Conservation.**  The number of agents satisfying `p` changes only by the agent that
moves. -/
theorem ncard_holders_set (hfin : (c.holders p).Finite) :
    ((c.set i s l).holders p).ncard + (p (c.loc i)).toNat =
      (c.holders p).ncard + (p l).toNat := by
  cases h : p l <;> cases hi : p (c.loc i)
  · have hmem : i ∉ c.holders p := by simp [hi]
    rw [holders_set_of_neg h, Set.sdiff_singleton_eq_self hmem]
  · have hmem : i ∈ c.holders p := by simp [hi]
    rw [holders_set_of_neg h]
    simpa using Set.ncard_sdiff_singleton_add_one hmem hfin
  · have hmem : i ∉ c.holders p := by simp [hi]
    rw [holders_set_of_pos h, Set.ncard_insert_of_notMem hmem hfin]
    simp
  · have hmem : i ∈ c.holders p := by simp [hi]
    rw [holders_set_of_pos h, Set.insert_eq_of_mem hmem]

end Config

end WasmSafeThread
