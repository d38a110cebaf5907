import WasmSafeThread.Agents.Basic
import Mathlib.Algebra.BigOperators.Group.Finset.Basic
import Mathlib.Order.WellFounded

/-!
# Runs that finish

A statement that something *can still* be done is about a run that exists, not about every run: the
others are scheduled as they have to be.  Such a run is found step by step.  It is enough that wherever
the goal is not reached some step makes a measure smaller (`System.reach_of_measure`, and
`System.reach_of_rank` for a number); which agent makes it is chosen anew in every configuration.

A measure that adds up what each agent has before it changes by what it changes for the agent that moves
(`Config.sum_set`).
-/

namespace WasmSafeThread

variable {ι σ ℓ α ε : Type*} [DecidableEq ι]

/-- **A run to the goal**, if from every configuration with the invariant that is not the goal some step
keeps the invariant and decreases a measure that cannot decrease for ever. -/
theorem System.reach_of_measure {M : System ι σ ℓ α ε} {P : Config ι σ ℓ → Label ι α ε → Prop}
    {I G : Config ι σ ℓ → Prop} {β : Type*} [LT β] [WellFoundedLT β] (μ : Config ι σ ℓ → β)
    (hstep : ∀ c, I c → ¬ G c →
      ∃ a c', P c a ∧ M.next c a = some c' ∧ I c' ∧ μ c' < μ c) {c : Config ι σ ℓ} (h : I c) :
    ∃ c', M.Reach P c c' ∧ I c' ∧ G c' := by
  -- by induction on the measure
  induction hn : μ c using WellFoundedLT.induction generalizing c with
  | _ n ih =>
    by_cases hgoal : G c
    · exact ⟨c, .refl, h, hgoal⟩
    · obtain ⟨a, c₁, hP, hnext, h₁, hlt⟩ := hstep c h hgoal
      obtain ⟨c', hreach, h', hgoal'⟩ := ih (μ c₁) (hn ▸ hlt) h₁ rfl
      exact ⟨c', (System.Reach.refl.tail hP hnext).trans hreach, h', hgoal'⟩

/-- The same with a number as the measure. -/
theorem System.reach_of_rank {M : System ι σ ℓ α ε} {P : Config ι σ ℓ → Label ι α ε → Prop}
    {I G : Config ι σ ℓ → Prop} (μ : Config ι σ ℓ → ℕ)
    (hstep : ∀ c, I c → ¬ G c →
      ∃ a c', P c a ∧ M.next c a = some c' ∧ I c' ∧ μ c' < μ c) {c : Config ι σ ℓ} (h : I c) :
    ∃ c', M.Reach P c c' ∧ I c' ∧ G c' :=
  System.reach_of_measure μ hstep h

namespace Config

variable {c : Config ι σ ℓ} {i : ι} {s : σ} {l : ℓ}

/-- Of two moves of one agent the last counts. -/
theorem set_set {s₁ : σ} {l₁ : ℓ} : (c.set i s₁ l₁).set i s l = c.set i s l := by
  simp [set]

/-- **A sum over the agents** changes by the summand of the agent that moves. -/
theorem sum_set {F : Finset ι} (f : ℓ → ℕ) (hi : i ∈ F) :
    ∑ j ∈ F, f ((c.set i s l).loc j) + f (c.loc i) = ∑ j ∈ F, f (c.loc j) + f l := by
  have hrest : ∑ j ∈ F.erase i, f ((c.set i s l).loc j) = ∑ j ∈ F.erase i, f (c.loc j) := by
    refine Finset.sum_congr rfl fun j hj => ?_
    rw [set_loc_of_ne (Finset.ne_of_mem_erase hj)]
  rw [← Finset.add_sum_erase F _ hi, ← Finset.add_sum_erase F (fun j => f (c.loc j)) hi, hrest,
    set_loc_self]
  omega

/-- The same when the others have nothing: the agent that moves may be a new one. -/
theorem sum_set_insert {F : Finset ι} (f : ℓ → ℕ) (hout : ∀ j, j ∉ F → f (c.loc j) = 0) :
    ∑ j ∈ insert i F, f ((c.set i s l).loc j) + f (c.loc i) = ∑ j ∈ F, f (c.loc j) + f l := by
  rw [sum_set f (Finset.mem_insert_self i F)]
  by_cases hi : i ∈ F
  · rw [Finset.insert_eq_of_mem hi]
  · rw [Finset.sum_insert hi, hout i hi, Nat.zero_add]

end Config

end WasmSafeThread
