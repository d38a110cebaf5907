import WasmSafeThread.Agents.Progress
import Mathlib.Algebra.Order.BigOperators.Group.Finset
import Mathlib.Data.Prod.Lex
import Mathlib.Data.Set.Finite.Basic

/-!
# A measure of three sums

How far the agents `F` of a configuration are from the end, in three numbers of which the first that
changes counts: what they still have to do as a whole; the steps of that, with a number of the shared
state; and what depends on the shared state, which every agent may change.

* `lexSum` : the measure.  One step makes it smaller by one of the three numbers (`lexSum_lt_of_first`,
  `lexSum_lt_of_second`, `lexSum_lt_of_third`).
* `System.Reach.finite_moved` : there are finitely many agents to sum over.
* `System.reach_rest` : a run to a configuration in which all agents are at rest.
-/

namespace WasmSafeThread

variable {ι σ ℓ α ε : Type*} [DecidableEq ι]

/-- Only finitely many agents have left the states that all were in at first. -/
theorem System.Reach.finite_moved {M : System ι σ ℓ α ε} {P : Config ι σ ℓ → Label ι α ε → Prop}
    {c₀ c : Config ι σ ℓ} {p : ℓ → Prop} (h : M.Reach P c₀ c) (h₀ : ∀ i, p (c₀.loc i)) :
    {i | ¬ p (c.loc i)}.Finite := by
  refine h.invariant (I := fun c => {i | ¬ p (c.loc i)}.Finite) ?_ ?_ fun _ _ _ _ ih _ _ => ih
  · simp [h₀]
  · intro c i a s l _ ih _ _
    refine (ih.insert i).subset fun j hj => ?_
    by_cases hji : j = i
    · exact .inl hji
    · rw [Set.mem_ofPred_eq, Config.set_loc_of_ne hji] at hj
      exact .inr hj

/-- **All come to rest**, if as long as some agent is not at rest one of these can make the step `a`, and
decrease a measure of the agents that are not. -/
theorem System.reach_rest {M : System ι σ ℓ α ε} {P : Config ι σ ℓ → Label ι α ε → Prop}
    {c₀ c : Config ι σ ℓ} {p : ℓ → Prop} {β : Type*} [LT β] [WellFoundedLT β]
    (μ : Finset ι → Config ι σ ℓ → β) {a : α} (h₀ : ∀ i, p (c₀.loc i))
    (hstep : ∀ F c, M.Reach P c₀ c → (∀ i, ¬ p (c.loc i) → i ∈ F) → (∃ i, ¬ p (c.loc i)) →
      ∃ i s l, ¬ p (c.loc i) ∧ M.step i a c.shared (c.loc i) = some (s, l) ∧ P c (.agent i a) ∧
        μ F (c.set i s l) < μ F c)
    (h : M.Reach P c₀ c) :
    ∃ c', M.Reach (fun c b => (∃ i, b = .agent i a) ∧ P c b) c c' ∧ M.Reach P c₀ c' ∧
      ∀ i, p (c'.loc i) := by
  have hfin := h.finite_moved h₀
  -- only the agents that are not at rest move
  obtain ⟨c', hreach, ⟨hc', -⟩, hrest⟩ := System.reach_of_measure (M := M)
    (P := fun c b => (∃ i, b = .agent i a) ∧ P c b)
    (I := fun c => M.Reach P c₀ c ∧ ∀ i, ¬ p (c.loc i) → i ∈ hfin.toFinset)
    (G := fun c => ∀ i, p (c.loc i)) (μ hfin.toFinset)
    (fun c₁ h₁ hgoal => by
      obtain ⟨i, s, l, hi, hs, hP, hlt⟩ := hstep hfin.toFinset c₁ h₁.1 h₁.2 (not_forall.1 hgoal)
      refine ⟨.agent i a, c₁.set i s l, ⟨⟨i, rfl⟩, hP⟩, by simp [System.next, hs],
        ⟨h₁.1.agent hP hs, fun j hj => ?_⟩, hlt⟩
      by_cases hji : j = i
      · rw [hji]
        exact h₁.2 i hi
      · rw [Config.set_loc_of_ne hji] at hj
        exact h₁.2 j hj)
    ⟨h, fun i hi => hfin.mem_toFinset.2 hi⟩
  exact ⟨c', hreach, hc', hrest⟩

namespace Config

variable (F : Finset ι) (f g : ℓ → ℕ) (t : σ → ℕ) (w : σ → ℓ → ℕ)

/-- Three numbers, of which the first that changes counts. -/
def lexSum (c : Config ι σ ℓ) : ℕ ×ₗ ℕ ×ₗ ℕ :=
  toLex (∑ i ∈ F, f (c.loc i),
    toLex (∑ i ∈ F, g (c.loc i) + t c.shared, ∑ i ∈ F, w c.shared (c.loc i)))

variable {F f g t w} {c : Config ι σ ℓ} {i : ι} {s : σ} {l : ℓ}

theorem lexSum_lt_of_first (hi : i ∈ F) (h : f l < f (c.loc i)) :
    (c.set i s l).lexSum F f g t w < c.lexSum F f g t w := by
  refine Prod.Lex.toLex_lt_toLex.2 (.inl ?_)
  have hf := sum_set (c := c) (s := s) f hi (l := l)
  show ∑ j ∈ F, f ((c.set i s l).loc j) < ∑ j ∈ F, f (c.loc j)
  omega

theorem lexSum_lt_of_second (hi : i ∈ F) (hfirst : f l = f (c.loc i))
    (h : g l + t s < g (c.loc i) + t c.shared) :
    (c.set i s l).lexSum F f g t w < c.lexSum F f g t w := by
  have hf := sum_set (c := c) (s := s) f hi (l := l)
  have hg := sum_set (c := c) (s := s) g hi (l := l)
  refine Prod.Lex.toLex_lt_toLex.2 (.inr ⟨?_, Prod.Lex.toLex_lt_toLex.2 (.inl ?_)⟩)
  · show ∑ j ∈ F, f ((c.set i s l).loc j) = ∑ j ∈ F, f (c.loc j)
    omega
  · show ∑ j ∈ F, g ((c.set i s l).loc j) + t s < ∑ j ∈ F, g (c.loc j) + t c.shared
    omega

/-- The step leaves the others what they have to do. -/
theorem lexSum_lt_of_third (hi : i ∈ F) (hfirst : f l = f (c.loc i)) (hsecond : g l = g (c.loc i))
    (ht : t s = t c.shared) (hothers : ∀ j, j ≠ i → w s (c.loc j) = w c.shared (c.loc j))
    (h : w s l < w c.shared (c.loc i)) :
    (c.set i s l).lexSum F f g t w < c.lexSum F f g t w := by
  have hf := sum_set (c := c) (s := s) f hi (l := l)
  have hg := sum_set (c := c) (s := s) g hi (l := l)
  refine Prod.Lex.toLex_lt_toLex.2 (.inr ⟨?_, Prod.Lex.toLex_lt_toLex.2 (.inr ⟨?_, ?_⟩)⟩)
  · show ∑ j ∈ F, f ((c.set i s l).loc j) = ∑ j ∈ F, f (c.loc j)
    omega
  · show ∑ j ∈ F, g ((c.set i s l).loc j) + t s = ∑ j ∈ F, g (c.loc j) + t c.shared
    omega
  · show ∑ j ∈ F, w s ((c.set i s l).loc j) < ∑ j ∈ F, w c.shared (c.loc j)
    refine Finset.sum_lt_sum (fun j _ => ?_) ⟨i, hi, by rwa [set_loc_self]⟩
    by_cases hj : j = i
    · subst hj
      rw [set_loc_self]
      exact Nat.le_of_lt h
    · rw [set_loc_of_ne hj]
      exact Nat.le_of_eq (hothers j hj)

end Config

end WasmSafeThread
