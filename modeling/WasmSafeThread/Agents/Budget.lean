import WasmSafeThread.Agents.Linearization
import WasmSafeThread.Agents.Progress

/-!
# What the calls pay for

How often a sequential object can give a result, whoever calls it and in whatever order.  The state has
a potential.  An operation may raise it, by what its call earns at most; a result uses some of it up.
Then the results of a history cost no more than its calls have earned (`Budget.spent_le`): also while
some operations have been called and have not returned.
-/

namespace WasmSafeThread

variable {ι O R S : Type*}

/-- A potential of an object, with what its calls earn and its results cost. -/
structure Object.Budget (A : Object ι O R S) where
  potential : S → ℕ
  gain : O → ℕ
  cost : R → ℕ
  paid : ∀ {i o s r s'}, A.apply i o s r s' → potential s' + cost r ≤ potential s + gain o

namespace Object.Budget

variable {A : Object ι O R S} (B : A.Budget)

/-- What the calls of a history have earned. -/
def earned : List (Occurrence ι O R) → ℕ
  | [] => 0
  | .call _ o :: h => B.gain o + earned h
  | .ret _ _ :: h => earned h
  | .abort _ :: h => earned h

/-- What its results have cost. -/
def spent : List (Occurrence ι O R) → ℕ
  | [] => 0
  | .call _ _ :: h => spent h
  | .ret _ r :: h => B.cost r + spent h
  | .abort _ :: h => spent h

/-- What is set aside for an operation that is under way. -/
def held : Phase O R → ℕ
  | .idle => 0
  | .called o => B.gain o
  | .done r => B.cost r

@[simp] theorem earned_nil : B.earned ([] : List (Occurrence ι O R)) = 0 := rfl
@[simp] theorem spent_nil : B.spent ([] : List (Occurrence ι O R)) = 0 := rfl

theorem earned_append (h h' : List (Occurrence ι O R)) :
    B.earned (h ++ h') = B.earned h + B.earned h' := by
  induction h with
  | nil => simp
  | cons e h ih => cases e <;> simp [earned, ih, Nat.add_assoc]

theorem spent_append (h h' : List (Occurrence ι O R)) :
    B.spent (h ++ h') = B.spent h + B.spent h' := by
  induction h with
  | nil => simp
  | cons e h ih => cases e <;> simp [spent, ih, Nat.add_assoc]

/-- One turn. -/
theorem turn {i : ι} {s s' : S} {p p' : Phase O R} {e : List (Occurrence ι O R)}
    (ht : A.Turn i s p e s' p') :
    B.potential s' + B.held p' + B.spent e ≤ B.potential s + B.held p + B.earned e := by
  induction ht with
  | stay => exact Nat.le_refl _
  | call o _ ih =>
    simp only [held, earned, spent] at ih ⊢
    omega
  | commit ha _ ih =>
    have hpaid := B.paid ha
    simp only [held] at ih ⊢
    omega
  | ret _ ih | abort _ ih =>
    simp only [held, earned, spent] at ih ⊢
    omega

variable [DecidableEq ι] {s₀ : S} {h : List (Occurrence ι O R)} {d : Config ι S (Phase O R)}

/-- **The balance of a run**, over the agents that have moved. -/
theorem path (hd : A.Path ⟨s₀, fun _ => .idle⟩ h d) :
    ∃ F : Finset ι, (∀ j, j ∉ F → d.loc j = .idle) ∧
      B.potential d.shared + ∑ j ∈ F, B.held (d.loc j) + B.spent h ≤ B.potential s₀ + B.earned h := by
  induction hd with
  | refl => exact ⟨∅, fun _ _ => rfl, by simp⟩
  | @tail d i s p h e _ ht ih =>
    obtain ⟨F, hout, hle⟩ := ih
    refine ⟨insert i F, fun j hj => ?_, ?_⟩
    · rw [Finset.mem_insert, not_or] at hj
      rw [Config.set_loc_of_ne hj.1]
      exact hout j hj.2
    · have hturn := B.turn ht
      have hsum := Config.sum_set_insert (c := d) (i := i) (s := s) (l := p) (F := F) B.held fun j hj => by
        rw [hout j hj]
        rfl
      rw [Config.set_shared, B.spent_append, B.earned_append]
      omega

/-- **The results cost no more than the calls have earned.** -/
theorem spent_le (hd : A.Linearizable s₀ h) : B.spent h ≤ B.potential s₀ + B.earned h := by
  obtain ⟨d, hpath⟩ := hd
  obtain ⟨F, -, hle⟩ := B.path hpath
  omega

end Object.Budget

end WasmSafeThread
