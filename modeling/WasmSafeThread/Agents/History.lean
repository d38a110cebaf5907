import WasmSafeThread.Agents.Basic

/-!
# Runs with a history

A statement about what happened in a run, and how often, is not about its last configuration alone.
`System.ReachNote P note h₀ c₀ h c` is a run from `c₀` to `c` along which every step was written down:
`note c a` is what the step `a` from `c` adds to the history, and `P` is a condition on the history and
the configuration before each step.  `System.History` is the case without a condition.  A run with
a history is a run (`ReachNote.reachable`).
-/

namespace WasmSafeThread

namespace System

variable {ι σ ℓ α ε η : Type*} [DecidableEq ι] (M : System ι σ ℓ α ε)

/-- A run leads from `c₀` to `c` and turns the history `h₀` into `h`, and `P` holds before each of its
steps. -/
inductive ReachNote (P : η → Config ι σ ℓ → Label ι α ε → Prop)
    (note : Config ι σ ℓ → Label ι α ε → η → η) (h₀ : η) (c₀ : Config ι σ ℓ) :
    η → Config ι σ ℓ → Prop
  | refl : ReachNote P note h₀ c₀ h₀ c₀
  | tail {h : η} {c c' : Config ι σ ℓ} {a : Label ι α ε} :
      ReachNote P note h₀ c₀ h c → P h c a → M.next c a = some c' →
        ReachNote P note h₀ c₀ (note c a h) c'

/-- A run leads from `c₀` to `c` and turns the history `h₀` into `h`. -/
abbrev History : (Config ι σ ℓ → Label ι α ε → η → η) → η → Config ι σ ℓ → η → Config ι σ ℓ → Prop :=
  M.ReachNote fun _ _ _ => True

/-- Execute a list of labels and write them down. -/
def runNote (note : Config ι σ ℓ → Label ι α ε → η → η) (h : η) (c : Config ι σ ℓ) :
    List (Label ι α ε) → Option (η × Config ι σ ℓ)
  | [] => some (h, c)
  | a :: as => (M.next c a).bind fun c' => runNote note (note c a h) c' as

/-- `P` holds before every step of the run with labels `as`, and the run exists. -/
def AlongNote (P : η → Config ι σ ℓ → Label ι α ε → Prop)
    (note : Config ι σ ℓ → Label ι α ε → η → η) (h : η) (c : Config ι σ ℓ) :
    List (Label ι α ε) → Prop
  | [] => True
  | a :: as => P h c a ∧ match M.next c a with
    | some c' => AlongNote P note (note c a h) c' as
    | none => False

variable {M} {P : η → Config ι σ ℓ → Label ι α ε → Prop}
  {note : Config ι σ ℓ → Label ι α ε → η → η} {h₀ h : η} {c₀ c : Config ι σ ℓ}

theorem ReachNote.reachable (H : M.ReachNote P note h₀ c₀ h c) : M.Reachable c₀ c := by
  induction H with
  | refl => exact .refl
  | tail _ _ hn ih => exact ih.tail trivial hn

/-- **The induction over a run with its history.** -/
theorem ReachNote.invariant {I : η → Config ι σ ℓ → Prop} (H : M.ReachNote P note h₀ c₀ h c)
    (h₀ : I h₀ c₀)
    (hagent : ∀ h c i a s l, M.Reachable c₀ c → I h c → P h c (.agent i a) →
      M.step i a c.shared (c.loc i) = some (s, l) → I (note c (.agent i a) h) (c.set i s l))
    (henv : ∀ h c e s, M.Reachable c₀ c → I h c → P h c (.env e) → M.env e c.shared = some s →
      I (note c (.env e) h) ⟨s, c.loc⟩) : I h c := by
  induction H with
  | refl => exact h₀
  | @tail h c c' a hc hP hn ih =>
    cases a with
    | agent i a =>
      obtain ⟨s, l, hs, rfl⟩ := next_agent hn
      exact hagent h c i a s l hc.reachable ih hP hs
    | env e =>
      obtain ⟨s, hs, rfl⟩ := next_env hn
      exact henv h c e s hc.reachable ih hP hs

theorem ReachNote.of_runNote {as : List (Label ι α ε)} {h' : η} {c' : Config ι σ ℓ}
    (H : M.ReachNote P note h₀ c₀ h c) (hrun : M.runNote note h c as = some (h', c'))
    (hP : M.AlongNote P note h c as) : M.ReachNote P note h₀ c₀ h' c' := by
  induction as generalizing h c with
  | nil => cases hrun; exact H
  | cons a as ih =>
    obtain ⟨c₁, h₁, h₂⟩ := Option.bind_eq_some_iff.1 hrun
    obtain ⟨hPa, hrest⟩ := hP
    rw [h₁] at hrest
    exact ih (H.tail hPa h₁) h₂ hrest

instance decidableAlongNote [∀ h c a, Decidable (P h c a)] :
    (h : η) → (c : Config ι σ ℓ) → (as : List (Label ι α ε)) → Decidable (M.AlongNote P note h c as)
  | _, _, [] => .isTrue trivial
  | h, c, a :: as =>
    have : Decidable (match M.next c a with
        | some c' => M.AlongNote P note (note c a h) c' as
        | none => False) :=
      match M.next c a with
      | some c' => decidableAlongNote (note c a h) c' as
      | none => .isFalse id
    inferInstanceAs (Decidable (_ ∧ _))

/-- A run that executes and ends with a property of the history and the configuration shows that
there is one, here by steps that satisfy `P`. -/
theorem exists_note_of_along (note : Config ι σ ℓ → Label ι α ε → η → η)
    {p : η → Config ι σ ℓ → Bool} (as : List (Label ι α ε))
    (hrun : (M.runNote note h c as).any (fun x => p x.1 x.2) = true)
    (hP : M.AlongNote P note h c as) :
    ∃ h' c', M.ReachNote P note h c h' c' ∧ p h' c' = true := by
  obtain ⟨⟨h', c'⟩, hc', hp⟩ := (Option.any_eq_true _ _).1 hrun
  exact ⟨h', c', .of_runNote .refl hc' hP, hp⟩

end System

end WasmSafeThread
