import WasmSafeThread.Agents.History

/-!
# Linearizability

What a concurrent component is for is said by a sequential *object*: which results an operation may
have in a state, and which state it leaves.  For the agents `ι` it becomes an *atomic* object: an agent
calls an operation, at one instant the operation takes effect, and afterwards the agent returns with
its result.  Everything else is between these three, so the operations take effect one after the other,
each between its call and its return.

* `Object` : a sequential object.
* `Object.Turn` : what one agent does at the atomic object without interruption.
* `Object.Path` : a run of the atomic object, with the calls and returns in it.
* `Object.Linearizable` : a history of calls and returns is one of the atomic object.
* `Simulation` : a system whose runs are, seen from outside, runs of the atomic object.
* `Simulation.linearizable` : the histories of such a system are linearizable.
* `PhaseMap` : the case in which the local state of an agent tells where it is with its operation.

An operation that is abandoned (`Occurrence.abort`) has not taken effect.
-/

namespace WasmSafeThread

/-- A sequential object. -/
structure Object (ι O R S : Type*) where
  /-- `apply i o s r s'` : in state `s` operation `o` of agent `i` may return `r` and leave `s'`. -/
  apply : ι → O → S → R → S → Prop

/-- Where an agent is with its operation. -/
inductive Phase (O R : Type*) where
  | idle
  /-- Operation `o` has been called, and has not taken effect. -/
  | called (o : O)
  /-- It has taken effect, with result `r`. -/
  | done (r : R)
  deriving DecidableEq

/-- What is seen of an operation. -/
inductive Occurrence (ι O R : Type*) where
  | call (i : ι) (o : O)
  | ret (i : ι) (r : R)
  /-- The operation is abandoned. -/
  | abort (i : ι)
  deriving DecidableEq

variable {ι O R S : Type*}

/-- The results of agent `i`, in their order. -/
def results [DecidableEq ι] (i : ι) (h : List (Occurrence ι O R)) : List R :=
  h.filterMap fun
    | .ret j r => if j = i then some r else none
    | .call _ _ | .abort _ => none

namespace Object

variable (A : Object ι O R S)

/-- What agent `i` does at the atomic object without interruption, and what is seen of it. -/
inductive Turn (i : ι) : S → Phase O R → List (Occurrence ι O R) → S → Phase O R → Prop
  | stay {s : S} {p : Phase O R} : Turn i s p [] s p
  | call {s s' : S} {p' : Phase O R} {h : List (Occurrence ι O R)} (o : O) :
      Turn i s (.called o) h s' p' → Turn i s .idle (.call i o :: h) s' p'
  | commit {s s₁ s' : S} {p' : Phase O R} {h : List (Occurrence ι O R)} {o : O} {r : R} :
      A.apply i o s r s₁ → Turn i s₁ (.done r) h s' p' → Turn i s (.called o) h s' p'
  | ret {s s' : S} {p' : Phase O R} {h : List (Occurrence ι O R)} {r : R} :
      Turn i s .idle h s' p' → Turn i s (.done r) (.ret i r :: h) s' p'
  | abort {s s' : S} {p' : Phase O R} {h : List (Occurrence ι O R)} {o : O} :
      Turn i s .idle h s' p' → Turn i s (.called o) (.abort i :: h) s' p'

variable {A} {i : ι} {s s₁ s' : S} {o : O} {r : R} {p p' : Phase O R} {h : List (Occurrence ι O R)}

namespace Turn

/-- The operation is called. -/
theorem calls : A.Turn i s .idle [.call i o] s (.called o) := .call o .stay

/-- It takes effect. -/
theorem commits (ha : A.apply i o s r s') : A.Turn i s (.called o) [] s' (.done r) :=
  .commit ha .stay

/-- It returns. -/
theorem returns : A.Turn i s (.done r) [.ret i r] s .idle := .ret .stay

/-- It takes effect and returns. -/
theorem ends (ha : A.apply i o s r s') : A.Turn i s (.called o) [.ret i r] s' .idle :=
  .commit ha .returns

/-- It is called and takes effect. -/
theorem begins (ha : A.apply i o s r s') : A.Turn i s .idle [.call i o] s' (.done r) :=
  .call o (.commits ha)

/-- It is called, takes effect and returns. -/
theorem whole (ha : A.apply i o s r s') : A.Turn i s .idle [.call i o, .ret i r] s' .idle :=
  .call o (.ends ha)

/-- It is abandoned. -/
theorem aborts : A.Turn i s (.called o) [.abort i] s .idle := .abort .stay

end Turn

variable [DecidableEq ι]

variable (A) in
/-- A run of the atomic object, with the calls and returns in it. -/
inductive Path (c₀ : Config ι S (Phase O R)) : List (Occurrence ι O R) → Config ι S (Phase O R) → Prop
  | refl : Path c₀ [] c₀
  | tail {c : Config ι S (Phase O R)} {i : ι} {s : S} {p : Phase O R} {h e : List (Occurrence ι O R)} :
      Path c₀ h c → A.Turn i c.shared (c.loc i) e s p → Path c₀ (h ++ e) (c.set i s p)

namespace Path

variable {c₀ c c' : Config ι S (Phase O R)} {e : List (Occurrence ι O R)}

/-- One turn is a run. -/
theorem turn (ht : A.Turn i c.shared (c.loc i) e s p) : A.Path c e (c.set i s p) := .tail .refl ht

theorem trans (hc : A.Path c₀ h c) (hc' : A.Path c e c') : A.Path c₀ (h ++ e) c' := by
  induction hc' with
  | refl =>
    rw [List.append_nil]
    exact hc
  | tail _ ht ih =>
    rw [← List.append_assoc]
    exact ih.tail ht

end Path

variable (A) in
/-- The history is one of the atomic object in state `s₀`, when nobody has called yet. -/
def Linearizable (s₀ : S) (h : List (Occurrence ι O R)) : Prop :=
  ∃ c, A.Path ⟨s₀, fun _ => .idle⟩ h c

end Object

variable [DecidableEq ι] {κ σ ℓ α ε : Type*} [DecidableEq κ]

/-- What is seen of a run, if `obs i a s l` is seen when agent `i` performs `a`. -/
def visible (obs : ι → α → σ → ℓ → List (Occurrence κ O R)) :
    Config ι σ ℓ → Label ι α ε → List (Occurrence κ O R) → List (Occurrence κ O R)
  | c, .agent i a, h => h ++ obs i a c.shared (c.loc i)
  | _, .env _, h => h

/-- The runs of `M` from `c₀` are, seen through `obs`, runs of the atomic object `A` from `s₀`.  The
agents `κ` of the object need not be those of the system: one may have several operations under way. -/
structure Simulation (M : System ι σ ℓ α ε) (c₀ : Config ι σ ℓ) (A : Object κ O R S) (s₀ : S)
    (obs : ι → α → σ → ℓ → List (Occurrence κ O R)) where
  /-- The configuration of the object that belongs to one of the system. -/
  Rel : Config ι σ ℓ → Config κ S (Phase O R) → Prop
  init : Rel c₀ ⟨s₀, fun _ => .idle⟩
  agent : ∀ {c i a s l d}, M.Reachable c₀ c → Rel c d → M.step i a c.shared (c.loc i) = some (s, l) →
    ∃ d', A.Path d (obs i a c.shared (c.loc i)) d' ∧ Rel (c.set i s l) d'
  env : ∀ {c e s d}, M.Reachable c₀ c → Rel c d → M.env e c.shared = some s → Rel ⟨s, c.loc⟩ d

namespace Simulation

variable {M : System ι σ ℓ α ε} {c₀ c : Config ι σ ℓ} {A : Object κ O R S} {s₀ : S}
  {obs : ι → α → σ → ℓ → List (Occurrence κ O R)} {h : List (Occurrence κ O R)}
  {P : List (Occurrence κ O R) → Config ι σ ℓ → Label ι α ε → Prop}

/-- **Every run is seen at the atomic object**, and the two end in states that belong together. -/
theorem path (F : Simulation M c₀ A s₀ obs) (H : M.ReachNote P (visible obs) [] c₀ h c) :
    ∃ d, A.Path ⟨s₀, fun _ => .idle⟩ h d ∧ F.Rel c d := by
  refine H.invariant (I := fun h c => ∃ d, A.Path ⟨s₀, fun _ => .idle⟩ h d ∧ F.Rel c d) ?_ ?_ ?_
  · exact ⟨_, .refl, F.init⟩
  · intro h c i a s l hc hd _ hs
    obtain ⟨d, hpath, hrel⟩ := hd
    obtain ⟨d', hpath', hrel'⟩ := F.agent hc hrel hs
    exact ⟨d', hpath.trans hpath', hrel'⟩
  · intro h c e s hc hd _ hs
    obtain ⟨d, hpath, hrel⟩ := hd
    exact ⟨d, hpath, F.env hc hrel hs⟩

/-- **The histories are linearizable.** -/
theorem linearizable (F : Simulation M c₀ A s₀ obs) (H : M.ReachNote P (visible obs) [] c₀ h c) :
    A.Linearizable s₀ h := by
  obtain ⟨d, hpath, -⟩ := F.path H
  exact ⟨d, hpath⟩

end Simulation

/-- The agents of the object are those of the system, and the local state of an agent tells where it is
with its operation: what it does is a turn at the object. -/
structure PhaseMap (M : System ι σ ℓ α ε) (c₀ : Config ι σ ℓ) (A : Object ι O R S) (s₀ : S)
    (obs : ι → α → σ → ℓ → List (Occurrence ι O R)) where
  /-- Where an agent is with its operation. -/
  phase : ℓ → Phase O R
  /-- The state of the object. -/
  Rel : Config ι σ ℓ → S → Prop
  init : Rel c₀ s₀
  idle : ∀ i, phase (c₀.loc i) = .idle
  agent : ∀ {c i a s l x}, M.Reachable c₀ c → Rel c x → M.step i a c.shared (c.loc i) = some (s, l) →
    ∃ y, Rel (c.set i s l) y ∧ A.Turn i x (phase (c.loc i)) (obs i a c.shared (c.loc i)) y (phase l)
  env : ∀ {c e s x}, M.Reachable c₀ c → Rel c x → M.env e c.shared = some s → Rel ⟨s, c.loc⟩ x

/-- A system whose agents make turns is one whose runs are runs of the object. -/
def PhaseMap.simulation {M : System ι σ ℓ α ε} {c₀ : Config ι σ ℓ} {A : Object ι O R S} {s₀ : S}
    {obs : ι → α → σ → ℓ → List (Occurrence ι O R)} (F : PhaseMap M c₀ A s₀ obs) :
    Simulation M c₀ A s₀ obs where
  Rel c d := F.Rel c d.shared ∧ ∀ i, d.loc i = F.phase (c.loc i)
  init := ⟨F.init, fun i => (F.idle i).symm⟩
  agent := by
    intro c i a s l d hc hd hs
    obtain ⟨hrel, hphase⟩ := hd
    obtain ⟨y, hrel', hturn⟩ := F.agent hc hrel hs
    rw [← hphase i] at hturn
    refine ⟨d.set i y (F.phase l), .turn hturn, hrel', fun j => ?_⟩
    by_cases hj : j = i
    · subst hj
      rw [Config.set_loc_self, Config.set_loc_self]
    · rw [Config.set_loc_of_ne hj, Config.set_loc_of_ne hj, hphase j]
  env hc hd hs := ⟨F.env hc hd.1 hs, hd.2⟩

end WasmSafeThread
