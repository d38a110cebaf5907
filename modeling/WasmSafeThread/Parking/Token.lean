import WasmSafeThread.Agents.Budget
import WasmSafeThread.Agents.Owner
import WasmSafeThread.Parking

/-!
# The word is a token

`park`, `park_timeout` and `unpark` on wasm as the locks see them: operations that each take effect at
one instant.

What takes effect is said by `Token`: whether the token is there, and how many notifications may still
end a sleep.  An unpark sets the token and sends one notification.  A `park` takes the token, or is
woken by a notification; then it leaves no token.  A `park_timeout` may also find the token and leave
it, or give up.

* `linearizable_token` : every history of a word is one of the token.
* `woken_le` : at most twice as many parks are woken as `unpark` has been called.
-/

namespace WasmSafeThread

namespace Parking

/-- What is called. -/
inductive Op where
  | park (timed : Bool)
  | unpark
  deriving DecidableEq

/-- The token. -/
structure Token where
  present : Bool
  /-- The notifications that may still end a sleep. -/
  wakes : ℕ

/-- What an operation does to the token, with the word of `Atomics.wait` for a park. -/
inductive Effect : Op → Token → Option WaitResult → Token → Prop
  | unpark {t : Token} : Effect .unpark t none ⟨true, t.wakes + 1⟩
  /-- The token is taken. -/
  | take {timed : Bool} {n : ℕ} {r : WaitResult} (hr : r = .ok ∨ r = .notEqual ∧ timed = false) :
      Effect (.park timed) ⟨true, n⟩ (some r) ⟨false, n⟩
  /-- A notification ends the sleep. -/
  | wake {timed b : Bool} {n : ℕ} : Effect (.park timed) ⟨b, n + 1⟩ (some .ok) ⟨false, n⟩
  /-- `park_timeout` finds the token, and leaves it. -/
  | leave {n : ℕ} : Effect (.park true) ⟨true, n⟩ (some .notEqual) ⟨true, n⟩
  | giveUp {t : Token} : Effect (.park true) t (some .timedOut) t

/-- The token as an object. -/
def token (ι : Type*) : Object ι Op (Option WaitResult) Token := ⟨fun _ => Effect⟩

/-- Where a thread is with its operation.  A call that panics has been abandoned. -/
def Pc.phase : Pc → Phase Op (Option WaitResult)
  | .ready | .result none | .panicked => .idle
  | .exchange timed | .wait timed | .sleep timed | .woken timed _ => .called (.park timed)
  | .result (some r) => .done (some r)
  | .store => .called .unpark
  | .notify => .done none

/-- What is seen of an operation. -/
def occurs {ι : Type*} (canBlock : Bool) (i : ι) (a : Act) (_ : Shared) (pc : Pc) :
    List (Occurrence ι Op (Option WaitResult)) :=
  match pc, a with
  | .ready, .park timed => [.call i (.park timed)]
  | .ready, .unpark => [.call i .unpark]
  | .wait _, .step => if canBlock then [] else [.abort i]
  | .result (some r), .step => [.ret i (some r)]
  | .notify, .step => [.ret i none]
  | _, _ => []

/-- An unpark has not notified yet. -/
def Pc.notifies : Pc → Bool
  | .notify => true
  | _ => false

/-- The owner has been woken by a notification, and has not stored 0 yet. -/
def due (s : Shared) : Pc → ℕ
  | .woken _ .ok => 1
  | .sleep _ => if s.asleep then 0 else 1
  | _ => 0

variable {ι : Type*} [DecidableEq ι] {canBlock : Bool} {owner i : ι} {a : Act} {s s₁ : Shared}
  {pc pc₁ : Pc} {c : Config ι Shared Pc} {t : Token}

/-- The token of a word. -/
structure Seen (owner : ι) (c : Config ι Shared Pc) (t : Token) : Prop where
  word : c.shared.word = 0 ∧ t.present = false ∨ c.shared.word = 1 ∧ t.present = true
  finite : (c.holders Pc.notifies).Finite
  wakes : (c.holders Pc.notifies).ncard + due c.shared (c.loc owner) ≤ t.wakes
  /-- `"not-equal"` is about a token that is still there. -/
  notEqual : ∀ timed, c.loc owner = .woken timed .notEqual → c.shared.word = 1
  /-- `park` has no timeout. -/
  timedOut : ∀ timed, c.loc owner = .woken timed .timedOut → timed = true

omit [DecidableEq ι] in
theorem Seen.present (h : Seen owner c t) (hword : c.shared.word = 1) : t.present = true := by
  rcases h.word with ⟨hzero, -⟩ | ⟨-, hpresent⟩
  · rw [hword] at hzero
    cases hzero
  · exact hpresent

omit [DecidableEq ι] in
theorem seen_init : Seen owner init ⟨false, 0⟩ := by
  have hnone : (init : Config ι Shared Pc).holders Pc.notifies = ∅ := by
    ext j
    simp [init, Pc.notifies]
  refine ⟨.inl ⟨rfl, rfl⟩, ?_, ?_, ?_, ?_⟩
  · rw [hnone]
    exact Set.finite_empty
  · rw [hnone, Set.ncard_empty]
    rfl
  · intro timed h
    cases h
  · intro timed h
    cases h

theorem due_le_one : due s pc ≤ 1 := by
  unfold due
  split
  · exact Nat.le_refl _
  · split
    · exact Nat.zero_le _
    · exact Nat.le_refl _
  · exact Nat.zero_le _

theorem due_of_not_parks (h : pc.parks = false) : due s pc = 0 := by
  cases pc <;> first | rfl | cases h

theorem Seen.own {t' : Token} (h : Seen owner c t)
    (hword : s₁.word = 0 ∧ t'.present = false ∨ s₁.word = 1 ∧ t'.present = true)
    (hwakes : due s₁ pc₁ + pc₁.notifies.toNat + t.wakes ≤
      due c.shared (c.loc owner) + (c.loc owner).notifies.toNat + t'.wakes)
    (hnotEqual : ∀ timed, pc₁ = .woken timed .notEqual → s₁.word = 1)
    (htimedOut : ∀ timed, pc₁ = .woken timed .timedOut → timed = true) :
    Seen owner (c.set owner s₁ pc₁) t' := by
  have hcard :=
    Config.ncard_holders_set (p := Pc.notifies) (c := c) (i := owner) (s := s₁) (l := pc₁) h.finite
  have hle := h.wakes
  refine ⟨hword, Config.finite_holders_set h.finite, ?_, ?_, ?_⟩
  · rw [Config.set_shared, Config.set_loc_self]
    omega
  · rwa [Config.set_loc_self]
  · rwa [Config.set_loc_self]

theorem Seen.quiet (h : Seen owner c t) (hword : s₁.word = c.shared.word)
    (hpc₁ : ∀ timed r, pc₁ = .woken timed r → r = .ok) (hnotifies : pc₁.notifies = false)
    (hdue : due s₁ pc₁ ≤ due c.shared (c.loc owner)) : Seen owner (c.set owner s₁ pc₁) t := by
  refine h.own (by rw [hword]; exact h.word) ?_ (fun timed hw => ?_) fun timed hw => ?_
  · rw [hnotifies]
    exact Nat.add_le_add_right (Nat.le_trans hdue (Nat.le_add_right _ _)) _
  · cases hpc₁ timed _ hw
  · cases hpc₁ timed _ hw

/-- A thread moves that is in no call of `park`. -/
theorem Seen.other {t' : Token} (h : Seen owner c t) (hpc : (c.loc i).parks = false)
    (hpc₁ : pc₁.parks = false)
    (hword : s₁.word = 0 ∧ t'.present = false ∨ s₁.word = 1 ∧ t'.present = true)
    (hkeep : c.shared.word = 1 → s₁.word = 1)
    (hwakes : due s₁ (c.loc owner) + pc₁.notifies.toNat + t.wakes ≤
      due c.shared (c.loc owner) + (c.loc i).notifies.toNat + t'.wakes) :
    Seen owner (c.set i s₁ pc₁) t' := by
  by_cases hi : owner = i
  · subst hi
    rw [due_of_not_parks hpc] at hwakes
    refine h.own hword ?_ ?_ ?_
    · rw [due_of_not_parks hpc₁]
      omega
    · rintro timed rfl
      cases hpc₁
    · rintro timed rfl
      cases hpc₁
  · have hcard :=
      Config.ncard_holders_set (p := Pc.notifies) (c := c) (i := i) (s := s₁) (l := pc₁) h.finite
    have hle := h.wakes
    refine ⟨hword, Config.finite_holders_set h.finite, ?_, ?_, ?_⟩
    · rw [Config.set_shared, Config.set_loc_of_ne hi]
      omega
    · rw [Config.set_loc_of_ne hi]
      exact fun timed hw => hkeep (h.notEqual timed hw)
    · rw [Config.set_loc_of_ne hi]
      exact h.timedOut

/-- **One operation is a turn at the token.** -/
theorem Seen.step (hA : Attended owner c) (h : Seen owner c t)
    (hs : step canBlock (decide (i = owner)) a c.shared (c.loc i) = some (s₁, pc₁)) :
    ∃ t', Seen owner (c.set i s₁ pc₁) t' ∧
      (token ι).Turn i t (c.loc i).phase (occurs canBlock i a c.shared (c.loc i)) t' pc₁.phase := by
  have hparks : ∀ pc, c.loc i = pc → pc.parks = true → i = owner := fun pc hpc hp =>
    hA.parks i (by rw [hpc]; exact hp)
  generalize hpc : c.loc i = pc at hs
  unfold Parking.step at hs
  split at hs
  · -- `park` is called
    split at hs <;> cases hs
    rename_i hi
    obtain rfl := of_decide_eq_true hi
    exact ⟨t, h.quiet rfl (by rintro _ _ ⟨⟩) rfl (Nat.zero_le _), .calls⟩
  · -- `unpark` is called
    cases hs
    refine ⟨t, h.other (by rw [hpc]; rfl) rfl h.word id ?_, .calls⟩
    simp [Pc.notifies, hpc]
  · -- `compareExchange`
    obtain rfl := hparks _ hpc rfl
    split at hs <;> cases hs
    · rename_i hword
      obtain ⟨b, n⟩ := t
      obtain rfl : b = true := h.present hword
      refine ⟨⟨false, n⟩, h.own (.inl ⟨rfl, rfl⟩) ?_ (by rintro _ ⟨⟩) (by rintro _ ⟨⟩), .commits ?_⟩
      · simp [due, Pc.notifies, hpc]
      · exact .take (.inl rfl)
    · exact ⟨t, h.quiet rfl (by rintro _ _ ⟨⟩) rfl (Nat.zero_le _), .stay⟩
  · -- `Atomics.wait`
    obtain rfl := hparks _ hpc rfl
    split at hs
    · cases hs
      rename_i hblock
      refine ⟨t, h.quiet rfl (by rintro _ _ ⟨⟩) rfl (Nat.zero_le _), ?_⟩
      rw [occurs, if_neg (by simpa using hblock)]
      exact .aborts
    · rename_i hblock
      rw [occurs, if_pos (by simpa using hblock)]
      split at hs <;> cases hs
      · rename_i hword
        have hone := (h.word.resolve_left fun hzero => hword hzero.1).1
        refine ⟨t, h.own h.word ?_ (fun _ _ => hone) (by rintro _ ⟨⟩), .stay⟩
        simp [due, Pc.notifies, hpc]
      · exact ⟨t, h.quiet rfl (by rintro _ _ ⟨⟩) rfl (Nat.zero_le _), .stay⟩
  · -- the sleep has been ended by a notification
    obtain rfl := hparks _ hpc rfl
    split at hs <;> cases hs
    rename_i hasleep
    refine ⟨t, h.quiet rfl (by rintro _ _ ⟨⟩; rfl) rfl ?_, .stay⟩
    simp [due, hpc, hasleep]
  · -- it has timed out
    obtain rfl := hparks _ hpc rfl
    split at hs <;> cases hs
    rename_i htimed
    refine ⟨t, h.own h.word ?_ (by rintro _ ⟨⟩) ?_, .stay⟩
    · simp [due, Pc.notifies, hpc]
    · rintro _ ⟨⟩
      exact (Bool.and_eq_true_iff.1 htimed).2
  · -- `Atomics.wait` has returned
    rename_i timed r
    obtain rfl := hparks _ hpc rfl
    obtain ⟨b, n⟩ := t
    cases r with
    | ok =>
      rw [if_neg (by simp)] at hs
      cases hs
      obtain ⟨m, rfl⟩ : ∃ m, n = m + 1 := by
        have hle := h.wakes
        rw [hpc] at hle
        exact Nat.exists_eq_add_one.2 (Nat.lt_of_lt_of_le (Nat.succ_pos _) hle)
      refine ⟨⟨false, m⟩, h.own (.inl ⟨rfl, rfl⟩) ?_ (by rintro _ ⟨⟩) (by rintro _ ⟨⟩), .commits .wake⟩
      simp only [due, Pc.notifies, hpc, Bool.toNat_false]
      omega
    | notEqual =>
      obtain rfl : b = true := h.present (h.notEqual timed hpc)
      cases timed with
      | true =>
        cases hs
        exact ⟨⟨true, n⟩, h.quiet rfl (by rintro _ _ ⟨⟩) rfl (Nat.zero_le _), .commits .leave⟩
      | false =>
        cases hs
        refine ⟨⟨false, n⟩, h.own (.inl ⟨rfl, rfl⟩) ?_ (by rintro _ ⟨⟩) (by rintro _ ⟨⟩), .commits ?_⟩
        · simp [due, Pc.notifies, hpc]
        · exact .take (.inr ⟨rfl, rfl⟩)
    | timedOut =>
      obtain rfl := h.timedOut timed hpc
      cases hs
      exact ⟨⟨b, n⟩, h.quiet rfl (by rintro _ _ ⟨⟩) rfl (Nat.zero_le _), .commits .giveUp⟩
  · -- the panic
    obtain rfl := hparks _ hpc rfl
    cases hs
    exact ⟨t, h.quiet rfl (by rintro _ _ ⟨⟩) rfl (Nat.zero_le _), .stay⟩
  · -- the call returns
    obtain rfl := hparks _ hpc rfl
    cases hs
    exact ⟨t, h.quiet rfl (by rintro _ _ ⟨⟩) rfl (Nat.zero_le _), .returns⟩
  · -- the panic is caught
    obtain rfl := hparks _ hpc rfl
    cases hs
    exact ⟨t, h.quiet rfl (by rintro _ _ ⟨⟩) rfl (Nat.zero_le _), .stay⟩
  · -- the token is stored
    cases hs
    refine ⟨⟨true, t.wakes + 1⟩, h.other (by rw [hpc]; rfl) rfl (.inr ⟨rfl, rfl⟩) (fun _ => rfl) ?_,
      .commits .unpark⟩
    have hdue : due { c.shared with word := 1 } (c.loc owner) = due c.shared (c.loc owner) := rfl
    simp only [hdue, Pc.notifies, hpc, Bool.toNat_true, Bool.toNat_false]
    omega
  · -- the owner is notified
    cases hs
    refine ⟨t, h.other (by rw [hpc]; rfl) rfl h.word id ?_, .returns⟩
    have hdue : due ⟨c.shared.word, false, c.shared.returns⟩ (c.loc owner) ≤ 1 := due_le_one
    simp only [Pc.notifies, hpc, Bool.toNat_true, Bool.toNat_false]
    omega
  · cases hs

/-- The word is the token. -/
def simulation (canBlock : Bool) (owner : ι) :
    PhaseMap (sys canBlock owner) init (token ι) ⟨false, 0⟩ (occurs canBlock) where
  phase := Pc.phase
  Rel := Seen owner
  init := seen_init
  idle _ := rfl
  agent hc ht hs := ht.step (attended hc) hs
  env {_ e} _ _ _ := by cases e

/-- **Parking is linearizable.**  In every run the calls of `park`, `park_timeout` and `unpark` take
effect one after the other at the token, each between its call and its return; a call that panics
takes no effect. -/
theorem linearizable_token {h : List (Occurrence ι Op (Option WaitResult))}
    (H : (sys canBlock owner).History (visible (occurs canBlock)) [] init h c) :
    (token ι).Linearizable ⟨false, 0⟩ h :=
  (simulation canBlock owner).simulation.linearizable H

/-- A run in which the token of an unpark is taken, and its notification ends the next sleep. -/
def twice : List (Label Bool Act Empty) :=
  [.agent false .unpark, .agent false .step, .agent true (.park false), .agent true .step,
    .agent true .step, .agent true (.park true), .agent true .step, .agent true .step,
    .agent false .step, .agent true .step, .agent true .step, .agent true .step]

theorem linearizable_token_twice :
    ∃ (h : List (Occurrence Bool Op (Option WaitResult))) (c : Config Bool Shared Pc),
      (sys true true).History (visible (occurs true)) [] init h c ∧
      results true h = [some .ok, some .ok] ∧ results false h = [none] ∧
      (token Bool).Linearizable ⟨false, 0⟩ h := by
  obtain ⟨h, c, H, hend⟩ := System.exists_note_of_along (M := sys true true) (P := fun _ _ _ => True)
    (h := []) (c := init) (visible (occurs true))
    (p := fun h _ => decide (results true h = [some .ok, some .ok] ∧ results false h = [none]))
    twice (by decide) (by decide)
  rw [decide_eq_true_eq] at hend
  exact ⟨h, c, H, hend.1, hend.2, linearizable_token H⟩

/-! ### How often a park is woken -/

/-- How often `unpark` has been called. -/
def unparks : List (Occurrence ι Op (Option WaitResult)) → ℕ
  | [] => 0
  | .call _ .unpark :: h => unparks h + 1
  | _ :: h => unparks h

/-- An unpark pays for its token and for its notification; a park that is woken uses up one of them. -/
def budget (ι : Type*) : (token ι).Budget where
  potential t := t.present.toNat + t.wakes
  gain o := if o = .unpark then 2 else 0
  cost r := if r = some .ok then 1 else 0
  paid {_ _ t _ _} ha := by
    cases ha with
    | unpark =>
      have hpresent := t.present.toNat_le
      simp
      omega
    | take hr =>
      rename_i timed n r
      by_cases hok : r = .ok <;> simp [hok]
    | wake => simp
    | leave => simp
    | giveUp => simp

omit [DecidableEq ι] in
theorem earned_eq (h : List (Occurrence ι Op (Option WaitResult))) :
    (budget ι).earned h = 2 * unparks h := by
  induction h with
  | nil => rfl
  | cons e h ih =>
    cases e with
    | call i o =>
      cases o with
      | park timed => exact (Nat.zero_add _).trans ih
      | unpark =>
        calc 2 + (budget ι).earned h = 2 + 2 * unparks h := by rw [ih]
          _ = 2 * (unparks h + 1) := by omega
    | ret i r => exact ih
    | abort i => exact ih

theorem count_le_spent (i : ι) (h : List (Occurrence ι Op (Option WaitResult))) :
    (results i h).count (some .ok) ≤ (budget ι).spent h := by
  induction h with
  | nil => exact Nat.zero_le _
  | cons e h ih =>
    cases e with
    | call j o => exact ih
    | ret j r =>
      have hcost : (if r = some .ok then 1 else 0) + (budget ι).spent h = (budget ι).spent (.ret j r :: h) :=
        rfl
      rw [← hcost]
      by_cases hj : j = i
      · have hresults : results i (.ret j r :: h) = r :: results i h := by simp [results, hj]
        rw [hresults, List.count_cons]
        simp only [beq_iff_eq]
        omega
      · have hresults : results i (.ret j r :: h) = results i h := by simp [results, hj]
        rw [hresults]
        exact Nat.le_add_left_of_le ih
    | abort j => exact ih

/-- **A park is woken at most twice for each unpark.**  In every run the calls of `park` and
`park_timeout` that have returned `"ok"` are at most twice as many as the calls of `unpark`. -/
theorem woken_le {h : List (Occurrence ι Op (Option WaitResult))}
    (H : (sys canBlock owner).History (visible (occurs canBlock)) [] init h c) :
    (results owner h).count (some .ok) ≤ 2 * unparks h := by
  have hlin := (simulation canBlock owner).simulation.linearizable H
  have hspent := (budget ι).spent_le hlin
  rw [earned_eq] at hspent
  calc (results owner h).count (some .ok)
      ≤ (budget ι).spent h := count_le_spent owner h
    _ ≤ (budget ι).potential ⟨false, 0⟩ + 2 * unparks h := hspent
    _ = 2 * unparks h := Nat.zero_add _

/-- One `unpark` wakes two parks. -/
theorem woken_le_twice :
    ∃ (h : List (Occurrence Bool Op (Option WaitResult))) (c : Config Bool Shared Pc),
      (sys true true).History (visible (occurs true)) [] init h c ∧ unparks h = 1 ∧
      (results true h).count (some .ok) = 2 ∧ (results true h).count (some .ok) ≤ 2 * unparks h := by
  obtain ⟨h, c, H, hend⟩ := System.exists_note_of_along (M := sys true true) (P := fun _ _ _ => True)
    (h := []) (c := init) (visible (occurs true))
    (p := fun h _ => decide (unparks h = 1 ∧ (results true h).count (some .ok) = 2))
    twice (by decide) (by decide)
  rw [decide_eq_true_eq] at hend
  exact ⟨h, c, H, hend.1, hend.2, woken_le H⟩

end Parking

end WasmSafeThread
