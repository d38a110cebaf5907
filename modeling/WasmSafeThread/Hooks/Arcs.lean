import WasmSafeThread.Agents.Progress
import WasmSafeThread.Hooks.Order

/-!
# The `Arc`s of the spawn hooks

A hook is in an `Arc`.  References to it are in the registry, in the registrations that are on their way,
in the operations that have taken it out of the list and drop it next, and in the threads that are going
to call it or are in the call.  The strong count is the number of these references in every run
(`Counted`), so that a hook is alive while somebody can still call it.

* `Local.refs` : the references that a thread has.
* `ArcMove` : what a step does to the references.
* `destroyed_once` : **a hook is destroyed once, by the drop of its last reference**, and when all threads
  have ended, every hook that is not registered has been destroyed.
-/

namespace WasmSafeThread

namespace Hooks

variable {ι N : Type*}

/-- The reference that an operation brings. -/
def Op.refs : Op N → List ℕ
  | .register _ k => [k]
  | _ => []

/-- The references of a call. -/
def Frame.refs : Frame ι N → List ℕ
  | .lock op | .body op => op.refs
  | .drops ks _ => ks
  | .join _ => []

/-- The references of the thread itself. -/
def Phase.refs : Phase → List ℕ
  | .cloned todo | .hooks todo => todo
  | .called k todo => k :: todo
  | .unwind ks => ks
  | _ => []

/-- The references that a thread has. -/
def Local.refs (l : Local ι N) : List ℕ := l.calls.flatMap Frame.refs ++ l.phase.refs

/-- The references in the registry. -/
def Shared.registered (s : Shared ι N) : List ℕ := s.hooks.map Prod.snd

/-- The reference that the next operation of the thread drops. -/
def Local.drops (l : Local ι N) : Option ℕ :=
  match l.user, l.calls, l.phase with
  | false, .drops (k :: _) _ :: _, _ => some k
  | false, [], .called k _ => some k
  | false, [], .unwind (k :: _) => some k
  | _, _, _ => none

/-- The hook that a step destroys. -/
def destroyed (c : Config ι (Shared ι N) (Local ι N)) : Label ι (Act ι N) Empty → Option ℕ
  | .agent i .step => (c.loc i).drops.filter fun k => c.shared.strong k == 1
  | _ => none

/-- What a step adds to the hooks that have been destroyed. -/
def noteDestroyed (c : Config ι (Shared ι N) (Local ι N)) (a : Label ι (Act ι N) Empty) (h : List ℕ) :
    List ℕ :=
  h ++ (destroyed c a).toList

/-! ### What a step does to the references -/

variable [DecidableEq ι] [DecidableEq N] {i : ι} {a : Act ι N} {s s₁ : Shared ι N} {l l₁ : Local ι N}
  {c : Config ι (Shared ι N) (Local ι N)}

/-- What a step does to the references. -/
inductive ArcMove (a : Act ι N) (s : Shared ι N) (l : Local ι N) (s₁ : Shared ι N) (l₁ : Local ι N) :
    Prop where
  /-- User code makes a hook. -/
  | make {d : Bool} (ha : a ≠ .step) (hs : s₁ = s.make d)
      (hl : ∀ k, l₁.refs.count k = l.refs.count k + if s.next = k then 1 else 0)
  /-- The thread takes the hooks that are registered. -/
  | clone (hd : l.drops = none) (hs : s₁ = s.clone s.registered)
      (hl : ∀ k, l₁.refs.count k = l.refs.count k + s.registered.count k)
  | drop {k : ℕ} (ha : a = .step) (hd : l.drops = some k) (hs : s₁ = s.drop k)
      (hl : ∀ j, l.refs.count j = l₁.refs.count j + if k = j then 1 else 0)
  /-- References move between the registry and the thread. -/
  | keep (hd : a = .step → l.drops = none) (hstrong : s₁.strong = s.strong) (hnext : s₁.next = s.next)
      (hl : ∀ k, s₁.registered.count k + l₁.refs.count k = s.registered.count k + l.refs.count k)

omit [DecidableEq ι] in
theorem op_perm (op : Op N) (hooks : List (N × ℕ)) :
    ((op.hooks hooks).map Prod.snd ++ op.dropped hooks).Perm (op.refs ++ hooks.map Prod.snd) := by
  cases op with
  | register n k => exact OrderedMap.put_perm
  | remove n => exact OrderedMap.remove_perm
  | clear => exact List.Perm.refl _

omit [DecidableEq ι] [DecidableEq N] in
theorem ArcMove.of_eq (hd : a = .step → l.drops = none) (hstrong : s₁.strong = s.strong)
    (hnext : s₁.next = s.next) (hooks : s₁.hooks = s.hooks) (hl : ∀ k, l₁.refs.count k = l.refs.count k) :
    ArcMove a s l s₁ l₁ :=
  .keep hd hstrong hnext fun k => by rw [Shared.registered, hooks, hl]; rfl

theorem Move.arcs (hm : Move i a s l s₁ l₁) : ArcMove a s l s₁ l₁ := by
  cases hm with
  | start | spawned => exact .of_eq (by rintro ⟨⟩) rfl rfl rfl fun _ => rfl
  | call hu hc =>
    cases hc with
    | register =>
      refine .make (by rintro ⟨⟩) rfl fun k => ?_
      simp only [Local.refs, Local.call, List.flatMap_cons, Frame.refs, Op.refs, List.count_append,
        List.count_cons, List.count_nil, beq_iff_eq]
      omega
    | remove | clear => exact .of_eq (by rintro ⟨⟩) rfl rfl rfl fun _ => rfl
  | join hu | ret hu => exact .of_eq (by rintro ⟨⟩) rfl rfl rfl fun _ => rfl
  | died hu hl hp => exact .of_eq (by rintro ⟨⟩) rfl rfl rfl fun _ => rfl
  | panicked hu hl => exact .of_eq (by rintro ⟨⟩) rfl rfl rfl fun k => by simp [Local.refs, hl, Frame.refs]
  | panic hu hl hp =>
    refine .of_eq (by rintro ⟨⟩) rfl rfl rfl fun k => ?_
    rcases hp with ⟨k', todo, hp, rfl⟩ | hp <;> simp [Local.refs, hl, hp, Phase.refs]
  | lock hu hl hlock =>
    exact .of_eq (fun _ => by simp [Local.drops, hu, hl]) rfl rfl rfl
      fun k => by simp [Local.refs, hl, Frame.refs]
  | @body _ _ op _ hu hl =>
    refine .keep (fun _ => by simp [Local.drops, hu, hl]) rfl rfl fun k => ?_
    have hcount := (op_perm op s.hooks).count_eq k
    simp only [Shared.registered, Local.refs, hl, List.flatMap_cons, Frame.refs, List.count_append]
      at hcount ⊢
    omega
  | drop hu hl =>
    refine .drop rfl (by simp [Local.drops, hu, hl]) rfl fun j => ?_
    simp only [Local.refs, hl, List.flatMap_cons, Frame.refs, List.count_append, List.count_cons, beq_iff_eq]
    omega
  | unlock hu hl | joined hu hl _ =>
    exact .of_eq (fun _ => by simp [Local.drops, hu, hl]) rfl rfl rfl
      fun k => by simp [Local.refs, hl, Frame.refs]
  | run hu hl hp hlock =>
    exact .of_eq (fun _ => by simp [Local.drops, hu, hl, hp]) rfl rfl rfl
      fun k => by simp [Local.refs, hl, hp, Phase.refs]
  | snapshot hu hl hp =>
    refine .clone (by simp [Local.drops, hu, hl, hp]) rfl fun k => ?_
    simp [Local.refs, hl, hp, Phase.refs, Shared.registered]
  | cloned hu hl hp | hook hu hl hp | main hu hl hp =>
    exact .of_eq (fun _ => by simp [Local.drops, hu, hl, hp]) rfl rfl rfl
      fun k => by simp [Local.refs, hl, hp, Phase.refs]
  | called hu hl hp | unwind hu hl hp =>
    refine .drop rfl (by simp [Local.drops, hu, hl, hp]) rfl fun j => ?_
    simp [Local.refs, hl, hp, Phase.refs, List.count_cons]
  | finish hu hl hp =>
    refine .of_eq (fun _ => ?_) rfl rfl rfl fun k => ?_
    · rcases hp with hp | hp <;> simp [Local.drops, hu, hl, hp]
    · rcases hp with hp | hp <;> simp [Local.refs, hl, hp, Phase.refs]

/-! ### The strong counts -/

/-- The strong counts are the numbers of the references, and the threads outside `F` have none. -/
structure Counted (F : Finset ι) (c : Config ι (Shared ι N) (Local ι N)) : Prop where
  outside : ∀ i, i ∉ F → (c.loc i).refs = []
  count : ∀ k, c.shared.strong k = c.shared.registered.count k + ∑ i ∈ F, (c.loc i).refs.count k
  /-- No `Arc` is made twice. -/
  fresh : ∀ k, c.shared.next ≤ k → c.shared.strong k = 0

/-- What has been destroyed is what has been made and has no reference left. -/
def Gone (h : List ℕ) (s : Shared ι N) : Prop :=
  ∀ k, h.count k = if k < s.next ∧ s.strong k = 0 then 1 else 0

variable {F : Finset ι} {h : List ℕ} {k : ℕ}

namespace Counted

omit [DecidableEq N]

theorem pos (hF : Counted F c) (hk : k ∈ c.shared.registered ∨ ∃ i, k ∈ (c.loc i).refs) :
    0 < c.shared.strong k := by
  rw [hF.count k]
  rcases hk with hk | ⟨i, hk⟩
  · exact Nat.add_pos_left (List.count_pos_iff.2 hk) _
  · have hi : i ∈ F := by
      by_contra hi
      rw [hF.outside i hi] at hk
      cases hk
    have hpos := List.count_pos_iff.2 hk
    rw [← Finset.add_sum_erase F _ hi]
    omega

omit [DecidableEq ι] in
theorem made (hF : Counted F c) (hk : 0 < c.shared.strong k) : k < c.shared.next := by
  by_contra hge
  rw [hF.fresh k (by omega)] at hk
  omega

/-- A step changes the strong counts by what it changes the references. -/
theorem balance (hF : Counted F c) (hm : ArcMove a c.shared (c.loc i) s l) (k : ℕ) :
    s.strong k + (c.shared.registered.count k + (c.loc i).refs.count k) =
      c.shared.strong k + (s.registered.count k + l.refs.count k) := by
  cases hm with
  | make ha hs hl =>
    subst hs
    show Function.update c.shared.strong c.shared.next 1 k + _ =
      c.shared.strong k + (c.shared.registered.count k + l.refs.count k)
    rw [hl k, Function.update_apply]
    by_cases heq : k = c.shared.next
    · rw [if_pos heq, if_pos heq.symm, hF.fresh k (by omega)]
      omega
    · rw [if_neg heq, if_neg (Ne.symm heq)]
      omega
  | clone hd hs hl =>
    subst hs
    show c.shared.strong k + c.shared.registered.count k + _ =
      c.shared.strong k + (c.shared.registered.count k + l.refs.count k)
    rw [hl k]
    omega
  | @drop k' ha hd hs hl =>
    subst hs
    have hpos : 0 < c.shared.strong k' := hF.pos (.inr ⟨i, List.count_pos_iff.1 (by rw [hl k']; simp)⟩)
    show Function.update c.shared.strong k' (c.shared.strong k' - 1) k + _ =
      c.shared.strong k + (c.shared.registered.count k + l.refs.count k)
    rw [hl k, Function.update_apply]
    by_cases heq : k = k'
    · rw [if_pos heq, if_pos heq.symm, heq]
      omega
    · rw [if_neg heq, if_neg (Ne.symm heq)]
      omega
  | keep hd hstrong hnext hl =>
    have hk := hl k
    rw [hstrong]
    omega

theorem step (hF : Counted F c) (hm : ArcMove a c.shared (c.loc i) s l) :
    Counted (insert i F) (c.set i s l) := by
  refine ⟨fun j hj => ?_, fun k => ?_, fun k hk => ?_⟩
  · rw [Finset.mem_insert, not_or] at hj
    rw [Config.set_loc_of_ne hj.1]
    exact hF.outside j hj.2
  · have hsum := Config.sum_set_insert (c := c) (i := i) (s := s) (l := l) (F := F)
      (fun l : Local ι N => l.refs.count k) fun j hj => by rw [hF.outside j hj]; rfl
    have hcount := hF.count k
    have hbalance := hF.balance hm k
    rw [Config.set_shared]
    omega
  · have hzero : c.shared.next ≤ k → c.shared.strong k = 0 := hF.fresh k
    rw [Config.set_shared] at hk ⊢
    cases hm with
    | make ha hs hl =>
      subst hs
      have hk : c.shared.next + 1 ≤ k := hk
      show Function.update c.shared.strong c.shared.next 1 k = 0
      rw [Function.update_of_ne (by omega)]
      exact hzero (by omega)
    | clone hd hs hl =>
      subst hs
      have hcount := hF.count k
      have hzero := hzero hk
      show c.shared.strong k + c.shared.registered.count k = 0
      omega
    | @drop k' ha hd hs hl =>
      subst hs
      show Function.update c.shared.strong k' (c.shared.strong k' - 1) k = 0
      rw [Function.update_apply]
      split
      · rename_i heq
        rw [← heq, hzero hk]
      · exact hzero hk
    | keep hd hstrong hnext hl =>
      rw [hstrong]
      exact hzero (hnext ▸ hk)

end Counted

omit [DecidableEq N] in
theorem Gone.step (hF : Counted F c) (hg : Gone h c.shared) (hm : ArcMove a c.shared (c.loc i) s l) :
    Gone (noteDestroyed c (.agent i a) h) s := by
  have hnone : (a = .step → (c.loc i).drops = none) → noteDestroyed c (.agent i a) h = h := fun hd => by
    cases a with
    | step => simp [noteDestroyed, destroyed, hd rfl]
    | _ => simp [noteDestroyed, destroyed]
  intro k
  cases hm with
  | make ha hs hl =>
    subst hs
    rw [hnone fun h => absurd h ha, hg k]
    refine if_congr ?_ rfl rfl
    show _ ↔ k < c.shared.next + 1 ∧ Function.update c.shared.strong c.shared.next 1 k = 0
    rw [Function.update_apply]
    split <;> omega
  | clone hd hs hl =>
    subst hs
    have hcount := hF.count k
    rw [hnone fun _ => hd, hg k]
    refine if_congr ?_ rfl rfl
    show _ ↔ k < c.shared.next ∧ c.shared.strong k + c.shared.registered.count k = 0
    omega
  | @drop k' ha hd hs hl =>
    subst hs ha
    have hpos : 0 < c.shared.strong k' := hF.pos (.inr ⟨i, List.count_pos_iff.1 (by rw [hl k']; simp)⟩)
    have hnote : (noteDestroyed c (.agent i .step) h).count k =
        h.count k + if k' = k ∧ c.shared.strong k' = 1 then 1 else 0 := by
      simp only [noteDestroyed, destroyed, hd, List.count_append, Option.filter_some, beq_iff_eq]
      by_cases hone : c.shared.strong k' = 1 <;> simp [hone, List.count_cons]
    rw [hnote, hg k]
    show _ = if k < c.shared.next ∧
      Function.update c.shared.strong k' (c.shared.strong k' - 1) k = 0 then 1 else 0
    rw [Function.update_apply]
    by_cases heq : k = k'
    · -- the last reference is dropped when the count was 1
      have hmade := hF.made hpos
      subst heq
      by_cases hone : c.shared.strong k = 1
      · simp [hone, hmade]
      · have hsub : c.shared.strong k - 1 ≠ 0 := by omega
        simp [hone, hsub, Nat.pos_iff_ne_zero.1 hpos]
    · simp [heq, Ne.symm heq]
  | keep hd hstrong hnext hl => rw [hnone hd, hg k, hstrong, hnext]

/-- **A hook is destroyed once, by the drop of its last reference.**  In every run the strong counts are
the numbers of the references, no hook is destroyed twice, and one has been destroyed exactly when it has
been made and is neither registered nor referred to by a thread: a hook is alive while a run can still
call it, and none is left over. -/
theorem destroyed_once (H : sys.History noteDestroyed [] init h c) :
    (∃ F, Counted F c) ∧ h.Nodup ∧
    ∀ k, k ∈ h ↔ k < c.shared.next ∧ k ∉ c.shared.registered ∧ ∀ i, k ∉ (c.loc i).refs := by
  obtain ⟨⟨F, hF⟩, hg⟩ : (∃ F, Counted F c) ∧ Gone h c.shared := by
    refine H.invariant (I := fun h c => (∃ F, Counted F c) ∧ Gone h c.shared) ?_ ?_ (by rintro _ _ ⟨⟩)
    · exact ⟨⟨∅, fun _ _ => rfl, fun _ => rfl, fun _ _ => rfl⟩, fun k => by simp [init]⟩
    · rintro h c i a s l - ⟨⟨F, hF⟩, hg⟩ - hs
      have hm := (step_move hs).arcs
      exact ⟨⟨insert i F, hF.step hm⟩, hg.step hF hm⟩
  refine ⟨⟨F, hF⟩, List.nodup_iff_count_le_one.2 fun k => ?_, fun k => ?_⟩
  · rw [hg k]
    split <;> omega
  · have hzero : c.shared.strong k = 0 ↔ k ∉ c.shared.registered ∧ ∀ i, k ∉ (c.loc i).refs := by
      constructor
      · intro hk
        have hno : ¬ (k ∈ c.shared.registered ∨ ∃ i, k ∈ (c.loc i).refs) := fun h => by
          have := hF.pos h
          omega
        exact ⟨fun h => hno (.inl h), fun i h => hno (.inr ⟨i, h⟩)⟩
      · rintro ⟨hreg, hrefs⟩
        rw [hF.count k, List.count_eq_zero.2 hreg, Nat.zero_add]
        exact Finset.sum_eq_zero fun i _ => List.count_eq_zero.2 (hrefs i)
    rw [← List.count_pos_iff, hg k, ← hzero]
    split <;> simp_all

/-- In the run in which the first hook is replaced and the second removed before it is called, the first
is destroyed by its replacement and the second when it has been called. -/
theorem destroyed_once_replaceAndRemove :
    ∃ (h : List ℕ) (c : Config Bool (Shared Bool Bool) (Local Bool Bool)),
      sys.History noteDestroyed [] init h c ∧ h = [0, 1] ∧ c.shared.registered = [2] ∧
      (0 ∈ h ↔ 0 < c.shared.next ∧ 0 ∉ c.shared.registered ∧ ∀ i, 0 ∉ (c.loc i).refs) := by
  obtain ⟨h, c, H, hend⟩ := System.exists_note_of_along (M := sys) (P := fun _ _ _ => True)
    (h := []) (c := init (ι := Bool) (N := Bool)) noteDestroyed
    (p := fun h c => decide (h = [0, 1] ∧ c.shared.registered = [2])) replaceAndRemove (by decide) (by decide)
  rw [decide_eq_true_eq] at hend
  exact ⟨h, c, H, hend.1, hend.2, (destroyed_once H).2.2 0⟩

end Hooks

end WasmSafeThread
