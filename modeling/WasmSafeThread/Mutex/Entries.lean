import WasmSafeThread.Agents.History
import WasmSafeThread.Mutex.Basic
import Mathlib.Data.List.Forall2

/-!
# The entries in the waiting lists of a mutex

An acquisition pushes an entry in every round of its loop that finds the mutex taken.  Only an unlock
takes entries out: neither the next round nor the end of the call looks for the entry of the last
round.

* `Calls` : the calls of each agent are numbered, and every entry in a list is tagged with the call
  that pushed it (`Calls.note`).
* `Bounded` : every entry is that of a call in progress, and each call has at most one.
* `Tidy` : the condition on a step that no call pushes an entry, or ends, while it has an entry in a
  list.
* `bounded` : in runs whose steps satisfy it, the lists are bounded.
* `entry_left` : a run with a step that does not, after which an entry belongs to no call.
-/

namespace WasmSafeThread

namespace Mutex

variable {ι R D : Type*} [DecidableEq ι]

/-- The number of the last call of each agent, and the calls that pushed the entries of each list. -/
structure Calls (ι : Type*) where
  call : ι → ℕ
  tags : Way → List (ι × ℕ)

namespace Calls

/-- Nobody has called. -/
def new : Calls ι := ⟨fun _ => 0, fun _ => []⟩

/-- Agent `i` makes its next call. -/
def next (h : Calls ι) (i : ι) : Calls ι := { h with call := Function.update h.call i (h.call i + 1) }

omit [DecidableEq ι] in
/-- The tags of list `w` are replaced. -/
def setTags (h : Calls ι) (w : Way) (ts : List (ι × ℕ)) : Calls ι :=
  { h with tags := Function.update h.tags w ts }

/-- The calls, the pushes, and the unlocks that take a list. -/
def note (c : Config ι (Shared ι R D) (Local ι R)) :
    Label ι (Act R D) (Event ι) → Calls ι → Calls ι
  | .agent i (.call _), h => h.next i
  | .agent i .step, h =>
    match (c.loc i).pc with
    | .push w _ => h.setTags w (h.tags w ++ [(i, h.call i)])
    | .didUnlock _ [] (w :: _) => h.setTags w []
    | _ => h
  | _, h => h

omit [DecidableEq ι] in
/-- The last call of agent `i` has no entry in a list. -/
def Unlisted (h : Calls ι) (i : ι) : Prop := ∀ w, (i, h.call i) ∉ h.tags w

end Calls

/-- An acquisition is in progress. -/
def Pc.acquires : Pc ι → Bool
  | .idle | .failed | .guard | .didUnlock _ _ _ => false
  | _ => true

/-- The agent is in `lock_spin` or `lock_spin_timeout`. -/
def Pc.spins : Pc ι → Bool
  | .lockSpin _ | .lockSpinNow _ => true
  | _ => false

omit [DecidableEq ι] in
/-- The handle is one that agent `i` leaves in list `w`. -/
def Registers (i : ι) (x : Wake ι) : Way → Prop
  | .sync => x = .unpark i
  | .async => ∃ c, x = .send c

/-- The operations that push an entry or end a call, without a look at the entry of the last round: the
push of the next round, the last attempt, the return with the guard, and the end of a race by its
timeout. -/
def Pc.careless (sent : ℕ → Bool) : Pc ι → Bool
  | .push _ _ | .tryLock | .leaveOk _ => true
  | .raceTimeout _ _ t => sent t
  | _ => false

/-- No call performs such an operation, and no pending future is dropped, while the call has an entry
in a list. -/
def Tidy (h : Calls ι) (c : Config ι (Shared ι R D) (Local ι R)) :
    Label ι (Act R D) (Event ι) → Prop
  | .agent i .step => (c.loc i).pc.careless c.shared.plat.sent = true → h.Unlisted i
  | .agent i .cancel => h.Unlisted i
  | _ => True

/-- Every entry in a list is that of a call in progress, and each call has at most one. -/
structure Bounded (h : Calls ι) (c : Config ι (Shared ι R D) (Local ι R)) : Prop where
  /-- The tags are those of the entries. -/
  entries : ∀ w, List.Forall₂ (fun x t => Registers t.1 x w) (c.shared.waiting w).data (h.tags w)
  /-- The call that pushed the entry is in progress. -/
  calls : ∀ w, ∀ t ∈ h.tags w, t.2 = h.call t.1 ∧ (c.loc t.1).pc.acquires = true
  nodup : (h.tags .sync ++ h.tags .async).Nodup

variable {i : ι} {a : Act R D} {s s₁ : Shared ι R D} {l l₁ : Local ι R} {h h₁ : Calls ι}
  {c : Config ι (Shared ι R D) (Local ι R)}

/-! ### What one step can do to the entries -/

/-- What a step does to the lists, their tags and the call of the agent. -/
inductive EntryMove (i : ι) (s : Shared ι R D) (l : Local ι R) (h : Calls ι) (s₁ : Shared ι R D)
    (l₁ : Local ι R) (h₁ : Calls ι) : Prop where
  /-- A call starts. -/
  | call (hl : l.pc.acquires = false) (hl₁ : l₁.pc.acquires = true) (hs : s₁ = s)
      (hh : h₁ = h.next i)
  /-- A round ends with a push. -/
  | push (w : Way) (hnone : h.Unlisted i) (hl₁ : l₁.pc.acquires = true ∧ l₁.pc.spins = false)
      (hs : s₁ = register i s w) (hh : h₁ = h.setTags w (h.tags w ++ [(i, h.call i)]))
  /-- An unlock takes a list. -/
  | take (w : Way) (hl : l.pc.acquires = false) (hl₁ : l₁.pc.acquires = false ∧ l₁.pc.spins = false)
      (hs : s₁ = s.setList w []) (hh : h₁ = h.setTags w [])
  /-- The lists stay. -/
  | other (hdata : ∀ w, (s₁.waiting w).data = (s.waiting w).data)
      (hl₁ : l₁.pc.acquires = true ∨ l.pc.acquires = false ∨ l.pc.spins = true ∨ h.Unlisted i)
      (hspins : l₁.pc.spins = true → l.pc.spins = true) (hh : h₁ = h)

omit [DecidableEq ι] in
theorem again_acquires (w : Way) (d : Option ℕ) :
    (again (ι := ι) w d).acquires = true ∧ (again (ι := ι) w d).spins = false := by
  cases d <;> exact ⟨rfl, rfl⟩

omit [DecidableEq ι] in
theorem suspend_acquires (slot : Slot) (d : Option ℕ) :
    (suspend (ι := ι) slot d).acquires = true ∧ (suspend (ι := ι) slot d).spins = false := by
  cases slot <;> cases d <;> exact ⟨rfl, rfl⟩

omit [DecidableEq ι] in
theorem Op.start_acquires (op : Op) : (op.start (ι := ι)).acquires = true := by
  rcases op with _ | d | ⟨w, _ | d⟩ <;> rfl

theorem advance_entry (hP : Tidy h c (.agent i .step))
    (hs : advance i c.shared (c.loc i) = some (s₁, l₁)) :
    EntryMove i c.shared (c.loc i) h s₁ l₁ (Calls.note c (.agent i .step) h) := by
  cases hp : (c.loc i).pc with
  | idle | failed | guard => simp [advance, hp] at hs
  | tryLock =>
    simp only [Tidy, hp, Pc.careless, true_imp_iff] at hP
    simp only [advance, hp, Shared.tryLock] at hs
    simp only [Calls.note, hp]
    split at hs <;> rename_i heq <;> cases hs
    · split at heq <;> cases heq
      exact .other (fun _ => rfl) (.inr (.inr (.inr hP))) nofun rfl
    · exact .other (fun _ => rfl) (.inr (.inr (.inr hP))) nofun rfl
  | attempt w d =>
    simp only [advance, hp, Shared.tryLock] at hs
    simp only [Calls.note, hp]
    split at hs <;> rename_i heq <;> cases hs
    · split at heq <;> cases heq
      exact .other (fun _ => rfl) (.inl rfl) nofun rfl
    · exact .other (fun _ => rfl) (.inl rfl) nofun rfl
  | lockSpin deadline =>
    simp only [advance, hp] at hs
    simp only [Calls.note, hp]
    have hspins : (c.loc i).pc.spins = true := by rw [hp]; rfl
    split at hs <;> cases hs <;>
      exact .other (fun _ => rfl) (.inr (.inr (.inl hspins))) (fun _ => hspins) rfl
  | lockSpinNow d =>
    simp only [advance, hp] at hs
    simp only [Calls.note, hp]
    have hspins : (c.loc i).pc.spins = true := by rw [hp]; rfl
    cases hs
    exact .other (fun _ => rfl) (.inr (.inr (.inl hspins))) (fun _ => hspins) rfl
  | lockNow w d =>
    simp only [advance, hp] at hs
    simp only [Calls.note, hp]
    split at hs <;> cases hs <;> exact .other (fun _ => rfl) (.inl rfl) nofun rfl
  | enter w d =>
    simp only [advance, hp] at hs
    simp only [Calls.note, hp]
    split at hs <;> cases hs
    exact .other (fun w' => Shared.setLocked_data w w' true) (.inl rfl) nofun rfl
  | push w d =>
    simp only [Tidy, hp, Pc.careless, true_imp_iff] at hP
    simp only [advance, hp] at hs
    simp only [Calls.note, hp]
    cases hs
    -- `Tidy`: the call has no entry when it pushes
    exact .push w hP ⟨rfl, rfl⟩ rfl rfl
  | leaveOk w =>
    simp only [Tidy, hp, Pc.careless, true_imp_iff] at hP
    simp only [advance, hp] at hs
    simp only [Calls.note, hp]
    cases hs
    -- `Tidy`: the call has no entry when it gets the guard
    exact .other (fun w' => Shared.setLocked_data w w' false) (.inr (.inr (.inr hP))) nofun rfl
  | leaveErr slot d =>
    simp only [advance, hp] at hs
    simp only [Calls.note, hp]
    cases hs
    obtain ⟨hacq, hspin⟩ := suspend_acquires (ι := ι) slot d
    exact .other (fun w' => Shared.setLocked_data _ w' false) (.inl hacq)
      (fun hsp => by rw [Local.goto_pc, hspin] at hsp; cases hsp) rfl
  | park d =>
    simp only [advance, hp] at hs
    simp only [Calls.note, hp]
    split at hs <;> cases hs
    obtain ⟨hacq, hspin⟩ := again_acquires (ι := ι) .sync d
    exact .other (fun _ => rfl) (.inl hacq)
      (fun hsp => by rw [Local.goto_pc, hspin] at hsp; cases hsp) rfl
  | await t =>
    simp only [advance, hp] at hs
    simp only [Calls.note, hp]
    split at hs <;> cases hs
    exact .other (fun _ => rfl) (.inl rfl) nofun rfl
  | spawnTimer d t =>
    simp only [advance, hp] at hs
    simp only [Calls.note, hp]
    cases hs
    exact .other (fun _ => rfl) (.inl rfl) nofun rfl
  | race d t t' =>
    simp only [advance, hp] at hs
    simp only [Calls.note, hp]
    split at hs <;> cases hs <;> exact .other (fun _ => rfl) (.inl rfl) nofun rfl
  | raceTimeout d t t' =>
    simp only [Tidy, hp, Pc.careless] at hP
    simp only [advance, hp] at hs
    simp only [Calls.note, hp]
    split at hs <;> rename_i hsent <;> cases hs
    · exact .other (fun _ => rfl) (.inr (.inr (.inr (hP hsent)))) nofun rfl
    · exact .other (fun _ => rfl) (.inl rfl) nofun rfl
  | didUnlock w pending rest =>
    have hl : (c.loc i).pc.acquires = false := by rw [hp]; rfl
    -- an unlock belongs to no call that has entries; it takes whole lists
    rcases pending with _ | ⟨x, pending⟩
    · rcases rest with _ | ⟨w', rest⟩ <;> simp only [advance, hp] at hs <;>
        simp only [Calls.note, hp]
      · cases hs
        exact .other (fun _ => rfl) (.inr (.inl hl)) nofun rfl
      · split at hs <;> cases hs
        exact .take w' hl ⟨rfl, rfl⟩ rfl rfl
    · simp only [advance, hp] at hs
      simp only [Calls.note, hp]
      cases hs
      exact .other (fun _ => rfl) (.inr (.inl hl)) nofun rfl

theorem step_entry (hP : Tidy h c (.agent i a))
    (hs : step i a c.shared (c.loc i) = some (s₁, l₁)) :
    EntryMove i c.shared (c.loc i) h s₁ l₁ (Calls.note c (.agent i a) h) := by
  cases a with
  | step => exact advance_entry hP (by simpa [step] using hs)
  | call op =>
    cases hp : (c.loc i).pc <;> simp only [step, hp, reduceCtorEq] at hs <;> cases hs <;>
      exact .call (by rw [hp]; rfl) op.start_acquires rfl rfl
  | spurious =>
    cases hp : (c.loc i).pc <;> simp only [step, hp, reduceCtorEq] at hs
    rename_i d
    cases hs
    obtain ⟨hacq, hspin⟩ := again_acquires (ι := ι) .sync d
    exact .other (fun _ => rfl) (.inl hacq)
      (fun hsp => by rw [Local.goto_pc, hspin] at hsp; cases hsp) rfl
  | cancel =>
    cases hp : (c.loc i).pc <;> simp only [step, hp, reduceCtorEq] at hs <;> cases hs <;>
      exact .other (fun _ => rfl) (.inr (.inr (.inr hP))) nofun rfl
  | access f | drop =>
    cases hp : (c.loc i).pc <;> simp only [step, hp, reduceCtorEq] at hs
    cases hs
    exact .other (fun _ => rfl) (.inr (.inl (by rw [hp]; rfl))) nofun rfl
  | consume =>
    simp only [step] at hs
    split at hs <;> rename_i hrest <;> cases hs
    refine .other (fun _ => rfl) (.inr (.inl ?_)) id rfl
    cases hp : (c.loc i).pc <;> rw [hp] at hrest <;> first | rfl | cases hrest

/-! ### Every run -/

/-- The invariant: the lists are bounded, and a call that spins never has an entry. -/
structure Accounted (h : Calls ι) (c : Config ι (Shared ι R D) (Local ι R)) : Prop
    extends Bounded h c where
  spins : ∀ i, (c.loc i).pc.spins = true → h.Unlisted i

namespace Accounted

omit [DecidableEq ι] in
theorem ne_of_mem (H : Bounded h c) (hl : (c.loc i).pc.acquires = false) {w : Way} {t : ι × ℕ}
    (ht : t ∈ h.tags w) : t.1 ≠ i := by
  rintro rfl
  rw [(H.calls w t ht).2] at hl
  cases hl

omit [DecidableEq ι] in
theorem ne_of_unlisted (H : Bounded h c) (hi : h.Unlisted i) {w : Way} {t : ι × ℕ}
    (ht : t ∈ h.tags w) : t.1 ≠ i := by
  rintro rfl
  apply hi w
  rwa [← (H.calls w t ht).1]

theorem calls_set (H : Bounded h c) {w : Way} {t : ι × ℕ} (ht : t ∈ h.tags w)
    (hl₁ : l₁.pc.acquires = true ∨ t.1 ≠ i) :
    t.2 = h.call t.1 ∧ ((c.set i s₁ l₁).loc t.1).pc.acquires = true := by
  obtain ⟨hcall, hacq⟩ := H.calls w t ht
  refine ⟨hcall, ?_⟩
  by_cases hti : t.1 = i
  · rw [hti, Config.set_loc_self]
    exact hl₁.resolve_right fun hne => hne hti
  · rwa [Config.set_loc_of_ne hti]

theorem of_call (H : Accounted h c) (hl : (c.loc i).pc.acquires = false) :
    Accounted (h.next i) (c.set i c.shared l₁) := by
  have hne : ∀ {w t}, t ∈ h.tags w → t.1 ≠ i := fun ht => ne_of_mem H.toBounded hl ht
  have hcall : ∀ {j}, j ≠ i → (h.next i).call j = h.call j := fun hj => by simp [Calls.next, hj]
  refine ⟨⟨H.entries, fun w t ht => ?_, H.nodup⟩, fun j hj w hmem => ?_⟩
  · rw [hcall (hne ht), Config.set_loc_of_ne (hne ht)]
    exact H.calls w t ht
  · by_cases hji : j = i
    · exact hne hmem hji
    · rw [Config.set_loc_of_ne hji] at hj
      rw [hcall hji] at hmem
      exact H.spins j hj w hmem

omit [DecidableEq ι] in
theorem mem_setTags {w w' : Way} {ts : List (ι × ℕ)} {t : ι × ℕ}
    (ht : t ∈ (h.setTags w ts).tags w') : t ∈ h.tags w' ∨ t ∈ ts := by
  by_cases hw : w' = w
  · subst hw; exact .inr (by simpa [Calls.setTags] using ht)
  · exact .inl (by simpa [Calls.setTags, hw] using ht)

omit [DecidableEq ι] in
theorem entries_setList (H : Bounded h c) {w : Way} {es : List (Wake ι)} {ts : List (ι × ℕ)}
    (hnew : List.Forall₂ (fun x t => Registers t.1 x w) es ts) (w' : Way) :
    List.Forall₂ (fun x t => Registers t.1 x w') ((c.shared.setList w es).waiting w').data
      ((h.setTags w ts).tags w') := by
  rw [Shared.setList_data]
  by_cases hw : w' = w
  · subst hw
    simpa [Calls.setTags] using hnew
  · simpa [Calls.setTags, hw] using H.entries w'

/-- A round ends with a push: the call has no other entry. -/
theorem of_push (H : Accounted h c) {w : Way} (hnone : h.Unlisted i) (hacq : l₁.pc.acquires = true)
    (hspin : l₁.pc.spins = false) :
    Accounted (h.setTags w (h.tags w ++ [(i, h.call i)])) (c.set i (register i c.shared w) l₁) := by
  have hreg : Registers i ((c.shared.plat.slot w).wake i) w := by
    cases w
    · rfl
    · exact ⟨_, rfl⟩
  have hmem : ∀ {w' t}, t ∈ (h.setTags w (h.tags w ++ [(i, h.call i)])).tags w' →
      (∃ w', t ∈ h.tags w') ∨ t = (i, h.call i) := by
    intro w' t ht
    rcases mem_setTags ht with hold | hnew
    · exact .inl ⟨w', hold⟩
    · exact (List.mem_append.1 hnew).imp (fun ht => ⟨w, ht⟩) List.mem_singleton.1
  refine ⟨⟨fun w' => ?_, fun w' t ht => ?_, ?_⟩, fun j hj w' ht => ?_⟩
  · exact entries_setList H.toBounded (List.rel_append (H.entries w) (.cons hreg .nil)) w'
  · rcases hmem ht with hold | rfl
    · obtain ⟨w', hold⟩ := hold
      exact calls_set H.toBounded hold (.inl hacq)
    · exact ⟨rfl, by simpa using hacq⟩
  · have hcons : ((i, h.call i) :: (h.tags .sync ++ h.tags .async)).Nodup :=
      List.nodup_cons.2 ⟨by simpa using ⟨hnone .sync, hnone .async⟩, H.nodup⟩
    refine (List.Perm.nodup_iff ?_).2 hcons
    cases w
    · simp [Calls.setTags]
    · simp [Calls.setTags, ← List.append_assoc]
  · by_cases hji : j = i
    · subst hji
      rw [Config.set_loc_self, hspin] at hj
      cases hj
    · rw [Config.set_loc_of_ne hji] at hj
      rcases hmem ht with ⟨w', hold⟩ | heq
      · exact H.spins j hj w' hold
      · exact hji (congrArg Prod.fst heq)

theorem of_take (H : Accounted h c) {w : Way} (hl : (c.loc i).pc.acquires = false)
    (hspin : l₁.pc.spins = false) :
    Accounted (h.setTags w []) (c.set i (c.shared.setList w []) l₁) := by
  have hmem : ∀ {w' t}, t ∈ (h.setTags w []).tags w' → t ∈ h.tags w' :=
    fun ht => (mem_setTags ht).resolve_right List.not_mem_nil
  refine ⟨⟨fun w' => entries_setList H.toBounded .nil w', fun w' t ht => ?_, ?_⟩, fun j hj w' ht => ?_⟩
  · exact calls_set H.toBounded (hmem ht) (.inr (ne_of_mem H.toBounded hl (hmem ht)))
  · refine H.nodup.sublist ?_
    cases w
    · simp [Calls.setTags]
    · simp [Calls.setTags]
  · by_cases hji : j = i
    · subst hji
      rw [Config.set_loc_self, hspin] at hj
      cases hj
    · rw [Config.set_loc_of_ne hji] at hj
      exact H.spins j hj w' (hmem ht)

theorem step (H : Accounted h c) (m : EntryMove i c.shared (c.loc i) h s₁ l₁ h₁) :
    Accounted h₁ (c.set i s₁ l₁) := by
  cases m with
  | call hl hl₁ hs hh =>
    subst hs hh
    exact H.of_call hl
  | push w hnone hl₁ hs hh =>
    subst hs hh
    exact H.of_push hnone hl₁.1 hl₁.2
  | take w hl hl₁ hs hh =>
    subst hs hh
    exact H.of_take hl hl₁.2
  | other hdata hl₁ hspins hh =>
    subst hh
    have hgo : l₁.pc.acquires = true ∨ ∀ w, ∀ t ∈ h₁.tags w, t.1 ≠ i := by
      rcases hl₁ with hl₁ | hl | hl | hnone
      · exact .inl hl₁
      · exact .inr fun w t ht => ne_of_mem H.toBounded hl ht
      · exact .inr fun w t ht => ne_of_unlisted H.toBounded (H.spins i hl) ht
      · exact .inr fun w t ht => ne_of_unlisted H.toBounded hnone ht
    refine ⟨⟨fun w => ?_, fun w t ht => ?_, H.nodup⟩, fun j hj => ?_⟩
    · rw [Config.set_shared, hdata]
      exact H.entries w
    · exact calls_set H.toBounded ht (hgo.imp_right fun hne => hne w t ht)
    · by_cases hji : j = i
      · subst hji
        rw [Config.set_loc_self] at hj
        exact H.spins j (hspins hj)
      · rw [Config.set_loc_of_ne hji] at hj
        exact H.spins j hj

end Accounted

variable {plat : Platform ι} {value : D} {regs : ι → R}

/-- **The waiting lists are bounded by the calls in progress**, in runs in which no call pushes an entry
or ends while it has one in a list: every entry is that of a call in progress, and each call has at
most one. -/
theorem bounded (H : sys.ReachNote Tidy Calls.note .new (init plat value regs) h c) : Bounded h c := by
  refine (H.invariant (I := fun h c => Accounted h c) ?_ (fun h c i a s l _ ih hP hs => ?_)
    (fun h c e s _ ih _ hs => ?_)).toBounded
  · exact ⟨⟨fun _ => .nil, fun _ => nofun, List.nodup_nil⟩, fun _ => nofun⟩
  · exact ih.step (step_entry hP hs)
  · simp only [sys, Option.map_eq_some_iff] at hs
    obtain ⟨p, -, rfl⟩ := hs
    exact ⟨⟨ih.entries, ih.calls, ih.nodup⟩, ih.spins⟩

instance (h : Calls ι) (i : ι) : Decidable (h.Unlisted i) :=
  decidable_of_iff ((i, h.call i) ∉ h.tags .sync ∧ (i, h.call i) ∉ h.tags .async)
    ⟨fun hn w => by cases w; exacts [hn.1, hn.2], fun hn => ⟨hn .sync, hn .async⟩⟩

instance (h : Calls ι) (c : Config ι (Shared ι R D) (Local ι R)) :
    (a : Label ι (Act R D) (Event ι)) → Decidable (Tidy h c a)
  | .agent _ .step => inferInstanceAs (Decidable (_ → _))
  | .agent i .cancel => inferInstanceAs (Decidable (h.Unlisted i))
  | .agent _ (.call _) | .agent _ .spurious | .agent _ (.access _) | .agent _ .drop
  | .agent _ .consume | .env _ => .isTrue trivial

/-- While agent `false` has the lock, agent `true` calls `lock_block_timeout` and parks. -/
def lockBlocked (deadline : ℕ) : List (Label Bool (Act Unit Unit) (Event Bool)) :=
  [.agent false (.call .tryLock), .agent false .step,
    .agent true (.call (.lockBlockTimeout deadline)), .agent true .step, .agent true .step,
    .agent true .step, .agent true .step, .agent true .step]

/-- A run in which a thread is blocked with its entry in the list. -/
theorem bounded_blocked :
    ∃ (h : Calls Bool) (c : Config Bool (Shared Bool Unit Unit) (Local Bool Unit)),
      sys.ReachNote Tidy Calls.note .new (init (.new .native) () fun _ => ()) h c ∧
        h.tags .sync = [(true, 1)] ∧ Bounded h c := by
  obtain ⟨h, c, H, hend⟩ := System.exists_note_of_along (M := sys) (P := Tidy) (h := Calls.new)
    (c := init (R := Unit) (.new .native) () fun _ => ()) Calls.note
    (p := fun h _ => decide (h.tags .sync = [(true, 1)])) (lockBlocked 5) (by decide) (by decide)
  rw [decide_eq_true_eq] at hend
  exact ⟨h, c, H, hend, bounded H⟩

/-- **An entry is left behind.**  A `lock_block_timeout` that times out and returns `None` leaves its
entry in the list. -/
theorem entry_left :
    ∃ (h : Calls Bool) (c : Config Bool (Shared Bool Unit Unit) (Local Bool Unit)),
      sys.History Calls.note .new (init (.new .native) () fun _ => ()) h c ∧
        (c.loc true).pc = .failed ∧ (true, 1) ∈ h.tags .sync ∧ ¬ Bounded h c := by
  obtain ⟨h, c, H, hend⟩ := System.exists_note_of_along (M := sys) (P := fun _ _ _ => True)
    (h := Calls.new) (c := init (R := Unit) (.new .native) () fun _ => ()) Calls.note
    (p := fun h c => decide ((c.loc true).pc = .failed ∧ (true, 1) ∈ h.tags .sync))
    (lockBlocked 5 ++ [.env (.tick 5), .agent true .spurious, .agent true .step, .agent true .step])
    (by decide) (by decide)
  rw [decide_eq_true_eq] at hend
  refine ⟨h, c, H, hend.1, hend.2, fun hb => ?_⟩
  have hacq := (hb.calls .sync _ hend.2).2
  rw [hend.1] at hacq
  cases hacq

end Mutex

end WasmSafeThread
