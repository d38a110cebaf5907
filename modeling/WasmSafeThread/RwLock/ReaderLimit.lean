import WasmSafeThread.RwLock.Waiting
import WasmSafeThread.Agents.Progress

/-!
# The limit of 127 readers

With 127 readers `try_lock_read` panics.  The panic of `try_lock_read` and of `lock_spin_read` changes
nothing.  `lock_block_read` and `lock_async_read` make their attempts inside the section of a waiting
list: there the panic skips the `store(false)` of the list's spinlock, which stays locked, and whoever
needs the list spins for ever.

* `Outside` : the step is not such a panic inside a section.
* `Usable` : every locked spinlock is that of a section that an agent is in, and there is a run in which
  every call in progress returns and every guard is dropped.
* `usable` : the lock is usable in every run without a panic inside a section.
* `reader_limit` : an attempt that meets 127 readers leaves the lock as it was, and usable, exactly if it
  is made outside the sections.
* `locked_for_ever` : after a panic inside a section its spinlock stays locked, whatever is done.
-/

namespace WasmSafeThread

namespace RwLock

variable {ι R D : Type*}

/-- The list whose section an attempt is in. -/
def Caller.list (m : Mode) : Caller → Option Queue
  | .user | .spin => none
  | .sect w => some (m, w)

/-- The list whose section the agent is in, and will leave.  A panic has left it. -/
def Pc.sect : Pc ι → Option Queue
  | .attempt m k => k.list m
  | .exchange _ k => k.list .read
  | .push m w | .leaveOk m w => some (m, w)
  | .leaveErr m slot => some (m, slot.way)
  | _ => none

/-- There are 127 readers. -/
def Shared.full (s : Shared ι D) : Bool := decide (s.dataLock = LOCKED_WRITE - 1)

/-- The agent is in `try_lock_read` in a section. -/
def Pc.risks : Pc ι → Bool
  | .attempt .read (.sect _) | .exchange _ (.sect _) => true
  | _ => false

/-- The step is not a panic inside a section. -/
def Outside (c : Config ι (Shared ι D) (Local ι R)) : Label ι (Act R D) (Event ι) → Bool
  | .agent i .step | .agent i .spurious => !((c.loc i).pc.risks && c.shared.full)
  | _ => true

/-- The call goes on, or a guard is dropped. -/
def Finishes : Label ι (Act R D) (Event ι) → Prop
  | .agent _ a => a = .step ∨ a = .drop
  | .env _ => False

section

variable [DecidableEq ι]

/-- The lock can be used. -/
structure Usable (c : Config ι (Shared ι D) (Local ι R)) : Prop where
  /-- A locked spinlock is that of a section that an agent is in. -/
  sections : ∀ q, (c.shared.waiting q).locked = true → ∃ i, (c.loc i).pc.sect = some q
  /-- Every call in progress can return and every guard can be dropped. -/
  completes : ∃ c', sys.Reach (fun c a => Finishes a ∧ Outside c a = true) c c' ∧
    (∀ i, (c'.loc i).pc = .idle ∨ (c'.loc i).pc = .failed ∨
      ∃ k, (c.loc i).pc = .tooManyReaders k ∧ c'.loc i = c.loc i) ∧
    c'.shared.dataLock = UNLOCKED ∧ ∀ q, (c'.shared.waiting q).locked = false

end

variable {i : ι} {a : Act R D} {s s₁ : Shared ι D} {l l₁ : Local ι R}
  {c c₁ : Config ι (Shared ι D) (Local ι R)}

/-! ### The sections -/

theorem setLocked_locked (q q' : Queue) (b : Bool) :
    ((s.setLocked q b).waiting q').locked = if q' = q then b else (s.waiting q').locked := by
  by_cases h : q' = q
  · subst h; simp [Shared.setLocked, Lists.setLocked]
  · simp [Shared.setLocked, Lists.setLocked, h]

theorem setList_locked (q q' : Queue) (es : List (Wake ι)) :
    ((s.setList q es).waiting q').locked = (s.waiting q').locked := by
  by_cases h : q' = q
  · subst h; simp [Shared.setList, Lists.setData]
  · simp [Shared.setList, Lists.setData, h]

/-- What an operation does to the spinlocks. -/
inductive SectMove (s : Shared ι D) (l : Local ι R) (s₁ : Shared ι D) (l₁ : Local ι R) : Prop where
  | same (hlocked : ∀ q, (s₁.waiting q).locked = (s.waiting q).locked)
      (hl : l₁.pc.sect = l.pc.sect)
  | enter (q : Queue) (hl : l.pc.sect = none) (hl₁ : l₁.pc.sect = some q)
      (hlocked : ∀ q', (s₁.waiting q').locked = if q' = q then true else (s.waiting q').locked)
  | leave (q : Queue) (hl : l.pc.sect = some q)
      (hlocked : ∀ q', (s₁.waiting q').locked = if q' = q then false else (s.waiting q').locked)

theorem verdict_sect {f : BitVec 8} {k : Caller} (h : k.list .read = none ∨ f ≠ LOCKED_WRITE - 1) :
    ((readClosure f).next (ι := ι) k).sect = k.list .read := by
  cases hv : readClosure f with
  | refuse => cases k <;> rfl
  | add g => rfl
  | tooManyReaders =>
    rcases h with h | h
    · cases k <;> first | rfl | cases h
    · unfold readClosure at hv
      split at hv <;> cases hv

theorem Op.start_sect (op : Op) : (op.start : Pc ι).sect = none := by cases op <;> rfl

theorem Caller.list_err (k : Caller) (m : Mode) : (k.err m : Pc ι).sect = k.list m := by
  cases k <;> rfl

theorem Caller.list_ok (k : Caller) (m : Mode) : (k.ok m : Pc ι).sect = k.list m := by
  cases k <;> rfl

theorem not_full_of_risks (h : (l.pc.risks && s.full) = false) {k : Caller}
    (hp : l.pc = .attempt .read k ∨ ∃ f, l.pc = .exchange f k) :
    k.list .read = none ∨ s.dataLock ≠ LOCKED_WRITE - 1 := by
  cases k with
  | user | spin => exact .inl rfl
  | sect w =>
    right
    rcases hp with hp | ⟨f, hp⟩ <;> simpa [hp, Pc.risks, Shared.full] using h

variable [DecidableEq ι]

theorem advance_sect (h : advance i s l = some (s₁, l₁)) (hout : (l.pc.risks && s.full) = false) :
    SectMove s l s₁ l₁ := by
  cases hp : l.pc with
  | idle | failed | guard | tooManyReaders | assertFailed => simp [advance, hp] at h
  | attempt m k =>
    cases m with
    | read =>
      simp only [advance, hp] at h
      cases h
      exact .same (fun _ => rfl) ((verdict_sect (not_full_of_risks hout (.inl hp))).trans (by rw [hp]; rfl))
    | write =>
      simp only [advance, hp] at h
      split at h <;> cases h
      · exact .same (fun _ => rfl) ((k.list_ok .write).trans (by rw [hp]; rfl))
      · exact .same (fun _ => rfl) ((k.list_err .write).trans (by rw [hp]; rfl))
  | exchange f k =>
    simp only [advance, hp] at h
    split at h <;> cases h
    · exact .same (fun _ => rfl) ((k.list_ok .read).trans (by rw [hp]; rfl))
    · exact .same (fun _ => rfl)
        ((verdict_sect (not_full_of_risks hout (.inr ⟨f, hp⟩))).trans (by rw [hp]; rfl))
  | enter m w =>
    simp only [advance, hp] at h
    split at h <;> cases h
    exact .enter (m, w) (by rw [hp]; rfl) rfl fun q => setLocked_locked _ q true
  | push m w =>
    simp only [advance, hp] at h
    cases h
    refine .same (fun q => setList_locked _ q _) ?_
    rw [hp]
    cases w <;> rfl
  | leaveOk m w =>
    simp only [advance, hp] at h
    cases h
    exact .leave (m, w) (by rw [hp]; rfl) fun q => setLocked_locked _ q false
  | leaveErr m slot =>
    simp only [advance, hp] at h
    cases h
    exact .leave (m, slot.way) (by rw [hp]; rfl) fun q => setLocked_locked _ q false
  | park m =>
    simp only [advance, hp] at h
    split at h <;> cases h
    exact .same (fun _ => rfl) (by rw [hp]; rfl)
  | await m c =>
    simp only [advance, hp] at h
    split at h <;> cases h
    exact .same (fun _ => rfl) (by rw [hp]; rfl)
  | didUnlockRead q pending rest | didUnlockWrite q pending rest =>
    rcases pending with _ | ⟨x, pending⟩
    · rcases rest with _ | ⟨q', rest⟩ <;> simp only [advance, hp] at h
      · cases h
        exact .same (fun _ => rfl) (by rw [hp]; rfl)
      · split at h <;> cases h
        exact .same (fun q => setList_locked _ q _) (by rw [hp]; rfl)
    · simp only [advance, hp] at h
      cases h
      exact .same (fun _ => rfl) (by rw [hp]; rfl)

theorem step_sect (h : step i a c.shared (c.loc i) = some (s₁, l₁))
    (hout : Outside c (.agent i a) = true) : SectMove c.shared (c.loc i) s₁ l₁ := by
  cases a with
  | step => exact advance_sect (by simpa [step] using h) (by simpa only [Outside, Bool.not_eq_true'] using hout)
  | call op =>
    cases hp : (c.loc i).pc <;> simp only [step, hp, reduceCtorEq] at h <;> cases h <;>
      exact .same (fun _ => rfl) (by rw [hp]; exact op.start_sect)
  | spurious =>
    have hout : ((c.loc i).pc.risks && c.shared.full) = false := by simpa only [Outside, Bool.not_eq_true'] using hout
    cases hp : (c.loc i).pc <;> simp only [step, hp, reduceCtorEq] at h
    case exchange f k =>
      cases h
      exact .same (fun _ => rfl)
        ((verdict_sect (not_full_of_risks hout (.inr ⟨f, hp⟩))).trans (by rw [hp]; rfl))
    case park m =>
      cases h
      exact .same (fun _ => rfl) (by rw [hp]; rfl)
  | cancel =>
    cases hp : (c.loc i).pc <;> simp only [step, hp, reduceCtorEq] at h
    cases h
    exact .same (fun _ => rfl) (by rw [hp]; rfl)
  | read f =>
    cases hp : (c.loc i).pc <;> simp only [step, hp, reduceCtorEq] at h
    case guard m =>
      cases m <;> simp only [reduceCtorEq] at h
      cases h
      exact .same (fun _ => rfl) (by rw [hp])
  | write f =>
    cases hp : (c.loc i).pc <;> simp only [step, hp, reduceCtorEq] at h
    case guard m =>
      cases m <;> simp only [reduceCtorEq] at h
      cases h
      exact .same (fun _ => rfl) (by rw [hp])
  | drop =>
    cases hp : (c.loc i).pc <;> simp only [step, hp, reduceCtorEq] at h
    case guard m =>
      cases m <;> cases h
      · refine .same (fun _ => rfl) ?_
        rw [hp, Local.goto_pc]
        split <;> rfl
      · refine .same (fun _ => rfl) ?_
        rw [hp, Local.goto_pc]
        split <;> rfl
  | consume =>
    simp only [step] at h
    split at h <;> cases h
    exact .same (fun _ => rfl) rfl

variable {plat : Platform ι} {value : D} {regs : ι → R}

/-- A locked spinlock is that of a section that an agent is in, as long as no attempt panics in one. -/
theorem sections (h : sys.Reach (fun c a => Outside c a = true) (init plat value regs) c) :
    ∀ q, (c.shared.waiting q).locked = true → ∃ i, (c.loc i).pc.sect = some q := by
  refine h.invariant (I := fun c => ∀ q, (c.shared.waiting q).locked = true →
    ∃ i, (c.loc i).pc.sect = some q) (fun q hq => by cases hq) ?_ ?_
  · intro c i a s l _ ih hP hs q hq
    have hother : ∀ {j}, j ≠ i → (c.loc j).pc.sect = some q →
        ∃ j, ((c.set i s l).loc j).pc.sect = some q :=
      fun {j} hj hsect => ⟨j, by rw [Config.set_loc_of_ne hj]; exact hsect⟩
    cases step_sect hs hP with
    | same hlocked hl =>
      obtain ⟨j, hj⟩ := ih q ((hlocked q).symm.trans hq)
      exact ⟨j, (Config.set_loc_congr (f := fun l : Local ι R => l.pc.sect) hl j).trans hj⟩
    | enter q' hl hl₁ hlocked =>
      by_cases hqq : q = q'
      · subst hqq
        exact ⟨i, by rw [Config.set_loc_self]; exact hl₁⟩
      · obtain ⟨j, hj⟩ := ih q (by rw [← hq, Config.set_shared, hlocked, if_neg hqq])
        refine hother (fun hji => ?_) hj
        subst hji
        rw [hl] at hj
        cases hj
    | leave q' hl hlocked =>
      rw [Config.set_shared, hlocked] at hq
      split at hq
      · cases hq
      · rename_i hqq
        obtain ⟨j, hj⟩ := ih q hq
        refine hother (fun hji => ?_) hj
        subst hji
        rw [hl] at hj
        exact hqq (Option.some.inj hj).symm
  · intro c e s _ ih _ hs q hq
    obtain ⟨p, -, rfl⟩ := env_data hs
    exact ih q hq

/-! ### A run in which everything is finished -/

omit [DecidableEq ι] in
theorem finite_active [DecidableEq ι] (h : sys.Reachable (init plat value regs) c) :
    {i | (c.loc i).pc ≠ .idle}.Finite := by
  refine h.invariant (I := fun c => {i | (c.loc i).pc ≠ .idle}.Finite) ?_ ?_ ?_
  · simp [init]
  · intro c i a s l _ ih _ _
    refine (ih.insert i).subset fun j hj => ?_
    by_cases hji : j = i
    · exact .inl hji
    · rw [Set.mem_ofPred_eq, Config.set_loc_of_ne hji] at hj
      exact .inr hj
  · intro c e s _ ih _ _
    exact ih

/-- How far an agent is from the end, when its attempts succeed and its wake-ups are there. -/
def Pc.rank : Pc ι → ℕ
  | .idle | .failed | .tooManyReaders _ | .assertFailed => 0
  | .didUnlockRead _ pending rest => pending.length + 2 * rest.length + 1
  | .didUnlockWrite _ pending rest => pending.length + 2 * rest.length + 1
  | .guard _ => 10
  | .leaveOk _ _ => 11
  | .exchange f _ => if f.1 = UNLOCKED then 12 else 13
  | .attempt _ _ => 14
  | .enter _ _ => 15
  | .park _ | .await _ _ => 16
  | .leaveErr _ _ => 17
  | .push _ _ => 19

/-- The handles in the waiting lists. -/
def Shared.entries (s : Shared ι D) : ℕ :=
  (s.waiting (.read, .sync)).data.length + (s.waiting (.read, .async)).data.length +
    (s.waiting (.write, .sync)).data.length + (s.waiting (.write, .async)).data.length

omit [DecidableEq ι] in
theorem entries_setList (q : Queue) (es : List (Wake ι)) :
    (s.setList q es).entries + (s.waiting q).data.length = s.entries + es.length := by
  rcases q with ⟨_ | _, _ | _⟩ <;> simp [Shared.entries, Shared.setList, Lists.setData] <;> omega

omit [DecidableEq ι] in
theorem entries_setLocked (q : Queue) (b : Bool) : (s.setLocked q b).entries = s.entries := by
  rcases q with ⟨_ | _, _ | _⟩ <;> simp [Shared.entries, Shared.setLocked, Lists.setLocked]

/-- Agent `i` can make a step that brings it nearer to the end. -/
def Advances (i : ι) (c : Config ι (Shared ι D) (Local ι R)) : Prop :=
  ∃ a s l, (a = .step ∨ a = .drop) ∧ step i a c.shared (c.loc i) = some (s, l) ∧
    Outside c (.agent i a) = true ∧ (l.pc.rank = 0 → l.pc = .idle) ∧
    l.pc.rank + s.entries < (c.loc i).pc.rank + c.shared.entries

theorem Advances.of_step (hs : advance i c.shared (c.loc i) = some (s, l))
    (hout : ((c.loc i).pc.risks && c.shared.full) = false) (hidle : l.pc.rank = 0 → l.pc = .idle)
    (hlt : l.pc.rank + s.entries < (c.loc i).pc.rank + c.shared.entries) : Advances i c :=
  ⟨.step, s, l, .inl rfl, hs, by simp [Outside, hout], hidle, hlt⟩

theorem advances_guard {m : Mode} (hc : Counted c) (hp : (c.loc i).pc = .guard m) : Advances i c := by
  cases m with
  | read =>
    have hs : step i .drop c.shared (c.loc i) = some (c.shared.setLock (c.shared.dataLock - 1),
        (c.loc i).goto (if 0 < c.shared.dataLock then didUnlockRead else .assertFailed)) := by
      simp [step, hp]
    have hpc := (hc.step hs).assertions i
    have hpos : 0 < c.shared.dataLock := by
      by_contra hn
      rw [Config.set_loc_self, if_neg hn] at hpc
      exact hpc rfl
    rw [if_pos hpos] at hs
    refine ⟨.drop, _, _, .inr rfl, hs, rfl, fun h => absurd h (Nat.succ_ne_zero _), ?_⟩
    rw [Local.goto_pc, hp]
    exact Nat.add_lt_add_right (show 5 < 10 by omega) _
  | write =>
    have hs : step i .drop c.shared (c.loc i) = some (c.shared.setLock UNLOCKED,
        (c.loc i).goto
          (if c.shared.dataLock = LOCKED_WRITE then didUnlockWrite else .assertFailed)) := by
      simp [step, hp]
    have hpc := (hc.step hs).assertions i
    have hword : c.shared.dataLock = LOCKED_WRITE := by
      by_contra hn
      rw [Config.set_loc_self, if_neg hn] at hpc
      exact hpc rfl
    rw [if_pos hword] at hs
    refine ⟨.drop, _, _, .inr rfl, hs, rfl, fun h => absurd h (Nat.succ_ne_zero _), ?_⟩
    rw [Local.goto_pc, hp]
    exact Nat.add_lt_add_right (show 9 < 10 by omega) _

/-- A section is left. -/
theorem advances_leaving (hp : (∃ m w, (c.loc i).pc = .leaveOk m w) ∨ (∃ m w, (c.loc i).pc = .push m w) ∨
    ∃ m slot, (c.loc i).pc = .leaveErr m slot) : Advances i c := by
  rcases hp with ⟨m, w, hp⟩ | ⟨m, w, hp⟩ | ⟨m, slot, hp⟩
  · refine .of_step (s := c.shared.setLocked (m, w) false) (l := (c.loc i).goto (.guard m))
      (by simp [advance, hp]) (by rw [hp]; rfl) (by rintro ⟨⟩) ?_
    rw [entries_setLocked, hp]
    exact Nat.add_lt_add_right (show 10 < 11 by omega) _
  · refine .of_step (s := register i c.shared m w) (l := (c.loc i).goto (.leaveErr m (c.shared.plat.slot w)))
      (by simp [advance, hp]) (by rw [hp]; rfl) (by rintro ⟨⟩) ?_
    have hentries := entries_setList (s := c.shared) (m, w)
      ((c.shared.waiting (m, w)).data ++ [(c.shared.plat.slot w).wake i])
    rw [List.length_append, List.length_singleton] at hentries
    have hreg : (register i c.shared m w).entries = c.shared.entries + 1 := by
      have heq : (register i c.shared m w).entries = (c.shared.setList (m, w)
          ((c.shared.waiting (m, w)).data ++ [(c.shared.plat.slot w).wake i])).entries := rfl
      omega
    rw [hreg, hp, Local.goto_pc]
    show 17 + (c.shared.entries + 1) < 19 + c.shared.entries
    omega
  · refine .of_step (s := c.shared.setLocked (m, slot.way) false) (l := (c.loc i).goto (suspend m slot))
      (by simp [advance, hp]) (by rw [hp]; rfl) ?_ ?_
    · cases slot <;> rintro ⟨⟩
    · rw [entries_setLocked, hp]
      exact Nat.add_lt_add_right (show (suspend m slot : Pc ι).rank < 17 by cases slot <;> exact Nat.lt_succ_self 16) _

omit [DecidableEq ι] in
theorem Caller.rank_ok (k : Caller) (m : Mode) : 10 ≤ (k.ok m : Pc ι).rank ∧ (k.ok m : Pc ι).rank ≤ 11 := by
  cases k <;> simp [Caller.ok, Pc.rank]

theorem readClosure_unlocked :
    readClosure UNLOCKED = .add ⟨UNLOCKED, by decide, by decide⟩ := by
  rfl

/-- An attempt succeeds when nobody has a guard. -/
theorem advances_attempt {k : Caller} (hfree : c.shared.dataLock = UNLOCKED)
    (hp : (∃ m, (c.loc i).pc = .attempt m k) ∨ ∃ f, (c.loc i).pc = .exchange f k) :
    Advances i c := by
  have hout : ((c.loc i).pc.risks && c.shared.full) = false := by
    rw [Shared.full, hfree, Bool.and_eq_false_iff]
    exact .inr (by decide)
  have hok : ∀ m, (k.ok m : Pc ι).rank = 0 → k.ok m = (.idle : Pc ι) := fun m h => by
    have := (k.rank_ok (ι := ι) m).1
    omega
  rcases hp with ⟨m, hp⟩ | ⟨f, hp⟩
  · cases m with
    | read =>
      have hs : advance i c.shared (c.loc i) = some (c.shared,
          (c.loc i).goto (.exchange ⟨UNLOCKED, by decide, by decide⟩ k)) := by
        simp only [advance, hp, hfree, readClosure_unlocked]
        rfl
      refine .of_step hs hout (by rintro ⟨⟩) ?_
      rw [hp]
      exact Nat.add_lt_add_right (show 12 < 14 by omega) _
    | write =>
      have hs : advance i c.shared (c.loc i) = some (c.shared.setLock LOCKED_WRITE,
          (c.loc i).goto (k.ok .write)) := by
        simp [advance, hp, hfree]
      refine .of_step hs hout (hok .write) ?_
      rw [hp]
      have := (k.rank_ok (ι := ι) .write).2
      exact Nat.add_lt_add_right (show (k.ok .write : Pc ι).rank < 14 by omega) _
  · by_cases hf : f.1 = UNLOCKED
    · have hs : advance i c.shared (c.loc i) = some (c.shared.setLock (f.1 + 1),
          (c.loc i).goto (k.ok .read)) := by
        simp [advance, hp, hfree, hf]
      refine .of_step hs hout (hok .read) ?_
      have hrank : (c.loc i).pc.rank = 12 := by rw [hp]; exact if_pos hf
      have := (k.rank_ok (ι := ι) .read).2
      rw [hrank]
      exact Nat.add_lt_add_right (show (k.ok .read : Pc ι).rank < 12 by omega) _
    · have hs : advance i c.shared (c.loc i) = some (c.shared,
          (c.loc i).goto (.exchange ⟨UNLOCKED, by decide, by decide⟩ k)) := by
        simp only [advance, hp, hfree, if_neg (Ne.symm hf), readClosure_unlocked]
        rfl
      have hrank : (c.loc i).pc.rank = 13 := by rw [hp]; exact if_neg hf
      refine .of_step hs hout (by rintro ⟨⟩) ?_
      rw [hrank]
      exact Nat.add_lt_add_right (show 12 < 13 by omega) _

/-- A drop goes on when nobody is in a section. -/
theorem advances_unlock (hfree : ∀ q, (c.shared.waiting q).locked = false)
    (hp : (∃ w pending rest, (c.loc i).pc = .didUnlockRead w pending rest) ∨
      ∃ q pending rest, (c.loc i).pc = .didUnlockWrite q pending rest) : Advances i c := by
  have hout : ((c.loc i).pc.risks && c.shared.full) = false := by
    rcases hp with ⟨w, pending, rest, hp⟩ | ⟨q, pending, rest, hp⟩ <;> rw [hp] <;> rfl
  rcases hp with ⟨w, pending, rest, hp⟩ | ⟨q, pending, rest, hp⟩
  · cases pending with
    | nil =>
      cases rest with
      | nil =>
        refine .of_step (s := c.shared) (l := (c.loc i).goto .idle) (by simp [advance, hp]) hout
          (fun _ => rfl) ?_
        rw [hp]
        exact Nat.add_lt_add_right (show 0 < 1 by omega) _
      | cons w' rest =>
        refine .of_step (s := c.shared.setList (.write, w') []) (l := (c.loc i).goto
          (.didUnlockRead w' (c.shared.waiting (.write, w')).data rest))
          (by simp [advance, hp, hfree]) hout (fun h => absurd h (Nat.succ_ne_zero _)) ?_
        have := entries_setList (s := c.shared) (.write, w') []
        rw [hp]
        simp only [Local.goto_pc, Pc.rank, List.length_nil, List.length_cons] at this ⊢
        omega
    | cons x pending =>
      refine .of_step (s := c.shared.setPlat (c.shared.plat.wake x))
        (l := (c.loc i).goto (.didUnlockRead w pending rest)) (by simp [advance, hp]) hout
        (fun h => absurd h (Nat.succ_ne_zero _)) ?_
      rw [hp]
      refine Nat.add_lt_add_right ?_ _
      simp only [Local.goto_pc, Pc.rank, List.length_cons]
      omega
  · cases pending with
    | nil =>
      cases rest with
      | nil =>
        refine .of_step (s := c.shared) (l := (c.loc i).goto .idle) (by simp [advance, hp]) hout
          (fun _ => rfl) ?_
        rw [hp]
        exact Nat.add_lt_add_right (show 0 < 1 by omega) _
      | cons q' rest =>
        refine .of_step (s := c.shared.setList q' []) (l := (c.loc i).goto
          (.didUnlockWrite q' (c.shared.waiting q').data rest))
          (by simp [advance, hp, hfree]) hout (fun h => absurd h (Nat.succ_ne_zero _)) ?_
        have := entries_setList (s := c.shared) q' []
        rw [hp]
        simp only [Local.goto_pc, Pc.rank, List.length_nil, List.length_cons] at this ⊢
        omega
    | cons x pending =>
      refine .of_step (s := c.shared.setPlat (c.shared.plat.wake x))
        (l := (c.loc i).goto (.didUnlockWrite q pending rest)) (by simp [advance, hp]) hout
        (fun h => absurd h (Nat.succ_ne_zero _)) ?_
      rw [hp]
      refine Nat.add_lt_add_right ?_ _
      simp only [Local.goto_pc, Pc.rank, List.length_cons]
      omega

theorem advances_enter {m : Mode} {w : Way} (hfree : (c.shared.waiting (m, w)).locked = false)
    (hp : (c.loc i).pc = .enter m w) : Advances i c := by
  refine .of_step (s := c.shared.setLocked (m, w) true) (l := (c.loc i).goto (.attempt m (.sect w)))
    (by simp [advance, hp, hfree]) (by rw [hp]; rfl) (by rintro ⟨⟩) ?_
  rw [entries_setLocked, hp]
  exact Nat.add_lt_add_right (show 14 < 15 by omega) _

theorem advances_wake (hp : (∃ m, (c.loc i).pc = .park m ∧ c.shared.plat.token i = true) ∨
    ∃ m n, (c.loc i).pc = .await m n ∧ c.shared.plat.sent n = true) : Advances i c := by
  rcases hp with ⟨m, hp, hsig⟩ | ⟨m, n, hp, hsig⟩
  · refine .of_step (s := c.shared.setPlat (c.shared.plat.consume i)) (l := (c.loc i).goto (.enter m .sync))
      (by simp [advance, hp, hsig]) (by rw [hp]; rfl) (by rintro ⟨⟩) ?_
    rw [hp]
    exact Nat.add_lt_add_right (show 15 < 16 by omega) _
  · refine .of_step (s := c.shared) (l := (c.loc i).goto (.enter m .async))
      (by simp [advance, hp, hsig]) (by rw [hp]; rfl) (by rintro ⟨⟩) ?_
    rw [hp]
    exact Nat.add_lt_add_right (show 15 < 16 by omega) _

omit [DecidableEq ι] in
theorem Counted.unlocked (h : Counted c) (hg : ∀ i m, (c.loc i).pc.hasGuard m = false) :
    c.shared.dataLock = UNLOCKED := by
  have hnone : ∀ m, (guards m c).ncard = 0 := fun m => by
    have hempty : guards m c = ∅ := by
      ext i
      simp [guards, hg]
    rw [hempty, Set.ncard_empty]
  rcases h.count with ⟨hw, -⟩ | ⟨-, hr, -⟩
  · have := hnone .write
    omega
  · apply BitVec.eq_of_toNat_eq
    rw [← hr, hnone]
    rfl

/-- **Somebody can go on**, as long as not all calls have returned and not all guards are dropped. -/
theorem advances (hc : sys.Reach (fun c a => Outside c a = true) (init plat value regs) c)
    (h : ∃ i, (c.loc i).pc.rank ≠ 0) : ∃ i, Advances i c := by
  have hcount := counted hc.reachable
  by_contra hno
  have hno : ∀ i, ¬ Advances i c := fun i hi => hno ⟨i, hi⟩
  -- every guard can be dropped, so there are none, and the byte is free
  have hguards : ∀ i m, (c.loc i).pc.hasGuard m = false := fun i m => by
    cases hp : (c.loc i).pc with
    | guard m' => exact absurd (advances_guard hcount hp) (hno i)
    | leaveOk m' w => exact absurd (advances_leaving (.inl ⟨m', w, hp⟩)) (hno i)
    | _ => rfl
  have hfree := hcount.unlocked hguards
  -- every section can be left, so the spinlocks are free
  have hsect : ∀ i, (c.loc i).pc.sect = none := fun i => by
    cases hp : (c.loc i).pc with
    | attempt m k => exact absurd (advances_attempt hfree (.inl ⟨m, hp⟩)) (hno i)
    | exchange f k => exact absurd (advances_attempt hfree (.inr ⟨f, hp⟩)) (hno i)
    | push m w => exact absurd (advances_leaving (.inr (.inl ⟨m, w, hp⟩))) (hno i)
    | leaveOk m w => exact absurd (advances_leaving (.inl ⟨m, w, hp⟩)) (hno i)
    | leaveErr m slot => exact absurd (advances_leaving (.inr (.inr ⟨m, slot, hp⟩))) (hno i)
    | _ => rfl
  have hlocked : ∀ q, (c.shared.waiting q).locked = false := fun q => by
    by_contra hq
    obtain ⟨i, hi⟩ := sections hc q (Bool.eq_true_of_not_eq_false hq)
    rw [hsect i] at hi
    cases hi
  -- every drop can go on, so nobody is in one
  have hread : ∀ i w pending rest, (c.loc i).pc ≠ .didUnlockRead w pending rest :=
    fun i w pending rest hp => hno i (advances_unlock hlocked (.inl ⟨w, pending, rest, hp⟩))
  have hwrite : ∀ i q pending rest, (c.loc i).pc ≠ .didUnlockWrite q pending rest :=
    fun i q pending rest hp => hno i (advances_unlock hlocked (.inr ⟨q, pending, rest, hp⟩))
  -- so whoever waits has its wake-up
  have hsignalled : ∀ i m slot, (c.loc i).pc.waitsOn = some (m, slot) →
      c.shared.plat.Signalled (slot.wake i) = true := fun i m slot hw => by
    by_contra hsig
    rcases blocked_or_drop hc.reachable hw (Bool.eq_false_of_not_eq_true hsig) with
      hblock | ⟨j, q, pending, rest, hp, -⟩ | ⟨-, j, w, pending, rest, hp, -⟩
    · rw [hfree] at hblock
      cases m with
      | read => exact absurd hblock (by decide : ¬ 128 ≤ UNLOCKED.toNat)
      | write => exact hblock rfl
    · exact hwrite j q pending rest hp
    · exact hread j w pending rest hp
  obtain ⟨i, hi⟩ := h
  cases hp : (c.loc i).pc with
  | idle | failed | tooManyReaders | assertFailed => exact hi (by rw [hp]; rfl)
  | guard m => exact hno i (advances_guard hcount hp)
  | attempt m k => exact hno i (advances_attempt hfree (.inl ⟨m, hp⟩))
  | exchange f k => exact hno i (advances_attempt hfree (.inr ⟨f, hp⟩))
  | enter m w => exact hno i (advances_enter (hlocked _) hp)
  | push m w => exact hno i (advances_leaving (.inr (.inl ⟨m, w, hp⟩)))
  | leaveOk m w => exact hno i (advances_leaving (.inl ⟨m, w, hp⟩))
  | leaveErr m slot => exact hno i (advances_leaving (.inr (.inr ⟨m, slot, hp⟩)))
  | park m => exact hno i (advances_wake (.inl ⟨m, hp, hsignalled i m .thread (by rw [hp]; rfl)⟩))
  | await m n =>
    exact hno i (advances_wake (.inr ⟨m, n, hp, hsignalled i m (.cont n) (by rw [hp]; rfl)⟩))
  | didUnlockRead w pending rest => exact hread i w pending rest hp
  | didUnlockWrite q pending rest => exact hwrite i q pending rest hp

omit [DecidableEq ι] in
theorem Pc.of_rank {p : Pc ι} (h : p.rank = 0) :
    p = .idle ∨ p = .failed ∨ (∃ k, p = .tooManyReaders k) ∨ p = .assertFailed := by
  cases p with
  | idle => exact .inl rfl
  | failed => exact .inr (.inl rfl)
  | tooManyReaders k => exact .inr (.inr (.inl ⟨k, rfl⟩))
  | assertFailed => exact .inr (.inr (.inr rfl))
  | exchange f k =>
    simp only [Pc.rank] at h
    split at h <;> cases h
  | didUnlockRead | didUnlockWrite => exact absurd h (Nat.succ_ne_zero _)
  | _ => cases h

/-- What a run to the end from `c₀` keeps. -/
structure Finishing (plat : Platform ι) (value : D) (regs : ι → R)
    (c₀ c : Config ι (Shared ι D) (Local ι R)) : Prop where
  reach : sys.Reach (fun c a => Outside c a = true) (init plat value regs) c
  stays : ∀ i, (c₀.loc i).pc.rank = 0 → c.loc i = c₀.loc i
  ends : ∀ i, (c₀.loc i).pc.rank ≠ 0 → (c.loc i).pc.rank = 0 → (c.loc i).pc = .idle

/-- A step of a run to the end. -/
theorem Finishing.goes_on {c₀ : Config ι (Shared ι D) (Local ι R)} (h : Finishing plat value regs c₀ c)
    (hgoal : ¬ ∀ i, (c.loc i).pc.rank = 0) :
    ∃ a c', (Finishes a ∧ Outside c a = true) ∧ sys.next c a = some c' ∧
      Finishing plat value regs c₀ c' ∧ ∃ i s l, c' = c.set i s l ∧ (c₀.loc i).pc.rank ≠ 0 ∧
        l.pc.rank + s.entries < (c.loc i).pc.rank + c.shared.entries := by
  obtain ⟨i, a, s, l, ha, hs, hout, hidle, hlt⟩ := advances h.reach (not_forall.1 hgoal)
  have hnext : sys.next c (.agent i a) = some (c.set i s l) := by
    show (step i a c.shared (c.loc i)).map _ = _
    rw [hs]
    rfl
  have hactive : (c₀.loc i).pc.rank ≠ 0 := fun hz => by
    rw [h.stays i hz] at hs
    rcases Pc.of_rank hz with hp | hp | ⟨k, hp⟩ | hp <;> rcases ha with rfl | rfl <;>
      simp [step, advance, hp] at hs
  refine ⟨.agent i a, c.set i s l, ⟨ha, hout⟩, hnext, ⟨h.reach.tail hout hnext, fun j hj => ?_,
    fun j hj hz => ?_⟩, i, s, l, rfl, hactive, hlt⟩
  · have hji : j ≠ i := fun hji => hactive (by rw [← hji]; exact hj)
    rw [Config.set_loc_of_ne hji]
    exact h.stays j hj
  · by_cases hji : j = i
    · subst hji
      rw [Config.set_loc_self] at hz ⊢
      exact hidle hz
    · rw [Config.set_loc_of_ne hji] at hz ⊢
      exact h.ends j hj hz

/-- **The lock is usable** in every run without a panic inside a section. -/
theorem usable (hc : sys.Reach (fun c a => Outside c a = true) (init plat value regs) c) :
    Usable c := by
  refine ⟨sections hc, ?_⟩
  -- the agents that are in a call or have a guard
  have hfin : {i | (c.loc i).pc.rank ≠ 0}.Finite :=
    (finite_active hc.reachable).subset fun i hi hp => hi (by rw [hp]; rfl)
  obtain ⟨c', hreach, hfinish, hgoal⟩ := System.reach_of_rank (M := sys)
    (P := fun c a => Finishes a ∧ Outside c a = true) (I := Finishing plat value regs c)
    (G := fun c' => ∀ i, (c'.loc i).pc.rank = 0)
    (fun c' => ∑ i ∈ hfin.toFinset, (c'.loc i).pc.rank + c'.shared.entries)
    (fun c₁ h hgoal => by
      obtain ⟨a, c₂, hP, hnext, hfinish, i, s, l, rfl, hactive, hlt⟩ := h.goes_on hgoal
      refine ⟨a, _, hP, hnext, hfinish, ?_⟩
      have hsum := Config.sum_set (c := c₁) (s := s) (l := l) (fun l : Local ι R => l.pc.rank)
        (hfin.mem_toFinset.2 hactive)
      rw [Config.set_shared]
      omega)
    ⟨hc, fun _ _ => rfl, fun i hi hz => absurd hz hi⟩
  have hrest : ∀ i, (c'.loc i).pc = .idle ∨ (c'.loc i).pc = .failed ∨
      ∃ k, (c.loc i).pc = .tooManyReaders k ∧ c'.loc i = c.loc i := fun i => by
    by_cases hz : (c.loc i).pc.rank = 0
    · have hstay := hfinish.stays i hz
      rcases Pc.of_rank hz with hp | hp | ⟨k, hp⟩ | hp
      · exact .inl (by rw [hstay]; exact hp)
      · exact .inr (.inl (by rw [hstay]; exact hp))
      · exact .inr (.inr ⟨k, hp, hstay⟩)
      · exact absurd hp ((counted hc.reachable).assertions i)
    · exact .inl (hfinish.ends i hz (hgoal i))
  have hout : ∀ i, (∀ m, (c'.loc i).pc.hasGuard m = false) ∧ (c'.loc i).pc.sect = none := fun i => by
    rcases Pc.of_rank (hgoal i) with hp | hp | ⟨k, hp⟩ | hp <;> rw [hp] <;> exact ⟨fun _ => rfl, rfl⟩
  refine ⟨c', hreach, hrest, (counted hfinish.reach.reachable).unlocked fun i => (hout i).1,
    fun q => ?_⟩
  by_contra hq
  obtain ⟨i, hi⟩ := sections hfinish.reach q (Bool.eq_true_of_not_eq_false hq)
  rw [(hout i).2] at hi
  cases hi

/-! ### An attempt that meets 127 readers -/

/-- What the acquisition is for. -/
def Op.mode : Op → Mode
  | .tryLock m | .lockSpin m | .lockWait m _ => m

/-- The list in whose section the acquisition makes its attempts. -/
def Op.list : Op → Option Queue
  | .lockWait m w => some (m, w)
  | _ => none

/-- Agent `i` has called `op` in `c`, and alone has acted since. -/
def Attempted (i : ι) (op : Op) (c c₁ : Config ι (Shared ι D) (Local ι R)) : Prop :=
  sys.Reach (fun _ a => a = .agent i .step ∨ a = .agent i .spurious)
    (c.set i c.shared ((c.loc i).goto op.start)) c₁

/-- Where the attempt is. -/
def Attempting (i : ι) (op : Op) (c c₁ : Config ι (Shared ι D) (Local ι R)) : Prop :=
  match op.list with
  | none => c₁.shared = c.shared ∧ ((c₁.loc i).pc = op.start ∨ ∃ k, (c₁.loc i).pc = .tooManyReaders k)
  | some q =>
    c₁.shared = c.shared ∧ (c₁.loc i).pc = op.start ∨
      (c.shared.waiting q).locked = false ∧ c₁.shared = c.shared.setLocked q true ∧
        ((c₁.loc i).pc = .attempt .read (.sect q.2) ∨ ∃ k, (c₁.loc i).pc = .tooManyReaders k)

omit [DecidableEq ι] in
theorem Counted.dataLock_full (h : Counted c) (hn : (guards .read c).ncard = 127) :
    c.shared.dataLock = LOCKED_WRITE - 1 := by
  rcases h.count with ⟨-, hr, -⟩ | ⟨-, hr, -⟩
  · omega
  · apply BitVec.eq_of_toNat_eq
    rw [← hr, hn]
    rfl

theorem readClosure_full : readClosure (LOCKED_WRITE - 1) = .tooManyReaders := rfl

theorem advance_full {k : Caller} (hfull : s.dataLock = LOCKED_WRITE - 1) (hp : l.pc = .attempt .read k) :
    advance i s l = some (s, l.goto (.tooManyReaders k)) := by
  simp only [advance, hp, hfull, readClosure_full]
  rfl

theorem step_full {k : Caller} (hfull : s.dataLock = LOCKED_WRITE - 1) (hp : l.pc = .attempt .read k)
    (ha : a = .step ∨ a = .spurious) (hs : step i a s l = some (s₁, l₁)) :
    s₁ = s ∧ l₁.pc = .tooManyReaders k := by
  rcases ha with rfl | rfl
  · rw [step, advance_full hfull hp] at hs
    cases hs
    exact ⟨rfl, rfl⟩
  · simp only [step, hp, reduceCtorEq] at hs

theorem step_panicked {k : Caller} (hp : l.pc = .tooManyReaders k) (ha : a = .step ∨ a = .spurious) :
    step i a s l = none := by
  rcases ha with rfl | rfl <;> simp [step, advance, hp]

omit [DecidableEq ι] in
theorem Op.start_of_list {op : Op} (hop : op.mode = .read) (h : op.list = none) :
    ∃ k, (op.start : Pc ι) = .attempt .read k ∧ (op.start : Pc ι).risks = false := by
  cases op with
  | tryLock m => cases hop; exact ⟨_, rfl, rfl⟩
  | lockSpin m => cases hop; exact ⟨_, rfl, rfl⟩
  | lockWait m w => cases h

omit [DecidableEq ι] in
theorem Op.start_of_sect {op : Op} {q : Queue} (hop : op.mode = .read) (h : op.list = some q) :
    q.1 = .read ∧ (op.start : Pc ι) = .enter .read q.2 := by
  cases op with
  | tryLock m => cases h
  | lockSpin m => cases h
  | lockWait m w =>
    cases hop
    cases h
    exact ⟨rfl, rfl⟩

theorem Attempting.goes_on {op : Op} (hop : op.mode = .read)
    (hfull : c.shared.dataLock = LOCKED_WRITE - 1) (h : Attempting i op c c₁)
    (ha : a = .step ∨ a = .spurious) (hs : step i a c₁.shared (c₁.loc i) = some (s, l)) :
    Attempting i op c (c₁.set i s l) := by
  unfold Attempting at h ⊢
  rw [Config.set_shared, Config.set_loc_self]
  cases hlist : op.list with
  | none =>
    rw [hlist] at h
    obtain ⟨hshared, hp | ⟨k, hp⟩⟩ := h
    · obtain ⟨k, hstart, -⟩ := Op.start_of_list (ι := ι) hop hlist
      rw [hshared] at hs
      obtain ⟨rfl, hpanic⟩ := step_full hfull (hp.trans hstart) ha hs
      exact ⟨rfl, .inr ⟨k, hpanic⟩⟩
    · rw [step_panicked hp ha] at hs
      cases hs
  | some q =>
    rw [hlist] at h
    obtain ⟨hread, hstart⟩ := Op.start_of_sect (ι := ι) hop hlist
    obtain ⟨m, w⟩ := q
    cases hread
    rcases h with ⟨hshared, hp⟩ | ⟨hfree, hshared, hp | ⟨k, hp⟩⟩
    · rw [hshared] at hs
      rcases ha with rfl | rfl
      · simp only [step, advance, hp.trans hstart] at hs
        split at hs <;> cases hs
        rename_i hfree
        exact .inr ⟨Bool.eq_false_of_not_eq_true hfree, rfl, .inl rfl⟩
      · simp only [step, hp.trans hstart, reduceCtorEq] at hs
    · have hfull₁ : c₁.shared.dataLock = LOCKED_WRITE - 1 := by rw [hshared]; exact hfull
      obtain ⟨rfl, hpanic⟩ := step_full hfull₁ hp ha hs
      exact .inr ⟨hfree, hshared, .inr ⟨_, hpanic⟩⟩
    · rw [step_panicked hp ha] at hs
      cases hs

theorem Attempted.attempting {op : Op} (hop : op.mode = .read)
    (hfull : c.shared.dataLock = LOCKED_WRITE - 1) (H : Attempted i op c c₁) : Attempting i op c c₁ := by
  refine System.Reach.invariant (I := Attempting i op c) H ?_ ?_ ?_
  · unfold Attempting
    split
    · exact ⟨rfl, .inl (by rw [Config.set_loc_self]; rfl)⟩
    · exact .inl ⟨rfl, by rw [Config.set_loc_self]; rfl⟩
  · intro c' j a s l _ ih hP hs
    have hji : j = i := by rcases hP with hP | hP <;> cases hP <;> rfl
    subst hji
    exact ih.goes_on hop hfull (by rcases hP with hP | hP <;> cases hP <;> simp) hs
  · intro c' e s _ _ hP _
    rcases hP with hP | hP <;> cases hP

theorem Attempted.outside {op : Op} (hop : op.mode = .read) (hlist : op.list = none)
    (hfull : c.shared.dataLock = LOCKED_WRITE - 1) (H : Attempted i op c c₁) :
    sys.Reach (fun c a => Outside c a = true) (c.set i c.shared ((c.loc i).goto op.start)) c₁ := by
  refine System.Reach.strengthen H fun c' b hc' hP => ?_
  have hA := Attempted.attempting hop hfull hc'
  simp only [Attempting, hlist] at hA
  have hrisks : (c'.loc i).pc.risks = false := by
    rcases hA.2 with hp | ⟨k, hp⟩
    · obtain ⟨-, -, hrisks⟩ := Op.start_of_list (ι := ι) hop hlist
      rw [hp, hrisks]
    · rw [hp]
      rfl
  rcases hP with rfl | rfl <;> simp [Outside, hrisks]

/-- The panic leaves `data_lock`, the waiting lists and their spinlocks as they were. -/
def Untouched (c c₁ : Config ι (Shared ι D) (Local ι R)) : Prop :=
  c₁.shared.dataLock = c.shared.dataLock ∧ c₁.shared.waiting = c.shared.waiting

theorem Attempted.loc_of_ne {op : Op} (H : Attempted i op c c₁) {j : ι} (hj : j ≠ i) :
    c₁.loc j = c.loc j := by
  refine System.Reach.invariant (I := fun c₁ => c₁.loc j = c.loc j) H (Config.set_loc_of_ne hj) ?_ ?_
  · intro c' k a s l _ ih hP _
    have hki : k = i := by rcases hP with hP | hP <;> cases hP <;> rfl
    subst hki
    rw [Config.set_loc_of_ne hj]
    exact ih
  · intro c' e s _ _ hP _
    rcases hP with hP | hP <;> cases hP

theorem Attempted.panics {op : Op} {k : Caller} (H : Attempted i op c c₁)
    (hfull : c₁.shared.dataLock = LOCKED_WRITE - 1) (hp : (c₁.loc i).pc = .attempt .read k) :
    ∃ c₂, Attempted i op c c₂ ∧ (c₂.loc i).pc = .tooManyReaders k := by
  have hs : step i (.step : Act R D) c₁.shared (c₁.loc i) =
      some (c₁.shared, (c₁.loc i).goto (.tooManyReaders k)) := advance_full hfull hp
  exact ⟨_, System.Reach.agent H (.inl rfl) hs, by rw [Config.set_loc_self]; rfl⟩

omit [DecidableEq ι] in
theorem sect_role {p : Pc ι} {q : Queue} (h : p.sect = some q) : (p.role i).sect = some q := by
  cases p with
  | attempt m k | exchange f k => cases k <;> cases h; rfl
  | _ => cases h <;> rfl

theorem locked_of_sect (hc : sys.Reachable (init plat value regs) c) {q : Queue}
    (h : (c.loc i).pc.sect = some q) : (c.shared.waiting q).locked = true :=
  (waiting_inv hc).locked i q (sect_role h)

/-- **The lock is usable in every run without a panic inside a section.  An attempt that meets 127
readers leaves it untouched, and usable, exactly if it is made outside the sections**, by
`try_lock_read` or `lock_spin_read`. -/
theorem reader_limit (hc : sys.Reachable (init plat value regs) c) :
    (sys.Reach (fun c a => Outside c a = true) (init plat value regs) c → Usable c) ∧
    ∀ i op c₁ k, ((c.loc i).pc = .idle ∨ (c.loc i).pc = .failed) → op.mode = .read →
      (guards .read c).ncard = 127 → Attempted i op c c₁ → (c₁.loc i).pc = .tooManyReaders k →
      (Untouched c c₁ ↔ op.list = none) ∧
      (sys.Reach (fun c a => Outside c a = true) (init plat value regs) c →
        (Usable c₁ ↔ op.list = none)) := by
  refine ⟨usable, fun i op c₁ k hrest hop hn H hp => ?_⟩
  have hfull := (counted hc).dataLock_full hn
  have hA := H.attempting hop hfull
  unfold Attempting at hA
  cases hlist : op.list with
  | none =>
    rw [hlist] at hA
    obtain ⟨hshared, -⟩ := hA
    refine ⟨⟨fun _ => rfl, fun _ => ⟨by rw [hshared], by rw [hshared]⟩⟩, fun hout =>
      ⟨fun _ => rfl, fun _ => ?_⟩⟩
    have hcall : sys.Reach (fun c a => Outside c a = true) (init plat value regs)
        (c.set i c.shared ((c.loc i).goto op.start)) := by
      refine hout.agent (a := .call op) rfl ?_
      rcases hrest with hrest | hrest <;> simp [sys, step, hrest]
    exact usable (hcall.trans (H.outside hop hlist hfull))
  | some q =>
    rw [hlist] at hA
    rcases hA with ⟨-, hstart⟩ | ⟨hfree, hshared, -⟩
    · rw [hp] at hstart
      cases op <;> cases hstart
    · -- the spinlock of the list was free, and is locked
      have hlocked : (c₁.shared.waiting q).locked = true := by
        rw [hshared, setLocked_locked, if_pos rfl]
      refine ⟨⟨fun hU => ?_, by rintro ⟨⟩⟩, fun _ => ⟨fun hU => ?_, by rintro ⟨⟩⟩⟩
      · rw [hU.2, hfree] at hlocked
        cases hlocked
      · -- nobody is in the section: agent `i` has left it, and nobody else was there
        obtain ⟨j, hj⟩ := hU.sections q hlocked
        by_cases hji : j = i
        · subst hji
          rw [hp] at hj
          cases hj
        · rw [H.loc_of_ne hji] at hj
          rw [locked_of_sect hc hj] at hfree
          cases hfree

/-! ### 127 readers -/

/-- With fewer than 127 readers the closure adds one. -/
theorem readClosure_add {f : BitVec 8} (h : f.toNat < 127) :
    ∃ g : Readable, g.1 = f ∧ readClosure f = .add g := by
  cases hv : readClosure f with
  | refuse =>
    have := readClosure_refuse hv
    omega
  | tooManyReaders =>
    unfold readClosure at hv
    split at hv
    · cases hv
    · split at hv <;> cases hv
      rename_i hf
      rw [hf] at h
      exact absurd h (by decide)
  | add g =>
    refine ⟨g, ?_, rfl⟩
    unfold readClosure at hv
    split at hv
    · cases hv
    · split at hv <;> cases hv
      rfl

theorem reach_reader (hc : sys.Reach (fun c a => Outside c a = true) (init plat value regs) c)
    (hp : (c.loc i).pc = .idle) (hlt : c.shared.dataLock.toNat < 127) :
    sys.Reach (fun c a => Outside c a = true) (init plat value regs)
      (c.set i (c.shared.setLock (c.shared.dataLock + 1)) ((c.loc i).goto (.guard .read))) := by
  obtain ⟨g, hg, hv⟩ := readClosure_add hlt
  have hcall : sys.Reach (fun c a => Outside c a = true) (init plat value regs)
      (c.set i c.shared ((c.loc i).goto (.attempt .read .user))) :=
    hc.agent (a := .call (.tryLock .read)) rfl (by simp [sys, step, hp, Op.start])
  have hload := hcall.agent (a := .step) (i := i) (s := c.shared)
    (l := (c.loc i).goto (.exchange g .user)) (by simp [Outside, Pc.risks])
    (by simp [sys, step, advance, hv, Verdict.next, Local.goto])
  rw [Config.set_set] at hload
  have hexchange := hload.agent (a := .step) (i := i) (s := c.shared.setLock (c.shared.dataLock + 1))
    (l := (c.loc i).goto (.guard .read)) (by simp [Outside, Pc.risks])
    (by simp [sys, step, advance, hg, Caller.ok, Local.goto])
  rw [Config.set_set] at hexchange
  exact hexchange

theorem readers (n : ℕ) (hn : n ≤ 127) :
    ∃ c : Config ℕ (Shared ℕ ℕ) (Local ℕ Unit),
      sys.Reach (fun c a => Outside c a = true) (init (.new .native) 0 fun _ => ()) c ∧
      c.shared.dataLock.toNat = n ∧ c.shared.waiting = (fun _ => ⟨false, []⟩) ∧
      ∀ i, n ≤ i → (c.loc i).pc = .idle := by
  induction n with
  | zero => exact ⟨_, .refl, rfl, rfl, fun _ _ => rfl⟩
  | succ n ih =>
    obtain ⟨c, hc, hword, hwaiting, hidle⟩ := ih (by omega)
    refine ⟨_, reach_reader hc (hidle n (by omega)) (by omega), ?_, hwaiting, fun i hi => ?_⟩
    · show (c.shared.dataLock + 1).toNat = n + 1
      rw [BitVec.toNat_add, show (1 : BitVec 8).toNat = 1 from rfl]
      omega
    · rw [Config.set_loc_of_ne (show i ≠ n by omega)]
      exact hidle i (by omega)

omit [DecidableEq ι] in
theorem Counted.ncard_read (h : Counted c) (hword : c.shared.dataLock.toNat = 127) :
    (guards .read c).ncard = 127 := by
  rcases h.count with ⟨-, -, hw⟩ | ⟨-, hr, -⟩
  · rw [hw] at hword
    exact absurd hword (by decide)
  · exact hr.trans hword

/-- With 127 readers, and a thread that has none: `try_lock_read` of this thread panics. -/
theorem reader_limit_tryLock :
    ∃ c c₁ : Config ℕ (Shared ℕ ℕ) (Local ℕ Unit), (guards .read c).ncard = 127 ∧
      Attempted 127 (.tryLock .read) c c₁ ∧ (c₁.loc 127).pc = .tooManyReaders .user ∧
      Usable c ∧ Untouched c c₁ ∧ Usable c₁ := by
  obtain ⟨c, hc, hword, -, hidle⟩ := readers 127 (Nat.le_refl 127)
  have hn := (counted hc.reachable).ncard_read hword
  have hfull := (counted hc.reachable).dataLock_full hn
  have hcall : Attempted 127 (.tryLock .read) c _ := .refl
  obtain ⟨c₁, H, hp⟩ := hcall.panics hfull (k := .user) (by rw [Config.set_loc_self]; rfl)
  have hend := (reader_limit hc.reachable).2 127 (.tryLock .read) c₁ .user
    (.inl (hidle 127 (Nat.le_refl 127))) rfl hn H hp
  exact ⟨c, c₁, hn, H, hp, (reader_limit hc.reachable).1 hc, hend.1.2 rfl, (hend.2 hc).2 rfl⟩

/-! ### A panic inside a section -/

theorem panicked_stays {k : Caller} (hp : (c.loc i).pc = .tooManyReaders k)
    (h : sys.Reachable c c₁) : (c₁.loc i).pc = .tooManyReaders k := by
  refine System.Reach.invariant (I := fun c => (c.loc i).pc = .tooManyReaders k) h hp ?_ ?_
  · intro c j a s l _ ih _ hs
    by_cases hij : i = j
    · subst hij
      cases a <;> simp [sys, step, advance, ih, Pc.atRest] at hs
    · rw [Config.set_loc_of_ne hij]
      exact ih
  · intro c e s _ ih _ _
    exact ih

/-- **After a panic inside a section its spinlock stays locked**, whatever is done. -/
theorem locked_for_ever (hc : sys.Reachable (init plat value regs) c) {w : Way}
    (hp : (c.loc i).pc = .tooManyReaders (.sect w)) (h : sys.Reachable c c₁) :
    (c₁.shared.waiting (.read, w)).locked = true := by
  refine (waiting_inv (hc.trans h)).locked i (.read, w) ?_
  show ((c₁.loc i).pc.role i).sect = _
  rw [panicked_stays hp h]
  rfl

/-- **A panic inside a section.**  127 threads read, nobody waits, and one more thread calls
`lock_block_read`.  The spinlock of the list of the blocked readers stays locked for ever: the lock is
not usable any more, a later `lock_block_read` never enters its section, and no writer gets past this
list in its drop. -/
theorem reader_limit_lockBlock :
    ∃ c c₁ : Config ℕ (Shared ℕ ℕ) (Local ℕ Unit),
      sys.Reachable (init (.new .native) 0 fun _ => ()) c ∧ (guards .read c).ncard = 127 ∧
      Attempted 127 (.lockBlock .read) c c₁ ∧ (c₁.loc 127).pc = .tooManyReaders (.sect .sync) ∧
      ¬ Untouched c c₁ ∧ ∀ c₂, sys.Reachable c₁ c₂ → ¬ Usable c₂ ∧
        ∀ j, ((c₂.loc j).pc = .enter .read .sync ∨
            ∃ q rest, (c₂.loc j).pc = .didUnlockWrite q [] ((.read, .sync) :: rest)) →
          advance j c₂.shared (c₂.loc j) = none := by
  obtain ⟨c, hc, hword, hwaiting, hidle⟩ := readers 127 (Nat.le_refl 127)
  have hn := (counted hc.reachable).ncard_read hword
  have hfull := (counted hc.reachable).dataLock_full hn
  have hcall : sys.Reachable (init (.new .native) 0 fun _ => ())
      (c.set 127 c.shared ((c.loc 127).goto (Op.lockBlock .read).start)) :=
    hc.reachable.agent (a := .call (.lockBlock .read)) trivial
      (by simp [sys, step, hidle 127 (Nat.le_refl 127)])
  have henter : Attempted 127 (.lockBlock .read) c _ := System.Reach.agent (a := .step) (i := 127)
    (s := c.shared.setLocked (.read, .sync) true) (l := (c.loc 127).goto (.attempt .read (.sect .sync)))
    .refl (.inl rfl) (by simp [sys, step, advance, Op.lockBlock, Op.start, hwaiting, Local.goto])
  obtain ⟨c₁, H, hp⟩ := henter.panics (k := .sect .sync) hfull (by rw [Config.set_loc_self]; rfl)
  have hreach := hcall.trans H.reachable
  refine ⟨c, c₁, hc.reachable, hn, H, hp, fun hU => ?_, fun c₂ h => ⟨fun hU => ?_, fun j hj => ?_⟩⟩
  · have hflag := locked_for_ever hreach hp .refl
    rw [hU.2, hwaiting] at hflag
    cases hflag
  · obtain ⟨c', hc', -, -, hfree⟩ := hU.completes
    have hflag := locked_for_ever hreach hp (h.trans hc'.reachable)
    rw [hfree] at hflag
    cases hflag
  · have hflag := locked_for_ever hreach hp h
    rcases hj with hj | ⟨q, rest, hj⟩ <;> simp [advance, hj, hflag]

end RwLock

end WasmSafeThread
