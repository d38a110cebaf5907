import WasmSafeThread.Agents.Owner
import WasmSafeThread.RwLock.Basic

/-!
# The reader count

One byte holds the number of readers and the writer flag.

* `readClosure_spec` : what the closure of `try_lock_read` decides, in numbers.
* `DataMove` : all that an operation can do to `data_lock`, the value and the guards;
  `step_data` is the inversion lemma.
* `Counted` : the byte is `LOCKED_WRITE` with one writer and no reader, or it is the number of
  readers, at most 127, with no writer.
* `counted` : **exclusion and exact count** in every reachable configuration.
-/

namespace WasmSafeThread

namespace RwLock

variable {ι R D : Type*}

/-! ### The byte -/

theorem and_locked_write_eq_zero : ∀ f : BitVec 8, f &&& LOCKED_WRITE = 0 ↔ f.toNat < 128 := by
  decide +kernel

theorem Readable.toNat_lt (f : Readable) : f.1.toNat < 127 := by
  have h := (and_locked_write_eq_zero f.1).1 f.2.1
  have hne : f.1.toNat ≠ 127 := fun hc => f.2.2 (by
    apply BitVec.eq_of_toNat_eq
    rw [hc]
    rfl)
  omega

theorem Readable.toNat_succ (f : Readable) : (f.1 + 1).toNat = f.1.toNat + 1 := by
  have := f.toNat_lt
  rw [BitVec.toNat_add, show (1 : BitVec 8).toNat = 1 from rfl]
  omega

theorem readClosure_refuse {f : BitVec 8} (h : readClosure f = .refuse) : 128 ≤ f.toNat := by
  by_contra hlt
  have := (and_locked_write_eq_zero f).2 (by omega)
  unfold readClosure at h
  split at h
  · contradiction
  · split at h <;> cases h

theorem Verdict.next_hasGuard (v : Verdict) (k : Caller) (m : Mode) :
    (v.next (ι := ι) k).hasGuard m = false := by
  cases v <;> cases k <;> rfl

theorem Caller.ok_hasGuard (k : Caller) (m m' : Mode) :
    (k.ok (ι := ι) m).hasGuard m' = decide (m = m') := by
  cases k <;> rfl

theorem Caller.err_hasGuard (k : Caller) (m m' : Mode) :
    (k.err (ι := ι) m).hasGuard m' = false := by
  cases k <;> rfl

theorem Op.start_hasGuard (op : Op) (m : Mode) : (op.start (ι := ι)).hasGuard m = false := by
  cases op <;> rfl

theorem suspend_hasGuard (m m' : Mode) (slot : Slot) :
    (suspend (ι := ι) m slot).hasGuard m' = false := by
  cases slot <;> rfl

/-! ### What one operation can do -/

variable [DecidableEq ι] {i : ι} {a : Act R D} {s s₁ : Shared ι D} {l l₁ : Local ι R}

/-- What an operation does to the lock proper. -/
inductive DataMove (s : Shared ι D) (l : Local ι R) (s₁ : Shared ι D) (l₁ : Local ι R) : Prop where
  | acquireRead (hl : ∀ m, l.pc.hasGuard m = false) (f : Readable) (hpc : ∃ k, l.pc = .exchange f k)
      (hf : s.dataLock = f.1) (hlock : s₁.dataLock = f.1 + 1)
      (hl₁ : ∀ m, l₁.pc.hasGuard m = decide (m = .read)) (hinner : s₁.inner = s.inner)
  | acquireWrite (hl : ∀ m, l.pc.hasGuard m = false) (hfree : s.dataLock = UNLOCKED)
      (hlock : s₁.dataLock = LOCKED_WRITE) (hl₁ : ∀ m, l₁.pc.hasGuard m = decide (m = .write))
      (hinner : s₁.inner = s.inner)
  | dropRead (hl : l.pc = .guard .read) (hlock : s₁.dataLock = s.dataLock - 1)
      (hl₁ : l₁.pc = if 0 < s.dataLock then didUnlockRead else .assertFailed)
      (hinner : s₁.inner = s.inner)
  | dropWrite (hl : l.pc = .guard .write) (hlock : s₁.dataLock = UNLOCKED)
      (hl₁ : l₁.pc = if s.dataLock = LOCKED_WRITE then didUnlockWrite else .assertFailed)
      (hinner : s₁.inner = s.inner)
  | write (hl : l.pc = .guard .write) (hl₁ : l₁.pc = l.pc) (hlock : s₁.dataLock = s.dataLock)
  | other (hl₁ : ∀ m, l₁.pc.hasGuard m = l.pc.hasGuard m) (hlock : s₁.dataLock = s.dataLock)
      (hinner : s₁.inner = s.inner) (hfailed : l₁.pc = .assertFailed → l.pc = .assertFailed)

theorem advance_data (h : advance i s l = some (s₁, l₁)) : DataMove s l s₁ l₁ := by
  cases hp : l.pc with
  | idle | failed | guard | tooManyReaders | assertFailed => simp [advance, hp] at h
  | attempt m k =>
    cases m with
    | read =>
      simp only [advance, hp] at h
      cases h
      refine .other (fun m => ?_) rfl rfl ?_
      · rw [hp]; exact Verdict.next_hasGuard _ k m
      · cases readClosure s.dataLock <;> cases k <;> exact nofun
    | write =>
      simp only [advance, hp] at h
      split at h <;> cases h
      · rename_i hfree
        refine .acquireWrite (fun m => by rw [hp]; rfl) hfree rfl (fun m => ?_) rfl
        exact (k.ok_hasGuard .write m).trans (by cases m <;> rfl)
      · refine .other (fun m => by rw [hp]; exact k.err_hasGuard .write m) rfl rfl ?_
        cases k <;> exact nofun
  | exchange f k =>
    simp only [advance, hp] at h
    split at h <;> cases h
    · -- the byte is still what it was when the number of readers was computed
      rename_i hf
      refine .acquireRead (fun m => by rw [hp]; rfl) f ⟨k, hp⟩ hf rfl (fun m => ?_) rfl
      exact (k.ok_hasGuard .read m).trans (by cases m <;> rfl)
    · refine .other (fun m => ?_) rfl rfl ?_
      · rw [hp]; exact Verdict.next_hasGuard _ k m
      · cases readClosure s.dataLock <;> cases k <;> exact nofun
  | enter m w =>
    simp only [advance, hp] at h
    split at h <;> cases h
    exact .other (fun m => by rw [hp]; rfl) rfl rfl nofun
  | push m w =>
    simp only [advance, hp] at h
    cases h
    exact .other (fun m => by rw [hp]; rfl) rfl rfl nofun
  | leaveOk m w =>
    simp only [advance, hp] at h
    cases h
    exact .other (fun m => by rw [hp]; rfl) rfl rfl nofun
  | leaveErr m slot =>
    simp only [advance, hp] at h
    cases h
    refine .other (fun m' => by rw [hp]; exact suspend_hasGuard m m' slot) rfl rfl ?_
    cases slot <;> exact nofun
  | park m =>
    simp only [advance, hp] at h
    split at h <;> cases h
    exact .other (fun m => by rw [hp]; rfl) rfl rfl nofun
  | await m c =>
    simp only [advance, hp] at h
    split at h <;> cases h
    exact .other (fun m => by rw [hp]; rfl) rfl rfl nofun
  | didUnlockRead q pending rest | didUnlockWrite q pending rest =>
    rcases pending with _ | ⟨x, pending⟩
    · rcases rest with _ | ⟨q', rest⟩ <;> simp only [advance, hp] at h
      · cases h
        exact .other (fun m => by rw [hp]; rfl) rfl rfl nofun
      · split at h <;> cases h
        exact .other (fun m => by rw [hp]; rfl) rfl rfl nofun
    · simp only [advance, hp] at h
      cases h
      exact .other (fun m => by rw [hp]; rfl) rfl rfl nofun

theorem step_data (h : step i a s l = some (s₁, l₁)) : DataMove s l s₁ l₁ := by
  cases a with
  | step => exact advance_data (by simpa [step] using h)
  | call op =>
    cases hp : l.pc <;> simp only [step, hp, reduceCtorEq] at h <;> cases h <;>
      refine .other (fun m => by rw [hp]; exact op.start_hasGuard m) rfl rfl ?_ <;>
      cases op <;> exact nofun
  | spurious =>
    cases hp : l.pc <;> simp only [step, hp, reduceCtorEq] at h
    case exchange f k =>
      cases h
      refine .other (fun m => ?_) rfl rfl ?_
      · rw [hp]; exact Verdict.next_hasGuard _ k m
      · cases readClosure s.dataLock <;> cases k <;> exact nofun
    case park m =>
      cases h
      exact .other (fun m => by rw [hp]; rfl) rfl rfl nofun
  | cancel =>
    cases hp : l.pc <;> simp only [step, hp, reduceCtorEq] at h
    cases h
    exact .other (fun m => by rw [hp]; rfl) rfl rfl nofun
  | read f =>
    cases hp : l.pc <;> simp only [step, hp, reduceCtorEq] at h
    case guard m =>
      cases m <;> simp only [reduceCtorEq] at h
      cases h
      exact .other (fun m => by rw [hp]) rfl rfl nofun
  | write f =>
    cases hp : l.pc <;> simp only [step, hp, reduceCtorEq] at h
    case guard m =>
      cases m <;> simp only [reduceCtorEq] at h
      cases h
      exact .write hp hp.symm rfl
  | drop =>
    cases hp : l.pc <;> simp only [step, hp, reduceCtorEq] at h
    case guard m =>
      cases m <;> cases h
      · exact .dropRead hp rfl rfl rfl
      · exact .dropWrite hp rfl rfl rfl
  | consume =>
    simp only [step] at h
    split at h <;> cases h
    exact .other (fun m => rfl) rfl rfl id

theorem env_data {e : Event ι} (h : (sys (ι := ι) (R := R) (D := D)).env e s = some s₁) :
    ∃ p, s.plat.apply e = some p ∧ s₁ = s.setPlat p := by
  simp only [sys, Option.map_eq_some_iff] at h
  obtain ⟨p, hp, rfl⟩ := h
  exact ⟨p, hp, rfl⟩

/-! ### The count -/

variable {c : Config ι (Shared ι D) (Local ι R)} {m : Mode}

/-- The agents with a live guard for `m`. -/
def guards (m : Mode) (c : Config ι (Shared ι D) (Local ι R)) : Set ι :=
  c.holders fun l => l.pc.hasGuard m

/-- The byte and the live guards agree, and no assertion has failed. -/
structure Counted (c : Config ι (Shared ι D) (Local ι R)) : Prop where
  finite : ∀ m, (guards m c).Finite
  count : (guards .write c).ncard = 1 ∧ (guards .read c).ncard = 0 ∧
      c.shared.dataLock = LOCKED_WRITE ∨
    (guards .write c).ncard = 0 ∧ (guards .read c).ncard = c.shared.dataLock.toNat ∧
      c.shared.dataLock.toNat ≤ 127
  assertions : ∀ i, (c.loc i).pc ≠ .assertFailed

namespace Counted

omit [DecidableEq ι] in
theorem ncard_pos (h : Counted c) (hi : (c.loc i).pc.hasGuard m = true) :
    0 < (guards m c).ncard :=
  (Set.ncard_pos (h.finite m)).2 ⟨i, hi⟩

theorem assertions_set (h : Counted c) (hl₁ : l₁.pc ≠ .assertFailed) (j : ι) :
    ((c.set i s₁ l₁).loc j).pc ≠ .assertFailed := by
  by_cases hj : j = i
  · subst hj; simpa using hl₁
  · rw [Config.set_loc_of_ne hj]; exact h.assertions j

theorem ncard_set (h : Counted c) (i : ι) (s₁ : Shared ι D) (l₁ : Local ι R) (m : Mode) :
    (guards m (c.set i s₁ l₁)).ncard + ((c.loc i).pc.hasGuard m).toNat =
      (guards m c).ncard + (l₁.pc.hasGuard m).toNat :=
  Config.ncard_holders_set (h.finite m)

/-- Every operation of every agent keeps the count. -/
theorem step (h : Counted c) (hs : step i a c.shared (c.loc i) = some (s₁, l₁)) :
    Counted (c.set i s₁ l₁) := by
  have hfin : ∀ m, (guards m (c.set i s₁ l₁)).Finite :=
    fun m => Config.finite_holders_set (h.finite m)
  have hread := h.ncard_set i s₁ l₁ .read
  have hwrite := h.ncard_set i s₁ l₁ .write
  have hcount := h.count
  cases step_data hs with
  | acquireRead hl f hpc hf hlock hl₁ =>
    have hlt := f.toNat_lt
    have hsucc := f.toNat_succ
    simp only [hl, hl₁, decide_true, Bool.toNat_true, Bool.toNat_false] at hread hwrite
    refine ⟨hfin, .inr ?_, h.assertions_set fun hc => ?_⟩
    · rcases hcount with ⟨-, -, hword⟩ | ⟨hw, hr, hle⟩
      · -- the closure has seen that there is no writer
        rw [hf] at hword
        rw [hword] at hlt
        exact absurd hlt (by decide)
      · simp only [Config.set_shared, hlock, hsucc]
        rw [hf] at hr
        refine ⟨?_, ?_, ?_⟩
        · simpa [hw] using hwrite
        · omega
        · omega
    · have := hl₁ .read
      rw [hc] at this
      cases this
  | acquireWrite hl hfree hlock hl₁ =>
    simp only [hl, hl₁, decide_true, Bool.toNat_true, Bool.toNat_false] at hread hwrite
    refine ⟨hfin, .inl ?_, h.assertions_set fun hc => ?_⟩
    · rcases hcount with ⟨-, -, hword⟩ | ⟨hw, hr, -⟩
      · rw [hfree] at hword
        exact absurd hword (by decide)
      · rw [hfree] at hr
        refine ⟨?_, ?_, hlock⟩
        · omega
        · simpa [hr, UNLOCKED] using hread
    · have := hl₁ .write
      rw [hc] at this
      cases this
  | dropRead hl hlock hl₁ =>
    have hpos := h.ncard_pos (m := .read) (i := i) (by rw [hl]; rfl)
    rcases hcount with ⟨-, hr, -⟩ | ⟨hw, hr, hle⟩
    · omega
    · have hword : 0 < c.shared.dataLock := by rw [BitVec.lt_def]; simp; omega
      rw [if_pos hword] at hl₁
      rw [hl, hl₁] at hread hwrite
      refine ⟨hfin, .inr ?_, h.assertions_set (by rw [hl₁]; exact nofun)⟩
      have hsub : (c.shared.dataLock - 1).toNat = c.shared.dataLock.toNat - 1 := by
        rw [BitVec.toNat_sub]; simp; omega
      simp only [Pc.hasGuard, didUnlockRead, decide_true, Bool.toNat_true, Bool.toNat_false,
        reduceCtorEq, decide_false] at hread hwrite
      simp only [Config.set_shared, hlock, hsub]
      omega
  | dropWrite hl hlock hl₁ =>
    have hpos := h.ncard_pos (m := .write) (i := i) (by rw [hl]; rfl)
    rcases hcount with ⟨hw, hr, hword⟩ | ⟨hw, -⟩
    · rw [if_pos hword] at hl₁
      rw [hl, hl₁] at hread hwrite
      refine ⟨hfin, .inr ?_, h.assertions_set (by rw [hl₁]; exact nofun)⟩
      simp only [Pc.hasGuard, didUnlockWrite, decide_true, Bool.toNat_true, Bool.toNat_false,
        reduceCtorEq, decide_false] at hread hwrite
      simp only [Config.set_shared, hlock, UNLOCKED]
      simp
      omega
    · omega
  | write hl hl₁ hlock =>
    rw [hl₁] at hread hwrite
    refine ⟨hfin, ?_, h.assertions_set (by rw [hl₁, hl]; exact nofun)⟩
    simp only [Config.set_shared, hlock]
    rwa [Nat.add_right_cancel hread, Nat.add_right_cancel hwrite]
  | other hl₁ hlock _ hfailed =>
    rw [hl₁] at hread hwrite
    refine ⟨hfin, ?_, h.assertions_set fun hc => h.assertions i (hfailed hc)⟩
    simp only [Config.set_shared, hlock]
    rwa [Nat.add_right_cancel hread, Nat.add_right_cancel hwrite]

omit [DecidableEq ι] in
theorem init {plat : Platform ι} {value : D} {regs : ι → R} : Counted (init plat value regs) := by
  have hnone : ∀ m, guards m (RwLock.init plat value regs) = ∅ := fun m => by
    ext i
    simp [guards, RwLock.init, Pc.hasGuard]
  refine ⟨fun m => by rw [hnone]; exact Set.finite_empty, .inr ?_, fun i => nofun⟩
  simp only [hnone, Set.ncard_empty]
  exact ⟨trivial, rfl, (by decide : UNLOCKED.toNat ≤ 127)⟩

end Counted

/-- The count is exact in every reachable configuration. -/
theorem counted {plat : Platform ι} {value : D} {regs : ι → R}
    (h : sys.Reachable (init plat value regs) c) : Counted c := by
  refine h.invariant .init (fun c i a s l _ ih _ hs => ih.step hs) ?_
  intro c e s _ ih _ hs
  obtain ⟨p, -, rfl⟩ := env_data hs
  exact ⟨ih.finite, ih.count, ih.assertions⟩

/-- **Exclusion and exact count.**  In every reachable configuration `data_lock` is
`LOCKED_WRITE` exactly when there is one live `WriteGuard` and no `ReadGuard`; otherwise it is the
number of live `ReadGuard`s, at most 127, and there is no `WriteGuard`.  No assertion in a drop
fails, and a writer excludes every other guard. -/
theorem exclusion {plat : Platform ι} {value : D} {regs : ι → R}
    (h : sys.Reachable (init plat value regs) c) :
    (c.shared.dataLock = LOCKED_WRITE ↔
      (guards .write c).ncard = 1 ∧ (guards .read c).ncard = 0) ∧
    (c.shared.dataLock ≠ LOCKED_WRITE →
      (guards .write c).ncard = 0 ∧ (guards .read c).ncard = c.shared.dataLock.toNat ∧
        (guards .read c).ncard ≤ 127) ∧
    (∀ m, (guards m c).Finite) ∧ (∀ i, (c.loc i).pc ≠ .assertFailed) ∧
    (∀ i j, (c.loc i).pc.hasGuard .write = true → (c.loc j).pc.hasGuard .read = false) ∧
    ∀ i j, (c.loc i).pc.hasGuard .write = true → (c.loc j).pc.hasGuard .write = true → i = j := by
  have hc := counted h
  have hword : c.shared.dataLock.toNat ≤ 127 → c.shared.dataLock ≠ LOCKED_WRITE := by
    intro hle he
    rw [he] at hle
    exact absurd hle (by decide)
  refine ⟨?_, ?_, hc.finite, hc.assertions, ?_, ?_⟩
  · rcases hc.count with ⟨hw, hr, he⟩ | ⟨hw, -, hle⟩
    · simp [hw, hr, he]
    · simp [hw, hword hle]
  · intro hne
    rcases hc.count with ⟨-, -, he⟩ | ⟨hw, hr, hle⟩
    · exact absurd he hne
    · exact ⟨hw, hr, by omega⟩
  · intro i j hi
    -- a writer and a reader together contradict both forms of the count
    have hpos := hc.ncard_pos hi
    by_contra hj
    have hpos' := hc.ncard_pos (by simpa using hj)
    rcases hc.count with ⟨-, hr, -⟩ | ⟨hw, -⟩ <;> omega
  · intro i j hi hj
    have hpos := hc.ncard_pos hi
    have hone : (guards .write c).ncard = 1 := by
      rcases hc.count with ⟨hw, -⟩ | ⟨hw, -⟩ <;> omega
    obtain ⟨k, hk⟩ := Set.ncard_eq_one.1 hone
    have hik : i ∈ guards .write c := hi
    have hjk : j ∈ guards .write c := hj
    rw [hk, Set.mem_singleton_iff] at hik hjk
    rw [hik, hjk]

/-- A run in which two threads read: the byte counts both. -/
theorem exclusion_two_readers :
    ∃ c : Config Bool (Shared Bool ℕ) (Local Bool Unit),
      sys.Reachable (init (.new .native) 0 fun _ => ()) c ∧
      (guards .read c).ncard = 2 ∧ (guards .write c).ncard = 0 := by
  obtain ⟨c, hc, hend⟩ := System.exists_of_run (M := sys)
    (p := fun c => decide (c.shared.dataLock = 2))
    (c := init (R := Unit) (.new .native) 0 fun _ => ())
    [.agent false (.call (.tryLock .read)), .agent true (.call (.lockSpin .read)),
      .agent true .step, .agent false .step, .agent false .step, .agent true .step,
      .agent true .step] (by decide)
  rw [decide_eq_true_eq] at hend
  obtain ⟨hw, hr, -⟩ := (exclusion hc).2.1 (by rw [hend]; decide)
  exact ⟨c, hc, by rw [hr, hend]; rfl, hw⟩

end RwLock

end WasmSafeThread
