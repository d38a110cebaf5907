import WasmSafeThread.Mutex.Waiting

/-!
# Acquisitions that go on

An acquisition without a deadline never gives up: it spins or waits until it has the guard.  Of the
agents in a call one can always go on, unless the lock belongs to an agent whose guard is at rest, which
may keep it as long as it likes (`advances`).  "Go on" is a step that makes a rank smaller: that of the
agent's control point, with the handles in the waiting lists.
-/

namespace WasmSafeThread

namespace Mutex

variable {ι R D : Type*}

/-- The acquisition has no deadline, and waits. -/
def Op.untimed : Op → Bool
  | .lockSpin none | .lockWait _ none => true
  | _ => false

/-- No acquisition with a deadline is in progress, and none has failed. -/
def Pc.untimed : Pc ι → Bool
  | .idle | .guard | .lockSpin none | .enter _ none | .attempt _ none | .push _ none | .leaveOk _
  | .leaveErr _ none | .park none | .await _ | .didUnlock _ _ _ => true
  | _ => false

/-- How far an agent is from the end of its call, when its attempts succeed. -/
def Pc.rank : Pc ι → ℕ
  | .didUnlock _ pending rest => pending.length + 2 * rest.length + 1
  | .guard => 6
  | .leaveOk _ => 7
  | .attempt _ _ => 8
  | .enter _ _ | .lockSpin _ => 9
  | .park _ | .await _ => 10
  | .leaveErr _ _ => 11
  | .push _ _ => 13
  | _ => 0

/-- The handles in the waiting lists. -/
def Shared.entries (s : Shared ι R D) : ℕ :=
  (s.waiting .sync).data.length + (s.waiting .async).data.length

variable {i : ι} {a : Act R D} {s s₁ : Shared ι R D} {l l₁ : Local ι R}
  {c : Config ι (Shared ι R D) (Local ι R)}

theorem entries_setList (w : Way) (es : List (Wake ι)) :
    (s.setList w es).entries + (s.waiting w).data.length = s.entries + es.length := by
  cases w <;> simp [Shared.entries, Shared.setList, Lists.setData] <;> omega

theorem entries_setLocked (w : Way) (b : Bool) : (s.setLocked w b).entries = s.entries := by
  cases w <;> simp [Shared.entries, Shared.setLocked, Lists.setLocked]

theorem Pc.eq_idle {p : Pc ι} (hun : p.untimed = true) (hrest : p.atRest = true) (hquiet : p.quiet = true) :
    p = .idle := by
  cases p <;> simp_all [Pc.untimed, Pc.atRest, Pc.quiet]

theorem Pc.eq_guard {p : Pc ι} (hun : p.untimed = true) (hrest : p.atRest = true) (hquiet : p.quiet = false) :
    p = .guard := by
  cases p <;> simp_all [Pc.untimed, Pc.atRest, Pc.quiet]

theorem Op.untimed_start {op : Op} (h : op.untimed = true) : (op.start : Pc ι).untimed = true := by
  cases op with
  | tryLock => cases h
  | lockSpin d | lockWait w d => cases d <;> first | rfl | cases h

variable [DecidableEq ι]

/-- Nothing puts a deadline on an acquisition that has none, and it does not give up. -/
theorem advance_untimed (hl : l.pc.untimed = true) (h : advance i s l = some (s₁, l₁)) :
    l₁.pc.untimed = true ∧ (l₁.pc.quiet = true → l.pc.quiet = true) := by
  cases hp : l.pc with
  | idle | guard => simp [advance, hp] at h
  | lockSpin d | enter w d | attempt w d =>
    cases d with
    | some d => rw [hp] at hl; cases hl
    | none =>
      simp only [advance, hp] at h
      split at h <;> cases h <;> exact ⟨rfl, by rintro ⟨⟩⟩
  | push w d =>
    cases d with
    | some d => rw [hp] at hl; cases hl
    | none =>
      simp only [advance, hp] at h
      cases h
      exact ⟨rfl, by rintro ⟨⟩⟩
  | leaveOk w =>
    simp only [advance, hp] at h
    cases h
    exact ⟨rfl, by rintro ⟨⟩⟩
  | leaveErr slot d =>
    cases d with
    | some d => rw [hp] at hl; cases hl
    | none =>
      simp only [advance, hp] at h
      cases h
      cases slot <;> exact ⟨rfl, by rintro ⟨⟩⟩
  | park d =>
    cases d with
    | some d => rw [hp] at hl; cases hl
    | none =>
      simp only [advance, hp] at h
      split at h <;> cases h
      exact ⟨rfl, by rintro ⟨⟩⟩
  | await n =>
    simp only [advance, hp] at h
    split at h <;> cases h
    exact ⟨rfl, by rintro ⟨⟩⟩
  | didUnlock w pending rest =>
    refine ⟨?_, fun _ => rfl⟩
    rcases pending with _ | ⟨x, pending⟩
    · rcases rest with _ | ⟨w', rest⟩ <;> simp only [advance, hp] at h
      · cases h
        rfl
      · split at h <;> cases h
        rfl
    · simp only [advance, hp] at h
      cases h
      rfl
  | failed | tryLock | lockSpinNow | lockNow | spawnTimer | race | raceTimeout => rw [hp] at hl; cases hl

theorem goes_on_untimed (hl : l.pc.untimed = true) (ha : a = .step ∨ a = .spurious)
    (h : step i a s l = some (s₁, l₁)) :
    l₁.pc.untimed = true ∧ (l₁.pc.quiet = true → l.pc.quiet = true) := by
  rcases ha with rfl | rfl
  · exact advance_untimed hl h
  · cases hp : l.pc <;> simp only [step, hp, reduceCtorEq] at h
    cases h
    rw [hp] at hl
    rename_i d
    cases d with
    | none => exact ⟨rfl, by rintro ⟨⟩⟩
    | some d => cases hl

theorem step_untimed (hl : l.pc.untimed = true) (ha : ∀ op, a = .call op → op.untimed = true)
    (h : step i a s l = some (s₁, l₁)) : l₁.pc.untimed = true := by
  cases a with
  | step => exact (goes_on_untimed hl (.inl rfl) h).1
  | spurious => exact (goes_on_untimed hl (.inr rfl) h).1
  | call op =>
    have hstart := Op.untimed_start (ι := ι) (ha op rfl)
    cases hp : l.pc <;> simp only [step, hp, reduceCtorEq] at h <;> cases h <;> exact hstart
  | cancel | access | drop => cases hp : l.pc <;> simp only [step, hp, reduceCtorEq] at h <;> cases h <;> rfl
  | consume =>
    simp only [step] at h
    split at h <;> cases h
    exact hl

/-- Agent `i` can make a step that brings it nearer to the end of its call. -/
def Advances (i : ι) (c : Config ι (Shared ι R D) (Local ι R)) : Prop :=
  ∃ s l, advance i c.shared (c.loc i) = some (s, l) ∧
    l.pc.rank + s.entries < (c.loc i).pc.rank + c.shared.entries

/-- A section is left. -/
theorem advances_leaving (hp : (∃ w, (c.loc i).pc = .leaveOk w) ∨ (∃ w d, (c.loc i).pc = .push w d) ∨
    ∃ slot, (c.loc i).pc = .leaveErr slot none) : Advances i c := by
  rcases hp with ⟨w, hp⟩ | ⟨w, d, hp⟩ | ⟨slot, hp⟩
  · refine ⟨c.shared.setLocked w false, (c.loc i).goto .guard, by simp [advance, hp], ?_⟩
    rw [entries_setLocked, hp]
    exact Nat.add_lt_add_right (show 6 < 7 by omega) _
  · refine ⟨register i c.shared w, (c.loc i).goto (.leaveErr (c.shared.plat.slot w) d),
      by simp [advance, hp], ?_⟩
    have hentries := entries_setList (s := c.shared) w
      ((c.shared.waiting w).data ++ [(c.shared.plat.slot w).wake i])
    rw [List.length_append, List.length_singleton] at hentries
    have hreg : (register i c.shared w).entries = (c.shared.setList w
        ((c.shared.waiting w).data ++ [(c.shared.plat.slot w).wake i])).entries := rfl
    rw [hreg, hp, Local.goto_pc]
    show 11 + _ < 13 + c.shared.entries
    omega
  · refine ⟨c.shared.setLocked slot.way false, (c.loc i).goto (suspend slot none),
      by simp [advance, hp], ?_⟩
    rw [entries_setLocked, hp, Local.goto_pc]
    refine Nat.add_lt_add_right (show (suspend slot none : Pc ι).rank < 11 from ?_) _
    cases slot <;> exact Nat.lt_succ_self 10

theorem advances_attempt (hfree : c.shared.dataLock = false)
    (hp : (∃ w d, (c.loc i).pc = .attempt w d) ∨ ∃ d, (c.loc i).pc = .lockSpin d) : Advances i c := by
  rcases hp with ⟨w, d, hp⟩ | ⟨d, hp⟩
  · refine ⟨c.shared.acquire i, (c.loc i).goto (.leaveOk w),
      by simp [advance, hp, Shared.tryLock, hfree], ?_⟩
    rw [hp]
    exact Nat.add_lt_add_right (show 7 < 8 by omega) _
  · refine ⟨c.shared.acquire i, (c.loc i).goto .guard, by simp [advance, hp, hfree], ?_⟩
    rw [hp]
    exact Nat.add_lt_add_right (show 6 < 9 by omega) _

theorem advances_enter {w : Way} {d : Option ℕ} (hfree : (c.shared.waiting w).locked = false)
    (hp : (c.loc i).pc = .enter w d) : Advances i c := by
  refine ⟨c.shared.setLocked w true, (c.loc i).goto (.attempt w d), by simp [advance, hp, hfree], ?_⟩
  rw [entries_setLocked, hp]
  exact Nat.add_lt_add_right (show 8 < 9 by omega) _

/-- A drop goes on while nobody is in a section. -/
theorem advances_unlock {w : Way} {pending : List (Wake ι)} {rest : List Way}
    (hfree : ∀ w, (c.shared.waiting w).locked = false) (hp : (c.loc i).pc = .didUnlock w pending rest) :
    Advances i c := by
  cases pending with
  | nil =>
    cases rest with
    | nil =>
      refine ⟨c.shared, (c.loc i).goto .idle, by simp [advance, hp], ?_⟩
      rw [hp]
      exact Nat.add_lt_add_right (show 0 < 1 by omega) _
    | cons w' rest =>
      refine ⟨c.shared.setList w' [], (c.loc i).goto (.didUnlock w' (c.shared.waiting w').data rest),
        by simp [advance, hp, hfree], ?_⟩
      have := entries_setList (s := c.shared) w' []
      rw [hp]
      simp only [Local.goto_pc, Pc.rank, List.length_nil, List.length_cons] at this ⊢
      omega
  | cons x pending =>
    refine ⟨c.shared.setPlat (c.shared.plat.wake x), (c.loc i).goto (.didUnlock w pending rest),
      by simp [advance, hp], ?_⟩
    rw [hp]
    refine Nat.add_lt_add_right ?_ _
    simp only [Local.goto_pc, Pc.rank, List.length_cons]
    omega

theorem advances_wake (hp : (c.loc i).pc = .park none ∧ c.shared.plat.token i = true ∨
    ∃ n, (c.loc i).pc = .await n ∧ c.shared.plat.sent n = true) : Advances i c := by
  rcases hp with ⟨hp, hsig⟩ | ⟨n, hp, hsig⟩
  · refine ⟨c.shared.setPlat (c.shared.plat.consume i), (c.loc i).goto (.enter .sync none),
      by simp [advance, hp, hsig, again], ?_⟩
    rw [hp]
    exact Nat.add_lt_add_right (show 9 < 10 by omega) _
  · refine ⟨c.shared, (c.loc i).goto (.enter .async none), by simp [advance, hp, hsig, again], ?_⟩
    rw [hp]
    exact Nat.add_lt_add_right (show 9 < 10 by omega) _

variable {plat : Platform ι} {value : D} {regs : ι → R}

theorem sections (h : sys.Reachable (init plat value regs) c) {w : Way}
    (hw : (c.shared.waiting w).locked = true) : ∃ i, (c.loc i).pc.inSection w = true := by
  obtain ⟨i, hi⟩ := refines.sections h (fun _ => rfl) (q := w) hw
  refine ⟨i, ?_⟩
  have hsect : ((c.loc i).pc.role i).sect = some w := hi
  cases hp : (c.loc i).pc <;> rw [hp] at hsect <;> cases hsect <;> simp [Pc.inSection]

/-- **Somebody goes on**, as long as somebody is in a call and nobody sits on a guard. -/
theorem advances (h : sys.Reachable (init plat value regs) c)
    (hun : ∀ i, (c.loc i).pc.untimed = true) (hguard : ∀ i, (c.loc i).pc ≠ .guard)
    (hcall : ∃ i, (c.loc i).pc.atRest = false) : ∃ i, (c.loc i).pc.atRest = false ∧ Advances i c := by
  by_contra hno
  have hno : ∀ i, (c.loc i).pc.atRest = false → ¬ Advances i c := fun i hi hadv => hno ⟨i, hi, hadv⟩
  -- nobody has a guard, so the lock is free
  have hnone : ∀ i, (c.loc i).pc.hasGuard = false := fun i => by
    cases hp : (c.loc i).pc with
    | guard => exact absurd hp (hguard i)
    | leaveOk w => exact absurd (advances_leaving (.inl ⟨w, hp⟩)) (hno i (by rw [hp]; rfl))
    | _ => rfl
  have hfree : c.shared.dataLock = false := by
    by_contra hlock
    obtain ⟨i, hi⟩ := (owned h).iff.1 (Bool.eq_true_of_not_eq_false hlock)
    rw [hnone i] at hi
    cases hi
  -- every section can be left, so nobody is in one
  have hsect : ∀ i w, (c.loc i).pc.inSection w = false := fun i w => by
    have hi := hun i
    cases hp : (c.loc i).pc with
    | attempt w d => exact absurd (advances_attempt hfree (.inl ⟨w, d, hp⟩)) (hno i (by rw [hp]; rfl))
    | push w d => exact absurd (advances_leaving (.inr (.inl ⟨w, d, hp⟩))) (hno i (by rw [hp]; rfl))
    | leaveOk w => exact absurd (advances_leaving (.inl ⟨w, hp⟩)) (hno i (by rw [hp]; rfl))
    | leaveErr slot d =>
      rw [hp] at hi
      cases d with
      | none => exact absurd (advances_leaving (.inr (.inr ⟨slot, hp⟩))) (hno i (by rw [hp]; rfl))
      | some d => cases hi
    | _ => rfl
  have hlocked : ∀ w, (c.shared.waiting w).locked = false := fun w => by
    by_contra hw
    obtain ⟨i, hi⟩ := sections h (Bool.eq_true_of_not_eq_false hw)
    rw [hsect i w] at hi
    cases hi
  -- every drop can go on, so whoever waits has its wake-up
  have hdrop : ∀ i w pending rest, (c.loc i).pc ≠ .didUnlock w pending rest :=
    fun i w pending rest hp => hno i (by rw [hp]; rfl) (advances_unlock hlocked hp)
  have hsignalled : ∀ i slot, (c.loc i).pc.waitsOn = some slot →
      c.shared.plat.Signalled (slot.wake i) = true := fun i slot hw => by
    by_contra hsig
    rcases guard_or_willSignal h hw (Bool.eq_false_of_not_eq_true hsig) with
      ⟨j, hj⟩ | ⟨j, w, pending, rest, hp, -⟩
    · rw [hnone j] at hj
      cases hj
    · exact hdrop j w pending rest hp
  obtain ⟨i, hi⟩ := hcall
  have hiun := hun i
  refine hno i hi ?_
  cases hp : (c.loc i).pc with
  | idle | failed | guard => rw [hp] at hi; cases hi
  | lockSpin d => exact advances_attempt hfree (.inr ⟨d, hp⟩)
  | enter w d => exact advances_enter (hlocked w) hp
  | attempt w d => exact advances_attempt hfree (.inl ⟨w, d, hp⟩)
  | push w d => exact advances_leaving (.inr (.inl ⟨w, d, hp⟩))
  | leaveOk w => exact advances_leaving (.inl ⟨w, hp⟩)
  | leaveErr slot d =>
    have hsec := hsect i slot.way
    rw [hp] at hsec
    simp [Pc.inSection] at hsec
  | park d =>
    rw [hp] at hiun
    cases d with
    | none => exact advances_wake (.inl ⟨hp, hsignalled i .thread (by rw [hp]; rfl)⟩)
    | some d => cases hiun
  | await n => exact advances_wake (.inr ⟨n, hp, hsignalled i (.cont n) (by rw [hp]; rfl)⟩)
  | didUnlock w pending rest => exact absurd hp (hdrop i w pending rest)
  | tryLock | lockSpinNow | lockNow | spawnTimer | race | raceTimeout => rw [hp] at hiun; cases hiun

end Mutex

end WasmSafeThread
