import WasmSafeThread.Agents.Owner
import WasmSafeThread.Mutex.Basic

/-!
# The mutex as an atomic cell

Acquisition uses two atomic protocols (`compare_exchange` in `try_lock`, `swap(true)` in the spin
paths) and release a plain `store(false)`.

* `DataMove` : all that an operation can do to `data_lock`, the protected value, the history and
  the agent's guard; `step_data` is the inversion lemma.
* `owner` : `data_lock` is a flag that the agents with a guard own.
* `Cell.run` : the abstract cell, on which whole critical sections run one after another.
* `Serial` : the protected value is what the sections so far, executed on the cell in the order
  of acquisition, give; `serial` proves it of every reachable configuration.
-/

namespace WasmSafeThread

namespace Mutex

variable {ι R D : Type*}

/-! ### What one operation can do -/

theorem Op.start_hasGuard (op : Op) : (op.start (ι := ι)).hasGuard = false := by
  rcases op with _ | d | ⟨w, _ | d⟩ <;> rfl

theorem again_hasGuard (w : Way) (d : Option ℕ) : (again (ι := ι) w d).hasGuard = false := by
  cases d <;> rfl

theorem suspend_hasGuard (slot : Slot) (d : Option ℕ) :
    (suspend (ι := ι) slot d).hasGuard = false := by
  cases slot <;> cases d <;> rfl

theorem tryLock_eq_some {s s₁ : Shared ι R D} {i : ι} :
    s.tryLock i = some s₁ ↔ s.dataLock = false ∧ s₁ = s.acquire i := by
  cases h : s.dataLock <;> simp [Shared.tryLock, h, eq_comm]

theorem tryLock_eq_none {s : Shared ι R D} {i : ι} :
    s.tryLock i = none ↔ s.dataLock = true := by
  cases h : s.dataLock <;> simp [Shared.tryLock, h]

variable [DecidableEq ι] {i : ι} {a : Act R D} {s s₁ : Shared ι R D} {l l₁ : Local ι R}

/-- What an operation does to the mutex proper. -/
inductive DataMove (i : ι) (a : Act R D) (s : Shared ι R D) (l : Local ι R) (s₁ : Shared ι R D)
    (l₁ : Local ι R) : Prop where
  | acquire (hfree : s.dataLock = false) (hl : l.pc.hasGuard = false)
      (hl₁ : l₁.pc.hasGuard = true) (hlock : s₁.dataLock = true) (hinner : s₁.inner = s.inner)
      (hlog : s₁.log = ⟨i, []⟩ :: s.log) (hreg : l₁.reg = l.reg)
  | drop (hl : l.pc = .guard) (hl₁ : l₁.pc.hasGuard = false) (hlock : s₁.dataLock = false)
      (hinner : s₁.inner = s.inner) (hlog : s₁.log = s.log) (hreg : l₁.reg = l.reg)
  | access (f : Access R D) (ha : a = .access f) (hl : l.pc = .guard) (hl₁ : l₁.pc = .guard)
      (hlock : s₁.dataLock = s.dataLock) (hr : (l₁.reg, s₁.inner) = f (l.reg, s.inner))
      (hlog : s₁.log = record i f s.log)
  | other (hl₁ : l₁.pc.hasGuard = l.pc.hasGuard) (hlock : s₁.dataLock = s.dataLock)
      (hinner : s₁.inner = s.inner) (hlog : s₁.log = s.log) (hreg : l₁.reg = l.reg)

theorem advance_data (h : advance i s l = some (s₁, l₁)) : DataMove i a s l s₁ l₁ := by
  cases hp : l.pc with
  | idle | failed | guard => simp [advance, hp] at h
  | tryLock | attempt =>
    simp only [advance, hp] at h
    split at h <;> cases h
    case h_1 heq =>
      obtain ⟨hfree, rfl⟩ := tryLock_eq_some.1 heq
      exact .acquire hfree (by rw [hp]; rfl) rfl rfl rfl rfl rfl
    case h_2 => exact .other (by rw [hp]; rfl) rfl rfl rfl rfl
  | lockSpin deadline =>
    simp only [advance, hp] at h
    by_cases hlock : s.dataLock = true
    · -- a swap that finds `true` leaves `true`
      rw [if_pos hlock] at h
      cases h
      exact .other (by rw [hp]; cases deadline <;> rfl) hlock.symm rfl rfl rfl
    · rw [if_neg hlock] at h
      cases h
      exact .acquire (by simpa using hlock) (by rw [hp]; rfl) rfl rfl rfl rfl rfl
  | push | leaveOk | spawnTimer =>
    simp only [advance, hp] at h
    cases h
    exact .other (by rw [hp]; rfl) rfl rfl rfl rfl
  | leaveErr slot deadline =>
    simp only [advance, hp] at h
    cases h
    exact .other (by rw [hp]; exact suspend_hasGuard slot deadline) rfl rfl rfl rfl
  | raceTimeout | lockNow | lockSpinNow =>
    simp only [advance, hp] at h
    cases h
    refine .other ?_ rfl rfl rfl rfl
    rw [hp, Local.goto_pc]
    split <;> rfl
  | race deadline =>
    simp only [advance, hp] at h
    cases h
    refine .other ?_ rfl rfl rfl rfl
    rw [hp, Local.goto_pc]
    split
    · exact again_hasGuard .async (some deadline)
    · rfl
  | enter =>
    simp only [advance, hp] at h
    split at h <;> cases h
    exact .other (by rw [hp]; rfl) rfl rfl rfl rfl
  | park deadline =>
    simp only [advance, hp] at h
    split at h <;> cases h
    exact .other (by rw [hp]; exact again_hasGuard .sync deadline) rfl rfl rfl rfl
  | await =>
    simp only [advance, hp] at h
    split at h <;> cases h
    exact .other (by rw [hp]; exact again_hasGuard .async none) rfl rfl rfl rfl
  | didUnlock w pending rest =>
    rcases pending with _ | ⟨x, pending⟩
    · rcases rest with _ | ⟨w', rest⟩ <;> simp only [advance, hp] at h
      · cases h
        exact .other (by rw [hp]; rfl) rfl rfl rfl rfl
      · split at h <;> cases h
        exact .other (by rw [hp]; rfl) rfl rfl rfl rfl
    · simp only [advance, hp] at h
      cases h
      exact .other (by rw [hp]; rfl) rfl rfl rfl rfl

theorem step_data (h : step i a s l = some (s₁, l₁)) : DataMove i a s l s₁ l₁ := by
  cases a with
  | step => exact advance_data (by simpa [step] using h)
  | call op =>
    cases hp : l.pc <;> simp only [step, hp, reduceCtorEq] at h <;> cases h <;>
      exact .other (by rw [hp]; exact op.start_hasGuard) rfl rfl rfl rfl
  | spurious =>
    cases hp : l.pc <;> simp only [step, hp, reduceCtorEq] at h
    cases h
    exact .other (by rw [hp]; exact again_hasGuard _ _) rfl rfl rfl rfl
  | cancel =>
    cases hp : l.pc <;> simp only [step, hp, reduceCtorEq] at h <;> cases h <;>
      exact .other (by rw [hp]; rfl) rfl rfl rfl rfl
  | access f =>
    cases hp : l.pc <;> simp only [step, hp, reduceCtorEq] at h
    cases h
    exact .access f rfl hp rfl rfl rfl rfl
  | drop =>
    cases hp : l.pc <;> simp only [step, hp, reduceCtorEq] at h
    cases h
    exact .drop hp rfl rfl rfl rfl rfl
  | consume =>
    simp only [step] at h
    split at h <;> cases h
    exact .other rfl rfl rfl rfl rfl

/-- Only a call starts an acquisition. -/
theorem step_quiet (h : step i a s l = some (s₁, l₁)) (ha : ∀ op, a ≠ .call op)
    (hl : l.pc.quiet = true) : l₁.pc.quiet = true := by
  cases a with
  | call op => exact absurd rfl (ha op)
  | step =>
    cases hp : l.pc with
    | didUnlock w pending rest =>
      rcases pending with _ | ⟨x, pending⟩
      · rcases rest with _ | ⟨w', rest⟩ <;> simp only [step, advance, hp] at h
        · cases h
          rfl
        · split at h <;> cases h
          rfl
      · simp only [step, advance, hp] at h
        cases h
        rfl
    | idle | failed => simp [step, advance, hp] at h
    | _ => rw [hp] at hl; cases hl
  | consume =>
    simp only [step] at h
    split at h <;> cases h
    exact hl
  | spurious | cancel | access | drop =>
    cases hp : l.pc <;> simp only [step, hp, reduceCtorEq] at h <;> cases h <;>
      first | rfl | (rw [hp] at hl; cases hl)

omit [DecidableEq ι] in
theorem Pc.hasGuard_of_quiet {p : Pc ι} (h : p.quiet = true) : p.hasGuard = false := by
  cases p <;> first | rfl | cases h

theorem env_data {e : Event ι} (h : (sys (ι := ι) (R := R) (D := D)).env e s = some s₁) :
    ∃ p, s.plat.apply e = some p ∧ s₁ = s.setPlat p := by
  simp only [sys, Option.map_eq_some_iff] at h
  obtain ⟨p, hp, rfl⟩ := h
  exact ⟨p, hp, rfl⟩

/-! ### Exclusion -/

/-- `data_lock` is owned by the agent with a guard. -/
theorem owner : Owner (sys (ι := ι) (R := R) (D := D)) (·.dataLock) (·.pc.hasGuard) where
  step h := by
    cases step_data h with
    | acquire hfree _ hl₁ hlock => exact .inr (.inl ⟨hfree, hlock, hl₁⟩)
    | drop hl hl₁ hlock => exact .inr (.inr ⟨by rw [hl]; rfl, hlock, hl₁⟩)
    | access f _ hl hl₁ hlock => exact .inl ⟨hlock, by rw [hl, hl₁]⟩
    | other hl₁ hlock => exact .inl ⟨hlock, hl₁⟩
  env h := by
    obtain ⟨p, -, rfl⟩ := env_data h
    rfl

variable {plat : Platform ι} {value : D} {regs : ι → R}
  {c : Config ι (Shared ι R D) (Local ι R)}

theorem owned (h : sys.Reachable (init plat value regs) c) :
    Owned (·.dataLock) (·.pc.hasGuard) c :=
  owner.inv h (.init rfl fun _ => rfl)

/-! ### The atomic cell -/

/-- The abstract cell: the registers of the agents and one value. -/
abbrev Cell (ι R D : Type*) := (ι → R) × D

namespace Cell

/-- One access of agent `i`. -/
def access (i : ι) (f : Access R D) (x : Cell ι R D) : Cell ι R D :=
  let r := f (x.1 i, x.2)
  (Function.update x.1 i r.1, r.2)

/-- A whole critical section, without anything in between. -/
def exec (x : Cell ι R D) (z : Section ι R D) : Cell ι R D :=
  z.accesses.foldl (fun y f => y.access z.agent f) x

/-- The critical sections of a history, oldest first. -/
def run (log : List (Section ι R D)) (x : Cell ι R D) : Cell ι R D :=
  log.foldr (fun z y => y.exec z) x

theorem run_acquire (log : List (Section ι R D)) (x : Cell ι R D) :
    run (⟨i, []⟩ :: log) x = run log x := rfl

theorem run_record {log older : List (Section ι R D)} {fs : List (Access R D)}
    (h : log = ⟨i, fs⟩ :: older) (f : Access R D) (x : Cell ι R D) :
    run (record i f log) x = (run log x).access i f := by
  subst h
  simp [run, record, exec]

end Cell

/-- The configuration `c` is what the cell gives from `x` for the history of `c`, and the newest
section is the one of the agent with the guard. -/
structure Serial (x : Cell ι R D) (c : Config ι (Shared ι R D) (Local ι R)) : Prop where
  newest : ∀ i, (c.loc i).pc.hasGuard = true → ∃ fs older, c.shared.log = ⟨i, fs⟩ :: older
  value : Cell.run c.shared.log x = (fun i => (c.loc i).reg, c.shared.inner)

namespace Serial

variable {x : Cell ι R D}

theorem init : Serial (regs, value) (init plat value regs) where
  newest i h := by cases h
  value := rfl

theorem set_regs (h : l₁.reg = (c.loc i).reg) :
    (fun j => ((c.set i s₁ l₁).loc j).reg) = fun j => (c.loc j).reg := by
  funext j
  exact Config.set_loc_congr h j

/-- Every operation of every agent keeps the value serial. -/
theorem step (hO : Owned (·.dataLock) (·.pc.hasGuard) c) (h : Serial x c)
    (hs : step i a c.shared (c.loc i) = some (s₁, l₁)) : Serial x (c.set i s₁ l₁) := by
  have hothers : ∀ {j}, j ≠ i → (c.set i s₁ l₁).loc j = c.loc j := Config.set_loc_of_ne
  cases step_data hs with
  | acquire hfree hl hl₁ hlock hinner hlog hreg =>
    refine ⟨fun j hj => ?_, ?_⟩
    · by_cases hji : j = i
      · subst hji
        exact ⟨[], c.shared.log, hlog⟩
      · -- the lock was free, so nobody else has a guard
        rw [hothers hji, hO.not_holds hfree j] at hj
        cases hj
    · rw [Config.set_shared, hlog, Cell.run_acquire, h.value, set_regs hreg, hinner]
  | drop hl hl₁ hlock hinner hlog hreg =>
    refine ⟨fun j hj => ?_, ?_⟩
    · by_cases hji : j = i
      · subst hji
        rw [Config.set_loc_self, hl₁] at hj
        cases hj
      · rw [hothers hji] at hj
        rw [Config.set_shared, hlog]
        exact h.newest j hj
    · rw [Config.set_shared, hlog, h.value, set_regs hreg, hinner]
  | access f _ hl hl₁ hlock hr hlog =>
    obtain ⟨fs, older, hnewest⟩ := h.newest i (by rw [hl]; rfl)
    refine ⟨fun j hj => ?_, ?_⟩
    · have hji : j = i := by
        by_contra hji
        rw [hothers hji] at hj
        exact hji (hO.unique j i hj (by rw [hl]; rfl))
      subst hji
      exact ⟨fs ++ [f], older, by rw [Config.set_shared, hlog, hnewest]; simp [record]⟩
    · rw [Config.set_shared, hlog, Cell.run_record hnewest, h.value]
      simp only [Cell.access, ← hr, Prod.mk.injEq, and_true]
      funext j
      by_cases hji : j = i
      · subst hji; simp
      · simp [hji, hothers hji]
  | other hl₁ hlock hinner hlog hreg =>
    refine ⟨fun j hj => ?_, ?_⟩
    · rw [Config.set_shared, hlog]
      by_cases hji : j = i
      · subst hji
        exact h.newest j (by rwa [Config.set_loc_self, hl₁] at hj)
      · exact h.newest j (by rwa [hothers hji] at hj)
    · rw [Config.set_shared, hlog, h.value, set_regs hreg, hinner]

end Serial

/-- **The mutex is an atomic cell.**  In every reachable configuration the protected value and
the registers are those of the cell after the critical sections so far. -/
theorem serial (h : sys.Reachable (init plat value regs) c) : Serial (regs, value) c := by
  refine h.invariant .init (fun c i a s l hc ih _ hs => ih.step (owned hc) hs) ?_
  intro c e s _ ih _ hs
  obtain ⟨p, -, rfl⟩ := env_data hs
  exact ⟨ih.newest, ih.value⟩

/-- An operation of an agent that has no guard before and none after, as every operation of an
attempt that fails, changes neither the lock nor the value nor the history. -/
theorem step_frame (h : step i a s l = some (s₁, l₁)) (hl : l.pc.hasGuard = false)
    (hl₁ : l₁.pc.hasGuard = false) :
    s₁.dataLock = s.dataLock ∧ s₁.inner = s.inner ∧ s₁.log = s.log := by
  cases step_data h with
  | acquire _ _ hl₁' => rw [hl₁] at hl₁'; cases hl₁'
  | drop hl' => rw [hl'] at hl; cases hl
  | access f _ hl' => rw [hl'] at hl; cases hl
  | other _ hlock hinner hlog => exact ⟨hlock, hinner, hlog⟩

end Mutex

end WasmSafeThread
