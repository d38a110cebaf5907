import WasmSafeThread.Condvar.Basic
import WasmSafeThread.Mutex.Exclusion

/-!
# The condition variable and the mutex

Everything a call on the condition variable does to the mutex is an operation of the mutex: a wait
drops the guard it was given and locks again, a park consumes a token, and a notification unparks
a thread.  So a run of the condition variable is, seen from the mutex, a run of the mutex
(`toMutex`), and the mutex is an atomic cell under the condition variable, too (`atomic_cell`).
-/

namespace WasmSafeThread

namespace Condvar

variable {ι R D : Type*} [DecidableEq ι] {i : ι} {a : Act R D} {b : Mutex.Act R D}
  {s s₁ : Shared ι R D} {l l₁ : Local ι R} {p : Pc ι}

theorem lift_eq_some (h : lift i b s l p = some (s₁, l₁)) :
    ∃ m lm, Mutex.step i b s.mx l.mx = some (m, lm) ∧ s₁ = { s with mx := m } ∧
      l₁ = { l with mx := lm, pc := p } := by
  simp only [lift, Option.map_eq_some_iff, Prod.mk.injEq] at h
  obtain ⟨⟨m, lm⟩, hm, rfl, rfl⟩ := h
  exact ⟨m, lm, hm, rfl, rfl⟩

/-- Seen from the mutex, a step is nothing, an operation of the agent, or an event of the
platform. -/
inductive MutexMove (i : ι) (a : Act R D) (s : Shared ι R D) (l : Local ι R) (s₁ : Shared ι R D)
    (l₁ : Local ι R) : Prop where
  | none (hs : s₁.mx = s.mx) (hl : l₁.mx = l.mx)
  | step (b : Mutex.Act R D) (hb : ∀ f, b = .access f → a = .access f)
      (h : Mutex.step i b s.mx l.mx = some (s₁.mx, l₁.mx))
  | plat (e : Event ι) (p : Platform ι) (he : s.mx.plat.apply e = some p)
      (hs : s₁.mx = s.mx.setPlat p) (hl : l₁.mx = l.mx)

theorem lift_mutex (h : lift i b s l p = some (s₁, l₁)) (hb : ∀ f, b = .access f → a = .access f) :
    MutexMove i a s l s₁ l₁ := by
  obtain ⟨m, lm, hm, rfl, rfl⟩ := lift_eq_some h
  exact .step b hb hm

theorem advance_mutex (hrest : l.mx.pc.atRest = true) (h : advance i s l = some (s₁, l₁)) :
    MutexMove i .step s l s₁ l₁ := by
  cases hp : l.pc with
  | ready => simp [advance, hp] at h
  | register | dropping | loadNow | loadNotified | parkNow | parkCheck | race | raceTimeout =>
    simp only [advance, hp] at h
    cases h
    exact .none rfl rfl
  | load | loadLeave | parkLeave | await | raceLeave =>
    simp only [advance, hp] at h
    split at h <;> cases h <;> exact .none rfl rfl
  | spawnTimer d r =>
    simp only [advance, hp] at h
    cases h
    exact .plat (.spawn d) _ rfl rfl rfl
  | drop z r =>
    simp only [advance, hp] at h
    exact lift_mutex h (by rintro _ ⟨⟩)
  | park deadline r =>
    simp only [advance, hp] at h
    split at h <;> cases h
    exact .step .consume (by rintro _ ⟨⟩) (by simp only [Mutex.step, if_pos hrest]; rfl)
  | relock w timedOut =>
    cases w <;> simp only [advance, hp] at h <;> exact lift_mutex h (by rintro _ ⟨⟩)
  | relocking timedOut =>
    simp only [advance, hp] at h
    split at h <;> cases h
    exact .none rfl rfl
  | notifyOne k =>
    simp only [advance, hp] at h
    split at h <;> cases h <;> exact .none rfl rfl
  | notifying k pending rest =>
    rcases pending with _ | ⟨e, pending⟩
    · rcases rest with _ | ⟨k', rest⟩ <;> simp only [advance, hp] at h <;> cases h <;>
        exact .none rfl rfl
    · simp only [advance, hp] at h
      cases h
      cases k with
      | sync => exact .plat (.wake (.unpark e.agent)) _ rfl rfl rfl
      | spin | async => exact .none rfl rfl

theorem step_mutex (h : step i a s l = some (s₁, l₁)) : MutexMove i a s l s₁ l₁ := by
  cases a with
  | lock | drop | consume =>
    simp only [step] at h
    split at h
    · exact lift_mutex h nofun
    · cases h
  | access f =>
    simp only [step] at h
    split at h
    · exact lift_mutex h fun g hg => by cases hg; rfl
    · cases h
  | wait | notifyOne | notifyAll =>
    simp only [step] at h
    split at h <;> cases h
    exact .none rfl rfl
  | step =>
    simp only [step] at h
    split at h
    · exact advance_mutex ‹_› h
    · exact lift_mutex h nofun
  | spurious | cancel =>
    simp only [step] at h
    split at h
    · split at h <;> cases h <;> exact .none rfl rfl
    · exact lift_mutex h nofun

theorem step_inner (h : step i a s l = some (s₁, l₁)) (ha : ∀ f, a ≠ .access f) :
    s₁.mx.inner = s.mx.inner := by
  rcases step_mutex h with ⟨hs, -⟩ | ⟨b, hb, hm⟩ | ⟨e, p, -, hs, -⟩
  · rw [hs]
  · cases Mutex.step_data hm with
    | access f hf => exact absurd (hb f hf) (ha f)
    | acquire _ _ _ _ hinner | drop _ _ _ hinner | other _ _ hinner => exact hinner
  · rw [hs]
    rfl

theorem step_inner_of_no_guard (h : step i a s l = some (s₁, l₁))
    (hguard : l.mx.pc.hasGuard = false) : s₁.mx.inner = s.mx.inner := by
  rcases step_mutex h with ⟨hs, -⟩ | ⟨b, -, hm⟩ | ⟨e, p, -, hs, -⟩
  · rw [hs]
  · cases Mutex.step_data hm with
    | access f _ hl => rw [hl] at hguard; cases hguard
    | acquire _ _ _ _ hinner | drop _ _ _ hinner | other _ _ hinner => exact hinner
  · rw [hs]
    rfl

/-- **The mutex under the condition variable.** -/
def toMutex : Projection (sys (ι := ι) (R := R) (D := D)) (Mutex.sys (ι := ι) (R := R) (D := D)) where
  shared s := s.mx
  loc l := l.mx
  step h := by
    rcases step_mutex h with ⟨hs, hl⟩ | ⟨b, -, hb⟩ | ⟨e, p, he, hs, hl⟩
    · exact .inl ⟨hs, hl⟩
    · exact .inr (.inl ⟨b, hb⟩)
    · exact .inr (.inr ⟨e, by simp [Mutex.sys, he, hs], hl⟩)
  env {e s s₁} h := by
    simp only [sys, Option.map_eq_some_iff] at h
    obtain ⟨p, hp, rfl⟩ := h
    exact .inr ⟨e, by simp [Mutex.sys, hp, Shared.setPlat]⟩

variable {plat : Platform ι} {value : D} {regs : ι → R}
  {c : Config ι (Shared ι R D) (Local ι R)}

theorem mutex_reachable (h : sys.Reachable (init plat value regs) c) :
    Mutex.sys.Reachable (Mutex.init plat value regs) (toMutex.config c) :=
  toMutex.reachable h

/-- **The mutex is an atomic cell**, under every mix of acquisitions, critical sections, waits and
notifications: `data_lock` is set exactly while one guard is live; at most one guard is live; an
operation of an agent without a guard that does not give it one (every operation of an attempt
that fails) changes neither the lock nor the value; and the value is the result of the critical
sections so far, executed one after another in the order of acquisition. -/
theorem atomic_cell (h : sys.Reachable (init plat value regs) c) :
    (c.shared.mx.dataLock = true ↔ ∃ i, (c.loc i).mx.pc.hasGuard = true) ∧
    (∀ i j, (c.loc i).mx.pc.hasGuard = true → (c.loc j).mx.pc.hasGuard = true → i = j) ∧
    (∀ i a s l, step i a c.shared (c.loc i) = some (s, l) →
      (c.loc i).mx.pc.hasGuard = false → l.mx.pc.hasGuard = false →
      s.mx.dataLock = c.shared.mx.dataLock ∧ s.mx.inner = c.shared.mx.inner ∧
        s.mx.log = c.shared.mx.log) ∧
    Mutex.Cell.run c.shared.mx.log (regs, value) =
      (fun i => (c.loc i).mx.reg, c.shared.mx.inner) := by
  have hmx := mutex_reachable h
  have howned := Mutex.owned hmx
  refine ⟨howned.iff, howned.unique, fun i a s l hs hl hl₁ => ?_, (Mutex.serial hmx).value⟩
  rcases step_mutex hs with ⟨hs, -⟩ | ⟨b, -, hb⟩ | ⟨e, p, -, hs, -⟩
  · rw [hs]
    exact ⟨rfl, rfl, rfl⟩
  · exact Mutex.step_frame hb hl hl₁
  · rw [hs]
    exact ⟨rfl, rfl, rfl⟩

/-- A run with two critical sections, the first of which ends in a wait. -/
theorem atomic_cell_wait :
    ∃ c : Config Bool (Shared Bool Unit ℕ) (Local Bool Unit),
      sys.Reachable (init (.new .native) 0 fun _ => ()) c ∧ c.shared.mx.inner = 10 ∧
      Mutex.Cell.run c.shared.mx.log (fun _ => (), 0) =
        (fun i => (c.loc i).mx.reg, c.shared.mx.inner) := by
  obtain ⟨c, hc, hend⟩ := System.exists_of_run (M := sys)
    (p := fun c => decide (c.shared.mx.inner = 10))
    (c := init (ι := Bool) (R := Unit) (.new .native) 0 fun _ => ())
    [.agent false (.lock .tryLock), .agent false .step,
      .agent false (.access fun x => (x.1, x.2 + 1)), .agent false (.wait .sync none),
      .agent false .step, .agent false .step, .agent false .step, .agent false .step,
      .agent false .step, .agent false .step,
      .agent true (.lock (.lockSpin none)), .agent true .step,
      .agent true (.access fun x => (x.1, x.2 * 10))] (by decide)
  rw [decide_eq_true_eq] at hend
  exact ⟨c, hc, hend, (atomic_cell hc).2.2.2⟩

end Condvar

end WasmSafeThread
