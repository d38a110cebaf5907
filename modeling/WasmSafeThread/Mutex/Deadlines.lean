import WasmSafeThread.Platform.Timers
import WasmSafeThread.Mutex.Basic

/-!
# Deadlines of acquisitions

`lock_spin_timeout` and `lock_block_timeout` compare the clock with the deadline before they give up.
`lock_async_timeout` does so at the top of its loop, but takes the word of its timer thread when the
race ends by the timeout.

* `PlatMove` : all that an operation does to the platform and to the handles in the lists.
* `Supplied` : the handles in the lists are threads, or senders that no timer has; so nobody but the
  timer thread sends on the continuation of a timer.
* `Pc.Timely` : where an acquisition can be, given the clock and the timers, and whether the sleep of
  its timer thread was cut short.
-/

namespace WasmSafeThread

namespace Mutex

variable {ι R D : Type*}

/-- The deadline of an acquisition. -/
def Op.deadline : Op → Option ℕ
  | .tryLock => none
  | .lockSpin deadline | .lockWait _ deadline => deadline

/-- The handles taken from a list and still to be signalled. -/
def Pc.pending : Pc ι → List (Wake ι)
  | .didUnlock _ pending _ => pending
  | _ => []

variable [DecidableEq ι] {i : ι} {a : Act R D} {s s₁ : Shared ι R D} {l l₁ : Local ι R}
  {c : Config ι (Shared ι R D) (Local ι R)}

/-! ### The platform under a mutex -/

/-- What an operation does to the platform, the lists and the handles that the agent carries. -/
inductive PlatMove (i : ι) (s : Shared ι R D) (l : Local ι R) (s₁ : Shared ι R D)
    (l₁ : Local ι R) : Prop where
  | quiet (hplat : s₁.plat = s.plat ∨ s₁.plat = s.plat.consume i ∨ ∃ d, s₁.plat = s.plat.spawn d)
      (hlist : ∀ w, (s₁.waiting w).data = (s.waiting w).data)
      (hpending : l₁.pc.pending = l.pc.pending ∨ l₁.pc.pending = [])
  | register (w : Way) (hplat : s₁.plat = s.plat.register w)
      (hlist : ∀ w' x, x ∈ (s₁.waiting w').data →
        x ∈ (s.waiting w').data ∨ x = (s.plat.slot w).wake i)
      (hpending : l₁.pc.pending = [])
  | take (w : Way) (hplat : s₁.plat = s.plat)
      (hlist : ∀ w' x, x ∈ (s₁.waiting w').data → x ∈ (s.waiting w').data)
      (hpending : l₁.pc.pending = (s.waiting w).data)
  | wake (x : Wake ι) (hplat : s₁.plat = s.plat.wake x)
      (hlist : ∀ w, (s₁.waiting w).data = (s.waiting w).data)
      (hpending : l.pc.pending = x :: l₁.pc.pending)

omit [DecidableEq ι] in
theorem again_pending (w : Way) (d : Option ℕ) : (again (ι := ι) w d).pending = [] := by
  cases d <;> rfl

omit [DecidableEq ι] in
theorem suspend_pending (slot : Slot) (d : Option ℕ) : (suspend (ι := ι) slot d).pending = [] := by
  cases slot <;> cases d <;> rfl

theorem advance_plat (h : advance i s l = some (s₁, l₁)) : PlatMove i s l s₁ l₁ := by
  cases hp : l.pc with
  | idle | failed | guard => simp [advance, hp] at h
  | tryLock | attempt =>
    simp only [advance, hp, Shared.tryLock] at h
    split at h <;> rename_i heq <;> cases h
    · split at heq <;> cases heq
      exact .quiet (.inl rfl) (fun _ => rfl) (.inr rfl)
    · exact .quiet (.inl rfl) (fun _ => rfl) (.inr rfl)
  | lockSpin deadline =>
    simp only [advance, hp] at h
    split at h <;> cases deadline <;> cases h <;>
      exact .quiet (.inl rfl) (fun _ => rfl) (.inr rfl)
  | lockSpinNow | lockNow | raceTimeout =>
    simp only [advance, hp] at h
    split at h <;> cases h <;> exact .quiet (.inl rfl) (fun _ => rfl) (.inr rfl)
  | enter w deadline =>
    simp only [advance, hp] at h
    split at h <;> cases h
    exact .quiet (.inl rfl) (fun w' => Shared.setLocked_data w w' true) (.inr rfl)
  | push w deadline =>
    simp only [advance, hp] at h
    cases h
    refine .register w rfl (fun w' x hx => ?_) rfl
    rcases Shared.mem_setList hx with hold | ⟨rfl, hnew⟩
    · exact .inl hold
    · exact (List.mem_append.1 hnew).imp_right List.mem_singleton.1
  | leaveOk w =>
    simp only [advance, hp] at h
    cases h
    exact .quiet (.inl rfl) (fun w' => Shared.setLocked_data w w' false) (.inr rfl)
  | leaveErr slot deadline =>
    simp only [advance, hp] at h
    cases h
    exact .quiet (.inl rfl) (fun w' => Shared.setLocked_data _ w' false) (.inr (suspend_pending slot deadline))
  | park deadline =>
    simp only [advance, hp] at h
    split at h <;> cases h
    exact .quiet (.inr (.inl rfl)) (fun _ => rfl) (.inr (again_pending _ _))
  | await t =>
    simp only [advance, hp] at h
    split at h <;> cases h
    exact .quiet (.inl rfl) (fun _ => rfl) (.inr rfl)
  | spawnTimer d t =>
    simp only [advance, hp] at h
    cases h
    exact .quiet (.inr (.inr ⟨d, rfl⟩)) (fun _ => rfl) (.inr rfl)
  | race d t =>
    simp only [advance, hp] at h
    split at h <;> cases h <;> exact .quiet (.inl rfl) (fun _ => rfl) (.inr rfl)
  | didUnlock w pending rest =>
    rcases pending with _ | ⟨x, pending⟩
    · rcases rest with _ | ⟨w', rest⟩ <;> simp only [advance, hp] at h
      · cases h
        exact .quiet (.inl rfl) (fun _ => rfl) (.inr rfl)
      · split at h <;> cases h
        refine .take w' rfl (fun w x hx => ?_) rfl
        rcases Shared.mem_setList hx with hold | ⟨-, hnew⟩
        · exact hold
        · cases hnew
    · simp only [advance, hp] at h
      cases h
      exact .wake x rfl (fun _ => rfl) (by rw [hp]; rfl)

omit [DecidableEq ι] in
theorem Op.start_pending (op : Op) : (op.start (ι := ι)).pending = [] := by
  rcases op with _ | d | ⟨w, _ | d⟩ <;> rfl

theorem step_plat (h : step i a s l = some (s₁, l₁)) : PlatMove i s l s₁ l₁ := by
  cases a with
  | step => exact advance_plat (by simpa [step] using h)
  | call op =>
    cases hp : l.pc <;> simp only [step, hp, reduceCtorEq] at h <;> cases h <;>
      exact .quiet (.inl rfl) (fun _ => rfl) (.inr op.start_pending)
  | spurious =>
    cases hp : l.pc <;> simp only [step, hp, reduceCtorEq] at h
    cases h
    exact .quiet (.inl rfl) (fun _ => rfl) (.inr (again_pending _ _))
  | cancel =>
    cases hp : l.pc <;> simp only [step, hp, reduceCtorEq] at h <;> cases h <;>
      exact .quiet (.inl rfl) (fun _ => rfl) (.inr rfl)
  | access f =>
    cases hp : l.pc <;> simp only [step, hp, reduceCtorEq] at h
    cases h
    exact .quiet (.inl rfl) (fun _ => rfl) (.inr rfl)
  | drop =>
    cases hp : l.pc <;> simp only [step, hp, reduceCtorEq] at h
    cases h
    exact .quiet (.inl rfl) (fun _ => rfl) (.inr rfl)
  | consume =>
    simp only [step] at h
    split at h <;> cases h
    exact .quiet (.inr (.inl rfl)) (fun _ => rfl) (.inl rfl)

theorem PlatMove.backend (m : PlatMove i s l s₁ l₁) : s₁.plat.backend = s.plat.backend := by
  cases m with
  | quiet hplat => rcases hplat with hp | hp | ⟨d, hp⟩ <;> rw [hp] <;> rfl
  | register w hplat => rw [hplat]; cases w <;> rfl
  | take w hplat => rw [hplat]
  | wake x hplat => rw [hplat]; cases x <;> rfl

/-- The platform is in order, and no handle in a list, or on its way from one, is a timer's. -/
structure Supplied (c : Config ι (Shared ι R D) (Local ι R)) : Prop where
  inOrder : c.shared.plat.InOrder
  listed : ∀ w, ∀ x ∈ (c.shared.waiting w).data, c.shared.plat.free x = true
  pending : ∀ j, ∀ x ∈ (c.loc j).pc.pending, c.shared.plat.free x = true

omit [DecidableEq ι] in
theorem free_register {p : Platform ι} (hp : p.InOrder) (w : Way) :
    (p.register w).free ((p.slot w).wake i) = true := by
  cases w with
  | sync => rfl
  | async =>
    exact decide_eq_true ⟨Nat.lt_succ_self p.conts, hp.timer_conts⟩

theorem Supplied.later (h : Supplied c) (m : PlatMove i c.shared (c.loc i) s₁ l₁) :
    c.shared.plat.Later none s₁.plat ∧ s₁.plat.InOrder := by
  cases m with
  | quiet hplat =>
    rcases hplat with hp | hp | ⟨d, hp⟩ <;> rw [hp]
    · exact ⟨.refl, h.inOrder⟩
    · exact ⟨.consume i, h.inOrder.consume i⟩
    · exact ⟨.spawn h.inOrder d, h.inOrder.spawn d⟩
  | register w hplat =>
    rw [hplat]
    exact ⟨.register w, h.inOrder.register w⟩
  | take w hplat =>
    rw [hplat]
    exact ⟨.refl, h.inOrder⟩
  | wake x hplat hlist hpending =>
    rw [hplat]
    refine ⟨.wake x, h.inOrder.wake (h.pending i x ?_)⟩
    rw [hpending]
    exact List.mem_cons_self

/-- A step keeps the handles that were no timer's, and adds only such. -/
theorem Supplied.step (h : Supplied c) (m : PlatMove i c.shared (c.loc i) s₁ l₁) :
    Supplied (c.set i s₁ l₁) := by
  obtain ⟨hlater, hord⟩ := h.later m
  have hlisted : ∀ w x, x ∈ (c.shared.waiting w).data → s₁.plat.free x = true :=
    fun w x hx => hlater.free x (h.listed w x hx)
  have hpending : ∀ j x, x ∈ (c.loc j).pc.pending → s₁.plat.free x = true :=
    fun j x hx => hlater.free x (h.pending j x hx)
  refine ⟨hord, fun w x hx => ?_, fun j x hx => ?_⟩
  · cases m with
    | quiet _ hlist | wake _ _ hlist => exact hlisted w x (hlist w ▸ hx)
    | take _ _ hlist => exact hlisted w x (hlist w x hx)
    | register w' hplat hlist =>
      rcases hlist w x hx with hold | rfl
      · exact hlisted w x hold
      · rw [Config.set_shared, hplat]
        exact free_register h.inOrder w'
  · by_cases hji : j = i
    · subst hji
      rw [Config.set_loc_self] at hx
      cases m with
      | quiet _ _ hp =>
        rcases hp with hp | hp <;> rw [hp] at hx
        · exact hpending j x hx
        · cases hx
      | register _ _ _ hp => rw [hp] at hx; cases hx
      | take w _ _ hp => exact hlisted w x (hp ▸ hx)
      | wake y _ _ hp => exact hpending j x (by rw [hp]; exact List.mem_cons_of_mem _ hx)
    · rw [Config.set_loc_of_ne hji] at hx
      exact hpending j x hx

theorem supplied {plat : Platform ι} {value : D} {regs : ι → R} (hplat : plat.InOrder)
    (h : sys.Reachable (init plat value regs) c) : Supplied c := by
  refine h.invariant (I := Supplied) ⟨hplat, fun _ => nofun, fun _ => nofun⟩
    (fun c i a s l _ ih _ hs => ih.step (step_plat hs)) fun c e s _ ih _ hs => ?_
  simp only [sys, Option.map_eq_some_iff] at hs
  obtain ⟨p, hp, rfl⟩ := hs
  have hlater := Platform.apply_later ih.inOrder hp
  exact ⟨ih.inOrder.apply hp, fun w x hx => hlater.free x (ih.listed w x hx),
    fun j x hx => hlater.free x (ih.pending j x hx)⟩

/-! ### Where an acquisition can be -/

/-- The timer whose word the agent would take. -/
def Pc.timer : Pc ι → Option ℕ
  | .race _ _ t | .raceTimeout _ _ t => some t
  | _ => none

/-- The agent is where acquisition `op` can be; an acquisition that has given up has done so at its
deadline or later, unless it is `lock_async_timeout` and the sleep of its timer was `cut` short. -/
def Pc.Timely (p : Platform ι) (cut : Bool) (op : Op) : Pc ι → Prop
  | .lockSpin deadline => op = .lockSpin deadline
  | .lockSpinNow deadline => op = .lockSpin (some deadline)
  | .lockNow w deadline => op = .lockWait w (some deadline)
  | .enter w deadline | .attempt w deadline | .push w deadline => op = .lockWait w deadline
  | .leaveErr slot deadline => op = .lockWait slot.way deadline
  | .park deadline => op = .lockWait .sync deadline
  | .await _ => op = .lockWait .async none
  | .spawnTimer deadline _ => op = .lockWait .async (some deadline)
  | .race deadline _ t | .raceTimeout deadline _ t =>
    op = .lockWait .async (some deadline) ∧ (cut = true ∨ p.Due t deadline)
  | .tryLock | .failed =>
    ∀ d, op.deadline = some d → op = .lockAsyncTimeout d ∧ cut = true ∨ d ≤ p.clock
  | .idle | .guard | .leaveOk _ | .didUnlock _ _ _ => True

variable {p p' : Platform ι} {cut cut' : Bool} {short : Option ℕ} {op : Op} {pc : Pc ι}

omit [DecidableEq ι] in
theorem Pc.Timely.later (h : pc.Timely p cut op) (hlater : p.Later short p')
    (hcut : cut = true → cut' = true) (hshort : ∀ t, short = some t → pc.timer = some t → cut' = true) :
    pc.Timely p' cut' op := by
  cases pc with
  | race d c t | raceTimeout d c t =>
    obtain ⟨hop, hdue⟩ := h
    refine ⟨hop, ?_⟩
    by_cases hs : short = some t
    · exact .inl (hshort t hs rfl)
    · exact hdue.imp hcut (hlater.due t d hs)
  | tryLock | failed =>
    exact fun d hd => (h d hd).imp (And.imp_right hcut) fun hle => hle.trans hlater.clock
  | _ => exact h

omit [DecidableEq ι] in
theorem Op.start_timely : op.start.Timely p cut op := by
  rcases op with _ | deadline | ⟨w, _ | deadline⟩ <;> first | rfl | exact fun _ => nofun

omit [DecidableEq ι] in
theorem suspend_timely {slot : Slot} {deadline : Option ℕ} (h : op = .lockWait slot.way deadline) :
    (suspend slot deadline).Timely p cut op := by
  cases slot <;> cases deadline <;> exact h

omit [DecidableEq ι] in
theorem again_timely {w : Way} {deadline : Option ℕ} (h : op = .lockWait w deadline) :
    (again w deadline).Timely p cut op := by
  cases deadline <;> exact h

/-- The top of the loop of a timed acquisition: whether it gives up does not depend on the timers that
it had so far. -/
theorem advance_timely_now {w : Way} {deadline : ℕ} (hpc : l.pc = .lockNow w deadline)
    (h : advance i s l = some (s₁, l₁)) (ht : l.pc.Timely s.plat cut op) :
    l₁.pc.Timely s₁.plat cut' op := by
  rw [hpc] at ht
  cases ht
  simp only [advance, hpc] at h
  split at h <;> rename_i hle <;> cases h
  · rintro d ⟨⟩
    exact .inr hle
  · rfl

theorem advance_timely (hp : s.plat.InOrder) (h : advance i s l = some (s₁, l₁))
    (ht : l.pc.Timely s.plat cut op) : l₁.pc.Timely s₁.plat cut op := by
  cases hpc : l.pc with
  | idle | failed | guard => simp [advance, hpc] at h
  | tryLock =>
    rw [hpc] at ht
    simp only [advance, hpc] at h
    split at h <;> cases h
    · trivial
    · exact ht
  | lockSpin deadline =>
    rw [hpc] at ht
    cases ht
    simp only [advance, hpc] at h
    split at h
    · cases deadline <;> cases h <;> rfl
    · cases h
      trivial
  | lockSpinNow deadline =>
    rw [hpc] at ht
    cases ht
    simp only [advance, hpc] at h
    split at h <;> rename_i hle <;> cases h
    · rintro d ⟨⟩
      exact .inr hle
    · rfl
  | lockNow w deadline => exact advance_timely_now hpc h ht
  | enter w deadline =>
    rw [hpc] at ht
    simp only [advance, hpc] at h
    split at h <;> cases h
    exact ht
  | attempt w deadline =>
    rw [hpc] at ht
    simp only [advance, hpc] at h
    split at h <;> cases h
    · trivial
    · exact ht
  | push w deadline =>
    rw [hpc] at ht
    cases ht
    simp only [advance, hpc] at h
    cases h
    cases w <;> rfl
  | leaveOk w =>
    simp only [advance, hpc] at h
    cases h
    trivial
  | leaveErr slot deadline =>
    rw [hpc] at ht
    simp only [advance, hpc] at h
    cases h
    exact suspend_timely ht
  | park deadline =>
    rw [hpc] at ht
    simp only [advance, hpc] at h
    split at h <;> cases h
    exact again_timely ht
  | await t =>
    rw [hpc] at ht
    simp only [advance, hpc] at h
    split at h <;> cases h
    exact again_timely ht
  | spawnTimer deadline t =>
    rw [hpc] at ht
    simp only [advance, hpc] at h
    cases h
    exact ⟨ht, .inr (by simp [Platform.Due, Shared.setPlat, Platform.spawn])⟩
  | race deadline t t' =>
    rw [hpc] at ht
    simp only [advance, hpc] at h
    split at h <;> cases h
    · exact again_timely ht.1
    · exact ht
  | raceTimeout deadline t t' =>
    rw [hpc] at ht
    obtain ⟨rfl, hdue⟩ := ht
    simp only [advance, hpc] at h
    split at h <;> rename_i hsent <;> cases h
    · rintro d ⟨⟩
      exact hdue.imp (fun hcut => ⟨rfl, hcut⟩) fun hdue => hdue.le_of_sent hp hsent
    · exact ⟨rfl, hdue⟩
  | didUnlock w pending rest =>
    rcases pending with _ | ⟨x, pending⟩
    · rcases rest with _ | ⟨w', rest⟩ <;> simp only [advance, hpc] at h
      · cases h
        trivial
      · split at h <;> cases h
        trivial
    · simp only [advance, hpc] at h
      cases h
      trivial

/-- An operation other than a call keeps the agent where its acquisition can be.  At the top of the
loop the sleeps that were cut short so far may be forgotten. -/
theorem step_timely (hp : s.plat.InOrder) (h : step i a s l = some (s₁, l₁))
    (ha : ∀ op, a ≠ .call op) (hlater : s.plat.Later none s₁.plat)
    (hcut : cut' = cut ∨ ∃ w d, l.pc = .lockNow w d) (ht : l.pc.Timely s.plat cut op) :
    l₁.pc.Timely s₁.plat cut' op := by
  rcases hcut with rfl | ⟨w, d, hpc⟩
  · cases a with
    | call op => exact absurd rfl (ha op)
    | step => exact advance_timely hp (by simpa [step] using h) ht
    | spurious =>
      cases hpc : l.pc <;> simp only [step, hpc, reduceCtorEq] at h
      rw [hpc] at ht
      cases h
      exact again_timely ht
    | cancel =>
      cases hpc : l.pc <;> simp only [step, hpc, reduceCtorEq] at h <;> cases h <;> trivial
    | access f =>
      cases hpc : l.pc <;> simp only [step, hpc, reduceCtorEq] at h
      cases h
      trivial
    | drop =>
      cases hpc : l.pc <;> simp only [step, hpc, reduceCtorEq] at h
      cases h
      trivial
    | consume =>
      simp only [step] at h
      split at h <;> cases h
      exact ht.later hlater id fun _ => nofun
  · cases a with
    | step => exact advance_timely_now hpc (by simpa [step] using h) ht
    | call op => exact absurd rfl (ha op)
    | spurious | cancel | access | drop => simp only [step, hpc, reduceCtorEq] at h
    | consume => simp [step, hpc, Pc.atRest] at h

end Mutex

end WasmSafeThread
