import WasmSafeThread.Condvar.Exclusion

/-!
# Registrations

Who is registered in the waiting lists of a condition variable.

* `Shape` : when a call on the condition variable and one on the mutex can be in progress
  together.
* `ListMove` : all that a step can do to the lists, the flags, the wait of the agent and the entries
  it carries; `step_list` is the inversion lemma.
* `Registered` : the numbers of the waits are unique, an entry is in one place, and a wait whose
  flag is set has no entry in a list.
-/

namespace WasmSafeThread

namespace Condvar

variable {ι R D : Type*} [DecidableEq ι] {i : ι} {a : Act R D} {b : Mutex.Act R D}
  {s s₁ : Shared ι R D} {l l₁ : Local ι R} {p : Pc ι}
  {c : Config ι (Shared ι R D) (Local ι R)}

/-! ### The two frames of a call -/

/-- The frames of an agent fit.  A wait has its guard up to `drop(guard)` and none from then on to
its relock; but for that drop and the relock, the mutex is at rest under a call. -/
def Local.Shape (l : Local ι R) : Prop :=
  match l.pc with
  | .ready | .relocking _ => True
  | .register _ _ | .spawnTimer _ _ | .drop _ _ => l.mx.pc = .guard
  | .dropping _ _ => l.mx.pc.quiet = true
  | .notifyOne _ | .notifying _ _ _ => l.mx.pc.atRest = true
  | _ => l.mx.pc.atRest = true ∧ l.mx.pc.quiet = true

omit [DecidableEq ι] in
theorem Local.atRest_iff : l.atRest = true ↔ l.mx.pc.atRest = true ∧ l.pc = .ready := by
  cases hp : l.pc <;> simp [Local.atRest, hp]

omit [DecidableEq ι] in
theorem Local.Shape.busy (hl : l.Shape) (hrest : l.mx.pc.atRest ≠ true) :
    l.pc = .ready ∨ (∃ z r, l.pc = .dropping z r ∧ l.mx.pc.quiet = true) ∨
      ∃ timedOut, l.pc = .relocking timedOut := by
  cases hp : l.pc <;> simp_all [Local.Shape, Mutex.Pc.atRest]

theorem lift_shape (h : lift i b s l p = some (s₁, l₁)) (hb : b = .step ∨ b = .spurious)
    (hp : p = .ready ∨ (∃ z r, p = .dropping z r ∧ l.mx.pc.quiet = true) ∨
      ∃ timedOut, p = .relocking timedOut) : l₁.Shape := by
  obtain ⟨m, lm, hm, -, rfl⟩ := lift_eq_some h
  rcases hp with rfl | ⟨z, r, rfl, hquiet⟩ | ⟨timedOut, rfl⟩
  · trivial
  · exact Mutex.step_quiet hm (by rcases hb with rfl | rfl <;> exact nofun) hquiet
  · trivial

theorem advance_shape (hl : l.Shape) (hrest : l.mx.pc.atRest = true)
    (h : advance i s l = some (s₁, l₁)) : l₁.Shape := by
  cases hp : l.pc with
  | ready => simp [advance, hp] at h
  | register k deadline =>
    simp only [advance, hp] at h
    cases h
    simp only [Local.Shape, hp] at hl
    cases k <;> cases deadline <;> exact hl
  | spawnTimer =>
    simp only [advance, hp] at h
    cases h
    simp only [Local.Shape, hp] at hl
    exact hl
  | drop z r =>
    simp only [advance, hp] at h
    simp only [Local.Shape, hp] at hl
    obtain ⟨m, lm, hm, -, rfl⟩ := lift_eq_some h
    simp only [Mutex.step, hl, Option.some.injEq, Prod.mk.injEq] at hm
    obtain ⟨-, rfl⟩ := hm
    rfl
  | dropping z r =>
    simp only [advance, hp] at h
    cases h
    simp only [Local.Shape, hp] at hl
    rcases z with _ | (_ | _) | _ | _ <;> exact ⟨hrest, hl⟩
  | loadNow | loadLeave | loadNotified | parkNow | parkCheck | parkLeave | await | race | raceTimeout
    | raceLeave =>
    simp only [advance, hp] at h
    simp only [Local.Shape, hp] at hl
    split at h <;> cases h <;> exact hl
  | load deadline | park deadline =>
    simp only [advance, hp] at h
    simp only [Local.Shape, hp] at hl
    split at h <;> cases deadline <;> cases h <;> exact hl
  | relock w timedOut =>
    cases w <;> simp only [advance, hp] at h <;> obtain ⟨m, lm, -, -, rfl⟩ := lift_eq_some h <;>
      trivial
  | relocking timedOut =>
    simp only [advance, hp] at h
    split at h <;> cases h
    trivial
  | notifyOne k =>
    simp only [advance, hp] at h
    split at h <;> cases h
    · exact hrest
    · cases k <;> exact hrest
  | notifying k pending rest =>
    rcases pending with _ | ⟨e, pending⟩
    · rcases rest with _ | ⟨k', rest⟩ <;> simp only [advance, hp] at h <;> cases h
      · trivial
      · exact hrest
    · simp only [advance, hp] at h
      cases h
      exact hrest

theorem step_shape (hl : l.Shape) (h : step i a s l = some (s₁, l₁)) : l₁.Shape := by
  cases a with
  | lock | access | drop | consume =>
    simp only [step] at h
    split at h
    · obtain ⟨m, lm, -, -, rfl⟩ := lift_eq_some h
      trivial
    · cases h
  | wait k deadline =>
    simp only [step, Bool.and_eq_true] at h
    split at h <;> cases h
    rename_i hrest
    have hmx := (Local.atRest_iff.1 hrest.1).1
    cases hq : l.mx.pc <;> simp_all [Local.Shape, Mutex.Pc.atRest, Mutex.Pc.hasGuard]
  | notifyOne | notifyAll =>
    simp only [step] at h
    split at h <;> cases h
    rename_i hrest
    exact (Local.atRest_iff.1 hrest).1
  | step =>
    simp only [step] at h
    split at h
    · exact advance_shape hl ‹_› h
    · exact lift_shape h (.inl rfl) (hl.busy ‹_›)
  | spurious =>
    simp only [step] at h
    split at h
    · split at h <;> cases h <;> rename_i hp <;> simp only [Local.Shape, hp] at hl <;> exact hl
    · exact lift_shape h (.inr rfl) (hl.busy ‹_›)
  | cancel =>
    simp only [step] at h
    split at h
    · split at h <;> cases h <;> trivial
    · obtain ⟨m, lm, -, -, rfl⟩ := lift_eq_some h
      trivial

theorem shape {plat : Platform ι} {value : D} {regs : ι → R}
    (h : sys.Reachable (init plat value regs) c) (i : ι) : (c.loc i).Shape := by
  revert i
  refine h.invariant (I := fun c => ∀ i, (c.loc i).Shape) (fun i => trivial) ?_ ?_
  · intro c i a s l _ ih _ hs j
    by_cases hj : j = i
    · subst hj
      rw [Config.set_loc_self]
      exact step_shape (ih j) hs
    · rw [Config.set_loc_of_ne hj]
      exact ih j
  · intro c e s _ ih _ _
    exact ih

/-- The agent is in a wait. -/
def Pc.inWait : Pc ι → Bool
  | .ready | .notifyOne _ | .notifying _ _ _ => false
  | _ => true

/-- A wait goes on, or returns with the guard. -/
theorem advance_inWait (hw : l.pc.inWait = true) (h : advance i s l = some (s₁, l₁)) :
    l₁.pc.inWait = true ∨ l₁.pc = .ready ∧ l₁.mx.pc = .guard := by
  cases hp : l.pc with
  | ready | notifyOne | notifying => rw [hp] at hw; cases hw
  | register k deadline =>
    simp only [advance, hp] at h
    cases h
    exact .inl (by cases k <;> cases deadline <;> rfl)
  | drop z r =>
    simp only [advance, hp] at h
    obtain ⟨m, lm, -, -, rfl⟩ := lift_eq_some h
    exact .inl rfl
  | relock w timedOut =>
    cases w <;> simp only [advance, hp] at h <;> obtain ⟨m, lm, -, -, rfl⟩ := lift_eq_some h <;>
      exact .inl rfl
  | relocking timedOut =>
    simp only [advance, hp] at h
    split at h <;> cases h
    exact .inr ⟨rfl, ‹_›⟩
  | dropping z r =>
    simp only [advance, hp] at h
    cases h
    rcases z with _ | (_ | _) | _ | _ <;> exact .inl rfl
  | spawnTimer =>
    simp only [advance, hp] at h
    cases h
    exact .inl rfl
  | load deadline | park deadline =>
    simp only [advance, hp] at h
    split at h <;> cases deadline <;> cases h <;> exact .inl rfl
  | loadNow | loadLeave | loadNotified | parkNow | parkCheck | parkLeave | await | race
    | raceTimeout | raceLeave =>
    simp only [advance, hp] at h
    split at h <;> cases h <;> exact .inl rfl

theorem advance_notify (hw : l.pc.inWait = false) (h : advance i s l = some (s₁, l₁)) :
    l₁.pc.inWait = false ∧ l₁.mx = l.mx := by
  cases hp : l.pc with
  | ready => simp [advance, hp] at h
  | notifyOne k =>
    simp only [advance, hp] at h
    split at h <;> cases h
    · exact ⟨rfl, rfl⟩
    · cases k <;> exact ⟨rfl, rfl⟩
  | notifying k pending rest =>
    rcases pending with _ | ⟨e, pending⟩
    · rcases rest with _ | ⟨k', rest⟩ <;> simp only [advance, hp] at h <;> cases h <;>
        exact ⟨rfl, rfl⟩
    · simp only [advance, hp] at h
      cases h
      exact ⟨rfl, rfl⟩
  | _ => rw [hp] at hw; cases hw

theorem step_goes_on (ha : a = .step ∧ l.atRest = false ∨ a = .spurious)
    (h : step i a s l = some (s₁, l₁)) :
    (l₁.pc = l.pc ∧ l.mx.pc.atRest = false ∧
      ∃ b, (b = .step ∨ b = .spurious) ∧ Mutex.step i b s.mx l.mx = some (s₁.mx, l₁.mx)) ∨
    (l.mx.pc.atRest = true ∧ l.pc ≠ .ready ∧
      (a = .step ∧ advance i s l = some (s₁, l₁) ∨
        l.pc.inWait = true ∧ l₁.pc.inWait = true ∧ l₁.mx = l.mx)) := by
  rcases ha with ⟨rfl, hbusy⟩ | rfl <;> simp only [step] at h <;> split at h
  · rename_i hrest
    refine .inr ⟨hrest, fun hp => ?_, .inl ⟨rfl, h⟩⟩
    rw [Local.atRest_iff.2 ⟨hrest, hp⟩] at hbusy
    cases hbusy
  · obtain ⟨m, lm, hm, rfl, rfl⟩ := lift_eq_some h
    exact .inl ⟨rfl, Bool.eq_false_of_not_eq_true ‹_›, .step, .inl rfl, hm⟩
  · split at h <;> cases h <;> rename_i hp <;>
      exact .inr ⟨‹_›, by rw [hp]; rintro ⟨⟩, .inr ⟨by rw [hp]; rfl, rfl, rfl⟩⟩
  · obtain ⟨m, lm, hm, rfl, rfl⟩ := lift_eq_some h
    exact .inl ⟨rfl, Bool.eq_false_of_not_eq_true ‹_›, .spurious, .inr rfl, hm⟩

theorem not_goes_on (hrest : l.atRest = true) (ha : a = .step ∧ l.atRest = false ∨ a = .spurious) :
    step i a s l ≠ some (s₁, l₁) := by
  intro h
  obtain ⟨hmx, hpc⟩ := Local.atRest_iff.1 hrest
  rcases step_goes_on ha h with ⟨-, hbusy, -⟩ | ⟨-, hne, -⟩
  · rw [hmx] at hbusy
    cases hbusy
  · exact hne hpc

theorem step_cancel (hl : l.Shape) (h : step i .cancel s l = some (s₁, l₁)) :
    l₁.pc = .ready ∧ l₁.mx.pc.atRest = true ∧ l₁.mx.pc.quiet = true := by
  simp only [step] at h
  split at h
  · split at h <;> cases h <;> rename_i hp <;> simp only [Local.Shape, hp] at hl <;> exact ⟨rfl, hl⟩
  · obtain ⟨m, lm, hm, rfl, rfl⟩ := lift_eq_some h
    cases hq : l.mx.pc <;> simp only [Mutex.step, hq, reduceCtorEq] at hm <;> cases hm <;>
      exact ⟨rfl, rfl, rfl⟩

/-! ### What one step can do to the lists -/

/-- The entries a notification has taken and not signalled yet, with their lists. -/
def Pc.carries : Pc ι → List (Kind × Entry ι)
  | .notifying k pending _ => pending.map fun e => (k, e)
  | _ => []

/-- The wait that an operation abandons, if it does: the exits of a wait that do not look whether
the wait was notified, namely the return of the park of `wait_block`, and the drop of the pending
future of `wait_async` or `wait_async_timeout`. -/
def abandons (a : Act R D) (p : Pc ι) : Option (Kind × ℕ) :=
  match a, p with
  | .step, .park none r | .spurious, .park none r => some (.sync, r)
  | .cancel, .await r | .cancel, .race r _ => some (.async, r)
  | _, _ => none

/-- What a step does to the lists, to the wait of the agent, and to the entries it carries. -/
inductive ListMove (i : ι) (a : Act R D) (s : Shared ι R D) (l : Local ι R) (s₁ : Shared ι R D)
    (l₁ : Local ι R) : Prop where
  /-- Nothing. -/
  | quiet (hlist : s₁.waiting = s.waiting) (hflags : s₁.flags = s.flags) (hregs : s₁.regs = s.regs)
      (hwait : l₁.pc.waitsOn = l.pc.waitsOn) (hcarry : l₁.pc.carries = l.pc.carries)
  /-- A wait pushes its entry. -/
  | push (k : Kind) (deadline : Option ℕ) (hpc : l.pc = .register k deadline)
      (hs : s₁ = s.push k i) (hl : l₁ = l.goto (registered s.regs k deadline))
  /-- A wait ends and leaves the lists alone. -/
  | finish (k : Kind) (r : ℕ) (hwait : l.pc.waitsOn = some (k, r)) (hwait₁ : l₁.pc.waitsOn = none)
      (hcarry : l₁.pc.carries = []) (hlist : s₁.waiting = s.waiting) (hflags : s₁.flags = s.flags)
      (hregs : s₁.regs = s.regs)
      (why : s.flags r = true ∨ ⟨r, i⟩ ∉ s.waiting k ∨ abandons a l.pc = some (k, r))
  /-- A timed wait ends and removes its entry, found by its number. -/
  | leave (k : Kind) (r : ℕ) (hwait : l.pc.waitsOn = some (k, r)) (hwait₁ : l₁.pc.waitsOn = none)
      (hcarry : l₁.pc.carries = [])
      (hlist : s₁.waiting = Function.update s.waiting k ((s.waiting k).eraseP fun e => e.reg = r))
      (hflags : s₁.flags = s.flags ∨ s₁.flags = Function.update s.flags r true)
      (hregs : s₁.regs = s.regs) (hmem : ∃ e ∈ s.waiting k, e.reg = r)
  /-- A `wait_block_timeout` ends and removes the first entry of its thread. -/
  | leaveThread (r : ℕ) (hwait : l.pc.waitsOn = some (.sync, r)) (hwait₁ : l₁.pc.waitsOn = none)
      (hcarry : l₁.pc.carries = [])
      (hlist : s₁.waiting =
        Function.update s.waiting .sync ((s.waiting .sync).eraseP fun e => e.agent = i))
      (hflags : s₁.flags = s.flags) (hregs : s₁.regs = s.regs)
  /-- `notify_one` takes the newest entry of a list. -/
  | pop (k : Kind) (e : Entry ι) (hpc : l.pc = .notifyOne k) (he : (s.waiting k).getLast? = some e)
      (hs : s₁ = s.setList k (s.waiting k).dropLast) (hl : l₁ = l.goto (.notifying k [e] []))
  /-- `notify_all` takes a list. -/
  | take (k k' : Kind) (rest : List Kind) (hpc : l.pc = .notifying k' [] (k :: rest))
      (hs : s₁ = s.setList k []) (hl : l₁ = l.goto (.notifying k (s.waiting k) rest))
  /-- An entry is signalled. -/
  | signal (k : Kind) (e : Entry ι) (pending : List (Entry ι)) (rest : List Kind)
      (hpc : l.pc = .notifying k (e :: pending) rest) (hs : s₁ = signal s k e)
      (hl : l₁ = l.goto (.notifying k pending rest))

theorem lift_list (h : lift i b s l p = some (s₁, l₁)) (hwait : p.waitsOn = l.pc.waitsOn)
    (hcarry : p.carries = l.pc.carries) : ListMove i a s l s₁ l₁ := by
  obtain ⟨m, lm, -, rfl, rfl⟩ := lift_eq_some h
  exact .quiet rfl rfl rfl hwait hcarry

theorem advance_list (h : advance i s l = some (s₁, l₁)) : ListMove i .step s l s₁ l₁ := by
  cases hp : l.pc with
  | ready => simp [advance, hp] at h
  | register k deadline =>
    simp only [advance, hp] at h
    cases h
    exact .push k deadline hp rfl rfl
  | spawnTimer d r =>
    simp only [advance, hp] at h
    cases h
    exact .quiet rfl rfl rfl (by rw [hp]; rfl) (by rw [hp]; rfl)
  | drop z r =>
    simp only [advance, hp] at h
    exact lift_list h (by rw [hp]; rfl) (by rw [hp]; rfl)
  | dropping z r =>
    simp only [advance, hp] at h
    cases h
    rcases z with _ | (_ | _) | _ | _ <;>
      exact .quiet rfl rfl rfl (by rw [hp]; rfl) (by rw [hp]; rfl)
  | load deadline r =>
    simp only [advance, hp] at h
    split at h <;> cases h
    · exact .finish .spin r (by rw [hp]; rfl) rfl rfl rfl rfl rfl (.inl ‹_›)
    · cases deadline <;> exact .quiet rfl rfl rfl (by rw [hp]; rfl) (by rw [hp]; rfl)
  | loadNow d r =>
    simp only [advance, hp] at h
    split at h <;> cases h <;> exact .quiet rfl rfl rfl (by rw [hp]; rfl) (by rw [hp]; rfl)
  | loadLeave r =>
    simp only [advance, hp] at h
    split at h <;> cases h
    · rename_i hany
      exact .leave .spin r (by rw [hp]; rfl) rfl rfl rfl (.inl rfl) rfl (by simpa using hany)
    · exact .quiet rfl rfl rfl (by rw [hp]; rfl) (by rw [hp]; rfl)
  | loadNotified r =>
    simp only [advance, hp] at h
    split at h <;> cases h
    · exact .finish .spin r (by rw [hp]; rfl) rfl rfl rfl rfl rfl (.inl ‹_›)
    · exact .quiet rfl rfl rfl (by rw [hp]; rfl) (by rw [hp]; rfl)
  | parkNow d r =>
    simp only [advance, hp] at h
    split at h <;> cases h <;> exact .quiet rfl rfl rfl (by rw [hp]; rfl) (by rw [hp]; rfl)
  | park deadline r =>
    simp only [advance, hp] at h
    split at h
    · cases deadline <;> cases h
      · exact .finish .sync r (by rw [hp]; rfl) rfl rfl rfl rfl rfl
          (.inr (.inr (by rw [hp]; rfl)))
      · exact .quiet rfl rfl rfl (by rw [hp]; rfl) (by rw [hp]; rfl)
    · cases h
  | parkCheck d r =>
    simp only [advance, hp] at h
    split at h <;> cases h
    · exact .quiet rfl rfl rfl (by rw [hp]; rfl) (by rw [hp]; rfl)
    · rename_i hany
      -- no entry is left: a notifier has taken it
      refine .finish .sync r (by rw [hp]; rfl) rfl rfl rfl rfl rfl (.inr (.inl fun hmem => ?_))
      exact hany (List.any_eq_true.2 ⟨_, hmem, by simp⟩)
  | parkLeave r =>
    simp only [advance, hp] at h
    split at h <;> cases h
    · exact .leaveThread r (by rw [hp]; rfl) rfl rfl rfl rfl rfl
    · rename_i hany
      refine .finish .sync r (by rw [hp]; rfl) rfl rfl rfl rfl rfl (.inr (.inl fun hmem => ?_))
      exact hany (List.any_eq_true.2 ⟨_, hmem, by simp⟩)
  | await r =>
    simp only [advance, hp] at h
    split at h <;> cases h
    exact .finish .async r (by rw [hp]; rfl) rfl rfl rfl rfl rfl (.inl ‹_›)
  | race r t =>
    simp only [advance, hp] at h
    split at h <;> cases h
    · exact .finish .async r (by rw [hp]; rfl) rfl rfl rfl rfl rfl (.inl ‹_›)
    · exact .quiet rfl rfl rfl (by rw [hp]; rfl) (by rw [hp]; rfl)
  | raceTimeout r t =>
    simp only [advance, hp] at h
    split at h <;> cases h <;> exact .quiet rfl rfl rfl (by rw [hp]; rfl) (by rw [hp]; rfl)
  | raceLeave r =>
    simp only [advance, hp] at h
    split at h <;> cases h
    · rename_i hany
      exact .leave .async r (by rw [hp]; rfl) rfl rfl rfl (.inr rfl) rfl (by simpa using hany)
    · rename_i hany
      refine .finish .async r (by rw [hp]; rfl) rfl rfl rfl rfl rfl (.inr (.inl fun hmem => ?_))
      exact hany (List.any_eq_true.2 ⟨_, hmem, by simp⟩)
  | relock w timedOut =>
    cases w <;> simp only [advance, hp] at h <;>
      exact lift_list h (by rw [hp]; rfl) (by rw [hp]; rfl)
  | relocking timedOut =>
    simp only [advance, hp] at h
    split at h <;> cases h
    exact .quiet rfl rfl rfl (by rw [hp]; rfl) (by rw [hp]; rfl)
  | notifyOne k =>
    simp only [advance, hp] at h
    split at h <;> cases h
    · exact .pop k _ hp ‹_› rfl rfl
    · cases k <;> exact .quiet rfl rfl rfl (by rw [hp]; rfl) (by rw [hp]; rfl)
  | notifying k pending rest =>
    rcases pending with _ | ⟨e, pending⟩
    · rcases rest with _ | ⟨k', rest⟩ <;> simp only [advance, hp] at h <;> cases h
      · exact .quiet rfl rfl rfl (by rw [hp]; rfl) (by rw [hp]; rfl)
      · exact .take k' k rest hp rfl rfl
    · simp only [advance, hp] at h
      cases h
      exact .signal k e pending rest hp rfl rfl

theorem step_list (hl : l.Shape) (h : step i a s l = some (s₁, l₁)) :
    ListMove i a s l s₁ l₁ := by
  cases a with
  | lock | access | drop | consume =>
    simp only [step] at h
    split at h
    · rename_i hrest
      have hp := (Local.atRest_iff.1 hrest).2
      exact lift_list h (by rw [hp]) (by rw [hp])
    · cases h
  | wait k deadline =>
    simp only [step, Bool.and_eq_true] at h
    split at h <;> cases h
    rename_i hrest
    have hp := (Local.atRest_iff.1 hrest.1).2
    exact .quiet rfl rfl rfl (by rw [hp]; rfl) (by rw [hp]; rfl)
  | notifyOne | notifyAll =>
    simp only [step] at h
    split at h <;> cases h
    rename_i hrest
    have hp := (Local.atRest_iff.1 hrest).2
    exact .quiet rfl rfl rfl (by rw [hp]; rfl) (by rw [hp]; rfl)
  | step =>
    simp only [step] at h
    split at h
    · exact advance_list h
    · exact lift_list h rfl rfl
  | spurious =>
    simp only [step] at h
    split at h
    · split at h <;> cases h
      · rename_i hp
        exact .finish .sync _ (by rw [hp]; rfl) rfl rfl rfl rfl rfl
          (.inr (.inr (by rw [hp]; rfl)))
      · rename_i hp
        exact .quiet rfl rfl rfl (by rw [hp]; rfl) (by rw [hp]; rfl)
    · exact lift_list h rfl rfl
  | cancel =>
    simp only [step] at h
    split at h
    · split at h <;> cases h <;> rename_i hp
      all_goals
        exact .finish .async _ (by rw [hp]; rfl) rfl rfl rfl rfl rfl (.inr (.inr (by rw [hp]; rfl)))
    · -- only an acquisition can be dropped here, and it is under no wait
      obtain ⟨m, lm, hm, rfl, rfl⟩ := lift_eq_some h
      rcases hl.busy ‹_› with hp | ⟨z, r, hp, hquiet⟩ | ⟨timedOut, hp⟩
      · exact .quiet rfl rfl rfl (by simp only [hp]) (by simp only [hp])
      · cases hq : l.mx.pc <;> simp [Mutex.step, hq, Mutex.Pc.quiet] at hm hquiet
      · exact .quiet rfl rfl rfl (by simp only [hp, Pc.waitsOn]) (by simp only [hp, Pc.carries])

/-! ### The registrations -/

/-- No list has an entry with number `r`. -/
def Unlisted (s : Shared ι R D) (r : ℕ) : Prop := ∀ k, ∀ e ∈ s.waiting k, e.reg ≠ r

/-- The numbers are used once, an entry is in one place, and a flagged wait has no entry. -/
structure Registered (c : Config ι (Shared ι R D) (Local ι R)) : Prop where
  lt : ∀ k, ∀ e ∈ c.shared.waiting k, e.reg < c.shared.regs
  nodup : ∀ k, ((c.shared.waiting k).map Entry.reg).Nodup
  kind : ∀ k k' e e', e ∈ c.shared.waiting k → e' ∈ c.shared.waiting k' → e.reg = e'.reg → k = k'
  wait : ∀ j k r, (c.loc j).pc.waitsOn = some (k, r) → r < c.shared.regs ∧
    ∀ k', ∀ e ∈ c.shared.waiting k', e.reg = r → k' = k ∧ e.agent = j
  carried : ∀ j k e, (k, e) ∈ (c.loc j).pc.carries →
    e.reg < c.shared.regs ∧ Unlisted c.shared e.reg
  flagged : ∀ r, c.shared.flags r = true → r < c.shared.regs ∧ Unlisted c.shared r

omit [DecidableEq ι] in
theorem reg_ne_of_mem_eraseP {es : List (Entry ι)} {r : ℕ} (h : (es.map Entry.reg).Nodup)
    {e : Entry ι} (he : e ∈ es.eraseP fun e => e.reg = r) : e.reg ≠ r := by
  induction es with
  | nil => simp at he
  | cons x es ih =>
    rw [List.map_cons, List.nodup_cons] at h
    by_cases hx : x.reg = r
    · rw [List.eraseP_cons_of_pos (by simpa using hx)] at he
      intro her
      exact h.1 (hx ▸ her ▸ List.mem_map_of_mem he)
    · rw [List.eraseP_cons_of_neg (by simpa using hx)] at he
      rcases List.mem_cons.1 he with rfl | he
      · exact hx
      · exact ih h.2 he

omit [DecidableEq ι] in
theorem reg_ne_of_getLast {es : List (Entry ι)} {e e' : Entry ι} (h : (es.map Entry.reg).Nodup)
    (he : es.getLast? = some e) (he' : e' ∈ es.dropLast) : e'.reg ≠ e.reg := by
  rw [← List.dropLast_append_getLast? e he, List.map_append, List.nodup_append] at h
  exact h.2.2 _ (List.mem_map_of_mem he') _ (by simp)

namespace Registered

/-- A step that pushes no entry. -/
theorem shrink (h : Registered c) (hregs : s₁.regs = c.shared.regs)
    (hlist : ∀ k, (s₁.waiting k).Sublist (c.shared.waiting k))
    (hflags : ∀ r, s₁.flags r = true →
      c.shared.flags r = true ∨ r < c.shared.regs ∧ Unlisted s₁ r)
    (hwait : l₁.pc.waitsOn = (c.loc i).pc.waitsOn ∨ l₁.pc.waitsOn = none)
    (hcarry : ∀ k e, (k, e) ∈ l₁.pc.carries →
      (k, e) ∈ (c.loc i).pc.carries ∨ e.reg < c.shared.regs ∧ Unlisted s₁ e.reg) :
    Registered (c.set i s₁ l₁) := by
  have hsub : ∀ {k e}, e ∈ s₁.waiting k → e ∈ c.shared.waiting k := fun he => (hlist _).subset he
  have hunl : ∀ {r}, Unlisted c.shared r → Unlisted s₁ r := fun hr k e he => hr k e (hsub he)
  refine ⟨fun k e he => ?_, fun k => ?_, fun k k' e e' he he' => ?_, fun j k r hj => ?_,
    fun j k e hj => ?_, fun r hr => ?_⟩
  · rw [Config.set_shared, hregs]
    exact h.lt k e (hsub he)
  · exact (h.nodup k).sublist ((hlist k).map _)
  · exact h.kind k k' e e' (hsub he) (hsub he')
  · have hold : (c.loc j).pc.waitsOn = some (k, r) := by
      by_cases hji : j = i
      · subst hji
        rw [Config.set_loc_self] at hj
        rcases hwait with hw | hw
        · rwa [hw] at hj
        · rw [hw] at hj
          cases hj
      · rwa [Config.set_loc_of_ne hji] at hj
    obtain ⟨hlt, hentry⟩ := h.wait j k r hold
    exact ⟨by rwa [Config.set_shared, hregs], fun k' e he => hentry k' e (hsub he)⟩
  · rw [Config.set_shared, hregs]
    by_cases hji : j = i
    · subst hji
      rw [Config.set_loc_self] at hj
      rcases hcarry k e hj with hold | hnew
      · exact ⟨(h.carried j k e hold).1, hunl (h.carried j k e hold).2⟩
      · exact hnew
    · rw [Config.set_loc_of_ne hji] at hj
      exact ⟨(h.carried j k e hj).1, hunl (h.carried j k e hj).2⟩
  · rw [Config.set_shared, hregs]
    rcases hflags r hr with hold | hnew
    · exact ⟨(h.flagged r hold).1, hunl (h.flagged r hold).2⟩
    · exact hnew

/-- A wait pushes its entry: its number is new. -/
theorem push (h : Registered c) {k : Kind} {deadline : Option ℕ} :
    Registered (c.set i (c.shared.push k i)
      ((c.loc i).goto (registered c.shared.regs k deadline))) := by
  have hmem : ∀ k' e, e ∈ (c.shared.push k i).waiting k' ↔
      e ∈ c.shared.waiting k' ∨ k' = k ∧ e = ⟨c.shared.regs, i⟩ := by
    intro k' e
    by_cases hk : k' = k
    · subst hk; simp [Shared.push, Shared.setList]
    · simp [Shared.push, Shared.setList, hk]
  have hwait : (registered (ι := ι) c.shared.regs k deadline).waitsOn =
      some (k, c.shared.regs) := by
    cases k <;> cases deadline <;> rfl
  have hcarry : (registered (ι := ι) c.shared.regs k deadline).carries = [] := by
    cases k <;> cases deadline <;> rfl
  have hregs : (c.shared.push k i).regs = c.shared.regs + 1 := rfl
  refine ⟨fun k' e he => ?_, fun k' => ?_, fun k₁ k₂ e e' he he' her => ?_, fun j k' r hj => ?_,
    fun j k' e hj => ?_, fun r hr => ?_⟩ <;> simp only [Config.set_shared, hregs] at *
  · rcases (hmem k' e).1 he with he | ⟨-, rfl⟩
    · exact Nat.lt_succ_of_lt (h.lt k' e he)
    · exact Nat.lt_succ_self _
  · by_cases hk : k' = k
    · subst hk
      simp only [Shared.push, Shared.setList, Function.update_self, List.map_append, List.map_cons,
        List.map_nil]
      refine List.nodup_append.2 ⟨h.nodup k', by simp, fun x hx y hy => ?_⟩
      obtain ⟨e, he, rfl⟩ := List.mem_map.1 hx
      rw [List.mem_singleton] at hy
      subst hy
      exact Nat.ne_of_lt (h.lt k' e he)
    · simpa [Shared.push, Shared.setList, hk] using h.nodup k'
  · rcases (hmem k₁ e).1 he with hold | ⟨rfl, rfl⟩ <;>
      rcases (hmem k₂ e').1 he' with hold' | ⟨rfl, rfl⟩
    · exact h.kind k₁ k₂ e e' hold hold' her
    · exact absurd her (Nat.ne_of_lt (h.lt _ e hold))
    · exact absurd her.symm (Nat.ne_of_lt (h.lt _ e' hold'))
    · rfl
  · by_cases hji : j = i
    · subst hji
      rw [Config.set_loc_self, Local.goto_pc, hwait] at hj
      cases hj
      -- the wait that registers is that of the new entry, and of no other
      refine ⟨Nat.lt_succ_self _, fun k₁ e he her => ?_⟩
      rcases (hmem k₁ e).1 he with he | ⟨rfl, rfl⟩
      · exact absurd her (Nat.ne_of_lt (h.lt _ e he))
      · exact ⟨rfl, rfl⟩
    · rw [Config.set_loc_of_ne hji] at hj
      obtain ⟨hlt, hentry⟩ := h.wait j k' r hj
      refine ⟨Nat.lt_succ_of_lt hlt, fun k₁ e he her => ?_⟩
      rcases (hmem k₁ e).1 he with he | ⟨rfl, rfl⟩
      · exact hentry k₁ e he her
      · exact absurd her.symm (Nat.ne_of_lt hlt)
  · have hold : (k', e) ∈ (c.loc j).pc.carries := by
      by_cases hji : j = i
      · subst hji
        rw [Config.set_loc_self, Local.goto_pc, hcarry] at hj
        cases hj
      · rwa [Config.set_loc_of_ne hji] at hj
    obtain ⟨hlt, hunl⟩ := h.carried j k' e hold
    refine ⟨Nat.lt_succ_of_lt hlt, fun k₁ e' he' => ?_⟩
    rcases (hmem k₁ e').1 he' with he' | ⟨rfl, rfl⟩
    · exact hunl k₁ e' he'
    · exact (Nat.ne_of_lt hlt).symm
  · obtain ⟨hlt, hunl⟩ := h.flagged r hr
    refine ⟨Nat.lt_succ_of_lt hlt, fun k₁ e' he' => ?_⟩
    rcases (hmem k₁ e').1 he' with he' | ⟨rfl, rfl⟩
    · exact hunl k₁ e' he'
    · exact (Nat.ne_of_lt hlt).symm

/-- Every step of every agent keeps the registrations in order. -/
theorem step (h : Registered c) (m : ListMove i a c.shared (c.loc i) s₁ l₁) :
    Registered (c.set i s₁ l₁) := by
  cases m with
  | quiet hlist hflags hregs hwait hcarry =>
    refine h.shrink hregs (fun k => by rw [hlist]) (fun r hr => .inl (hflags ▸ hr)) (.inl hwait) ?_
    exact fun k e he => .inl (hcarry ▸ he)
  | push k deadline hpc hs hl =>
    subst hs hl
    exact h.push
  | finish k r hwait hwait₁ hcarry hlist hflags hregs =>
    refine h.shrink hregs (fun k => by rw [hlist]) (fun r hr => .inl (hflags ▸ hr)) (.inr hwait₁) ?_
    exact fun k e he => by rw [hcarry] at he; cases he
  | leave k r hwait hwait₁ hcarry hlist hflags hregs =>
    have hsub : ∀ k', (s₁.waiting k').Sublist (c.shared.waiting k') := fun k' => by
      rw [hlist, Function.update_apply]
      split
      · subst k'; exact List.eraseP_sublist
      · exact List.Sublist.refl _
    -- the only entry with this number was in this list
    have hunl : Unlisted s₁ r := by
      intro k' e he her
      obtain ⟨rfl, -⟩ := (h.wait i k r hwait).2 k' e ((hsub k').subset he) her
      rw [hlist, Function.update_self] at he
      exact reg_ne_of_mem_eraseP (h.nodup k') he her
    refine h.shrink hregs hsub (fun r' hr' => ?_) (.inr hwait₁) ?_
    · rcases hflags with hf | hf <;> rw [hf] at hr'
      · exact .inl hr'
      · by_cases hrr : r' = r
        · subst hrr
          exact .inr ⟨(h.wait i k r' hwait).1, hunl⟩
        · exact .inl (by simpa [hrr] using hr')
    · exact fun k e he => by rw [hcarry] at he; cases he
  | leaveThread r hwait hwait₁ hcarry hlist hflags hregs =>
    refine h.shrink hregs (fun k' => ?_) (fun r hr => .inl (hflags ▸ hr)) (.inr hwait₁) ?_
    · rw [hlist, Function.update_apply]
      split
      · subst k'; exact List.eraseP_sublist
      · exact List.Sublist.refl _
    · exact fun k e he => by rw [hcarry] at he; cases he
  | pop k e hpc he hs hl =>
    subst hs hl
    have hmem : e ∈ c.shared.waiting k := List.mem_of_getLast? he
    refine h.shrink rfl (fun k' => ?_) (fun r hr => .inl hr) (.inr rfl) ?_
    · by_cases hk : k' = k
      · subst hk; simpa [Shared.setList] using List.dropLast_sublist _
      · simp [Shared.setList, hk]
    · intro k' e' he'
      obtain ⟨rfl, rfl⟩ : k' = k ∧ e' = e := by simpa [Pc.carries] using he'
      refine .inr ⟨h.lt k' e' hmem, fun k₁ x hx hxe => ?_⟩
      by_cases hk : k₁ = k'
      · subst hk
        exact reg_ne_of_getLast (h.nodup k₁) he (by simpa [Shared.setList] using hx) hxe
      · exact hk (h.kind k₁ k' x e' (by simpa [Shared.setList, hk] using hx) hmem hxe)
  | take k k' rest hpc hs hl =>
    subst hs hl
    refine h.shrink rfl (fun k₁ => ?_) (fun r hr => .inl hr) (.inr rfl) ?_
    · by_cases hk : k₁ = k
      · subst hk; simp [Shared.setList]
      · simp [Shared.setList, hk]
    · intro k₁ e he
      obtain ⟨x, hx, heq⟩ := List.mem_map.1 he
      cases heq
      refine .inr ⟨h.lt _ e hx, fun k₂ y hy hye => ?_⟩
      by_cases hk : k₂ = k
      · subst hk
        simp [Shared.setList] at hy
      · exact hk (h.kind k₂ k y e (by simpa [Shared.setList, hk] using hy) hx hye)
  | signal k e pending rest hpc hs hl =>
    subst hs hl
    have hcarried := h.carried i k e (by rw [hpc]; simp [Pc.carries])
    refine h.shrink (by cases k <;> rfl) (fun k' => ?_) (fun r hr => ?_) (.inr rfl) ?_
    · cases k <;> exact List.Sublist.refl _
    · cases k with
      | sync => exact .inl hr
      | spin | async =>
        by_cases hre : r = e.reg
        · subst hre
          exact .inr hcarried
        · exact .inl (by simpa [signal, Shared.setFlag, hre] using hr)
    · intro k' e' he'
      left
      rw [hpc]
      obtain ⟨x, hx, heq⟩ := List.mem_map.1 he'
      cases heq
      exact List.mem_map.2 ⟨e', List.mem_cons_of_mem _ hx, rfl⟩

end Registered

theorem registered_inv {plat : Platform ι} {value : D} {regs : ι → R}
    (h : sys.Reachable (init plat value regs) c) : Registered c := by
  refine h.invariant ?_ (fun c i a s l hc ih _ hs => ih.step (step_list (shape hc i) hs)) ?_
  · exact ⟨nofun, fun _ => List.nodup_nil, nofun, nofun, nofun, nofun⟩
  · intro c e s _ ih _ hs
    simp only [sys, Option.map_eq_some_iff] at hs
    obtain ⟨p, -, rfl⟩ := hs
    exact ⟨ih.lt, ih.nodup, ih.kind, ih.wait, ih.carried, ih.flagged⟩

end Condvar

end WasmSafeThread
