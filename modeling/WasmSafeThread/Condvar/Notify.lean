import WasmSafeThread.Condvar.Registration

/-!
# Where a notification goes

`notify_one` takes the newest entry of the first non-empty list and signals it.  It asks nobody
whether the wait that pushed the entry is still in progress.

* `Live` : the wait that pushed an entry is in progress.
* `NoAbandon` : the condition on a step that no wait is abandoned while its entry is in a list.
  A wait is abandoned when the park of `wait_block` returns, or when the pending future of
  `wait_async` or `wait_async_timeout` is dropped; the other exits look at the lists first.
* `all_live` : in runs without such steps every entry is live.
* `Awaited` : the condition on a step that no wait ends while `notify_one` has taken its entry and
  has not signalled it.
* `notify_one_delivers` : in these runs a `notify_one` that finds a live entry at its start, and is
  not disturbed, signals a live waiter.
* `notify_one_takes_dead` : a run with an abandoned wait in which it signals a dead entry.
-/

namespace WasmSafeThread

namespace Condvar

variable {ι R D : Type*}

/-- The wait that pushed entry `e` in list `k` is in progress. -/
def Live (c : Config ι (Shared ι R D) (Local ι R)) (k : Kind) (e : Entry ι) : Prop :=
  (c.loc e.agent).pc.waitsOn = some (k, e.reg)

/-- Every entry in list `k` is live. -/
def LiveIn (k : Kind) (c : Config ι (Shared ι R D) (Local ι R)) : Prop :=
  ∀ e ∈ c.shared.waiting k, Live c k e

/-- The step abandons no wait whose entry is still in its list. -/
def NoAbandon (c : Config ι (Shared ι R D) (Local ι R)) : Label ι (Act R D) (Event ι) → Prop
  | .agent i a => ∀ x ∈ abandons a (c.loc i).pc, ⟨x.2, i⟩ ∉ c.shared.waiting x.1
  | .env _ => True

/-- The ways out of a wait on which it does not ask for its signal: those that abandon it, and the
last looks of the timed waits at their lists, which do not find an entry that was taken. -/
def exits (a : Act R D) (p : Pc ι) : Option (Kind × ℕ) :=
  match a, p with
  | .step, .parkCheck _ r | .step, .parkLeave r => some (.sync, r)
  | .step, .raceLeave r => some (.async, r)
  | a, p => abandons a p

/-- The step ends no wait whose entry agent `i` has taken and not signalled yet. -/
def Awaited (i : ι) (c : Config ι (Shared ι R D) (Local ι R)) : Label ι (Act R D) (Event ι) → Prop
  | .agent j a => ∀ x ∈ exits a (c.loc j).pc, (x.1, ⟨x.2, j⟩) ∉ (c.loc i).pc.carries
  | .env _ => True

/-- Agent `i` is in `notify_one`. -/
def Notifies (i : ι) (c : Config ι (Shared ι R D) (Local ι R)) : Bool :=
  match (c.loc i).pc with
  | .notifyOne _ | .notifying _ _ [] => true
  | _ => false

variable [DecidableEq ι] {i : ι} {a : Act R D} {s s₁ : Shared ι R D} {l l₁ : Local ι R}
  {c c₁ c₂ : Config ι (Shared ι R D) (Local ι R)} {k : Kind} {e : Entry ι}
  {plat : Platform ι} {value : D} {regs : ι → R}

/-- The step of another agent takes no live entry out of a list. -/
def Undisturbed (i : ι) (c : Config ι (Shared ι R D) (Local ι R)) :
    Label ι (Act R D) (Event ι) → Prop
  | .agent j a => j ≠ i → ∀ r ∈ step j a c.shared (c.loc j),
      ∀ k, ∀ e ∈ c.shared.waiting k, Live c k e → e ∈ r.1.waiting k
  | .env _ => True

/-! ### Every entry is live -/

/-- An entry in a list was there before, or the mover has just pushed it. -/
theorem ListMove.mem_waiting (m : ListMove i a s l s₁ l₁) (he : e ∈ s₁.waiting k) :
    e ∈ s.waiting k ∨ e.agent = i ∧ l₁.pc.waitsOn = some (k, e.reg) := by
  cases m with
  | quiet hlist | finish _ _ _ _ _ hlist => rw [hlist] at he; exact .inl he
  | push k' deadline hpc hs hl =>
    subst hs hl
    by_cases hk : k = k'
    · subst hk
      have he' : e ∈ s.waiting k ∨ e = ⟨s.regs, i⟩ := by
        simpa [Shared.push, Shared.setList] using he
      rcases he' with he' | rfl
      · exact .inl he'
      · exact .inr ⟨rfl, by cases k <;> cases deadline <;> rfl⟩
    · exact .inl (by simpa [Shared.push, Shared.setList, hk] using he)
  | leave k' r _ _ _ hlist =>
    rw [hlist] at he
    by_cases hk : k = k'
    · subst hk
      exact .inl (List.mem_of_mem_eraseP (by simpa using he))
    · exact .inl (by simpa [hk] using he)
  | leaveThread r _ _ _ hlist =>
    rw [hlist] at he
    by_cases hk : k = .sync
    · subst hk
      exact .inl (List.mem_of_mem_eraseP (by simpa using he))
    · exact .inl (by simpa [hk] using he)
  | pop k' x _ _ hs =>
    subst hs
    by_cases hk : k = k'
    · subst hk
      exact .inl (List.mem_of_mem_dropLast (by simpa [Shared.setList] using he))
    · exact .inl (by simpa [Shared.setList, hk] using he)
  | take k' _ _ _ hs =>
    subst hs
    by_cases hk : k = k'
    · subst hk
      simp [Shared.setList] at he
    · exact .inl (by simpa [Shared.setList, hk] using he)
  | signal k' x _ _ _ hs =>
    subst hs
    exact .inl (by cases k' <;> exact he)

omit [DecidableEq ι] in
theorem inWait_of_waitsOn {p : Pc ι} {x : Kind × ℕ} (h : p.waitsOn = some x) : p.inWait = true := by
  cases p <;> first | rfl | cases h

/-- Who is in no wait leaves a list alone, takes all of it, or takes its newest entry. -/
theorem ListMove.outside (m : ListMove i a s l s₁ l₁) (hw : l.pc.inWait = false) (k : Kind) :
    s₁.waiting k = s.waiting k ∨ s₁.waiting k = [] ∨
      l.pc = .notifyOne k ∧ s₁.waiting k = (s.waiting k).dropLast := by
  cases m with
  | quiet hlist | finish _ _ _ _ _ hlist => exact .inl (by rw [hlist])
  | push _ _ hpc =>
    rw [hpc] at hw
    cases hw
  | leave _ _ hwait | leaveThread _ hwait =>
    rw [inWait_of_waitsOn hwait] at hw
    cases hw
  | pop k' e hpc he hs =>
    subst hs
    by_cases hk : k = k'
    · subst hk
      exact .inr (.inr ⟨hpc, by simp [Shared.setList]⟩)
    · exact .inl (by simp [Shared.setList, hk])
  | take k' _ _ _ hs =>
    subst hs
    by_cases hk : k = k'
    · subst hk
      exact .inr (.inl (by simp [Shared.setList]))
    · exact .inl (by simp [Shared.setList, hk])
  | signal k' _ _ _ _ hs =>
    subst hs
    exact .inl (by cases k' <;> rfl)

/-- An entry that is carried was carried before, or was in its list. -/
theorem ListMove.mem_carries (m : ListMove i a s l s₁ l₁) (he : (k, e) ∈ l₁.pc.carries) :
    (k, e) ∈ l.pc.carries ∨ e ∈ s.waiting k := by
  cases m with
  | quiet _ _ _ _ hcarry => exact .inl (hcarry ▸ he)
  | push k' deadline _ _ hl =>
    subst hl
    cases k' <;> cases deadline <;> cases he
  | finish _ _ _ _ hcarry | leave _ _ _ _ hcarry | leaveThread _ _ _ hcarry =>
    rw [hcarry] at he
    cases he
  | pop k' x hpc hx _ hl =>
    subst hl
    obtain ⟨rfl, rfl⟩ : k = k' ∧ e = x := by simpa [Pc.carries] using he
    exact .inr (List.mem_of_getLast? hx)
  | take k' _ rest _ _ hl =>
    subst hl
    obtain ⟨x, hx, heq⟩ := List.mem_map.1 he
    cases heq
    exact .inr hx
  | signal k' x pending rest hpc _ hl =>
    subst hl
    obtain ⟨y, hy, heq⟩ := List.mem_map.1 he
    cases heq
    rw [hpc]
    exact .inl (List.mem_map_of_mem (List.mem_cons_of_mem _ hy))

theorem agent_ne_of_mem_eraseP {es : List (Entry ι)} {r : ℕ} (h : (es.map Entry.reg).Nodup)
    (hr : ∀ x ∈ es, x.agent = i → x.reg = r) (he : e ∈ es.eraseP fun x => x.agent = i) :
    e.agent ≠ i := by
  induction es with
  | nil => simp at he
  | cons x es ih =>
    rw [List.map_cons, List.nodup_cons] at h
    by_cases hx : x.agent = i
    · rw [List.eraseP_cons_of_pos (by simpa using hx)] at he
      intro hei
      have hreg := (hr e (List.mem_cons_of_mem _ he) hei).trans (hr x List.mem_cons_self hx).symm
      exact h.1 (hreg ▸ List.mem_map_of_mem he)
    · rw [List.eraseP_cons_of_neg (by simpa using hx)] at he
      rcases List.mem_cons.1 he with rfl | he
      · exact hx
      · exact ih h.2 (fun y hy => hr y (List.mem_cons_of_mem _ hy)) he

/-- The mover's wait goes on as long as its entry stays in its list. -/
theorem LiveIn.waitsOn (hreg : Registered c) (h : LiveIn k c)
    (hP : ∀ r, abandons a (c.loc i).pc = some (k, r) → ⟨r, i⟩ ∉ c.shared.waiting k)
    (m : ListMove i a c.shared (c.loc i) s₁ l₁) (hold : e ∈ c.shared.waiting k)
    (he : e ∈ s₁.waiting k) (hei : e.agent = i) : l₁.pc.waitsOn = some (k, e.reg) := by
  have hlive : (c.loc i).pc.waitsOn = some (k, e.reg) := hei ▸ h e hold
  have heq : e = ⟨e.reg, i⟩ := by rw [← hei]
  cases m with
  | quiet _ _ _ hwait => rwa [hwait]
  | push _ _ hpc | pop _ _ hpc | take _ _ _ hpc | signal _ _ _ _ hpc =>
    rw [hpc] at hlive
    cases hlive
  | finish k' r hwait _ _ _ _ _ why =>
    rw [hwait] at hlive
    cases hlive
    rcases why with hflag | hmem | habandon
    · exact absurd rfl ((hreg.flagged _ hflag).2 k e hold)
    · exact absurd (heq ▸ hold) hmem
    · exact absurd (heq ▸ hold) (hP _ habandon)
  | leave k' r hwait _ _ hlist =>
    rw [hwait] at hlive
    cases hlive
    rw [hlist, Function.update_self] at he
    exact absurd rfl (reg_ne_of_mem_eraseP (hreg.nodup k) he)
  | leaveThread r hwait _ _ hlist =>
    rw [hwait] at hlive
    cases hlive
    rw [hlist, Function.update_self] at he
    refine absurd hei (agent_ne_of_mem_eraseP (r := e.reg) (hreg.nodup .sync) (fun x hx hxi => ?_) he)
    have hlive' : (c.loc i).pc.waitsOn = some (.sync, x.reg) := hxi ▸ h x hx
    rw [hwait] at hlive'
    simpa [eq_comm] using hlive'

theorem LiveIn.step (hreg : Registered c) (h : LiveIn k c)
    (hP : ∀ r, abandons a (c.loc i).pc = some (k, r) → ⟨r, i⟩ ∉ c.shared.waiting k)
    (m : ListMove i a c.shared (c.loc i) s₁ l₁) : LiveIn k (c.set i s₁ l₁) := by
  intro e he
  rcases m.mem_waiting he with hold | ⟨hei, hwait⟩
  · by_cases hei : e.agent = i
    · simpa only [Live, hei, Config.set_loc_self] using h.waitsOn hreg hP m hold he hei
    · simpa only [Live, Config.set_loc_of_ne hei] using h e hold
  · simpa only [Live, hei, Config.set_loc_self] using hwait

theorem live_in {P : Config ι (Shared ι R D) (Local ι R) → Label ι (Act R D) (Event ι) → Prop}
    (h : sys.Reach P (init plat value regs) c)
    (hP : ∀ c i a r, P c (.agent i a) → abandons a (c.loc i).pc = some (k, r) →
      ⟨r, i⟩ ∉ c.shared.waiting k) : LiveIn k c := by
  refine h.invariant (fun _ => nofun) (fun c i a s l hc ih hPa hs => ?_) ?_
  · exact ih.step (registered_inv hc.reachable) (fun r => hP c i a r hPa)
      (step_list (shape hc.reachable i) hs)
  · intro c e s _ ih _ hs
    simp only [sys, Option.map_eq_some_iff] at hs
    obtain ⟨p, -, rfl⟩ := hs
    exact ih

/-- **Every entry is live**, in runs that abandon no listed wait. -/
theorem all_live (h : sys.Reach NoAbandon (init plat value regs) c) (k : Kind) : LiveIn k c :=
  live_in h fun _ _ _ _ hP hab => hP _ hab

theorem spin_live (h : sys.Reachable (init plat value regs) c) : LiveIn .spin c :=
  live_in h fun _ _ a _ _ hab => by
    simp only [abandons] at hab
    split at hab <;> cases hab

/-! ### What a wait does whose entry was taken -/

/-- A wait goes on, unless it was signalled, takes its own entry back, or leaves by one of its
`exits`. -/
theorem advance_waitsOn {r : ℕ} (hw : l.pc.waitsOn = some (k, r))
    (h : advance i s l = some (s₁, l₁)) :
    l₁.pc.waitsOn = some (k, r) ∨ s.flags r = true ∨ (∃ e ∈ s.waiting k, e.reg = r) ∨
      exits (.step : Act R D) l.pc = some (k, r) := by
  cases hp : l.pc with
  | ready | register | relock | relocking | notifyOne | notifying => rw [hp] at hw; cases hw
  | spawnTimer =>
    simp only [advance, hp] at h
    rw [hp] at hw
    cases h
    exact .inl hw
  | drop =>
    simp only [advance, hp] at h
    rw [hp] at hw
    obtain ⟨m, lm, -, -, rfl⟩ := lift_eq_some h
    exact .inl hw
  | dropping z =>
    simp only [advance, hp] at h
    rw [hp] at hw
    cases h
    rcases z with _ | (_ | _) | _ | _ <;> exact .inl hw
  | load deadline =>
    simp only [advance, hp] at h
    rw [hp] at hw
    split at h
    · cases h
      cases hw
      exact .inr (.inl ‹_›)
    · cases deadline <;> cases h <;> exact .inl hw
  | loadLeave =>
    simp only [advance, hp] at h
    rw [hp] at hw
    split at h
    · rename_i hany
      cases h
      cases hw
      exact .inr (.inr (.inl (by simpa using hany)))
    · cases h
      exact .inl hw
  | await =>
    simp only [advance, hp] at h
    rw [hp] at hw
    split at h <;> cases h
    cases hw
    exact .inr (.inl ‹_›)
  | race | loadNotified =>
    simp only [advance, hp] at h
    rw [hp] at hw
    split at h <;> cases h
    · cases hw
      exact .inr (.inl ‹_›)
    · exact .inl hw
  | park deadline =>
    simp only [advance, hp] at h
    rw [hp] at hw
    split at h <;> cases deadline <;> cases h
    · exact .inr (.inr (.inr hw))
    · exact .inl hw
  | loadNow | parkNow | raceTimeout =>
    simp only [advance, hp] at h
    rw [hp] at hw
    split at h <;> cases h <;> exact .inl hw
  | parkCheck | parkLeave | raceLeave =>
    rw [hp] at hw
    exact .inr (.inr (.inr hw))

theorem step_waitsOn (hl : l.Shape) {r : ℕ} (hw : l.pc.waitsOn = some (k, r))
    (h : step i a s l = some (s₁, l₁)) :
    l₁.pc.waitsOn = some (k, r) ∨ s.flags r = true ∨ (∃ e ∈ s.waiting k, e.reg = r) ∨
      exits a l.pc = some (k, r) := by
  have hcall : l.atRest ≠ true := fun hrest => by
    rw [(Local.atRest_iff.1 hrest).2] at hw
    cases hw
  cases a with
  | lock | access | drop | consume | wait | notifyOne | notifyAll => simp [step, hcall] at h
  | step =>
    simp only [step] at h
    split at h
    · exact advance_waitsOn hw h
    · obtain ⟨m, lm, -, -, rfl⟩ := lift_eq_some h
      exact .inl hw
  | spurious =>
    simp only [step] at h
    split at h
    · split at h <;> cases h <;> rename_i hp <;> rw [hp] at hw ⊢
      · exact .inr (.inr (.inr hw))
      · exact .inl hw
    · obtain ⟨m, lm, -, -, rfl⟩ := lift_eq_some h
      exact .inl hw
  | cancel =>
    simp only [step] at h
    split at h
    · split at h <;> cases h <;> rename_i hp <;> rw [hp] at hw ⊢ <;> exact .inr (.inr (.inr hw))
    · -- a wait in progress has no acquisition that could be dropped
      obtain ⟨m, lm, hm, -, -⟩ := lift_eq_some h
      rcases hl.busy ‹_› with hp | ⟨z, r, hp, hquiet⟩ | ⟨timedOut, hp⟩
      · rw [hp] at hw; cases hw
      · cases hq : l.mx.pc <;> simp [Mutex.step, hq, Mutex.Pc.quiet] at hm hquiet
      · rw [hp] at hw; cases hw

theorem ListMove.flags_of (m : ListMove i a s l s₁ l₁) {r : ℕ} (hr : s₁.flags r = true) :
    s.flags r = true ∨ (∃ x ∈ l.pc.carries, x.2.reg = r) ∨ ∃ k, ∃ e ∈ s.waiting k, e.reg = r := by
  cases m with
  | quiet _ hflags | finish _ _ _ _ _ _ hflags | leaveThread _ _ _ _ _ hflags =>
    exact .inl (hflags ▸ hr)
  | push _ _ _ hs | pop _ _ _ _ hs | take _ _ _ _ hs => exact .inl (by subst hs; exact hr)
  | leave k r' _ _ _ _ hflags _ hmem =>
    rcases hflags with hflags | hflags <;> rw [hflags] at hr
    · exact .inl hr
    · by_cases hrr : r = r'
      · subst hrr
        exact .inr (.inr ⟨k, hmem⟩)
      · exact .inl (by simpa [hrr] using hr)
  | signal k x _ _ hpc hs =>
    subst hs
    by_cases hrx : x.reg = r
    · exact .inr (.inl ⟨(k, x), by rw [hpc]; simp [Pc.carries], hrx⟩)
    · refine .inl ?_
      cases k <;> simpa [Condvar.signal, Shared.setFlag, Shared.setPlat, Ne.symm hrx] using hr

/-! ### What `notify_one` signals -/

/-- The lists that `notify_one` still tries, from list `k` on. -/
def Kind.scan : Kind → List Kind
  | .spin => [.spin, .sync, .async]
  | .sync => [.sync, .async]
  | .async => [.async]

theorem Kind.mem_scan {k k' : Kind} (h : k' ∈ k.scan) :
    k' = k ∨ ∃ k'', k.next = some k'' ∧ k' ∈ k''.scan := by
  cases k <;> cases k' <;> simp_all [Kind.scan, Kind.next]

/-- The `notify_one` of agent `i` is on its way to a list with a live entry. -/
def Seeks (i : ι) (c : Config ι (Shared ι R D) (Local ι R)) : Prop :=
  ∃ k, (c.loc i).pc = .notifyOne k ∧ ∃ k' ∈ k.scan, ∃ e ∈ c.shared.waiting k', Live c k' e

/-- The `notify_one` of agent `i` has taken entry `e` of list `k` and is about to signal it.  The
entry is live, nobody has signalled it, and nobody else is about to. -/
structure Brings (i : ι) (k : Kind) (e : Entry ι) (c : Config ι (Shared ι R D) (Local ι R)) :
    Prop where
  pc : (c.loc i).pc = .notifying k [e] []
  live : Live c k e
  unsignalled : c.shared.flags e.reg = false
  alone : ∀ j, j ≠ i → ∀ x ∈ (c.loc j).pc.carries, x.2.reg ≠ e.reg

/-- From `c` to `c'` agent `i` signals a live entry that it has taken. -/
def Signals (i : ι) (c c' : Config ι (Shared ι R D) (Local ι R)) : Prop :=
  ∃ k e, Brings i k e c ∧ sys.next c (.agent i .step) = some c' ∧
    c'.shared = signal c.shared k e

/-- A step of the run while agent `i` is in `notify_one`: it abandons no listed wait, no other agent
takes a live entry, and no wait ends between the pop of its entry and the signal. -/
def During (i : ι) (c : Config ι (Shared ι R D) (Local ι R))
    (a : Label ι (Act R D) (Event ι)) : Prop :=
  Notifies i c = true ∧ NoAbandon c a ∧ Undisturbed i c a ∧ Awaited i c a

/-- On the run from `c₁` to `c₂` agent `i` has signalled a live waiter. -/
def Delivered (i : ι) (c₁ c₂ : Config ι (Shared ι R D) (Local ι R)) : Prop :=
  ∃ c c', sys.Reach (During i) c₁ c ∧ Signals i c c' ∧ sys.Reach (During i) c' c₂

/-- The step of a `notify_one` that seeks. -/
theorem Seeks.advance (hreg : Registered c) (hall : ∀ k, LiveIn k c) (h : Seeks i c)
    (hs : advance i c.shared (c.loc i) = some (s₁, l₁)) :
    Seeks i (c.set i s₁ l₁) ∨ ∃ k e, Brings i k e (c.set i s₁ l₁) := by
  obtain ⟨k, hpc, k', hk', e, he, hlive⟩ := h
  have hne : ∀ {k e}, Live c k e → e.agent ≠ i := by
    intro k e hlive hei
    rw [Live, hei, hpc] at hlive
    cases hlive
  simp only [Condvar.advance, hpc] at hs
  cases hlast : (c.shared.waiting k).getLast? with
  | some x =>
    have hx := List.mem_of_getLast? hlast
    simp only [hlast] at hs
    cases hs
    refine .inr ⟨k, x, by simp, ?_, ?_, fun j hji y hy => ?_⟩
    · simpa only [Live, Config.set_loc_of_ne (hne (hall k x hx))] using hall k x hx
    · exact Bool.eq_false_of_not_eq_true fun hflag => (hreg.flagged _ hflag).2 k x hx rfl
    · rw [Config.set_loc_of_ne hji] at hy
      exact fun heq => (hreg.carried j y.1 y.2 hy).2 k x hx heq.symm
  | none =>
    -- the empty list is not the one we are on the way to
    have hnil := List.getLast?_eq_none_iff.1 hlast
    rcases Kind.mem_scan hk' with rfl | ⟨k'', hnext, hk''⟩
    · rw [hnil] at he
      cases he
    · simp only [hlast, hnext] at hs
      cases hs
      refine .inl ⟨k'', by simp, k', hk'', e, he, ?_⟩
      simpa only [Live, Config.set_loc_of_ne (hne hlive)] using hlive

theorem Seeks.step (hreg : Registered c) (hall : ∀ k, LiveIn k c) (hshape : ∀ j, (c.loc j).Shape)
    (h : Seeks i c) {j : ι} (hP : During i c (.agent j a))
    (hs : step j a c.shared (c.loc j) = some (s₁, l₁)) :
    Seeks i (c.set j s₁ l₁) ∨ ∃ k e, Brings i k e (c.set j s₁ l₁) := by
  by_cases hji : j = i
  · subst hji
    obtain ⟨k, hpc, -⟩ := id h
    have hrest : (c.loc j).mx.pc.atRest = true := by simpa [Local.Shape, hpc] using hshape j
    cases a <;> simp [Condvar.step, hrest, hpc, Local.atRest] at hs
    exact h.advance hreg hall hs
  · obtain ⟨k, hpc, k', hk', e, he, hlive⟩ := h
    have hstay := hP.2.2.1 hji (s₁, l₁) hs k' e he hlive
    refine .inl ⟨k, by rwa [Config.set_loc_of_ne (Ne.symm hji)], k', hk', e, hstay, ?_⟩
    have hnext := (hall k').step hreg (fun r hab => hP.2.1 (k', r) hab) (step_list (hshape j) hs)
    exact hnext e hstay

theorem Brings.signals (h : Brings i k e c) (hshape : (c.loc i).Shape)
    (hs : step i a c.shared (c.loc i) = some (s₁, l₁)) : Signals i c (c.set i s₁ l₁) := by
  have hpc := h.pc
  have hrest : (c.loc i).mx.pc.atRest = true := by simpa [Local.Shape, hpc] using hshape
  have hstep : step i a c.shared (c.loc i) = some (signal c.shared k e,
      (c.loc i).goto (.notifying k [] [])) ∧ a = .step := by
    cases a <;> simp [Condvar.step, hrest, hpc, Local.atRest] at hs
    simp [Condvar.step, hrest, hpc, advance]
  obtain ⟨heq, rfl⟩ := hstep
  refine ⟨k, e, h, by simp [System.next, sys, hs], ?_⟩
  rw [hs] at heq
  cases heq
  rfl

/-- A step of another agent leaves the entry live and not signalled. -/
theorem Brings.keep (h : Brings i k e c) (hreg : Registered c) {j : ι} (hji : j ≠ i)
    (hshape : (c.loc j).Shape) (haw : Awaited i c (.agent j a))
    (hs : step j a c.shared (c.loc j) = some (s₁, l₁)) : Brings i k e (c.set j s₁ l₁) := by
  have m := step_list hshape hs
  have hmem : (k, e) ∈ (c.loc i).pc.carries := by rw [h.pc]; simp [Pc.carries]
  have hunl := (hreg.carried i k e hmem).2
  refine ⟨by rw [Config.set_loc_of_ne (Ne.symm hji)]; exact h.pc, ?_, ?_, fun j' hj' x hx => ?_⟩
  · by_cases hej : e.agent = j
    · -- the wait of the entry moves, and has no way out
      subst hej
      rw [Live, Config.set_loc_self]
      rcases step_waitsOn hshape h.live hs with hw | hflag | ⟨y, hy, hye⟩ | hexit
      · exact hw
      · rw [h.unsignalled] at hflag
        cases hflag
      · exact absurd hye (hunl k y hy)
      · exact absurd hmem (haw (k, e.reg) hexit)
    · rw [Live, Config.set_loc_of_ne hej]
      exact h.live
  · refine Bool.eq_false_of_not_eq_true fun hflag => ?_
    rcases m.flags_of hflag with hold | ⟨x, hx, hxe⟩ | ⟨k', y, hy, hye⟩
    · rw [h.unsignalled] at hold
      cases hold
    · exact h.alone j hji x hx hxe
    · exact hunl k' y hy hye
  · by_cases hjj : j' = j
    · subst hjj
      rw [Config.set_loc_self] at hx
      rcases m.mem_carries hx with hold | hlist
      · exact h.alone j' hj' _ hold
      · exact hunl _ _ hlist
    · rw [Config.set_loc_of_ne hjj] at hx
      exact h.alone j' hj' x hx

/-- **A notification goes to a live waiter**, in runs in which no wait is abandoned while its entry
is in a list, and none ends between the pop of its entry and the signal.  A `notify_one` of agent `i`
that starts while an entry is in a list, and runs while no other agent takes a live entry out of a
list, is never blocked; it is on its way to a live entry, or has taken one that nobody has signalled
and that its next operation signals, or it has signalled a live waiter. -/
theorem notify_one_delivers (h₁ : sys.Reach NoAbandon (init plat value regs) c₁)
    (hstart : (c₁.loc i).pc = .notifyOne .spin) (he : e ∈ c₁.shared.waiting k)
    (h₂ : sys.Reach (During i) c₁ c₂) :
    (Seeks i c₂ ∨ ∃ k e, Brings i k e c₂) ∧ (∃ c', sys.next c₂ (.agent i .step) = some c') ∨
      Delivered i c₁ c₂ := by
  have hreach : ∀ {c}, sys.Reach (During i) c₁ c → sys.Reach NoAbandon (init plat value regs) c :=
    fun h => h₁.trans (h.mono fun _ _ hP => hP.2.1)
  have hshape : ∀ {c}, sys.Reach (During i) c₁ c → ∀ j, (c.loc j).Shape :=
    fun h => shape (hreach h).reachable
  have hinv : (Seeks i c₂ ∨ ∃ k e, Brings i k e c₂) ∨ Delivered i c₁ c₂ := by
    refine h₂.invariant (I := fun c => (Seeks i c ∨ ∃ k e, Brings i k e c) ∨ Delivered i c₁ c)
      ?_ ?_ ?_
    · refine .inl (.inl ⟨.spin, hstart, k, ?_, e, he, all_live h₁ k e he⟩)
      cases k <;> simp [Kind.scan]
    · intro c j a s l hc ih hP hs
      have hreg := registered_inv (hreach hc).reachable
      rcases ih with (hseeks | ⟨k, e, hbrings⟩) | ⟨c', c'', hto, hsig, hfrom⟩
      · exact .inl (hseeks.step hreg (all_live (hreach hc)) (hshape hc) hP hs)
      · by_cases hji : j = i
        · subst hji
          exact .inr ⟨c, _, hc, hbrings.signals (hshape hc j) hs, .refl⟩
        · exact .inl (.inr ⟨k, e, hbrings.keep hreg hji (hshape hc j) hP.2.2.2 hs⟩)
      · exact .inr ⟨c', c'', hto, hsig, hfrom.agent hP hs⟩
    · intro c e s hc ih hP hs
      have hnext : sys.next c (.env e) = some ⟨s, c.loc⟩ := by
        rw [System.next, hs]
        rfl
      simp only [sys, Option.map_eq_some_iff] at hs
      obtain ⟨p, -, rfl⟩ := hs
      rcases ih with (hseeks | ⟨k, e, hbrings⟩) | ⟨c', c'', hto, hsig, hfrom⟩
      · exact .inl (.inl hseeks)
      · exact .inl (.inr ⟨k, e, hbrings.pc, hbrings.live, hbrings.unsignalled, hbrings.alone⟩)
      · exact .inr ⟨c', c'', hto, hsig, hfrom.tail hP hnext⟩
  refine hinv.imp_left fun h => ⟨h, ?_⟩
  rcases h with ⟨k, hpc, -⟩ | ⟨k, e, ⟨hpc, -, -, -⟩⟩ <;>
    have hrest : (c₂.loc i).mx.pc.atRest = true := by
      simpa [Local.Shape, hpc] using hshape h₂ i
  · cases hlast : (c₂.shared.waiting k).getLast? <;>
      simp [System.next, sys, Condvar.step, hrest, advance, hpc, hlast]
  · simp [System.next, sys, Condvar.step, hrest, advance, hpc]

instance : DecidableRel fun (k : Kind) (e : Entry ι) => Live c k e :=
  fun _ _ => inferInstanceAs (Decidable (_ = _))

instance (c : Config ι (Shared ι R D) (Local ι R)) :
    (a : Label ι (Act R D) (Event ι)) → Decidable (NoAbandon c a)
  | .agent i a => inferInstanceAs (Decidable (∀ x ∈ abandons a (c.loc i).pc, _))
  | .env _ => .isTrue trivial

instance (i : ι) (c : Config ι (Shared ι R D) (Local ι R)) :
    (a : Label ι (Act R D) (Event ι)) → Decidable (Undisturbed i c a)
  | .agent j a => inferInstanceAs (Decidable (j ≠ i → ∀ r ∈ step j a c.shared (c.loc j), _))
  | .env _ => .isTrue trivial

instance (i : ι) (c : Config ι (Shared ι R D) (Local ι R)) :
    (a : Label ι (Act R D) (Event ι)) → Decidable (Awaited i c a)
  | .agent j a => inferInstanceAs (Decidable (∀ x ∈ exits a (c.loc j).pc, _))
  | .env _ => .isTrue trivial

instance (i : ι) (c : Config ι (Shared ι R D) (Local ι R)) (a : Label ι (Act R D) (Event ι)) :
    Decidable (During i c a) :=
  inferInstanceAs (Decidable (_ ∧ _ ∧ _ ∧ _))

/-! ### Two runs -/

/-- Agent `i` locks and waits with `wait_block` until it sleeps. -/
def waitBlock (i : ι) : List (Label ι (Act R D) (Event ι)) :=
  [.agent i (.lock .tryLock), .agent i .step, .agent i (.wait .sync none), .agent i .step,
    .agent i .step, .agent i .step, .agent i .step, .agent i .step, .agent i .step]

/-- The park of agent `i` returns without a token, and its wait returns with the lock, which the
agent then drops. -/
def wakeSpuriously (i : ι) : List (Label ι (Act R D) (Event ι)) :=
  [.agent i .spurious, .agent i .step, .agent i .step, .agent i .step, .agent i .step,
    .agent i .step, .agent i .drop]

/-- The operations of a `notify_one` that finds its entry in the second list. -/
def notifySecond (i : ι) : List (Label ι (Act R D) (Event ι)) :=
  [.agent i .step, .agent i .step, .agent i .step, .agent i .step]

/-- A run in which one thread waits and another notifies it. -/
theorem notify_one_delivers_wait :
    ∃ c₁ c₂ : Config Bool (Shared Bool Unit Unit) (Local Bool Unit),
      (c₁.loc true).pc = .notifyOne .spin ∧ (c₂.loc true).pc = .ready ∧ Delivered true c₁ c₂ := by
  obtain ⟨c₁, h₁, hend⟩ := System.exists_of_along (M := sys)
    (P := NoAbandon) (c := init (ι := Bool) (R := Unit) (.new .native) () fun _ => ())
    (p := fun c₁ => decide ((c₁.loc true).pc = .notifyOne .spin ∧
      (⟨0, false⟩ ∈ c₁.shared.waiting .sync) ∧ sys.Along (During true) c₁ (notifySecond true) ∧
      (sys.run c₁ (notifySecond true)).any (fun c₂ => decide ((c₂.loc true).pc = .ready)) = true))
    (waitBlock false ++ [.agent true .notifyOne]) (by decide) (by decide)
  simp only [decide_eq_true_eq] at hend
  obtain ⟨hstart, he, halong, hany⟩ := hend
  obtain ⟨c₂, h₂, hpc⟩ := System.exists_of_along _ hany halong
  rw [decide_eq_true_eq] at hpc
  refine ⟨c₁, c₂, hstart, hpc, ?_⟩
  rcases notify_one_delivers h₁ hstart he h₂ with ⟨⟨k, hpc', -⟩ | ⟨k, e, hpc', -, -, -⟩, -⟩ | hd
  · rw [hpc] at hpc'
    cases hpc'
  · rw [hpc] at hpc'
    cases hpc'
  · exact hd

/-- **A notification is spent on a dead entry.**  Threads 0 and 1 wait; the park of thread 1
returns spuriously and its wait returns.  A `notify_one`, while nobody else moves, then takes and
signals the entry that this wait left behind, and returns; thread 0, which was registered all the
time, still waits, in its list and without a token. -/
theorem notify_one_takes_dead :
    ∃ c₁ c c₂ : Config (Fin 3) (Shared (Fin 3) Unit Unit) (Local (Fin 3) Unit),
      sys.Reachable (init (.new .native) () fun _ => ()) c₁ ∧
      (c₁.loc 2).pc = .notifyOne .spin ∧
      (⟨0, 0⟩ ∈ c₁.shared.waiting .sync ∧ Live c₁ .sync ⟨0, 0⟩) ∧
      sys.Reach (fun c a => Notifies 2 c = true ∧ Undisturbed 2 c a) c₁ c ∧
      ((c.loc 2).pc = .notifying .sync [⟨1, 1⟩] [] ∧ ¬ Live c .sync ⟨1, 1⟩) ∧
      sys.Reach (fun c a => Notifies 2 c = true ∧ Undisturbed 2 c a) c c₂ ∧
      (c₂.loc 2).pc = .ready ∧ c₂.shared.mx.plat.token 1 = true ∧
      ⟨0, 0⟩ ∈ c₂.shared.waiting .sync ∧ Live c₂ .sync ⟨0, 0⟩ ∧
        c₂.shared.mx.plat.token 0 = false := by
  obtain ⟨c₁, h₁, hend⟩ := System.exists_of_run (M := sys)
    (c := init (ι := Fin 3) (R := Unit) (.new .native) () fun _ => ())
    (p := fun c₁ => decide ((c₁.loc 2).pc = .notifyOne .spin ∧
      (⟨0, 0⟩ ∈ c₁.shared.waiting .sync ∧ Live c₁ .sync ⟨0, 0⟩) ∧
      sys.Along (fun c a => Notifies 2 c = true ∧ Undisturbed 2 c a) c₁
        [.agent 2 .step, .agent 2 .step] ∧
      (sys.run c₁ [.agent 2 .step, .agent 2 .step]).any (fun c => decide
        (((c.loc 2).pc = .notifying .sync [⟨1, 1⟩] [] ∧ ¬ Live c .sync ⟨1, 1⟩) ∧
          sys.Along (fun c a => Notifies 2 c = true ∧ Undisturbed 2 c a) c
            [.agent 2 .step, .agent 2 .step] ∧
          (sys.run c [.agent 2 .step, .agent 2 .step]).any (fun c₂ => decide
            ((c₂.loc 2).pc = .ready ∧ c₂.shared.mx.plat.token 1 = true ∧
              ⟨0, 0⟩ ∈ c₂.shared.waiting .sync ∧ Live c₂ .sync ⟨0, 0⟩ ∧
                c₂.shared.mx.plat.token 0 = false)) = true)) = true))
    (waitBlock 0 ++ waitBlock 1 ++ wakeSpuriously 1 ++ [.agent 2 .notifyOne]) (by decide)
  simp only [decide_eq_true_eq] at hend
  obtain ⟨hstart, hlive, halong, hany⟩ := hend
  obtain ⟨c, h, hc⟩ := System.exists_of_along _ hany halong
  rw [decide_eq_true_eq] at hc
  obtain ⟨hdead, halong', hany'⟩ := hc
  obtain ⟨c₂, h₂, hpc⟩ := System.exists_of_along _ hany' halong'
  exact ⟨c₁, c, c₂, h₁, hstart, hlive, h, hdead, h₂, of_decide_eq_true hpc⟩

end Condvar

end WasmSafeThread
