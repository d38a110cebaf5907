import WasmSafeThread.Condvar.Notify
import WasmSafeThread.Condvar.Waiting

/-!
# What `notify_all` reaches

`notify_all` takes the three lists one after another and signals what it took.  The numbers of the
waits are given out in the order of the pushes, so after the call has taken a list only newer waits
are in it.

* `covered` : a wait in progress that sleeps has its entry in its list, on its way, or signalled.  A
  blocked thread counts by its thread: any entry of it in the list, any notification that carries
  one, and its token.
* `visited` : the lists that a `notify_all` has taken have only entries pushed after its start.
* `registered_before` : a wait pushes its entry before anybody else gets the guard.
* `notify_all_answers` : every wait registered before a `notify_all` is answered when it returns.
-/

namespace WasmSafeThread

namespace Condvar

variable {ι R D : Type*} [DecidableEq ι] {i j : ι} {a : Act R D} {s s₁ : Shared ι R D}
  {l l₁ : Local ι R} {c c₀ c₁ c₂ : Config ι (Shared ι R D) (Local ι R)} {k : Kind} {r : ℕ}
  {e : Entry ι} {plat : Platform ι} {value : D} {regs : ι → R}

/-! ### What becomes of an entry in one step -/

/-- An entry of another agent stays in its list or is taken by a notification. -/
theorem ListMove.keep (hreg : Registered c) (m : ListMove i a c.shared (c.loc i) s₁ l₁)
    (he : e ∈ c.shared.waiting k) (hne : e.agent ≠ i) :
    e ∈ s₁.waiting k ∨ (k, e) ∈ l₁.pc.carries := by
  cases m with
  | quiet hlist | finish _ _ _ _ _ hlist => exact .inl (hlist ▸ he)
  | push k' deadline hpc hs hl =>
    subst hs
    by_cases hk : k = k'
    · subst hk
      exact .inl (by simp [Shared.push, Shared.setList, he])
    · exact .inl (by simpa [Shared.push, Shared.setList, hk] using he)
  | leave k' r' hwait _ _ hlist =>
    left
    rw [hlist, Function.update_apply]
    split
    · subst k
      refine (List.mem_eraseP_of_neg ?_).2 he
      intro her
      exact hne ((hreg.wait i k' r' hwait).2 k' e he (by simpa using her)).2
    · exact he
  | leaveThread r' hwait _ _ hlist =>
    left
    rw [hlist, Function.update_apply]
    split
    · subst k
      exact (List.mem_eraseP_of_neg (by simpa using hne)).2 he
    · exact he
  | pop k' x hpc hx hs hl =>
    subst hs hl
    by_cases hk : k = k'
    · subst hk
      have hlist := List.dropLast_append_getLast? x hx
      rw [← hlist, List.mem_append, List.mem_singleton] at he
      rcases he with he | rfl
      · exact .inl (by simpa [Shared.setList] using he)
      · exact .inr (by simp [Pc.carries])
    · exact .inl (by simpa [Shared.setList, hk] using he)
  | take k' k'' rest hpc hs hl =>
    subst hs hl
    by_cases hk : k = k'
    · subst hk
      exact .inr (by simpa [Pc.carries] using he)
    · exact .inl (by simpa [Shared.setList, hk] using he)
  | signal k' x _ _ _ hs =>
    subst hs
    exact .inl (by cases k' <;> exact he)

/-- An entry that is carried is carried on or signalled. -/
theorem ListMove.carry (m : ListMove i a s l s₁ l₁) (he : (k, e) ∈ l.pc.carries) :
    (k, e) ∈ l₁.pc.carries ∨ s₁.signalled (k, e) = true := by
  have hnotify : ∀ {x : Kind × ℕ}, l.pc.waitsOn ≠ some x := by
    intro x hx
    obtain ⟨pending, rest, hpc, -⟩ := notifying_of_carries he
    rw [hpc] at hx
    cases hx
  cases m with
  | quiet _ _ _ _ hcarry => exact .inl (hcarry.symm ▸ he)
  | finish _ _ hwait | leave _ _ hwait | leaveThread _ hwait => exact absurd hwait hnotify
  | push _ _ hpc | pop _ _ hpc | take _ _ _ hpc =>
    rw [hpc] at he
    exact absurd he List.not_mem_nil
  | signal k' x pending rest hpc hs hl =>
    subst hs hl
    rw [hpc] at he
    obtain ⟨y, hy, heq⟩ := List.mem_map.1 he
    cases heq
    rcases List.mem_cons.1 hy with rfl | hy
    · exact .inr (signal_signalled k e)
    · exact .inl (List.mem_map_of_mem hy)

theorem ListMove.new_entry (m : ListMove i a s l s₁ l₁) (he : e ∈ s₁.waiting k) :
    e ∈ s.waiting k ∨ e = ⟨s.regs, i⟩ ∧ l₁.pc.waitsOn = some (k, s.regs) := by
  rcases m.mem_waiting he with hold | ⟨hei, hwait⟩
  · exact .inl hold
  cases m with
  | push k' deadline hpc hs hl =>
    subst hl
    have hreg : (k', s.regs) = (k, e.reg) := by
      cases k' <;> cases deadline <;> exact Option.some.inj hwait
    obtain ⟨rfl, hr⟩ := Prod.mk.inj hreg
    exact .inr ⟨by rw [hr, ← hei], hr ▸ hwait⟩
  | quiet hlist | finish _ _ _ _ _ hlist => exact .inl (hlist ▸ he)
  | leave _ _ _ hwait₁ | leaveThread _ _ hwait₁ =>
    rw [hwait₁] at hwait
    cases hwait
  | pop _ _ _ _ _ hl | take _ _ _ _ _ hl | signal _ _ _ _ _ _ hl =>
    subst hl
    cases hwait

theorem ListMove.regs_le (m : ListMove i a s l s₁ l₁) : s.regs ≤ s₁.regs := by
  cases m with
  | quiet _ _ hregs | finish _ _ _ _ _ _ _ hregs | leave _ _ _ _ _ _ _ hregs
    | leaveThread _ _ _ _ _ _ hregs => exact hregs.ge
  | push _ _ _ hs =>
    subst hs
    exact Nat.le_succ _
  | pop _ _ _ _ hs | take _ _ _ _ hs =>
    subst hs
    exact Nat.le_refl _
  | signal k' _ _ _ _ hs =>
    subst hs
    cases k' <;> exact Nat.le_refl _

/-! ### Every wait that sleeps is covered -/

/-- The agent is in `wait_block` or `wait_block_timeout`, past its push, and is on its way to a
park. -/
def Pc.parks : Pc ι → Bool
  | .drop (.sync _) _ | .dropping (.sync _) _ | .parkNow _ _ | .park _ _ => true
  | _ => false

omit [DecidableEq ι] in
theorem waitsOn_of_parks {p : Pc ι} (h : p.parks = true) : ∃ r, p.waitsOn = some (.sync, r) := by
  cases p with
  | drop z | dropping z => cases z <;> first | exact ⟨_, rfl⟩ | cases h
  | parkNow | park => exact ⟨_, rfl⟩
  | _ => cases h

theorem advance_parks (h : advance i s l = some (s₁, l₁)) (hp₁ : l₁.pc.parks = true) :
    (l.pc.parks = true ∧ s₁.waiting = s.waiting ∧
      ∀ x, s.signalled x = true → s₁.signalled x = true) ∨
    ∃ e ∈ s₁.waiting .sync, e.agent = i := by
  cases hp : l.pc with
  | ready => simp [advance, hp] at h
  | register k deadline =>
    simp only [advance, hp] at h
    cases h
    cases k
    · cases hp₁
    · exact .inr ⟨⟨s.regs, i⟩, by simp [Shared.push, Shared.setList], rfl⟩
    · cases deadline <;> cases hp₁
  | spawnTimer =>
    simp only [advance, hp] at h
    cases h
    cases hp₁
  | drop z r =>
    simp only [advance, hp] at h
    obtain ⟨m, lm, hm, rfl, rfl⟩ := lift_eq_some h
    -- the unlock of the mutex may signal, and clears nothing
    refine .inl ⟨by cases z <;> exact hp₁, rfl, fun x hx => ?_⟩
    obtain ⟨k, e⟩ := x
    cases k with
    | spin | async => exact hx
    | sync => exact Mutex.step_signals hm (.inr rfl) (by rintro ⟨⟩) (.unpark e.agent) hx
  | dropping z r =>
    simp only [advance, hp] at h
    cases h
    rcases z with _ | (_ | _) | _ | _
    · cases hp₁
    · exact .inl ⟨rfl, rfl, fun _ => id⟩
    · exact .inl ⟨rfl, rfl, fun _ => id⟩
    · cases hp₁
    · cases hp₁
  | parkNow d r =>
    simp only [advance, hp] at h
    cases h
    exact .inl ⟨rfl, rfl, fun _ => id⟩
  | parkCheck d r =>
    simp only [advance, hp] at h
    cases h
    dsimp only [Local.goto_pc] at hp₁
    split at hp₁
    · rename_i hany
      -- it parks again because its entry is still in the list
      obtain ⟨e, he, hei⟩ := List.any_eq_true.1 hany
      exact .inr ⟨e, he, by simpa using hei⟩
    · cases hp₁
  | park deadline r =>
    simp only [advance, hp] at h
    split at h <;> cases deadline <;> cases h <;> cases hp₁
  | load deadline =>
    simp only [advance, hp] at h
    split at h <;> cases deadline <;> cases h <;> cases hp₁
  | relock w timedOut =>
    cases w <;> simp only [advance, hp] at h <;> obtain ⟨m, lm, -, -, rfl⟩ := lift_eq_some h <;>
      cases hp₁
  | notifyOne k' =>
    simp only [advance, hp] at h
    split at h <;> cases h
    · cases hp₁
    · cases k' <;> cases hp₁
  | notifying k' pending rest =>
    rcases pending with _ | ⟨e, pending⟩
    · rcases rest with _ | ⟨k', rest⟩ <;> simp only [advance, hp] at h <;> cases h <;> cases hp₁
    · simp only [advance, hp] at h
      cases h
      cases hp₁
  | _ =>
    simp only [advance, hp] at h
    split at h <;> cases h <;> cases hp₁

/-- A thread on its way to a park was so before, with the same lists and at least the same signals,
or it has an entry in the list. -/
theorem step_parks (hl : l.Shape) (h : step i a s l = some (s₁, l₁)) (hp₁ : l₁.pc.parks = true) :
    (l.pc.parks = true ∧ s₁.waiting = s.waiting ∧
      ∀ x, s.signalled x = true → s₁.signalled x = true) ∨
    ∃ e ∈ s₁.waiting .sync, e.agent = i := by
  rcases step_pc h with ⟨-, hadv⟩ | ⟨hbusy, b, hb, hlift⟩ | ⟨hnone | ⟨d, r, hpc⟩, -⟩
  · exact advance_parks hadv hp₁
  · obtain ⟨m, lm, hm, rfl, rfl⟩ := lift_eq_some hlift
    refine .inl ⟨hp₁, rfl, fun x hx => ?_⟩
    obtain ⟨k, e⟩ := x
    rcases hl.busy hbusy with hp | ⟨z, r, hp, hquiet⟩ | ⟨timedOut, hp⟩
    · rw [hp] at hp₁; cases hp₁
    · cases k with
      | spin | async => exact hx
      | sync => exact Mutex.step_signals hm (.inl hquiet) hb (.unpark e.agent) hx
    · rw [hp] at hp₁; cases hp₁
  · obtain ⟨r, hr⟩ := waitsOn_of_parks hp₁
    rw [hr] at hnone
    cases hnone
  · rw [hpc] at hp₁
    cases hp₁

/-- The entry is in its list, taken by a notification that has still to signal it, or signalled. -/
def Held (c : Config ι (Shared ι R D) (Local ι R)) (k : Kind) (e : Entry ι) : Prop :=
  e ∈ c.shared.waiting k ∨ (∃ j, (k, e) ∈ (c.loc j).pc.carries) ∨
    c.shared.signalled (k, e) = true

theorem step_signalled (hl : (c.loc i).Shape) (hreg : Registered c)
    (h : step i a c.shared (c.loc i) = some (s₁, l₁)) (hne : e.agent ≠ i)
    (he : c.shared.signalled (k, e) = true) : s₁.signalled (k, e) = true := by
  have hmove : WaitList.Move False owner (fun _ => False) i (view (fun _ => True) c.shared)
      ((c.loc i).pc.role i) (view (fun _ => True) s₁) (l₁.pc.role i) :=
    step_move hl (fun k r hw e he her => ((hreg.wait i k r hw).2 k e he her).2)
      (fun _ _ _ => .inl trivial) h
  rcases hmove.signalled he with hkeep | ⟨hown, -⟩
  · exact hkeep
  · exact absurd (Option.some.inj hown) hne

theorem Held.step (hl : (c.loc i).Shape) (hreg : Registered c)
    (h : step i a c.shared (c.loc i) = some (s₁, l₁)) (hne : e.agent ≠ i) (hheld : Held c k e) :
    Held (c.set i s₁ l₁) k e := by
  have hm := step_list hl h
  rcases hheld with hlist | ⟨j, hj⟩ | hsig
  · rcases hm.keep hreg hlist hne with hstay | htaken
    · exact .inl hstay
    · exact .inr (.inl ⟨i, by simpa using htaken⟩)
  · by_cases hji : j = i
    · subst hji
      rcases hm.carry hj with hstay | hsig
      · exact .inr (.inl ⟨j, by simpa using hstay⟩)
      · exact .inr (.inr hsig)
    · exact .inr (.inl ⟨j, by rwa [Config.set_loc_of_ne hji]⟩)
  · exact .inr (.inr (step_signalled hl hreg h hne hsig))

/-- Every wait that sleeps is covered: by its own entry, or, if its thread is blocked, by any entry
of the thread. -/
structure Covered (c : Config ι (Shared ι R D) (Local ι R)) : Prop where
  entry : ∀ i k r, (c.loc i).pc.waitsOn = some (k, r) → k ≠ .sync → Held c k ⟨r, i⟩
  thread : ∀ i, (c.loc i).pc.parks = true → ∃ e, e.agent = i ∧ Held c .sync e

namespace Covered

/-- The mover's own wait stays covered. -/
theorem entry_self (h : Covered c) (m : ListMove i a c.shared (c.loc i) s₁ l₁)
    (hw : l₁.pc.waitsOn = some (k, r)) (hk : k ≠ .sync) : Held (c.set i s₁ l₁) k ⟨r, i⟩ := by
  cases m with
  | quiet hlist hflags hregs hwait hcarry =>
    rcases h.entry i k r (hwait ▸ hw) hk with hin | ⟨j, hj⟩ | hsig
    · exact .inl (by rwa [Config.set_shared, hlist])
    · refine .inr (.inl ⟨j, ?_⟩)
      by_cases hji : j = i
      · subst hji
        rwa [Config.set_loc_self, hcarry]
      · rwa [Config.set_loc_of_ne hji]
    · refine .inr (.inr ?_)
      cases k with
      | sync => exact absurd rfl hk
      | spin | async => simpa only [Config.set_shared, Shared.signalled, hflags] using hsig
  | push k' deadline hpc hs hl =>
    subst hs hl
    have hreg : (k', c.shared.regs) = (k, r) := by
      cases k' <;> cases deadline <;> exact Option.some.inj hw
    obtain ⟨rfl, rfl⟩ := Prod.mk.inj hreg
    exact .inl (by simp [Shared.push, Shared.setList])
  | finish _ _ _ hwait₁ | leave _ _ _ hwait₁ | leaveThread _ _ hwait₁ =>
    rw [hwait₁] at hw
    cases hw
  | pop _ _ _ _ _ hl | take _ _ _ _ _ hl | signal _ _ _ _ _ _ hl =>
    subst hl
    cases hw

theorem thread_self (h : Covered c) (hl : (c.loc i).Shape)
    (hs : step i a c.shared (c.loc i) = some (s₁, l₁)) (hp : l₁.pc.parks = true) :
    ∃ e, e.agent = i ∧ Held (c.set i s₁ l₁) .sync e := by
  rcases step_parks hl hs hp with ⟨hbefore, hlist, hsignals⟩ | ⟨e, he, hei⟩
  · obtain ⟨e, hei, hheld⟩ := h.thread i hbefore
    refine ⟨e, hei, ?_⟩
    rcases hheld with hin | ⟨j, hj⟩ | hsig
    · exact .inl (by rwa [Config.set_shared, hlist])
    · refine .inr (.inl ⟨j, ?_⟩)
      by_cases hji : j = i
      · subst hji
        obtain ⟨pending, rest, hpc, -⟩ := notifying_of_carries hj
        rw [hpc] at hbefore
        cases hbefore
      · rwa [Config.set_loc_of_ne hji]
    · exact .inr (.inr (hsignals _ hsig))
  · exact ⟨e, hei, .inl he⟩

theorem step (h : Covered c) (hl : (c.loc i).Shape) (hreg : Registered c)
    (hs : Condvar.step i a c.shared (c.loc i) = some (s₁, l₁)) : Covered (c.set i s₁ l₁) := by
  refine ⟨fun j k r hw hk => ?_, fun j hp => ?_⟩
  · by_cases hji : j = i
    · subst hji
      rw [Config.set_loc_self] at hw
      exact h.entry_self (step_list hl hs) hw hk
    · rw [Config.set_loc_of_ne hji] at hw
      exact (h.entry j k r hw hk).step hl hreg hs hji
  · by_cases hji : j = i
    · subst hji
      rw [Config.set_loc_self] at hp
      exact h.thread_self hl hs hp
    · rw [Config.set_loc_of_ne hji] at hp
      obtain ⟨e, rfl, hheld⟩ := h.thread j hp
      exact ⟨e, rfl, hheld.step hl hreg hs hji⟩

end Covered

/-- **Every wait that sleeps is covered**, with or without a deadline. -/
theorem covered (h : sys.Reachable (init plat value regs) c) : Covered c := by
  refine h.invariant ⟨nofun, nofun⟩ (fun c i a s l hc ih _ hs => ?_) ?_
  · exact ih.step (shape hc i) (registered_inv hc) hs
  · intro c e s _ ih _ hs
    simp only [sys, Option.map_eq_some_iff] at hs
    obtain ⟨p, hp, rfl⟩ := hs
    have hheld : ∀ k x, Held c k x → Held ⟨c.shared.setPlat p, c.loc⟩ k x := by
      rintro k x (hin | hcarry | hsig)
      · exact .inl hin
      · exact .inr (.inl hcarry)
      · refine .inr (.inr ?_)
        cases k with
        | spin | async => exact hsig
        | sync => exact Platform.signalled_apply (x := .unpark x.agent) hp hsig
    refine ⟨fun i k r hw hk => hheld k _ (ih.entry i k r hw hk), fun i hi => ?_⟩
    obtain ⟨x, hx, hh⟩ := ih.thread i hi
    exact ⟨x, hx, hheld _ x hh⟩

/-! ### The order of the numbers -/

/-- The wait of an agent is its newest. -/
theorem newest_wait (h : sys.Reachable (init plat value regs) c)
    (hw : (c.loc i).pc.waitsOn = some (k, r)) {k' : Kind} (he : e ∈ c.shared.waiting k')
    (hei : e.agent = i) : e.reg ≤ r := by
  revert i k r k' e
  refine h.invariant (I := fun c => ∀ {i k r e}, (c.loc i).pc.waitsOn = some (k, r) →
    ∀ {k'}, e ∈ c.shared.waiting k' → e.agent = i → e.reg ≤ r) (fun hw => by cases hw) ?_ ?_
  · intro c m a s l hc ih _ hs i k r e hw k' he hei
    have hm := step_list (shape hc m) hs
    have hreg := registered_inv hc
    rcases hm.new_entry he with hold | ⟨rfl, hwait⟩
    · by_cases him : i = m
      · subst him
        rw [Config.set_loc_self] at hw
        cases hm with
        | quiet _ _ _ hwait => exact ih (hwait ▸ hw) hold hei
        | push k₁ deadline hpc hs hl =>
          subst hl
          have hnew : (k₁, c.shared.regs) = (k, r) := by
            cases k₁ <;> cases deadline <;> exact Option.some.inj hw
          obtain ⟨-, rfl⟩ := Prod.mk.inj hnew
          -- a new wait has a larger number than every entry
          exact (hreg.lt k' e hold).le
        | finish _ _ _ hwait₁ | leave _ _ _ hwait₁ | leaveThread _ _ hwait₁ =>
          rw [hwait₁] at hw
          cases hw
        | pop _ _ _ _ _ hl | take _ _ _ _ _ hl | signal _ _ _ _ _ _ hl =>
          subst hl
          cases hw
      · rw [Config.set_loc_of_ne him] at hw
        exact ih hw hold hei
    · dsimp only at hei
      subst hei
      rw [Config.set_loc_self, hwait] at hw
      cases hw
      exact Nat.le_refl _
  · intro c e s _ ih _ hs i k r x hw k' hx hxi
    simp only [sys, Option.map_eq_some_iff] at hs
    obtain ⟨p, -, rfl⟩ := hs
    exact ih hw hx hxi

/-- Every entry of list `k` has number `t` or a later one. -/
def NewIn (t : ℕ) (c : Config ι (Shared ι R D) (Local ι R)) (k : Kind) : Prop :=
  ∀ e ∈ c.shared.waiting k, t ≤ e.reg

theorem NewIn.step {t : ℕ} (h : NewIn t c k) (ht : t ≤ c.shared.regs)
    (m : ListMove i a c.shared (c.loc i) s₁ l₁) : NewIn t (c.set i s₁ l₁) k := by
  intro e he
  rcases m.new_entry he with hold | ⟨rfl, -⟩
  · exact h e hold
  · exact ht

theorem regs_mono (h₀ : sys.Reachable (init plat value regs) c₀) (h : sys.Reachable c₀ c) :
    c₀.shared.regs ≤ c.shared.regs := by
  refine h.invariant (I := fun c => c₀.shared.regs ≤ c.shared.regs) (Nat.le_refl _) ?_ ?_
  · intro c i a s l hc ih _ hs
    exact ih.trans (step_list (shape (h₀.trans hc) i) hs).regs_le
  · intro c e s _ ih _ hs
    simp only [sys, Option.map_eq_some_iff] at hs
    obtain ⟨p, -, rfl⟩ := hs
    exact ih

theorem newIn_mono {t : ℕ} (h₀ : sys.Reachable (init plat value regs) c₀) (hnew : NewIn t c₀ k)
    (ht : t ≤ c₀.shared.regs) (h : sys.Reachable c₀ c) : NewIn t c k := by
  refine h.invariant (I := fun c => NewIn t c k) hnew ?_ ?_
  · intro c i a s l hc ih _ hs
    exact ih.step (ht.trans (regs_mono h₀ hc)) (step_list (shape (h₀.trans hc) i) hs)
  · intro c e s _ ih _ hs
    simp only [sys, Option.map_eq_some_iff] at hs
    obtain ⟨p, -, rfl⟩ := hs
    exact ih

/-! ### The visits of `notify_all` -/

/-- Agent `n` is in a `notify_all`, and the lists it has taken have only entries from number `t` on;
or the call has returned, and so have all. -/
def Visiting (t : ℕ) (n : ι) (c : Config ι (Shared ι R D) (Local ι R)) : Prop :=
  (∃ k pending rest, (c.loc n).pc = .notifying k pending rest ∧ ∀ k' ∉ rest, NewIn t c k') ∨
    (c.loc n).pc = .ready ∧ ∀ k', NewIn t c k'

theorem notifying_step {pending : List (Entry ι)} {rest : List Kind} (hl : l.Shape)
    (hp : l.pc = .notifying k pending rest) (h : step i a s l = some (s₁, l₁)) :
    advance i s l = some (s₁, l₁) := by
  have hrest : l.mx.pc.atRest = true := by simpa only [Local.Shape, hp] using hl
  cases a <;> simp [step, hrest, hp, Local.atRest] at h
  exact h

theorem Visiting.advance {t : ℕ} {pending : List (Entry ι)} {rest : List Kind}
    (hp : (c.loc i).pc = .notifying k pending rest) (hnew : ∀ k' ∉ rest, NewIn t c k')
    (h : advance i c.shared (c.loc i) = some (s₁, l₁)) : Visiting t i (c.set i s₁ l₁) := by
  rcases pending with _ | ⟨e, pending⟩
  · rcases rest with _ | ⟨k', rest⟩ <;> simp only [Condvar.advance, hp] at h <;> cases h
    · exact .inr ⟨by simp, fun k' => hnew k' List.not_mem_nil⟩
    · refine .inl ⟨k', c.shared.waiting k', rest, by simp, fun k₁ hk₁ e he => ?_⟩
      by_cases hkk : k₁ = k'
      · subst hkk
        simp [Shared.setList] at he
      · exact hnew k₁ (by simp [hkk, hk₁]) e (by simpa [Shared.setList, hkk] using he)
  · simp only [Condvar.advance, hp] at h
    cases h
    refine .inl ⟨k, pending, rest, by simp, fun k₁ hk₁ x hx => hnew k₁ hk₁ x ?_⟩
    cases k <;> exact hx

/-- **The lists that a `notify_all` has taken have only entries pushed after its start.** -/
theorem visiting {n : ι} (h₀ : sys.Reachable (init plat value regs) c₀)
    (hn : (c₀.loc n).pc = notifyAll) (h : sys.Reach (fun c _ => (c.loc n).pc ≠ .ready) c₀ c) :
    Visiting c₀.shared.regs n c := by
  refine h.invariant (I := fun c => Visiting c₀.shared.regs n c) ?_ ?_ ?_
  · exact .inl ⟨.spin, [], [.spin, .sync, .async], hn, fun k hk => by cases k <;> simp at hk⟩
  · intro c i a s l hc ih hP hs
    have hr := h₀.trans hc.reachable
    rcases ih with ⟨k, pending, rest, hp, hnew⟩ | ⟨hready, -⟩
    · by_cases hni : n = i
      · subst hni
        exact Visiting.advance hp hnew (notifying_step (shape hr n) hp hs)
      · refine .inl ⟨k, pending, rest, by rwa [Config.set_loc_of_ne hni], fun k' hk' => ?_⟩
        exact (hnew k' hk').step (regs_mono h₀ hc.reachable) (step_list (shape hr i) hs)
    · exact absurd hready hP
  · intro c e s _ ih _ hs
    simp only [sys, Option.map_eq_some_iff] at hs
    obtain ⟨p, -, rfl⟩ := hs
    exact ih

/-! ### The push comes before the guard is dropped -/

theorem register_step {deadline : Option ℕ} (hl : l.Shape) (hp : l.pc = .register k deadline)
    (h : step i a s l = some (s₁, l₁)) : s₁ = s.push k i := by
  have hg : l.mx.pc = .guard := by simpa only [Local.Shape, hp] using hl
  cases a <;> simp [step, advance, hp, hg, Local.atRest, Mutex.Pc.atRest] at h
  exact h.1.symm

/-- A wait that has not pushed its entry gets the next number. -/
theorem register_or_pushed (h₀ : sys.Reachable (init plat value regs) c₀) {deadline : Option ℕ}
    (hp : (c₀.loc i).pc = .register k deadline) (h : sys.Reachable c₀ c) :
    (c.loc i).pc = .register k deadline ∧ c.shared.regs = c₀.shared.regs ∨
      c₀.shared.regs < c.shared.regs := by
  refine h.invariant (I := fun c => (c.loc i).pc = .register k deadline ∧
    c.shared.regs = c₀.shared.regs ∨ c₀.shared.regs < c.shared.regs) (.inl ⟨hp, rfl⟩) ?_ ?_
  · intro c m a s l hc ih _ hs
    have hr := h₀.trans hc
    have hm := step_list (shape hr m) hs
    rcases ih with ⟨hreg, hregs⟩ | hlt
    swap
    · exact .inr (hlt.trans_le hm.regs_le)
    have hguard : ∀ {j k' d}, (c.loc j).pc = .register k' d → (c.loc j).mx.pc.hasGuard = true := by
      intro j k' d hj
      have hl := shape hr j
      simp only [Local.Shape, hj] at hl
      rw [hl]
      rfl
    by_cases him : i = m
    · subst him
      rw [register_step (shape hr i) hreg hs]
      exact .inr (Nat.lt_succ_of_le hregs.ge)
    · rw [Config.set_loc_of_ne him]
      refine .inl ⟨hreg, ?_⟩
      cases hm with
      | quiet _ _ hsame | finish _ _ _ _ _ _ _ hsame | leave _ _ _ _ _ _ _ hsame
        | leaveThread _ _ _ _ _ _ hsame => exact hsame.trans hregs
      | push k' d hpc =>
        -- another wait that pushes would have the guard as well
        exact absurd ((Mutex.owned (mutex_reachable hr)).unique i m (hguard hreg) (hguard hpc)) him
      | pop _ _ _ _ hs | take _ _ _ _ hs =>
        subst hs
        exact hregs
      | signal k' _ _ _ _ hs =>
        subst hs
        cases k' <;> exact hregs
  · intro c e s _ ih _ hs
    simp only [sys, Option.map_eq_some_iff] at hs
    obtain ⟨p, -, rfl⟩ := hs
    exact ih

/-- **A wait pushes its entry before anybody else gets the guard.** -/
theorem registered_before (h₀ : sys.Reachable (init plat value regs) c₀) {deadline : Option ℕ}
    (hp : (c₀.loc i).pc = .register k deadline) (h : sys.Reachable c₀ c) (hne : j ≠ i)
    (hj : (c.loc j).mx.pc.hasGuard = true) : c₀.shared.regs < c.shared.regs := by
  rcases register_or_pushed h₀ hp h with ⟨hreg, -⟩ | hlt
  · have hr := h₀.trans h
    have hl := shape hr i
    simp only [Local.Shape, hreg] at hl
    have hi : (c.loc i).mx.pc.hasGuard = true := by rw [hl]; rfl
    exact absurd ((Mutex.owned (mutex_reachable hr)).unique j i hj hi) hne
  · exact hlt

/-! ### The waits that are reached -/

/-- Wait `r` of agent `i`, with its entry pushed in list `k`, is answered: the entry is in no list,
and its signal is there or will be sent by a notification in progress.  A blocked thread has no
entry in the list; as long as it is on its way to a park, its token is there, or a notification in
progress will set it. -/
def Answered (c : Config ι (Shared ι R D) (Local ι R)) (i : ι) (k : Kind) (r : ℕ) : Prop :=
  ⟨r, i⟩ ∉ c.shared.waiting k ∧ match k with
    | .spin | .async => c.shared.flags r = true ∨ ∃ j, (k, ⟨r, i⟩) ∈ (c.loc j).pc.carries
    | .sync => (∀ e ∈ c.shared.waiting .sync, e.agent ≠ i) ∧
        ((c.loc i).pc.parks = true → c.shared.mx.plat.token i = true ∨
          ∃ j e, (.sync, e) ∈ (c.loc j).pc.carries ∧ e.agent = i)

/-- A wait whose thread has new entries only, in every list, is answered. -/
theorem answered_of_newIn {t : ℕ} (h : sys.Reachable (init plat value regs) c)
    (hnew : ∀ k, NewIn t c k) (hw : (c.loc i).pc.waitsOn = some (k, r)) (hr : r < t) :
    Answered c i k r := by
  have hnone : ∀ k', ∀ e ∈ c.shared.waiting k', e.agent ≠ i := by
    intro k' e he hei
    have hle := newest_wait h hw he hei
    have hge := hnew k' e he
    omega
  have hunlisted : ⟨r, i⟩ ∉ c.shared.waiting k := fun he => hnone k _ he rfl
  refine ⟨hunlisted, ?_⟩
  cases k with
  | spin | async =>
    rcases (covered h).entry i _ r hw (by decide) with hlist | hcarry | hsig
    · exact absurd hlist hunlisted
    · exact .inr hcarry
    · exact .inl hsig
  | sync =>
    refine ⟨hnone .sync, fun hp => ?_⟩
    obtain ⟨e, rfl, hlist | ⟨j, hcarry⟩ | hsig⟩ := (covered h).thread i hp
    · exact absurd rfl (hnone .sync e hlist)
    · exact .inr ⟨j, e, hcarry, rfl⟩
    · exact .inl hsig

/-- **`notify_all` reaches every waiter.**  Agent `n` starts a `notify_all` in `c₀`, the call
returns in `c₁`, and `c₂` is any later configuration.  A wait in progress in `c₂` that was
registered in `c₀` is answered.  So is a wait that was called under the lock and whose lock another
agent has got before `c₀`: it was registered by then. -/
theorem notify_all_answers {n : ι} (h₀ : sys.Reachable (init plat value regs) c₀)
    (hn : (c₀.loc n).pc = notifyAll) (h₁ : sys.Reach (fun c _ => (c.loc n).pc ≠ .ready) c₀ c₁)
    (hend : (c₁.loc n).pc = .ready) (h₂ : sys.Reachable c₁ c₂)
    (hw : (c₂.loc i).pc.waitsOn = some (k, r)) :
    (r < c₀.shared.regs → Answered c₂ i k r) ∧
    ∀ {ca cb : Config ι (Shared ι R D) (Local ι R)} {deadline : Option ℕ} {j : ι},
      sys.Reachable (init plat value regs) ca → (ca.loc i).pc = .register k deadline →
      sys.Reachable ca cb → j ≠ i → (cb.loc j).mx.pc.hasGuard = true → sys.Reachable cb c₀ →
      r = ca.shared.regs → Answered c₂ i k r := by
  have hr₁ := h₀.trans h₁.reachable
  have hanswered : r < c₀.shared.regs → Answered c₂ i k r := by
    intro hlt
    refine answered_of_newIn (hr₁.trans h₂) (fun k' => ?_) hw hlt
    rcases visiting h₀ hn h₁ with ⟨k'', pending, rest, hp, -⟩ | ⟨-, hnew⟩
    · rw [hend] at hp
      cases hp
    · exact newIn_mono hr₁ (hnew k') (regs_mono h₀ h₁.reachable) h₂
  refine ⟨hanswered, fun {ca cb d j} ha hp hab hji hg hb hra => hanswered ?_⟩
  rw [hra]
  exact (registered_before ha hp hab hji hg).trans_le (regs_mono (ha.trans hab) hb)

/-- A run in which one thread waits and another notifies all. -/
theorem notify_all_answers_wait :
    ∃ c₂ : Config Bool (Shared Bool Unit Unit) (Local Bool Unit),
      (c₂.loc false).pc = .park none 0 ∧ Answered c₂ false .sync 0 := by
  obtain ⟨c₀, h₀, hend⟩ := System.exists_of_run (M := sys)
    (c := init (ι := Bool) (R := Unit) (.new .native) () fun _ => ())
    (p := fun c₀ => decide ((c₀.loc true).pc = notifyAll ∧ 0 < c₀.shared.regs ∧
      sys.Along (fun c _ => (c.loc true).pc ≠ .ready) c₀ (List.replicate 5 (.agent true .step)) ∧
      (sys.run c₀ (List.replicate 5 (.agent true .step))).any (fun c₁ => decide
        ((c₁.loc true).pc = .ready ∧ (c₁.loc false).pc = .park none 0)) = true))
    (waitBlock false ++ [.agent true .notifyAll]) (by decide)
  simp only [decide_eq_true_eq] at hend
  obtain ⟨hstart, hregs, halong, hany⟩ := hend
  obtain ⟨c₁, h₁, hpc⟩ := System.exists_of_along _ hany halong
  obtain ⟨hready, hpark⟩ := of_decide_eq_true hpc
  exact ⟨c₁, hpark, (notify_all_answers h₀ hstart h₁ hready .refl (by rw [hpark]; rfl)).1 hregs⟩

end Condvar

end WasmSafeThread
