import WasmSafeThread.Condvar.Registration
import WasmSafeThread.Mutex.Waiting

/-!
# Waiting for a notification

The waiting lists of a condition variable follow the discipline of `WaitList`.  The waits that the
discipline follows are those without a deadline; a timed wait leaves its entry in a list and takes
it back by itself, so the lists are not closed.  Which lists are *blocked* is not the condition
variable's business: its user says so (`blocks`), and has to show that an untimed wait registers
only in a list that is blocked or owed a visit.

* `Pc.sleeps` : the untimed wait in progress.
* `view`, `role` : what the discipline sees.
* `step_move` : every step follows the discipline.
* `kept` : a wait's entry is in its list, on its way, or signalled.
-/

namespace WasmSafeThread

namespace Condvar

open WaitList

variable {ι R D : Type*}

/-! ### What the discipline sees -/

/-- The wait has no deadline. -/
def Sleep.untimed : Sleep → Bool
  | .spin none | .sync none | .async => true
  | _ => false

/-- The wait without a deadline that is in progress, from its push to its wake-up: the list of its
entry, and its number. -/
def Pc.sleeps : Pc ι → Option (Kind × ℕ)
  | .drop z r | .dropping z r => if z.untimed then some (z.kind, r) else none
  | .load none r => some (.spin, r)
  | .park none r => some (.sync, r)
  | .await r => some (.async, r)
  | _ => none

/-- The list of the wait in progress. -/
def Pc.kind : Pc ι → Option Kind
  | .register k _ => some k
  | p => p.waitsOn.map Prod.fst

/-- The wait that pushed entry `e` in list `k` has a wake-up waiting for it. -/
def Shared.signalled (s : Shared ι R D) : Kind × Entry ι → Bool
  | (.sync, e) => s.mx.plat.token e.agent
  | (.spin, e) | (.async, e) => s.flags e.reg

/-- The agent that a handle wakes. -/
def owner (h : Kind × Entry ι) : Option ι := some h.2.agent

/-- The waiting lists, of which `blocks` are blocked. -/
def view (blocks : Kind → Prop) (s : Shared ι R D) : View Kind (Kind × Entry ι) where
  locked _ := false
  list k := (s.waiting k).map fun e => (k, e)
  signalled := s.signalled
  blocks := blocks

/-- The role of agent `i` at a control point. -/
def Pc.role (i : ι) : Pc ι → Role Kind (Kind × Entry ι)
  | .notifying k pending rest => .waking (pending.map fun e => (k, (k, e))) rest
  | p => match p.sleeps with
    | some (k, r) => .waiting k (k, ⟨r, i⟩)
    | none => .out

variable {i : ι} {s s₁ : Shared ι R D} {l l₁ : Local ι R} {p : Pc ι} {blocks : Kind → Prop}
  {owed : Kind → Prop} {k : Kind} {r : ℕ}

theorem role_of_sleeps (h : p.sleeps = some (k, r)) : p.role i = .waiting k (k, ⟨r, i⟩) := by
  cases p with
  | notifying => cases h
  | _ => simp only [Pc.role, h]

theorem waitsOn_of_sleeps (h : p.sleeps = some (k, r)) : p.waitsOn = some (k, r) := by
  cases p with
  | drop z | dropping z =>
    simp only [Pc.sleeps] at h
    split at h <;> cases h
    rfl
  | load deadline | park deadline =>
    cases deadline <;> cases h
    rfl
  | await => exact h
  | _ => cases h

theorem start_sleeps (z : Sleep) : (z.start (ι := ι) r).sleeps = (Pc.drop (ι := ι) z r).sleeps := by
  rcases z with (_ | _) | (_ | _) | _ | _ <;> rfl

theorem role_start (z : Sleep) : (z.start r).role i = (Pc.drop z r).role i := by
  rcases z with (_ | _) | (_ | _) | _ | _ <;> rfl

theorem role_registered (k : Kind) (deadline : Option ℕ) :
    (registered r k deadline).role i =
      if deadline = none then .waiting k (k, ⟨r, i⟩) else .out := by
  cases k <;> cases deadline <;> rfl

theorem view_congr (hw : s₁.waiting = s.waiting) (hf : s₁.flags = s.flags)
    (ht : s₁.mx.plat.token = s.mx.plat.token) : view blocks s₁ = view blocks s := by
  have hsig : s₁.signalled = s.signalled := by
    funext ⟨k, e⟩
    cases k <;> simp only [Shared.signalled, hf, ht]
  simp only [view, hw, hsig]

theorem view_signalled (s s₁ : Shared ι R D) (hw : s₁.waiting = s.waiting) :
    view blocks s₁ = { view blocks s with signalled := s₁.signalled } := by
  simp only [view, hw]

theorem view_setList (es : List (Entry ι)) :
    view blocks (s.setList k es) = (view blocks s).setList k (es.map fun e => (k, e)) := by
  simp only [view, View.setList, View.mk.injEq, true_and]
  refine ⟨?_, ?_, trivial⟩
  · funext k'
    by_cases hk : k' = k
    · subst hk; simp [Shared.setList]
    · simp [Shared.setList, hk]
  · funext x
    obtain ⟨k', e⟩ := x
    cases k' <;> rfl

theorem view_push : view blocks (s.push k i) =
    (view blocks s).setList k ((view blocks s).list k ++ [(k, ⟨s.regs, i⟩)]) := by
  have hlist : view blocks (s.setList k (s.waiting k ++ [⟨s.regs, i⟩])) = _ := view_setList _
  rw [List.map_append] at hlist
  refine Eq.trans ?_ hlist
  exact view_congr rfl rfl rfl

theorem signalled_setFlag (r : ℕ) (h : Kind × Entry ι) (hh : s.signalled h = true) :
    (s.setFlag r).signalled h = true := by
  obtain ⟨k, e⟩ := h
  cases k <;> simp_all [Shared.signalled, Shared.setFlag, Function.update_apply]

theorem clears_of_tokens (hf : s₁.flags = s.flags)
    (ht : ∀ j, s.mx.plat.token j = true → s₁.mx.plat.token j = true ∨ j = i) :
    Clears owner i s.signalled s₁.signalled := by
  intro ⟨k, e⟩ hh
  cases k with
  | spin | async => exact .inl (by rw [Shared.signalled, hf]; exact hh)
  | sync => exact (ht e.agent hh).imp_right fun he => by rw [owner, he]

theorem mem_or_of_eraseP {es : List (Entry ι)} {q : Entry ι → Bool} {e : Entry ι} (he : e ∈ es) :
    q e = true ∨ e ∈ es.eraseP q := by
  by_cases hq : q e = true
  · exact .inl hq
  · exact .inr ((List.mem_eraseP_of_neg hq).2 he)

theorem discard_move {es : List (Entry ι)} (hrole : l.pc.role i = .out) (hrole₁ : l₁.pc.role i = .out)
    (hw : s₁.waiting = (s.setList k es).waiting)
    (hmem : ∀ e ∈ s.waiting k, e.agent = i ∨ e ∈ es) (hsub : es ⊆ s.waiting k)
    (hsg : ∀ h, s.signalled h = true → s₁.signalled h = true) :
    Move False owner owed i (view blocks s) (l.pc.role i) (view blocks s₁) (l₁.pc.role i) := by
  rw [view_signalled _ _ hw, view_setList, hrole, hrole₁]
  refine .discard rfl (fun h hh => ?_) (List.map_subset _ hsub) hsg
  obtain ⟨e, he, rfl⟩ := List.mem_map.1 hh
  rcases hmem e he with hei | hin
  · exact .inl (by rw [owner, hei])
  · exact .inr (List.mem_map_of_mem hin)

variable [DecidableEq ι] {a : Act R D} {b : Mutex.Act R D}

theorem signal_signalled (k : Kind) (e : Entry ι) : (signal s k e).signalled (k, e) = true := by
  cases k <;> simp [signal, Shared.signalled, Shared.setFlag, Shared.setPlat, Mutex.Shared.setPlat,
    Platform.wake]

theorem signalled_signal (k : Kind) (e : Entry ι) (h : Kind × Entry ι)
    (hh : s.signalled h = true) : (signal s k e).signalled h = true := by
  obtain ⟨k', e'⟩ := h
  cases k <;> cases k' <;> simp_all [signal, Shared.signalled, Shared.setFlag, Shared.setPlat,
    Mutex.Shared.setPlat, Platform.wake, Function.update_apply]

/-! ### Where a sleep starts -/

/-- A wait without a deadline starts to sleep when it pushes its entry. -/
theorem advance_sleeps (h : advance i s l = some (s₁, l₁)) (hs : l₁.pc.sleeps = some (k, r)) :
    l.pc.sleeps = some (k, r) ∧ s₁.waiting = s.waiting ∨
      l.pc = .register k none ∧ r = s.regs ∧ s₁ = s.push k i := by
  cases hp : l.pc with
  | ready => simp [advance, hp] at h
  | register k' deadline =>
    simp only [advance, hp] at h
    cases h
    cases k' <;> cases deadline <;> cases hs <;> exact .inr ⟨rfl, rfl, rfl⟩
  | spawnTimer =>
    simp only [advance, hp] at h
    cases h
    cases hs
  | drop z r' =>
    simp only [advance, hp] at h
    obtain ⟨m, lm, -, rfl, rfl⟩ := lift_eq_some h
    exact .inl ⟨hs, rfl⟩
  | dropping z r' =>
    simp only [advance, hp] at h
    cases h
    exact .inl ⟨(start_sleeps z).symm.trans hs, rfl⟩
  | load deadline | park deadline =>
    simp only [advance, hp] at h
    split at h <;> cases deadline <;> cases h <;> first | exact .inl ⟨hs, rfl⟩ | cases hs
  | relock w timedOut =>
    cases w <;> simp only [advance, hp] at h <;> obtain ⟨m, lm, -, -, rfl⟩ := lift_eq_some h <;>
      cases hs
  | notifyOne k' =>
    simp only [advance, hp] at h
    split at h <;> cases h
    · cases hs
    · cases k' <;> cases hs
  | notifying k' pending rest =>
    rcases pending with _ | ⟨e, pending⟩
    · rcases rest with _ | ⟨k', rest⟩ <;> simp only [advance, hp] at h <;> cases h <;> cases hs
    · simp only [advance, hp] at h
      cases h
      cases hs
  | _ =>
    simp only [advance, hp] at h
    split at h <;> cases h <;> cases hs

/-- A wait calls for its registration only when it starts. -/
theorem advance_ne_register (h : advance i s l = some (s₁, l₁)) (deadline : Option ℕ) :
    l₁.pc ≠ .register k deadline := by
  intro hk
  cases hp : l.pc with
  | ready => simp [advance, hp] at h
  | register k' deadline =>
    simp only [advance, hp] at h
    cases h
    cases k' <;> cases deadline <;> cases hk
  | dropping z r' =>
    simp only [advance, hp] at h
    cases h
    rcases z with _ | (_ | _) | _ | _ <;> cases hk
  | drop z r' =>
    simp only [advance, hp] at h
    obtain ⟨m, lm, -, rfl, rfl⟩ := lift_eq_some h
    cases hk
  | load deadline | park deadline =>
    simp only [advance, hp] at h
    split at h <;> cases deadline <;> cases h <;> cases hk
  | relock w timedOut =>
    cases w <;> simp only [advance, hp] at h <;> obtain ⟨m, lm, -, -, rfl⟩ := lift_eq_some h <;>
      cases hk
  | notifyOne k' =>
    simp only [advance, hp] at h
    split at h <;> cases h
    · cases hk
    · cases k' <;> cases hk
  | notifying k' pending rest =>
    rcases pending with _ | ⟨e, pending⟩
    · rcases rest with _ | ⟨k', rest⟩ <;> simp only [advance, hp] at h <;> cases h <;> cases hk
    · simp only [advance, hp] at h
      cases h
      cases hk
  | spawnTimer =>
    simp only [advance, hp] at h
    cases h
    cases hk
  | _ =>
    simp only [advance, hp] at h
    split at h <;> cases h <;> cases hk

/-- An operation is the next one of a call on the condition variable, or of a call on the mutex under
it, or it starts a call, ends one, or wakes a thread. -/
theorem step_pc (h : step i a s l = some (s₁, l₁)) :
    a = .step ∧ advance i s l = some (s₁, l₁) ∨
      l.mx.pc.atRest ≠ true ∧ (∃ b, b ≠ .consume ∧ lift i b s l l.pc = some (s₁, l₁)) ∨
      (l₁.pc.waitsOn = none ∨ ∃ d r, l₁.pc = .parkCheck d r) ∧
        ∀ k deadline, l₁.pc = .register k deadline → a = .wait k deadline := by
  cases a with
  | lock | access | drop | consume =>
    simp only [step] at h
    split at h
    · obtain ⟨m, lm, -, -, rfl⟩ := lift_eq_some h
      exact .inr (.inr ⟨.inl rfl, by rintro _ _ ⟨⟩⟩)
    · cases h
  | wait k deadline =>
    simp only [step, Bool.and_eq_true] at h
    split at h <;> cases h
    exact .inr (.inr ⟨.inl rfl, fun k' d hk => by cases hk; rfl⟩)
  | notifyOne | notifyAll =>
    simp only [step] at h
    split at h <;> cases h
    exact .inr (.inr ⟨.inl rfl, by rintro _ _ ⟨⟩⟩)
  | step =>
    simp only [step] at h
    split at h
    · exact .inl ⟨rfl, h⟩
    · exact .inr (.inl ⟨‹_›, .step, by rintro ⟨⟩, h⟩)
  | spurious =>
    simp only [step] at h
    split at h
    · split at h <;> cases h
      · exact .inr (.inr ⟨.inl rfl, by rintro _ _ ⟨⟩⟩)
      · exact .inr (.inr ⟨.inr ⟨_, _, rfl⟩, by rintro _ _ ⟨⟩⟩)
    · exact .inr (.inl ⟨‹_›, .spurious, by rintro ⟨⟩, h⟩)
  | cancel =>
    simp only [step] at h
    split at h
    · split at h <;> cases h <;> exact .inr (.inr ⟨.inl rfl, by rintro _ _ ⟨⟩⟩)
    · obtain ⟨m, lm, -, -, rfl⟩ := lift_eq_some h
      exact .inr (.inr ⟨.inl rfl, by rintro _ _ ⟨⟩⟩)

theorem step_sleeps (h : step i a s l = some (s₁, l₁)) (hs : l₁.pc.sleeps = some (k, r)) :
    l.pc.sleeps = some (k, r) ∧ s₁.waiting = s.waiting ∨
      l.pc = .register k none ∧ r = s.regs ∧ s₁ = s.push k i := by
  rcases step_pc h with ⟨-, hadv⟩ | ⟨-, b, -, hlift⟩ | ⟨hnone | ⟨d, r', hpc⟩, -⟩
  · exact advance_sleeps hadv hs
  · obtain ⟨m, lm, -, rfl, rfl⟩ := lift_eq_some hlift
    exact .inl ⟨hs, rfl⟩
  · rw [waitsOn_of_sleeps hs] at hnone
    cases hnone
  · rw [hpc] at hs
    cases hs

theorem step_register (h : step i a s l = some (s₁, l₁)) {deadline : Option ℕ}
    (hk : l₁.pc = .register k deadline) : l.pc = .register k deadline ∨ a = .wait k deadline := by
  rcases step_pc h with ⟨-, hadv⟩ | ⟨-, b, -, hlift⟩ | ⟨-, hcall⟩
  · exact absurd hk (advance_ne_register hadv deadline)
  · obtain ⟨m, lm, -, rfl, rfl⟩ := lift_eq_some hlift
    exact .inl hk
  · exact .inr (hcall k deadline hk)

omit [DecidableEq ι] in
theorem kind_of_waitsOn (h : p.waitsOn = some (k, r)) : p.kind = some k := by
  cases p <;> first | exact congrArg (Option.map Prod.fst) h | cases h

omit [DecidableEq ι] in
theorem waitsOn_of_kind (h : p.kind = some k) :
    (∃ deadline, p = .register k deadline) ∨ ∃ r, p.waitsOn = some (k, r) := by
  unfold Pc.kind at h
  split at h
  · cases h
    exact .inl ⟨_, rfl⟩
  · obtain ⟨⟨k', r⟩, hw, rfl⟩ := Option.map_eq_some_iff.1 h
    exact .inr ⟨r, hw⟩

/-- The list of a wait is that of its call. -/
theorem step_kind (hl : l.Shape) (h : step i a s l = some (s₁, l₁)) (hk : l₁.pc.kind = some k) :
    l.pc.kind = some k ∨ ∃ deadline, a = .wait k deadline := by
  rcases waitsOn_of_kind hk with ⟨deadline, hreg⟩ | hwait
  · rcases step_register h hreg with hp | ha
    · exact .inl (by rw [hp]; rfl)
    · exact .inr ⟨deadline, ha⟩
  · obtain ⟨r, hwait⟩ := hwait
    refine .inl ?_
    cases step_list hl h with
    | quiet _ _ _ hsame => exact kind_of_waitsOn (hsame ▸ hwait)
    | push k' deadline hpc _ hl₁ =>
      rw [hl₁] at hwait
      rw [hpc]
      cases k' <;> cases deadline <;> cases hwait <;> rfl
    | finish _ _ _ hnone | leave _ _ _ hnone | leaveThread _ _ hnone =>
      rw [hnone] at hwait
      cases hwait
    | pop _ _ _ _ _ hl₁ | take _ _ _ _ _ hl₁ | signal _ _ _ _ _ _ hl₁ =>
      rw [hl₁] at hwait
      cases hwait

/-! ### The refinement -/

theorem lift_move (h : lift i b s l p = some (s₁, l₁)) (hrole : p.role i = l.pc.role i)
    (hwait : (l.pc.role i).waitsOn = none) :
    Move False owner owed i (view blocks s) (l.pc.role i) (view blocks s₁) (l₁.pc.role i) := by
  obtain ⟨m, lm, hm, rfl, rfl⟩ := lift_eq_some h
  rw [view_signalled s { s with mx := m } rfl, hrole]
  refine .forget hwait (clears_of_tokens rfl fun j hj => ?_)
  exact (Mutex.step_clears hm (.unpark j) hj).imp_right fun hi => (Option.some.inj hi)

theorem lift_signal (h : lift i b s l p = some (s₁, l₁)) (hrole : p.role i = l.pc.role i)
    (hquiet : l.mx.pc.quiet = true ∨ b = .drop) (hb : b ≠ .consume) :
    Move False owner owed i (view blocks s) (l.pc.role i) (view blocks s₁) (l₁.pc.role i) := by
  obtain ⟨m, lm, hm, rfl, rfl⟩ := lift_eq_some h
  rw [view_signalled s { s with mx := m } rfl, hrole]
  refine .signal fun ⟨k, e⟩ hh => ?_
  cases k with
  | spin | async => exact hh
  | sync => exact Mutex.step_signals hm hquiet hb (.unpark e.agent) hh

theorem advance_move
    (hown : ∀ k r, l.pc.waitsOn = some (k, r) → ∀ e ∈ s.waiting k, e.reg = r → e.agent = i)
    (hgate : ∀ k, l.pc = .register k none → blocks k ∨ owed k)
    (h : advance i s l = some (s₁, l₁)) :
    Move False owner owed i (view blocks s) (l.pc.role i) (view blocks s₁) (l₁.pc.role i) := by
  cases hp : l.pc with
  | ready => simp [advance, hp] at h
  | register k deadline =>
    simp only [advance, hp] at h
    cases h
    rw [view_push, Local.goto_pc, role_registered]
    -- without a deadline the list has to be attended; with one the wait wakes itself
    split
    · rename_i hnone
      subst hnone
      exact .post _ rfl (hgate k hp) fun j hj => (Option.some.inj hj).symm
    · exact .deposit _ rfl id rfl
  | spawnTimer =>
    simp only [advance, hp] at h
    cases h
    exact .of_eq (view_congr rfl rfl rfl) rfl
  | drop z r =>
    simp only [advance, hp] at h
    rw [← hp]
    exact lift_signal h (by rw [hp]; rfl) (.inr rfl) (by rintro ⟨⟩)
  | dropping z r =>
    simp only [advance, hp] at h
    cases h
    exact .of_eq rfl (role_start z)
  | load deadline r =>
    simp only [advance, hp] at h
    split at h <;> cases h <;> cases deadline <;>
      first | exact .stay | exact .awake fun _ hx => .inl hx
  | loadNow | loadNotified | parkNow | parkCheck | race | raceTimeout =>
    simp only [advance, hp] at h
    split at h <;> cases h <;> exact .stay
  | loadLeave r =>
    simp only [advance, hp] at h
    split at h <;> cases h
    · rw [← hp]
      -- the deadline has passed: the waiter removes its own entry
      refine discard_move (k := .spin) (by rw [hp]; rfl) rfl rfl (fun e he => ?_) ?_ fun _ hx => hx
      · refine (mem_or_of_eraseP he).imp_left fun hr => hown .spin r (by rw [hp]; rfl) e he ?_
        simpa using hr
      · exact List.eraseP_subset
    · exact .stay
  | park deadline r =>
    simp only [advance, hp] at h
    split at h
    · -- a park consumes the token of its own thread only
      have hclears : Clears owner i s.signalled (s.setPlat (s.mx.plat.consume i)).signalled := by
        refine clears_of_tokens rfl fun j hj => ?_
        by_cases hji : j = i
        · exact .inr hji
        · exact .inl (by simpa [Shared.setPlat, Mutex.Shared.setPlat, Platform.consume, hji] using hj)
      cases deadline <;> cases h
      · exact .awake hclears
      · exact .forget rfl hclears
    · cases h
  | parkLeave r =>
    simp only [advance, hp] at h
    split at h <;> cases h
    · rw [← hp]
      -- the entry that is removed is one of this thread
      refine discard_move (k := .sync) (by rw [hp]; rfl) rfl rfl (fun e he => ?_) ?_ fun _ hx => hx
      · exact (mem_or_of_eraseP he).imp_left fun hr => by simpa using hr
      · exact List.eraseP_subset
    · exact .stay
  | await r =>
    simp only [advance, hp] at h
    split at h <;> cases h
    exact .awake fun _ hx => .inl hx
  | raceLeave r =>
    simp only [advance, hp] at h
    split at h <;> cases h
    · rw [← hp]
      refine discard_move (k := .async) (by rw [hp]; rfl) rfl rfl (fun e he => ?_) ?_
        (signalled_setFlag r)
      · refine (mem_or_of_eraseP he).imp_left fun hr => hown .async r (by rw [hp]; rfl) e he ?_
        simpa using hr
      · exact List.eraseP_subset
    · exact .stay
  | relock w timedOut =>
    rw [← hp]
    cases w <;> simp only [advance, hp] at h <;>
      exact lift_move h (by rw [hp]; rfl) (by rw [hp]; rfl)
  | relocking timedOut =>
    simp only [advance, hp] at h
    split at h <;> cases h
    exact .stay
  | notifyOne k =>
    simp only [advance, hp] at h
    split at h <;> cases h
    · rename_i e he
      rw [view_setList]
      refine .pop rfl ?_
      have hlist := congrArg (List.map fun e => (k, e)) (List.dropLast_append_getLast? e he)
      rw [List.map_append] at hlist
      exact hlist.symm
    · cases k with
      | spin | sync => exact .stay
      | async => exact .unblock fun _ hb => .inl hb
  | notifying k pending rest =>
    -- a notifier signals what it has taken, then takes the next list
    rcases pending with _ | ⟨e, pending⟩
    · rcases rest with _ | ⟨k', rest⟩ <;> simp only [advance, hp] at h <;> cases h
      · exact .finish
      · have hrole : (Pc.notifying k' (s.waiting k') rest).role i =
            .waking (((view blocks s).list k').map fun h => (k', h)) rest := by
          simp [Pc.role, view]
        rw [view_setList, Local.goto_pc, hrole]
        exact .take rfl
    · simp only [advance, hp] at h
      cases h
      rw [view_signalled s (signal s k e) (by cases k <;> rfl)]
      exact .wake (signal_signalled k e) (signalled_signal k e)

omit [DecidableEq ι] in
theorem role_of_atRest (h : l.atRest = true) : l.pc.role i = .out := by
  rw [(Local.atRest_iff.1 h).2]
  rfl

/-- **Every step follows the discipline**, if an untimed wait registers only in a list that is
blocked or owed a visit. -/
theorem step_move {a : Act R D} (hl : l.Shape)
    (hown : ∀ k r, l.pc.waitsOn = some (k, r) → ∀ e ∈ s.waiting k, e.reg = r → e.agent = i)
    (hgate : a = .step → ∀ k, l.pc = .register k none → blocks k ∨ owed k)
    (h : step i a s l = some (s₁, l₁)) :
    Move False owner owed i (view blocks s) (l.pc.role i) (view blocks s₁) (l₁.pc.role i) := by
  cases a with
  | lock | access | drop | consume =>
    simp only [step] at h
    split at h
    · have hrole := role_of_atRest (i := i) ‹_›
      exact lift_move h (by rw [hrole]; rfl) (by rw [hrole]; rfl)
    · cases h
  | wait k deadline =>
    simp only [step, Bool.and_eq_true] at h
    split at h <;> cases h
    rename_i hrest
    exact .of_eq rfl (by rw [role_of_atRest hrest.1]; rfl)
  | notifyOne =>
    simp only [step] at h
    split at h <;> cases h
    rename_i hrest
    exact .of_eq rfl (by rw [role_of_atRest hrest]; rfl)
  | notifyAll =>
    simp only [step] at h
    split at h <;> cases h
    rw [role_of_atRest ‹_›]
    exact .unblock fun _ hb => .inl hb
  | step =>
    simp only [step] at h
    split at h
    · exact advance_move hown (hgate rfl) h
    · rcases hl.busy ‹_› with hp | ⟨z, r, hp, hquiet⟩ | ⟨timedOut, hp⟩
      · exact lift_move h rfl (by rw [hp]; rfl)
      · exact lift_signal h rfl (.inl hquiet) (by rintro ⟨⟩)
      · exact lift_move h rfl (by rw [hp]; rfl)
  | spurious =>
    simp only [step] at h
    split at h
    · split at h <;> cases h <;> rename_i hp <;> rw [hp]
      · exact .awake fun _ hx => .inl hx
      · exact .stay
    · rcases hl.busy ‹_› with hp | ⟨z, r, hp, hquiet⟩ | ⟨timedOut, hp⟩
      · exact lift_move h rfl (by rw [hp]; rfl)
      · exact lift_signal h rfl (.inl hquiet) (by rintro ⟨⟩)
      · exact lift_move h rfl (by rw [hp]; rfl)
  | cancel =>
    simp only [step] at h
    split at h
    · split at h <;> cases h <;> rename_i hp <;> rw [hp]
      · exact .awake fun _ hx => .inl hx
      · exact .stay
    · rcases hl.busy ‹_› with hp | ⟨z, r, hp, hquiet⟩ | ⟨timedOut, hp⟩
      · exact lift_move h (by rw [hp]) (by rw [hp]; rfl)
      · obtain ⟨m, lm, hm, -, -⟩ := lift_eq_some h
        cases hq : l.mx.pc <;> simp [Mutex.step, hq, Mutex.Pc.quiet] at hm hquiet
      · exact lift_move h (by rw [hp]; rfl) (by rw [hp]; rfl)

/-! ### What becomes of an entry -/

variable {plat : Platform ι} {value : D} {regs : ι → R}
  {c : Config ι (Shared ι R D) (Local ι R)}

/-- **The condition variable refines the discipline**; it has no opinion on which lists are
blocked. -/
def refines : Refines (Q := Kind) (sys (ι := ι) (R := R) (D := D))
    (fun c _ => (∀ i, (c.loc i).Shape) ∧ Registered c) False owner where
  view := view fun _ => True
  role i l := l.pc.role i
  step {i a c s l} hP hs := step_move (hP.1 i)
    (fun k r hw e he her => ((hP.2.wait i k r hw).2 k e he her).2) (fun _ _ _ => .inl trivial) hs
  env h := by
    simp only [sys, Option.map_eq_some_iff] at h
    obtain ⟨p, hp, rfl⟩ := h
    refine ⟨_, fun ⟨k, e⟩ hx => ?_, view_signalled _ _ rfl⟩
    cases k with
    | spin | async => exact hx
    | sync => exact Platform.signalled_apply (x := .unpark e.agent) hp hx

omit [DecidableEq ι] in
theorem waitsOn_role (h : p.sleeps = some (k, r)) :
    (p.role i).waitsOn = some (k, (k, ⟨r, i⟩)) := by
  rw [role_of_sleeps h]
  rfl

omit [DecidableEq ι] in
theorem carries_role {h : Kind × Entry ι} (hc : (k, h) ∈ (p.role i).carries) :
    ∃ pending rest, p = .notifying k pending rest ∧ h.1 = k ∧ h.2 ∈ pending := by
  cases hp : p with
  | notifying k' pending rest =>
    rw [hp] at hc
    obtain ⟨e, he, heq⟩ := List.mem_map.1 hc
    cases heq
    exact ⟨pending, rest, rfl, rfl, he⟩
  | _ =>
    cases hs : p.sleeps with
    | none => simp [Pc.role, hp, hp ▸ hs, Role.carries] at hc
    | some x => rw [role_of_sleeps hs] at hc; cases hc

omit [DecidableEq ι] in
theorem owes_role (h : k ∈ (p.role i).owes) :
    ∃ k' pending rest, p = .notifying k' pending rest ∧ k ∈ rest := by
  cases hp : p with
  | notifying k' pending rest =>
    rw [hp] at h
    exact ⟨k', pending, rest, rfl, h⟩
  | _ =>
    cases hs : p.sleeps with
    | none => simp [Pc.role, hp, hp ▸ hs, Role.owes] at h
    | some x => rw [role_of_sleeps hs] at h; cases h

omit [DecidableEq ι] in
theorem notifying_of_carries {x : Kind × Entry ι} (h : x ∈ p.carries) :
    ∃ pending rest, p = .notifying x.1 pending rest ∧ x.2 ∈ pending := by
  cases hp : p with
  | notifying k pending rest =>
    rw [hp] at h
    obtain ⟨e, he, rfl⟩ := List.mem_map.1 h
    exact ⟨pending, rest, rfl, he⟩
  | _ =>
    rw [hp] at h
    exact absurd h List.not_mem_nil

omit [DecidableEq ι] in
theorem inWait_of_sleeps (h : p.sleeps = some (k, r)) : p.inWait = true := by
  cases p <;> first | rfl | cases h

/-- **A wait is not forgotten.**  The entry of an untimed wait that sleeps is in its list, taken by
a notification that has still to signal it, or signalled. -/
theorem kept (h : sys.Reachable (init plat value regs) c)
    (hw : (c.loc i).pc.sleeps = some (k, r)) :
    ⟨r, i⟩ ∈ c.shared.waiting k ∨ (∃ j, (k, ⟨r, i⟩) ∈ (c.loc j).pc.carries) ∨
      c.shared.signalled (k, ⟨r, i⟩) = true := by
  have hinv := refines.inv (h.strengthen fun c _ hc _ => ⟨shape hc, registered_inv hc⟩)
    (.init (fun _ => rfl) fun _ => rfl)
  rcases hinv.kept i k _ (waitsOn_role hw) with hlist | ⟨j, hj⟩ | hsig
  · obtain ⟨e, he, heq⟩ := List.mem_map.1 hlist
    cases heq
    exact .inl he
  · obtain ⟨pending, rest, hp, -, hpending⟩ := carries_role hj
    exact .inr (.inl ⟨j, by rw [hp]; exact List.mem_map_of_mem hpending⟩)
  · exact .inr (.inr hsig)

end Condvar

end WasmSafeThread
