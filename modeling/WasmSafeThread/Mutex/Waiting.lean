import WasmSafeThread.Mutex.Exclusion
import WasmSafeThread.Platform.Signals

/-!
# Waiting for the mutex

The two waiting lists follow the discipline of `WaitList`: an acquisition registers inside the
section in which `try_lock` failed, and `Guard::drop` visits both lists after its
`store(false)`.  A list is blocked while `data_lock` is set.

* `view`, `role` : what the discipline sees of the mutex and of an agent.
* `refines` : the mutex refines the discipline.
* `not_stranded` : no acquisition is left asleep.
-/

namespace WasmSafeThread

namespace Mutex

open WaitList

variable {ι R D : Type*}

/-! ### What the discipline sees -/

/-- The waiting lists; newcomers are refused while `data_lock` is set. -/
def view (s : Shared ι R D) : View Way (Wake ι) :=
  .ofLists s.waiting s.plat fun _ => s.dataLock = true

/-- The role of agent `i` at a control point. -/
def Pc.role (i : ι) : Pc ι → Role Way (Wake ι)
  | .attempt w _ => .inside w
  | .push w _ => .refused w
  | .leaveOk w => .leaving w none
  | .leaveErr slot _ => .leaving slot.way (some (slot.wake i))
  | .park _ => .waiting .sync (.unpark i)
  | .await c | .spawnTimer _ c | .race _ c _ | .raceTimeout _ c _ => .waiting .async (.send c)
  | .didUnlock w pending rest => .waking (pending.map fun h => (w, h)) rest
  | _ => .out

variable {s s₁ : Shared ι R D} {l l₁ : Local ι R} {i : ι} {a : Act R D}
  {owed : Way → Prop}

theorem view_setLocked (w : Way) (b : Bool) :
    view (s.setLocked w b) = (view s).setLocked w b := View.ofLists_setLocked b

theorem view_setList (w : Way) (es : List (Wake ι)) :
    view (s.setList w es) = (view s).setList w es := View.ofLists_setData es

theorem view_setPlat (p : Platform ι) :
    view (s.setPlat p) = { view s with signalled := p.Signalled } := rfl

theorem view_register (w : Way) :
    view (register i s w) =
      (view s).setList w ((view s).list w ++ [(s.plat.slot w).wake i]) := by
  rw [register, view, Shared.setPlat, View.ofLists_register]
  exact view_setList w _

theorem leaveErr_role (p : Platform ι) (w : Way) (d : Option ℕ) :
    (Pc.leaveErr (p.slot w) d).role i = .leaving w (some ((p.slot w).wake i)) := by
  cases w <;> rfl

theorem Op.start_role (op : Op) : (op.start).role i = .out := by
  rcases op with _ | d | ⟨w, _ | d⟩ <;> rfl

theorem again_role (w : Way) (d : Option ℕ) : (again w d).role i = .out := by
  cases d <;> rfl

theorem suspend_role (slot : Slot) (d : Option ℕ) :
    (suspend slot d).role i = .waiting slot.way (slot.wake i) := by
  cases slot <;> cases d <;> rfl

variable [DecidableEq ι]

/-! ### The refinement -/

theorem advance_move (h : advance i s l = some (s₁, l₁)) :
    Move True Wake.owner owed i (view s) (l.pc.role i) (view s₁) (l₁.pc.role i) := by
  cases hp : l.pc with
  | idle | failed | guard => simp [advance, hp] at h
  | tryLock =>
    simp only [advance, hp] at h
    split at h <;> cases h
    case h_1 heq =>
      obtain ⟨-, rfl⟩ := tryLock_eq_some.1 heq
      exact .word fun _ _ => rfl
    case h_2 => exact .stay
  | attempt w deadline =>
    simp only [advance, hp] at h
    split at h <;> cases h
    -- the attempt inside the section of a list decides whether an entry is pushed
    case h_1 heq =>
      obtain ⟨-, rfl⟩ := tryLock_eq_some.1 heq
      exact .grant fun _ _ => rfl
    case h_2 heq => exact .refuse (tryLock_eq_none.1 heq)
  | lockSpin deadline =>
    simp only [advance, hp] at h
    split at h <;> cases h
    · cases deadline <;> exact .word fun _ _ => rfl
    · exact .word fun _ _ => rfl
  | lockSpinNow d =>
    simp only [advance, hp] at h
    cases h
    refine .of_eq rfl ?_
    rw [Local.goto_pc]
    split <;> rfl
  | lockNow w d =>
    simp only [advance, hp] at h
    cases h
    refine .of_eq rfl ?_
    rw [Local.goto_pc]
    split <;> rfl
  | enter w deadline =>
    simp only [advance, hp] at h
    split at h <;> cases h
    rename_i hfree
    rw [view_setLocked]
    exact .enter (by simpa [view, View.ofLists] using hfree)
  | push w deadline =>
    simp only [advance, hp] at h
    cases h
    rw [view_register, Local.goto_pc, leaveErr_role]
    exact .register _ (s.plat.slot w).owner_wake
  | leaveOk w =>
    simp only [advance, hp] at h
    cases h
    rw [view_setLocked]
    exact .leave
  | leaveErr slot deadline =>
    simp only [advance, hp] at h
    cases h
    rw [view_setLocked, Local.goto_pc, suspend_role]
    exact .suspend
  | park deadline =>
    simp only [advance, hp] at h
    split at h <;> cases h
    rw [view_setPlat, Local.goto_pc, again_role]
    exact .awake Platform.clears_consume
  | await c =>
    simp only [advance, hp] at h
    split at h <;> cases h
    rw [Local.goto_pc, again_role]
    exact .awake fun _ hx => .inl hx
  | spawnTimer d c =>
    simp only [advance, hp] at h
    cases h
    refine .of_eq ?_ rfl
    rw [view_setPlat, Platform.signalled_spawn]
    rfl
  | race d c t =>
    simp only [advance, hp] at h
    cases h
    rw [Local.goto_pc]
    split
    · rw [again_role]
      exact .awake fun _ hx => .inl hx
    · exact .stay
  | raceTimeout d c t =>
    simp only [advance, hp] at h
    cases h
    rw [Local.goto_pc]
    split
    · exact .awake fun _ hx => .inl hx
    · exact .stay
  | didUnlock w pending rest =>
    -- an unlock takes the lists one after the other and wakes what it has taken
    rcases pending with _ | ⟨x, pending⟩
    · rcases rest with _ | ⟨w', rest⟩ <;> simp only [advance, hp] at h
      · cases h
        exact .finish
      · split at h <;> cases h
        rename_i hfree
        rw [view_setList]
        exact .take (by simpa [view, View.ofLists] using hfree)
    · simp only [advance, hp] at h
      cases h
      exact .wake (Platform.signalled_wake_self x) fun _ => Platform.signalled_wake x

theorem step_move (h : step i a s l = some (s₁, l₁)) :
    Move True Wake.owner owed i (view s) (l.pc.role i) (view s₁) (l₁.pc.role i) := by
  cases a with
  | step => exact advance_move (by simpa [step] using h)
  | call op =>
    cases hp : l.pc <;> simp only [step, hp, reduceCtorEq] at h <;> cases h <;>
      exact .of_eq rfl op.start_role
  | spurious =>
    cases hp : l.pc <;> simp only [step, hp, reduceCtorEq] at h
    cases h
    rw [Local.goto_pc, again_role]
    exact .awake fun _ hx => .inl hx
  | cancel =>
    cases hp : l.pc <;> simp only [step, hp, reduceCtorEq] at h <;> cases h <;>
      exact .awake fun _ hx => .inl hx
  | access f =>
    cases hp : l.pc <;> simp only [step, hp, reduceCtorEq] at h
    cases h
    exact .stay
  | drop =>
    cases hp : l.pc <;> simp only [step, hp, reduceCtorEq] at h
    cases h
    -- the only operation that unblocks the lists; the drop visits both
    exact .unblock fun w _ => .inr (by cases w <;> simp)
  | consume =>
    simp only [step] at h
    split at h <;> cases h
    rename_i hrest
    refine .forget ?_ Platform.clears_consume
    cases hp : l.pc <;> simp_all [Pc.atRest, Pc.role, Role.waitsOn]

theorem step_clears (h : step i a s l = some (s₁, l₁)) :
    Clears Wake.owner i s.plat.Signalled s₁.plat.Signalled := by
  intro x hx
  have hmove : Move True Wake.owner (fun _ => False) i (view s) (l.pc.role i) (view s₁)
    (l₁.pc.role i) := step_move h
  exact (hmove.signalled hx).imp_right And.left

/-- An agent in no acquisition uses up no signal but by a park of somebody else. -/
theorem step_signals (h : step i a s l = some (s₁, l₁)) (hl : l.pc.quiet = true ∨ a = .drop)
    (ha : a ≠ .consume) (x : Wake ι) (hx : s.plat.Signalled x = true) :
    s₁.plat.Signalled x = true := by
  cases a with
  | consume => exact absurd rfl ha
  | step =>
    rcases hl with hl | hl
    · cases hp : l.pc with
      | didUnlock w pending rest =>
        rcases pending with _ | ⟨y, pending⟩
        · rcases rest with _ | ⟨w', rest⟩ <;> simp only [step, advance, hp] at h
          · cases h
            exact hx
          · split at h <;> cases h
            exact hx
        · simp only [step, advance, hp] at h
          cases h
          exact Platform.signalled_wake y hx
      | idle | failed => simp [step, advance, hp] at h
      | _ => rw [hp] at hl; cases hl
    · cases hl
  | call | spurious | cancel | access | drop =>
    cases hp : l.pc <;> simp only [step, hp, reduceCtorEq] at h <;> cases h <;> exact hx

/-- **The mutex refines the discipline of waiting lists.** -/
def refines : Refines (Q := Way) (sys (ι := ι) (R := R) (D := D)) (fun _ _ => True) True
    Wake.owner where
  view := view
  role i l := l.pc.role i
  step _ := step_move
  env h := by
    obtain ⟨p, hp, rfl⟩ := env_data h
    exact ⟨p.Signalled, fun _ hx => Platform.signalled_apply hp hx, rfl⟩

variable {plat : Platform ι} {value : D} {regs : ι → R}
  {c : Config ι (Shared ι R D) (Local ι R)}

theorem waiting_inv (h : sys.Reachable (init plat value regs) c) :
    WaitList.Inv True Wake.owner (refines.config c) :=
  refines.inv h (.init (fun _ => rfl) fun _ => rfl)

/-! ### No stranded waiter -/

omit [DecidableEq ι] in
theorem waitsOn_role {p : Pc ι} {slot : Slot} (h : p.waitsOn = some slot) :
    (p.role i).waitsOn = some (slot.way, slot.wake i) := by
  cases p <;> cases h <;> rfl

omit [DecidableEq ι] in
theorem Pc.hasGuard_of_waitsOn {p : Pc ι} {slot : Slot} (h : p.waitsOn = some slot) :
    p.hasGuard = false := by
  cases p <;> first | rfl | cases h

/-- Agent `j` is in `Guard::drop`, after its `store(false)`, and has still to signal `x`, which
waits in list `w`: it has taken `x` from there, or it has yet to take the list, which holds `x`. -/
def WillSignal (c : Config ι (Shared ι R D) (Local ι R)) (j : ι) (w : Way) (x : Wake ι) : Prop :=
  ∃ w' pending rest, (c.loc j).pc = .didUnlock w' pending rest ∧
    (w' = w ∧ x ∈ pending ∨ w ∈ rest ∧ x ∈ (c.shared.waiting w).data)

omit [DecidableEq ι] in
theorem carries_role {p : Pc ι} {w : Way} {x : Wake ι} (h : (w, x) ∈ (p.role i).carries) :
    ∃ pending rest, p = .didUnlock w pending rest ∧ x ∈ pending := by
  cases p <;> simp_all [Pc.role, Role.carries]

omit [DecidableEq ι] in
theorem owes_role {p : Pc ι} {w : Way} (h : w ∈ (p.role i).owes) :
    ∃ w' pending rest, p = .didUnlock w' pending rest ∧ w ∈ rest := by
  cases p <;> simp_all [Pc.role, Role.owes]

/-- An acquisition that waits without a wake-up waits for a live guard, or for an agent that is
in `Guard::drop` and will signal it. -/
theorem guard_or_willSignal (h : sys.Reachable (init plat value regs) c) {slot : Slot}
    (hw : (c.loc i).pc.waitsOn = some slot)
    (hsig : c.shared.plat.Signalled (slot.wake i) = false) :
    (∃ j, (c.loc j).pc.hasGuard = true) ∨ ∃ j, WillSignal c j slot.way (slot.wake i) := by
  rcases (waiting_inv h).not_stranded (waitsOn_role hw) hsig with
    ⟨-, hlock⟩ | ⟨j, hlist, howes⟩ | ⟨j, hcarries⟩
  · exact .inl ((owned h).iff.1 hlock)
  · obtain ⟨w', pending, rest, hp, hrest⟩ := owes_role howes
    exact .inr ⟨j, w', pending, rest, hp, .inr ⟨hrest, hlist⟩⟩
  · obtain ⟨pending, rest, hp, hpending⟩ := carries_role hcarries
    exact .inr ⟨j, _, pending, rest, hp, .inl ⟨rfl, hpending⟩⟩

theorem lists_empty (h : sys.Reachable (init plat value regs) c)
    (hfree : c.shared.dataLock = false)
    (hdrop : ∀ j w pending rest, (c.loc j).pc ≠ .didUnlock w pending rest) (w : Way) :
    (c.shared.waiting w).data = [] := by
  by_contra hne
  obtain ⟨x, hx⟩ := List.exists_mem_of_ne_nil _ hne
  rcases (waiting_inv h).gate w (.inl ⟨x, hx, .inl trivial⟩) with hlock | ⟨j, howes⟩
  · simp [refines, Refines.config, view, View.ofLists, hfree] at hlock
  · obtain ⟨w', pending, rest, hp, -⟩ := owes_role howes
    exact hdrop j w' pending rest hp

/-- **No stranded waiter.**  In every reachable configuration an acquisition that is suspended
without a wake-up has a live guard to wait for or an agent in `Guard::drop` that will signal it;
so when the lock is free and no guard is being dropped, both lists are empty and every suspended
acquisition has its wake-up. -/
theorem no_stranded_acquisition (h : sys.Reachable (init plat value regs) c) :
    (∀ i slot, (c.loc i).pc.waitsOn = some slot →
      c.shared.plat.Signalled (slot.wake i) = false →
      (∃ j, (c.loc j).pc.hasGuard = true) ∨ ∃ j, WillSignal c j slot.way (slot.wake i)) ∧
    (c.shared.dataLock = false → (∀ j w pending rest, (c.loc j).pc ≠ .didUnlock w pending rest) →
      (∀ w, (c.shared.waiting w).data = []) ∧
      ∀ i slot, (c.loc i).pc.waitsOn = some slot →
        c.shared.plat.Signalled (slot.wake i) = true) := by
  refine ⟨fun i slot hw hsig => guard_or_willSignal h hw hsig, fun hfree hdrop =>
    ⟨lists_empty h hfree hdrop, fun i slot hw => ?_⟩⟩
  by_contra hsig
  rw [Bool.not_eq_true] at hsig
  rcases guard_or_willSignal h hw hsig with ⟨j, hj⟩ | ⟨j, w, pending, rest, hp, -⟩
  · rw [(owned h).not_holds hfree j] at hj
    cases hj
  · exact hdrop j w pending rest hp

/-- A run in which a `lock_block` parks and the guard is dropped: the drop is not finished. -/
theorem no_stranded_acquisition_drop :
    ∃ c : Config Bool (Shared Bool Unit ℕ) (Local Bool Unit),
      sys.Reachable (init (.new .native) 0 fun _ => ()) c ∧
      (c.loc true).pc = .park none ∧ c.shared.plat.token true = false ∧
      ((∃ j, (c.loc j).pc.hasGuard = true) ∨ ∃ j, WillSignal c j .sync (.unpark true)) := by
  obtain ⟨c, hc, hend⟩ := System.exists_of_run
    (p := fun c => decide ((c.loc true).pc = .park none) && !c.shared.plat.token true)
    (c := init (R := Unit) (.new .native) 0 fun _ => ())
    [.agent false (.call .tryLock), .agent false .step, .agent true (.call .lockBlock),
      .agent true .step, .agent true .step, .agent true .step, .agent true .step,
      .agent false .drop] (M := sys) (by decide)
  simp only [Bool.and_eq_true, decide_eq_true_eq, Bool.not_eq_true'] at hend
  exact ⟨c, hc, hend.1, hend.2, (no_stranded_acquisition hc).1 true .thread (by rw [hend.1]; rfl) hend.2⟩

end Mutex

end WasmSafeThread
