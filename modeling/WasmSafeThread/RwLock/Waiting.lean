import WasmSafeThread.Platform.Signals
import WasmSafeThread.RwLock.Exclusion

/-!
# Waiting for the reader-writer lock

The four waiting lists follow the discipline of `WaitList`.  A list for readers is blocked while
the writer flag is set, a list for writers while `data_lock` is not `UNLOCKED`.  A reader's drop
visits the lists for writers only: it cannot unblock a list for readers, because the count is
exact (`Counted`).

* `view`, `role` : what the discipline sees of the lock and of an agent.
* `refines` : the lock refines the discipline in counted configurations.
* `no_stranded_reader_or_writer` : no reader and no writer is left asleep.
-/

namespace WasmSafeThread

namespace RwLock

open WaitList

variable {ι R D : Type*}

/-! ### What the discipline sees -/

/-- The value of `data_lock` refuses newcomers for `m`. -/
def Blocked (f : BitVec 8) : Mode → Prop
  | .read => 128 ≤ f.toNat
  | .write => f ≠ UNLOCKED

/-- The waiting lists. -/
def view (s : Shared ι D) : View Queue (Wake ι) :=
  .ofLists s.waiting s.plat fun q => Blocked s.dataLock q.1

/-- The role of an agent in an attempt. -/
def Caller.role (m : Mode) : Caller → Role Queue (Wake ι)
  | .user | .spin => .out
  | .sect w => .inside (m, w)

/-- The role of agent `i` at a control point.  After "Too many readers" inside a section the
spinlock stays locked, so the agent stays inside. -/
def Pc.role (i : ι) : Pc ι → Role Queue (Wake ι)
  | .attempt m k => k.role m
  | .exchange _ k | .tooManyReaders k => k.role .read
  | .push m w => .refused (m, w)
  | .leaveOk m w => .leaving (m, w) none
  | .leaveErr m slot => .leaving (m, slot.way) (some (slot.wake i))
  | .park m => .waiting (m, .sync) (.unpark i)
  | .await m c => .waiting (m, .async) (.send c)
  | .didUnlockRead w pending rest =>
    .waking (pending.map fun h => ((.write, w), h)) (rest.map fun w' => (.write, w'))
  | .didUnlockWrite q pending rest => .waking (pending.map fun h => (q, h)) rest
  | _ => .out

variable {s s₁ : Shared ι D} {l l₁ : Local ι R} {i : ι} {a : Act R D}
  {owed : Queue → Prop}
  {c : Config ι (Shared ι D) (Local ι R)}

theorem view_setLocked (q : Queue) (b : Bool) :
    view (s.setLocked q b) = (view s).setLocked q b := View.ofLists_setLocked b

theorem view_setList (q : Queue) (es : List (Wake ι)) :
    view (s.setList q es) = (view s).setList q es := View.ofLists_setData es

theorem view_setPlat (p : Platform ι) :
    view (s.setPlat p) = { view s with signalled := p.Signalled } := rfl

theorem view_setLock (f : BitVec 8) :
    view (s.setLock f) = { view s with blocks := fun q => Blocked f q.1 } := rfl

theorem view_register (m : Mode) (w : Way) :
    view (register i s m w) =
      (view s).setList (m, w) ((view s).list (m, w) ++ [(s.plat.slot w).wake i]) := by
  rw [register, view, Shared.setPlat, View.ofLists_register]
  exact view_setList (m, w) _

theorem leaveErr_role (p : Platform ι) (m : Mode) (w : Way) :
    (Pc.leaveErr m (p.slot w)).role i = .leaving (m, w) (some ((p.slot w).wake i)) := by
  cases w <;> rfl

theorem Op.start_role (op : Op) : (op.start).role i = .out := by
  cases op <;> rfl

theorem suspend_role (m : Mode) (slot : Slot) :
    (suspend m slot).role i = .waiting (m, slot.way) (slot.wake i) := by
  cases slot <;> rfl

theorem Readable.not_blocked (f : Readable) : ¬ Blocked f.1 .read := by
  have := f.toNat_lt
  exact Nat.not_le.2 (by omega)

theorem Readable.blocked_succ (f : Readable) : Blocked (f.1 + 1) .write := by
  have := f.toNat_succ
  intro hc
  rw [hc] at this
  exact absurd this.symm (Nat.succ_ne_zero _)

variable [DecidableEq ι]

/-! ### The refinement -/

omit [DecidableEq ι] in
theorem verdict_move (k : Caller) :
    Move True Wake.owner owed i (view s) (k.role .read) (view s)
      (((readClosure s.dataLock).next k).role i) := by
  cases hv : readClosure s.dataLock with
  | refuse =>
    cases k with
    | user | spin => exact .stay
    | sect w => exact .refuse (readClosure_refuse hv)
  | tooManyReaders => exact .stay
  | add f => exact .stay

omit [DecidableEq ι] in
theorem ok_move {f : BitVec 8} {m : Mode} (k : Caller)
    (hf : ∀ m', Blocked s.dataLock m' → Blocked f m') :
    Move True Wake.owner owed i (view s) (k.role m) (view (s.setLock f)) ((k.ok m).role i) := by
  rw [view_setLock]
  cases k with
  | user | spin => exact .word fun q => hf q.1
  | sect w => exact .grant fun q => hf q.1

theorem advance_move (h : advance i s l = some (s₁, l₁)) :
    Move True Wake.owner owed i (view s) (l.pc.role i) (view s₁) (l₁.pc.role i) := by
  cases hp : l.pc with
  | idle | failed | guard | tooManyReaders | assertFailed => simp [advance, hp] at h
  | attempt m k =>
    cases m with
    | read =>
      simp only [advance, hp] at h
      cases h
      exact verdict_move k
    | write =>
      simp only [advance, hp] at h
      split at h <;> cases h
      · -- a writer comes in only when the byte is free
        rename_i hfree
        refine ok_move k fun m' hm' => ?_
        rw [hfree] at hm'
        cases m' with
        | read => exact absurd hm' (by decide : ¬ 128 ≤ UNLOCKED.toNat)
        | write => exact absurd rfl hm'
      · rename_i hlock
        cases k with
        | user | spin => exact .stay
        | sect w => exact .refuse hlock
  | exchange f k =>
    simp only [advance, hp] at h
    split at h <;> cases h
    · -- one reader more: the lock is still closed to writers, and open to readers if there is room
      rename_i hf
      refine ok_move k fun m' hm' => ?_
      cases m' with
      | read => exact absurd (hf ▸ hm') f.not_blocked
      | write => exact f.blocked_succ
    · exact verdict_move k
  | enter m w =>
    simp only [advance, hp] at h
    split at h <;> cases h
    rename_i hfree
    rw [view_setLocked]
    exact .enter (by simpa [view, View.ofLists] using hfree)
  | push m w =>
    simp only [advance, hp] at h
    cases h
    rw [view_register, Local.goto_pc, leaveErr_role]
    exact .register _ (s.plat.slot w).owner_wake
  | leaveOk m w =>
    simp only [advance, hp] at h
    cases h
    rw [view_setLocked]
    exact .leave
  | leaveErr m slot =>
    simp only [advance, hp] at h
    cases h
    rw [view_setLocked, Local.goto_pc, suspend_role]
    exact .suspend
  | park m =>
    simp only [advance, hp] at h
    split at h <;> cases h
    exact .awake Platform.clears_consume
  | await m c =>
    simp only [advance, hp] at h
    split at h <;> cases h
    exact .awake fun _ hx => .inl hx
  | didUnlockRead q pending rest | didUnlockWrite q pending rest =>
    rcases pending with _ | ⟨x, pending⟩
    · rcases rest with _ | ⟨q', rest⟩ <;> simp only [advance, hp] at h
      · cases h
        exact .finish
      · split at h <;> cases h
        rename_i hfree
        rw [view_setList]
        exact .take (by simpa [view, View.ofLists] using hfree)
    · simp only [advance, hp] at h
      cases h
      exact .wake (Platform.signalled_wake_self x) fun _ => Platform.signalled_wake x

theorem step_move (hc : Counted c) (h : step i a c.shared (c.loc i) = some (s₁, l₁)) :
    Move True Wake.owner owed i (view c.shared) ((c.loc i).pc.role i) (view s₁) (l₁.pc.role i) := by
  cases a with
  | step => exact advance_move (by simpa [step] using h)
  | call op =>
    cases hp : (c.loc i).pc <;> simp only [step, hp, reduceCtorEq] at h <;> cases h <;>
      exact .of_eq rfl op.start_role
  | spurious =>
    cases hp : (c.loc i).pc <;> simp only [step, hp, reduceCtorEq] at h
    case exchange f k =>
      cases h
      exact verdict_move k
    case park m =>
      cases h
      exact .awake fun _ hx => .inl hx
  | cancel =>
    cases hp : (c.loc i).pc <;> simp only [step, hp, reduceCtorEq] at h
    cases h
    exact .awake fun _ hx => .inl hx
  | read f =>
    cases hp : (c.loc i).pc <;> simp only [step, hp, reduceCtorEq] at h
    case guard m =>
      cases m <;> simp only [reduceCtorEq] at h
      cases h
      exact .of_eq rfl rfl
  | write f =>
    cases hp : (c.loc i).pc <;> simp only [step, hp, reduceCtorEq] at h
    case guard m =>
      cases m <;> simp only [reduceCtorEq] at h
      cases h
      exact .of_eq rfl rfl
  | drop =>
    cases hp : (c.loc i).pc <;> simp only [step, hp, reduceCtorEq] at h
    case guard m =>
      cases m <;> simp only [Option.some.injEq, Prod.mk.injEq] at h <;> obtain ⟨rfl, rfl⟩ := h
      · -- a reader has a guard, so the flag is clear: no list for readers is blocked
        have hpos := hc.ncard_pos (m := .read) (i := i) (by rw [hp]; rfl)
        have hcount : 0 < c.shared.dataLock.toNat ∧ c.shared.dataLock.toNat ≤ 127 := by
          rcases hc.count with ⟨-, hr, -⟩ | ⟨-, hr, hle⟩ <;> omega
        have hword : 0 < c.shared.dataLock := by rw [BitVec.lt_def]; exact hcount.1
        rw [if_pos hword, view_setLock]
        refine .unblock fun q hq => .inr ?_
        rcases q with ⟨m, w⟩
        cases m with
        | read => exact absurd hq (Nat.not_le.2 (by omega))
        | write => cases w <;> simp
      · have hpos := hc.ncard_pos (m := .write) (i := i) (by rw [hp]; rfl)
        have hword : c.shared.dataLock = LOCKED_WRITE := by
          rcases hc.count with ⟨-, -, he⟩ | ⟨hw, -⟩
          · exact he
          · omega
        rw [if_pos hword, view_setLock]
        refine .unblock fun q _ => .inr ?_
        rcases q with ⟨m, w⟩
        cases m <;> cases w <;> simp
  | consume =>
    simp only [step] at h
    split at h <;> cases h
    rename_i hrest
    refine .forget ?_ Platform.clears_consume
    cases hp : (c.loc i).pc <;> simp_all [Pc.atRest, Pc.role, Role.waitsOn]

/-- **The lock refines the discipline of waiting lists.** -/
def refines : Refines (Q := Queue) (sys (ι := ι) (R := R) (D := D)) (fun c _ => Counted c) True
    Wake.owner where
  view := view
  role i l := l.pc.role i
  step := step_move
  env h := by
    obtain ⟨p, hp, rfl⟩ := env_data h
    exact ⟨p.Signalled, fun _ hx => Platform.signalled_apply hp hx, rfl⟩

variable {plat : Platform ι} {value : D} {regs : ι → R}

theorem waiting_inv (h : sys.Reachable (init plat value regs) c) :
    WaitList.Inv True Wake.owner (refines.config c) :=
  refines.inv (h.strengthen fun _ _ hc _ => counted hc) (.init (fun _ => rfl) fun _ => rfl)

/-! ### No stranded reader or writer -/

omit [DecidableEq ι] in
theorem waitsOn_role {p : Pc ι} {m : Mode} {slot : Slot} (h : p.waitsOn = some (m, slot)) :
    (p.role i).waitsOn = some ((m, slot.way), slot.wake i) := by
  cases p <;> cases h <;> rfl

/-- Agent `j` is in `WriteGuard::drop` after its `swap`, and has still to signal `x`, which waits
in list `q`: it has taken `x` from there, or it has yet to take the list, which holds `x`. -/
def WriteDropSignals (c : Config ι (Shared ι D) (Local ι R)) (j : ι) (q : Queue) (x : Wake ι) :
    Prop :=
  ∃ q' pending rest, (c.loc j).pc = .didUnlockWrite q' pending rest ∧
    (q' = q ∧ x ∈ pending ∨ q ∈ rest ∧ x ∈ (c.shared.waiting q).data)

/-- Agent `j` is in `ReadGuard::drop` after its `fetch_sub`, and has still to signal `x`, which
waits for writing. -/
def ReadDropSignals (c : Config ι (Shared ι D) (Local ι R)) (j : ι) (w : Way) (x : Wake ι) :
    Prop :=
  ∃ w' pending rest, (c.loc j).pc = .didUnlockRead w' pending rest ∧
    (w' = w ∧ x ∈ pending ∨ w ∈ rest ∧ x ∈ (c.shared.waiting (.write, w)).data)

omit [DecidableEq ι] in
/-- Only an agent in a drop carries handles, and those of readers only one in
`WriteGuard::drop`. -/
theorem carries_role {p : Pc ι} {q : Queue} {x : Wake ι} (h : (q, x) ∈ (p.role i).carries) :
    (∃ pending rest, p = .didUnlockWrite q pending rest ∧ x ∈ pending) ∨
      q.1 = .write ∧ ∃ pending rest, p = .didUnlockRead q.2 pending rest ∧ x ∈ pending := by
  cases p with
  | didUnlockRead w pending rest =>
    obtain ⟨y, hy, heq⟩ := List.mem_map.1 h
    cases heq
    exact .inr ⟨rfl, pending, rest, rfl, hy⟩
  | didUnlockWrite q' pending rest =>
    obtain ⟨y, hy, heq⟩ := List.mem_map.1 h
    cases heq
    exact .inl ⟨pending, rest, rfl, hy⟩
  | attempt m k | exchange f k | tooManyReaders k =>
    cases k <;> simp [Pc.role, Caller.role, Role.carries] at h
  | _ => simp [Pc.role, Role.carries] at h

omit [DecidableEq ι] in
theorem owes_role {p : Pc ι} {q : Queue} (h : q ∈ (p.role i).owes) :
    (∃ q' pending rest, p = .didUnlockWrite q' pending rest ∧ q ∈ rest) ∨
      q.1 = .write ∧ ∃ w' pending rest, p = .didUnlockRead w' pending rest ∧ q.2 ∈ rest := by
  cases p with
  | didUnlockRead w pending rest =>
    obtain ⟨w', hw', heq⟩ := List.mem_map.1 h
    cases heq
    exact .inr ⟨rfl, w, pending, rest, rfl, hw'⟩
  | didUnlockWrite q' pending rest => exact .inl ⟨q', pending, rest, rfl, h⟩
  | attempt m k | exchange f k | tooManyReaders k =>
    cases k <;> simp [Pc.role, Caller.role, Role.owes] at h
  | _ => simp [Pc.role, Role.owes] at h

/-- What an acquisition that waits without a wake-up waits for: its list is blocked, or a drop is
on its way to it. -/
theorem blocked_or_drop (h : sys.Reachable (init plat value regs) c) {m : Mode} {slot : Slot}
    (hw : (c.loc i).pc.waitsOn = some (m, slot))
    (hsig : c.shared.plat.Signalled (slot.wake i) = false) :
    Blocked c.shared.dataLock m ∨
      (∃ j, WriteDropSignals c j (m, slot.way) (slot.wake i)) ∨
      m = .write ∧ ∃ j, ReadDropSignals c j slot.way (slot.wake i) := by
  rcases (waiting_inv h).not_stranded (waitsOn_role hw) hsig with
    ⟨-, hblock⟩ | ⟨j, hlist, howes⟩ | ⟨j, hcarries⟩
  · exact .inl hblock
  · rcases owes_role howes with ⟨q', pending, rest, hp, hq⟩ | ⟨hm, w', pending, rest, hp, hq⟩
    · exact .inr (.inl ⟨j, q', pending, rest, hp, .inr ⟨hq, hlist⟩⟩)
    · cases hm
      exact .inr (.inr ⟨rfl, j, w', pending, rest, hp, .inr ⟨hq, hlist⟩⟩)
  · rcases carries_role hcarries with ⟨pending, rest, hp, hx⟩ | ⟨hm, pending, rest, hp, hx⟩
    · exact .inr (.inl ⟨j, _, pending, rest, hp, .inl ⟨rfl, hx⟩⟩)
    · cases hm
      exact .inr (.inr ⟨rfl, j, _, pending, rest, hp, .inl ⟨rfl, hx⟩⟩)

/-- **No stranded reader or writer.**  In every reachable configuration a suspended reader
without a wake-up has a live `WriteGuard` to wait for, or a `WriteGuard::drop` that will signal
it; a suspended writer without a wake-up has a live guard of either kind, or a drop of either kind
that will signal it. -/
theorem no_stranded_reader_or_writer (h : sys.Reachable (init plat value regs) c) :
    (∀ i slot, (c.loc i).pc.waitsOn = some (.read, slot) →
      c.shared.plat.Signalled (slot.wake i) = false →
      (∃ j, (c.loc j).pc.hasGuard .write = true) ∨
        ∃ j, WriteDropSignals c j (.read, slot.way) (slot.wake i)) ∧
    ∀ i slot, (c.loc i).pc.waitsOn = some (.write, slot) →
      c.shared.plat.Signalled (slot.wake i) = false →
      (∃ j m, (c.loc j).pc.hasGuard m = true) ∨
        (∃ j, WriteDropSignals c j (.write, slot.way) (slot.wake i)) ∨
        ∃ j, ReadDropSignals c j slot.way (slot.wake i) := by
  have hguard : ∀ m, (guards m c).ncard ≠ 0 → ∃ j, (c.loc j).pc.hasGuard m = true :=
    fun m hne => Set.nonempty_of_ncard_ne_zero hne
  refine ⟨fun i slot hw hsig => ?_, fun i slot hw hsig => ?_⟩
  · rcases blocked_or_drop h hw hsig with hblock | hdrop | ⟨hm, -⟩
    · refine .inl (hguard .write ?_)
      rcases (counted h).count with ⟨hone, -⟩ | ⟨-, -, hle⟩
      · omega
      · exact absurd hblock (Nat.not_le.2 (by omega))
    · exact .inr hdrop
    · cases hm
  · rcases blocked_or_drop h hw hsig with hblock | hdrop | ⟨-, hdrop⟩
    · left
      rcases (counted h).count with ⟨hone, -⟩ | ⟨-, hr, -⟩
      · obtain ⟨j, hj⟩ := hguard .write (by omega)
        exact ⟨j, .write, hj⟩
      · have hpos : c.shared.dataLock.toNat ≠ 0 := fun hz =>
          hblock (BitVec.eq_of_toNat_eq hz)
        obtain ⟨j, hj⟩ := hguard .read (by omega)
        exact ⟨j, .read, hj⟩
    · exact .inr (.inl hdrop)
    · exact .inr (.inr hdrop)

/-- A run in which a writer parks while two threads read, and one of them drops its guard. -/
theorem no_stranded_reader_or_writer_parked :
    ∃ c : Config (Fin 3) (Shared (Fin 3) ℕ) (Local (Fin 3) Unit),
      sys.Reachable (init (.new .native) 0 fun _ => ()) c ∧
      (c.loc 2).pc = .park .write ∧ c.shared.plat.token 2 = false ∧
      ((∃ j m, (c.loc j).pc.hasGuard m = true) ∨
        (∃ j, WriteDropSignals c j (.write, .sync) (.unpark 2)) ∨
        ∃ j, ReadDropSignals c j .sync (.unpark 2)) := by
  obtain ⟨c, hc, hend⟩ := System.exists_of_run (M := sys)
    (p := fun c => decide ((c.loc 2).pc = .park .write) && !c.shared.plat.token 2)
    (c := init (ι := Fin 3) (R := Unit) (.new .native) 0 fun _ => ())
    [.agent 0 (.call (.tryLock .read)), .agent 0 .step, .agent 0 .step,
      .agent 1 (.call (.tryLock .read)), .agent 1 .step, .agent 1 .step,
      .agent 2 (.call (.lockBlock .write)), .agent 2 .step, .agent 2 .step, .agent 2 .step,
      .agent 2 .step, .agent 0 .drop] (by decide)
  simp only [Bool.and_eq_true, decide_eq_true_eq, Bool.not_eq_true'] at hend
  exact ⟨c, hc, hend.1, hend.2,
    (no_stranded_reader_or_writer hc).2 2 .thread (by rw [hend.1]; rfl) hend.2⟩

end RwLock

end WasmSafeThread
