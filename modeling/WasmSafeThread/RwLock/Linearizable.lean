import WasmSafeThread.Agents.Linearization
import WasmSafeThread.RwLock.Exclusion

/-!
# The reader-writer lock, seen from outside

A reader-writer lock is a value and who has it for what (`Cell`).  Its operations are atomic
(`cell`): an acquisition succeeds in a state that admits it; a `try_lock_*` fails only in a state that
refuses it; an access through a guard returns the value, and a `WriteGuard` changes it.

* `occurs` : what is seen of an operation of the lock.
* `linearizable_cell` : **every history of the lock is one of the cell.**
* `read_stable` : the value does not change under a reader.
-/

namespace WasmSafeThread

namespace RwLock

variable {ι R D : Type*}

/-! ### The cell -/

/-- The operations on the cell. -/
inductive CellOp (D : Type*) where
  /-- An acquisition that waits until it succeeds. -/
  | lock (m : Mode)
  /-- An acquisition that does not wait. -/
  | tryLock (m : Mode)
  | unlock
  /-- An access through a `ReadGuard`. -/
  | read
  /-- An access through a `WriteGuard`. -/
  | write (g : D → D)

/-- Their results. -/
inductive CellResult (D : Type*) where
  | locked
  | notAvailable
  | unlocked
  /-- The value before the access. -/
  | value (d : D)
  deriving DecidableEq

/-- A value, and who has it for what. -/
structure Cell (ι D : Type*) where
  value : D
  mode : ι → Option Mode

namespace Cell

variable (x : Cell ι D)

/-- The agents that have it for `m`. -/
def having (m : Mode) : Set ι := {i | x.mode i = some m}

/-- There is room for one more. -/
def Admits : Mode → Prop
  | .read => x.having .write = ∅ ∧ (x.having .read).ncard < 127
  | .write => x.having .write = ∅ ∧ x.having .read = ∅

/-- Somebody else has it, in a way that excludes `m`. -/
def Refuses : Mode → Prop
  | .read => (x.having .write).Nonempty
  | .write => (x.having .write).Nonempty ∨ (x.having .read).Nonempty

/-- Agent `i` has it for `m`, or not any more. -/
def setMode [DecidableEq ι] (i : ι) (m : Option Mode) : Cell ι D :=
  { x with mode := Function.update x.mode i m }

end Cell

/-- What the operations do. -/
inductive CellApply [DecidableEq ι] (i : ι) : CellOp D → Cell ι D → CellResult D → Cell ι D → Prop
  | lock {x : Cell ι D} {m : Mode} : x.mode i = none → x.Admits m →
      CellApply i (.lock m) x .locked (x.setMode i (some m))
  | tryLock {x : Cell ι D} {m : Mode} : x.mode i = none → x.Admits m →
      CellApply i (.tryLock m) x .locked (x.setMode i (some m))
  | refused {x : Cell ι D} {m : Mode} : x.mode i = none → x.Refuses m →
      CellApply i (.tryLock m) x .notAvailable x
  | unlock {x : Cell ι D} {m : Mode} : x.mode i = some m →
      CellApply i .unlock x .unlocked (x.setMode i none)
  | read {x : Cell ι D} : x.mode i = some .read → CellApply i .read x (.value x.value) x
  | write {x : Cell ι D} (g : D → D) : x.mode i = some .write →
      CellApply i (.write g) x (.value x.value) { x with value := g x.value }

/-- The cell as an object. -/
def cell [DecidableEq ι] : Object ι (CellOp D) (CellResult D) (Cell ι D) := ⟨CellApply⟩

/-! ### What is seen of the lock -/

/-- The operation that an acquisition is. -/
def Op.cellOp : Op → CellOp D
  | .tryLock m => .tryLock m
  | .lockSpin m | .lockWait m _ => .lock m

/-- The operation that an attempt belongs to. -/
def Caller.cellOp (m : Mode) : Caller → CellOp D
  | .user => .tryLock m
  | .spin | .sect _ => .lock m

/-- What the agent has the lock for. -/
def Pc.mode : Pc ι → Option Mode
  | .guard m | .leaveOk m _ => some m
  | _ => none

/-- Where an agent is with its operation. -/
def Pc.phase : Pc ι → Phase (CellOp D) (CellResult D)
  | .idle | .failed | .guard _ => .idle
  | .attempt m k => .called (k.cellOp m)
  | .exchange _ k | .tooManyReaders k => .called (k.cellOp .read)
  | .enter m _ | .push m _ | .leaveErr m _ | .park m | .await m _ => .called (.lock m)
  | .leaveOk _ _ => .done .locked
  | .didUnlockRead _ _ _ | .didUnlockWrite _ _ _ | .assertFailed => .done .unlocked

/-- The result of the call that has ended here. -/
def Pc.result : Pc ι → List (CellResult D)
  | .guard _ => [.locked]
  | .failed => [.notAvailable]
  | .idle => [.unlocked]
  | _ => []

variable [DecidableEq ι]

/-- What is seen when agent `i` performs `a`. -/
def occurs (i : ι) (a : Act R D) (s : Shared ι D) (l : Local ι R) :
    List (Occurrence ι (CellOp D) (CellResult D)) :=
  match a with
  | .call op => [.call i op.cellOp]
  | .step | .spurious =>
    match step i a s l with
    | some (_, l₁) => l₁.pc.result.map (.ret i)
    | none => []
  | .cancel => [.abort i]
  | .read _ => [.call i .read, .ret i (.value s.inner)]
  | .write f => [.call i (.write fun d => (f (l.reg, d)).2), .ret i (.value s.inner)]
  | .drop => [.call i .unlock]
  | .consume => []

/-- The cell in a configuration of the lock. -/
def toCell (c : Config ι (Shared ι D) (Local ι R)) : Cell ι D :=
  ⟨c.shared.inner, fun i => (c.loc i).pc.mode⟩

variable {i : ι} {a : Act R D} {s s₁ : Shared ι D} {l l₁ : Local ι R} {m : Mode} {k : Caller}
  {c : Config ι (Shared ι D) (Local ι R)} {plat : Platform ι} {value : D} {regs : ι → R}

omit [DecidableEq ι] in
theorem Pc.mode_eq_some {p : Pc ι} : p.mode = some m ↔ p.hasGuard m = true := by
  cases p <;> simp [Pc.mode, Pc.hasGuard]

omit [DecidableEq ι] in
theorem having_toCell : (toCell c).having m = guards m c := by
  ext j
  exact Pc.mode_eq_some

theorem toCell_set (hinner : s₁.inner = c.shared.inner) :
    toCell (c.set i s₁ l₁) = (toCell c).setMode i l₁.pc.mode := by
  simp only [toCell, Cell.setMode, Config.set_shared, Cell.mk.injEq]
  refine ⟨hinner, ?_⟩
  funext j
  by_cases hj : j = i
  · subst hj
    rw [Config.set_loc_self, Function.update_self]
  · rw [Config.set_loc_of_ne hj, Function.update_of_ne hj]

theorem toCell_set_of_mode (hmode : l₁.pc.mode = (c.loc i).pc.mode) :
    toCell (c.set i s₁ l₁) = { toCell c with value := s₁.inner } := by
  simp only [toCell, Config.set_shared, Cell.mk.injEq, true_and]
  funext j
  exact Config.set_loc_congr (f := fun l : Local ι R => l.pc.mode) hmode j

theorem toCell_set_of_eq (hinner : s₁.inner = c.shared.inner)
    (hmode : l₁.pc.mode = (c.loc i).pc.mode) : toCell (c.set i s₁ l₁) = toCell c := by
  rw [toCell_set_of_mode hmode, hinner]
  rfl

/-! ### When an acquisition succeeds -/

namespace Counted

omit [DecidableEq ι]

theorem having_eq_empty (h : Counted c) (hm : (guards m c).ncard = 0) : (toCell c).having m = ∅ := by
  rw [having_toCell]
  exact (Set.ncard_eq_zero (h.finite m)).1 hm

theorem having_nonempty (hm : (guards m c).ncard ≠ 0) :
    ((toCell c).having m).Nonempty := by
  rw [having_toCell]
  exact Set.nonempty_of_ncard_ne_zero hm

theorem admits_read (h : Counted c) {f : Readable} (hf : c.shared.dataLock = f.1) :
    (toCell c).Admits .read := by
  have hlt := f.toNat_lt
  rw [← hf] at hlt
  rcases h.count with ⟨-, -, hword⟩ | ⟨hw, hr, -⟩
  · rw [hword] at hlt
    exact absurd hlt (by decide)
  · refine ⟨h.having_eq_empty hw, ?_⟩
    rw [having_toCell, hr]
    exact hlt

theorem admits_write (h : Counted c) (hfree : c.shared.dataLock = UNLOCKED) :
    (toCell c).Admits .write := by
  rcases h.count with ⟨-, -, hword⟩ | ⟨hw, hr, -⟩
  · rw [hfree] at hword
    exact absurd hword (by decide)
  · rw [hfree] at hr
    exact ⟨h.having_eq_empty hw, h.having_eq_empty hr⟩

theorem refuses_read (h : Counted c) (hle : readClosure c.shared.dataLock = .refuse) :
    (toCell c).Refuses .read := by
  have hle := readClosure_refuse hle
  rcases h.count with ⟨hw, -, -⟩ | ⟨-, -, hlt⟩
  · exact having_nonempty (by omega)
  · omega

theorem refuses_write (h : Counted c) (hne : c.shared.dataLock ≠ UNLOCKED) :
    (toCell c).Refuses .write := by
  rcases h.count with ⟨hw, -, -⟩ | ⟨-, hr, -⟩
  · exact .inl (having_nonempty (by omega))
  · refine .inr (having_nonempty fun hzero => hne ?_)
    rw [hr] at hzero
    exact BitVec.eq_of_toNat_eq hzero

end Counted

/-! ### Every operation is a turn at the cell -/

/-- The turn that an operation of agent `i` should be. -/
abbrev IsTurn (i : ι) (c : Config ι (Shared ι D) (Local ι R))
    (e : List (Occurrence ι (CellOp D) (CellResult D))) (s₁ : Shared ι D) (l₁ : Local ι R) : Prop :=
  cell.Turn i (toCell c) (c.loc i).pc.phase e (toCell (c.set i s₁ l₁)) l₁.pc.phase

theorem IsTurn.same {e : List (Occurrence ι (CellOp D) (CellResult D))}
    (hinner : s₁.inner = c.shared.inner) (hmode : l₁.pc.mode = (c.loc i).pc.mode)
    (ht : cell.Turn i (toCell c) (c.loc i).pc.phase e (toCell c) l₁.pc.phase) : IsTurn i c e s₁ l₁ := by
  rw [IsTurn, toCell_set_of_eq hinner hmode]
  exact ht

theorem IsTurn.quiet (hinner : s₁.inner = c.shared.inner) (hmode : l₁.pc.mode = (c.loc i).pc.mode)
    (hphase : l₁.pc.phase (D := D) = (c.loc i).pc.phase) : IsTurn i c [] s₁ l₁ :=
  .same hinner hmode (by rw [hphase]; exact .stay)

theorem IsTurn.ok (hphase : (c.loc i).pc.phase (D := D) = .called (k.cellOp m)) (hmode : (c.loc i).pc.mode = none)
    (hadmits : (toCell c).Admits m) (hinner : s₁.inner = c.shared.inner) :
    IsTurn i c ((k.ok (ι := ι) m).result.map (.ret i)) s₁ ((c.loc i).goto (k.ok m)) := by
  rw [IsTurn, hphase, toCell_set hinner, Local.goto_pc]
  cases k with
  | user => exact .ends (.tryLock hmode hadmits)
  | spin => exact .ends (.lock hmode hadmits)
  | sect w => exact .commits (.lock hmode hadmits)

theorem IsTurn.err (hphase : (c.loc i).pc.phase (D := D) = .called (k.cellOp m)) (hmode : (c.loc i).pc.mode = none)
    (hrefuses : (toCell c).Refuses m) (hinner : s₁.inner = c.shared.inner) :
    IsTurn i c ((k.err (ι := ι) m).result.map (.ret i)) s₁ ((c.loc i).goto (k.err m)) := by
  have hsame : ∀ p : Pc ι, p.mode = none → toCell (c.set i s₁ ((c.loc i).goto p)) = toCell c :=
    fun p hp => toCell_set_of_eq hinner (hp.trans hmode.symm)
  cases k with
  | user =>
    rw [IsTurn, hphase, hsame _ rfl]
    exact .ends (.refused hmode hrefuses)
  | spin | sect w => exact .quiet hinner hmode.symm hphase.symm

theorem IsTurn.verdict (hc : Counted c) (hphase : (c.loc i).pc.phase (D := D) = .called (k.cellOp .read))
    (hmode : (c.loc i).pc.mode = none) :
    IsTurn i c (((readClosure c.shared.dataLock).next (ι := ι) k).result.map (.ret i)) c.shared
      ((c.loc i).goto ((readClosure c.shared.dataLock).next k)) := by
  cases hv : readClosure c.shared.dataLock with
  | refuse => exact .err hphase hmode (hc.refuses_read hv) rfl
  | tooManyReaders | add f => exact .quiet rfl hmode.symm hphase.symm

theorem advance_turn (hc : Counted c) (h : advance i c.shared (c.loc i) = some (s₁, l₁)) :
    IsTurn i c (l₁.pc.result.map (.ret i)) s₁ l₁ := by
  cases hp : (c.loc i).pc with
  | idle | failed | guard | tooManyReaders | assertFailed => simp [advance, hp] at h
  | attempt m k =>
    cases m with
    | read =>
      simp only [advance, hp] at h
      cases h
      exact .verdict hc (by rw [hp]; rfl) (by rw [hp]; rfl)
    | write =>
      simp only [advance, hp] at h
      split at h <;> cases h
      · exact .ok (by rw [hp]; rfl) (by rw [hp]; rfl) (hc.admits_write ‹_›) rfl
      · exact .err (by rw [hp]; rfl) (by rw [hp]; rfl) (hc.refuses_write ‹_›) rfl
  | exchange f k =>
    simp only [advance, hp] at h
    split at h <;> cases h
    · exact .ok (by rw [hp]; rfl) (by rw [hp]; rfl) (hc.admits_read ‹_›) rfl
    · exact .verdict hc (by rw [hp]; rfl) (by rw [hp]; rfl)
  | enter m w | park m | await m n =>
    simp only [advance, hp] at h
    split at h <;> cases h
    exact .quiet rfl (by rw [hp]; rfl) (by rw [hp]; rfl)
  | push m w =>
    simp only [advance, hp] at h
    cases h
    exact .quiet rfl (by rw [hp]; rfl) (by rw [hp]; rfl)
  | leaveErr m slot =>
    simp only [advance, hp] at h
    cases h
    cases slot <;> exact .quiet rfl (by rw [hp]; rfl) (by rw [hp]; rfl)
  | leaveOk m w =>
    -- the acquisition returns with the guard it has had since its attempt
    simp only [advance, hp] at h
    cases h
    exact .same rfl (by rw [hp]; rfl) (by rw [hp]; exact .returns)
  | didUnlockRead q pending rest | didUnlockWrite q pending rest =>
    rcases pending with _ | ⟨x, pending⟩
    · rcases rest with _ | ⟨q', rest⟩ <;> simp only [advance, hp] at h
      · cases h
        exact .same rfl (by rw [hp]; rfl) (by rw [hp]; exact .returns)
      · split at h <;> cases h
        exact .quiet rfl (by rw [hp]; rfl) (by rw [hp]; rfl)
    · simp only [advance, hp] at h
      cases h
      exact .quiet rfl (by rw [hp]; rfl) (by rw [hp]; rfl)

theorem step_turn (hc : Counted c) (h : step i a c.shared (c.loc i) = some (s₁, l₁)) :
    IsTurn i c (occurs i a c.shared (c.loc i)) s₁ l₁ := by
  cases a with
  | step =>
    rw [occurs, h]
    exact advance_turn hc h
  | call op =>
    have hcall : ∀ p : Pc ι, (c.loc i).pc = p → p.mode = none → p.phase (D := D) = .idle →
        IsTurn i c [.call i op.cellOp] c.shared ((c.loc i).goto op.start) := fun p hp hmode hphase => by
      refine .same rfl (by rw [hp, hmode]; cases op <;> rfl) ?_
      rw [hp, hphase, Local.goto_pc]
      cases op <;> exact .calls
    cases hp : (c.loc i).pc <;> simp only [step, hp, reduceCtorEq] at h <;> cases h <;>
      exact hcall _ hp rfl rfl
  | spurious =>
    rw [occurs, h]
    cases hp : (c.loc i).pc <;> simp only [step, hp, reduceCtorEq] at h
    case exchange f k =>
      cases h
      exact .verdict hc (by rw [hp]; rfl) (by rw [hp]; rfl)
    case park m =>
      cases h
      exact .quiet rfl (by rw [hp]; rfl) (by rw [hp]; rfl)
  | cancel =>
    cases hp : (c.loc i).pc <;> simp only [step, hp, reduceCtorEq] at h
    cases h
    exact .same rfl (by rw [hp]; rfl) (by rw [hp]; exact .aborts)
  | read f =>
    cases hp : (c.loc i).pc <;> simp only [step, hp, reduceCtorEq] at h
    case guard m =>
      cases m <;> simp only [reduceCtorEq] at h
      cases h
      exact .same rfl (by rw [hp]) (by rw [hp]; exact .whole (.read (congrArg Pc.mode hp)))
  | write f =>
    cases hp : (c.loc i).pc <;> simp only [step, hp, reduceCtorEq] at h
    case guard m =>
      cases m <;> simp only [reduceCtorEq] at h
      cases h
      rw [IsTurn, toCell_set_of_mode (by rw [hp]), hp]
      exact .whole (.write _ (congrArg Pc.mode hp))
  | drop =>
    cases hp : (c.loc i).pc <;> simp only [step, hp, reduceCtorEq] at h
    case guard m =>
      have hunlock : ∀ (s : Shared ι D) (p : Pc ι), s.inner = c.shared.inner → p.mode = none →
          p.phase (D := D) = .done .unlocked → IsTurn i c [.call i .unlock] s ((c.loc i).goto p) :=
        fun s p hinner hmode hphase => by
          rw [IsTurn, toCell_set hinner, Local.goto_pc, hphase, hmode, hp]
          exact .begins (.unlock (congrArg Pc.mode hp))
      cases m <;> cases h
      · exact hunlock _ _ rfl (by split <;> rfl) (by split <;> rfl)
      · exact hunlock _ _ rfl (by split <;> rfl) (by split <;> rfl)
  | consume =>
    simp only [step] at h
    split at h <;> cases h
    exact .quiet rfl rfl rfl

/-- The lock is the cell. -/
def simulation (plat : Platform ι) (value : D) (regs : ι → R) :
    PhaseMap sys (init plat value regs) cell ⟨value, fun _ => none⟩ occurs where
  phase l := l.pc.phase
  Rel c x := x = toCell c
  init := rfl
  idle _ := rfl
  agent hc hx hs := ⟨_, rfl, hx ▸ step_turn (counted hc) hs⟩
  env _ hx hs := by
    obtain ⟨p, -, rfl⟩ := env_data hs
    exact hx

/-- **The lock is linearizable.**  In every run the acquisitions, the accesses through the guards and the
drops take effect one after the other at the cell, each between its call and its return; an acquisition
that is abandoned takes no effect.  So an acquisition that returns excludes the guards it should, a
`try_lock_*` that fails has met a guard, and an access returns what the last `WriteGuard` left. -/
theorem linearizable_cell {h : List (Occurrence ι (CellOp D) (CellResult D))}
    (H : sys.History (visible occurs) [] (init plat value regs) h c) :
    cell.Linearizable ⟨value, fun _ => none⟩ h :=
  (simulation plat value regs).simulation.linearizable H

/-- A run in which a write goes before a read, and a `try_lock_write` fails. -/
theorem linearizable_cell_run :
    ∃ (h : List (Occurrence Bool (CellOp ℕ) (CellResult ℕ))) (c : Config Bool (Shared Bool ℕ) (Local Bool Unit)),
      sys.History (visible occurs) [] (init (.new .native) 0 fun _ => ()) h c ∧
      results false h = [.notAvailable, .locked, .value 5] ∧
      results true h = [.locked, .value 0, .unlocked] ∧ cell.Linearizable ⟨0, fun _ => none⟩ h := by
  obtain ⟨h, c, H, hend⟩ := System.exists_note_of_along (M := sys) (P := fun _ _ _ => True)
    (h := []) (c := init (ι := Bool) (R := Unit) (.new .native) (0 : ℕ) fun _ => ()) (visible occurs)
    (p := fun h _ => decide (results false h = [.notAvailable, .locked, .value 5] ∧
      results true h = [.locked, .value 0, .unlocked]))
    ([.agent true (.call (.tryLock .write)), .agent true .step, .agent false (.call (.tryLock .write)),
        .agent false .step, .agent false (.call (.lockBlock .read)), .agent true (.write fun x => (x.1, 5)),
        .agent true .drop] ++ List.replicate 5 (.agent true .step) ++
      List.replicate 4 (.agent false .step) ++ [.agent false (.read fun x _ => x)]) (by decide) (by decide)
  rw [decide_eq_true_eq] at hend
  exact ⟨h, c, H, hend.1, hend.2, linearizable_cell H⟩

/-! ### What the guards exclude -/

omit [DecidableEq ι] in
theorem Counted.no_reader (h : Counted c) {j : ι} (hi : (c.loc i).pc.hasGuard .write = true) :
    (c.loc j).pc.hasGuard .read = false := by
  have hwriter := h.ncard_pos hi
  by_contra hj
  have hreader := h.ncard_pos (Bool.eq_true_of_not_eq_false hj)
  rcases h.count with ⟨-, hr, -⟩ | ⟨hw, -⟩ <;> omega

omit [DecidableEq ι] in
theorem Counted.writer_unique (h : Counted c) {j : ι} (hi : (c.loc i).pc.hasGuard .write = true)
    (hj : (c.loc j).pc.hasGuard .write = true) : i = j := by
  have hwriter := h.ncard_pos hi
  have hone : (guards .write c).ncard = 1 := by
    rcases h.count with ⟨hw, -⟩ | ⟨hw, -⟩ <;> omega
  obtain ⟨k, hk⟩ := Set.ncard_eq_one.1 hone
  have hik : i ∈ guards .write c := hi
  have hjk : j ∈ guards .write c := hj
  rw [hk, Set.mem_singleton_iff] at hik hjk
  rw [hik, hjk]

/-- **The value does not change under a reader**, whatever the others do. -/
theorem read_stable {c' : Config ι (Shared ι D) (Local ι R)}
    (hc : sys.Reachable (init plat value regs) c)
    (hrun : sys.Reach (fun c _ => (c.loc i).pc.hasGuard .read = true) c c') :
    c'.shared.inner = c.shared.inner := by
  refine hrun.invariant (I := fun d => d.shared.inner = c.shared.inner) rfl ?_ ?_
  · intro d j a s l hd hinner hi hs
    cases step_data hs with
    | acquireRead _ _ _ _ _ _ h | acquireWrite _ _ _ _ h | dropRead _ _ _ h | dropWrite _ _ _ h
    | other _ _ h _ => exact h.trans hinner
    | write hj _ _ =>
      -- nobody writes beside a reader
      have hno := (counted (hc.trans hd.reachable)).no_reader (i := j) (j := i) (by rw [hj]; rfl)
      rw [hi] at hno
      cases hno
  · intro d e s _ hinner _ hs
    obtain ⟨p, -, rfl⟩ := env_data hs
    exact hinner

/-- Beside a reader a second one comes and goes, and a writer fails. -/
theorem read_stable_beside :
    ∃ c c' : Config (Fin 3) (Shared (Fin 3) ℕ) (Local (Fin 3) Unit),
      (c.loc 0).pc = .guard .read ∧ (c'.loc 1).pc = .idle ∧ (c'.loc 2).pc = .failed ∧
      c'.shared.inner = c.shared.inner := by
  obtain ⟨c, hc, hend⟩ := System.exists_of_run (M := sys)
    (c := init (ι := Fin 3) (R := Unit) (.new .native) (5 : ℕ) fun _ => ())
    (p := fun c => decide ((c.loc 0).pc = .guard .read ∧
      sys.Along (fun c _ => (c.loc 0).pc.hasGuard .read = true) c
        ([.agent 1 (.call (.tryLock .read)), .agent 1 .step, .agent 1 .step,
          .agent 2 (.call (.tryLock .write)), .agent 2 .step, .agent 1 .drop] ++
          List.replicate 3 (.agent 1 .step)) ∧
      (sys.run c ([.agent 1 (.call (.tryLock .read)), .agent 1 .step, .agent 1 .step,
          .agent 2 (.call (.tryLock .write)), .agent 2 .step, .agent 1 .drop] ++
          List.replicate 3 (.agent 1 .step))).any
        (fun c' => decide ((c'.loc 1).pc = .idle ∧ (c'.loc 2).pc = .failed)) = true))
    [.agent 0 (.call (.tryLock .read)), .agent 0 .step, .agent 0 .step] (by decide)
  simp only [decide_eq_true_eq] at hend
  obtain ⟨hpc, halong, hany⟩ := hend
  obtain ⟨c', hrun, hend⟩ := System.exists_of_along _ hany halong
  simp only [decide_eq_true_eq] at hend
  exact ⟨c, c', hpc, hend.1, hend.2, read_stable hc hrun⟩

end RwLock

end WasmSafeThread
