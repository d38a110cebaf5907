import WasmSafeThread.Agents.Measure
import WasmSafeThread.Mutex.Returns
import WasmSafeThread.RwLock.ReaderLimit
import WasmSafeThread.RwLock.With

/-!
# Closures under the reader-writer lock return

As with the mutex a call of `with_sync`, `with_mut_sync` and their variants gives the guard back by
itself.  So wherever the calls are, all of them can still return (`all_return`), although the closures of
readers run side by side and a writer waits for all of them.  There must be room for each reader: a
`try_lock_read` that meets 127 readers panics, inside `lock_block_read` with the spinlock of a list.

The measure is that of the mutex: the closures that have not ended; the steps of the calls without them;
the accesses of the closures that run.  The accesses of a reader leave the value, so they leave what the
other readers still have to do.
-/

namespace WasmSafeThread

namespace RwLock

namespace With

variable {ι D R : Type*}

/-- In `try_lock_read`. -/
def tries : RwLock.Pc ι → Bool
  | .attempt .read _ | .exchange _ _ => true
  | _ => false

/-- The step is not that of a `try_lock_read` that meets 127 readers. -/
def Room (c : Config ι (Shared ι D) (Local ι D R)) : Label ι (Act D R) (Event ι) → Bool
  | .agent i .step | .agent i .spurious => !(tries (c.loc i).rw.pc && c.shared.full)
  | _ => true

/-- A call is one of a closure that gives the guard back. -/
def Fits (backend : Backend) : Label ι (Act D R) (Event ι) → Prop
  | .agent _ (.call x) => Mutex.With.GivesBack backend x.closure
  | _ => True

/-- What is left of the closures gives the guard back, and none has not. -/
def Pc.Fair (backend : Backend) : Pc D R → Prop
  | .locking x => Mutex.With.GivesBack backend x.closure
  | .running _ b => Mutex.With.GivesBack backend b
  | .aborted _ => False
  | .ready | .dropping _ => True

variable [DecidableEq ι] {i : ι} {a : Act D R} {s s₁ : Shared ι D} {l l₁ : Local ι D R}
  {lrw lrw₁ : RwLock.Local ι Unit} {c : Config ι (Shared ι D) (Local ι D R)} {plat : Platform ι}
  {value : D} {backend : Backend} {m : RwLock.Act Unit D}

theorem Move.frame (hm : Move i s l a s₁ l₁) :
    s₁ = s ∧ l₁.rw = l.rw ∨ ∃ m, RwLock.step i m s l.rw = some (s₁, l₁.rw) ∧
      (m = .step ∨ m = .spurious → a = .step ∨ a = .spurious) := by
  cases hm with
  | call _ _ _ _ hs | ends _ _ _ _ _ _ _ hs | cancel _ _ _ _ hs | consume _ _ _ hs =>
    exact .inr ⟨_, hs, by rintro (h | h) <;> cases h⟩
  | access x _ _ _ _ _ hs =>
    refine .inr ⟨_, hs, ?_⟩
    cases x.mode <;> rintro (h | h) <;> cases h
  | lock _ _ _ _ _ hs | drop _ _ _ _ _ hs => exact .inr ⟨_, hs, fun _ => .inl rfl⟩
  | spurious _ _ hs => exact .inr ⟨_, hs, fun _ => .inr rfl⟩
  | run | abort | returns => exact .inl ⟨rfl, rfl⟩

omit [DecidableEq ι] in
theorem not_full (h : Room c (.agent i a) = true) (ha : a = .step ∨ a = .spurious)
    (ht : tries (c.loc i).rw.pc = true) : c.shared.full = false := by
  rcases ha with rfl | rfl <;> simpa [Room, ht] using h

/-! ### No attempt panics -/

omit [DecidableEq ι] in
theorem next_ne {f : BitVec 8} (hf : f ≠ LOCKED_WRITE - 1) (k k' : Caller) :
    ((readClosure f).next k : RwLock.Pc ι) ≠ .tooManyReaders k' := by
  unfold readClosure
  split
  · cases k <;> rintro ⟨⟩
  · rintro ⟨⟩

omit [DecidableEq ι] in
theorem dataLock_ne (h : s.full = false) : s.dataLock ≠ LOCKED_WRITE - 1 := of_decide_eq_false h

theorem advance_ne (hroom : tries lrw.pc = true → s.full = false)
    (hs : advance i s lrw = some (s₁, lrw₁)) (k' : Caller) : lrw₁.pc ≠ .tooManyReaders k' := by
  cases hp : lrw.pc with
  | attempt m k =>
    cases m with
    | read =>
      simp only [advance, hp] at hs
      cases hs
      exact next_ne (dataLock_ne (hroom (by rw [hp]; rfl))) k k'
    | write =>
      simp only [advance, hp] at hs
      split at hs <;> cases hs <;> cases k <;> rintro ⟨⟩
  | exchange f k =>
    simp only [advance, hp] at hs
    split at hs <;> cases hs
    · cases k <;> rintro ⟨⟩
    · exact next_ne (dataLock_ne (hroom (by rw [hp]; rfl))) k k'
  | idle | failed | guard | tooManyReaders | assertFailed => simp [advance, hp] at hs
  | enter | park | await =>
    simp only [advance, hp] at hs
    split at hs <;> cases hs
    rintro ⟨⟩
  | push | leaveOk =>
    simp only [advance, hp] at hs
    cases hs
    rintro ⟨⟩
  | leaveErr m slot =>
    simp only [advance, hp] at hs
    cases hs
    cases slot <;> rintro ⟨⟩
  | didUnlockRead q pending rest | didUnlockWrite q pending rest =>
    rcases pending with _ | ⟨x, pending⟩
    · rcases rest with _ | ⟨q', rest⟩ <;> simp only [advance, hp] at hs
      · cases hs
        rintro ⟨⟩
      · split at hs <;> cases hs
        rintro ⟨⟩
    · simp only [advance, hp] at hs
      cases hs
      rintro ⟨⟩

theorem step_ne (hl : ∀ k, lrw.pc ≠ .tooManyReaders k)
    (hroom : m = .step ∨ m = .spurious → tries lrw.pc = true → s.full = false)
    (hs : RwLock.step i m s lrw = some (s₁, lrw₁)) (k : Caller) : lrw₁.pc ≠ .tooManyReaders k := by
  cases m with
  | step => exact advance_ne (hroom (.inl rfl)) hs k
  | spurious =>
    cases hp : lrw.pc <;> simp only [RwLock.step, hp, reduceCtorEq] at hs <;> cases hs
    · exact next_ne (dataLock_ne (hroom (.inr rfl) (by rw [hp]; rfl))) _ k
    · rintro ⟨⟩
  | call op =>
    cases hp : lrw.pc <;> simp only [RwLock.step, hp, reduceCtorEq] at hs <;> cases hs <;> cases op <;>
      rintro ⟨⟩
  | cancel =>
    cases hp : lrw.pc <;> simp only [RwLock.step, hp, reduceCtorEq] at hs
    cases hs
    rintro ⟨⟩
  | consume =>
    simp only [RwLock.step] at hs
    split at hs <;> cases hs
    exact hl k
  | read | write =>
    cases hp : lrw.pc with
    | guard m =>
      cases m <;> simp only [RwLock.step, hp, reduceCtorEq] at hs
      cases hs
      rintro ⟨⟩
    | _ => simp only [RwLock.step, hp, reduceCtorEq] at hs
  | drop =>
    cases hp : lrw.pc with
    | guard m =>
      cases m <;> simp only [RwLock.step, hp] at hs <;> cases hs <;> rw [RwLock.Local.goto_pc] <;>
        split <;> rintro ⟨⟩
    | _ => simp only [RwLock.step, hp, reduceCtorEq] at hs

/-! ### The closures that are called -/

/-- The backend stays. -/
theorem advance_backend (hs : advance i s lrw = some (s₁, lrw₁)) :
    s₁.plat.backend = s.plat.backend := by
  cases hp : lrw.pc with
  | attempt m k =>
    cases m <;> simp only [advance, hp] at hs
    · cases hs
      rfl
    · split at hs <;> cases hs <;> rfl
  | exchange | enter | park | await =>
    simp only [advance, hp] at hs
    split at hs <;> cases hs <;> rfl
  | idle | failed | guard | tooManyReaders | assertFailed => simp [advance, hp] at hs
  | push m w =>
    simp only [advance, hp] at hs
    cases hs
    cases w <;> rfl
  | leaveOk | leaveErr =>
    simp only [advance, hp] at hs
    cases hs
    rfl
  | didUnlockRead q pending rest | didUnlockWrite q pending rest =>
    rcases pending with _ | ⟨x, pending⟩
    · rcases rest with _ | ⟨q', rest⟩ <;> simp only [advance, hp] at hs
      · cases hs
        rfl
      · split at hs <;> cases hs
        rfl
    · simp only [advance, hp] at hs
      cases hs
      cases x <;> rfl

theorem step_backend (hs : RwLock.step i m s lrw = some (s₁, lrw₁)) :
    s₁.plat.backend = s.plat.backend := by
  cases m with
  | step => exact advance_backend hs
  | consume =>
    simp only [RwLock.step] at hs
    split at hs <;> cases hs
    rfl
  | read | write | drop =>
    cases hp : lrw.pc with
    | guard m =>
      cases m <;> simp only [RwLock.step, hp, reduceCtorEq] at hs <;> cases hs <;> rfl
    | _ => simp only [RwLock.step, hp, reduceCtorEq] at hs
  | call | spurious | cancel =>
    cases hp : lrw.pc <;> simp only [RwLock.step, hp, reduceCtorEq] at hs <;> cases hs <;> rfl

theorem Move.fair (hm : Move i s l a s₁ l₁) (hb : s.plat.backend = backend) (hl : l.pc.Fair backend)
    (ha : Fits (ι := ι) backend (.agent i a)) : l₁.pc.Fair backend := by
  cases hm with
  | call x hp s₁ lrw hs => exact ha
  | lock x hp hrw s₁ lrw hs => exact hp ▸ hl
  | run x hp hrw =>
    rw [hp] at hl
    exact hl
  | access x write next hp s₁ lrw hs =>
    rw [hp] at hl
    exact hl.imp_right fun h => h _
  | abort x hp hwasm =>
    rw [hp] at hl
    rcases hl with hnative | hsafe
    · rw [hnative, hwasm] at hb
      cases hb
    · exact hsafe
  | ends | drop | returns | cancel | consume => trivial
  | spurious s₁ lrw hs => exact hl

/-- In a run of such calls, with room for the readers, no closure has kept its guard and no attempt has
panicked. -/
structure Fair (backend : Backend) (c : Config ι (Shared ι D) (Local ι D R)) : Prop where
  same : c.shared.plat.backend = backend
  closures : ∀ i, (c.loc i).pc.Fair backend
  attempts : ∀ i k, (c.loc i).rw.pc ≠ .tooManyReaders k

/-- The runs of such calls. -/
abbrev Allowed (backend : Backend) (c : Config ι (Shared ι D) (Local ι D R))
    (a : Label ι (Act D R) (Event ι)) : Prop :=
  Room c a = true ∧ Fits backend a

theorem fair (h : sys.Reach (Allowed plat.backend) (init plat value) c) : Fair plat.backend c := by
  refine h.invariant (I := Fair plat.backend) ⟨rfl, fun _ => trivial, by rintro i k ⟨⟩⟩ ?_ ?_
  · intro c i a s l _ ih ha hs
    have hm := step_move hs
    have hframe : s.plat.backend = c.shared.plat.backend ∧ ∀ k, l.rw.pc ≠ .tooManyReaders k := by
      rcases hm.frame with ⟨rfl, hrw⟩ | ⟨m, hs, ham⟩
      · exact ⟨rfl, fun k => hrw ▸ ih.attempts i k⟩
      · exact ⟨step_backend hs, step_ne (ih.attempts i) (fun hm => not_full ha.1 (ham hm)) hs⟩
    refine ⟨hframe.1.trans ih.same, fun j => ?_, fun j => ?_⟩ <;> by_cases hj : j = i
    · subst hj
      rw [Config.set_loc_self]
      exact hm.fair ih.same (ih.closures j) ha.2
    · rw [Config.set_loc_of_ne hj]
      exact ih.closures j
    · subst hj
      rw [Config.set_loc_self]
      exact hframe.2
    · rw [Config.set_loc_of_ne hj]
      exact ih.attempts j
  · intro c e s _ ih _ hs
    obtain ⟨p, hp, rfl⟩ := env_data (R := Unit) hs
    exact ⟨(Platform.apply_backend hp).trans ih.same, ih.closures, ih.attempts⟩

/-- The run of the lock has no panic inside a section. -/
theorem outside (h : sys.Reach (Allowed plat.backend) (init plat value) c) :
    RwLock.sys.Reach (fun c a => Outside c a = true) (RwLock.init plat value fun _ => ())
      (toRwLock.config c) := by
  refine h.invariant (I := fun c => RwLock.sys.Reach (fun c a => Outside c a = true)
    (RwLock.init plat value fun _ => ()) (toRwLock.config c)) .refl ?_ ?_
  · intro c i a s l _ ih ha hs
    rcases (step_move hs).frame with ⟨rfl, hrw⟩ | ⟨m, hs, ham⟩
    · rw [toRwLock.config_set_of_eq hrw]
      exact ih
    · rw [toRwLock.config_set]
      refine ih.agent ?_ hs
      have hrisks : m = .step ∨ m = .spurious → ((c.loc i).rw.pc.risks && c.shared.full) = false :=
        fun hm => Bool.eq_false_iff.2 fun hboth => by
          obtain ⟨hrisk, hfull⟩ := Bool.and_eq_true_iff.1 hboth
          have hno := not_full ha.1 (ham hm) (by
            cases hp : (c.loc i).rw.pc with
            | attempt m k => cases m <;> rw [hp] at hrisk <;> first | rfl | cases hrisk
            | exchange f k => rfl
            | _ => rw [hp] at hrisk; cases hrisk)
          rw [hno] at hfull
          cases hfull
      cases m with
      | step => exact congrArg not (hrisks (.inl rfl))
      | spurious => exact congrArg not (hrisks (.inr rfl))
      | call | cancel | read | write | drop | consume => rfl
  · intro c e s _ ih _ hs
    exact ih.tail (a := .env e) rfl (by simp only [System.next]; exact congrArg (Option.map _) hs)

/-! ### The measure -/

/-- The closure has not ended. -/
def Pc.todo : Pc D R → ℕ
  | .locking _ | .running _ _ => 1
  | _ => 0

/-- How far the call is from its end, apart from the lock and the closure. -/
def Pc.rank : Pc D R → ℕ
  | .locking _ => 2
  | .running _ _ | .dropping _ => 1
  | _ => 0

/-- How many accesses the closure will make, on the value `d`. -/
def Pc.left (d : D) : Pc D R → ℕ
  | .running _ b => b.length d
  | _ => 0

/-- The rank of both frames. -/
def Local.rank (l : Local ι D R) : ℕ := l.pc.rank + l.rw.pc.rank

/-- The closures that have not ended; the steps of the calls without them; the accesses of the closures
that run. -/
def measure (F : Finset ι) (c : Config ι (Shared ι D) (Local ι D R)) : ℕ ×ₗ ℕ ×ₗ ℕ :=
  c.lexSum F (fun l => l.pc.todo) Local.rank Shared.entries fun s l => l.pc.left s.inner

variable {F : Finset ι}

/-! ### Every call returns -/

/-- Agent `i` can make a step, for which there is room, that brings the calls nearer to their ends. -/
def Advances (F : Finset ι) (i : ι) (c : Config ι (Shared ι D) (Local ι D R)) : Prop :=
  ∃ s l, step i .step c.shared (c.loc i) = some (s, l) ∧ Room c (.agent i .step) = true ∧
    measure F (c.set i s l) < measure F c

omit [DecidableEq ι] in
theorem room_of_not_tries (h : tries (c.loc i).rw.pc = false) : Room c (.agent i .step) = true := by
  simp [Room, h]

/-- A closure goes on, or ends. -/
theorem advances_running (h : sys.Reachable (init plat value) c) (hfair : Fair plat.backend c) (hi : i ∈ F)
    {x : Call D R} {b : Body D R} (hp : (c.loc i).pc = .running x b) : Advances F i c := by
  have hl := shape h i
  rw [Local.Shape, hp] at hl
  obtain ⟨hg, hread⟩ := hl
  have hroom : Room c (.agent i .step) = true := room_of_not_tries (by rw [hg]; rfl)
  have hb : Mutex.With.GivesBack plat.backend b := by
    have := hfair.closures i
    rwa [hp] at this
  have hends : ∀ r, run i c.shared (c.loc i) x b = lift i .drop c.shared (c.loc i) (.dropping r) →
      Advances F i c := fun r hrun => by
    obtain ⟨s, lrw, hs⟩ : ∃ s lrw, RwLock.step i .drop c.shared (c.loc i).rw = some (s, lrw) := by
      cases hx : x.mode <;> rw [hx] at hg <;> simp [RwLock.step, hg]
    refine ⟨s, ⟨lrw, .dropping r⟩, ?_, hroom,
      Config.lexSum_lt_of_first hi (by rw [hp]; exact Nat.zero_lt_one)⟩
    simp only [step, hp, hrun, lift, hs, Option.map_some]
  cases b with
  | ret r => exact hends (some r) rfl
  | panic =>
    refine hends none ?_
    have hnative : c.shared.plat.backend = .native := hfair.same.trans (hb.resolve_right id)
    simp [run, hnative]
  | access write next =>
    cases hx : x.mode with
    | read =>
      have hwrite := (hread hx).1 c.shared.inner
      rw [hx] at hg
      refine ⟨c.shared, ⟨⟨.guard .read, ()⟩, .running x (next c.shared.inner)⟩, ?_, hroom,
        Config.lexSum_lt_of_third hi (by rw [hp]; rfl) ?_ rfl (fun j _ => rfl) ?_⟩
      · simp only [step, hp, run, lift, hx, access, RwLock.step, hg]
        rfl
      · rw [Local.rank, Local.rank, hp, hg]
        rfl
      · rw [hp]
        show (next c.shared.inner).length c.shared.inner <
          (next c.shared.inner).length (write c.shared.inner) + 1
        rw [hwrite]
        exact Nat.lt_succ_self _
    | write =>
      rw [hx] at hg
      refine ⟨{ c.shared with inner := write c.shared.inner },
        ⟨⟨.guard .write, ()⟩, .running x (next c.shared.inner)⟩, ?_, hroom,
        Config.lexSum_lt_of_third hi (by rw [hp]; rfl) ?_ rfl (fun j hj => ?_) ?_⟩
      · simp only [step, hp, run, lift, hx, access, RwLock.step, hg]
        rfl
      · rw [Local.rank, Local.rank, hp, hg]
        rfl
      · cases hpj : (c.loc j).pc with
        | running y b' =>
          have hin : (c.loc j).pc.inside = some y.mode := by rw [hpj]; rfl
          cases (inside_excluded h hg hj hin).1
        | _ => rfl
      · rw [hp]
        exact Nat.lt_succ_self _

theorem advances_frame (hi : i ∈ F)
    (hp : (∃ x, (c.loc i).pc = .locking x ∧ (c.loc i).rw.pc = .guard x.mode) ∨
      ∃ r, (c.loc i).pc = .dropping r ∧ (c.loc i).rw.pc = .idle) : Advances F i c := by
  rcases hp with ⟨x, hp, hrw⟩ | ⟨r, hp, hrw⟩
  · refine ⟨c.shared, (c.loc i).goto (.running x x.closure), by simp [step, hp, hrw],
      room_of_not_tries (by rw [hrw]; rfl), Config.lexSum_lt_of_second hi (by rw [hp]; rfl) ?_⟩
    rw [Local.rank, Local.rank, hp, Local.goto_pc, Local.goto_rw]
    show 1 + _ + _ < 2 + _ + _
    omega
  · refine ⟨c.shared, (c.loc i).goto .ready, by simp [step, hp, hrw],
      room_of_not_tries (by rw [hrw]; rfl), Config.lexSum_lt_of_second hi (by rw [hp]; rfl) ?_⟩
    rw [Local.rank, Local.rank, hp, Local.goto_pc, Local.goto_rw]
    show 0 + _ + _ < 1 + _ + _
    omega

/-- A call that goes on in the lock. -/
theorem advances_lock (h : sys.Reachable (init plat value) c) (hi : i ∈ F)
    (hroom : Room c (.agent i .step) = true) (hguard : ∀ m, (c.loc i).rw.pc ≠ .guard m)
    (hadv : RwLock.Advances i (toRwLock.config c)) : Advances F i c := by
  obtain ⟨a, s, lrw, ha, hs, -, -, hlt⟩ := hadv
  have hs : RwLock.step i a c.shared (c.loc i).rw = some (s, lrw) := hs
  have hlt : lrw.pc.rank + s.entries < (c.loc i).rw.pc.rank + c.shared.entries := hlt
  have hl := shape h i
  rcases ha with rfl | rfl
  · have hidle : (c.loc i).rw.pc ≠ .idle := fun hp => by
      simp [RwLock.step, advance, hp] at hs
    refine ⟨s, ⟨lrw, (c.loc i).pc⟩, ?_, hroom, Config.lexSum_lt_of_second hi rfl ?_⟩
    · cases hp : (c.loc i).pc with
      | locking x => simp [step, hp, hguard x.mode, lift, hs]
      | dropping r => simp [step, hp, hidle, lift, hs]
      | ready =>
        rw [Local.Shape, hp] at hl
        exact absurd hl hidle
      | running x b =>
        rw [Local.Shape, hp] at hl
        exact absurd hl.1 (hguard _)
      | aborted x =>
        rw [Local.Shape, hp] at hl
        exact absurd hl (hguard _)
    · rw [Local.rank, Local.rank]
      show (c.loc i).pc.rank + lrw.pc.rank + _ < _
      omega
  · cases hp : (c.loc i).rw.pc with
    | guard m => exact absurd hp (hguard m)
    | _ => simp only [RwLock.step, hp, reduceCtorEq] at hs

/-- **Some call goes on**, as long as not all have returned. -/
theorem advances (h : sys.Reach (Allowed plat.backend) (init plat value) c)
    (hF : ∀ i, (c.loc i).pc ≠ .ready → i ∈ F) (hcall : ∃ i, (c.loc i).pc ≠ .ready) :
    ∃ i, (c.loc i).pc ≠ .ready ∧ Advances F i c := by
  have hreach := h.reachable
  have hfair := fair h
  by_contra hno
  have hno : ∀ i, (c.loc i).pc ≠ .ready → ¬ Advances F i c := fun i hi hadv => hno ⟨i, hi, hadv⟩
  -- so every call is in the lock
  have hinside : ∀ i, (c.loc i).pc ≠ .ready → (∀ m, (c.loc i).rw.pc ≠ .guard m) ∧
      (c.loc i).rw.pc.rank ≠ 0 := fun i hi => by
    have hl := shape hreach i
    have hattempt := hfair.attempts i
    have hassert := (counted (rwLock_reachable hreach)).assertions i
    have hassert : (c.loc i).rw.pc ≠ .assertFailed := hassert
    cases hp : (c.loc i).pc with
    | ready => exact absurd hp hi
    | running x b => exact absurd (advances_running hreach hfair (hF i hi) hp) (hno i hi)
    | aborted x =>
      have := hfair.closures i
      rw [hp] at this
      exact this.elim
    | locking x =>
      rw [Local.Shape, hp] at hl
      refine ⟨fun m hg => ?_, fun hz => ?_⟩
      · rw [hg] at hl
        obtain rfl : m = x.mode := of_decide_eq_true hl
        exact hno i hi (advances_frame (hF i hi) (.inl ⟨x, hp, hg⟩))
      · rcases Pc.of_rank hz with hrw | hrw | ⟨k, hrw⟩ | hrw
        · rw [hrw] at hl
          cases hl
        · rw [hrw] at hl
          cases hl
        · exact hattempt k hrw
        · exact hassert hrw
    | dropping r =>
      rw [Local.Shape, hp] at hl
      refine ⟨fun m hg => ?_, fun hz => ?_⟩
      · rw [hg] at hl
        cases hl
      · rcases Pc.of_rank hz with hrw | hrw | ⟨k, hrw⟩ | hrw
        · exact hno i hi (advances_frame (hF i hi) (.inr ⟨r, hp, hrw⟩))
        · rw [hrw] at hl
          cases hl
        · exact hattempt k hrw
        · exact hassert hrw
  have hidle : ∀ i, (c.loc i).pc = .ready → (c.loc i).rw.pc = .idle := fun i hi => by
    have hl := shape hreach i
    rwa [Local.Shape, hi] at hl
  -- nobody has a guard, so there is room
  have hguards : ∀ i m, (c.loc i).rw.pc.hasGuard m = false := fun i m => by
    by_cases hready : (c.loc i).pc = .ready
    · rw [hidle i hready]
      rfl
    · cases hp : (c.loc i).rw.pc with
      | guard m' => exact absurd hp ((hinside i hready).1 m')
      | leaveOk m' w =>
        refine absurd (advances_lock hreach (hF i hready) (room_of_not_tries (by rw [hp]; rfl))
          (hinside i hready).1 ?_) (hno i hready)
        exact RwLock.advances_leaving (.inl ⟨m', w, hp⟩)
      | _ => rfl
  have hfree : c.shared.dataLock = UNLOCKED := (counted (rwLock_reachable hreach)).unlocked hguards
  have hroom : c.shared.full = false := by
    rw [Shared.full, hfree]
    decide
  obtain ⟨i, hi⟩ := hcall
  obtain ⟨j, hadv⟩ := RwLock.advances (outside h) ⟨i, (hinside i hi).2⟩
  have hready : (c.loc j).pc ≠ .ready := fun hready => by
    obtain ⟨a, s, lrw, ha, hs, -⟩ := hadv
    have hs : RwLock.step j a c.shared (c.loc j).rw = some (s, lrw) := hs
    rcases ha with rfl | rfl <;> simp [RwLock.step, advance, hidle j hready] at hs
  exact hno j hready
    (advances_lock hreach (hF j hready) (by simp [Room, hroom]) (hinside j hready).1 hadv)

/-- **Every call returns.**  Wherever the calls are, in a run in which no `try_lock_read` has met 127
readers, all of them can still return by steps of their own alone, in such a run again; then there is no
reader and no writer, and no spinlock is locked.  A closure that panics is no exception on the native
backend; on wasm the closures must not panic. -/
theorem all_return (h : sys.Reach (Allowed plat.backend) (init plat value) c) :
    ∃ c', sys.Reach (fun c a => (∃ i, a = .agent i .step) ∧ Room c a = true) c c' ∧
      (∀ i, (c'.loc i).pc = .ready) ∧ c'.shared.dataLock = UNLOCKED ∧
      ∀ q, (c'.shared.waiting q).locked = false := by
  obtain ⟨c', hreach, hc', hready⟩ := System.reach_rest (p := fun l : Local ι D R => l.pc = .ready)
    (a := .step) measure (fun _ => rfl) (fun F c₁ h₁ hF hcall => by
      obtain ⟨i, hi, s, l, hs, hroom, hlt⟩ := advances h₁ hF hcall
      exact ⟨i, s, l, hi, hs, ⟨hroom, trivial⟩, hlt⟩) h
  have hidle : ∀ i, (c'.loc i).rw.pc = .idle := fun i => by
    have hl := shape hc'.reachable i
    rwa [Local.Shape, hready i] at hl
  refine ⟨c', hreach.mono fun _ _ hstep => ⟨hstep.1, hstep.2.1⟩, hready, ?_, fun q => ?_⟩
  · refine (counted (rwLock_reachable hc'.reachable)).unlocked fun i m => ?_
    show (c'.loc i).rw.pc.hasGuard m = false
    rw [hidle i]
    rfl
  · by_contra hq
    obtain ⟨i, hi⟩ := sections (outside hc') q (Bool.eq_true_of_not_eq_false hq)
    have hi : (c'.loc i).rw.pc.sect = some q := hi
    rw [hidle i] at hi
    cases hi

omit [DecidableEq ι] in
theorem fits_native (a : Label ι (Act D R) (Event ι)) : Fits .native a := by
  rcases a with ⟨i, a⟩ | e
  · cases a with
    | call x => exact .inl rfl
    | _ => trivial
  · trivial

/-- Two readers are inside, a writer waits for them, and the future of another one is pending. -/
theorem all_return_readers :
    ∃ c : Config (Fin 4) (Shared (Fin 4) ℕ) (Local (Fin 4) ℕ (ℕ × ℕ)),
      (c.loc 0).pc.inside = some .read ∧ (c.loc 1).pc.inside = some .read ∧
      (c.loc 2).rw.pc = .park .write ∧ (c.loc 3).rw.pc = .await .write 0 ∧
      ∃ c', sys.Reach (fun c a => (∃ i, a = .agent i .step) ∧ Room c a = true) c c' ∧
        (∀ i, (c'.loc i).pc = .ready) ∧ c'.shared.dataLock = UNLOCKED ∧
        ∀ q, (c'.shared.waiting q).locked = false := by
  obtain ⟨c, hc, hend⟩ := System.exists_of_along (M := sys) (P := fun c a => Room c a = true)
    (c := init (ι := Fin 4) (R := ℕ × ℕ) (.new .native) 0)
    (p := fun c => decide ((c.loc 0).pc.inside = some .read ∧ (c.loc 1).pc.inside = some .read ∧
      (c.loc 2).rw.pc = .park .write ∧ (c.loc 3).rw.pc = .await .write 0))
    ([.agent 0 (.call (withSync addTwice)), .agent 1 (.call (withSync addTwice)),
        .agent 2 (.call (withMutSync addTwice)), .agent 3 (.call (withMutAsync addTwice))] ++
      List.replicate 6 (.agent 0 .step) ++ List.replicate 6 (.agent 1 .step) ++
      List.replicate 4 (.agent 2 .step) ++ List.replicate 4 (.agent 3 .step)) (by decide) (by decide)
  rw [decide_eq_true_eq] at hend
  obtain ⟨hzero, hone, hpark, hawait⟩ := hend
  exact ⟨c, hzero, hone, hpark, hawait, all_return (hc.mono fun _ a hroom => ⟨hroom, fits_native a⟩)⟩

end With

end RwLock

end WasmSafeThread
