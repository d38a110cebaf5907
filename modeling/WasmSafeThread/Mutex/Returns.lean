import WasmSafeThread.Agents.Measure
import WasmSafeThread.Mutex.Deadlines
import WasmSafeThread.Mutex.With

/-!
# Closures under the mutex return

A call of `with_sync` and its variants gives the guard back by itself.  So wherever the calls are, all of
them can still return, however the closures that wait will find the value (`with_returns`).  Only on wasm
a closure that panics takes the mutex with it.

How long a closure runs depends on the value that it finds, which is not known while it waits for the
lock.  The measure (`measure`) counts the closures that have not ended before anything else.
-/

namespace WasmSafeThread

namespace Mutex

namespace With

variable {ι D R : Type*}

/-- The closure gives the guard back: on wasm it must not panic. -/
def GivesBack (backend : Backend) (b : Body D R) : Prop := backend = .native ∨ b.Safe

/-- A step that calls no closure but one that gives the guard back. -/
def Allowed (backend : Backend) : Label ι (Act D R) (Event ι) → Prop
  | .agent _ (.call x) => GivesBack backend x.closure
  | _ => True

/-- What is left of the closures gives the guard back, and none has not. -/
def Pc.Fair (backend : Backend) : Pc D R → Prop
  | .locking x => GivesBack backend x.closure
  | .running _ b => GivesBack backend b
  | .aborted _ => False
  | .ready | .dropping _ => True

variable [DecidableEq ι] {i : ι} {a : Act D R} {s s₁ : Shared ι Unit D} {l l₁ : Local ι D R}
  {c : Config ι (Shared ι Unit D) (Local ι D R)} {plat : Platform ι} {value : D}

theorem Move.backend (hm : Move i s l a s₁ l₁) : s₁.plat.backend = s.plat.backend := by
  cases hm with
  | call _ _ _ _ hs | lock _ _ _ _ _ hs | access _ _ _ _ _ _ hs | ends _ _ _ _ _ _ _ hs
  | drop _ _ _ _ _ hs | spurious _ _ hs | cancel _ _ _ _ hs | consume _ _ _ hs =>
    exact (step_plat hs).backend
  | run | abort | returns => rfl

theorem Move.fair {backend : Backend} (hm : Move i s l a s₁ l₁) (hb : s.plat.backend = backend)
    (hl : l.pc.Fair backend) (ha : Allowed (ι := ι) backend (.agent i a)) : l₁.pc.Fair backend := by
  cases hm with
  | call x hp s₁ lmx hs => exact ha
  | lock x hp hmx s₁ lmx hs => exact hp ▸ hl
  | run x hp hmx =>
    rw [hp] at hl
    exact hl
  | access x write next hp s₁ lmx hs =>
    rw [hp] at hl
    exact hl.imp_right fun h => h _
  | abort x hp hwasm =>
    rw [hp] at hl
    rcases hl with hnative | hsafe
    · rw [hnative, hwasm] at hb
      cases hb
    · exact hsafe
  | ends | drop | returns | cancel | consume => trivial
  | spurious s₁ lmx hs => exact hl

/-- In a run of such calls no agent has aborted. -/
structure Fair (backend : Backend) (c : Config ι (Shared ι Unit D) (Local ι D R)) : Prop where
  same : c.shared.plat.backend = backend
  agents : ∀ i, (c.loc i).pc.Fair backend

theorem fair (h : sys.Reach (fun _ a => Allowed plat.backend a) (init plat value) c) :
    Fair plat.backend c := by
  refine h.invariant (I := Fair plat.backend) ⟨rfl, fun _ => trivial⟩ ?_ ?_
  · intro c i a s l _ ih ha hs
    have hm := step_move hs
    refine ⟨hm.backend.trans ih.same, fun j => ?_⟩
    by_cases hj : j = i
    · subst hj
      rw [Config.set_loc_self]
      exact hm.fair ih.same (ih.agents j) ha
    · rw [Config.set_loc_of_ne hj]
      exact ih.agents j
  · intro c e s _ ih _ hs
    simp only [sys, Option.map_eq_some_iff] at hs
    obtain ⟨p, hp, rfl⟩ := hs
    exact ⟨(Platform.apply_backend hp).trans ih.same, ih.agents⟩

/-! ### The measure -/

/-- The closure has not ended. -/
def Pc.todo : Pc D R → ℕ
  | .locking _ | .running _ _ => 1
  | _ => 0

/-- How far the call is from its end, apart from the mutex and the closure. -/
def Pc.rank : Pc D R → ℕ
  | .locking _ => 2
  | .running _ _ | .dropping _ => 1
  | _ => 0

/-- How many accesses the closure will make, on the value `d`. -/
def Pc.left (d : D) : Pc D R → ℕ
  | .running _ b => b.length d
  | _ => 0

/-- The rank of both frames. -/
def Local.rank (l : Local ι D R) : ℕ := l.pc.rank + l.mx.pc.rank

/-- The closures that have not ended; the steps of the calls without them; the accesses of the closure
that runs. -/
def measure (F : Finset ι) (c : Config ι (Shared ι Unit D) (Local ι D R)) : ℕ ×ₗ ℕ ×ₗ ℕ :=
  toLex (∑ i ∈ F, (c.loc i).pc.todo,
    toLex (∑ i ∈ F, (c.loc i).rank + c.shared.entries, ∑ i ∈ F, (c.loc i).pc.left c.shared.inner))

variable {F : Finset ι}

theorem measure_lt_of_todo (hi : i ∈ F) (h : l.pc.todo < (c.loc i).pc.todo) :
    measure F (c.set i s l) < measure F c :=
  Config.lexSum_lt_of_first (f := fun l : Local ι D R => l.pc.todo) (g := Local.rank)
    (t := Shared.entries) (w := fun s l => l.pc.left s.inner) hi h

theorem measure_lt_of_rank (hi : i ∈ F) (htodo : l.pc.todo = (c.loc i).pc.todo)
    (h : l.rank + s.entries < (c.loc i).rank + c.shared.entries) :
    measure F (c.set i s l) < measure F c :=
  Config.lexSum_lt_of_second (f := fun l : Local ι D R => l.pc.todo) (g := Local.rank)
    (t := Shared.entries) (w := fun s l => l.pc.left s.inner) hi htodo h

theorem measure_lt_of_left (hi : i ∈ F) (htodo : l.pc.todo = (c.loc i).pc.todo)
    (hrank : l.rank = (c.loc i).rank) (hentries : s.entries = c.shared.entries)
    (hothers : ∀ j, j ≠ i → (c.loc j).pc.inside = false)
    (h : l.pc.left s.inner < (c.loc i).pc.left c.shared.inner) :
    measure F (c.set i s l) < measure F c := by
  have hzero : ∀ (d : D) (j : ι), j ≠ i → (c.loc j).pc.left d = 0 := fun d j hj => by
    have hin := hothers j hj
    cases hp : (c.loc j).pc <;> first | rfl | (rw [hp] at hin; cases hin)
  exact Config.lexSum_lt_of_third (f := fun l : Local ι D R => l.pc.todo) (g := Local.rank)
    (t := Shared.entries) (w := fun s l => l.pc.left s.inner) hi htodo hrank hentries
    (fun j hj => by rw [hzero _ j hj, hzero _ j hj]) h

/-! ### Every call returns -/

/-- Agent `i` can make a step that brings the calls nearer to their ends. -/
def Advances (F : Finset ι) (i : ι) (c : Config ι (Shared ι Unit D) (Local ι D R)) : Prop :=
  ∃ s l, step i .step c.shared (c.loc i) = some (s, l) ∧ measure F (c.set i s l) < measure F c

/-- An agent that has the guard, or has given it back. -/
theorem advances_closure (h : sys.Reachable (init plat value) c) (hfair : Fair plat.backend c) (hi : i ∈ F)
    (hp : (∃ x, (c.loc i).pc = .locking x ∧ (c.loc i).mx.pc = .guard) ∨
      (∃ x b, (c.loc i).pc = .running x b) ∨ ∃ r, (c.loc i).pc = .dropping r ∧ (c.loc i).mx.pc = .idle) :
    Advances F i c := by
  rcases hp with ⟨x, hp, hmx⟩ | ⟨x, b, hp⟩ | ⟨r, hp, hmx⟩
  · refine ⟨c.shared, (c.loc i).goto (.running x x.closure), by simp [step, hp, hmx],
      measure_lt_of_rank hi (by rw [hp]; rfl) ?_⟩
    rw [Local.rank, Local.rank, hp, Local.goto_pc, Local.goto_mx]
    show 1 + _ + _ < 2 + _ + _
    omega
  · have hin : (c.loc i).pc.inside = true := by rw [hp]; rfl
    have hg := guard_of_inside h hin
    have hb : GivesBack plat.backend b := by
      have := hfair.agents i
      rwa [hp] at this
    have hends : ∀ r, run i c.shared (c.loc i) x b = lift i .drop c.shared (c.loc i) (.dropping r) →
        Advances F i c := fun r hrun => by
      refine ⟨{ c.shared with dataLock := false }, ⟨(c.loc i).mx.goto didUnlock, .dropping r⟩, ?_,
        measure_lt_of_todo hi (by rw [hp]; exact Nat.zero_lt_one)⟩
      simp only [step, hp, hrun]
      simp [lift, Mutex.step, hg]
    cases b with
    | ret r => exact hends (some r) rfl
    | panic =>
      refine hends none ?_
      have hnative : c.shared.plat.backend = .native := hfair.same.trans (hb.resolve_right id)
      simp [run, hnative]
    | access write next =>
      refine ⟨{ c.shared with
          inner := write c.shared.inner
          log := record i (fun y : Unit × D => (y.1, write y.2)) c.shared.log },
        ⟨⟨.guard, ()⟩, .running x (next c.shared.inner)⟩, ?_,
        measure_lt_of_left hi (by rw [hp]; rfl) ?_ rfl (fun j hj => inside_unique h hg hj) ?_⟩
      · simp only [step, hp, run, lift, Mutex.step, hg]
        rfl
      · rw [Local.rank, Local.rank, hp, hg]
        rfl
      · rw [hp]
        exact Nat.lt_succ_self _
  · refine ⟨c.shared, (c.loc i).goto .ready, by simp [step, hp, hmx],
      measure_lt_of_rank hi (by rw [hp]; rfl) ?_⟩
    rw [Local.rank, Local.rank, hp, Local.goto_pc, Local.goto_mx]
    show 0 + _ + _ < 1 + _ + _
    omega

/-- An agent that goes on in the mutex. -/
theorem advances_mutex (h : sys.Reachable (init plat value) c) (hi : i ∈ F)
    (hbusy : (c.loc i).mx.pc.atRest = false) (hadv : Mutex.Advances i (toMutex.config c)) :
    Advances F i c := by
  obtain ⟨s, lmx, hs, hlt⟩ := hadv
  have hm : Mutex.step i .step c.shared (c.loc i).mx = some (s, lmx) := hs
  have hlt : lmx.pc.rank + s.entries < (c.loc i).mx.pc.rank + c.shared.entries := hlt
  have hl := shape h i
  have hne : ∀ p : Mutex.Pc ι, p.atRest = true → (c.loc i).mx.pc ≠ p := fun p hp heq => by
    rw [heq, hp] at hbusy
    cases hbusy
  refine ⟨s, ⟨lmx, (c.loc i).pc⟩, ?_, measure_lt_of_rank hi rfl ?_⟩
  · cases hp : (c.loc i).pc with
    | locking x => simp [step, hp, hne .guard rfl, lift, hm]
    | dropping r => simp [step, hp, hne .idle rfl, lift, hm]
    | ready | running | aborted =>
      rw [Local.Shape, hp] at hl
      exact absurd hl (hne _ rfl)
  · rw [Local.rank, Local.rank]
    show (c.loc i).pc.rank + lmx.pc.rank + _ < _
    omega

/-- **Some call goes on**, as long as not all have returned. -/
theorem advances (h : sys.Reachable (init plat value) c) (hfair : Fair plat.backend c)
    (hF : ∀ i, (c.loc i).pc ≠ .ready → i ∈ F) (hcall : ∃ i, (c.loc i).pc ≠ .ready) :
    ∃ i, (c.loc i).pc ≠ .ready ∧ Advances F i c := by
  by_contra hno
  have hno : ∀ i, (c.loc i).pc ≠ .ready → ¬ Advances F i c := fun i hi hadv => hno ⟨i, hi, hadv⟩
  -- so every call is in the mutex
  have hmutex : ∀ i, (c.loc i).pc ≠ .ready → (c.loc i).mx.pc.atRest = false := fun i hi => by
    have hl := shape h i
    by_contra hrest
    have hrest := Bool.eq_true_of_not_eq_false hrest
    refine hno i hi (advances_closure h hfair (hF i hi) ?_)
    cases hp : (c.loc i).pc with
    | ready => exact absurd hp hi
    | running x b => exact .inr (.inl ⟨x, b, rfl⟩)
    | aborted x =>
      have := hfair.agents i
      rw [hp] at this
      exact this.elim
    | locking x =>
      rw [Local.Shape, hp] at hl
      exact .inl ⟨x, rfl, Mutex.Pc.eq_guard hl.1 hrest hl.2⟩
    | dropping r =>
      rw [Local.Shape, hp] at hl
      exact .inr (.inr ⟨r, rfl, Mutex.Pc.eq_idle hl.1 hrest hl.2⟩)
  have hidle : ∀ i, (c.loc i).pc = .ready → (c.loc i).mx.pc = .idle := fun i hi => by
    have hl := shape h i
    rwa [Local.Shape, hi] at hl
  obtain ⟨i, hi⟩ := hcall
  obtain ⟨j, hj, hadv⟩ := Mutex.advances (c := toMutex.config c) (mutex_reachable h)
    (fun j => by
      show (c.loc j).mx.pc.untimed = true
      have hl := shape h j
      cases hp : (c.loc j).pc with
      | ready | running | aborted =>
        rw [Local.Shape, hp] at hl
        rw [hl]
        rfl
      | locking | dropping =>
        rw [Local.Shape, hp] at hl
        exact hl.1)
    (fun j hg => by
      have hg : (c.loc j).mx.pc = .guard := hg
      by_cases hready : (c.loc j).pc = .ready
      · rw [hidle j hready] at hg
        cases hg
      · have := hmutex j hready
        rw [hg] at this
        cases this)
    ⟨i, hmutex i hi⟩
  have hbusy : (c.loc j).mx.pc.atRest = false := hj
  have hready : (c.loc j).pc ≠ .ready := fun hready => by
    rw [hidle j hready] at hbusy
    cases hbusy
  exact hno j hready (advances_mutex h (hF j hready) hbusy hadv)

/-- **Every call returns.**  Wherever the calls are, all of them can still return, by steps of their own
alone, and then the lock is free.  A closure that panics is no exception on the native backend; on wasm
the closures must not panic. -/
theorem with_returns (h : sys.Reach (fun _ a => Allowed plat.backend a) (init plat value) c) :
    ∃ c', sys.Reach (fun _ a => ∃ i, a = .agent i .step) c c' ∧ (∀ i, (c'.loc i).pc = .ready) ∧
      c'.shared.dataLock = false := by
  obtain ⟨c', hreach, hc', hready⟩ := System.reach_rest (p := fun l : Local ι D R => l.pc = .ready)
    (a := .step) measure (fun _ => rfl) (fun F c₁ h₁ hF hcall => by
      obtain ⟨i, hi, s, l, hs, hlt⟩ := advances h₁.reachable (fair h₁) hF hcall
      exact ⟨i, s, l, hi, hs, trivial, hlt⟩) h
  refine ⟨c', hreach.mono fun _ _ hstep => hstep.1, hready, ?_⟩
  by_contra hlock
  obtain ⟨i, hi⟩ := (owned (mutex_reachable hc'.reachable)).iff.1 (Bool.eq_true_of_not_eq_false hlock)
  have hidle := shape hc'.reachable i
  rw [Local.Shape, hready i] at hidle
  have hi : (c'.loc i).mx.pc.hasGuard = true := hi
  rw [hidle] at hi
  cases hi

omit [DecidableEq ι] in
theorem allowed_native (a : Label ι (Act D R) (Event ι)) : Allowed .native a := by
  rcases a with ⟨i, a⟩ | e
  · cases a with
    | call x => exact .inl rfl
    | _ => trivial
  · trivial

/-- One agent has added 5 and is about to panic, and two wait for the lock. -/
theorem with_returns_panics :
    ∃ c : Config (Fin 3) (Shared (Fin 3) Unit ℕ) (Local (Fin 3) ℕ ℕ),
      c.shared.inner = 5 ∧ (c.loc 0).pc.inside = true ∧ (c.loc 1).mx.pc = .park none ∧
      (c.loc 2).mx.pc = .await 0 ∧
      ∃ c', sys.Reach (fun _ a => ∃ i, a = .agent i .step) c c' ∧ (∀ i, (c'.loc i).pc = .ready) ∧
        c'.shared.dataLock = false := by
  obtain ⟨c, hc, hend⟩ := System.exists_of_run (M := sys)
    (c := init (ι := Fin 3) (R := ℕ) (.new .native) 0)
    (p := fun c => decide (c.shared.inner = 5 ∧ (c.loc 0).pc.inside = true ∧
      (c.loc 1).mx.pc = .park none ∧ (c.loc 2).mx.pc = .await 0))
    ([.agent 0 (.call (withMutSync addFive)), .agent 1 (.call (withMutSync addTwo)),
        .agent 2 (.call (withAsync addTwo))] ++ List.replicate 5 (.agent 0 .step) ++
      List.replicate 4 (.agent 1 .step) ++ List.replicate 4 (.agent 2 .step)) (by decide)
  rw [decide_eq_true_eq] at hend
  obtain ⟨hinner, hin, hpark, hawait⟩ := hend
  exact ⟨c, hinner, hin, hpark, hawait, with_returns (hc.mono fun _ a _ => allowed_native a)⟩

end With

end Mutex

end WasmSafeThread
