import WasmSafeThread.Worker.Release

/-!
# Which context frees an `exit_state`

When the worker side drops the last reference, JavaScript frees the memory through `__cleanup_handler`, a
variable of each context.  It is set by `init_handlers`, under a `Once` that all contexts share.

* `Handlers` : so it is set in one context, the first that has got to `INIT_HANDLERS`
  (`Handlers.unique`).
* `Registered` : the last reference is dropped there, or by the `JoinHandle`; `freed_by_last` : then the memory is
  freed.
* `leaked` : the worker of a worker on Node, and two roots of a browser.
-/

namespace WasmSafeThread

namespace Worker

variable {ρ : Type*} {host : Host} {x : Ctx ρ} {a : Act} {s s₁ : Shared ρ} {l l₁ : Local}
  {isWorker : ρ → Bool} {c : Config (Ctx ρ) (Shared ρ) Local}

/-! ### The handler -/

/-- The `Once` is not done, and no context has the handler; or one has it. -/
structure Handlers (c : Config (Ctx ρ) (Shared ρ) Local) : Prop where
  done : ∀ x, (c.loc x).cleanup = true → c.shared.initDone = true
  unique : ∀ x y, (c.loc x).cleanup = true → (c.loc y).cleanup = true → x = y

theorem Move.handlers (h : Move host x s l a s₁ l₁) :
    (s₁.initDone = s.initDone ∧ l₁.cleanup = l.cleanup) ∨
      s₁.initDone = true ∧ l₁.cleanup = (l.cleanup || !s.initDone) := by
  cases h with
  | initHandlers p htask => exact .inr ⟨rfl, rfl⟩
  | forward p ret htask =>
    refine .inl ⟨?_, rfl⟩
    rw [Shared.finish_initDone]
    cases x <;> rfl
  | create p ret htask | decrement ptr ret htask hlast | cleanup ptr ret htask =>
    refine .inl ⟨?_, rfl⟩
    rw [Shared.finish_initDone]
    rfl
  | _ => exact .inl ⟨rfl, rfl⟩

theorem Handlers.step [DecidableEq ρ] (h : Handlers c)
    (hmove : Move host x c.shared (c.loc x) a s₁ l₁) : Handlers (c.set x s₁ l₁) := by
  rcases hmove.handlers with ⟨hdone, hcleanup⟩ | ⟨hdone, hcleanup⟩
  · have hsame : ∀ y, ((c.set x s₁ l₁).loc y).cleanup = (c.loc y).cleanup :=
      Config.set_loc_congr hcleanup
    refine ⟨fun y => ?_, fun y z => ?_⟩
    · rw [hsame, Config.set_shared, hdone]
      exact h.done y
    · rw [hsame, hsame]
      exact h.unique y z
  · -- only the first one to pass gets the handler
    have hnew : ∀ y, ((c.set x s₁ l₁).loc y).cleanup = true →
        (c.loc y).cleanup = true ∨ y = x ∧ c.shared.initDone = false := by
      intro y hy
      by_cases hyx : y = x
      · subst hyx
        rw [Config.set_loc_self, hcleanup, Bool.or_eq_true, Bool.not_eq_true'] at hy
        exact hy.imp id fun hy => ⟨rfl, hy⟩
      · rw [Config.set_loc_of_ne hyx] at hy
        exact .inl hy
    refine ⟨fun _ _ => hdone, fun y z hy hz => ?_⟩
    rcases hnew y hy with hold | ⟨hyx, hnot⟩ <;> rcases hnew z hz with hold' | ⟨hzx, hnot'⟩
    · exact h.unique y z hold hold'
    · rw [h.done y hold] at hnot'
      cases hnot'
    · rw [h.done z hold'] at hnot
      cases hnot
    · rw [hyx, hzx]

theorem handlers [DecidableEq ρ] (h : (sys host).Reachable (init isWorker) c) : Handlers c := by
  refine h.invariant ⟨fun x hx => ?_, fun x y hx => ?_⟩
    (fun c x a s l _ ih _ hs => ih.step (step_move hs)) fun c e => nomatch e
  all_goals
    cases x <;> cases hx

/-! ### The last reference -/

/-- A decrement by the worker side that finds the last reference is in the context that has the handler. -/
def Registered (c : Config (Ctx ρ) (Shared ρ) Local) : Label (Ctx ρ) Act Empty → Prop
  | .agent x .step =>
    match (c.loc x).task with
    | .decrement ptr _ => (c.shared.exits ptr).refCount = 1 → (c.loc x).cleanup = true
    | _ => True
  | _ => True

instance (c : Config (Ctx ρ) (Shared ρ) Local) :
    (a : Label (Ctx ρ) Act Empty) → Decidable (Registered c a)
  | .agent x a =>
    match a with
    | .step =>
      match h : (c.loc x).task with
      | .decrement ptr _ =>
        decidable_of_iff ((c.shared.exits ptr).refCount = 1 → (c.loc x).cleanup = true)
          (by simp only [Registered, h])
      | .rest | .initHandlers _ | .forward _ _ | .create _ _ | .signal _ _ _ _ | .cleanup _ _
      | .freeBox _ => .isTrue (by simp only [Registered, h])
    | .spawn _ _ | .throws | .start | .enter | .fail | .exit | .uncaught | .recv _ | .recvError _
    | .load _ | .dropHandle _ => .isTrue trivial
  | .env _ => .isTrue trivial

theorem Registered.cleanup {r : ℕ} (h : Registered c (.agent x a))
    (hmove : Move host x c.shared (c.loc x) a s₁ l₁) (hd : duties c r x = some .decrement)
    (hone : (c.shared.exits r).refCount = 1) : (c.loc x).cleanup = true := by
  obtain ⟨ret, htask⟩ : ∃ ret, (c.loc x).task = .decrement r ret := by
    have hduty := Task.duty_eq hd
    cases ht : (c.loc x).task <;> rw [ht] at hduty <;> cases hduty
    exact ⟨_, rfl⟩
  have ha : a = .step := by
    cases hmove <;> simp_all
  subst ha
  simp only [Registered, htask] at h
  exact h hone

/-- **When both references have been released, the memory has been freed**, or a context is about to free it. -/
theorem freed_by_last [DecidableEq ρ] (h : (sys host).Reach Registered (init isWorker) c) {r : ℕ}
    (hworker : 0 < (c.shared.exits r).decrements) (hdropped : (c.shared.exits r).dropped = true) :
    0 < (c.shared.exits r).frees ∨ ∃ x, duties c r x = some .free := by
  have hcleared : Cleared (c.shared.exits r) (duties c r) := by
    refine h.invariant (I := fun c => Cleared (c.shared.exits r) (duties c r)) ?_ ?_
      fun c e => nomatch e
    · exact fun hboth : 2 ≤ ExitState.new.released => absurd hboth (by decide)
    · intro c x a s l hc ih hP hs
      rw [duties_set]
      exact ih.step (booked hc.reachable r) (access_of_step hc.reachable hs r)
        fun hd hone => hP.cleanup (step_move hs) hd hone
  refine hcleared ?_
  rw [ExitState.released, hdropped]
  exact Nat.succ_le_succ hworker

theorem freed_by_last_root : ∃ c, (sys .node).Reachable (init fun _ : Unit => false) c ∧
    (c.shared.exits 0).refCount = 0 ∧
      (0 < (c.shared.exits 0).frees ∨ ∃ x, duties c 0 x = some .free) := by
  obtain ⟨c, hc, hend⟩ := System.exists_of_along (M := sys .node) (P := Registered)
    (c := init fun _ : Unit => false)
    (p := fun c => decide ((c.shared.exits 0).refCount = 0 ∧ 0 < (c.shared.exits 0).decrements ∧
      (c.shared.exits 0).dropped = true))
    [.agent (.root ()) (.spawn "a" "m.js"), .agent (.root ()) .step, .agent (.root ()) .step,
      .agent (.root ()) (.dropHandle 0), .agent (.worker 0) .start, .agent (.worker 0) .enter,
      .agent (.worker 0) .exit, .agent (.root ()) (.recv 0), .agent (.root ()) .step,
      .agent (.root ()) .step] (by decide) (by decide)
  rw [decide_eq_true_eq] at hend
  exact ⟨c, hc.reachable, hend.1, freed_by_last hc hend.2.1 hend.2.2⟩

theorem duties_of_unborn [DecidableEq ρ] (h : (sys host).Reachable (init isWorker) c) (r : ℕ) {k : ℕ}
    (hk : c.shared.workers.length ≤ k) : duties c r (.worker k) = none := by
  have hB := (born h).aware (.worker k)
  have hphase : (c.loc (.worker k)).phase = .unborn := by
    by_contra hne
    exact absurd (hB.born k rfl hne).1 (Nat.not_lt.2 hk)
  refine Task.dutyFor_none ?_
  rw [hB.rest k rfl hphase]
  rfl

theorem not_freeing [DecidableEq ρ] (h : (sys host).Reachable (init isWorker) c) {r : ℕ}
    (hroot : ∀ y, duties c r (.root y) = none)
    (hworker : ∀ k, k < c.shared.workers.length → duties c r (.worker k) = none) :
    ¬ ∃ x, duties c r x = some .free := by
  rintro ⟨x, hx⟩
  cases x with
  | root y =>
    rw [hroot] at hx
    cases hx
  | worker k =>
    by_cases hk : k < c.shared.workers.length
    · rw [hworker k hk] at hx
      cases hx
    · rw [duties_of_unborn h r (Nat.not_lt.1 hk)] at hx
      cases hx

/-- **The memory is leaked.**  On Node a worker spawns a worker, drops its `JoinHandle`, and takes the event
`'exit'`; in a browser the second of two roots does the same. -/
theorem leaked :
    (∃ c, (sys .node).Reachable (init fun _ : Unit => false) c ∧ (c.shared.exits 1).refCount = 0 ∧
      0 < (c.shared.exits 1).decrements ∧ (c.shared.exits 1).dropped = true ∧
      ¬ (0 < (c.shared.exits 1).frees ∨ ∃ x, duties c 1 x = some .free)) ∧
    ∃ c, (sys .browser).Reachable (init fun _ : Bool => false) c ∧ (c.shared.exits 1).refCount = 0 ∧
      0 < (c.shared.exits 1).decrements ∧ (c.shared.exits 1).dropped = true ∧
      ¬ (0 < (c.shared.exits 1).frees ∨ ∃ x, duties c 1 x = some .free) := by
  constructor
  · obtain ⟨c, hc, hend⟩ := System.exists_of_run (M := sys .node) (c := init fun _ : Unit => false)
      (p := fun c => decide (((c.shared.exits 1).refCount = 0 ∧ 0 < (c.shared.exits 1).decrements ∧
        (c.shared.exits 1).dropped = true) ∧ (c.shared.exits 1).frees = 0 ∧
        c.shared.workers.length = 2 ∧ duties c 1 (.root ()) = none ∧
        duties c 1 (.worker 0) = none ∧ duties c 1 (.worker 1) = none))
      [.agent (.root ()) (.spawn "a" "m.js"), .agent (.root ()) .step, .agent (.root ()) .step,
        .agent (.worker 0) .start, .agent (.worker 0) .enter, .agent (.worker 0) (.spawn "b" "m.js"),
        .agent (.worker 0) .step, .agent (.worker 0) .step, .agent (.worker 0) (.dropHandle 1),
        .agent (.worker 1) .start, .agent (.worker 1) .enter, .agent (.worker 1) .exit,
        .agent (.worker 0) (.recv 1), .agent (.worker 0) .step, .agent (.worker 0) .step] (by decide)
    rw [decide_eq_true_eq] at hend
    obtain ⟨⟨hcount, hdec, hdropped⟩, hfrees, hlen, hroot, h₀, h₁⟩ := hend
    refine ⟨c, hc, hcount, hdec, hdropped, ?_⟩
    rintro (hpos | hfree)
    · rw [hfrees] at hpos
      cases hpos
    · refine not_freeing hc (fun _ => hroot) (fun k hk => ?_) hfree
      obtain rfl | rfl : k = 0 ∨ k = 1 := by omega
      · exact h₀
      · exact h₁
  · obtain ⟨c, hc, hend⟩ := System.exists_of_run (M := sys .browser)
      (c := init fun _ : Bool => false)
      (p := fun c => decide (((c.shared.exits 1).refCount = 0 ∧ 0 < (c.shared.exits 1).decrements ∧
        (c.shared.exits 1).dropped = true) ∧ (c.shared.exits 1).frees = 0 ∧
        c.shared.workers.length = 1 ∧ duties c 1 (.root false) = none ∧
        duties c 1 (.root true) = none ∧ duties c 1 (.worker 0) = none))
      [.agent (.root false) (.spawn "a" "m.js"), .agent (.root false) .step,
        .agent (.root true) (.spawn "b" "m.js"), .agent (.root true) .step, .agent (.root true) .step,
        .agent (.root true) (.dropHandle 1), .agent (.worker 0) .start, .agent (.worker 0) .enter,
        .agent (.worker 0) .exit, .agent (.root true) (.recv 0), .agent (.root true) .step,
        .agent (.root true) .step] (by decide)
    rw [decide_eq_true_eq] at hend
    obtain ⟨⟨hcount, hdec, hdropped⟩, hfrees, hlen, hfalse, htrue, h₀⟩ := hend
    refine ⟨c, hc, hcount, hdec, hdropped, ?_⟩
    rintro (hpos | hfree)
    · rw [hfrees] at hpos
      cases hpos
    · refine not_freeing hc (fun y => ?_) (fun k hk => ?_) hfree
      · cases y
        · exact hfalse
        · exact htrue
      · obtain rfl : k = 0 := by omega
        exact h₀

end Worker

end WasmSafeThread
