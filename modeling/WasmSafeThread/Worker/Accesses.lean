import WasmSafeThread.Worker.Script

/-!
# Who accesses an `exit_state`

* `HandleMove`, `Handled` : a `JoinHandle` is returned by one context, and dropped at most once.
* `Duty`, `ExitMove` : the accesses to an `exit_state`.  Those of the worker side, and the free, are
  announced by the task of the context that is about to do them.
* `Fresh` : the `exit_state` of a request that has not been made is new.
-/

namespace WasmSafeThread

namespace Worker

variable {ρ : Type*} {host : Host} {x : Ctx ρ} {a : Act} {s s₁ : Shared ρ} {l l₁ : Local}
  {isWorker : ρ → Bool} {c : Config (Ctx ρ) (Shared ρ) Local}

/-! ### The `JoinHandle` -/

/-- The request of the spawn that is in progress. -/
def Task.ret : Task → Option ℕ
  | .rest | .freeBox _ => none
  | .initHandlers p => some p.exitStatePtr
  | .forward _ ret | .create _ ret | .signal _ _ _ ret | .decrement _ ret | .cleanup _ ret => ret

theorem placeTask_ret (host : Host) (l : Local) (p p' : Payload) (ret : Option ℕ) :
    (placeTask host l p p' ret).ret = ret := by
  unfold placeTask
  split
  · split <;> rfl
  · rfl

/-- What an operation does to the `JoinHandle`s. -/
inductive HandleMove (s : Shared ρ) (l : Local) (s₁ : Shared ρ) (l₁ : Local) : Prop where
  /-- Nothing. -/
  | quiet (hret : l₁.task.ret = l.task.ret) (hhandle : s₁.handle = s.handle)
      (hrequests : s₁.requests = s.requests)
      (hdropped : ∀ r, (s₁.exits r).dropped = (s.exits r).dropped)
  /-- A spawn starts. -/
  | spawn (hret₁ : l₁.task.ret = some s.requests.length)
      (hhandle : s₁.handle = s.handle) (hrequests : s₁.requests.length = s.requests.length + 1)
      (hdropped : ∀ r, r ≠ s.requests.length → (s₁.exits r).dropped = (s.exits r).dropped)
      (hnew : (s₁.exits s.requests.length).dropped = false)
  /-- A call ends. -/
  | returns (hret₁ : l₁.task.ret = none) (hhandle : s₁.handle = (s.finish l.task.ret).handle)
      (hrequests : s₁.requests = s.requests)
      (hdropped : ∀ r, (s₁.exits r).dropped = (s.exits r).dropped)
  /-- A `JoinHandle` is dropped. -/
  | drop (r : ℕ) (hret : l.task.ret = none) (hret₁ : l₁.task.ret = none) (hlive : s.handle r = true)
      (hhandle : s₁.handle = Function.update s.handle r false) (hrequests : s₁.requests = s.requests)
      (hdropped : ∀ r', r' ≠ r → (s₁.exits r').dropped = (s.exits r').dropped)

theorem dropped_update {exits : ℕ → ExitState} {ptr : ℕ} {e : ExitState}
    (he : e.dropped = (exits ptr).dropped) (r : ℕ) :
    (Function.update exits ptr e r).dropped = (exits r).dropped := by
  by_cases hr : r = ptr
  · subst hr
    rw [Function.update_self, he]
  · rw [Function.update_of_ne hr]

theorem forward_exits (x : Ctx ρ) (p : Payload) (s : Shared ρ) : (forward x p s).exits = s.exits := by
  cases x <;> rfl

theorem Move.dropped_step (h : Move host x s l .step s₁ l₁) (r : ℕ) :
    (s₁.exits r).dropped = (s.exits r).dropped := by
  cases h with
  | initHandlers => rfl
  | forward p ret => rw [Shared.finish_exits, forward_exits]
  | create p ret => rw [Shared.finish_exits]; rfl
  | signal | decrementLast | freeBox => exact dropped_update (by rfl) r
  | decrement | cleanup =>
    rw [Shared.finish_exits]
    exact dropped_update (by rfl) r

theorem forward_handle (x : Ctx ρ) (p : Payload) (s : Shared ρ) :
    (forward x p s).handle = s.handle := by
  cases x <;> rfl

theorem forward_requests (x : Ctx ρ) (p : Payload) (s : Shared ρ) :
    (forward x p s).requests = s.requests := by
  cases x <;> rfl

theorem finish_handle_congr {s s' : Shared ρ} (h : s.handle = s'.handle) (ret : Option ℕ) :
    (s.finish ret).handle = (s'.finish ret).handle := by
  cases ret with
  | none => exact h
  | some r => simp only [Shared.finish, h]

theorem Move.handle (h : Move host x s l a s₁ l₁) : HandleMove s l s₁ l₁ := by
  cases h with
  | spawn name shimUrl hrest hruns =>
    refine .spawn rfl rfl ?_ (fun r hr => ?_) ?_
    · simp [Worker.spawn]
    · simp [Worker.spawn, Shared.setExit, Shared.setPlace, hr]
    · simp [Worker.spawn, Shared.setExit, Shared.setPlace, ExitState.new]
  | initHandlers p htask =>
    exact .quiet (by rw [htask]; exact placeTask_ret _ _ _ _ _) rfl rfl fun _ => rfl
  | forward p ret htask =>
    refine .returns rfl ?_ ?_ fun r => ?_
    · rw [htask]
      refine finish_handle_congr ?_ ret
      exact forward_handle x p s
    · rw [Shared.finish_requests, forward_requests]
    · rw [Shared.finish_exits, forward_exits]
  | create p ret htask =>
    refine .returns rfl ?_ ?_ fun r => ?_
    · rw [htask]
      refine finish_handle_congr ?_ ret
      rfl
    · rw [Shared.finish_requests]
      rfl
    · rw [Shared.finish_exits]
      rfl
  | throws p ret htask => exact .quiet (by rw [htask]; rfl) rfl rfl (dropped_update rfl)
  | signal src ptr code ret htask => exact .quiet (by rw [htask]; rfl) rfl rfl (dropped_update rfl)
  | decrementLast ptr ret htask hlast hcleanup =>
    exact .quiet (by rw [htask]; rfl) rfl rfl (dropped_update rfl)
  | decrement ptr ret htask hlast | cleanup ptr ret htask =>
    refine .returns rfl ?_ ?_ fun r => ?_
    · rw [htask]
      refine finish_handle_congr ?_ ret
      rfl
    · rw [Shared.finish_requests]
      rfl
    · rw [Shared.finish_exits]
      exact dropped_update (by rfl) r
  | freeBox ptr htask => exact .quiet (by rw [htask]; rfl) rfl rfl (dropped_update rfl)
  | relay k w p rest hw hmsg hrest hruns hparent =>
    exact .quiet (by rw [hrest]; exact placeTask_ret _ _ _ _ _) rfl rfl fun _ => rfl
  | ended k w m code rest hw hmsg hm hrest hruns hparent =>
    exact .quiet (by rw [hrest]; rfl) rfl rfl (dropped_update rfl)
  | onerror k w hhost hw hrest hruns hparent =>
    exact .quiet (by rw [hrest]; rfl) rfl rfl (dropped_update rfl)
  | load r hrest hhandle => exact .quiet rfl rfl rfl (dropped_update rfl)
  | dropHandle r hrest hruns hhandle =>
    refine .drop r (by rw [hrest]; rfl) (by dsimp only; split <;> rfl) hhandle rfl rfl fun r' hr => ?_
    simp [Shared.setExit, hr]
  | logged | start | enter | fail | die | exit | uncaught => exact .quiet rfl rfl rfl fun _ => rfl

/-- A `JoinHandle` is on its way to one caller, or exists, or has been dropped, or has never been. -/
structure Handled (c : Config (Ctx ρ) (Shared ρ) Local) : Prop where
  ret : ∀ x r, (c.loc x).task.ret = some r →
    c.shared.handle r = false ∧ (c.shared.exits r).dropped = false ∧ r < c.shared.requests.length
  once : ∀ x y r, (c.loc x).task.ret = some r → (c.loc y).task.ret = some r → x = y
  live : ∀ r, c.shared.handle r = true →
    (c.shared.exits r).dropped = false ∧ r < c.shared.requests.length

theorem Handled.step [DecidableEq ρ] (h : Handled c) (hmove : HandleMove c.shared (c.loc x) s₁ l₁) :
    Handled (c.set x s₁ l₁) := by
  have hloc : ∀ y, y ≠ x → (c.set x s₁ l₁).loc y = c.loc y := fun y hy => Config.set_loc_of_ne hy
  cases hmove with
  | quiet hret hhandle hrequests hdropped =>
    have hsame : ∀ y, ((c.set x s₁ l₁).loc y).task.ret = (c.loc y).task.ret :=
      Config.set_loc_congr (f := fun l : Local => l.task.ret) hret
    refine ⟨fun y r => ?_, fun y z r => ?_, fun r => ?_⟩ <;>
      simp only [Config.set_shared, hsame, hhandle, hrequests, hdropped]
    · exact h.ret y r
    · exact h.once y z r
    · exact h.live r
  | spawn hret₁ hhandle hrequests hdropped hnew =>
    have hunused : c.shared.handle c.shared.requests.length = false := by
      by_contra hne
      exact absurd (h.live _ (Bool.eq_true_of_not_eq_false hne)).2 (Nat.lt_irrefl _)
    refine ⟨fun y r hr => ?_, fun y z r hy hz => ?_, fun r hr => ?_⟩
    · by_cases hy : y = x
      · subst hy
        rw [Config.set_loc_self, hret₁] at hr
        cases hr
        rw [Config.set_shared, hhandle, hrequests]
        exact ⟨hunused, hnew, Nat.lt_succ_self _⟩
      · rw [hloc y hy] at hr
        obtain ⟨h₁, h₂, h₃⟩ := h.ret y r hr
        rw [Config.set_shared, hhandle, hrequests, hdropped r (Nat.ne_of_lt h₃)]
        exact ⟨h₁, h₂, Nat.lt_succ_of_lt h₃⟩
    · have hother : ∀ y, y ≠ x → ((c.set x s₁ l₁).loc y).task.ret ≠ some c.shared.requests.length := by
        intro y hy hr
        rw [hloc y hy] at hr
        exact absurd (h.ret y _ hr).2.2 (Nat.lt_irrefl _)
      have hself : ((c.set x s₁ l₁).loc x).task.ret = some c.shared.requests.length := by
        rw [Config.set_loc_self, hret₁]
      by_cases hyx : y = x <;> by_cases hzx : z = x
      · rw [hyx, hzx]
      · rw [hyx, hself] at hy
        exact absurd (hz.trans hy.symm) (hother z hzx)
      · rw [hzx, hself] at hz
        exact absurd (hy.trans hz.symm) (hother y hyx)
      · rw [hloc y hyx] at hy
        rw [hloc z hzx] at hz
        exact h.once y z r hy hz
    · rw [Config.set_shared, hhandle] at hr
      obtain ⟨h₁, h₂⟩ := h.live r hr
      rw [Config.set_shared, hrequests, hdropped r (Nat.ne_of_lt h₂)]
      exact ⟨h₁, Nat.lt_succ_of_lt h₂⟩
  | returns hret₁ hhandle hrequests hdropped =>
    have hretx : ((c.set x s₁ l₁).loc x).task.ret = none := by rw [Config.set_loc_self, hret₁]
    -- only the handle of the call that ends is new
    have hkeep : ∀ r, (c.loc x).task.ret ≠ some r → s₁.handle r = c.shared.handle r := by
      intro r hr
      rw [hhandle]
      cases hx : (c.loc x).task.ret with
      | none => rfl
      | some r' =>
        simp only [Shared.finish]
        rw [Function.update_of_ne]
        rintro rfl
        exact hr hx
    refine ⟨fun y r hr => ?_, fun y z r hy hz => ?_, fun r hr => ?_⟩
    · by_cases hy : y = x
      · rw [hy, hretx] at hr
        cases hr
      · rw [hloc y hy] at hr
        rw [Config.set_shared, hrequests, hdropped,
          hkeep r fun hx => hy (h.once y x r hr hx)]
        exact h.ret y r hr
    · by_cases hyx : y = x
      · rw [hyx, hretx] at hy
        cases hy
      · by_cases hzx : z = x
        · rw [hzx, hretx] at hz
          cases hz
        · rw [hloc y hyx] at hy
          rw [hloc z hzx] at hz
          exact h.once y z r hy hz
    · rw [Config.set_shared, hrequests, hdropped]
      by_cases hx : (c.loc x).task.ret = some r
      · exact (h.ret x r hx).2
      · rw [Config.set_shared, hkeep r hx] at hr
        exact h.live r hr
  | drop r hret hret₁ hlive hhandle hrequests hdropped =>
    have hsame : ∀ y, ((c.set x s₁ l₁).loc y).task.ret = (c.loc y).task.ret :=
      Config.set_loc_congr (f := fun l : Local => l.task.ret) (hret₁.trans hret.symm)
    refine ⟨fun y r' hr => ?_, fun y z r' => ?_, fun r' hr => ?_⟩
    · rw [hsame] at hr
      obtain ⟨h₁, h₂, h₃⟩ := h.ret y r' hr
      -- what is on its way is no handle yet, so it is not the one that is dropped
      have hne : r' ≠ r := by
        rintro rfl
        rw [hlive] at h₁
        cases h₁
      rw [Config.set_shared, hhandle, hrequests, hdropped r' hne, Function.update_of_ne hne]
      exact ⟨h₁, h₂, h₃⟩
    · rw [hsame, hsame]
      exact h.once y z r'
    · have hne : r' ≠ r := by
        rintro rfl
        rw [Config.set_shared, hhandle, Function.update_self] at hr
        cases hr
      rw [Config.set_shared, hhandle, Function.update_of_ne hne] at hr
      rw [Config.set_shared, hrequests, hdropped r' hne]
      exact h.live r' hr

theorem handled [DecidableEq ρ] (h : (sys host).Reachable (init isWorker) c) : Handled c := by
  refine h.invariant ⟨fun x r hr => ?_, fun x y r hr => ?_, nofun⟩
    (fun c x a s l _ ih _ hs => ih.step (step_move hs).handle) fun c e => nomatch e
  all_goals
    cases x <;> cases hr

/-! ### The accesses -/

/-- What a context is about to do with an `exit_state`. -/
inductive Duty where
  | signal (src : Option ℕ) (code : ℕ)
  | decrement
  | free
  deriving DecidableEq

/-- The next access of a task to an `exit_state`. -/
def Task.duty : Task → Option (ℕ × Duty)
  | .signal src ptr code _ => some (ptr, .signal src code)
  | .decrement ptr _ => some (ptr, .decrement)
  | .cleanup ptr _ | .freeBox ptr => some (ptr, .free)
  | _ => none

theorem placeTask_duty (host : Host) (l : Local) (p p' : Payload) (ret : Option ℕ) :
    (placeTask host l p p' ret).duty = none := by
  unfold placeTask
  split
  · split <;> rfl
  · rfl

/-- What an operation does to the `exit_state`s. -/
inductive ExitMove (s : Shared ρ) (l : Local) (s₁ : Shared ρ) (l₁ : Local) : Prop where
  /-- Nothing. -/
  | quiet (hexits : s₁.exits = s.exits) (hduty : l.task.duty = none) (hduty₁ : l₁.task.duty = none)
  /-- One is allocated. -/
  | spawn (hexits : s₁.exits = Function.update s.exits s.requests.length .new)
      (hduty : l.task.duty = none) (hduty₁ : l₁.task.duty = none)
  /-- The worker side begins to release its reference. -/
  | begin (src : Option ℕ) (ptr code : ℕ) (hptr : ptr < s.requests.length)
      (hexits : s₁.exits = Function.update s.exits ptr (s.exits ptr).begin)
      (hduty : l.task.duty = none) (hduty₁ : l₁.task.duty = some (ptr, .signal src code))
  | signal (src : Option ℕ) (ptr code : ℕ)
      (hexits : s₁.exits = Function.update s.exits ptr ((s.exits ptr).signal src code))
      (hduty : l.task.duty = some (ptr, .signal src code))
      (hduty₁ : l₁.task.duty = some (ptr, .decrement))
  | decrement (ptr : ℕ) (hexits : s₁.exits = Function.update s.exits ptr (s.exits ptr).decrement)
      (hduty : l.task.duty = some (ptr, .decrement)) (hduty₁ : l₁.task.duty = none)
      (hlast : ¬((s.exits ptr).refCount = 1 ∧ l.cleanup = true))
  | decrementLast (ptr : ℕ) (hexits : s₁.exits = Function.update s.exits ptr (s.exits ptr).decrement)
      (hduty : l.task.duty = some (ptr, .decrement)) (hduty₁ : l₁.task.duty = some (ptr, .free))
      (hlast : (s.exits ptr).refCount = 1)
  | free (ptr : ℕ) (hexits : s₁.exits = Function.update s.exits ptr (s.exits ptr).free)
      (hduty : l.task.duty = some (ptr, .free)) (hduty₁ : l₁.task.duty = none)
  | load (r : ℕ) (hlive : s.handle r = true)
      (hexits : s₁.exits = Function.update s.exits r (s.exits r).touch)
      (hduty : l.task.duty = none) (hduty₁ : l₁.task.duty = none)
  | drop (r : ℕ) (hlive : s.handle r = true)
      (hexits : s₁.exits = Function.update s.exits r (s.exits r).dropHandle)
      (hduty : l.task.duty = none)
      (hduty₁ : l₁.task.duty = if (s.exits r).refCount = 1 then some (r, .free) else none)

/-- The operations of a context whose requests are where they should be. -/
theorem Move.exits (h : Move host x c.shared (c.loc x) a s₁ l₁) (hR : Routed c) :
    ExitMove c.shared (c.loc x) s₁ l₁ := by
  cases h with
  | spawn name shimUrl hrest hruns => exact .spawn rfl (by rw [hrest]; rfl) rfl
  | initHandlers p htask => exact .quiet rfl (by rw [htask]; rfl) (placeTask_duty _ _ _ _ _)
  | forward p ret htask =>
    exact .quiet (by rw [Shared.finish_exits, forward_exits]) (by rw [htask]; rfl) rfl
  | create p ret htask => exact .quiet (by rw [Shared.finish_exits]; rfl) (by rw [htask]; rfl) rfl
  | throws p ret htask =>
    have hptr := (hR.held x p (by rw [htask]; rfl)).2.lt
    exact .begin none p.exitStatePtr 2 hptr rfl (by rw [htask]; rfl) rfl
  | signal src ptr code ret htask => exact .signal src ptr code rfl (by rw [htask]; rfl) rfl
  | decrement ptr ret htask hlast =>
    exact .decrement ptr (by rw [Shared.finish_exits]; rfl) (by rw [htask]; rfl) rfl hlast
  | decrementLast ptr ret htask hlast hcleanup =>
    exact .decrementLast ptr rfl (by rw [htask]; rfl) rfl hlast
  | cleanup ptr ret htask =>
    exact .free ptr (by rw [Shared.finish_exits]; rfl) (by rw [htask]; rfl) rfl
  | freeBox ptr htask => exact .free ptr rfl (by rw [htask]; rfl) rfl
  | relay k w p rest hw hmsg hrest hruns hparent =>
    exact .quiet rfl (by rw [hrest]; rfl) (placeTask_duty _ _ _ _ _)
  | ended k w m code rest hw hmsg hm hrest hruns hparent =>
    exact .begin (some k) _ code (hR.created k w hw).2.lt rfl (by rw [hrest]; rfl) rfl
  | onerror k w hhost hw hrest hruns hparent =>
    exact .begin (some k) _ 2 (hR.created k w hw).2.lt rfl (by rw [hrest]; rfl) rfl
  | logged k hhost hrest => exact .quiet rfl (by rw [hrest]; rfl) (by rw [hrest]; rfl)
  | load r hrest hhandle => exact .load r hhandle rfl (by rw [hrest]; rfl) (by rw [hrest]; rfl)
  | dropHandle r hrest hruns hhandle =>
    refine .drop r hhandle rfl (by rw [hrest]; rfl) ?_
    dsimp only
    split <;> rfl
  | start k m rest hx hrest hphase hmsg =>
    exact .quiet rfl (by rw [hrest]; rfl) (by dsimp only; rw [hrest]; rfl)
  | enter k work hx hrest hphase =>
    exact .quiet rfl (by rw [hrest]; rfl) (by dsimp only; rw [hrest]; rfl)
  | fail k hx hrest hphase hhost | die k hx hrest hphase hhost =>
    exact .quiet rfl (by rw [hrest]; rfl) (by dsimp only; rw [hrest]; rfl)
  | exit k hx hrest hphase =>
    exact .quiet rfl (by rw [hrest]; rfl) (by dsimp only; rw [hrest]; rfl)
  | uncaught k hx hrest => exact .quiet rfl (by rw [hrest]; rfl) (by rw [hrest]; rfl)

theorem HandleMove.requests_le (h : HandleMove s l s₁ l₁) : s.requests.length ≤ s₁.requests.length := by
  cases h with
  | quiet _ _ hrequests => exact Nat.le_of_eq (by rw [hrequests])
  | spawn _ _ hrequests => rw [hrequests]; exact Nat.le_succ _
  | returns _ _ hrequests => exact Nat.le_of_eq (by rw [hrequests])
  | drop _ _ _ _ _ hrequests => exact Nat.le_of_eq (by rw [hrequests])

/-- What has not been requested is new, and nobody is at work on it. -/
structure Fresh (c : Config (Ctx ρ) (Shared ρ) Local) : Prop where
  new : ∀ r, c.shared.requests.length ≤ r → c.shared.exits r = .new
  lt : ∀ x r d, (c.loc x).task.duty = some (r, d) → r < c.shared.requests.length

theorem Fresh.step [DecidableEq ρ] (h : Fresh c) (hH : Handled c)
    (hmove : ExitMove c.shared (c.loc x) s₁ l₁)
    (hle : c.shared.requests.length ≤ s₁.requests.length) : Fresh (c.set x s₁ l₁) := by
  have hkeep : (∀ r, c.shared.requests.length ≤ r → s₁.exits r = .new) →
      (∀ r d, l₁.task.duty = some (r, d) → r < c.shared.requests.length) →
      Fresh (c.set x s₁ l₁) := by
    intro hnew hlt
    refine ⟨fun r hr => hnew r (Nat.le_trans hle hr), fun y r d hd => Nat.lt_of_lt_of_le ?_ hle⟩
    by_cases hy : y = x
    · subst hy
      rw [Config.set_loc_self] at hd
      exact hlt r d hd
    · rw [Config.set_loc_of_ne hy] at hd
      exact h.lt y r d hd
  have hupdate : ∀ ptr e, ptr < c.shared.requests.length →
      s₁.exits = Function.update c.shared.exits ptr e →
      ∀ r, c.shared.requests.length ≤ r → s₁.exits r = .new := by
    intro ptr e hptr hexits r hr
    rw [hexits, Function.update_of_ne (by omega)]
    exact h.new r hr
  have hnone : l₁.task.duty = none →
      ∀ r d, l₁.task.duty = some (r, d) → r < c.shared.requests.length := by
    intro hduty r d hd
    rw [hduty] at hd
    cases hd
  have hsome : ∀ ptr d, l₁.task.duty = some (ptr, d) → ptr < c.shared.requests.length →
      ∀ r d, l₁.task.duty = some (r, d) → r < c.shared.requests.length := by
    intro ptr d hduty hptr r d' hd
    rw [hduty] at hd
    cases hd
    exact hptr
  cases hmove with
  | quiet hexits hduty hduty₁ => exact hkeep (by rw [hexits]; exact h.new) (hnone hduty₁)
  | spawn hexits hduty hduty₁ =>
    refine hkeep (fun r hr => ?_) (hnone hduty₁)
    by_cases hrn : r = c.shared.requests.length
    · rw [hexits, hrn, Function.update_self]
    · rw [hexits, Function.update_of_ne hrn]
      exact h.new r hr
  | begin src ptr code hptr hexits hduty hduty₁ =>
    exact hkeep (hupdate _ _ hptr hexits) (hsome _ _ hduty₁ hptr)
  | signal src ptr code hexits hduty hduty₁ =>
    have hptr := h.lt x ptr _ hduty
    exact hkeep (hupdate _ _ hptr hexits) (hsome _ _ hduty₁ hptr)
  | decrement ptr hexits hduty hduty₁ hlast =>
    exact hkeep (hupdate _ _ (h.lt x ptr _ hduty) hexits) (hnone hduty₁)
  | decrementLast ptr hexits hduty hduty₁ hlast =>
    have hptr := h.lt x ptr _ hduty
    exact hkeep (hupdate _ _ hptr hexits) (hsome _ _ hduty₁ hptr)
  | free ptr hexits hduty hduty₁ =>
    exact hkeep (hupdate _ _ (h.lt x ptr _ hduty) hexits) (hnone hduty₁)
  | load r hlive hexits hduty hduty₁ =>
    exact hkeep (hupdate _ _ (hH.live r hlive).2 hexits) (hnone hduty₁)
  | drop r hlive hexits hduty hduty₁ =>
    have hr := (hH.live r hlive).2
    refine hkeep (hupdate _ _ hr hexits) ?_
    by_cases hone : (c.shared.exits r).refCount = 1
    · exact hsome r .free (by rw [hduty₁, if_pos hone]) hr
    · exact hnone (by rw [hduty₁, if_neg hone])

theorem fresh [DecidableEq ρ] (h : (sys host).Reachable (init isWorker) c) : Fresh c := by
  refine h.invariant ⟨fun _ _ => rfl, fun x r d hd => ?_⟩ ?_ fun c e => nomatch e
  · cases x <;> cases hd
  · intro c x a s l hc ih _ hs
    have hmove := step_move hs
    exact ih.step (handled hc) (hmove.exits (routed hc)) hmove.handle.requests_le

end Worker

end WasmSafeThread
