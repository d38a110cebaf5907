import WasmSafeThread.Worker.Lifetime

/-!
# The worker side releases its reference once

A worker ends with one message about its end, which its parent takes at most once.  On Node this message
is all that releases the reference of the worker side.  In a browser so does every error event, and nothing
makes the three handlers exclude each other.

* `Accounted` : how often the worker side begins to release its reference, in terms of the events that
  the parent has taken.
* `Single` : the condition under which it is once, and `released_once` what holds then.
* `released_twice` : an error event, then the end.
-/

namespace WasmSafeThread

namespace Worker

variable {ρ : Type*} {host : Host} {x : Ctx ρ} {a : Act} {s s₁ : Shared ρ} {l l₁ : Local}
  {isWorker : ρ → Bool} {c : Config (Ctx ρ) (Shared ρ) Local}

/-! ### The events that release -/

/-- How often the worker side has begun to release its reference, by the place of the request. -/
def due (host : Host) (s : Shared ρ) : Place ρ → ℕ
  | .thrown => 1
  | .created k =>
    match host with
    | .browser => s.finals k + s.onerrors k
    | .node => s.finals k
  | .held _ | .posted _ | .outside => 0

theorem due_congr (hfinals : s₁.finals = s.finals) (honerrors : s₁.onerrors = s.onerrors)
    (y : Place ρ) : due host s₁ y = due host s y := by
  cases y <;> simp only [due, hfinals, honerrors]

/-- The events of a worker are events of its request. -/
structure Accounted (host : Host) (c : Config (Ctx ρ) (Shared ρ) Local) : Prop where
  begun : ∀ r, (c.shared.exits r).begun = due host c.shared (c.shared.place r)
  none : ∀ k, c.shared.workers.length ≤ k → due host c.shared (.created k) = 0

namespace Accounted

theorem quiet [DecidableEq ρ] (h : Accounted host c)
    (hbegun : ∀ r, (s₁.exits r).begun = (c.shared.exits r).begun)
    (hplace : s₁.place = c.shared.place) (hworkers : s₁.workers = c.shared.workers)
    (hdue : ∀ y, due host s₁ y = due host c.shared y) : Accounted host (c.set x s₁ l₁) := by
  refine ⟨fun r => ?_, fun k hk => ?_⟩ <;> simp only [Config.set_shared] at *
  · rw [hbegun, hplace, hdue]
    exact h.begun r
  · rw [hdue]
    exact h.none k (by rw [← hworkers]; exact hk)

theorem move [DecidableEq ρ] (h : Accounted host c) {r : ℕ} {y : Place ρ}
    (hbegun : ∀ r, (s₁.exits r).begun = (c.shared.exits r).begun)
    (hplace : s₁.place = Function.update c.shared.place r y)
    (hold : due host c.shared (c.shared.place r) = 0) (hy : due host c.shared y = 0)
    (hworkers : ∃ ws, s₁.workers = c.shared.workers ++ ws)
    (hdue : ∀ y, due host s₁ y = due host c.shared y) : Accounted host (c.set x s₁ l₁) := by
  obtain ⟨ws, hws⟩ := hworkers
  refine ⟨fun r' => ?_, fun k hk => ?_⟩ <;> simp only [Config.set_shared] at *
  · rw [hbegun, hdue, hplace, h.begun]
    by_cases hr : r' = r
    · subst hr
      rw [Function.update_self, hold, hy]
    · rw [Function.update_of_ne hr]
  · rw [hdue]
    rw [hws, List.length_append] at hk
    exact h.none k (by omega)

/-- An event of worker `k` is taken, and the release begins. -/
theorem take [DecidableEq ρ] (h : Accounted host c) (hR : Routed c) {k : ℕ} {w : Created ρ}
    (hw : c.shared.workers[k]? = some w)
    (hexits : s₁.exits = Function.update c.shared.exits w.payload.exitStatePtr
      (c.shared.exits w.payload.exitStatePtr).begin)
    (hplace : s₁.place = c.shared.place) (hworkers : s₁.workers = c.shared.workers)
    (hself : due host s₁ (.created k) = due host c.shared (.created k) + 1)
    (hother : ∀ y, y ≠ .created k → due host s₁ y = due host c.shared y) :
    Accounted host (c.set x s₁ l₁) := by
  have hk : k < c.shared.workers.length := (List.getElem?_eq_some_iff.1 hw).1
  have hptr := (hR.created k w hw).1
  refine ⟨fun r => ?_, fun j hj => ?_⟩ <;> simp only [Config.set_shared] at *
  · rw [hexits, hplace]
    by_cases hr : r = w.payload.exitStatePtr
    · rw [hr, Function.update_self, hptr, hself, ← hptr, ← h.begun]
      rfl
    · rw [Function.update_of_ne hr, h.begun, hother]
      intro hpr
      obtain ⟨w', hw', rfl⟩ := hR.worker r k hpr
      rw [hw] at hw'
      cases hw'
      exact hr rfl
  · rw [hworkers] at hj
    rw [hother _ (by rintro ⟨⟩; omega)]
    exact h.none j hj

theorem step [DecidableEq ρ] (h : Accounted host c) (hR : Routed c) (hF : Fresh c)
    (hmove : Move host x c.shared (c.loc x) a s₁ l₁) : Accounted host (c.set x s₁ l₁) := by
  have hsame : ∀ {ptr : ℕ} {e : ExitState}, e.begun = (c.shared.exits ptr).begun →
      ∀ r, (Function.update c.shared.exits ptr e r).begun = (c.shared.exits r).begun := by
    intro ptr e he r
    by_cases hr : r = ptr
    · subst hr
      rw [Function.update_self, he]
    · rw [Function.update_of_ne hr]
  cases hmove with
  | spawn name shimUrl hrest hruns =>
    refine h.move (hsame ?_) rfl ?_ rfl ⟨[], (List.append_nil _).symm⟩ (due_congr rfl rfl)
    · rw [hF.new _ (Nat.le_refl _)]
    · rw [hR.unused _ (Nat.le_refl _)]
      rfl
  | forward p ret htask =>
    have hplace := (hR.held x p (by rw [htask]; rfl)).1
    cases x with
    | worker k =>
      refine h.move (r := p.exitStatePtr) (y := .posted k) ?_ ?_ (by rw [hplace]; rfl) rfl
        ⟨[], ?_⟩ (due_congr ?_ ?_) <;> simp [Worker.forward, Shared.setPlace, Shared.post]
    | root z =>
      refine h.move (r := p.exitStatePtr) (y := .outside) ?_ ?_ (by rw [hplace]; rfl) rfl
        ⟨[], ?_⟩ (due_congr ?_ ?_) <;> simp [Worker.forward, Shared.setPlace]
  | relay k w p rest hw hmsg hrest hruns hparent =>
    have hplace := (hR.posted k p (by rw [hmsg, mem_relays]; exact List.mem_cons_self)).1
    exact h.move (fun _ => rfl) rfl (by rw [hplace]; rfl) rfl ⟨[], (List.append_nil _).symm⟩
      (due_congr rfl rfl)
  | create p ret htask =>
    have hplace := (hR.held x p (by rw [htask]; rfl)).1
    refine h.move (r := p.exitStatePtr) ?_ ?_ (by rw [hplace]; rfl) (h.none _ (Nat.le_refl _))
      ⟨[⟨x, p⟩], ?_⟩ (due_congr ?_ ?_) <;> simp [Worker.create, Shared.setPlace]
  | throws p ret htask =>
    have hplace := (hR.held x p (by rw [htask]; rfl)).1
    refine ⟨fun r => ?_, fun k hk => h.none k hk⟩
    simp only [Config.set_shared, Shared.setExit, Shared.setPlace]
    by_cases hr : r = p.exitStatePtr
    · have hb := h.begun r
      rw [hr, hplace] at hb
      rw [hr, Function.update_self, Function.update_self]
      exact congrArg (· + 1) hb
    · rw [Function.update_of_ne hr, Function.update_of_ne hr, h.begun r]
      cases c.shared.place r <;> rfl
  | ended k w m code rest hw hmsg hm hrest hruns hparent =>
    refine h.take hR hw rfl rfl rfl ?_ fun y hy => ?_
    · cases host with
      | browser =>
        simp only [due, Shared.setExit, Shared.takeFinal, Function.update_self]
        omega
      | node => simp only [due, Shared.setExit, Shared.takeFinal, Function.update_self]
    · cases y with
      | created j =>
        have hj : j ≠ k := fun hjk => hy (by rw [hjk])
        simp only [due, Shared.setExit, Shared.takeFinal, Function.update_of_ne hj]
      | _ => rfl
  | onerror k w hhost hw hrest hruns hparent =>
    subst hhost
    refine h.take hR hw rfl rfl rfl ?_ fun y hy => ?_
    · simp only [due, Shared.setExit, Shared.takeError, Function.update_self]
      omega
    · cases y with
      | created j =>
        have hj : j ≠ k := fun hjk => hy (by rw [hjk])
        simp only [due, Shared.setExit, Shared.takeError, Function.update_of_ne hj]
      | _ => rfl
  | logged k hhost hrest =>
    subst hhost
    exact h.quiet (fun _ => rfl) rfl rfl fun y => by cases y <;> rfl
  | initHandlers | start | enter | fail | die | exit | uncaught =>
    exact h.quiet (fun _ => rfl) rfl rfl (due_congr rfl rfl)
  | signal | decrementLast | freeBox | load | dropHandle =>
    exact h.quiet (hsame rfl) rfl rfl (due_congr rfl rfl)
  | decrement ptr ret htask hlast | cleanup ptr ret htask =>
    refine h.quiet ?_ ?_ ?_ (due_congr ?_ ?_)
    · rw [Shared.finish_exits]
      refine hsame ?_
      rfl
    all_goals simp [Shared.setExit]

end Accounted

theorem accounted [DecidableEq ρ] (h : (sys host).Reachable (init isWorker) c) : Accounted host c := by
  refine h.invariant ⟨fun _ => rfl, fun _ _ => by cases host <;> rfl⟩ ?_ fun c e => nomatch e
  intro c x a s l hc ih _ hs
  exact ih.step (routed hc) (fresh hc) (step_move hs)

/-! ### The `exit_state`s in a run -/

/-- What the contexts are about to do with the `exit_state` of request `r`. -/
def duties (c : Config (Ctx ρ) (Shared ρ) Local) (r : ℕ) (x : Ctx ρ) : Option Duty :=
  (c.loc x).task.dutyFor r

theorem duties_set [DecidableEq ρ] (r : ℕ) :
    duties (c.set x s₁ l₁) r = Function.update (duties c r) x (l₁.task.dutyFor r) := by
  funext y
  by_cases hy : y = x
  · subst hy
    simp [duties]
  · simp [duties, Config.set_loc_of_ne hy, hy]

theorem duties_init [DecidableEq ρ] (isWorker : ρ → Bool) (r : ℕ) (x : Ctx ρ) :
    duties (init isWorker) r x = none := by
  cases x <;> rfl

theorem access_of_step [DecidableEq ρ] (h : (sys host).Reachable (init isWorker) c)
    (hs : step host x a c.shared (c.loc x) = some (s₁, l₁)) (r : ℕ) :
    Access (c.shared.handle r) (c.loc x).cleanup (c.shared.exits r) (duties c r x) (s₁.exits r)
      (l₁.task.dutyFor r) :=
  ((step_move hs).exits (routed h)).access (fresh h) r

theorem booked [DecidableEq ρ] (h : (sys host).Reachable (init isWorker) c) (r : ℕ) :
    Booked (c.shared.exits r) := by
  refine h.invariant (I := fun c => Booked (c.shared.exits r)) .new ?_ fun c e => nomatch e
  intro c x a s l hc ih _ hs
  exact ih.step (access_of_step hc hs r) fun hl => ((handled hc).live r hl).1

theorem Access.begun_le {live cleanup : Bool} {e e₁ : ExitState} {d d₁ : Option Duty}
    (h : Access live cleanup e d e₁ d₁) : e.begun ≤ e₁.begun := by
  cases h with
  | begin => exact Nat.le_succ _
  | _ => exact Nat.le_refl _

theorem lives [DecidableEq ρ] (h : (sys host).Reachable (init isWorker) c) (r : ℕ)
    (hr : (c.shared.exits r).begun ≤ 1) : Life (c.shared.exits r) (duties c r) := by
  revert hr
  refine h.invariant (I := fun c => (c.shared.exits r).begun ≤ 1 →
    Life (c.shared.exits r) (duties c r)) (fun _ => .new _ (duties_init isWorker r)) ?_
    fun c e => nomatch e
  -- the release has not begun twice before, so the invariant holds there
  intro c x a s l hc ih _ hs hbegun
  have ha := access_of_step hc hs r
  rw [duties_set]
  exact (ih (Nat.le_trans ha.begun_le hbegun)).step (booked hc r) ha
    (fun hl => ((handled hc).live r hl).1) hbegun

/-! ### Once -/

/-- In a browser the parent takes an error event of worker `k` only if it has taken no other event about
its end, and the message about the end only if it has taken no error event. -/
def Single (host : Host) (c : Config (Ctx ρ) (Shared ρ) Local) : Label (Ctx ρ) Act Empty → Prop
  | .agent _ (.recv k) =>
    host = .browser → ((c.shared.outbox k).head? = some .exit ∨ (c.shared.outbox k).head? = some .error) →
      c.shared.onerrors k = 0
  | .agent _ (.recvError k) => host = .browser → c.shared.finals k = 0 ∧ c.shared.onerrors k = 0
  | _ => True

instance (host : Host) (c : Config (Ctx ρ) (Shared ρ) Local) :
    (a : Label (Ctx ρ) Act Empty) → Decidable (Single host c a)
  | .agent _ a =>
    match a with
    | .recv _ => inferInstanceAs (Decidable (_ → _ → _))
    | .recvError _ => inferInstanceAs (Decidable (_ → _))
    | .spawn _ _ | .step | .throws | .start | .enter | .fail | .exit | .uncaught | .load _
    | .dropHandle _ => .isTrue trivial
  | .env _ => .isTrue trivial

theorem single_node (c : Config (Ctx ρ) (Shared ρ) Local) (a : Label (Ctx ρ) Act Empty) :
    Single .node c a := by
  unfold Single
  split
  · exact nofun
  · exact nofun
  · trivial

/-- The parent of a worker in a browser has taken one kind of event, and once. -/
def OneEvent (s : Shared ρ) : Prop := ∀ k, (s.finals k = 0 ∨ s.onerrors k = 0) ∧ s.onerrors k ≤ 1

theorem OneEvent.step (h : OneEvent s) (hmove : Move .browser x s l a s₁ l₁)
    (hmsg : ∀ k, a = .recv k → ((s.outbox k).head? = some .exit ∨ (s.outbox k).head? = some .error) →
      s.onerrors k = 0)
    (herror : ∀ k, a = .recvError k → s.finals k = 0 ∧ s.onerrors k = 0) : OneEvent s₁ := by
  have hkeep : s₁.finals = s.finals → s₁.onerrors = s.onerrors → OneEvent s₁ := by
    intro hfinals honerrors k
    rw [hfinals, honerrors]
    exact h k
  cases hmove with
  | ended k w m code rest hw hout hm hrest hruns hparent =>
    have hzero : s.onerrors k = 0 := by
      refine hmsg k rfl ?_
      rw [hout]
      rcases hm with ⟨rfl, -⟩ | ⟨rfl, -⟩
      · exact .inl rfl
      · exact .inr rfl
    intro j
    by_cases hj : j = k
    · subst hj
      exact ⟨.inr hzero, Nat.le_trans (Nat.le_of_eq hzero) (Nat.zero_le 1)⟩
    · simp only [Shared.setExit, Shared.takeFinal, Function.update_of_ne hj]
      exact h j
  | onerror k w hhost hw hrest hruns hparent =>
    obtain ⟨hfinals, honerrors⟩ := herror k rfl
    intro j
    by_cases hj : j = k
    · subst hj
      simp only [Shared.setExit, Shared.takeError, Function.update_self, honerrors]
      exact ⟨.inl hfinals, Nat.le_refl _⟩
    · simp only [Shared.setExit, Shared.takeError, Function.update_of_ne hj]
      exact h j
  | logged k hhost hrest => cases hhost
  | forward p ret htask =>
    refine hkeep ?_ ?_ <;> cases x <;> simp [Worker.forward, Shared.setPlace, Shared.post]
  | create p ret htask =>
    refine hkeep ?_ ?_ <;> simp [Worker.create, Shared.setPlace]
  | decrement ptr ret htask hlast | cleanup ptr ret htask =>
    refine hkeep ?_ ?_ <;> simp [Shared.setExit]
  | _ => exact hkeep rfl rfl

theorem oneEvent [DecidableEq ρ] (h : (sys .browser).Reach (Single .browser) (init isWorker) c) :
    OneEvent c.shared := by
  refine h.invariant (I := fun c => OneEvent c.shared) (fun _ => ⟨.inl rfl, Nat.zero_le _⟩) ?_
    fun c e => nomatch e
  intro c x a s l _ ih hP hs
  refine ih.step (step_move hs) ?_ ?_
  · rintro k rfl
    exact hP rfl
  · rintro k rfl
    exact hP rfl

theorem begun_le_one [DecidableEq ρ] (h : (sys host).Reach (Single host) (init isWorker) c) (r : ℕ) :
    (c.shared.exits r).begun ≤ 1 := by
  rw [(accounted h.reachable).begun]
  cases hplace : c.shared.place r with
  | created k =>
    -- a message about the end at most, and in a browser the condition
    have hfinals := (ended h.reachable).finals_le k
    cases host with
    | browser =>
      have hone := oneEvent h k
      unfold due
      dsimp only
      omega
    | node => exact hfinals
  | thrown => exact Nat.le_refl _
  | held | posted | outside => exact Nat.zero_le _

/-- The worker side has released at most its own reference, and the memory is freed when it should be. -/
structure Sound (e : ExitState) (live : Bool) : Prop where
  signals : e.signals.length ≤ 1
  decrements : e.decrements ≤ 1
  /-- `ref_count` is 2, then 1, then 0. -/
  count : e.refCount.toNat + e.decrements + e.dropped.toNat = 2
  /-- It is freed when both references have been released. -/
  freed : 0 < e.frees → e.decrements = 1 ∧ e.dropped = true
  held : live = true → e.frees = 0
  once : e.frees ≤ 1
  late : e.late = false
  changed : e.changed = false

theorem Life.sound {κ : Type*} {e : ExitState} {D : κ → Option Duty} {live : Bool} (h : Life e D)
    (hB : Booked e) (hlive : live = true → e.dropped = false) : Sound e live := by
  have hdec := h.side.decrements_le
  have hdrop := Bool.toNat_le e.dropped
  refine ⟨h.side.signals_le, hdec, ?_, fun hfrees => ?_, fun hl => ?_, ?_, h.late, h.changed⟩
  · rw [hB.count, Nat.add_assoc]
    change _ + e.released = 2
    have hle : e.released ≤ 2 := by
      unfold ExitState.released
      omega
    generalize e.released = n at hle
    obtain rfl | rfl | rfl : n = 0 ∨ n = 1 ∨ n = 2 := by omega
    all_goals decide
  · cases h.memory with
    | allocated hf | freeing _ _ hf => omega
    | freed hf hdecs hdropped => exact ⟨hdecs, hdropped⟩
  · exact (h.memory.allocated_of (.inr (hlive hl))).1
  · cases h.memory with
    | allocated hf | freeing _ _ hf => omega
    | freed hf => omega

/-- **The worker side releases its reference once**, in every run in which a parent in a browser takes one
event about the end of each worker.  On Node this is every run (`single_node`). -/
theorem released_once [DecidableEq ρ] (h : (sys host).Reach (Single host) (init isWorker) c) (r : ℕ) :
    Sound (c.shared.exits r) (c.shared.handle r) :=
  (lives h.reachable r (begun_le_one h r)).sound (booked h.reachable r) fun hl =>
    ((handled h.reachable).live r hl).1

theorem released_once_uncaught : ∃ c, (sys .browser).Reachable (init fun _ : Unit => false) c ∧
    (c.shared.exits 0).frees = 1 ∧ Sound (c.shared.exits 0) (c.shared.handle 0) := by
  obtain ⟨c, hc, hend⟩ := System.exists_of_along (M := sys .browser) (P := Single .browser)
    (c := init fun _ : Unit => false) (p := fun c => decide ((c.shared.exits 0).frees = 1))
    [.agent (.root ()) (.spawn "a" "m.js"), .agent (.root ()) .step, .agent (.root ()) .step,
      .agent (.worker 0) .start, .agent (.worker 0) .enter, .agent (.worker 0) .uncaught,
      .agent (.root ()) (.recvError 0), .agent (.root ()) .step, .agent (.root ()) .step,
      .agent (.root ()) (.dropHandle 0), .agent (.root ()) .step] (by decide) (by decide)
  exact ⟨c, hc.reachable, of_decide_eq_true hend, released_once hc 0⟩

/-- **An error event, then the end.**  A timer of the worker throws while its task still runs: the parent
stores 2 and decrements.  Then the worker ends: the parent stores 1, decrements again, finds the last
reference and frees the memory, and `join_async` loads the code from it. -/
theorem released_twice : ∃ c, (sys .browser).Reachable (init fun _ : Unit => false) c ∧
    c.shared.handle 0 = true ∧ (c.shared.exits 0).decrements = 2 ∧
    (c.shared.exits 0).frees = 1 ∧ (c.shared.exits 0).late = true ∧
    (c.shared.exits 0).changed = true ∧ ¬ Sound (c.shared.exits 0) (c.shared.handle 0) := by
  obtain ⟨c, hc, hend⟩ := System.exists_of_run (M := sys .browser) (c := init fun _ : Unit => false)
    (p := fun c => decide (c.shared.handle 0 = true ∧ (c.shared.exits 0).decrements = 2 ∧
      (c.shared.exits 0).frees = 1 ∧ (c.shared.exits 0).late = true ∧
      (c.shared.exits 0).changed = true))
    [.agent (.root ()) (.spawn "a" "m.js"), .agent (.root ()) .step, .agent (.root ()) .step,
      .agent (.worker 0) .start, .agent (.worker 0) .enter, .agent (.worker 0) .uncaught,
      .agent (.root ()) (.recvError 0), .agent (.root ()) .step, .agent (.root ()) .step,
      .agent (.worker 0) .exit, .agent (.root ()) (.recv 0), .agent (.root ()) .step,
      .agent (.root ()) .step, .agent (.root ()) .step, .agent (.root ()) (.load 0)] (by decide)
  rw [decide_eq_true_eq] at hend
  obtain ⟨hlive, hdec, hfrees, hlate, hchanged⟩ := hend
  refine ⟨c, hc, hlive, hdec, hfrees, hlate, hchanged, fun hsound => ?_⟩
  rw [hsound.held hlive] at hfrees
  cases hfrees

end Worker

end WasmSafeThread
