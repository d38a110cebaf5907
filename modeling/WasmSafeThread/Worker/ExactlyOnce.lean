import WasmSafeThread.Worker.Release
import WasmSafeThread.Worker.Delivery

/-!
# One worker for each spawn, at the root

Nested spawns in a browser, of any depth, from any number of roots.

* `Below` : the tree of spawns of a root; every caller is in one (`exists_below`).
* `Sourced` : whom the codes in an `exit_state` are about.
* `spawned_once` : a request is never lost and never gets two workers; its worker is a child of the root of
  the tree, starts with the payload of the call, and consumes its closure at most once; codes about it go to its own
  `exit_state`.  A request whose relay message could not be posted gets code 2 instead.
-/

namespace WasmSafeThread

namespace Worker

variable {ρ : Type*} {host : Host} {x : Ctx ρ} {a : Act} {s s₁ : Shared ρ} {l l₁ : Local}
  {isWorker : ρ → Bool} {c : Config (Ctx ρ) (Shared ρ) Local}

/-! ### The tree of spawns -/

/-- The context is in the tree of spawns of root `y`. -/
inductive Below (s : Shared ρ) (y : ρ) : Ctx ρ → Prop
  | root : Below s y (.root y)
  /-- A worker whose request was made in the tree. -/
  | spawned (k : ℕ) (w : Created ρ) (q : Request ρ) (hw : s.workers[k]? = some w)
      (hq : s.requests[w.payload.exitStatePtr]? = some q) (h : Below s y q.ctx) :
      Below s y (.worker k)

/-- A request is made before its worker is created. -/
def Older (c : Config (Ctx ρ) (Shared ρ) Local) : Prop :=
  ∀ (k j : ℕ) (w : Created ρ) (q : Request ρ), c.shared.workers[k]? = some w →
    c.shared.requests[w.payload.exitStatePtr]? = some q → q.ctx = .worker j → j < k

theorem Older.step [DecidableEq ρ] (h : Older c) (hR : Routed c) (hT : Traced c)
    (hmove : RouteMove x c.shared (c.loc x) s₁ l₁) : Older (c.set x s₁ l₁) := by
  have hkeep : s₁.workers = c.shared.workers → s₁.requests = c.shared.requests →
      Older (c.set x s₁ l₁) := by
    intro hworkers hrequests k j w q
    rw [Config.set_shared, hworkers, hrequests]
    exact h k j w q
  cases hmove with
  | quiet _ hworkers hrequests => exact hkeep hworkers hrequests
  | post _ _ _ _ _ _ hworkers hrequests => exact hkeep hworkers hrequests
  | lost _ _ _ _ _ _ hworkers hrequests => exact hkeep hworkers hrequests
  | relay _ _ _ _ _ _ _ _ _ hworkers hrequests => exact hkeep hworkers hrequests
  | spawn name shimUrl _ _ _ hworkers hrequests =>
    intro k j w q hw hq
    rw [Config.set_shared, hworkers] at hw
    have hlt := (hR.created k w hw).2.lt
    rw [Config.set_shared, hrequests, List.getElem?_append_left hlt] at hq
    exact h k j w q hw hq
  | create p ret htask hplace hworkers hrequests =>
    intro k j w q hw hq hctx
    rw [Config.set_shared, hrequests] at hq
    rw [Config.set_shared, hworkers, getElem?_concat] at hw
    rcases hw with hw | ⟨rfl, rfl⟩
    · exact h k j w q hw hq hctx
    · exact hT.caller _ q j hq hctx

theorem older [DecidableEq ρ] (h : (sys .browser).Reachable (init isWorker) c) : Older c := by
  refine h.invariant nofun ?_ fun c e => nomatch e
  intro c x a s l hc ih _ hs
  exact ih.step (routed hc) (traced hc) (step_move hs).route

/-- **Every worker is in the tree of a root**, by induction on the number of the worker. -/
theorem Older.exists_below (h : Older c) (hR : Routed c) (hT : Traced c) (k : ℕ)
    (hk : k < c.shared.workers.length) : ∃ y, Below c.shared y (.worker k) := by
  induction k using Nat.strongRecOn with
  | ind k ih =>
    have hw := List.getElem?_eq_getElem hk
    obtain ⟨q, hq, -⟩ := (hR.created k _ hw).2
    cases hx : q.ctx with
    | root y => exact ⟨y, .spawned k _ q hw hq (by rw [hx]; exact .root)⟩
    | worker j =>
      obtain ⟨y, hy⟩ := ih j (h k j _ q hw hq hx) (hT.caller _ q j hq hx)
      exact ⟨y, .spawned k _ q hw hq (by rw [hx]; exact hy)⟩

theorem Below.rootOf_eq {y : ρ} (h : Below c.shared y x) (hR : Routed c) (hT : Traced c) :
    c.shared.rootOf x = .root y := by
  induction h with
  | root => rfl
  | spawned k w q hw hq _ ih =>
    rw [← ih, ← hT.created _ q k w hq (hR.created k w hw).1 hw]
    simp only [Shared.rootOf, hw]

/-! ### Whom a code is about -/

/-- Where a code for worker `src` goes: into the `exit_state` of the request of the worker, or of a request that
has no worker because `postMessage` has thrown. -/
def Source (s : Shared ρ) (r : ℕ) (code : ℕ) : Option ℕ → Prop
  | none => s.place r = .thrown ∧ code = 2
  | some k => s.place r = .created k

structure Sourced (c : Config (Ctx ρ) (Shared ρ) Local) : Prop where
  signals : ∀ r src code, (src, code) ∈ (c.shared.exits r).signals → Source c.shared r code src
  duty : ∀ x r src code, duties c r x = some (.signal src code) → Source c.shared r code src

theorem Source.mono {r code : ℕ} {src : Option ℕ} (h : Source c.shared r code src)
    (hmove : RouteMove x c.shared (c.loc x) s₁ l₁) (hR : Routed c) : Source s₁ r code src := by
  cases src with
  | none =>
    refine ⟨?_, h.2⟩
    rw [hmove.settled hR (.inl h.1)]
    exact h.1
  | some k =>
    have h : c.shared.place r = .created k := h
    show s₁.place r = .created k
    rw [hmove.settled hR (.inr ⟨k, h⟩)]
    exact h

/-- A context gets the duty to store a code. -/
theorem Move.source (h : Move host x c.shared (c.loc x) a s₁ l₁) (hR : Routed c) {r code : ℕ}
    {src : Option ℕ} (hd : l₁.task.duty = some (r, .signal src code)) : Source s₁ r code src := by
  cases h with
  | throws p ret htask =>
    cases hd
    exact ⟨by simp [Shared.setExit, Shared.setPlace], rfl⟩
  | ended k w m code rest hw hmsg hm hrest hruns hparent =>
    cases hd
    exact (hR.created k w hw).1
  | onerror k w hhost hw hrest hruns hparent =>
    cases hd
    exact (hR.created k w hw).1
  | initHandlers | relay =>
    rw [placeTask_duty] at hd
    cases hd
  | dropHandle =>
    dsimp only at hd
    split at hd <;> cases hd
  | logged _ _ hrest | load _ hrest | uncaught _ _ hrest =>
    rw [hrest] at hd
    cases hd
  | start _ _ _ _ hrest | enter _ _ _ hrest | fail _ _ hrest | die _ _ hrest | exit _ _ hrest =>
    dsimp only at hd
    rw [hrest] at hd
    cases hd
  | _ => cases hd

theorem Access.signals_eq {live cleanup : Bool} {e e₁ : ExitState} {d d₁ : Option Duty}
    (h : Access live cleanup e d e₁ d₁) :
    e₁.signals = e.signals ∨
      ∃ src code, d = some (.signal src code) ∧ e₁.signals = (src, code) :: e.signals := by
  cases h with
  | signal src code hd => exact .inr ⟨src, code, hd, rfl⟩
  | _ => exact .inl rfl

theorem sourced [DecidableEq ρ] (h : (sys host).Reachable (init isWorker) c) : Sourced c := by
  refine h.invariant ⟨nofun, fun x r src code hd => ?_⟩ ?_ fun c e => nomatch e
  · rw [duties_init] at hd
    cases hd
  · intro c x a s l hc ih _ hs
    have hR := routed hc
    have hmove := step_move hs
    refine ⟨fun r src code hmem => ?_, fun y r src code hd => ?_⟩
    · refine Source.mono ?_ hmove.route hR
      rcases (access_of_step hc hs r).signals_eq with heq | ⟨src', code', hd, heq⟩ <;>
        rw [Config.set_shared, heq] at hmem
      · exact ih.signals r src code hmem
      · rcases List.mem_cons.1 hmem with hnew | hold
        · cases hnew
          exact ih.duty x r src code hd
        · exact ih.signals r src code hold
    · rw [duties_set] at hd
      by_cases hy : y = x
      · subst hy
        rw [Function.update_self] at hd
        exact hmove.source hR (Task.duty_eq hd)
      · rw [Function.update_of_ne hy] at hd
        exact (ih.duty y r src code hd).mono hmove.route hR

/-! ### Exactly once -/

/-- Worker `k` was created for request `r`. -/
def WorkerOf (s : Shared ρ) (r k : ℕ) : Prop :=
  ∃ w, s.workers[k]? = some w ∧ w.payload.exitStatePtr = r

/-- What holds of request `r`, made by the call `q`. -/
structure Served [DecidableEq ρ] (c : Config (Ctx ρ) (Shared ρ) Local) (r : ℕ) (q : Request ρ) : Prop where
  /-- The caller is in the tree of one root. -/
  tree : ∃ y, Below c.shared y q.ctx
  /-- The worker is a child of this root, and has the payload of the call. -/
  child : ∀ (y : ρ) (k : ℕ) (w : Created ρ), Below c.shared y q.ctx → c.shared.workers[k]? = some w →
    w.payload.exitStatePtr = r → w.parent = .root y ∧ w.payload = q.payload
  unique : ∀ j k, WorkerOf c.shared r j → WorkerOf c.shared r k → j = k
  /-- It has a worker, or it has been given up, or it is on its way. -/
  kept : (∃ k, WorkerOf c.shared r k) ∨ c.shared.place r = .thrown ∨ 0 < remaining c r
  /-- On its way, everybody who has it brings it closer, and nobody takes it further away. -/
  closer : ∀ a c', (sys .browser).next c a = some c' →
    remaining c' r ≤ remaining c r ∧ (Carries c r a → remaining c' r < remaining c r)
  /-- Who has it can act, except for a root that is at something else, and can go on with that. -/
  moves : 0 < remaining c r → (∃ a c', Carries c r a ∧ (sys .browser).next c a = some c') ∨
    ∃ k w y c', c.shared.place r = .posted k ∧ c.shared.workers[k]? = some w ∧ w.parent = .root y ∧
      (c.loc (.root y)).task ≠ .rest ∧ (sys .browser).next c (.agent (.root y) .step) = some c'
  consumed : c.shared.consumed q.payload.work ≤ 1
  /-- A code about a worker is in the `exit_state` of its request. -/
  own : ∀ k code, (some k, code) ∈ (c.shared.exits r).signals → WorkerOf c.shared r k
  /-- It has been given up: there is no worker, and when the caller is done with it, code 2 has been stored
  once and the count decremented once. -/
  thrown : c.shared.place r = .thrown → (∀ k, ¬ WorkerOf c.shared r k) ∧
    (c.shared.exits r).signals.length ≤ 1 ∧ (c.shared.exits r).decrements ≤ 1 ∧
    ((∀ x, Off (duties c r x)) →
      (c.shared.exits r).signals = [(none, 2)] ∧ (c.shared.exits r).decrements = 1)

/-- **One worker for each spawn, at the root.** -/
theorem spawned_once [DecidableEq ρ] (h : (sys .browser).Reachable (init isWorker) c) {r : ℕ}
    {q : Request ρ} (hq : c.shared.requests[r]? = some q) : Served c r q := by
  have hR := routed h
  have hT := traced h
  have hof : ∀ k, WorkerOf c.shared r k → c.shared.place r = .created k := by
    rintro k ⟨w, hw, rfl⟩
    exact (hR.created k w hw).1
  refine ⟨?_, ?_, ?_, ?_, ?_, can_carry h, (started h).consumed_le _, ?_, ?_⟩
  · cases hx : q.ctx with
    | root y => exact ⟨y, .root⟩
    | worker k => exact (older h).exists_below hR hT k (hT.caller r q k hq hx)
  · intro y k w hy hw hptr
    obtain ⟨hplace, q', hq', hpay⟩ := hR.created k w hw
    rw [hptr] at hplace hq'
    rw [hq] at hq'
    cases hq'
    exact ⟨by rw [hT.created r q k w hq hplace hw, hy.rootOf_eq hR hT], hpay.symm⟩
  · intro j k hj hk
    have heq := (hof j hj).symm.trans (hof k hk)
    cases heq
    rfl
  · cases hplace : c.shared.place r with
    | created k =>
      obtain ⟨w, hw, hptr⟩ := hR.worker r k hplace
      exact .inl ⟨k, w, hw, hptr⟩
    | thrown => exact .inr (.inl rfl)
    | outside => exact absurd hplace (hT.inside r q hq)
    | held x =>
      refine .inr (.inr ?_)
      cases x <;> simp only [remaining, hplace] <;> omega
    | posted k =>
      refine .inr (.inr ?_)
      simp only [remaining, hplace]
      omega
  · exact fun a c' hn => remaining_step h hn (hT.inside r q hq)
  · intro k code hmem
    exact hR.worker r k ((sourced h).signals r (some k) code hmem)
  · intro hplace
    -- the release began once, with the exception
    have hbegun : (c.shared.exits r).begun = 1 := by
      rw [(accounted h).begun, hplace]
      rfl
    have hside := (lives h r (Nat.le_of_eq hbegun)).side
    refine ⟨fun k hk => ?_, hside.signals_le, hside.decrements_le, fun hoff => ?_⟩
    · rw [hof k hk] at hplace
      cases hplace
    · cases hside with
      | idle hb => rw [hb] at hbegun; cases hbegun
      | signalling y src code hduty =>
        have := hoff y
        rw [hduty] at this
        rcases this with h | h <;> cases h
      | decrementing y src code hduty =>
        have := hoff y
        rw [hduty] at this
        rcases this with h | h <;> cases h
      | released src code hb hs hd =>
        have hsource := (sourced h).signals r src code (by rw [hs]; exact List.mem_singleton_self _)
        cases src with
        | none => exact ⟨by rw [hs, hsource.2], hd⟩
        | some k =>
          have hk : c.shared.place r = .created k := hsource
          rw [hk] at hplace
          cases hplace

theorem spawned_once_nested : ∃ (c : Config (Ctx Unit) (Shared Unit) Local) (q : Request Unit),
    (sys .browser).Reachable (init fun _ => false) c ∧ q.ctx = .worker 0 ∧
      (c.shared.workers[1]?).map Created.parent = some (.root ()) ∧ Served c 1 q := by
  let as : List (Label (Ctx Unit) Act Empty) :=
    [.agent (.root ()) (.spawn "a" "m.js"), .agent (.root ()) .step, .agent (.root ()) .step,
      .agent (.worker 0) .start, .agent (.worker 0) .enter, .agent (.worker 0) (.spawn "b" "m.js"),
      .agent (.worker 0) .step, .agent (.worker 0) .step, .agent (.worker 0) .exit,
      .agent (.root ()) (.recv 0), .agent (.root ()) .step]
  let c := ((sys .browser).run (init fun _ : Unit => false) as).get (by decide)
  let q := (c.shared.requests[1]?).get (by decide)
  have hc : (sys .browser).Reachable (init fun _ => false) c :=
    System.reachable_of_run (Option.some_get _).symm
  exact ⟨c, q, hc, by decide, by decide, spawned_once hc (Option.some_get _).symm⟩

end Worker

end WasmSafeThread
