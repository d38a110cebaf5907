import WasmSafeThread.Hooks.Basic

/-!
# User code and the guard of the registry

The mutex of the registry is not reentrant, so user code that runs while its thread has the guard is
stuck as soon as it calls an operation of the registry.  `run_spawn_hooks` clones the hooks and drops the
guard before it calls them.  The other operations drop the `Arc` of a hook that they replace or remove
while they have the guard, and if that was the last one, and the hook has captured a value with a
destructor, the destructor runs there.

* `Spared` : the step is not the drop of the last `Arc` of such a hook under the guard.
* `Unentangled` : no user code runs under the guard, no thread waits while it has the guard, and every
  operation that has been called can return.
* `unentangled_iff` : the first holds in every run whose steps are spared, and a step that is not spared
  ends it.
* `stuck` : a thread that waits for its own guard waits for ever.
-/

namespace WasmSafeThread

namespace Hooks

variable {ι N : Type*} [DecidableEq ι] [DecidableEq N]

omit [DecidableEq ι] [DecidableEq N] in
/-- The step is not the drop, under the guard, of the last `Arc` of a hook with a destructor. -/
def Spared (c : Config ι (Shared ι N) (Local ι N)) : Label ι (Act ι N) Empty → Bool
  | .agent i .step =>
    match (c.loc i).calls with
    | .drops (k :: _) _ :: _ => !c.shared.destroys k
    | _ => true
  | _ => true

omit [DecidableEq ι] [DecidableEq N] in
/-- The thread waits: for the mutex, or for another thread. -/
def Local.waits (l : Local ι N) : Bool :=
  !l.user && match l.calls, l.phase with
    | .lock _ :: _, _ | .join _ :: _, _ => true
    | [], .run => true
    | _, _ => false

omit [DecidableEq ι] [DecidableEq N] in
/-- The step is an operation of the thread itself, or user code returns. -/
def GoesOn (_ : Config ι (Shared ι N) (Local ι N)) : Label ι (Act ι N) Empty → Prop
  | .agent _ a => a = .step ∨ a = .ret
  | .env _ => False

/-- User code and the guard have nothing to do with each other. -/
structure Unentangled (c : Config ι (Shared ι N) (Local ι N)) : Prop where
  /-- User code runs while its thread does not have the guard. -/
  user : ∀ i, (c.loc i).user = true → (c.loc i).guards = 0
  /-- A thread that waits does not have the guard. -/
  waits : ∀ i, (c.loc i).waits = true → (c.loc i).guards = 0
  /-- An operation that has been called can return, if user code does. -/
  returns : ∀ i op rest, (c.loc i).user = false → (c.loc i).calls = .lock op :: rest →
    ∃ c', sys.Reach GoesOn c c' ∧ (c'.loc i).calls = rest ∧ (c'.loc i).user = true
  /-- A thread that begins can get to its hooks, if user code returns. -/
  runs : ∀ i, (c.loc i).user = false → (c.loc i).calls = [] → (c.loc i).phase = .run →
    ∃ c', sys.Reach GoesOn c c' ∧ (c'.loc i).calls = [] ∧ ∃ todo, (c'.loc i).phase = .hooks todo

variable {i : ι} {a : Act ι N} {s s₁ : Shared ι N} {l l₁ : Local ι N}
  {c c' : Config ι (Shared ι N) (Local ι N)}

/-! ### The guard is at the top -/

/-- A thread with the guard is in the operation that has it. -/
structure AtTop (l : Local ι N) : Prop where
  user : l.user = true → l.guards = 0
  call : ∀ f rest, l.calls = f :: rest → f.guarded = false → l.guards = 0

omit [DecidableEq ι] [DecidableEq N] in
theorem AtTop.of_zero (h : l.guards = 0) : AtTop l := ⟨fun _ => h, fun _ _ _ _ => h⟩

omit [DecidableEq ι] [DecidableEq N] in
theorem AtTop.of_guarded (hu : l.user = false)
    (h : ∀ f rest, l.calls = f :: rest → f.guarded = true) : AtTop l := by
  refine ⟨fun hu' => ?_, fun f rest hl hf => ?_⟩
  · rw [hu] at hu'
    cases hu'
  · rw [h f rest hl] at hf
    cases hf

omit [DecidableEq ι] [DecidableEq N] in
theorem guards_cons {f : Frame ι N} {rest : List (Frame ι N)} (hl : l.calls = f :: rest)
    (hf : f.guarded = true) : 0 < l.guards := by
  rw [Local.guards, hl, List.countP_cons_of_pos hf]
  omega

omit [DecidableEq ι] [DecidableEq N] in
theorem guards_nil (hl : l.calls = []) (hp : l.phase.guarded = false) : l.guards = 0 := by
  rw [Local.guards, hl, hp]
  rfl

theorem AtTop.step (h : AtTop l) (hle : l.guards ≤ 1) (hm : Move i a s l s₁ l₁)
    (hs : a = .step → ∀ k ks r rest, l.calls = .drops (k :: ks) r :: rest → s.destroys k = false) :
    AtTop l₁ := by
  -- without a call, the thread has a guard only in its run
  have hnil : ∀ {l₂ : Local ι N}, l₂.calls = l.calls → l.calls = [] → l₂.phase.guarded = false →
      AtTop l₂ := fun heq hl hp => .of_zero (guards_nil (heq.trans hl) hp)
  cases hm with
  | start | spawned => exact .of_zero rfl
  | call hu hc | join hu =>
    refine .of_zero ?_
    rw [← h.user hu]
    simp [Local.guards, Local.call, Frame.guarded]
  | ret hu => exact .of_zero (h.user hu)
  | panicked hu hl =>
    have := h.user hu
    have := guards_cons hl rfl
    omega
  | panic hu hl hp => exact hnil rfl hl rfl
  | died hu hl hp => exact .of_zero (h.user hu)
  | lock hu hl hlock | body hu hl =>
    exact .of_guarded hu fun f rest hf => by cases hf; rfl
  | drop hu hl =>
    exact .of_guarded (hs rfl _ _ _ _ hl) fun f rest hf => by cases hf; rfl
  | @unlock _ _ r rest hu hl =>
    refine .of_zero ?_
    have hg : l.guards = Local.guards { l with calls := rest, user := true, result := r } + 1 := by
      simp only [Local.guards, hl, List.countP_cons, Frame.guarded, if_true]
      omega
    omega
  | joined hu hl hj =>
    refine .of_zero ?_
    rw [← h.call _ _ hl rfl]
    simp [Local.guards, hl, Frame.guarded]
  | run hu hl hp hlock | snapshot hu hl hp =>
    exact .of_guarded hu fun f rest hf => by rw [show l.calls = f :: rest from hf] at hl; cases hl
  | cloned hu hl hp | hook hu hl hp | called hu hl hp | main hu hl hp | unwind hu hl hp
  | finish hu hl hp => exact hnil rfl hl rfl

theorem at_top (hc : sys.Reach (fun c a => Spared c a = true) init c) (i : ι) : AtTop (c.loc i) := by
  revert i
  refine hc.invariant (I := fun c => ∀ i, AtTop (c.loc i)) (fun i => .of_zero rfl) ?_ fun _ e => nomatch e
  intro c i a s l hc ih hP hs j
  by_cases hj : j = i
  · subst hj
    rw [Config.set_loc_self]
    refine (ih j).step ((excl hc.reachable).le_one j) (step_move hs) fun ha k ks r rest hl => ?_
    subst ha
    simpa [Spared, hl] using hP
  · rw [Config.set_loc_of_ne hj]
    exact ih j

/-! ### The guard is given back -/

/-- Only thread `i` has moved. -/
def Only (i : ι) (c c' : Config ι (Shared ι N) (Local ι N)) : Prop :=
  ∀ j, j ≠ i → c'.loc j = c.loc j

omit [DecidableEq ι] [DecidableEq N] in
theorem Only.trans {c'' : Config ι (Shared ι N) (Local ι N)} (h : Only i c c') (h' : Only i c' c'') :
    Only i c c'' := fun j hj => (h' j hj).trans (h j hj)

theorem reach_step (hu : (c.loc i).user = false)
    (hs : advance i c.shared (c.loc i) = some (s, l)) :
    ∃ c', sys.Reach GoesOn c c' ∧ Only i c c' ∧ c'.shared = s ∧ c'.loc i = l := by
  refine ⟨c.set i s l, System.Reach.refl.agent (a := .step) (.inl rfl) ?_, ?_, rfl, ?_⟩
  · show step i .step c.shared (c.loc i) = some (s, l)
    simp [step, hu, hs]
  · exact fun j hj => Config.set_loc_of_ne hj
  · exact Config.set_loc_self

theorem reach_ret (hu : (c.loc i).user = true) :
    ∃ c', sys.Reach GoesOn c c' ∧ Only i c c' ∧ c'.shared = c.shared ∧
      c'.loc i = { c.loc i with user := false } := by
  refine ⟨c.set i c.shared { c.loc i with user := false },
    System.Reach.refl.agent (a := .ret) (.inr rfl) ?_, ?_, rfl, ?_⟩
  · show step i .ret c.shared (c.loc i) = _
    simp [step, hu, act]
  · exact fun j hj => Config.set_loc_of_ne hj
  · exact Config.set_loc_self

theorem reach_quiet : ∃ c', sys.Reach GoesOn c c' ∧ Only i c c' ∧ c'.shared = c.shared ∧
    c'.loc i = { c.loc i with user := false } := by
  cases hu : (c.loc i).user with
  | true => exact reach_ret hu
  | false => exact ⟨c, .refl, fun _ _ => rfl, rfl, by rw [← hu]⟩

theorem release_drops {ks : List ℕ} {r : Option Bool} {rest : List (Frame ι N)}
    (hu : (c.loc i).user = false) (hl : (c.loc i).calls = .drops ks r :: rest) :
    ∃ c', sys.Reach GoesOn c c' ∧ Only i c c' ∧ c'.shared.locked = false ∧
      (c'.loc i).calls = rest ∧ (c'.loc i).user = true := by
  induction ks generalizing c with
  | nil =>
    have hs : advance i c.shared (c.loc i) = some ({ c.shared with locked := false },
        { c.loc i with calls := rest, user := true, result := r }) := by simp [advance, hl]
    obtain ⟨c₁, hreach, honly, hshared, hloc⟩ := reach_step hu hs
    exact ⟨c₁, hreach, honly, by rw [hshared], by rw [hloc], by rw [hloc]⟩
  | cons k ks ih =>
    have hs : advance i c.shared (c.loc i) = some (c.shared.drop k,
        { c.loc i with calls := .drops ks r :: rest, user := c.shared.destroys k }) := by
      simp [advance, hl]
    obtain ⟨c₁, hreach₁, honly₁, -, hloc₁⟩ := reach_step hu hs
    -- the drop may have called a destructor
    obtain ⟨c₂, hreach₂, honly₂, -, hloc₂⟩ := reach_quiet (c := c₁) (i := i)
    obtain ⟨c', hreach, honly, hend⟩ := ih (c := c₂) (by rw [hloc₂]) (by rw [hloc₂, hloc₁])
    exact ⟨c', (hreach₁.trans hreach₂).trans hreach, (honly₁.trans honly₂).trans honly, hend⟩

theorem release_body {op : Op N} {rest : List (Frame ι N)} (hu : (c.loc i).user = false)
    (hl : (c.loc i).calls = .body op :: rest) :
    ∃ c', sys.Reach GoesOn c c' ∧ Only i c c' ∧ c'.shared.locked = false ∧
      (c'.loc i).calls = rest ∧ (c'.loc i).user = true := by
  have hs : advance i c.shared (c.loc i) = some ({ c.shared with hooks := op.hooks c.shared.hooks },
      { c.loc i with
        calls := .drops (op.dropped c.shared.hooks) (op.result c.shared.hooks) :: rest }) := by
    simp [advance, hl]
  obtain ⟨c₁, hreach₁, honly₁, -, hloc₁⟩ := reach_step hu hs
  obtain ⟨c', hreach, honly, hend⟩ := release_drops (c := c₁) (i := i) (by rw [hloc₁]; exact hu)
    (by rw [hloc₁])
  exact ⟨c', hreach₁.trans hreach, honly₁.trans honly, hend⟩

theorem release_lock {op : Op N} {rest : List (Frame ι N)} (hlock : c.shared.locked = false)
    (hu : (c.loc i).user = false) (hl : (c.loc i).calls = .lock op :: rest) :
    ∃ c', sys.Reach GoesOn c c' ∧ (c'.loc i).calls = rest ∧ (c'.loc i).user = true := by
  have hs : advance i c.shared (c.loc i) = some ({ c.shared with locked := true },
      { c.loc i with calls := .body op :: rest }) := by
    simp [advance, hl, hlock]
  obtain ⟨c₁, hreach₁, -, -, hloc₁⟩ := reach_step hu hs
  obtain ⟨c', hreach, -, -, hend⟩ := release_body (c := c₁) (i := i) (by rw [hloc₁]; exact hu)
    (by rw [hloc₁])
  exact ⟨c', hreach₁.trans hreach, hend⟩

theorem release_cloned {todo : List ℕ} (hu : (c.loc i).user = false) (hl : (c.loc i).calls = [])
    (hp : (c.loc i).phase = .cloned todo) :
    ∃ c', sys.Reach GoesOn c c' ∧ Only i c c' ∧ c'.shared.locked = false ∧
      (c'.loc i).calls = [] ∧ (c'.loc i).phase = .hooks todo := by
  have hs : advance i c.shared (c.loc i) = some ({ c.shared with locked := false },
      { c.loc i with phase := .hooks todo }) := by
    simp [advance, hl, hp]
  obtain ⟨c₁, hreach, honly, hshared, hloc⟩ := reach_step hu hs
  exact ⟨c₁, hreach, honly, by rw [hshared], by rw [hloc]; exact hl, by rw [hloc]⟩

theorem release_snapshot (hu : (c.loc i).user = false) (hl : (c.loc i).calls = [])
    (hp : (c.loc i).phase = .snapshot) :
    ∃ c', sys.Reach GoesOn c c' ∧ Only i c c' ∧ c'.shared.locked = false ∧
      (c'.loc i).calls = [] ∧ ∃ todo, (c'.loc i).phase = .hooks todo := by
  have hs : advance i c.shared (c.loc i) = some (c.shared.clone (c.shared.hooks.map Prod.snd),
      { c.loc i with phase := .cloned (c.shared.hooks.map Prod.snd) }) := by
    simp [advance, hl, hp]
  obtain ⟨c₁, hreach₁, honly₁, -, hloc₁⟩ := reach_step hu hs
  obtain ⟨c', hreach, honly, hlock, hcalls, hphase⟩ := release_cloned (c := c₁) (i := i)
    (by rw [hloc₁]; exact hu) (by rw [hloc₁]; exact hl) (by rw [hloc₁])
  exact ⟨c', hreach₁.trans hreach, honly₁.trans honly, hlock, hcalls, _, hphase⟩

theorem release_run (hlock : c.shared.locked = false) (hu : (c.loc i).user = false)
    (hl : (c.loc i).calls = []) (hp : (c.loc i).phase = .run) :
    ∃ c', sys.Reach GoesOn c c' ∧ (c'.loc i).calls = [] ∧
      ∃ todo, (c'.loc i).phase = .hooks todo := by
  have hs : advance i c.shared (c.loc i) = some ({ c.shared with locked := true },
      { c.loc i with phase := .snapshot }) := by
    simp [advance, hl, hp, hlock]
  obtain ⟨c₁, hreach₁, -, -, hloc₁⟩ := reach_step hu hs
  obtain ⟨c', hreach, -, -, hend⟩ := release_snapshot (c := c₁) (i := i) (by rw [hloc₁]; exact hu)
    (by rw [hloc₁]; exact hl) (by rw [hloc₁])
  exact ⟨c', hreach₁.trans hreach, hend⟩

/-- The thread that has the guard gives it back, and the threads that do not have it stay. -/
theorem release (he : Excl c) (ht : ∀ i, AtTop (c.loc i)) :
    ∃ c', sys.Reach GoesOn c c' ∧ c'.shared.locked = false ∧
      ∀ j, (c.loc j).guards = 0 → c'.loc j = c.loc j := by
  cases hlock : c.shared.locked with
  | false => exact ⟨c, .refl, hlock, fun _ _ => rfl⟩
  | true =>
    obtain ⟨i, hi, -⟩ := he.taken hlock
    have hu : (c.loc i).user = false := by
      by_contra hu
      have := (ht i).user (Bool.eq_true_of_not_eq_false hu)
      omega
    have hstay : ∀ {c'}, Only i c c' → ∀ j, (c.loc j).guards = 0 → c'.loc j = c.loc j :=
      fun honly j hj => honly j fun hji => by rw [hji] at hj; omega
    cases hl : (c.loc i).calls with
    | nil =>
      cases hp : (c.loc i).phase with
      | snapshot =>
        obtain ⟨c', hc', honly, hfree, -⟩ := release_snapshot hu hl hp
        exact ⟨c', hc', hfree, hstay honly⟩
      | cloned todo =>
        obtain ⟨c', hc', honly, hfree, -⟩ := release_cloned hu hl hp
        exact ⟨c', hc', hfree, hstay honly⟩
      | unborn | run | hooks | called | unwind | main | ended =>
        have := guards_nil hl (by rw [hp]; rfl)
        omega
    | cons f rest =>
      cases f with
      | body op =>
        obtain ⟨c', hc', honly, hfree, -⟩ := release_body hu hl
        exact ⟨c', hc', hfree, hstay honly⟩
      | drops ks r =>
        obtain ⟨c', hc', honly, hfree, -⟩ := release_drops hu hl
        exact ⟨c', hc', hfree, hstay honly⟩
      | lock | join =>
        have := (ht i).call _ _ hl rfl
        omega

/-! ### When the guard is at the top -/

omit [DecidableEq ι] [DecidableEq N] in
theorem AtTop.waits (h : AtTop l) (hw : l.waits = true) : l.guards = 0 := by
  cases hl : l.calls with
  | nil =>
    cases hp : l.phase with
    | run => exact guards_nil hl (by rw [hp]; rfl)
    | unborn | snapshot | cloned | hooks | called | unwind | main | ended =>
      simp [Local.waits, hl, hp] at hw
  | cons f rest =>
    cases f with
    | lock | join => exact h.call _ _ hl rfl
    | body | drops => simp [Local.waits, hl] at hw

theorem unentangled_of_at_top (he : Excl c) (ht : ∀ i, AtTop (c.loc i)) : Unentangled c := by
  obtain ⟨c₁, hreach₁, hfree, hstay⟩ := release he ht
  refine ⟨fun i => (ht i).user, fun i => (ht i).waits, fun i op rest hu hl => ?_,
    fun i hu hl hp => ?_⟩
  · -- the mutex is given back, and then the operation can have it
    have hloc := hstay i ((ht i).call _ _ hl rfl)
    obtain ⟨c', hreach, hend⟩ := release_lock hfree (by rw [hloc]; exact hu) (by rw [hloc]; exact hl)
    exact ⟨c', hreach₁.trans hreach, hend⟩
  · have hloc := hstay i (guards_nil hl (by rw [hp]; rfl))
    obtain ⟨c', hreach, hend⟩ := release_run hfree (by rw [hloc]; exact hu) (by rw [hloc]; exact hl)
      (by rw [hloc]; exact hp)
    exact ⟨c', hreach₁.trans hreach, hend⟩

omit [DecidableEq ι] [DecidableEq N] in
theorem of_not_spared (h : Spared c (.agent i .step) = false) : ∃ k ks r rest,
    (c.loc i).calls = .drops (k :: ks) r :: rest ∧ c.shared.destroys k = true := by
  simp only [Spared] at h
  split at h
  · rename_i k ks r rest hl
    exact ⟨k, ks, r, rest, hl, by simpa using h⟩
  · cases h

/-- A drop that is not spared runs user code under the guard. -/
theorem not_unentangled {b : Label ι (Act ι N) Empty} (hn : sys.next c b = some c')
    (hb : Spared c b = false) : ¬ Unentangled c' := by
  intro H
  match b, hb with
  | .agent i a, hb =>
    obtain ⟨s, l, hs, rfl⟩ := System.next_agent hn
    have huser := H.user i
    rw [Config.set_loc_self] at huser
    cases a with
    | step =>
      obtain ⟨k, ks, r, rest, hl, hd⟩ := of_not_spared hb
      cases hu : (c.loc i).user with
      | true =>
        simp [sys, step, hu, act] at hs
      | false =>
        -- the destructor is on top of the operation, which has the guard
        simp only [sys, step, hu, Bool.false_eq_true, if_false, advance, hl, hd] at hs
        cases hs
        have hzero : Local.guards { c.loc i with calls := .drops ks r :: rest, user := true } = 0 :=
          huser rfl
        have := guards_cons (l := { c.loc i with calls := .drops ks r :: rest, user := true }) rfl rfl
        omega
    | start | spawned | register | remove | clear | join | ret | panic => cases hb

/-- **No user code under the guard, as long as no step drops there the last `Arc` of a hook with a
destructor**; and the first such step ends it. -/
theorem unentangled_iff (hc : sys.Reach (fun c a => Spared c a = true) init c) :
    Unentangled c ∧ ∀ b c', sys.next c b = some c' → (Unentangled c' ↔ Spared c b = true) := by
  refine ⟨unentangled_of_at_top (excl hc.reachable) (at_top hc), fun b c' hn => ⟨fun H => ?_, fun hb => ?_⟩⟩
  · by_contra hb
    exact not_unentangled hn (Bool.eq_false_of_not_eq_true hb) H
  · have hc' : sys.Reach (fun c a => Spared c a = true) init c' := hc.tail hb hn
    exact unentangled_of_at_top (excl hc'.reachable) (at_top hc')

/-- Thread `true` registers a hook with a destructor; thread `false` clones it; thread `true` removes it,
which does not drop the last `Arc`; thread `false` calls the hook and drops it. -/
def removeWhileRunning : List (Label Bool (Act Bool Bool) Empty) :=
  .agent true .start :: .agent true (.register false true) :: List.replicate 3 (.agent true .step) ++
    .agent false .spawned :: List.replicate 3 (.agent false .step) ++
    .agent true (.remove false) :: List.replicate 4 (.agent true .step) ++
    [.agent false .step, .agent false .ret, .agent false .step]

/-- In this run the destructor runs after the call of the hook, in a thread without the guard. -/
theorem unentangled_removeWhileRunning :
    ∃ c : Config Bool (Shared Bool Bool) (Local Bool Bool),
      sys.Reach (fun c a => Spared c a = true) init c ∧ c.shared.hooks = [] ∧
      (c.loc false).phase = .hooks [] ∧ (c.loc false).user = true ∧ (c.loc false).guards = 0 := by
  obtain ⟨c, hc, hend⟩ := System.exists_of_along (M := sys) (P := fun c a => Spared c a = true)
    (c := init (ι := Bool) (N := Bool))
    (p := fun c => decide (c.shared.hooks = [] ∧ (c.loc false).phase = .hooks [] ∧
      (c.loc false).user = true))
    removeWhileRunning (by decide) (by decide)
  rw [decide_eq_true_eq] at hend
  obtain ⟨hhooks, hphase, huser⟩ := hend
  exact ⟨c, hc, hhooks, hphase, huser, (unentangled_iff hc).1.user false huser⟩

/-! ### When it is not -/

/-- The thread waits for the mutex, and has it itself. -/
structure Stuck (i : ι) (op : Op N) (rest : List (Frame ι N))
    (c : Config ι (Shared ι N) (Local ι N)) : Prop where
  locked : c.shared.locked = true
  guards : 0 < (c.loc i).guards
  user : (c.loc i).user = false
  calls : (c.loc i).calls = .lock op :: rest

theorem Move.locked_free {op : Op N} {rest : List (Frame ι N)} (hm : Move i a s l s₁ l₁)
    (hu : l.user = false) (hl : l.calls = .lock op :: rest) : s.locked = false := by
  cases hm with
  | lock hu' hl' hlock => exact hlock
  | start | spawned => cases hl
  | call hu' _ | join hu' | ret hu' | panicked hu' _ | panic hu' _ _ | died hu' _ _ =>
    rw [hu] at hu'
    cases hu'
  | body _ hl' | drop _ hl' | unlock _ hl' | joined _ hl' _ | run _ hl' _ _ | snapshot _ hl' _
  | cloned _ hl' _ | hook _ hl' _ | called _ hl' _ | main _ hl' _ | unwind _ hl' _
  | finish _ hl' _ =>
    rw [hl] at hl'
    cases hl'

theorem Stuck.step {op : Op N} {rest : List (Frame ι N)} {j : ι} (h : Stuck i op rest c)
    (he : Excl c) (hs : Move j a c.shared (c.loc j) s l) : Stuck i op rest (c.set j s l) := by
  have hji : i ≠ j := by
    rintro rfl
    have hfree := hs.locked_free h.user h.calls
    rw [h.locked] at hfree
    cases hfree
  have hloc : (c.set j s l).loc i = c.loc i := Config.set_loc_of_ne hji
  refine ⟨?_, by rw [hloc]; exact h.guards, by rw [hloc]; exact h.user, by rw [hloc]; exact h.calls⟩
  rcases hs.guards with ⟨hlock, -⟩ | ⟨-, hlock, -⟩ | ⟨-, hg⟩
  · exact hlock.trans h.locked
  · exact hlock
  · -- another thread has no guard to give back
    have := he.other h.guards (Ne.symm hji)
    omega

/-- **A thread that waits for its own guard waits for ever.** -/
theorem stuck {op : Op N} {rest : List (Frame ι N)} (hc : sys.Reachable init c)
    (h : Stuck i op rest c) (hc' : sys.Reachable c c') : Stuck i op rest c' := by
  refine hc'.invariant (I := Stuck i op rest) h ?_ fun _ e => nomatch e
  intro c₁ j a s l hc₁ ih _ hs
  exact ih.step (excl (hc.trans hc₁)) (step_move hs)

instance (i : ι) (op : Op N) (rest : List (Frame ι N)) (c : Config ι (Shared ι N) (Local ι N)) :
    Decidable (Stuck i op rest c) :=
  decidable_of_iff (c.shared.locked = true ∧ 0 < (c.loc i).guards ∧ (c.loc i).user = false ∧
      (c.loc i).calls = .lock op :: rest)
    ⟨fun ⟨hlock, hg, hu, hl⟩ => ⟨hlock, hg, hu, hl⟩, fun h => ⟨h.locked, h.guards, h.user, h.calls⟩⟩

/-- Thread `true` registers a hook with a destructor and removes it, up to the drop of its `Arc`. -/
def removeLast : List (Label Bool (Act Bool Bool) Empty) :=
  .agent true .start :: .agent true (.register false true) :: List.replicate 3 (.agent true .step) ++
    .agent true (.remove false) :: List.replicate 3 (.agent true .step)

/-- **`remove_spawn_hook` runs a destructor under the guard**, and when the destructor calls
`clear_spawn_hooks` the thread is stuck. -/
theorem destructor_under_guard :
    (∃ c : Config Bool (Shared Bool Bool) (Local Bool Bool),
      sys.Reachable init c ∧ (c.loc true).user = true ∧ 0 < (c.loc true).guards) ∧
    ∃ c : Config Bool (Shared Bool Bool) (Local Bool Bool), sys.Reachable init c ∧
      ∀ c', sys.Reachable c c' → (c'.loc true).calls = [.lock .clear, .drops [] (some true)] ∧
        (c'.loc true).user = false ∧ 0 < (c'.loc true).guards := by
  constructor
  · obtain ⟨c, hc, hend⟩ := System.exists_of_run (M := sys) (c := init (ι := Bool) (N := Bool))
      (p := fun c => decide ((c.loc true).user = true ∧ 0 < (c.loc true).guards))
      removeLast (by decide)
    exact ⟨c, hc, of_decide_eq_true hend⟩
  · obtain ⟨c, hc, hend⟩ := System.exists_of_run (M := sys) (c := init (ι := Bool) (N := Bool))
      (p := fun c => decide (Stuck true .clear [.drops [] (some true)] c))
      (removeLast ++ [.agent true .clear]) (by decide)
    refine ⟨c, hc, fun c' hc' => ?_⟩
    have h := stuck hc (of_decide_eq_true hend) hc'
    exact ⟨h.calls, h.user, h.guards⟩

end Hooks

end WasmSafeThread
