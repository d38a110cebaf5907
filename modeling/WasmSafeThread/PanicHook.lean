import WasmSafeThread.Agents.History
import Mathlib.Data.Bool.Basic

/-!
# The panic hook of the workers

The closure that `Builder::spawn` runs on a worker (`wasm/thread_api.rs`) stores a `PANIC_SENDER`,
takes the process-wide panic hook, and installs one that calls the `PANIC_SENDER` of the panicking
thread, or, when there is none, the hook that it has taken: "we chain with the previous hook so that
panics on other threads (like the main thread) still work correctly".

`take_hook` and `set_hook` are atomic, but they are two operations, and between them the slot contains
the default hook.  So a panic of the main thread in this window misses the hook that the application
has installed; and a second worker that takes the hook in this window links to the default hook, and
drops the chain with the application's hook if it is the last one to install its own.

* `chained_iff` : in every run, a panic of a thread without a `PANIC_SENDER` calls the application's
  hook exactly once as long as no worker has dropped the chain, except while a worker has it in its
  hands.
* `not_chained` : one worker in its window, and two workers after theirs.
-/

namespace WasmSafeThread

namespace PanicHook

/-- A panic hook. -/
inductive Hook where
  /-- The hook of the standard library, which `take_hook` leaves behind. -/
  | default
  /-- The hook of the application. -/
  | app
  /-- The hook of a worker, with its `prev_hook`. -/
  | worker (prev : Hook)
  deriving DecidableEq

/-- The call of a hook on a thread, whose `PANIC_SENDER` is set or not: how often it calls the hook of
the application, and whether the `PANIC_SENDER` is still set. -/
def Hook.call : Hook → Bool → ℕ × Bool
  | .default, sender => (0, sender)
  | .app, sender => (1, sender)
  | .worker _, true => (0, false)
  | .worker prev, false => prev.call false

/-- The hook is the application's, or leads to it. -/
def Hook.reachesApp : Hook → Bool
  | .default => false
  | .app => true
  | .worker prev => prev.reachesApp

/-- The control points of a thread. -/
inductive Pc where
  /-- Not in the closure of a worker; the main thread is always here. -/
  | plain
  /-- Before `take_hook`. -/
  | takeHook
  /-- Before `set_hook`, with the local variable `prev_hook`. -/
  | setHook (prev : Hook)
  /-- In the closure of the user. -/
  | running
  /-- After it. -/
  | finished
  deriving DecidableEq

/-- The local state of a thread. -/
structure Local where
  pc : Pc
  /-- `PANIC_SENDER` is set. -/
  sender : Bool
  /-- History: how often its panics have called the hook of the application. -/
  appCalls : ℕ
  deriving DecidableEq

/-- The operations of a thread. -/
inductive Act where
  /-- The closure begins: it sets `PANIC_SENDER`. -/
  | start
  /-- `take_hook`, or `set_hook`. -/
  | step
  /-- The closure of the user returns, and `PANIC_SENDER` is cleared. -/
  | finish
  /-- A panic. -/
  | panic

/-- A panic on a thread calls the hook in the slot. -/
def panic (hook : Hook) (l : Local) : Local :=
  let r := hook.call l.sender
  { l with sender := r.2, appCalls := l.appCalls + r.1 }

/-- One operation of a thread on the slot of the hook. -/
def step (a : Act) (hook : Hook) (l : Local) : Option (Hook × Local) :=
  match l.pc, a with
  | .plain, .start => some (hook, { l with pc := .takeHook, sender := true })
  | .takeHook, .step => some (.default, { l with pc := .setHook hook })
  | .setHook prev, .step => some (.worker prev, { l with pc := .running })
  | .running, .finish => some (hook, { l with pc := .finished, sender := false })
  | .plain, .panic | .running, .panic | .finished, .panic => some (hook, panic hook l)
  | _, _ => none

variable {ι : Type*} [DecidableEq ι]

/-- The threads around the slot. -/
def sys : System ι Hook Local Act Empty where
  step _ := step
  env e _ := nomatch e

/-- The application has installed its hook, and no worker has been spawned. -/
def init : Config ι Hook Local := ⟨.app, fun _ => ⟨.plain, false, 0⟩⟩

/-- The thread has taken the chain with the application's hook, and has not put it back. -/
def Pc.holds : Pc → Bool
  | .setHook prev => prev.reachesApp
  | _ => false

/-- The step is a `set_hook` that drops the chain with the application's hook: this chain is in the
slot, and the worker took its own `prev_hook` while another worker had the chain. -/
def drops (c : Config ι Hook Local) : Label ι Act Empty → Bool
  | .agent i .step => match (c.loc i).pc with
    | .setHook prev => c.shared.reachesApp && !prev.reachesApp
    | _ => false
  | _ => false

/-- The history of a run: whether the chain has been dropped. -/
def note (c : Config ι Hook Local) (a : Label ι Act Empty) (dropped : Bool) : Bool :=
  dropped || drops c a

/-- A panic on a thread without a `PANIC_SENDER` calls the application's hook exactly once. -/
def Chained (c : Config ι Hook Local) : Prop :=
  ∀ l : Local, l.sender = false → (panic c.shared l).appCalls = l.appCalls + 1

variable {i : ι} {a : Act} {hook hook₁ : Hook} {l l₁ : Local} {c : Config ι Hook Local}
  {dropped : Bool}

/-- The chain ends in the application's hook or in the default one, and it contains each at most
once. -/
theorem Hook.call_eq (hook : Hook) : (hook.call false).1 = hook.reachesApp.toNat := by
  induction hook with
  | default => rfl
  | app => rfl
  | worker prev ih => exact ih

omit [DecidableEq ι] in
theorem chained_iff_reachesApp : Chained c ↔ c.shared.reachesApp = true := by
  have hcalls : ∀ l : Local, l.sender = false →
      (panic c.shared l).appCalls = l.appCalls + c.shared.reachesApp.toNat := by
    intro l hl
    rw [panic, hl, Hook.call_eq]
  constructor
  · intro h
    have hone := (hcalls ⟨.plain, false, 0⟩ rfl).symm.trans (h ⟨.plain, false, 0⟩ rfl)
    cases hslot : c.shared.reachesApp with
    | true => rfl
    | false => simp [hslot] at hone
  · intro hslot l hl
    rw [hcalls l hl, hslot]
    rfl

/-! ### Where the chain is -/

/-- What an operation does to the slot. -/
inductive Move (a : Act) (hook : Hook) (l : Local) (hook₁ : Hook) (l₁ : Local) : Prop where
  /-- Nothing. -/
  | quiet (hl : l.pc.holds = false) (hhook : hook₁ = hook) (hl₁ : l₁.pc.holds = false)
      (ha : a = .step → ∀ prev, l.pc ≠ .setHook prev)
  /-- `take_hook`. -/
  | take (hl : l.pc = .takeHook) (hhook : hook₁ = .default) (hl₁ : l₁.pc = .setHook hook)
  /-- `set_hook`. -/
  | set (prev : Hook) (ha : a = .step) (hl : l.pc = .setHook prev) (hhook : hook₁ = .worker prev)
      (hl₁ : l₁.pc = .running)

theorem step_move (h : step a hook l = some (hook₁, l₁)) : Move a hook l hook₁ l₁ := by
  unfold step at h
  split at h
  · rename_i hpc
    cases h
    exact .quiet (by rw [hpc]; rfl) rfl rfl nofun
  · rename_i hpc
    cases h
    exact .take hpc rfl rfl
  · rename_i prev hpc
    cases h
    exact .set prev rfl hpc rfl rfl
  · rename_i hpc
    cases h
    exact .quiet (by rw [hpc]; rfl) rfl rfl nofun
  · rename_i hpc
    cases h
    exact .quiet (by rw [hpc]; rfl) rfl (by rw [panic, hpc]; rfl) nofun
  · rename_i hpc
    cases h
    exact .quiet (by rw [hpc]; rfl) rfl (by rw [panic, hpc]; rfl) nofun
  · rename_i hpc
    cases h
    exact .quiet (by rw [hpc]; rfl) rfl (by rw [panic, hpc]; rfl) nofun
  · cases h

/-- The chain with the application's hook is in the slot, in the hands of one worker, or dropped. -/
structure Placed (dropped : Bool) (c : Config ι Hook Local) : Prop where
  slot : c.shared.reachesApp = true → dropped = false ∧ ∀ i, (c.loc i).pc.holds = false
  held : ∀ i, (c.loc i).pc.holds = true → dropped = false
  unique : ∀ i j, (c.loc i).pc.holds = true → (c.loc j).pc.holds = true → i = j
  somewhere : dropped = false → c.shared.reachesApp = true ∨ ∃ i, (c.loc i).pc.holds = true

omit [DecidableEq ι] in
theorem drops_of_ne (h : a = .step → ∀ prev, (c.loc i).pc ≠ .setHook prev) :
    drops c (.agent i a) = false := by
  cases a with
  | step =>
    simp only [drops]
    split
    · rename_i prev hpc
      exact absurd hpc (h rfl prev)
    · rfl
  | _ => rfl

omit [DecidableEq ι] in
theorem drops_set {prev : Hook} (h : (c.loc i).pc = .setHook prev) :
    drops c (.agent i .step) = (c.shared.reachesApp && !prev.reachesApp) := by
  simp only [drops, h]

theorem Placed.set_of_eq (h : Placed dropped c) (hhook : hook₁.reachesApp = c.shared.reachesApp)
    (hl : l₁.pc.holds = (c.loc i).pc.holds) : Placed dropped (c.set i hook₁ l₁) := by
  have hloc : ∀ j, ((c.set i hook₁ l₁).loc j).pc.holds = (c.loc j).pc.holds :=
    Config.set_loc_congr (f := fun l : Local => l.pc.holds) hl
  refine ⟨fun hs => ?_, fun j hj => ?_, fun j k hj hk => ?_, fun hd => ?_⟩
  · rw [Config.set_shared, hhook] at hs
    exact ⟨(h.slot hs).1, fun j => by rw [hloc, (h.slot hs).2 j]⟩
  · rw [hloc] at hj
    exact h.held j hj
  · rw [hloc] at hj hk
    exact h.unique j k hj hk
  · rw [Config.set_shared, hhook]
    exact (h.somewhere hd).imp_right fun ⟨j, hj⟩ => ⟨j, by rw [hloc, hj]⟩

theorem Placed.none_holds (h : Placed dropped c) (hi : (c.loc i).pc.holds = true)
    (hl₁ : l₁.pc.holds = false) (j : ι) : ((c.set i hook₁ l₁).loc j).pc.holds = false := by
  by_cases hj : j = i
  · subst hj; rw [Config.set_loc_self, hl₁]
  · rw [Config.set_loc_of_ne hj]
    by_contra hne
    exact hj (h.unique j i (Bool.eq_true_of_not_eq_false hne) hi)

theorem Placed.step (h : Placed dropped c) (hs : step a c.shared (c.loc i) = some (hook₁, l₁)) :
    Placed (note c (.agent i a) dropped) (c.set i hook₁ l₁) := by
  cases step_move hs with
  | quiet hl hhook hl₁ ha =>
    rw [note, drops_of_ne ha, Bool.or_false]
    exact h.set_of_eq (by rw [hhook]) (by rw [hl, hl₁])
  | take hl hhook hl₁ =>
    rw [note, drops_of_ne (by rw [hl]; nofun), Bool.or_false]
    have hholds : l₁.pc.holds = c.shared.reachesApp := by rw [hl₁]; rfl
    cases hslot : c.shared.reachesApp with
    | false =>
      exact h.set_of_eq (by rw [hhook, hslot]; rfl) (by rw [hholds, hslot, hl]; rfl)
    | true =>
      obtain ⟨hd, hnone⟩ := h.slot hslot
      have honly : ∀ j, ((c.set i hook₁ l₁).loc j).pc.holds = true → j = i := by
        intro j hj
        by_contra hji
        rw [Config.set_loc_of_ne hji, hnone j] at hj
        cases hj
      refine ⟨fun hs => ?_, fun _ _ => hd, fun j k hj hk => ?_, fun _ => .inr ⟨i, ?_⟩⟩
      · rw [Config.set_shared, hhook] at hs
        cases hs
      · rw [honly j hj, honly k hk]
      · rw [Config.set_loc_self, hholds, hslot]
  | set prev ha hl hhook hl₁ =>
    subst ha
    rw [note, drops_set hl]
    have hreaches : hook₁.reachesApp = prev.reachesApp := by rw [hhook]; rfl
    have hout : l₁.pc.holds = false := by rw [hl₁]; rfl
    cases hprev : prev.reachesApp with
    | true =>
      have hi : (c.loc i).pc.holds = true := by rw [hl]; exact hprev
      have hnone : ∀ j, ((c.set i hook₁ l₁).loc j).pc.holds = false := h.none_holds hi hout
      have hd : (dropped || c.shared.reachesApp && !true) = false := by simp [h.held i hi]
      refine ⟨fun _ => ⟨hd, hnone⟩, fun _ _ => hd, fun j k hj => ?_, fun _ => .inl ?_⟩
      · rw [hnone j] at hj
        cases hj
      · rw [Config.set_shared, hreaches, hprev]
    | false =>
      have hi : (c.loc i).pc.holds = false := by rw [hl]; exact hprev
      cases hslot : c.shared.reachesApp with
      | false =>
        have hd : (dropped || false && !false) = dropped := Bool.or_false _
        rw [hd]
        exact h.set_of_eq (by rw [hreaches, hprev, hslot]) (by rw [hi, hout])
      | true =>
        -- the chain is dropped from the slot, and nobody has it
        have hnone : ∀ j, ((c.set i hook₁ l₁).loc j).pc.holds = false := by
          intro j
          exact (Config.set_loc_congr (f := fun l : Local => l.pc.holds) (hout.trans hi.symm) j).trans
            ((h.slot hslot).2 j)
        refine ⟨fun hs => ?_, fun j hj => ?_, fun j k hj => ?_, fun hd => ?_⟩
        · rw [Config.set_shared, hreaches, hprev] at hs
          cases hs
        · rw [hnone j] at hj
          cases hj
        · rw [hnone j] at hj
          cases hj
        · simp at hd

theorem placed (h : sys.History note false init dropped c) : Placed dropped c := by
  refine h.invariant (I := Placed) ?_ (fun d c i a s l _ ih _ hs => ih.step hs) fun d c e => nomatch e
  exact ⟨fun _ => ⟨rfl, fun _ => rfl⟩, nofun, nofun, fun _ => .inl rfl⟩

/-! ### When the application's hook is called -/

/-- **The application's hook is called exactly once**, in every run, exactly when no `set_hook` has
dropped the chain and no worker has it between its `take_hook` and its `set_hook`. -/
theorem chained_iff (h : sys.History note false init dropped c) :
    Chained c ↔ dropped = false ∧ ∀ i, (c.loc i).pc.holds = false := by
  have hp := placed h
  rw [chained_iff_reachesApp]
  constructor
  · exact hp.slot
  · rintro ⟨hd, hnone⟩
    rcases hp.somewhere hd with hslot | ⟨i, hi⟩
    · exact hslot
    · rw [hnone i] at hi
      cases hi

/-- A run in which the windows of two workers overlap and the chain survives: the worker that took it
is the last to put its hook in the slot.  Then the main thread panics. -/
theorem chained_iff_overlap :
    ∃ (dropped : Bool) (c : Config (Fin 3) Hook Local), sys.History note false init dropped c ∧
      (c.loc 0).appCalls = 1 ∧ Chained c := by
  obtain ⟨dropped, c, h, hend⟩ := System.exists_note_of_along (M := sys) note (h := false)
    (c := init (ι := Fin 3)) (P := fun _ _ _ => True)
    (p := fun d c => decide (d = false ∧ (∀ i, (c.loc i).pc.holds = false) ∧ (c.loc 0).appCalls = 1))
    [.agent 1 .start, .agent 2 .start, .agent 1 .step, .agent 2 .step, .agent 2 .step,
      .agent 1 .step, .agent 0 .panic] (by decide) (by decide)
  rw [decide_eq_true_eq] at hend
  exact ⟨dropped, c, h, hend.2.2, (chained_iff h).2 ⟨hend.1, hend.2.1⟩⟩

/-- **The application's hook is missed.**  While one worker is between its `take_hook` and its
`set_hook`; and for ever after two workers have both taken the hook before they installed theirs. -/
theorem not_chained :
    (∃ c : Config (Fin 2) Hook Local, sys.Reachable init c ∧ (c.loc 0).pc = .plain ∧
      (c.loc 1).pc = .setHook .app ∧ ¬ Chained c) ∧
    ∃ c : Config (Fin 3) Hook Local, sys.Reachable init c ∧ (c.loc 0).pc = .plain ∧
      (c.loc 1).pc = .running ∧ (c.loc 2).pc = .running ∧ ¬ Chained c := by
  constructor
  · obtain ⟨c, hc, hend⟩ := System.exists_of_run (M := sys) (c := init (ι := Fin 2))
      (p := fun c => decide (((c.loc 0).pc = .plain ∧ (c.loc 1).pc = .setHook .app) ∧
        c.shared = .default))
      [.agent 1 .start, .agent 1 .step] (by decide)
    rw [decide_eq_true_eq] at hend
    obtain ⟨⟨h₀, h₁⟩, hslot⟩ := hend
    refine ⟨c, hc, h₀, h₁, ?_⟩
    rw [chained_iff_reachesApp, hslot]
    decide
  · obtain ⟨c, hc, hend⟩ := System.exists_of_run (M := sys) (c := init (ι := Fin 3))
      (p := fun c => decide (((c.loc 0).pc = .plain ∧ (c.loc 1).pc = .running ∧
        (c.loc 2).pc = .running) ∧ c.shared = .worker .default))
      [.agent 1 .start, .agent 2 .start, .agent 1 .step, .agent 2 .step, .agent 1 .step,
        .agent 2 .step] (by decide)
    rw [decide_eq_true_eq] at hend
    obtain ⟨⟨h₀, h₁, h₂⟩, hslot⟩ := hend
    refine ⟨c, hc, h₀, h₁, h₂, ?_⟩
    rw [chained_iff_reachesApp, hslot]
    decide

end PanicHook

end WasmSafeThread
