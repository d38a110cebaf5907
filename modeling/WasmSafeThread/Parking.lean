import WasmSafeThread.Agents.Basic
import Mathlib.Data.Bool.Basic

/-!
# The parking word

`park`, `park_timeout` and `Thread::unpark` on wasm (`wasm/wasm_utils.rs`, `wasm/thread_api.rs`).
A `Thread` has a word in linear memory, 1 when an unpark token is present.  The thread it belongs to
(the *owner*) parks on it, every thread that has a handle unparks it, and each call into `Atomics` is a
step of its own:

* `park_wait_at_addr` takes a token with `compareExchange(1, 0)`, or else sleeps in `Atomics.wait` as
  long as the word is 0, and stores 0 afterwards, whatever the outcome of the sleep was;
* `park_wait_timeout_at_addr` is the same with a timeout, and stores 0 only after `"ok"`;
* `park_notify_at_addr` stores 1 and notifies.

Both stores are plain ones, so a `store 0` can wipe out the token of an unpark that came after the
wake-up, and a notification can arrive in a later sleep than the one it was meant for.

* `awake_of_token` : the owner is asleep while the word is 1 only as long as an unpark is between its
  store and its notification.
* `unpark_honoured` : from the store of an unpark on, the token is there, or the owner is on its way
  out of a call, or it has returned from one since.
-/

namespace WasmSafeThread

namespace Parking

/-- What `Atomics.wait` returns. -/
inductive WaitResult where
  /-- `"ok"` : woken by a notification. -/
  | ok
  /-- `"not-equal"` : the word was not 0. -/
  | notEqual
  /-- `"timed-out"`. -/
  | timedOut
  deriving DecidableEq

/-- The parking word and its list of waiters. -/
structure Shared where
  /-- `parking_state`. -/
  word : ℕ
  /-- The owner is in the list of waiters of the word.  No other thread waits on it. -/
  asleep : Bool
  /-- History: the number of calls of `park` and `park_timeout` that have returned. -/
  returns : ℕ

/-- The control points of a thread.  `timed` tells `park_timeout` from `park`. -/
inductive Pc where
  /-- No call. -/
  | ready
  /-- Before `compareExchange(word, 1, 0)`. -/
  | exchange (timed : Bool)
  /-- Before `Atomics.wait(word, 0)`. -/
  | wait (timed : Bool)
  /-- In `Atomics.wait`, after the check of the word. -/
  | sleep (timed : Bool)
  /-- `Atomics.wait` has returned. -/
  | woken (timed : Bool) (result : WaitResult)
  /-- `park_wait_at_addr` has returned; `none` is `"unsupported"`. -/
  | result (r : Option WaitResult)
  /-- The panic of an unsupported call. -/
  | panicked
  /-- In `unpark`, before `store(word, 1)`. -/
  | store
  /-- In `unpark`, before `notify(word, 1)`. -/
  | notify
  deriving DecidableEq

/-- The operations of a thread. -/
inductive Act where
  /-- Call `park` or `park_timeout`. -/
  | park (timed : Bool)
  /-- Call `unpark` on a handle of the owner. -/
  | unpark
  /-- The next operation of the call. -/
  | step
  /-- The timeout of the sleep has elapsed. -/
  | timeout
  /-- The panic of `park` is caught. -/
  | caught

/-- One operation.  `owner` is true for the thread the word belongs to; `canBlock` tells whether that
thread is allowed to block in `Atomics.wait`. -/
def step (canBlock owner : Bool) (a : Act) (s : Shared) (pc : Pc) : Option (Shared × Pc) :=
  match pc, a with
  | .ready, .park timed => if owner then some (s, .exchange timed) else none
  | .ready, .unpark => some (s, .store)
  | .exchange timed, .step =>
    if s.word = 1 then some ({ s with word := 0 }, .result (some .ok)) else some (s, .wait timed)
  | .wait timed, .step =>
    -- the exception of `Atomics.wait` comes before it reads the word
    if !canBlock then some (s, .result none)
    else if s.word ≠ 0 then some (s, .woken timed .notEqual)
    else some ({ s with asleep := true }, .sleep timed)
  | .sleep timed, .step => if s.asleep then none else some (s, .woken timed .ok)
  | .sleep timed, .timeout =>
    if s.asleep && timed then some ({ s with asleep := false }, .woken timed .timedOut) else none
  | .woken timed r, .step =>
    if timed && r ≠ .ok then some (s, .result (some r))
    else some ({ s with word := 0 }, .result (some r))
  | .result none, .step => some (s, .panicked)
  | .result (some _), .step => some ({ s with returns := s.returns + 1 }, .ready)
  | .panicked, .caught => some (s, .ready)
  | .store, .step => some ({ s with word := 1 }, .notify)
  | .notify, .step => some ({ s with asleep := false }, .ready)
  | _, _ => none

variable {ι : Type*} [DecidableEq ι]

/-- The threads around the word of `owner`. -/
def sys (canBlock : Bool) (owner : ι) : System ι Shared Pc Act Empty where
  step i := step canBlock (decide (i = owner))
  env e _ := nomatch e

/-- A new `Thread`: no token, and nobody in a call. -/
def init : Config ι Shared Pc := ⟨⟨0, false, 0⟩, fun _ => .ready⟩

variable {canBlock : Bool} {owner i : ι} {a : Act} {s s₁ : Shared} {pc pc₁ : Pc}
  {c c₁ c₂ : Config ι Shared Pc}

/-! ### What one operation does -/

/-- The thread is in a call of `park` or `park_timeout`. -/
def Pc.parks : Pc → Bool
  | .ready | .store | .notify => false
  | _ => true

/-- The thread is in `Atomics.wait`, after the check. -/
def Pc.sleeps : Pc → Bool
  | .sleep _ => true
  | _ => false

/-- What an operation does to the word, to the sleep and to the number of calls that have returned. -/
inductive Move (s : Shared) (pc : Pc) (s₁ : Shared) (pc₁ : Pc) : Prop where
  /-- Nothing. -/
  | quiet (hsleeps : pc.sleeps = false ∨ s.asleep = false) (hnotify : pc ≠ .notify)
      (hresult : ∀ r, pc ≠ .result (some r)) (hs : s₁ = s)
  /-- The token is taken, or wiped out, by a call that is about to return. -/
  | take (hparks : pc.parks = true) (hsleeps : pc.sleeps = false) (hs : s₁ = { s with word := 0 })
      (hpc₁ : ∃ r, pc₁ = .result (some r))
  /-- The sleep begins, with the word at 0. -/
  | sleep (hpc : ∃ timed, pc = .wait timed) (hword : s.word = 0) (hs : s₁ = { s with asleep := true })
      (hpc₁ : pc₁.sleeps = true)
  /-- The sleep ends without a notification. -/
  | timeout (hpc : pc.sleeps = true) (hs : s₁ = { s with asleep := false })
  /-- A call returns. -/
  | ret (hpc : ∃ r, pc = .result (some r)) (hs : s₁ = { s with returns := s.returns + 1 })
  /-- An unpark stores the token. -/
  | store (hpc : pc = .store) (hs : s₁ = { s with word := 1 }) (hpc₁ : pc₁ = .notify)
  /-- An unpark notifies. -/
  | notify (hpc : pc = .notify) (hs : s₁ = { s with asleep := false })

theorem step_move {mine : Bool} (h : step canBlock mine a s pc = some (s₁, pc₁)) :
    Move s pc s₁ pc₁ := by
  unfold step at h
  split at h
  · split at h <;> cases h
    exact .quiet (.inl rfl) nofun nofun rfl
  · cases h
    exact .quiet (.inl rfl) nofun nofun rfl
  · split at h <;> cases h
    · exact .take rfl rfl rfl ⟨_, rfl⟩
    · exact .quiet (.inl rfl) nofun nofun rfl
  · split at h
    · cases h
      exact .quiet (.inl rfl) nofun nofun rfl
    · split at h <;> cases h
      · exact .quiet (.inl rfl) nofun nofun rfl
      · rename_i hword
        exact .sleep ⟨_, rfl⟩ (not_not.1 hword) rfl rfl
  · split at h <;> cases h
    rename_i hasleep
    exact .quiet (.inr (Bool.eq_false_of_not_eq_true hasleep)) nofun nofun rfl
  · split at h <;> cases h
    exact .timeout rfl rfl
  · split at h <;> cases h
    · exact .quiet (.inl rfl) nofun nofun rfl
    · exact .take rfl rfl rfl ⟨_, rfl⟩
  · cases h
    exact .quiet (.inl rfl) nofun nofun rfl
  · cases h
    exact .ret ⟨_, rfl⟩ rfl
  · cases h
    exact .quiet (.inl rfl) nofun nofun rfl
  · cases h
    exact .store rfl rfl rfl
  · cases h
    exact .notify rfl rfl
  · cases h

/-- Only the owner enters a call of `park`. -/
theorem step_parks {mine : Bool} (h : step canBlock mine a s pc = some (s₁, pc₁))
    (hp : pc₁.parks = true) : pc.parks = true ∨ mine = true := by
  by_cases hready : pc = .ready
  · subst hready
    cases a with
    | park timed =>
      simp only [step] at h
      split at h
      · exact .inr (by assumption)
      · cases h
    | unpark => cases h; cases hp
    | step => cases h
    | timeout => cases h
    | caught => cases h
  · left
    cases pc with
    | ready => exact absurd rfl hready
    | store => cases a <;> cases h; cases hp
    | notify => cases a <;> cases h; cases hp
    | exchange | wait | sleep | woken | result | panicked => rfl

/-- Who is in the list of waiters has just begun to sleep, or was in it and did not move. -/
theorem Move.asleep (h : Move s pc s₁ pc₁) (hs₁ : s₁.asleep = true) :
    pc₁.sleeps = true ∨ s.asleep = true ∧ pc.sleeps = false := by
  cases h with
  | quiet hsleeps hnotify hresult hs =>
    subst hs
    refine .inr ⟨hs₁, hsleeps.resolve_right ?_⟩
    simp [hs₁]
  | take hparks hsleeps hs hpc₁ =>
    subst hs
    exact .inr ⟨hs₁, hsleeps⟩
  | sleep hpc hword hs hpc₁ => exact .inl hpc₁
  | timeout hpc hs | notify hpc hs =>
    rw [hs] at hs₁
    cases hs₁
  | ret hpc hs =>
    obtain ⟨r, rfl⟩ := hpc
    subst hs
    exact .inr ⟨hs₁, rfl⟩
  | store hpc hs hpc₁ =>
    subst hpc hs
    exact .inr ⟨hs₁, rfl⟩

/-! ### The sleep -/

/-- Only the owner parks, who is in the list of waiters sleeps, and a sleep beside a token will be
ended by a notification. -/
structure Attended (owner : ι) (c : Config ι Shared Pc) : Prop where
  parks : ∀ i, (c.loc i).parks = true → i = owner
  asleep : c.shared.asleep = true → (c.loc owner).sleeps = true
  notify : c.shared.asleep = true → c.shared.word = 1 → ∃ i, c.loc i = .notify

theorem Pc.parks_of_sleeps (h : pc.sleeps = true) : pc.parks = true := by
  cases pc <;> first | rfl | cases h

theorem Attended.step (h : Attended owner c)
    (hs : (sys canBlock owner).step i a c.shared (c.loc i) = some (s₁, pc₁)) :
    Attended owner (c.set i s₁ pc₁) := by
  have hmove := step_move hs
  have hparks : ∀ j, ((c.set i s₁ pc₁).loc j).parks = true → j = owner := by
    intro j hj
    by_cases hji : j = i
    · subst hji
      rw [Config.set_loc_self] at hj
      rcases step_parks hs hj with hp | hp
      · exact h.parks j hp
      · exact of_decide_eq_true hp
    · rw [Config.set_loc_of_ne hji] at hj
      exact h.parks j hj
  refine ⟨hparks, fun hasleep => ?_, fun hasleep hword => ?_⟩
  · rcases hmove.asleep hasleep with hp | ⟨hb, hp⟩
    · have hi : i = owner := hparks i (by simpa using Pc.parks_of_sleeps hp)
      subst hi
      simpa using hp
    · have hi : owner ≠ i := by
        rintro rfl
        rw [h.asleep hb] at hp
        cases hp
      rw [Config.set_loc_of_ne hi]
      exact h.asleep hb
  · rw [Config.set_shared] at hasleep hword
    have hkeep : c.loc i ≠ .notify → (∃ j, c.loc j = .notify) →
        ∃ j, (c.set i s₁ pc₁).loc j = .notify := by
      rintro hne ⟨j, hj⟩
      refine ⟨j, ?_⟩
      rw [Config.set_loc_of_ne, hj]
      rintro rfl
      exact hne hj
    cases hmove with
    | quiet hsleeps hnotify hresult hs =>
      subst hs
      exact hkeep hnotify (h.notify hasleep hword)
    | take hparks hsleeps hs hpc₁ =>
      rw [hs] at hword
      cases hword
    | sleep hpc hzero hs hpc₁ =>
      rw [hs, hzero] at hword
      cases hword
    | timeout hpc hs | notify hpc hs =>
      rw [hs] at hasleep
      cases hasleep
    | ret hpc hs =>
      obtain ⟨r, hpc⟩ := hpc
      subst hs
      exact hkeep (by rw [hpc]; nofun) (h.notify hasleep hword)
    | store hpc hs hpc₁ => exact ⟨i, by rw [Config.set_loc_self, hpc₁]⟩

theorem attended (h : (sys canBlock owner).Reachable init c) : Attended owner c := by
  refine h.invariant ?_ (fun c i a s l _ ih _ hs => ih.step hs) fun c e => nomatch e
  exact ⟨nofun, nofun, nofun⟩

/-- **The owner does not sleep beside a token** unless an unpark has stored it and has not notified
yet. -/
theorem awake_of_token (h : (sys canBlock owner).Reachable init c) (hword : c.shared.word = 1)
    (hnotify : ∀ i, c.loc i ≠ .notify) : c.shared.asleep = false := by
  by_contra hasleep
  obtain ⟨i, hi⟩ := (attended h).notify (Bool.eq_true_of_not_eq_false hasleep) hword
  exact hnotify i hi

/-! ### Every unpark is honoured -/

/-- An unpark that stored its token in the step to `c₁` is honoured in `c`. -/
inductive Honoured (canBlock : Bool) (owner : ι) (c₁ c : Config ι Shared Pc) : Prop where
  /-- The token is there. -/
  | token (hword : c.shared.word = 1)
  /-- The owner is not asleep, and its next operation returns from its call. -/
  | returns (hawake : c.shared.asleep = false) (hnext : ∃ c', (sys canBlock owner).next c
      (.agent owner .step) = some c' ∧ c'.shared.returns = c.shared.returns + 1)
  /-- The owner has returned from a call since. -/
  | returned (h : c₁.shared.returns < c.shared.returns)

/-- The condition that every step keeps: the token, or the way out of a call, or a call that has
returned after the first `n` ones. -/
structure Kept (owner : ι) (n : ℕ) (c : Config ι Shared Pc) : Prop where
  mono : n ≤ c.shared.returns
  kept : c.shared.word = 1 ∨ (∃ r, c.loc owner = .result (some r)) ∨ n < c.shared.returns

theorem Kept.step {n : ℕ} (h : Kept owner n c) (ht : Attended owner c)
    (hs : (sys canBlock owner).step i a c.shared (c.loc i) = some (s₁, pc₁)) :
    Kept owner n (c.set i s₁ pc₁) := by
  obtain ⟨hmono, hkept⟩ := h
  -- the owner stays on its way out of a call until it returns
  have hkeep : (∀ r, c.loc i ≠ .result (some r)) → (∃ r, c.loc owner = .result (some r)) →
      ∃ r, (c.set i s₁ pc₁).loc owner = .result (some r) := by
    rintro hne ⟨r, hr⟩
    refine ⟨r, ?_⟩
    rw [Config.set_loc_of_ne, hr]
    rintro rfl
    exact hne r hr
  cases step_move hs with
  | quiet hsleeps hnotify hresult hs =>
    subst hs
    exact ⟨hmono, hkept.imp_right (.imp_left (hkeep hresult))⟩
  | take hparks hsleeps hs hpc₁ =>
    subst hs
    have hi := ht.parks i hparks
    subst hi
    exact ⟨hmono, .inr (.inl (by simpa using hpc₁))⟩
  | sleep hpc hword hs hpc₁ =>
    obtain ⟨timed, hpc⟩ := hpc
    subst hs
    exact ⟨hmono, hkept.imp_right (.imp_left (hkeep (by rw [hpc]; nofun)))⟩
  | timeout hpc hs =>
    subst hs
    refine ⟨hmono, hkept.imp_right (.imp_left (hkeep fun r hr => ?_))⟩
    rw [hr] at hpc
    cases hpc
  | ret hpc hs =>
    subst hs
    exact ⟨Nat.le_succ_of_le hmono, .inr (.inr (Nat.lt_succ_of_le hmono))⟩
  | store hpc hs hpc₁ =>
    subst hs
    exact ⟨hmono, .inl rfl⟩
  | notify hpc hs =>
    subst hs
    exact ⟨hmono, hkept.imp_right (.imp_left (hkeep (by rw [hpc]; nofun)))⟩

theorem Kept.honoured (h : Kept owner c₁.shared.returns c) (ht : Attended owner c) :
    Honoured canBlock owner c₁ c := by
  rcases h.kept with hword | ⟨r, hr⟩ | hlt
  · exact .token hword
  · refine .returns ?_ ?_
    · by_contra hasleep
      have hsleeps := ht.asleep (Bool.eq_true_of_not_eq_false hasleep)
      rw [hr] at hsleeps
      cases hsleeps
    · refine ⟨c.set owner { c.shared with returns := c.shared.returns + 1 } .ready, ?_, rfl⟩
      simp [System.next, sys, hr, Parking.step]
  · exact .returned hlt

/-- **Every unpark is honoured.**  An unpark of thread `i` stores its token in the step from `c₀` to
`c₁`.  From then on, in every run: the token is there, and the owner asleep only while an unpark is
between its store and its notification; or the owner is on its way out of a call; or it has returned
from one. -/
theorem unpark_honoured {c₀ : Config ι Shared Pc} (h₀ : (sys canBlock owner).Reachable init c₀)
    (hpc : c₀.loc i = .store) (hstore : (sys canBlock owner).next c₀ (.agent i .step) = some c₁)
    (h : (sys canBlock owner).Reachable c₁ c) :
    Honoured canBlock owner c₁ c ∧
      (c.shared.asleep = true → c.shared.word = 1 → ∃ j, c.loc j = .notify) := by
  have h₁ : (sys canBlock owner).Reachable init c₁ := h₀.tail trivial hstore
  have hkept : Kept owner c₁.shared.returns c := by
    refine h.invariant (I := Kept owner c₁.shared.returns) ⟨Nat.le_refl _, .inl ?_⟩
      (fun c i a s l hc ih _ hs => ih.step (attended (h₁.trans hc)) hs) fun c e => nomatch e
    obtain ⟨s, pc, hs, rfl⟩ := System.next_agent hstore
    simp only [sys, hpc, step, Option.some.injEq, Prod.mk.injEq] at hs
    simp [← hs.1]
  have ht := attended (h₁.trans h)
  exact ⟨hkept.honoured ht, ht.notify⟩

/-- A run in which the owner wipes out the token of an unpark that came after its wake-up: it is on
its way out of the call. -/
theorem unpark_honoured_wiped :
    ∃ c₀ c₁ c : Config (Fin 3) Shared Pc, (sys true 0).Reachable init c₀ ∧
      (sys true 0).next c₀ (.agent 2 .step) = some c₁ ∧ (sys true 0).Reachable c₁ c ∧
      c.shared.word = 0 ∧ c.shared.returns = 0 ∧ Honoured true 0 c₁ c := by
  let before : List (Label (Fin 3) Act Empty) :=
    [.agent 0 (.park false), .agent 0 .step, .agent 0 .step, .agent 1 .unpark, .agent 2 .unpark,
      .agent 1 .step, .agent 1 .step, .agent 0 .step]
  let c₀ := ((sys true 0).run init before).get (by decide)
  let c₁ := ((sys true 0).next c₀ (.agent 2 .step)).get (by decide)
  let c := ((sys true 0).next c₁ (.agent 0 .step)).get (by decide)
  have h₀ : (sys true 0).Reachable init c₀ := System.reachable_of_run (Option.some_get _).symm
  have h₁ : (sys true 0).next c₀ (.agent 2 .step) = some c₁ := (Option.some_get _).symm
  have h : (sys true 0).Reachable c₁ c :=
    System.Reach.refl.tail (a := .agent 0 .step) trivial (Option.some_get _).symm
  exact ⟨c₀, c₁, c, h₀, h₁, h, by decide, by decide, (unpark_honoured h₀ (by decide) h₁ h).1⟩

end Parking

end WasmSafeThread
