import WasmSafeThread.Agents.Progress
import WasmSafeThread.Worker.ExactlyOnce
import WasmSafeThread.Worker.Context

/-!
# Waiting for the exit of a worker

* `Coded`, `Reports` : the codes that are stored are 1 and 2, and 1 is about a worker that has exited.
* `Heard` : a promise that waits for a code misses none.
* `Single` : every parent in a browser takes one event about the end of each worker.  Under this condition
  nothing is read after it was freed while there is a `JoinHandle` (`not_stale`, `reads_allocated`).
* `exit_wait` : **`wait_for_exit_async` resolves**, once a code has been stored, and with a code that was.
* `exit_after_tasks` : **code 1 comes after the tasks** that the worker had begun.
-/

namespace WasmSafeThread

namespace Worker

variable {ρ : Type*} {host : Host} {x : Ctx ρ} {a : Act} {s s₁ : Shared ρ} {l l₁ : Local}
  {isWorker : ρ → Bool} {c : Config (Ctx ρ) (Shared ρ) Local}

/-! ### The codes -/

/-- The codes are 1 and 2. -/
structure Coded (c : Config (Ctx ρ) (Shared ρ) Local) : Prop where
  duty : ∀ x src ptr code ret, (c.loc x).task = .signal src ptr code ret → code = 1 ∨ code = 2
  stored : ∀ r src code, (src, code) ∈ (c.shared.exits r).signals → code = 1 ∨ code = 2

/-- What a context is about to store. -/
theorem Move.code (h : Move host x s l a s₁ l₁) {src : Option ℕ} {ptr code : ℕ} {ret : Option ℕ}
    (ht : l₁.task = .signal src ptr code ret) : l.task = .signal src ptr code ret ∨ code = 2 ∨
      code = 1 ∧ ∃ k rest, src = some k ∧ s.outbox k = .exit :: rest := by
  have hplace : ∀ p p' ret', placeTask host l p p' ret' ≠ .signal src ptr code ret := fun p p' ret' heq => by
    have hduty := placeTask_duty host l p p' ret'
    rw [heq] at hduty
    cases hduty
  cases h with
  | throws | onerror =>
    cases ht
    exact .inr (.inl rfl)
  | ended k w m code' rest hw hmsg hm =>
    cases ht
    rcases hm with ⟨rfl, rfl⟩ | ⟨-, rfl⟩
    · exact .inr (.inr ⟨rfl, k, rest, rfl, hmsg⟩)
    · exact .inr (.inl rfl)
  | initHandlers | relay => exact absurd ht (hplace _ _ _)
  | dropHandle r =>
    dsimp only at ht
    split at ht <;> cases ht
  | logged | load | start | enter | fail | die | exit | uncaught => exact .inl ht
  | _ => cases ht

theorem Access.code {live cleanup : Bool} {e e₁ : ExitState} {d d₁ : Option Duty}
    (h : Access live cleanup e d e₁ d₁) : e₁.exitCode = e.exitCode ∧ e₁.signals = e.signals ∨
      ∃ src code, d = some (.signal src code) ∧ e₁.exitCode = code ∧
        e₁.signals = (src, code) :: e.signals := by
  cases h with
  | signal src code hd => exact .inr ⟨src, code, hd, rfl, rfl⟩
  | _ => exact .inl ⟨rfl, rfl⟩

theorem Task.signal_of_duty {t : Task} {r : ℕ} {src : Option ℕ} {code : ℕ}
    (h : t.dutyFor r = some (.signal src code)) : ∃ ret, t = .signal src r code ret := by
  have hduty := Task.duty_eq h
  cases t <;> cases hduty
  exact ⟨_, rfl⟩

theorem coded [DecidableEq ρ] (h : (sys host).Reachable (init isWorker) c) : Coded c := by
  refine h.invariant ⟨fun x src ptr code ret ht => ?_, by rintro r src code ⟨⟩⟩ ?_ (by rintro c ⟨⟩)
  · cases x <;> cases ht
  intro c x a s l hc ih _ hs
  refine ⟨fun y src ptr code ret ht => ?_, fun r src code hmem => ?_⟩
  · by_cases hy : y = x
    · subst hy
      rw [Config.set_loc_self] at ht
      rcases (step_move hs).code ht with hold | htwo | ⟨hone, -⟩
      · exact ih.duty y src ptr code ret hold
      · exact .inr htwo
      · exact .inl hone
    · rw [Config.set_loc_of_ne hy] at ht
      exact ih.duty y src ptr code ret ht
  · rcases (access_of_step hc hs r).code with ⟨-, heq⟩ | ⟨src', code', hd, -, heq⟩ <;>
      rw [Config.set_shared, heq] at hmem
    · exact ih.stored r src code hmem
    · rcases List.mem_cons.1 hmem with hnew | hold
      · cases hnew
        obtain ⟨ret, ht⟩ := Task.signal_of_duty hd
        exact ih.duty x src r code ret ht
      · exact ih.stored r src code hold

theorem Move.closed (h : Move host x s l a s₁ l₁) (hphase : l.phase = .closed) : l₁.phase = .closed := by
  cases h with
  | start _ _ _ _ _ hp | enter _ _ _ _ hp => rw [hphase] at hp; cases hp
  | fail _ _ _ hp | die _ _ _ hp => rcases hp with ⟨_, hp⟩ | hp <;> rw [hphase] at hp <;> cases hp
  | exit => rfl
  | _ => exact hphase

/-- Somewhere it is said that worker `k` has exited without an error. -/
def Reports (c : Config (Ctx ρ) (Shared ρ) Local) (k : ℕ) : Prop :=
  .exit ∈ c.shared.outbox k ∨ (∃ x ptr ret, (c.loc x).task = .signal (some k) ptr 1 ret) ∨
    ∃ r, (some k, 1) ∈ (c.shared.exits r).signals

/-- Only a worker that exits posts that it does. -/
theorem Move.exit_mem (h : Move host x s l a s₁ l₁) {k : ℕ} (hmem : .exit ∈ s₁.outbox k) :
    .exit ∈ s.outbox k ∨ a = .exit ∧ x = .worker k := by
  have hpost : ∀ j m, Msg.exit ∈ (s.post j m).outbox k → .exit ∈ s.outbox k ∨ m = .exit ∧ j = k := by
    intro j m hm
    by_cases hk : k = j
    · subst hk
      simp only [Shared.post, Function.update_self, List.mem_append, List.mem_singleton] at hm
      exact hm.imp id fun heq => ⟨heq.symm, rfl⟩
    · simp only [Shared.post, Function.update_of_ne hk] at hm
      exact .inl hm
  have htake : ∀ j m rest, s.outbox j = m :: rest → .exit ∈ Function.update s.outbox j rest k →
      .exit ∈ s.outbox k := by
    intro j m rest hmsg hm
    by_cases hk : k = j
    · subst hk
      rw [Function.update_self] at hm
      rw [hmsg]
      exact List.mem_cons_of_mem _ hm
    · rwa [Function.update_of_ne hk] at hm
  cases h with
  | relay j w p rest hw hmsg => exact .inl (htake j _ rest hmsg hmem)
  | ended j w m code rest hw hmsg => exact .inl (htake j m rest hmsg hmem)
  | forward p ret =>
    rw [Shared.finish_outbox] at hmem
    cases x with
    | worker j =>
      rcases hpost j (.relaySpawn p) hmem with hold | ⟨heq, -⟩
      · exact .inl hold
      · cases heq
    | root z => exact .inl hmem
  | fail j | die j =>
    rcases hpost j .error hmem with hold | ⟨heq, -⟩
    · exact .inl hold
    · cases heq
  | exit j hx =>
    rcases hpost j .exit hmem with hold | ⟨-, rfl⟩
    · exact .inl hold
    · exact .inr ⟨rfl, hx⟩
  | create | decrement | cleanup =>
    rw [Shared.finish_outbox] at hmem
    exact .inl hmem
  | _ => exact .inl hmem

/-- **Only the exit of the worker is reported so.** -/
theorem Reports.of_step [DecidableEq ρ] (hc : (sys host).Reachable (init isWorker) c)
    (hs : step host x a c.shared (c.loc x) = some (s₁, l₁)) {k : ℕ} (h : Reports (c.set x s₁ l₁) k) :
    Reports c k ∨ a = .exit ∧ x = .worker k := by
  have hmove := step_move hs
  rcases h with hmem | ⟨y, ptr, ret, ht⟩ | ⟨r, hmem⟩
  · exact (hmove.exit_mem hmem).imp .inl id
  · by_cases hy : y = x
    · subst hy
      rw [Config.set_loc_self] at ht
      rcases hmove.code ht with hold | htwo | ⟨-, k', rest, heq, hmsg⟩
      · exact .inl (.inr (.inl ⟨y, ptr, ret, hold⟩))
      · cases htwo
      · cases heq
        exact .inl (.inl (by rw [hmsg]; exact List.mem_cons_self))
    · rw [Config.set_loc_of_ne hy] at ht
      exact .inl (.inr (.inl ⟨y, ptr, ret, ht⟩))
  · rcases (access_of_step hc hs r).code with ⟨-, heq⟩ | ⟨src, code, hd, -, heq⟩ <;>
      rw [Config.set_shared, heq] at hmem
    · exact .inl (.inr (.inr ⟨r, hmem⟩))
    · rcases List.mem_cons.1 hmem with hnew | hold
      · cases hnew
        obtain ⟨ret, ht⟩ := Task.signal_of_duty hd
        exact .inl (.inr (.inl ⟨x, r, ret, ht⟩))
      · exact .inl (.inr (.inr ⟨r, hold⟩))

/-! ### The tasks of a context -/

theorem code_ne_zero [DecidableEq ρ] (hc : (sys host).Reachable (init isWorker) c)
    (hs : step host x a c.shared (c.loc x) = some (s₁, l₁)) {r : ℕ}
    (hcode : (c.shared.exits r).exitCode ≠ 0) : (s₁.exits r).exitCode ≠ 0 := by
  rcases (access_of_step hc hs r).code with ⟨heq, -⟩ | ⟨src, code, hd, heq, -⟩
  · rwa [heq]
  · obtain ⟨ret, ht⟩ := Task.signal_of_duty hd
    rcases (coded hc).duty x src r code ret ht with rfl | rfl <;> rw [heq] <;> simp

theorem signals_mem [DecidableEq ρ] (hc : (sys host).Reachable (init isWorker) c)
    (hs : step host x a c.shared (c.loc x) = some (s₁, l₁)) {r : ℕ} {e : Option ℕ × ℕ}
    (he : e ∈ (c.shared.exits r).signals) : e ∈ (s₁.exits r).signals := by
  rcases (access_of_step hc hs r).code with ⟨-, heq⟩ | ⟨src, code, -, -, heq⟩ <;> rw [heq]
  · exact he
  · exact List.mem_cons_of_mem _ he

theorem signal_of_code [DecidableEq ρ] (hc : (sys host).Reachable (init isWorker) c)
    (hs : step host x a c.shared (c.loc x) = some (s₁, l₁)) {r : ℕ}
    (hzero : (c.shared.exits r).exitCode = 0) (hcode : (s₁.exits r).exitCode ≠ 0) :
    ∃ src code ret, (c.loc x).task = .signal src r code ret := by
  rcases (access_of_step hc hs r).code with ⟨heq, -⟩ | ⟨src, code, hd, -, -⟩
  · exact absurd (heq.trans hzero) hcode
  · obtain ⟨ret, ht⟩ := Task.signal_of_duty hd
    exact ⟨src, code, ret, ht⟩

namespace Context

variable [DecidableEq ρ] {S : Setup ρ} {a : Act} {s s₁ : Shared ρ} {l l₁ : Local}
  {c c' : Config (Ctx ρ) (Shared ρ) Local}

/-- The calls of `task_begin` and `task_finished` are paired, and there are fewer than 2³² tasks at a time.
With assertions this is checked. -/
def Paired (S : Setup ρ) (c : Config (Ctx ρ) (Shared ρ) Local) : Label (Ctx ρ) Act Empty → Prop
  | .agent x .taskBegin => S.debug = true ∨ (c.loc x).begun + 1 < (c.loc x).finished + 2 ^ 32
  | .agent x .taskFinished => S.debug = true ∨ (c.loc x).finished < (c.loc x).begun
  | _ => True

instance (S : Setup ρ) (c : Config (Ctx ρ) (Shared ρ) Local) :
    (a : Label (Ctx ρ) Act Empty) → Decidable (Paired S c a)
  | .agent x a =>
    match a with
    | .taskBegin => inferInstanceAs (Decidable (_ ∨ (c.loc x).begun + 1 < (c.loc x).finished + 2 ^ 32))
    | .taskFinished => inferInstanceAs (Decidable (_ ∨ (c.loc x).finished < (c.loc x).begun))
    | .base _ | .step | .spawn _ _ | .enter | .current | .drain | .exit | .waitForExit _ | .settle _
    | .poll _ | .dropHandle _ => .isTrue trivial

/-- `PENDING_TASKS` is the number of tasks that have begun and have not finished. -/
structure Local.Counted (l : Local) : Prop where
  le : l.finished ≤ l.begun
  pending : l.pending.toNat + l.finished = l.begun
  drained : ∀ n, l.drained = some n → n ≤ l.finished

omit [DecidableEq ρ] in
theorem Local.Counted.taskBegin (h : l.Counted) {debug : Bool}
    (hP : debug = true ∨ l.begun + 1 < l.finished + 2 ^ 32) : (l.taskBegin debug).Counted := by
  unfold Local.taskBegin
  split
  · exact h
  · rename_i hmax
    have hpending := h.pending
    have hlt := l.pending.isLt
    have hno : l.pending.toNat + 1 < 2 ^ 32 := by
      rcases hP with rfl | hP
      · have hne : l.pending.toNat ≠ 2 ^ 32 - 1 := fun heq => hmax ⟨rfl, BitVec.eq_of_toNat_eq (by
          rw [heq]
          rfl)⟩
        omega
      · omega
    refine ⟨Nat.le_succ_of_le h.le, ?_, h.drained⟩
    show (l.pending + 1).toNat + l.finished = l.begun + 1
    rw [BitVec.toNat_add, show (1 : BitVec 32).toNat = 1 from rfl, Nat.mod_eq_of_lt hno]
    show l.pending.toNat + 1 + l.finished = l.begun + 1
    omega

omit [DecidableEq ρ] in
theorem Local.Counted.taskFinished (h : l.Counted) {debug : Bool}
    (hP : debug = true ∨ l.finished < l.begun) : (l.taskFinished debug).Counted := by
  unfold Local.taskFinished
  split
  · exact h
  · rename_i hzero
    have hpending := h.pending
    have hpos : 0 < l.pending.toNat := by
      rcases hP with rfl | hP
      · by_contra hno
        exact hzero ⟨rfl, BitVec.eq_of_toNat_eq (Nat.eq_zero_of_not_pos hno)⟩
      · omega
    have hsub : (l.pending - 1).toNat = l.pending.toNat - 1 := by bv_omega
    refine ⟨?_, ?_, fun n hn => Nat.le_succ_of_le (h.drained n hn)⟩
    · show l.finished + 1 ≤ l.begun
      omega
    · show (l.pending - 1).toNat + (l.finished + 1) = l.begun
      omega

/-- What is known of a worker that is said to have exited. -/
structure Drained (S : Setup ρ) (c : Config (Ctx ρ) (Shared ρ) Local) : Prop where
  counted : ∀ x, (c.loc x).Counted
  closed : S.host = .browser → ∀ x n, (c.loc x).drained = some n →
    (c.loc x).base.phase = .closed ∧ n = (c.loc x).begun
  closing : ∀ x, (c.loc x).closing = true → (c.loc x).drained ≠ none
  reports : ∀ k, Reports ((toWorker S).config c) k → (c.loc (.worker k)).drained ≠ none

/-- A context changes. -/
theorem Drained.set (h : Drained S c) (hcounted : l₁.Counted)
    (hclosed : S.host = .browser → ∀ n, l₁.drained = some n →
      l₁.base.phase = .closed ∧ n = l₁.begun)
    (hclosing : l₁.closing = true → l₁.drained ≠ none)
    (hkeep : (c.loc x).drained ≠ none → l₁.drained ≠ none)
    (hreports : ∀ k, Reports ((toWorker S).config (c.set x s₁ l₁)) k →
      Reports ((toWorker S).config c) k ∨ x = .worker k ∧ l₁.drained ≠ none) :
    Drained S (c.set x s₁ l₁) := by
  refine ⟨fun y => ?_, fun hhost y n => ?_, fun y => ?_, fun k hk => ?_⟩
  · by_cases hy : y = x
    · subst hy
      rwa [Config.set_loc_self]
    · rw [Config.set_loc_of_ne hy]
      exact h.counted y
  · by_cases hy : y = x
    · subst hy
      rw [Config.set_loc_self]
      exact hclosed hhost n
    · rw [Config.set_loc_of_ne hy]
      exact h.closed hhost y n
  · by_cases hy : y = x
    · subst hy
      rw [Config.set_loc_self]
      exact hclosing
    · rw [Config.set_loc_of_ne hy]
      exact h.closing y
  · by_cases hy : .worker k = x
    · subst hy
      rw [Config.set_loc_self]
      rcases hreports k hk with hold | ⟨-, hd⟩
      · exact hkeep (h.reports k hold)
      · exact hd
    · rw [Config.set_loc_of_ne hy]
      rcases hreports k hk with hold | ⟨rfl, -⟩
      · exact h.reports k hold
      · exact absurd rfl hy

theorem reports_of_quiet (hbase : s₁.base = c.shared.base) (hlocal : l₁.base = (c.loc x).base) {k : ℕ}
    (hk : Reports ((toWorker S).config (c.set x s₁ l₁)) k) : Reports ((toWorker S).config c) k := by
  rwa [(toWorker S).config_set_of_eq hlocal, show (toWorker S).shared s₁ = (toWorker S).shared c.shared
    from hbase] at hk

theorem Drained.quiet (h : Drained S c) (hbase : s₁.base = c.shared.base)
    (hlocal : l₁.base = (c.loc x).base) (hcounted : l₁.Counted)
    (hclosing : l₁.closing = (c.loc x).closing) (hdrained : l₁.drained = (c.loc x).drained)
    (hbegun : (c.loc x).base.phase = .closed → l₁.begun = (c.loc x).begun) :
    Drained S (c.set x s₁ l₁) := by
  refine h.set hcounted (fun hhost n hn => ?_) ?_ ?_ fun k hk => .inl ?_
  · rw [hdrained] at hn
    obtain ⟨hphase, hle⟩ := h.closed hhost x n hn
    rw [hlocal, hbegun hphase]
    exact ⟨hphase, hle⟩
  · rw [hclosing, hdrained]
    exact h.closing x
  · rw [hdrained]
    exact id
  · exact reports_of_quiet hbase hlocal hk

theorem Drained.below (h : Drained S c) (hc : (sys S).Reachable (init S) c) {b : Worker.Act}
    (hb : b = .exit → (c.loc x).drained ≠ none)
    (hs : Worker.step S.host x b c.shared.base (c.loc x).base = some (s₁.base, l₁.base))
    (hcounted : l₁.Counted) (hclosing : l₁.closing = (c.loc x).closing)
    (hdrained : l₁.drained = (c.loc x).drained) (hbegun : l₁.begun = (c.loc x).begun) :
    Drained S (c.set x s₁ l₁) := by
  refine h.set hcounted (fun hhost n hn => ?_) ?_ ?_ fun k hk => ?_
  · rw [hdrained] at hn
    obtain ⟨hphase, hle⟩ := h.closed hhost x n hn
    exact ⟨(Worker.step_move hs).closed hphase, by rw [hbegun, hle]⟩
  · rw [hclosing, hdrained]
    exact h.closing x
  · rw [hdrained]
    exact id
  · rw [(toWorker S).config_set] at hk
    rcases hk.of_step (worker_reachable hc) hs with hold | ⟨rfl, hx⟩
    · exact .inl hold
    · exact .inr ⟨hx, by rw [hdrained]; exact hb rfl⟩

theorem Drained.step (h : Drained S c) (hc : (sys S).Reachable (init S) c)
    (hP : Paired S c (.agent x a)) (hmove : Move S x c.shared (c.loc x) a s₁ l₁) :
    Drained S (c.set x s₁ l₁) := by
  have hcounted := h.counted x
  cases hmove with
  | base b hcall hplain t tl hs =>
    refine h.below hc ?_ hs ⟨hcounted.le, hcounted.pending, hcounted.drained⟩ rfl rfl rfl
    rintro rfl
    cases hplain
  | spawn name shimUrl hcall t tl hs =>
    exact h.below hc (by rintro ⟨⟩) hs ⟨hcounted.le, hcounted.pending, hcounted.drained⟩ rfl rfl rfl
  | enter work hcall hphase t tl hs =>
    exact h.below hc (by rintro ⟨⟩) hs ⟨hcounted.le, hcounted.pending, hcounted.drained⟩ rfl rfl rfl
  | exit hcall hclosing t tl hs =>
    exact h.below hc (fun _ => h.closing x hclosing) hs
      ⟨hcounted.le, hcounted.pending, hcounted.drained⟩ rfl rfl rfl
  | dropHandle r hcall howner t tl hs =>
    exact h.below hc (by rintro ⟨⟩) hs ⟨hcounted.le, hcounted.pending, hcounted.drained⟩ rfl rfl rfl
  | taskBegin hcall hfree =>
    have hsame : ((c.loc x).taskBegin S.debug).base = (c.loc x).base ∧
        ((c.loc x).taskBegin S.debug).closing = (c.loc x).closing ∧
        ((c.loc x).taskBegin S.debug).drained = (c.loc x).drained := by
      unfold Local.taskBegin
      split <;> exact ⟨rfl, rfl, rfl⟩
    refine h.quiet rfl hsame.1 (hcounted.taskBegin hP) hsame.2.1 hsame.2.2 fun hphase => ?_
    rw [Local.free, hphase] at hfree
    cases hfree.2
  | taskFinished hcall hfree =>
    have hsame : ((c.loc x).taskFinished S.debug).base = (c.loc x).base ∧
        ((c.loc x).taskFinished S.debug).closing = (c.loc x).closing ∧
        ((c.loc x).taskFinished S.debug).drained = (c.loc x).drained := by
      unfold Local.taskFinished
      split <;> exact ⟨rfl, rfl, rfl⟩
    refine h.quiet rfl hsame.1 (hcounted.taskFinished hP) hsame.2.1 hsame.2.2 fun hphase => ?_
    rw [Local.free, hphase] at hfree
    cases hfree.2
  | drain hcall hphase hpending hhost t tl hs =>
    -- no task is pending, so that all have finished
    have hall := hcounted.pending
    rw [hpending] at hall
    have hall : (c.loc x).finished = (c.loc x).begun := by simpa using hall
    refine h.set ⟨hcounted.le, hcounted.pending, fun n hn => ?_⟩ (fun _ n hn => ?_) (fun _ => by rintro ⟨⟩)
      (fun _ => by rintro ⟨⟩) fun k hk => ?_
    · cases hn
      exact hall.ge
    · cases hn
      have hmove := Worker.step_move hs
      cases hmove with
      | exit => exact ⟨rfl, rfl⟩
    · rw [(toWorker S).config_set] at hk
      rcases hk.of_step (worker_reachable hc) hs with hold | ⟨-, hx⟩
      · exact .inl hold
      · exact .inr ⟨hx, by rintro ⟨⟩⟩
  | closePort k hx hcall hphase hpending hclosing hhost =>
    have hall := hcounted.pending
    rw [hpending] at hall
    have hall : (c.loc x).finished = (c.loc x).begun := by simpa using hall
    refine h.set ⟨hcounted.le, hcounted.pending, fun n hn => ?_⟩ (fun hb => ?_) (fun _ => by rintro ⟨⟩)
      (fun _ => by rintro ⟨⟩) fun k hk => .inl ?_
    · cases hn
      exact hall.ge
    · rw [hhost] at hb
      cases hb
    · exact reports_of_quiet (by rfl) (by rfl) hk
  | _ => exact h.quiet rfl rfl ⟨hcounted.le, hcounted.pending, hcounted.drained⟩ rfl rfl fun _ => rfl

theorem drained (h : (sys S).Reach (Paired S) (init S) c) : Drained S c := by
  refine h.invariant ⟨fun _ => ⟨Nat.le_refl _, rfl, by rintro n ⟨⟩⟩, by rintro _ x n ⟨⟩, by rintro x ⟨⟩, ?_⟩ ?_
    (by rintro c ⟨⟩)
  · rintro k (hmem | ⟨x, ptr, ret, ht⟩ | ⟨r, hmem⟩)
    · cases hmem
    · cases x <;> cases ht
    · cases hmem
  · intro c x a s l hc ih hP hs
    exact ih.step hc.reachable hP (step_move hs)

/-! ### The promise -/

/-- `wait_for_exit_async` goes from `w` and `k` to another point, in a context `x` that finds `code`. -/
inductive WaitStep (x : Ctx ρ) (code : ℕ) : Wait ρ → Option Call → ℕ → Wait ρ → Option Call → Prop
  | arm {r : ℕ} : WaitStep x code .none none r (.arming x) (some (.arm r))
  | armed {r : ℕ} {w : Wait ρ} (hcode : code = 0) : WaitStep x code w (some (.arm r)) r (.waiting x) none
  | found {r : ℕ} {w : Wait ρ} (hcode : code ≠ 0) :
      WaitStep x code w (some (.arm r)) r (.arming x) (some (.reload r))
  | reload {r : ℕ} {w : Wait ρ} : WaitStep x code w (some (.reload r)) r (.resolved x code) none
  | startPolling {r : ℕ} : WaitStep x code .none none r (.polling x) none
  | poll {r : ℕ} : WaitStep x code (.polling x) none r (.polling x) none
  | settle {r : ℕ} : WaitStep x code (.woken x) none r (.resolved x code) none
  | found₀ {r : ℕ} {w : Wait ρ} (hw : w = .none ∨ w = .polling x) (hcode : code ≠ 0) :
      WaitStep x code w none r (.resolved x code) none

/-- What an operation does to the promises. -/
inductive WaitMove (S : Setup ρ) (x : Ctx ρ) (s : Shared ρ) (l : Local) (s₁ : Shared ρ) (l₁ : Local) :
    Prop where
  /-- Something happens below. -/
  | below (b : Worker.Act)
      (hs : Worker.step S.host x b s.base l.base = some (s₁.base, l₁.base)) (hwait : s₁.wait = s.wait)
      (hcall : l.call = none) (hcall₁ : l₁.call = afterStore l.base.task)
  | quiet (hbase : s₁.base = s.base) (hwait : s₁.wait = s.wait) (hcall : l₁.call = l.call)
  | notify (ptr : ℕ) (hbase : s₁.base = s.base)
      (hwait : s₁.wait = Function.update s.wait ptr (s.wait ptr).notify)
      (hcall : l.call = some (.notify ptr)) (hcall₁ : l₁.call = none)
  | wait (r : ℕ) (w : Wait ρ) (hbase : s₁.base = s.base) (hwait : s₁.wait = Function.update s.wait r w)
      (hstep : WaitStep x (s.code r) (s.wait r) l.call r w l₁.call)

theorem WaitMove.of_rest {b : Worker.Act} {t : Worker.Shared ρ} {tl : Worker.Local}
    (hs : Worker.step S.host x b s.base l.base = some (t, tl)) (hb : plain b = false)
    (hcall : l.call = none) (hbase : s₁.base = t) (hlocal : l₁.base = tl) (hwait : s₁.wait = s.wait)
    (hcall₁ : l₁.call = l.call) : WaitMove S x s l s₁ l₁ := by
  have hrest : l.base.task = .rest := by
    have hmove := Worker.step_move hs
    cases hmove <;> first | assumption | cases hb
  subst hbase hlocal
  refine .below b hs hwait hcall ?_
  rw [hcall₁, hcall, hrest]
  rfl

theorem Move.wait (h : Move S x s l a s₁ l₁) : WaitMove S x s l s₁ l₁ := by
  cases h with
  | base b hcall hplain t tl hs => exact .below b hs rfl hcall rfl
  | spawn _ _ hcall t tl hs | enter _ hcall _ t tl hs | drain hcall _ _ _ t tl hs | exit hcall _ t tl hs
  | dropHandle _ hcall _ t tl hs => exact .of_rest hs rfl hcall rfl rfl rfl rfl
  | notify ptr hcall => exact .notify ptr rfl rfl hcall rfl
  | armed r hcall hcode => exact .wait r _ rfl rfl (by rw [hcall]; exact .armed hcode)
  | found r hcall hcode => exact .wait r _ rfl rfl (by rw [hcall]; exact .found hcode)
  | reload r hcall => exact .wait r _ rfl rfl (by rw [hcall]; exact .reload)
  | loaded r hcall hhandle hwait hcode =>
    exact .wait r _ rfl rfl (by rw [hcall]; exact .found₀ (.inl hwait) hcode)
  | arm r hcall hhandle hwait => exact .wait r _ rfl rfl (by rw [hcall, hwait]; exact .arm)
  | startPolling r hcall hhandle hwait =>
    exact .wait r _ rfl rfl (by rw [hcall, hwait]; exact .startPolling)
  | settle r hcall hwait => exact .wait r _ rfl rfl (by rw [hcall, hwait]; exact .settle)
  | poll r hcall hwait => exact .wait r _ rfl rfl (by rw [hcall, hwait]; exact .poll)
  | polled r hcall hwait hcode =>
    exact .wait r _ rfl rfl (by rw [hcall]; exact .found₀ (.inr hwait) hcode)
  | taskBegin =>
    unfold Local.taskBegin
    split <;> exact .quiet rfl rfl rfl
  | taskFinished =>
    unfold Local.taskFinished
    split <;> exact .quiet rfl rfl rfl
  | _ => exact .quiet rfl rfl rfl

/-- A promise that waits for a code misses none. -/
structure Heard (c : Config (Ctx ρ) (Shared ρ) Local) : Prop where
  reload : ∀ y r, (c.loc y).call = some (.reload r) → c.shared.code r ≠ 0
  arm : ∀ y r, (c.loc y).call = some (.arm r) ∨ (c.loc y).call = some (.reload r) →
    c.shared.wait r = .arming y
  arming : ∀ y r, c.shared.wait r = .arming y →
    (c.loc y).call = some (.arm r) ∨ (c.loc y).call = some (.reload r)
  notify : ∀ y r, (c.loc y).call = some (.notify r) → c.shared.code r ≠ 0
  waiting : ∀ y r, c.shared.wait r = .waiting y →
    c.shared.code r = 0 ∨ ∃ z, (c.loc z).call = some (.notify r)
  woken : ∀ y r, c.shared.wait r = .woken y → c.shared.code r ≠ 0
  resolved : ∀ y r v, c.shared.wait r = .resolved y v →
    v ≠ 0 ∧ ∃ src, (src, v) ∈ (c.shared.base.exits r).signals

omit [DecidableEq ρ] in
theorem store_of_signal {b : Worker.Act} {t : Worker.Shared ρ} {tl : Worker.Local} {src : Option ℕ}
    {ptr code : ℕ} {ret : Option ℕ} (h : Worker.Move S.host x s.base l.base b t tl)
    (hs : l.base.task = .signal src ptr code ret) : (t.exits ptr).exitCode = code := by
  cases h with
  | signal src' ptr' code' ret' htask =>
    rw [hs] at htask
    cases htask
    simp [Worker.Shared.setExit, ExitState.signal]
  | initHandlers _ htask | forward _ _ htask | throws _ _ htask | create _ _ htask
  | decrement _ _ htask | decrementLast _ _ htask | cleanup _ _ htask | freeBox _ htask =>
    rw [hs] at htask
    cases htask
  | spawn _ _ hrest | relay _ _ _ _ _ _ hrest | ended _ _ _ _ _ _ _ _ hrest | onerror _ _ _ _ hrest
  | logged _ _ hrest | load _ hrest | dropHandle _ hrest | start _ _ _ _ hrest | enter _ _ _ hrest
  | fail _ _ hrest | die _ _ hrest | exit _ _ hrest | uncaught _ _ hrest =>
    rw [hs] at hrest
    cases hrest

/-- What has been stored stays. -/
structure Stores (s s₁ : Shared ρ) : Prop where
  code : ∀ r, s.code r ≠ 0 → s₁.code r ≠ 0
  signals : ∀ r e, e ∈ (s.base.exits r).signals → e ∈ (s₁.base.exits r).signals

theorem stores_of_step (hc : (sys S).Reachable (init S) c)
    (hmove : Move S x c.shared (c.loc x) a s₁ l₁) : Stores c.shared s₁ := by
  rcases hmove.below with ⟨hbase, -⟩ | ⟨b, hs, -⟩
  · refine ⟨fun r hr => ?_, fun r e he => ?_⟩
    · rwa [Shared.code, hbase]
    · rwa [hbase]
  · exact ⟨fun r hr => code_ne_zero (worker_reachable hc) hs hr,
      fun r e he => signals_mem (worker_reachable hc) hs he⟩

omit [DecidableEq ρ] in
theorem Wait.of_notify {w w' : Wait ρ} (h : w.notify = w') (hw : ∀ y, w' ≠ .woken y) : w = w' := by
  cases w with
  | waiting y => exact absurd h.symm (hw y)
  | _ => exact h

/-- At most one promise changes, and `x` may make a call. -/
theorem Heard.set (h : Heard c) (hst : Stores c.shared s₁) {r : ℕ} {w : Wait ρ}
    (hwait : s₁.wait = Function.update c.shared.wait r w)
    (hreload : ∀ q, l₁.call = some (.reload q) → s₁.code q ≠ 0)
    (hnotify : ∀ q, l₁.call = some (.notify q) → s₁.code q ≠ 0)
    (harm : ∀ q, l₁.call = some (.arm q) ∨ l₁.call = some (.reload q) ↔ s₁.wait q = .arming x)
    (hother : ∀ y, y ≠ x → (w = .arming y ↔ c.shared.wait r = .arming y))
    (hwaiting : ∀ y q, s₁.wait q = .waiting y →
      s₁.code q = 0 ∨ ∃ z, ((c.set x s₁ l₁).loc z).call = some (.notify q))
    (hwoken : ∀ y, w = .woken y → s₁.code r ≠ 0)
    (hresolved : ∀ y v, w = .resolved y v → v ≠ 0 ∧ ∃ src, (src, v) ∈ (s₁.base.exits r).signals) :
    Heard (c.set x s₁ l₁) := by
  have hcalls : ∀ k : ℕ → Call, (∀ q, l₁.call = some (k q) → s₁.code q ≠ 0) →
      (∀ y q, (c.loc y).call = some (k q) → c.shared.code q ≠ 0) →
      ∀ y q, ((c.set x s₁ l₁).loc y).call = some (k q) → s₁.code q ≠ 0 := by
    intro k hself hrest y q hy
    by_cases hyx : y = x
    · subst hyx
      rw [Config.set_loc_self] at hy
      exact hself q hy
    · rw [Config.set_loc_of_ne hyx] at hy
      exact hst.code q (hrest y q hy)
  have hold : ∀ q, q ≠ r → s₁.wait q = c.shared.wait q := fun q hq => by
    rw [hwait, Function.update_of_ne hq]
  have hnew : s₁.wait r = w := by rw [hwait, Function.update_self]
  have hiff : ∀ y q, ((c.set x s₁ l₁).loc y).call = some (.arm q) ∨
      ((c.set x s₁ l₁).loc y).call = some (.reload q) ↔ s₁.wait q = .arming y := by
    intro y q
    by_cases hyx : y = x
    · subst hyx
      rw [Config.set_loc_self]
      exact harm q
    · rw [Config.set_loc_of_ne hyx]
      refine ⟨fun hy => ?_, fun hy => h.arming y q ?_⟩ <;> by_cases hq : q = r
      · subst hq
        rw [hnew]
        exact (hother y hyx).2 (h.arm y q hy)
      · rw [hold q hq]
        exact h.arm y q hy
      · subst hq
        exact (hother y hyx).1 (hnew ▸ hy)
      · rwa [← hold q hq]
  refine ⟨hcalls .reload hreload h.reload, fun y q => (hiff y q).1, fun y q => (hiff y q).2,
    hcalls .notify hnotify h.notify, hwaiting, fun y q hy => ?_, fun y q v hy => ?_⟩
  · rw [Config.set_shared] at hy
    by_cases hq : q = r
    · subst hq
      exact hwoken y (hnew ▸ hy)
    · exact hst.code q (h.woken y q (hold q hq ▸ hy))
  · rw [Config.set_shared] at hy
    by_cases hq : q = r
    · subst hq
      exact hresolved y v (hnew ▸ hy)
    · obtain ⟨hv, src, hmem⟩ := h.resolved y q v (hold q hq ▸ hy)
      exact ⟨hv, src, hst.signals q _ hmem⟩

theorem Heard.still (h : Heard c) {y : Ctx ρ} {q : ℕ} (hy : c.shared.wait q = .waiting y)
    (hsame : s₁.code q = c.shared.code q) (hx : (c.loc x).call ≠ some (.notify q)) :
    s₁.code q = 0 ∨ ∃ z, ((c.set x s₁ l₁).loc z).call = some (.notify q) := by
  rcases h.waiting y q hy with hzero | ⟨z, hz⟩
  · exact .inl (hsame.trans hzero)
  · refine .inr ⟨z, ?_⟩
    rwa [Config.set_loc_of_ne (by rintro rfl; exact hx hz)]

theorem mem_signals (hc : (sys S).Reachable (init S) c) {r : ℕ} (hcode : c.shared.code r ≠ 0) :
    ∃ src, (src, c.shared.code r) ∈ (c.shared.base.exits r).signals := by
  have hbooked : c.shared.code r = _ := (booked (worker_reachable hc) r).code
  rw [ExitState.lastCode] at hbooked
  split at hbooked
  · exact absurd hbooked hcode
  · rename_i src code rest heq
    change (c.shared.base.exits r).signals = _ at heq
    exact ⟨src, by rw [hbooked, heq]; exact List.mem_cons_self⟩

omit [DecidableEq ρ] in
theorem afterStore_eq {t : Task} {k : Call} (h : afterStore t = some k) :
    ∃ src ptr code ret, t = .signal src ptr code ret ∧ k = .notify ptr := by
  cases t <;> cases h
  exact ⟨_, _, _, _, rfl, rfl⟩

theorem Heard.step (h : Heard c) (hc : (sys S).Reachable (init S) c)
    (hmove : Move S x c.shared (c.loc x) a s₁ l₁) : Heard (c.set x s₁ l₁) := by
  have hst := stores_of_step hc hmove
  -- where no promise changes
  have hkeep : s₁.wait = c.shared.wait →
      (∀ q, l₁.call = some (.reload q) → s₁.code q ≠ 0) →
      (∀ q, l₁.call = some (.notify q) → s₁.code q ≠ 0) →
      (∀ q, l₁.call = some (.arm q) ∨ l₁.call = some (.reload q) ↔ s₁.wait q = .arming x) →
      (∀ y q, s₁.wait q = .waiting y →
        s₁.code q = 0 ∨ ∃ z, ((c.set x s₁ l₁).loc z).call = some (.notify q)) →
      Heard (c.set x s₁ l₁) := by
    intro hwait hreload hnotify harm hwaiting
    refine h.set hst (r := 0) (w := c.shared.wait 0) (by rw [hwait, Function.update_eq_self]) hreload
      hnotify harm (fun _ _ => Iff.rfl) hwaiting (fun y hy => hst.code 0 (h.woken y 0 hy))
      fun y v hy => ?_
    obtain ⟨hv, src, hmem⟩ := h.resolved y 0 v hy
    exact ⟨hv, src, hst.signals 0 _ hmem⟩
  cases hmove.wait with
  | below b hs hwait hcall hcall₁ =>
    refine hkeep hwait (fun q hq => ?_) (fun q hq => ?_) (fun q => ?_) fun y q hy => ?_
    · obtain ⟨src, ptr, code, ret, -, hk⟩ := afterStore_eq (hcall₁ ▸ hq)
      cases hk
    · obtain ⟨src, ptr, code, ret, htask, hk⟩ := afterStore_eq (hcall₁ ▸ hq)
      cases hk
      show (s₁.base.exits q).exitCode ≠ 0
      rw [store_of_signal (Worker.step_move hs) htask]
      rcases (coded (worker_reachable hc)).duty x src q code ret htask with rfl | rfl <;> simp
    · rw [hwait, hcall₁]
      constructor
      · rintro (hq | hq) <;> obtain ⟨src, ptr, code, ret, -, hk⟩ := afterStore_eq hq <;> cases hk
      · intro hq
        rcases h.arming x q hq with hx | hx <;> rw [hcall] at hx <;> cases hx
    · rw [hwait] at hy
      by_cases hcode : s₁.code q = 0
      · exact .inl hcode
      · right
        by_cases hzero : c.shared.code q = 0
        · -- it is `x` that has stored the code
          obtain ⟨src, code, ret, htask⟩ := signal_of_code (worker_reachable hc) hs hzero hcode
          change (c.loc x).base.task = _ at htask
          exact ⟨x, by rw [Config.set_loc_self, hcall₁, htask]; rfl⟩
        · obtain ⟨z, hz⟩ := (h.waiting y q hy).resolve_left hzero
          refine ⟨z, ?_⟩
          rwa [Config.set_loc_of_ne]
          rintro rfl
          rw [hcall] at hz
          cases hz
  | quiet hbase hwait hcall =>
    have hcode : ∀ q, s₁.code q = c.shared.code q := fun q => by rw [Shared.code, hbase, Shared.code]
    refine hkeep hwait (fun q hq => ?_) (fun q hq => ?_) (fun q => ?_) fun y q hy => ?_
    · exact hst.code q (h.reload x q (hcall ▸ hq))
    · exact hst.code q (h.notify x q (hcall ▸ hq))
    · rw [hcall, hwait]
      exact ⟨h.arm x q, h.arming x q⟩
    · rcases h.waiting y q (hwait ▸ hy) with hzero | ⟨z, hz⟩
      · exact .inl ((hcode q).trans hzero)
      · refine .inr ⟨z, ?_⟩
        rwa [Config.set_loc_congr (f := Local.call) hcall z]
  | notify ptr hbase hwait hcall hcall₁ =>
    have hcode : ∀ q, s₁.code q = c.shared.code q := fun q => by rw [Shared.code, hbase, Shared.code]
    have hnone : ∀ q, c.shared.wait q ≠ .arming x := fun q hq => by
      rcases h.arming x q hq with hx | hx <;> rw [hcall] at hx <;> cases hx
    refine h.set hst hwait (by rw [hcall₁]; rintro q ⟨⟩) (by rw [hcall₁]; rintro q ⟨⟩) (fun q => ?_)
      (fun y _ => ⟨fun hy => Wait.of_notify hy (by rintro _ ⟨⟩), fun hy => by rw [hy]; rfl⟩)
      (fun y q hy => ?_) (fun _ _ => hst.code ptr (h.notify x ptr hcall)) fun y v hy => ?_
    · rw [hwait, hcall₁]
      refine ⟨by rintro (⟨⟨⟩⟩ | ⟨⟨⟩⟩), fun hq => absurd ?_ (hnone q)⟩
      by_cases hptr : q = ptr
      · subst hptr
        rw [Function.update_self] at hq
        exact Wait.of_notify hq (by rintro _ ⟨⟩)
      · rwa [Function.update_of_ne hptr] at hq
    · rw [hwait] at hy
      by_cases hptr : q = ptr
      · subst hptr
        rw [Function.update_self] at hy
        rw [Wait.of_notify hy (by rintro _ ⟨⟩)] at hy
        cases hy
      · rw [Function.update_of_ne hptr] at hy
        refine h.still hy (hcode q) ?_
        rw [hcall]
        rintro ⟨⟩
        exact hptr rfl
    · obtain ⟨hv, src, hmem⟩ := h.resolved y ptr v (Wait.of_notify hy (by rintro _ ⟨⟩))
      exact ⟨hv, src, hst.signals ptr _ hmem⟩
  | wait r w hbase hwait hstep =>
    have hcode : ∀ q, s₁.code q = c.shared.code q := fun q => by rw [Shared.code, hbase, Shared.code]
    generalize hw : c.shared.wait r = w₀ at hstep
    generalize hk : (c.loc x).call = k at hstep
    generalize hk₁ : l₁.call = k₁ at hstep
    -- the call that `x` was in, or is in now, is about `r`
    have harming : ∀ q, q ≠ r → c.shared.wait q ≠ .arming x := fun q hq hx => by
      have hx := h.arming x q hx
      rw [hk] at hx
      cases hstep <;> rcases hx with hx | hx <;> cases hx <;> exact hq rfl
    have hmine : k = some (.arm r) ∨ k = some (.reload r) → w₀ = .arming x := fun hx =>
      hw ▸ h.arm x r (hk ▸ hx)
    refine h.set hst hwait (fun q hq => ?_) (fun q hq => ?_) (fun q => ?_) (fun y hy => ?_)
      (fun y q hy => ?_) (fun y hy => ?_) fun y v hy => ?_
    · rw [hk₁] at hq
      cases hstep <;> cases hq
      rwa [hcode]
    · rw [hk₁] at hq
      cases hstep <;> cases hq
    · rw [hwait, hk₁]
      by_cases hqr : q = r
      · subst hqr
        rw [Function.update_self]
        cases hstep <;> simp
      · rw [Function.update_of_ne hqr]
        refine ⟨fun hq => ?_, fun hq => absurd hq (harming q hqr)⟩
        cases hstep <;> rcases hq with hq | hq <;> cases hq <;> exact absurd rfl hqr
    · rw [hw]
      have hafter : w ≠ .arming y := by
        cases hstep <;> rintro ⟨⟩ <;> exact hy rfl
      have hbefore : w₀ ≠ .arming y := by
        cases hstep with
        | armed | found =>
          rw [hmine (.inl rfl)]
          rintro ⟨⟩
          exact hy rfl
        | reload =>
          rw [hmine (.inr rfl)]
          rintro ⟨⟩
          exact hy rfl
        | found₀ hfrom => rcases hfrom with rfl | rfl <;> rintro ⟨⟩
        | _ => rintro ⟨⟩
      exact ⟨fun h => absurd h hafter, fun h => absurd h hbefore⟩
    · rw [hwait] at hy
      by_cases hqr : q = r
      · subst hqr
        rw [Function.update_self] at hy
        cases hstep <;> cases hy
        exact .inl ((hcode q).trans ‹_›)
      · rw [Function.update_of_ne hqr] at hy
        refine h.still hy (hcode q) ?_
        rw [hk]
        cases hstep <;> rintro ⟨⟩
    · cases hstep <;> cases hy
    · have hv : v = c.shared.code r ∧ c.shared.code r ≠ 0 := by
        cases hstep <;> cases hy
        · exact ⟨rfl, h.reload x r hk⟩
        · exact ⟨rfl, h.woken x r hw⟩
        · exact ⟨rfl, ‹_›⟩
      obtain ⟨rfl, hne⟩ := hv
      obtain ⟨src, hmem⟩ := mem_signals hc hne
      exact ⟨hne, src, hst.signals r _ hmem⟩

theorem heard (h : (sys S).Reachable (init S) c) : Heard c := by
  refine h.invariant ⟨by rintro y r ⟨⟩, by rintro y r (⟨⟨⟩⟩ | ⟨⟨⟩⟩), by rintro y r ⟨⟩, by rintro y r ⟨⟩,
    by rintro y r ⟨⟩, by rintro y r ⟨⟩, by rintro y r v ⟨⟩⟩ ?_ (by rintro c ⟨⟩)
  intro c x a s l hc ih _ hs
  exact ih.step hc (step_move hs)

/-! ### It resolves -/

omit [DecidableEq ρ] in
/-- How many operations a task of the loader can still take. -/
def taskRank : Task → ℕ
  | .rest => 0
  | .freeBox _ | .cleanup _ _ | .create _ _ | .forward _ _ => 1
  | .decrement _ _ | .initHandlers _ => 2
  | .signal _ _ _ _ => 3

/-- How many operations a call in JavaScript can still take. -/
def callRank : Option Call → ℕ
  | none => 0
  | some (.notify _) | some (.reload _) => 1
  | some (.arm _) => 2

/-- How far a promise is from its code. -/
def waitRank : Wait ρ → ℕ
  | .none | .resolved _ _ => 0
  | .woken _ | .polling _ => 1
  | .arming _ | .waiting _ => 2

/-- The operations that are left before `x` reads the code of `r`. -/
def left (x : Ctx ρ) (r : ℕ) (c : Config (Ctx ρ) (Shared ρ) Local) : ℕ :=
  waitRank (c.shared.wait r) + 2 * taskRank (c.loc x).base.task + callRank (c.loc x).call

/-- Calls that have begun go on, and `x` takes the event. -/
def Resolving (x : Ctx ρ) (r : ℕ) : Label (Ctx ρ) Act Empty → Prop
  | .agent _ .step => True
  | .agent y (.base .step) => y = x
  | .agent y (.settle q) | .agent y (.poll q) => y = x ∧ q = r
  | _ => False

omit [DecidableEq ρ] in
theorem advance_rank {t : Worker.Shared ρ} {tl : Worker.Local} (h : tl.task ≠ .rest) :
    ∃ t' tl', advance S.host x t tl = some (t', tl') ∧ tl'.phase = tl.phase ∧
      taskRank tl'.task < taskRank tl.task := by
  unfold advance
  cases htask : tl.task with
  | rest => exact absurd htask h
  | initHandlers p =>
    refine ⟨_, _, rfl, rfl, ?_⟩
    unfold placeTask
    dsimp only
    split
    · split <;> simp [taskRank]
    · simp [taskRank]
  | decrement ptr ret =>
    dsimp only
    split <;> exact ⟨_, _, rfl, rfl, by simp [taskRank]⟩
  | _ => exact ⟨_, _, rfl, rfl, by simp [taskRank]⟩

omit [DecidableEq ρ] in
theorem callRank_afterStore (t : Task) : callRank (afterStore t) ≤ 1 := by
  cases t <;> simp [afterStore, callRank]

/-- A code has been stored, and the context that waits for it runs. -/
structure Awaited (S : Setup ρ) (x : Ctx ρ) (r : ℕ) (c : Config (Ctx ρ) (Shared ρ) Local) : Prop where
  reachable : (sys S).Reachable (init S) c
  code : c.shared.code r ≠ 0
  owner : (c.shared.wait r).owner = some x
  runs : (c.loc x).base.phase.runs = true

theorem Awaited.step {r : ℕ} (h : Awaited S x r c) (hR : Resolving x r (.agent x a))
    (hs : step S x c.shared (c.loc x) a = some (s₁, l₁))
    (howner : (s₁.wait r).owner = some x) (hphase : l₁.base.phase = (c.loc x).base.phase)
    (hlt : waitRank (s₁.wait r) + 2 * taskRank l₁.base.task + callRank l₁.call < left x r c) :
    ∃ b c', Resolving x r b ∧ (sys S).next c b = some c' ∧ Awaited S x r c' ∧
      left x r c' < left x r c := by
  refine ⟨.agent x a, c.set x s₁ l₁, hR, by simp [System.next, sys, hs],
    ⟨h.reachable.agent trivial hs, ?_, howner, ?_⟩, ?_⟩
  · exact (stores_of_step h.reachable (step_move hs)).code r h.code
  · rw [Config.set_loc_self, hphase]
    exact h.runs
  · rw [left, Config.set_shared, Config.set_loc_self]
    exact hlt

omit [DecidableEq ρ] in
@[simp] theorem Wait.notify_owner (w : Wait ρ) : w.notify.owner = w.owner := by cases w <;> rfl

omit [DecidableEq ρ] in
theorem waitRank_notify (w : Wait ρ) : waitRank w.notify ≤ waitRank w := by
  cases w <;> simp [Wait.notify, waitRank]

/-- The call that `x` is in goes on. -/
theorem Awaited.proceed {r : ℕ} {k : Call} (h : Awaited S x r c) (hcall : (c.loc x).call = some k) :
    ∃ b c', Resolving x r b ∧ (sys S).next c b = some c' ∧ Awaited S x r c' ∧
      left x r c' < left x r c := by
  have hH := heard h.reachable
  have hs : Context.step S x c.shared (c.loc x) .step =
      some (Context.proceed x c.shared (c.loc x) k) := by simp [Context.step, hcall]
  cases k with
  | notify ptr =>
    have hwait : (Function.update c.shared.wait ptr (c.shared.wait ptr).notify) r = c.shared.wait r ∨
        (Function.update c.shared.wait ptr (c.shared.wait ptr).notify) r = (c.shared.wait r).notify := by
      by_cases hr : r = ptr
      · subst hr
        exact .inr (Function.update_self ..)
      · exact .inl (Function.update_of_ne hr ..)
    refine h.step (a := .step) trivial hs ?_ rfl ?_
    · rcases hwait with heq | heq <;> simp only [heq, Wait.notify_owner] <;> exact h.owner
    · have hle := waitRank_notify (c.shared.wait r)
      rcases hwait with heq | heq <;> simp only [heq, left, hcall, callRank] <;> omega
  | arm q =>
    by_cases hq : q = r
    · subst hq
      have harming := hH.arm x q (.inl hcall)
      rw [Context.proceed, if_neg h.code] at hs
      refine h.step (a := .step) trivial hs ?_ rfl ?_
      · simp [Shared.read, Wait.owner]
      · simp [Shared.read, left, hcall, harming, callRank, waitRank]
    · rw [Context.proceed] at hs
      split at hs
      all_goals
        refine h.step (a := .step) trivial hs ?_ rfl ?_
        · simp only [Shared.read, Function.update_of_ne (Ne.symm hq)]
          exact h.owner
        · simp [Shared.read, Function.update_of_ne (Ne.symm hq), left, hcall, callRank]
  | reload q =>
    refine h.step (a := .step) trivial hs ?_ rfl ?_ <;> by_cases hq : q = r
    · subst hq
      simp [Shared.read, Wait.owner]
    · simp only [Shared.read, Function.update_of_ne (Ne.symm hq)]
      exact h.owner
    · subst hq
      simp only [Shared.read, Function.update_self, left, hcall, callRank, waitRank]
      omega
    · simp [Shared.read, Function.update_of_ne (Ne.symm hq), left, hcall, callRank]

theorem Awaited.advance {r : ℕ} (h : Awaited S x r c) (hcall : (c.loc x).call = none)
    (htask : (c.loc x).base.task ≠ .rest) :
    ∃ b c', Resolving x r b ∧ (sys S).next c b = some c' ∧ Awaited S x r c' ∧
      left x r c' < left x r c := by
  obtain ⟨t, tl, hadv, hphase, hlt⟩ := advance_rank (S := S) (x := x) (t := c.shared.base) htask
  have hs : Context.step S x c.shared (c.loc x) (.base .step) = some ({ c.shared with base := t },
      { c.loc x with base := tl, call := afterStore (c.loc x).base.task }) := by
    simp [Context.step, hcall, perform, plain, lift, Worker.step, hadv]
  refine h.step (a := .base .step) rfl hs h.owner hphase ?_
  have hle := callRank_afterStore (c.loc x).base.task
  rw [left, hcall]
  change _ + callRank (afterStore (c.loc x).base.task) < _ + 0
  dsimp only
  omega

/-- **One step nearer to the code.** -/
theorem Awaited.progress {r : ℕ} (h : Awaited S x r c) (hgoal : ∀ v, c.shared.wait r ≠ .resolved x v) :
    ∃ b c', Resolving x r b ∧ (sys S).next c b = some c' ∧ Awaited S x r c' ∧
      left x r c' < left x r c := by
  have hH := heard h.reachable
  cases hcall : (c.loc x).call with
  | some k => exact h.proceed hcall
  | none =>
    by_cases htask : (c.loc x).base.task = .rest
    · have hfree : (c.loc x).free := ⟨htask, h.runs⟩
      have howner := h.owner
      cases hwait : c.shared.wait r with
      | none =>
        rw [hwait] at howner
        cases howner
      | resolved y v =>
        rw [hwait] at howner
        cases howner
        exact absurd hwait (hgoal v)
      | arming y =>
        rw [hwait] at howner
        cases howner
        rcases hH.arming x r hwait with hx | hx <;> rw [hcall] at hx <;> cases hx
      | waiting y =>
        rw [hwait] at howner
        cases howner
        obtain ⟨z, hz⟩ := (hH.waiting x r hwait).resolve_left h.code
        have hne : x ≠ z := by
          rintro rfl
          rw [hcall] at hz
          cases hz
        have hs : Context.step S z c.shared (c.loc z) .step =
            some (Context.proceed z c.shared (c.loc z) (.notify r)) := by simp [Context.step, hz]
        refine ⟨.agent z .step, _, trivial, by simp [System.next, sys, hs]; rfl,
          ⟨h.reachable.agent trivial hs, ?_, ?_, ?_⟩, ?_⟩
        · exact (stores_of_step h.reachable (step_move hs)).code r h.code
        · simp [hwait, Wait.notify, Wait.owner]
        · rw [Config.set_loc_of_ne hne]
          exact h.runs
        · simp [left, Config.set_loc_of_ne hne, hwait, Wait.notify, waitRank]
      | woken y =>
        rw [hwait] at howner
        cases howner
        have hs : Context.step S x c.shared (c.loc x) (.settle r) =
            some (c.shared.read r (.resolved x (c.shared.code r)), c.loc x) := by
          simp [Context.step, hcall, perform, hfree, hwait]
        refine h.step (a := .settle r) ⟨rfl, rfl⟩ hs ?_ rfl ?_
        · simp [Shared.read, Wait.owner]
        · simp [Shared.read, left, hwait, waitRank]
      | polling y =>
        rw [hwait] at howner
        cases howner
        have hs : Context.step S x c.shared (c.loc x) (.poll r) =
            some (c.shared.read r (.resolved x (c.shared.code r)), c.loc x) := by
          simp [Context.step, hcall, perform, hfree, hwait, h.code]
        refine h.step (a := .poll r) ⟨rfl, rfl⟩ hs ?_ rfl ?_
        · simp [Shared.read, Wait.owner]
        · simp [Shared.read, left, hwait, waitRank]
    · exact h.advance hcall htask

/-! ### The memory that it reads -/

/-- Every parent in a browser takes one event about the end of each worker. -/
def Single (S : Setup ρ) (c : Config (Ctx ρ) (Shared ρ) Local) : Label (Ctx ρ) Act Empty → Prop
  | .agent x (.base b) => Worker.Single S.host ((toWorker S).config c) (.agent x b)
  | _ => True

instance (S : Setup ρ) (c : Config (Ctx ρ) (Shared ρ) Local) :
    (a : Label (Ctx ρ) Act Empty) → Decidable (Single S c a)
  | .agent x a =>
    match a with
    | .base b => inferInstanceAs (Decidable (Worker.Single S.host ((toWorker S).config c) (.agent x b)))
    | .step | .spawn _ _ | .enter | .current | .taskBegin | .taskFinished | .drain | .exit
    | .waitForExit _ | .settle _ | .poll _ | .dropHandle _ => .isTrue trivial

theorem single_below (h : (sys S).Reach (Single S) (init S) c) :
    (Worker.sys S.host).Reach (Worker.Single S.host) (Worker.init S.isWorker) ((toWorker S).config c) := by
  refine h.invariant (I := fun c => (Worker.sys S.host).Reach (Worker.Single S.host)
    (Worker.init S.isWorker) ((toWorker S).config c)) .refl ?_ (by rintro c ⟨⟩)
  intro c x a s l hc ih hP hs
  rcases (step_move hs).below with ⟨hbase, hlocal⟩ | ⟨b, hstep, hb⟩
  · rw [(toWorker S).config_set_of_eq hlocal, show (toWorker S).shared s = (toWorker S).shared c.shared
      from hbase]
    exact ih
  · rw [(toWorker S).config_set]
    refine ih.agent ?_ hstep
    rcases hb with rfl | hb
    · exact hP
    · cases b <;> trivial

theorem Move.reads (h : Move S x s l a s₁ l₁) : s₁.stale = s.stale ∨ s₁.base = s.base ∧
    ∃ r, s₁.stale = Function.update s.stale r (s.stale r || decide (0 < (s.base.exits r).frees)) := by
  cases h with
  | armed r | found r | reload r | loaded r | arm r | startPolling r | settle r | poll r | polled r =>
    exact .inr ⟨rfl, r, rfl⟩
  | _ => exact .inl rfl

theorem Access.dropped {live cleanup : Bool} {e e₁ : ExitState} {d d₁ : Option Duty}
    (h : Access live cleanup e d e₁ d₁) (hdropped : e₁.dropped = false) : e.dropped = false := by
  cases h with
  | drop | dropLast => cases hdropped
  | _ => exact hdropped

/-- Freed memory is not read before the `JoinHandle` is dropped. -/
theorem not_stale (h : (sys S).Reach (Single S) (init S) c) {r : ℕ}
    (hdropped : (c.shared.base.exits r).dropped = false) : c.shared.stale r = false := by
  revert hdropped
  refine h.invariant (I := fun c => (c.shared.base.exits r).dropped = false → c.shared.stale r = false)
    (fun _ => rfl) ?_ (by rintro c ⟨⟩)
  intro c x a s l hc ih _ hs hdropped
  have hmove := step_move hs
  rw [Config.set_shared] at hdropped ⊢
  have hbefore : (c.shared.base.exits r).dropped = false := by
    rcases hmove.below with ⟨hbase, -⟩ | ⟨b, hstep, -⟩
    · rwa [hbase] at hdropped
    · exact Access.dropped (access_of_step (worker_reachable hc.reachable) hstep r) hdropped
  rcases hmove.reads with heq | ⟨hbase, q, heq⟩ <;> rw [heq]
  · exact ih hbefore
  · by_cases hq : r = q
    · subst hq
      rw [Function.update_self, ih hbefore, Bool.false_or, decide_eq_false_iff_not]
      -- the memory is freed when both references are gone
      have hrun := single_below hc
      have hsound := (lives hrun.reachable r (begun_le_one hrun r)).sound (booked hrun.reachable r) fun hl =>
        ((handled hrun.reachable).live r hl).1
      intro hfrees
      have hgone : (c.shared.base.exits r).dropped = true := (hsound.freed hfrees).2
      rw [hbefore] at hgone
      cases hgone
    · rw [Function.update_of_ne hq]
      exact ih hbefore

theorem Resolving.dropped {y : Ctx ρ} {q r : ℕ} (hR : Resolving y q (.agent x a))
    (hs : step S x c.shared (c.loc x) a = some (s₁, l₁)) :
    (s₁.base.exits r).dropped = (c.shared.base.exits r).dropped := by
  have hmove := step_move hs
  cases a with
  | base b =>
    cases b with
    | step =>
      cases hmove with
      | base _ _ _ b bl hbase => exact (Worker.step_move hbase).dropped_step r
    | _ => exact hR.elim
  | step | settle | poll => cases hmove <;> rfl
  | _ => exact hR.elim

theorem Resolving.single {y : Ctx ρ} {r : ℕ} {b : Label (Ctx ρ) Act Empty} (hR : Resolving y r b) :
    Single S c b := by
  cases b with
  | agent x a =>
    cases a with
    | base b => cases b <;> trivial
    | _ => trivial
  | env e => cases e

/-- **`wait_for_exit_async` misses no code**, in every run in which a parent in a browser takes one event
about the end of each worker.  As long as it has read no freed memory, a promise waits only while there is
no code, or while the context that has stored it is about to notify, and what it gives is a code that has
been stored.  Once there is one, the context that waits runs, and the `JoinHandle` has not been dropped,
only calls that have begun have to go on. -/
theorem exit_wait (h : (sys S).Reach (Single S) (init S) c) (r : ℕ) :
    (c.shared.stale r = false →
      (∀ y, c.shared.wait r = .waiting y → c.shared.code r = 0 ∨
        ∃ z, (c.loc z).call = some (.notify r)) ∧
      ∀ y v, c.shared.wait r = .resolved y v → (v = 1 ∨ v = 2) ∧
        ∃ src, (src, v) ∈ (c.shared.base.exits r).signals) ∧
    ∀ y, (c.shared.wait r).owner = some y → c.shared.code r ≠ 0 → (c.loc y).base.phase.runs = true →
      (c.shared.base.exits r).dropped = false →
      ∃ c', (sys S).Reach (fun c b => Single S c b ∧ Resolving y r b) c c' ∧
        c'.shared.stale r = false ∧ ∃ v, c'.shared.wait r = .resolved y v := by
  have hH := heard h.reachable
  refine ⟨fun _ => ⟨fun y hy => hH.waiting y r hy, fun y v hy => ?_⟩, fun y howner hcode hruns hlive => ?_⟩
  · obtain ⟨-, src, hmem⟩ := hH.resolved y r v hy
    exact ⟨(coded (worker_reachable h.reachable)).stored r src v hmem, src, hmem⟩
  · obtain ⟨c', hreach, -, hgoal⟩ := System.reach_of_rank (M := sys S) (P := fun _ => Resolving y r)
      (I := Awaited S y r) (G := fun c => ∃ v, c.shared.wait r = .resolved y v) (left y r)
      (fun c hI hno => hI.progress fun v hv => hno ⟨v, hv⟩) ⟨h.reachable, hcode, howner, hruns⟩
    have hrun : (sys S).Reach (fun c b => Single S c b ∧ Resolving y r b) c c' :=
      hreach.mono fun _ _ hR => ⟨Resolving.single hR, hR⟩
    have hlive' : (c'.shared.base.exits r).dropped = false := by
      refine hrun.invariant (I := fun c => (c.shared.base.exits r).dropped = false) hlive ?_
        (by rintro c ⟨⟩)
      intro c x a s l _ ih hP hs
      exact (Resolving.dropped hP.2 hs).trans ih
    exact ⟨c', hrun, not_stale (h.trans (hrun.mono fun _ _ hP => hP.1)) hlive', hgoal⟩

/-- The main thread joins a worker that exits: the promise is woken, and gives 1. -/
theorem exit_wait_woken : ∃ c, (sys browser).Reach (Single browser) (init browser) c ∧
    c.shared.wait 0 = .waiting (.root ()) ∧ c.shared.code 0 = 1 ∧
    ∃ c', (sys browser).Reach (fun c b => Single browser c b ∧ Resolving (.root ()) 0 b) c c' ∧
      c'.shared.stale 0 = false ∧ ∃ v, c'.shared.wait 0 = .resolved (.root ()) v := by
  obtain ⟨c, hc, hend⟩ := System.exists_of_along (M := sys browser) (P := Single browser)
    (c := init browser)
    (p := fun c => decide (c.shared.wait 0 = .waiting (.root ()) ∧ c.shared.code 0 = 1 ∧
      (c.loc (.root ())).base.phase = .entered ∧ (c.shared.base.exits 0).dropped = false))
    [.agent (.root ()) (.spawn none "m.js"), .agent (.root ()) (.base .step),
      .agent (.root ()) (.base .step), .agent (.root ()) (.waitForExit 0), .agent (.root ()) .step,
      .agent (.worker 0) (.base .start), .agent (.worker 0) .enter, .agent (.worker 0) .drain,
      .agent (.root ()) (.base (.recv 0)), .agent (.root ()) (.base .step)] (by decide) (by decide)
  rw [decide_eq_true_eq] at hend
  obtain ⟨hwait, hcode, hphase, hlive⟩ := hend
  exact ⟨c, hc, hwait, hcode, (exit_wait hc 0).2 (.root ()) (by rw [hwait]; rfl)
    (by rw [hcode]; decide) (by rw [hphase]; rfl) hlive⟩

/-! ### Code 1 -/

/-- **A join that gives 1 comes after the tasks**, if it has read no freed memory and a parent in a browser
takes one event about the end of each worker.  The worker was created for the request that is joined.  Its
script has found no pending task, and as many tasks had finished then as had begun: in a browser, where the
script ends with that, all that it ever began. -/
theorem exit_after_tasks (h : (sys S).Reach (fun c b => Paired S c b ∧ Single S c b) (init S) c)
    {y : Ctx ρ} {r : ℕ} (hwait : c.shared.wait r = .resolved y 1) (_hstale : c.shared.stale r = false) :
    ∃ k w n, c.shared.base.workers[k]? = some w ∧ w.payload.exitStatePtr = r ∧
      (c.loc (.worker k)).drained = some n ∧ n ≤ (c.loc (.worker k)).finished ∧
      (S.host = .browser → (c.loc (.worker k)).finished = (c.loc (.worker k)).begun) := by
  have hc := worker_reachable h.reachable
  have hD := drained (h.mono fun _ _ hP => hP.1)
  obtain ⟨-, src, hmem⟩ := (heard h.reachable).resolved y r 1 hwait
  have hsource := (sourced hc).signals r src 1 hmem
  cases src with
  | none => cases hsource.2
  | some k =>
    obtain ⟨w, hw, hptr⟩ := (routed hc).worker r k hsource
    obtain ⟨n, hn⟩ := Option.ne_none_iff_exists'.1 (hD.reports k (.inr (.inr ⟨r, hmem⟩)))
    have hcounted := hD.counted (.worker k)
    refine ⟨k, w, n, hw, hptr, hn, hcounted.drained n hn, fun hhost => ?_⟩
    have hall := (hD.closed hhost (.worker k) n hn).2
    exact Nat.le_antisymm hcounted.le (hall ▸ hcounted.drained n hn)

theorem exit_after_tasks_two : ∃ c, (sys browser).Reach (fun c b => Paired browser c b ∧ Single browser c b)
      (init browser) c ∧
    c.shared.wait 0 = .resolved (.root ()) 1 ∧ (c.loc (.worker 0)).begun = 2 ∧
    ∃ k w n, c.shared.base.workers[k]? = some w ∧ w.payload.exitStatePtr = 0 ∧
      (c.loc (.worker k)).drained = some n ∧ n ≤ (c.loc (.worker k)).finished ∧
      (browser.host = .browser → (c.loc (.worker k)).finished = (c.loc (.worker k)).begun) := by
  obtain ⟨c, hc, hend⟩ := System.exists_of_along (M := sys browser)
    (P := fun c b => Paired browser c b ∧ Single browser c b) (c := init browser)
    (p := fun c => decide (c.shared.wait 0 = .resolved (.root ()) 1 ∧ (c.loc (.worker 0)).begun = 2 ∧
      c.shared.stale 0 = false))
    [.agent (.root ()) (.spawn none "m.js"), .agent (.root ()) (.base .step),
      .agent (.root ()) (.base .step), .agent (.worker 0) (.base .start), .agent (.worker 0) .enter,
      .agent (.worker 0) .taskBegin, .agent (.worker 0) .taskBegin, .agent (.worker 0) .taskFinished,
      .agent (.worker 0) .taskFinished, .agent (.worker 0) .drain,
      .agent (.root ()) (.base (.recv 0)), .agent (.root ()) (.base .step), .agent (.root ()) .step,
      .agent (.root ()) (.base .step), .agent (.root ()) (.waitForExit 0)] (by decide) (by decide)
  rw [decide_eq_true_eq] at hend
  exact ⟨c, hc, hend.1, hend.2.1, exit_after_tasks hc hend.1 hend.2.2⟩

/-! ### Freed memory -/

/-- **`wait_for_exit_async` reads no freed memory** while the `JoinHandle` exists, or is on its way to the
caller, in every run in which a parent in a browser takes one event about the end of each worker. -/
theorem reads_allocated (h : (sys S).Reach (Single S) (init S) c) {r : ℕ}
    (hdropped : (c.shared.base.exits r).dropped = false) : c.shared.stale r = false :=
  not_stale h hdropped

theorem reads_allocated_joined : ∃ c, (sys browser).Reach (Single browser) (init browser) c ∧
    c.shared.wait 0 = .resolved (.root ()) 1 ∧ (c.shared.base.exits 0).decrements = 1 ∧
    c.shared.stale 0 = false := by
  obtain ⟨c, hc, hend⟩ := System.exists_of_along (M := sys browser) (P := Single browser)
    (c := init browser)
    (p := fun c => decide (c.shared.wait 0 = .resolved (.root ()) 1 ∧
      (c.shared.base.exits 0).decrements = 1 ∧ (c.shared.base.exits 0).dropped = false))
    [.agent (.root ()) (.spawn none "m.js"), .agent (.root ()) (.base .step),
      .agent (.root ()) (.base .step), .agent (.root ()) (.waitForExit 0), .agent (.root ()) .step,
      .agent (.worker 0) (.base .start), .agent (.worker 0) .enter, .agent (.worker 0) .drain,
      .agent (.root ()) (.base (.recv 0)), .agent (.root ()) (.base .step), .agent (.root ()) .step,
      .agent (.root ()) (.base .step), .agent (.root ()) (.settle 0)] (by decide) (by decide)
  rw [decide_eq_true_eq] at hend
  exact ⟨c, hc, hend.1, hend.2.1, reads_allocated hc hend.2.2⟩

/-- A future that is dropped while it waits drops the `JoinHandle`, and its promise reads what the worker side
has freed. -/
theorem stale_after_drop : ∃ c, (sys browser).Reach (Single browser) (init browser) c ∧
    (c.shared.base.exits 0).dropped = true ∧ c.shared.stale 0 = true := by
  obtain ⟨c, hc, hend⟩ := System.exists_of_along (M := sys browser) (P := Single browser)
    (c := init browser)
    (p := fun c => decide ((c.shared.base.exits 0).dropped = true ∧ c.shared.stale 0 = true))
    [.agent (.root ()) (.spawn none "m.js"), .agent (.root ()) (.base .step),
      .agent (.root ()) (.base .step), .agent (.root ()) (.waitForExit 0), .agent (.root ()) .step,
      .agent (.root ()) (.dropHandle 0), .agent (.worker 0) (.base .start), .agent (.worker 0) .enter,
      .agent (.worker 0) .drain, .agent (.root ()) (.base (.recv 0)), .agent (.root ()) (.base .step),
      .agent (.root ()) .step, .agent (.root ()) (.base .step), .agent (.root ()) (.base .step),
      .agent (.root ()) (.settle 0)] (by decide) (by decide)
  rw [decide_eq_true_eq] at hend
  exact ⟨c, hc, hend⟩

end Context

end Worker

end WasmSafeThread
