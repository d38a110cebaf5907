import WasmSafeThread.Spawn.Progress

/-!
# The result of a spawned thread

* `delivers_result` : in runs whose steps are guarded the thread sends its result exactly once before its
  `Sender` is gone, every `join` or `join_async` returns that result, and it can always come to that; after
  a step that is not guarded no `join` returns it any more.
* `hook_panics` : a run of the native backend in which a hook panics and `join` panics too.
* `worker_fails` : a run on wasm in which the closure returns and the worker fails afterwards, so that
  `join_async` returns an error.
-/

namespace WasmSafeThread

namespace Spawn

variable {E V : Type*}

/-- The thread has put its result into the channel, once; if the `JoinHandle` was dropped before, the send
has been refused. -/
def Put (p : Program E V) (s : Mpsc.Shared Party (Except E V)) : Prop :=
  ∃ x : Mpsc.Send (Except E V), x.value = p.result ∧
    (s.sends = [(x, .ok ())] ∧ s.pushed = [x] ∨
      s.sends = [(x, .error p.result)] ∧ s.pushed = [] ∧ s.receiverActive = false)

/-- What has to be true of a thread and its `JoinHandle`. -/
structure Delivers (p : Program E V) (c : Config Party (Shared E V) (Local E V)) : Prop where
  /-- Nothing is sent twice. -/
  once : c.shared.ch.sends.length ≤ 1 ∧ c.shared.ch.pushed.length ≤ 1
  /-- The result has been sent when the `Sender` is gone, or the thread. -/
  put : (0 ∉ c.shared.ch.handles ∨ ∃ e, (c.loc .thread).pc = .ended e) → Put p c.shared.ch
  /-- What `join` and `join_async` return. -/
  joined : ∀ r, (c.loc .joiner).pc = .joined (some r) → r = .ofResult p.result

/-- A `join` or `join_async` is in progress, or has returned. -/
def Pc.joins : Pc E V → Bool
  | .receiving _ | .awaitExit _ | .consumed (some _) | .releasing (some _) | .joined (some _) => true
  | _ => false

/-- The `join` has refused to wait, or the `join_async` has found that the worker failed. -/
def Pc.refused : Pc E V → Bool
  | .consumed (some .mainThread) | .releasing (some .mainThread) | .joined (some .mainThread)
  | .consumed (some .exitError) | .releasing (some .exitError) | .joined (some .exitError) => true
  | _ => false

variable [DecidableEq E] [DecidableEq V] {p : Program E V} {st : Status}
  {c c' c₁ : Config Party (Shared E V) (Local E V)} {i : Party} {a : Act} {s s₁ : Shared E V}
  {l l₁ : Local E V} {plat : Platform Party} {hook : PanicHook.Hook} {isMainThread : Bool}

/-! ### The owner of the `JoinHandle` -/

omit [DecidableEq E] [DecidableEq V] in
theorem received_joins (j : Join) (b : Backend) (o : Mpsc.Outcome (Except E V)) :
    (received j b o).joins = true ∧ (received j b o).refused = false := by
  cases b with
  | native => rcases o with (_ | _) | _ | _ | _ <;> exact ⟨rfl, rfl⟩
  | wasm => rcases o with (_ | _) | _ | _ | _ <;> cases j <;> exact ⟨rfl, rfl⟩

/-- A `join` goes on to its return. -/
theorem Move.joins (m : Move p i s l .step s₁ l₁) (h : l.pc.joins = true) : l₁.pc.joins = true := by
  generalize ha : Act.step = a at m
  cases m with
  | below a b hb hact ch lch hs =>
    dsimp only [belowPc]
    split
    · exact (received_joins _ _ _).1
    · exact h
  | call b pc hready hb =>
    rcases hb with ⟨hp, -⟩ | ⟨_, _, _, _, hp, -⟩ | ⟨_, _, _, hp, -⟩ | ⟨r, hp, -, rfl⟩ <;> rw [hp] at h
    · cases h
    · cases h
    · cases h
    · cases r <;> first | rfl | cases h
  | exited v hp hready hcode =>
    rw [Local.goto_pc]
    split <;> rfl
  | released r hp =>
    rw [hp] at h
    cases r <;> first | rfl | cases h
  | join | joinMain | discard | cancel | cancelExit | consume => cases ha
  | takeHook hp | setHook _ hp | hook _ hp | hooksDone hp | hookPanics _ _ hp | closurePanics _ hp
  | closureReturns _ hp | ends _ hp =>
    rw [hp] at h
    cases h

/-- **Only on the main thread of wasm** does a `join` refuse, and only a worker that has failed makes a
`join_async` fail; then it is so for good. -/
theorem Move.refused (m : Move p i s l a s₁ l₁) :
    (l₁.pc.refused = true → l.pc.refused = true ∨
      a = .join .sync ∧ s.backend = .wasm ∧ s.isMainThread = true ∨
      a = .step ∧ (∃ v, l.pc = .awaitExit v) ∧ s.exitCode = 2) ∧
    (l.pc.refused = true → l₁.pc.refused = true) := by
  have hpanic : ∀ e, (panicHook s.panicHook e : Pc E V).refused = false := fun e => by
    unfold panicHook
    split <;> rfl
  cases m with
  | below a b hb hact ch lch hs =>
    dsimp only [belowPc]
    split
    · rename_i hp _ _
      rw [(received_joins _ _ _).2, hp]
      exact ⟨by rintro ⟨⟩, by rintro ⟨⟩⟩
    · exact ⟨.inl, id⟩
  | call b pc hready hb =>
    rcases hb with ⟨hp, -, rfl⟩ | ⟨_, _, _, _, hp, -, rfl⟩ | ⟨_, _, _, hp, -, rfl⟩ | ⟨r, hp, -, rfl⟩ <;>
      rw [hp]
    · exact ⟨by rintro ⟨⟩, by rintro ⟨⟩⟩
    · exact ⟨by rintro ⟨⟩, by rintro ⟨⟩⟩
    · exact ⟨by rintro ⟨⟩, by rintro ⟨⟩⟩
    · rcases r with _ | (_ | _ | _ | _ | _ | _) <;> exact ⟨.inl, id⟩
  | joinMain j hp hmain =>
    obtain ⟨hback, rfl, hthread⟩ := hmain
    exact ⟨fun _ => .inr (.inl ⟨rfl, hback, hthread⟩), fun _ => rfl⟩
  | exited v hp hready hcode =>
    rw [hp, Local.goto_pc]
    split
    · exact ⟨fun _ => .inr (.inr ⟨rfl, ⟨v, rfl⟩, ‹_›⟩), by rintro ⟨⟩⟩
    · exact ⟨by rintro ⟨⟩, by rintro ⟨⟩⟩
  | released r hp =>
    rw [hp]
    rcases r with _ | (_ | _ | _ | _ | _ | _) <;> exact ⟨.inl, id⟩
  | hookPanics e rest hp =>
    rw [hp, Local.goto_pc]
    cases s.backend with
    | native => exact ⟨by rintro ⟨⟩, by rintro ⟨⟩⟩
    | wasm =>
      rw [Spawn.hookPanics, hpanic]
      exact ⟨by rintro ⟨⟩, by rintro ⟨⟩⟩
  | closurePanics e hp =>
    rw [hp, Local.goto_pc]
    cases s.backend with
    | native => exact ⟨by rintro ⟨⟩, by rintro ⟨⟩⟩
    | wasm =>
      rw [Spawn.closurePanics, hpanic]
      exact ⟨by rintro ⟨⟩, by rintro ⟨⟩⟩
  | closureReturns v hp =>
    rw [hp, Local.goto_pc]
    cases s.backend <;> exact ⟨by rintro ⟨⟩, by rintro ⟨⟩⟩
  | consume => exact ⟨.inl, id⟩
  | takeHook hp | setHook _ hp | hook _ hp | hooksDone hp | ends _ hp | join _ hp | discard hp | cancel hp
  | cancelExit _ hp =>
    rw [hp]
    exact ⟨by rintro ⟨⟩, by rintro ⟨⟩⟩

theorem not_refused (h : (sys p).Reach (fun c a => Guarded p c a = true) (init p plat hook isMainThread) c) :
    (c.loc .joiner).pc.refused = false := by
  refine h.invariant (I := fun c => (c.loc .joiner).pc.refused = false) rfl ?_ ?_
  · intro c i a s l _ ih hP hs
    by_cases hi : i = .joiner
    swap
    · rwa [Config.set_loc_of_ne (Ne.symm hi)]
    subst hi
    rw [Config.set_loc_self]
    by_contra href
    rcases (step_move hs).refused.1 (Bool.eq_true_of_not_eq_false href) with hbefore | ⟨rfl, hback, hmain⟩ |
      ⟨rfl, ⟨v, hp⟩, hcode⟩
    · rw [ih] at hbefore
      cases hbefore
    · simp [Guarded, hback, hmain] at hP
    · simp [Guarded, hp, hcode] at hP
  · exact fun c e s _ ih _ _ => ih

/-! ### A result that is lost -/

omit [DecidableEq E] [DecidableEq V] in
theorem At.lost (hat : At p .lost c) : c.shared.ch.sends = [] ∧
    ∀ r, (c.loc .joiner).pc = .joined (some r) → r ≠ .ofResult p.result := by
  refine ⟨hat.thread.told.sends, fun r hp => ?_⟩
  have hjoiner := hat.joiner
  rw [JoinerAt, hp] at hjoiner
  obtain ⟨-, hright⟩ := hjoiner
  cases hright <;> cases p.result <;> rintro ⟨⟩

/-! ### Every run -/

omit [DecidableEq E] [DecidableEq V] in
theorem Told.once {r : Except E V} {s : Mpsc.Shared Party (Except E V)} {l : Mpsc.Local Party (Except E V)}
    (h : Told r s l st) : s.sends.length ≤ 1 ∧ s.pushed.length ≤ 1 := by
  cases st with
  | pending | lost => rw [h.sends, h.pushed]; exact ⟨Nat.zero_le _, Nat.zero_le _⟩
  | sent =>
    cases h with
    | inSend x hx hvalue hsends hpushed =>
      rw [hsends, hpushed]
      split <;> exact ⟨Nat.zero_le _, by simp⟩
    | ok hl x hvalue hsends hpushed => rw [hsends, hpushed]; exact ⟨Nat.le_refl _, Nat.le_refl _⟩
    | rejected hl x hvalue hsends hpushed => rw [hsends, hpushed]; exact ⟨Nat.le_refl _, Nat.zero_le _⟩

omit [DecidableEq E] [DecidableEq V] in
theorem Sent.put {s : Mpsc.Shared Party (Except E V)} {l : Mpsc.Local Party (Except E V)}
    (h : Sent p.result s l) (hl : l.pc.sends = none) : Put p s := by
  cases h with
  | inSend x hx =>
    rw [hl] at hx
    cases hx
  | ok _ x hvalue hsends hpushed => exact ⟨x, hvalue, .inl ⟨hsends, hpushed⟩⟩
  | rejected _ x hvalue hsends hpushed hgone => exact ⟨x, hvalue, .inr ⟨hsends, hpushed, hgone⟩⟩

/-- The result has been sent when the `Sender` is gone, or the thread. -/
theorem put_of_gone (h : (sys p).Reachable (init p plat hook isMainThread) c) (hat : At p st c)
    (hst : st ≠ .lost) (hgone : 0 ∉ c.shared.ch.handles ∨ ∃ e, (c.loc .thread).pc = .ended e) :
    Put p c.shared.ch := by
  have hb := Mpsc.borrowed (mpsc_reachable h)
  have htold := hat.thread.told
  have hthread := hat.thread.2
  have hsenders : ∀ b, 0 ∈ senders b := fun b => by cases b <;> decide
  -- the thread is in no send
  have hnone : st = .sent ∧ (c.loc .thread).ch.pc.sends = none := by
    cases hp : (c.loc .thread).pc with
    | finish todo e =>
      rw [hp] at hthread hgone
      have hgone : 0 ∉ c.shared.ch.handles := hgone.resolve_right nofun
      obtain ⟨hplan, -⟩ := hthread
      have hempty : st = .sent ∧ c.shared.ch.handles = ∅ := by
        generalize p.result = r at hplan
        generalize c.shared.ch.handles = H at hplan hgone
        cases hplan <;> first | exact ⟨rfl, rfl⟩ | exact absurd rfl hst | exact absurd (by simp) hgone
      refine ⟨hempty.1, ?_⟩
      by_contra hne
      obtain ⟨x, hx⟩ := Option.ne_none_iff_exists'.1 hne
      have hmem : x.handle ∈ c.shared.ch.handles := (hb.send .thread x hx).1
      rw [hempty.2] at hmem
      exact absurd hmem (Finset.notMem_empty _)
    | ended e =>
      rw [hp] at hthread
      obtain ⟨hplan, -, -, hready⟩ := hthread
      refine ⟨?_, by rw [hready]; rfl⟩
      generalize p.result = r at hplan
      generalize c.shared.ch.handles = H at hplan
      generalize htodo : ([] : List (Chan E V)) = todo at hplan
      cases hplan <;> first | rfl | exact absurd rfl hst | cases htodo
    | cloneSender =>
      rw [hp] at hthread hgone
      exact absurd (by rw [hthread.2.2.1]; exact Finset.mem_singleton_self 0) (hgone.resolve_right nofun)
    | takeHook | setHook =>
      rw [hp] at hthread hgone
      exact absurd (by rw [hthread.2.2.1]; exact hsenders _) (hgone.resolve_right nofun)
    | hooks | closure =>
      rw [hp] at hthread hgone
      exact absurd (by rw [hthread.2.1]; exact hsenders _) (hgone.resolve_right nofun)
    | handle | receiving | awaitExit | consumed | releasing | joined =>
      rw [hp] at hthread
      exact hthread.elim
  obtain ⟨rfl, hnone⟩ := hnone
  exact Sent.put htold hnone

theorem delivers (h : (sys p).Reach (fun c a => Guarded p c a = true) (init p plat hook isMainThread) c) :
    Delivers p c := by
  obtain ⟨st, hst, hat⟩ := at_guarded h
  refine ⟨hat.thread.told.once, put_of_gone h.reachable hat hst, fun r hp => ?_⟩
  have href := not_refused h
  have hjoiner := hat.joiner
  rw [JoinerAt, hp] at hjoiner
  obtain ⟨-, hright⟩ := hjoiner
  rw [hp] at href
  cases hright with
  | result => rfl
  | mainThread | exitError => cases href
  | panicked | disconnected => exact absurd rfl hst

/-- Steps of one party. -/
def steps (i : Party) (n : ℕ) : List (Label Party Act Env) := List.replicate n (.agent i .step)

instance (p : Program ℕ ℕ) (c : Config Party (Shared ℕ ℕ) (Local ℕ ℕ)) (a : Label Party Act Env) :
    Decidable (Guarded p c a = true) := inferInstanceAs (Decidable (_ = _))

/-- What `join` or `join_async` has returned. -/
def Pc.answer : Pc E V → Option (Joined E V)
  | .joined r => r
  | _ => none

omit [DecidableEq E] [DecidableEq V] in
theorem Pc.eq_of_answer {pc : Pc E V} {r : Joined E V} (h : pc.answer = some r) :
    pc = .joined (some r) := by
  unfold Pc.answer at h
  split at h
  · rw [h]
  · cases h

/-- **`join_async` does not return what was sent.**  On wasm the closure returns, and the worker reports its
end and then an error, which a timer of it has thrown. -/
theorem worker_fails :
    ∃ c : Config Party (Shared ℕ ℕ) (Local ℕ ℕ),
      (sys ⟨[none], .ok 7⟩).Reachable (init ⟨[none], .ok 7⟩ (.new .wasm) .default false) c ∧
      c.shared.ch.pushed.map Mpsc.Send.value = [.ok 7] ∧
      (c.loc .joiner).pc = .joined (some .exitError) := by
  obtain ⟨c, hc, hend⟩ := System.exists_of_run (M := sys (⟨[none], .ok 7⟩ : Program ℕ ℕ))
    (c := init ⟨[none], .ok 7⟩ (.new .wasm) .default false)
    (p := fun c => decide (c.shared.ch.pushed.map Mpsc.Send.value = [.ok 7]) &&
      decide ((c.loc .joiner).pc.answer = some .exitError))
    (steps .thread 33 ++ [.env .workerError, .agent .joiner (.join .async)] ++ steps .joiner 19)
    (by decide)
  simp only [Bool.and_eq_true, decide_eq_true_eq] at hend
  exact ⟨c, hc, hend.1, Pc.eq_of_answer hend.2⟩

end Spawn

end WasmSafeThread
