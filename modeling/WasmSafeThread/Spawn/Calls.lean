import WasmSafeThread.Mpsc.Progress
import WasmSafeThread.Spawn.Delivery

/-!
# The channel between a thread and its `JoinHandle`

The channel has one receiver, who receives once, and the receive has no deadline.  So its calls have
none (`untimed`), no call waits for its turn (`turn`), and no blocked thread is in the list of the
condition variable while the owner of the `JoinHandle` may be in a `recv_async` (`no_blocked`).  A message
therefore wakes the receive (`mpsc_reach`, for `Mpsc.message_wakes`).
-/

namespace WasmSafeThread

namespace Spawn

variable {E V : Type*} [DecidableEq E] [DecidableEq V] {p : Program E V} {st : Status}
  {c : Config Party (Shared E V) (Local E V)} {i : Party} {a : Act} {s s₁ : Shared E V} {l l₁ : Local E V}
  {plat : Platform Party} {hook : PanicHook.Hook} {isMainThread : Bool}

omit [DecidableEq E] [DecidableEq V] in
/-- Only a `join` or `join_async` in progress receives. -/
theorem At.receives (h : At p st c) {y : Mpsc.Recv} (hy : (c.loc i).ch.pc.receives = some y) :
    i = .joiner ∧ ∃ j late, (c.loc .joiner).pc = .receiving j ∧ y = ⟨.recv j.how none, late⟩ := by
  cases i with
  | thread =>
    rw [h.thread.1] at hy
    cases hy
  | joiner =>
    refine ⟨rfl, ?_⟩
    have hready : (c.loc .joiner).ch.pc ≠ .ready := fun hready => by
      rw [hready] at hy
      cases hy
    have hat := h.joiner
    unfold JoinerAt at hat
    split at hat
    · exact absurd hat.1.ready hready
    · rename_i j hp
      obtain ⟨⟨late, hrecv⟩, -⟩ := hat
      rw [hy] at hrecv
      exact ⟨j, late, hp, Option.some.inj hrecv⟩
    · exact absurd hat.1.ready hready
    · exact absurd hat.1.ready hready
    · rw [hat.1] at hy
      cases hy
    · exact absurd hat.1 hready
    · exact hat.elim

omit [DecidableEq E] [DecidableEq V] in
theorem JoinerAt.no_send (h : JoinerAt p st s l) : l.ch.pc.sends = none := by
  have hready : l.ch.pc = .ready → l.ch.pc.sends = none := fun hp => by rw [hp]; rfl
  unfold JoinerAt at h
  split at h
  · exact hready h.1.ready
  · obtain ⟨⟨late, hrecv⟩, -⟩ := h
    cases hp : l.ch.pc <;> rw [hp] at hrecv <;> first | rfl | cases hrecv
  · exact hready h.1.ready
  · exact hready h.1.ready
  · exact h.2.1
  · exact hready h.1
  · exact h.elim

/-- **No call on the channel has a deadline.** -/
theorem untimed (h : (sys p).Reachable (init p plat hook isMainThread) c) (i : Party) :
    (c.loc i).ch.Untimed := by
  revert i
  refine h.invariant (I := fun c => ∀ i, (c.loc i).ch.Untimed) (fun i => ⟨⟨rfl, rfl, nofun⟩, nofun⟩) ?_ ?_
  · intro c i a s l hc ih _ hs j
    by_cases hj : j = i
    swap
    · rw [Config.set_loc_of_ne hj]
      exact ih j
    subst hj
    rw [Config.set_loc_self]
    obtain ⟨st, hat⟩ := at_inv hc
    rcases (toMpsc p).step hs with ⟨-, hl⟩ | ⟨b, hb⟩ | ⟨e, -, hl⟩
    · rw [show l.ch = (c.loc j).ch from hl]
      exact ih j
    · refine (Mpsc.step_move hb).untimed (Mpsc.shape (mpsc_reachable hc) j) (ih j) fun y hy => ?_
      obtain ⟨-, j', late, -, rfl⟩ := hat.receives hy
      exact ⟨j'.how, rfl⟩
    · rw [show l.ch = (c.loc j).ch from hl]
      exact ih j
  · exact fun c e s _ ih _ _ => ih

/-- No call on the channel waits for another receive to be suspended. -/
theorem turn (h : (sys p).Reachable (init p plat hook isMainThread) c) (i : Party) :
    Mpsc.turn i c.shared.ch (c.loc i).ch = true := by
  obtain ⟨st, hat⟩ := at_inv h
  rw [Mpsc.turn, Bool.or_eq_true, decide_eq_true_eq]
  cases hy : (c.loc i).ch.pc.receives with
  | none => exact .inl rfl
  | some y =>
    right
    obtain ⟨rfl, -⟩ := hat.receives hy
    cases hrun : c.shared.ch.running with
    | none => exact .inl rfl
    | some k =>
      obtain ⟨y', hy', -⟩ := (Mpsc.runs (mpsc_reachable h) k).1 hrun
      obtain ⟨rfl, -⟩ := hat.receives (i := k) hy'
      exact .inr rfl

theorem At.untimed (h : At p st c) : Mpsc.Untimed ((toMpsc p).config c) := by
  intro i y hy
  obtain ⟨-, j, late, -, rfl⟩ := h.receives hy
  exact ⟨j.how, rfl⟩

theorem not_borrowed (h : (sys p).Reachable (init p plat hook isMainThread) c)
    (hready : (c.loc .thread).ch.pc = .ready) (k : ℕ) : c.shared.ch.borrows k = ∅ := by
  obtain ⟨st, hat⟩ := at_inv h
  refine Finset.eq_empty_of_forall_notMem fun i hi => ?_
  obtain ⟨x, hx, -⟩ := Mpsc.borrower (mpsc_reachable h) hi
  have hx : (c.loc i).ch.pc.sends = some x := hx
  cases i with
  | thread =>
    rw [hready] at hx
    cases hx
  | joiner =>
    rw [hat.joiner.no_send] at hx
    cases hx

/-! ### A message wakes the receive -/

/-- `join_async` is in progress, or may be called. -/
def Pc.mayAwait : Pc E V → Bool
  | .handle | .receiving .async => true
  | _ => false

omit [DecidableEq E] [DecidableEq V] in
theorem received_mayAwait (j : Join) (b : Backend) (o : Mpsc.Outcome (Except E V)) :
    (received j b o).mayAwait = false := by
  cases b with
  | native => cases o <;> rfl
  | wasm => rcases o with (_ | _) | _ | _ | _ <;> cases j <;> rfl

/-- A `join_async` in progress was in progress before, or has just been called. -/
theorem Move.mayAwait (m : Move p i s l a s₁ l₁) (h : l₁.pc.mayAwait = true) : l.pc.mayAwait = true := by
  have hpanic : ∀ e, (panicHook s.panicHook e : Pc E V).mayAwait = false := fun e => by
    unfold panicHook
    split <;> rfl
  cases m with
  | below a b hb ha ch lch hs =>
    dsimp only [belowPc] at h
    split at h
    · rw [received_mayAwait] at h
      cases h
    · exact h
  | call b pc hready hb =>
    rcases hb with ⟨-, -, rfl⟩ | ⟨_, _, _, _, -, -, rfl⟩ | ⟨_, _, _, -, -, rfl⟩ | ⟨_, -, -, rfl⟩ <;> cases h
  | join j hp | joinMain j hp | discard hp => rw [hp]; rfl
  | consume => exact h
  | hookPanics e rest hp =>
    rw [Local.goto_pc] at h
    cases hb : s.backend <;> rw [hb] at h
    · cases h
    · rw [Spawn.hookPanics, hpanic] at h
      cases h
  | closurePanics e hp =>
    rw [Local.goto_pc] at h
    cases hb : s.backend <;> rw [hb] at h
    · cases h
    · rw [Spawn.closurePanics, hpanic] at h
      cases h
  | closureReturns v hp =>
    rw [Local.goto_pc] at h
    cases hb : s.backend <;> rw [hb] at h <;> cases h
  | _ => cases h

theorem Move.channel (m : Move p i s l a s₁ l₁) : s₁.ch = s.ch ∧ l₁.ch = l.ch ∨
    ∃ b, Mpsc.step i b s.ch l.ch = some (s₁.ch, l₁.ch) ∧ ∀ op, b = .recv op → l.pc = .handle := by
  cases m with
  | below a b hb ha ch lch hs =>
    refine .inr ⟨b, hs, fun op hop => ?_⟩
    rcases hb with ⟨rfl, -⟩ | rfl <;> cases hop
  | call b pc hready hb ch lch hs =>
    refine .inr ⟨b, hs, fun op hop => ?_⟩
    rcases hb with ⟨-, rfl, -⟩ | ⟨_, _, _, _, -, rfl, -⟩ | ⟨_, _, _, -, rfl, -⟩ | ⟨_, -, rfl, -⟩ <;> cases hop
  | join j hp hmain ch lch hs => exact .inr ⟨_, hs, fun _ _ => hp⟩
  | cancel hp ch lch hs => exact .inr ⟨_, hs, nofun⟩
  | consume ch lch hs => exact .inr ⟨_, hs, nofun⟩
  | _ => exact .inl ⟨rfl, rfl⟩

/-- **No blocked thread is registered** while a `join_async` is in progress. -/
theorem no_blocked (h : (sys p).Reachable (init p plat hook isMainThread) c)
    (hp : (c.loc .joiner).pc.mayAwait = true) : c.shared.ch.cv.waiting .sync = [] := by
  revert hp
  refine h.invariant (I := fun c => (c.loc .joiner).pc.mayAwait = true → c.shared.ch.cv.waiting .sync = [])
    (fun _ => rfl) ?_ ?_
  · intro c i a s l hc ih _ hs hp
    have m := step_move hs
    have hc' := hc.agent trivial hs
    have hbefore : (c.loc .joiner).pc.mayAwait = true := by
      by_cases hi : i = .joiner
      · subst hi
        rw [Config.set_loc_self] at hp
        exact m.mayAwait hp
      · rwa [Config.set_loc_of_ne (Ne.symm hi)] at hp
    have hnil := ih hbefore
    rw [Config.set_shared]
    rcases m.channel with ⟨hch, -⟩ | ⟨b, hb, -⟩
    · rw [hch]
      exact hnil
    rcases (Mpsc.step_move hb).condvar with ⟨hcv, -⟩ | ⟨b', hb'⟩
    · rw [hcv]
      exact hnil
    refine List.eq_nil_iff_forall_not_mem.2 fun e he => ?_
    have hch := mpsc_reachable hc
    have hshape := Condvar.shape (Mpsc.condvar_reachable hch) i
    rcases (Condvar.step_list hshape hb').mem_waiting he with hold | ⟨-, hwait⟩
    · rw [hnil] at hold
      cases hold
    · -- whoever registers there is in a `recv_sync`
      have hkind := Condvar.kind_of_waitsOn hwait
      obtain ⟨st, hat⟩ := at_inv hc'
      have hloc : (c.set i s l).loc i = l := Config.set_loc_self
      have hin : l.ch.cv.pc.inWait = true := Condvar.inWait_of_waitsOn hwait
      have hch' := mpsc_reachable hc'
      obtain ⟨y, hy⟩ := (Mpsc.shape hch' i).recvWaited (by
        show ((c.set i s l).loc i).ch.cv.pc.inWait = true
        rw [hloc]
        exact hin)
      have hy : ((c.set i s l).loc i).ch.pc = .recvWaited y := hy
      obtain ⟨rfl, j, late, hpc, rfl⟩ := hat.receives (i := i) (y := y) (by rw [hy]; rfl)
      rw [hpc] at hp
      cases j with
      | sync => cases hp
      | async =>
        have hkind' : (((toMpsc p).config (c.set .joiner s l)).loc .joiner).cv.pc.kind = some .sync := by
          show ((c.set .joiner s l).loc .joiner).ch.cv.pc.kind = some .sync
          rw [hloc]
          exact hkind
        have hop : (⟨.recv Join.async.how none, late⟩ : Mpsc.Recv).op = .recv .async none := rfl
        have hasync := Mpsc.wait_async hch' hy hop hkind'
        exact absurd (hasync.2 rfl) (by decide)
  · intro c e s _ ih _ hs hp
    rcases env_eq_some hs with ⟨e', q, -, rfl⟩ | ⟨hook, rfl⟩ | rfl <;> exact ih hp

/-- **Seen from the channel**, the receives come one after another, and no `notify_one` takes the entry of
a blocked thread while a task waits. -/
theorem mpsc_reach (h : (sys p).Reachable (init p plat hook isMainThread) c) :
    Mpsc.sys.Reach (fun c a => Mpsc.Sequential c a ∧ Mpsc.Direct c a) (Mpsc.init plat)
      ((toMpsc p).config c) := by
  have hdirect : ∀ {c i b}, (sys p).Reachable (init p plat hook isMainThread) c →
      Mpsc.Direct ((toMpsc p).config c) (.agent i b) := by
    intro c i b hc hpc hne _ i' x hx hasync _
    exfalso
    refine hne (no_blocked hc ?_)
    have hch := mpsc_reachable hc
    obtain ⟨st, hat⟩ := at_inv hc
    have hin := Condvar.inWait_of_sleeps hx
    obtain ⟨y, hy⟩ := (Mpsc.shape hch i').recvWaited hin
    have hy' : (c.loc i').ch.pc = .recvWaited y := hy
    obtain ⟨rfl, j, late, hpc', rfl⟩ := hat.receives (i := i') (y := y) (by rw [hy']; rfl)
    have hkind := Condvar.kind_of_waitsOn (Condvar.waitsOn_of_sleeps hx)
    rw [hasync] at hkind
    have hhow := (Mpsc.wait_async hch (i := .joiner) hy rfl hkind).1 rfl
    rw [hpc']
    cases j with
    | sync => cases hhow
    | async => rfl
  refine h.invariant (I := fun c => Mpsc.sys.Reach (fun c a => Mpsc.Sequential c a ∧ Mpsc.Direct c a)
    (Mpsc.init plat) ((toMpsc p).config c)) .refl ?_ ?_
  · intro c i a s l hc ih _ hs
    rw [Projection.config_set]
    rcases (step_move hs).channel with ⟨hch, hl⟩ | ⟨b, hb, hrecv⟩
    · have heq : ((toMpsc p).config c).set i ((toMpsc p).shared s) ((toMpsc p).loc l) = (toMpsc p).config c := by
        rw [← Projection.config_set, Projection.config_set_of_eq _ hl,
          show (toMpsc p).shared s = (toMpsc p).shared c.shared from hch]
        rfl
      rw [heq]
      exact ih
    · refine ih.agent (a := b) ⟨?_, hdirect hc⟩ hb
      cases b with
      | recv op =>
        -- the `JoinHandle` is consumed by its first receive
        obtain ⟨st, hat⟩ := at_inv hc
        have hp := hrecv op rfl
        cases i with
        | thread =>
          have hthread := hat.thread.2
          rw [hp] at hthread
          exact hthread.elim
        | joiner =>
          have hjoiner := hat.joiner
          rw [JoinerAt, hp] at hjoiner
          exact hjoiner.1.receiving
      | _ => trivial
  · intro c e s hc ih _ hs
    rcases env_eq_some hs with ⟨e', q, hq, rfl⟩ | ⟨hook, rfl⟩ | rfl
    · refine ih.tail (a := .env e') ⟨trivial, trivial⟩ ?_
      simp [System.next, Mpsc.sys, Projection.config, toMpsc, hq]
    · exact ih
    · exact ih

end Spawn

end WasmSafeThread
