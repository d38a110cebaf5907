import WasmSafeThread.Agents.Linearization
import WasmSafeThread.Mpsc.Disconnect
import WasmSafeThread.Mpsc.Steps

/-!
# The channel, seen from outside

A channel is a queue, a number of senders and a receiver that is there or not (`Channel`).  Its
operations are atomic (`channel`): a send puts its value at the end of the queue, or gets it back when
the receiver is gone; a receive takes the first value, and reports `Disconnected` when there is none and
no sender is left.  `Empty` and `Timeout` are answers that it may give in every state.

* `occurs` : what is seen of an operation on the channel of the code.
* `Holds` : the state of the object in a configuration.  A send takes effect at its second look at
  `receiver_active`, under the lock, one operation before it pushes its value.
* `linearizable_channel` : **every history of the channel is one of the object.**
-/

namespace WasmSafeThread

namespace Mpsc

variable {ι T : Type*}

/-! ### The object -/

/-- The operations on a channel. -/
inductive ChannelOp (T : Type*) where
  | send (t : T)
  | recv (op : RecvOp)
  | clone
  | dropSender
  | dropReceiver
  deriving DecidableEq

/-- Their results. -/
inductive ChannelResult (T : Type*) where
  /-- `Ok(())`. -/
  | sent
  /-- `Err(SendError(t))`. -/
  | refused (t : T)
  | received (r : Outcome T)
  | cloned
  | dropped
  deriving DecidableEq

/-- A channel. -/
structure Channel (T : Type*) where
  queue : List T
  senders : ℕ
  /-- There is a receiver. -/
  receiver : Bool

/-- What the operations do. -/
inductive ChannelApply : ChannelOp T → Channel T → ChannelResult T → Channel T → Prop
  | send {x : Channel T} (t : T) : x.receiver = true →
      ChannelApply (.send t) x .sent { x with queue := x.queue ++ [t] }
  /-- The value comes back. -/
  | refused {x : Channel T} (t : T) : x.receiver = false →
      ChannelApply (.send t) x (.refused t) x
  | recv {x : Channel T} {t : T} {q : List T} (op : RecvOp) : x.queue = t :: q →
      ChannelApply (.recv op) x (.received (.ok t)) { x with queue := q }
  | disconnected {x : Channel T} (op : RecvOp) : x.queue = [] → x.senders = 0 →
      ChannelApply (.recv op) x (.received .disconnected) x
  /-- A `try_recv` gives up at any time. -/
  | empty {x : Channel T} : ChannelApply (.recv .tryRecv) x (.received .empty) x
  /-- So does a receive with a deadline. -/
  | timeout {x : Channel T} (how : How) (d : ℕ) :
      ChannelApply (.recv (.recv how (some d))) x (.received .timeout) x
  | clone {x : Channel T} : 0 < x.senders →
      ChannelApply .clone x .cloned { x with senders := x.senders + 1 }
  | dropSender {x : Channel T} : 0 < x.senders →
      ChannelApply .dropSender x .dropped { x with senders := x.senders - 1 }
  | dropReceiver {x : Channel T} : x.receiver = true →
      ChannelApply .dropReceiver x .dropped { x with receiver := false }

/-- The channel as an object. -/
def channel : Object ι (ChannelOp T) (ChannelResult T) (Channel T) := ⟨fun _ => ChannelApply⟩

/-! ### What is seen of the channel -/

/-- Where an agent is with its operation. -/
def Pc.stage : Pc T → WasmSafeThread.Phase (ChannelOp T) (ChannelResult T)
  | .ready => .idle
  | .sendLoad x | .sendLock x | .sendRecheck x => .called (.send x.value)
  | .sendPush _ | .sendDrop _ | .sendNotify _ | .sendReturn _ => .done .sent
  | .sendReject x | .sendErr x => .done (.refused x.value)
  | .recvLock y | .recvPop y | .recvLoad y | .recvWait y | .recvWaited y => .called (.recv y.op)
  | .recvDrop _ r | .recvReturn _ r => .done (.received r)
  | .senderNotify | .senderReturn | .receiverNotify | .receiverReturn => .done .dropped

/-- The result of a call that ends here. -/
def Pc.result (p : Pc T) : List (ChannelResult T) :=
  match p.stage with
  | .done r => [r]
  | _ => []

variable [DecidableEq ι] [DecidableEq T]

/-- What is seen of an operation of a call in progress. -/
def ended (i : ι) (l l₁ : Local ι T) : List (Occurrence ι (ChannelOp T) (ChannelResult T)) :=
  if l₁.pc = .ready then l.pc.result.map (.ret i) else []

/-- What is seen when agent `i` performs `a`. -/
def occurs (i : ι) (a : Act T) (s : Shared ι T) (l : Local ι T) :
    List (Occurrence ι (ChannelOp T) (ChannelResult T)) :=
  match a with
  | .send _ _ t => [.call i (.send t)]
  | .recv op => [.call i (.recv op)]
  | .clone _ => [.call i .clone, .ret i .cloned]
  | .dropSender _ =>
    -- only the last one has to notify
    if s.senderCount = 1 then [.call i .dropSender] else [.call i .dropSender, .ret i .dropped]
  | .dropReceiver => [.call i .dropReceiver]
  | .step | .spurious =>
    match step i a s l with
    | some (_, l₁) => ended i l l₁
    | none => []
  | .cancel => [.abort i]
  | .consume => []

variable {i j : ι} {a : Act T} {s s₁ : Shared ι T} {l l₁ : Local ι T} {plat : Platform ι}
  {c : Config ι (Shared ι T) (Local ι T)} {x y : Channel T} {q : List T}

/-! ### The state of the object -/

/-- `q` is the value of the send that is about to push, if there is one. -/
structure Pending (c : Config ι (Shared ι T) (Local ι T)) (q : List T) : Prop where
  push : ∀ i v, (c.loc i).pc = .sendPush v → q = [v.value]
  none : (∀ i v, (c.loc i).pc ≠ .sendPush v) → q = []

/-- The object in a configuration. -/
structure Holds (c : Config ι (Shared ι T) (Local ι T)) (x : Channel T) : Prop where
  queue : ∃ q, Pending c q ∧ x.queue = c.shared.queue ++ q
  senders : x.senders = c.shared.senderCount
  receiver : x.receiver = c.shared.receiverActive

omit [DecidableEq T] in
theorem Pending.set (h : Pending c q) (hpc : ∀ v, l₁.pc = .sendPush v ↔ (c.loc i).pc = .sendPush v) :
    Pending (c.set i s₁ l₁) q := by
  have hloc : ∀ j v, ((c.set i s₁ l₁).loc j).pc = .sendPush v ↔ (c.loc j).pc = .sendPush v := by
    intro j v
    by_cases hj : j = i
    · subst hj
      rw [Config.set_loc_self, hpc]
    · rw [Config.set_loc_of_ne hj]
  exact ⟨fun j v hj => h.push j v ((hloc j v).1 hj), fun hnone => h.none fun j v hj =>
    hnone j v ((hloc j v).2 hj)⟩

theorem not_push (hc : sys.Reachable (init plat) c) (hi : (c.loc i).hasGuard = true) {v : Send T}
    (hj : (c.loc j).pc = .sendPush v) : j = i := by
  have hl := shape hc j
  rw [Local.Shape, hj] at hl
  exact guard_unique hc (by rw [Local.hasGuard, hl.2]; rfl) hi

theorem pending_nil (hc : sys.Reachable (init plat) c) (hi : (c.loc i).hasGuard = true)
    (hne : ∀ v, (c.loc i).pc ≠ .sendPush v) (hq : Pending c q) : q = [] := by
  refine hq.none fun j v hj => ?_
  have hji := not_push hc hi hj
  subst hji
  exact hne v hj

theorem pending_set (hc : sys.Reachable (init plat) c) (hi : (c.loc i).hasGuard = true)
    (hne : ∀ v, l₁.pc ≠ .sendPush v) : Pending (c.set i s₁ l₁) [] := by
  refine ⟨fun j v hj => ?_, fun _ => rfl⟩
  by_cases hji : j = i
  · subst hji
    rw [Config.set_loc_self] at hj
    exact absurd hj (hne v)
  · rw [Config.set_loc_of_ne hji] at hj
    exact absurd (not_push hc hi hj) hji

theorem Holds.queue_eq (h : Holds c x) (hc : sys.Reachable (init plat) c)
    (hi : (c.loc i).hasGuard = true) (hne : ∀ v, (c.loc i).pc ≠ .sendPush v) :
    x.queue = c.shared.queue := by
  obtain ⟨q, hq, hxq⟩ := h.queue
  rw [hxq, pending_nil hc hi hne hq, List.append_nil]

omit [DecidableEq T] in
theorem Holds.same (h : Holds c x) (hpc : ∀ v, l₁.pc = .sendPush v ↔ (c.loc i).pc = .sendPush v)
    (hqueue : s₁.queue = c.shared.queue) (hsenders : s₁.senderCount = c.shared.senderCount)
    (hreceiver : s₁.receiverActive = c.shared.receiverActive) : Holds (c.set i s₁ l₁) x := by
  obtain ⟨q, hq, hxq⟩ := h.queue
  exact ⟨⟨q, hq.set hpc, by rw [Config.set_shared, hqueue]; exact hxq⟩, h.senders.trans hsenders.symm,
    h.receiver.trans hreceiver.symm⟩

/-! ### Every operation is a turn at the object -/

/-- The turn that an operation of agent `i` should be. -/
def IsTurn (i : ι) (c : Config ι (Shared ι T) (Local ι T)) (x : Channel T)
    (e : List (Occurrence ι (ChannelOp T) (ChannelResult T))) (s₁ : Shared ι T) (l₁ : Local ι T) : Prop :=
  ∃ y, Holds (c.set i s₁ l₁) y ∧ channel.Turn i x (c.loc i).pc.stage e y l₁.pc.stage

theorem IsTurn.returns (h : Holds c x) {r : ChannelResult T} (hstage : (c.loc i).pc.stage = .done r)
    (hpush : ∀ v, (c.loc i).pc ≠ .sendPush v) (hready : l₁.pc = .ready) (hqueue : s₁.queue = c.shared.queue)
    (hsenders : s₁.senderCount = c.shared.senderCount)
    (hreceiver : s₁.receiverActive = c.shared.receiverActive) :
    IsTurn i c x (ended i (c.loc i) l₁) s₁ l₁ := by
  refine ⟨x, h.same (fun v => ?_) hqueue hsenders hreceiver, ?_⟩
  · rw [hready]
    exact ⟨(by rintro ⟨⟩), fun hv => absurd hv (hpush v)⟩
  · rw [ended, if_pos hready, hready, Pc.result, hstage]
    exact .returns

theorem IsTurn.goes_on (h : Holds c x) (hready : l₁.pc ≠ .ready)
    (hstage : channel.Turn i x (c.loc i).pc.stage [] x l₁.pc.stage)
    (hpc : ∀ v, l₁.pc = .sendPush v ↔ (c.loc i).pc = .sendPush v)
    (hqueue : s₁.queue = c.shared.queue) (hsenders : s₁.senderCount = c.shared.senderCount)
    (hreceiver : s₁.receiverActive = c.shared.receiverActive) :
    IsTurn i c x (ended i (c.loc i) l₁) s₁ l₁ := by
  refine ⟨x, h.same hpc hqueue hsenders hreceiver, ?_⟩
  rw [ended, if_neg hready]
  exact hstage

omit [DecidableEq ι] [DecidableEq T] in
theorem Calls.stage {canBlock : Bool} {b : Condvar.Act (Option T) (List T)} {p p₁ : Pc T}
    (h : Calls canBlock p b p₁) :
    p₁.stage = p.stage ∧ (p₁ = .ready → p = .ready) ∧ ∀ v, p₁ = .sendPush v ↔ p = .sendPush v := by
  cases h <;> exact ⟨rfl, by simp, by simp⟩

theorem Move.isTurn (hc : sys.Reachable (init plat) c) (m : Move i c.shared (c.loc i) s₁ l₁)
    (h : Holds c x) (hne : (c.loc i).pc ≠ .ready)
    (hstay : (c.loc i).cv.atRest = true ∨ l₁.pc = (c.loc i).pc) :
    IsTurn i c x (ended i (c.loc i) l₁) s₁ l₁ := by
  cases m with
  | below b hb cv lcv hcv running =>
    refine .goes_on h hne .stay (fun v => Iff.rfl) (Condvar.step_inner hcv ?_) rfl rfl
    rcases hb with ⟨rfl, -⟩ | rfl <;> rintro _ ⟨⟩
  | call b p hcall cv lcv hcv running =>
    obtain ⟨hstage, hready, hpush⟩ := hcall.stage
    refine .goes_on h (fun hp => hne (hready hp)) ?_ hpush (Condvar.step_inner hcv hcall.not_access) rfl rfl
    rw [hstage]
    exact .stay
  | reads p hrest hreads running =>
    generalize hp : (c.loc i).pc = q at hreads
    have hreceiver := h.receiver
    have hsenders := h.senders
    cases hreads with
    | sendLoad v hactive | wait v hcount how deadline hy | notified v =>
      exact .goes_on h (by simp) (by rw [hp]; exact .stay) (by simp [hp]) rfl rfl rfl
    | sendLoadGone v hgone | sendRecheckGone v hg hgone =>
      refine .goes_on h (by simp) ?_ (by simp [hp]) rfl rfl rfl
      rw [hp]
      exact .commits (.refused _ (hreceiver.trans hgone))
    | sendRecheck v hg hactive =>
      -- the send takes effect: it has the guard, and will push
      have hguard : (c.loc i).hasGuard = true := by rw [Local.hasGuard, hg]; rfl
      have hqueue := h.queue_eq hc hguard (by simp [hp])
      refine ⟨{ x with queue := x.queue ++ [v.value] }, ⟨⟨[v.value], ⟨fun j u hj => ?_, fun hnone => ?_⟩, ?_⟩,
        hsenders, hreceiver⟩, ?_⟩
      · by_cases hji : j = i
        · subst hji
          rw [Config.set_loc_self] at hj
          cases hj
          rfl
        · rw [Config.set_loc_of_ne hji] at hj
          exact absurd (not_push hc hguard hj) hji
      · exact absurd (by rw [Config.set_loc_self]; rfl) (hnone i v)
      · rw [hqueue]
        rfl
      · rw [ended, if_neg (by simp), hp]
        exact .commits (.send _ (hreceiver.trans hactive))
    | tryFailed y hg hy =>
      refine .goes_on h (by simp) ?_ (by simp [hp]) rfl rfl rfl
      rw [hp, Pc.stage, hy]
      exact .commits .empty
    | empty y hcount hy =>
      refine .goes_on h (by simp) ?_ (by simp [hp]) rfl rfl rfl
      rw [hp, Pc.stage, hy]
      exact .commits .empty
    | lockFailed y hg how d hy | timedOut y how d hy =>
      refine .goes_on h (by simp) ?_ (by simp [hp]) rfl rfl rfl
      rw [hp, Pc.stage, hy]
      exact .commits (.timeout how d)
    | disconnected y hcount =>
      -- the queue was found empty under the guard
      have hguard : (c.loc i).hasGuard = true := by
        rw [Local.hasGuard, (Mpsc.shape hc i).guard_of_foundEmpty (by rw [hp]; rfl)]
        rfl
      have hempty := (ending hc).empty i (by rw [hp]; rfl)
      refine .goes_on h (by simp) ?_ (by simp [hp]) rfl rfl rfl
      rw [hp]
      exact .commits (.disconnected _ ((h.queue_eq hc hguard (by simp [hp])).trans hempty)
        (hsenders.trans hcount))
    | senderReturn | receiverReturn =>
      exact .returns h (by rw [hp]; rfl) (by simp [hp]) rfl rfl rfl rfl
  | push v hp cv lcv hcv =>
    obtain ⟨-, -, hg, haccess⟩ := access_guarded hcv
    have hqueue : cv.mx.inner = c.shared.queue ++ [v.value] := congrArg Prod.snd haccess
    have hguard : (c.loc i).hasGuard = true := by rw [Local.hasGuard, hg]; rfl
    obtain ⟨q, hq, hxq⟩ := h.queue
    rw [hq.push i v hp] at hxq
    refine ⟨x, ⟨⟨[], pending_set hc hguard (by simp), ?_⟩, h.senders, h.receiver⟩, ?_⟩
    · rw [List.append_nil, hxq]
      exact hqueue.symm
    · rw [ended, if_neg (by simp), hp]
      exact .stay
  | pop y hp hg cv lcv hcv running =>
    obtain ⟨-, -, -, haccess⟩ := access_guarded hcv
    have hreg : lcv.mx.reg = c.shared.queue.head? := congrArg Prod.fst haccess
    have hqueue : cv.mx.inner = c.shared.queue.tail := congrArg Prod.snd haccess
    have hguard : (c.loc i).hasGuard = true := by rw [Local.hasGuard, hg]; rfl
    have hxq := h.queue_eq hc hguard (by simp [hp])
    cases hq : c.shared.queue with
    | nil =>
      simp only [hreg, hq, List.head?_nil]
      refine .goes_on h (by simp) (by rw [hp]; exact .stay) (by simp [hp]) ?_ rfl rfl
      rw [hq] at hqueue
      exact hqueue.trans hq.symm
    | cons t q =>
      -- the receive takes effect
      simp only [hreg, hq, List.head?_cons]
      rw [hq] at hqueue hxq
      refine ⟨{ x with queue := q }, ⟨⟨[], pending_set hc hguard (by simp), ?_⟩, h.senders, h.receiver⟩, ?_⟩
      · rw [List.append_nil]
        exact hqueue.symm
      · rw [ended, if_neg (by simp), hp]
        exact .commits (.recv _ hxq)
  | returnOk v hp hrest => exact .returns h (by rw [hp]; rfl) (by rw [hp]; simp) rfl rfl rfl rfl
  | returnErr v hp hrest => exact .returns h (by rw [hp]; rfl) (by rw [hp]; simp) rfl rfl rfl rfl
  | returnRecv y r hp hrest => exact .returns h (by rw [hp]; rfl) (by rw [hp]; simp) rfl rfl rfl rfl
  | cancel cv lcv hcv =>
    have hsusp := suspended_of_cancel hcv
    rcases hstay with hrest | hpc
    · rw [not_suspended_of_atRest hrest] at hsusp
      cases hsusp
    · exact absurd hpc.symm hne
  | send how k t hp | recv op hp | clone k hp | dropSender k hp | dropReceiver hp => exact absurd hp hne

omit [DecidableEq ι] [DecidableEq T] in
theorem atRest_of_ready (hl : l.Shape) (hp : l.pc = .ready) : l.cv.atRest = true := by
  rw [Local.Shape, hp] at hl
  exact Condvar.Local.atRest_iff.2 ⟨hl.2.1, hl.1⟩

theorem goes_ne_ready (hl : l.Shape) (h : step i a s l = some (s₁, l₁)) (ha : a = .step ∨ a = .spurious) :
    l.pc ≠ .ready := by
  intro hp
  have hrest := atRest_of_ready hl hp
  obtain ⟨hmx, hpc⟩ := Condvar.Local.atRest_iff.1 hrest
  rcases ha with rfl | rfl
  · simp only [step, hrest, if_true, advance, hp] at h
    split at h <;> cases h
  · simp only [step] at h
    split at h
    · obtain ⟨⟨s₂, l₂⟩, hr, -⟩ := Option.map_eq_some_iff.1 h
      obtain ⟨cv, lcv, hcv, -, -⟩ := lift_eq_some hr
      simp only [Condvar.step, hmx, if_true, hpc] at hcv
      cases hcv
    · cases h

omit [DecidableEq ι] [DecidableEq T] in
/-- A future that can be dropped has not taken effect. -/
theorem called_of_suspended (hl : l.Shape) (h : suspended l.cv = true) :
    ∃ o, l.pc.stage = .called o ∧ ∀ v, l.pc ≠ .sendPush v := by
  have hcontra : l.cv.pc.inWait = false → l.cv.mx.pc.quiet = true ∨ l.cv.mx.pc.hasGuard = true → False :=
    fun hwait hmx => by
      rw [not_suspended hwait hmx] at h
      cases h
  cases hp : l.pc with
  | sendLoad v | sendLock v | sendRecheck v | recvLock y | recvPop y | recvLoad y | recvWait y
  | recvWaited y => exact ⟨_, rfl, by simp⟩
  | ready | senderNotify | receiverNotify =>
    rw [Local.Shape, hp] at hl
    exact (hcontra (by rw [hl.1]; rfl) (.inl hl.2.2)).elim
  | sendNotify v | sendErr v | recvReturn y r =>
    rw [Local.Shape, hp] at hl
    exact (hcontra (by rw [hl.1]; rfl) (.inl hl.2)).elim
  | sendReturn v | senderReturn | receiverReturn =>
    rw [Local.Shape, hp] at hl
    exact (hcontra hl.1 (.inl hl.2.2)).elim
  | sendPush v | sendDrop v | sendReject v | recvDrop y r =>
    rw [Local.Shape, hp] at hl
    exact (hcontra (by rw [hl.1]; rfl) (.inr (by rw [hl.2]; rfl))).elim

theorem step_turn (hc : sys.Reachable (init plat) c) (h : Holds c x)
    (hs : step i a c.shared (c.loc i) = some (s₁, l₁)) :
    IsTurn i c x (occurs i a c.shared (c.loc i)) s₁ l₁ := by
  have hl := shape hc i
  cases a with
  | step =>
    rw [occurs, hs]
    exact (step_move hs).isTurn hc h (goes_ne_ready hl hs (.inl rfl)) (step_stays hs)
  | spurious =>
    rw [occurs, hs]
    exact (step_move hs).isTurn hc h (goes_ne_ready hl hs (.inr rfl)) (.inr (spurious_stays hs))
  | send how k t =>
    simp only [step] at hs
    split at hs <;> cases hs
    rename_i hcond
    refine ⟨x, h.same (by simp [hcond.1]) rfl rfl rfl, ?_⟩
    rw [hcond.1]
    exact .calls
  | recv op =>
    simp only [step] at hs
    split at hs <;> cases hs
    rename_i hcond
    refine ⟨x, h.same (by simp [hcond.1]) rfl rfl rfl, ?_⟩
    rw [hcond.1]
    exact .calls
  | clone k =>
    simp only [step] at hs
    split at hs <;> cases hs
    rename_i hcond
    have hpos : 0 < x.senders := by
      rw [h.senders, (borrowed hc).count]
      exact Finset.card_pos.2 ⟨k, hcond.2⟩
    obtain ⟨q, hq, hxq⟩ := h.queue
    refine ⟨{ x with senders := x.senders + 1 }, ⟨⟨q, hq.set fun v => Iff.rfl, hxq⟩,
      congrArg (· + 1) h.senders, h.receiver⟩, ?_⟩
    rw [hcond.1]
    exact .whole (.clone hpos)
  | dropSender k =>
    simp only [step] at hs
    split at hs <;> cases hs
    rename_i hcond
    have hpos : 0 < x.senders := by
      rw [h.senders, (borrowed hc).count]
      exact Finset.card_pos.2 ⟨k, hcond.2.1⟩
    obtain ⟨q, hq, hxq⟩ := h.queue
    refine ⟨{ x with senders := x.senders - 1 }, ⟨⟨q, hq.set fun v => ?_, hxq⟩,
      congrArg (· - 1) h.senders, h.receiver⟩, ?_⟩
    · rw [hcond.1, Local.goto_pc]
      split <;> simp
    · rw [hcond.1, Local.goto_pc, occurs]
      split
      · exact .begins (.dropSender hpos)
      · exact .whole (.dropSender hpos)
  | dropReceiver =>
    simp only [step] at hs
    split at hs <;> cases hs
    rename_i hcond
    obtain ⟨q, hq, hxq⟩ := h.queue
    refine ⟨{ x with receiver := false }, ⟨⟨q, hq.set (by simp [hcond.1]), hxq⟩, h.senders, rfl⟩, ?_⟩
    rw [hcond.1]
    exact .begins (.dropReceiver (h.receiver.trans hcond.2.1))
  | consume =>
    simp only [step] at hs
    split at hs
    · rename_i hp
      obtain ⟨cv, lcv, hcv, rfl, rfl⟩ := lift_eq_some hs
      refine ⟨x, h.same (by simp [hp]) (Condvar.step_inner hcv (by rintro _ ⟨⟩)) rfl rfl, ?_⟩
      rw [hp]
      exact .stay
    · cases hs
  | cancel =>
    simp only [step] at hs
    split at hs
    · simp only [Option.map_eq_some_iff, Prod.mk.injEq] at hs
      obtain ⟨⟨s₂, l₂⟩, hr, rfl, rfl⟩ := hs
      obtain ⟨cv, lcv, hcv, rfl, rfl⟩ := lift_eq_some hr
      obtain ⟨o, hstage, hpush⟩ := called_of_suspended hl (suspended_of_cancel hcv)
      obtain ⟨B, W, hdrop⟩ := dropFuture_eq i (c.loc i).pc { c.shared with cv := cv }
      rw [hdrop]
      refine ⟨x, h.same (fun v => ?_) (Condvar.step_inner hcv (by rintro _ ⟨⟩)) rfl rfl, ?_⟩
      · exact ⟨(by rintro ⟨⟩), fun hv => absurd hv (hpush v)⟩
      · rw [hstage]
        exact .aborts
    · cases hs

/-- The channel of the code is the object. -/
def simulation (plat : Platform ι) :
    PhaseMap (sys (ι := ι) (T := T)) (init plat) channel ⟨[], 1, true⟩ occurs where
  phase l := l.pc.stage
  Rel := Holds
  init := ⟨⟨[], ⟨(by rintro i v ⟨⟩), fun _ => rfl⟩, rfl⟩, rfl, rfl⟩
  idle _ := rfl
  agent hc hx hs := step_turn hc hx hs
  env _ hx hs := by
    simp only [sys, Option.map_eq_some_iff] at hs
    obtain ⟨p, -, rfl⟩ := hs
    obtain ⟨q, hq, hxq⟩ := hx.queue
    exact ⟨⟨q, ⟨hq.push, hq.none⟩, hxq⟩, hx.senders, hx.receiver⟩

/-- **The channel is linearizable.**  In every run the sends, the receives, the clones and the drops take
effect one after the other at a queue with a count of its senders, each between its call and its return.
So values come out in the order in which their sends took effect, a send is refused only after the drop
of the receiver, `Disconnected` means that the queue was empty and no sender left, and a future that is
dropped while it is pending has not touched the queue.  Two answers mean nothing about the queue: the
object allows `Empty` of a `try_recv` and `Timeout` of a timed receive in every state, with a value in
the queue or without, and the code gives both with a value in the queue. -/
theorem linearizable_channel {h : List (Occurrence ι (ChannelOp T) (ChannelResult T))}
    (H : sys.History (visible occurs) [] (init plat) h c) : channel.Linearizable ⟨[], 1, true⟩ h :=
  (simulation plat).simulation.linearizable H

/-- A run with a send, its receive, and one after the drop of the only sender. -/
theorem linearizable_channel_run :
    ∃ (h : List (Occurrence Bool (ChannelOp ℕ) (ChannelResult ℕ)))
      (c : Config Bool (Shared Bool ℕ) (Local Bool ℕ)),
      sys.History (visible occurs) [] (init (.new .native)) h c ∧ results false h = [.sent] ∧
      results true h = [.received (.ok 7), .received .disconnected] ∧
      channel.Linearizable ⟨[], 1, true⟩ h := by
  obtain ⟨h, c, H, hend⟩ := System.exists_note_of_along (M := sys) (P := fun _ _ _ => True)
    (h := []) (c := init (ι := Bool) (T := ℕ) (.new .native)) (visible occurs)
    (p := fun h _ => decide (results false h = [.sent] ∧
      results true h = [.received (.ok 7), .received .disconnected]))
    (sendSpin false 0 7 ++ [.agent false (.dropSender 0), .agent true (.recv .tryRecv)] ++
      List.replicate 8 (.agent true .step) ++ [.agent true (.recv .tryRecv)] ++
      List.replicate 9 (.agent true .step)) (by decide) (by decide)
  rw [decide_eq_true_eq] at hend
  exact ⟨h, c, H, hend.1, hend.2, linearizable_channel H⟩

end Mpsc

end WasmSafeThread
