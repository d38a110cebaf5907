import WasmSafeThread.Mpsc.Steps
import WasmSafeThread.Spawn.Basic

/-!
# What a spawned thread sends

Each way through a spawn body leaves a list of operations on the channel (`Plan`): the result is still
to be sent, has been sent, or is lost.  It is lost when a hook panics on the native backend, and when
there is a panic on wasm while the slot does not contain the hook of a worker.

* `Guarded` : the condition on a step that it is neither of these, and that no `join` comes back without
  the result that was sent: one that refuses, or that finds the worker failed.
* `ThreadAt`, `JoinerAt` : what is true at each control point of the two parties.
* `at_inv`, `at_guarded` : this holds in every run; a result is lost only by a step that is not guarded,
  and then for ever.
-/

namespace WasmSafeThread

namespace Spawn

variable {E V : Type*}

/-- A panic of the thread reaches its `PANIC_SENDER`. -/
def Shared.hooked (s : Shared E V) : Bool := !(s.panicHook.call true).2

/-- The step is no panic that leaves the thread without a result, no `join` on the main thread of wasm,
which refuses, and no look of `join_async` at the exit code of a worker that has reported an error. -/
def Guarded (p : Program E V) (c : Config Party (Shared E V) (Local E V)) : Label Party Act Env → Bool
  | .agent i .step => match (c.loc i).pc with
    | .hooks (some _ :: _) => decide (c.shared.backend = .wasm) && c.shared.hooked
    | .closure => match p.closure, c.shared.backend with
      | .error _, .wasm => c.shared.hooked
      | _, _ => true
    | .awaitExit _ => decide (c.shared.exitCode ≠ 2)
    | _ => true
  | .agent _ (.join .sync) => !(decide (c.shared.backend = .wasm) && c.shared.isMainThread)
  | _ => true

/-! ### The thread -/

/-- What has become of the result. -/
inductive Status where
  | pending
  /-- `send_sync` has been called with it. -/
  | sent
  | lost
  deriving DecidableEq

/-- What is left to do for a thread with the result `r`, with the `Sender`s that exist. -/
inductive Plan : Except E V → List (Chan E V) → Exit → Finset ℕ → Status → Prop
  | clear (v : V) : Plan (.ok v) [.drop 1, .send 0 (.ok v), .drop 0] .returned {0, 1} .pending
  | send (r : Except E V) : Plan r [.send 0 r, .drop 0] .returned {0} .pending
  | sent (r : Except E V) : Plan r [.drop 0] .returned {0} .sent
  | done (r : Except E V) : Plan r [] .returned ∅ .sent
  | panicSend (e : E) : Plan (.error e) [.send 1 (.error e), .drop 1] .aborted {0, 1} .pending
  | panicSent (e : E) : Plan (.error e) [.drop 1] .aborted {0, 1} .sent
  | panicDone (e : E) : Plan (.error e) [] .aborted {0} .sent
  | unwind (r : Except E V) : Plan r [.drop 0] .unwound {0} .lost
  | unwound (r : Except E V) : Plan r [] .unwound ∅ .lost
  | abort (r : Except E V) : Plan r [] .aborted {0, 1} .lost

/-- The `Sender`s of a thread that runs the hooks and the closure. -/
def senders : Backend → Finset ℕ
  | .native => {0}
  | .wasm => {0, 1}

/-- Nothing has been sent. -/
structure Fresh (s : Mpsc.Shared Party (Except E V)) (l : Mpsc.Local Party (Except E V)) : Prop where
  pushed : s.pushed = []
  sends : s.sends = []
  thread : l.pc.sends = none

/-- The result `r` has been passed to `send_sync`, once. -/
inductive Sent (r : Except E V) (s : Mpsc.Shared Party (Except E V))
    (l : Mpsc.Local Party (Except E V)) : Prop
  | inSend (x : Mpsc.Send (Except E V)) (hx : l.pc.sends = some x) (hvalue : x.value = r)
      (hsends : s.sends = []) (hpushed : s.pushed = if l.pc.hasPushed then [x] else [])
      (hrejects : l.pc.rejects = true → s.receiverActive = false)
  | ok (hl : l.pc.sends = none) (x : Mpsc.Send (Except E V)) (hvalue : x.value = r)
      (hsends : s.sends = [(x, .ok ())]) (hpushed : s.pushed = [x])
  | rejected (hl : l.pc.sends = none) (x : Mpsc.Send (Except E V)) (hvalue : x.value = r)
      (hsends : s.sends = [(x, .error r)]) (hpushed : s.pushed = []) (hgone : s.receiverActive = false)

/-- What the channel says of the result. -/
def Told (r : Except E V) (s : Mpsc.Shared Party (Except E V)) (l : Mpsc.Local Party (Except E V)) :
    Status → Prop
  | .sent => Sent r s l
  | .pending | .lost => Fresh s l

/-- The thread runs, and has sent nothing. -/
structure Running (s : Shared E V) (l : Local E V) : Prop where
  ready : l.ch.pc = .ready
  fresh : Fresh s.ch l.ch

/-- What is true at each control point of the thread. -/
def ThreadAt (p : Program E V) (st : Status) (s : Shared E V) (l : Local E V) : Prop :=
  l.ch.pc.receives = none ∧ match l.pc with
    | .cloneSender => st = .pending ∧ s.backend = .wasm ∧ s.ch.handles = {0} ∧ s.ch.nextHandle = 1 ∧
        Running s l
    | .takeHook | .setHook _ =>
      st = .pending ∧ s.backend = .wasm ∧ s.ch.handles = senders s.backend ∧ Running s l
    | .hooks rest => st = .pending ∧ s.ch.handles = senders s.backend ∧ Running s l ∧
        rest.findSome? id = p.hooks.findSome? id
    | .closure => st = .pending ∧ s.ch.handles = senders s.backend ∧ Running s l ∧
        p.hooks.findSome? id = none
    | .finish todo e => Plan p.result todo e s.ch.handles st ∧ Told p.result s.ch l.ch st
    | .ended e => Plan p.result [] e s.ch.handles st ∧ Told p.result s.ch l.ch st ∧
        s.exitCode ≠ 0 ∧ l.ch.pc = .ready
    | _ => False

/-- The control points of the owner of the `JoinHandle`. -/
def Pc.owner : Pc E V → Bool
  | .handle | .receiving _ | .awaitExit _ | .consumed _ | .releasing _ | .joined _ => true
  | _ => false

theorem ThreadAt.not_owner {p : Program E V} {st : Status} {s : Shared E V} {l : Local E V}
    (h : ThreadAt p st s l) : l.pc.owner = false := by
  have hat := h.2
  cases hp : l.pc <;> rw [hp] at hat <;> first | rfl | exact hat.elim

/-- How the status may change in a step. -/
structure Follows (p : Program E V) (c : Config Party (Shared E V) (Local E V))
    (a : Label Party Act Env) (st st' : Status) : Prop where
  sent : st = .sent → st' = .sent
  lost : st = .lost → st' = .lost
  guarded : Guarded p c a = true → st' = .lost → st = .lost

/-- The parts of the state that belong to the owner of the `JoinHandle`. -/
structure SameReceiver (s s₁ : Mpsc.Shared Party (Except E V)) : Prop where
  receiving : s₁.receiving = s.receiving
  active : s₁.receiverActive = s.receiverActive
  results : s₁.results = s.results

/-- The parts that belong to the thread. -/
structure SameSender (s s₁ : Shared E V) : Prop where
  backend : s₁.backend = s.backend
  code : s.exitCode ≠ 0 → s₁.exitCode ≠ 0
  handles : s₁.ch.handles = s.ch.handles
  next : s₁.ch.nextHandle = s.ch.nextHandle
  pushed : s₁.ch.pushed = s.ch.pushed
  sends : s₁.ch.sends = s.ch.sends
  active : s.ch.receiverActive = false → s₁.ch.receiverActive = false

theorem Follows.same {p : Program E V} {c : Config Party (Shared E V) (Local E V)}
    {a : Label Party Act Env} (st : Status) : Follows p c a st st :=
  ⟨id, id, fun _ => id⟩

section

variable {p : Program E V} {st : Status} {s s₁ : Shared E V} {l : Local E V} {r : Except E V}

theorem Fresh.same {l : Mpsc.Local Party (Except E V)} (h : Fresh s.ch l) (hs : SameSender s s₁) :
    Fresh s₁.ch l :=
  ⟨hs.pushed.trans h.pushed, hs.sends.trans h.sends, h.thread⟩

theorem Told.same {l : Mpsc.Local Party (Except E V)} (h : Told r s.ch l st) (hs : SameSender s s₁) :
    Told r s₁.ch l st := by
  cases st with
  | pending | lost => exact Fresh.same h hs
  | sent =>
    cases h with
    | inSend x hx hvalue hsends hpushed hrejects =>
      exact .inSend x hx hvalue (hs.sends.trans hsends) (hs.pushed.trans hpushed)
        fun hr => hs.active (hrejects hr)
    | ok hl x hvalue hsends hpushed =>
      exact .ok hl x hvalue (hs.sends.trans hsends) (hs.pushed.trans hpushed)
    | rejected hl x hvalue hsends hpushed hgone =>
      exact .rejected hl x hvalue (hs.sends.trans hsends) (hs.pushed.trans hpushed) (hs.active hgone)

theorem Running.same (h : Running s l) (hs : SameSender s s₁) : Running s₁ l :=
  ⟨h.ready, h.fresh.same hs⟩

theorem ThreadAt.same (h : ThreadAt p st s l) (hs : SameSender s s₁) : ThreadAt p st s₁ l := by
  refine ⟨h.1, ?_⟩
  have hat := h.2
  rw [hs.backend, hs.handles, hs.next]
  split at hat
  · exact ⟨hat.1, hat.2.1, hat.2.2.1, hat.2.2.2.1, hat.2.2.2.2.same hs⟩
  · exact ⟨hat.1, hat.2.1, hat.2.2.1, hat.2.2.2.same hs⟩
  · exact ⟨hat.1, hat.2.1, hat.2.2.1, hat.2.2.2.same hs⟩
  · exact ⟨hat.1, hat.2.1, hat.2.2.1.same hs, hat.2.2.2⟩
  · exact ⟨hat.1, hat.2.1, hat.2.2.1.same hs, hat.2.2.2⟩
  · exact ⟨hat.1, hat.2.same hs⟩
  · exact ⟨hat.1, hat.2.1.same hs, hs.code hat.2.2.1, hat.2.2.2⟩
  · exact hat

/-- A call of the thread on the channel goes on. -/
theorem Told.below {ch : Mpsc.Shared Party (Except E V)} {lch l : Mpsc.Local Party (Except E V)}
    (h : Told r s.ch l st) (g : Mpsc.Goes .thread s.ch l ch lch) (hrecv : l.pc.receives = none) :
    Told r ch lch st ∧ SameReceiver s.ch ch ∧ ch.handles = s.ch.handles ∧ lch.pc.receives = none := by
  cases g with
  | quiet cv running hs hsends hrecv₁ hpushed hrejects =>
    subst hs
    refine ⟨?_, ⟨rfl, rfl, rfl⟩, rfl, hrecv₁.trans hrecv⟩
    cases st with
    | pending | lost => exact ⟨h.pushed, h.sends, hsends.trans h.thread⟩
    | sent =>
      cases h with
      | inSend x hx hvalue hnone hpush hrej =>
        refine .inSend x (hsends.trans hx) hvalue hnone (by rw [hpushed]; exact hpush) fun hr => ?_
        exact (hrejects hr).elim hrej id
      | ok hl x hvalue hok hpush => exact .ok (hsends.trans hl) x hvalue hok hpush
      | rejected hl x hvalue herr hpush hgone =>
        exact .rejected (hsends.trans hl) x hvalue herr hpush hgone
  | push x hp cv hs hl =>
    subst hs
    have hx : l.pc.sends = some x := by rw [hp]; rfl
    refine ⟨?_, ⟨rfl, rfl, rfl⟩, rfl, by rw [hl]; rfl⟩
    cases st with
    | pending | lost =>
      rw [h.thread] at hx
      cases hx
    | sent =>
      cases h with
      | inSend y hy hvalue hnone hpush hrej =>
        rw [hx] at hy
        cases hy
        refine .inSend x (by rw [hl]; rfl) hvalue hnone ?_ (by rw [hl]; exact nofun)
        rw [hp] at hpush
        rw [hl]
        show s.ch.pushed ++ [x] = [x]
        rw [show s.ch.pushed = [] from hpush, List.nil_append]
      | ok hl | rejected hl =>
        rw [hl] at hx
        cases hx
  | returnSend x u hp hs hl =>
    subst hs
    have hx : l.pc.sends = some x := by rcases hp with ⟨hp, -⟩ | ⟨hp, -⟩ <;> rw [hp] <;> rfl
    refine ⟨?_, ⟨rfl, rfl, rfl⟩, rfl, by rw [hl]; rfl⟩
    cases st with
    | pending | lost =>
      rw [h.thread] at hx
      cases hx
    | sent =>
      cases h with
      | inSend y hy hvalue hnone hpush hrej =>
        rw [hx] at hy
        cases hy
        have hsends : (Mpsc.returnSend .thread x u s.ch).sends = [(x, u)] := by
          show s.ch.sends ++ [(x, u)] = [(x, u)]
          rw [hnone, List.nil_append]
        rcases hp with ⟨hp, rfl⟩ | ⟨hp, rfl⟩ <;> rw [hp] at hpush hrej
        · exact .ok (by rw [hl]; rfl) x hvalue hsends hpush
        · exact .rejected (by rw [hl]; rfl) x hvalue (by rw [hsends, hvalue]) hpush (hrej rfl)
      | ok hl | rejected hl =>
        rw [hl] at hx
        cases hx
  | returnRecv y o hp =>
    rw [hp] at hrecv
    cases hrecv

variable [DecidableEq E] [DecidableEq V]

theorem Fresh.call {ch : Mpsc.Shared Party (Except E V)} {l lch : Mpsc.Local Party (Except E V)}
    (h : Fresh s.ch l) {k : ℕ} (hs : Mpsc.step .thread (.send .sync k r) s.ch l = some (ch, lch)) :
    Sent r ch lch ∧ SameReceiver s.ch ch ∧ ch.handles = s.ch.handles ∧ lch.pc.receives = none := by
  simp only [Mpsc.step] at hs
  split at hs <;> cases hs
  refine ⟨.inSend _ rfl rfl h.sends h.pushed (by rintro ⟨⟩), ⟨rfl, rfl, rfl⟩, rfl, rfl⟩

theorem Told.drop {ch : Mpsc.Shared Party (Except E V)} {l lch : Mpsc.Local Party (Except E V)}
    (h : Told r s.ch l st) {k : ℕ} (hs : Mpsc.step .thread (.dropSender k) s.ch l = some (ch, lch)) :
    Told r ch lch st ∧ SameReceiver s.ch ch ∧ ch.handles = s.ch.handles.erase k ∧
      lch.pc.receives = none := by
  simp only [Mpsc.step] at hs
  split at hs <;> cases hs
  rename_i hc
  have hsends : ∀ n : ℕ, (if n = 1 then .senderNotify else .ready : Mpsc.Pc (Except E V)).sends = none :=
    fun n => by split <;> rfl
  refine ⟨?_, ⟨rfl, rfl, rfl⟩, rfl, by rw [Mpsc.Local.goto_pc]; split <;> rfl⟩
  cases st with
  | pending | lost => exact ⟨h.pushed, h.sends, hsends _⟩
  | sent =>
    cases h with
    | inSend x hx =>
      rw [hc.1] at hx
      cases hx
    | ok hl x hvalue hok hpush => exact .ok (hsends _) x hvalue hok hpush
    | rejected hl x hvalue herr hpush hgone => exact .rejected (hsends _) x hvalue herr hpush hgone

variable {c : Config Party (Shared E V) (Local E V)} {a : Act} {l₁ : Local E V}

omit [DecidableEq E] [DecidableEq V] in
theorem belowPc_of_ne {lch : Mpsc.Local Party (Except E V)} (h : ∀ j, l.pc ≠ .receiving j) :
    belowPc s l lch = l.pc := by
  unfold belowPc
  split
  · rename_i j _ _ hp _ _
    exact absurd hp (h j)
  · rfl

theorem Running.below (h : Running s l) {b : Mpsc.Act (Except E V)}
    (hb : b = .step ∧ l.ch.pc ≠ .ready ∨ b = .spurious) {ch : Mpsc.Shared Party (Except E V)}
    {lch : Mpsc.Local Party (Except E V)} (hs : Mpsc.step .thread b s.ch l.ch = some (ch, lch)) :
    Running { s with ch := ch } ⟨lch, l.pc⟩ ∧ SameSender s { s with ch := ch } := by
  have hspurious : b = .spurious := hb.resolve_left fun hb => hb.2 h.ready
  subst hspurious
  have hready := (Mpsc.spurious_stays hs).trans h.ready
  cases Mpsc.step_goes hs (.inr rfl) with
  | quiet cv running hch =>
    subst hch
    exact ⟨⟨hready, h.fresh.pushed, h.fresh.sends, by rw [hready]; rfl⟩,
      ⟨rfl, id, rfl, rfl, rfl, rfl, id⟩⟩
  | push x hp | returnRecv y o hp => rw [h.ready] at hp; cases hp
  | returnSend x u hp => rcases hp with ⟨hp, -⟩ | ⟨hp, -⟩ <;> rw [h.ready] at hp <;> cases hp

/-- A call on the channel goes on. -/
theorem ThreadAt.below (h : ThreadAt p st s l) {b : Mpsc.Act (Except E V)}
    (hb : b = .step ∧ l.ch.pc ≠ .ready ∨ b = .spurious) {ch : Mpsc.Shared Party (Except E V)}
    {lch : Mpsc.Local Party (Except E V)} (hs : Mpsc.step .thread b s.ch l.ch = some (ch, lch)) :
    ThreadAt p st { s with ch := ch } ⟨lch, l.pc⟩ := by
  have hat := h.2
  cases hp : l.pc with
  | cloneSender =>
    rw [hp] at hat
    obtain ⟨hst, hwasm, hhandles, hnext, hrun⟩ := hat
    obtain ⟨hrun₁, hsame⟩ := hrun.below hb hs
    rw [hp] at hrun₁
    exact ⟨by rw [hrun₁.ready]; rfl, hst, hwasm, hsame.handles.trans hhandles, hsame.next.trans hnext, hrun₁⟩
  | takeHook | setHook =>
    rw [hp] at hat
    obtain ⟨hst, hwasm, hhandles, hrun⟩ := hat
    obtain ⟨hrun₁, hsame⟩ := hrun.below hb hs
    rw [hp] at hrun₁
    exact ⟨by rw [hrun₁.ready]; rfl, hst, hwasm, hsame.handles.trans hhandles, hrun₁⟩
  | hooks | closure =>
    rw [hp] at hat
    obtain ⟨hst, hhandles, hrun, hrest⟩ := hat
    obtain ⟨hrun₁, hsame⟩ := hrun.below hb hs
    rw [hp] at hrun₁
    exact ⟨by rw [hrun₁.ready]; rfl, hst, hsame.handles.trans hhandles, hrun₁, hrest⟩
  | finish todo e =>
    rw [hp] at hat
    obtain ⟨hplan, htold⟩ := hat
    obtain ⟨htold₁, -, hhandles, hrecv⟩ := htold.below (Mpsc.step_goes hs hb) h.1
    exact ⟨hrecv, by rw [hhandles]; exact hplan, htold₁⟩
  | ended e =>
    rw [hp] at hat
    obtain ⟨hplan, htold, hcode, hready⟩ := hat
    have hspurious : b = .spurious := hb.resolve_left fun hb => hb.2 hready
    obtain ⟨htold₁, -, hhandles, hrecv⟩ := htold.below (Mpsc.step_goes hs hb) h.1
    subst hspurious
    exact ⟨hrecv, by rw [hhandles]; exact hplan, htold₁, hcode, (Mpsc.spurious_stays hs).trans hready⟩
  | handle | receiving | awaitExit | consumed | releasing | joined =>
    rw [hp] at hat
    exact hat.elim

theorem consume_same {i : Party} {s s₁ : Mpsc.Shared Party (Except E V)}
    {l l₁ : Mpsc.Local Party (Except E V)} (hs : Mpsc.step i .consume s l = some (s₁, l₁)) :
    l.pc = .ready ∧ l₁.pc = .ready ∧ ∃ cv, s₁ = { s with cv := cv } := by
  simp only [Mpsc.step] at hs
  split at hs
  · obtain ⟨cv, lcv, -, rfl, rfl⟩ := Mpsc.lift_eq_some hs
    exact ⟨‹_›, rfl, cv, rfl⟩
  · cases hs

omit [DecidableEq E] [DecidableEq V] in
/-- The thread moves with `ch.pc` where it was. -/
theorem ThreadAt.congr {l₁ : Local E V} (h : ThreadAt p st s l) (hch : l₁.ch.pc = l.ch.pc)
    (hpc : l₁.pc = l.pc) : ThreadAt p st s l₁ := by
  have hfresh : Fresh s.ch l.ch → Fresh s.ch l₁.ch := fun hf => ⟨hf.pushed, hf.sends, by rw [hch]; exact hf.thread⟩
  have hrun : Running s l → Running s l₁ := fun hr => ⟨hch.trans hr.ready, hfresh hr.fresh⟩
  have htold : Told p.result s.ch l.ch st → Told p.result s.ch l₁.ch st := fun ht => by
    cases st with
    | pending | lost => exact hfresh ht
    | sent =>
      cases ht with
      | inSend x hx hvalue hsends hpushed hrejects =>
        exact .inSend x (by rw [hch]; exact hx) hvalue hsends (by rw [hch]; exact hpushed)
          (by rw [hch]; exact hrejects)
      | ok hl x hvalue hsends hpushed => exact .ok (by rw [hch]; exact hl) x hvalue hsends hpushed
      | rejected hl x hvalue hsends hpushed hgone =>
        exact .rejected (by rw [hch]; exact hl) x hvalue hsends hpushed hgone
  refine ⟨by rw [hch]; exact h.1, ?_⟩
  have hat := h.2
  rw [hpc, hch]
  split at hat
  · exact ⟨hat.1, hat.2.1, hat.2.2.1, hat.2.2.2.1, hrun hat.2.2.2.2⟩
  · exact ⟨hat.1, hat.2.1, hat.2.2.1, hrun hat.2.2.2⟩
  · exact ⟨hat.1, hat.2.1, hat.2.2.1, hrun hat.2.2.2⟩
  · exact ⟨hat.1, hat.2.1, hrun hat.2.2.1, hat.2.2.2⟩
  · exact ⟨hat.1, hat.2.1, hrun hat.2.2.1, hat.2.2.2⟩
  · exact ⟨hat.1, htold hat.2⟩
  · exact ⟨hat.1, htold hat.2.1, hat.2.2⟩
  · exact hat

omit [DecidableEq E] [DecidableEq V] in
theorem panicHook_at {e : E} (hrun : Running s l) (hresult : p.result = .error e)
    (hhandles : s.ch.handles = {0, 1}) (hrecv : l.ch.pc.receives = none) :
    ∃ st', ThreadAt p st' s (l.goto (panicHook s.panicHook e)) ∧ (st' = .lost → s.hooked = false) := by
  unfold panicHook
  cases hcall : (s.panicHook.call true).2 with
  | true =>
    refine ⟨.lost, ⟨hrecv, ?_, hrun.fresh⟩, fun _ => by simp [Shared.hooked, hcall]⟩
    rw [hhandles]
    exact .abort _
  | false =>
    refine ⟨.pending, ⟨hrecv, ?_, hrun.fresh⟩, nofun⟩
    rw [hresult, hhandles]
    exact .panicSend e

/-- A step of the thread. -/
structure ThreadStep (p : Program E V) (st : Status) (c : Config Party (Shared E V) (Local E V)) (a : Act)
    (s₁ : Shared E V) (l₁ : Local E V) : Prop where
  thread : ∃ st', ThreadAt p st' s₁ l₁ ∧ Follows p c (.agent .thread a) st st'
  receiver : SameReceiver c.shared.ch s₁.ch
  backend : s₁.backend = c.shared.backend

omit [DecidableEq E] [DecidableEq V] in
theorem ThreadStep.run {s₁ : Shared E V} (h : ThreadAt p .pending s₁ l₁)
    (hch : s₁.ch = c.shared.ch) (hbackend : s₁.backend = c.shared.backend) :
    ThreadStep p .pending c a s₁ l₁ :=
  ⟨⟨.pending, h, .same _⟩, by rw [hch]; exact ⟨rfl, rfl, rfl⟩, hbackend⟩

omit [DecidableEq E] [DecidableEq V] in
theorem Exit.code_ne_zero (e : Exit) : e.code ≠ 0 := by cases e <;> decide

theorem ThreadAt.step (h : ThreadAt p st c.shared (c.loc .thread)) {s₁ : Shared E V}
    (m : Move p .thread c.shared (c.loc .thread) a s₁ l₁) : ThreadStep p st c a s₁ l₁ := by
  have hat := h.2
  have hnot := h.not_owner
  cases m with
  | below a b hb ha ch lch hs =>
    have hpc : belowPc c.shared (c.loc .thread) lch = (c.loc .thread).pc :=
      belowPc_of_ne fun j hp => by rw [hp] at hnot; cases hnot
    rw [hpc]
    refine ⟨⟨st, h.below hb hs, .same st⟩, ?_, rfl⟩
    cases Mpsc.step_goes hs hb with
    | quiet cv running hch => subst hch; exact ⟨rfl, rfl, rfl⟩
    | push x hp cv hch => subst hch; exact ⟨rfl, rfl, rfl⟩
    | returnSend x u hp hch => subst hch; exact ⟨rfl, rfl, rfl⟩
    | returnRecv y o hp =>
      have hrecv := h.1
      rw [hp] at hrecv
      cases hrecv
  | consume ch lch hs =>
    obtain ⟨hready, hready₁, cv, rfl⟩ := consume_same hs
    have hsame : ThreadAt p st { c.shared with ch := { c.shared.ch with cv := cv } } (c.loc .thread) :=
      h.same ⟨rfl, id, rfl, rfl, rfl, rfl, id⟩
    have hpc : lch.pc = (c.loc .thread).ch.pc := hready₁.trans hready.symm
    exact ⟨⟨st, hsame.congr hpc rfl, .same st⟩, ⟨rfl, rfl, rfl⟩, rfl⟩
  | call b pc hready hb ch lch hs =>
    rcases hb with ⟨hp, rfl, rfl⟩ | ⟨k, r, todo, e, hp, rfl, rfl⟩ | ⟨k, todo, e, hp, rfl, rfl⟩ | ⟨r, hp, -⟩
    · rw [hp] at hat
      obtain ⟨rfl, hwasm, hhandles, hnext, hrun⟩ := hat
      simp only [Mpsc.step] at hs
      split at hs <;> cases hs
      refine ⟨⟨.pending, ⟨h.1, rfl, hwasm, ?_, ⟨hrun.ready, hrun.fresh.pushed, hrun.fresh.sends,
        hrun.fresh.thread⟩⟩, .same _⟩, ⟨rfl, rfl, rfl⟩, rfl⟩
      show insert c.shared.ch.nextHandle c.shared.ch.handles = senders c.shared.backend
      rw [hnext, hhandles, hwasm]
      decide
    · rw [hp] at hat
      obtain ⟨hplan, htold⟩ := hat
      have hsends : st = .pending ∧ r = p.result ∧ Plan p.result todo e c.shared.ch.handles .sent := by
        generalize p.result = r' at hplan
        generalize c.shared.ch.handles = H at hplan
        cases hplan with
        | send => exact ⟨rfl, rfl, .sent _⟩
        | panicSend => exact ⟨rfl, rfl, .panicSent _⟩
      obtain ⟨rfl, rfl, hplan₁⟩ := hsends
      obtain ⟨hsent, hsame, hhandles, hrecv⟩ := Fresh.call htold hs
      exact ⟨⟨.sent, ⟨hrecv, by rw [hhandles]; exact hplan₁, hsent⟩, by rintro ⟨⟩, (by rintro ⟨⟩), by rintro _ ⟨⟩⟩, hsame, rfl⟩
    · rw [hp] at hat
      obtain ⟨hplan, htold⟩ := hat
      obtain ⟨htold₁, hsame, hhandles, hrecv⟩ := htold.drop hs
      have hplan₁ : Plan p.result todo e (c.shared.ch.handles.erase k) st := by
        generalize p.result = r' at hplan ⊢
        generalize c.shared.ch.handles = H at hplan ⊢
        cases hplan with
        | clear v => exact .send _
        | sent => exact .done _
        | panicSent => exact .panicDone _
        | unwind => exact .unwound _
      exact ⟨⟨st, ⟨hrecv, by rw [hhandles]; exact hplan₁, htold₁⟩, .same st⟩, hsame, rfl⟩
    · rw [hp] at hnot; cases hnot
  | takeHook hp hready =>
    rw [hp] at hat
    obtain ⟨rfl, hwasm, hhandles, hrun⟩ := hat
    exact .run ⟨h.1, rfl, hwasm, hhandles, hrun.ready, hrun.fresh⟩ rfl rfl
  | setHook prev hp hready =>
    rw [hp] at hat
    obtain ⟨rfl, hwasm, hhandles, hrun⟩ := hat
    exact .run ⟨h.1, rfl, hhandles, ⟨hrun.ready, hrun.fresh⟩, rfl⟩ rfl rfl
  | hook rest hp hready =>
    rw [hp] at hat
    obtain ⟨rfl, hhandles, hrun, hrest⟩ := hat
    exact .run ⟨h.1, rfl, hhandles, ⟨hrun.ready, hrun.fresh⟩, hrest⟩ rfl rfl
  | hooksDone hp hready =>
    rw [hp] at hat
    obtain ⟨rfl, hhandles, hrun, hrest⟩ := hat
    exact .run ⟨h.1, rfl, hhandles, ⟨hrun.ready, hrun.fresh⟩, hrest.symm⟩ rfl rfl
  | hookPanics e rest hp hready =>
    rw [hp] at hat
    obtain ⟨rfl, hhandles, hrun, hrest⟩ := hat
    have hresult : p.result = .error e := by
      rw [Program.result, ← hrest]
      rfl
    cases hback : c.shared.backend with
    | native =>
      rw [hback] at hhandles
      refine ⟨⟨.lost, ⟨h.1, ?_, ?_⟩, by rintro ⟨⟩, fun _ => rfl, fun hg => ?_⟩, ⟨rfl, rfl, rfl⟩, rfl⟩
      · rw [hhandles]
        exact .unwind _
      · exact ⟨hrun.fresh.pushed, hrun.fresh.sends, hrun.fresh.thread⟩
      · simp [Guarded, hp, hback] at hg
    | wasm =>
      rw [hback] at hhandles
      obtain ⟨st', hst', hlost⟩ := panicHook_at hrun hresult hhandles h.1
      refine ⟨⟨st', hst', by rintro ⟨⟩, (by rintro ⟨⟩), fun hg heq => ?_⟩, ⟨rfl, rfl, rfl⟩, rfl⟩
      simp [Guarded, hp, hlost heq] at hg
  | closurePanics e hp hready he =>
    rw [hp] at hat
    obtain ⟨rfl, hhandles, hrun, hrest⟩ := hat
    have hresult : p.result = .error e := by rw [Program.result, hrest, he]
    cases hback : c.shared.backend with
    | native =>
      rw [hback] at hhandles
      refine ⟨⟨.pending, ⟨h.1, ?_, ?_⟩, .same _⟩, ⟨rfl, rfl, rfl⟩, rfl⟩
      · rw [hhandles, hresult]
        exact .send _
      · exact ⟨hrun.fresh.pushed, hrun.fresh.sends, hrun.fresh.thread⟩
    | wasm =>
      rw [hback] at hhandles
      obtain ⟨st', hst', hlost⟩ := panicHook_at hrun hresult hhandles h.1
      refine ⟨⟨st', hst', by rintro ⟨⟩, (by rintro ⟨⟩), fun hg heq => ?_⟩, ⟨rfl, rfl, rfl⟩, rfl⟩
      simp [Guarded, hp, he, hback, hlost heq] at hg
  | closureReturns v hp hready hv =>
    rw [hp] at hat
    obtain ⟨rfl, hhandles, hrun, hrest⟩ := hat
    have hresult : p.result = .ok v := by rw [Program.result, hrest, hv]
    have hfresh : Fresh c.shared.ch (c.loc .thread).ch := hrun.fresh
    cases hback : c.shared.backend with
    | native =>
      rw [hback] at hhandles
      refine ⟨⟨.pending, ⟨h.1, ?_, hfresh⟩, .same _⟩, ⟨rfl, rfl, rfl⟩, rfl⟩
      rw [hhandles, hresult]
      exact .send _
    | wasm =>
      rw [hback] at hhandles
      refine ⟨⟨.pending, ⟨h.1, ?_, hfresh⟩, .same _⟩, ⟨rfl, rfl, rfl⟩, rfl⟩
      rw [hhandles, hresult]
      exact .clear v
  | ends e hp hready =>
    rw [hp] at hat
    obtain ⟨hplan, htold⟩ := hat
    exact ⟨⟨st, ⟨h.1, hplan, htold, e.code_ne_zero, hready⟩, .same st⟩, ⟨rfl, rfl, rfl⟩, rfl⟩
  | join j hp | joinMain j hp | discard hp | exited v hp | cancel hp | cancelExit v hp | released r hp =>
    rw [hp] at hnot
    cases hnot

/-! ### The owner of the `JoinHandle` -/

omit [DecidableEq E] [DecidableEq V] in
/-- The `Sender`s are gone only after the plan has been carried out. -/
theorem ThreadAt.no_senders (h : ThreadAt p st s l) (hhandles : s.ch.handles = ∅) :
    Told p.result s.ch l.ch st ∧ st ≠ .pending := by
  have hsenders : ∀ b, senders b ≠ ∅ := fun b => by cases b <;> decide
  have hat := h.2
  rw [hhandles] at hat
  split at hat
  · exact absurd hat.2.2.1.symm (Finset.singleton_ne_empty 0)
  · exact absurd hat.2.2.1.symm (hsenders _)
  · exact absurd hat.2.2.1.symm (hsenders _)
  · exact absurd hat.2.1.symm (hsenders _)
  · exact absurd hat.2.1.symm (hsenders _)
  · obtain ⟨hplan, htold⟩ := hat
    refine ⟨htold, fun hst => ?_⟩
    rw [hst] at hplan
    generalize hH : (∅ : Finset ℕ) = H at hplan
    generalize p.result = r at hplan
    cases hplan <;> exact absurd hH (by decide)
  · obtain ⟨hplan, htold, -⟩ := hat
    refine ⟨htold, fun hst => ?_⟩
    rw [hst] at hplan
    generalize hH : (∅ : Finset ℕ) = H at hplan
    generalize p.result = r at hplan
    generalize htodo : ([] : List (Chan E V)) = todo at hplan
    cases hplan <;> cases htodo
  · exact hat.elim

omit [DecidableEq E] [DecidableEq V] in
theorem ThreadAt.told (h : ThreadAt p st s l) : Told p.result s.ch l.ch st := by
  have hat := h.2
  split at hat
  · obtain ⟨rfl, -, -, -, hrun⟩ := hat
    exact hrun.fresh
  · obtain ⟨rfl, -, -, hrun⟩ := hat
    exact hrun.fresh
  · obtain ⟨rfl, -, -, hrun⟩ := hat
    exact hrun.fresh
  · obtain ⟨rfl, -, hrun, -⟩ := hat
    exact hrun.fresh
  · obtain ⟨rfl, -, hrun, -⟩ := hat
    exact hrun.fresh
  · exact hat.2
  · exact hat.2.1
  · exact hat.elim

omit [DecidableEq E] [DecidableEq V] in
/-- What was pushed is the result. -/
theorem ThreadAt.pushed (h : ThreadAt p st s l) {z : Mpsc.Send (Except E V)} (hz : z ∈ s.ch.pushed) :
    st = .sent ∧ z.value = p.result := by
  have hfresh : ¬ Fresh s.ch l.ch := fun hf => by
    rw [hf.pushed] at hz
    cases hz
  have htold := h.told
  cases st with
  | pending | lost => exact absurd htold hfresh
  | sent =>
    refine ⟨rfl, ?_⟩
    cases htold with
    | inSend x hx hvalue hsends hpushed =>
      rw [hpushed] at hz
      split at hz
      · rw [List.mem_singleton.1 hz, hvalue]
      · cases hz
    | ok hl x hvalue hsends hpushed =>
      rw [hpushed] at hz
      rw [List.mem_singleton.1 hz, hvalue]
    | rejected hl x hvalue hsends hpushed =>
      rw [hpushed] at hz
      cases hz

/-- What a `join` or `join_async` returns, for what has become of the result. -/
inductive Right (p : Program E V) : Status → Option (Joined E V) → Prop
  /-- Nothing: the handle or the future was dropped. -/
  | none (st : Status) : Right p st none
  | mainThread (st : Status) : Right p st (some .mainThread)
  | result : Right p .sent (some (.ofResult p.result))
  /-- The worker has reported an error. -/
  | exitError (v : V) (hv : p.result = .ok v) : Right p .sent (some .exitError)
  | panicked : Right p .lost (some .panicked)
  | disconnected : Right p .lost (some .disconnected)

/-- The `Receiver` is there, and no receive is in progress. -/
structure Owns (s : Shared E V) (l : Local E V) : Prop where
  ready : l.ch.pc = .ready
  receiving : s.ch.receiving = ∅
  active : s.ch.receiverActive = true

/-- What is true at each control point of the owner of the `JoinHandle`. -/
def JoinerAt (p : Program E V) (st : Status) (s : Shared E V) (l : Local E V) : Prop :=
  match l.pc with
  | .handle => Owns s l ∧ s.ch.results = []
  | .receiving j => (∃ late, l.ch.pc.receives = some ⟨.recv j.how none, late⟩) ∧
      s.ch.receiving = {.joiner} ∧ s.ch.results = []
  | .awaitExit v => Owns s l ∧ st = .sent ∧ p.result = .ok v
  | .consumed r => Owns s l ∧ Right p st r
  | .releasing r => l.ch.pc.receives = none ∧ l.ch.pc.sends = none ∧ Right p st r
  | .joined r => l.ch.pc = .ready ∧ Right p st r
  | _ => False

omit [DecidableEq E] [DecidableEq V] in
theorem Right.follows {r : Option (Joined E V)} {b : Label Party Act Env} {st' : Status}
    (h : Right p st r) (hst : Follows p c b st st') : Right p st' r := by
  cases h with
  | none => exact .none _
  | mainThread => exact .mainThread _
  | result => rw [hst.sent rfl]; exact .result
  | exitError v hv => rw [hst.sent rfl]; exact .exitError v hv
  | panicked => rw [hst.lost rfl]; exact .panicked
  | disconnected => rw [hst.lost rfl]; exact .disconnected

omit [DecidableEq E] [DecidableEq V] in
theorem JoinerAt.same {s₁ : Shared E V} {b : Label Party Act Env} {st' : Status} (h : JoinerAt p st s l)
    (hs : SameReceiver s.ch s₁.ch) (hst : Follows p c b st st') : JoinerAt p st' s₁ l := by
  have howns : Owns s l → Owns s₁ l := fun ho =>
    ⟨ho.ready, hs.receiving.trans ho.receiving, hs.active.trans ho.active⟩
  unfold JoinerAt at h ⊢
  split at h
  · exact ⟨howns h.1, hs.results.trans h.2⟩
  · exact ⟨h.1, hs.receiving.trans h.2.1, hs.results.trans h.2.2⟩
  · exact ⟨howns h.1, hst.sent h.2.1, h.2.2⟩
  · exact ⟨howns h.1, h.2.follows hst⟩
  · exact ⟨h.1, h.2.1, h.2.2.follows hst⟩
  · exact ⟨h.1, h.2.follows hst⟩
  · exact h

variable {plat : Platform Party} {hook : PanicHook.Hook} {isMainThread : Bool}

/-- **What the receive returns**: the result, or `Disconnected` if it is lost. -/
theorem outcome (hc : (sys p).Reachable (init p plat hook isMainThread) c)
    (ht : ThreadAt p st c.shared (c.loc .thread)) {y : Mpsc.Recv} {o : Mpsc.Outcome (Except E V)}
    (hp : (c.loc .joiner).ch.pc = .recvReturn y o) {how : Mpsc.How} (hop : y.op = .recv how none)
    (hresults : c.shared.ch.results = []) :
    st = .sent ∧ o = .ok p.result ∨ st = .lost ∧ o = .disconnected := by
  have hch := mpsc_reachable hc
  have hflow : c.shared.ch.returned ++ Mpsc.inFlight ((toMpsc p).config c) ++ c.shared.ch.queue =
      c.shared.ch.pushed.map Mpsc.Send.value := Mpsc.flow hch
  have hreturned : c.shared.ch.returned = [] := by
    rw [Mpsc.Shared.returned, hresults]
    rfl
  rw [hreturned, List.nil_append] at hflow
  have hgives := (Mpsc.given hch).drop .joiner y o (.inr hp) how hop
  cases ho : o.ok? with
  | some m =>
    have hok : o = .ok m := by cases o <;> cases ho; rfl
    -- the value in flight has been pushed
    have hholds : (((toMpsc p).config c).loc .joiner).pc.holds = [m] := by
      show (c.loc .joiner).ch.pc.holds = [m]
      rw [hp, hok]
      rfl
    have hrun := Mpsc.running_of_holds hch (i := .joiner) (by rw [hholds]; rintro ⟨⟩)
    rw [Mpsc.inFlight_of_running hrun, hholds] at hflow
    have hmem : m ∈ c.shared.ch.pushed.map Mpsc.Send.value := by
      rw [← hflow]
      simp
    obtain ⟨z, hz, rfl⟩ := List.mem_map.1 hmem
    obtain ⟨hst, hvalue⟩ := ht.pushed hz
    exact .inl ⟨hst, by rw [hok, hvalue]⟩
  | none =>
    have hdis := hgives ho
    subst hdis
    have hclosed := (Mpsc.ending hch).gone .joiner (by
      show (c.loc .joiner).ch.pc.foundGone = true
      rw [hp]
      rfl)
    obtain ⟨htold, hne⟩ := ht.no_senders hclosed.handles
    cases st with
    | pending => exact absurd rfl hne
    | lost => exact .inr ⟨rfl, rfl⟩
    | sent =>
      exfalso
      have hactive : c.shared.ch.receiverActive = true :=
        Mpsc.active_of_receives hch (i := .joiner) (y := y) (by
          show (c.loc .joiner).ch.pc.receives = some y
          rw [hp]
          rfl)
      have hnil : Mpsc.inFlight ((toMpsc p).config c) = [] := by
        simp only [Mpsc.inFlight]
        split
        · exact hclosed.holds _
        · rfl
      rw [hnil, show c.shared.ch.queue = [] from hclosed.queue] at hflow
      cases htold with
      | inSend x hx =>
        have hsend := hclosed.no_send (Mpsc.borrowed hch) (i := .thread)
        rw [show ((toMpsc p).config c).loc .thread = (c.loc .thread).ch from rfl, hx] at hsend
        cases hsend
      | ok hl x hvalue hsends hpushed =>
        rw [hpushed] at hflow
        cases hflow
      | rejected hl x hvalue hsends hpushed hgone =>
        rw [hactive] at hgone
        cases hgone

theorem JoinerAt.active (hc : (sys p).Reachable (init p plat hook isMainThread) c)
    (h : JoinerAt p st c.shared (c.loc .joiner)) {j : Join} (hp : (c.loc .joiner).pc = .receiving j) :
    c.shared.ch.receiverActive = true := by
  unfold JoinerAt at h
  rw [hp] at h
  obtain ⟨⟨late, hrecv⟩, -⟩ := h
  have hreceives : (((toMpsc p).config c).loc .joiner).pc.receives = some ⟨.recv j.how none, late⟩ := hrecv
  exact Mpsc.active_of_receives (mpsc_reachable hc) hreceives

omit [DecidableEq E] [DecidableEq V] in
/-- The owner has what the receive has returned. -/
theorem JoinerAt.of_outcome {lch : Mpsc.Local Party (Except E V)} {o : Mpsc.Outcome (Except E V)}
    (h : st = .sent ∧ o = .ok p.result ∨ st = .lost ∧ o = .disconnected) (ho : ∀ pc, Owns s ⟨lch, pc⟩)
    (j : Join) (b : Backend) : JoinerAt p st s ⟨lch, received j b o⟩ := by
  rcases h with ⟨rfl, rfl⟩ | ⟨rfl, rfl⟩
  · have hright := Right.result (p := p)
    cases b with
    | native => exact ⟨ho _, hright⟩
    | wasm =>
      cases hr : p.result with
      | error e =>
        rw [hr] at hright
        exact ⟨ho _, hright⟩
      | ok v =>
        rw [hr] at hright
        cases j with
        | sync => exact ⟨ho _, hright⟩
        | async => exact ⟨ho _, rfl, hr⟩
  · cases b with
    | native => exact ⟨ho _, .panicked⟩
    | wasm => exact ⟨ho _, .disconnected⟩

/-- The receive goes on, or returns. -/
theorem JoinerAt.below (hc : (sys p).Reachable (init p plat hook isMainThread) c)
    (h : JoinerAt p st c.shared (c.loc .joiner)) (ht : ThreadAt p st c.shared (c.loc .thread))
    {b : Mpsc.Act (Except E V)} (hb : b = .step ∧ (c.loc .joiner).ch.pc ≠ .ready ∨ b = .spurious)
    {ch : Mpsc.Shared Party (Except E V)} {lch : Mpsc.Local Party (Except E V)}
    (hs : Mpsc.step .joiner b c.shared.ch (c.loc .joiner).ch = some (ch, lch)) :
    JoinerAt p st { c.shared with ch := ch } ⟨lch, belowPc c.shared (c.loc .joiner) lch⟩ ∧
      SameSender c.shared { c.shared with ch := ch } := by
  have hg := Mpsc.step_goes hs hb
  have hidle : (c.loc .joiner).ch.pc = .ready → lch.pc = .ready ∧ ∃ cv running,
      ch = { c.shared.ch with cv := cv, running := running } := fun hready => by
    have hspurious : b = .spurious := hb.resolve_left fun hb => hb.2 hready
    subst hspurious
    cases hg with
    | quiet cv running hch => exact ⟨(Mpsc.spurious_stays hs).trans hready, cv, running, hch⟩
    | push x hp | returnRecv y o hp => rw [hready] at hp; cases hp
    | returnSend x u hp => rcases hp with ⟨hp, -⟩ | ⟨hp, -⟩ <;> rw [hready] at hp <;> cases hp
  have howns : Owns c.shared (c.loc .joiner) → ∀ pc, Owns { c.shared with ch := ch } ⟨lch, pc⟩ ∧
      SameSender c.shared { c.shared with ch := ch } ∧ ch.results = c.shared.ch.results := fun ho pc => by
    obtain ⟨hready, cv, running, rfl⟩ := hidle ho.ready
    exact ⟨⟨hready, ho.receiving, ho.active⟩, ⟨rfl, id, rfl, rfl, rfl, rfl, id⟩, rfl⟩
  have hpc : (∀ j, (c.loc .joiner).pc ≠ .receiving j) →
      belowPc c.shared (c.loc .joiner) lch = (c.loc .joiner).pc := belowPc_of_ne
  have hat := h
  unfold JoinerAt at hat
  split at hat
  · rename_i hp
    rw [hpc (by rw [hp]; rintro _ ⟨⟩), hp]
    obtain ⟨ho, hsame, hres⟩ := howns hat.1 .handle
    exact ⟨⟨ho, hres.trans hat.2⟩, hsame⟩
  · rename_i j hp
    obtain ⟨⟨late, hrecv⟩, hreceiving, hresults⟩ := hat
    cases hg with
    | quiet cv running hch hsends hrecv₁ =>
      subst hch
      have hpc₁ : belowPc c.shared (c.loc .joiner) lch = .receiving j := by
        unfold belowPc
        split
        · rename_i _ _ _ _ _ hready
          rw [hready, hrecv] at hrecv₁
          cases hrecv₁
        · exact hp
      rw [hpc₁]
      exact ⟨⟨⟨late, hrecv₁.trans hrecv⟩, hreceiving, hresults⟩, ⟨rfl, id, rfl, rfl, rfl, rfl, id⟩⟩
    | push x hpush | returnSend x u hpush =>
      exfalso
      first
        | rw [hpush] at hrecv; cases hrecv
        | rcases hpush with ⟨hpush, -⟩ | ⟨hpush, -⟩ <;> rw [hpush] at hrecv <;> cases hrecv
    | returnRecv y o hret hch hl =>
      subst hch
      have hy : y = ⟨.recv j.how none, late⟩ := by
        rw [hret] at hrecv
        exact Option.some.inj hrecv
      have hpc₁ : belowPc c.shared (c.loc .joiner) lch = received j c.shared.backend o := by
        simp only [belowPc, hp, hret, hl]
      have hactive : c.shared.ch.receiverActive = true := h.active hc hp
      have ho : ∀ pc, Owns { c.shared with ch := Mpsc.returnRecv .joiner y o c.shared.ch } ⟨lch, pc⟩ :=
        fun pc => ⟨hl, by simp [Mpsc.returnRecv, hreceiving], hactive⟩
      rw [hpc₁]
      have hout := outcome hc ht hret (show y.op = .recv j.how none by rw [hy]) hresults
      exact ⟨.of_outcome hout ho j c.shared.backend, ⟨rfl, id, rfl, rfl, rfl, rfl, id⟩⟩
  · rename_i v hp
    rw [hpc (by rw [hp]; rintro _ ⟨⟩), hp]
    obtain ⟨ho, hsame, -⟩ := howns hat.1 (.awaitExit v)
    exact ⟨⟨ho, hat.2⟩, hsame⟩
  · rename_i r hp
    rw [hpc (by rw [hp]; rintro _ ⟨⟩), hp]
    obtain ⟨ho, hsame, -⟩ := howns hat.1 (.consumed r)
    exact ⟨⟨ho, hat.2⟩, hsame⟩
  · rename_i r hp
    rw [hpc (by rw [hp]; rintro _ ⟨⟩), hp]
    obtain ⟨hrecv, hsends, hright⟩ := hat
    cases hg with
    | quiet cv running hch hsends₁ hrecv₁ =>
      subst hch
      exact ⟨⟨hrecv₁.trans hrecv, hsends₁.trans hsends, hright⟩, ⟨rfl, id, rfl, rfl, rfl, rfl, id⟩⟩
    | push x hpush =>
      rw [hpush] at hsends
      cases hsends
    | returnSend x u hret =>
      rcases hret with ⟨hret, -⟩ | ⟨hret, -⟩ <;> rw [hret] at hsends <;> cases hsends
    | returnRecv y o hret =>
      rw [hret] at hrecv
      cases hrecv
  · rename_i r hp
    rw [hpc (by rw [hp]; rintro _ ⟨⟩), hp]
    obtain ⟨hready, cv, running, rfl⟩ := hidle hat.1
    exact ⟨⟨hready, hat.2⟩, ⟨rfl, id, rfl, rfl, rfl, rfl, id⟩⟩
  · exact hat.elim

/-- A step of the owner of the `JoinHandle`. -/
theorem JoinerAt.step (hc : (sys p).Reachable (init p plat hook isMainThread) c)
    (h : JoinerAt p st c.shared (c.loc .joiner)) (ht : ThreadAt p st c.shared (c.loc .thread))
    {s₁ : Shared E V} (m : Move p .joiner c.shared (c.loc .joiner) a s₁ l₁) :
    JoinerAt p st s₁ l₁ ∧ SameSender c.shared s₁ := by
  have hsame : SameSender c.shared c.shared := ⟨rfl, id, rfl, rfl, rfl, rfl, id⟩
  have hat := h
  unfold JoinerAt at hat
  cases m with
  | below a b hb ha ch lch hs => exact h.below hc ht hb hs
  | consume ch lch hs =>
    obtain ⟨hready, hready₁, cv, rfl⟩ := consume_same hs
    refine ⟨?_, ⟨rfl, id, rfl, rfl, rfl, rfl, id⟩⟩
    have howns : Owns c.shared (c.loc .joiner) → ∀ pc,
        Owns { c.shared with ch := { c.shared.ch with cv := cv } } ⟨lch, pc⟩ := fun ho pc =>
      ⟨hready₁, ho.receiving, ho.active⟩
    unfold JoinerAt
    split at hat
    · rename_i hp; rw [hp]; exact ⟨howns hat.1 _, hat.2⟩
    · obtain ⟨⟨late, hrecv⟩, -⟩ := hat
      rw [hready] at hrecv
      cases hrecv
    · rename_i hp; rw [hp]; exact ⟨howns hat.1 _, hat.2⟩
    · rename_i hp; rw [hp]; exact ⟨howns hat.1 _, hat.2⟩
    · rename_i hp; rw [hp]; exact ⟨by rw [hready₁]; rfl, by rw [hready₁]; rfl, hat.2.2⟩
    · rename_i hp; rw [hp]; exact ⟨hready₁, hat.2⟩
    · exact hat.elim
  | call b pc hready hb ch lch hs =>
    rcases hb with ⟨hp, -⟩ | ⟨k, r, todo, e, hp, -⟩ | ⟨k, todo, e, hp, -⟩ | ⟨r, hp, rfl, rfl⟩
    · rw [hp] at hat; exact hat.elim
    · rw [hp] at hat; exact hat.elim
    · rw [hp] at hat; exact hat.elim
    · rw [hp] at hat
      simp only [Mpsc.step] at hs
      split at hs <;> cases hs
      exact ⟨⟨rfl, rfl, hat.2⟩, ⟨rfl, id, rfl, rfl, rfl, rfl, fun _ => rfl⟩⟩
  | join j hp hmain ch lch hs =>
    rw [hp] at hat
    obtain ⟨ho, hresults⟩ := hat
    simp only [Mpsc.step] at hs
    split at hs <;> cases hs
    refine ⟨⟨⟨_, rfl⟩, ?_, hresults⟩, ⟨rfl, id, rfl, rfl, rfl, rfl, id⟩⟩
    show insert Party.joiner c.shared.ch.receiving = {.joiner}
    rw [ho.receiving]
    rfl
  | joinMain j hp hmain =>
    rw [hp] at hat
    exact ⟨⟨⟨hat.1.ready, hat.1.receiving, hat.1.active⟩, .mainThread st⟩, hsame⟩
  | discard hp =>
    rw [hp] at hat
    exact ⟨⟨⟨hat.1.ready, hat.1.receiving, hat.1.active⟩, .none st⟩, hsame⟩
  | exited v hp hready hcode =>
    rw [hp] at hat
    obtain ⟨ho, rfl, hv⟩ := hat
    refine ⟨⟨⟨ho.ready, ho.receiving, ho.active⟩, ?_⟩, hsame⟩
    split
    · exact .exitError v hv
    · have hright := Right.result (p := p)
      rw [hv] at hright
      exact hright
  | cancel hp ch lch hs =>
    rw [hp] at hat
    obtain ⟨⟨late, hrecv⟩, hreceiving, hresults⟩ := hat
    have hactive : c.shared.ch.receiverActive = true := h.active hc hp
    simp only [Mpsc.step] at hs
    split at hs
    · obtain ⟨⟨s₂, l₂⟩, hr, heq⟩ := Option.map_eq_some_iff.1 hs
      obtain ⟨cv, lcv, -, rfl, rfl⟩ := Mpsc.lift_eq_some hr
      cases heq
      have hnone : (c.loc .joiner).ch.pc.sends = none := by
        cases hpc : (c.loc .joiner).ch.pc <;> rw [hpc] at hrecv <;> first | rfl | cases hrecv
      have hdrop : Mpsc.dropFuture .joiner (c.loc .joiner).ch.pc { c.shared.ch with cv := cv } =
          { c.shared.ch with cv := cv, receiving := c.shared.ch.receiving \ {.joiner} } := by
        simp only [Mpsc.dropFuture, hnone, hrecv]
      rw [hdrop]
      exact ⟨⟨⟨rfl, by rw [hreceiving]; rfl, hactive⟩, .none st⟩, ⟨rfl, id, rfl, rfl, rfl, rfl, id⟩⟩
    · cases hs
  | cancelExit v hp =>
    rw [hp] at hat
    exact ⟨⟨⟨hat.1.ready, hat.1.receiving, hat.1.active⟩, .none st⟩, hsame⟩
  | released r hp hready =>
    rw [hp] at hat
    exact ⟨⟨hready, hat.2.2⟩, hsame⟩
  | takeHook hp | setHook prev hp | hook rest hp | hooksDone hp | hookPanics e rest hp
  | closurePanics e hp | closureReturns v hp | ends e hp =>
    rw [hp] at hat
    exact hat.elim

/-! ### Every run -/

/-- Both parties are where they can be. -/
structure At (p : Program E V) (st : Status) (c : Config Party (Shared E V) (Local E V)) : Prop where
  thread : ThreadAt p st c.shared (c.loc .thread)
  joiner : JoinerAt p st c.shared (c.loc .joiner)

theorem At.step (hc : (sys p).Reachable (init p plat hook isMainThread) c) (h : At p st c) {i : Party}
    {s₁ : Shared E V} (hs : Spawn.step p i a c.shared (c.loc i) = some (s₁, l₁)) :
    ∃ st', At p st' (c.set i s₁ l₁) ∧ Follows p c (.agent i a) st st' := by
  cases i with
  | thread =>
    obtain ⟨⟨st', hthread, hst⟩, hrecv, -⟩ := h.thread.step (step_move hs)
    refine ⟨st', ⟨by rw [Config.set_loc_self]; exact hthread, ?_⟩, hst⟩
    rw [Config.set_loc_of_ne (by decide)]
    exact h.joiner.same hrecv hst
  | joiner =>
    obtain ⟨hjoiner, hsender⟩ := h.joiner.step hc h.thread (step_move hs)
    refine ⟨st, ⟨?_, by rw [Config.set_loc_self]; exact hjoiner⟩, .same st⟩
    rw [Config.set_loc_of_ne (by decide)]
    exact h.thread.same hsender

theorem At.env (h : At p st c) {e : Env} {s₁ : Shared E V} (hs : (sys p).env e c.shared = some s₁) :
    At p st ⟨s₁, c.loc⟩ := by
  rcases env_eq_some hs with ⟨e', q, hq, rfl⟩ | ⟨hook, rfl⟩ | rfl
  · exact ⟨h.thread.same ⟨rfl, id, rfl, rfl, rfl, rfl, id⟩,
      h.joiner.same (b := .env e) ⟨rfl, rfl, rfl⟩ (.same (c := c) st)⟩
  · exact ⟨h.thread.same ⟨rfl, id, rfl, rfl, rfl, rfl, id⟩,
      h.joiner.same (b := .env e) ⟨rfl, rfl, rfl⟩ (.same (c := c) st)⟩
  · exact ⟨h.thread.same ⟨rfl, fun _ => Nat.succ_ne_zero 1, rfl, rfl, rfl, rfl, id⟩,
      h.joiner.same (b := .env e) ⟨rfl, rfl, rfl⟩ (.same (c := c) st)⟩

theorem At.next {b : Label Party Act Env} {c' : Config Party (Shared E V) (Local E V)}
    (hc : (sys p).Reachable (init p plat hook isMainThread) c) (h : At p st c)
    (hn : (sys p).next c b = some c') : ∃ st', At p st' c' ∧ Follows p c b st st' := by
  cases b with
  | agent i a =>
    obtain ⟨s₁, l₁, hs, rfl⟩ := System.next_agent hn
    exact h.step hc hs
  | env e =>
    obtain ⟨s₁, hs, rfl⟩ := System.next_env hn
    exact ⟨st, h.env hs, .same st⟩

omit [DecidableEq E] [DecidableEq V] in
theorem At.init : At p .pending (init p plat hook isMainThread) := by
  have hfresh : Fresh (Spawn.init p plat hook isMainThread).shared.ch
      ((Spawn.init p plat hook isMainThread).loc .thread).ch := ⟨rfl, rfl, rfl⟩
  refine ⟨⟨rfl, ?_⟩, ⟨rfl, rfl, rfl⟩, rfl⟩
  show match p.start plat.backend with
    | .cloneSender => _
    | .takeHook | .setHook _ => _
    | .hooks rest => _
    | .closure => _
    | .finish todo e => _
    | .ended e => _
    | _ => False
  cases hback : plat.backend with
  | native => exact ⟨rfl, by rw [show (Spawn.init p plat hook isMainThread).shared.backend = .native from hback]; rfl, ⟨rfl, hfresh⟩, rfl⟩
  | wasm => exact ⟨rfl, hback, rfl, rfl, ⟨rfl, hfresh⟩⟩

theorem At.run {c' : Config Party (Shared E V) (Local E V)}
    (hc : (sys p).Reachable (Spawn.init p plat hook isMainThread) c) (h : At p st c)
    (hrun : (sys p).Reachable c c') :
    ∃ st', At p st' c' ∧ (st = .sent → st' = .sent) ∧ (st = .lost → st' = .lost) := by
  induction hrun with
  | refl => exact ⟨st, h, id, id⟩
  | tail hreach _ hn ih =>
    obtain ⟨st₁, hat, hsent, hlost⟩ := ih
    obtain ⟨st₂, hat₂, hst⟩ := hat.next (hc.trans hreach) hn
    exact ⟨st₂, hat₂, fun h => hst.sent (hsent h), fun h => hst.lost (hlost h)⟩

/-- **Where the parties are**, in every run. -/
theorem at_inv (h : (sys p).Reachable (init p plat hook isMainThread) c) : ∃ st, At p st c := by
  obtain ⟨st, hat, -⟩ := At.init.run .refl h
  exact ⟨st, hat⟩

/-- In a guarded run the result is not lost. -/
theorem at_guarded
    (h : (sys p).Reach (fun c a => Guarded p c a = true) (init p plat hook isMainThread) c) :
    ∃ st, st ≠ .lost ∧ At p st c := by
  induction h with
  | refl => exact ⟨.pending, nofun, At.init⟩
  | tail hc hP hn ih =>
    obtain ⟨st, hne, hat⟩ := ih
    obtain ⟨st₁, hat₁, hst⟩ := hat.next hc.reachable hn
    exact ⟨st₁, fun hlost => hne (hst.guarded hP hlost), hat₁⟩

end

end Spawn

end WasmSafeThread
