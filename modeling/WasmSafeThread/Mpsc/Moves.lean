import WasmSafeThread.Mpsc.Basic
import WasmSafeThread.Condvar.Registration

/-!
# What one operation on the channel can do

* `Move` : all that a step of an agent can do, with the step of the condition variable under it;
  `step_move` is the inversion lemma.
* `toCondvar` : a run of the channel is, seen from the condition variable, a run of the condition
  variable.
* `Shape` : how the three frames of a call fit.
-/

namespace WasmSafeThread

namespace Mpsc

variable {ι T : Type*} [DecidableEq ι] [DecidableEq T] {i : ι} {a : Act T}
  {b : Condvar.Act (Option T) (List T)} {s s₁ : Shared ι T} {l l₁ : Local ι T} {p p₁ : Pc T}

/-! ### The inversion lemma -/

/-- The calls that a call on the channel makes below, but for the accesses to the queue. -/
inductive Calls (canBlock : Bool) : Pc T → Condvar.Act (Option T) (List T) → Pc T → Prop
  | sendLock (x : Send T) :
      Calls canBlock (.sendLock x) (.lock (x.how.lock canBlock none)) (.sendRecheck x)
  | sendDrop (x : Send T) : Calls canBlock (.sendDrop x) .drop (.sendNotify x)
  | sendNotify (x : Send T) : Calls canBlock (.sendNotify x) .notifyOne (.sendReturn x)
  | sendReject (x : Send T) : Calls canBlock (.sendReject x) .drop (.sendErr x)
  | tryLock (y : Recv) (hy : y.op = .tryRecv) :
      Calls canBlock (.recvLock y) (.lock .tryLock) (.recvPop y)
  | recvLock (y : Recv) (how : How) (deadline : Option ℕ) (hy : y.op = .recv how deadline) :
      Calls canBlock (.recvLock y) (.lock (how.lock canBlock deadline)) (.recvPop y)
  | recvWait (y : Recv) (how : How) (deadline : Option ℕ) (hy : y.op = .recv how deadline) :
      Calls canBlock (.recvWait y) (how.wait canBlock deadline) (.recvWaited y)
  | recvDrop (y : Recv) (r : Outcome T) : Calls canBlock (.recvDrop y r) .drop (.recvReturn y r)
  | senderNotify : Calls canBlock .senderNotify .notifyAll .senderReturn
  | receiverNotify : Calls canBlock .receiverNotify .notifyAll .receiverReturn
  | consume : Calls canBlock .ready .consume .ready

/-- The operations that read the state of the channel only. -/
inductive Reads (s : Shared ι T) (l : Local ι T) : Pc T → Pc T → Prop
  | sendLoad (x : Send T) (h : s.receiverActive = true) : Reads s l (.sendLoad x) (.sendLock x)
  | sendLoadGone (x : Send T) (h : s.receiverActive = false) :
      Reads s l (.sendLoad x) (.sendErr x)
  | sendRecheck (x : Send T) (hg : l.cv.mx.pc = .guard) (h : s.receiverActive = true) :
      Reads s l (.sendRecheck x) (.sendPush x)
  | sendRecheckGone (x : Send T) (hg : l.cv.mx.pc = .guard) (h : s.receiverActive = false) :
      Reads s l (.sendRecheck x) (.sendReject x)
  | tryFailed (y : Recv) (hg : l.cv.mx.pc = .failed) (hy : y.op = .tryRecv) :
      Reads s l (.recvPop y) (.recvReturn y .empty)
  | lockFailed (y : Recv) (hg : l.cv.mx.pc = .failed) (how : How) (d : ℕ)
      (hy : y.op = .recv how (some d)) : Reads s l (.recvPop y) (.recvReturn y .timeout)
  | disconnected (y : Recv) (h : s.senderCount = 0) :
      Reads s l (.recvLoad y) (.recvDrop y .disconnected)
  | empty (y : Recv) (h : s.senderCount ≠ 0) (hy : y.op = .tryRecv) :
      Reads s l (.recvLoad y) (.recvDrop y .empty)
  | wait (y : Recv) (h : s.senderCount ≠ 0) (how : How) (deadline : Option ℕ)
      (hy : y.op = .recv how deadline) : Reads s l (.recvLoad y) (.recvWait y)
  | timedOut (y : Recv) (how : How) (d : ℕ) (hy : y.op = .recv how (some d)) :
      Reads s l (.recvWaited y) (.recvDrop y .timeout)
  | notified (y : Recv) : Reads s l (.recvWaited y) (.recvPop y)
  | senderReturn : Reads s l .senderReturn .ready
  | receiverReturn : Reads s l .receiverReturn .ready

/-- Who has the receiver's thread after a step of agent `i` that is then at `p`. -/
inductive Settled (i : ι) (s : Shared ι T) (p : Pc T) (lcv : Condvar.Local ι (Option T)) :
    Option ι → Prop
  /-- The agent is in no receive. -/
  | other (hp : p.receives = none) : Settled i s p lcv s.running
  /-- The agent is in a receive: it had its turn, and keeps it until it is suspended. -/
  | receive (y : Recv) (hp : p.receives = some y) (hturn : s.running = none ∨ s.running = some i) :
      Settled i s p lcv (if suspended lcv then none else some i)

/-- What a step does. -/
inductive Move (i : ι) (s : Shared ι T) (l : Local ι T) : Shared ι T → Local ι T → Prop
  /-- A call below goes on. -/
  | below (b : Condvar.Act (Option T) (List T)) (hb : b = .step ∧ l.cv.atRest = false ∨ b = .spurious)
      (cv : Condvar.Shared ι (Option T) (List T)) (lcv : Condvar.Local ι (Option T))
      (h : Condvar.step i b s.cv l.cv = some (cv, lcv)) (running : Option ι)
      (hrun : Settled i s l.pc lcv running) :
      Move i s l { s with cv := cv, running := running } ⟨lcv, l.pc⟩
  /-- A call below starts. -/
  | call (b : Condvar.Act (Option T) (List T)) (p : Pc T)
      (hcall : Calls (s.cv.mx.plat.canBlock i) l.pc b p)
      (cv : Condvar.Shared ι (Option T) (List T)) (lcv : Condvar.Local ι (Option T))
      (h : Condvar.step i b s.cv l.cv = some (cv, lcv)) (running : Option ι)
      (hrun : Settled i s p lcv running) :
      Move i s l { s with cv := cv, running := running } ⟨lcv, p⟩
  /-- The state of the channel is read. -/
  | reads (p : Pc T) (hrest : l.cv.atRest = true) (hreads : Reads s l l.pc p)
      (running : Option ι) (hrun : Settled i s p l.cv running) :
      Move i s l { s with running := running } (l.goto p)
  /-- `push_back`. -/
  | push (x : Send T) (hp : l.pc = .sendPush x)
      (cv : Condvar.Shared ι (Option T) (List T)) (lcv : Condvar.Local ι (Option T))
      (h : Condvar.step i (.access (pushBack x.value)) s.cv l.cv = some (cv, lcv)) :
      Move i s l { s with cv := cv, pushed := s.pushed ++ [x] } ⟨lcv, .sendDrop x⟩
  /-- `pop_front`. -/
  | pop (y : Recv) (hp : l.pc = .recvPop y) (hg : l.cv.mx.pc = .guard)
      (cv : Condvar.Shared ι (Option T) (List T)) (lcv : Condvar.Local ι (Option T))
      (h : Condvar.step i (.access popFront) s.cv l.cv = some (cv, lcv)) (running : Option ι)
      (hrun : Settled i s l.pc lcv running) :
      Move i s l { s with cv := cv, running := running }
        ⟨lcv, match lcv.mx.reg with
          | some t => .recvDrop y (.ok t)
          | none => .recvLoad y⟩
  /-- A send returns. -/
  | returnOk (x : Send T) (hp : l.pc = .sendReturn x) (hrest : l.cv.atRest = true) :
      Move i s l (returnSend i x (.ok ()) s) (l.goto .ready)
  | returnErr (x : Send T) (hp : l.pc = .sendErr x) (hrest : l.cv.atRest = true) :
      Move i s l (returnSend i x (.error x.value) s) (l.goto .ready)
  /-- A receive returns. -/
  | returnRecv (y : Recv) (r : Outcome T) (hp : l.pc = .recvReturn y r)
      (hrest : l.cv.atRest = true) (hturn : turn i s l = true) :
      Move i s l (returnRecv i y r s) (l.goto .ready)
  /-- A pending future is dropped. -/
  | cancel (cv : Condvar.Shared ι (Option T) (List T)) (lcv : Condvar.Local ι (Option T))
      (h : Condvar.step i .cancel s.cv l.cv = some (cv, lcv)) (hturn : turn i s l = true) :
      Move i s l (dropFuture i l.pc { s with cv := cv }) ⟨lcv, .ready⟩
  /-- A send is called. -/
  | send (how : How) (handle : ℕ) (t : T) (hp : l.pc = .ready) (hh : handle ∈ s.handles) :
      Move i s l
        { s with
          borrows := Function.update s.borrows handle (insert i (s.borrows handle))
          tickets := s.tickets + 1 }
        (l.goto (.sendLoad ⟨how, handle, t, s.tickets, !s.receiverActive⟩))
  /-- A receive is called. -/
  | recv (op : RecvOp) (hp : l.pc = .ready) (hactive : s.receiverActive = true)
      (hrun : s.running = none) :
      Move i s l { s with receiving := insert i s.receiving, running := some i }
        (l.goto (.recvLock ⟨op, s.disconnected⟩))
  | clone (handle : ℕ) (hp : l.pc = .ready) (hh : handle ∈ s.handles) :
      Move i s l
        { s with
          senderCount := s.senderCount + 1
          handles := insert s.nextHandle s.handles
          nextHandle := s.nextHandle + 1 } l
  | dropSender (handle : ℕ) (hp : l.pc = .ready) (hh : handle ∈ s.handles)
      (hb : s.borrows handle = ∅) :
      Move i s l { s with senderCount := s.senderCount - 1, handles := s.handles.erase handle }
        (l.goto (if s.senderCount = 1 then .senderNotify else .ready))
  | dropReceiver (hp : l.pc = .ready) (hactive : s.receiverActive = true)
      (hrecv : s.receiving = ∅) :
      Move i s l { s with receiverActive := false } (l.goto .receiverNotify)

omit [DecidableEq T] in
theorem dropFuture_eq (i : ι) (p : Pc T) (s : Shared ι T) :
    ∃ B R, dropFuture i p s = { s with borrows := B, receiving := R } := by
  simp only [dropFuture]
  split <;> exact ⟨_, _, rfl⟩

omit [DecidableEq T] in
theorem lift_eq_some (h : lift i b s l p = some (s₁, l₁)) :
    ∃ cv lcv, Condvar.step i b s.cv l.cv = some (cv, lcv) ∧ s₁ = { s with cv := cv } ∧
      l₁ = ⟨lcv, p⟩ := by
  simp only [lift, Option.map_eq_some_iff, Prod.mk.injEq] at h
  obtain ⟨⟨cv, lcv⟩, hcv, rfl, rfl⟩ := h
  exact ⟨cv, lcv, hcv, rfl, rfl⟩

omit [DecidableEq ι] [DecidableEq T] in
theorem Calls.sends {canBlock : Bool} (h : Calls canBlock p b p₁) : p₁.sends = p.sends := by
  cases h <;> rfl

omit [DecidableEq ι] [DecidableEq T] in
theorem Calls.receives {canBlock : Bool} (h : Calls canBlock p b p₁) :
    p₁.receives = p.receives := by
  cases h <;> rfl

omit [DecidableEq ι] [DecidableEq T] in
theorem How.wait_eq (how : How) (canBlock : Bool) (deadline : Option ℕ) :
    ∃ k, (how.wait canBlock deadline : Condvar.Act (Option T) (List T)) = .wait k deadline := by
  cases how <;> exact ⟨_, rfl⟩

omit [DecidableEq ι] [DecidableEq T] in
theorem Calls.not_access {canBlock : Bool} (h : Calls canBlock p b p₁) :
    ∀ f, b ≠ .access f := by
  intro f hf
  cases h with
  | recvWait y how deadline =>
    obtain ⟨k, hk⟩ := how.wait_eq (T := T) canBlock deadline
    rw [hk] at hf
    cases hf
  | _ => cases hf

omit [DecidableEq ι] [DecidableEq T] in
theorem Calls.not_step {canBlock : Bool} (h : Calls canBlock p b p₁) : b ≠ .step := by
  intro hb
  cases h with
  | recvWait y how deadline =>
    obtain ⟨k, hk⟩ := how.wait_eq (T := T) canBlock deadline
    rw [hk] at hb
    cases hb
  | _ => cases hb

omit [DecidableEq ι] [DecidableEq T] in
theorem Calls.ne_senderNotify {canBlock : Bool} (h : Calls canBlock p b p₁) :
    p₁ ≠ .senderNotify := by
  cases h <;> exact nofun

omit [DecidableEq ι] [DecidableEq T] in
theorem Reads.sends (h : Reads s l p p₁) : p₁.sends = p.sends := by
  cases h <;> rfl

omit [DecidableEq ι] [DecidableEq T] in
theorem Reads.receives (h : Reads s l p p₁) : p₁.receives = p.receives := by
  cases h <;> rfl

omit [DecidableEq T] in
theorem settle_eq (s₁ : Shared ι T) (l₁ : Local ι T) (hturn : turn i s l = true)
    (hrecv : l₁.pc.receives = l.pc.receives)
    (hrun : s₁.running = s.running) : ∃ running, Settled i s l₁.pc l₁.cv running ∧
      settle i (s₁, l₁) = ({ s₁ with running := running }, l₁) := by
  cases hy : l₁.pc.receives with
  | none => exact ⟨s.running, .other hy, by simp [settle, hy, ← hrun]⟩
  | some y =>
    refine ⟨_, .receive y hy ?_, by simp [settle, hy]⟩
    simpa [turn, ← hrecv, hy] using hturn

theorem settle_call (hturn : turn i s l = true)
    (h : lift i b s l p = some (s₁, l₁)) (hcall : Calls (s.cv.mx.plat.canBlock i) l.pc b p) :
    Move i s l (settle i (s₁, l₁)).1 l₁ := by
  obtain ⟨cv, lcv, hcv, rfl, rfl⟩ := lift_eq_some h
  obtain ⟨running, hrun, heq⟩ := settle_eq { s with cv := cv } ⟨lcv, p⟩ hturn
    hcall.receives rfl
  rw [heq]
  exact .call b p hcall cv lcv hcv running hrun

theorem settle_reads (hturn : turn i s l = true) (hrest : l.cv.atRest = true)
    (hreads : Reads s l l.pc p) : Move i s l (settle i (s, l.goto p)).1 (l.goto p) := by
  obtain ⟨running, hrun, heq⟩ := settle_eq s (l.goto p) hturn hreads.receives rfl
  rw [heq]
  exact .reads p hrest hreads running hrun

/-- One operation of a call on the channel. -/
theorem advance_move (hturn : turn i s l = true) (hrest : l.cv.atRest = true)
    (h : advance i s l = some (s₁, l₁)) : Move i s l (settle i (s₁, l₁)).1 l₁ := by
  cases hp : l.pc with
  | ready => simp [advance, hp] at h
  | sendLoad x =>
    simp only [advance, hp] at h
    cases h
    refine settle_reads hturn hrest ?_
    rw [hp]
    split
    · exact .sendLoad x ‹_›
    · rename_i hgone
      exact .sendLoadGone x (by simpa using hgone)
  | sendRecheck x =>
    simp only [advance, hp] at h
    split at h <;> cases h
    refine settle_reads hturn hrest ?_
    rw [hp]
    split
    · exact .sendRecheck x ‹_› ‹_›
    · rename_i hgone
      exact .sendRecheckGone x ‹_› (by simpa using hgone)
  | sendPush x =>
    simp only [advance, hp, Option.map_eq_some_iff, Prod.mk.injEq] at h
    obtain ⟨⟨s₂, l₂⟩, hlift, rfl, rfl⟩ := h
    obtain ⟨cv, lcv, hcv, rfl, rfl⟩ := lift_eq_some hlift
    exact .push x hp cv lcv hcv
  | sendLock x =>
    simp only [advance, hp] at h
    exact settle_call hturn h (by rw [hp]; exact .sendLock x)
  | sendDrop x =>
    simp only [advance, hp] at h
    exact settle_call hturn h (by rw [hp]; exact .sendDrop x)
  | sendNotify x =>
    simp only [advance, hp] at h
    exact settle_call hturn h (by rw [hp]; exact .sendNotify x)
  | sendReject x =>
    simp only [advance, hp] at h
    exact settle_call hturn h (by rw [hp]; exact .sendReject x)
  | recvDrop y r =>
    simp only [advance, hp] at h
    exact settle_call hturn h (by rw [hp]; exact .recvDrop y r)
  | senderNotify =>
    simp only [advance, hp] at h
    exact settle_call hturn h (by rw [hp]; exact .senderNotify)
  | receiverNotify =>
    simp only [advance, hp] at h
    exact settle_call hturn h (by rw [hp]; exact .receiverNotify)
  | recvLock y =>
    simp only [advance, hp] at h
    split at h
    · exact settle_call hturn h (by rw [hp]; exact .tryLock y ‹_›)
    · exact settle_call hturn h (by rw [hp]; exact .recvLock y _ _ ‹_›)
  | recvWait y =>
    simp only [advance, hp] at h
    split at h
    · cases h
    · exact settle_call hturn h (by rw [hp]; exact .recvWait y _ _ ‹_›)
  | sendReturn x =>
    simp only [advance, hp] at h
    cases h
    exact .returnOk x hp hrest
  | sendErr x =>
    simp only [advance, hp] at h
    cases h
    exact .returnErr x hp hrest
  | recvReturn y r =>
    simp only [advance, hp] at h
    cases h
    exact .returnRecv y r hp hrest hturn
  | recvPop y =>
    simp only [advance, hp] at h
    split at h
    · simp only [Option.map_eq_some_iff] at h
      obtain ⟨⟨s₂, l₂⟩, hlift, heq⟩ := h
      obtain ⟨cv, lcv, hcv, rfl, rfl⟩ := lift_eq_some hlift
      obtain ⟨running, hrun, hsettle⟩ := settle_eq { s with cv := cv } ⟨lcv, l.pc⟩ hturn rfl rfl
      have hmove := Move.pop y hp ‹_› cv lcv hcv running hrun
      have hrunning := congrArg (fun r => r.1.running) hsettle
      simp only [settle, hp, Pc.receives, Option.isSome_some, if_true] at hrunning
      cases hreg : lcv.mx.reg <;> simp only [hreg] at heq hmove <;> cases heq <;>
        rw [← hrunning] at hmove <;> exact hmove
    · cases h
      exact settle_reads hturn hrest (by rw [hp]; exact .tryFailed y ‹_› ‹_›)
    · cases h
      exact settle_reads hturn hrest (by rw [hp]; exact .lockFailed y ‹_› _ _ ‹_›)
    · cases h
  | recvLoad y =>
    simp only [advance, hp] at h
    cases h
    refine settle_reads hturn hrest ?_
    rw [hp]
    by_cases hcount : s.senderCount = 0
    · rw [if_pos hcount]
      exact .disconnected y hcount
    · rw [if_neg hcount]
      cases hop : y.op with
      | tryRecv => exact .empty y hcount hop
      | recv how deadline => exact .wait y hcount how deadline hop
  | recvWaited y =>
    simp only [advance, hp] at h
    cases h
    refine settle_reads hturn hrest ?_
    rw [hp]
    split
    · split
      · exact .timedOut y _ _ ‹_›
      · exact .notified y
    · exact .notified y
  | senderReturn =>
    simp only [advance, hp] at h
    cases h
    exact settle_reads hturn hrest (by rw [hp]; exact .senderReturn)
  | receiverReturn =>
    simp only [advance, hp] at h
    cases h
    exact settle_reads hturn hrest (by rw [hp]; exact .receiverReturn)

omit [DecidableEq ι] [DecidableEq T] in
theorem settle_parts {r : Shared ι T × Local ι T} (h : settle i r = (s₁, l₁)) :
    (settle i r).1 = s₁ ∧ r.2 = l₁ := by
  refine ⟨by rw [h], ?_⟩
  rw [settle] at h
  split at h <;> cases h <;> rfl

theorem settle_below {cv : Condvar.Shared ι (Option T) (List T)}
    {lcv : Condvar.Local ι (Option T)} (hturn : turn i s l = true)
    (hb : b = .step ∧ l.cv.atRest = false ∨ b = .spurious)
    (h : Condvar.step i b s.cv l.cv = some (cv, lcv))
    (heq : settle i ({ s with cv := cv }, ⟨lcv, l.pc⟩) = (s₁, l₁)) : Move i s l s₁ l₁ := by
  obtain ⟨running, hrun, hsettle⟩ := settle_eq { s with cv := cv } ⟨lcv, l.pc⟩ hturn
    rfl rfl
  rw [hsettle] at heq
  cases heq
  exact .below b hb cv lcv h running hrun

/-- **All that a step can do.** -/
theorem step_move (h : step i a s l = some (s₁, l₁)) : Move i s l s₁ l₁ := by
  cases a with
  | send how handle t =>
    simp only [step] at h
    split at h <;> cases h
    rename_i hc
    exact .send how handle t hc.1 hc.2
  | recv op =>
    simp only [step] at h
    split at h <;> cases h
    rename_i hc
    exact .recv op hc.1 hc.2.1 hc.2.2
  | clone handle =>
    simp only [step] at h
    split at h <;> cases h
    rename_i hc
    exact .clone handle hc.1 hc.2
  | dropSender handle =>
    simp only [step] at h
    split at h <;> cases h
    rename_i hc
    exact .dropSender handle hc.1 hc.2.1 hc.2.2
  | dropReceiver =>
    simp only [step] at h
    split at h <;> cases h
    rename_i hc
    exact .dropReceiver hc.1 hc.2.1 hc.2.2
  | consume =>
    simp only [step] at h
    split at h
    · rename_i hp
      obtain ⟨cv, lcv, hcv, rfl, rfl⟩ := lift_eq_some h
      exact .call _ _ (by rw [hp]; exact .consume) cv lcv hcv s.running (.other rfl)
    · cases h
  | step =>
    simp only [step] at h
    split at h
    · rename_i hturn
      obtain ⟨⟨s₂, l₂⟩, hr, heq⟩ := Option.map_eq_some_iff.1 h
      split at hr
      · obtain ⟨hs, hl⟩ := settle_parts heq
        rw [← hs, ← hl]
        exact advance_move hturn ‹_› hr
      · rename_i hbusy
        obtain ⟨cv, lcv, hcv, rfl, rfl⟩ := lift_eq_some hr
        exact settle_below hturn (.inl ⟨rfl, by simpa using hbusy⟩) hcv heq
    · cases h
  | spurious =>
    simp only [step] at h
    split at h
    · obtain ⟨⟨s₂, l₂⟩, hr, heq⟩ := Option.map_eq_some_iff.1 h
      obtain ⟨cv, lcv, hcv, rfl, rfl⟩ := lift_eq_some hr
      exact settle_below ‹_› (.inr rfl) hcv heq
    · cases h
  | cancel =>
    simp only [step] at h
    split at h
    · simp only [Option.map_eq_some_iff, Prod.mk.injEq] at h
      obtain ⟨⟨s₂, l₂⟩, hr, rfl, rfl⟩ := h
      obtain ⟨cv, lcv, hcv, rfl, rfl⟩ := lift_eq_some hr
      exact .cancel cv lcv hcv ‹_›
    · cases h

/-! ### The condition variable under the channel -/

theorem Move.condvar (m : Move i s l s₁ l₁) :
    s₁.cv = s.cv ∧ l₁.cv = l.cv ∨ ∃ b, Condvar.step i b s.cv l.cv = some (s₁.cv, l₁.cv) := by
  cases m with
  | below b _ cv lcv h | call b _ _ cv lcv h => exact .inr ⟨b, h⟩
  | push x _ cv lcv h => exact .inr ⟨_, h⟩
  | pop y _ _ cv lcv h => exact .inr ⟨_, h⟩
  | cancel cv lcv h =>
    refine .inr ⟨.cancel, ?_⟩
    simp only [dropFuture]
    split <;> exact h
  | _ => exact .inl ⟨rfl, rfl⟩

/-- **The condition variable under the channel.** -/
def toCondvar : Projection (sys (ι := ι) (T := T))
    (Condvar.sys (ι := ι) (R := Option T) (D := List T)) where
  shared s := s.cv
  loc l := l.cv
  step h := (step_move h).condvar.imp_right .inl
  env {e s s₁} h := by
    simp only [sys, Option.map_eq_some_iff] at h
    obtain ⟨p, hp, rfl⟩ := h
    exact .inr ⟨e, by simp [Condvar.sys, hp, Shared.setPlat]⟩

variable {plat : Platform ι} {c c₁ : Config ι (Shared ι T) (Local ι T)}

theorem condvar_reachable (h : sys.Reachable (init plat) c) :
    Condvar.sys.Reachable (Condvar.init plat [] fun _ => none) (toCondvar.config c) :=
  toCondvar.reachable h

/-! ### The frames of a call -/

/-- What a call on the channel does with the frames below. -/
inductive Phase where
  /-- Nothing is in progress below, and the agent has no guard. -/
  | rest
  /-- A guard is being dropped, or was. -/
  | dropping
  /-- A notification is in progress, or was. -/
  | notifying
  /-- The agent has the guard. -/
  | guarded
  /-- The agent is in an acquisition, or has its result. -/
  | locking
  /-- The agent is in a wait, or is back with the guard. -/
  | waiting

/-- The phase of a control point. -/
def Pc.phase : Pc T → Phase
  | .ready | .sendLoad _ | .sendLock _ | .recvLock _ | .senderNotify | .receiverNotify => .rest
  | .sendNotify _ | .sendErr _ | .recvReturn _ _ => .dropping
  | .sendReturn _ | .senderReturn | .receiverReturn => .notifying
  | .sendPush _ | .sendDrop _ | .sendReject _ | .recvLoad _ | .recvWait _ | .recvDrop _ _ => .guarded
  | .sendRecheck _ | .recvPop _ => .locking
  | .recvWaited _ => .waiting

/-- The frames below fit the phase. -/
def Phase.Fits (l : Condvar.Local ι (Option T)) : Phase → Prop
  | .rest => l.pc = .ready ∧ l.mx.pc.atRest = true ∧ l.mx.pc.quiet = true
  | .dropping => l.pc = .ready ∧ l.mx.pc.quiet = true
  | .notifying => l.pc.inWait = false ∧ l.mx.pc.atRest = true ∧ l.mx.pc.quiet = true
  | .guarded => l.pc = .ready ∧ l.mx.pc = .guard
  | .locking => l.pc = .ready
  | .waiting => l.pc.inWait = true ∨ l.pc = .ready ∧ l.mx.pc = .guard

/-- The frames below fit the control point. -/
def Local.Shape (l : Local ι T) : Prop := l.pc.phase.Fits l.cv

variable {lcv lcv₁ : Condvar.Local ι (Option T)} {cv cv₁ : Condvar.Shared ι (Option T) (List T)}

omit [DecidableEq ι] [DecidableEq T] in
theorem Phase.Fits.rest_of_atRest {ph : Phase} (hph : ph = .dropping ∨ ph = .notifying)
    (h : ph.Fits lcv) (hrest : lcv.atRest = true) : Phase.rest.Fits lcv := by
  obtain ⟨hmx, hpc⟩ := Condvar.Local.atRest_iff.1 hrest
  rcases hph with rfl | rfl
  · exact ⟨hpc, hmx, h.2⟩
  · exact ⟨hpc, hmx, h.2.2⟩

omit [DecidableEq T] in
/-- A call below that goes on stays in its phase. -/
theorem Phase.Fits.below {ph : Phase} (h : ph.Fits lcv)
    (hb : b = .step ∧ lcv.atRest = false ∨ b = .spurious)
    (hs : Condvar.step i b cv lcv = some (cv₁, lcv₁)) : ph.Fits lcv₁ := by
  rcases Condvar.step_goes_on hb hs with ⟨hpc, hmx, b', hb', hm⟩ | ⟨hmx, hne, hcv⟩
  · -- the mutex moves: this is a drop, an acquisition, or one of a wait
    have hquiet : lcv.mx.pc.quiet = true → lcv₁.mx.pc.quiet = true :=
      Mutex.step_quiet hm (by rcases hb' with rfl | rfl <;> exact nofun)
    cases ph with
    | rest => rw [h.2.1] at hmx; cases hmx
    | dropping => exact ⟨hpc.trans h.1, hquiet h.2⟩
    | notifying => rw [h.2.1] at hmx; cases hmx
    | guarded => rw [h.2] at hmx; cases hmx
    | locking => exact hpc.trans h
    | waiting =>
      rcases h with h | ⟨-, hg⟩
      · exact .inl (by rw [hpc]; exact h)
      · rw [hg] at hmx; cases hmx
  · cases ph with
    | rest | dropping | guarded => exact absurd h.1 hne
    | locking => exact absurd h hne
    | notifying =>
      rcases hcv with ⟨-, hadv⟩ | ⟨hwait, -, -⟩
      · obtain ⟨hwait, hlmx⟩ := Condvar.advance_notify h.1 hadv
        exact ⟨hwait, by rw [hlmx]; exact h.2⟩
      · rw [h.1] at hwait; cases hwait
    | waiting =>
      rcases h with h | ⟨hready, -⟩
      · rcases hcv with ⟨-, hadv⟩ | ⟨-, hwait, -⟩
        · exact Condvar.advance_inWait h hadv
        · exact .inl hwait
      · exact absurd hready hne

omit [DecidableEq T] in
theorem lock_ready {op : Mutex.Op} (hs : Condvar.step i (.lock op) cv lcv = some (cv₁, lcv₁)) :
    lcv₁.pc = .ready := by
  simp only [Condvar.step] at hs
  split at hs
  · obtain ⟨m, lm, -, -, rfl⟩ := Condvar.lift_eq_some hs
    rfl
  · cases hs

omit [DecidableEq T] in
theorem access_guarded {f : Mutex.Access (Option T) (List T)}
    (hs : Condvar.step i (.access f) cv lcv = some (cv₁, lcv₁)) :
    lcv₁.pc = .ready ∧ lcv₁.mx.pc = .guard ∧ lcv.mx.pc = .guard ∧
      (lcv₁.mx.reg, cv₁.mx.inner) = f (lcv.mx.reg, cv.mx.inner) := by
  simp only [Condvar.step] at hs
  split at hs
  · obtain ⟨m, lm, hm, rfl, rfl⟩ := Condvar.lift_eq_some hs
    cases hp : lcv.mx.pc <;> simp only [Mutex.step, hp, reduceCtorEq] at hm
    cases hm
    exact ⟨rfl, rfl, rfl, rfl⟩
  · cases hs

omit [DecidableEq T] in
theorem drop_dropping (hs : Condvar.step i .drop cv lcv = some (cv₁, lcv₁)) :
    lcv₁.pc = .ready ∧ lcv₁.mx.pc.quiet = true := by
  simp only [Condvar.step] at hs
  split at hs
  · obtain ⟨m, lm, hm, rfl, rfl⟩ := Condvar.lift_eq_some hs
    cases hp : lcv.mx.pc <;> simp only [Mutex.step, hp, reduceCtorEq] at hm
    cases hm
    exact ⟨rfl, rfl⟩
  · cases hs

omit [DecidableEq T] in
/-- A call below that starts is in the next phase. -/
theorem Calls.fits {canBlock : Bool} (hc : Calls canBlock p b p₁) (h : p.phase.Fits lcv)
    (hs : Condvar.step i b cv lcv = some (cv₁, lcv₁)) : p₁.phase.Fits lcv₁ := by
  cases hc with
  | sendLock | tryLock | recvLock => exact lock_ready hs
  | sendDrop | sendReject | recvDrop => exact drop_dropping hs
  | sendNotify | senderNotify | receiverNotify =>
    simp only [Condvar.step] at hs
    split at hs <;> cases hs
    rename_i hrest
    have hmx := (Condvar.Local.atRest_iff.1 hrest).1
    first
    | exact ⟨rfl, hmx, h.2⟩
    | exact ⟨rfl, h.2⟩
  | recvWait y how deadline =>
    obtain ⟨k, hk⟩ := how.wait_eq (T := T) canBlock deadline
    rw [hk] at hs
    simp only [Condvar.step] at hs
    split at hs <;> cases hs
    exact .inl rfl
  | consume =>
    simp only [Condvar.step] at hs
    split at hs
    · obtain ⟨m, lm, hm, rfl, rfl⟩ := Condvar.lift_eq_some hs
      simp only [Mutex.step] at hm
      split at hm <;> cases hm
      exact ⟨rfl, h.2⟩
    · cases hs

omit [DecidableEq ι] [DecidableEq T] in
theorem Reads.fits (hr : Reads s l p p₁) (h : p.phase.Fits l.cv) (hrest : l.cv.atRest = true) :
    p₁.phase.Fits l.cv := by
  obtain ⟨hmx, hpc⟩ := Condvar.Local.atRest_iff.1 hrest
  cases hr with
  | sendLoad => exact h
  | sendLoadGone => exact ⟨h.1, h.2.2⟩
  | sendRecheck _ hg | sendRecheckGone _ hg => exact ⟨hpc, hg⟩
  | tryFailed _ hg | lockFailed _ hg => exact ⟨hpc, by rw [hg]; rfl⟩
  | disconnected | empty | wait => exact h
  | timedOut =>
    rcases h with h | h
    · rw [hpc] at h; cases h
    · exact h
  | notified => exact hpc
  | senderReturn | receiverReturn => exact h.rest_of_atRest (.inr rfl) hrest

/-- **The frames of a call fit** after every step. -/
theorem Move.shape (m : Move i s l s₁ l₁) (hl : l.Shape) (hcv : l.cv.Shape) : l₁.Shape := by
  cases m with
  | below b hb cv lcv h => exact Phase.Fits.below hl hb h
  | call b p hcall cv lcv h => exact hcall.fits hl h
  | reads p hrest hreads => exact hreads.fits hl hrest
  | push x hp cv lcv h =>
    obtain ⟨hpc, hg, -⟩ := access_guarded h
    exact ⟨hpc, hg⟩
  | pop y hp hg cv lcv h =>
    obtain ⟨hpc, hg, -⟩ := access_guarded h
    simp only [Local.Shape]
    split <;> exact ⟨hpc, hg⟩
  | returnOk x hp hrest =>
    rw [Local.Shape, hp] at hl
    exact hl.rest_of_atRest (.inr rfl) hrest
  | returnErr x hp hrest =>
    rw [Local.Shape, hp] at hl
    exact hl.rest_of_atRest (.inl rfl) hrest
  | returnRecv y r hp hrest =>
    rw [Local.Shape, hp] at hl
    exact hl.rest_of_atRest (.inl rfl) hrest
  | cancel cv lcv h => exact Condvar.step_cancel hcv h
  | clone => exact hl
  | dropSender handle hp =>
    rw [Local.Shape, hp] at hl
    simp only [Local.Shape, Local.goto_pc, Local.goto_cv]
    split <;> exact hl
  | send how handle t hp | recv op hp | dropReceiver hp =>
    rw [Local.Shape, hp] at hl
    exact hl

theorem shape (h : sys.Reachable (init plat) c) (i : ι) : (c.loc i).Shape := by
  revert i
  refine h.invariant (I := fun c => ∀ i, (c.loc i).Shape) (fun i => ⟨rfl, rfl, rfl⟩) ?_ ?_
  · intro c i a s l hc ih _ hs j
    by_cases hj : j = i
    · subst hj
      rw [Config.set_loc_self]
      exact (step_move hs).shape (ih j) (Condvar.shape (condvar_reachable hc) j)
    · rw [Config.set_loc_of_ne hj]
      exact ih j
  · intro c e s _ ih _ _
    exact ih

/-! ### The queue and the results -/

/-- What a step does to the queue. -/
theorem Move.queue (m : Move i s l s₁ l₁) : s₁.queue = s.queue ∨
    (∃ x, l.pc = .sendPush x ∧ s₁.queue = s.queue ++ [x.value]) ∨
    ∃ y, l.pc = .recvPop y ∧ l.cv.mx.pc = .guard ∧ s₁.queue = s.queue.tail ∧
      l₁.pc = (match s.queue.head? with
        | some t => .recvDrop y (.ok t)
        | none => .recvLoad y) := by
  cases m with
  | below b hb cv lcv hcv =>
    refine .inl (Condvar.step_inner hcv ?_)
    rcases hb with ⟨rfl, -⟩ | rfl <;> exact nofun
  | call b p hcall cv lcv hcv => exact .inl (Condvar.step_inner hcv hcall.not_access)
  | push x hp cv lcv hcv =>
    obtain ⟨-, -, -, haccess⟩ := access_guarded hcv
    exact .inr (.inl ⟨x, hp, congrArg Prod.snd haccess⟩)
  | pop y hp hg cv lcv hcv =>
    obtain ⟨-, -, -, haccess⟩ := access_guarded hcv
    have hreg : lcv.mx.reg = s.queue.head? := congrArg Prod.fst haccess
    refine .inr (.inr ⟨y, hp, hg, congrArg Prod.snd haccess, ?_⟩)
    simp only [hreg]
  | cancel cv lcv hcv =>
    obtain ⟨B, R, heq⟩ := dropFuture_eq i l.pc { s with cv := cv }
    rw [heq]
    exact .inl (Condvar.step_inner hcv nofun)
  | _ => exact .inl rfl

theorem Move.results (m : Move i s l s₁ l₁) {z : Recv × Outcome T} (hz : z ∈ s₁.results) :
    z ∈ s.results ∨ ∃ y r, l.pc = .recvReturn y r ∧ l.cv.atRest = true ∧ z = (y, r) := by
  cases m with
  | returnRecv y r hp hrest =>
    rcases List.mem_append.1 hz with hz | hz
    · exact .inl hz
    · exact .inr ⟨y, r, hp, hrest, List.mem_singleton.1 hz⟩
  | cancel cv lcv =>
    obtain ⟨B, R, heq⟩ := dropFuture_eq i l.pc { s with cv := cv }
    rw [heq] at hz
    exact .inl hz
  | _ => exact .inl hz

theorem Move.results_subset (m : Move i s l s₁ l₁) : s.results ⊆ s₁.results := by
  cases m with
  | returnRecv => exact List.subset_append_left _ _
  | cancel cv lcv =>
    obtain ⟨B, R, heq⟩ := dropFuture_eq i l.pc { s with cv := cv }
    rw [heq]
    exact fun _ hz => hz
  | _ => exact fun _ hz => hz

theorem Move.receives (m : Move i s l s₁ l₁) {y : Recv} (hy : l₁.pc.receives = some y) :
    l.pc.receives = some y ∨ ∃ op, y = ⟨op, s.disconnected⟩ ∧ l₁.pc = .recvLock y := by
  cases m with
  | below | clone => exact .inl hy
  | call b p hcall => exact .inl (hcall.receives ▸ hy)
  | reads p _ hreads => exact .inl (hreads.receives ▸ hy)
  | pop y' hp =>
    left
    rw [hp]
    dsimp only at hy
    split at hy <;> exact hy
  | recv op => cases hy; exact .inr ⟨op, rfl, rfl⟩
  | dropSender =>
    rw [Local.goto_pc] at hy
    split at hy <;> cases hy
  | _ => cases hy

end Mpsc

end WasmSafeThread
