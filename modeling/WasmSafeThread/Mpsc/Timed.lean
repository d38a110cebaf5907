import WasmSafeThread.Agents.History
import WasmSafeThread.Condvar.Deadlines
import WasmSafeThread.Mpsc.Fifo

/-!
# What a timed receive reports

A `recv_*_timeout` looks into the queue, under the lock, before each wait and after each wait that was
notified.  After a wait that has timed out it returns `Timeout` as it is, although it has the lock
again.

* `Look` : what a receive saw last, what others did since, and what it found when its last wait ended.
* `Looking` : how the history fits the state, at each point of a timed receive.
* `timed_receive_iff` : a timed receive reports the truth exactly when its last wait was notified, or
  nothing happened to the channel since its last look.
-/

namespace WasmSafeThread

namespace Mpsc

variable {ι T : Type*}

/-! ### The history of a receive -/

/-- What others did to the channel since a receive last looked. -/
structure Since where
  /-- The values pushed since its `pop_front`. -/
  pushed : ℕ
  /-- The values that other receives popped since. -/
  popped : ℕ
  /-- The last `Sender` was dropped since its `sender_count.load`. -/
  gone : Bool
  deriving DecidableEq

/-- The channel at the end of a wait, when the receive has the lock again. -/
structure Woken (T : Type*) where
  timedOut : Bool
  queue : List T
  senders : ℕ
  since : Since
  deriving DecidableEq

/-- The history of a receive. -/
structure Look (T : Type*) where
  /-- It has looked into the queue. -/
  looked : Bool
  since : Since
  /-- The end of its last wait. -/
  woken : Option (Woken T)

/-- Every value pushed since was taken by another receive, and the last `Sender` was not dropped. -/
def Since.Quiet (x : Since) : Prop := x.pushed = x.popped ∧ x.gone = false

instance (x : Since) : Decidable x.Quiet := inferInstanceAs (Decidable (_ ∧ _))

namespace Look

/-- A call starts. -/
def new : Look T := ⟨false, ⟨0, 0, false⟩, none⟩

/-- Another agent moves. -/
def others (s s₁ : Shared ι T) (h : Look T) : Look T :=
  { h with since :=
    { pushed := h.since.pushed + (s₁.queue.length - s.queue.length)
      popped := h.since.popped + (s.queue.length - s₁.queue.length)
      gone := h.since.gone || decide (s.senderCount ≠ 0 ∧ s₁.senderCount = 0) } }

/-- The agent itself moves. -/
def own (l : Local ι T) (s₁ : Shared ι T) (l₁ : Local ι T) (h : Look T) : Look T :=
  match l.pc, l₁.pc with
  | .ready, .recvLock _ => new
  | .recvPop _, .recvLoad _ => { h with looked := true, since := ⟨0, 0, h.since.gone⟩ }
  | .recvPop _, .recvDrop _ _ => { h with looked := true }
  | .recvLoad _, _ => { h with since := { h.since with gone := false } }
  | .recvWaited _, .recvWaited _ =>
    match l.cv.pc, l₁.cv.pc with
    | .relocking timedOut, .ready =>
      { h with woken := some ⟨timedOut, s₁.queue, s₁.senderCount, h.since⟩ }
    | _, _ => h
  | _, _ => h

variable [DecidableEq ι] [DecidableEq T]

/-- The histories of the receives. -/
def note (c : Config ι (Shared ι T) (Local ι T)) :
    Label ι (Act T) (Event ι) → (ι → Look T) → ι → Look T
  | .agent i a, h =>
    match step i a c.shared (c.loc i) with
    | some (s₁, l₁) => fun j =>
      if j = i then (h j).own (c.loc i) s₁ l₁ else (h j).others c.shared s₁
    | none => h
  | .env _, h => h

end Look

/-- A receive with a deadline. -/
def RecvOp.timed : RecvOp → Bool
  | .recv _ (some _) => true
  | _ => false

/-! ### What is true at each point of a timed receive -/

/-- The counts of the history fit a queue and a number of senders. -/
def Since.Fits (x : Since) (queue : List T) (senders : ℕ) : Prop :=
  queue.length + x.popped = x.pushed ∧ (senders = 0 ↔ x.gone = true)

/-- What the result of a receive has to do with the end of its last wait. -/
structure Answered (h : Look T) (r : Outcome T) : Prop where
  waited : h.looked = true → r = .timeout → ∃ w, h.woken = some w
  fits : ∀ w, h.woken = some w → w.since.Fits w.queue w.senders
  timedOut : ∀ w, h.woken = some w → w.timedOut = true → r = .timeout
  notified : ∀ w, h.woken = some w → w.timedOut = false →
    (∀ t q, w.queue = t :: q → r = .ok t) ∧ (w.queue = [] → w.senders = 0 → r = .disconnected)

/-- The channel is as it was at the end of the last wait, but that more senders may be gone. -/
structure Woken.Still (w : Woken T) (s : Shared ι T) : Prop where
  queue : w.queue = s.queue
  senders : w.senders = 0 → s.senderCount = 0
  fits : w.since.Fits w.queue w.senders

/-- How the history of a timed receive fits the state. -/
def Looking (h : Look T) (s : Shared ι T) (l : Local ι T) : Prop :=
  match l.pc with
  | .recvLock _ => h.looked = false ∧ h.woken = none
  | .recvPop _ =>
    h.looked = false ∧ h.woken = none ∨
      l.cv.mx.pc = .guard ∧ ∃ w, h.woken = some w ∧ w.timedOut = false ∧ w.Still s
  | .recvLoad _ =>
    h.looked = true ∧ s.queue = [] ∧ h.since.pushed = h.since.popped ∧
      ∀ w, h.woken = some w → w.timedOut = false ∧ w.Still s
  | .recvWait _ => h.looked = true ∧ h.since.Fits s.queue s.senderCount
  | .recvWaited _ =>
    h.looked = true ∧ h.since.Fits s.queue s.senderCount ∧
      (l.cv.pc = .ready → ∃ w, h.woken = some w ∧ w.timedOut = l.cv.timedOut ∧ w.Still s)
  | .recvDrop _ r | .recvReturn _ r => Answered h r
  | _ => True

variable [DecidableEq ι] [DecidableEq T] {i j : ι} {a : Act T} {s s₁ : Shared ι T}
  {l l₁ : Local ι T} {plat : Platform ι} {c : Config ι (Shared ι T) (Local ι T)}
  {h : Look T} {y : Recv} {x : Since}

/-! ### Another agent moves -/

omit [DecidableEq ι] [DecidableEq T] in
theorem Since.Fits.others (hx : h.since.Fits s.queue s.senderCount)
    (hcount : s.senderCount = 0 → s₁.senderCount = 0) :
    (h.others s s₁).since.Fits s₁.queue s₁.senderCount := by
  obtain ⟨hlength, hgone⟩ := hx
  refine ⟨?_, ?_⟩
  · simp only [Look.others]
    omega
  · simp only [Look.others, Bool.or_eq_true, ← hgone, decide_eq_true_eq]
    by_cases hs : s.senderCount = 0
    · simp [hs, hcount hs]
    · simp [hs]

omit [DecidableEq ι] [DecidableEq T] in
theorem Woken.Still.others {w : Woken T} (hw : w.Still s) (hqueue : s₁.queue = s.queue)
    (hcount : s.senderCount = 0 → s₁.senderCount = 0) : w.Still s₁ :=
  ⟨hw.queue.trans hqueue.symm, fun h => hcount (hw.senders h), hw.fits⟩

omit [DecidableEq ι] [DecidableEq T] in
theorem others_eq (hqueue : s₁.queue = s.queue) (hcount : s₁.senderCount = s.senderCount) :
    h.others s s₁ = h := by
  have hgone : ¬ (s.senderCount ≠ 0 ∧ s.senderCount = 0) := fun hs => hs.1 hs.2
  simp [Look.others, hqueue, hcount, hgone]

omit [DecidableEq ι] [DecidableEq T] in
/-- Others leave the queue while the receive has the lock, and no sender comes back. -/
theorem Looking.others (hL : Looking h s l) (hl : l.Shape)
    (hqueue : l.cv.mx.pc = .guard → s₁.queue = s.queue)
    (hcount : s.senderCount = 0 → s₁.senderCount = 0) : Looking (h.others s s₁) s₁ l := by
  cases hp : l.pc with
  | recvLock =>
    simp only [Looking, hp] at hL ⊢
    exact hL
  | recvPop =>
    simp only [Looking, hp] at hL ⊢
    refine hL.imp_right fun ⟨hg, w, hw, hout, hstill⟩ => ?_
    exact ⟨hg, w, hw, hout, hstill.others (hqueue hg) hcount⟩
  | recvLoad =>
    simp only [Looking, hp] at hL ⊢
    obtain ⟨hlooked, hempty, hsince, hw⟩ := hL
    have hg : l.cv.mx.pc = .guard := by
      rw [Local.Shape, hp] at hl
      exact hl.2
    have hq := hqueue hg
    refine ⟨hlooked, hq.trans hempty, ?_, fun w hwoken => ?_⟩
    · simp only [Look.others, hq, Nat.sub_self, Nat.add_zero]
      exact hsince
    · exact ⟨(hw w hwoken).1, (hw w hwoken).2.others hq hcount⟩
  | recvWait =>
    simp only [Looking, hp] at hL ⊢
    exact ⟨hL.1, hL.2.others hcount⟩
  | recvWaited =>
    simp only [Looking, hp] at hL ⊢
    refine ⟨hL.1, hL.2.1.others hcount, fun hready => ?_⟩
    obtain ⟨w, hw, hout, hstill⟩ := hL.2.2 hready
    have hg : l.cv.mx.pc = .guard := by
      rw [Local.Shape, hp] at hl
      rcases hl with hl | hl
      · rw [hready] at hl; cases hl
      · exact hl.2
    exact ⟨w, hw, hout, hstill.others (hqueue hg) hcount⟩
  | recvDrop y r | recvReturn y r =>
    simp only [Looking, hp] at hL ⊢
    exact ⟨hL.waited, hL.fits, hL.timedOut, hL.notified⟩
  | _ => simp only [Looking, hp]

theorem Move.queue_of_no_guard (m : Move i s l s₁ l₁) (hguard : l.cv.mx.pc.hasGuard = false) :
    s₁.queue = s.queue := by
  rcases m.condvar with ⟨hcv, -⟩ | ⟨b, hb⟩
  · rw [Shared.queue, hcv]
    rfl
  · exact Condvar.step_inner_of_no_guard hb hguard

theorem Move.no_senders (hb : Borrowed c) (m : Move i c.shared (c.loc i) s₁ l₁)
    (hcount : c.shared.senderCount = 0) : s₁.senderCount = 0 := by
  cases m with
  | clone handle _ hh =>
    rw [hb.count, Finset.card_eq_zero] at hcount
    rw [hcount] at hh
    cases hh
  | dropSender =>
    show c.shared.senderCount - 1 = 0
    rw [hcount]
  | cancel cv lcv =>
    obtain ⟨B, R, heq⟩ := dropFuture_eq i (c.loc i).pc { c.shared with cv := cv }
    rw [heq]
    exact hcount
  | _ => exact hcount

/-! ### The receive moves -/

/-- A receive at the end of its wait goes on by the result of the wait. -/
theorem step_waited (h : step i a s l = some (s₁, l₁)) (hp : l.pc = .recvWaited y)
    (hrest : l.cv.atRest = true) (hy : y.op.timed = true) :
    l₁.pc = if l.cv.timedOut then .recvDrop y .timeout else .recvPop y := by
  cases a with
  | send | recv | clone | dropSender | dropReceiver =>
    simp [step, hp] at h
  | consume => simp [step, hp] at h
  | step =>
    simp only [step, hrest, if_true] at h
    split at h
    · obtain ⟨⟨s₂, l₂⟩, hr, heq⟩ := Option.map_eq_some_iff.1 h
      obtain ⟨-, hl⟩ := settle_parts heq
      rw [← hl]
      simp only [advance, hp] at hr
      cases hr
      cases hop : y.op with
      | tryRecv => rw [hop] at hy; cases hy
      | recv how deadline =>
        rw [hop] at hy
        cases deadline with
        | none => cases hy
        | some d => simp
    · cases h
  | spurious =>
    simp only [step] at h
    split at h
    · obtain ⟨⟨s₂, l₂⟩, hr, -⟩ := Option.map_eq_some_iff.1 h
      obtain ⟨cv, lcv, hcv, -, -⟩ := lift_eq_some hr
      exact absurd hcv (Condvar.not_goes_on hrest (.inr rfl))
    · cases h
  | cancel =>
    simp only [step] at h
    split at h
    · obtain ⟨⟨s₂, l₂⟩, hr, -⟩ := Option.map_eq_some_iff.1 h
      obtain ⟨cv, lcv, hcv, -, -⟩ := lift_eq_some hr
      have hsusp := suspended_of_cancel hcv
      rw [not_suspended_of_atRest hrest] at hsusp
      cases hsusp
    · cases h

variable {b : Condvar.Act (Option T) (List T)} {cv : Condvar.Shared ι (Option T) (List T)}
  {lcv : Condvar.Local ι (Option T)} {p : Pc T}

omit [DecidableEq ι] [DecidableEq T] in
theorem own_asleep (hp : l.pc = .recvWaited y) (hp₁ : l₁.pc = .recvWaited y)
    (hne : l₁.cv.pc ≠ .ready) : h.own l s₁ l₁ = h := by
  simp only [Look.own, hp, hp₁]
  split
  · exact absurd ‹_› hne
  · rfl

omit [DecidableEq ι] [DecidableEq T] in
theorem own_awake {timedOut : Bool} (hp : l.pc = .recvWaited y) (hp₁ : l₁.pc = .recvWaited y)
    (hrelock : l.cv.pc = .relocking timedOut) (hready : l₁.cv.pc = .ready) :
    h.own l s₁ l₁ = { h with woken := some ⟨timedOut, s₁.queue, s₁.senderCount, h.since⟩ } := by
  simp only [Look.own, hp, hp₁, hrelock, hready]

omit [DecidableEq T] in
/-- A call below goes on. -/
theorem Looking.below (hL : Looking h s l) (hl : l.Shape)
    (hb : b = .step ∧ l.cv.atRest = false ∨ b = .spurious)
    (hcv : Condvar.step i b s.cv l.cv = some (cv, lcv)) (running : Option ι) :
    Looking (h.own l { s with cv := cv, running := running } ⟨lcv, l.pc⟩)
      { s with cv := cv, running := running } ⟨lcv, l.pc⟩ := by
  have hbusy : l.cv.atRest ≠ true := fun hrest => absurd hcv (Condvar.not_goes_on hrest hb)
  have hqueue : cv.mx.inner = s.cv.mx.inner := Condvar.step_inner hcv (by
    rcases hb with ⟨rfl, -⟩ | rfl <;> exact nofun)
  cases hp : l.pc with
  | recvPop y =>
    simp only [Looking, Look.own, hp] at hL ⊢
    refine hL.imp_right fun ⟨hg, _⟩ => absurd ?_ hbusy
    rw [Local.Shape, hp] at hl
    exact Condvar.Local.atRest_iff.2 ⟨by rw [hg]; rfl, hl⟩
  | recvWaited y =>
    simp only [Looking, hp] at hL
    obtain ⟨hlooked, hfits, -⟩ := hL
    rw [Local.Shape, hp] at hl
    have hfits : h.since.Fits cv.mx.inner s.senderCount := by rw [hqueue]; exact hfits
    by_cases hready : lcv.pc = .ready
    · have hw : l.cv.pc.inWait = true := hl.resolve_right fun hguard =>
        hbusy (Condvar.Local.atRest_iff.2 ⟨by rw [hguard.2]; rfl, hguard.1⟩)
      have hrelock : l.cv.pc = .relocking lcv.timedOut := by
        rcases hb with ⟨rfl, -⟩ | rfl
        · exact Condvar.returns_timedOut hw hcv hready
        · rcases Condvar.step_goes_on (.inr rfl) hcv with ⟨hpc, -, -⟩ | ⟨-, -, ⟨hstep, -⟩ | ⟨-, hw₁, -⟩⟩
          · rw [← hpc, hready] at hw; cases hw
          · cases hstep
          · rw [hready] at hw₁; cases hw₁
      rw [own_awake hp rfl hrelock hready]
      exact ⟨hlooked, hfits, fun _ => ⟨_, rfl, rfl, rfl, id, hfits⟩⟩
    · rw [own_asleep hp rfl hready]
      exact ⟨hlooked, hfits, fun heq => absurd heq hready⟩
  | recvReturn y r =>
    simp only [Looking, Look.own, hp] at hL ⊢
    exact hL
  | recvLock | recvLoad | recvWait | recvDrop =>
    rw [Local.Shape, hp] at hl
    refine absurd (Condvar.Local.atRest_iff.2 ⟨?_, hl.1⟩) hbusy
    first | exact hl.2.1 | (rw [hl.2]; rfl)
  | _ => trivial

omit [DecidableEq T] in
theorem Looking.call (hL : Looking h s l) {canBlock : Bool} (hcall : Calls canBlock l.pc b p)
    (hcv : Condvar.step i b s.cv l.cv = some (cv, lcv)) (running : Option ι) :
    Looking (h.own l { s with cv := cv, running := running } ⟨lcv, p⟩)
      { s with cv := cv, running := running } ⟨lcv, p⟩ := by
  have hqueue : cv.mx.inner = s.cv.mx.inner := Condvar.step_inner hcv hcall.not_access
  generalize hq : l.pc = q at hcall
  simp only [Looking, Look.own, hq] at hL ⊢
  cases hcall with
  | tryLock | recvLock => exact .inl hL
  | recvWait y how deadline =>
    refine ⟨hL.1, by rw [Shared.queue, hqueue]; exact hL.2, fun hready => ?_⟩
    obtain ⟨k, hk⟩ := how.wait_eq (T := T) canBlock deadline
    rw [hk] at hcv
    simp only [Condvar.step] at hcv
    split at hcv <;> cases hcv
    cases hready
  | recvDrop y r => exact hL
  | _ => trivial

/-- The state of the channel is read. -/
theorem Looking.reads (hL : Looking h s l) (hs : step i a s l = some (s₁, l.goto p)) (hl : l.Shape)
    (hrest : l.cv.atRest = true) (hreads : Reads s l l.pc p)
    (hy : ∀ y, l.pc.receives = some y → y.op.timed = true) (running : Option ι) :
    Looking (h.own l { s with running := running } (l.goto p)) { s with running := running }
      (l.goto p) := by
  generalize hq : l.pc = q at hreads
  simp only [Looking, Look.own, hq, Local.goto_pc] at hL ⊢
  cases hreads with
  | tryFailed y _ hop | empty y _ hop =>
    have ht := hy y (by rw [hq]; rfl)
    rw [hop] at ht
    cases ht
  | lockFailed y hg =>
    rcases hL with ⟨hlooked, hwoken⟩ | ⟨hguard, -⟩
    · constructor <;> simp [hlooked, hwoken]
    · rw [hg] at hguard; cases hguard
  | disconnected y hcount =>
    obtain ⟨-, hempty, -, hw⟩ := hL
    constructor
    · intro _ htimeout
      cases htimeout
    · exact fun w hwoken => (hw w hwoken).2.fits
    · intro w hwoken hout
      rw [(hw w hwoken).1] at hout
      cases hout
    · intro w hwoken _
      refine ⟨fun t q hcons => ?_, fun _ _ => rfl⟩
      rw [(hw w hwoken).2.queue, hempty] at hcons
      cases hcons
  | wait y hcount =>
    obtain ⟨hlooked, hempty, hsince, -⟩ := hL
    refine ⟨hlooked, ?_, by simpa using hcount⟩
    show s.queue.length + _ = _
    rw [hempty, hsince]
    exact Nat.zero_add _
  | timedOut y =>
    have hpc := step_waited hs hq hrest (hy y (by rw [hq]; rfl))
    obtain ⟨w, hw, hout, hstill⟩ := hL.2.2 (Condvar.Local.atRest_iff.1 hrest).2
    split at hpc
    · rename_i htimed
      constructor
      · exact fun _ _ => ⟨w, hw⟩
      · intro w' hw'
        rw [hw] at hw'
        cases hw'
        exact hstill.fits
      · exact fun _ _ _ => rfl
      · intro w' hw' hout'
        rw [hw] at hw'
        cases hw'
        rw [hout, htimed] at hout'
        cases hout'
    · cases hpc
  | notified y =>
    have hpc := step_waited hs hq hrest (hy y (by rw [hq]; rfl))
    obtain ⟨w, hw, hout, hstill⟩ := hL.2.2 (Condvar.Local.atRest_iff.1 hrest).2
    split at hpc
    · cases hpc
    · rename_i htimed
      rw [Local.Shape, hq] at hl
      have hguard := hl.resolve_left fun hw => by
        rw [(Condvar.Local.atRest_iff.1 hrest).2] at hw
        cases hw
      exact .inr ⟨hguard.2, w, hw, hout.trans (Bool.eq_false_of_not_eq_true htimed), hstill.queue,
        hstill.senders, hstill.fits⟩
  | _ => trivial

omit [DecidableEq T] in
/-- The receive pops. -/
theorem Looking.pop (hL : Looking h s l) (hp : l.pc = .recvPop y)
    (hcv : Condvar.step i (.access popFront) s.cv l.cv = some (cv, lcv)) (running : Option ι)
    (hpc : p = match lcv.mx.reg with
      | some t => .recvDrop y (.ok t)
      | none => .recvLoad y) :
    Looking (h.own l { s with cv := cv, running := running } ⟨lcv, p⟩)
      { s with cv := cv, running := running } ⟨lcv, p⟩ := by
  obtain ⟨-, -, -, haccess⟩ := access_guarded hcv
  have hreg : lcv.mx.reg = s.queue.head? := congrArg Prod.fst haccess
  have hqueue : cv.mx.inner = s.queue.tail := congrArg Prod.snd haccess
  have hwoken : ∀ w, h.woken = some w → w.timedOut = false ∧ w.Still s := by
    intro w hw
    simp only [Looking, hp] at hL
    rcases hL with ⟨-, hnone⟩ | ⟨-, w', hw', hout, hstill⟩
    · rw [hnone] at hw; cases hw
    · rw [hw'] at hw
      cases hw
      exact ⟨hout, hstill⟩
  subst hpc
  cases hq : s.queue with
  | nil =>
    simp only [hreg, hq, List.head?_nil, Looking, Look.own, hp]
    rw [hq] at hqueue
    refine ⟨trivial, hqueue, trivial, fun w hw => ?_⟩
    obtain ⟨hout, hstill⟩ := hwoken w hw
    exact ⟨hout, hstill.queue.trans (hq.trans hqueue.symm), hstill.senders, hstill.fits⟩
  | cons t q =>
    simp only [hreg, hq, List.head?_cons, Looking, Look.own, hp]
    constructor
    · intro _ htimeout
      cases htimeout
    · exact fun w hw => (hwoken w hw).2.fits
    · intro w hw hout
      rw [(hwoken w hw).1] at hout
      cases hout
    · intro w hw _
      rw [(hwoken w hw).2.queue, hq]
      exact ⟨fun t' q' heq => by cases heq; rfl, nofun⟩

/-- A step of a timed receive. -/
theorem Move.looking (m : Move i s l s₁ l₁) (hs : step i a s l = some (s₁, l₁)) (hl : l.Shape)
    (hy : l₁.pc.receives = some y) (ht : y.op.timed = true)
    (ih : l.pc.receives = some y → Looking h s l) : Looking (h.own l s₁ l₁) s₁ l₁ := by
  cases m with
  | below b hb cv lcv hcv running hrun => exact (ih hy).below hl hb hcv running
  | call b p hcall cv lcv hcv running hrun => exact (ih (hcall.receives ▸ hy)).call hcall hcv running
  | reads p hrest hreads running hrun =>
    have hy : l.pc.receives = some y := hreads.receives ▸ hy
    refine (ih hy).reads hs hl hrest hreads (fun y' hy' => ?_) running
    rw [hy] at hy'
    cases hy'
    exact ht
  | pop y' hp hg cv lcv hcv running hrun =>
    have hy' : y = y' := by
      dsimp only at hy
      split at hy <;> cases hy <;> rfl
    subst hy'
    exact (ih (by rw [hp]; rfl)).pop hp hcv running rfl
  | recv op hp =>
    simp [Looking, Look.own, hp, Look.new]
  | clone handle hp => rw [hp] at hy; cases hy
  | dropSender handle hp =>
    rw [Local.goto_pc] at hy
    split at hy <;> cases hy
  | _ => cases hy

variable {h : ι → Look T}

theorem note_eq (hs : step i a c.shared (c.loc i) = some (s₁, l₁)) (j : ι) :
    Look.note c (.agent i a) h j =
      if j = i then (h j).own (c.loc i) s₁ l₁ else (h j).others c.shared s₁ := by
  simp only [Look.note, hs]

/-- **The history of a timed receive fits the state** in every reachable configuration. -/
theorem looking (H : sys.History Look.note (fun _ => .new) (init plat) h c) :
    ∀ i y, (c.loc i).pc.receives = some y → y.op.timed = true → Looking (h i) c.shared (c.loc i) := by
  refine System.ReachNote.invariant (I := fun h c => ∀ i y, (c.loc i).pc.receives = some y →
    y.op.timed = true → Looking (h i) c.shared (c.loc i)) H ?_ ?_ ?_
  · intro i y hy
    cases hy
  · intro h c i a s l hc ih _ hs j y hy ht
    have m := step_move hs
    rw [note_eq hs]
    by_cases hj : j = i
    · subst hj
      rw [if_pos rfl, Config.set_loc_self]
      rw [Config.set_loc_self] at hy
      exact m.looking hs (shape hc j) hy ht fun hy' => ih j y hy' ht
    · rw [if_neg hj, Config.set_loc_of_ne hj]
      rw [Config.set_loc_of_ne hj] at hy
      refine (ih j y hy ht).others (shape hc j) (fun hg => m.queue_of_no_guard ?_)
        (m.no_senders (borrowed hc))
      by_contra hi
      exact hj (guard_unique hc (by rw [Local.hasGuard, hg]; rfl) (Bool.eq_true_of_not_eq_false hi))
  · intro h c e s hc ih _ hs j y hy ht
    simp only [sys, Option.map_eq_some_iff] at hs
    obtain ⟨p, -, rfl⟩ := hs
    have hL : Looking ((h j).others c.shared (c.shared.setPlat p)) (c.shared.setPlat p) (c.loc j) :=
      (ih j y hy ht).others (shape hc j) (fun _ => rfl) id
    have heq : (h j).others c.shared (c.shared.setPlat p) = h j := others_eq rfl rfl
    rwa [heq] at hL

/-- What a receive that has waited owes the truth: it returns a value that was in the queue when its
wait ended, or `Disconnected` if the channel was, and `Timeout` only if the queue was empty and a
`Sender` alive. -/
def Woken.Truth (w : Woken T) (r : Outcome T) : Prop :=
  (∀ t q, w.queue = t :: q → r = .ok t) ∧ (w.queue = [] → w.senders = 0 → r = .disconnected) ∧
    (r = .timeout → w.queue = [] ∧ w.senders ≠ 0)

omit [DecidableEq ι] [DecidableEq T] in
theorem Since.Fits.quiet {queue : List T} {senders : ℕ} (hx : x.Fits queue senders) :
    x.Quiet ↔ queue = [] ∧ senders ≠ 0 := by
  obtain ⟨hlength, hgone⟩ := hx
  rw [Since.Quiet, ← List.length_eq_zero_iff, Ne, hgone, Bool.not_eq_true]
  constructor
  · rintro ⟨heq, hfalse⟩
    exact ⟨by omega, hfalse⟩
  · rintro ⟨heq, hfalse⟩
    exact ⟨by omega, hfalse⟩

/-- **A timed receive reports the truth exactly when its last wait was notified, or every value pushed
since its last look was taken by another receive and the last `Sender` was not dropped.**  A call that
has looked into the queue and returns `Timeout` has waited. -/
theorem timed_receive_iff (H : sys.History Look.note (fun _ => .new) (init plat) h c) {r : Outcome T}
    (hp : (c.loc i).pc = .recvReturn y r) (ht : y.op.timed = true) :
    ((h i).looked = true → r = .timeout → ∃ w, (h i).woken = some w) ∧
    ∀ w, (h i).woken = some w → (w.Truth r ↔ w.timedOut = false ∨ w.since.Quiet) := by
  have hL := looking H i y (by rw [hp]; rfl) ht
  simp only [Looking, hp] at hL
  refine ⟨hL.waited, fun w hw => ?_⟩
  have hquiet := (hL.fits w hw).quiet
  cases hout : w.timedOut with
  | true =>
    obtain rfl := hL.timedOut w hw hout
    constructor
    · exact fun htruth => .inr (hquiet.2 (htruth.2.2 rfl))
    · intro hor
      obtain ⟨hempty, halive⟩ := hquiet.1 (hor.resolve_left nofun)
      refine ⟨fun t q hcons => ?_, fun _ hnone => absurd hnone halive, fun _ => ⟨hempty, halive⟩⟩
      rw [hempty] at hcons
      cases hcons
  | false =>
    obtain ⟨hok, hdisconnected⟩ := hL.notified w hw hout
    refine ⟨fun _ => .inl rfl, fun _ => ⟨hok, hdisconnected, ?_⟩⟩
    rintro rfl
    -- a value, or the end of the channel, would have been returned
    have hempty : w.queue = [] := by
      cases hq : w.queue with
      | nil => rfl
      | cons t q => cases hok t q hq
    exact ⟨hempty, fun hnone => by cases hdisconnected hempty hnone⟩

/-- The receiver waits with a deadline that has passed, and its wait is about to lock again. -/
def recvExpired : List (Label Bool (Act ℕ) (Event Bool)) :=
  .agent true (.recv (.recv .block (some 0))) :: List.replicate 15 (.agent true .step)

/-- A run in which the deadline passes and nobody sends. -/
theorem timed_receive_idle :
    ∃ (h : Bool → Look ℕ) (c : Config Bool (Shared Bool ℕ) (Local Bool ℕ)) (w : Woken ℕ),
      sys.History Look.note (fun _ => .new) (init (.new .native)) h c ∧
      (c.loc true).pc = .recvReturn ⟨.recv .block (some 0), false⟩ .timeout ∧
      (h true).woken = some w ∧ w.timedOut = true ∧ w.Truth .timeout := by
  obtain ⟨h, c, H, hend⟩ := System.exists_note_of_along (M := sys) (P := fun _ _ _ => True)
    (h := fun _ => Look.new) (c := init (ι := Bool) (T := ℕ) (.new .native)) Look.note
    (p := fun h c => decide ((h true).woken = some ⟨true, [], 1, ⟨0, 0, false⟩⟩ ∧
      (c.loc true).pc = .recvReturn ⟨.recv .block (some 0), false⟩ .timeout))
    (recvExpired ++ List.replicate 6 (.agent true .step)) (by decide) (by decide)
  rw [decide_eq_true_eq] at hend
  obtain ⟨hwoken, hp⟩ := hend
  exact ⟨h, c, _, H, hp, hwoken, rfl,
    ((timed_receive_iff H hp rfl).2 _ hwoken).2 (.inr (by decide))⟩

/-- **A value is left in the queue.**  A send returns `Ok` after the wait has timed out and before the
receive has locked again; the receive returns `Timeout`, with the value in the queue. -/
theorem timeout_with_value :
    ∃ (h : Bool → Look ℕ) (c : Config Bool (Shared Bool ℕ) (Local Bool ℕ)) (w : Woken ℕ),
      sys.History Look.note (fun _ => .new) (init (.new .native)) h c ∧
      (c.loc true).pc = .recvReturn ⟨.recv .block (some 0), false⟩ .timeout ∧
      (h true).looked = true ∧ (h true).woken = some w ∧ w.queue = [7] ∧ ¬ w.Truth .timeout := by
  obtain ⟨h, c, H, hend⟩ := System.exists_note_of_along (M := sys) (P := fun _ _ _ => True)
    (h := fun _ => Look.new) (c := init (ι := Bool) (T := ℕ) (.new .native)) Look.note
    (p := fun h c => decide ((h true).woken = some ⟨true, [7], 1, ⟨1, 0, false⟩⟩ ∧
      (h true).looked = true ∧
      (c.loc true).pc = .recvReturn ⟨.recv .block (some 0), false⟩ .timeout))
    (recvExpired ++ sendSpin false 0 7 ++ List.replicate 6 (.agent true .step))
    (by decide) (by decide)
  rw [decide_eq_true_eq] at hend
  obtain ⟨hwoken, hlooked, hp⟩ := hend
  refine ⟨h, c, _, H, hp, hlooked, hwoken, rfl, fun htruth => ?_⟩
  cases htruth.1 7 [] rfl

end Mpsc

end WasmSafeThread
