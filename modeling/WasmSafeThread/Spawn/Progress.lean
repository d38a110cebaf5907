import WasmSafeThread.Agents.Progress
import WasmSafeThread.Spawn.Calls

/-!
# A thread that is joined

As long as there is something to do one of the two parties can go on (`advances`): the thread up to its
end, and the owner of the `JoinHandle` from the call of `join` or `join_async` up to its return.  Only a
receive may be asleep, and when the thread has ended with its result sent, that receive has its wake-up.

* `Local.rank`, `measure` : what is left of the bodies of both, of their calls on the channel, and of the
  entries of all the lists.
* `Done` : nothing is left, or the result is lost.
* `finishes` : from every configuration some run of the two leads there.
-/

namespace WasmSafeThread

namespace Spawn

variable {E V : Type*}

/-- How much a call on the channel takes. -/
def Chan.rank : Chan E V → ℕ
  | .send _ _ => 300
  | .drop _ => 100

/-- The `Sender` that it uses. -/
def Chan.handle : Chan E V → ℕ
  | .send k _ | .drop k => k

/-- How far the two are from their ends; a receive counts in the channel. -/
def Pc.rank (p : Program E V) : Pc E V → ℕ
  | .cloneSender => 2000 + p.hooks.length
  | .takeHook => 1900 + p.hooks.length
  | .setHook _ => 1800 + p.hooks.length
  | .hooks rest => 1700 + rest.length
  | .closure => 1600
  | .finish todo _ => (todo.map Chan.rank).sum + 1
  | .receiving _ => 400
  | .awaitExit _ => 300
  | .consumed _ => 200
  | .releasing _ => 100
  | .ended _ | .handle | .joined _ => 0

/-- The rank of all frames of a party. -/
def Local.rank (p : Program E V) (queue : List (Except E V)) (l : Local E V) : ℕ :=
  l.pc.rank p + l.ch.rank queue

/-- What is left to do. -/
def measure (p : Program E V) (c : Config Party (Shared E V) (Local E V)) : ℕ :=
  (c.loc .thread).rank p c.shared.ch.queue + (c.loc .joiner).rank p c.shared.ch.queue +
    c.shared.ch.entries

/-- The thread has ended, and the owner of the `JoinHandle` has not called `join` or is past it. -/
def Done (c : Config Party (Shared E V) (Local E V)) : Prop :=
  (∃ e, (c.loc .thread).pc = .ended e) ∧
    ((c.loc .joiner).pc = .handle ∨ ∃ r, (c.loc .joiner).pc = .joined r)

variable [DecidableEq E] [DecidableEq V] {p : Program E V} {st : Status}
  {c : Config Party (Shared E V) (Local E V)} {i j : Party} {a : Act} {s s₁ : Shared E V} {l l₁ : Local E V}
  {plat : Platform Party} {hook : PanicHook.Hook} {isMainThread : Bool}

/-- Party `i` can go on, and less is left to do then. -/
def Advances (p : Program E V) (i : Party) (c : Config Party (Shared E V) (Local E V)) : Prop :=
  ∃ s l, step p i .step c.shared (c.loc i) = some (s, l) ∧ measure p (c.set i s l) < measure p c

/-! ### One step -/

/-- The queue becomes empty by a receive only, so that the other party is not farther from its end. -/
theorem other_rank (h : (sys p).Reachable (init p plat hook isMainThread) c) (hj : j ≠ i)
    (hs : step p i a c.shared (c.loc i) = some (s, l)) :
    (c.loc j).rank p s.ch.queue ≤ (c.loc j).rank p c.shared.ch.queue := by
  obtain ⟨st, hat⟩ := at_inv h
  have hbonus : (s.ch.queue = [] → c.shared.ch.queue = [] ∨ (c.loc j).ch.looks = false) →
      (c.loc j).ch.bonus s.ch.queue ≤ (c.loc j).ch.bonus c.shared.ch.queue := fun hq => by
    rw [Mpsc.Local.bonus, Mpsc.Local.bonus]
    by_cases hnil : s.ch.queue = []
    · rcases hq hnil with hq | hl
      · rw [hnil, hq]
      · simp [hl]
    · simp [hnil]
  refine Nat.add_le_add_left (Nat.add_le_add_left (hbonus fun hnil => ?_) _) _
  rcases (step_move hs).channel with ⟨hch, -⟩ | ⟨b, hb, -⟩
  · exact .inl (by rw [← hch]; exact hnil)
  rcases (Mpsc.step_move hb).queue with hq | ⟨x, -, hq⟩ | ⟨y, hp, -⟩
  · exact .inl (by rw [← hq]; exact hnil)
  · rw [hq] at hnil
    simp at hnil
  · right
    have hp : (c.loc i).ch.pc = .recvPop y := hp
    obtain ⟨rfl, -⟩ := hat.receives (i := i) (y := y) (by rw [hp]; rfl)
    cases j with
    | joiner => exact absurd rfl hj
    | thread =>
      have hrecv := hat.thread.1
      unfold Mpsc.Local.looks
      split <;> rename_i hpc <;> first | rfl | (rw [hpc] at hrecv; cases hrecv)

theorem Advances.of_step (h : (sys p).Reachable (init p plat hook isMainThread) c)
    (hs : step p i .step c.shared (c.loc i) = some (s, l))
    (hlt : l.rank p s.ch.queue + s.ch.entries <
      (c.loc i).rank p c.shared.ch.queue + c.shared.ch.entries) : Advances p i c := by
  refine ⟨s, l, hs, ?_⟩
  cases i with
  | thread =>
    have hother := other_rank h (j := .joiner) (by decide) hs
    rw [measure, measure, Config.set_shared, Config.set_loc_self, Config.set_loc_of_ne (by decide)]
    omega
  | joiner =>
    have hother := other_rank h (j := .thread) (by decide) hs
    rw [measure, measure, Config.set_shared, Config.set_loc_self, Config.set_loc_of_ne (by decide)]
    omega

theorem Advances.of_goto (h : (sys p).Reachable (init p plat hook isMainThread) c) {q : Pc E V}
    (hready : (c.loc i).ch.pc = .ready) (hs : advance p i c.shared (c.loc i) = some (s, (c.loc i).goto q))
    (hch : s.ch = c.shared.ch) (hlt : q.rank p < (c.loc i).pc.rank p) : Advances p i c := by
  refine .of_step h (by simp only [step, hready, if_true]; exact hs) ?_
  rw [hch]
  exact Nat.add_lt_add_right (Nat.add_lt_add_right hlt _) _

theorem Advances.of_call (h : (sys p).Reachable (init p plat hook isMainThread) c) {q : Pc E V}
    {b : Mpsc.Act (Except E V)} {ch : Mpsc.Shared Party (Except E V)} {q' : Mpsc.Pc (Except E V)}
    (hready : (c.loc i).ch.pc = .ready) (hs : advance p i c.shared (c.loc i) = lift i b c.shared (c.loc i) q)
    (hb : Mpsc.step i b c.shared.ch (c.loc i).ch = some (ch, (c.loc i).ch.goto q')) (hcv : ch.cv = c.shared.ch.cv)
    (hlooks : ((c.loc i).ch.goto q').looks = false) (hlt : q.rank p + q'.rank < (c.loc i).pc.rank p) :
    Advances p i c := by
  have hlift : advance p i c.shared (c.loc i) =
      some ({ c.shared with ch := ch }, ⟨(c.loc i).ch.goto q', q⟩) := by
    rw [hs, lift, hb]
    rfl
  refine .of_step h (by simp only [step, hready, if_true]; exact hlift) ?_
  have hentries : ch.entries = c.shared.ch.entries := congrArg Condvar.Shared.entries hcv
  have hrest : (c.loc i).ch.looks = false := by rw [Mpsc.Local.looks, hready]
  have hzero : (c.loc i).ch.pc.rank = 0 := by rw [hready]; rfl
  rw [Local.rank, Local.rank, Mpsc.rank_of_not_looks _ hlooks, Mpsc.rank_of_not_looks _ hrest, hentries,
    Mpsc.Local.goto_pc, Mpsc.Local.goto_cv, hzero]
  show q.rank p + (q'.rank + (c.loc i).ch.cv.rank) + _ < _ + (0 + (c.loc i).ch.cv.rank) + _
  omega

omit [DecidableEq E] [DecidableEq V] in
theorem received_rank (j : Join) (b : Backend) (o : Mpsc.Outcome (Except E V)) :
    (received j b o).rank p ≤ 300 := by
  cases b with
  | native => cases o <;> exact (by decide : 200 ≤ 300)
  | wasm =>
    rcases o with (_ | _) | _ | _ | _ <;> cases j <;>
      first | exact (by decide : 200 ≤ 300) | exact (by decide : 300 ≤ 300)

/-- A call on the channel goes on. -/
theorem Advances.of_below (h : (sys p).Reachable (init p plat hook isMainThread) c)
    (hadv : Mpsc.Advances i ((toMpsc p).config c)) : Advances p i c := by
  obtain ⟨ch, lch, hs, hlt⟩ := hadv
  have hs : Mpsc.step i .step c.shared.ch (c.loc i).ch = some (ch, lch) := hs
  have hbusy : (c.loc i).ch.pc ≠ .ready := fun hready => by
    have hl := Mpsc.shape (mpsc_reachable h) i
    have hl : (c.loc i).ch.Shape := hl
    rw [Mpsc.Local.Shape, hready] at hl
    have hrest : (c.loc i).ch.cv.atRest = true := Condvar.Local.atRest_iff.2 ⟨hl.2.1, hl.1⟩
    simp [Mpsc.step, hrest, Mpsc.advance, hready] at hs
  have hstep : step p i .step c.shared (c.loc i) =
      some ({ c.shared with ch := ch }, ⟨lch, belowPc c.shared (c.loc i) lch⟩) := by
    simp only [step, if_neg hbusy, below, hs]
    rfl
  refine .of_step h hstep ?_
  have hpc : (belowPc c.shared (c.loc i) lch).rank p ≤ (c.loc i).pc.rank p := by
    rw [belowPc]
    split
    · rename_i hp _ _
      rw [hp]
      exact Nat.le_trans (received_rank _ _ _) (by decide : 300 ≤ 400)
    · exact Nat.le_refl _
  have hlt' : lch.rank ch.queue + ch.entries <
      (c.loc i).ch.rank c.shared.ch.queue + c.shared.ch.entries := hlt
  show (belowPc c.shared (c.loc i) lch).rank p + lch.rank ch.queue + ch.entries <
    (c.loc i).pc.rank p + (c.loc i).ch.rank c.shared.ch.queue + c.shared.ch.entries
  omega

/-! ### The two bodies -/

omit [DecidableEq E] [DecidableEq V] in
theorem Plan.mem {r : Except E V} {todo : List (Chan E V)} {x : Chan E V} {e : Exit} {H : Finset ℕ}
    (h : Plan r (x :: todo) e H st) : x.handle ∈ H := by
  generalize htodo : x :: todo = xs at h
  cases h <;> cases htodo <;> simp [Chan.handle]

/-- **The thread goes on** while it is in no call and has not ended. -/
theorem advances_thread (h : (sys p).Reachable (init p plat hook isMainThread) c)
    (hat : ThreadAt p st c.shared (c.loc .thread)) (hready : (c.loc .thread).ch.pc = .ready)
    (hne : ∀ e, (c.loc .thread).pc ≠ .ended e) : Advances p .thread c := by
  have hgoto : (c.loc .thread).ch.goto .ready = (c.loc .thread).ch := by
    rw [Mpsc.Local.goto, ← hready]
  have hlooks : ∀ q : Mpsc.Pc (Except E V), q.receives = none → ((c.loc .thread).ch.goto q).looks = false :=
    fun q hq => by cases q <;> first | rfl | cases hq
  have hthread := hat.2
  cases hp : (c.loc .thread).pc with
  | cloneSender =>
    rw [hp] at hthread
    obtain ⟨-, -, hhandles, -⟩ := hthread
    have hs : Mpsc.step .thread (.clone 0) c.shared.ch (c.loc .thread).ch = some ({ c.shared.ch with
        senderCount := c.shared.ch.senderCount + 1
        handles := insert c.shared.ch.nextHandle c.shared.ch.handles
        nextHandle := c.shared.ch.nextHandle + 1 }, (c.loc .thread).ch.goto .ready) := by
      rw [hgoto]
      simp [Mpsc.step, hready, hhandles]
    refine .of_call h (q := .takeHook) hready (by simp only [advance, hp]) hs rfl (hlooks _ rfl) ?_
    rw [hp]
    show 1900 + p.hooks.length + 0 < 2000 + p.hooks.length
    omega
  | takeHook =>
    refine .of_goto h (s := { c.shared with panicHook := .default }) (q := .setHook c.shared.panicHook) hready
      (by simp only [advance, hp]) rfl ?_
    rw [hp]
    exact Nat.add_lt_add_right (by decide : 1800 < 1900) _
  | setHook prev =>
    refine .of_goto h (s := { c.shared with panicHook := .worker prev }) (q := .hooks p.hooks) hready
      (by simp only [advance, hp]) rfl ?_
    rw [hp]
    exact Nat.add_lt_add_right (by decide : 1700 < 1800) _
  | hooks rest =>
    rcases rest with _ | ⟨_ | e, rest⟩
    · refine .of_goto h (q := .closure) hready (by simp only [advance, hp]) rfl ?_
      rw [hp]
      exact (by decide : 1600 < 1700)
    · refine .of_goto h (q := .hooks rest) hready (by simp only [advance, hp]) rfl ?_
      rw [hp]
      exact Nat.add_lt_add_left (Nat.lt_succ_self _) _
    · refine .of_goto h (q := hookPanics c.shared.panicHook e c.shared.backend) hready
        (by simp only [advance, hp]) rfl ?_
      have hrank : (hookPanics c.shared.panicHook e c.shared.backend : Pc E V).rank p ≤ 401 := by
        cases c.shared.backend with
        | native => exact (by decide : 101 ≤ 401)
        | wasm =>
          show (panicHook c.shared.panicHook e : Pc E V).rank p ≤ 401
          unfold panicHook
          split
          · exact (by decide : 1 ≤ 401)
          · exact Nat.le_refl _
      rw [hp]
      show (hookPanics c.shared.panicHook e c.shared.backend : Pc E V).rank p < 1700 + (rest.length + 1)
      omega
  | closure =>
    cases hf : p.closure with
    | ok v =>
      refine .of_goto h (q := closureReturns v c.shared.backend) hready (by simp only [advance, hp, hf]) rfl ?_
      rw [hp]
      cases c.shared.backend with
      | native => exact (by decide : 401 < 1600)
      | wasm => exact (by decide : 501 < 1600)
    | error e =>
      refine .of_goto h (q := closurePanics c.shared.panicHook e c.shared.backend) hready
        (by simp only [advance, hp, hf]) rfl ?_
      rw [hp]
      cases c.shared.backend with
      | native => exact (by decide : 401 < 1600)
      | wasm =>
        show (panicHook c.shared.panicHook e : Pc E V).rank p < 1600
        unfold panicHook
        split
        · exact (by decide : 1 < 1600)
        · exact (by decide : 401 < 1600)
  | finish todo e =>
    rw [hp] at hthread
    obtain ⟨hplan, -⟩ := hthread
    rcases todo with _ | ⟨⟨k, r⟩ | k, todo⟩
    · refine .of_goto h (s := { c.shared with exitCode := e.code }) (q := .ended e) hready
        (by simp only [advance, hp]) rfl ?_
      rw [hp]
      exact (by decide : 0 < 1)
    · have hmem : k ∈ c.shared.ch.handles := hplan.mem
      have hs : Mpsc.step .thread (.send .sync k r) c.shared.ch (c.loc .thread).ch = some ({ c.shared.ch with
          borrows := Function.update c.shared.ch.borrows k (insert .thread (c.shared.ch.borrows k))
          tickets := c.shared.ch.tickets + 1 }, (c.loc .thread).ch.goto (.sendLoad
            ⟨.sync, k, r, c.shared.ch.tickets, !c.shared.ch.receiverActive⟩)) := by
        rw [Mpsc.step, if_pos ⟨hready, hmem⟩]
      refine .of_call h (q := .finish todo e) hready (by simp only [advance, hp]) hs rfl (hlooks _ rfl) ?_
      rw [hp]
      show (todo.map Chan.rank).sum + 1 + 100 < (((Chan.send k r) :: todo).map Chan.rank).sum + 1
      rw [List.map_cons, List.sum_cons, Chan.rank]
      omega
    · have hmem : k ∈ c.shared.ch.handles := hplan.mem
      have hborrows := not_borrowed h hready k
      have hs : Mpsc.step .thread (.dropSender k) c.shared.ch (c.loc .thread).ch = some ({ c.shared.ch with
          senderCount := c.shared.ch.senderCount - 1
          handles := c.shared.ch.handles.erase k },
          (c.loc .thread).ch.goto (if c.shared.ch.senderCount = 1 then .senderNotify else .ready)) := by
        rw [Mpsc.step, if_pos ⟨hready, hmem, hborrows⟩]
      refine .of_call h (q := .finish todo e) hready (by simp only [advance, hp]) hs rfl
        (hlooks _ (by split <;> rfl)) ?_
      have hq : (if c.shared.ch.senderCount = 1 then .senderNotify else .ready : Mpsc.Pc (Except E V)).rank
          ≤ 20 := by
        split
        · exact (by decide : 20 ≤ 20)
        · exact (by decide : 0 ≤ 20)
      rw [hp]
      show (todo.map Chan.rank).sum + 1 + _ < (((Chan.drop k) :: todo).map Chan.rank).sum + 1
      rw [List.map_cons, List.sum_cons, Chan.rank]
      omega
  | ended e => exact absurd hp (hne e)
  | handle | receiving | awaitExit | consumed | releasing | joined =>
    rw [hp] at hthread
    exact hthread.elim

/-- **The owner of the `JoinHandle` goes on** while it is in no call and has consumed the handle; it may
have to wait for the exit of the thread. -/
theorem advances_joiner (h : (sys p).Reachable (init p plat hook isMainThread) c)
    (hat : JoinerAt p st c.shared (c.loc .joiner)) (hready : (c.loc .joiner).ch.pc = .ready)
    (hcode : c.shared.exitCode ≠ 0)
    (hne : (c.loc .joiner).pc ≠ .handle ∧ ∀ r, (c.loc .joiner).pc ≠ .joined r) : Advances p .joiner c := by
  unfold JoinerAt at hat
  cases hp : (c.loc .joiner).pc with
  | handle => exact absurd hp hne.1
  | joined r => exact absurd hp (hne.2 r)
  | receiving j =>
    rw [hp] at hat
    obtain ⟨⟨late, hrecv⟩, -⟩ := hat
    rw [hready] at hrecv
    cases hrecv
  | awaitExit v =>
    refine .of_goto h (q := .consumed (some (if c.shared.exitCode = 2 then .exitError else .ok v))) hready
      (by simp only [advance, hp, if_neg hcode]) rfl ?_
    rw [hp]
    exact (by decide : 200 < 300)
  | consumed r =>
    rw [hp] at hat
    have hactive := hat.1.active
    have hreceiving := hat.1.receiving
    have hs : Mpsc.step .joiner .dropReceiver c.shared.ch (c.loc .joiner).ch =
        some ({ c.shared.ch with receiverActive := false }, (c.loc .joiner).ch.goto .receiverNotify) := by
      rw [Mpsc.step, if_pos ⟨hready, hactive, hreceiving⟩]
    refine .of_call h (q := .releasing r) hready (by simp only [advance, hp]) hs rfl rfl ?_
    rw [hp]
    exact (by decide : 100 + 20 < 200)
  | releasing r =>
    refine .of_goto h (q := .joined r) hready (by simp only [advance, hp]) rfl ?_
    rw [hp]
    exact (by decide : 0 < 100)
  | cloneSender | takeHook | setHook | hooks | closure | finish | ended =>
    rw [hp] at hat
    exact hat.elim

/-! ### Everybody -/

theorem sleeper (h : (sys p).Reachable (init p plat hook isMainThread) c) (hat : At p st c)
    (hs : (c.loc i).ch.cv.pc.asleep = true) :
    i = .joiner ∧ ∃ j late, (c.loc .joiner).pc = .receiving j ∧
      (c.loc .joiner).ch.pc = .recvWaited ⟨.recv j.how none, late⟩ := by
  have hin : (c.loc i).ch.cv.pc.inWait = true := by
    cases hp : (c.loc i).ch.cv.pc <;> rw [hp] at hs <;> first | rfl | cases hs
  obtain ⟨y, hy⟩ := (Mpsc.shape (mpsc_reachable h) i).recvWaited hin
  have hy : (c.loc i).ch.pc = .recvWaited y := hy
  obtain ⟨rfl, j, late, hp, rfl⟩ := hat.receives (i := i) (y := y) (by rw [hy]; rfl)
  exact ⟨rfl, j, late, hp, hy⟩

/-- What has been sent is in the queue while the owner sleeps. -/
theorem queued (h : (sys p).Reachable (init p plat hook isMainThread) c) (hat : At p .sent c)
    (hready : (c.loc .thread).ch.pc = .ready) {j : Join} {y : Mpsc.Recv} (hp : (c.loc .joiner).pc = .receiving j)
    (hy : (c.loc .joiner).ch.pc = .recvWaited y) : c.shared.ch.queue ≠ [] := by
  have hch := mpsc_reachable h
  have hflow : c.shared.ch.returned ++ Mpsc.inFlight ((toMpsc p).config c) ++ c.shared.ch.queue =
      c.shared.ch.pushed.map Mpsc.Send.value := Mpsc.flow hch
  have hjoiner := hat.joiner
  rw [JoinerAt, hp] at hjoiner
  obtain ⟨-, -, hresults⟩ := hjoiner
  have hflight : Mpsc.inFlight ((toMpsc p).config c) = [] := by
    simp only [Mpsc.inFlight]
    split
    · rename_i k _
      cases k with
      | thread =>
        show (c.loc .thread).ch.pc.holds = []
        rw [hready]
        rfl
      | joiner =>
        show (c.loc .joiner).ch.pc.holds = []
        rw [hy]
        rfl
    · rfl
  rw [Mpsc.Shared.returned, hresults, hflight] at hflow
  have hsent : c.shared.ch.pushed ≠ [] := by
    have htold : Sent p.result c.shared.ch (c.loc .thread).ch := hat.thread.told
    cases htold with
    | inSend x hx =>
      rw [hready] at hx
      cases hx
    | ok hl x hvalue hsends hpushed =>
      rw [hpushed]
      rintro ⟨⟩
    | rejected hl x hvalue hsends hpushed hgone =>
      rw [hat.joiner.active h hp] at hgone
      cases hgone
  intro hnil
  rw [hnil] at hflow
  exact hsent (List.map_eq_nil_iff.1 hflow.symm)

/-- **A receive that sleeps has its wake-up** when the thread has ended with its result sent. -/
theorem advances_asleep (h : (sys p).Reachable (init p plat hook isMainThread) c) (hat : At p .sent c)
    (hready : (c.loc .thread).ch.pc = .ready) (hs : (c.loc .joiner).ch.cv.pc.asleep = true) :
    Advances p .joiner c := by
  have hch := mpsc_reachable h
  obtain ⟨-, j, late, hp, hy⟩ := sleeper h hat hs
  have hq := queued h hat hready hp hy
  have hno : ∀ i, ¬ (((toMpsc p).config c).loc i).Delivers := fun i hi => by
    cases i with
    | thread =>
      have hi : (c.loc .thread).ch.Delivers := hi
      rw [Mpsc.Local.Delivers, hready] at hi
      exact hi
    | joiner =>
      have hi : (c.loc .joiner).ch.Delivers := hi
      rw [Mpsc.Local.Delivers, hy] at hi
      exact hi
  have hun := untimed h .joiner
  obtain ⟨k, r, hsleep⟩ := Condvar.Pc.sleeps_of_asleep hs hun.cv.pc
  have hsig := (Mpsc.message_wakes (mpsc_reach h) hq hno).1 .joiner k r hsleep
  exact .of_below h (Mpsc.advances_wake hch hun (turn h .joiner) hs hq hsleep hsig)

/-- **Somebody goes on**, as long as there is something to do and the result is not lost. -/
theorem advances (h : (sys p).Reachable (init p plat hook isMainThread) c) (hat : At p st c)
    (hlost : st ≠ .lost) (hdone : ¬ Done c) : ∃ i, Advances p i c := by
  have hch := mpsc_reachable h
  by_cases hcall : ∃ i, (c.loc i).ch.pc ≠ .ready ∧ (c.loc i).ch.cv.pc.asleep = false
  · obtain ⟨i, hi⟩ := Mpsc.advances hch (untimed h) hat.untimed (turn h) hcall
    exact ⟨i, .of_below h hi⟩
  have hrest : ∀ i, (c.loc i).ch.cv.pc.asleep = false → (c.loc i).ch.pc = .ready := fun i hi => by
    by_contra hne
    exact hcall ⟨i, hne, hi⟩
  have hready : (c.loc .thread).ch.pc = .ready := hrest .thread (by
    by_contra hs
    exact absurd (sleeper h hat (Bool.eq_true_of_not_eq_false hs)).1 (by decide))
  by_cases hended : ∃ e, (c.loc .thread).pc = .ended e
  swap
  · exact ⟨.thread, advances_thread h hat.thread hready fun e he => hended ⟨e, he⟩⟩
  obtain ⟨e, he⟩ := hended
  have hthread := hat.thread.2
  rw [he] at hthread
  obtain ⟨hplan, -, hcode, -⟩ := hthread
  refine ⟨.joiner, ?_⟩
  by_cases hs : (c.loc .joiner).ch.cv.pc.asleep = true
  · have hsent : st = .sent := by
      generalize p.result = r at hplan
      generalize c.shared.ch.handles = H at hplan
      generalize htodo : ([] : List (Chan E V)) = todo at hplan
      cases hplan <;> first | rfl | exact absurd rfl hlost | cases htodo
    subst hsent
    exact advances_asleep h hat hready hs
  · refine advances_joiner h hat.joiner (hrest .joiner (Bool.eq_false_of_not_eq_true hs)) ?_
      ⟨fun hp => hdone ⟨⟨e, he⟩, .inl hp⟩, fun r hp => hdone ⟨⟨e, he⟩, .inr ⟨r, hp⟩⟩⟩
    exact hcode

end Spawn

end WasmSafeThread
