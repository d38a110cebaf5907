import WasmSafeThread.Mpsc.Fifo

/-!
# Disconnected

* `Closed` : no `Sender` exists, the queue is empty and no value is in flight; this stays so.
* `Ending` : the control points on the way to `Disconnected`, and the results.
* `Late` : a receive that starts after one has returned `Disconnected` is never refused the lock
  and never waits.
* `disconnected_final` : `Disconnected` is final and complete.
-/

namespace WasmSafeThread

namespace Mpsc

variable {ι T : Type*} [DecidableEq ι] [DecidableEq T] {i j : ι} {a : Act T} {s s₁ : Shared ι T}
  {l l₁ : Local ι T} {plat : Platform ι} {c c' : Config ι (Shared ι T) (Local ι T)}

/-! ### The end of the channel -/

/-- No value is in the queue or in flight, and none will come. -/
structure Closed (c : Config ι (Shared ι T) (Local ι T)) : Prop where
  handles : c.shared.handles = ∅
  queue : c.shared.queue = []
  holds : ∀ i, (c.loc i).pc.holds = []

omit [DecidableEq ι] [DecidableEq T] in
theorem Closed.no_send (h : Closed c) (hb : Borrowed c) : (c.loc i).pc.sends = none := by
  by_contra hne
  obtain ⟨x, hx⟩ := Option.ne_none_iff_exists'.1 hne
  have := (hb.send i x hx).1
  rw [h.handles] at this
  exact absurd this (Finset.notMem_empty _)

omit [DecidableEq T] in
theorem Closed.set (h : Closed c) (hhandles : s₁.handles = ∅) (hqueue : s₁.queue = [])
    (hl : l₁.pc.holds = []) : Closed (c.set i s₁ l₁) where
  handles := hhandles
  queue := hqueue
  holds j := by
    by_cases hji : j = i
    · subst hji; simpa using hl
    · rw [Config.set_loc_of_ne hji]; exact h.holds j

omit [DecidableEq ι] [DecidableEq T] in
theorem Calls.holds {canBlock : Bool} {b : Condvar.Act (Option T) (List T)} {p p₁ : Pc T}
    (h : Calls canBlock p b p₁) : p₁.holds = p.holds := by
  cases h <;> first | rfl | (rename Outcome T => r; cases r <;> rfl)

omit [DecidableEq ι] [DecidableEq T] in
theorem Reads.holds {p p₁ : Pc T} (h : Reads s l p p₁) : p₁.holds = p.holds := by
  cases h <;> rfl

/-- **Closed for good.** -/
theorem Closed.step (h : Closed c) (hb : Borrowed c) (m : Move i c.shared (c.loc i) s₁ l₁) :
    Closed (c.set i s₁ l₁) := by
  have hqueue : s₁.queue = [] := by
    rcases m.queue with hq | ⟨x, hp, -⟩ | ⟨y, -, -, hq, -⟩
    · rw [hq, h.queue]
    · have hsend := h.no_send hb (i := i)
      rw [hp] at hsend
      cases hsend
    · rw [hq, h.queue]; rfl
  have hold := h.holds i
  have hhandle : ∀ k, k ∉ c.shared.handles := by simp [h.handles]
  cases m with
  | below => exact h.set h.handles hqueue hold
  | call b p hcall => exact h.set h.handles hqueue (hcall.holds.trans hold)
  | reads p _ hreads => exact h.set h.handles hqueue (hreads.holds.trans hold)
  | push | returnOk | returnErr | returnRecv | recv | dropReceiver =>
    exact h.set h.handles hqueue rfl
  | pop y hp hg cv lcv hcv =>
    obtain ⟨-, -, -, haccess⟩ := access_guarded hcv
    have hreg : lcv.mx.reg = c.shared.queue.head? := congrArg Prod.fst haccess
    refine h.set h.handles hqueue ?_
    simp only [hreg, h.queue, List.head?_nil]
    rfl
  | cancel cv lcv =>
    obtain ⟨B, R, heq⟩ := dropFuture_eq i (c.loc i).pc { c.shared with cv := cv }
    rw [heq] at hqueue ⊢
    exact h.set h.handles hqueue rfl
  | send how handle t hp hh | clone handle hp hh | dropSender handle hp hh =>
    exact absurd hh (hhandle handle)

/-! ### On the way to `Disconnected` -/

/-- The receive has found the queue empty, and has still the guard. -/
def Pc.foundEmpty : Pc T → Bool
  | .recvLoad _ | .recvWait _ => true
  | _ => false

/-- The receive has found `sender_count` zero. -/
def Pc.foundGone : Pc T → Bool
  | .recvDrop _ .disconnected | .recvReturn _ .disconnected => true
  | _ => false

/-- What a receive that ends with `Disconnected` has found. -/
structure Ending (c : Config ι (Shared ι T) (Local ι T)) : Prop where
  empty : ∀ i, (c.loc i).pc.foundEmpty = true → c.shared.queue = []
  gone : ∀ i, (c.loc i).pc.foundGone = true → Closed c
  result : ∀ z ∈ c.shared.results, z.2 = .disconnected → Closed c

omit [DecidableEq ι] [DecidableEq T] in
theorem Local.Shape.guard_of_foundEmpty (hl : l.Shape) (h : l.pc.foundEmpty = true) :
    l.cv.mx.pc = .guard := by
  cases hp : l.pc with
  | recvLoad | recvWait => rw [Local.Shape, hp] at hl; exact hl.2
  | _ => rw [hp] at h; cases h

/-- A receive that has found the queue empty had found it so before the step, or has just popped. -/
theorem Move.foundEmpty (m : Move i s l s₁ l₁) (h : l₁.pc.foundEmpty = true) :
    l.pc.foundEmpty = true ∨ s₁.queue = [] := by
  cases m with
  | below => exact .inl h
  | call b p hcall =>
    generalize l.pc = q at hcall
    cases hcall <;> cases h
  | reads p hrest hreads =>
    rw [Local.goto_pc] at h
    generalize l.pc = q at hreads
    cases hreads <;> first | exact .inl rfl | cases h
  | pop y hp hg cv lcv hcv =>
    obtain ⟨-, -, -, haccess⟩ := access_guarded hcv
    have hreg : lcv.mx.reg = s.queue.head? := congrArg Prod.fst haccess
    have hqueue : cv.mx.inner = s.queue.tail := congrArg Prod.snd haccess
    cases hq : s.queue with
    | nil => exact .inr (by rw [Shared.queue, hqueue, hq]; rfl)
    | cons t q => simp only [hreg, hq, List.head?_cons] at h; cases h
  | clone => exact .inl h
  | dropSender =>
    rw [Local.goto_pc] at h
    split at h <;> cases h
  | _ => cases h

namespace Ending

/-- A queue that was found empty stays empty while its guard is held. -/
theorem empty_set (hc : sys.Reachable (init plat) c) (h : Ending c)
    (m : Move i c.shared (c.loc i) s₁ l₁) (j : ι)
    (hj : ((c.set i s₁ l₁).loc j).pc.foundEmpty = true) : s₁.queue = [] := by
  by_cases hji : j = i
  · subst hji
    rw [Config.set_loc_self] at hj
    rcases m.foundEmpty hj with hbefore | hq
    · rcases m.queue with hq | ⟨x, hp, -⟩ | ⟨y, hp, -⟩
      · rw [hq]
        exact h.empty j hbefore
      · rw [hp] at hbefore; cases hbefore
      · rw [hp] at hbefore; cases hbefore
    · exact hq
  · -- the mover has not the guard, so it does not touch the queue
    rw [Config.set_loc_of_ne hji] at hj
    have hguard := (shape hc j).guard_of_foundEmpty hj
    have hother : (c.loc i).cv.mx.pc ≠ .guard := fun hi =>
      hji (guard_unique hc (by rw [Local.hasGuard, hguard]; rfl) (by rw [Local.hasGuard, hi]; rfl))
    rcases m.queue with hq | ⟨x, hp, -⟩ | ⟨y, hp, hg, -⟩
    · rw [hq]
      exact h.empty j hj
    · have hl := shape hc i
      rw [Local.Shape, hp] at hl
      exact absurd hl.2 hother
    · exact absurd hg hother

theorem closed_of_count (hc : sys.Reachable (init plat) c) (h : Ending c) {y : Recv}
    (hp : (c.loc i).pc = .recvLoad y) (hrest : (c.loc i).cv.atRest = true)
    (hcount : c.shared.senderCount = 0) : Closed c where
  handles := by
    rw [(borrowed hc).count] at hcount
    exact Finset.card_eq_zero.1 hcount
  queue := h.empty i (by rw [hp]; rfl)
  holds j := by
    by_contra hj
    have hrun : c.shared.running = some i :=
      (runs hc i).2 ⟨y, by rw [hp]; rfl, not_suspended_of_atRest hrest⟩
    have hji := hrun.symm.trans (running_of_holds hc hj)
    cases hji
    rw [hp] at hj
    exact hj rfl

/-- A receive that has found the channel closed had found it so before the step, or has just read
`sender_count`. -/
theorem gone_set (hc : sys.Reachable (init plat) c) (h : Ending c)
    (m : Move i c.shared (c.loc i) s₁ l₁) (hgone : l₁.pc.foundGone = true) : Closed c := by
  cases m with
  | below | clone => exact h.gone i hgone
  | call b p hcall =>
    have hbefore : (c.loc i).pc.foundGone = true := by
      generalize (c.loc i).pc = q at hcall
      cases hcall with
      | recvDrop y r => cases r <;> first | rfl | cases hgone
      | _ => cases hgone
    exact h.gone i hbefore
  | reads p hrest hreads =>
    rw [Local.goto_pc] at hgone
    generalize hp : (c.loc i).pc = q at hreads
    cases hreads with
    | disconnected y hcount => exact closed_of_count hc h hp hrest hcount
    | _ => cases hgone
  | pop y hp hg cv lcv hcv =>
    dsimp only at hgone
    split at hgone <;> cases hgone
  | dropSender =>
    rw [Local.goto_pc] at hgone
    split at hgone <;> cases hgone
  | _ => cases hgone

theorem step (hc : sys.Reachable (init plat) c) (h : Ending c)
    (m : Move i c.shared (c.loc i) s₁ l₁) : Ending (c.set i s₁ l₁) := by
  have hclosed : Closed c → Closed (c.set i s₁ l₁) := fun h' => h'.step (borrowed hc) m
  refine ⟨h.empty_set hc m, fun j hj => ?_, fun z hz hdisc => ?_⟩
  · by_cases hji : j = i
    · subst hji
      rw [Config.set_loc_self] at hj
      exact hclosed (h.gone_set hc m hj)
    · rw [Config.set_loc_of_ne hji] at hj
      exact hclosed (h.gone j hj)
  · rcases m.results hz with hz | ⟨y, r, hp, -, rfl⟩
    · exact hclosed (h.result z hz hdisc)
    · cases hdisc
      exact hclosed (h.gone i (by rw [hp]; rfl))

end Ending

theorem ending (h : sys.Reachable (init plat) c) : Ending c := by
  refine h.invariant ?_ (fun c i a s l hc ih _ hs => ih.step hc (step_move hs)) ?_
  · exact ⟨nofun, nofun, nofun⟩
  · intro c e s _ ih _ hs
    simp only [sys, Option.map_eq_some_iff] at hs
    obtain ⟨p, -, rfl⟩ := hs
    exact ⟨ih.empty, fun i hi => ⟨(ih.gone i hi).handles, (ih.gone i hi).queue, (ih.gone i hi).holds⟩,
      fun z hz hd => ⟨(ih.result z hz hd).handles, (ih.result z hz hd).queue, (ih.result z hz hd).holds⟩⟩

/-! ### Receives that start after the end -/

/-- The acquisition has not been refused the lock. -/
def unrefused : Mutex.Pc ι → Bool
  | .tryLock | .lockSpin _ | .lockNow _ _ | .enter _ _ | .attempt _ _ | .leaveOk _ | .guard => true
  | _ => false

omit [DecidableEq ι] in
theorem unrefused_start (op : Mutex.Op) : unrefused (op.start : Mutex.Pc ι) = true := by
  rcases op with _ | d | ⟨w, _ | d⟩ <;> rfl

omit [DecidableEq T] in
/-- While nobody else has the guard, an acquisition is not refused the lock. -/
theorem unrefused_step {b : Mutex.Act (Option T) (List T)}
    {m m₁ : Mutex.Shared ι (Option T) (List T)} {lm lm₁ : Mutex.Local ι (Option T)}
    (h : Mutex.step i b m lm = some (m₁, lm₁)) (hb : b = .step ∨ b = .spurious)
    (hl : unrefused lm.pc = true) (hfree : lm.pc.hasGuard = false → m.dataLock = false) :
    unrefused lm₁.pc = true := by
  rcases hb with rfl | rfl
  · cases hp : lm.pc with
    | tryLock | attempt =>
      have hlock := hfree (by rw [hp]; rfl)
      simp only [Mutex.step, Mutex.advance, hp, Mutex.Shared.tryLock, hlock] at h
      cases h
      rfl
    | lockSpin =>
      have hlock := hfree (by rw [hp]; rfl)
      simp only [Mutex.step, Mutex.advance, hp, hlock] at h
      cases h
      rfl
    | lockNow w d =>
      simp only [Mutex.step, Mutex.advance, hp] at h
      cases h
      rw [Mutex.Local.goto_pc]
      split <;> rfl
    | enter =>
      simp only [Mutex.step, Mutex.advance, hp] at h
      split at h <;> cases h
      rfl
    | leaveOk =>
      simp only [Mutex.step, Mutex.advance, hp] at h
      cases h
      rfl
    | guard => simp [Mutex.step, Mutex.advance, hp] at h
    | _ => rw [hp] at hl; cases hl
  · cases hp : lm.pc with
    | park => rw [hp] at hl; cases hl
    | _ => simp [Mutex.step, hp] at h

/-- A late receive is not refused the lock, does not wait, and ends with `Disconnected`. -/
def Local.Smooth (l : Local ι T) : Prop :=
  match l.pc with
  | .recvLock _ | .recvLoad _ => True
  | .recvPop _ => unrefused l.cv.mx.pc = true
  | .recvDrop _ r | .recvReturn _ r => r = .disconnected
  | _ => False

omit [DecidableEq ι] [DecidableEq T] in
theorem Local.Shape.not_waiting (hl : l.Shape) (h : l.Smooth) :
    l.cv.pc.waitsOn = none ∧ l.cv.mx.pc.waitsOn = none := by
  have hmx : ∀ p : Mutex.Pc ι, p.quiet = true ∨ p = .guard ∨ unrefused p = true →
      p.waitsOn = none := by
    intro p hp
    cases p <;> simp_all [Mutex.Pc.quiet, unrefused, Mutex.Pc.waitsOn]
  cases hp : l.pc with
  | recvLock y =>
    rw [Local.Shape, hp] at hl
    exact ⟨by rw [hl.1]; rfl, hmx _ (.inl hl.2.2)⟩
  | recvReturn y r =>
    rw [Local.Shape, hp] at hl
    exact ⟨by rw [hl.1]; rfl, hmx _ (.inl hl.2)⟩
  | recvLoad y | recvDrop y r =>
    rw [Local.Shape, hp] at hl
    exact ⟨by rw [hl.1]; rfl, hmx _ (.inr (.inl hl.2))⟩
  | recvPop y =>
    rw [Local.Shape, hp] at hl
    rw [Local.Smooth, hp] at h
    exact ⟨by rw [show l.cv.pc = .ready from hl]; rfl, hmx _ (.inr (.inr h))⟩
  | _ => rw [Local.Smooth, hp] at h; exact h.elim

/-- What is known of the receives that start after one has returned `Disconnected`. -/
structure Late (c : Config ι (Shared ι T) (Local ι T)) : Prop where
  recv : ∀ i y, (c.loc i).pc.receives = some y → y.late = true →
    c.shared.disconnected = true ∧ (c.loc i).Smooth
  result : ∀ z ∈ c.shared.results, z.1.late = true → z.2 = .disconnected

omit [DecidableEq T] in
theorem unrefused_lock {op : Mutex.Op} {cv cv₁ : Condvar.Shared ι (Option T) (List T)}
    {lcv lcv₁ : Condvar.Local ι (Option T)}
    (h : Condvar.step i (.lock op) cv lcv = some (cv₁, lcv₁)) : unrefused lcv₁.mx.pc = true := by
  simp only [Condvar.step] at h
  split at h
  · obtain ⟨m, lm, hm, rfl, rfl⟩ := Condvar.lift_eq_some h
    cases hp : lcv.mx.pc <;> simp only [Mutex.step, hp, reduceCtorEq] at hm <;> cases hm <;>
      exact unrefused_start op
  · cases h

omit [DecidableEq ι] [DecidableEq T] in
theorem not_suspended_of_unrefused {l : Condvar.Local ι (Option T)} (hpc : l.pc = .ready)
    (hmx : unrefused l.mx.pc = true) : suspended l = false := by
  cases hm : l.mx.pc <;> simp_all [suspended, unrefused]

theorem lock_free (hc : sys.Reachable (init plat) c) (h : Closed c)
    (hrun : c.shared.running = some i) (hi : (c.loc i).hasGuard = false) :
    c.shared.cv.mx.dataLock = false := by
  by_contra hlock
  rw [Bool.not_eq_false] at hlock
  have howned := Mutex.owned (Condvar.mutex_reachable (condvar_reachable hc))
  obtain ⟨j, hj⟩ := howned.iff.1 hlock
  obtain ⟨⟨x, hx⟩ | ⟨y, hy⟩, hsusp⟩ :=
    (shape hc j).guard (Condvar.shape (condvar_reachable hc) j) hj
  · rw [h.no_send (borrowed hc)] at hx
    cases hx
  · have hji := hrun.symm.trans ((runs hc j).2 ⟨y, hy, hsusp⟩)
    cases hji
    exact Bool.false_ne_true (hi.symm.trans hj)

namespace Late

/-- A late receive that goes on does so without an obstacle. -/
theorem smooth (hc : sys.Reachable (init plat) c) (hclosed : Closed c)
    (m : Move i c.shared (c.loc i) s₁ l₁) {y : Recv} (hy : (c.loc i).pc.receives = some y)
    (hl : (c.loc i).Smooth) (hy₁ : l₁.pc.receives = some y) : l₁.Smooth := by
  have hshape := shape hc i
  have hcount : c.shared.senderCount = 0 := by
    rw [(borrowed hc).count, hclosed.handles]
    rfl
  cases m with
  | below b hb cv lcv hcv =>
    cases hp : (c.loc i).pc with
    | recvPop y' =>
      rw [Local.Shape, hp] at hshape
      simp only [Local.Smooth, hp] at hl ⊢
      rcases Condvar.step_goes_on hb hcv with ⟨-, -, b', hb', hm⟩ | ⟨-, hne, -⟩
      · refine unrefused_step hm hb' hl fun hi => ?_
        exact lock_free hc hclosed
          ((runs hc i).2 ⟨y, hy, not_suspended_of_unrefused hshape hl⟩) hi
      · exact absurd hshape hne
    | _ => simp only [Local.Smooth, hp] at hl ⊢ <;> exact hl
  | call b p hcall cv lcv hcv =>
    simp only [Local.Smooth] at hl ⊢
    generalize (c.loc i).pc = q at hcall hl
    cases hcall with
    | tryLock | recvLock => exact unrefused_lock hcv
    | recvDrop => exact hl
    | _ => exact hl.elim
  | reads p hrest hreads =>
    simp only [Local.Smooth, Local.goto_pc] at hl ⊢
    generalize (c.loc i).pc = q at hreads hl
    cases hreads with
    | tryFailed _ hg | lockFailed _ hg => rw [hg] at hl; cases hl
    | disconnected => rfl
    | empty _ hne | wait _ hne => exact absurd hcount hne
    | _ => exact hl.elim
  | pop y' hp hg cv lcv hcv =>
    obtain ⟨-, -, -, haccess⟩ := access_guarded hcv
    have hreg : lcv.mx.reg = c.shared.queue.head? := congrArg Prod.fst haccess
    simp only [Local.Smooth, hreg, hclosed.queue, List.head?_nil]
  | clone => exact hl
  | recv => trivial
  | dropSender =>
    rw [Local.goto_pc] at hy₁
    split at hy₁ <;> cases hy₁
  | _ => cases hy₁

theorem step (hc : sys.Reachable (init plat) c) (h : Late c)
    (m : Move i c.shared (c.loc i) s₁ l₁) : Late (c.set i s₁ l₁) := by
  have hgrows : c.shared.disconnected = true → s₁.disconnected = true := by
    intro hd
    obtain ⟨z, hz, hdisc⟩ := List.any_eq_true.1 hd
    exact List.any_eq_true.2 ⟨z, m.results_subset hz, hdisc⟩
  have hclosed : c.shared.disconnected = true → Closed c := by
    intro hd
    obtain ⟨z, hz, hdisc⟩ := List.any_eq_true.1 hd
    exact (ending hc).result z hz (by simpa using hdisc)
  refine ⟨fun j y hy hlate => ?_, fun z hz hlate => ?_⟩
  · by_cases hji : j = i
    · subst hji
      rw [Config.set_loc_self] at hy ⊢
      rcases m.receives hy with hbefore | ⟨op, rfl, hp⟩
      · obtain ⟨hdisc, hsmooth⟩ := h.recv j y hbefore hlate
        exact ⟨hgrows hdisc, smooth hc (hclosed hdisc) m hbefore hsmooth hy⟩
      · exact ⟨hgrows hlate, by rw [Local.Smooth, hp]; trivial⟩
    · rw [Config.set_loc_of_ne hji] at hy ⊢
      exact (h.recv j y hy hlate).imp_left hgrows
  · rcases m.results hz with hz | ⟨y, r, hp, -, rfl⟩
    · exact h.result z hz hlate
    · have hsmooth := (h.recv i y (by rw [hp]; rfl) hlate).2
      rw [Local.Smooth, hp] at hsmooth
      exact hsmooth

end Late

theorem late (h : sys.Reachable (init plat) c) : Late c := by
  refine h.invariant ⟨nofun, nofun⟩ (fun c i a s l hc ih _ hs => ih.step hc (step_move hs)) ?_
  intro c e s _ ih _ hs
  simp only [sys, Option.map_eq_some_iff] at hs
  obtain ⟨p, -, rfl⟩ := hs
  exact ⟨ih.recv, ih.result⟩

/-! ### Receives without a timeout -/

/-- The results that a receive can have: without a timeout, a value or `Disconnected`. -/
def RecvOp.Gives (op : RecvOp) (r : Outcome T) : Prop :=
  ∀ how, op = .recv how none → r.ok? = none → r = .disconnected

/-- The results so far, and those about to be returned, are such results. -/
structure Given (c : Config ι (Shared ι T) (Local ι T)) : Prop where
  drop : ∀ i y r, (c.loc i).pc = .recvDrop y r ∨ (c.loc i).pc = .recvReturn y r → y.op.Gives r
  result : ∀ z ∈ c.shared.results, z.1.op.Gives z.2

omit [DecidableEq ι] [DecidableEq T] in
theorem RecvOp.gives_of_ne {op op' : RecvOp} {r : Outcome T} (h : op = op')
    (hne : ∀ how, op' ≠ .recv how none) : op.Gives r :=
  fun how heq => absurd (h.symm.trans heq) (hne how)

/-- A step gives a receive no other result. -/
theorem Given.drop_set (h : Given c) (m : Move i c.shared (c.loc i) s₁ l₁) {y : Recv}
    {r : Outcome T} (hp : l₁.pc = .recvDrop y r ∨ l₁.pc = .recvReturn y r) : y.op.Gives r := by
  cases m with
  | below | clone => exact h.drop i y r hp
  | call b p hcall =>
    refine h.drop i y r ?_
    generalize (c.loc i).pc = q at hcall
    cases hcall <;> rcases hp with hp | hp <;> cases hp
    exact .inl rfl
  | reads p hrest hreads =>
    rw [Local.goto_pc] at hp
    generalize (c.loc i).pc = q at hreads
    cases hreads with
    | tryFailed y' hg hy | empty y' hne hy =>
      rcases hp with hp | hp <;> cases hp
      exact RecvOp.gives_of_ne hy nofun
    | lockFailed y' hg how d hy =>
      rcases hp with hp | hp <;> cases hp
      exact RecvOp.gives_of_ne hy nofun
    | timedOut y' how d hy =>
      rcases hp with hp | hp <;> cases hp
      exact RecvOp.gives_of_ne hy nofun
    | disconnected =>
      rcases hp with hp | hp <;> cases hp
      exact fun _ _ _ => rfl
    | _ => rcases hp with hp | hp <;> cases hp
  | pop y' _ _ cv lcv =>
    dsimp only at hp
    split at hp <;> rcases hp with hp | hp <;> cases hp
    exact fun _ _ hnone => by cases hnone
  | dropSender =>
    rw [Local.goto_pc] at hp
    split at hp <;> rcases hp with hp | hp <;> cases hp
  | _ => rcases hp with hp | hp <;> cases hp

theorem given (h : sys.Reachable (init plat) c) : Given c := by
  refine h.invariant ⟨fun i y r hp => ?_, nofun⟩ ?_ ?_
  · rcases hp with hp | hp <;> cases hp
  · intro c i a s l _ ih _ hs
    refine ⟨fun j y r hp => ?_, fun z hz => ?_⟩
    · by_cases hji : j = i
      · subst hji
        rw [Config.set_loc_self] at hp
        exact ih.drop_set (step_move hs) hp
      · rw [Config.set_loc_of_ne hji] at hp
        exact ih.drop j y r hp
    · rcases (step_move hs).results hz with hz | ⟨y, r, hp, -, rfl⟩
      · exact ih.result z hz
      · exact ih.drop i y r (.inr hp)
  · intro c e s _ ih _ hs
    simp only [sys, Option.map_eq_some_iff] at hs
    obtain ⟨p, -, rfl⟩ := hs
    exact ⟨ih.drop, ih.result⟩

/-- **`Disconnected` is final and complete.**  Once a receive has returned `Disconnected`, no
`Sender` exists, the queue is empty, and every value that was pushed, in particular that of every
send that returned `Ok`, has been returned to the receiver.  A receive that starts later never
waits for the lock or for a notification, and what it returns is `Disconnected`.  A receive
without a timeout returns a value or `Disconnected`; so `IntoIter::next`, which is
`recv_sync().ok()`, gives `None` exactly when the receive has returned `Disconnected`. -/
theorem disconnected_final (h : sys.Reachable (init plat) c) :
    (∀ y, (y, .disconnected) ∈ c.shared.results →
      c.shared.handles = ∅ ∧ c.shared.senderCount = 0 ∧ c.shared.queue = [] ∧
        c.shared.returned = c.shared.pushed.map Send.value ∧
        ∀ x, (x, .ok ()) ∈ c.shared.sends → x ∈ c.shared.pushed) ∧
    (∀ y r, (y, r) ∈ c.shared.results → y.late = true → r = .disconnected) ∧
    (∀ i y, (c.loc i).pc.receives = some y → y.late = true →
      (c.loc i).cv.pc.waitsOn = none ∧ (c.loc i).cv.mx.pc.waitsOn = none) ∧
    (∀ y r, (y, r) ∈ c.shared.results → y.op = intoIterNext →
      (r.ok? = none ↔ r = .disconnected)) := by
  refine ⟨fun y hy => ?_, fun y r hr hl => (late h).result _ hr hl, fun i y hy hl => ?_,
    fun y r hr hop => ⟨(given h).result _ hr .sync hop, fun heq => by rw [heq]; rfl⟩⟩
  · have hclosed := (ending h).result _ hy rfl
    have hflow := flow h
    have hnil : inFlight c = [] := by
      simp only [inFlight]
      split
      · exact hclosed.holds _
      · rfl
    rw [Flow, hnil, hclosed.queue, List.append_nil, List.append_nil] at hflow
    refine ⟨hclosed.handles, ?_, hclosed.queue, hflow, fun x hx => ((tickets h).ok x () hx).1⟩
    rw [(borrowed h).count, hclosed.handles]
    rfl
  · exact (shape h i).not_waiting ((late h).recv i y hy hl).2

/-- A run in which the last sender sends and is dropped, and three receives follow. -/
theorem disconnected_final_last_send :
    ∃ c : Config Bool (Shared Bool ℕ) (Local Bool ℕ), sys.Reachable (init (.new .native)) c ∧
      c.shared.results = [(⟨.tryRecv, false⟩, .ok 7), (⟨.tryRecv, false⟩, .disconnected),
        (⟨intoIterNext, true⟩, .disconnected)] ∧
      c.shared.handles = ∅ ∧ c.shared.returned = c.shared.pushed.map Send.value := by
  obtain ⟨c, hc, hend⟩ := System.exists_of_run (M := sys)
    (c := init (ι := Bool) (T := ℕ) (.new .native))
    (p := fun c => decide (c.shared.results = [(⟨.tryRecv, false⟩, .ok 7),
      (⟨.tryRecv, false⟩, .disconnected), (⟨intoIterNext, true⟩, .disconnected)]))
    (sendSpin false 0 7 ++ [.agent false (.dropSender 0), .agent true (.recv .tryRecv)] ++
      List.replicate 8 (.agent true .step) ++ [.agent true (.recv .tryRecv)] ++
      List.replicate 9 (.agent true .step) ++ [.agent true (.recv intoIterNext)] ++
      List.replicate 11 (.agent true .step)) (by decide)
  rw [decide_eq_true_eq] at hend
  obtain ⟨hhandles, -, -, hreturned, -⟩ := (disconnected_final hc).1 ⟨.tryRecv, false⟩
    (by rw [hend]; simp)
  exact ⟨c, hc, hend, hhandles, hreturned⟩

end Mpsc

end WasmSafeThread
