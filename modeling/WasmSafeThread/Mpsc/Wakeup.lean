import WasmSafeThread.Mpsc.Disconnect
import WasmSafeThread.Mpsc.LastSender
import WasmSafeThread.Condvar.Notify

/-!
# The notification of a message

A send pushes its value and then calls `notify_one`, which takes one entry.  The receive it is
meant for has registered when the queue was empty, so the value came later, and its send has the
`notify_one` still to come.  Receives that run one after another leave entries behind in the lists;
an entry of the same list is older than the one of the receive and does no harm, a list of spinning
waits has none, but a list of blocked threads may have one, and `notify_one` tries it before the
list of `wait_async`.

* `Sequential` : the condition on a step that it starts no receive while one is in progress.
* `Direct` : the condition on a step that it does not spend the last `notify_one` to come on a
  blocked thread while the receive sleeps in `wait_async`.
* `Awaited` : a registered receive on a queue that is not empty has a `notify_one` to come.
* `message_wakes` : in these runs no receive is left asleep on a queue that is not empty.
* `message_unheard` : a run with a step that is not such, which leaves a receive asleep.
-/

namespace WasmSafeThread

namespace Mpsc

variable {ι T : Type*}

/-- The agent is between its `push_back` and the end of its `notify_one`. -/
def Local.Delivers (l : Local ι T) : Prop :=
  match l.pc with
  | .sendDrop _ | .sendNotify _ => True
  | .sendReturn _ => l.cv.pc ≠ .ready
  | _ => False

/-- The agent has pushed its value, and its `notify_one` has still to try list `k`. -/
def Local.WillPop (k : Condvar.Kind) (l : Local ι T) : Prop :=
  match l.pc with
  | .sendDrop _ | .sendNotify _ => True
  | .sendReturn _ => match l.cv.pc with
    | .notifyOne k' => k ∈ k'.scan
    | _ => False
  | _ => False

/-- The step starts no receive while one is in progress. -/
def Sequential (c : Config ι (Shared ι T) (Local ι T)) : Label ι (Act T) (Event ι) → Prop
  | .agent _ (.recv _) => c.shared.receiving = ∅
  | _ => True

/-- The step is no `notify_one` that takes the entry of a blocked thread while a value is in the
queue and a receive sleeps in `wait_async` and is registered, or another `notify_one` for that
receive is still to come. -/
def Direct (c : Config ι (Shared ι T) (Local ι T)) : Label ι (Act T) (Event ι) → Prop
  | .agent j _ => (c.loc j).cv.pc = .notifyOne .sync → c.shared.cv.waiting .sync ≠ [] →
      c.shared.queue ≠ [] → ∀ i, ∀ x ∈ (c.loc i).cv.pc.sleeps, x.1 = .async →
        ⟨x.2, i⟩ ∈ c.shared.cv.waiting .async → ∃ j', j' ≠ j ∧ (c.loc j').WillPop .async
  | .env _ => True

variable {i j : ι} {a : Act T} {s s₁ : Shared ι T} {l l₁ : Local ι T} {k : Condvar.Kind} {r : ℕ}
  {c : Config ι (Shared ι T) (Local ι T)} {plat : Platform ι}

theorem Local.WillPop.delivers (h : l.WillPop k) : l.Delivers := by
  cases hp : l.pc <;> simp only [WillPop, Delivers, hp] at h ⊢
  intro hready
  simp [hready] at h

theorem Local.Delivers.sends (h : l.Delivers) : ∃ x, l.pc.sends = some x := by
  cases hp : l.pc <;> simp only [Delivers, hp] at h
  all_goals exact ⟨_, rfl⟩

theorem Local.WillPop.sends (h : l.WillPop k) : ∃ x, l.pc.sends = some x := h.delivers.sends

variable [DecidableEq ι] [DecidableEq T]

/-! ### One receive after another -/

/-- Only a call of a receive adds one to those in progress. -/
theorem step_receiving (h : step i a s l = some (s₁, l₁)) :
    (∃ op, a = .recv op) ∨ s₁.receiving ⊆ s.receiving := by
  by_cases ha : ∃ op, a = .recv op
  · exact .inl ha
  right
  cases step_move h with
  | recv op hp hactive hrun =>
    exfalso
    cases a with
    | recv op' => exact ha ⟨op', rfl⟩
    | send | clone | dropSender | dropReceiver =>
      simp only [step] at h
      split at h <;> simp_all [Local.goto]
    | consume =>
      simp only [step, hp, if_true] at h
      obtain ⟨cv, lcv, -, -, hl⟩ := lift_eq_some h
      exact absurd (congrArg Local.pc hl) (by rintro ⟨⟩)
    | step =>
      simp only [step] at h
      split at h
      · obtain ⟨⟨s₂, l₂⟩, hr, heq⟩ := Option.map_eq_some_iff.1 h
        have hl := (settle_parts heq).2
        split at hr
        · simp [advance, hp] at hr
        · obtain ⟨cv, lcv, -, -, hl₂⟩ := lift_eq_some hr
          rw [hl₂, hp] at hl
          exact absurd (congrArg Local.pc hl) (by rintro ⟨⟩)
      · cases h
    | spurious =>
      simp only [step] at h
      split at h
      · obtain ⟨⟨s₂, l₂⟩, hr, heq⟩ := Option.map_eq_some_iff.1 h
        have hl := (settle_parts heq).2
        obtain ⟨cv, lcv, -, -, hl₂⟩ := lift_eq_some hr
        rw [hl₂, hp] at hl
        exact absurd (congrArg Local.pc hl) (by rintro ⟨⟩)
      · cases h
    | cancel =>
      simp only [step] at h
      split at h
      · simp only [Option.map_eq_some_iff, Prod.mk.injEq] at h
        obtain ⟨⟨s₂, l₂⟩, hr, -, hl⟩ := h
        obtain ⟨cv, lcv, -, -, hl₂⟩ := lift_eq_some hr
        rw [hl₂] at hl
        exact absurd (congrArg Local.pc hl) (by rintro ⟨⟩)
      · cases h
  | returnRecv => exact Finset.sdiff_subset
  | cancel cv lcv =>
    simp only [dropFuture]
    split
    · exact Finset.Subset.refl _
    · exact Finset.sdiff_subset
    · exact Finset.Subset.refl _
  | _ => exact Finset.Subset.refl _

theorem receiving_unique (h : sys.Reach Sequential (init plat) c) :
    ∀ i ∈ c.shared.receiving, ∀ j ∈ c.shared.receiving, i = j := by
  refine h.invariant (I := fun c => ∀ i ∈ c.shared.receiving, ∀ j ∈ c.shared.receiving, i = j)
    ?_ ?_ ?_
  · exact fun i hi => absurd hi (Finset.notMem_empty _)
  · intro c i a s l hc ih hP hs
    rcases step_receiving hs with ⟨op, rfl⟩ | hsub
    · have hnil : c.shared.receiving = ∅ := hP
      simp only [sys, step] at hs
      split at hs <;> cases hs
      intro j hj j' hj'
      simp only [Config.set_shared, hnil, Finset.mem_insert, Finset.notMem_empty, or_false] at hj hj'
      rw [hj, hj']
    · exact fun j hj j' hj' => ih j (hsub hj) j' (hsub hj')
  · intro c e s _ ih _ hs
    simp only [sys, Option.map_eq_some_iff] at hs
    obtain ⟨p, -, rfl⟩ := hs
    exact ih

theorem receive_unique (h : sys.Reach Sequential (init plat) c) {y y' : Recv}
    (hi : (c.loc i).pc.receives = some y) (hj : (c.loc j).pc.receives = some y') : i = j :=
  receiving_unique h i ((borrowed h.reachable).recv i y hi) j ((borrowed h.reachable).recv j y' hj)

theorem wait_unique (h : sys.Reach Sequential (init plat) c) (hi : (c.loc i).cv.pc.inWait = true)
    (hj : (c.loc j).cv.pc.inWait = true) : i = j := by
  obtain ⟨y, hy⟩ := (shape h.reachable i).recvWaited hi
  obtain ⟨y', hy'⟩ := (shape h.reachable j).recvWaited hj
  have hiy : (c.loc i).pc.receives = some y := by rw [hy]; rfl
  have hjy : (c.loc j).pc.receives = some y' := by rw [hy']; rfl
  exact receive_unique h hiy hjy

/-! ### The queue when a wait registers -/

theorem Move.register (m : Move i s l s₁ l₁) {deadline : Option ℕ}
    (h : l₁.cv.pc = .register k deadline) :
    l.cv.pc = .register k deadline ∨ l.pc.foundEmpty = true := by
  cases m with
  | below b hb cv lcv hcv =>
    refine (Condvar.step_register hcv h).imp_right fun hwait => ?_
    rcases hb with ⟨rfl, -⟩ | rfl <;> cases hwait
  | call b p hcall cv lcv hcv =>
    refine (Condvar.step_register hcv h).imp_right fun hwait => ?_
    generalize l.pc = q at hcall
    cases hcall <;> first | rfl | cases hwait
  | push x hp cv lcv hcv => exact .inl ((Condvar.step_register hcv h).resolve_right nofun)
  | pop y hp hg cv lcv hcv => exact .inl ((Condvar.step_register hcv h).resolve_right nofun)
  | cancel cv lcv hcv => exact .inl ((Condvar.step_register hcv h).resolve_right nofun)
  | _ => exact .inl h

/-- **A wait registers when the queue is empty.** -/
theorem empty_of_register (h : sys.Reachable (init plat) c) {deadline : Option ℕ}
    (hi : (c.loc i).cv.pc = .register k deadline) : c.shared.queue = [] := by
  revert i k deadline
  refine h.invariant (I := fun c => ∀ {i k deadline}, (c.loc i).cv.pc = .register k deadline →
    c.shared.queue = []) (fun hi => by cases hi) ?_ ?_
  · intro c m a s l hc ih _ hs i k deadline hi
    have hm := step_move hs
    by_cases him : i = m
    · subst him
      rw [Config.set_loc_self] at hi
      have hnil : c.shared.queue = [] :=
        (hm.register hi).elim ih fun hempty => (ending hc).empty i hempty
      rcases hm.queue with hq | ⟨x, hp, -⟩ | ⟨y, hp, -, hq, -⟩
      · exact hq.trans hnil
      · rcases hm.register hi with hreg | hempty
        · have hl := shape hc i
          rw [Local.Shape, hp] at hl
          rw [hl.1] at hreg
          cases hreg
        · rw [hp] at hempty
          cases hempty
      · rw [Config.set_shared, hq, hnil]
        rfl
    · rw [Config.set_loc_of_ne him] at hi
      have hguard : (c.loc i).cv.mx.pc = .guard := by
        have hl := Condvar.shape (condvar_reachable hc) i
        simp only [Condvar.Local.Shape, toCondvar, Projection.config, hi] at hl
        exact hl
      have hother : (c.loc m).cv.mx.pc ≠ .guard := fun hg =>
        him (guard_unique hc (by rw [Local.hasGuard, hguard]; rfl) (by rw [Local.hasGuard, hg]; rfl))
      rcases hm.queue with hq | ⟨x, hp, -⟩ | ⟨y, hp, hg, -⟩
      · exact hq.trans (ih hi)
      · have hl := shape hc m
        rw [Local.Shape, hp] at hl
        exact absurd hl.2 hother
      · exact absurd hg hother
  · intro c e s _ ih _ hs i k deadline hi
    simp only [sys, Option.map_eq_some_iff] at hs
    obtain ⟨p, -, rfl⟩ := hs
    exact ih hi

/-! ### The list of a wait -/

omit [DecidableEq ι] [DecidableEq T] in
/-- `recv_async` waits as a task, the others do not. -/
theorem How.wait_async {how : How} {canBlock : Bool} {deadline d : Option ℕ}
    (h : (how.wait canBlock deadline : Condvar.Act (Option T) (List T)) = .wait k d) :
    k = .async ↔ how = .async := by
  cases how <;> cases canBlock <;> cases h <;> decide

/-- A wait is in the list for tasks exactly in `recv_async`. -/
theorem wait_async (h : sys.Reachable (init plat) c) {y : Recv} {how : How} {deadline : Option ℕ}
    (hp : (c.loc i).pc = .recvWaited y) (hop : y.op = .recv how deadline)
    (hk : (c.loc i).cv.pc.kind = some k) : k = .async ↔ how = .async := by
  revert i y how deadline k
  refine h.invariant (I := fun c => ∀ {i y how deadline k}, (c.loc i).pc = .recvWaited y →
    y.op = .recv how deadline → (c.loc i).cv.pc.kind = some k → (k = .async ↔ how = .async))
    (fun hp => nomatch hp) ?_ ?_
  · intro c j a s l hc ih _ hs i y how deadline k hp hop hk
    by_cases hij : i = j
    swap
    · rw [Config.set_loc_of_ne hij] at hp hk
      exact ih hp hop hk
    subst hij
    rw [Config.set_loc_self] at hp hk
    have hshape := Condvar.shape (condvar_reachable hc) i
    cases step_move hs with
    | below b hb cv lcv hcv =>
      refine (Condvar.step_kind hshape hcv hk).elim (ih hp hop) fun ⟨d, hwait⟩ => ?_
      rcases hb with ⟨rfl, -⟩ | rfl <;> cases hwait
    | call b p hcall cv lcv hcv =>
      have hl := shape hc i
      rw [Local.Shape] at hl
      generalize (c.loc i).pc = q at hcall hl
      subst hp
      cases hcall with
      | recvWait y how' deadline' hy =>
        rw [hop] at hy
        cases hy
        rcases Condvar.step_kind hshape hcv hk with hbefore | ⟨d, hwait⟩
        · have hready : (c.loc i).cv.pc = .ready := hl.1
          rw [show ((toCondvar.config c).loc i).pc = .ready from hready] at hbefore
          cases hbefore
        · exact How.wait_async hwait
    | reads p hrest hreads =>
      generalize (c.loc i).pc = q at hreads
      rw [Local.goto_pc] at hp
      subst hp
      cases hreads
    | pop y' hp' hg cv lcv =>
      dsimp only at hp
      split at hp <;> cases hp
    | clone => exact ih hp hop hk
    | dropSender =>
      rw [Local.goto_pc] at hp
      split at hp <;> cases hp
    | _ => cases hp
  · intro c e s _ ih _ hs i y how deadline k hp hop hk
    exact ih hp hop hk

/-! ### The drop of the last sender -/

/-- The agent is in `Sender::drop` of the last sender. -/
def Pc.dropsLast : Pc T → Bool
  | .senderNotify | .senderReturn => true
  | _ => false

omit [DecidableEq ι] [DecidableEq T] in
theorem Calls.dropsLast {canBlock : Bool} {b : Condvar.Act (Option T) (List T)} {p p₁ : Pc T}
    (h : Calls canBlock p b p₁) : p₁.dropsLast = p.dropsLast := by
  cases h <;> rfl

omit [DecidableEq ι] [DecidableEq T] in
theorem Reads.dropsLast {p p₁ : Pc T} (h : Reads s l p p₁) (hp : p₁.dropsLast = true) :
    p.dropsLast = true := by
  cases h <;> first | rfl | cases hp

/-- While the last sender is dropped no `Sender` exists. -/
theorem handles_of_dropsLast (h : sys.Reachable (init plat) c)
    (hi : (c.loc i).pc.dropsLast = true) : c.shared.handles = ∅ := by
  revert i
  refine h.invariant (I := fun c => ∀ {i}, (c.loc i).pc.dropsLast = true → c.shared.handles = ∅)
    (fun hi => by cases hi) ?_ ?_
  · intro c m a s l hc ih _ hs i hi
    have hkeep : c.shared.handles = ∅ → s.handles = ∅ := fun hnil => by
      have hno : ∀ k, k ∉ c.shared.handles := fun k hk => by
        rw [hnil] at hk
        exact absurd hk (Finset.notMem_empty k)
      cases step_move hs with
      | clone handle hp hh | dropSender handle hp hh => exact absurd hh (hno handle)
      | cancel cv lcv =>
        obtain ⟨B, R, heq⟩ := dropFuture_eq m (c.loc m).pc { c.shared with cv := cv }
        rw [heq]
        exact hnil
      | _ => exact hnil
    by_cases him : i = m
    · subst him
      rw [Config.set_loc_self] at hi
      cases step_move hs with
      | below | clone => exact hkeep (ih hi)
      | call b p hcall => exact hkeep (ih (hcall.dropsLast ▸ hi))
      | reads p hrest hreads => exact hkeep (ih (hreads.dropsLast hi))
      | pop =>
        dsimp only at hi
        split at hi <;> cases hi
      | dropSender handle hp hh =>
        -- the count was 1, and this was the `Sender` that it counted
        have hcount := (borrowed hc).count
        rw [Local.goto_pc] at hi
        split at hi
        · rename_i hone
          rw [hone] at hcount
          rw [Config.set_shared, ← Finset.card_eq_zero, Finset.card_erase_of_mem hh, ← hcount]
        · cases hi
      | _ => cases hi
    · rw [Config.set_loc_of_ne him] at hi
      exact hkeep (ih hi)
  · intro c e s _ ih _ hs i hi
    simp only [sys, Option.map_eq_some_iff] at hs
    obtain ⟨p, -, rfl⟩ := hs
    exact ih hi

theorem not_dropsLast (h : sys.Reachable (init plat) c) {x : Send T}
    (hi : (c.loc i).pc.sends = some x) : (c.loc j).pc.dropsLast = false := by
  by_contra hj
  have hmem := ((borrowed h).send i x hi).1
  rw [handles_of_dropsLast h (Bool.eq_true_of_not_eq_false hj)] at hmem
  exact absurd hmem (Finset.notMem_empty _)

/-! ### What a step leaves of the lists -/

omit [DecidableEq T] in
theorem newest_of_list {cv cv₁ : Condvar.Shared ι (Option T) (List T)}
    {lcv lcv₁ : Condvar.Local ι (Option T)} {b : Condvar.Act (Option T) (List T)}
    {e : Condvar.Entry ι} (m : Condvar.ListMove i b cv lcv cv₁ lcv₁)
    (hw : lcv.pc.inWait = false) (hnodup : ((cv.waiting k).map Condvar.Entry.reg).Nodup)
    (hlast : (cv.waiting k).getLast? = some e) (he : e ∈ cv₁.waiting k) :
    (cv₁.waiting k).getLast? = some e := by
  rcases m.outside hw k with hsame | hnil | ⟨-, hdrop⟩
  · rw [hsame, hlast]
  · rw [hnil] at he
    exact absurd he (List.not_mem_nil)
  · rw [hdrop] at he
    exact absurd rfl (Condvar.reg_ne_of_getLast hnodup hlast he)

/-- **The entry of the receive that sleeps is the newest of its list.** -/
theorem newest (h : sys.Reach Sequential (init plat) c) (hi : (c.loc i).cv.pc.sleeps = some (k, r))
    (he : ⟨r, i⟩ ∈ c.shared.cv.waiting k) : (c.shared.cv.waiting k).getLast? = some ⟨r, i⟩ := by
  revert i k r
  refine h.invariant (I := fun c => ∀ {i k r}, (c.loc i).cv.pc.sleeps = some (k, r) →
    ⟨r, i⟩ ∈ c.shared.cv.waiting k → (c.shared.cv.waiting k).getLast? = some ⟨r, i⟩)
    (fun hi => by cases hi) ?_ ?_
  · intro c m a s l hc ih _ hs i k r hi he
    rcases (step_move hs).condvar with ⟨hcv, hlcv⟩ | ⟨b, hb⟩
    · rw [Config.set_shared, hcv] at he ⊢
      by_cases him : i = m
      · subst him
        rw [Config.set_loc_self, hlcv] at hi
        exact ih hi he
      · rw [Config.set_loc_of_ne him] at hi
        exact ih hi he
    · by_cases him : i = m
      · subst him
        rw [Config.set_loc_self] at hi
        rcases Condvar.step_sleeps hb hi with ⟨hold, hlist⟩ | ⟨-, rfl, hpush⟩
        · rw [Config.set_shared, hlist] at he ⊢
          exact ih hold he
        · rw [Config.set_shared, hpush]
          simp [Condvar.Shared.push, Condvar.Shared.setList]
      · rw [Config.set_loc_of_ne him] at hi
        have hcv := condvar_reachable hc.reachable
        have hm := Condvar.step_list (Condvar.shape hcv m) hb
        have hout : (c.loc m).cv.pc.inWait = false := by
          by_contra hin
          exact him (wait_unique hc (Condvar.inWait_of_sleeps hi) (Bool.eq_true_of_not_eq_false hin))
        rcases hm.mem_waiting he with hold | ⟨hagent, -⟩
        · exact newest_of_list hm hout ((Condvar.registered_inv hcv).nodup k) (ih hi hold) he
        · exact absurd hagent him
  · intro c e s _ ih _ hs i k r hi he
    simp only [sys, Option.map_eq_some_iff] at hs
    obtain ⟨p, -, rfl⟩ := hs
    exact ih hi he

/-- What a step does with the `notify_one` to come: it keeps it, or tries list `k` in vain, or
takes the newest entry of a list. -/
theorem Move.willPop (m : Move i s l s₁ l₁) (hl : l.Shape) (h : l.WillPop k) :
    l₁.WillPop k ∨ s.cv.waiting k = [] ∨ ∃ k', l.cv.pc = .notifyOne k' ∧ k ∈ k'.scan ∧
      s.cv.waiting k' ≠ [] ∧ s₁.cv.waiting k' = (s.cv.waiting k').dropLast := by
  cases m with
  | below b hb cv lcv hcv =>
    cases hp : l.pc with
    | sendDrop | sendNotify => exact .inl (by simp only [Local.WillPop])
    | sendReturn x =>
      rw [Local.Shape, hp] at hl
      obtain ⟨k', hk'⟩ : ∃ k', l.cv.pc = .notifyOne k' := by
        cases hq : l.cv.pc <;> simp only [Local.WillPop, hp, hq] at h
        exact ⟨_, rfl⟩
      have hscan : k ∈ k'.scan := by simpa only [Local.WillPop, hp, hk'] using h
      rcases Condvar.step_goes_on hb hcv with ⟨-, hmx, -⟩ | ⟨-, -, ⟨-, hadv⟩ | ⟨hwait, -, -⟩⟩
      · rw [hl.2.1] at hmx; cases hmx
      · simp only [Condvar.advance, hk'] at hadv
        cases hlast : (s.cv.waiting k').getLast? with
        | some e =>
          simp only [hlast] at hadv
          cases hadv
          refine .inr (.inr ⟨k', hk', hscan, fun hnil => ?_, ?_⟩)
          · rw [hnil] at hlast; cases hlast
          · simp [Condvar.Shared.setList]
        | none =>
          -- the list is empty: it is list `k`, or list `k` comes later
          rcases Condvar.Kind.mem_scan hscan with rfl | ⟨k'', hnext, hk''⟩
          · exact .inr (.inl (List.getLast?_eq_none_iff.1 hlast))
          · simp only [hlast, hnext] at hadv
            cases hadv
            exact .inl (by simpa only [Local.WillPop, hp, Condvar.Local.goto_pc] using hk'')
      · rw [hk'] at hwait; cases hwait
    | _ => simp only [Local.WillPop, hp] at h
  | call b p hcall cv lcv hcv =>
    generalize hp : l.pc = q at hcall
    simp only [Local.WillPop, hp] at h
    cases hcall with
    | sendDrop => exact .inl trivial
    | sendNotify =>
      simp only [Condvar.step] at hcv
      split at hcv <;> cases hcv
      exact .inl (by cases k <;> simp [Local.WillPop, Condvar.Kind.scan])
    | _ => exact absurd h id
  | reads p hrest hreads =>
    generalize hp : l.pc = q at hreads
    simp only [Local.WillPop, hp] at h
    cases hreads <;> exact absurd h id
  | returnOk x hp hrest =>
    simp only [Local.WillPop, hp, (Condvar.Local.atRest_iff.1 hrest).2] at h
  | cancel cv lcv hcv =>
    -- a send is never suspended, so it is no future that is dropped
    have hsusp : suspended l.cv = false := by
      cases hp : l.pc <;> simp only [Local.WillPop, hp] at h <;> rw [Local.Shape, hp] at hl
      · exact not_suspended (by rw [hl.1]; rfl) (.inr (by rw [hl.2]; rfl))
      · exact not_suspended (by rw [hl.1]; rfl) (.inl hl.2)
      · exact not_suspended hl.1 (.inl hl.2.2)
    rw [suspended_of_cancel hcv] at hsusp
    cases hsusp
  | clone handle hp => exact .inl h
  | push x hp | pop y hp | returnErr x hp | returnRecv y r hp | send _ _ _ hp | recv _ hp
    | dropSender _ hp | dropReceiver hp => simp only [Local.WillPop, hp] at h

theorem Move.pushed_willPop (m : Move i s l s₁ l₁) (hq : s.queue = []) (hq₁ : s₁.queue ≠ []) :
    l₁.WillPop k ∧ ∃ x, l.pc = .sendPush x := by
  cases m with
  | push x hp => exact ⟨trivial, x, hp⟩
  | below b hb cv lcv hcv =>
    refine absurd ((Condvar.step_inner hcv ?_).trans hq) hq₁
    rcases hb with ⟨rfl, -⟩ | rfl <;> exact nofun
  | call b p hcall cv lcv hcv =>
    exact absurd ((Condvar.step_inner hcv hcall.not_access).trans hq) hq₁
  | pop y hp hg cv lcv hcv =>
    obtain ⟨-, -, -, haccess⟩ := access_guarded hcv
    have htail : cv.mx.inner = s.queue.tail := congrArg Prod.snd haccess
    rw [hq] at htail
    exact absurd htail hq₁
  | cancel cv lcv hcv =>
    obtain ⟨B, R, heq⟩ := dropFuture_eq i l.pc { s with cv := cv }
    rw [heq] at hq₁
    exact absurd ((Condvar.step_inner hcv nofun).trans hq) hq₁
  | _ => exact absurd hq hq₁

theorem Move.senderReturn (m : Move i s l s₁ l₁) (h : l₁.pc = .senderReturn) :
    l.pc.dropsLast = true := by
  cases m with
  | below | clone => exact congrArg Pc.dropsLast h
  | call b p hcall => exact hcall.dropsLast ▸ (congrArg Pc.dropsLast h)
  | reads p hrest hreads => exact hreads.dropsLast (congrArg Pc.dropsLast h)
  | pop =>
    dsimp only at h
    split at h <;> cases h
  | dropSender =>
    rw [Local.goto_pc] at h
    split at h <;> cases h
  | _ => cases h

/-! ### A `notify_one` to come -/

/-- A receive that sleeps on a queue that is not empty has a `notify_one` to come, or a send has
taken its entry. -/
structure Awaited (c : Config ι (Shared ι T) (Local ι T)) : Prop where
  coming : ∀ i k r, (c.loc i).cv.pc.sleeps = some (k, r) → ⟨r, i⟩ ∈ c.shared.cv.waiting k →
    c.shared.queue ≠ [] → ∃ j, (c.loc j).WillPop k
  carried : ∀ i k r j, (c.loc i).cv.pc.sleeps = some (k, r) →
    (k, ⟨r, i⟩) ∈ (c.loc j).cv.pc.carries → c.shared.queue ≠ [] → (c.loc j).Delivers

/-- A receive that sleeps after a step, on a queue that is not empty, slept before. -/
theorem sleeps_before (hc : sys.Reachable (init plat) c) (m : Move j c.shared (c.loc j) s₁ l₁)
    (hi : ((c.set j s₁ l₁).loc i).cv.pc.sleeps = some (k, r)) (hq : s₁.queue ≠ []) :
    (c.loc i).cv.pc.sleeps = some (k, r) ∧
      (⟨r, i⟩ ∈ s₁.cv.waiting k → ⟨r, i⟩ ∈ c.shared.cv.waiting k) := by
  by_cases hij : i = j
  · subst hij
    rw [Config.set_loc_self] at hi
    rcases m.condvar with ⟨hcv, hlcv⟩ | ⟨b, hb⟩
    · exact ⟨hlcv ▸ hi, fun he => hcv ▸ he⟩
    · rcases Condvar.step_sleeps hb hi with ⟨hold, hlist⟩ | ⟨hreg, -⟩
      · exact ⟨hold, fun he => hlist ▸ he⟩
      · obtain ⟨-, x, hp⟩ := m.pushed_willPop (k := k) (empty_of_register hc hreg) hq
        have hl := shape hc i
        rw [Local.Shape, hp] at hl
        rw [hl.1] at hreg
        cases hreg
  · rw [Config.set_loc_of_ne hij] at hi
    refine ⟨hi, fun he => ?_⟩
    rcases m.condvar with ⟨hcv, -⟩ | ⟨b, hb⟩
    · exact hcv ▸ he
    · have hm := Condvar.step_list (Condvar.shape (condvar_reachable hc) j) hb
      exact (hm.mem_waiting he).resolve_right fun hagent => hij hagent.1

namespace Awaited

/-- A step that keeps to `Direct` leaves a `notify_one` to come. -/
theorem coming_set (hc : sys.Reach Sequential (init plat) c) (h : Awaited c) {a : Act T}
    (hP : Direct c (.agent j a)) (m : Move j c.shared (c.loc j) s₁ l₁)
    (hi : ((c.set j s₁ l₁).loc i).cv.pc.sleeps = some (k, r)) (he : ⟨r, i⟩ ∈ s₁.cv.waiting k)
    (hq : s₁.queue ≠ []) : ∃ j', ((c.set j s₁ l₁).loc j').WillPop k := by
  have hr := hc.reachable
  obtain ⟨hold, hlist⟩ := sleeps_before hr m hi hq
  have hmem := hlist he
  by_cases hq₀ : c.shared.queue = []
  · exact ⟨j, by simpa using (m.pushed_willPop hq₀ hq).1⟩
  obtain ⟨j', hj'⟩ := h.coming i k r hold hmem hq₀
  by_cases hjj : j' = j
  swap
  · exact ⟨j', by rwa [Config.set_loc_of_ne hjj]⟩
  subst hjj
  have hcv := condvar_reachable hr
  rcases m.willPop (shape hr j') hj' with hkeep | hnil | ⟨k', hpc, hscan, hne, hdrop⟩
  · exact ⟨j', by simpa using hkeep⟩
  · rw [hnil] at hmem
    exact absurd hmem List.not_mem_nil
  · by_cases hkk : k = k'
    · subst hkk
      rw [hdrop] at he
      exact absurd rfl (Condvar.reg_ne_of_getLast ((Condvar.registered_inv hcv).nodup k)
        (newest hc hold hmem) he)
    · cases k' with
      | spin =>
        -- a spinning wait is in progress, and it is not that of the receive
        obtain ⟨e, hmem'⟩ := List.exists_mem_of_ne_nil _ hne
        have hlive : (c.loc e.agent).cv.pc.waitsOn = some (.spin, e.reg) :=
          Condvar.spin_live hcv e hmem'
        have hagent := wait_unique hc (Condvar.inWait_of_waitsOn hlive)
          (Condvar.inWait_of_sleeps hold)
        rw [hagent, Condvar.waitsOn_of_sleeps hold] at hlive
        cases hlive
        exact absurd rfl hkk
      | sync =>
        obtain rfl : k = .async := by
          cases k
          · simp [Condvar.Kind.scan] at hscan
          · exact absurd rfl hkk
          · rfl
        obtain ⟨j'', hne', hpop⟩ := hP hpc hne hq₀ i (.async, r) hold rfl hmem
        exact ⟨j'', by rwa [Config.set_loc_of_ne hne']⟩
      | async =>
        cases k <;> simp [Condvar.Kind.scan] at hscan hkk

/-- An entry that is carried while the queue is not empty is carried by a send. -/
theorem carried_set (hc : sys.Reachable (init plat) c) (h : Awaited c)
    (m : Move j c.shared (c.loc j) s₁ l₁) (hc' : sys.Reachable (init plat) (c.set j s₁ l₁))
    {j' : ι} (hi : ((c.set j s₁ l₁).loc i).cv.pc.sleeps = some (k, r))
    (hcarry : (k, ⟨r, i⟩) ∈ ((c.set j s₁ l₁).loc j').cv.pc.carries) (hq : s₁.queue ≠ []) :
    ((c.set j s₁ l₁).loc j').Delivers := by
  obtain ⟨hold, -⟩ := sleeps_before hc m hi hq
  obtain ⟨pending, rest, hpc, -⟩ := Condvar.notifying_of_carries hcarry
  have hl := shape hc' j'
  cases hp : ((c.set j s₁ l₁).loc j').pc with
  | sendReturn x =>
    rw [Local.Delivers, hp, hpc]
    exact nofun
  | receiverReturn =>
    obtain ⟨y, hy⟩ := (shape hc' i).recvWaited (Condvar.inWait_of_sleeps hi)
    have hactive := active_of_receives hc' (i := i) (y := y) (by rw [hy]; rfl)
    rw [(borrowed hc').gone j' (by rw [hp]; rfl)] at hactive
    cases hactive
  | senderReturn =>
    exfalso
    have hlast : (c.loc j').pc.dropsLast = true := by
      by_cases hjj : j' = j
      · subst hjj
        rw [Config.set_loc_self] at hp
        exact m.senderReturn hp
      · rw [Config.set_loc_of_ne hjj] at hp
        rw [hp]
        rfl
    have hnone : ∀ j₁ x, (c.loc j₁).pc.sends ≠ some x := fun j₁ x hx => by
      rw [not_dropsLast hc hx] at hlast
      cases hlast
    have hq₀ : c.shared.queue ≠ [] := fun hq₀ => by
      obtain ⟨-, x, hx⟩ := m.pushed_willPop (k := k) hq₀ hq
      exact hnone j x (by rw [hx]; rfl)
    have hbefore : (k, ⟨r, i⟩) ∈ (c.loc j').cv.pc.carries ∨ ⟨r, i⟩ ∈ c.shared.cv.waiting k := by
      by_cases hjj : j' = j
      · subst hjj
        rw [Config.set_loc_self] at hcarry
        rcases m.condvar with ⟨-, hlcv⟩ | ⟨b, hb⟩
        · exact .inl (hlcv ▸ hcarry)
        · exact (Condvar.step_list (Condvar.shape (condvar_reachable hc) j') hb).mem_carries hcarry
      · rw [Config.set_loc_of_ne hjj] at hcarry
        exact .inl hcarry
    rcases hbefore with hbefore | hbefore
    · obtain ⟨x, hx⟩ := (h.carried i k r j' hold hbefore hq₀).sends
      exact hnone j' x hx
    · obtain ⟨j₁, hj₁⟩ := h.coming i k r hold hbefore hq₀
      obtain ⟨x, hx⟩ := hj₁.sends
      exact hnone j₁ x hx
  | recvWaited y =>
    rw [Local.Shape, hp] at hl
    rcases hl with hl | hl <;> rw [hpc] at hl
    · cases hl
    · cases hl.1
  | sendRecheck | recvPop =>
    rw [Local.Shape, hp] at hl
    rw [show _ = Condvar.Pc.ready from hl] at hpc
    cases hpc
  | _ =>
    rw [Local.Shape, hp] at hl
    rw [hl.1] at hpc
    cases hpc

end Awaited

theorem awaited (h : sys.Reach (fun c a => Sequential c a ∧ Direct c a) (init plat) c) :
    Awaited c := by
  refine h.invariant ⟨nofun, nofun⟩ (fun c j a s l hc ih hP hs => ?_) ?_
  · have hseq := hc.mono fun _ _ hP => hP.1
    exact ⟨fun i k r hi he hq => ih.coming_set hseq hP.2 (step_move hs) hi he hq,
      fun i k r j' hi hcarry hq => ih.carried_set hc.reachable (step_move hs)
        (hc.reachable.agent trivial hs) hi hcarry hq⟩
  · intro c e s _ ih _ hs
    simp only [sys, Option.map_eq_some_iff] at hs
    obtain ⟨p, -, rfl⟩ := hs
    exact ⟨ih.coming, ih.carried⟩

/-- **No receive is left asleep on a queue that is not empty**, in runs whose receives come one
after another and whose steps keep to `Direct`.  When the queue is not empty and no send is between
its `push_back` and the end of its `notify_one`, an untimed wait that sleeps has its wake-up; and a
wait that is back in the lock of the queue has its wake-up too, or waits for another agent that has
the guard or is dropping it. -/
theorem message_wakes (h : sys.Reach (fun c a => Sequential c a ∧ Direct c a) (init plat) c)
    (hq : c.shared.queue ≠ []) (hno : ∀ j, ¬ (c.loc j).Delivers) :
    (∀ i k r, (c.loc i).cv.pc.sleeps = some (k, r) →
      c.shared.cv.signalled (k, ⟨r, i⟩) = true) ∧
    ∀ i timedOut slot, (c.loc i).cv.pc = .relocking timedOut →
      (c.loc i).cv.mx.pc.waitsOn = some slot →
      c.shared.cv.mx.plat.Signalled (slot.wake i) = true ∨
        ∃ j, j ≠ i ∧ ((c.loc j).cv.mx.pc.hasGuard = true ∨
          Mutex.WillSignal (Condvar.toMutex.config (toCondvar.config c)) j slot.way
            (slot.wake i)) := by
  have hcv := condvar_reachable h.reachable
  have hinv := awaited h
  refine ⟨fun i k r hi => ?_, fun i timedOut slot hi hslot => ?_⟩
  · rcases Condvar.kept hcv (i := i) hi with hlist | ⟨j, hcarry⟩ | hsig
    · obtain ⟨j, hj⟩ := hinv.coming i k r hi hlist hq
      exact absurd hj.delivers (hno j)
    · exact absurd (hinv.carried i k r j hi hcarry hq) (hno j)
    · exact hsig
  · by_cases hsig : c.shared.cv.mx.plat.Signalled (slot.wake i) = true
    · exact .inl hsig
    right
    rcases Mutex.guard_or_willSignal (Condvar.mutex_reachable hcv) hslot
      (Bool.eq_false_of_not_eq_true hsig) with ⟨j, hj⟩ | ⟨j, hj⟩
    · refine ⟨j, ?_, .inl hj⟩
      rintro rfl
      exact Bool.false_ne_true ((Mutex.Pc.hasGuard_of_waitsOn hslot).symm.trans hj)
    · refine ⟨j, ?_, .inr hj⟩
      rintro rfl
      obtain ⟨w, pending, rest, hp, -⟩ := hj
      have hp' : (c.loc j).cv.mx.pc = .didUnlock w pending rest := hp
      rw [hp'] at hslot
      cases hslot

instance (k : Condvar.Kind) (l : Local ι T) : Decidable (l.WillPop k) := by
  unfold Local.WillPop
  split
  · exact .isTrue trivial
  · exact .isTrue trivial
  · split
    · infer_instance
    · exact .isFalse id
  · exact .isFalse id

instance (l : Local ι T) : Decidable l.Delivers := by
  unfold Local.Delivers
  split <;> infer_instance

instance (c : Config ι (Shared ι T) (Local ι T)) :
    (a : Label ι (Act T) (Event ι)) → Decidable (Sequential c a)
  | .agent _ (.recv _) => inferInstanceAs (Decidable (_ = _))
  | .agent _ (.send _ _ _) | .agent _ (.clone _) | .agent _ (.dropSender _)
  | .agent _ .dropReceiver | .agent _ .consume | .agent _ .step | .agent _ .spurious
  | .agent _ .cancel | .env _ => .isTrue trivial

instance [Fintype ι] (c : Config ι (Shared ι T) (Local ι T)) :
    (a : Label ι (Act T) (Event ι)) → Decidable (Direct c a)
  | .agent j _ => inferInstanceAs (Decidable ((c.loc j).cv.pc = .notifyOne .sync → _))
  | .env _ => .isTrue trivial

/-! ### Two runs -/

/-- A run in which a value is sent to a receive that is asleep. -/
theorem message_wakes_park :
    ∃ c : Config Bool (Shared Bool ℕ) (Local Bool ℕ),
      sys.Reach (fun c a => Sequential c a ∧ Direct c a) (init (.new .native)) c ∧
      c.shared.queue = [7] ∧ (c.loc true).cv.pc = .park none 0 ∧
      c.shared.cv.mx.plat.token true = true := by
  obtain ⟨c, hc, hend⟩ := System.exists_of_along (M := sys)
    (P := fun c a => Sequential c a ∧ Direct c a)
    (c := init (ι := Bool) (T := ℕ) (.new .native))
    (p := fun c => decide (c.shared.queue = [7] ∧ (c.loc true).cv.pc = .park none 0 ∧
      ∀ j, ¬ (c.loc j).Delivers))
    (recvBlockLoad true ++ recvBlockPark true ++ sendSpin false 0 7) (by decide) (by decide)
  simp only [decide_eq_true_eq] at hend
  obtain ⟨hqueue, hpc, hno⟩ := hend
  exact ⟨c, hc, hqueue, hpc, (message_wakes hc (by rw [hqueue]; exact nofun) hno).1 true .sync 0
    (by rw [hpc]; rfl)⟩

/-- **A receive that is left asleep.**  The park of a `recv_block` returns spuriously, so it waits
twice and is registered twice; a message wakes it by one of the two entries, and it returns.  The
next receive is a `recv_async`.  The `notify_one` of the next message takes the entry that was left
behind. -/
theorem message_unheard :
    ∃ c : Config Bool (Shared Bool ℕ) (Local Bool ℕ),
      sys.Reach Sequential (init (.new .native)) c ∧ c.shared.queue = [8] ∧
      (∀ j, ¬ (c.loc j).Delivers) ∧ (c.loc false).pc = .ready ∧
      (c.loc true).pc = .recvWaited ⟨.recv .async none, false⟩ ∧
      (c.loc true).cv.pc = .await 2 ∧ c.shared.cv.signalled (.async, ⟨2, true⟩) = false := by
  obtain ⟨c, hc, hend⟩ := System.exists_of_along (M := sys) (P := Sequential)
    (c := init (ι := Bool) (T := ℕ) (.new .native))
    (p := fun c => decide (c.shared.queue = [8] ∧ (∀ j, ¬ (c.loc j).Delivers) ∧
      (c.loc false).pc = .ready ∧ (c.loc true).pc = .recvWaited ⟨.recv .async none, false⟩ ∧
      (c.loc true).cv.pc = .await 2 ∧ c.shared.cv.signalled (.async, ⟨2, true⟩) = false))
    (recvBlockLoad true ++ recvBlockPark true ++ [.agent true .spurious] ++
      List.replicate 15 (.agent true .step) ++ sendSpin false 0 7 ++
      List.replicate 13 (.agent true .step) ++ [.agent true (.recv (.recv .async none))] ++
      List.replicate 13 (.agent true .step) ++ sendSpin false 0 8) (by decide) (by decide)
  exact ⟨c, hc, of_decide_eq_true hend⟩

end Mpsc

end WasmSafeThread
