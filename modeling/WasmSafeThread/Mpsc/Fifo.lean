import WasmSafeThread.Mpsc.Ownership

/-!
# First in, first out

* `Flow` : the values returned, the value in flight and the queue are the values pushed, in the
  order of the pushes.
* `Tickets` : what has become of each send: its value was pushed once and it returned, or will
  return, `Ok`, or its value was not pushed.
* `fifo` : both, in every reachable configuration.
-/

namespace WasmSafeThread

namespace Mpsc

variable {ι T : Type*} [DecidableEq ι] [DecidableEq T] {i j : ι} {a : Act T} {s s₁ : Shared ι T}
  {l l₁ : Local ι T} {plat : Platform ι} {c c' : Config ι (Shared ι T) (Local ι T)}

/-! ### The values -/

/-- The value that a receive has popped and not returned yet. -/
def Pc.holds : Pc T → List T
  | .recvDrop _ (.ok t) | .recvReturn _ (.ok t) => [t]
  | _ => []

/-- The values that the receives have returned, in their order. -/
def Shared.returned (s : Shared ι T) : List T := s.results.filterMap fun z => z.2.ok?

/-- The value that the receive that runs has popped and not returned yet. -/
def inFlight (c : Config ι (Shared ι T) (Local ι T)) : List T :=
  match c.shared.running with
  | some i => (c.loc i).pc.holds
  | none => []

omit [DecidableEq ι] [DecidableEq T] in
theorem Pc.receives_of_holds {p : Pc T} (h : p.holds ≠ []) : ∃ y, p.receives = some y := by
  cases p with
  | recvDrop y r | recvReturn y r => exact ⟨y, rfl⟩
  | _ => exact absurd rfl h

omit [DecidableEq ι] [DecidableEq T] in
theorem Local.Shape.not_suspended_of_holds (hl : l.Shape) (h : l.pc.holds ≠ []) :
    suspended l.cv = false := by
  cases hp : l.pc with
  | recvDrop y r =>
    rw [Local.Shape, hp] at hl
    exact not_suspended (by rw [hl.1]; rfl) (.inr (by rw [hl.2]; rfl))
  | recvReturn y r =>
    rw [Local.Shape, hp] at hl
    exact not_suspended (by rw [hl.1]; rfl) (.inl hl.2)
  | _ => rw [hp] at h; exact absurd rfl h

theorem running_of_holds (h : sys.Reachable (init plat) c) (hi : (c.loc i).pc.holds ≠ []) :
    c.shared.running = some i := by
  obtain ⟨y, hy⟩ := Pc.receives_of_holds hi
  exact (runs h i).2 ⟨y, hy, (shape h i).not_suspended_of_holds hi⟩

omit [DecidableEq ι] [DecidableEq T] in
theorem inFlight_of_running (h : c.shared.running = some i) : inFlight c = (c.loc i).pc.holds := by
  simp only [inFlight, h]

theorem inFlight_set (h : sys.Reachable (init plat) c) (h' : sys.Reachable (init plat) (c.set i s₁ l₁))
    (hl : l₁.pc.holds = (c.loc i).pc.holds) : inFlight (c.set i s₁ l₁) = inFlight c := by
  have hholds : ∀ j, ((c.set i s₁ l₁).loc j).pc.holds = (c.loc j).pc.holds := fun j => by
    by_cases hji : j = i
    · subst hji; simpa using hl
    · rw [Config.set_loc_of_ne hji]
  by_cases hsome : ∃ j, (c.loc j).pc.holds ≠ []
  · obtain ⟨j, hj⟩ := hsome
    rw [inFlight_of_running (running_of_holds h hj),
      inFlight_of_running (running_of_holds h' (by rwa [hholds])), hholds]
  · have hnone : ∀ j, (c.loc j).pc.holds = [] := by simpa using hsome
    have hnil : ∀ d : Config ι (Shared ι T) (Local ι T), (∀ j, (d.loc j).pc.holds = []) →
        inFlight d = [] := fun d hd => by
      simp only [inFlight]
      split
      · exact hd _
      · rfl
    rw [hnil c hnone, hnil _ fun j => (hholds j).trans (hnone j)]

/-- The values returned, the value in flight and the queue are the values pushed. -/
def Flow (c : Config ι (Shared ι T) (Local ι T)) : Prop :=
  c.shared.returned ++ inFlight c ++ c.shared.queue = c.shared.pushed.map Send.value

namespace Flow

theorem same (hc : sys.Reachable (init plat) c) (hc' : sys.Reachable (init plat) (c.set i s₁ l₁))
    (h : Flow c) (hl : l₁.pc.holds = (c.loc i).pc.holds)
    (hresults : s₁.results = c.shared.results) (hqueue : s₁.queue = c.shared.queue)
    (hpushed : s₁.pushed = c.shared.pushed) : Flow (c.set i s₁ l₁) := by
  rw [Flow, inFlight_set hc hc' hl, Config.set_shared, Shared.returned, hresults, hqueue, hpushed]
  exact h

theorem step (hc : sys.Reachable (init plat) c) (hc' : sys.Reachable (init plat) (c.set i s₁ l₁))
    (h : Flow c) (m : Move i c.shared (c.loc i) s₁ l₁) : Flow (c.set i s₁ l₁) := by
  cases m with
  | below b hb cv lcv hcv =>
    refine same hc hc' h rfl rfl (Condvar.step_inner hcv ?_) rfl
    rcases hb with ⟨rfl, -⟩ | rfl <;> rintro _ ⟨⟩
  | call b p hcall cv lcv hcv =>
    refine same hc hc' h ?_ rfl (Condvar.step_inner hcv hcall.not_access) rfl
    generalize (c.loc i).pc = q at hcall
    cases hcall <;> first | rfl | (rename Outcome T => r; cases r <;> rfl)
  | reads p hrest hreads =>
    refine same hc hc' h ?_ rfl rfl rfl
    rw [Local.goto_pc]
    generalize (c.loc i).pc = q at hreads
    cases hreads <;> rfl
  | push x hp cv lcv hcv =>
    obtain ⟨-, -, -, haccess⟩ := access_guarded hcv
    have hqueue : cv.mx.inner = c.shared.queue ++ [x.value] := congrArg Prod.snd haccess
    have hflight := inFlight_set hc hc' (by rw [hp]; rfl)
    rw [Flow, hflight, Config.set_shared, Shared.queue, hqueue, List.map_append, ← h]
    simp [Shared.returned]
  | pop y hp hg cv lcv hcv running hrun =>
    obtain ⟨-, -, -, haccess⟩ := access_guarded hcv
    have hreg : lcv.mx.reg = c.shared.queue.head? := congrArg Prod.fst haccess
    have hqueue : cv.mx.inner = c.shared.queue.tail := congrArg Prod.snd haccess
    have hrunning : c.shared.running = some i := by
      refine (runs hc i).2 ⟨y, by rw [hp]; rfl, not_suspended ?_ (.inr (by rw [hg]; rfl))⟩
      have hl := shape hc i
      rw [Local.Shape, hp] at hl
      rw [show (c.loc i).cv.pc = .ready from hl]
      rfl
    -- before the pop the running receive has nothing, so the flow is the queue
    have hnone : inFlight c = [] := by rw [inFlight_of_running hrunning, hp]; rfl
    cases hq : c.shared.queue with
    | nil =>
      simp only [hreg, hq, List.head?_nil] at hc' ⊢
      rw [hq] at hqueue
      exact same hc hc' h (by rw [hp]; rfl) rfl (hqueue.trans hq.symm) rfl
    | cons t q =>
      simp only [hreg, hq, List.head?_cons] at hc' ⊢
      rw [hq] at hqueue
      -- what is popped is in the hands of the running receive
      have hflight : inFlight (c.set i { c.shared with cv := cv, running := running }
          ⟨lcv, .recvDrop y (.ok t)⟩) = [t] := by
        rw [inFlight_of_running (running_of_holds (i := i) hc' (by simp [Pc.holds])), Config.set_loc_self]
        rfl
      rw [Flow, hnone, hq] at h
      rw [Flow, hflight, Config.set_shared, Shared.queue, hqueue]
      simpa [Shared.returned] using h
  | returnOk x hp | returnErr x hp => exact same hc hc' h (by rw [hp]; rfl) rfl rfl rfl
  | returnRecv y r hp hrest =>
    have hrunning : c.shared.running = some i :=
      (runs hc i).2 ⟨y, by rw [hp]; rfl, not_suspended_of_atRest hrest⟩
    rw [Flow, inFlight_of_running hrunning, hp] at h
    have hreturned : (returnRecv i y r c.shared).returned =
        c.shared.returned ++ (Pc.recvReturn y r).holds := by
      cases r <;> simp [returnRecv, Shared.returned, Outcome.ok?, Pc.holds]
    rw [Flow, Config.set_shared, hreturned, show inFlight (c.set i (returnRecv i y r c.shared)
      ((c.loc i).goto .ready)) = [] from rfl, List.append_nil]
    exact h
  | cancel cv lcv hcv =>
    -- a receive that is dropped is suspended, and has popped nothing
    have hholds : (c.loc i).pc.holds = [] := by
      by_contra hne
      have hsusp := (shape hc i).not_suspended_of_holds hne
      rw [suspended_of_cancel hcv] at hsusp
      cases hsusp
    obtain ⟨B, R, heq⟩ := dropFuture_eq i (c.loc i).pc { c.shared with cv := cv }
    rw [heq] at hc' ⊢
    exact same hc hc' h (by rw [hholds]; rfl) rfl (Condvar.step_inner hcv (by rintro _ ⟨⟩)) rfl
  | send how handle t hp | recv op hp | dropReceiver hp =>
    exact same hc hc' h (by rw [hp]; rfl) rfl rfl rfl
  | clone handle hp => exact same hc hc' h rfl rfl rfl rfl
  | dropSender handle hp =>
    refine same hc hc' h ?_ rfl rfl rfl
    rw [hp, Local.goto_pc]
    split <;> rfl

end Flow

theorem flow (h : sys.Reachable (init plat) c) : Flow c := by
  refine h.invariant (I := fun c => Flow c) rfl (fun c i a s l hc ih _ hs => ?_) ?_
  · exact ih.step hc (hc.agent trivial hs) (step_move hs)
  · intro c e s _ ih _ hs
    simp only [sys, Option.map_eq_some_iff] at hs
    obtain ⟨p, -, rfl⟩ := hs
    exact ih

/-! ### The sends -/

/-- The send has pushed its value. -/
def Pc.hasPushed : Pc T → Bool
  | .sendDrop _ | .sendNotify _ | .sendReturn _ => true
  | _ => false

/-- The send `x` at control point `p`. -/
structure InSend (s : Shared ι T) (p : Pc T) (x : Send T) : Prop where
  lt : x.ticket < s.tickets
  pushed : p.hasPushed = true → x ∈ s.pushed
  unpushed : p.hasPushed = false → ∀ z ∈ s.pushed, z.ticket ≠ x.ticket
  late : x.late = true → s.receiverActive = false ∧ (p = .sendLoad x ∨ p = .sendErr x)

/-- What has become of each send. -/
structure Tickets (c : Config ι (Shared ι T) (Local ι T)) : Prop where
  lt : ∀ z ∈ c.shared.pushed, z.ticket < c.shared.tickets
  nodup : (c.shared.pushed.map Send.ticket).Nodup
  send : ∀ i x, (c.loc i).pc.sends = some x → InSend c.shared (c.loc i).pc x
  unique : ∀ i j x y, (c.loc i).pc.sends = some x → (c.loc j).pc.sends = some y →
    x.ticket = y.ticket → i = j
  returned : ∀ z ∈ c.shared.sends, z.1.ticket < c.shared.tickets ∧
    ∀ i x, (c.loc i).pc.sends = some x → x.ticket ≠ z.1.ticket
  ok : ∀ x u, (x, .ok u) ∈ c.shared.sends → x ∈ c.shared.pushed ∧ x.late = false
  error : ∀ x t, (x, .error t) ∈ c.shared.sends →
    t = x.value ∧ ∀ z ∈ c.shared.pushed, z.ticket ≠ x.ticket

omit [DecidableEq ι] [DecidableEq T] in
theorem InSend.goto {p p₁ : Pc T} {x : Send T} (h : InSend s p x) (htickets : s₁.tickets = s.tickets)
    (hpushed : s₁.pushed = s.pushed)
    (hactive : s.receiverActive = false → s₁.receiverActive = false)
    (hp : p₁.hasPushed = p.hasPushed)
    (hlate : s.receiverActive = false → p = .sendLoad x ∨ p = .sendErr x →
      p₁ = .sendLoad x ∨ p₁ = .sendErr x) : InSend s₁ p₁ x where
  lt := by rw [htickets]; exact h.lt
  pushed := by rw [hp, hpushed]; exact h.pushed
  unpushed := by rw [hp, hpushed]; exact h.unpushed
  late hl := ⟨hactive (h.late hl).1, hlate (h.late hl).1 (h.late hl).2⟩

namespace Tickets

omit [DecidableEq T] in
/-- A step that starts no send, pushes nothing and returns from no send. -/
theorem same (h : Tickets c) (htickets : s₁.tickets = c.shared.tickets)
    (hpushed : s₁.pushed = c.shared.pushed) (hsends : s₁.sends = c.shared.sends)
    (hactive : c.shared.receiverActive = false → s₁.receiverActive = false)
    (hsend : ∀ x, l₁.pc.sends = some x → (c.loc i).pc.sends = some x ∧
      l₁.pc.hasPushed = (c.loc i).pc.hasPushed ∧
      (c.shared.receiverActive = false → (c.loc i).pc = .sendLoad x ∨ (c.loc i).pc = .sendErr x →
        l₁.pc = .sendLoad x ∨ l₁.pc = .sendErr x)) :
    Tickets (c.set i s₁ l₁) := by
  have hbefore : ∀ j x, ((c.set i s₁ l₁).loc j).pc.sends = some x →
      (c.loc j).pc.sends = some x := fun j x hx => by
    by_cases hji : j = i
    · subst hji; exact (hsend x (by simpa using hx)).1
    · rwa [Config.set_loc_of_ne hji] at hx
  refine ⟨?_, ?_, fun j x hx => ?_, fun j k x y hx hy => h.unique j k x y (hbefore j x hx)
    (hbefore k y hy), fun z hz => ?_, ?_, ?_⟩
  · simpa only [Config.set_shared, htickets, hpushed] using h.lt
  · simpa only [Config.set_shared, hpushed] using h.nodup
  · have hold := h.send j x (hbefore j x hx)
    by_cases hji : j = i
    · subst hji
      rw [Config.set_loc_self] at hx ⊢
      obtain ⟨-, hpush, hlate⟩ := hsend x hx
      exact hold.goto htickets hpushed hactive hpush hlate
    · rw [Config.set_loc_of_ne hji]
      exact hold.goto htickets hpushed hactive rfl fun _ hp => hp
  · rw [Config.set_shared, hsends] at hz
    obtain ⟨hlt, hne⟩ := h.returned z hz
    exact ⟨by rwa [Config.set_shared, htickets], fun j x hx => hne j x (hbefore j x hx)⟩
  · simpa only [Config.set_shared, hsends, hpushed] using h.ok
  · simpa only [Config.set_shared, hsends, hpushed] using h.error

omit [DecidableEq ι] [DecidableEq T] in
theorem ticket_ne (h : Tickets c) {x y : Send T} (hx : (c.loc i).pc.sends = some x) (hji : j ≠ i)
    (hy : (c.loc j).pc.sends = some y) : y.ticket ≠ x.ticket :=
  fun heq => hji (h.unique j i y x hy hx heq)

omit [DecidableEq T] in
/-- A value is pushed. -/
theorem push (h : Tickets c) {x : Send T} (hp : (c.loc i).pc = .sendPush x)
    {cv : Condvar.Shared ι (Option T) (List T)} {lcv : Condvar.Local ι (Option T)} :
    Tickets (c.set i { c.shared with cv := cv, pushed := c.shared.pushed ++ [x] }
      ⟨lcv, .sendDrop x⟩) := by
  have hx : (c.loc i).pc.sends = some x := by rw [hp]; rfl
  have hin := h.send i x hx
  have hnew := hin.unpushed (by rw [hp]; rfl)
  have hbefore : ∀ {j y}, ((c.set i { c.shared with cv := cv, pushed := c.shared.pushed ++ [x] }
      ⟨lcv, .sendDrop x⟩).loc j).pc.sends = some y → (c.loc j).pc.sends = some y :=
    fun {j y} hy => by
      by_cases hji : j = i
      · subst hji
        rw [Config.set_loc_self] at hy
        cases hy
        exact hx
      · rwa [Config.set_loc_of_ne hji] at hy
  have hmem : ∀ {z}, z ∈ c.shared.pushed ++ [x] → z ∈ c.shared.pushed ∨ z = x := by simp
  refine ⟨fun z hz => ?_, ?_, fun j y hy => ?_, fun j k y y' hy hy' =>
    h.unique j k y y' (hbefore hy) (hbefore hy'), fun z hz => ?_, fun y u hy => ?_, fun y t hy => ?_⟩
  · rcases hmem hz with hz | rfl
    · exact h.lt z hz
    · exact hin.lt
  · rw [Config.set_shared, List.map_append]
    refine List.nodup_append.2 ⟨h.nodup, by simp, fun k hk k' hk' => ?_⟩
    obtain ⟨z, hz, rfl⟩ := List.mem_map.1 hk
    rw [List.map_singleton, List.mem_singleton] at hk'
    rw [hk']
    exact hnew z hz
  · by_cases hji : j = i
    · subst hji
      rw [Config.set_loc_self] at hy ⊢
      cases hy
      refine ⟨hin.lt, fun _ => by simp, nofun, fun hl => ?_⟩
      rcases (hin.late hl).2 with hpc | hpc <;> rw [hp] at hpc <;> cases hpc
    · have hold := h.send j y (hbefore hy)
      rw [Config.set_loc_of_ne hji] at hy ⊢
      refine ⟨hold.lt, fun hpu => List.mem_append_left _ (hold.pushed hpu), fun hpu z hz => ?_,
        hold.late⟩
      rcases hmem hz with hz | rfl
      · exact hold.unpushed hpu z hz
      · exact (h.ticket_ne hx hji hy).symm
  · obtain ⟨hlt, hne⟩ := h.returned z hz
    exact ⟨hlt, fun j y hy => hne j y (hbefore hy)⟩
  · exact (h.ok y u hy).imp_left fun hy => List.mem_append_left _ hy
  · obtain ⟨ht, hne⟩ := h.error y t hy
    refine ⟨ht, fun z hz => ?_⟩
    rcases hmem hz with hz | rfl
    · exact hne z hz
    · exact (h.returned _ hy).2 i _ hx

omit [DecidableEq T] in
/-- A send returns. -/
theorem ends (h : Tickets c) {x : Send T} {r : Except T Unit} (hx : (c.loc i).pc.sends = some x)
    (hok : ∀ u, r = .ok u → x ∈ c.shared.pushed ∧ x.late = false)
    (herror : ∀ t, r = .error t → t = x.value ∧ ∀ z ∈ c.shared.pushed, z.ticket ≠ x.ticket) :
    Tickets (c.set i (returnSend i x r c.shared) ((c.loc i).goto .ready)) := by
  have hbefore : ∀ {j y}, ((c.set i (returnSend i x r c.shared)
      ((c.loc i).goto .ready)).loc j).pc.sends = some y → j ≠ i ∧ (c.loc j).pc.sends = some y :=
    fun {j y} hy => by
      by_cases hji : j = i
      · subst hji
        rw [Config.set_loc_self] at hy
        cases hy
      · rw [Config.set_loc_of_ne hji] at hy
        exact ⟨hji, hy⟩
  have hmem : ∀ {z}, z ∈ c.shared.sends ++ [(x, r)] → z ∈ c.shared.sends ∨ z = (x, r) := by simp
  refine ⟨h.lt, h.nodup, fun j y hy => ?_, fun j k y y' hy hy' =>
    h.unique j k y y' (hbefore hy).2 (hbefore hy').2, fun z hz => ?_, fun y u hy => ?_,
    fun y t hy => ?_⟩
  · obtain ⟨hji, hy⟩ := hbefore hy
    rw [Config.set_loc_of_ne hji]
    exact (h.send j y hy).goto rfl rfl id rfl fun _ hp => hp
  · rcases hmem hz with hz | rfl
    · exact ⟨(h.returned z hz).1, fun j y hy => (h.returned z hz).2 j y (hbefore hy).2⟩
    · exact ⟨(h.send i x hx).lt, fun j y hy => h.ticket_ne hx (hbefore hy).1 (hbefore hy).2⟩
  · rcases hmem hy with hy | heq
    · exact h.ok y u hy
    · cases heq
      exact hok u rfl
  · rcases hmem hy with hy | heq
    · exact h.error y t hy
    · cases heq
      exact herror t rfl

omit [DecidableEq T] in
/-- A send is called. -/
theorem call (h : Tickets c) {how : How} {handle : ℕ} {t : T} {B : ℕ → Finset ι}
    (hp : (c.loc i).pc = .ready) :
    Tickets (c.set i { c.shared with borrows := B, tickets := c.shared.tickets + 1 }
      ((c.loc i).goto (.sendLoad ⟨how, handle, t, c.shared.tickets, !c.shared.receiverActive⟩))) := by
  have hnew : ∀ z ∈ c.shared.pushed, z.ticket ≠ c.shared.tickets := fun z hz =>
    Nat.ne_of_lt (h.lt z hz)
  have hold : ∀ {j y}, j ≠ i → ((c.set i { c.shared with borrows := B, tickets := c.shared.tickets + 1 }
      ((c.loc i).goto (.sendLoad ⟨how, handle, t, c.shared.tickets,
        !c.shared.receiverActive⟩))).loc j).pc.sends = some y → (c.loc j).pc.sends = some y :=
    fun hji hy => by rwa [Config.set_loc_of_ne hji] at hy
  refine ⟨fun z hz => Nat.lt_succ_of_lt (h.lt z hz), h.nodup, fun j y hy => ?_,
    fun j k y y' hy hy' heq => ?_, fun z hz => ⟨Nat.lt_succ_of_lt (h.returned z hz).1,
    fun j y hy => ?_⟩, h.ok, h.error⟩
  · by_cases hji : j = i
    · subst hji
      rw [Config.set_loc_self] at hy ⊢
      cases hy
      exact ⟨Nat.lt_succ_self _, nofun, fun _ => hnew, fun hl => ⟨by simpa using hl, .inl rfl⟩⟩
    · have hin := h.send j y (hold hji hy)
      rw [Config.set_loc_of_ne hji]
      exact ⟨Nat.lt_succ_of_lt hin.lt, hin.pushed, hin.unpushed, hin.late⟩
  · have hlt : ∀ {j y}, j ≠ i → ((c.set i { c.shared with
        borrows := B, tickets := c.shared.tickets + 1 }
        ((c.loc i).goto (.sendLoad ⟨how, handle, t, c.shared.tickets,
          !c.shared.receiverActive⟩))).loc j).pc.sends = some y → y.ticket ≠ c.shared.tickets :=
      fun hji hy => Nat.ne_of_lt (h.send _ _ (hold hji hy)).lt
    by_cases hji : j = i <;> by_cases hki : k = i
    · rw [hji, hki]
    · subst hji
      rw [Config.set_loc_self] at hy
      cases hy
      exact absurd heq.symm (hlt hki hy')
    · subst hki
      rw [Config.set_loc_self] at hy'
      cases hy'
      exact absurd heq (hlt hji hy)
    · exact h.unique j k y y' (hold hji hy) (hold hki hy') heq
  · by_cases hji : j = i
    · subst hji
      rw [Config.set_loc_self] at hy
      cases hy
      exact (Nat.ne_of_lt (h.returned z hz).1).symm
    · exact (h.returned z hz).2 j y (hold hji hy)

theorem step (h : Tickets c) (m : Move i c.shared (c.loc i) s₁ l₁) : Tickets (c.set i s₁ l₁) := by
  cases m with
  | below => exact h.same rfl rfl rfl id fun x hx => ⟨hx, rfl, fun _ hp => hp⟩
  | call b p hcall =>
    refine h.same rfl rfl rfl id fun x hx => ⟨hcall.sends ▸ hx, ?_, fun _ hp => ?_⟩
    · generalize (c.loc i).pc = q at hcall
      cases hcall <;> rfl
    · generalize (c.loc i).pc = q at hcall hp
      rcases hp with rfl | rfl <;> cases hcall
  | reads p hrest hreads =>
    refine h.same rfl rfl rfl id fun x hx => ⟨hreads.sends ▸ hx, ?_, fun hgone hp => ?_⟩
    · generalize (c.loc i).pc = q at hreads
      cases hreads <;> rfl
    · generalize (c.loc i).pc = q at hreads hp
      rcases hp with rfl | rfl
      · cases hreads with
        | sendLoad _ hactive => rw [hgone] at hactive; cases hactive
        | sendLoadGone => exact .inr rfl
      · cases hreads
  | push x hp => exact h.push hp
  | pop y hp =>
    refine h.same rfl rfl rfl id fun x hx => ?_
    dsimp only at hx
    split at hx <;> cases hx
  | returnOk x hp =>
    have hin := h.send i x (by rw [hp]; rfl)
    refine h.ends (by rw [hp]; rfl) (fun u _ => ⟨hin.pushed (by rw [hp]; rfl), ?_⟩) nofun
    by_contra hl
    rcases (hin.late (by simpa using hl)).2 with hpc | hpc <;> rw [hp] at hpc <;> cases hpc
  | returnErr x hp =>
    have hin := h.send i x (by rw [hp]; rfl)
    refine h.ends (by rw [hp]; rfl) nofun fun t ht => ?_
    cases ht
    exact ⟨rfl, hin.unpushed (by rw [hp]; rfl)⟩
  | returnRecv | recv => exact h.same rfl rfl rfl id fun x hx => by cases hx
  | cancel cv lcv =>
    obtain ⟨B, R, heq⟩ := dropFuture_eq i (c.loc i).pc { c.shared with cv := cv }
    rw [heq]
    exact h.same rfl rfl rfl id fun x hx => by cases hx
  | send how handle t hp => exact h.call hp
  | clone => exact h.same rfl rfl rfl id fun x hx => ⟨hx, rfl, fun _ hp => hp⟩
  | dropSender handle hp =>
    refine h.same rfl rfl rfl id fun x hx => ?_
    rw [Local.goto_pc] at hx
    split at hx <;> cases hx
  | dropReceiver => exact h.same rfl rfl rfl (fun _ => rfl) fun x hx => by cases hx

end Tickets

theorem tickets (h : sys.Reachable (init plat) c) : Tickets c := by
  refine h.invariant ?_ (fun c i a s l hc ih _ hs => ih.step (step_move hs)) ?_
  · exact ⟨nofun, List.nodup_nil, nofun, nofun, nofun, nofun, nofun⟩
  · intro c e s _ ih _ hs
    simp only [sys, Option.map_eq_some_iff] at hs
    obtain ⟨p, -, rfl⟩ := hs
    exact ⟨ih.lt, ih.nodup, fun i x hx => (ih.send i x hx).goto rfl rfl id rfl fun _ hp => hp,
      ih.unique, ih.returned, ih.ok, ih.error⟩

/-! ### The order of the sends -/

theorem Move.pushed (m : Move i s l s₁ l₁) : s.pushed <+: s₁.pushed := by
  cases m with
  | push x => exact List.prefix_append _ _
  | cancel cv lcv =>
    obtain ⟨B, R, heq⟩ := dropFuture_eq i l.pc { s with cv := cv }
    rw [heq]
  | _ => exact List.prefix_rfl

theorem pushed_prefix (h : sys.Reachable c c') : c.shared.pushed <+: c'.shared.pushed := by
  refine h.invariant (I := fun d => c.shared.pushed <+: d.shared.pushed) List.prefix_rfl ?_ ?_
  · intro d i a s l _ ih _ hs
    exact ih.trans (step_move hs).pushed
  · intro d e s _ ih _ hs
    simp only [sys, Option.map_eq_some_iff] at hs
    obtain ⟨p, -, rfl⟩ := hs
    exact ih

theorem pushed_order (h : sys.Reachable (init plat) c) (h' : sys.Reachable c c') {x y : Send T}
    (hx : (x, .ok ()) ∈ c.shared.sends) (hy : y ∈ c'.shared.pushed)
    (hlater : c.shared.tickets ≤ y.ticket) : [x, y].Sublist c'.shared.pushed := by
  obtain ⟨rest, hrest⟩ := pushed_prefix h'
  have hxmem : x ∈ c.shared.pushed := ((tickets h).ok x () hx).1
  rw [← hrest] at hy ⊢
  have hymem : y ∈ rest := (List.mem_append.1 hy).resolve_left fun hmem =>
    absurd ((tickets h).lt y hmem) (Nat.not_lt.2 hlater)
  exact (List.singleton_sublist.2 hxmem).append (List.singleton_sublist.2 hymem)

/-- **First in, first out, without loss or duplication.**  In every reachable configuration the
values that the receives have returned, the value that a receive has popped and is about to
return, and the queue are the values pushed, in the order of the pushes, which happen with the
guard of the queue.  A send is pushed once, if it returns `Ok`; if it returns `Err`, it hands back
its own value and was not pushed.  A send that started after `Receiver::drop` had cleared
`receiver_active` returns `Err`.  A send that had returned `Ok` before another one started is
pushed before it. -/
theorem fifo (h : sys.Reachable (init plat) c) :
    c.shared.returned ++ inFlight c ++ c.shared.queue = c.shared.pushed.map Send.value ∧
    ((∀ i, (c.loc i).pc.holds = []) →
      c.shared.returned ++ c.shared.queue = c.shared.pushed.map Send.value) ∧
    (∀ i x, (c.loc i).pc = .sendPush x → (c.loc i).cv.mx.pc = .guard) ∧
    (c.shared.pushed.map Send.ticket).Nodup ∧
    (∀ x, (x, .ok ()) ∈ c.shared.sends → x ∈ c.shared.pushed) ∧
    (∀ x t, (x, .error t) ∈ c.shared.sends →
      t = x.value ∧ ∀ z ∈ c.shared.pushed, z.ticket ≠ x.ticket) ∧
    (∀ x r, (x, r) ∈ c.shared.sends → x.late = true → r = .error x.value) ∧
    ∀ c' x y, sys.Reachable c c' → (x, .ok ()) ∈ c.shared.sends → y ∈ c'.shared.pushed →
      c.shared.tickets ≤ y.ticket → [x, y].Sublist c'.shared.pushed := by
  have htickets := tickets h
  refine ⟨flow h, fun hnone => ?_, fun i x hp => ?_, htickets.nodup,
    fun x hx => (htickets.ok x () hx).1, htickets.error, fun x r hx hl => ?_,
    fun c' x y h' hx hy hlater => pushed_order h h' hx hy hlater⟩
  · have hnil : inFlight c = [] := by
      simp only [inFlight]
      split
      · exact hnone _
      · rfl
    have hflow := flow h
    rwa [Flow, hnil, List.append_nil] at hflow
  · have hl := shape h i
    rw [Local.Shape, hp] at hl
    exact hl.2
  · cases r with
    | ok u => rw [(htickets.ok x u hx).2] at hl; cases hl
    | error t => rw [(htickets.error x t hx).1]

/-- The labels of a `send_spin` that meets no contention and no waiting receiver. -/
def sendSpin (i : ι) (handle : ℕ) (t : T) : List (Label ι (Act T) (Event ι)) :=
  .agent i (.send .spin handle t) :: List.replicate 15 (.agent i .step)

/-- A run with two sends and a `try_recv` that has popped the first value. -/
theorem fifo_two_sends :
    ∃ c : Config Bool (Shared Bool ℕ) (Local Bool ℕ), sys.Reachable (init (.new .native)) c ∧
      c.shared.returned = [] ∧ inFlight c = [7] ∧ c.shared.queue = [8] ∧
      c.shared.returned ++ inFlight c ++ c.shared.queue = c.shared.pushed.map Send.value := by
  obtain ⟨c, hc, hend⟩ := System.exists_of_run (M := sys)
    (c := init (ι := Bool) (T := ℕ) (.new .native))
    (p := fun c => decide (c.shared.returned = [] ∧ inFlight c = [7] ∧ c.shared.queue = [8] ∧
      (c.loc false).pc = .ready))
    (sendSpin false 0 7 ++ sendSpin false 0 8 ++
      [.agent true (.recv .tryRecv), .agent true .step, .agent true .step, .agent true .step])
    (by decide)
  simp only [decide_eq_true_eq] at hend
  exact ⟨c, hc, hend.1, hend.2.1, hend.2.2.1, (fifo hc).1⟩

end Mpsc

end WasmSafeThread
