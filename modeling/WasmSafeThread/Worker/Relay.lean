import WasmSafeThread.Worker.Moves
import Mathlib.Data.List.Nodup

/-!
# Where the spawn requests go

* `Born` : what a context knows of itself.  In a browser every worker can relay from its first message
  on, and no root can, so workers forward and roots create.
* `Routed` : a request is in one place, in the hands of one context, in one relay message, or with one
  worker, and it carries the payload that the call of `spawn` has made.
* `Traced` : how the place belongs to the context that has called `spawn`.
* `Started` : a worker gets one message to start with, and consumes its closure once.
-/

namespace WasmSafeThread

namespace Worker

variable {ρ : Type*} {host : Host} {x : Ctx ρ} {a : Act} {s s₁ : Shared ρ} {l l₁ : Local}
  {isWorker : ρ → Bool}

/-! ### Contexts -/

theorem Phase.ne_unborn {φ : Phase} (h : φ.runs = true) : φ ≠ .unborn := by
  rintro rfl
  cases h

/-- What a context knows of itself, when there are `n` workers. -/
structure Aware (host : Host) (n : ℕ) (x : Ctx ρ) (l : Local) : Prop where
  root : ∀ y, x = .root y → l.canRelay = false
  worker : ∀ k, x = .worker k → l.isWorker = true
  born : ∀ k, x = .worker k → l.phase ≠ .unborn → k < n ∧ (host = .browser → l.canRelay = true)
  rest : ∀ k, x = .worker k → l.phase = .unborn → l.task = .rest
  forward : ∀ p ret, l.task = .forward p ret → host = .browser ∧ l.isWorker = true ∧ l.canRelay = true
  create : ∀ p ret, l.task = .create p ret → host = .browser → ¬(l.isWorker = true ∧ l.canRelay = true)

namespace Aware

variable {n : ℕ}

theorem mono {m : ℕ} (h : Aware host n x l) (hnm : n ≤ m) : Aware host m x l :=
  { h with
    born := fun k hx hphase => ⟨Nat.lt_of_lt_of_le (h.born k hx hphase).1 hnm, (h.born k hx hphase).2⟩ }

theorem setTask (h : Aware host n x l) (t : Task)
    (hbusy : t = .rest ∨ l.task ≠ .rest ∨ l.phase.runs = true)
    (hforward : ∀ p ret, t = .forward p ret →
      host = .browser ∧ l.isWorker = true ∧ l.canRelay = true)
    (hcreate : ∀ p ret, t = .create p ret → host = .browser →
      ¬(l.isWorker = true ∧ l.canRelay = true)) : Aware host n x { l with task := t } :=
  { h with
    rest := by
      intro k hx hphase
      rcases hbusy with ht | hne | hruns
      · exact ht
      · exact absurd (h.rest k hx hphase) hne
      · rw [show l.phase = .unborn from hphase] at hruns
        cases hruns
    forward := hforward
    create := hcreate }

theorem setTask_of_carries (h : Aware host n x l) {t : Task}
    (hbusy : t = .rest ∨ l.task ≠ .rest ∨ l.phase.runs = true)
    (ht : t.carries = none ∨ ∃ p, t = .initHandlers p) : Aware host n x { l with task := t } := by
  refine h.setTask t hbusy ?_ ?_ <;> rintro p ret rfl <;> rcases ht with ht | ⟨q, ht⟩ <;> cases ht

theorem setPlaceTask (h : Aware host n x l) (hbusy : l.task ≠ .rest ∨ l.phase.runs = true)
    (p p' : Payload) (ret : Option ℕ) :
    Aware host n x { l with task := placeTask host l p p' ret } := by
  refine h.setTask _ (.inr hbusy) ?_ ?_
  · intro q ret' ht
    unfold placeTask at ht
    split at ht
    · split at ht
      · rename_i hrelay
        exact ⟨rfl, Bool.and_eq_true_iff.1 hrelay⟩
      · cases ht
    · cases ht
  · rintro q ret' ht rfl hrelay
    simp [placeTask, hrelay.1, hrelay.2] at ht

theorem setPhase (h : Aware host n x l) (φ : Phase) (hrest : l.task = .rest)
    (hphase : l.phase ≠ .unborn) : Aware host n x { l with phase := φ } :=
  { h with
    born := fun k hx _ => h.born k hx hphase
    rest := fun _ _ _ => hrest }

theorem setCleanup (h : Aware host n x l) (b : Bool) : Aware host n x { l with cleanup := b } :=
  { h with }

/-- Every operation keeps what a context knows; `hinbox` is what its first message says. -/
theorem move (h : Aware host n x l) (hmove : Move host x s l a s₁ l₁)
    (hinbox : ∀ k m, m ∈ s.inbox k → k < n ∧ m.parentManaged = decide (host = .browser)) :
    Aware host n x l₁ := by
  cases hmove with
  | spawn name shimUrl hrest hruns =>
    exact h.setTask_of_carries (.inr (.inr hruns)) (.inr ⟨_, rfl⟩)
  | initHandlers p htask =>
    exact (h.setPlaceTask (.inl (by rw [htask]; nofun)) p p (some p.exitStatePtr)).setCleanup _
  | forward p ret htask | create p ret htask | decrement ptr ret htask | cleanup ptr ret htask
  | freeBox ptr htask => exact h.setTask_of_carries (.inl rfl) (.inl rfl)
  | throws p ret htask | signal src ptr code ret htask | decrementLast ptr ret htask =>
    exact h.setTask_of_carries (.inr (.inl (by rw [htask]; nofun))) (.inl rfl)
  | relay k w p rest hw hmsg hrest hruns hparent => exact h.setPlaceTask (.inr hruns) _ _ _
  | ended k w m code rest hw hmsg hm hrest hruns hparent
  | onerror k w hhost hw hrest hruns hparent =>
    exact h.setTask_of_carries (.inr (.inr hruns)) (.inl rfl)
  | logged k hhost hrest | load r hrest hhandle | uncaught k hx hrest => exact h
  | dropHandle r hrest hruns hhandle =>
    refine h.setTask_of_carries (.inr (.inr hruns)) ?_
    split
    · exact .inl rfl
    · exact .inl rfl
  | start k m rest hx hrest hphase hmsg =>
    obtain ⟨hk, hm⟩ := hinbox k m (by rw [hmsg]; exact List.mem_cons_self)
    refine ⟨fun y hy => ?_, h.worker, fun j hj _ => ?_, fun _ _ _ => hrest, fun p ret ht => ?_,
      fun p ret ht => ?_⟩
    · rw [hx] at hy
      cases hy
    · rw [hx] at hj
      cases hj
      refine ⟨hk, fun hhost => ?_⟩
      simp [hm, hhost]
    · rw [hrest] at ht
      cases ht
    · rw [hrest] at ht
      cases ht
  | enter k work hx hrest hphase => exact h.setPhase _ hrest (by rw [hphase]; nofun)
  | fail k hx hrest hphase hhost | die k hx hrest hphase hhost =>
    refine h.setPhase _ hrest ?_
    rcases hphase with ⟨work, hphase⟩ | hphase
    · rw [hphase]
      nofun
    · rw [hphase]
      nofun
  | exit k hx hrest hphase => exact h.setPhase _ hrest (by rw [hphase]; nofun)

end Aware

/-- What every context knows, and what the first messages say. -/
structure Born (host : Host) (c : Config (Ctx ρ) (Shared ρ) Local) : Prop where
  aware : ∀ x, Aware host c.shared.workers.length x (c.loc x)
  inbox : ∀ k m, m ∈ c.shared.inbox k →
    k < c.shared.workers.length ∧ m.parentManaged = decide (host = .browser)

theorem RouteMove.workers (h : RouteMove x s l s₁ l₁) :
    s₁.workers = s.workers ∨ ∃ w, s₁.workers = s.workers ++ [w] := by
  cases h with
  | quiet _ hworkers => exact .inl hworkers
  | spawn _ _ _ _ _ hworkers => exact .inl hworkers
  | post _ _ _ _ _ _ hworkers => exact .inl hworkers
  | lost _ _ _ _ _ _ hworkers => exact .inl hworkers
  | create _ _ _ _ hworkers => exact .inr ⟨_, hworkers⟩
  | relay _ _ _ _ _ _ _ _ _ hworkers => exact .inl hworkers

theorem RouteMove.length_le (h : RouteMove x s l s₁ l₁) : s.workers.length ≤ s₁.workers.length := by
  rcases h.workers with hw | ⟨w, hw⟩
  · exact Nat.le_of_eq (by rw [hw])
  · rw [hw, List.length_append]
    omega

theorem RouteMove.getElem? (h : RouteMove x s l s₁ l₁) {k : ℕ} {w : Created ρ}
    (hw : s.workers[k]? = some w) : s₁.workers[k]? = some w := by
  obtain ⟨hk, -⟩ := List.getElem?_eq_some_iff.1 hw
  rcases h.workers with heq | ⟨w', heq⟩
  · rw [heq, hw]
  · rw [heq, List.getElem?_append_left hk, hw]

/-- A first message is new only for a new worker. -/
theorem Move.inbox (h : Move host x s l a s₁ l₁) {k : ℕ} {m : StartMsg} (hm : m ∈ s₁.inbox k) :
    m ∈ s.inbox k ∨ k < s₁.workers.length ∧ m.parentManaged = decide (host = .browser) := by
  cases h with
  | create p ret htask =>
    simp only [Shared.finish_inbox, Shared.finish_workers, Worker.create] at hm ⊢
    by_cases hk : k = s.workers.length
    · subst hk
      rw [Function.update_self, List.mem_append, List.mem_singleton] at hm
      rcases hm with hm | rfl
      · exact .inl hm
      · refine .inr ⟨?_, rfl⟩
        rw [List.length_append, List.length_singleton]
        omega
    · rw [Function.update_of_ne hk] at hm
      exact .inl hm
  | start j m' rest hx hrest hphase hmsg =>
    left
    by_cases hk : k = j
    · subst hk
      simp only [Function.update_self] at hm
      rw [hmsg]
      exact List.mem_cons_of_mem _ hm
    · simpa [hk] using hm
  | forward p ret htask =>
    left
    cases x <;> simpa [Worker.forward, Shared.setPlace, Shared.post] using hm
  | _ => left; simpa [Worker.spawn, Shared.setExit, Shared.setPlace, Shared.takeFinal,
      Shared.takeError, Shared.post, Shared.raise] using hm

variable {c : Config (Ctx ρ) (Shared ρ) Local}

theorem Born.step [DecidableEq ρ] (h : Born host c) (hs : step host x a c.shared (c.loc x) = some (s₁, l₁)) :
    Born host (c.set x s₁ l₁) := by
  have hmove := step_move hs
  have hle := hmove.route.length_le
  refine ⟨fun y => ?_, fun k m hm => ?_⟩
  · by_cases hy : y = x
    · subst hy
      rw [Config.set_loc_self]
      exact ((h.aware y).move hmove h.inbox).mono hle
    · rw [Config.set_loc_of_ne hy]
      exact (h.aware y).mono hle
  · rcases hmove.inbox hm with hold | hnew
    · obtain ⟨hk, hp⟩ := h.inbox k m hold
      exact ⟨Nat.lt_of_lt_of_le hk hle, hp⟩
    · exact hnew

theorem born [DecidableEq ρ] (h : (sys host).Reachable (init isWorker) c) : Born host c := by
  refine h.invariant ⟨fun x => ?_, fun _ _ => nofun⟩ (fun c x a s l _ ih _ hs => ih.step hs)
    fun c e => nomatch e
  cases x with
  | root y => exact ⟨fun _ _ => rfl, nofun, nofun, nofun, nofun, nofun⟩
  | worker k => exact ⟨nofun, fun _ _ => rfl, fun _ _ hne => absurd rfl hne, fun _ _ _ => rfl, nofun, nofun⟩

theorem Born.root_of_create (h : Born .browser c) {p : Payload} {ret : Option ℕ}
    (htask : (c.loc x).task = .create p ret) : ∃ y, x = .root y := by
  cases x with
  | root y => exact ⟨y, rfl⟩
  | worker k =>
    have hphase : (c.loc (.worker k)).phase ≠ .unborn := by
      intro hphase
      rw [(h.aware _).rest k rfl hphase] at htask
      cases htask
    exact absurd ⟨(h.aware _).worker k rfl, ((h.aware _).born k rfl hphase).2 rfl⟩
      ((h.aware _).create p ret htask rfl)

theorem Born.worker_of_forward (h : Born host c) {p : Payload} {ret : Option ℕ}
    (htask : (c.loc x).task = .forward p ret) : ∃ k, x = .worker k := by
  cases x with
  | root y =>
    have hrelay := ((h.aware _).forward p ret htask).2.2
    rw [(h.aware _).root y rfl] at hrelay
    cases hrelay
  | worker k => exact ⟨k, rfl⟩

/-! ### Requests -/

theorem getElem?_concat {α : Type*} {xs : List α} {y z : α} {k : ℕ} :
    (xs ++ [y])[k]? = some z ↔ xs[k]? = some z ∨ z = y ∧ k = xs.length := by
  rcases Nat.lt_trichotomy k xs.length with hk | rfl | hk
  · rw [List.getElem?_append_left hk]
    exact ⟨.inl, fun hz => hz.resolve_right fun hz => absurd hz.2 (Nat.ne_of_lt hk)⟩
  · simp [eq_comm]
  · rw [List.getElem?_eq_none (by rw [List.length_append, List.length_singleton]; omega),
      List.getElem?_eq_none (by omega)]
    exact ⟨nofun, fun hz => by rcases hz with ⟨⟨⟩⟩ | ⟨-, hz⟩; omega⟩

namespace Shared

/-- The payload of a request, as the call of `spawn` has made it. -/
def Known (s : Shared ρ) (p : Payload) : Prop :=
  ∃ q, s.requests[p.exitStatePtr]? = some q ∧ q.payload = p

end Shared

/-- A request is in one place, with the payload that `spawn` has made. -/
structure Routed (c : Config (Ctx ρ) (Shared ρ) Local) : Prop where
  request : ∀ r (q : Request ρ), c.shared.requests[r]? = some q →
    q.payload = .new r q.payload.name q.payload.shimUrl
  held : ∀ x p, (c.loc x).task.carries = some p →
    c.shared.place p.exitStatePtr = .held x ∧ c.shared.Known p
  posted : ∀ k p, p ∈ relays (c.shared.outbox k) →
    c.shared.place p.exitStatePtr = .posted k ∧ c.shared.Known p
  once : ∀ k, (relays (c.shared.outbox k)).Nodup
  created : ∀ k w, c.shared.workers[k]? = some w →
    c.shared.place w.payload.exitStatePtr = .created k ∧ c.shared.Known w.payload
  holder : ∀ r x, c.shared.place r = .held x →
    ∃ p, (c.loc x).task.carries = some p ∧ p.exitStatePtr = r
  poster : ∀ r k, c.shared.place r = .posted k →
    ∃ p, p ∈ relays (c.shared.outbox k) ∧ p.exitStatePtr = r
  worker : ∀ r k, c.shared.place r = .created k →
    ∃ w, c.shared.workers[k]? = some w ∧ w.payload.exitStatePtr = r
  unused : ∀ r, c.shared.requests.length ≤ r → c.shared.place r = .outside

namespace Shared

variable {p : Payload}

theorem Known.lt (h : s.Known p) : p.exitStatePtr < s.requests.length := by
  obtain ⟨q, hq, -⟩ := h
  exact (List.getElem?_eq_some_iff.1 hq).1

theorem Known.append (h : s.Known p) (hreq : ∃ qs, s₁.requests = s.requests ++ qs) : s₁.Known p := by
  obtain ⟨qs, hqs⟩ := hreq
  have hlt := h.lt
  obtain ⟨q, hq, hp⟩ := h
  exact ⟨q, by rw [hqs, List.getElem?_append_left hlt, hq], hp⟩

theorem Known.eq {p' : Payload} (h : s.Known p) (h' : s.Known p')
    (hptr : p.exitStatePtr = p'.exitStatePtr) : p = p' := by
  obtain ⟨q, hq, rfl⟩ := h
  obtain ⟨q', hq', rfl⟩ := h'
  rw [hptr, hq'] at hq
  cases hq
  rfl

end Shared

namespace Routed

theorem known_new (h : Routed c) {p : Payload} (hp : c.shared.Known p) :
    p = .new p.exitStatePtr p.name p.shimUrl := by
  obtain ⟨q, hq, rfl⟩ := hp
  exact h.request _ q hq

theorem rebuilt_eq (h : Routed c) {p p' : Payload} (hp : c.shared.Known p) (hp' : c.shared.Known p') :
    { p with entryName := p'.entryName } = p := by
  have hname : p.entryName = p'.entryName := by
    rw [h.known_new hp, h.known_new hp']
    rfl
  rw [← hname]

/-- What a context that does not move holds stays where it is if the place of another request
changes. -/
theorem place_update {place : ℕ → Place ρ} {r r' : ℕ} {y z : Place ρ} (h : place r = y)
    (hne : place r' ≠ y) : Function.update place r' z r = y := by
  rw [Function.update_of_ne, h]
  rintro rfl
  exact hne h

/-- The frame of a step that moves no request. -/
theorem quiet [DecidableEq ρ] (h : Routed c) (hplace : s₁.place = c.shared.place)
    (hworkers : s₁.workers = c.shared.workers) (hrequests : s₁.requests = c.shared.requests)
    (hcarries : l₁.task.carries = (c.loc x).task.carries)
    (hrelays : ∀ k, relays (s₁.outbox k) = relays (c.shared.outbox k)) :
    Routed (c.set x s₁ l₁) := by
  have hknown : ∀ p, s₁.Known p ↔ c.shared.Known p := fun p => by rw [Shared.Known, hrequests]; rfl
  have hloc : ∀ y, ((c.set x s₁ l₁).loc y).task.carries = (c.loc y).task.carries :=
    Config.set_loc_congr (f := fun l : Local => l.task.carries) hcarries
  refine ⟨?_, fun y p hp => ?_, fun k p hp => ?_, fun k => ?_, fun k w hw => ?_, fun r y hy => ?_,
    fun r k hk => ?_, fun r k hk => ?_, ?_⟩ <;> simp only [Config.set_shared] at *
  · rw [hrequests]
    exact h.request
  · rw [hloc] at hp
    rw [hplace, hknown]
    exact h.held y p hp
  · rw [hrelays] at hp
    rw [hplace, hknown]
    exact h.posted k p hp
  · rw [hrelays]
    exact h.once k
  · rw [hworkers] at hw
    rw [hplace, hknown]
    exact h.created k w hw
  · rw [hplace] at hy
    rw [hloc]
    exact h.holder r y hy
  · rw [hplace] at hk
    rw [hrelays]
    exact h.poster r k hk
  · rw [hplace] at hk
    rw [hworkers]
    exact h.worker r k hk
  · rw [hrequests, hplace]
    exact h.unused

/-- A request leaves the hands of context `x` for a place `y`. -/
theorem leave [DecidableEq ρ] (h : Routed c) {p : Payload} {y : Place ρ}
    (hcarry : (c.loc x).task.carries = some p) (hy : ∀ z, y ≠ .held z)
    (hplace : s₁.place = Function.update c.shared.place p.exitStatePtr y)
    (hrequests : s₁.requests = c.shared.requests) (hcarries : l₁.task.carries = none)
    (hmem : ∀ k p', p' ∈ relays (s₁.outbox k) ↔
      p' ∈ relays (c.shared.outbox k) ∨ p' = p ∧ y = .posted k)
    (honce : ∀ k, (relays (s₁.outbox k)).Nodup)
    (hworkers : ∀ k w, s₁.workers[k]? = some w ↔
      c.shared.workers[k]? = some w ∨ w = ⟨x, p⟩ ∧ y = .created k) :
    Routed (c.set x s₁ l₁) := by
  obtain ⟨hpx, hp⟩ := h.held x p hcarry
  have hknown : ∀ p, s₁.Known p ↔ c.shared.Known p := fun p => by rw [Shared.Known, hrequests]; rfl
  have hself : s₁.place p.exitStatePtr = y := by rw [hplace, Function.update_self]
  have hother : ∀ r, r ≠ p.exitStatePtr → s₁.place r = c.shared.place r := by
    intro r hr
    rw [hplace, Function.update_of_ne hr]
  refine ⟨?_, fun z p' hp' => ?_, fun k p' hp' => ?_, honce, fun k w hw => ?_, fun r z hz => ?_,
    fun r k hk => ?_, fun r k hk => ?_, fun r hr => ?_⟩ <;> simp only [Config.set_shared] at *
  · rw [hrequests]
    exact h.request
  · -- the others keep what they hold, since `x` held this one
    have hz : z ≠ x := by
      rintro rfl
      rw [Config.set_loc_self, hcarries] at hp'
      cases hp'
    rw [Config.set_loc_of_ne hz] at hp'
    obtain ⟨hpz, hk⟩ := h.held z p' hp'
    rw [hknown, hplace]
    refine ⟨place_update hpz ?_, hk⟩
    rw [hpx]
    rintro ⟨⟩
    exact hz rfl
  · rcases (hmem k p').1 hp' with hold | ⟨rfl, rfl⟩
    · obtain ⟨hpk, hk⟩ := h.posted k p' hold
      rw [hknown, hplace]
      refine ⟨place_update hpk ?_, hk⟩
      rw [hpx]
      nofun
    · exact ⟨hself, (hknown _).2 hp⟩
  · rcases (hworkers k w).1 hw with hold | ⟨rfl, rfl⟩
    · obtain ⟨hpk, hk⟩ := h.created k w hold
      rw [hknown, hplace]
      refine ⟨place_update hpk ?_, hk⟩
      rw [hpx]
      nofun
    · exact ⟨hself, (hknown _).2 hp⟩
  · have hr : r ≠ p.exitStatePtr := by
      rintro rfl
      exact hy z (hself.symm.trans hz)
    rw [hother r hr] at hz
    obtain ⟨p', hp', rfl⟩ := h.holder r z hz
    have hzx : z ≠ x := by
      rintro rfl
      rw [hcarry] at hp'
      cases hp'
      exact hr rfl
    exact ⟨p', by rw [Config.set_loc_of_ne hzx, hp'], rfl⟩
  · by_cases hr : r = p.exitStatePtr
    · subst hr
      exact ⟨p, (hmem k p).2 (.inr ⟨rfl, hself.symm.trans hk⟩), rfl⟩
    · rw [hother r hr] at hk
      obtain ⟨p', hp', rfl⟩ := h.poster r k hk
      exact ⟨p', (hmem k p').2 (.inl hp'), rfl⟩
  · by_cases hr : r = p.exitStatePtr
    · subst hr
      exact ⟨⟨x, p⟩, (hworkers k _).2 (.inr ⟨rfl, hself.symm.trans hk⟩), rfl⟩
    · rw [hother r hr] at hk
      obtain ⟨w, hw, rfl⟩ := h.worker r k hk
      exact ⟨w, (hworkers k w).2 (.inl hw), rfl⟩
  · rw [hrequests] at hr
    rw [hother r (by have := hp.lt; omega)]
    exact h.unused r hr

/-- A request comes into the hands of context `x`. -/
theorem arrive [DecidableEq ρ] (h : Routed c) {p : Payload} (hcarry : (c.loc x).task.carries = none)
    (hfree : ∀ z, c.shared.place p.exitStatePtr ≠ .held z)
    (hnew : ∀ k, c.shared.place p.exitStatePtr ≠ .created k)
    (hplace : s₁.place = Function.update c.shared.place p.exitStatePtr (.held x))
    (hworkers : s₁.workers = c.shared.workers)
    (hrequests : ∃ qs, s₁.requests = c.shared.requests ++ qs)
    (hrequest : ∀ r (q : Request ρ), s₁.requests[r]? = some q →
      q.payload = .new r q.payload.name q.payload.shimUrl)
    (hp : s₁.Known p) (hcarries : l₁.task.carries = some p)
    (hmem : ∀ k p', p' ∈ relays (s₁.outbox k) ↔
      p' ∈ relays (c.shared.outbox k) ∧ p'.exitStatePtr ≠ p.exitStatePtr)
    (honce : ∀ k, (relays (s₁.outbox k)).Nodup) : Routed (c.set x s₁ l₁) := by
  have hself : s₁.place p.exitStatePtr = .held x := by rw [hplace, Function.update_self]
  have hother : ∀ r, r ≠ p.exitStatePtr → s₁.place r = c.shared.place r := by
    intro r hr
    rw [hplace, Function.update_of_ne hr]
  refine ⟨hrequest, fun z p' hp' => ?_, fun k p' hp' => ?_, honce, fun k w hw => ?_,
    fun r z hz => ?_, fun r k hk => ?_, fun r k hk => ?_, fun r hr => ?_⟩ <;>
    simp only [Config.set_shared] at *
  · by_cases hz : z = x
    · subst hz
      rw [Config.set_loc_self, hcarries] at hp'
      cases hp'
      exact ⟨hself, hp⟩
    · rw [Config.set_loc_of_ne hz] at hp'
      obtain ⟨hpz, hk⟩ := h.held z p' hp'
      rw [hplace]
      exact ⟨place_update hpz (hfree z), hk.append hrequests⟩
  · obtain ⟨hold, hne⟩ := (hmem k p').1 hp'
    obtain ⟨hpk, hk⟩ := h.posted k p' hold
    rw [hother _ hne]
    exact ⟨hpk, hk.append hrequests⟩
  · rw [hworkers] at hw
    obtain ⟨hpk, hk⟩ := h.created k w hw
    rw [hplace]
    exact ⟨place_update hpk (hnew k), hk.append hrequests⟩
  · by_cases hr : r = p.exitStatePtr
    · subst hr
      rw [hself] at hz
      cases hz
      exact ⟨p, by rw [Config.set_loc_self, hcarries], rfl⟩
    · rw [hother r hr] at hz
      obtain ⟨p', hp', rfl⟩ := h.holder r z hz
      have hzx : z ≠ x := by
        rintro rfl
        rw [hcarry] at hp'
        cases hp'
      exact ⟨p', by rw [Config.set_loc_of_ne hzx, hp'], rfl⟩
  · have hr : r ≠ p.exitStatePtr := by
      rintro rfl
      rw [hself] at hk
      cases hk
    rw [hother r hr] at hk
    obtain ⟨p', hp', rfl⟩ := h.poster r k hk
    exact ⟨p', (hmem k p').2 ⟨hp', hr⟩, rfl⟩
  · have hr : r ≠ p.exitStatePtr := by
      rintro rfl
      rw [hself] at hk
      cases hk
    rw [hother r hr] at hk
    rw [hworkers]
    exact h.worker r k hk
  · obtain ⟨qs, hqs⟩ := hrequests
    have hlt := hp.lt
    rw [hother r (by omega)]
    refine h.unused r ?_
    rw [hqs, List.length_append] at hr
    omega

/-- Every operation of every context keeps each request in one place. -/
theorem step [DecidableEq ρ] (h : Routed c) (hmove : RouteMove x c.shared (c.loc x) s₁ l₁) :
    Routed (c.set x s₁ l₁) := by
  cases hmove with
  | quiet hplace hworkers hrequests hcarries hrelays =>
    exact h.quiet hplace hworkers hrequests hcarries hrelays
  | spawn name shimUrl hruns hnone hplace hworkers hrequests hcarries hrelays =>
    have hunused := h.unused c.shared.requests.length (Nat.le_refl _)
    have hnew : s₁.requests[c.shared.requests.length]? =
        some ⟨x, .new c.shared.requests.length name shimUrl⟩ := by
      rw [hrequests, getElem?_concat]
      exact .inr ⟨rfl, rfl⟩
    refine h.arrive (p := .new c.shared.requests.length name shimUrl) hnone ?_ ?_ hplace hworkers
      ⟨_, hrequests⟩ (fun r q hq => ?_) ⟨_, hnew, rfl⟩
      hcarries (fun k p' => ?_) fun k => ?_
    · rw [show (Payload.new c.shared.requests.length name shimUrl).exitStatePtr =
        c.shared.requests.length from rfl, hunused]
      nofun
    · rw [show (Payload.new c.shared.requests.length name shimUrl).exitStatePtr =
        c.shared.requests.length from rfl, hunused]
      nofun
    · rw [hrequests, getElem?_concat] at hq
      rcases hq with hq | ⟨rfl, rfl⟩
      · exact h.request r q hq
      · rfl
    · rw [hrelays k]
      refine ⟨fun hp' => ⟨hp', ?_⟩, fun hp' => hp'.1⟩
      exact Nat.ne_of_lt (h.posted k p' hp').2.lt
    · rw [hrelays k]
      exact h.once k
  | post k p ret hx htask hplace hworkers hrequests hcarries hrelays =>
    have hcarry : (c.loc x).task.carries = some p := by rw [htask]; rfl
    have hpx := (h.held x p hcarry).1
    refine h.leave (y := .posted k) hcarry nofun hplace hrequests hcarries (fun j p' => ?_) (fun j => ?_)
      fun j w => ?_
    · rw [hrelays j]
      by_cases hj : j = k
      · subst hj
        simp
      · simp [hj, Ne.symm hj]
    · rw [hrelays j]
      by_cases hj : j = k
      · subst hj
        rw [if_pos rfl]
        -- it is not there twice: what is in a message is not in the hands of `x`
        refine List.Nodup.append (h.once j) (List.nodup_singleton p) fun p' hp' hp => ?_
        rw [List.mem_singleton] at hp
        subst hp
        rw [(h.posted j p' hp').1] at hpx
        cases hpx
      · rw [if_neg hj, List.append_nil]
        exact h.once j
    · rw [hworkers]
      simp
  | lost y p ret hy htask hplace hworkers hrequests hcarries hrelays =>
    have hcarry : (c.loc x).task.carries = some p := by rw [htask]; rfl
    have hplaces : (∀ z, y ≠ .held z) ∧ (∀ k, y ≠ .posted k) ∧ ∀ k, y ≠ .created k := by
      rcases hy with rfl | ⟨rfl, -⟩
      · exact ⟨nofun, nofun, nofun⟩
      · exact ⟨nofun, nofun, nofun⟩
    refine h.leave hcarry hplaces.1 hplace hrequests hcarries (fun k p' => ?_) (fun k => ?_)
      fun k w => ?_
    · simp [hrelays k, hplaces.2.1]
    · rw [hrelays k]
      exact h.once k
    · simp [hworkers, hplaces.2.2]
  | create p ret htask hplace hworkers hrequests hcarries hrelays =>
    have hcarry : (c.loc x).task.carries = some p := by rw [htask]; rfl
    refine h.leave (y := .created _) hcarry nofun hplace hrequests hcarries (fun k p' => ?_) (fun k => ?_)
      fun k w => ?_
    · simp [hrelays k]
    · rw [hrelays k]
      exact h.once k
    · rw [hworkers, getElem?_concat]
      simp [eq_comm]
  | relay k w p p' hw hparent hnone hp' hplace hworkers hrequests hcarries hhead hrelays =>
    have hmem : p ∈ relays (c.shared.outbox k) := by rw [hhead]; exact List.mem_cons_self
    obtain ⟨hpk, hp⟩ := h.posted k p hmem
    have heq : p' = p := by
      rcases hp' with rfl | rfl
      · rfl
      · exact h.rebuilt_eq hp (h.created k w hw).2
    subst heq
    have honce := h.once k
    rw [hhead, List.nodup_cons] at honce
    refine h.arrive hnone ?_ ?_ hplace hworkers ⟨[], by rw [hrequests, List.append_nil]⟩ ?_
      (hp.append ⟨[], by rw [hrequests, List.append_nil]⟩) hcarries (fun j p₁ => ?_) fun j => ?_
    · rw [hpk]
      nofun
    · rw [hpk]
      nofun
    · rw [hrequests]
      exact h.request
    · by_cases hj : j = k
      · subst hj
        rw [hhead, List.mem_cons]
        constructor
        · intro hp₁
          refine ⟨.inr hp₁, fun hptr => ?_⟩
          have hk₁ := (h.posted j p₁ (by rw [hhead]; exact List.mem_cons_of_mem _ hp₁)).2
          rw [hk₁.eq hp hptr] at hp₁
          exact honce.1 hp₁
        · rintro ⟨rfl | hp₁, hne⟩
          · exact absurd rfl hne
          · exact hp₁
      · rw [hrelays j hj]
        refine ⟨fun hp₁ => ⟨hp₁, fun hptr => ?_⟩, fun hp₁ => hp₁.1⟩
        -- a message of another worker is not of this request, which is with worker `k`
        have hpj := (h.posted j p₁ hp₁).1
        rw [hptr, hpk] at hpj
        cases hpj
        exact hj rfl
    · by_cases hj : j = k
      · subst hj
        exact honce.2
      · rw [hrelays j hj]
        exact h.once j

end Routed

theorem routed [DecidableEq ρ] (h : (sys host).Reachable (init isWorker) c) : Routed c := by
  refine h.invariant ?_ (fun c x a s l _ ih _ hs => ih.step (step_move hs).route) fun c e => nomatch e
  refine ⟨nofun, fun x p hp => ?_, nofun, fun _ => List.nodup_nil, nofun, nofun, nofun, nofun,
    fun _ _ => rfl⟩
  cases x <;> cases hp

/-! ### Whose requests they are -/

/-- The root of the tree of spawns that a context belongs to, in a browser: its parent, if it is a
worker. -/
def Shared.rootOf (s : Shared ρ) : Ctx ρ → Ctx ρ
  | .root y => .root y
  | .worker k =>
    match s.workers[k]? with
    | some w => w.parent
    | none => .worker k

/-- In a browser a request is with its caller or with the root of its caller. -/
structure Traced (c : Config (Ctx ρ) (Shared ρ) Local) : Prop where
  parent : ∀ (k : ℕ) (w : Created ρ), c.shared.workers[k]? = some w → ∃ y, w.parent = .root y
  caller : ∀ (r : ℕ) (q : Request ρ) (k : ℕ), c.shared.requests[r]? = some q → q.ctx = .worker k →
    k < c.shared.workers.length
  held : ∀ (r : ℕ) (q : Request ρ) (x : Ctx ρ), c.shared.requests[r]? = some q → c.shared.place r = .held x →
    x = q.ctx ∨ x = c.shared.rootOf q.ctx
  posted : ∀ (r : ℕ) (q : Request ρ) (k : ℕ), c.shared.requests[r]? = some q → c.shared.place r = .posted k →
    q.ctx = .worker k
  created : ∀ (r : ℕ) (q : Request ρ) (k : ℕ) (w : Created ρ), c.shared.requests[r]? = some q →
    c.shared.place r = .created k → c.shared.workers[k]? = some w →
    w.parent = c.shared.rootOf q.ctx
  inside : ∀ (r : ℕ) (q : Request ρ), c.shared.requests[r]? = some q → c.shared.place r ≠ .outside

namespace Traced

theorem exists_root (h : Traced c) {r : ℕ} {q : Request ρ} (hq : c.shared.requests[r]? = some q) :
    ∃ y, c.shared.rootOf q.ctx = .root y := by
  cases hx : q.ctx with
  | root y => exact ⟨y, rfl⟩
  | worker k =>
    have hw := List.getElem?_eq_getElem (h.caller r q k hq hx)
    simp only [Shared.rootOf, hw]
    exact h.parent k _ hw

theorem rootOf_eq (h : Traced c) (hmove : RouteMove x c.shared l s₁ l₁) {r : ℕ} {q : Request ρ}
    (hq : c.shared.requests[r]? = some q) : s₁.rootOf q.ctx = c.shared.rootOf q.ctx := by
  cases hx : q.ctx with
  | root y => rfl
  | worker k =>
    have hw := List.getElem?_eq_getElem (h.caller r q k hq hx)
    simp only [Shared.rootOf, hw, hmove.getElem? hw]

/-- A request with number `r` goes to a place `y`, and the other ones stay. -/
theorem setPlace [DecidableEq ρ] (h : Traced c) (hR : Routed c)
    (hmove : RouteMove x c.shared (c.loc x) s₁ l₁) (hrequests : s₁.requests = c.shared.requests)
    {r : ℕ} {y : Place ρ} (hplace : s₁.place = Function.update c.shared.place r y)
    (hparent : ∀ (k : ℕ) (w : Created ρ), s₁.workers[k]? = some w → ∃ y, w.parent = .root y)
    (hheld : ∀ (q : Request ρ) z, c.shared.requests[r]? = some q → y = .held z →
      z = q.ctx ∨ z = c.shared.rootOf q.ctx)
    (hposted : ∀ (q : Request ρ) k, c.shared.requests[r]? = some q → y = .posted k → q.ctx = .worker k)
    (hcreated : ∀ (q : Request ρ) (k : ℕ) (w : Created ρ), c.shared.requests[r]? = some q → y = .created k →
      s₁.workers[k]? = some w → w.parent = c.shared.rootOf q.ctx)
    (hinside : y ≠ .outside) : Traced (c.set x s₁ l₁) := by
  have hself : s₁.place r = y := by rw [hplace, Function.update_self]
  have hother : ∀ r', r' ≠ r → s₁.place r' = c.shared.place r' := by
    intro r' hr
    rw [hplace, Function.update_of_ne hr]
  refine ⟨hparent, fun r' q k hq hx => ?_, fun r' q z hq hz => ?_, fun r' q k hq hk => ?_,
    fun r' q k w hq hk hw => ?_, fun r' q hq hout => ?_⟩ <;>
    simp only [Config.set_shared, hrequests] at *
  · exact Nat.lt_of_lt_of_le (h.caller r' q k hq hx) hmove.length_le
  · rw [h.rootOf_eq hmove hq]
    by_cases hr : r' = r
    · subst hr
      exact hheld q z hq (hself.symm.trans hz)
    · rw [hother r' hr] at hz
      exact h.held r' q z hq hz
  · by_cases hr : r' = r
    · subst hr
      exact hposted q k hq (hself.symm.trans hk)
    · rw [hother r' hr] at hk
      exact h.posted r' q k hq hk
  · rw [h.rootOf_eq hmove hq]
    by_cases hr : r' = r
    · subst hr
      exact hcreated q k w hq (hself.symm.trans hk) hw
    · rw [hother r' hr] at hk
      obtain ⟨w', hw', -⟩ := hR.worker r' k hk
      rw [hmove.getElem? hw'] at hw
      cases hw
      exact h.created r' q k _ hq hk hw'
  · by_cases hr : r' = r
    · subst hr
      exact hinside (hself.symm.trans hout)
    · rw [hother r' hr] at hout
      exact h.inside r' q hq hout

theorem step [DecidableEq ρ] (h : Traced c) (hB : Born .browser c) (hR : Routed c)
    (hmove : RouteMove x c.shared (c.loc x) s₁ l₁) : Traced (c.set x s₁ l₁) := by
  have hmove' := hmove
  cases hmove with
  | quiet hplace hworkers hrequests hcarries hrelays =>
    have hroot : s₁.rootOf = c.shared.rootOf := by
      funext y
      cases y <;> simp only [Shared.rootOf, hworkers]
    refine ⟨?_, ?_, ?_, ?_, ?_, ?_⟩ <;>
      simp only [Config.set_shared, hplace, hworkers, hrequests, hroot]
    · exact h.parent
    · exact h.caller
    · exact h.held
    · exact h.posted
    · exact h.created
    · exact h.inside
  | spawn name shimUrl hruns hnone hplace hworkers hrequests hcarries hrelays =>
    have hroot : s₁.rootOf = c.shared.rootOf := by
      funext y
      cases y <;> simp only [Shared.rootOf, hworkers]
    have hold : ∀ r (q : Request ρ), s₁.requests[r]? = some q →
        (c.shared.requests[r]? = some q ∧ s₁.place r = c.shared.place r) ∨
          q.ctx = x ∧ s₁.place r = .held x := by
      intro r q hq
      rw [hrequests, getElem?_concat] at hq
      rcases hq with hq | ⟨rfl, rfl⟩
      · have hr := (List.getElem?_eq_some_iff.1 hq).1
        exact .inl ⟨hq, by rw [hplace, Function.update_of_ne (Nat.ne_of_lt hr)]⟩
      · exact .inr ⟨rfl, by rw [hplace, Function.update_self]⟩
    refine ⟨by simpa only [Config.set_shared, hworkers] using h.parent, fun r q k hq hx => ?_,
      fun r q z hq hz => ?_, fun r q k hq hk => ?_, fun r q k w hq hk hw => ?_, fun r q hq => ?_⟩ <;>
      simp only [Config.set_shared] at * <;> rcases hold r q hq with ⟨hq', hp⟩ | ⟨hctx, hp⟩
    · rw [hworkers]
      exact h.caller r q k hq' hx
    · rw [hworkers]
      rw [hctx] at hx
      exact ((hB.aware x).born k hx (Phase.ne_unborn hruns)).1
    · rw [hroot]
      exact h.held r q z hq' (hp.symm.trans hz)
    · rw [hp] at hz
      cases hz
      exact .inl hctx.symm
    · exact h.posted r q k hq' (hp.symm.trans hk)
    · rw [hp] at hk
      cases hk
    · rw [hroot]
      rw [hworkers] at hw
      exact h.created r q k w hq' (hp.symm.trans hk) hw
    · rw [hp] at hk
      cases hk
    · rw [hp]
      exact h.inside r q hq'
    · rw [hp]
      nofun
  | post k p ret hx htask hplace hworkers hrequests hcarries hrelays =>
    have hpx := (hR.held x p (by rw [htask]; rfl)).1
    refine h.setPlace hR hmove' hrequests hplace (by rw [hworkers]; exact h.parent)
      (fun q z hq hz => nomatch hz) (fun q j hq hj => ?_) (fun q j w hq hj => nomatch hj) nofun
    -- the worker that posts it is the caller, since the root of the caller is a root
    cases hj
    rcases h.held _ q x hq hpx with hctx | hctx
    · rw [← hctx, hx]
    · obtain ⟨y, hy⟩ := h.exists_root hq
      rw [hy, hx] at hctx
      cases hctx
  | lost y p ret hy htask hplace hworkers hrequests hcarries hrelays =>
    obtain rfl : y = .thrown := by
      rcases hy with rfl | ⟨-, z, hz⟩
      · rfl
      · obtain ⟨k, hk⟩ := hB.worker_of_forward htask
        rw [hk] at hz
        cases hz
    exact h.setPlace hR hmove' hrequests hplace (by rw [hworkers]; exact h.parent)
      (fun q z hq hz => nomatch hz) (fun q k hq hk => nomatch hk)
      (fun q k w hq hk => nomatch hk) nofun
  | create p ret htask hplace hworkers hrequests hcarries hrelays =>
    have hpx := (hR.held x p (by rw [htask]; rfl)).1
    obtain ⟨y, hx⟩ := hB.root_of_create htask
    refine h.setPlace hR hmove' hrequests hplace (fun k w hw => ?_) (fun q z hq hz => nomatch hz)
      (fun q k hq hk => nomatch hk) (fun q k w hq hk hw => ?_) nofun <;>
      rw [hworkers, getElem?_concat] at hw <;> rcases hw with hw | ⟨rfl, rfl⟩
    · exact h.parent k w hw
    · exact ⟨y, hx⟩
    · cases hk
      exact absurd (List.getElem?_eq_some_iff.1 hw).1 (Nat.lt_irrefl _)
    · rcases h.held _ q x hq hpx with hctx | hctx
      · show x = c.shared.rootOf q.ctx
        rw [← hctx, hx]
        rfl
      · exact hctx
  | relay k w p p' hw hparent hnone hp' hplace hworkers hrequests hcarries hhead hrelays =>
    have hpk := (hR.posted k p (by rw [hhead]; exact List.mem_cons_self)).1
    refine h.setPlace hR hmove' hrequests hplace (by rw [hworkers]; exact h.parent)
      (fun q z hq hz => ?_) (fun q j hq hj => nomatch hj) (fun q j w hq hj => nomatch hj) nofun
    cases hz
    right
    rw [h.posted _ q k hq hpk]
    simp only [Shared.rootOf, hw, hparent]

end Traced

theorem traced [DecidableEq ρ] (h : (sys .browser).Reachable (init isWorker) c) : Traced c := by
  refine h.invariant ⟨nofun, nofun, nofun, nofun, nofun, nofun⟩ ?_ fun c e => nomatch e
  intro c x a s l hc ih _ hs
  exact ih.step (born hc) (routed hc) (step_move hs).route

end Worker

end WasmSafeThread
