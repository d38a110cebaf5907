import Mathlib.Algebra.Group.Nat.Defs
import WasmSafeThread.Worker.ExactlyOnce
import WasmSafeThread.Worker.Context

/-!
# Which thread a context is

`Thread`s are compared by their identifiers, which come from a counter that wraps.

* `ThreadMove` : what a step does to the threads.
* `Named` : the invariant; a thread belongs to one context, and the thread of a request to its worker.
* `identified` : **`current()` tells the contexts apart**, and in the closure of a spawn it is the thread of
  the `JoinHandle`, as long as the counter has not wrapped.
-/

namespace WasmSafeThread

namespace Worker

/-- The closure of the worker has not been called. -/
def Phase.early : Phase → Bool
  | .unborn | .importing _ => true
  | _ => false

theorem Move.early {ρ : Type*} {host : Host} {x : Ctx ρ} {a : Act} {s s₁ : Shared ρ} {l l₁ : Local}
    (h : Move host x s l a s₁ l₁) (ha : a ≠ .enter) :
    (l₁.phase.early = true → l.phase.early = true) ∧ (l₁.phase = .entered → l.phase = .entered) := by
  cases h with
  | enter => exact absurd rfl ha
  | start _ _ _ _ _ hphase => exact ⟨fun _ => by rw [hphase]; rfl, by rintro ⟨⟩⟩
  | fail | die | exit => exact ⟨by rintro ⟨⟩, by rintro ⟨⟩⟩
  | _ => exact ⟨id, id⟩

theorem Move.requests_eq {ρ : Type*} {host : Host} {x : Ctx ρ} {a : Act} {s s₁ : Shared ρ} {l l₁ : Local}
    (h : Move host x s l a s₁ l₁) (ha : ∀ name shimUrl, a ≠ .spawn name shimUrl) :
    s₁.requests = s.requests := by
  cases h with
  | spawn name shimUrl => exact absurd rfl (ha name shimUrl)
  | forward p => rw [Shared.finish_requests, forward_requests]
  | create | decrement | cleanup => rw [Shared.finish_requests]; rfl
  | _ => rfl

namespace Context

variable {ρ : Type*}

/-- `PartialEq` of `Thread`. -/
def Shared.sameId (s : Shared ρ) (t t' : ℕ) : Prop :=
  ∃ a b, s.threads[t]? = some a ∧ s.threads[t']? = some b ∧ a.id = b.id

variable [DecidableEq ρ] {S : Setup ρ} {x : Ctx ρ} {a : Act} {s s₁ : Shared ρ} {l l₁ : Local}
  {c c' : Config (Ctx ρ) (Shared ρ) Local}

/-! ### What a step does to the threads -/

/-- What an operation does to the threads, and to what they are the threads of. -/
inductive ThreadMove (x : Ctx ρ) (s : Shared ρ) (l : Local) (s₁ : Shared ρ) (l₁ : Local) : Prop where
  /-- Nothing. -/
  | quiet (hthreads : s₁.threads = s.threads) (hcounter : s₁.counter = s.counter)
      (hthread : s₁.thread = s.thread) (hcurrent : l₁.current = l.current)
      (hrequests : s₁.base.requests = s.base.requests)
      (hearly : l₁.base.phase.early = true → l.base.phase.early = true)
      (hentered : l₁.base.phase = .entered → l.base.phase = .entered)
  /-- A thread for a new request. -/
  | spawn (name : Option String) (hthreads : s₁.threads = s.threads ++ [⟨name, s.counter⟩])
      (hcounter : s₁.counter = s.counter + 1)
      (hthread : s₁.thread = Function.update s.thread s.base.requests.length (some s.threads.length))
      (hcurrent : l₁.current = l.current)
      (hrequests : s₁.base.requests.length = s.base.requests.length + 1)
      (hphase : l₁.base.phase = l.base.phase)
  /-- A worker calls its closure. -/
  | enter (k work : ℕ) (hx : x = .worker k) (hthreads : s₁.threads = s.threads)
      (hcounter : s₁.counter = s.counter) (hthread : s₁.thread = s.thread)
      (hcurrent : l₁.current = s.thread work) (hrequests : s₁.base.requests = s.base.requests)
      (hphase : l.base.phase = .importing work) (hphase₁ : l₁.base.phase = .entered)
  /-- A thread for a context that has none. -/
  | create (name : Option String) (hthreads : s₁.threads = s.threads ++ [⟨name, s.counter⟩])
      (hcounter : s₁.counter = s.counter + 1) (hthread : s₁.thread = s.thread)
      (hnone : l.current = none) (hcurrent : l₁.current = some s.threads.length)
      (hbase : s₁.base = s.base) (hlocal : l₁.base = l.base) (hruns : l.base.phase.runs = true)

theorem ThreadMove.of_step {b : Worker.Act} {t : Worker.Shared ρ} {tl : Worker.Local}
    (hs : Worker.step S.host x b s.base l.base = some (t, tl)) (henter : b ≠ .enter)
    (hspawn : ∀ name shimUrl, b ≠ .spawn name shimUrl) (hthreads : s₁.threads = s.threads)
    (hcounter : s₁.counter = s.counter) (hthread : s₁.thread = s.thread)
    (hcurrent : l₁.current = l.current) (hbase : s₁.base = t) (hlocal : l₁.base = tl) :
    ThreadMove x s l s₁ l₁ := by
  have hmove := Worker.step_move hs
  subst hbase hlocal
  exact .quiet hthreads hcounter hthread hcurrent (hmove.requests_eq hspawn) (hmove.early henter).1
    (hmove.early henter).2

theorem Move.thread (h : Move S x s l a s₁ l₁) : ThreadMove x s l s₁ l₁ := by
  cases h with
  | base b hcall hplain t tl hs =>
    refine .of_step hs ?_ ?_ rfl rfl rfl rfl rfl rfl
    · rintro rfl
      cases hplain
    · rintro _ _ rfl
      cases hplain
  | drain hcall hphase hpending hhost t tl hs =>
    exact .of_step hs (by rintro ⟨⟩) (by rintro _ _ ⟨⟩) rfl rfl rfl rfl rfl rfl
  | exit hcall hclosing t tl hs =>
    exact .of_step hs (by rintro ⟨⟩) (by rintro _ _ ⟨⟩) rfl rfl rfl rfl rfl rfl
  | dropHandle r hcall howner t tl hs =>
    exact .of_step hs (by rintro ⟨⟩) (by rintro _ _ ⟨⟩) rfl rfl rfl rfl rfl rfl
  | spawn name shimUrl hcall t tl hs =>
    have hmove := Worker.step_move hs
    cases hmove with
    | spawn _ _ hrest hruns =>
      exact .spawn name rfl rfl rfl rfl (by simp [Worker.spawn]) rfl
  | enter work hcall hphase t tl hs =>
    have hmove := Worker.step_move hs
    cases hmove with
    | enter k work' hx hrest hphase' => exact .enter k work hx rfl rfl rfl rfl rfl hphase rfl
  | create hcall hfree hnone => exact .create _ rfl rfl rfl hnone rfl rfl rfl hfree.2
  | taskBegin hcall hfree =>
    unfold Local.taskBegin
    split <;> exact .quiet rfl rfl rfl rfl rfl id id
  | taskFinished hcall hfree =>
    unfold Local.taskFinished
    split <;> exact .quiet rfl rfl rfl rfl rfl id id
  | _ => exact .quiet rfl rfl rfl rfl rfl id id

/-! ### The invariant -/

/-- A thread belongs to one context, and the thread of a request to the worker that calls its closure. -/
structure Named (c : Config (Ctx ρ) (Shared ρ) Local) : Prop where
  counter : c.shared.counter = BitVec.ofNat 64 c.shared.threads.length
  ids : ∀ (t : ℕ) (a : ThreadInner), c.shared.threads[t]? = some a → a.id = BitVec.ofNat 64 t
  request : ∀ r, r < c.shared.base.requests.length → ∃ t, c.shared.thread r = some t
  thread : ∀ r t, c.shared.thread r = some t →
    r < c.shared.base.requests.length ∧ t < c.shared.threads.length
  distinct : ∀ r r' t, c.shared.thread r = some t → c.shared.thread r' = some t → r = r'
  current : ∀ x t, (c.loc x).current = some t → t < c.shared.threads.length
  unique : ∀ x y t, (c.loc x).current = some t → (c.loc y).current = some t → x = y
  lent : ∀ x r t, (c.loc x).current = some t → c.shared.thread r = some t →
    ∃ (k : ℕ) (w : Created ρ), x = .worker k ∧ c.shared.base.workers[k]? = some w ∧ w.payload.work = r
  early : ∀ x, (c.loc x).base.phase.early = true → (c.loc x).current = none
  entered : ∀ k, (c.loc (.worker k)).base.phase = .entered → ∃ (w : Created ρ) (t : ℕ),
    c.shared.base.workers[k]? = some w ∧ (c.loc (.worker k)).current = some t ∧
      c.shared.thread w.payload.work = some t

namespace Named

omit [DecidableEq ρ]

variable {w : Created ρ} {k : ℕ}

theorem ids_concat (h : Named c) {name : Option String} {t : ℕ} {a : ThreadInner}
    (ha : (c.shared.threads ++ [⟨name, c.shared.counter⟩])[t]? = some a) : a.id = BitVec.ofNat 64 t := by
  rw [getElem?_concat] at ha
  rcases ha with ha | ⟨rfl, rfl⟩
  · exact h.ids t a ha
  · exact h.counter

theorem counter_concat (h : Named c) (a : ThreadInner) :
    c.shared.counter + 1 = BitVec.ofNat 64 (c.shared.threads ++ [a]).length := by
  rw [h.counter, List.length_append, List.length_singleton, BitVec.ofNat_add]
  rfl

variable [DecidableEq ρ]

theorem current_set (hcurrent : l₁.current = (c.loc x).current) (y : Ctx ρ) :
    ((c.set x s₁ l₁).loc y).current = (c.loc y).current :=
  Config.set_loc_congr (f := fun l : Local => l.current) hcurrent y

theorem quiet (h : Named c)
    (hworkers : ∀ (k : ℕ) (w : Created ρ), c.shared.base.workers[k]? = some w →
      s₁.base.workers[k]? = some w)
    (hthreads : s₁.threads = c.shared.threads) (hcounter : s₁.counter = c.shared.counter)
    (hthread : s₁.thread = c.shared.thread) (hcurrent : l₁.current = (c.loc x).current)
    (hrequests : s₁.base.requests = c.shared.base.requests)
    (hearly : l₁.base.phase.early = true → (c.loc x).base.phase.early = true)
    (hentered : l₁.base.phase = .entered → (c.loc x).base.phase = .entered) :
    Named (c.set x s₁ l₁) := by
  have hcurrent : ∀ y, ((c.set x s₁ l₁).loc y).current = (c.loc y).current := current_set hcurrent
  refine ⟨?_, ?_, ?_, ?_, ?_, ?_, ?_, ?_, fun y hy => ?_, fun k hk => ?_⟩ <;>
    simp only [Config.set_shared, hcurrent, hthreads, hcounter, hthread, hrequests]
  · exact h.counter
  · exact h.ids
  · exact h.request
  · exact h.thread
  · exact h.distinct
  · exact h.current
  · exact h.unique
  · intro y r t hy hr
    obtain ⟨k, w, hx, hw, hwork⟩ := h.lent y r t hy hr
    exact ⟨k, w, hx, hworkers k w hw, hwork⟩
  · refine h.early y ?_
    by_cases hyx : y = x
    · subst hyx
      rw [Config.set_loc_self] at hy
      exact hearly hy
    · rwa [Config.set_loc_of_ne hyx] at hy
  · obtain ⟨w, t, hw, hwork⟩ := h.entered k <| by
      by_cases hkx : Ctx.worker k = x
      · subst hkx
        rw [Config.set_loc_self] at hk
        exact hentered hk
      · rwa [Config.set_loc_of_ne hkx] at hk
    exact ⟨w, t, hworkers k w hw, hwork⟩

/-- A spawn. -/
theorem spawn (h : Named c)
    (hworkers : ∀ (k : ℕ) (w : Created ρ), c.shared.base.workers[k]? = some w →
      s₁.base.workers[k]? = some w)
    {name : Option String} (hthreads : s₁.threads = c.shared.threads ++ [⟨name, c.shared.counter⟩])
    (hcounter : s₁.counter = c.shared.counter + 1)
    (hthread : s₁.thread = Function.update c.shared.thread c.shared.base.requests.length
      (some c.shared.threads.length))
    (hcurrent : l₁.current = (c.loc x).current)
    (hrequests : s₁.base.requests.length = c.shared.base.requests.length + 1)
    (hphase : l₁.base.phase = (c.loc x).base.phase) : Named (c.set x s₁ l₁) := by
  have hcurrent : ∀ y, ((c.set x s₁ l₁).loc y).current = (c.loc y).current := current_set hcurrent
  have hphase : ∀ y, ((c.set x s₁ l₁).loc y).base.phase = (c.loc y).base.phase :=
    Config.set_loc_congr (f := fun l : Local => l.base.phase) hphase
  have hof : ∀ r t, s₁.thread r = some t → c.shared.thread r = some t ∨
      r = c.shared.base.requests.length ∧ t = c.shared.threads.length := fun r t hr => by
    by_cases hrn : r = c.shared.base.requests.length
    · rw [hthread, hrn, Function.update_self] at hr
      cases hr
      exact .inr ⟨hrn, rfl⟩
    · rw [hthread, Function.update_of_ne hrn] at hr
      exact .inl hr
  have hkeep : ∀ r, r < c.shared.base.requests.length → s₁.thread r = c.shared.thread r := fun r hr => by
    rw [hthread, Function.update_of_ne (by omega)]
  have hlength : s₁.threads.length = c.shared.threads.length + 1 := by
    rw [hthreads, List.length_append, List.length_singleton]
  refine ⟨?_, ?_, fun r (hr : r < s₁.base.requests.length) => ?_, fun r t (hr : s₁.thread r = some t) => ?_,
    fun r r' t (hr : s₁.thread r = some t) (hr' : s₁.thread r' = some t) => ?_, fun y t hy => ?_,
    by simpa only [hcurrent] using h.unique, fun y r t hy (hr : s₁.thread r = some t) => ?_,
    by simpa only [hcurrent, hphase] using h.early, fun k hk => ?_⟩
  · rw [Config.set_shared, hcounter, hthreads]
    exact h.counter_concat _
  · rw [Config.set_shared, hthreads]
    exact fun t a ha => h.ids_concat ha
  · by_cases hrn : r = c.shared.base.requests.length
    · exact ⟨_, by rw [Config.set_shared, hthread, hrn, Function.update_self]⟩
    · obtain ⟨t, ht⟩ := h.request r (by omega)
      exact ⟨t, by rw [Config.set_shared, hkeep r (by omega), ht]⟩
  · rw [Config.set_shared, hlength, hrequests]
    rcases hof r t hr with hr | ⟨rfl, rfl⟩
    · have := h.thread r t hr
      omega
    · omega
  · rcases hof r t hr with hr | ⟨rfl, ht⟩ <;> rcases hof r' t hr' with hr' | ⟨rfl, ht'⟩
    · exact h.distinct r r' t hr hr'
    · have := (h.thread r t hr).2
      omega
    · have := (h.thread r' t hr').2
      omega
    · rfl
  · rw [hcurrent] at hy
    rw [Config.set_shared, hlength]
    exact Nat.lt_succ_of_lt (h.current y t hy)
  · rw [hcurrent] at hy
    rcases hof r t hr with hr | ⟨-, rfl⟩
    · obtain ⟨k, w, hx, hw, hwork⟩ := h.lent y r t hy hr
      exact ⟨k, w, hx, hworkers k w hw, hwork⟩
    · exact absurd (h.current y _ hy) (Nat.lt_irrefl _)
  · rw [hphase] at hk
    obtain ⟨w, t, hw, hcur, hwork⟩ := h.entered k hk
    refine ⟨w, t, hworkers k w hw, by rw [hcurrent, hcur], ?_⟩
    rw [Config.set_shared, hkeep _ (h.thread _ t hwork).1, hwork]

/-- A worker calls its closure. -/
theorem enter (h : Named c) (hR : Routed ((toWorker S).config c)) {k work : ℕ}
    (hw : c.shared.base.workers[k]? = some w) (hwork : w.payload.work = work)
    (hworkers : ∀ (k : ℕ) (w : Created ρ), c.shared.base.workers[k]? = some w →
      s₁.base.workers[k]? = some w)
    (hthreads : s₁.threads = c.shared.threads) (hcounter : s₁.counter = c.shared.counter)
    (hthread : s₁.thread = c.shared.thread) (hcurrent : l₁.current = c.shared.thread work)
    (hrequests : s₁.base.requests = c.shared.base.requests)
    (hphase₁ : l₁.base.phase = .entered) : Named (c.set (.worker k) s₁ l₁) := by
  have hloc : ∀ y, y ≠ .worker k → (c.set (.worker k) s₁ l₁).loc y = c.loc y :=
    fun y hy => Config.set_loc_of_ne hy
  -- the thread of the request is that of this worker, and of no other context
  have hlent : ∀ y t, c.shared.thread work = some t → (c.loc y).current = some t → y = .worker k :=
    fun y t ht hy => by
      obtain ⟨j, w', rfl, hw', hj⟩ := h.lent y work t hy ht
      rw [hR.work_inj hw' hw (hj.trans hwork.symm)]
  refine ⟨by simpa only [Config.set_shared, hthreads, hcounter] using h.counter,
    by simpa only [Config.set_shared, hthreads] using h.ids,
    by simpa only [Config.set_shared, hthread, hrequests] using h.request,
    by simpa only [Config.set_shared, hthread, hrequests, hthreads] using h.thread,
    by simpa only [Config.set_shared, hthread] using h.distinct, fun y t hy => ?_, fun y z t hy hz => ?_,
    fun y r t hy (hr : s₁.thread r = some t) => ?_, fun y hy => ?_, fun j hj => ?_⟩
  · rw [Config.set_shared, hthreads]
    by_cases hyk : y = .worker k
    · rw [hyk, Config.set_loc_self, hcurrent] at hy
      exact (h.thread work t hy).2
    · rw [hloc y hyk] at hy
      exact h.current y t hy
  · by_cases hyk : y = .worker k <;> by_cases hzk : z = .worker k
    · rw [hyk, hzk]
    · rw [hyk, Config.set_loc_self, hcurrent] at hy
      rw [hloc z hzk] at hz
      exact absurd (hlent z t hy hz) hzk
    · rw [hzk, Config.set_loc_self, hcurrent] at hz
      rw [hloc y hyk] at hy
      exact absurd (hlent y t hz hy) hyk
    · rw [hloc y hyk] at hy
      rw [hloc z hzk] at hz
      exact h.unique y z t hy hz
  · rw [hthread] at hr
    by_cases hyk : y = .worker k
    · rw [hyk, Config.set_loc_self, hcurrent] at hy
      exact ⟨k, w, hyk, hworkers k w hw, hwork.trans (h.distinct work r t hy hr)⟩
    · rw [hloc y hyk] at hy
      obtain ⟨j, w', hx, hw', hj⟩ := h.lent y r t hy hr
      exact ⟨j, w', hx, hworkers j w' hw', hj⟩
  · by_cases hyk : y = .worker k
    · rw [hyk, Config.set_loc_self, hphase₁] at hy
      cases hy
    · rw [hloc y hyk] at hy ⊢
      exact h.early y hy
  · by_cases hjk : j = k
    · have hknown := (hR.created k w hw).2
      obtain ⟨t, ht⟩ := h.request work <| by
        rw [← hwork, hR.known_new hknown]
        exact hknown.lt
      rw [hjk, Config.set_loc_self, hcurrent]
      exact ⟨w, t, hworkers k w hw, ht, by rw [Config.set_shared, hthread, hwork, ht]⟩
    · have hne : Ctx.worker j ≠ (.worker k : Ctx ρ) := by
        rintro ⟨⟩
        exact hjk rfl
      rw [hloc _ hne] at hj ⊢
      obtain ⟨w', t, hw', hcur⟩ := h.entered j hj
      refine ⟨w', t, hworkers j w' hw', hcur.1, ?_⟩
      rw [Config.set_shared, hthread]
      exact hcur.2

/-- A context that has no thread gets a new one. -/
theorem create (h : Named c) {name : Option String}
    (hthreads : s₁.threads = c.shared.threads ++ [⟨name, c.shared.counter⟩])
    (hcounter : s₁.counter = c.shared.counter + 1) (hthread : s₁.thread = c.shared.thread)
    (hnone : (c.loc x).current = none) (hcurrent : l₁.current = some c.shared.threads.length)
    (hbase : s₁.base = c.shared.base) (hlocal : l₁.base = (c.loc x).base)
    (hruns : (c.loc x).base.phase.runs = true) : Named (c.set x s₁ l₁) := by
  have hloc : ∀ y, y ≠ x → (c.set x s₁ l₁).loc y = c.loc y := fun y hy => Config.set_loc_of_ne hy
  have hphase : ∀ y, ((c.set x s₁ l₁).loc y).base = (c.loc y).base :=
    Config.set_loc_congr (f := fun l : Local => l.base) hlocal
  have hlength : s₁.threads.length = c.shared.threads.length + 1 := by
    rw [hthreads, List.length_append, List.length_singleton]
  have hold : ∀ y, y ≠ x → ((c.set x s₁ l₁).loc y).current ≠ some c.shared.threads.length := fun y hy hcur => by
    rw [hloc y hy] at hcur
    exact absurd (h.current y _ hcur) (Nat.lt_irrefl _)
  refine ⟨?_, ?_, by simpa only [Config.set_shared, hthread, hbase] using h.request,
    fun r t (hr : s₁.thread r = some t) => ?_, by simpa only [Config.set_shared, hthread] using h.distinct,
    fun y t hy => ?_, fun y z t hy hz => ?_, fun y r t hy (hr : s₁.thread r = some t) => ?_,
    fun y hy => ?_, fun k hk => ?_⟩
  · rw [Config.set_shared, hcounter, hthreads]
    exact h.counter_concat _
  · rw [Config.set_shared, hthreads]
    exact fun t a ha => h.ids_concat ha
  · rw [hthread] at hr
    rw [Config.set_shared, hbase, hlength]
    have := h.thread r t hr
    omega
  · rw [Config.set_shared, hlength]
    by_cases hyx : y = x
    · rw [hyx, Config.set_loc_self, hcurrent] at hy
      cases hy
      omega
    · rw [hloc y hyx] at hy
      have := h.current y t hy
      omega
  · by_cases hyx : y = x <;> by_cases hzx : z = x
    · rw [hyx, hzx]
    · rw [hyx, Config.set_loc_self, hcurrent] at hy
      cases hy
      exact absurd hz (hold z hzx)
    · rw [hzx, Config.set_loc_self, hcurrent] at hz
      cases hz
      exact absurd hy (hold y hyx)
    · rw [hloc y hyx] at hy
      rw [hloc z hzx] at hz
      exact h.unique y z t hy hz
  · rw [hthread] at hr
    by_cases hyx : y = x
    · rw [hyx, Config.set_loc_self, hcurrent] at hy
      cases hy
      exact absurd (h.thread r _ hr).2 (Nat.lt_irrefl _)
    · rw [hloc y hyx] at hy
      rw [Config.set_shared, hbase]
      exact h.lent y r t hy hr
  · rw [hphase] at hy
    by_cases hyx : y = x
    · rw [hyx] at hy
      cases hp : (c.loc x).base.phase <;> simp [hp, Phase.early, Phase.runs] at hy hruns
    · rw [hloc y hyx]
      exact h.early y hy
  · rw [hphase] at hk
    obtain ⟨w, t, hw, hcur⟩ := h.entered k hk
    rw [Config.set_shared, hbase, hthread]
    refine ⟨w, t, hw, ?_⟩
    by_cases hkx : Ctx.worker k = x
    · rw [hkx, hnone] at hcur
      cases hcur.1
    · rw [hloc _ hkx]
      exact hcur

/-- Every operation keeps the threads apart. -/
theorem step (h : Named c) (hR : Routed ((toWorker S).config c)) (hS : Started ((toWorker S).config c))
    (hB : Born S.host ((toWorker S).config c))
    (hworkers : ∀ (k : ℕ) (w : Created ρ), c.shared.base.workers[k]? = some w →
      s₁.base.workers[k]? = some w)
    (hmove : ThreadMove x c.shared (c.loc x) s₁ l₁) : Named (c.set x s₁ l₁) := by
  cases hmove with
  | quiet hthreads hcounter hthread hcurrent hrequests hearly hentered =>
    exact h.quiet hworkers hthreads hcounter hthread hcurrent hrequests hearly hentered
  | spawn name hthreads hcounter hthread hcurrent hrequests hphase =>
    exact h.spawn hworkers hthreads hcounter hthread hcurrent hrequests hphase
  | create name hthreads hcounter hthread hnone hcurrent hbase hlocal hruns =>
    exact h.create hthreads hcounter hthread hnone hcurrent hbase hlocal hruns
  | enter k work hx hthreads hcounter hthread hcurrent hrequests hphase hphase₁ =>
    subst hx
    have hphase' : (((toWorker S).config c).loc (.worker k)).phase = .importing work := hphase
    have hk := ((hB.aware (.worker k)).born k rfl (by rw [hphase']; rintro ⟨⟩)).1
    have hw := List.getElem?_eq_getElem hk
    refine h.enter hR hw ?_ hworkers hthreads hcounter hthread hcurrent hrequests hphase₁
    cases hS.stage k _ hw with
    | sent _ _ hp => rw [hp] at hphase'; cases hphase'
    | importing _ hp => rw [hp] at hphase'; cases hphase'; rfl
    | done _ hp => rcases hp with hp | hp <;> rw [hphase'] at hp <;> cases hp

omit [DecidableEq ρ] in
theorem init : Named (init S) := by
  refine ⟨rfl, by rintro t a ⟨⟩, by rintro r ⟨⟩, by rintro r t ⟨⟩, by rintro r r' t ⟨⟩, by rintro x t ⟨⟩,
    by rintro x y t ⟨⟩, by rintro x r t ⟨⟩, fun _ _ => rfl, by rintro k ⟨⟩⟩

end Named

theorem Move.workers (h : Move S x s l a s₁ l₁) {k : ℕ} {w : Created ρ}
    (hw : s.base.workers[k]? = some w) : s₁.base.workers[k]? = some w := by
  rcases h.below with ⟨hbase, -⟩ | ⟨b, hs, -⟩
  · rw [hbase]
    exact hw
  · exact (Worker.step_move hs).route.getElem? hw

theorem named (h : (sys S).Reachable (init S) c) : Named c := by
  refine h.invariant .init ?_ ?_
  · intro c x a s l hc ih _ hs
    have hbelow := worker_reachable hc
    have hmove := step_move hs
    exact ih.step (routed hbelow) (started hbelow) (born hbelow) (fun _ _ => hmove.workers) hmove.thread
  · rintro c ⟨⟩

/-! ### `current()` -/

/-- What has been a thread's context stays so. -/
theorem current_stable (h : (sys S).Reachable (init S) c) (hrun : (sys S).Reachable c c') {t : ℕ}
    (ht : (c.loc x).current = some t) : (c'.loc x).current = some t := by
  refine hrun.invariant (I := fun c => (c.loc x).current = some t) ht ?_ ?_
  · intro d y a s l hd ih _ hs
    by_cases hyx : x = y
    swap
    · rwa [Config.set_loc_of_ne hyx]
    subst hyx
    rw [Config.set_loc_self]
    have hN := named (h.trans hd)
    cases (step_move hs).thread with
    | quiet _ _ _ hcurrent | spawn _ _ _ _ hcurrent => rw [hcurrent, ih]
    | enter k work _ _ _ _ _ _ hphase =>
      have hnone := hN.early x (by rw [hphase]; rfl)
      rw [ih] at hnone
      cases hnone
    | create name _ _ _ hnone =>
      rw [ih] at hnone
      cases hnone
  · rintro c ⟨⟩

/-- What holds of the threads. -/
structure Identified (c : Config (Ctx ρ) (Shared ρ) Local) : Prop where
  /-- Threads that compare equal are the same. -/
  eq : ∀ t t', t < c.shared.threads.length → t' < c.shared.threads.length →
    (c.shared.sameId t t' ↔ t = t')
  /-- Two contexts are two threads. -/
  apart : ∀ x y t t', (c.loc x).current = some t → (c.loc y).current = some t' →
    c.shared.sameId t t' → x = y
  /-- In its closure a worker is the thread of the `JoinHandle`. -/
  handle : ∀ k, (c.loc (.worker k)).base.phase = .entered → ∃ (w : Created ρ) (t : ℕ),
    c.shared.base.workers[k]? = some w ∧ (c.loc (.worker k)).current = some t ∧
      c.shared.thread w.payload.exitStatePtr = some t
  /-- No other context is. -/
  own : ∀ x r t t', (c.loc x).current = some t → c.shared.thread r = some t' → c.shared.sameId t t' →
    ∃ k, x = .worker k ∧ WorkerOf c.shared.base r k

omit [DecidableEq ρ] in
theorem Named.eq_iff (h : Named c) (hle : c.shared.threads.length ≤ 2 ^ 64) {t t' : ℕ}
    (ht : t < c.shared.threads.length) (ht' : t' < c.shared.threads.length) :
    c.shared.sameId t t' ↔ t = t' := by
  constructor
  · rintro ⟨a, b, ha, hb, hid⟩
    rw [h.ids t a ha, h.ids t' b hb] at hid
    have hnat := congrArg BitVec.toNat hid
    rwa [BitVec.toNat_ofNat, BitVec.toNat_ofNat, Nat.mod_eq_of_lt (by omega),
      Nat.mod_eq_of_lt (by omega)] at hnat
  · rintro rfl
    exact ⟨_, _, List.getElem?_eq_getElem ht, List.getElem?_eq_getElem ht, rfl⟩

/-- **`current()` tells the contexts apart**, while the counter has given out at most 2⁶⁴ identifiers.  The
thread of a `JoinHandle` is what `current()` is in the closure, and nowhere else; and what a context is it
stays, so that an `unpark` through the `JoinHandle` reaches the `park` of the closure. -/
theorem identified (h : (sys S).Reachable (init S) c) (hle : c.shared.threads.length ≤ 2 ^ 64) :
    Identified c ∧ ∀ c', (sys S).Reachable c c' →
      ∀ x t, (c.loc x).current = some t → (c'.loc x).current = some t := by
  have hN := named h
  have hR := routed (worker_reachable h)
  refine ⟨⟨fun t t' ht ht' => hN.eq_iff hle ht ht', fun x y t t' hx hy hid => ?_, fun k hk => ?_,
    fun x r t t' hx hr hid => ?_⟩, fun c' hc' x t ht => current_stable h hc' ht⟩
  · rw [hN.eq_iff hle (hN.current x t hx) (hN.current y t' hy)] at hid
    subst hid
    exact hN.unique x y t hx hy
  · obtain ⟨w, t, hw, hcur, ht⟩ := hN.entered k hk
    rw [hR.known_new (hR.created k w hw).2] at ht
    exact ⟨w, t, hw, hcur, ht⟩
  · rw [hN.eq_iff hle (hN.current x t hx) (hN.thread r t' hr).2] at hid
    subst hid
    obtain ⟨k, w, hxk, hw, hwork⟩ := hN.lent x r t hx hr
    rw [hR.known_new (hR.created k w hw).2] at hwork
    exact ⟨k, hxk, w, hw, hwork⟩

/-- The main thread spawns a worker, and both ask who they are. -/
theorem identified_spawn : ∃ c, (sys browser).Reachable (init browser) c ∧
    c.shared.threads = [⟨some "a", 0⟩, ⟨some "main", 1⟩] ∧
    (c.loc (.worker 0)).current = some 0 ∧ (c.loc (.root ())).current = some 1 ∧ Identified c := by
  obtain ⟨c, hc, hend⟩ := System.exists_of_run (M := sys browser) (c := init browser)
    (p := fun c => decide (c.shared.threads = [⟨some "a", 0⟩, ⟨some "main", 1⟩] ∧
      (c.loc (.worker 0)).current = some 0 ∧ (c.loc (.root ())).current = some 1))
    [.agent (.root ()) (.spawn (some "a") "m.js"), .agent (.root ()) (.base .step),
      .agent (.root ()) (.base .step), .agent (.worker 0) (.base .start), .agent (.root ()) .current,
      .agent (.worker 0) .enter, .agent (.worker 0) .current] (by decide)
  rw [decide_eq_true_eq] at hend
  exact ⟨c, hc, hend.1, hend.2.1, hend.2.2, (identified hc (by rw [hend.1]; decide)).1⟩

end Context

end Worker

end WasmSafeThread
