import WasmSafeThread.Worker.Relay

/-!
# What the script of a worker does

* `Started` : a worker gets one message to start with, and consumes its boxed closure at most once.
* `Ended` : it posts at most one message about its end, and the parent takes it at most once.
-/

namespace WasmSafeThread

namespace Worker

variable {ρ : Type*} {host : Host} {x : Ctx ρ} {a : Act} {s s₁ : Shared ρ} {l l₁ : Local}
  {isWorker : ρ → Bool} {c : Config (Ctx ρ) (Shared ρ) Local}

/-- The script has ended or failed. -/
def Phase.over : Phase → Bool
  | .closed | .failed => true
  | _ => false

/-- The number of messages about the end of a worker. -/
def ends (ms : List Msg) : ℕ :=
  ms.countP fun
    | .relaySpawn _ => false
    | .exit | .error => true

/-- What an operation does to the script of a worker and to the messages at its start and end. -/
inductive ScriptMove (x : Ctx ρ) (s : Shared ρ) (l : Local) (s₁ : Shared ρ) (l₁ : Local) : Prop where
  /-- Nothing. -/
  | quiet (hinbox : s₁.inbox = s.inbox) (hconsumed : s₁.consumed = s.consumed)
      (hworkers : s₁.workers = s.workers) (hfinals : s₁.finals = s.finals)
      (hends : ∀ k, ends (s₁.outbox k) = ends (s.outbox k)) (hphase : l₁.phase = l.phase)
  /-- A worker is created, and gets its first message. -/
  | create (p : Payload) (b : Bool)
      (hinbox : s₁.inbox = Function.update s.inbox s.workers.length
        (s.inbox s.workers.length ++ [⟨p.work, b⟩]))
      (hconsumed : s₁.consumed = s.consumed) (hworkers : s₁.workers = s.workers ++ [⟨x, p⟩])
      (hfinals : s₁.finals = s.finals) (hends : ∀ k, ends (s₁.outbox k) = ends (s.outbox k))
      (hphase : l₁.phase = l.phase)
  /-- It takes this message. -/
  | start (k : ℕ) (m : StartMsg) (rest : List StartMsg) (hx : x = .worker k)
      (hmsg : s.inbox k = m :: rest) (hinbox : s₁.inbox = Function.update s.inbox k rest)
      (hconsumed : s₁.consumed = s.consumed) (hworkers : s₁.workers = s.workers)
      (hfinals : s₁.finals = s.finals) (hends : ∀ k, ends (s₁.outbox k) = ends (s.outbox k))
      (hphase : l.phase = .unborn) (hphase₁ : l₁.phase = .importing m.work)
  /-- It consumes its closure. -/
  | enter (k work : ℕ) (hx : x = .worker k) (hinbox : s₁.inbox = s.inbox)
      (hconsumed : s₁.consumed = Function.update s.consumed work (s.consumed work + 1))
      (hworkers : s₁.workers = s.workers) (hfinals : s₁.finals = s.finals)
      (hends : ∀ k, ends (s₁.outbox k) = ends (s.outbox k)) (hphase : l.phase = .importing work)
      (hphase₁ : l₁.phase = .entered)
  /-- It ends. -/
  | stop (k : ℕ) (hx : x = .worker k) (hinbox : s₁.inbox = s.inbox)
      (hconsumed : s₁.consumed = s.consumed) (hworkers : s₁.workers = s.workers)
      (hfinals : s₁.finals = s.finals)
      (hends : ∀ j, ends (s₁.outbox j) = ends (s.outbox j) + if j = k then 1 else 0)
      (hphase : (∃ work, l.phase = .importing work) ∨ l.phase = .entered)
      (hphase₁ : l₁.phase.over = true)
  /-- The parent of worker `k` takes the message about its end. -/
  | taken (k : ℕ) (hinbox : s₁.inbox = s.inbox) (hconsumed : s₁.consumed = s.consumed)
      (hworkers : s₁.workers = s.workers)
      (hfinals : s₁.finals = Function.update s.finals k (s.finals k + 1))
      (hends : ∀ j, ends (s.outbox j) = ends (s₁.outbox j) + if j = k then 1 else 0)
      (hphase : l₁.phase = l.phase)

theorem ends_post {k : ℕ} {m : Msg} (j : ℕ) :
    ends ((s.post k m).outbox j) = ends (s.outbox j) + if j = k then ends [m] else 0 := by
  by_cases hj : j = k
  · subst hj
    simp [Shared.post, ends]
  · simp [Shared.post, hj]

theorem ends_pop {k : ℕ} {m : Msg} {rest : List Msg} (hmsg : s.outbox k = m :: rest) (j : ℕ) :
    ends (s.outbox j) = ends (Function.update s.outbox k rest j) + if j = k then ends [m] else 0 := by
  by_cases hj : j = k
  · subst hj
    rw [Function.update_self, hmsg, if_pos rfl, ends, List.countP_cons]
    simp [ends]
  · simp [hj]

theorem Move.script (h : Move host x s l a s₁ l₁) : ScriptMove x s l s₁ l₁ := by
  cases h with
  | spawn name shimUrl hrest hruns => exact .quiet rfl rfl rfl rfl (fun _ => rfl) rfl
  | forward p ret htask =>
    cases x with
    | worker k =>
      refine .quiet ?_ ?_ ?_ ?_ (fun j => ?_) rfl <;>
        simp only [Shared.finish_inbox, Shared.finish_consumed, Shared.finish_workers,
          Shared.finish_finals, Shared.finish_outbox]
      · rfl
      · rfl
      · rfl
      · rfl
      · refine (ends_post (k := k) (m := .relaySpawn p) j).trans ?_
        simp [ends]
    | root z =>
      refine .quiet ?_ ?_ ?_ ?_ (fun j => ?_) rfl <;>
        simp only [Shared.finish_inbox, Shared.finish_consumed, Shared.finish_workers,
          Shared.finish_finals, Shared.finish_outbox] <;> rfl
  | create p ret htask =>
    refine .create p (decide (host = .browser)) ?_ ?_ ?_ ?_ (fun j => ?_) rfl <;>
      simp only [Shared.finish_inbox, Shared.finish_consumed, Shared.finish_workers,
        Shared.finish_finals, Shared.finish_outbox] <;> rfl
  | decrement ptr ret htask hlast | cleanup ptr ret htask =>
    refine .quiet ?_ ?_ ?_ ?_ (fun j => ?_) rfl <;>
      simp only [Shared.finish_inbox, Shared.finish_consumed, Shared.finish_workers,
        Shared.finish_finals, Shared.finish_outbox] <;> rfl
  | initHandlers | throws | signal | decrementLast | freeBox | onerror | logged | load
  | dropHandle | uncaught => exact .quiet rfl rfl rfl rfl (fun _ => rfl) rfl
  | relay k w p rest hw hmsg hrest hruns hparent =>
    refine .quiet rfl rfl rfl rfl (fun j => ?_) rfl
    have hpop := ends_pop hmsg j
    simp only [ends, List.countP_cons, List.countP_nil, Bool.false_eq_true, if_false, ite_self,
      Nat.add_zero] at hpop
    exact hpop.symm
  | ended k w m code rest hw hmsg hm hrest hruns hparent =>
    refine .taken k rfl rfl rfl rfl (fun j => ?_) rfl
    have hone : ends [m] = 1 := by rcases hm with ⟨rfl, -⟩ | ⟨rfl, -⟩ <;> rfl
    have hpop := ends_pop hmsg j
    rw [hone] at hpop
    exact hpop
  | start k m rest hx hrest hphase hmsg =>
    exact .start k m rest hx hmsg rfl rfl rfl rfl (fun _ => rfl) hphase rfl
  | enter k work hx hrest hphase =>
    exact .enter k work hx rfl rfl rfl rfl (fun _ => rfl) hphase rfl
  | fail k hx hrest hphase hhost => exact .stop k hx rfl rfl rfl rfl ends_post hphase rfl
  | die k hx hrest hphase hhost => exact .stop k hx rfl rfl rfl rfl ends_post hphase rfl
  | exit k hx hrest hphase => exact .stop k hx rfl rfl rfl rfl ends_post (.inr hphase) rfl

/-! ### The message about the end -/

/-- A worker has posted one message about its end when it is over, and none before. -/
def Ended (c : Config (Ctx ρ) (Shared ρ) Local) : Prop :=
  ∀ k, ends (c.shared.outbox k) + c.shared.finals k = (c.loc (.worker k)).phase.over.toNat

theorem Ended.step [DecidableEq ρ] (h : Ended c) (hmove : ScriptMove x c.shared (c.loc x) s₁ l₁) :
    Ended (c.set x s₁ l₁) := by
  have hsame : (l₁.phase.over = (c.loc x).phase.over) →
      ∀ k, ((c.set x s₁ l₁).loc (.worker k)).phase.over = (c.loc (.worker k)).phase.over := by
    exact fun hphase k => Config.set_loc_congr (f := fun l : Local => l.phase.over) hphase (.worker k)
  intro k
  rw [Config.set_shared]
  cases hmove with
  | quiet hinbox hconsumed hworkers hfinals hends hphase =>
    rw [hends, hfinals, hsame (by rw [hphase])]
    exact h k
  | create p b hinbox hconsumed hworkers hfinals hends hphase =>
    rw [hends, hfinals, hsame (by rw [hphase])]
    exact h k
  | start j m rest hx hmsg hinbox hconsumed hworkers hfinals hends hphase hphase₁ =>
    rw [hends, hfinals, hsame (by rw [hphase, hphase₁]; rfl)]
    exact h k
  | enter j work hx hinbox hconsumed hworkers hfinals hends hphase hphase₁ =>
    rw [hends, hfinals, hsame (by rw [hphase, hphase₁]; rfl)]
    exact h k
  | stop j hx hinbox hconsumed hworkers hfinals hends hphase hphase₁ =>
    subst hx
    rw [hends, hfinals]
    have hk := h k
    by_cases hkj : k = j
    · subst hkj
      have hbefore : (c.loc (.worker k)).phase.over = false := by
        rcases hphase with ⟨work, hphase⟩ | hphase <;> rw [hphase] <;> rfl
      rw [hbefore] at hk
      rw [Config.set_loc_self, hphase₁, if_pos rfl]
      simp only [Bool.toNat_false, Bool.toNat_true] at hk ⊢
      omega
    · rw [if_neg hkj, Config.set_loc_of_ne (by rintro ⟨⟩; exact hkj rfl)]
      exact hk
  | taken j hinbox hconsumed hworkers hfinals hends hphase =>
    rw [hsame (by rw [hphase]), ← h k, hends k, hfinals]
    by_cases hkj : k = j
    · subst hkj
      rw [Function.update_self, if_pos rfl]
      omega
    · rw [Function.update_of_ne hkj, if_neg hkj, Nat.add_zero]

theorem ended [DecidableEq ρ] (h : (sys host).Reachable (init isWorker) c) : Ended c := by
  refine h.invariant (fun _ => rfl) (fun c x a s l _ ih _ hs => ?_) fun c e => nomatch e
  exact ih.step (step_move hs).script

theorem Ended.finals_le (h : Ended c) (k : ℕ) : c.shared.finals k ≤ 1 := by
  have hk := h k
  have hle := Bool.toNat_le (c.loc (.worker k)).phase.over
  omega

/-! ### The message at the start -/

/-- How far worker `k` is with the closure `work`. -/
inductive Stage (c : Config (Ctx ρ) (Shared ρ) Local) (k work : ℕ) : Prop where
  /-- Its first message has not been taken. -/
  | sent (b : Bool) (hinbox : c.shared.inbox k = [⟨work, b⟩])
      (hphase : (c.loc (.worker k)).phase = .unborn) (hconsumed : c.shared.consumed work = 0)
  /-- It has been taken, and the closure is not consumed. -/
  | importing (hinbox : c.shared.inbox k = []) (hphase : (c.loc (.worker k)).phase = .importing work)
      (hconsumed : c.shared.consumed work = 0)
  /-- The closure is consumed, or never will be. -/
  | done (hinbox : c.shared.inbox k = [])
      (hphase : (c.loc (.worker k)).phase = .entered ∨ (c.loc (.worker k)).phase.over = true)
      (hconsumed : c.shared.consumed work ≤ 1)

/-- A worker starts with its own closure, and closures of requests without a worker are not
consumed. -/
structure Started (c : Config (Ctx ρ) (Shared ρ) Local) : Prop where
  none : ∀ k, c.shared.workers.length ≤ k → c.shared.inbox k = []
  stage : ∀ (k : ℕ) (w : Created ρ), c.shared.workers[k]? = some w → Stage c k w.payload.work
  zero : ∀ r, (∀ (k : ℕ) (w : Created ρ), c.shared.workers[k]? = some w → w.payload.work ≠ r) →
    c.shared.consumed r = 0

theorem Stage.le_one {k work : ℕ} (h : Stage c k work) : c.shared.consumed work ≤ 1 := by
  cases h with
  | sent b hinbox hphase hconsumed | importing hinbox hphase hconsumed => rw [hconsumed]; exact Nat.zero_le _
  | done hinbox hphase hconsumed => exact hconsumed

theorem Stage.congr {c' : Config (Ctx ρ) (Shared ρ) Local} {k work : ℕ} (h : Stage c k work)
    (hinbox : c'.shared.inbox k = c.shared.inbox k)
    (hphase : (c'.loc (.worker k)).phase = (c.loc (.worker k)).phase)
    (hconsumed : c'.shared.consumed work = c.shared.consumed work) : Stage c' k work := by
  cases h with
  | sent b h₁ h₂ h₃ => exact .sent b (by rw [hinbox, h₁]) (by rw [hphase, h₂]) (by rw [hconsumed, h₃])
  | importing h₁ h₂ h₃ => exact .importing (by rw [hinbox, h₁]) (by rw [hphase, h₂]) (by rw [hconsumed, h₃])
  | done h₁ h₂ h₃ => exact .done (by rw [hinbox, h₁]) (by rw [hphase]; exact h₂) (by rw [hconsumed]; exact h₃)

theorem Routed.work_inj (h : Routed c) {j k : ℕ} {w w' : Created ρ} (hw : c.shared.workers[j]? = some w)
    (hw' : c.shared.workers[k]? = some w') (hwork : w.payload.work = w'.payload.work) : j = k := by
  obtain ⟨hp, hk⟩ := h.created j w hw
  obtain ⟨hp', hk'⟩ := h.created k w' hw'
  rw [h.known_new hk, h.known_new hk'] at hwork
  have hptr : w.payload.exitStatePtr = w'.payload.exitStatePtr := hwork
  rw [hptr, hp'] at hp
  cases hp
  rfl

theorem Started.quiet [DecidableEq ρ] (h : Started c) (hinbox : s₁.inbox = c.shared.inbox)
    (hconsumed : s₁.consumed = c.shared.consumed) (hworkers : s₁.workers = c.shared.workers)
    (hphase : l₁.phase = (c.loc x).phase) : Started (c.set x s₁ l₁) := by
  refine ⟨?_, fun k w hw => ?_, ?_⟩
  · simpa only [Config.set_shared, hinbox, hworkers] using h.none
  · rw [Config.set_shared, hworkers] at hw
    exact (h.stage k w hw).congr (congrFun hinbox k) (Config.set_loc_congr hphase _)
      (congrFun hconsumed _)
  · simpa only [Config.set_shared, hworkers, hconsumed] using h.zero

/-- Worker `k` takes a step, and the other ones do not. -/
theorem Started.worker [DecidableEq ρ] (h : Started c) {k : ℕ}
    (hinbox : ∀ j, j ≠ k → s₁.inbox j = c.shared.inbox j) (hworkers : s₁.workers = c.shared.workers)
    (hk : k < c.shared.workers.length)
    (hconsumed : ∀ (j : ℕ) (w : Created ρ), j ≠ k → c.shared.workers[j]? = some w →
      s₁.consumed w.payload.work = c.shared.consumed w.payload.work)
    (hzero : ∀ r, (∀ (k : ℕ) (w : Created ρ), c.shared.workers[k]? = some w → w.payload.work ≠ r) →
      s₁.consumed r = c.shared.consumed r)
    (hstage : ∀ w, c.shared.workers[k]? = some w →
      Stage (c.set (.worker k) s₁ l₁) k w.payload.work) : Started (c.set (.worker k) s₁ l₁) := by
  refine ⟨fun j hj => ?_, fun j w hw => ?_, fun r hr => ?_⟩ <;>
    simp only [Config.set_shared, hworkers] at *
  · rw [hinbox j (by omega)]
    exact h.none j hj
  · by_cases hjk : j = k
    · subst hjk
      exact hstage w hw
    · refine (h.stage j w hw).congr (hinbox j hjk) ?_ (hconsumed j w hjk hw)
      rw [Config.set_loc_of_ne]
      rintro ⟨⟩
      exact hjk rfl
  · rw [hzero r hr]
    exact h.zero r hr

theorem Started.step [DecidableEq ρ] (h : Started c) (hB : Born host c) (hR : Routed c)
    (hR₁ : Routed (c.set x s₁ l₁)) (hmove : ScriptMove x c.shared (c.loc x) s₁ l₁) :
    Started (c.set x s₁ l₁) := by
  have hborn : ∀ k, x = .worker k → (c.loc x).phase ≠ .unborn → k < c.shared.workers.length :=
    fun k hx hphase => ((hB.aware x).born k hx hphase).1
  cases hmove with
  | quiet hinbox hconsumed hworkers hfinals hends hphase =>
    exact h.quiet hinbox hconsumed hworkers hphase
  | taken j hinbox hconsumed hworkers hfinals hends hphase =>
    exact h.quiet hinbox hconsumed hworkers hphase
  | create p b hinbox hconsumed hworkers hfinals hends hphase =>
    have hloc : ∀ k, ((c.set x s₁ l₁).loc (.worker k)).phase = (c.loc (.worker k)).phase :=
      fun k => Config.set_loc_congr hphase (.worker k)
    refine ⟨fun k hk => ?_, fun k w hw => ?_, fun r hr => ?_⟩
    · rw [Config.set_shared, hworkers, List.length_append, List.length_singleton] at hk
      rw [Config.set_shared, hinbox, Function.update_of_ne (by omega)]
      exact h.none k (by omega)
    · have hw₁ := hw
      rw [Config.set_shared, hworkers, getElem?_concat] at hw
      rcases hw with hw | ⟨rfl, rfl⟩
      · have hk := (List.getElem?_eq_some_iff.1 hw).1
        refine (h.stage k w hw).congr ?_ (hloc k) (congrFun hconsumed _)
        rw [Config.set_shared, hinbox, Function.update_of_ne (by omega)]
      · refine .sent b ?_ ?_ ?_
        · rw [Config.set_shared, hinbox, Function.update_self, h.none _ (Nat.le_refl _)]
          rfl
        · rw [hloc]
          by_contra hne
          exact Nat.lt_irrefl _ ((hB.aware _).born _ rfl hne).1
        · -- no other worker has the closure of the new one
          rw [Config.set_shared, hconsumed]
          refine h.zero _ fun j w hw hwork => ?_
          have hj := (List.getElem?_eq_some_iff.1 hw).1
          have hw₂ : (c.set x s₁ l₁).shared.workers[j]? = some w := by
            rw [Config.set_shared, hworkers, getElem?_concat]
            exact .inl hw
          have := hR₁.work_inj hw₂ hw₁ hwork
          omega
    · rw [Config.set_shared, hconsumed]
      refine h.zero r fun k w hw => hr k w ?_
      rw [Config.set_shared, hworkers, getElem?_concat]
      exact .inl hw
  | start k m rest hx hmsg hinbox hconsumed hworkers hfinals hends hphase hphase₁ =>
    have hk := (hB.inbox k m (by rw [hmsg]; exact List.mem_cons_self)).1
    subst hx
    refine h.worker (fun j hj => by rw [hinbox, Function.update_of_ne hj]) hworkers hk
      (fun j w _ _ => by rw [hconsumed]) (fun r _ => by rw [hconsumed]) fun w hw => ?_
    -- there is one first message, and it is taken in the stage `sent` only
    cases h.stage k w hw with
    | sent b h₁ h₂ h₃ =>
      rw [hmsg] at h₁
      cases h₁
      refine .importing ?_ (by rw [Config.set_loc_self, hphase₁]) (by rw [Config.set_shared, hconsumed, h₃])
      rw [Config.set_shared, hinbox, Function.update_self]
    | importing h₁ h₂ h₃ =>
      rw [hmsg] at h₁
      cases h₁
    | done h₁ h₂ h₃ =>
      rw [hmsg] at h₁
      cases h₁
  | enter k work hx hinbox hconsumed hworkers hfinals hends hphase hphase₁ =>
    have hk := hborn k hx (by rw [hphase]; nofun)
    subst hx
    obtain ⟨w, hw⟩ : ∃ w, c.shared.workers[k]? = some w := ⟨_, List.getElem?_eq_getElem hk⟩
    obtain ⟨hin, rfl, hzero⟩ : c.shared.inbox k = [] ∧ work = w.payload.work ∧
        c.shared.consumed work = 0 := by
      cases h.stage k w hw with
      | sent b h₁ h₂ h₃ =>
        rw [hphase] at h₂
        cases h₂
      | importing h₁ h₂ h₃ =>
        rw [hphase] at h₂
        cases h₂
        exact ⟨h₁, rfl, h₃⟩
      | done h₁ h₂ h₃ =>
        rw [hphase] at h₂
        rcases h₂ with h₂ | h₂ <;> cases h₂
    refine h.worker (fun j _ => by rw [hinbox]) hworkers hk (fun j w' hj hw' => ?_) (fun r hr => ?_)
      fun w' hw' => ?_
    · rw [hconsumed, Function.update_of_ne]
      exact fun hwork => hj (hR.work_inj hw' hw hwork)
    · rw [hconsumed, Function.update_of_ne (hr k w hw).symm]
    · rw [hw] at hw'
      cases hw'
      refine .done (by rw [Config.set_shared, hinbox, hin]) (.inl (by rw [Config.set_loc_self, hphase₁])) ?_
      exact Nat.le_of_eq (by rw [Config.set_shared, hconsumed, Function.update_self, hzero])
  | stop k hx hinbox hconsumed hworkers hfinals hends hphase hphase₁ =>
    have hk := hborn k hx (by rcases hphase with ⟨work, hphase⟩ | hphase <;> rw [hphase] <;> nofun)
    subst hx
    refine h.worker (fun j _ => by rw [hinbox]) hworkers hk (fun j w _ _ => by rw [hconsumed])
      (fun r _ => by rw [hconsumed]) fun w hw => ?_
    have hdone : c.shared.inbox k = [] ∧ c.shared.consumed w.payload.work ≤ 1 := by
      cases h.stage k w hw with
      | sent b h₁ h₂ h₃ => rcases hphase with ⟨work, hphase⟩ | hphase <;> rw [hphase] at h₂ <;> cases h₂
      | importing h₁ h₂ h₃ => exact ⟨h₁, by rw [h₃]; exact Nat.zero_le _⟩
      | done h₁ h₂ h₃ => exact ⟨h₁, h₃⟩
    refine .done (by rw [Config.set_shared, hinbox, hdone.1]) (.inr ?_) ?_
    · rw [Config.set_loc_self, hphase₁]
    · rw [Config.set_shared, hconsumed]
      exact hdone.2

theorem started [DecidableEq ρ] (h : (sys host).Reachable (init isWorker) c) : Started c := by
  refine h.invariant ⟨fun _ _ => rfl, nofun, fun _ _ => rfl⟩ ?_ fun c e => nomatch e
  intro c x a s l hc ih _ hs
  exact ih.step (born hc) (routed hc) (routed (hc.agent trivial hs)) (step_move hs).script

/-- **A closure is consumed at most once.** -/
theorem Started.consumed_le (h : Started c) (r : ℕ) : c.shared.consumed r ≤ 1 := by
  by_cases hr : ∀ (k : ℕ) (w : Created ρ), c.shared.workers[k]? = some w → w.payload.work ≠ r
  · rw [h.zero r hr]
    exact Nat.zero_le _
  · push Not at hr
    obtain ⟨k, w, hw, rfl⟩ := hr
    exact (h.stage k w hw).le_one

end Worker

end WasmSafeThread
