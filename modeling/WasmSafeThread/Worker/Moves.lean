import WasmSafeThread.Worker.Basic
import Mathlib.Data.Bool.Basic

/-!
# What one operation of a context does

* `Move` : the operations, one constructor for each way in which a step goes through, with the state
  that it leads to.
* `RouteMove` : what an operation does to the spawn requests.
-/

namespace WasmSafeThread

namespace Worker

variable {ρ : Type*} {host : Host} {x : Ctx ρ} {a : Act} {s s₁ : Shared ρ} {l l₁ : Local}

/-- The operations of context `x`. -/
inductive Move (host : Host) (x : Ctx ρ) (s : Shared ρ) (l : Local) :
    Act → Shared ρ → Local → Prop where
  | spawn (name shimUrl : String) (hrest : l.task = .rest) (hruns : l.phase.runs = true) :
      Move host x s l (.spawn name shimUrl) (spawn x name shimUrl s l).1 (spawn x name shimUrl s l).2
  | initHandlers (p : Payload) (htask : l.task = .initHandlers p) :
      Move host x s l .step { s with initDone := true }
        { l with
          cleanup := l.cleanup || !s.initDone
          task := placeTask host l p p (some p.exitStatePtr) }
  | forward (p : Payload) (ret : Option ℕ) (htask : l.task = .forward p ret) :
      Move host x s l .step ((forward x p s).finish ret) { l with task := .rest }
  | throws (p : Payload) (ret : Option ℕ) (htask : l.task = .forward p ret) :
      Move host x s l .throws
        ((s.setPlace p.exitStatePtr .thrown).setExit p.exitStatePtr (s.exits p.exitStatePtr).begin)
        { l with task := .signal none p.exitStatePtr 2 ret }
  | create (p : Payload) (ret : Option ℕ) (htask : l.task = .create p ret) :
      Move host x s l .step ((create host x p s).finish ret) { l with task := .rest }
  | signal (src : Option ℕ) (ptr code : ℕ) (ret : Option ℕ) (htask : l.task = .signal src ptr code ret) :
      Move host x s l .step (s.setExit ptr ((s.exits ptr).signal src code))
        { l with task := .decrement ptr ret }
  | decrement (ptr : ℕ) (ret : Option ℕ) (htask : l.task = .decrement ptr ret)
      (hlast : ¬((s.exits ptr).refCount = 1 ∧ l.cleanup = true)) :
      Move host x s l .step ((s.setExit ptr (s.exits ptr).decrement).finish ret)
        { l with task := .rest }
  | decrementLast (ptr : ℕ) (ret : Option ℕ) (htask : l.task = .decrement ptr ret)
      (hlast : (s.exits ptr).refCount = 1) (hcleanup : l.cleanup = true) :
      Move host x s l .step (s.setExit ptr (s.exits ptr).decrement) { l with task := .cleanup ptr ret }
  | cleanup (ptr : ℕ) (ret : Option ℕ) (htask : l.task = .cleanup ptr ret) :
      Move host x s l .step ((s.setExit ptr (s.exits ptr).free).finish ret) { l with task := .rest }
  | freeBox (ptr : ℕ) (htask : l.task = .freeBox ptr) :
      Move host x s l .step (s.setExit ptr (s.exits ptr).free) { l with task := .rest }
  | relay (k : ℕ) (w : Created ρ) (p : Payload) (rest : List Msg) (hw : s.workers[k]? = some w)
      (hmsg : s.outbox k = .relaySpawn p :: rest) (hrest : l.task = .rest)
      (hruns : l.phase.runs = true) (hparent : w.parent = x) :
      Move host x s l (.recv k)
        ({ s with outbox := Function.update s.outbox k rest }.setPlace p.exitStatePtr (.held x))
        { l with task := placeTask host l p { p with entryName := w.payload.entryName } none }
  | ended (k : ℕ) (w : Created ρ) (m : Msg) (code : ℕ) (rest : List Msg) (hw : s.workers[k]? = some w)
      (hmsg : s.outbox k = m :: rest) (hm : m = .exit ∧ code = 1 ∨ m = .error ∧ code = 2)
      (hrest : l.task = .rest) (hruns : l.phase.runs = true) (hparent : w.parent = x) :
      Move host x s l (.recv k)
        (({ s with outbox := Function.update s.outbox k rest }.takeFinal k).setExit
          w.payload.exitStatePtr (s.exits w.payload.exitStatePtr).begin)
        { l with task := .signal (some k) w.payload.exitStatePtr code none }
  | onerror (k : ℕ) (w : Created ρ) (hhost : host = .browser) (hw : s.workers[k]? = some w)
      (hrest : l.task = .rest) (hruns : l.phase.runs = true) (hparent : w.parent = x) :
      Move host x s l (.recvError k)
        ((s.takeError k).setExit w.payload.exitStatePtr (s.exits w.payload.exitStatePtr).begin)
        { l with task := .signal (some k) w.payload.exitStatePtr 2 none }
  | logged (k : ℕ) (hhost : host = .node) (hrest : l.task = .rest) :
      Move host x s l (.recvError k) (s.takeError k) l
  | load (r : ℕ) (hrest : l.task = .rest) (hhandle : s.handle r = true) :
      Move host x s l (.load r) (s.setExit r (s.exits r).touch) l
  | dropHandle (r : ℕ) (hrest : l.task = .rest) (hruns : l.phase.runs = true) (hhandle : s.handle r = true) :
      Move host x s l (.dropHandle r)
        { s.setExit r (s.exits r).dropHandle with handle := Function.update s.handle r false }
        { l with task := if (s.exits r).refCount = 1 then .freeBox r else .rest }
  | start (k : ℕ) (m : StartMsg) (rest : List StartMsg) (hx : x = .worker k) (hrest : l.task = .rest)
      (hphase : l.phase = .unborn) (hmsg : s.inbox k = m :: rest) :
      Move host x s l .start { s with inbox := Function.update s.inbox k rest }
        { l with phase := .importing m.work, canRelay := l.canRelay || m.parentManaged }
  | enter (k work : ℕ) (hx : x = .worker k) (hrest : l.task = .rest)
      (hphase : l.phase = .importing work) :
      Move host x s l .enter
        { s with consumed := Function.update s.consumed work (s.consumed work + 1) }
        { l with phase := .entered }
  | fail (k : ℕ) (hx : x = .worker k) (hrest : l.task = .rest)
      (hphase : (∃ work, l.phase = .importing work) ∨ l.phase = .entered) (hhost : host = .browser) :
      Move host x s l .fail (s.post k .error) { l with phase := .failed }
  | die (k : ℕ) (hx : x = .worker k) (hrest : l.task = .rest)
      (hphase : (∃ work, l.phase = .importing work) ∨ l.phase = .entered) (hhost : host = .node) :
      Move host x s l .fail ((s.post k .error).raise k) { l with phase := .closed }
  | exit (k : ℕ) (hx : x = .worker k) (hrest : l.task = .rest) (hphase : l.phase = .entered) :
      Move host x s l .exit (s.post k .exit) { l with phase := .closed }
  | uncaught (k : ℕ) (hx : x = .worker k) (hrest : l.task = .rest) :
      Move host x s l .uncaught (s.raise k) l

theorem advance_move (h : advance host x s l = some (s₁, l₁)) : Move host x s l .step s₁ l₁ := by
  unfold advance at h
  split at h
  · cases h
  · cases h
    exact .initHandlers _ (by assumption)
  · cases h
    exact .forward _ _ (by assumption)
  · cases h
    exact .create _ _ (by assumption)
  · cases h
    exact .signal _ _ _ _ (by assumption)
  · rename_i ptr ret htask
    split at h <;> cases h
    · rename_i hlast
      exact .decrementLast ptr ret htask hlast.1 hlast.2
    · rename_i hlast
      exact .decrement ptr ret htask hlast
  · cases h
    exact .cleanup _ _ (by assumption)
  · cases h
    exact .freeBox _ (by assumption)

theorem script_move {k : ℕ} (h : script host k a s l = some (s₁, l₁)) (hx : x = .worker k)
    (hrest : l.task = .rest) : Move host x s l a s₁ l₁ := by
  unfold script at h
  split at h
  · rename_i hphase
    split at h
    · cases h
    · cases h
      exact .start k _ _ hx hrest hphase (by assumption)
  · cases h
    exact .enter k _ hx hrest (by assumption)
  · rename_i work hphase
    split at h <;> cases h
    · exact .fail k hx hrest (.inl ⟨work, hphase⟩) rfl
    · exact .die k hx hrest (.inl ⟨work, hphase⟩) rfl
  · rename_i hphase
    split at h <;> cases h
    · exact .fail k hx hrest (.inr hphase) rfl
    · exact .die k hx hrest (.inr hphase) rfl
  · cases h
    exact .exit k hx hrest (by assumption)
  · split at h <;> cases h
    exact .uncaught k hx hrest
  · cases h

theorem step_move [DecidableEq ρ] (h : step host x a s l = some (s₁, l₁)) :
    Move host x s l a s₁ l₁ := by
  cases a with
  | step => exact advance_move h
  | throws =>
    simp only [step] at h
    split at h <;> cases h
    exact .throws _ _ (by assumption)
  | spawn name shimUrl =>
    simp only [step] at h
    split at h <;> cases h
    rename_i hg
    exact .spawn name shimUrl hg.1 hg.2
  | recv k =>
    simp only [step] at h
    split at h
    · rename_i w m rest hw hmsg
      split at h
      · rename_i hg
        obtain ⟨hrest, hruns, hparent⟩ := hg
        -- one handler for all messages: a relay message, or the end
        cases m <;> cases h
        · exact .relay k w _ rest hw hmsg hrest hruns hparent
        · exact .ended k w _ 1 rest hw hmsg (.inl ⟨rfl, rfl⟩) hrest hruns hparent
        · exact .ended k w _ 2 rest hw hmsg (.inr ⟨rfl, rfl⟩) hrest hruns hparent
      · cases h
    · cases h
  | recvError k =>
    simp only [step] at h
    split at h
    · rename_i w hw
      split at h
      · rename_i hg
        obtain ⟨hrest, hruns, hparent, -⟩ := hg
        -- the handler of an error event depends on the platform
        cases host <;> cases h
        · exact .onerror k w rfl hw hrest hruns hparent
        · exact .logged k rfl hrest
      · cases h
    · cases h
  | load r =>
    simp only [step] at h
    split at h <;> cases h
    rename_i hg
    exact .load r hg.1 hg.2.2
  | dropHandle r =>
    simp only [step] at h
    split at h <;> cases h
    rename_i hg
    exact .dropHandle r hg.1 hg.2.1 hg.2.2
  | start | enter | fail | exit | uncaught =>
    simp only [step] at h
    split at h
    · split at h
      · exact script_move h rfl (by assumption)
      · cases h
    · cases h

/-! ### The spawn requests -/

namespace Shared

variable (s : Shared ρ) (ret : Option ℕ)

@[simp] theorem finish_exits : (s.finish ret).exits = s.exits := by cases ret <;> rfl
@[simp] theorem finish_workers : (s.finish ret).workers = s.workers := by cases ret <;> rfl
@[simp] theorem finish_inbox : (s.finish ret).inbox = s.inbox := by cases ret <;> rfl
@[simp] theorem finish_outbox : (s.finish ret).outbox = s.outbox := by cases ret <;> rfl
@[simp] theorem finish_requests : (s.finish ret).requests = s.requests := by cases ret <;> rfl
@[simp] theorem finish_place : (s.finish ret).place = s.place := by cases ret <;> rfl
@[simp] theorem finish_consumed : (s.finish ret).consumed = s.consumed := by cases ret <;> rfl
@[simp] theorem finish_finals : (s.finish ret).finals = s.finals := by cases ret <;> rfl
@[simp] theorem finish_onerrors : (s.finish ret).onerrors = s.onerrors := by cases ret <;> rfl
@[simp] theorem finish_initDone : (s.finish ret).initDone = s.initDone := by cases ret <;> rfl

end Shared

/-- The request in the hands of a context. -/
def Task.carries : Task → Option Payload
  | .initHandlers p | .forward p _ | .create p _ => some p
  | _ => none

/-- The requests in a list of messages. -/
def relays (ms : List Msg) : List Payload :=
  ms.filterMap fun
    | .relaySpawn p => some p
    | _ => none

theorem mem_relays {ms : List Msg} {p : Payload} : p ∈ relays ms ↔ .relaySpawn p ∈ ms := by
  simp only [relays, List.mem_filterMap]
  constructor
  · rintro ⟨m, hm, hp⟩
    cases m <;> cases hp
    exact hm
  · exact fun h => ⟨_, h, rfl⟩

theorem placeTask_carries (host : Host) (l : Local) (p : Payload) (ret : Option ℕ) :
    (placeTask host l p p ret).carries = some p := by
  unfold placeTask
  split
  · split <;> rfl
  · rfl

/-- What an operation does to the requests. -/
inductive RouteMove (x : Ctx ρ) (s : Shared ρ) (l : Local) (s₁ : Shared ρ) (l₁ : Local) : Prop where
  /-- Nothing. -/
  | quiet (hplace : s₁.place = s.place) (hworkers : s₁.workers = s.workers)
      (hrequests : s₁.requests = s.requests) (hcarries : l₁.task.carries = l.task.carries)
      (hrelays : ∀ k, relays (s₁.outbox k) = relays (s.outbox k))
  /-- A new one. -/
  | spawn (name shimUrl : String) (hruns : l.phase.runs = true) (hnone : l.task.carries = none)
      (hplace : s₁.place = Function.update s.place s.requests.length (.held x))
      (hworkers : s₁.workers = s.workers)
      (hrequests : s₁.requests =
        s.requests ++ [⟨x, .new s.requests.length name shimUrl⟩])
      (hcarries : l₁.task.carries = some (.new s.requests.length name shimUrl))
      (hrelays : ∀ k, relays (s₁.outbox k) = relays (s.outbox k))
  /-- One goes to the parent. -/
  | post (k : ℕ) (p : Payload) (ret : Option ℕ) (hx : x = .worker k) (htask : l.task = .forward p ret)
      (hplace : s₁.place = Function.update s.place p.exitStatePtr (.posted k))
      (hworkers : s₁.workers = s.workers) (hrequests : s₁.requests = s.requests)
      (hcarries : l₁.task.carries = none)
      (hrelays : ∀ j, relays (s₁.outbox j) =
        relays (s.outbox j) ++ if j = k then [p] else [])
  /-- One leaves the program, or is given up. -/
  | lost (y : Place ρ) (p : Payload) (ret : Option ℕ)
      (hy : y = .thrown ∨ y = .outside ∧ ∃ z, x = .root z) (htask : l.task = .forward p ret)
      (hplace : s₁.place = Function.update s.place p.exitStatePtr y)
      (hworkers : s₁.workers = s.workers) (hrequests : s₁.requests = s.requests)
      (hcarries : l₁.task.carries = none)
      (hrelays : ∀ k, relays (s₁.outbox k) = relays (s.outbox k))
  /-- A worker is created for one. -/
  | create (p : Payload) (ret : Option ℕ) (htask : l.task = .create p ret)
      (hplace : s₁.place = Function.update s.place p.exitStatePtr (.created s.workers.length))
      (hworkers : s₁.workers = s.workers ++ [⟨x, p⟩]) (hrequests : s₁.requests = s.requests)
      (hcarries : l₁.task.carries = none)
      (hrelays : ∀ k, relays (s₁.outbox k) = relays (s.outbox k))
  /-- One is taken from a message. -/
  | relay (k : ℕ) (w : Created ρ) (p p' : Payload) (hw : s.workers[k]? = some w) (hparent : w.parent = x)
      (hnone : l.task.carries = none) (hp' : p' = p ∨ p' = { p with entryName := w.payload.entryName })
      (hplace : s₁.place = Function.update s.place p.exitStatePtr (.held x))
      (hworkers : s₁.workers = s.workers) (hrequests : s₁.requests = s.requests)
      (hcarries : l₁.task.carries = some p')
      (hhead : relays (s.outbox k) = p :: relays (s₁.outbox k))
      (hrelays : ∀ j, j ≠ k → relays (s₁.outbox j) = relays (s.outbox j))

theorem relays_post {k : ℕ} {m : Msg} (hm : ∀ p, m ≠ .relaySpawn p) (j : ℕ) :
    relays ((s.post k m).outbox j) = relays (s.outbox j) := by
  by_cases hj : j = k
  · subst hj
    cases m with
    | relaySpawn p => exact absurd rfl (hm p)
    | exit | error => simp [Shared.post, relays]
  · simp [Shared.post, hj]

theorem Move.route (h : Move host x s l a s₁ l₁) : RouteMove x s l s₁ l₁ := by
  cases h with
  | spawn name shimUrl hrest hruns =>
    exact .spawn name shimUrl hruns (by rw [hrest]; rfl) rfl rfl rfl rfl fun _ => rfl
  | initHandlers p htask =>
    exact .quiet rfl rfl rfl (by rw [htask]; exact placeTask_carries _ _ _ _) fun _ => rfl
  | forward p ret htask =>
    cases x with
    | worker k =>
      refine .post k p ret rfl htask (by simp [Worker.forward, Shared.setPlace, Shared.post])
        (by simp [Worker.forward, Shared.setPlace, Shared.post])
        (by simp [Worker.forward, Shared.setPlace, Shared.post]) rfl fun j => ?_
      by_cases hj : j = k
      · subst hj
        simp [Worker.forward, Shared.setPlace, Shared.post, relays]
      · simp [Worker.forward, Shared.setPlace, Shared.post, hj]
    | root z =>
      exact .lost .outside p ret (.inr ⟨rfl, z, rfl⟩) htask (by simp [Worker.forward, Shared.setPlace])
        (by simp [Worker.forward, Shared.setPlace]) (by simp [Worker.forward, Shared.setPlace]) rfl
        fun k => by simp [Worker.forward, Shared.setPlace]
  | throws p ret htask => exact .lost .thrown p ret (.inl rfl) htask rfl rfl rfl rfl fun _ => rfl
  | create p ret htask =>
    exact .create p ret htask (by simp [Worker.create, Shared.setPlace]) (by simp [Worker.create, Shared.setPlace])
      (by simp [Worker.create, Shared.setPlace]) rfl fun k => by simp [Worker.create, Shared.setPlace]
  | signal src ptr code ret htask => exact .quiet rfl rfl rfl (by rw [htask]; rfl) fun _ => rfl
  | decrement ptr ret htask hlast | cleanup ptr ret htask =>
    exact .quiet (by simp [Shared.setExit]) (by simp [Shared.setExit]) (by simp [Shared.setExit])
      (by rw [htask]; rfl) fun k => by simp [Shared.setExit]
  | decrementLast ptr ret htask hlast hcleanup =>
    exact .quiet rfl rfl rfl (by rw [htask]; rfl) fun _ => rfl
  | freeBox ptr htask => exact .quiet rfl rfl rfl (by rw [htask]; rfl) fun _ => rfl
  | relay k w p rest hw hmsg hrest hruns hparent =>
    obtain ⟨p', hp', hcarries⟩ : ∃ p', (p' = p ∨ p' = { p with entryName := w.payload.entryName }) ∧
        (placeTask host l p { p with entryName := w.payload.entryName } none).carries = some p' := by
      unfold placeTask
      split
      · split
        · exact ⟨p, .inl rfl, rfl⟩
        · exact ⟨_, .inr rfl, rfl⟩
      · exact ⟨_, .inr rfl, rfl⟩
    refine .relay k w p p' hw hparent (by rw [hrest]; rfl) hp' rfl rfl rfl hcarries ?_ fun j hj => ?_
    · simp [Shared.setPlace, hmsg, relays]
    · simp [Shared.setPlace, hj]
  | ended k w m code rest hw hmsg hm hrest hruns hparent =>
    refine .quiet rfl rfl rfl (by rw [hrest]; rfl) fun j => ?_
    by_cases hj : j = k
    · subst hj
      rcases hm with ⟨rfl, -⟩ | ⟨rfl, -⟩ <;> simp [Shared.setExit, Shared.takeFinal, hmsg, relays]
    · simp [Shared.setExit, Shared.takeFinal, hj]
  | onerror k w hhost hw hrest hruns hparent =>
    exact .quiet rfl rfl rfl (by rw [hrest]; rfl) fun _ => rfl
  | logged k hhost hrest => exact .quiet rfl rfl rfl rfl fun _ => rfl
  | load r hrest hhandle => exact .quiet rfl rfl rfl rfl fun _ => rfl
  | dropHandle r hrest hruns hhandle =>
    refine .quiet rfl rfl rfl ?_ fun _ => rfl
    rw [hrest]
    split <;> rfl
  | start k m rest hx hrest hphase hmsg => exact .quiet rfl rfl rfl rfl fun _ => rfl
  | enter k work hx hrest hphase => exact .quiet rfl rfl rfl rfl fun _ => rfl
  | fail k hx hrest hphase hhost => exact .quiet rfl rfl rfl rfl (relays_post nofun)
  | die k hx hrest hphase hhost => exact .quiet rfl rfl rfl rfl (relays_post nofun)
  | exit k hx hrest hphase => exact .quiet rfl rfl rfl rfl (relays_post nofun)
  | uncaught k hx hrest => exact .quiet rfl rfl rfl rfl fun _ => rfl

end Worker

end WasmSafeThread
