import WasmSafeThread.Worker.Accesses

/-!
# The lifetime of one `exit_state`

One `exit_state` and the contexts that are about to access it, without the rest of the program.

* `Access` : an operation, as this `exit_state` sees it; `ExitMove.access`: it is one.
* `Booked` : `ref_count` is 2 less the references that have been released, and `exit_code` is the last
  code that has been stored.  This needs no condition.
* `Side`, `Memory` : how far the worker side is with its release, and where the memory is.
* `Life.step` : **as long as the worker side begins to release its reference once**, the memory is freed
  after both references have been released and by one context, is not accessed afterwards, and the code
  does not change.
* `Cleared.step` : a memory to which there are no references is freed or about to be freed, if whoever
  drops the last one can free it.
-/

namespace WasmSafeThread

namespace Worker

variable {ρ κ : Type*} {host : Host} {x : Ctx ρ} {a : Act} {s s₁ : Shared ρ} {l l₁ : Local}
  {isWorker : ρ → Bool} {c : Config (Ctx ρ) (Shared ρ) Local}

/-! ### One operation -/

/-- What a context is about to do with the `exit_state` of request `r`. -/
def Task.dutyFor (t : Task) (r : ℕ) : Option Duty :=
  match t.duty with
  | some (ptr, d) => if ptr = r then some d else none
  | none => none

section

variable {t : Task} {r ptr : ℕ} {d : Duty}

theorem Task.dutyFor_none (h : t.duty = none) : t.dutyFor r = none := by rw [Task.dutyFor, h]

theorem Task.dutyFor_self (h : t.duty = some (r, d)) : t.dutyFor r = some d := by
  rw [Task.dutyFor, h]
  exact if_pos rfl

theorem Task.dutyFor_of_ne (h : t.duty = some (ptr, d)) (hr : ptr ≠ r) : t.dutyFor r = none := by
  rw [Task.dutyFor, h]
  exact if_neg hr

theorem Task.duty_eq (h : t.dutyFor r = some d) : t.duty = some (r, d) := by
  unfold Task.dutyFor at h
  split at h
  · rename_i ptr d' hd
    split at h
    · rename_i hptr
      cases h
      rw [hd, hptr]
    · cases h
  · cases h

end

/-- What an operation of a context with duty `d` does to the `exit_state` `e`.  `live` says that its
`JoinHandle` exists, and `cleanup` that the context can free it. -/
inductive Access (live cleanup : Bool) (e : ExitState) (d : Option Duty) :
    ExitState → Option Duty → Prop where
  | frame : Access live cleanup e d e d
  | begin (src : Option ℕ) (code : ℕ) (hd : d = none) :
      Access live cleanup e d e.begin (some (.signal src code))
  | signal (src : Option ℕ) (code : ℕ) (hd : d = some (.signal src code)) :
      Access live cleanup e d (e.signal src code) (some .decrement)
  | decrement (hd : d = some .decrement) (hlast : ¬(e.refCount = 1 ∧ cleanup = true)) :
      Access live cleanup e d e.decrement none
  | decrementLast (hd : d = some .decrement) (hlast : e.refCount = 1) :
      Access live cleanup e d e.decrement (some .free)
  | free (hd : d = some .free) : Access live cleanup e d e.free none
  | load (hlive : live = true) (hd : d = none) : Access live cleanup e d e.touch none
  | drop (hlive : live = true) (hd : d = none) (hlast : e.refCount ≠ 1) :
      Access live cleanup e d e.dropHandle none
  | dropLast (hlive : live = true) (hd : d = none) (hlast : e.refCount = 1) :
      Access live cleanup e d e.dropHandle (some .free)

theorem access_of_update {ptr : ℕ} {e : ExitState} {live : ℕ → Bool} {cleanup : Bool}
    (hexits : s₁.exits = Function.update s.exits ptr e)
    (hself : Access (live ptr) cleanup (s.exits ptr) (l.task.dutyFor ptr) e (l₁.task.dutyFor ptr))
    (hother : ∀ r, ptr ≠ r → l₁.task.dutyFor r = l.task.dutyFor r) (r : ℕ) :
    Access (live r) cleanup (s.exits r) (l.task.dutyFor r) (s₁.exits r) (l₁.task.dutyFor r) := by
  rw [hexits]
  by_cases hr : r = ptr
  · subst hr
    rw [Function.update_self]
    exact hself
  · rw [Function.update_of_ne hr, hother r (Ne.symm hr)]
    exact .frame

theorem ExitMove.access (h : ExitMove c.shared (c.loc x) s₁ l₁) (hF : Fresh c) (r : ℕ) :
    Access (c.shared.handle r) (c.loc x).cleanup (c.shared.exits r) ((c.loc x).task.dutyFor r)
      (s₁.exits r) (l₁.task.dutyFor r) := by
  cases h with
  | quiet hexits hduty hduty₁ =>
    rw [hexits, Task.dutyFor_none hduty, Task.dutyFor_none hduty₁]
    exact .frame
  | spawn hexits hduty hduty₁ =>
    rw [hexits, ← hF.new _ (Nat.le_refl _), Function.update_eq_self, Task.dutyFor_none hduty,
      Task.dutyFor_none hduty₁]
    exact .frame
  | begin src ptr code hptr hexits hduty hduty₁ =>
    refine access_of_update hexits ?_ (fun r hr => ?_) r
    · rw [Task.dutyFor_self hduty₁]
      exact .begin src code (Task.dutyFor_none hduty)
    · rw [Task.dutyFor_none hduty, Task.dutyFor_of_ne hduty₁ hr]
  | signal src ptr code hexits hduty hduty₁ =>
    refine access_of_update hexits ?_ (fun r hr => ?_) r
    · rw [Task.dutyFor_self hduty₁]
      exact .signal src code (Task.dutyFor_self hduty)
    · rw [Task.dutyFor_of_ne hduty hr, Task.dutyFor_of_ne hduty₁ hr]
  | decrement ptr hexits hduty hduty₁ hlast =>
    refine access_of_update hexits ?_ (fun r hr => ?_) r
    · rw [Task.dutyFor_none hduty₁]
      exact .decrement (Task.dutyFor_self hduty) hlast
    · rw [Task.dutyFor_of_ne hduty hr, Task.dutyFor_none hduty₁]
  | decrementLast ptr hexits hduty hduty₁ hlast =>
    refine access_of_update hexits ?_ (fun r hr => ?_) r
    · rw [Task.dutyFor_self hduty₁]
      exact .decrementLast (Task.dutyFor_self hduty) hlast
    · rw [Task.dutyFor_of_ne hduty hr, Task.dutyFor_of_ne hduty₁ hr]
  | free ptr hexits hduty hduty₁ =>
    refine access_of_update hexits ?_ (fun r hr => ?_) r
    · rw [Task.dutyFor_none hduty₁]
      exact .free (Task.dutyFor_self hduty)
    · rw [Task.dutyFor_of_ne hduty hr, Task.dutyFor_none hduty₁]
  | load ptr hlive hexits hduty hduty₁ =>
    refine access_of_update hexits ?_ (fun r hr => ?_) r
    · rw [Task.dutyFor_none hduty₁]
      exact .load hlive (Task.dutyFor_none hduty)
    · rw [Task.dutyFor_none hduty, Task.dutyFor_none hduty₁]
  | drop ptr hlive hexits hduty hduty₁ =>
    by_cases hlast : (c.shared.exits ptr).refCount = 1
    · rw [if_pos hlast] at hduty₁
      refine access_of_update hexits ?_ (fun r hr => ?_) r
      · rw [Task.dutyFor_self hduty₁]
        exact .dropLast hlive (Task.dutyFor_none hduty) hlast
      · rw [Task.dutyFor_none hduty, Task.dutyFor_of_ne hduty₁ hr]
    · rw [if_neg hlast] at hduty₁
      refine access_of_update hexits ?_ (fun r hr => ?_) r
      · rw [Task.dutyFor_none hduty₁]
        exact .drop hlive (Task.dutyFor_none hduty) hlast
      · rw [Task.dutyFor_none hduty, Task.dutyFor_none hduty₁]

/-! ### The count and the code -/

namespace ExitState

variable (e : ExitState)

/-- How many references have been released. -/
def released : ℕ := e.decrements + e.dropped.toNat

/-- The last code that has been stored. -/
def lastCode : ℕ :=
  match e.signals with
  | [] => 0
  | (_, code) :: _ => code

end ExitState

/-- The two words of an `exit_state` say what has happened to it. -/
structure Booked (e : ExitState) : Prop where
  count : e.refCount = 2 - BitVec.ofNat 32 e.released
  code : e.exitCode = e.lastCode

theorem Booked.new : Booked .new := ⟨by decide, rfl⟩

theorem sub_released (n : ℕ) : 2 - BitVec.ofNat 32 n - 1 = 2 - BitVec.ofNat 32 (n + 1) := by
  rw [BitVec.ofNat_add]
  bv_omega

variable {live cleanup : Bool} {e e₁ : ExitState} {d d₁ : Option Duty}

theorem Booked.step (h : Booked e) (ha : Access live cleanup e d e₁ d₁)
    (hlive : live = true → e.dropped = false) : Booked e₁ := by
  have hdec : Booked e.decrement := by
    refine ⟨?_, h.code⟩
    show e.refCount - 1 = 2 - BitVec.ofNat 32 (e.decrements + 1 + e.dropped.toNat)
    rw [h.count, sub_released, ExitState.released, Nat.add_right_comm]
  have hdrop : live = true → Booked e.dropHandle := by
    intro hl
    refine ⟨?_, h.code⟩
    show e.refCount - 1 = 2 - BitVec.ofNat 32 (e.decrements + 1)
    rw [h.count, sub_released, ExitState.released, hlive hl]
    rfl
  cases ha with
  | frame => exact h
  | begin src code hd => exact ⟨h.count, h.code⟩
  | signal src code hd => exact ⟨h.count, rfl⟩
  | decrement hd hlast => exact hdec
  | decrementLast hd hlast => exact hdec
  | free hd => exact ⟨h.count, h.code⟩
  | load hl hd => exact ⟨h.count, h.code⟩
  | drop hl hd hlast => exact hdrop hl
  | dropLast hl hd hlast => exact hdrop hl

theorem Booked.last_iff (h : Booked e) (hle : e.released ≤ 2) : e.refCount = 1 ↔ e.released = 1 := by
  rw [h.count]
  generalize e.released = n at hle ⊢
  constructor
  · intro hn
    by_contra hne
    have : n = 0 ∨ n = 2 := by omega
    rcases this with rfl | rfl
    · exact absurd hn (by decide)
    · exact absurd hn (by decide)
  · rintro rfl
    decide

/-! ### The worker side -/

/-- The context is not about to release the reference of the worker side. -/
def Off (d : Option Duty) : Prop := d = none ∨ d = some .free

/-- How far the worker side is with the release of its reference; `D` are the duties of the contexts. -/
inductive Side (e : ExitState) (D : κ → Option Duty) : Prop where
  /-- It has not begun. -/
  | idle (hbegun : e.begun = 0) (hsignals : e.signals = []) (hdecrements : e.decrements = 0)
      (hoff : ∀ y, Off (D y))
  | signalling (y : κ) (src : Option ℕ) (code : ℕ) (hduty : D y = some (.signal src code))
      (hbegun : e.begun = 1) (hsignals : e.signals = []) (hdecrements : e.decrements = 0)
      (hoff : ∀ z, z ≠ y → Off (D z))
  | decrementing (y : κ) (src : Option ℕ) (code : ℕ) (hduty : D y = some .decrement)
      (hbegun : e.begun = 1) (hsignals : e.signals = [(src, code)]) (hdecrements : e.decrements = 0)
      (hoff : ∀ z, z ≠ y → Off (D z))
  /-- It is done. -/
  | released (src : Option ℕ) (code : ℕ) (hbegun : e.begun = 1) (hsignals : e.signals = [(src, code)])
      (hdecrements : e.decrements = 1) (hoff : ∀ y, Off (D y))

namespace Side

variable {D : κ → Option Duty} {y : κ}

theorem decrements_le (h : Side e D) : e.decrements ≤ 1 := by
  cases h with
  | idle _ _ hd | signalling _ _ _ _ _ _ hd | decrementing _ _ _ _ _ _ hd => rw [hd]; exact Nat.zero_le _
  | released _ _ _ _ hd => exact Nat.le_of_eq hd

theorem signals_le (h : Side e D) : e.signals.length ≤ 1 := by
  cases h with
  | idle _ hs | signalling _ _ _ _ _ hs => rw [hs]; exact Nat.zero_le _
  | decrementing _ _ _ _ _ hs | released _ _ _ hs => exact Nat.le_of_eq (congrArg List.length hs)

theorem of_on (h : Side e D) (hy : ¬Off (D y)) :
    e.begun = 1 ∧ e.decrements = 0 ∧ (∀ z, z ≠ y → Off (D z)) ∧
      ((∃ src code, D y = some (.signal src code) ∧ e.signals = []) ∨
        ∃ src code, D y = some .decrement ∧ e.signals = [(src, code)]) := by
  have hself : ∀ z, (∀ w, w ≠ z → Off (D w)) → y = z := by
    intro z hoff
    by_contra hne
    exact hy (hoff y hne)
  cases h with
  | idle hbegun hsignals hdecrements hoff => exact absurd (hoff y) hy
  | signalling z src code hduty hbegun hsignals hdecrements hoff =>
    obtain rfl := hself z hoff
    exact ⟨hbegun, hdecrements, hoff, .inl ⟨src, code, hduty, hsignals⟩⟩
  | decrementing z src code hduty hbegun hsignals hdecrements hoff =>
    obtain rfl := hself z hoff
    exact ⟨hbegun, hdecrements, hoff, .inr ⟨src, code, hduty, hsignals⟩⟩
  | released src code hbegun hsignals hdecrements hoff => exact absurd (hoff y) hy

theorem of_signal (h : Side e D) {src : Option ℕ} {code : ℕ} (hy : D y = some (.signal src code)) :
    e.begun = 1 ∧ e.signals = [] ∧ e.decrements = 0 ∧ ∀ z, z ≠ y → Off (D z) := by
  have hon : ¬Off (D y) := by
    rw [hy]
    rintro (h | h) <;> cases h
  obtain ⟨hbegun, hdecrements, hoff, ⟨_, _, -, hsignals⟩ | ⟨_, _, hduty, -⟩⟩ := h.of_on hon
  · exact ⟨hbegun, hsignals, hdecrements, hoff⟩
  · rw [hy] at hduty
    cases hduty

theorem of_decrement (h : Side e D) (hy : D y = some .decrement) :
    e.begun = 1 ∧ (∃ src code, e.signals = [(src, code)]) ∧ e.decrements = 0 ∧
      ∀ z, z ≠ y → Off (D z) := by
  have hon : ¬Off (D y) := by
    rw [hy]
    rintro (h | h) <;> cases h
  obtain ⟨hbegun, hdecrements, hoff, ⟨_, _, hduty, -⟩ | ⟨src, code, -, hsignals⟩⟩ := h.of_on hon
  · rw [hy] at hduty
    cases hduty
  · exact ⟨hbegun, ⟨src, code, hsignals⟩, hdecrements, hoff⟩

variable [DecidableEq κ]

theorem off_update {d : Option Duty} (hoff : ∀ z, z ≠ y → Off (D z)) (hd : Off d) (z : κ) :
    Off (Function.update D y d z) := by
  by_cases hz : z = y
  · subst hz
    rw [Function.update_self]
    exact hd
  · rw [Function.update_of_ne hz]
    exact hoff z hz

/-- A context that has nothing to do with the release does something else. -/
theorem frame {e' : ExitState} (h : Side e D) (hbegun : e'.begun = e.begun)
    (hsignals : e'.signals = e.signals) (hdecrements : e'.decrements = e.decrements)
    (hd : Off (D y)) (hd₁ : Off d₁) : Side e' (Function.update D y d₁) := by
  have hstay : ∀ z, ¬Off (D z) → Function.update D y d₁ z = D z := by
    intro z hz
    rw [Function.update_of_ne]
    rintro rfl
    exact hz hd
  have hoff' : ∀ w, (∀ z, z ≠ w → Off (D z)) → ∀ z, z ≠ w → Off (Function.update D y d₁ z) := by
    intro w hw z hz
    by_cases hzy : z = y
    · subst hzy
      rw [Function.update_self]
      exact hd₁
    · rw [Function.update_of_ne hzy]
      exact hw z hz
  cases h with
  | idle hb hs hdec hoff =>
    exact .idle (hbegun.trans hb) (hsignals.trans hs) (hdecrements.trans hdec)
      (off_update (fun z _ => hoff z) hd₁)
  | signalling w src code hduty hb hs hdec hoff =>
    refine .signalling w src code ?_ (hbegun.trans hb) (hsignals.trans hs) (hdecrements.trans hdec)
      (hoff' w hoff)
    rw [hstay w (by rw [hduty]; rintro (h | h) <;> cases h), hduty]
  | decrementing w src code hduty hb hs hdec hoff =>
    refine .decrementing w src code ?_ (hbegun.trans hb) (hsignals.trans hs) (hdecrements.trans hdec)
      (hoff' w hoff)
    rw [hstay w (by rw [hduty]; rintro (h | h) <;> cases h), hduty]
  | released src code hb hs hdec hoff =>
    exact .released src code (hbegun.trans hb) (hsignals.trans hs) (hdecrements.trans hdec)
      (off_update (fun z _ => hoff z) hd₁)

theorem step (h : Side e D) (ha : Access live cleanup e (D y) e₁ d₁) (hbegun : e₁.begun ≤ 1) :
    Side e₁ (Function.update D y d₁) := by
  have hstay : ∀ d, ∀ z, z ≠ y → Function.update D y d z = D z := fun d z hz =>
    Function.update_of_ne hz _ _
  cases ha with
  | frame =>
    rw [Function.update_eq_self]
    exact h
  | begin src code hd =>
    have hzero : e.begun = 0 := by
      have : e.begun + 1 ≤ 1 := hbegun
      omega
    cases h with
    | idle hb hs hdec hoff =>
      refine .signalling y src code (Function.update_self ..) (congrArg (· + 1) hb) hs hdec fun z hz => ?_
      rw [hstay _ z hz]
      exact hoff z
    | signalling _ _ _ _ hb | decrementing _ _ _ _ hb | released _ _ hb =>
      rw [hb] at hzero
      cases hzero
  | signal src code hd =>
    obtain ⟨hb, hs, hdec, hoff⟩ := h.of_signal hd
    refine .decrementing y src code (Function.update_self ..) hb (congrArg (_ :: ·) hs) hdec fun z hz => ?_
    rw [hstay _ z hz]
    exact hoff z hz
  | decrement hd hlast =>
    obtain ⟨hb, ⟨src, code, hs⟩, hdec, hoff⟩ := h.of_decrement hd
    exact .released src code hb hs (congrArg (· + 1) hdec) (off_update hoff (.inl rfl))
  | decrementLast hd hlast =>
    obtain ⟨hb, ⟨src, code, hs⟩, hdec, hoff⟩ := h.of_decrement hd
    exact .released src code hb hs (congrArg (· + 1) hdec) (off_update hoff (.inr rfl))
  | free hd => exact h.frame rfl rfl rfl (.inr hd) (.inl rfl)
  | load hl hd => exact h.frame rfl rfl rfl (.inl hd) (.inl rfl)
  | drop hl hd hlast => exact h.frame rfl rfl rfl (.inl hd) (.inl rfl)
  | dropLast hl hd hlast => exact h.frame rfl rfl rfl (.inl hd) (.inr rfl)

end Side

/-! ### The memory -/

/-- Where the memory is. -/
inductive Memory (e : ExitState) (D : κ → Option Duty) : Prop where
  | allocated (hfrees : e.frees = 0) (hkeep : ∀ y, D y ≠ some .free)
  /-- Context `y` is about to free it, and both references have been released. -/
  | freeing (y : κ) (hduty : D y = some .free) (hfrees : e.frees = 0) (hdecrements : e.decrements = 1)
      (hdropped : e.dropped = true) (hkeep : ∀ z, z ≠ y → D z ≠ some .free)
  | freed (hfrees : e.frees = 1) (hdecrements : e.decrements = 1) (hdropped : e.dropped = true)
      (hkeep : ∀ y, D y ≠ some .free)

namespace Memory

variable {D : κ → Option Duty} {y : κ}

theorem allocated_of (h : Memory e D) (hheld : e.decrements = 0 ∨ e.dropped = false) :
    e.frees = 0 ∧ ∀ y, D y ≠ some .free := by
  cases h with
  | allocated hfrees hkeep => exact ⟨hfrees, hkeep⟩
  | freeing y hduty hfrees hdecrements hdropped hkeep =>
    rw [hdecrements, hdropped] at hheld
    rcases hheld with hheld | hheld <;> cases hheld
  | freed hfrees hdecrements hdropped hkeep =>
    rw [hdecrements, hdropped] at hheld
    rcases hheld with hheld | hheld <;> cases hheld

theorem of_free (h : Memory e D) (hy : D y = some .free) :
    e.frees = 0 ∧ e.decrements = 1 ∧ e.dropped = true ∧ ∀ z, z ≠ y → D z ≠ some .free := by
  cases h with
  | allocated hfrees hkeep => exact absurd hy (hkeep y)
  | freeing z hduty hfrees hdecrements hdropped hkeep =>
    obtain rfl : y = z := by
      by_contra hne
      exact hkeep y hne hy
    exact ⟨hfrees, hdecrements, hdropped, hkeep⟩
  | freed hfrees hdecrements hdropped hkeep => exact absurd hy (hkeep y)

variable [DecidableEq κ]

theorem keep_update {d : Option Duty} (hkeep : ∀ z, z ≠ y → D z ≠ some .free) (hd : d ≠ some .free)
    (z : κ) : Function.update D y d z ≠ some .free := by
  by_cases hz : z = y
  · subst hz
    rw [Function.update_self]
    exact hd
  · rw [Function.update_of_ne hz]
    exact hkeep z hz

/-- A context that is not about to free it does something else. -/
theorem frame {e' : ExitState} (h : Memory e D) (hfrees : e'.frees = e.frees)
    (hdecrements : e'.decrements = e.decrements) (hdropped : e'.dropped = e.dropped)
    (hd : D y ≠ some .free) (hd₁ : d₁ ≠ some .free) : Memory e' (Function.update D y d₁) := by
  cases h with
  | allocated hf hkeep => exact .allocated (hfrees.trans hf) (keep_update (fun z _ => hkeep z) hd₁)
  | freeing w hduty hf hdec hdrop hkeep =>
    have hwy : w ≠ y := by
      rintro rfl
      exact hd hduty
    refine .freeing w ?_ (hfrees.trans hf) (hdecrements.trans hdec) (hdropped.trans hdrop) fun z hz => ?_
    · rw [Function.update_of_ne hwy, hduty]
    · by_cases hzy : z = y
      · subst hzy
        rw [Function.update_self]
        exact hd₁
      · rw [Function.update_of_ne hzy]
        exact hkeep z hz
  | freed hf hdec hdrop hkeep =>
    exact .freed (hfrees.trans hf) (hdecrements.trans hdec) (hdropped.trans hdrop)
      (keep_update (fun z _ => hkeep z) hd₁)

/-- The operations, once it is known how far the worker side is. -/
theorem step (h : Memory e D) (hS : Side e D) (hB : Booked e)
    (ha : Access live cleanup e (D y) e₁ d₁) (hlive : live = true → e.dropped = false) :
    Memory e₁ (Function.update D y d₁) := by
  have hlast : e.refCount = 1 ↔ e.decrements + e.dropped.toNat = 1 := by
    refine hB.last_iff ?_
    have hdec := hS.decrements_le
    have hdrop := Bool.toNat_le e.dropped
    unfold ExitState.released
    omega
  cases ha with
  | frame =>
    rw [Function.update_eq_self]
    exact h
  | begin src code hd => exact h.frame rfl rfl rfl (by rw [hd]; nofun) nofun
  | signal src code hd => exact h.frame rfl rfl rfl (by rw [hd]; nofun) nofun
  | decrement hd hnot =>
    obtain ⟨hfrees, hkeep⟩ := h.allocated_of (.inl (hS.of_decrement hd).2.2.1)
    exact .allocated hfrees (keep_update (fun z _ => hkeep z) nofun)
  | decrementLast hd hone =>
    -- the worker side drops the last reference, so the `JoinHandle` has been dropped
    have hdec := (hS.of_decrement hd).2.2.1
    obtain ⟨hfrees, hkeep⟩ := h.allocated_of (.inl hdec)
    have hdropped : e.dropped = true := by
      rw [hlast, hdec, Nat.zero_add] at hone
      cases hdr : e.dropped with
      | true => rfl
      | false =>
        rw [hdr] at hone
        cases hone
    refine .freeing y (Function.update_self ..) hfrees (congrArg (· + 1) hdec) hdropped fun z hz => ?_
    rw [Function.update_of_ne hz]
    exact hkeep z
  | free hd =>
    obtain ⟨hfrees, hdec, hdropped, hkeep⟩ := h.of_free hd
    exact .freed (congrArg (· + 1) hfrees) hdec hdropped (keep_update hkeep nofun)
  | load hl hd => exact h.frame rfl rfl rfl (by rw [hd]; nofun) nofun
  | drop hl hd hnot =>
    obtain ⟨hfrees, hkeep⟩ := h.allocated_of (.inr (hlive hl))
    exact .allocated hfrees (keep_update (fun z _ => hkeep z) nofun)
  | dropLast hl hd hone =>
    -- the `JoinHandle` is the last reference, so the worker side has released its own
    have hdropped := hlive hl
    obtain ⟨hfrees, hkeep⟩ := h.allocated_of (.inr hdropped)
    have hdec : e.decrements = 1 := by
      rw [hlast, hdropped] at hone
      exact hone
    refine .freeing y (Function.update_self ..) hfrees hdec rfl fun z hz => ?_
    rw [Function.update_of_ne hz]
    exact hkeep z

end Memory

/-! ### Everything together -/

/-- What should hold of an `exit_state`, whose duties are `D`. -/
structure Life (e : ExitState) (D : κ → Option Duty) : Prop where
  side : Side e D
  memory : Memory e D
  late : e.late = false
  changed : e.changed = false

theorem Life.new (D : κ → Option Duty) (hD : ∀ y, D y = none) : Life .new D where
  side := .idle rfl rfl rfl fun y => .inl (hD y)
  memory := .allocated rfl fun y => by rw [hD]; nofun
  late := rfl
  changed := rfl

theorem late_touch (hlate : e.late = false) (hfrees : e.frees = 0) : e.touch.late = false := by
  simp [ExitState.touch, hlate, hfrees]

/-- **The lifetime of an `exit_state`**, as long as the worker side begins once. -/
theorem Life.step [DecidableEq κ] {D : κ → Option Duty} {y : κ} (h : Life e D) (hB : Booked e)
    (ha : Access live cleanup e (D y) e₁ d₁) (hlive : live = true → e.dropped = false)
    (hbegun : e₁.begun ≤ 1) : Life e₁ (Function.update D y d₁) := by
  refine ⟨h.side.step ha hbegun, h.memory.step h.side hB ha hlive, ?_, ?_⟩
  · cases ha with
    | frame | begin | free => exact h.late
    | signal src code hd =>
      exact late_touch h.late (h.memory.allocated_of (.inl (h.side.of_signal hd).2.2.1)).1
    | decrement hd hnot =>
      exact late_touch h.late (h.memory.allocated_of (.inl (h.side.of_decrement hd).2.2.1)).1
    | decrementLast hd hone =>
      exact late_touch h.late (h.memory.allocated_of (.inl (h.side.of_decrement hd).2.2.1)).1
    | load hl hd => exact late_touch h.late (h.memory.allocated_of (.inr (hlive hl))).1
    | drop hl hd hnot => exact late_touch h.late (h.memory.allocated_of (.inr (hlive hl))).1
    | dropLast hl hd hone => exact late_touch h.late (h.memory.allocated_of (.inr (hlive hl))).1
  · cases ha with
    | signal src code hd =>
      -- there is no code before the first signal
      have hzero : e.exitCode = 0 := by
        rw [hB.code, ExitState.lastCode, (h.side.of_signal hd).2.1]
      simp [ExitState.signal, h.changed, hzero]
    | frame | begin | decrement | decrementLast | free | load | drop | dropLast => exact h.changed

/-! ### The last reference -/

/-- When both references have been released, the memory has been freed or a context is about to. -/
def Cleared (e : ExitState) (D : κ → Option Duty) : Prop :=
  2 ≤ e.released → 0 < e.frees ∨ ∃ y, D y = some .free

/-- **The memory is freed** as long as the decrement that finds the last reference is in a context that can
free it. -/
theorem Cleared.step [DecidableEq κ] {D : κ → Option Duty} {y : κ} (h : Cleared e D) (hB : Booked e)
    (ha : Access live cleanup e (D y) e₁ d₁)
    (hcleanup : D y = some .decrement → e.refCount = 1 → cleanup = true) :
    Cleared e₁ (Function.update D y d₁) := by
  -- a context that is not about to free it, and does not find the last reference
  have hframe : D y ≠ some .free → 2 ≤ e.released →
      0 < e.frees ∨ ∃ z, Function.update D y d₁ z = some .free := by
    intro hd hboth
    rcases h hboth with hfrees | ⟨z, hz⟩
    · exact .inl hfrees
    · refine .inr ⟨z, ?_⟩
      rw [Function.update_of_ne, hz]
      rintro rfl
      exact hd hz
  have hlast : ¬2 ≤ e.released → 2 ≤ e.released + 1 → e.refCount = 1 :=
    fun hlt hle => (hB.last_iff (by omega)).2 (by omega)
  have hself : d₁ = some .free → ∃ z, Function.update D y d₁ z = some .free :=
    fun hd => ⟨y, by rw [Function.update_self, hd]⟩
  intro hboth
  cases ha with
  | frame =>
    rw [Function.update_eq_self]
    exact h hboth
  | begin src code hd => exact hframe (by rw [hd]; nofun) hboth
  | signal src code hd => exact hframe (by rw [hd]; nofun) hboth
  | decrement hd hnot =>
    have hboth : 2 ≤ e.decrements + 1 + e.dropped.toNat := hboth
    by_cases hbefore : 2 ≤ e.released
    · exact hframe (by rw [hd]; nofun) hbefore
    · have hone := hlast hbefore (by unfold ExitState.released; omega)
      exact absurd ⟨hone, hcleanup hd hone⟩ hnot
  | decrementLast hd hone => exact .inr (hself rfl)
  | free hd => exact .inl (Nat.succ_pos _)
  | load hl hd => exact hframe (by rw [hd]; nofun) hboth
  | drop hl hd hnot =>
    have hboth : 2 ≤ e.decrements + 1 := hboth
    by_cases hbefore : 2 ≤ e.released
    · exact hframe (by rw [hd]; nofun) hbefore
    · refine absurd (hlast hbefore ?_) hnot
      unfold ExitState.released
      omega
  | dropLast hl hd hone => exact .inr (hself rfl)

end Worker

end WasmSafeThread
