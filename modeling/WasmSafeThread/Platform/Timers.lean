import WasmSafeThread.Platform.Basic
import Mathlib.Algebra.Order.Group.Nat

/-!
# Timers on the platform

A timer thread reads the clock, sleeps for what is left to its deadline and sends.  It takes the
word of `sleep` that this time has passed.

* `Platform.InOrder` : the continuations that exist, and who has sent on them.
* `Platform.Due` : a timer will not have sent before the clock reaches a time.
* `Platform.short` : the timer whose sleep an event cuts short, which the native backend never does
  (`short_native`); `sleep_wasm_lt_iff` says for which times the wasm backend does.
* `Platform.Later` : what a platform keeps of an earlier one, but for the promise of a timer whose
  sleep was cut short; `apply_later` shows it for every event.
-/

namespace WasmSafeThread

theorem asF64_of_lt {n : ℕ} (h : n < 2 ^ 53) : asF64 n = n := by
  have hlog : n.log2 - 52 = 0 := by
    by_cases hn : n = 0
    · subst hn
      rfl
    · have := (Nat.log2_lt hn).2 h
      omega
  simp [asF64, hlog, Nat.mod_one]

example : asF64 9007199254740993 = 9007199254740992 ∧ asF64 9007199254740995 = 9007199254740996 := by
  decide

/-- Up to the precision of an `f64` the wasm backend drops the fraction of a millisecond. -/
theorem Backend.sleep_wasm_lt_iff {dur : ℕ} (h : dur / 1000000 < 2 ^ 53) :
    Backend.wasm.sleep dur < dur ↔ ¬ 1000000 ∣ dur := by
  rw [Backend.sleep, asF64_of_lt h]
  omega

/-- What a timer thread passes to `sleep` if it reads the clock now. -/
def Timer.left (clock : ℕ) : Timer → ℕ
  | .spawned deadline => deadline - clock
  | _ => 0

namespace Platform

variable {ι : Type*}

/-- Continuations are numbered as they are created, and the sender of a timer is its own. -/
structure InOrder (p : Platform ι) : Prop where
  timer_lt : ∀ t, p.timer t ≠ .off → t < p.conts
  sent_lt : ∀ t, p.sent t = true → t < p.conts
  sent_done : ∀ t, p.sent t = true → p.timer t = .off ∨ p.timer t = .done

/-- Timer `t` does not send before the clock reaches `d`. -/
def Due (p : Platform ι) (t d : ℕ) : Prop :=
  match p.timer t with
  | .off => False
  | .spawned deadline => d ≤ deadline
  | .asleep wake => d ≤ wake
  | .done => d ≤ p.clock

/-- The timer whose sleep the event cuts short: it reads the clock, and its backend sleeps for less
than what is left to its deadline. -/
def short (p : Platform ι) : Event ι → Option ℕ
  | .timer t =>
    let left := (p.timer t).left p.clock
    if p.backend.sleep left < left then some t else none
  | _ => none

/-- What `p'` keeps of an earlier platform `p`; timer `cut`, if any, breaks its promise. -/
structure Later (cut : Option ℕ) (p p' : Platform ι) : Prop where
  clock : p.clock ≤ p'.clock
  due : ∀ t d, cut ≠ some t → p.Due t d → p'.Due t d
  free : ∀ w, p.free w = true → p'.free w = true

variable {p p' : Platform ι} {t d : ℕ} {cut : Option ℕ}

theorem short_native (h : p.backend = .native) (e : Event ι) : p.short e = none := by
  cases e <;> simp [short, h, Backend.sleep]

theorem Later.refl : Later cut p p := ⟨Nat.le_refl _, fun _ _ _ => id, fun _ => id⟩

theorem Later.of_eq (hclock : p'.clock = p.clock) (htimer : p'.timer = p.timer)
    (hconts : p.conts ≤ p'.conts) : Later cut p p' := by
  refine ⟨hclock.ge, fun t d _ h => ?_, fun w h => ?_⟩
  · simpa only [Due, htimer, hclock] using h
  · cases w with
    | unpark => rfl
    | send c =>
      simp only [Platform.free, htimer, decide_eq_true_eq] at h ⊢
      exact ⟨h.1.trans_le hconts, h.2⟩

theorem Due.le_of_sent (h : p.Due t d) (hp : p.InOrder) (hsent : p.sent t = true) : d ≤ p.clock := by
  rcases hp.sent_done t hsent with ht | ht
  · simp only [Due, ht] at h
  · simpa only [Due, ht] using h

variable [DecidableEq ι]

/-! ### What happens to the platform -/

theorem apply_backend {e : Event ι} (h : p.apply e = some p') : p'.backend = p.backend := by
  cases e with
  | tick | alloc | spawn => cases h; rfl
  | wake w =>
    simp only [apply] at h
    split at h <;> cases h
    cases w <;> rfl
  | timer t =>
    simp only [apply, runTimer] at h
    split at h
    · cases h
    · cases h
    · split at h <;> cases h <;> rfl
    · split at h <;> cases h
      rfl

omit [DecidableEq ι] in
theorem InOrder.new {b : Backend} : (new b : Platform ι).InOrder :=
  ⟨fun _ h => absurd rfl h, nofun, nofun⟩

theorem InOrder.consume (h : p.InOrder) (i : ι) : (p.consume i).InOrder :=
  ⟨h.timer_lt, h.sent_lt, h.sent_done⟩

omit [DecidableEq ι] in
theorem InOrder.alloc (h : p.InOrder) : p.alloc.InOrder :=
  ⟨fun t ht => Nat.lt_succ_of_lt (h.timer_lt t ht), fun t ht => Nat.lt_succ_of_lt (h.sent_lt t ht),
    h.sent_done⟩

omit [DecidableEq ι] in
theorem InOrder.register (h : p.InOrder) (w : Way) : (p.register w).InOrder := by
  cases w
  · exact h
  · exact h.alloc

omit [DecidableEq ι] in
theorem InOrder.timer_conts (h : p.InOrder) : p.timer p.conts = .off := by
  by_contra ht
  exact absurd (h.timer_lt _ ht) (Nat.lt_irrefl _)

omit [DecidableEq ι] in
theorem InOrder.spawn (h : p.InOrder) (deadline : ℕ) : (p.spawn deadline).InOrder := by
  refine ⟨fun t ht => ?_, fun t ht => Nat.lt_succ_of_lt (h.sent_lt t ht), fun t ht => ?_⟩
  · by_cases htc : t = p.conts
    · exact htc ▸ Nat.lt_succ_self _
    · exact Nat.lt_succ_of_lt (h.timer_lt t (by simpa [Platform.spawn, htc] using ht))
  · have htc : t ≠ p.conts := (h.sent_lt t ht).ne
    simpa [Platform.spawn, htc] using h.sent_done t ht

theorem InOrder.wake (h : p.InOrder) {w : Wake ι} (hw : p.free w = true) : (p.wake w).InOrder := by
  cases w with
  | unpark i => exact ⟨h.timer_lt, h.sent_lt, h.sent_done⟩
  | send c =>
    simp only [free, decide_eq_true_eq] at hw
    refine ⟨h.timer_lt, fun t ht => ?_, fun t ht => ?_⟩ <;> by_cases htc : t = c
    · exact htc ▸ hw.1
    · exact h.sent_lt t (by simpa [Platform.wake, htc] using ht)
    · exact .inl (htc ▸ hw.2)
    · exact h.sent_done t (by simpa [Platform.wake, htc] using ht)

omit [DecidableEq ι] in
theorem InOrder.fire (h : p.InOrder) (ht : p.timer t ≠ .off) : (p.fire t).InOrder := by
  refine ⟨fun t' ht' => ?_, fun t' ht' => ?_, fun t' ht' => ?_⟩ <;> by_cases htt : t' = t
  · exact htt ▸ h.timer_lt t ht
  · exact h.timer_lt t' (by simpa [Platform.fire, htt] using ht')
  · exact htt ▸ h.timer_lt t ht
  · exact h.sent_lt t' (by simpa [Platform.fire, htt] using ht')
  · exact .inr (by simp [Platform.fire, htt])
  · simpa [Platform.fire, htt] using h.sent_done t' (by simpa [Platform.fire, htt] using ht')

theorem Later.consume (i : ι) : Later cut p (p.consume i) := .of_eq rfl rfl (Nat.le_refl _)

omit [DecidableEq ι] in
theorem Later.register (w : Way) : Later cut p (p.register w) := by
  cases w
  · exact .refl
  · exact .of_eq rfl rfl (Nat.le_succ _)

theorem Later.wake (w : Wake ι) : Later cut p (p.wake w) := by
  cases w <;> exact .of_eq rfl rfl (Nat.le_refl _)

omit [DecidableEq ι] in
/-- A timer that is changed keeps its promise if it is not cut short, and was no free continuation. -/
theorem Later.set_timer (hclock : p.clock ≤ p'.clock) (hconts : p.conts ≤ p'.conts) {t : ℕ}
    (htimer : ∀ t', t' ≠ t → p'.timer t' = p.timer t')
    (hdue : cut ≠ some t → ∀ d, p.Due t d → p'.Due t d)
    (hfree : p.conts ≤ t ∨ p.timer t ≠ .off) : Later cut p p' := by
  refine ⟨hclock, fun t' d hcut h => ?_, fun w h => ?_⟩
  · by_cases htt : t' = t
    · subst htt
      exact hdue hcut d h
    · simp only [Due, htimer t' htt] at h ⊢
      split at h
      · exact h
      · exact h
      · exact h
      · exact h.trans hclock
  · cases w with
    | unpark => rfl
    | send c =>
      simp only [Platform.free, decide_eq_true_eq] at h ⊢
      have hct : c ≠ t := by
        rintro rfl
        rcases hfree with hle | hne
        · exact absurd h.1 (Nat.not_lt.2 hle)
        · exact hne h.2
      exact ⟨h.1.trans_le hconts, (htimer c hct).trans h.2⟩

omit [DecidableEq ι] in
theorem Later.spawn (hp : p.InOrder) (deadline : ℕ) : Later cut p (p.spawn deadline) := by
  refine .set_timer (t := p.conts) (Nat.le_refl _) (Nat.le_succ _) (fun t' ht => ?_) (fun _ d h => ?_)
    (.inl (Nat.le_refl _))
  · simp [Platform.spawn, ht]
  · simp only [Due, hp.timer_conts] at h

omit [DecidableEq ι] in
theorem Later.fire {wake : ℕ} (hwake : wake ≤ p.clock) (ht : p.timer t ≠ .off)
    (hdue : ∀ d, p.Due t d → d ≤ wake ∨ d ≤ p.clock) : Later cut p (p.fire t) := by
  refine .set_timer (t := t) (Nat.le_refl _) (Nat.le_refl _) (fun t' htt => ?_) (fun _ d h => ?_) (.inr ht)
  · simp [Platform.fire, htt]
  · have hd : d ≤ p.clock := (hdue d h).elim (fun hd => hd.trans hwake) id
    simpa [Due, Platform.fire] using hd

omit [DecidableEq ι] in
/-- **A timer whose sleep is not cut short keeps its promise.** -/
theorem runTimer_later (h : p.runTimer t = some p') : Later (p.short (.timer t)) p p' := by
  cases ht : p.timer t with
  | off | done => simp [runTimer, ht] at h
  | spawned deadline =>
    have hoff : p.timer t ≠ .off := by rw [ht]; exact nofun
    simp only [runTimer, ht] at h
    split at h <;> rename_i hlt <;> cases h
    · refine .set_timer (t := t) (Nat.le_refl _) (Nat.le_refl _) (fun t' htt => ?_) (fun hcut d hd => ?_)
        (.inr hoff)
      · simp [htt]
      · have hsleep : deadline - p.clock ≤ p.backend.sleep (deadline - p.clock) := by
          simpa [short, ht, Timer.left] using hcut
        simp only [Due, ht] at hd
        simp only [Due, Function.update_self]
        omega
    · exact .fire (Nat.not_lt.1 hlt) hoff fun d hd => .inl (by simpa [Due, ht] using hd)
  | asleep wake =>
    simp only [runTimer, ht] at h
    split at h <;> rename_i hle <;> cases h
    exact .fire hle (by rw [ht]; exact nofun) fun d hd => .inl (by simpa [Due, ht] using hd)

omit [DecidableEq ι] in
theorem InOrder.runTimer (hp : p.InOrder) (h : p.runTimer t = some p') : p'.InOrder := by
  cases ht : p.timer t with
  | off | done => simp [Platform.runTimer, ht] at h
  | spawned deadline =>
    simp only [Platform.runTimer, ht] at h
    split at h <;> cases h
    · have hoff : p.timer t ≠ .off := by rw [ht]; exact nofun
      refine ⟨fun t' ht' => ?_, hp.sent_lt, fun t' ht' => ?_⟩ <;> by_cases htt : t' = t
      · exact htt ▸ hp.timer_lt t hoff
      · exact hp.timer_lt t' (by simpa [htt] using ht')
      · -- who has not sent yet has not sent
        rcases hp.sent_done t (htt ▸ ht') with hs | hs <;> rw [ht] at hs <;> cases hs
      · simpa [htt] using hp.sent_done t' ht'
    · exact hp.fire (by rw [ht]; exact nofun)
  | asleep wake =>
    simp only [Platform.runTimer, ht] at h
    split at h <;> cases h
    exact hp.fire (by rw [ht]; exact nofun)

theorem InOrder.apply (hp : p.InOrder) {e : Event ι} (h : p.apply e = some p') : p'.InOrder := by
  cases e with
  | tick n => cases h; exact ⟨hp.timer_lt, hp.sent_lt, hp.sent_done⟩
  | wake w =>
    simp only [Platform.apply] at h
    split at h <;> cases h
    exact hp.wake ‹_›
  | alloc => cases h; exact hp.alloc
  | spawn deadline => cases h; exact hp.spawn deadline
  | timer t => exact hp.runTimer h

theorem apply_later (hp : p.InOrder) {e : Event ι} (h : p.apply e = some p') :
    Later (p.short e) p p' := by
  cases e with
  | tick n =>
    cases h
    refine ⟨Nat.le_add_right _ _, fun t d _ hd => ?_, fun w hw => hw⟩
    simp only [Due] at hd ⊢
    split at hd
    · exact hd
    · exact hd
    · exact hd
    · exact hd.trans (Nat.le_add_right _ _)
  | wake w =>
    simp only [Platform.apply] at h
    split at h <;> cases h
    exact .wake w
  | alloc => cases h; exact .of_eq rfl rfl (Nat.le_succ _)
  | spawn deadline => cases h; exact .spawn hp deadline
  | timer t => exact runTimer_later h

end Platform

end WasmSafeThread
