import WasmSafeThread.Agents.History
import WasmSafeThread.Condvar.Waiting
import WasmSafeThread.Mutex.Deadlines

/-!
# Deadlines of acquisitions and waits

When a timed operation gives up, in a run of the condition variable and its mutex.

* `Deadlines` : which calls the agents made, with which deadlines, and whether the sleep of the timer
  thread that a call waits for was cut short.
* `never_early` : no timed operation gives up before its deadline, unless it takes the word of a timer
  thread whose sleep was cut short.
* `early_timeout` : a run with such a sleep, in which `lock_async_timeout` returns `None` before its
  deadline.
-/

namespace WasmSafeThread

namespace Condvar

variable {ι R D : Type*}

/-- The timer whose word a wait would take. -/
def Pc.timer : Pc ι → Option ℕ
  | .drop (.asyncTimeout t) _ | .dropping (.asyncTimeout t) _ | .race _ t | .raceTimeout _ t => some t
  | _ => none

namespace Local

/-- The call in progress would take the word of timer `t`. -/
def awaits (l : Local ι R) (t : ℕ) : Bool := decide (l.pc.timer = some t ∨ l.mx.pc.timer = some t)

/-- The agent is at the top of the loop of a timed acquisition, and in no wait: it waits for none of
the timers that it had so far. -/
def renews (l : Local ι R) : Bool :=
  match l.pc, l.mx.pc with
  | .ready, .lockNow _ _ => true
  | _, _ => false

end Local

/-- What each agent called: the acquisition that it called last, unless it waited since, and the wait
that it called last, with its deadline.  `cut` says that the sleep of the timer thread for which the
call waits, or took its word, was cut short. -/
structure Deadlines (ι : Type*) where
  lock : ι → Option Mutex.Op
  wait : ι → Option (Kind × Option ℕ)
  cut : ι → Bool

variable [DecidableEq ι]

namespace Deadlines

/-- Nothing was called. -/
def new : Deadlines ι := ⟨fun _ => none, fun _ => none, fun _ => false⟩

/-- The sleep of timer `t` is cut short. -/
def short (c : Config ι (Shared ι R D) (Local ι R)) (h : Deadlines ι) : Option ℕ → Deadlines ι
  | some t => { h with cut := fun i => h.cut i || (c.loc i).awaits t }
  | none => h

/-- The calls of a run, and the sleeps that are cut short. -/
def note (c : Config ι (Shared ι R D) (Local ι R)) :
    Label ι (Act R D) (Event ι) → Deadlines ι → Deadlines ι
  | .agent i (.lock op), h =>
    { h with lock := Function.update h.lock i (some op), cut := Function.update h.cut i false }
  | .agent i (.wait k deadline), h =>
    ⟨Function.update h.lock i none, Function.update h.wait i (some (k, deadline)),
      Function.update h.cut i false⟩
  | .agent i .step, h =>
    { h with cut := Function.update h.cut i (h.cut i && !(c.loc i).renews) }
  | .env e, h => h.short c (c.shared.mx.plat.short e)
  | _, h => h

end Deadlines

/-- The deadline of the wait has passed, or it is a `wait_async_timeout` and the sleep of its timer was
cut short. -/
def Passed (p : Platform ι) (cut : Bool) (w : Option (Kind × Option ℕ)) : Prop :=
  ∃ k d, w = some (k, some d) ∧ (k = .async ∧ cut = true ∨ d ≤ p.clock)

/-- The wait is a `wait_async_timeout` with timer `t`, which is due at its deadline unless its sleep was
cut short. -/
def DueAt (p : Platform ι) (cut : Bool) (t : ℕ) (w : Option (Kind × Option ℕ)) : Prop :=
  ∃ d, w = some (.async, some d) ∧ (cut = true ∨ p.Due t d)

/-- How a wait can sleep. -/
def Sleep.Timely (p : Platform ι) (cut : Bool) (w : Option (Kind × Option ℕ)) : Sleep → Prop
  | .spin d => w = some (.spin, d)
  | .sync d => w = some (.sync, d)
  | .async => True
  | .asyncTimeout t => DueAt p cut t w

/-- The agent is where the wait that it called can be; a wait that has timed out has done so after its
deadline, unless the sleep of its timer was cut short. -/
def Pc.Timely (p : Platform ι) (cut : Bool) (w : Option (Kind × Option ℕ)) : Pc ι → Prop
  | .register k d => w = some (k, d)
  | .load d _ => w = some (.spin, d)
  | .loadNow d _ => w = some (.spin, some d)
  | .park d _ => w = some (.sync, d)
  | .parkNow d _ | .parkCheck d _ => w = some (.sync, some d)
  | .spawnTimer d _ => w = some (.async, some d)
  | .drop z _ | .dropping z _ => z.Timely p cut w
  | .loadLeave _ | .parkLeave _ | .raceLeave _ => Passed p cut w
  | .race _ t | .raceTimeout _ t => DueAt p cut t w
  | .relock _ timedOut | .relocking timedOut => timedOut = true → Passed p cut w
  | .ready | .loadNotified _ | .await _ | .notifyOne _ | .notifying _ _ _ => True

variable {i : ι} {a : Act R D} {s s₁ : Shared ι R D} {l l₁ : Local ι R} {p p' : Platform ι}
  {cut cut' : Bool} {w : Option (Kind × Option ℕ)} {short : Option ℕ} {pc : Pc ι}
  {c : Config ι (Shared ι R D) (Local ι R)}

omit [DecidableEq ι] in
theorem Passed.later (h : Passed p cut w) (hlater : p.Later short p')
    (hcut : cut = true → cut' = true) : Passed p' cut' w := by
  obtain ⟨k, d, hw, hd⟩ := h
  exact ⟨k, d, hw, hd.imp (And.imp_right hcut) fun hle => hle.trans hlater.clock⟩

omit [DecidableEq ι] in
theorem DueAt.later {t : ℕ} (h : DueAt p cut t w) (hlater : p.Later short p')
    (hcut : cut = true → cut' = true) (hshort : short = some t → cut' = true) :
    DueAt p' cut' t w := by
  obtain ⟨d, hw, hd⟩ := h
  refine ⟨d, hw, ?_⟩
  by_cases hs : short = some t
  · exact .inl (hshort hs)
  · exact hd.imp hcut (hlater.due t d hs)

omit [DecidableEq ι] in
theorem Pc.Timely.later (h : pc.Timely p cut w) (hlater : p.Later short p')
    (hcut : cut = true → cut' = true) (hshort : ∀ t, short = some t → pc.timer = some t → cut' = true) :
    pc.Timely p' cut' w := by
  cases pc with
  | drop z | dropping z =>
    cases z with
    | asyncTimeout t => exact DueAt.later h hlater hcut fun hs => hshort t hs rfl
    | _ => exact h
  | loadLeave | parkLeave | raceLeave => exact Passed.later h hlater hcut
  | race r t | raceTimeout r t => exact DueAt.later h hlater hcut fun hs => hshort t hs rfl
  | relock | relocking => exact fun ht => (h ht).later hlater hcut
  | _ => exact h

omit [DecidableEq ι] in
theorem registered_timely {k : Kind} {deadline : Option ℕ} {r : ℕ} (h : w = some (k, deadline)) :
    (registered r k deadline).Timely p cut w := by
  cases k <;> cases deadline <;> first | exact h | trivial

omit [DecidableEq ι] in
theorem Sleep.start_timely {z : Sleep} {r : ℕ} (h : z.Timely p cut w) :
    (z.start r).Timely p cut w := by
  rcases z with _ | (_ | _) | _ | _ <;> exact h

/-- A wait goes from where it can be to where it can be. -/
theorem advance_timely (hp : s.mx.plat.InOrder) (h : advance i s l = some (s₁, l₁))
    (hlater : s.mx.plat.Later none s₁.mx.plat) (ht : l.pc.Timely s.mx.plat cut w) :
    l₁.pc.Timely s₁.mx.plat cut w := by
  cases hpc : l.pc with
  | ready => simp [advance, hpc] at h
  | register k d =>
    rw [hpc] at ht
    simp only [advance, hpc] at h
    cases h
    exact registered_timely ht
  | spawnTimer d r =>
    rw [hpc] at ht
    simp only [advance, hpc] at h
    cases h
    exact ⟨d, ht, .inr (by simp [Platform.Due, Shared.setPlat, Mutex.Shared.setPlat, Platform.spawn])⟩
  | drop z r =>
    simp only [advance, hpc] at h
    rw [hpc] at ht
    obtain ⟨m, lm, -, rfl, rfl⟩ := lift_eq_some h
    have hdropping : (Pc.dropping z r).Timely s.mx.plat cut w := ht
    exact hdropping.later hlater id (by rintro _ ⟨⟩)
  | dropping z r =>
    rw [hpc] at ht
    simp only [advance, hpc] at h
    cases h
    exact Sleep.start_timely ht
  | load d r =>
    rw [hpc] at ht
    simp only [advance, hpc] at h
    split at h <;> cases h
    · rintro ⟨⟩
    · cases d <;> exact ht
  | loadNow d r | parkNow d r =>
    rw [hpc] at ht
    simp only [advance, hpc] at h
    cases h
    rw [Local.goto_pc]
    split
    · exact ⟨_, d, ht, .inr ‹_›⟩
    · exact ht
  | loadLeave r | parkLeave r =>
    rw [hpc] at ht
    simp only [advance, hpc] at h
    split at h <;> cases h
    · exact fun _ => ht
    · first | trivial | rintro ⟨⟩
  | loadNotified r =>
    simp only [advance, hpc] at h
    cases h
    rw [Local.goto_pc]
    split
    · rintro ⟨⟩
    · trivial
  | park d r =>
    rw [hpc] at ht
    simp only [advance, hpc] at h
    split at h
    · cases d <;> cases h
      · rintro ⟨⟩
      · exact ht
    · cases h
  | parkCheck d r =>
    rw [hpc] at ht
    simp only [advance, hpc] at h
    cases h
    rw [Local.goto_pc]
    split
    · exact ht
    · rintro ⟨⟩
  | await r =>
    simp only [advance, hpc] at h
    split at h <;> cases h
    rintro ⟨⟩
  | race r t =>
    rw [hpc] at ht
    simp only [advance, hpc] at h
    cases h
    rw [Local.goto_pc]
    split
    · rintro ⟨⟩
    · exact ht
  | raceTimeout r t =>
    rw [hpc] at ht
    simp only [advance, hpc] at h
    cases h
    rw [Local.goto_pc]
    split
    · -- the word of the timer thread
      obtain ⟨d, hw, hd⟩ := ht
      exact ⟨.async, d, hw, hd.imp (fun hcut => ⟨rfl, hcut⟩) fun hdue => hdue.le_of_sent hp ‹_›⟩
    · exact ht
  | raceLeave r =>
    rw [hpc] at ht
    simp only [advance, hpc] at h
    split at h <;> cases h <;> exact fun _ => ht
  | relock w timedOut =>
    rw [hpc] at ht
    cases w <;> simp only [advance, hpc] at h <;> obtain ⟨m, lm, -, rfl, rfl⟩ := lift_eq_some h <;>
      exact fun hb => (ht hb).later hlater id
  | relocking timedOut =>
    simp only [advance, hpc] at h
    split at h <;> cases h
    trivial
  | notifyOne k =>
    simp only [advance, hpc] at h
    split at h <;> cases h
    · trivial
    · cases k <;> trivial
  | notifying k pending rest =>
    rcases pending with _ | ⟨e, pending⟩
    · rcases rest with _ | ⟨k', rest⟩ <;> simp only [advance, hpc] at h <;> cases h <;> trivial
    · simp only [advance, hpc] at h
      cases h
      trivial

/-! ### One step -/

/-- A wait is started by a call, with its deadline, and ends with nothing that a deadline would not
allow. -/
theorem step_timely (hp : s.mx.plat.InOrder) (h : step i a s l = some (s₁, l₁))
    (ha : ∀ k d, a ≠ .wait k d) (hlater : s.mx.plat.Later none s₁.mx.plat)
    (ht : l.pc.Timely s.mx.plat cut w) : l₁.pc.Timely s₁.mx.plat cut w := by
  have hkeep : l.pc.Timely s₁.mx.plat cut w := ht.later hlater id (by rintro _ ⟨⟩)
  cases a with
  | wait k d => exact absurd rfl (ha k d)
  | lock | access | drop | consume =>
    simp only [step] at h
    split at h
    · obtain ⟨m, lm, -, rfl, rfl⟩ := lift_eq_some h
      trivial
    · cases h
  | notifyOne | notifyAll =>
    simp only [step] at h
    split at h <;> cases h
    trivial
  | step =>
    simp only [step] at h
    split at h
    · exact advance_timely hp h hlater ht
    · obtain ⟨m, lm, -, rfl, rfl⟩ := lift_eq_some h
      exact hkeep
  | spurious =>
    simp only [step] at h
    split at h
    · split at h <;> cases h <;> rename_i hpc <;> rw [hpc] at ht
      · rintro ⟨⟩
      · exact ht
    · obtain ⟨m, lm, -, rfl, rfl⟩ := lift_eq_some h
      exact hkeep
  | cancel =>
    simp only [step] at h
    split at h
    · split at h <;> cases h <;> trivial
    · obtain ⟨m, lm, -, rfl, rfl⟩ := lift_eq_some h
      trivial

omit [DecidableEq ι] in
theorem Pc.Timely.of_ready (h : pc = .ready) : pc.Timely p cut w := by
  subst h
  trivial

theorem step_lock {op : Mutex.Op} (h : step i (.lock op) s l = some (s₁, l₁)) :
    l₁.mx.pc = op.start ∧ l₁.pc = .ready := by
  simp only [step] at h
  split at h
  · obtain ⟨m, lm, hm, rfl, rfl⟩ := lift_eq_some h
    cases hp : l.mx.pc <;> simp only [Mutex.step, hp, reduceCtorEq] at hm <;> cases hm <;>
      exact ⟨rfl, rfl⟩
  · cases h

/-- What another operation does to the mutex: it goes on with an acquisition, it is an operation of a
wait, or it leaves the agent's activity on the mutex alone. -/
theorem step_calls (h : step i a s l = some (s₁, l₁)) (ha : ∀ op, a ≠ .lock op) :
    (∃ b, (∀ op, b ≠ .call op) ∧ Mutex.step i b s.mx l.mx = some (s₁.mx, l₁.mx)) ∨
    l.pc.inWait = true ∨ l₁.mx = l.mx := by
  cases a with
  | lock op => exact absurd rfl (ha op)
  | access | drop | consume =>
    simp only [step] at h
    split at h
    · obtain ⟨m, lm, hm, rfl, rfl⟩ := lift_eq_some h
      refine .inl ⟨_, ?_, hm⟩
      rintro _ ⟨⟩
    · cases h
  | wait | notifyOne | notifyAll =>
    simp only [step] at h
    split at h <;> cases h
    exact .inr (.inr rfl)
  | step =>
    simp only [step] at h
    split at h
    · cases hw : l.pc.inWait with
      | true => exact .inr (.inl rfl)
      | false => exact .inr (.inr (advance_notify hw h).2)
    · obtain ⟨m, lm, hm, rfl, rfl⟩ := lift_eq_some h
      refine .inl ⟨_, ?_, hm⟩
      rintro _ ⟨⟩
  | spurious | cancel =>
    simp only [step] at h
    split at h
    · split at h <;> cases h <;> exact .inr (.inr rfl)
    · obtain ⟨m, lm, hm, rfl, rfl⟩ := lift_eq_some h
      refine .inl ⟨_, ?_, hm⟩
      rintro _ ⟨⟩

/-- The platform after a step is as the mutex leaves it, or has one more timer or token. -/
inductive PlatformMove (i : ι) (s : Shared ι R D) (l : Local ι R) (s₁ : Shared ι R D)
    (l₁ : Local ι R) : Prop where
  | same (hplat : s₁.mx.plat = s.mx.plat)
  | mutex (b : Mutex.Act R D) (hm : Mutex.step i b s.mx l.mx = some (s₁.mx, l₁.mx))
  | spawn (d : ℕ) (hplat : s₁.mx.plat = s.mx.plat.spawn d)
  | unpark (j : ι) (hplat : s₁.mx.plat = s.mx.plat.wake (.unpark j))

theorem lift_platform {b : Mutex.Act R D} (h : lift i b s l pc = some (s₁, l₁)) :
    PlatformMove i s l s₁ l₁ := by
  obtain ⟨m, lm, hm, rfl, rfl⟩ := lift_eq_some h
  exact .mutex b hm

theorem advance_platform (hrest : l.mx.pc.atRest = true) (h : advance i s l = some (s₁, l₁)) :
    PlatformMove i s l s₁ l₁ := by
  cases hp : l.pc with
  | ready => simp [advance, hp] at h
  | register | dropping | loadNow | loadNotified | parkNow | parkCheck | race | raceTimeout =>
    simp only [advance, hp] at h
    cases h
    exact .same rfl
  | load | loadLeave | parkLeave | await | raceLeave | relocking | notifyOne =>
    simp only [advance, hp] at h
    split at h <;> cases h <;> exact .same rfl
  | spawnTimer d =>
    simp only [advance, hp] at h
    cases h
    exact .spawn d rfl
  | drop =>
    simp only [advance, hp] at h
    exact lift_platform h
  | park =>
    simp only [advance, hp] at h
    split at h <;> cases h
    exact .mutex .consume (by simp only [Mutex.step, if_pos hrest]; rfl)
  | relock w => cases w <;> simp only [advance, hp] at h <;> exact lift_platform h
  | notifying k pending rest =>
    rcases pending with _ | ⟨e, pending⟩
    · rcases rest with _ | ⟨k', rest⟩ <;> simp only [advance, hp] at h <;> cases h <;> exact .same rfl
    · simp only [advance, hp] at h
      cases h
      cases k with
      | sync => exact .unpark e.agent rfl
      | spin | async => exact .same rfl

theorem step_platform (h : step i a s l = some (s₁, l₁)) : PlatformMove i s l s₁ l₁ := by
  cases a with
  | lock | access | drop | consume =>
    simp only [step] at h
    split at h
    · exact lift_platform h
    · cases h
  | wait | notifyOne | notifyAll =>
    simp only [step] at h
    split at h <;> cases h
    exact .same rfl
  | step =>
    simp only [step] at h
    split at h
    · exact advance_platform ‹_› h
    · exact lift_platform h
  | spurious | cancel =>
    simp only [step] at h
    split at h
    · split at h <;> cases h <;> exact .same rfl
    · exact lift_platform h

theorem PlatformMove.backend (m : PlatformMove i s l s₁ l₁) :
    s₁.mx.plat.backend = s.mx.plat.backend := by
  cases m with
  | same hplat => rw [hplat]
  | spawn d hplat | unpark j hplat => rw [hplat]; rfl
  | mutex b hm => exact (Mutex.step_plat hm).backend

/-- An agent gets into a wait by calling it. -/
theorem step_inWait (h : step i a s l = some (s₁, l₁)) (ha : ∀ k d, a ≠ .wait k d)
    (hw : l₁.pc.inWait = true) : l.pc.inWait = true := by
  cases a with
  | wait k d => exact absurd rfl (ha k d)
  | lock | access | drop | consume =>
    simp only [step] at h
    split at h
    · obtain ⟨m, lm, -, rfl, rfl⟩ := lift_eq_some h
      cases hw
    · cases h
  | notifyOne | notifyAll =>
    simp only [step] at h
    split at h <;> cases h
    cases hw
  | step =>
    simp only [step] at h
    split at h
    · by_contra hout
      rw [(advance_notify (Bool.eq_false_of_not_eq_true hout) h).1] at hw
      cases hw
    · obtain ⟨m, lm, -, rfl, rfl⟩ := lift_eq_some h
      exact hw
  | spurious =>
    simp only [step] at h
    split at h
    · split at h <;> cases h <;> rename_i hp <;> rw [hp] <;> rfl
    · obtain ⟨m, lm, -, rfl, rfl⟩ := lift_eq_some h
      exact hw
  | cancel =>
    simp only [step] at h
    split at h
    · split at h <;> cases h <;> cases hw
    · obtain ⟨m, lm, -, rfl, rfl⟩ := lift_eq_some h
      cases hw

variable {backend : Backend} {canBlock : ι → Bool} {now : ℕ} {value : D} {regs : ι → R}

/-- A platform on which nothing has happened yet. -/
def boot (backend : Backend) (canBlock : ι → Bool) (now : ℕ) : Platform ι :=
  { Platform.new backend with canBlock := canBlock, clock := now }

theorem supplied (h : sys.Reachable (init (boot backend canBlock now) value regs) c) :
    Mutex.Supplied (toMutex.config c) := by
  have hboot : (boot backend canBlock now).InOrder := ⟨fun _ ht => absurd rfl ht, nofun, nofun⟩
  exact Mutex.supplied hboot (mutex_reachable h)

theorem step_later (h : step i a c.shared (c.loc i) = some (s₁, l₁))
    (hsup : Mutex.Supplied (toMutex.config c)) : c.shared.mx.plat.Later none s₁.mx.plat := by
  cases step_platform h with
  | same hplat => rw [hplat]; exact .refl
  | mutex b hm => exact (hsup.later (i := i) (Mutex.step_plat hm)).1
  | spawn d hplat => rw [hplat]; exact .spawn hsup.inOrder d
  | unpark j hplat => rw [hplat]; exact .wake _

/-! ### Every run -/

/-- The calls in progress are where they can be. -/
structure Punctual (h : Deadlines ι) (c : Config ι (Shared ι R D) (Local ι R)) : Prop where
  lock : ∀ i op, h.lock i = some op → (c.loc i).mx.pc.Timely c.shared.mx.plat (h.cut i) op
  wait : ∀ i, (c.loc i).pc.Timely c.shared.mx.plat (h.cut i) (h.wait i)
  inWait : ∀ i, (c.loc i).pc.inWait = true → h.lock i = none

variable {h : Deadlines ι}

namespace Deadlines

theorem note_of_ne {j : ι} (hj : j ≠ i) :
    (note c (.agent i a) h).lock j = h.lock j ∧ (note c (.agent i a) h).wait j = h.wait j ∧
      (note c (.agent i a) h).cut j = h.cut j := by
  cases a <;> simp [note, hj]

theorem note_eq (ha : ∀ op, a ≠ .lock op) (hw : ∀ k d, a ≠ .wait k d) :
    (note c (.agent i a) h).lock = h.lock ∧ (note c (.agent i a) h).wait = h.wait ∧
      ((note c (.agent i a) h).cut i = h.cut i ∨ a = .step ∧ (c.loc i).renews = true) := by
  cases a with
  | lock op => exact absurd rfl (ha op)
  | wait k d => exact absurd rfl (hw k d)
  | step =>
    refine ⟨rfl, rfl, ?_⟩
    cases hr : (c.loc i).renews with
    | true => exact .inr ⟨rfl, rfl⟩
    | false => exact .inl (by simp [note, hr])
  | _ => exact ⟨rfl, rfl, .inl rfl⟩

end Deadlines

theorem step_renews (hr : l.renews = true) (h : step i .step s l = some (s₁, l₁)) :
    (∃ w d, l.mx.pc = .lockNow w d) ∧ Mutex.step i .step s.mx l.mx = some (s₁.mx, l₁.mx) ∧
      l₁.pc = .ready := by
  obtain ⟨hpc, w, d, hmx⟩ : l.pc = .ready ∧ ∃ w d, l.mx.pc = .lockNow w d := by
    cases hp : l.pc <;> cases hq : l.mx.pc <;> simp [Local.renews, hp, hq] at hr ⊢
  simp only [step, hmx, Mutex.Pc.atRest] at h
  obtain ⟨m, lm, hm, rfl, rfl⟩ := lift_eq_some h
  exact ⟨⟨w, d, hmx⟩, hm, hpc⟩

/-- What the step says of the agent that moves. -/
theorem Punctual.mover (H : Punctual h c) (hsup : Mutex.Supplied (toMutex.config c))
    (hs : Condvar.step i a c.shared (c.loc i) = some (s₁, l₁)) {h₁ : Deadlines ι}
    (hh : h₁ = Deadlines.note c (.agent i a) h) :
    (∀ op, h₁.lock i = some op → l₁.mx.pc.Timely s₁.mx.plat (h₁.cut i) op) ∧
    l₁.pc.Timely s₁.mx.plat (h₁.cut i) (h₁.wait i) ∧
    (l₁.pc.inWait = true → h₁.lock i = none) := by
  have hlater := step_later hs hsup
  by_cases hwait : ∃ k d, a = .wait k d
  · obtain ⟨k, d, rfl⟩ := hwait
    subst hh
    simp only [Condvar.step] at hs
    split at hs <;> cases hs
    exact ⟨fun op hop => by simp [Deadlines.note] at hop, by simp [Deadlines.note, Pc.Timely],
      fun _ => by simp [Deadlines.note]⟩
  have hwait : ∀ k d, a ≠ .wait k d := fun k d ha => hwait ⟨k, d, ha⟩
  by_cases hcall : ∃ op, a = .lock op
  · obtain ⟨op, rfl⟩ := hcall
    obtain ⟨hpc, hready⟩ := step_lock hs
    refine ⟨fun op' hop => ?_, .of_ready hready, fun hin => ?_⟩
    · obtain rfl : op = op' := by simpa [hh, Deadlines.note] using hop
      rw [hpc]
      exact Mutex.Op.start_timely
    · rw [hready] at hin
      cases hin
  · have hcall : ∀ op, a ≠ .lock op := fun op ha => hcall ⟨op, ha⟩
    obtain ⟨hlock, hw, hcut⟩ := Deadlines.note_eq (c := c) (h := h) (i := i) hcall hwait
    rw [← hh] at hlock hw hcut
    rw [hlock, hw]
    refine ⟨fun op hop => ?_, ?_, fun hin => H.inWait i (step_inWait hs hwait hin)⟩ <;>
      rcases hcut with hcut | ⟨rfl, hr⟩
    · rw [hcut]
      have ht := H.lock i op hop
      rcases step_calls hs hcall with ⟨b, hb, hm⟩ | hin | hmx
      · exact Mutex.step_timely hsup.inOrder hm hb hlater (.inl rfl) ht
      · rw [H.inWait i hin] at hop
        cases hop
      · rw [hmx]
        exact ht.later hlater id (by rintro _ ⟨⟩)
    · -- a new round, whatever became of the timers so far
      obtain ⟨hnow, hm, -⟩ := step_renews hr hs
      refine Mutex.step_timely hsup.inOrder hm ?_ hlater (.inr hnow) (H.lock i op hop)
      rintro _ ⟨⟩
    · rw [hcut]
      exact step_timely hsup.inOrder hs hwait hlater (H.wait i)
    · exact .of_ready (step_renews hr hs).2.2

theorem Punctual.step (H : Punctual h c) (hsup : Mutex.Supplied (toMutex.config c))
    (hs : Condvar.step i a c.shared (c.loc i) = some (s₁, l₁)) :
    Punctual (Deadlines.note c (.agent i a) h) (c.set i s₁ l₁) := by
  have hlater := step_later hs hsup
  obtain ⟨hlock, hwait, hin⟩ := H.mover hsup hs rfl
  refine ⟨fun j op hop => ?_, fun j => ?_, fun j hj => ?_⟩ <;> by_cases hji : j = i
  · subst hji
    rw [Config.set_loc_self]
    exact hlock op hop
  · obtain ⟨hl, -, hc⟩ := Deadlines.note_of_ne (c := c) (a := a) (h := h) hji
    rw [hl] at hop
    rw [Config.set_loc_of_ne hji, hc]
    exact (H.lock j op hop).later hlater id (by rintro _ ⟨⟩)
  · subst hji
    rw [Config.set_loc_self]
    exact hwait
  · obtain ⟨-, hw, hc⟩ := Deadlines.note_of_ne (c := c) (a := a) (h := h) hji
    rw [Config.set_loc_of_ne hji, hw, hc]
    exact (H.wait j).later hlater id (by rintro _ ⟨⟩)
  · subst hji
    rw [Config.set_loc_self] at hj
    exact hin hj
  · rw [Config.set_loc_of_ne hji] at hj
    rw [(Deadlines.note_of_ne hji).1]
    exact H.inWait j hj

omit [DecidableEq ι] in
/-- What the environment does to the platform, with the sleeps that it cuts short. -/
theorem Punctual.env (H : Punctual h c) (hlater : c.shared.mx.plat.Later short p) :
    Punctual (h.short c short) ⟨c.shared.setPlat p, c.loc⟩ := by
  have hlock : (h.short c short).lock = h.lock := by cases short <;> rfl
  have hwait : (h.short c short).wait = h.wait := by cases short <;> rfl
  have hcut : ∀ i, h.cut i = true → (h.short c short).cut i = true := by
    intro i hi
    cases short with
    | none => exact hi
    | some t => simp [Deadlines.short, hi]
  have hshort : ∀ i t, short = some t → (c.loc i).awaits t = true → (h.short c short).cut i = true := by
    rintro i t rfl hi
    simp [Deadlines.short, hi]
  refine ⟨fun i op hop => ?_, fun i => ?_, fun i hi => ?_⟩
  · rw [hlock] at hop
    exact (H.lock i op hop).later hlater (hcut i) fun t ht htimer =>
      hshort i t ht (by simp [Local.awaits, htimer])
  · rw [hwait]
    exact (H.wait i).later hlater (hcut i) fun t ht htimer =>
      hshort i t ht (by simp [Local.awaits, htimer])
  · rw [hlock]
    exact H.inWait i hi

theorem punctual
    (H : sys.History Deadlines.note .new (init (boot backend canBlock now) value regs) h c) :
    Punctual h c := by
  refine H.invariant (I := fun h c => Punctual h c) ⟨fun _ _ => nofun, fun _ => trivial, fun _ => nofun⟩
    (fun h c i a s l hc ih _ hs => ih.step (supplied hc) hs) ?_
  intro h c e s hc ih _ hs
  simp only [sys, Option.map_eq_some_iff] at hs
  obtain ⟨p, hp, rfl⟩ := hs
  exact ih.env (Platform.apply_later (supplied hc).inOrder hp)

/-- A wait returns the result with which it went to its relock. -/
theorem returns_timedOut (hw : l.pc.inWait = true) (hs : step i .step s l = some (s₁, l₁))
    (hready : l₁.pc = .ready) : l.pc = .relocking l₁.timedOut := by
  simp only [step] at hs
  split at hs
  · cases hp : l.pc with
    | ready | notifyOne | notifying => rw [hp] at hw; cases hw
    | relocking timedOut =>
      simp only [advance, hp] at hs
      split at hs <;> cases hs
      rfl
    | register k d =>
      simp only [advance, hp] at hs
      cases hs
      cases k <;> cases d <;> cases hready
    | spawnTimer =>
      simp only [advance, hp] at hs
      cases hs
      cases hready
    | dropping z =>
      simp only [advance, hp] at hs
      cases hs
      rcases z with _ | (_ | _) | _ | _ <;> cases hready
    | drop =>
      simp only [advance, hp] at hs
      obtain ⟨m, lm, -, rfl, rfl⟩ := lift_eq_some hs
      cases hready
    | relock w =>
      cases w <;> simp only [advance, hp] at hs <;> obtain ⟨m, lm, -, rfl, rfl⟩ := lift_eq_some hs <;>
        cases hready
    | load d | park d =>
      simp only [advance, hp] at hs
      split at hs <;> cases d <;> cases hs <;> cases hready
    | _ =>
      simp only [advance, hp] at hs
      split at hs <;> cases hs <;> cases hready
  · obtain ⟨m, lm, -, rfl, rfl⟩ := lift_eq_some hs
    rw [hready] at hw
    cases hw

theorem native_cut
    (H : sys.History Deadlines.note .new (init (boot .native canBlock now) value regs) h c) :
    c.shared.mx.plat.backend = .native ∧ ∀ i, h.cut i = false := by
  refine H.invariant (I := fun h c => c.shared.mx.plat.backend = .native ∧ ∀ i, h.cut i = false)
    ⟨rfl, fun _ => rfl⟩ ?_ ?_
  · intro h c i a s l _ ih _ hs
    refine ⟨(step_platform hs).backend.trans ih.1, fun j => ?_⟩
    by_cases hji : j = i
    · subst hji
      cases a <;> simp [Deadlines.note, ih.2 j]
    · rw [(Deadlines.note_of_ne hji).2.2]
      exact ih.2 j
  · intro h c e s _ ih _ hs
    simp only [sys, Option.map_eq_some_iff] at hs
    obtain ⟨p, hp, rfl⟩ := hs
    refine ⟨(Platform.apply_backend hp).trans ih.1, ?_⟩
    rw [Deadlines.note, Platform.short_native ih.1]
    exact ih.2

/-- **No timed operation gives up before its deadline**, in any run, unless it is `lock_async_timeout`
or `wait_async_timeout` and the sleep of the timer thread whose word it takes was cut short, which does
not happen on the native backend.  An acquisition with a deadline that has returned `None` has done so
after the deadline, and so does a wait that returns `timed_out() = true`. -/
theorem never_early
    (H : sys.History Deadlines.note .new (init (boot backend canBlock now) value regs) h c) :
    (∀ i op d, h.lock i = some op → op.deadline = some d → (c.loc i).mx.pc = .failed →
      (op = .lockAsyncTimeout d → h.cut i = false) → d ≤ c.shared.mx.plat.clock) ∧
    (∀ i s l, (c.loc i).pc.inWait = true → Condvar.step i .step c.shared (c.loc i) = some (s, l) →
      l.pc = .ready → l.timedOut = true → ∃ k d, h.wait i = some (k, some d) ∧
        ((k = .async → h.cut i = false) → d ≤ c.shared.mx.plat.clock)) ∧
    (backend = .native → ∀ i, h.cut i = false) := by
  have hp := punctual H
  refine ⟨fun i op d hop hd hf hcut => ?_, fun i s l hw hs hready hout => ?_, ?_⟩
  · have ht := hp.lock i op hop
    rw [hf] at ht
    rcases ht d hd with ⟨hasync, hshort⟩ | hle
    · rw [hcut hasync] at hshort
      cases hshort
    · exact hle
  · have ht := hp.wait i
    rw [returns_timedOut hw hs hready] at ht
    obtain ⟨k, d, hwait, hd⟩ := ht hout
    refine ⟨k, d, hwait, fun hcut => ?_⟩
    rcases hd with ⟨hasync, hshort⟩ | hle
    · rw [hcut hasync] at hshort
      cases hshort
    · exact hle
  · rintro rfl
    exact (native_cut H).2

/-- While agent `false` has the lock, agent `true` calls `lock_async_timeout` at time 0, and its timer
thread starts. -/
def lockLate (deadline : ℕ) : List (Label Bool (Act Unit Unit) (Event Bool)) :=
  [.agent false (.lock .tryLock), .agent false .step,
    .agent true (.lock (.lockAsyncTimeout deadline)), .agent true .step, .agent true .step,
    .agent true .step, .agent true .step, .agent true .step, .agent true .step, .env (.timer 1)]

/-- A run on the wasm backend in which a timer sleeps for two milliseconds. -/
theorem never_early_whole :
    ∃ (h : Deadlines Bool) (c : Config Bool (Shared Bool Unit Unit) (Local Bool Unit)),
      sys.History Deadlines.note .new (init (boot .wasm (fun _ => true) 0) () fun _ => ()) h c ∧
        (c.loc true).mx.pc = .failed ∧ 2000000 ≤ c.shared.mx.plat.clock := by
  obtain ⟨h, c, H, hend⟩ := System.exists_note_of_along (M := sys) (P := fun _ _ _ => True)
    (h := Deadlines.new) (c := init (R := Unit) (boot .wasm (fun _ => true) 0) () fun _ => ())
    Deadlines.note
    (p := fun h c => decide (h.lock true = some (.lockAsyncTimeout 2000000) ∧
      (c.loc true).mx.pc = .failed ∧ h.cut true = false))
    (lockLate 2000000 ++ [.env (.tick 2000000), .env (.timer 1), .agent true .step, .agent true .step])
    (by decide) (by decide)
  rw [decide_eq_true_eq] at hend
  obtain ⟨hop, hfailed, hcut⟩ := hend
  exact ⟨h, c, H, hfailed, (never_early H).1 true _ 2000000 hop rfl hfailed fun _ => hcut⟩

/-- **A timed acquisition gives up too early.**  On the wasm backend, `lock_async_timeout` with a
deadline in one and a half milliseconds returns `None` after one. -/
theorem early_timeout :
    ∃ (h : Deadlines Bool) (c : Config Bool (Shared Bool Unit Unit) (Local Bool Unit)),
      sys.History Deadlines.note .new (init (boot .wasm (fun _ => true) 0) () fun _ => ()) h c ∧
        h.lock true = some (.lockAsyncTimeout 1500000) ∧ (c.loc true).mx.pc = .failed ∧
        c.shared.mx.plat.clock < 1500000 := by
  obtain ⟨h, c, H, hend⟩ := System.exists_note_of_along (M := sys) (P := fun _ _ _ => True)
    (h := Deadlines.new) (c := init (R := Unit) (boot .wasm (fun _ => true) 0) () fun _ => ())
    Deadlines.note
    (p := fun h c => decide (h.lock true = some (.lockAsyncTimeout 1500000) ∧
      (c.loc true).mx.pc = .failed ∧ c.shared.mx.plat.clock < 1500000))
    (lockLate 1500000 ++ [.env (.tick 1000000), .env (.timer 1), .agent true .step, .agent true .step])
    (by decide) (by decide)
  rw [decide_eq_true_eq] at hend
  exact ⟨h, c, H, hend⟩

end Condvar

end WasmSafeThread
