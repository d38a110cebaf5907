import WasmSafeThread.Condvar.Waiting
import WasmSafeThread.Mutex.Progress

/-!
# Calls on the condition variable that go on

Of the agents in a call, on the condition variable or its mutex, one can go on, unless all of them are
asleep in a wait without a deadline or the lock belongs to an agent whose guard is at rest (`advances`).
The rank is that of the control points in both frames, with the entries of all the lists.
-/

namespace WasmSafeThread

namespace Condvar

variable {ι R D : Type*}

/-- The wait in progress has no deadline. -/
def Pc.untimed : Pc ι → Bool
  | .register _ deadline | .load deadline _ | .park deadline _ => deadline.isNone
  | .drop z _ | .dropping z _ => z.untimed
  | .ready | .await _ | .relock _ _ | .relocking _ | .notifyOne _ | .notifying _ _ _ => true
  | _ => false

/-- Nothing in progress has a deadline, and a wait that locks again has not been refused. -/
structure Local.Untimed (l : Local ι R) : Prop where
  mx : l.mx.pc.untimed = true
  pc : l.pc.untimed = true
  relocking : ∀ timedOut, l.pc = .relocking timedOut → l.mx.pc.quiet = false

/-- The operation brings no deadline. -/
def Act.untimed : Act R D → Prop
  | .lock op => op.untimed = true
  | .wait _ deadline => deadline = none
  | _ => True

/-- The wait is in its loop. -/
def Pc.asleep : Pc ι → Bool
  | .load _ _ | .park _ _ | .await _ => true
  | _ => false

/-- The wait has had its wake-up, or there is none. -/
def Pc.back : Pc ι → Bool
  | .ready | .relock _ _ | .relocking _ => true
  | _ => false

/-- How far a call is from its end. -/
def Pc.rank : Pc ι → ℕ
  | .register _ _ => 100
  | .drop _ _ => 80
  | .dropping _ _ => 60
  | .load _ _ | .park _ _ | .await _ => 40
  | .relock _ _ => 20
  | .relocking _ => 1
  | .notifyOne .spin => 5
  | .notifyOne .sync => 4
  | .notifyOne .async => 3
  | .notifying _ pending rest => pending.length + 2 * rest.length + 1
  | _ => 0

/-- The rank of both frames. -/
def Local.rank (l : Local ι R) : ℕ := l.pc.rank + l.mx.pc.rank

/-- The entries of the waiting lists. -/
def Shared.entries (s : Shared ι R D) : ℕ :=
  (s.waiting .spin).length + (s.waiting .sync).length + (s.waiting .async).length + s.mx.entries

variable {i : ι} {a : Act R D} {s s₁ : Shared ι R D} {l l₁ : Local ι R} {k : Kind} {r : ℕ}
  {c : Config ι (Shared ι R D) (Local ι R)}

theorem entries_setList (es : List (Entry ι)) :
    (s.setList k es).entries + (s.waiting k).length = s.entries + es.length := by
  cases k <;> simp [Shared.entries, Shared.setList] <;> omega

theorem entries_mx (m : Mutex.Shared ι R D) :
    ({ s with mx := m } : Shared ι R D).entries + s.mx.entries = s.entries + m.entries := by
  simp only [Shared.entries]
  omega

/-! ### Deadlines -/

theorem Local.Untimed.of_ready {l : Local ι R} (hmx : l.mx.pc.untimed = true) (hpc : l.pc = .ready) : l.Untimed :=
  ⟨hmx, by rw [hpc]; rfl, fun _ h => by rw [hpc] at h; cases h⟩

theorem untimed_lockSync (canBlock : Bool) : (Mutex.Op.lockSync canBlock none).untimed = true := by
  cases canBlock <;> rfl

variable [DecidableEq ι]

theorem lift_untimed {b : Mutex.Act R D} {p : Pc ι} (hl : l.Untimed) (h : lift i b s l p = some (s₁, l₁))
    (hb : ∀ op, b = .call op → op.untimed = true) (hp : p.untimed = true)
    (hrelock : ∀ timedOut, p ≠ .relocking timedOut) : l₁.Untimed := by
  obtain ⟨m, lm, hm, -, rfl⟩ := lift_eq_some h
  exact ⟨Mutex.step_untimed hl.mx hb hm, hp, fun _ hp => absurd hp (hrelock _)⟩

theorem lift_goes_on {b : Mutex.Act R D} (hl : l.Untimed) (h : lift i b s l l.pc = some (s₁, l₁))
    (hb : b = .step ∨ b = .spurious) : l₁.Untimed := by
  obtain ⟨m, lm, hm, -, rfl⟩ := lift_eq_some h
  obtain ⟨hun, hquiet⟩ := Mutex.goes_on_untimed hl.mx hb hm
  refine ⟨hun, hl.pc, fun timedOut hp => ?_⟩
  by_contra hq
  have := hl.relocking timedOut hp
  rw [hquiet (Bool.eq_true_of_not_eq_false hq)] at this
  cases this

theorem relock_untimed {op : Mutex.Op} {timedOut : Bool} (hl : l.Untimed) (hop : op.untimed = true)
    (h : lift i (.call op) s l (.relocking timedOut) = some (s₁, l₁)) : l₁.Untimed := by
  obtain ⟨m, lm, hm, -, rfl⟩ := lift_eq_some h
  refine ⟨Mutex.step_untimed hl.mx (fun op' h => by cases h; exact hop) hm, rfl, fun _ _ => ?_⟩
  have hstart : (op.start : Mutex.Pc ι).quiet = false := by
    rcases op with _ | d | ⟨w, _ | d⟩ <;> rfl
  cases hp : l.mx.pc <;> simp only [Mutex.step, hp, reduceCtorEq] at hm <;> cases hm <;> exact hstart

theorem advance_untimed (hl : l.Untimed) (h : advance i s l = some (s₁, l₁)) : l₁.Untimed := by
  have hun := hl.pc
  have hgoto : ∀ p : Pc ι, p.untimed = true → (∀ timedOut, p ≠ .relocking timedOut) →
      (l.goto p).Untimed := fun p hp hrelock => ⟨hl.mx, hp, fun _ h => absurd h (hrelock _)⟩
  cases hp : l.pc with
  | ready => simp [advance, hp] at h
  | register k deadline =>
    rw [hp] at hun
    cases deadline with
    | some d => cases hun
    | none =>
      simp only [advance, hp] at h
      cases h
      cases k <;> exact hgoto _ rfl (by rintro _ ⟨⟩)
  | drop z r =>
    rw [hp] at hun
    simp only [advance, hp] at h
    exact lift_untimed hl h (by rintro _ ⟨⟩) hun (by rintro _ ⟨⟩)
  | dropping z r =>
    rw [hp] at hun
    simp only [advance, hp] at h
    cases h
    rcases z with (_ | _) | (_ | _) | _ | _ <;> first | exact hgoto _ rfl (by rintro _ ⟨⟩) | cases hun
  | load deadline r =>
    rw [hp] at hun
    cases deadline with
    | some d => cases hun
    | none =>
      simp only [advance, hp] at h
      split at h <;> cases h <;> exact hgoto _ rfl (by rintro _ ⟨⟩)
  | park deadline r =>
    rw [hp] at hun
    cases deadline with
    | some d => cases hun
    | none =>
      simp only [advance, hp] at h
      split at h <;> cases h
      exact hgoto _ rfl (by rintro _ ⟨⟩)
  | await r =>
    simp only [advance, hp] at h
    split at h <;> cases h
    exact hgoto _ rfl (by rintro _ ⟨⟩)
  | relock w timedOut =>
    cases w <;> simp only [advance, hp] at h
    · exact relock_untimed hl (untimed_lockSync _) h
    · exact relock_untimed hl rfl h
  | relocking timedOut =>
    simp only [advance, hp] at h
    split at h <;> cases h
    exact .of_ready hl.mx rfl
  | notifyOne k =>
    simp only [advance, hp] at h
    split at h <;> cases h
    · exact hgoto _ rfl (by rintro _ ⟨⟩)
    · cases k <;> exact hgoto _ rfl (by rintro _ ⟨⟩)
  | notifying k pending rest =>
    rcases pending with _ | ⟨e, pending⟩
    · rcases rest with _ | ⟨k', rest⟩ <;> simp only [advance, hp] at h <;> cases h <;>
        exact hgoto _ rfl (by rintro _ ⟨⟩)
    · simp only [advance, hp] at h
      cases h
      exact hgoto _ rfl (by rintro _ ⟨⟩)
  | spawnTimer | loadNow | loadLeave | loadNotified | parkNow | parkCheck | parkLeave | race | raceTimeout
    | raceLeave => rw [hp] at hun; cases hun

/-- No operation without a deadline brings one. -/
theorem step_untimed (hl : l.Untimed) (h : step i a s l = some (s₁, l₁)) (ha : a.untimed) :
    l₁.Untimed := by
  cases a with
  | lock op =>
    simp only [step] at h
    split at h
    · exact lift_untimed hl h (fun op' h => by cases h; exact ha) rfl (by rintro _ ⟨⟩)
    · cases h
  | access | drop | consume =>
    simp only [step] at h
    split at h
    · exact lift_untimed hl h (by rintro _ ⟨⟩) rfl (by rintro _ ⟨⟩)
    · cases h
  | wait k deadline =>
    simp only [step] at h
    split at h <;> cases h
    cases ha
    exact ⟨hl.mx, rfl, by rintro _ ⟨⟩⟩
  | notifyOne | notifyAll =>
    simp only [step] at h
    split at h <;> cases h
    exact ⟨hl.mx, rfl, by rintro _ ⟨⟩⟩
  | step =>
    simp only [step] at h
    split at h
    · exact advance_untimed hl h
    · exact lift_goes_on hl h (.inl rfl)
  | spurious =>
    simp only [step] at h
    split at h
    · have hun := hl.pc
      split at h <;> cases h <;> rename_i hp
      · exact ⟨hl.mx, rfl, by rintro _ ⟨⟩⟩
      · rw [hp] at hun
        cases hun
    · exact lift_goes_on hl h (.inr rfl)
  | cancel =>
    simp only [step] at h
    split at h
    · split at h <;> cases h <;> exact .of_ready hl.mx rfl
    · exact lift_untimed hl h (by rintro _ ⟨⟩) rfl (by rintro _ ⟨⟩)

/-! ### Going on -/

/-- A wait is back only when it was asleep before. -/
theorem back_of_step (hun : l.pc.untimed = true) (hwait : l.pc.inWait = true) (hs : l.pc.asleep = false)
    (h : step i .step s l = some (s₁, l₁)) (hback : l₁.pc.back = true) : l.pc.back = true := by
  simp only [step] at h
  split at h
  · cases hp : l.pc with
    | ready | relock | relocking => rfl
    | register k deadline =>
      simp only [advance, hp] at h
      cases h
      cases k <;> cases deadline <;> cases hback
    | drop z r =>
      simp only [advance, hp] at h
      obtain ⟨m, lm, -, -, rfl⟩ := lift_eq_some h
      cases hback
    | dropping z r =>
      simp only [advance, hp] at h
      cases h
      rcases z with _ | (_ | _) | _ | _ <;> cases hback
    | load | park | await => rw [hp] at hs; cases hs
    | notifyOne | notifying => rw [hp] at hwait; cases hwait
    | spawnTimer | loadNow | loadLeave | loadNotified | parkNow | parkCheck | parkLeave | race | raceTimeout
      | raceLeave => rw [hp] at hun; cases hun
  · obtain ⟨m, lm, -, -, rfl⟩ := lift_eq_some h
    exact hback

/-- Agent `i` can make a step that brings it nearer to the end of its call. -/
def Advances (i : ι) (c : Config ι (Shared ι R D) (Local ι R)) : Prop :=
  ∃ s l, step i .step c.shared (c.loc i) = some (s, l) ∧
    l.rank + s.entries < (c.loc i).rank + c.shared.entries

theorem Advances.of_advance (hrest : (c.loc i).mx.pc.atRest = true)
    (hs : advance i c.shared (c.loc i) = some (s, l))
    (hlt : l.rank + s.entries < (c.loc i).rank + c.shared.entries) : Advances i c :=
  ⟨s, l, by rw [step, if_pos hrest]; exact hs, hlt⟩

theorem Advances.of_goto {p : Pc ι} (hrest : (c.loc i).mx.pc.atRest = true)
    (hs : advance i c.shared (c.loc i) = some (c.shared, (c.loc i).goto p))
    (hlt : p.rank < (c.loc i).pc.rank) : Advances i c :=
  .of_advance hrest hs (Nat.add_lt_add_right (Nat.add_lt_add_right hlt _) _)

theorem advances_register (hp : (c.loc i).pc = .register k none) (hg : (c.loc i).mx.pc = .guard) :
    Advances i c := by
  refine .of_advance (s := c.shared.push k i) (l := (c.loc i).goto (registered c.shared.regs k none))
    (by rw [hg]; rfl) (by simp [advance, hp]) ?_
  have hentries := entries_setList (s := c.shared) (k := k) (c.shared.waiting k ++ [⟨c.shared.regs, i⟩])
  have hpush : (c.shared.push k i).entries =
      (c.shared.setList k (c.shared.waiting k ++ [⟨c.shared.regs, i⟩])).entries := rfl
  have hrank : (c.loc i).pc.rank = 100 := by rw [hp]; rfl
  have hrank₁ : (registered c.shared.regs k none : Pc ι).rank = 80 := by cases k <;> rfl
  rw [List.length_append, List.length_singleton] at hentries
  simp only [Local.rank, Local.goto_pc, Local.goto_mx, hrank, hrank₁, hpush]
  omega

theorem advances_drop {z : Sleep} (hz : z.untimed = true)
    (hp : (c.loc i).pc = .drop z r ∧ (c.loc i).mx.pc = .guard ∨
      (c.loc i).pc = .dropping z r ∧ (c.loc i).mx.pc.atRest = true) : Advances i c := by
  rcases hp with ⟨hp, hg⟩ | ⟨hp, hrest⟩
  · have hs : advance i c.shared (c.loc i) = some ({ c.shared with mx := { c.shared.mx with dataLock := false } },
        { c.loc i with mx := (c.loc i).mx.goto Mutex.didUnlock, pc := .dropping z r }) := by
      simp [advance, hp, lift, Mutex.step, hg]
    refine .of_advance (by rw [hg]; rfl) hs ?_
    have hrank : (c.loc i).rank = 86 := by rw [Local.rank, hp, hg]; rfl
    rw [hrank]
    show 65 + c.shared.entries < 86 + c.shared.entries
    omega
  · refine .of_goto (p := z.start r) hrest (by simp [advance, hp]) ?_
    rw [hp]
    rcases z with (_ | _) | (_ | _) | _ | _ <;> first | exact (by decide : 40 < 60) | cases hz

/-- A wait that is back calls the lock, or has the guard. -/
theorem advances_relock {timedOut : Bool} (hmx : (c.loc i).mx.pc.untimed = true)
    (hp : (∃ w, (c.loc i).pc = .relock w timedOut ∧ (c.loc i).mx.pc.atRest = true ∧
        (c.loc i).mx.pc.quiet = true) ∨
      (c.loc i).pc = .relocking timedOut ∧ (c.loc i).mx.pc = .guard) : Advances i c := by
  rcases hp with ⟨w, hp, hrest, hquiet⟩ | ⟨hp, hg⟩
  · have hidle := Mutex.Pc.eq_idle hmx hrest hquiet
    have hcall : ∃ op : Mutex.Op, (op.start : Mutex.Pc ι).rank = 9 ∧
        advance i c.shared (c.loc i) = lift i (.call op) c.shared (c.loc i) (.relocking timedOut) := by
      cases w with
      | sync =>
        refine ⟨.lockSync (c.shared.mx.plat.canBlock i) none, ?_, by simp [advance, hp]⟩
        cases c.shared.mx.plat.canBlock i <;> rfl
      | async => exact ⟨.lockAsync, rfl, by simp [advance, hp]⟩
    obtain ⟨op, hop, hcall⟩ := hcall
    have hs : advance i c.shared (c.loc i) = some (c.shared,
        { c.loc i with mx := (c.loc i).mx.goto op.start, pc := .relocking timedOut }) := by
      rw [hcall]
      simp [lift, Mutex.step, hidle]
    refine .of_advance hrest hs (Nat.add_lt_add_right ?_ _)
    simp only [Local.rank, hp, hidle, Mutex.Local.goto_pc, hop]
    exact (by decide : 1 + 9 < 20 + 0)
  · have hs : advance i c.shared (c.loc i) = some (c.shared, { c.loc i with pc := .ready, timedOut := timedOut }) := by
      simp [advance, hp, hg]
    refine .of_advance (by rw [hg]; rfl) hs (Nat.add_lt_add_right ?_ _)
    have hrank : (c.loc i).pc.rank = 1 := by rw [hp]; rfl
    show 0 + (c.loc i).mx.pc.rank < (c.loc i).pc.rank + (c.loc i).mx.pc.rank
    omega

/-- `notify_one` tries a list. -/
theorem advances_notifyOne (hrest : (c.loc i).mx.pc.atRest = true) (hp : (c.loc i).pc = .notifyOne k) :
    Advances i c := by
  have hrank : 3 ≤ (c.loc i).pc.rank := by rw [hp]; cases k <;> simp [Pc.rank]
  cases hlast : (c.shared.waiting k).getLast? with
  | none =>
    obtain ⟨pc, hrank₁, hs⟩ : ∃ pc, pc.rank < (c.loc i).pc.rank ∧
        advance i c.shared (c.loc i) = some (c.shared, (c.loc i).goto pc) := by
      simp only [advance, hp, hlast]
      cases k
      · exact ⟨_, by simp [Kind.next, Pc.rank], rfl⟩
      · exact ⟨_, by simp [Kind.next, Pc.rank], rfl⟩
      · exact ⟨_, by simp [Kind.next, Pc.rank], rfl⟩
    exact .of_goto hrest hs hrank₁
  | some e =>
    have hs : advance i c.shared (c.loc i) = some (c.shared.setList k (c.shared.waiting k).dropLast,
        (c.loc i).goto (.notifying k [e] [])) := by
      simp only [advance, hp, hlast]
    refine .of_advance hrest hs ?_
    have hentries := entries_setList (s := c.shared) (k := k) (c.shared.waiting k).dropLast
    have hne : c.shared.waiting k ≠ [] := fun hnil => by rw [hnil] at hlast; cases hlast
    have hpos := List.length_pos_of_ne_nil hne
    rw [List.length_dropLast] at hentries
    show 2 + (c.loc i).mx.pc.rank + _ < (c.loc i).pc.rank + (c.loc i).mx.pc.rank + c.shared.entries
    omega

theorem entries_signal (e : Entry ι) : (signal s k e).entries = s.entries := by
  cases k <;> rfl

/-- A notification goes through its lists. -/
theorem advances_notifying {pending : List (Entry ι)} {rest : List Kind}
    (hrest : (c.loc i).mx.pc.atRest = true) (hp : (c.loc i).pc = .notifying k pending rest) :
    Advances i c := by
  have hrank : (c.loc i).pc.rank = pending.length + 2 * rest.length + 1 := by rw [hp]; rfl
  cases pending with
  | nil =>
    cases rest with
    | nil =>
      refine .of_goto (p := .ready) hrest (by simp [advance, hp]) ?_
      rw [hrank]
      exact Nat.succ_pos _
    | cons k' rest =>
      refine .of_advance (s := c.shared.setList k' [])
        (l := (c.loc i).goto (.notifying k' (c.shared.waiting k') rest)) hrest (by simp [advance, hp]) ?_
      have hentries := entries_setList (s := c.shared) (k := k') []
      have hrank₁ : (Pc.notifying k' (c.shared.waiting k') rest).rank =
          (c.shared.waiting k').length + 2 * rest.length + 1 := rfl
      simp only [Local.rank, Local.goto_pc, Local.goto_mx, hrank, hrank₁, List.length_nil,
        List.length_cons] at hentries ⊢
      omega
  | cons e pending =>
    refine .of_advance (s := signal c.shared k e) (l := (c.loc i).goto (.notifying k pending rest)) hrest
      (by simp [advance, hp]) ?_
    have hrank₁ : (Pc.notifying k pending rest).rank = pending.length + 2 * rest.length + 1 := rfl
    simp only [Local.rank, Local.goto_pc, Local.goto_mx, hrank, hrank₁, List.length_cons, entries_signal]
    omega

omit [DecidableEq ι] in
theorem Pc.sleeps_of_asleep {p : Pc ι} (hp : p.asleep = true) (hun : p.untimed = true) :
    ∃ k r, p.sleeps = some (k, r) := by
  cases p with
  | load deadline r | park deadline r => cases deadline <;> first | exact ⟨_, _, rfl⟩ | cases hun
  | await r => exact ⟨_, _, rfl⟩
  | _ => cases hp

/-- A wait that has its wake-up. -/
theorem advances_wake (hrest : (c.loc i).mx.pc.atRest = true) (hun : (c.loc i).pc.untimed = true)
    (hp : (c.loc i).pc.asleep = true) (hsleep : (c.loc i).pc.sleeps = some (k, r))
    (hsig : c.shared.signalled (k, ⟨r, i⟩) = true) : Advances i c := by
  cases hpc : (c.loc i).pc with
  | load deadline r' =>
    rw [hpc] at hun hsleep
    cases deadline with
    | some d => cases hun
    | none =>
      cases hsleep
      have hflag : c.shared.flags r = true := hsig
      refine .of_goto (p := .relock .sync false) hrest (by simp [advance, hpc, hflag]) ?_
      rw [hpc]
      exact (by decide : 20 < 40)
  | park deadline r' =>
    rw [hpc] at hun hsleep
    cases deadline with
    | some d => cases hun
    | none =>
      cases hsleep
      have htoken : c.shared.mx.plat.token i = true := hsig
      refine .of_advance (s := c.shared.setPlat (c.shared.mx.plat.consume i))
        (l := (c.loc i).goto (.relock .sync false)) hrest (by simp [advance, hpc, htoken]) ?_
      have hrank : (c.loc i).pc.rank = 40 := by rw [hpc]; rfl
      show 20 + (c.loc i).mx.pc.rank + c.shared.entries < (c.loc i).pc.rank + (c.loc i).mx.pc.rank + c.shared.entries
      omega
  | await r' =>
    rw [hpc] at hsleep
    cases hsleep
    have hflag : c.shared.flags r = true := hsig
    refine .of_goto (p := .relock .async false) hrest (by simp [advance, hpc, hflag]) ?_
    rw [hpc]
    exact (by decide : 20 < 40)
  | _ => rw [hpc] at hp; cases hp

/-! ### Calls that start -/

theorem starts_lock (op : Mutex.Op) (hpc : l.pc = .ready) (hmx : l.mx.pc = .idle) :
    step i (.lock op) s l = some (s, { l with mx := l.mx.goto op.start, pc := .ready }) := by
  have hrest : l.atRest = true := Local.atRest_iff.2 ⟨by rw [hmx]; rfl, hpc⟩
  simp [step, hrest, lift, Mutex.step, hmx]

theorem starts_drop (hpc : l.pc = .ready) (hmx : l.mx.pc = .guard) :
    step i .drop s l = some ({ s with mx := { s.mx with dataLock := false } },
      { l with mx := l.mx.goto Mutex.didUnlock, pc := .ready }) := by
  have hrest : l.atRest = true := Local.atRest_iff.2 ⟨by rw [hmx]; rfl, hpc⟩
  simp [step, hrest, lift, Mutex.step, hmx]

theorem starts_access (f : Mutex.Access R D) (hpc : l.pc = .ready) (hmx : l.mx.pc = .guard) :
    step i (.access f) s l = some
      ({ s with mx := { s.mx with
          inner := (f (l.mx.reg, s.mx.inner)).2
          log := Mutex.record i f s.mx.log } },
        { l with mx := { l.mx with reg := (f (l.mx.reg, s.mx.inner)).1 }, pc := .ready }) := by
  have hrest : l.atRest = true := Local.atRest_iff.2 ⟨by rw [hmx]; rfl, hpc⟩
  simp [step, hrest, lift, Mutex.step, hmx]

theorem starts_wait (hpc : l.pc = .ready) (hmx : l.mx.pc = .guard) :
    step i (.wait k none) s l = some (s, l.goto (.register k none)) := by
  have hrest : l.atRest = true := Local.atRest_iff.2 ⟨by rw [hmx]; rfl, hpc⟩
  simp [step, hrest, hmx, Mutex.Pc.hasGuard]

variable {plat : Platform ι} {value : D} {regs : ι → R}

/-- **Somebody goes on**, as long as some call is neither over nor asleep and nobody sits on a guard. -/
theorem advances (h : sys.Reachable (init plat value regs) c) (hun : ∀ i, (c.loc i).Untimed)
    (hguard : ∀ i, (c.loc i).pc = .ready → (c.loc i).mx.pc ≠ .guard)
    (hcall : ∃ i, (c.loc i).atRest = false ∧ (c.loc i).pc.asleep = false) :
    ∃ i, (c.loc i).atRest = false ∧ (c.loc i).pc.asleep = false ∧ Advances i c := by
  by_contra hno
  have hno : ∀ i, (c.loc i).pc ≠ .ready ∨ (c.loc i).mx.pc.atRest = false →
      (c.loc i).pc.asleep = false → ¬ Advances i c := fun i hi hs hadv => by
    refine hno ⟨i, ?_, hs, hadv⟩
    by_contra hrest
    obtain ⟨hmx, hpc⟩ := Local.atRest_iff.1 (Bool.eq_true_of_not_eq_false hrest)
    rcases hi with hi | hi
    · exact hi hpc
    · rw [hi] at hmx
      cases hmx
  have hshape := shape h
  -- while its mutex is at rest a call that is not asleep can go on
  have hrest : ∀ i, (c.loc i).mx.pc.atRest = true → (c.loc i).pc = .ready ∨ (c.loc i).pc.asleep = true :=
      fun i hmx => by
    have hpc := (hun i).pc
    have hl := hshape i
    cases hp : (c.loc i).pc with
    | ready => exact .inl rfl
    | load | park | await => exact .inr rfl
    | register k deadline =>
      rw [hp] at hpc
      simp only [Local.Shape, hp] at hl
      cases deadline with
      | some d => cases hpc
      | none => exact absurd (advances_register hp hl) (hno i (.inl (by rw [hp]; rintro ⟨⟩)) (by rw [hp]; rfl))
    | drop z r =>
      rw [hp] at hpc
      simp only [Local.Shape, hp] at hl
      exact absurd (advances_drop hpc (.inl ⟨hp, hl⟩)) (hno i (.inl (by rw [hp]; rintro ⟨⟩)) (by rw [hp]; rfl))
    | dropping z r =>
      rw [hp] at hpc
      exact absurd (advances_drop hpc (.inr ⟨hp, hmx⟩)) (hno i (.inl (by rw [hp]; rintro ⟨⟩)) (by rw [hp]; rfl))
    | relock w timedOut =>
      simp only [Local.Shape, hp] at hl
      exact absurd (advances_relock (hun i).mx (.inl ⟨w, hp, hl⟩))
        (hno i (.inl (by rw [hp]; rintro ⟨⟩)) (by rw [hp]; rfl))
    | relocking timedOut =>
      have hg := Mutex.Pc.eq_guard (hun i).mx hmx ((hun i).relocking timedOut hp)
      exact absurd (advances_relock (hun i).mx (.inr ⟨hp, hg⟩))
        (hno i (.inl (by rw [hp]; rintro ⟨⟩)) (by rw [hp]; rfl))
    | notifyOne k =>
      exact absurd (advances_notifyOne hmx hp) (hno i (.inl (by rw [hp]; rintro ⟨⟩)) (by rw [hp]; rfl))
    | notifying k pending rest =>
      exact absurd (advances_notifying hmx hp) (hno i (.inl (by rw [hp]; rintro ⟨⟩)) (by rw [hp]; rfl))
    | spawnTimer | loadNow | loadLeave | loadNotified | parkNow | parkCheck | parkLeave | race | raceTimeout
      | raceLeave => rw [hp] at hpc; cases hpc
  have hasleep : ∀ i, (c.loc i).pc.asleep = true → (c.loc i).mx.pc.atRest = true ∧
      (c.loc i).mx.pc.quiet = true := fun i hi => by
    have hl := hshape i
    cases hp : (c.loc i).pc with
    | load | park | await => simpa only [Local.Shape, hp] using hl
    | _ => rw [hp] at hi; cases hi
  -- so nobody has the guard, and somebody goes on in the mutex, if it is not at rest
  have hnone : ∀ i, (c.loc i).mx.pc ≠ .guard := fun i hg => by
    rcases hrest i (by rw [hg]; rfl) with hready | hi
    · exact hguard i hready hg
    · have := (hasleep i hi).2
      rw [hg] at this
      cases this
  have hidle : ∀ i, (c.loc i).mx.pc.atRest = true := fun i => by
    by_contra hbusy
    obtain ⟨j, hj, s, l, hs, hlt⟩ := Mutex.advances (c := toMutex.config c) (mutex_reachable h)
      (fun i => (hun i).mx) hnone ⟨i, Bool.eq_false_of_not_eq_true hbusy⟩
    have hj' : (c.loc j).mx.pc.atRest = false := hj
    have hstep : step j .step c.shared (c.loc j) =
        some ({ c.shared with mx := s }, { c.loc j with mx := l, pc := (c.loc j).pc }) := by
      have hm : Mutex.step j (.step : Mutex.Act R D) c.shared.mx (c.loc j).mx = some (s, l) := hs
      simp [step, hj', lift, hm]
    refine hno j (.inr hj') ?_ ⟨_, _, hstep, ?_⟩
    · by_contra hsleep
      rw [(hasleep j (Bool.eq_true_of_not_eq_false hsleep)).1] at hj'
      cases hj'
    · have hentries := entries_mx (s := c.shared) s
      have hlt' : l.pc.rank + s.entries < (c.loc j).mx.pc.rank + c.shared.mx.entries := hlt
      simp only [Local.rank]
      omega
  obtain ⟨i, hi, hsleep⟩ := hcall
  rcases hrest i (hidle i) with hready | hs
  · rw [Local.atRest_iff.2 ⟨hidle i, hready⟩] at hi
    cases hi
  · rw [hsleep] at hs
    cases hs

end Condvar

end WasmSafeThread
