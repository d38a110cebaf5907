import WasmSafeThread.Agents.History
import WasmSafeThread.Condvar.Registration

/-!
# What happens to the registration of a spinning wait

A run is written down by registration: `Record.deeds r` is what happened to registration `r` of
`waiting_spin_threads`, in order.

* `Deed` : the pushes, removals, stores and returns of `wait_spin`, `wait_spin_timeout`,
  `notify_one` and `notify_all`.
* `note` : what a step adds to the history.
* `SpinMove` : all that a step can do to the spinning waits, and what is written of it; `step_spin`
  is the inversion lemma.
-/

namespace WasmSafeThread

namespace Condvar

variable {ι R D : Type*} [DecidableEq ι]

/-! ### The history of a registration -/

/-- What happens to a registration in `waiting_spin_threads`, with the agent that does it. -/
inductive Deed (ι : Type*) where
  /-- The wait pushes its entry. -/
  | pushed (i : ι)
  /-- A notifier takes the entry out of the list. -/
  | removed (j : ι)
  /-- A notifier stores `true` in the flag. -/
  | stored (j : ι)
  /-- The wait takes its own entry out of the list. -/
  | left (i : ι)
  /-- The wait returns, with this `timed_out()`. -/
  | returned (i : ι) (timedOut : Bool)
  deriving DecidableEq

/-- The deeds of each registration, and the number of the last wait of each agent if it spins. -/
structure Record (ι : Type*) where
  deeds : ℕ → List (Deed ι)
  wait : ι → Option ℕ

namespace Record

variable (h : Record ι)

/-- Nothing has happened. -/
def new : Record ι := ⟨fun _ => [], fun _ => none⟩

omit [DecidableEq ι] in
/-- Something happens to registration `r`. -/
def add (r : ℕ) (d : Deed ι) : Record ι :=
  { h with deeds := Function.update h.deeds r (h.deeds r ++ [d]) }

omit [DecidableEq ι] in
/-- Agent `j` takes the entries `es`. -/
def remove (j : ι) (es : List (Entry ι)) : Record ι :=
  { h with deeds := fun r =>
      h.deeds r ++ (es.filter fun e => e.reg = r).map fun _ => .removed j }

/-- Agent `i` starts a wait. -/
def start (i : ι) (r : Option ℕ) : Record ι := { h with wait := Function.update h.wait i r }

variable {h} {r r' : ℕ} {d : Deed ι}

omit [DecidableEq ι] in
@[simp] theorem add_deeds_self : (h.add r d).deeds r = h.deeds r ++ [d] := by simp [add]

omit [DecidableEq ι] in
theorem add_deeds_of_ne (hr : r' ≠ r) : (h.add r d).deeds r' = h.deeds r' := by simp [add, hr]

omit [DecidableEq ι] in
@[simp] theorem remove_nil (j : ι) : h.remove j [] = h := by simp [remove]

end Record

/-- What a step adds to the history: the control points at which something happens to a
registration. -/
def note (c : Config ι (Shared ι R D) (Local ι R)) :
    Label ι (Act R D) (Event ι) → Record ι → Record ι
  | .agent i .step, h =>
    if (c.loc i).mx.pc.atRest then
      match (c.loc i).pc with
      | .register .spin _ => (h.start i (some c.shared.regs)).add c.shared.regs (.pushed i)
      | .register _ _ => h.start i none
      | .notifyOne .spin => h.remove i (c.shared.waiting .spin).getLast?.toList
      | .notifying _ [] (.spin :: _) => h.remove i (c.shared.waiting .spin)
      | .notifying .spin (e :: _) _ => h.add e.reg (.stored i)
      | .loadLeave r =>
        if (c.shared.waiting .spin).any fun e => e.reg = r then h.add r (.left i) else h
      | .relocking timedOut =>
        match (c.loc i).mx.pc, h.wait i with
        | .guard, some r => h.add r (.returned i timedOut)
        | _, _ => h
      | _ => h
    else h
  | _, h => h

/-! ### What one step can do to the registrations -/

/-- The result of the wait that is over but for its relock. -/
def Pc.relocks : Pc ι → Option Bool
  | .relock _ timedOut | .relocking timedOut => some timedOut
  | _ => none

/-- What a step does to the spinning waits and to what is written of them. -/
inductive SpinMove (i : ι) (s : Shared ι R D) (l : Local ι R) (h : Record ι) (s₁ : Shared ι R D)
    (l₁ : Local ι R) (h₁ : Record ι) : Prop where
  /-- Nothing. -/
  | other (hlist : s₁.waiting .spin = s.waiting .spin)
      (hcarry : ∀ e, l₁.pc.carries.count (.spin, e) = l.pc.carries.count (.spin, e))
      (hflags : ∀ r, s₁.flags r = s.flags r ∨ l.pc.waitsOn = some (.async, r) ∨
        ∃ e, (.async, e) ∈ l.pc.carries ∧ e.reg = r)
      (hwait : l₁.pc.waitsOn = l.pc.waitsOn ∧
          (∀ timedOut, l₁.pc.relocks = some timedOut → l.pc.relocks = some timedOut) ∨
        l₁.pc.waitsOn = none ∧ ∃ k r, k ≠ .spin ∧ l.pc.waitsOn = some (k, r))
      (hnot : ∀ r, l₁.pc = .loadNotified r → l.pc = .loadNotified r) (hh : h₁ = h)
  /-- A spinning wait pushes its entry. -/
  | push (deadline : Option ℕ) (hpc : l.pc = .register .spin deadline) (hs : s₁ = s.push .spin i)
      (hl : l₁ = l.goto (registered s.regs .spin deadline))
      (hh : h₁ = (h.start i (some s.regs)).add s.regs (.pushed i))
  /-- Another wait pushes its entry. -/
  | start (k : Kind) (hk : k ≠ .spin) (deadline : Option ℕ) (hpc : l.pc = .register k deadline)
      (hs : s₁ = s.push k i) (hl : l₁ = l.goto (registered s.regs k deadline))
      (hh : h₁ = h.start i none)
  /-- The loop sees the flag. -/
  | answered (r : ℕ) (hwait : l.pc.waitsOn = some (.spin, r)) (hflag : s.flags r = true)
      (hs : s₁ = s) (hl : l₁ = l.goto (.relock .sync false)) (hh : h₁ = h)
  /-- The deadline has passed and the entry is not in the list. -/
  | miss (r : ℕ) (hpc : l.pc = .loadLeave r) (hout : ∀ e ∈ s.waiting .spin, e.reg ≠ r)
      (hs : s₁ = s) (hl : l₁ = l.goto (.loadNotified r)) (hh : h₁ = h)
  /-- The deadline has passed and the wait takes its entry out of the list. -/
  | leave (r : ℕ) (hpc : l.pc = .loadLeave r) (hin : ∃ e ∈ s.waiting .spin, e.reg = r)
      (hs : s₁ = s.setList .spin ((s.waiting .spin).eraseP fun e => e.reg = r))
      (hl : l₁ = l.goto (.relock .sync true)) (hh : h₁ = h.add r (.left i))
  /-- A wait returns. -/
  | returns (timedOut : Bool) (hpc : l.pc = .relocking timedOut) (hs : s₁ = s)
      (hl : l₁ = { l with pc := .ready, timedOut := timedOut })
      (hh : h₁ = match h.wait i with
        | some r => h.add r (.returned i timedOut)
        | none => h)
  /-- A notifier takes entries out of the list. -/
  | remove (es es' : List (Entry ι)) (rest : List Kind) (hwait : l.pc.inWait = false)
      (hcarry : l.pc.carries = []) (hlist : s.waiting .spin = es' ++ es)
      (hs : s₁ = s.setList .spin es') (hl : l₁ = l.goto (.notifying .spin es rest))
      (hh : h₁ = h.remove i es)
  /-- A notifier sets a flag. -/
  | store (e : Entry ι) (pending : List (Entry ι)) (rest : List Kind)
      (hpc : l.pc = .notifying .spin (e :: pending) rest) (hs : s₁ = s.setFlag e.reg)
      (hl : l₁ = l.goto (.notifying .spin pending rest)) (hh : h₁ = h.add e.reg (.stored i))

variable {i : ι} {a : Act R D} {b : Mutex.Act R D} {s s₁ : Shared ι R D} {l l₁ : Local ι R}
  {p : Pc ι} {c : Config ι (Shared ι R D) (Local ι R)} {h : Record ι} {r : ℕ}

theorem SpinMove.of_pc (hs : s₁.waiting = s.waiting) (hf : s₁.flags = s.flags)
    (hwait : l₁.pc.waitsOn = l.pc.waitsOn) (hcarry : l₁.pc.carries = l.pc.carries)
    (hrelock : ∀ timedOut, l₁.pc.relocks = some timedOut → l.pc.relocks = some timedOut)
    (hnot : ∀ r, l₁.pc = .loadNotified r → l.pc = .loadNotified r) : SpinMove i s l h s₁ l₁ h :=
  .other (by rw [hs]) (fun e => by rw [hcarry]) (fun r => .inl (by rw [hf])) (.inl ⟨hwait, hrelock⟩)
    hnot rfl

theorem SpinMove.of_exit {k : Kind} (hs : s₁.waiting .spin = s.waiting .spin)
    (hf : ∀ r, s₁.flags r = s.flags r ∨ l.pc.waitsOn = some (.async, r))
    (hk : k ≠ .spin) (hwait : l.pc.waitsOn = some (k, r)) (hwait₁ : l₁.pc.waitsOn = none)
    (hcarry : l₁.pc.carries = []) (hnot : ∀ r, l₁.pc ≠ .loadNotified r) :
    SpinMove i s l h s₁ l₁ h := by
  refine .other hs (fun e => ?_) (fun r => (hf r).imp_right .inl)
    (.inr ⟨hwait₁, k, r, hk, hwait⟩) (fun r hr => absurd hr (hnot r)) rfl
  have hnil : l.pc.carries = [] := by
    cases hp : l.pc with
    | notifying => rw [hp] at hwait; cases hwait
    | _ => rfl
  rw [hcarry, hnil]

theorem lift_spin (hlift : lift i b s l p = some (s₁, l₁)) (hwait : p.waitsOn = l.pc.waitsOn)
    (hcarry : p.carries = l.pc.carries)
    (hrelock : ∀ timedOut, p.relocks = some timedOut → l.pc.relocks = some timedOut)
    (hnot : ∀ r, p = .loadNotified r → l.pc = .loadNotified r) : SpinMove i s l h s₁ l₁ h := by
  obtain ⟨m, lm, -, rfl, rfl⟩ := lift_eq_some hlift
  exact .of_pc rfl rfl hwait hcarry hrelock hnot

theorem count_carries (k : Kind) (hk : k ≠ .spin) (pending : List (Entry ι)) (rest : List Kind)
    (e : Entry ι) : (Pc.notifying k pending rest).carries.count (.spin, e) = 0 := by
  refine List.count_eq_zero.2 fun he => ?_
  obtain ⟨x, -, heq⟩ := List.mem_map.1 he
  exact hk (congrArg Prod.fst heq)

theorem advance_spin (hrest : (c.loc i).mx.pc.atRest = true)
    (hs : advance i c.shared (c.loc i) = some (s₁, l₁)) :
    SpinMove i c.shared (c.loc i) h s₁ l₁ (note c (.agent i .step) h) := by
  cases hp : (c.loc i).pc with
  | ready => simp [advance, hp] at hs
  | register k deadline =>
    simp only [advance, hp] at hs
    simp only [note, hrest, hp, if_true]
    cases hs
    cases k with
    | spin => exact .push deadline hp rfl rfl rfl
    | sync => exact .start .sync (by rintro ⟨⟩) deadline hp rfl rfl rfl
    | async => exact .start .async (by rintro ⟨⟩) deadline hp rfl rfl rfl
  | loadLeave r =>
    simp only [advance, hp] at hs
    simp only [note, hrest, hp, if_true]
    split at hs <;> rename_i hany <;> cases hs
    · rw [if_pos hany]
      exact .leave r hp (by simpa using hany) rfl rfl rfl
    · rw [if_neg hany]
      exact .miss r hp (by simpa using hany) rfl rfl rfl
  | relocking timedOut =>
    simp only [advance, hp] at hs
    simp only [note, hrest, hp, if_true]
    split at hs <;> rename_i hguard <;> cases hs
    rw [hguard]
    refine .returns timedOut hp rfl rfl ?_
    cases h.wait i <;> rfl
  | notifyOne k =>
    simp only [advance, hp] at hs
    simp only [note, hrest, hp, if_true]
    split at hs <;> rename_i hlast <;> cases hs <;> cases k
    · rw [hlast]
      exact .remove [_] _ [] (by rw [hp]; rfl) (by rw [hp]; rfl)
        (List.dropLast_append_getLast? _ hlast).symm rfl rfl rfl
    · exact .other rfl (fun e => by rw [hp]; rfl) (fun r => .inl rfl)
        (.inl ⟨by rw [hp]; rfl, by rintro _ ⟨⟩⟩) (by rintro _ ⟨⟩) rfl
    · exact .other rfl (fun e => by rw [hp]; rfl) (fun r => .inl rfl)
        (.inl ⟨by rw [hp]; rfl, by rintro _ ⟨⟩⟩) (by rintro _ ⟨⟩) rfl
    · rw [hlast, Option.toList_none, Record.remove_nil]
      exact .of_pc rfl rfl (by rw [hp]; rfl) (by rw [hp]; rfl) (by rintro _ ⟨⟩) (by rintro _ ⟨⟩)
    · exact .of_pc rfl rfl (by rw [hp]; rfl) (by rw [hp]; rfl) (by rintro _ ⟨⟩) (by rintro _ ⟨⟩)
    · exact .of_pc rfl rfl (by rw [hp]; rfl) (by rw [hp]; rfl) (by rintro _ ⟨⟩) (by rintro _ ⟨⟩)
  | notifying k pending rest =>
    rcases pending with _ | ⟨e, pending⟩
    · rcases rest with _ | ⟨k', rest⟩ <;> simp only [advance, hp] at hs <;>
        simp only [note, hrest, hp, if_true] <;> cases hs
      · exact .of_pc rfl rfl (by rw [hp]; rfl) (by rw [hp]; rfl) (by rintro _ ⟨⟩) (by rintro _ ⟨⟩)
      · cases k' with
        | spin =>
          exact .remove _ [] rest (by rw [hp]; rfl) (by rw [hp]; rfl) rfl rfl rfl rfl
        | sync =>
          exact .other rfl (fun e => by rw [hp]; exact count_carries .sync (by rintro ⟨⟩) _ _ e)
            (fun r => .inl rfl) (.inl ⟨by rw [hp]; rfl, by rintro _ ⟨⟩⟩) (by rintro _ ⟨⟩) rfl
        | async =>
          exact .other rfl (fun e => by rw [hp]; exact count_carries .async (by rintro ⟨⟩) _ _ e)
            (fun r => .inl rfl) (.inl ⟨by rw [hp]; rfl, by rintro _ ⟨⟩⟩) (by rintro _ ⟨⟩) rfl
    · simp only [advance, hp] at hs
      simp only [note, hrest, hp, if_true]
      cases hs
      cases k with
      | spin => exact .store e pending rest hp rfl rfl rfl
      | sync =>
        refine .other rfl (fun x => ?_) (fun r => .inl rfl) (.inl ⟨by rw [hp]; rfl, by rintro _ ⟨⟩⟩) (by rintro _ ⟨⟩) rfl
        rw [hp]
        exact (count_carries .sync (by rintro ⟨⟩) _ _ x).trans (count_carries .sync (by rintro ⟨⟩) _ _ x).symm
      | async =>
        refine .other rfl (fun x => ?_) (fun r => ?_) (.inl ⟨by rw [hp]; rfl, by rintro _ ⟨⟩⟩) (by rintro _ ⟨⟩) rfl
        · rw [hp]
          exact (count_carries .async (by rintro ⟨⟩) _ _ x).trans (count_carries .async (by rintro ⟨⟩) _ _ x).symm
        · by_cases hr : r = e.reg
          · exact .inr (.inr ⟨e, by rw [hp]; exact List.mem_map_of_mem List.mem_cons_self, hr.symm⟩)
          · exact .inl (by simp [signal, Shared.setFlag, hr])
  | spawnTimer =>
    simp only [advance, hp] at hs
    simp only [note, hrest, hp, if_true]
    cases hs
    exact .of_pc rfl rfl (by rw [hp]; rfl) (by rw [hp]; rfl) (by rintro _ ⟨⟩) (by rintro _ ⟨⟩)
  | loadNow | parkNow | raceTimeout =>
    simp only [advance, hp] at hs
    simp only [note, hrest, hp, if_true]
    split at hs <;> cases hs <;>
      exact .of_pc rfl rfl (by rw [hp]; rfl) (by rw [hp]; rfl) (by rintro _ ⟨⟩) (by rintro _ ⟨⟩)
  | drop z r =>
    simp only [advance, hp] at hs
    simp only [note, hrest, hp, if_true]
    exact lift_spin hs (by rw [hp]; rfl) (by rw [hp]; rfl) (by rintro _ ⟨⟩) (by rintro _ ⟨⟩)
  | dropping z r =>
    simp only [advance, hp] at hs
    simp only [note, hrest, hp, if_true]
    cases hs
    rcases z with _ | (_ | _) | _ | _ <;>
      exact .of_pc rfl rfl (by rw [hp]; rfl) (by rw [hp]; rfl) (by rintro _ ⟨⟩) (by rintro _ ⟨⟩)
  | load deadline r =>
    simp only [advance, hp] at hs
    simp only [note, hrest, hp, if_true]
    split at hs <;> cases hs
    · exact .answered r (by rw [hp]; rfl) ‹_› rfl rfl rfl
    · cases deadline <;> exact .of_pc rfl rfl (by rw [hp]; rfl) (by rw [hp]; rfl) (by rintro _ ⟨⟩) (by rintro _ ⟨⟩)
  | loadNotified r =>
    simp only [advance, hp] at hs
    simp only [note, hrest, hp, if_true]
    cases hs
    split
    · exact .answered r (by rw [hp]; rfl) ‹_› rfl rfl rfl
    · exact .of_pc rfl rfl (by rw [hp]; rfl) (by rw [hp]; rfl) (by rintro _ ⟨⟩) fun r hr => hp ▸ hr
  | park deadline r =>
    simp only [advance, hp] at hs
    simp only [note, hrest, hp, if_true]
    split at hs <;> cases deadline <;> cases hs
    · exact .of_exit (k := .sync) rfl (fun r => .inl rfl) (by rintro ⟨⟩) (by rw [hp]; rfl) rfl rfl (by rintro _ ⟨⟩)
    · exact .of_pc rfl rfl (by rw [hp]; rfl) (by rw [hp]; rfl) (by rintro _ ⟨⟩) (by rintro _ ⟨⟩)
  | parkCheck d r =>
    simp only [advance, hp] at hs
    simp only [note, hrest, hp, if_true]
    split at hs <;> cases hs
    · exact .of_pc rfl rfl (by rw [hp]; rfl) (by rw [hp]; rfl) (by rintro _ ⟨⟩) (by rintro _ ⟨⟩)
    · exact .of_exit (k := .sync) rfl (fun r => .inl rfl) (by rintro ⟨⟩) (by rw [hp]; rfl) rfl rfl (by rintro _ ⟨⟩)
  | parkLeave r =>
    simp only [advance, hp] at hs
    simp only [note, hrest, hp, if_true]
    split at hs <;> cases hs <;>
      exact .of_exit (k := .sync) rfl (fun r => .inl rfl) (by rintro ⟨⟩) (by rw [hp]; rfl) rfl rfl (by rintro _ ⟨⟩)
  | await r =>
    simp only [advance, hp] at hs
    simp only [note, hrest, hp, if_true]
    split at hs <;> cases hs
    exact .of_exit (k := .async) rfl (fun r => .inl rfl) (by rintro ⟨⟩) (by rw [hp]; rfl) rfl rfl (by rintro _ ⟨⟩)
  | race r t =>
    simp only [advance, hp] at hs
    simp only [note, hrest, hp, if_true]
    split at hs <;> cases hs
    · exact .of_exit (k := .async) rfl (fun r => .inl rfl) (by rintro ⟨⟩) (by rw [hp]; rfl) rfl rfl (by rintro _ ⟨⟩)
    · exact .of_pc rfl rfl (by rw [hp]; rfl) (by rw [hp]; rfl) (by rintro _ ⟨⟩) (by rintro _ ⟨⟩)
  | raceLeave r =>
    simp only [advance, hp] at hs
    simp only [note, hrest, hp, if_true]
    split at hs <;> cases hs
    · refine .of_exit (k := .async) rfl (fun r' => ?_) (by rintro ⟨⟩) (by rw [hp]; rfl) rfl rfl (by rintro _ ⟨⟩)
      by_cases hr : r' = r
      · exact .inr (by rw [hp, hr]; rfl)
      · exact .inl (by simp [Shared.setFlag, Shared.setList, hr])
    · exact .of_exit (k := .async) rfl (fun r => .inl rfl) (by rintro ⟨⟩) (by rw [hp]; rfl) rfl rfl (by rintro _ ⟨⟩)
  | relock w timedOut =>
    simp only [note, hrest, hp, if_true]
    cases w <;> simp only [advance, hp] at hs <;>
      exact lift_spin hs (by rw [hp]; rfl) (by rw [hp]; rfl) (fun _ hr => by rw [hp]; exact hr) (by rintro _ ⟨⟩)

theorem step_spin (hl : (c.loc i).Shape) (hs : step i a c.shared (c.loc i) = some (s₁, l₁)) :
    SpinMove i c.shared (c.loc i) h s₁ l₁ (note c (.agent i a) h) := by
  cases a with
  | lock | access | drop | consume =>
    simp only [step] at hs
    split at hs
    · rename_i hrest
      have hp := (Local.atRest_iff.1 hrest).2
      exact lift_spin hs (by rw [hp]) (by rw [hp]) (by rintro _ ⟨⟩) (by rintro _ ⟨⟩)
    · cases hs
  | wait k deadline =>
    simp only [step, Bool.and_eq_true] at hs
    split at hs <;> cases hs
    rename_i hrest
    have hp := (Local.atRest_iff.1 hrest.1).2
    exact .of_pc rfl rfl (by rw [hp]; rfl) (by rw [hp]; rfl) (by rintro _ ⟨⟩) (by rintro _ ⟨⟩)
  | notifyOne | notifyAll =>
    simp only [step] at hs
    split at hs <;> cases hs
    rename_i hrest
    have hp := (Local.atRest_iff.1 hrest).2
    exact .of_pc rfl rfl (by rw [hp]; rfl) (by rw [hp]; rfl) (by rintro _ ⟨⟩) (by rintro _ ⟨⟩)
  | step =>
    simp only [step] at hs
    split at hs
    · exact advance_spin ‹_› hs
    · rename_i hbusy
      simp only [note, hbusy]
      exact lift_spin hs rfl rfl (fun _ => id) fun _ => id
  | spurious =>
    simp only [step] at hs
    split at hs
    · split at hs <;> cases hs <;> rename_i hp
      · exact .of_exit (k := .sync) rfl (fun r => .inl rfl) (by rintro ⟨⟩) (by rw [hp]; rfl) rfl rfl (by rintro _ ⟨⟩)
      · exact .of_pc rfl rfl (by rw [hp]; rfl) (by rw [hp]; rfl) (by rintro _ ⟨⟩) (by rintro _ ⟨⟩)
    · exact lift_spin hs rfl rfl (fun _ => id) fun _ => id
  | cancel =>
    simp only [step] at hs
    split at hs
    · split at hs <;> cases hs <;> rename_i hp <;>
        exact .of_exit (k := .async) rfl (fun r => .inl rfl) (by rintro ⟨⟩) (by rw [hp]; rfl) rfl rfl (by rintro _ ⟨⟩)
    · obtain ⟨m, lm, hm, rfl, rfl⟩ := lift_eq_some hs
      rcases hl.busy ‹_› with hp | ⟨z, r, hp, hquiet⟩ | ⟨timedOut, hp⟩
      · exact .of_pc rfl rfl (by rw [hp]) (by rw [hp]) (by rintro _ ⟨⟩) (by rintro _ ⟨⟩)
      · cases hq : (c.loc i).mx.pc <;> simp [Mutex.step, hq, Mutex.Pc.quiet] at hm hquiet
      · exact .of_pc rfl rfl (by rw [hp]; rfl) (by rw [hp]; rfl) (by rintro _ ⟨⟩) (by rintro _ ⟨⟩)

end Condvar

end WasmSafeThread
