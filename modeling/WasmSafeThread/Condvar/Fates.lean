import WasmSafeThread.Condvar.Deeds
import WasmSafeThread.Condvar.NotifyAll

/-!
# What becomes of the entry of a timed wait

A timed wait reports whether it was notified by what it finds in the waiting lists.  A run is written
down by the number of the wait: who took its entry, and what it returned.

* `Fates` : the entries that notifiers and timed waits took, the waits whose section went by the
  wrong entry, and the results; `Fates.note` is what a step adds.
* `FateMove` : all that a step can do to the waits, and what is written of it; `step_fate` is the
  inversion lemma.
* `Attributed` : what the lists, the flags and the waits say of the history; `attributed` : in every
  run.
-/

namespace WasmSafeThread

namespace Condvar

variable {ι R D : Type*} [DecidableEq ι]

/-! ### The history of a timed wait -/

/-- What became of the waits, by number. -/
structure Fates (ι : Type*) where
  /-- The agent and the list of a timed wait. -/
  wait : ℕ → Option (ι × Kind)
  /-- The number of the last wait of an agent, if it is timed. -/
  last : ι → Option ℕ
  /-- A notifier took the entry out of its list. -/
  taken : ℕ → Bool
  /-- A timed wait took the entry out of its list. -/
  left : ℕ → Bool
  /-- A section of the wait did not go by the entry of the wait: that of a timed-out
  `wait_async_timeout` did not find it, that of a `wait_block_timeout` found another one of the
  thread. -/
  misled : ℕ → Bool
  /-- The `timed_out()` of the wait. -/
  returned : ℕ → Option Bool

namespace Fates

variable (h : Fates ι)

/-- Nothing has happened. -/
def new : Fates ι where
  wait := fun _ => none
  last := fun _ => none
  taken := fun _ => false
  left := fun _ => false
  misled := fun _ => false
  returned := fun _ => none

/-- Agent `i` pushes entry `r` into list `k`. -/
def start (i : ι) (k : Kind) (deadline : Option ℕ) (r : ℕ) : Fates ι :=
  { h with
    wait := Function.update h.wait r (deadline.map fun _ => (i, k))
    last := Function.update h.last i (deadline.map fun _ => r) }

/-- A notifier takes the entries `es`. -/
def take (es : List (Entry ι)) : Fates ι :=
  { h with taken := fun r => h.taken r || es.any fun e => e.reg = r }

/-- A timed wait takes entry `r`. -/
def leave (r : ℕ) : Fates ι := { h with left := Function.update h.left r true }

/-- A section of wait `r` does not go by the entry of the wait. -/
def mislead (r : ℕ) : Fates ι := { h with misled := Function.update h.misled r true }

/-- Agent `i` returns from its last wait. -/
def finish (i : ι) (timedOut : Bool) : Fates ι :=
  match h.last i with
  | some r => { h with returned := Function.update h.returned r (some timedOut) }
  | none => h

/-- What a step adds to the history: the sections in which an entry is pushed, taken or looked for,
and the returns. -/
def note (c : Config ι (Shared ι R D) (Local ι R)) :
    Label ι (Act R D) (Event ι) → Fates ι → Fates ι
  | .agent i .step, h =>
    if (c.loc i).mx.pc.atRest then
      match (c.loc i).pc with
      | .register k deadline => h.start i k deadline c.shared.regs
      | .notifyOne k => h.take (c.shared.waiting k).getLast?.toList
      | .notifying _ [] (k :: _) => h.take (c.shared.waiting k)
      | .loadLeave r => if (c.shared.waiting .spin).any fun e => e.reg = r then h.leave r else h
      | .raceLeave r =>
        if (c.shared.waiting .async).any fun e => e.reg = r then h.leave r else h.mislead r
      | .parkCheck _ r =>
        -- "still in the list", but it is another wait of the thread that is
        if ((c.shared.waiting .sync).any fun e => e.agent = i) &&
            !((c.shared.waiting .sync).any fun e => e.reg = r) then h.mislead r
        else h
      | .parkLeave r =>
        match (c.shared.waiting .sync).find? fun e => e.agent = i with
        | some e => if e.reg = r then h.leave r else (h.leave e.reg).mislead r
        | none => h
      | .relocking timedOut =>
        match (c.loc i).mx.pc with
        | .guard => h.finish i timedOut
        | _ => h
      | _ => h
    else h
  | _, h => h

omit [DecidableEq ι] in
@[simp] theorem leave_left (r : ℕ) : (h.leave r).left r = true := Function.update_self ..

omit [DecidableEq ι] in
@[simp] theorem mislead_misled (r : ℕ) : (h.mislead r).misled r = true := Function.update_self ..

end Fates

/-! ### What one step can do to the waits -/

/-- The wait in progress has a deadline. -/
def Pc.timed : Pc ι → Bool
  | .drop z _ | .dropping z _ => !z.untimed
  | .load deadline _ | .park deadline _ => deadline.isSome
  | .await _ => false
  | _ => true

/-- What a step does to the waits, the lists and the flags, and what is written of it. -/
inductive FateMove (i : ι) (s : Shared ι R D) (l : Local ι R) (h : Fates ι) (s₁ : Shared ι R D)
    (l₁ : Local ι R) (h₁ : Fates ι) : Prop where
  /-- Nothing, or a wait is abandoned. -/
  | quiet (hlist : s₁.waiting = s.waiting) (hflags : s₁.flags = s.flags) (hregs : s₁.regs = s.regs)
      (hcarry : l₁.pc.carries = l.pc.carries)
      (hwait : l₁.pc.waitsOn = l.pc.waitsOn ∧ l₁.pc.timed = l.pc.timed ∨ l₁.pc.waitsOn = none)
      (hrelock : ∀ b, l₁.pc.relocks = some b → l.pc.relocks = some b ∨
        ∃ k r, l.pc.waitsOn = some (k, r) ∧ l.pc.timed = false)
      (hh : h₁ = h)
  /-- A wait pushes its entry. -/
  | push (k : Kind) (deadline : Option ℕ) (hpc : l.pc = .register k deadline)
      (hs : s₁ = s.push k i) (hl : l₁ = l.goto (registered s.regs k deadline))
      (hh : h₁ = h.start i k deadline s.regs)
  /-- A timed wait finds its flag set, or no entry of its thread. -/
  | answered (k : Kind) (r : ℕ) (hwait : l.pc.waitsOn = some (k, r))
      (why : s.flags r = true ∨ ⟨r, i⟩ ∉ s.waiting k)
      (hs : s₁ = s) (hl : ∃ w, l₁ = l.goto (.relock w false)) (hh : h₁ = h)
  /-- A timed wait takes its own entry. -/
  | leave (k : Kind) (r : ℕ) (hwait : l.pc.waitsOn = some (k, r)) (htimed : l.pc.timed = true)
      (hmem : ∃ e ∈ s.waiting k, e.reg = r)
      (hlist : ∀ k', (s₁.waiting k').Sublist (s.waiting k'))
      (hgone : ∀ e ∈ s₁.waiting k, e.reg ≠ r)
      (hkeep : ∀ k', ∀ e ∈ s.waiting k', e.reg = r ∨ e ∈ s₁.waiting k')
      (hflags : ∀ r', s₁.flags r' = true → s.flags r' = true ∨ r' = r) (hregs : s₁.regs = s.regs)
      (hl : ∃ w, l₁ = l.goto (.relock w true)) (hh : h₁ = h.leave r)
  /-- A `wait_async_timeout` that has timed out does not find its entry. -/
  | miss (r : ℕ) (hpc : l.pc = .raceLeave r) (hout : ∀ e ∈ s.waiting .async, e.reg ≠ r)
      (hs : s₁ = s) (hl : l₁ = l.goto (.relock .async true)) (hh : h₁ = h.mislead r)
  /-- A `wait_block_timeout` finds another entry of its thread and sleeps on. -/
  | stray (d r : ℕ) (hpc : l.pc = .parkCheck d r) (hs : s₁ = s) (hl : l₁ = l.goto (.parkNow d r))
      (hh : h₁ = h.mislead r)
  /-- A `wait_block_timeout` that has timed out takes another entry of its thread. -/
  | leaveOther (r : ℕ) (e : Entry ι) (hpc : l.pc = .parkLeave r) (he : e ∈ s.waiting .sync)
      (hagent : e.agent = i) (hlist : ∀ k', (s₁.waiting k').Sublist (s.waiting k'))
      (hgone : ∀ x ∈ s₁.waiting .sync, x.reg ≠ e.reg)
      (hkeep : ∀ k', ∀ x ∈ s.waiting k', x.reg = e.reg ∨ x ∈ s₁.waiting k')
      (hflags : s₁.flags = s.flags) (hregs : s₁.regs = s.regs)
      (hl : l₁ = l.goto (.relock .sync true)) (hh : h₁ = (h.leave e.reg).mislead r)
  /-- A wait returns. -/
  | returns (timedOut : Bool) (hpc : l.pc = .relocking timedOut) (hs : s₁ = s)
      (hl : l₁ = { l with pc := .ready, timedOut := timedOut }) (hh : h₁ = h.finish i timedOut)
  /-- A notifier takes entries out of a list. -/
  | take (k : Kind) (es es' : List (Entry ι)) (rest : List Kind) (hwait : l.pc.inWait = false)
      (hlist : s.waiting k = es' ++ es) (hs : s₁ = s.setList k es')
      (hl : l₁ = l.goto (.notifying k es rest)) (hh : h₁ = h.take es)
  /-- A notifier signals an entry. -/
  | signal (k : Kind) (e : Entry ι) (pending : List (Entry ι)) (rest : List Kind)
      (hpc : l.pc = .notifying k (e :: pending) rest) (hs : s₁ = signal s k e)
      (hl : l₁ = l.goto (.notifying k pending rest)) (hh : h₁ = h)

variable {i : ι} {a : Act R D} {b : Mutex.Act R D} {s s₁ : Shared ι R D} {l l₁ : Local ι R}
  {p : Pc ι} {c : Config ι (Shared ι R D) (Local ι R)} {h h₁ : Fates ι} {r : ℕ} {k : Kind}

theorem FateMove.of_pc (hs : s₁.waiting = s.waiting) (hf : s₁.flags = s.flags)
    (hregs : s₁.regs = s.regs) (hcarry : l₁.pc.carries = l.pc.carries)
    (hwait : l₁.pc.waitsOn = l.pc.waitsOn) (htimed : l₁.pc.timed = l.pc.timed)
    (hrelock : ∀ b, l₁.pc.relocks = some b → l.pc.relocks = some b) : FateMove i s l h s₁ l₁ h :=
  .quiet hs hf hregs hcarry (.inl ⟨hwait, htimed⟩) (fun b hb => .inl (hrelock b hb)) rfl

theorem lift_fate (hlift : lift i b s l p = some (s₁, l₁)) (hcarry : p.carries = l.pc.carries)
    (hwait : p.waitsOn = l.pc.waitsOn) (htimed : p.timed = l.pc.timed)
    (hrelock : ∀ b, p.relocks = some b → l.pc.relocks = some b) : FateMove i s l h s₁ l₁ h := by
  obtain ⟨m, lm, -, rfl, rfl⟩ := lift_eq_some hlift
  exact .of_pc rfl rfl rfl hcarry hwait htimed hrelock

omit [DecidableEq ι] in
theorem mem_eraseP_reg {es : List (Entry ι)} {e : Entry ι} (he : e ∈ es) :
    e.reg = r ∨ e ∈ es.eraseP fun x => x.reg = r :=
  (mem_or_of_eraseP (q := fun x => decide (x.reg = r)) he).imp_left of_decide_eq_true

theorem eraseP_agent {es : List (Entry ι)} {e : Entry ι}
    (hnodup : (es.map Entry.reg).Nodup) (he : es.find? (fun x => x.agent = i) = some e) :
    es.eraseP (fun x => x.agent = i) = es.eraseP fun x => x.reg = e.reg := by
  induction es with
  | nil => cases he
  | cons x es ih =>
    rw [List.map_cons, List.nodup_cons] at hnodup
    by_cases hx : x.agent = i
    · rw [List.find?_cons_of_pos (by simpa using hx)] at he
      cases he
      rw [List.eraseP_cons_of_pos (by simpa using hx), List.eraseP_cons_of_pos (by simp)]
    · rw [List.find?_cons_of_neg (by simpa using hx)] at he
      have hne : x.reg ≠ e.reg := by
        intro heq
        exact hnodup.1 (heq ▸ List.mem_map_of_mem (List.mem_of_find?_eq_some he))
      rw [List.eraseP_cons_of_neg (by simpa using hx), List.eraseP_cons_of_neg (by simpa using hne),
        ih hnodup.2 he]

omit [DecidableEq ι] in
theorem setList_eraseP (k' : Kind) :
    ((s.setList k ((s.waiting k).eraseP fun e => e.reg = r)).waiting k').Sublist (s.waiting k') ∧
      ∀ e ∈ s.waiting k', e.reg = r ∨
        e ∈ (s.setList k ((s.waiting k).eraseP fun e => e.reg = r)).waiting k' := by
  by_cases hk : k' = k
  · subst hk
    simp only [Shared.setList, Function.update_self]
    exact ⟨List.eraseP_sublist, fun e he => mem_eraseP_reg he⟩
  · simp only [Shared.setList, Function.update_of_ne hk]
    exact ⟨List.Sublist.refl _, fun e he => .inr he⟩

omit [DecidableEq ι] in
theorem setList_eraseP_gone (hnodup : ((s.waiting k).map Entry.reg).Nodup) :
    ∀ e ∈ (s.setList k ((s.waiting k).eraseP fun e => e.reg = r)).waiting k, e.reg ≠ r := by
  simp only [Shared.setList, Function.update_self]
  exact fun e he => reg_ne_of_mem_eraseP hnodup he

theorem advance_fate (hreg : Registered c) (hrest : (c.loc i).mx.pc.atRest = true)
    (hs : advance i c.shared (c.loc i) = some (s₁, l₁)) :
    FateMove i c.shared (c.loc i) h s₁ l₁ (h.note c (.agent i .step)) := by
  cases hp : (c.loc i).pc with
  | ready => simp [advance, hp] at hs
  | register k deadline =>
    simp only [advance, hp] at hs
    simp only [Fates.note, hrest, hp, if_true]
    cases hs
    exact .push k deadline hp rfl rfl rfl
  | spawnTimer =>
    simp only [advance, hp] at hs
    simp only [Fates.note, hrest, hp, if_true]
    cases hs
    exact .of_pc rfl rfl rfl (by rw [hp]; rfl) (by rw [hp]; rfl) (by rw [hp]; rfl) (by rintro _ ⟨⟩)
  | drop z r =>
    simp only [advance, hp] at hs
    simp only [Fates.note, hrest, hp, if_true]
    exact lift_fate hs (by rw [hp]; rfl) (by rw [hp]; rfl) (by rw [hp]; rfl) (by rintro _ ⟨⟩)
  | dropping z r =>
    simp only [advance, hp] at hs
    simp only [Fates.note, hrest, hp, if_true]
    cases hs
    rcases z with (_ | _) | (_ | _) | _ | _ <;>
      exact .of_pc rfl rfl rfl (by rw [hp]; rfl) (by rw [hp]; rfl) (by rw [hp]; rfl) (by rintro _ ⟨⟩)
  | load deadline r =>
    simp only [advance, hp] at hs
    simp only [Fates.note, hrest, hp, if_true]
    split at hs <;> cases hs
    · exact .answered .spin r (by rw [hp]; rfl) (.inl ‹_›) rfl ⟨.sync, rfl⟩ rfl
    · cases deadline <;>
        exact .of_pc rfl rfl rfl (by rw [hp]; rfl) (by rw [hp]; rfl) (by rw [hp]; rfl) (by rintro _ ⟨⟩)
  | loadNow | parkNow | raceTimeout =>
    simp only [advance, hp] at hs
    simp only [Fates.note, hrest, hp, if_true]
    split at hs <;> cases hs <;>
      exact .of_pc rfl rfl rfl (by rw [hp]; rfl) (by rw [hp]; rfl) (by rw [hp]; rfl) (by rintro _ ⟨⟩)
  | loadNotified r =>
    simp only [advance, hp] at hs
    simp only [Fates.note, hrest, hp, if_true]
    split at hs <;> cases hs
    · exact .answered .spin r (by rw [hp]; rfl) (.inl ‹_›) rfl ⟨.sync, rfl⟩ rfl
    · exact .of_pc rfl rfl rfl (by rw [hp]; rfl) (by rw [hp]; rfl) (by rw [hp]; rfl) (by rintro _ ⟨⟩)
  | loadLeave r =>
    simp only [advance, hp] at hs
    simp only [Fates.note, hrest, hp, if_true]
    split at hs <;> rename_i hany <;> cases hs
    · rw [if_pos hany]
      exact .leave .spin r (by rw [hp]; rfl) (by rw [hp]; rfl) (by simpa using hany)
        (fun k' => (setList_eraseP k').1) (setList_eraseP_gone (hreg.nodup _))
        (fun k' => (setList_eraseP k').2) (fun _ => .inl) rfl ⟨.sync, rfl⟩ rfl
    · rw [if_neg hany]
      exact .of_pc rfl rfl rfl (by rw [hp]; rfl) (by rw [hp]; rfl) (by rw [hp]; rfl) (by rintro _ ⟨⟩)
  | park deadline r =>
    simp only [advance, hp] at hs
    simp only [Fates.note, hrest, hp, if_true]
    split at hs <;> cases deadline <;> cases hs
    · exact .quiet rfl rfl rfl (by rw [hp]; rfl) (.inr rfl)
        (fun b _ => .inr ⟨.sync, r, by rw [hp]; rfl, by rw [hp]; rfl⟩) rfl
    · exact .of_pc rfl rfl rfl (by rw [hp]; rfl) (by rw [hp]; rfl) (by rw [hp]; rfl) (by rintro _ ⟨⟩)
  | parkCheck d r =>
    simp only [advance, hp] at hs
    simp only [Fates.note, hrest, hp, if_true]
    split at hs <;> rename_i hany <;> cases hs
    · rw [hany, Bool.true_and]
      split
      · exact .stray d r hp rfl rfl rfl
      · exact .of_pc rfl rfl rfl (by rw [hp]; rfl) (by rw [hp]; rfl) (by rw [hp]; rfl) (by rintro _ ⟨⟩)
    · rw [Bool.eq_false_of_not_eq_true hany]
      refine .answered .sync r (by rw [hp]; rfl) (.inr fun hmem => hany ?_) rfl ⟨.sync, rfl⟩ rfl
      exact List.any_eq_true.2 ⟨_, hmem, by simp⟩
  | parkLeave r =>
    simp only [advance, hp] at hs
    simp only [Fates.note, hrest, hp, if_true]
    split at hs <;> rename_i hany <;> cases hs
    · cases hfind : (c.shared.waiting .sync).find? fun e => e.agent = i with
      | none =>
        obtain ⟨e, he, hei⟩ := List.any_eq_true.1 hany
        exact absurd hei (List.find?_eq_none.1 hfind e he)
      | some e =>
        have hmem := List.mem_of_find?_eq_some hfind
        have hagent : e.agent = i := by simpa using List.find?_some hfind
        rw [eraseP_agent (hreg.nodup _) hfind]
        dsimp only
        split
        · rename_i her
          subst her
          exact .leave .sync e.reg (by rw [hp]; rfl) (by rw [hp]; rfl) ⟨e, hmem, rfl⟩
            (fun k' => (setList_eraseP k').1) (setList_eraseP_gone (hreg.nodup _))
            (fun k' => (setList_eraseP k').2) (fun _ => .inl) rfl ⟨.sync, rfl⟩ rfl
        · exact .leaveOther r e hp hmem hagent (fun k' => (setList_eraseP k').1)
            (setList_eraseP_gone (hreg.nodup _)) (fun k' => (setList_eraseP k').2) rfl rfl rfl rfl
    · have hfind : ((c.shared.waiting .sync).find? fun e => e.agent = i) = none := by
        rw [List.find?_eq_none]
        exact fun e he hei => hany (List.any_eq_true.2 ⟨e, he, hei⟩)
      rw [hfind]
      refine .answered .sync r (by rw [hp]; rfl) (.inr fun hmem => hany ?_) rfl ⟨.sync, rfl⟩ rfl
      exact List.any_eq_true.2 ⟨_, hmem, by simp⟩
  | await r =>
    simp only [advance, hp] at hs
    simp only [Fates.note, hrest, hp, if_true]
    split at hs <;> cases hs
    exact .answered .async r (by rw [hp]; rfl) (.inl ‹_›) rfl ⟨.async, rfl⟩ rfl
  | race r t =>
    simp only [advance, hp] at hs
    simp only [Fates.note, hrest, hp, if_true]
    split at hs <;> cases hs
    · exact .answered .async r (by rw [hp]; rfl) (.inl ‹_›) rfl ⟨.async, rfl⟩ rfl
    · exact .of_pc rfl rfl rfl (by rw [hp]; rfl) (by rw [hp]; rfl) (by rw [hp]; rfl) (by rintro _ ⟨⟩)
  | raceLeave r =>
    simp only [advance, hp] at hs
    simp only [Fates.note, hrest, hp, if_true]
    split at hs <;> rename_i hany <;> cases hs
    · rw [if_pos hany]
      refine .leave .async r (by rw [hp]; rfl) (by rw [hp]; rfl) (by simpa using hany)
        (fun k' => (setList_eraseP k').1) (setList_eraseP_gone (hreg.nodup .async))
        (fun k' => (setList_eraseP k').2) (fun r' hr' => ?_) rfl ⟨.async, rfl⟩ rfl
      by_cases hrr : r' = r
      · exact .inr hrr
      · exact .inl (by simpa [Shared.setFlag, Shared.setList, hrr] using hr')
    · rw [if_neg hany]
      exact .miss r hp (by simpa using hany) rfl rfl rfl
  | relock w timedOut =>
    simp only [Fates.note, hrest, hp, if_true]
    cases w <;> simp only [advance, hp] at hs <;>
      exact lift_fate hs (by rw [hp]; rfl) (by rw [hp]; rfl) (by rw [hp]; rfl)
        (fun _ hr => by rw [hp]; exact hr)
  | relocking timedOut =>
    simp only [advance, hp] at hs
    simp only [Fates.note, hrest, hp, if_true]
    split at hs <;> rename_i hguard <;> cases hs
    simpa only [hguard] using FateMove.returns timedOut hp rfl rfl rfl
  | notifyOne k =>
    simp only [advance, hp] at hs
    simp only [Fates.note, hrest, hp, if_true]
    split at hs <;> rename_i hlast <;> cases hs
    · rw [hlast]
      exact .take k [_] _ [] (by rw [hp]; rfl) (List.dropLast_append_getLast? _ hlast).symm rfl rfl
        rfl
    · rw [hlast, Option.toList_none]
      have hnil : h.take [] = h := by simp [Fates.take]
      rw [hnil]
      cases k <;>
        exact .of_pc rfl rfl rfl (by rw [hp]; rfl) (by rw [hp]; rfl) (by rw [hp]; rfl) (by rintro _ ⟨⟩)
  | notifying k pending rest =>
    rcases pending with _ | ⟨e, pending⟩
    · rcases rest with _ | ⟨k', rest⟩ <;> simp only [advance, hp] at hs <;>
        simp only [Fates.note, hrest, hp, if_true] <;> cases hs
      · exact .of_pc rfl rfl rfl (by rw [hp]; rfl) (by rw [hp]; rfl) (by rw [hp]; rfl) (by rintro _ ⟨⟩)
      · exact .take k' _ [] rest (by rw [hp]; rfl) rfl rfl rfl rfl
    · simp only [advance, hp] at hs
      simp only [Fates.note, hrest, hp, if_true]
      cases hs
      exact .signal k e pending rest hp rfl rfl rfl

theorem step_fate (hreg : Registered c) (hl : (c.loc i).Shape)
    (hs : step i a c.shared (c.loc i) = some (s₁, l₁)) :
    FateMove i c.shared (c.loc i) h s₁ l₁ (h.note c (.agent i a)) := by
  cases a with
  | lock | access | drop | consume =>
    simp only [step] at hs
    split at hs
    · rename_i hrest
      have hp := (Local.atRest_iff.1 hrest).2
      exact lift_fate hs (by rw [hp]) (by rw [hp]) (by rw [hp]) (by rintro _ ⟨⟩)
    · cases hs
  | wait k deadline =>
    simp only [step, Bool.and_eq_true] at hs
    split at hs <;> cases hs
    rename_i hrest
    have hp := (Local.atRest_iff.1 hrest.1).2
    exact .of_pc rfl rfl rfl (by rw [hp]; rfl) (by rw [hp]; rfl) (by rw [hp]; rfl) (by rintro _ ⟨⟩)
  | notifyOne | notifyAll =>
    simp only [step] at hs
    split at hs <;> cases hs
    rename_i hrest
    have hp := (Local.atRest_iff.1 hrest).2
    exact .of_pc rfl rfl rfl (by rw [hp]; rfl) (by rw [hp]; rfl) (by rw [hp]; rfl) (by rintro _ ⟨⟩)
  | step =>
    simp only [step] at hs
    split at hs
    · exact advance_fate hreg ‹_› hs
    · rename_i hbusy
      simp only [Fates.note, hbusy]
      exact lift_fate hs rfl rfl rfl fun _ => id
  | spurious =>
    simp only [step] at hs
    split at hs
    · split at hs <;> cases hs <;> rename_i hp
      · exact .quiet rfl rfl rfl (by rw [hp]; rfl) (.inr rfl)
          (fun b _ => .inr ⟨.sync, _, by rw [hp]; rfl, by rw [hp]; rfl⟩) rfl
      · exact .of_pc rfl rfl rfl (by rw [hp]; rfl) (by rw [hp]; rfl) (by rw [hp]; rfl) (by rintro _ ⟨⟩)
    · exact lift_fate hs rfl rfl rfl fun _ => id
  | cancel =>
    simp only [step] at hs
    split at hs
    · split at hs <;> cases hs <;> rename_i hp <;>
        exact .quiet rfl rfl rfl (by rw [hp]; rfl) (.inr rfl) (by rintro _ ⟨⟩) rfl
    · obtain ⟨m, lm, hm, rfl, rfl⟩ := lift_eq_some hs
      rcases hl.busy ‹_› with hp | ⟨z, r, hp, hquiet⟩ | ⟨timedOut, hp⟩
      · exact .of_pc rfl rfl rfl (by rw [hp]) (by rw [hp]) (by rw [hp]) (by rintro _ ⟨⟩)
      · cases hq : (c.loc i).mx.pc <;> simp [Mutex.step, hq, Mutex.Pc.quiet] at hm hquiet
      · exact .of_pc rfl rfl rfl (by rw [hp]; rfl) (by rw [hp]; rfl) (by rw [hp]; rfl) (by rintro _ ⟨⟩)

/-! ### What the history says -/

/-- Wait `r`, which was over with this `timed_out()`, was answered by what became of its entry,
unless it was misled.  A `wait_async_timeout` is misled when a notifier has taken its entry. -/
structure Fates.Verdict (h : Fates ι) (r : ℕ) (timedOut : Bool) : Prop where
  right : h.misled r = false → h.taken r = !timedOut ∧ h.left r = timedOut
  wrong : ∀ j, h.wait r = some (j, .async) → h.misled r = true →
    timedOut = true ∧ h.taken r = true ∧ h.left r = false

/-- What the configuration says of the history. -/
structure Attributed (h : Fates ι) (c : Config ι (Shared ι R D) (Local ι R)) : Prop where
  fresh : ∀ r, c.shared.regs ≤ r → h.taken r = false ∧ h.left r = false ∧ h.misled r = false ∧
    h.returned r = none ∧ h.wait r = none
  listed : ∀ k, ∀ e ∈ c.shared.waiting k, h.taken e.reg = false ∧ h.left e.reg = false
  carried : ∀ j x, x ∈ (c.loc j).pc.carries → h.taken x.2.reg = true
  flagged : ∀ r, c.shared.flags r = true → h.taken r = true ∨ h.left r = true
  untimed : ∀ j x, (c.loc j).pc.waitsOn = some x → (c.loc j).pc.timed = false → h.last j = none
  asleep : ∀ j k r, (c.loc j).pc.waitsOn = some (k, r) → (c.loc j).pc.timed = true →
    h.last j = some r ∧ h.wait r = some (j, k) ∧ h.left r = false ∧ h.returned r = none ∧
      (k ≠ .sync → h.misled r = false) ∧ (h.taken r = true ∨ ⟨r, j⟩ ∈ c.shared.waiting k)
  ended : ∀ j b r, (c.loc j).pc.relocks = some b → h.last j = some r →
    h.returned r = none ∧ (∃ k, h.wait r = some (j, k)) ∧ h.Verdict r b
  returned : ∀ r b, h.returned r = some b → (∃ w, h.wait r = some w) ∧ h.Verdict r b

omit [DecidableEq ι] in
theorem Fates.Verdict.keep {b : Bool} (H : h.Verdict r b) (hwait : h₁.wait r = h.wait r)
    (hmisled : h₁.misled r = h.misled r)
    (hsettled : h.taken r = true ∨ h.left r = true →
      h₁.taken r = h.taken r ∧ h₁.left r = h.left r) : h₁.Verdict r b := by
  refine ⟨fun hr => ?_, fun j hj hr => ?_⟩
  · rw [hmisled] at hr
    obtain ⟨ht, hl⟩ := H.right hr
    obtain ⟨ht', hl'⟩ := hsettled (by cases b <;> simp [ht, hl])
    exact ⟨ht'.trans ht, hl'.trans hl⟩
  · rw [hmisled] at hr
    obtain ⟨hb, ht, hl⟩ := H.wrong j (hwait ▸ hj) hr
    obtain ⟨ht', hl'⟩ := hsettled (.inl ht)
    exact ⟨hb, ht'.trans ht, hl'.trans hl⟩

namespace Attributed

/-- What a step that pushes no entry and returns from no wait writes down: an entry whose fate it
settles was listed and is no more, and is the mover's unless a notifier took it; and it misleads no
wait but the mover's. -/
structure Settles (i : ι) (c : Config ι (Shared ι R D) (Local ι R)) (h : Fates ι)
    (s₁ : Shared ι R D) (h₁ : Fates ι) : Prop where
  same : h₁.wait = h.wait ∧ h₁.last = h.last ∧ h₁.returned = h.returned
  regs : s₁.regs = c.shared.regs
  list : ∀ k, ∀ e ∈ s₁.waiting k, e ∈ c.shared.waiting k
  fate : ∀ r, h₁.taken r = h.taken r ∧ h₁.left r = h.left r ∨
    (∃ k, ∃ e ∈ c.shared.waiting k, e.reg = r ∧ (h₁.left r = h.left r ∨ e.agent = i)) ∧ Unlisted s₁ r
  keep : ∀ k, ∀ e ∈ c.shared.waiting k,
    e ∈ s₁.waiting k ∨ h₁.taken e.reg = true ∨ e.agent = i
  misled : ∀ r, h₁.misled r = h.misled r ∨
    (c.loc i).pc.timed = true ∧ ∃ k, (c.loc i).pc.waitsOn = some (k, r)
  flagged : ∀ r, s₁.flags r = true →
    c.shared.flags r = true ∨ h₁.taken r = true ∨ h₁.left r = true

omit [DecidableEq ι] in
theorem not_listed (H : Attributed h c) (hr : h.taken r = true ∨ h.left r = true) :
    Unlisted c.shared r := by
  intro k e he her
  obtain ⟨ht, hl⟩ := H.listed k e he
  rw [her] at ht hl
  simp [ht, hl] at hr

omit [DecidableEq ι] in
theorem Settles.settled (S : Settles i c h s₁ h₁) (H : Attributed h c)
    (hr : h.taken r = true ∨ h.left r = true) : h₁.taken r = h.taken r ∧ h₁.left r = h.left r := by
  rcases S.fate r with hsame | ⟨⟨k, e, he, her, -⟩, -⟩
  · exact hsame
  · exact absurd her (H.not_listed hr k e he)

theorem grow (H : Attributed h c) (hreg : Registered c) (S : Settles i c h s₁ h₁)
    (hcarry : ∀ x ∈ l₁.pc.carries, x ∈ (c.loc i).pc.carries ∨ h₁.taken x.2.reg = true)
    (hself : l₁.pc.waitsOn = none ∨ l₁.pc.waitsOn = (c.loc i).pc.waitsOn ∧
      l₁.pc.timed = (c.loc i).pc.timed ∧ s₁.waiting = c.shared.waiting ∧ h₁.taken = h.taken ∧
      h₁.left = h.left ∧ ∀ k r, l₁.pc.waitsOn = some (k, r) → k ≠ .sync → h₁.misled r = h.misled r)
    (hover : ∀ b r, l₁.pc.relocks = some b → h.last i = some r →
      h.returned r = none ∧ (∃ k, h.wait r = some (i, k)) ∧ h₁.Verdict r b) :
    Attributed h₁ (c.set i s₁ l₁) := by
  obtain ⟨hwait, hlast, hret⟩ := S.same
  -- a wait that is not the mover's is not misled
  have hmisled : ∀ {j r k}, j ≠ i → h.wait r = some (j, k) → h₁.misled r = h.misled r := by
    intro j r k hji hw
    rcases S.misled r with hsame | ⟨htimed, k', hwi⟩
    · exact hsame
    · rw [(H.asleep i k' r hwi htimed).2.1] at hw
      cases hw
      exact absurd rfl hji
  refine ⟨fun r hr => ?_, fun k e he => ?_, fun j x hx => ?_, fun r hr => ?_, fun j x hj ht => ?_,
    fun j k r hj ht => ?_, fun j b r hj hr => ?_, fun r b hr => ?_⟩
  · rw [Config.set_shared, S.regs] at hr
    obtain ⟨ht, hl, hm, hold⟩ := H.fresh r hr
    rw [hret, hwait]
    have hm₁ : h₁.misled r = false := by
      rcases S.misled r with hsame | ⟨-, k, hwi⟩
      · rw [hsame, hm]
      · exact absurd (hreg.wait i k r hwi).1 (Nat.not_lt.2 hr)
    rcases S.fate r with ⟨ht', hl'⟩ | ⟨⟨k, e, he, her, -⟩, -⟩
    · exact ⟨ht'.trans ht, hl'.trans hl, hm₁, hold⟩
    · exact absurd (her ▸ hreg.lt k e he) (Nat.not_lt.2 hr)
  · rcases S.fate e.reg with ⟨ht, hl⟩ | ⟨-, hout⟩
    · rw [ht, hl]
      exact H.listed k e (S.list k e he)
    · exact absurd rfl (hout k e he)
  · have hold : ∀ y, h.taken y = true → h₁.taken y = true :=
      fun y hy => (S.settled H (.inl hy)).1.trans hy
    by_cases hji : j = i
    · subst hji
      rw [Config.set_loc_self] at hx
      rcases hcarry x hx with hx | hx
      · exact hold _ (H.carried j x hx)
      · exact hx
    · rw [Config.set_loc_of_ne hji] at hx
      exact hold _ (H.carried j x hx)
  · rcases S.flagged r hr with hold | hnew
    · obtain ⟨ht, hl⟩ := S.settled H (H.flagged r hold)
      rw [ht, hl]
      exact H.flagged r hold
    · exact hnew
  · rw [hlast]
    by_cases hji : j = i
    · subst hji
      rw [Config.set_loc_self] at hj ht
      rcases hself with hnone | ⟨hw, htm, -⟩
      · rw [hnone] at hj
        cases hj
      · exact H.untimed j x (hw ▸ hj) (htm ▸ ht)
    · rw [Config.set_loc_of_ne hji] at hj ht
      exact H.untimed j x hj ht
  · rw [hlast, hwait, hret]
    by_cases hji : j = i
    · subst hji
      rw [Config.set_loc_self] at hj ht
      rcases hself with hnone | ⟨hw, htm, hlist, htaken, hleft, hmis⟩
      · rw [hnone] at hj
        cases hj
      · obtain ⟨h1, h2, h3, h4, h5, h6⟩ := H.asleep j k r (hw ▸ hj) (htm ▸ ht)
        rw [htaken, hleft, Config.set_shared, hlist]
        exact ⟨h1, h2, h3, h4, fun hk => (hmis k r hj hk).trans (h5 hk), h6⟩
    · rw [Config.set_loc_of_ne hji] at hj ht
      obtain ⟨h1, h2, h3, h4, h5, h6⟩ := H.asleep j k r hj ht
      refine ⟨h1, h2, ?_, h4, fun hk => (hmisled hji h2).trans (h5 hk), ?_⟩
      · rcases S.fate r with ⟨-, hl⟩ | ⟨⟨k', e, he, her, hl | hagent⟩, -⟩
        · exact hl.trans h3
        · exact hl.trans h3
        · exact absurd (((hreg.wait j k r hj).2 k' e he her).2.symm.trans hagent) hji
      · rcases h6 with htaken | hin
        · exact .inl ((S.settled H (.inl htaken)).1.trans htaken)
        · rcases S.keep k _ hin with hin | htaken | hagent
          · exact .inr hin
          · exact .inl htaken
          · exact absurd hagent hji
  · rw [hlast] at hr
    rw [hret, hwait]
    by_cases hji : j = i
    · subst hji
      rw [Config.set_loc_self] at hj
      exact hover b r hj hr
    · rw [Config.set_loc_of_ne hji] at hj
      obtain ⟨hnone, ⟨k, hw⟩, hv⟩ := H.ended j b r hj hr
      exact ⟨hnone, ⟨k, hw⟩, hv.keep (by rw [hwait]) (hmisled hji hw) (S.settled H)⟩
  · rw [hret] at hr
    rw [hwait]
    obtain ⟨hw, hv⟩ := H.returned r b hr
    refine ⟨hw, hv.keep (by rw [hwait]) ?_ (S.settled H)⟩
    rcases S.misled r with hsame | ⟨htimed, k, hwi⟩
    · exact hsame
    · rw [(H.asleep i k r hwi htimed).2.2.2.1] at hr
      cases hr

omit [DecidableEq ι] in
theorem Settles.of_eq (hlist : s₁.waiting = c.shared.waiting) (hregs : s₁.regs = c.shared.regs)
    (hflags : ∀ r, s₁.flags r = true → c.shared.flags r = true ∨ h.taken r = true) :
    Settles i c h s₁ h :=
  ⟨⟨rfl, rfl, rfl⟩, hregs, fun _ _ he => hlist ▸ he, fun _ => .inl ⟨rfl, rfl⟩,
    fun _ _ he => .inl (hlist ▸ he), fun _ => .inl rfl, fun r hr => (hflags r hr).imp_right .inl⟩

omit [DecidableEq ι] in
theorem Settles.mislead (hwait : (c.loc i).pc.waitsOn = some (k, r))
    (htimed : (c.loc i).pc.timed = true) : Settles i c h c.shared (h.mislead r) := by
  refine ⟨⟨rfl, rfl, rfl⟩, rfl, fun k e he => he, fun r => .inl ⟨rfl, rfl⟩, fun k e he => .inl he,
    fun r' => ?_, fun r hr => .inl hr⟩
  by_cases hr : r' = r
  · exact .inr ⟨htimed, k, hr ▸ hwait⟩
  · exact .inl (by simp [Fates.mislead, hr])

omit [DecidableEq ι] in
/-- The mover takes an entry of its own. -/
theorem Settles.leave (hlist : ∀ k', (s₁.waiting k').Sublist (c.shared.waiting k'))
    {e : Entry ι} (he : e ∈ c.shared.waiting k) (her : e.reg = r)
    (hown : ∀ k', ∀ x ∈ c.shared.waiting k', x.reg = r → k' = k ∧ x.agent = i)
    (hgone : ∀ x ∈ s₁.waiting k, x.reg ≠ r)
    (hkeep : ∀ k', ∀ x ∈ c.shared.waiting k', x.reg = r ∨ x ∈ s₁.waiting k')
    (hflags : ∀ r', s₁.flags r' = true → c.shared.flags r' = true ∨ r' = r)
    (hregs : s₁.regs = c.shared.regs) : Settles i c h s₁ (h.leave r) := by
  refine ⟨⟨rfl, rfl, rfl⟩, hregs, fun k' x hx => (hlist k').subset hx, fun r' => ?_,
    fun k' x hx => ?_, fun r => .inl rfl, fun r' hr' => (hflags r' hr').imp_right fun hr => ?_⟩
  · by_cases hr : r' = r
    · subst hr
      refine .inr ⟨⟨k, e, he, her, .inr (hown k e he her).2⟩, fun k' x hx hxr => ?_⟩
      obtain ⟨rfl, -⟩ := hown k' x ((hlist k').subset hx) hxr
      exact hgone x hx hxr
    · exact .inl (by simp [Fates.leave, hr])
  · rcases hkeep k' x hx with hxr | hx
    · exact .inr (.inr (hown k' x hx hxr).2)
    · exact .inl hx
  · subst hr
    exact .inr (by simp [Fates.leave])

omit [DecidableEq ι] in
/-- A notifier takes entries. -/
theorem Settles.take (hreg : Registered c) {es es' : List (Entry ι)}
    (hlist : c.shared.waiting k = es' ++ es) :
    Settles i c h (c.shared.setList k es') (h.take es) := by
  have hmem : ∀ k' x, x ∈ (c.shared.setList k es').waiting k' → x ∈ c.shared.waiting k' := by
    intro k' x hx
    by_cases hk : k' = k
    · subst hk
      rw [hlist]
      exact List.mem_append_left _ (by simpa [Shared.setList] using hx)
    · simpa [Shared.setList, hk] using hx
  refine ⟨⟨rfl, rfl, rfl⟩, rfl, hmem, fun r => ?_, fun k' x hx => ?_, fun r => .inl rfl,
    fun r hr => .inl hr⟩
  · by_cases hany : es.any (fun e => e.reg = r) = true
    · obtain ⟨e, he, her⟩ := List.any_eq_true.1 hany
      rw [decide_eq_true_eq] at her
      have hin : e ∈ c.shared.waiting k := by
        rw [hlist]
        exact List.mem_append_right _ he
      refine .inr ⟨⟨k, e, hin, her, .inl rfl⟩, fun k' x hx hxr => ?_⟩
      -- the number is in one list, and there once
      obtain rfl := hreg.kind k' k x e (hmem k' x hx) hin (hxr.trans her.symm)
      have hnodup := hreg.nodup k'
      rw [hlist, List.map_append, List.nodup_append] at hnodup
      exact hnodup.2.2 _ (List.mem_map_of_mem (by simpa [Shared.setList] using hx)) _
        (List.mem_map_of_mem he) (hxr.trans her.symm)
    · refine .inl ⟨?_, rfl⟩
      simp [Fates.take, Bool.eq_false_of_not_eq_true hany]
  · by_cases hk : k' = k
    · subst hk
      rw [hlist] at hx
      rcases List.mem_append.1 hx with hx | hx
      · exact .inl (by simpa [Shared.setList] using hx)
      · refine .inr (.inl ?_)
        have hany : es.any (fun e => e.reg = x.reg) = true := List.any_eq_true.2 ⟨x, hx, by simp⟩
        simp [Fates.take, hany]
    · exact .inl (by simpa [Shared.setList, hk] using hx)

/-- A wait pushes its entry: its number is new. -/
theorem push (H : Attributed h c) (hreg : Registered c) {deadline : Option ℕ} :
    Attributed (h.start i k deadline c.shared.regs) (c.set i (c.shared.push k i)
      ((c.loc i).goto (registered c.shared.regs k deadline))) := by
  have hmem : ∀ k' e, e ∈ (c.shared.push k i).waiting k' ↔
      e ∈ c.shared.waiting k' ∨ k' = k ∧ e = ⟨c.shared.regs, i⟩ := by
    intro k' e
    by_cases hk : k' = k
    · subst hk; simp [Shared.push, Shared.setList]
    · simp [Shared.push, Shared.setList, hk]
  have hfresh := H.fresh c.shared.regs (Nat.le_refl _)
  -- the waits so far have smaller numbers
  have hwait : ∀ {r}, r < c.shared.regs →
      (h.start i k deadline c.shared.regs).wait r = h.wait r := fun hr => by
    simp [Fates.start, Nat.ne_of_lt hr]
  have hlast : ∀ {j}, j ≠ i → (h.start i k deadline c.shared.regs).last j = h.last j :=
    fun hj => by simp [Fates.start, hj]
  have hpc : (registered (ι := ι) c.shared.regs k deadline).waitsOn = some (k, c.shared.regs) ∧
      (registered (ι := ι) c.shared.regs k deadline).carries = [] ∧
      (registered (ι := ι) c.shared.regs k deadline).relocks = none ∧
      (registered (ι := ι) c.shared.regs k deadline).timed = deadline.isSome := by
    cases k <;> cases deadline <;> exact ⟨rfl, rfl, rfl, rfl⟩
  obtain ⟨hwaits, hcarries, hrelocks, htimed⟩ := hpc
  have hlt : ∀ {r w}, h.wait r = some w → r < c.shared.regs := by
    intro r w hr
    by_contra hge
    rw [(H.fresh r (Nat.le_of_not_lt hge)).2.2.2.2] at hr
    cases hr
  refine ⟨fun r hr => ?_, fun k' e he => ?_, fun j x hx => ?_,
    fun r hr => H.flagged r hr, fun j x hj ht => ?_, fun j k' r hj ht => ?_, fun j b r hj hr => ?_,
    fun r b hr => ?_⟩
  · have hne : r ≠ c.shared.regs := Nat.ne_of_gt hr
    obtain ⟨ht, hl, hm, hret, hw⟩ := H.fresh r (Nat.le_of_succ_le hr)
    exact ⟨ht, hl, hm, hret, by simp [Fates.start, hne, hw]⟩
  · rcases (hmem k' e).1 he with he | ⟨-, rfl⟩
    · exact H.listed k' e he
    · exact ⟨hfresh.1, hfresh.2.1⟩
  · by_cases hji : j = i
    · subst hji
      rw [Config.set_loc_self, Local.goto_pc, hcarries] at hx
      cases hx
    · rw [Config.set_loc_of_ne hji] at hx
      exact H.carried j x hx
  · by_cases hji : j = i
    · subst hji
      rw [Config.set_loc_self, Local.goto_pc, htimed] at ht
      cases deadline
      · simp [Fates.start]
      · cases ht
    · rw [Config.set_loc_of_ne hji] at hj ht
      rw [hlast hji]
      exact H.untimed j x hj ht
  · by_cases hji : j = i
    · subst hji
      rw [Config.set_loc_self, Local.goto_pc, htimed] at ht
      rw [Config.set_loc_self, Local.goto_pc, hwaits] at hj
      cases hj
      cases deadline
      · cases ht
      · exact ⟨by simp [Fates.start], by simp [Fates.start], hfresh.2.1, hfresh.2.2.2.1,
          fun _ => hfresh.2.2.1, .inr ((hmem _ _).2 (.inr ⟨rfl, rfl⟩))⟩
    · rw [Config.set_loc_of_ne hji] at hj ht
      obtain ⟨h1, h2, h3, h4, h5, h6⟩ := H.asleep j k' r hj ht
      refine ⟨(hlast hji).trans h1, (hwait (hreg.wait j k' r hj).1).trans h2, h3, h4, h5, ?_⟩
      exact h6.imp_right fun hin => (hmem _ _).2 (.inl hin)
  · by_cases hji : j = i
    · subst hji
      rw [Config.set_loc_self, Local.goto_pc, hrelocks] at hj
      cases hj
    · rw [Config.set_loc_of_ne hji] at hj
      rw [hlast hji] at hr
      obtain ⟨hnone, ⟨k', hw⟩, hv⟩ := H.ended j b r hj hr
      exact ⟨hnone, ⟨k', (hwait (hlt hw)).trans hw⟩,
        hv.keep (hwait (hlt hw)) rfl fun _ => ⟨rfl, rfl⟩⟩
  · obtain ⟨⟨w, hw⟩, hv⟩ := H.returned r b hr
    exact ⟨⟨w, (hwait (hlt hw)).trans hw⟩, hv.keep (hwait (hlt hw)) rfl fun _ => ⟨rfl, rfl⟩⟩

omit [DecidableEq ι] in
theorem finish_eq (h : Fates ι) (i : ι) (b : Bool) :
    ∃ ret, h.finish i b = { h with returned := ret } ∧
      ∀ r, ret r = h.returned r ∨ h.last i = some r ∧ ret r = some b := by
  unfold Fates.finish
  cases hlast : h.last i with
  | none => exact ⟨h.returned, rfl, fun r => .inl rfl⟩
  | some r₀ =>
    refine ⟨Function.update h.returned r₀ (some b), rfl, fun r => ?_⟩
    by_cases hr : r = r₀
    · subst hr
      exact .inr ⟨rfl, Function.update_self ..⟩
    · exact .inl (Function.update_of_ne hr ..)

/-- A wait returns. -/
theorem returns (H : Attributed h c) {b : Bool} (hpc : (c.loc i).pc = .relocking b) :
    Attributed (h.finish i b) (c.set i c.shared { c.loc i with pc := .ready, timedOut := b }) := by
  obtain ⟨ret, hfin, hret⟩ := finish_eq h i b
  rw [hfin]
  have hover : ∀ {r}, h.last i = some r →
      h.returned r = none ∧ (∃ k, h.wait r = some (i, k)) ∧ h.Verdict r b :=
    fun hr => H.ended i b _ (by rw [hpc]; rfl) hr
  have hother : ∀ {j k r}, j ≠ i → h.wait r = some (j, k) → ret r = h.returned r := by
    intro j k r hji hw
    rcases hret r with hsame | ⟨hlast, -⟩
    · exact hsame
    · obtain ⟨-, ⟨k', hw'⟩, -⟩ := hover hlast
      rw [hw'] at hw
      cases hw
      exact absurd rfl hji
  refine ⟨fun r hr => ?_, H.listed, fun j x hx => ?_, H.flagged, fun j x hj ht => ?_,
    fun j k r hj ht => ?_, fun j b' r hj hr => ?_, fun r b' hr => ?_⟩
  · obtain ⟨ht, hl, hm, hnone, hw⟩ := H.fresh r hr
    refine ⟨ht, hl, hm, ?_, hw⟩
    rcases hret r with hsame | ⟨hlast, -⟩
    · exact hsame.trans hnone
    · obtain ⟨-, ⟨k', hw'⟩, -⟩ := hover hlast
      rw [hw] at hw'
      cases hw'
  · by_cases hji : j = i
    · subst hji
      rw [Config.set_loc_self] at hx
      cases hx
    · rw [Config.set_loc_of_ne hji] at hx
      exact H.carried j x hx
  · by_cases hji : j = i
    · subst hji
      rw [Config.set_loc_self] at hj
      cases hj
    · rw [Config.set_loc_of_ne hji] at hj ht
      exact H.untimed j x hj ht
  · by_cases hji : j = i
    · subst hji
      rw [Config.set_loc_self] at hj
      cases hj
    · rw [Config.set_loc_of_ne hji] at hj ht
      obtain ⟨h1, h2, h3, h4, h5, h6⟩ := H.asleep j k r hj ht
      exact ⟨h1, h2, h3, (hother hji h2).trans h4, h5, h6⟩
  · by_cases hji : j = i
    · subst hji
      rw [Config.set_loc_self] at hj
      cases hj
    · rw [Config.set_loc_of_ne hji] at hj
      obtain ⟨hnone, ⟨k, hw⟩, hv⟩ := H.ended j b' r hj hr
      exact ⟨(hother hji hw).trans hnone, ⟨k, hw⟩, hv.keep rfl rfl fun _ => ⟨rfl, rfl⟩⟩
  · rcases hret r with hsame | ⟨hlast, hb⟩
    · obtain ⟨hw, hv⟩ := H.returned r b' (hsame.symm.trans hr)
      exact ⟨hw, hv.keep rfl rfl fun _ => ⟨rfl, rfl⟩⟩
    · obtain ⟨-, ⟨k, hw⟩, hv⟩ := hover hlast
      dsimp only at hr
      rw [hb] at hr
      cases hr
      exact ⟨⟨_, hw⟩, hv.keep rfl rfl fun _ => ⟨rfl, rfl⟩⟩

omit [DecidableEq ι] in
theorem verdict_of_wait (H : Attributed h c) (h₁ : Fates ι) (hw : (c.loc i).pc.waitsOn = some (k, r)) {b : Bool}
    (hright : (c.loc i).pc.timed = true → h₁.misled r = false →
      h₁.taken r = !b ∧ h₁.left r = b)
    (hwrong : (c.loc i).pc.timed = true → k = .async → h₁.misled r = true →
      b = true ∧ h₁.taken r = true ∧ h₁.left r = false) (hwait : h₁.wait = h.wait) {r' : ℕ}
    (hlast : h.last i = some r') :
    h.returned r' = none ∧ (∃ k, h.wait r' = some (i, k)) ∧ h₁.Verdict r' b := by
  cases ht : (c.loc i).pc.timed with
  | false =>
    rw [H.untimed i _ hw ht] at hlast
    cases hlast
  | true =>
    obtain ⟨h1, h2, -, h4, -⟩ := H.asleep i k r hw ht
    rw [h1] at hlast
    cases hlast
    refine ⟨h4, ⟨k, h2⟩, hright ht, fun j hj hm => hwrong ht ?_ hm⟩
    rw [hwait, h2] at hj
    cases hj
    rfl

theorem step (H : Attributed h c) (hreg : Registered c)
    (m : FateMove i c.shared (c.loc i) h s₁ l₁ h₁) : Attributed h₁ (c.set i s₁ l₁) := by
  cases m with
  | quiet hlist hflags hregs hcarry hwait hrelock hh =>
    subst hh
    refine H.grow hreg (.of_eq hlist hregs fun r hr => .inl (hflags ▸ hr))
      (fun x hx => .inl (hcarry ▸ hx)) ?_ fun b r hb hr => ?_
    · rcases hwait with ⟨hw, ht⟩ | hnone
      · exact .inr ⟨hw, ht, hlist, rfl, rfl, fun _ _ _ _ => rfl⟩
      · exact .inl hnone
    · rcases hrelock b hb with hold | ⟨k, r', hw, ht⟩
      · exact H.ended i b r hold hr
      · rw [H.untimed i _ hw ht] at hr
        cases hr
  | push k deadline hpc hs hl hh =>
    subst hs hl hh
    exact H.push hreg
  | answered k r hwait why hs hl hh =>
    obtain ⟨w, rfl⟩ := hl
    subst hs hh
    refine H.grow hreg (.of_eq rfl rfl fun _ => .inl) nofun (.inl rfl) fun b r' hb hr => ?_
    cases hb
    refine H.verdict_of_wait _ hwait (fun ht _ => ?_) (fun ht hk hm => ?_) rfl hr
    · obtain ⟨-, -, hleft, -, -, htaken⟩ := H.asleep i k r hwait ht
      refine ⟨?_, hleft⟩
      rcases why with hflag | hout
      · simpa [hleft] using H.flagged r hflag
      · exact htaken.resolve_right hout
    · obtain ⟨-, -, -, -, hmis, -⟩ := H.asleep i k r hwait ht
      rw [hmis (by rw [hk]; exact nofun)] at hm
      cases hm
  | leave k r hwait htimed hmem hlist hgone hkeep hflags hregs hl hh =>
    obtain ⟨w, rfl⟩ := hl
    obtain ⟨e, he, her⟩ := hmem
    subst hh
    refine H.grow hreg (.leave hlist he her (hreg.wait i k r hwait).2 hgone hkeep hflags hregs)
      nofun (.inl rfl) fun b r' hb hr => ?_
    cases hb
    refine H.verdict_of_wait (h.leave r) hwait (fun ht _ => ⟨?_, ?_⟩) (fun ht hk hm => ?_) rfl hr
    · exact her ▸ (H.listed k e he).1
    · exact h.leave_left r
    · obtain ⟨-, -, -, -, hmis, -⟩ := H.asleep i k r hwait ht
      rw [Fates.leave, hmis (by rw [hk]; exact nofun)] at hm
      cases hm
  | miss r hpc hout hs hl hh =>
    subst hs hl hh
    have hwait : (c.loc i).pc.waitsOn = some (.async, r) := by rw [hpc]; rfl
    refine H.grow hreg (.mislead hwait (by rw [hpc]; rfl)) nofun (.inl rfl) fun b r' hb hr => ?_
    cases hb
    refine H.verdict_of_wait (h.mislead r) hwait (fun _ hm => ?_) (fun ht _ _ => ?_) rfl hr
    · rw [Fates.mislead_misled] at hm
      cases hm
    · -- the entry was pushed, and is not there any more: a notifier has taken it
      obtain ⟨-, -, hleft, -, -, htaken⟩ := H.asleep i .async r hwait ht
      exact ⟨rfl, htaken.resolve_right fun hin => hout _ hin rfl, hleft⟩
  | stray d r hpc hs hl hh =>
    subst hs hl hh
    have hwait : (c.loc i).pc.waitsOn = some (.sync, r) := by rw [hpc]; rfl
    refine H.grow hreg (.mislead hwait (by rw [hpc]; rfl)) nofun (.inr ⟨hwait.symm, ?_, rfl, rfl, rfl,
      fun k r' hw hk => ?_⟩) nofun
    · rw [hpc]
      rfl
    · cases hw
      exact absurd rfl hk
  | leaveOther r e hpc he hagent hlist hgone hkeep hflags hregs hl hh =>
    subst hl hh
    have hwait : (c.loc i).pc.waitsOn = some (.sync, r) := by rw [hpc]; rfl
    have hown : ∀ k', ∀ x ∈ c.shared.waiting k', x.reg = e.reg → k' = .sync ∧ x.agent = i := by
      intro k' x hx hxe
      obtain rfl := hreg.kind k' .sync x e hx he hxe
      have hxe' : x = e := List.inj_on_of_nodup_map (hreg.nodup .sync) hx he hxe
      exact ⟨rfl, hxe' ▸ hagent⟩
    have hleave : Settles i c h s₁ (h.leave e.reg) := .leave hlist he rfl hown hgone hkeep
      (fun r' hr' => .inl (hflags ▸ hr')) hregs
    have hsettles : Settles i c h s₁ ((h.leave e.reg).mislead r) :=
      { hleave with
        misled := (Settles.mislead (h := h) hwait (by rw [hpc]; rfl)).misled }
    refine H.grow hreg hsettles nofun (.inl rfl) fun b r' hb hr => ?_
    cases hb
    refine H.verdict_of_wait ((h.leave e.reg).mislead r) hwait (fun _ hm => ?_)
      (fun _ hk => nomatch hk) rfl hr
    rw [Fates.mislead_misled] at hm
    cases hm
  | returns b hpc hs hl hh =>
    subst hs hl hh
    exact H.returns hpc
  | take k es es' rest hwait hlist hs hl hh =>
    subst hs hl hh
    refine H.grow hreg (.take hreg hlist) (fun x hx => ?_) (.inl rfl) nofun
    obtain ⟨e, he, rfl⟩ := List.mem_map.1 hx
    have hany : es.any (fun x => x.reg = e.reg) = true := List.any_eq_true.2 ⟨e, he, by simp⟩
    exact .inr (by simp [Fates.take, hany])
  | signal k e pending rest hpc hs hl hh =>
    subst hs hl hh
    have htaken : h₁.taken e.reg = true :=
      H.carried i (k, e) (by rw [hpc]; exact List.mem_map_of_mem List.mem_cons_self)
    refine H.grow hreg (.of_eq (by cases k <;> rfl) (by cases k <;> rfl) fun r hr => ?_)
      (fun x hx => .inl ?_) (.inl rfl) nofun
    · cases k with
      | sync => exact .inl hr
      | spin | async =>
        by_cases hre : r = e.reg
        · exact .inr (hre ▸ htaken)
        · exact .inl (by simpa [signal, Shared.setFlag, hre] using hr)
    · obtain ⟨y, hy, rfl⟩ := List.mem_map.1 hx
      rw [hpc]
      exact List.mem_map_of_mem (List.mem_cons_of_mem _ hy)

end Attributed

variable {plat : Platform ι} {value : D} {regs : ι → R}

/-- **Every run says of its waits what the lists say.** -/
theorem attributed (H : sys.History Fates.note .new (init plat value regs) h c) :
    Attributed h c := by
  refine System.ReachNote.invariant (I := Attributed) H ?_ (fun h c i a s l hc ih _ hs => ?_)
    fun h c e s _ ih _ hs => ?_
  · exact ⟨fun _ _ => ⟨rfl, rfl, rfl, rfl, rfl⟩, nofun, nofun, nofun, nofun, nofun, nofun, nofun⟩
  · exact ih.step (registered_inv hc) (step_fate (registered_inv hc) (shape hc i) hs)
  · simp only [sys, Option.map_eq_some_iff] at hs
    obtain ⟨p, -, rfl⟩ := hs
    exact ⟨ih.fresh, ih.listed, ih.carried, ih.flagged, ih.untimed, ih.asleep, ih.ended, ih.returned⟩

end Condvar

end WasmSafeThread
