import WasmSafeThread.Mutex.Entries
import WasmSafeThread.Mutex.Waiting

/-!
# When an acquisition that nobody disturbs succeeds

From some instant of a call until its return no other agent has the guard, and none is in
`Guard::drop`.  Then the mutex is free for the call: its next attempt succeeds, and if it waits it has
its wake-up.  What it has read before that instant is another matter.  `lock_spin_timeout` reads the
clock after an attempt that failed, and `lock_async_timeout` polls the timeout after a poll of the
notification that failed; both then return `None` without a last attempt.  `lock_block_timeout` makes
one.

* `Undisturbed` : the condition on the steps from that instant to the return.
* `Pc.givesUp` : the next operation of the call is the one that returns `None`.
* `undisturbed_iff` : the call returns the guard exactly when its first operation after that instant
  does not give up.
-/

namespace WasmSafeThread

namespace Mutex

variable {ι R D : Type*} [DecidableEq ι]

/-- The agent is in `Guard::drop`. -/
def Pc.drops : Pc ι → Bool
  | .didUnlock _ _ _ => true
  | _ => false

/-- The call of agent `i` is in progress, no other agent has the guard, and none is in `Guard::drop`. -/
structure Undisturbed (i : ι) (c : Config ι (Shared ι R D) (Local ι R)) : Prop where
  call : (c.loc i).pc.acquires = true
  free : ∀ j, j ≠ i → (c.loc j).pc.hasGuard = false
  dropped : ∀ j, (c.loc j).pc.drops = false

/-- The next operation finds the deadline passed, or the timeout sent, and the call returns `None`. -/
def Pc.givesUp (p : Platform ι) : Pc ι → Bool
  | .lockSpinNow d => decide (d ≤ p.clock)
  | .raceTimeout _ _ t => p.sent t
  | _ => false

/-- Whether the first operation of agent `i` gives up, once it has been made. -/
def firstStep (i : ι) (c : Config ι (Shared ι R D) (Local ι R)) :
    Label ι (Act R D) (Event ι) → Option Bool → Option Bool
  | .agent j .step, none => if j = i then some ((c.loc i).pc.givesUp c.shared.plat) else none
  | _, h => h

/-- The next operation of the call is not the one that may give up. -/
def Pc.fresh : Pc ι → Bool
  | .lockSpinNow _ | .raceTimeout _ _ _ => false
  | p => p.acquires

variable {i j : ι} {a : Act R D} {s s₁ : Shared ι R D} {l l₁ : Local ι R} {plat : Platform ι}
  {value : D} {regs : ι → R} {c c₁ : Config ι (Shared ι R D) (Local ι R)} {h : Option Bool}

theorem Undisturbed.lock_free (hc : sys.Reachable (init plat value regs) c) (H : Undisturbed i c)
    (hi : (c.loc i).pc.hasGuard = false) : c.shared.dataLock = false := by
  by_contra hlock
  obtain ⟨j, hj⟩ := (owned hc).iff.1 (Bool.eq_true_of_not_eq_false hlock)
  by_cases hji : j = i
  · subst hji
    rw [hi] at hj
    cases hj
  · rw [H.free j hji] at hj
    cases hj

theorem Undisturbed.signalled (hc : sys.Reachable (init plat value regs) c) (H : Undisturbed i c)
    {slot : Slot} (hw : (c.loc i).pc.waitsOn = some slot) :
    c.shared.plat.Signalled (slot.wake i) = true := by
  by_contra hsig
  rcases guard_or_willSignal hc hw (Bool.eq_false_of_not_eq_true hsig) with ⟨j, hj⟩ | ⟨j, hj⟩
  · by_cases hji : j = i
    · subst hji
      rw [Pc.hasGuard_of_waitsOn hw] at hj
      cases hj
    · rw [H.free j hji] at hj
      cases hj
  · obtain ⟨w, pending, rest, hp, -⟩ := hj
    have hdrop := H.dropped j
    rw [hp] at hdrop
    cases hdrop

/-- **One operation of the call**, when the mutex is free for it and its wake-up is there: the call goes
on, or it has the guard, unless the operation gives up. -/
theorem advance_free (hs : advance i s l = some (s₁, l₁)) (hcall : l.pc.acquires = true)
    (hfree : l.pc.hasGuard = false → s.dataLock = false)
    (hsig : ∀ slot, l.pc.waitsOn = some slot → s.plat.Signalled (slot.wake i) = true) :
    if l.pc.givesUp s.plat then l₁.pc = .failed else l₁.pc.fresh = true ∨ l₁.pc = .guard := by
  cases hp : l.pc with
  | idle | failed | guard | didUnlock => rw [hp] at hcall; cases hcall
  | tryLock =>
    have hlock := hfree (by rw [hp]; rfl)
    simp only [advance, hp, Shared.tryLock, hlock] at hs
    cases hs
    exact .inr rfl
  | lockSpin d =>
    have hlock := hfree (by rw [hp]; rfl)
    simp only [advance, hp, hlock] at hs
    cases hs
    exact .inr rfl
  | lockSpinNow d =>
    simp only [advance, hp] at hs
    cases hs
    by_cases hd : d ≤ s.plat.clock <;> simp [Pc.givesUp, hd, Pc.fresh, Pc.acquires]
  | lockNow w d =>
    simp only [advance, hp] at hs
    cases hs
    refine .inl ?_
    rw [Local.goto_pc]
    split <;> rfl
  | enter w d =>
    simp only [advance, hp] at hs
    split at hs <;> cases hs
    exact .inl rfl
  | attempt w d =>
    have hlock := hfree (by rw [hp]; rfl)
    simp only [advance, hp, Shared.tryLock, hlock] at hs
    cases hs
    exact .inl rfl
  | push w d =>
    simp only [advance, hp] at hs
    cases hs
    exact .inl rfl
  | leaveOk w =>
    simp only [advance, hp] at hs
    cases hs
    exact .inr rfl
  | leaveErr slot d =>
    simp only [advance, hp] at hs
    cases hs
    refine .inl ?_
    cases slot <;> cases d <;> rfl
  | park d =>
    simp only [advance, hp] at hs
    split at hs <;> cases hs
    exact .inl (by cases d <;> rfl)
  | await n =>
    simp only [advance, hp] at hs
    split at hs <;> cases hs
    exact .inl rfl
  | spawnTimer d n =>
    simp only [advance, hp] at hs
    cases hs
    exact .inl rfl
  | race d n t =>
    -- the notification was sent before the window
    have hsent : s.plat.sent n = true := hsig (.cont n) (by rw [hp]; rfl)
    simp only [advance, hp, hsent] at hs
    cases hs
    exact .inl rfl
  | raceTimeout d n t =>
    simp only [advance, hp] at hs
    cases hs
    cases hsent : s.plat.sent t <;> simp [Pc.givesUp, hsent, Pc.fresh, Pc.acquires]

/-- Where the call can be, once its first operation has been made or before. -/
def Kept (h : Option Bool) (p : Pc ι) : Prop :=
  match h with
  | none => p.acquires = true ∨ p = .idle
  | some false => p.fresh = true ∨ p = .guard ∨ p = .idle
  | some true => p = .failed

omit [DecidableEq ι] in
theorem Pc.acquires_of_fresh {p : Pc ι} (h : p.fresh = true) : p.acquires = true := by
  cases p <;> first | rfl | cases h

omit [DecidableEq ι] in
theorem Pc.givesUp_of_fresh {p : Pc ι} {q : Platform ι} (h : p.fresh = true) :
    p.givesUp q = false := by
  cases p <;> first | rfl | cases h

/-- A step of the call in the window. -/
theorem Kept.step (hc : sys.Reachable (init plat value regs) c) (H : Undisturbed i c)
    (hk : Kept h (c.loc i).pc) (hs : step i a c.shared (c.loc i) = some (s₁, l₁)) :
    Kept (firstStep i c (.agent i a) h) l₁.pc := by
  have hcall := H.call
  cases a with
  | step =>
    have hmove := advance_free hs hcall (H.lock_free hc) fun slot => H.signalled hc
    cases h with
    | none =>
      simp only [firstStep, if_true]
      cases hgive : (c.loc i).pc.givesUp c.shared.plat with
      | true => simpa only [Kept, hgive, if_true] using hmove
      | false =>
        rw [hgive] at hmove
        exact hmove.imp_right .inl
    | some b =>
      cases b with
      | true =>
        rw [show (c.loc i).pc = .failed from hk] at hcall
        cases hcall
      | false =>
        rcases hk with hfresh | hpc | hpc
        · rw [Pc.givesUp_of_fresh hfresh] at hmove
          exact hmove.imp_right .inl
        · rw [hpc] at hcall; cases hcall
        · rw [hpc] at hcall; cases hcall
  | spurious =>
    cases hp : (c.loc i).pc <;> simp only [Mutex.step, hp, reduceCtorEq] at hs
    cases hs
    rename_i d
    rw [hp] at hk
    have hagain : (again .sync d : Pc ι).fresh = true := by cases d <;> rfl
    rcases h with _ | _ | _
    · exact .inl (Pc.acquires_of_fresh hagain)
    · exact .inl hagain
    · cases hk
  | cancel =>
    have hidle : l₁.pc = .idle := by
      cases hp : (c.loc i).pc <;> simp only [Mutex.step, hp, reduceCtorEq] at hs
      all_goals cases hs; rfl
    rw [hidle]
    rcases h with _ | _ | _
    · exact .inr rfl
    · exact .inr (.inr rfl)
    · rw [show (c.loc i).pc = .failed from hk] at hcall
      cases hcall
  | call | access | drop | consume =>
    cases hp : (c.loc i).pc with
    | idle | failed | guard | didUnlock => rw [hp] at hcall; cases hcall
    | _ => simp [Mutex.step, hp, Pc.atRest] at hs

/-- **Nobody disturbs the call from some instant on.**  When it returns, it returns the guard exactly if
its first operation after that instant was not the one that gives up. -/
theorem undisturbed_iff (hc : sys.Reachable (init plat value regs) c)
    (hcall : (c.loc i).pc.acquires = true)
    (H : sys.ReachNote (fun _ c _ => Undisturbed i c) (firstStep i) none c h c₁)
    (hret : (c₁.loc i).pc = .guard ∨ (c₁.loc i).pc = .failed) :
    (c₁.loc i).pc = .guard ↔ h = some false := by
  have hk : Kept h (c₁.loc i).pc := by
    refine System.ReachNote.invariant (I := fun h c => Kept h (c.loc i).pc) H (.inl hcall) ?_ ?_
    · intro h c' j a s l hc' hk hP hs
      by_cases hji : j = i
      · subst hji
        rw [Config.set_loc_self]
        exact hk.step (hc.trans hc') hP hs
      · rw [Config.set_loc_of_ne (Ne.symm hji)]
        have hnote : firstStep i c' (.agent j a) h = h := by
          cases a <;> cases h <;> simp [firstStep, hji]
        rw [hnote]
        exact hk
    · intro h c' e s _ hk _ _
      exact hk
  rcases h with _ | _ | _
  · rcases hk with hk | hk <;> rcases hret with hret | hret <;> rw [hret] at hk <;> cases hk
  · refine ⟨fun _ => rfl, fun _ => ?_⟩
    rcases hk with hk | hk | hk <;> rcases hret with hret | hret <;> rw [hret] at hk <;>
      first | exact hret | cases hk
  · rw [show (c₁.loc i).pc = .failed from hk]
    simp

instance [Fintype ι] (i : ι) (c : Config ι (Shared ι R D) (Local ι R)) :
    Decidable (Undisturbed i c) :=
  decidable_of_iff ((c.loc i).pc.acquires = true ∧ (∀ j, j ≠ i → (c.loc j).pc.hasGuard = false) ∧
      ∀ j, (c.loc j).pc.drops = false)
    ⟨fun ⟨hcall, hfree, hdropped⟩ => ⟨hcall, hfree, hdropped⟩,
      fun h => ⟨h.call, h.free, h.dropped⟩⟩

/-- Agent `true` locks; agent `false` calls a timed acquisition with the deadline 5, and makes `n`
operations; agent `true` drops the guard, which takes `m` operations, and the clock shows 5. -/
def lockContended (op : Op) (n m : ℕ) : List (Label Bool (Act Unit Unit) (Event Bool)) :=
  [.agent true (.call .tryLock), .agent true .step, .agent false (.call op)] ++
    List.replicate n (.agent false .step) ++ .agent true .drop :: List.replicate m (.agent true .step) ++
    [.env (.tick 5)]

/-- A run in which the call returns the guard: the notification is there before the poll of it. -/
theorem undisturbed_race :
    ∃ c c₁ : Config Bool (Shared Bool Unit Unit) (Local Bool Unit),
      sys.Reachable (init (.new .native) () fun _ => ()) c ∧ (c.loc false).pc = .race 5 0 1 ∧
      sys.ReachNote (fun _ c _ => Undisturbed false c) (firstStep false) none c (some false) c₁ ∧
      (c₁.loc false).pc = .guard := by
  obtain ⟨c, hc, hend⟩ := System.exists_of_run (M := sys)
    (c := init (ι := Bool) (R := Unit) (.new .native) () fun _ => ())
    (p := fun c => decide ((c.loc false).pc = .race 5 0 1 ∧
      (sys.runNote (firstStep false) none c (List.replicate 3 (.agent false .step))).any
        (fun x => decide (x.1 = some false ∧
          ((x.2.loc false).pc = .guard ∨ (x.2.loc false).pc = .failed))) = true ∧
      sys.AlongNote (fun _ c _ => Undisturbed false c) (firstStep false) none c
        (List.replicate 3 (.agent false .step))))
    (lockContended (.lockAsyncTimeout 5) 6 4) (by decide)
  rw [decide_eq_true_eq] at hend
  obtain ⟨hp, hrun, halong⟩ := hend
  obtain ⟨h, c₁, H, hret⟩ := System.exists_note_of_along (M := sys) (firstStep false)
    (p := fun h c => decide (h = some false ∧ ((c.loc false).pc = .guard ∨ (c.loc false).pc = .failed)))
    _ hrun halong
  rw [decide_eq_true_eq] at hret
  obtain ⟨rfl, hret⟩ := hret
  exact ⟨c, c₁, hc, hp, H, (undisturbed_iff hc (by rw [hp]; rfl) H hret).2 rfl⟩

/-- **An acquisition returns `None` although the mutex is free.**  The other agent has dropped the guard
before the deadline has passed; `lock_spin_timeout` then reads the clock, `lock_async_timeout` polls its
timer. -/
theorem undisturbed_fails :
    (∃ c c₁ : Config Bool (Shared Bool Unit Unit) (Local Bool Unit),
      sys.Reachable (init (.new .native) () fun _ => ()) c ∧ (c.loc false).pc = .lockSpinNow 5 ∧
      c.shared.plat.clock ≤ 5 ∧ sys.Reach (fun c _ => Undisturbed false c) c c₁ ∧
      (c₁.loc false).pc = .failed) ∧
    ∃ c c₁ : Config Bool (Shared Bool Unit Unit) (Local Bool Unit),
      sys.Reachable (init (.new .native) () fun _ => ()) c ∧ (c.loc false).pc = .raceTimeout 5 0 1 ∧
      c.shared.plat.clock ≤ 5 ∧ sys.Reach (fun c _ => Undisturbed false c) c c₁ ∧
      (c₁.loc false).pc = .failed := by
  constructor
  · obtain ⟨c, hc, hend⟩ := System.exists_of_run (M := sys)
      (c := init (ι := Bool) (R := Unit) (.new .native) () fun _ => ())
      (p := fun c => decide ((c.loc false).pc = .lockSpinNow 5 ∧ c.shared.plat.clock ≤ 5 ∧
        (sys.run c [.agent false .step]).any (fun c => decide ((c.loc false).pc = .failed)) = true ∧
        sys.Along (fun c _ => Undisturbed false c) c [.agent false .step]))
      (lockContended (.lockSpin (some 5)) 1 3) (by decide)
    rw [decide_eq_true_eq] at hend
    obtain ⟨hp, hclock, hrun, halong⟩ := hend
    obtain ⟨c₁, H, hfailed⟩ := System.exists_of_along _ hrun halong
    exact ⟨c, c₁, hc, hp, hclock, H, of_decide_eq_true hfailed⟩
  · obtain ⟨c, hc, hend⟩ := System.exists_of_run (M := sys)
      (c := init (ι := Bool) (R := Unit) (.new .native) () fun _ => ())
      (p := fun c => decide ((c.loc false).pc = .raceTimeout 5 0 1 ∧ c.shared.plat.clock ≤ 5 ∧
        (sys.run c [.env (.timer 1), .agent false .step]).any
          (fun c => decide ((c.loc false).pc = .failed)) = true ∧
        sys.Along (fun c _ => Undisturbed false c) c [.env (.timer 1), .agent false .step]))
      (lockContended (.lockAsyncTimeout 5) 7 4) (by decide)
    rw [decide_eq_true_eq] at hend
    obtain ⟨hp, hclock, hrun, halong⟩ := hend
    obtain ⟨c₁, H, hfailed⟩ := System.exists_of_along _ hrun halong
    exact ⟨c, c₁, hc, hp, hclock, H, of_decide_eq_true hfailed⟩

end Mutex

end WasmSafeThread
