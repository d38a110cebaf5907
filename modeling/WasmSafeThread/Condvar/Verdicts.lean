import WasmSafeThread.Condvar.Fates

/-!
# What a timed wait reports

`wait_async_timeout` reports a timeout when its timer wins the race, whether or not it then finds its
entry in the list; `wait_block_timeout` goes by the entries of its thread, which need not be its own.

* `async_verdict_iff` : a `wait_async_timeout` reports the truth exactly when it finds its entry, if it
  looks for it.
* `block_verdict` : a `wait_block_timeout` whose sections go by its own entry reports the truth, and
  sleeps no longer than it has to.
-/

namespace WasmSafeThread

namespace Condvar

variable {ι R D : Type*} [DecidableEq ι] {i : ι} {c : Config ι (Shared ι R D) (Local ι R)}
  {h : Fates ι} {r : ℕ} {plat : Platform ι} {value : D} {regs : ι → R}

/-! ### `wait_async_timeout` -/

/-- **A completed `wait_async_timeout` reports a timeout exactly when it took its own entry, and a
notification exactly when a notifier did, if and only if it found its entry where it looked for it.** -/
theorem async_verdict_iff (H : sys.History Fates.note .new (init plat value regs) h c) {b : Bool}
    (hwait : h.wait r = some (i, .async)) (hret : h.returned r = some b) :
    ((b = true ↔ h.left r = true) ∧ (b = false ↔ h.taken r = true)) ↔ h.misled r = false := by
  obtain ⟨-, hv⟩ := (attributed H).returned r b hret
  constructor
  · rintro ⟨htrue, -⟩
    by_contra hm
    obtain ⟨rfl, -, hleft⟩ := hv.wrong i hwait (Bool.eq_true_of_not_eq_false hm)
    rw [htrue.1 rfl] at hleft
    cases hleft
  · intro hm
    obtain ⟨htaken, hleft⟩ := hv.right hm
    rw [htaken, hleft]
    cases b <;> simp

/-- A task waits with a deadline that has passed: it locks, waits, its timer fires, and it polls both. -/
def raceLost : List (Label Bool (Act Unit Unit) (Event Bool)) :=
  [.agent false (.lock .tryLock), .agent false .step, .agent false (.wait .async (some 0)),
    .agent false .step, .agent false .step, .agent false .step, .agent false .step,
    .agent false .step, .agent false .step, .agent false .step, .agent false .step,
    .env (.timer 0), .agent false .step]

/-- The task takes its entry if it is still there, locks, and returns. -/
def raceReturn : List (Label Bool (Act Unit Unit) (Event Bool)) :=
  [.agent false .step, .agent false .step, .agent false .step, .agent false .step,
    .agent false .step, .agent false .step]

/-- A run in which the deadline of the only waiter passes and nobody notifies. -/
theorem async_verdict_alone :
    ∃ (h : Fates Bool) (c : Config Bool (Shared Bool Unit Unit) (Local Bool Unit)),
      sys.History Fates.note .new (init (.new .native) () fun _ => ()) h c ∧
      h.returned 0 = some true ∧ h.misled 0 = false ∧
      (true = true ↔ h.left 0 = true) ∧ (true = false ↔ h.taken 0 = true) := by
  obtain ⟨h, c, H, hend⟩ := System.exists_note_of_along (M := sys) (P := fun _ _ _ => True)
    (h := Fates.new) (c := init (ι := Bool) (R := Unit) (.new .native) () fun _ => ()) Fates.note
    (p := fun h _ => decide (h.wait 0 = some (false, .async) ∧ h.returned 0 = some true ∧
      h.misled 0 = false)) (raceLost ++ raceReturn) (by decide) (by decide)
  rw [decide_eq_true_eq] at hend
  obtain ⟨hwait, hret, hmisled⟩ := hend
  exact ⟨h, c, H, hret, hmisled, (async_verdict_iff H hwait hret).2 hmisled⟩

/-- **A notification is swallowed.**  The timer wins the race; before the task looks for its entry, a
`notify_one` takes it, and the call reports a timeout. -/
theorem async_swallowed :
    ∃ (h : Fates Bool) (c : Config Bool (Shared Bool Unit Unit) (Local Bool Unit)),
      sys.History Fates.note .new (init (.new .native) () fun _ => ()) h c ∧
      h.wait 0 = some (false, .async) ∧ h.returned 0 = some true ∧
      h.taken 0 = true ∧ h.left 0 = false := by
  obtain ⟨h, c, H, hend⟩ := System.exists_note_of_along (M := sys) (P := fun _ _ _ => True)
    (h := Fates.new) (c := init (ι := Bool) (R := Unit) (.new .native) () fun _ => ()) Fates.note
    (p := fun h _ => decide (h.wait 0 = some (false, .async) ∧ h.returned 0 = some true ∧
      h.taken 0 = true ∧ h.left 0 = false))
    (raceLost ++ [.agent true .notifyOne, .agent true .step, .agent true .step, .agent true .step,
      .agent true .step] ++ raceReturn) (by decide) (by decide)
  exact ⟨h, c, H, of_decide_eq_true hend⟩

/-! ### `wait_block_timeout` -/

/-- Agent `i` goes on, and nobody else moves. -/
def Alone (i : ι) (_ : Config ι (Shared ι R D) (Local ι R)) : Label ι (Act R D) (Event ι) → Prop
  | .agent j .step => j = i
  | _ => False

/-- Agent `i` is in the loop of `wait_block_timeout`. -/
def Pc.inParkLoop (r : ℕ) : Pc ι → Bool
  | .parkNow _ r' | .park (some _) r' | .parkCheck _ r' | .parkLeave r' => decide (r' = r)
  | _ => false

/-- Left alone, agent `i` leaves its wait as notified, and the clock has not moved. -/
def LeavesNotified (i : ι) (c : Config ι (Shared ι R D) (Local ι R)) : Prop :=
  ∃ c', sys.Reach (Alone i) c c' ∧ (c'.loc i).pc = .relock .sync false ∧
    c'.shared.mx.plat.clock = c.shared.mx.plat.clock

theorem LeavesNotified.of_advance {s : Shared ι R D} {l : Local ι R}
    (hrest : (c.loc i).mx.pc.atRest = true) (hs : advance i c.shared (c.loc i) = some (s, l))
    (hclock : s.mx.plat.clock = c.shared.mx.plat.clock)
    (h : l.pc = .relock .sync false ∨ LeavesNotified i (c.set i s l)) : LeavesNotified i c := by
  have hnext : sys.step i .step c.shared (c.loc i) = some (s, l) := by
    simpa [sys, step, hrest] using hs
  have hstep : sys.Reach (Alone i) c (c.set i s l) :=
    System.Reach.refl.agent (show Alone i c (.agent i .step) from rfl) hnext
  rcases h with hpc | ⟨c', hc', hpc, hclock'⟩
  · exact ⟨_, hstep, by simpa using hpc, hclock⟩
  · exact ⟨c', hstep.trans hc', hpc, hclock'.trans hclock⟩

theorem leavesNotified_of_check {d r : ℕ} (hrest : (c.loc i).mx.pc.atRest = true)
    (hpc : (c.loc i).pc = .parkCheck d r ∨ (c.loc i).pc = .parkLeave r)
    (hnone : ∀ e ∈ c.shared.waiting .sync, e.agent ≠ i) : LeavesNotified i c := by
  have hany : ¬ ((c.shared.waiting .sync).any fun e => e.agent = i) = true := by
    simpa using hnone
  rcases hpc with hpc | hpc
  · refine .of_advance hrest (by simp only [advance, hpc, hany]; rfl) rfl (.inl ?_)
    simp
  · refine .of_advance hrest (by simp only [advance, hpc, hany]; rfl) rfl (.inl ?_)
    simp

theorem leavesNotified_of_park {d r : ℕ} (hrest : (c.loc i).mx.pc.atRest = true)
    (hpc : (c.loc i).pc = .park (some d) r) (hnone : ∀ e ∈ c.shared.waiting .sync, e.agent ≠ i)
    (htoken : c.shared.mx.plat.token i = true) : LeavesNotified i c := by
  have hs : advance i c.shared (c.loc i) = some (c.shared.setPlat (c.shared.mx.plat.consume i),
      (c.loc i).goto (.parkCheck d r)) := by
    simp only [advance, hpc, htoken, if_true]
  refine .of_advance hrest hs rfl (.inr ?_)
  exact leavesNotified_of_check (d := d) (r := r) (by simpa using hrest) (by simp) hnone

theorem leavesNotified (hrest : (c.loc i).mx.pc.atRest = true) (hloop : (c.loc i).pc.inParkLoop r = true)
    (hnone : ∀ e ∈ c.shared.waiting .sync, e.agent ≠ i)
    (htoken : (c.loc i).pc.parks = true → c.shared.mx.plat.token i = true) : LeavesNotified i c := by
  cases hpc : (c.loc i).pc with
  | parkCheck d r' => exact leavesNotified_of_check (d := d) hrest (.inl hpc) hnone
  | parkLeave r' => exact leavesNotified_of_check (d := 0) hrest (.inr hpc) hnone
  | park deadline r' =>
    cases deadline with
    | none => rw [hpc] at hloop; cases hloop
    | some d => exact leavesNotified_of_park hrest hpc hnone (htoken (by rw [hpc]; rfl))
  | parkNow d r' =>
    have htoken := htoken (by rw [hpc]; rfl)
    refine .of_advance hrest (by simp only [advance, hpc]; rfl) rfl (.inr ?_)
    by_cases hd : d ≤ c.shared.mx.plat.clock
    · -- past the deadline the section finds no entry either
      exact leavesNotified_of_check (d := d) (r := r') (by simpa using hrest) (by simp [hd]) hnone
    · exact leavesNotified_of_park (d := d) (r := r') (by simpa using hrest) (by simp [hd]) hnone htoken
  | _ => rw [hpc] at hloop; cases hloop

/-- **A `wait_block_timeout` whose sections go by its own entry reports the truth**: a timeout only if
no notifier took its entry, and a notification only if one did.  And while it sleeps with its entry
taken, and no other entry of its thread in the list, it does not wait for its deadline: a notifier has
still to unpark the thread, or the thread leaves the wait by itself, whatever the clock says. -/
theorem block_verdict (H : sys.History Fates.note .new (init plat value regs) h c)
    (hwait : h.wait r = some (i, .sync)) :
    (h.misled r = false → ∀ b, h.returned r = some b →
      (b = true → h.taken r = false) ∧ (b = false → h.taken r = true)) ∧
    ((c.loc i).pc.inParkLoop r = true → (∀ e ∈ c.shared.waiting .sync, e.agent ≠ i) →
      h.taken r = true ∧
        ((∃ j e, (.sync, e) ∈ (c.loc j).pc.carries ∧ e.agent = i) ∨ LeavesNotified i c)) := by
  have hatt := attributed H
  refine ⟨fun hm b hret => ?_, fun hloop hnone => ?_⟩
  · obtain ⟨-, hv⟩ := hatt.returned r b hret
    obtain ⟨htaken, -⟩ := hv.right hm
    rw [htaken]
    cases b <;> simp
  · have hshape := shape H.reachable i
    obtain ⟨hw, ht, hrest⟩ : (c.loc i).pc.waitsOn = some (.sync, r) ∧ (c.loc i).pc.timed = true ∧
        (c.loc i).mx.pc.atRest = true := by
      cases hpc : (c.loc i).pc with
      | park deadline r' =>
        rw [hpc] at hloop
        cases deadline with
        | none => cases hloop
        | some d =>
          obtain rfl : r' = r := by simpa [Pc.inParkLoop] using hloop
          simp only [Local.Shape, hpc] at hshape
          exact ⟨rfl, rfl, hshape.1⟩
      | parkNow d r' | parkCheck d r' | parkLeave r' =>
        rw [hpc] at hloop
        obtain rfl : r' = r := by simpa [Pc.inParkLoop] using hloop
        simp only [Local.Shape, hpc] at hshape
        exact ⟨rfl, rfl, hshape.1⟩
      | _ => rw [hpc] at hloop; cases hloop
    obtain ⟨-, -, -, -, -, htaken⟩ := hatt.asleep i .sync r hw ht
    refine ⟨htaken.resolve_right fun hin => hnone _ hin rfl, ?_⟩
    by_cases htoken : (c.loc i).pc.parks = true → c.shared.mx.plat.token i = true
    · exact .inr (leavesNotified hrest hloop hnone htoken)
    · -- a thread that parks is covered by an entry, a notifier or its token
      push Not at htoken
      obtain ⟨e, hei, hheld⟩ := (covered H.reachable).thread i htoken.1
      rcases hheld with hin | ⟨j, hj⟩ | hsig
      · exact absurd hei (hnone e hin)
      · exact .inl ⟨j, e, hj, hei⟩
      · exact absurd (hei ▸ hsig) htoken.2

/-- The other thread notifies one. -/
def notifyOnce : List (Label Bool (Act Unit Unit) (Event Bool)) :=
  [.agent true .notifyOne, .agent true .step, .agent true .step, .agent true .step, .agent true .step]

/-- A thread waits until the instant 5 and parks, and is notified. -/
def waitNotified : List (Label Bool (Act Unit Unit) (Event Bool)) :=
  [.agent false (.lock .tryLock), .agent false .step, .agent false (.wait .sync (some 5)),
    .agent false .step, .agent false .step, .agent false .step, .agent false .step,
    .agent false .step, .agent false .step, .agent false .step] ++ notifyOnce

/-- A run in which the thread is notified before its deadline, and its return. -/
theorem block_verdict_notified :
    (∃ (h : Fates Bool) (c : Config Bool (Shared Bool Unit Unit) (Local Bool Unit)),
      sys.History Fates.note .new (init (.new .native) () fun _ => ()) h c ∧
      (c.loc false).pc = .park (some 5) 0 ∧ c.shared.mx.plat.clock = 0 ∧ h.taken 0 = true ∧
      ((∃ j e, (.sync, e) ∈ (c.loc j).pc.carries ∧ e.agent = false) ∨ LeavesNotified false c)) ∧
    ∃ (h : Fates Bool) (c : Config Bool (Shared Bool Unit Unit) (Local Bool Unit)),
      sys.History Fates.note .new (init (.new .native) () fun _ => ()) h c ∧
      h.returned 0 = some false ∧ h.taken 0 = true := by
  constructor
  · obtain ⟨h, c, H, hend⟩ := System.exists_note_of_along (M := sys) (P := fun _ _ _ => True)
      (h := Fates.new) (c := init (ι := Bool) (R := Unit) (.new .native) () fun _ => ()) Fates.note
      (p := fun h c => decide (h.wait 0 = some (false, .sync) ∧ c.shared.mx.plat.clock = 0 ∧
        (c.loc false).pc = .park (some 5) 0 ∧ ∀ e ∈ c.shared.waiting .sync, e.agent ≠ false))
      waitNotified (by decide) (by decide)
    rw [decide_eq_true_eq] at hend
    obtain ⟨hwait, hclock, hpc, hnone⟩ := hend
    exact ⟨h, c, H, hpc, hclock, (block_verdict H hwait).2 (by rw [hpc]; rfl) hnone⟩
  · obtain ⟨h, c, H, hend⟩ := System.exists_note_of_along (M := sys) (P := fun _ _ _ => True)
      (h := Fates.new) (c := init (ι := Bool) (R := Unit) (.new .native) () fun _ => ()) Fates.note
      (p := fun h _ => decide (h.wait 0 = some (false, .sync) ∧ h.misled 0 = false ∧
        h.returned 0 = some false))
      (waitNotified ++ [.agent false .step, .agent false .step, .agent false .step,
        .agent false .step, .agent false .step, .agent false .step, .agent false .step])
      (by decide) (by decide)
    rw [decide_eq_true_eq] at hend
    obtain ⟨hwait, hmisled, hret⟩ := hend
    exact ⟨h, c, H, hret, ((block_verdict H hwait).1 hmisled false hret).2 rfl⟩

/-- The parked `wait_block` of a thread ends by a spurious return; the thread keeps the guard and waits
again, until the instant 5, up to its park. -/
def waitAgain : List (Label Bool (Act Unit Unit) (Event Bool)) :=
  [.agent false .spurious, .agent false .step, .agent false .step, .agent false .step,
    .agent false .step, .agent false .step, .agent false (.wait .sync (some 5)),
    .agent false .step, .agent false .step, .agent false .step, .agent false .step,
    .agent false .step, .agent false .step, .agent false .step]

/-- **A notified thread waits for its deadline and reports a timeout.**  The entry of its earlier wait
is still in the list when a `notify_one` takes the entry of the `wait_block_timeout`. -/
theorem block_misled :
    ∃ (h : Fates Bool) (c : Config Bool (Shared Bool Unit Unit) (Local Bool Unit)),
      sys.History Fates.note .new (init (.new .native) () fun _ => ()) h c ∧
      h.wait 1 = some (false, .sync) ∧ h.taken 1 = true ∧ h.returned 1 = some true ∧
      c.shared.mx.plat.clock = 5 := by
  obtain ⟨h, c, H, hend⟩ := System.exists_note_of_along (M := sys) (P := fun _ _ _ => True)
    (h := Fates.new) (c := init (ι := Bool) (R := Unit) (.new .native) () fun _ => ()) Fates.note
    (p := fun h c => decide (h.wait 1 = some (false, .sync) ∧ h.taken 1 = true ∧
      h.returned 1 = some true ∧ c.shared.mx.plat.clock = 5))
    (waitBlock false ++ waitAgain ++ notifyOnce ++ [.agent false .step, .agent false .step,
      .env (.tick 5), .agent false .step, .agent false .step, .agent false .step,
      .agent false .step, .agent false .step, .agent false .step, .agent false .step])
    (by decide) (by decide)
  exact ⟨h, c, H, of_decide_eq_true hend⟩

end Condvar

end WasmSafeThread
