import WasmSafeThread.Threads.Basic
import WasmSafeThread.Spinlock
import WasmSafeThread.Mutex.Exclusion
import WasmSafeThread.RwLock.Exclusion
import Mathlib.Data.Fintype.Basic

/-!
# The locks between threads

`Mutex<T>`, `Spinlock<T>` and `RwLock<T>` are `Send` and `Sync` for every `T` that is `Send`
(`mutex.rs`, `spinlock.rs`, `rwlock/inner.rs`).  The bound is the same, but the protocols are not:

* the mutex and the spinlock have one handle at a time, and the handle contains a `&mut T`, so it is
  shared by reference only if `T` is `Sync`;
* the reader-writer lock has up to 127 `ReadGuard`s at a time, and its guards contain a reference to the
  lock and nothing else, so they are `Sync` for every `T` that is `Send`, the `WriteGuard` as well.

`Cell<u32>` is `Send` and not `Sync`, and two threads can use the one in an `RwLock<Cell<u32>>` at the
same time (`two_threads_in_rwlock`).  `threads_alone` : with a mutex or a spinlock this never happens;
with an `RwLock` over a `T` that is not `Sync` it does not happen as long as all guards and the references
to them stay in one thread (`RwLock.Calm`).
-/

namespace WasmSafeThread

variable {ι R D τ : Type*} [DecidableEq ι]

/-! ### The traits of the locks and of their handles -/

/-- `unsafe impl<T: Send> Send for Mutex<T>`, `unsafe impl<T: Send> Sync for Mutex<T>`. -/
def Mutex.traits (T : Traits) : Traits := ⟨T.send, T.send⟩

/-- `Guard<'a, T>` : `mutex: &'a Mutex<T>` and `data: &'a mut T`. -/
def Mutex.guardTraits (T : Traits) : Traits := (Mutex.traits T).ref.pair T.refMut

/-- `unsafe impl<T: Send> Send for Spinlock<T>`, `unsafe impl<T: Send> Sync for Spinlock<T>`. -/
def Spinlock.traits (T : Traits) : Traits := ⟨T.send, T.send⟩

/-- `unsafe impl<T: Send> Send for RwLock<T>`, `unsafe impl<T: Send> Sync for RwLock<T>`. -/
def RwLock.traits (T : Traits) : Traits := ⟨T.send, T.send⟩

/-- `ReadGuard<'a, T>` and `WriteGuard<'a, T>` : `mutex: &'a RwLock<T>`. -/
def RwLock.guardTraits (T : Traits) : Traits := (RwLock.traits T).ref

/-- The mutex; the handle is the `Guard`. -/
def Mutex.lock (T : Traits) :
    Lock ι (Mutex.Shared ι R D) (Mutex.Local ι R) (Mutex.Act R D) (Event ι) where
  sys := Mutex.sys
  gives l := match l.pc with
    | .guard => true
    | _ => false
  viaRef _ := false
  traits := Mutex.traits T
  handle := Mutex.guardTraits T

/-- The spinlock; the handle is the `&mut T` of the closure. -/
def Spinlock.lock (T : Traits) :
    Lock ι (Spinlock.Shared D) (Spinlock.Local R) (Spinlock.Act R D) Empty where
  sys := Spinlock.sys
  gives l := match l.pc with
    | .closure => true
    | _ => false
  viaRef _ := false
  traits := Spinlock.traits T
  handle := T.refMut

/-- The reader-writer lock; the handles are the guards, and a read goes through `Deref`. -/
def RwLock.lock (T : Traits) :
    Lock ι (RwLock.Shared ι D) (RwLock.Local ι R) (RwLock.Act R D) (Event ι) where
  sys := RwLock.sys
  gives l := match l.pc with
    | .guard _ => true
    | _ => false
  viaRef
    | .read _ => true
    | _ => false
  traits := RwLock.traits T
  handle := RwLock.guardTraits T

/-! ### One handle at a time -/

theorem Mutex.hasGuard_of_gives {T : Traits} {l : Mutex.Local ι R}
    (h : (Mutex.lock (D := D) T).gives l = true) : l.pc.hasGuard = true := by
  simp only [Mutex.lock] at h
  split at h
  · simp_all [Mutex.Pc.hasGuard]
  · cases h

omit [DecidableEq ι] in
theorem Spinlock.inside_of_gives {T : Traits} {l : Spinlock.Local R}
    (h : (Spinlock.lock (ι := ι) (D := D) T).gives l = true) : l.pc.inside = true := by
  simp only [Spinlock.lock] at h
  split at h
  · simp_all [Spinlock.Pc.inside]
  · cases h

theorem Mutex.lock_unique {T : Traits} {plat : Platform ι} {value : D} {regs : ι → R}
    {c : Config ι (Mutex.Shared ι R D) (Mutex.Local ι R)}
    (h : (Mutex.lock T).sys.Reachable (Mutex.init plat value regs) c) (i j : ι)
    (hi : (Mutex.lock (D := D) T).gives (c.loc i) = true)
    (hj : (Mutex.lock (D := D) T).gives (c.loc j) = true) : i = j :=
  (Mutex.owned h).unique i j (Mutex.hasGuard_of_gives hi) (Mutex.hasGuard_of_gives hj)

theorem Spinlock.lock_unique {T : Traits} {value : D} {regs : ι → R}
    {c : Config ι (Spinlock.Shared D) (Spinlock.Local R)}
    (h : (Spinlock.lock T).sys.Reachable (Spinlock.init value regs) c) (i j : ι)
    (hi : (Spinlock.lock (ι := ι) (D := D) T).gives (c.loc i) = true)
    (hj : (Spinlock.lock (ι := ι) (D := D) T).gives (c.loc j) = true) : i = j :=
  (Spinlock.taken h).unique i j (Spinlock.inside_of_gives hi) (Spinlock.inside_of_gives hj)

/-! ### Many guards in one thread -/

namespace RwLock

variable {T : Traits}

/-- The value of `data_lock` with which the next operation adds a reader. -/
def Pc.expects : Pc ι → Option (BitVec 8)
  | .exchange f _ => some f.1
  | _ => none

omit [DecidableEq ι] in
theorem Pc.toNat_lt_of_expects {p : Pc ι} {w : BitVec 8} (h : p.expects = some w) :
    w.toNat < 127 := by
  cases p with
  | exchange f k =>
    cases h
    exact f.toNat_lt
  | _ => cases h

/-- The activity has a guard. -/
def Pc.anyGuard (p : Pc ι) : Bool := p.hasGuard .read || p.hasGuard .write

theorem gives_of_guard {l : Local ι R} {m : Mode} (h : l.pc = .guard m) :
    (lock (D := D) T).gives l = true := by
  simp only [lock, h]

theorem anyGuard_of_gives {l : Local ι R} (h : (lock (D := D) T).gives l = true) :
    l.pc.anyGuard = true := by
  simp only [lock] at h
  split at h
  · rename_i m hpc
    rw [hpc]
    cases m <;> rfl
  · cases h

/-- A step that leaves the guards and the references to them in one thread: no reader is added beside
a reader in another thread, no guard is sent away from another guard, and no reference to a guard is
sent to another thread. -/
def Calm (c : Config ι (Shared ι D) (Activity (Local ι R) τ)) :
    Label ι (ThreadAct (Act R D) τ) (Event ι) → Prop
  | .agent i (.lock .step) => (c.loc i).loc.pc.expects = some c.shared.dataLock →
      ∀ j, (c.loc j).loc.pc.hasGuard .read = true → (c.loc j).thread = (c.loc i).thread
  | .agent i (.send t) => (c.loc i).loc.pc.anyGuard = true →
      ∀ j, j ≠ i → (c.loc j).loc.pc.anyGuard = true → (c.loc j).thread = t
  | .agent i (.share t) => t = (c.loc i).thread
  | _ => True

/-- All guards and the references to them are in one thread. -/
structure Together (c : Config ι (Shared ι D) (Activity (Local ι R) τ)) : Prop where
  guards : ∀ i j, (c.loc i).loc.pc.anyGuard = true → (c.loc j).loc.pc.anyGuard = true →
    (c.loc i).thread = (c.loc j).thread
  shared : ∀ i t, t ∈ (c.loc i).shared → t = (c.loc i).thread

theorem step_anyGuard {i : ι} {a : Act R D} {s s₁ : Shared ι D} {l l₁ : Local ι R}
    (h : step i a s l = some (s₁, l₁)) (hl₁ : l₁.pc.anyGuard = true) :
    l.pc.anyGuard = true ∨ (a = .step ∧ l.pc.expects = some s.dataLock) ∨ s.dataLock = UNLOCKED := by
  cases step_data h with
  | acquireRead hl f hpc hf hlock hg =>
    obtain ⟨k, hpc⟩ := hpc
    refine .inr (.inl ⟨?_, by rw [hpc, hf]; rfl⟩)
    cases a with
    | step => rfl
    | spurious =>
      simp only [step, hpc, Option.some.injEq, Prod.mk.injEq] at h
      simp [← h.2, Pc.anyGuard, Verdict.next_hasGuard] at hl₁
    | call | cancel | read | write | drop | consume => simp [step, hpc, Pc.atRest] at h
  | acquireWrite hl hfree hlock hg hinner => exact .inr (.inr hfree)
  | dropRead hl hlock hg hinner | dropWrite hl hlock hg hinner => exact .inl (by rw [hl]; rfl)
  | write hl hg hlock => exact .inl (by rw [hl]; rfl)
  | other hg hlock hinner hfailed =>
    left
    simpa only [Pc.anyGuard, hg] using hl₁

omit [DecidableEq ι] in
theorem Counted.no_write {c : Config ι (Shared ι D) (Local ι R)} (h : Counted c) {j : ι}
    (hlt : c.shared.dataLock.toNat < 128) : (c.loc j).pc.hasGuard .write = false := by
  by_contra hj
  have hpos := h.ncard_pos (Bool.eq_true_of_not_eq_false hj)
  rcases h.count with ⟨-, -, hword⟩ | ⟨hw, -⟩
  · rw [hword] at hlt
    exact absurd hlt (by decide)
  · omega

omit [DecidableEq ι] in
theorem Counted.no_guard {c : Config ι (Shared ι D) (Local ι R)} (h : Counted c) {j : ι}
    (hfree : c.shared.dataLock = UNLOCKED) : (c.loc j).pc.anyGuard = false := by
  have hw : (c.loc j).pc.hasGuard .write = false := h.no_write (by rw [hfree]; decide)
  have hr : (c.loc j).pc.hasGuard .read = false := by
    by_contra hj
    have hpos := h.ncard_pos (Bool.eq_true_of_not_eq_false hj)
    rcases h.count with ⟨-, -, hword⟩ | ⟨-, hr, -⟩
    · rw [hword] at hfree
      exact absurd hfree (by decide)
    · rw [hr, hfree] at hpos
      exact absurd hpos (by decide)
  rw [Pc.anyGuard, hw, hr]
  rfl

theorem Together.set {c : Config ι (Shared ι D) (Activity (Local ι R) τ)} (h : Together c) {i : ι}
    {s₁ : Shared ι D} {l₁ : Activity (Local ι R) τ}
    (hguard : l₁.loc.pc.anyGuard = true →
      ∀ j, j ≠ i → (c.loc j).loc.pc.anyGuard = true → (c.loc j).thread = l₁.thread)
    (hshared : ∀ t, t ∈ l₁.shared → t = l₁.thread) : Together (c.set i s₁ l₁) := by
  refine ⟨fun j k hj hk => ?_, fun j t ht => ?_⟩
  · by_cases hji : j = i <;> by_cases hki : k = i
    · rw [hji, hki]
    · subst hji
      rw [Config.set_loc_self] at hj ⊢
      rw [Config.set_loc_of_ne hki] at hk ⊢
      exact (hguard hj k hki hk).symm
    · subst hki
      rw [Config.set_loc_self] at hk ⊢
      rw [Config.set_loc_of_ne hji] at hj ⊢
      exact hguard hk j hji hj
    · rw [Config.set_loc_of_ne hji] at hj ⊢
      rw [Config.set_loc_of_ne hki] at hk ⊢
      exact h.guards j k hj hk
  · by_cases hji : j = i
    · subst hji
      rw [Config.set_loc_self] at ht ⊢
      exact hshared t ht
    · rw [Config.set_loc_of_ne hji] at ht ⊢
      exact h.shared j t ht

theorem Together.step [DecidableEq τ] {c : Config ι (Shared ι D) (Activity (Local ι R) τ)}
    (h : Together c) (hc : Counted ((Lock.projection (τ := τ) (lock T)).config c)) {i : ι}
    {a : ThreadAct (Act R D) τ} (hcalm : Calm c (.agent i a)) {s₁ : Shared ι D}
    {l₁ : Activity (Local ι R) τ} (hs : (lock T).step i a c.shared (c.loc i) = some (s₁, l₁)) :
    Together (c.set i s₁ l₁) := by
  cases Lock.step_moved hs with
  | lock b ha hb hthread hshared =>
    refine h.set (fun hg j hji hj => ?_) ?_
    · rw [hthread]
      rcases step_anyGuard hb hg with hg | ⟨rfl, hexpects⟩ | hfree
      · exact h.guards j i hj hg
      · -- a reader is added: the other guards are those of readers
        subst ha
        have hlt := Pc.toNat_lt_of_expects hexpects
        have hw : (c.loc j).loc.pc.hasGuard .write = false := hc.no_write (Nat.lt_succ_of_lt hlt)
        refine hcalm hexpects j ?_
        simpa [Pc.anyGuard, hw] using hj
      · have hnone : (c.loc j).loc.pc.anyGuard = false := hc.no_guard hfree
        rw [hnone] at hj
        cases hj
    · rw [hthread, hshared]
      exact h.shared i
  | send t ha hshared hs hl₁ =>
    subst ha hl₁
    refine h.set (fun hg j hji hj => hcalm hg j hji hj) ?_
    rw [hshared]
    nofun
  | share t ha hsync hs hl₁ =>
    subst ha hl₁
    refine h.set (fun hg j hji hj => h.guards j i hj hg) fun u hu => ?_
    rcases List.mem_cons.1 hu with rfl | hu
    · exact hcalm
    · exact h.shared i u hu
  | giveBack t hs hl₁ =>
    subst hl₁
    exact h.set (fun hg j hji hj => h.guards j i hj hg) fun u hu =>
      h.shared i u (List.mem_of_mem_erase hu)

theorem together [DecidableEq τ] {t₀ : τ} {plat : Platform ι} {value : D} {regs : ι → R}
    {c : Config ι (Shared ι D) (Activity (Local ι R) τ)}
    (h : ((lock T).threads τ).Reach Calm (Lock.start t₀ (init plat value regs)) c) : Together c := by
  refine h.invariant ⟨fun _ _ _ _ => rfl, fun _ _ => nofun⟩ ?_ ?_
  · intro c i a s l hc ih hcalm hs
    exact ih.step (counted ((Lock.projection (lock T)).reachable hc)) hcalm hs
  · intro c e s _ ih _ _
    exact ⟨ih.guards, ih.shared⟩

theorem alone [DecidableEq τ] {t₀ : τ} {plat : Platform ι} {value : D} {regs : ι → R}
    {c : Config ι (Shared ι D) (Activity (Local ι R) τ)}
    (h : ((lock T).threads τ).Reach (fun c a => T.sync = true ∨ Calm c a)
      (Lock.start t₀ (init plat value regs)) c) : (lock T).Alone T c := by
  by_cases hT : T.sync = true
  · exact .inl hT
  · have ht := together (h.mono fun c a hP => hP.resolve_left hT)
    right
    intro i j t u ⟨hi, ht'⟩ ⟨hj, hu⟩
    have hthread : (c.loc i).thread = (c.loc j).thread :=
      ht.guards i j (anyGuard_of_gives hi) (anyGuard_of_gives hj)
    have hti : t = (c.loc i).thread := ht'.elim id (ht.shared i t)
    have huj : u = (c.loc j).thread := hu.elim id (ht.shared j u)
    rw [hti, huj, hthread]

instance [Fintype ι] [DecidableEq τ] :
    (c : Config ι (Shared ι D) (Activity (Local ι R) τ)) →
    (a : Label ι (ThreadAct (Act R D) τ) (Event ι)) → Decidable (Calm c a)
  | _, .agent _ (.lock .step) => inferInstanceAs (Decidable (_ → ∀ _, _ → _))
  | _, .agent _ (.send _) => inferInstanceAs (Decidable (_ → ∀ _, _ → _ → _))
  | _, .agent _ (.share _) => inferInstanceAs (Decidable (_ = _))
  | _, .agent _ (.lock (.call _)) | _, .agent _ (.lock .spurious) | _, .agent _ (.lock .cancel)
  | _, .agent _ (.lock (.read _)) | _, .agent _ (.lock (.write _)) | _, .agent _ (.lock .drop)
  | _, .agent _ (.lock .consume) | _, .agent _ (.giveBack _) | _, .env _ => .isTrue trivial

end RwLock

/-! ### The three locks -/

/-- **Where the protocol of a lock keeps threads apart.**  A mutex or a spinlock gives two threads
access to its value only if `T` is `Sync`, in every run.  A reader-writer lock does so in every run in
which, for a `T` that is not `Sync`, the guards and the references to them stay in one thread. -/
theorem threads_alone [DecidableEq τ] (T : Traits) (t₀ : τ) (plat : Platform ι) (value : D)
    (regs : ι → R) :
    (∀ c, ((Mutex.lock T).threads τ).Reachable (Lock.start t₀ (Mutex.init plat value regs)) c →
      (Mutex.lock T).Alone T c) ∧
    (∀ c, ((Spinlock.lock T).threads τ).Reachable
        (Lock.start t₀ (Spinlock.init (ι := ι) value regs)) c → (Spinlock.lock T).Alone T c) ∧
    ∀ c, ((RwLock.lock T).threads τ).Reach (fun c a => T.sync = true ∨ RwLock.Calm c a)
        (Lock.start t₀ (RwLock.init plat value regs)) c → (RwLock.lock T).Alone T c := by
  refine ⟨fun c h => ?_, fun c h => ?_, fun c h => RwLock.alone h⟩
  · refine Lock.alone_of_unique (fun hsync => ?_) (fun c => Mutex.lock_unique) h
    simp only [Mutex.lock, Mutex.guardTraits, Traits.pair, Traits.refMut, Bool.and_eq_true] at hsync
    exact hsync.2
  · exact Lock.alone_of_unique id (fun c => Spinlock.lock_unique) h

/-- `Cell<u32>`. -/
def cellTraits : Traits := ⟨true, false⟩

/-- Runs with a `Cell<u32>` in which the condition holds: a `Guard` that is sent to another thread, a
closure, and two `ReadGuard`s in one thread beside another thread that has the lock. -/
theorem threads_alone_cell :
    (∃ c : Config Bool (Mutex.Shared Bool Unit ℕ) (Activity (Mutex.Local Bool Unit) Bool),
      (c.loc true).loc.pc = .guard ∧ (c.loc true).thread = true ∧
        (Mutex.lock cellTraits).Alone cellTraits c) ∧
    (∃ c : Config Bool (Spinlock.Shared ℕ) (Activity (Spinlock.Local Unit) Bool),
      (c.loc true).loc.pc = .closure ∧ (Spinlock.lock cellTraits).Alone cellTraits c) ∧
    ∃ c : Config Bool (RwLock.Shared Bool ℕ) (Activity (RwLock.Local Bool Unit) Bool),
      (∀ i, (c.loc i).loc.pc = .guard .read) ∧ (RwLock.lock cellTraits).Alone cellTraits c := by
  have halone := threads_alone (ι := Bool) (R := Unit) cellTraits false (.new .native) 0 fun _ => ()
  refine ⟨?_, ?_, ?_⟩
  · obtain ⟨c, hc, hend⟩ := System.exists_of_run
      (M := (Mutex.lock (ι := Bool) (R := Unit) cellTraits).threads Bool)
      (c := Lock.start false (Mutex.init (.new .native) 0 fun _ => ()))
      (p := fun c => decide ((c.loc true).loc.pc = .guard ∧ (c.loc true).thread = true))
      [.agent true (.lock (.call .tryLock)), .agent true (.lock .step), .agent true (.send true)]
      (by decide)
    rw [decide_eq_true_eq] at hend
    exact ⟨c, hend.1, hend.2, halone.1 c hc⟩
  · obtain ⟨c, hc, hend⟩ := System.exists_of_run
      (M := (Spinlock.lock (ι := Bool) (R := Unit) cellTraits).threads Bool)
      (c := Lock.start false (Spinlock.init 0 fun _ => ()))
      (p := fun c => decide ((c.loc true).loc.pc = .closure))
      [.agent true (.lock .withMut), .agent true (.lock .step)] (by decide)
    rw [decide_eq_true_eq] at hend
    exact ⟨c, hend, halone.2.1 c hc⟩
  · obtain ⟨c, hc, hend⟩ := System.exists_of_along
      (M := (RwLock.lock (ι := Bool) (R := Unit) cellTraits).threads Bool)
      (P := fun c a => cellTraits.sync = true ∨ RwLock.Calm c a)
      (c := Lock.start false (RwLock.init (.new .native) 0 fun _ => ()))
      (p := fun c => decide (∀ i, (c.loc i).loc.pc = .guard .read))
      [.agent true (.send true), .agent false (.lock (.call (.tryLock .read))),
        .agent false (.lock .step), .agent true (.send false), .agent false (.lock .step),
        .agent true (.lock (.call (.tryLock .read))), .agent true (.lock .step),
        .agent true (.lock .step)] (by decide) (by decide)
    rw [decide_eq_true_eq] at hend
    exact ⟨c, hend, halone.2.2 c hc⟩

/-- **Two threads in an `RwLock<Cell<u32>>`** : with a `ReadGuard` each, and with a reference to one
`WriteGuard`. -/
theorem two_threads_in_rwlock :
    cellTraits.send = true ∧
    (∃ c : Config Bool (RwLock.Shared Bool ℕ) (Activity (RwLock.Local Bool Unit) Bool),
      ((RwLock.lock cellTraits).threads Bool).Reachable
        (Lock.start false (RwLock.init (.new .native) 0 fun _ => ())) c ∧
      (∀ i, (c.loc i).loc.pc = .guard .read) ∧ ¬ (RwLock.lock cellTraits).Alone cellTraits c) ∧
    ∃ c : Config Unit (RwLock.Shared Unit ℕ) (Activity (RwLock.Local Unit Unit) Bool),
      ((RwLock.lock cellTraits).threads Bool).Reachable
        (Lock.start false (RwLock.init (.new .native) 0 fun _ => ())) c ∧
      (c.loc ()).loc.pc = .guard .write ∧ ¬ (RwLock.lock cellTraits).Alone cellTraits c := by
  refine ⟨rfl, ?_, ?_⟩
  · obtain ⟨c, hc, hend⟩ := System.exists_of_run
      (M := (RwLock.lock (ι := Bool) (R := Unit) cellTraits).threads Bool)
      (c := Lock.start false (RwLock.init (.new .native) 0 fun _ => ()))
      (p := fun c => decide (∀ i, (c.loc i).loc.pc = .guard .read ∧ (c.loc i).thread = i))
      [.agent true (.send true), .agent false (.lock (.call (.tryLock .read))),
        .agent true (.lock (.call (.tryLock .read))), .agent false (.lock .step),
        .agent false (.lock .step), .agent true (.lock .step), .agent true (.lock .step)]
      (by decide)
    rw [decide_eq_true_eq] at hend
    refine ⟨c, hc, fun i => (hend i).1, ?_⟩
    rintro (hsync | halone)
    · cases hsync
    · have hne := halone false true false true
        ⟨RwLock.gives_of_guard (hend false).1, .inl (hend false).2.symm⟩
        ⟨RwLock.gives_of_guard (hend true).1, .inl (hend true).2.symm⟩
      cases hne
  · obtain ⟨c, hc, hend⟩ := System.exists_of_run
      (M := (RwLock.lock (ι := Unit) (R := Unit) cellTraits).threads Bool)
      (c := Lock.start false (RwLock.init (.new .native) 0 fun _ => ()))
      (p := fun c => decide ((c.loc ()).loc.pc = .guard .write ∧ (c.loc ()).thread = false ∧
        true ∈ (c.loc ()).shared))
      [.agent () (.lock (.call (.tryLock .write))), .agent () (.lock .step), .agent () (.share true)]
      (by decide)
    rw [decide_eq_true_eq] at hend
    obtain ⟨hpc, hthread, hshared⟩ := hend
    refine ⟨c, hc, hpc, ?_⟩
    rintro (hsync | halone)
    · cases hsync
    · have hne := halone () () false true ⟨RwLock.gives_of_guard hpc, .inl hthread.symm⟩
        ⟨RwLock.gives_of_guard hpc, .inr hshared⟩
      cases hne

end WasmSafeThread
