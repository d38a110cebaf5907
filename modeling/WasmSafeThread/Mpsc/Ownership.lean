import WasmSafeThread.Mpsc.Moves

/-!
# What ownership guarantees

* `Borrowed` : a send borrows a `Sender` that exists, `sender_count` counts the `Sender`s that
  exist, and a receive borrows a `Receiver` that exists.
* `Runs` : the receive that has the receiver's thread is the one that is not suspended.
* `guard_unique` : at most one agent has the guard of the queue, and it is in a send or is the
  receive that runs.
-/

namespace WasmSafeThread

namespace Mpsc

variable {ι T : Type*} [DecidableEq ι] [DecidableEq T] {i j : ι} {a : Act T} {s s₁ : Shared ι T}
  {l l₁ : Local ι T} {plat : Platform ι} {c : Config ι (Shared ι T) (Local ι T)}

/-! ### Borrows -/

/-- The agent is in `Receiver::drop`. -/
def Pc.dropsReceiver : Pc T → Bool
  | .receiverNotify | .receiverReturn => true
  | _ => false

/-- The borrows of the calls in progress. -/
structure Borrowed (c : Config ι (Shared ι T) (Local ι T)) : Prop where
  send : ∀ i x, (c.loc i).pc.sends = some x →
    x.handle ∈ c.shared.handles ∧ i ∈ c.shared.borrows x.handle
  count : c.shared.senderCount = c.shared.handles.card
  fresh : ∀ h ∈ c.shared.handles, h < c.shared.nextHandle
  recv : ∀ i y, (c.loc i).pc.receives = some y → i ∈ c.shared.receiving
  active : c.shared.receiverActive = false → c.shared.receiving = ∅
  gone : ∀ i, (c.loc i).pc.dropsReceiver = true → c.shared.receiverActive = false

namespace Borrowed

omit [DecidableEq T] in
/-- A step of agent `i`: what it has to show of its own borrows, and of those of the others. -/
theorem set (h : Borrowed c)
    (hsend : ∀ x, l₁.pc.sends = some x → x.handle ∈ s₁.handles ∧ i ∈ s₁.borrows x.handle)
    (hsends : ∀ j k, j ≠ i → k ∈ c.shared.handles ∧ j ∈ c.shared.borrows k →
      k ∈ s₁.handles ∧ j ∈ s₁.borrows k)
    (hcount : s₁.senderCount = s₁.handles.card) (hfresh : ∀ k ∈ s₁.handles, k < s₁.nextHandle)
    (hrecv : ∀ y, l₁.pc.receives = some y → i ∈ s₁.receiving)
    (hrecvs : ∀ j, j ≠ i → j ∈ c.shared.receiving → j ∈ s₁.receiving)
    (hactive : s₁.receiverActive = false → s₁.receiving = ∅)
    (hgone : c.shared.receiverActive = false ∨ l₁.pc.dropsReceiver = true →
      s₁.receiverActive = false) : Borrowed (c.set i s₁ l₁) where
  send j x hj := by
    by_cases hji : j = i
    · subst hji
      exact hsend x (by simpa using hj)
    · exact hsends j _ hji (h.send j x (by rwa [Config.set_loc_of_ne hji] at hj))
  count := hcount
  fresh := hfresh
  recv j y hj := by
    by_cases hji : j = i
    · subst hji
      exact hrecv y (by simpa using hj)
    · exact hrecvs j hji (h.recv j y (by rwa [Config.set_loc_of_ne hji] at hj))
  active := hactive
  gone j hj := by
    by_cases hji : j = i
    · subst hji
      exact hgone (.inr (by simpa using hj))
    · exact hgone (.inl (h.gone j (by rwa [Config.set_loc_of_ne hji] at hj)))

omit [DecidableEq T] in
theorem same (h : Borrowed c) (hhandles : s₁.handles = c.shared.handles)
    (hborrows : s₁.borrows = c.shared.borrows) (hcount : s₁.senderCount = c.shared.senderCount)
    (hnext : s₁.nextHandle = c.shared.nextHandle) (hreceiving : s₁.receiving = c.shared.receiving)
    (hactive : s₁.receiverActive = c.shared.receiverActive)
    (hsend : ∀ x, l₁.pc.sends = some x → (c.loc i).pc.sends = some x)
    (hrecv : ∀ y, l₁.pc.receives = some y → (c.loc i).pc.receives = some y)
    (hdrop : l₁.pc.dropsReceiver = true → (c.loc i).pc.dropsReceiver = true) :
    Borrowed (c.set i s₁ l₁) := by
  refine h.set (fun x hx => ?_) (fun j k _ hk => ?_) ?_ (fun k hk => ?_) (fun y hy => ?_)
    (fun j _ hj => ?_) (fun ha => ?_) fun hg => ?_
  · rw [hhandles, hborrows]; exact h.send i x (hsend x hx)
  · rw [hhandles, hborrows]; exact hk
  · rw [hcount, hhandles]; exact h.count
  · rw [hhandles] at hk; rw [hnext]; exact h.fresh k hk
  · rw [hreceiving]; exact h.recv i y (hrecv y hy)
  · rw [hreceiving]; exact hj
  · rw [hactive] at ha; rw [hreceiving]; exact h.active ha
  · rw [hactive]; exact hg.elim id fun hd => h.gone i (hdrop hd)

omit [DecidableEq T] in
/-- A send ends. -/
theorem endSend (h : Borrowed c) {k : ℕ} (hhandles : s₁.handles = c.shared.handles)
    (hborrows : s₁.borrows =
      Function.update c.shared.borrows k (c.shared.borrows k \ {i}))
    (hcount : s₁.senderCount = c.shared.senderCount)
    (hnext : s₁.nextHandle = c.shared.nextHandle) (hreceiving : s₁.receiving = c.shared.receiving)
    (hactive : s₁.receiverActive = c.shared.receiverActive) (hpc : l₁.pc = .ready) :
    Borrowed (c.set i s₁ l₁) := by
  refine h.set (fun x hx => ?_) (fun j k' hj hk => ⟨hhandles ▸ hk.1, ?_⟩) ?_ (fun k hk => ?_)
    (fun y hy => ?_) (fun j _ hj => ?_) (fun ha => ?_) fun hg => ?_
  · rw [hpc] at hx; cases hx
  · rw [hborrows, Function.update_apply]
    split
    · subst k'
      simpa [hj] using hk.2
    · exact hk.2
  · rw [hcount, hhandles]; exact h.count
  · rw [hhandles] at hk; rw [hnext]; exact h.fresh k hk
  · rw [hpc] at hy; cases hy
  · rw [hreceiving]; exact hj
  · rw [hactive] at ha; rw [hreceiving]; exact h.active ha
  · rw [hactive]; exact hg.elim id fun hd => by rw [hpc] at hd; cases hd

omit [DecidableEq T] in
theorem endRecv (h : Borrowed c) (hhandles : s₁.handles = c.shared.handles)
    (hborrows : s₁.borrows = c.shared.borrows) (hcount : s₁.senderCount = c.shared.senderCount)
    (hnext : s₁.nextHandle = c.shared.nextHandle)
    (hreceiving : s₁.receiving = c.shared.receiving \ {i})
    (hactive : s₁.receiverActive = c.shared.receiverActive) (hpc : l₁.pc = .ready) :
    Borrowed (c.set i s₁ l₁) := by
  refine h.set (fun x hx => ?_) (fun j k _ hk => ?_) ?_ (fun k hk => ?_) (fun y hy => ?_)
    (fun j hji hj => ?_) (fun ha => ?_) fun hg => ?_
  · rw [hpc] at hx; cases hx
  · rw [hhandles, hborrows]; exact hk
  · rw [hcount, hhandles]; exact h.count
  · rw [hhandles] at hk; rw [hnext]; exact h.fresh k hk
  · rw [hpc] at hy; cases hy
  · rw [hreceiving]; simpa [hji] using hj
  · rw [hactive] at ha; rw [hreceiving, h.active ha]; simp
  · rw [hactive]; exact hg.elim id fun hd => by rw [hpc] at hd; cases hd

omit [DecidableEq T] in
theorem dropFuture (h : Borrowed c) {cv : Condvar.Shared ι (Option T) (List T)}
    {lcv : Condvar.Local ι (Option T)} :
    Borrowed (c.set i (dropFuture i (c.loc i).pc { c.shared with cv := cv }) ⟨lcv, .ready⟩) := by
  cases hx : (c.loc i).pc.sends with
  | some x =>
    have heq : Mpsc.dropFuture i (c.loc i).pc { c.shared with cv := cv } =
      { c.shared with
        cv := cv
        borrows := Function.update c.shared.borrows x.handle (c.shared.borrows x.handle \ {i}) } := by
      simp only [Mpsc.dropFuture, hx]
    rw [heq]
    exact h.endSend rfl rfl rfl rfl rfl rfl rfl
  | none =>
    cases hy : (c.loc i).pc.receives with
    | some y =>
      have heq : Mpsc.dropFuture i (c.loc i).pc { c.shared with cv := cv } =
          { c.shared with cv := cv, receiving := c.shared.receiving \ {i} } := by
        simp only [Mpsc.dropFuture, hx, hy]
      rw [heq]
      exact h.endRecv rfl rfl rfl rfl rfl rfl rfl
    | none =>
      have heq : Mpsc.dropFuture i (c.loc i).pc { c.shared with cv := cv } =
          { c.shared with cv := cv } := by
        simp only [Mpsc.dropFuture, hx, hy]
      rw [heq]
      exact h.same rfl rfl rfl rfl rfl rfl (by rintro _ ⟨⟩) (by rintro _ ⟨⟩) (by rintro ⟨⟩)

/-- Every step keeps the borrows in order. -/
theorem step (h : Borrowed c) (m : Move i c.shared (c.loc i) s₁ l₁) :
    Borrowed (c.set i s₁ l₁) := by
  cases m with
  | below => exact h.same rfl rfl rfl rfl rfl rfl (fun _ hx => hx) (fun _ hy => hy) id
  | call b p hcall =>
    refine h.same rfl rfl rfl rfl rfl rfl (fun x hx => hcall.sends ▸ hx)
      (fun y hy => hcall.receives ▸ hy) fun hd => ?_
    generalize (c.loc i).pc = q at hcall
    cases hcall <;> first | rfl | cases hd
  | reads p _ hreads =>
    refine h.same rfl rfl rfl rfl rfl rfl (fun x hx => hreads.sends ▸ hx)
      (fun y hy => hreads.receives ▸ hy) fun hd => ?_
    rw [Local.goto_pc] at hd
    generalize (c.loc i).pc = q at hreads
    cases hreads <;> cases hd
  | push x hp =>
    exact h.same rfl rfl rfl rfl rfl rfl (fun x hx => by rw [hp]; exact hx) nofun nofun
  | pop y hp =>
    refine h.same rfl rfl rfl rfl rfl rfl (fun x hx => ?_) (fun y hy => ?_) fun hd => ?_
    · dsimp only at hx
      split at hx <;> cases hx
    · dsimp only at hy
      rw [hp]
      split at hy <;> exact hy
    · dsimp only at hd
      split at hd <;> cases hd
  | returnOk x | returnErr x => exact h.endSend rfl rfl rfl rfl rfl rfl rfl
  | returnRecv y r => exact h.endRecv rfl rfl rfl rfl rfl rfl rfl
  | cancel => exact h.dropFuture
  | send how handle t hp hh =>
    refine h.set (fun x hx => ?_) (fun j k _ hk => ⟨hk.1, ?_⟩) h.count h.fresh
      nofun (fun j _ hj => hj) h.active fun hg => hg.elim id nofun
    · cases hx
      exact ⟨hh, by simp⟩
    · by_cases hkh : k = handle
      · subst hkh
        simpa using .inr hk.2
      · simpa [hkh] using hk.2
  | recv op hp hactive =>
    refine h.set (fun x hx => by cases hx) (fun j k _ hk => hk) h.count h.fresh
      (fun y hy => by simp) (fun j _ hj => Finset.mem_insert_of_mem hj) (fun ha => ?_)
      fun hg => hg.elim id nofun
    rw [hactive] at ha
    cases ha
  | clone handle hp hh =>
    have hnew : c.shared.nextHandle ∉ c.shared.handles := fun hmem =>
      absurd (h.fresh _ hmem) (Nat.lt_irrefl _)
    refine h.set (fun x hx => by rw [hp] at hx; cases hx)
      (fun j k _ hk => ⟨Finset.mem_insert_of_mem hk.1, hk.2⟩) ?_ (fun k hk => ?_)
      (fun y hy => by rw [hp] at hy; cases hy) (fun j _ hj => hj) h.active
      fun hg => hg.elim id fun hd => by rw [hp] at hd; cases hd
    · simp only [Finset.card_insert_of_notMem hnew, h.count]
    · rcases Finset.mem_insert.1 hk with rfl | hk
      · exact Nat.lt_succ_self _
      · exact Nat.lt_succ_of_lt (h.fresh k hk)
  | dropSender handle hp hh hb =>
    refine h.set (fun x hx => ?_) (fun j k _ hk => ⟨?_, hk.2⟩) ?_
      (fun k hk => h.fresh k (Finset.mem_of_mem_erase hk)) (fun y hy => ?_) (fun j _ hj => hj)
      h.active fun hg => hg.elim id fun hd => ?_
    · rw [Local.goto_pc] at hx
      split at hx <;> cases hx
    · refine Finset.mem_erase.2 ⟨fun hkh => ?_, hk.1⟩
      rw [hkh, hb] at hk
      exact absurd hk.2 (Finset.notMem_empty _)
    · simp only [Finset.card_erase_of_mem hh, h.count]
    · rw [Local.goto_pc] at hy
      split at hy <;> cases hy
    · rw [Local.goto_pc] at hd
      split at hd <;> cases hd
  | dropReceiver hp hactive hrecv =>
    exact h.set nofun (fun j k _ hk => hk) h.count h.fresh nofun (fun j _ hj => hj)
      (fun _ => hrecv) fun _ => rfl

end Borrowed

theorem borrowed (h : sys.Reachable (init plat) c) : Borrowed c := by
  refine h.invariant ?_ (fun c i a s l _ ih _ hs => ih.step (step_move hs)) ?_
  · exact ⟨nofun, rfl, by simp [init, Shared.new], nofun, nofun, nofun⟩
  · intro c e s _ ih _ hs
    simp only [sys, Option.map_eq_some_iff] at hs
    obtain ⟨p, -, rfl⟩ := hs
    exact ⟨ih.send, ih.count, ih.fresh, ih.recv, ih.active, ih.gone⟩

/-- A `Sender` is borrowed by sends only. -/
theorem Move.borrower (m : Move i s l s₁ l₁) (hl : ∀ k, i ∈ s.borrows k → ∃ x, l.pc.sends = some x ∧ x.handle = k)
    (k : ℕ) : (∀ j, j ≠ i → j ∈ s₁.borrows k → j ∈ s.borrows k) ∧
      (i ∈ s₁.borrows k → ∃ x, l₁.pc.sends = some x ∧ x.handle = k) := by
  -- a call that returns gives back its `Sender`
  have hreturn : ∀ x, l.pc.sends = some x →
      (∀ j, j ≠ i → j ∈ Function.update s.borrows x.handle (s.borrows x.handle \ {i}) k → j ∈ s.borrows k) ∧
        i ∉ Function.update s.borrows x.handle (s.borrows x.handle \ {i}) k := fun x hx => by
    by_cases hk : k = x.handle
    · subst hk
      simp only [Function.update_self, Finset.mem_sdiff, Finset.mem_singleton, not_true, and_false,
        not_false_eq_true, and_true]
      exact fun j _ hj => hj.1
    · rw [Function.update_of_ne hk]
      refine ⟨fun _ _ hj => hj, fun hi => ?_⟩
      obtain ⟨y, hy, hyk⟩ := hl k hi
      rw [hx] at hy
      cases hy
      exact hk hyk.symm
  cases m with
  | below => exact ⟨fun _ _ hj => hj, hl k⟩
  | call b p hcall => exact ⟨fun _ _ hj => hj, fun hi => by rw [hcall.sends]; exact hl k hi⟩
  | reads p _ hreads => exact ⟨fun _ _ hj => hj, fun hi => by rw [Local.goto_pc, hreads.sends]; exact hl k hi⟩
  | push x hp => exact ⟨fun _ _ hj => hj, fun hi => by have := hl k hi; rw [hp] at this; exact this⟩
  | returnOk x hp | returnErr x hp =>
    obtain ⟨hother, hself⟩ := hreturn x (by rw [hp]; rfl)
    exact ⟨hother, fun hi => absurd hi hself⟩
  | cancel cv lcv =>
    cases hx : l.pc.sends with
    | some x =>
      obtain ⟨hother, hself⟩ := hreturn x hx
      simp only [dropFuture, hx]
      exact ⟨hother, fun hi => absurd hi hself⟩
    | none =>
      have hsame : (dropFuture i l.pc { s with cv := cv }).borrows = s.borrows := by
        cases hy : l.pc.receives <;> simp only [dropFuture, hx, hy]
      rw [hsame]
      refine ⟨fun _ _ hj => hj, fun hi => ?_⟩
      obtain ⟨x, hx', -⟩ := hl k hi
      rw [hx] at hx'
      cases hx'
  | send how handle t hp =>
    by_cases hk : k = handle
    · subst hk
      simp only [Function.update_self, Finset.mem_insert]
      exact ⟨fun _ hne hj => hj.resolve_left hne, fun _ => ⟨_, rfl, rfl⟩⟩
    · simp only [Function.update_of_ne hk]
      refine ⟨fun _ _ hj => hj, fun hi => ?_⟩
      obtain ⟨x, hx, -⟩ := hl k hi
      rw [hp] at hx
      cases hx
  | clone => exact ⟨fun _ _ hj => hj, hl k⟩
  | pop y hp | returnRecv y r hp | recv op hp | dropSender handle hp | dropReceiver hp =>
    refine ⟨fun _ _ hj => hj, fun hi => ?_⟩
    obtain ⟨x, hx, -⟩ := hl k hi
    rw [hp] at hx
    cases hx

theorem borrower (h : sys.Reachable (init plat) c) {k : ℕ} (hi : i ∈ c.shared.borrows k) :
    ∃ x, (c.loc i).pc.sends = some x ∧ x.handle = k := by
  revert i k
  refine h.invariant (I := fun c => ∀ {i k}, i ∈ c.shared.borrows k →
    ∃ x, (c.loc i).pc.sends = some x ∧ x.handle = k) (fun hi => absurd hi (Finset.notMem_empty _)) ?_ ?_
  · intro c j a s l _ ih _ hs i k hi
    obtain ⟨hother, hself⟩ := (step_move hs).borrower (fun _ hj => ih hj) k
    by_cases hij : i = j
    · subst hij
      rw [Config.set_loc_self]
      exact hself hi
    · rw [Config.set_loc_of_ne hij]
      exact ih (hother i hij hi)
  · intro c e s _ ih _ hs i k hi
    simp only [sys, Option.map_eq_some_iff] at hs
    obtain ⟨p, -, rfl⟩ := hs
    exact ih hi

/-! ### The thread of the receiver -/

/-- The receive that runs is the one that is not suspended. -/
def Runs (c : Config ι (Shared ι T) (Local ι T)) : Prop :=
  ∀ i, c.shared.running = some i ↔
    ∃ y, (c.loc i).pc.receives = some y ∧ suspended (c.loc i).cv = false

variable {lcv : Condvar.Local ι (Option T)} {cv : Condvar.Shared ι (Option T) (List T)}

omit [DecidableEq ι] [DecidableEq T] in
theorem not_suspended {l : Condvar.Local ι (Option T)} (hpc : l.pc.inWait = false)
    (hmx : l.mx.pc.quiet = true ∨ l.mx.pc.hasGuard = true) : suspended l = false := by
  cases hm : l.mx.pc <;> cases hp : l.pc <;>
    simp_all [suspended, Mutex.Pc.quiet, Mutex.Pc.hasGuard, Condvar.Pc.inWait]

omit [DecidableEq ι] [DecidableEq T] in
theorem not_suspended_of_atRest {l : Condvar.Local ι (Option T)} (h : l.atRest = true) :
    suspended l = false := by
  obtain ⟨hmx, hpc⟩ := Condvar.Local.atRest_iff.1 h
  refine not_suspended (by rw [hpc]; rfl) ?_
  cases hm : l.mx.pc <;> simp_all [Mutex.Pc.atRest, Mutex.Pc.quiet, Mutex.Pc.hasGuard]

omit [DecidableEq T] in
theorem suspended_of_cancel {l : Condvar.Local ι (Option T)}
    {cv₁ : Condvar.Shared ι (Option T) (List T)}
    (h : Condvar.step i .cancel cv l = some (cv₁, lcv)) : suspended l = true := by
  simp only [Condvar.step] at h
  split at h
  · split at h <;> cases h <;> rename_i hp <;> simp only [suspended, hp] <;> split <;> simp_all
  · obtain ⟨m, lm, hm, -, -⟩ := Condvar.lift_eq_some h
    cases hp : l.mx.pc <;> simp only [Mutex.step, hp, reduceCtorEq] at hm <;>
      simp only [suspended, hp]

namespace Runs

omit [DecidableEq T] in
/-- A step after which the thread is settled. -/
theorem settled (h : Runs c) {running : Option ι}
    (hrun : Settled i c.shared l₁.pc l₁.cv running)
    (hrecv : l₁.pc.receives = (c.loc i).pc.receives) (hs : s₁.running = running) :
    Runs (c.set i s₁ l₁) := by
  intro j
  rw [Config.set_shared, hs]
  cases hrun with
  | other hp =>
    by_cases hji : j = i
    · subst hji
      rw [Config.set_loc_self, hp, h j, ← hrecv, hp]
      simp
    · rw [Config.set_loc_of_ne hji]
      exact h j
  | receive y hp hturn =>
    by_cases hji : j = i
    · subst hji
      rw [Config.set_loc_self, hp]
      cases suspended l₁.cv <;> simp
    · rw [Config.set_loc_of_ne hji, ← h j]
      have hother : c.shared.running ≠ some j := by
        rcases hturn with hturn | hturn <;> simp [hturn, Ne.symm hji]
      have hnow : (if suspended l₁.cv then none else some i) ≠ some j := by
        split <;> simp [Ne.symm hji]
      exact ⟨fun hj => absurd hj hnow, fun hj => absurd hj hother⟩

omit [DecidableEq T] in
theorem other (h : Runs c) (hrecv : (c.loc i).pc.receives = none) (hrecv₁ : l₁.pc.receives = none)
    (hs : s₁.running = c.shared.running) : Runs (c.set i s₁ l₁) :=
  h.settled (.other hrecv₁) (hrecv₁.trans hrecv.symm) hs

omit [DecidableEq T] in
theorem ends (h : Runs c) {y : Recv} (hy : (c.loc i).pc.receives = some y)
    (hturn : turn i c.shared (c.loc i) = true) (hrecv₁ : l₁.pc.receives = none)
    (hs : s₁.running = none) : Runs (c.set i s₁ l₁) := by
  intro j
  rw [Config.set_shared, hs]
  by_cases hji : j = i
  · subst hji
    simp [hrecv₁]
  · rw [Config.set_loc_of_ne hji, ← h j]
    have hrun : c.shared.running = none ∨ c.shared.running = some i := by
      simpa [turn, hy] using hturn
    rcases hrun with hrun | hrun <;> simp [hrun, Ne.symm hji]

/-- Every step keeps the thread of the receiver in order. -/
theorem step (h : Runs c) (hl : (c.loc i).Shape) (m : Move i c.shared (c.loc i) s₁ l₁) :
    Runs (c.set i s₁ l₁) := by
  cases m with
  | below b hb cv lcv hcv running hrun => exact h.settled hrun rfl rfl
  | call b p hcall cv lcv hcv running hrun => exact h.settled hrun hcall.receives rfl
  | reads p hrest hreads running hrun => exact h.settled hrun hreads.receives rfl
  | pop y hp hg cv lcv hcv running hrun =>
    have hset : ∀ p, p.receives = some y → Settled i c.shared p lcv running := by
      rw [hp] at hrun
      intro p hp
      cases hrun with
      | other hp => cases hp
      | receive y' hy hturn => exact .receive y hp hturn
    cases hreg : lcv.mx.reg <;> exact h.settled (hset _ rfl) (by rw [hp]; rfl) rfl
  | push x hp => exact h.other (by rw [hp]; rfl) rfl rfl
  | returnOk x hp | returnErr x hp | send how handle t hp | dropReceiver hp =>
    exact h.other (by rw [hp]; rfl) rfl rfl
  | clone handle hp => exact h.other (by rw [hp]; rfl) (by rw [hp]; rfl) rfl
  | dropSender handle hp =>
    refine h.other (by rw [hp]; rfl) ?_ rfl
    rw [Local.goto_pc]
    split <;> rfl
  | returnRecv y r hp hrest hturn => exact h.ends (by rw [hp]; rfl) hturn rfl rfl
  | cancel cv lcv hcv hturn =>
    cases hy : (c.loc i).pc.receives with
    | none =>
      refine h.other hy rfl ?_
      simp only [dropFuture]
      split <;> rfl
    | some y =>
      -- a future is dropped while it is suspended, so it is not the receive that runs
      have hsusp := suspended_of_cancel hcv
      have hrun : c.shared.running ≠ some i := fun hrun => by
        obtain ⟨-, -, hrunning⟩ := (h i).1 hrun
        rw [hsusp] at hrunning
        cases hrunning
      refine h.ends hy hturn rfl ?_
      have hnone : c.shared.running = none := by
        have := hturn
        simpa [turn, hy, hrun] using this
      simp only [dropFuture]
      split <;> exact hnone
  | recv op hp hactive hrun =>
    have hsusp : suspended (c.loc i).cv = false := by
      rw [Local.Shape, hp] at hl
      exact not_suspended (by rw [hl.1]; rfl) (.inl hl.2.2)
    intro j
    by_cases hji : j = i
    · subst hji
      simp [Pc.receives, hsusp]
    · rw [Config.set_loc_of_ne hji, ← h j, Config.set_shared, hrun]
      simp [Ne.symm hji]

end Runs

theorem runs (h : sys.Reachable (init plat) c) : Runs c := by
  refine h.invariant ?_ (fun c i a s l hc ih _ hs => ih.step (shape hc i) (step_move hs)) ?_
  · intro i
    simp [init, Shared.new, Pc.receives]
  · intro c e s _ ih _ hs
    simp only [sys, Option.map_eq_some_iff] at hs
    obtain ⟨p, -, rfl⟩ := hs
    exact ih

/-! ### The guard of the queue -/

/-- The agent has the guard of the queue. -/
def Local.hasGuard (l : Local ι T) : Bool := l.cv.mx.pc.hasGuard

omit [DecidableEq ι] [DecidableEq T] in
theorem Local.Shape.guard (hl : l.Shape) (hcv : l.cv.Shape) (hg : l.hasGuard = true) :
    ((∃ x, l.pc.sends = some x) ∨ ∃ y, l.pc.receives = some y) ∧ suspended l.cv = false := by
  have hbusy : l.cv.mx.pc.quiet ≠ true := fun hq => by
    rw [Local.hasGuard, Mutex.Pc.hasGuard_of_quiet hq] at hg
    cases hg
  refine ⟨?_, ?_⟩
  · cases hp : l.pc <;> simp only [Local.Shape, hp, Pc.phase, Phase.Fits] at hl <;>
      simp_all [Pc.sends, Pc.receives]
  · cases hp : l.cv.pc <;> simp only [Condvar.Local.Shape, hp] at hcv <;>
      cases hm : l.cv.mx.pc <;> simp_all [suspended, Local.hasGuard, Mutex.Pc.hasGuard]

/-- **At most one agent has the guard of the queue.** -/
theorem guard_unique (h : sys.Reachable (init plat) c) (hi : (c.loc i).hasGuard = true)
    (hj : (c.loc j).hasGuard = true) : i = j :=
  (Mutex.owned (Condvar.mutex_reachable (condvar_reachable h))).unique i j hi hj

end Mpsc

end WasmSafeThread
