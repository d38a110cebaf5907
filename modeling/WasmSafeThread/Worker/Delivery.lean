import WasmSafeThread.Worker.Script

/-!
# How a spawn request gets to a worker

In a browser the caller of a spawn, or its root, has the request in its hands, or it is in a relay message
of the caller.

* `Carries` : the operations of whoever has it.
* `remaining` : how many of them there are until there is a worker, at most.
* `remaining_step` : they make it less, and no other operation makes it more.
* `can_carry` : whoever has it can go on, unless the root of the caller is busy with something else, and
  then the root can go on.
-/

namespace WasmSafeThread

namespace Worker

variable {ρ : Type*} {host : Host} {x : Ctx ρ} {a : Act} {s s₁ : Shared ρ} {l l₁ : Local}
  {isWorker : ρ → Bool} {c c' : Config (Ctx ρ) (Shared ρ) Local}

/-- The message is a relay message of request `r`. -/
def Msg.isFor (r : ℕ) : Msg → Bool
  | .relaySpawn p => p.exitStatePtr = r
  | .exit | .error => false

/-- Whether `INIT_HANDLERS` comes first. -/
def Task.todo : Task → ℕ
  | .initHandlers _ => 1
  | _ => 0

/-- The operations that remain until there is a worker for request `r`, at most. -/
def remaining (c : Config (Ctx ρ) (Shared ρ) Local) (r : ℕ) : ℕ :=
  match c.shared.place r with
  | .held (.worker k) => (c.loc (.worker k)).task.todo + ((c.shared.outbox k).length + 3)
  | .posted k => (c.shared.outbox k).findIdx (Msg.isFor r) + 2
  | .held (.root y) => (c.loc (.root y)).task.todo + 1
  | .created _ | .thrown | .outside => 0

/-- The operations of whoever has request `r`. -/
def Carries (c : Config (Ctx ρ) (Shared ρ) Local) (r : ℕ) : Label (Ctx ρ) Act Empty → Prop
  | .agent x .step | .agent x .throws => c.shared.place r = .held x
  | .agent _ (.recv k) => c.shared.place r = .posted k
  | _ => False

/-! ### Messages -/

/-- A message of worker `k` is taken, or worker `k` posts one, or nothing happens to its messages. -/
theorem Move.outbox (h : Move host x s l a s₁ l₁) (k : ℕ) :
    (a = .recv k ∧ ∃ m, s.outbox k = m :: s₁.outbox k) ∨
      a ≠ .recv k ∧ (s₁.outbox k = s.outbox k ∨ x = .worker k ∧ ∃ m, s₁.outbox k = s.outbox k ++ [m]) := by
  have hpost : ∀ j m, x = .worker j → s₁.outbox = (s.post j m).outbox →
      s₁.outbox k = s.outbox k ∨ x = .worker k ∧ ∃ m, s₁.outbox k = s.outbox k ++ [m] := by
    intro j m hx hout
    rw [hout]
    by_cases hk : k = j
    · subst hk
      exact .inr ⟨hx, m, by simp [Shared.post]⟩
    · exact .inl (by simp [Shared.post, hk])
  have htake : ∀ j m rest, s.outbox j = m :: rest → a = .recv j →
      s₁.outbox = Function.update s.outbox j rest →
      (a = .recv k ∧ ∃ m, s.outbox k = m :: s₁.outbox k) ∨ a ≠ .recv k ∧ (s₁.outbox k = s.outbox k ∨
        x = .worker k ∧ ∃ m, s₁.outbox k = s.outbox k ++ [m]) := by
    intro j m rest hmsg ha hout
    by_cases hk : k = j
    · subst hk
      exact .inl ⟨ha, m, by rw [hout, Function.update_self, hmsg]⟩
    · refine .inr ⟨?_, .inl (by rw [hout, Function.update_of_ne hk])⟩
      rw [ha]
      rintro ⟨⟩
      exact hk rfl
  cases h with
  | relay j w p rest hw hmsg hrest hruns hparent => exact htake j _ rest hmsg rfl rfl
  | ended j w m code rest hw hmsg hm hrest hruns hparent => exact htake j m rest hmsg rfl rfl
  | forward p ret htask =>
    refine .inr ⟨by rintro ⟨⟩, ?_⟩
    cases x with
    | worker j => exact hpost j (.relaySpawn p) rfl (by rw [Shared.finish_outbox]; rfl)
    | root z => exact .inl (by rw [Shared.finish_outbox]; rfl)
  | fail j hx hrest hphase hhost => exact .inr ⟨by rintro ⟨⟩, hpost j .error hx rfl⟩
  | die j hx hrest hphase hhost => exact .inr ⟨by rintro ⟨⟩, hpost j .error hx rfl⟩
  | exit j hx hrest hphase => exact .inr ⟨by rintro ⟨⟩, hpost j .exit hx rfl⟩
  | create p ret htask | decrement ptr ret htask hlast | cleanup ptr ret htask =>
    exact .inr ⟨by rintro ⟨⟩, .inl (by rw [Shared.finish_outbox]; rfl)⟩
  | _ => exact .inr ⟨by rintro ⟨⟩, .inl rfl⟩

/-- The place of a request changes only if it is new, or in the hands of the context that acts, or in the
message that is taken. -/
theorem RouteMove.place_eq (h : RouteMove x c.shared (c.loc x) s₁ l₁) (hR : Routed c) (r : ℕ) :
    s₁.place r = c.shared.place r ∨ c.shared.place r = .outside ∨ c.shared.place r = .held x ∨
      ∃ k p, c.shared.place r = .posted k ∧ relays (c.shared.outbox k) = p :: relays (s₁.outbox k) := by
  have hheld : ∀ p y, (c.loc x).task.carries = some p →
      s₁.place = Function.update c.shared.place p.exitStatePtr y →
      s₁.place r = c.shared.place r ∨ c.shared.place r = .held x := by
    intro p y hp hplace
    by_cases hr : r = p.exitStatePtr
    · rw [hr]
      exact .inr (hR.held x p hp).1
    · exact .inl (by rw [hplace, Function.update_of_ne hr])
  cases h with
  | quiet hplace => exact .inl (by rw [hplace])
  | spawn name shimUrl hruns hnone hplace =>
    by_cases hr : r = c.shared.requests.length
    · exact .inr (.inl (hR.unused r (Nat.le_of_eq hr.symm)))
    · exact .inl (by rw [hplace, Function.update_of_ne hr])
  | post k p ret hx htask hplace =>
    rcases hheld p _ (by rw [htask]; rfl) hplace with heq | heq
    · exact .inl heq
    · exact .inr (.inr (.inl heq))
  | lost y p ret hy htask hplace =>
    rcases hheld p _ (by rw [htask]; rfl) hplace with heq | heq
    · exact .inl heq
    · exact .inr (.inr (.inl heq))
  | create p ret htask hplace =>
    rcases hheld p _ (by rw [htask]; rfl) hplace with heq | heq
    · exact .inl heq
    · exact .inr (.inr (.inl heq))
  | relay k w p p' hw hparent hnone hp' hplace hworkers hrequests hcarries hhead hrelays =>
    by_cases hr : r = p.exitStatePtr
    · have hp := (hR.posted k p (by rw [hhead]; exact List.mem_cons_self)).1
      rw [← hr] at hp
      exact .inr (.inr (.inr ⟨k, p, hp, hhead⟩))
    · exact .inl (by rw [hplace, Function.update_of_ne hr])

theorem RouteMove.settled (h : RouteMove x c.shared (c.loc x) s₁ l₁) (hR : Routed c) {r : ℕ}
    (hr : c.shared.place r = .thrown ∨ ∃ k, c.shared.place r = .created k) :
    s₁.place r = c.shared.place r := by
  rcases h.place_eq hR r with heq | heq | heq | ⟨k, p, heq, -⟩
  · exact heq
  all_goals
    rw [heq] at hr
    rcases hr with hr | ⟨j, hr⟩ <;> cases hr

/-! ### The operations that remain -/

theorem Born.placeTask_root (h : Born .browser c) (y : ρ) (p p' : Payload) (ret : Option ℕ) :
    placeTask .browser (c.loc (.root y)) p p' ret = .create p' ret := by
  simp [placeTask, (h.aware (.root y)).root y rfl]

theorem Born.placeTask_worker (h : Born .browser c) {k : ℕ} (hbusy : (c.loc (.worker k)).task ≠ .rest)
    (p p' : Payload) (ret : Option ℕ) :
    placeTask .browser (c.loc (.worker k)) p p' ret = .forward p ret := by
  have hphase : (c.loc (.worker k)).phase ≠ .unborn := fun hphase =>
    hbusy ((h.aware (.worker k)).rest k rfl hphase)
  simp [placeTask, (h.aware (.worker k)).worker k rfl, ((h.aware (.worker k)).born k rfl hphase).2 rfl]

/-- The operations of a context that has a request in its hands. -/
theorem Move.of_carries (h : Move host x s l a s₁ l₁) {p : Payload} (hp : l.task.carries = some p) :
    (l.task = .initHandlers p ∧ s₁.place = s.place ∧ s₁.outbox = s.outbox ∧
      l₁.task = placeTask host l p p (some p.exitStatePtr)) ∨
    (∃ ret, l.task = .create p ret ∧
      s₁.place = Function.update s.place p.exitStatePtr (.created s.workers.length)) ∨
    ∃ ret, l.task = .forward p ret ∧
      (s₁.place = Function.update s.place p.exitStatePtr .thrown ∨
        s₁.place = (Worker.forward x p s).place ∧ s₁.outbox = (Worker.forward x p s).outbox) := by
  have hbusy : l.task ≠ .rest := by
    intro hrest
    rw [hrest] at hp
    cases hp
  cases h with
  | initHandlers q htask =>
    rw [htask] at hp
    cases hp
    exact .inl ⟨htask, rfl, rfl, rfl⟩
  | create q ret htask =>
    rw [htask] at hp
    cases hp
    exact .inr (.inl ⟨ret, htask, by rw [Shared.finish_place]; rfl⟩)
  | forward q ret htask =>
    rw [htask] at hp
    cases hp
    exact .inr (.inr ⟨ret, htask, .inr ⟨Shared.finish_place _ _, Shared.finish_outbox _ _⟩⟩)
  | throws q ret htask =>
    rw [htask] at hp
    cases hp
    exact .inr (.inr ⟨ret, htask, .inl rfl⟩)
  | signal _ _ _ _ htask | decrement _ _ htask | decrementLast _ _ htask | cleanup _ _ htask
  | freeBox _ htask =>
    rw [htask] at hp
    cases hp
  | spawn _ _ hrest => exact absurd hrest hbusy
  | relay _ _ _ _ _ _ hrest => exact absurd hrest hbusy
  | ended _ _ _ _ _ _ _ _ hrest => exact absurd hrest hbusy
  | onerror _ _ _ _ hrest => exact absurd hrest hbusy
  | logged _ _ hrest | load _ hrest | dropHandle _ hrest => exact absurd hrest hbusy
  | start _ _ _ _ hrest | enter _ _ _ hrest | fail _ _ hrest | die _ _ hrest | exit _ _ hrest
  | uncaught _ _ hrest => exact absurd hrest hbusy

section

variable [DecidableEq ρ] {r : ℕ}

/-- The context that has the request acts. -/
theorem remaining_lt_of_held (hB : Born .browser c) (hR : Routed c)
    (hmove : Move .browser x c.shared (c.loc x) a s₁ l₁) (hplace : c.shared.place r = .held x) :
    remaining (c.set x s₁ l₁) r < remaining c r := by
  obtain ⟨p, hp, rfl⟩ := hR.holder r x hplace
  rcases hmove.of_carries hp with ⟨htask, hp₁, hout, htask₁⟩ | ⟨ret, htask, hp₁⟩ |
    ⟨ret, htask, hp₁ | ⟨hp₁, hout⟩⟩
  · rw [← hp₁] at hplace
    cases x with
    | root y =>
      rw [hB.placeTask_root] at htask₁
      rw [hp₁] at hplace
      simp [remaining, hp₁, hplace, htask, htask₁, Task.todo]
    | worker k =>
      rw [hB.placeTask_worker (by rw [htask]; nofun)] at htask₁
      rw [hp₁] at hplace
      simp [remaining, hp₁, hplace, hout, htask, htask₁, Task.todo]
  · obtain ⟨y, rfl⟩ := hB.root_of_create htask
    simp [remaining, hp₁, hplace]
  · obtain ⟨k, rfl⟩ := hB.worker_of_forward htask
    simp only [remaining, Config.set_shared, hp₁, Function.update_self, hplace]
    omega
  · obtain ⟨k, rfl⟩ := hB.worker_of_forward htask
    have hout₁ : s₁.outbox k = c.shared.outbox k ++ [.relaySpawn p] := by
      rw [hout]
      simp [Worker.forward, Shared.setPlace, Shared.post]
    have hplace₁ : s₁.place p.exitStatePtr = .posted k := by
      rw [hp₁]
      simp [Worker.forward, Shared.setPlace]
    have hidx : (c.shared.outbox k ++ [Msg.relaySpawn p]).findIdx (Msg.isFor p.exitStatePtr) <
        (c.shared.outbox k ++ [Msg.relaySpawn p]).length :=
      List.findIdx_lt_length_of_exists ⟨Msg.relaySpawn p, by simp, by simp [Msg.isFor]⟩
    rw [List.length_append, List.length_singleton] at hidx
    simp only [remaining, Config.set_shared, hplace₁, hplace, hout₁]
    omega

/-- The message of the request, or one before it, is taken. -/
theorem remaining_lt_of_recv (hB : Born .browser c) (hT : Traced c) {k : ℕ}
    (hmove : Move .browser x c.shared (c.loc x) (.recv k) s₁ l₁)
    (hplace : c.shared.place r = .posted k) : remaining (c.set x s₁ l₁) r < remaining c r := by
  have hbefore : ∀ m, m.isFor r = false → c.shared.outbox k = m :: s₁.outbox k →
      s₁.place r = c.shared.place r → remaining (c.set x s₁ l₁) r < remaining c r := by
    intro m hm hout hplace₁
    simp only [remaining, Config.set_shared, hplace₁, hplace, hout, List.findIdx_cons, hm, cond_false]
    omega
  cases hmove with
  | relay _ w p rest hw hmsg hrest hruns hparent =>
    by_cases hr : p.exitStatePtr = r
    · obtain ⟨y, hy⟩ := hT.parent k w hw
      rw [hparent] at hy
      subst hy
      have hplace₁ : (({ c.shared with outbox := Function.update c.shared.outbox k rest }).setPlace
          p.exitStatePtr (.held (.root y))).place r = .held (.root y) := by
        simp [Shared.setPlace, hr]
      simp only [remaining, Config.set_shared, hplace₁, hplace, Config.set_loc_self,
        hB.placeTask_root, Task.todo]
      omega
    · refine hbefore (.relaySpawn p) (by simp [Msg.isFor, hr]) ?_ ?_
      · simp [Shared.setPlace, hmsg]
      · simp [Shared.setPlace, Ne.symm hr]
  | ended _ w m code rest hw hmsg hm hrest hruns hparent =>
    refine hbefore m ?_ ?_ rfl
    · rcases hm with ⟨rfl, -⟩ | ⟨rfl, -⟩ <;> rfl
    · simp [Shared.setExit, Shared.takeFinal, hmsg]

/-- Nobody who has the request acts. -/
theorem remaining_le (hR : Routed c) (hmove : Move .browser x c.shared (c.loc x) a s₁ l₁)
    (hin : c.shared.place r ≠ .outside) (hother : ¬Carries c r (.agent x a))
    (hx : c.shared.place r ≠ .held x) : remaining (c.set x s₁ l₁) r ≤ remaining c r := by
  have hplace : s₁.place r = c.shared.place r := by
    rcases hmove.route.place_eq hR r with heq | heq | heq | ⟨k, p, hk, hrelays⟩
    · exact heq
    · exact absurd heq hin
    · exact absurd heq hx
    · rcases hmove.outbox k with ⟨rfl, -⟩ | ⟨-, hout | ⟨-, m, hout⟩⟩
      · exact absurd hk hother
      · rw [hout] at hrelays
        exact absurd (congrArg List.length hrelays) (by simp)
      · rw [hout] at hrelays
        have := congrArg List.length hrelays
        simp only [relays, List.filterMap_append, List.length_cons, List.length_append] at this
        omega
  unfold remaining
  simp only [Config.set_shared, hplace]
  split
  · rename_i k hk
    have hkx : Ctx.worker k ≠ x := by
      rintro rfl
      exact hx hk
    -- its holder is a worker, and others can only take messages of it
    rw [Config.set_loc_of_ne hkx]
    rcases hmove.outbox k with ⟨rfl, m, hout⟩ | ⟨-, hout | ⟨rfl, m, hout⟩⟩
    · rw [hout, List.length_cons]
      omega
    · exact Nat.le_of_eq (by rw [hout])
    · exact absurd rfl hkx
  · rename_i k hk
    rcases hmove.outbox k with ⟨rfl, m, hout⟩ | ⟨-, hout | ⟨rfl, m, hout⟩⟩
    · exact absurd hk hother
    · exact Nat.le_of_eq (by rw [hout])
    · obtain ⟨p, hp, hptr⟩ := hR.poster r k hk
      have hlt : (c.shared.outbox k).findIdx (Msg.isFor r) < (c.shared.outbox k).length :=
        List.findIdx_lt_length_of_exists
          ⟨.relaySpawn p, mem_relays.1 hp, by simp [Msg.isFor, hptr]⟩
      exact Nat.le_of_eq (by rw [hout, List.findIdx_append, if_pos hlt])
  · rename_i y hy
    have hyx : Ctx.root y ≠ x := by
      rintro rfl
      exact hx hy
    exact Nat.le_of_eq (by rw [Config.set_loc_of_ne hyx])
  · exact Nat.le_refl _
  · exact Nat.le_refl _
  · exact Nat.le_refl _

/-- **Whoever has the request brings it closer to a worker**, and nothing else that happens takes it
further away. -/
theorem remaining_step {a : Label (Ctx ρ) Act Empty}
    (h : (sys .browser).Reachable (init isWorker) c) (hn : (sys .browser).next c a = some c')
    (hin : c.shared.place r ≠ .outside) :
    remaining c' r ≤ remaining c r ∧ (Carries c r a → remaining c' r < remaining c r) := by
  cases a with
  | env e => exact nomatch e
  | agent x a =>
    obtain ⟨s₁, l₁, hs, rfl⟩ := System.next_agent hn
    have hmove := step_move hs
    have hlt : c.shared.place r = .held x → remaining (c.set x s₁ l₁) r < remaining c r :=
      remaining_lt_of_held (born h) (routed h) hmove
    have hcarry : Carries c r (.agent x a) → remaining (c.set x s₁ l₁) r < remaining c r := by
      intro hcarry
      unfold Carries at hcarry
      split at hcarry
      · rename_i heq
        cases heq
        exact hlt hcarry
      · rename_i heq
        cases heq
        exact hlt hcarry
      · rename_i heq
        cases heq
        exact remaining_lt_of_recv (born h) (traced h) hmove hcarry
      · cases hcarry
    refine ⟨?_, hcarry⟩
    by_cases hother : Carries c r (.agent x a)
    · exact Nat.le_of_lt (hcarry hother)
    · by_cases hx : c.shared.place r = .held x
      · exact Nat.le_of_lt (hlt hx)
      · exact remaining_le (routed h) hmove hin hother hx

end

/-! ### Who can act -/

theorem exists_next [DecidableEq ρ] {out : Shared ρ × Local}
    (hs : step host x a c.shared (c.loc x) = some out) :
    ∃ c', (sys host).next c (.agent x a) = some c' := by
  refine ⟨c.set x out.1 out.2, ?_⟩
  show (step host x a c.shared (c.loc x)).map _ = _
  rw [hs]
  rfl

theorem exists_step [DecidableEq ρ] (host : Host) (htask : (c.loc x).task ≠ .rest) :
    ∃ c', (sys host).next c (.agent x .step) = some c' := by
  obtain ⟨out, hout⟩ : ∃ out, advance host x c.shared (c.loc x) = some out := by
    cases ht : (c.loc x).task with
    | rest => exact absurd ht htask
    | initHandlers | forward | create | signal | cleanup | freeBox => simp [advance, ht]
    | decrement ptr ret =>
      simp only [advance, ht]
      split
      · exact ⟨_, rfl⟩
      · exact ⟨_, rfl⟩
  exact exists_next (a := .step) hout

theorem exists_recv [DecidableEq ρ] (host : Host) {k : ℕ} {w : Created ρ}
    (hw : c.shared.workers[k]? = some w) (hparent : w.parent = x) (hrest : (c.loc x).task = .rest)
    (hruns : (c.loc x).phase.runs = true) (hmsg : c.shared.outbox k ≠ []) :
    ∃ c', (sys host).next c (.agent x (.recv k)) = some c' := by
  obtain ⟨m, rest, hout⟩ := List.exists_cons_of_ne_nil hmsg
  have hs : step host x (.recv k) c.shared (c.loc x) = some (onMessage host x k w
      { c.shared with outbox := Function.update c.shared.outbox k rest } (c.loc x) m) := by
    simp only [step, hw, hout, hrest, hruns, hparent, and_self, if_true]
  exact exists_next hs

theorem root_entered [DecidableEq ρ] (h : (sys host).Reachable (init isWorker) c) (y : ρ) :
    (c.loc (.root y)).phase = .entered := by
  refine h.invariant (I := fun c => (c.loc (.root y)).phase = .entered) rfl ?_ fun c e => nomatch e
  intro c x a s l _ ih _ hs
  by_cases hx : Ctx.root y = x
  · subst hx
    rw [Config.set_loc_self]
    cases (step_move hs).script with
    | quiet _ _ _ _ _ hphase => rw [hphase, ih]
    | create _ _ _ _ _ _ _ hphase => rw [hphase, ih]
    | taken _ _ _ _ _ _ hphase => rw [hphase, ih]
    | start _ _ _ hx => cases hx
    | enter _ _ hx => cases hx
    | stop _ hx => cases hx
  · rw [Config.set_loc_of_ne hx]
    exact ih

/-- **A request does not get stuck.**  Whoever has it can go on, unless the root that should take the
message is busy with something else, and then the root can go on. -/
theorem can_carry [DecidableEq ρ] (h : (sys .browser).Reachable (init isWorker) c) {r : ℕ}
    (hr : 0 < remaining c r) :
    (∃ a c', Carries c r a ∧ (sys .browser).next c a = some c') ∨
      ∃ k w y c', c.shared.place r = .posted k ∧ c.shared.workers[k]? = some w ∧ w.parent = .root y ∧
        (c.loc (.root y)).task ≠ .rest ∧ (sys .browser).next c (.agent (.root y) .step) = some c' := by
  have hR := routed h
  cases hplace : c.shared.place r with
  | held x =>
    obtain ⟨p, hp, -⟩ := hR.holder r x hplace
    have hbusy : (c.loc x).task ≠ .rest := by
      intro hrest
      rw [hrest] at hp
      cases hp
    obtain ⟨c', hc'⟩ := exists_step .browser hbusy
    exact .inl ⟨.agent x .step, c', hplace, hc'⟩
  | posted k =>
    obtain ⟨p, hp, rfl⟩ := hR.poster r k hplace
    obtain ⟨q, hq, -⟩ := (hR.posted k p hp).2
    have hk := (traced h).caller _ q k hq ((traced h).posted _ q k hq hplace)
    have hw := List.getElem?_eq_getElem hk
    obtain ⟨y, hy⟩ := (traced h).parent k _ hw
    by_cases hrest : (c.loc (.root y)).task = .rest
    · obtain ⟨c', hc'⟩ := exists_recv .browser (hw.trans (congrArg some rfl)) hy hrest
        (by rw [root_entered h y]; rfl) (List.ne_nil_of_mem (mem_relays.1 hp))
      exact .inl ⟨.agent (.root y) (.recv k), c', hplace, hc'⟩
    · obtain ⟨c', hc'⟩ := exists_step .browser hrest
      exact .inr ⟨k, _, y, c', rfl, hw, hy, hrest, hc'⟩
  | created | thrown | outside =>
    rw [remaining, hplace] at hr
    cases hr

end Worker

end WasmSafeThread
