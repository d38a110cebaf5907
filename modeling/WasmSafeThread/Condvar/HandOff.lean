import WasmSafeThread.Condvar.Deeds
import WasmSafeThread.Condvar.NotifyAll

/-!
# The hand-off to a spinning wait

`wait_spin` and `wait_spin_timeout` wait for a flag of their own.  A notifier first takes the entry
out of the list and then sets the flag, in two steps, so a waiter whose deadline has passed can
find itself neither in the list nor flagged.

* `Stage` : the life of a registration; `Stage.deeds` is what happened to it so far.
* `Standing` : what the lists, the flag, the notifiers and the waits say at each stage.
* `told` : in every run every registration has a stage.
* `exact_hand_off` : every registration has a life of one of two kinds.
-/

namespace WasmSafeThread

namespace Condvar

variable {ι R D : Type*} [DecidableEq ι]

/-! ### The life of a registration -/

/-- The life of a registration: of agent `i`, and taken by agent `j`. -/
inductive Stage (ι : Type*) where
  /-- Not pushed, or not a registration of a spinning wait. -/
  | fresh
  | listed (i : ι)
  | taken (i j : ι)
  | flagged (i j : ι)
  | handed (i j : ι)
  | left (i : ι)
  | expired (i : ι)
  deriving DecidableEq

/-- The life of a registration that is answered. -/
def handOff (i j : ι) : List (Deed ι) := [.pushed i, .removed j, .stored j, .returned i false]

/-- The life of a registration that is not. -/
def expiry (i : ι) : List (Deed ι) := [.pushed i, .left i, .returned i true]

namespace Stage

/-- What happened up to a stage. -/
def deeds : Stage ι → List (Deed ι)
  | .fresh => []
  | .listed i => [.pushed i]
  | .taken i j => [.pushed i, .removed j]
  | .flagged i j => [.pushed i, .removed j, .stored j]
  | .handed i j => handOff i j
  | .left i => [.pushed i, .left i]
  | .expired i => expiry i

/-- The flag is set. -/
def flag : Stage ι → Bool
  | .flagged _ _ | .handed _ _ => true
  | _ => false

/-- Agent `i` is in the loop of the wait, or on its way there. -/
def Waits (i : ι) : Stage ι → Prop
  | .listed i' | .taken i' _ | .flagged i' _ => i' = i
  | _ => False

/-- The loop of the wait goes on. -/
def Sleeps (i : ι) : Stage ι → Prop
  | .listed i' | .taken i' _ => i' = i
  | _ => False

/-- The wait of agent `i` is over with this result, but for its relock. -/
def Relocks (i : ι) (timedOut : Bool) : Stage ι → Prop
  | .flagged i' _ => i' = i ∧ timedOut = false
  | .left i' => i' = i ∧ timedOut = true
  | _ => False

omit [DecidableEq ι] in
theorem deeds_prefix (st : Stage ι) :
    st = .fresh ∨ ∃ i j, st.deeds <+: handOff i j ∨ st.deeds <+: expiry i := by
  cases st with
  | fresh => exact .inl rfl
  | listed i => exact .inr ⟨i, i, .inl ⟨_, rfl⟩⟩
  | taken i j | flagged i j => exact .inr ⟨i, j, .inl ⟨_, rfl⟩⟩
  | handed i j => exact .inr ⟨i, j, .inl List.prefix_rfl⟩
  | left i => exact .inr ⟨i, i, .inr ⟨_, rfl⟩⟩
  | expired i => exact .inr ⟨i, i, .inr List.prefix_rfl⟩

end Stage

/-- For the agents other than `i`, the two stages are the same. -/
structure Stage.Agree (i : ι) (st st' : Stage ι) : Prop where
  waits : ∀ j, j ≠ i → st.Waits j → st'.Waits j
  sleeps : ∀ j, j ≠ i → st'.Sleeps j → st.Sleeps j
  relocks : ∀ j timedOut, j ≠ i → st.Relocks j timedOut → st'.Relocks j timedOut
  listed : ∀ j, j ≠ i → st' = .listed j → st = .listed j
  taken : ∀ j j', j' ≠ i → (st = .taken j j' ↔ st' = .taken j j')

omit [DecidableEq ι] in
theorem Stage.Agree.refl (i : ι) (st : Stage ι) : st.Agree i st :=
  ⟨fun _ _ => id, fun _ _ => id, fun _ _ _ => id, fun _ _ => id, fun _ _ _ => .rfl⟩

/-- The operations that take a registration from one stage to another, and who performs them. -/
inductive Stage.Next : ι → Stage ι → Deed ι → Stage ι → Prop
  | push (i : ι) : Next i .fresh (.pushed i) (.listed i)
  | remove (i j : ι) : Next j (.listed i) (.removed j) (.taken i j)
  | store (i j : ι) : Next j (.taken i j) (.stored j) (.flagged i j)
  | hand (i j : ι) : Next i (.flagged i j) (.returned i false) (.handed i j)
  | leave (i : ι) : Next i (.listed i) (.left i) (.left i)
  | expire (i : ι) : Next i (.left i) (.returned i true) (.expired i)

namespace Stage.Next

variable {i : ι} {st st' : Stage ι} {d : Deed ι}

omit [DecidableEq ι] in
theorem deeds (h : Next i st d st') : st'.deeds = st.deeds ++ [d] := by
  cases h <;> rfl

omit [DecidableEq ι] in
theorem agree (h : Next i st d st') : st.Agree i st' := by
  cases h <;> constructor <;> simp +contextual [Waits, Sleeps, Relocks, eq_comm]

end Stage.Next

/-! ### What the state says of a registration -/

/-- Somebody in the state knows `r` as the number of a wait of kind `k`. -/
def Known (c : Config ι (Shared ι R D) (Local ι R)) (k : Kind) (r : ℕ) : Prop :=
  (∃ e ∈ c.shared.waiting k, e.reg = r) ∨
    ∃ j, (∃ e, (k, e) ∈ (c.loc j).pc.carries ∧ e.reg = r) ∨ (c.loc j).pc.waitsOn = some (k, r)

/-- Registration `r` is at stage `st`. -/
structure Standing (h : Record ι) (c : Config ι (Shared ι R D) (Local ι R)) (r : ℕ)
    (st : Stage ι) : Prop where
  deeds : h.deeds r = st.deeds
  /-- The entry is in the list exactly while the registration is listed. -/
  listed : ∀ i, ⟨r, i⟩ ∈ c.shared.waiting .spin ↔ st = .listed i
  /-- It is on its way exactly once, and exactly while it is taken. -/
  carried : ∀ i j, (c.loc j).pc.carries.count (.spin, ⟨r, i⟩) = if st = .taken i j then 1 else 0
  flag : st ≠ .fresh → c.shared.flags r = st.flag
  waits : ∀ i, (c.loc i).pc.waitsOn = some (.spin, r) → h.wait i = some r ∧ st.Waits i
  sleeps : ∀ i, st.Sleeps i → (c.loc i).pc.waitsOn = some (.spin, r)
  relocks : ∀ i timedOut, h.wait i = some r → (c.loc i).pc.relocks = some timedOut →
    st.Relocks i timedOut
  notified : ∀ i, (c.loc i).pc = .loadNotified r → st ≠ .listed i
  lt : st ≠ .fresh → r < c.shared.regs
  kind : st ≠ .fresh → ∀ k, Known c k r → k = .spin

variable {i : ι} {a : Act R D} {s₁ : Shared ι R D} {l₁ : Local ι R}
  {c : Config ι (Shared ι R D) (Local ι R)} {h : Record ι} {r : ℕ} {st : Stage ι}

/-! ### Every registration has a stage -/

omit [DecidableEq ι] in
theorem Known.lt {k : Kind} (hk : Known c k r) (hreg : Registered c) : r < c.shared.regs := by
  rcases hk with ⟨e, he, rfl⟩ | ⟨j, ⟨e, he, rfl⟩ | hw⟩
  · exact hreg.lt k e he
  · exact (hreg.carried j k e he).1
  · exact (hreg.wait j k r hw).1

/-- The numbers that the state knows were known before, or the mover has just got one. -/
theorem Known.of_step {k : Kind} (m : ListMove i a c.shared (c.loc i) s₁ l₁)
    (hk : Known (c.set i s₁ l₁) k r) :
    Known c k r ∨ r = c.shared.regs ∧ l₁.pc.waitsOn = some (k, r) := by
  have hold : ∀ {e}, e ∈ s₁.waiting k → e.reg = r →
      Known c k r ∨ r = c.shared.regs ∧ l₁.pc.waitsOn = some (k, r) := by
    intro e he her
    rcases m.new_entry he with hin | ⟨rfl, hw⟩
    · exact .inl (.inl ⟨e, hin, her⟩)
    · subst her
      exact .inr ⟨rfl, hw⟩
  rcases hk with ⟨e, he, her⟩ | ⟨j, hj⟩
  · exact hold he her
  by_cases hji : j = i
  · subst hji
    rw [Config.set_loc_self] at hj
    rcases hj with ⟨e, he, her⟩ | hw
    · rcases m.mem_carries he with hin | hin
      · exact .inl (.inr ⟨j, .inl ⟨e, hin, her⟩⟩)
      · exact .inl (.inl ⟨e, hin, her⟩)
    · cases m with
      | quiet _ _ _ hwait => exact .inl (.inr ⟨j, .inr (hwait ▸ hw)⟩)
      | push k' deadline hpc hs hl =>
        subst hl
        have hreg : (k', c.shared.regs) = (k, r) := by
          cases k' <;> cases deadline <;> exact Option.some.inj hw
        obtain ⟨rfl, rfl⟩ := Prod.mk.inj hreg
        exact .inr ⟨rfl, hw⟩
      | finish _ _ _ hwait₁ | leave _ _ _ hwait₁ | leaveThread _ _ hwait₁ =>
        rw [hwait₁] at hw
        cases hw
      | pop _ _ _ _ _ hl | take _ _ _ _ _ hl | signal _ _ _ _ _ _ hl =>
        subst hl
        cases hw
  · rw [Config.set_loc_of_ne hji] at hj
    exact .inl (.inr ⟨j, hj⟩)

/-- A step of agent `i` takes a registration to stage `st'`.  What the stages say of the other agents
has to agree; the rest is what `st'` says of the shared state and of agent `i`. -/
theorem Standing.move {h₁ : Record ι} {st' : Stage ι} (H : Standing h c r st) (hst : st.Agree i st')
    (hdeeds : h₁.deeds r = st'.deeds) (hother : ∀ j, j ≠ i → h₁.wait j = h.wait j)
    (hlist : ∀ j, ⟨r, j⟩ ∈ s₁.waiting .spin ↔ st' = .listed j)
    (hcarry : ∀ j, l₁.pc.carries.count (.spin, ⟨r, j⟩) = if st' = .taken j i then 1 else 0)
    (hflag : st' ≠ .fresh → s₁.flags r = st'.flag)
    (hwaits : l₁.pc.waitsOn = some (.spin, r) → h₁.wait i = some r ∧ st'.Waits i)
    (hsleeps : st'.Sleeps i → l₁.pc.waitsOn = some (.spin, r))
    (hrelocks : ∀ timedOut, h₁.wait i = some r → l₁.pc.relocks = some timedOut →
      st'.Relocks i timedOut)
    (hnot : l₁.pc = .loadNotified r → st' ≠ .listed i) (hlt : st' ≠ .fresh → r < s₁.regs)
    (hkind : st' ≠ .fresh → ∀ k, Known (c.set i s₁ l₁) k r → k = .spin) :
    Standing h₁ (c.set i s₁ l₁) r st' where
  deeds := hdeeds
  listed := hlist
  carried j j' := by
    by_cases hj : j' = i
    · subst hj
      rw [Config.set_loc_self, hcarry]
    · rw [Config.set_loc_of_ne hj, H.carried]
      simp only [hst.taken j j' hj]
  flag := hflag
  waits j hj := by
    by_cases hji : j = i
    · subst hji
      rw [Config.set_loc_self] at hj
      exact hwaits hj
    · rw [Config.set_loc_of_ne hji] at hj
      rw [hother j hji]
      exact (H.waits j hj).imp_right (hst.waits j hji)
  sleeps j hj := by
    by_cases hji : j = i
    · subst hji
      rw [Config.set_loc_self]
      exact hsleeps hj
    · rw [Config.set_loc_of_ne hji]
      exact H.sleeps j (hst.sleeps j hji hj)
  relocks j timedOut hj hr := by
    by_cases hji : j = i
    · subst hji
      rw [Config.set_loc_self] at hr
      exact hrelocks timedOut hj hr
    · rw [Config.set_loc_of_ne hji] at hr
      rw [hother j hji] at hj
      exact hst.relocks j timedOut hji (H.relocks j timedOut hj hr)
  notified j hj := by
    by_cases hji : j = i
    · subst hji
      rw [Config.set_loc_self] at hj
      exact hnot hj
    · rw [Config.set_loc_of_ne hji] at hj
      exact fun hl => H.notified j hj (hst.listed j hji hl)
  lt := hlt
  kind := hkind

theorem Standing.kind_of_step (H : Standing h c r st) (hst : st ≠ .fresh)
    (m : ListMove i a c.shared (c.loc i) s₁ l₁) {k : Kind} (hk : Known (c.set i s₁ l₁) k r) :
    k = .spin := by
  rcases hk.of_step m with hold | ⟨hr, -⟩
  · exact H.kind hst k hold
  · exact absurd hr (H.lt hst).ne

/-- A step keeps the stage of a registration if it leaves alone what the stage speaks of. -/
theorem Standing.keep {h₁ : Record ι} (H : Standing h c r st)
    (m : ListMove i a c.shared (c.loc i) s₁ l₁) (hdeeds : h₁.deeds r = h.deeds r)
    (hother : ∀ j, j ≠ i → h₁.wait j = h.wait j)
    (hlist : ∀ j, ⟨r, j⟩ ∈ s₁.waiting .spin ↔ ⟨r, j⟩ ∈ c.shared.waiting .spin)
    (hcarry : ∀ j, l₁.pc.carries.count (.spin, ⟨r, j⟩) =
      (c.loc i).pc.carries.count (.spin, ⟨r, j⟩))
    (hflag : st ≠ .fresh → s₁.flags r = c.shared.flags r)
    (hwait : l₁.pc.waitsOn = some (.spin, r) ↔ (c.loc i).pc.waitsOn = some (.spin, r))
    (hown : l₁.pc.waitsOn = some (.spin, r) → h₁.wait i = h.wait i)
    (hrelock : ∀ timedOut, h₁.wait i = some r → l₁.pc.relocks = some timedOut →
      h.wait i = some r ∧ (c.loc i).pc.relocks = some timedOut)
    (hnot : l₁.pc = .loadNotified r → (c.loc i).pc = .loadNotified r) :
    Standing h₁ (c.set i s₁ l₁) r st := by
  refine H.move (.refl _ _)
    (hdeeds.trans H.deeds) hother (fun j => (hlist j).trans (H.listed j))
    (fun j => (hcarry j).trans (H.carried j i)) (fun hst => (hflag hst).trans (H.flag hst))
    (fun hw => ?_) (fun hs => hwait.2 (H.sleeps i hs)) (fun b hb hr => ?_)
    (fun hn => H.notified i (hnot hn)) (fun hst => (H.lt hst).trans_le m.regs_le)
    fun hst k hk => H.kind_of_step hst m hk
  · rw [hown hw]
    exact H.waits i (hwait.1 hw)
  · obtain ⟨hb, hr⟩ := hrelock b hb hr
    exact H.relocks i b hb hr

/-- Every registration has a stage, and who waits in another way is not taken for a spinning
wait. -/
structure Told (h : Record ι) (c : Config ι (Shared ι R D) (Local ι R)) : Prop where
  standing : ∀ r, ∃ st, Standing h c r st
  other : ∀ i k r, (c.loc i).pc.waitsOn = some (k, r) → k ≠ .spin → h.wait i = none

namespace Standing

theorem unlisted (H : Standing h c r st) {e : Entry ι} (he : e ∈ c.shared.waiting .spin)
    (her : e.reg = r) : st = .listed e.agent := by
  subst her
  exact (H.listed e.agent).1 he

/-- Nothing happens to a spinning wait. -/
theorem of_other (H : Standing h c r st) (hnone : ∀ k r, (c.loc i).pc.waitsOn = some (k, r) →
    k ≠ .spin → h.wait i = none) (m : ListMove i a c.shared (c.loc i) s₁ l₁)
    (hlist : s₁.waiting .spin = c.shared.waiting .spin)
    (hcarry : ∀ e, l₁.pc.carries.count (.spin, e) = (c.loc i).pc.carries.count (.spin, e))
    (hflags : ∀ r, s₁.flags r = c.shared.flags r ∨ (c.loc i).pc.waitsOn = some (.async, r) ∨
      ∃ e, (.async, e) ∈ (c.loc i).pc.carries ∧ e.reg = r)
    (hwait : l₁.pc.waitsOn = (c.loc i).pc.waitsOn ∧
        (∀ timedOut, l₁.pc.relocks = some timedOut → (c.loc i).pc.relocks = some timedOut) ∨
      l₁.pc.waitsOn = none ∧ ∃ k r, k ≠ .spin ∧ (c.loc i).pc.waitsOn = some (k, r))
    (hnot : ∀ r, l₁.pc = .loadNotified r → (c.loc i).pc = .loadNotified r) :
    Standing h (c.set i s₁ l₁) r st := by
  refine H.keep m rfl (fun _ _ => rfl) (fun j => by rw [hlist]) (fun j => hcarry _) (fun hst => ?_)
    ?_ (fun _ => rfl) (fun b hb hr => ?_) (hnot r)
  · rcases hflags r with hf | hw | hc
    · exact hf
    · exact absurd (H.kind hst .async (.inr ⟨i, .inr hw⟩)) nofun
    · exact absurd (H.kind hst .async (.inr ⟨i, .inl hc⟩)) nofun
  · rcases hwait with ⟨hw, -⟩ | ⟨hw, k, r', hk, hw'⟩
    · rw [hw]
    · rw [hw, hw']
      simp [hk]
  · rcases hwait with ⟨-, hrel⟩ | ⟨-, k, r', hk, hw'⟩
    · exact ⟨hb, hrel b hr⟩
    · rw [hnone k r' hw' hk] at hb
      cases hb

/-- A spinning wait pushes its entry. -/
theorem of_push (H : Standing h c r st) (hreg : Registered c) (deadline : Option ℕ)
    (hpc : (c.loc i).pc = .register .spin deadline)
    (m : ListMove i a c.shared (c.loc i) (c.shared.push .spin i)
      ((c.loc i).goto (registered c.shared.regs .spin deadline))) :
    ∃ st', Standing ((h.start i (some c.shared.regs)).add c.shared.regs (.pushed i))
      (c.set i (c.shared.push .spin i) ((c.loc i).goto (registered c.shared.regs .spin deadline)))
      r st' := by
  have hmem : ∀ e : Entry ι, e ∈ (c.shared.push .spin i).waiting .spin ↔
      e ∈ c.shared.waiting .spin ∨ e = ⟨c.shared.regs, i⟩ := by
    simp [Shared.push, Shared.setList]
  have hother : ∀ j, j ≠ i → ((h.start i (some c.shared.regs)).add c.shared.regs (.pushed i)).wait j =
      h.wait j := fun j hj => by simp [Record.add, Record.start, hj]
  by_cases hr : r = c.shared.regs
  · subst hr
    have hst : st = .fresh := by
      by_contra hst
      exact absurd (H.lt hst) (Nat.lt_irrefl _)
    subst hst
    have hnext : Stage.Next i .fresh (.pushed i) (.listed i) := .push i
    refine ⟨.listed i, H.move hnext.agree ?_ hother (fun j => ?_) (fun j => rfl) (fun _ => ?_)
      (fun _ => ⟨by simp [Record.add, Record.start], rfl⟩) (fun _ => rfl) (fun _ _ => (by rintro ⟨⟩)) (by rintro ⟨⟩)
      (fun _ => Nat.lt_succ_self _) fun _ k hk => ?_⟩
    · rw [hnext.deeds, Record.add_deeds_self, ← H.deeds]
      rfl
    · simp only [hmem, H.listed, reduceCtorEq, Entry.mk.injEq, true_and, false_or,
        Stage.listed.injEq, eq_comm]
    · by_contra hf
      exact absurd (hreg.flagged _ (Bool.eq_true_of_not_eq_false hf)).1 (Nat.lt_irrefl _)
    · rcases hk.of_step m with hold | ⟨-, hw⟩
      · exact absurd (hold.lt hreg) (Nat.lt_irrefl _)
      · cases hw
        rfl
  · refine ⟨st, H.keep m ?_ hother (fun j => ?_) (fun j => ?_) (fun _ => rfl) ?_ (fun hw => ?_)
      (fun _ _ => (by rintro ⟨⟩)) (by rintro ⟨⟩)⟩
    · rw [Record.add_deeds_of_ne hr]
      rfl
    · rw [hmem]
      simp [hr]
    · rw [hpc]
      rfl
    · rw [hpc]
      simp [Pc.waitsOn, registered, Ne.symm hr, Sleep.kind]
    · exact absurd (congrArg Prod.snd (Option.some.inj hw)).symm hr

theorem of_start (H : Standing h c r st) {k : Kind} (hk : k ≠ .spin) (deadline : Option ℕ)
    (hpc : (c.loc i).pc = .register k deadline)
    (m : ListMove i a c.shared (c.loc i) (c.shared.push k i)
      ((c.loc i).goto (registered c.shared.regs k deadline))) :
    Standing (h.start i none)
      (c.set i (c.shared.push k i) ((c.loc i).goto (registered c.shared.regs k deadline))) r st := by
  have hw : (registered (ι := ι) c.shared.regs k deadline).waitsOn = some (k, c.shared.regs) := by
    cases k <;> cases deadline <;> rfl
  refine H.keep m rfl (fun j hj => by simp [Record.start, hj]) (fun j => ?_) (fun j => ?_)
    (fun _ => rfl) ?_ (fun hw' => ?_) (fun b hb _ => ?_) ?_
  · simp [Shared.push, Shared.setList, hk.symm]
  · rw [hpc]
    cases k <;> cases deadline <;> rfl
  · rw [hpc, Local.goto_pc, hw]
    simp [hk, Pc.waitsOn]
  · rw [Local.goto_pc, hw] at hw'
    exact absurd (congrArg Prod.fst (Option.some.inj hw')) hk
  · simp [Record.start] at hb
  · cases k <;> cases deadline <;> rintro ⟨⟩

/-- The loop sees the flag. -/
theorem of_answered (H : Standing h c r st) {r' : ℕ}
    (hwait : (c.loc i).pc.waitsOn = some (.spin, r')) (hflag : c.shared.flags r' = true)
    (hold : ∃ st', Standing h c r' st')
    (m : ListMove i a c.shared (c.loc i) c.shared ((c.loc i).goto (.relock .sync false))) :
    Standing h (c.set i c.shared ((c.loc i).goto (.relock .sync false))) r st := by
  have hcarry : (c.loc i).pc.carries = [] := by
    cases hp : (c.loc i).pc with
    | notifying => rw [hp] at hwait; cases hwait
    | _ => rfl
  by_cases hr : r = r'
  · subst hr
    obtain ⟨hw, hwaits⟩ := H.waits i hwait
    -- among the stages of a wait in its loop, the flag singles out one
    obtain ⟨j, rfl⟩ : ∃ j, st = .flagged i j := by
      have hfresh : st ≠ .fresh := by
        rintro rfl
        exact hwaits
      rw [H.flag hfresh] at hflag
      cases st <;> simp_all [Stage.Waits, Stage.flag]
    refine H.move (.refl _ _)
      H.deeds (fun _ _ => rfl) H.listed (fun _ => rfl) H.flag (by rintro ⟨⟩) (by rintro ⟨⟩) (fun b _ hb => ?_) (by rintro ⟨⟩)
      H.lt fun hst k hk => H.kind_of_step hst m hk
    cases hb
    exact ⟨rfl, rfl⟩
  · obtain ⟨st', H'⟩ := hold
    have hw := (H'.waits i hwait).1
    refine H.keep m rfl (fun _ _ => rfl) (fun _ => .rfl) (fun j => by rw [hcarry]; rfl)
      (fun _ => rfl) ?_ (fun _ => rfl) (fun b hb _ => ?_) (by rintro ⟨⟩)
    · rw [hwait]
      simp [Pc.waitsOn, Ne.symm hr]
    · rw [hw] at hb
      exact absurd (Option.some.inj hb).symm hr

theorem of_miss (H : Standing h c r st) {r' : ℕ} (hpc : (c.loc i).pc = .loadLeave r')
    (hout : ∀ e ∈ c.shared.waiting .spin, e.reg ≠ r')
    (m : ListMove i a c.shared (c.loc i) c.shared ((c.loc i).goto (.loadNotified r'))) :
    Standing h (c.set i c.shared ((c.loc i).goto (.loadNotified r'))) r st := by
  refine H.move (.refl _ _)
    H.deeds (fun _ _ => rfl) H.listed (fun j => ?_) H.flag (fun hw => ?_) (fun hs => ?_)
    (fun _ _ => nofun) (fun hn => ?_) H.lt fun hst k hk => H.kind_of_step hst m hk
  · rw [← H.carried j i, hpc]
    rfl
  · exact H.waits i (by rw [hpc]; exact hw)
  · exact (congrArg Pc.waitsOn hpc).symm.trans (H.sleeps i hs)
  · rw [Local.goto_pc, Pc.loadNotified.injEq] at hn
    subst hn
    exact fun hl => hout _ ((H.listed i).2 hl) rfl

/-- The wait takes its entry out of the list. -/
theorem of_leave (H : Standing h c r st) (hreg : Registered c) {r' : ℕ}
    (hpc : (c.loc i).pc = .loadLeave r') (hin : ∃ e ∈ c.shared.waiting .spin, e.reg = r')
    (hold : ∃ st', Standing h c r' st')
    (m : ListMove i a c.shared (c.loc i)
      (c.shared.setList .spin ((c.shared.waiting .spin).eraseP fun e => e.reg = r'))
      ((c.loc i).goto (.relock .sync true))) :
    ∃ st', Standing (h.add r' (.left i))
      (c.set i (c.shared.setList .spin ((c.shared.waiting .spin).eraseP fun e => e.reg = r'))
        ((c.loc i).goto (.relock .sync true))) r st' := by
  have hwait : (c.loc i).pc.waitsOn = some (.spin, r') := by rw [hpc]; rfl
  by_cases hr : r = r'
  · subst hr
    obtain ⟨e, he, her⟩ := hin
    have hst : st = .listed i := by
      rw [H.unlisted he her, ((hreg.wait i .spin r hwait).2 .spin e he her).2]
    subst hst
    have hnext : Stage.Next i (.listed i) (.left i) (.left i) := .leave i
    refine ⟨.left i, H.move hnext.agree ?_ (fun _ _ => rfl) (fun j => ?_) (fun _ => rfl)
      (fun _ => H.flag (by rintro ⟨⟩)) (by rintro ⟨⟩) (by rintro ⟨⟩) (fun b _ hb => ?_) (by rintro ⟨⟩) (fun _ => H.lt (by rintro ⟨⟩))
      fun _ k hk => H.kind_of_step (by rintro ⟨⟩) m hk⟩
    · rw [hnext.deeds, Record.add_deeds_self, ← H.deeds]
    · refine iff_of_false (fun hmem => ?_) (by rintro ⟨⟩)
      exact reg_ne_of_mem_eraseP (hreg.nodup .spin) (by simpa [Shared.setList] using hmem) rfl
    · cases hb
      exact ⟨rfl, rfl⟩
  · obtain ⟨st', H'⟩ := hold
    have hw := (H'.waits i hwait).1
    refine ⟨st, H.keep m (Record.add_deeds_of_ne hr) (fun _ _ => rfl) (fun j => ?_)
      (fun j => by rw [hpc]; rfl) (fun _ => rfl) ?_ (fun _ => rfl) (fun b hb _ => ?_) (by rintro ⟨⟩)⟩
    · simp only [Shared.setList, Function.update_self]
      exact List.mem_eraseP_of_neg (by simpa using hr)
    · rw [hwait]
      simp [Pc.waitsOn, Ne.symm hr]
    · rw [show (h.add r' (.left i)).wait i = h.wait i from rfl, hw] at hb
      exact absurd (Option.some.inj hb).symm hr

/-- A wait returns. -/
theorem of_returns (H : Standing h c r st) {timedOut : Bool} (hpc : (c.loc i).pc = .relocking timedOut)
    (m : ListMove i a c.shared (c.loc i) c.shared
      { c.loc i with pc := .ready, timedOut := timedOut }) :
    ∃ st', Standing (match h.wait i with
        | some r => h.add r (.returned i timedOut)
        | none => h)
      (c.set i c.shared { c.loc i with pc := .ready, timedOut := timedOut }) r st' := by
  have hcarry : (c.loc i).pc.carries = [] := by rw [hpc]; rfl
  have hwait : (c.loc i).pc.waitsOn = none := by rw [hpc]; rfl
  cases hw : h.wait i with
  | none =>
    refine ⟨st, H.keep m rfl (fun _ _ => rfl) (fun _ => .rfl) (fun j => by rw [hcarry]; rfl)
      (fun _ => rfl) (by rw [hwait]; rfl) (fun _ => rfl) (fun _ _ => nofun) nofun⟩
  | some r' =>
    by_cases hr : r = r'
    · subst hr
      have hrel := H.relocks i timedOut hw (by rw [hpc]; rfl)
      -- the result that was decided is the end of the life that is under way
      cases st with
      | flagged i' j =>
        obtain ⟨rfl, rfl⟩ := hrel
        have hnext : Stage.Next i' (.flagged i' j) (.returned i' false) (.handed i' j) := .hand i' j
        refine ⟨_, H.move hnext.agree ?_ (fun _ _ => rfl) (fun x => (H.listed x).trans (by simp))
          (fun _ => rfl) (fun _ => H.flag nofun) nofun nofun (fun _ _ => nofun) nofun
          (fun _ => H.lt nofun) fun _ k hk => H.kind_of_step nofun m hk⟩
        rw [hnext.deeds, Record.add_deeds_self, ← H.deeds]
      | left i' =>
        obtain ⟨rfl, rfl⟩ := hrel
        have hnext : Stage.Next i' (.left i') (.returned i' true) (.expired i') := .expire i'
        refine ⟨_, H.move hnext.agree ?_ (fun _ _ => rfl) (fun x => (H.listed x).trans (by simp))
          (fun _ => rfl) (fun _ => H.flag nofun) nofun nofun (fun _ _ => nofun) nofun
          (fun _ => H.lt nofun) fun _ k hk => H.kind_of_step nofun m hk⟩
        rw [hnext.deeds, Record.add_deeds_self, ← H.deeds]
      | _ => exact hrel.elim
    · refine ⟨st, H.keep m (Record.add_deeds_of_ne hr) (fun _ _ => rfl) (fun _ => .rfl)
        (fun j => by rw [hcarry]; rfl) (fun _ => rfl) (by rw [hwait]; rfl) (fun _ => rfl)
        (fun _ _ => nofun) nofun⟩

omit [DecidableEq ι] in
theorem filter_reg {es : List (Entry ι)} {e : Entry ι} (hnodup : (es.map Entry.reg).Nodup)
    (he : e ∈ es) : (es.filter fun x => x.reg = e.reg) = [e] := by
  induction es with
  | nil => cases he
  | cons x es ih =>
    rw [List.map_cons, List.nodup_cons] at hnodup
    have hne : ∀ {y z : Entry ι}, y.reg ∉ es.map Entry.reg → z ∈ es → z.reg ≠ y.reg :=
      fun hy hz hreg => hy (hreg ▸ List.mem_map_of_mem hz)
    rcases List.mem_cons.1 he with rfl | he
    · rw [List.filter_cons_of_pos (by simp), List.filter_eq_nil_iff.2]
      intro z hz
      simpa using hne hnodup.1 hz
    · rw [List.filter_cons_of_neg (by simpa using (hne hnodup.1 he).symm), ih hnodup.2 he]

/-- A notifier takes entries out of the list. -/
theorem of_remove (H : Standing h c r st) (hreg : Registered c) {es es' : List (Entry ι)}
    {rest : List Kind} (hout : (c.loc i).pc.inWait = false) (hcarry : (c.loc i).pc.carries = [])
    (hlist : c.shared.waiting .spin = es' ++ es)
    (m : ListMove i a c.shared (c.loc i) (c.shared.setList .spin es')
      ((c.loc i).goto (.notifying .spin es rest))) :
    ∃ st', Standing (h.remove i es)
      (c.set i (c.shared.setList .spin es') ((c.loc i).goto (.notifying .spin es rest))) r st' := by
  have hnodup : ((es' ++ es).map Entry.reg).Nodup := hlist ▸ hreg.nodup .spin
  rw [List.map_append, List.nodup_append] at hnodup
  obtain ⟨-, hnodup, hdisj⟩ := hnodup
  have hwait : (c.loc i).pc.waitsOn = none := by
    cases hw : (c.loc i).pc.waitsOn with
    | none => rfl
    | some x => rw [inWait_of_waitsOn hw] at hout; cases hout
  have hcount : ∀ e, (Pc.notifying Kind.spin es rest).carries.count (Kind.spin, e) = es.count e := by
    intro e
    exact List.count_map_of_injective es _ (fun _ _ h => (Prod.mk.inj h).2) e
  by_cases hr : ∃ e ∈ es, e.reg = r
  · obtain ⟨e, he, rfl⟩ := hr
    have hst := H.unlisted (by rw [hlist]; exact List.mem_append_right _ he) rfl
    subst hst
    have hnext : Stage.Next i (.listed e.agent) (.removed i) (.taken e.agent i) := .remove e.agent i
    have hei : e.agent ≠ i := by
      rintro rfl
      have hw := H.sleeps e.agent rfl
      rw [hwait] at hw
      cases hw
    refine ⟨.taken e.agent i, H.move hnext.agree ?_ (fun _ _ => rfl) (fun j => ?_) (fun j => ?_)
      (fun _ => H.flag (by rintro ⟨⟩)) (by rintro ⟨⟩) (fun hs => absurd hs hei) (fun _ _ => (by rintro ⟨⟩)) (by rintro ⟨⟩)
      (fun _ => H.lt (by rintro ⟨⟩)) fun _ k hk => H.kind_of_step (by rintro ⟨⟩) m hk⟩
    · rw [hnext.deeds, ← H.deeds, Record.remove]
      simp only [filter_reg hnodup he, List.map_cons, List.map_nil]
    · refine iff_of_false (fun hmem => ?_) (by rintro ⟨⟩)
      have hmem' : (⟨e.reg, j⟩ : Entry ι) ∈ es' := by simpa [Shared.setList] using hmem
      exact hdisj _ (List.mem_map_of_mem hmem') _ (List.mem_map_of_mem he) rfl
    · rw [Local.goto_pc, hcount]
      by_cases hj : e.agent = j
      · subst hj
        rw [if_pos rfl]
        exact List.count_eq_one_of_mem (List.Nodup.of_map _ hnodup) he
      · rw [if_neg (by simpa using hj), List.count_eq_zero]
        intro hmem
        have heq := filter_reg hnodup hmem
        rw [filter_reg hnodup he] at heq
        exact hj (congrArg Entry.agent (List.cons.inj heq).1)
  · have hnil : ∀ j, (⟨r, j⟩ : Entry ι) ∉ es := fun j hj => hr ⟨_, hj, rfl⟩
    refine ⟨st, H.keep m ?_ (fun _ _ => rfl) (fun j => ?_) (fun j => ?_) (fun _ => rfl)
      (by rw [hwait]; rfl) (fun _ => rfl) (fun _ _ => (by rintro ⟨⟩)) (by rintro ⟨⟩)⟩
    · have hfilter : (es.filter fun x => x.reg = r) = [] :=
        List.filter_eq_nil_iff.2 fun x hx => by simpa using fun hxr => hr ⟨x, hx, hxr⟩
      simp only [Record.remove, hfilter, List.map_nil, List.append_nil]
    · simp [Shared.setList, hlist, hnil]
    · rw [hcarry, Local.goto_pc, hcount, List.count_eq_zero.2 (hnil j)]
      rfl

/-- A notifier sets a flag. -/
theorem of_store (H : Standing h c r st) {e : Entry ι} {pending : List (Entry ι)} {rest : List Kind}
    (hpc : (c.loc i).pc = .notifying .spin (e :: pending) rest)
    (m : ListMove i a c.shared (c.loc i) (c.shared.setFlag e.reg)
      ((c.loc i).goto (.notifying .spin pending rest))) :
    ∃ st', Standing (h.add e.reg (.stored i))
      (c.set i (c.shared.setFlag e.reg) ((c.loc i).goto (.notifying .spin pending rest))) r st' := by
  have hcount : ∀ x, (c.loc i).pc.carries.count (.spin, x) =
      (Pc.notifying Kind.spin pending rest).carries.count (Kind.spin, x) +
        if e = x then 1 else 0 := by
    intro x
    rw [hpc]
    simp [Pc.carries, List.count_cons]
  by_cases hr : r = e.reg
  · subst hr
    have hst : st = .taken e.agent i := by
      by_contra hst
      have hone := H.carried e.agent i
      rw [if_neg hst, hcount, if_pos rfl] at hone
      omega
    subst hst
    have hnext : Stage.Next i (.taken e.agent i) (.stored i) (.flagged e.agent i) := .store e.agent i
    refine ⟨_, H.move hnext.agree ?_ (fun _ _ => rfl) (fun j => (H.listed j).trans (by simp))
      (fun j => ?_) (fun _ => ?_) (by rintro ⟨⟩) (by rintro ⟨⟩) (fun _ _ => (by rintro ⟨⟩)) (by rintro ⟨⟩) (fun _ => H.lt (by rintro ⟨⟩))
      fun _ k hk => H.kind_of_step (by rintro ⟨⟩) m hk⟩
    · rw [hnext.deeds, Record.add_deeds_self, ← H.deeds]
    · have hone := H.carried j i
      rw [hcount] at hone
      rw [Local.goto_pc, if_neg (by rintro ⟨⟩)]
      by_cases hj : e = ⟨e.reg, j⟩
      · rw [if_pos hj] at hone
        split at hone <;> omega
      · rw [if_neg hj, if_neg fun heq => hj (by rw [← (Stage.taken.inj heq).1])] at hone
        omega
    · simp [Shared.setFlag, Stage.flag]
  · refine ⟨st, H.keep m (Record.add_deeds_of_ne hr) (fun _ _ => rfl) (fun _ => .rfl) (fun j => ?_)
      (fun _ => by simp [Shared.setFlag, hr]) (by rw [hpc]; rfl) (fun _ => rfl)
      (fun _ _ => (by rintro ⟨⟩)) (by rintro ⟨⟩)⟩
    rw [hcount, if_neg (by rintro rfl; exact hr rfl)]
    rfl

end Standing

/-- Every step keeps the stages. -/
theorem Told.step (H : Told h c) (hreg : Registered c) (hl : (c.loc i).Shape)
    (hs : Condvar.step i a c.shared (c.loc i) = some (s₁, l₁)) :
    Told (note c (.agent i a) h) (c.set i s₁ l₁) := by
  have m := step_list hl hs
  have hm := step_spin (h := h) hl hs
  refine ⟨fun r => ?_, fun j k r hj hk => ?_⟩
  · -- the stage of a registration, by what the operation does to the spin waiters
    obtain ⟨st, hst⟩ := H.standing r
    cases hm with
    | other hlist hcarry hflags hwait hnot hh =>
      rw [hh]
      exact ⟨st, hst.of_other (H.other i) m hlist hcarry hflags hwait hnot⟩
    | push deadline hpc hs hl hh =>
      subst hs hl
      rw [hh]
      exact hst.of_push hreg deadline hpc m
    | start k hk deadline hpc hs hl hh =>
      subst hs hl
      rw [hh]
      exact ⟨st, hst.of_start hk deadline hpc m⟩
    | answered r' hwait hflag hs hl hh =>
      subst hs hl
      rw [hh]
      exact ⟨st, hst.of_answered hwait hflag (H.standing r') m⟩
    | miss r' hpc hout hs hl hh =>
      subst hs hl
      rw [hh]
      exact ⟨st, hst.of_miss hpc hout m⟩
    | leave r' hpc hin hs hl hh =>
      subst hs hl
      rw [hh]
      exact hst.of_leave hreg hpc hin (H.standing r') m
    | returns timedOut hpc hs hl hh =>
      subst hs hl
      rw [hh]
      exact hst.of_returns hpc m
    | remove es es' rest hwait hcarry hlist hs hl hh =>
      subst hs hl
      rw [hh]
      exact hst.of_remove hreg hwait hcarry hlist m
    | store e pending rest hpc hs hl hh =>
      subst hs hl
      rw [hh]
      exact hst.of_store hpc m
  · -- which registration a wait in another list has
    by_cases hji : j = i
    · subst hji
      rw [Config.set_loc_self] at hj
      cases hm with
      | other _ _ _ hwait _ hh =>
        rw [hh]
        rcases hwait with ⟨hw, -⟩ | ⟨hw, -⟩ <;> rw [hw] at hj
        · exact H.other j k r hj hk
        · cases hj
      | push deadline _ _ hl =>
        subst hl
        exact absurd (congrArg Prod.fst (Option.some.inj hj)).symm hk
      | start k' _ _ _ _ _ hh =>
        rw [hh]
        exact Function.update_self _ _ _
      | answered _ _ _ _ hl | leave _ _ _ _ hl | returns _ _ _ hl | remove _ _ _ _ _ _ _ hl
        | store _ _ _ _ _ hl =>
        subst hl
        cases hj
      | miss _ _ _ _ hl =>
        subst hl
        exact absurd (congrArg Prod.fst (Option.some.inj hj)).symm hk
    · rw [Config.set_loc_of_ne hji] at hj
      rw [← H.other j k r hj hk]
      cases hm with
      | other _ _ _ _ _ hh | answered _ _ _ _ _ hh | miss _ _ _ _ _ hh => rw [hh]
      | push _ _ _ _ hh | start _ _ _ _ _ _ hh =>
        rw [hh]
        exact Function.update_of_ne hji _ _
      | leave _ _ _ _ _ hh | remove _ _ _ _ _ _ _ _ hh | store _ _ _ _ _ _ hh =>
        rw [hh]
        rfl
      | returns _ _ _ _ hh =>
        rw [hh]
        split <;> rfl

/-- Every registration of every run has a stage. -/
theorem told {plat : Platform ι} {value : D} {regs : ι → R}
    (H : sys.History note .new (init plat value regs) h c) : Told h c := by
  refine H.invariant (I := fun h c => Told h c) ?_ ?_ ?_
  · refine ⟨fun r => ⟨.fresh, ?_⟩, fun _ _ _ => nofun⟩
    exact ⟨rfl, fun _ => iff_of_false nofun nofun, fun _ _ => rfl, fun h => absurd rfl h, fun _ => nofun,
      fun _ => nofun, fun _ _ => nofun, fun _ => nofun, fun h => absurd rfl h, fun h => absurd rfl h⟩
  · intro h c i a s l hc ih _ hs
    exact ih.step (registered_inv hc) (shape hc i) hs
  · intro h c e s _ ih _ hs
    simp only [sys, Option.map_eq_some_iff] at hs
    obtain ⟨p, -, rfl⟩ := hs
    refine ⟨fun r => ?_, ih.other⟩
    obtain ⟨st, hst⟩ := ih.standing r
    exact ⟨st, hst.deeds, hst.listed, hst.carried, hst.flag, hst.waits, hst.sleeps, hst.relocks,
      hst.notified, hst.lt, hst.kind⟩

/-! ### The way out of the loop -/

/-- How many operations of its own a wait in its loop is away from its relock, at most, once its flag
is set. -/
def Pc.toRelock : Pc ι → Option ℕ
  | .load _ _ | .loadNotified _ => some 1
  | .loadLeave _ => some 2
  | .loadNow _ _ => some 3
  | _ => none

/-- A wait in its loop is never blocked, and with its flag set it gets nearer to its relock with every
operation, and to the result that it was not timed out. -/
theorem step_toRelock (hl : (c.loc i).Shape) (hreg : Registered c) {n : ℕ}
    (hloop : (c.loc i).pc.toRelock = some n) (hw : (c.loc i).pc.waitsOn = some (.spin, r))
    (hflag : c.shared.flags r = true) :
    ∃ s l, step i .step c.shared (c.loc i) = some (s, l) ∧
      (l.pc = .relock .sync false ∨ ∃ m, m < n ∧ l.pc.toRelock = some m) := by
  have hrest : (c.loc i).mx.pc.atRest = true := by
    cases hp : (c.loc i).pc <;> simp_all [Local.Shape, Pc.toRelock]
  simp only [step, hrest, if_true]
  cases hp : (c.loc i).pc with
  | load deadline r' | loadNotified r' =>
    rw [hp] at hw
    cases hw
    exact ⟨_, _, by simp only [advance, hp, hflag, if_true]; rfl, .inl rfl⟩
  | loadLeave r' =>
    rw [hp] at hw hloop
    cases hw
    cases hloop
    have hout : ¬ ((c.shared.waiting .spin).any fun e => e.reg = r) = true := by
      simpa using (hreg.flagged r hflag).2 .spin
    exact ⟨_, _, by simp only [advance, hp, hout]; rfl, .inr ⟨1, by decide, rfl⟩⟩
  | loadNow d r' =>
    rw [hp] at hloop
    cases hloop
    refine ⟨_, _, by simp only [advance, hp]; rfl, .inr ?_⟩
    by_cases hd : d ≤ c.shared.mx.plat.clock
    · exact ⟨2, by decide, by simp [hd, Pc.toRelock]⟩
    · exact ⟨1, by decide, by simp [hd, Pc.toRelock]⟩
  | _ => rw [hp] at hloop; cases hloop

/-- A notifier is never blocked, and sets the flag of an entry that it carries or gets nearer to it
with every operation. -/
theorem step_carries (hl : (c.loc i).Shape) {e : Entry ι}
    (he : (.spin, e) ∈ (c.loc i).pc.carries) :
    ∃ s l, step i .step c.shared (c.loc i) = some (s, l) ∧
      (s.flags e.reg = true ∨
        (.spin, e) ∈ l.pc.carries ∧ l.pc.carries.length < (c.loc i).pc.carries.length) := by
  obtain ⟨pending, rest, hp, hin⟩ := notifying_of_carries he
  have hrest : (c.loc i).mx.pc.atRest = true := by simpa [Local.Shape, hp] using hl
  simp only [step, hrest, if_true]
  cases pending with
  | nil => cases hin
  | cons x pending =>
    refine ⟨_, _, by simp only [advance, hp]; rfl, ?_⟩
    rcases List.mem_cons.1 hin with rfl | hin
    · exact .inl (by simp [signal, Shared.setFlag])
    · refine .inr ⟨List.mem_map_of_mem hin, ?_⟩
      rw [hp]
      simp [Pc.carries]

/-! ### The hand-off -/

variable {plat : Platform ι} {value : D} {regs : ι → R}

omit [DecidableEq ι] in
theorem Stage.removed_of_returned {i : ι} (h : .returned i false ∈ st.deeds) :
    ∃ j, .removed j ∈ st.deeds := by
  cases st <;> simp_all [Stage.deeds, handOff, expiry]

omit [DecidableEq ι] in
theorem Stage.flag_iff : st.flag = true ↔ ∃ j, .stored j ∈ st.deeds := by
  cases st <;> simp [Stage.flag, Stage.deeds, handOff, expiry]

theorem returned_le_removed (H : sys.History note .new (init plat value regs) h c) :
    {r | ∃ i, .returned i false ∈ h.deeds r}.ncard ≤ {r | ∃ j, .removed j ∈ h.deeds r}.ncard := by
  refine Set.ncard_le_ncard (fun r ⟨i, hr⟩ => ?_) ?_
  · obtain ⟨st, hst⟩ := (told H).standing r
    have hreturned : .returned i false ∈ st.deeds := hst.deeds ▸ hr
    obtain ⟨j, hj⟩ := Stage.removed_of_returned hreturned
    exact ⟨j, hst.deeds.symm ▸ hj⟩
  · refine (Set.finite_lt_nat c.shared.regs).subset fun r ⟨j, hr⟩ => ?_
    obtain ⟨st, hst⟩ := (told H).standing r
    refine hst.lt ?_
    rintro rfl
    rw [hst.deeds] at hr
    cases hr

/-- **Every registration of a spinning wait is handed off exactly, or expires.**

* What happens to a registration is the beginning of one of two lives: it is pushed, one notifier
  removes its entry, the same notifier sets its flag, once, and the wait returns as not timed out;
  or the wait removes its entry itself and returns as timed out.  Only the first has a set flag.
* A wait in progress is on record under its number.
* No more waits have returned as not timed out than entries were removed by notifiers.
* An entry that was removed and is not flagged is carried by the notifier that removed it, which sets
  the flag with its next operations, and the wait is in progress; once the flag is set, the next
  operations of the wait lead out of its loop.
* An entry in the list is that of a wait in progress.
* The inner loop of `wait_spin_timeout` is entered only when a notifier is committed. -/
theorem exact_hand_off (H : sys.History note .new (init plat value regs) h c) :
    (∀ r, (h.deeds r = [] ∨ ∃ i j, h.deeds r <+: handOff i j ∨ h.deeds r <+: expiry i) ∧
      (h.deeds r ≠ [] → (c.shared.flags r = true ↔ ∃ j, .stored j ∈ h.deeds r))) ∧
    (∀ i r, (c.loc i).pc.waitsOn = some (.spin, r) → h.wait i = some r ∧ .pushed i ∈ h.deeds r) ∧
    {r | ∃ i, .returned i false ∈ h.deeds r}.ncard ≤ {r | ∃ j, .removed j ∈ h.deeds r}.ncard ∧
    (∀ r i j, h.deeds r = [.pushed i, .removed j] →
      (.spin, ⟨r, i⟩) ∈ (c.loc j).pc.carries ∧ (c.loc i).pc.waitsOn = some (.spin, r)) ∧
    (∀ j e, (.spin, e) ∈ (c.loc j).pc.carries →
      ∃ s l, step j .step c.shared (c.loc j) = some (s, l) ∧ (s.flags e.reg = true ∨
        (.spin, e) ∈ l.pc.carries ∧ l.pc.carries.length < (c.loc j).pc.carries.length)) ∧
    (∀ i r n, (c.loc i).pc.waitsOn = some (.spin, r) → c.shared.flags r = true →
      (c.loc i).pc.toRelock = some n → ∃ s l, step i .step c.shared (c.loc i) = some (s, l) ∧
        (l.pc = .relock .sync false ∨ ∃ m, m < n ∧ l.pc.toRelock = some m)) ∧
    (∀ e ∈ c.shared.waiting .spin,
      h.deeds e.reg = [.pushed e.agent] ∧ (c.loc e.agent).pc.waitsOn = some (.spin, e.reg)) ∧
    ∀ i r, (c.loc i).pc = .loadNotified r →
      ∃ j, .removed j ∈ h.deeds r ∧
        ((.spin, ⟨r, i⟩) ∈ (c.loc j).pc.carries ∨ c.shared.flags r = true) := by
  have hreg := registered_inv H.reachable
  have hshape := shape H.reachable
  have htold := told H
  refine ⟨fun r => ?_, fun i r hw => ?_, returned_le_removed H, fun r i j hr => ?_, fun j e => step_carries (hshape j),
    fun i r n hw hf hn => step_toRelock (hshape i) hreg hn hw hf, fun e he => ?_, fun i r hp => ?_⟩
  · obtain ⟨st, hst⟩ := htold.standing r
    rw [hst.deeds]
    refine ⟨st.deeds_prefix.imp_left fun hs => by rw [hs]; rfl, fun hne => ?_⟩
    rw [hst.flag (by rintro rfl; exact hne rfl), Stage.flag_iff]
  · obtain ⟨st, hst⟩ := htold.standing r
    obtain ⟨hwait, hstage⟩ := hst.waits i hw
    refine ⟨hwait, ?_⟩
    rw [hst.deeds]
    cases st <;> cases hstage <;> exact List.mem_cons_self
  · obtain ⟨st, hst⟩ := htold.standing r
    have hstage : st = .taken i j := by
      rw [hst.deeds] at hr
      cases st <;> simp_all [Stage.deeds, handOff, expiry]
    subst hstage
    refine ⟨List.count_pos_iff.1 ?_, hst.sleeps i rfl⟩
    rw [hst.carried, if_pos rfl]
    exact Nat.one_pos
  · obtain ⟨st, hst⟩ := htold.standing e.reg
    have hstage := hst.unlisted he rfl
    subst hstage
    exact ⟨hst.deeds, hst.sleeps e.agent rfl⟩
  · obtain ⟨st, hst⟩ := htold.standing r
    have hw := (hst.waits i (by rw [hp]; rfl)).2
    have hnot := hst.notified i hp
    rw [hst.deeds]
    cases st with
    | listed i' => cases hw; exact absurd rfl hnot
    | taken i' j =>
      cases hw
      refine ⟨j, by simp [Stage.deeds], .inl (List.count_pos_iff.1 ?_)⟩
      rw [hst.carried, if_pos rfl]
      exact Nat.one_pos
    | flagged i' j => exact ⟨j, by simp [Stage.deeds], .inr (hst.flag nofun)⟩
    | _ => exact hw.elim

/-- A run in which the deadline of a wait passes between the two steps of a notifier. -/
theorem exact_hand_off_late :
    ∃ (h : Record Bool) (c : Config Bool (Shared Bool Unit Unit) (Local Bool Unit)),
      sys.History note .new (init (.new .native) () fun _ => ()) h c ∧
      h.deeds 0 = handOff false true ∧ (c.shared.flags 0 = true ↔ ∃ j, .stored j ∈ h.deeds 0) := by
  obtain ⟨h, c, H, hend⟩ := System.exists_note_of_along (M := sys) (P := fun _ _ _ => True) (h := Record.new)
    (c := init (ι := Bool) (R := Unit) (.new .native) () fun _ => ()) note
    (p := fun h _ => decide (h.deeds 0 = handOff false true))
    [.agent false (.lock .tryLock), .agent false .step, .agent false (.wait .spin (some 0)),
      .agent false .step, .agent false .step, .agent false .step, .agent false .step,
      .agent false .step, .agent false .step, .agent false .step, .agent false .step,
      .agent true .notifyOne, .agent true .step, .agent false .step, .agent true .step,
      .agent false .step, .agent false .step, .agent false .step, .agent false .step,
      .agent false .step, .agent false .step] (by decide) (by decide)
  rw [decide_eq_true_eq] at hend
  refine ⟨h, c, H, hend, ((exact_hand_off H).1 0).2 ?_⟩
  rw [hend]
  exact nofun

end Condvar

end WasmSafeThread
