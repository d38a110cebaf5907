import WasmSafeThread.Agents.Basic

/-!
# Waiting lists

The discipline behind locks and condition variables that keep their sleepers in lists.  There are
several lists `Q`, each in a spinlock, with entries `H` (handles by which a sleeper is woken).  An
agent that cannot proceed enters the section of a list, is refused, registers a handle, leaves
the section and waits until its handle is signalled.  An agent that removes the reason for the
refusal afterwards takes the lists, one after another, and signals every entry it took.

`Move` lists what one agent may do to the `View` (the lists, their spinlocks, the signals, and
which lists are *blocked*, that is, whose newcomers are refused), with its `Role` before and
after.  Two rules carry the discipline:

* an agent registers only in a list that is blocked, or that somebody still has to visit
  (`Move.refuse`, `Move.post`);
* who unblocks a list owes it a visit (`Move.unblock`).

Where the lists are not `closed`, an agent may also leave a handle of its own in a list without
waiting on it (`Move.deposit`).

From these follow, over every run (`Inv.move`):

* `Inv.kept` : a waiting agent's handle is in its list, in the hands of an agent that will signal
  it, or signalled;
* `Inv.gate` : a list in which somebody waits (if the lists are closed, a list with an entry) is
  blocked, or somebody still owes it a visit;

and together `Inv.not_stranded`: **an agent that waits without a signal waits on a blocked list,
or some agent is on its way to signal it**.

`Refines` says that a system of agents follows the discipline; `Refines.inv` transports the
invariant to all its reachable configurations.
-/

namespace WasmSafeThread

namespace WaitList

/-- The shared part of the protocol. -/
structure View (Q H : Type*) where
  /-- The spinlock of each list. -/
  locked : Q → Bool
  /-- The entries of each list. -/
  list : Q → List H
  /-- The handle has been signalled and the signal has not been used up. -/
  signalled : H → Bool
  /-- Newcomers of this list are refused. -/
  blocks : Q → Prop

/-- Where an agent is in the protocol. -/
inductive Role (Q H : Type*) where
  /-- Nowhere. -/
  | out
  /-- In the section of `q`, before its attempt is decided. -/
  | inside (q : Q)
  /-- In the section of `q`, refused, before it registers. -/
  | refused (q : Q)
  /-- In the section of `q`, about to leave it: registered with a handle, or not refused. -/
  | leaving (q : Q) (h : Option H)
  /-- Waiting for a signal on the handle it registered in `q`. -/
  | waiting (q : Q) (h : H)
  /-- Signalling the handles it took, each from a list, then visiting the lists `rest`. -/
  | waking (pending : List (Q × H)) (rest : List Q)

namespace Role

variable {Q H : Type*}

/-- The list whose section the agent is in. -/
def sect : Role Q H → Option Q
  | .inside q | .refused q | .leaving q _ => some q
  | _ => none

/-- The handle the agent has registered and still needs, with its list. -/
def waitsOn : Role Q H → Option (Q × H)
  | .leaving q (some h) | .waiting q h => some (q, h)
  | _ => none

/-- The handles the agent has taken and not signalled yet, with the lists it took them from. -/
def carries : Role Q H → List (Q × H)
  | .waking pending _ => pending
  | _ => []

/-- The lists the agent has yet to visit. -/
def owes : Role Q H → List Q
  | .waking _ rest => rest
  | _ => []

end Role

variable {ι Q H : Type*}

namespace View

variable [DecidableEq Q] {V : View Q H} {q q' : Q} {b : Bool} {hs : List H}

/-- The spinlock of `q` is taken or released. -/
def setLocked (V : View Q H) (q : Q) (b : Bool) : View Q H :=
  { V with locked := Function.update V.locked q b }

/-- The entries of `q` are replaced. -/
def setList (V : View Q H) (q : Q) (hs : List H) : View Q H :=
  { V with list := Function.update V.list q hs }

@[simp, grind =] theorem setLocked_locked :
    (V.setLocked q b).locked q' = if q' = q then b else V.locked q' := by
  simp [setLocked, Function.update_apply]

@[simp, grind =] theorem setLocked_list : (V.setLocked q b).list = V.list := rfl
@[simp, grind =] theorem setLocked_signalled : (V.setLocked q b).signalled = V.signalled := rfl
@[simp, grind =] theorem setLocked_blocks : (V.setLocked q b).blocks = V.blocks := rfl

@[simp, grind =] theorem setList_list :
    (V.setList q hs).list q' = if q' = q then hs else V.list q' := by
  simp [setList, Function.update_apply]

@[simp, grind =] theorem setList_locked : (V.setList q hs).locked = V.locked := rfl
@[simp, grind =] theorem setList_signalled : (V.setList q hs).signalled = V.signalled := rfl
@[simp, grind =] theorem setList_blocks : (V.setList q hs).blocks = V.blocks := rfl

end View

/-- Signals may get lost only for handles that belong to agent `i`. -/
def Clears (owner : H → Option ι) (i : ι) (sg sg' : H → Bool) : Prop :=
  ∀ h, sg h = true → sg' h = true ∨ owner h = some i

variable [DecidableEq Q]

/-- What agent `i` may do.  `closed` says that only waiting agents have their handles put in a list;
`owner h = some j` that `h` wakes agent `j` and no other; `owed q` that some agent still has to
visit list `q`. -/
inductive Move (closed : Prop) (owner : H → Option ι) (owed : Q → Prop) (i : ι) :
    View Q H → Role Q H → View Q H → Role Q H → Prop
  /-- Something that is no part of the protocol. -/
  | stay {V r} : Move closed owner owed i V r V r
  /-- Somebody is signalled outside the protocol. -/
  | signal {V r sg} (hsg : ∀ h, V.signalled h = true → sg h = true) :
      Move closed owner owed i V r { V with signalled := sg } r
  /-- The agent uses up a signal while it does not wait. -/
  | forget {V r sg} (hr : r.waitsOn = none) (hsg : Clears owner i V.signalled sg) :
      Move closed owner owed i V r { V with signalled := sg } r
  /-- A change that unblocks no list. -/
  | word {V r B} (hB : ∀ q, V.blocks q → B q) : Move closed owner owed i V r { V with blocks := B } r
  /-- Enter the section of `q`. -/
  | enter {V q} (hfree : V.locked q = false) :
      Move closed owner owed i V .out (V.setLocked q true) (.inside q)
  /-- The attempt succeeds; this unblocks no list. -/
  | grant {V q B} (hB : ∀ q, V.blocks q → B q) :
      Move closed owner owed i V (.inside q) { V with blocks := B } (.leaving q none)
  /-- The attempt is refused, because the list is blocked. -/
  | refuse {V q} (hb : V.blocks q) : Move closed owner owed i V (.inside q) V (.refused q)
  /-- Register a handle. -/
  | register {V q} (h : H) (hown : ∀ j, owner h = some j → j = i) :
      Move closed owner owed i V (.refused q) (V.setList q (V.list q ++ [h])) (.leaving q (some h))
  /-- Leave the section with what the attempt gave. -/
  | leave {V q} : Move closed owner owed i V (.leaving q none) (V.setLocked q false) .out
  /-- Leave the section and wait. -/
  | suspend {V q h} :
      Move closed owner owed i V (.leaving q (some h)) (V.setLocked q false) (.waiting q h)
  /-- Enter, register and leave in one step, and wait. -/
  | post {V q} (h : H) (hfree : V.locked q = false) (hb : V.blocks q ∨ owed q)
      (hown : ∀ j, owner h = some j → j = i) :
      Move closed owner owed i V .out (V.setList q (V.list q ++ [h])) (.waiting q h)
  /-- Leave a handle in a list without waiting on it. -/
  | deposit {V q} (h : H) (hfree : V.locked q = false) (hopen : ¬closed) (hown : owner h = some i) :
      Move closed owner owed i V .out (V.setList q (V.list q ++ [h])) .out
  /-- Take handles of one's own out of a list while one waits on none. -/
  | discard {V q hs sg} (hfree : V.locked q = false)
      (hs_mem : ∀ h ∈ V.list q, owner h = some i ∨ h ∈ hs) (hs_sub : hs ⊆ V.list q)
      (hsg : ∀ h, V.signalled h = true → sg h = true) :
      Move closed owner owed i V .out { V.setList q hs with signalled := sg } .out
  /-- Stop waiting, with or without a signal. -/
  | awake {V q h sg} (hsg : Clears owner i V.signalled sg) :
      Move closed owner owed i V (.waiting q h) { V with signalled := sg } .out
  /-- Unblock some lists, all of which the agent then has to visit. -/
  | unblock {V B rest} (hB : ∀ q, V.blocks q → B q ∨ q ∈ rest) :
      Move closed owner owed i V .out { V with blocks := B } (.waking [] rest)
  /-- Visit a list: take its entries. -/
  | take {V q rest} (hfree : V.locked q = false) :
      Move closed owner owed i V (.waking [] (q :: rest)) (V.setList q [])
        (.waking ((V.list q).map fun h => (q, h)) rest)
  /-- Take the newest entry of a list. -/
  | pop {V q hs h} (hfree : V.locked q = false) (hq : V.list q = hs ++ [h]) :
      Move closed owner owed i V .out (V.setList q hs) (.waking [(q, h)] [])
  /-- Signal one of the handles taken. -/
  | wake {V q h pending rest sg} (hh : sg h = true)
      (hsg : ∀ h', V.signalled h' = true → sg h' = true) :
      Move closed owner owed i V (.waking ((q, h) :: pending) rest) { V with signalled := sg }
        (.waking pending rest)
  /-- Every list was visited and every entry signalled. -/
  | finish {V} : Move closed owner owed i V (.waking [] []) V .out

/-! ### What one move can do -/

namespace Move

variable {closed : Prop} {owner : H → Option ι} {owed : Q → Prop} {i : ι} {V W : View Q H}
  {r r' : Role Q H} {q : Q} {x : H}

theorem of_eq (hW : W = V) (hr : r' = r) : Move closed owner owed i V r W r' := by
  subst hW hr
  exact .stay

/-- An entry stays, or the mover takes it with it, or it was the mover's own and the mover is
done with it. -/
theorem list_mem (m : Move closed owner owed i V r W r') (hx : x ∈ V.list q) :
    x ∈ W.list q ∨ (q, x) ∈ r'.carries ∨ owner x = some i ∧ r'.waitsOn = none := by
  cases m <;> grind [Role.carries, Role.waitsOn]

theorem carries_mem (m : Move closed owner owed i V r W r') (hx : (q, x) ∈ r.carries) :
    (q, x) ∈ r'.carries ∨ W.signalled x = true := by
  cases m <;> grind [Role.carries]

theorem signalled (m : Move closed owner owed i V r W r') (hx : V.signalled x = true) :
    W.signalled x = true ∨ owner x = some i ∧ r'.waitsOn = none := by
  cases m <;> grind [Role.waitsOn, Clears]

theorem waitsOn (m : Move closed owner owed i V r W r') (hx : r'.waitsOn = some (q, x)) :
    r.waitsOn = some (q, x) ∨ (x ∈ W.list q ∧ ∀ j, owner x = some j → j = i) ∧
      (r = .refused q ∨ W.blocks q ∨ r = .out ∧ owed q) := by
  cases m <;> grind [Role.waitsOn]

/-- Handles come only to lists that are blocked or owed a visit, or are the mover's own and do not
matter to it. -/
theorem entry (m : Move closed owner owed i V r W r') (hx : x ∈ W.list q) :
    x ∈ V.list q ∨ r = .refused q ∨ W.blocks q ∨ r = .out ∧ owed q ∨
      ¬closed ∧ owner x = some i ∧ r' = .out := by
  cases m with
  | @pop q' hs h hfree hlist =>
    have : x ∈ hs → x ∈ V.list q' := fun h' => by simp [hlist, h']
    grind
  | @discard q' hs sg hfree hmem hsub =>
    have : x ∈ hs → x ∈ V.list q' := fun h' => hsub h'
    grind
  | _ => grind

theorem refused (m : Move closed owner owed i V r W r') (hr : r' = .refused q) :
    r = .refused q ∨ W.blocks q := by
  cases m <;> grind

theorem blocks (m : Move closed owner owed i V r W r') (hq : V.blocks q) : W.blocks q ∨ q ∈ r'.owes := by
  cases m <;> grind [Role.owes]

theorem owes (m : Move closed owner owed i V r W r') (hq : q ∈ r.owes) :
    q ∈ r'.owes ∨ W.list q = [] ∧ V.locked q = false ∧ r' ≠ .refused q := by
  cases m <;> grind [Role.owes]

theorem locked (m : Move closed owner owed i V r W r') (hq : W.locked q = true) :
    r'.sect = some q ∨ V.locked q = true ∧ r.sect ≠ some q := by
  cases m <;> grind [Role.sect]

end Move

/-! ### The invariant -/

/-- Some agent still has to visit list `q`. -/
def Owed (c : Config ι (View Q H) (Role Q H)) (q : Q) : Prop := ∃ j, q ∈ (c.loc j).owes

/-- Somebody is about to register in list `q` or waits there; if the lists are closed, some handle
is there. -/
def Pending (closed : Prop) (c : Config ι (View Q H) (Role Q H)) (q : Q) : Prop :=
  (∃ h ∈ c.shared.list q, closed ∨ ∃ i, (c.loc i).waitsOn = some (q, h)) ∨
    ∃ i, c.loc i = .refused q

/-- The invariant of the protocol. -/
structure Inv (closed : Prop) (owner : H → Option ι) (c : Config ι (View Q H) (Role Q H)) :
    Prop where
  locked : ∀ i q, (c.loc i).sect = some q → c.shared.locked q = true
  alone : ∀ i j q, (c.loc i).sect = some q → (c.loc j).sect = some q → i = j
  own : ∀ i q h, (c.loc i).waitsOn = some (q, h) → ∀ j, owner h = some j → j = i
  kept : ∀ i q h, (c.loc i).waitsOn = some (q, h) →
    h ∈ c.shared.list q ∨ (∃ j, (q, h) ∈ (c.loc j).carries) ∨ c.shared.signalled h = true
  gate : ∀ q, Pending closed c q → c.shared.blocks q ∨ Owed c q

namespace Inv

variable {closed : Prop} {owner : H → Option ι} {c : Config ι (View Q H) (Role Q H)} {i : ι}
  {V : View Q H} {r : Role Q H}

omit [DecidableEq Q] in
theorem init (hlist : ∀ q, c.shared.list q = []) (hout : ∀ i, c.loc i = .out) : Inv closed owner c where
  locked i q h := by simp [hout, Role.sect] at h
  alone i j q h := by simp [hout, Role.sect] at h
  own i q h hw := by simp [hout, Role.waitsOn] at hw
  kept i q h hw := by simp [hout, Role.waitsOn] at hw
  gate q h := by simp [Pending, hout, hlist] at h

variable [DecidableEq ι]

theorem move_locked (h : Inv closed owner c) (m : Move closed owner (Owed c) i c.shared (c.loc i) V r) :
    ∀ j q, ((c.set i V r).loc j).sect = some q → V.locked q = true := by
  have hlocked := h.locked
  have halone := h.alone
  generalize c.shared = W at *
  generalize hloc : c.loc i = r₀ at *
  cases m <;> intro j q hq <;> by_cases hj : j = i <;> grind [Role.sect]

theorem move_alone (h : Inv closed owner c) (m : Move closed owner (Owed c) i c.shared (c.loc i) V r) :
    ∀ j k q, ((c.set i V r).loc j).sect = some q → ((c.set i V r).loc k).sect = some q →
      j = k := by
  have hlocked := h.locked
  have halone := h.alone
  generalize c.shared = W at *
  generalize hloc : c.loc i = r₀ at *
  cases m <;> intro j k q hj hk <;> grind [Role.sect]

theorem move_own (h : Inv closed owner c) (m : Move closed owner (Owed c) i c.shared (c.loc i) V r) :
    ∀ j q x, ((c.set i V r).loc j).waitsOn = some (q, x) → ∀ k, owner x = some k → k = j := by
  intro j q x hx k hk
  by_cases hj : j = i
  · subst hj
    rw [Config.set_loc_self] at hx
    rcases m.waitsOn hx with hbefore | ⟨⟨-, hown⟩, -⟩
    · exact h.own j q x hbefore k hk
    · exact hown k hk
  · rw [Config.set_loc_of_ne hj] at hx
    exact h.own j q x hx k hk

/-- What is on its way to an agent stays on its way, unless that agent is the mover and stops
waiting. -/
theorem move_on_its_way {q : Q} {x : H} (m : Move closed owner (Owed c) i c.shared (c.loc i) V r)
    (hx : x ∈ c.shared.list q ∨ (∃ k, (q, x) ∈ (c.loc k).carries) ∨
      c.shared.signalled x = true) :
    (x ∈ V.list q ∨ (∃ k, (q, x) ∈ ((c.set i V r).loc k).carries) ∨ V.signalled x = true) ∨
      owner x = some i ∧ r.waitsOn = none := by
  rcases hx with hlist | ⟨k, hk⟩ | hsig
  · rcases m.list_mem hlist with h | h | h
    · exact .inl (.inl h)
    · exact .inl (.inr (.inl ⟨i, by simpa using h⟩))
    · exact .inr h
  · by_cases hki : k = i
    · subst hki
      rcases m.carries_mem hk with h | h
      · exact .inl (.inr (.inl ⟨k, by simpa using h⟩))
      · exact .inl (.inr (.inr h))
    · exact .inl (.inr (.inl ⟨k, by rwa [Config.set_loc_of_ne hki]⟩))
  · rcases m.signalled hsig with h | h
    · exact .inl (.inr (.inr h))
    · exact .inr h

theorem move_kept (h : Inv closed owner c) (m : Move closed owner (Owed c) i c.shared (c.loc i) V r) :
    ∀ j q x, ((c.set i V r).loc j).waitsOn = some (q, x) →
      x ∈ V.list q ∨ (∃ k, (q, x) ∈ ((c.set i V r).loc k).carries) ∨ V.signalled x = true := by
  intro j q x hx
  by_cases hj : j = i
  · subst hj
    rw [Config.set_loc_self] at hx
    rcases m.waitsOn hx with hbefore | ⟨⟨hlist, -⟩, -⟩
    · rcases move_on_its_way m (h.kept j q x hbefore) with hway | ⟨-, hnone⟩
      · exact hway
      · rw [hnone] at hx
        cases hx
    · exact .inl hlist
  · rw [Config.set_loc_of_ne hj] at hx
    rcases move_on_its_way m (h.kept j q x hx) with hway | ⟨hown, -⟩
    · exact hway
    · exact absurd (h.own j q x hx i hown).symm hj

theorem move_owed {q : Q} (m : Move closed owner (Owed c) i c.shared (c.loc i) V r) (hq : Owed c q) :
    Owed (c.set i V r) q ∨ V.list q = [] ∧ c.shared.locked q = false ∧ r ≠ .refused q := by
  obtain ⟨k, hk⟩ := hq
  by_cases hki : k = i
  · subst hki
    rcases m.owes hk with h | h
    · exact .inl ⟨k, by simpa using h⟩
    · exact .inr h
  · exact .inl ⟨k, by rwa [Config.set_loc_of_ne hki]⟩

/-- The reason for a visit was there before the move, or the move found a reason to come. -/
theorem pending_of_move (h : Inv closed owner c)
    (m : Move closed owner (Owed c) i c.shared (c.loc i) V r) {q : Q}
    (hq : Pending closed (c.set i V r) q) (hb : ¬V.blocks q) :
    Pending closed c q ∨ Owed c q := by
  rcases hq with ⟨x, hx, hwhy⟩ | ⟨j, hj⟩
  · rcases m.entry hx with hold | href | hblocks | ⟨-, howed⟩ | ⟨hopen, hown, hr⟩
    · rcases hwhy with hclosed | ⟨j, hj⟩
      · exact .inl (.inl ⟨x, hold, .inl hclosed⟩)
      · by_cases hji : j = i
        · subst hji
          rcases m.waitsOn (by simpa using hj) with hbefore | ⟨-, href | hblocks | ⟨-, howed⟩⟩
          · exact .inl (.inl ⟨x, hold, .inr ⟨j, hbefore⟩⟩)
          · exact .inl (.inr ⟨j, href⟩)
          · exact absurd hblocks hb
          · exact .inr howed
        · rw [Config.set_loc_of_ne hji] at hj
          exact .inl (.inl ⟨x, hold, .inr ⟨j, hj⟩⟩)
    · exact .inl (.inr ⟨i, href⟩)
    · exact absurd hblocks hb
    · exact .inr howed
    · -- a handle that its owner does not wait on is awaited by nobody
      rcases hwhy with hclosed | ⟨j, hj⟩
      · exact absurd hclosed hopen
      · have hji : i = j := h.move_own m j q x hj i hown
        subst hji
        rw [Config.set_loc_self, hr] at hj
        cases hj
  · by_cases hji : j = i
    · subst hji
      rcases m.refused (by simpa using hj) with h' | h'
      · exact .inl (.inr ⟨j, h'⟩)
      · exact absurd h' hb
    · exact .inl (.inr ⟨j, by rwa [Config.set_loc_of_ne hji] at hj⟩)

theorem move_gate (h : Inv closed owner c)
    (m : Move closed owner (Owed c) i c.shared (c.loc i) V r) :
    ∀ q, Pending closed (c.set i V r) q → V.blocks q ∨ Owed (c.set i V r) q := by
  intro q hq
  by_cases hb : V.blocks q
  · exact .inl hb
  have hbefore : c.shared.blocks q ∨ Owed c q :=
    (h.pending_of_move m hq hb).elim (h.gate q) .inr
  rcases hbefore with hblocks | howed
  · rcases m.blocks hblocks with h' | h'
    · exact .inl h'
    · exact .inr ⟨i, by simpa using h'⟩
  · rcases move_owed m howed with h' | ⟨hnil, hfree, hr⟩
    · exact .inr h'
    · -- the visit was paid: the list is empty, and nobody is in its section
      exfalso
      rcases hq with ⟨x, hx, -⟩ | ⟨j, hj⟩
      · rw [Config.set_shared, hnil] at hx
        cases hx
      · by_cases hji : j = i
        · subst hji
          exact hr (by simpa using hj)
        · rw [Config.set_loc_of_ne hji] at hj
          have := h.locked j q (by rw [hj]; rfl)
          rw [hfree] at this
          cases this

/-- **Every move of every agent keeps the invariant.** -/
theorem move (h : Inv closed owner c) (m : Move closed owner (Owed c) i c.shared (c.loc i) V r) :
    Inv closed owner (c.set i V r) where
  locked := h.move_locked m
  alone := h.move_alone m
  own := h.move_own m
  kept := h.move_kept m
  gate := h.move_gate m

omit [DecidableEq Q] [DecidableEq ι] in
theorem signal (h : Inv closed owner c) {sg : H → Bool}
    (hsg : ∀ x, c.shared.signalled x = true → sg x = true) :
    Inv closed owner ⟨{ c.shared with signalled := sg }, c.loc⟩ where
  locked := h.locked
  alone := h.alone
  own := h.own
  kept i q x hx := (h.kept i q x hx).imp_right fun h' => h'.imp_right (hsg x)
  gate := h.gate

omit [DecidableEq Q] [DecidableEq ι] in
/-- **Nobody is stranded.**  An agent that waits without a signal waits on a blocked list, or
some agent still owes its list a visit or carries its handle. -/
theorem not_stranded (h : Inv closed owner c) {q : Q} {x : H} (hx : (c.loc i).waitsOn = some (q, x))
    (hsig : c.shared.signalled x = false) :
    x ∈ c.shared.list q ∧ c.shared.blocks q ∨
      (∃ j, x ∈ c.shared.list q ∧ q ∈ (c.loc j).owes) ∨ ∃ j, (q, x) ∈ (c.loc j).carries := by
  rcases h.kept i q x hx with hlist | hcarried | hs
  · rcases h.gate q (.inl ⟨x, hlist, .inr ⟨i, hx⟩⟩) with hb | ⟨j, hj⟩
    · exact .inl ⟨hlist, hb⟩
    · exact .inr (.inl ⟨j, hlist, hj⟩)
  · exact .inr (.inr hcarried)
  · rw [hsig] at hs
    cases hs

end Inv

/-! ### Systems that follow the discipline -/

variable {σ ℓ α ε : Type*} [DecidableEq ι]

/-- The system `M` follows the discipline of waiting lists, seen through `view` and `role`, in
every step that satisfies `P`. -/
structure Refines (M : System ι σ ℓ α ε) (P : Config ι σ ℓ → Label ι α ε → Prop) (closed : Prop)
    (owner : H → Option ι) where
  view : σ → View Q H
  role : ι → ℓ → Role Q H
  step : ∀ {i a c s l}, P c (.agent i a) → M.step i a c.shared (c.loc i) = some (s, l) →
    Move closed owner (fun q => ∃ j, q ∈ (role j (c.loc j)).owes) i
      (view c.shared) (role i (c.loc i)) (view s) (role i l)
  env : ∀ {e s s₁}, M.env e s = some s₁ →
    ∃ sg, (∀ x, (view s).signalled x = true → sg x = true) ∧
      view s₁ = { view s with signalled := sg }

namespace Refines

variable {M : System ι σ ℓ α ε} {P : Config ι σ ℓ → Label ι α ε → Prop} {closed : Prop}
  {owner : H → Option ι} (ρ : Refines (Q := Q) M P closed owner)

/-- The protocol's view of a configuration. -/
def config (c : Config ι σ ℓ) : Config ι (View Q H) (Role Q H) :=
  ⟨ρ.view c.shared, fun i => ρ.role i (c.loc i)⟩

theorem config_set {c : Config ι σ ℓ} {i : ι} {s : σ} {l : ℓ} :
    ρ.config (c.set i s l) = (ρ.config c).set i (ρ.view s) (ρ.role i l) := by
  simp only [config, Config.set, Config.mk.injEq, true_and]
  funext j
  by_cases h : j = i
  · subst h; simp
  · simp [h]

theorem inv {c₀ c : Config ι σ ℓ} (h : M.Reach P c₀ c) (h₀ : Inv closed owner (ρ.config c₀)) :
    Inv closed owner (ρ.config c) := by
  refine h.invariant (I := fun c => Inv closed owner (ρ.config c)) h₀ ?_ ?_
  · intro c i a s l _ ih hP hs
    rw [config_set]
    exact ih.move (ρ.step hP hs)
  · intro c e s _ ih _ hs
    obtain ⟨sg, hsg, hview⟩ := ρ.env hs
    have := ih.signal hsg
    simpa only [config, hview] using this

theorem sections {c₀ c : Config ι σ ℓ} (h : M.Reach P c₀ c)
    (h₀ : ∀ q, (ρ.view c₀.shared).locked q = false) {q : Q} (hq : (ρ.view c.shared).locked q = true) :
    ∃ i, (ρ.role i (c.loc i)).sect = some q := by
  refine h.invariant (I := fun c => (ρ.view c.shared).locked q = true →
    ∃ i, (ρ.role i (c.loc i)).sect = some q) (fun hq => ?_) ?_ ?_ hq
  · rw [h₀ q] at hq
    cases hq
  · intro c i a s l _ ih hP hs hq
    rcases (ρ.step hP hs).locked hq with hi | ⟨hbefore, hne⟩
    · exact ⟨i, by rw [Config.set_loc_self]; exact hi⟩
    · obtain ⟨j, hj⟩ := ih hbefore
      have hji : j ≠ i := fun hji => hne (hji ▸ hj)
      exact ⟨j, by rw [Config.set_loc_of_ne hji]; exact hj⟩
  · intro c e s _ ih _ hs hq
    obtain ⟨sg, -, hview⟩ := ρ.env hs
    rw [hview] at hq
    exact ih hq

end Refines

end WaitList

end WasmSafeThread
