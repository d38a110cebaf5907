import WasmSafeThread.Agents.Linearization
import WasmSafeThread.Hooks.Order

/-!
# The registry of the spawn hooks, seen from outside

The registry is a map that keeps the order of insertion (`RegistryApply`).  A registration, a removal and
a clearing change it in one step; a thread that begins takes all its hooks in one step, and calls these,
whatever is changed while it does.  User code calls operations out of destructors that run inside other
operations, so a thread may have several under way: an operation is known by its thread and by how many
calls of the thread are below it.

An operation takes effect here when it gives the guard back: only then is it known whether it returns or
unwinds with the panic of a destructor.  Between its change of the list and that point the registry is
ahead of the map (`Stands`).

* `occurs` : what is seen of an operation on the registry.
* `linearizable_registry` : **every history of the registry is one of the map.**
-/

namespace WasmSafeThread

namespace Hooks

open OrderedMap (get keys)

variable {ι N : Type*}

/-! ### The map -/

/-- The operations on the map. -/
inductive RegistryOp (N : Type*) where
  | change (op : Op N)
  /-- A thread takes the hooks that it will call. -/
  | snapshot
  deriving DecidableEq

/-- Their results. -/
inductive RegistryResult where
  /-- What the operation has returned, if that is not `()`; nothing if it has unwound. -/
  | answered (r : Option Bool)
  | hooks (ks : List ℕ)
  deriving DecidableEq

/-- What the operations do. -/
inductive RegistryApply [DecidableEq N] : RegistryOp N → List (N × ℕ) → RegistryResult →
    List (N × ℕ) → Prop
  /-- A name that is there keeps its position, a new one comes last. -/
  | register {x y : List (N × ℕ)} {n : N} {k : ℕ} :
      keys y = (if n ∈ keys x then keys x else keys x ++ [n]) →
      (∀ m, get y m = if m = n then some k else get x m) →
      RegistryApply (.change (.register n k)) x (.answered none) y
  | remove {x : List (N × ℕ)} {n : N} {r : Option Bool} : r = some (decide (n ∈ keys x)) ∨ r = none →
      RegistryApply (.change (.remove n)) x (.answered r) (x.filter fun e => e.1 ≠ n)
  | clear {x : List (N × ℕ)} : RegistryApply (.change .clear) x (.answered none) []
  | snapshot {x : List (N × ℕ)} : RegistryApply .snapshot x (.hooks (x.map Prod.snd)) x

/-- The map as an object. -/
def registry [DecidableEq N] : Object (ι × ℕ) (RegistryOp N) RegistryResult (List (N × ℕ)) :=
  ⟨fun _ => RegistryApply⟩

/-! ### What is seen of the registry -/

/-- What is seen when thread `i` performs `a`. -/
def occurs (i : ι) (a : Act ι N) (s : Shared ι N) (l : Local ι N) :
    List (Occurrence (ι × ℕ) (RegistryOp N) RegistryResult) :=
  match a with
  | .spawned => [.call (i, 0) .snapshot]
  | .register n _ => [.call (i, l.calls.length) (.change (.register n s.next))]
  | .remove n => [.call (i, l.calls.length) (.change (.remove n))]
  | .clear => [.call (i, l.calls.length) (.change .clear)]
  | .step =>
    match l.user, l.calls, l.phase with
    | false, .drops [] r :: rest, _ => [.ret (i, rest.length) (.answered r)]
    | false, [], .cloned todo => [.ret (i, 0) (.hooks todo)]
    | _, _, _ => []
  | _ => []

/-- Where the thread is with its snapshot. -/
def Phase.stage : Phase → WasmSafeThread.Phase (RegistryOp N) RegistryResult
  | .run | .snapshot => .called .snapshot
  | .cloned todo => .done (.hooks todo)
  | _ => .idle

/-- The thread has not come to user code. -/
def Phase.early : Phase → Bool
  | .unborn | .run | .snapshot | .cloned _ => true
  | _ => false

/-- The call that has `k` calls below it. -/
def frame (calls : List (Frame ι N)) (k : ℕ) : Option (Frame ι N) := calls.reverse[k]?

variable [DecidableEq N]

/-- Where a call is, while the registry has the list `hooks` and the map is `x`. -/
def Frame.Stands (hooks x : List (N × ℕ)) (p : WasmSafeThread.Phase (RegistryOp N) RegistryResult) :
    Frame ι N → Prop
  | .lock op | .body op => p = .called (.change op)
  | .drops _ r => ∃ op, p = .called (.change op) ∧ hooks = op.hooks x ∧ (r = op.result x ∨ r = none)
  | .join _ => p = .idle

/-- Where the operation of a thread with `k` calls below it is. -/
def Stands (hooks x : List (N × ℕ)) (l : Local ι N) (k : ℕ)
    (p : WasmSafeThread.Phase (RegistryOp N) RegistryResult) : Prop :=
  match frame l.calls k with
  | some f => f.Stands hooks x p
  | none => p = if k = 0 then l.phase.stage else .idle

/-- The registry and the map. -/
structure Seen (c : Config ι (Shared ι N) (Local ι N))
    (d : Config (ι × ℕ) (List (N × ℕ)) (WasmSafeThread.Phase (RegistryOp N) RegistryResult)) : Prop where
  nodup : (keys d.shared).Nodup
  stands : ∀ i k, Stands c.shared.hooks d.shared (c.loc i) k (d.loc (i, k))
  /-- They agree while no operation has changed the one and not the other. -/
  agree : (∀ i, ∀ f ∈ (c.loc i).calls, f.dropping = false) → c.shared.hooks = d.shared

/-! ### The calls of a thread -/

section Frame

omit [DecidableEq N]

variable {f : Frame ι N} {rest : List (Frame ι N)} {k : ℕ}

theorem frame_cons : frame (f :: rest) k = if k = rest.length then some f else frame rest k := by
  unfold frame
  rw [List.reverse_cons]
  by_cases hk : k = rest.length
  · subst hk
    simp
  · rw [if_neg hk]
    by_cases hlt : k < rest.length
    · rw [List.getElem?_append_left (by simpa using hlt)]
    · rw [List.getElem?_eq_none (by simp; omega), List.getElem?_eq_none (by simp; omega)]

@[simp] theorem frame_nil : frame ([] : List (Frame ι N)) k = none := rfl

theorem frame_length : frame rest rest.length = none := by
  simp [frame]

theorem mem_of_frame (h : frame rest k = some f) : f ∈ rest :=
  List.mem_reverse.1 (List.mem_of_getElem? h)

end Frame

variable [DecidableEq ι] {i : ι} {a : Act ι N} {s s₁ : Shared ι N} {l l₁ : Local ι N} {op : Op N}
  {f f₁ : Frame ι N} {rest : List (Frame ι N)}
  {hooks x : List (N × ℕ)} {k : ℕ} {p : WasmSafeThread.Phase (RegistryOp N) RegistryResult}
  {c : Config ι (Shared ι N) (Local ι N)}
  {d : Config (ι × ℕ) (List (N × ℕ)) (WasmSafeThread.Phase (RegistryOp N) RegistryResult)}

omit [DecidableEq ι] [DecidableEq N] in
theorem Phase.stage_of_late {q : Phase} (h : q.early = false) : q.stage (N := N) = .idle := by
  cases q <;> first | rfl | cases h

/-- A thread that has not come to user code runs none, and is in no call. -/
theorem early_alone (hc : sys.Reachable init c) (i : ι) (he : (c.loc i).phase.early = true) :
    (c.loc i).calls = [] ∧ (c.loc i).user = false := by
  revert i
  refine hc.invariant (I := fun c => ∀ i, (c.loc i).phase.early = true →
    (c.loc i).calls = [] ∧ (c.loc i).user = false) (fun _ _ => ⟨rfl, rfl⟩) ?_ (by rintro c ⟨⟩)
  intro c i a s l _ ih _ hs j he
  by_cases hj : j = i
  · subst hj
    rw [Config.set_loc_self] at he ⊢
    have hl := ih j
    generalize c.loc j = l₀ at hl hs
    generalize c.shared = s₀ at hs
    cases step_move hs with
    | spawned => exact ⟨rfl, rfl⟩
    | start | main | hook | called | unwind => cases he
    | finish hu hcalls hp => cases he
    | panic => cases he
    | run hu hcalls _ | snapshot hu hcalls _ => exact ⟨hcalls, hu⟩
    | cloned => cases he
    | call hu | join hu | ret hu | panicked hu | died hu =>
      rw [(hl he).2] at hu
      cases hu
    | lock _ hcalls | body _ hcalls | drop _ hcalls | unlock _ hcalls | joined _ hcalls =>
      rw [(hl he).1] at hcalls
      cases hcalls
  · rw [Config.set_loc_of_ne hj] at he ⊢
    exact ih j he

theorem late_of_user (hc : sys.Reachable init c) (h : (c.loc i).user = true ∨ (c.loc i).calls ≠ []) :
    (c.loc i).phase.early = false := by
  by_contra he
  obtain ⟨hcalls, hu⟩ := early_alone hc i (Bool.eq_true_of_not_eq_false he)
  rcases h with h | h
  · rw [hu] at h
    cases h
  · exact h hcalls

theorem not_dropping (hc : sys.Reachable init c) (hg : 0 < (c.loc i).guards) {j : ι} (hj : j ≠ i) :
    ∀ f ∈ (c.loc j).calls, f.dropping = false := by
  intro f hf
  by_contra hdrop
  have hguard : f.guarded = true := by cases f <;> first | rfl | exact absurd rfl hdrop
  have hpos : 0 < (c.loc j).calls.countP Frame.guarded := List.countP_pos_iff.2 ⟨f, hf, hguard⟩
  have hzero := (excl hc).other hg hj
  rw [Local.guards] at hzero
  omega

/-! ### The operations on the map -/

omit [DecidableEq ι] in
theorem nodup_hooks (h : (keys x).Nodup) : (keys (op.hooks x)).Nodup := by
  cases op with
  | register n k =>
    show (keys (OrderedMap.put x n k)).Nodup
    rw [OrderedMap.keys_put]
    split
    · exact h
    · rename_i hn
      exact h.append (List.nodup_singleton n) (by simpa using hn)
  | remove n =>
    show (keys (OrderedMap.remove x n)).Nodup
    rw [OrderedMap.keys_remove h]
    exact h.filter _
  | clear => exact List.nodup_nil

omit [DecidableEq ι] in
theorem apply_hooks {r : Option Bool} (h : (keys x).Nodup) (hr : r = op.result x ∨ r = none) :
    RegistryApply (.change op) x (.answered r) (op.hooks x) := by
  cases op with
  | register n k =>
    obtain rfl : r = none := by rcases hr with hr | hr <;> exact hr
    exact .register OrderedMap.keys_put fun m => OrderedMap.get_put
  | remove n =>
    have hfound : (OrderedMap.position x n).isSome = decide (n ∈ keys x) := by
      rw [Bool.eq_iff_iff, OrderedMap.position_isSome, decide_eq_true_iff]
    have hfilter : (Op.remove n).hooks x = x.filter fun e => e.1 ≠ n := OrderedMap.remove_eq_filter h
    rw [hfilter]
    refine .remove (hr.imp_left fun hr => ?_)
    rw [hr, ← hfound]
    rfl
  | clear =>
    obtain rfl : r = none := by rcases hr with hr | hr <;> exact hr
    exact .clear

/-! ### What a step does to the relation -/

namespace Stands

omit [DecidableEq ι]

theorem top_iff (hl : l.calls = f :: rest) : Stands hooks x l rest.length p ↔ f.Stands hooks x p := by
  simp [Stands, hl, frame_cons]

theorem only_iff (hl : l.calls = [f]) : Stands hooks x l 0 p ↔ f.Stands hooks x p := top_iff hl

theorem free_iff (hl : l.calls.length = k) :
    Stands hooks x l k p ↔ p = if k = 0 then l.phase.stage else .idle := by
  subst hl
  simp [Stands, frame_length]

theorem of_eq (h : Stands hooks x l k p) (hf : frame l₁.calls k = frame l.calls k)
    (hp : l₁.phase.stage (N := N) = l.phase.stage) : Stands hooks x l₁ k p := by
  unfold Stands at h ⊢
  rw [hf, hp]
  exact h

theorem congr {hooks' x' : List (N × ℕ)} (h : Stands hooks x l k p)
    (hdrop : ∀ f ∈ l.calls, f.dropping = false) : Stands hooks' x' l k p := by
  unfold Stands at h ⊢
  cases hf : frame l.calls k with
  | none => rw [hf] at h; exact h
  | some f =>
    rw [hf] at h
    cases f with
    | lock | body | join => exact h
    | drops => exact absurd (hdrop _ (mem_of_frame hf)) (by simp [Frame.dropping])

end Stands

/-- A step that changes neither the list nor the map, and no phase of another thread. -/
theorem Seen.goes {d' : Config (ι × ℕ) (List (N × ℕ)) (WasmSafeThread.Phase (RegistryOp N) RegistryResult)}
    (h : Seen c d) (hooks : s₁.hooks = c.shared.hooks) (hx : d'.shared = d.shared)
    (hothers : ∀ j k, j ≠ i → d'.loc (j, k) = d.loc (j, k))
    (hown : ∀ k, Stands c.shared.hooks d.shared l₁ k (d'.loc (i, k)))
    (hdrop : (∀ f ∈ l₁.calls, f.dropping = false) → ∀ f ∈ (c.loc i).calls, f.dropping = false) :
    Seen (c.set i s₁ l₁) d' := by
  refine ⟨hx ▸ h.nodup, fun j k => ?_, fun hno => ?_⟩
  · rw [Config.set_shared, hooks, hx]
    by_cases hj : j = i
    · subst hj
      rw [Config.set_loc_self]
      exact hown k
    · rw [Config.set_loc_of_ne hj, hothers j k hj]
      exact h.stands j k
  · rw [Config.set_shared, hooks, hx]
    refine h.agree fun j => ?_
    by_cases hj : j = i
    · subst hj
      have hself := hno j
      rw [Config.set_loc_self] at hself
      exact hdrop hself
    · have hother := hno j
      rw [Config.set_loc_of_ne hj] at hother
      exact hother

/-- The phase of one operation of the thread changes. -/
theorem Seen.turn (h : Seen c d) (hooks : s₁.hooks = c.shared.hooks)
    (hat : Stands c.shared.hooks d.shared l₁ k p)
    (hown : ∀ k', k' ≠ k → frame l₁.calls k' = frame (c.loc i).calls k')
    (hstage : k = 0 ∨ l₁.phase.stage (N := N) = (c.loc i).phase.stage)
    (hdrop : (∀ f ∈ l₁.calls, f.dropping = false) → ∀ f ∈ (c.loc i).calls, f.dropping = false) :
    Seen (c.set i s₁ l₁) (d.set (i, k) d.shared p) := by
  refine h.goes hooks rfl (fun j k' hj => ?_) (fun k' => ?_) hdrop
  · exact Config.set_loc_of_ne fun heq => hj (congrArg Prod.fst heq)
  · by_cases hk : k' = k
    · subst hk
      rw [Config.set_loc_self]
      exact hat
    · rw [Config.set_loc_of_ne fun heq => hk (congrArg Prod.snd heq)]
      have hstands := h.stands i k'
      unfold Stands at hstands ⊢
      rw [hown k' hk]
      cases hf : frame (c.loc i).calls k' with
      | some f => rw [hf] at hstands; exact hstands
      | none =>
        rw [hf] at hstands
        rcases hstage with rfl | hstage
        · rw [if_neg hk] at hstands ⊢
          exact hstands
        · rw [hstage]
          exact hstands

theorem Seen.same (h : Seen c d) (hooks : s₁.hooks = c.shared.hooks) (hl : l₁.calls = (c.loc i).calls)
    (hstage : l₁.phase.stage (N := N) = (c.loc i).phase.stage) : Seen (c.set i s₁ l₁) d :=
  h.goes hooks rfl (fun _ _ _ => rfl) (fun k => (h.stands i k).of_eq (by rw [hl]) hstage)
    fun hno => hl ▸ hno

theorem Seen.replace (h : Seen c d) (hooks : s₁.hooks = c.shared.hooks) (hl : (c.loc i).calls = f :: rest)
    (hl₁ : l₁.calls = f₁ :: rest) (hp : l₁.phase = (c.loc i).phase)
    (hf : ∀ p, f.Stands c.shared.hooks d.shared p → f₁.Stands c.shared.hooks d.shared p)
    (hdrop : f₁.dropping = f.dropping) : Seen (c.set i s₁ l₁) d := by
  refine h.goes hooks rfl (fun _ _ _ => rfl) (fun k => ?_) fun hno => ?_
  · by_cases hk : k = rest.length
    · subst hk
      rw [Stands.top_iff hl₁]
      exact hf _ ((Stands.top_iff hl).1 (h.stands i _))
    · refine (h.stands i k).of_eq ?_ (by rw [hp])
      rw [hl, hl₁, frame_cons, frame_cons, if_neg hk, if_neg hk]
  · rw [hl₁, List.forall_mem_cons] at hno
    rw [hl, List.forall_mem_cons, ← hdrop]
    exact hno

omit [DecidableEq ι] in
theorem Seen.idle (h : Seen c d) (hlate : (c.loc i).phase.early = false) :
    d.loc (i, (c.loc i).calls.length) = .idle := by
  rw [(Stands.free_iff rfl).1 (h.stands i (c.loc i).calls.length)]
  split
  · exact Phase.stage_of_late hlate
  · rfl

theorem Seen.calls (h : Seen c d) (hlate : (c.loc i).phase.early = false) (hooks : s₁.hooks = c.shared.hooks)
    (hl₁ : l₁.calls = .lock op :: (c.loc i).calls) (hp : l₁.phase = (c.loc i).phase) :
    ∃ d', registry.Path d [.call (i, (c.loc i).calls.length) (.change op)] d' ∧
      Seen (c.set i s₁ l₁) d' := by
  refine ⟨d.set (i, (c.loc i).calls.length) d.shared (.called (.change op)), .turn ?_,
    h.turn hooks ?_ ?_ (.inr (by rw [hp])) ?_⟩
  · rw [h.idle hlate]
    exact .calls
  · rw [Stands.top_iff hl₁]
    rfl
  · intro k' hk
    rw [hl₁, frame_cons, if_neg hk]
  · intro hno
    rw [hl₁, List.forall_mem_cons] at hno
    exact hno.2

theorem Seen.join {j : ι} (h : Seen c d) (hlate : (c.loc i).phase.early = false)
    (hooks : s₁.hooks = c.shared.hooks) (hl₁ : l₁.calls = .join j :: (c.loc i).calls)
    (hp : l₁.phase = (c.loc i).phase) : Seen (c.set i s₁ l₁) d := by
  refine h.goes hooks rfl (fun _ _ _ => rfl) (fun k => ?_) fun hno => ?_
  · by_cases hk : k = (c.loc i).calls.length
    · subst hk
      rw [Stands.top_iff hl₁]
      exact h.idle hlate
    · exact (h.stands i k).of_eq (by rw [hl₁, frame_cons, if_neg hk]) (by rw [hp])
  · rw [hl₁, List.forall_mem_cons] at hno
    exact hno.2

theorem Seen.joined {j : ι} (h : Seen c d) (hlate : (c.loc i).phase.early = false)
    (hooks : s₁.hooks = c.shared.hooks) (hl : (c.loc i).calls = .join j :: l₁.calls)
    (hp : l₁.phase = (c.loc i).phase) : Seen (c.set i s₁ l₁) d := by
  refine h.goes hooks rfl (fun _ _ _ => rfl) (fun k => ?_) fun hno => ?_
  · by_cases hk : k = l₁.calls.length
    · subst hk
      have hidle : d.loc (i, l₁.calls.length) = .idle := (Stands.top_iff hl).1 (h.stands i _)
      rw [Stands.free_iff rfl, hidle, hp, Phase.stage_of_late hlate]
      split <;> rfl
    · exact (h.stands i k).of_eq (by rw [hl, frame_cons, if_neg hk]) (by rw [hp])
  · rw [hl, List.forall_mem_cons]
    exact ⟨rfl, hno⟩

theorem Seen.snapshot {e : List (Occurrence (ι × ℕ) (RegistryOp N) RegistryResult)}
    (h : Seen c d) (hooks : s₁.hooks = c.shared.hooks) (hl : (c.loc i).calls = []) (hl₁ : l₁.calls = [])
    (ht : registry.Turn (i, 0) d.shared (c.loc i).phase.stage e d.shared l₁.phase.stage) :
    ∃ d', registry.Path d e d' ∧ Seen (c.set i s₁ l₁) d' := by
  have hstage : d.loc (i, 0) = (c.loc i).phase.stage := by
    rw [(Stands.free_iff (by rw [hl]; rfl)).1 (h.stands i 0), if_pos rfl]
  refine ⟨d.set (i, 0) d.shared l₁.phase.stage, .turn (hstage ▸ ht), h.turn hooks ?_ ?_ (.inl rfl) ?_⟩
  · rw [Stands.free_iff (by rw [hl₁]; rfl), if_pos rfl]
  · intro k' _
    rw [hl₁, hl]
  · intro _
    rw [hl]
    rintro f ⟨⟩

omit [DecidableEq ι] [DecidableEq N] in
theorem Nested.below_drops {ks : List ℕ} {r : Option Bool} (hn : Nested l) (hg : l.guards ≤ 1)
    (hl : l.calls = .drops ks r :: rest) : rest = [] := by
  cases hrest : rest with
  | nil => rfl
  | cons f rest' =>
    have hf : f.dropping = true := hn.below f (by rw [hl, hrest]; exact List.mem_cons_self)
    have hguard : f.guarded = true := by cases f <;> first | rfl | cases hf
    rw [Local.guards, hl, hrest, List.countP_cons_of_pos rfl, List.countP_cons_of_pos hguard] at hg
    omega

/-- The operation changes the list. -/
theorem Seen.body (h : Seen c d) (hc : sys.Reachable init c) (hl : (c.loc i).calls = [.body op]) :
    Seen (c.set i { c.shared with hooks := op.hooks c.shared.hooks }
      { c.loc i with calls := [.drops (op.dropped c.shared.hooks) (op.result c.shared.hooks)] }) d := by
  have hothers : ∀ j, j ≠ i → ∀ f ∈ (c.loc j).calls, f.dropping = false := fun j hj =>
    not_dropping hc (Nat.add_pos_left
      (List.countP_pos_iff.2 ⟨_, by rw [hl]; exact List.mem_cons_self, rfl⟩) _) hj
  -- nobody is between the list and the map
  have hagree : c.shared.hooks = d.shared := h.agree fun j => by
    by_cases hj : j = i
    · subst hj
      rw [hl]
      simp [Frame.dropping]
    · exact hothers j hj
  have hcalled : d.loc (i, 0) = .called (.change op) :=
    (Stands.only_iff hl).1 (h.stands i 0)
  refine ⟨h.nodup, fun j k => ?_, fun hno => ?_⟩
  · by_cases hj : j = i
    · subst hj
      rw [Config.set_loc_self]
      by_cases hk : k = 0
      · subst hk
        exact (Stands.only_iff (f := .drops _ _) rfl).2
          ⟨op, hcalled, by rw [Config.set_shared, hagree], .inl (by rw [hagree])⟩
      · have hstands := h.stands j k
        unfold Stands at hstands ⊢
        simp only [hl, frame_cons, List.length_nil, if_neg hk, frame_nil] at hstands ⊢
        exact hstands
    · rw [Config.set_loc_of_ne hj]
      exact (h.stands j k).congr (hothers j hj)
  · have hself := hno i
    rw [Config.set_loc_self] at hself
    cases hself _ List.mem_cons_self

/-- It gives the guard back. -/
theorem Seen.unlock {r : Option Bool} (h : Seen c d) (hc : sys.Reachable init c)
    (hl : (c.loc i).calls = [.drops [] r]) (hooks : s₁.hooks = c.shared.hooks) (hl₁ : l₁.calls = [])
    (hp : l₁.phase = (c.loc i).phase) :
    ∃ d', registry.Path d [.ret (i, 0) (.answered r)] d' ∧ Seen (c.set i s₁ l₁) d' := by
  have hothers : ∀ j, j ≠ i → ∀ f ∈ (c.loc j).calls, f.dropping = false := fun j hj =>
    not_dropping hc (Nat.add_pos_left
      (List.countP_pos_iff.2 ⟨_, by rw [hl]; exact List.mem_cons_self, rfl⟩) _) hj
  obtain ⟨op, hcalled, hchange, hr⟩ := (Stands.only_iff hl).1 (h.stands i 0)
  have hcalled : d.loc (i, 0) = .called (.change op) := hcalled
  have hlate : l₁.phase.stage (N := N) = .idle :=
    Phase.stage_of_late (hp ▸ late_of_user hc (.inr (by rw [hl]; rintro ⟨⟩)))
  refine ⟨d.set (i, 0) (op.hooks d.shared) .idle, .turn ?_, nodup_hooks h.nodup, fun j k => ?_, fun _ => ?_⟩
  · rw [hcalled]
    exact .ends (apply_hooks h.nodup hr)
  · by_cases hj : j = i
    · subst hj
      rw [Config.set_loc_self]
      by_cases hk : k = 0
      · subst hk
        rw [Config.set_loc_self, Stands.free_iff (by rw [hl₁]; rfl), if_pos rfl, hlate]
      · rw [Config.set_loc_of_ne fun heq => hk (congrArg Prod.snd heq)]
        have hstands := h.stands j k
        unfold Stands at hstands ⊢
        simp only [hl, hl₁, frame_cons, List.length_nil, if_neg hk, frame_nil] at hstands ⊢
        exact hstands
    · rw [Config.set_loc_of_ne hj, Config.set_loc_of_ne fun heq => hj (congrArg Prod.fst heq)]
      exact (h.stands j k).congr (hothers j hj)
  · exact hooks.trans hchange

/-- **Every step is seen at the map.** -/
theorem Move.seen (h : Seen c d) (hc : sys.Reachable init c) (hm : Move i a c.shared (c.loc i) s₁ l₁) :
    ∃ d', registry.Path d (occurs i a c.shared (c.loc i)) d' ∧ Seen (c.set i s₁ l₁) d' := by
  have hn := nested hc i
  have hg := (excl hc).le_one i
  have hlate := late_of_user (i := i) hc
  have hagree : (c.loc i).phase = .snapshot → c.shared.hooks = d.shared := fun hp => h.agree fun j => by
    by_cases hj : j = i
    · subst hj
      rw [(early_alone hc j (by rw [hp]; rfl)).1]
      rintro f ⟨⟩
    · exact not_dropping hc (by simp [Local.guards, hp, Phase.guarded]) hj
  generalize hs₀ : c.shared = s₀ at hm hagree
  generalize hl₀ : c.loc i = l₀ at hm hn hg hlate hagree
  have hooks : s₀.hooks = c.shared.hooks := by rw [hs₀]
  have hcalls : l₀.calls = (c.loc i).calls := by rw [hl₀]
  have hphase : l₀.phase = (c.loc i).phase := by rw [hl₀]
  cases hm with
  | start => exact ⟨d, .refl, h.same hooks hcalls (by rw [← hphase]; rfl)⟩
  | spawned => exact h.snapshot hooks hcalls.symm rfl (by rw [← hphase]; exact .calls)
  | call hu hop =>
    have hlate := hphase ▸ hlate (.inl hu)
    rw [← hl₀]
    cases hop <;> exact h.calls hlate hooks (by rw [hl₀]; rfl) (by rw [hl₀]; rfl)
  | join hu =>
    exact ⟨d, .refl, h.join (hphase ▸ hlate (.inl hu)) hooks (by rw [← hcalls]) hphase⟩
  | ret hu => exact ⟨d, .refl, h.same hooks hcalls (by rw [← hphase])⟩
  | panicked hu hl =>
    refine ⟨d, .refl, h.replace hooks (hcalls.symm.trans hl) rfl hphase ?_ rfl⟩
    rintro p ⟨op, hp, hchange, -⟩
    exact ⟨op, hp, hchange, .inr rfl⟩
  | panic hu hl hp =>
    refine ⟨d, .refl, h.same hooks hcalls ?_⟩
    rw [← hphase]
    rcases hp with ⟨k, todo, hp, -⟩ | hp <;> rw [hp] <;> rfl
  | died hu hl hp => exact ⟨d, .refl, h.same hooks hcalls (by rw [← hphase])⟩
  | lock hu hl hlock =>
    refine ⟨d, ?_, h.replace hooks (hcalls.symm.trans hl) rfl hphase (fun p hp => hp) rfl⟩
    simp only [occurs, hu, hl]
    exact .refl
  | body hu hl =>
    obtain rfl := hn.below_body hg hl
    refine ⟨d, ?_, ?_⟩
    · simp only [occurs, hu, hl]
      exact .refl
    · have hseen := h.body hc (hcalls ▸ hl)
      rw [hs₀, hl₀] at hseen
      exact hseen
  | drop hu hl =>
    refine ⟨d, ?_, h.replace hooks (hcalls.symm.trans hl) rfl hphase (fun p hp => hp) rfl⟩
    simp only [occurs, hu, hl]
    exact .refl
  | unlock hu hl =>
    obtain rfl := hn.below_drops hg hl
    simp only [occurs, hu, hl, List.length_nil]
    exact h.unlock hc (hcalls ▸ hl) hooks rfl hphase
  | joined hu hl hj =>
    refine ⟨d, ?_, h.joined (hphase ▸ hlate (.inr (by rw [hl]; rintro ⟨⟩))) hooks (hcalls ▸ hl) hphase⟩
    simp only [occurs, hu, hl]
    exact .refl
  | run hu hl hp hlock =>
    refine ⟨d, ?_, h.same hooks hcalls (by rw [← hphase, hp]; rfl)⟩
    simp only [occurs, hu, hl, hp]
    exact .refl
  | snapshot hu hl hp =>
    simp only [occurs, hu, hl, hp]
    refine h.snapshot hooks (hcalls.symm.trans hl) rfl ?_
    rw [← hphase, hp, hagree hp]
    exact .commits .snapshot
  | cloned hu hl hp =>
    simp only [occurs, hu, hl, hp]
    refine h.snapshot hooks (hcalls.symm.trans hl) rfl ?_
    rw [← hphase, hp]
    exact .returns
  | hook hu hl hp | called hu hl hp | main hu hl hp | unwind hu hl hp =>
    refine ⟨d, ?_, h.same hooks hcalls (by rw [← hphase, hp]; rfl)⟩
    simp only [occurs, hu, hl, hp]
    exact .refl
  | finish hu hl hp =>
    refine ⟨d, ?_, h.same hooks hcalls ?_⟩
    · rcases hp with hp | hp <;> simp only [occurs, hu, hl, hp] <;> exact .refl
    · rw [← hphase]
      rcases hp with hp | hp <;> rw [hp] <;> rfl

/-- The registry of the code is the map. -/
def simulation : Simulation (sys (ι := ι) (N := N)) init registry [] occurs where
  Rel := Seen
  init := ⟨List.nodup_nil, fun _ k => by cases k <;> rfl, fun _ => rfl⟩
  agent hc hd hs := (step_move hs).seen hd hc
  env := by rintro _ ⟨⟩

/-- **The registry is linearizable.**  In every run the registrations, the removals, the clearings and the
snapshots of the threads that begin take effect one after the other at a map that keeps the order of
insertion, each between its call and its return.  So a thread calls the hooks that were registered at one
instant after it began; a removal says whether its name was there at the instant at which it took effect;
an operation that a destructor makes unwind has taken effect all the same. -/
theorem linearizable_registry {h : List (Occurrence (ι × ℕ) (RegistryOp N) RegistryResult)}
    {c : Config ι (Shared ι N) (Local ι N)} (H : sys.History (visible occurs) [] init h c) :
    registry.Linearizable [] h :=
  simulation.linearizable H

/-- The run in which a hook is replaced, and another one removed while it is to be called. -/
theorem linearizable_registry_replaceAndRemove :
    ∃ (h : List (Occurrence (Bool × ℕ) (RegistryOp Bool) RegistryResult))
      (c : Config Bool (Shared Bool Bool) (Local Bool Bool)),
      sys.History (visible occurs) [] init h c ∧
      results (true, 0) h = [.answered none, .answered none, .answered none] ∧
      results (false, 0) h = [.hooks [2, 1], .answered (some true)] ∧ registry.Linearizable [] h := by
  obtain ⟨h, c, H, hend⟩ := System.exists_note_of_along (M := sys) (P := fun _ _ _ => True)
    (h := []) (c := init (ι := Bool) (N := Bool)) (visible occurs)
    (p := fun h _ => decide (results (true, 0) h = [.answered none, .answered none, .answered none] ∧
      results (false, 0) h = [.hooks [2, 1], .answered (some true)]))
    replaceAndRemove (by decide) (by decide)
  rw [decide_eq_true_eq] at hend
  exact ⟨h, c, H, hend.1, hend.2, linearizable_registry H⟩

end Hooks

end WasmSafeThread
