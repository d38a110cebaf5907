import Mathlib.Data.List.Nodup
import Mathlib.Data.List.Basic

/-!
# Maps that keep the order of insertion

A map kept as a list of entries, in the order in which the keys came in.  An entry is found by its
position, the first with the key; `put` replaces the entry in place or appends a new one, `remove` takes
the entry at the position out.

The specification is the log of the changes, the latest first.  It has no list in it: `latest log k` is
the value that the log leaves to the key `k`, and `birth log k` the number of changes made before the
one that brought `k` in.

* `put_cons`, `remove_cons`, `get_cons` : the operations by recursion on the list, with which every other
  fact about them is proved by induction.
* `Follows log l` : the keys of `l` are distinct, its values are the latest ones, its order is that of
  the births.
* `Follows.apply` : **a change of the map follows the change of the log.**
-/

namespace WasmSafeThread

namespace OrderedMap

variable {K V : Type*} [DecidableEq K]

/-- The position of the first entry with the key `k`. -/
def position (l : List (K × V)) (k : K) : Option ℕ := l.findIdx? fun e => e.1 = k

/-- The value at the key `k`. -/
def get (l : List (K × V)) (k : K) : Option V := (position l k).bind fun pos => l[pos]?.map Prod.snd

/-- Replace the value at the key `k` in place, or append a new entry. -/
def put (l : List (K × V)) (k : K) (v : V) : List (K × V) :=
  match position l k with
  | some pos => l.set pos (k, v)
  | none => l ++ [(k, v)]

/-- Take the entry with the key `k` out. -/
def remove (l : List (K × V)) (k : K) : List (K × V) :=
  match position l k with
  | some pos => l.eraseIdx pos
  | none => l

/-- The keys, in order. -/
def keys (l : List (K × V)) : List K := l.map Prod.fst

variable {l : List (K × V)} {e : K × V} {k k' : K} {v : V}

@[simp] theorem position_nil : position ([] : List (K × V)) k = none := rfl

theorem position_cons : position (e :: l) k =
    if e.1 = k then some 0 else (position l k).map (· + 1) := by
  simp [position, List.findIdx?_cons]

@[simp] theorem get_nil : get ([] : List (K × V)) k = none := rfl

@[simp] theorem put_nil : put ([] : List (K × V)) k v = [(k, v)] := rfl

@[simp] theorem remove_nil : remove ([] : List (K × V)) k = [] := rfl

theorem get_cons : get (e :: l) k = if e.1 = k then some e.2 else get l k := by
  unfold get
  rw [position_cons]
  split
  · rfl
  · cases position l k <;> rfl

theorem put_cons : put (e :: l) k v = if e.1 = k then (k, v) :: l else e :: put l k v := by
  unfold put
  rw [position_cons]
  by_cases h : e.1 = k
  · simp only [if_pos h, List.set_cons_zero]
  · simp only [if_neg h]
    cases position l k <;> rfl

theorem remove_cons : remove (e :: l) k = if e.1 = k then l else e :: remove l k := by
  unfold remove
  rw [position_cons]
  by_cases h : e.1 = k
  · simp only [if_pos h, List.eraseIdx_cons_zero]
  · simp only [if_neg h]
    cases position l k <;> rfl

omit [DecidableEq K] in
@[simp] theorem keys_nil : keys ([] : List (K × V)) = [] := rfl

omit [DecidableEq K] in
@[simp] theorem keys_cons : keys (e :: l) = e.1 :: keys l := rfl

theorem position_isSome : (position l k).isSome = true ↔ k ∈ keys l := by
  simp [position, keys]

theorem get_isSome : (get l k).isSome = true ↔ k ∈ keys l := by
  induction l with
  | nil => simp
  | cons e l ih =>
    rw [get_cons, keys_cons, List.mem_cons, ← ih]
    split
    · rename_i h
      simp [h]
    · rename_i h
      simp [Ne.symm h]

theorem mem_iff_get (h : (keys l).Nodup) : (k, v) ∈ l ↔ get l k = some v := by
  induction l with
  | nil => simp
  | cons e l ih =>
    obtain ⟨hnot, htail⟩ := List.nodup_cons.1 h
    rw [List.mem_cons, get_cons, ih htail]
    split
    · -- the key is that of the head, so that it is not in the tail
      rename_i hk
      subst hk
      have hnone : get l e.1 = none := by
        rw [← Option.not_isSome_iff_eq_none, get_isSome]
        exact hnot
      rw [hnone]
      simp [Prod.ext_iff, eq_comm]
    · rename_i hk
      simp [Prod.ext_iff, Ne.symm hk]

theorem get_put : get (put l k v) k' = if k' = k then some v else get l k' := by
  induction l with
  | nil =>
    rw [put_nil, get_cons]
    simp only [get_nil, eq_comm]
  | cons e l ih =>
    rw [put_cons]
    by_cases he : e.1 = k
    · rw [if_pos he, get_cons, get_cons, he]
      by_cases hk : k = k'
      · rw [if_pos hk, if_pos hk.symm]
      · rw [if_neg hk, if_neg hk, if_neg (Ne.symm hk)]
    · rw [if_neg he, get_cons, get_cons, ih]
      by_cases hk : k' = k
      · subst hk
        simp [he]
      · simp [hk]

theorem keys_put : keys (put l k v) = if k ∈ keys l then keys l else keys l ++ [k] := by
  induction l with
  | nil => rfl
  | cons e l ih =>
    rw [put_cons]
    by_cases he : e.1 = k
    · subst he
      simp
    · rw [if_neg he, keys_cons, ih, keys_cons]
      by_cases hk : k ∈ keys l
      · simp [hk]
      · simp [hk, Ne.symm he]

theorem remove_eq_filter (h : (keys l).Nodup) : remove l k = l.filter fun e => e.1 ≠ k := by
  induction l with
  | nil => rfl
  | cons e l ih =>
    obtain ⟨hnot, htail⟩ := List.nodup_cons.1 h
    rw [remove_cons]
    by_cases he : e.1 = k
    · subst he
      have hall : ∀ e' ∈ l, decide (e'.1 ≠ e.1) = true := fun e' he' =>
        decide_eq_true fun heq => hnot (heq ▸ List.mem_map_of_mem he')
      rw [if_pos rfl, List.filter_cons_of_neg (by simp), List.filter_eq_self.2 hall]
    · simp [he, ih htail]

theorem keys_remove (h : (keys l).Nodup) : keys (remove l k) = (keys l).filter (· ≠ k) := by
  rw [remove_eq_filter h]
  simp only [keys, List.filter_map]
  rfl

theorem get_remove (h : (keys l).Nodup) :
    get (remove l k) k' = if k' = k then none else get l k' := by
  induction l with
  | nil => simp
  | cons e l ih =>
    obtain ⟨hnot, htail⟩ := List.nodup_cons.1 h
    rw [remove_cons]
    by_cases he : e.1 = k
    · subst he
      rw [if_pos rfl, get_cons]
      by_cases hk : k' = e.1
      · rw [if_pos hk, hk, ← Option.not_isSome_iff_eq_none, get_isSome]
        exact hnot
      · rw [if_neg hk, if_neg (Ne.symm hk)]
    · rw [if_neg he, get_cons, get_cons, ih htail]
      by_cases hk : k' = k
      · subst hk
        simp [he]
      · simp [hk]

theorem put_perm : ((put l k v).map Prod.snd ++ (get l k).toList).Perm (v :: l.map Prod.snd) := by
  induction l with
  | nil => exact List.Perm.refl _
  | cons e l ih =>
    rw [put_cons, get_cons]
    split
    · rw [List.map_cons, List.map_cons, Option.toList_some]
      exact (List.perm_append_singleton _ _).trans (List.Perm.swap _ _ _)
    · rw [List.map_cons, List.map_cons, List.cons_append]
      exact (ih.cons e.2).trans (List.Perm.swap _ _ _)

theorem remove_perm : ((remove l k).map Prod.snd ++ (get l k).toList).Perm (l.map Prod.snd) := by
  induction l with
  | nil => exact List.Perm.refl _
  | cons e l ih =>
    rw [remove_cons, get_cons]
    split
    · exact List.perm_append_singleton _ _
    · rw [List.map_cons, List.map_cons, List.cons_append]
      exact ih.cons e.2

/-! ### The log of the changes -/

/-- A change of a map. -/
inductive Change (K V : Type*) where
  /-- The key gets the value. -/
  | put (k : K) (v : V)
  /-- The key goes. -/
  | remove (k : K)
  /-- All keys go. -/
  | clear

/-- The change, made to a map. -/
def Change.apply (l : List (K × V)) : Change K V → List (K × V)
  | .put k v => OrderedMap.put l k v
  | .remove k => OrderedMap.remove l k
  | .clear => []

/-- The value that the changes, the latest first, leave to the key `k`. -/
def latest : List (Change K V) → K → Option V
  | [], _ => none
  | .put k' v :: log, k => if k = k' then some v else latest log k
  | .remove k' :: log, k => if k = k' then none else latest log k
  | .clear :: _, _ => none

/-- How many changes came before the one that brought `k` in: the first that put `k` since `k` was
last removed or the map cleared. -/
def birth : List (Change K V) → K → Option ℕ
  | [], _ => none
  | .put k' _ :: log, k => if k = k' then (birth log k).or (some log.length) else birth log k
  | .remove k' :: log, k => if k = k' then none else birth log k
  | .clear :: _, _ => none

/-- Both keys are there, and `k` came in before `k'`. -/
def Before (log : List (Change K V)) (k k' : K) : Prop :=
  ∃ m n, birth log k = some m ∧ birth log k' = some n ∧ m < n

/-- The list is what the changes say. -/
structure Follows (log : List (Change K V)) (l : List (K × V)) : Prop where
  distinct : (keys l).Nodup
  values : ∀ k v, (k, v) ∈ l ↔ latest log k = some v
  order : (keys l).Pairwise (Before log)

variable {log : List (Change K V)}

theorem birth_lt {m : ℕ} (h : birth log k = some m) : m < log.length := by
  induction log with
  | nil => cases h
  | cons a log ih =>
    rw [List.length_cons]
    cases a with
    | put k₀ v =>
      simp only [birth] at h
      split at h
      · rcases Option.or_eq_some_iff.1 h with h | ⟨-, h⟩
        · have := ih h; omega
        · cases h; omega
      · have := ih h; omega
    | remove k₀ =>
      simp only [birth] at h
      split at h
      · cases h
      · have := ih h; omega
    | clear => cases h

theorem birth_isSome : (birth log k).isSome = (latest log k).isSome := by
  induction log with
  | nil => rfl
  | cons a log ih =>
    cases a with
    | put k₀ v =>
      simp only [birth, latest]
      split
      · simp
      · exact ih
    | remove k₀ =>
      simp only [birth, latest]
      split
      · rfl
      · exact ih
    | clear => rfl

namespace Follows

theorem nil : Follows ([] : List (Change K V)) [] :=
  ⟨List.nodup_nil, by simp [latest], List.Pairwise.nil⟩

theorem get_eq (h : Follows log l) (k : K) : get l k = latest log k := by
  apply Option.ext
  intro v
  rw [← mem_iff_get h.distinct, h.values]

theorem mem_keys (h : Follows log l) : k ∈ keys l ↔ (latest log k).isSome = true := by
  rw [← get_isSome, h.get_eq]

theorem of_get (hd : (keys l).Nodup) (hg : ∀ k, get l k = latest log k)
    (ho : (keys l).Pairwise (Before log)) : Follows log l :=
  ⟨hd, fun k v => by rw [mem_iff_get hd, hg], ho⟩

theorem birth_put (hk : (birth log k).isSome = true) :
    birth (.put k' v :: log) k = birth log k := by
  obtain ⟨m, hm⟩ := Option.isSome_iff_exists.1 hk
  simp [birth, hm]

theorem put (h : Follows log l) (k : K) (v : V) :
    Follows (.put k v :: log) (OrderedMap.put l k v) := by
  -- the keys of `l` are born, and keep their order
  have hborn : ∀ a ∈ keys l, (birth log a).isSome = true := fun a ha => by
    rw [birth_isSome, ← h.mem_keys]
    exact ha
  have hkeep : (keys l).Pairwise (Before (.put k v :: log)) := by
    refine h.order.imp_of_mem fun {a b} ha hb hab => ?_
    unfold Before
    rw [birth_put (hborn a ha), birth_put (hborn b hb)]
    exact hab
  have hget : ∀ a, get (OrderedMap.put l k v) a = latest (.put k v :: log) a := fun a => by
    rw [get_put, h.get_eq]
    rfl
  by_cases hk : k ∈ keys l
  · refine of_get ?_ hget ?_
    · rw [keys_put, if_pos hk]
      exact h.distinct
    · rw [keys_put, if_pos hk]
      exact hkeep
  · refine of_get ?_ hget ?_
    · rw [keys_put, if_neg hk]
      exact h.distinct.append (List.nodup_singleton k) (by simpa using hk)
    · rw [keys_put, if_neg hk]
      refine List.pairwise_append.2 ⟨hkeep, List.pairwise_singleton _ k, fun a ha b hb => ?_⟩
      rw [List.mem_singleton.1 hb]
      obtain ⟨m, hm⟩ := Option.isSome_iff_exists.1 (hborn a ha)
      have hnone : birth log k = none := by
        rw [← Option.not_isSome_iff_eq_none, birth_isSome, ← h.mem_keys]
        exact hk
      exact ⟨m, log.length, by rw [birth_put (hborn a ha), hm], by simp [birth, hnone], birth_lt hm⟩

theorem remove (h : Follows log l) (k : K) :
    Follows (.remove k :: log) (OrderedMap.remove l k) := by
  refine of_get ?_ (fun a => ?_) ?_
  · rw [keys_remove h.distinct]
    exact h.distinct.filter _
  · rw [get_remove h.distinct, h.get_eq]
    rfl
  · rw [keys_remove h.distinct]
    have hne : ∀ a ∈ (keys l).filter (· ≠ k), a ≠ k := fun a ha => by
      simpa using (List.mem_filter.1 ha).2
    refine (h.order.filter _).imp_of_mem fun {a b} ha hb hab => ?_
    simp only [Before, birth, if_neg (hne a ha), if_neg (hne b hb)]
    exact hab

theorem clear : Follows (.clear :: log) ([] : List (K × V)) :=
  ⟨List.nodup_nil, by simp [latest], List.Pairwise.nil⟩

/-- **A change of the map follows the change of the log.** -/
theorem apply (h : Follows log l) (a : Change K V) : Follows (a :: log) (a.apply l) := by
  cases a with
  | put k v => exact h.put k v
  | remove k => exact h.remove k
  | clear => exact clear

end Follows

end OrderedMap

end WasmSafeThread
