import Zerodb.Run

/-!
# Trees: the sorted maps and sets of the database

`BTree` and `TreeSet` stand for the BTrees package's maps and sets (and for
Python dictionaries and sets, whose iteration order nothing here depends on):
finite, extensional, iterated in key order. The lemmas restate the library's
update laws with equality of keys in place of `compare`.
-/

namespace Zerodb

open Std

universe u v

/-- A sorted finite map. -/
abbrev BTree (κ : Type u) (ν : Type v) [Ord κ] : Type (max u v) := ExtTreeMap κ ν compare

/-- A sorted finite set. -/
abbrev TreeSet (κ : Type u) [Ord κ] : Type u := ExtTreeSet κ compare

namespace BTree

variable {κ : Type u} {ν : Type v} [Ord κ] [TransOrd κ] [LawfulEqOrd κ] [DecidableEq κ]
variable (t : BTree κ ν) {k k' : κ} {x : ν}

theorem get_insert : (t.insert k x)[k']? = if k = k' then some x else t[k']? := by
  simp [ExtTreeMap.getElem?_insert]

theorem get_insert_ne (h : k ≠ k') : (t.insert k x)[k']? = t[k']? := by
  rw [get_insert, if_neg h]

theorem get_erase : (t.erase k)[k']? = if k = k' then none else t[k']? := by
  simp [ExtTreeMap.getElem?_erase]

theorem get_erase_ne (h : k ≠ k') : (t.erase k)[k']? = t[k']? := by
  rw [get_erase, if_neg h]

omit [DecidableEq κ] in
theorem mem_insert : k' ∈ t.insert k x ↔ k' = k ∨ k' ∈ t := by
  rw [ExtTreeMap.mem_insert, Std.compare_eq_iff_eq, eq_comm]

omit [DecidableEq κ] in
theorem mem_erase : k' ∈ t.erase k ↔ k' ∈ t ∧ k' ≠ k := by
  rw [ExtTreeMap.mem_erase, ne_eq, Std.compare_eq_iff_eq, eq_comm, and_comm]

omit [LawfulEqOrd κ] [DecidableEq κ] in
theorem mem_iff : k ∈ t ↔ ∃ y, t[k]? = some y := by
  rw [ExtTreeMap.mem_iff_isSome_getElem?, Option.isSome_iff_exists]

omit [LawfulEqOrd κ] [DecidableEq κ] in
theorem not_mem_iff : k ∉ t ↔ t[k]? = none := by
  rw [ExtTreeMap.mem_iff_isSome_getElem?, Option.not_isSome_iff_eq_none]

omit [LawfulEqOrd κ] [DecidableEq κ] in
theorem mem_of_get (h : t[k]? = some x) : k ∈ t := (mem_iff t).mpr ⟨x, h⟩

omit [LawfulEqOrd κ] [DecidableEq κ] in
theorem size_insert_new (h : k ∉ t) : (t.insert k x).size = t.size + 1 := by
  rw [ExtTreeMap.size_insert, if_neg (by simpa using h)]

omit [LawfulEqOrd κ] [DecidableEq κ] in
theorem size_erase_mem (h : k ∈ t) : (t.erase k).size + 1 = t.size := by
  have hpos : t.size ≠ 0 := by
    intro h0
    rw [← ExtTreeMap.eq_empty_iff_size_eq_zero] at h0
    simp [h0] at h
  rw [ExtTreeMap.size_erase, if_pos (by simpa using h)]
  omega

omit [DecidableEq κ] in
/-- Distinct keys are no more than there are. -/
theorem length_le_size {l : List κ} (hnodup : l.Nodup) (h : ∀ k ∈ l, k ∈ t) : l.length ≤ t.size := by
  rw [← ExtTreeMap.length_keys]
  exact (hnodup.subperm fun k hk => ExtTreeMap.mem_keys.mpr (h k hk)).length_le

omit [DecidableEq κ] in
/-- A list of all keys is at least as long as there are. -/
theorem size_le_length {l : List κ} (h : ∀ k, k ∈ t → k ∈ l) : t.size ≤ l.length := by
  rw [← ExtTreeMap.length_keys]
  have hsub : t.keys ⊆ l := fun k hk => h k (ExtTreeMap.mem_keys.mp hk)
  exact (List.Nodup.subperm ExtTreeMap.nodup_keys hsub).length_le

omit [DecidableEq κ] in
/-- Maps with the same keys have the same size. -/
theorem size_congr {t' : BTree κ ν} (h : ∀ k, k ∈ t ↔ k ∈ t') : t.size = t'.size := by
  refine Nat.le_antisymm ?_ ?_
  · rw [← ExtTreeMap.length_keys (t := t')]
    exact size_le_length t fun k hk => ExtTreeMap.mem_keys.mpr ((h k).mp hk)
  · rw [← ExtTreeMap.length_keys (t := t)]
    exact size_le_length t' fun k hk => ExtTreeMap.mem_keys.mpr ((h k).mpr hk)

omit [DecidableEq κ] in
/-- A map that lacks a key of another is smaller. -/
theorem size_lt_size {t' : BTree κ ν} (h : ∀ k ∈ t', k ∈ t) (hk : k ∈ t) (hk' : k ∉ t') :
    t'.size < t.size := by
  have hnodup : (k :: t'.keys).Nodup :=
    List.nodup_cons.mpr ⟨fun hmem => hk' (ExtTreeMap.mem_keys.mp hmem), ExtTreeMap.nodup_keys⟩
  have hle := length_le_size t hnodup fun k'' hmem => by
    rcases List.mem_cons.mp hmem with rfl | hmem
    · exact hk
    · exact h k'' (ExtTreeMap.mem_keys.mp hmem)
  rwa [List.length_cons, ExtTreeMap.length_keys] at hle

omit [DecidableEq κ] in
/-- The map with one key. -/
theorem toList_singleton : ((∅ : BTree κ ν).insert k x).toList = [(k, x)] := by
  have hmem : ∀ e, e ∈ ((∅ : BTree κ ν).insert k x).toList ↔ e = (k, x) := by
    rintro ⟨k', y⟩
    rw [ExtTreeMap.mem_toList_iff_getElem?_eq_some, ExtTreeMap.getElem?_insert]
    by_cases hk : compare k k' = .eq
    · simp [Std.compare_eq_iff_eq.mp hk, eq_comm]
    · have hne : k' ≠ k := fun h => hk (by simp [h])
      simp [hk, hne]
  have hlen : ((∅ : BTree κ ν).insert k x).toList.length = 1 := by
    rw [ExtTreeMap.length_toList, size_insert_new _ (by simp), ExtTreeMap.size_empty]
  obtain ⟨e, he⟩ := List.length_eq_one_iff.mp hlen
  rw [he, (hmem e).mp (by rw [he]; exact List.mem_singleton_self e)]

/-! ### Sums of values

A value and the sum of the others make up the sum; the rest follows from that. -/

section Total

variable (t : BTree κ ℕ) {k : κ} {x : ℕ}

/-- The sum of the values. -/
def total (t : BTree κ ℕ) : ℕ := (t.toList.map Prod.snd).sum

omit [LawfulEqOrd κ] [DecidableEq κ] in
@[simp] theorem total_empty : total (∅ : BTree κ ℕ) = 0 := rfl

theorem erase_of_not_mem (h : k ∉ t) : t.erase k = t := by
  refine ExtTreeMap.ext_getElem? fun k' => ?_
  rw [get_erase]
  by_cases hk : k = k'
  · rw [if_pos hk, ← hk, (not_mem_iff t).mp h]
  · rw [if_neg hk]

theorem erase_insert : (t.insert k x).erase k = t.erase k := by
  refine ExtTreeMap.ext_getElem? fun k' => ?_
  rw [get_erase, get_erase, get_insert]
  by_cases hk : k = k'
  · rw [if_pos hk, if_pos hk]
  · rw [if_neg hk, if_neg hk, if_neg hk]

/-- A value and the others. -/
theorem total_eq_add_erase (h : t[k]? = some x) : total t = x + total (t.erase k) := by
  have hperm : t.toList.Perm ((k, x) :: (t.erase k).toList) := by
    have hnodup : ∀ s : BTree κ ℕ, s.toList.Nodup := fun s =>
      ExtTreeMap.distinct_keys_toList.imp fun hne heq => hne (by simp [heq])
    refine (List.perm_ext_iff_of_nodup (hnodup t) (List.nodup_cons.mpr ⟨?_, hnodup _⟩)).mpr ?_
    · rw [ExtTreeMap.mem_toList_iff_getElem?_eq_some, get_erase, if_pos rfl]
      exact (Option.some_ne_none x).symm
    · rintro ⟨k', y⟩
      rw [List.mem_cons, ExtTreeMap.mem_toList_iff_getElem?_eq_some,
        ExtTreeMap.mem_toList_iff_getElem?_eq_some, get_erase]
      by_cases hk : k = k'
      · subst hk
        simp [h, eq_comm]
      · simp [hk, Ne.symm hk]
  rw [total, (hperm.map Prod.snd).sum_eq]
  rfl

theorem total_insert : total (t.insert k x) = x + total (t.erase k) := by
  have hget : (t.insert k x)[k]? = some x := by rw [get_insert, if_pos rfl]
  rw [total_eq_add_erase _ hget, erase_insert]

end Total

/-! ### Ranges of keys

The arguments of `items` and `values` follow those of the library: a flag excludes its bound, but
where the bound is missing it excludes the first or the last key instead. -/

section Range

variable {κ : Type u} {ν : Type v} [LinearOrder κ]

/-- Is a key between the bounds that are given, and off those that are excluded? -/
def Within (lower upper : Option κ) (excludemin excludemax : Bool) (k : κ) : Prop :=
  (∀ a ∈ lower, a ≤ k ∧ (excludemin = true → a ≠ k)) ∧
    ∀ b ∈ upper, k ≤ b ∧ (excludemax = true → k ≠ b)

instance (lower upper : Option κ) (excludemin excludemax : Bool) (k : κ) :
    Decidable (Within lower upper excludemin excludemax k) :=
  inferInstanceAs (Decidable (_ ∧ _))

/-- `items(min, max, excludemin, excludemax)`. Where there is no bound, the flag excludes
the smallest or the largest key instead. -/
def items (t : BTree κ ν) (lower upper : Option κ) (excludemin excludemax : Bool) : List (κ × ν) :=
  let all := t.toList
  let all := if lower = none ∧ excludemin = true then all.tail else all
  let all := if upper = none ∧ excludemax = true then all.dropLast else all
  all.filter fun e => decide (Within lower upper excludemin excludemax e.1)

/-- `values(min, max, excludemin, excludemax)`. -/
def values (t : BTree κ ν) (lower upper : Option κ) (excludemin excludemax : Bool) : List ν :=
  (t.items lower upper excludemin excludemax).map Prod.snd

variable (t : BTree κ ν) {lower upper : Option κ} {excludemin excludemax : Bool}

theorem items_sublist : (t.items lower upper excludemin excludemax).Sublist t.toList := by
  apply List.filter_sublist.trans
  have htail : (if lower = none ∧ excludemin = true then t.toList.tail else t.toList).Sublist
      t.toList := by
    split
    · exact List.tail_sublist _
    · exact List.Sublist.refl _
  split
  · exact (List.dropLast_sublist _).trans htail
  · exact htail

theorem within_of_mem_items {e : κ × ν} (h : e ∈ t.items lower upper excludemin excludemax) :
    Within lower upper excludemin excludemax e.1 :=
  of_decide_eq_true (List.mem_filter.mp h).2

/-- With bounds for the flags, the items are those within. -/
theorem items_eq_filter (hmin : ¬(lower = none ∧ excludemin = true))
    (hmax : ¬(upper = none ∧ excludemax = true)) :
    t.items lower upper excludemin excludemax =
      t.toList.filter fun e => decide (Within lower upper excludemin excludemax e.1) := by
  rw [items, if_neg hmin, if_neg hmax]

/-- The keys are in order. -/
theorem pairwise_lt_toList : t.toList.Pairwise fun x y => x.1 < y.1 :=
  ExtTreeMap.ordered_keys_toList.imp fun h => compare_lt_iff_lt.mp h

/-- A flag without a bound loses the first key there is. -/
theorem head_not_mem_items {e : κ × ν} {rest : List (κ × ν)} (hlist : t.toList = e :: rest)
    (hmin : lower = none ∧ excludemin = true) : ∀ x ∈ t.items lower upper excludemin excludemax,
      e.1 < x.1 := by
  intro x hx
  have hord := t.pairwise_lt_toList
  rw [hlist] at hord
  have hmem := List.mem_of_mem_filter hx
  rw [if_pos hmin, hlist, List.tail_cons] at hmem
  apply (List.pairwise_cons.mp hord).1 x
  split at hmem
  · exact List.mem_of_mem_dropLast hmem
  · exact hmem

/-- And one for the largest loses the last. -/
theorem last_not_mem_items {e : κ × ν} {front : List (κ × ν)} (hlist : t.toList = front ++ [e])
    (hmax : upper = none ∧ excludemax = true) : ∀ x ∈ t.items lower upper excludemin excludemax,
      x.1 < e.1 := by
  intro x hx
  have hord := t.pairwise_lt_toList
  rw [hlist] at hord
  have hmem := List.mem_of_mem_filter hx
  rw [if_pos hmax, hlist] at hmem
  have hfront : x ∈ front := by
    split at hmem
    · rw [← List.tail_dropLast, List.dropLast_concat] at hmem
      exact List.mem_of_mem_tail hmem
    · rwa [List.dropLast_concat] at hmem
  exact (List.pairwise_append.mp hord).2.2 x hfront e (List.mem_singleton_self e)

end Range

end BTree

namespace TreeSet

variable {κ : Type u} [Ord κ] [TransOrd κ] [LawfulEqOrd κ] (s : TreeSet κ) {k k' : κ}

theorem mem_insert : k' ∈ s.insert k ↔ k' = k ∨ k' ∈ s := by
  rw [ExtTreeSet.mem_insert, Std.compare_eq_iff_eq, eq_comm]

theorem mem_erase : k' ∈ s.erase k ↔ k' ∈ s ∧ k' ≠ k := by
  rw [ExtTreeSet.mem_erase, ne_eq, Std.compare_eq_iff_eq, eq_comm, and_comm]

theorem mem_ofList {l : List κ} [DecidableEq κ] : k ∈ ExtTreeSet.ofList l compare ↔ k ∈ l := by
  simp

omit [LawfulEqOrd κ] in
theorem size_insert_new (h : k ∉ s) : (s.insert k).size = s.size + 1 := by
  rw [ExtTreeSet.size_insert, if_neg (by simpa using h)]

omit [LawfulEqOrd κ] in
theorem size_erase_mem (h : k ∈ s) : (s.erase k).size + 1 = s.size := by
  have hpos : s.size ≠ 0 := by
    intro h0
    rw [← ExtTreeSet.eq_empty_iff_size_eq_zero] at h0
    simp [h0] at h
  rw [ExtTreeSet.size_erase, if_pos (by simpa using h)]
  omega

theorem nodup_toList : s.toList.Nodup :=
  (ExtTreeSet.distinct_toList : s.toList.Pairwise _).imp fun hne heq => hne (by simp [heq])

theorem exists_mem (h : s.isEmpty = false) : ∃ x, x ∈ s := by
  by_contra hnone
  have he : s = ∅ := ExtTreeSet.ext_mem fun x => by simpa using fun hx => hnone ⟨x, hx⟩
  simp [he] at h

end TreeSet

end Zerodb
