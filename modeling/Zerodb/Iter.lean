import Mathlib

/-!
# Iter: `islice` and least-recently-used caches

Two pieces of Python's libraries, over arbitrary element types.

* `every c k l` — skip `k` elements of `l`, then take every `c`-th; `islice` is that on
  a prefix of a list, and `getElem?_islice` says which element is where.
* `Lru` — a bounded map that forgets the least recently used key. `Lru.Holds P` says
  that all its entries satisfy `P`; every operation keeps it.
-/

namespace Zerodb

universe u v

variable {α : Type u}

/-! ## Slices of a list

`islice` counts positions. The element at a position of the slice is the element at `start + step
* position` of the list, if that is before the stop; all about slices follows from this one fact.
-/

/-- Skip `k` elements, then take every `c`-th (for `c` positive). -/
def every (c : ℕ) : ℕ → List α → List α
  | _, [] => []
  | 0, x :: l => x :: every c (c - 1) l
  | k + 1, _ :: l => every c k l

/-- The elements before a stop, if there is one. -/
def before (stop : Option ℕ) (l : List α) : List α :=
  match stop with
  | none => l
  | some b => l.take b

/-- The values of `islice(l, start, stop, step)`. -/
def islice (l : List α) (start : ℕ) (stop : Option ℕ) (step : ℕ) : List α :=
  every step start (before stop l)

/-- Is a position before the stop? -/
def Below (stop : Option ℕ) (i : ℕ) : Prop := ∀ b, stop = some b → i < b

instance (stop : Option ℕ) (i : ℕ) : Decidable (Below stop i) :=
  match stop with
  | none => .isTrue fun _ h => nomatch h
  | some b => decidable_of_iff (i < b) ⟨fun h _ hb => Option.some.inj hb ▸ h, fun h => h b rfl⟩

theorem getElem?_before (stop : Option ℕ) (l : List α) (i : ℕ) :
    (before stop l)[i]? = if Below stop i then l[i]? else none := by
  cases stop with
  | none => simp [before, Below]
  | some b => simp [before, Below, List.getElem?_take]

theorem getElem?_every {c : ℕ} (hc : 0 < c) (k : ℕ) (l : List α) (i : ℕ) :
    (every c k l)[i]? = l[k + i * c]? := by
  induction l generalizing k i with
  | nil => simp [every]
  | cons x l ih =>
    cases k with
    | zero =>
      cases i with
      | zero => simp [every]
      | succ i =>
        have hpos : 0 + (i + 1) * c = c - 1 + i * c + 1 := by
          rw [Nat.succ_mul]
          omega
        rw [every, List.getElem?_cons_succ, ih, hpos, List.getElem?_cons_succ]
    | succ k =>
      have hpos : k + 1 + i * c = k + i * c + 1 := by omega
      rw [every, ih, hpos, List.getElem?_cons_succ]

theorem getElem?_islice {c : ℕ} (hc : 0 < c) (l : List α) (start : ℕ) (stop : Option ℕ) (i : ℕ) :
    (islice l start stop c)[i]? = if Below stop (start + i * c) then l[start + i * c]? else none := by
  rw [islice, getElem?_every hc, getElem?_before]

/-- Skipping is dropping. -/
theorem every_add (c k m : ℕ) (l : List α) : every c (k + m) l = every c k (l.drop m) := by
  induction l generalizing m with
  | nil => simp [every]
  | cons x l ih =>
    cases m with
    | zero => rfl
    | succ m => rw [List.drop_succ_cons, ← ih]; rfl

/-- A slice of the rest is a slice of the list. -/
theorem islice_drop {c n u : ℕ} (hu : n ≤ u) (l : List α) (stop : Option ℕ)
    (hstop : ∀ b, stop = some b → n ≤ b) :
    islice (l.drop n) (u - n) (stop.map (· - n)) c = islice l u stop c := by
  have hpre : before (stop.map (· - n)) (l.drop n) = (before stop l).drop n := by
    cases stop with
    | none => rfl
    | some b => simp [before, List.drop_take]
  rw [islice, islice, hpre, ← every_add, Nat.sub_add_cancel hu]

/-- Taking everything is the identity. -/
theorem every_one (l : List α) : every 1 0 l = l := by
  induction l with
  | nil => rfl
  | cons x l ih => rw [every, ih]

/-- With step 1, a slice of a list is what is left of it between two positions. -/
theorem islice_one (l : List α) (start stop : ℕ) :
    islice l start (some stop) 1 = (l.take stop).drop start := by
  refine List.ext_getElem? fun i => ?_
  rw [getElem?_islice Nat.one_pos, Nat.mul_one, List.getElem?_drop, List.getElem?_take]
  have hbelow : Below (some stop) (start + i) ↔ start + i < stop :=
    ⟨fun h => h stop rfl, fun h b hb => Option.some.inj hb ▸ h⟩
  simp only [hbelow]

/-! ## The end of a list

Batches that were read ahead are ends of lists of what was read (`rtake`). Appending pushes
elements out at the front. -/

theorem length_rtake (n : ℕ) (l : List α) : (l.rtake n).length = min n l.length := by
  rw [List.rtake, List.length_drop]
  omega

theorem rtake_of_length_le {n : ℕ} {l : List α} (h : l.length ≤ n) : l.rtake n = l := by
  rw [List.rtake, Nat.sub_eq_zero_of_le h, List.drop_zero]

/-- What is taken from the end before more is appended need not be more than that. -/
theorem rtake_rtake_append (n : ℕ) (l m : List α) :
    (l.rtake n ++ m).rtake n = (l ++ m).rtake n := by
  have hlen := length_rtake n l
  by_cases h : l.length ≤ n
  · rw [rtake_of_length_le h]
  · have hcut : l.length - n ≤ l.length := Nat.sub_le _ _
    rw [List.rtake, List.length_append, hlen, List.rtake, ← List.drop_append_of_le_length hcut,
      List.drop_drop, List.rtake, List.length_append]
    congr 1
    omega

theorem rtake_append_of_le {n : ℕ} {m : List α} (l : List α) (h : n ≤ m.length) :
    (l ++ m).rtake n = m.rtake n := by
  rw [List.rtake, List.rtake, List.length_append, List.drop_append, List.drop_of_length_le (by omega),
    List.nil_append]
  congr 1
  omega

/-- The end of an end is at the end. -/
theorem rtake_suffix {n : ℕ} {l m : List α} (h : l <:+ m) : l.rtake n <:+ m.rtake n := by
  obtain ⟨k, rfl⟩ := h
  by_cases hn : n ≤ l.length
  · rw [rtake_append_of_le k hn]
  · rw [rtake_of_length_le (Nat.le_of_not_le hn), List.rtake, List.drop_append_of_le_length
      (by rw [List.length_append]; omega)]
    exact List.suffix_append _ _

theorem filter_ne_of_not_mem {l : List ℕ} {k : ℕ} (h : k ∉ l) : l.filter (· ≠ k) = l := by
  refine List.filter_eq_self.mpr fun j hj => ?_
  have hne : j ≠ k := fun heq => h (heq ▸ hj)
  exact decide_eq_true hne

/-! ## Least-recently-used caches

The cache is a list in the order of use, and every access moves its key to the end. What the users
of a cache need is that whatever is put in satisfies a property and that what is found does so,
too; which entries are forgotten does not matter to them. -/

/-- `cachetools.LRUCache`: the entries, least recently used first. -/
structure Lru (β : Type v) where
  /-- the most entries it may hold -/
  maxsize : ℕ
  /-- key and value, least recently used first -/
  entries : List (ℕ × β)
  deriving DecidableEq

namespace Lru

variable {β : Type v} (c : Lru β)

/-- The empty cache. -/
def empty (maxsize : ℕ) : Lru β := ⟨maxsize, []⟩

/-- The value of a key, without using it. -/
def lookup (k : ℕ) : Option β := c.entries.lookup k

/-- `key in cache`. -/
def has (k : ℕ) : Bool := (c.lookup k).isSome

/-- Use a key: it becomes the most recently used. -/
def touch (k : ℕ) : Lru β :=
  match c.lookup k with
  | none => c
  | some x => { c with entries := c.entries.filter (·.1 ≠ k) ++ [(k, x)] }

/-- `cache[key] = value`: the least recently used entries go if it is full. -/
def set (k : ℕ) (x : β) : Lru β :=
  let others := c.entries.filter (·.1 ≠ k)
  { c with entries := others.drop (others.length + 1 - c.maxsize) ++ [(k, x)] }

/-- All entries satisfy a property. -/
def Holds (P : ℕ → β → Prop) : Prop := ∀ e ∈ c.entries, P e.1 e.2

variable {c} {P : ℕ → β → Prop}

theorem mem_of_lookup {k : ℕ} {x : β} (h : c.lookup k = some x) : (k, x) ∈ c.entries := by
  obtain ⟨before, after, heq, -⟩ := List.lookup_eq_some_iff.mp h
  simp [heq]

theorem holds_empty (maxsize : ℕ) : (empty maxsize : Lru β).Holds P := fun _ he => nomatch he

theorem Holds.lookup (h : c.Holds P) {k : ℕ} {x : β} (hx : c.lookup k = some x) : P k x :=
  h _ (mem_of_lookup hx)

theorem Holds.touch (h : c.Holds P) (k : ℕ) : (c.touch k).Holds P := by
  unfold Lru.touch
  rcases hx : c.lookup k with _ | x
  · exact h
  · intro e he
    rcases List.mem_append.mp he with he | he
    · exact h e (List.mem_of_mem_filter he)
    · obtain rfl := List.mem_singleton.mp he
      exact h.lookup hx

theorem Holds.set (h : c.Holds P) {k : ℕ} {x : β} (hx : P k x) : (c.set k x).Holds P := by
  intro e he
  rcases List.mem_append.mp he with he | he
  · exact h e (List.mem_of_mem_filter (List.mem_of_mem_drop he))
  · obtain rfl := List.mem_singleton.mp he
    exact hx

theorem lookup_filter_ne (l : List (ℕ × β)) (k k' : ℕ) :
    (l.filter (·.1 ≠ k)).lookup k' = if k = k' then none else l.lookup k' := by
  induction l with
  | nil => simp
  | cons e l ih =>
    by_cases he : e.1 = k
    · rw [List.filter_cons_of_neg (by simpa using he), ih, List.lookup_cons]
      by_cases hk : k = k'
      · rw [if_pos hk, if_pos hk]
      · have hne : (k' == e.1) = false := by simp [he, Ne.symm hk]
        rw [if_neg hk, if_neg hk, hne]
    · rw [List.filter_cons_of_pos (by simpa using he), List.lookup_cons, List.lookup_cons, ih]
      by_cases hk : k = k'
      · have hne : (k' == e.1) = false := by simpa [hk] using Ne.symm (hk ▸ he)
        rw [if_pos hk, if_pos hk, hne]
      · rw [if_neg hk, if_neg hk]

/-- Using a key changes no value. -/
theorem lookup_touch (k k' : ℕ) : (c.touch k).lookup k' = c.lookup k' := by
  unfold Lru.touch
  rcases hx : c.lookup k with _ | x
  · rfl
  · change (c.entries.filter (·.1 ≠ k) ++ [(k, x)]).lookup k' = c.lookup k'
    rw [List.lookup_append, lookup_filter_ne]
    by_cases hk : k = k'
    · subst hk
      simp [hx]
    · have hne : (k' == k) = false := by simpa using Ne.symm hk
      simp [if_neg hk, List.lookup_cons, hne, Lru.lookup]

/-! ### The order of use

Where it does matter, the cache is followed by its list of keys. Using a key moves it to the
end of the list, and setting one drops keys from the front. -/

/-- The cached keys, least recently used first. -/
def keys (c : Lru β) : List ℕ := c.entries.map Prod.fst

/-- Every key is cached once, and there are no more than may be. -/
structure Tidy (c : Lru β) : Prop where
  /-- no key twice -/
  nodup : c.keys.Nodup
  /-- the bound is kept -/
  length_le : c.keys.length ≤ c.maxsize

theorem has_iff_mem_keys {k : ℕ} : c.has k = true ↔ k ∈ c.keys := by
  refine ⟨?_, ?_⟩
  · intro h
    obtain ⟨x, hx⟩ := Option.isSome_iff_exists.mp h
    exact List.mem_map.mpr ⟨_, mem_of_lookup hx, rfl⟩
  · intro h
    rcases hx : c.lookup k with _ | x
    · obtain ⟨e, he, rfl⟩ := List.mem_map.mp h
      have hne := List.lookup_eq_none_iff.mp hx e he
      simp at hne
    · rw [has, hx, Option.isSome_some]

theorem has_eq_false {k : ℕ} (h : k ∉ c.keys) : c.has k = false :=
  Bool.eq_false_iff.mpr (mt has_iff_mem_keys.mp h)

theorem lookup_eq_none {k : ℕ} (h : k ∉ c.keys) : c.lookup k = none := by
  have hhas := has_eq_false h
  rwa [has, Option.isSome_eq_false_iff, Option.isNone_iff_eq_none] at hhas

theorem keys_filter (k : ℕ) :
    (c.entries.filter (·.1 ≠ k)).map Prod.fst = c.keys.filter (· ≠ k) := by
  rw [keys, List.filter_map]
  rfl

theorem keys_touch {k : ℕ} (h : k ∈ c.keys) :
    (c.touch k).keys = c.keys.filter (· ≠ k) ++ [k] := by
  obtain ⟨x, hx⟩ := Option.isSome_iff_exists.mp (has_iff_mem_keys.mpr h)
  rw [touch, hx, keys, List.map_append, keys_filter]
  rfl

theorem keys_set (hpos : 0 < c.maxsize) (k : ℕ) (x : β) :
    (c.set k x).keys = (c.keys.filter (· ≠ k) ++ [k]).rtake c.maxsize := by
  have hlen : (c.entries.filter (·.1 ≠ k)).length = (c.keys.filter (· ≠ k)).length := by
    rw [← keys_filter, List.length_map]
  rw [set, keys, List.map_append, List.map_drop, keys_filter, hlen, List.rtake, List.length_append,
    List.length_singleton, List.drop_append_of_le_length (by omega)]
  rfl

@[simp] theorem maxsize_touch (k : ℕ) : (c.touch k).maxsize = c.maxsize := by
  unfold touch
  split <;> rfl

@[simp] theorem maxsize_set (k : ℕ) (x : β) : (c.set k x).maxsize = c.maxsize := rfl

theorem tidy_empty (maxsize : ℕ) : (empty maxsize : Lru β).Tidy :=
  ⟨List.nodup_nil, Nat.zero_le _⟩

theorem nodup_use {l : List ℕ} (h : l.Nodup) (k : ℕ) : (l.filter (· ≠ k) ++ [k]).Nodup := by
  refine List.nodup_append.mpr ⟨h.filter _, List.nodup_singleton k, fun a ha b hb heq => ?_⟩
  obtain rfl := List.mem_singleton.mp hb
  have hne := (List.mem_filter.mp ha).2
  simp [heq] at hne

theorem Tidy.touch (h : c.Tidy) (k : ℕ) : (c.touch k).Tidy := by
  by_cases hk : k ∈ c.keys
  · have hlt : (c.keys.filter (· ≠ k)).length < c.keys.length :=
      List.length_filter_lt_length_iff_exists.mpr ⟨k, hk, by simp⟩
    refine ⟨by rw [keys_touch hk]; exact nodup_use h.nodup k, ?_⟩
    rw [keys_touch hk, maxsize_touch, List.length_append, List.length_singleton]
    exact hlt.trans_le h.length_le
  · rw [Lru.touch, lookup_eq_none hk]
    exact h

theorem Tidy.set (h : c.Tidy) (hpos : 0 < c.maxsize) (k : ℕ) (x : β) : (c.set k x).Tidy := by
  have hkeys := keys_set hpos k x
  refine ⟨by rw [hkeys]; exact (nodup_use h.nodup k).sublist (List.drop_sublist _ _), ?_⟩
  rw [hkeys, maxsize_set, length_rtake]
  exact Nat.min_le_left _ _

end Lru

end Zerodb
