import Zerodb.Intid

/-!
# Queue: the indexing queue

Indexing operations wait in a queue until the transaction is committed. `optimize`
reduces the queue to one operation for every object identity (its hash, with its path
if it has one), and `process` hands what is left to the processor.

For a queue of reindex operations, `gathered_foldl` says what the loop has for an identity,
and `mem_optimize` what is left where every operation names attributes.
-/

namespace Zerodb

/-- `REINDEX`. -/
def reindexOp : ℤ := 0

/-- `INDEX`. -/
def indexOp : ℤ := 1

/-- `UNINDEX`. -/
def unindexOp : ℤ := -1

theorem reindexOp_ne_indexOp : reindexOp ≠ indexOp := by decide

/-- A queued operation on an object in `α`. -/
structure Item (α : Type) where
  /-- the operation -/
  op : ℤ
  /-- the object -/
  obj : α
  /-- the attributes, all if `None` -/
  attrs : Option (List Str)
  deriving DecidableEq

/-- What handles the operations: an `IIndexQueueProcessor` on states `σ`. -/
structure QueueProcessor (σ α : Type) where
  /-- `index` -/
  index : α → Option (List Str) → Py σ Unit
  /-- `reindex` -/
  reindex : α → Option (List Str) → Py σ Unit
  /-- `unindex` -/
  unindex : α → Py σ Unit

namespace IndexQueue

variable {α κ σ : Type} [LinearOrder α] [Ord κ] [Std.TransOrd κ]

/-! ## Reduction

The loop of `optimize` keeps a dictionary from identities to operations, and `merge` is one turn
of it. What is left at the end is sorted by the number of the operation; `REINDEX` lies between
the other two. -/

/-- The attributes of a merged operation; `None` means all of them. -/
def mergeAttrs : Option (List Str) → Option (List Str) → Option (List Str)
  | some l, some l' => some (l ++ l').dedup
  | _, _ => none

/-- One turn of the loop of `optimize`; `key` is `oid`. -/
def merge (key : α → κ) (res : BTree κ (Item α)) (it : Item α) : BTree κ (Item α) :=
  let old := res[key it.obj]?.getD ⟨reindexOp, it.obj, it.attrs⟩
  if old.op = indexOp ∧ it.op = unindexOp then res.erase (key it.obj)
  else res.insert (key it.obj) {
    op := min (max (old.op + it.op) unindexOp) indexOp
    obj := it.obj
    attrs := mergeAttrs old.attrs it.attrs }

/-- The order of `sorted(res.values())`: by operation, then by `__lt__`. -/
def le (a b : Item α) : Prop := a.op < b.op ∨ (a.op = b.op ∧ a.obj ≤ b.obj)

instance : DecidableRel (le : Item α → Item α → Prop) := fun a b =>
  inferInstanceAs (Decidable (a.op < b.op ∨ (a.op = b.op ∧ a.obj ≤ b.obj)))

/-- `optimize`. -/
def optimize (key : α → κ) (queue : List (Item α)) : List (Item α) :=
  ((queue.foldl (merge key) ∅).toList.map Prod.snd).insertionSort le

/-! ## Processing

`process` takes the queue as it is and empties it only when all has been handed over, so that an
operation that raises leaves it full. -/

/-- One operation is handed to the processor. -/
def handle (P : QueueProcessor σ α) (it : Item α) : Py σ Unit :=
  if it.op = indexOp then P.index it.obj it.attrs
  else if it.op = reindexOp then P.reindex it.obj it.attrs
  else if it.op = unindexOp then P.unindex it.obj
  else Py.raise (.invalidQueueOperation it.op)

/-- `process`, on the queue as it is. -/
def process (P : QueueProcessor σ α) (key : α → κ) (queue : List (Item α)) : Py σ Unit :=
  Py.forEach (handle P) (optimize key queue)

/-! ## One turn of the loop

A turn touches the entry of one identity, and what it leaves there depends on the entry and the
operation alone: `mergeOne`. So the loop can be followed for one identity at a time. -/

/-- What a turn of the loop of `optimize` leaves under the identity of its object. -/
def mergeOne (old : Option (Item α)) (it : Item α) : Option (Item α) :=
  let old := old.getD ⟨reindexOp, it.obj, it.attrs⟩
  if old.op = indexOp ∧ it.op = unindexOp then none
  else some {
    op := min (max (old.op + it.op) unindexOp) indexOp
    obj := it.obj
    attrs := mergeAttrs old.attrs it.attrs }

/-- A merged operation has all attributes if one of the two has, else those of both. -/
theorem mergeAttrs_eq_none {a b : Option (List Str)} :
    mergeAttrs a b = none ↔ a = none ∨ b = none := by
  cases a <;> cases b <;> simp [mergeAttrs]

theorem mem_mergeAttrs {a b : Option (List Str)} {l : List Str} (h : mergeAttrs a b = some l)
    (name : Str) : name ∈ l ↔ name ∈ a.getD [] ∨ name ∈ b.getD [] := by
  cases a with
  | none => cases h
  | some la =>
    cases b with
    | none => cases h
    | some lb =>
      rw [← Option.some.inj h, List.mem_dedup, List.mem_append]
      exact Iff.rfl

section

variable [Std.LawfulEqOrd κ] {key : α → κ} {queue : List (Item α)}

/-- What is left are the operations that the loop has for some identity. -/
theorem mem_optimize_iff {it : Item α} :
    it ∈ optimize key queue ↔ ∃ k : κ, (queue.foldl (merge key) ∅)[k]? = some it := by
  rw [optimize, List.mem_insertionSort, List.mem_map]
  refine ⟨?_, ?_⟩
  · rintro ⟨⟨k, x⟩, hmem, rfl⟩
    exact ⟨k, Std.ExtTreeMap.mem_toList_iff_getElem?_eq_some.mp hmem⟩
  · rintro ⟨k, hk⟩
    exact ⟨(k, it), Std.ExtTreeMap.mem_toList_iff_getElem?_eq_some.mpr hk, rfl⟩

variable [DecidableEq κ]

omit [LinearOrder α]

theorem get_merge (key : α → κ) (res : BTree κ (Item α)) (it : Item α) (k : κ) :
    (merge key res it)[k]? =
      if key it.obj = k then mergeOne res[key it.obj]? it else res[k]? := by
  rw [merge, mergeOne]
  by_cases hdel : (res[key it.obj]?.getD ⟨reindexOp, it.obj, it.attrs⟩).op = indexOp ∧
      it.op = unindexOp
  · simp only [if_pos hdel]
    exact BTree.get_erase _
  · simp only [if_neg hdel]
    exact BTree.get_insert _

/-- The loop keeps operations under the identities of their objects, which were queued. -/
theorem key_of_foldl {k : κ} {it : Item α} (h : (queue.foldl (merge key) ∅)[k]? = some it) :
    key it.obj = k ∧ ∃ x ∈ queue, x.obj = it.obj := by
  induction queue using List.reverseRecOn with
  | nil => simp at h
  | append_singleton queue x ih =>
    rw [List.foldl_append, List.foldl_cons, List.foldl_nil, get_merge] at h
    by_cases hk : key x.obj = k
    · rw [if_pos hk, mergeOne] at h
      split at h
      · cases h
      · rw [← Option.some.inj h]
        exact ⟨hk, x, by simp, rfl⟩
    · rw [if_neg hk] at h
      obtain ⟨hkey, y, hy, hobj⟩ := ih h
      exact ⟨hkey, y, List.mem_append_left _ hy, hobj⟩

end

/-! ## Queues of reindex operations

This is what automatic reindexing queues. Two such operations merge into one that names the
attributes of both, and one that names none is for all of them; `Gathered` is the invariant of the
loop for an identity. -/

/-- An operation as `objectAutoReindex` queues it. -/
def Reindexes (it : Item α) : Prop := it.op = reindexOp ∧ it.attrs.isSome = true

/-- The attribute is named by an operation on an object with this identity. -/
def Names (key : α → κ) (queue : List (Item α)) (k : κ) (name : Str) : Prop :=
  ∃ it ∈ queue, key it.obj = k ∧ name ∈ it.attrs.getD []

/-- What the reduction of a queue has for one identity. -/
structure Merged (key : α → κ) (queue : List (Item α)) (k : κ) (it : Item α) : Prop where
  /-- a reindex operation -/
  reindexes : Reindexes it
  /-- of an object with this identity -/
  identity : key it.obj = k
  /-- which was queued -/
  queued : ∃ it' ∈ queue, it'.obj = it.obj
  /-- with all attributes queued for the identity -/
  names : ∀ name, name ∈ it.attrs.getD [] ↔ Names key queue k name

omit [LinearOrder α] [Ord κ] [Std.TransOrd κ] in
theorem names_append {key : α → κ} {queue : List (Item α)} {it : Item α} {k : κ} {name : Str} :
    Names key (queue ++ [it]) k name ↔
      Names key queue k name ∨ (key it.obj = k ∧ name ∈ it.attrs.getD []) := by
  simp only [Names, List.mem_append, List.mem_singleton, or_and_right, exists_or, exists_eq_left]

/-- What the loop has for one identity, after reindex operations of any attributes. -/
structure Gathered (key : α → κ) (queue : List (Item α)) (k : κ) (it : Item α) : Prop where
  /-- a reindex operation -/
  op : it.op = reindexOp
  /-- of all attributes if one of those for the identity was -/
  all : it.attrs = none ↔ ∃ x ∈ queue, key x.obj = k ∧ x.attrs = none
  /-- and else of those that were queued for it -/
  names : ∀ l, it.attrs = some l → ∀ name, name ∈ l ↔ Names key queue k name

section

variable {key : α → κ} {queue : List (Item α)} {it : Item α} {k : κ}

omit [LinearOrder α] [Ord κ] [Std.TransOrd κ]

/-- An operation for another identity does not matter. -/
theorem Gathered.frame {x : Item α} (h : Gathered key queue k x) (hk : key it.obj ≠ k) :
    Gathered key (queue ++ [it]) k x := by
  refine ⟨h.op, h.all.trans ?_, fun l hl name => ?_⟩
  · simp only [List.mem_append, List.mem_singleton, or_and_right, exists_or, exists_eq_left, hk,
      false_and, or_false]
  · rw [names_append, h.names l hl]
    simp [hk]

/-- A turn for the identity. -/
theorem Gathered.snoc {old : Option (Item α)} (hold : ∀ y, old = some y → Gathered key queue k y)
    (hnone : old = none → ∀ x ∈ queue, key x.obj ≠ k) (hop : it.op = reindexOp)
    (hk : key it.obj = k) : ∃ x, mergeOne old it = some x ∧ Gathered key (queue ++ [it]) k x := by
  set y : Item α := old.getD ⟨reindexOp, it.obj, it.attrs⟩ with hy
  have hyop : y.op = reindexOp := by
    rcases old with _ | x
    · rfl
    · exact (hold x rfl).op
  have hmerge : mergeOne old it = some ⟨reindexOp, it.obj, mergeAttrs y.attrs it.attrs⟩ := by
    rw [mergeOne, ← hy, hyop, hop]
    exact if_neg fun h => absurd h.1 reindexOp_ne_indexOp
  -- without an earlier operation for the identity, the new one is merged with itself
  have hall : y.attrs = none ∨ it.attrs = none ↔
      (∃ x ∈ queue, key x.obj = k ∧ x.attrs = none) ∨ it.attrs = none := by
    rcases old with _ | x
    · have hearlier : ¬∃ x ∈ queue, key x.obj = k ∧ x.attrs = none := by
        rintro ⟨x, hx, hxk, -⟩
        exact hnone rfl x hx hxk
      rw [or_iff_right hearlier]
      exact or_self_iff
    · exact or_congr_left (hold x rfl).all
  refine ⟨_, hmerge, rfl, ?_, fun l hl name => ?_⟩
  · rw [mergeAttrs_eq_none, hall]
    simp only [List.mem_append, List.mem_singleton, or_and_right, exists_or, exists_eq_left, hk,
      true_and]
  · rw [mem_mergeAttrs hl, names_append, and_iff_right hk]
    rcases old with _ | x
    · have hearlier : ¬Names key queue k name := by
        rintro ⟨x, hx, hxk, -⟩
        exact hnone rfl x hx hxk
      rw [or_iff_right hearlier]
      exact or_self_iff
    · rcases hxl : x.attrs with _ | lx
      · have hnull : mergeAttrs y.attrs it.attrs = none := mergeAttrs_eq_none.mpr (.inl hxl)
        rw [hnull] at hl
        cases hl
      · have hnames := (hold x rfl).names lx hxl name
        have hget : y.attrs.getD [] = lx := by
          change x.attrs.getD [] = lx
          rw [hxl, Option.getD_some]
        rw [hget, hnames]

end

variable [Std.LawfulEqOrd κ] [DecidableEq κ] {key : α → κ} {queue : List (Item α)}

omit [LinearOrder α] in
/-- The loop has an operation for the identity of every object, with what is queued for it. -/
theorem gathered_foldl (h : ∀ it ∈ queue, it.op = reindexOp) :
    (∀ k it, (queue.foldl (merge key) ∅)[k]? = some it → Gathered key queue k it) ∧
      ∀ it ∈ queue, key it.obj ∈ queue.foldl (merge key) ∅ := by
  induction queue using List.reverseRecOn with
  | nil => simp
  | append_singleton queue it ih =>
    obtain ⟨ihget, ihmem⟩ := ih fun x hx => h x (List.mem_append_left _ hx)
    rw [List.foldl_append, List.foldl_cons, List.foldl_nil]
    set res := queue.foldl (merge key) ∅ with hres
    have hnone : res[key it.obj]? = none → ∀ x ∈ queue, key x.obj ≠ key it.obj := by
      intro hget x hx hk
      exact (BTree.not_mem_iff _).mpr hget (hk ▸ ihmem x hx)
    obtain ⟨x, hmerge, hx⟩ := Gathered.snoc (fun y hy => ihget _ y hy) hnone
      (h it (List.mem_append_right _ (List.mem_singleton_self it))) rfl
    have hget := get_merge key res it
    refine ⟨fun k y hy => ?_, fun y hy => ?_⟩
    · rw [hget] at hy
      by_cases hk : key it.obj = k
      · subst hk
        rw [if_pos rfl, hmerge] at hy
        cases hy
        exact hx
      · rw [if_neg hk] at hy
        exact (ihget k y hy).frame hk
    · rw [BTree.mem_iff, hget]
      by_cases hk : key it.obj = key y.obj
      · exact ⟨x, by rw [if_pos hk, hmerge]⟩
      · rw [if_neg hk, ← BTree.mem_iff]
        rcases List.mem_append.mp hy with hy | hy
        · exact ihmem y hy
        · exact absurd (by rw [List.mem_singleton.mp hy]) hk

/-- What is left for an identity. -/
theorem gathered_optimize (h : ∀ it ∈ queue, it.op = reindexOp) {it : Item α}
    (hit : it ∈ optimize key queue) :
    Gathered key queue (key it.obj) it ∧ ∃ x ∈ queue, x.obj = it.obj := by
  obtain ⟨k, hk⟩ := mem_optimize_iff.mp hit
  obtain ⟨rfl, hqueued⟩ := key_of_foldl hk
  exact ⟨(gathered_foldl h).1 _ it hk, hqueued⟩

/-- No object identity is lost. -/
theorem exists_mem_optimize (h : ∀ it ∈ queue, it.op = reindexOp) {it : Item α} (hit : it ∈ queue) :
    ∃ it' ∈ optimize key queue, key it'.obj = key it.obj := by
  have hmem : key it.obj ∈ queue.foldl (merge key) ∅ := (gathered_foldl h).2 it hit
  obtain ⟨x, hx⟩ := (BTree.mem_iff _).mp hmem
  exact ⟨x, mem_optimize_iff.mpr ⟨_, hx⟩, (key_of_foldl hx).1⟩

/-- An operation left by the reduction. -/
theorem mem_optimize (h : ∀ it ∈ queue, Reindexes it) {it : Item α}
    (hit : it ∈ optimize key queue) : Merged key queue (key it.obj) it := by
  have hops : ∀ x ∈ queue, x.op = reindexOp := fun x hx => (h x hx).1
  obtain ⟨hgathered, hqueued⟩ := gathered_optimize hops hit
  rcases hattrs : it.attrs with _ | l
  · obtain ⟨x, hx, -, hnone⟩ := hgathered.all.mp hattrs
    have hsome := (h x hx).2
    rw [hnone] at hsome
    cases hsome
  · refine ⟨⟨hgathered.op, by rw [hattrs]; rfl⟩, rfl, hqueued, fun name => ?_⟩
    rw [hattrs]
    exact hgathered.names l hattrs name

end IndexQueue

end Zerodb
