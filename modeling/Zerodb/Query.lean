import Zerodb.Prefetch
import Zerodb.Trees

/-!
# Query: conjunctions and disjunctions of query results

A leaf query returns a set of docids or a `Sliceable` that yields them; `And` and `Or`
test results for emptiness with `len`, which walks a `Sliceable`, and walk it again to make
a set of it. A `Sliceable` over a container that is longer than its cache cannot be walked
twice.

`Shape` says what a result is without looking at caches or iterators, and `Fine` when
evaluating a query walks no such `Sliceable` twice. `correct_iff_fine`: the docids a query
produces are the intersections and unions of those of its leaves exactly when it is fine
and its result can still be walked.
-/

namespace Zerodb

open Std

/-! ## Results

What `And` and `Or` can do with a result: ask for its length, and make a set of it. Both walk a
`Sliceable` and leave its cache and iterator changed, so that they return the result as it is
then. -/

/-- What a query returns. -/
inductive Result where
  /-- a set of docids -/
  | set : TreeSet ℤ → Result
  /-- a `Sliceable` -/
  | sliceable : Source ℤ → Sliceable ℤ → Result
  /-- a `ListPrefetch` -/
  | listPrefetch : Source ℤ → Sliceable ℤ → Result

/-- A computation that may raise, or not end. -/
abbrev Run : Type → Type := ExceptT Exc Option

namespace Result

/-- `len(result)`. -/
def len : Result → Run (ℕ × Result)
  | set s => pure (s.size, set s)
  | sliceable S s => do
    let (n, s) := Sliceable.len S s
    return (← ExceptT.mk n, sliceable S s)
  | listPrefetch S s => do
    let (n, s) := ListPrefetch.len S s
    return (← ExceptT.mk n, listPrefetch S s)

/-- What iterating over the result yields. -/
def docids : Result → Run (List ℤ)
  | set s => pure s.toList
  | sliceable S s => ExceptT.mk (Sliceable.iterateAll S s).1
  | listPrefetch S s => ExceptT.mk (ListPrefetch.iterateAll S s).1

/-- `_to_set`. -/
def toSet : Result → Run (TreeSet ℤ)
  | set s => pure s
  | sliceable S s => do return ExtTreeSet.ofList (← (sliceable S s).docids) compare
  | listPrefetch S s => do return ExtTreeSet.ofList (← (listPrefetch S s).docids) compare

end Result

/-- What the `_apply` of a leaf query returns. -/
inductive Leaf where
  /-- a set of docids -/
  | set : TreeSet ℤ → Leaf
  /-- a `Sliceable` over distinct docids -/
  | sliceable : (S : Source ℤ) → S.xs.Nodup → Leaf
  /-- a `ListPrefetch` over an iterator of distinct docids -/
  | listPrefetch : (S : Source ℤ) → S.xs.Nodup → S.container = false → Leaf

namespace Leaf

/-- The result, which nothing has used yet. -/
def result : Leaf → Result
  | set s => .set s
  | sliceable S _ => .sliceable S (Sliceable.init S)
  | listPrefetch S _ _ => .listPrefetch S (Sliceable.init S)

/-- Its docids. -/
def docids : Leaf → TreeSet ℤ
  | set s => s
  | sliceable S _ => ExtTreeSet.ofList S.xs compare
  | listPrefetch S _ _ => ExtTreeSet.ofList S.xs compare

end Leaf

/-! ## Queries

The loops of `And` and `Or` measure two results and go on with one, from left to right. -/

/-- A query, with `And` and `Or` of one operand and those that follow it. -/
inductive Query where
  /-- a leaf query -/
  | leaf : Leaf → Query
  /-- `And` -/
  | and : Query → List Query → Query
  /-- `Or` -/
  | or : Query → List Query → Query

namespace Query

mutual

/-- `_apply`. -/
def apply : Query → Run Result
  | leaf l => pure l.result
  | and q qs => do applyAnd (← q.apply) qs
  | or q qs => do applyOr (← q.apply) qs

/-- The loop of `And._apply`. -/
def applyAnd : Result → List Query → Run Result
  | result, [] => pure result
  | result, q :: qs => do
    let (n, result) ← result.len
    if n = 0 then return .set ∅
    let (m, next) ← (← q.apply).len
    if m = 0 then return .set ∅
    applyAnd (.set ((← result.toSet) ∩ (← next.toSet))) qs

/-- The loop of `Or._apply`. -/
def applyOr : Result → List Query → Run Result
  | result, [] => pure result
  | result, q :: qs => do
    let next ← q.apply
    let (n, result) ← result.len
    if n = 0 then applyOr next qs
    else
      let (m, next) ← next.len
      if 0 < m then applyOr (.set ((← result.toSet) ∪ (← next.toSet))) qs
      else applyOr result qs

end

mutual

/-- A docid is among those of the query. -/
def Has (docid : ℤ) : Query → Prop
  | leaf l => docid ∈ l.docids
  | and q qs => q.Has docid ∧ HasAll docid qs
  | or q qs => q.Has docid ∨ HasAny docid qs

/-- It is among those of all queries. -/
def HasAll (docid : ℤ) : List Query → Prop
  | [] => True
  | q :: qs => q.Has docid ∧ HasAll docid qs

/-- It is among those of some query. -/
def HasAny (docid : ℤ) : List Query → Prop
  | [] => False
  | q :: qs => q.Has docid ∨ HasAny docid qs

end

/-- **Correctness**: the result yields the docids of the query, each once. -/
def Correct (q : Query) : Prop :=
  ∃ result ds, q.apply = some (.ok result) ∧ result.docids = some (.ok ds) ∧ ds.Nodup ∧
    ∀ docid, docid ∈ ds ↔ q.Has docid

end Query

/-! ## Shapes

The state of a `Sliceable` is more than the answer to a query depends on. All that matters is
which docids it has, whether it is one that cannot be walked twice, and whether it has been
walked. That is a `Shape`; `shape` evaluates a query in shapes, and `Fine` asks on the way that no
walked one is walked again. -/

/-- A `Sliceable` that cannot be walked twice: over a container, not an iterator, that is
longer than its cache. If its length is given, `len` does not walk it. -/
def Source.Heavy (S : Source ℤ) : Prop :=
  S.container = true ∧ S.length = none ∧ S.cacheSize < S.xs.length

instance (S : Source ℤ) : Decidable S.Heavy := inferInstanceAs (Decidable (_ ∧ _))

/-- What a result is. -/
structure Shape where
  /-- its docids -/
  docids : TreeSet ℤ
  /-- is it a heavy `Sliceable`? -/
  heavy : Bool
  /-- that has been walked? -/
  walked : Bool

namespace Shape

/-- A set. -/
def set (s : TreeSet ℤ) : Shape := ⟨s, false, false⟩

/-- A result after `len`. -/
def measured (a : Shape) : Shape := { a with walked := a.heavy }

/-- What `Or` makes of two results. -/
def or (a b : Shape) : Shape :=
  if a.docids = ∅ then b else if b.docids = ∅ then a.measured else .set (a.docids ∪ b.docids)

/-- No heavy `Sliceable`, nor one that has been walked. -/
def Plain (a : Shape) : Prop := a.heavy = false ∧ a.walked = false

end Shape

namespace Leaf

/-- Is the result a heavy `Sliceable`? -/
def heavy : Leaf → Bool
  | sliceable S _ => decide S.Heavy
  | _ => false

/-- The shape of the result. -/
def shape (l : Leaf) : Shape := ⟨l.docids, l.heavy, false⟩

end Leaf

namespace Query

mutual

/-- The shape of the result. -/
def shape : Query → Shape
  | leaf l => l.shape
  | and q qs => andShape q.shape qs
  | or q qs => orShape q.shape qs

/-- The shape after the loop of `And`. -/
def andShape : Shape → List Query → Shape
  | a, [] => a
  | a, q :: qs => andShape (.set (a.docids ∩ q.shape.docids)) qs

/-- The shape after the loop of `Or`. -/
def orShape : Shape → List Query → Shape
  | a, [] => a
  | a, q :: qs => orShape (a.or q.shape) qs

end

mutual

/-- **No heavy `Sliceable` is walked twice** in the evaluation of the query. -/
def Fine : Query → Prop
  | leaf _ => True
  | and q qs => q.Fine ∧ AndFine q.shape qs
  | or q qs => q.Fine ∧ OrFine q.shape qs

/-- `And` measures two results and makes sets of them, unless one is empty. -/
def AndFine : Shape → List Query → Prop
  | _, [] => True
  | a, q :: qs => a.docids ≠ ∅ → q.Fine ∧
      (q.shape.docids ≠ ∅ → a.heavy = false ∧ q.shape.heavy = false ∧
        AndFine (.set (a.docids ∩ q.shape.docids)) qs)

/-- `Or` does so, too, unless one is empty. -/
def OrFine : Shape → List Query → Prop
  | _, [] => True
  | a, q :: qs => q.Fine ∧
      (a.docids ≠ ∅ → q.shape.docids ≠ ∅ → a.heavy = false ∧ q.shape.heavy = false) ∧
      OrFine (a.or q.shape) qs

end

end Query

/-! ## Results have their shapes

`Represents` connects results to shapes. For each thing that a query does to a result there is a
lemma that it is done to the shape, and, for results that are heavy and walked, one that it does
not end. -/

/-- A computation that does not end. -/
def Run.never {α : Type} : Run α := ExceptT.mk none

theorem Run.never_bind {α β : Type} (f : α → Run β) : (Run.never >>= f) = Run.never := rfl

namespace Result

/-- The result has the shape: it can be walked unless it is heavy and has been. -/
def Represents : Result → Shape → Prop
  | set s, a => a = .set s
  | sliceable S s, a => S.xs.Nodup ∧ (∀ docid, docid ∈ a.docids ↔ docid ∈ S.xs) ∧
      a.heavy = decide S.Heavy ∧ (a.walked = true → S.Heavy) ∧
      if a.walked = true then Sliceable.Stuck S s else Sliceable.Usable S s
  | listPrefetch S s, a => S.xs.Nodup ∧ (∀ docid, docid ∈ a.docids ↔ docid ∈ S.xs) ∧
      a.heavy = false ∧ a.walked = false ∧ S.container = false ∧
      (s = Sliceable.init S ∨ ListPrefetch.Rested S s)

end Result

theorem TreeSet.size_eq_length {s : TreeSet ℤ} {xs : List ℤ} (hnodup : xs.Nodup)
    (hmem : ∀ docid, docid ∈ s ↔ docid ∈ xs) : s.size = xs.length := by
  rw [← ExtTreeSet.length_toList]
  refine ((List.perm_ext_iff_of_nodup (TreeSet.nodup_toList s) hnodup).mpr fun docid => ?_).length_eq
  rw [ExtTreeSet.mem_toList, hmem]

theorem TreeSet.ofList_eq {s : TreeSet ℤ} {xs : List ℤ} (hmem : ∀ docid, docid ∈ s ↔ docid ∈ xs) :
    ExtTreeSet.ofList xs compare = s :=
  ExtTreeSet.ext_mem fun docid => (TreeSet.mem_ofList).trans (hmem docid).symm

theorem Leaf.represents (l : Leaf) : l.result.Represents l.shape := by
  cases l with
  | set s => rfl
  | sliceable S hnodup =>
    exact ⟨hnodup, fun _ => TreeSet.mem_ofList, rfl, Bool.noConfusion, Sliceable.usable_init S⟩
  | listPrefetch S hnodup hc =>
    exact ⟨hnodup, fun _ => TreeSet.mem_ofList, rfl, rfl, hc, .inl rfl⟩

namespace Result

variable {r : Result} {a : Shape}

/-- A first walk of a `ListPrefetch` and a later one. -/
theorem listPrefetch_walk {S : Source ℤ} {s : Sliceable ℤ} (hc : S.container = false)
    (h : s = Sliceable.init S ∨ ListPrefetch.Rested S s) :
    (ListPrefetch.iterateAll S s).1 = some (.ok S.xs) ∧
      ListPrefetch.Rested S (ListPrefetch.iterateAll S s).2 := by
  rcases h with rfl | h
  · exact ListPrefetch.iterateAll_init S
  · exact h.iterateAll hc

/-- `len` of a `Sliceable` walks it if it has to. -/
theorem sliceable_len {S : Source ℤ} {s : Sliceable ℤ} (h : Sliceable.Usable S s) :
    (Sliceable.len S s).1 = some (.ok S.xs.length) ∧
      if S.Heavy then Sliceable.Stuck S (Sliceable.len S s).2
      else Sliceable.Usable S (Sliceable.len S s).2 := by
  rcases hl : S.length with _ | n
  · rcases hit : s.iterator with rest | _
    · obtain ⟨hres, hwalked⟩ := h.iterateAll
      simp only [Sliceable.len, hl, hit, hres]
      refine ⟨rfl, ?_⟩
      split
      · rename_i hS
        exact hwalked.stuck hS.1 hS.2.2
      · rename_i hS
        exact hwalked.usable fun hc => Nat.not_lt.mp fun hlt => hS ⟨hc, hl, hlt⟩
    · have hS : ¬S.Heavy := by
        rintro ⟨-, -, hlt⟩
        have hsub : List.range S.xs.length ⊆ s.cache.keys := fun k hk =>
          Lru.has_iff_mem_keys.mp (h.iterable hit k (List.mem_range.mp hk))
        have hle := (List.nodup_range.subperm hsub).length_le
        rw [List.length_range] at hle
        have hbound := h.tidy.length_le
        rw [h.maxsize] at hbound
        omega
      simp only [Sliceable.len, hl, hit, if_neg hS]
      exact ⟨trivial, h⟩
  · obtain rfl := S.length_eq n hl
    have hS : ¬S.Heavy := fun hS => absurd (hl.symm.trans hS.2.1) (Option.some_ne_none _)
    simp only [Sliceable.len, hl, if_neg hS]
    exact ⟨trivial, h⟩

/-- `len` of a `ListPrefetch`. -/
theorem listPrefetch_len {S : Source ℤ} {s : Sliceable ℤ} (hc : S.container = false)
    (h : s = Sliceable.init S ∨ ListPrefetch.Rested S s) :
    (ListPrefetch.len S s).1 = some (.ok S.xs.length) ∧
      ((ListPrefetch.len S s).2 = Sliceable.init S ∨
        ListPrefetch.Rested S (ListPrefetch.len S s).2) := by
  rcases hl : S.length with _ | n
  · rcases hit : s.iterator with rest | _
    · obtain ⟨hres, hrested⟩ := listPrefetch_walk hc h
      simp only [ListPrefetch.len, hl, hit, hres]
      exact ⟨rfl, .inr hrested⟩
    · simp only [ListPrefetch.len, hl, hit]
      exact ⟨trivial, h⟩
  · obtain rfl := S.length_eq n hl
    simp only [ListPrefetch.len, hl]
    exact ⟨trivial, h⟩

/-- `len(result)` counts the docids, and may walk the result. -/
theorem Represents.len (h : Represents r a) :
    ∃ r', r.len = pure (a.docids.size, r') ∧ Represents r' a.measured := by
  cases r with
  | set s =>
    obtain rfl : a = .set s := h
    exact ⟨set s, rfl, rfl⟩
  | sliceable S s =>
    obtain ⟨hnodup, hmem, hheavy, hwalked, hs⟩ := h
    rw [TreeSet.size_eq_length hnodup hmem]
    by_cases hw : a.walked = true
    · -- it is stuck, and the container has a length
      rw [if_pos hw] at hs
      have hS := hwalked hw
      have hlen : Sliceable.len S s = (some (.ok S.xs.length), s) := by
        simp only [Sliceable.len, hS.2.1, hs.iterator]
      refine ⟨sliceable S s, by rw [Result.len, hlen]; rfl, hnodup, hmem, hheavy, fun _ => hS, ?_⟩
      rw [Shape.measured, hheavy, if_pos (decide_eq_true hS)]
      exact hs
    · rw [if_neg hw] at hs
      obtain ⟨hlen, hnext⟩ := sliceable_len hs
      rcases hrun : Sliceable.len S s with ⟨n, s'⟩
      rw [hrun] at hlen hnext
      obtain rfl : n = some (.ok S.xs.length) := hlen
      refine ⟨sliceable S s', by rw [Result.len, hrun]; rfl, hnodup, hmem, hheavy, ?_, ?_⟩
      · intro hm
        exact of_decide_eq_true (hheavy.symm.trans hm)
      · simpa only [Shape.measured, hheavy, decide_eq_true_eq] using hnext
  | listPrefetch S s =>
    obtain ⟨hnodup, hmem, hheavy, hwalked, hc, hs⟩ := h
    rw [TreeSet.size_eq_length hnodup hmem]
    obtain ⟨hlen, hnext⟩ := listPrefetch_len hc hs
    rcases hrun : ListPrefetch.len S s with ⟨n, s'⟩
    rw [hrun] at hlen hnext
    obtain rfl : n = some (.ok S.xs.length) := hlen
    exact ⟨listPrefetch S s', by rw [Result.len, hrun]; rfl, hnodup, hmem, hheavy, hheavy, hc, hnext⟩

/-- A result that can be walked yields its docids, each once. -/
theorem Represents.docids (h : Represents r a) (hw : a.walked = false) :
    ∃ ds, r.docids = pure ds ∧ ds.Nodup ∧ ∀ docid, docid ∈ ds ↔ docid ∈ a.docids := by
  cases r with
  | set s =>
    obtain rfl : a = .set s := h
    exact ⟨s.toList, rfl, TreeSet.nodup_toList s, fun _ => ExtTreeSet.mem_toList⟩
  | sliceable S s =>
    obtain ⟨hnodup, hmem, -, -, hs⟩ := h
    rw [if_neg (by simp [hw])] at hs
    exact ⟨S.xs, congrArg ExceptT.mk hs.iterateAll.1, hnodup, fun docid => (hmem docid).symm⟩
  | listPrefetch S s =>
    obtain ⟨hnodup, hmem, -, -, hc, hs⟩ := h
    exact ⟨S.xs, congrArg ExceptT.mk (listPrefetch_walk hc hs).1, hnodup,
      fun docid => (hmem docid).symm⟩

/-- One that cannot does not end. -/
theorem Represents.docids_walked (h : Represents r a) (hw : a.walked = true) :
    r.docids = Run.never := by
  cases r with
  | set s =>
    obtain rfl : a = .set s := h
    cases hw
  | sliceable S s =>
    obtain ⟨-, -, -, -, hs⟩ := h
    rw [if_pos hw] at hs
    exact congrArg ExceptT.mk hs.iterateAll
  | listPrefetch S s =>
    obtain ⟨-, -, -, hwalked, -⟩ := h
    rw [hwalked] at hw
    cases hw

/-- `_to_set` of a result that can be walked. -/
theorem Represents.toSet (h : Represents r a) (hw : a.walked = false) :
    r.toSet = pure a.docids := by
  obtain ⟨ds, hds, -, hmem⟩ := h.docids hw
  have hset := TreeSet.ofList_eq fun docid => (hmem docid).symm
  cases r with
  | set s =>
    obtain rfl : a = .set s := h
    rfl
  | sliceable S s => rw [Result.toSet, hds, pure_bind, hset]
  | listPrefetch S s => rw [Result.toSet, hds, pure_bind, hset]

/-- And of one that cannot. -/
theorem Represents.toSet_walked (h : Represents r a) (hw : a.walked = true) :
    r.toSet = Run.never := by
  have hds := h.docids_walked hw
  cases r with
  | set s =>
    obtain rfl : a = .set s := h
    cases hw
  | sliceable S s => rw [Result.toSet, hds, Run.never_bind]
  | listPrefetch S s => rw [Result.toSet, hds, Run.never_bind]

end Result

/-! ## Evaluation

`Computes` says of a computation both when it ends and with what. It is proved by induction over a
query and its lists of operands at once; the loops come with a result already measured, and are
lemmas of their own. -/

namespace Query

/-- The computation ends, with a result of the shape, exactly under the condition. -/
def Computes (o : Run Result) (fine : Prop) (a : Shape) : Prop :=
  (fine → ∃ r, o = pure r ∧ r.Represents a) ∧ (¬fine → o = Run.never)

theorem andShape_empty (qs : List Query) : andShape (.set ∅) qs = .set ∅ := by
  induction qs with
  | nil => rfl
  | cons q qs ih =>
    have hinter : (∅ : TreeSet ℤ) ∩ q.shape.docids = ∅ :=
      ExtTreeSet.eq_empty_iff_forall_not_mem.mpr fun docid hd =>
        absurd (ExtTreeSet.mem_inter_iff.mp hd).1 ExtTreeSet.not_mem_empty
    rw [andShape]
    change andShape (.set (∅ ∩ q.shape.docids)) qs = _
    rw [hinter, ih]

/-- An empty operand makes the whole conjunction empty. -/
theorem andShape_cons_empty {a : Shape} {q : Query} {qs : List Query}
    (h : a.docids = ∅ ∨ q.shape.docids = ∅) : andShape a (q :: qs) = .set ∅ := by
  have hinter : a.docids ∩ q.shape.docids = ∅ := by
    refine ExtTreeSet.eq_empty_iff_forall_not_mem.mpr fun docid hd => ?_
    obtain ⟨ha, hq⟩ := ExtTreeSet.mem_inter_iff.mp hd
    rcases h with h | h
    · exact absurd (h ▸ ha) ExtTreeSet.not_mem_empty
    · exact absurd (h ▸ hq) ExtTreeSet.not_mem_empty
  rw [andShape, hinter, andShape_empty]

/-- Two results that have been measured are made sets of. -/
theorem toSet_measured {r r' : Result} {a b : Shape} (hr : r.Represents a.measured)
    (hr' : r'.Represents b.measured) (f : TreeSet ℤ → TreeSet ℤ → Run Result) :
    (a.heavy = false → b.heavy = false →
      (do f (← r.toSet) (← r'.toSet)) = f a.docids b.docids) ∧
    (¬(a.heavy = false ∧ b.heavy = false) → (do f (← r.toSet) (← r'.toSet)) = Run.never) := by
  refine ⟨fun ha hb => ?_, fun hnot => ?_⟩
  · rw [hr.toSet ha, hr'.toSet hb]
    rfl
  · by_cases ha : a.heavy = false
    · have hb : b.heavy = true := by simpa using fun hb => hnot ⟨ha, hb⟩
      rw [hr.toSet ha, hr'.toSet_walked hb]
      rfl
    · rw [hr.toSet_walked (by simpa [Shape.measured] using ha)]
      rfl

theorem applyAnd_computes (qs : List Query) (hqs : ∀ q ∈ qs, Computes q.apply q.Fine q.shape)
    {r : Result} {a : Shape} (hr : r.Represents a) :
    Computes (applyAnd r qs) (AndFine a qs) (andShape a qs) := by
  induction qs generalizing r a with
  | nil => exact ⟨fun _ => ⟨r, rfl, hr⟩, fun h => absurd trivial h⟩
  | cons q qs ih =>
    obtain ⟨hq, hqs⟩ := List.forall_mem_cons.mp hqs
    obtain ⟨r₁, hlen, hr₁⟩ := hr.len
    rw [applyAnd, hlen, pure_bind, AndFine]
    by_cases ha : a.docids = ∅
    · -- the result is empty
      rw [andShape_cons_empty (.inl ha)]
      simp only [ha, ExtTreeSet.size_empty, if_true]
      exact ⟨fun _ => ⟨_, rfl, rfl⟩, fun h => absurd (fun hne => absurd rfl hne) h⟩
    · have hsize : a.docids.size ≠ 0 := mt ExtTreeSet.eq_empty_iff_size_eq_zero.mpr ha
      simp only [if_neg hsize, ne_eq, ha, not_false_eq_true, true_implies]
      by_cases hfine : q.Fine
      · obtain ⟨next, happly, hnext⟩ := hq.1 hfine
        obtain ⟨next₁, hlen', hnext₁⟩ := hnext.len
        rw [happly, pure_bind, hlen', pure_bind]
        by_cases hb : q.shape.docids = ∅
        · -- the next result is empty
          rw [andShape_cons_empty (.inr hb)]
          simp only [hb, ExtTreeSet.size_empty, if_true]
          exact ⟨fun _ => ⟨_, rfl, rfl⟩, fun h => absurd ⟨hfine, fun hne => absurd trivial hne⟩ h⟩
        · have hsize' : q.shape.docids.size ≠ 0 := mt ExtTreeSet.eq_empty_iff_size_eq_zero.mpr hb
          obtain ⟨hsets, hnever⟩ := toSet_measured hr₁ hnext₁
            fun s t => applyAnd (.set (s ∩ t)) qs
          simp only [if_neg hsize', hb, not_false_eq_true, true_implies, andShape]
          obtain ⟨hdone, hrest⟩ := ih hqs (show (Result.set (a.docids ∩ q.shape.docids)).Represents
            (.set (a.docids ∩ q.shape.docids)) from rfl)
          refine ⟨fun hall => ?_, fun hnot => ?_⟩
          · obtain ⟨-, ha', hb', hqs'⟩ := hall
            rw [hsets ha' hb']
            exact hdone hqs'
          · by_cases hheavy : a.heavy = false ∧ q.shape.heavy = false
            · rw [hsets hheavy.1 hheavy.2]
              exact hrest fun hqs' => hnot ⟨hfine, hheavy.1, hheavy.2, hqs'⟩
            · exact hnever hheavy
      · rw [hq.2 hfine]
        exact ⟨fun hall => absurd hall.1 hfine, fun _ => rfl⟩

theorem applyOr_computes (qs : List Query) (hqs : ∀ q ∈ qs, Computes q.apply q.Fine q.shape)
    {r : Result} {a : Shape} (hr : r.Represents a) :
    Computes (applyOr r qs) (OrFine a qs) (orShape a qs) := by
  induction qs generalizing r a with
  | nil => exact ⟨fun _ => ⟨r, rfl, hr⟩, fun h => absurd trivial h⟩
  | cons q qs ih =>
    obtain ⟨hq, hqs⟩ := List.forall_mem_cons.mp hqs
    rw [applyOr, OrFine, orShape]
    by_cases hfine : q.Fine
    · obtain ⟨next, happly, hnext⟩ := hq.1 hfine
      obtain ⟨r₁, hlen, hr₁⟩ := hr.len
      rw [happly, pure_bind, hlen, pure_bind]
      simp only [hfine, true_and]
      by_cases ha : a.docids = ∅
      · -- the next result takes the place of an empty one
        simp only [Shape.or, ha, ExtTreeSet.size_empty, if_true, ne_eq, not_true_eq_false,
          false_implies, true_and]
        exact ih hqs hnext
      · have hsize : a.docids.size ≠ 0 := mt ExtTreeSet.eq_empty_iff_size_eq_zero.mpr ha
        obtain ⟨next₁, hlen', hnext₁⟩ := hnext.len
        simp only [Shape.or, if_neg hsize, if_neg ha, hlen', pure_bind]
        by_cases hb : q.shape.docids = ∅
        · simp only [hb, ExtTreeSet.size_empty, Nat.lt_irrefl, if_false, if_true, ne_eq,
            not_true_eq_false, false_implies, implies_true, true_and]
          exact ih hqs hr₁
        · have hsize' : 0 < q.shape.docids.size :=
            Nat.pos_of_ne_zero (mt ExtTreeSet.eq_empty_iff_size_eq_zero.mpr hb)
          obtain ⟨hsets, hnever⟩ := toSet_measured hr₁ hnext₁
            fun s t => applyOr (.set (s ∪ t)) qs
          simp only [if_pos hsize', ne_eq, ha, hb, not_false_eq_true, true_implies]
          obtain ⟨hdone, hrest⟩ := ih hqs (show (Result.set (a.docids ∪ q.shape.docids)).Represents
            (.set (a.docids ∪ q.shape.docids)) from rfl)
          refine ⟨fun hall => ?_, fun hnot => ?_⟩
          · obtain ⟨⟨ha', hb'⟩, hqs'⟩ := hall
            rw [hsets ha' hb']
            exact hdone hqs'
          · by_cases hheavy : a.heavy = false ∧ q.shape.heavy = false
            · rw [hsets hheavy.1 hheavy.2]
              exact hrest fun hqs' => hnot ⟨hheavy, hqs'⟩
            · exact hnever hheavy
    · rw [hq.2 hfine]
      exact ⟨fun hall => absurd hall.1 hfine, fun _ => rfl⟩

/-- Induction over a query and the lists of its operands. -/
@[elab_as_elim]
theorem induct {P : Query → Prop} (leaf : ∀ l, P (leaf l))
    (and : ∀ q qs, P q → (∀ q' ∈ qs, P q') → P (and q qs))
    (or : ∀ q qs, P q → (∀ q' ∈ qs, P q') → P (or q qs)) (q : Query) : P q :=
  @Query.rec P (fun qs => ∀ q ∈ qs, P q) leaf and or
    (fun _ hq => absurd hq List.not_mem_nil)
    (fun _ _ hq hqs => List.forall_mem_cons.mpr ⟨hq, hqs⟩) q

/-- **Evaluation**: a query gives a result of its shape exactly when it is fine. -/
theorem apply_computes (q : Query) : Computes q.apply q.Fine q.shape := by
  have hloop : ∀ {q : Query} {loop : Result → Run Result} {fine : Prop} {a : Shape},
      Computes q.apply q.Fine q.shape →
      (∀ r : Result, r.Represents q.shape → Computes (loop r) fine a) →
      Computes (q.apply >>= loop) (q.Fine ∧ fine) a := by
    intro q loop fine a hq hrest
    by_cases hfine : q.Fine
    · obtain ⟨r, happly, hr⟩ := hq.1 hfine
      rw [happly, pure_bind]
      simpa only [hfine, true_and] using hrest r hr
    · rw [hq.2 hfine]
      exact ⟨fun hall => absurd hall.1 hfine, fun _ => rfl⟩
  induction q using Query.induct with
  | leaf l => exact ⟨fun _ => ⟨_, rfl, l.represents⟩, fun h => absurd trivial h⟩
  | and q qs hq hqs =>
    rw [apply, Fine, shape]
    exact hloop hq fun r hr => applyAnd_computes qs hqs hr
  | or q qs hq hqs =>
    rw [apply, Fine, shape]
    exact hloop hq fun r hr => applyOr_computes qs hqs hr

/-! ## The docids of a query

What remains is about shapes only: the docids of the shape of a query are the intersections and
unions of those of its leaves, and a result yields them if it can still be walked. -/

theorem docids_or (a b : Shape) (docid : ℤ) :
    docid ∈ (a.or b).docids ↔ docid ∈ a.docids ∨ docid ∈ b.docids := by
  rw [Shape.or]
  by_cases ha : a.docids = ∅
  · simp [ha]
  · by_cases hb : b.docids = ∅
    · simp [ha, hb, Shape.measured]
    · rw [if_neg ha, if_neg hb]
      exact ExtTreeSet.mem_union_iff

theorem docids_andShape (docid : ℤ) (qs : List Query)
    (hqs : ∀ q ∈ qs, (docid ∈ q.shape.docids ↔ q.Has docid)) (a : Shape) :
    docid ∈ (andShape a qs).docids ↔ docid ∈ a.docids ∧ HasAll docid qs := by
  induction qs generalizing a with
  | nil => simp [andShape, HasAll]
  | cons q qs ih =>
    obtain ⟨hq, hqs⟩ := List.forall_mem_cons.mp hqs
    rw [andShape, ih hqs, HasAll, ← hq, ← and_assoc]
    exact and_congr_left fun _ => ExtTreeSet.mem_inter_iff

theorem docids_orShape (docid : ℤ) (qs : List Query)
    (hqs : ∀ q ∈ qs, (docid ∈ q.shape.docids ↔ q.Has docid)) (a : Shape) :
    docid ∈ (orShape a qs).docids ↔ docid ∈ a.docids ∨ HasAny docid qs := by
  induction qs generalizing a with
  | nil => simp [orShape, HasAny]
  | cons q qs ih =>
    obtain ⟨hq, hqs⟩ := List.forall_mem_cons.mp hqs
    rw [orShape, ih hqs, HasAny, docids_or, hq, or_assoc]

/-- The docids of the shape are those of the query. -/
theorem docids_shape (docid : ℤ) (q : Query) : docid ∈ q.shape.docids ↔ q.Has docid := by
  induction q using Query.induct with
  | leaf l =>
    rw [shape, Has]
    rfl
  | and q qs hq hqs => rw [shape, Has, docids_andShape docid qs hqs, hq]
  | or q qs hq hqs => rw [shape, Has, docids_orShape docid qs hqs, hq]

/-- A fine query whose result can be walked produces its docids. -/
theorem correct_of_fine {q : Query} (hfine : q.Fine) (hw : q.shape.walked = false) : q.Correct := by
  obtain ⟨r, happly, hr⟩ := q.apply_computes.1 hfine
  obtain ⟨ds, hds, hnodup, hmem⟩ := hr.docids hw
  exact ⟨r, ds, happly, hds, hnodup, fun docid => (hmem docid).trans (docids_shape docid q)⟩

/-- **Boolean queries**: the docids that a nesting of `And` and `Or` produces are exactly the
intersections and unions of those of its leaves if and only if no heavy `Sliceable` is
walked twice, neither in the evaluation nor by whoever reads the result. -/
theorem correct_iff_fine (q : Query) : q.Correct ↔ q.Fine ∧ q.shape.walked = false := by
  refine ⟨?_, fun h => correct_of_fine h.1 h.2⟩
  obtain ⟨hdone, hnever⟩ := q.apply_computes
  rintro ⟨r, ds, happly, hds, -⟩
  have hfine : q.Fine := by
    by_contra hnot
    exact absurd ((hnever hnot).symm.trans happly) (Option.some_ne_none _).symm
  obtain ⟨r', happly', hr⟩ := hdone hfine
  obtain rfl : r' = r := Except.ok.inj (Option.some.inj (happly'.symm.trans happly))
  refine ⟨hfine, ?_⟩
  by_contra hw
  have hend := hr.docids_walked (Bool.not_eq_false _ ▸ hw)
  exact absurd (hend.symm.trans hds) (Option.some_ne_none _).symm

/-! ## Queries without heavy leaves

Where every `Sliceable` is over an iterator, has a length or fits in its cache, no result is ever
heavy, so that there is nothing to be `Fine` about: `Plain` is kept by both loops. -/

mutual

/-- No leaf is a heavy `Sliceable`. -/
def Light : Query → Prop
  | leaf l => l.heavy = false
  | and q qs => q.Light ∧ LightAll qs
  | or q qs => q.Light ∧ LightAll qs

/-- Nor one of any of the queries. -/
def LightAll : List Query → Prop
  | [] => True
  | q :: qs => q.Light ∧ LightAll qs

end

theorem lightAll_iff (qs : List Query) : LightAll qs ↔ ∀ q ∈ qs, q.Light := by
  induction qs with
  | nil => simp [LightAll]
  | cons q qs ih => rw [LightAll, ih, List.forall_mem_cons]

theorem plain_or {a b : Shape} (ha : a.Plain) (hb : b.Plain) : (a.or b).Plain := by
  rw [Shape.or]
  split
  · exact hb
  · split
    · exact ⟨ha.1, ha.1⟩
    · exact ⟨rfl, rfl⟩

theorem andFine_of_plain (qs : List Query)
    (hqs : ∀ q ∈ qs, q.Fine ∧ q.shape.Plain) {a : Shape} (ha : a.Plain) :
    AndFine a qs ∧ (andShape a qs).Plain := by
  induction qs generalizing a with
  | nil => exact ⟨trivial, ha⟩
  | cons q qs ih =>
    obtain ⟨⟨hfine, hq⟩, hqs⟩ := List.forall_mem_cons.mp hqs
    obtain ⟨hrest, hplain⟩ := @ih hqs (.set (a.docids ∩ q.shape.docids)) ⟨rfl, rfl⟩
    exact ⟨fun _ => ⟨hfine, fun _ => ⟨ha.1, hq.1, hrest⟩⟩, hplain⟩

theorem orFine_of_plain (qs : List Query)
    (hqs : ∀ q ∈ qs, q.Fine ∧ q.shape.Plain) {a : Shape} (ha : a.Plain) :
    OrFine a qs ∧ (orShape a qs).Plain := by
  induction qs generalizing a with
  | nil => exact ⟨trivial, ha⟩
  | cons q qs ih =>
    obtain ⟨⟨hfine, hq⟩, hqs⟩ := List.forall_mem_cons.mp hqs
    obtain ⟨hrest, hplain⟩ := ih hqs (plain_or ha hq)
    exact ⟨⟨hfine, fun _ _ => ⟨ha.1, hq.1⟩, hrest⟩, hplain⟩

/-- A query whose `Sliceable`s are over iterators, have a length or fit in their caches is
fine, and so is its result. -/
theorem fine_of_light (q : Query) : q.Light → q.Fine ∧ q.shape.Plain := by
  induction q using Query.induct with
  | leaf l =>
    intro h
    exact ⟨trivial, h, rfl⟩
  | and q qs hq hqs =>
    rintro ⟨hlight, hall⟩
    obtain ⟨hfine, hplain⟩ := hq hlight
    obtain ⟨hrest, hshape⟩ := andFine_of_plain qs
      (fun q' hq' => hqs q' hq' ((lightAll_iff qs).mp hall q' hq')) hplain
    exact ⟨⟨hfine, hrest⟩, hshape⟩
  | or q qs hq hqs =>
    rintro ⟨hlight, hall⟩
    obtain ⟨hfine, hplain⟩ := hq hlight
    obtain ⟨hrest, hshape⟩ := orFine_of_plain qs
      (fun q' hq' => hqs q' hq' ((lightAll_iff qs).mp hall q' hq')) hplain
    exact ⟨⟨hfine, hrest⟩, hshape⟩

/-- So it produces its docids. -/
theorem correct_of_light {q : Query} (h : q.Light) : q.Correct :=
  correct_of_fine (fine_of_light q h).1 (fine_of_light q h).2.2

/-- Three docids in a list, with a cache for two. -/
def threeDocids : Source ℤ where
  xs := [10, 20, 30]
  container := true
  cacheSize := 2
  cacheSize_pos := Nat.two_pos
  length := none
  length_eq n h := absurd h.symm (Option.some_ne_none n)

/-- In a conjunction the list is walked by `len`, and then without end. -/
theorem conjunction_endless :
    ¬(and (leaf (.sliceable threeDocids (by decide))) [leaf (.set ((∅ : TreeSet ℤ).insert 10))]).Correct := by
  rintro ⟨r, ds, happly, -⟩
  have hnever : (and (leaf (.sliceable threeDocids (by decide)))
      [leaf (.set ((∅ : TreeSet ℤ).insert 10))]).apply = Run.never := by rfl
  exact absurd (hnever.symm.trans happly) (Option.some_ne_none _).symm

end Query

end Zerodb
