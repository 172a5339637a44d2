import Zerodb.FieldScan

/-!
# FieldPresence: which documents a field index has, and where

A document that is indexed with a value is in the reverse and the forward index; one that
is indexed without a value is in `_not_indexed`; one that is unindexed is in neither. The
calls are followed with a record of what each document was indexed with last, which is no
part of the program.

* `valueOf` — what `index_doc` takes for the value of an object;
* `Partition` — the documents are where the record says;
* `partition_iff_tidy` — for which calls they are: none has the empty tuple for a value, and
  a document that has lost its attribute is taken out of a tree set.
-/

namespace Zerodb

open Std

namespace CatalogFieldIndex

variable {V : Type} [PyValue V]

/-! ## Objects

What the index takes for the value of an object depends on the discriminator: an attribute that
may be missing, or a function that computes the value. The result is a value or the marker. -/

/-- What an object has for the discriminator of an index. -/
structure Document (V : Type) where
  /-- `getattr(obj, discriminator)`, if there is such an attribute -/
  attr : Option V
  /-- the virtual field of that name, if its class has one, called with the object -/
  virtual : Option (Except Exc V)

/-- The value `index_doc` finds; the discriminator is callable if it names a virtual field. -/
def valueOf (discriminatorCallable : Bool) (obj : Document V) : V :=
  if discriminatorCallable then
    match obj.virtual with
    | none => marker
    | some (.error _) => marker
    | some (.ok value) => value
  else obj.attr.getD marker

/-- The value the object has. -/
def present (discriminatorCallable : Bool) (obj : Document V) : Option V :=
  if discriminatorCallable then obj.virtual.bind Except.toOption else obj.attr

theorem valueOf_eq (discriminatorCallable : Bool) (obj : Document V) :
    valueOf discriminatorCallable obj = (present discriminatorCallable obj).getD marker := by
  cases discriminatorCallable with
  | false => rfl
  | true =>
    rcases hv : obj.virtual with _ | (e | value) <;>
      simp [valueOf, present, hv, Except.toOption]

/-! ## Following the calls

The record of the last call for each document is kept beside the index. Against it one can say
where a document should be; the index alone does not know whether a document that it does not have
was ever passed to it. -/

/-- An index with the record of its documents: whether each is indexed, and its value. -/
structure Followed (V : Type) [PyValue V] where
  /-- the index -/
  index : CatalogFieldIndex V
  /-- what each document was indexed with last -/
  last : ℤ → Option (Option V)

/-- A call on the index. -/
inductive Request (V : Type) where
  /-- `index_doc(docid, obj)` -/
  | indexDoc : ℤ → Document V → Request V
  /-- `unindex_doc(docid)` -/
  | unindexDoc : ℤ → Request V

/-- The calls, followed. -/
def followed (discriminatorCallable : Bool) :
    Machine (Followed V) (Request V) (Except Exc Unit)
  | s, .indexDoc docid obj =>
    let (result, ix) := indexDoc docid (valueOf discriminatorCallable obj) s.index
    (result, ⟨ix, Function.update s.last docid (some (present discriminatorCallable obj))⟩)
  | s, .unindexDoc docid =>
    (.ok (), ⟨s.index.unindexDoc docid, Function.update s.last docid none⟩)

/-- A document is in neither index. -/
def Absent (ix : CatalogFieldIndex V) (docid : ℤ) : Prop :=
  docid ∉ ix.revIndex ∧ ∀ (value : V) (ds : Docs), ix.fwdIndex[value]? = some ds → docid ∉ ds

/-- A document is in both indexes, under a value and no other. -/
structure Under (ix : CatalogFieldIndex V) (docid : ℤ) (value : V) : Prop where
  /-- in the reverse index -/
  rev : ix.revIndex[docid]? = some value
  /-- in the forward index -/
  fwd : ∃ ds, ix.fwdIndex[value]? = some ds ∧ docid ∈ ds
  /-- there only -/
  only : ∀ (v : V) (ds : Docs), ix.fwdIndex[v]? = some ds → docid ∈ ds → v = value

/-- **The documents are where they should be.** -/
structure Partition (s : Followed V) : Prop where
  /-- those indexed last with a value -/
  valued : ∀ docid value, s.last docid = some (some value) →
    Under s.index docid value ∧ docid ∉ s.index.notIndexed
  /-- those indexed last without one -/
  unvalued : ∀ docid, s.last docid = some none →
    docid ∈ s.index.notIndexed ∧ Absent s.index docid
  /-- those not indexed -/
  unindexed : ∀ docid, s.last docid = none →
    docid ∉ s.index.notIndexed ∧ Absent s.index docid

/-- A call completes and leaves the documents where they should be. -/
def Placed (discriminatorCallable : Bool) (s : Followed V) (request : Request V) : Prop :=
  (followed discriminatorCallable s request).1 = .ok () ∧
    Partition (followed discriminatorCallable s request).2

/-- The condition for that: a value is not the empty tuple (and not one that is refused); an
object without a value is that of a document without a value, or in a tree set. -/
def Tidy (discriminatorCallable : Bool) (s : Followed V) : Request V → Prop
  | .indexDoc docid obj =>
    match present discriminatorCallable obj with
    | some value => value ≠ PyValue.emptyTuple ∧ PyValue.persistent value = false ∧
        PyValue.broken value = false
    | none => ∀ old ∈ s.index.revIndex[docid]?, ∀ ds ∈ s.index.fwdIndex[old]?,
        isTreeSet ds = true
  | .unindexDoc _ => True

/-! ## One call

A tidy call ends with the document where it should be. A call that is not tidy raises in the
middle, or puts a document under the marker, and there is a case for each: the record and the
index then disagree on that document. -/

/-- What the calls keep: the invariants of the index, and the record. -/
structure Recorded (s : Followed V) : Prop where
  /-- the representation invariant, without the marker -/
  proper : Proper s.index
  /-- the reverse index has the values recorded -/
  rev : ∀ docid : ℤ, s.index.revIndex[docid]? = (s.last docid).join
  /-- and `_not_indexed` the documents without one -/
  not : ∀ docid : ℤ, docid ∈ s.index.notIndexed ↔ s.last docid = some none

/-- Under the invariants a document without a reverse entry is in no forward entry. -/
theorem Proper.absent {ix : CatalogFieldIndex V} (h : Proper ix) {docid : ℤ}
    (hnone : ix.revIndex[docid]? = none) : Absent ix docid := by
  refine ⟨(BTree.not_mem_iff _).mpr hnone, fun value ds hds hd => ?_⟩
  rw [h.rep.mem_rev hds hd] at hnone
  cases hnone

theorem Proper.under {ix : CatalogFieldIndex V} (h : Proper ix) {docid : ℤ} {value : V}
    (hvalue : ix.revIndex[docid]? = some value) : Under ix docid value := by
  refine ⟨hvalue, (h.rep.mem_iff docid value).mp hvalue, fun v ds hds hd => ?_⟩
  rw [h.rep.mem_rev hds hd] at hvalue
  exact Option.some.inj hvalue

theorem Recorded.partition {s : Followed V} (h : Recorded s) : Partition s := by
  refine ⟨fun docid value hlast => ⟨h.proper.under ?_, ?_⟩,
    fun docid hlast => ⟨?_, h.proper.absent ?_⟩,
    fun docid hlast => ⟨?_, h.proper.absent ?_⟩⟩
  · rw [h.rev, hlast]
    rfl
  · rw [h.not, hlast]
    simp
  · exact (h.not docid).mpr hlast
  · rw [h.rev, hlast]
    rfl
  · rw [h.not, hlast]
    simp
  · rw [h.rev, hlast]
    rfl

/-- `inner_index_doc` leaves `_not_indexed` alone, where the document is not in it. -/
theorem mem_innerIndexDoc_notIndexed {ix : CatalogFieldIndex V} (h : Rep ix) {docid : ℤ}
    (hnot : docid ∉ ix.notIndexed) (value : V) (d : ℤ) :
    d ∈ (ix.innerIndexDoc docid value).notIndexed ↔ d ∈ ix.notIndexed := by
  by_cases heq : ix.revIndex[docid]? = some value
  · rw [innerIndexDoc_of_eq h heq]
  · rw [innerIndexDoc_of_ne h heq]
    by_cases hmem : docid ∈ ix.revIndex
    · rw [if_pos hmem]
      change d ∈ (ix.unindexDoc docid).notIndexed ↔ _
      rw [unindexDoc_notIndexed, TreeSet.mem_erase]
      refine and_iff_left_of_imp ?_
      rintro hd rfl
      exact hnot hd
    · rw [if_neg hmem]
      exact Iff.rfl

/-- `index_doc` with a value that is taken. -/
theorem indexDoc_apply {ix : CatalogFieldIndex V} {docid : ℤ} {value : V} (hv : value ≠ marker)
    (hp : PyValue.persistent value = false) (hb : PyValue.broken value = false) :
    indexDoc docid value ix =
      (.ok (), { ix with notIndexed := ix.notIndexed.erase docid }.innerIndexDoc docid value) := by
  have hcheck : checkValue value ix = (.ok (), ix) := by
    rw [checkValue, if_neg (by rw [hp]; exact Bool.false_ne_true),
      if_neg (by rw [hb]; exact Bool.false_ne_true)]
    rfl
  rw [indexDoc, if_neg hv, Py.bind_of_ok hcheck]
  rfl

/-- `index_doc` without a value, where zope.index's `unindex_doc` returns. -/
theorem Proper.indexDoc_marker {ix : CatalogFieldIndex V} (h : Proper ix) {docid : ℤ}
    (hok : (superUnindexDoc docid ix).1 = .ok ()) :
    indexDoc docid marker ix =
      (.ok (), { ix.unindexDoc docid with notIndexed := ix.notIndexed.insert docid }) := by
  have hrun : superUnindexDoc docid ix =
      (.ok (), { ix.unindexDoc docid with notIndexed := ix.notIndexed }) := by
    rcases hsuper : superUnindexDoc docid ix with ⟨result, ix'⟩
    rw [hsuper] at hok
    obtain rfl : result = .ok () := hok
    rw [superUnindexDoc_ok h hsuper]
  rw [indexDoc, if_pos rfl, Py.bind_of_ok hrun]
  rfl

/-- It raises where the value of the document has an entry that is no tree set, and has then
taken the document out of the reverse index only. -/
theorem superUnindexDoc_raises {ix : CatalogFieldIndex V} {docid : ℤ} {old : V} {ds : Docs}
    (hold : ix.revIndex[docid]? = some old) (hds : ix.fwdIndex[old]? = some ds)
    (hset : isTreeSet ds = false) :
    ∃ e, superUnindexDoc docid ix = (.error e, { ix with revIndex := ix.revIndex.erase docid }) := by
  have hentry : ∃ e, ∀ ix' : CatalogFieldIndex V, ix'.fwdIndex[old]? = some ds →
      removeEntry docid old ix' = (.error e, ix') := by
    cases ds with
    | int k =>
      refine ⟨.attributeError "'int' object has no attribute 'remove'", fun ix' hds => ?_⟩
      rw [removeEntry, Py.get_bind_apply, hds]
      rfl
    | tuple l =>
      refine ⟨.attributeError "'tuple' object has no attribute 'remove'", fun ix' hds => ?_⟩
      rw [removeEntry, Py.get_bind_apply, hds]
      rfl
    | treeSet t => cases hset
  obtain ⟨e, hentry⟩ := hentry
  have hraise := hentry { ix with revIndex := ix.revIndex.erase docid } hds
  refine ⟨e, ?_⟩
  rw [superUnindexDoc, Py.get_bind_apply, hold]
  simp only
  rw [Py.modify_bind_apply, Py.bind_of_error hraise]

/-- And so does `index_doc` without a value. -/
theorem indexDoc_raises {ix : CatalogFieldIndex V} {docid : ℤ} {old : V} {ds : Docs}
    (hold : ix.revIndex[docid]? = some old) (hds : ix.fwdIndex[old]? = some ds)
    (hset : isTreeSet ds = false) :
    ∃ e, indexDoc docid marker ix =
      (.error e, { ix with revIndex := ix.revIndex.erase docid }) := by
  obtain ⟨e, hrun⟩ := superUnindexDoc_raises hold hds hset
  exact ⟨e, by rw [indexDoc, if_pos rfl, Py.bind_of_error hrun]⟩

/-- `index_doc` refuses persistent and broken values. -/
theorem indexDoc_refused {ix : CatalogFieldIndex V} {docid : ℤ} {value : V} (hv : value ≠ marker)
    (h : PyValue.persistent value = true ∨ PyValue.broken value = true) :
    ∃ e, indexDoc docid value ix = (.error e, ix) := by
  have hcheck : ∃ e, checkValue value ix = (.error e, ix) := by
    rw [checkValue]
    by_cases hp : PyValue.persistent value = true
    · rw [if_pos hp]
      exact ⟨_, rfl⟩
    · rw [if_neg hp, if_pos (h.resolve_left hp)]
      exact ⟨_, rfl⟩
  obtain ⟨e, hcheck⟩ := hcheck
  exact ⟨e, by rw [indexDoc, if_neg hv, Py.bind_of_error hcheck]⟩

namespace Recorded

variable {discriminatorCallable : Bool} {s : Followed V} {docid : ℤ} {obj : Document V}

theorem empty : Recorded (⟨.empty, fun _ => none⟩ : Followed V) :=
  ⟨proper_empty, fun docid => by simp [CatalogFieldIndex.empty],
    fun docid => by simp [CatalogFieldIndex.empty]⟩

/-- An object with a value. -/
theorem indexDoc_value (h : Recorded s) {value : V}
    (hpresent : present discriminatorCallable obj = some value) (hv : value ≠ PyValue.emptyTuple)
    (hp : PyValue.persistent value = false) (hb : PyValue.broken value = false) :
    (followed discriminatorCallable s (.indexDoc docid obj)).1 = .ok () ∧
      Recorded (followed discriminatorCallable s (.indexDoc docid obj)).2 := by
  have hvalue : valueOf discriminatorCallable obj = value := by rw [valueOf_eq, hpresent]; rfl
  have hproper := h.proper.notIndexed (s.index.notIndexed.erase docid)
  have hnot : docid ∉ s.index.notIndexed.erase docid := by simp
  rw [followed, hvalue, indexDoc_apply hv hp hb]
  refine ⟨rfl, hproper.innerIndexDoc hv docid, fun d => ?_, fun d => ?_⟩
  · simp only
    rw [hproper.innerIndexDoc_rev]
    by_cases hd : docid = d
    · rw [if_pos hd, ← hd, Function.update_self, hpresent]
      rfl
    · rw [if_neg hd, Function.update_of_ne (Ne.symm hd), h.rev]
  · simp only
    rw [mem_innerIndexDoc_notIndexed hproper.rep hnot, TreeSet.mem_erase, h.not]
    by_cases hd : d = docid
    · subst hd
      simp [hpresent]
    · simp [hd]

/-- An object without a value, whose document is not there or in a tree set. -/
theorem indexDoc_none (h : Recorded s) (hpresent : present discriminatorCallable obj = none)
    (hok : (superUnindexDoc docid s.index).1 = .ok ()) :
    (followed discriminatorCallable s (.indexDoc docid obj)).1 = .ok () ∧
      Recorded (followed discriminatorCallable s (.indexDoc docid obj)).2 := by
  have hvalue : valueOf discriminatorCallable obj = marker := by rw [valueOf_eq, hpresent]; rfl
  rw [followed, hvalue, h.proper.indexDoc_marker hok]
  refine ⟨rfl, (h.proper.unindexDoc docid).notIndexed _, fun d => ?_, fun d => ?_⟩
  · simp only
    rw [h.proper.unindexDoc_rev]
    by_cases hd : docid = d
    · rw [if_pos hd, ← hd, Function.update_self, hpresent]
      rfl
    · rw [if_neg hd, Function.update_of_ne (Ne.symm hd), h.rev]
  · simp only
    rw [TreeSet.mem_insert, h.not]
    by_cases hd : d = docid
    · subst hd
      simp [hpresent]
    · simp [hd]

theorem unindexDoc (h : Recorded s) (docid : ℤ) :
    Recorded (followed discriminatorCallable s (.unindexDoc docid)).2 := by
  rw [followed]
  refine ⟨h.proper.unindexDoc docid, fun d => ?_, fun d => ?_⟩
  · simp only
    rw [h.proper.unindexDoc_rev]
    by_cases hd : docid = d
    · rw [if_pos hd, ← hd, Function.update_self]
      rfl
    · rw [if_neg hd, Function.update_of_ne (Ne.symm hd), h.rev]
  · simp only
    rw [unindexDoc_notIndexed, TreeSet.mem_erase, h.not]
    by_cases hd : d = docid
    · subst hd
      simp
    · simp [hd]

/-- A tidy call completes and keeps the record. -/
theorem step (h : Recorded s) {request : Request V} (ht : Tidy discriminatorCallable s request) :
    (followed discriminatorCallable s request).1 = .ok () ∧
      Recorded (followed discriminatorCallable s request).2 := by
  cases request with
  | indexDoc docid obj =>
    rw [Tidy] at ht
    rcases hpresent : present discriminatorCallable obj with _ | value <;> rw [hpresent] at ht
    · exact h.indexDoc_none hpresent (h.proper.rep.superUnindexDoc ht).1
    · obtain ⟨hv, hp, hb⟩ := ht
      exact h.indexDoc_value hpresent hv hp hb
  | unindexDoc docid => exact ⟨rfl, h.unindexDoc docid⟩

/-- A call that completes and leaves the documents in place is tidy. -/
theorem tidy (h : Recorded s) {request : Request V}
    (hplaced : Placed discriminatorCallable s request) : Tidy discriminatorCallable s request := by
  cases request with
  | unindexDoc docid => trivial
  | indexDoc docid obj =>
    obtain ⟨hok, hpartition⟩ := hplaced
    rw [Tidy]
    rcases hpresent : present discriminatorCallable obj with _ | value
    · have hvalue : valueOf discriminatorCallable obj = marker := by rw [valueOf_eq, hpresent]; rfl
      rw [followed, hvalue] at hok
      intro old hold ds hds
      by_contra hset
      obtain ⟨e, hrun⟩ := indexDoc_raises hold hds (Bool.eq_false_iff.mpr hset)
      rw [hrun] at hok
      cases hok
    · have hvalue : valueOf discriminatorCallable obj = value := by rw [valueOf_eq, hpresent]; rfl
      have hlast := hpartition.valued docid value
      rw [followed, hvalue] at hok hlast
      have hne : value ≠ marker := by
        -- the empty tuple is the marker: the document is not in the reverse index
        rintro rfl
        have hsuper : (superUnindexDoc docid s.index).1 = .ok () := by
          rcases hrun : superUnindexDoc docid s.index with ⟨e | ⟨⟩, ix'⟩
          · rw [indexDoc, if_pos rfl, Py.bind_of_error hrun] at hok
            cases hok
          · rfl
        obtain ⟨hunder, -⟩ := hlast (by simp only [Function.update_self, hpresent])
        have hrev := hunder.rev
        rw [h.proper.indexDoc_marker hsuper] at hrev
        simp only [h.proper.unindexDoc_rev, if_true] at hrev
        cases hrev
      refine ⟨hne, ?_, ?_⟩
      · by_contra hp
        obtain ⟨e, hrun⟩ := @indexDoc_refused _ _ s.index docid _ hne
          (.inl (Bool.eq_true_of_not_eq_false hp))
        rw [hrun] at hok
        cases hok
      · by_contra hb
        obtain ⟨e, hrun⟩ := @indexDoc_refused _ _ s.index docid _ hne
          (.inr (Bool.eq_true_of_not_eq_false hb))
        rw [hrun] at hok
        cases hok

end Recorded

/-! ## Histories

Steps that are placed exactly when they are tidy, in states with the invariant, make up the
equivalence for histories. -/

/-- **The presence partition, exactly**: over every sequence of calls on an empty index, each
call completes and leaves every document where it should be if and only if all calls are
tidy. -/
theorem partition_iff_tidy (discriminatorCallable : Bool) (requests : List (Request V)) :
    (followed discriminatorCallable).Along (Placed discriminatorCallable)
        (⟨.empty, fun _ => none⟩ : Followed V) requests ↔
      (followed discriminatorCallable).Along (Tidy discriminatorCallable)
        (⟨.empty, fun _ => none⟩ : Followed V) requests := by
  refine @Machine.along_congr _ _ _ (followed discriminatorCallable) _ _ Recorded
    (fun s request h ht => (h.step ht).2) (fun s request h => ⟨h.tidy, fun ht => ?_⟩) _
    Recorded.empty requests
  obtain ⟨hok, hnext⟩ := h.step ht
  exact ⟨hok, hnext.partition⟩

/-- A document that has lost its attribute while it was the only one with its value: the
call raises, and leaves it in the forward index only. A document whose value is the empty
tuple is in neither index. -/
theorem not_placed :
    ¬ (followed false).Along (Placed false) (⟨.empty, fun _ => none⟩ : Followed TupleValue)
        [.indexDoc 1 ⟨some ([5] : List ℤ), none⟩, .indexDoc 1 ⟨none, none⟩] ∧
    ¬ (followed false).Along (Placed false) (⟨.empty, fun _ => none⟩ : Followed TupleValue)
        [.indexDoc 1 ⟨some ([] : List ℤ), none⟩] := by
  refine ⟨fun h => absurd h.2.1.1 (by decide +kernel), fun h => ?_⟩
  have hunder := (h.1.2.valued 1 (([] : List ℤ) : TupleValue) rfl).1.rev
  have hnone : (followed false (⟨.empty, fun _ => none⟩ : Followed TupleValue)
    (.indexDoc 1 ⟨some ([] : List ℤ), none⟩)).2.index.revIndex[(1 : ℤ)]? = none := by decide +kernel
  exact absurd (hunder.symm.trans hnone) (Option.some_ne_none _)

end CatalogFieldIndex

end Zerodb
