import Zerodb.Trees

/-!
# The field index: one value per document, three shapes of entry

`CatalogFieldIndex` keeps a reverse index from documents to values and a forward
index from values to documents. A forward entry is a bare docid, a tuple of
docids, or a `TreeSet` once a tuple would reach `threshold`.

`Rep` is the representation invariant tying the two together. It is kept by every
step but one: `_marker`, the sentinel for "not in the reverse index", is the empty
tuple, which is itself a value. `Sound` singles that step out, and
`rep_iff_sound` says a history keeps `Rep` exactly when it avoids it.
-/

namespace Zerodb

open Std

universe u

/-- The values of indexed attributes: totally ordered, with Python's `None` and
the empty tuple among them. `persistent` and `broken` are the `isinstance` tests
against `Persistent` and `Broken`. -/
class PyValue (V : Type u) extends LinearOrder V where
  /-- Python's `None` -/
  pyNone : V
  /-- the empty tuple `()` -/
  emptyTuple : V
  /-- `isinstance(value, Persistent)` -/
  persistent : V → Bool
  /-- `isinstance(value, Broken)` -/
  broken : V → Bool
  /-- they are different objects -/
  none_ne_empty : pyNone ≠ emptyTuple

instance PyValue.transOrd {V : Type u} [PyValue V] : Std.TransOrd V := inferInstance

/-- The module's `_marker`: in CPython there is one empty tuple, so `is` against
it is equality with it. -/
def marker {V : Type u} [PyValue V] : V := PyValue.emptyTuple

/-- `None` and the tuples of integers. -/
abbrev TupleValue : Type := WithBot (List ℤ)

instance : PyValue TupleValue where
  pyNone := ⊥
  emptyTuple := ([] : List ℤ)
  persistent _ := false
  broken _ := false
  none_ne_empty := WithBot.bot_ne_coe

/-- Entries with this many docids are tree sets. -/
def threshold : ℕ := 10

/-! ## Forward entries

An entry grows from a docid to a tuple and then to a tree set, and shrinks to a tuple again or
vanishes. Its shape matters to nobody but itself: `mem_add` and `mem_remove` say which docids it
has, and `wf_add` and `wf_remove` that it stays in shape. -/

/-- A forward entry. -/
inductive Docs where
  /-- one docid, stored bare -/
  | int : ℤ → Docs
  /-- a few docids -/
  | tuple : List ℤ → Docs
  /-- many docids -/
  | treeSet : TreeSet ℤ → Docs
  deriving DecidableEq

namespace Docs

/-- Membership in a forward entry (`==` on the bare docid, `in` otherwise). -/
def Mem (docid : ℤ) : Docs → Prop
  | int d => d = docid
  | tuple l => docid ∈ l
  | treeSet s => docid ∈ s

instance : Membership ℤ Docs := ⟨fun ds docid => Mem docid ds⟩

@[simp] theorem mem_int {d docid : ℤ} : docid ∈ int d ↔ d = docid := Iff.rfl

@[simp] theorem mem_tuple {l : List ℤ} {docid : ℤ} : docid ∈ tuple l ↔ docid ∈ l := Iff.rfl

@[simp] theorem mem_treeSet {s : TreeSet ℤ} {docid : ℤ} : docid ∈ treeSet s ↔ docid ∈ s := Iff.rfl

instance (docid : ℤ) : (ds : Docs) → Decidable (docid ∈ ds)
  | int d => inferInstanceAs (Decidable (d = docid))
  | tuple l => inferInstanceAs (Decidable (docid ∈ l))
  | treeSet s => inferInstanceAs (Decidable (docid ∈ s))

/-- The docids of an entry, in iteration order. -/
def docids : Docs → List ℤ
  | int d => [d]
  | tuple l => l
  | treeSet s => s.toList

/-- The shapes an entry may have: a tuple holds between one and `threshold - 1`
docids. -/
def Shaped : Docs → Prop
  | int _ => True
  | tuple l => 1 ≤ l.length ∧ l.length ≤ threshold - 1
  | treeSet _ => True

@[simp] theorem mem_docids {ds : Docs} {docid : ℤ} : docid ∈ ds.docids ↔ docid ∈ ds := by
  cases ds with
  | int d => simp [docids, eq_comm]
  | tuple l => rfl
  | treeSet s => simp [docids]

/-- The entry after one more docid: growth from bare docid to tuple to tree set. -/
def add : Option Docs → ℤ → Docs
  | none, docid => int docid
  | some (int d), docid => tuple [d, docid]
  | some (tuple l), docid =>
    if threshold - 1 ≤ l.length then treeSet ((ExtTreeSet.ofList l compare).insert docid)
    else tuple (l ++ [docid])
  | some (treeSet s), docid => treeSet (s.insert docid)

/-- The entry after one docid less; `none` is `delvalue`. Removing an absent docid
from a tree set raises `KeyError`, which `unindex_doc` ignores. -/
def remove : Docs → ℤ → Option Docs
  | int _, _ => none
  | tuple l, docid =>
    if (l.filter (· ≠ docid)).length = 0 then none else some (tuple (l.filter (· ≠ docid)))
  | treeSet s, docid =>
    if docid ∈ s then
      if (s.erase docid).isEmpty then none else some (treeSet (s.erase docid))
    else some (treeSet s)

/-- What is asked of an entry: nonempty, duplicate-free, of an admissible shape. -/
structure WF (ds : Docs) : Prop where
  /-- some document has the value -/
  nonempty : ∃ docid, docid ∈ ds
  /-- no document is listed twice -/
  nodup : ds.docids.Nodup
  /-- a bare docid, a short tuple or a tree set -/
  shaped : ds.Shaped

theorem mem_add {o : Option Docs} {d docid : ℤ} :
    d ∈ add o docid ↔ d = docid ∨ ∃ ds, o = some ds ∧ d ∈ ds := by
  rcases o with _ | (k | l | s)
  · simp [add, eq_comm]
  · simp [add, or_comm, eq_comm]
  · by_cases hl : threshold - 1 ≤ l.length
    · simp [add, hl, @eq_comm _ docid d]
    · simp [add, hl, or_comm]
  · simp [add, @eq_comm _ docid d]

theorem wf_add {o : Option Docs} {docid : ℤ} (h : ∀ ds, o = some ds → ds.WF ∧ docid ∉ ds) :
    (add o docid).WF := by
  have hne : ∃ d, d ∈ add o docid := ⟨docid, mem_add.mpr (Or.inl rfl)⟩
  rcases o with _ | (k | l | s)
  · exact ⟨hne, by simp [add, docids], trivial⟩
  · obtain ⟨-, hnot⟩ := h _ rfl
    refine ⟨hne, ?_, by simp [add, Shaped, threshold]⟩
    have hk : k ≠ docid := by simpa using hnot
    simp [add, docids, hk]
  · obtain ⟨hwf, hnot⟩ := h _ rfl
    by_cases hl : threshold - 1 ≤ l.length
    · refine ⟨hne, ?_, ?_⟩
      · simpa only [add, if_pos hl, docids] using TreeSet.nodup_toList _
      · simp [add, hl, Shaped]
    · refine ⟨hne, ?_, ?_⟩
      · have hl' : l.Nodup := hwf.nodup
        simpa [add, hl, docids, List.nodup_append, hl'] using fun d hd => ne_of_mem_of_not_mem hd hnot
      · simp only [add, if_neg hl, Shaped, List.length_append, List.length_singleton]
        omega
  · exact ⟨hne, TreeSet.nodup_toList _, trivial⟩

/-- What is left after removing a docid the entry has. -/
theorem mem_remove {ds : Docs} {d docid : ℤ} (h : docid ∈ ds) :
    (∃ ds', remove ds docid = some ds' ∧ d ∈ ds') ↔ d ∈ ds ∧ d ≠ docid := by
  rcases ds with k | l | s
  · obtain rfl : k = docid := h
    simp [remove, eq_comm]
  · by_cases hl : (l.filter (· ≠ docid)).length = 0
    · have hall : d ∈ l → d = docid := by
        simpa using (List.filter_eq_nil_iff.mp (List.length_eq_zero_iff.mp hl)) d
      rw [remove, if_pos hl]
      simpa using hall
    · rw [remove, if_neg hl]
      simp
  · have hs : docid ∈ s := h
    by_cases he : (s.erase docid).isEmpty
    · have hd : ¬(d ∈ s ∧ d ≠ docid) := by
        rw [← TreeSet.mem_erase, ExtTreeSet.isEmpty_iff.mp he]
        simp
      rw [remove, if_pos hs, if_pos he]
      simpa using hd
    · rw [remove, if_pos hs, if_neg he]
      simp [and_comm, @eq_comm _ docid d]

theorem wf_remove {ds ds' : Docs} {docid : ℤ} (hwf : ds.WF) (hr : remove ds docid = some ds') :
    ds'.WF := by
  rcases ds with k | l | s
  · cases hr
  · by_cases hl : (l.filter (· ≠ docid)).length = 0
    · rw [remove, if_pos hl] at hr
      cases hr
    · rw [remove, if_neg hl] at hr
      obtain rfl := Option.some.inj hr
      obtain ⟨x, hx⟩ := List.exists_mem_of_length_pos (Nat.pos_of_ne_zero hl)
      have hle : (l.filter (· ≠ docid)).length ≤ l.length := List.length_filter_le ..
      have hnodup : (l.filter (· ≠ docid)).Nodup := (show l.Nodup from hwf.nodup).filter _
      exact ⟨⟨x, hx⟩, hnodup, by omega, hle.trans hwf.shaped.2⟩
  · by_cases hs : docid ∈ s
    · by_cases he : (s.erase docid).isEmpty
      · rw [remove, if_pos hs, if_pos he] at hr
        cases hr
      · rw [remove, if_pos hs, if_neg he] at hr
        obtain rfl := Option.some.inj hr
        refine ⟨?_, TreeSet.nodup_toList _, trivial⟩
        exact TreeSet.exists_mem _ (Bool.eq_false_iff.mpr he)
    · rw [remove, if_neg hs] at hr
      obtain rfl := Option.some.inj hr
      exact hwf

end Docs

/-! ## The index

`inner_index_doc` first asks the forward index whether there is anything to do, then takes the
document out of its old entry and puts it into the new one. The shape of an entry follows its
size, on the way up only: a tree set stays one when it shrinks. -/

/-- `CatalogFieldIndex`, less its discriminator. -/
structure CatalogFieldIndex (V : Type u) [PyValue V] where
  /-- `_fwd_index`: value to documents -/
  fwdIndex : BTree V Docs
  /-- `_rev_index`: document to value -/
  revIndex : BTree ℤ V
  /-- `_not_indexed`: documents seen without a value -/
  notIndexed : TreeSet ℤ
  /-- `_num_docs` -/
  numDocs : ℤ

namespace CatalogFieldIndex

variable {V : Type u} [PyValue V]

/-- `clear()`. -/
def empty : CatalogFieldIndex V := ⟨∅, ∅, ∅, 0⟩

/-- `_fwd_index[value]` after `unindex_doc` has taken `docid` out of it; a missing
entry is the ignored `KeyError`. -/
def dropFwd (fwd : BTree V Docs) (docid : ℤ) (value : V) : BTree V Docs :=
  match fwd[value]? with
  | none => fwd
  | some ds =>
    match ds.remove docid with
    | none => fwd.erase value
    | some ds' => fwd.insert value ds'

/-- `unindex_doc`. -/
def unindexDoc (ix : CatalogFieldIndex V) (docid : ℤ) : CatalogFieldIndex V :=
  let ix := { ix with notIndexed := ix.notIndexed.erase docid }
  let value := ix.revIndex[docid]?.getD marker
  if value = marker then ix
  else
    { ix with
      revIndex := ix.revIndex.erase docid
      fwdIndex := dropFwd ix.fwdIndex docid value
      numDocs := ix.numDocs - 1 }

/-- Is the document already in the entry of this value? -/
def upToDate (ix : CatalogFieldIndex V) (docid : ℤ) (value : V) : Bool :=
  match ix.fwdIndex[value]? with
  | none => false
  | some ds => decide (docid ∈ ds)

/-- The second half of `inner_index_doc`: insert into both indexes. -/
def insertDoc (ix : CatalogFieldIndex V) (docid : ℤ) (value : V) : CatalogFieldIndex V :=
  { ix with
    fwdIndex := ix.fwdIndex.insert value (Docs.add ix.fwdIndex[value]? docid)
    numDocs := ix.numDocs + 1
    revIndex := ix.revIndex.insert docid value }

/-- `inner_index_doc`. -/
def innerIndexDoc (ix : CatalogFieldIndex V) (docid : ℤ) (value : V) : CatalogFieldIndex V :=
  if docid ∈ ix.revIndex then
    if ix.upToDate docid value then ix
    else (ix.unindexDoc docid).insertDoc docid value
  else ix.insertDoc docid value

/-! ## The representation invariant

`Rep` says that a document is in the entry of a value if and only if the reverse index has it
under that value, and that entries are in good shape. All calls keep it by the same two moves: a
document is dropped from both indexes, or inserted into both. -/

/-- **Representation invariant** of a field index. -/
structure Rep (ix : CatalogFieldIndex V) : Prop where
  /-- the reverse index is the inverse of the forward index -/
  mem_iff : ∀ (docid : ℤ) (value : V), ix.revIndex[docid]? = some value ↔
    ∃ ds, ix.fwdIndex[value]? = some ds ∧ docid ∈ ds
  /-- entries are nonempty, duplicate-free and of an admissible shape -/
  wf : ∀ (value : V) (ds : Docs), ix.fwdIndex[value]? = some ds → ds.WF
  /-- a value without documents has no entry -/
  no_orphan : ∀ value : V, (∀ docid : ℤ, ix.revIndex[docid]? ≠ some value) → ix.fwdIndex[value]? = none
  /-- the counter counts the reverse entries -/
  count : ix.numDocs = ix.revIndex.size

theorem rep_empty : Rep (empty : CatalogFieldIndex V) where
  mem_iff docid value := by simp [empty]
  wf value ds h := by simp [empty] at h
  no_orphan value _ := by simp [empty]
  count := by simp [empty]

/-- The clause on values without documents follows from the other two on entries. -/
theorem no_orphan_of {ix : CatalogFieldIndex V}
    (hmem : ∀ (docid : ℤ) (value : V), ix.revIndex[docid]? = some value ↔
      ∃ ds, ix.fwdIndex[value]? = some ds ∧ docid ∈ ds)
    (hwf : ∀ (value : V) (ds : Docs), ix.fwdIndex[value]? = some ds → ds.WF) (value : V)
    (h : ∀ docid : ℤ, ix.revIndex[docid]? ≠ some value) : ix.fwdIndex[value]? = none := by
  rcases hds : ix.fwdIndex[value]? with _ | ds
  · rfl
  · obtain ⟨docid, hd⟩ := (hwf value ds hds).nonempty
    exact absurd ((hmem docid value).mpr ⟨ds, hds, hd⟩) (h docid)

theorem Rep.mem_rev {ix : CatalogFieldIndex V} (h : Rep ix) {docid : ℤ} {value : V} {ds : Docs}
    (hds : ix.fwdIndex[value]? = some ds) (hd : docid ∈ ds) : ix.revIndex[docid]? = some value :=
  (h.mem_iff docid value).mpr ⟨ds, hds, hd⟩

/-- Under `Rep`, "already up to date" means indexed under this very value. -/
theorem Rep.upToDate_iff {ix : CatalogFieldIndex V} (h : Rep ix) {docid : ℤ} {value : V} :
    ix.upToDate docid value = true ↔ ix.revIndex[docid]? = some value := by
  rw [h.mem_iff, upToDate]
  rcases hds : ix.fwdIndex[value]? with _ | ds <;> simp

/-- Indexing a document that the index does not hold. -/
theorem Rep.insertDoc {ix : CatalogFieldIndex V} (h : Rep ix) {docid : ℤ}
    (hnew : docid ∉ ix.revIndex) (value : V) : Rep (ix.insertDoc docid value) := by
  have hnone : ix.revIndex[docid]? = none := (BTree.not_mem_iff _).mp hnew
  have hfresh : ∀ (v : V) (ds : Docs), ix.fwdIndex[v]? = some ds → docid ∉ ds := by
    intro v ds hds hd
    rw [h.mem_rev hds hd] at hnone
    cases hnone
  have hmem : ∀ (d : ℤ) (v : V), (ix.insertDoc docid value).revIndex[d]? = some v ↔
      ∃ ds, (ix.insertDoc docid value).fwdIndex[v]? = some ds ∧ d ∈ ds := by
    intro d v
    simp only [CatalogFieldIndex.insertDoc, BTree.get_insert]
    by_cases hv : value = v
    · subst hv
      simp only [if_pos, Option.some.injEq, exists_eq_left', Docs.mem_add]
      by_cases hd : docid = d
      · simp [hd]
      · rw [if_neg hd, h.mem_iff]
        simp [Ne.symm hd]
    · rw [if_neg hv]
      by_cases hd : docid = d
      · subst hd
        simp only [if_pos, Option.some.injEq, hv, false_iff]
        rintro ⟨ds, hds, hmem⟩
        exact hfresh v ds hds hmem
      · rw [if_neg hd, h.mem_iff]
  have hwf : ∀ (v : V) (ds : Docs), (ix.insertDoc docid value).fwdIndex[v]? = some ds → ds.WF := by
    intro v ds hds
    simp only [CatalogFieldIndex.insertDoc, BTree.get_insert] at hds
    by_cases hv : value = v
    · rw [if_pos hv] at hds
      obtain rfl := Option.some.inj hds
      exact Docs.wf_add fun ds' hds' => ⟨h.wf _ _ hds', hfresh _ _ hds'⟩
    · rw [if_neg hv] at hds
      exact h.wf v ds hds
  refine ⟨hmem, hwf, no_orphan_of hmem hwf, ?_⟩
  simp only [CatalogFieldIndex.insertDoc, BTree.size_insert_new _ hnew, h.count]
  push_cast
  rfl

/-- What `dropFwd` leaves of a value the document is indexed under. -/
theorem dropFwd_mem {fwd : BTree V Docs} {docid : ℤ} {value : V} {ds : Docs}
    (hds : fwd[value]? = some ds) (hd : docid ∈ ds) (d : ℤ) (v : V) :
    (∃ ds', (dropFwd fwd docid value)[v]? = some ds' ∧ d ∈ ds') ↔
      (∃ ds', fwd[v]? = some ds' ∧ d ∈ ds') ∧ (v = value → d ≠ docid) := by
  have hrem := Docs.mem_remove (d := d) hd
  by_cases hv : value = v
  · subst hv
    simp only [hds, Option.some.injEq, exists_eq_left', forall_const]
    rw [← hrem]
    rcases hr : ds.remove docid with _ | ds' <;> simp [dropFwd, hds, hr]
  · have hget : (dropFwd fwd docid value)[v]? = fwd[v]? := by
      simp only [dropFwd, hds]
      rcases hr : ds.remove docid with _ | ds'
      · exact BTree.get_erase_ne _ hv
      · exact BTree.get_insert_ne _ hv
    rw [hget]
    simp [Ne.symm hv]

theorem dropFwd_wf {fwd : BTree V Docs} (hwf : ∀ (v : V) (ds : Docs), fwd[v]? = some ds → ds.WF)
    (docid : ℤ) (value v : V) (ds : Docs) (hds : (dropFwd fwd docid value)[v]? = some ds) :
    ds.WF := by
  rw [dropFwd] at hds
  rcases hval : fwd[value]? with _ | ds₀ <;> simp only [hval] at hds
  · exact hwf v ds hds
  · rcases hr : ds₀.remove docid with _ | ds₁ <;> simp only [hr] at hds
    · rw [BTree.get_erase] at hds
      by_cases hv : value = v
      · rw [if_pos hv] at hds
        cases hds
      · rw [if_neg hv] at hds
        exact hwf v ds hds
    · rw [BTree.get_insert] at hds
      by_cases hv : value = v
      · rw [if_pos hv] at hds
        obtain rfl := Option.some.inj hds
        exact Docs.wf_remove (hwf value ds₀ hval) hr
      · rw [if_neg hv] at hds
        exact hwf v ds hds

/-- `unindex_doc` on a document that is not indexed, or indexed under the marker:
only `_not_indexed` may change. -/
theorem unindexDoc_marker {ix : CatalogFieldIndex V} {docid : ℤ}
    (h : ∀ value, ix.revIndex[docid]? = some value → value = marker) :
    ix.unindexDoc docid = { ix with notIndexed := ix.notIndexed.erase docid } := by
  have hv : ix.revIndex[docid]?.getD marker = marker := by
    rcases hr : ix.revIndex[docid]? with _ | value
    · rfl
    · exact h value hr
  simp [unindexDoc, hv]

/-- `unindex_doc` on a document indexed under a proper value. -/
theorem unindexDoc_some {ix : CatalogFieldIndex V} {docid : ℤ} {value : V}
    (hrev : ix.revIndex[docid]? = some value) (hv : value ≠ marker) :
    ix.unindexDoc docid =
      { fwdIndex := dropFwd ix.fwdIndex docid value
        revIndex := ix.revIndex.erase docid
        notIndexed := ix.notIndexed.erase docid
        numDocs := ix.numDocs - 1 } := by
  simp [unindexDoc, hrev, hv]

/-- `_not_indexed` plays no part in the invariant. -/
theorem Rep.notIndexed {ix : CatalogFieldIndex V} (h : Rep ix) (s : TreeSet ℤ) :
    Rep { ix with notIndexed := s } :=
  ⟨h.mem_iff, h.wf, h.no_orphan, h.count⟩

/-- Taking a document out of both indexes keeps the invariant. -/
theorem Rep.drop {ix : CatalogFieldIndex V} (h : Rep ix) {docid : ℤ} {value : V}
    (hrev : ix.revIndex[docid]? = some value) (s : TreeSet ℤ) :
    Rep (⟨dropFwd ix.fwdIndex docid value, ix.revIndex.erase docid, s, ix.numDocs - 1⟩ :
      CatalogFieldIndex V) := by
  obtain ⟨ds, hds, hd⟩ := (h.mem_iff docid value).mp hrev
  have hmem : ∀ (d : ℤ) (v : V), (ix.revIndex.erase docid)[d]? = some v ↔
      ∃ ds', (dropFwd ix.fwdIndex docid value)[v]? = some ds' ∧ d ∈ ds' := by
    intro d v
    rw [dropFwd_mem hds hd, ← h.mem_iff, BTree.get_erase]
    by_cases hdd : docid = d
    · subst hdd
      simp only [if_pos, hrev, Option.some.injEq, ne_eq, not_true_eq_false]
      refine ⟨?_, ?_⟩
      · intro hh
        cases hh
      · rintro ⟨rfl, hne⟩
        exact absurd rfl hne
    · rw [if_neg hdd]
      simp [Ne.symm hdd]
  have hwf := dropFwd_wf h.wf docid value
  refine ⟨hmem, hwf, no_orphan_of hmem hwf, ?_⟩
  have hsize := BTree.size_erase_mem _ (BTree.mem_of_get _ hrev)
  have hcount := h.count
  simp only
  omega

/-- Unindexing keeps the invariant, whatever the document. -/
theorem Rep.unindexDoc {ix : CatalogFieldIndex V} (h : Rep ix) (docid : ℤ) :
    Rep (ix.unindexDoc docid) := by
  rcases hrev : ix.revIndex[docid]? with _ | value
  · rw [unindexDoc_marker (by simp [hrev])]
    exact h.notIndexed _
  · by_cases hv : value = marker
    · rw [unindexDoc_marker (by simp [hrev, hv])]
      exact h.notIndexed _
    · rw [unindexDoc_some hrev hv]
      exact h.drop hrev _

/-- `inner_index_doc` on a document held under another, proper value or not at
all. -/
theorem innerIndexDoc_of_ne {ix : CatalogFieldIndex V} (h : Rep ix) {docid : ℤ} {value : V}
    (hne : ix.revIndex[docid]? ≠ some value) :
    ix.innerIndexDoc docid value =
      if docid ∈ ix.revIndex then (ix.unindexDoc docid).insertDoc docid value
      else ix.insertDoc docid value := by
  have hup : ix.upToDate docid value = false := by
    rw [Bool.eq_false_iff, ne_eq, h.upToDate_iff]
    exact hne
  simp [innerIndexDoc, hup]

theorem innerIndexDoc_of_eq {ix : CatalogFieldIndex V} (h : Rep ix) {docid : ℤ} {value : V}
    (heq : ix.revIndex[docid]? = some value) : ix.innerIndexDoc docid value = ix := by
  rw [innerIndexDoc, if_pos (BTree.mem_of_get _ heq), if_pos (h.upToDate_iff.mpr heq)]

/-! ## Histories

The one call that breaks the invariant moves a document away from the marker: `unindex_doc` takes
it for a document that is not indexed, and its old entry keeps it. That a broken state stays
broken is not needed, since the equivalence is about all states of a history. -/

/-- A call on the index. -/
inductive Call (V : Type u) where
  /-- `inner_index_doc(docid, value)` -/
  | innerIndexDoc : ℤ → V → Call V
  /-- `unindex_doc(docid)` -/
  | unindexDoc : ℤ → Call V

/-- The index as a machine; its calls return nothing. -/
def machine : Machine (CatalogFieldIndex V) (Call V) Unit
  | ix, .innerIndexDoc docid value => ((), ix.innerIndexDoc docid value)
  | ix, .unindexDoc docid => ((), ix.unindexDoc docid)

/-- The calls the sentinel does not disturb: a document held under the marker is
not moved to another value. -/
def Sound (ix : CatalogFieldIndex V) : Call V → Prop
  | .innerIndexDoc docid value => ix.revIndex[docid]? = some marker → value = marker
  | .unindexDoc _ => True

instance (ix : CatalogFieldIndex V) : (c : Call V) → Decidable (Sound ix c)
  | .innerIndexDoc docid value =>
    inferInstanceAs (Decidable (ix.revIndex[docid]? = some marker → value = marker))
  | .unindexDoc _ => .isTrue trivial

/-- Indexing keeps the invariant when the sentinel does not disturb it. -/
theorem Rep.innerIndexDoc {ix : CatalogFieldIndex V} (h : Rep ix) {docid : ℤ} {value : V}
    (hs : Sound ix (.innerIndexDoc docid value)) : Rep (ix.innerIndexDoc docid value) := by
  by_cases heq : ix.revIndex[docid]? = some value
  · rw [innerIndexDoc_of_eq h heq]
    exact h
  · rw [innerIndexDoc_of_ne h heq]
    rcases hrev : ix.revIndex[docid]? with _ | old
    · have hnew : docid ∉ ix.revIndex := (BTree.not_mem_iff _).mpr hrev
      rw [if_neg hnew]
      exact h.insertDoc hnew value
    · have hold : old ≠ marker := by
        rintro rfl
        rw [hs hrev] at heq
        exact heq hrev
      rw [if_pos (BTree.mem_of_get _ hrev)]
      refine (h.unindexDoc docid).insertDoc ?_ value
      rw [unindexDoc_some hrev hold]
      simp

/-- Moving a document away from the marker leaves it in the marker's entry. -/
theorem not_rep_of_not_sound {ix : CatalogFieldIndex V} (h : Rep ix) {docid : ℤ} {value : V}
    (hrev : ix.revIndex[docid]? = some marker) (hne : value ≠ marker) :
    ¬ Rep (ix.innerIndexDoc docid value) := by
  have heq : ix.revIndex[docid]? ≠ some value := by
    rw [hrev]
    exact fun hh => hne (Option.some.inj hh).symm
  rw [innerIndexDoc_of_ne h heq, if_pos (BTree.mem_of_get _ hrev), unindexDoc_marker (by simp [hrev])]
  intro hrep
  obtain ⟨ds, hds, hd⟩ := (h.mem_iff docid marker).mp hrev
  have hfwd : (CatalogFieldIndex.insertDoc { ix with notIndexed := ix.notIndexed.erase docid }
      docid value).fwdIndex[(marker : V)]? = some ds := by
    simp only [CatalogFieldIndex.insertDoc, BTree.get_insert_ne _ hne, hds]
  have := hrep.mem_rev hfwd hd
  simp only [CatalogFieldIndex.insertDoc, BTree.get_insert, if_pos, Option.some.injEq] at this
  exact hne this

/-- One call keeps the invariant exactly when the sentinel does not disturb it. -/
theorem rep_step_iff {ix : CatalogFieldIndex V} (h : Rep ix) (c : Call V) :
    Rep (machine ix c).2 ↔ Sound ix c := by
  cases c with
  | innerIndexDoc docid value =>
    refine ⟨?_, ?_⟩
    · intro hrep hrev
      by_contra hne
      exact not_rep_of_not_sound h hrev hne hrep
    · exact fun hs => h.innerIndexDoc hs
  | unindexDoc docid => exact iff_of_true (h.unindexDoc docid) trivial

/-- **The representation invariant, exactly**: every state of a history from the
empty index satisfies `Rep` if and only if no call moves a document from the
empty tuple to another value. -/
theorem rep_iff_sound (cs : List (Call V)) :
    (∀ ix ∈ machine.states (empty : CatalogFieldIndex V) cs, Rep ix) ↔
      machine.Along Sound (empty : CatalogFieldIndex V) cs :=
  @Machine.states_inv_iff_along _ _ _ machine Sound Rep (fun _ => True) (fun _ _ _ _ _ => trivial)
    (fun _ c _ h => rep_step_iff h c) _ trivial rep_empty cs

/-- Document 1 indexed under `()`, then under `(1,)`: it stays in the entry of `()`. -/
theorem rep_lost_at_empty_tuple :
    ¬ Rep (machine.final (empty : CatalogFieldIndex TupleValue)
      [.innerIndexDoc 1 marker, .innerIndexDoc 1 ([1] : List ℤ)]) := by
  intro h
  have hrev := (h.mem_iff 1 marker).mpr ⟨.int 1, by decide, by decide⟩
  exact absurd hrev (by decide)

end CatalogFieldIndex

end Zerodb
