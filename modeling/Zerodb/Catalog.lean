import Zerodb.Queue
import Zerodb.FieldIndex
import Zerodb.TextLucene
import Zerodb.TextOkapi

/-!
# Catalog: the indexes of a model

A catalog has one index for every indexed field. What the database asks of an index is
a `View`: which documents it holds, and which value it holds a document under. Indexing
and unindexing a document leave every other document alone (`View.Updated`).

A text index wraps an index of some class: `lucene` is the class of `Text` fields, and `okapi`
that of `TextOkapi` fields, over the methods that it inherits from third-party code.
-/

namespace Zerodb

open Std

/-! ## Views

The database does not care how an index is organised. It needs three facts: what an index has,
that a call changes one document only, and what the call leaves of that one. An index class brings
its view and these facts along, so that no proof about the database opens an index. -/

/-- How an index of type `ι` is looked at. -/
structure View (V ι : Type) where
  /-- its invariant -/
  Inv : ι → Prop
  /-- the document is found somewhere in it -/
  Holds : ι → ℤ → Prop
  /-- it has the document under the value -/
  Under : ι → ℤ → V → Prop

/-- Nothing but a document has changed in an index. -/
structure View.Updated {V ι : Type} (view : View V ι) (docid : ℤ) (ix ix' : ι) : Prop where
  /-- the invariant is kept -/
  inv : view.Inv ix'
  /-- no other document comes in -/
  holds : ∀ d, view.Holds ix' d → d = docid ∨ view.Holds ix d
  /-- other documents stay under their values -/
  frame : ∀ d value, d ≠ docid → (view.Under ix' d value ↔ view.Under ix d value)

/-- `index_class`: an index of texts that a text index wraps. -/
structure IndexClass (V ξ : Type) where
  /-- `clear()` -/
  clear : ξ
  /-- `index_doc` -/
  indexDoc : ℤ → V → Py ξ ℕ
  /-- `unindex_doc` -/
  unindexDoc : ℤ → Py ξ Unit
  /-- how it is looked at -/
  view : View V ξ
  /-- the cleared index is well formed -/
  inv_clear : view.Inv clear
  /-- and empty -/
  not_holds_clear : ∀ docid, ¬view.Holds clear docid
  /-- an indexed document is there under its text -/
  index_ok : ∀ {ix ix' docid value n}, view.Inv ix → indexDoc docid value ix = (.ok n, ix') →
    view.Updated docid ix ix' ∧ view.Under ix' docid value
  /-- an unindexed document is gone -/
  unindex_ok : ∀ {ix ix' docid}, view.Inv ix → unindexDoc docid ix = (.ok (), ix') →
    view.Updated docid ix ix' ∧ ¬view.Holds ix' docid

/-! ## The index of `Text` fields

Its invariant is `Postings`, which `TextLucene` proves of all histories of calls. Under it
`_docwords` has every document that is found anywhere in the index, and it is enough to follow
that one tree. -/

namespace IncrementalLuceneIndex

variable {S γ Λ V : Type} [Score S] (W : Widcode γ) (L : Lexicon V Λ)

/-- A document is held as a key of `_docwords` or in the tree of a word; its word list
is the one the lexicon gave for its text. -/
def view : View V (IncrementalLuceneIndex S γ Λ) where
  Inv := Postings W
  Holds ix docid := docid ∈ ix.docwords ∨
    ∃ w, ∃ pair ∈ (record ix.wordinfo w).tree, pair.docid = docid
  Under ix docid text := ∃ lex wids, (L.sourceToWordIds lex text).1 = .ok wids ∧
    ix.docwords[docid]? = some (encodeWids W true wids)

variable {W}

/-- Under the postings invariant `_docwords` has all documents. -/
theorem Postings.holds_iff {ix : IncrementalLuceneIndex S γ Λ} (h : Postings W ix) {docid : ℤ} :
    (view W L).Holds ix docid ↔ docid ∈ ix.docwords := by
  refine ⟨?_, .inl⟩
  rintro (hd | ⟨w, pair, hpair, rfl⟩)
  · exact hd
  · by_contra hnot
    have hw := (((h.mem_iff w pair).mp hpair).of_docid rfl).1
    rw [words_of_not_mem hnot] at hw
    cases hw

variable {L}

/-- Only the word list of one document has changed. -/
theorem updated_of_docwords {ix ix' : IncrementalLuceneIndex S γ Λ} {docid : ℤ}
    (h : Postings W ix) (h' : Postings W ix')
    (hget : ∀ d, d ≠ docid → ix'.docwords[d]? = ix.docwords[d]?) :
    (view W L).Updated docid ix ix' where
  inv := h'
  holds d hd := by
    by_cases hne : d = docid
    · exact .inl hne
    · rw [h'.holds_iff, BTree.mem_iff, hget d hne, ← BTree.mem_iff] at hd
      exact .inr ((h.holds_iff L).mpr hd)
  frame d value hne := by
    simp only [view, hget d hne]

/-- **The index class of text fields.** -/
def lucene (W : Widcode γ) (L : Lexicon V Λ) : IndexClass V (IncrementalLuceneIndex S γ Λ) where
  clear := init L
  indexDoc := indexDoc W L true
  unindexDoc := unindexDoc W
  view := view W L
  inv_clear := postings_init
  not_holds_clear docid hd := by
    rw [postings_init.holds_iff] at hd
    simp [init] at hd
  index_ok {ix ix' docid value n} h hrun := by
    obtain ⟨lex, wids, hwids, hdoc⟩ := indexDoc_docwords hrun
    have h' := h.step (L := L) (.indexDoc docid value)
    have hix' : (machine W L true ix (.indexDoc docid value)).2 = ix' := congrArg Prod.snd hrun
    rw [hix'] at h'
    refine ⟨updated_of_docwords h h' fun d hne => ?_, lex, wids, hwids, ?_⟩
    · rw [hdoc, BTree.get_insert_ne _ (Ne.symm hne)]
    · rw [hdoc, BTree.get_insert, if_pos rfl]
  unindex_ok {ix ix' docid} h hrun := by
    have hdoc := unindexDoc_docwords hrun
    have h' := h.step (L := L) (.unindexDoc docid)
    have hix' : (machine W L true ix (.unindexDoc docid)).2 = ix' := congrArg Prod.snd hrun
    rw [hix'] at h'
    refine ⟨updated_of_docwords h h' fun d hne => ?_, fun hd => ?_⟩
    · rw [hdoc, if_neg (Ne.symm hne)]
    · rw [h'.holds_iff, BTree.mem_iff, hdoc, if_pos rfl] at hd
      obtain ⟨y, hy⟩ := hd
      cases hy

end IncrementalLuceneIndex

/-! ## The index of `TextOkapi` fields

The same view of the other class, whose invariant is `Indexed`. It holds of every history of
calls, also of those after which `_totaldoclen` is wrong, since no document is found through a
total. -/

namespace OkapiIndex

variable {γ Λ V : Type} (W : Widcode γ) (L : Lexicon V Λ)

/-- A document is held as a key of `_docwords` or `_docweight`, or in the counts of a word; its
word list is the one the lexicon gave for its text. -/
def view : View V (OkapiIndex γ Λ) where
  Inv := Indexed W
  Holds ix docid := docid ∈ ix.docwords ∨ docid ∈ ix.docweight ∨
    ∃ w, (ix.count w docid).isSome = true
  Under ix docid text := ∃ lex wids, (L.sourceToWordIds lex text).1 = .ok wids ∧
    ix.docwords[docid]? = some (W.encode wids)

variable {W L} {ix ix' : OkapiIndex γ Λ} {docid : ℤ}

/-- Under the invariant `_docwords` has all documents. -/
theorem Indexed.holds_iff (h : Indexed W ix) : (view W L).Holds ix docid ↔ docid ∈ ix.docwords := by
  refine ⟨?_, .inl⟩
  rintro (hd | hd | ⟨w, hw⟩)
  · exact hd
  · exact h.mem_docweight.mp hd
  · by_contra hnot
    rw [h.count_of_not_mem hnot] at hw
    cases hw

/-- Only the word list of one document has changed. -/
theorem updated_of_docwords (h : Indexed W ix) (h' : Indexed W ix')
    (hget : ∀ d, d ≠ docid → ix'.docwords[d]? = ix.docwords[d]?) :
    (view W L).Updated docid ix ix' where
  inv := h'
  holds d hd := by
    by_cases hne : d = docid
    · exact .inl hne
    · rw [h'.holds_iff, BTree.mem_iff, hget d hne, ← BTree.mem_iff] at hd
      exact .inr (h.holds_iff.mpr hd)
  frame d value hne := by
    simp only [view, hget d hne]

/-- **The index class of Okapi fields.** -/
def okapi (W : Widcode γ) (L : Lexicon V Λ) (Z : Inherited W Λ) :
    IndexClass V (OkapiIndex γ Λ) where
  clear := empty L.empty
  indexDoc := indexDoc W L Z
  unindexDoc := Z.unindexDoc
  view := view W L
  inv_clear := indexed_empty L.empty
  not_holds_clear docid hd := by
    rw [(indexed_empty L.empty).holds_iff] at hd
    simp [empty] at hd
  index_ok {ix ix' docid value n} h hrun := by
    obtain ⟨wids, hwids, hdoc⟩ := indexDoc_docwords L Z h hrun
    have h' := (h.step L Z (.indexDoc docid value)).1
    have hix' : (machine W L Z ix (.indexDoc docid value)).2 = ix' := congrArg Prod.snd hrun
    rw [hix'] at h'
    refine ⟨updated_of_docwords h h' fun d hne => ?_, ix.lexicon, wids, hwids, ?_⟩
    · rw [hdoc, BTree.get_insert_ne _ (Ne.symm hne)]
    · rw [hdoc, BTree.get_insert, if_pos rfl]
  unindex_ok {ix ix' docid} h hrun := by
    by_cases hmem : docid ∈ ix.docwords
    · obtain ⟨ix₁, hrun₁, h', -, hdoc⟩ := h.unindexDoc Z hmem
      obtain ⟨-, rfl⟩ := Prod.mk.inj (hrun₁.symm.trans hrun)
      refine ⟨updated_of_docwords h h' fun d hne => ?_, fun hd => ?_⟩
      · rw [hdoc, BTree.get_erase_ne _ (Ne.symm hne)]
      · rw [h'.holds_iff, hdoc, BTree.mem_erase] at hd
        exact hd.2 rfl
    · obtain ⟨-, rfl⟩ := Prod.mk.inj ((Z.unindexDoc_unknown docid ix hmem).symm.trans hrun)
      exact ⟨updated_of_docwords h h fun d _ => rfl, fun hd => hmem (h.holds_iff.mp hd)⟩

end OkapiIndex

/-! ## Text indexes

A text index keeps the documents without a value itself, as not indexed, and passes the others on.
Where the wrapped index raises, the exception passes through. -/

/-- `CatalogTextIndex`, wrapping an index of type `ξ`. -/
structure CatalogTextIndex (ξ : Type) where
  /-- `_not_indexed` -/
  notIndexed : TreeSet ℤ
  /-- `index` -/
  index : ξ

/-- The values no index takes. -/
def checkValue {V σ : Type} [PyValue V] (value : V) : Py σ Unit :=
  if PyValue.persistent value = true then
    Py.raise (.valueError "Catalog cannot index persistent object")
  else if PyValue.broken value = true then
    Py.raise (.valueError "Catalog cannot index broken object")
  else Py.pure ()

theorem checkValue_eq_ok {V σ : Type} [PyValue V] {value : V} {s s' : σ}
    (h : checkValue value s = (.ok (), s')) : s' = s := by
  rw [checkValue] at h
  by_cases hp : PyValue.persistent value = true
  · rw [if_pos hp] at h
    cases h
  · rw [if_neg hp] at h
    by_cases hb : PyValue.broken value = true
    · rw [if_pos hb] at h
      cases h
    · rw [if_neg hb] at h
      exact (Prod.mk.inj h).2.symm

namespace CatalogTextIndex

variable {V ξ : Type} [PyValue V] (T : IndexClass V ξ)

/-- A call on the wrapped index. -/
def wrapped {α : Type} (x : Py ξ α) : Py (CatalogTextIndex ξ) α :=
  Py.zoom index (fun i ix => { ix with index := i }) x

/-- `index_doc`, for the value of the discriminated attribute. -/
def indexDoc (docid : ℤ) (value : V) : Py (CatalogTextIndex ξ) Unit :=
  if value = marker then do
    wrapped (T.unindexDoc docid)
    Py.modify fun ix => { ix with notIndexed := ix.notIndexed.insert docid }
  else do
    checkValue value
    Py.modify fun ix => { ix with notIndexed := ix.notIndexed.erase docid }
    let _ ← wrapped (T.indexDoc docid value)
    pure ()

/-- `unindex_doc`, of zerodbext's `CatalogIndex`. -/
def unindexDoc (docid : ℤ) : Py (CatalogTextIndex ξ) Unit := do
  Py.modify fun ix => { ix with notIndexed := ix.notIndexed.erase docid }
  wrapped (T.unindexDoc docid)

/-- A text index is looked at through the wrapped one. -/
def view : View V (CatalogTextIndex ξ) where
  Inv ix := T.view.Inv ix.index
  Holds ix docid := docid ∈ ix.notIndexed ∨ T.view.Holds ix.index docid
  Under ix docid value := T.view.Under ix.index docid value

variable {T}

omit [PyValue V] in
theorem updated_of_wrapped {ix ix' : CatalogTextIndex ξ} {docid : ℤ}
    (h : T.view.Updated docid ix.index ix'.index)
    (hnot : ∀ d, d ∈ ix'.notIndexed → d = docid ∨ d ∈ ix.notIndexed) :
    (view T).Updated docid ix ix' where
  inv := h.inv
  holds d hd := by
    rcases hd with hd | hd
    · exact (hnot d hd).imp id .inl
    · exact (h.holds d hd).imp id .inr
  frame := h.frame

theorem indexDoc_ok {ix ix' : CatalogTextIndex ξ} {docid : ℤ} {value : V}
    (h : (view T).Inv ix) (hrun : indexDoc T docid value ix = (.ok (), ix')) :
    (view T).Updated docid ix ix' ∧ (value ≠ marker → (view T).Under ix' docid value) := by
  by_cases hv : value = marker
  · rw [indexDoc, if_pos hv] at hrun
    obtain ⟨⟨⟩, ix₁, hwrapped, hrest⟩ := Py.bind_eq_ok.mp hrun
    obtain ⟨i, hcall, rfl⟩ := Py.zoom_eq_ok.mp hwrapped
    obtain ⟨-, rfl⟩ := Prod.mk.inj hrest
    obtain ⟨hup, -⟩ := T.unindex_ok h hcall
    exact ⟨updated_of_wrapped hup fun d hd => (TreeSet.mem_insert _).mp hd,
      fun hne => absurd hv hne⟩
  · rw [indexDoc, if_neg hv] at hrun
    obtain ⟨⟨⟩, ix₁, hcheck, hrest⟩ := Py.bind_eq_ok.mp hrun
    obtain rfl := checkValue_eq_ok hcheck
    rw [Py.modify_bind_apply] at hrest
    obtain ⟨n, ix₂, hwrapped, hpure⟩ := Py.bind_eq_ok.mp hrest
    obtain ⟨i, hcall, rfl⟩ := Py.zoom_eq_ok.mp hwrapped
    obtain ⟨-, rfl⟩ := Prod.mk.inj hpure
    obtain ⟨hup, hunder⟩ := T.index_ok h hcall
    exact ⟨updated_of_wrapped hup fun d hd => .inr ((TreeSet.mem_erase _).mp hd).1, fun _ => hunder⟩

omit [PyValue V] in
theorem unindexDoc_ok {ix ix' : CatalogTextIndex ξ} {docid : ℤ}
    (h : (view T).Inv ix) (hrun : unindexDoc T docid ix = (.ok (), ix')) :
    (view T).Updated docid ix ix' ∧ ¬(view T).Holds ix' docid := by
  rw [unindexDoc, Py.modify_bind_apply] at hrun
  obtain ⟨i, hcall, rfl⟩ := Py.zoom_eq_ok.mp hrun
  obtain ⟨hup, hgone⟩ := T.unindex_ok h hcall
  refine ⟨updated_of_wrapped hup fun d hd => .inr ((TreeSet.mem_erase _).mp hd).1, ?_⟩
  rintro (hd | hd)
  · exact ((TreeSet.mem_erase _).mp hd).2 rfl
  · exact hgone hd

end CatalogTextIndex

/-! ## Field indexes

A field index calls `unindex_doc` of zope.index when a document has lost its value, and its own
when it gets another one. The two differ on a forward entry that is not a tree set, where that of
zope.index raises; where it returns they do the same. -/

namespace CatalogFieldIndex

variable {V : Type} [PyValue V]

/-- The forward entry loses a document as in zope.index, which calls `remove` on it. -/
def removeEntry (docid : ℤ) (value : V) : Py (CatalogFieldIndex V) Unit := do
  let ix ← Py.get
  match ix.fwdIndex[value]? with
  | some (.int _) => Py.raise (.attributeError "'int' object has no attribute 'remove'")
  | some (.tuple _) => Py.raise (.attributeError "'tuple' object has no attribute 'remove'")
  | _ => Py.modify fun ix => { ix with fwdIndex := dropFwd ix.fwdIndex docid value }

/-- `super(CatalogIndex, self).unindex_doc`, of zope.index. -/
def superUnindexDoc (docid : ℤ) : Py (CatalogFieldIndex V) Unit := do
  let ix ← Py.get
  match ix.revIndex[docid]? with
  | none => pure ()
  | some value =>
    Py.modify fun ix => { ix with revIndex := ix.revIndex.erase docid }
    removeEntry docid value
    Py.modify fun ix => { ix with numDocs := ix.numDocs - 1 }

/-- `index_doc`, for the value of the discriminated attribute. -/
def indexDoc (docid : ℤ) (value : V) : Py (CatalogFieldIndex V) Unit :=
  if value = marker then do
    superUnindexDoc docid
    Py.modify fun ix => { ix with notIndexed := ix.notIndexed.insert docid }
  else do
    checkValue value
    Py.modify fun ix =>
      { ix with notIndexed := ix.notIndexed.erase docid }.innerIndexDoc docid value

/-- The representation invariant, where no document is indexed under the marker. -/
structure Proper (ix : CatalogFieldIndex V) : Prop where
  /-- the representation invariant -/
  rep : Rep ix
  /-- no value is the marker -/
  no_marker : ∀ docid : ℤ, ix.revIndex[docid]? ≠ some marker

/-- A document is held in the reverse index, in a forward entry or as not indexed; it is under a
value in both indexes. -/
def view : View V (CatalogFieldIndex V) where
  Inv := Proper
  Holds ix docid := docid ∈ ix.revIndex ∨ docid ∈ ix.notIndexed ∨
    ∃ (value : V) (ds : Docs), ix.fwdIndex[value]? = some ds ∧ docid ∈ ds
  Under ix docid value := ix.revIndex[docid]? = some value ∧
    ∃ ds : Docs, ix.fwdIndex[value]? = some ds ∧ docid ∈ ds

theorem proper_empty : Proper (empty : CatalogFieldIndex V) :=
  ⟨rep_empty, fun docid => by simp [empty]⟩

/-- Under the invariant a forward entry has no other documents. -/
theorem Rep.holds_iff {ix : CatalogFieldIndex V} (h : Rep ix) {docid : ℤ} :
    view.Holds ix docid ↔ docid ∈ ix.revIndex ∨ docid ∈ ix.notIndexed := by
  refine ⟨?_, ?_⟩
  · rintro (hd | hd | ⟨value, ds, hds, hd⟩)
    · exact .inl hd
    · exact .inr hd
    · exact .inl (BTree.mem_of_get _ (h.mem_rev hds hd))
  · rintro (hd | hd)
    · exact .inl hd
    · exact .inr (.inl hd)

/-- Under the invariant the forward index follows the reverse index. -/
theorem Proper.under_iff {ix : CatalogFieldIndex V} (h : Proper ix) {docid : ℤ} {value : V} :
    view.Under ix docid value ↔ ix.revIndex[docid]? = some value :=
  and_iff_left_of_imp (h.rep.mem_iff docid value).mp

/-- One document has changed in the reverse index. -/
theorem updated_of_rev {ix ix' : CatalogFieldIndex V} {docid : ℤ} (h : Proper ix)
    (h' : Proper ix') (hget : ∀ d, d ≠ docid → ix'.revIndex[d]? = ix.revIndex[d]?)
    (hnot : ∀ d, d ∈ ix'.notIndexed → d = docid ∨ d ∈ ix.notIndexed) :
    view.Updated docid ix ix' where
  inv := h'
  holds d hd := by
    by_cases hne : d = docid
    · exact .inl hne
    · rw [h'.rep.holds_iff, BTree.mem_iff, hget d hne, ← BTree.mem_iff] at hd
      refine .inr (h.rep.holds_iff.mpr (hd.imp id fun hn => ?_))
      exact (hnot d hn).resolve_left hne
  frame d value hne := by
    rw [h'.under_iff, h.under_iff, hget d hne]

/-- What `unindex_doc` does to the reverse index. -/
theorem Proper.unindexDoc_rev {ix : CatalogFieldIndex V} (h : Proper ix) (docid d : ℤ) :
    (ix.unindexDoc docid).revIndex[d]? = if docid = d then none else ix.revIndex[d]? := by
  rcases hrev : ix.revIndex[docid]? with _ | value
  · rw [unindexDoc_marker (by simp [hrev])]
    by_cases hd : docid = d
    · rw [if_pos hd, ← hd, hrev]
    · rw [if_neg hd]
  · have hv : value ≠ marker := fun heq => h.no_marker docid (heq ▸ hrev)
    rw [unindexDoc_some hrev hv]
    exact BTree.get_erase _

theorem Proper.unindexDoc {ix : CatalogFieldIndex V} (h : Proper ix) (docid : ℤ) :
    Proper (ix.unindexDoc docid) := by
  refine ⟨h.rep.unindexDoc docid, fun d => ?_⟩
  rw [h.unindexDoc_rev]
  by_cases hd : docid = d
  · rw [if_pos hd]
    exact fun hh => nomatch hh
  · rw [if_neg hd]
    exact h.no_marker d

theorem Proper.notIndexed {ix : CatalogFieldIndex V} (h : Proper ix) (s : TreeSet ℤ) :
    Proper { ix with notIndexed := s } :=
  ⟨h.rep.notIndexed s, h.no_marker⟩

theorem unindexDoc_notIndexed (ix : CatalogFieldIndex V) (docid : ℤ) :
    (ix.unindexDoc docid).notIndexed = ix.notIndexed.erase docid := by
  rw [CatalogFieldIndex.unindexDoc]
  split <;> rfl

/-- Unindexing takes a document out. -/
theorem unindexDoc_ok {ix : CatalogFieldIndex V} (h : Proper ix) (docid : ℤ) :
    view.Updated docid ix (ix.unindexDoc docid) ∧ ¬view.Holds (ix.unindexDoc docid) docid := by
  have hnot := unindexDoc_notIndexed ix docid
  have h' := h.unindexDoc docid
  refine ⟨updated_of_rev h h' (fun d hne => ?_) fun d hd => ?_, fun hd => ?_⟩
  · rw [h.unindexDoc_rev, if_neg (Ne.symm hne)]
  · rw [hnot] at hd
    exact .inr ((TreeSet.mem_erase _).mp hd).1
  · rw [h'.rep.holds_iff, BTree.mem_iff, h.unindexDoc_rev, if_pos rfl, hnot,
      TreeSet.mem_erase] at hd
    rcases hd with ⟨y, hy⟩ | hd
    · cases hy
    · exact hd.2 rfl

/-- Where it returns, zope.index's `unindex_doc` does the same to the two indexes. -/
theorem superUnindexDoc_ok {ix ix' : CatalogFieldIndex V} (h : Proper ix) {docid : ℤ}
    (hrun : superUnindexDoc docid ix = (.ok (), ix')) :
    ix' = { ix.unindexDoc docid with notIndexed := ix.notIndexed } := by
  rw [superUnindexDoc, Py.get_bind_apply] at hrun
  rcases hrev : ix.revIndex[docid]? with _ | value <;> simp only [hrev] at hrun
  · obtain ⟨-, rfl⟩ := Prod.mk.inj hrun
    rw [unindexDoc_marker (by simp [hrev])]
  · have hv : value ≠ marker := fun heq => h.no_marker docid (heq ▸ hrev)
    rw [unindexDoc_some hrev hv]
    rw [Py.modify_bind_apply] at hrun
    obtain ⟨⟨⟩, ix₁, hentry, hrest⟩ := Py.bind_eq_ok.mp hrun
    obtain ⟨-, rfl⟩ := Prod.mk.inj hrest
    rw [removeEntry, Py.get_bind_apply] at hentry
    rcases hfwd : ix.fwdIndex[value]? with _ | (k | l | s) <;> simp only [hfwd] at hentry
    · obtain ⟨-, rfl⟩ := Prod.mk.inj hentry
      rfl
    · cases hentry
    · cases hentry
    · obtain ⟨-, rfl⟩ := Prod.mk.inj hentry
      rfl

/-- What `inner_index_doc` does to the reverse index. -/
theorem Proper.innerIndexDoc_rev {ix : CatalogFieldIndex V} (h : Proper ix) (docid : ℤ) (value : V)
    (d : ℤ) : (ix.innerIndexDoc docid value).revIndex[d]? =
      if docid = d then some value else ix.revIndex[d]? := by
  by_cases heq : ix.revIndex[docid]? = some value
  · rw [innerIndexDoc_of_eq h.rep heq]
    by_cases hd : docid = d
    · rw [if_pos hd, ← hd, heq]
    · rw [if_neg hd]
  · rw [innerIndexDoc_of_ne h.rep heq]
    by_cases hmem : docid ∈ ix.revIndex
    · rw [if_pos hmem]
      change ((ix.unindexDoc docid).revIndex.insert docid value)[d]? = _
      rw [BTree.get_insert, h.unindexDoc_rev]
      by_cases hd : docid = d
      · rw [if_pos hd, if_pos hd]
      · rw [if_neg hd, if_neg hd, if_neg hd]
    · rw [if_neg hmem]
      exact BTree.get_insert _

theorem Proper.innerIndexDoc {ix : CatalogFieldIndex V} (h : Proper ix) {value : V}
    (hv : value ≠ marker) (docid : ℤ) : Proper (ix.innerIndexDoc docid value) := by
  refine ⟨h.rep.innerIndexDoc fun hrev => absurd hrev (h.no_marker docid), fun d => ?_⟩
  rw [h.innerIndexDoc_rev]
  by_cases hd : docid = d
  · rw [if_pos hd]
    exact fun hh => hv (Option.some.inj hh)
  · rw [if_neg hd]
    exact h.no_marker d

theorem innerIndexDoc_notIndexed {ix : CatalogFieldIndex V} (h : Rep ix) (docid : ℤ) (value : V)
    (d : ℤ) (hd : d ∈ (ix.innerIndexDoc docid value).notIndexed) : d ∈ ix.notIndexed := by
  by_cases heq : ix.revIndex[docid]? = some value
  · rwa [innerIndexDoc_of_eq h heq] at hd
  · rw [innerIndexDoc_of_ne h heq] at hd
    by_cases hmem : docid ∈ ix.revIndex
    · rw [if_pos hmem] at hd
      change d ∈ (ix.unindexDoc docid).notIndexed at hd
      rw [unindexDoc_notIndexed] at hd
      exact ((TreeSet.mem_erase _).mp hd).1
    · rwa [if_neg hmem] at hd

/-- Indexing puts a document under its value. -/
theorem indexDoc_ok {ix ix' : CatalogFieldIndex V} {docid : ℤ} {value : V} (h : Proper ix)
    (hrun : indexDoc docid value ix = (.ok (), ix')) :
    view.Updated docid ix ix' ∧ (value ≠ marker → view.Under ix' docid value) := by
  by_cases hv : value = marker
  · rw [indexDoc, if_pos hv] at hrun
    obtain ⟨⟨⟩, ix₁, hsuper, hrest⟩ := Py.bind_eq_ok.mp hrun
    obtain ⟨-, rfl⟩ := Prod.mk.inj hrest
    obtain rfl := superUnindexDoc_ok h hsuper
    refine ⟨updated_of_rev h ((h.unindexDoc docid).notIndexed _) (fun d hne => ?_)
      (fun d hd => (TreeSet.mem_insert _).mp hd), fun hne => absurd hv hne⟩
    exact (h.unindexDoc_rev docid d).trans (if_neg (Ne.symm hne))
  · rw [indexDoc, if_neg hv] at hrun
    obtain ⟨⟨⟩, ix₁, hcheck, hrest⟩ := Py.bind_eq_ok.mp hrun
    obtain rfl := checkValue_eq_ok hcheck
    obtain ⟨-, rfl⟩ := Prod.mk.inj hrest
    have h₁ := h.notIndexed (ix₁.notIndexed.erase docid)
    refine ⟨updated_of_rev h (h₁.innerIndexDoc hv docid) (fun d hne => ?_) fun d hd => ?_,
      fun _ => ?_⟩
    · exact (h₁.innerIndexDoc_rev docid value d).trans (if_neg (Ne.symm hne))
    · exact .inr ((TreeSet.mem_erase _).mp (innerIndexDoc_notIndexed h₁.rep docid value d hd)).1
    · exact (h₁.innerIndexDoc hv docid).under_iff.mpr
        ((h₁.innerIndexDoc_rev docid value docid).trans (if_pos rfl))

end CatalogFieldIndex

/-! ## The indexes of a catalog

The three kinds of indexes as one type, with the calls and the view of each. `indexDoc_ok` and
`unindexDoc_ok` are all that the modules about the database use. -/

/-- An index of a catalog: of a `Field`, a `Text` or a `TextOkapi`. -/
inductive CatalogIndex (V ξ ω : Type) [PyValue V] where
  /-- `CatalogFieldIndex` -/
  | field : CatalogFieldIndex V → CatalogIndex V ξ ω
  /-- `CatalogTextIndex` -/
  | text : CatalogTextIndex ξ → CatalogIndex V ξ ω
  /-- `CatalogTextIndexOkapi` -/
  | okapi : CatalogTextIndex ω → CatalogIndex V ξ ω

/-- What kind of `Indexable` a field is. -/
inductive Kind where
  /-- `Field` -/
  | field : Kind
  /-- `Text` -/
  | text : Kind
  /-- `TextOkapi` -/
  | okapi : Kind
  deriving DecidableEq

namespace CatalogIndex

variable {V ξ ω : Type} [PyValue V] (T : IndexClass V ξ) (O : IndexClass V ω)

/-- `field.Index(discriminator)`. -/
def new : Kind → CatalogIndex V ξ ω
  | .field => .field .empty
  | .text => .text ⟨∅, T.clear⟩
  | .okapi => .okapi ⟨∅, O.clear⟩

/-- `index_doc`, for the value of the discriminated attribute. -/
def indexDoc (docid : ℤ) (value : V) : Py (CatalogIndex V ξ ω) Unit
  | .field ix => (ix.indexDoc docid value).map id .field
  | .text ix => (CatalogTextIndex.indexDoc T docid value ix).map id .text
  | .okapi ix => (CatalogTextIndex.indexDoc O docid value ix).map id .okapi

/-- `unindex_doc`. -/
def unindexDoc (docid : ℤ) : Py (CatalogIndex V ξ ω) Unit
  | .field ix => (.ok (), .field (ix.unindexDoc docid))
  | .text ix => (CatalogTextIndex.unindexDoc T docid ix).map id .text
  | .okapi ix => (CatalogTextIndex.unindexDoc O docid ix).map id .okapi

/-- How the indexes of a catalog are looked at. -/
def view : View V (CatalogIndex V ξ ω) where
  Inv
    | .field ix => CatalogFieldIndex.view.Inv ix
    | .text ix => (CatalogTextIndex.view T).Inv ix
    | .okapi ix => (CatalogTextIndex.view O).Inv ix
  Holds
    | .field ix => CatalogFieldIndex.view.Holds ix
    | .text ix => (CatalogTextIndex.view T).Holds ix
    | .okapi ix => (CatalogTextIndex.view O).Holds ix
  Under
    | .field ix => CatalogFieldIndex.view.Under ix
    | .text ix => (CatalogTextIndex.view T).Under ix
    | .okapi ix => (CatalogTextIndex.view O).Under ix

variable {T O}

theorem new_ok (k : Kind) : (view T O).Inv (new T O k) ∧ ∀ d, ¬(view T O).Holds (new T O k) d := by
  cases k with
  | field =>
    refine ⟨CatalogFieldIndex.proper_empty, fun d hd => ?_⟩
    have := CatalogFieldIndex.rep_empty.holds_iff.mp hd
    simp [CatalogFieldIndex.empty] at this
  | text => exact ⟨T.inv_clear, fun d hd => hd.elim ExtTreeSet.not_mem_empty (T.not_holds_clear d)⟩
  | okapi => exact ⟨O.inv_clear, fun d hd => hd.elim ExtTreeSet.not_mem_empty (O.not_holds_clear d)⟩

/-- **What indexing does**, whatever the index. -/
theorem indexDoc_ok {ix ix' : CatalogIndex V ξ ω} {docid : ℤ} {value : V} (h : (view T O).Inv ix)
    (hrun : indexDoc T O docid value ix = (.ok (), ix')) :
    (view T O).Updated docid ix ix' ∧ (value ≠ marker → (view T O).Under ix' docid value) := by
  cases ix with
  | field ix =>
    obtain ⟨hok, rfl⟩ := Prod.mk.inj hrun
    obtain ⟨hup, hunder⟩ := CatalogFieldIndex.indexDoc_ok h (Prod.ext hok rfl)
    exact ⟨⟨hup.inv, hup.holds, hup.frame⟩, hunder⟩
  | text ix =>
    obtain ⟨hok, rfl⟩ := Prod.mk.inj hrun
    obtain ⟨hup, hunder⟩ := CatalogTextIndex.indexDoc_ok h (Prod.ext hok rfl)
    exact ⟨⟨hup.inv, hup.holds, hup.frame⟩, hunder⟩
  | okapi ix =>
    obtain ⟨hok, rfl⟩ := Prod.mk.inj hrun
    obtain ⟨hup, hunder⟩ := CatalogTextIndex.indexDoc_ok h (Prod.ext hok rfl)
    exact ⟨⟨hup.inv, hup.holds, hup.frame⟩, hunder⟩

/-- **What unindexing does**, whatever the index. -/
theorem unindexDoc_ok {ix ix' : CatalogIndex V ξ ω} {docid : ℤ} (h : (view T O).Inv ix)
    (hrun : unindexDoc T O docid ix = (.ok (), ix')) :
    (view T O).Updated docid ix ix' ∧ ¬(view T O).Holds ix' docid := by
  cases ix with
  | field ix =>
    obtain ⟨-, rfl⟩ := Prod.mk.inj hrun
    obtain ⟨hup, hgone⟩ := CatalogFieldIndex.unindexDoc_ok h docid
    exact ⟨⟨hup.inv, hup.holds, hup.frame⟩, hgone⟩
  | text ix =>
    obtain ⟨hok, rfl⟩ := Prod.mk.inj hrun
    obtain ⟨hup, hgone⟩ := CatalogTextIndex.unindexDoc_ok h (Prod.ext hok rfl)
    exact ⟨⟨hup.inv, hup.holds, hup.frame⟩, hgone⟩
  | okapi ix =>
    obtain ⟨hok, rfl⟩ := Prod.mk.inj hrun
    obtain ⟨hup, hgone⟩ := CatalogTextIndex.unindexDoc_ok h (Prod.ext hok rfl)
    exact ⟨⟨hup.inv, hup.holds, hup.frame⟩, hgone⟩

end CatalogIndex

end Zerodb
