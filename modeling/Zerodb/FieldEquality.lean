import Zerodb.FieldPresence

/-!
# FieldEquality: two ways to look up a value

`applyEq` looks a value up in the forward index; `search` scans the range from the value to
itself and unites what it finds for several. A range whose ends are `None` has no ends, so
that `search` takes `None` for all values.

* `mem_applyEq`, `mem_search` — what the two find in the forward index;
* `equality_paths` — they find the documents whose value it is in every state of a run
  exactly when no document is torn out of an entry that is no tree set; and there they agree
  unless `None` is looked for among documents with other values.
-/

namespace Zerodb

open Std

namespace CatalogFieldIndex

variable {V : Type} [PyValue V]

/-! ## Looking up

`search` is inherited and general: each query is a range, the entries within are united, and the
sets of the queries are united or intersected. `applyEq` is the shortcut for one value, and may
return a list that reads ahead instead of a set. What the two find is compared as sets of docids.
-/

/-- `result.update(s)`. -/
def update (result : TreeSet ℤ) (s : List ℤ) : TreeSet ℤ :=
  s.foldl (fun r docid => r.insert docid) result

/-- `multiunion1`, on forward entries; a bare docid counts as a tuple of one. -/
def multiunion1 (seqs : List Docs) : TreeSet ℤ :=
  seqs.foldl (fun result s => update result s.docids) ∅

/-- `multiunion`. -/
def multiunion (sets : List (TreeSet ℤ)) : TreeSet ℤ :=
  sets.foldl (fun result s => update result s.toList) ∅

/-- `intersection(set, result)`, where the result may be `None`. -/
def intersection (set : TreeSet ℤ) : Option (TreeSet ℤ) → TreeSet ℤ
  | none => set
  | some result => set.filter fun docid => decide (docid ∈ result)

/-- What is searched for. -/
inductive Sought (V : Type) where
  /-- a value -/
  | value : V → Sought V
  /-- `RangeValue(start, end)` -/
  | range : V → V → Sought V

/-- The range of a query: `query.as_tuple()`, or the value twice. -/
def Sought.asTuple : Sought V → V × V
  | value v => (v, v)
  | range start stop => (start, stop)

/-- The documents one query finds. -/
def found (ix : CatalogFieldIndex V) (query : Sought V) : TreeSet ℤ :=
  multiunion1 (ix.fwdIndex.values (bound query.asTuple.1) (bound query.asTuple.2) false false)

/-- How the queries of a search are joined. -/
inductive Operator where
  /-- `'or'` -/
  | or
  /-- `'and'` -/
  | and

/-- `search`. The order in which the sets are intersected makes no difference. -/
def search (ix : CatalogFieldIndex V) (queries : List (Sought V)) (operator : Operator) :
    Option (TreeSet ℤ) :=
  match queries.map ix.found, operator with
  | [set], _ => some set
  | sets, .and => sets.foldl (fun result set => some (intersection set result)) none
  | sets, .or => some (multiunion sets)

/-- What `applyEq` returns: a set, or a list that reads ahead. -/
inductive Matches where
  /-- a `Set` -/
  | set : TreeSet ℤ → Matches
  /-- a `ListPrefetch` -/
  | list : Source ℤ → Matches

/-- Its documents, one after another. -/
def Matches.docids : Matches → Option (Except Exc (List ℤ))
  | set s => some (.ok s.toList)
  | list S => (ListPrefetch.iterateAll S (Sliceable.init S)).1

/-- `applyEq`. -/
def applyEq (ix : CatalogFieldIndex V) (value : V) : Matches :=
  match ix.fwdIndex[value]? with
  | none => .set ∅
  | some (.int docid) => .set (update ∅ [docid])
  | some (.tuple docids) => .set (update ∅ docids)
  | some (.treeSet docs) => .list (ListPrefetch.source docs.toList false)

/-- `applyEq` finds the documents whose value it is. -/
def EqRight (ix : CatalogFieldIndex V) (value : V) : Prop :=
  ∃ docids, (ix.applyEq value).docids = some (.ok docids) ∧
    ∀ docid, docid ∈ docids ↔ ix.revIndex[docid]? = some value

/-- `search` finds what `applyEq` finds for one of the values. -/
def SearchRight (ix : CatalogFieldIndex V) (vs : List V) : Prop :=
  ∃ result, ix.search (vs.map .value) .or = some result ∧
    ∀ docid, docid ∈ result ↔
      ∃ v ∈ vs, ∃ docids, (ix.applyEq v).docids = some (.ok docids) ∧ docid ∈ docids

/-- The condition for the second: `None` is not looked for, or what is looked for with it is
all there is. -/
def NoneOrAll (ix : CatalogFieldIndex V) (vs : List V) : Prop :=
  PyValue.pyNone ∈ vs → ∀ (value : V) (ds : Docs), ix.fwdIndex[value]? = some ds →
    ∀ docid ∈ ds, ∃ v ∈ vs, ∃ ds', ix.fwdIndex[v]? = some ds' ∧ docid ∈ ds'

/-- The condition for the first: a document that has lost its value is in a tree set. -/
def Untorn (discriminatorCallable : Bool) (s : Followed V) : Request V → Prop
  | .indexDoc docid obj => valueOf discriminatorCallable obj = marker →
      ∀ old ∈ s.index.revIndex[docid]?, ∀ ds ∈ s.index.fwdIndex[old]?, isTreeSet ds = true
  | .unindexDoc _ => True

/-! ## What is found

Both follow the forward index. An entry is within the range from a value to itself if it is that
of the value, except that `None` at both ends is taken for no bounds: then every entry is within.
-/

theorem mem_update {result : TreeSet ℤ} {s : List ℤ} {docid : ℤ} :
    docid ∈ update result s ↔ docid ∈ result ∨ docid ∈ s := by
  induction s generalizing result with
  | nil => simp [update]
  | cons d s ih =>
    have hstep : update result (d :: s) = update (result.insert d) s := rfl
    rw [hstep, ih, TreeSet.mem_insert, List.mem_cons, or_comm (a := docid = d), or_assoc]

theorem mem_foldl_update {α : Type} (f : α → List ℤ) {l : List α} {result : TreeSet ℤ}
    {docid : ℤ} : docid ∈ l.foldl (fun r x => update r (f x)) result ↔
      docid ∈ result ∨ ∃ x ∈ l, docid ∈ f x := by
  induction l generalizing result with
  | nil => simp
  | cons x l ih =>
    rw [List.foldl_cons, ih, mem_update, or_assoc]
    simp only [List.mem_cons, exists_eq_or_imp]

theorem mem_multiunion1 {seqs : List Docs} {docid : ℤ} :
    docid ∈ multiunion1 seqs ↔ ∃ ds ∈ seqs, docid ∈ ds := by
  simp [multiunion1, mem_foldl_update]

theorem mem_multiunion {sets : List (TreeSet ℤ)} {docid : ℤ} :
    docid ∈ multiunion sets ↔ ∃ s ∈ sets, docid ∈ s := by
  simp [multiunion, mem_foldl_update]

/-- One query finds the documents of the entries in its range; `None` is no end. -/
theorem mem_found {ix : CatalogFieldIndex V} {query : Sought V} {docid : ℤ} :
    docid ∈ ix.found query ↔ ∃ value ds, ix.fwdIndex[value]? = some ds ∧
      BTree.Within (bound query.asTuple.1) (bound query.asTuple.2) false false value ∧
      docid ∈ ds := by
  rw [found, mem_multiunion1, BTree.values, BTree.items_eq_filter _ (by simp) (by simp)]
  refine ⟨?_, ?_⟩
  · rintro ⟨ds, hds, hd⟩
    obtain ⟨e, he, rfl⟩ := List.mem_map.mp hds
    obtain ⟨he, hwithin⟩ := List.mem_filter.mp he
    exact ⟨e.1, e.2, mem_toList_iff.mp he, of_decide_eq_true hwithin, hd⟩
  · rintro ⟨value, ds, hds, hwithin, hd⟩
    have he : (value, ds) ∈ ix.fwdIndex.toList := mem_toList_iff.mpr hds
    exact ⟨ds, List.mem_map_of_mem (List.mem_filter.mpr ⟨he, decide_eq_true hwithin⟩), hd⟩

/-- A range from a value to itself has that value only, but for `None`. -/
theorem within_self (v value : V) :
    BTree.Within (bound v) (bound v) false false value ↔ v = PyValue.pyNone ∨ value = v := by
  rw [BTree.Within, bound]
  by_cases hv : v = PyValue.pyNone
  · simp [hv]
  · rw [if_neg hv]
    simp only [Option.mem_def, Option.some.injEq, forall_eq', Bool.false_eq_true, false_implies,
      and_true, hv, false_or]
    exact ⟨fun h => h.2.antisymm h.1, fun h => ⟨h.ge, h.le⟩⟩

/-- **What `search` finds** for a list of values. -/
theorem mem_search (ix : CatalogFieldIndex V) (vs : List V) :
    ∃ result, ix.search (vs.map .value) .or = some result ∧ ∀ docid, docid ∈ result ↔
      ∃ v ∈ vs, ∃ value ds, ix.fwdIndex[value]? = some ds ∧ (v = PyValue.pyNone ∨ value = v) ∧
        docid ∈ ds := by
  have hfound : ∀ v docid, docid ∈ ix.found (.value v) ↔ ∃ value ds,
      ix.fwdIndex[value]? = some ds ∧ (v = PyValue.pyNone ∨ value = v) ∧ docid ∈ ds := by
    intro v docid
    rw [mem_found]
    simp only [Sought.asTuple, within_self]
  have hunion : ∀ docid, docid ∈ multiunion ((vs.map Sought.value).map ix.found) ↔
      ∃ v ∈ vs, docid ∈ ix.found (.value v) := by
    intro docid
    simp [mem_multiunion]
  rcases vs with _ | ⟨v, _ | ⟨w, vs⟩⟩
  · refine ⟨_, rfl, fun docid => ?_⟩
    simp [multiunion]
  · refine ⟨_, rfl, fun docid => ?_⟩
    simp [hfound]
  · refine ⟨_, rfl, fun docid => ?_⟩
    apply (hunion docid).trans
    simp only [hfound]

/-- **What `applyEq` finds.** -/
theorem mem_applyEq (ix : CatalogFieldIndex V) (value : V) :
    ∃ docids, (ix.applyEq value).docids = some (.ok docids) ∧ ∀ docid, docid ∈ docids ↔
      ∃ ds, ix.fwdIndex[value]? = some ds ∧ docid ∈ ds := by
  rw [applyEq]
  rcases ix.fwdIndex[value]? with _ | (d | l | s)
  · exact ⟨_, rfl, fun docid => by simp⟩
  · refine ⟨_, rfl, fun docid => ?_⟩
    simp [mem_update, eq_comm]
  · refine ⟨_, rfl, fun docid => ?_⟩
    simp [mem_update]
  · refine ⟨s.toList, (ListPrefetch.iterateAll_init _).1, fun docid => ?_⟩
    simp

/-! ## When it is right

Being right is said by the reverse index. Where the invariant `Proper` holds, the two indexes
agree and `applyEq` is right; and a call that breaks the invariant leaves a document in the
forward index only, so that `applyEq` is wrong from then on. -/

theorem eqRight_iff (ix : CatalogFieldIndex V) (value : V) : EqRight ix value ↔
    ∀ docid : ℤ, (∃ ds, ix.fwdIndex[value]? = some ds ∧ docid ∈ ds) ↔
      ix.revIndex[docid]? = some value := by
  obtain ⟨docids, hdocids, hmem⟩ := ix.mem_applyEq value
  refine ⟨?_, ?_⟩
  · rintro ⟨docids', hdocids', hright⟩ docid
    rw [hdocids] at hdocids'
    obtain rfl := Except.ok.inj (Option.some.inj hdocids')
    exact (hmem docid).symm.trans (hright docid)
  · intro h
    exact ⟨docids, hdocids, fun docid => (hmem docid).trans (h docid)⟩

/-- In a state that keeps the invariant `applyEq` is right. -/
theorem Proper.eqRight {ix : CatalogFieldIndex V} (h : Proper ix) (value : V) :
    EqRight ix value :=
  (eqRight_iff ix value).mpr fun docid => (h.rep.mem_iff docid value).symm

theorem searchRight_iff (ix : CatalogFieldIndex V) (vs : List V) :
    SearchRight ix vs ↔ NoneOrAll ix vs := by
  obtain ⟨result, hresult, hmem⟩ := ix.mem_search vs
  have happly : ∀ docid v, (∃ docids, (ix.applyEq v).docids = some (.ok docids) ∧
      docid ∈ docids) ↔ ∃ ds, ix.fwdIndex[v]? = some ds ∧ docid ∈ ds := by
    intro docid v
    obtain ⟨docids, hdocids, hin⟩ := ix.mem_applyEq v
    rw [← hin, hdocids]
    simp
  refine ⟨?_, ?_⟩
  · rintro ⟨result', hresult', hright⟩ hnone value ds hds docid hd
    rw [hresult] at hresult'
    obtain rfl := Option.some.inj hresult'
    have hin : docid ∈ result := (hmem docid).mpr ⟨_, hnone, value, ds, hds, .inl rfl, hd⟩
    obtain ⟨v, hv, hfind⟩ := (hright docid).mp hin
    exact ⟨v, hv, (happly docid v).mp hfind⟩
  · intro h
    refine ⟨result, hresult, fun docid => ?_⟩
    simp only [hmem, happly]
    refine ⟨?_, ?_⟩
    · rintro ⟨v, hv, value, ds, hds, hrange, hd⟩
      rcases hrange with rfl | rfl
      · exact h hv value ds hds docid hd
      · exact ⟨value, hv, ds, hds, hd⟩
    · rintro ⟨v, hv, ds, hds, hd⟩
      exact ⟨v, hv, v, ds, hds, .inr rfl, hd⟩

section Step

variable {discriminatorCallable : Bool} {s : Followed V}

/-- An untorn call keeps the invariant. -/
theorem Proper.untorn (h : Proper s.index) {request : Request V}
    (hu : Untorn discriminatorCallable s request) :
    Proper (followed discriminatorCallable s request).2.index := by
  cases request with
  | unindexDoc docid => exact h.unindexDoc docid
  | indexDoc docid obj =>
    rw [followed]
    simp only
    by_cases hvalue : valueOf discriminatorCallable obj = marker
    · have hok := (h.rep.superUnindexDoc (hu hvalue)).1
      rw [hvalue, h.indexDoc_marker hok]
      exact (h.unindexDoc docid).notIndexed _
    · by_cases href : PyValue.persistent (valueOf discriminatorCallable obj) = true ∨
          PyValue.broken (valueOf discriminatorCallable obj) = true
      · obtain ⟨e, hrun⟩ := @indexDoc_refused _ _ s.index docid _ hvalue href
        rw [hrun]
        exact h
      · obtain ⟨hp, hb⟩ := not_or.mp href
        rw [indexDoc_apply hvalue (Bool.eq_false_iff.mpr hp) (Bool.eq_false_iff.mpr hb)]
        exact (h.notIndexed _).innerIndexDoc hvalue docid

/-- A call that leaves `applyEq` right is untorn: else the document is in the forward index
only. -/
theorem Proper.of_eqRight (h : Proper s.index) {request : Request V}
    (hright : ∀ value, EqRight (followed discriminatorCallable s request).2.index value) :
    Untorn discriminatorCallable s request := by
  cases request with
  | unindexDoc docid => trivial
  | indexDoc docid obj =>
    intro hvalue old hold ds hds
    by_contra hset
    obtain ⟨e, hrun⟩ := indexDoc_raises hold hds (Bool.eq_false_iff.mpr hset)
    have hiff := (eqRight_iff _ old).mp (hright old) docid
    rw [followed, hvalue, hrun] at hiff
    obtain ⟨ds', hds', hd⟩ := (h.rep.mem_iff docid old).mp hold
    have hgone := hiff.mp ⟨ds', hds', hd⟩
    simp at hgone

end Step

/-- **The equality paths agree, exactly**: over every sequence of calls on an empty index,
`applyEq` finds the documents whose value it is, in every state reached and for every value,
if and only if all calls are untorn; and in every state `search` finds what `applyEq` finds
if and only if `None` is not looked for, or with everything else. -/
theorem equality_paths (discriminatorCallable : Bool) (requests : List (Request V)) :
    ((∀ s ∈ (followed discriminatorCallable).states (⟨.empty, fun _ => none⟩ : Followed V) requests,
        ∀ value, EqRight s.index value) ↔
      (followed discriminatorCallable).Along (Untorn discriminatorCallable)
        (⟨.empty, fun _ => none⟩ : Followed V) requests) ∧
    ∀ s ∈ (followed discriminatorCallable).states (⟨.empty, fun _ => none⟩ : Followed V) requests,
      ∀ vs, SearchRight s.index vs ↔ NoneOrAll s.index vs := by
  refine ⟨?_, fun s _ vs => searchRight_iff s.index vs⟩
  refine @Machine.states_inv_iff_along _ _ _ (followed discriminatorCallable)
    (Untorn discriminatorCallable) (fun s => ∀ value, EqRight s.index value)
    (fun s => Proper s.index) (fun s request h _ hu => h.untorn hu)
    (fun s request h _ => ⟨h.of_eqRight, fun hu value => (h.untorn hu).eqRight value⟩) _
    proper_empty (fun value => proper_empty.eqRight value) requests

/-- Among documents with other values `None` is found everywhere by `search`, and nowhere by
`applyEq`; and a document that has lost its attribute is found where it was. -/
theorem not_equality_paths :
    (∃ s ∈ (followed false).states (⟨.empty, fun _ => none⟩ : Followed TupleValue)
        [.indexDoc 1 ⟨some ([5] : List ℤ), none⟩],
      ¬ SearchRight s.index [PyValue.pyNone]) ∧
    ∃ s ∈ (followed false).states (⟨.empty, fun _ => none⟩ : Followed TupleValue)
        [.indexDoc 1 ⟨some ([5] : List ℤ), none⟩, .indexDoc 1 ⟨none, none⟩],
      ¬ EqRight s.index ([5] : List ℤ) := by
  refine ⟨⟨_, Machine.final_mem_states _ _ _, fun h => ?_⟩,
    ⟨_, Machine.final_mem_states _ _ _, fun h => ?_⟩⟩
  · have hall := (searchRight_iff _ _).mp h (List.mem_singleton_self _) ([5] : List ℤ) (.int 1)
      (by decide +kernel) 1 rfl
    obtain ⟨v, hv, ds, hds, -⟩ := hall
    obtain rfl := List.mem_singleton.mp hv
    have hnone : ((followed false).final (⟨.empty, fun _ => none⟩ : Followed TupleValue)
      [.indexDoc 1 ⟨some ([5] : List ℤ), none⟩]).index.fwdIndex[(PyValue.pyNone : TupleValue)]? =
        none := by decide +kernel
    rw [hnone] at hds
    cases hds
  · have hgone := ((eqRight_iff _ _).mp h 1).mp ⟨.int 1, by decide +kernel, rfl⟩
    have hnone : ((followed false).final (⟨.empty, fun _ => none⟩ : Followed TupleValue)
      [.indexDoc 1 ⟨some ([5] : List ℤ), none⟩, .indexDoc 1 ⟨none, none⟩]).index.revIndex[(1 : ℤ)]? =
        none := by decide +kernel
    rw [hnone] at hgone
    cases hgone

end CatalogFieldIndex

end Zerodb
