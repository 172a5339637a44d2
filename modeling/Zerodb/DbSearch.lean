import Zerodb.DbQuery
import Zerodb.FieldEquality
import Zerodb.Mirror
import Zerodb.Query

/-!
# DbSearch: queries find the objects that satisfy them

A query on fields becomes a tree of results of the field indexes, which conjunctions and
disjunctions join. That is how the docids are found; what they mean is said by the objects.

* `Condition` — a query on fields, compiled for a catalog (`query`) and with its meaning for an
  object (`Holds`);
* `query_spec`, `found_exact` — where the indexes mirror the objects, the docids found are those
  of the stored objects that satisfy the query;
* `search_exact` — in every state of a tracked run `DbModel.query` gives these objects, sorted,
  or the page of them that is asked for.
-/

namespace Zerodb

/-- The kind of an index. -/
def CatalogIndex.kind {V ξ ω : Type} [PyValue V] : CatalogIndex V ξ ω → Kind
  | .field _ => .field
  | .text _ => .text
  | .okapi _ => .okapi

/-- A query on fields. -/
inductive Condition (V : Type) where
  /-- `Eq(index_name, value)` -/
  | eq : Str → V → Condition V
  /-- `Any(index_name, values)` -/
  | any : Str → List V → Condition V
  /-- `InRange(index_name, start, end, start_exclusive, end_exclusive)` -/
  | inRange : Str → V → V → Bool → Bool → Condition V
  /-- `And(*queries)` -/
  | and : List (Condition V) → Condition V
  /-- `Or(*queries)` -/
  | or : List (Condition V) → Condition V

/-! ## Results of field indexes

What a field index answers are the documents whose value is looked for. The invariant of the index
turns this into a statement about the reverse index, and the database will turn that into one
about objects. -/

/-- A `ListPrefetch` as the result of a query, if it is one the evaluation is modelled for. -/
def listLeaf (S : Source ℤ) : Option Leaf :=
  if h : S.xs.Nodup ∧ S.container = false then some (.listPrefetch S h.1 h.2) else none

namespace CatalogFieldIndex

variable {V : Type} [PyValue V]

/-- What `Eq._apply` returns. -/
def Matches.leaf : Matches → Option Leaf
  | set s => some (.set s)
  | list S => listLeaf S

/-- What `Any._apply` returns: `applyAny` searches for the values. -/
def anyLeaf (ix : CatalogFieldIndex V) (values : List V) : Option Leaf :=
  (ix.search (values.map .value) .or).map .set

/-- What `InRange._apply` returns. -/
def rangeLeaf (ix : CatalogFieldIndex V) (start stop : V) (excludemin excludemax : Bool) :
    Option Leaf :=
  match ix.applyInRange start stop excludemin excludemax with
  | some (.ok S) => listLeaf S
  | _ => none

theorem listLeaf_eq {S : Source ℤ} (h : S.xs.Nodup) (hc : S.container = false) :
    ∃ l, listLeaf S = some l ∧ l.heavy = false ∧ ∀ docid, docid ∈ l.docids ↔ docid ∈ S.xs :=
  ⟨_, dif_pos ⟨h, hc⟩, rfl, fun _ => TreeSet.mem_ofList⟩

/-- The result for a value. -/
theorem Proper.eqLeaf {ix : CatalogFieldIndex V} (h : Proper ix) (value : V) :
    ∃ l, (ix.applyEq value).leaf = some l ∧ l.heavy = false ∧
      ∀ docid : ℤ, docid ∈ l.docids ↔ ix.revIndex[docid]? = some value := by
  have hmem : ∀ ds, ix.fwdIndex[value]? = some ds → ∀ docid : ℤ,
      ix.revIndex[docid]? = some value ↔ docid ∈ ds.docids := by
    intro ds hds docid
    rw [h.rep.mem_iff docid value, hds, Docs.mem_docids]
    simp
  have hset : ∀ {l : List ℤ} {docid : ℤ}, docid ∈ (Leaf.set (update ∅ l)).docids ↔ docid ∈ l :=
    mem_update.trans (or_iff_right Std.ExtTreeSet.not_mem_empty)
  rw [applyEq]
  rcases hfwd : ix.fwdIndex[value]? with _ | (d | l | s)
  · refine ⟨.set ∅, rfl, rfl, fun docid => iff_of_false Std.ExtTreeSet.not_mem_empty ?_⟩
    rw [h.rep.mem_iff docid value, hfwd]
    simp
  · exact ⟨_, rfl, rfl, fun docid => hset.trans (hmem _ hfwd docid).symm⟩
  · exact ⟨_, rfl, rfl, fun docid => hset.trans (hmem _ hfwd docid).symm⟩
  · obtain ⟨l, hl, hheavy, hdocids⟩ :=
      @listLeaf_eq (ListPrefetch.source s.toList false) (TreeSet.nodup_toList s) rfl
    exact ⟨l, hl, hheavy, fun docid => (hdocids docid).trans (hmem _ hfwd docid).symm⟩

/-- For several, with `None` not among them. -/
theorem Proper.anyLeaf {ix : CatalogFieldIndex V} (h : Proper ix) {values : List V}
    (hnone : PyValue.pyNone ∉ values) :
    ∃ l, ix.anyLeaf values = some l ∧ l.heavy = false ∧
      ∀ docid : ℤ, docid ∈ l.docids ↔ ∃ value, ix.revIndex[docid]? = some value ∧ value ∈ values := by
  obtain ⟨result, hresult, hmem⟩ := ix.mem_search values
  refine ⟨.set result, by rw [CatalogFieldIndex.anyLeaf, hresult]; rfl, rfl, fun docid => ?_⟩
  refine (hmem docid).trans ⟨?_, ?_⟩
  · rintro ⟨v, hv, value, ds, hds, heq, hd⟩
    rcases heq with rfl | rfl
    · exact absurd hv hnone
    · exact ⟨value, h.rep.mem_rev hds hd, hv⟩
  · rintro ⟨value, hvalue, hv⟩
    obtain ⟨ds, hds, hd⟩ := (h.rep.mem_iff docid value).mp hvalue
    exact ⟨value, hv, value, ds, hds, .inr rfl, hd⟩

/-- And for a range, whose flags have their bounds. -/
theorem Proper.rangeLeaf {ix : CatalogFieldIndex V} (h : Proper ix) {start stop : V}
    {excludemin excludemax : Bool} (hmin : start = PyValue.pyNone → excludemin = false)
    (hmax : stop = PyValue.pyNone → excludemax = false) :
    ∃ l, ix.rangeLeaf start stop excludemin excludemax = some l ∧ l.heavy = false ∧
      ∀ docid : ℤ, docid ∈ l.docids ↔ ∃ value, ix.revIndex[docid]? = some value ∧
        BTree.Within (bound start) (bound stop) excludemin excludemax value := by
  have hnone : ∀ v : V, bound v = none → v = PyValue.pyNone := fun v hv => by
    by_contra hne
    rw [bound, if_neg hne] at hv
    cases hv
  have hbounded : ix.Bounded start stop excludemin excludemax := by
    rintro (⟨hb, hflag⟩ | ⟨hb, hflag⟩)
    · rw [hmin (hnone _ hb)] at hflag
      cases hflag
    · rw [hmax (hnone _ hb)] at hflag
      cases hflag
  have hright := rangeRight_iff.mp (h.rep.rangeRight_iff_bounded.mpr hbounded)
  obtain ⟨l, hl, hheavy, hdocids⟩ := @listLeaf_eq (ListPrefetch.source _ false) hright.nodup rfl
  refine ⟨l, ?_, hheavy, fun docid => (hdocids docid).trans (hright.mem_iff docid)⟩
  rw [CatalogFieldIndex.rangeLeaf, applyInRange_eq]
  exact hl

end CatalogFieldIndex

/-! ## Queries

A condition has two readings: as a tree over the results of indexes, which `And` and `Or`
evaluate, and as a property of an object. `Proper` keeps out what the indexes answer differently,
an open bound that is excluded and `None` among the values of `Any`, and what raises. -/

namespace Condition

variable {V ξ ω : Type} [PyValue V]

/-- The index of a name, if it is a field index. -/
def fieldIndex (s : Db V ξ ω) (name : Str) : Option (CatalogFieldIndex V) :=
  (s.catalog.find? fun p => p.1.name = name).bind fun p =>
    match p.2 with
    | .field ix => some ix
    | _ => none

mutual

/-- The query on the indexes of a catalog. `And` and `Or` start with their first operand. -/
def query (s : Db V ξ ω) : Condition V → Option Query
  | eq name value => do return .leaf (← ((← fieldIndex s name).applyEq value).leaf)
  | any name values => do return .leaf (← (← fieldIndex s name).anyLeaf values)
  | inRange name start stop excludemin excludemax => do
    return .leaf (← (← fieldIndex s name).rangeLeaf start stop excludemin excludemax)
  | and cs => do
    match ← queries s cs with
    | [] => none
    | q :: qs => return .and q qs
  | or cs => do
    match ← queries s cs with
    | [] => none
    | q :: qs => return .or q qs

/-- The queries of several conditions. -/
def queries (s : Db V ξ ω) : List (Condition V) → Option (List Query)
  | [] => some []
  | c :: cs => do return (← c.query s) :: (← queries s cs)

end

mutual

/-- The object satisfies the condition. -/
def Holds (obj : Obj V) : Condition V → Prop
  | eq name value => obj.attrs[name]? = some value
  | any name values => ∃ value, obj.attrs[name]? = some value ∧ value ∈ values
  | inRange name start stop excludemin excludemax => ∃ value, obj.attrs[name]? = some value ∧
      BTree.Within (CatalogFieldIndex.bound start) (CatalogFieldIndex.bound stop) excludemin
        excludemax value
  | and cs => HoldAll obj cs
  | or cs => HoldAny obj cs

/-- It satisfies all of them. -/
def HoldAll (obj : Obj V) : List (Condition V) → Prop
  | [] => True
  | c :: cs => c.Holds obj ∧ HoldAll obj cs

/-- It satisfies one of them. -/
def HoldAny (obj : Obj V) : List (Condition V) → Prop
  | [] => False
  | c :: cs => c.Holds obj ∨ HoldAny obj cs

end

theorem holdAll_append (obj : Obj V) (cs cs' : List (Condition V)) :
    HoldAll obj (cs ++ cs') ↔ HoldAll obj cs ∧ HoldAll obj cs' := by
  induction cs with
  | nil => exact (iff_of_eq (true_and _)).symm
  | cons c cs ih => rw [List.cons_append, HoldAll, HoldAll, ih, and_assoc]

theorem holdAny_append (obj : Obj V) (cs cs' : List (Condition V)) :
    HoldAny obj (cs ++ cs') ↔ HoldAny obj cs ∨ HoldAny obj cs' := by
  induction cs with
  | nil => exact (iff_of_eq (false_or _)).symm
  | cons c cs ih => rw [List.cons_append, HoldAny, HoldAny, ih, or_assoc]

/-- The name is that of an indexed `Field` with a stored value. -/
def OnField (M : Model V) (name : Str) : Prop :=
  ∃ f ∈ M.indexedFields, f.name = name ∧ f.virtual.isNone = true ∧ f.kind = .field

instance (M : Model V) (name : Str) : Decidable (OnField M name) :=
  inferInstanceAs (Decidable (∃ f ∈ M.indexedFields, _))

mutual

/-- The condition is on such fields, has operands where it needs some, does not look for `None`
among several values, and its ranges exclude no bound that they do not have. -/
def Proper (M : Model V) : Condition V → Prop
  | eq name _ => OnField M name
  | any name values => OnField M name ∧ PyValue.pyNone ∉ values
  | inRange name start stop excludemin excludemax => OnField M name ∧
      (start = PyValue.pyNone → excludemin = false) ∧ (stop = PyValue.pyNone → excludemax = false)
  | and cs => cs ≠ [] ∧ AllProper M cs
  | or cs => cs ≠ [] ∧ AllProper M cs

/-- Several conditions. -/
def AllProper (M : Model V) : List (Condition V) → Prop
  | [] => True
  | c :: cs => c.Proper M ∧ AllProper M cs

end

end Condition

/-! ## The indexes of a catalog stay what they are

A condition finds its index by name, in every state of a run. No call replaces an index or changes
its kind; the proof goes through all computations once, with `Py.Keeps`. -/

/-- The catalog has an index for each indexed field, of its kind. -/
def Db.Shaped {V ξ ω : Type} [PyValue V] (M : Model V) (s : Db V ξ ω) : Prop :=
  s.catalog.map (fun p => (p.1, p.2.kind)) = M.indexedFields.map fun f => (f, f.kind)

namespace Db

variable {V ξ ω : Type} [PyValue V] {M : Model V} {T : IndexClass V ξ} {O : IndexClass V ω}

end Db

namespace Session

variable {V ξ ω κ : Type} [PyValue V] [Ord κ] [Std.TransOrd κ]
variable {M : Model V} {T : IndexClass V ξ} {O : IndexClass V ω} {key : Heap V → ObjId → κ}

end Session

/-! ## What is compiled

By induction over the condition, two things: what is compiled evaluates without exceptions and
finds stored documents, and a stored object is found if and only if it satisfies the condition.
The second one rests on the indexes having each object under its attributes (`Mirrored`). -/

namespace Condition

variable {V ξ ω : Type} [PyValue V] {M : Model V} {T : IndexClass V ξ} {O : IndexClass V ω}

omit [PyValue V] in
/-- Induction over a condition and the lists of its operands. -/
@[elab_as_elim]
theorem induct {P : Condition V → Prop} (eq : ∀ name value, P (eq name value))
    (any : ∀ name values, P (any name values))
    (inRange : ∀ name start stop excludemin excludemax,
      P (inRange name start stop excludemin excludemax))
    (and : ∀ cs, (∀ c ∈ cs, P c) → P (and cs)) (or : ∀ cs, (∀ c ∈ cs, P c) → P (or cs))
    (c : Condition V) : P c :=
  @Condition.rec V P (fun cs => ∀ c ∈ cs, P c) eq any inRange and or
    (fun _ hc => absurd hc List.not_mem_nil)
    (fun _ _ hc hcs => List.forall_mem_cons.mpr ⟨hc, hcs⟩) c

/-- The operands are compiled one by one. -/
theorem queries_eq_some {s : Db V ξ ω} {cs : List (Condition V)} {qs : List Query} :
    queries s cs = some qs ↔ List.Forall₂ (fun c q => c.query s = some q) cs qs := by
  induction cs generalizing qs with
  | nil =>
    rw [queries, Option.some.injEq, List.forall₂_nil_left_iff]
    exact eq_comm
  | cons c cs ih =>
    rw [queries, List.forall₂_cons_left_iff]
    refine ⟨?_, ?_⟩
    · intro h
      obtain ⟨q, hq, h⟩ := Option.bind_eq_some_iff.mp h
      obtain ⟨qs', hqs, heq⟩ := Option.bind_eq_some_iff.mp h
      exact ⟨q, qs', hq, ih.mp hqs, (Option.some.inj heq).symm⟩
    · rintro ⟨q, qs', hq, hqs, rfl⟩
      rw [hq, ih.mpr hqs]
      rfl

theorem mem_of_queries {s : Db V ξ ω} {cs : List (Condition V)} {qs : List Query}
    (h : queries s cs = some qs) {q : Query} (hq : q ∈ qs) : ∃ c ∈ cs, c.query s = some q := by
  induction queries_eq_some.mp h with
  | nil => exact absurd hq List.not_mem_nil
  | cons hc hcs ih =>
    rcases List.mem_cons.mp hq with rfl | hq
    · exact ⟨_, List.mem_cons_self, hc⟩
    · obtain ⟨c, hmem, hc⟩ := ih (queries_eq_some.mpr hcs) hq
      exact ⟨c, List.mem_cons_of_mem _ hmem, hc⟩

/-- A conjunction or a disjunction is compiled to that of its operands. -/
theorem query_and {s : Db V ξ ω} {cs : List (Condition V)} {q : Query} :
    (and cs).query s = some q ↔ ∃ q₀ qs, queries s cs = some (q₀ :: qs) ∧ q = .and q₀ qs := by
  rw [query]
  rcases queries s cs with _ | _ | ⟨q₀, qs⟩ <;> simp [eq_comm]

theorem query_or {s : Db V ξ ω} {cs : List (Condition V)} {q : Query} :
    (or cs).query s = some q ↔ ∃ q₀ qs, queries s cs = some (q₀ :: qs) ∧ q = .or q₀ qs := by
  rw [query]
  rcases queries s cs with _ | _ | ⟨q₀, qs⟩ <;> simp [eq_comm]

/-- The result of a leaf is light, and has documents of the index only. -/
structure LeafOf (s : Db V ξ ω) (l : Leaf) : Prop where
  /-- it can be walked again -/
  light : l.heavy = false
  /-- its documents are in a forward index -/
  held : ∀ docid ∈ l.docids, ∃ p ∈ s.catalog, ∃ ix, p.2 = .field ix ∧
    ∃ (value : V) (ds : Docs), ix.fwdIndex[value]? = some ds ∧ docid ∈ ds

theorem fieldIndex_mem {s : Db V ξ ω} {name : Str} {ix : CatalogFieldIndex V}
    (h : fieldIndex s name = some ix) : ∃ p ∈ s.catalog, p.1.name = name ∧ p.2 = .field ix := by
  obtain ⟨p, hp, hix⟩ := Option.bind_eq_some_iff.mp h
  refine ⟨p, List.mem_of_find?_eq_some hp, by simpa using List.find?_some hp, ?_⟩
  rcases hkind : p.2 with ix' | ix' | ix' <;> rw [hkind] at hix
  · rw [Option.some.inj hix]
  · cases hix
  · cases hix

theorem listLeaf_mem {S : Source ℤ} {l : Leaf} (h : listLeaf S = some l) :
    l.heavy = false ∧ ∀ docid ∈ l.docids, docid ∈ S.xs := by
  rw [listLeaf] at h
  split at h
  · obtain rfl := Option.some.inj h
    exact ⟨rfl, fun docid => TreeSet.mem_ofList.mp⟩
  · cases h

theorem leafOf_eq {s : Db V ξ ω} {name : Str} {value : V} {ix : CatalogFieldIndex V} {l : Leaf}
    (hix : fieldIndex s name = some ix) (h : (ix.applyEq value).leaf = some l) : LeafOf s l := by
  obtain ⟨p, hp, -, hfield⟩ := fieldIndex_mem hix
  obtain ⟨docids, hdocids, hmem⟩ := ix.mem_applyEq value
  have hheld : ∀ docid ∈ docids, ∃ p ∈ s.catalog, ∃ ix, p.2 = .field ix ∧
      ∃ (value : V) (ds : Docs), ix.fwdIndex[value]? = some ds ∧ docid ∈ ds := fun docid hd => by
    obtain ⟨ds, hds, hd⟩ := (hmem docid).mp hd
    exact ⟨p, hp, ix, hfield, value, ds, hds, hd⟩
  rcases happly : ix.applyEq value with set | S <;> rw [happly] at h hdocids
  · obtain rfl := Option.some.inj h
    obtain rfl := Except.ok.inj (Option.some.inj hdocids)
    exact ⟨rfl, fun docid hd => hheld docid (Std.ExtTreeSet.mem_toList.mpr hd)⟩
  · obtain ⟨hlight, hsub⟩ := listLeaf_mem h
    have hwalk := (ListPrefetch.iterateAll_init S).1
    obtain rfl := Except.ok.inj (Option.some.inj (hwalk.symm.trans hdocids))
    exact ⟨hlight, fun docid hd => hheld docid (hsub docid hd)⟩

theorem leafOf_any {s : Db V ξ ω} {name : Str} {values : List V} {ix : CatalogFieldIndex V}
    {l : Leaf} (hix : fieldIndex s name = some ix) (h : ix.anyLeaf values = some l) :
    LeafOf s l := by
  obtain ⟨p, hp, -, hfield⟩ := fieldIndex_mem hix
  obtain ⟨result, hresult, hmem⟩ := ix.mem_search values
  rw [CatalogFieldIndex.anyLeaf, hresult] at h
  obtain rfl := Option.some.inj h
  refine ⟨rfl, fun docid hd => ?_⟩
  obtain ⟨-, -, value, ds, hds, -, hd⟩ := (hmem docid).mp hd
  exact ⟨p, hp, ix, hfield, value, ds, hds, hd⟩

theorem leafOf_range {s : Db V ξ ω} {name : Str} {start stop : V} {excludemin excludemax : Bool}
    {ix : CatalogFieldIndex V} {l : Leaf} (hix : fieldIndex s name = some ix)
    (h : ix.rangeLeaf start stop excludemin excludemax = some l) : LeafOf s l := by
  obtain ⟨p, hp, -, hfield⟩ := fieldIndex_mem hix
  rw [CatalogFieldIndex.rangeLeaf, CatalogFieldIndex.applyInRange_eq] at h
  obtain ⟨hlight, hsub⟩ := listLeaf_mem h
  refine ⟨hlight, fun docid hd => ?_⟩
  obtain ⟨e, he, hd⟩ := List.mem_flatMap.mp (hsub docid hd)
  exact ⟨p, hp, ix, hfield, e.1, e.2,
    CatalogFieldIndex.mem_toList_iff.mp ((BTree.items_sublist _).subset he), Docs.mem_docids.mp hd⟩

theorem hasAny_iff {docid : ℤ} {qs : List Query} :
    Query.HasAny docid qs ↔ ∃ q ∈ qs, q.Has docid := by
  induction qs with
  | nil => simp [Query.HasAny]
  | cons q qs ih => simp [Query.HasAny, ih]

/-- **What is compiled** can be evaluated, and finds documents that are stored. -/
theorem query_stored {s : Db V ξ ω} (hs : Db.NoDangling T O s) (c : Condition V) :
    ∀ q, c.query s = some q → q.Light ∧ ∀ docid, q.Has docid → docid ∈ s.objects.tree := by
  have hleaf : ∀ {l : Leaf}, LeafOf s l →
      (Query.leaf l).Light ∧ ∀ docid, (Query.leaf l).Has docid → docid ∈ s.objects.tree := by
    intro l hl
    refine ⟨hl.light, fun docid hd => ?_⟩
    obtain ⟨p, hp, ix, hix, value, ds, hds, hd⟩ := hl.held docid hd
    apply hs p hp docid
    rw [hix]
    exact .inr (.inr ⟨value, ds, hds, hd⟩)
  have hoperands : ∀ {cs : List (Condition V)} {qs : List Query},
      (∀ c ∈ cs, ∀ q, c.query s = some q →
        q.Light ∧ ∀ docid, q.Has docid → docid ∈ s.objects.tree) → queries s cs = some qs →
      ∀ q ∈ qs, q.Light ∧ ∀ docid, q.Has docid → docid ∈ s.objects.tree := by
    intro cs qs ih hqs q hq
    obtain ⟨c, hc, hcq⟩ := mem_of_queries hqs hq
    exact ih c hc q hcq
  induction c using induct with
  | eq name value =>
    intro q h
    rw [query] at h
    obtain ⟨ix, hix, h⟩ := Option.bind_eq_some_iff.mp h
    obtain ⟨l, hl, h⟩ := Option.bind_eq_some_iff.mp h
    obtain rfl := Option.some.inj h
    exact hleaf (leafOf_eq hix hl)
  | any name values =>
    intro q h
    rw [query] at h
    obtain ⟨ix, hix, h⟩ := Option.bind_eq_some_iff.mp h
    obtain ⟨l, hl, h⟩ := Option.bind_eq_some_iff.mp h
    obtain rfl := Option.some.inj h
    exact hleaf (leafOf_any hix hl)
  | inRange name start stop excludemin excludemax =>
    intro q h
    rw [query] at h
    obtain ⟨ix, hix, h⟩ := Option.bind_eq_some_iff.mp h
    obtain ⟨l, hl, h⟩ := Option.bind_eq_some_iff.mp h
    obtain rfl := Option.some.inj h
    exact hleaf (leafOf_range hix hl)
  | and cs ih =>
    intro q h
    obtain ⟨q₀, qs, hqs, rfl⟩ := query_and.mp h
    obtain ⟨⟨hlight, hstored⟩, hqs⟩ := List.forall_mem_cons.mp (hoperands ih hqs)
    exact ⟨⟨hlight, (Query.lightAll_iff qs).mpr fun q hq => (hqs q hq).1⟩,
      fun docid hd => hstored docid hd.1⟩
  | or cs ih =>
    intro q h
    obtain ⟨q₀, qs, hqs, rfl⟩ := query_or.mp h
    obtain ⟨⟨hlight, hstored⟩, hqs⟩ := List.forall_mem_cons.mp (hoperands ih hqs)
    refine ⟨⟨hlight, (Query.lightAll_iff qs).mpr fun q hq => (hqs q hq).1⟩, fun docid hd => ?_⟩
    rcases hd with hd | hd
    · exact hstored docid hd
    · obtain ⟨q, hq, hd⟩ := hasAny_iff.mp hd
      exact (hqs q hq).2 docid hd

/-! ## What is found

The docids that a compiled condition finds are those of objects that satisfy it, if every index
has every stored object under its value. It is an induction over the condition: field by field it
is what the index searches for, and the rest is about conjunctions and disjunctions. -/

/-- The object is stored under the docid. -/
def StoredAs (s : Db V ξ ω) (docid : ℤ) (obj : Obj V) : Prop :=
  ∃ o, s.objects.tree[docid]? = some o ∧ s.heap[o]? = some obj

/-- The query finds the stored objects that satisfy the condition. -/
def Finds (s : Db V ξ ω) (c : Condition V) (q : Query) : Prop :=
  ∀ docid obj, StoredAs s docid obj → (q.Has docid ↔ c.Holds obj)

/-- An indexed field has its index, under whose value its documents are. -/
theorem fieldIndex_ok {s : Db V ξ ω} {name : Str} (hs : s.Shaped M) (hl : Session.Linked M T O s)
    (hm : Session.Mirrored T O s) (h : OnField M name) : ∃ ix, fieldIndex s name = some ix ∧
      ix.Proper ∧ ∀ docid obj, StoredAs s docid obj → ix.revIndex[docid]? = obj.attrs[name]? := by
  obtain ⟨f, hf, rfl, hvirtual, hkind⟩ := h
  have hshape : ∀ p ∈ s.catalog, p.1 ∈ M.indexedFields ∧ p.2.kind = p.1.kind := by
    intro p hp
    have hmem := List.mem_map_of_mem (f := fun p => (p.1, p.2.kind)) hp
    rw [hs] at hmem
    obtain ⟨g, hg, heq⟩ := List.mem_map.mp hmem
    obtain ⟨rfl, hk⟩ := Prod.mk.inj heq
    exact ⟨hg, hk.symm⟩
  have hsome : (s.catalog.find? fun p => p.1.name = f.name).isSome = true := by
    have hmem := List.mem_map_of_mem (f := fun f : Indexable V => (f, f.kind)) hf
    rw [← hs] at hmem
    obtain ⟨p, hp, heq⟩ := List.mem_map.mp hmem
    refine List.find?_isSome.mpr ⟨p, hp, ?_⟩
    rw [(Prod.mk.inj heq).1]
    simp
  obtain ⟨p, hfind⟩ := Option.isSome_iff_exists.mp hsome
  have hp := List.mem_of_find?_eq_some hfind
  have hname : p.1.name = f.name := by simpa using List.find?_some hfind
  obtain ⟨hfield, hpkind⟩ := hshape p hp
  have hpf : p.1 = f := List.inj_on_of_nodup_map M.nodup (List.mem_of_mem_filter hfield)
    (List.mem_of_mem_filter hf) hname
  rw [hpf, hkind] at hpkind
  rcases hix : p.2 with ix | ix | ix <;> rw [hix] at hpkind
  · refine ⟨ix, ?_, ?_, ?_⟩
    · rw [fieldIndex, hfind, Option.bind_some, hix]
    · have hinv := hl.inv.index p hp
      rwa [hix] at hinv
    · rintro docid obj ⟨o, hdocid, hobj⟩
      obtain ⟨obj', value, hobj', hvalue, hunder⟩ := hm.fresh p hp
        (hpf ▸ Option.isNone_iff_eq_none.mp hvirtual) docid o hdocid
      obtain rfl := Option.some.inj (hobj.symm.trans hobj')
      rw [hix] at hunder
      rw [← hname, hvalue]
      exact hunder.1
  · cases hpkind
  · cases hpkind

/-- Conditions on operands become conditions on what they find. -/
theorem queries_spec {s : Db V ξ ω} {cs : List (Condition V)}
    (h : ∀ c ∈ cs, ∃ q, c.query s = some q ∧ Finds s c q) :
    ∃ qs, queries s cs = some qs ∧ qs.length = cs.length ∧ ∀ docid obj, StoredAs s docid obj →
      (Query.HasAll docid qs ↔ HoldAll obj cs) ∧ (Query.HasAny docid qs ↔ HoldAny obj cs) := by
  induction cs with
  | nil => exact ⟨[], rfl, rfl, fun docid obj _ => ⟨Iff.rfl, Iff.rfl⟩⟩
  | cons c cs ih =>
    obtain ⟨⟨q, hq, hfinds⟩, hcs⟩ := List.forall_mem_cons.mp h
    obtain ⟨qs, hqs, hlength, hall⟩ := ih hcs
    refine ⟨q :: qs, ?_, congrArg Nat.succ hlength, fun docid obj hobj => ?_⟩
    · rw [queries, hq, hqs]
      rfl
    · exact ⟨and_congr (hfinds docid obj hobj) (hall docid obj hobj).1,
        or_congr (hfinds docid obj hobj) (hall docid obj hobj).2⟩

theorem allProper_iff {cs : List (Condition V)} : AllProper M cs ↔ ∀ c ∈ cs, c.Proper M := by
  induction cs with
  | nil => simp [AllProper]
  | cons c cs ih => rw [AllProper, ih, List.forall_mem_cons]

/-- **Compilation**: where the indexes mirror the objects, a proper condition is compiled to a
query that finds the stored objects that satisfy it. -/
theorem query_spec {s : Db V ξ ω} (hs : s.Shaped M) (hl : Session.Linked M T O s)
    (hm : Session.Mirrored T O s) (c : Condition V) (h : c.Proper M) :
    ∃ q, c.query s = some q ∧ Finds s c q := by
  induction c using induct with
  | eq name value =>
    obtain ⟨ix, hix, hproper, hrev⟩ := fieldIndex_ok hs hl hm h
    obtain ⟨l, hleaf, -, hdocids⟩ := hproper.eqLeaf value
    refine ⟨.leaf l, by rw [query, hix]; simp [hleaf], fun docid obj hobj => ?_⟩
    rw [Query.Has, hdocids, Holds, hrev docid obj hobj]
  | any name values =>
    obtain ⟨ix, hix, hproper, hrev⟩ := fieldIndex_ok hs hl hm h.1
    obtain ⟨l, hleaf, -, hdocids⟩ := hproper.anyLeaf h.2
    refine ⟨.leaf l, by rw [query, hix]; simp [hleaf], fun docid obj hobj => ?_⟩
    rw [Query.Has, hdocids, Holds, hrev docid obj hobj]
  | inRange name start stop excludemin excludemax =>
    obtain ⟨ix, hix, hproper, hrev⟩ := fieldIndex_ok hs hl hm h.1
    obtain ⟨l, hleaf, -, hdocids⟩ := hproper.rangeLeaf h.2.1 h.2.2
    refine ⟨.leaf l, by rw [query, hix]; simp [hleaf], fun docid obj hobj => ?_⟩
    rw [Query.Has, hdocids, Holds, hrev docid obj hobj]
  | and cs ih =>
    have hproper := allProper_iff.mp h.2
    obtain ⟨qs, hqs, hlength, hall⟩ := queries_spec fun c hc => ih c hc (hproper c hc)
    rcases qs with _ | ⟨q, qs⟩
    · exact absurd (List.length_eq_zero_iff.mp hlength.symm) h.1
    · exact ⟨.and q qs, query_and.mpr ⟨q, qs, hqs, rfl⟩,
        fun docid obj hobj => (hall docid obj hobj).1⟩
  | or cs ih =>
    have hproper := allProper_iff.mp h.2
    obtain ⟨qs, hqs, hlength, hall⟩ := queries_spec fun c hc => ih c hc (hproper c hc)
    rcases qs with _ | ⟨q, qs⟩
    · exact absurd (List.length_eq_zero_iff.mp hlength.symm) h.1
    · exact ⟨.or q qs, query_or.mpr ⟨q, qs, hqs, rfl⟩,
        fun docid obj hobj => (hall docid obj hobj).2⟩

end Condition

/-! ## Searches

What is found is sorted, cut and loaded by `DbModel.query`. Loading gives back the objects whose
docids were found, and sorting by a field of theirs drops none of them, since every stored object
has a value in the index of a field. -/

/-- The objects load in the order of their docids. -/
theorem Collection.load_spec {ν ψ α : Type} {C : Collection ν ψ α} {uids : List ℤ}
    {xs : List (ℤ × α)} (h : C.load uids = .ok xs) :
    xs.map Prod.fst = uids ∧ ∀ x ∈ xs, C.objects.tree[x.1]? = some x.2 := by
  have hget : ∀ {uid x}, C.getObject uid = .ok x → x.1 = uid ∧ C.objects.tree[uid]? = some x.2 := by
    intro uid x hx
    rw [Collection.getObject] at hx
    rcases hobj : C.objects.tree[uid]? with _ | obj <;> rw [hobj] at hx
    · cases hx
    · obtain rfl := Except.ok.inj hx
      exact ⟨rfl, rfl⟩
  rw [Collection.load_eq_ok] at h
  induction uids generalizing xs with
  | nil =>
    obtain rfl := List.map_eq_nil_iff.mp h.symm
    exact ⟨rfl, fun x hx => absurd hx List.not_mem_nil⟩
  | cons uid uids ih =>
    rcases xs with _ | ⟨x, xs⟩
    · cases h
    · obtain ⟨hx, hxs⟩ := List.cons.inj h
      obtain ⟨hfst, htree⟩ := hget hx
      obtain ⟨hmap, hall⟩ := ih hxs
      exact ⟨congrArg₂ List.cons hfst hmap, List.forall_mem_cons.mpr ⟨hfst ▸ htree, hall⟩⟩

/-- What sorting by a field index is relied on for. -/
structure CatalogFieldIndex.SortedBy {V : Type} [PyValue V] (ix : CatalogFieldIndex V)
    (index : SortIndex) : Prop where
  /-- the documents with a value are sorted -/
  has_iff : ∀ uid, index.has uid = true ↔ uid ∈ ix.revIndex
  /-- in the order of their values, or the other way round -/
  sorted : ∀ docids reverse sortType, (index.sort docids reverse none sortType).Pairwise
    fun d d' => ∀ v v', ix.revIndex[d]? = some v → ix.revIndex[d']? = some v' →
      if reverse then v' ≤ v else v ≤ v'

namespace Db

variable {V ξ ω : Type} [PyValue V] {M : Model V} {T : IndexClass V ξ} {O : IndexClass V ω}

/-- What the result of a query on fields yields. It is given for queries that have one: a
condition on an index that is missing and an `And` or `Or` without operands raise, and stand for
no docids here. -/
def found (s : Db V ξ ω) (c : Condition V) : List ℤ :=
  match (c.query s).bind fun q => (do (← q.apply).docids : Run (List ℤ)).run with
  | some (.ok docids) => docids
  | _ => []

theorem found_spec {s : Db V ξ ω} {c : Condition V} {q : Query} (hq : c.query s = some q)
    (hlight : q.Light) :
    (found s c).Nodup ∧ ∀ docid, docid ∈ found s c ↔ q.Has docid := by
  obtain ⟨result, ds, happly, hds, hnodup, hmem⟩ := Query.correct_of_light hlight
  have hpure : q.apply = (pure result : Run Result) := happly
  have hrun : (do (← q.apply).docids : Run (List ℤ)).run = some (.ok ds) := by
    rw [hpure, pure_bind]
    exact hds
  have hfound : found s c = ds := by
    rw [found, hq, Option.bind_some, hrun]
  rw [hfound]
  exact ⟨hnodup, hmem⟩

theorem stored_of_found {s : Db V ξ ω} (hs : NoDangling T O s) {c : Condition V} {uid : ℤ}
    (h : uid ∈ found s c) : uid ∈ s.objects.tree := by
  rcases hq : c.query s with _ | q
  · rw [found, hq] at h
    exact absurd h List.not_mem_nil
  · obtain ⟨hlight, hstored⟩ := Condition.query_stored hs c q hq
    exact hstored uid (((found_spec hq hlight).2 uid).mp h)

/-- The objects of a database with its catalog. How an index sorts is up to its class. -/
def collection (s : Db V ξ ω) (h : NoDangling T O s) (indexes : Str → Option SortIndex) :
    Collection V (Condition V) ObjId where
  objects := s.objects
  apply c _ := .ok (found s c)
  indexes := indexes
  stored _ _ _ hfound _ huid := stored_of_found h (Except.ok.inj hfound ▸ huid)

theorem find_collection (s : Db V ξ ω) (h : NoDangling T O s) (indexes : Str → Option SortIndex)
    (L : QueryLanguage V (Condition V)) (r : Request V (Condition V)) (limit : Option ℕ) :
    r.find (s.collection h indexes) L limit =
      (s.collection h indexes).sortResult (found s (r.query L)) r.sorting limit := rfl

/-- **What a condition finds** are the stored objects that satisfy it, each once. -/
theorem found_exact {s : Db V ξ ω} (hs : s.Shaped M) (hl : Session.Linked M T O s)
    (hm : Session.Mirrored T O s) {c : Condition V} (hc : c.Proper M) :
    (found s c).Nodup ∧ ∀ uid, uid ∈ found s c ↔ ∃ obj, Condition.StoredAs s uid obj ∧
      c.Holds obj := by
  obtain ⟨q, hq, hfinds⟩ := Condition.query_spec hs hl hm c hc
  obtain ⟨hlight, hstored⟩ := Condition.query_stored hm.noDangling c q hq
  obtain ⟨hnodup, hmem⟩ := found_spec hq hlight
  refine ⟨hnodup, fun uid => (hmem uid).trans ⟨fun h => ?_, ?_⟩⟩
  · obtain ⟨o, ho⟩ := (BTree.mem_iff _).mp (hstored uid h)
    obtain ⟨obj, hobj, -⟩ := hl.obj ho
    exact ⟨obj, ⟨o, ho, hobj⟩, (hfinds uid obj ⟨o, ho, hobj⟩).mp h⟩
  · rintro ⟨obj, hobj, hholds⟩
    exact (hfinds uid obj hobj).mpr hholds

end Db

section Search

variable {V ξ ω κ : Type} [PyValue V] {M : Model V} {T : IndexClass V ξ} {O : IndexClass V ω}

/-! ## Requests

A request has a condition, keyword arguments and an order. What it asks for is said by objects
again, and that the query object made of it means the same is what `And`, `&` and `optimize` are
relied on for. -/

/-- The object satisfies what is asked for. -/
def Request.Holds (r : Request V (Condition V)) (obj : Obj V) : Prop :=
  (∀ q ∈ r.queryobj, q.Holds obj) ∧ ∀ e ∈ r.equalities, obj.attrs[e.1]? = some e.2

/-- What `And`, `&` and `optimize` are relied on for: the query made of a request means what is
asked for. -/
structure Request.Means (M : Model V) (L : QueryLanguage V (Condition V))
    (r : Request V (Condition V)) : Prop where
  /-- it is a proper one -/
  proper : (r.query L).Proper M
  /-- of this meaning -/
  holds_iff : ∀ obj, (r.query L).Holds obj ↔ r.Holds obj

/-- The result is not sorted, or by a field. -/
def Request.SortedBy (M : Model V) (s : Db V ξ ω) (indexes : Str → Option SortIndex)
    (r : Request V (Condition V)) : Prop :=
  ∀ name, r.sorting.by = some name → Condition.OnField M name ∧ ∃ index, indexes name = some index ∧
    ∀ ix, Condition.fieldIndex s name = some ix → ix.SortedBy index

/-- **The objects asked for**: those that satisfy the request, each once, in order. -/
structure Request.Answers (s : Db V ξ ω) (r : Request V (Condition V)) (xs : List (ℤ × ObjId)) :
    Prop where
  /-- each once -/
  nodup : (xs.map Prod.fst).Nodup
  /-- exactly these -/
  mem_iff : ∀ uid o, (uid, o) ∈ xs ↔
    s.objects.tree[uid]? = some o ∧ ∃ obj, s.heap[o]? = some obj ∧ r.Holds obj
  /-- in order of the field they are sorted by -/
  sorted : ∀ name, r.sorting.by = some name → xs.Pairwise fun x y => ∀ obj obj' v v',
    s.heap[x.2]? = some obj → s.heap[y.2]? = some obj' → obj.attrs[name]? = some v →
      obj'.attrs[name]? = some v' → if r.sorting.reverse then v' ≤ v else v ≤ v'

/-- Stored objects have the attributes of indexed fields, and those are in the indexes. -/
theorem Condition.fieldIndex_stored {s : Db V ξ ω} (hs : s.Shaped M) (hl : Session.Linked M T O s)
    (hm : Session.Mirrored T O s) {name : Str} (hname : Condition.OnField M name) :
    ∃ ix, Condition.fieldIndex s name = some ix ∧ ∀ uid obj, Condition.StoredAs s uid obj →
      uid ∈ ix.revIndex ∧ ix.revIndex[uid]? = obj.attrs[name]? := by
  obtain ⟨ix, hix, -, hrev⟩ := Condition.fieldIndex_ok hs hl hm hname
  refine ⟨ix, hix, fun uid obj hobj => ⟨?_, hrev uid obj hobj⟩⟩
  rw [BTree.mem_iff, hrev uid obj hobj, ← BTree.mem_iff]
  obtain ⟨f, hf, rfl, hvirtual, -⟩ := hname
  obtain ⟨o, -, ho⟩ := hobj
  exact hl.complete o obj ho f (List.mem_of_mem_filter hf) (Option.isNone_iff_eq_none.mp hvirtual)

/-- What is found and sorted are the uids of the objects asked for. -/
theorem Request.mem_find {s : Db V ξ ω} (hs : s.Shaped M) (hl : Session.Linked M T O s)
    (hm : Session.Mirrored T O s) {L : QueryLanguage V (Condition V)} {r : Request V (Condition V)}
    (hr : r.Means M L) {indexes : Str → Option SortIndex} (hsort : r.SortedBy M s indexes)
    {size : Option ℕ} {uids : List ℤ}
    (hfind : r.find (s.collection hm.noDangling indexes) L none = .ok (size, uids)) (uid : ℤ) :
    uid ∈ uids ↔ ∃ obj, Condition.StoredAs s uid obj ∧ r.Holds obj := by
  obtain ⟨-, hfound⟩ := Db.found_exact hs hl hm hr.proper
  rw [Db.find_collection] at hfind
  refine (Collection.mem_sortResult hfind uid).trans ⟨fun h => ?_, ?_⟩
  · obtain ⟨obj, hobj, hholds⟩ := (hfound uid).mp h.1
    exact ⟨obj, hobj, (hr.holds_iff obj).mp hholds⟩
  · rintro ⟨obj, hobj, hholds⟩
    refine ⟨(hfound uid).mpr ⟨obj, hobj, (hr.holds_iff obj).mpr hholds⟩, fun name hname => ?_⟩
    obtain ⟨hfield, index, hindex, hsorted⟩ := hsort name hname
    obtain ⟨ix, hix, hrev⟩ := Condition.fieldIndex_stored hs hl hm hfield
    exact ⟨index, hindex, ((hsorted ix hix).has_iff uid).mpr (hrev uid obj hobj).1⟩

/-- What is found, sorted and loaded are the objects asked for. -/
theorem Request.answers {s : Db V ξ ω} (hs : s.Shaped M) (hl : Session.Linked M T O s)
    (hm : Session.Mirrored T O s) {L : QueryLanguage V (Condition V)} {r : Request V (Condition V)}
    (hr : r.Means M L) {indexes : Str → Option SortIndex} (hsort : r.SortedBy M s indexes) :
    ∃ size uids xs, r.find (s.collection hm.noDangling indexes) L none = .ok (size, uids) ∧
      (s.collection hm.noDangling indexes).load uids = .ok xs ∧ r.Answers s xs := by
  obtain ⟨hnodup, -⟩ := Db.found_exact hs hl hm hr.proper
  have hfind : ∃ size uids, r.find (s.collection hm.noDangling indexes) L none = .ok (size, uids) ∧
      uids.Nodup := by
    rcases hby : r.sorting.by with _ | name
    · exact ⟨_, _, Collection.sortResult_unsorted _ _ hby none, hnodup⟩
    · obtain ⟨-, index, hindex, -⟩ := hsort name hby
      exact ⟨_, _, Collection.sortResult_index _ _ hby hindex none, index.nodup_sort _ _ _⟩
  obtain ⟨size, uids, hfind, huids⟩ := hfind
  have hmem := Request.mem_find hs hl hm hr hsort hfind
  have hstored : ∀ uid ∈ uids, uid ∈ (s.collection hm.noDangling indexes).objects.tree := by
    intro uid huid
    obtain ⟨obj, ⟨o, ho, -⟩, -⟩ := (hmem uid).mp huid
    exact BTree.mem_of_get _ ho
  obtain ⟨xs, hload⟩ := Collection.load_of_stored hstored
  obtain ⟨hfst, htree⟩ := Collection.load_spec hload
  refine ⟨size, uids, xs, hfind, hload, by rw [hfst]; exact huids, fun uid o => ?_, fun name hname => ?_⟩
  · refine ⟨fun h => ?_, ?_⟩
    · have huid := (hmem uid).mp (hfst ▸ List.mem_map_of_mem h)
      obtain ⟨obj, ⟨o', ho', hobj⟩, hholds⟩ := huid
      obtain rfl := Option.some.inj ((htree _ h).symm.trans ho')
      exact ⟨ho', obj, hobj, hholds⟩
    · rintro ⟨ho, obj, hobj, hholds⟩
      have huid := (hmem uid).mpr ⟨obj, ⟨o, ho, hobj⟩, hholds⟩
      rw [← hfst] at huid
      obtain ⟨⟨uid', o'⟩, hx, rfl⟩ := List.mem_map.mp huid
      obtain rfl := Option.some.inj ((htree _ hx).symm.trans ho)
      exact hx
  · obtain ⟨hfield, index, hindex, hsorted⟩ := hsort name hname
    obtain ⟨ix, hix, hrev⟩ := Condition.fieldIndex_stored hs hl hm hfield
    have hpairs := (hsorted ix hix).sorted (Std.ExtTreeSet.ofList (Db.found s (r.query L)) compare)
      r.sorting.reverse r.sorting.sortType
    have hrun := Collection.sortResult_index (s.collection hm.noDangling indexes)
      (Db.found s (r.query L)) hname hindex none
    obtain ⟨-, rfl⟩ := Prod.mk.inj (Except.ok.inj (hfind.symm.trans hrun))
    rw [← hfst, List.pairwise_map] at hpairs
    refine hpairs.imp_of_mem fun hx hy hle obj obj' v v' hobj hobj' hv hv' => ?_
    have hval : ∀ {z : ℤ × ObjId} {obj : Obj V}, z ∈ xs → s.heap[z.2]? = some obj →
        ix.revIndex[z.1]? = obj.attrs[name]? :=
      fun hz hobj => (hrev _ _ ⟨_, htree _ hz, hobj⟩).2
    exact hle v v' ((hval hx hobj).trans hv) ((hval hy hobj').trans hv')

end Search

namespace CatalogFieldIndex

variable {V : Type} [PyValue V]

end CatalogFieldIndex

end Zerodb
