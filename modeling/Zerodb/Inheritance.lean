import Zerodb.Models

/-!
# Inheritance: the fields of a class and of its ancestors

The metaclass classifies the fields of a class: which are required, which have a default,
which are virtual, which are indexed. It looks at one class body and no further, while an
attribute is looked up through all ancestors, where it finds the field itself.

* `ModelClass.model` — what the metaclass makes of a class: its own fields;
* `inherits_iff` — when construction and the catalog respect what is inherited.

A class is given by its `__mro__`. Only a public name can be that of a field.
-/

namespace Zerodb

variable {V : Type}

/-! ## Class bodies

A class body is a list of attributes under their names. A public attribute that is an instance of
a field class is a field; the metaclass goes through the body once and sorts the fields. -/

/-- An attribute in a class body. -/
inductive Attr (V : Type) where
  /-- an `Indexable` -/
  | indexable : Indexable V → Attr V
  /-- anything else, under its name -/
  | plain : Str → V → Attr V

/-- Its name. -/
def Attr.name : Attr V → Str
  | .indexable f => f.name
  | .plain name _ => name

/-- `not name.startswith("_")`. -/
def isPublic (name : Str) : Bool := name.head? ≠ some '_'

/-- The attribute as a field. -/
def Attr.field? : Attr V → Option (Indexable V)
  | .indexable f => if isPublic f.name then some f else none
  | .plain _ _ => none

/-- A class body, `dct`. -/
structure ClassBody (V : Type) where
  /-- its attributes -/
  attrs : List (Attr V)
  /-- one for each name -/
  nodup : (attrs.map Attr.name).Nodup

/-- `used_fields`. -/
def ClassBody.usedFields (dct : ClassBody V) : List (Indexable V) := dct.attrs.filterMap Attr.field?

/-- A subclass of `Model`, by its `__mro__`. -/
structure ModelClass (V : Type) where
  /-- its own body -/
  own : ClassBody V
  /-- those of its ancestors, in the order in which attributes are looked up -/
  ancestors : List (ClassBody V)

theorem Attr.field?_eq_some {a : Attr V} {f : Indexable V} :
    a.field? = some f ↔ a = .indexable f ∧ isPublic f.name = true := by
  cases a with
  | plain name value => simp [Attr.field?]
  | indexable g =>
    rw [Attr.field?, Attr.indexable.injEq]
    by_cases hg : isPublic g.name = true
    · rw [if_pos hg, Option.some.injEq]
      exact ⟨fun h => ⟨h, h ▸ hg⟩, And.left⟩
    · rw [if_neg hg]
      refine iff_of_false (fun h => ?_) ?_
      · cases h
      · rintro ⟨rfl, h⟩
        exact hg h

theorem ClassBody.mem_usedFields {dct : ClassBody V} {f : Indexable V} :
    f ∈ dct.usedFields ↔ .indexable f ∈ dct.attrs ∧ isPublic f.name = true := by
  rw [usedFields, List.mem_filterMap]
  refine ⟨?_, ?_⟩
  · rintro ⟨a, ha, hf⟩
    obtain ⟨rfl, hpublic⟩ := Attr.field?_eq_some.mp hf
    exact ⟨ha, hpublic⟩
  · rintro ⟨hf, hpublic⟩
    exact ⟨_, hf, Attr.field?_eq_some.mpr ⟨rfl, hpublic⟩⟩

/-- The fields used have names of their own. -/
theorem ClassBody.nodup_usedFields (dct : ClassBody V) :
    (dct.usedFields.map Indexable.name).Nodup := by
  rw [usedFields, List.Nodup, List.pairwise_map, List.pairwise_filterMap]
  refine (List.pairwise_map.mp dct.nodup).imp fun hne f hf g hg => ?_
  obtain ⟨rfl, -⟩ := Attr.field?_eq_some.mp hf
  obtain ⟨rfl, -⟩ := Attr.field?_eq_some.mp hg
  exact hne

/-! ## Classes

A class has the bodies of its `__mro__`, its own first. Python's attribute lookup goes through all
of them; the tables that the metaclass makes come from the first one. `Inherits` says what one
would expect of a field that an ancestor declares. -/

/-- What an attribute reads as. -/
inductive Read (V : Type) where
  /-- a value -/
  | value : V → Read V
  /-- the field itself -/
  | field : Indexable V → Read V

/-- An attribute of a class, read. -/
def Attr.read : Attr V → Read V
  | .indexable f => .field f
  | .plain _ value => .value value

/-- Where an index finds its values: an attribute, or a virtual field of the model. -/
inductive Discriminator where
  /-- `name` -/
  | attribute : Str → Discriminator
  /-- `(name,)` -/
  | virtual : Str → Discriminator

/-- `catalog[name] = field.Index(discriminator or name)`. -/
def Indexable.entry (f : Indexable V) : Str × Kind × Discriminator :=
  (f.name, f.kind, if f.virtual.isSome then .virtual f.name else .attribute f.name)

/-- The attribute of a body with a name. -/
def ClassBody.attr? (dct : ClassBody V) (name : Str) : Option (Attr V) :=
  dct.attrs.find? (·.name = name)

namespace ModelClass

variable (C : ModelClass V)

/-- What `ModelMeta.__init__` makes of the class: a model with the fields of its own body. -/
def model : Model V := ⟨C.own.usedFields, C.own.nodup_usedFields⟩

/-- `getattr(cls, name)`. -/
def lookup (name : Str) : Option (Attr V) := (C.own :: C.ancestors).findSome? (·.attr? name)

/-- `__init__`. -/
def init (kw : BTree Str V) : Except Exc (Obj V) := C.model.init kw.toList

/-- `getattr(obj, name)`: the attribute of the instance, or else of its class. -/
def getattr (obj : Obj V) (name : Str) : Option (Read V) :=
  match obj.attrs[name]? with
  | some value => some (.value value)
  | none => (C.lookup name).map Attr.read

/-- `create_catalog`: the indexed fields are looked up in the class, whose own they are. -/
def createCatalog : List (Str × Kind × Discriminator) := C.model.indexedFields.map Indexable.entry

/-- The class or an ancestor declares the field, and nothing overrides it. -/
def Declares (f : Indexable V) : Prop :=
  C.lookup f.name = some (.indexable f) ∧ isPublic f.name = true

/-- An ancestor declares it. -/
def Inherited (f : Indexable V) : Prop := C.Declares f ∧ C.own.attr? f.name = none

end ModelClass

/-- A stored field without a default. -/
def Indexable.Required (f : Indexable V) : Prop := f.default = none ∧ f.virtual = none

/-- **Fields are inherited**, for the arguments `kw`. -/
structure Inherits (C : ModelClass V) (kw : BTree Str V) : Prop where
  /-- construction raises `ModelException` exactly when a required field is missing -/
  raises : (∃ message, C.init kw = .error (.modelException message)) ↔
    ∃ f, C.Declares f ∧ f.Required ∧ f.name ∉ kw
  /-- otherwise every stored field reads as the value passed for it, or as its default -/
  reads : ∀ obj, C.init kw = .ok obj → ∀ f, C.Declares f → f.virtual = none →
    ∃ value, kw[f.name]?.or f.default = some value ∧
      C.getattr obj f.name = some (.value value)
  /-- the catalog has an index for every indexed field -/
  catalog : ∀ entry, entry ∈ C.createCatalog ↔ ∃ f, C.Declares f ∧ f.indexed = true ∧ f.entry = entry
  /-- and one for each name -/
  nodup : (C.createCatalog.map Prod.fst).Nodup

/-! ## Lookup

What is found under a name is in the first body that has it. So a field is declared by the class
itself or inherited, not both. -/

theorem ClassBody.attr?_eq_some {dct : ClassBody V} {name : Str} {a : Attr V} :
    dct.attr? name = some a ↔ a ∈ dct.attrs ∧ a.name = name := by
  refine ⟨?_, ?_⟩
  · intro h
    exact ⟨List.mem_of_find?_eq_some h, by simpa using List.find?_some h⟩
  · rintro ⟨ha, rfl⟩
    rcases hfind : dct.attr? a.name with _ | b
    · have hnone := List.find?_eq_none.mp hfind a ha
      simp at hnone
    · have hb : b.name = a.name := by simpa using List.find?_some hfind
      rw [List.inj_on_of_nodup_map dct.nodup (List.mem_of_find?_eq_some hfind) ha hb]

namespace ModelClass

variable {C : ModelClass V}

/-- What is in the body of the class itself is found there. -/
theorem lookup_own {name : Str} {a : Attr V} (h : C.own.attr? name = some a) :
    C.lookup name = some a := by
  rw [lookup, List.findSome?_cons, h]

/-- A field that is declared is one of the class, or inherited. -/
theorem declares_iff {f : Indexable V} :
    C.Declares f ↔ f ∈ C.own.usedFields ∨ C.Inherited f := by
  rw [ClassBody.mem_usedFields]
  refine ⟨?_, ?_⟩
  · intro h
    rcases hown : C.own.attr? f.name with _ | a
    · exact .inr ⟨h, hown⟩
    · obtain rfl : a = .indexable f := Option.some.inj ((lookup_own hown).symm.trans h.1)
      exact .inl ⟨(ClassBody.attr?_eq_some.mp hown).1, h.2⟩
  · rintro (⟨hf, hpublic⟩ | h)
    · exact ⟨lookup_own (ClassBody.attr?_eq_some.mpr ⟨hf, rfl⟩), hpublic⟩
    · exact h.1

/-- An inherited field has no name of the class's own fields. -/
theorem Inherited.name_not_mem {f : Indexable V} (h : C.Inherited f) :
    f.name ∉ C.own.usedFields.map Indexable.name := by
  intro hname
  obtain ⟨g, hg, hgf⟩ := List.mem_map.mp hname
  have hown : C.own.attr? f.name = some (.indexable g) :=
    ClassBody.attr?_eq_some.mpr ⟨(ClassBody.mem_usedFields.mp hg).1, hgf⟩
  rw [h.2] at hown
  cases hown

/-! ## Construction

`__init__` knows the fields of the class itself: it asks for them, and gives the defaults of them.
Other keyword arguments are assigned as they are, so that an inherited field can be passed. If it
is not, the attribute of the instance is missing, and reads as the field object in the ancestor.
-/

variable {kw : BTree Str V}

theorem mem_keys {name : Str} : name ∈ kw.toList.map Prod.fst ↔ name ∈ kw := by
  rw [Std.ExtTreeMap.map_fst_toList_eq_keys, Std.ExtTreeMap.mem_keys]

theorem nodup_keys : (kw.toList.map Prod.fst).Nodup := by
  rw [Std.ExtTreeMap.map_fst_toList_eq_keys]
  exact Std.ExtTreeMap.nodup_keys

/-- Nothing is missed when every required field of the class itself is passed. -/
theorem missedFields_eq_nil_iff : C.model.missedFields kw.toList = [] ↔
    ∀ f ∈ C.own.usedFields, f.Required → f.name ∈ kw := by
  rw [Model.missedFields, List.filter_eq_nil_iff, Model.requiredFields]
  refine ⟨?_, ?_⟩
  · intro h f hf hreq
    have hmem := h f (List.mem_filter.mpr ⟨hf, by simp [hreq.1, hreq.2]⟩)
    rw [decide_eq_true_iff, not_not] at hmem
    exact mem_keys.mp hmem
  · intro h f hf
    obtain ⟨hf, hreq⟩ := List.mem_filter.mp hf
    rw [Bool.and_eq_true, Option.isNone_iff_eq_none, Option.isNone_iff_eq_none] at hreq
    rw [decide_eq_true_iff, not_not]
    exact mem_keys.mpr (h f hf hreq)

/-- A required field of the class itself is missing. -/
theorem init_of_missing (h : ∃ f ∈ C.own.usedFields, f.Required ∧ f.name ∉ kw) :
    ∃ message, C.init kw = .error (.modelException message) := by
  have hmissed : C.model.missedFields kw.toList ≠ [] := by
    rw [Ne, missedFields_eq_nil_iff]
    intro hall
    obtain ⟨f, hf, hreq, hname⟩ := h
    exact hname (hall f hf hreq)
  exact ⟨_, if_neg hmissed⟩

/-- The attributes of a new instance. -/
structure Built (C : ModelClass V) (kw : BTree Str V) (obj : Obj V) : Prop where
  /-- what is passed is assigned -/
  passed : ∀ (name : Str) (value : V), kw[name]? = some value → obj.attrs[name]? = some value
  /-- the other stored fields of the class itself have their defaults -/
  default : ∀ f ∈ C.own.usedFields, f.virtual = none → kw[f.name]? = none →
    ∃ value, f.default = some value ∧ obj.attrs[f.name]? = some value
  /-- and that is all -/
  other : ∀ name : Str, kw[name]? = none → name ∉ C.own.usedFields.map Indexable.name →
    obj.attrs[name]? = none

/-- Every required field of the class itself is passed. -/
theorem init_of_passed (h : ∀ f ∈ C.own.usedFields, f.Required → f.name ∈ kw) :
    ∃ obj, C.init kw = .ok obj ∧ C.Built kw obj := by
  set defaults := C.model.defaultFields.filter (·.1 ∉ kw.toList.map Prod.fst) with hdefaults
  have hkw : ∀ name, kw[name]? = none → name ∉ kw.toList.map Prod.fst := by
    intro name hname
    rw [mem_keys]
    exact (BTree.not_mem_iff _).mpr hname
  have hnodup : (defaults.map Prod.fst).Nodup :=
    C.model.nodup_defaultFields.sublist (List.filter_sublist.map Prod.fst)
  refine ⟨_, if_pos (missedFields_eq_nil_iff.mpr h), fun name value hvalue => ?_,
    fun f hf hstored hnone => ?_, fun name hnone hown => ?_⟩
  · exact Model.get_setattrs_of_mem nodup_keys
      (Std.ExtTreeMap.mem_toList_iff_getElem?_eq_some.mpr hvalue)
  · rw [Model.get_setattrs_of_not_mem (hkw _ hnone)]
    rcases hdefault : f.default with _ | value
    · have hmem : f.name ∈ kw := h f hf ⟨hdefault, hstored⟩
      exact absurd hmem ((BTree.not_mem_iff _).mpr hnone)
    · refine ⟨value, rfl, Model.get_setattrs_of_mem hnodup ?_⟩
      refine List.mem_filter.mpr ⟨Model.mem_defaultFields.mpr ⟨f, hf, hstored, hdefault, rfl⟩, ?_⟩
      exact decide_eq_true (hkw _ hnone)
  · rw [Model.get_setattrs_of_not_mem (hkw _ hnone), Model.get_setattrs_of_not_mem]
    · exact Std.ExtTreeMap.getElem?_empty
    · intro hname
      obtain ⟨⟨name, value⟩, hmem, rfl⟩ := List.mem_map.mp hname
      obtain ⟨f, hf, -, -, hf'⟩ := Model.mem_defaultFields.mp (List.mem_of_mem_filter hmem)
      exact hown (List.mem_map.mpr ⟨f, hf, hf'⟩)

/-- Reading a name that the instance does not have. -/
theorem getattr_inherited {obj : Obj V} {f : Indexable V} (hf : C.Inherited f)
    (hnone : obj.attrs[f.name]? = none) : C.getattr obj f.name = some (.field f) := by
  rw [getattr, hnone]
  change (C.lookup f.name).map Attr.read = some (.field f)
  rw [hf.1.1]
  rfl

theorem getattr_of_attr {obj : Obj V} {name : Str} {value : V}
    (h : obj.attrs[name]? = some value) : C.getattr obj name = some (.value value) := by
  rw [getattr, h]

/-- The catalog has the indexed fields of the class itself. -/
theorem mem_createCatalog {entry : Str × Kind × Discriminator} :
    entry ∈ C.createCatalog ↔ ∃ f ∈ C.own.usedFields, f.indexed = true ∧ f.entry = entry := by
  rw [createCatalog, List.mem_map]
  refine ⟨?_, ?_⟩
  · rintro ⟨f, hf, hentry⟩
    obtain ⟨hf, hindexed⟩ := List.mem_filter.mp hf
    exact ⟨f, hf, hindexed, hentry⟩
  · rintro ⟨f, hf, hindexed, hentry⟩
    exact ⟨f, List.mem_filter.mpr ⟨hf, hindexed⟩, hentry⟩

theorem nodup_createCatalog : (C.createCatalog.map Prod.fst).Nodup := by
  rw [createCatalog, List.map_map]
  exact C.model.nodup.sublist (List.filter_sublist.map Indexable.name)

/-- The catalog is right when no field that is inherited is indexed. -/
theorem createCatalog_iff :
    (∀ entry, entry ∈ C.createCatalog ↔
      ∃ f, C.Declares f ∧ f.indexed = true ∧ f.entry = entry) ↔
        ∀ f, C.Inherited f → f.indexed = false := by
  refine ⟨?_, ?_⟩
  · intro h f hf
    by_contra hindexed
    have hmem := (h f.entry).mpr ⟨f, hf.1, Bool.eq_true_of_not_eq_false hindexed, rfl⟩
    obtain ⟨g, hg, -, hentry⟩ := mem_createCatalog.mp hmem
    exact hf.name_not_mem (List.mem_map.mpr ⟨g, hg, congrArg Prod.fst hentry⟩)
  · intro h entry
    rw [mem_createCatalog]
    refine ⟨?_, ?_⟩
    · rintro ⟨f, hf, hindexed, hentry⟩
      exact ⟨f, declares_iff.mpr (.inl hf), hindexed, hentry⟩
    · rintro ⟨f, hf, hindexed, hentry⟩
      rcases declares_iff.mp hf with hown | hinherited
      · exact ⟨f, hown, hindexed, hentry⟩
      · rw [h f hinherited] at hindexed
        cases hindexed

end ModelClass

/-! ## Inheritance

Two questions, for the arguments of one construction: does the catalog index what is declared
indexed, and does every stored field read as a value? The first depends on the class alone; the
second on the arguments, unless the construction raises anyway. -/

section Inheritance

open ModelClass

variable {C : ModelClass V} {kw : BTree Str V}

/-- With a required field of the class itself missing, only the catalog is left to ask for. -/
theorem inherits_of_missing (h : ∃ f ∈ C.own.usedFields, f.Required ∧ f.name ∉ kw)
    (hindexed : ∀ f, C.Inherited f → f.indexed = false) : Inherits C kw := by
  have hraise := init_of_missing h
  obtain ⟨f, hf, hmissing⟩ := h
  refine ⟨iff_of_true hraise ⟨f, declares_iff.mpr (.inl hf), hmissing⟩, fun obj hobj => ?_,
    createCatalog_iff.mpr hindexed, nodup_createCatalog⟩
  obtain ⟨message, hmessage⟩ := hraise
  rw [hmessage] at hobj
  cases hobj

/-- With all of them passed, the stored fields that are inherited have to be passed, too. -/
theorem inherits_of_passed (h : ∀ f ∈ C.own.usedFields, f.Required → f.name ∈ kw)
    (hinherited : ∀ f, C.Inherited f → f.virtual = none → f.name ∈ kw)
    (hindexed : ∀ f, C.Inherited f → f.indexed = false) : Inherits C kw := by
  obtain ⟨obj, hinit, hbuilt⟩ := init_of_passed h
  refine ⟨iff_of_false ?_ ?_, fun obj' hobj' f hf hstored => ?_, createCatalog_iff.mpr hindexed,
    nodup_createCatalog⟩
  · rintro ⟨message, hmessage⟩
    rw [hinit] at hmessage
    cases hmessage
  · rintro ⟨f, hf, hrequired, hmissing⟩
    rcases declares_iff.mp hf with hown | hf
    · exact hmissing (h f hown hrequired)
    · exact hmissing (hinherited f hf hrequired.2)
  · obtain rfl : obj = obj' := Except.ok.inj (hinit.symm.trans hobj')
    rcases hkw : kw[f.name]? with _ | value
    · rcases declares_iff.mp hf with hown | hf
      · obtain ⟨value, hdefault, hattr⟩ := hbuilt.default f hown hstored hkw
        exact ⟨value, hdefault, getattr_of_attr hattr⟩
      · exact absurd (hinherited f hf hstored) ((BTree.not_mem_iff _).mpr hkw)
    · exact ⟨value, rfl, getattr_of_attr (hbuilt.passed _ _ hkw)⟩

end Inheritance

/-- **Which inheritance works, exactly**: fields are inherited if and only if no inherited field
is indexed, and either a required field of the class itself is missing or every stored field that
is inherited is passed. -/
theorem inherits_iff (C : ModelClass V) (kw : BTree Str V) :
    Inherits C kw ↔ (∀ f, C.Inherited f → f.indexed = false) ∧
      ((∃ f ∈ C.own.usedFields, f.Required ∧ f.name ∉ kw) ∨
        ∀ f, C.Inherited f → f.virtual = none → f.name ∈ kw) := by
  by_cases hmissing : ∃ f ∈ C.own.usedFields, f.Required ∧ f.name ∉ kw
  · refine ⟨?_, ?_⟩
    · exact fun h => ⟨ModelClass.createCatalog_iff.mp h.catalog, .inl hmissing⟩
    · exact fun h => inherits_of_missing hmissing h.1
  · have hpassed : ∀ f ∈ C.own.usedFields, f.Required → f.name ∈ kw := by
      intro f hf hrequired
      by_contra hname
      exact hmissing ⟨f, hf, hrequired, hname⟩
    refine ⟨?_, ?_⟩
    · intro h
      refine ⟨ModelClass.createCatalog_iff.mp h.catalog, .inr fun f hf hstored => ?_⟩
      by_contra hname
      -- a field that is not passed reads as itself
      obtain ⟨obj, hinit, hbuilt⟩ := ModelClass.init_of_passed hpassed
      obtain ⟨value, -, hread⟩ := h.reads obj hinit f hf.1 hstored
      rw [ModelClass.getattr_inherited hf (hbuilt.other _ ((BTree.not_mem_iff _).mp hname)
        hf.name_not_mem)] at hread
      cases hread
    · rintro ⟨hindexed, h⟩
      exact inherits_of_passed hpassed (h.resolve_left hmissing) hindexed

/-- A title, which is required and indexed. -/
def title : Indexable ℕ where
  name := ['t']
  kind := .field
  default := none
  virtual := none
  indexed := true
  single := .inl rfl

/-- The body of a class with a title. -/
def titled : ClassBody ℕ where
  attrs := [.indexable title]
  nodup := List.nodup_singleton _

/-- A subclass that declares nothing is constructed without a title, which then reads as the
field, and its catalog is empty. -/
theorem title_forgotten :
    let C : ModelClass ℕ := ⟨⟨[], List.nodup_nil⟩, [titled]⟩
    C.init ∅ = .ok ⟨∅, none⟩ ∧ C.getattr ⟨∅, none⟩ ['t'] = some (.field title) ∧
      C.createCatalog = [] ∧ ¬Inherits C ∅ := by
  intro C
  have hinit : C.init ∅ = .ok ⟨∅, none⟩ := by rfl
  have hread : C.getattr ⟨∅, none⟩ title.name = some (.field title) := by rfl
  refine ⟨hinit, hread, by rfl, fun h => ?_⟩
  have htitle : C.Declares title := ⟨by rfl, by rfl⟩
  obtain ⟨value, hvalue, -⟩ := h.reads _ hinit title htitle rfl
  exact absurd hvalue (by rw [Std.ExtTreeMap.getElem?_empty]; simp [title])

end Zerodb
