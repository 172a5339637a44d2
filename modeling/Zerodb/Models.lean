import Zerodb.Catalog

/-!
# Models: fields, instances, attribute assignment

A model declares fields; an instance has a value for every stored one from `__init__`
on. A virtual field has no stored value: a function computes it, from the instance and
from the objects it refers to.

`__setattr__` notifies of a modification before it assigns, when `Notifies` holds.
-/

namespace Zerodb

/-- A Python object, by its address; `__lt__` compares addresses. -/
abbrev ObjId : Type := ℕ

/-- A model instance. -/
structure Obj (V : Type) where
  /-- its attributes, less those of the persistence machinery -/
  attrs : BTree Str V
  /-- `_p_uid`, if it has that attribute -/
  uid : Option ℤ

/-- The instances there are. -/
abbrev Heap (V : Type) : Type := BTree ObjId (Obj V)

/-- An `Indexable` declared in a model, under its name. -/
structure Indexable (V : Type) where
  /-- the name it is declared under -/
  name : Str
  /-- its class -/
  kind : Kind
  /-- `default`; a callable one stands for what it returns -/
  default : Option V
  /-- `virtual`; it may raise -/
  virtual : Option (Heap V → Obj V → Option V)
  /-- `indexed` -/
  indexed : Bool
  /-- else `FieldException` is raised -/
  single : default = none ∨ virtual = none

/-! ## Fields and values

A model has the fields it was declared with. An index finds the value of a field in the attributes
of an object, or has it computed from all objects there are. -/

/-- A subclass of `Model`. -/
structure Model (V : Type) where
  /-- its fields -/
  fields : List (Indexable V)
  /-- one for each name -/
  nodup : (fields.map Indexable.name).Nodup

/-- `obj.name = value`, without a notification. -/
def Obj.setattr {V : Type} (name : Str) (value : V) (obj : Obj V) : Obj V :=
  { obj with attrs := obj.attrs.insert name value }

/-- The value an index finds for its field: what the virtual function computes, or the
stored attribute. -/
def Indexable.value {V : Type} [PyValue V] (f : Indexable V) (heap : Heap V) (obj : Obj V) : V :=
  match f.virtual with
  | some g => (g heap obj).getD marker
  | none => obj.attrs[f.name]?.getD marker

theorem Indexable.value_stored {V : Type} [PyValue V] {f : Indexable V} (h : f.virtual = none)
    (heap : Heap V) (obj : Obj V) : f.value heap obj = obj.attrs[f.name]?.getD marker := by
  rw [Indexable.value, h]

namespace Model

variable {V : Type} (M : Model V)

/-- `_z_indexed_fields`. -/
def indexedFields : List (Indexable V) := M.fields.filter (·.indexed)

/-- `_z_required_fields`. -/
def requiredFields : List (Indexable V) :=
  M.fields.filter fun f => f.default.isNone && f.virtual.isNone

/-- `_z_default_fields`, with their defaults. -/
def defaultFields : List (Str × V) :=
  (M.fields.filter (·.virtual.isNone)).filterMap fun f => f.default.map (f.name, ·)

/-! ## New instances

`__init__` refuses to go on without the fields that have no default, assigns the defaults of those
that are not given, and then the arguments. -/

/-- `setattr` for each pair. -/
def setattrs (kw : List (Str × V)) (obj : Obj V) : Obj V :=
  kw.foldl (fun obj p => obj.setattr p.1 p.2) obj

/-- `missed_fields`. -/
def missedFields (kw : List (Str × V)) : List (Indexable V) :=
  M.requiredFields.filter (·.name ∉ kw.map Prod.fst)

/-- `__init__`. -/
def init (kw : List (Str × V)) : Except Exc (Obj V) :=
  if M.missedFields kw = [] then
    .ok (setattrs kw (setattrs (M.defaultFields.filter (·.1 ∉ kw.map Prod.fst)) ⟨∅, none⟩))
  else .error (.modelException ("You should provide fields: " ++
    ", ".intercalate ((M.missedFields kw).map (String.ofList ·.name))))

variable [PyValue V]

/-- When `__setattr__` notifies of a modification: an attribute of an indexed field
that has a value, and not `None`, on an object with `_p_uid`. -/
def Notifies (name : Str) (obj : Obj V) : Prop :=
  (∃ value ∈ obj.attrs[name]?, value ≠ PyValue.pyNone) ∧
    name ∈ M.indexedFields.map Indexable.name ∧ obj.uid.isSome = true

instance (name : Str) (obj : Obj V) : Decidable (M.Notifies name obj) :=
  inferInstanceAs (Decidable (_ ∧ _))

end Model

/-! ## Complete instances

The indexes ask objects for the values of stored fields. That there always is one is an invariant
of all objects from their creation on, since attributes are assigned and never deleted. -/

/-- An instance has a value for every stored field. -/
def Obj.Complete {V : Type} (M : Model V) (obj : Obj V) : Prop :=
  ∀ f ∈ M.fields, f.virtual = none → f.name ∈ obj.attrs

theorem Obj.Complete.setattr {V : Type} {M : Model V} {obj : Obj V} (h : obj.Complete M)
    (name : Str) (value : V) : (obj.setattr name value).Complete M :=
  fun f hf hv => (BTree.mem_insert _).mpr (.inr (h f hf hv))

namespace Model

variable {V : Type} {M : Model V}

theorem mem_setattrs {kw : List (Str × V)} {obj : Obj V} {name : Str} :
    name ∈ (setattrs kw obj).attrs ↔ name ∈ kw.map Prod.fst ∨ name ∈ obj.attrs := by
  induction kw generalizing obj with
  | nil => simp [setattrs]
  | cons p kw ih =>
    have hstep : name ∈ (obj.setattr p.1 p.2).attrs ↔ name = p.1 ∨ name ∈ obj.attrs :=
      BTree.mem_insert _
    rw [setattrs, List.foldl_cons, ← setattrs, ih, hstep, List.map_cons, List.mem_cons]
    tauto

/-- A default is that of a stored field. -/
theorem mem_defaultFields {name : Str} {value : V} : (name, value) ∈ M.defaultFields ↔
    ∃ f ∈ M.fields, f.virtual = none ∧ f.default = some value ∧ f.name = name := by
  rw [defaultFields, List.mem_filterMap]
  refine ⟨?_, ?_⟩
  · rintro ⟨f, hf, hdefault⟩
    obtain ⟨hf, hvirtual⟩ := List.mem_filter.mp hf
    obtain ⟨_, hvalue, heq⟩ := Option.map_eq_some_iff.mp hdefault
    cases heq
    exact ⟨f, hf, Option.isNone_iff_eq_none.mp hvirtual, hvalue, rfl⟩
  · rintro ⟨f, hf, hvirtual, hdefault, rfl⟩
    refine ⟨f, List.mem_filter.mpr ⟨hf, Option.isNone_iff_eq_none.mpr hvirtual⟩, ?_⟩
    rw [hdefault]
    rfl

/-- There is one for each name. -/
theorem nodup_defaultFields : (M.defaultFields.map Prod.fst).Nodup := by
  rw [defaultFields, List.Nodup, List.pairwise_map, List.pairwise_filterMap]
  refine ((List.pairwise_map.mp M.nodup).filter _).imp fun hne p hp q hq => ?_
  obtain ⟨_, -, rfl⟩ := Option.map_eq_some_iff.mp hp
  obtain ⟨_, -, rfl⟩ := Option.map_eq_some_iff.mp hq
  exact hne

/-- What is not assigned stays. -/
theorem get_setattrs_of_not_mem {kw : List (Str × V)} {obj : Obj V} {name : Str}
    (h : name ∉ kw.map Prod.fst) : (setattrs kw obj).attrs[name]? = obj.attrs[name]? := by
  induction kw generalizing obj with
  | nil => rfl
  | cons p kw ih =>
    rw [List.map_cons, List.mem_cons, not_or] at h
    have hstep : (obj.setattr p.1 p.2).attrs[name]? = obj.attrs[name]? :=
      (BTree.get_insert _).trans (if_neg (Ne.symm h.1))
    rw [setattrs, List.foldl_cons, ← setattrs, ih h.2, hstep]

/-- A name that is assigned once has its value. -/
theorem get_setattrs_of_mem {kw : List (Str × V)} (hnodup : (kw.map Prod.fst).Nodup) {obj : Obj V}
    {name : Str} {value : V} (h : (name, value) ∈ kw) :
    (setattrs kw obj).attrs[name]? = some value := by
  induction kw generalizing obj with
  | nil => cases h
  | cons p kw ih =>
    obtain ⟨hp, hnodup'⟩ := List.nodup_cons.mp hnodup
    rw [setattrs, List.foldl_cons, ← setattrs]
    rcases List.mem_cons.mp h with rfl | h
    · rw [get_setattrs_of_not_mem hp]
      exact (BTree.get_insert _).trans (if_pos rfl)
    · exact ih hnodup' h

theorem setattrs_uid {kw : List (Str × V)} {obj : Obj V} : (setattrs kw obj).uid = obj.uid := by
  induction kw generalizing obj with
  | nil => rfl
  | cons p kw ih =>
    rw [setattrs, List.foldl_cons, ← setattrs, ih]
    rfl

/-- A new instance is complete, and not in a database. -/
theorem init_ok {kw : List (Str × V)} {obj : Obj V} (h : M.init kw = .ok obj) :
    obj.Complete M ∧ obj.uid = none := by
  rw [init] at h
  by_cases hmissed : M.missedFields kw = []
  · rw [if_pos hmissed, Except.ok.injEq] at h
    subst h
    refine ⟨fun f hf hv => ?_, by rw [setattrs_uid, setattrs_uid]⟩
    rw [mem_setattrs]
    by_cases hkw : f.name ∈ kw.map Prod.fst
    · exact .inl hkw
    · right
      rw [mem_setattrs]
      left
      rcases hd : f.default with _ | value
      · -- a required field would have been missed
        have hreq : f ∈ M.requiredFields :=
          List.mem_filter.mpr ⟨hf, by simp [hd, hv]⟩
        have : f ∈ M.missedFields kw := List.mem_filter.mpr ⟨hreq, by simpa using hkw⟩
        rw [hmissed] at this
        cases this
      · have hdef : (f.name, value) ∈ M.defaultFields :=
          mem_defaultFields.mpr ⟨f, hf, hv, hd, rfl⟩
        exact List.mem_map.mpr ⟨_, List.mem_filter.mpr ⟨hdef, by simpa using hkw⟩, rfl⟩
  · rw [if_neg hmissed] at h
    cases h

end Model

end Zerodb
