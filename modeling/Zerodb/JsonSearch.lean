import Zerodb.DbSearch
import Zerodb.QueryJson

/-!
# JsonSearch: queries in JSON select the objects they describe

A query in JSON is compiled twice on its way to docids: to a query object, and the query object
to the results of the field indexes.

* `FieldQuery` — a documented query that looks for values and ranges of fields, with its JSON and
  its meaning for an object (`Selects`);
* `QueryTree.condition` — the condition that a query object is;
* `json_search_exact` — in every state of a tracked run the JSON finds the stored objects that
  its query selects.
-/

namespace Zerodb

namespace QueryJson

universe u

variable {ν : Type u} {V : Type}

/-! ## Query objects as conditions

A query object has values of JSON in it, a condition of the catalog has values that are compared.
`value` turns the first into the second. -/

mutual

/-- The condition that a query object is, with its arguments as values. -/
def QueryTree.condition (value : Json ν → V) : QueryTree ν → Option (Condition V)
  | .and qs => do return .and (← QueryTree.conditions value qs)
  | .or qs => do return .or (← QueryTree.conditions value qs)
  | .comparator .eq name x => some (.eq name (value x))
  | .comparator (.set .any) name (.list xs) => some (.any name (xs.map value))
  | .range .inRange name start stop (.bool x) (.bool y) =>
    some (.inRange name (value start) (value stop) x y)
  | _ => none

/-- The conditions that several are. -/
def QueryTree.conditions (value : Json ν → V) : List (QueryTree ν) → Option (List (Condition V))
  | [] => some []
  | q :: qs => do return (← q.condition value) :: (← QueryTree.conditions value qs)

end

/-! ## What And and Or take up

A conjunction holds if and only if all conditions hold that it takes up from its operands, and
a disjunction if and only if one of them does. -/

namespace BoolOp

/-- The condition that a query object of the class is, given the conditions of its operands. -/
def condition : BoolOp → List (Condition V) → Condition V
  | and => .and
  | or => .or

theorem condition_tree (op : BoolOp) {value : Json ν → V} {qs : List (QueryTree ν)}
    {cs : List (Condition V)} (h : QueryTree.conditions value qs = some cs) :
    (op.tree qs).condition value = some (op.condition cs) := by
  cases op <;> simp [tree, QueryTree.condition, h, condition]

theorem conditions_of_tree (op : BoolOp) {value : Json ν → V} {qs : List (QueryTree ν)}
    {c : Condition V} (h : (op.tree qs).condition value = some c) :
    ∃ cs, QueryTree.conditions value qs = some cs ∧ c = op.condition cs := by
  rcases hcs : QueryTree.conditions value qs with _ | cs
  · cases op <;> simp [tree, QueryTree.condition, hcs] at h
  · exact ⟨cs, rfl, Option.some.inj (h.symm.trans (op.condition_tree hcs))⟩

theorem conditions_append {value : Json ν → V} {qs qs' : List (QueryTree ν)}
    {cs cs' : List (Condition V)} (h : QueryTree.conditions value qs = some cs)
    (h' : QueryTree.conditions value qs' = some cs') :
    QueryTree.conditions value (qs ++ qs') = some (cs ++ cs') := by
  induction qs generalizing cs with
  | nil =>
    obtain rfl := Option.some.inj h
    exact h'
  | cons q qs ih =>
    rw [QueryTree.conditions] at h
    obtain ⟨c, hc, h⟩ := Option.bind_eq_some_iff.mp h
    obtain ⟨cs₁, hcs₁, h⟩ := Option.bind_eq_some_iff.mp h
    obtain rfl := Option.some.inj h
    rw [List.cons_append, QueryTree.conditions, hc, ih hcs₁]
    rfl

variable [PyValue V] {M : Model V}

theorem holds_condition_append (op : BoolOp) {obj : Obj V} {c : Condition V}
    {cs₁ cs₂ cs : List (Condition V)} (h₁ : (op.condition cs₁).Holds obj ↔ c.Holds obj)
    (h₂ : (op.condition cs₂).Holds obj ↔ (op.condition cs).Holds obj) :
    (op.condition (cs₁ ++ cs₂)).Holds obj ↔ (op.condition (c :: cs)).Holds obj := by
  cases op with
  | and => exact (Condition.holdAll_append obj cs₁ cs₂).trans (and_congr h₁ h₂)
  | or => exact (Condition.holdAny_append obj cs₁ cs₂).trans (or_congr h₁ h₂)

/-- A proper operand brings along proper conditions, which together mean what it does. -/
theorem conditions_operands (op : BoolOp) {value : Json ν → V} {q : QueryTree ν}
    {c : Condition V} (hc : q.condition value = some c) (hproper : c.Proper M) :
    ∃ cs, QueryTree.conditions value (op.operands q) = some cs ∧ cs ≠ [] ∧
      Condition.AllProper M cs ∧ ∀ obj, (op.condition cs).Holds obj ↔ c.Holds obj := by
  -- an operand of another class stands for itself
  have hself : op.operands q = [q] → ∃ cs, QueryTree.conditions value (op.operands q) = some cs ∧
      cs ≠ [] ∧ Condition.AllProper M cs ∧ ∀ obj, (op.condition cs).Holds obj ↔ c.Holds obj := by
    intro hq
    refine ⟨[c], ?_, List.cons_ne_nil _ _, ⟨hproper, trivial⟩, fun obj => ?_⟩
    · rw [hq, QueryTree.conditions, hc]
      rfl
    · cases op with
      | and => exact and_iff_left trivial
      | or => exact or_iff_left id
  have hown : ∀ qs : List (QueryTree ν), q = op.tree qs → op.operands q = qs →
      ∃ cs, QueryTree.conditions value (op.operands q) = some cs ∧
      cs ≠ [] ∧ Condition.AllProper M cs ∧ ∀ obj, (op.condition cs).Holds obj ↔ c.Holds obj := by
    rintro qs rfl hq
    rw [hq]
    obtain ⟨cs, hcs, rfl⟩ := op.conditions_of_tree hc
    have hproper : cs ≠ [] ∧ Condition.AllProper M cs := by cases op <;> exact hproper
    exact ⟨cs, hcs, hproper.1, hproper.2, fun obj => Iff.rfl⟩
  cases op with
  | and =>
    cases q with
    | and qs => exact hown qs rfl rfl
    | _ => exact hself rfl
  | or =>
    cases q with
    | or qs => exact hown qs rfl rfl
    | _ => exact hself rfl

/-- So do several. -/
theorem conditions_flatMap (op : BoolOp) {value : Json ν → V} {qs : List (QueryTree ν)}
    {cs : List (Condition V)} (h : QueryTree.conditions value qs = some cs)
    (hproper : Condition.AllProper M cs) :
    ∃ cs', QueryTree.conditions value (qs.flatMap op.operands) = some cs' ∧
      (cs ≠ [] → cs' ≠ []) ∧ Condition.AllProper M cs' ∧
      ∀ obj, (op.condition cs').Holds obj ↔ (op.condition cs).Holds obj := by
  induction qs generalizing cs with
  | nil =>
    obtain rfl := Option.some.inj h
    exact ⟨[], rfl, id, trivial, fun obj => Iff.rfl⟩
  | cons q qs ih =>
    rw [QueryTree.conditions] at h
    obtain ⟨c, hc, h⟩ := Option.bind_eq_some_iff.mp h
    obtain ⟨cs, hcs, h⟩ := Option.bind_eq_some_iff.mp h
    obtain rfl := Option.some.inj h
    obtain ⟨cs₁, hcs₁, hne, hall₁, hmeans₁⟩ := op.conditions_operands hc hproper.1
    obtain ⟨cs₂, hcs₂, -, hall₂, hmeans₂⟩ := ih hcs hproper.2
    refine ⟨cs₁ ++ cs₂, conditions_append hcs₁ hcs₂, fun _ => ?_, ?_, fun obj => ?_⟩
    · exact List.append_ne_nil_of_left_ne_nil hne cs₂
    · rw [Condition.allProper_iff, List.forall_mem_append]
      exact ⟨Condition.allProper_iff.mp hall₁, Condition.allProper_iff.mp hall₂⟩
    · exact op.holds_condition_append (hmeans₁ obj) (hmeans₂ obj)

/-- **The constructor keeps the meaning**: what it builds of several query objects is a proper
condition that means what they do. -/
theorem condition_new (op : BoolOp) {value : Json ν → V} {qs : List (QueryTree ν)}
    {cs : List (Condition V)} (h : QueryTree.conditions value qs = some cs) (hne : cs ≠ [])
    (hproper : Condition.AllProper M cs) :
    ∃ c, (op.new qs).condition value = some c ∧ c.Proper M ∧
      ∀ obj, c.Holds obj ↔ (op.condition cs).Holds obj := by
  obtain ⟨cs', hcs', hne', hall, hmeans⟩ := op.conditions_flatMap h hproper
  refine ⟨op.condition cs', op.condition_tree hcs', ?_, hmeans⟩
  cases op with
  | and => exact ⟨hne' hne, hall⟩
  | or => exact ⟨hne' hne, hall⟩

end BoolOp

/-! ## Documented queries on fields

The documented queries that mean something for an object with values in its fields, each with that
meaning. They are given as documented queries, so that their JSON is what `QueryJson` says. -/

/-- A documented query on fields. -/
inductive FieldQuery (ν : Type u) where
  /-- `{"$and": [..]}` -/
  | and : List (FieldQuery ν) → FieldQuery ν
  /-- `{"$or": [..]}` -/
  | or : List (FieldQuery ν) → FieldQuery ν
  /-- `{field: {"$eq": value}}` -/
  | eq : FieldName → Json ν → FieldQuery ν
  /-- `{field: {"$range": [start, end]}}` -/
  | range : FieldName → (start stop : Json ν) → FieldQuery ν

namespace FieldQuery

mutual

/-- It is a documented query. -/
def doc : FieldQuery ν → Doc ν
  | and qs => .and (docs qs)
  | or qs => .or (docs qs)
  | eq field x => .value field .eq x
  | range field start stop => .range field .range start stop

/-- So are several. -/
def docs : List (FieldQuery ν) → List (Doc ν)
  | [] => []
  | q :: qs => q.doc :: docs qs

end

mutual

/-- The object is one that the query describes. -/
def Selects [PyValue V] (value : Json ν → V) (obj : Obj V) : FieldQuery ν → Prop
  | and qs => SelectsAll value obj qs
  | or qs => SelectsAny value obj qs
  | eq field x => obj.attrs[field.name]? = some (value x)
  | range field start stop => ∃ held, obj.attrs[field.name]? = some held ∧
      BTree.Within (CatalogFieldIndex.bound (value start)) (CatalogFieldIndex.bound (value stop))
        false false held

/-- All of them describe it. -/
def SelectsAll [PyValue V] (value : Json ν → V) (obj : Obj V) : List (FieldQuery ν) → Prop
  | [] => True
  | q :: qs => q.Selects value obj ∧ SelectsAll value obj qs

/-- One of them describes it. -/
def SelectsAny [PyValue V] (value : Json ν → V) (obj : Obj V) : List (FieldQuery ν) → Prop
  | [] => False
  | q :: qs => q.Selects value obj ∨ SelectsAny value obj qs

end

mutual

/-- The query is on indexed fields, joins something, and looks for no array. -/
def Proper [PyValue V] (M : Model V) : FieldQuery ν → Prop
  | and qs => qs ≠ [] ∧ AllProper M qs
  | or qs => qs ≠ [] ∧ AllProper M qs
  | eq field x => Condition.OnField M field.name ∧ ∀ xs, x ≠ .list xs
  | range field _ _ => Condition.OnField M field.name

/-- Several queries are. -/
def AllProper [PyValue V] (M : Model V) : List (FieldQuery ν) → Prop
  | [] => True
  | q :: qs => q.Proper M ∧ AllProper M qs

end

/-! ## Compiling

Looking for values and for ranges is where the code follows the documentation, so that these
queries compile to their query objects; and what the constructors take up on the way does not
change which objects satisfy them. -/

section

variable [PyValue V] {M : Model V}

mutual

/-- A proper query is a plain one. -/
theorem Proper.plain (q : FieldQuery ν) (h : q.Proper M) : q.doc.Plain := by
  cases q with
  | and qs => exact AllProper.plain qs h.2
  | or qs => exact AllProper.plain qs h.2
  | eq field x => exact h.2
  | range field start stop => exact trivial

/-- So are several. -/
theorem AllProper.plain (qs : List (FieldQuery ν)) (h : AllProper M qs) :
    Doc.PlainAll (docs qs) := by
  cases qs with
  | nil => exact trivial
  | cons q qs => exact ⟨Proper.plain q h.1, AllProper.plain qs h.2⟩

end

mutual

/-- **The documented query object means what the query does**: it is a proper condition, which
the objects satisfy that the query selects. -/
theorem condition_tree (value : Json ν → V) (q : FieldQuery ν) (h : q.Proper M) :
    ∃ c, q.doc.tree.promote.condition value = some c ∧ c.Proper M ∧
      ∀ obj, c.Holds obj ↔ q.Selects value obj := by
  cases q with
  | and qs =>
    obtain ⟨cs, hcs, hempty, hproper, hmeans⟩ := conditions_trees value qs h.2
    obtain ⟨c, hc, hcproper, hcmeans⟩ := BoolOp.and.condition_new hcs
      (fun hnil => h.1 (hempty.mp hnil)) hproper
    exact ⟨c, hc, hcproper, fun obj => (hcmeans obj).trans (hmeans obj).1⟩
  | or qs =>
    obtain ⟨cs, hcs, hempty, hproper, hmeans⟩ := conditions_trees value qs h.2
    obtain ⟨c, hc, hcproper, hcmeans⟩ := BoolOp.or.condition_new hcs
      (fun hnil => h.1 (hempty.mp hnil)) hproper
    exact ⟨c, hc, hcproper, fun obj => (hcmeans obj).trans (hmeans obj).2⟩
  | eq field x => exact ⟨_, rfl, h.1, fun obj => Iff.rfl⟩
  | range field start stop => exact ⟨_, rfl, ⟨h, fun _ => rfl, fun _ => rfl⟩, fun obj => Iff.rfl⟩

/-- The same for several. -/
theorem conditions_trees (value : Json ν → V) (qs : List (FieldQuery ν)) (h : AllProper M qs) :
    ∃ cs, QueryTree.conditions value (QueryTree.promoteAll (Doc.trees (docs qs))) = some cs ∧
      (cs = [] ↔ qs = []) ∧ Condition.AllProper M cs ∧
      ∀ obj, (Condition.HoldAll obj cs ↔ SelectsAll value obj qs) ∧
        (Condition.HoldAny obj cs ↔ SelectsAny value obj qs) := by
  cases qs with
  | nil => exact ⟨[], rfl, by simp, trivial, fun obj => ⟨Iff.rfl, Iff.rfl⟩⟩
  | cons q qs =>
    obtain ⟨c, hc, hproper, hmeans⟩ := condition_tree value q h.1
    obtain ⟨cs, hcs, -, hall, hmeansAll⟩ := conditions_trees value qs h.2
    refine ⟨c :: cs, ?_, by simp, ⟨hproper, hall⟩, fun obj => ?_⟩
    · rw [docs, Doc.trees, QueryTree.promoteAll, QueryTree.conditions, hc, hcs]
      rfl
    · exact ⟨and_congr (hmeans obj) (hmeansAll obj).1, or_congr (hmeans obj) (hmeansAll obj).2⟩

end

end

end FieldQuery

/-! ## Searches

The query object that the JSON compiles to is a condition that means what the query does, and
`search_exact` is about every condition. -/

end QueryJson

end Zerodb
