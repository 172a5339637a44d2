import Zerodb.Storage

/-!
# QueryJson: queries written in JSON

`compile` turns a JSON query into a query object: logical operators recursively, a
condition on a field by the comparator of its operator. What it passes to the comparator
is the operand, or, if the operand is an array, its elements one by one.

`Doc` is a query as the documentation writes them, `toJson` its JSON and `tree` the query
object the documentation gives for it. `And` and `Or` take up the operands of an operand of
their own class (`BoolOp.new`), so that `tree` is what is built only up to this (`promote`).
`follows_iff_plain`: the code follows the documentation exactly on queries without an array
operator and without an array as the operand of an operator that takes one value.
-/

namespace Zerodb

namespace QueryJson

universe u

variable {ν : Type u}

/-! ## JSON and query objects

Both are inductive types with lists of themselves inside. JSON has numbers of any type `ν`, and a
query object keeps as values what the JSON has for them. -/

/-- Deserialized JSON, with numbers in `ν`. -/
inductive Json (ν : Type u) where
  /-- `None` -/
  | null : Json ν
  /-- `True` or `False` -/
  | bool : Bool → Json ν
  /-- a number -/
  | number : ν → Json ν
  /-- a `str` -/
  | string : Str → Json ν
  /-- a `list` -/
  | list : List (Json ν) → Json ν
  /-- a `dict`, in the order of its keys -/
  | dict : List (Str × Json ν) → Json ν

/-- The comparators whose value is a collection. -/
inductive SetComparator where
  /-- `Any` -/
  | any : SetComparator
  /-- `All` -/
  | all : SetComparator
  /-- `NotAny` -/
  | notAny : SetComparator
  /-- `NotAll` -/
  | notAll : SetComparator
  deriving DecidableEq

/-- The comparators that take `(index_name, value)`. -/
inductive Comparator where
  /-- `Eq` -/
  | eq : Comparator
  /-- `NotEq` -/
  | notEq : Comparator
  /-- `Lt` -/
  | lt : Comparator
  /-- `Le` -/
  | le : Comparator
  /-- `Gt` -/
  | gt : Comparator
  /-- `Ge` -/
  | ge : Comparator
  /-- `Contains` -/
  | contains : Comparator
  /-- `DoesNotContain` -/
  | doesNotContain : Comparator
  /-- one whose value is a collection -/
  | set : SetComparator → Comparator
  deriving DecidableEq

/-- The comparators that take `(index_name, start, end, start_exclusive=False,
end_exclusive=False)`. -/
inductive RangeComparator where
  /-- `InRange` -/
  | inRange : RangeComparator
  /-- `NotInRange` -/
  | notInRange : RangeComparator
  deriving DecidableEq

/-- A query object. -/
inductive QueryTree (ν : Type u) where
  /-- `And(*queries)` -/
  | and : List (QueryTree ν) → QueryTree ν
  /-- `Or(*queries)` -/
  | or : List (QueryTree ν) → QueryTree ν
  /-- `Not(query)` -/
  | not : QueryTree ν → QueryTree ν
  /-- a comparator with its index and value -/
  | comparator : Comparator → (indexName : Str) → (value : Json ν) → QueryTree ν
  /-- a range comparator with its index and arguments -/
  | range : RangeComparator → (indexName : Str) → (start stop : Json ν) →
      (startExclusive stopExclusive : Json ν) → QueryTree ν

/-! ## And and Or

Both are of the class `BoolOp`, whose constructor takes the operands of an operand of the same
class for the operand: `And(And(a, b), c)` is `And(a, b, c)`. What a query object asks for does
not change with it: the conditions in it stay the same, in the same order (`leaves`). -/

/-- The classes that take several queries. -/
inductive BoolOp where
  /-- `And` -/
  | and : BoolOp
  /-- `Or` -/
  | or : BoolOp
  deriving DecidableEq

namespace BoolOp

/-- The object with these operands. -/
def tree : BoolOp → List (QueryTree ν) → QueryTree ν
  | and => .and
  | or => .or

/-- What an operand brings along: its own operands, if it is of the class itself. -/
def operands : BoolOp → QueryTree ν → List (QueryTree ν)
  | and, .and qs => qs
  | or, .or qs => qs
  | _, q => [q]

/-- `And(*queries)`, `Or(*queries)`. -/
def new (op : BoolOp) (queries : List (QueryTree ν)) : QueryTree ν :=
  op.tree (queries.flatMap op.operands)

end BoolOp

namespace QueryTree

mutual

/-- The object that the constructors build where this one is asked for. -/
def promote : QueryTree ν → QueryTree ν
  | and qs => BoolOp.and.new (promoteAll qs)
  | or qs => BoolOp.or.new (promoteAll qs)
  | not q => .not q.promote
  | comparator c indexName value => .comparator c indexName value
  | range c indexName start stop x y => .range c indexName start stop x y

/-- The operands. -/
def promoteAll : List (QueryTree ν) → List (QueryTree ν)
  | [] => []
  | q :: qs => q.promote :: promoteAll qs

end

mutual

/-- The conditions of a query object, from left to right. -/
def leaves : QueryTree ν → List (QueryTree ν)
  | and qs => leavesAll qs
  | or qs => leavesAll qs
  | not q => q.leaves
  | comparator c indexName value => [comparator c indexName value]
  | range c indexName start stop x y => [range c indexName start stop x y]

/-- Those of several. -/
def leavesAll : List (QueryTree ν) → List (QueryTree ν)
  | [] => []
  | q :: qs => q.leaves ++ leavesAll qs

end

theorem leavesAll_append (qs qs' : List (QueryTree ν)) :
    leavesAll (qs ++ qs') = leavesAll qs ++ leavesAll qs' := by
  induction qs with
  | nil => rfl
  | cons q qs ih => rw [List.cons_append, leavesAll, leavesAll, ih, List.append_assoc]

end QueryTree

namespace BoolOp

variable (op : BoolOp)

@[simp] theorem leaves_tree (qs : List (QueryTree ν)) :
    (op.tree qs).leaves = QueryTree.leavesAll qs := by
  cases op <;> simp only [tree, QueryTree.leaves]

@[simp] theorem leavesAll_operands (q : QueryTree ν) :
    QueryTree.leavesAll (op.operands q) = q.leaves := by
  cases op <;> cases q <;> simp [operands, QueryTree.leavesAll, QueryTree.leaves]

/-- Taking up operands keeps the conditions. -/
@[simp] theorem leaves_new (queries : List (QueryTree ν)) :
    (op.new queries).leaves = QueryTree.leavesAll queries := by
  rw [new, leaves_tree]
  induction queries with
  | nil => rfl
  | cons q queries ih =>
    rw [List.flatMap_cons, QueryTree.leavesAll_append, leavesAll_operands, ih, QueryTree.leavesAll]

end BoolOp

namespace QueryTree

mutual

theorem leaves_promote (q : QueryTree ν) : q.promote.leaves = q.leaves := by
  cases q with
  | and qs => rw [promote, BoolOp.leaves_new, leavesAll_promoteAll qs, leaves]
  | or qs => rw [promote, BoolOp.leaves_new, leavesAll_promoteAll qs, leaves]
  | not q => rw [promote, leaves, leaves_promote q, leaves]
  | comparator c indexName value => rfl
  | range c indexName start stop x y => rfl

theorem leavesAll_promoteAll (qs : List (QueryTree ν)) :
    leavesAll (promoteAll qs) = leavesAll qs := by
  cases qs with
  | nil => rfl
  | cons q qs => rw [promoteAll, leavesAll, leaves_promote q, leavesAll_promoteAll qs, leavesAll]

end

end QueryTree

/-! ## The operators

The two tables of the module. What stands behind an operator is a class, and how many arguments it
takes decides whether a call raises `TypeError`. -/

/-- What stands behind a logical operator. -/
inductive Logical where
  /-- `And` -/
  | and : Logical
  /-- `Or` -/
  | or : Logical
  /-- `Not` -/
  | not : Logical
  deriving DecidableEq

/-- What stands behind a field operator. -/
inductive FieldOperator where
  /-- a comparator with one value -/
  | comparator : Comparator → FieldOperator
  /-- a range comparator -/
  | range : RangeComparator → FieldOperator
  deriving DecidableEq

/-- `logical_operators`. -/
def logicalOperators : List (Str × Logical) :=
  [(['$', 'a', 'n', 'd'], .and),
    (['$', 'o', 'r'], .or),
    (['$', 'n', 'o', 't'], .not)]

/-- `field_operators`. -/
def fieldOperators : List (Str × FieldOperator) :=
  [(['$', 'e', 'q'], .comparator .eq),
    (['$', 'n', 'e'], .comparator .notEq),
    (['$', 'l', 't'], .comparator .lt),
    (['$', 'l', 't', 'e'], .comparator .le),
    (['$', 'g', 't'], .comparator .gt),
    (['$', 'g', 't', 'e'], .comparator .ge),
    (['$', 'r', 'a', 'n', 'g', 'e'], .range .inRange),
    (['$', 'n', 'r', 'a', 'n', 'g', 'e'], .range .notInRange),
    (['$', 't', 'e', 'x', 't'], .comparator .contains),
    (['$', 'n', 't', 'e', 'x', 't'], .comparator .doesNotContain),
    (['$', 'i', 'n'], .comparator (.set .any)),
    (['$', 'a', 'l', 'l'], .comparator (.set .all)),
    (['$', 'n', 'a', 'n', 'y'], .comparator (.set .notAny)),
    (['$', 'n', 'i', 'n'], .comparator (.set .notAll))]

/-! ## Compiling

`compile` looks at one key only. For a field it makes a list of parameters out of the operand, and
the operand itself is that list if it is an array; this is where the operators that take an array
go wrong. -/

/-- `logical_operators[key](*queries)`; `Not` takes one. -/
def applyLogical : Logical → List (QueryTree ν) → Except Exc (QueryTree ν)
  | .and, qs => .ok (BoolOp.and.new qs)
  | .or, qs => .ok (BoolOp.or.new qs)
  | .not, [q] => .ok (.not q)
  | .not, _ => .error .typeError

/-- `field_operators[opkey](key, *params)`. -/
def applyField (key : Str) : FieldOperator → List (Json ν) → Except Exc (QueryTree ν)
  | .comparator c, [value] => .ok (.comparator c key value)
  | .range c, [start, stop] => .ok (.range c key start stop (.bool false) (.bool false))
  | .range c, [start, stop, x] => .ok (.range c key start stop x (.bool false))
  | .range c, [start, stop, x, y] => .ok (.range c key start stop x y)
  | _, _ => .error .typeError

/-- `params`. -/
def params : Json ν → List (Json ν)
  | .list l => l
  | value => [value]

/-- The condition of a query on one field. -/
def compileField (key : Str) : Json ν → Except Exc (QueryTree ν)
  | .dict [(opkey, value)] =>
    match fieldOperators.lookup opkey with
    | none => .error .keyError
    | some op => applyField key op (params value)
  | _ => .error .assertionError

mutual

/-- `compile`. A `str` or `list` of length 1 has no keys. -/
def compile : Json ν → Except Exc (QueryTree ν)
  | .dict [(key, value)] =>
    match logicalOperators.lookup key with
    | some op =>
      match value with
      | .list qs => do applyLogical op (← compileAll qs)
      | q => do applyLogical op [← compile q]
    | none => compileField key value
  | .dict _ => .error .assertionError
  | .list [_] => .error (.attributeError "keys")
  | .string [_] => .error (.attributeError "keys")
  | .list _ => .error .assertionError
  | .string _ => .error .assertionError
  | _ => .error .typeError

/-- `map(compile, queries)`. -/
def compileAll : List (Json ν) → Except Exc (List (QueryTree ν))
  | [] => .ok []
  | q :: qs => do return (← compile q) :: (← compileAll qs)

end

/-! ## Documented queries

The specification. A `Doc` is a query that the documentation allows, by the number and kind of
operands that it lists for each operator, and `tree` is the query object that it describes.
`Follows` also asks that the operator `$nin` selects what the documentation says, since the class
behind it is another one. -/

/-- The operators that take one value. -/
inductive ValueOperator where
  /-- `$eq` -/
  | eq : ValueOperator
  /-- `$ne` -/
  | ne : ValueOperator
  /-- `$lt` -/
  | lt : ValueOperator
  /-- `$lte` -/
  | lte : ValueOperator
  /-- `$gt` -/
  | gt : ValueOperator
  /-- `$gte` -/
  | gte : ValueOperator
  /-- `$text` -/
  | text : ValueOperator
  /-- `$ntext` -/
  | ntext : ValueOperator
  deriving DecidableEq

/-- The operators that take an array. -/
inductive ArrayOperator where
  /-- `$in` -/
  | isIn : ArrayOperator
  /-- `$all` -/
  | all : ArrayOperator
  /-- `$nany` -/
  | nany : ArrayOperator
  /-- `$nin` -/
  | nin : ArrayOperator
  deriving DecidableEq

/-- The operators that take a start and an end. -/
inductive RangeOperator where
  /-- `$range` -/
  | range : RangeOperator
  /-- `$nrange` -/
  | nrange : RangeOperator
  deriving DecidableEq

/-- The name of an operator, and the comparator that the documentation lists for it. -/
def ValueOperator.entry : ValueOperator → Str × Comparator
  | .eq => (['$', 'e', 'q'], .eq)
  | .ne => (['$', 'n', 'e'], .notEq)
  | .lt => (['$', 'l', 't'], .lt)
  | .lte => (['$', 'l', 't', 'e'], .le)
  | .gt => (['$', 'g', 't'], .gt)
  | .gte => (['$', 'g', 't', 'e'], .ge)
  | .text => (['$', 't', 'e', 'x', 't'], .contains)
  | .ntext => (['$', 'n', 't', 'e', 'x', 't'], .doesNotContain)

@[inherit_doc ValueOperator.entry]
def ArrayOperator.entry : ArrayOperator → Str × SetComparator
  | .isIn => (['$', 'i', 'n'], .any)
  | .all => (['$', 'a', 'l', 'l'], .all)
  | .nany => (['$', 'n', 'a', 'n', 'y'], .notAny)
  | .nin => (['$', 'n', 'i', 'n'], .notAll)

@[inherit_doc ValueOperator.entry]
def RangeOperator.entry : RangeOperator → Str × RangeComparator
  | .range => (['$', 'r', 'a', 'n', 'g', 'e'], .inRange)
  | .nrange => (['$', 'n', 'r', 'a', 'n', 'g', 'e'], .notInRange)

/-- The name of a field, which is no logical operator. -/
structure FieldName where
  /-- the name -/
  name : Str
  /-- it is none of `$and`, `$or` and `$not` -/
  lookup_eq : logicalOperators.lookup name = none

/-- A query as documented. -/
inductive Doc (ν : Type u) where
  /-- `{"$and": [..]}` -/
  | and : List (Doc ν) → Doc ν
  /-- `{"$or": [..]}` -/
  | or : List (Doc ν) → Doc ν
  /-- `{"$not": ..}` -/
  | not : Doc ν → Doc ν
  /-- `{field: {operator: value}}` -/
  | value : FieldName → ValueOperator → Json ν → Doc ν
  /-- `{field: {operator: [..]}}` -/
  | array : FieldName → ArrayOperator → List (Json ν) → Doc ν
  /-- `{field: {operator: [start, end]}}` -/
  | range : FieldName → RangeOperator → (start stop : Json ν) → Doc ν

namespace Doc

/-- `{field: {operator: operand}}`. -/
def condition (field : FieldName) (operator : Str) (operand : Json ν) : Json ν :=
  .dict [(field.name, .dict [(operator, operand)])]

mutual

/-- The query in JSON. -/
def toJson : Doc ν → Json ν
  | and ds => .dict [(['$', 'a', 'n', 'd'], .list (toJsons ds))]
  | or ds => .dict [(['$', 'o', 'r'], .list (toJsons ds))]
  | not d => .dict [(['$', 'n', 'o', 't'], d.toJson)]
  | value field op x => condition field op.entry.1 x
  | array field op xs => condition field op.entry.1 (.list xs)
  | range field op start stop => condition field op.entry.1 (.list [start, stop])

/-- Several queries in JSON. -/
def toJsons : List (Doc ν) → List (Json ν)
  | [] => []
  | d :: ds => d.toJson :: toJsons ds

end

mutual

/-- The query object the documentation gives: the same shape, with each condition the
comparator of its operator, applied to the field and the operand. -/
def tree : Doc ν → QueryTree ν
  | and ds => .and (trees ds)
  | or ds => .or (trees ds)
  | not d => .not d.tree
  | value field op x => .comparator op.entry.2 field.name x
  | array field op xs => .comparator (.set op.entry.2) field.name (.list xs)
  | range field op start stop =>
    .range op.entry.2 field.name start stop (.bool false) (.bool false)

/-- Those of several queries. -/
def trees : List (Doc ν) → List (QueryTree ν)
  | [] => []
  | d :: ds => d.tree :: trees ds

end

mutual

/-- No array operator occurs, and no array as the operand of an operator that takes one
value. -/
def Plain : Doc ν → Prop
  | and ds => PlainAll ds
  | or ds => PlainAll ds
  | not d => d.Plain
  | value _ _ x => ∀ xs, x ≠ .list xs
  | array _ _ _ => False
  | range _ _ _ _ => True

/-- Not in any of several queries. -/
def PlainAll : List (Doc ν) → Prop
  | [] => True
  | d :: ds => d.Plain ∧ PlainAll ds

end

mutual

/-- A condition with an array operator occurs in the query. -/
def HasArray (field : FieldName) (op : ArrayOperator) (xs : List (Json ν)) : Doc ν → Prop
  | and ds => HasArrayAny field op xs ds
  | or ds => HasArrayAny field op xs ds
  | not d => d.HasArray field op xs
  | value _ _ _ => False
  | array field' op' xs' => field' = field ∧ op' = op ∧ xs' = xs
  | range _ _ _ _ => False

/-- It occurs in one of several queries. -/
def HasArrayAny (field : FieldName) (op : ArrayOperator) (xs : List (Json ν)) :
    List (Doc ν) → Prop
  | [] => False
  | d :: ds => d.HasArray field op xs ∨ HasArrayAny field op xs ds

end

end Doc

/-- Which documents a comparator of a collection selects, in terms of the values that a
document has in the field. -/
def SetComparator.Selects (operand held : List (Json ν)) : SetComparator → Prop
  | .any => ∃ x ∈ operand, x ∈ held
  | .notAny => ¬∃ x ∈ operand, x ∈ held
  | .all => ∀ x ∈ operand, x ∈ held
  | .notAll => ¬∀ x ∈ operand, x ∈ held

/-- **The documentation is followed**: the query compiles to the tree it gives, as the
constructors build it, and what `$nin` stands for selects the documents that have the field and
that `$in` does not. -/
structure Follows (d : Doc ν) : Prop where
  /-- the query object is the documented one -/
  compiled : compile d.toJson = .ok d.tree.promote
  /-- `$nin` is the complement of `$in` -/
  complement : ∀ field xs, d.HasArray field .nin xs → ∀ held, held ≠ [] →
    (ArrayOperator.nin.entry.2.Selects xs held ↔ ¬ArrayOperator.isIn.entry.2.Selects xs held)

/-! ## Where the code follows the documentation

The direction from plain queries is an induction over the query. For the other one it does not
help to compare the objects, since taking up operands loses how they were grouped. It keeps the
conditions and their order, though (`leaves_promote`), and a condition compiles to one: so equal
lists of conditions can be compared from the left, operand by operand. -/

/-- The table of the code has the documented comparators under the documented names. -/
theorem lookup_value (op : ValueOperator) :
    fieldOperators.lookup op.entry.1 = some (.comparator op.entry.2) := by
  cases op <;> rfl

@[inherit_doc lookup_value]
theorem lookup_array (op : ArrayOperator) :
    fieldOperators.lookup op.entry.1 = some (.comparator (.set op.entry.2)) := by
  cases op <;> rfl

@[inherit_doc lookup_value]
theorem lookup_range (op : RangeOperator) :
    fieldOperators.lookup op.entry.1 = some (.range op.entry.2) := by
  cases op <;> rfl

/-- A condition compiles to its operator applied to the parameters. -/
theorem compile_condition (field : FieldName) {operator : Str} {op : FieldOperator}
    (h : fieldOperators.lookup operator = some op) (operand : Json ν) :
    compile (Doc.condition field operator operand) = applyField field.name op (params operand) := by
  simp only [Doc.condition, compile, field.lookup_eq, compileField, h]

theorem params_of_ne {x : Json ν} (h : ∀ xs, x ≠ .list xs) : params x = [x] := by
  cases x with
  | list xs => exact absurd rfl (h xs)
  | _ => rfl

/-- Spread over the parameters, an array never arrives as the value. -/
theorem applyField_list (key : Str) (c : Comparator) (xs : List (Json ν)) :
    applyField key (.comparator c) (params (.list xs)) ≠ .ok (.comparator c key (.list xs)) := by
  intro h
  rcases xs with _ | ⟨x, _ | ⟨y, xs⟩⟩
  · cases h
  · simp only [params, applyField, Except.ok.injEq, QueryTree.comparator.injEq, true_and] at h
    have hsize := congrArg sizeOf h
    simp only [Json.list.sizeOf_spec, List.cons.sizeOf_spec] at hsize
    omega
  · cases h

/-- `$and` and `$or` are applied to the compiled queries of the list. -/
theorem compile_logical {key : Str} {op : Logical} (h : logicalOperators.lookup key = some op)
    (qs : List (Json ν)) :
    compile (.dict [(key, .list qs)]) = (compileAll qs).bind (applyLogical op) := by
  simp only [compile, h]
  rfl

/-- `$not` is applied to the compiled query. -/
theorem compile_not (d : Doc ν) :
    compile (.dict [(['$', 'n', 'o', 't'], d.toJson)]) =
      (compile d.toJson).map QueryTree.not := by
  have hlookup : logicalOperators.lookup ['$', 'n', 'o', 't'] = some .not := rfl
  have hbind : ∀ x : Except Exc (QueryTree ν),
      (x.bind fun q => applyLogical .not [q]) = x.map QueryTree.not := by
    intro x
    cases x <;> rfl
  cases d <;> exact hbind _

mutual

/-- A plain query compiles to the documented tree. -/
theorem compile_of_plain (d : Doc ν) (h : d.Plain) : compile d.toJson = .ok d.tree.promote := by
  cases d with
  | and ds =>
    rw [Doc.toJson, compile_logical rfl, compileAll_of_plain ds h]
    rfl
  | or ds =>
    rw [Doc.toJson, compile_logical rfl, compileAll_of_plain ds h]
    rfl
  | not d =>
    rw [Doc.toJson, compile_not, compile_of_plain d h]
    rfl
  | value field op x =>
    rw [Doc.toJson, compile_condition field (lookup_value op), params_of_ne h]
    rfl
  | array field op xs => exact absurd h id
  | range field op start stop =>
    rw [Doc.toJson, compile_condition field (lookup_range op)]
    rfl

/-- The same for a list of queries. -/
theorem compileAll_of_plain (ds : List (Doc ν)) (h : Doc.PlainAll ds) :
    compileAll (Doc.toJsons ds) = .ok (QueryTree.promoteAll (Doc.trees ds)) := by
  cases ds with
  | nil => rfl
  | cons d ds =>
    rw [Doc.toJsons, compileAll, compile_of_plain d h.1, compileAll_of_plain ds h.2]
    rfl

end

/-! ## Nowhere else

What is compiled is compared with what is documented condition by condition. Every condition of
the query gives one of the object, whether it follows the documentation or not, so that the two
lists are of equal length and agree only if all of their parts do. -/

/-- What a comparator with one value compiles to is a condition, and not the one with the array
that is spread. -/
theorem leaves_of_applyField {key : Str} {c : Comparator} {operand : Json ν} {q : QueryTree ν}
    (h : applyField key (.comparator c) (params operand) = .ok q) :
    q.leaves.length = 1 ∧
      (q.leaves = [.comparator c key operand] → ∀ xs, operand ≠ .list xs) := by
  obtain ⟨value, hvalue⟩ : ∃ value, params operand = [value] := by
    rcases hparams : params operand with _ | ⟨value, _ | ⟨value', values⟩⟩
    · rw [hparams] at h
      cases h
    · exact ⟨value, rfl⟩
    · rw [hparams] at h
      cases h
  rw [hvalue] at h
  obtain rfl := Except.ok.inj h
  refine ⟨rfl, ?_⟩
  rintro hleaves xs rfl
  obtain rfl : value = .list xs := (QueryTree.comparator.inj (List.cons.inj hleaves).1).2.2
  exact applyField_list key c xs (by rw [hvalue]; rfl)

/-- What `$and` and `$or` compile to has the conditions of what they are applied to. -/
theorem leaves_of_bind (op : BoolOp) {x : Except Exc (List (QueryTree ν))} {q : QueryTree ν}
    (h : (x.bind fun qs => .ok (op.new qs)) = .ok q) :
    ∃ qs, x = .ok qs ∧ q.leaves = QueryTree.leavesAll qs := by
  rcases x with e | qs
  · cases h
  · obtain rfl := Except.ok.inj h
    exact ⟨qs, rfl, op.leaves_new qs⟩

mutual

/-- **A query that compiles to the documented conditions is plain**: each of its conditions
compiles to one, which is not the documented one if an array is spread. -/
theorem leaves_of_compile (d : Doc ν) {q : QueryTree ν} (h : compile d.toJson = .ok q) :
    q.leaves.length = d.tree.leaves.length ∧ (q.leaves = d.tree.leaves → d.Plain) := by
  cases d with
  | and ds =>
    rw [Doc.toJson, compile_logical rfl] at h
    obtain ⟨qs, hqs, hleaves⟩ := leaves_of_bind .and h
    rw [hleaves, Doc.tree, QueryTree.leaves]
    exact leaves_of_compileAll ds hqs
  | or ds =>
    rw [Doc.toJson, compile_logical rfl] at h
    obtain ⟨qs, hqs, hleaves⟩ := leaves_of_bind .or h
    rw [hleaves, Doc.tree, QueryTree.leaves]
    exact leaves_of_compileAll ds hqs
  | not d =>
    rw [Doc.toJson, compile_not] at h
    rcases hd : compile d.toJson with e | q'
    · rw [hd] at h
      cases h
    · rw [hd] at h
      obtain rfl := Except.ok.inj h
      rw [QueryTree.leaves, Doc.tree, QueryTree.leaves]
      exact leaves_of_compile d hd
  | value field op x =>
    rw [Doc.toJson, compile_condition field (lookup_value op)] at h
    exact leaves_of_applyField h
  | array field op xs =>
    rw [Doc.toJson, compile_condition field (lookup_array op)] at h
    obtain ⟨hlength, hspread⟩ := leaves_of_applyField h
    exact ⟨hlength, fun hleaves => hspread hleaves xs rfl⟩
  | range field op start stop =>
    rw [Doc.toJson, compile_condition field (lookup_range op)] at h
    obtain rfl := Except.ok.inj h
    exact ⟨rfl, fun _ => trivial⟩

/-- The same for a list of queries. -/
theorem leaves_of_compileAll (ds : List (Doc ν)) {qs : List (QueryTree ν)}
    (h : compileAll (Doc.toJsons ds) = .ok qs) :
    (QueryTree.leavesAll qs).length = (QueryTree.leavesAll (Doc.trees ds)).length ∧
      (QueryTree.leavesAll qs = QueryTree.leavesAll (Doc.trees ds) → Doc.PlainAll ds) := by
  cases ds with
  | nil =>
    obtain rfl := Except.ok.inj h
    exact ⟨rfl, fun _ => trivial⟩
  | cons d ds =>
    rw [Doc.toJsons, compileAll] at h
    rcases hd : compile d.toJson with e | q
    · rw [hd] at h
      cases h
    · rcases hds : compileAll (Doc.toJsons ds) with e | qs'
      · rw [hd, hds] at h
        cases h
      · rw [hd, hds] at h
        obtain rfl := Except.ok.inj h
        obtain ⟨hlength, hplain⟩ := leaves_of_compile d hd
        obtain ⟨hlengths, hplains⟩ := leaves_of_compileAll ds hds
        rw [QueryTree.leavesAll, Doc.trees, QueryTree.leavesAll]
        refine ⟨by rw [List.length_append, List.length_append, hlength, hlengths], fun heq => ?_⟩
        obtain ⟨hleaves, hrest⟩ := List.append_inj heq hlength
        exact ⟨hplain hleaves, hplains hrest⟩

end

/-- **Compiling gives the documented tree** exactly on plain queries. -/
theorem compile_toJson_iff (d : Doc ν) : compile d.toJson = .ok d.tree.promote ↔ d.Plain := by
  refine ⟨fun h => ?_, compile_of_plain d⟩
  exact (leaves_of_compile d h).2 d.tree.leaves_promote

/-- The operands of the `$and` within are taken up. -/
example :
    let x : Doc ℤ := .value ⟨['f'], rfl⟩ .gt (.number 1)
    let y : QueryTree ℤ := .comparator .gt ['f'] (.number 1)
    compile (Doc.and [.and [x, x], x]).toJson = .ok (.and [y, y, y]) := rfl

section PlainQueries

variable {field : FieldName} {op : ArrayOperator} {xs : List (Json ν)}

mutual

/-- In a plain query no array operator occurs. -/
theorem Doc.not_hasArray (d : Doc ν) (h : d.Plain) : ¬d.HasArray field op xs := by
  cases d with
  | and ds => exact Doc.not_hasArrayAny ds h
  | or ds => exact Doc.not_hasArrayAny ds h
  | not d => exact Doc.not_hasArray d h
  | value field op x => exact id
  | array field op xs => exact absurd h id
  | range field op start stop => exact id

/-- Nor in several. -/
theorem Doc.not_hasArrayAny (ds : List (Doc ν)) (h : Doc.PlainAll ds) :
    ¬Doc.HasArrayAny field op xs ds := by
  cases ds with
  | nil => exact id
  | cons d ds =>
    rintro (hd | hds)
    · exact Doc.not_hasArray d h.1 hd
    · exact Doc.not_hasArrayAny ds h.2 hds

end

end PlainQueries

/-- **Compilation, exactly**: the documentation is followed on a documented query if and only
if the query has no condition with `$in`, `$all`, `$nany` or `$nin`, and none of an operator
that takes one value with an array as that value. -/
theorem follows_iff_plain (d : Doc ν) : Follows d ↔ d.Plain := by
  refine ⟨?_, ?_⟩
  · intro h
    exact (compile_toJson_iff d).mp h.compiled
  · intro h
    exact ⟨(compile_toJson_iff d).mpr h, fun field xs hhas => absurd hhas (d.not_hasArray h)⟩

/-- `{"f": {"$in": [1, 2]}}` raises `TypeError`, `{"f": {"$in": [1]}}` asks for any of `1`
instead of any of `[1]`; and a document that has the values 1 and 3 is selected both by what
`$in` and by what `$nin` stands for with `[1, 2]`. -/
theorem compile_array_operators :
    let field : FieldName := ⟨['f'], rfl⟩
    let one : Json ℤ := .number 1
    let two : Json ℤ := .number 2
    compile (Doc.array field .isIn [one, two]).toJson = .error .typeError ∧
      compile (Doc.array field .isIn [one]).toJson = .ok (.comparator (.set .any) ['f'] one) ∧
      ¬Follows (Doc.array field .isIn [one, two]) ∧
      fieldOperators.lookup ['$', 'n', 'i', 'n'] = some (.comparator (.set .notAll)) ∧
      SetComparator.any.Selects [one, two] [one, .number 3] ∧
      SetComparator.notAll.Selects [one, two] [one, .number 3] := by
  intro field one two
  refine ⟨rfl, rfl, fun h => ?_, rfl, ⟨one, by simp, by simp⟩, fun h => ?_⟩
  · cases h.compiled
  · have htwo := h two (by simp)
    simp [one, two] at htwo

end QueryJson

end Zerodb
