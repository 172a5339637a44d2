import Zerodb.TreeDescent
import Mathlib.Data.List.ReduceOption

/-!
# PrefetchTrees: fetching whole trees

`prefetch_trees` fetches trees level by level, as deep as it is told. Before the Okapi index
scores the documents of words, it fetches all that it is going to read: the lookup paths of the
words, the trees of their documents as a whole, and the lookup paths of the documents
(`OkapiIndex._search_wids`).

* `prefetchTrees_exact` — each level is fetched at once, and nothing below the depth;
* `searchWids_exact` — what a search fetches beforehand is what it reads.
-/

namespace Zerodb

/-! ## Objects that refer to each other

`prefetch_trees` knows no trees: it asks an object for its children and their types. So it is
modelled, and its result stated, over any graph of objects; that the objects are nodes of trees
comes in later. What it collects is `level`, and `mem_level` reads this as a number of steps down
the graph. -/

/-- The persistent objects of a database, as `prefetch_trees` asks them, in types `τ`. They may
refer to each other in any way. -/
structure Objects (ι τ : Type) where
  /-- `type(tree)` -/
  type : ι → τ
  /-- `isinstance(obj, type)`, which holds of subclasses too -/
  isinstance : ι → τ → Bool
  /-- `tree._bucket_type`, if there is one -/
  bucketType : ι → Option τ
  /-- `_p_oid`, of those that are stored -/
  oid : ι → Option ℕ
  /-- the objects in the first part of `__getstate__`, if there is a state -/
  state : ι → Option (List ι)

namespace Objects

variable {ι τ : Type} (db : Objects ι τ)

/-- `prefetch`: the oids that are fetched. -/
def prefetch (objs : List ι) : List ℕ := objs.filterMap db.oid

/-- The types of trees and of their buckets. -/
def bucketTypes [DecidableEq τ] (trees : List ι) : List τ :=
  (trees.flatMap fun tree =>
    match db.bucketType tree with
    | some bucketType => [db.type tree, bucketType]
    | none => []).dedup

/-- The children that are instances of these types. -/
def children (types : List τ) (trees : List ι) : List ι :=
  trees.flatMap fun tree =>
    match db.state tree with
    | some state => state.filter fun o => types.any (db.isinstance o)
    | none => []

/-- `prefetch_trees`: the oids fetched by each call of itself. What is not persistent is `none`. -/
def prefetchTrees [DecidableEq τ] : (depth : ℕ) → (types : List τ) → (trees : List (Option ι)) →
    List (List ℕ)
  | 0, _, _ => []
  | depth + 1, types, trees =>
    let trees := trees.reduceOption
    if trees.isEmpty then []
    else
      let types := if types.isEmpty then db.bucketTypes trees else types
      db.prefetch trees :: prefetchTrees depth types ((db.children types trees).map some)

/-- The objects so many steps down. -/
def level (types : List τ) (n : ℕ) (trees : List ι) : List ι := (db.children types)^[n] trees

/-- There is a way of so many steps down. -/
def Below (types : List τ) : ℕ → ι → ι → Prop
  | 0, x, y => x = y
  | n + 1, x, y => ∃ state, db.state x = some state ∧
    ∃ z ∈ state, types.any (db.isinstance z) = true ∧ Below types n z y

variable {db} {types : List τ}

theorem mem_children {trees : List ι} {x : ι} : x ∈ db.children types trees ↔
    ∃ tree ∈ trees, ∃ state, db.state tree = some state ∧ x ∈ state ∧
      types.any (db.isinstance x) = true := by
  rw [children, List.mem_flatMap]
  refine exists_congr fun tree => and_congr_right fun _ => ?_
  rcases db.state tree with _ | state <;> simp

theorem mem_level {n : ℕ} {trees : List ι} {x : ι} :
    x ∈ db.level types n trees ↔ ∃ tree ∈ trees, db.Below types n tree x := by
  induction n generalizing trees with
  | zero =>
    change x ∈ trees ↔ ∃ tree ∈ trees, tree = x
    rw [exists_eq_right]
  | succ n ih =>
    rw [level, Function.iterate_succ_apply, ← level, ih]
    refine ⟨?_, ?_⟩
    · rintro ⟨z, hz, hx⟩
      obtain ⟨tree, htree, state, hstate, hz, htype⟩ := mem_children.mp hz
      exact ⟨tree, htree, state, hstate, z, hz, htype, hx⟩
    · rintro ⟨tree, htree, state, hstate, z, hz, htype, hx⟩
      exact ⟨z, mem_children.mpr ⟨tree, htree, state, hstate, hz, htype⟩, hx⟩

theorem level_nil (n : ℕ) : db.level types n [] = [] := by
  induction n with
  | zero => rfl
  | succ n ih => exact ih

theorem level_no_types {n : ℕ} {trees : List ι} : db.level [] (n + 1) trees = [] := by
  rw [level, Function.iterate_succ_apply, ← level]
  have hnone : db.children [] trees = [] := by
    refine List.eq_nil_iff_forall_not_mem.mpr fun x hx => ?_
    obtain ⟨tree, -, state, -, -, hin⟩ := mem_children.mp hx
    cases hin
  rw [hnone, level_nil]

/-! ## Level by level

One call fetches a level and hands the children to the next call, one level deeper
(`prefetchTrees_succ`). The `n`-th call therefore fetches level `n`, as long as no level before it
was empty and the depth allows it, and `prefetchTrees_exact` adds up the calls. -/

variable [DecidableEq τ]

theorem prefetchTrees_empty {depth : ℕ} {trees : List (Option ι)} (h : trees.reduceOption = []) :
    db.prefetchTrees depth types trees = [] := by
  cases depth with
  | zero => rfl
  | succ depth => simp only [prefetchTrees, h, List.isEmpty_nil, if_true]

/-- One call on trees. -/
theorem prefetchTrees_succ {depth : ℕ} {trees : List (Option ι)} (h : trees.reduceOption ≠ []) :
    db.prefetchTrees (depth + 1) types trees =
      db.prefetch trees.reduceOption :: db.prefetchTrees depth
        (if types.isEmpty then db.bucketTypes trees.reduceOption else types)
        ((db.children (if types.isEmpty then db.bucketTypes trees.reduceOption else types)
          trees.reduceOption).map some) := by
  rw [prefetchTrees]
  simp only [List.isEmpty_eq_false_iff.mpr h, Bool.false_eq_true, if_false]

/-- **The calls**, with given types: each fetches a level, down to the depth or to an empty one. -/
theorem getElem?_prefetchTrees (htypes : types ≠ []) {depth n : ℕ} {trees : List (Option ι)}
    {batch : List ℕ} : (db.prefetchTrees depth types trees)[n]? = some batch ↔
      n < depth ∧ db.level types n trees.reduceOption ≠ [] ∧
        db.prefetch (db.level types n trees.reduceOption) = batch := by
  induction depth generalizing trees n with
  | zero => simp [prefetchTrees]
  | succ depth ih =>
    by_cases hempty : trees.reduceOption = []
    · rw [prefetchTrees_empty hempty, hempty, level_nil]
      simp
    · rw [prefetchTrees_succ hempty, List.isEmpty_eq_false_iff.mpr htypes]
      cases n with
      | zero =>
        change some (db.prefetch trees.reduceOption) = some batch ↔ _
        rw [Option.some.injEq]
        exact ⟨fun h => ⟨Nat.succ_pos depth, hempty, h⟩, fun h => h.2.2⟩
      | succ n =>
        rw [List.getElem?_cons_succ, Nat.succ_lt_succ_iff]
        refine ih.trans ?_
        rw [List.reduceOption, List.filterMap_map, Function.id_comp, List.filterMap_some]
        rfl

/-- The same, when the types are taken from the trees. -/
theorem getElem?_prefetchTrees_nil {depth n : ℕ} {trees : List (Option ι)} {batch : List ℕ} :
    (db.prefetchTrees depth [] trees)[n]? = some batch ↔
      n < depth ∧ db.level (db.bucketTypes trees.reduceOption) n trees.reduceOption ≠ [] ∧
        db.prefetch (db.level (db.bucketTypes trees.reduceOption) n trees.reduceOption) = batch := by
  by_cases htypes : db.bucketTypes trees.reduceOption = []
  · -- there are no trees among them, and buckets have no children
    have hnone : ∀ objs : List ι, db.children [] objs = [] := fun objs => level_no_types (n := 0)
    cases depth with
    | zero => simp [prefetchTrees]
    | succ depth =>
      by_cases hempty : trees.reduceOption = []
      · rw [prefetchTrees_empty hempty, hempty, level_nil]
        simp
      · rw [prefetchTrees_succ hempty, List.isEmpty_nil, if_pos rfl, htypes, hnone, List.map_nil,
          prefetchTrees_empty (List.reduceOption_nil)]
        cases n with
        | zero =>
          change some (db.prefetch trees.reduceOption) = some batch ↔ _
          rw [Option.some.injEq]
          exact ⟨fun h => ⟨Nat.succ_pos depth, hempty, h⟩, fun h => h.2.2⟩
        | succ n =>
          rw [level_no_types]
          simp
  · refine Iff.trans (Eq.to_iff ?_) (getElem?_prefetchTrees htypes)
    cases depth with
    | zero => rfl
    | succ depth =>
      by_cases hempty : trees.reduceOption = []
      · rw [prefetchTrees_empty hempty, prefetchTrees_empty hempty]
      · rw [prefetchTrees_succ hempty, prefetchTrees_succ hempty, List.isEmpty_nil, if_pos rfl,
          List.isEmpty_eq_false_iff.mpr htypes]
        rfl

/-- **What is fetched**, of objects that refer to each other in any way: a call for each level
that is not empty, down to the depth, and together the objects fewer steps down. -/
theorem prefetchTrees_exact (db : Objects ι τ) (depth : ℕ) (trees : List (Option ι)) :
    (db.prefetchTrees depth [] trees).length ≤ depth ∧
    (∀ n batch, (db.prefetchTrees depth [] trees)[n]? = some batch → ∀ oid, oid ∈ batch ↔
      ∃ tree, some tree ∈ trees ∧ ∃ x, db.Below (db.bucketTypes trees.reduceOption) n tree x ∧
        db.oid x = some oid) ∧
    ∀ oid, oid ∈ (db.prefetchTrees depth [] trees).flatten ↔
      ∃ n < depth, ∃ tree, some tree ∈ trees ∧
        ∃ x, db.Below (db.bucketTypes trees.reduceOption) n tree x ∧ db.oid x = some oid := by
  have hfetched : ∀ n oid, oid ∈ db.prefetch (db.level (db.bucketTypes trees.reduceOption) n
      trees.reduceOption) ↔ ∃ tree, some tree ∈ trees ∧
        ∃ x, db.Below (db.bucketTypes trees.reduceOption) n tree x ∧ db.oid x = some oid := by
    intro n oid
    simp only [prefetch, List.mem_filterMap, mem_level, List.reduceOption_mem_iff]
    refine ⟨?_, ?_⟩
    · rintro ⟨x, ⟨tree, htree, hx⟩, hoid⟩
      exact ⟨tree, htree, x, hx, hoid⟩
    · rintro ⟨tree, htree, x, hx, hoid⟩
      exact ⟨x, ⟨tree, htree, hx⟩, hoid⟩
  refine ⟨?_, fun n batch hbatch oid => ?_, fun oid => ?_⟩
  · refine List.getElem?_eq_none_iff.mp (Option.eq_none_iff_forall_ne_some.mpr fun batch hbatch => ?_)
    exact (getElem?_prefetchTrees_nil.mp hbatch).1.false
  · obtain ⟨-, -, rfl⟩ := getElem?_prefetchTrees_nil.mp hbatch
    exact hfetched n oid
  · refine List.mem_flatten.trans ⟨?_, ?_⟩
    · rintro ⟨batch, hbatch, hoid⟩
      obtain ⟨n, hn⟩ := List.mem_iff_getElem?.mp hbatch
      obtain ⟨hlt, -, rfl⟩ := getElem?_prefetchTrees_nil.mp hn
      exact ⟨n, hlt, (hfetched n oid).mp hoid⟩
    · rintro ⟨n, hn, hx⟩
      have hoid := (hfetched n oid).mpr hx
      refine ⟨_, List.mem_iff_getElem?.mpr ⟨n, getElem?_prefetchTrees_nil.mpr ⟨hn, ?_, rfl⟩⟩, hoid⟩
      intro hempty
      rw [hempty] at hoid
      cases hoid

end Objects

/-! ## Trees

The nodes of trees, as such objects. A node of a well-formed tree is as many steps down as the
tree has levels, so that a depth beyond the height of the trees fetches them whole. -/

variable {γ K : Type}

namespace Node

/-- A child of a node. -/
inductive Child : Node γ K → Node γ K → Prop where
  /-- one of the children -/
  | child {cls : γ} {oid : Option ℕ} {n : ℕ} {sep : Fin n → K} {child : Fin (n + 1) → Node γ K}
      (i : Fin (n + 1)) : Child (inner cls oid n sep child) (child i)

/-- A node of the tree is stored under the oid. -/
def Stored (tree : Node γ K) (oid : ℕ) : Prop :=
  ∃ node, Relation.ReflTransGen Child tree node ∧ node.oid = some oid

/-- `keys()`. -/
def keys : Node γ K → List K
  | bucket _ _ keys => keys
  | empty _ _ => []
  | single _ _ keys => keys
  | inner _ _ n _ child => (List.finRange (n + 1)).flatMap fun i => (child i).keys

theorem mem_keys {tree : Node γ K} {key : K} : key ∈ tree.keys ↔ tree.Holds key := by
  induction tree with
  | bucket cls oid keys => rfl
  | empty cls oid => exact List.mem_nil_iff key
  | single cls oid keys => rfl
  | inner cls oid n sep child ih =>
    rw [keys, List.mem_flatMap, Holds]
    simp only [List.mem_finRange, true_and, ih]

/-- The branches in a state. -/
def branches (state : List (Slot (Node γ K) K)) : List (Node γ K) :=
  state.filterMap fun
    | .branch node => some node
    | _ => none

/-- The nodes of trees whose buckets hold keys, and no trees. A type is that of the trees of a
class or that of their buckets. -/
def objects [DecidableEq γ] : Objects (Node γ K) (γ × Bool) where
  type node := (node.cls, node.hasBucketType)
  isinstance node type := decide ((node.cls, node.hasBucketType) = type)
  bucketType node := if node.hasBucketType then some (node.cls, false) else none
  oid := Node.oid
  state node := node.getstate.map branches

variable [DecidableEq γ] {types : List (γ × Bool)} {tree node : Node γ K}

omit [DecidableEq γ] in
theorem mem_branches_interleave {n : ℕ} {sep : Fin n → K} {child : Fin (n + 1) → Node γ K} :
    node ∈ branches (interleave sep child) ↔ ∃ i, child i = node := by
  have hbranches : branches (interleave sep child) =
      child 0 :: (List.finRange n).map fun j => child j.succ := by
    rw [interleave, branches, List.filterMap_cons, List.filterMap_flatMap, List.map_eq_flatMap]
    rfl
  rw [hbranches, List.mem_cons, List.mem_map]
  simp only [List.mem_finRange, true_and]
  rw [Fin.exists_fin_succ, eq_comm]

theorem child_iff : Child tree node ↔ ∃ state, objects.state tree = some state ∧ node ∈ state := by
  cases tree with
  | inner cls oid n sep child =>
    refine ⟨?_, ?_⟩
    · rintro ⟨i⟩
      exact ⟨_, rfl, mem_branches_interleave.mpr ⟨i, rfl⟩⟩
    · rintro ⟨state, hstate, hmem⟩
      obtain rfl := Option.some.inj hstate
      obtain ⟨i, rfl⟩ := mem_branches_interleave.mp hmem
      exact .child i
  | bucket cls oid keys =>
    refine iff_of_false (fun h => by cases h) ?_
    rintro ⟨state, hstate, -⟩
    cases hstate
  | empty cls oid =>
    refine iff_of_false (fun h => by cases h) ?_
    rintro ⟨state, hstate, -⟩
    cases hstate
  | single cls oid keys =>
    refine iff_of_false (fun h => by cases h) ?_
    rintro ⟨state, hstate, hmem⟩
    obtain rfl := Option.some.inj hstate
    cases hmem

/-- Both types of a tree are among the types. -/
def Typed (types : List (γ × Bool)) (tree : Node γ K) : Prop :=
  tree.hasBucketType = true → ∀ isTree, (tree.cls, isTree) ∈ types

theorem typed_bucketTypes {trees : List (Node γ K)} (h : tree ∈ trees) :
    tree.Typed (objects.bucketTypes trees) := by
  intro hbucket isTree
  refine List.mem_dedup.mpr (List.mem_flatMap.mpr ⟨tree, h, ?_⟩)
  simp only [objects, hbucket, if_true]
  cases isTree <;> simp

omit [DecidableEq γ] in
theorem Child.height_lt (h : Child tree node) : node.height < tree.height := by
  obtain @⟨cls, oid, n, sep, child, i⟩ := h
  have hle : (child i).height ≤ Finset.univ.sup fun i => (child i).height :=
    Finset.le_sup (f := fun i => (child i).height) (Finset.mem_univ i)
  rw [height]
  omega

theorem below_child {n : ℕ} (h : objects.Below types n tree node) :
    Relation.ReflTransGen Child tree node := by
  induction n generalizing tree with
  | zero => exact h ▸ .refl
  | succ n ih =>
    obtain ⟨state, hstate, c, hc, -, hbelow⟩ := h
    exact .head (child_iff.mpr ⟨state, hstate, hc⟩) (ih hbelow)

variable [LinearOrder K]

omit [DecidableEq γ] in
/-- The children of a tree are well-formed, and of its class. -/
theorem Child.wellFormed (h : Child tree node) (htree : tree.WellFormed) :
    tree.hasBucketType = true ∧ node.cls = tree.cls ∧ node.WellFormed := by
  obtain ⟨i⟩ := h
  exact ⟨rfl, (htree.2 i).1, (htree.2 i).2.1⟩

/-- A node of a tree is as many steps down as the tree has levels, at most. -/
theorem exists_below (h : Relation.ReflTransGen Child tree node) (htree : tree.WellFormed)
    (htypes : tree.Typed types) : ∃ n ≤ tree.height, objects.Below types n tree node := by
  induction h using Relation.ReflTransGen.head_induction_on with
  | refl => exact ⟨0, Nat.zero_le _, rfl⟩
  | @head tree child hchild _ ih =>
    obtain ⟨hbucket, hcls, hwf⟩ := hchild.wellFormed htree
    obtain ⟨n, hn, hbelow⟩ := ih hwf fun _ => hcls ▸ htypes hbucket
    obtain ⟨state, hstate, hc⟩ := child_iff.mp hchild
    have htype : types.any (objects.isinstance child) = true := by
      refine List.any_eq_true.mpr ⟨(child.cls, child.hasBucketType), hcls ▸ htypes hbucket _, ?_⟩
      exact decide_eq_true rfl
    exact ⟨n + 1, hn.trans_lt hchild.height_lt, state, hstate, child, hc, htype, hbelow⟩

/-- **Whole trees**: with a depth beyond the heights of the trees, all of their nodes are fetched. -/
theorem prefetchTrees_stored {depth : ℕ} {trees : List (Option (Node γ K))}
    (h : ∀ tree, some tree ∈ trees → tree.WellFormed ∧ tree.height < depth) (oid : ℕ) :
    oid ∈ (objects.prefetchTrees depth [] trees).flatten ↔
      ∃ tree, some tree ∈ trees ∧ tree.Stored oid := by
  refine ((objects.prefetchTrees_exact depth trees).2.2 oid).trans ⟨?_, ?_⟩
  · rintro ⟨n, -, tree, htree, node, hbelow, hoid⟩
    exact ⟨tree, htree, node, below_child hbelow, hoid⟩
  · rintro ⟨tree, htree, node, hpath, hoid⟩
    obtain ⟨hwf, hheight⟩ := h tree htree
    obtain ⟨n, hn, hbelow⟩ := exists_below hpath hwf
      (typed_bucketTypes (List.reduceOption_mem_iff.mpr htree))
    exact ⟨n, hn.trans_lt hheight, tree, htree, node, hbelow, hoid⟩

end Node

/-! ## Before a search

`_search_wids` combines the two ways to fetch: `parallel_traversal` for trees of which it needs
the paths to some keys, and `prefetch_trees` for those it needs as a whole. Nothing is fetched
where nothing is saved: for one key there is no traversal, and what is kept in a `dict` is not
fetched at all. -/

/-- What the scores of the documents of a word are kept in. -/
inductive DocScores (γ : Type) where
  /-- a `dict` of a few -/
  | dict : (docids : List ℤ) → DocScores γ
  /-- a tree -/
  | tree : Node γ ℤ → DocScores γ

/-- `keys()`. -/
def DocScores.keys : DocScores γ → List ℤ
  | dict docids => docids
  | tree t => t.keys

/-- A `dict` is not persistent. -/
def DocScores.persistent : DocScores γ → Option (Node γ ℤ)
  | dict _ => none
  | tree t => some t

/-- The trees that a search in an Okapi index reads. -/
structure OkapiTrees (γ : Type) where
  /-- `_wordinfo` -/
  wordinfo : Node γ ℤ
  /-- is a tree -/
  wordinfo_wellFormed : wordinfo.WellFormed
  /-- the values in it -/
  scores : ℤ → Option (DocScores γ)
  /-- which there are for its keys -/
  scores_isSome : ∀ wid, (scores wid).isSome = true ↔ wordinfo.Holds wid
  /-- are trees, too, or no objects -/
  scores_wellFormed : ∀ wid tree, scores wid = some (.tree tree) → tree.WellFormed
  /-- `_docweight` -/
  docweight : Node γ ℤ
  /-- is a tree -/
  docweight_wellFormed : docweight.WellFormed

namespace OkapiTrees

variable [DecidableEq γ] (x : OkapiTrees γ)

/-- `parallel_traversal` of one tree, if there are several keys. -/
def traverse (fuel : ℕ) (tree : Node γ ℤ) (keys : List ℤ) : ExceptT Exc Option (List (List ℕ)) :=
  if 1 < keys.length then parallelTraversal fuel (.one tree) keys else pure []

/-- `[self._wordinfo[wid] for wid in wids]` -/
def getScores (wids : List ℤ) : ExceptT Exc Option (List (DocScores γ)) :=
  match wids.mapM x.scores with
  | some scores => pure scores
  | none => throw .keyError

/-- `OkapiIndex._search_wids`, up to the scoring: the oids fetched by each call. -/
def searchWids (fuel : ℕ) (wids : List ℤ) : ExceptT Exc Option (List (List ℕ)) := do
  let words ← traverse fuel x.wordinfo wids
  let scores ← x.getScores wids
  let trees := Node.objects.prefetchTrees 10 [] (scores.map DocScores.persistent)
  let docids := (scores.flatMap DocScores.keys).dedup
  let docs ← traverse fuel x.docweight docids
  return words ++ trees ++ docs

/-- A document has one of the words. -/
def Has (wids : List ℤ) (docid : ℤ) : Prop :=
  ∃ wid ∈ wids, ∃ scores, x.scores wid = some scores ∧ docid ∈ scores.keys

variable {x}

/-! ## What is fetched beforehand

The three steps fetch one after the other. For each it is said which oids it fetches, and how many
calls that takes. -/

/-- A traversal fetches a level with each call. -/
theorem length_parallelTraversal {fuel : ℕ} {trees : Trees γ K} {keys : List K} [LinearOrder K]
    {log : List (List ℕ)} (h : parallelTraversal fuel trees keys = some (.ok log)) :
    log.length ≤ fuel + 1 := by
  induction fuel generalizing trees keys log with
  | zero =>
    rw [parallelTraversal.eq_def] at h
    split at h
    · cases h
    · split at h
      · cases h
        exact Nat.le_refl 1
      · cases h
  | succ fuel ih =>
    rw [parallelTraversal.eq_def] at h
    split at h
    · cases h
    · split at h
      · cases h
        exact Nat.succ_le_succ (Nat.zero_le _)
      · obtain ⟨outcome, hrest, hlog⟩ := Option.map_eq_some_iff.mp h
        rcases outcome with e | rest
        · cases hlog
        · obtain rfl := Except.ok.inj hlog
          exact Nat.succ_le_succ (ih hrest)

/-- With several keys the lookup paths are fetched. -/
theorem traverse_spec {fuel : ℕ} {tree : Node γ ℤ} (keys : List ℤ) (h : tree.WellFormed)
    (hfuel : tree.height ≤ fuel) : ∃ log, traverse fuel tree keys = some (.ok log) ∧
      log.length ≤ fuel + 1 ∧
      ∀ oid, oid ∈ log.flatten ↔ 1 < keys.length ∧ ∃ key ∈ keys, tree.OnPath key oid := by
  rw [traverse]
  by_cases hkeys : 1 < keys.length
  · obtain ⟨log, hlog, hmem⟩ := parallelTraversal_one keys h hfuel
    rw [if_pos hkeys]
    refine ⟨log, hlog, length_parallelTraversal hlog, fun oid =>
      (hmem oid).trans ⟨?_, fun h => .inr h.2⟩⟩
    rintro (hroot | hpath)
    · obtain ⟨key, hkey⟩ := List.exists_mem_of_length_pos (Nat.zero_lt_of_lt hkeys)
      exact ⟨hkeys, key, hkey, Node.onPath_iff.mpr (.inl hroot)⟩
    · exact ⟨hkeys, hpath⟩
  · rw [if_neg hkeys]
    exact ⟨[], rfl, Nat.zero_le _, fun oid => iff_of_false List.not_mem_nil fun h => hkeys h.1⟩

omit [DecidableEq γ] in
/-- The values for keys of `_wordinfo`. -/
theorem mapM_scores {wids : List ℤ} (h : ∀ wid ∈ wids, x.wordinfo.Holds wid) :
    ∃ scores, wids.mapM x.scores = some scores ∧
      ∀ s, s ∈ scores ↔ ∃ wid ∈ wids, x.scores wid = some s := by
  induction wids with
  | nil => exact ⟨[], rfl, fun s => by simp⟩
  | cons wid wids ih =>
    obtain ⟨scores, hscores, hmem⟩ := ih fun wid hwid => h wid (List.mem_cons_of_mem _ hwid)
    obtain ⟨s, hs⟩ := Option.isSome_iff_exists.mp ((x.scores_isSome wid).mpr (h wid List.mem_cons_self))
    refine ⟨s :: scores, ?_, fun t => ?_⟩
    · rw [List.mapM_cons, hs, hscores]
      rfl
    · rw [List.mem_cons, hmem, List.exists_mem_cons_iff, hs, Option.some.injEq, eq_comm]

/-- **What a search fetches beforehand is what it reads**: the lookup paths of several words, the
trees of their documents, as far as those are less than ten levels high, and the lookup paths of
several documents. -/
theorem searchWids_exact (x : OkapiTrees γ) (wids : List ℤ) (fuel : ℕ)
    (hwids : ∀ wid ∈ wids, x.wordinfo.Holds wid)
    (htrees : ∀ wid ∈ wids, ∀ tree, x.scores wid = some (.tree tree) → tree.height < 10)
    (hwordinfo : x.wordinfo.height ≤ fuel) (hdocweight : x.docweight.height ≤ fuel) :
    ∃ log, x.searchWids fuel wids = some (.ok log) ∧ log.length ≤ 2 * (fuel + 1) + 10 ∧
      ∀ oid, oid ∈ log.flatten ↔
        (1 < wids.length ∧ ∃ wid ∈ wids, x.wordinfo.OnPath wid oid) ∨
        (∃ wid ∈ wids, ∃ tree, x.scores wid = some (.tree tree) ∧ tree.Stored oid) ∨
        ∃ docid docid', docid ≠ docid' ∧ x.Has wids docid ∧ x.Has wids docid' ∧
          x.docweight.OnPath docid oid := by
  obtain ⟨scores, hscores, hmem⟩ := mapM_scores hwids
  obtain ⟨words, hwords, hwordlen, hword⟩ := traverse_spec wids x.wordinfo_wellFormed hwordinfo
  obtain ⟨docs, hdocs, hdoclen, hdoc⟩ := traverse_spec (scores.flatMap DocScores.keys).dedup
    x.docweight_wellFormed hdocweight
  have hhas : ∀ docid, docid ∈ (scores.flatMap DocScores.keys).toFinset ↔ x.Has wids docid := by
    intro docid
    rw [List.mem_toFinset, List.mem_flatMap]
    refine ⟨?_, ?_⟩
    · rintro ⟨s, hs, hdocid⟩
      obtain ⟨wid, hwid, hs⟩ := (hmem s).mp hs
      exact ⟨wid, hwid, s, hs, hdocid⟩
    · rintro ⟨wid, hwid, s, hs, hdocid⟩
      exact ⟨s, (hmem s).mpr ⟨wid, hwid, hs⟩, hdocid⟩
  have htree : ∀ tree, some tree ∈ scores.map DocScores.persistent ↔
      ∃ wid ∈ wids, x.scores wid = some (.tree tree) := by
    intro tree
    rw [List.mem_map, ← hmem]
    refine ⟨?_, fun h => ⟨_, h, rfl⟩⟩
    rintro ⟨_ | t, hs, heq⟩
    · cases heq
    · exact Option.some.inj heq ▸ hs
  have hwellFormed : ∀ tree, some tree ∈ scores.map DocScores.persistent →
      tree.WellFormed ∧ tree.height < 10 := by
    intro tree hin
    obtain ⟨wid, hwid, hs⟩ := (htree tree).mp hin
    exact ⟨x.scores_wellFormed wid tree hs, htrees wid hwid tree hs⟩
  refine ⟨words ++ Node.objects.prefetchTrees 10 [] (scores.map DocScores.persistent) ++ docs, ?_, ?_,
    fun oid => ?_⟩
  · rw [searchWids, hwords, getScores, hscores]
    change (traverse fuel x.docweight _ >>= fun docs => pure (_ ++ _ ++ docs)) = _
    rw [hdocs]
    rfl
  · have htreeslen :=
      (Node.objects.prefetchTrees_exact 10 (scores.map DocScores.persistent)).1
    rw [List.length_append, List.length_append]
    omega
  · rw [List.flatten_append, List.flatten_append, List.mem_append, List.mem_append, hword,
      Node.prefetchTrees_stored hwellFormed, hdoc, or_assoc, ← List.card_toFinset]
    refine or_congr_right (or_congr ⟨?_, ?_⟩ ⟨?_, ?_⟩)
    · rintro ⟨tree, hin, hoid⟩
      obtain ⟨wid, hwid, hs⟩ := (htree tree).mp hin
      exact ⟨wid, hwid, tree, hs, hoid⟩
    · rintro ⟨wid, hwid, tree, hs, hoid⟩
      exact ⟨tree, (htree tree).mpr ⟨wid, hwid, hs⟩, hoid⟩
    · rintro ⟨hcard, docid, hdocid, hpath⟩
      obtain ⟨docid', hdocid', hne⟩ := Finset.exists_mem_ne hcard docid
      rw [List.mem_dedup, ← List.mem_toFinset, hhas] at hdocid
      exact ⟨docid, docid', hne.symm, hdocid, (hhas docid').mp hdocid', hpath⟩
    · rintro ⟨docid, docid', hne, hdocid, hdocid', hpath⟩
      have hin := (hhas docid).mpr hdocid
      exact ⟨Finset.one_lt_card.mpr ⟨docid, hin, docid', (hhas docid').mpr hdocid', hne⟩, docid,
        List.mem_dedup.mpr (List.mem_toFinset.mp hin), hpath⟩

/-- The documents of a word, in two buckets. -/
def twoDocuments : Node Unit ℤ :=
  .inner () (some 2) 1 (fun _ => 8) fun i => .bucket () (some (3 + i)) [7 + i]

theorem wellFormed_twoDocuments : twoDocuments.WellFormed := by
  refine ⟨Subsingleton.strictMono _, fun i => ⟨rfl, trivial, fun key hkey => ?_⟩⟩
  obtain rfl : key = 7 + i := List.mem_singleton.mp hkey
  exact ⟨fun j hj => by subst hj; simp [Fin.val_succ], fun j hj => by subst hj; simp⟩

/-- Two words, one with a document, the other with that and another one. -/
def twoWords : OkapiTrees Unit where
  wordinfo := .single () (some 1) [3, 5]
  wordinfo_wellFormed := trivial
  scores wid := if wid = 3 then some (.dict [7]) else if wid = 5 then some (.tree twoDocuments) else none
  scores_isSome wid := by
    change _ ↔ wid ∈ [3, 5]
    by_cases h3 : wid = 3 <;> by_cases h5 : wid = 5 <;> simp [h3, h5]
  scores_wellFormed wid tree h := by
    split at h
    · cases h
    · split at h
      · obtain rfl := DocScores.tree.inj (Option.some.inj h)
        exact wellFormed_twoDocuments
      · cases h
  docweight := .single () (some 9) [7, 8]
  docweight_wellFormed := trivial

/-- A search for both words. -/
theorem searchWids_exact_example :
    ∃ log, twoWords.searchWids 0 [3, 5] = some (.ok log) ∧ log.length ≤ 2 * (0 + 1) + 10 ∧
      ∀ oid, oid ∈ log.flatten ↔
        (1 < [3, 5].length ∧ ∃ wid ∈ [3, 5], twoWords.wordinfo.OnPath wid oid) ∨
        (∃ wid ∈ [3, 5], ∃ tree, twoWords.scores wid = some (.tree tree) ∧ tree.Stored oid) ∨
        ∃ docid docid', docid ≠ docid' ∧ twoWords.Has [3, 5] docid ∧ twoWords.Has [3, 5] docid' ∧
          twoWords.docweight.OnPath docid oid := by
  refine searchWids_exact twoWords [3, 5] 0 (fun wid hwid => hwid) (fun wid hwid tree h => ?_)
    (Nat.le_refl 0) (Nat.le_refl 0)
  have htree : twoDocuments.height < 10 := by decide
  rcases List.mem_pair.mp hwid with rfl | rfl
  · cases h
  · obtain rfl := DocScores.tree.inj (Option.some.inj h)
    exact htree

end OkapiTrees

end Zerodb
