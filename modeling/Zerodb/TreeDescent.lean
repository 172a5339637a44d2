import Zerodb.Storage
import Mathlib.Data.Fintype.Lattice
import Mathlib.Logic.Relation
import Mathlib.Order.Fin.Basic

/-!
# TreeDescent: fetching the lookup paths of many keys

To look up many keys in trees of the database, `parallel_traversal` goes down all of them
level by level and fetches a level at a time. Which child of a node is next for a key is found
by a binary search in the raw state of the node.

* `btreeStateSearch_interleave` — the search finds the only child that may hold the key;
* `parallelTraversal_many` — what is fetched are the nodes on the lookup paths;
* `descent_follows_paths` — the same for one tree, whose root is always fetched.
-/

namespace Zerodb

variable {ν γ K : Type} [LinearOrder K]

/-! ## Searching a node

The state of a node is one tuple in which branches and separators alternate. The search halves it,
and keeps the key between the separators at its ends; that it lands on a branch, and on which, is
read off when the ends meet. -/

/-- An item in the state of a node. -/
inductive Slot (ν K : Type) where
  /-- a branch -/
  | branch : ν → Slot ν K
  /-- the key between two branches -/
  | key : K → Slot ν K
  /-- the state of a bucket that is not stored separately -/
  | embedded : List K → Slot ν K

/-- The loop of `btree_state_search`, where `i` is `(lo + hi) // 2`. -/
def searchLoop (state : List (Slot ν K)) (key : K) (lo hi : ℕ) : Except Exc ℕ :=
  if lo < (lo + hi) / 2 then
    match state[(lo + hi) / 2 * 2 - 1]? with
    | some (.key iKey) =>
      if iKey < key then searchLoop state key ((lo + hi) / 2) hi
      else if key < iKey then searchLoop state key lo ((lo + hi) / 2)
      else .ok ((lo + hi) / 2)
    | some _ => .error .typeError
    | none => .error .indexError
  else .ok ((lo + hi) / 2)
termination_by hi - lo

/-- `btree_state_search`, on the first part of a state that is not `None`. -/
def btreeStateSearch (state : Option (List (Slot ν K))) (key : K) :
    Except Exc (ℤ × Option (Slot ν K)) :=
  match state with
  | none => .ok (-1, none)
  | some state =>
    match searchLoop state key 0 ((state.length + 1) / 2) with
    | .error e => .error e
    | .ok i =>
      match state[i * 2]? with
      | some slot => .ok (i, some slot)
      | none => .error .indexError

/-- `(branch, key, branch, ..., key, branch)`. -/
def interleave {n : ℕ} (sep : Fin n → K) (child : Fin (n + 1) → ν) : List (Slot ν K) :=
  .branch (child 0) :: (List.finRange n).flatMap fun j => [.key (sep j), .branch (child j.succ)]

/-- The child may hold the key: the separators on its sides say so. -/
def MayHold {n : ℕ} (sep : Fin n → K) (key : K) (i : Fin (n + 1)) : Prop :=
  (∀ j : Fin n, j.succ = i → sep j ≤ key) ∧ ∀ j : Fin n, j.castSucc = i → key < sep j

section Search

omit [LinearOrder K]

variable {n : ℕ} {sep : Fin n → K} {child : Fin (n + 1) → ν} {key : K}

/-! ## Where things stand in a node

Branches are at even positions and separators at odd ones. Which child may hold a key is said by
the separators beside it, and at most one may. -/

/-- Where the items of pairs stand in a row. -/
theorem getElem?_pairs {α β : Type} (f g : α → β) (l : List α) (k : ℕ) :
    (l.flatMap fun x => [f x, g x])[k * 2]? = l[k]?.map f ∧
      (l.flatMap fun x => [f x, g x])[k * 2 + 1]? = l[k]?.map g := by
  induction l generalizing k with
  | nil => exact ⟨rfl, rfl⟩
  | cons x l ih =>
    cases k with
    | zero => exact ⟨rfl, rfl⟩
    | succ k =>
      have hindex : (k + 1) * 2 = k * 2 + 1 + 1 := by omega
      rw [hindex]
      exact ih k

theorem length_interleave : (interleave sep child).length = n * 2 + 1 := by
  simp [interleave, List.length_flatMap]

/-- A separator stands before the branch that it bounds from below. -/
theorem getElem?_interleave_key (sep : Fin n → K) (child : Fin (n + 1) → ν) (j : Fin n) :
    (interleave sep child)[(j.val + 1) * 2 - 1]? = some (.key (sep j)) := by
  have hindex : (j.val + 1) * 2 - 1 = j.val * 2 + 1 := by omega
  have hpair := (getElem?_pairs (fun j => (Slot.key (sep j) : Slot ν K))
    (fun j => .branch (child j.succ)) (List.finRange n) j.val).1
  rw [hindex, interleave, List.getElem?_cons_succ, hpair]
  simp

theorem exists_getElem?_key (sep : Fin n → K) (child : Fin (n + 1) → ν) {i : ℕ} (hpos : 0 < i)
    (hi : i ≤ n) : ∃ j : Fin n,
      j.val + 1 = i ∧ (interleave sep child)[i * 2 - 1]? = some (.key (sep j)) := by
  have hlt : i - 1 < n := by omega
  have hindex : i - 1 + 1 = i := by omega
  refine ⟨⟨i - 1, hlt⟩, hindex, ?_⟩
  have hkey := getElem?_interleave_key sep child ⟨i - 1, hlt⟩
  rwa [hindex] at hkey

/-- The branches are two items apart. -/
theorem getElem?_interleave_branch (i : Fin (n + 1)) :
    (interleave sep child)[i.val * 2]? = some (.branch (child i)) := by
  cases i using Fin.cases with
  | zero => rfl
  | succ j =>
    have hindex : j.succ.val * 2 = j.val * 2 + 1 + 1 := by rw [Fin.val_succ]; omega
    have hpair := (getElem?_pairs (fun j => (Slot.key (sep j) : Slot ν K))
      (fun j => .branch (child j.succ)) (List.finRange n) j.val).2
    rw [hindex, interleave, List.getElem?_cons_succ, hpair]
    simp

end Search

section Search

variable {n : ℕ} {sep : Fin n → K} {child : Fin (n + 1) → ν} {key : K}

/-- At most one child may hold a key. -/
theorem MayHold.unique (hmono : StrictMono sep) {i i' : Fin (n + 1)} (h : MayHold sep key i)
    (h' : MayHold sep key i') : i = i' := by
  -- between two children there is a separator, above one of them and below the other
  have hnot : ∀ i i' : Fin (n + 1), MayHold sep key i → MayHold sep key i' → ¬i < i' := by
    intro i i' h h' hlt
    have hi : i.val < n := by omega
    have hi' : i'.val - 1 < n := by omega
    have habove : key < sep ⟨i.val, hi⟩ := h.2 ⟨i.val, hi⟩ (Fin.ext rfl)
    have hbelow : sep ⟨i'.val - 1, hi'⟩ ≤ key := by
      refine h'.1 ⟨i'.val - 1, hi'⟩ (Fin.ext ?_)
      rw [Fin.val_succ]
      change i'.val - 1 + 1 = i'.val
      omega
    have hle : sep ⟨i.val, hi⟩ ≤ sep ⟨i'.val - 1, hi'⟩ := by
      apply hmono.monotone
      rw [Fin.mk_le_mk]
      omega
    exact absurd (habove.trans_le (hle.trans hbelow)) (lt_irrefl key)
  rcases lt_trichotomy i i' with hlt | heq | hlt
  · exact absurd hlt (hnot i i' h h')
  · exact heq
  · exact absurd hlt (hnot i' i h' h)

/-- The loop keeps the key between the separators below `lo` and below `hi`. -/
theorem searchLoop_interleave (hmono : StrictMono sep) (lo hi : ℕ) (hlt : lo < hi)
    (hhi : hi ≤ n + 1) (hbelow : ∀ j : Fin n, j.val + 1 = lo → sep j ≤ key)
    (habove : ∀ j : Fin n, j.val + 1 = hi → key < sep j) :
    ∃ i : Fin (n + 1), searchLoop (interleave sep child) key lo hi = .ok i.val ∧
      MayHold sep key i := by
  -- where the loop looks, there is a separator
  have hmid : ∀ lo hi, lo < (lo + hi) / 2 → lo < hi → hi ≤ n + 1 → ∃ j : Fin n,
      j.val + 1 = (lo + hi) / 2 ∧
        (interleave sep child)[(lo + hi) / 2 * 2 - 1]? = some (.key (sep j)) :=
    fun lo hi hturn hlt hhi => exists_getElem?_key sep child (by omega) (by omega)
  fun_induction searchLoop (interleave sep child) key lo hi with
  | case1 lo hi hturn iKey hget hless ih =>
    obtain ⟨j, hj, hkey⟩ := hmid lo hi hturn hlt hhi
    rw [hget] at hkey
    cases hkey
    refine ih (by omega) hhi (fun j' hj' => ?_) habove
    rw [Fin.ext (by omega : j'.val = j.val)]
    exact hless.le
  | case2 lo hi hturn iKey hget hless hgreater ih =>
    obtain ⟨j, hj, hkey⟩ := hmid lo hi hturn hlt hhi
    rw [hget] at hkey
    cases hkey
    refine ih hturn (by omega) hbelow fun j' hj' => ?_
    rw [Fin.ext (by omega : j'.val = j.val)]
    exact hgreater
  | case3 lo hi hturn iKey hget hless hgreater =>
    obtain ⟨j, hj, hkey⟩ := hmid lo hi hturn hlt hhi
    rw [hget] at hkey
    cases hkey
    have heq : sep j = key := le_antisymm (not_lt.mp hgreater) (not_lt.mp hless)
    refine ⟨j.succ, ?_, fun j' hj' => ?_, fun j' hj' => ?_⟩
    · rw [Fin.val_succ, hj]
    · rw [Fin.succ_inj.mp hj']
      exact heq.le
    · rw [← heq]
      refine hmono (Fin.lt_def.mpr ?_)
      have hval := congrArg Fin.val hj'
      rw [Fin.val_castSucc, Fin.val_succ] at hval
      omega
  | case4 lo hi hturn slot hslot hget =>
    obtain ⟨j, -, hkey⟩ := hmid lo hi hturn hlt hhi
    exact (hslot (sep j) (Option.some.inj (hget.symm.trans hkey))).elim
  | case5 lo hi hturn hget =>
    obtain ⟨j, -, hkey⟩ := hmid lo hi hturn hlt hhi
    rw [hget] at hkey
    cases hkey
  | case6 lo hi hturn =>
    have hlo : (lo + hi) / 2 = lo := by omega
    have hlast : hi = lo + 1 := by omega
    refine ⟨⟨(lo + hi) / 2, by omega⟩, rfl, fun j hj => hbelow j ?_, fun j hj => habove j ?_⟩
    · have hval := congrArg Fin.val hj
      rw [Fin.val_succ] at hval
      exact hval.trans hlo
    · have hval := congrArg Fin.val hj
      rw [Fin.val_castSucc] at hval
      have hval' : j.val = (lo + hi) / 2 := hval
      omega

/-- **The search of a node**: it finds the child that may hold the key. -/
theorem btreeStateSearch_interleave (hmono : StrictMono sep) (child : Fin (n + 1) → ν) (key : K) :
    ∃ i : Fin (n + 1), btreeStateSearch (some (interleave sep child)) key =
      .ok (i.val, some (.branch (child i))) ∧ MayHold sep key i := by
  have hlength : ((interleave sep child).length + 1) / 2 = n + 1 := by
    rw [length_interleave]
    omega
  obtain ⟨i, hi, hhold⟩ := @searchLoop_interleave ν K _ n sep child key hmono 0 (n + 1)
    (Nat.succ_pos n) le_rfl (fun j hj => by omega) (fun j hj => by omega)
  refine ⟨i, ?_, hhold⟩
  simp only [btreeStateSearch, hlength, hi, getElem?_interleave_branch]

end Search

/-! ## Nodes

A node is a bucket or has children between separators. `WellFormed` is the order of the tree;
`Down` is one step of the lookup of a key by that order, without any search. -/

/-- A node of a tree, in classes `γ` of trees. `oid` is `_p_oid`, if it is stored separately. -/
inductive Node (γ K : Type) where
  /-- a bucket, of the `_bucket_type` of a class -/
  | bucket : (cls : γ) → (oid : Option ℕ) → (keys : List K) → Node γ K
  /-- a tree that is empty -/
  | empty : (cls : γ) → (oid : Option ℕ) → Node γ K
  /-- a tree that has the state of its only bucket in its own -/
  | single : (cls : γ) → (oid : Option ℕ) → (keys : List K) → Node γ K
  /-- a tree with `n + 1` children and the separators between them -/
  | inner : (cls : γ) → (oid : Option ℕ) → (n : ℕ) → (sep : Fin n → K) →
    (child : Fin (n + 1) → Node γ K) → Node γ K

namespace Node

/-- Its class, or the class it is a bucket of. -/
def cls : Node γ K → γ
  | bucket cls _ _ => cls
  | empty cls _ => cls
  | single cls _ _ => cls
  | inner cls _ _ _ _ => cls

/-- `_p_oid`. -/
def oid : Node γ K → Option ℕ
  | bucket _ oid _ => oid
  | empty _ oid => oid
  | single _ oid _ => oid
  | inner _ oid _ _ _ => oid

/-- `__getstate__` of a tree, its first part; buckets are not asked. -/
def getstate : Node γ K → Option (List (Slot (Node γ K) K))
  | bucket _ _ _ => none
  | empty _ _ => none
  | single _ _ keys => some [.embedded keys]
  | inner _ _ _ sep child => some (interleave sep child)

/-- `hasattr(tree, "_bucket_type")`. -/
def hasBucketType : Node γ K → Bool
  | bucket _ _ _ => false
  | _ => true

/-- How many levels are below it. -/
def height : Node γ K → ℕ
  | inner _ _ _ _ child => 1 + Finset.univ.sup fun i => (child i).height
  | _ => 0

/-- A key in one of its buckets. -/
def Holds (key : K) : Node γ K → Prop
  | bucket _ _ keys => key ∈ keys
  | empty _ _ => False
  | single _ _ keys => key ∈ keys
  | inner _ _ _ _ child => ∃ i, (child i).Holds key

/-- Every node has increasing separators, children of its class, and the keys of the children
where the separators say. -/
def WellFormed : Node γ K → Prop
  | inner cls _ _ sep child => StrictMono sep ∧ ∀ i, (child i).cls = cls ∧ (child i).WellFormed ∧
      ∀ key, (child i).Holds key → MayHold sep key i
  | _ => True

/-- The lookup of a key goes from a node to a child. -/
inductive Down (key : K) : Node γ K → Node γ K → Prop where
  /-- to the child that may hold it -/
  | child {cls : γ} {oid : Option ℕ} {n : ℕ} {sep : Fin n → K} {child : Fin (n + 1) → Node γ K}
      (i : Fin (n + 1)) : MayHold sep key i → Down key (inner cls oid n sep child) (child i)

/-- A node that is stored under the oid is on the lookup path of the key. -/
def OnPath (key : K) (tree : Node γ K) (oid : ℕ) : Prop :=
  ∃ node, Relation.ReflTransGen (Down key) tree node ∧ node.oid = some oid

end Node

/-! ## Traversal

One call takes a step for every key, fetches all the nodes that the keys have come to, and calls
itself. The model counts these calls down, and the results say how many suffice. -/

/-- What is traversed. -/
inductive Trees (γ K : Type) where
  /-- one tree for all keys -/
  | one : Node γ K → Trees γ K
  /-- a list or tuple, of a tree for each key -/
  | many : List (Node γ K) → Trees γ K

variable [DecidableEq γ]

/-- Where to go on from a node for a key. -/
def Node.next (tree : Node γ K) (key : K) : Except Exc (Option (Node γ K)) :=
  if tree.hasBucketType then
    match btreeStateSearch tree.getstate key with
    | .error e => .error e
    | .ok (_, some (.branch nxt)) => .ok (if nxt.cls = tree.cls then some nxt else none)
    | .ok _ => .ok none
  else .ok none

/-- `zip(nxt_trees, nxt_keys)`. -/
def nextPairs : List (Node γ K × K) → Except Exc (List (Node γ K × K))
  | [] => .ok []
  | (tree, key) :: pairs => do
    let nxt ← tree.next key
    let rest ← nextPairs pairs
    return (nxt.map (·, key)).toList ++ rest

/-- `to_fetch`: the oids of what `prefetch` is called with. -/
def Trees.toFetch : Trees γ K → List ℕ
  | one tree => tree.oid.toList
  | many trees => (trees.filterMap Node.oid).dedup

/-- `trees`, as they are zipped with the keys. -/
def Trees.forKeys (keys : List K) : Trees γ K → List (Node γ K)
  | one tree => List.replicate keys.length tree
  | many trees => trees

/-- `parallel_traversal`, with at most `fuel` calls of itself: the oids fetched by each call. -/
def parallelTraversal (fuel : ℕ) (trees : Trees γ K) (keys : List K) :
    Option (Except Exc (List (List ℕ))) :=
  match nextPairs ((trees.forKeys keys).zip keys) with
  | .error e => some (.error e)
  | .ok nxt =>
    if nxt.isEmpty then some (.ok [trees.toFetch])
    else match fuel with
      | 0 => none
      | fuel + 1 => (parallelTraversal fuel (.many (nxt.map Prod.fst)) (nxt.map Prod.snd)).map
          fun outcome => outcome.map (trees.toFetch :: ·)

/-- It returns, and has fetched the oids in `P` and no others. -/
def Fetches (fuel : ℕ) (trees : Trees γ K) (keys : List K) (P : ℕ → Prop) : Prop :=
  ∃ log, parallelTraversal fuel trees keys = some (.ok log) ∧ ∀ oid, oid ∈ log.flatten ↔ P oid

section Traversal

variable {tree nxt : Node γ K} {key : K}

/-! ## Going down

In a well-formed tree, the next node that the search gives is the one that `Down` goes to. Each
step leads to a node of smaller height, so that the lookup of a key ends. -/

omit [DecidableEq γ] in
theorem Node.Down.height_lt (h : Down key tree nxt) : nxt.height < tree.height := by
  obtain @⟨cls, oid, n, sep, child, i, -⟩ := h
  have hle : (child i).height ≤ Finset.univ.sup fun i => (child i).height :=
    Finset.le_sup (f := fun i => (child i).height) (Finset.mem_univ i)
  rw [Node.height]
  omega

omit [DecidableEq γ] in
theorem Node.Down.wellFormed (h : Down key tree nxt) (htree : tree.WellFormed) :
    nxt.WellFormed := by
  obtain ⟨i, -⟩ := h
  exact (htree.2 i).2.1

omit [DecidableEq γ] in
/-- **The lookup path is right**: it ends at a node that holds the key, if the tree does. -/
theorem Node.WellFormed.holds (h : tree.WellFormed) (hkey : tree.Holds key) :
    ∃ leaf, Relation.ReflTransGen (Node.Down key) tree leaf ∧ leaf.Holds key ∧
      ∀ nxt, ¬Node.Down key leaf nxt := by
  induction tree with
  | bucket cls oid keys =>
    refine ⟨_, .refl, hkey, fun nxt hdown => ?_⟩
    cases hdown
  | empty cls oid => cases hkey
  | single cls oid keys =>
    refine ⟨_, .refl, hkey, fun nxt hdown => ?_⟩
    cases hdown
  | inner cls oid n sep child ih =>
    obtain ⟨i, hi⟩ := hkey
    obtain ⟨leaf, hpath, hleaf⟩ := ih i (h.2 i).2.1 hi
    exact ⟨leaf, .head (.child i ((h.2 i).2.2 key hi)) hpath, hleaf⟩

/-- **The step of a key**: the next node is the child that its lookup goes to, if any. -/
theorem Node.WellFormed.next (h : tree.WellFormed) (key : K) :
    ∃ o, tree.next key = .ok o ∧ ∀ nxt, o = some nxt ↔ Node.Down key tree nxt := by
  have hnone : ∀ t : Node γ K, (∀ nxt, ¬Node.Down key t nxt) →
      ∀ nxt, (none : Option (Node γ K)) = some nxt ↔ Node.Down key t nxt := by
    intro t ht nxt
    refine iff_of_false (fun heq => ?_) (ht nxt)
    cases heq
  cases tree with
  | bucket cls oid keys =>
    refine ⟨none, rfl, hnone _ fun nxt hdown => ?_⟩
    cases hdown
  | empty cls oid =>
    refine ⟨none, rfl, hnone _ fun nxt hdown => ?_⟩
    cases hdown
  | single cls oid keys =>
    refine ⟨none, ?_, hnone _ fun nxt hdown => ?_⟩
    · have hloop : searchLoop [(Slot.embedded keys : Slot (Node γ K) K)] key 0 1 = .ok 0 := by
        rw [searchLoop]
        rfl
      have hsearch : btreeStateSearch (some [(Slot.embedded keys : Slot (Node γ K) K)]) key =
          .ok (0, some (.embedded keys)) := by
        simp only [btreeStateSearch, List.length_singleton]
        rw [hloop]
        rfl
      simp only [Node.next, Node.hasBucketType, Node.getstate, hsearch]
      rfl
    · cases hdown
  | inner cls oid n sep child =>
    obtain ⟨hmono, hchild⟩ := h
    obtain ⟨i, hsearch, hhold⟩ := btreeStateSearch_interleave hmono child key
    refine ⟨some (child i), ?_, fun nxt => ?_⟩
    · have hcls : (child i).cls = (Node.inner cls oid n sep child).cls := (hchild i).1
      simp only [Node.next, Node.hasBucketType, Node.getstate, hsearch, hcls]
      rfl
    · refine ⟨?_, ?_⟩
      · intro heq
        rw [← Option.some.inj heq]
        exact .child i hhold
      · rintro ⟨i', hhold'⟩
        rw [hhold.unique hmono hhold']

/-- All keys take a step. -/
theorem nextPairs_spec {pairs : List (Node γ K × K)} (h : ∀ p ∈ pairs, p.1.WellFormed) :
    ∃ nxt, nextPairs pairs = .ok nxt ∧
      ∀ q, q ∈ nxt ↔ ∃ p ∈ pairs, p.2 = q.2 ∧ Node.Down q.2 p.1 q.1 := by
  induction pairs with
  | nil =>
    refine ⟨[], rfl, fun q => ?_⟩
    simp
  | cons p pairs ih =>
    obtain ⟨tree, key⟩ := p
    obtain ⟨o, hnext, hdown⟩ := (h _ List.mem_cons_self).next key
    obtain ⟨nxt, hrest, hmem⟩ := ih fun p hp => h p (List.mem_cons_of_mem _ hp)
    refine ⟨(o.map (·, key)).toList ++ nxt, ?_, fun q => ?_⟩
    · rw [nextPairs, hnext, hrest]
      rfl
    · rw [List.mem_append, hmem, List.exists_mem_cons_iff, Option.mem_toList, Option.map_eq_some_iff]
      refine or_congr_left ⟨?_, ?_⟩
      · rintro ⟨c, hc, rfl⟩
        exact ⟨rfl, (hdown c).mp hc⟩
      · rintro ⟨rfl, hq⟩
        exact ⟨q.1, (hdown q.1).mpr hq, rfl⟩

/-! ## What is fetched

A call fetches the nodes that keys have come to, and a path is a node with the path from the next
one. So the calls fetch the paths, by induction over the number of levels. -/

omit [DecidableEq γ] in
/-- A lookup path is the node itself and the path from the next. -/
theorem Node.onPath_iff {oid : ℕ} : tree.OnPath key oid ↔
    tree.oid = some oid ∨ ∃ nxt, Node.Down key tree nxt ∧ nxt.OnPath key oid := by
  refine ⟨?_, ?_⟩
  · rintro ⟨node, hpath, hoid⟩
    rcases Relation.ReflTransGen.cases_head hpath with rfl | ⟨nxt, hdown, hrest⟩
    · exact .inl hoid
    · exact .inr ⟨nxt, hdown, node, hrest, hoid⟩
  · rintro (hoid | ⟨nxt, hdown, node, hpath, hoid⟩)
    · exact ⟨tree, .refl, hoid⟩
    · exact ⟨node, .head hdown hpath, hoid⟩

theorem Fetches.congr {fuel : ℕ} {trees : Trees γ K} {keys : List K} {P Q : ℕ → Prop}
    (h : Fetches fuel trees keys P) (hPQ : ∀ oid, P oid ↔ Q oid) : Fetches fuel trees keys Q := by
  obtain ⟨log, hrun, hlog⟩ := h
  exact ⟨log, hrun, fun oid => (hlog oid).trans (hPQ oid)⟩

/-- One call: it fetches a level and, by calling itself, the paths from the next. -/
theorem fetches_step {fuel : ℕ} {trees : Trees γ K} {keys : List K}
    (h : ∀ p ∈ (trees.forKeys keys).zip keys, p.1.WellFormed ∧ p.1.height ≤ fuel)
    (ih : ∀ fuel', fuel = fuel' + 1 → ∀ pairs : List (Node γ K × K),
      (∀ p ∈ pairs, p.1.WellFormed ∧ p.1.height ≤ fuel') →
        Fetches fuel' (.many (pairs.map Prod.fst)) (pairs.map Prod.snd)
          fun oid => ∃ p ∈ pairs, p.1.OnPath p.2 oid) :
    Fetches fuel trees keys fun oid => oid ∈ trees.toFetch ∨
      ∃ p ∈ (trees.forKeys keys).zip keys, ∃ nxt, Node.Down p.2 p.1 nxt ∧ nxt.OnPath p.2 oid := by
  obtain ⟨nxt, hnxt, hmem⟩ := nextPairs_spec fun p hp => (h p hp).1
  rcases hempty : nxt with _ | ⟨q, rest⟩
  · refine ⟨[trees.toFetch], ?_, fun oid => ?_⟩
    · rw [parallelTraversal.eq_def, hnxt, hempty]
      rfl
    · rw [List.flatten_singleton]
      refine ⟨.inl, ?_⟩
      rintro (hoid | ⟨p, hp, c, hdown, -⟩)
      · exact hoid
      · have hc : (c, p.2) ∈ nxt := (hmem _).mpr ⟨p, hp, rfl, hdown⟩
        rw [hempty] at hc
        cases hc
  · -- there is a next level, so there is fuel for it
    have hlower : ∀ q ∈ nxt, q.1.WellFormed ∧ q.1.height + 1 ≤ fuel := by
      intro q hq
      obtain ⟨p, hp, -, hdown⟩ := (hmem q).mp hq
      exact ⟨hdown.wellFormed (h p hp).1, hdown.height_lt.trans_le (h p hp).2⟩
    have hq : q ∈ nxt := hempty ▸ List.mem_cons_self
    obtain ⟨fuel', rfl⟩ : ∃ fuel', fuel = fuel' + 1 := by
      have hpos := (hlower q hq).2
      exact ⟨fuel - 1, by omega⟩
    obtain ⟨log, hrun, hlog⟩ := ih fuel' rfl nxt fun q hq =>
      ⟨(hlower q hq).1, Nat.le_of_succ_le_succ (hlower q hq).2⟩
    refine ⟨trees.toFetch :: log, ?_, fun oid => ?_⟩
    · have hne : nxt.isEmpty = false := by rw [hempty]; rfl
      rw [parallelTraversal.eq_def, hnxt]
      simp only [hne, hrun]
      rfl
    · rw [List.flatten_cons, List.mem_append, hlog]
      refine or_congr_right ⟨?_, ?_⟩
      · rintro ⟨q, hq, hpath⟩
        obtain ⟨p, hp, hkey, hdown⟩ := (hmem q).mp hq
        exact ⟨p, hp, q.1, hkey ▸ hdown, hkey ▸ hpath⟩
      · rintro ⟨p, hp, c, hdown, hpath⟩
        exact ⟨(c, p.2), (hmem _).mpr ⟨p, hp, rfl, hdown⟩, hpath⟩

/-- The first call on a tree for each key. -/
theorem fetches_many {fuel : ℕ} {pairs : List (Node γ K × K)}
    (h : ∀ p ∈ pairs, p.1.WellFormed ∧ p.1.height ≤ fuel)
    (ih : ∀ fuel', fuel = fuel' + 1 → ∀ pairs : List (Node γ K × K),
      (∀ p ∈ pairs, p.1.WellFormed ∧ p.1.height ≤ fuel') →
        Fetches fuel' (.many (pairs.map Prod.fst)) (pairs.map Prod.snd)
          fun oid => ∃ p ∈ pairs, p.1.OnPath p.2 oid) :
    Fetches fuel (.many (pairs.map Prod.fst)) (pairs.map Prod.snd)
      fun oid => ∃ p ∈ pairs, p.1.OnPath p.2 oid := by
  have hzip : ((Trees.many (pairs.map Prod.fst)).forKeys (pairs.map Prod.snd)).zip
      (pairs.map Prod.snd) = pairs := by
    rw [Trees.forKeys, List.zip_map', List.map_id']
  refine (fetches_step (hzip.symm ▸ h) ih).congr fun oid => ?_
  rw [hzip, Trees.toFetch, List.mem_dedup, List.mem_filterMap]
  refine ⟨?_, ?_⟩
  · rintro (⟨tree, htree, hoid⟩ | ⟨p, hp, hnext⟩)
    · obtain ⟨p, hp, rfl⟩ := List.mem_map.mp htree
      exact ⟨p, hp, Node.onPath_iff.mpr (.inl hoid)⟩
    · exact ⟨p, hp, Node.onPath_iff.mpr (.inr hnext)⟩
  · rintro ⟨p, hp, hpath⟩
    rcases Node.onPath_iff.mp hpath with hoid | hnext
    · exact .inl ⟨p.1, List.mem_map_of_mem hp, hoid⟩
    · exact .inr ⟨p, hp, hnext⟩

/-- **A tree for each key**: within the height of the trees, what is fetched are the nodes on the
lookup paths. -/
theorem parallelTraversal_many (fuel : ℕ) (pairs : List (Node γ K × K))
    (h : ∀ p ∈ pairs, p.1.WellFormed ∧ p.1.height ≤ fuel) :
    Fetches fuel (.many (pairs.map Prod.fst)) (pairs.map Prod.snd)
      fun oid => ∃ p ∈ pairs, p.1.OnPath p.2 oid := by
  induction fuel generalizing pairs with
  | zero =>
    refine fetches_many h fun fuel' hfuel => ?_
    omega
  | succ fuel ih =>
    refine fetches_many h fun fuel' hfuel => ?_
    obtain rfl := Nat.succ.inj hfuel
    exact ih

/-- **One tree**: its root is fetched, and the nodes on the lookup paths. -/
theorem parallelTraversal_one {tree : Node γ K} {fuel : ℕ} (keys : List K) (h : tree.WellFormed)
    (hfuel : tree.height ≤ fuel) :
    Fetches fuel (.one tree) keys
      fun oid => tree.oid = some oid ∨ ∃ key ∈ keys, tree.OnPath key oid := by
  have hzip : (List.replicate keys.length tree).zip keys = keys.map (tree, ·) := by
    induction keys with
    | nil => rfl
    | cons key keys ih =>
      rw [List.length_cons, List.replicate_succ, List.zip_cons_cons, ih, List.map_cons]
  have hmem : ∀ p ∈ ((Trees.one tree).forKeys keys).zip keys, p.1 = tree ∧ p.2 ∈ keys := by
    rw [Trees.forKeys, hzip]
    intro p hp
    obtain ⟨key, hkey, rfl⟩ := List.mem_map.mp hp
    exact ⟨rfl, hkey⟩
  have hwf : ∀ p ∈ ((Trees.one tree).forKeys keys).zip keys,
      p.1.WellFormed ∧ p.1.height ≤ fuel := by
    intro p hp
    rw [(hmem p hp).1]
    exact ⟨h, hfuel⟩
  refine (fetches_step hwf fun fuel' _ => parallelTraversal_many fuel').congr fun oid => ?_
  rw [Trees.toFetch, Option.mem_toList]
  refine ⟨?_, ?_⟩
  · rintro (hoid | ⟨p, hp, nxt, hdown, hpath⟩)
    · exact .inl hoid
    · obtain ⟨hp, hkey⟩ := hmem p hp
      rw [hp] at hdown
      exact .inr ⟨p.2, hkey, Node.onPath_iff.mpr (.inr ⟨nxt, hdown, hpath⟩)⟩
  · rintro (hoid | ⟨key, hkey, hpath⟩)
    · exact .inl hoid
    · refine (Node.onPath_iff.mp hpath).imp id fun hnext => ⟨(tree, key), ?_, hnext⟩
      rw [Trees.forKeys, hzip]
      exact List.mem_map.mpr ⟨key, hkey, rfl⟩

end Traversal

/-- **The descent follows the lookup paths.** In a node, the search finds the only child that
may hold the key. In trees, given with a key each, the traversal fetches the nodes on the lookup
paths, within the height of the trees; in one tree, it fetches those and the root. -/
theorem descent_follows_paths :
    (∀ (n : ℕ) (sep : Fin n → K) (child : Fin (n + 1) → ν) (key : K), StrictMono sep →
      ∃ i : Fin (n + 1), btreeStateSearch (some (interleave sep child)) key =
        .ok (i.val, some (.branch (child i))) ∧ ∀ i', MayHold sep key i' ↔ i' = i) ∧
    (∀ (pairs : List (Node γ K × K)) (fuel : ℕ),
      (∀ p ∈ pairs, p.1.WellFormed ∧ p.1.height ≤ fuel) →
        Fetches fuel (.many (pairs.map Prod.fst)) (pairs.map Prod.snd)
          fun oid => ∃ p ∈ pairs, p.1.OnPath p.2 oid) ∧
    ∀ (tree : Node γ K) (keys : List K) (fuel : ℕ), tree.WellFormed → tree.height ≤ fuel →
      Fetches fuel (.one tree) keys
        fun oid => tree.oid = some oid ∨ ∃ key ∈ keys, tree.OnPath key oid := by
  refine ⟨fun n sep child key hmono => ?_, fun pairs fuel h => parallelTraversal_many fuel pairs h,
    fun tree keys fuel h hfuel => parallelTraversal_one keys h hfuel⟩
  obtain ⟨i, hsearch, hhold⟩ := btreeStateSearch_interleave hmono child key
  refine ⟨i, hsearch, fun i' => ⟨fun h => h.unique hmono hhold, ?_⟩⟩
  rintro rfl
  exact hhold

/-- The buckets of a tree with the separator 5. -/
def bucketOf (i : Fin 2) : Node Unit ℕ :=
  if i = 0 then .bucket () (some 2) [3] else .bucket () (some 3) [5, 8]

/-- The tree. -/
def twoBuckets : Node Unit ℕ := .inner () (some 1) 1 (fun _ => 5) bucketOf

theorem wellFormed_twoBuckets : twoBuckets.WellFormed := by
  have hmono : StrictMono fun _ : Fin 1 => 5 := Subsingleton.strictMono _
  refine ⟨hmono, fun i => ?_⟩
  rcases Fin.exists_fin_two.mp ⟨i, rfl⟩ with rfl | rfl
  · refine ⟨rfl, trivial, fun key hkey => ⟨fun j hj => ?_, fun j _ => ?_⟩⟩
    · exact absurd hj (Fin.succ_ne_zero j)
    · obtain rfl : key = 3 := List.mem_singleton.mp hkey
      change 3 < 5
      omega
  · refine ⟨rfl, trivial, fun key hkey => ⟨fun j _ => ?_, fun j hj => ?_⟩⟩
    · have hkey' : key = 5 ∨ key = 8 := by simpa [bucketOf, Node.Holds] using hkey
      change 5 ≤ key
      omega
    · exact absurd (congrArg Fin.val hj) (by simp)

/-- Without keys the root is fetched, though it is on no lookup path. -/
theorem root_without_keys :
    parallelTraversal 1 (.one twoBuckets) [] = some (.ok [[1]]) ∧ twoBuckets.WellFormed ∧
      ¬Fetches 1 (.one twoBuckets) [] fun oid => ∃ key ∈ ([] : List ℕ), twoBuckets.OnPath key oid := by
  have hrun : parallelTraversal 1 (.one twoBuckets) [] = some (.ok [[1]]) := by rfl
  refine ⟨hrun, wellFormed_twoBuckets, ?_⟩
  rintro ⟨log, hlog, hfetched⟩
  rw [hrun] at hlog
  cases hlog
  obtain ⟨key, hkey, -⟩ := (hfetched 1).mp (by decide)
  cases hkey

/-- Looking up keys in the tree, once as a list and once on its own. -/
theorem descent_follows_paths_example :
    (∃ i : Fin 2, btreeStateSearch (some (interleave (fun _ : Fin 1 => 5) bucketOf)) 8 =
      .ok (i.val, some (.branch (bucketOf i))) ∧ ∀ i', MayHold (fun _ => 5) 8 i' ↔ i' = i) ∧
    Fetches 1 (.many [twoBuckets, twoBuckets]) [3, 8]
      (fun oid => ∃ p ∈ [(twoBuckets, 3), (twoBuckets, 8)], p.1.OnPath p.2 oid) ∧
    Fetches 1 (.one twoBuckets) [8]
      fun oid => twoBuckets.oid = some oid ∨ ∃ key ∈ [8], twoBuckets.OnPath key oid := by
  have hmono : StrictMono fun _ : Fin 1 => 5 := Subsingleton.strictMono _
  have hheight : twoBuckets.height ≤ 1 := by decide
  obtain ⟨hsearch, hmany, hone⟩ := @descent_follows_paths (Node Unit ℕ) Unit ℕ _ _
  refine ⟨hsearch 1 _ bucketOf 8 hmono, hmany [(twoBuckets, 3), (twoBuckets, 8)] 1 ?_,
    hone twoBuckets [8] 1 wellFormed_twoBuckets hheight⟩
  intro p hp
  have htree : p.1 = twoBuckets := by
    rcases List.mem_cons.mp hp with rfl | hp
    · rfl
    · rw [List.mem_singleton.mp hp]
  rw [htree]
  exact ⟨wellFormed_twoBuckets, hheight⟩

end Zerodb
