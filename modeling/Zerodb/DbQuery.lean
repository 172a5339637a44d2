import Zerodb.Intid
import Zerodb.Prefetch

/-!
# DbQuery: pages and lists of query results

`DbModel.query` has two paths. With a limit it asks the catalog for as many docids as the
page ends at, and loads the page. Without one, or with the limit 0, it returns a lazy list
over all that the catalog finds, and `skip` is forgotten.

The length of such a list is the size that the catalog reports, if it reports one: the
number of docids found before they are sorted, while sorting drops those without a value.

* `paging_iff` — when the objects obtained are the page that was asked for;
* `length_iff` — when the length is the number of objects that iterating yields.

A `Collection` is an object store with a catalog over it, and a `SortIndex` an index as far
as sorting by it goes; both carry what they promise.
-/

namespace Zerodb

universe u

open Std

/-! ## The catalog

The catalog is third-party code but for `sort_result`. What is relied on is in the structures:
sorting yields the docids with a value, each once, and a limit cuts it short; what a query finds
is stored. A query may also raise, as an `And` without operands does. -/

/-- An index, as far as sorting by it goes. -/
structure SortIndex where
  /-- does a document have a value? -/
  has : ℤ → Bool
  /-- `sort(docids, reverse, limit, sort_type)` -/
  sort : (docids : TreeSet ℤ) → (reverse : Bool) → (limit : Option ℕ) → (sortType : Option Str) →
    List ℤ
  /-- without a limit it yields the docids that have a value -/
  mem_sort : ∀ docids reverse sortType uid,
    uid ∈ sort docids reverse none sortType ↔ uid ∈ docids ∧ has uid = true
  /-- each of them once -/
  nodup_sort : ∀ docids reverse sortType, (sort docids reverse none sortType).Nodup
  /-- with a limit it starts in the same way, up to there -/
  take_sort : ∀ docids reverse limit sortType,
    (sort docids reverse (some limit) sortType).take limit =
      (sort docids reverse none sortType).take limit

/-- The queries of a catalog and how they are put together, over values `ν`. -/
structure QueryLanguage (ν ψ : Type) where
  /-- `Eq(index_name, value)` -/
  eq : Str → ν → ψ
  /-- `And(*queries)` -/
  and : List ψ → ψ
  /-- `left & right` -/
  conj : ψ → ψ → ψ
  /-- `optimize(query)` -/
  optimize : ψ → ψ

/-- The objects of a model and the catalog over them. -/
structure Collection (ν ψ α : Type) where
  /-- `_objects` -/
  objects : IdStore α
  /-- what the result of a query yields, given the values of names. `And` and `Or` without
  operands raise, and so does a condition on an index that is missing -/
  apply : (query : ψ) → (names : List (Str × ν)) → Except Exc (List ℤ)
  /-- the indexes -/
  indexes : Str → Option SortIndex
  /-- what is found is stored -/
  stored : ∀ query names uids, apply query names = .ok uids → ∀ uid ∈ uids, uid ∈ objects.tree

/-- How results are to be sorted. -/
structure Sorting where
  /-- `sort_index` -/
  index : Option Str
  /-- `sort_type` -/
  sortType : Option Str
  /-- `reverse` -/
  reverse : Bool

/-- `sort_index` where it is truthy. -/
def Sorting.by (o : Sorting) : Option Str := o.index.filter (· ≠ [])

/-- A limit where it is truthy. -/
def truthy (limit : Option ℕ) : Option ℕ := limit.filter (· ≠ 0)

namespace Collection

variable {ν ψ α : Type} (C : Collection ν ψ α)

/-- `Catalog.sort_result`: a size and docids. -/
def sortResult (result : List ℤ) (o : Sorting) (limit : Option ℕ) :
    Except Exc (Option ℕ × List ℤ) :=
  match o.by with
  | none => .ok (truthy limit, result)
  | some name =>
    match C.indexes name with
    | none => .error .keyError
    | some index =>
      let docids : TreeSet ℤ := ExtTreeSet.ofList result compare
      let numdocs := match truthy limit with
        | none => docids.size
        | some n => min docids.size n
      .ok (some numdocs, index.sort docids o.reverse limit o.sortType)

/-- `_objects[uid]`, with its `_p_uid`. -/
def getObject (uid : ℤ) : Except Exc (ℤ × α) :=
  match C.objects.tree[uid]? with
  | none => .error .keyError
  | some obj => .ok (uid, obj)

/-- The objects with these ids. -/
def load : List ℤ → Except Exc (List (ℤ × α))
  | [] => .ok []
  | uid :: uids => do return (← C.getObject uid) :: (← load uids)

end Collection

/-! ## Queries

The keyword arguments that are fields become equalities, and everything becomes one query object.
The two paths are in `Request.run`; what the lazy one returns is the list of `Sliceable` or
`Prefetch` over the objects. -/

/-- The arguments of `DbModel.query`. -/
structure Request (ν ψ : Type) where
  /-- `queryobj` -/
  queryobj : Option ψ
  /-- `skip` -/
  skip : Option ℕ
  /-- `limit` -/
  limit : Option ℕ
  /-- `prefetch` -/
  prefetch : Bool
  /-- the keyword arguments that are fields -/
  equalities : List (Str × ν)
  /-- `names` -/
  names : List (Str × ν)
  /-- `sort_index`, `sort_type` and `reverse` -/
  sorting : Sorting

/-- What `DbModel.query` returns. -/
inductive Answer (α : Type) where
  /-- a list of objects -/
  | page : List (ℤ × α) → Answer α
  /-- a `DBListPrefetch`, or a `DBList`, with the size that the catalog reports. Loading an
  object that is found raises nothing, so the source has them loaded -/
  | dbList : (prefetch : Bool) → (size : Option ℕ) → Source (ℤ × α) → Answer α

section Query

variable {ν ψ α : Type}

/-- `Q`. -/
def Request.query (L : QueryLanguage ν ψ) (r : Request ν ψ) : ψ :=
  let eqArgs := L.and (r.equalities.map fun e => L.eq e.1 e.2)
  match r.queryobj with
  | none => eqArgs
  | some q => L.optimize (L.conj (L.optimize q) eqArgs)

variable (C : Collection ν ψ α) (L : QueryLanguage ν ψ)

/-- `self._catalog.query(Q, **kw)`. -/
def Request.find (r : Request ν ψ) (limit : Option ℕ) : Except Exc (Option ℕ × List ℤ) := do
  C.sortResult (← C.apply (r.query L) r.names) r.sorting limit

/-- `DbModel.query`. -/
def Request.run (r : Request ν ψ) : Except Exc (Answer α) :=
  let skip := r.skip.getD 0
  match truthy r.limit with
  | some limit => do
    let (_, uids) ← r.find C L (some (skip + limit))
    return .page (← C.load (islice uids skip (some (skip + limit)) 1))
  | none => do
    let (size, uids) ← r.find C L none
    return .dbList r.prefetch size (ListPrefetch.source (← C.load uids) false)

/-- The objects one obtains from an answer, iterating over it once if it is lazy. -/
def Answer.objects : Answer α → Option (Except Exc (List (ℤ × α)))
  | .page xs => some (.ok xs)
  | .dbList true _ S => (ListPrefetch.iterateAll S (Sliceable.init S)).1
  | .dbList false _ S => (Sliceable.iterateAll S (Sliceable.init S)).1

/-- The objects one obtains from a query. -/
def Request.objects (r : Request ν ψ) : Option (Except Exc (List (ℤ × α))) :=
  match r.run C L with
  | .error e => some (.error e)
  | .ok answer => answer.objects

end Query

/-! ## Loading

Objects are loaded uid by uid, so that a part of the uids loads that part of the objects. This is
what lets the page be cut before or after loading. -/

namespace Collection

variable {ν ψ α : Type} {C : Collection ν ψ α} {uids : List ℤ} {xs : List (ℤ × α)}

/-- Loading goes uid by uid. -/
theorem load_eq_ok : C.load uids = .ok xs ↔ uids.map C.getObject = xs.map .ok := by
  induction uids generalizing xs with
  | nil =>
    rw [load, Except.ok.injEq, List.map_nil, eq_comm, List.map_eq_nil_iff.symm.eq]
    exact eq_comm
  | cons uid uids ih =>
    rw [load, List.map_cons]
    rcases hobj : C.getObject uid with e | x
    · refine iff_of_false (fun h => ?_) (fun h => ?_)
      · cases h
      · cases xs <;> simp at h
    · rcases hload : C.load uids with e | ys
      · refine iff_of_false (fun h => ?_) (fun h => ?_)
        · cases h
        · rcases xs with _ | ⟨y, xs⟩
          · cases h
          · obtain ⟨-, htail⟩ := List.cons.inj h
            have := ih.mpr htail
            rw [hload] at this
            cases this
      · have hmap : uids.map C.getObject = ys.map .ok := ih.mp hload
        rw [hmap]
        refine ⟨?_, ?_⟩
        · intro h
          obtain rfl : x :: ys = xs := Except.ok.inj h
          rfl
        · intro h
          have hinj : Function.Injective (Except.ok : ℤ × α → Except Exc (ℤ × α)) :=
            fun _ _ => Except.ok.inj
          have hxs : x :: ys = xs := List.map_injective_iff.mpr hinj h
          rw [← hxs]
          rfl

/-- What is stored can be loaded. -/
theorem load_of_stored (h : ∀ uid ∈ uids, uid ∈ C.objects.tree) : ∃ xs, C.load uids = .ok xs := by
  induction uids with
  | nil => exact ⟨[], rfl⟩
  | cons uid uids ih =>
    obtain ⟨obj, hobj⟩ := (BTree.mem_iff _).mp (h uid List.mem_cons_self)
    obtain ⟨xs, hxs⟩ := ih fun x hx => h x (List.mem_cons_of_mem _ hx)
    have hget : C.getObject uid = .ok (uid, obj) := by rw [getObject, hobj]
    refine ⟨(uid, obj) :: xs, ?_⟩
    rw [load, hget, hxs]
    rfl

theorem length_load (h : C.load uids = .ok xs) : xs.length = uids.length := by
  have hlen := congrArg List.length (load_eq_ok.mp h)
  rw [List.length_map, List.length_map] at hlen
  exact hlen.symm

/-- A part of the docids loads that part of the objects. -/
theorem load_slice (h : C.load uids = .ok xs) (m n : ℕ) :
    C.load ((uids.take n).drop m) = .ok ((xs.take n).drop m) := by
  rw [load_eq_ok] at h ⊢
  rw [List.map_drop, List.map_take, h, List.map_drop, List.map_take]

/-- Without an index to sort by, the result is as it is. -/
theorem sortResult_unsorted (C : Collection ν ψ α) (result : List ℤ) {o : Sorting}
    (hby : o.by = none) (limit : Option ℕ) :
    C.sortResult result o limit = .ok (truthy limit, result) := by
  simp only [sortResult, hby]

/-- With one, it is sorted. -/
theorem sortResult_index (C : Collection ν ψ α) (result : List ℤ) {o : Sorting} {name : Str}
    {index : SortIndex} (hby : o.by = some name) (hindex : C.indexes name = some index)
    (limit : Option ℕ) :
    C.sortResult result o limit =
      .ok (some (((truthy limit).map (min (ExtTreeSet.ofList result compare).size)).getD
          (ExtTreeSet.ofList result compare).size),
        index.sort (ExtTreeSet.ofList result compare) o.reverse limit o.sortType) := by
  simp only [sortResult, hby, hindex]
  rcases truthy limit with _ | n <;> rfl

theorem sortResult_missing (C : Collection ν ψ α) (result : List ℤ) {o : Sorting} {name : Str}
    (hby : o.by = some name) (hindex : C.indexes name = none) (limit : Option ℕ) :
    C.sortResult result o limit = .error .keyError := by
  simp only [sortResult, hby, hindex]

/-- What is left when a result is sorted: the docids that have a value. -/
def Left (C : Collection ν ψ α) (o : Sorting) (uid : ℤ) : Prop :=
  ∀ name, o.by = some name → ∃ index, C.indexes name = some index ∧ index.has uid = true

theorem mem_sortResult {result : List ℤ} {o : Sorting} {size : Option ℕ}
    (h : C.sortResult result o none = .ok (size, uids)) (uid : ℤ) :
    uid ∈ uids ↔ uid ∈ result ∧ C.Left o uid := by
  rcases hby : o.by with _ | name
  · rw [C.sortResult_unsorted result hby] at h
    cases h
    refine (and_iff_left fun name hname => ?_).symm
    rw [hby] at hname
    cases hname
  · rcases hindex : C.indexes name with _ | index
    · rw [C.sortResult_missing result hby hindex] at h
      cases h
    · rw [C.sortResult_index result hby hindex] at h
      cases h
      rw [index.mem_sort, TreeSet.mem_ofList]
      refine and_congr_right fun _ => ⟨fun hhas name' hname' => ?_, fun hleft => ?_⟩
      · rw [hby] at hname'
        cases hname'
        exact ⟨index, hindex, hhas⟩
      · obtain ⟨index', hindex', hhas⟩ := hleft name hby
        rw [hindex] at hindex'
        cases hindex'
        exact hhas

/-- Nothing is left where the index to sort by is missing. -/
theorem not_left_of_error {result : List ℤ} {o : Sorting} {e : Exc}
    (h : C.sortResult result o none = .error e) (uid : ℤ) : ¬C.Left o uid := by
  intro hleft
  rcases hby : o.by with _ | name
  · rw [C.sortResult_unsorted result hby] at h
    cases h
  · obtain ⟨index, hindex, -⟩ := hleft name hby
    rw [C.sortResult_index result hby hindex] at h
    cases h

/-- A limit does not change how the docids begin, nor whether the index is missing. -/
theorem sortResult_limit (C : Collection ν ψ α) (result : List ℤ) (o : Sorting) (n : ℕ) :
    (∃ e, C.sortResult result o none = .error e ∧ C.sortResult result o (some n) = .error e) ∨
    ∃ size size' uids uids', C.sortResult result o none = .ok (size, uids) ∧
      C.sortResult result o (some n) = .ok (size', uids') ∧ uids'.take n = uids.take n := by
  rcases hby : o.by with _ | name
  · have hrun := C.sortResult_unsorted result hby
    exact .inr ⟨_, _, _, _, hrun none, hrun (some n), rfl⟩
  · rcases hindex : C.indexes name with _ | index
    · have hrun := C.sortResult_missing result hby hindex
      exact .inl ⟨_, hrun none, hrun (some n)⟩
    · have hrun := C.sortResult_index result hby hindex
      exact .inr ⟨_, _, _, _, hrun none, hrun (some n), index.take_sort _ _ _ _⟩

end Collection

/-! ## Paging

On the path with a limit, cutting the uids is cutting the objects, since a sorted result begins in
the same way with a limit as without. On the other path nothing is cut. So the page that was asked
for is what one gets if nothing was to be cut, or there is nothing. -/

section Paging

variable {ν ψ α : Type} (C : Collection ν ψ α) (L : QueryLanguage ν ψ) (r : Request ν ψ)

/-- The same query without `skip` and `limit`. -/
def Request.whole (r : Request ν ψ) : Request ν ψ := { r with skip := none, limit := none }

/-- The page that is asked for: drop the first `skip`, keep at most `limit`. -/
def Request.page (r : Request ν ψ) (xs : List (ℤ × α)) : List (ℤ × α) :=
  match r.limit with
  | none => xs.drop (r.skip.getD 0)
  | some limit => (xs.drop (r.skip.getD 0)).take limit

/-- **Paging is slicing**: a query gives the page of what it gives as a whole. -/
def Paged : Prop :=
  r.objects C L = (r.whole.objects C L).map fun outcome => outcome.map r.page

/-- A limit that is not 0; or no limit and nothing to skip; or no document is found that is left
when the result is sorted. -/
def Pageable : Prop :=
  (∃ limit, r.limit = some limit ∧ 0 < limit) ∨ (r.limit = none ∧ r.skip.getD 0 = 0) ∨
    ∀ found, C.apply (r.query L) r.names = .ok found → ∀ uid ∈ found, ¬C.Left r.sorting uid

variable {C L r}

/-- What the query finds, before it is sorted. -/
theorem Request.find_eq_ok {limit : Option ℕ} {size : Option ℕ} {uids : List ℤ} :
    r.find C L limit = .ok (size, uids) ↔ ∃ found, C.apply (r.query L) r.names = .ok found ∧
      C.sortResult found r.sorting limit = .ok (size, uids) := by
  rw [Request.find]
  rcases C.apply (r.query L) r.names with e | found
  · simp [bind, Except.bind]
  · simp [bind, Except.bind]

/-- A limit does not change how the uids begin, nor whether the query raises. -/
theorem Request.find_limit (C : Collection ν ψ α) (L : QueryLanguage ν ψ) (r : Request ν ψ)
    (n : ℕ) :
    (∃ e, r.find C L none = .error e ∧ r.find C L (some n) = .error e) ∨
    ∃ size size' uids uids', r.find C L none = .ok (size, uids) ∧
      r.find C L (some n) = .ok (size', uids') ∧ uids'.take n = uids.take n := by
  simp only [Request.find]
  rcases C.apply (r.query L) r.names with e | found
  · exact .inl ⟨e, rfl, rfl⟩
  · exact C.sortResult_limit found r.sorting n

theorem Answer.objects_dbList (prefetch : Bool) (size : Option ℕ) (S : Source (ℤ × α)) :
    (Answer.dbList prefetch size S).objects = some (.ok S.xs) := by
  cases prefetch with
  | false => exact (Sliceable.usable_init S).iterateAll.1
  | true => exact (ListPrefetch.iterateAll_init S).1

/-- Without a limit, all objects found are obtained, whatever is to be skipped. -/
theorem Request.objects_of_all (hlimit : truthy r.limit = none) {size : Option ℕ}
    {uids : List ℤ} {xs : List (ℤ × α)} (hfind : r.find C L none = .ok (size, uids))
    (hload : C.load uids = .ok xs) : r.objects C L = some (.ok xs) := by
  have hrun : r.run C L = .ok (.dbList r.prefetch size (ListPrefetch.source xs false)) := by
    simp only [Request.run, hlimit, hfind]
    simp only [bind, Except.bind, hload]
    rfl
  rw [Request.objects, hrun]
  exact Answer.objects_dbList _ _ _

theorem Request.objects_of_error (hlimit : truthy r.limit = none) {e : Exc}
    (hfind : r.find C L none = .error e) : r.objects C L = some (.error e) := by
  have hrun : r.run C L = .error e := by
    simp only [Request.run, hlimit, hfind]
    rfl
  rw [Request.objects, hrun]

/-- With one, the page is taken from what is found. -/
theorem Request.objects_of_page {limit : ℕ} (hlimit : truthy r.limit = some limit)
    {size : Option ℕ} {uids uids' : List ℤ} {xs : List (ℤ × α)}
    (hfind : r.find C L (some (r.skip.getD 0 + limit)) = .ok (size, uids'))
    (htake : uids'.take (r.skip.getD 0 + limit) = uids.take (r.skip.getD 0 + limit))
    (hload : C.load uids = .ok xs) :
    r.objects C L = some (.ok ((xs.drop (r.skip.getD 0)).take limit)) := by
  have hpage : C.load (islice uids' (r.skip.getD 0) (some (r.skip.getD 0 + limit)) 1) =
      .ok ((xs.drop (r.skip.getD 0)).take limit) := by
    rw [islice_one, htake, Collection.load_slice hload, List.drop_take, Nat.add_sub_cancel_left]
  have hrun : r.run C L = .ok (.page ((xs.drop (r.skip.getD 0)).take limit)) := by
    simp only [Request.run, hlimit, hfind]
    simp only [bind, Except.bind, hpage]
    rfl
  rw [Request.objects, hrun]
  rfl

theorem Request.objects_of_page_error {limit : ℕ} (hlimit : truthy r.limit = some limit) {e : Exc}
    (hfind : r.find C L (some (r.skip.getD 0 + limit)) = .error e) :
    r.objects C L = some (.error e) := by
  have hrun : r.run C L = .error e := by
    simp only [Request.run, hlimit, hfind]
    rfl
  rw [Request.objects, hrun]

/-- The lazy path gives the page that was asked for exactly when there is nothing to cut. -/
theorem Request.page_eq_self_iff (hlimit : truthy r.limit = none) (xs : List (ℤ × α)) :
    xs = r.page xs ↔ (r.limit = none ∧ r.skip.getD 0 = 0) ∨ xs = [] := by
  rw [Request.page]
  rcases hl : r.limit with _ | limit
  · refine ⟨?_, ?_⟩
    · intro h
      have hlen := congrArg List.length h
      rw [List.length_drop] at hlen
      rcases Nat.eq_zero_or_pos (r.skip.getD 0) with hskip | hskip
      · exact .inl ⟨rfl, hskip⟩
      · exact .inr (List.eq_nil_of_length_eq_zero (by omega))
    · rintro (⟨-, hskip⟩ | rfl)
      · rw [hskip, List.drop_zero]
      · rw [List.drop_nil]
  · rw [hl] at hlimit
    obtain rfl : limit = 0 := by simpa [truthy] using hlimit
    simp

/-- A query that raises does so either way. -/
theorem paged_of_error {e : Exc} (hfind : r.find C L none = .error e) : Paged C L r := by
  have hwhole : r.whole.objects C L = some (.error e) :=
    Request.objects_of_error (r := r.whole) rfl hfind
  rw [Paged, hwhole]
  rcases hlimit : truthy r.limit with _ | limit
  · rw [Request.objects_of_error hlimit hfind]
    rfl
  · obtain ⟨e', he, he'⟩ | ⟨_, _, _, _, hok, -⟩ := r.find_limit C L (r.skip.getD 0 + limit)
    · obtain rfl : e' = e := Except.error.inj (he.symm.trans hfind)
      rw [Request.objects_of_page_error hlimit he']
      rfl
    · cases hok.symm.trans hfind

/-- With a limit other than 0, a query gives its page. -/
theorem paged_of_limit {limit : ℕ} (hlimit : truthy r.limit = some limit) {size : Option ℕ}
    {uids : List ℤ} {xs : List (ℤ × α)} (hfind : r.find C L none = .ok (size, uids))
    (hload : C.load uids = .ok xs) : Paged C L r := by
  have hwhole : r.whole.objects C L = some (.ok xs) :=
    Request.objects_of_all (r := r.whole) rfl hfind hload
  have hl : r.limit = some limit := (Option.filter_eq_some_iff.mp hlimit).1
  rw [Paged, hwhole]
  obtain ⟨_, he, -⟩ | ⟨_, _, _, _, hok, hok', htake⟩ := r.find_limit C L (r.skip.getD 0 + limit)
  · cases he.symm.trans hfind
  · cases hok.symm.trans hfind
    rw [Request.objects_of_page hlimit hok' htake hload]
    simp only [Option.map_some, Except.map, Request.page, hl]

/-- Without one, it gives all objects, which are the page if there is nothing to cut. -/
theorem paged_lazy_iff (hlimit : truthy r.limit = none) {size : Option ℕ} {uids : List ℤ}
    {xs : List (ℤ × α)} (hfind : r.find C L none = .ok (size, uids))
    (hload : C.load uids = .ok xs) :
    Paged C L r ↔ (r.limit = none ∧ r.skip.getD 0 = 0) ∨ xs = [] := by
  have hwhole : r.whole.objects C L = some (.ok xs) :=
    Request.objects_of_all (r := r.whole) rfl hfind hload
  have hpage : (some (Except.ok xs) : Option (Except Exc (List (ℤ × α)))) =
      (some (Except.ok xs)).map (fun outcome => outcome.map r.page) ↔ xs = r.page xs := by
    simp [Except.map]
  rw [Paged, hwhole, Request.objects_of_all hlimit hfind hload, hpage,
    Request.page_eq_self_iff hlimit]

/-- **Paging, exactly**: a query gives the page that was asked for if and only if there is a
limit other than 0, or no limit and nothing to skip, or nothing to be found, which includes that
the query raises. -/
theorem paging_iff (C : Collection ν ψ α) (L : QueryLanguage ν ψ) (r : Request ν ψ) :
    Paged C L r ↔ Pageable C L r := by
  rcases hfind : r.find C L none with e | ⟨size, uids⟩
  · have hnone : Pageable C L r := by
      refine .inr (.inr fun found hfound uid _ => ?_)
      rw [Request.find, hfound] at hfind
      exact Collection.not_left_of_error hfind uid
    exact iff_of_true (paged_of_error hfind) hnone
  · obtain ⟨found, hfound, hsort⟩ := Request.find_eq_ok.mp hfind
    have hmem := Collection.mem_sortResult hsort
    obtain ⟨xs, hload⟩ :=
      C.load_of_stored fun uid huid => C.stored _ _ _ hfound uid ((hmem uid).mp huid).1
    rcases hlimit : truthy r.limit with _ | limit
    · have hempty : xs = [] ↔ ∀ found, C.apply (r.query L) r.names = .ok found →
          ∀ uid ∈ found, ¬C.Left r.sorting uid := by
        simp only [hfound, Except.ok.injEq, forall_eq']
        rw [← List.length_eq_zero_iff, Collection.length_load hload, List.length_eq_zero_iff,
          List.eq_nil_iff_forall_not_mem]
        refine forall_congr' fun uid => ?_
        rw [hmem, not_and]
      have hzero : ¬∃ limit, r.limit = some limit ∧ 0 < limit := by
        rintro ⟨limit, hl, hpos⟩
        rw [hl] at hlimit
        simp [truthy] at hlimit
        omega
      rw [paged_lazy_iff hlimit hfind hload, hempty, Pageable, or_iff_right hzero]
    · have hl := Option.filter_eq_some_iff.mp hlimit
      have hpos : 0 < limit := Nat.pos_of_ne_zero (by simpa using hl.2)
      exact iff_of_true (paged_of_limit hlimit hfind hload) (.inl ⟨limit, hl.1, hpos⟩)

end Paging

/-! ## The length of a list

The list is over an iterator, so that its length is the reported size, or else counted. Only
sorted results come with a size when no limit is given, and it is the size before sorting. -/

/-- What one does with a `DBList`. -/
inductive Look where
  /-- `len(result)` -/
  | len : Look
  /-- a full iteration -/
  | iter : Look

section Length

variable {α : Type}

/-- `__len__` of a `DBList` or `DBListPrefetch`: what the catalog reports, if it reports a
size, and else what iterating yields. -/
def dbLen (prefetch : Bool) (size : Option ℕ) (S : Source α) (s : Sliceable α) :
    Option (Except Exc ℕ) × Sliceable α :=
  match size with
  | some n => (some (.ok n), s)
  | none => if prefetch then ListPrefetch.len S s else Sliceable.len S s

/-- Its iteration. -/
def dbIterate (prefetch : Bool) (S : Source α) (s : Sliceable α) :
    Option (Except Exc (List α)) × Sliceable α :=
  if prefetch then ListPrefetch.iterateAll S s else Sliceable.iterateAll S s

/-- Both as a machine. -/
def looker (prefetch : Bool) (size : Option ℕ) (S : Source α) :
    Machine (Sliceable α) Look (Sliceable.Reply α)
  | s, .len => (.length (dbLen prefetch size S s).1, (dbLen prefetch size S s).2)
  | s, .iter => (.iterated (dbIterate prefetch S s).1, (dbIterate prefetch S s).2)

/-- What a list answers. -/
def Look.spec (xs : List α) : Look → Sliceable.Reply α
  | .len => .length (some (.ok xs.length))
  | .iter => .iterated (some (.ok xs))

/-- **The length is right**: however often one asks for it and iterates, in any order, every
iteration yields the same objects, and the length is their number. -/
def LengthRight (prefetch : Bool) (size : Option ℕ) (S : Source α) : Prop :=
  ∀ looks, (looker prefetch size S).outputs (Sliceable.init S) looks = looks.map (Look.spec S.xs)

variable {S : Source α} {s : Sliceable α}

/-- A list over an iterator, before and after iterations. -/
def Fresh (prefetch : Bool) (S : Source α) (s : Sliceable α) : Prop :=
  s = Sliceable.init S ∨ if prefetch then ListPrefetch.Rested S s else Sliceable.Walked S s

/-- Every iteration yields the elements. -/
theorem Fresh.iterate {prefetch : Bool} (h : Fresh prefetch S s) (hc : S.container = false) :
    (dbIterate prefetch S s).1 = some (.ok S.xs) ∧ Fresh prefetch S (dbIterate prefetch S s).2 := by
  cases prefetch with
  | false =>
    have husable : Sliceable.Usable S s := by
      rcases h with rfl | h
      · exact Sliceable.usable_init S
      · refine Sliceable.Walked.usable h fun hcontainer => ?_
        rw [hc] at hcontainer
        cases hcontainer
    exact ⟨husable.iterateAll.1, .inr husable.iterateAll.2⟩
  | true =>
    have hrun : (ListPrefetch.iterateAll S s).1 = some (.ok S.xs) ∧
        ListPrefetch.Rested S (ListPrefetch.iterateAll S s).2 := by
      rcases h with rfl | h
      · exact ListPrefetch.iterateAll_init S
      · exact ListPrefetch.Rested.iterateAll h hc
    exact ⟨hrun.1, .inr hrun.2⟩

/-- An iterator never becomes a container. -/
theorem Fresh.live {prefetch : Bool} (h : Fresh prefetch S s) (hc : S.container = false) :
    s.iterator ≠ .bare := by
  have hf : S.f ≠ .bare := by
    rw [Source.f, hc]
    exact Iterator.live_ne_bare _
  rcases h with rfl | h
  · exact Iterator.live_ne_bare _
  · cases prefetch with
    | false => exact Sliceable.Walked.iterator h ▸ hf
    | true => exact ListPrefetch.Rested.iterator h ▸ hf

/-- Without a size, the length is counted by iterating. -/
theorem Fresh.count {prefetch : Bool} (h : Fresh prefetch S s) (hc : S.container = false)
    (hlength : S.length = none) :
    (dbLen prefetch none S s).1 = some (.ok S.xs.length) ∧
      Fresh prefetch S (dbLen prefetch none S s).2 := by
  obtain ⟨hans, hfresh⟩ := h.iterate hc
  have hlen : dbLen prefetch none S s =
      ((dbIterate prefetch S s).1.map (·.map List.length), (dbIterate prefetch S s).2) := by
    rcases hit : s.iterator with rest | _
    · cases prefetch <;>
        simp only [dbLen, dbIterate, ListPrefetch.len, Sliceable.len, hlength, hit] <;> rfl
    · exact absurd hit (h.live hc)
  rw [hlen, hans]
  exact ⟨rfl, hfresh⟩

/-- The length of a list over an iterator is right exactly if a size that is reported is. -/
theorem lengthRight_iff (prefetch : Bool) (size : Option ℕ) (xs : List α) :
    LengthRight prefetch size (ListPrefetch.source xs false) ↔ ∀ n, size = some n → n = xs.length := by
  refine ⟨?_, ?_⟩
  · rintro h n rfl
    have hlen := h [.len]
    simpa [looker, dbLen, Look.spec, ListPrefetch.source] using hlen
  · intro hsize looks
    refine @Machine.Along.outputs_eq _ _ _ (looker prefetch size (ListPrefetch.source xs false))
      (fun _ _ => True) (Fresh prefetch (ListPrefetch.source xs false)) (Look.spec xs)
      (fun s look hs _ => ?_) _ looks (.inl rfl) (Machine.along_of_forall (fun _ _ => trivial) _ _)
    cases look with
    | len =>
      cases size with
      | none =>
        obtain ⟨hans, hnext⟩ := hs.count rfl rfl
        exact ⟨congrArg Sliceable.Reply.length hans, hnext⟩
      | some n =>
        obtain rfl := hsize n rfl
        exact ⟨rfl, hs⟩
    | iter =>
      obtain ⟨hans, hnext⟩ := hs.iterate rfl
      exact ⟨congrArg Sliceable.Reply.iterated hans, hnext⟩

end Length

section Length

variable {ν ψ α : Type} {C : Collection ν ψ α} {L : QueryLanguage ν ψ} {r : Request ν ψ}

/-- Sorting drops nothing exactly if every document has a value. -/
theorem SortIndex.length_sort_iff (index : SortIndex) (docids : TreeSet ℤ) (reverse : Bool)
    (sortType : Option Str) :
    docids.size = (index.sort docids reverse none sortType).length ↔
      ∀ uid ∈ docids, index.has uid = true := by
  have hperm : (index.sort docids reverse none sortType).Perm (docids.toList.filter index.has) := by
    refine (List.perm_ext_iff_of_nodup (index.nodup_sort _ _ _)
      ((TreeSet.nodup_toList docids).filter _)).mpr fun uid => ?_
    rw [index.mem_sort, List.mem_filter, ExtTreeSet.mem_toList]
  rw [hperm.length_eq, ← ExtTreeSet.length_toList, eq_comm, List.length_filter_eq_length_iff]
  simp only [ExtTreeSet.mem_toList]

/-- What a list is that a query returns. -/
theorem Request.run_dbList {prefetch : Bool} {size : Option ℕ} {S : Source (ℤ × α)}
    (h : r.run C L = .ok (.dbList prefetch size S)) :
    ∃ uids xs, r.find C L none = .ok (size, uids) ∧ xs.length = uids.length ∧
      S = ListPrefetch.source xs false := by
  rcases hlimit : truthy r.limit with _ | limit
  · simp only [Request.run, hlimit] at h
    rcases hfind : r.find C L none with e | ⟨size', uids⟩
    · simp only [hfind] at h
      cases h
    · rcases hload : C.load uids with e | xs
      · simp only [hfind, bind, Except.bind, hload] at h
        cases h
      · simp only [hfind, bind, Except.bind, hload] at h
        cases h
        exact ⟨uids, xs, rfl, Collection.length_load hload, rfl⟩
  · simp only [Request.run, hlimit] at h
    rcases hfind : r.find C L (some (r.skip.getD 0 + limit)) with e | ⟨size', uids⟩
    · simp only [hfind] at h
      cases h
    · rcases hload : C.load (islice uids (r.skip.getD 0) (some (r.skip.getD 0 + limit)) 1) with
        e | xs
      · simp only [hfind, bind, Except.bind, hload] at h
        cases h
      · simp only [hfind, bind, Except.bind, hload] at h
        cases h

/-- **The length of a result, exactly**: it is the number of objects that iterating over the
result yields if and only if the result is not sorted, or every document found has a value in
the index it is sorted by. -/
theorem length_iff (C : Collection ν ψ α) (L : QueryLanguage ν ψ) (r : Request ν ψ)
    {prefetch : Bool} {size : Option ℕ} {S : Source (ℤ × α)}
    (h : r.run C L = .ok (.dbList prefetch size S)) :
    LengthRight prefetch size S ↔
      ∀ name index, r.sorting.by = some name → C.indexes name = some index →
        ∀ found, C.apply (r.query L) r.names = .ok found → ∀ uid ∈ found, index.has uid = true := by
  obtain ⟨uids, xs, hfind, hxs, rfl⟩ := r.run_dbList h
  rw [lengthRight_iff, hxs]
  obtain ⟨found, hfound, hfind⟩ := Request.find_eq_ok.mp hfind
  simp only [hfound, Except.ok.injEq, forall_eq']
  rcases hby : r.sorting.by with _ | name
  · rw [C.sortResult_unsorted _ hby] at hfind
    cases hfind
    refine iff_of_true (fun n hn => ?_) (fun name index hname => ?_)
    · cases hn
    · cases hname
  · rcases hindex : C.indexes name with _ | index
    · rw [C.sortResult_missing _ hby hindex] at hfind
      cases hfind
    · rw [C.sortResult_index _ hby hindex] at hfind
      cases hfind
      have hlength := index.length_sort_iff (ExtTreeSet.ofList found compare) r.sorting.reverse
        r.sorting.sortType
      simp only [TreeSet.mem_ofList] at hlength
      refine ⟨?_, ?_⟩
      · intro hn name' index' hname hindex'
        cases hname
        obtain rfl := Option.some.inj (hindex.symm.trans hindex')
        exact hlength.mp (hn _ rfl)
      · intro hall n hn
        obtain rfl := Option.some.inj hn
        exact hlength.mpr (hall name index rfl hindex)

end Length

/-! ## A collection to run examples on

Three objects with an index that the first of them has no value in. Queries are conjunctions of
sets of ids, and one without operands raises as the real one does. -/

/-- The documents that have a value, sorted by it. -/
def sortValues (value : ℤ → Option ℕ) (docids : TreeSet ℤ) (reverse : Bool) : List ℤ :=
  let sorted := (docids.toList.filter fun uid => (value uid).isSome).insertionSort
    fun x y => (value x).getD 0 ≤ (value y).getD 0
  if reverse then sorted.reverse else sorted

theorem mem_sortValues (value : ℤ → Option ℕ) (docids : TreeSet ℤ) (reverse : Bool) (uid : ℤ) :
    uid ∈ sortValues value docids reverse ↔ uid ∈ docids ∧ (value uid).isSome = true := by
  cases reverse <;> simp [sortValues]

theorem nodup_sortValues (value : ℤ → Option ℕ) (docids : TreeSet ℤ) (reverse : Bool) :
    (sortValues value docids reverse).Nodup := by
  have hnodup : (docids.toList.filter fun uid => (value uid).isSome).Nodup :=
    (TreeSet.nodup_toList docids).filter _
  have hsorted := (List.perm_insertionSort (fun x y => (value x).getD 0 ≤ (value y).getD 0)
    (docids.toList.filter fun uid => (value uid).isSome)).nodup_iff.mpr hnodup
  cases reverse
  · exact hsorted
  · exact List.nodup_reverse.mpr hsorted

theorem take_take_self (n : ℕ) (l : List ℤ) : (l.take n).take n = l.take n := by
  rw [List.take_take, Nat.min_self]

/-- An index that has the values of some documents, and sorts by them. -/
def sortIndexOf (value : ℤ → Option ℕ) : SortIndex where
  has uid := (value uid).isSome
  sort docids reverse limit _ :=
    match limit with
    | none => sortValues value docids reverse
    | some limit => (sortValues value docids reverse).take limit
  mem_sort docids reverse _ uid := mem_sortValues value docids reverse uid
  nodup_sort docids reverse _ := nodup_sortValues value docids reverse
  take_sort docids reverse limit _ := take_take_self limit (sortValues value docids reverse)

/-- Three objects. -/
def threeTree : BTree ℤ Bool := (((∅ : BTree ℤ Bool).insert 1 true).insert 2 false).insert 3 true

/-- Their ranks, which the first does not have. -/
def rank (uid : ℤ) : Option ℕ := if uid = 2 then some 1 else if uid = 3 then some 0 else none

/-- A query object is an `And` of conditions, and a condition the ids that it holds for. -/
def listQueries : QueryLanguage ℕ (List (List ℤ)) where
  eq _ value := [[1, 2, 3].filter fun uid => rank uid = some value]
  and queries := queries.flatten
  conj left right := left ++ right
  optimize := id

/-- `And._apply`: it raises without operands. -/
def applyAnd : List (List ℤ) → Except Exc (List ℤ)
  | [] => .error .indexError
  | ids :: queries => .ok ([1, 2, 3].filter fun uid => uid ∈ ids ∧ ∀ q ∈ queries, uid ∈ q)

theorem applyAnd_stored {query : List (List ℤ)} {uids : List ℤ} (h : applyAnd query = .ok uids) :
    ∀ uid ∈ uids, uid ∈ threeTree := by
  intro uid huid
  cases query with
  | nil => cases h
  | cons ids queries =>
    obtain rfl := Except.ok.inj h
    have hmem := (List.mem_filter.mp huid).1
    simp only [List.mem_cons, List.not_mem_nil, or_false] at hmem
    simp only [threeTree, BTree.mem_insert]
    omega

/-- The objects with an index for their ranks. -/
def threeObjects : Collection ℕ (List (List ℤ)) Bool where
  objects := ⟨threeTree, none, none⟩
  apply query _ := applyAnd query
  indexes name := if name = ['r'] then some (sortIndexOf rank) else none
  stored _ _ _ h := applyAnd_stored h

/-- A query for all three objects, the first of them skipped, gives all three objects. -/
theorem skip_forgotten :
    let r : Request ℕ (List (List ℤ)) :=
      ⟨some [[1, 2, 3]], some 1, none, true, [], [], ⟨none, none, false⟩⟩
    r.objects threeObjects listQueries = some (.ok [(1, true), (2, false), (3, true)]) ∧
      r.page [(1, true), (2, false), (3, true)] = [(2, false), (3, true)] ∧
      ¬Paged threeObjects listQueries r := by
  intro r
  have hall : r.objects threeObjects listQueries =
      some (.ok [(1, true), (2, false), (3, true)]) := by decide +kernel
  have hwhole : r.whole.objects threeObjects listQueries =
      some (.ok [(1, true), (2, false), (3, true)]) := by decide +kernel
  refine ⟨hall, rfl, fun h => ?_⟩
  rw [Paged, hall, hwhole] at h
  exact absurd h (by decide)

/-- A query for all three, sorted by their ranks, yields two of them, and the length is 3. -/
theorem length_of_unranked :
    let r : Request ℕ (List (List ℤ)) :=
      ⟨some [[1, 2, 3]], none, none, false, [], [], ⟨some ['r'], none, false⟩⟩
    let S := ListPrefetch.source [((3 : ℤ), true), (2, false)] false
    r.run threeObjects listQueries = .ok (.dbList false (some 3) S) ∧
      (looker false (some 3) S).outputs (Sliceable.init S) [.len, .iter, .len] =
        [.length (some (.ok 3)), .iterated (some (.ok [(3, true), (2, false)])),
          .length (some (.ok 3))] ∧
      ¬LengthRight false (some 3) S := by
  intro r S
  refine ⟨by rfl, by decide +kernel, fun h => ?_⟩
  have hlen := h [.len]
  exact absurd hlen (by decide +kernel)

/-- The two that have a rank are sorted by it, and counted. -/
theorem length_iff_example :
    let r : Request ℕ (List (List ℤ)) :=
      ⟨some [[2, 3]], none, none, true, [], [], ⟨some ['r'], none, false⟩⟩
    let S := ListPrefetch.source [((3 : ℤ), true), (2, false)] false
    LengthRight true (some 2) S ↔
      ∀ name index, r.sorting.by = some name → threeObjects.indexes name = some index →
        ∀ found, threeObjects.apply (r.query listQueries) r.names = .ok found →
          ∀ uid ∈ found, index.has uid = true :=
  length_iff threeObjects listQueries _ (by rfl)

end Zerodb
