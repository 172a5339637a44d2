import Zerodb.Catalog
import Zerodb.Prefetch

/-!
# FieldScan: range and sorted scans of a field index

A range query chains the entries of the forward index that a `ListPrefetch` yields, in a
`ListPrefetch` of its own; a sorted scan goes over all entries and picks the documents it
was given. Both follow the forward index, while what they should yield is said by the
reverse index: they are right where the representation invariant holds, but for the flags
of a range that has no bound on their side.

`scans_agree`: in every state of a run that keeps the invariant, every walk over a range
yields what it should exactly when the flags do no harm, and so does every sorted scan.
-/

namespace Zerodb

open Std

/-- `NewTreeItems`: entries as tuples or tree sets, a bare docid as a tuple of one. Its
iterators go on with the one iterator it has. -/
def newTreeItems (entries : List Docs) : List (List ℤ) := entries.map Docs.docids

namespace CatalogFieldIndex

variable {V : Type} [PyValue V]

/-! ## Range queries

Two lists are nested: an inner one of the entries in the range, and an outer one of their
documents. Each of them reads ahead, and the function of the outer list makes a new inner one for
each walk. -/

/-- A bound, unless it is `None`. -/
def bound (v : V) : Option V := if v = PyValue.pyNone then none else some v

/-- The inner list of `applyInRange`. -/
def rangeEntries (ix : CatalogFieldIndex V) (start stop : V) (excludemin excludemax : Bool) :
    Source (List ℤ) :=
  ListPrefetch.source
    (newTreeItems (ix.fwdIndex.values (bound start) (bound stop) excludemin excludemax)) false

/-- `applyInRange`: a list whose function chains what a new inner list yields. -/
def applyInRange (ix : CatalogFieldIndex V) (start stop : V) (excludemin excludemax : Bool) :
    Option (Except Exc (Source ℤ)) :=
  let inner := ix.rangeEntries start stop excludemin excludemax
  (ListPrefetch.iterateAll inner (Sliceable.init inner)).1.map
    (·.map fun entries => ListPrefetch.source entries.flatten false)

/-! ## Sorted scans

The loops of `scan_forward` run over entries and over the docids of an entry, with one counter for
both. The limit ends the generator, in the middle of an entry if need be. -/

/-- `limit and n >= limit`. -/
def reached (limit : Option ℕ) (n : ℕ) : Bool :=
  match limit with
  | none | some 0 => false
  | some (l + 1) => l + 1 ≤ n

/-- The loop over the docids of an entry: what it yields, and `n` unless the scan ends. -/
def scanDocids (docids : TreeSet ℤ) (limit : Option ℕ) : ℕ → List ℤ → List ℤ × Option ℕ
  | n, [] => ([], some n)
  | n, docid :: rest =>
    if docid ∈ docids then
      if reached limit (n + 1) then ([docid], none)
      else
        let (yielded, n) := scanDocids docids limit (n + 1) rest
        (docid :: yielded, n)
    else scanDocids docids limit n rest

/-- The loop over the entries. -/
def scanEntries (docids : TreeSet ℤ) (limit : Option ℕ) : ℕ → List Docs → List ℤ
  | _, [] => []
  | n, .int docid :: rest =>
    if docid ∈ docids then
      if reached limit (n + 1) then [docid]
      else docid :: scanEntries docids limit (n + 1) rest
    else scanEntries docids limit n rest
  | n, curdocids :: rest =>
    match scanDocids docids limit n curdocids.docids with
    | (yielded, none) => yielded
    | (yielded, some n) => yielded ++ scanEntries docids limit n rest

/-- `_fwd_index.values()` as a list that reads ahead. -/
def scanSource (ix : CatalogFieldIndex V) : Source Docs :=
  ListPrefetch.source (ix.fwdIndex.values none none false false) true

/-- `scan_forward`. -/
def scanForward (ix : CatalogFieldIndex V) (docids : TreeSet ℤ) (limit : Option ℕ) :
    Option (Except Exc (List ℤ)) :=
  (ListPrefetch.iterateAll ix.scanSource (Sliceable.init ix.scanSource)).1.map
    (·.map (scanEntries docids limit 0))

/-! ## What they should yield

The specification does not mention entries: documents that satisfy a condition on their value,
each once, in order of their values. Documents with one value come in any order. -/

/-- The documents that satisfy a condition, with their values, each once and in order. -/
structure InOrder (ix : CatalogFieldIndex V) (P : ℤ → V → Prop) (ds : List ℤ) : Prop where
  /-- each once -/
  nodup : ds.Nodup
  /-- exactly these -/
  mem_iff : ∀ docid, docid ∈ ds ↔ ∃ value, ix.revIndex[docid]? = some value ∧ P docid value
  /-- in order of their values -/
  sorted : ds.Pairwise fun d d' => ∀ v v', ix.revIndex[d]? = some v → ix.revIndex[d']? = some v' →
    v ≤ v'

/-- Every walk over the result of a range query yields the documents in the range. -/
def RangeRight (ix : CatalogFieldIndex V) (start stop : V) (excludemin excludemax : Bool) : Prop :=
  ∃ S ds, ix.applyInRange start stop excludemin excludemax = some (.ok S) ∧
    InOrder ix (fun _ v => BTree.Within (bound start) (bound stop) excludemin excludemax v) ds ∧
    ∀ n, (ListPrefetch.walker S).outputs (Sliceable.init S) (List.replicate n ()) =
      List.replicate n (some (.ok ds))

/-- A sorted scan yields the given documents that have a value, up to the limit. -/
def ScanRight (ix : CatalogFieldIndex V) (docids : TreeSet ℤ) : Prop :=
  ∃ ds, InOrder ix (fun docid _ => docid ∈ docids) ds ∧
    ix.scanForward docids none = some (.ok ds) ∧
    ∀ limit, 1 ≤ limit → ix.scanForward docids (some limit) = some (.ok (ds.take limit))

/-- A flag has its bound, or there is nothing in the range. -/
def Bounded (ix : CatalogFieldIndex V) (start stop : V) (excludemin excludemax : Bool) : Prop :=
  (bound start = none ∧ excludemin = true ∨ bound stop = none ∧ excludemax = true) →
    ∀ (docid : ℤ) (value : V), ix.revIndex[docid]? = some value →
      ¬BTree.Within (bound start) (bound stop) excludemin excludemax value

/-! ## Entries in order

The forward index has its values in order, the entry of each value has its documents, and no
document is in two entries. So chaining the documents of some entries is `InOrder` for those
values. -/

variable {ix : CatalogFieldIndex V}

theorem mem_toList_iff {e : V × Docs} : e ∈ ix.fwdIndex.toList ↔ ix.fwdIndex[e.1]? = some e.2 :=
  ExtTreeMap.mem_toList_iff_getElem?_eq_some

/-- The documents of some entries, in the order of the forward index. -/
theorem Rep.inOrder (h : Rep ix) {entries : List (V × Docs)}
    (hsub : entries.Sublist ix.fwdIndex.toList) :
    InOrder ix (fun _ value => value ∈ entries.map Prod.fst) (entries.flatMap (·.2.docids)) := by
  have hget : ∀ e ∈ entries, ix.fwdIndex[e.1]? = some e.2 :=
    fun e he => mem_toList_iff.mp (hsub.subset he)
  have hrev : ∀ e ∈ entries, ∀ d ∈ e.2.docids, ix.revIndex[d]? = some e.1 :=
    fun e he d hd => h.mem_rev (hget e he) (Docs.mem_docids.mp hd)
  have hord : entries.Pairwise fun x y => x.1 < y.1 := (BTree.pairwise_lt_toList _).sublist hsub
  refine ⟨?_, fun docid => ?_, ?_⟩
  · refine List.nodup_flatMap.mpr ⟨fun e he => (h.wf _ _ (hget e he)).nodup, ?_⟩
    refine hord.imp_of_mem fun hx hy hlt d hdx hdy => ?_
    have heq := (hrev _ hx d hdx).symm.trans (hrev _ hy d hdy)
    exact hlt.ne (Option.some.inj heq)
  · rw [List.mem_flatMap]
    refine ⟨?_, ?_⟩
    · rintro ⟨e, he, hd⟩
      exact ⟨e.1, hrev e he docid hd, List.mem_map_of_mem he⟩
    · rintro ⟨value, hvalue, hmem⟩
      obtain ⟨e, he, rfl⟩ := List.mem_map.mp hmem
      obtain ⟨ds, hds, hd⟩ := (h.mem_iff docid e.1).mp hvalue
      obtain rfl := Option.some.inj ((hget e he).symm.trans hds)
      exact ⟨e, he, Docs.mem_docids.mpr hd⟩
  · refine List.pairwise_flatMap.mpr ⟨fun e he => ?_, ?_⟩
    · refine List.Pairwise.imp_of_mem (fun hd hd' _ v v' hv hv' => ?_) (List.pairwise_of_forall
        (fun _ _ => trivial) : e.2.docids.Pairwise fun _ _ => True)
      rw [hrev e he _ hd] at hv
      rw [hrev e he _ hd'] at hv'
      rw [← Option.some.inj hv, ← Option.some.inj hv']
    · refine hord.imp_of_mem fun hx hy hlt d hd d' hd' v v' hv hv' => ?_
      rw [hrev _ hx d hd] at hv
      rw [hrev _ hy d' hd'] at hv'
      rw [← Option.some.inj hv, ← Option.some.inj hv']
      exact hlt.le

theorem InOrder.congr {P Q : ℤ → V → Prop} {ds : List ℤ} (h : InOrder ix P ds)
    (hPQ : ∀ (docid : ℤ) (value : V), ix.revIndex[docid]? = some value →
      (P docid value ↔ Q docid value)) :
    InOrder ix Q ds := by
  refine ⟨h.nodup, fun docid => (h.mem_iff docid).trans ?_, h.sorted⟩
  refine ⟨?_, ?_⟩
  · rintro ⟨value, hvalue, hp⟩
    exact ⟨value, hvalue, (hPQ docid value hvalue).mp hp⟩
  · rintro ⟨value, hvalue, hq⟩
    exact ⟨value, hvalue, (hPQ docid value hvalue).mpr hq⟩

/-! ## Range queries are right

Every walk yields the documents of the entries within the range, by what `Prefetch` says of its
lists and `Walks` of walks. That is right if the range of the tree is the one that was meant. A
flag on a side without a bound excludes the first or the last value there is. -/

section Range

variable {start stop : V} {excludemin excludemax : Bool}

omit [PyValue V] in
theorem flatten_newTreeItems (items : List (V × Docs)) :
    (newTreeItems (items.map Prod.snd)).flatten = items.flatMap (·.2.docids) := by
  rw [newTreeItems, List.map_map, ← List.flatMap_def]
  rfl

/-- A range query gives the list of the documents of its items. -/
theorem applyInRange_eq (ix : CatalogFieldIndex V) (start stop : V) (excludemin excludemax : Bool) :
    ix.applyInRange start stop excludemin excludemax = some (.ok (ListPrefetch.source
      ((ix.fwdIndex.items (bound start) (bound stop) excludemin excludemax).flatMap
        (·.2.docids)) false)) := by
  have hwalk := (ListPrefetch.iterateAll_init
    (ix.rangeEntries start stop excludemin excludemax)).1
  rw [← flatten_newTreeItems]
  simp only [applyInRange, hwalk]
  rfl

/-- What every walk over the result yields. -/
theorem rangeRight_iff : ix.RangeRight start stop excludemin excludemax ↔
    InOrder ix (fun _ v => BTree.Within (bound start) (bound stop) excludemin excludemax v)
      ((ix.fwdIndex.items (bound start) (bound stop) excludemin excludemax).flatMap
        (·.2.docids)) := by
  refine ⟨?_, ?_⟩
  · rintro ⟨S, ds, happly, hds, hwalks⟩
    rw [applyInRange_eq] at happly
    obtain rfl := Except.ok.inj (Option.some.inj happly)
    have hone := hwalks 1
    rw [ListPrefetch.walks_eq rfl] at hone
    obtain ⟨heq, -⟩ := List.cons.inj hone
    rw [← Except.ok.inj (Option.some.inj heq)] at hds
    exact hds
  · intro h
    exact ⟨_, _, applyInRange_eq .., h, fun n => ListPrefetch.walks_eq rfl n⟩

/-- A value that documents have is a key of the forward index. -/
theorem Rep.mem_toList (h : Rep ix) {docid : ℤ} {value : V}
    (hvalue : ix.revIndex[docid]? = some value) :
    ∃ ds, (value, ds) ∈ ix.fwdIndex.toList ∧ docid ∈ ds := by
  obtain ⟨ds, hds, hd⟩ := (h.mem_iff docid value).mp hvalue
  exact ⟨ds, mem_toList_iff.mpr hds, hd⟩

/-- Where the flags have their bounds, the items of a range are those within. -/
theorem Rep.mem_items_iff (h : Rep ix) (hb : ix.Bounded start stop excludemin excludemax) {docid : ℤ}
    {value : V} (hvalue : ix.revIndex[docid]? = some value) :
    value ∈ (ix.fwdIndex.items (bound start) (bound stop) excludemin excludemax).map Prod.fst ↔
      BTree.Within (bound start) (bound stop) excludemin excludemax value := by
  refine ⟨?_, ?_⟩
  · intro hmem
    obtain ⟨e, he, rfl⟩ := List.mem_map.mp hmem
    exact BTree.within_of_mem_items _ he
  · intro hwithin
    have hflags : ¬(bound start = none ∧ excludemin = true ∨ bound stop = none ∧ excludemax = true) :=
      fun hflag => hb hflag docid value hvalue hwithin
    obtain ⟨ds, hds, -⟩ := h.mem_toList hvalue
    rw [BTree.items_eq_filter _ (fun hf => hflags (.inl hf)) fun hf => hflags (.inr hf)]
    exact List.mem_map.mpr ⟨(value, ds), List.mem_filter.mpr ⟨hds, decide_eq_true hwithin⟩, rfl⟩

/-- An entry of the forward index is missed by a range that should have it. -/
theorem Rep.not_rangeRight (h : Rep ix) {e : V × Docs} (he : e ∈ ix.fwdIndex.toList)
    (hwithin : BTree.Within (bound start) (bound stop) excludemin excludemax e.1)
    (hmiss : ∀ x ∈ ix.fwdIndex.items (bound start) (bound stop) excludemin excludemax, x.1 ≠ e.1) :
    ¬ix.RangeRight start stop excludemin excludemax := by
  intro hright
  have hget := mem_toList_iff.mp he
  obtain ⟨docid, hd⟩ := (h.wf _ _ hget).nonempty
  have hrev := h.mem_rev hget hd
  have hmem := ((rangeRight_iff.mp hright).mem_iff docid).mpr ⟨e.1, hrev, hwithin⟩
  obtain ⟨value, hvalue, hkey⟩ :=
    ((h.inOrder (BTree.items_sublist ix.fwdIndex)).mem_iff docid).mp hmem
  obtain ⟨x, hx, rfl⟩ := List.mem_map.mp hkey
  exact hmiss x hx (Option.some.inj (hvalue.symm.trans hrev))

/-- **Range queries**: every walk yields the documents in the range, each once and in
order of their values, exactly when the flags of the range have their bounds. -/
theorem Rep.rangeRight_iff_bounded (h : Rep ix) :
    ix.RangeRight start stop excludemin excludemax ↔
      ix.Bounded start stop excludemin excludemax := by
  refine ⟨?_, ?_⟩
  · intro hright hflag docid value hvalue hwithin
    obtain ⟨ds, hds, -⟩ := h.mem_toList hvalue
    have hord := BTree.pairwise_lt_toList ix.fwdIndex
    rcases hflag with hflag | hflag
    · -- the smallest key is missed
      obtain ⟨e, rest, hlist⟩ := List.exists_cons_of_ne_nil (List.ne_nil_of_mem hds)
      have hle : e.1 ≤ value := by
        rw [hlist] at hds hord
        rcases List.mem_cons.mp hds with rfl | hrest
        · exact le_rfl
        · exact ((List.pairwise_cons.mp hord).1 _ hrest).le
      refine h.not_rangeRight (hlist ▸ List.mem_cons_self) ⟨fun a ha => ?_, fun b hb => ?_⟩
        (fun x hx => (BTree.head_not_mem_items _ hlist hflag x hx).ne') hright
      · rw [hflag.1] at ha
        exact absurd ha (Option.not_mem_none a)
      · obtain ⟨hb₁, hb₂⟩ := hwithin.2 b hb
        exact ⟨hle.trans hb₁, fun hex => (hle.trans_lt (hb₁.lt_of_ne (hb₂ hex))).ne⟩
    · -- the largest key is missed
      obtain ⟨front, e, hlist⟩ := List.eq_nil_or_concat' ix.fwdIndex.toList |>.resolve_left
        (List.ne_nil_of_mem hds)
      have hle : value ≤ e.1 := by
        rw [hlist] at hds hord
        rcases List.mem_append.mp hds with hfront | hlast
        · exact ((List.pairwise_append.mp hord).2.2 _ hfront e (List.mem_singleton_self e)).le
        · rw [List.mem_singleton] at hlast
          rw [← hlast]
      refine h.not_rangeRight (hlist ▸ by simp) ⟨fun a ha => ?_, fun b hb => ?_⟩
        (fun x hx => (BTree.last_not_mem_items _ hlist hflag x hx).ne) hright
      · obtain ⟨ha₁, ha₂⟩ := hwithin.1 a ha
        exact ⟨ha₁.trans hle, fun hex => ((ha₁.lt_of_ne (ha₂ hex)).trans_le hle).ne⟩
      · rw [hflag.1] at hb
        exact absurd hb (Option.not_mem_none b)
  · intro hb
    refine rangeRight_iff.mpr ((h.inOrder (BTree.items_sublist ix.fwdIndex)).congr ?_)
    intro docid value hvalue
    exact h.mem_items_iff hb hvalue

end Range

/-! ## Sorted scans are right

The two loops together are one cut: of all documents, those that were given, up to the limit. The
induction is on the entries with the counter generalised, and `cut` is what is left to yield. -/

/-- What is left of a scan when `n` documents have been yielded. -/
def cut (limit : Option ℕ) (n : ℕ) (ds : List ℤ) : List ℤ :=
  match limit with
  | none | some 0 => ds
  | some (l + 1) => ds.take (l + 1 - n)

/-- Has the scan more to yield? -/
def Going (limit : Option ℕ) (n : ℕ) : Prop := reached limit n = false

theorem reached_iff {l n : ℕ} : reached (some (l + 1)) n = true ↔ l + 1 ≤ n := by
  simp [reached]

/-- One more document: the scan ends with it or goes on. -/
theorem cut_cons {limit : Option ℕ} {n : ℕ} (hg : Going limit n) (docid : ℤ) (ds : List ℤ) :
    cut limit n (docid :: ds) =
      if reached limit (n + 1) then [docid] else docid :: cut limit (n + 1) ds := by
  rcases limit with _ | _ | l
  · rfl
  · rfl
  · have hn : n < l + 1 := by
      rw [Going, Bool.eq_false_iff, ne_eq, reached_iff] at hg
      omega
    obtain ⟨m, hm⟩ : ∃ m, l + 1 - n = m + 1 := ⟨l - n, by omega⟩
    have hm' : l + 1 - (n + 1) = m := by omega
    simp only [cut, hm, hm', List.take_succ_cons]
    by_cases hend : reached (some (l + 1)) (n + 1) = true
    · rw [if_pos hend]
      rw [reached_iff] at hend
      have hzero : m = 0 := by omega
      rw [hzero, List.take_zero]
    · rw [if_neg hend]

/-- The loop over the docids of an entry, and what the scan yields with what comes after. -/
theorem scanDocids_spec {docids : TreeSet ℤ} {limit : Option ℕ} {n : ℕ} (hg : Going limit n)
    (ds rest : List ℤ) :
    cut limit n (ds.filter (· ∈ docids) ++ rest) =
      (match scanDocids docids limit n ds with
        | (yielded, none) => yielded
        | (yielded, some n) => yielded ++ cut limit n rest) ∧
      ∀ m ∈ (scanDocids docids limit n ds).2, Going limit m := by
  induction ds generalizing n with
  | nil =>
    refine ⟨rfl, fun m hm => ?_⟩
    obtain rfl : n = m := Option.some.inj hm
    exact hg
  | cons docid ds ih =>
    by_cases hmem : docid ∈ docids
    · rw [List.filter_cons_of_pos (by simpa using hmem), List.cons_append, cut_cons hg, scanDocids,
        if_pos hmem]
      by_cases hend : reached limit (n + 1) = true
      · rw [if_pos hend, if_pos hend]
        exact ⟨rfl, fun m hm => absurd hm (Option.not_mem_none m)⟩
      · rw [if_neg hend, if_neg hend]
        obtain ⟨heq, hgoing⟩ := @ih (n + 1) (Bool.eq_false_iff.mpr hend)
        rw [heq]
        rcases hscan : scanDocids docids limit (n + 1) ds with ⟨yielded, _ | m⟩
        · exact ⟨rfl, fun m hm => absurd hm (Option.not_mem_none m)⟩
        · rw [hscan] at hgoing
          exact ⟨rfl, hgoing⟩
    · rw [List.filter_cons_of_neg (by simpa using hmem), scanDocids, if_neg hmem]
      exact ih hg

/-- A bare docid is scanned as a tuple of one. -/
theorem scanEntries_cons (docids : TreeSet ℤ) (limit : Option ℕ) (n : ℕ) (entry : Docs)
    (rest : List Docs) : scanEntries docids limit n (entry :: rest) =
      match scanDocids docids limit n entry.docids with
      | (yielded, none) => yielded
      | (yielded, some n) => yielded ++ scanEntries docids limit n rest := by
  cases entry with
  | int docid =>
    rw [scanEntries, Docs.docids, scanDocids]
    by_cases hmem : docid ∈ docids
    · rw [if_pos hmem, if_pos hmem]
      by_cases hend : reached limit (n + 1) = true
      · rw [if_pos hend, if_pos hend]
      · rw [if_neg hend, if_neg hend]
        rfl
    · rw [if_neg hmem, if_neg hmem]
      rfl
  | tuple l => rfl
  | treeSet s => rfl

/-- The whole scan. -/
theorem scanEntries_eq {docids : TreeSet ℤ} {limit : Option ℕ} {n : ℕ} (hg : Going limit n)
    (entries : List Docs) : scanEntries docids limit n entries =
      cut limit n ((entries.flatMap Docs.docids).filter (· ∈ docids)) := by
  induction entries generalizing n with
  | nil => rcases limit with _ | _ | l <;> simp [scanEntries, cut]
  | cons entry rest ih =>
    obtain ⟨heq, hgoing⟩ := @scanDocids_spec docids limit n hg entry.docids
      ((rest.flatMap Docs.docids).filter (· ∈ docids))
    rw [scanEntries_cons, List.flatMap_cons, List.filter_append, heq]
    rcases hscan : scanDocids docids limit n entry.docids with ⟨yielded, _ | m⟩
    · rfl
    · rw [hscan] at hgoing
      simp only [ih (hgoing m rfl)]

theorem scanForward_eq (ix : CatalogFieldIndex V) (docids : TreeSet ℤ) (limit : Option ℕ) :
    ix.scanForward docids limit = some (.ok (cut limit 0
      ((ix.fwdIndex.toList.flatMap (·.2.docids)).filter (· ∈ docids)))) := by
  have hwalk := (ListPrefetch.iterateAll_init ix.scanSource).1
  have hall : ix.fwdIndex.values none none false false = ix.fwdIndex.toList.map Prod.snd := by
    rw [BTree.values, BTree.items_eq_filter _ (by simp) (by simp)]
    congr 1
    exact List.filter_eq_self.mpr fun e _ => decide_eq_true ⟨by simp, by simp⟩
  have hg : Going limit 0 := by rcases limit with _ | _ | l <;> simp [Going, reached]
  rw [scanForward, hwalk, ← List.flatMap_map Prod.snd Docs.docids, ← hall, ← scanEntries_eq hg]
  rfl

/-- **Sorted scans** yield the given documents that have a value, each once and in order
of their values, up to the limit. -/
theorem Rep.scanRight (h : Rep ix) (docids : TreeSet ℤ) : ix.ScanRight docids := by
  have hall := h.inOrder (List.Sublist.refl ix.fwdIndex.toList)
  refine ⟨(ix.fwdIndex.toList.flatMap (·.2.docids)).filter (· ∈ docids),
    ⟨hall.nodup.filter _, fun docid => ?_, hall.sorted.filter _⟩, scanForward_eq .., ?_⟩
  · rw [List.mem_filter, hall.mem_iff, decide_eq_true_iff]
    refine ⟨?_, ?_⟩
    · rintro ⟨⟨value, hvalue, -⟩, hd⟩
      exact ⟨value, hvalue, hd⟩
    · rintro ⟨value, hvalue, hd⟩
      obtain ⟨ds, hds, -⟩ := h.mem_toList hvalue
      exact ⟨⟨value, hvalue, List.mem_map.mpr ⟨_, hds, rfl⟩⟩, hd⟩
  · intro limit hlimit
    obtain ⟨l, rfl⟩ := Nat.exists_eq_add_of_le' hlimit
    rw [scanForward_eq]
    rfl

/-! ## Histories

The invariant is kept by undisturbed calls, which include those that go through zope.index when a
document has lost its value. In each state reached, the two sections before apply. -/

/-- A call on the index from outside. -/
inductive Op (V : Type) where
  /-- `inner_index_doc` or `unindex_doc` -/
  | call : Call V → Op V
  /-- `index_doc`, for the value of the attribute, or the marker if there is none -/
  | indexDoc : ℤ → V → Op V

/-- The index with these calls, which may raise. -/
def opMachine : Machine (CatalogFieldIndex V) (Op V) (Except Exc Unit)
  | ix, .call c => (.ok (), (machine ix c).2)
  | ix, .indexDoc docid value => indexDoc docid value ix

/-- Is the entry a tree set? -/
def isTreeSet : Docs → Bool
  | .treeSet _ => true
  | _ => false

/-- The calls that keep the invariant: none moves a document from the empty tuple to another
value, and a document that has lost its attribute is taken out of a tree set. -/
def Undisturbed (ix : CatalogFieldIndex V) : Op V → Prop
  | .call c => Sound ix c
  | .indexDoc docid value =>
    if value = marker then
      ∀ old ∈ ix.revIndex[docid]?, ∀ ds ∈ ix.fwdIndex[old]?, isTreeSet ds = true
    else
      PyValue.persistent value = false → PyValue.broken value = false →
        Sound ix (.innerIndexDoc docid value)

instance (ix : CatalogFieldIndex V) : DecidablePred (Undisturbed ix)
  | .call c => inferInstanceAs (Decidable (Sound ix c))
  | .indexDoc _ _ => inferInstanceAs (Decidable (ite _ _ _))

/-- zope.index's `unindex_doc` keeps the invariant where it finds a tree set. -/
theorem Rep.superUnindexDoc (h : Rep ix) {docid : ℤ}
    (hset : ∀ old ∈ ix.revIndex[docid]?, ∀ ds ∈ ix.fwdIndex[old]?, isTreeSet ds = true) :
    (CatalogFieldIndex.superUnindexDoc docid ix).1 = .ok () ∧
      Rep (CatalogFieldIndex.superUnindexDoc docid ix).2 := by
  rw [CatalogFieldIndex.superUnindexDoc, Py.get_bind_apply]
  rcases hrev : ix.revIndex[docid]? with _ | old
  · exact ⟨rfl, h⟩
  · obtain ⟨ds, hds, hd⟩ := (h.mem_iff docid old).mp hrev
    have htree := hset old hrev ds hds
    have hentry : removeEntry docid old { ix with revIndex := ix.revIndex.erase docid } =
        (.ok (), { ix with
          revIndex := ix.revIndex.erase docid
          fwdIndex := dropFwd ix.fwdIndex docid old }) := by
      rw [removeEntry, Py.get_bind_apply]
      cases ds with
      | int k => cases htree
      | tuple l => cases htree
      | treeSet s =>
        simp only [hds]
        rfl
    simp only
    rw [Py.modify_bind_apply, Py.bind_of_ok hentry]
    exact ⟨rfl, h.drop hrev ix.notIndexed⟩

/-- `index_doc` keeps the invariant. -/
theorem Rep.indexDoc (h : Rep ix) {docid : ℤ} {value : V}
    (hu : Undisturbed ix (.indexDoc docid value)) :
    Rep (CatalogFieldIndex.indexDoc docid value ix).2 := by
  by_cases hv : value = marker
  · rw [Undisturbed, if_pos hv] at hu
    obtain ⟨hok, hrep⟩ := h.superUnindexDoc hu
    rw [CatalogFieldIndex.indexDoc, if_pos hv]
    rcases hrun : CatalogFieldIndex.superUnindexDoc docid ix with ⟨result, ix'⟩
    rw [hrun] at hok hrep
    obtain rfl : result = .ok () := hok
    rw [Py.bind_of_ok hrun]
    exact hrep.notIndexed _
  · rw [Undisturbed, if_neg hv] at hu
    rw [CatalogFieldIndex.indexDoc, if_neg hv, checkValue]
    by_cases hp : PyValue.persistent value = true
    · rw [if_pos hp]
      exact h
    · by_cases hb : PyValue.broken value = true
      · rw [if_neg hp, if_pos hb]
        exact h
      · rw [if_neg hp, if_neg hb]
        exact (h.notIndexed _).innerIndexDoc
          (hu (Bool.eq_false_iff.mpr hp) (Bool.eq_false_iff.mpr hb))

theorem Rep.step (h : Rep ix) {op : Op V} (hu : Undisturbed ix op) : Rep (opMachine ix op).2 := by
  cases op with
  | call c => exact (rep_step_iff h c).mpr hu
  | indexDoc docid value => exact h.indexDoc hu

/-- **Scans agree with the reverse index**: in every state of an undisturbed history, all
walks over a range yield the documents whose value is in it exactly when its flags have
their bounds, and every sorted scan yields the documents it was given that have a value. -/
theorem scans_agree (ops : List (Op V))
    (h : opMachine.Along Undisturbed (empty : CatalogFieldIndex V) ops) :
    ∀ ix ∈ opMachine.states (empty : CatalogFieldIndex V) ops,
      (∀ start stop excludemin excludemax, ix.RangeRight start stop excludemin excludemax ↔
        ix.Bounded start stop excludemin excludemax) ∧
      ∀ docids, ix.ScanRight docids := by
  intro ix hix
  have hrep : Rep ix := h.states_inv (fun _ _ hrep hu => hrep.step hu) rep_empty ix hix
  exact ⟨fun _ _ _ _ => hrep.rangeRight_iff_bounded, hrep.scanRight⟩

/-- Two documents in the order of their values, after one has changed its value. -/
theorem scans_agree_example :
    (opMachine.final (empty : CatalogFieldIndex TupleValue)
      [.indexDoc 1 ([5] : List ℤ), .indexDoc 2 ([3] : List ℤ), .indexDoc 1 ([2] : List ℤ)]).ScanRight
        ((∅ : TreeSet ℤ).insert 1) :=
  (scans_agree [.indexDoc 1 (([5] : List ℤ) : TupleValue), .indexDoc 2 ([3] : List ℤ),
    .indexDoc 1 ([2] : List ℤ)] (by decide +kernel) _ (Machine.final_mem_states _ _ _)).2 _

/-- Three ranges without bounds that are not what they should be: of a document that was
moved from the empty tuple, of one that has lost its attribute, and of one with an
excluded minimum. -/
theorem range_disagrees :
    ¬(opMachine.final (empty : CatalogFieldIndex TupleValue)
      [.call (.innerIndexDoc 1 marker), .call (.innerIndexDoc 1 ([1] : List ℤ))]).RangeRight
        PyValue.pyNone PyValue.pyNone false false ∧
    ¬(opMachine.final (empty : CatalogFieldIndex TupleValue)
      [.indexDoc 1 ([1] : List ℤ), .indexDoc 1 marker]).RangeRight
        PyValue.pyNone PyValue.pyNone false false ∧
    ¬(opMachine.final (empty : CatalogFieldIndex TupleValue)
      [.indexDoc 1 ([1] : List ℤ)]).RangeRight PyValue.pyNone PyValue.pyNone true false := by
  refine ⟨fun h => absurd (rangeRight_iff.mp h).nodup (by decide +kernel), fun h => ?_, fun h => ?_⟩
  · have hmem := ((rangeRight_iff.mp h).mem_iff 1).mp (by decide +kernel)
    obtain ⟨value, hvalue, -⟩ := hmem
    have hnone : (opMachine.final (empty : CatalogFieldIndex TupleValue)
      [.indexDoc 1 ([1] : List ℤ), .indexDoc 1 marker]).revIndex[(1 : ℤ)]? = none := by decide +kernel
    exact absurd (hvalue.symm.trans hnone) (Option.some_ne_none value)
  · have hmem := ((rangeRight_iff.mp h).mem_iff 1).mpr
      ⟨(([1] : List ℤ) : TupleValue), by decide +kernel, by decide +kernel⟩
    exact absurd hmem (by decide +kernel)

end CatalogFieldIndex

end Zerodb
