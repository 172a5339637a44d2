import Zerodb.TextLucene

/-!
# RankedUnion: the incremental ranked union

`mass_weightedUnion` merges the trees of several words, each a sorted set of pairs
`(-score, docid)` with a weight, into documents ordered roughly by their total score.
It reads every tree through an iterator into a small cache per tree, keeps the sums of
the cached scores in a sorted set, and yields from a window of its first elements.

`complete_iff_safe` says when it yields every document once: when at none of the
states the main loop starts from one of four branches goes wrong (`Safe`).
-/

namespace Zerodb

namespace RankedUnion

variable {K : Type} [Field K] [LinearOrder K]

/-! ## Data

The variables of `mass_weightedUnion`, gathered in records: a `Term` for what is indexed by the
trees, a `Pool` for all trees with the sums, and a `State` with the window and the counters of the
main loop. -/

/-- A tree of a word with its weight, as the union expects it. -/
structure WeightedTree (K : Type) [Field K] [LinearOrder K] where
  /-- the pairs `(-score, docid)` -/
  tree : TreeSet (Posting K)
  /-- the weight -/
  weight : K
  /-- there are some -/
  nonempty : tree.toList ≠ []
  /-- scores are positive -/
  score_pos : ∀ p ∈ tree.toList, 0 < -p.score
  /-- no document occurs twice -/
  docid_unique : (tree.toList.map Posting.docid).Nodup
  /-- the weight is positive -/
  weight_pos : 0 < weight

/-- What the loop keeps for each tree. -/
structure Term (K : Type) [Field K] [LinearOrder K] where
  /-- the tree and its weight -/
  source : WeightedTree K
  /-- the iterator over the tree, with what it still yields; deleted once exhausted -/
  iter : Option (List (Posting K))
  /-- `unread_max` -/
  unreadMax : K
  /-- the cache: document to weighted score -/
  cache : BTree ℤ K

/-- What the loop keeps for all trees together. -/
structure Pool (K : Type) [LinearOrder K] where
  /-- documents already yielded -/
  used : TreeSet ℤ
  /-- `mins_dict`: document to the sum of its cached scores -/
  minsDict : BTree ℤ K
  /-- `sorted_mins`: the same, as pairs `(-min_weight, docid)` -/
  sortedMins : TreeSet (Posting K)
  /-- `docid2cacheid`: document to the caches it was put into -/
  cacheIds : BTree ℤ (List ℕ)

/-- An element of the window: a document with the bounds of its weight. -/
structure Entry (K : Type) where
  /-- the document -/
  docid : ℤ
  /-- the element of `mins` -/
  minw : K
  /-- the element of `maxs` -/
  maxw : K

/-- The variables of the main loop. -/
structure State (K : Type) [Field K] [LinearOrder K] where
  /-- per tree -/
  terms : List (Term K)
  /-- for all trees -/
  pool : Pool K
  /-- `cache_len` -/
  cacheLen : Option ℤ
  /-- `docids`, `mins` and `maxs` -/
  window : List (Entry K)

/-- `cache_size`. -/
def cacheSize : ℕ := 40

/-- `order_size`. -/
def orderSize : ℕ := 15

/-- `order_violation`. -/
def orderViolation : ℕ := 3

/-! ## Reading into the caches

A fill-up stops when half of a cache is filled, or its iterator is at its end. How much is cached
is counted only when something has been filled up, so that `cache_len` can be out of date. -/

/-- A pair is read for a tree: its score is added to the document's sum. -/
def Pool.addScore (i : ℕ) (docid : ℤ) (score : K) (pool : Pool K) : Except Exc (Pool K) :=
  let total := pool.minsDict[docid]?.getD 0 + score
  let cacheIds := pool.cacheIds.insert docid (pool.cacheIds[docid]?.getD [] ++ [i])
  match pool.minsDict[docid]? with
  | none => .ok { pool with
      cacheIds := cacheIds
      minsDict := pool.minsDict.insert docid total
      sortedMins := pool.sortedMins.insert ⟨-total, docid⟩ }
  | some old =>
    if (⟨-old, docid⟩ : Posting K) ∈ pool.sortedMins then
      .ok { pool with
        cacheIds := cacheIds
        minsDict := pool.minsDict.insert docid total
        sortedMins := (pool.sortedMins.erase ⟨-old, docid⟩).insert ⟨-total, docid⟩ }
    else .error .keyError

/-- `unread_max[i]` after a score has been read. -/
def Term.lower (score : K) (t : Term K) : Term K :=
  { t with unreadMax := if score < t.unreadMax then score else t.unreadMax }

/-- `precache(i, size)`, for an integer size. -/
def precache (i : ℕ) : ℕ → Term K → Pool K → Except Exc (Term K × Pool K)
  | 0, t, pool => .ok (t, pool)
  | size + 1, t, pool =>
    match t.iter with
    | none => .error .keyError
    | some [] => .ok ({ t with iter := none, unreadMax := 0 }, pool)
    | some (p :: rest) =>
      let score := -p.score * t.source.weight
      let t := { t.lower score with iter := some rest }
      if p.docid ∈ pool.used then precache i size t pool
      else
        match pool.addScore i p.docid score with
        | .error e => .error e
        | .ok pool => precache i size { t with cache := t.cache.insert p.docid score } pool

/-- The loop that fills up the caches of the live iterators, from tree `i` on; it also
says whether it has filled any. `len(cache) < cache_size / 2` compares with 20.0. -/
def refill : ℕ → List (Term K) → Pool K → Except Exc (Bool × List (Term K) × Pool K)
  | _, [], pool => .ok (false, [], pool)
  | i, t :: terms, pool =>
    if t.iter.isSome = true ∧ 2 * t.cache.size < cacheSize then
      match precache i (cacheSize - t.cache.size) t pool with
      | .error e => .error e
      | .ok (t, pool) =>
        match refill (i + 1) terms pool with
        | .error e => .error e
        | .ok (_, terms, pool) => .ok (true, t :: terms, pool)
    else
      match refill (i + 1) terms pool with
      | .error e => .error e
      | .ok (updated, terms, pool) => .ok (updated, t :: terms, pool)

/-- `sum(map(len, caches))`. -/
def cachedCount (terms : List (Term K)) : ℕ := (terms.map (·.cache.size)).sum

/-- The beginning of the main loop. -/
def prepare (s : State K) : Except Exc (Bool × State K) :=
  match refill 0 s.terms s.pool with
  | .error e => .error e
  | .ok (updated, terms, pool) =>
    .ok (updated, { s with
      terms := terms
      pool := pool
      cacheLen := if updated then some (cachedCount terms) else s.cacheLen })

/-! ## The window

A window has the first elements of the sorted sums. It is kept from round to round, until a cache
is filled up or fewer than three of its elements are left, with more than three cached. -/

/-- Is the window computed again? -/
def Refreshes (updated : Bool) (s : State K) : Prop :=
  updated = true ∨ (∃ n ∈ s.cacheLen, (orderViolation : ℤ) < n) ∧ s.window.length < orderViolation

instance (updated : Bool) (s : State K) : Decidable (Refreshes updated s) :=
  inferInstanceAs (Decidable (_ ∨ _))

/-- `sum(unread_max)`. -/
def maxSum (terms : List (Term K)) : K := (terms.map Term.unreadMax).sum

/-- The window on the first elements of `sorted_mins`. -/
def freshWindow (s : State K) : List (Entry K) :=
  (s.pool.sortedMins.toList.take orderSize).map fun p =>
    let known := (s.pool.cacheIds[p.docid]?.getD []).map fun i =>
      (s.terms[i]?.map Term.unreadMax).getD 0
    ⟨p.docid, -p.score, maxSum s.terms - known.sum - p.score⟩

/-- Can the order of the window be violated, by its own elements or by others? -/
def violated (terms : List (Term K)) (window : List (Entry K)) : Bool :=
  (List.range (window.length - orderViolation - 1)).any (fun i =>
    (window.drop (i + orderViolation)).any fun e =>
      (window[i]?).any fun f => decide (f.minw < e.maxw)) ||
  (decide (window.length = orderSize) &&
    (window[window.length - orderViolation]?).any fun f => decide (f.minw < maxSum terms))

/-- The computation of the window. When its order can be violated it calls
`precache` with the size `cache_size / 2`, which is 20.0 and no argument for
`range`. -/
def refresh (s : State K) : Except Exc (List (Entry K)) :=
  if violated s.terms (freshWindow s) = true then .error .typeError else .ok (freshWindow s)

/-! ## Yielding

The first document of the window is taken out of all caches. A round that raises ends the
generator, whatever is left. -/

/-- A document is taken out of a cache. When its score was the bound of the unread
ones, the bound becomes the largest score left, of which there must be one. -/
def Term.take (docid : ℤ) (t : Term K) : Except Exc (Term K) :=
  match t.cache[docid]? with
  | none => .ok t
  | some score =>
    let cache := t.cache.erase docid
    if score = t.unreadMax then
      match (cache.toList.map Prod.snd).max? with
      | none => .error (.valueError "max() arg is an empty sequence")
      | some m => .ok { t with cache := cache, unreadMax := m }
    else .ok { t with cache := cache }

/-- The loop that takes a document out of all caches. -/
def takeAll (docid : ℤ) : List (Term K) → Except Exc (List (Term K))
  | [] => .ok []
  | t :: terms =>
    match t.take docid with
    | .error e => .error e
    | .ok t =>
      match takeAll docid terms with
      | .error e => .error e
      | .ok terms => .ok (t :: terms)

/-- How many caches hold a document. -/
def holders (docid : ℤ) (terms : List (Term K)) : ℕ := terms.countP fun t => decide (docid ∈ t.cache)

/-- The end of the main loop for a document: it is yielded, and no longer kept. -/
def yieldEntry (e : Entry K) (window : List (Entry K)) (s : State K) :
    Except Exc ((ℤ × K) × State K) :=
  match takeAll e.docid s.terms with
  | .error exc => .error exc
  | .ok terms =>
    if (⟨-e.minw, e.docid⟩ : Posting K) ∈ s.pool.sortedMins ∧ e.docid ∈ s.pool.minsDict then
      .ok ((e.docid, (e.minw + e.maxw) / 2), {
        terms := terms
        pool := { s.pool with
          used := s.pool.used.insert e.docid
          sortedMins := s.pool.sortedMins.erase ⟨-e.minw, e.docid⟩
          minsDict := s.pool.minsDict.erase e.docid }
        cacheLen := s.cacheLen.map (· - holders e.docid s.terms)
        window := window })
    else .error .keyError

/-- One round of the main loop: an exception, the end, or a document with its score. -/
def iteration (s : State K) : Except Exc (Option ((ℤ × K) × State K)) :=
  match prepare s with
  | .error e => .error e
  | .ok (updated, s) =>
    match if Refreshes updated s then refresh s else .ok s.window with
    | .error e => .error e
    | .ok [] => .ok none
    | .ok (e :: window) => (yieldEntry e window s).map some

/-! ## Runs

The loop of the source has no bound. That of the model is given as many rounds as there are pairs
in the trees, and one more: since each round but the last yields a new document, they suffice. -/

/-- How a run ends. -/
inductive End where
  /-- the generator is exhausted -/
  | finished : End
  /-- an exception -/
  | raised : Exc → End
  /-- it still runs -/
  | running : End
  deriving DecidableEq

/-- The main loop: the yielded documents with their scores, and the end. -/
def run : ℕ → State K → List (ℤ × K) × End
  | 0, _ => ([], .running)
  | fuel + 1, s =>
    match iteration s with
    | .error e => ([], .raised e)
    | .ok none => ([], .finished)
    | .ok (some (y, s)) => ((y :: (run fuel s).1), (run fuel s).2)

/-- The states the main loop starts a round from. -/
def heads : ℕ → State K → List (State K)
  | 0, _ => []
  | fuel + 1, s =>
    match iteration s with
    | .ok (some (_, s')) => s :: heads fuel s'
    | _ => [s]

/-- `-tree.minKey()[0] * weight`. -/
def firstScore (w : WeightedTree K) : K :=
  match w.tree.toList with
  | [] => 0
  | p :: _ => -p.score * w.weight

/-- The variables before the loop. -/
def init (L : List (WeightedTree K)) : State K where
  terms := L.map fun w => ⟨w, some w.tree.toList, firstScore w, ∅⟩
  pool := ⟨∅, ∅, ∅, ∅⟩
  cacheLen := none
  window := []

/-- As many rounds as there are pairs, and one more: each yields another document. -/
def rounds (L : List (WeightedTree K)) : ℕ := (L.map (·.tree.toList.length)).sum + 1

/-- `mass_weightedUnion(L)`. -/
def massWeightedUnion : List (WeightedTree K) → List (ℤ × K) × End
  | [] => ([], .finished)
  | [w] => (w.tree.toList.map fun p => (p.docid, -p.score * w.weight), .finished)
  | L => run (rounds L) (init L)

/-! ## What the caches hold

Every pair of a tree is used, cached or unread. `Term.Inv` says this of one tree, and `Core` that
the sums are over the cached ones, so that a document has a sum until it is yielded. Filling up
moves pairs from unread to cached and keeps `Core`; it is the same for a tree on its own
(`Filled`) and for all of them (`Refilled`). -/

/-- What the iterator of a tree still yields. -/
def Term.rest (t : Term K) : List (Posting K) := t.iter.getD []

/-- What has been read from a tree was used or is cached, and only that is cached. -/
def Term.Inv (used : TreeSet ℤ) (t : Term K) : Prop :=
  ∃ read, t.source.tree.toList = read ++ t.rest ∧
    (∀ p ∈ read, p.docid ∈ used ∨ p.docid ∈ t.cache) ∧
    ∀ docid, docid ∈ t.cache → ∃ p ∈ read, p.docid = docid

/-- The sorted set has the pairs of the dictionary. -/
def Pool.Sorted (pool : Pool K) : Prop :=
  ∀ p : Posting K, p ∈ pool.sortedMins ↔ pool.minsDict[p.docid]? = some (-p.score)

/-- **The invariant of caches and sums**: the documents with a sum are the cached ones,
and none of them has been yielded. -/
structure Core (terms : List (Term K)) (pool : Pool K) : Prop where
  /-- every tree is split into read and unread -/
  split : ∀ t ∈ terms, t.Inv pool.used
  /-- the dictionary has the cached documents -/
  keys : ∀ docid, docid ∈ pool.minsDict ↔ ∃ t ∈ terms, docid ∈ t.cache
  /-- the sorted set has its pairs -/
  sorted : pool.Sorted
  /-- yielded documents are not cached -/
  fresh : ∀ docid, docid ∈ pool.minsDict → docid ∉ pool.used

omit [LinearOrder K] in
theorem posting_neg_iff {p : Posting K} {docid : ℤ} {x : K} :
    p = ⟨-x, docid⟩ ↔ p.docid = docid ∧ x = -p.score := by
  refine ⟨?_, ?_⟩
  · rintro rfl
    exact ⟨rfl, (neg_neg x).symm⟩
  · rintro ⟨rfl, rfl⟩
    rw [neg_neg]

/-- Adding a score to the sum of a document. -/
theorem addScore_spec {pool : Pool K} (h : pool.Sorted) (i : ℕ) (docid : ℤ) (score : K) :
    ∃ pool', pool.addScore i docid score = .ok pool' ∧ pool'.used = pool.used ∧ pool'.Sorted ∧
      ∀ d, d ∈ pool'.minsDict ↔ d = docid ∨ d ∈ pool.minsDict := by
  have hkeys : ∀ (x : K) d, d ∈ pool.minsDict.insert docid x ↔ d = docid ∨ d ∈ pool.minsDict :=
    fun x d => BTree.mem_insert _
  rcases hold : pool.minsDict[docid]? with _ | old
  · simp only [Pool.addScore, hold]
    refine ⟨_, rfl, rfl, fun p => ?_, hkeys _⟩
    simp only [TreeSet.mem_insert, BTree.get_insert, posting_neg_iff]
    by_cases hd : docid = p.docid
    · have hnot : p ∉ pool.sortedMins := by
        rw [h, ← hd, hold]
        exact fun hh => nomatch hh
      simp [hd, hnot]
    · rw [if_neg hd, h]
      simp [Ne.symm hd]
  · have hmem : (⟨-old, docid⟩ : Posting K) ∈ pool.sortedMins := by
      rw [h, hold, neg_neg]
    simp only [Pool.addScore, hold, if_pos hmem]
    refine ⟨_, rfl, rfl, fun p => ?_, hkeys _⟩
    simp only [TreeSet.mem_insert, TreeSet.mem_erase, BTree.get_insert, posting_neg_iff, ne_eq]
    by_cases hd : docid = p.docid
    · have hin : p ∈ pool.sortedMins ↔ old = -p.score := by
        rw [h, ← hd, hold, Option.some.injEq]
      simp [hd, hin]
    · rw [if_neg hd, h]
      simp [Ne.symm hd]

/-! ## Filling up

Reading one pair either adds a document to a cache and to the sums, or skips one that has been
yielded. What a loop of such steps does is a relation that composes: `Filled` for one tree, and
`Refilled` for all of them. -/

/-- What filling up one cache does. -/
structure Filled (t t' : Term K) (pool pool' : Pool K) : Prop where
  /-- nothing is yielded -/
  used : pool'.used = pool.used
  /-- the tree stays -/
  source : t'.source = t.source
  /-- new documents with a sum are cached -/
  keys : ∀ d, d ∈ pool'.minsDict ↔ d ∈ pool.minsDict ∨ d ∈ t'.cache
  /-- cached documents stay -/
  mono : ∀ d, d ∈ t.cache → d ∈ t'.cache
  /-- new ones have not been yielded -/
  fresh : ∀ d, d ∈ t'.cache → d ∈ t.cache ∨ d ∉ pool.used
  /-- the tree is split into read and unread -/
  inv : t'.Inv pool.used
  /-- the sorted set follows -/
  sorted : pool'.Sorted

theorem Filled.trans {t₁ t₂ t₃ : Term K} {pool₁ pool₂ pool₃ : Pool K}
    (h : Filled t₁ t₂ pool₁ pool₂) (h' : Filled t₂ t₃ pool₂ pool₃) : Filled t₁ t₃ pool₁ pool₃ where
  used := h'.used.trans h.used
  source := h'.source.trans h.source
  keys d := by
    rw [h'.keys, h.keys]
    refine ⟨?_, ?_⟩
    · rintro ((hd | hd) | hd)
      · exact .inl hd
      · exact .inr (h'.mono d hd)
      · exact .inr hd
    · rintro (hd | hd)
      · exact .inl (.inl hd)
      · exact .inr hd
  mono d hd := h'.mono d (h.mono d hd)
  fresh d hd := by
    rcases h'.fresh d hd with hd | hd
    · exact h.fresh d hd
    · exact .inr (h.used ▸ hd)
  inv := h.used ▸ h'.inv
  sorted := h'.sorted

/-- Nothing is cached. -/
theorem filled_of_same {t t' : Term K} {pool : Pool K} (hsource : t'.source = t.source)
    (hcache : t'.cache = t.cache) (hinv : t'.Inv pool.used) (hsorted : pool.Sorted)
    (hsub : ∀ d, d ∈ t.cache → d ∈ pool.minsDict) : Filled t t' pool pool where
  used := rfl
  source := hsource
  keys d := by
    rw [hcache]
    exact ⟨.inl, fun hd => hd.elim id (hsub d)⟩
  mono d hd := hcache ▸ hd
  fresh d hd := .inl (hcache ▸ hd)
  inv := hinv
  sorted := hsorted

/-- Reading one more pair keeps the split, if its document is used or cached. -/
theorem Term.Inv.read {used : TreeSet ℤ} {t t' : Term K} (h : t.Inv used) {p : Posting K}
    {rest : List (Posting K)} (hrest : t.rest = p :: rest) (hsource : t'.source = t.source)
    (hrest' : t'.rest = rest) (hmono : ∀ d, d ∈ t.cache → d ∈ t'.cache)
    (hp : p.docid ∈ used ∨ p.docid ∈ t'.cache)
    (hnew : ∀ d, d ∈ t'.cache → d ∈ t.cache ∨ d = p.docid) : t'.Inv used := by
  obtain ⟨read, hsplit, hread, hcache⟩ := h
  refine ⟨read ++ [p], ?_, fun q hq => ?_, fun d hd => ?_⟩
  · rw [hsource, hsplit, hrest, hrest', List.append_assoc, List.singleton_append]
  · rcases List.mem_append.mp hq with hq | hq
    · exact (hread q hq).imp id (hmono _)
    · obtain rfl := List.mem_singleton.mp hq
      exact hp
  · rcases hnew d hd with hd | rfl
    · obtain ⟨q, hq, hqd⟩ := hcache d hd
      exact ⟨q, List.mem_append_left _ hq, hqd⟩
    · exact ⟨p, by simp, rfl⟩

/-- `precache` fills up a cache, for any size. -/
theorem precache_spec {i size : ℕ} {t : Term K} {pool : Pool K} (hlive : t.iter.isSome = true)
    (hinv : t.Inv pool.used) (hsorted : pool.Sorted) (hsub : ∀ d, d ∈ t.cache → d ∈ pool.minsDict) :
    ∃ t' pool', precache i size t pool = .ok (t', pool') ∧ Filled t t' pool pool' := by
  induction size generalizing t pool with
  | zero => exact ⟨t, pool, rfl, filled_of_same rfl rfl hinv hsorted hsub⟩
  | succ size ih =>
    obtain ⟨l, hl⟩ := Option.isSome_iff_exists.mp hlive
    rcases l with _ | ⟨p, rest⟩
    · -- the iterator is exhausted, and deleted
      refine ⟨{ t with iter := none, unreadMax := 0 }, pool, by simp only [precache, hl],
        filled_of_same rfl rfl ?_ hsorted hsub⟩
      obtain ⟨read, hsplit, hread, hcache⟩ := hinv
      exact ⟨read, by rw [hsplit, Term.rest, hl]; rfl, hread, hcache⟩
    · have hrest : t.rest = p :: rest := by rw [Term.rest, hl]; rfl
      set score := -p.score * t.source.weight with hscore
      set t₁ : Term K := { t.lower score with iter := some rest } with ht₁
      by_cases hused : p.docid ∈ pool.used
      · have hinv₁ : t₁.Inv pool.used :=
          hinv.read hrest rfl rfl (fun d hd => hd) (.inl hused) fun d hd => .inl hd
        have hfill₁ : Filled t t₁ pool pool := filled_of_same rfl rfl hinv₁ hsorted hsub
        obtain ⟨t', pool', hrun, hfill⟩ := ih rfl hinv₁ hsorted hsub
        refine ⟨t', pool', ?_, hfill₁.trans hfill⟩
        simp only [precache, hl, if_pos hused]
        exact hrun
      · obtain ⟨pool₁, hadd, hused₁, hsorted₁, hkeys₁⟩ := addScore_spec hsorted i p.docid score
        set t₂ : Term K := { t₁ with cache := t₁.cache.insert p.docid score } with ht₂
        have hcache₂ : ∀ d, d ∈ t₂.cache ↔ d = p.docid ∨ d ∈ t.cache := fun d => BTree.mem_insert _
        have hinv₂ : t₂.Inv pool.used :=
          hinv.read hrest rfl rfl (fun d hd => (hcache₂ d).mpr (.inr hd))
            (.inr ((hcache₂ _).mpr (.inl rfl))) fun d hd => ((hcache₂ d).mp hd).symm
        have hsub₂ : ∀ d, d ∈ t₂.cache → d ∈ pool₁.minsDict := fun d hd =>
          (hkeys₁ d).mpr (((hcache₂ d).mp hd).imp id (hsub d))
        have hfill₂ : Filled t t₂ pool pool₁ := by
          refine ⟨hused₁, rfl, fun d => ?_, fun d hd => (hcache₂ d).mpr (.inr hd), fun d hd => ?_,
            hinv₂, hsorted₁⟩
          · rw [hkeys₁, hcache₂]
            have := hsub d
            tauto
          · rcases (hcache₂ d).mp hd with rfl | hd
            · exact .inr hused
            · exact .inl hd
        obtain ⟨t', pool', hrun, hfill⟩ := ih rfl (hused₁ ▸ hinv₂) hsorted₁ hsub₂
        refine ⟨t', pool', ?_, hfill₂.trans hfill⟩
        have hstep : precache i (size + 1) t pool =
            match pool.addScore i p.docid score with
            | .error e => .error e
            | .ok pool => precache i size { t₁ with cache := t₁.cache.insert p.docid score } pool := by
          simp only [precache, hl, if_neg hused]
          rfl
        rw [hstep, hadd]
        exact hrun

/-- What filling up all caches does. -/
structure Refilled (updated : Bool) (terms terms' : List (Term K)) (pool pool' : Pool K) : Prop where
  /-- nothing is yielded -/
  used : pool'.used = pool.used
  /-- the trees stay -/
  sources : terms'.map Term.source = terms.map Term.source
  /-- new documents with a sum are cached -/
  keys : ∀ d, d ∈ pool'.minsDict ↔ d ∈ pool.minsDict ∨ ∃ t ∈ terms', d ∈ t.cache
  /-- cached documents stay -/
  mono : ∀ d, (∃ t ∈ terms, d ∈ t.cache) → ∃ t ∈ terms', d ∈ t.cache
  /-- new ones have not been yielded -/
  fresh : ∀ d, (∃ t ∈ terms', d ∈ t.cache) → (∃ t ∈ terms, d ∈ t.cache) ∨ d ∉ pool.used
  /-- the trees are split into read and unread -/
  split : ∀ t ∈ terms', t.Inv pool.used
  /-- the sorted set follows -/
  sorted : pool'.Sorted
  /-- without a need for filling up, nothing happens -/
  idle : updated = false → terms' = terms ∧ pool' = pool ∧
    ∀ t ∈ terms, t.iter.isSome = true → cacheSize ≤ 2 * t.cache.size

theorem refill_spec {i : ℕ} {terms : List (Term K)} {pool : Pool K}
    (hsplit : ∀ t ∈ terms, t.Inv pool.used) (hsorted : pool.Sorted)
    (hsub : ∀ t ∈ terms, ∀ d, d ∈ t.cache → d ∈ pool.minsDict) :
    ∃ updated terms' pool', refill i terms pool = .ok (updated, terms', pool') ∧
      Refilled updated terms terms' pool pool' := by
  induction terms generalizing i pool with
  | nil =>
    refine ⟨false, [], pool, rfl, rfl, rfl, fun d => by simp, fun d hd => hd,
      fun d hd => .inl hd, hsplit, hsorted, fun _ => ⟨rfl, rfl, fun t ht => nomatch ht⟩⟩
  | cons t terms ih =>
    by_cases hneed : t.iter.isSome = true ∧ 2 * t.cache.size < cacheSize
    · obtain ⟨t₁, pool₁, hpre, hfill⟩ := @precache_spec _ _ _ i (cacheSize - t.cache.size) _ _
        hneed.1 (hsplit t List.mem_cons_self) hsorted (hsub t List.mem_cons_self)
      have hsub₁ : ∀ x ∈ terms, ∀ d, d ∈ x.cache → d ∈ pool₁.minsDict := fun x hx d hd =>
        (hfill.keys d).mpr (.inl (hsub x (List.mem_cons_of_mem _ hx) d hd))
      have hsplit₁ : ∀ x ∈ terms, x.Inv pool₁.used := fun x hx =>
        hfill.used ▸ hsplit x (List.mem_cons_of_mem _ hx)
      obtain ⟨updated, terms', pool', hrun, href⟩ := ih (i := i + 1) hsplit₁ hfill.sorted hsub₁
      refine ⟨true, t₁ :: terms', pool', ?_, href.used.trans hfill.used, ?_, fun d => ?_,
        fun d hd => ?_, fun d hd => ?_, ?_, href.sorted, fun h => nomatch h⟩
      · simp only [refill, if_pos hneed, hpre, hrun]
      · rw [List.map_cons, List.map_cons, hfill.source, href.sources]
      · rw [href.keys, hfill.keys]
        simp only [List.mem_cons, exists_eq_or_imp, or_assoc]
      · obtain ⟨x, hx, hd⟩ := hd
        rcases List.mem_cons.mp hx with rfl | hx
        · exact ⟨t₁, List.mem_cons_self, hfill.mono d hd⟩
        · obtain ⟨y, hy, hdy⟩ := href.mono d ⟨x, hx, hd⟩
          exact ⟨y, List.mem_cons_of_mem _ hy, hdy⟩
      · obtain ⟨x, hx, hd⟩ := hd
        rcases List.mem_cons.mp hx with rfl | hx
        · exact (hfill.fresh d hd).imp (fun h => ⟨t, List.mem_cons_self, h⟩) id
        · rcases href.fresh d ⟨x, hx, hd⟩ with ⟨y, hy, hdy⟩ | hnot
          · exact .inl ⟨y, List.mem_cons_of_mem _ hy, hdy⟩
          · exact .inr (hfill.used ▸ hnot)
      · exact List.forall_mem_cons.mpr ⟨hfill.inv, fun x hx => hfill.used ▸ href.split x hx⟩
    · have hsub₁ : ∀ x ∈ terms, ∀ d, d ∈ x.cache → d ∈ pool.minsDict := fun x hx =>
        hsub x (List.mem_cons_of_mem _ hx)
      obtain ⟨updated, terms', pool', hrun, href⟩ := ih (i := i + 1)
        (fun x hx => hsplit x (List.mem_cons_of_mem _ hx)) hsorted hsub₁
      refine ⟨updated, t :: terms', pool', ?_, href.used, ?_, fun d => ?_,
        fun d hd => ?_, fun d hd => ?_, ?_, href.sorted, fun h => ?_⟩
      · simp only [refill, if_neg hneed, hrun]
      · rw [List.map_cons, List.map_cons, href.sources]
      · rw [href.keys]
        simp only [List.mem_cons, exists_eq_or_imp]
        have := hsub t List.mem_cons_self d
        tauto
      · obtain ⟨x, hx, hd⟩ := hd
        rcases List.mem_cons.mp hx with rfl | hx
        · exact ⟨x, List.mem_cons_self, hd⟩
        · obtain ⟨y, hy, hdy⟩ := href.mono d ⟨x, hx, hd⟩
          exact ⟨y, List.mem_cons_of_mem _ hy, hdy⟩
      · obtain ⟨x, hx, hd⟩ := hd
        rcases List.mem_cons.mp hx with rfl | hx
        · exact .inl ⟨x, List.mem_cons_self, hd⟩
        · rcases href.fresh d ⟨x, hx, hd⟩ with ⟨y, hy, hdy⟩ | hnot
          · exact .inl ⟨y, List.mem_cons_of_mem _ hy, hdy⟩
          · exact .inr hnot
      · exact List.forall_mem_cons.mpr ⟨hsplit t List.mem_cons_self, href.split⟩
      · obtain ⟨rfl, rfl, hlive⟩ := href.idle h
        refine ⟨rfl, rfl, List.forall_mem_cons.mpr ⟨fun hl => ?_, hlive⟩⟩
        by_contra hsmall
        exact hneed ⟨hl, Nat.not_le.mp hsmall⟩

theorem Core.refilled {updated : Bool} {terms terms' : List (Term K)} {pool pool' : Pool K}
    (h : Core terms pool) (href : Refilled updated terms terms' pool pool') : Core terms' pool' where
  split t ht := href.used ▸ href.split t ht
  keys d := by
    rw [href.keys, h.keys]
    exact ⟨fun hd => hd.elim (href.mono d) id, .inr⟩
  sorted := href.sorted
  fresh d hd := by
    rw [href.used]
    rcases (href.keys d).mp hd with hd | hd
    · exact h.fresh d hd
    · rcases href.fresh d hd with hd | hd
      · exact h.fresh d ((h.keys d).mpr hd)
      · exact hd

/-! ## What the window holds

The elements of the window are documents that are cached, with their sums. A window that is
smaller than it may be holds all of them (`freshWindow_full`): documents wait outside only behind
a full one. -/

/-- A window over a pool: its elements have their sums, and it is not alone with a
single element while other documents wait. -/
structure Windowed (pool : Pool K) (window : List (Entry K)) : Prop where
  /-- the lower bounds are the sums -/
  minw : ∀ e ∈ window, pool.minsDict[e.docid]? = some e.minw
  /-- no document occurs twice -/
  nodup : (window.map Entry.docid).Nodup
  /-- other documents wait only behind two elements -/
  outside : ∀ d, d ∈ pool.minsDict → d ∉ window.map Entry.docid → 2 ≤ window.length

theorem Pool.Sorted.docid_inj {pool : Pool K} (h : pool.Sorted) {p q : Posting K}
    (hp : p ∈ pool.sortedMins) (hq : q ∈ pool.sortedMins) (hd : p.docid = q.docid) : p = q := by
  rw [h] at hp hq
  rw [hd, hq, Option.some.injEq] at hp
  exact Posting.ext (neg_injective hp).symm hd

theorem freshWindow_docids (s : State K) : (freshWindow s).map Entry.docid =
    (s.pool.sortedMins.toList.take orderSize).map Posting.docid := by
  rw [freshWindow, List.map_map]
  rfl

/-- Behind a fresh window documents wait only if it is full. -/
theorem freshWindow_full {s : State K} (h : s.pool.Sorted) {d : ℤ} (hd : d ∈ s.pool.minsDict)
    (hout : d ∉ (freshWindow s).map Entry.docid) : (freshWindow s).length = orderSize := by
  have hlen : (freshWindow s).length = min orderSize s.pool.sortedMins.toList.length := by
    rw [freshWindow, List.length_map, List.length_take]
  rw [hlen]
  by_contra hshort
  have hall : s.pool.sortedMins.toList.take orderSize = s.pool.sortedMins.toList :=
    List.take_of_length_le (by omega)
  obtain ⟨x, hx⟩ := (BTree.mem_iff _).mp hd
  have hmem : (⟨-x, d⟩ : Posting K) ∈ s.pool.sortedMins := by
    rw [h, hx, neg_neg]
  apply hout
  rw [freshWindow_docids, hall]
  exact List.mem_map.mpr ⟨_, Std.ExtTreeSet.mem_toList.mpr hmem, rfl⟩

theorem windowed_freshWindow {s : State K} (h : s.pool.Sorted) :
    Windowed s.pool (freshWindow s) where
  minw e he := by
    obtain ⟨p, hp, rfl⟩ := List.mem_map.mp he
    exact (h p).mp (Std.ExtTreeSet.mem_toList.mp (List.mem_of_mem_take hp))
  nodup := by
    rw [freshWindow_docids]
    refine List.Nodup.map_on (fun p hp q hq hd => ?_) ((TreeSet.nodup_toList _).sublist
      (List.take_sublist _ _))
    exact h.docid_inj (Std.ExtTreeSet.mem_toList.mp (List.mem_of_mem_take hp))
      (Std.ExtTreeSet.mem_toList.mp (List.mem_of_mem_take hq)) hd
  outside d hd hout := by
    rw [freshWindow_full h hd hout]
    decide

/-! ## The beginning of a round

`Inv` holds at every head of the loop. The bound on what is cached, by which the loop decides to
fill up, may be wrong at the head, but is right after the caches have been filled (`Counted`). -/

/-- **The invariant of the main loop.** -/
structure Inv (L : List (WeightedTree K)) (s : State K) : Prop where
  /-- caches and sums -/
  core : Core s.terms s.pool
  /-- the trees are those of the call -/
  sources : s.terms.map Term.source = L
  /-- `cache_len` is right, or will be after a fill-up -/
  cacheLen : s.cacheLen = some (cachedCount s.terms : ℤ) ∨
    ∃ t ∈ s.terms, t.iter.isSome = true ∧ 2 * t.cache.size < cacheSize
  /-- the window -/
  windowed : Windowed s.pool s.window

/-- And after the caches have been filled up. -/
structure Prepared (L : List (WeightedTree K)) (updated : Bool) (s : State K) : Prop where
  /-- caches and sums -/
  core : Core s.terms s.pool
  /-- the trees are those of the call -/
  sources : s.terms.map Term.source = L
  /-- `cache_len` is right -/
  cacheLen : s.cacheLen = some (cachedCount s.terms : ℤ)
  /-- without a fill-up the window is right, and live iterators have large caches -/
  idle : updated = false → Windowed s.pool s.window ∧
    ∀ t ∈ s.terms, t.iter.isSome = true → cacheSize ≤ 2 * t.cache.size

/-- `cache_len` is right, or will be after a fill-up. -/
def Counted (s : State K) : Prop :=
  s.cacheLen = some (cachedCount s.terms : ℤ) ∨
    ∃ t ∈ s.terms, t.iter.isSome = true ∧ 2 * t.cache.size < cacheSize

/-- After the caches have been filled up `cache_len` is right; where nothing was to be filled
up, live iterators have large caches. -/
theorem Counted.prepare {s s' : State K} {updated : Bool} (h : Counted s)
    (hcore : Core s.terms s.pool) (hprep : prepare s = .ok (updated, s')) :
    s'.cacheLen = some (cachedCount s'.terms : ℤ) ∧ (updated = false → s' = s ∧
      ∀ t ∈ s.terms, t.iter.isSome = true → cacheSize ≤ 2 * t.cache.size) := by
  obtain ⟨updated', terms, pool, hrun, href⟩ := @refill_spec _ _ _ 0 s.terms s.pool hcore.split
    hcore.sorted fun t ht d hd => (hcore.keys d).mpr ⟨t, ht, hd⟩
  simp only [RankedUnion.prepare, hrun] at hprep
  obtain ⟨rfl, rfl⟩ := Prod.mk.inj (Except.ok.inj hprep)
  cases updated' with
  | true => exact ⟨rfl, fun hidle => by cases hidle⟩
  | false =>
    obtain ⟨rfl, rfl, hlive⟩ := href.idle rfl
    refine ⟨?_, fun _ => ⟨rfl, hlive⟩⟩
    rcases h with hlen | ⟨t, ht, hl, hsmall⟩
    · exact hlen
    · have hlarge := hlive t ht hl
      omega

theorem prepare_spec {L : List (WeightedTree K)} {s : State K} (h : Inv L s) :
    ∃ updated s', prepare s = .ok (updated, s') ∧ Prepared L updated s' ∧
      s'.pool.used = s.pool.used := by
  obtain ⟨updated, terms, pool, hrun, href⟩ := @refill_spec _ _ _ 0 s.terms s.pool h.core.split
    h.core.sorted fun t ht d hd => (h.core.keys d).mpr ⟨t, ht, hd⟩
  have hprep : prepare s = .ok (updated, { s with
      terms := terms
      pool := pool
      cacheLen := if updated then some (cachedCount terms : ℤ) else s.cacheLen }) := by
    simp only [prepare, hrun]
  obtain ⟨hlen, -⟩ := Counted.prepare h.cacheLen h.core hprep
  refine ⟨_, _, hprep, ⟨h.core.refilled href, href.sources.trans h.sources, hlen, fun hnone => ?_⟩,
    href.used⟩
  obtain ⟨rfl, rfl, hlive⟩ := href.idle hnone
  exact ⟨h.windowed, hlive⟩

/-- The window a round takes its document from. -/
def nextWindow (updated : Bool) (s : State K) : List (Entry K) :=
  if Refreshes updated s then freshWindow s else s.window

theorem Prepared.windowed {L : List (WeightedTree K)} {updated : Bool} {s : State K}
    (h : Prepared L updated s) : Windowed s.pool (nextWindow updated s) := by
  by_cases hr : Refreshes updated s
  · rw [nextWindow, if_pos hr]
    exact windowed_freshWindow h.core.sorted
  · rw [nextWindow, if_neg hr]
    cases updated with
    | true => exact absurd (.inl rfl) hr
    | false => exact (h.idle rfl).1

/-- No more documents have a sum than there are cache entries. -/
theorem Core.size_le {terms : List (Term K)} {pool : Pool K} (h : Core terms pool) :
    pool.minsDict.size ≤ cachedCount terms := by
  have hall : ∀ d, d ∈ pool.minsDict → d ∈ terms.flatMap fun t => t.cache.keys := by
    intro d hd
    obtain ⟨t, ht, hdt⟩ := (h.keys d).mp hd
    exact List.mem_flatMap.mpr ⟨t, ht, Std.ExtTreeMap.mem_keys.mpr hdt⟩
  apply (BTree.size_le_length _ hall).trans
  simp [List.length_flatMap, cachedCount, Std.ExtTreeMap.length_keys]

/-! ## Taking a document out

Taking a document out of a cache looks for the largest score left when the document had the bound
for its score, and raises if nothing is left: that is one of the ways in which a round goes wrong
(`LastAtBound`). When it does not, `Core` holds again with one more document used. -/

/-- A document has been taken out of a cache. -/
structure Taken (docid : ℤ) (t t' : Term K) : Prop where
  /-- the tree stays -/
  source : t'.source = t.source
  /-- the iterator too -/
  iter : t'.iter = t.iter
  /-- the cache loses the document -/
  mem_iff : ∀ d, d ∈ t'.cache ↔ d ∈ t.cache ∧ d ≠ docid
  /-- and no other -/
  size : t'.cache.size + (if docid ∈ t.cache then 1 else 0) = t.cache.size

/-- The document is the last of the cache and has the bound for a score. -/
def LastAtBound (docid : ℤ) (t : Term K) : Prop :=
  t.cache[docid]? = some t.unreadMax ∧ t.cache.size = 1

theorem take_spec (docid : ℤ) (t : Term K) :
    (LastAtBound docid t → ∃ e, t.take docid = .error e) ∧
      (¬LastAtBound docid t → ∃ t', t.take docid = .ok t' ∧ Taken docid t t') := by
  rcases hget : t.cache[docid]? with _ | score
  · have hnot : docid ∉ t.cache := (BTree.not_mem_iff _).mpr hget
    refine ⟨fun h => ?_, fun _ => ⟨t, by simp only [Term.take, hget], rfl, rfl, fun d => ?_, ?_⟩⟩
    · rw [LastAtBound, hget] at h
      cases h.1
    · exact ⟨fun hd => ⟨hd, fun heq => hnot (heq ▸ hd)⟩, And.left⟩
    · rw [if_neg hnot, Nat.add_zero]
  · have hmem : docid ∈ t.cache := BTree.mem_of_get _ hget
    have hsize := BTree.size_erase_mem _ hmem
    have htaken : ∀ u, Taken docid t { t with cache := t.cache.erase docid, unreadMax := u } :=
      fun u => ⟨rfl, rfl, fun d => BTree.mem_erase _, by rw [if_pos hmem]; exact hsize⟩
    have hvalues : ((t.cache.erase docid).toList.map Prod.snd).length =
        (t.cache.erase docid).size := by
      rw [List.length_map, Std.ExtTreeMap.length_toList]
    by_cases hbound : score = t.unreadMax
    · rcases hmax : ((t.cache.erase docid).toList.map Prod.snd).max? with _ | m
      · have hnil := List.max?_eq_none_iff.mp hmax
        rw [hnil, List.length_nil] at hvalues
        refine ⟨fun _ => ⟨.valueError "max() arg is an empty sequence", by
          simp only [Term.take, hget, if_pos hbound, hmax]⟩, fun h => ?_⟩
        exact absurd ⟨by rw [hget, hbound], by omega⟩ h
      · refine ⟨fun h => ?_, fun _ => ⟨_, by simp only [Term.take, hget, if_pos hbound, hmax],
          htaken m⟩⟩
        have hone := h.2
        have hnil : (t.cache.erase docid).toList.map Prod.snd = [] :=
          List.eq_nil_of_length_eq_zero (by omega)
        rw [hnil] at hmax
        cases hmax
    · refine ⟨fun h => ?_, fun _ => ⟨_, by simp only [Term.take, hget, if_neg hbound],
        htaken t.unreadMax⟩⟩
      have := h.1
      rw [hget, Option.some.injEq] at this
      exact absurd this hbound

theorem takeAll_error {docid : ℤ} {terms : List (Term K)}
    (h : ∃ t ∈ terms, LastAtBound docid t) : ∃ e, takeAll docid terms = .error e := by
  induction terms with
  | nil => simp at h
  | cons t terms ih =>
    rcases htake : t.take docid with e | t'
    · exact ⟨e, by simp only [takeAll, htake]⟩
    · have hnot : ¬LastAtBound docid t := by
        intro hl
        obtain ⟨e, he⟩ := (take_spec docid t).1 hl
        rw [htake] at he
        cases he
      obtain ⟨e, he⟩ := ih (by simpa [hnot] using h)
      exact ⟨e, by simp only [takeAll, htake, he]⟩

theorem takeAll_ok {docid : ℤ} {terms : List (Term K)}
    (h : ∀ t ∈ terms, ¬LastAtBound docid t) :
    ∃ terms', takeAll docid terms = .ok terms' ∧ List.Forall₂ (Taken docid) terms terms' := by
  induction terms with
  | nil => exact ⟨[], rfl, .nil⟩
  | cons t terms ih =>
    obtain ⟨ht, hterms⟩ := List.forall_mem_cons.mp h
    obtain ⟨t', htake, htaken⟩ := (take_spec docid t).2 ht
    obtain ⟨terms', hrun, hall⟩ := ih hterms
    exact ⟨t' :: terms', by simp only [takeAll, htake, hrun], .cons htaken hall⟩

theorem holders_spec {docid : ℤ} {terms terms' : List (Term K)}
    (h : List.Forall₂ (Taken docid) terms terms') :
    cachedCount terms' + holders docid terms = cachedCount terms := by
  induction h with
  | nil => rfl
  | cons htaken _ ih =>
    have hsize := htaken.size
    simp only [cachedCount, holders, List.map_cons, List.sum_cons, List.countP_cons,
      decide_eq_true_eq] at ih ⊢
    omega

theorem taken_sources {docid : ℤ} {terms terms' : List (Term K)}
    (h : List.Forall₂ (Taken docid) terms terms') :
    terms'.map Term.source = terms.map Term.source := by
  induction h with
  | nil => rfl
  | cons htaken _ ih => rw [List.map_cons, List.map_cons, htaken.source, ih]

theorem taken_mem {docid : ℤ} {terms terms' : List (Term K)}
    (h : List.Forall₂ (Taken docid) terms terms') :
    (∀ t' ∈ terms', ∃ t ∈ terms, Taken docid t t') ∧
      ∀ t ∈ terms, ∃ t' ∈ terms', Taken docid t t' := by
  induction h with
  | nil => simp
  | @cons t t' terms terms' htaken _ ih =>
    refine ⟨List.forall_mem_cons.mpr ⟨⟨t, List.mem_cons_self, htaken⟩, fun x hx => ?_⟩,
      List.forall_mem_cons.mpr ⟨⟨t', List.mem_cons_self, htaken⟩, fun x hx => ?_⟩⟩
    · obtain ⟨y, hy, hxy⟩ := ih.1 x hx
      exact ⟨y, List.mem_cons_of_mem _ hy, hxy⟩
    · obtain ⟨y, hy, hxy⟩ := ih.2 x hx
      exact ⟨y, List.mem_cons_of_mem _ hy, hxy⟩

theorem Taken.inv {used : TreeSet ℤ} {docid : ℤ} {t t' : Term K} (h : Taken docid t t')
    (hinv : t.Inv used) : t'.Inv (used.insert docid) := by
  obtain ⟨read, hsplit, hread, hcache⟩ := hinv
  refine ⟨read, ?_, fun p hp => ?_, fun d hd => hcache d ((h.mem_iff d).mp hd).1⟩
  · rw [h.source, hsplit, Term.rest, Term.rest, h.iter]
  · by_cases hd : p.docid = docid
    · exact .inl ((TreeSet.mem_insert _).mpr (.inl hd))
    · rcases hread p hp with hu | hc
      · exact .inl ((TreeSet.mem_insert _).mpr (.inr hu))
      · exact .inr ((h.mem_iff _).mpr ⟨hc, hd⟩)

/-- What is left after a document has been yielded. -/
def Pool.use (pool : Pool K) (e : Entry K) : Pool K :=
  { pool with
    used := pool.used.insert e.docid
    sortedMins := pool.sortedMins.erase ⟨-e.minw, e.docid⟩
    minsDict := pool.minsDict.erase e.docid }

theorem Core.taken {e : Entry K} {terms terms' : List (Term K)} {pool : Pool K}
    (h : Core terms pool) (he : pool.minsDict[e.docid]? = some e.minw)
    (htaken : List.Forall₂ (Taken e.docid) terms terms') : Core terms' (pool.use e) where
  split t' ht' := by
    obtain ⟨t, ht, hstep⟩ := (taken_mem htaken).1 t' ht'
    exact hstep.inv (h.split t ht)
  keys d := by
    have herase : d ∈ (pool.use e).minsDict ↔ d ∈ pool.minsDict ∧ d ≠ e.docid :=
      BTree.mem_erase _
    rw [herase, h.keys]
    refine ⟨?_, ?_⟩
    · rintro ⟨⟨t, ht, hd⟩, hne⟩
      obtain ⟨t', ht', hstep⟩ := (taken_mem htaken).2 t ht
      exact ⟨t', ht', (hstep.mem_iff d).mpr ⟨hd, hne⟩⟩
    · rintro ⟨t', ht', hd⟩
      obtain ⟨t, ht, hstep⟩ := (taken_mem htaken).1 t' ht'
      obtain ⟨hd, hne⟩ := (hstep.mem_iff d).mp hd
      exact ⟨⟨t, ht, hd⟩, hne⟩
  sorted p := by
    simp only [Pool.use, TreeSet.mem_erase, BTree.get_erase, ne_eq, posting_neg_iff]
    rw [h.sorted]
    by_cases hd : e.docid = p.docid
    · have hin : pool.minsDict[p.docid]? = some e.minw := hd ▸ he
      simp [hd, hin]
    · simp [hd, Ne.symm hd]
  fresh d hd := by
    obtain ⟨hd, hne⟩ := (BTree.mem_erase _).mp hd
    exact fun hu => ((TreeSet.mem_insert _).mp hu).elim hne (h.fresh d hd)

/-- A document is yielded when it is not the last at its bound in any cache. -/
theorem yieldEntry_spec {e : Entry K} {window : List (Entry K)} {s : State K}
    (hsorted : s.pool.Sorted) (he : s.pool.minsDict[e.docid]? = some e.minw)
    (hlast : ∀ t ∈ s.terms, ¬LastAtBound e.docid t) :
    ∃ y terms', yieldEntry e window s = .ok ((e.docid, y), {
        terms := terms'
        pool := s.pool.use e
        cacheLen := s.cacheLen.map (· - holders e.docid s.terms)
        window := window }) ∧
      List.Forall₂ (Taken e.docid) s.terms terms' := by
  obtain ⟨terms', hrun, htaken⟩ := takeAll_ok hlast
  have hmem : (⟨-e.minw, e.docid⟩ : Posting K) ∈ s.pool.sortedMins := by
    rw [hsorted, he, neg_neg]
  refine ⟨(e.minw + e.maxw) / 2, terms', ?_, htaken⟩
  simp only [yieldEntry, hrun, if_pos (And.intro hmem (BTree.mem_of_get _ he)), Pool.use]

/-- And only then. -/
theorem yieldEntry_error {e : Entry K} (window : List (Entry K)) {s : State K}
    (h : ∃ t ∈ s.terms, LastAtBound e.docid t) : ∃ exc, yieldEntry e window s = .error exc := by
  obtain ⟨exc, hexc⟩ := takeAll_error h
  exact ⟨exc, by simp only [yieldEntry, hexc]⟩

/-! ## Completeness

Four branches lose documents or raise, and `SafeAt` asks for a state in which none of them is
taken. A round from a safe state yields a document and keeps the invariant. From an unsafe one the
rest of the run is not complete: either the round raises, or the loop ends, or a window is kept of
which documents are left out for good, which `Stuck` says of one of them. Both directions are one
induction over what is left to yield (`completeFrom_iff_safe`). -/

/-- A document occurs in a tree. -/
def Occurs (L : List (WeightedTree K)) (docid : ℤ) : Prop :=
  ∃ w ∈ L, ∃ p ∈ w.tree.toList, p.docid = docid

/-- The union ends without an exception and yields every document once. -/
def Complete (L : List (WeightedTree K)) : Prop :=
  (massWeightedUnion L).2 = .finished ∧ ((massWeightedUnion L).1.map Prod.fst).Nodup ∧
    ∀ docid, docid ∈ (massWeightedUnion L).1.map Prod.fst ↔ Occurs L docid

/-- After the caches have been filled up, none of four branches goes wrong. -/
structure SafeAt (updated : Bool) (s : State K) : Prop where
  /-- a fresh window needs no reading ahead -/
  order : Refreshes updated s → violated s.terms (freshWindow s) = false
  /-- a kept window of two documents is not followed by a third one -/
  third : ¬Refreshes updated s → ¬(s.window.length = 2 ∧ s.pool.minsDict.size = 3)
  /-- when the window is empty, what is still unread has been yielded -/
  unread : nextWindow updated s = [] → ∀ t ∈ s.terms, ∀ p ∈ t.rest, p.docid ∈ s.pool.used
  /-- the next document is not the last one of a cache and at its bound -/
  last : ∀ e ∈ (nextWindow updated s).head?, ∀ t ∈ s.terms, ¬LastAtBound e.docid t

/-- The main loop can start a round from here. -/
def Safe (s : State K) : Prop := ∀ updated s', prepare s = .ok (updated, s') → SafeAt updated s'

theorem Core.occurs {L : List (WeightedTree K)} {terms : List (Term K)} {pool : Pool K}
    (h : Core terms pool) (hsources : terms.map Term.source = L) {docid : ℤ}
    (hd : docid ∈ pool.minsDict) : Occurs L docid := by
  obtain ⟨t, ht, hdt⟩ := (h.keys docid).mp hd
  obtain ⟨read, hsplit, -, hcache⟩ := h.split t ht
  obtain ⟨p, hp, hpd⟩ := hcache docid hdt
  refine ⟨t.source, hsources ▸ List.mem_map_of_mem ht, p, ?_, hpd⟩
  rw [hsplit]
  exact List.mem_append_left _ hp

/-- A document of the trees has been yielded, is cached or is unread. -/
theorem Core.cases_of_occurs {L : List (WeightedTree K)} {terms : List (Term K)} {pool : Pool K}
    (h : Core terms pool) (hsources : terms.map Term.source = L) {docid : ℤ} (hd : Occurs L docid) :
    docid ∈ pool.used ∨ docid ∈ pool.minsDict ∨ ∃ t ∈ terms, ∃ p ∈ t.rest, p.docid = docid := by
  obtain ⟨w, hw, p, hp, rfl⟩ := hd
  obtain ⟨t, ht, rfl⟩ := List.mem_map.mp (hsources ▸ hw)
  obtain ⟨read, hsplit, hread, -⟩ := h.split t ht
  rw [hsplit] at hp
  rcases List.mem_append.mp hp with hp | hp
  · rcases hread p hp with hu | hc
    · exact .inl hu
    · exact .inr (.inl ((h.keys _).mpr ⟨t, ht, hc⟩))
  · exact .inr (.inr ⟨t, ht, p, hp, rfl⟩)

/-- Where the window is kept though it has two elements, few documents are cached. -/
theorem Prepared.small {L : List (WeightedTree K)} {updated : Bool} {s : State K}
    (h : Prepared L updated s) (hr : ¬Refreshes updated s) (hlen : s.window.length = 2) :
    updated = false ∧ cachedCount s.terms ≤ orderViolation := by
  rw [Refreshes, not_or, h.cacheLen] at hr
  obtain ⟨hidle, hsmall⟩ := hr
  refine ⟨by simpa using hidle, ?_⟩
  by_contra hlarge
  refine hsmall ⟨⟨_, rfl, by exact_mod_cast Nat.not_le.mp hlarge⟩, ?_⟩
  rw [hlen]
  decide

theorem Prepared.windowed_rest {L : List (WeightedTree K)} {updated : Bool} {s : State K}
    (h : Prepared L updated s)
    (hthird : ¬Refreshes updated s → ¬(s.window.length = 2 ∧ s.pool.minsDict.size = 3))
    {e : Entry K} {window : List (Entry K)} (hw : nextWindow updated s = e :: window) :
    Windowed (s.pool.use e) window := by
  have hwin := h.windowed
  rw [hw] at hwin
  have hnodup := hwin.nodup
  rw [List.map_cons, List.nodup_cons] at hnodup
  refine ⟨fun f hf => ?_, hnodup.2, fun d hd hout => ?_⟩
  · have hne : e.docid ≠ f.docid := fun heq => hnodup.1 (heq ▸ List.mem_map_of_mem hf)
    rw [Pool.use, BTree.get_erase_ne _ hne]
    exact hwin.minw f (List.mem_cons_of_mem _ hf)
  · obtain ⟨hd, hne⟩ := (BTree.mem_erase _).mp hd
    have hout' : d ∉ (e :: window).map Entry.docid := by
      rw [List.map_cons, List.mem_cons, not_or]
      exact ⟨hne, hout⟩
    by_cases hr : Refreshes updated s
    · rw [nextWindow, if_pos hr] at hw
      have hfull := freshWindow_full h.core.sorted hd (hw ▸ hout')
      rw [hw, List.length_cons, orderSize] at hfull
      omega
    · rw [nextWindow, if_neg hr] at hw
      have htwo := hwin.outside d hd hout'
      by_contra hshort
      have hlen : s.window.length = 2 := by
        rw [hw]
        rw [List.length_cons] at htwo ⊢
        omega
      have hsmall := (h.small hr hlen).2
      rw [orderViolation] at hsmall
      have hsize := h.core.size_le
      have hthree : (d :: s.window.map Entry.docid).length ≤ s.pool.minsDict.size := by
        refine BTree.length_le_size _ (List.nodup_cons.mpr ⟨hw ▸ hout', hw ▸ hwin.nodup⟩) ?_
        refine List.forall_mem_cons.mpr ⟨hd, fun k hk => ?_⟩
        obtain ⟨f, hf, rfl⟩ := List.mem_map.mp hk
        exact BTree.mem_of_get _ (hwin.minw f (hw ▸ hf))
      rw [List.length_cons, List.length_map, hlen] at hthree
      exact hthird hr ⟨hlen, by omega⟩

/-! ## Rounds from safe states

A round fills up the caches, takes a window and yields its first document. From a safe state
neither the check of a new window nor the taking raises, and if documents are left the window is
not empty. -/

theorem iteration_eq {s s' : State K} {updated : Bool} (hprep : prepare s = .ok (updated, s'))
    (horder : Refreshes updated s' → violated s'.terms (freshWindow s') = false) :
    iteration s = match nextWindow updated s' with
      | [] => .ok none
      | e :: window => (yieldEntry e window s').map some := by
  by_cases hr : Refreshes updated s'
  · simp only [iteration, hprep, nextWindow, if_pos hr, refresh, horder hr, Bool.false_eq_true,
      if_false]
    rcases freshWindow s' with _ | ⟨e, window⟩ <;> rfl
  · simp only [iteration, hprep, nextWindow, if_neg hr]
    rcases s'.window with _ | ⟨e, window⟩ <;> rfl

theorem iteration_violated {s s' : State K} {updated : Bool}
    (hprep : prepare s = .ok (updated, s')) (hr : Refreshes updated s')
    (hviolated : violated s'.terms (freshWindow s') = true) : iteration s = .error .typeError := by
  simp only [iteration, hprep, if_pos hr, refresh, if_pos hviolated]

/-- **A round from a safe state** yields the first document of the window. -/
theorem iteration_step {L : List (WeightedTree K)} {s s' : State K} {updated : Bool}
    (hprep : prepare s = .ok (updated, s')) (h : Prepared L updated s') (hsafe : SafeAt updated s')
    {e : Entry K} {window : List (Entry K)} (hw : nextWindow updated s' = e :: window) :
    ∃ y s'', iteration s = .ok (some ((e.docid, y), s'')) ∧ Inv L s'' ∧
      s''.pool.used = s'.pool.used.insert e.docid := by
  have hwin := h.windowed
  rw [hw] at hwin
  have he := hwin.minw e List.mem_cons_self
  obtain ⟨y, terms', hyield, htaken⟩ := @yieldEntry_spec _ _ _ e window s' h.core.sorted he
    (hsafe.last e (by rw [hw]; rfl))
  refine ⟨y, _, by rw [iteration_eq hprep hsafe.order, hw]; simp only [hyield]; rfl,
    ⟨h.core.taken he htaken, (taken_sources htaken).trans h.sources, .inl ?_,
    h.windowed_rest hsafe.third hw⟩, rfl⟩
  have hcount := holders_spec htaken
  simp only [h.cacheLen, Option.map_some, Option.some.injEq]
  omega

/-! ## Documents that are left out

A document outside of a window that is kept, when few are cached, is never yielded: no cache is
filled up any more, since the iterators are at their ends, and no new window is computed. `Stuck`
is the invariant of the rounds that are left. -/

/-- Where few documents are cached, an iterator that needs no fill-up is exhausted. -/
theorem dead_of_few {terms : List (Term K)}
    (hlive : ∀ t ∈ terms, t.iter.isSome = true → cacheSize ≤ 2 * t.cache.size)
    (hfew : cachedCount terms ≤ orderViolation) : ∀ t ∈ terms, t.iter = none := by
  intro t ht
  by_contra hl
  have hlarge := hlive t ht (Option.isSome_iff_ne_none.mpr hl)
  have hle : t.cache.size ≤ cachedCount terms :=
    List.single_le_sum (fun _ _ => Nat.zero_le _) _ (List.mem_map_of_mem ht)
  rw [orderViolation] at hfew
  rw [cacheSize] at hlarge
  omega

/-- A document outside the window, when the caches are not filled up any more and the
window is not computed again. -/
structure Stuck (docid : ℤ) (s : State K) : Prop where
  /-- all iterators are exhausted -/
  dead : ∀ t ∈ s.terms, t.iter = none
  /-- few documents are cached -/
  few : ∃ n ∈ s.cacheLen, n ≤ (orderViolation : ℤ)
  /-- it is not in the window -/
  outside : docid ∉ s.window.map Entry.docid

theorem refill_dead {i : ℕ} {terms : List (Term K)} {pool : Pool K}
    (h : ∀ t ∈ terms, t.iter = none) : refill i terms pool = .ok (false, terms, pool) := by
  induction terms generalizing i with
  | nil => rfl
  | cons t terms ih =>
    obtain ⟨ht, hterms⟩ := List.forall_mem_cons.mp h
    have hnot : ¬(t.iter.isSome = true ∧ 2 * t.cache.size < cacheSize) := by simp [ht]
    simp only [refill, if_neg hnot, ih hterms]

theorem yieldEntry_eq_ok {e : Entry K} {window : List (Entry K)} {s s' : State K} {y : ℤ × K}
    (h : yieldEntry e window s = .ok (y, s')) :
    y.1 = e.docid ∧ s'.window = window ∧
      s'.cacheLen = s.cacheLen.map (fun n => n - (holders e.docid s.terms : ℤ)) ∧
      List.Forall₂ (Taken e.docid) s.terms s'.terms := by
  have hlast : ∀ t ∈ s.terms, ¬LastAtBound e.docid t := by
    intro t ht hl
    obtain ⟨exc, hexc⟩ := yieldEntry_error window ⟨t, ht, hl⟩
    rw [hexc] at h
    cases h
  obtain ⟨terms', hrun, htaken⟩ := takeAll_ok hlast
  simp only [yieldEntry, hrun] at h
  split at h
  · cases h
    exact ⟨rfl, rfl, rfl, htaken⟩
  · cases h

theorem Stuck.step {docid : ℤ} {s s' : State K} {y : ℤ × K} (h : Stuck docid s)
    (hstep : iteration s = .ok (some (y, s'))) : y.1 ≠ docid ∧ Stuck docid s' := by
  have hprep : prepare s = .ok (false, s) := by
    simp only [prepare, refill_dead h.dead]
    rfl
  have hr : ¬Refreshes false s := by
    obtain ⟨n, hn, hle⟩ := h.few
    rintro (hh | ⟨⟨m, hm, hlt⟩, -⟩)
    · cases hh
    · cases Option.mem_unique hn hm
      omega
  rw [iteration_eq hprep fun hh => absurd hh hr, nextWindow, if_neg hr] at hstep
  have hout := h.outside
  rcases hw : s.window with _ | ⟨e, window⟩
  · rw [hw] at hstep
    cases hstep
  · rw [hw] at hstep hout
    rw [List.map_cons, List.mem_cons, not_or] at hout
    rcases hyield : yieldEntry e window s with exc | ⟨y', s''⟩
    · simp only [hyield] at hstep
      cases hstep
    · simp only [hyield] at hstep
      cases hstep
      obtain ⟨hy, hwindow, hlen, htaken⟩ := yieldEntry_eq_ok hyield
      refine ⟨hy ▸ Ne.symm hout.1, fun t' ht' => ?_, ?_, hwindow ▸ hout.2⟩
      · obtain ⟨t, ht, hstep⟩ := (taken_mem htaken).1 t' ht'
        rw [hstep.iter, h.dead t ht]
      · obtain ⟨n, hn, hle⟩ := h.few
        refine ⟨n - holders e.docid s.terms, ?_, by omega⟩
        rw [hlen, Option.mem_def.mp hn]
        rfl

theorem Stuck.run {docid : ℤ} {s : State K} (h : Stuck docid s) (fuel : ℕ) :
    docid ∉ (run fuel s).1.map Prod.fst := by
  induction fuel generalizing s with
  | zero => simp [RankedUnion.run]
  | succ fuel ih =>
    rcases hstep : iteration s with exc | _ | ⟨y, s'⟩
    · simp [RankedUnion.run, hstep]
    · simp [RankedUnion.run, hstep]
    · obtain ⟨hne, hstuck⟩ := h.step hstep
      simp only [RankedUnion.run, hstep, List.map_cons, List.mem_cons, not_or]
      exact ⟨Ne.symm hne, ih hstuck⟩

/-! ## Whole runs

A complete rest of a run is a yielded document and a complete rest of it. So completeness from a
state and safety from there on are compared round by round. -/

/-- The loop ends without an exception and yields the documents not yet used once. -/
def CompleteFrom (L : List (WeightedTree K)) (used : TreeSet ℤ) (out : List (ℤ × K) × End) : Prop :=
  out.2 = .finished ∧ (out.1.map Prod.fst).Nodup ∧
    ∀ docid, docid ∈ out.1.map Prod.fst ↔ Occurs L docid ∧ docid ∉ used

theorem completeFrom_cons {L : List (WeightedTree K)} {used : TreeSet ℤ} {y : ℤ × K}
    {out : List (ℤ × K) × End} (hoccurs : Occurs L y.1) (hnew : y.1 ∉ used) :
    CompleteFrom L used (y :: out.1, out.2) ↔ CompleteFrom L (used.insert y.1) out := by
  have hinsert : ∀ d, d ∉ used.insert y.1 ↔ d ≠ y.1 ∧ d ∉ used := fun d => by
    rw [TreeSet.mem_insert, not_or]
  simp only [CompleteFrom, List.map_cons, List.nodup_cons, List.mem_cons, hinsert]
  refine ⟨?_, ?_⟩
  · rintro ⟨hend, ⟨hnotin, hnodup⟩, hall⟩
    refine ⟨hend, hnodup, fun d => ⟨fun hd => ?_, fun ⟨hocc, hne, hu⟩ => ?_⟩⟩
    · obtain ⟨hocc, hu⟩ := (hall d).mp (.inr hd)
      exact ⟨hocc, fun heq => hnotin (heq ▸ hd), hu⟩
    · exact ((hall d).mpr ⟨hocc, hu⟩).resolve_left hne
  · rintro ⟨hend, hnodup, hall⟩
    refine ⟨hend, ⟨fun hin => ((hall _).mp hin).2.1 rfl, hnodup⟩, fun d => ⟨?_, fun ⟨hocc, hu⟩ => ?_⟩⟩
    · rintro (rfl | hd)
      · exact ⟨hoccurs, hnew⟩
      · obtain ⟨hocc, -, hu⟩ := (hall d).mp hd
        exact ⟨hocc, hu⟩
    · by_cases hd : d = y.1
      · exact .inl hd
      · exact .inr ((hall d).mpr ⟨hocc, hd, hu⟩)

/-- A round that is part of a complete run starts from a safe state. -/
theorem safeAt_of_completeFrom {L : List (WeightedTree K)} {s s' : State K} {updated : Bool}
    {fuel : ℕ} (hprep : prepare s = .ok (updated, s')) (h : Prepared L updated s')
    (hused : s'.pool.used = s.pool.used) (hc : CompleteFrom L s.pool.used (run (fuel + 1) s)) :
    SafeAt updated s' := by
  obtain ⟨hend, -, hall⟩ := hc
  have hraised : ∀ exc, iteration s ≠ .error exc := by
    intro exc hexc
    simp [run, hexc] at hend
  have horder : Refreshes updated s' → violated s'.terms (freshWindow s') = false := by
    intro hr
    rcases hv : violated s'.terms (freshWindow s') with _ | _
    · rfl
    · exact absurd (iteration_violated hprep hr hv) (hraised _)
  have hstep := iteration_eq hprep horder
  have hwin := h.windowed
  rcases hw : nextWindow updated s' with _ | ⟨e, window⟩
  · simp only [hw] at hstep
    refine ⟨horder, fun hr hlen => ?_, fun _ t ht p hp => ?_, fun e he => by simp [hw] at he⟩
    · rw [nextWindow, if_neg hr] at hw
      simp [hw] at hlen
    · by_contra hu
      obtain ⟨read, hsplit, -⟩ := h.core.split t ht
      have hocc : Occurs L p.docid := ⟨t.source, h.sources ▸ List.mem_map_of_mem ht, p,
        hsplit ▸ List.mem_append_right _ hp, rfl⟩
      have hin := (hall p.docid).mpr ⟨hocc, hused ▸ hu⟩
      simp [run, hstep] at hin
  · simp only [hw] at hstep hwin
    have hlast : ∀ t ∈ s'.terms, ¬LastAtBound e.docid t := by
      intro t ht hl
      obtain ⟨exc, hexc⟩ := yieldEntry_error window ⟨t, ht, hl⟩
      rw [hexc] at hstep
      exact hraised exc hstep
    refine ⟨horder, fun hr ⟨hlen, hsize⟩ => ?_, fun hnil => ?_, fun f hf => ?_⟩
    · -- the third document stays behind the window
      obtain ⟨hidle, hsmall⟩ := h.small hr hlen
      obtain ⟨y, terms', hyield, htaken⟩ := @yieldEntry_spec _ _ _ e window s' h.core.sorted
        (hwin.minw e List.mem_cons_self) hlast
      obtain ⟨d, hd, hout⟩ : ∃ d, d ∈ s'.pool.minsDict ∧ d ∉ (e :: window).map Entry.docid := by
        by_contra hnone
        push Not at hnone
        have hle := BTree.size_le_length _ hnone
        rw [nextWindow, if_neg hr] at hw
        rw [hsize, List.length_map, ← hw, hlen] at hle
        omega
      rw [List.map_cons, List.mem_cons, not_or] at hout
      have hcount := holders_spec htaken
      have hstuck : Stuck d {
          terms := terms'
          pool := s'.pool.use e
          cacheLen := s'.cacheLen.map fun n => n - (holders e.docid s'.terms : ℤ)
          window := window } := by
        refine ⟨fun t' ht' => ?_, ?_, hout.2⟩
        · obtain ⟨t, ht, htake⟩ := (taken_mem htaken).1 t' ht'
          rw [htake.iter]
          exact dead_of_few (h.idle hidle).2 hsmall t ht
        · refine ⟨(cachedCount s'.terms : ℤ) - holders e.docid s'.terms, by rw [h.cacheLen]; rfl, ?_⟩
          have : (cachedCount s'.terms : ℤ) ≤ orderViolation := by exact_mod_cast hsmall
          omega
      have hin := (hall d).mpr ⟨h.core.occurs h.sources hd, hused ▸ h.core.fresh d hd⟩
      rw [hyield] at hstep
      simp only [run, hstep, Except.map, List.map_cons, List.mem_cons] at hin
      exact hin.elim hout.1 (hstuck.run fuel)
    · rw [hw] at hnil
      cases hnil
    · rw [hw] at hf
      cases hf
      exact hlast

/-- How many documents are left. -/
def remaining (L : List (WeightedTree K)) (used : TreeSet ℤ) : ℕ :=
  ((L.flatMap fun w => w.tree.toList.map Posting.docid).toFinset.filter (· ∉ used)).card

theorem remaining_insert {L : List (WeightedTree K)} {used : TreeSet ℤ} {docid : ℤ}
    (hocc : Occurs L docid) (hnew : docid ∉ used) :
    remaining L (used.insert docid) < remaining L used := by
  obtain ⟨w, hw, p, hp, rfl⟩ := hocc
  refine Finset.card_lt_card ⟨fun d hd => ?_, fun hsub => ?_⟩
  · rw [Finset.mem_filter, TreeSet.mem_insert, not_or] at hd
    exact Finset.mem_filter.mpr ⟨hd.1, hd.2.2⟩
  · have hin := hsub (Finset.mem_filter.mpr ⟨List.mem_toFinset.mpr
      (List.mem_flatMap.mpr ⟨w, hw, List.mem_map_of_mem hp⟩), hnew⟩)
    rw [Finset.mem_filter, TreeSet.mem_insert] at hin
    exact hin.2 (.inl rfl)

/-- The run lemma: from a state of the main loop, the rest of the run is complete exactly
when every round of it starts from a safe state. -/
theorem completeFrom_iff_safe {L : List (WeightedTree K)} {s : State K} (h : Inv L s) {fuel : ℕ}
    (hfuel : remaining L s.pool.used < fuel) :
    CompleteFrom L s.pool.used (run fuel s) ↔ ∀ s' ∈ heads fuel s, Safe s' := by
  induction fuel generalizing s with
  | zero => omega
  | succ fuel ih =>
    obtain ⟨updated, s₁, hprep, hprepared, hused⟩ := prepare_spec h
    have hsafe_iff : Safe s ↔ SafeAt updated s₁ := by
      refine ⟨fun hs => hs _ _ hprep, fun hs u s₂ h₂ => ?_⟩
      rw [hprep] at h₂
      cases h₂
      exact hs
    by_cases hsafe : SafeAt updated s₁
    · have hwin := hprepared.windowed
      rcases hw : nextWindow updated s₁ with _ | ⟨e, window⟩
      · have hstep := iteration_eq hprep hsafe.order
        simp only [hw] at hstep
        have hheads : heads (fuel + 1) s = [s] := by simp only [heads, hstep]
        rw [hheads, List.forall_mem_singleton, hsafe_iff, iff_true_right hsafe]
        simp only [run, hstep]
        refine ⟨rfl, List.nodup_nil, fun d => ⟨(fun hd => nomatch hd), fun ⟨hocc, hu⟩ => ?_⟩⟩
        rcases hprepared.core.cases_of_occurs hprepared.sources hocc with hu' | hd | ⟨t, ht, p, hp, rfl⟩
        · exact absurd (hused ▸ hu') hu
        · have := hwin.outside d hd (by simp [hw])
          simp [hw] at this
        · exact absurd (hused ▸ hsafe.unread hw t ht p hp) hu
      · obtain ⟨y, s₂, hstep, hinv, hused₂⟩ := iteration_step hprep hprepared hsafe hw
        have he := BTree.mem_of_get _ (hwin.minw e (by rw [hw]; exact List.mem_cons_self))
        have hocc := hprepared.core.occurs hprepared.sources he
        have hnew : e.docid ∉ s.pool.used := hused ▸ hprepared.core.fresh _ he
        have hused₃ : s₂.pool.used = s.pool.used.insert e.docid := by rw [hused₂, hused]
        have hless := remaining_insert hocc hnew
        have hrec := @ih s₂ hinv (by rw [hused₃]; omega)
        rw [hused₃] at hrec
        have hheads : heads (fuel + 1) s = s :: heads fuel s₂ := by simp only [heads, hstep]
        have hrun : run (fuel + 1) s = ((e.docid, y) :: (run fuel s₂).1, (run fuel s₂).2) := by
          simp only [run, hstep]
        rw [hrun, completeFrom_cons hocc hnew, hheads, List.forall_mem_cons, hsafe_iff, hrec]
        exact (and_iff_right hsafe).symm
    · refine ⟨fun hc => absurd (safeAt_of_completeFrom hprep hprepared hused hc) hsafe, fun hs => ?_⟩
      refine absurd (hsafe_iff.mp (hs s ?_)) hsafe
      rw [heads]
      split <;> exact List.mem_cons_self

theorem inv_init {L : List (WeightedTree K)} (hL : L ≠ []) : Inv L (init L) := by
  have hempty : ∀ t ∈ (init L).terms, ∀ d, d ∉ t.cache := by
    intro t ht d
    obtain ⟨w, -, rfl⟩ := List.mem_map.mp ht
    exact Std.ExtTreeMap.not_mem_empty
  refine ⟨⟨fun t ht => ?_, fun d => ?_, fun p => ?_, fun d hd => ?_⟩, ?_, .inr ?_,
    ⟨(fun e he => nomatch he), List.nodup_nil, fun d hd => ?_⟩⟩
  · obtain ⟨w, -, rfl⟩ := List.mem_map.mp ht
    exact ⟨[], rfl, (fun p hp => nomatch hp), fun d hd => absurd hd (hempty _ ht d)⟩
  · exact ⟨fun hd => absurd hd Std.ExtTreeMap.not_mem_empty,
      fun ⟨t, ht, hd⟩ => absurd hd (hempty t ht d)⟩
  · simp [init]
  · exact absurd hd Std.ExtTreeMap.not_mem_empty
  · rw [init, List.map_map]
    exact List.map_id L
  · obtain ⟨w, ws, rfl⟩ := List.exists_cons_of_ne_nil hL
    exact ⟨_, List.mem_cons_self, rfl, by simp [cacheSize]⟩
  · exact absurd hd Std.ExtTreeMap.not_mem_empty

theorem remaining_lt_rounds (L : List (WeightedTree K)) : remaining L ∅ < rounds L := by
  refine Nat.lt_succ_of_le ((Finset.card_filter_le _ _).trans ((List.toFinset_card_le _).trans ?_))
  simp [List.length_flatMap]

/-- **Completeness of the incremental ranked union**: of two or more trees every document
is yielded exactly once, without an exception, if and only if every round of the main
loop starts from a safe state. -/
theorem complete_iff_safe (w₁ w₂ : WeightedTree K) (ws : List (WeightedTree K)) :
    Complete (w₁ :: w₂ :: ws) ↔
      ∀ s ∈ heads (rounds (w₁ :: w₂ :: ws)) (init (w₁ :: w₂ :: ws)), Safe s := by
  rw [← completeFrom_iff_safe (inv_init (List.cons_ne_nil _ _)) (remaining_lt_rounds _)]
  simp [Complete, CompleteFrom, massWeightedUnion, init]

/-- A tree of the given documents, all with the score and the weight one. -/
def equalScores (docids : List ℤ) (h : docids ≠ []) : WeightedTree ℚ where
  tree := Std.ExtTreeSet.ofList (docids.map fun d => ⟨-1, d⟩) compare
  weight := 1
  nonempty hnil := by
    obtain ⟨d, hd⟩ := List.exists_mem_of_ne_nil _ h
    have hin : (⟨-1, d⟩ : Posting ℚ) ∈
        Std.ExtTreeSet.ofList (docids.map fun d => (⟨-1, d⟩ : Posting ℚ)) compare :=
      TreeSet.mem_ofList.mpr (List.mem_map_of_mem hd)
    rw [← Std.ExtTreeSet.mem_toList, hnil] at hin
    cases hin
  score_pos p hp := by
    obtain ⟨d, -, rfl⟩ := List.mem_map.mp
      (TreeSet.mem_ofList.mp (Std.ExtTreeSet.mem_toList.mp hp))
    norm_num
  docid_unique := by
    refine List.Nodup.map_on (fun p hp q hq hd => ?_) (TreeSet.nodup_toList _)
    obtain ⟨d, -, rfl⟩ := List.mem_map.mp
      (TreeSet.mem_ofList.mp (Std.ExtTreeSet.mem_toList.mp hp))
    obtain ⟨d', -, rfl⟩ := List.mem_map.mp
      (TreeSet.mem_ofList.mp (Std.ExtTreeSet.mem_toList.mp hq))
    exact congrArg _ hd
  weight_pos := one_pos

/-- Sixteen documents in two trees: the last one is not yielded, since the window of 15
is computed once and kept when the three last documents are left. -/
theorem sixteenth_lost : ¬Complete [equalScores ((List.range 15).map Nat.cast) (by decide),
    equalScores [15] (by decide)] := by
  intro h
  have hlost : (15 : ℤ) ∉ (massWeightedUnion [equalScores ((List.range 15).map Nat.cast) (by decide),
      equalScores [15] (by decide)]).1.map Prod.fst := by
    decide +kernel
  exact hlost ((h.2.2 15).mpr ⟨equalScores [15] (by decide), by simp, ⟨-1, 15⟩,
    by decide +kernel, rfl⟩)

end RankedUnion

end Zerodb
