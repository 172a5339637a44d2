import Zerodb.RankedUnion

/-!
# UnionBounds: the score intervals of the ranked union

A document is yielded with the mean of two bounds of its total score: the sum of the scores
read so far, and that sum with the bounds of the trees that have not shown it yet. What has
been read of a tree bounds what has not, since it is sorted, and so does every cached score.

* `totalScore` — the sum over all trees;
* `Term.Sound`, `Sound` — known part and bounds are right for all documents not yet yielded;
* `intervals_sound` — every document is yielded once, between bounds of its total score.
-/

namespace Zerodb

namespace RankedUnion

variable {K : Type} [Field K] [LinearOrder K]

/-! ## Scores

The specification of a score is a sum over the trees, whatever is read of them in which order. -/

/-- What some pairs give to the score of a document. -/
def scoreIn (weight : K) (docid : ℤ) (l : List (Posting K)) : K :=
  ((l.filter fun p => decide (p.docid = docid)).map fun p => -p.score * weight).sum

/-- The weighted score of a document in a tree, zero if it is not there. -/
def WeightedTree.scoreOf (w : WeightedTree K) (docid : ℤ) : K :=
  scoreIn w.weight docid w.tree.toList

/-- The total weighted score of a document. -/
def totalScore (L : List (WeightedTree K)) (docid : ℤ) : K := (L.map (·.scoreOf docid)).sum

section Scores

variable {weight : K} {docid : ℤ}

omit [LinearOrder K] in
theorem scoreIn_cons (p : Posting K) (l : List (Posting K)) : scoreIn weight docid (p :: l) =
    (if p.docid = docid then -p.score * weight else 0) + scoreIn weight docid l := by
  by_cases h : p.docid = docid
  · simp [scoreIn, h]
  · simp [scoreIn, h]

omit [LinearOrder K] in
theorem scoreIn_of_not_mem {l : List (Posting K)} (h : ∀ p ∈ l, p.docid ≠ docid) :
    scoreIn weight docid l = 0 := by
  have hnil : l.filter (fun p => decide (p.docid = docid)) = [] :=
    List.filter_eq_nil_iff.mpr fun p hp => by simpa using h p hp
  rw [scoreIn, hnil]
  rfl

theorem scoreIn_nonneg [IsStrictOrderedRing K] (hweight : 0 < weight) {l : List (Posting K)}
    (h : ∀ p ∈ l, 0 < -p.score) :
    0 ≤ scoreIn weight docid l := by
  refine List.sum_nonneg fun x hx => ?_
  obtain ⟨p, hp, rfl⟩ := List.mem_map.mp hx
  exact (mul_pos (h p (List.mem_of_mem_filter hp)) hweight).le

/-- A bound of all pairs bounds the one of the document. -/
theorem scoreIn_le {bound : K} (hbound : 0 ≤ bound) {l : List (Posting K)}
    (hnodup : (l.map Posting.docid).Nodup) (h : ∀ p ∈ l, -p.score * weight ≤ bound) :
    scoreIn weight docid l ≤ bound := by
  induction l with
  | nil => exact hbound
  | cons p l ih =>
    rw [List.map_cons, List.nodup_cons] at hnodup
    obtain ⟨hp, hl⟩ := List.forall_mem_cons.mp h
    rw [scoreIn_cons]
    by_cases hd : p.docid = docid
    · have hzero : scoreIn weight docid l = 0 := by
        refine scoreIn_of_not_mem fun q hq hqd => hnodup.1 ?_
        rw [hd, ← hqd]
        exact List.mem_map_of_mem hq
      rw [if_pos hd, hzero, add_zero]
      exact hp
    · rw [if_neg hd, zero_add]
      exact ih hnodup.2 hl

end Scores

omit [Field K] in
/-- The pairs of a tree come with the largest score first. -/
theorem pairwise_score_toList (tree : TreeSet (Posting K)) :
    tree.toList.Pairwise fun p q => p.score ≤ q.score := by
  refine Std.ExtTreeSet.ordered_toList.imp fun {p q} hlt => ?_
  have hle : (compare p.score q.score).then (compare p.docid q.docid) = .lt := hlt
  rcases Ordering.then_eq_lt.mp hle with hlt | ⟨heq, -⟩
  · exact (compare_lt_iff_lt.mp hlt).le
  · exact (compare_eq_iff_eq.mp heq).le

/-! ## One tree

`Term.Sound` says of one tree that a document not yielded is unread or cached with its score
there, and that neither exceeds the bound. It depends on no other tree, but for the sums of the
pool and which documents have been yielded. -/

/-- The part of a document's score that is cached. -/
def Term.known (t : Term K) (docid : ℤ) : K := t.cache[docid]?.getD 0

/-- The tree with its number, if the document is cached. -/
def Term.holds (i : ℕ) (t : Term K) (docid : ℤ) : Multiset ℕ := if docid ∈ t.cache then {i} else 0

/-- The caches a document was put into. -/
def Pool.ids (pool : Pool K) (docid : ℤ) : Multiset ℕ := (pool.cacheIds[docid]?.getD [] : List ℕ)

/-- **What is kept for a tree is right.** -/
structure Term.Sound (used : TreeSet ℤ) (t : Term K) : Prop where
  /-- cached and unread part make up the score -/
  part : ∀ d, d ∉ used → t.known d + scoreIn t.source.weight d t.rest = t.source.scoreOf d
  /-- what is unread is sorted -/
  sorted : t.rest.Pairwise fun p q => p.score ≤ q.score
  /-- bounded -/
  bound : ∀ p ∈ t.rest, -p.score * t.source.weight ≤ t.unreadMax
  /-- and no larger than what is cached -/
  below : ∀ p ∈ t.rest, ∀ x, (∃ d : ℤ, t.cache[d]? = some x) → -p.score * t.source.weight ≤ x
  /-- bounds are not negative -/
  nonneg : 0 ≤ t.unreadMax
  /-- cached scores are positive -/
  pos : ∀ x, (∃ d : ℤ, t.cache[d]? = some x) → 0 < x

/-- What reading from a tree changes: the sums and the lists of caches, as the cache. -/
structure Advanced (i : ℕ) (t t' : Term K) (pool pool' : Pool K) : Prop where
  /-- nothing is yielded -/
  used : pool'.used = pool.used
  /-- the sums grow by what is cached -/
  sums : ∀ d : ℤ, pool'.minsDict[d]?.getD 0 + t.known d = pool.minsDict[d]?.getD 0 + t'.known d
  /-- and so do the lists -/
  ids : ∀ d : ℤ, pool'.ids d + t.holds i d = pool.ids d + t'.holds i d

theorem Advanced.of_same {i : ℕ} {t t' : Term K} {pool : Pool K} (hcache : t'.cache = t.cache) :
    Advanced i t t' pool pool where
  used := rfl
  sums d := by rw [Term.known, Term.known, hcache]
  ids d := by rw [Term.holds, Term.holds, hcache]

theorem Advanced.trans {i : ℕ} {t₁ t₂ t₃ : Term K} {pool₁ pool₂ pool₃ : Pool K}
    (h : Advanced i t₁ t₂ pool₁ pool₂) (h' : Advanced i t₂ t₃ pool₂ pool₃) :
    Advanced i t₁ t₃ pool₁ pool₃ where
  used := h'.used.trans h.used
  sums d := by
    have hfirst := h.sums d
    have hsecond := h'.sums d
    linear_combination hfirst + hsecond
  ids d := by
    have hfirst := h.ids d
    have hsecond := h'.ids d
    apply add_right_cancel (b := t₂.holds i d)
    calc pool₃.ids d + t₁.holds i d + t₂.holds i d
        = pool₃.ids d + t₂.holds i d + t₁.holds i d := add_right_comm _ _ _
      _ = pool₂.ids d + t₁.holds i d + t₃.holds i d := by rw [hsecond, add_right_comm]
      _ = pool₁.ids d + t₃.holds i d + t₂.holds i d := by rw [hfirst, add_right_comm]

/-- What `addScore` does. -/
theorem addScore_eq_ok {i : ℕ} {docid : ℤ} {score : K} {pool pool' : Pool K}
    (h : pool.addScore i docid score = .ok pool') : pool'.used = pool.used ∧
      pool'.minsDict = pool.minsDict.insert docid (pool.minsDict[docid]?.getD 0 + score) ∧
      pool'.cacheIds = pool.cacheIds.insert docid (pool.cacheIds[docid]?.getD [] ++ [i]) := by
  rcases hold : pool.minsDict[docid]? with _ | old
  · simp only [Pool.addScore, hold] at h
    obtain rfl := Except.ok.inj h
    exact ⟨rfl, rfl, rfl⟩
  · simp only [Pool.addScore, hold] at h
    split at h
    · obtain rfl := Except.ok.inj h
      exact ⟨rfl, rfl, rfl⟩
    · cases h

/-- A document that is cached anew. -/
theorem advanced_addScore {i : ℕ} {docid : ℤ} {score : K} {t t' : Term K} {pool pool' : Pool K}
    (h : pool.addScore i docid score = .ok pool') (hnew : docid ∉ t.cache)
    (hcache : t'.cache = t.cache.insert docid score) : Advanced i t t' pool pool' := by
  obtain ⟨hused, hmins, hids⟩ := addScore_eq_ok h
  refine ⟨hused, fun d => ?_, fun d => ?_⟩
  · rw [Term.known, Term.known, hmins, hcache, BTree.get_insert, BTree.get_insert]
    by_cases hd : docid = d
    · subst hd
      rw [if_pos rfl, if_pos rfl, (BTree.not_mem_iff _).mp hnew]
      simp
    · rw [if_neg hd, if_neg hd]
  · rw [Pool.ids, Pool.ids, hids, Term.holds, Term.holds, hcache, BTree.get_insert]
    by_cases hd : docid = d
    · subst hd
      rw [if_pos rfl, if_neg hnew, if_pos ((BTree.mem_insert _).mpr (.inl rfl)), add_zero]
      rfl
    · have hiff : d ∈ t.cache.insert docid score ↔ d ∈ t.cache := by
        rw [BTree.mem_insert]
        exact or_iff_right (Ne.symm hd)
      simp only [if_neg hd, hiff]

/-- What is unread of a tree is not cached. -/
theorem Term.Inv.not_cached {used : TreeSet ℤ} {t : Term K} (h : t.Inv used) {p : Posting K}
    (hp : p ∈ t.rest) : p.docid ∉ t.cache := by
  obtain ⟨read, hsplit, -, hcache⟩ := h
  intro hmem
  obtain ⟨q, hq, hqd⟩ := hcache _ hmem
  have hnodup := t.source.docid_unique
  rw [hsplit, List.map_append, List.nodup_append] at hnodup
  exact hnodup.2.2 _ (List.mem_map_of_mem hq) _ (List.mem_map_of_mem hp) hqd

theorem Term.Inv.rest_subset {used : TreeSet ℤ} {t : Term K} (h : t.Inv used) {p : Posting K}
    (hp : p ∈ t.rest) : p ∈ t.source.tree.toList := by
  obtain ⟨read, hsplit, -, -⟩ := h
  rw [hsplit]
  exact List.mem_append_right _ hp

theorem Term.Inv.nodup_rest {used : TreeSet ℤ} {t : Term K} (h : t.Inv used) :
    (t.rest.map Posting.docid).Nodup := by
  obtain ⟨read, hsplit, -, -⟩ := h
  have hnodup := t.source.docid_unique
  rw [hsplit, List.map_append, List.nodup_append] at hnodup
  exact hnodup.2.1

/-! ## Reading

The tree is sorted, so that the score read last bounds all that is unread. Reading one pair keeps
the invariant of its tree, and the other trees only see a sum become larger. -/

section Reading

variable [IsStrictOrderedRing K] {used : TreeSet ℤ} {t : Term K}

/-- A pair is read, and its document cached unless it has been yielded. -/
theorem Term.Sound.read (h : t.Sound used) (hinv : t.Inv used) {p : Posting K}
    {rest : List (Posting K)} (hrest : t.rest = p :: rest) {cache : BTree ℤ K}
    (hcache : p.docid ∈ used ∧ cache = t.cache ∨
      cache = t.cache.insert p.docid (-p.score * t.source.weight)) :
    Term.Sound used { t.lower (-p.score * t.source.weight) with iter := some rest, cache := cache } := by
  set score := -p.score * t.source.weight with hscore
  have hp : p ∈ t.rest := by rw [hrest]; exact List.mem_cons_self
  have hmem : ∀ q ∈ rest, q ∈ t.rest := fun q hq => by
    rw [hrest]
    exact List.mem_cons_of_mem _ hq
  have hsorted := h.sorted
  rw [hrest, List.pairwise_cons] at hsorted
  have hpos : 0 < score := mul_pos (t.source.score_pos p (hinv.rest_subset hp)) t.source.weight_pos
  have hle : ∀ q ∈ rest, -q.score * t.source.weight ≤ score := fun q hq =>
    mul_le_mul_of_nonneg_right (neg_le_neg (hsorted.1 q hq)) t.source.weight_pos.le
  -- a value of the new cache is the new score, or was there
  have hvalue : ∀ x, (∃ d : ℤ, cache[d]? = some x) → x = score ∨ ∃ d : ℤ, t.cache[d]? = some x := by
    rintro x ⟨d, hd⟩
    rcases hcache with ⟨-, rfl⟩ | rfl
    · exact .inr ⟨d, hd⟩
    · rw [BTree.get_insert] at hd
      by_cases heq : p.docid = d
      · rw [if_pos heq] at hd
        exact .inl (Option.some.inj hd).symm
      · rw [if_neg heq] at hd
        exact .inr ⟨d, hd⟩
  refine ⟨fun d hd => ?_, hsorted.2, fun q hq => ?_, fun q hq x hx => ?_, ?_, fun x hx => ?_⟩
  · have hpart := h.part d hd
    rw [hrest, scoreIn_cons] at hpart
    -- the pair moves from what is not read to what is cached
    change cache[d]?.getD 0 + scoreIn t.source.weight d rest = t.source.scoreOf d
    rw [← hpart, Term.known]
    rcases hcache with ⟨hused, rfl⟩ | rfl
    · have hne : p.docid ≠ d := fun heq => hd (heq ▸ hused)
      rw [if_neg hne, zero_add]
    · rw [BTree.get_insert]
      by_cases heq : p.docid = d
      · rw [if_pos heq, if_pos heq, ← heq, (BTree.not_mem_iff _).mp (hinv.not_cached hp)]
        simp only [Option.getD_some, Option.getD_none]
        ring
      · rw [if_neg heq, if_neg heq, zero_add]
  · change -q.score * t.source.weight ≤ if score < t.unreadMax then score else t.unreadMax
    split
    · exact hle q hq
    · exact h.bound q (hmem q hq)
  · rcases hvalue x hx with rfl | hx
    · exact hle q hq
    · exact h.below q (hmem q hq) x hx
  · change 0 ≤ if score < t.unreadMax then score else t.unreadMax
    split
    · exact hpos.le
    · exact h.nonneg
  · rcases hvalue x hx with rfl | hx
    · exact hpos
    · exact h.pos x hx

omit [IsStrictOrderedRing K] in
/-- An exhausted iterator is deleted. -/
theorem Term.Sound.exhausted (h : t.Sound used) (hrest : t.rest = []) :
    Term.Sound used { t with iter := none, unreadMax := 0 } := by
  refine ⟨fun d hd => ?_, List.Pairwise.nil, fun p hp => absurd hp List.not_mem_nil,
    fun p hp => absurd hp List.not_mem_nil, le_rfl, h.pos⟩
  have hpart := h.part d hd
  rwa [hrest] at hpart

/-- **`precache`** keeps what is kept right. -/
theorem precache_sound {i size : ℕ} {t' : Term K} {pool pool' : Pool K}
    (hrun : precache i size t pool = .ok (t', pool')) (hinv : t.Inv pool.used)
    (h : t.Sound pool.used) :
    Advanced i t t' pool pool' ∧ t'.Sound pool.used := by
  induction size generalizing t pool with
  | zero =>
    obtain ⟨rfl, rfl⟩ := Prod.mk.inj (Except.ok.inj hrun)
    exact ⟨.of_same rfl, h⟩
  | succ size ih =>
    rcases hiter : t.iter with _ | _ | ⟨p, rest⟩ <;> simp only [precache, hiter] at hrun
    · cases hrun
    · obtain ⟨rfl, rfl⟩ := Prod.mk.inj (Except.ok.inj hrun)
      exact ⟨.of_same rfl, h.exhausted (by rw [Term.rest, hiter]; rfl)⟩
    · have hrest : t.rest = p :: rest := by rw [Term.rest, hiter]; rfl
      have hnew := hinv.not_cached (by rw [hrest]; exact List.mem_cons_self)
      by_cases hused : p.docid ∈ pool.used
      · -- a document that has been yielded is skipped
        rw [if_pos hused] at hrun
        set t₁ : Term K := { t.lower (-p.score * t.source.weight) with iter := some rest } with ht₁
        have hinv₁ : t₁.Inv pool.used :=
          hinv.read hrest rfl rfl (fun d hd => hd) (.inl hused) fun d hd => .inl hd
        have hadv₁ : Advanced i t t₁ pool pool := .of_same rfl
        obtain ⟨hadv, hsound⟩ := ih hrun hinv₁ (h.read hinv hrest (.inl ⟨hused, rfl⟩))
        exact ⟨hadv₁.trans hadv, hsound⟩
      · rw [if_neg hused] at hrun
        rcases hadd : pool.addScore i p.docid (-p.score * t.source.weight) with e | pool₁
        · simp only [hadd] at hrun
          cases hrun
        · -- any other one is cached, and its sum in the pool grows by as much
          simp only [hadd] at hrun
          set t₁ : Term K := { t.lower (-p.score * t.source.weight) with
            iter := some rest
            cache := t.cache.insert p.docid (-p.score * t.source.weight) } with ht₁
          have hadv₁ : Advanced i t t₁ pool pool₁ := advanced_addScore hadd hnew rfl
          have hcache₁ : ∀ d, d ∈ t₁.cache ↔ d = p.docid ∨ d ∈ t.cache := fun d =>
            BTree.mem_insert _
          have hinv₁ : t₁.Inv pool.used :=
            hinv.read hrest rfl rfl (fun d hd => (hcache₁ d).mpr (.inr hd))
              (.inr ((hcache₁ _).mpr (.inl rfl))) fun d hd => ((hcache₁ d).mp hd).symm
          have hsound₁ : t₁.Sound pool.used := h.read hinv hrest (.inr rfl)
          obtain ⟨hadv, hsound⟩ := ih hrun (hadv₁.used.symm ▸ hinv₁) (hadv₁.used.symm ▸ hsound₁)
          exact ⟨hadv₁.trans hadv, hadv₁.used ▸ hsound⟩

/-- The cached part of a document's score, of all trees. -/
def known (terms : List (Term K)) (docid : ℤ) : K := (terms.map (·.known docid)).sum

/-- The numbers of the trees that have a document cached, from `i` on. -/
def holding : ℕ → List (Term K) → ℤ → Multiset ℕ
  | _, [], _ => 0
  | i, t :: terms, docid => t.holds i docid + holding (i + 1) terms docid

/-- What filling up changes. -/
structure AdvancedAll (i : ℕ) (terms terms' : List (Term K)) (pool pool' : Pool K) : Prop where
  /-- the sums grow by what is cached -/
  sums : ∀ d : ℤ, pool'.minsDict[d]?.getD 0 + known terms d =
    pool.minsDict[d]?.getD 0 + known terms' d
  /-- and so do the lists -/
  ids : ∀ d : ℤ, pool'.ids d + holding i terms d = pool.ids d + holding i terms' d

omit [IsStrictOrderedRing K] in
theorem AdvancedAll.cons {i : ℕ} {t t' : Term K} {terms terms' : List (Term K)}
    {pool pool₁ pool' : Pool K} (h : Advanced i t t' pool pool₁)
    (h' : AdvancedAll (i + 1) terms terms' pool₁ pool') :
    AdvancedAll i (t :: terms) (t' :: terms') pool pool' where
  sums d := by
    have hhead := h.sums d
    have htail := h'.sums d
    simp only [known, List.map_cons, List.sum_cons] at htail ⊢
    linear_combination hhead + htail
  ids d := by
    have hhead := h.ids d
    have htail := h'.ids d
    rw [holding, holding]
    calc pool'.ids d + (t.holds i d + holding (i + 1) terms d)
        = pool'.ids d + holding (i + 1) terms d + t.holds i d := by rw [← add_assoc, add_right_comm]
      _ = pool₁.ids d + t.holds i d + holding (i + 1) terms' d := by rw [htail, add_right_comm]
      _ = pool.ids d + (t'.holds i d + holding (i + 1) terms' d) := by rw [hhead, add_assoc]

/-- Filling up all caches. -/
theorem refill_sound {i : ℕ} {updated : Bool} {terms terms' : List (Term K)} {pool pool' : Pool K}
    (hrun : refill i terms pool = .ok (updated, terms', pool'))
    (hinv : ∀ t ∈ terms, t.Inv pool.used) (h : ∀ t ∈ terms, t.Sound pool.used) :
    AdvancedAll i terms terms' pool pool' ∧ ∀ t ∈ terms', t.Sound pool.used := by
  induction terms generalizing i updated terms' pool with
  | nil =>
    obtain ⟨-, rfl, rfl⟩ : false = updated ∧ [] = terms' ∧ pool = pool' := by
      simpa [refill] using hrun
    exact ⟨⟨fun d => rfl, fun d => rfl⟩, h⟩
  | cons t terms ih =>
    obtain ⟨hinvt, hinv⟩ := List.forall_mem_cons.mp hinv
    obtain ⟨ht, h⟩ := List.forall_mem_cons.mp h
    -- the first cache is filled up or left as it is
    obtain ⟨t₁, pool₁, u, rest, hadv, ht₁, hrest, hterms⟩ : ∃ t₁ pool₁ u rest,
        Advanced i t t₁ pool pool₁ ∧ t₁.Sound pool.used ∧
        refill (i + 1) terms pool₁ = .ok (u, rest, pool') ∧ terms' = t₁ :: rest := by
      by_cases hneed : t.iter.isSome = true ∧ 2 * t.cache.size < cacheSize
      · simp only [refill, if_pos hneed] at hrun
        rcases hpre : precache i (cacheSize - t.cache.size) t pool with e | ⟨t₁, pool₁⟩
        · simp only [hpre] at hrun
          cases hrun
        · simp only [hpre] at hrun
          rcases hrest : refill (i + 1) terms pool₁ with e | ⟨u, rest, pool₂⟩
          · simp only [hrest] at hrun
            cases hrun
          · simp only [hrest] at hrun
            cases hrun
            obtain ⟨hadv, ht₁⟩ := precache_sound hpre hinvt ht
            exact ⟨t₁, pool₁, u, rest, hadv, ht₁, hrest, rfl⟩
      · simp only [refill, if_neg hneed] at hrun
        rcases hrest : refill (i + 1) terms pool with e | ⟨u, rest, pool₂⟩
        · simp only [hrest] at hrun
          cases hrun
        · simp only [hrest] at hrun
          cases hrun
          exact ⟨t, pool, _, rest, .of_same rfl, ht, hrest, rfl⟩
    have hused := hadv.used
    obtain ⟨hall, hsound⟩ := ih hrest (hused ▸ hinv) (hused ▸ h)
    rw [hterms]
    exact ⟨.cons hadv hall, List.forall_mem_cons.mpr ⟨ht₁, hused ▸ hsound⟩⟩

end Reading

/-! ## Taking a document out

When the document had the bound for its score, the bound becomes the largest score that is still
cached. This is no smaller than any unread one, since what is cached has been read before. -/

section Taking

variable {used : TreeSet ℤ} {docid : ℤ} {t t' : Term K}

/-- A document is taken out, and the bound becomes another one. -/
theorem Term.Sound.erase (h : t.Sound used) {u : K}
    (hbound : ∀ p ∈ t.rest, -p.score * t.source.weight ≤ u) (hu : 0 ≤ u) :
    Term.Sound (used.insert docid) { t with cache := t.cache.erase docid, unreadMax := u } := by
  have hvalue : ∀ x, (∃ d : ℤ, (t.cache.erase docid)[d]? = some x) →
      ∃ d : ℤ, t.cache[d]? = some x := by
    rintro x ⟨d, hd⟩
    rw [BTree.get_erase] at hd
    split at hd
    · cases hd
    · exact ⟨d, hd⟩
  refine ⟨fun d hd => ?_, h.sorted, hbound, fun p hp x hx => h.below p hp x (hvalue x hx), hu,
    fun x hx => h.pos x (hvalue x hx)⟩
  rw [TreeSet.mem_insert, not_or] at hd
  rw [← h.part d hd.2, Term.known, Term.known, BTree.get_erase, if_neg (Ne.symm hd.1)]
  rfl

/-- `take` keeps what is kept right, and other documents. -/
theorem Term.Sound.take (h : t.Sound used) (hrun : t.take docid = .ok t') :
    t'.Sound (used.insert docid) ∧ ∀ d, d ≠ docid → t'.cache[d]? = t.cache[d]? := by
  rcases hget : t.cache[docid]? with _ | score <;> simp only [Term.take, hget] at hrun
  · obtain rfl := Except.ok.inj hrun
    refine ⟨⟨fun d hd => h.part d fun hu => hd ((TreeSet.mem_insert _).mpr (.inr hu)), h.sorted,
      h.bound, h.below, h.nonneg, h.pos⟩, fun d _ => rfl⟩
  · by_cases hbound : score = t.unreadMax
    · rw [if_pos hbound] at hrun
      rcases hmax : ((t.cache.erase docid).toList.map Prod.snd).max? with _ | m
      · simp only [hmax] at hrun
        cases hrun
      · simp only [hmax] at hrun
        obtain rfl := Except.ok.inj hrun
        -- the new bound is a cached score
        have hm : ∃ d : ℤ, t.cache[d]? = some m := by
          obtain ⟨e, he, rfl⟩ := List.mem_map.mp (List.max?_mem hmax)
          have hd := Std.ExtTreeMap.mem_toList_iff_getElem?_eq_some.mp he
          rw [BTree.get_erase] at hd
          split at hd
          · cases hd
          · exact ⟨e.1, hd⟩
        exact ⟨h.erase (fun p hp => h.below p hp m hm) (h.pos m hm).le,
          fun d hd => BTree.get_erase_ne _ (Ne.symm hd)⟩
    · rw [if_neg hbound] at hrun
      obtain rfl := Except.ok.inj hrun
      exact ⟨h.erase h.bound h.nonneg, fun d hd => BTree.get_erase_ne _ (Ne.symm hd)⟩

theorem takeAll_sound {terms terms' : List (Term K)} (hrun : takeAll docid terms = .ok terms')
    (h : ∀ t ∈ terms, t.Sound used) : (∀ t ∈ terms', t.Sound (used.insert docid)) ∧
      ∀ d, d ≠ docid → known terms' d = known terms d ∧
        ∀ i, holding i terms' d = holding i terms d := by
  induction terms generalizing terms' with
  | nil =>
    obtain rfl := Except.ok.inj hrun
    exact ⟨fun t ht => absurd ht List.not_mem_nil, fun d _ => ⟨rfl, fun i => rfl⟩⟩
  | cons t terms ih =>
    obtain ⟨ht, h⟩ := List.forall_mem_cons.mp h
    rcases htake : t.take docid with e | t₁
    · simp only [takeAll, htake] at hrun
      cases hrun
    · rcases hrest : takeAll docid terms with e | rest
      · simp only [takeAll, htake, hrest] at hrun
        cases hrun
      · simp only [takeAll, htake, hrest] at hrun
        obtain rfl := Except.ok.inj hrun
        obtain ⟨hsound, hget⟩ := ht.take htake
        obtain ⟨hall, hother⟩ := ih hrest h
        refine ⟨List.forall_mem_cons.mpr ⟨hsound, hall⟩, fun d hd => ⟨?_, fun i => ?_⟩⟩
        · rw [known, known, List.map_cons, List.map_cons, List.sum_cons, List.sum_cons, Term.known,
            Term.known, hget d hd]
          exact congrArg _ (hother d hd).1
        · have hiff : d ∈ t₁.cache ↔ d ∈ t.cache := by rw [BTree.mem_iff, BTree.mem_iff, hget d hd]
          rw [holding, holding, (hother d hd).2, Term.holds, Term.holds]
          simp only [hiff]

end Taking

/-! ## The state of the main loop

The sums and the lists of caches relate all trees. A total score is the sum of the known part and
the unread one, and the unread part is bounded tree by tree: by nothing where the document is
cached, and by the bound of the tree elsewhere. -/

/-- **What is kept is right.** -/
structure Sound (L : List (WeightedTree K)) (s : State K) : Prop where
  /-- caches and sums -/
  core : Core s.terms s.pool
  /-- the trees are those of the call -/
  sources : s.terms.map Term.source = L
  /-- per tree -/
  terms : ∀ t ∈ s.terms, t.Sound s.pool.used
  /-- the sums are those of the caches -/
  sums : ∀ d : ℤ, d ∉ s.pool.used → s.pool.minsDict[d]?.getD 0 = known s.terms d
  /-- the lists of caches are right -/
  ids : ∀ d : ℤ, d ∉ s.pool.used → s.pool.ids d = holding 0 s.terms d

/-- The bounds of an element of the window are right. -/
def Entry.Bounds (L : List (WeightedTree K)) (e : Entry K) : Prop :=
  e.minw ≤ totalScore L e.docid ∧ totalScore L e.docid ≤ e.maxw

/-- The element of a new window for a pair of `sorted_mins`. -/
def State.entry (s : State K) (p : Posting K) : Entry K :=
  let known := (s.pool.cacheIds[p.docid]?.getD []).map fun i =>
    (s.terms[i]?.map Term.unreadMax).getD 0
  ⟨p.docid, -p.score, maxSum s.terms - known.sum - p.score⟩

theorem freshWindow_eq (s : State K) :
    freshWindow s = (s.pool.sortedMins.toList.take orderSize).map s.entry := rfl

/-- The bounds of the trees that have a document cached. -/
theorem sum_holding (terms' terms : List (Term K)) (docid : ℤ) :
    ((holding terms'.length terms docid).map fun i =>
      ((terms' ++ terms)[i]?.map Term.unreadMax).getD 0).sum =
      (terms.map fun t => if docid ∈ t.cache then t.unreadMax else 0).sum := by
  induction terms generalizing terms' with
  | nil => rfl
  | cons t terms ih =>
    have htail := ih (terms' ++ [t])
    rw [List.length_append, List.length_singleton, List.append_assoc, List.singleton_append] at htail
    rw [holding, Multiset.map_add, Multiset.sum_add, htail, List.map_cons, List.sum_cons, Term.holds]
    by_cases hd : docid ∈ t.cache
    · simp [hd]
    · simp [hd]

section Bounds

variable [IsStrictOrderedRing K] {L : List (WeightedTree K)} {s s' : State K} {d : ℤ}

omit [IsStrictOrderedRing K] in
/-- Known and unread part of a total score. -/
theorem Sound.totalScore_eq (h : Sound L s) (hd : d ∉ s.pool.used) : totalScore L d =
    known s.terms d + (s.terms.map fun t => scoreIn t.source.weight d t.rest).sum := by
  rw [← h.sources, totalScore, List.map_map, known, ← List.sum_map_add]
  refine congrArg List.sum (List.map_congr_left fun t ht => ?_)
  exact ((h.terms t ht).part d hd).symm

/-- A tree gives nothing more to a document that it has cached, and no more than its bound to
another one. -/
theorem Sound.unread_le (h : Sound L s) :
    (s.terms.map fun t => scoreIn t.source.weight d t.rest).sum +
      (s.terms.map fun t => if d ∈ t.cache then t.unreadMax else 0).sum ≤ maxSum s.terms := by
  rw [maxSum, ← List.sum_map_add]
  refine List.sum_le_sum fun t ht => ?_
  by_cases hd : d ∈ t.cache
  · rw [if_pos hd, scoreIn_of_not_mem, zero_add]
    rintro p hp rfl
    exact (h.core.split t ht).not_cached hp hd
  · rw [if_neg hd, add_zero]
    exact scoreIn_le (h.terms t ht).nonneg (h.core.split t ht).nodup_rest (h.terms t ht).bound

/-- The bounds of a cached document are right. -/
theorem Sound.entry_bounds (h : Sound L s) {p : Posting K} (hp : p ∈ s.pool.sortedMins) :
    (s.entry p).Bounds L := by
  have hget := (h.core.sorted p).mp hp
  have hd := h.core.fresh _ (BTree.mem_of_get _ hget)
  have hsum := h.sums _ hd
  rw [hget, Option.getD_some] at hsum
  have htotal := h.totalScore_eq hd
  have hnonneg : 0 ≤ (s.terms.map fun t => scoreIn t.source.weight p.docid t.rest).sum := by
    refine List.sum_nonneg fun x hx => ?_
    obtain ⟨t, ht, rfl⟩ := List.mem_map.mp hx
    exact scoreIn_nonneg t.source.weight_pos fun q hq =>
      t.source.score_pos q ((h.core.split t ht).rest_subset hq)
  have hheld : ((s.pool.cacheIds[p.docid]?.getD []).map fun i =>
      (s.terms[i]?.map Term.unreadMax).getD 0).sum =
      (s.terms.map fun t => if p.docid ∈ t.cache then t.unreadMax else 0).sum := by
    rw [← sum_holding [] s.terms p.docid, List.length_nil, ← h.ids _ hd, Pool.ids,
      Multiset.map_coe, Multiset.sum_coe]
    rfl
  refine ⟨?_, ?_⟩
  · change -p.score ≤ totalScore L p.docid
    rw [htotal, ← hsum]
    linarith
  · have hle := @Sound.unread_le _ _ _ _ L s p.docid h
    change totalScore L p.docid ≤ maxSum s.terms - List.sum _ - p.score
    rw [hheld, htotal, ← hsum]
    linarith

/-- A document that is neither yielded nor cached has no more than all bounds together. -/
theorem Sound.totalScore_le (h : Sound L s) (hd : d ∉ s.pool.used) (hnot : d ∉ s.pool.minsDict) :
    totalScore L d ≤ maxSum s.terms := by
  have hsum := h.sums d hd
  rw [(BTree.not_mem_iff _).mp hnot, Option.getD_none] at hsum
  have hzero : (s.terms.map fun t => if d ∈ t.cache then t.unreadMax else 0).sum = 0 := by
    refine List.sum_eq_zero fun x hx => ?_
    obtain ⟨t, ht, rfl⟩ := List.mem_map.mp hx
    exact if_neg fun hmem => hnot ((h.core.keys d).mpr ⟨t, ht, hmem⟩)
  have hle := @Sound.unread_le _ _ _ _ L s d h
  rw [h.totalScore_eq hd, ← hsum, zero_add]
  rwa [hzero, add_zero] at hle

/-! ## A round

An element of the window keeps its bounds while others are yielded: what is read later makes the
bounds closer, and those of a document that is in the window were right before. -/

/-- Filling up the caches keeps what is kept right. -/
theorem Sound.prepare (h : Sound L s) : ∃ updated s', prepare s = .ok (updated, s') ∧ Sound L s' ∧
    s'.window = s.window ∧ s'.pool.used = s.pool.used := by
  obtain ⟨updated, terms, pool, hrun, href⟩ := @refill_spec _ _ _ 0 s.terms s.pool h.core.split
    h.core.sorted fun t ht d hd => (h.core.keys d).mpr ⟨t, ht, hd⟩
  obtain ⟨hadv, hterms⟩ := refill_sound hrun h.core.split h.terms
  refine ⟨updated, { s with
      terms := terms
      pool := pool
      cacheLen := if updated then some (cachedCount terms : ℤ) else s.cacheLen },
    by simp only [RankedUnion.prepare, hrun], ⟨h.core.refilled href, href.sources.trans h.sources,
    href.used.symm ▸ hterms, fun d hd => ?_, fun d hd => ?_⟩, rfl, href.used⟩
  · have hsums := hadv.sums d
    rw [h.sums d (href.used ▸ hd), add_comm] at hsums
    exact add_left_cancel hsums
  · have hids := hadv.ids d
    rw [h.ids d (href.used ▸ hd), add_comm] at hids
    exact add_left_cancel hids

omit [IsStrictOrderedRing K] in
/-- And so does yielding a document, which was not yielded before. -/
theorem Sound.yield (h : Sound L s) {e : Entry K} {window : List (Entry K)} {y : ℤ × K}
    (hrun : yieldEntry e window s = .ok (y, s')) :
    y = (e.docid, (e.minw + e.maxw) / 2) ∧ e.docid ∈ s.pool.minsDict ∧ s'.window = window ∧
      s'.pool.used = s.pool.used.insert e.docid ∧ Sound L s' := by
  obtain ⟨-, -, -, htaken⟩ := yieldEntry_eq_ok hrun
  rcases hterms : takeAll e.docid s.terms with exc | terms' <;> simp only [yieldEntry, hterms] at hrun
  · cases hrun
  · split at hrun
    · rename_i hmem
      obtain ⟨rfl, rfl⟩ := Prod.mk.inj (Except.ok.inj hrun)
      obtain ⟨hsound, hother⟩ := takeAll_sound hterms h.terms
      have hget : s.pool.minsDict[e.docid]? = some e.minw := by
        have hsorted := (h.core.sorted _).mp hmem.1
        rwa [neg_neg] at hsorted
      refine ⟨rfl, hmem.2, rfl, rfl, h.core.taken hget htaken, (taken_sources htaken).trans h.sources,
        hsound, fun d hd => ?_, fun d hd => ?_⟩
      · obtain ⟨hne, hd⟩ := not_or.mp fun hor => hd ((TreeSet.mem_insert _).mpr hor)
        change (s.pool.minsDict.erase e.docid)[d]?.getD 0 = _
        rw [BTree.get_erase_ne _ (Ne.symm hne), h.sums d hd, (hother d hne).1]
      · obtain ⟨hne, hd⟩ := not_or.mp fun hor => hd ((TreeSet.mem_insert _).mpr hor)
        exact (h.ids d hd).trans ((hother d hne).2 0).symm
    · cases hrun

omit [IsStrictOrderedRing K] in
/-- What a round that yields has done. -/
theorem iteration_eq_ok {y : ℤ × K} (hrun : iteration s = .ok (some (y, s'))) :
    ∃ updated s₁ e window, RankedUnion.prepare s = .ok (updated, s₁) ∧
      nextWindow updated s₁ = e :: window ∧
      (Refreshes updated s₁ → violated s₁.terms (freshWindow s₁) = false) ∧
      yieldEntry e window s₁ = .ok (y, s') := by
  rcases hprep : RankedUnion.prepare s with exc | ⟨updated, s₁⟩
  · simp only [iteration, hprep] at hrun
    cases hrun
  have horder : Refreshes updated s₁ → violated s₁.terms (freshWindow s₁) = false := by
    intro hr
    rcases hv : violated s₁.terms (freshWindow s₁) with _ | _
    · rfl
    · rw [iteration_violated hprep hr hv] at hrun
      cases hrun
  rw [iteration_eq hprep horder] at hrun
  rcases hw : nextWindow updated s₁ with _ | ⟨e, window⟩ <;> simp only [hw] at hrun
  · cases hrun
  · rcases hyield : yieldEntry e window s₁ with exc | ⟨y', s₂⟩ <;> simp only [hyield] at hrun
    · cases hrun
    · obtain ⟨rfl, rfl⟩ := Prod.mk.inj (Option.some.inj (Except.ok.inj hrun))
      exact ⟨updated, s₁, e, window, rfl, hw, horder, hyield⟩

/-- The elements of a window keep their bounds, in an old one and in a new one. -/
theorem Sound.nextWindow_bounds {updated : Bool} (h : Sound L s)
    (hwindow : ∀ e ∈ s.window, e.Bounds L) : ∀ e ∈ nextWindow updated s, e.Bounds L := by
  intro e he
  by_cases hr : Refreshes updated s
  · rw [nextWindow, if_pos hr, freshWindow_eq] at he
    obtain ⟨p, hp, rfl⟩ := List.mem_map.mp he
    exact h.entry_bounds (Std.ExtTreeSet.mem_toList.mp (List.mem_of_mem_take hp))
  · rw [nextWindow, if_neg hr] at he
    exact hwindow e he

end Bounds

/-! ## Runs

`popped` lists the elements of a run with the documents, and the results are about that list. -/

/-- The element of the window that a round takes. -/
def nextEntry (s : State K) : Option (Entry K) :=
  match prepare s with
  | .ok (updated, s') => (nextWindow updated s').head?
  | .error _ => none

/-- The elements that the rounds of a run take and yield. -/
def popped : ℕ → State K → List (Entry K)
  | 0, _ => []
  | fuel + 1, s =>
    match iteration s, nextEntry s with
    | .ok (some (_, s')), some e => e :: popped fuel s'
    | _, _ => []

section Runs

variable [IsStrictOrderedRing K] {L : List (WeightedTree K)} {s s' : State K}

/-- **A round** yields a document between its bounds, and keeps all of this. -/
theorem Sound.round (h : Sound L s) (hwindow : ∀ e ∈ s.window, e.Bounds L) {y : ℤ × K}
    (hrun : iteration s = .ok (some (y, s'))) :
    ∃ e, nextEntry s = some e ∧ y = (e.docid, (e.minw + e.maxw) / 2) ∧ Occurs L e.docid ∧
      e.docid ∉ s.pool.used ∧ e.Bounds L ∧ s'.pool.used = s.pool.used.insert e.docid ∧
      Sound L s' ∧ ∀ f ∈ s'.window, f.Bounds L := by
  obtain ⟨updated, s₁, hprep, h₁, hwindow₁, hused₁⟩ := h.prepare
  obtain ⟨updated', s₁', e, window, hprep', hw, -, hyield⟩ := iteration_eq_ok hrun
  obtain ⟨rfl, rfl⟩ := Prod.mk.inj (Except.ok.inj (hprep.symm.trans hprep'))
  obtain ⟨rfl, hmem, hwindow', hused', h'⟩ := h₁.yield hyield
  have hbounds := @Sound.nextWindow_bounds _ _ _ _ L s₁ updated h₁ (hwindow₁.symm ▸ hwindow)
  rw [hw] at hbounds
  obtain ⟨he, hrest⟩ := List.forall_mem_cons.mp hbounds
  refine ⟨e, ?_, rfl, h₁.core.occurs h₁.sources hmem, hused₁ ▸ h₁.core.fresh _ hmem, he,
    hused₁ ▸ hused', h', hwindow'.symm ▸ hrest⟩
  simp only [nextEntry, hprep, hw]
  rfl

/-- From a state of the main loop, the rest of a run. -/
theorem Sound.popped (h : Sound L s) (hwindow : ∀ e ∈ s.window, e.Bounds L) (fuel : ℕ) :
    (run fuel s).1 = (popped fuel s).map (fun e => (e.docid, (e.minw + e.maxw) / 2)) ∧
      ((popped fuel s).map Entry.docid).Nodup ∧
      ∀ e ∈ popped fuel s, Occurs L e.docid ∧ e.docid ∉ s.pool.used ∧ e.Bounds L := by
  induction fuel generalizing s with
  | zero => exact ⟨rfl, List.nodup_nil, fun e he => absurd he List.not_mem_nil⟩
  | succ fuel ih =>
    rcases hstep : iteration s with exc | _ | ⟨y, s'⟩
    · simp [run, RankedUnion.popped, hstep]
    · simp [run, RankedUnion.popped, hstep]
    · obtain ⟨e, hnext, rfl, hocc, hnew, hbounds, hused, h', hwindow'⟩ := h.round hwindow hstep
      obtain ⟨hrun, hnodup, hall⟩ := ih h' hwindow'
      have hpopped : RankedUnion.popped (fuel + 1) s = e :: RankedUnion.popped fuel s' := by
        simp only [RankedUnion.popped, hstep, hnext]
      rw [hpopped]
      -- what comes later is not in `used`, in which the first document now is
      refine ⟨?_, List.nodup_cons.mpr ⟨fun hmem => ?_, hnodup⟩, fun f hf => ?_⟩
      · simp only [run, hstep, hrun, List.map_cons]
      · obtain ⟨f, hf, hfd⟩ := List.mem_map.mp hmem
        apply (hall f hf).2.1
        rw [hfd, hused]
        exact (TreeSet.mem_insert _).mpr (.inl rfl)
      · rcases List.mem_cons.mp hf with rfl | hf
        · exact ⟨hocc, hnew, hbounds⟩
        · obtain ⟨hocc, hnot, hb⟩ := hall f hf
          refine ⟨hocc, fun hu => hnot ?_, hb⟩
          rw [hused]
          exact (TreeSet.mem_insert _).mpr (.inr hu)

/-- Before the first round. -/
theorem sound_init (hL : L ≠ []) : Sound L (init L) := by
  have hinv := inv_init hL
  have hknown : ∀ (L : List (WeightedTree K)) d, known (init L).terms d = 0 := by
    intro L d
    refine List.sum_eq_zero fun x hx => ?_
    obtain ⟨t, ht, rfl⟩ := List.mem_map.mp hx
    obtain ⟨w, -, rfl⟩ := List.mem_map.mp ht
    rfl
  have hholding : ∀ (L : List (WeightedTree K)) i d, holding i (init L).terms d = 0 := by
    intro L i d
    induction L generalizing i with
    | nil => rfl
    | cons w L ih => exact (zero_add _).trans (ih (i + 1))
  refine ⟨hinv.core, hinv.sources, fun t ht => ?_, fun d _ => ?_, fun d _ => (hholding L 0 d).symm⟩
  · obtain ⟨w, -, rfl⟩ := List.mem_map.mp ht
    have hnone : ∀ x, ¬∃ d : ℤ, (∅ : BTree ℤ K)[d]? = some x := by simp
    have hsorted := pairwise_score_toList w.tree
    obtain ⟨p, rest, hlist⟩ := List.exists_cons_of_ne_nil w.nonempty
    have hfirst : firstScore w = -p.score * w.weight := by rw [firstScore, hlist]
    refine ⟨fun d _ => zero_add _, hsorted, fun q hq => ?_, fun q hq x hx => absurd hx (hnone x), ?_,
      fun x hx => absurd hx (hnone x)⟩
    · change q ∈ w.tree.toList at hq
      change -q.score * w.weight ≤ firstScore w
      -- the first pair has the greatest score
      rw [hlist, List.pairwise_cons] at hsorted
      rw [hfirst]
      refine mul_le_mul_of_nonneg_right (neg_le_neg ?_) w.weight_pos.le
      rcases List.mem_cons.mp (hlist ▸ hq) with rfl | hq
      · exact le_rfl
      · exact hsorted.1 q hq
    · change 0 ≤ firstScore w
      rw [hfirst]
      exact (mul_pos (w.score_pos p (by rw [hlist]; exact List.mem_cons_self)) w.weight_pos).le
  · rw [hknown]
    rfl

end Runs

/-- **Soundness of the score intervals**: for two or more trees and any number of rounds,
what has been yielded are the elements of the windows that were taken, each with the mean of
its bounds; no document was yielded twice, each occurs in a tree, and its total score lies
between the bounds. -/
theorem intervals_sound [IsStrictOrderedRing K] (w₁ w₂ : WeightedTree K)
    (ws : List (WeightedTree K)) (fuel : ℕ) :
    (run fuel (init (w₁ :: w₂ :: ws))).1 = (popped fuel (init (w₁ :: w₂ :: ws))).map
        (fun e => (e.docid, (e.minw + e.maxw) / 2)) ∧
      ((popped fuel (init (w₁ :: w₂ :: ws))).map Entry.docid).Nodup ∧
      ∀ e ∈ popped fuel (init (w₁ :: w₂ :: ws)), Occurs (w₁ :: w₂ :: ws) e.docid ∧
        e.minw ≤ totalScore (w₁ :: w₂ :: ws) e.docid ∧
        totalScore (w₁ :: w₂ :: ws) e.docid ≤ e.maxw := by
  have hsound := @sound_init K _ _ _ (w₁ :: w₂ :: ws) (List.cons_ne_nil _ _)
  obtain ⟨hrun, hnodup, hall⟩ := hsound.popped (fun e he => absurd he List.not_mem_nil) fuel
  refine ⟨hrun, hnodup, fun e he => ?_⟩
  obtain ⟨hocc, -, hbounds⟩ := hall e he
  exact ⟨hocc, hbounds⟩

/-- Two documents in two trees. -/
theorem intervals_sound_example :
    let L := [equalScores [0, 1] (by decide), equalScores [1] (by decide)]
    (popped 3 (init L)).map Entry.docid = [1, 0] ∧
      ∀ e ∈ popped 3 (init L), e.minw ≤ totalScore L e.docid ∧ totalScore L e.docid ≤ e.maxw := by
  intro L
  refine ⟨by decide +kernel, fun e he => ?_⟩
  exact ((intervals_sound _ _ [] 3).2.2 e he).2

end RankedUnion

end Zerodb
