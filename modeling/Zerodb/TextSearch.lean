import Zerodb.Vocabulary
import Zerodb.UnionBounds

/-!
# TextSearch: what a search in the full-text index answers

A query is a list of word ids. Those without a record are dropped, the others give their
trees and weights to the ranked union. What comes out is stated here by the indexed documents
alone: which of them have a word of the query, how often, and how many there are.

* `search`, `searchGlob`, `searchAll` — the three ways to ask;
* `relevance` — the practical score of a document, from the word lists of the documents;
* `Answer` — how a query is answered, for each number of words that have a record;
* `search_answers` — it is, in every state of every history of calls.
-/

namespace Zerodb

/-- Scores with which sums and products are computed. -/
class RealScore (K : Type) extends Field K, Score K where
  /-- the root of a count is positive -/
  sqrt_pos : ∀ n, 0 < n → 0 < sqrt n

namespace RankedUnion

variable {K : Type} [Field K] [LinearOrder K] [IsStrictOrderedRing K]

/-! ## Scores that are at least one half

The union yields the mean of two bounds of the score. The lower one is not negative, and so the
mean is at least half of the upper one: this much of a score can be relied on, in whatever order
the documents come. -/

/-- The lower bound of an element that is yielded is what is cached of its document. -/
theorem Sound.minw_nonneg {L : List (WeightedTree K)} {s s' : State K} {e : Entry K}
    {window : List (Entry K)} {y : ℤ × K} (h : Sound L s)
    (hrun : yieldEntry e window s = .ok (y, s')) : 0 ≤ e.minw := by
  obtain ⟨-, hmem, -, -, -⟩ := h.yield hrun
  have hfresh := h.core.fresh _ hmem
  have hget : s.pool.minsDict[e.docid]? = some e.minw := by
    rcases hterms : takeAll e.docid s.terms with exc | terms' <;>
      simp only [yieldEntry, hterms] at hrun
    · cases hrun
    · split at hrun
      · rename_i hboth
        have hsorted := (h.core.sorted _).mp hboth.1
        rwa [neg_neg] at hsorted
      · cases hrun
  have hsum := h.sums _ hfresh
  rw [hget, Option.getD_some] at hsum
  rw [hsum, known]
  refine List.sum_nonneg fun x hx => ?_
  obtain ⟨t, ht, rfl⟩ := List.mem_map.mp hx
  rcases hcached : t.cache[e.docid]? with _ | x
  · rw [Term.known, hcached]
    exact le_rfl
  · rw [Term.known, hcached]
    exact ((h.terms t ht).pos x ⟨_, hcached⟩).le

theorem Sound.popped_nonneg {L : List (WeightedTree K)} {s : State K} (h : Sound L s)
    (hwindow : ∀ e ∈ s.window, e.Bounds L) (fuel : ℕ) : ∀ e ∈ RankedUnion.popped fuel s, 0 ≤ e.minw := by
  induction fuel generalizing s with
  | zero => exact fun e he => absurd he List.not_mem_nil
  | succ fuel ih =>
    rcases hstep : iteration s with exc | _ | ⟨y, s'⟩
    · simp [RankedUnion.popped, hstep]
    · simp [RankedUnion.popped, hstep]
    · obtain ⟨e, hnext, -, -, -, -, -, h', hwindow'⟩ := h.round hwindow hstep
      obtain ⟨updated, s₁, h₁prep, h₁, -, -⟩ := h.prepare
      obtain ⟨updated', s₁', e', window, hprep, hw, -, hyield⟩ := iteration_eq_ok hstep
      obtain ⟨rfl, rfl⟩ := Prod.mk.inj (Except.ok.inj (h₁prep.symm.trans hprep))
      have heq : nextEntry s = some e' := by
        simp only [nextEntry, hprep, hw]
        rfl
      obtain rfl : e = e' := Option.some.inj (hnext.symm.trans heq)
      have hpopped : RankedUnion.popped (fuel + 1) s = e :: RankedUnion.popped fuel s' := by
        simp only [RankedUnion.popped, hstep, hnext]
      rw [hpopped]
      intro f hf
      rcases List.mem_cons.mp hf with rfl | hf
      · exact h₁.minw_nonneg hyield
      · exact ih h' hwindow' f hf

omit [IsStrictOrderedRing K] in
/-- A run that is not at its end has yielded in each round. -/
theorem length_of_running {fuel : ℕ} {s : State K} (h : (run fuel s).2 = .running) :
    (run fuel s).1.length = fuel := by
  induction fuel generalizing s with
  | zero => rfl
  | succ fuel ih =>
    rcases hstep : iteration s with exc | _ | ⟨y, s'⟩
    · simp [run, hstep] at h
    · simp [run, hstep] at h
    · simp only [run, hstep] at h ⊢
      rw [List.length_cons, ih h]

/-- **The union of several trees**: it ends; no document comes twice, each occurs in a tree,
and its score is at least half of its total score. -/
theorem massWeightedUnion_spec {L : List (WeightedTree K)} (hlen : 2 ≤ L.length) :
    (massWeightedUnion L).2 ≠ .running ∧ ((massWeightedUnion L).1.map Prod.fst).Nodup ∧
      ∀ y ∈ (massWeightedUnion L).1, Occurs L y.1 ∧ totalScore L y.1 ≤ 2 * y.2 := by
  have hunion : massWeightedUnion L = run (rounds L) (init L) := by
    rcases L with _ | ⟨w₁, _ | ⟨w₂, ws⟩⟩
    · simp at hlen
    · simp at hlen
    · rfl
  have hne : L ≠ [] := by
    rintro rfl
    simp at hlen
  have hsound := @sound_init K _ _ _ L hne
  have hwindow : ∀ e ∈ (init L).window, e.Bounds L := fun e he => absurd he List.not_mem_nil
  obtain ⟨hrun, hnodup, hall⟩ := hsound.popped hwindow (rounds L)
  have hdocids : (run (rounds L) (init L)).1.map Prod.fst =
      (popped (rounds L) (init L)).map Entry.docid := by
    rw [hrun, List.map_map]
    rfl
  rw [hunion]
  refine ⟨fun hend => ?_, hdocids ▸ hnodup, fun y hy => ?_⟩
  · -- as many rounds have yielded as there are pairs, and one more
    have hlength := length_of_running hend
    have hcard : ((run (rounds L) (init L)).1.map Prod.fst).toFinset.card ≤ remaining L ∅ := by
      refine Finset.card_le_card fun d hd => ?_
      rw [List.mem_toFinset, hdocids] at hd
      obtain ⟨e, he, rfl⟩ := List.mem_map.mp hd
      obtain ⟨⟨w, hw, p, hp, hpd⟩, hnew, -⟩ := hall e he
      refine Finset.mem_filter.mpr ⟨List.mem_toFinset.mpr (List.mem_flatMap.mpr ⟨w, hw, ?_⟩), hnew⟩
      rw [← hpd]
      exact List.mem_map_of_mem hp
    rw [List.toFinset_card_of_nodup (hdocids ▸ hnodup), List.length_map, hlength] at hcard
    exact absurd (remaining_lt_rounds L) (not_lt.mpr hcard)
  · rw [hrun] at hy
    obtain ⟨e, he, rfl⟩ := List.mem_map.mp hy
    obtain ⟨hocc, -, hbounds⟩ := hall e he
    have hnonneg := hsound.popped_nonneg hwindow (rounds L) e he
    refine ⟨hocc, ?_⟩
    calc totalScore L e.docid ≤ e.maxw := hbounds.2
      _ ≤ e.minw + e.maxw := le_add_of_nonneg_left hnonneg
      _ = 2 * ((e.minw + e.maxw) / 2) := by ring

end RankedUnion

namespace IncrementalLuceneIndex

open RankedUnion

variable {K γ Λ τ : Type} [RealScore K] [IsStrictOrderedRing K]

/-! ## The calls

The three searches differ in the words they look for. From the word ids on, they are one:
`answer`. -/

/-- The lexicon, where it is asked; and sets, which are iterated in an order of their own. -/
structure QueryLexicon (Λ : Type) where
  /-- `_tokenizer_regex.findall` -/
  findall : Str → List Str
  /-- `lower()` -/
  lower : Str → Str
  /-- `termToWordIds` of a list of texts; a text alone is a list of one -/
  termToWordIds : Λ → List Str → List ℕ
  /-- `globToWordIds`, which may refuse a pattern -/
  globToWordIds : Λ → Str → Except Exc (List ℕ)
  /-- the elements of a set -/
  iterSet : Finset ℕ → List ℕ
  /-- each of them -/
  mem_iterSet : ∀ s w, w ∈ iterSet s ↔ w ∈ s

/-- A tree with its weight, if it is one the union is modelled for. -/
def weigh (e : WordInfo K × K) : Option (WeightedTree K) :=
  if h : e.1.tree.toList ≠ [] ∧ (∀ p ∈ e.1.tree.toList, 0 < -p.score) ∧
      (e.1.tree.toList.map Posting.docid).Nodup ∧ 0 < e.2 then
    some ⟨e.1.tree, e.2, h.1, h.2.1, h.2.2.1, h.2.2.2⟩
  else none

/-- `mass_weightedUnion` of what `_search_wids` returns. A tree alone is iterated; of several
the first elements are taken first. -/
def union : List (WordInfo K × K) → Option (List (ℤ × K) × End)
  | [] => some ([], .finished)
  | [e] => some (e.1.tree.toList.map fun p => (p.docid, -p.score * e.2), .finished)
  | L =>
    if ∃ e ∈ L, e.1.tree.toList = [] then some ([], .raised (.valueError "empty tree"))
    else (L.mapM weigh).map massWeightedUnion

variable (G : Logarithm K) (Q : QueryLexicon Λ) (ix : IncrementalLuceneIndex K γ Λ)

/-- What all searches end with. -/
def answer (wids : List ℕ) : Except Exc (Option (List (ℤ × K) × End)) := do
  let L ← ix.searchWids G (ix.removeOovWids wids)
  return union L

/-- `search`. -/
def search (term : Str) : Except Exc (Option (List (ℤ × K) × End)) :=
  ix.answer G (Q.termToWordIds ix.lexicon [term])

/-- `search_glob`. -/
def searchGlob (pattern : Str) : Except Exc (Option (List (ℤ × K) × End)) := do
  let wids ← Q.globToWordIds ix.lexicon (Q.lower pattern)
  ix.answer G wids

/-- `glob_cond`. -/
def globCond (t : Str) : Bool := '?' ∈ t || '*' ∈ t

/-- The word ids that `_search_all` looks for. -/
def queryWids (term : Str) : Except Exc (List ℕ) := do
  let tokens := (Q.findall term).map Q.lower
  let globs ← (tokens.filter globCond).mapM (Q.globToWordIds ix.lexicon)
  let words := Q.termToWordIds ix.lexicon (tokens.filter fun t => !globCond t)
  return Q.iterSet (words ++ globs.flatten).toFinset

/-- `_search_all`: the documents without their scores. -/
def searchAll (term : Str) : Except Exc (Option (List ℤ × End)) := do
  let wids ← ix.queryWids Q term
  let result ← ix.answer G wids
  return result.map fun out => (out.1.map Prod.fst, out.2)

/-! ## Relevance

The specification knows nothing of trees. `relevance` counts in the word lists of the documents,
and `Answer` has one case for each way in which a query is answered, by how many of its words have
a record. -/

variable (W : Widcode γ)

/-- How many documents have a word. -/
def docFrequency (w : ℕ) : ℕ := (ix.docwords.toList.filter fun e => decide (w ∈ W.decode e.2)).length

/-- The square of the inverse document frequency. -/
def inverseFrequency (w : ℕ) : K :=
  (1 + G.log (ix.docwords.size / (1 + docFrequency ix W w))) ^ 2

/-- The practical score of a document for some words. -/
def relevance (wids : List ℕ) (docid : ℤ) : K :=
  (wids.map fun w => if w ∈ words W ix docid then
    Score.sqrt ((words W ix docid).count w) / Score.sqrt (words W ix docid).dedup.length *
      inverseFrequency G ix W w
    else 0).sum

/-- **How a query is answered**, for the words of it that have a record. -/
inductive Answer : List ℕ → Except Exc (Option (List (ℤ × K) × End)) → Prop
  /-- without words there is nothing -/
  | nothing : Answer [] (.ok (some ([], .finished)))
  /-- without documents the logarithm fails -/
  | noDocuments {wids : List ℕ} : wids ≠ [] → ix.docwords.size = 0 →
      Answer wids (.error (.valueError "math domain error"))
  /-- a word alone: its documents with their relevance, the most relevant ones first -/
  | single {w : ℕ} {out : List (ℤ × K)} : 0 < ix.docwords.size → (out.map Prod.fst).Nodup →
      (∀ d, d ∈ out.map Prod.fst ↔ w ∈ words W ix d) →
      (∀ y ∈ out, y.2 = relevance G ix W [w] y.1) →
      out.Pairwise (fun y z => z.2 ≤ y.2) → Answer [w] (.ok (some (out, .finished)))
  /-- several, with one that has lost its documents: no document at all -/
  | lost {wids : List ℕ} : 0 < ix.docwords.size → 2 ≤ wids.length →
      (∃ w ∈ wids, ∀ d, w ∉ words W ix d) →
      Answer wids (.ok (some ([], .raised (.valueError "empty tree"))))
  /-- several: documents that have one of them, with at least half of their relevance -/
  | several {wids : List ℕ} {out : List (ℤ × K)} {e : End} : 2 ≤ wids.length →
      (∀ w ∈ wids, ∃ d, w ∈ words W ix d) → e ≠ .running → (out.map Prod.fst).Nodup →
      (∀ y ∈ out, (∃ w ∈ wids, w ∈ words W ix y.1) ∧ relevance G ix W wids y.1 ≤ 2 * y.2) →
      Answer wids (.ok (some (out, e)))

/-! ## Trees and weights

What the postings invariant says of a tree, in those terms: its documents are those with the word,
its length is their number, and a pair contributes what the word does to the relevance. -/

section Trees

variable {G ix W}

omit [IsStrictOrderedRing K] in
/-- The pairs of a word are of distinct documents. -/
theorem Postings.nodup_docids (h : Postings W ix) (w : ℕ) :
    ((record ix.wordinfo w).tree.toList.map Posting.docid).Nodup := by
  refine List.Nodup.map_on (fun p hp q hq hd => ?_) (TreeSet.nodup_toList _)
  obtain ⟨-, hp'⟩ := ((h.mem_iff w p).mp (Std.ExtTreeSet.mem_toList.mp hp)).of_docid rfl
  obtain ⟨-, hq'⟩ := ((h.mem_iff w q).mp (Std.ExtTreeSet.mem_toList.mp hq)).of_docid rfl
  rw [hp', hq', hd]

omit [IsStrictOrderedRing K] in
/-- They are the documents that have it. -/
theorem Postings.mem_docids (h : Postings W ix) {w : ℕ} {docid : ℤ} :
    docid ∈ (record ix.wordinfo w).tree.toList.map Posting.docid ↔ w ∈ words W ix docid := by
  refine ⟨fun hd => ?_, fun hw => ?_⟩
  · obtain ⟨p, hp, rfl⟩ := List.mem_map.mp hd
    exact (((h.mem_iff w p).mp (Std.ExtTreeSet.mem_toList.mp hp)).of_docid rfl).1
  · exact List.mem_map.mpr ⟨_, Std.ExtTreeSet.mem_toList.mpr (h.mem_tree hw), rfl⟩

omit [IsStrictOrderedRing K] in
/-- Their number is the length of the record. -/
theorem Postings.length_record (h : Postings W ix) (w : ℕ) :
    (record ix.wordinfo w).length = docFrequency ix W w := by
  have hkeys : ((ix.docwords.toList.filter fun e => decide (w ∈ W.decode e.2)).map Prod.fst).Nodup := by
    refine List.Nodup.sublist (List.filter_sublist.map _) ?_
    rw [Std.ExtTreeMap.map_fst_toList_eq_keys]
    exact Std.ExtTreeMap.nodup_keys
  have hperm := (List.perm_ext_iff_of_nodup (h.nodup_docids w) hkeys).mpr fun d => by
    rw [h.mem_docids, words]
    rcases hcode : ix.docwords[d]? with _ | code <;> simp [hcode]
  have hlen := hperm.length_eq
  rw [List.length_map, List.length_map, Std.ExtTreeSet.length_toList] at hlen
  rw [h.length_eq w, hlen, docFrequency]

omit [IsStrictOrderedRing K] in
/-- And what the pair of a document gives is its part of the relevance. -/
theorem Postings.scoreIn_record (h : Postings W ix) (w : ℕ) (docid : ℤ) (weight : K) :
    scoreIn weight docid (record ix.wordinfo w).tree.toList = if w ∈ words W ix docid then
      Score.sqrt ((words W ix docid).count w) / Score.sqrt (words W ix docid).dedup.length * weight
      else 0 := by
  by_cases hw : w ∈ words W ix docid
  · rw [if_pos hw]
    obtain ⟨front, back, hsplit⟩ := List.append_of_mem (Std.ExtTreeSet.mem_toList.mpr (h.mem_tree hw))
    have hnodup := h.nodup_docids w
    rw [hsplit, List.map_append, List.map_cons, List.nodup_middle, List.nodup_cons,
      List.mem_append, not_or] at hnodup
    have hother : ∀ l : List (Posting K), docid ∉ l.map Posting.docid → scoreIn weight docid l = 0 :=
      fun l hl => scoreIn_of_not_mem fun p hp hd => hl (hd ▸ List.mem_map_of_mem hp)
    have happend : ∀ l l' : List (Posting K), scoreIn weight docid (l ++ l') =
        scoreIn weight docid l + scoreIn weight docid l' := fun l l' => by simp [scoreIn]
    rw [hsplit, happend, scoreIn_cons, hother front hnodup.1.1, hother back hnodup.1.2, zero_add,
      add_zero]
    simp [widscore, neg_div]
  · rw [if_neg hw]
    refine scoreIn_of_not_mem fun p hp hd => hw ?_
    exact h.mem_docids.mp (hd ▸ List.mem_map_of_mem hp)

theorem inverseFrequency_pos (hG : 0 < 1 + G.log (1 / 2)) (hdocs : 0 < ix.docwords.size) (w : ℕ) :
    0 < inverseFrequency G ix W w := by
  have hle : docFrequency ix W w ≤ ix.docwords.size := by
    rw [docFrequency, ← Std.ExtTreeMap.length_toList]
    exact List.length_filter_le _ _
  have hle' : (docFrequency ix W w : K) ≤ ix.docwords.size := by exact_mod_cast hle
  have hone : (1 : K) ≤ ix.docwords.size := by exact_mod_cast hdocs
  have hpos : (0 : K) < 1 + docFrequency ix W w := by positivity
  -- a word is in at most all documents
  have hhalf : (1 / 2 : K) ≤ ix.docwords.size / (1 + docFrequency ix W w) := by
    rw [div_le_div_iff₀ two_pos hpos]
    linarith
  have hlog := G.mono _ _ one_half_pos hhalf
  exact pow_pos (by linarith) 2

/-- The weight that is computed is the one of the documents. -/
theorem Postings.idf2_eq (h : Postings W ix) {w : ℕ} (hw : w ∈ ix.wordinfo) : ix.idf2 G w =
    if ix.docwords.size = 0 then .error (.valueError "math domain error")
    else .ok (inverseFrequency G ix W w) := by
  obtain ⟨r, hr⟩ := (BTree.mem_iff _).mp hw
  have hrec : record ix.wordinfo w = r := by
    rw [record, hr]
    rfl
  have hlength : (r.length : K) = docFrequency ix W w := by
    rw [← hrec, h.length_record w]
    push_cast
    rfl
  have hcount : (ix.documentCount : K) = ix.docwords.size := by
    rw [h.count_eq]
    push_cast
    rfl
  have hpos : (0 : K) < 1 + docFrequency ix W w := by positivity
  rw [idf2, hr]
  simp only [hlength, hcount, if_neg hpos.ne']
  by_cases hdocs : ix.docwords.size = 0
  · have hquot : (ix.docwords.size : K) / (1 + docFrequency ix W w) ≤ 0 := by
      rw [hdocs, Nat.cast_zero, zero_div]
    rw [if_pos hquot, if_pos hdocs]
  · have hsize : (0 : K) < ix.docwords.size := by exact_mod_cast Nat.pos_of_ne_zero hdocs
    rw [if_neg (not_le.mpr (div_pos hsize hpos)), if_neg hdocs]
    rfl

/-- What the union gets. -/
theorem Postings.searchWids_eq (h : Postings W ix) {wids : List ℕ}
    (hmem : ∀ w ∈ wids, w ∈ ix.wordinfo) : ix.searchWids G wids =
    if wids ≠ [] ∧ ix.docwords.size = 0 then .error (.valueError "math domain error")
    else .ok (wids.map fun w => (record ix.wordinfo w, inverseFrequency G ix W w)) := by
  induction wids with
  | nil => rfl
  | cons w wids ih =>
    obtain ⟨hw, hwids⟩ := List.forall_mem_cons.mp hmem
    obtain ⟨r, hr⟩ := (BTree.mem_iff _).mp hw
    have hrec : record ix.wordinfo w = r := by
      rw [record, hr]
      rfl
    have htail := ih hwids
    rw [searchWids] at htail ⊢
    rw [List.mapM_cons, hr, h.idf2_eq hw]
    by_cases hdocs : ix.docwords.size = 0
    · rw [if_pos hdocs, if_pos ⟨List.cons_ne_nil w wids, hdocs⟩]
      rfl
    · rw [if_neg fun hboth => hdocs hboth.2] at htail
      rw [htail, if_neg hdocs, if_neg fun hboth => hdocs hboth.2, List.map_cons, hrec]
      rfl

/-! ## Answers

A word alone is answered by its tree, and several by the union of theirs. A word can have a record
and no documents, if it was reindexed away; then the weights cannot be computed from it. -/

/-- The trees of words that occur are of the kind the union expects. -/
theorem Postings.weigh_record (h : Postings W ix) {w : ℕ} (hw : ∃ d, w ∈ words W ix d) {weight : K}
    (hweight : 0 < weight) : ∃ t, weigh (record ix.wordinfo w, weight) = some t ∧
      t.tree = (record ix.wordinfo w).tree ∧ t.weight = weight := by
  obtain ⟨d, hd⟩ := hw
  have hpair := Std.ExtTreeSet.mem_toList.mpr (h.mem_tree hd)
  have hpos : ∀ p ∈ (record ix.wordinfo w).tree.toList, 0 < -p.score := fun p hp => by
    obtain ⟨hmem, hp⟩ := ((h.mem_iff w p).mp (Std.ExtTreeSet.mem_toList.mp hp)).of_docid rfl
    have hcount := RealScore.sqrt_pos (K := K) _ (List.count_pos_iff.mpr hmem)
    have hdistinct := RealScore.sqrt_pos (K := K) _
      (List.length_pos_of_mem (List.mem_dedup.mpr hmem))
    rw [hp]
    simp only [widscore, neg_div, neg_neg]
    exact div_pos hcount hdistinct
  refine ⟨⟨_, _, List.ne_nil_of_mem hpair, hpos, h.nodup_docids w, hweight⟩, dif_pos ?_, rfl, rfl⟩
  exact ⟨List.ne_nil_of_mem hpair, hpos, h.nodup_docids w, hweight⟩

/-- So are those of several. -/
theorem Postings.weigh_records (h : Postings W ix) (hG : 0 < 1 + G.log (1 / 2))
    (hdocs : 0 < ix.docwords.size) {wids : List ℕ} (hwids : ∀ w ∈ wids, ∃ d, w ∈ words W ix d) :
    ∃ L, (wids.map fun w => (record ix.wordinfo w, inverseFrequency G ix W w)).mapM weigh = some L ∧
      L.map (fun t => (t.tree, t.weight)) =
        wids.map fun w => ((record ix.wordinfo w).tree, inverseFrequency G ix W w) := by
  induction wids with
  | nil => exact ⟨[], rfl, rfl⟩
  | cons w wids ih =>
    obtain ⟨hw, hwids⟩ := List.forall_mem_cons.mp hwids
    obtain ⟨t, ht, htree, hweight⟩ := h.weigh_record hw (inverseFrequency_pos hG hdocs w)
    obtain ⟨L, hL, hmap⟩ := ih hwids
    refine ⟨t :: L, ?_, ?_⟩
    · rw [List.map_cons, List.mapM_cons, ht, hL]
      rfl
    · rw [List.map_cons, List.map_cons, hmap, htree, hweight]

/-- The total score in the trees of some words is the relevance. -/
theorem Postings.totalScore_eq (h : Postings W ix) {wids : List ℕ} {L : List (WeightedTree K)}
    (hL : L.map (fun t => (t.tree, t.weight)) =
      wids.map fun w => ((record ix.wordinfo w).tree, inverseFrequency G ix W w)) (docid : ℤ) :
    totalScore L docid = relevance G ix W wids docid := by
  have hscore : (fun t : WeightedTree K => t.scoreOf docid) =
      (fun e : TreeSet (Posting K) × K => scoreIn e.2 docid e.1.toList) ∘ fun t => (t.tree, t.weight) :=
    rfl
  rw [totalScore, relevance, hscore, ← List.map_map, hL, List.map_map]
  refine congrArg List.sum (List.map_congr_left fun w _ => ?_)
  exact h.scoreIn_record w docid _

/-- A word alone. -/
theorem Postings.answer_single (h : Postings W ix) (hG : 0 < 1 + G.log (1 / 2))
    (hdocs : 0 < ix.docwords.size) (w : ℕ) : Answer G ix W [w] (.ok (some
      ((record ix.wordinfo w).tree.toList.map fun p => (p.docid, -p.score * inverseFrequency G ix W w),
        .finished))) := by
  have hfst : (((record ix.wordinfo w).tree.toList.map fun p =>
      (p.docid, -p.score * inverseFrequency G ix W w)).map Prod.fst) =
      (record ix.wordinfo w).tree.toList.map Posting.docid := by
    rw [List.map_map]
    rfl
  refine .single hdocs (hfst ▸ h.nodup_docids w) (fun d => hfst ▸ h.mem_docids) (fun y hy => ?_) ?_
  · obtain ⟨p, hp, rfl⟩ := List.mem_map.mp hy
    obtain ⟨hw, hp⟩ := ((h.mem_iff w p).mp (Std.ExtTreeSet.mem_toList.mp hp)).of_docid rfl
    have hscore : -p.score = Score.sqrt ((words W ix p.docid).count w) /
        Score.sqrt (words W ix p.docid).dedup.length := by
      conv_lhs => rw [hp]
      simp only [widscore, neg_div, neg_neg]
    simp only [relevance, List.map_cons, List.map_nil, List.sum_singleton, if_pos hw, hscore]
  · refine (pairwise_score_toList (record ix.wordinfo w).tree).map _ fun p q hle => ?_
    exact mul_le_mul_of_nonneg_right (neg_le_neg hle) (inverseFrequency_pos hG hdocs w).le

omit [IsStrictOrderedRing K] in
/-- The tree of a word is empty if no document has it. -/
theorem Postings.tree_empty_iff (h : Postings W ix) (w : ℕ) :
    (record ix.wordinfo w).tree.toList = [] ↔ ∀ d, w ∉ words W ix d := by
  rw [← List.map_eq_nil_iff (f := Posting.docid), List.eq_nil_iff_forall_not_mem]
  exact forall_congr' fun d => not_congr h.mem_docids

/-- Several words. -/
theorem Postings.answer_several (h : Postings W ix) (hG : 0 < 1 + G.log (1 / 2))
    (hdocs : 0 < ix.docwords.size) {known : List ℕ} (hlen : 2 ≤ known.length) :
    Answer G ix W known
      (.ok (union (known.map fun w => (record ix.wordinfo w, inverseFrequency G ix W w)))) := by
  have hunion : ∀ L : List (WordInfo K × K), 2 ≤ L.length → union L =
      if ∃ e ∈ L, e.1.tree.toList = [] then some ([], .raised (.valueError "empty tree"))
      else (L.mapM weigh).map massWeightedUnion := by
    intro L hL
    rcases L with _ | ⟨e₁, _ | ⟨e₂, L⟩⟩
    · simp at hL
    · simp at hL
    · rfl
  rw [hunion _ (by rwa [List.length_map])]
  by_cases hlost : ∃ w ∈ known, ∀ d, w ∉ words W ix d
  · obtain ⟨w, hw, hnone⟩ := hlost
    rw [if_pos ⟨_, List.mem_map_of_mem hw, (h.tree_empty_iff w).mpr hnone⟩]
    exact .lost hdocs hlen ⟨w, hw, hnone⟩
  · push Not at hlost
    have hfull : ¬∃ e ∈ known.map fun w => (record ix.wordinfo w, inverseFrequency G ix W w),
        e.1.tree.toList = [] := by
      rintro ⟨e, he, hnil⟩
      obtain ⟨w, hw, rfl⟩ := List.mem_map.mp he
      obtain ⟨d, hd⟩ := hlost w hw
      exact (h.tree_empty_iff w).mp hnil d hd
    obtain ⟨L, hL, hmap⟩ := h.weigh_records hG hdocs hlost
    have hlength := congrArg List.length hmap
    rw [List.length_map, List.length_map] at hlength
    obtain ⟨hend, hnodup, hall⟩ := massWeightedUnion_spec (hlength ▸ hlen)
    rw [if_neg hfull, hL]
    refine .several hlen hlost hend hnodup fun y hy => ?_
    obtain ⟨⟨t, ht, p, hp, hpd⟩, hle⟩ := hall y hy
    refine ⟨?_, h.totalScore_eq hmap _ ▸ hle⟩
    -- the tree it occurs in is that of a word
    have htree : (t.tree, t.weight) ∈ L.map fun t => (t.tree, t.weight) := List.mem_map_of_mem ht
    rw [hmap] at htree
    obtain ⟨w, hw, heq⟩ := List.mem_map.mp htree
    refine ⟨w, hw, h.mem_docids.mp ?_⟩
    rw [(Prod.mk.inj heq).1, ← hpd]
    exact List.mem_map_of_mem hp

/-- A query in any index with the invariant. -/
theorem Postings.answer (h : Postings W ix) (hG : 0 < 1 + G.log (1 / 2)) (wids : List ℕ) :
    Answer G ix W (ix.removeOovWids wids) (ix.answer G wids) := by
  have hmem : ∀ w ∈ ix.removeOovWids wids, w ∈ ix.wordinfo := fun w hw => by
    simpa using (List.mem_filter.mp hw).2
  have hanswer : ix.answer G wids =
      (ix.searchWids G (ix.removeOovWids wids)).bind fun L => .ok (union L) := rfl
  rw [hanswer, h.searchWids_eq hmem]
  generalize ix.removeOovWids wids = known
  by_cases hdocs : ix.docwords.size = 0
  · by_cases hnil : known = []
    · subst hnil
      exact .nothing
    · rw [if_pos ⟨hnil, hdocs⟩]
      exact .noDocuments hnil hdocs
  · have hpos := Nat.pos_of_ne_zero hdocs
    rw [if_neg fun hboth => hdocs hboth.2]
    rcases known with _ | ⟨w₁, _ | ⟨w₂, ws⟩⟩
    · exact .nothing
    · exact h.answer_single hG hpos w₁
    · exact h.answer_several hG hpos (by simp)

end Trees

/-- **Search**: in every state of every history of calls on a new index that keeps phrases,
each of the three searches is answered by the documents that are in the index. -/
theorem search_answers (L : Lexicon τ Λ) (hG : 0 < 1 + G.log (1 / 2)) (calls : List (Call τ)) :
    ∀ ix ∈ (machine W L true).states (init L : IncrementalLuceneIndex K γ Λ) calls,
      (∀ term, Answer G ix W (ix.removeOovWids (Q.termToWordIds ix.lexicon [term]))
        (ix.search G Q term)) ∧
      (∀ pattern wids, Q.globToWordIds ix.lexicon (Q.lower pattern) = .ok wids →
        Answer G ix W (ix.removeOovWids wids) (ix.searchGlob G Q pattern)) ∧
      ∀ term wids, ix.queryWids Q term = .ok wids →
        ∃ result, Answer G ix W (ix.removeOovWids wids) result ∧ ix.searchAll G Q term =
          result.map (Option.map fun out => (out.1.map Prod.fst, out.2)) := by
  intro ix hix
  have h : Postings W ix :=
    Machine.states_inv (fun _ c h => h.step c) postings_init calls ix hix
  refine ⟨fun term => h.answer hG _, fun pattern wids hglob => ?_, fun term wids hquery => ?_⟩
  · rw [searchGlob, hglob]
    exact h.answer hG wids
  · refine ⟨_, h.answer hG wids, ?_⟩
    rw [searchAll, hquery]
    rfl

/-- The scores of the program. -/
noncomputable instance : RealScore ℝ where
  sqrt_pos _ hn := Real.sqrt_pos.mpr (Nat.cast_pos.mpr hn)

/-- Words numbered by their length, and no patterns. -/
def plainQueryLexicon : QueryLexicon Unit where
  findall text := [text]
  lower text := text
  termToWordIds _ texts := texts.map fun t => t.length + 1
  globToWordIds _ _ := .ok []
  iterSet s := s.sort (· ≤ ·)
  mem_iterSet _ _ := Finset.mem_sort _

/-- A document that is indexed again without its word leaves the word without documents. -/
theorem search_answers_example :
    let ix := (machine plainWidcode plainLexicon true).final
      (init plainLexicon : IncrementalLuceneIndex ℝ (List ℕ) Unit)
      [.indexDoc 1 [4], .indexDoc 1 [5]]
    Answer realLogarithm ix plainWidcode (ix.removeOovWids [5])
      (ix.search realLogarithm plainQueryLexicon ['b', 'i', 'r', 'd']) := by
  intro ix
  have hlog : (0 : ℝ) < 1 + Real.log (1 / 2) := by
    rw [one_div, Real.log_inv]
    linarith [Real.log_two_lt_d9]
  exact (search_answers realLogarithm plainQueryLexicon plainWidcode plainLexicon hlog _ ix
    (Machine.final_mem_states _ _ _)).1 ['b', 'i', 'r', 'd']

end IncrementalLuceneIndex

end Zerodb
