import Zerodb.TextUndo

/-!
# Vocabulary: the words a full-text index has records of

A record is made for a word when a document with the word is indexed. `unindex_doc` deletes
a record that it leaves without documents, but does not count that; `_reindex_doc` leaves
it. So the words of the records are those of the documents, and counted, as long as no word
loses its last document; and then the words of a query have weights and trees that are not
empty.

* `Vocabulary` — every record is of a word of some document, and `wordCount` counts them;
* `Searchable` — every query gets weights and trees;
* `vocabulary_iff_shared` — both hold in every state of a run exactly when no call takes the
  last document of a word.
-/

namespace Zerodb

/-- `math.log` on exact numbers. -/
structure Logarithm (F : Type) [Field F] [LinearOrder F] [IsStrictOrderedRing F] where
  /-- the logarithm of a positive number -/
  log : F → F
  /-- it is monotone -/
  mono : ∀ x y, 0 < x → x ≤ y → log x ≤ log y
  /-- and above `-1` at one half -/
  half : 0 ≤ 1 + log (1 / 2)

namespace IncrementalLuceneIndex

variable {S γ Λ τ : Type} [Score S]

/-! ## Weights

What a query computes before it merges trees. The weight of a word divides by its number of
documents, so that a record without documents is an error for the query. -/

section Weights

variable {F : Type} [Field F] [LinearOrder F] [IsStrictOrderedRing F] (G : Logarithm F)

/-- `idf2`. -/
def idf2 (ix : IncrementalLuceneIndex S γ Λ) (wid : ℕ) : Except Exc F :=
  match ix.wordinfo[wid]? with
  | none => .error .keyError
  | some r =>
    if 1 + (r.length : F) = 0 then .error .zeroDivisionError
    else if (ix.documentCount : F) / (1 + r.length) ≤ 0 then .error (.valueError "math domain error")
    else .ok ((1 + G.log (ix.documentCount / (1 + r.length))) ^ 2)

/-- `_remove_oov_wids`. -/
def removeOovWids (ix : IncrementalLuceneIndex S γ Λ) (wids : List ℕ) : List ℕ :=
  wids.filter (· ∈ ix.wordinfo)

/-- `_search_wids`: trees with their lengths, and weights. -/
def searchWids (ix : IncrementalLuceneIndex S γ Λ) (wids : List ℕ) :
    Except Exc (List (WordInfo S × F)) :=
  wids.mapM fun w => do
    let r ← (ix.wordinfo[w]?).elim (.error .keyError) .ok
    let weight ← ix.idf2 G w
    return (r, weight)

/-- Every query gets its weights, none smaller than that of a word in the only document, and
its trees, none empty. -/
def Searchable (ix : IncrementalLuceneIndex S γ Λ) : Prop :=
  ∀ wids, ∃ L, ix.searchWids G (ix.removeOovWids wids) = .ok L ∧
    ∀ e ∈ L, (1 + G.log (1 / (1 + 1))) ^ 2 ≤ e.2 ∧ ∃ pair, pair ∈ e.1.tree

end Weights

/-! ## The invariant

The postings invariant says what is in the records. This one says which records there are, and
that they are counted. -/

variable (W : Widcode γ)

/-- **The vocabulary invariant.** -/
structure Vocabulary (ix : IncrementalLuceneIndex S γ Λ) : Prop where
  /-- a word with a record occurs in a document -/
  occurs : ∀ w ∈ ix.wordinfo, ∃ docid, w ∈ words W ix docid
  /-- the records are counted -/
  count_eq : ix.wordCount = ix.wordinfo.size

/-- The condition for a call to keep it: the words that the document loses occur in others. -/
def Shared (L : Lexicon τ Λ) (ix : IncrementalLuceneIndex S γ Λ) : Call τ → Prop
  | .indexDoc docid text => ∀ wids, (L.sourceToWordIds ix.lexicon text).1 = .ok wids →
      ∀ w ∈ words W ix docid, w ∉ wids → ∃ d, d ≠ docid ∧ w ∈ words W ix d
  | .unindexDoc docid => ∀ w ∈ words W ix docid, ∃ d, d ≠ docid ∧ w ∈ words W ix d

/-! ## What the postings say

Having a record, having a pair in the tree and being a word of a document, for a word: the
postings relate the last two, and the length of its record tells whether a document is the only
one. -/

section Postings

variable {W} {ix : IncrementalLuceneIndex S γ Λ}

/-- The tree of a word of a document is not empty. -/
theorem Postings.mem_tree (h : Postings W ix) {docid : ℤ} {w : ℕ} (hw : w ∈ words W ix docid) :
    widscore (words W ix docid) docid w ∈ (record ix.wordinfo w).tree :=
  (h.mem_iff w _).mpr (isPosting_widscore.mpr hw)

/-- And the word has a record. -/
theorem Postings.mem_wordinfo (h : Postings W ix) {docid : ℤ} {w : ℕ}
    (hw : w ∈ words W ix docid) : w ∈ ix.wordinfo := by
  by_contra hnot
  have hpair := h.mem_tree hw
  rw [record, (BTree.not_mem_iff _).mp hnot] at hpair
  exact absurd hpair Std.ExtTreeSet.not_mem_empty

/-- A word has as many pairs as documents, and no more than there are. -/
theorem Postings.size_tree_le (h : Postings W ix) (w : ℕ) :
    (record ix.wordinfo w).tree.size ≤ ix.docwords.size := by
  set tree := (record ix.wordinfo w).tree with htree
  have hinj : ∀ p ∈ tree.toList, ∀ q ∈ tree.toList, p.docid = q.docid → p = q := by
    intro p hp q hq hd
    obtain ⟨-, hp'⟩ := ((h.mem_iff w p).mp (Std.ExtTreeSet.mem_toList.mp hp)).of_docid rfl
    obtain ⟨-, hq'⟩ := ((h.mem_iff w q).mp (Std.ExtTreeSet.mem_toList.mp hq)).of_docid rfl
    rw [hp', hq', hd]
  have hnodup : (tree.toList.map Posting.docid).Nodup :=
    (List.nodup_map_iff_inj_on tree.nodup_toList).mpr hinj
  have hmem : ∀ d ∈ tree.toList.map Posting.docid, d ∈ ix.docwords := by
    intro d hd
    obtain ⟨p, hp, rfl⟩ := List.mem_map.mp hd
    obtain ⟨hw, -⟩ := ((h.mem_iff w p).mp (Std.ExtTreeSet.mem_toList.mp hp)).of_docid rfl
    by_contra hnot
    rw [words_of_not_mem hnot] at hw
    exact absurd hw List.not_mem_nil
  have hle := BTree.length_le_size _ hnodup hmem
  rwa [List.length_map, Std.ExtTreeSet.length_toList] at hle

/-- A word of a document occurs in another one if its length is not one. -/
theorem Postings.elsewhere_iff (h : Postings W ix) {docid : ℤ} {w : ℕ}
    (hw : w ∈ words W ix docid) :
    (∃ d, d ≠ docid ∧ w ∈ words W ix d) ↔ (record ix.wordinfo w).length - 1 ≠ 0 := by
  have hpair := h.mem_tree hw
  have hsize := TreeSet.size_erase_mem _ hpair
  have hlen := h.length_eq w
  refine ⟨?_, ?_⟩
  · rintro ⟨d, hd, hwd⟩ hone
    have hother : widscore (words W ix d) d w ∈
        (record ix.wordinfo w).tree.erase (widscore (words W ix docid) docid w) :=
      (TreeSet.mem_erase _).mpr ⟨h.mem_tree hwd, fun heq => hd (congrArg Posting.docid heq)⟩
    have hpos := TreeSet.size_erase_mem _ hother
    omega
  · intro hmany
    have hempty : ((record ix.wordinfo w).tree.erase
        (widscore (words W ix docid) docid w)).isEmpty = false := by
      rw [Bool.eq_false_iff, ne_eq, Std.ExtTreeSet.isEmpty_iff,
        Std.ExtTreeSet.eq_empty_iff_size_eq_zero]
      omega
    obtain ⟨q, hq⟩ := TreeSet.exists_mem _ hempty
    obtain ⟨hq, hne⟩ := (TreeSet.mem_erase _).mp hq
    obtain ⟨hwq, hq'⟩ := ((h.mem_iff w q).mp hq).of_docid rfl
    refine ⟨q.docid, fun hd => hne ?_, hwq⟩
    rw [hq', hd]

end Postings

/-! ## Queries

With the invariant every word that has a record has documents, so that all weights are there. -/

section Weights

variable {W} {ix : IncrementalLuceneIndex S γ Λ}
variable {F : Type} [Field F] [LinearOrder F] [IsStrictOrderedRing F] (G : Logarithm F)

/-- The weight of a word with a record. -/
theorem Vocabulary.idf2_ok (h : Vocabulary W ix) (hp : Postings W ix) {w : ℕ} {r : WordInfo S}
    (hr : ix.wordinfo[w]? = some r) :
    (∃ pair, pair ∈ r.tree) ∧ ∃ v, ix.idf2 G w = .ok v ∧ (1 + G.log (1 / (1 + 1))) ^ 2 ≤ v := by
  have hrec : record ix.wordinfo w = r := by rw [record, hr]; rfl
  obtain ⟨docid, hw⟩ := h.occurs w (BTree.mem_of_get _ hr)
  have hpair := hrec ▸ hp.mem_tree hw
  have hsize := TreeSet.size_erase_mem _ hpair
  have hlen : r.length = r.tree.size := hrec ▸ hp.length_eq w
  have hle : r.tree.size ≤ ix.docwords.size := hrec ▸ hp.size_tree_le w
  have hone : 1 ≤ r.length := by omega
  have hdocs : r.length ≤ ix.documentCount := by
    rw [hp.count_eq, hlen]
    exact_mod_cast hle
  have hone' : (1 : F) ≤ r.length := by exact_mod_cast hone
  have hdocs' : (r.length : F) ≤ ix.documentCount := by exact_mod_cast hdocs
  have hpos : (0 : F) < 1 + r.length := by linarith
  -- `n / (n + 1)` is at least one half
  have hhalf : (1 / 2 : F) ≤ ix.documentCount / (1 + r.length) := by
    rw [div_le_div_iff₀ two_pos hpos]
    linarith
  have hquot : ¬ (ix.documentCount : F) / (1 + r.length) ≤ 0 := by
    apply not_le.mpr
    exact (one_half_pos).trans_le hhalf
  refine ⟨⟨_, hpair⟩, (1 + G.log (ix.documentCount / (1 + r.length))) ^ 2, ?_, ?_⟩
  · rw [idf2, hr]
    simp only [if_neg hpos.ne', if_neg hquot]
  · have hlog := G.mono _ _ one_half_pos hhalf
    rw [one_add_one_eq_two]
    exact pow_le_pow_left₀ G.half (by linarith) 2

/-- So every query is answered. -/
theorem Vocabulary.searchable (h : Vocabulary W ix) (hp : Postings W ix) :
    ix.Searchable G := by
  intro wids
  have hmem : ∀ w ∈ ix.removeOovWids wids, w ∈ ix.wordinfo := fun w hw => by
    simpa using (List.mem_filter.mp hw).2
  generalize ix.removeOovWids wids = ws at hmem
  induction ws with
  | nil => exact ⟨[], rfl, fun e he => absurd he List.not_mem_nil⟩
  | cons w ws ih =>
    obtain ⟨L, hL, hall⟩ := ih fun w' hw' => hmem w' (List.mem_cons_of_mem _ hw')
    obtain ⟨r, hr⟩ := (BTree.mem_iff _).mp (hmem w List.mem_cons_self)
    obtain ⟨hpair, v, hv, hle⟩ := h.idf2_ok G hp hr
    refine ⟨(r, v) :: L, ?_, fun e he => ?_⟩
    · rw [searchWids] at hL ⊢
      rw [List.mapM_cons, hL, hr, hv]
      rfl
    · rcases List.mem_cons.mp he with rfl | he
      · exact ⟨hle, hpair⟩
      · exact hall e he

end Weights

/-! ## Records and their number

Of an update of the index it matters here which records it makes and deletes. `SameRecords` says
that it does neither, and what remains of each call is a comparison of the words of one document
before and after. -/

section Calls

variable {W} {L : Lexicon τ Λ} {ix ix' : IncrementalLuceneIndex S γ Λ}

/-- The words without a document are the same, and so is what is counted too much. -/
structure SameRecords (wids : List ℕ) (ix ix' : IncrementalLuceneIndex S γ Λ) : Prop where
  /-- there are records for the words, and those there were -/
  mem_iff : ∀ w, w ∈ ix'.wordinfo ↔ w ∈ ix.wordinfo ∨ w ∈ wids
  /-- each one that was made is counted -/
  count : ix'.wordCount - ix'.wordinfo.size = ix.wordCount - ix.wordinfo.size

theorem getDoctrees_records (wids : List ℕ) (ix : IncrementalLuceneIndex S γ Λ) :
    SameRecords wids ix (getDoctrees wids ix) := by
  induction wids generalizing ix with
  | nil => exact ⟨fun w => by simp [getDoctrees], rfl⟩
  | cons x wids ih =>
    by_cases hx : x ∈ ix.wordinfo
    · have hstep : getDoctrees (x :: wids) ix = getDoctrees wids ix := by
        rw [getDoctrees, List.foldl_cons, if_pos hx]
        rfl
      rw [hstep]
      refine ⟨fun w => ?_, (ih ix).count⟩
      rw [(ih ix).mem_iff, List.mem_cons]
      refine ⟨?_, ?_⟩
      · exact Or.imp_right .inr
      · rintro (hw | rfl | hw)
        · exact .inl hw
        · exact .inl hx
        · exact .inr hw
    · -- a word without a record: one is made, and counted
      set ix₁ : IncrementalLuceneIndex S γ Λ :=
        { ix with wordinfo := ix.wordinfo.insert x .empty, wordCount := ix.wordCount + 1 } with hix₁
      have hstep : getDoctrees (x :: wids) ix = getDoctrees wids ix₁ := by
        rw [getDoctrees, List.foldl_cons, if_neg hx]
        rfl
      rw [hstep]
      refine ⟨fun w => ?_, (ih ix₁).count.trans ?_⟩
      · rw [(ih ix₁).mem_iff, List.mem_cons, hix₁, BTree.mem_insert]
        tauto
      · have hsize : ix₁.wordinfo.size = ix.wordinfo.size + 1 := BTree.size_insert_new _ hx
        have hcount : ix₁.wordCount = ix.wordCount + 1 := rfl
        omega

/-- Updates of records make and delete none. -/
theorem SameRecords.congr {ix₁ : IncrementalLuceneIndex S γ Λ} {ws wids : List ℕ}
    (h : SameRecords ws ix ix₁) (hwords : ∀ w, w ∈ ws ↔ w ∈ wids)
    (hmem : ∀ w, w ∈ ix'.wordinfo ↔ w ∈ ix₁.wordinfo) (hcount : ix'.wordCount = ix₁.wordCount) :
    SameRecords wids ix ix' := by
  refine ⟨fun w => ?_, ?_⟩
  · rw [hmem, h.mem_iff, hwords]
  · rw [hcount, BTree.size_congr _ hmem]
    exact h.count

/-- Where a document's words become others, the invariant is kept exactly when the words it
loses occur elsewhere. -/
theorem Vocabulary.update_iff (h : Vocabulary W ix) {docid : ℤ} {wids : List ℕ}
    (hrec : SameRecords (words W ix docid ++ wids) ix ix')
    (hwords : ∀ d, words W ix' d = if docid = d then wids else words W ix d) :
    Vocabulary W ix' ↔
      ∀ w ∈ words W ix docid, w ∉ wids → ∃ d, d ≠ docid ∧ w ∈ words W ix d := by
  refine ⟨?_, ?_⟩
  · intro h' w hw hlost
    obtain ⟨d, hd⟩ := h'.occurs w ((hrec.mem_iff w).mpr (.inr (List.mem_append_left _ hw)))
    rw [hwords] at hd
    by_cases heq : docid = d
    · rw [if_pos heq] at hd
      exact absurd hd hlost
    · rw [if_neg heq] at hd
      exact ⟨d, Ne.symm heq, hd⟩
  · intro hshared
    have hcount := hrec.count
    rw [h.count_eq, sub_self] at hcount
    refine ⟨fun w hw => ?_, sub_eq_zero.mp hcount⟩
    -- a word of a record is one of the new words, or was one of some document
    by_cases hnew : w ∈ wids
    · exact ⟨docid, by rwa [hwords, if_pos rfl]⟩
    · have hold : ∃ d, w ∈ words W ix d := by
        rcases (hrec.mem_iff w).mp hw with hw | hw
        · exact h.occurs w hw
        · exact ⟨docid, (List.mem_append.mp hw).resolve_right hnew⟩
      -- and if only this document had it, it is shared
      obtain ⟨d, hd⟩ := hold
      by_cases heq : docid = d
      · subst heq
        obtain ⟨d, hne, hd⟩ := hshared w hd hnew
        exact ⟨d, by rwa [hwords, if_neg (Ne.symm hne)]⟩
      · exact ⟨d, by rwa [hwords, if_neg heq]⟩

/-- The invariant does not depend on the lexicon. -/
theorem Vocabulary.congr (h : Vocabulary W ix) (hwordinfo : ix'.wordinfo = ix.wordinfo)
    (hcount : ix'.wordCount = ix.wordCount) (hdoc : ix'.docwords = ix.docwords) :
    Vocabulary W ix' := by
  refine ⟨fun w hw => ?_, by rw [hcount, hwordinfo, h.count_eq]⟩
  rw [hwordinfo] at hw
  obtain ⟨d, hd⟩ := h.occurs w hw
  exact ⟨d, by rwa [words, hdoc]⟩

/-! ## The three calls

Indexing a new document makes records of words that get a document. Reindexing keeps the records
of words that are left without one; unindexing deletes these, but goes on counting them. -/

theorem addPostings_records (docid : ℤ) (wids : List ℕ) (ix : IncrementalLuceneIndex S γ Λ) :
    SameRecords wids ix (addPostings docid wids ix).2 := by
  by_cases hne : wids = []
  · subst hne
    exact getDoctrees_records [] ix
  · have hrun : (addPostings docid wids ix).2 = { getDoctrees wids.dedup ix with
        wordinfo := forEach wids.dedup (fun w r => (r.add (widscore wids docid w)).change 1)
          (getDoctrees wids.dedup ix).wordinfo } := by
      rw [addPostings, if_neg hne, Py.modify_bind_apply,
        Py.bind_of_ok (parallelTraversal_apply (dedup_ne_nil hne) _)]
      rfl
    rw [hrun]
    exact (getDoctrees_records wids.dedup ix).congr (fun w => List.mem_dedup)
      (mem_forEach (List.nodup_dedup _) _ _) rfl

/-- Indexing a new document keeps the invariant. -/
theorem Vocabulary.indexDoc_new (h : Vocabulary W ix) {docid : ℤ} (hnew : docid ∉ ix.docwords)
    (text : τ) : Vocabulary W (indexDoc W L true docid text ix).2 := by
  rw [indexDoc, Py.get_bind_apply, if_neg hnew]
  obtain ⟨lexicon, ⟨e, hsrc⟩ | ⟨wids, hsrc, hpos⟩⟩ := sourceToWordIds_cases (L := L) text ix
  · rw [Py.bind_of_error hsrc]
    exact h.congr rfl rfl rfl
  · set ix₁ : IncrementalLuceneIndex S γ Λ := { ix with
      lexicon := lexicon
      docwords := ix.docwords.insert docid (encodeWids W true wids) } with hix₁
    obtain ⟨ix₂, hrun, hdoc, hcount, -⟩ := addPostings_spec docid wids ix₁
    rw [Py.bind_of_ok hsrc, Py.modify_bind_apply, Py.bind_of_ok hrun, Py.modify_bind_apply,
      Py.pure_apply]
    have hnone : words W ix docid = [] := words_of_not_mem hnew
    have hrec : SameRecords (words W ix docid ++ wids) ix
        { ix₂ with documentCount := ix₂.documentCount + 1 } := by
      have hadd := addPostings_records docid wids ix₁
      rw [hrun] at hadd
      rw [hnone, List.nil_append]
      exact ⟨hadd.mem_iff, hadd.count⟩
    refine (h.update_iff hrec fun d => ?_).mpr fun w hw => ?_
    · have hins : words W { ix₂ with documentCount := ix₂.documentCount + 1 } d =
          if docid = d then W.decode (encodeWids W true wids) else words W ix d :=
        words_insert hdoc d
      rw [hins, encodeWids, if_pos rfl, W.decode_encode wids hpos]
    · rw [hnone] at hw
      exact absurd hw List.not_mem_nil

/-- Indexing one again keeps it exactly when no word loses its last document. -/
theorem Vocabulary.reindexDoc_iff (h : Vocabulary W ix) {docid : ℤ} (hmem : docid ∈ ix.docwords)
    (text : τ) : Vocabulary W (reindexDoc W L true docid text ix).2 ↔
      Shared W L ix (.indexDoc docid text) := by
  obtain ⟨code, hcode⟩ := (BTree.mem_iff _).mp hmem
  have hold : words W ix docid = W.decode code := words_of_get hcode
  rw [reindexDoc, Py.get_bind_apply, hcode, Py.ofOption_some, Py.pure_bind_apply, Shared, hold]
  set oldWids := W.decode code with holdWids
  rcases hlex : L.sourceToWordIds ix.lexicon text with ⟨e | newWids, lexicon⟩
  · have hsrc : sourceToWordIds L text ix = (.error e, { ix with lexicon := lexicon }) := by
      rw [sourceToWordIds, hlex]
    rw [Py.bind_of_error hsrc]
    -- a text that the lexicon refuses changes the lexicon only
    refine iff_of_true (h.congr rfl rfl rfl) fun wids hwids => ?_
    cases hwids
  · have hsrc : sourceToWordIds L text ix = (.ok newWids, { ix with lexicon := lexicon }) := by
      rw [sourceToWordIds, hlex]
    have hpos := L.positive ix.lexicon text newWids (by rw [hlex])
    have hshared : (∀ wids, (Except.ok newWids : Except Exc (List ℕ)) = .ok wids →
        ∀ w ∈ oldWids, w ∉ wids → ∃ d, d ≠ docid ∧ w ∈ words W ix d) ↔
        ∀ w ∈ oldWids, w ∉ newWids → ∃ d, d ≠ docid ∧ w ∈ words W ix d := by
      refine ⟨?_, ?_⟩
      · exact fun hall => hall newWids rfl
      · rintro hall wids hwids
        obtain rfl := Except.ok.inj hwids
        exact hall
    rw [Py.bind_of_ok hsrc, hshared]
    set all := (newWids.dedup ++ oldWids.dedup).dedup with hall
    simp only [Py.modify_bind_apply]
    have hrec := getDoctrees_records all { ix with lexicon := lexicon }
    obtain ⟨-, -, -, hdoc, -, -⟩ := getDoctrees_spec all { ix with lexicon := lexicon }
    set ix₁ : IncrementalLuceneIndex S γ Λ := getDoctrees all { ix with lexicon := lexicon } with hix₁
    by_cases hne : all = []
    · -- neither version has words: nothing was changed
      have hnil : newWids = [] ∧ oldWids = [] := by simpa [hall] using hne
      rw [parallelTraversal, if_pos hne, Py.raise_bind_apply, hnil.1, hnil.2]
      have hsame : ix₁ = { ix with lexicon := lexicon } := by rw [hix₁, hne]; rfl
      rw [hsame]
      exact iff_of_true (h.congr rfl rfl rfl) fun w hw => absurd hw List.not_mem_nil
    · rw [Py.bind_of_ok (parallelTraversal_apply hne _)]
      simp only [Py.modify_bind_apply, Py.pure_apply]
      rw [← hold]
      -- `_get_doctrees` has made the records; the four loops only update them
      refine h.update_iff ?_ fun d => ?_
      · have hnodup := List.nodup_dedup (words W ix docid)
        have hnodup' := List.nodup_dedup newWids
        have hall' : ∀ w, w ∈ all ↔ w ∈ words W ix docid ++ newWids := fun w => by
          simp [hall, hold, or_comm]
        refine SameRecords.congr ⟨hrec.mem_iff, hrec.count⟩ hall' (fun w => ?_) rfl
        rw [mem_forEach hnodup', mem_forEach hnodup, mem_forEach (hnodup'.filter _),
          mem_forEach (hnodup.filter _)]
      · have hins := @words_insert _ _ _ _ W ix₁ { ix₁ with
          docwords := ix₁.docwords.insert docid (encodeWids W true newWids) } docid _ rfl d
        rw [encodeWids, if_pos rfl, W.decode_encode newWids hpos] at hins
        have hother : words W ix₁ d = words W ix d := by rw [words, words, hdoc]
        rw [← hother]
        exact hins

/-- Unindexing a document keeps the invariant exactly when it has no word of its own. -/
theorem Vocabulary.unindexDoc_iff (h : Vocabulary W ix) (hp : Postings W ix) (docid : ℤ) :
    Vocabulary W (unindexDoc W docid ix).2 ↔
      ∀ w ∈ words W ix docid, ∃ d, d ≠ docid ∧ w ∈ words W ix d := by
  rcases hcode : ix.docwords[docid]? with _ | code
  · have hnone : words W ix docid = [] := words_of_not_mem ((BTree.not_mem_iff _).mpr hcode)
    rw [unindexDoc, Py.get_bind_apply, hcode, hnone]
    exact iff_of_true h fun w hw => absurd hw List.not_mem_nil
  have hold : words W ix docid = W.decode code := words_of_get hcode
  by_cases hne : words W ix docid = []
  · -- a document without words raises before anything is changed
    rw [hne, unindexDoc, Py.get_bind_apply, hcode]
    simp only [← hold, hne, List.dedup_nil, Py.modify_bind_apply]
    exact iff_of_true h fun w hw => absurd hw List.not_mem_nil
  obtain ⟨wordinfo, hrun, hwordinfo⟩ :=
    unindexDoc_apply hcode hold.symm hne fun w hw => hp.mem_tree hw
  set wids := words W ix docid with hwids
  -- the words of a document have records, so that none is made
  have hrec := getDoctrees_records wids.dedup ix
  have hmem : ∀ w, w ∈ (getDoctrees wids.dedup ix).wordinfo ↔ w ∈ ix.wordinfo := by
    intro w
    rw [hrec.mem_iff]
    exact or_iff_left_of_imp fun hw => hp.mem_wordinfo (List.mem_dedup.mp hw)
  have hcount : (getDoctrees wids.dedup ix).wordCount = ix.wordinfo.size := by
    have hsize := BTree.size_congr _ hmem
    have hrec := hrec.count
    have hix := h.count_eq
    omega
  -- a record is deleted when its length has been one
  have hget : ∀ w, w ∈ wordinfo ↔
      w ∈ ix.wordinfo ∧ (w ∈ wids → (record ix.wordinfo w).length - 1 ≠ 0) := by
    intro w
    rw [BTree.mem_iff, hwordinfo]
    by_cases hw : w ∈ wids
    · rw [if_pos hw]
      by_cases hzero : (record ix.wordinfo w).length - 1 = 0
      · have htaken : taken (widscore wids docid w) (record ix.wordinfo w) = none := if_pos hzero
        rw [htaken]
        simp [hw, hzero]
      · have htaken : taken (widscore wids docid w) (record ix.wordinfo w) = some _ := if_neg hzero
        rw [htaken]
        simp [hzero, hp.mem_wordinfo hw]
    · rw [if_neg hw, ← BTree.mem_iff, hmem]
      simp [hw]
  rw [hrun]
  by_cases hall : ∀ w ∈ wids, (record ix.wordinfo w).length - 1 ≠ 0
  · -- no record is deleted: the words change as in an update
    have hsame : ∀ w, w ∈ wordinfo ↔ w ∈ ix.wordinfo := fun w =>
      (hget w).trans (and_iff_left (hall w))
    have hrec : SameRecords (words W ix docid ++ []) ix { getDoctrees wids.dedup ix with
        wordinfo := wordinfo
        docwords := ix.docwords.erase docid
        documentCount := ix.documentCount - 1 } := by
      refine ⟨fun w => ?_, ?_⟩
      · rw [hsame, List.append_nil]
        exact (or_iff_left_of_imp hp.mem_wordinfo).symm
      · rw [hcount, BTree.size_congr _ hsame, h.count_eq]
    refine (h.update_iff hrec fun d => ?_).trans ?_
    · exact words_erase rfl d
    · simp [hwids]
  · refine iff_of_false (fun h' => ?_) fun hshared => hall fun w hw => ?_
    · -- one is deleted, and `wordCount` stays
      obtain ⟨w, hw⟩ := not_forall.mp hall
      obtain ⟨hw, hone⟩ := Classical.not_imp.mp hw
      have hlt : wordinfo.size < ix.wordinfo.size :=
        BTree.size_lt_size _ (fun w hw => ((hget w).mp hw).1) (hp.mem_wordinfo hw)
          fun hmem => hone (((hget w).mp hmem).2 hw)
      have heq : (getDoctrees wids.dedup ix).wordCount = wordinfo.size := h'.count_eq
      omega
    · exact (hp.elsewhere_iff hw).mp (hshared w hw)

/-- One call. -/
theorem Vocabulary.step_iff (h : Vocabulary W ix) (hp : Postings W ix) (c : Call τ) :
    Vocabulary W (machine W L true ix c).2 ↔ Shared W L ix c := by
  cases c with
  | unindexDoc docid => exact h.unindexDoc_iff hp docid
  | indexDoc docid text =>
    change Vocabulary W (indexDoc W L true docid text ix).2 ↔ _
    by_cases hmem : docid ∈ ix.docwords
    · have hre : indexDoc W L true docid text ix = reindexDoc W L true docid text ix := by
        rw [indexDoc, Py.get_bind_apply, if_pos hmem]
      rw [hre]
      exact h.reindexDoc_iff hmem text
    · refine iff_of_true (h.indexDoc_new hmem text) fun wids _ w hw => ?_
      rw [words_of_not_mem hmem] at hw
      exact absurd hw List.not_mem_nil

end Calls

/-! ## Histories

Each call keeps the invariant exactly under its condition (`Vocabulary.step_iff`), and so a
history does in all its states. -/

theorem vocabulary_init (W : Widcode γ) (L : Lexicon τ Λ) :
    Vocabulary W (init L : IncrementalLuceneIndex S γ Λ) :=
  ⟨fun w hw => absurd hw Std.ExtTreeMap.not_mem_empty, by simp [init]⟩

/-- **The vocabulary, exactly**: over every sequence of calls on a new index that keeps
phrases, the records are those of the words of the documents, counted, and every query gets
weights and trees, in every state reached, if and only if no call takes the last document of
a word. -/
theorem vocabulary_iff_shared {F : Type} [Field F] [LinearOrder F] [IsStrictOrderedRing F]
    (G : Logarithm F) (W : Widcode γ) (L : Lexicon τ Λ) (calls : List (Call τ)) :
    (∀ ix ∈ (machine W L true).states (init L : IncrementalLuceneIndex S γ Λ) calls,
        Vocabulary W ix ∧ ix.Searchable G) ↔
      (machine W L true).Along (Shared W L) (init L : IncrementalLuceneIndex S γ Λ) calls := by
  have hsearch : ∀ ix : IncrementalLuceneIndex S γ Λ, Postings W ix →
      (Vocabulary W ix ∧ ix.Searchable G ↔ Vocabulary W ix) := fun ix hp =>
    and_iff_left_of_imp fun h => h.searchable G hp
  refine @Machine.states_inv_iff_along _ _ _ (machine W L true) (Shared W L)
    (fun ix => Vocabulary W ix ∧ ix.Searchable G) (Postings W)
    (fun ix c hp _ _ => hp.step c) (fun ix c hp h => ?_) _ postings_init
    ((hsearch _ postings_init).mpr (vocabulary_init W L)) calls
  exact (hsearch _ (hp.step c)).trans (h.1.step_iff hp c)

theorem one_add_log_half : 0 ≤ 1 + Real.log (1 / 2) := by
  have hlog : Real.log (1 / 2) = -Real.log 2 := by rw [one_div, Real.log_inv]
  have hlt := Real.log_two_lt_d9
  rw [hlog]
  linarith

/-- The logarithm of the program. -/
noncomputable def realLogarithm : Logarithm ℝ where
  log := Real.log
  mono _ _ hx hxy := Real.log_le_log hx hxy
  half := one_add_log_half

/-- Two documents with the same word, of which one is unindexed. -/
theorem vocabulary_iff_shared_example :
    Vocabulary plainWidcode ((machine plainWidcode plainLexicon true).final
        (init plainLexicon : IncrementalLuceneIndex ℚ (List ℕ) Unit)
        [.indexDoc 1 [4], .indexDoc 2 [4], .unindexDoc 1]) ∧
      Searchable realLogarithm ((machine plainWidcode plainLexicon true).final
        (init plainLexicon : IncrementalLuceneIndex ℚ (List ℕ) Unit)
        [.indexDoc 1 [4], .indexDoc 2 [4], .unindexDoc 1]) := by
  have hshared : (machine plainWidcode plainLexicon true).Along (Shared plainWidcode plainLexicon)
      (init plainLexicon : IncrementalLuceneIndex ℚ (List ℕ) Unit)
      [.indexDoc 1 [4], .indexDoc 2 [4], .unindexDoc 1] := by
    refine ⟨fun wids _ w hw => ?_, fun wids _ w hw => ?_, fun w hw => ?_, trivial⟩
    · exact absurd hw List.not_mem_nil
    · exact absurd hw List.not_mem_nil
    · obtain rfl : w = 5 := List.mem_singleton.mp hw
      exact ⟨2, by decide, List.mem_singleton.mpr rfl⟩
  exact (vocabulary_iff_shared realLogarithm plainWidcode plainLexicon _).mpr hshared _
    (Machine.final_mem_states _ _ _)

/-- A document that is indexed again without its word leaves the record of the word, with an
empty tree, for the next query; and one that is unindexed leaves the count of its word. -/
theorem not_vocabulary :
    ¬ Vocabulary plainWidcode ((machine plainWidcode plainLexicon true).final
        (init plainLexicon : IncrementalLuceneIndex ℚ (List ℕ) Unit)
        [.indexDoc 1 [4], .indexDoc 1 [5]]) ∧
      ¬ Searchable realLogarithm ((machine plainWidcode plainLexicon true).final
        (init plainLexicon : IncrementalLuceneIndex ℚ (List ℕ) Unit)
        [.indexDoc 1 [4], .indexDoc 1 [5]]) ∧
      ¬ Vocabulary plainWidcode ((machine plainWidcode plainLexicon true).final
        (init plainLexicon : IncrementalLuceneIndex ℚ (List ℕ) Unit)
        [.indexDoc 1 [4], .unindexDoc 1]) := by
  set ix := (machine plainWidcode plainLexicon true).final
    (init plainLexicon : IncrementalLuceneIndex ℚ (List ℕ) Unit)
    [.indexDoc 1 [4], .indexDoc 1 [5]] with hix
  have hp : Postings plainWidcode ix :=
    postings_states _ plainLexicon _ _ (Machine.final_mem_states _ _ _)
  -- the word has a record whose tree is empty
  have hrecord : 5 ∈ ix.wordinfo := by decide +kernel
  have hsize : (record ix.wordinfo 5).tree.size = 0 := by decide +kernel
  have hempty : ∀ pair, pair ∉ (record ix.wordinfo 5).tree := fun pair hpair => by
    have hpos := TreeSet.size_erase_mem _ hpair
    omega
  refine ⟨fun h => ?_, fun h => ?_, fun h => ?_⟩
  · obtain ⟨docid, hw⟩ := h.occurs 5 hrecord
    exact hempty _ (hp.mem_tree hw)
  · obtain ⟨L, hL, hall⟩ := h [5]
    have hoov : ix.removeOovWids [5] = [5] := by decide +kernel
    obtain ⟨r, hr⟩ := (BTree.mem_iff _).mp hrecord
    rw [hoov, searchWids, List.mapM_cons, hr] at hL
    rcases hv : ix.idf2 realLogarithm 5 with e | v <;> rw [hv] at hL
    · cases hL
    · obtain rfl : [(r, v)] = L := Except.ok.inj hL
      obtain ⟨-, pair, hpair⟩ := hall (r, v) (List.mem_singleton_self _)
      apply hempty pair
      rw [record, hr]
      exact hpair
  · exact absurd h.count_eq (by decide +kernel)

end IncrementalLuceneIndex

end Zerodb
