import Zerodb.TextLucene

/-!
# TextUndo: unindexing undoes indexing

`index_doc` computes the scores of a new document from its text, `unindex_doc` computes them
again from the stored word list. Where both compute the same, the second takes out what the
first has put in.

* `Undone` — the two calls complete, and leave what was there before;
* `unindex_undoes_iff` — they do exactly where the text has words, each once unless phrases
  are kept, no pair of the document was left behind, and no tree with pairs has length zero;
* `undoable_iff_words` — where phrases are kept only the first matters.
-/

namespace Zerodb

/-- A score depends on the count. -/
class StrictScore (S : Type) [Score S] : Prop where
  /-- `sqrt(f) / sqrt(n)` is another number than for a count of one -/
  sqrt_div_ne : ∀ f n : ℕ, 1 < f → 0 < n →
    (-Score.sqrt f / Score.sqrt n : S) ≠ -Score.sqrt 1 / Score.sqrt n

namespace IncrementalLuceneIndex

variable {S γ Λ τ : Type} [Score S]

/-! ## What should hold

`Undoable` asks only what the index has of the new document and of the words of the text before
the calls; none of its conditions runs one of them. -/

/-- What was there before is there after, and nothing of the document. -/
structure Restored (docid : ℤ) (ix ix' : IncrementalLuceneIndex S γ Λ) : Prop where
  /-- `documentCount` -/
  count : ix'.documentCount = ix.documentCount
  /-- the documents -/
  docs : ∀ d, d ∈ ix'.docwords ↔ d ∈ ix.docwords
  /-- tree and length of every word that had documents -/
  postings : ∀ w, (∃ pair, pair ∈ (record ix.wordinfo w).tree) →
    (∀ pair, pair ∈ (record ix'.wordinfo w).tree ↔ pair ∈ (record ix.wordinfo w).tree) ∧
      (record ix'.wordinfo w).length = (record ix.wordinfo w).length
  /-- no pair of the document -/
  none : ∀ w, ∀ pair ∈ (record ix'.wordinfo w).tree, pair.docid ≠ docid

/-- `index_doc` and then `unindex_doc` complete and restore the index. -/
def Undone (W : Widcode γ) (L : Lexicon τ Λ) (keepPhrases : Bool) (docid : ℤ) (text : τ)
    (ix : IncrementalLuceneIndex S γ Λ) : Prop :=
  ∃ n ix₁ ix₂, indexDoc W L keepPhrases docid text ix = (.ok n, ix₁) ∧
    unindexDoc W docid ix₁ = (.ok (), ix₂) ∧ Restored docid ix ix₂

/-- The condition for that. -/
structure Undoable (keepPhrases : Bool) (docid : ℤ) (wids : List ℕ)
    (ix : IncrementalLuceneIndex S γ Λ) : Prop where
  /-- the text has words -/
  words : wids ≠ []
  /-- none of them twice, unless phrases are kept -/
  once : keepPhrases = true ∨ wids.Nodup
  /-- no pair of the document was left behind -/
  fresh : ∀ w, ∀ pair ∈ (record ix.wordinfo w).tree, pair.docid ≠ docid
  /-- a tree of theirs that has pairs does not have length zero -/
  length : ∀ w ∈ wids, ∀ pair ∈ (record ix.wordinfo w).tree, (record ix.wordinfo w).length ≠ 0

/-! ## The two calls

For the converse it has to be known when the calls do not complete: `unindex_doc` removes a pair
for every stored word, and raises at the first one that is not there. -/

variable {W : Widcode γ} {L : Lexicon τ Λ} {keepPhrases : Bool} {docid : ℤ} {text : τ}
  {wids : List ℕ} {ix ix' : IncrementalLuceneIndex S γ Λ}

/-- Indexing a document that is not there. -/
theorem indexDoc_fresh (hnew : docid ∉ ix.docwords)
    (hsrc : (L.sourceToWordIds ix.lexicon text).1 = .ok wids) :
    ∃ ix₁, indexDoc W L keepPhrases docid text ix = (.ok wids.length, ix₁) ∧
      ix₁.docwords = ix.docwords.insert docid (encodeWids W keepPhrases wids) ∧
      ix₁.documentCount = ix.documentCount + 1 ∧ ∀ w, record ix₁.wordinfo w =
        if w ∈ wids then ((record ix.wordinfo w).add (widscore wids docid w)).change 1
        else record ix.wordinfo w := by
  have hrun : sourceToWordIds L text ix =
      (.ok wids, { ix with lexicon := (L.sourceToWordIds ix.lexicon text).2 }) := by
    rw [sourceToWordIds, ← hsrc]
  obtain ⟨ix₂, hadd, hdoc, hcount, hrec⟩ := addPostings_spec docid wids
    { ix with
      lexicon := (L.sourceToWordIds ix.lexicon text).2
      docwords := ix.docwords.insert docid (encodeWids W keepPhrases wids) }
  refine ⟨{ ix₂ with documentCount := ix₂.documentCount + 1 }, ?_, hdoc,
    congrArg (· + 1) hcount, hrec⟩
  rw [indexDoc, Py.get_bind_apply, if_neg hnew, Py.bind_of_ok hrun, Py.modify_bind_apply,
    Py.bind_of_ok hadd]
  rfl

/-- A text that the lexicon refuses. -/
theorem indexDoc_refused {e : Exc} (hnew : docid ∉ ix.docwords)
    (hsrc : (L.sourceToWordIds ix.lexicon text).1 = .error e) :
    (indexDoc W L keepPhrases docid text ix).1 = .error e := by
  have hrun : sourceToWordIds L text ix =
      (.error e, { ix with lexicon := (L.sourceToWordIds ix.lexicon text).2 }) := by
    rw [sourceToWordIds, ← hsrc]
  rw [indexDoc, Py.get_bind_apply, if_neg hnew, Py.bind_of_error hrun]

/-- The loop of `unindex_doc` completes only when every pair is there. -/
theorem removePostings_mem {ws : List ℕ} (hnodup : ws.Nodup)
    (h : removePostings docid wids ws ix = (.ok (), ix')) :
    ∀ w ∈ ws, widscore wids docid w ∈ (record ix.wordinfo w).tree := by
  induction ws generalizing ix with
  | nil => exact fun w hw => absurd hw List.not_mem_nil
  | cons x ws ih =>
    obtain ⟨hx, hnodup⟩ := List.nodup_cons.mp hnodup
    rw [removePostings, Py.get_bind_apply] at h
    obtain ⟨r, ix₁, hr, hrest⟩ := Py.bind_eq_ok.mp h
    obtain ⟨hr, rfl⟩ := Py.ofOption_eq_ok.mp hr
    by_cases hmem : widscore wids docid x ∈ r.tree
    · simp only [if_pos hmem, Py.modify_bind_apply] at hrest
      intro w hw
      rcases List.mem_cons.mp hw with rfl | hw
      · rw [record, hr]
        exact hmem
      · have hne : x ≠ w := by
          rintro rfl
          exact hx hw
        have hpair := ih hnodup hrest w hw
        simp only [record] at hpair ⊢
        split at hpair
        · rwa [BTree.get_erase_ne _ hne] at hpair
        · rwa [BTree.get_insert_ne _ hne] at hpair
    · simp only [if_neg hmem, Py.modify_bind_apply] at hrest
      cases hrest

/-- Unindexing completes only when all pairs are there, for a document with words. -/
theorem unindexDoc_eq_ok {code : γ} (hcode : ix.docwords[docid]? = some code)
    (hwids : W.decode code = wids) (h : unindexDoc W docid ix = (.ok (), ix')) :
    wids ≠ [] ∧ ∀ w ∈ wids, widscore wids docid w ∈ (record ix.wordinfo w).tree := by
  rw [unindexDoc, Py.get_bind_apply, hcode] at h
  simp only [hwids, Py.modify_bind_apply] at h
  obtain ⟨⟨⟩, ix₁, htraversal, h⟩ := Py.bind_eq_ok.mp h
  have hne : wids ≠ [] := by
    rintro rfl
    rw [List.dedup_nil, parallelTraversal, if_pos rfl] at htraversal
    cases htraversal
  obtain rfl := parallelTraversal_eq_ok htraversal
  obtain ⟨⟨⟩, ix₂, hremove, -⟩ := Py.bind_eq_ok.mp h
  refine ⟨hne, fun w hw => ?_⟩
  have hpair := removePostings_mem (List.nodup_dedup wids) hremove w (List.mem_dedup.mpr hw)
  rwa [(getDoctrees_spec wids.dedup ix).1] at hpair

/-! ## One after the other

The second call finds the pairs that the first one has put in exactly if it computes the same
scores. It computes them from the stored list, in which every word is single unless phrases are
kept: `decode_encodeWids_eq`. A record comes back as it was, or is deleted if it is empty. -/

/-- What `unindex_doc` reads of a word list that `index_doc` has stored. -/
theorem decode_encodeWids_eq (hpos : ∀ w ∈ wids, 0 < w) :
    W.decode (encodeWids W keepPhrases wids) = if keepPhrases then wids else wids.dedup := by
  refine W.decode_encode _ fun w hw => hpos w ?_
  cases keepPhrases with
  | true => exact hw
  | false => exact List.mem_dedup.mp hw

theorem words_eq (honce : keepPhrases = true ∨ wids.Nodup) :
    (if keepPhrases then wids else wids.dedup) = wids := by
  rcases honce with rfl | hnodup
  · rfl
  · rw [hnodup.dedup, ite_self]

/-- The record of a word, after its pair has come and gone. -/
theorem taken_added {pair : Posting S} {r : WordInfo S} (hpair : pair ∉ r.tree)
    (hlen : r.length ≠ 0) :
    ∃ r', taken pair ((r.add pair).change 1) = some r' ∧ (∀ p, p ∈ r'.tree ↔ p ∈ r.tree) ∧
      r'.length = r.length := by
  have hlength : ((((r.add pair).change 1).change (-1)).discard pair).length = r.length := by
    change r.length + 1 + -1 = r.length
    omega
  refine ⟨_, if_neg (by rwa [hlength]), fun p => ?_, hlength⟩
  change p ∈ (r.tree.insert pair).erase pair ↔ _
  rw [TreeSet.mem_erase, TreeSet.mem_insert]
  refine ⟨?_, ?_⟩
  · rintro ⟨rfl | hp, hne⟩
    · exact absurd rfl hne
    · exact hp
  · intro hp
    refine ⟨.inr hp, ?_⟩
    rintro rfl
    exact hpair hp

/-- The pairs that are left where there were none. -/
theorem mem_taken_added {pair p : Posting S} {r : WordInfo S}
    (hp : p ∈ ((taken pair ((r.add pair).change 1)).getD .empty).tree) : p ∈ r.tree := by
  rw [taken] at hp
  split at hp
  · exact absurd hp Std.ExtTreeSet.not_mem_empty
  · change p ∈ (r.tree.insert pair).erase pair at hp
    rw [TreeSet.mem_erase, TreeSet.mem_insert] at hp
    exact hp.1.resolve_left hp.2

section

variable (hnew : docid ∉ ix.docwords) (hsrc : (L.sourceToWordIds ix.lexicon text).1 = .ok wids)

include hnew hsrc

/-- Where the condition holds, the calls undo each other. -/
theorem Undoable.undone (h : Undoable keepPhrases docid wids ix) :
    Undone W L keepPhrases docid text ix := by
  obtain ⟨ix₁, hrun₁, hdoc₁, hcount₁, hrec₁⟩ :=
    @indexDoc_fresh _ _ _ _ _ W _ keepPhrases _ _ _ _ hnew hsrc
  have hcode : ix₁.docwords[docid]? = some (encodeWids W keepPhrases wids) := by
    rw [hdoc₁, BTree.get_insert, if_pos rfl]
  have hwids : W.decode (encodeWids W keepPhrases wids) = wids := by
    rw [decode_encodeWids_eq (L.positive _ _ _ hsrc), words_eq h.once]
  have hmem : ∀ w ∈ wids, widscore wids docid w ∈ (record ix₁.wordinfo w).tree := by
    intro w hw
    rw [hrec₁, if_pos hw]
    exact (TreeSet.mem_insert _).mpr (.inl rfl)
  -- `unindex_doc` finds the pairs that `index_doc` has made
  obtain ⟨wordinfo, hrun₂, hwordinfo⟩ := unindexDoc_apply hcode hwids h.words hmem
  have hrec : ∀ w, record wordinfo w = if w ∈ wids then
      (taken (widscore wids docid w)
        (((record ix.wordinfo w).add (widscore wids docid w)).change 1)).getD .empty
      else record ix.wordinfo w := by
    intro w
    rw [record, hwordinfo]
    by_cases hw : w ∈ wids
    · rw [if_pos hw, if_pos hw, hrec₁, if_pos hw]
    · rw [if_neg hw, if_neg hw]
      change record (getDoctrees wids.dedup ix₁).wordinfo w = _
      rw [(getDoctrees_spec wids.dedup ix₁).1, hrec₁, if_neg hw]
  refine ⟨_, ix₁, _, hrun₁, hrun₂, ?_, fun d => ?_, fun w hhad => ?_, fun w p hp => ?_⟩
  · change ix₁.documentCount - 1 = ix.documentCount
    omega
  · change d ∈ ix₁.docwords.erase docid ↔ _
    rw [hdoc₁, BTree.mem_erase, BTree.mem_insert]
    refine ⟨?_, ?_⟩
    · exact fun hd => hd.1.resolve_left hd.2
    · intro hd
      refine ⟨.inr hd, ?_⟩
      rintro rfl
      exact hnew hd
  · simp only [hrec]
    by_cases hw : w ∈ wids
    · obtain ⟨p, hp⟩ := hhad
      -- no pair of the document was there, so that removing the new one is undoing
      have hpair : widscore wids docid w ∉ (record ix.wordinfo w).tree :=
        fun hmem => h.fresh w _ hmem rfl
      obtain ⟨r', htaken, htree, hlength⟩ := taken_added hpair (h.length w hw p hp)
      rw [if_pos hw, htaken]
      exact ⟨htree, hlength⟩
    · rw [if_neg hw]
      exact ⟨fun _ => Iff.rfl, rfl⟩
  · rw [hrec] at hp
    by_cases hw : w ∈ wids
    · rw [if_pos hw] at hp
      exact h.fresh w p (mem_taken_added hp)
    · rw [if_neg hw] at hp
      exact h.fresh w p hp

/-- Where the calls undo each other, the condition holds. -/
theorem Undone.undoable [StrictScore S] (h : Undone W L keepPhrases docid text ix) :
    Undoable keepPhrases docid wids ix := by
  obtain ⟨n, ix₁, ix₂, hrun₁, hrun₂, hback⟩ := h
  obtain ⟨ix₁', hrun₁', hdoc₁, hcount₁, hrec₁⟩ :=
    @indexDoc_fresh _ _ _ _ _ W _ keepPhrases _ _ _ _ hnew hsrc
  obtain ⟨-, rfl⟩ := Prod.mk.inj (hrun₁.symm.trans hrun₁')
  have hcode : ix₁.docwords[docid]? = some (encodeWids W keepPhrases wids) := by
    rw [hdoc₁, BTree.get_insert, if_pos rfl]
  have hdecode := @decode_encodeWids_eq _ W keepPhrases _ (L.positive _ _ _ hsrc)
  obtain ⟨hne, hmem⟩ := unindexDoc_eq_ok hcode hdecode hrun₂
  -- what is there afterwards was there before, and is of other documents
  have hfresh : ∀ w, ∀ pair ∈ (record ix.wordinfo w).tree, pair.docid ≠ docid := fun w pair hp =>
    hback.none w pair (((hback.postings w ⟨pair, hp⟩).1 pair).mpr hp)
  have honce : keepPhrases = true ∨ wids.Nodup := by
    rw [or_iff_not_imp_left, Bool.not_eq_true]
    rintro rfl
    -- a word that occurs twice has another score than the one that is looked for
    by_contra hdup
    obtain ⟨w, hcount⟩ : ∃ w, 1 < wids.count w := by
      simpa [List.nodup_iff_count_le_one] using hdup
    have hw : w ∈ wids := List.count_pos_iff.mp (by omega)
    have hpair := hmem w (List.mem_dedup.mpr hw)
    simp only [Bool.false_eq_true, if_false] at hpair
    rw [hrec₁, if_pos hw] at hpair
    rcases (TreeSet.mem_insert _).mp hpair with heq | hold
    · have hscore := congrArg Posting.score heq
      simp only [widscore, List.dedup_idem,
        List.count_eq_one_of_mem (List.nodup_dedup wids) (List.mem_dedup.mpr hw)] at hscore
      have hpos : 0 < wids.dedup.length := List.length_pos_of_mem (List.mem_dedup.mpr hw)
      exact StrictScore.sqrt_div_ne _ _ hcount hpos hscore.symm
    · exact hfresh w _ hold rfl
  rw [words_eq honce] at hne hmem hdecode
  refine ⟨hne, honce, hfresh, fun w hw pair hp hzero => ?_⟩
  obtain ⟨wordinfo, hrun₂', hwordinfo⟩ := unindexDoc_apply hcode hdecode hne hmem
  obtain ⟨-, rfl⟩ := Prod.mk.inj (hrun₂.symm.trans hrun₂')
  have hpair := ((hback.postings w ⟨pair, hp⟩).1 pair).mpr hp
  -- a record of length zero is deleted again
  have htaken : taken (widscore wids docid w) (record ix₁.wordinfo w) = none := by
    apply if_pos
    rw [hrec₁, if_pos hw]
    change (record ix.wordinfo w).length + 1 + -1 = 0
    omega
  have hnone : record wordinfo w = .empty := by
    rw [record, hwordinfo, if_pos hw, htaken]
    rfl
  change pair ∈ (record wordinfo w).tree at hpair
  rw [hnone] at hpair
  exact absurd hpair Std.ExtTreeSet.not_mem_empty

end

/-- **Unindexing undoes indexing, exactly**: in every state, for a document that is not in
the index and any text. -/
theorem unindex_undoes_iff [StrictScore S] (W : Widcode γ) (L : Lexicon τ Λ) (keepPhrases : Bool)
    (ix : IncrementalLuceneIndex S γ Λ) (docid : ℤ) (hnew : docid ∉ ix.docwords) (text : τ) :
    Undone W L keepPhrases docid text ix ↔
      ∃ wids, (L.sourceToWordIds ix.lexicon text).1 = .ok wids ∧
        Undoable keepPhrases docid wids ix := by
  refine ⟨?_, ?_⟩
  · intro h
    rcases hsrc : (L.sourceToWordIds ix.lexicon text).1 with e | wids
    · obtain ⟨n, ix₁, -, hrun, -⟩ := h
      have herror := @indexDoc_refused _ _ _ _ _ W _ keepPhrases _ _ _ _ hnew hsrc
      rw [hrun] at herror
      cases herror
    · exact ⟨wids, rfl, h.undoable hnew hsrc⟩
  · rintro ⟨wids, hsrc, h⟩
    exact h.undone hnew hsrc

/-- The scores of the program. -/
noncomputable instance : Score ℝ where
  sqrt n := √n

instance : StrictScore ℝ where
  sqrt_div_ne f n hf hn heq := by
    have hn' : √(n : ℝ) ≠ 0 := (Real.sqrt_pos.mpr (Nat.cast_pos.mpr hn)).ne'
    have hsqrt : √(f : ℝ) = √((1 : ℕ) : ℝ) := neg_injective ((div_left_inj' hn').mp heq)
    rw [Real.sqrt_inj (Nat.cast_nonneg f) (Nat.cast_nonneg 1), Nat.cast_inj] at hsqrt
    omega

/-- Without phrases, a text of two words is undone, and one that repeats a word is not. -/
theorem unindex_undoes_iff_example :
    Undone plainWidcode plainLexicon false 1 [4, 5]
        (init plainLexicon : IncrementalLuceneIndex ℝ (List ℕ) Unit) ∧
      ¬ Undone plainWidcode plainLexicon false 1 [4, 4]
        (init plainLexicon : IncrementalLuceneIndex ℝ (List ℕ) Unit) := by
  have hnew : (1 : ℤ) ∉ (init plainLexicon : IncrementalLuceneIndex ℝ (List ℕ) Unit).docwords :=
    Std.ExtTreeMap.not_mem_empty
  have hnone : ∀ w, ∀ pair : Posting ℝ,
      pair ∉ (record (init plainLexicon : IncrementalLuceneIndex ℝ (List ℕ) Unit).wordinfo w).tree :=
    fun w pair => Std.ExtTreeSet.not_mem_empty
  refine ⟨?_, fun h => ?_⟩
  · refine (unindex_undoes_iff _ _ _ _ _ hnew _).mpr ⟨[5, 6], rfl, by decide, .inr (by decide), ?_, ?_⟩
    · exact fun w pair hp => absurd hp (hnone w pair)
    · exact fun w _ pair hp => absurd hp (hnone w pair)
  · obtain ⟨wids, hsrc, hundoable⟩ := (unindex_undoes_iff _ _ _ _ _ hnew _).mp h
    obtain rfl : [5, 5] = wids := Except.ok.inj hsrc
    rcases hundoable.once with h | h
    · cases h
    · exact absurd h (by decide)

/-- A text without words, and one with a word four times where phrases are not kept:
`unindex_doc` raises. -/
theorem not_undone :
    ¬ Undone plainWidcode plainLexicon true 1 []
        (init plainLexicon : IncrementalLuceneIndex ℚ (List ℕ) Unit) ∧
      ¬ Undone plainWidcode plainLexicon false 1 [4, 4, 4, 4]
        (init plainLexicon : IncrementalLuceneIndex ℚ (List ℕ) Unit) := by
  refine ⟨?_, ?_⟩
  · rintro ⟨n, ix₁, ix₂, hrun₁, hrun₂, -⟩
    have hraise : (unindexDoc plainWidcode 1 (indexDoc plainWidcode plainLexicon true 1 []
      (init plainLexicon : IncrementalLuceneIndex ℚ (List ℕ) Unit)).2).1 = .error .typeError := rfl
    rw [hrun₁, hrun₂] at hraise
    cases hraise
  · rintro ⟨n, ix₁, ix₂, hrun₁, hrun₂, -⟩
    have hraise : (unindexDoc plainWidcode 1 (indexDoc plainWidcode plainLexicon false 1 [4, 4, 4, 4]
      (init plainLexicon : IncrementalLuceneIndex ℚ (List ℕ) Unit)).2).1 = .error .keyError := by
      decide +kernel
    rw [hrun₁, hrun₂] at hraise
    cases hraise

/-- Where phrases are kept, any text with words will do. -/
theorem undoable_iff_words (W : Widcode γ) (L : Lexicon τ Λ) (calls : List (Call τ))
    {ix : IncrementalLuceneIndex S γ Λ} (hix : ix ∈ (machine W L true).states (init L) calls)
    {docid : ℤ} (hnew : docid ∉ ix.docwords) (wids : List ℕ) :
    Undoable true docid wids ix ↔ wids ≠ [] := by
  have hpostings := postings_states W L calls ix hix
  refine ⟨fun h => h.words, fun hne => ⟨hne, .inl rfl, fun w pair hp hd => ?_, fun w _ pair hp => ?_⟩⟩
  · obtain ⟨hw, -⟩ := ((hpostings.mem_iff w pair).mp hp).of_docid hd
    rw [words_of_not_mem hnew] at hw
    exact absurd hw List.not_mem_nil
  · have hsize := TreeSet.size_erase_mem _ hp
    rw [hpostings.length_eq]
    omega

end IncrementalLuceneIndex

end Zerodb
