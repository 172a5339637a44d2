import Zerodb.TextSearch

/-!
# TextWords: what a search finds, in the words of the texts

The full-text index knows words by their ids. A lexicon gives them: a new word gets a new id,
and keeps it. So what a search finds can be said without ids, by the texts that were indexed.

* `TextLexicon` — a lexicon with its pipeline, and what its word ids and patterns are relied on
  for;
* `shelf` — the words of the text that each document has after a history of calls;
* `found_in_texts` — every document that a search yields has a word that was asked for, and a
  search for one word yields all the documents that have it.
-/

namespace Zerodb

/-! ## Lexicons

A lexicon gives ids in the order in which words come, and never takes one back. `Wf` and
`Wf.create` are all that is needed of how: different words have different ids, and a word keeps
its own. -/

/-- `_wids` of a lexicon, as far as it is asked for words. -/
structure WordIds (Λ : Type) where
  /-- a lexicon without words -/
  empty : Λ
  /-- `_wids.get(word)` -/
  get : Λ → Str → Option ℕ
  /-- `_getWordIdCreate` -/
  create : Λ → Str → ℕ × Λ
  /-- at first there are no words -/
  get_empty : ∀ v, get empty v = none
  /-- ids are positive -/
  positive : ∀ lex v, 0 < (create lex v).1
  /-- a word that has an id keeps it -/
  keeps : ∀ lex v w, get lex v = some w → create lex v = (w, lex)
  /-- a new word gets one, and no other word does -/
  creates : ∀ lex v, get lex v = none → ∀ u, get (create lex v).2 u =
    if u = v then some (create lex v).1 else get lex u
  /-- which no other word has -/
  fresh : ∀ lex v u, get lex v = none → get lex u ≠ some (create lex v).1

namespace WordIds

variable {Λ : Type} (I : WordIds Λ)

/-- `map(self._getWordIdCreate, last)`. -/
def createAll : Λ → List Str → List ℕ × Λ
  | lex, [] => ([], lex)
  | lex, v :: vs =>
    let (w, lex) := I.create lex v
    let (ws, lex) := createAll lex vs
    (w :: ws, lex)

/-- Words have positive ids of their own. -/
structure Wf (lex : Λ) : Prop where
  /-- positive ones -/
  pos : ∀ v w, I.get lex v = some w → 0 < w
  /-- of their own -/
  inj : ∀ u v w, I.get lex u = some w → I.get lex v = some w → u = v

variable {I} {lex : Λ}

theorem wf_empty : I.Wf I.empty :=
  ⟨fun v w h => by simp [I.get_empty] at h, fun u v w h => by simp [I.get_empty] at h⟩

/-- After a word has been asked for, it has the id that was given, and ids stay. -/
theorem Wf.create (h : I.Wf lex) (v : Str) : I.Wf (I.create lex v).2 ∧
    I.get (I.create lex v).2 v = some (I.create lex v).1 ∧
    ∀ u w, I.get lex u = some w → I.get (I.create lex v).2 u = some w := by
  rcases hv : I.get lex v with _ | w
  · have hget := I.creates lex v hv
    refine ⟨⟨fun u w hu => ?_, fun u u' w hu hu' => ?_⟩, by rw [hget, if_pos rfl], fun u w hu => ?_⟩
    · rw [hget] at hu
      split at hu
      · exact Option.some.inj hu ▸ I.positive lex v
      · exact h.pos u w hu
    · rw [hget] at hu hu'
      split at hu
      · rename_i huv
        split at hu'
        · rename_i hu'v
          exact huv.trans hu'v.symm
        · exact absurd (hu'.trans hu.symm) (I.fresh lex v u' hv)
      · split at hu'
        · exact absurd (hu.trans hu'.symm) (I.fresh lex v u hv)
        · exact h.inj u u' w hu hu'
    · rw [hget, if_neg, hu]
      rintro rfl
      rw [hv] at hu
      cases hu
  · rw [I.keeps lex v w hv]
    exact ⟨h, hv, fun u w hu => hu⟩

/-- The same for several. -/
theorem Wf.createAll (h : I.Wf lex) (vs : List Str) : I.Wf (I.createAll lex vs).2 ∧
    vs.map (I.get (I.createAll lex vs).2) = (I.createAll lex vs).1.map some ∧
    ∀ u w, I.get lex u = some w → I.get (I.createAll lex vs).2 u = some w := by
  induction vs generalizing lex with
  | nil => exact ⟨h, rfl, fun u w hu => hu⟩
  | cons v vs ih =>
    obtain ⟨h₁, hv, hmono⟩ := h.create v
    obtain ⟨h₂, hvs, hmono'⟩ := ih h₁
    refine ⟨h₂, ?_, fun u w hu => hmono' u w (hmono u w hu)⟩
    rw [WordIds.createAll, List.map_cons, List.map_cons, ← hvs]
    exact congrArg (· :: _) (hmono' v _ hv)

theorem createAll_pos (lex : Λ) (vs : List Str) : ∀ w ∈ (I.createAll lex vs).1, 0 < w := by
  induction vs generalizing lex with
  | nil => exact fun w hw => absurd hw List.not_mem_nil
  | cons v vs ih =>
    intro w hw
    rcases List.mem_cons.mp hw with rfl | hw
    · exact I.positive lex v
    · exact ih _ w hw

end WordIds

/-- `Lexicon`, with its pipeline, and what is done with texts and sets besides. -/
structure TextLexicon (Λ : Type) where
  /-- the word ids -/
  ids : WordIds Λ
  /-- `_pipeline`: the `process` of its elements -/
  pipeline : List (List Str → List Str)
  /-- `_tokenizer_regex.findall` -/
  findall : Str → List Str
  /-- `lower()` -/
  lower : Str → Str
  /-- `globToWordIds`, which may refuse a pattern -/
  globToWordIds : Λ → Str → Except Exc (List ℕ)
  /-- which words match a pattern -/
  Matches : Str → Str → Prop
  /-- a pattern gives the ids of the words that match -/
  mem_glob : ∀ lex pattern wids, globToWordIds lex pattern = .ok wids → ∀ w, w ∈ wids ↔
    ∃ v, ids.get lex v = some w ∧ Matches pattern v
  /-- the elements of a set -/
  iterSet : Finset ℕ → List ℕ
  /-- each of them -/
  mem_iterSet : ∀ s w, w ∈ iterSet s ↔ w ∈ s
  /-- once -/
  nodup_iterSet : ∀ s, (iterSet s).Nodup

namespace TextLexicon

variable {Λ : Type} (X : TextLexicon Λ)

/-- What the pipeline makes of texts. -/
def process (texts : List Str) : List Str := X.pipeline.foldl (fun last element => element last) texts

/-- The lexicon, when documents are indexed. -/
def lexicon : Lexicon Str Λ where
  empty := X.ids.empty
  sourceToWordIds lex text :=
    let (wids, lex) := X.ids.createAll lex (X.process [text])
    (.ok wids, lex)
  positive lex text wids h := by
    obtain rfl := Except.ok.inj h
    exact WordIds.createAll_pos lex _

/-- The lexicon, when it is asked. A word without an id has the id 0. -/
def queryLexicon : IncrementalLuceneIndex.QueryLexicon Λ where
  findall := X.findall
  lower := X.lower
  termToWordIds lex texts := (X.process texts).map fun v => (X.ids.get lex v).getD 0
  globToWordIds := X.globToWordIds
  iterSet := X.iterSet
  mem_iterSet := X.mem_iterSet

/-- The words that `_search_all` looks for. -/
def Asks (term v : Str) : Prop :=
  let tokens := (X.findall term).map X.lower
  v ∈ X.process (tokens.filter fun t => !IncrementalLuceneIndex.globCond t) ∨
    ∃ pattern ∈ tokens.filter IncrementalLuceneIndex.globCond, X.Matches pattern v

/-- It looks for one word, and for no pattern. -/
def AsksOne (term v : Str) : Prop :=
  let tokens := (X.findall term).map X.lower
  tokens.filter IncrementalLuceneIndex.globCond = [] ∧
    X.process (tokens.filter fun t => !IncrementalLuceneIndex.globCond t) = [v]

end TextLexicon

namespace IncrementalLuceneIndex

/-! ## The words of the documents

The calls of the index, seen from the word lists. A text is numbered before anything else is done
with it, so that the lexicon may know words that no document has. -/

section Words

variable {S γ Λ τ : Type} [Score S] {W : Widcode γ} {L : Lexicon τ Λ}

theorem addPostings_lexicon (docid : ℤ) (wids : List ℕ) (ix : IncrementalLuceneIndex S γ Λ) :
    (addPostings docid wids ix).2.lexicon = ix.lexicon := by
  rw [addPostings]
  by_cases hne : wids = []
  · rw [if_pos hne]
    rfl
  · rw [if_neg hne, Py.modify_bind_apply,
      Py.bind_of_ok (parallelTraversal_apply (dedup_ne_nil hne) _)]
    exact (getDoctrees_spec wids.dedup ix).2.2.2.2.2

/-- **What indexing does to the words** of the documents, also if it raises. -/
theorem indexDoc_words {ix : IncrementalLuceneIndex S γ Λ} {docid : ℤ} {text : τ} {wids : List ℕ}
    {lex : Λ} (hsrc : L.sourceToWordIds ix.lexicon text = (.ok wids, lex)) :
    (indexDoc W L true docid text ix).2.lexicon = lex ∧ ∀ d,
      words W (indexDoc W L true docid text ix).2 d = if docid = d then wids else words W ix d := by
  have hpos := L.positive ix.lexicon text wids (by rw [hsrc])
  have hrun : sourceToWordIds L text ix = (.ok wids, { ix with lexicon := lex }) := by
    rw [sourceToWordIds, hsrc]
  have hwords : ∀ ix' : IncrementalLuceneIndex S γ Λ,
      ix'.docwords = ix.docwords.insert docid (encodeWids W true wids) →
        ∀ d, words W ix' d = if docid = d then wids else words W ix d := by
    intro ix' hix' d
    rw [words_insert hix', encodeWids, if_pos rfl, W.decode_encode wids hpos]
  rw [indexDoc, Py.get_bind_apply]
  by_cases hmem : docid ∈ ix.docwords
  · obtain ⟨code, hcode⟩ := (BTree.mem_iff _).mp hmem
    rw [if_pos hmem, reindexDoc, Py.get_bind_apply, hcode, Py.ofOption_some, Py.pure_bind_apply,
      Py.bind_of_ok hrun]
    simp only [Py.modify_bind_apply]
    set all := (wids.dedup ++ (W.decode code).dedup).dedup with hall
    obtain ⟨-, -, -, hdoc, -, hlex⟩ := getDoctrees_spec (S := S) all { ix with lexicon := lex }
    by_cases hne : all = []
    · -- neither version has words
      have hnil : wids = [] ∧ W.decode code = [] := by simpa [hall] using hne
      rw [parallelTraversal, if_pos hne, Py.raise_bind_apply, hnil.1, hnil.2]
      refine ⟨hlex, fun d => ?_⟩
      have hsame : words W (getDoctrees all { ix with lexicon := lex }) d = words W ix d := by
        rw [words, words, hdoc]
      by_cases hd : docid = d
      · rw [if_pos hd]
        refine hsame.trans ?_
        rw [← hd, words_of_get hcode, hnil.2]
      · rw [if_neg hd]
        exact hsame
    · rw [Py.bind_of_ok (parallelTraversal_apply hne _)]
      simp only [Py.modify_bind_apply, Py.pure_apply]
      exact ⟨hlex, hwords _ (congrArg (fun t => t.insert docid (encodeWids W true wids)) hdoc)⟩
  · obtain ⟨ix₂, hadd, hdoc, -, -⟩ := addPostings_spec docid wids { ix with
      lexicon := lex
      docwords := ix.docwords.insert docid (encodeWids W true wids) }
    have hlex : ix₂.lexicon = lex := by
      have h := addPostings_lexicon docid wids { ix with
        lexicon := lex
        docwords := ix.docwords.insert docid (encodeWids W true wids) }
      rwa [hadd] at h
    rw [if_neg hmem, Py.bind_of_ok hrun, Py.modify_bind_apply, Py.bind_of_ok hadd,
      Py.modify_bind_apply, Py.pure_apply]
    exact ⟨hlex, hwords _ hdoc⟩

/-- **And what unindexing does.** -/
theorem unindexDoc_words {ix : IncrementalLuceneIndex S γ Λ} (h : Postings W ix) (docid : ℤ) :
    (unindexDoc W docid ix).2.lexicon = ix.lexicon ∧ ∀ d,
      words W (unindexDoc W docid ix).2 d = if docid = d then [] else words W ix d := by
  rcases hcode : ix.docwords[docid]? with _ | code
  · have hsame : (unindexDoc W docid ix).2 = ix := by
      rw [unindexDoc, Py.get_bind_apply, hcode]
      rfl
    rw [hsame]
    refine ⟨rfl, fun d => ?_⟩
    by_cases hd : docid = d
    · rw [if_pos hd, ← hd, words, hcode]
      rfl
    · rw [if_neg hd]
  · have hold : words W ix docid = W.decode code := words_of_get hcode
    obtain ⟨-, -, -, hdoc, -, hlex⟩ := getDoctrees_spec (W.decode code).dedup ix
    by_cases hne : W.decode code = []
    · -- a document without words raises before anything is changed
      have hnil : (W.decode code).dedup = [] := by rw [hne, List.dedup_nil]
      have hsame : (unindexDoc W docid ix).2 = getDoctrees (W.decode code).dedup ix := by
        rw [unindexDoc, Py.get_bind_apply, hcode]
        simp only [Py.modify_bind_apply]
        rw [parallelTraversal, if_pos hnil, Py.raise_bind_apply]
      rw [hsame]
      refine ⟨hlex, fun d => ?_⟩
      have hwords : words W (getDoctrees (W.decode code).dedup ix) d = words W ix d := by
        rw [words, words, hdoc]
      by_cases hd : docid = d
      · rw [if_pos hd, hwords, ← hd, hold, hne]
      · rw [if_neg hd, hwords]
    · have hmem : ∀ w ∈ W.decode code,
          widscore (W.decode code) docid w ∈ (record ix.wordinfo w).tree := by
        rw [← hold]
        exact fun w hw => h.mem_tree hw
      obtain ⟨wordinfo, hrun, -⟩ := unindexDoc_apply hcode rfl hne hmem
      rw [hrun]
      exact ⟨hlex, words_erase rfl⟩

end Words

/-! ## Texts

`Shelved` is the simulation: a history of calls on the index, and the same history on a shelf of
texts. The ids that a document has are those of the words of its text. What a search looks for is
given in ids, too, and turned back into words. -/

section Texts

open RankedUnion

variable {K γ Λ : Type} [RealScore K] [IsStrictOrderedRing K] {W : Widcode γ} (X : TextLexicon Λ)

/-- What a call does to the words that documents have. -/
def shelve (texts : ℤ → List Str) : Call Str → ℤ → List Str
  | .indexDoc docid text, d => if docid = d then X.process [text] else texts d
  | .unindexDoc docid, d => if docid = d then [] else texts d

/-- **The words of the documents** after a history of calls: those of the text that was last
indexed, if the document has not been unindexed since. -/
def shelf (calls : List (Call Str)) : ℤ → List Str := calls.foldl (shelve X) fun _ => []

variable {X}

/-- The index has the ids of the words of the documents. -/
structure Shelved (W : Widcode γ) (X : TextLexicon Λ) (ix : IncrementalLuceneIndex K γ Λ)
    (texts : ℤ → List Str) : Prop where
  /-- its trees are those of its word lists -/
  postings : Postings W ix
  /-- words have ids of their own -/
  ids : X.ids.Wf ix.lexicon
  /-- the word lists are those of the documents -/
  words_eq : ∀ d, (texts d).map (X.ids.get ix.lexicon) = (words W ix d).map some

omit [IsStrictOrderedRing K] in
theorem shelved_init :
    Shelved W X (init X.lexicon : IncrementalLuceneIndex K γ Λ) fun _ => [] := by
  refine ⟨postings_init, WordIds.wf_empty, fun d => ?_⟩
  rw [words_of_not_mem]
  · rfl
  · simp [init]

omit [IsStrictOrderedRing K] in
/-- **One call** changes both in the same way. -/
theorem Shelved.step {ix : IncrementalLuceneIndex K γ Λ} {texts : ℤ → List Str}
    (h : Shelved W X ix texts) (call : Call Str) :
    Shelved W X (machine W X.lexicon true ix call).2 (shelve X texts call) := by
  have hpostings := h.postings.step (L := X.lexicon) call
  cases call with
  | indexDoc docid text =>
    obtain ⟨hwf, hget, hmono⟩ := h.ids.createAll (X.process [text])
    obtain ⟨hlex, hwords⟩ := @indexDoc_words K γ Λ Str _ W X.lexicon ix docid text _ _ rfl
    have hstate : (machine W X.lexicon true ix (.indexDoc docid text)).2 =
        (indexDoc W X.lexicon true docid text ix).2 := rfl
    rw [hstate] at hpostings ⊢
    refine ⟨hpostings, by rw [hlex]; exact hwf, fun d => ?_⟩
    rw [hlex, hwords, shelve]
    by_cases hd : docid = d
    · rw [if_pos hd, if_pos hd]
      exact hget
    · rw [if_neg hd, if_neg hd, ← h.words_eq]
      refine List.map_congr_left fun v hv => ?_
      -- the words of other documents keep their ids
      have hid : X.ids.get ix.lexicon v ∈ (words W ix d).map some :=
        h.words_eq d ▸ List.mem_map_of_mem hv
      obtain ⟨w, -, hw⟩ := List.mem_map.mp hid
      rw [← hw]
      exact hmono v w hw.symm
  | unindexDoc docid =>
    obtain ⟨hlex, hwords⟩ := unindexDoc_words h.postings docid
    have hstate : (machine W X.lexicon true ix (.unindexDoc docid)).2 =
        (unindexDoc W docid ix).2 := rfl
    rw [hstate] at hpostings ⊢
    refine ⟨hpostings, by rw [hlex]; exact h.ids, fun d => ?_⟩
    rw [hlex, hwords, shelve]
    by_cases hd : docid = d
    · rw [if_pos hd, if_pos hd]
      rfl
    · rw [if_neg hd, if_neg hd]
      exact h.words_eq d

omit [IsStrictOrderedRing K] in
/-- So does every history. -/
theorem shelved_final (calls : List (Call Str)) : Shelved W X
    ((machine W X.lexicon true).final (init X.lexicon : IncrementalLuceneIndex K γ Λ) calls)
    (shelf X calls) := by
  have hrun : ∀ (ix : IncrementalLuceneIndex K γ Λ) texts, Shelved W X ix texts →
      Shelved W X ((machine W X.lexicon true).final ix calls) (calls.foldl (shelve X) texts) := by
    induction calls with
    | nil => exact fun ix texts h => h
    | cons call calls ih => exact fun ix texts h => ih _ _ (h.step call)
  exact hrun _ _ shelved_init

/-! ## From ids back to words

The ids of a document and those of a query are of words of the same lexicon. A word that was asked
for and has an id is found under it, and one without an id is in no document. -/

/-- What `mapM` gives comes from the elements. -/
theorem mapM_mem {α β ε : Type} {f : α → Except ε β} {l : List α} {ys : List β}
    (h : l.mapM f = .ok ys) {y : β} (hy : y ∈ ys) : ∃ x ∈ l, f x = .ok y := by
  induction l generalizing ys with
  | nil =>
    obtain rfl := Except.ok.inj h
    exact absurd hy List.not_mem_nil
  | cons x l ih =>
    rw [List.mapM_cons] at h
    rcases hx : f x with e | z
    · rw [hx] at h
      cases h
    · rcases hl : l.mapM f with e | zs
      · rw [hx, hl] at h
        cases h
      · rw [hx, hl] at h
        obtain rfl := Except.ok.inj h
        rcases List.mem_cons.mp hy with rfl | hy
        · exact ⟨x, List.mem_cons_self, hx⟩
        · obtain ⟨x', hx', hf⟩ := ih hl hy
          exact ⟨x', List.mem_cons_of_mem _ hx', hf⟩

section Answers

variable {G : Logarithm K} {ix : IncrementalLuceneIndex K γ Λ} {texts : ℤ → List Str}

omit [IsStrictOrderedRing K] in
/-- A document has a word if the index has the id for it. -/
theorem Shelved.mem_words (h : Shelved W X ix texts) {d : ℤ} {v : Str} {w : ℕ}
    (hv : X.ids.get ix.lexicon v = some w) : w ∈ words W ix d ↔ v ∈ texts d := by
  have hmem : some w ∈ (words W ix d).map some ↔ w ∈ words W ix d := by simp
  rw [← hmem, ← h.words_eq, List.mem_map]
  refine ⟨?_, fun hd => ⟨v, hd, hv⟩⟩
  rintro ⟨u, hu, hw⟩
  exact h.ids.inj u v w hw hv ▸ hu

omit [IsStrictOrderedRing K] in
/-- The words of documents have ids. -/
theorem Shelved.get_of_mem (h : Shelved W X ix texts) {d : ℤ} {v : Str} (hv : v ∈ texts d) :
    ∃ w, X.ids.get ix.lexicon v = some w ∧ w ∈ words W ix d := by
  have hid : X.ids.get ix.lexicon v ∈ (words W ix d).map some :=
    h.words_eq d ▸ List.mem_map_of_mem hv
  obtain ⟨w, hw, heq⟩ := List.mem_map.mp hid
  exact ⟨w, heq.symm, hw⟩

omit [IsStrictOrderedRing K] in
/-- And ids that documents have are those of words. -/
theorem Shelved.word_of_mem (h : Shelved W X ix texts) {d : ℤ} {w : ℕ} (hw : w ∈ words W ix d) :
    ∃ v ∈ texts d, X.ids.get ix.lexicon v = some w := by
  have hid : some w ∈ (texts d).map (X.ids.get ix.lexicon) :=
    h.words_eq d ▸ List.mem_map_of_mem hw
  obtain ⟨v, hv, heq⟩ := List.mem_map.mp hid
  exact ⟨v, hv, heq⟩

/-- **What is found is wanted**: a document that is yielded for the ids of wanted words has one
of these words. -/
theorem Shelved.answer_sound (h : Shelved W X ix texts) (hG : 0 < 1 + G.log (1 / 2))
    {wids : List ℕ} {wanted : Str → Prop}
    (hwids : ∀ v w, X.ids.get ix.lexicon v = some w → w ∈ wids → wanted v)
    {out : List (ℤ × K)} {e : End} (hrun : ix.answer G wids = .ok (some (out, e))) :
    (out.map Prod.fst).Nodup ∧ ∀ d ∈ out.map Prod.fst, ∃ v ∈ texts d, wanted v := by
  have hword : ∀ d w, w ∈ wids → w ∈ words W ix d → ∃ v ∈ texts d, wanted v := by
    intro d w hw hd
    obtain ⟨v, hv, hid⟩ := h.word_of_mem hd
    exact ⟨v, hv, hwids v w hid hw⟩
  have hanswer := h.postings.answer hG wids
  have hsub : ∀ w ∈ ix.removeOovWids wids, w ∈ wids := fun w hw => List.mem_of_mem_filter hw
  rw [hrun] at hanswer
  generalize ix.removeOovWids wids = known at hanswer hsub
  cases hanswer with
  | nothing => exact ⟨List.nodup_nil, fun d hd => absurd hd List.not_mem_nil⟩
  | single hdocs hnodup hmem hscore hsorted =>
    exact ⟨hnodup, fun d hd => hword d _ (hsub _ (List.mem_singleton_self _)) ((hmem d).mp hd)⟩
  | lost => exact ⟨List.nodup_nil, fun d hd => absurd hd List.not_mem_nil⟩
  | several hlen hall hend hnodup hsound =>
    refine ⟨hnodup, fun d hd => ?_⟩
    obtain ⟨y, hy, rfl⟩ := List.mem_map.mp hd
    obtain ⟨w, hw, hd⟩ := (hsound y hy).1
    exact hword y.1 w (hsub w hw) hd

/-- **One word**, that some document has: all the documents that have it. -/
theorem Shelved.answer_word (h : Shelved W X ix texts) (hG : 0 < 1 + G.log (1 / 2)) {v : Str}
    {w : ℕ} (hv : X.ids.get ix.lexicon v = some w) (hdoc : ∃ d, v ∈ texts d) :
    ∃ out, ix.answer G [w] = .ok (some (out, .finished)) ∧ (out.map Prod.fst).Nodup ∧
      ∀ d, d ∈ out.map Prod.fst ↔ v ∈ texts d := by
  obtain ⟨d, hd⟩ := hdoc
  have hw : w ∈ words W ix d := (h.mem_words hv).mpr hd
  have hknown : ix.removeOovWids [w] = [w] := by
    rw [removeOovWids, List.filter_eq_self]
    intro x hx
    rw [List.mem_singleton.mp hx]
    exact decide_eq_true (h.postings.mem_wordinfo hw)
  have hdocs : ix.docwords.size ≠ 0 := by
    intro hsize
    have hnot : d ∉ ix.docwords := by
      rw [Std.ExtTreeMap.eq_empty_iff_size_eq_zero.mpr hsize]
      exact Std.ExtTreeMap.not_mem_empty
    rw [words_of_not_mem hnot] at hw
    exact absurd hw List.not_mem_nil
  have hanswer := h.postings.answer hG [w]
  rw [hknown] at hanswer
  generalize hrun : ix.answer G [w] = result at hanswer
  cases hanswer with
  | noDocuments hne hsize => exact absurd hsize hdocs
  | single hdocs hnodup hmem hscore hsorted =>
    exact ⟨_, rfl, hnodup, fun d => (hmem d).trans (h.mem_words hv)⟩
  | lost hdocs hlen => simp at hlen
  | several hlen => simp at hlen

/-! ## What searches find

Soundness and completeness of the three searches, in the words of the texts. -/

/-- **The documents that searches find**, where every document has some words. -/
structure FindsWords (G : Logarithm K) (X : TextLexicon Λ) (ix : IncrementalLuceneIndex K γ Λ)
    (texts : ℤ → List Str) : Prop where
  /-- `search` finds documents with a word of the term -/
  search : ∀ term out e, ix.search G X.queryLexicon term = .ok (some (out, e)) →
    (out.map Prod.fst).Nodup ∧ ∀ d ∈ out.map Prod.fst, ∃ v ∈ texts d, v ∈ X.process [term]
  /-- `search_glob` finds documents with a word that matches the pattern -/
  searchGlob : ∀ pattern out e, ix.searchGlob G X.queryLexicon pattern = .ok (some (out, e)) →
    (out.map Prod.fst).Nodup ∧ ∀ d ∈ out.map Prod.fst, ∃ v ∈ texts d, X.Matches (X.lower pattern) v
  /-- `_search_all` finds documents with a word that is asked for, in either way -/
  searchAll : ∀ term out e, ix.searchAll G X.queryLexicon term = .ok (some (out, e)) →
    out.Nodup ∧ ∀ d ∈ out, ∃ v ∈ texts d, X.Asks term v
  /-- for one word that documents have, `search` finds all of these -/
  searchOne : ∀ term v, X.process [term] = [v] → (∃ d, v ∈ texts d) →
    ∃ out, ix.search G X.queryLexicon term = .ok (some (out, .finished)) ∧
      (out.map Prod.fst).Nodup ∧ ∀ d, d ∈ out.map Prod.fst ↔ v ∈ texts d
  /-- and so does `_search_all` -/
  searchAllOne : ∀ term v, X.AsksOne term v → (∃ d, v ∈ texts d) →
    ∃ out, ix.searchAll G X.queryLexicon term = .ok (some (out, .finished)) ∧
      out.Nodup ∧ ∀ d, d ∈ out ↔ v ∈ texts d

omit [IsStrictOrderedRing K] in
/-- What the ids of words stand for. -/
theorem Shelved.of_mem_ids (h : Shelved W X ix texts) {vs : List Str} {v : Str} {w : ℕ}
    (hv : X.ids.get ix.lexicon v = some w)
    (hw : w ∈ vs.map fun v => (X.ids.get ix.lexicon v).getD 0) : v ∈ vs := by
  obtain ⟨u, hu, heq⟩ := List.mem_map.mp hw
  rcases hid : X.ids.get ix.lexicon u with _ | w'
  · -- a word without an id has 0, which no word has
    rw [hid, Option.getD_none] at heq
    exact absurd (h.ids.pos v w hv) (by omega)
  · rw [hid, Option.getD_some] at heq
    exact h.ids.inj u v w (heq ▸ hid) hv ▸ hu

omit [IsStrictOrderedRing K] in
/-- What `_search_all` looks for. -/
theorem Shelved.asks_of_mem (h : Shelved W X ix texts) {term v : Str} {w : ℕ} {wids : List ℕ}
    (hwids : ix.queryWids X.queryLexicon term = .ok wids)
    (hv : X.ids.get ix.lexicon v = some w) (hw : w ∈ wids) : X.Asks term v := by
  rw [queryWids] at hwids
  rcases hglobs : (((X.findall term).map X.lower).filter globCond).mapM
    (X.globToWordIds ix.lexicon) with e | globs
  · have hrun : (.error e : Except Exc (List ℕ)) = .ok wids := by
      rw [← hwids]
      simp only [TextLexicon.queryLexicon, hglobs]
      rfl
    cases hrun
  · have hrun : X.iterSet ((X.process (((X.findall term).map X.lower).filter fun t => !globCond t)).map
        (fun v => (X.ids.get ix.lexicon v).getD 0) ++ globs.flatten).toFinset = wids := by
      simp only [TextLexicon.queryLexicon, hglobs] at hwids
      exact Except.ok.inj hwids
    rw [← hrun, X.mem_iterSet, List.mem_toFinset, List.mem_append] at hw
    rcases hw with hw | hw
    · exact .inl (h.of_mem_ids hv hw)
    · obtain ⟨ws, hws, hw⟩ := List.mem_flatten.mp hw
      obtain ⟨pattern, hpattern, hglob⟩ := mapM_mem hglobs hws
      obtain ⟨u, hu, hmatches⟩ := (X.mem_glob _ _ _ hglob w).mp hw
      exact .inr ⟨pattern, hpattern, h.ids.inj u v w hu hv ▸ hmatches⟩

/-- An index that has the words of the documents finds them. -/
theorem Shelved.findsWords (h : Shelved W X ix texts) (hG : 0 < 1 + G.log (1 / 2)) :
    FindsWords G X ix texts where
  search term out e hrun := h.answer_sound hG (fun v w hv hw => h.of_mem_ids hv hw) hrun
  searchGlob pattern out e hrun := by
    rw [searchGlob] at hrun
    rcases hglob : X.queryLexicon.globToWordIds ix.lexicon (X.queryLexicon.lower pattern) with e' | wids
    · rw [hglob] at hrun
      cases hrun
    · rw [hglob] at hrun
      refine h.answer_sound hG (fun v w hv hw => ?_) hrun
      obtain ⟨u, hu, hmatches⟩ := (X.mem_glob _ _ _ hglob w).mp hw
      exact h.ids.inj u v w hu hv ▸ hmatches
  searchAll term out e hrun := by
    rw [searchAll] at hrun
    rcases hwids : ix.queryWids X.queryLexicon term with e' | wids
    · rw [hwids] at hrun
      cases hrun
    · rcases hanswer : ix.answer G wids with e' | _ | ⟨ys, e''⟩
      · simp only [hwids, bind, Except.bind, hanswer] at hrun
        cases hrun
      · simp only [hwids, bind, Except.bind, hanswer] at hrun
        cases hrun
      · simp only [hwids, bind, Except.bind, hanswer] at hrun
        obtain ⟨rfl, rfl⟩ := Prod.mk.inj (Option.some.inj (Except.ok.inj hrun))
        exact h.answer_sound hG (fun v w hv hw => h.asks_of_mem hwids hv hw) hanswer
  searchOne term v hterm hdoc := by
    obtain ⟨d, hd⟩ := hdoc
    obtain ⟨w, hv, -⟩ := h.get_of_mem hd
    have hids : X.queryLexicon.termToWordIds ix.lexicon [term] = [w] := by
      simp only [TextLexicon.queryLexicon, hterm, List.map_cons, List.map_nil, hv, Option.getD_some]
    rw [search, hids]
    exact h.answer_word hG hv ⟨d, hd⟩
  searchAllOne term v hone hdoc := by
    obtain ⟨hnone, hwords⟩ := hone
    obtain ⟨d, hd⟩ := hdoc
    obtain ⟨w, hv, -⟩ := h.get_of_mem hd
    have hset : X.iterSet [w].toFinset = [w] := by
      refine List.perm_singleton.mp ((List.perm_ext_iff_of_nodup (X.nodup_iterSet _)
        (List.nodup_singleton w)).mpr fun x => ?_)
      rw [X.mem_iterSet, List.mem_toFinset]
    have hwids : ix.queryWids X.queryLexicon term = .ok [w] := by
      simp only [queryWids, TextLexicon.queryLexicon, hnone, hwords, List.mapM_nil, List.map_cons,
        List.map_nil, hv, Option.getD_some]
      exact congrArg Except.ok hset
    obtain ⟨out, hrun, hnodup, hmem⟩ := h.answer_word hG hv ⟨d, hd⟩
    refine ⟨out.map Prod.fst, ?_, hnodup, hmem⟩
    simp only [searchAll, hwids, bind, Except.bind, hrun]
    rfl

end Answers

/-- **Searches find words**: after every history of calls on a new index that keeps phrases, what
each of the three searches yields are documents, each once, whose text as last indexed has a word
that is asked for; and a search for one word that documents have yields all of them. -/
theorem found_in_texts (G : Logarithm K) (W : Widcode γ) (X : TextLexicon Λ)
    (hG : 0 < 1 + G.log (1 / 2)) (calls : List (Call Str)) : FindsWords G X
      ((machine W X.lexicon true).final (init X.lexicon : IncrementalLuceneIndex K γ Λ) calls)
      (shelf X calls) :=
  (shelved_final calls).findsWords hG

end Texts

/-! ## A lexicon to run examples on -/

/-- Words numbered as they come. -/
def listWords : WordIds (List Str) where
  empty := []
  get lex v := if v ∈ lex then some (lex.idxOf v + 1) else none
  create lex v := if v ∈ lex then (lex.idxOf v + 1, lex) else (lex.length + 1, lex ++ [v])
  get_empty v := by simp
  positive lex v := by split <;> exact Nat.succ_pos _
  keeps lex v w h := by
    by_cases hv : v ∈ lex
    · rw [if_pos hv] at h
      rw [if_pos hv, Option.some.inj h]
    · rw [if_neg hv] at h
      cases h
  creates lex v h u := by
    have hv : v ∉ lex := fun hv => by simp [hv] at h
    simp only [if_neg hv, List.mem_append, List.mem_singleton]
    by_cases hu : u = v
    · subst hu
      simp [hv, List.idxOf_append_of_notMem]
    · by_cases hmem : u ∈ lex
      · simp [hu, hmem, List.idxOf_append_of_mem]
      · simp [hu, hmem]
  fresh lex v u h hu := by
    have hv : v ∉ lex := fun hv => by simp [hv] at h
    by_cases hmem : u ∈ lex
    · have hlt := List.idxOf_lt_length_of_mem hmem
      simp only [if_pos hmem, if_neg hv, Option.some.injEq] at hu
      omega
    · simp [hmem] at hu

/-- Words between blanks, and patterns that end with a star. -/
def blankLexicon : TextLexicon (List Str) where
  ids := listWords
  pipeline := [fun texts => texts.flatMap (List.splitOn ' ')]
  findall := List.splitOn ' '
  lower text := text.map Char.toLower
  globToWordIds lex pattern := .ok ((lex.filter fun v =>
    (pattern.takeWhile (· ≠ '*')).isPrefixOf v).map fun v => lex.idxOf v + 1)
  Matches pattern v := (pattern.takeWhile (· ≠ '*')).isPrefixOf v = true
  mem_glob lex pattern wids h w := by
    obtain rfl := Except.ok.inj h
    simp only [List.mem_map, List.mem_filter, listWords]
    refine ⟨?_, ?_⟩
    · rintro ⟨v, ⟨hv, hmatches⟩, rfl⟩
      exact ⟨v, if_pos hv, hmatches⟩
    · rintro ⟨v, hv, hmatches⟩
      by_cases hmem : v ∈ lex
      · rw [if_pos hmem] at hv
        exact ⟨v, ⟨hmem, hmatches⟩, Option.some.inj hv⟩
      · rw [if_neg hmem] at hv
        cases hv
  iterSet := plainQueryLexicon.iterSet
  mem_iterSet := plainQueryLexicon.mem_iterSet
  nodup_iterSet s := Finset.sort_nodup s _

/-- A document that is indexed again is found by its new text. -/
theorem found_in_texts_example : FindsWords realLogarithm blankLexicon
    ((machine plainWidcode blankLexicon.lexicon true).final
      (init blankLexicon.lexicon : IncrementalLuceneIndex ℝ (List ℕ) (List Str))
      [.indexDoc 1 "old bird".toList, .indexDoc 2 "bird song".toList, .indexDoc 1 "new bird".toList])
    (shelf blankLexicon
      [.indexDoc 1 "old bird".toList, .indexDoc 2 "bird song".toList, .indexDoc 1 "new bird".toList]) :=
  found_in_texts realLogarithm plainWidcode blankLexicon
    (by
      change (0 : ℝ) < 1 + Real.log (1 / 2)
      rw [one_div, Real.log_inv]
      linarith [Real.log_two_lt_d9])
    [.indexDoc 1 "old bird".toList, .indexDoc 2 "bird song".toList, .indexDoc 1 "new bird".toList]

/-- Its old text is forgotten. -/
example : shelf blankLexicon
    [.indexDoc 1 "old bird".toList, .indexDoc 2 "bird song".toList, .indexDoc 1 "new bird".toList] 1 =
      ["new".toList, "bird".toList] := by decide +kernel

end IncrementalLuceneIndex

end Zerodb
