import Zerodb.Run
import Zerodb.Py

/-!
# TextLucene: the full-text index

For every word id the index keeps a tree of pairs `(-score, docid)` and a length; for
every document it keeps the encoded list of its word ids, from which the scores to be
removed are computed again when the document is reindexed or unindexed.

The arithmetic of scores, the encoding of word lists and the lexicon are parameters.
`Postings` says that the trees are exactly what the stored word lists demand;
`postings_states` that they are in every state of every history.
-/

namespace Zerodb

/-! ## What the index rests on

Of scores it is needed only that they are ordered: what matters to the trees is that the same
computation gives the same score twice. A code of a word list is decoded to that list, and a
lexicon may refuse a text. -/

/-- Ordered values with the operations scores are computed with. -/
class Score (S : Type) extends LinearOrder S, Neg S, Div S where
  /-- `math.sqrt` of a count -/
  sqrt : ℕ → S

/-- `zope.index.text.widcode`: word lists to codes of type `γ` and back. -/
structure Widcode (γ : Type) where
  /-- `widcode.encode` -/
  encode : List ℕ → γ
  /-- `widcode.decode` -/
  decode : γ → List ℕ
  /-- lists of positive ids are decoded as they were encoded -/
  decode_encode : ∀ wids, (∀ w ∈ wids, 0 < w) → decode (encode wids) = wids

/-- A lexicon on texts of type `τ` with states of type `Λ`. -/
structure Lexicon (τ Λ : Type) where
  /-- the lexicon without words -/
  empty : Λ
  /-- `sourceToWordIds`; new words get new ids -/
  sourceToWordIds : Λ → τ → Except Exc (List ℕ) × Λ
  /-- word ids are positive -/
  positive : ∀ lex text wids, (sourceToWordIds lex text).1 = .ok wids → ∀ w ∈ wids, 0 < w

/-! ## The index

The two methods, cut at their loops. What a method has changed when it raises stays changed; in
`unindex_doc` this can be the length of a record whose pair is not there. -/

/-- A pair `(-score, docid)`. -/
@[ext] structure Posting (S : Type) where
  /-- the score, negated -/
  score : S
  /-- the document -/
  docid : ℤ
  deriving DecidableEq

namespace Posting

variable {S : Type} [LinearOrder S]

/-- Pairs are compared as tuples. -/
instance : Ord (Posting S) := ⟨compareLex (compareOn score) (compareOn docid)⟩

instance : Std.TransOrd (Posting S) :=
  inferInstanceAs (Std.TransCmp (compareLex (compareOn score) (compareOn docid)))

instance : Std.LawfulEqOrd (Posting S) where
  eq_of_compare h := by
    obtain ⟨hscore, hdocid⟩ := compareLex_eq_eq.mp h
    exact Posting.ext (Std.LawfulEqOrd.eq_of_compare hscore)
      (Std.LawfulEqOrd.eq_of_compare hdocid)

end Posting

instance Posting.transOrd {S : Type} [Score S] : Std.TransOrd (Posting S) := inferInstance

/-- A record of `_wordinfo`. -/
structure WordInfo (S : Type) [Score S] where
  /-- `TreeSet((-score, docid))` -/
  tree : TreeSet (Posting S)
  /-- its `Length` -/
  length : ℤ

/-- `IncrementalLuceneIndex`. -/
structure IncrementalLuceneIndex (S γ Λ : Type) [Score S] where
  /-- `_wordinfo` -/
  wordinfo : BTree ℕ (WordInfo S)
  /-- `_docwords` -/
  docwords : BTree ℤ γ
  /-- `wordCount` -/
  wordCount : ℤ
  /-- `documentCount` -/
  documentCount : ℤ
  /-- `_lexicon` -/
  lexicon : Λ

namespace WordInfo

variable {S : Type} [Score S]

/-- A record without documents. -/
def empty : WordInfo S := ⟨∅, 0⟩

/-- `length.change(delta)`. -/
def change (delta : ℤ) (r : WordInfo S) : WordInfo S := { r with length := r.length + delta }

/-- `tree.add(pair)`. -/
def add (pair : Posting S) (r : WordInfo S) : WordInfo S := { r with tree := r.tree.insert pair }

/-- `tree.remove(pair)`, where a missing pair does not matter. -/
def discard (pair : Posting S) (r : WordInfo S) : WordInfo S := { r with tree := r.tree.erase pair }

/-- Tree and length are independent. -/
theorem change_add (delta : ℤ) (pair : Posting S) (r : WordInfo S) :
    (r.change delta).add pair = (r.add pair).change delta := rfl

end WordInfo

namespace IncrementalLuceneIndex

variable {S γ Λ τ : Type} [Score S]

/-- The score of a word in a document, as the pair kept in the word's tree; `f` is how
often the word occurs and `n` how many distinct words there are. -/
def widscore (wids : List ℕ) (docid : ℤ) (w : ℕ) : Posting S :=
  ⟨-Score.sqrt (wids.count w) / Score.sqrt wids.dedup.length, docid⟩

/-- Update the records of some words. -/
def forEach (wids : List ℕ) (f : ℕ → WordInfo S → WordInfo S) (wordinfo : BTree ℕ (WordInfo S)) :
    BTree ℕ (WordInfo S) :=
  wids.foldl (fun wordinfo w => wordinfo.modify w (f w)) wordinfo

/-- The loop of `_get_doctrees`: words without a record get one. -/
def getDoctrees (wids : List ℕ) (ix : IncrementalLuceneIndex S γ Λ) : IncrementalLuceneIndex S γ Λ :=
  wids.foldl (fun ix w =>
    if w ∈ ix.wordinfo then ix
    else { ix with
      wordinfo := ix.wordinfo.insert w .empty
      wordCount := ix.wordCount + 1 }) ix

/-- `parallel_traversal(*zip(*pairs))` fills the cache; without pairs it lacks its
arguments. -/
def parallelTraversal (wids : List ℕ) : Py (IncrementalLuceneIndex S γ Λ) Unit :=
  if wids = [] then Py.raise .typeError else pure ()

variable (W : Widcode γ) (L : Lexicon τ Λ) (keepPhrases : Bool)

/-- `clear()`, with a new lexicon. -/
def init : IncrementalLuceneIndex S γ Λ := ⟨∅, ∅, 0, 0, L.empty⟩

/-- `self._lexicon.sourceToWordIds(text)`. -/
def sourceToWordIds (text : τ) : Py (IncrementalLuceneIndex S γ Λ) (List ℕ) := fun ix =>
  let (result, lexicon) := L.sourceToWordIds ix.lexicon text
  (result, { ix with lexicon := lexicon })

/-- `PersistentWid.encode_wid(wids if self.keep_phrases else widset)`. -/
def encodeWids (wids : List ℕ) : γ := W.encode (if keepPhrases then wids else wids.dedup)

/-- The part of `index_doc` on the trees, if the document has words. -/
def addPostings (docid : ℤ) (wids : List ℕ) : Py (IncrementalLuceneIndex S γ Λ) Unit :=
  if wids = [] then pure ()
  else do
    Py.modify (getDoctrees wids.dedup)
    parallelTraversal wids.dedup
    Py.modify fun ix => { ix with
      wordinfo :=
        forEach wids.dedup (fun w r => (r.add (widscore wids docid w)).change 1) ix.wordinfo }

/-- `_reindex_doc`. -/
def reindexDoc (docid : ℤ) (text : τ) : Py (IncrementalLuceneIndex S γ Λ) ℕ := do
  let ix ← Py.get
  let code ← Py.ofOption .keyError ix.docwords[docid]?
  let oldWids := W.decode code
  let newWids ← sourceToWordIds L text
  let oldSet := oldWids.dedup
  let newSet := newWids.dedup
  let all := (newSet ++ oldSet).dedup
  Py.modify (getDoctrees all)
  Py.modify fun ix => { ix with
    wordinfo := forEach (oldSet.filter (· ∉ newSet)) (fun _ r => r.change (-1)) ix.wordinfo }
  Py.modify fun ix => { ix with
    wordinfo := forEach (newSet.filter (· ∉ oldSet)) (fun _ r => r.change 1) ix.wordinfo }
  parallelTraversal all
  Py.modify fun ix => { ix with
    wordinfo := forEach oldSet (fun w r => r.discard (widscore oldWids docid w)) ix.wordinfo }
  Py.modify fun ix => { ix with
    wordinfo := forEach newSet (fun w r => r.add (widscore newWids docid w)) ix.wordinfo
    docwords := ix.docwords.insert docid (encodeWids W keepPhrases newWids) }
  return newWids.length

/-- `index_doc`. -/
def indexDoc (docid : ℤ) (text : τ) : Py (IncrementalLuceneIndex S γ Λ) ℕ := do
  let ix ← Py.get
  if docid ∈ ix.docwords then reindexDoc W L keepPhrases docid text
  else
    let wids ← sourceToWordIds L text
    Py.modify fun ix => { ix with
      docwords := ix.docwords.insert docid (encodeWids W keepPhrases wids) }
    addPostings docid wids
    Py.modify fun ix => { ix with documentCount := ix.documentCount + 1 }
    return wids.length

/-- The loop of `unindex_doc`: the record of a word without documents is deleted. -/
def removePostings (docid : ℤ) (wids : List ℕ) : List ℕ → Py (IncrementalLuceneIndex S γ Λ) Unit
  | [] => pure ()
  | w :: ws => do
    let ix ← Py.get
    let r ← Py.ofOption .keyError ix.wordinfo[w]?
    let pair := widscore wids docid w
    let r' := (r.change (-1)).discard pair
    if pair ∈ r.tree then
      Py.modify fun ix => { ix with
        wordinfo := if r'.length = 0 then ix.wordinfo.erase w else ix.wordinfo.insert w r' }
      removePostings docid wids ws
    else
      Py.modify fun ix => { ix with wordinfo := ix.wordinfo.insert w (r.change (-1)) }
      Py.raise .keyError

/-- `unindex_doc`. -/
def unindexDoc (docid : ℤ) : Py (IncrementalLuceneIndex S γ Λ) Unit := do
  let ix ← Py.get
  match ix.docwords[docid]? with
  | none => pure ()
  | some code =>
    let wids := W.decode code
    Py.modify (getDoctrees wids.dedup)
    parallelTraversal wids.dedup
    removePostings docid wids wids.dedup
    Py.modify fun ix => { ix with
      docwords := ix.docwords.erase docid
      documentCount := ix.documentCount - 1 }

/-! ## Records

The loops run over the distinct words of a document, and change one record for each of them.
`record` reads a word without a record as one with an empty tree, so that the loops can be
described word by word, without asking which records exist. -/

/-- The record of a word; a word without one has an empty tree of length zero. -/
def record (wordinfo : BTree ℕ (WordInfo S)) (w : ℕ) : WordInfo S := wordinfo[w]?.getD .empty

theorem record_insert (wordinfo : BTree ℕ (WordInfo S)) (w w' : ℕ) (r : WordInfo S) :
    record (wordinfo.insert w r) w' = if w = w' then r else record wordinfo w' := by
  rw [record, BTree.get_insert]
  split <;> rfl

/-- A loop over distinct words updates each record once. -/
theorem getElem?_forEach {wids : List ℕ} (hnodup : wids.Nodup) (f : ℕ → WordInfo S → WordInfo S)
    (wordinfo : BTree ℕ (WordInfo S)) (w : ℕ) :
    (forEach wids f wordinfo)[w]? = if w ∈ wids then wordinfo[w]?.map (f w) else wordinfo[w]? := by
  induction wids generalizing wordinfo with
  | nil => rfl
  | cons x wids ih =>
    obtain ⟨hx, hnodup⟩ := List.nodup_cons.mp hnodup
    have hstep : (wordinfo.modify x (f x))[w]? =
        if x = w then wordinfo[x]?.map (f x) else wordinfo[w]? := by
      simp only [Std.ExtTreeMap.getElem?_modify, Std.compare_eq_iff_eq]
    rw [forEach, List.foldl_cons, ← forEach, ih hnodup, hstep]
    by_cases hw : x = w
    · subst hw
      rw [if_neg hx, if_pos rfl, if_pos List.mem_cons_self]
    · have hmem : w ∈ x :: wids ↔ w ∈ wids := by simp [Ne.symm hw]
      simp only [if_neg hw, hmem]

/-- The words of the loop have records. -/
def HasRecords (wids : List ℕ) (wordinfo : BTree ℕ (WordInfo S)) : Prop :=
  ∀ w ∈ wids, w ∈ wordinfo

theorem record_forEach {wids : List ℕ} (hnodup : wids.Nodup) {wordinfo : BTree ℕ (WordInfo S)}
    (hrec : HasRecords wids wordinfo) (f : ℕ → WordInfo S → WordInfo S) (w : ℕ) :
    record (forEach wids f wordinfo) w =
      if w ∈ wids then f w (record wordinfo w) else record wordinfo w := by
  rw [record, getElem?_forEach hnodup]
  by_cases hw : w ∈ wids
  · obtain ⟨r, hr⟩ := (BTree.mem_iff _).mp (hrec w hw)
    simp [record, hw, hr]
  · rw [if_neg hw, if_neg hw, record]

theorem mem_forEach {wids : List ℕ} (hnodup : wids.Nodup) (f : ℕ → WordInfo S → WordInfo S)
    (wordinfo : BTree ℕ (WordInfo S)) (w : ℕ) : w ∈ forEach wids f wordinfo ↔ w ∈ wordinfo := by
  rw [BTree.mem_iff, BTree.mem_iff, getElem?_forEach hnodup]
  by_cases hw : w ∈ wids <;> simp [hw]

/-- `_get_doctrees` gives every word a record, and changes none. -/
theorem getDoctrees_spec (wids : List ℕ) (ix : IncrementalLuceneIndex S γ Λ) :
    (∀ w, record (getDoctrees wids ix).wordinfo w = record ix.wordinfo w) ∧
      HasRecords wids (getDoctrees wids ix).wordinfo ∧
      (∀ w, w ∈ ix.wordinfo → w ∈ (getDoctrees wids ix).wordinfo) ∧
      (getDoctrees wids ix).docwords = ix.docwords ∧
      (getDoctrees wids ix).documentCount = ix.documentCount ∧
      (getDoctrees wids ix).lexicon = ix.lexicon := by
  induction wids generalizing ix with
  | nil => exact ⟨fun w => rfl, (fun w hw => nomatch hw), fun w hw => hw, rfl, rfl, rfl⟩
  | cons x wids ih =>
    set ix' : IncrementalLuceneIndex S γ Λ := if x ∈ ix.wordinfo then ix
      else { ix with wordinfo := ix.wordinfo.insert x .empty, wordCount := ix.wordCount + 1 } with hix'
    have hrun : getDoctrees (x :: wids) ix = getDoctrees wids ix' := by
      rw [getDoctrees, List.foldl_cons]
      rfl
    have hstep : (∀ w, record ix'.wordinfo w = record ix.wordinfo w) ∧ x ∈ ix'.wordinfo ∧
        (∀ w, w ∈ ix.wordinfo → w ∈ ix'.wordinfo) ∧ ix'.docwords = ix.docwords ∧
        ix'.documentCount = ix.documentCount ∧ ix'.lexicon = ix.lexicon := by
      by_cases hx : x ∈ ix.wordinfo
      · rw [hix', if_pos hx]
        exact ⟨fun w => rfl, hx, fun w hw => hw, rfl, rfl, rfl⟩
      · rw [hix', if_neg hx]
        refine ⟨fun w => ?_, by simp, fun w hw => ?_, rfl, rfl, rfl⟩
        · rw [record_insert]
          by_cases hw : x = w
          · subst hw
            rw [if_pos rfl, record, (BTree.not_mem_iff _).mp hx]
            rfl
          · rw [if_neg hw]
        · simp [hw]
    obtain ⟨hrec, hxmem, hmono, hdoc, hcount, hlex⟩ := hstep
    obtain ⟨irec, ihas, imono, idoc, icount, ilex⟩ := ih ix'
    rw [hrun]
    refine ⟨fun w => (irec w).trans (hrec w), fun w hw => ?_, fun w hw => imono w (hmono w hw),
      idoc.trans hdoc, icount.trans hcount, ilex.trans hlex⟩
    rcases List.mem_cons.mp hw with rfl | hw
    · exact imono _ hxmem
    · exact ihas w hw

/-! ## The postings invariant

`Postings` relates the trees to the stored word lists in both directions: a pair is in the tree of
a word exactly when some document has the word and the pair is its score. So a tree has one pair
of a document at most, and its length is its size. -/

/-- The stored word list of a document. -/
def words (ix : IncrementalLuceneIndex S γ Λ) (docid : ℤ) : List ℕ :=
  (ix.docwords[docid]?.map W.decode).getD []

/-- A pair belongs into the tree of a word: it is the score of a document with it. -/
def IsPosting (words : ℤ → List ℕ) (w : ℕ) (pair : Posting S) : Prop :=
  ∃ docid, w ∈ words docid ∧ pair = widscore (words docid) docid w

/-- **The postings invariant**: trees and lengths are what the stored word lists
demand, and the documents are counted. -/
structure Postings (ix : IncrementalLuceneIndex S γ Λ) : Prop where
  /-- the tree of a word is the set of its postings -/
  mem_iff : ∀ w pair, pair ∈ (record ix.wordinfo w).tree ↔ IsPosting (words W ix) w pair
  /-- the length of a word is the size of its tree -/
  length_eq : ∀ w, (record ix.wordinfo w).length = (record ix.wordinfo w).tree.size
  /-- the document count -/
  count_eq : ix.documentCount = ix.docwords.size

variable {W}

/-- In a tree of postings, the pair of a document is the one its words demand. -/
theorem IsPosting.of_docid {words : ℤ → List ℕ} {w : ℕ} {docid : ℤ} {pair : Posting S}
    (h : IsPosting words w pair) (hd : pair.docid = docid) :
    w ∈ words docid ∧ pair = widscore (words docid) docid w := by
  obtain ⟨d, hw, rfl⟩ := h
  obtain rfl : d = docid := hd
  exact ⟨hw, rfl⟩

/-- The pair of a document is in the tree of a word exactly when it has the word. -/
theorem isPosting_widscore {words : ℤ → List ℕ} {w : ℕ} {docid : ℤ} :
    IsPosting words w (widscore (words docid) docid w : Posting S) ↔ w ∈ words docid :=
  ⟨fun h => (h.of_docid rfl).1, fun h => ⟨docid, h, rfl⟩⟩

/-- Postings after the word list of one document has changed. -/
theorem isPosting_update {words words' : ℤ → List ℕ} {docid : ℤ}
    (hother : ∀ d, d ≠ docid → words' d = words d) (w : ℕ) (pair : Posting S) :
    IsPosting words' w pair ↔
      (w ∈ words' docid ∧ pair = widscore (words' docid) docid w) ∨
        (IsPosting words w pair ∧
          ¬(w ∈ words docid ∧ pair = widscore (words docid) docid w)) := by
  refine ⟨?_, ?_⟩
  · rintro ⟨d, hw, rfl⟩
    by_cases hd : d = docid
    · subst hd
      exact .inl ⟨hw, rfl⟩
    · rw [hother d hd] at hw ⊢
      exact .inr ⟨⟨d, hw, rfl⟩, fun h => hd (congrArg Posting.docid h.2)⟩
  · rintro (⟨hw, rfl⟩ | ⟨⟨d, hw, rfl⟩, hne⟩)
    · exact ⟨docid, hw, rfl⟩
    · have hd : d ≠ docid := by
        rintro rfl
        exact hne ⟨hw, rfl⟩
      exact ⟨d, by rwa [hother d hd], by rw [hother d hd]⟩

/-! ## One record

A call replaces the word list of one document. `Reposted` says what has to happen to the record of
a word then, in the four cases: the document has the word before or not, and after or not. The
invariant follows if it happens to every word (`Postings.update`). -/

/-- The record of a word after a document's words have changed from `old` to `new`. -/
structure Reposted (docid : ℤ) (old new : List ℕ) (w : ℕ) (r r' : WordInfo S) : Prop where
  /-- the old pair is out, the new one is in -/
  mem_iff : ∀ pair, pair ∈ r'.tree ↔ (w ∈ new ∧ pair = widscore new docid w) ∨
    (pair ∈ r.tree ∧ ¬(w ∈ old ∧ pair = widscore old docid w))
  /-- and the length follows -/
  length_eq : r.length = r.tree.size → r'.length = r'.tree.size

/-- A pair of the document in the tree is the one of its old words. -/
def Held (docid : ℤ) (old : List ℕ) (w : ℕ) (r : WordInfo S) : Prop :=
  (w ∈ old → widscore old docid w ∈ r.tree) ∧
    ∀ pair ∈ r.tree, pair.docid = docid → w ∈ old ∧ pair = widscore old docid w

theorem Postings.held {ix : IncrementalLuceneIndex S γ Λ} (h : Postings W ix) (docid : ℤ) (w : ℕ) :
    Held docid (words W ix docid) w (record ix.wordinfo w) :=
  ⟨fun hw => (h.mem_iff w _).mpr (isPosting_widscore.mpr hw),
    fun pair hp hd => ((h.mem_iff w pair).mp hp).of_docid hd⟩

/-- A record of which nothing changes. -/
theorem reposted_self {docid : ℤ} {old new : List ℕ} {w : ℕ} {r : WordInfo S}
    (hold : w ∉ old) (hnew : w ∉ new) : Reposted docid old new w r r :=
  ⟨fun pair => by simp [hold, hnew], fun h => h⟩

/-- Adding a pair of a document that the word does not have. -/
theorem reposted_add {docid : ℤ} {old new : List ℕ} {w : ℕ} {r : WordInfo S}
    (hheld : Held docid old w r) (hold : w ∉ old) (hnew : w ∈ new) :
    Reposted docid old new w r ((r.add (widscore new docid w)).change 1) := by
  have hfresh : widscore new docid w ∉ r.tree := fun hp => hold (hheld.2 _ hp rfl).1
  refine ⟨fun pair => ?_, fun hlen => ?_⟩
  · change pair ∈ r.tree.insert _ ↔ _
    rw [TreeSet.mem_insert]
    simp [hold, hnew]
  · change r.length + 1 = ((r.tree.insert _).size : ℤ)
    rw [TreeSet.size_insert_new _ hfresh, hlen]
    push_cast
    rfl

/-- Taking the pair of a document out. -/
theorem reposted_discard {docid : ℤ} {old new : List ℕ} {w : ℕ} {r : WordInfo S}
    (hheld : Held docid old w r) (hold : w ∈ old) (hnew : w ∉ new) :
    Reposted docid old new w r ((r.change (-1)).discard (widscore old docid w)) := by
  have hmem := hheld.1 hold
  refine ⟨fun pair => ?_, fun hlen => ?_⟩
  · change pair ∈ r.tree.erase _ ↔ _
    rw [TreeSet.mem_erase]
    simp [hold, hnew]
  · change r.length + -1 = ((r.tree.erase _).size : ℤ)
    have hsize := TreeSet.size_erase_mem _ hmem
    omega

/-- Replacing the pair of a document. -/
theorem reposted_replace {docid : ℤ} {old new : List ℕ} {w : ℕ} {r : WordInfo S}
    (hheld : Held docid old w r) (hold : w ∈ old) (hnew : w ∈ new) :
    Reposted docid old new w r ((r.discard (widscore old docid w)).add (widscore new docid w)) := by
  have hmem := hheld.1 hold
  have hfresh : widscore new docid w ∉ r.tree.erase (widscore old docid w) := by
    rw [TreeSet.mem_erase]
    exact fun hp => hp.2 (hheld.2 _ hp.1 rfl).2
  refine ⟨fun pair => ?_, fun hlen => ?_⟩
  · change pair ∈ (r.tree.erase _).insert _ ↔ _
    rw [TreeSet.mem_insert, TreeSet.mem_erase]
    simp [hold, hnew]
  · change r.length = (((r.tree.erase _).insert _).size : ℤ)
    have hsize := TreeSet.size_erase_mem _ hmem
    rw [TreeSet.size_insert_new _ hfresh]
    omega

/-- When all records follow the words of one document, the invariant is kept. -/
theorem Postings.update {ix ix' : IncrementalLuceneIndex S γ Λ} (h : Postings W ix) (docid : ℤ)
    (hother : ∀ d, d ≠ docid → words W ix' d = words W ix d)
    (hrec : ∀ w, Reposted docid (words W ix docid) (words W ix' docid) w
      (record ix.wordinfo w) (record ix'.wordinfo w))
    (hcount : ix'.documentCount = ix'.docwords.size) : Postings W ix' where
  mem_iff w pair := by
    rw [(hrec w).mem_iff, isPosting_update hother, h.mem_iff]
  length_eq w := (hrec w).length_eq (h.length_eq w)
  count_eq := hcount

/-- The invariant does not depend on the lexicon and on `wordCount`. -/
theorem Postings.congr {ix ix' : IncrementalLuceneIndex S γ Λ} (h : Postings W ix)
    (hrec : ∀ w, record ix'.wordinfo w = record ix.wordinfo w) (hdoc : ix'.docwords = ix.docwords)
    (hcount : ix'.documentCount = ix.documentCount) : Postings W ix' where
  mem_iff w pair := by
    have hwords : words W ix' = words W ix := by
      funext d
      rw [words, words, hdoc]
    rw [hrec, hwords]
    exact h.mem_iff w pair
  length_eq w := by
    rw [hrec]
    exact h.length_eq w
  count_eq := by rw [hcount, hdoc, h.count_eq]

theorem words_insert {ix ix' : IncrementalLuceneIndex S γ Λ} {docid : ℤ} {code : γ}
    (h : ix'.docwords = ix.docwords.insert docid code) (d : ℤ) :
    words W ix' d = if docid = d then W.decode code else words W ix d := by
  rw [words, h, BTree.get_insert]
  split <;> rfl

theorem words_erase {ix ix' : IncrementalLuceneIndex S γ Λ} {docid : ℤ}
    (h : ix'.docwords = ix.docwords.erase docid) (d : ℤ) :
    words W ix' d = if docid = d then [] else words W ix d := by
  rw [words, h, BTree.get_erase]
  split <;> rfl

theorem words_of_get {ix : IncrementalLuceneIndex S γ Λ} {docid : ℤ} {code : γ}
    (h : ix.docwords[docid]? = some code) : words W ix docid = W.decode code := by
  rw [words, h]
  rfl

theorem words_of_not_mem {ix : IncrementalLuceneIndex S γ Λ} {docid : ℤ}
    (h : docid ∉ ix.docwords) : words W ix docid = [] := by
  rw [words, (BTree.not_mem_iff _).mp h]
  rfl

/-! ## The three calls

Each call is run to its end, with what may be missing supplied by the invariant: no pair that is
to be removed is ever absent. A call that raises does so in the lexicon, or before it has changed
any tree. -/

section calls

variable {L}

theorem parallelTraversal_apply {wids : List ℕ} (hne : wids ≠ [])
    (ix : IncrementalLuceneIndex S γ Λ) : parallelTraversal wids ix = (.ok (), ix) := by
  rw [parallelTraversal, if_neg hne]
  rfl

theorem parallelTraversal_eq_ok {wids : List ℕ} {ix ix' : IncrementalLuceneIndex S γ Λ}
    (h : parallelTraversal wids ix = (.ok (), ix')) : ix' = ix := by
  by_cases hne : wids = []
  · rw [parallelTraversal, if_pos hne] at h
    cases h
  · rw [parallelTraversal_apply hne] at h
    exact (Prod.mk.inj h).2.symm

theorem dedup_ne_nil {wids : List ℕ} (hne : wids ≠ []) : wids.dedup ≠ [] := by
  simpa using hne

/-- Adding the postings of a document, run. -/
theorem addPostings_spec (docid : ℤ) (wids : List ℕ) (ix : IncrementalLuceneIndex S γ Λ) :
    ∃ ix', addPostings docid wids ix = (.ok (), ix') ∧ ix'.docwords = ix.docwords ∧
      ix'.documentCount = ix.documentCount ∧ ∀ w, record ix'.wordinfo w =
        if w ∈ wids then ((record ix.wordinfo w).add (widscore wids docid w)).change 1
        else record ix.wordinfo w := by
  by_cases hne : wids = []
  · subst hne
    exact ⟨ix, rfl, rfl, rfl, fun w => rfl⟩
  · obtain ⟨hrec, hhas, -, hdoc, hcount, -⟩ := getDoctrees_spec wids.dedup ix
    set ix₁ := getDoctrees wids.dedup ix with hix₁
    set wordinfo := forEach wids.dedup
      (fun w r => (r.add (widscore wids docid w)).change 1) ix₁.wordinfo with hwi
    refine ⟨{ ix₁ with wordinfo := wordinfo }, ?_, hdoc, hcount, fun w => ?_⟩
    · rw [addPostings, if_neg hne, Py.modify_bind_apply,
        Py.bind_of_ok (parallelTraversal_apply (dedup_ne_nil hne) _)]
      rfl
    · rw [hwi, record_forEach (List.nodup_dedup _) hhas, hrec]
      simp only [List.mem_dedup]

/-- What the lexicon answers, and how the index goes on. -/
theorem sourceToWordIds_cases (text : τ) (ix : IncrementalLuceneIndex S γ Λ) :
    ∃ lexicon, (∃ e, sourceToWordIds L text ix = (.error e, { ix with lexicon := lexicon })) ∨
      ∃ wids, sourceToWordIds L text ix = (.ok wids, { ix with lexicon := lexicon }) ∧
        ∀ w ∈ wids, 0 < w := by
  rcases hlex : L.sourceToWordIds ix.lexicon text with ⟨e | wids, lexicon⟩
  · exact ⟨lexicon, .inl ⟨e, by rw [sourceToWordIds, hlex]⟩⟩
  · exact ⟨lexicon, .inr ⟨wids, by rw [sourceToWordIds, hlex], L.positive _ _ _ (by rw [hlex])⟩⟩

/-- Indexing a document that is not in the index. -/
theorem indexDoc_new {ix : IncrementalLuceneIndex S γ Λ} (h : Postings W ix) {docid : ℤ}
    (hnew : docid ∉ ix.docwords) (text : τ) :
    Postings W (indexDoc W L true docid text ix).2 := by
  rw [indexDoc, Py.get_bind_apply, if_neg hnew]
  obtain ⟨lexicon, ⟨e, hsrc⟩ | ⟨wids, hsrc, hpos⟩⟩ := sourceToWordIds_cases (L := L) text ix
  · rw [Py.bind_of_error hsrc]
    exact h.congr (fun w => rfl) rfl rfl
  · set ix₁ : IncrementalLuceneIndex S γ Λ := { ix with
      lexicon := lexicon
      docwords := ix.docwords.insert docid (encodeWids W true wids) } with hix₁
    obtain ⟨ix₂, hrun, hdoc, hcount, hrec⟩ := addPostings_spec docid wids ix₁
    rw [Py.bind_of_ok hsrc, Py.modify_bind_apply, Py.bind_of_ok hrun, Py.modify_bind_apply,
      Py.pure_apply]
    set ix₃ : IncrementalLuceneIndex S γ Λ := { ix₂ with documentCount := ix₂.documentCount + 1 }
    have hold : words W ix docid = [] := words_of_not_mem hnew
    have hwords : ∀ d, words W ix₃ d = if docid = d then wids else words W ix d := by
      intro d
      have hins : words W ix₃ d = if docid = d then W.decode (encodeWids W true wids)
          else words W ix d := words_insert hdoc d
      rw [hins, encodeWids, if_pos rfl, W.decode_encode wids hpos]
    refine h.update docid (fun d hd => ?_) (fun w => ?_) ?_
    · rw [hwords, if_neg (Ne.symm hd)]
    · rw [hold, hwords, if_pos rfl]
      change Reposted docid [] wids w (record ix.wordinfo w) (record ix₂.wordinfo w)
      rw [hrec]
      by_cases hw : w ∈ wids
      · rw [if_pos hw]
        exact reposted_add (hold ▸ h.held docid w) List.not_mem_nil hw
      · rw [if_neg hw]
        exact reposted_self List.not_mem_nil hw
    · change ix₂.documentCount + 1 = (ix₂.docwords.size : ℤ)
      rw [hcount, hdoc, hix₁, BTree.size_insert_new _ hnew, h.count_eq]
      push_cast
      rfl

/-! ## Reindexing

`_reindex_doc` updates lengths and trees in four loops. Together they do to each record one of the
four things of `Reposted`, by whether the word is among the old words and among the new ones. -/

/-- The records after the loops of `_reindex_doc`. -/
theorem record_reindex {docid : ℤ} {oldWids newWids : List ℕ} {wordinfo : BTree ℕ (WordInfo S)}
    (hhas : ∀ w, w ∈ oldWids ∨ w ∈ newWids → w ∈ wordinfo)
    (hheld : ∀ w, Held docid oldWids w (record wordinfo w)) (w : ℕ) :
    Reposted docid oldWids newWids w (record wordinfo w)
      (record (forEach newWids.dedup (fun w r => r.add (widscore newWids docid w))
        (forEach oldWids.dedup (fun w r => r.discard (widscore oldWids docid w))
          (forEach (newWids.dedup.filter (· ∉ oldWids.dedup)) (fun _ r => r.change 1)
            (forEach (oldWids.dedup.filter (· ∉ newWids.dedup)) (fun _ r => r.change (-1))
              wordinfo)))) w) := by
  have hold := List.nodup_dedup oldWids
  have hnew := List.nodup_dedup newWids
  have hrem := hold.filter fun w => decide (w ∉ newWids.dedup)
  have hadd := hnew.filter fun w => decide (w ∉ oldWids.dedup)
  rw [record_forEach hnew, record_forEach hold, record_forEach hadd, record_forEach hrem]
  · simp only [List.mem_filter, List.mem_dedup, decide_eq_true_eq]
    by_cases ho : w ∈ oldWids
    · by_cases hn : w ∈ newWids
      · simpa [ho, hn] using reposted_replace (hheld w) ho hn
      · simpa [ho, hn] using reposted_discard (hheld w) ho hn
    · by_cases hn : w ∈ newWids
      · simpa [ho, hn, WordInfo.change_add] using reposted_add (hheld w) ho hn
      · simpa [ho, hn] using reposted_self ho hn
  · exact fun w hw => hhas w (.inl (List.mem_dedup.mp (List.mem_of_mem_filter hw)))
  · exact fun w hw => (mem_forEach hrem _ _ w).mpr
      (hhas w (.inr (List.mem_dedup.mp (List.mem_of_mem_filter hw))))
  · exact fun w hw => (mem_forEach hadd _ _ w).mpr ((mem_forEach hrem _ _ w).mpr
      (hhas w (.inl (List.mem_dedup.mp hw))))
  · exact fun w hw => (mem_forEach hold _ _ w).mpr ((mem_forEach hadd _ _ w).mpr
      ((mem_forEach hrem _ _ w).mpr (hhas w (.inr (List.mem_dedup.mp hw)))))

/-- Indexing a document again. -/
theorem reindexDoc_postings {ix : IncrementalLuceneIndex S γ Λ} (h : Postings W ix) {docid : ℤ}
    (hmem : docid ∈ ix.docwords) (text : τ) :
    Postings W (reindexDoc W L true docid text ix).2 := by
  obtain ⟨code, hcode⟩ := (BTree.mem_iff _).mp hmem
  rw [reindexDoc, Py.get_bind_apply, hcode, Py.ofOption_some, Py.pure_bind_apply]
  obtain ⟨lexicon, ⟨e, hsrc⟩ | ⟨newWids, hsrc, hpos⟩⟩ := sourceToWordIds_cases (L := L) text ix
  · rw [Py.bind_of_error hsrc]
    exact h.congr (fun w => rfl) rfl rfl
  rw [Py.bind_of_ok hsrc]
  have hold : words W ix docid = W.decode code := words_of_get hcode
  set oldWids := W.decode code with holdWids
  set all := (newWids.dedup ++ oldWids.dedup).dedup with hall
  simp only [Py.modify_bind_apply]
  set ix₁ : IncrementalLuceneIndex S γ Λ := getDoctrees all { ix with lexicon := lexicon } with hix₁
  obtain ⟨hrec, hhas, -, hdoc, hcount, -⟩ := getDoctrees_spec all { ix with lexicon := lexicon }
  rw [← hix₁] at hrec hhas hdoc hcount
  by_cases hne : all = []
  · -- neither version has words: nothing was changed yet
    have hnil : newWids = [] ∧ oldWids = [] := by simpa [hall] using hne
    rw [parallelTraversal, if_pos hne, Py.raise_bind_apply, hnil.1, hnil.2]
    exact h.congr hrec hdoc hcount
  · rw [Py.bind_of_ok (parallelTraversal_apply hne _)]
    simp only [Py.modify_bind_apply, Py.pure_apply]
    have hhas' : ∀ w, w ∈ oldWids ∨ w ∈ newWids → w ∈ ix₁.wordinfo := fun w hw =>
      hhas w (by simpa [hall] using hw.symm)
    have hrepost := record_reindex hhas' fun w => by
      rw [hrec, ← hold]
      exact h.held docid w
    have hwords : ∀ ix' : IncrementalLuceneIndex S γ Λ,
        ix'.docwords = ix₁.docwords.insert docid (encodeWids W true newWids) →
          ∀ d, words W ix' d = if docid = d then newWids else words W ix d := by
      intro ix' hix' d
      have hins : ix'.docwords = ix.docwords.insert docid (encodeWids W true newWids) := by
        rw [hix', hdoc]
      rw [words_insert hins, encodeWids, if_pos rfl, W.decode_encode newWids hpos]
    refine h.update docid (fun d hd => ?_) (fun w => ?_) ?_
    · rw [hwords _ rfl, if_neg (Ne.symm hd)]
    · rw [hold, hwords _ rfl, if_pos rfl]
      have := hrepost w
      rwa [hrec] at this
    · change ix₁.documentCount = ((ix₁.docwords.insert docid _).size : ℤ)
      have hsize : (ix.docwords.insert docid (encodeWids W true newWids)).size = ix.docwords.size := by
        rw [Std.ExtTreeMap.size_insert, if_pos (by simpa using hmem)]
      rw [hcount, hdoc, hsize]
      exact h.count_eq

/-! ## Unindexing

`unindex_doc` goes through the words of the document and raises at the first pair that is missing.
Under the invariant none is, and a record is deleted when its last pair has been taken out. -/

/-- The record of a word without one of its pairs; without documents there is none. -/
def taken (pair : Posting S) (r : WordInfo S) : Option (WordInfo S) :=
  let r' := (r.change (-1)).discard pair
  if r'.length = 0 then none else some r'

/-- The loop of `unindex_doc`, when every pair is there. -/
theorem removePostings_apply {docid : ℤ} {wids ws : List ℕ} (hnodup : ws.Nodup)
    {ix : IncrementalLuceneIndex S γ Λ} (hhas : HasRecords ws ix.wordinfo)
    (hmem : ∀ w ∈ ws, widscore wids docid w ∈ (record ix.wordinfo w).tree) :
    ∃ wordinfo, removePostings docid wids ws ix = (.ok (), { ix with wordinfo := wordinfo }) ∧
      ∀ w, wordinfo[w]? = if w ∈ ws then taken (widscore wids docid w) (record ix.wordinfo w)
        else ix.wordinfo[w]? := by
  induction ws generalizing ix with
  | nil => exact ⟨ix.wordinfo, rfl, fun w => rfl⟩
  | cons x ws ih =>
    obtain ⟨hx, hnodup⟩ := List.nodup_cons.mp hnodup
    obtain ⟨r, hr⟩ := (BTree.mem_iff _).mp (hhas x List.mem_cons_self)
    have hrx : record ix.wordinfo x = r := by rw [record, hr]; rfl
    have hpair : widscore wids docid x ∈ r.tree := hrx ▸ hmem x List.mem_cons_self
    set r' := (r.change (-1)).discard (widscore wids docid x) with hr'
    set wordinfo₁ := if r'.length = 0 then ix.wordinfo.erase x else ix.wordinfo.insert x r'
      with hwordinfo₁
    have hget : ∀ w, wordinfo₁[w]? =
        if x = w then taken (widscore wids docid x) r else ix.wordinfo[w]? := by
      intro w
      by_cases hzero : r'.length = 0
      · have htaken : taken (widscore wids docid x) r = none := if_pos hzero
        rw [hwordinfo₁, if_pos hzero, BTree.get_erase, htaken]
      · have htaken : taken (widscore wids docid x) r = some r' := if_neg hzero
        rw [hwordinfo₁, if_neg hzero, BTree.get_insert, htaken]
    have hother : ∀ w ∈ ws, wordinfo₁[w]? = ix.wordinfo[w]? := fun w hw => by
      rw [hget, if_neg]
      rintro rfl
      exact hx hw
    have hhas₁ : HasRecords ws wordinfo₁ := by
      intro w hw
      have hw' := hhas w (List.mem_cons_of_mem _ hw)
      rw [BTree.mem_iff] at hw' ⊢
      rwa [hother w hw]
    obtain ⟨wordinfo, hrun, hwordinfo⟩ := @ih hnodup { ix with wordinfo := wordinfo₁ } hhas₁
      (fun w hw => by
        simp only [record, hother w hw]
        exact hmem w (List.mem_cons_of_mem _ hw))
    refine ⟨wordinfo, ?_, fun w => ?_⟩
    · rw [removePostings, Py.get_bind_apply, hr, Py.ofOption_some, Py.pure_bind_apply]
      simp only [if_pos hpair]
      exact hrun
    · rw [hwordinfo]
      by_cases hw : w ∈ ws
      · rw [if_pos hw, if_pos (List.mem_cons_of_mem _ hw)]
        simp only [record, hother w hw]
      · rw [if_neg hw, hget]
        by_cases hxw : x = w
        · subst hxw
          rw [if_pos rfl, if_pos List.mem_cons_self, hrx]
        · have hnot : w ∉ x :: ws := by simp [Ne.symm hxw, hw]
          rw [if_neg hxw, if_neg hnot]

/-- When its length is right, a record is deleted where it would be empty. -/
theorem taken_getD {pair : Posting S} {r : WordInfo S} (hmem : pair ∈ r.tree)
    (hlen : r.length = r.tree.size) :
    (taken pair r).getD .empty = (r.change (-1)).discard pair := by
  by_cases hzero : ((r.change (-1)).discard pair).length = 0
  · have hsize := TreeSet.size_erase_mem _ hmem
    have hzero' : r.length + -1 = 0 := hzero
    have htree : r.tree.erase pair = ∅ := by
      rw [Std.ExtTreeSet.eq_empty_iff_size_eq_zero]
      omega
    have htaken : taken pair r = none := if_pos hzero
    rw [htaken]
    change (⟨∅, 0⟩ : WordInfo S) = ⟨r.tree.erase pair, r.length + -1⟩
    rw [htree, hzero']
  · have htaken : taken pair r = some _ := if_neg hzero
    rw [htaken]
    rfl

/-- Unindexing a document all of whose pairs are there. -/
theorem unindexDoc_apply {ix : IncrementalLuceneIndex S γ Λ} {docid : ℤ} {code : γ}
    {wids : List ℕ} (hcode : ix.docwords[docid]? = some code) (hwids : W.decode code = wids)
    (hne : wids ≠ []) (hmem : ∀ w ∈ wids, widscore wids docid w ∈ (record ix.wordinfo w).tree) :
    ∃ wordinfo, unindexDoc W docid ix = (.ok (), { getDoctrees wids.dedup ix with
        wordinfo := wordinfo
        docwords := ix.docwords.erase docid
        documentCount := ix.documentCount - 1 }) ∧
      ∀ w, wordinfo[w]? = if w ∈ wids then taken (widscore wids docid w) (record ix.wordinfo w)
        else (getDoctrees wids.dedup ix).wordinfo[w]? := by
  obtain ⟨hrec, hhas, -, hdoc, hcount, -⟩ := getDoctrees_spec wids.dedup ix
  have hmem' : ∀ w ∈ wids.dedup,
      widscore wids docid w ∈ (record (getDoctrees wids.dedup ix).wordinfo w).tree := by
    intro w hw
    rw [hrec]
    exact hmem w (List.mem_dedup.mp hw)
  obtain ⟨wordinfo, hrun, hwordinfo⟩ := removePostings_apply (List.nodup_dedup wids) hhas hmem'
  refine ⟨wordinfo, ?_, fun w => ?_⟩
  · rw [unindexDoc, Py.get_bind_apply, hcode]
    simp only [hwids, Py.modify_bind_apply]
    rw [Py.bind_of_ok (parallelTraversal_apply (dedup_ne_nil hne) _), Py.bind_of_ok hrun,
      Py.modify_apply, hdoc, hcount]
  · rw [hwordinfo, hrec]
    simp only [List.mem_dedup]

/-- Unindexing a document. -/
theorem unindexDoc_postings {ix : IncrementalLuceneIndex S γ Λ} (h : Postings W ix) (docid : ℤ) :
    Postings W (unindexDoc W docid ix).2 := by
  rcases hcode : ix.docwords[docid]? with _ | code
  · rw [unindexDoc, Py.get_bind_apply, hcode]
    exact h
  have hold : words W ix docid = W.decode code := words_of_get hcode
  obtain ⟨hrec, -, -, hdoc, hcount, -⟩ := getDoctrees_spec (W.decode code).dedup ix
  by_cases hne : W.decode code = []
  · -- a document without words raises before anything is changed
    have hnil : (W.decode code).dedup = [] := by rw [hne, List.dedup_nil]
    rw [unindexDoc, Py.get_bind_apply, hcode]
    simp only [Py.modify_bind_apply]
    rw [parallelTraversal, if_pos hnil, Py.raise_bind_apply]
    exact h.congr hrec hdoc hcount
  · have hheld : ∀ w, Held docid (W.decode code) w (record ix.wordinfo w) := by
      intro w
      rw [← hold]
      exact h.held docid w
    obtain ⟨wordinfo, hrun, hwordinfo⟩ :=
      unindexDoc_apply hcode rfl hne fun w hw => (hheld w).1 hw
    have hrecord : ∀ w, record wordinfo w = if w ∈ W.decode code then
        ((record ix.wordinfo w).change (-1)).discard (widscore (W.decode code) docid w)
        else record ix.wordinfo w := by
      intro w
      rw [record, hwordinfo]
      split
      · next hw => exact taken_getD ((hheld w).1 hw) (h.length_eq w)
      · exact hrec w
    rw [hrun]
    have hwords : ∀ ix' : IncrementalLuceneIndex S γ Λ, ix'.docwords = ix.docwords.erase docid →
        ∀ d, words W ix' d = if docid = d then [] else words W ix d := by
      intro ix' hix'
      exact words_erase hix'
    refine h.update docid (fun d hd => ?_) (fun w => ?_) ?_
    · rw [hwords _ rfl, if_neg (Ne.symm hd)]
    · rw [hold, hwords _ rfl, if_pos rfl]
      change Reposted docid (W.decode code) [] w (record ix.wordinfo w) (record wordinfo w)
      rw [hrecord]
      by_cases hw : w ∈ W.decode code
      · rw [if_pos hw]
        exact reposted_discard (hheld w) hw List.not_mem_nil
      · rw [if_neg hw]
        exact reposted_self hw List.not_mem_nil
    · change ix.documentCount - 1 = ((ix.docwords.erase docid).size : ℤ)
      have hsize := BTree.size_erase_mem _ (BTree.mem_of_get _ hcode)
      have hcount' := h.count_eq
      omega

/-! ## The word lists afterwards

What the calls do to the word lists of documents, where they return. This is how other modules
look at an index. -/

theorem sourceToWordIds_eq_ok {text : τ} {ix ix' : IncrementalLuceneIndex S γ Λ} {wids : List ℕ}
    (h : sourceToWordIds L text ix = (.ok wids, ix')) :
    (L.sourceToWordIds ix.lexicon text).1 = .ok wids ∧
      ix' = { ix with lexicon := (L.sourceToWordIds ix.lexicon text).2 } := by
  obtain ⟨hwids, hix⟩ : (L.sourceToWordIds ix.lexicon text).1 = .ok wids ∧
      { ix with lexicon := (L.sourceToWordIds ix.lexicon text).2 } = ix' := Prod.mk.inj h
  exact ⟨hwids, hix.symm⟩

/-- What the word lists are after a document has been indexed. -/
theorem indexDoc_docwords {ix ix' : IncrementalLuceneIndex S γ Λ} {docid : ℤ} {text : τ} {n : ℕ}
    (h : indexDoc W L true docid text ix = (.ok n, ix')) :
    ∃ lex wids, (L.sourceToWordIds lex text).1 = .ok wids ∧
      ix'.docwords = ix.docwords.insert docid (encodeWids W true wids) := by
  rw [indexDoc, Py.get_bind_apply] at h
  by_cases hmem : docid ∈ ix.docwords
  · rw [if_pos hmem, reindexDoc, Py.get_bind_apply] at h
    obtain ⟨code, ix₁, hcode, hrest⟩ := Py.bind_eq_ok.mp h
    obtain ⟨-, rfl⟩ := Py.ofOption_eq_ok.mp hcode
    obtain ⟨wids, ix₂, hsrc, h⟩ := Py.bind_eq_ok.mp hrest
    obtain ⟨hwids, rfl⟩ := sourceToWordIds_eq_ok hsrc
    simp only [Py.modify_bind_apply] at h
    obtain ⟨⟨⟩, ix₃, htraversal, h⟩ := Py.bind_eq_ok.mp h
    simp only [Py.modify_bind_apply, Py.pure_apply] at h
    have hsame := parallelTraversal_eq_ok htraversal
    obtain ⟨-, rfl⟩ := Prod.mk.inj h
    refine ⟨_, wids, hwids, ?_⟩
    obtain ⟨-, -, -, hdoc, -, -⟩ := getDoctrees_spec (wids.dedup ++ (W.decode code).dedup).dedup
      { ix₁ with lexicon := (L.sourceToWordIds ix₁.lexicon text).2 }
    rw [hsame]
    exact congrArg (fun t => t.insert docid (encodeWids W true wids)) hdoc
  · rw [if_neg hmem] at h
    obtain ⟨wids, ix₁, hsrc, h⟩ := Py.bind_eq_ok.mp h
    obtain ⟨hwids, rfl⟩ := sourceToWordIds_eq_ok hsrc
    rw [Py.modify_bind_apply] at h
    obtain ⟨ix₂, hrun, hdoc, -, -⟩ := addPostings_spec docid wids
      { ix with
        lexicon := (L.sourceToWordIds ix.lexicon text).2
        docwords := ix.docwords.insert docid (encodeWids W true wids) }
    rw [Py.bind_of_ok hrun, Py.modify_bind_apply, Py.pure_apply] at h
    obtain ⟨-, rfl⟩ := Prod.mk.inj h
    exact ⟨_, wids, hwids, hdoc⟩

theorem removePostings_docwords {docid : ℤ} {wids ws : List ℕ}
    {ix ix' : IncrementalLuceneIndex S γ Λ}
    (h : removePostings docid wids ws ix = (.ok (), ix')) : ix'.docwords = ix.docwords := by
  induction ws generalizing ix with
  | nil =>
    obtain ⟨-, rfl⟩ := Prod.mk.inj h
    rfl
  | cons w ws ih =>
    rw [removePostings, Py.get_bind_apply] at h
    obtain ⟨r, ix₁, hr, hrest⟩ := Py.bind_eq_ok.mp h
    obtain ⟨-, rfl⟩ := Py.ofOption_eq_ok.mp hr
    by_cases hmem : widscore wids docid w ∈ r.tree
    · simp only [if_pos hmem, Py.modify_bind_apply] at hrest
      exact (ih hrest).trans rfl
    · simp only [if_neg hmem, Py.modify_bind_apply] at hrest
      cases hrest

/-- And after one has been unindexed. -/
theorem unindexDoc_docwords {ix ix' : IncrementalLuceneIndex S γ Λ} {docid : ℤ}
    (hrun : unindexDoc W docid ix = (.ok (), ix')) (d : ℤ) :
    ix'.docwords[d]? = if docid = d then none else ix.docwords[d]? := by
  rw [unindexDoc, Py.get_bind_apply] at hrun
  rcases hcode : ix.docwords[docid]? with _ | code <;> simp only [hcode] at hrun
  · obtain ⟨-, rfl⟩ := Prod.mk.inj hrun
    by_cases hd : docid = d
    · rw [if_pos hd, ← hd, hcode]
    · rw [if_neg hd]
  · rw [Py.modify_bind_apply] at hrun
    obtain ⟨⟨⟩, ix₁, htraversal, hrun⟩ := Py.bind_eq_ok.mp hrun
    obtain rfl := parallelTraversal_eq_ok htraversal
    obtain ⟨⟨⟩, ix₂, hremove, hrun⟩ := Py.bind_eq_ok.mp hrun
    obtain ⟨-, rfl⟩ := Prod.mk.inj hrun
    obtain ⟨-, -, -, hdoc, -, -⟩ := getDoctrees_spec (W.decode code).dedup ix
    have hsame := removePostings_docwords hremove
    rw [hdoc] at hsame
    change (ix₂.docwords.erase docid)[d]? = _
    rw [hsame, BTree.get_erase]

end calls

/-! ## Histories

Since a call keeps the invariant however it ends, so does every history. -/

/-- A call on the index. -/
inductive Call (τ : Type) where
  /-- `index_doc(docid, text)` -/
  | indexDoc : ℤ → τ → Call τ
  /-- `unindex_doc(docid)` -/
  | unindexDoc : ℤ → Call τ

/-- The outcome of a call, without its value. -/
def outcome {α : Type} : Except Exc α → Except Exc Unit
  | .ok _ => .ok ()
  | .error e => .error e

/-- The index as a machine; a call that raises leaves what it has done. -/
def machine (W : Widcode γ) (L : Lexicon τ Λ) (keepPhrases : Bool) :
    Machine (IncrementalLuceneIndex S γ Λ) (Call τ) (Except Exc Unit)
  | ix, .indexDoc docid text => (indexDoc W L keepPhrases docid text ix).map outcome id
  | ix, .unindexDoc docid => unindexDoc W docid ix

variable {L}

/-- Every call keeps the postings invariant. -/
theorem Postings.step {ix : IncrementalLuceneIndex S γ Λ} (h : Postings W ix) (c : Call τ) :
    Postings W (machine W L true ix c).2 := by
  cases c with
  | unindexDoc docid => exact unindexDoc_postings h docid
  | indexDoc docid text =>
    change Postings W (indexDoc W L true docid text ix).2
    by_cases hmem : docid ∈ ix.docwords
    · have hre : indexDoc W L true docid text ix = reindexDoc W L true docid text ix := by
        rw [indexDoc, Py.get_bind_apply, if_pos hmem]
      rw [hre]
      exact reindexDoc_postings h hmem text
    · exact indexDoc_new h hmem text

theorem postings_init : Postings W (init L : IncrementalLuceneIndex S γ Λ) where
  mem_iff w pair := by simp [init, record, WordInfo.empty, IsPosting, words]
  length_eq w := by simp [init, record, WordInfo.empty]
  count_eq := by simp [init]

/-- **The postings invariant** holds in every state of every history of calls. -/
theorem postings_states (W : Widcode γ) (L : Lexicon τ Λ) (calls : List (Call τ)) :
    ∀ ix ∈ (machine W L true).states (init L : IncrementalLuceneIndex S γ Λ) calls, Postings W ix :=
  Machine.states_inv (fun _ c h => h.step c) postings_init calls

/-- Exact scores, for documents whose counts are squares. -/
instance : Score ℚ where
  sqrt n := n.sqrt

/-- Word lists stored as they are. -/
def plainWidcode : Widcode (List ℕ) where
  encode wids := wids
  decode code := code
  decode_encode _ _ := rfl

/-- Texts of numbered words. -/
def plainLexicon : Lexicon (List ℕ) Unit where
  empty := ()
  sourceToWordIds lex text := (.ok (text.map (· + 1)), lex)
  positive lex text wids h w hw := by
    obtain rfl := Except.ok.inj h
    obtain ⟨x, -, rfl⟩ := List.mem_map.mp hw
    exact x.succ_pos

/-- Document 1 is reindexed from four occurrences of word 5 to one. -/
theorem postings_states_example :
    let ix := (machine plainWidcode plainLexicon true).final
      (init plainLexicon : IncrementalLuceneIndex ℚ (List ℕ) Unit)
      [.indexDoc 1 [4, 4, 4, 4], .indexDoc 2 [4], .indexDoc 1 [4]]
    (record ix.wordinfo 5).length = (record ix.wordinfo 5).tree.size ∧
      (⟨-1, 1⟩ : Posting ℚ) ∈ (record ix.wordinfo 5).tree ∧
      (⟨-2, 1⟩ : Posting ℚ) ∉ (record ix.wordinfo 5).tree := by
  intro ix
  have h : Postings plainWidcode ix := postings_states _ _ _ _ (Machine.final_mem_states _ _ _)
  have hwords : words plainWidcode ix 1 = [5] := by decide
  have hpair : (widscore [5] 1 5 : Posting ℚ) = ⟨-1, 1⟩ := by norm_num [widscore, Score.sqrt]
  refine ⟨h.length_eq 5, (h.mem_iff 5 _).mpr ⟨1, ?_, ?_⟩, fun hmem => ?_⟩
  · rw [hwords]
    exact List.mem_singleton.mpr rfl
  · rw [hwords, hpair]
  · have hold := (((h.mem_iff 5 _).mp hmem).of_docid rfl).2
    rw [hwords, hpair] at hold
    exact absurd hold (by decide)

end IncrementalLuceneIndex

end Zerodb
