import Zerodb.TextLucene

/-!
# TextOkapi: the full-text index of zope.index, with bulk insertion

`OkapiIndex` replaces the indexing and the reindexing of its base class and inherits the
rest. For every word it keeps how often the word occurs in each document, for every
document its length and its encoded word list, and three totals.

What the base class does is taken from its description (`Inherited`). `equals_rebuild_iff`
says for which histories the index equals one that is built from scratch; `indexed_states`
that without `_totaldoclen` it always does.
-/

namespace Zerodb

/-! ## Tables of words

A word that is found in many documents has its counts in a tree, and in a `dict` otherwise; what
is read is the same (`scores`). `Rewritten` says that the counts of some words in one document
have been replaced, and composes: two loops over distinct words are one. -/

/-- The counts of a word by document: a `dict`, or an `IFBTree` when it has grown. -/
inductive Doc2Score where
  /-- `{docid: count}` -/
  | dict : BTree ℤ ℕ → Doc2Score
  /-- `IFBTree({docid: count})` -/
  | tree : BTree ℤ ℕ → Doc2Score

namespace Doc2Score

/-- The entries, in either form. -/
def scores : Doc2Score → BTree ℤ ℕ
  | dict scores => scores
  | tree scores => scores

/-- `doc2score[docid] = weight`. -/
def set (docid : ℤ) (weight : ℕ) : Doc2Score → Doc2Score
  | dict scores => dict (scores.insert docid weight)
  | tree scores => tree (scores.insert docid weight)

/-- A `dict` that has `DICT_CUTOFF` entries becomes a tree. -/
def grow (cutoff : ℕ) : Doc2Score → Doc2Score
  | dict scores => if scores.size = cutoff then tree scores else dict scores
  | tree scores => tree scores

/-- `del doc2score[docid]`. -/
def del (docid : ℤ) : Doc2Score → Doc2Score
  | dict scores => dict (scores.erase docid)
  | tree scores => tree (scores.erase docid)

@[simp] theorem scores_del (docid : ℤ) (s : Doc2Score) :
    (s.del docid).scores = s.scores.erase docid := by
  cases s <;> rfl

@[simp] theorem scores_set (docid : ℤ) (weight : ℕ) (s : Doc2Score) :
    (s.set docid weight).scores = s.scores.insert docid weight := by
  cases s <;> rfl

@[simp] theorem scores_grow (cutoff : ℕ) (s : Doc2Score) : (s.grow cutoff).scores = s.scores := by
  cases s with
  | tree scores => rfl
  | dict scores =>
    rw [grow]
    split <;> rfl

end Doc2Score

/-- The words of an index. -/
structure WordTable where
  /-- `_wordinfo` -/
  wordinfo : BTree ℕ Doc2Score
  /-- `wordCount` -/
  wordCount : ℤ

namespace WordTable

/-- How often a word occurs in a document, if it does. -/
def count (t : WordTable) (w : ℕ) (docid : ℤ) : Option ℕ :=
  t.wordinfo[w]?.bind fun s => s.scores[docid]?

/-- `wordCount` counts the words, and each is in some document. -/
structure Tidy (t : WordTable) : Prop where
  /-- the words are counted -/
  wordCount : t.wordCount = t.wordinfo.size
  /-- and occur -/
  occurs : ∀ (w : ℕ) (s : Doc2Score), t.wordinfo[w]? = some s → ∃ docid, docid ∈ s.scores

/-- The counts of some words in one document are replaced. -/
structure Rewritten (docid : ℤ) (ws : List ℕ) (o : ℕ → Option ℕ) (t t' : WordTable) : Prop where
  /-- these counts, and no others -/
  count : ∀ w d, t'.count w d = if w ∈ ws ∧ d = docid then o w else t.count w d
  /-- words stay counted -/
  tidy : t.Tidy → t'.Tidy

namespace Rewritten

variable {docid : ℤ} {ws ws' : List ℕ} {o o' : ℕ → Option ℕ} {t t' t'' : WordTable}

theorem refl (docid : ℤ) (o : ℕ → Option ℕ) (t : WordTable) : Rewritten docid [] o t t :=
  ⟨fun w d => by simp, id⟩

theorem trans (h : Rewritten docid ws o t t') (h' : Rewritten docid ws' o t' t'') :
    Rewritten docid (ws ++ ws') o t t'' := by
  refine ⟨fun w d => ?_, fun ht => h'.tidy (h.tidy ht)⟩
  rw [h'.count, h.count]
  by_cases hw' : w ∈ ws' ∧ d = docid
  · rw [if_pos hw', if_pos ⟨List.mem_append_right _ hw'.1, hw'.2⟩]
  · rw [if_neg hw']
    by_cases hw : w ∈ ws ∧ d = docid
    · rw [if_pos hw, if_pos ⟨List.mem_append_left _ hw.1, hw.2⟩]
    · rw [if_neg hw, if_neg]
      rintro ⟨hmem, hd⟩
      rcases List.mem_append.mp hmem with hm | hm
      · exact hw ⟨hm, hd⟩
      · exact hw' ⟨hm, hd⟩

theorem congr (h : Rewritten docid ws o t t') (ho : ∀ w ∈ ws, o w = o' w) :
    Rewritten docid ws o' t t' := by
  refine ⟨fun w d => ?_, h.tidy⟩
  rw [h.count]
  by_cases hw : w ∈ ws ∧ d = docid
  · rw [if_pos hw, if_pos hw, ho w hw.1]
  · rw [if_neg hw, if_neg hw]

end Rewritten

/-- Tables with the same counts have the same words. -/
theorem Tidy.mem_iff {t : WordTable} (h : t.Tidy) (w : ℕ) :
    w ∈ t.wordinfo ↔ ∃ docid n, t.count w docid = some n := by
  rw [BTree.mem_iff]
  refine ⟨?_, ?_⟩
  · rintro ⟨s, hs⟩
    obtain ⟨docid, hd⟩ := h.occurs w s hs
    obtain ⟨n, hn⟩ := (BTree.mem_iff _).mp hd
    exact ⟨docid, n, by rw [count, hs, Option.bind_some, hn]⟩
  · rintro ⟨docid, n, hn⟩
    obtain ⟨s, hs, -⟩ := Option.bind_eq_some_iff.mp hn
    exact ⟨s, hs⟩

/-- And the same number of them. -/
theorem Tidy.wordCount_eq {t t' : WordTable} (h : t.Tidy) (h' : t'.Tidy)
    (hcount : ∀ w d, t.count w d = t'.count w d) : t.wordCount = t'.wordCount := by
  have hmem : ∀ w, w ∈ t.wordinfo ↔ w ∈ t'.wordinfo := fun w => by
    rw [h.mem_iff, h'.mem_iff]
    simp only [hcount]
  rw [h.wordCount, h'.wordCount, Nat.cast_inj, ← Std.ExtTreeMap.length_keys,
    ← Std.ExtTreeMap.length_keys]
  refine List.Perm.length_eq ((List.perm_ext_iff_of_nodup Std.ExtTreeMap.nodup_keys
    Std.ExtTreeMap.nodup_keys).mpr fun w => ?_)
  rw [Std.ExtTreeMap.mem_keys, Std.ExtTreeMap.mem_keys, hmem]

/-- Putting one count into the entry of a word. -/
theorem rewritten_put (t : WordTable) (w : ℕ) (docid : ℤ) (f : ℕ) {s : Doc2Score} (n : ℤ)
    (hs : s.scores = ((t.wordinfo[w]?.map Doc2Score.scores).getD ∅).insert docid f)
    (hn : n = if w ∈ t.wordinfo then t.wordCount else t.wordCount + 1) :
    Rewritten docid [w] (fun _ => some f) t ⟨t.wordinfo.insert w s, n⟩ := by
  have hget : ∀ w' : ℕ, (t.wordinfo.insert w s)[w']? = if w = w' then some s else t.wordinfo[w']? :=
    fun w' => BTree.get_insert _
  refine ⟨fun w' d => ?_, fun ht => ⟨?_, fun w' s' hs' => ?_⟩⟩
  · simp only [count, hget, List.mem_singleton]
    by_cases hw : w = w'
    · subst hw
      rw [if_pos rfl, Option.bind_some, hs, BTree.get_insert]
      by_cases hd : docid = d
      · rw [if_pos hd, if_pos ⟨rfl, hd.symm⟩]
      · rw [if_neg hd, if_neg (fun h => hd h.2.symm)]
        rcases t.wordinfo[w]? with _ | s'
        · simp
        · rfl
    · rw [if_neg hw, if_neg (fun h => hw h.1.symm)]
  · by_cases hw : w ∈ t.wordinfo
    · rw [hn, if_pos hw, ht.wordCount, Std.ExtTreeMap.size_insert, if_pos (by simpa using hw)]
    · rw [hn, if_neg hw, ht.wordCount, BTree.size_insert_new _ hw]
      push_cast
      rfl
  · rw [hget] at hs'
    by_cases hw : w = w'
    · rw [if_pos hw, Option.some.injEq] at hs'
      exact ⟨docid, by rw [← hs', hs]; simp⟩
    · rw [if_neg hw] at hs'
      exact ht.occurs w' s' hs'

end WordTable

/-! ## The index

The overridden methods are translated. Those of the base class enter with what their description
says of them, in `Inherited`. -/

/-- `OkapiIndex`. -/
structure OkapiIndex (γ Λ : Type) extends WordTable where
  /-- `_docweight`: the number of words of each document -/
  docweight : BTree ℤ ℕ
  /-- `_docwords` -/
  docwords : BTree ℤ γ
  /-- `documentCount` -/
  documentCount : ℤ
  /-- `_totaldoclen` -/
  totaldoclen : ℤ
  /-- `_lexicon` -/
  lexicon : Λ

/-- The methods inherited from zope.index, as far as they are described. -/
structure Inherited {γ : Type} (W : Widcode γ) (Λ : Type) where
  /-- `DICT_CUTOFF` -/
  dictCutoff : ℕ
  /-- `_add_wordinfo(wid, f, docid)` -/
  addWordinfo : (wid : ℕ) → (f : ℕ) → (docid : ℤ) → WordTable → WordTable
  /-- it adds one docid-count pair and keeps `wordCount` -/
  addWordinfo_spec : ∀ wid f docid (t : WordTable),
    t.Rewritten docid [wid] (fun _ => some f) (addWordinfo wid f docid t)
  /-- `_del_wordinfo(wid, docid)` -/
  delWordinfo : (wid : ℕ) → (docid : ℤ) → Py WordTable Unit
  /-- it removes one docid-count pair and keeps `wordCount` -/
  delWordinfo_spec : ∀ wid docid (t : WordTable) f, t.count wid docid = some f →
    ∃ t', delWordinfo wid docid t = (.ok (), t') ∧ t.Rewritten docid [wid] (fun _ => none) t'
  /-- `unindex_doc(docid)` -/
  unindexDoc : (docid : ℤ) → Py (OkapiIndex γ Λ) Unit
  /-- it does nothing for a document that is not indexed -/
  unindexDoc_unknown : ∀ docid (ix : OkapiIndex γ Λ), docid ∉ ix.docwords → unindexDoc docid ix = (.ok (), ix)
  /-- it subtracts the length of a document and removes its entries -/
  unindexDoc_known : ∀ docid (ix : OkapiIndex γ Λ) code (n : ℕ),
    ix.docwords[docid]? = some code → ix.docweight[docid]? = some n →
    (∀ w, (ix.count w docid).isSome = true ↔ w ∈ W.decode code) →
    ∃ t, ix.Rewritten docid (W.decode code) (fun _ => none) t ∧
      unindexDoc docid ix = (.ok (), { ix with
        toWordTable := t
        docweight := ix.docweight.erase docid
        docwords := ix.docwords.erase docid
        documentCount := ix.documentCount - 1
        totaldoclen := ix.totaldoclen - n })

namespace OkapiIndex

variable {γ Λ τ : Type} (W : Widcode γ) (L : Lexicon τ Λ) (Z : Inherited W Λ)

/-- A new index, with the lexicon it is given. -/
def empty (lexicon : Λ) : OkapiIndex γ Λ := ⟨⟨∅, 0⟩, ∅, ∅, 0, 0, lexicon⟩

/-- `self._lexicon.sourceToWordIds(text)`. -/
def sourceToWordIds (text : τ) : Py (OkapiIndex γ Λ) (List ℕ) := fun ix =>
  let (result, lexicon) := L.sourceToWordIds ix.lexicon text
  (result, { ix with lexicon := lexicon })

/-- `_get_frequencies`, inherited: the counts per word and the number of words. -/
def getFrequencies (wids : List ℕ) : BTree ℕ ℕ × ℕ :=
  (wids.foldl (fun d wid => d.insert wid (d[wid]?.getD 0 + 1)) ∅, wids.length)

/-- `_change_doc_len`, inherited. -/
def changeDocLen (delta : ℤ) (ix : OkapiIndex γ Λ) : OkapiIndex γ Λ :=
  { ix with totaldoclen := ix.totaldoclen + delta }

/-- A turn of the loop in `_mass_add_wordinfo`; new words are counted. -/
def massAddStep (cutoff : ℕ) (docid : ℤ) (acc : BTree ℕ Doc2Score × ℤ) (item : ℕ × ℕ) :
    BTree ℕ Doc2Score × ℤ :=
  match acc.1[item.1]? with
  | none => (acc.1.insert item.1 ((Doc2Score.dict ∅).set docid item.2), acc.2 + 1)
  | some doc2score => (acc.1.insert item.1 ((doc2score.grow cutoff).set docid item.2), acc.2)

/-- `_mass_add_wordinfo`. -/
def massAddWordinfo (cutoff : ℕ) (wid2weight : BTree ℕ ℕ) (docid : ℤ) (t : WordTable) : WordTable :=
  let (wordinfo, newWordCount) := wid2weight.toList.foldl (massAddStep cutoff docid) (t.wordinfo, 0)
  ⟨wordinfo, t.wordCount + newWordCount⟩

/-- A computation on the words alone. -/
def onWords (x : Py WordTable Unit) : Py (OkapiIndex γ Λ) Unit :=
  Py.zoom OkapiIndex.toWordTable (fun t ix => { ix with toWordTable := t }) x

/-- `get_words`. -/
def getWords (docid : ℤ) : Py (OkapiIndex γ Λ) (List ℕ) := do
  let ix ← Py.get
  let code ← Py.ofOption .keyError ix.docwords[docid]?
  return W.decode code

/-- `_reindex_doc`. -/
def reindexDoc (docid : ℤ) (text : τ) : Py (OkapiIndex γ Λ) ℕ := do
  let ix ← Py.get
  let docweight ← Py.ofOption .keyError ix.docweight[docid]?
  Py.modify (changeDocLen (-docweight))
  let oldWids ← getWords W docid
  let oldWid2w := (getFrequencies oldWids).1
  let newWids ← sourceToWordIds L text
  let (newWid2w, newDocw) := getFrequencies newWids
  let inBoth := oldWid2w.keys.filter (· ∈ newWid2w)
  let onlyOld := oldWid2w.keys.filter (· ∉ inBoth)
  let onlyNew := newWid2w.keys.filter (· ∉ inBoth)
  Py.forEach (fun wid => onWords (Z.delWordinfo wid docid)) onlyOld
  Py.forEach (fun wid => onWords
    (Py.modify (Z.addWordinfo wid (newWid2w[wid]?.getD 0) docid))) onlyNew
  Py.forEach (fun wid => if oldWid2w[wid]? ≠ newWid2w[wid]? then
    onWords (Py.modify (Z.addWordinfo wid (newWid2w[wid]?.getD 0) docid))
    else pure ()) inBoth
  Py.modify fun ix => { ix with
    docweight := ix.docweight.insert docid newDocw
    docwords := ix.docwords.insert docid (W.encode newWids) }
  return newWids.length

/-- The part of `index_doc` behind the lexicon, for a document that is new. -/
def addDoc (cutoff : ℕ) (docid : ℤ) (wids : List ℕ) (ix : OkapiIndex γ Λ) : OkapiIndex γ Λ :=
  let (wid2weight, docweight) := getFrequencies wids
  changeDocLen wids.length { ix with
    toWordTable := massAddWordinfo cutoff wid2weight docid ix.toWordTable
    docweight := ix.docweight.insert docid docweight
    docwords := ix.docwords.insert docid (W.encode wids)
    documentCount := ix.documentCount + 1 }

/-- `index_doc`. -/
def indexDoc (docid : ℤ) (text : τ) : Py (OkapiIndex γ Λ) ℕ := do
  let ix ← Py.get
  if docid ∈ ix.docwords then reindexDoc W L Z docid text
  else
    let wids ← sourceToWordIds L text
    Py.modify (addDoc W Z.dictCutoff docid wids)
    return wids.length

/-- The calls of an index. -/
inductive Op (τ : Type) where
  /-- `index_doc(docid, text)` -/
  | indexDoc : (docid : ℤ) → (text : τ) → Op τ
  /-- `unindex_doc(docid)` -/
  | unindexDoc : (docid : ℤ) → Op τ

/-- The index with these calls, which may raise. -/
def machine : Machine (OkapiIndex γ Λ) (Op τ) (Except Exc Unit)
  | ix, .indexDoc docid text => ((indexDoc W L Z docid text ix).1.map fun _ => (),
      (indexDoc W L Z docid text ix).2)
  | ix, .unindexDoc docid => Z.unindexDoc docid ix

/-- The index of the current word lists, built from scratch. -/
def rebuild (ix : OkapiIndex γ Λ) : OkapiIndex γ Λ :=
  ix.docwords.toList.foldl (fun jx e => addDoc W Z.dictCutoff e.1 (W.decode e.2) jx)
    (empty ix.lexicon)

/-! ## Frequencies

The inherited count of words gives each word of the text once, with how often it occurs. -/

theorem getFrequencies_get (wids : List ℕ) (w : ℕ) :
    (getFrequencies wids).1[w]? = if w ∈ wids then some (wids.count w) else none := by
  have hfold : ∀ (l : List ℕ) (d : BTree ℕ ℕ),
      (l.foldl (fun d wid => d.insert wid (d[wid]?.getD 0 + 1)) d)[w]? =
        if w ∈ l then some (d[w]?.getD 0 + l.count w) else d[w]? := by
    intro l
    induction l with
    | nil => exact fun d => rfl
    | cons x l ih =>
      intro d
      rw [List.foldl_cons, ih, BTree.get_insert]
      by_cases hx : x = w
      · subst hx
        by_cases hl : x ∈ l
        · simp only [if_pos hl, if_true, List.mem_cons_self, Option.getD_some, List.count_cons_self]
          congr 1
          omega
        · simp [hl, List.count_eq_zero_of_not_mem hl]
      · have hmem : w ∈ x :: l ↔ w ∈ l := by simp [Ne.symm hx]
        simp only [if_neg hx, hmem, List.count_cons_of_ne hx]
  have h := hfold wids ∅
  simpa [getFrequencies] using h

theorem mem_getFrequencies {wids : List ℕ} {w : ℕ} : w ∈ (getFrequencies wids).1 ↔ w ∈ wids := by
  rw [BTree.mem_iff, getFrequencies_get]
  by_cases hw : w ∈ wids
  · exact iff_of_true ⟨_, if_pos hw⟩ hw
  · rw [if_neg hw]
    exact iff_of_false (fun ⟨y, hy⟩ => absurd hy.symm (Option.some_ne_none y)) hw

@[simp] theorem getFrequencies_nil : (getFrequencies []).1 = ∅ := rfl

/-! ## What the loops do

Bulk insertion, removal and addition go through words and change one entry at a time. The three
loops of `_reindex_doc` cover the words that are new, those that are gone and those that stay, and
together they rewrite the counts of the document. -/

section loops

variable {W}

/-- A turn of the bulk insertion puts one count into the table. -/
theorem massAddStep_rewritten (cutoff : ℕ) (docid : ℤ) (base : ℤ) (acc : BTree ℕ Doc2Score × ℤ)
    (item : ℕ × ℕ) : WordTable.Rewritten docid [item.1] (fun _ => some item.2)
      ⟨acc.1, base + acc.2⟩
      ⟨(massAddStep cutoff docid acc item).1, base + (massAddStep cutoff docid acc item).2⟩ := by
  rw [massAddStep]
  rcases hs : acc.1[item.1]? with _ | s
  · refine WordTable.rewritten_put ⟨acc.1, base + acc.2⟩ item.1 docid item.2 _ ?_ ?_
    · simp [hs, Doc2Score.set, Doc2Score.scores]
    · rw [if_neg ((BTree.not_mem_iff _).mpr hs), add_assoc]
  · refine WordTable.rewritten_put ⟨acc.1, base + acc.2⟩ item.1 docid item.2 _ ?_ ?_
    · simp [hs]
    · rw [if_pos (BTree.mem_of_get _ hs)]

/-- Bulk insertion puts the counts of a document into the table. -/
theorem massAddWordinfo_rewritten (cutoff : ℕ) (wid2weight : BTree ℕ ℕ) (docid : ℤ) (t : WordTable) :
    t.Rewritten docid wid2weight.keys (fun w => wid2weight[w]?)
      (massAddWordinfo cutoff wid2weight docid t) := by
  have hfold : ∀ (items : List (ℕ × ℕ)) (acc : BTree ℕ Doc2Score × ℤ),
      (∀ e ∈ items, wid2weight[e.1]? = some e.2) →
      WordTable.Rewritten docid (items.map Prod.fst) (fun w => wid2weight[w]?)
        ⟨acc.1, t.wordCount + acc.2⟩
        ⟨(items.foldl (massAddStep cutoff docid) acc).1,
          t.wordCount + (items.foldl (massAddStep cutoff docid) acc).2⟩ := by
    intro items
    induction items with
    | nil => exact fun acc _ => .refl _ _ _
    | cons e items ih =>
      intro acc hget
      have hstep := massAddStep_rewritten cutoff docid t.wordCount acc e
      refine WordTable.Rewritten.trans (hstep.congr fun w hw => ?_)
        (ih _ fun x hx => hget x (List.mem_cons_of_mem _ hx))
      rw [List.mem_singleton.mp hw, hget e List.mem_cons_self]
  have h := hfold wid2weight.toList (t.wordinfo, 0) fun e he =>
    Std.ExtTreeMap.mem_toList_iff_getElem?_eq_some.mp he
  rw [Std.ExtTreeMap.map_fst_toList_eq_keys] at h
  simpa [massAddWordinfo] using h

theorem onWords_apply (x : Py WordTable Unit) {ix : OkapiIndex γ Λ} {t : WordTable}
    (h : x ix.toWordTable = (.ok (), t)) :
    onWords x ix = (.ok (), { ix with toWordTable := t }) := by
  rw [onWords, Py.zoom, h]

/-- The loop that removes counts, when they are there. -/
theorem forEach_delWordinfo {docid : ℤ} {del : ℕ → ℤ → Py WordTable Unit}
    (hdel : ∀ w docid (t : WordTable) f, t.count w docid = some f →
      ∃ t', del w docid t = (.ok (), t') ∧ t.Rewritten docid [w] (fun _ => none) t')
    {l : List ℕ} (hnodup : l.Nodup) {ix : OkapiIndex γ Λ}
    (hcount : ∀ w ∈ l, (ix.count w docid).isSome = true) :
    ∃ t, Py.forEach (fun w => onWords (del w docid)) l ix =
        (.ok (), { ix with toWordTable := t }) ∧ ix.Rewritten docid l (fun _ => none) t := by
  induction l generalizing ix with
  | nil => exact ⟨ix.toWordTable, rfl, .refl _ _ _⟩
  | cons w l ih =>
    obtain ⟨hw, hnodup⟩ := List.nodup_cons.mp hnodup
    obtain ⟨f, hf⟩ := Option.isSome_iff_exists.mp (hcount w List.mem_cons_self)
    obtain ⟨t, hrun, hrew⟩ := hdel w docid ix.toWordTable f hf
    have hrest : ∀ w' ∈ l, (t.count w' docid).isSome = true := by
      intro w' hw'
      have hne : ¬(w' ∈ [w] ∧ docid = docid) := fun h => hw (List.mem_singleton.mp h.1 ▸ hw')
      rw [hrew.count, if_neg hne]
      exact hcount w' (List.mem_cons_of_mem _ hw')
    obtain ⟨t', hruns, hrew'⟩ := @ih hnodup { ix with toWordTable := t } hrest
    exact ⟨t', (Py.bind_of_ok (onWords_apply _ hrun)).trans hruns, hrew.trans hrew'⟩

/-- The loop that adds counts. -/
theorem forEach_addWordinfo (docid : ℤ) (f : ℕ → ℕ) (l : List ℕ) (ix : OkapiIndex γ Λ) :
    ∃ t, Py.forEach (fun w => onWords (Py.modify (Z.addWordinfo w (f w) docid))) l ix =
        (.ok (), { ix with toWordTable := t }) ∧ ix.Rewritten docid l (fun w => some (f w)) t := by
  induction l generalizing ix with
  | nil => exact ⟨ix.toWordTable, rfl, .refl _ _ _⟩
  | cons w l ih =>
    set t := Z.addWordinfo w (f w) docid ix.toWordTable with ht
    have hadd : ix.Rewritten docid [w] (fun w => some (f w)) t :=
      (Z.addWordinfo_spec w (f w) docid ix.toWordTable).congr fun x hx => by
        rw [List.mem_singleton.mp hx]
    have hturn : onWords (Py.modify (Z.addWordinfo w (f w) docid)) ix =
        (.ok (), { ix with toWordTable := t }) := onWords_apply _ rfl
    obtain ⟨t', hrun, hrew⟩ := ih { ix with toWordTable := t }
    exact ⟨t', (Py.bind_of_ok hturn).trans hrun, hadd.trans hrew⟩

/-- The three loops of `_reindex_doc` give a document the counts of its new words. -/
theorem rewritten_reindex {docid : ℤ} {old new : BTree ℕ ℕ} {inBoth : List ℕ}
    (hinBoth : ∀ w, w ∈ inBoth ↔ w ∈ old ∧ w ∈ new) {t t₁ t₂ t₃ : WordTable}
    (hold : ∀ w, t.count w docid = old[w]?)
    (h₁ : t.Rewritten docid (old.keys.filter (· ∉ inBoth)) (fun _ => none) t₁)
    (h₂ : t₁.Rewritten docid (new.keys.filter (· ∉ inBoth)) (fun w => some (new[w]?.getD 0)) t₂)
    (h₃ : t₂.Rewritten docid (inBoth.filter fun w => decide (old[w]? ≠ new[w]?))
      (fun w => some (new[w]?.getD 0)) t₃) :
    (∀ w d, t₃.count w d = if d = docid then new[w]? else t.count w d) ∧ (t.Tidy → t₃.Tidy) := by
  have hget : ∀ w, w ∈ new → some (new[w]?.getD 0) = new[w]? := by
    intro w hw
    obtain ⟨n, hn⟩ := (BTree.mem_iff _).mp hw
    rw [hn, Option.getD_some]
  have honlyOld : ∀ w, w ∈ old.keys.filter (· ∉ inBoth) ↔ w ∈ old ∧ w ∉ new := by
    intro w
    rw [List.mem_filter, decide_eq_true_eq, Std.ExtTreeMap.mem_keys, hinBoth]
    exact ⟨fun h => ⟨h.1, fun hn => h.2 ⟨h.1, hn⟩⟩, fun h => ⟨h.1, fun hb => h.2 hb.2⟩⟩
  have honlyNew : ∀ w, w ∈ new.keys.filter (· ∉ inBoth) ↔ w ∈ new ∧ w ∉ old := by
    intro w
    rw [List.mem_filter, decide_eq_true_eq, Std.ExtTreeMap.mem_keys, hinBoth]
    exact ⟨fun h => ⟨h.1, fun ho => h.2 ⟨ho, h.1⟩⟩, fun h => ⟨h.1, fun hb => h.2 hb.1⟩⟩
  have hchanged : ∀ w, w ∈ inBoth.filter (fun w => decide (old[w]? ≠ new[w]?)) ↔
      (w ∈ old ∧ w ∈ new) ∧ old[w]? ≠ new[w]? := by
    intro w
    rw [List.mem_filter, decide_eq_true_eq, hinBoth]
  -- all three give the new count of the word, if it has one
  have hdel : t.Rewritten docid (old.keys.filter (· ∉ inBoth)) (fun w => new[w]?) t₁ :=
    h₁.congr fun w hw => ((BTree.not_mem_iff _).mp ((honlyOld w).mp hw).2).symm
  have hadd : t₁.Rewritten docid (new.keys.filter (· ∉ inBoth)) (fun w => new[w]?) t₂ :=
    h₂.congr fun w hw => hget w ((honlyNew w).mp hw).1
  have hchg : t₂.Rewritten docid (inBoth.filter fun w => decide (old[w]? ≠ new[w]?))
      (fun w => new[w]?) t₃ := h₃.congr fun w hw => hget w ((hchanged w).mp hw).1.2
  have hall := (hdel.trans hadd).trans hchg
  refine ⟨fun w d => ?_, hall.tidy⟩
  rw [hall.count]
  by_cases hd : d = docid
  · subst hd
    rw [if_pos rfl]
    by_cases hw : w ∈ old.keys.filter (· ∉ inBoth) ++ new.keys.filter (· ∉ inBoth) ++
        inBoth.filter fun w => decide (old[w]? ≠ new[w]?)
    · rw [if_pos ⟨hw, rfl⟩]
    · rw [if_neg fun h => hw h.1, hold]
      simp only [List.mem_append, honlyOld, honlyNew, hchanged] at hw
      by_cases ho : w ∈ old
      · have hn : w ∈ new := by
          by_contra hn
          exact hw (.inl (.inl ⟨ho, hn⟩))
        by_contra hne
        exact hw (.inr ⟨⟨ho, hn⟩, hne⟩)
      · have hn : w ∉ new := fun hn => hw (.inl (.inr ⟨hn, ho⟩))
        rw [(BTree.not_mem_iff _).mp ho, (BTree.not_mem_iff _).mp hn]
  · rw [if_neg hd, if_neg fun h => hd h.2]

end loops

/-! ## What the index should be

Everything that the index keeps can be computed from the word lists. `Indexed` says that it is,
except for the total of the document lengths, which has a predicate of its own, since not every
call keeps it. -/

/-- The stored word list of a document. -/
def words (ix : OkapiIndex γ Λ) (docid : ℤ) : List ℕ := (ix.docwords[docid]?.map W.decode).getD []

/-- All the index keeps is what the stored word lists say, but for `_totaldoclen`. -/
structure Indexed (ix : OkapiIndex γ Λ) : Prop where
  /-- word lists are stored encoded -/
  encoded : ∀ (docid : ℤ) (code : γ), ix.docwords[docid]? = some code →
    ∃ wids, (∀ w ∈ wids, 0 < w) ∧ code = W.encode wids
  /-- the weights are their lengths -/
  docweight : ∀ docid : ℤ, ix.docweight[docid]? =
    ix.docwords[docid]?.map fun code => (W.decode code).length
  /-- words are counted by document -/
  count : ∀ w docid, ix.count w docid = (getFrequencies (words W ix docid)).1[w]?
  /-- and counted -/
  tidy : ix.Tidy
  /-- and so are the documents -/
  documentCount : ix.documentCount = ix.docwords.size

/-- `_totaldoclen` is the sum of the weights. -/
def Balanced (ix : OkapiIndex γ Λ) : Prop := ix.totaldoclen = BTree.total ix.docweight

instance : DecidablePred (Balanced : OkapiIndex γ Λ → Prop) :=
  fun ix => inferInstanceAs (Decidable (ix.totaldoclen = BTree.total ix.docweight))

/-- **The index equals its rebuild**, in everything it keeps. -/
structure EqualsRebuild (ix : OkapiIndex γ Λ) : Prop where
  /-- the word-to-document counts -/
  count : ∀ w docid, ix.count w docid = (rebuild W Z ix).count w docid
  /-- `_docweight` -/
  docweight : ix.docweight = (rebuild W Z ix).docweight
  /-- `_docwords` -/
  docwords : ix.docwords = (rebuild W Z ix).docwords
  /-- `wordCount` -/
  wordCount : ix.wordCount = (rebuild W Z ix).wordCount
  /-- `documentCount` -/
  documentCount : ix.documentCount = (rebuild W Z ix).documentCount
  /-- `_totaldoclen` -/
  totaldoclen : ix.totaldoclen = (rebuild W Z ix).totaldoclen
  /-- which is the sum of `_docweight` -/
  balanced : Balanced ix

/-! ## Indexing a document

`index_doc` adds the weight of a document to the total, and `_reindex_doc` takes the old one off;
so the total is right again only if the document had weighed nothing. All else is as it should be
in both cases. -/

section documents

variable {W} {ix ix' : OkapiIndex γ Λ} {docid : ℤ} {wids : List ℕ}

theorem words_of_get {code : γ} (h : ix.docwords[docid]? = some code) :
    words W ix docid = W.decode code := by
  rw [words, h]
  rfl

theorem words_of_not_mem (h : docid ∉ ix.docwords) : words W ix docid = [] := by
  rw [words, (BTree.not_mem_iff _).mp h]
  rfl

theorem words_insert {code : γ} (h : ix'.docwords = ix.docwords.insert docid code) (d : ℤ) :
    words W ix' d = if docid = d then W.decode code else words W ix d := by
  rw [words, h, BTree.get_insert]
  split <;> rfl

theorem words_erase (h : ix'.docwords = ix.docwords.erase docid) (d : ℤ) :
    words W ix' d = if docid = d then [] else words W ix d := by
  rw [words, h, BTree.get_erase]
  split <;> rfl

theorem Indexed.mem_docweight (h : Indexed W ix) : docid ∈ ix.docweight ↔ docid ∈ ix.docwords := by
  rw [BTree.mem_iff, BTree.mem_iff, h.docweight]
  simp

theorem Indexed.docweight_of_mem (h : Indexed W ix) (hmem : docid ∈ ix.docwords) :
    ix.docweight[docid]? = some (words W ix docid).length := by
  obtain ⟨code, hcode⟩ := (BTree.mem_iff _).mp hmem
  rw [h.docweight, hcode, words_of_get hcode]
  rfl

/-- The index after a word list has been stored for a document, old or new. -/
theorem Indexed.put (h : Indexed W ix) (hpos : ∀ w ∈ wids, 0 < w)
    (hcount : ∀ w d, ix'.count w d =
      if d = docid then (getFrequencies wids).1[w]? else ix.count w d)
    (htidy : ix'.Tidy) (hwords : ix'.docwords = ix.docwords.insert docid (W.encode wids))
    (hweight : ix'.docweight = ix.docweight.insert docid wids.length)
    (hdocs : ix'.documentCount = ix'.docwords.size) : Indexed W ix' := by
  have hdecode : W.decode (W.encode wids) = wids := W.decode_encode wids hpos
  refine ⟨fun d code hcode => ?_, fun d => ?_, fun w d => ?_, htidy, hdocs⟩
  · rw [hwords, BTree.get_insert] at hcode
    by_cases hd : docid = d
    · rw [if_pos hd, Option.some.injEq] at hcode
      exact ⟨wids, hpos, hcode.symm⟩
    · rw [if_neg hd] at hcode
      exact h.encoded d code hcode
  · rw [hweight, hwords, BTree.get_insert, BTree.get_insert]
    by_cases hd : docid = d
    · rw [if_pos hd, if_pos hd, Option.map_some, hdecode]
    · rw [if_neg hd, if_neg hd, h.docweight]
  · rw [hcount, words_insert hwords]
    by_cases hd : docid = d
    · rw [if_pos hd.symm, if_pos hd, hdecode]
    · rw [if_neg (Ne.symm hd), if_neg hd, h.count]

/-- A document without words has no counts. -/
theorem Indexed.count_of_not_mem (h : Indexed W ix) (hnew : docid ∉ ix.docwords) (w : ℕ) :
    ix.count w docid = none := by
  rw [h.count, words_of_not_mem hnew, getFrequencies_nil]
  exact Std.ExtTreeMap.getElem?_empty

theorem Indexed.addDoc (h : Indexed W ix) (cutoff : ℕ) (hnew : docid ∉ ix.docwords)
    (hpos : ∀ w ∈ wids, 0 < w) : Indexed W (addDoc W cutoff docid wids ix) := by
  have hrew := massAddWordinfo_rewritten cutoff (getFrequencies wids).1 docid ix.toWordTable
  refine h.put hpos (fun w d => ?_) (hrew.tidy h.tidy) rfl rfl ?_
  · apply (hrew.count w d).trans
    simp only [Std.ExtTreeMap.mem_keys]
    by_cases hd : d = docid
    · subst hd
      rw [if_pos rfl]
      by_cases hw : w ∈ (getFrequencies wids).1
      · rw [if_pos ⟨hw, rfl⟩]
      · rw [if_neg fun hh => hw hh.1, (BTree.not_mem_iff _).mp hw]
        exact h.count_of_not_mem hnew w
    · rw [if_neg hd, if_neg fun hh => hd hh.2]
  · change ix.documentCount + 1 = ((ix.docwords.insert docid (W.encode wids)).size : ℤ)
    rw [BTree.size_insert_new _ hnew, h.documentCount]
    push_cast
    rfl

theorem Balanced.addDoc (hb : Balanced ix) (cutoff : ℕ) (hnew : docid ∉ ix.docweight) :
    Balanced (addDoc W cutoff docid wids ix) := by
  change ix.totaldoclen + (wids.length : ℤ) =
    (BTree.total (ix.docweight.insert docid wids.length) : ℤ)
  rw [BTree.total_insert, BTree.erase_of_not_mem _ hnew, hb]
  push_cast
  ring

/-! ## Reindexing and unindexing

`_reindex_doc` takes the old length off the total before it has the new words. If the lexicon
raises, the total is all that has changed. -/

/-- The words and counts that `_reindex_doc` leaves. -/
theorem reindexDoc_cases (h : Indexed W ix) (hmem : docid ∈ ix.docwords) (text : τ) :
    (∃ e lexicon, (L.sourceToWordIds ix.lexicon text).1 = .error e ∧
      reindexDoc W L Z docid text ix = (.error e, { ix with
        totaldoclen := ix.totaldoclen + -(words W ix docid).length
        lexicon := lexicon })) ∨
    (∃ wids lexicon t, (L.sourceToWordIds ix.lexicon text).1 = .ok wids ∧
      reindexDoc W L Z docid text ix = (.ok wids.length, { ix with
        toWordTable := t
        docweight := ix.docweight.insert docid wids.length
        docwords := ix.docwords.insert docid (W.encode wids)
        totaldoclen := ix.totaldoclen + -(words W ix docid).length
        lexicon := lexicon }) ∧
      (∀ w d, t.count w d = if d = docid then (getFrequencies wids).1[w]? else ix.count w d) ∧
      t.Tidy) := by
  obtain ⟨code, hcode⟩ := (BTree.mem_iff _).mp hmem
  have hold : words W ix docid = W.decode code := words_of_get hcode
  have hweight := h.docweight_of_mem hmem
  set oldWids := words W ix docid with holdWids
  set ix₁ := changeDocLen (-oldWids.length) ix with hix₁
  have hget : getWords W docid ix₁ = (.ok oldWids, ix₁) := by
    have hcode₁ : ix₁.docwords[docid]? = some code := hcode
    rw [getWords, Py.get_bind_apply, hcode₁, hold]
    rfl
  rw [reindexDoc, Py.get_bind_apply, hweight, Py.ofOption_some, Py.pure_bind_apply,
    Py.modify_bind_apply, ← hix₁, Py.bind_of_ok hget]
  rcases hlex : L.sourceToWordIds ix.lexicon text with ⟨e | wids, lexicon⟩
  · have hsrc : sourceToWordIds L text ix₁ = (.error e, { ix₁ with lexicon := lexicon }) := by
      have hlex₁ : L.sourceToWordIds ix₁.lexicon text = (.error e, lexicon) := hlex
      rw [sourceToWordIds, hlex₁]
    rw [Py.bind_of_error hsrc]
    exact .inl ⟨e, lexicon, rfl, rfl⟩
  · have hsrc : sourceToWordIds L text ix₁ = (.ok wids, { ix₁ with lexicon := lexicon }) := by
      have hlex₁ : L.sourceToWordIds ix₁.lexicon text = (.ok wids, lexicon) := hlex
      rw [sourceToWordIds, hlex₁]
    rw [Py.bind_of_ok hsrc]
    simp only
    set old := (getFrequencies oldWids).1 with hold'
    set new := (getFrequencies wids).1 with hnew'
    set inBoth := old.keys.filter (· ∈ new) with hinBoth
    set onlyOld := old.keys.filter (· ∉ inBoth) with honlyOld
    set onlyNew := new.keys.filter (· ∉ inBoth) with honlyNew
    set changed := inBoth.filter fun w => decide (old[w]? ≠ new[w]?) with hchanged
    set ix₂ : OkapiIndex γ Λ := { ix₁ with lexicon := lexicon } with hix₂
    have hcount₂ : ∀ w, ix₂.count w docid = old[w]? := fun w => h.count w docid
    obtain ⟨t₁, hrun₁, hrew₁⟩ := @forEach_delWordinfo _ _ docid _ Z.delWordinfo_spec
      onlyOld (Std.ExtTreeMap.nodup_keys.filter _) ix₂ fun w hw => by
        have hmem : w ∈ old := Std.ExtTreeMap.mem_keys.mp (List.mem_of_mem_filter hw)
        rw [hcount₂]
        exact Std.ExtTreeMap.mem_iff_isSome_getElem?.mp hmem
    obtain ⟨t₂, hrun₂, hrew₂⟩ := forEach_addWordinfo Z docid (fun w => new[w]?.getD 0) onlyNew
      { ix₂ with toWordTable := t₁ }
    obtain ⟨t₃, hrun₃, hrew₃⟩ := forEach_addWordinfo Z docid (fun w => new[w]?.getD 0) changed
      { ix₂ with toWordTable := t₂ }
    rw [Py.bind_of_ok hrun₁, Py.bind_of_ok hrun₂, Py.forEach_ite, Py.bind_of_ok hrun₃,
      Py.modify_bind_apply, Py.pure_apply]
    have hboth : ∀ w, w ∈ inBoth ↔ w ∈ old ∧ w ∈ new := fun w => by
      rw [hinBoth, List.mem_filter, decide_eq_true_eq, Std.ExtTreeMap.mem_keys]
    obtain ⟨hcount, htidy⟩ := rewritten_reindex hboth hcount₂ hrew₁ hrew₂ hrew₃
    exact .inr ⟨wids, lexicon, t₃, rfl, rfl, hcount, htidy h.tidy⟩

/-- `index_doc` for a document that is new. -/
theorem indexDoc_new (hnew : docid ∉ ix.docwords) (text : τ) :
    (∃ e lexicon, indexDoc W L Z docid text ix = (.error e, { ix with lexicon := lexicon })) ∨
    (∃ wids lexicon, (L.sourceToWordIds ix.lexicon text).1 = .ok wids ∧
      indexDoc W L Z docid text ix = (.ok wids.length,
        OkapiIndex.addDoc W Z.dictCutoff docid wids { ix with lexicon := lexicon })) := by
  rw [indexDoc, Py.get_bind_apply, if_neg hnew]
  rcases hlex : L.sourceToWordIds ix.lexicon text with ⟨e | wids, lexicon⟩
  · have hsrc : sourceToWordIds L text ix = (.error e, { ix with lexicon := lexicon }) := by
      rw [sourceToWordIds, hlex]
    exact .inl ⟨e, lexicon, Py.bind_of_error hsrc⟩
  · have hsrc : sourceToWordIds L text ix = (.ok wids, { ix with lexicon := lexicon }) := by
      rw [sourceToWordIds, hlex]
    exact .inr ⟨wids, lexicon, rfl, Py.bind_of_ok hsrc⟩

/-- What `index_doc` does to the word lists, where it returns. -/
theorem indexDoc_docwords (h : Indexed W ix) {text : τ} {n : ℕ}
    (hrun : indexDoc W L Z docid text ix = (.ok n, ix')) :
    ∃ wids, (L.sourceToWordIds ix.lexicon text).1 = .ok wids ∧
      ix'.docwords = ix.docwords.insert docid (W.encode wids) := by
  by_cases hmem : docid ∈ ix.docwords
  · rw [indexDoc, Py.get_bind_apply, if_pos hmem] at hrun
    rcases reindexDoc_cases L Z h hmem text with
      ⟨e, lexicon, -, hre⟩ | ⟨wids, lexicon, t, hlex, hre, -⟩ <;> rw [hre] at hrun
    · cases hrun
    · obtain ⟨-, rfl⟩ := Prod.mk.inj hrun
      exact ⟨wids, hlex, rfl⟩
  · rcases indexDoc_new L Z hmem text with ⟨e, lexicon, hnew⟩ | ⟨wids, lexicon, hlex, hnew⟩ <;>
      rw [hnew] at hrun
    · cases hrun
    · obtain ⟨-, rfl⟩ := Prod.mk.inj hrun
      exact ⟨wids, hlex, rfl⟩

/-- The total after the weight of a document has been replaced. -/
theorem Indexed.total_insert (h : Indexed W ix) (hmem : docid ∈ ix.docwords) (n : ℕ) :
    BTree.total (ix.docweight.insert docid n) + (words W ix docid).length =
      n + BTree.total ix.docweight := by
  rw [BTree.total_insert, BTree.total_eq_add_erase _ (h.docweight_of_mem hmem)]
  omega

/-- What `unindex_doc` leaves of an indexed document. -/
theorem Indexed.unindexDoc (h : Indexed W ix) (hmem : docid ∈ ix.docwords) :
    ∃ ix', Z.unindexDoc docid ix = (.ok (), ix') ∧ Indexed W ix' ∧
      (Balanced ix → Balanced ix') ∧ ix'.docwords = ix.docwords.erase docid := by
  obtain ⟨code, hcode⟩ := (BTree.mem_iff _).mp hmem
  have hwords : words W ix docid = W.decode code := words_of_get hcode
  have hweight := h.docweight_of_mem hmem
  have hheld : ∀ w, (ix.count w docid).isSome = true ↔ w ∈ W.decode code := by
    intro w
    rw [h.count, ← Std.ExtTreeMap.mem_iff_isSome_getElem?, mem_getFrequencies, hwords]
  obtain ⟨t, hrew, hrun⟩ := Z.unindexDoc_known docid ix code _ hcode hweight hheld
  refine ⟨_, hrun, ⟨fun d code' hcode' => ?_, fun d => ?_, fun w d => ?_, hrew.tidy h.tidy, ?_⟩,
    fun hb => ?_, rfl⟩
  · rw [BTree.get_erase] at hcode'
    by_cases hd : docid = d
    · rw [if_pos hd] at hcode'
      cases hcode'
    · rw [if_neg hd] at hcode'
      exact h.encoded d code' hcode'
  · rw [BTree.get_erase, BTree.get_erase]
    by_cases hd : docid = d
    · rw [if_pos hd, if_pos hd, Option.map_none]
    · rw [if_neg hd, if_neg hd, h.docweight]
  · apply (hrew.count w d).trans
    rw [@words_erase _ _ W ix _ docid rfl]
    by_cases hd : docid = d
    · subst hd
      rw [if_pos rfl, getFrequencies_nil, Std.ExtTreeMap.getElem?_empty]
      by_cases hw : w ∈ W.decode code
      · rw [if_pos ⟨hw, rfl⟩]
      · rw [if_neg fun hh => hw hh.1]
        exact Option.not_isSome_iff_eq_none.mp fun hs => hw ((hheld w).mp hs)
    · rw [if_neg hd, if_neg fun hh => hd hh.2.symm, h.count]
  · have hsize := BTree.size_erase_mem _ hmem
    have hdocs := h.documentCount
    change ix.documentCount - 1 = ((ix.docwords.erase docid).size : ℤ)
    omega
  · have htotal := BTree.total_eq_add_erase _ hweight
    have htd : ix.totaldoclen = (BTree.total ix.docweight : ℤ) := hb
    change ix.totaldoclen - ((words W ix docid).length : ℤ) =
      (BTree.total (ix.docweight.erase docid) : ℤ)
    omega

end documents

/-! ## Histories

`Indexed` holds after every call, so that an index is determined by its word lists and its total.
The rebuilt one has the same word lists, and the right total. -/

/-- The steps that keep `_totaldoclen`: a document that is already indexed is only given a
text without words; and if its new text makes the lexicon raise, it has none. -/
def Sound (ix : OkapiIndex γ Λ) : Op τ → Prop
  | .indexDoc docid text => docid ∈ ix.docwords →
    match (L.sourceToWordIds ix.lexicon text).1 with
    | .ok wids => wids = []
    | .error _ => words W ix docid = []
  | .unindexDoc _ => True

variable {W}

/-- One call leaves everything in step but the total, and that one if the call is sound. -/
theorem Indexed.step {ix : OkapiIndex γ Λ} (h : Indexed W ix) (op : Op τ) :
    Indexed W (machine W L Z ix op).2 ∧
      (Balanced ix → (Balanced (machine W L Z ix op).2 ↔ Sound W L ix op)) := by
  cases op with
  | unindexDoc docid =>
    by_cases hmem : docid ∈ ix.docwords
    · obtain ⟨ix', hrun, h', hb', -⟩ := h.unindexDoc Z hmem
      rw [machine, hrun]
      exact ⟨h', fun hb => iff_of_true (hb' hb) trivial⟩
    · rw [machine, Z.unindexDoc_unknown docid ix hmem]
      exact ⟨h, fun hb => iff_of_true hb trivial⟩
  | indexDoc docid text =>
    have hsnd : (machine W L Z ix (.indexDoc docid text)).2 = (indexDoc W L Z docid text ix).2 := rfl
    rw [hsnd]
    by_cases hmem : docid ∈ ix.docwords
    · have hrun : indexDoc W L Z docid text ix = reindexDoc W L Z docid text ix := by
        rw [indexDoc, Py.get_bind_apply, if_pos hmem]
      rw [hrun]
      rcases reindexDoc_cases L Z h hmem text with
        ⟨e, lexicon, hlex, hre⟩ | ⟨wids, lexicon, t, hlex, hre, hcount, htidy⟩ <;> rw [hre]
      · refine ⟨⟨h.encoded, h.docweight, h.count, h.tidy, h.documentCount⟩, fun hb => ?_⟩
        have hsound : Sound W L ix (.indexDoc docid text) ↔ words W ix docid = [] := by
          simp only [Sound, hlex, hmem, forall_const]
        have htd : ix.totaldoclen = (BTree.total ix.docweight : ℤ) := hb
        rw [hsound, ← List.length_eq_zero_iff, Balanced]
        simp only [htd]
        omega
      · have hpos : ∀ w ∈ wids, 0 < w := L.positive ix.lexicon text wids hlex
        refine ⟨h.put hpos hcount htidy rfl rfl ?_, fun hb => ?_⟩
        · change ix.documentCount = ((ix.docwords.insert docid (W.encode wids)).size : ℤ)
          rw [Std.ExtTreeMap.size_insert, if_pos (by simpa using hmem), h.documentCount]
        · have hsound : Sound W L ix (.indexDoc docid text) ↔ wids = [] := by
            simp only [Sound, hlex, hmem, forall_const]
          have htd : ix.totaldoclen = (BTree.total ix.docweight : ℤ) := hb
          have htotal := h.total_insert hmem wids.length
          rw [hsound, ← List.length_eq_zero_iff, Balanced]
          simp only [htd]
          omega
    · have hsound : Sound W L ix (.indexDoc docid text) := fun hm => absurd hm hmem
      rcases indexDoc_new L Z hmem text with ⟨e, lexicon, hrun⟩ | ⟨wids, lexicon, hlex, hrun⟩ <;>
        rw [hrun]
      · exact ⟨⟨h.encoded, h.docweight, h.count, h.tidy, h.documentCount⟩,
          fun hb => iff_of_true hb hsound⟩
      · have h' : Indexed W { ix with lexicon := lexicon } :=
          ⟨h.encoded, h.docweight, h.count, h.tidy, h.documentCount⟩
        have hnew : docid ∉ ix.docweight := fun hm => hmem (h.mem_docweight.mp hm)
        have hpos : ∀ w ∈ wids, 0 < w := L.positive ix.lexicon text wids hlex
        have hb' : Balanced ix → Balanced { ix with lexicon := lexicon } := id
        exact ⟨h'.addDoc Z.dictCutoff hmem hpos,
          fun hb => iff_of_true ((hb' hb).addDoc Z.dictCutoff hnew) hsound⟩

theorem indexed_empty (lexicon : Λ) : Indexed W (empty lexicon : OkapiIndex γ Λ) where
  encoded docid code h := by simp [empty] at h
  docweight docid := by simp [empty]
  count w docid := by simp [empty, WordTable.count, words]
  tidy := ⟨by simp [empty], fun w s h => by simp [empty] at h⟩
  documentCount := by simp [empty]

theorem balanced_empty (lexicon : Λ) : Balanced (empty lexicon : OkapiIndex γ Λ) := by
  simp [Balanced, empty]

/-- **All but the total**: whatever is indexed and unindexed, the words, the weights and the
other totals are those of the stored word lists. -/
theorem indexed_states (lexicon : Λ) (ops : List (Op τ)) :
    ∀ ix ∈ (machine W L Z).states (empty lexicon) ops, Indexed W ix :=
  Machine.states_inv (fun _ op h => (h.step L Z op).1) (indexed_empty lexicon) ops

/-- Documents that are added one after the other. -/
theorem addDoc_fold (cutoff : ℕ) {items : List (ℤ × γ)}
    (hpair : items.Pairwise fun x y => x.1 ≠ y.1)
    (hcode : ∀ e ∈ items, ∃ wids, (∀ w ∈ wids, 0 < w) ∧ e.2 = W.encode wids)
    {jx : OkapiIndex γ Λ} (h : Indexed W jx) (hb : Balanced jx)
    (hnew : ∀ e ∈ items, e.1 ∉ jx.docwords) :
    Indexed W (items.foldl (fun jx e => addDoc W cutoff e.1 (W.decode e.2) jx) jx) ∧
      Balanced (items.foldl (fun jx e => addDoc W cutoff e.1 (W.decode e.2) jx) jx) ∧
      ∀ (docid : ℤ) (code : γ),
        (items.foldl (fun jx e => addDoc W cutoff e.1 (W.decode e.2) jx) jx).docwords[docid]? =
          some code ↔ (docid, code) ∈ items ∨ jx.docwords[docid]? = some code := by
  induction items generalizing jx with
  | nil => exact ⟨h, hb, fun docid code => by simp⟩
  | cons e items ih =>
    obtain ⟨hne, hpair⟩ := List.pairwise_cons.mp hpair
    obtain ⟨wids, hpos, henc⟩ := hcode e List.mem_cons_self
    have hdec : W.decode e.2 = wids := by rw [henc, W.decode_encode wids hpos]
    have hfresh : e.1 ∉ jx.docwords := hnew e List.mem_cons_self
    have hwords : (addDoc W cutoff e.1 (W.decode e.2) jx).docwords = jx.docwords.insert e.1 e.2 := by
      rw [hdec, henc]
      rfl
    have h' : Indexed W (addDoc W cutoff e.1 (W.decode e.2) jx) :=
      h.addDoc cutoff hfresh (hdec ▸ hpos)
    have hb' : Balanced (addDoc W cutoff e.1 (W.decode e.2) jx) :=
      hb.addDoc cutoff fun hm => hfresh (h.mem_docweight.mp hm)
    have hnew' : ∀ x ∈ items, x.1 ∉ (addDoc W cutoff e.1 (W.decode e.2) jx).docwords := by
      intro x hx
      rw [hwords, BTree.mem_insert]
      rintro (heq | hm)
      · exact hne x hx heq.symm
      · exact hnew x (List.mem_cons_of_mem _ hx) hm
    obtain ⟨hi, hbal, hget⟩ := ih hpair (fun x hx => hcode x (List.mem_cons_of_mem _ hx)) h' hb' hnew'
    refine ⟨hi, hbal, fun docid code => (hget docid code).trans ?_⟩
    rw [hwords, BTree.get_insert, List.mem_cons]
    by_cases hd : e.1 = docid
    · subst hd
      have hnone : jx.docwords[e.1]? = none := (BTree.not_mem_iff _).mp hfresh
      rw [if_pos rfl, hnone]
      refine ⟨?_, ?_⟩
      · rintro (hm | hc)
        · exact .inl (.inr hm)
        · exact .inl (.inl (Prod.ext rfl (Option.some.inj hc).symm))
      · rintro ((heq | hm) | hc)
        · exact .inr (by rw [← heq])
        · exact .inl hm
        · cases hc
    · rw [if_neg hd]
      refine ⟨?_, ?_⟩
      · rintro (hm | hc)
        · exact .inl (.inr hm)
        · exact .inr hc
      · rintro ((heq | hm) | hc)
        · exact absurd (congrArg Prod.fst heq).symm hd
        · exact .inl hm
        · exact .inr hc

/-- The rebuilt index is in order, with the same word lists. -/
theorem Indexed.rebuild {ix : OkapiIndex γ Λ} (h : Indexed W ix) :
    Indexed W (OkapiIndex.rebuild W Z ix) ∧ Balanced (OkapiIndex.rebuild W Z ix) ∧
      (OkapiIndex.rebuild W Z ix).docwords = ix.docwords := by
  obtain ⟨hi, hb, hget⟩ := @addDoc_fold _ _ W Z.dictCutoff ix.docwords.toList
    (Std.ExtTreeMap.distinct_keys_toList.imp fun hne heq => hne (by simp [heq]))
    (fun e he => h.encoded e.1 e.2 (Std.ExtTreeMap.mem_toList_iff_getElem?_eq_some.mp he))
    (empty ix.lexicon) (indexed_empty _) (balanced_empty _) (fun e _ => by simp [empty])
  refine ⟨hi, hb, Std.ExtTreeMap.ext_getElem? fun docid => Option.ext fun code => ?_⟩
  apply (hget docid code).trans
  rw [Std.ExtTreeMap.mem_toList_iff_getElem?_eq_some]
  simp [empty]

/-- An index in order equals its rebuild if and only if the total is right. -/
theorem Indexed.equalsRebuild_iff {ix : OkapiIndex γ Λ} (h : Indexed W ix) :
    EqualsRebuild W Z ix ↔ Balanced ix := by
  obtain ⟨hi, hb, hdoc⟩ := h.rebuild Z
  have hwords : ∀ docid, words W ix docid = words W (OkapiIndex.rebuild W Z ix) docid := fun docid => by
    rw [words, words, hdoc]
  have hcount : ∀ w docid, ix.count w docid = (OkapiIndex.rebuild W Z ix).count w docid := by
    intro w docid
    rw [h.count, hi.count, hwords]
  have hweight : ix.docweight = (OkapiIndex.rebuild W Z ix).docweight := by
    refine Std.ExtTreeMap.ext_getElem? fun docid => ?_
    rw [h.docweight, hi.docweight, hdoc]
  refine ⟨fun he => he.balanced, fun hbal => ⟨hcount, hweight, hdoc.symm,
    h.tidy.wordCount_eq hi.tidy hcount, ?_, ?_, hbal⟩⟩
  · rw [h.documentCount, hi.documentCount, hdoc]
  · rw [show ix.totaldoclen = _ from hbal, show (OkapiIndex.rebuild W Z ix).totaldoclen = _ from hb,
      hweight]

/-- **The index equals its rebuild, exactly**: in every state of a history if and only if
no document that is indexed is given a text with words. -/
theorem equals_rebuild_iff (lexicon : Λ) (ops : List (Op τ)) :
    (∀ ix ∈ (machine W L Z).states (empty lexicon) ops, EqualsRebuild W Z ix) ↔
      (machine W L Z).Along (Sound W L) (empty lexicon) ops := by
  have hstep : ∀ (ix : OkapiIndex γ Λ) op, Indexed W ix → EqualsRebuild W Z ix →
      (EqualsRebuild W Z (machine W L Z ix op).2 ↔ Sound W L ix op) := by
    intro ix op h he
    obtain ⟨h', hiff⟩ := h.step L Z op
    rw [h'.equalsRebuild_iff Z, hiff he.balanced]
  exact Machine.states_inv_iff_along (fun ix op h _ _ => (h.step L Z op).1) hstep (indexed_empty _)
    (((indexed_empty _).equalsRebuild_iff Z).mpr (balanced_empty _)) ops

/-! ## A base class

Methods that do what the descriptions say, so that the assumptions can be met. -/

/-- `_add_wordinfo`. -/
def addWordinfo (cutoff wid f : ℕ) (docid : ℤ) (t : WordTable) : WordTable :=
  let (wordinfo, wordCount) := massAddStep cutoff docid (t.wordinfo, t.wordCount) (wid, f)
  ⟨wordinfo, wordCount⟩

/-- `_del_wordinfo`: a word without documents is deleted. -/
def delWordinfo (wid : ℕ) (docid : ℤ) : Py WordTable Unit := do
  let t ← Py.get
  let doc2score ← Py.ofOption .keyError t.wordinfo[wid]?
  if docid ∈ doc2score.scores then
    let doc2score := doc2score.del docid
    Py.modify fun t =>
      if doc2score.scores = ∅ then ⟨t.wordinfo.erase wid, t.wordCount - 1⟩
      else { t with wordinfo := t.wordinfo.insert wid doc2score }
  else Py.raise .keyError

variable (W) in
/-- `unindex_doc`. -/
def unindexDoc (docid : ℤ) : Py (OkapiIndex γ Λ) Unit := do
  let ix ← Py.get
  if docid ∈ ix.docwords then
    let docweight ← Py.ofOption .keyError ix.docweight[docid]?
    Py.modify (changeDocLen (-docweight))
    let wids ← getWords W docid
    Py.forEach (fun wid => onWords (delWordinfo wid docid)) (getFrequencies wids).1.keys
    Py.modify fun ix => { ix with
      docweight := ix.docweight.erase docid
      docwords := ix.docwords.erase docid
      documentCount := ix.documentCount - 1 }
  else pure ()

theorem delWordinfo_rewritten (wid : ℕ) (docid : ℤ) (t : WordTable) (f : ℕ)
    (h : t.count wid docid = some f) :
    ∃ t', delWordinfo wid docid t = (.ok (), t') ∧
      t.Rewritten docid [wid] (fun _ => none) t' := by
  obtain ⟨s, hs, hf⟩ := Option.bind_eq_some_iff.mp h
  have hmem : docid ∈ s.scores := BTree.mem_of_get _ hf
  have hwid : wid ∈ t.wordinfo := BTree.mem_of_get _ hs
  have hrun : delWordinfo wid docid t = (.ok (),
      if (s.del docid).scores = ∅ then ⟨t.wordinfo.erase wid, t.wordCount - 1⟩
      else { t with wordinfo := t.wordinfo.insert wid (s.del docid) }) := by
    rw [delWordinfo, Py.get_bind_apply, hs, Py.ofOption_some, Py.pure_bind_apply, if_pos hmem]
    rfl
  by_cases he : (s.del docid).scores = ∅
  · rw [if_pos he] at hrun
    refine ⟨_, hrun, fun w d => ?_, fun ht => ⟨?_, fun w s' hs' => ?_⟩⟩
    · simp only [WordTable.count, BTree.get_erase, List.mem_singleton]
      by_cases hw : wid = w
      · subst hw
        rw [if_pos rfl, Option.bind_none, hs, Option.bind_some]
        by_cases hd : d = docid
        · rw [if_pos ⟨rfl, hd⟩]
        · have hget : (s.del docid).scores[d]? = s.scores[d]? := by
            rw [Doc2Score.scores_del, BTree.get_erase_ne _ (Ne.symm hd)]
          rw [if_neg fun hh => hd hh.2, ← hget, he, Std.ExtTreeMap.getElem?_empty]
      · rw [if_neg hw, if_neg fun hh => hw hh.1.symm]
    · have hsize := BTree.size_erase_mem _ hwid
      have hcount := ht.wordCount
      change t.wordCount - 1 = ((t.wordinfo.erase wid).size : ℤ)
      omega
    · rw [BTree.get_erase] at hs'
      by_cases hw : wid = w
      · rw [if_pos hw] at hs'
        cases hs'
      · rw [if_neg hw] at hs'
        exact ht.occurs w s' hs'
  · rw [if_neg he] at hrun
    refine ⟨_, hrun, fun w d => ?_, fun ht => ⟨?_, fun w s' hs' => ?_⟩⟩
    · simp only [WordTable.count, BTree.get_insert, List.mem_singleton]
      by_cases hw : wid = w
      · subst hw
        rw [if_pos rfl, Option.bind_some, Doc2Score.scores_del, BTree.get_erase, hs,
          Option.bind_some]
        by_cases hd : docid = d
        · rw [if_pos hd, if_pos ⟨rfl, hd.symm⟩]
        · rw [if_neg hd, if_neg fun hh => hd hh.2.symm]
      · rw [if_neg hw, if_neg fun hh => hw hh.1.symm]
    · change t.wordCount = ((t.wordinfo.insert wid (s.del docid)).size : ℤ)
      rw [ht.wordCount, Std.ExtTreeMap.size_insert, if_pos (by simpa using hwid)]
    · rw [BTree.get_insert] at hs'
      by_cases hw : wid = w
      · rw [if_pos hw, Option.some.injEq] at hs'
        subst hs'
        by_contra hnone
        refine he (Std.ExtTreeMap.ext_getElem? fun d => ?_)
        rw [Std.ExtTreeMap.getElem?_empty, ← BTree.not_mem_iff]
        exact fun hd => hnone ⟨d, hd⟩
      · rw [if_neg hw] at hs'
        exact ht.occurs w s' hs'

theorem addWordinfo_rewritten (cutoff wid f : ℕ) (docid : ℤ) (t : WordTable) :
    t.Rewritten docid [wid] (fun _ => some f) (addWordinfo cutoff wid f docid t) := by
  have h := massAddStep_rewritten cutoff docid 0 (t.wordinfo, t.wordCount) (wid, f)
  simp only [zero_add] at h
  exact h

/-- The methods of the base class, with the usual cutoff. -/
def okapiBase (W : Widcode γ) (Λ : Type) : Inherited W Λ where
  dictCutoff := 10
  addWordinfo := addWordinfo 10
  addWordinfo_spec := addWordinfo_rewritten 10
  delWordinfo := delWordinfo
  delWordinfo_spec := delWordinfo_rewritten
  unindexDoc := unindexDoc W
  unindexDoc_unknown docid ix h := by
    rw [unindexDoc, Py.get_bind_apply, if_neg h]
    rfl
  unindexDoc_known docid ix code n hcode hweight hheld := by
    have hget : getWords W docid (changeDocLen (-n) ix) =
        (.ok (W.decode code), changeDocLen (-n) ix) := by
      have hcode' : (changeDocLen (-n) ix).docwords[docid]? = some code := hcode
      rw [getWords, Py.get_bind_apply, hcode']
      rfl
    obtain ⟨t, hrun, hrew⟩ := @forEach_delWordinfo _ _ docid _ delWordinfo_rewritten
      (getFrequencies (W.decode code)).1.keys Std.ExtTreeMap.nodup_keys (changeDocLen (-n) ix)
      fun w hw => (hheld w).mpr (mem_getFrequencies.mp (Std.ExtTreeMap.mem_keys.mp hw))
    refine ⟨t, ⟨fun w d => ?_, hrew.tidy⟩, ?_⟩
    · apply (hrew.count w d).trans
      simp only [Std.ExtTreeMap.mem_keys, mem_getFrequencies]
      rfl
    · rw [unindexDoc, Py.get_bind_apply, if_pos (BTree.mem_of_get _ hcode), hweight,
        Py.ofOption_some, Py.pure_bind_apply, Py.modify_bind_apply, Py.bind_of_ok hget,
        Py.bind_of_ok hrun]
      rfl

open IncrementalLuceneIndex (plainWidcode plainLexicon)

/-- Document 1 is indexed twice with one word: it still weighs 1, but the total is 0. -/
theorem indexDoc_twice :
    ¬ ∀ ix ∈ (machine plainWidcode plainLexicon (okapiBase plainWidcode Unit)).states (empty ())
        [.indexDoc 1 [4], .indexDoc 1 [4]],
      EqualsRebuild plainWidcode (okapiBase plainWidcode Unit) ix := by
  intro h
  have hbal := (h _ (Machine.final_mem_states _ _ _)).balanced
  exact absurd hbal (by decide +kernel)

end OkapiIndex

end Zerodb
