import Zerodb.UnionBounds

/-!
# UnionOrder: how far documents are out of order

No document should come three places or more after one with a smaller total score. The loop
checks that when it computes a window: no element may exceed the lower bound of one three
places before it, and no unread document that of the third element from the end. The check
has gaps: it does not compare the last element with the one three places before it, nor the
documents that are cached outside the window with the elements of it; for a short window it
does not look at unread documents; and a new window forgets the documents that were yielded
last, after which an element of the old window may be put off.

* `Closed` — nothing is in the gaps of the check of a new window;
* `order_bound` — where that is so in every round, the bound holds in the whole run.
-/

namespace Zerodb

namespace RankedUnion

variable {K : Type} [Field K] [LinearOrder K]

/-! ## The gaps of the check

The condition has one part for each gap. It is on the state in which a window is computed and on
the elements that have been yielded by then, and it is decidable. -/

/-- Nothing is in the gaps of the check of a new window, after some elements have been taken,
the latest first. -/
structure Closed (past : List (Entry K)) (s : State K) : Prop where
  /-- the last element, and the one three places before it -/
  last : orderViolation < (freshWindow s).length →
    ∀ f ∈ (freshWindow s)[(freshWindow s).length - orderViolation - 1]?,
      ∀ e ∈ (freshWindow s).getLast?, e.maxw ≤ f.minw
  /-- documents that are cached outside the window -/
  cached : ∀ p ∈ s.pool.sortedMins.toList.drop orderSize,
    ∀ f ∈ (freshWindow s)[(freshWindow s).length - orderViolation]?, (s.entry p).maxw ≤ f.minw
  /-- unread documents, behind a short window -/
  unread : (freshWindow s).length < orderSize →
    (∃ t ∈ s.terms, ∃ p ∈ t.rest, p.docid ∉ s.pool.used ∧ p.docid ∉ s.pool.minsDict) →
    ∀ f ∈ (freshWindow s)[(freshWindow s).length - orderViolation]?, maxSum s.terms ≤ f.minw
  /-- the next elements of the old window, put off, and the last two documents yielded -/
  moved : ∀ k < 2, ∀ y ∈ past[k]?, ∀ f ∈ s.window.take (2 - k),
    f.docid ∉ ((freshWindow s).take (2 - k)).map Entry.docid → f.maxw ≤ y.minw

/-- At the start of a round: if it computes a new window, nothing is in the gaps. -/
def ClosedAt (past : List (Entry K)) (s : State K) : Prop :=
  ∀ updated s', prepare s = .ok (updated, s') → Refreshes updated s' → Closed past s'

/-- Nothing is in the gaps in any round of a run. -/
def ClosedRun (fuel : ℕ) (s : State K) (past : List (Entry K)) : Prop :=
  ∀ k s', (heads fuel s)[k]? = some s' → ClosedAt (((popped fuel s).take k).reverse ++ past) s'

instance (past : List (Entry K)) (s : State K) : Decidable (Closed past s) :=
  decidable_of_iff (_ ∧ _ ∧ _ ∧ _) ⟨fun h => ⟨h.1, h.2.1, h.2.2.1, h.2.2.2⟩,
    fun h => ⟨h.last, h.cached, h.unread, h.moved⟩⟩

instance (past : List (Entry K)) (s : State K) : Decidable (ClosedAt past s) :=
  match hprep : prepare s with
  | .error e => .isTrue fun updated s' h => by
    rw [hprep] at h
    cases h
  | .ok (updated, s') =>
    decidable_of_iff (Refreshes updated s' → Closed past s') ⟨fun hclosed updated' s'' h => by
      rw [hprep] at h
      cases h
      exact hclosed, fun hclosed => hclosed updated s' hprep⟩

instance (fuel : ℕ) (s : State K) (past : List (Entry K)) : Decidable (ClosedRun fuel s past) :=
  decidable_of_iff (∀ x ∈ (heads fuel s).zipIdx,
      ClosedAt (((popped fuel s).take x.2).reverse ++ past) x.1) ⟨fun h k s' hk =>
        h (s', k) (List.mem_zipIdx_iff_getElem?.mpr hk), fun h x hx =>
        h x.2 x.1 (List.mem_zipIdx_iff_getElem?.mp hx)⟩

/-! ## Documents that come later

The documents that a state will still yield, without regard to the order. -/

/-- The documents that are yielded from a state on. -/
def Later (s : State K) (docid : ℤ) : Prop := ∃ fuel, docid ∈ (popped fuel s).map Entry.docid

theorem popped_succ {s s' : State K} {y : ℤ × K} {e : Entry K}
    (hrun : iteration s = .ok (some (y, s'))) (hnext : nextEntry s = some e) (fuel : ℕ) :
    popped (fuel + 1) s = e :: popped fuel s' := by
  simp only [popped, hrun, hnext]

theorem Later.step {s s' : State K} {y : ℤ × K} {e : Entry K} {docid : ℤ} (h : Later s' docid)
    (hrun : iteration s = .ok (some (y, s'))) (hnext : nextEntry s = some e) : Later s docid := by
  obtain ⟨fuel, hmem⟩ := h
  refine ⟨fuel + 1, ?_⟩
  rw [popped_succ hrun hnext]
  exact List.mem_cons_of_mem _ hmem

/-! ## Windows in order

A window bounds what comes after it by its lower bounds: an element by the one three places
before, a document outside by all but the last two. Taking the first element off keeps this. -/

/-- The elements of a window are in order, and so are the documents that come later without
being in it. -/
structure Ranked (L : List (WeightedTree K)) (later : ℤ → Prop) (window : List (Entry K)) : Prop where
  /-- the elements -/
  inside : ∀ (i j : ℕ) (f e : Entry K), window[i]? = some f → window[j]? = some e →
    i + orderViolation ≤ j → totalScore L e.docid ≤ f.minw
  /-- the documents -/
  outside : ∀ docid, later docid → docid ∉ window.map Entry.docid → ∀ (i : ℕ) (f : Entry K),
    window[i]? = some f → i + orderViolation ≤ window.length → totalScore L docid ≤ f.minw

section Ranked

variable {L : List (WeightedTree K)} {later later' : ℤ → Prop} {e : Entry K}
  {window : List (Entry K)}

/-- The first element is taken. -/
theorem Ranked.tail (h : Ranked L later (e :: window))
    (hlater : ∀ d, later' d → later d ∧ d ≠ e.docid) : Ranked L later' window where
  inside i j f g hf hg hij := h.inside (i + 1) (j + 1) f g hf hg (by omega)
  outside d hd hout i f hf hi := by
    obtain ⟨hd, hne⟩ := hlater d hd
    refine h.outside d hd ?_ (i + 1) f hf (by rw [List.length_cons]; omega)
    rw [List.map_cons, List.mem_cons, not_or]
    exact ⟨hne, hout⟩

/-- What comes after it, but for the next two elements. -/
theorem Ranked.head (h : Ranked L later (e :: window))
    (hhead : ∀ d, later d → d ∉ (e :: window).map Entry.docid → totalScore L d ≤ e.minw)
    {d : ℤ} (hd : later d) (hne : d ≠ e.docid) (hout : d ∉ (window.take 2).map Entry.docid) :
    totalScore L d ≤ e.minw := by
  by_cases hin : d ∈ window.map Entry.docid
  · obtain ⟨f, hf, rfl⟩ := List.mem_map.mp hin
    obtain ⟨j, hj⟩ := List.mem_iff_getElem?.mp hf
    apply h.inside 0 (j + 1) e f rfl hj
    by_contra hsmall
    refine hout (List.mem_map_of_mem (List.mem_iff_getElem?.mpr ⟨j, ?_⟩))
    rw [orderViolation] at hsmall
    rw [List.getElem?_take_of_lt (by omega), hj]
  · apply hhead d hd
    rw [List.map_cons, List.mem_cons, not_or]
    exact ⟨hne, hin⟩

end Ranked

/-! ## New windows

The check compares upper bounds with lower bounds of the elements before. Where nothing is in its
gaps, a window that passes is in order. -/

/-- What the check has found when it lets a window pass. -/
theorem violated_eq_false {terms : List (Term K)} {window : List (Entry K)}
    (h : violated terms window = false) :
    (∀ (i j : ℕ) (f e : Entry K), window[i]? = some f → window[j]? = some e →
      i < window.length - orderViolation - 1 → i + orderViolation ≤ j → e.maxw ≤ f.minw) ∧
      (window.length = orderSize → ∀ f ∈ window[window.length - orderViolation]?,
        maxSum terms ≤ f.minw) := by
  rw [violated, Bool.or_eq_false_iff] at h
  obtain ⟨hpairs, hlast⟩ := h
  refine ⟨?_, ?_⟩
  · intro i j f e hf he hi hij
    have hrow := List.any_eq_false.mp hpairs i (List.mem_range.mpr hi)
    have hmem : e ∈ window.drop (i + orderViolation) := by
      refine List.mem_iff_getElem?.mpr ⟨j - (i + orderViolation), ?_⟩
      rw [List.getElem?_drop, Nat.add_sub_cancel' hij, he]
    have hpair := List.any_eq_false.mp (Bool.eq_false_iff.mpr hrow) e hmem
    rw [hf] at hpair
    simpa using hpair
  · intro hlen f hf
    rw [hlen, Option.mem_def] at hf
    simpa [hlen, hf] using hlast

section Fresh

variable [IsStrictOrderedRing K] {L : List (WeightedTree K)} {s : State K}

/-- The lower bounds of a window go down. -/
theorem freshWindow_sorted (s : State K) {i j : ℕ} {f e : Entry K}
    (hf : (freshWindow s)[i]? = some f) (he : (freshWindow s)[j]? = some e) (hij : i ≤ j) :
    e.minw ≤ f.minw := by
  have hpairwise : (freshWindow s).Pairwise fun f e => e.minw ≤ f.minw := by
    rw [freshWindow_eq, List.pairwise_map]
    exact ((pairwise_score_toList _).sublist (List.take_sublist _ _)).imp fun hle => neg_le_neg hle
  rcases hij.lt_or_eq with hlt | rfl
  · obtain ⟨hi, rfl⟩ := List.getElem?_eq_some_iff.mp hf
    obtain ⟨hj, rfl⟩ := List.getElem?_eq_some_iff.mp he
    exact List.pairwise_iff_getElem.mp hpairwise i j hi hj hlt
  · rw [hf] at he
    exact (congrArg Entry.minw (Option.some.inj he)).ge

/-- Where nothing is in the gaps, the documents outside a new window are bounded by the third
element from its end. -/
theorem Closed.outside_le {past : List (Entry K)} (hclosed : Closed past s) (h : Sound L s)
    (hviolated : violated s.terms (freshWindow s) = false) {d : ℤ} (hd : d ∉ s.pool.used)
    (hocc : Occurs L d) (hout : d ∉ (freshWindow s).map Entry.docid) :
    ∀ f ∈ (freshWindow s)[(freshWindow s).length - orderViolation]?, totalScore L d ≤ f.minw := by
  intro f hf
  by_cases hmins : d ∈ s.pool.minsDict
  · -- cached outside the window
    obtain ⟨x, hx⟩ := (BTree.mem_iff _).mp hmins
    have hp : (⟨-x, d⟩ : Posting K) ∈ s.pool.sortedMins := by
      rw [h.core.sorted, hx, neg_neg]
    have hlist := Std.ExtTreeSet.mem_toList.mpr hp
    rw [← List.take_append_drop orderSize s.pool.sortedMins.toList, List.mem_append] at hlist
    rcases hlist with htake | hdrop
    · exact absurd (List.mem_map_of_mem (List.mem_map_of_mem htake)) hout
    · exact (h.entry_bounds hp).2.trans (hclosed.cached _ hdrop f hf)
  · -- not read yet
    have hle := h.totalScore_le hd hmins
    have hlen : (freshWindow s).length ≤ orderSize := by
      rw [freshWindow_eq, List.length_map]
      exact List.length_take_le _ _
    rcases hlen.lt_or_eq with hshort | hfull
    · rcases h.core.cases_of_occurs h.sources hocc with hu | hm | ⟨t, ht, p, hp, rfl⟩
      · exact absurd hu hd
      · exact absurd hm hmins
      · exact hle.trans (hclosed.unread hshort ⟨t, ht, p, hp, hd, hmins⟩ f hf)
    · exact hle.trans ((violated_eq_false hviolated).2 hfull f hf)

/-- Where nothing is in the gaps, a new window that passes the check is in order, also for
its first element. -/
theorem Closed.ranked {past : List (Entry K)} {later : ℤ → Prop} (hclosed : Closed past s)
    (h : Sound L s) (hviolated : violated s.terms (freshWindow s) = false)
    (hlater : ∀ d, later d → d ∉ s.pool.used ∧ Occurs L d) :
    Ranked L later (freshWindow s) ∧
      ∀ d, later d → d ∉ (freshWindow s).map Entry.docid → ∀ f ∈ (freshWindow s).head?,
        totalScore L d ≤ f.minw := by
  have hbounds : ∀ e ∈ freshWindow s, e.Bounds L := by
    intro e he
    obtain ⟨p, hp, rfl⟩ := List.mem_map.mp he
    exact h.entry_bounds (Std.ExtTreeSet.mem_toList.mp (List.mem_of_mem_take hp))
  -- the elements that far from the end bound what is outside, and those before have more
  have hbefore : ∀ d, later d → d ∉ (freshWindow s).map Entry.docid → ∀ (i : ℕ) (f : Entry K),
      (freshWindow s)[i]? = some f → i ≤ (freshWindow s).length - orderViolation →
      totalScore L d ≤ f.minw := by
    intro d hd hout i f hf hi
    obtain ⟨hused, hocc⟩ := hlater d hd
    have hlt : i < (freshWindow s).length := (List.getElem?_eq_some_iff.mp hf).1
    have hlt' : (freshWindow s).length - orderViolation < (freshWindow s).length := by
      rw [orderViolation]
      omega
    have hg := List.getElem?_eq_getElem hlt'
    exact (hclosed.outside_le h hviolated hused hocc hout _ hg).trans
      (freshWindow_sorted s hf hg hi)
  refine ⟨⟨fun i j f e hf he hij => ?_, fun d hd hout i f hf hi => ?_⟩, fun d hd hout f hf => ?_⟩
  · refine ((hbounds e (List.mem_iff_getElem?.mpr ⟨j, he⟩)).2).trans ?_
    have hj : j < (freshWindow s).length := (List.getElem?_eq_some_iff.mp he).1
    by_cases hi : i < (freshWindow s).length - orderViolation - 1
    · exact (violated_eq_false hviolated).1 i j f e hf he hi hij
    · -- the pair that the check leaves out
      have hi' : i = (freshWindow s).length - orderViolation - 1 := by omega
      have hj' : j = (freshWindow s).length - 1 := by omega
      apply hclosed.last (by omega) f (hi' ▸ hf) e
      rw [List.getLast?_eq_getElem?, ← hj']
      exact he
  · exact hbefore d hd hout i f hf (by omega)
  · refine hbefore d hd hout 0 f ?_ (Nat.zero_le _)
    rw [← List.head?_eq_getElem?]
    exact hf

end Fresh

/-! ## Kept windows

A short window is kept only when so few documents are cached that no more are read; one that is
outside then stays outside. -/

/-- A document outside a short window that is kept is never yielded. -/
theorem stuck_of_kept {s : State K} (hlen : s.cacheLen = some (cachedCount s.terms : ℤ))
    (hlive : ∀ t ∈ s.terms, t.iter.isSome = true → cacheSize ≤ 2 * t.cache.size)
    (hr : ¬Refreshes false s) (hshort : s.window.length < orderViolation) {d : ℤ}
    (hout : d ∉ s.window.map Entry.docid) : Stuck d s := by
  have hfew : (cachedCount s.terms : ℤ) ≤ orderViolation := by
    by_contra hmany
    exact hr (.inr ⟨⟨_, hlen, not_le.mp hmany⟩, hshort⟩)
  exact ⟨dead_of_few hlive (by exact_mod_cast hfew), ⟨_, hlen, hfew⟩, hout⟩

/-! ## Rounds

A round goes on with the window it has, or with a new one. `Owed` is what is needed of the
elements that were yielded before: they bound what is to come, except for the last two, which do
so from two places and one place further on. -/

section Rounds

variable [IsStrictOrderedRing K] {L : List (WeightedTree K)} {s s' : State K}

/-- A document that comes later has not been yielded, and occurs in a tree. -/
theorem Sound.later (h : Sound L s) (hwindow : ∀ e ∈ s.window, e.Bounds L) {d : ℤ}
    (hd : Later s d) : d ∉ s.pool.used ∧ Occurs L d := by
  obtain ⟨fuel, hmem⟩ := hd
  obtain ⟨e, he, rfl⟩ := List.mem_map.mp hmem
  obtain ⟨hocc, hnew, -⟩ := (h.popped hwindow fuel).2.2 e he
  exact ⟨hnew, hocc⟩

theorem Stuck.not_later {d : ℤ} (hstuck : Stuck d s) (h : Sound L s)
    (hwindow : ∀ e ∈ s.window, e.Bounds L) : ¬Later s d := by
  rintro ⟨fuel, hmem⟩
  apply hstuck.run fuel
  rw [(h.popped hwindow fuel).1, List.map_map]
  exact hmem

/-- **What holds between rounds**, after some elements have been taken, the latest first. -/
structure Owed (L : List (WeightedTree K)) (past : List (Entry K)) (s : State K) : Prop where
  /-- what is kept is right -/
  sound : Sound L s
  /-- and so are the bounds of the window -/
  bounds : ∀ e ∈ s.window, e.Bounds L
  /-- `cache_len` is right -/
  counted : Counted s
  /-- the window is in order -/
  ranked : Ranked L (Later s) s.window
  /-- the last two documents bound what comes later, but for the next elements -/
  last : ∀ k < 2, ∀ y ∈ past[k]?, ∀ d, Later s d → d ∉ (s.window.take (2 - k)).map Entry.docid →
    totalScore L d ≤ y.minw

/-- What the first window of a round bounds. -/
structure Bounding (L : List (WeightedTree K)) (past : List (Entry K)) (s : State K) (e : Entry K)
    (window : List (Entry K)) : Prop where
  /-- it is in order -/
  ranked : Ranked L (Later s) (e :: window)
  /-- its first element bounds what comes later without being in it -/
  head : ∀ d, Later s d → d ∉ (e :: window).map Entry.docid → totalScore L d ≤ e.minw
  /-- the last two documents bound what comes later, but for the next elements -/
  last : ∀ k < 2, ∀ y ∈ past[k]?, ∀ d, Later s d →
    d ∉ ((e :: window).take (2 - k)).map Entry.docid → totalScore L d ≤ y.minw

/-- A window that is kept. -/
theorem Owed.kept {past : List (Entry K)} (h : Owed L past s) {updated : Bool} {s₁ : State K}
    (hprep : prepare s = .ok (updated, s₁)) (hr : ¬Refreshes updated s₁) {e : Entry K}
    {window : List (Entry K)} (hw : s₁.window = e :: window) : Bounding L past s e window := by
  obtain ⟨hlen, hidle⟩ := h.counted.prepare h.sound.core hprep
  cases updated with
  | true => exact absurd (.inl rfl) hr
  | false =>
    obtain ⟨rfl, hlive⟩ := hidle rfl
    refine ⟨hw ▸ h.ranked, fun d hd hout => ?_, hw ▸ h.last⟩
    by_cases hshort : s₁.window.length < orderViolation
    · have hstuck := stuck_of_kept hlen hlive hr hshort (hw ▸ hout)
      exact absurd hd (hstuck.not_later h.sound h.bounds)
    · apply h.ranked.outside d hd (hw ▸ hout) 0 e (by rw [hw]; rfl)
      omega

/-- A new window, where nothing is in the gaps. -/
theorem Owed.refreshed {past : List (Entry K)} (h : Owed L past s) {updated : Bool} {s₁ : State K}
    (hprep : prepare s = .ok (updated, s₁)) (hclosed : Closed past s₁)
    (hviolated : violated s₁.terms (freshWindow s₁) = false) {e : Entry K}
    {window : List (Entry K)} (hw : freshWindow s₁ = e :: window) : Bounding L past s e window := by
  obtain ⟨updated', s₁', hprep', h₁, hwindow₁, hused₁⟩ := h.sound.prepare
  obtain ⟨rfl, rfl⟩ := Prod.mk.inj (Except.ok.inj (hprep.symm.trans hprep'))
  have hlater : ∀ d, Later s d → d ∉ s₁.pool.used ∧ Occurs L d := fun d hd =>
    hused₁.symm ▸ h.sound.later h.bounds hd
  obtain ⟨hranked, hhead⟩ := hclosed.ranked h₁ hviolated hlater
  rw [hw] at hranked hhead
  refine ⟨hranked, fun d hd hout => hhead d hd hout e rfl, fun k hk y hy d hd hout => ?_⟩
  by_cases hin : d ∈ (s.window.take (2 - k)).map Entry.docid
  · -- an element of the old window that is put off
    obtain ⟨f, hf, rfl⟩ := List.mem_map.mp hin
    apply (h.bounds f (List.mem_of_mem_take hf)).2.trans
    exact hclosed.moved k hk y hy f (hwindow₁ ▸ hf) (hw ▸ hout)
  · exact h.last k hk y hy d hd hin

/-- **A round** in which nothing is in the gaps. -/
theorem Owed.round {past : List (Entry K)} (h : Owed L past s) (hclosed : ClosedAt past s)
    {y : ℤ × K} (hrun : iteration s = .ok (some (y, s'))) :
    ∃ e, nextEntry s = some e ∧ Owed L (e :: past) s' ∧
      ∀ f ∈ past[1]?, ∀ d, Later s' d → totalScore L d ≤ f.minw := by
  obtain ⟨updated, s₁, e, window, hprep, hw, horder, hyield⟩ := iteration_eq_ok hrun
  -- the window is a new one, or the one of the round before
  have hbounding : Bounding L past s e window := by
    by_cases hr : Refreshes updated s₁
    · rw [nextWindow, if_pos hr] at hw
      exact h.refreshed hprep (hclosed updated s₁ hprep hr) (horder hr) hw
    · rw [nextWindow, if_neg hr] at hw
      exact h.kept hprep hr hw
  have hnext : nextEntry s = some e := by
    simp only [nextEntry, hprep, hw]
    rfl
  obtain ⟨e', hnext', -, -, -, -, hused', hsound', hbounds'⟩ := h.sound.round h.bounds hrun
  obtain rfl := Option.some.inj (hnext.symm.trans hnext')
  obtain ⟨-, hwindow', hlen', htaken⟩ := yieldEntry_eq_ok hyield
  have hlater : ∀ d, Later s' d → Later s d ∧ d ≠ e.docid := by
    refine fun d hd => ⟨hd.step hrun hnext, ?_⟩
    rintro rfl
    apply (hsound'.later hbounds' hd).1
    rw [hused']
    exact (TreeSet.mem_insert _).mpr (.inl rfl)
  -- each holder loses one cached document, and `cache_len` as many
  have hcounted' : Counted s' := by
    have hcount := holders_spec htaken
    have hlen := (h.counted.prepare h.sound.core hprep).1
    refine .inl ?_
    rw [hlen', hlen, Option.map_some, Option.some.injEq]
    omega
  refine ⟨e, hnext, ⟨hsound', hbounds', hcounted', hwindow' ▸ hbounding.ranked.tail hlater, ?_⟩, ?_⟩
  · intro k hk f hf d hd hout
    obtain ⟨hd, hne⟩ := hlater d hd
    rw [hwindow'] at hout
    obtain rfl | rfl : k = 0 ∨ k = 1 := by omega
    · obtain rfl := Option.some.inj hf
      exact hbounding.ranked.head hbounding.head hd hne hout
    · apply hbounding.last 0 (by omega) f hf d hd
      rw [List.take_succ_cons, List.map_cons, List.mem_cons, not_or]
      exact ⟨hne, hout⟩
  · intro f hf d hd
    obtain ⟨hd, hne⟩ := hlater d hd
    apply hbounding.last 1 (by omega) f hf d hd
    simpa using hne

/-! ## Runs

The order of all that is yielded is collected along the run, and turned from bounds into total
scores at the end, by the soundness of the intervals. -/

theorem owed_init (hL : L ≠ []) : Owed L [] (init L) where
  sound := sound_init hL
  bounds e he := absurd he List.not_mem_nil
  counted := (inv_init hL).cacheLen
  ranked := by
    refine ⟨fun i j f e hf => ?_, fun d hd hout i f hf => ?_⟩
    · cases hf
    · cases hf
  last k hk y hy := by cases hy

/-- The elements that are taken bound the documents that are taken later: those three places
later, and also the last two that were taken before. -/
structure InOrder (L : List (WeightedTree K)) (past taken : List (Entry K)) : Prop where
  /-- among themselves -/
  inside : ∀ (i j : ℕ) (e f : Entry K), taken[i]? = some e → taken[j]? = some f →
    i + orderViolation ≤ j → totalScore L f.docid ≤ e.minw
  /-- those before -/
  last : ∀ k < 2, ∀ y ∈ past[k]?, ∀ (j : ℕ) (f : Entry K), taken[j]? = some f → 2 ≤ j + k →
    totalScore L f.docid ≤ y.minw

omit [IsStrictOrderedRing K] in
theorem InOrder.nil (L : List (WeightedTree K)) (past : List (Entry K)) : InOrder L past [] := by
  refine ⟨fun i j e f he => ?_, fun k _ y _ j f hf => ?_⟩
  · cases he
  · cases hf

/-- The rest of a run. -/
theorem Owed.run {past : List (Entry K)} (h : Owed L past s) (fuel : ℕ)
    (hclosed : ClosedRun fuel s past) : InOrder L past (popped fuel s) := by
  induction fuel generalizing s past with
  | zero => exact .nil L past
  | succ fuel ih =>
    have hfirst : ClosedAt past s := hclosed 0 s (by rw [heads]; split <;> rfl)
    rcases hstep : iteration s with exc | _ | ⟨y, s'⟩
    · have hnil : popped (fuel + 1) s = [] := by simp only [popped, hstep]
      rw [hnil]
      exact .nil L past
    · have hnil : popped (fuel + 1) s = [] := by simp only [popped, hstep]
      rw [hnil]
      exact .nil L past
    · obtain ⟨e, hnext, h', hold⟩ := h.round hfirst hstep
      have hpopped := popped_succ hstep hnext fuel
      have hheads : heads (fuel + 1) s = s :: heads fuel s' := by simp only [heads, hstep]
      have hclosed' : ClosedRun fuel s' (e :: past) := by
        intro k s'' hk
        have hat := hclosed (k + 1) s'' (by rw [hheads]; exact hk)
        rwa [hpopped, List.take_succ_cons, List.reverse_cons, List.append_assoc] at hat
      obtain ⟨hinside, hlast⟩ := ih h' hclosed'
      rw [hpopped]
      refine ⟨?_, ?_⟩
      · intro i j f g hf hg hij
        -- a later element is one of the rest of the run
        obtain ⟨j, rfl⟩ : ∃ j', j = j' + 1 := ⟨j - 1, by rw [orderViolation] at hij; omega⟩
        cases i with
        | zero =>
          obtain rfl := Option.some.inj hf
          exact hlast 0 (by omega) e rfl j g hg (by rw [orderViolation] at hij; omega)
        | succ i => exact hinside i j f g hf hg (by omega)
      · intro k hk y hy j f hf hj
        obtain ⟨j, rfl⟩ : ∃ j', j = j' + 1 := ⟨j - 1, by omega⟩
        obtain rfl | rfl : k = 0 ∨ k = 1 := by omega
        · exact hlast 1 (by omega) y hy j f hf (by omega)
        · have hmem : f ∈ popped fuel s' := List.mem_iff_getElem?.mpr ⟨j, hf⟩
          exact hold y hy f.docid ⟨fuel, List.mem_map_of_mem hmem⟩

end Rounds

/-- **The order bound**, where nothing is in the gaps: a document that is yielded three places
or more before another one has at least its total score. -/
theorem order_bound [IsStrictOrderedRing K] (w₁ w₂ : WeightedTree K) (ws : List (WeightedTree K))
    (fuel : ℕ) (hclosed : ClosedRun fuel (init (w₁ :: w₂ :: ws)) []) (i j : ℕ) (y y' : ℤ × K)
    (hy : (run fuel (init (w₁ :: w₂ :: ws))).1[i]? = some y)
    (hy' : (run fuel (init (w₁ :: w₂ :: ws))).1[j]? = some y') (hij : i + orderViolation ≤ j) :
    totalScore (w₁ :: w₂ :: ws) y'.1 ≤ totalScore (w₁ :: w₂ :: ws) y.1 := by
  have howed := @owed_init K _ _ _ (w₁ :: w₂ :: ws) (List.cons_ne_nil _ _)
  obtain ⟨hrun, -, hbounds⟩ := howed.sound.popped howed.bounds fuel
  rw [hrun, List.getElem?_map] at hy hy'
  obtain ⟨e, he, rfl⟩ := Option.map_eq_some_iff.mp hy
  obtain ⟨f, hf, rfl⟩ := Option.map_eq_some_iff.mp hy'
  have hle := (howed.run fuel hclosed).inside i j e f he hf hij
  exact hle.trans (hbounds e (List.mem_iff_getElem?.mpr ⟨i, he⟩)).2.2.1

/-- Six documents, the third of which is in both trees. -/
theorem order_bound_example :
    let L := [equalScores [0, 1, 2, 3, 4, 5] (by decide), equalScores [2] (by decide)]
    (run 6 (init L)).1 = [(2, 2), (0, 1), (1, 1), (3, 1), (4, 1), (5, 1)] ∧
      totalScore L 3 ≤ totalScore L 2 := by
  intro L
  refine ⟨by decide +kernel, ?_⟩
  exact order_bound _ _ [] 6 (by decide +kernel) 0 3 (2, 2) (3, 1) (by decide +kernel)
    (by decide +kernel) (by decide)

theorem weight_one_pos : (0 : ℚ) < 1 := one_pos

/-- A tree of some pairs, with the weight one. -/
def ofPostings (l : List (Posting ℚ)) (hne : l ≠ []) (hpos : ∀ p ∈ l, 0 < -p.score)
    (hnodup : (l.map Posting.docid).Nodup) : WeightedTree ℚ where
  tree := Std.ExtTreeSet.ofList l compare
  weight := 1
  nonempty hnil := by
    obtain ⟨p, hp⟩ := List.exists_mem_of_ne_nil _ hne
    have hin : p ∈ Std.ExtTreeSet.ofList l compare := TreeSet.mem_ofList.mpr hp
    rw [← Std.ExtTreeSet.mem_toList, hnil] at hin
    cases hin
  score_pos p hp := hpos p (TreeSet.mem_ofList.mp (Std.ExtTreeSet.mem_toList.mp hp))
  docid_unique := by
    refine List.Nodup.map_on (fun p hp q hq hd => ?_) (TreeSet.nodup_toList _)
    have hp := TreeSet.mem_ofList.mp (Std.ExtTreeSet.mem_toList.mp hp)
    have hq := TreeSet.mem_ofList.mp (Std.ExtTreeSet.mem_toList.mp hq)
    exact List.inj_on_of_nodup_map hnodup hp hq hd
  weight_pos := weight_one_pos

/-- Fifteen documents with a score of eight in either tree; one with fifteen in the first tree,
which is number 41 in the second: cached outside the window, it comes fifteen places after
documents with a smaller total score. -/
theorem order_not_bounded :
    let equal : List (Posting ℚ) := (List.range 15).map fun i => ⟨-8, i⟩
    let fillers : List (Posting ℚ) := (List.range 25).map fun i => ⟨-5 / 2, 16 + i⟩
    let L := [ofPostings (⟨-15, 15⟩ :: equal) (by decide) (by decide +kernel) (by decide +kernel),
      ofPostings (⟨-2, 15⟩ :: equal ++ fillers) (by decide) (by decide +kernel) (by decide +kernel)]
    (run 16 (init L)).1[0]? = some (0, 16) ∧ (run 16 (init L)).1[15]? = some (15, 65 / 4) ∧
      totalScore L 0 < totalScore L 15 := by
  decide +kernel

end RankedUnion

end Zerodb
