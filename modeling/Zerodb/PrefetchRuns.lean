import Zerodb.Prefetch

/-!
# PrefetchRuns: reading ahead in any order

Accesses and full iterations of a `ListPrefetch` in any order. Two things go wrong there.
A slice read ahead that begins with cached positions and goes on with others is cached
under the wrong ones; and one that is cached as a whole moves `stop` and leaves the
iterator where it is, so that the next access beyond `stop` reads the wrong element.

`Ok` says when an access does neither, `Sound` is what it then keeps, and
`outputs_transparent` carries this along a history.
-/

namespace Zerodb

universe u

variable {α : Type u}

namespace ListPrefetch

/-! ## Histories

The walks of `Prefetch` never meet a slice that is cached in part; accesses in any order do. The
specification forgets the cache and the iterator: an access answers with the element of the list,
whatever came before. -/

/-- An operation. -/
inductive Op where
  /-- `s[k]` -/
  | index : (k : ℕ) → Op
  /-- a full iteration -/
  | iter : Op

/-- The operations as a machine. -/
def machine (S : Source α) : Machine (Sliceable α) Op (Sliceable.Reply α)
  | s, .index k => (getIndex S s k).map .item id
  | s, .iter => (iterateAll S s).map .iterated id

/-- What they answer without the slices read ahead: `xs[k]` or `StopIteration`, and
`xs`. -/
def spec (xs : List α) : Op → Sliceable.Reply α
  | .index k => .item (Sliceable.answer xs k)
  | .iter => .iterated (some (.ok xs))

/-! ## When an access does no harm

The condition is about the state before the access. It asks of the cached positions alone whether
the one that is read, and the slice that is then read ahead, lie as they should, and of the
iterator where it stands; it is decidable, and nothing in it runs the access. -/

/-- The element read is the one at `k`: the iterator is started again, or it is where
`stop` says, or it has not so many elements left. -/
def ReadOk (S : Source α) (s : Sliceable α) (n k : ℕ) : Prop :=
  k < n ∨ (S.items s.iterator).length = S.xs.length - n ∨ (S.items s.iterator).length ≤ k - n

/-- If the slice read ahead begins with a cached position, it is cached as a whole. -/
def AheadOk (S : Source α) (cache : Lru α) (i : ℕ) : Prop :=
  cache.has i = true → ∀ j ∈ List.range' i prefetchSize, j < S.xs.length → cache.has j = true

/-- **The accesses that do no harm**: of a cached position, or of one that is read and
behind which a slice is read ahead, if at all, that is not cached in part. -/
def Ok (S : Source α) (s : Sliceable α) (k : ℕ) : Prop :=
  s.cache.has k = true ∨ ∀ n ∈ s.stop, ReadOk S s n k ∧
    ∀ x ∈ S.xs[k]?, n ≠ k + 1 → AheadOk S (s.cache.set k x) (k + 1)

/-- An iteration is as many accesses as there are elements, and one more. -/
def OpOk (S : Source α) (s : Sliceable α) : Op → Prop
  | .index k => Ok S s k
  | .iter => Machine.Along (getIndex S) (Ok S) s (List.range (S.xs.length + 1))

instance (S : Source α) (s : Sliceable α) (n k : ℕ) : Decidable (ReadOk S s n k) :=
  inferInstanceAs (Decidable (_ ∨ _ ∨ _))

instance (S : Source α) (cache : Lru α) (i : ℕ) : Decidable (AheadOk S cache i) :=
  inferInstanceAs (Decidable (_ → ∀ j ∈ _, _))

instance (S : Source α) (s : Sliceable α) (k : ℕ) : Decidable (Ok S s k) :=
  inferInstanceAs (Decidable (_ ∨ ∀ n ∈ s.stop, _ ∧ ∀ x ∈ S.xs[k]?, _))

instance (S : Source α) (s : Sliceable α) : (op : Op) → Decidable (OpOk S s op)
  | .index k => inferInstanceAs (Decidable (Ok S s k))
  | .iter => inferInstanceAs (Decidable (Machine.Along _ _ _ _))

/-! ## What it keeps

`Sound` has one conjunct for what is cached and one for where the iterator is. An access that hits
keeps both; one that misses reads its element first (`getIndex_miss`) and the slice ahead of it
then, and each of the two is sound under its half of `Ok`. -/

/-- **The invariant**: what is cached is right, and the iterator is at `stop` or before
it. -/
structure Sound (S : Source α) (s : Sliceable α) : Prop where
  /-- the cache -/
  cache : s.cache.Holds (Sliceable.Cached S.xs)
  /-- the position of the iterator, and `stop` -/
  view : ∃ p n, p ≤ n ∧ s.iterator = .live (S.xs.drop p) ∧ s.stop = some n

variable {S : Source α} {s : Sliceable α}

theorem sound_init (S : Source α) : Sound S (Sliceable.init S) where
  cache := Lru.holds_empty _
  view := ⟨0, 0, le_rfl, rfl, rfl⟩

/-- Where the iterator is, and how many elements it has left. -/
theorem Sound.left {n : ℕ} (h : Sound S s) (hstop : s.stop = some n) :
    ∃ p, p ≤ n ∧ s.iterator = .live (S.xs.drop p) ∧
      (S.items s.iterator).length = S.xs.length - p := by
  obtain ⟨p, n', hp, hit, hstop'⟩ := h.view
  obtain rfl : n = n' := Option.some.inj (hstop.symm.trans hstop')
  refine ⟨p, hp, hit, ?_⟩
  rw [hit]
  exact List.length_drop

/-- What is read from an iterator at `p`. -/
theorem readNext_live {k m p : ℕ} :
    Sliceable.readNext S s k m (.live (S.xs.drop p)) =
      match S.xs[p + (k - m)]? with
      | some x => (.ok x, ⟨s.cache.set k x, some (k + 1), .live (S.xs.drop (p + (k - m) + 1))⟩)
      | none => (.error .stopIteration, { s with iterator := S.f, stop := some 0 }) := by
  simp only [Sliceable.readNext, Source.items, List.drop_drop]
  rcases hx : S.xs[p + (k - m)]? with _ | x
  · rw [List.drop_eq_nil_of_le (List.getElem?_eq_none_iff.mp hx)]
  · obtain ⟨hlt, rfl⟩ := List.getElem?_eq_some_iff.mp hx
    rw [List.drop_eq_getElem_cons hlt]
    simp only [Iterator.advance, List.drop_drop, Nat.add_assoc]

/-- **A miss** reads the element at its position. -/
theorem getIndex_miss {k n : ℕ} (h : Sound S s) (hmiss : s.cache.lookup k = none)
    (hstop : s.stop = some n) (hok : ReadOk S s n k) :
    Sliceable.getIndex S s k =
      match S.xs[k]? with
      | some x => (.ok x, ⟨s.cache.set k x, some (k + 1), .live (S.xs.drop (k + 1))⟩)
      | none => (.error .stopIteration, { s with iterator := S.f, stop := some 0 }) := by
  obtain ⟨p, hp, hit, hlen⟩ := h.left hstop
  simp only [Sliceable.getIndex, hmiss, hstop]
  by_cases hk : k < n
  · have hread := @readNext_live _ S s k 0 0
    rw [Nat.zero_add, Nat.sub_zero, List.drop_zero] at hread
    rw [if_pos hk, hread]
  · rw [if_neg hk, hit, readNext_live]
    rw [ReadOk, hlen] at hok
    -- the iterator is at `stop`, or both are behind the last element
    rcases Nat.lt_or_ge p n with hlt | hge
    · rw [List.getElem?_eq_none (by omega : S.xs.length ≤ p + (k - n)),
        List.getElem?_eq_none (by omega : S.xs.length ≤ k)]
    · have hpos : p + (k - n) = k := by omega
      rw [hpos]

/-- Reading ahead is sound if what is read comes first, or if there is nothing to read. -/
theorem readAhead_sound {cache : Lru α} {i : ℕ} (hc : cache.Holds (Sliceable.Cached S.xs))
    (hok : AheadOk S cache i) :
    ∃ ys t, readAhead S ⟨cache, some i, .live (S.xs.drop i)⟩ i = (.ok ys, t) ∧ Sound S t := by
  obtain ⟨m, vs, cache', hc', -, hall, hends, -, hrun⟩ := readAhead_eq hc i
  refine ⟨_, _, hrun, Sliceable.writeAll_right hc' fun j x hj => ?_, _, _, ?_, rfl, rfl⟩
  · obtain ⟨hlt, rfl⟩ := List.getElem?_eq_some_iff.mp hj
    rw [List.length_take, List.length_drop] at hlt
    rw [List.getElem_take, List.getElem_drop, Nat.mul_one]
    cases m with
    | zero => exact List.getElem?_eq_getElem _
    | succ m =>
      -- a cached beginning: then all there is was cached
      have hhas := hok (hall 0 (Nat.succ_pos m)) (i + (m + 1))
        (List.mem_range'_1.mpr ⟨by omega, by omega⟩) (by omega)
      rw [hends (by omega)] at hhas
      cases hhas
  · split
    · exact le_rfl
    · exact Nat.le_add_right i prefetchSize

/-- An access that reads an element reads ahead if that has moved `stop`. -/
theorem getIndex_read_eq {t : Sliceable α} {k : ℕ} {x : α}
    (hread : Sliceable.getIndex S s k = (.ok x, t)) :
    getIndex S s k = if t.stop = s.stop then (.ok x, t)
      else (readAhead S t (k + 1)).map (·.map fun _ => x) id := by
  simp only [getIndex, hread]
  split
  · rfl
  · rcases readAhead S t (k + 1) with ⟨e | ys, t'⟩ <;> rfl

/-- **One access**. -/
theorem getIndex_sound (hf : S.container = false) (h : Sound S s) {k : ℕ} (hok : Ok S s k) :
    (getIndex S s k).1 = Sliceable.answer S.xs k ∧ Sound S (getIndex S s k).2 := by
  rcases hx : s.cache.lookup k with _ | x
  · obtain ⟨p, n, hp, hit, hstop⟩ := h.view
    obtain ⟨hread, hahead⟩ := (hok.resolve_left (by simp [Lru.has, hx])) n hstop
    have hmissed := getIndex_miss h hx hstop hread
    rw [Sliceable.answer]
    rcases hk : S.xs[k]? with _ | x
    · rw [hk] at hmissed
      simp only [getIndex, hmissed]
      refine ⟨trivial, h.cache, 0, 0, le_rfl, ?_, rfl⟩
      change S.f = _
      rw [Source.f, hf]
      rfl
    · have hcache : (s.cache.set k x).Holds (Sliceable.Cached S.xs) := h.cache.set hk
      rw [hk] at hmissed
      rw [getIndex_read_eq hmissed]
      by_cases hsame : some (k + 1) = s.stop
      · rw [if_pos hsame]
        exact ⟨rfl, hcache, _, _, le_rfl, rfl, rfl⟩
      · have hne : n ≠ k + 1 := by
          rintro rfl
          exact hsame hstop.symm
        -- `stop` has been moved, and a slice is read ahead
        obtain ⟨ys, t, hrun, ht⟩ := readAhead_sound hcache (hahead x hk hne)
        rw [if_neg hsame, hrun]
        exact ⟨rfl, ht⟩
  · have hget : getIndex S s k = (.ok x, { s with cache := s.cache.touch k }) := by
      simp only [getIndex, Sliceable.getIndex, hx, if_true]
    rw [hget, Sliceable.answer_of_some (h.cache.lookup hx)]
    exact ⟨rfl, h.cache.touch k, h.view⟩

/-! ## When it does harm

The converse, over a list without repetitions, where an element tells its position. If a beginning
of the slice is cached, and no more, then the element read next is written under the position
after it, and it is still there at the end of the access, since the cache has room for all that
one access writes: so the cache is wrong. If the whole slice is, `stop` is ahead of the iterator.
Either way `Sound` is lost, and with it the right answer to a later access. -/

/-- An entry is among the `d` used last. -/
def Recent (cache : Lru α) (d : ℕ) (e : ℕ × α) : Prop :=
  ∃ last, last <:+ cache.entries ∧ last.length ≤ d ∧ e ∈ last

theorem recent_set (cache : Lru α) (k : ℕ) (x : α) : Recent (cache.set k x) 1 (k, x) :=
  ⟨[(k, x)], List.suffix_append _ _, le_rfl, List.mem_singleton_self _⟩

theorem Recent.set {cache : Lru α} {d : ℕ} {e : ℕ × α} (h : Recent cache d e)
    (hd : d < cache.maxsize) {k : ℕ} (hk : e.1 ≠ k) (x : α) : Recent (cache.set k x) (d + 1) e := by
  obtain ⟨last, ⟨front, hsplit⟩, hlen, hmem⟩ := h
  have hlen' := List.length_filter_le (fun e => decide (e.1 ≠ k)) last
  refine ⟨last.filter (·.1 ≠ k) ++ [(k, x)], ?_, ?_, ?_⟩
  · rw [Lru.set, ← hsplit, List.filter_append, List.length_append,
      List.drop_append_of_le_length (by omega), List.append_assoc]
    exact List.suffix_append _ _
  · rw [List.length_append, List.length_singleton]
    omega
  · exact List.mem_append_left _ (List.mem_filter.mpr ⟨hmem, decide_eq_true hk⟩)

/-- It stays while others are written behind it, as many as there is room for. -/
theorem Recent.writeAll {cache : Lru α} {d i : ℕ} {e : ℕ × α} {vs : List α}
    (h : Recent cache d e) (hd : d + vs.length ≤ cache.maxsize) (hi : e.1 < i) :
    e ∈ (Sliceable.writeAll 1 i vs cache).entries := by
  induction vs generalizing cache d i with
  | nil =>
    obtain ⟨last, hsuffix, -, hmem⟩ := h
    exact hsuffix.mem hmem
  | cons v vs ih =>
    rw [List.length_cons] at hd
    exact ih (h.set (by omega) (by omega) v) (by rw [Lru.maxsize_set]; omega) (by omega)

/-- What is written first is cached in the end. -/
theorem mem_writeAll {cache : Lru α} {i : ℕ} {v : α} {vs : List α}
    (hsize : vs.length < cache.maxsize) :
    (i, v) ∈ (Sliceable.writeAll 1 i (v :: vs) cache).entries :=
  (recent_set cache i v).writeAll (by rw [Lru.maxsize_set]; omega) (Nat.lt_succ_self i)

/-- Reading ahead is not sound if only a beginning of the slice is cached. -/
theorem aheadOk_of_sound {cache : Lru α} {i : ℕ} (hnodup : S.xs.Nodup)
    (hsize : prefetchSize < cache.maxsize) (hc : cache.Holds (Sliceable.Cached S.xs))
    (h : Sound S (readAhead S ⟨cache, some i, .live (S.xs.drop i)⟩ i).2) : AheadOk S cache i := by
  obtain ⟨m, vs, cache', -, hmax, hall, hends, -, hrun⟩ := readAhead_eq hc i
  rw [hrun] at h
  intro hfirst j hj hlen
  by_contra hmiss
  obtain ⟨hij, hjend⟩ := List.mem_range'_1.mp hj
  -- the first position that is not cached is in the slice, and in the list
  have hm : m ≤ j - i := by
    by_contra hlt
    have hhas := hall (j - i) (by omega)
    rw [Nat.add_sub_cancel' hij] at hhas
    exact hmiss hhas
  have hmpos : m ≠ 0 := by
    rintro rfl
    rw [Nat.add_zero, hfirst] at hends
    exact Bool.noConfusion (hends (by decide))
  have hcount : prefetchSize - m = (prefetchSize - m - 1) + 1 := by omega
  have hread : (S.xs.drop (i + m)).take (prefetchSize - m) =
      S.xs[i + m] :: (S.xs.drop (i + m + 1)).take (prefetchSize - m - 1) := by
    rw [List.drop_eq_getElem_cons (by omega), hcount, List.take_succ_cons, Nat.add_sub_cancel]
  have hwrong : S.xs[i]? = some S.xs[i + m] := by
    apply h.cache (i, S.xs[i + m])
    change _ ∈ (Sliceable.writeAll 1 i _ cache').entries
    rw [hread]
    apply mem_writeAll
    rw [List.length_take]
    omega
  obtain ⟨hi, heq⟩ := List.getElem?_eq_some_iff.mp hwrong
  have := (hnodup.getElem_inj_iff).mp heq
  omega

/-- Reading ahead may move `stop` or fail, but not with `StopIteration`. -/
theorem readAhead_ne (s : Sliceable α) (i : ℕ) : (readAhead S s i).1 ≠ .error .stopIteration := by
  rw [readAhead]
  rcases hrun : Sliceable.getSlice S s (some i) (some (i + prefetchSize)) none with ⟨e | ys, t⟩
  · cases e <;> exact fun heq => by cases heq
  · exact fun heq => by cases heq

/-- An access that reads an element answers with it, if with any. -/
theorem getIndex_answers {t : Sliceable α} {k : ℕ} {x : α}
    (hread : Sliceable.getIndex S s k = (.ok x, t))
    (hans : (getIndex S s k).1 = Sliceable.answer S.xs k) : S.xs[k]? = some x := by
  have hcases : (getIndex S s k).1 = .ok x ∨
      ∃ e, e ≠ .stopIteration ∧ (getIndex S s k).1 = .error e := by
    rw [getIndex_read_eq hread]
    by_cases hsame : t.stop = s.stop
    · rw [if_pos hsame]
      exact .inl rfl
    · rw [if_neg hsame]
      have hne := @readAhead_ne _ S t (k + 1)
      rcases hrun : readAhead S t (k + 1) with ⟨e | ys, t'⟩
      · rw [hrun] at hne
        exact .inr ⟨e, fun heq => hne (congrArg Except.error heq), rfl⟩
      · exact .inl rfl
  rw [hans, Sliceable.answer] at hcases
  rcases hk : S.xs[k]? with _ | y
  · rw [hk] at hcases
    rcases hcases with heq | ⟨e, hne, heq⟩
    · cases heq
    · exact absurd (Except.error.inj heq).symm hne
  · rw [hk] at hcases
    rcases hcases with heq | ⟨e, -, heq⟩
    · rw [Except.ok.inj heq]
    · cases heq

/-- An access that is answered right and keeps the invariant is `Ok`. -/
theorem ok_of_sound {k : ℕ} (hnodup : S.xs.Nodup) (hsize : prefetchSize < s.cache.maxsize)
    (h : Sound S s) (hans : (getIndex S s k).1 = Sliceable.answer S.xs k)
    (hnext : Sound S (getIndex S s k).2) : Ok S s k := by
  by_cases hhas : s.cache.has k = true
  · exact .inl hhas
  · have hmiss : s.cache.lookup k = none := by simpa [Lru.has] using hhas
    refine .inr ?_
    rintro n (hstop : s.stop = some n)
    have hread : ReadOk S s n k := by
      obtain ⟨p, hp, hit, hlen⟩ := h.left hstop
      by_contra hbad
      rw [ReadOk, hlen] at hbad
      -- an element is read, but not the one at `k`
      have hlow : ¬k < n := by omega
      have hlt : p + (k - n) < S.xs.length := by omega
      have hget : Sliceable.getIndex S s k = (.ok S.xs[p + (k - n)],
          ⟨s.cache.set k S.xs[p + (k - n)], some (k + 1), .live (S.xs.drop (p + (k - n) + 1))⟩) := by
        simp only [Sliceable.getIndex, hmiss, hstop, if_neg hlow, hit, readNext_live,
          List.getElem?_eq_getElem hlt]
      obtain ⟨hk, heq⟩ := List.getElem?_eq_some_iff.mp (getIndex_answers hget hans)
      have := hnodup.getElem_inj_iff.mp heq
      omega
    refine ⟨hread, fun x hx hne => ?_⟩
    have hsame : ¬some (k + 1) = s.stop := by
      intro heq
      exact hne (Option.some.inj (heq.trans hstop)).symm
    refine aheadOk_of_sound hnodup hsize (h.cache.set hx) ?_
    have hmissed := getIndex_miss h hmiss hstop hread
    rw [Option.mem_def.mp hx] at hmissed
    rwa [getIndex_read_eq hmissed, if_neg hsame] at hnext

/-- **Exactness**: over a list without repetitions, and with a cache for more than is read
ahead, the accesses that are answered right and keep the invariant are those that are
`Ok`. -/
theorem ok_iff {k : ℕ} (hf : S.container = false) (hnodup : S.xs.Nodup)
    (hsize : prefetchSize < s.cache.maxsize) (h : Sound S s) :
    Ok S s k ↔ (getIndex S s k).1 = Sliceable.answer S.xs k ∧ Sound S (getIndex S s k).2 := by
  refine ⟨?_, ?_⟩
  · exact getIndex_sound hf h
  · rintro ⟨hans, hnext⟩
    exact ok_of_sound hnodup hsize h hans hnext

/-! ## Iterations and histories

An iteration is a row of accesses, so that it keeps `Sound` if each of them is `Ok` in its turn;
the history is an induction over its operations. -/

/-- **One iteration**, whose accesses do no harm. -/
theorem iterateAll_sound (hf : S.container = false) (h : Sound S s) (hok : OpOk S s .iter) :
    (iterateAll S s).1 = some (.ok S.xs) ∧ Sound S (iterateAll S s).2 := by
  have hstart : Machine.Along (getIndex S) (Ok S) s (List.range' 0 (S.xs.length + 1 - 0)) := by
    rw [Nat.sub_zero, ← List.range_eq_range']
    exact hok
  refine @Sliceable.walk_yields _ (getIndex S) S.xs
    (fun i s => Sound S s ∧
      Machine.Along (getIndex S) (Ok S) s (List.range' i (S.xs.length + 1 - i)))
    (Sound S) ?_ ?_ 0 s ⟨h, hstart⟩ (Nat.zero_le _) (S.xs.length + 1) (by omega)
  · -- the accesses that are left, and the first of them
    rintro i hi s ⟨hs, halong⟩
    have hsplit : S.xs.length + 1 - i = S.xs.length + 1 - (i + 1) + 1 := by omega
    rw [hsplit, List.range'_succ] at halong
    obtain ⟨hans, hnext⟩ := getIndex_sound hf hs halong.1
    rw [Sliceable.answer_of_some (List.getElem?_eq_getElem hi)] at hans
    exact ⟨hans, hnext, halong.2⟩
  · rintro s ⟨hs, halong⟩
    rw [Nat.add_sub_cancel_left, List.range'_one] at halong
    obtain ⟨hans, hnext⟩ := getIndex_sound hf hs halong.1
    rw [Sliceable.answer_of_le le_rfl] at hans
    exact ⟨hans, hnext⟩

/-- One operation. -/
theorem machine_sound (hf : S.container = false) (h : Sound S s) {op : Op} (hok : OpOk S s op) :
    (machine S s op).1 = spec S.xs op ∧ Sound S (machine S s op).2 := by
  cases op with
  | index k =>
    obtain ⟨hans, hs⟩ := getIndex_sound hf h hok
    exact ⟨congrArg Sliceable.Reply.item hans, hs⟩
  | iter =>
    obtain ⟨hans, hs⟩ := iterateAll_sound hf h hok
    exact ⟨congrArg Sliceable.Reply.iterated hans, hs⟩

/-- **Reading ahead is transparent** in every history of accesses and iterations that do
no harm. -/
theorem outputs_transparent (S : Source α) (hf : S.container = false) (ops : List Op)
    (hok : (machine S).Along (OpOk S) (Sliceable.init S) ops) :
    (machine S).outputs (Sliceable.init S) ops = ops.map (spec S.xs) := by
  refine @Machine.Along.outputs_eq _ _ _ (machine S) (OpOk S) (Sound S) (spec S.xs) ?_ _ _
    (sound_init S) hok
  intro s op hs hop
  exact machine_sound hf hs hop

/-- Two accesses ahead of each other, an iteration, and one behind the last element. -/
theorem outputs_transparent_example :
    (machine (source (List.range 24) false)).outputs (Sliceable.init (source (List.range 24) false))
        [.index 3, .index 7, .iter, .index 24, .index 0] =
      [Op.index 3, .index 7, .iter, .index 24, .index 0].map (spec (List.range 24)) :=
  outputs_transparent _ rfl _ (by decide +kernel)

/-- After `s[10]`, the access `s[9]` finds the whole slice ahead of it cached; then `s[31]`
is answered with the element at 11. -/
theorem outputs_not_transparent :
    (machine (source (List.range 45) false)).outputs (Sliceable.init (source (List.range 45) false))
        [.index 10, .index 9, .index 31] ≠
      [Op.index 10, .index 9, .index 31].map (spec (List.range 45)) := by
  decide +kernel

end ListPrefetch

end Zerodb
