import Zerodb.Walks

/-!
# Prefetch: sliceables that read ahead

A `ListPrefetch` is a `Sliceable` that reads a slice ahead of every access that moves
`stop`. A slice that starts with cached positions and goes on with others is cached under
the wrong positions; that no walk over all elements meets one is a matter of which
positions the cache forgets.

`Walking` says where such a walk stands, and `Rested` what it leaves; `iterateAll_init`
and `iterateAll_rested` say that the first walk and, where the function gives an iterator,
every later one yields the list, for every size of the cache.
-/

namespace Zerodb

universe u

variable {α : Type u}

/-! ## Reading ahead

The methods of `ListPrefetch`, over those of `Sliceable`. An access goes through the one of
`Sliceable` first, and reads ahead only if that has moved `stop`: so nothing is read ahead of a
cached position. -/

namespace ListPrefetch

/-- `prefetch_size`. -/
def prefetchSize : ℕ := 20

variable (S : Source α)

/-- The slice that is read ahead; `StopIteration` is not an error there. -/
def readAhead (s : Sliceable α) (start : ℕ) : Except Exc (List α) × Sliceable α :=
  match Sliceable.getSlice S s (some start) (some (start + prefetchSize)) none with
  | (.error .stopIteration, s) => (.ok [], s)
  | answer => answer

/-- `__getitem__` of an integer. -/
def getIndex (s : Sliceable α) (k : ℕ) : Except Exc α × Sliceable α :=
  match Sliceable.getIndex S s k with
  | (.error e, t) => (.error e, t)
  | (.ok x, t) =>
    if t.stop = s.stop then (.ok x, t)
    else
      match readAhead S t (k + 1) with
      | (.error e, t) => (.error e, t)
      | (.ok _, t) => (.ok x, t)

/-- `__getitem__` of a slice. -/
def getSlice (s : Sliceable α) (a b c : Option ℕ) : Except Exc (List α) × Sliceable α :=
  match Sliceable.getSlice S s a b c with
  | (.error e, t) => (.error e, t)
  | (.ok xs, t) =>
    if t.stop = s.stop then (.ok xs, t)
    else
      match b with
      | none | some 0 => (.ok xs, t)
      | some (b + 1) =>
        match readAhead S t (b + 2) with
        | (.error e, t) => (.error e, t)
        | (.ok _, t) => (.ok xs, t)

/-- Iterate over all elements. -/
def iterateAll (s : Sliceable α) : Option (Except Exc (List α)) × Sliceable α :=
  Sliceable.walk (getIndex S) (S.xs.length + 1) 0 s

/-- `__len__`. -/
def len (s : Sliceable α) : Option (Except Exc ℕ) × Sliceable α :=
  match S.length, s.iterator with
  | some n, _ => (some (.ok n), s)
  | none, .bare => (some (.ok S.xs.length), s)
  | none, .live _ =>
    let (result, s) := iterateAll S s
    (result.map (·.map List.length), s)

/-! ## Which positions are cached

The cache forgets what was used least recently, so which positions it holds depends on the order
of their use alone. `useAll` follows the keys, in that order, through a run of uses; `useAll_run`
says that as many positions in a row as the cache holds push out all the others. During a walk the
order is always of one form, `recent`: what is left of an earlier walk, then the positions that
this one has read. -/

/-- The keys of a cache after some more have been used. -/
def useAll (maxsize : ℕ) (ks : List ℕ) (more : List ℕ) : List ℕ :=
  more.foldl (fun ks k => (ks.filter (· ≠ k) ++ [k]).rtake maxsize) ks

/-- The positions still cached when those of an earlier walk and then those before `p`
have been used. -/
def recent (earlier : List ℕ) (p : ℕ) : List ℕ := (earlier ++ List.range p).rtake S.cacheSize

/-- An earlier walk matters if the cache could not hold all it used. -/
def Earlier (earlier : List ℕ) : Prop :=
  earlier = [] ∨ earlier = List.range S.xs.length ∧ S.cacheSize < S.xs.length

variable {S} {earlier : List ℕ}

theorem keys_writeAll {i : ℕ} {vs : List α} {cache : Lru α} (hpos : 0 < cache.maxsize) :
    (Sliceable.writeAll 1 i vs cache).keys =
      useAll cache.maxsize cache.keys (List.range' i vs.length) := by
  induction vs generalizing i cache with
  | nil => rfl
  | cons v vs ih =>
    have hnext := @ih (i + 1) (cache.set i v) hpos
    rw [Sliceable.writeAll, hnext, Lru.maxsize_set, Lru.keys_set hpos, List.length_cons,
      List.range'_succ]
    rfl

theorem tidy_writeAll {i : ℕ} {vs : List α} {cache : Lru α} (hpos : 0 < cache.maxsize)
    (h : cache.Tidy) : (Sliceable.writeAll 1 i vs cache).Tidy ∧
      (Sliceable.writeAll 1 i vs cache).maxsize = cache.maxsize := by
  induction vs generalizing i cache with
  | nil => exact ⟨h, rfl⟩
  | cons v vs ih => exact ih hpos (h.set hpos i v)

/-- The next position of a walk is not cached. -/
theorem not_mem_recent (he : Earlier S earlier) (p : ℕ) : p ∉ recent S earlier p := by
  rcases he with rfl | ⟨rfl, hsize⟩
  · exact fun hmem => by simpa using List.mem_of_mem_drop hmem
  · intro hmem
    rw [recent, List.rtake, List.length_append, List.length_range, List.length_range,
      List.drop_append] at hmem
    rcases List.mem_append.mp hmem with hmem | hmem
    · obtain ⟨j, hj, heq⟩ := List.mem_drop_iff_getElem.mp hmem
      rw [List.getElem_range] at heq
      rw [List.length_range] at hj
      omega
    · exact absurd (List.mem_of_mem_drop hmem) (by simp)

/-- Using the next positions in order. -/
theorem useAll_recent (he : Earlier S earlier) (p m : ℕ) :
    useAll S.cacheSize (recent S earlier p) (List.range' p m) = recent S earlier (p + m) := by
  induction m generalizing p with
  | zero => rfl
  | succ m ih =>
    have hfilter := filter_ne_of_not_mem (not_mem_recent he p)
    have hnext : (recent S earlier p ++ [p]).rtake S.cacheSize = recent S earlier (p + 1) := by
      rw [recent, rtake_rtake_append, List.append_assoc, ← List.range_succ, recent]
    rw [List.range'_succ, useAll, List.foldl_cons, hfilter, hnext, ← useAll, ih]
    congr 1
    omega

/-- The positions used last are at the end. -/
theorem suffix_useAll {maxsize : ℕ} {ks before more : List ℕ}
    (h : before.rtake maxsize <:+ ks) (hnodup : (before ++ more).Nodup) :
    (before ++ more).rtake maxsize <:+ useAll maxsize ks more := by
  induction more generalizing ks before with
  | nil => rwa [List.append_nil]
  | cons k more ih =>
    have hsplit : before ++ k :: more = (before ++ [k]) ++ more := by simp
    rw [hsplit] at hnodup ⊢
    refine ih ?_ hnodup
    have hk : k ∉ before := fun hmem =>
      (List.nodup_append.mp (List.nodup_append.mp hnodup).1).2.2 k hmem k (by simp) rfl
    have hfilter : (before.rtake maxsize).filter (· ≠ k) = before.rtake maxsize :=
      filter_ne_of_not_mem fun hmem => hk (List.mem_of_mem_drop hmem)
    obtain ⟨front, rfl⟩ := h
    rw [← rtake_rtake_append]
    apply rtake_suffix
    rw [List.filter_append, hfilter, List.append_assoc]
    exact List.suffix_append _ _

theorem length_useAll_le {maxsize : ℕ} {ks more : List ℕ} (h : ks.length ≤ maxsize) :
    (useAll maxsize ks more).length ≤ maxsize := by
  induction more generalizing ks with
  | nil => exact h
  | cons k more ih =>
    apply ih
    rw [length_rtake]
    exact Nat.min_le_left _ _

/-- Using as many positions in a row as the cache holds. -/
theorem useAll_run {maxsize : ℕ} {ks : List ℕ} (h : ks.length ≤ maxsize) {i m : ℕ}
    (hm : maxsize ≤ m) :
    useAll maxsize ks (List.range' i m) = (List.range' i m).rtake maxsize := by
  have hsuffix : (List.range' i m).rtake maxsize <:+ useAll maxsize ks (List.range' i m) :=
    @suffix_useAll maxsize ks [] _ (by simp) (by simpa using List.nodup_range')
  refine (hsuffix.eq_of_length_le ?_).symm
  rw [length_rtake, List.length_range', Nat.min_eq_left hm]
  exact length_useAll_le h

theorem recent_of_le {p : ℕ} (hp : S.cacheSize ≤ p) :
    recent S earlier p = (List.range p).rtake S.cacheSize :=
  rtake_append_of_le _ (by rwa [List.length_range])

theorem range_split {i p : ℕ} (h : i ≤ p) : List.range p = List.range i ++ List.range' i (p - i) := by
  have happend := @List.range'_append_1 0 i (p - i)
  rw [Nat.zero_add, Nat.add_sub_cancel' h] at happend
  rw [List.range_eq_range', List.range_eq_range', happend]

/-! ## One step of a walk

The next position of a walk is cached, in which case the walk is ahead of what was read, or it is
not, and then all that was read ahead has been used. The two cases keep `Ahead` and `Behind`
between them: reading at the front leads to the first, unless more is read ahead than the cache
holds, which leads to the second, where each position is read on its own, again. In none of them
does the slice read ahead begin with a cached position, and this is why the positions it is cached
under are right. -/

/-- The position `i` of a walk is ahead of what was read: the positions before `p` were
used last, and those from `b` to `i` once more. -/
def Ahead (S : Source α) (s : Sliceable α) (earlier : List ℕ) (i p : ℕ) : Prop :=
  ∃ front b, b ≤ i ∧ s.cache.keys = front ++ List.range' i (p - i) ++ List.range' b (i - b) ∧
    front ++ List.range' b (p - b) = recent S earlier p ∧ (p < S.xs.length → s.stop = some p)

/-- It is behind: more was read ahead than the cache holds. -/
structure Behind (S : Source α) (s : Sliceable α) (earlier : List ℕ) (i p : ℕ) : Prop where
  /-- the positions before `p` were used last -/
  keys : s.cache.keys = recent S earlier p
  /-- but this one is no longer cached -/
  lt : i + S.cacheSize < p
  /-- it was read ahead -/
  le : p ≤ i + prefetchSize
  /-- and the iterator is further on -/
  stop : ∃ n, s.stop = some n ∧ p ≤ n

/-- **Where a walk stands** when position `i` is next and those before `p` were read. -/
structure Walking (S : Source α) (s : Sliceable α) (earlier : List ℕ) (i p : ℕ) : Prop where
  /-- what is cached is right, and so is the iterator -/
  right : Sliceable.Right S s
  /-- which is one -/
  live : s.iterator ≠ .bare
  /-- the cache keeps its bound -/
  tidy : s.cache.Tidy
  /-- which is that of the source -/
  maxsize : s.cache.maxsize = S.cacheSize
  /-- what an earlier walk has left -/
  history : Earlier S earlier
  /-- the next position was read or comes next -/
  le : i ≤ p
  /-- no more was read than there is -/
  le_length : p ≤ S.xs.length
  /-- the positions cached -/
  place : Ahead S s earlier i p ∨ Behind S s earlier i p

variable {s : Sliceable α} {i p : ℕ}

theorem Walking.pos (h : Walking S s earlier i p) : 0 < s.cache.maxsize :=
  h.maxsize ▸ S.cacheSize_pos

theorem maxsize_readAll (is : List ℕ) (cache : Lru α) :
    (Sliceable.readAll is cache).2.maxsize = cache.maxsize := by
  induction is generalizing cache with
  | nil => rfl
  | cons i is ih =>
    rw [Sliceable.readAll]
    rcases cache.lookup i with _ | x
    · rfl
    · have hrest := ih (cache.touch i)
      rw [Lru.maxsize_touch] at hrest
      rcases hrun : Sliceable.readAll is (cache.touch i) with ⟨e | xs, cache'⟩ <;>
        rw [hrun] at hrest <;> exact hrest

/-! ## Reading ahead of a position

What is read ahead comes in two parts: positions that are cached, and then positions that are read
from the iterator and written to the cache. At the front of a walk there is no first part. -/

/-- **Reading ahead** from where the iterator is: the first `m` positions of the slice are
taken from the cache, and the others read and written from its start on. -/
theorem readAhead_eq {cache : Lru α} (hc : cache.Holds (Sliceable.Cached S.xs)) (i : ℕ) :
    ∃ m vs cache', cache'.Holds (Sliceable.Cached S.xs) ∧ cache'.maxsize = cache.maxsize ∧
      (∀ j < m, cache.has (i + j) = true) ∧ (m < prefetchSize → cache.has (i + m) = false) ∧
      Sliceable.readAll (List.range' i m) cache = (.ok vs, cache') ∧
      readAhead S ⟨cache, some i, .live (S.xs.drop i)⟩ i =
        (.ok (vs ++ (S.xs.drop (i + m)).take (prefetchSize - m)),
          ⟨Sliceable.writeAll 1 i ((S.xs.drop (i + m)).take (prefetchSize - m)) cache',
            some (i + prefetchSize),
            .live (S.xs.drop (if m < prefetchSize then i + prefetchSize else i))⟩) := by
  obtain ⟨m, hu, hall⟩ :=
    Sliceable.cachedUpTo_eq cache (some (i + prefetchSize)) 1 cache.entries.length i
  have hends := @Sliceable.cachedUpTo_stops _ cache (some (i + prefetchSize)) 1 Nat.one_pos
    cache.entries.length i (List.length_filter_le _ _)
  rw [hu] at hends
  simp only [Nat.mul_one] at hu hall hends
  -- the loop of the slice has passed over `m` cached positions
  have hcached : ∀ j ∈ List.range' i m, cache.has j = true := by
    intro j hj
    obtain ⟨d, hd, rfl⟩ := List.mem_range'.mp hj
    rw [Nat.one_mul]
    exact (hall d hd).2
  obtain ⟨vs, cache', hrun, hc', -⟩ := Sliceable.readAll_right hc hcached
  have hmax : cache'.maxsize = cache.maxsize := by
    have hsize := maxsize_readAll (List.range' i m 1) cache
    rwa [hrun] at hsize
  refine ⟨m, vs, cache', hc', hmax, fun j hj => (hall j hj).2, fun hlt => ?_, hrun, ?_⟩
  · refine Bool.eq_false_iff.mpr fun hhas => hends ⟨fun b hb => ?_, hhas⟩
    obtain rfl := Option.some.inj hb
    omega
  · have hupd : Sliceable.indexUpd ⟨cache, some i, .live (S.xs.drop i)⟩ i
        (some (i + prefetchSize)) 1 = i + m := hu
    have hlow : ¬i + m < i := by omega
    have hrange := @Sliceable.xrange_add_mul 1 Nat.one_pos i m
    rw [Nat.mul_one] at hrange
    -- if the whole slice is cached, the iterator is not moved, but `stop` is
    have hread : Sliceable.readOn S (.live (S.xs.drop i)) i (i + m) (some (i + prefetchSize)) 1 =
        ((S.xs.drop (i + m)).take (prefetchSize - m),
          .live (S.xs.drop (if m < prefetchSize then i + prefetchSize else i))) := by
      by_cases hlt : m < prefetchSize
      · have hgo : i + m < i + prefetchSize := by omega
        have hend : i + max m prefetchSize = i + prefetchSize := by omega
        simp only [Sliceable.readOn, if_pos hgo, if_pos hlt, Nat.add_sub_cancel_left, islice_one,
          Source.items, Iterator.advance, List.drop_take, List.drop_drop, hend]
      · have hstay : ¬i + m < i + prefetchSize := by omega
        have hnone : prefetchSize - m = 0 := by omega
        simp only [Sliceable.readOn, if_neg hstay, if_neg hlt, hnone, List.take_zero]
    simp only [readAhead, Sliceable.getSlice, reduceCtorEq, false_and, if_false, Option.getD_some,
      Sliceable.stepOf, hupd, hlow, Sliceable.continueSlice, hrange, hrun, hread]

/-- What is read ahead when it starts with a position that is not cached. -/
theorem readAhead_next {cache : Lru α} (hc : cache.Holds (Sliceable.Cached S.xs))
    (hmiss : cache.has i = false) :
    readAhead S ⟨cache, some i, .live (S.xs.drop i)⟩ i =
      (.ok ((S.xs.drop i).take prefetchSize),
        ⟨Sliceable.writeAll 1 i ((S.xs.drop i).take prefetchSize) cache,
          some (i + prefetchSize), .live (S.xs.drop (i + prefetchSize))⟩) := by
  obtain ⟨m, vs, cache', -, -, hall, -, hcached, hrun⟩ := readAhead_eq hc i
  cases m with
  | zero =>
    obtain ⟨hvs, rfl⟩ := Prod.mk.inj hcached
    obtain rfl := Except.ok.inj hvs
    exact hrun
  | succ m =>
    have hhas := hall 0 (Nat.succ_pos m)
    rw [Nat.add_zero, hmiss] at hhas
    cases hhas

/-- An access that misses reads its position and those behind it. -/
theorem getIndex_read (h : Sliceable.Right S s) (hlive : s.iterator ≠ .bare)
    (hi : i < S.xs.length) (hmiss : s.cache.lookup i = none) (hstop : s.stop ≠ some (i + 1))
    (hnext : (s.cache.set i S.xs[i]).has (i + 1) = false) :
    getIndex S s i = (.ok S.xs[i],
      ⟨Sliceable.writeAll 1 (i + 1) ((S.xs.drop (i + 1)).take prefetchSize) (s.cache.set i S.xs[i]),
        some (i + 1 + prefetchSize), .live (S.xs.drop (i + 1 + prefetchSize))⟩) := by
  have hcache : (s.cache.set i S.xs[i]).Holds (Sliceable.Cached S.xs) :=
    h.cache.set (List.getElem?_eq_getElem hi)
  simp only [getIndex, Sliceable.getIndex_miss h hlive hi hmiss, if_neg (Ne.symm hstop),
    readAhead_next hcache hnext]

/-- The cache after such an access has used the positions read, in order. -/
theorem keys_read (hpos : 0 < s.cache.maxsize) (hi : i < S.xs.length) :
    (Sliceable.writeAll 1 (i + 1) ((S.xs.drop (i + 1)).take prefetchSize)
        (s.cache.set i S.xs[i])).keys =
      useAll s.cache.maxsize s.cache.keys
        (List.range' i (min prefetchSize (S.xs.length - (i + 1)) + 1)) := by
  have hwrite := @keys_writeAll _ (i + 1) ((S.xs.drop (i + 1)).take prefetchSize)
    (s.cache.set i S.xs[i]) hpos
  rw [hwrite, Lru.keys_set hpos, Lru.maxsize_set, List.length_take, List.length_drop,
    List.range'_succ]
  rfl

/-! ## The step

A position ahead is used, one at the front is read, and one behind it, which has been forgotten,
is read again. Each case gives the answer and says where the walk stands then. -/

/-- The read leaves the walk where it belongs, given the positions it leaves cached. -/
theorem Walking.read (h : Walking S s earlier i p) (hi : i < S.xs.length)
    (hmiss : s.cache.lookup i = none) (hstop : s.stop ≠ some (i + 1))
    (hnext : (s.cache.set i S.xs[i]).has (i + 1) = false)
    (hkeys : useAll S.cacheSize s.cache.keys
        (List.range' i (min prefetchSize (S.xs.length - (i + 1)) + 1)) =
      recent S earlier (i + 1 + min prefetchSize (S.xs.length - (i + 1)))) :
    (getIndex S s i).1 = .ok S.xs[i] ∧ Walking S (getIndex S s i).2 earlier (i + 1)
      (i + 1 + min prefetchSize (S.xs.length - (i + 1))) := by
  set m := min prefetchSize (S.xs.length - (i + 1)) with hm
  rw [getIndex_read h.right h.live hi hmiss hstop hnext]
  have hget : S.xs[i]? = some S.xs[i] := List.getElem?_eq_getElem hi
  have hcache : (s.cache.set i S.xs[i]).Holds (Sliceable.Cached S.xs) := h.right.cache.set hget
  obtain ⟨htidy, hmax⟩ := @tidy_writeAll _ (i + 1) ((S.xs.drop (i + 1)).take prefetchSize)
    (s.cache.set i S.xs[i]) h.pos (h.tidy.set h.pos i _)
  have hks := keys_read h.pos hi
  rw [h.maxsize, ← hm, hkeys] at hks
  refine ⟨rfl, ⟨Sliceable.writeAll_right hcache fun j x hj => ?_, _, rfl, rfl⟩,
    Iterator.live_ne_bare _, htidy, hmax.trans h.maxsize, h.history, Nat.le_add_right _ _, by omega,
    ?_⟩
  · obtain ⟨hj, hx⟩ := List.getElem?_eq_some_iff.mp hj
    rw [List.length_take, List.length_drop] at hj
    rw [Nat.mul_one, List.getElem?_eq_getElem (by omega), ← hx, List.getElem_take, List.getElem_drop]
  · by_cases hsize : m ≤ S.cacheSize
    · -- what was read ahead is still cached
      refine .inl ?_
      have hrun : List.range' (i + 1) m <:+ recent S earlier (i + 1 + m) := by
        have hcut : (List.range' (i + 1) m).rtake S.cacheSize = List.range' (i + 1) m :=
          rtake_of_length_le (by rwa [List.length_range'])
        rw [← hcut, recent, range_split (Nat.le_add_right (i + 1) m), Nat.add_sub_cancel_left]
        exact rtake_suffix ⟨earlier ++ List.range (i + 1), List.append_assoc _ _ _⟩
      obtain ⟨front, hfront⟩ := hrun
      refine ⟨front, i + 1, le_rfl, ?_, ?_, fun hlt => ?_⟩
      · rw [Nat.add_sub_cancel_left, Nat.sub_self, List.range'_zero, List.append_nil, hfront]
        exact hks
      · rw [Nat.add_sub_cancel_left, hfront]
      · have hfull : m = prefetchSize := by omega
        rw [hfull]
    · refine .inr ⟨hks, by omega, by omega, _, rfl, by omega⟩

/-- A cached position ahead is used again. -/
theorem Walking.hit (h : Walking S s earlier i p) (hlt : i < p) (hplace : Ahead S s earlier i p) :
    ∃ hi : i < S.xs.length, (getIndex S s i).1 = .ok S.xs[i] ∧
      Walking S (getIndex S s i).2 earlier (i + 1) p := by
  have hi : i < S.xs.length := hlt.trans_le h.le_length
  obtain ⟨front, b, hb, hkeys, hrecent, hstop⟩ := hplace
  obtain ⟨m, hm⟩ : ∃ m, p - i = m + 1 := ⟨p - i - 1, by omega⟩
  rw [hm, List.range'_succ] at hkeys
  have hmem : i ∈ s.cache.keys := by rw [hkeys]; simp
  obtain ⟨x, hx⟩ := Option.isSome_iff_exists.mp (Lru.has_iff_mem_keys.mpr hmem)
  have hval : S.xs[i]? = some x := h.right.cache.lookup hx
  obtain ⟨_, rfl⟩ := List.getElem?_eq_some_iff.mp hval
  have hget : getIndex S s i = (.ok S.xs[i], { s with cache := s.cache.touch i }) := by
    simp only [getIndex, Sliceable.getIndex, hx, if_true]
  -- the position goes to the end, behind those used again before
  have hsplit : s.cache.keys = front ++ i :: (List.range' (i + 1) m ++ List.range' b (i - b)) := by
    rw [hkeys]
    simp
  have hnodup := h.tidy.nodup
  rw [hsplit] at hnodup
  have hfront : i ∉ front := fun hin => (List.nodup_append.mp hnodup).2.2 i hin i (by simp) rfl
  have hrest : i ∉ List.range' (i + 1) m ++ List.range' b (i - b) :=
    (List.nodup_cons.mp (List.nodup_append.mp hnodup).2.1).1
  have htouch : (s.cache.touch i).keys =
      front ++ List.range' (i + 1) (p - (i + 1)) ++ List.range' b (i + 1 - b) := by
    have hm' : p - (i + 1) = m := by omega
    have hb' : i + 1 - b = i - b + 1 := by omega
    have hlast : b + (i - b) = i := by omega
    rw [Lru.keys_touch hmem, hsplit, List.filter_append, filter_ne_of_not_mem hfront,
      List.filter_cons_of_neg (by simp), filter_ne_of_not_mem hrest, hm', hb', List.range'_1_concat,
      hlast]
    simp only [List.append_assoc]
  obtain ⟨n, hn, hview⟩ := h.right.view
  rw [hget]
  exact ⟨hi, rfl, ⟨h.right.cache.touch i, n, hn, hview⟩, h.live, h.tidy.touch i,
    (Lru.maxsize_touch i).trans h.maxsize, h.history, hlt, h.le_length,
    .inl ⟨front, b, Nat.le_succ_of_le hb, htouch, hrecent, hstop⟩⟩

/-- At the front of a walk, a position is read in its turn. -/
theorem Walking.front (h : Walking S s earlier i i) (hi : i < S.xs.length)
    (hplace : Ahead S s earlier i i) :
    (getIndex S s i).1 = .ok S.xs[i] ∧ Walking S (getIndex S s i).2 earlier (i + 1)
      (i + 1 + min prefetchSize (S.xs.length - (i + 1))) := by
  obtain ⟨front, b, -, hkeys, hrecent, hstop⟩ := hplace
  have hks : s.cache.keys = recent S earlier i := by
    rw [hkeys, Nat.sub_self, List.range'_zero, List.append_nil, hrecent]
  have hset : (s.cache.set i S.xs[i]).keys = recent S earlier (i + 1) := by
    have huse := useAll_recent h.history i 1
    rwa [← hks, ← h.maxsize, List.range'_one, useAll, List.foldl_cons, List.foldl_nil,
      ← Lru.keys_set h.pos] at huse
  refine h.read hi (Lru.lookup_eq_none (hks ▸ not_mem_recent h.history i)) ?_
    (Lru.has_eq_false (hset ▸ not_mem_recent h.history (i + 1))) ?_
  · rw [hstop hi]
    exact fun heq => absurd (Option.some.inj heq) (Nat.succ_ne_self i).symm
  · rw [hks, useAll_recent h.history]
    congr 1
    omega

/-- Behind it, a position is read again. -/
theorem Walking.back (h : Walking S s earlier i p) (hplace : Behind S s earlier i p) :
    ∃ hi : i < S.xs.length, (getIndex S s i).1 = .ok S.xs[i] ∧
      Walking S (getIndex S s i).2 earlier (i + 1)
        (i + 1 + min prefetchSize (S.xs.length - (i + 1))) := by
  have hlt := hplace.lt
  have hle := hplace.le
  have hlen := h.le_length
  have hpos := S.cacheSize_pos
  have hi : i < S.xs.length := by omega
  have hks : s.cache.keys = List.range' (p - S.cacheSize) S.cacheSize := by
    rw [hplace.keys, recent_of_le (by omega), range_split (Nat.sub_le p S.cacheSize),
      Nat.sub_sub_self (by omega), rtake_append_of_le _ (by rw [List.length_range']),
      rtake_of_length_le (by rw [List.length_range'])]
  have hmiss : i ∉ s.cache.keys := by
    rw [hks, List.mem_range'_1]
    omega
  have hnext : i + 1 ∉ (s.cache.set i S.xs[i]).keys := by
    obtain ⟨c, hc⟩ : ∃ c, S.cacheSize = c + 1 := ⟨S.cacheSize - 1, by omega⟩
    rw [Lru.keys_set h.pos, h.maxsize, filter_ne_of_not_mem hmiss, hks, hc, List.rtake_concat_succ,
      List.range'_succ, ← List.singleton_append, rtake_append_of_le _ (by rw [List.length_range']),
      rtake_of_length_le (by rw [List.length_range'])]
    simp only [List.mem_append, List.mem_range'_1, List.mem_singleton]
    omega
  obtain ⟨n, hn, hpn⟩ := hplace.stop
  refine ⟨hi, h.read hi (Lru.lookup_eq_none hmiss) ?_ (Lru.has_eq_false hnext) ?_⟩
  · rw [hn]
    intro heq
    have := Option.some.inj heq
    omega
  · rw [useAll_run (h.maxsize ▸ h.tidy.length_le) (by omega), recent_of_le (by omega)]
    have hsplit := @range_split i (i + 1 + min prefetchSize (S.xs.length - (i + 1))) (by omega)
    have hcount : i + 1 + min prefetchSize (S.xs.length - (i + 1)) - i =
        min prefetchSize (S.xs.length - (i + 1)) + 1 := by omega
    rw [hsplit, hcount, rtake_append_of_le _ (by rw [List.length_range']; omega)]

/-- **One position of a walk**: it is answered, and the walk goes on. -/
theorem Walking.step (h : Walking S s earlier i p) (hi : i < S.xs.length) :
    (getIndex S s i).1 = .ok S.xs[i] ∧
      ∃ p', Walking S (getIndex S s i).2 earlier (i + 1) p' := by
  rcases h.place with hplace | hplace
  · rcases h.le.eq_or_lt with rfl | hlt
    · obtain ⟨hans, hwalk⟩ := h.front hi hplace
      exact ⟨hans, _, hwalk⟩
    · obtain ⟨_, hans, hwalk⟩ := h.hit hlt hplace
      exact ⟨hans, _, hwalk⟩
  · obtain ⟨_, hans, hwalk⟩ := h.back hplace
    exact ⟨hans, _, hwalk⟩

/-! ## A walk over all elements

What is left of the walk, `Rested`, is a place to start the next one from, if the function gives
an iterator: `Earlier` is what a new walk has to know of the old one. With that the walks are a
machine whose invariant is `Rested`, and every one of them yields the list. -/

/-- **What a walk leaves**: the last positions are cached, and the function has been
called again. -/
structure Rested (S : Source α) (s : Sliceable α) : Prop where
  /-- what is cached is right, and so is what the function gives -/
  right : Sliceable.Right S s
  /-- the cache keeps its bound -/
  tidy : s.cache.Tidy
  /-- which is that of the source -/
  maxsize : s.cache.maxsize = S.cacheSize
  /-- the last positions, as many as it holds -/
  keys : s.cache.keys = (List.range S.xs.length).rtake S.cacheSize
  /-- from the start -/
  stop : s.stop = some 0
  /-- the function has been called -/
  iterator : s.iterator = S.f

theorem walking_init (S : Source α) : Walking S (Sliceable.init S) [] 0 0 where
  right := Sliceable.right_init
  live := Iterator.live_ne_bare _
  tidy := Lru.tidy_empty _
  maxsize := rfl
  history := .inl rfl
  le := le_rfl
  le_length := Nat.zero_le _
  place := .inl ⟨[], 0, le_rfl, rfl, by simp [recent], fun _ => rfl⟩

/-- Where the function gives an iterator, another walk can start. -/
theorem Rested.walking (h : Rested S s) (hc : S.container = false) :
    ∃ earlier p, Walking S s earlier 0 p := by
  have hlive : s.iterator ≠ .bare := by
    rw [h.iterator, Source.f, hc]
    exact Iterator.live_ne_bare _
  by_cases hsize : S.xs.length ≤ S.cacheSize
  · -- everything is cached
    have hkeys : s.cache.keys = List.range S.xs.length := by
      rw [h.keys, rtake_of_length_le (by rwa [List.length_range])]
    have hrecent : recent S [] S.xs.length = List.range S.xs.length := by
      rw [recent, List.nil_append, rtake_of_length_le (by rwa [List.length_range])]
    refine ⟨[], S.xs.length, h.right, hlive, h.tidy, h.maxsize, .inl rfl, Nat.zero_le _, le_rfl,
      .inl ⟨[], 0, le_rfl, ?_, ?_, fun hlt => absurd hlt (Nat.lt_irrefl _)⟩⟩
    · rw [hkeys, Nat.sub_zero, List.range_eq_range']
      simp
    · rw [hrecent, Nat.sub_zero, List.range_eq_range', List.nil_append]
  · refine ⟨List.range S.xs.length, 0, h.right, hlive, h.tidy, h.maxsize,
      .inr ⟨rfl, Nat.not_le.mp hsize⟩, le_rfl, Nat.zero_le _,
      .inl ⟨s.cache.keys, 0, le_rfl, ?_, ?_, fun _ => h.stop⟩⟩
    · simp
    · rw [h.keys, recent]
      simp

/-- Behind the last element the walk ends. -/
theorem Walking.last (h : Walking S s earlier S.xs.length p) :
    (getIndex S s S.xs.length).1 = .error .stopIteration ∧
      Rested S (getIndex S s S.xs.length).2 := by
  obtain rfl : p = S.xs.length := le_antisymm h.le_length h.le
  have hkeys : s.cache.keys = (List.range S.xs.length).rtake S.cacheSize := by
    have hrecent : recent S earlier S.xs.length = (List.range S.xs.length).rtake S.cacheSize := by
      rcases h.history with rfl | ⟨rfl, hsize⟩
      · rw [recent, List.nil_append]
      · exact recent_of_le hsize.le
    rcases h.place with ⟨front, b, -, hks, hfront, -⟩ | hplace
    · rw [hks, Nat.sub_self, List.range'_zero, List.append_nil, ← hrecent, ← hfront]
    · rw [hplace.keys, hrecent]
  obtain ⟨-, hright⟩ := Sliceable.getIndex_right h.right (k := S.xs.length) fun _ => .inr le_rfl
  have hget := Sliceable.getIndex_end h.right
  rw [hget] at hright
  simp only [getIndex, hget]
  exact ⟨trivial, hright, h.tidy, h.maxsize, hkeys, rfl, rfl⟩

/-- A walk yields the list. -/
theorem Walking.iterateAll (h : Walking S s earlier 0 p) :
    (ListPrefetch.iterateAll S s).1 = some (.ok S.xs) ∧
      Rested S (ListPrefetch.iterateAll S s).2 :=
  @Sliceable.walk_yields _ (getIndex S) S.xs (fun i s => ∃ p, Walking S s earlier i p) (Rested S)
    (fun _ hi _ hwalk => hwalk.elim fun _ hwalk => hwalk.step hi)
    (fun _ hwalk => hwalk.elim fun _ hwalk => hwalk.last) 0 s ⟨p, h⟩
    (Nat.zero_le _) (S.xs.length + 1) (by omega)

/-- **The first walk** yields the list. -/
theorem iterateAll_init (S : Source α) :
    (iterateAll S (Sliceable.init S)).1 = some (.ok S.xs) ∧
      Rested S (iterateAll S (Sliceable.init S)).2 :=
  (walking_init S).iterateAll

/-- **Every later walk** yields it again, where the function gives an iterator. -/
theorem Rested.iterateAll (h : Rested S s) (hc : S.container = false) :
    (ListPrefetch.iterateAll S s).1 = some (.ok S.xs) ∧
      Rested S (ListPrefetch.iterateAll S s).2 := by
  obtain ⟨earlier, p, hwalk⟩ := h.walking hc
  exact hwalk.iterateAll

/-- Walks as a machine, whose inputs ask for one more. -/
def walker (S : Source α) : Machine (Sliceable α) Unit (Option (Except Exc (List α))) :=
  fun s _ => ListPrefetch.iterateAll S s

/-- However many walks are made, each yields the list. -/
theorem walks_eq {S : Source α} (hc : S.container = false) (n : ℕ) :
    (walker S).outputs (Sliceable.init S) (List.replicate n ()) =
      List.replicate n (some (.ok S.xs)) := by
  have hstep : ∀ (s : Sliceable α) (u : Unit), s = Sliceable.init S ∨ Rested S s → True →
      (walker S s u).1 = some (.ok S.xs) ∧
        ((walker S s u).2 = Sliceable.init S ∨ Rested S (walker S s u).2) := by
    rintro s ⟨⟩ (rfl | h) -
    · exact ⟨(iterateAll_init S).1, .inr (iterateAll_init S).2⟩
    · exact ⟨(h.iterateAll hc).1, .inr (h.iterateAll hc).2⟩
  have hrun := @Machine.Along.outputs_eq _ _ _ (walker S) (fun _ _ => True) _
    (fun _ => some (.ok S.xs)) hstep (Sliceable.init S) (List.replicate n ()) (.inl rfl)
    (Machine.along_of_forall (fun _ _ => trivial) _ _)
  rw [hrun, List.map_replicate]

/-- `ListPrefetch(f)`, whose cache holds 1000 positions. -/
def source (xs : List α) (container : Bool) : Source α where
  xs := xs
  container := container
  cacheSize := 1000
  cacheSize_pos := by decide
  length := none
  length_eq n h := absurd h.symm (Option.some_ne_none n)

end ListPrefetch

end Zerodb
