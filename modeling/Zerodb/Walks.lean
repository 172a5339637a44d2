import Zerodb.Sliceable

/-!
# Walks: how often a sliceable can be walked

A walk reads positions until `StopIteration`, after which the iterator is what the function
gives. `walk_yields` is the rule for a walk, for any `__getitem__`. Of a `Sliceable`, the
first walk yields the list (`Usable.iterateAll`); after it the next one does, too, unless
the function gives a bare container that is longer than the cache: then it does not end
(`Stuck.iterateAll`).
-/

namespace Zerodb

universe u

variable {α : Type u}

theorem Iterator.live_ne_bare (rest : List α) : Iterator.live rest ≠ .bare := by
  intro h
  cases h

namespace Sliceable

/-! ## The walk rule

A walk asks the same method for position after position, so that it can be followed with an
invariant of the position alone. There are two rules, one for walks that end and one for those
that do not. -/

/-- `__iter__` for any `__getitem__`: read positions until `StopIteration`. Nothing is
returned when it has not ended after as many elements as there is fuel. -/
def walk (get : Sliceable α → ℕ → Except Exc α × Sliceable α) :
    ℕ → ℕ → Sliceable α → Option (Except Exc (List α)) × Sliceable α
  | 0, _, s => (none, s)
  | fuel + 1, i, s =>
    match get s i with
    | (.error .stopIteration, s) => (some (.ok []), s)
    | (.error e, s) => (some (.error e), s)
    | (.ok x, s) =>
      let (result, s) := walk get fuel (i + 1) s
      (result.map (·.map (x :: ·)), s)

theorem iterate_eq_walk (S : Source α) (fuel i : ℕ) (s : Sliceable α) :
    iterate S fuel i s = walk (getIndex S) fuel i s := by
  induction fuel generalizing i s with
  | zero => rfl
  | succ fuel ih =>
    rw [iterate, walk]
    rcases getIndex S s i with ⟨e | x, t⟩
    · cases e <;> rfl
    · simp only [ih]

variable {get : Sliceable α → ℕ → Except Exc α × Sliceable α} {xs : List α}

/-- **Walk rule**: a walk yields the list if there is an invariant of the position under
which the elements are answered in turn, and the end is found. -/
theorem walk_yields {I : ℕ → Sliceable α → Prop} {E : Sliceable α → Prop}
    (hstep : ∀ (i : ℕ) (hi : i < xs.length) (s : Sliceable α), I i s →
      (get s i).1 = .ok xs[i] ∧ I (i + 1) (get s i).2)
    (hlast : ∀ s, I xs.length s →
      (get s xs.length).1 = .error .stopIteration ∧ E (get s xs.length).2)
    {i : ℕ} {s : Sliceable α} (h : I i s) (hi : i ≤ xs.length) {fuel : ℕ}
    (hfuel : xs.length - i < fuel) :
    (walk get fuel i s).1 = some (.ok (xs.drop i)) ∧ E (walk get fuel i s).2 := by
  induction fuel generalizing i s with
  | zero => omega
  | succ fuel ih =>
    rw [walk]
    rcases hi.eq_or_lt with rfl | hlt
    · obtain ⟨hans, hend⟩ := hlast s h
      rcases hget : get s xs.length with ⟨result, t⟩
      rw [hget] at hans hend
      obtain rfl : result = .error .stopIteration := hans
      rw [List.drop_length]
      exact ⟨rfl, hend⟩
    · obtain ⟨hans, hnext⟩ := hstep i hlt s h
      rcases hget : get s i with ⟨result, t⟩
      rw [hget] at hans hnext
      obtain rfl : result = .ok xs[i] := hans
      obtain ⟨hres, hend⟩ := ih hnext hlt (by omega)
      refine ⟨?_, hend⟩
      simp only [hres, List.drop_eq_getElem_cons hlt]
      rfl

/-- It does not end if an invariant says that every position is answered. -/
theorem walk_endless {I : ℕ → Sliceable α → Prop} {n : ℕ}
    (hstep : ∀ (i : ℕ), i < n → ∀ s, I i s → ∃ x, (get s i).1 = .ok x ∧ I (i + 1) (get s i).2)
    {i fuel : ℕ} (hfuel : i + fuel ≤ n) {s : Sliceable α} (h : I i s) :
    (walk get fuel i s).1 = none := by
  induction fuel generalizing i s with
  | zero => rfl
  | succ fuel ih =>
    obtain ⟨x, hans, hnext⟩ := hstep i (by omega) s h
    rcases hget : get s i with ⟨result, t⟩
    rw [hget] at hans hnext
    obtain rfl : result = .ok x := hans
    rw [walk, hget]
    simp only [ih (by omega) hnext, Option.map_none]

/-! ## Answers during a walk

During a walk the next position is cached, or the iterator is at it, or it is a bare container. -/

variable {S : Source α} {s : Sliceable α}

/-- A position that is not cached is read from the iterator, which may be started again. -/
theorem getIndex_miss {i : ℕ} (h : Right S s) (hlive : s.iterator ≠ .bare)
    (hi : i < S.xs.length) (hmiss : s.cache.lookup i = none) :
    getIndex S s i =
      (.ok S.xs[i], ⟨s.cache.set i S.xs[i], some (i + 1), .live (S.xs.drop (i + 1))⟩) := by
  obtain ⟨n, hstop, hview⟩ := h.view
  have hread : ∀ m rest, rest = S.xs.drop m → m ≤ i →
      readNext S s i m (.live rest) =
        (.ok S.xs[i], ⟨s.cache.set i S.xs[i], some (i + 1), .live (S.xs.drop (i + 1))⟩) := by
    rintro m rest rfl hm
    have hdrop : (S.items (.live (S.xs.drop m))).drop (i - m) = S.xs[i] :: S.xs.drop (i + 1) := by
      change (S.xs.drop m).drop (i - m) = _
      rw [List.drop_drop, Nat.add_sub_cancel' hm, List.drop_eq_getElem_cons hi]
    have hrest : (S.xs.drop m).drop (i - m + 1) = S.xs.drop (i + 1) := by
      rw [List.drop_drop]
      congr 1
      omega
    rw [readNext, hdrop]
    simp only [Iterator.advance, hrest]
  simp only [getIndex, hmiss, hstop]
  by_cases hin : i < n
  · rw [if_pos hin]
    exact hread 0 S.xs rfl (Nat.zero_le i)
  · rw [if_neg hin]
    rcases hit : s.iterator with rest | _
    · rw [hit] at hview
      exact hread n rest hview (Nat.not_lt.mp hin)
    · exact absurd hit hlive

/-- Behind the last element the function is called again. -/
theorem getIndex_end (h : Right S s) :
    getIndex S s S.xs.length = (.error .stopIteration, ⟨s.cache, some 0, S.f⟩) := by
  have hmiss : s.cache.lookup S.xs.length = none := by
    refine Lru.lookup_eq_none fun hmem => ?_
    exact absurd (h.lt_of_has (Lru.has_iff_mem_keys.mpr hmem)) (Nat.lt_irrefl _)
  obtain ⟨n, hstop, hview⟩ := h.view
  have hread : ∀ m it, S.items it = S.xs.drop m → m ≤ S.xs.length →
      readNext S s S.xs.length m it = (.error .stopIteration, ⟨s.cache, some 0, S.f⟩) := by
    intro m it hit hm
    have hnil : (S.items it).drop (S.xs.length - m) = [] := by
      rw [hit, List.drop_drop, Nat.add_sub_cancel' hm, List.drop_length]
    rw [readNext, hnil]
  simp only [getIndex, hmiss, hstop]
  by_cases hlt : S.xs.length < n
  · rw [if_pos hlt]
    exact hread 0 _ rfl (Nat.zero_le _)
  · rw [if_neg hlt]
    exact hread n _ hview (Nat.not_lt.mp hlt)

/-- A position is cached, or read from an iterator. -/
theorem getIndex_cases (h : Right S s) (hit : Iterable S s) {i : ℕ} (hi : i < S.xs.length) :
    (s.cache.has i = true ∧
      getIndex S s i = (.ok S.xs[i], { s with cache := s.cache.touch i })) ∨
    getIndex S s i =
      (.ok S.xs[i], ⟨s.cache.set i S.xs[i], some (i + 1), .live (S.xs.drop (i + 1))⟩) := by
  rcases hx : s.cache.lookup i with _ | x
  · refine .inr (getIndex_miss h (fun hb => ?_) hi hx)
    have hhas := hit hb i hi
    rw [Lru.has, hx] at hhas
    cases hhas
  · obtain ⟨_, rfl⟩ := List.getElem?_eq_some_iff.mp (h.cache.lookup hx)
    exact .inl ⟨by rw [Lru.has, hx, Option.isSome_some], by simp only [getIndex, hx]⟩

/-! ## Sliceables that can be walked, and others

`Usable` is the invariant of a walk that ends, and `Stuck` that of one that does not. A walk
leaves a `Sliceable` in which the function has been called once more (`Walked`), and what that
gives decides which of the two the next walk has. -/

/-- A `Sliceable` that can be walked. -/
structure Usable (S : Source α) (s : Sliceable α) : Prop where
  /-- what is cached is right, and so is the iterator -/
  right : Right S s
  /-- which is one, or everything is cached -/
  iterable : Iterable S s
  /-- the cache keeps its bound -/
  tidy : s.cache.Tidy
  /-- which is that of the source -/
  maxsize : s.cache.maxsize = S.cacheSize

/-- A `Sliceable` whose iterator is a bare container that is not cached: it cannot. -/
structure Stuck (S : Source α) (s : Sliceable α) : Prop where
  /-- the container -/
  iterator : s.iterator = .bare
  /-- a walk starts at its start -/
  stop : s.stop = some 0
  /-- and reads from it -/
  missing : ∃ k < S.xs.length, s.cache.has k = false

theorem usable_init (S : Source α) : Usable S (init S) where
  right := right_init
  iterable hb := absurd hb (Iterator.live_ne_bare _)
  tidy := Lru.tidy_empty _
  maxsize := rfl

/-- The cache has room if it is as long as the list. -/
theorem Usable.keys_set (h : Usable S s) (hroom : S.xs.length ≤ S.cacheSize) {i : ℕ}
    (hi : i < S.xs.length) (x : α) :
    (s.cache.set i x).keys = s.cache.keys.filter (· ≠ i) ++ [i] := by
  have hsub : s.cache.keys.filter (· ≠ i) ++ [i] ⊆ List.range S.xs.length := by
    intro k hk
    rw [List.mem_range]
    rcases List.mem_append.mp hk with hk | hk
    · exact h.right.lt_of_has (Lru.has_iff_mem_keys.mpr (List.mem_of_mem_filter hk))
    · rwa [List.mem_singleton.mp hk]
  have hle := ((Lru.nodup_use h.tidy.nodup i).subperm hsub).length_le
  rw [List.length_range] at hle
  rw [Lru.keys_set (h.maxsize ▸ S.cacheSize_pos), rtake_of_length_le]
  exact hle.trans (hroom.trans h.maxsize.ge)

/-- One position of a walk; a cache as long as the list forgets none. -/
theorem Usable.step (h : Usable S s) {i : ℕ} (hi : i < S.xs.length) :
    (getIndex S s i).1 = .ok S.xs[i] ∧ Usable S (getIndex S s i).2 ∧
      (S.xs.length ≤ S.cacheSize → (∀ k < i, s.cache.has k = true) →
        ∀ k < i + 1, (getIndex S s i).2.cache.has k = true) := by
  have hok : s.iterator = .bare → s.cache.has i = true ∨ S.xs.length ≤ i :=
    fun hb => .inl (h.iterable hb i hi)
  obtain ⟨-, hright⟩ := getIndex_right h.right hok
  have hiter := getIndex_iterable h.right h.iterable hi
  rcases getIndex_cases h.right h.iterable hi with ⟨hhas, hget⟩ | hget
  · rw [hget] at hright hiter ⊢
    refine ⟨rfl, ⟨hright, hiter, h.tidy.touch i, (Lru.maxsize_touch i).trans h.maxsize⟩,
      fun _ hall k hk => ?_⟩
    rw [Lru.has, Lru.lookup_touch]
    rcases Nat.lt_succ_iff_lt_or_eq.mp hk with hlt | rfl
    · exact hall k hlt
    · exact hhas
  · rw [hget] at hright hiter ⊢
    refine ⟨rfl, ⟨hright, hiter, h.tidy.set (h.maxsize ▸ S.cacheSize_pos) i _, h.maxsize⟩,
      fun hroom hall k hk => ?_⟩
    rw [Lru.has_iff_mem_keys, h.keys_set hroom hi]
    rcases Nat.lt_succ_iff_lt_or_eq.mp hk with hlt | rfl
    · refine List.mem_append_left _ (List.mem_filter.mpr ⟨?_, decide_eq_true hlt.ne⟩)
      exact Lru.has_iff_mem_keys.mp (hall k hlt)
    · exact List.mem_append_right _ (List.mem_singleton_self k)

/-- What a walk leaves. -/
structure Walked (S : Source α) (s : Sliceable α) : Prop where
  /-- what is cached is right -/
  right : Right S s
  /-- the cache keeps its bound -/
  tidy : s.cache.Tidy
  /-- which is that of the source -/
  maxsize : s.cache.maxsize = S.cacheSize
  /-- it has everything if it has room for it -/
  cached : S.xs.length ≤ S.cacheSize → ∀ k < S.xs.length, s.cache.has k = true
  /-- the next walk starts from the start -/
  stop : s.stop = some 0
  /-- of what the function gives -/
  iterator : s.iterator = S.f

/-- **One walk** over a usable `Sliceable` yields the list. -/
theorem Usable.iterateAll (h : Usable S s) :
    (Sliceable.iterateAll S s).1 = some (.ok S.xs) ∧ Walked S (Sliceable.iterateAll S s).2 := by
  rw [Sliceable.iterateAll, iterate_eq_walk]
  refine @walk_yields _ (getIndex S) S.xs (fun i s => Usable S s ∧
      (S.xs.length ≤ S.cacheSize → ∀ k < i, s.cache.has k = true)) (Walked S)
    (fun i hi s hs => ?_) (fun s hs => ?_) 0 s ⟨h, fun _ k hk => absurd hk (Nat.not_lt_zero k)⟩
    (Nat.zero_le _) (S.xs.length + 1) (by omega)
  · obtain ⟨hans, husable, hcached⟩ := hs.1.step hi
    exact ⟨hans, husable, fun hroom => hcached hroom (hs.2 hroom)⟩
  · obtain ⟨-, hright⟩ := getIndex_right hs.1.right (k := S.xs.length) fun _ => .inr le_rfl
    rw [getIndex_end hs.1.right] at hright ⊢
    exact ⟨rfl, hright, hs.1.tidy, hs.1.maxsize, hs.2, rfl, rfl⟩

/-- **Another walk** is possible over an iterator, and over a container that is cached. -/
theorem Walked.usable (h : Walked S s) (hS : S.container = true → S.xs.length ≤ S.cacheSize) :
    Usable S s := by
  refine ⟨h.right, fun hb => ?_, h.tidy, h.maxsize⟩
  rw [h.iterator, Source.f] at hb
  split at hb
  · exact h.cached (hS ‹_›)
  · exact absurd hb (Iterator.live_ne_bare _)

/-- It is not over a longer container. -/
theorem Walked.stuck (h : Walked S s) (hc : S.container = true) (hlt : S.cacheSize < S.xs.length) :
    Stuck S s := by
  refine ⟨by rw [h.iterator, Source.f, if_pos hc], h.stop, ?_⟩
  by_contra hnone
  have hsub : List.range S.xs.length ⊆ s.cache.keys := by
    intro k hk
    rw [← Lru.has_iff_mem_keys]
    by_contra hk'
    exact hnone ⟨k, List.mem_range.mp hk, Bool.eq_false_iff.mpr hk'⟩
  have hle := (List.nodup_range.subperm hsub).length_le
  rw [List.length_range] at hle
  have hbound := h.tidy.length_le
  rw [h.maxsize] at hbound
  omega

/-- What is read from a bare container starts at its first element. -/
theorem readNext_bare {i n : ℕ} (h : i - n < S.xs.length) :
    readNext S s i n .bare = (.ok S.xs[i - n], ⟨s.cache.set i S.xs[i - n], some (i + 1), .bare⟩) := by
  rw [readNext, show S.items .bare = S.xs from rfl, List.drop_eq_getElem_cons h]
  rfl

/-- **A walk that is stuck** does not end: from the first position that is not cached, the
container is read from its start at every miss. -/
theorem Stuck.iterateAll (h : Stuck S s) : (Sliceable.iterateAll S s).1 = none := by
  rw [Sliceable.iterateAll, iterate_eq_walk]
  obtain ⟨k₀, hk₀, hmiss₀⟩ := h.missing
  refine @walk_endless _ (getIndex S) (fun i s => s.iterator = .bare ∧
      ((s.stop = some 0 ∧ ∃ k, i ≤ k ∧ k < S.xs.length ∧ s.cache.has k = false) ∨
        ∃ n, s.stop = some n ∧ 0 < n ∧ n ≤ i)) (S.xs.length + 1) (fun i hi s hs => ?_)
    0 (S.xs.length + 1) (by omega) s ⟨h.iterator, .inl ⟨h.stop, k₀, Nat.zero_le _, hk₀, hmiss₀⟩⟩
  obtain ⟨hbare, hphase⟩ := hs
  rcases hx : s.cache.lookup i with _ | x
  · obtain ⟨n, hstop, hn, hlt⟩ : ∃ n, s.stop = some n ∧ n ≤ i ∧ i - n < S.xs.length := by
      rcases hphase with ⟨hstop, k, hik, hk, -⟩ | ⟨n, hstop, hpos, hn⟩
      · exact ⟨0, hstop, Nat.zero_le i, by omega⟩
      · exact ⟨n, hstop, hn, by omega⟩
    have hget : getIndex S s i =
        (.ok S.xs[i - n], ⟨s.cache.set i S.xs[i - n], some (i + 1), .bare⟩) := by
      simp only [getIndex, hx, hstop, if_neg (Nat.not_lt.mpr hn), hbare]
      exact readNext_bare hlt
    rw [hget]
    exact ⟨_, rfl, rfl, .inr ⟨i + 1, rfl, Nat.succ_pos i, le_rfl⟩⟩
  · have hget : getIndex S s i = (.ok x, { s with cache := s.cache.touch i }) := by
      simp only [getIndex, hx]
    rw [hget]
    refine ⟨x, rfl, hbare, hphase.imp ?_ ?_⟩
    · rintro ⟨hstop, k, hik, hk, hmiss⟩
      have hne : i ≠ k := by
        rintro rfl
        rw [Lru.has, hx] at hmiss
        cases hmiss
      exact ⟨hstop, k, by omega, hk, by rw [Lru.has, Lru.lookup_touch, ← Lru.has, hmiss]⟩
    · rintro ⟨n, hstop, hpos, hn⟩
      exact ⟨n, hstop, hpos, Nat.le_succ_of_le hn⟩

end Sliceable

end Zerodb
