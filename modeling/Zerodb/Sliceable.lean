import Zerodb.Run
import Zerodb.Storage
import Zerodb.Iter

/-!
# Sliceable: a cached list interface over an iterator

A `Sliceable` keeps the iterator it has got from its function, the position `stop` it
takes that iterator to be at, and a cache of elements by position. It answers like
the list of its elements as long as three things hold (`Right`): the cached elements
are right, `stop` is a number, and what the iterator still yields is the list from
`stop` on. Several branches of `__getitem__` move one of them without the others;
`Ok` says, for each operation, when it does not get there.
-/

namespace Zerodb

universe u

variable {α : Type u}

/-- The arguments of a `Sliceable`. -/
structure Source (α : Type u) where
  /-- the elements the function yields at every call -/
  xs : List α
  /-- does the function return a re-iterable container, not an iterator? -/
  container : Bool
  /-- `cache_size` -/
  cacheSize : ℕ
  /-- which is positive -/
  cacheSize_pos : 0 < cacheSize
  /-- `length`, if given -/
  length : Option ℕ
  /-- which is then right -/
  length_eq : ∀ n, length = some n → n = xs.length

/-- What `self.iterator` is. -/
inductive Iterator (α : Type u) where
  /-- an iterator, with the elements it still yields -/
  | live : List α → Iterator α
  /-- the container itself, from which every use starts again -/
  | bare : Iterator α

instance (it : Iterator α) : Decidable (it = .bare) :=
  match it with
  | .live _ => .isFalse fun h => nomatch h
  | .bare => .isTrue rfl

namespace Source

variable (S : Source α)

/-- `self.f()`. -/
def f : Iterator α := if S.container then .bare else .live S.xs

/-- The elements a use of the iterator starts with. -/
def items : Iterator α → List α
  | .live rest => rest
  | .bare => S.xs

end Source

/-- The iterator after a use that takes `m` elements. -/
def Iterator.advance (m : ℕ) : Iterator α → Iterator α
  | .live rest => .live (rest.drop m)
  | .bare => .bare

/-- And after a use that takes all of them. -/
def Iterator.exhaust : Iterator α → Iterator α
  | .live _ => .live []
  | .bare => .bare

/-- The state of a `Sliceable`; `stop` may become `None`. -/
structure Sliceable (α : Type u) where
  /-- `self.cache` -/
  cache : Lru α
  /-- `self.stop` -/
  stop : Option ℕ
  /-- `self.iterator` -/
  iterator : Iterator α

namespace Sliceable

variable (S : Source α)

/-- `Sliceable(f, cache_size, length)`. -/
def init : Sliceable α := ⟨Lru.empty S.cacheSize, some 0, .live S.xs⟩

/-! ## Access by position

A position that is not cached is read from the iterator, which is started again first if it is
beyond the position. A bare container is no iterator: every use of it starts at its first element.
-/

/-- `next(islice(it, delta, delta + 1))` and what follows it in `__getitem__`. -/
def readNext (s : Sliceable α) (k n : ℕ) (it : Iterator α) : Except Exc α × Sliceable α :=
  match (S.items it).drop (k - n) with
  | [] => (.error .stopIteration, { s with iterator := S.f, stop := some 0 })
  | x :: _ => (.ok x, ⟨s.cache.set k x, some (k + 1), it.advance (k - n + 1)⟩)

/-- `__getitem__` of an integer. -/
def getIndex (s : Sliceable α) (k : ℕ) : Except Exc α × Sliceable α :=
  match s.cache.lookup k with
  | some x => (.ok x, { s with cache := s.cache.touch k })
  | none =>
    match s.stop with
    | none => (.error .typeError, s)
    | some n => if k < n then readNext S s k 0 (.live S.xs) else readNext S s k n s.iterator

/-! ## Slices

The loops of `__getitem__` for a slice, each a definition of its own, so that there is something
to be proved about each. A slice is answered from the cache as far as it goes, and the rest of it
is read from an iterator that is started again or goes on; in the second case what is read is
written to the cache as if nothing had been taken from it. -/

/-- `key.step or 1`. -/
def stepOf : Option ℕ → ℕ
  | none | some 0 => 1
  | some (c + 1) => c + 1

/-- The loop that finds the first position of a slice that is not cached; it runs at
most once for each cached key. -/
def cachedUpTo (cache : Lru α) (stop : Option ℕ) (step : ℕ) : ℕ → ℕ → ℕ
  | 0, i => i
  | fuel + 1, i =>
    if Below stop i ∧ cache.has i = true then cachedUpTo cache stop step fuel (i + step) else i

/-- `index_upd` after the loop. -/
def indexUpd (s : Sliceable α) (start : ℕ) (stop : Option ℕ) (step : ℕ) : ℕ :=
  cachedUpTo s.cache stop step s.cache.entries.length start

/-- `[self.cache[i] for i in indexes]`. -/
def readAll : List ℕ → Lru α → Except Exc (List α) × Lru α
  | [], cache => (.ok [], cache)
  | i :: is, cache =>
    match cache.lookup i with
    | none => (.error .keyError, cache)
    | some x =>
      match readAll is (cache.touch i) with
      | (.ok xs, cache) => (.ok (x :: xs), cache)
      | (.error e, cache) => (.error e, cache)

/-- `for i, value in izip(count(i, step), values): self.cache[i] = value`. -/
def writeAll (step : ℕ) : ℕ → List α → Lru α → Lru α
  | _, [], cache => cache
  | i, x :: xs, cache => writeAll step (i + step) xs (cache.set i x)

/-- `xrange(start, stop, step)`. -/
def xrange (start stop step : ℕ) : List ℕ :=
  List.range' start ((stop - start + (step - 1)) / step) step

/-- The branch that starts the iterator again. When nothing is read and the slice is
open, the loop variable `i` is unbound. -/
def restartSlice (s : Sliceable α) (start : ℕ) (stop : Option ℕ) (step : ℕ) :
    Except Exc (List α) × Sliceable α :=
  let result := islice S.xs start stop step
  let cache := writeAll step start result s.cache
  match stop with
  | some b => (.ok result, ⟨cache, some b, .live (S.xs.drop (max start b))⟩)
  | none =>
    if result = [] then (.error (.nameError "i"), ⟨cache, s.stop, .live []⟩)
    else (.ok result, ⟨cache, some (start + (result.length - 1) * step + 1), .live []⟩)

/-- What the other branch reads on, from position `u` with the iterator at `n`. -/
def readOn (it : Iterator α) (n u : ℕ) (stop : Option ℕ) (step : ℕ) : List α × Iterator α :=
  match stop with
  | none => (islice (S.items it) (u - n) none step, it.exhaust)
  | some b =>
    if u < b then
      (islice (S.items it) (u - n) (some (b - n)) step, it.advance (max (u - n) (b - n)))
    else ([], it)

/-- The branch that takes a cached beginning and reads on from the iterator. The
elements read are written to the cache from `start` on, not from `u` on. -/
def continueSlice (s : Sliceable α) (n start u : ℕ) (stop : Option ℕ) (step : ℕ) :
    Except Exc (List α) × Sliceable α :=
  match readAll (xrange start u step) s.cache with
  | (.error e, cache) => (.error e, { s with cache := cache })
  | (.ok result, cache) =>
    let (resultUpd, it) := readOn S s.iterator n u stop step
    (.ok (result ++ resultUpd), ⟨writeAll step start resultUpd cache, stop, it⟩)

/-- `__getitem__` of a slice `start:stop:step`. -/
def getSlice (s : Sliceable α) (a b c : Option ℕ) : Except Exc (List α) × Sliceable α :=
  if a = none ∧ b = none then (.ok S.xs, s)
  else
    let start := a.getD 0
    let step := stepOf c
    let u := s.indexUpd start b step
    match s.stop with
    | none => (.error .typeError, s)
    | some n =>
      if u < n ∧ Below b u then restartSlice S s start b step
      else continueSlice S s n start u b step

/-! ## Iteration and length

A loop over a `Sliceable` asks for one position after the other, until one of them raises
`StopIteration`. Nothing ensures that one does, hence the fuel, and the answer when it is used up.
-/

/-- `__iter__`: read positions until `StopIteration`. Nothing is returned when it has
not ended after as many elements as there is fuel. -/
def iterate : ℕ → ℕ → Sliceable α → Option (Except Exc (List α)) × Sliceable α
  | 0, _, s => (none, s)
  | fuel + 1, i, s =>
    match getIndex S s i with
    | (.error .stopIteration, s) => (some (.ok []), s)
    | (.error e, s) => (some (.error e), s)
    | (.ok x, s) =>
      let (result, s) := iterate fuel (i + 1) s
      (result.map (·.map (x :: ·)), s)

/-- Iterate over all elements; one more than there are is more than enough. -/
def iterateAll (s : Sliceable α) : Option (Except Exc (List α)) × Sliceable α :=
  iterate S (S.xs.length + 1) 0 s

/-- `__len__`. -/
def len (s : Sliceable α) : Option (Except Exc ℕ) × Sliceable α :=
  match S.length, s.iterator with
  | some n, _ => (some (.ok n), s)
  | none, .bare => (some (.ok S.xs.length), s)
  | none, .live _ =>
    let (result, s) := iterateAll S s
    (result.map (·.map List.length), s)

/-! ## The list it stands for

The specification answers from the list and keeps no state at all: whatever was asked before does
not matter. -/

/-- An operation. -/
inductive Op where
  /-- `s[k]` -/
  | index : (k : ℕ) → Op
  /-- `s[a:b:c]` -/
  | slice : (a b c : Option ℕ) → Op
  /-- `len(s)` -/
  | len : Op
  /-- a full iteration -/
  | iter : Op

/-- Its answer; nothing for an operation that does not end. -/
inductive Reply (α : Type u) where
  /-- of `s[k]` -/
  | item : Except Exc α → Reply α
  /-- of a slice -/
  | items : Except Exc (List α) → Reply α
  /-- of `len(s)` -/
  | length : Option (Except Exc ℕ) → Reply α
  /-- of a full iteration -/
  | iterated : Option (Except Exc (List α)) → Reply α
  deriving DecidableEq

/-- The operations as a machine. -/
def machine : Machine (Sliceable α) Op (Reply α)
  | s, .index k => ((getIndex S s k).map .item id)
  | s, .slice a b c => ((getSlice S s a b c).map .items id)
  | s, .len => ((len S s).map .length id)
  | s, .iter => ((iterateAll S s).map .iterated id)

/-- What the same operation on `list(xs)` answers. -/
def spec (xs : List α) : Op → Reply α
  | .index k => .item (match xs[k]? with
    | some x => .ok x
    | none => .error .stopIteration)
  | .slice a b c => .items (.ok (islice xs (a.getD 0) b (stepOf c)))
  | .len => .length (some (.ok xs.length))
  | .iter => .iterated (some (.ok xs))

/-! ## The invariant

`Right` relates the three parts of the state that the branches move separately. It says nothing
about which positions are cached, so that forgetting one does it no harm. -/

/-- A cached element is the element at its position. -/
def Cached (xs : List α) (k : ℕ) (x : α) : Prop := xs[k]? = some x

/-- **The invariant**: the cached elements are right, and the iterator still yields
the list from `stop` on. -/
structure Right (s : Sliceable α) : Prop where
  /-- the cache -/
  cache : s.cache.Holds (Cached S.xs)
  /-- the position and the iterator -/
  view : ∃ n, s.stop = some n ∧ S.items s.iterator = S.xs.drop n

variable {S}

theorem right_init : Right S (init S) where
  cache := Lru.holds_empty _
  view := ⟨0, rfl, rfl⟩

@[simp] theorem items_f : S.items S.f = S.xs := by
  unfold Source.f
  split <;> rfl

theorem Cached.lt {xs : List α} {k : ℕ} {x : α} (h : Cached xs k x) : k < xs.length :=
  (List.getElem?_eq_some_iff.mp h).1

theorem has_iff {cache : Lru α} {k : ℕ} : cache.has k = true ↔ ∃ x, cache.lookup k = some x :=
  Option.isSome_iff_exists

/-- A cached position is a position of the list. -/
theorem Right.lt_of_has {s : Sliceable α} (h : Right S s) {k : ℕ} (hk : s.cache.has k = true) :
    k < S.xs.length := by
  obtain ⟨x, hx⟩ := has_iff.mp hk
  exact (h.cache.lookup hx).lt

/-! ## An access by position is right

Reading on from `stop` gives the right element if the iterator is where `stop` says; that an
iterator of a bare container is not, after its first use, is the one exception. -/

/-- What `s[k]` should answer. -/
def answer (xs : List α) (k : ℕ) : Except Exc α :=
  match xs[k]? with
  | some x => .ok x
  | none => .error .stopIteration

theorem answer_of_some {xs : List α} {k : ℕ} {x : α} (h : xs[k]? = some x) :
    answer xs k = .ok x := by
  rw [answer, h]

theorem answer_of_le {xs : List α} {k : ℕ} (h : xs.length ≤ k) :
    answer xs k = .error .stopIteration := by
  rw [answer, List.getElem?_eq_none h]

/-- Reading on is right, unless it reads an element from a bare container. -/
theorem readNext_right {s : Sliceable α} {k n : ℕ} {it : Iterator α}
    (hc : s.cache.Holds (Cached S.xs)) (hview : S.items it = S.xs.drop n) (hn : n ≤ k)
    (hbare : it = .bare → S.xs.length ≤ k) :
    (readNext S s k n it).1 = answer S.xs k ∧ Right S (readNext S s k n it).2 := by
  have hdrop : (S.items it).drop (k - n) = S.xs.drop k := by
    rw [hview, List.drop_drop, Nat.add_sub_cancel' hn]
  rcases hrest : S.xs.drop k with _ | ⟨x, rest⟩
  · have hlen : S.xs.length ≤ k := List.drop_eq_nil_iff.mp hrest
    rw [readNext, hdrop, hrest, answer_of_le hlen]
    exact ⟨rfl, hc, 0, rfl, items_f⟩
  · have hk : S.xs[k]? = some x := by
      have := congrArg List.head? hrest
      rwa [List.head?_drop, List.head?_cons] at this
    rw [readNext, hdrop, hrest, answer_of_some hk]
    refine ⟨rfl, hc.set hk, k + 1, rfl, ?_⟩
    cases it with
    | bare => exact absurd (hbare rfl) (Nat.not_le.mpr (Cached.lt hk))
    | live l =>
      have hl : l = S.xs.drop n := hview
      change l.drop (k - n + 1) = S.xs.drop (k + 1)
      rw [hl, List.drop_drop]
      congr 1
      omega

/-- `s[k]` is right, unless it reads an element from a bare container. -/
theorem getIndex_right {s : Sliceable α} (h : Right S s) {k : ℕ}
    (hok : s.iterator = .bare → s.cache.has k = true ∨ S.xs.length ≤ k) :
    (getIndex S s k).1 = answer S.xs k ∧ Right S (getIndex S s k).2 := by
  obtain ⟨n, hstop, hview⟩ := h.view
  rcases hx : s.cache.lookup k with _ | x
  · simp only [getIndex, hx, hstop]
    by_cases hk : k < n
    · rw [if_pos hk]
      exact readNext_right h.cache rfl (Nat.zero_le k) (fun hb => nomatch hb)
    · rw [if_neg hk]
      refine readNext_right h.cache hview (Nat.not_lt.mp hk) fun hb => ?_
      refine (hok hb).resolve_left fun hhas => ?_
      obtain ⟨x, hx'⟩ := has_iff.mp hhas
      rw [hx] at hx'
      cases hx'
  · simp only [getIndex, hx]
    exact ⟨(answer_of_some (h.cache.lookup hx)).symm, h.cache.touch k, n, hstop, hview⟩

/-! ## Iteration

A bare container is no iterator to read on from, and can be iterated only out of the cache.
Everywhere else the accesses are right one after the other, and the last one ends the loop. -/

/-- Iteration from a bare container needs all elements cached. -/
def Iterable (S : Source α) (s : Sliceable α) : Prop :=
  s.iterator = .bare → ∀ k < S.xs.length, s.cache.has k = true

/-- One element on, the rest can still be iterated. -/
theorem getIndex_iterable {s : Sliceable α} (h : Right S s) (hit : Iterable S s) {k : ℕ}
    (hk : k < S.xs.length) : Iterable S (getIndex S s k).2 := by
  obtain ⟨n, hstop, hview⟩ := h.view
  rcases hx : s.cache.lookup k with _ | x
  · -- a miss reads from an iterator, which stays one
    have hlive : s.iterator ≠ .bare := by
      intro hb
      obtain ⟨x, hx'⟩ := has_iff.mp (hit hb k hk)
      rw [hx] at hx'
      cases hx'
    have hread : ∀ n it, it ≠ .bare → S.items it = S.xs.drop n → n ≤ k →
        (readNext S s k n it).2.iterator ≠ .bare := by
      intro n it hne hview hn
      have hdrop : (S.items it).drop (k - n) = S.xs[k] :: S.xs.drop (k + 1) := by
        rw [hview, List.drop_drop, Nat.add_sub_cancel' hn, List.drop_eq_getElem_cons hk]
      rw [readNext, hdrop]
      cases it with
      | bare => exact absurd rfl hne
      | live l => exact fun hb => nomatch hb
    intro hb
    simp only [getIndex, hx, hstop] at hb
    by_cases hkn : k < n
    · rw [if_pos hkn] at hb
      exact absurd hb (hread 0 _ (fun hh => nomatch hh) rfl (Nat.zero_le k))
    · rw [if_neg hkn] at hb
      exact absurd hb (hread n _ hlive hview (Nat.not_lt.mp hkn))
  · simp only [getIndex, hx]
    intro hb j hj
    rw [Lru.has, Lru.lookup_touch]
    exact hit hb j hj

/-- The iteration yields what is left, and ends. -/
theorem iterate_right {s : Sliceable α} (h : Right S s) (hit : Iterable S s) {fuel i : ℕ}
    (hi : i ≤ S.xs.length) (hfuel : S.xs.length - i < fuel) :
    (iterate S fuel i s).1 = some (.ok (S.xs.drop i)) ∧ Right S (iterate S fuel i s).2 := by
  induction fuel generalizing i s with
  | zero => omega
  | succ fuel ih =>
    rcases hi.eq_or_lt with rfl | hlt
    · obtain ⟨hans, hright⟩ := getIndex_right h (k := S.xs.length) fun _ => .inr le_rfl
      rw [answer_of_le le_rfl] at hans
      rcases hget : getIndex S s S.xs.length with ⟨result, s'⟩
      rw [hget] at hans hright
      obtain rfl : result = .error .stopIteration := hans
      simp only [iterate, hget, List.drop_length]
      exact ⟨trivial, hright⟩
    · obtain ⟨hans, hright⟩ := getIndex_right h (k := i) fun hb => .inl (hit hb i hlt)
      have hit' := getIndex_iterable h hit hlt
      rw [answer_of_some (List.getElem?_eq_getElem hlt)] at hans
      rcases hget : getIndex S s i with ⟨result, s'⟩
      rw [hget] at hans hright hit'
      obtain rfl : result = .ok S.xs[i] := hans
      obtain ⟨hres, hr⟩ := ih hright hit' (i := i + 1) hlt (by omega)
      simp only [iterate, hget]
      refine ⟨?_, hr⟩
      rw [hres, List.drop_eq_getElem_cons hlt]
      rfl

theorem iterateAll_right {s : Sliceable α} (h : Right S s) (hit : Iterable S s) :
    (iterateAll S s).1 = some (.ok S.xs) ∧ Right S (iterateAll S s).2 := by
  have hfuel : S.xs.length - 0 < S.xs.length + 1 := by omega
  have hrun := iterate_right h hit (Nat.zero_le _) hfuel
  rwa [List.drop_zero] at hrun

/-- `len(s)` is always right. -/
theorem len_right {s : Sliceable α} (h : Right S s) :
    (len S s).1 = some (.ok S.xs.length) ∧ Right S (len S s).2 := by
  rcases hl : S.length with _ | n
  · rcases hit : s.iterator with rest | _
    · have hiter : Iterable S s := fun hb => by rw [hit] at hb; cases hb
      obtain ⟨hres, hr⟩ := iterateAll_right h hiter
      simp only [len, hl, hit]
      rw [hres]
      exact ⟨rfl, hr⟩
    · simp only [len, hl, hit]
      exact ⟨trivial, h⟩
  · obtain rfl := S.length_eq n hl
    simp only [len, hl]
    exact ⟨trivial, h⟩

/-! ## A slice is right

One lemma for each loop and each branch, with the condition under which it is right: a branch that
starts again has to read to a known position, and one that reads on must not have taken anything
from the cache. `ContinueOk` and `SliceOk` collect these conditions. -/

theorem stepOf_pos (c : Option ℕ) : 0 < stepOf c := by
  rcases c with _ | _ | c
  · exact Nat.one_pos
  · exact Nat.one_pos
  · exact Nat.succ_pos c

/-- The loop passes over cached positions of the slice. -/
theorem cachedUpTo_eq (cache : Lru α) (stop : Option ℕ) (step fuel start : ℕ) :
    ∃ m, cachedUpTo cache stop step fuel start = start + m * step ∧
      ∀ j < m, Below stop (start + j * step) ∧ cache.has (start + j * step) = true := by
  induction fuel generalizing start with
  | zero => exact ⟨0, by simp [cachedUpTo], fun j hj => by omega⟩
  | succ fuel ih =>
    by_cases hin : Below stop start ∧ cache.has start = true
    · obtain ⟨m, heq, hall⟩ := ih (start + step)
      refine ⟨m + 1, ?_, fun j hj => ?_⟩
      · rw [cachedUpTo, if_pos hin, heq, Nat.succ_mul]
        omega
      · cases j with
        | zero => simpa using hin
        | succ j =>
          have hpos : start + (j + 1) * step = start + step + j * step := by
            rw [Nat.succ_mul]
            omega
          rw [hpos]
          exact hall j (by omega)
    · exact ⟨0, by rw [cachedUpTo, if_neg hin]; simp, fun j hj => by omega⟩

/-- The loop ends by its condition, not for want of fuel: each round passes a cached
position, and positions increase. -/
theorem cachedUpTo_stops (cache : Lru α) (stop : Option ℕ) {step : ℕ} (hstep : 0 < step)
    {fuel start : ℕ} (hfuel : (cache.entries.filter (start ≤ ·.1)).length ≤ fuel) :
    ¬(Below stop (cachedUpTo cache stop step fuel start) ∧
      cache.has (cachedUpTo cache stop step fuel start) = true) := by
  induction fuel generalizing start with
  | zero =>
    rintro ⟨-, hhas⟩
    obtain ⟨x, hx⟩ := has_iff.mp hhas
    have hnil := List.eq_nil_of_length_eq_zero (Nat.le_zero.mp hfuel)
    have hmem : (start, x) ∈ cache.entries.filter (start ≤ ·.1) :=
      List.mem_filter.mpr ⟨Lru.mem_of_lookup hx, by simp⟩
    rw [hnil] at hmem
    cases hmem
  | succ fuel ih =>
    by_cases hin : Below stop start ∧ cache.has start = true
    · rw [cachedUpTo, if_pos hin]
      apply ih
      obtain ⟨x, hx⟩ := has_iff.mp hin.2
      have hmem : (start, x) ∈ cache.entries.filter (start ≤ ·.1) :=
        List.mem_filter.mpr ⟨Lru.mem_of_lookup hx, by simp⟩
      have hsub : cache.entries.filter (start + step ≤ ·.1) =
          (cache.entries.filter (start ≤ ·.1)).filter (start + step ≤ ·.1) := by
        rw [List.filter_filter]
        refine List.filter_congr fun e _ => ?_
        simp only [← Bool.decide_and, decide_eq_decide]
        omega
      have hlt : (cache.entries.filter (start + step ≤ ·.1)).length <
          (cache.entries.filter (start ≤ ·.1)).length := by
        rw [hsub]
        exact List.length_filter_lt_length_iff_exists.mpr ⟨_, hmem, by simp; omega⟩
      omega
    · rw [cachedUpTo, if_neg hin]
      exact hin

theorem xrange_add_mul {step : ℕ} (hstep : 0 < step) (start m : ℕ) :
    xrange start (start + m * step) step = List.range' start m step := by
  have hcount : (start + m * step - start + (step - 1)) / step = m := by
    rw [Nat.add_sub_cancel_left, Nat.add_comm, Nat.add_mul_div_right _ _ hstep,
      Nat.div_eq_of_lt (by omega), Nat.zero_add]
  rw [xrange, hcount]

/-- Reading cached positions. -/
theorem readAll_right {xs : List α} {is : List ℕ} {cache : Lru α}
    (hc : cache.Holds (Cached xs)) (hall : ∀ i ∈ is, cache.has i = true) :
    ∃ vs cache', readAll is cache = (.ok vs, cache') ∧ cache'.Holds (Cached xs) ∧
      vs.map some = is.map (xs[·]?) := by
  induction is generalizing cache with
  | nil => exact ⟨[], cache, rfl, hc, rfl⟩
  | cons i is ih =>
    obtain ⟨x, hx⟩ := has_iff.mp (hall i List.mem_cons_self)
    obtain ⟨vs, cache', hrun, hc', hvs⟩ := ih (hc.touch i) fun j hj => by
      rw [Lru.has, Lru.lookup_touch]
      exact hall j (List.mem_cons_of_mem _ hj)
    refine ⟨x :: vs, cache', by simp only [readAll, hx, hrun], hc', ?_⟩
    rw [List.map_cons, List.map_cons, hvs, hc.lookup hx]

/-- Writing elements under their positions. -/
theorem writeAll_right {xs vs : List α} {cache : Lru α} {step i : ℕ}
    (hc : cache.Holds (Cached xs)) (hvs : ∀ j x, vs[j]? = some x → xs[i + j * step]? = some x) :
    (writeAll step i vs cache).Holds (Cached xs) := by
  induction vs generalizing cache i with
  | nil => exact hc
  | cons v vs ih =>
    have hv : Cached xs i v := by simpa [Cached] using hvs 0 v rfl
    refine ih (hc.set hv) fun j x hj => ?_
    have hpos : i + step + j * step = i + (j + 1) * step := by
      rw [Nat.succ_mul]
      omega
    rw [hpos]
    exact hvs (j + 1) x hj

theorem getElem?_of_islice {xs : List α} {step start : ℕ} {stop : Option ℕ} (hstep : 0 < step)
    {j : ℕ} {x : α} (h : (islice xs start stop step)[j]? = some x) :
    xs[start + j * step]? = some x := by
  rw [getElem?_islice hstep] at h
  split at h
  · exact h
  · cases h

/-- An open slice that reaches the last element exactly. -/
theorem length_islice_none {xs : List α} {step start : ℕ} (hstep : 0 < step)
    (hstart : start < xs.length) (hdvd : step ∣ xs.length - 1 - start) :
    start + ((islice xs start none step).length - 1) * step + 1 = xs.length := by
  obtain ⟨q, hq⟩ := hdvd
  have hget := fun i => getElem?_islice hstep xs start none i
  simp only [Below, reduceCtorEq, false_implies, implies_true, if_true] at hget
  have hmul : q * step = step * q := Nat.mul_comm q step
  have hlast : q < (islice xs start none step).length := by
    by_contra hge
    have := hget q
    rw [List.getElem?_eq_none (by omega), List.getElem?_eq_getElem (by omega)] at this
    cases this
  have hend : (islice xs start none step).length ≤ q + 1 := by
    rw [← List.getElem?_eq_none_iff, hget, List.getElem?_eq_none_iff, Nat.succ_mul]
    omega
  have hlen : (islice xs start none step).length - 1 = q := by omega
  rw [hlen]
  omega

/-! ## The two branches

The iterator is started again, or read on from. In both branches what is read is a slice of the
list, and the question is under which positions it is cached and what `stop` says afterwards. -/

/-- Starting again is right for a closed slice, and for an open one that reaches the
last element exactly. -/
theorem restartSlice_right {s : Sliceable α} (h : Right S s) {start step : ℕ} {stop : Option ℕ}
    (hstep : 0 < step) (hbelow : Below stop start)
    (hopen : stop = none → start < S.xs.length ∧ step ∣ S.xs.length - 1 - start) :
    (restartSlice S s start stop step).1 = .ok (islice S.xs start stop step) ∧
      Right S (restartSlice S s start stop step).2 := by
  have hread : ∀ j x, (islice S.xs start stop step)[j]? = some x →
      S.xs[start + j * step]? = some x := fun _ _ hj => getElem?_of_islice hstep hj
  have hcache := writeAll_right h.cache hread
  cases stop with
  | some b =>
    have hb : start < b := hbelow b rfl
    refine ⟨rfl, hcache, b, rfl, ?_⟩
    change S.xs.drop (max start b) = S.xs.drop b
    rw [Nat.max_eq_right hb.le]
  | none =>
    obtain ⟨hstart, hdvd⟩ := hopen rfl
    have hne : islice S.xs start none step ≠ [] := by
      intro hnil
      have hget := getElem?_islice hstep S.xs start none 0
      rw [hnil, Nat.zero_mul, Nat.add_zero, if_pos hbelow, List.getElem?_eq_getElem hstart] at hget
      cases hget
    simp only [restartSlice, if_neg hne]
    refine ⟨trivial, hcache, _, rfl, ?_⟩
    rw [length_islice_none hstep hstart hdvd, List.drop_length]
    rfl

/-- When a closed slice is continued from the iterator without harm: either something
is to be read, then nothing before it was cached and the iterator is not a bare
container; or nothing is, then the iterator is already where `stop` is put. -/
def ContinueOk (S : Source α) (s : Sliceable α) (start u b : ℕ) : Prop :=
  if u < b then (u = start ∨ S.xs.length ≤ u) ∧ (s.iterator = .bare → S.xs = [])
  else S.xs.drop b = S.items s.iterator

/-- Continuing a closed slice under `ContinueOk`. -/
theorem continueSlice_right {s : Sliceable α} (h : Right S s) {n start m b step : ℕ}
    (hstep : 0 < step) (hview : S.items s.iterator = S.xs.drop n)
    (hall : ∀ j < m, Below (some b) (start + j * step) ∧ s.cache.has (start + j * step) = true)
    (hn : start + m * step < b → n ≤ start + m * step)
    (hok : ContinueOk S s start (start + m * step) b) :
    (continueSlice S s n start (start + m * step) (some b) step).1 =
        .ok (islice S.xs start (some b) step) ∧
      Right S (continueSlice S s n start (start + m * step) (some b) step).2 := by
  set u := start + m * step with hu
  have hhas : ∀ i ∈ List.range' start m step, s.cache.has i = true := by
    intro i hi
    obtain ⟨j, hj, rfl⟩ := List.mem_range'.mp hi
    rw [Nat.mul_comm]
    exact (hall j hj).2
  obtain ⟨vs, cache, hrun, hc, hvs⟩ := readAll_right h.cache hhas
  -- the cached beginning of the slice
  have hlen : vs.length = m := by simpa using congrArg List.length hvs
  have hpre : ∀ j < m, vs[j]? = S.xs[start + j * step]? := by
    intro j hj
    have hget := congrArg (·[j]?) hvs
    simp only [List.getElem?_map, List.getElem?_range' hj, Option.map_some] at hget
    rw [List.getElem?_eq_getElem (by omega), Option.map_some, Option.some.injEq] at hget
    rw [List.getElem?_eq_getElem (by omega), hget, Nat.mul_comm]
  have happend : ∀ upd, upd = islice S.xs u (some b) step →
      vs ++ upd = islice S.xs start (some b) step := by
    rintro upd rfl
    refine List.ext_getElem? fun j => ?_
    rw [getElem?_islice hstep]
    by_cases hj : j < m
    · rw [List.getElem?_append_left (by omega), hpre j hj, if_pos (hall j hj).1]
    · have hpos : u + (j - m) * step = start + j * step := by
        rw [hu, Nat.add_assoc, ← Nat.add_mul, Nat.add_sub_cancel' (Nat.not_lt.mp hj)]
      rw [List.getElem?_append_right (by omega), hlen, getElem?_islice hstep, hpos]
  rw [continueSlice, xrange_add_mul hstep, hrun]
  by_cases hub : u < b
  · rw [ContinueOk, if_pos hub] at hok
    obtain ⟨hahead, hbare⟩ := hok
    have hupd : islice (S.items s.iterator) (u - n) (some (b - n)) step =
        islice S.xs u (some b) step := by
      rw [hview]
      exact islice_drop (hn hub) S.xs (some b) (fun _ hb => Option.some.inj hb ▸ (hn hub).trans hub.le)
    simp only [readOn, if_pos hub, hupd]
    refine ⟨by rw [happend _ rfl], writeAll_right hc fun j x hj => ?_, b, rfl, ?_⟩
    · have hx := getElem?_of_islice hstep hj
      rcases hahead with heq | hle
      · rwa [heq] at hx
      · have := Cached.lt hx
        omega
    · rcases hit : s.iterator with rest | _
      · have hrest : rest = S.xs.drop n := by rwa [hit] at hview
        have hnb := hn hub
        change rest.drop (max (u - n) (b - n)) = S.xs.drop b
        rw [hrest, List.drop_drop]
        congr 1
        omega
      · rw [hbare hit, List.drop_nil]
        exact hbare hit
  · rw [ContinueOk, if_neg hub] at hok
    have hnil : islice S.xs u (some b) step = [] := by
      refine List.ext_getElem? fun j => ?_
      rw [getElem?_islice hstep, if_neg fun hbelow => ?_, List.getElem?_nil]
      have := hbelow b rfl
      omega
    simp only [readOn, if_neg hub]
    exact ⟨by rw [happend _ hnil.symm], hc, b, rfl, hok.symm⟩

/-- When a slice with a bound does no harm: an open one only if the iterator is
started again and reaches the last element exactly. -/
def SliceOk (S : Source α) (s : Sliceable α) (start : ℕ) (stop : Option ℕ) (step : ℕ) : Prop :=
  let u := s.indexUpd start stop step
  ∀ n ∈ s.stop,
    if u < n ∧ Below stop u then
      stop = none → start < S.xs.length ∧ step ∣ S.xs.length - 1 - start
    else ∃ b ∈ stop, ContinueOk S s start u b

theorem getSlice_right {s : Sliceable α} (h : Right S s) {a b c : Option ℕ}
    (hab : ¬(a = none ∧ b = none)) (hok : SliceOk S s (a.getD 0) b (stepOf c)) :
    (getSlice S s a b c).1 = .ok (islice S.xs (a.getD 0) b (stepOf c)) ∧
      Right S (getSlice S s a b c).2 := by
  obtain ⟨n, hstop, hview⟩ := h.view
  have hstep := stepOf_pos c
  obtain ⟨m, hu, hall⟩ := cachedUpTo_eq s.cache b (stepOf c) s.cache.entries.length (a.getD 0)
  have hokn := hok n hstop
  simp only [getSlice, if_neg hab, hstop]
  by_cases hre : s.indexUpd (a.getD 0) b (stepOf c) < n ∧ Below b (s.indexUpd (a.getD 0) b (stepOf c))
  · rw [if_pos hre]
    rw [if_pos hre] at hokn
    refine restartSlice_right h hstep (fun b' hb' => ?_) hokn
    have := hre.2 b' hb'
    rw [indexUpd, hu] at this
    omega
  · rw [if_neg hre]
    rw [if_neg hre] at hokn
    obtain ⟨b', hb', hcont⟩ := hokn
    obtain rfl : b = some b' := hb'
    rw [indexUpd, hu] at hcont hre ⊢
    refine continueSlice_right h hstep hview hall (fun hlt => ?_) hcont
    by_contra hlow
    exact hre ⟨Nat.not_le.mp hlow, fun b'' hb'' => Option.some.inj hb'' ▸ hlt⟩

/-- `s[::c]` ignores its step. -/
theorem getSlice_whole {s : Sliceable α} (h : Right S s) {c : Option ℕ}
    (hok : stepOf c = 1 ∨ S.xs.length ≤ 1) :
    (getSlice S s none none c).1 = .ok (islice S.xs 0 none (stepOf c)) ∧
      Right S (getSlice S s none none c).2 := by
  have hall : islice S.xs 0 none (stepOf c) = S.xs := by
    refine hok.elim (fun hone => ?_) fun hlen => List.ext_getElem? fun j => ?_
    · rw [hone]
      exact every_one S.xs
    · have hbelow : Below none (0 + j * stepOf c) := fun b hb => absurd hb (Option.not_mem_none b)
      rw [getElem?_islice (stepOf_pos c), if_pos hbelow, Nat.zero_add]
      cases j with
      | zero => rw [Nat.zero_mul]
      | succ j =>
        have hpos : j + 1 ≤ (j + 1) * stepOf c := Nat.le_mul_of_pos_right _ (stepOf_pos c)
        rw [List.getElem?_eq_none (by omega), List.getElem?_eq_none (by omega)]
  rw [getSlice, if_pos ⟨rfl, rfl⟩, hall]
  exact ⟨rfl, h⟩

/-! ## Histories

`Ok` is the condition for each operation, decidable from the state before it; the refinement is an
induction over the history that carries `Right`. -/

/-- The operations that keep the three parts together. -/
def Ok (S : Source α) (s : Sliceable α) : Op → Prop
  | .index k => s.iterator = .bare → s.cache.has k = true ∨ S.xs.length ≤ k
  | .slice none none c => stepOf c = 1 ∨ S.xs.length ≤ 1
  | .slice a b c => SliceOk S s (a.getD 0) b (stepOf c)
  | .len => True
  | .iter => Iterable S s

instance [DecidableEq α] (s : Sliceable α) (start u b : ℕ) : Decidable (ContinueOk S s start u b) :=
  inferInstanceAs (Decidable (ite _ _ _))

instance [DecidableEq α] (s : Sliceable α) (start : ℕ) (stop : Option ℕ) (step : ℕ) :
    Decidable (SliceOk S s start stop step) :=
  inferInstanceAs (Decidable (∀ n ∈ s.stop, ite _ _ _))

instance [DecidableEq α] (s : Sliceable α) : (op : Op) → Decidable (Ok S s op)
  | .index _ => inferInstanceAs (Decidable (s.iterator = .bare → _ ∨ _))
  | .slice none none c => inferInstanceAs (Decidable (stepOf c = 1 ∨ _))
  | .slice (some a) b c => inferInstanceAs (Decidable (SliceOk S s a b (stepOf c)))
  | .slice none (some b) c => inferInstanceAs (Decidable (SliceOk S s 0 (some b) (stepOf c)))
  | .len => .isTrue trivial
  | .iter => inferInstanceAs (Decidable (s.iterator = .bare → ∀ k < S.xs.length, s.cache.has k = true))

/-- One operation. -/
theorem step_right {s : Sliceable α} (h : Right S s) {op : Op} (hok : Ok S s op) :
    (machine S s op).1 = spec S.xs op ∧ Right S (machine S s op).2 := by
  cases op with
  | index k =>
    obtain ⟨hans, hr⟩ := getIndex_right h hok
    exact ⟨congrArg Reply.item hans, hr⟩
  | slice a b c =>
    have hslice : (getSlice S s a b c).1 = .ok (islice S.xs (a.getD 0) b (stepOf c)) ∧
        Right S (getSlice S s a b c).2 := by
      cases a with
      | none =>
        cases b with
        | none => exact getSlice_whole h hok
        | some b => exact getSlice_right h (fun hh => nomatch hh.2) hok
      | some a => exact getSlice_right h (fun hh => nomatch hh.1) hok
    exact ⟨congrArg Reply.items hslice.1, hslice.2⟩
  | len =>
    obtain ⟨hans, hr⟩ := len_right h
    exact ⟨congrArg Reply.length hans, hr⟩
  | iter =>
    obtain ⟨hans, hr⟩ := iterateAll_right h hok
    exact ⟨congrArg Reply.iterated hans, hr⟩

/-- **Refinement of the list**: a history whose operations are all `Ok` is answered
as the list answers it. -/
theorem outputs_eq_spec (S : Source α) (ops : List Op)
    (hok : (machine S).Along (Ok S) (init S) ops) :
    (machine S).outputs (init S) ops = ops.map (spec S.xs) :=
  @Machine.Along.outputs_eq _ _ _ (machine S) (Ok S) (Right S) (spec S.xs)
    (fun _ _ h hop => step_right h hop) _ _ right_init hok

/-- An iterator over three elements, with a cache for two. -/
def threeElements : Source ℕ where
  xs := [10, 20, 30]
  container := false
  cacheSize := 2
  cacheSize_pos := by decide
  length := none
  length_eq n h := nomatch h

/-- Reading back and forth, and iterating in between. -/
theorem outputs_eq_spec_example :
    (machine threeElements).outputs (init threeElements)
        [.slice (some 1) (some 3) none, .index 0, .iter, .slice none (some 2) none, .len] =
      [.items (.ok [20, 30]), .item (.ok 10), .iterated (some (.ok [10, 20, 30])),
        .items (.ok [10, 20]), .length (some (.ok 3))] :=
  outputs_eq_spec threeElements _ (by decide)

/-- After `s[0]`, the slice `s[0:2]` caches element 1 under position 0, and `s[0]` is
answered with it. -/
theorem outputs_ne_spec :
    (machine threeElements).outputs (init threeElements)
        [.index 0, .slice (some 0) (some 2) none, .index 0] ≠
      [Op.index 0, .slice (some 0) (some 2) none, .index 0].map (spec threeElements.xs) := by
  decide

end Sliceable

end Zerodb
