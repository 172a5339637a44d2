import Zerodb.Queue

/-!
# QueueEffect: what `optimize` keeps of a queue

The reduction of the indexing queue against running the queue as it is. The operations of a
queue alternate: an object is indexed while it is absent, reindexed and unindexed while it
is present.

* `reference` — a processor that indexes: per object, whether it is present and which values
  its attributes are indexed with;
* `Reduced` — what the reduction has for an object, and how that relates to all operations
  on the object; `Reduced.snoc` is one turn of the loop;
* `optimize_effect` — the reduced queue does what the full one does.
-/

namespace Zerodb

theorem unindexOp_ne_indexOp : unindexOp ≠ indexOp := by decide

theorem unindexOp_ne_reindexOp : unindexOp ≠ reindexOp := by decide

namespace IndexQueue

variable {α κ V : Type} [LinearOrder α]

/-! ## Running a queue

The reference processor raises where a queue makes no sense, so that a queue alternates exactly
when it runs to its end. What it makes of one object does not depend on the others (`act`), and so
the reduction can be judged for each object on its own. -/

/-- What an index holds: for each object it has, the values its attributes are indexed
with. -/
abbrev Index (α V : Type) : Type := α → Option (Str → Option V)

/-- The named attributes (all if `None`) are indexed with their values. -/
def refresh (value : Str → V) (attrs : Option (List Str)) (data : Str → Option V) :
    Str → Option V := fun name =>
  match attrs with
  | none => some (value name)
  | some l => if name ∈ l then some (value name) else data name

/-- What an operation makes of the entry of its object. -/
def act (value : α → Str → V) (it : Item α) (entry : Option (Str → Option V)) :
    Option (Str → Option V) :=
  if it.op = indexOp then some (refresh (value it.obj) it.attrs fun _ => none)
  else if it.op = reindexOp then entry.map (refresh (value it.obj) it.attrs)
  else none

/-- An operation on an index. -/
def exec (value : α → Str → V) (idx : Index α V) (it : Item α) : Index α V :=
  Function.update idx it.obj (act value it (idx it.obj))

/-- A processor that indexes, and raises when an object is indexed twice, or reindexed or
unindexed without being there. -/
def reference (value : α → Str → V) : QueueProcessor (Index α V) α where
  index obj attrs idx :=
    match idx obj with
    | some _ => (.error (.valueError "indexed already"), idx)
    | none => (.ok (), exec value idx ⟨indexOp, obj, attrs⟩)
  reindex obj attrs idx :=
    match idx obj with
    | none => (.error .keyError, idx)
    | some _ => (.ok (), exec value idx ⟨reindexOp, obj, attrs⟩)
  unindex obj idx :=
    match idx obj with
    | none => (.error .keyError, idx)
    | some _ => (.ok (), exec value idx ⟨unindexOp, obj, none⟩)

/-- An operation as it is queued while its object is present or not. -/
inductive Allowed : Bool → Item α → Prop where
  /-- an absent object is indexed -/
  | index {obj} : Allowed false ⟨indexOp, obj, none⟩
  /-- a present object is reindexed -/
  | reindex {obj attrs} : Allowed true ⟨reindexOp, obj, attrs⟩
  /-- a present object is unindexed -/
  | unindex {obj} : Allowed true ⟨unindexOp, obj, none⟩

/-- Which objects are present after an operation. -/
def presence (present : α → Bool) (it : Item α) : α → Bool :=
  Function.update present it.obj (decide (it.op ≠ unindexOp))

/-- The operations alternate, given which objects are present at first. -/
def Alternates : (α → Bool) → List (Item α) → Prop
  | _, [] => True
  | present, it :: queue => Allowed (present it.obj) it ∧ Alternates (presence present it) queue

theorem alternates_append (present : α → Bool) (queue queue' : List (Item α)) :
    Alternates present (queue ++ queue') ↔
      Alternates present queue ∧ Alternates (queue.foldl presence present) queue' := by
  induction queue generalizing present with
  | nil => simp [Alternates]
  | cons it queue ih => rw [List.cons_append, Alternates, ih, Alternates, and_assoc, List.foldl_cons]

theorem exec_isSome (value : α → Str → V) {idx : Index α V} {it : Item α} {present : α → Bool}
    (hidx : ∀ o, (idx o).isSome = present o) (h : Allowed (present it.obj) it) :
    ∀ o, (exec value idx it o).isSome = presence present it o := by
  intro o
  by_cases ho : o = it.obj
  · subst ho
    rw [exec, presence, Function.update_self, Function.update_self]
    have hentry := hidx it.obj
    revert hentry
    generalize idx it.obj = entry
    generalize present it.obj = p at h
    intro hentry
    cases h with
    | index => rfl
    | reindex => simpa [act, indexOp, reindexOp, unindexOp] using hentry
    | unindex => rfl
  · rw [exec, presence, Function.update_of_ne ho, Function.update_of_ne ho, hidx]

/-- A queue that alternates runs to its end. -/
theorem forEach_reference (value : α → Str → V) {queue : List (Item α)} {idx : Index α V}
    {present : α → Bool} (hidx : ∀ o, (idx o).isSome = present o)
    (h : Alternates present queue) :
    Py.forEach (handle (reference value)) queue idx = (.ok (), queue.foldl (exec value) idx) := by
  induction queue generalizing idx present with
  | nil => rfl
  | cons it queue ih =>
    obtain ⟨hit, hqueue⟩ := h
    have hstep : handle (reference value) it idx = (.ok (), exec value idx it) := by
      have hentry := hidx it.obj
      -- which operations are allowed says whether the object is there
      generalize present it.obj = p at hit hentry
      cases hit with
      | @index obj =>
        have hnone : idx obj = none :=
          Option.isNone_iff_eq_none.mp (Option.isSome_eq_false_iff.mp hentry)
        rw [handle, if_pos rfl]
        simp only [reference, hnone]
      | @reindex obj attrs =>
        obtain ⟨data, hdata⟩ : ∃ data, idx obj = some data := Option.isSome_iff_exists.mp hentry
        rw [handle, if_neg reindexOp_ne_indexOp, if_pos rfl]
        simp only [reference, hdata]
      | @unindex obj =>
        obtain ⟨data, hdata⟩ : ∃ data, idx obj = some data := Option.isSome_iff_exists.mp hentry
        rw [handle, if_neg unindexOp_ne_indexOp, if_neg unindexOp_ne_reindexOp, if_pos rfl]
        simp only [reference, hdata]
    have hrun : Py.forEach (handle (reference value)) (it :: queue) idx =
        Py.forEach (handle (reference value)) queue (exec value idx it) := Py.bind_of_ok hstep
    rw [hrun, ih (exec_isSome value hidx hit) hqueue, List.foldl_cons]

/-! ## Merged operations

`Reduced` compares, for one object, the one operation that the loop has with all operations that
were queued: they have the same effect on every index in which these alternate, and the one may
come first if they may. A turn of the loop is a case for each pair of operations; unindexing and
indexing merge into reindexing, and indexing and unindexing into nothing. -/

/-- Refreshing twice is refreshing the merged attributes. -/
theorem refresh_refresh (value : Str → V) (a b : Option (List Str)) (data : Str → Option V) :
    refresh value b (refresh value a data) = refresh value (mergeAttrs a b) data := by
  funext name
  cases a with
  | none => cases b <;> simp [refresh, mergeAttrs]
  | some la =>
    cases b with
    | none => rfl
    | some lb =>
      by_cases hb : name ∈ lb <;> by_cases ha : name ∈ la <;> simp [refresh, mergeAttrs, ha, hb]

/-- What the reduction has for an object after a queue, against all operations on the
object. -/
structure Reduced (present : α → Bool) (queue : List (Item α)) (o : α)
    (reduced : Option (Item α)) : Prop where
  /-- an operation is one on the object, as it may be queued at first -/
  allowed : ∀ it, reduced = some it → it.obj = o ∧ Allowed (present o) it
  /-- it leaves the object present or absent, as the queue does -/
  presence_eq : queue.foldl presence present o =
    reduced.elim (present o) fun it => decide (it.op ≠ unindexOp)
  /-- it does to the object what the queue does -/
  effect : ∀ {V : Type} (value : α → Str → V) (idx : Index α V),
    (∀ x, (idx x).isSome = present x) →
      queue.foldl (exec value) idx o = reduced.elim (idx o) fun it => act value it (idx o)
  /-- it has all attributes if an operation on the object has -/
  attrs_none : ∀ it, reduced = some it → (it.attrs = none ↔ ∃ x ∈ queue, x.obj = o ∧ x.attrs = none)
  /-- else those of all operations on the object -/
  attrs_some : ∀ it l, reduced = some it → it.attrs = some l →
    ∀ name, name ∈ l ↔ ∃ x ∈ queue, x.obj = o ∧ name ∈ x.attrs.getD []
  /-- without an operation, a present object has not been touched -/
  untouched : reduced = none → present o = true → ∀ x ∈ queue, x.obj ≠ o

namespace Reduced

variable {present : α → Bool} {queue : List (Item α)} {o : α} {reduced : Option (Item α)}

theorem nil : Reduced present [] o none where
  allowed it h := by cases h
  presence_eq := rfl
  effect value idx _ := rfl
  attrs_none it h := by cases h
  attrs_some it l h := by cases h
  untouched _ _ x hx := absurd hx List.not_mem_nil

/-- An operation on another object. -/
theorem frame (h : Reduced present queue o reduced) {it : Item α} (hne : it.obj ≠ o) :
    Reduced present (queue ++ [it]) o reduced := by
  -- the operations on the object are the same
  have hmem : ∀ {p : Item α → Prop},
      (∃ x ∈ queue ++ [it], x.obj = o ∧ p x) ↔ ∃ x ∈ queue, x.obj = o ∧ p x := by
    intro p
    refine ⟨?_, ?_⟩
    · rintro ⟨x, hx, hxo, hp⟩
      rcases List.mem_append.mp hx with hx | hx
      · exact ⟨x, hx, hxo, hp⟩
      · rw [List.mem_singleton.mp hx] at hxo
        exact absurd hxo hne
    · rintro ⟨x, hx, h⟩
      exact ⟨x, List.mem_append_left _ hx, h⟩
  refine ⟨h.allowed, ?_, fun value idx hidx => ?_, fun x hx => ?_, fun x l hx hl name => ?_,
    fun hr hp x hx => ?_⟩
  · rw [List.foldl_append, List.foldl_cons, List.foldl_nil, presence,
      Function.update_of_ne (Ne.symm hne), h.presence_eq]
  · rw [List.foldl_append, List.foldl_cons, List.foldl_nil, exec,
      Function.update_of_ne (Ne.symm hne), h.effect value idx hidx]
  · rw [hmem]
    exact h.attrs_none x hx
  · rw [hmem]
    exact h.attrs_some x l hx hl name
  · rcases List.mem_append.mp hx with hx | hx
    · exact h.untouched hr hp x hx
    · rw [List.mem_singleton.mp hx]
      exact hne

/-- An operation on the object that leaves one: the facts about it, from those about the
merged operation. -/
theorem snoc_some (h : Reduced present queue o reduced) {it y : Item α} (hobj : it.obj = o)
    (hit : Allowed (queue.foldl presence present o) it) (hy : y.obj = o ∧ Allowed (present o) y)
    (hop : y.op = unindexOp ↔ it.op = unindexOp)
    (hattrs : y.attrs = mergeAttrs (reduced.elim it.attrs Item.attrs) it.attrs)
    (heffect : ∀ {V : Type} (value : α → Str → V) (entry : Option (Str → Option V)),
      entry.isSome = present o →
        act value it (reduced.elim entry fun x => act value x entry) = act value y entry) :
    Reduced present (queue ++ [it]) o (some y) := by
  subst hobj
  have hmem : ∀ {p : Item α → Prop}, (∃ x ∈ queue ++ [it], x.obj = it.obj ∧ p x) ↔
      (∃ x ∈ queue, x.obj = it.obj ∧ p x) ∨ p it := by
    intro p
    simp only [List.mem_append, List.mem_singleton, or_and_right, exists_or, exists_eq_left, true_and]
  -- the attributes of an operation before, when there is none any more
  have hbefore : reduced = none → ∀ x ∈ queue, x.obj = it.obj → it.attrs = none := by
    intro hr x hx hxo
    have hpres := h.presence_eq
    rw [hr] at hpres
    have hfalse : queue.foldl presence present it.obj = false := by
      rw [hpres]
      exact Bool.eq_false_iff.mpr fun htrue => h.untouched hr htrue x hx hxo
    rw [hfalse] at hit
    cases hit
    rfl
  refine ⟨fun z hz => ?_, ?_, fun value idx hidx => ?_, fun z hz => ?_, fun z l hz hl name => ?_,
    fun hr => ?_⟩
  · rw [← Option.some.inj hz]
    exact hy
  · rw [List.foldl_append, List.foldl_cons, List.foldl_nil, presence, Function.update_self]
    simp only [Option.elim_some, ne_eq, hop]
  · rw [List.foldl_append, List.foldl_cons, List.foldl_nil, exec, Function.update_self,
      h.effect value idx hidx]
    exact heffect value (idx it.obj) (hidx it.obj)
  · rw [← Option.some.inj hz, hattrs, mergeAttrs_eq_none, hmem]
    cases reduced with
    | none =>
      simp only [Option.elim_none, or_self]
      exact ⟨.inr, fun hor => hor.elim (fun ⟨x, hx, hxo, _⟩ => hbefore rfl x hx hxo) id⟩
    | some x => rw [Option.elim_some, h.attrs_none x rfl]
  · rw [← Option.some.inj hz, hattrs] at hl
    rw [mem_mergeAttrs hl, hmem]
    cases reduced with
    | none =>
      simp only [Option.elim_none, or_self] at hl ⊢
      refine ⟨.inr, fun hor => hor.elim (fun ⟨x, hx, hxo, _⟩ => ?_) id⟩
      rw [hbefore rfl x hx hxo] at hl
      cases hl
    | some x =>
      rw [Option.elim_some] at hl ⊢
      cases hx : x.attrs with
      | none => simp [hx, mergeAttrs] at hl
      | some lx => rw [← h.attrs_some x lx rfl hx, Option.getD_some]
  · cases hr

/-! ## One turn of the loop

The operation that the loop has and the next one on the same object make one or none. In each case
the effect of what is left is that of both, and so is what it asks of the object's presence. -/

theorem refresh_merge_self (value : Str → V) (a : Option (List Str)) (data : Str → Option V) :
    refresh value (mergeAttrs a a) data = refresh value a data := by
  funext name
  cases a with
  | none => rfl
  | some l => simp [refresh, mergeAttrs]

omit [LinearOrder α] in
/-- A first operation is kept as it is. -/
theorem mergeOne_none {p : Bool} {it : Item α} (h : Allowed p it) :
    ∃ y, mergeOne none it = some y ∧ y.obj = it.obj ∧ Allowed p y ∧ y.op = it.op ∧
      y.attrs = mergeAttrs it.attrs it.attrs := by
  cases h with
  | index => exact ⟨_, rfl, rfl, .index, rfl, rfl⟩
  | reindex => exact ⟨_, rfl, rfl, .reindex, rfl, rfl⟩
  | unindex => exact ⟨_, rfl, rfl, .unindex, rfl, rfl⟩

omit [LinearOrder α] in
/-- Two operations are merged into one with their effect; or an object is indexed and
unindexed, and nothing is left of that. -/
theorem mergeOne_some {p : Bool} {x it : Item α} (hx : Allowed p x)
    (hit : Allowed (decide (x.op ≠ unindexOp)) it) (ho : x.obj = it.obj) :
    (p = false ∧ it.op = unindexOp ∧ mergeOne (some x) it = none) ∨
    ∃ y, mergeOne (some x) it = some y ∧ y.obj = it.obj ∧ Allowed p y ∧
      (y.op = unindexOp ↔ it.op = unindexOp) ∧ y.attrs = mergeAttrs x.attrs it.attrs ∧
      ∀ {V : Type} (value : α → Str → V) (entry : Option (Str → Option V)), entry.isSome = p →
        act value it (act value x entry) = act value y entry := by
  cases hx with
  | @index o =>
    have hit : Allowed true it := hit
    cases hit with
    | @reindex o' attrs =>
      -- an object that is indexed and reindexed has all its attributes refreshed
      refine .inr ⟨⟨indexOp, o', none⟩, rfl, rfl, .index, ?_, rfl, fun value entry _ => ?_⟩
      · exact iff_of_false unindexOp_ne_indexOp.symm unindexOp_ne_reindexOp.symm
      · obtain rfl : o = o' := ho
        exact congrArg some (refresh_refresh (value o) none attrs _)
    | unindex => exact .inl ⟨rfl, rfl, rfl⟩
  | @reindex o attrs =>
    have hit : Allowed true it := hit
    cases hit with
    | @reindex o' attrs' =>
      refine .inr ⟨⟨reindexOp, o', mergeAttrs attrs attrs'⟩, rfl, rfl, .reindex, Iff.rfl, rfl,
        fun value entry _ => ?_⟩
      obtain rfl : o = o' := ho
      cases entry with
      | none => rfl
      | some data => exact congrArg some (refresh_refresh (value o) attrs attrs' data)
    | @unindex o' =>
      refine .inr ⟨⟨unindexOp, o', none⟩, ?_, rfl, .unindex, Iff.rfl, ?_, fun value entry _ => rfl⟩
      · cases attrs <;> rfl
      · cases attrs <;> rfl
  | @unindex o =>
    have hit : Allowed false it := hit
    cases hit with
    | @index o' =>
      -- one that is unindexed and indexed again was there, and is reindexed
      refine .inr ⟨⟨reindexOp, o', none⟩, rfl, rfl, .reindex, ?_, rfl, fun value entry hentry => ?_⟩
      · exact iff_of_false unindexOp_ne_reindexOp.symm unindexOp_ne_indexOp.symm
      · obtain rfl : o = o' := ho
        obtain ⟨data, rfl⟩ := Option.isSome_iff_exists.mp hentry
        rfl

/-- **One turn of the loop** on an operation on the object. -/
theorem snoc (h : Reduced present queue o reduced) {it : Item α} (hobj : it.obj = o)
    (hit : Allowed (queue.foldl presence present o) it) :
    Reduced present (queue ++ [it]) o (mergeOne reduced it) := by
  have hpres := h.presence_eq
  cases reduced with
  | none =>
    have hit' := hit
    rw [hpres, Option.elim_none] at hit'
    obtain ⟨y, hmerge, hyo, hy, hop, hattrs⟩ := mergeOne_none hit'
    rw [hmerge]
    refine h.snoc_some hobj hit ⟨hyo.trans hobj, hy⟩ (by rw [hop]) hattrs fun value entry _ => ?_
    -- the first operation is merged with itself: its attributes stay
    have hself : refresh (value it.obj) y.attrs = refresh (value it.obj) it.attrs := by
      rw [hattrs]
      exact funext fun data => refresh_merge_self _ _ data
    rw [Option.elim_none, act, act, hop, hyo, hself]
  | some x =>
    obtain ⟨hxo, hx⟩ := h.allowed x rfl
    have hit' := hit
    rw [hpres, Option.elim_some] at hit'
    rcases mergeOne_some hx hit' (hxo.trans hobj.symm) with
      ⟨hp, hop, hmerge⟩ | ⟨y, hmerge, hyo, hy, hop, hattrs, heffect⟩
    · -- indexed and unindexed: the object is absent, as at first
      rw [hmerge]
      subst hobj
      refine ⟨fun z hz => ?_, ?_, fun value idx hidx => ?_, fun z hz => ?_, fun z l hz => ?_,
        fun _ htrue => ?_⟩
      · cases hz
      · rw [List.foldl_append, List.foldl_cons, List.foldl_nil, presence, Function.update_self,
          Option.elim_none, hp, hop]
        rfl
      · have hentry := hidx it.obj
        rw [hp] at hentry
        rw [List.foldl_append, List.foldl_cons, List.foldl_nil, exec, Function.update_self, act,
          hop, if_neg unindexOp_ne_indexOp, if_neg unindexOp_ne_reindexOp, Option.elim_none]
        exact (Option.isNone_iff_eq_none.mp (Option.isSome_eq_false_iff.mp hentry)).symm
      · cases hz
      · cases hz
      · rw [hp] at htrue
        cases htrue
    · rw [hmerge]
      exact h.snoc_some hobj hit ⟨hyo.trans hobj, hy⟩ hop hattrs heffect

end Reduced

/-! ## The whole reduction

The invariant for one object is carried along the queue, and the operations that are left are read
off the dictionary: one for an object, in the order of their kinds. -/

section

variable {key : α → κ} [Ord κ] [Std.TransOrd κ] [Std.LawfulEqOrd κ] [DecidableEq κ]
  {present : α → Bool} {queue : List (Item α)}

/-- What the loop has for an object, when the identities of the queue are those of objects. -/
theorem reduced_foldl (hq : Alternates present queue) (o : α)
    (hkey : ∀ x ∈ queue, key x.obj = key o → x.obj = o) :
    Reduced present queue o (queue.foldl (merge key) ∅)[key o]? := by
  induction queue using List.reverseRecOn with
  | nil => simpa using Reduced.nil
  | append_singleton queue it ih =>
    obtain ⟨hqueue, hit, -⟩ := (alternates_append present queue [it]).mp hq
    have h := ih hqueue fun x hx => hkey x (List.mem_append_left _ hx)
    rw [List.foldl_append, List.foldl_cons, List.foldl_nil, get_merge]
    by_cases hk : key it.obj = key o
    · have hobj : it.obj = o := hkey it (List.mem_append_right _ (List.mem_singleton_self it)) hk
      rw [if_pos hk, hobj]
      exact h.snoc hobj (hobj ▸ hit)
    · rw [if_neg hk]
      exact h.frame fun hobj => hk (congrArg key hobj)

/-- At most one operation is left for an identity. -/
theorem optimize_keys (key : α → κ) (queue : List (Item α)) :
    (optimize key queue).Pairwise fun a b => key a.obj ≠ key b.obj := by
  set res := queue.foldl (merge key) ∅ with hres
  have hkeys : res.toList.Pairwise fun a b => key a.2.obj ≠ key b.2.obj := by
    apply (Std.ExtTreeMap.distinct_keys_toList (t := res)).imp_of_mem
    intro a b ha hb hne heq
    have hka := (key_of_foldl (Std.ExtTreeMap.mem_toList_iff_getElem?_eq_some.mp ha)).1
    have hkb := (key_of_foldl (Std.ExtTreeMap.mem_toList_iff_getElem?_eq_some.mp hb)).1
    rw [← hka, ← hkb, heq] at hne
    exact hne Std.ReflCmp.compare_self
  have hperm := List.perm_insertionSort le (res.toList.map Prod.snd)
  refine (hperm.pairwise_iff fun h => Ne.symm h).mpr ?_
  exact List.pairwise_map.mpr hkeys

/-- At most one operation is left of an object. -/
theorem optimize_objs (key : α → κ) (queue : List (Item α)) :
    (optimize key queue).Pairwise fun a b => a.obj ≠ b.obj :=
  (optimize_keys key queue).imp fun hne heq => hne (congrArg key heq)

end

instance : IsTrans (Item α) le where
  trans a b c hab hbc := by
    rcases hab with hab | ⟨hab, hab'⟩
    · rcases hbc with hbc | ⟨hbc, -⟩
      · exact .inl (hab.trans hbc)
      · exact .inl (hbc ▸ hab)
    · rcases hbc with hbc | ⟨hbc, hbc'⟩
      · exact .inl (hab ▸ hbc)
      · exact .inr ⟨hab.trans hbc, hab'.trans hbc'⟩

instance : Std.Total (le : Item α → Item α → Prop) where
  total a b := by
    rcases lt_trichotomy a.op b.op with h | h | h
    · exact .inl (.inl h)
    · exact (le_total a.obj b.obj).imp (fun hobj => .inr ⟨h, hobj⟩) fun hobj => .inr ⟨h.symm, hobj⟩
    · exact .inr (.inl h)

/-- The operations come in order. -/
theorem optimize_ops [Ord κ] [Std.TransOrd κ] (key : α → κ) (queue : List (Item α)) :
    (optimize key queue).Pairwise fun a b => a.op ≤ b.op := by
  refine (List.pairwise_insertionSort le _).imp fun h => ?_
  rcases h with h | ⟨h, -⟩
  · exact h.le
  · exact h.le

/-! ## Running what is left

The operations that are left are on different objects, so that their order does not matter. Each
has the effect that all operations on its object had. -/

theorem foldl_exec_of_not_mem (value : α → Str → V) {l : List (Item α)} {o : α}
    (h : ∀ it ∈ l, it.obj ≠ o) (idx : Index α V) : l.foldl (exec value) idx o = idx o := by
  induction l generalizing idx with
  | nil => rfl
  | cons it l ih =>
    rw [List.foldl_cons, ih fun x hx => h x (List.mem_cons_of_mem _ hx), exec,
      Function.update_of_ne (Ne.symm (h it List.mem_cons_self))]

/-- An operation on its own has the effect it has alone. -/
theorem foldl_exec_of_mem (value : α → Str → V) {l : List (Item α)}
    (hl : l.Pairwise fun a b => a.obj ≠ b.obj) {it : Item α} (hit : it ∈ l) (idx : Index α V) :
    l.foldl (exec value) idx it.obj = act value it (idx it.obj) := by
  induction l generalizing idx with
  | nil => cases hit
  | cons x l ih =>
    obtain ⟨hx, hl⟩ := List.pairwise_cons.mp hl
    rw [List.foldl_cons]
    rcases List.mem_cons.mp hit with rfl | hit
    · rw [foldl_exec_of_not_mem value (fun y hy => (hx y hy).symm), exec, Function.update_self]
    · rw [ih hl hit, exec, Function.update_of_ne (hx it hit).symm]

/-- Operations on different objects alternate if each may come first. -/
theorem alternates_of_objs {l : List (Item α)} (hl : l.Pairwise fun a b => a.obj ≠ b.obj)
    {present : α → Bool} (h : ∀ it ∈ l, Allowed (present it.obj) it) : Alternates present l := by
  induction l generalizing present with
  | nil => trivial
  | cons x l ih =>
    obtain ⟨hx, hl⟩ := List.pairwise_cons.mp hl
    refine ⟨h x List.mem_cons_self, ih hl fun it hit => ?_⟩
    rw [presence, Function.update_of_ne (hx it hit).symm]
    exact h it (List.mem_cons_of_mem _ hit)

/-- **The reduction of a queue keeps its net effect.** -/
structure NetEffect [Ord κ] [Std.TransOrd κ] (key : α → κ) (present : α → Bool)
    (queue : List (Item α)) : Prop where
  /-- at most one operation is left of an object -/
  objs : (optimize key queue).Pairwise fun a b => a.obj ≠ b.obj
  /-- it is one of the three -/
  op : ∀ it ∈ optimize key queue, it.op = unindexOp ∨ it.op = reindexOp ∨ it.op = indexOp
  /-- the operations to unindex come first, those to index last -/
  ops : (optimize key queue).Pairwise fun a b => a.op ≤ b.op
  /-- an index that has the objects that are present is left the same, without an exception -/
  run : ∀ {V : Type} (value : α → Str → V) (idx : Index α V),
    (∀ o, (idx o).isSome = present o) → ∃ result,
      Py.forEach (handle (reference value)) queue idx = (.ok (), result) ∧
      process (reference value) key queue idx = (.ok (), result)
  /-- an operation has all attributes if one that was queued for its object has -/
  attrs_none : ∀ it ∈ optimize key queue,
    (it.attrs = none ↔ ∃ x ∈ queue, x.obj = it.obj ∧ x.attrs = none)
  /-- else those of all that were queued for it -/
  attrs_some : ∀ it ∈ optimize key queue, ∀ l, it.attrs = some l →
    ∀ name, name ∈ l ↔ ∃ x ∈ queue, x.obj = it.obj ∧ name ∈ x.attrs.getD []

/-- **Reduction**: for every queue whose operations alternate, on objects with identities of
their own. -/
theorem optimize_effect [Ord κ] [Std.TransOrd κ] [Std.LawfulEqOrd κ] (key : α → κ)
    (present : α → Bool) (queue : List (Item α))
    (hkey : ∀ x ∈ queue, ∀ y ∈ queue, key x.obj = key y.obj → x.obj = y.obj)
    (hq : Alternates present queue) : NetEffect key present queue := by
  classical
  have hobjs := optimize_objs key queue
  have hreduced : ∀ it ∈ optimize key queue, Reduced present queue it.obj (some it) := by
    intro it hit
    obtain ⟨k, hk⟩ := mem_optimize_iff.mp hit
    obtain ⟨rfl, y, hy, hyo⟩ := key_of_foldl hk
    rw [← hk]
    refine reduced_foldl hq it.obj fun x hx hxk => ?_
    rw [← hyo] at hxk ⊢
    exact hkey x hx y hy hxk
  have hallowed : ∀ it ∈ optimize key queue, Allowed (present it.obj) it :=
    fun it hit => ((hreduced it hit).allowed it rfl).2
  refine ⟨hobjs, fun it hit => ?_, optimize_ops key queue, fun value idx hidx => ?_,
    fun it hit => (hreduced it hit).attrs_none it rfl,
    fun it hit l => (hreduced it hit).attrs_some it l rfl⟩
  · have hop := hallowed it hit
    generalize present it.obj = p at hop
    cases hop with
    | index => exact .inr (.inr rfl)
    | reindex => exact .inr (.inl rfl)
    | unindex => exact .inl rfl
  · refine ⟨_, forEach_reference value hidx hq, ?_⟩
    -- the reduced queue has one allowed operation for each object, so that it alternates too
    rw [process, forEach_reference value hidx (alternates_of_objs hobjs hallowed)]
    congr 1
    funext o
    -- either something is left for the object, or nothing
    by_cases hmem : ∃ it ∈ optimize key queue, it.obj = o
    · obtain ⟨it, hit, rfl⟩ := hmem
      rw [foldl_exec_of_mem value hobjs hit, (hreduced it hit).effect value idx hidx]
      rfl
    · have hnone : ∀ it ∈ optimize key queue, it.obj ≠ o := fun it hit ho => hmem ⟨it, hit, ho⟩
      rw [foldl_exec_of_not_mem value hnone]
      by_cases hqueued : ∃ x ∈ queue, x.obj = o
      · -- its operations have erased each other
        obtain ⟨x, hx, rfl⟩ := hqueued
        have h := reduced_foldl hq x.obj fun y hy hyx => hkey y hy x hx hyx
        rcases hres : (queue.foldl (merge key) ∅)[key x.obj]? with _ | it
        · rw [hres] at h
          exact (h.effect value idx hidx).symm
        · rw [hres] at h
          exact absurd ⟨it, mem_optimize_iff.mpr ⟨_, hres⟩, (h.allowed it rfl).1⟩ hmem
      · exact (foldl_exec_of_not_mem value (fun x hx hxo => hqueued ⟨x, hx, hxo⟩) idx).symm

/-- An object that is indexed, reindexed, unindexed and indexed again, between two that are
there at first. -/
theorem optimize_effect_example :
    NetEffect (id : ℕ → ℕ) (fun o => decide (o ≠ 1))
      [⟨reindexOp, 0, some [['a']]⟩, ⟨indexOp, 1, none⟩, ⟨reindexOp, 1, some [['b']]⟩,
        ⟨unindexOp, 2, none⟩, ⟨unindexOp, 1, none⟩, ⟨indexOp, 1, none⟩,
        ⟨reindexOp, 0, some [['b']]⟩] :=
  optimize_effect id (fun o => decide (o ≠ 1)) _ (fun _ _ _ _ h => h)
    ⟨.reindex, .index, .reindex, .unindex, .unindex, .index, .reindex, trivial⟩

end IndexQueue

end Zerodb
