import Zerodb.QueueEffect

/-!
# QueueCollisions: reindex operations on objects with one hash

`process` hands a reduced queue to all processors that are registered, and the reduction
goes by the hashes of the objects (with their paths, if they have any), not by the objects.

* `recorder` — a processor that records its calls, `processAll_recorders` — what they record,
  and `processAll_eq` — that the same calls are made to any other processors;
* `nothing_lost_iff` — every object is reindexed if and only if no two of them collide.

The objects are in the order of their `__lt__`.
-/

namespace Zerodb

namespace IndexQueue

variable {α κ σ β : Type} [LinearOrder α] [Ord κ] [Std.TransOrd κ]

/-! ## Processors

A processor is a utility with an unknown effect. One that only records how it is called tells what
`process` does to any other. -/

/-- A registered processor. -/
structure Utility (σ α : Type) extends QueueProcessor σ α where
  /-- `begin` -/
  begin : Py σ Unit

/-- `process`, with all processors registered: the number of operations. -/
def processAll (utilities : List (Utility σ α)) (key : α → κ) (queue : List (Item α)) : Py σ ℕ :=
  let ops := optimize key queue
  if ops = [] then pure 0
  else do
    Py.forEach (fun util => util.begin) utilities
    Py.forEach (fun it => Py.forEach (fun util => handle util.toQueueProcessor it) utilities) ops
    return ops.length

/-- A call to a processor. -/
inductive Call (α : Type) where
  /-- `begin()` -/
  | begin : Call α
  /-- `index(obj, attributes)` -/
  | index : α → Option (List Str) → Call α
  /-- `reindex(obj, attributes)` -/
  | reindex : α → Option (List Str) → Call α
  /-- `unindex(obj)` -/
  | unindex : α → Call α
  deriving DecidableEq

/-- A call is made. -/
def Utility.call (util : Utility σ α) : Call α → Py σ Unit
  | .begin => util.begin
  | .index obj attrs => util.index obj attrs
  | .reindex obj attrs => util.reindex obj attrs
  | .unindex obj => util.unindex obj

/-- A processor that adds its calls to a log, under its name. -/
def recorder (name : β) : Utility (List (β × Call α)) α where
  index obj attrs := Py.modify (· ++ [(name, .index obj attrs)])
  reindex obj attrs := Py.modify (· ++ [(name, .reindex obj attrs)])
  unindex obj := Py.modify (· ++ [(name, .unindex obj)])
  begin := Py.modify (· ++ [(name, .begin)])

/-! ## The calls

The calls are written down for a queue that has been reduced: `reindexCalls` does not mention what
the processors do with them. -/

/-- The calls for reindex operations: every processor begins, and for one operation after the
other, every processor is called. -/
def reindexCalls (utilities : List β) (ops : List (Item α)) : List (β × Call α) :=
  if ops = [] then []
  else utilities.map (·, .begin) ++
    ops.flatMap fun it => utilities.map (·, .reindex it.obj it.attrs)

/-- `attrs` is for all that `attrs'` is for; `None` is for all attributes. -/
def Covers (attrs attrs' : Option (List Str)) : Prop :=
  ∀ l, attrs = some l → ∃ l', attrs' = some l' ∧ ∀ name ∈ l', name ∈ l

variable [Std.LawfulEqOrd κ] [DecidableEq κ] {key : α → κ} {queue : List (Item α)}

omit [LinearOrder α] [Ord κ] [Std.TransOrd κ] [Std.LawfulEqOrd κ] [DecidableEq κ] in
/-- What the reduction gathers for an identity covers every operation for it. -/
theorem Gathered.covers {k : κ} {x y : Item α} (h : Gathered key queue k x) (hy : y ∈ queue)
    (hk : key y.obj = k) : Covers x.attrs y.attrs := by
  intro l hl
  rcases hattrs : y.attrs with _ | l'
  · have hnone : x.attrs = none := h.all.mpr ⟨y, hy, hk, hattrs⟩
    rw [hl] at hnone
    cases hnone
  · refine ⟨l', rfl, fun name hname => (h.names l hl name).mpr ⟨y, hy, hk, ?_⟩⟩
    rwa [hattrs, Option.getD_some]

/-! ## What is called

`process` makes these calls whatever the processors are, and a recorder has them in its log
afterwards, if none of them raises. -/

/-- **The calls of `process`**: whatever the processors do, it makes these calls. -/
theorem processAll_eq (h : ∀ it ∈ queue, it.op = reindexOp) (utilities : List (Utility σ α)) :
    processAll utilities key queue =
      Py.forEach (fun c => c.1.call c.2) (reindexCalls utilities (optimize key queue)) >>=
        fun _ => pure (optimize key queue).length := by
  rw [processAll, reindexCalls]
  by_cases hops : optimize key queue = []
  · rw [if_pos hops, if_pos hops, hops]
    rfl
  · rw [if_neg hops, if_neg hops, Py.forEach_append, Py.forEach_map, Py.forEach_flatMap]
    have hturn : ∀ it ∈ optimize key queue,
        Py.forEach (fun util => handle util.toQueueProcessor it) utilities =
          Py.forEach (fun c => c.1.call c.2) (utilities.map (·, .reindex it.obj it.attrs)) := by
      intro it hit
      rw [Py.forEach_map]
      refine Py.forEach_congr fun util _ => ?_
      rw [handle, (gathered_optimize h hit).1.op, if_neg reindexOp_ne_indexOp, if_pos rfl]
      rfl
    rw [Py.forEach_congr hturn, Py.bind_assoc]
    rfl

omit [LinearOrder α] in
/-- Recorders record the calls that are made to them. -/
theorem forEach_recorder (calls : List (β × Call α)) (log : List (β × Call α)) :
    Py.forEach (fun c => (recorder c.1).call c.2) calls log = (.ok (), log ++ calls) := by
  induction calls generalizing log with
  | nil => rw [List.append_nil]; rfl
  | cons c calls ih =>
    have hcall : (recorder c.1).call c.2 log = (.ok (), log ++ [c]) := by
      obtain ⟨name, _ | _ | _ | _⟩ := c <;> rfl
    rw [Py.forEach, List.append_cons, ← ih]
    exact Py.bind_of_ok hcall

/-- **What recorders record**: all of the calls. -/
theorem processAll_recorders (h : ∀ it ∈ queue, it.op = reindexOp) (names : List β) :
    processAll (names.map recorder) key queue [] =
      (.ok (optimize key queue).length, reindexCalls names (optimize key queue)) := by
  have hcalls : reindexCalls (names.map (recorder (α := α))) (optimize key queue) =
      (reindexCalls names (optimize key queue)).map fun c => (recorder c.1, c.2) := by
    rw [reindexCalls, reindexCalls]
    by_cases hops : optimize key queue = []
    · rw [if_pos hops, if_pos hops]
      rfl
    · rw [if_neg hops, if_neg hops]
      simp [List.map_flatMap, Function.comp_def]
  rw [processAll_eq h, hcalls, Py.forEach_map]
  exact Py.bind_of_ok (forEach_recorder _ _)

/-! ## Queued objects

The reduction leaves one operation for an identity, on the object that was queued last with it. An
object is lost if another one with its identity is left in its place, and only then. -/

/-- The attributes of a call, if it is to the processor to reindex the object. -/
def reindexOf [DecidableEq β] (name : β) (obj : α) (c : β × Call α) : Option (Option (List Str)) :=
  match c.2 with
  | .reindex obj' attrs => if c.1 = name ∧ obj' = obj then some attrs else none
  | _ => none

/-- The attributes of all such calls. -/
def reindexed [DecidableEq β] (calls : List (β × Call α)) (name : β) (obj : α) :
    List (Option (List Str)) :=
  calls.filterMap (reindexOf name obj)

/-- **No object is lost**: every one of `n` processors is called once to reindex every object
that was queued, with attributes that cover all that were queued for it. -/
def NothingLost (n : ℕ) (key : α → κ) (queue : List (Item α)) : Prop :=
  ∃ count calls, processAll ((List.range n).map recorder) key queue [] = (.ok count, calls) ∧
    ∀ i < n, ∀ it ∈ queue, ∃ attrs, reindexed calls i it.obj = [attrs] ∧
      ∀ it' ∈ queue, it'.obj = it.obj → Covers attrs it'.attrs

section Calls

omit [Ord κ] [Std.TransOrd κ] [Std.LawfulEqOrd κ] [DecidableEq κ]

variable [DecidableEq β] {names : List β} {name : β}

/-- A processor is called once for an operation. -/
theorem reindexed_turn (hnodup : names.Nodup) (hname : name ∈ names) (it : Item α) (obj : α) :
    reindexed (names.map fun x => (x, .reindex it.obj it.attrs)) name obj =
      if it.obj = obj then [it.attrs] else [] := by
  have hnone : ∀ l : List β, (it.obj = obj → name ∉ l) →
      reindexed (l.map fun x => (x, .reindex it.obj it.attrs)) name obj = [] := by
    intro l hl
    rw [reindexed, List.filterMap_map]
    refine List.filterMap_eq_nil_iff.mpr fun x hx => if_neg ?_
    rintro ⟨rfl, hobj⟩
    exact hl hobj hx
  by_cases hobj : it.obj = obj
  · rw [if_pos hobj]
    obtain ⟨l, l', rfl⟩ := List.append_of_mem hname
    obtain ⟨-, hright, hleft⟩ := List.nodup_append.mp hnodup
    have hl : name ∉ l := fun h => hleft name h name List.mem_cons_self rfl
    have hl' : name ∉ l' := (List.nodup_cons.mp hright).1
    have hcall : reindexOf name obj (name, .reindex it.obj it.attrs) = some it.attrs :=
      if_pos ⟨rfl, hobj⟩
    rw [List.map_append, List.map_cons, reindexed, List.filterMap_append, ← reindexed,
      hnone l fun _ => hl, List.filterMap_cons_some hcall, ← reindexed, hnone l' fun _ => hl']
    rfl
  · rw [if_neg hobj]
    exact hnone names fun h => absurd h hobj

/-- The calls to a processor for an object are those of its operations. -/
theorem reindexed_reindexCalls (hnodup : names.Nodup) (hname : name ∈ names) (ops : List (Item α))
    (obj : α) :
    reindexed (reindexCalls names ops) name obj =
      (ops.filter fun it => it.obj = obj).map (·.attrs) := by
  have hbegin : reindexed (names.map fun x => (x, (Call.begin : Call α))) name obj = [] := by
    rw [reindexed, List.filterMap_map]
    exact List.filterMap_eq_nil_iff.mpr fun _ _ => rfl
  have hturns : reindexed (ops.flatMap fun it => names.map (·, .reindex it.obj it.attrs)) name obj =
      (ops.filter fun it => it.obj = obj).map (·.attrs) := by
    induction ops with
    | nil => rfl
    | cons it ops ih =>
      rw [List.flatMap_cons, reindexed, List.filterMap_append, ← reindexed, ← reindexed, ih,
        reindexed_turn hnodup hname]
      by_cases hobj : it.obj = obj
      · rw [if_pos hobj, List.filter_cons, if_pos (decide_eq_true hobj)]
        rfl
      · rw [if_neg hobj, List.filter_cons, if_neg (by simpa using hobj)]
        rfl
  rw [reindexCalls]
  by_cases hops : ops = []
  · rw [if_pos hops, hops]
    rfl
  · rw [if_neg hops, reindexed, List.filterMap_append, ← reindexed, ← reindexed, hbegin, hturns]
    rfl

/-- Of operations on distinct objects, one is for the object of each. -/
theorem filter_obj {ops : List (Item α)} (h : ops.Pairwise fun a b => a.obj ≠ b.obj) {x : Item α}
    (hx : x ∈ ops) : (ops.filter fun it => it.obj = x.obj) = [x] := by
  obtain ⟨l, l', rfl⟩ := List.append_of_mem hx
  obtain ⟨-, hright, hleft⟩ := List.pairwise_append.mp h
  have hl : (l.filter fun it => it.obj = x.obj) = [] := by
    refine List.filter_eq_nil_iff.mpr fun it hit => ?_
    rw [decide_eq_true_iff]
    exact hleft it hit x List.mem_cons_self
  have hl' : (l'.filter fun it => it.obj = x.obj) = [] := by
    refine List.filter_eq_nil_iff.mpr fun it hit => ?_
    rw [decide_eq_true_iff]
    exact fun heq => (List.pairwise_cons.mp hright).1 it hit heq.symm
  rw [List.filter_append, hl, List.filter_cons, if_pos (decide_eq_true rfl), hl']
  rfl

end Calls

/-- **The collisions that lose objects, exactly**: every object queued for reindexing is
reindexed by every processor, once and with all of its attributes, if and only if there are no
processors or no two distinct objects that are queued have one identity. -/
theorem nothing_lost_iff (n : ℕ) (key : α → κ) {queue : List (Item α)}
    (h : ∀ it ∈ queue, it.op = reindexOp) :
    NothingLost n key queue ↔
      n = 0 ∨ ∀ x ∈ queue, ∀ y ∈ queue, key x.obj = key y.obj → x.obj = y.obj := by
  have hcalls : ∀ i < n, ∀ obj,
      reindexed (reindexCalls (List.range n) (optimize key queue)) i obj =
        ((optimize key queue).filter fun it => it.obj = obj).map (·.attrs) :=
    fun i hi => reindexed_reindexCalls List.nodup_range (List.mem_range.mpr hi) _
  refine ⟨?_, ?_⟩
  · rintro ⟨count, calls, hrun, hlost⟩
    refine (Nat.eq_zero_or_pos n).imp id fun hn x hx y hy hk => ?_
    rw [processAll_recorders h] at hrun
    cases hrun
    -- both objects are left, and one operation is left for their identity
    have hleft : ∀ it ∈ queue, ∃ it' ∈ optimize key queue, it'.obj = it.obj := by
      intro it hit
      obtain ⟨attrs, hattrs, -⟩ := hlost 0 hn it hit
      rw [hcalls 0 hn] at hattrs
      have hmem : attrs ∈ ((optimize key queue).filter fun x => x.obj = it.obj).map (·.attrs) :=
        hattrs ▸ List.mem_cons_self
      obtain ⟨it', hit', -⟩ := List.mem_map.mp hmem
      obtain ⟨hmem, hobj⟩ := List.mem_filter.mp hit'
      exact ⟨it', hmem, of_decide_eq_true hobj⟩
    obtain ⟨x', hx', hxobj⟩ := hleft x hx
    obtain ⟨y', hy', hyobj⟩ := hleft y hy
    have hkeys : ((optimize key queue).map fun it => key it.obj).Nodup :=
      List.pairwise_map.mpr (optimize_keys key queue)
    have hsame : x' = y' :=
      List.inj_on_of_nodup_map hkeys hx' hy' (by rw [hxobj, hyobj, hk])
    rw [← hxobj, ← hyobj, hsame]
  · intro hinj
    refine ⟨_, _, processAll_recorders h _, fun i hi it hit => ?_⟩
    obtain ⟨x, hx, hk⟩ : ∃ x ∈ optimize key queue, key x.obj = key it.obj :=
      exists_mem_optimize h hit
    obtain ⟨hgathered, y, hy, hobj⟩ := gathered_optimize h hx
    have hxobj : x.obj = it.obj := by
      rcases hinj with hn | hinj
      · omega
      · rw [← hobj]
        exact hinj y hy it hit (by rw [hobj, hk])
    refine ⟨x.attrs, ?_, fun it' hit' hit'obj => ?_⟩
    · rw [hcalls i hi, ← hxobj, filter_obj (optimize_objs key queue) hx]
      rfl
    · exact hgathered.covers hit' (by rw [hit'obj, hk])

/-- Two objects with one hash: the only processor reindexes the second alone. -/
theorem reindex_lost :
    let queue : List (Item ℕ) := [⟨reindexOp, 1, some [['a']]⟩, ⟨reindexOp, 2, some [['b']]⟩]
    let key : ℕ → ℕ := fun _ => 7
    processAll ((List.range 1).map recorder) key queue [] =
        (.ok 1, [(0, .begin), (0, .reindex 2 (some [['a'], ['b']]))]) ∧
      ¬NothingLost 1 key queue := by
  intro queue key
  have hrun : processAll ((List.range 1).map recorder) key queue [] =
      (.ok 1, [(0, .begin), (0, .reindex 2 (some [['a'], ['b']]))]) := by decide +kernel
  refine ⟨hrun, ?_⟩
  rintro ⟨count, calls, hcalls, hlost⟩
  rw [hrun] at hcalls
  cases hcalls
  obtain ⟨attrs, hattrs, -⟩ := hlost 0 Nat.one_pos ⟨reindexOp, 1, some [['a']]⟩ List.mem_cons_self
  have hnone : reindexed [(0, Call.begin), (0, .reindex 2 (some [['a'], ['b']]))] 0 1 = [] := by
    decide +kernel
  rw [hnone] at hattrs
  cases hattrs

/-- Objects with hashes of their own, one of them queued twice, and two processors. -/
theorem nothing_lost_iff_example :
    let queue : List (Item ℕ) := [⟨reindexOp, 1, some [['a']]⟩, ⟨reindexOp, 2, none⟩,
      ⟨reindexOp, 1, some [['b']]⟩]
    NothingLost 2 (fun obj => obj % 5) queue ↔
      2 = 0 ∨ ∀ x ∈ queue, ∀ y ∈ queue, x.obj % 5 = y.obj % 5 → x.obj = y.obj :=
  nothing_lost_iff 2 (fun obj => obj % 5) (by decide)

end IndexQueue

end Zerodb
