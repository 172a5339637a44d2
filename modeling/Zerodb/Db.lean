import Zerodb.Models

/-!
# Db: objects, indexes and transactions

A database of one model: Python objects, the object store, the catalog and the
indexing queue. A transaction adds objects, assigns attributes and removes objects;
adding and removing act on the catalog at once, while an assignment queues a reindex
operation that the before-commit hook carries out.

`no_dangling` says when the catalog holds no document that is not in the store: when
at each commit the queued objects are still stored under their `_p_uid`. `remove`
leaves that attribute, so it can name an id that is gone.
-/

namespace Zerodb

/-- The state of a database of one model. -/
structure Db (V ξ ω : Type) [PyValue V] where
  /-- the instances -/
  heap : Heap V
  /-- `_objects` -/
  objects : IdStore ObjId
  /-- `_catalog`: the indexes with their fields -/
  catalog : List (Indexable V × CatalogIndex V ξ ω)
  /-- the indexing queue -/
  queue : List (Item ObjId)

namespace Db

variable {V ξ ω κ : Type} [PyValue V] [Ord κ] [Std.TransOrd κ]

/-! ## Catalog calls

A catalog call goes through the indexes in their order and stops where one raises. When it
returns, each index is as its own call left it, whatever the order (`onIndexes_ok`). -/

/-- A call on every index in turn, for its field. -/
def onIndexes (g : Indexable V → Py (CatalogIndex V ξ ω) Unit) :
    Py (List (Indexable V × CatalogIndex V ξ ω)) Unit
  | [] => (.ok (), [])
  | (f, ix) :: rest =>
    match g f ix with
    | (.error e, ix') => (.error e, (f, ix') :: rest)
    | (.ok (), ix') => ((onIndexes g rest).1, (f, ix') :: (onIndexes g rest).2)

/-- A call on the catalog. -/
def inCatalog (x : Py (List (Indexable V × CatalogIndex V ξ ω)) Unit) : Py (Db V ξ ω) Unit :=
  Py.zoom catalog (fun c s => { s with catalog := c }) x

/-- When all calls return, every index is as its call left it. -/
theorem onIndexes_ok {g : Indexable V → Py (CatalogIndex V ξ ω) Unit}
    {l l' : List (Indexable V × CatalogIndex V ξ ω)} (h : onIndexes g l = (.ok (), l')) :
    ∀ p' ∈ l', ∃ p ∈ l, p'.1 = p.1 ∧ g p.1 p.2 = (.ok (), p'.2) := by
  induction l generalizing l' with
  | nil =>
    obtain ⟨-, rfl⟩ := Prod.mk.inj h
    exact fun p' hp' => nomatch hp'
  | cons p l ih =>
    obtain ⟨f, ix⟩ := p
    rcases hg : g f ix with ⟨e | ⟨⟨⟩⟩, ix'⟩
    · simp only [onIndexes, hg] at h
      cases h
    · simp only [onIndexes, hg] at h
      obtain ⟨hok, rfl⟩ := Prod.mk.inj h
      refine List.forall_mem_cons.mpr ⟨⟨_, List.mem_cons_self, rfl, hg⟩, fun p' hp' => ?_⟩
      obtain ⟨p, hp, hstep⟩ := ih (Prod.ext hok rfl) p' hp'
      exact ⟨p, List.mem_cons_of_mem _ hp, hstep⟩

/-! ## Operations

The methods of the database as `Py` computations over its state. What they call of other
components is as modelled there: the object store of `Intid`, the queue of `Queue`, the indexes of
`Catalog`. A discriminator is the value of an attribute, or of a function of the object for
virtual fields. -/

variable (M : Model V) (T : IndexClass V ξ) (O : IndexClass V ω)

/-- An instance is indexed under a document id, in the indexes of some fields. -/
def indexFields (named : Indexable V → Bool) (uid : ℤ) (obj : Obj V) : Py (Db V ξ ω) Unit := do
  let s ← Py.get
  inCatalog (onIndexes fun f =>
    if named f = true then CatalogIndex.indexDoc T O uid (f.value s.heap obj) else Py.pure ())

/-- `DB.add` of a new instance. An address in use does not occur, and draws that do not
end the search for an id mean that it has not returned. -/
def add (o : ObjId) (kw : List (Str × V)) (draws : List ℤ) : Py (Db V ξ ω) Unit := do
  let obj ← Py.ofExcept (M.init kw)
  let s ← Py.get
  let _ ← Py.ofOption .keyError (if o ∈ s.heap then none else some ())
  let p ← Py.ofOption .stopIteration (s.objects.add o draws)
  Py.modify fun s => { s with
    objects := p.2
    heap := s.heap.insert o { obj with uid := some p.1 } }
  indexFields T O (fun _ => true) p.1 { obj with uid := some p.1 }

/-- `obj.name = value`: `__setattr__` with the queueing of the modification. -/
def assign (o : ObjId) (name : Str) (value : V) : Py (Db V ξ ω) Unit := do
  let s ← Py.get
  let obj ← Py.ofOption .keyError s.heap[o]?
  Py.modify fun s => { s with
    queue := if M.Notifies name obj then s.queue ++ [⟨reindexOp, o, some [name]⟩] else s.queue
    heap := s.heap.insert o (obj.setattr name value) }

/-- `DB.remove`. -/
def remove (o : ObjId) : Py (Db V ξ ω) Unit := do
  let s ← Py.get
  let obj ← Py.ofOption .keyError s.heap[o]?
  let uid ← Py.ofOption (.attributeError "_p_uid") obj.uid
  inCatalog (onIndexes fun _ => CatalogIndex.unindexDoc T O uid)
  Py.zoom objects (fun t s => { s with objects := t }) (IdStore.remove uid)

/-- Is the field named by the attributes? `None` names all. -/
def named (attributes : Option (List Str)) (f : Indexable V) : Bool :=
  match attributes with
  | none => true
  | some l => decide (f.name ∈ l)

/-- `reindex_one` of an instance. Names without an index are passed over. -/
def reindexOne (o : ObjId) (attributes : Option (List Str)) : Py (Db V ξ ω) Unit := do
  let s ← Py.get
  let obj ← Py.ofOption .keyError s.heap[o]?
  let uid ← Py.ofOption (.modelException "Object is not indexed") obj.uid
  indexFields T O (named attributes) uid obj

/-- `AutoReindexQueueProcessor`. -/
def processor : QueueProcessor (Db V ξ ω) ObjId where
  index _ _ := Py.pure ()
  reindex := reindexOne T O
  unindex _ := Py.pure ()

/-! ## Transactions

A transaction runs its steps and the hook. The hook reduces the queue and hands each operation to
the processor, which looks at the object as it is then. A transaction that raises anywhere is
aborted as a whole. -/

/-- A step of a transaction. -/
inductive Op (V : Type) where
  /-- `DB.add` of the new instance at an address, with its arguments and the draws -/
  | add : ObjId → List (Str × V) → List ℤ → Op V
  /-- an assignment to an attribute -/
  | assign : ObjId → Str → V → Op V
  /-- `DB.remove` -/
  | remove : ObjId → Op V
  /-- the object store is deactivated -/
  | deactivate : Op V

/-- A step. -/
def step : Op V → Py (Db V ξ ω) Unit
  | .add o kw draws => add M T O o kw draws
  | .assign o name value => assign M o name value
  | .remove o => remove T O o
  | .deactivate => Py.modify fun s => { s with objects := s.objects.deactivate }

/-- The steps of a transaction. -/
def steps (ops : List (Op V)) : Py (Db V ξ ω) Unit := Py.forEach (step M T O) ops

variable (key : Heap V → ObjId → κ)

/-- `before_commit`; `key` is the hash of an object, with its path if it has one. -/
def beforeCommit : Py (Db V ξ ω) Unit := do
  let s ← Py.get
  IndexQueue.process (processor T O) (key s.heap) s.queue
  Py.modify fun s => { s with queue := [] }

/-- The database as a machine that runs transactions. -/
def machine : Machine (Db V ξ ω) (List (Op V)) (Except Exc Unit) := fun s ops =>
  (do steps M T O ops; beforeCommit T O key) s

/-- A database of a model, with its store and its catalog. -/
def init : Db V ξ ω where
  heap := ∅
  objects := .init
  catalog := M.indexedFields.map fun f => (f, CatalogIndex.new T O f.kind)
  queue := []

/-- The transaction commits. -/
def Commits (s : Db V ξ ω) (ops : List (Op V)) : Prop := (machine M T O key s ops).1 = .ok ()

instance (s : Db V ξ ω) (ops : List (Op V)) : Decidable (Commits M T O key s ops) :=
  inferInstanceAs (Decidable (_ = _))

variable {M T O key}

/-! ## What the steps do

One lemma for each step that returned: the state afterwards, and the call on each index. The
proofs about the database start from these. -/

theorem inCatalog_ok {x : Py (List (Indexable V × CatalogIndex V ξ ω)) Unit} {s s' : Db V ξ ω}
    (h : inCatalog x s = (.ok (), s')) :
    ∃ c, x s.catalog = (.ok (), c) ∧ s' = { s with catalog := c } := Py.zoom_eq_ok.mp h

/-- An index after an instance has been indexed in it, if it is one of the named. -/
def FieldIndexed (T : IndexClass V ξ) (O : IndexClass V ω) (named : Indexable V → Bool) (uid : ℤ)
    (heap : Heap V) (obj : Obj V) (p p' : Indexable V × CatalogIndex V ξ ω) : Prop :=
  p'.1 = p.1 ∧ (if named p.1 = true then
    CatalogIndex.indexDoc T O uid (p.1.value heap obj) p.2 = (.ok (), p'.2) else p'.2 = p.2)

theorem indexFields_ok {named : Indexable V → Bool} {uid : ℤ} {obj : Obj V} {s s' : Db V ξ ω}
    (h : indexFields T O named uid obj s = (.ok (), s')) :
    ∃ c, s' = { s with catalog := c } ∧
      ∀ p' ∈ c, ∃ p ∈ s.catalog, FieldIndexed T O named uid s.heap obj p p' := by
  rw [indexFields, Py.get_bind_apply] at h
  obtain ⟨c, hc, rfl⟩ := inCatalog_ok h
  refine ⟨c, rfl, fun p' hp' => ?_⟩
  obtain ⟨p, hp, hfield, hcall⟩ := onIndexes_ok hc p' hp'
  refine ⟨p, hp, hfield, ?_⟩
  by_cases hn : named p.1 = true
  · rwa [if_pos hn] at hcall ⊢
  · rw [if_neg hn] at hcall ⊢
    exact (Prod.mk.inj hcall).2.symm

/-- What `add` does when it returns. -/
theorem add_ok {o : ObjId} {kw : List (Str × V)} {draws : List ℤ} {s s' : Db V ξ ω}
    (h : add M T O o kw draws s = (.ok (), s')) :
    ∃ obj uid objects, M.init kw = .ok obj ∧ o ∉ s.heap ∧
      s.objects.add o draws = some (uid, objects) ∧
      indexFields T O (fun _ => true) uid { obj with uid := some uid } { s with
        objects := objects
        heap := s.heap.insert o { obj with uid := some uid } } = (.ok (), s') := by
  obtain ⟨obj, s₁, hcall₁, hrest₁⟩ := Py.bind_eq_ok.mp h
  obtain ⟨hinit, rfl⟩ := Prod.mk.inj hcall₁
  rw [Py.get_bind_apply] at hrest₁
  obtain ⟨⟨⟩, s₂, hcall₂, hrest₂⟩ := Py.bind_eq_ok.mp hrest₁
  obtain ⟨hfree, rfl⟩ := Py.ofOption_eq_ok.mp hcall₂
  obtain ⟨⟨uid, objects⟩, s₃, hcall₃, hrest₃⟩ := Py.bind_eq_ok.mp hrest₂
  obtain ⟨hadd, rfl⟩ := Py.ofOption_eq_ok.mp hcall₃
  refine ⟨obj, uid, objects, hinit, fun hmem => ?_, hadd, hrest₃⟩
  rw [if_pos hmem] at hfree
  cases hfree

/-- What an assignment does. -/
theorem assign_ok {o : ObjId} {name : Str} {value : V} {s s' : Db V ξ ω}
    (h : assign M o name value s = (.ok (), s')) :
    ∃ obj, s.heap[o]? = some obj ∧ s' = { s with
      queue := if M.Notifies name obj then s.queue ++ [⟨reindexOp, o, some [name]⟩] else s.queue
      heap := s.heap.insert o (obj.setattr name value) } := by
  rw [assign, Py.get_bind_apply] at h
  obtain ⟨obj, s₁, hcall, hrest⟩ := Py.bind_eq_ok.mp h
  obtain ⟨hobj, rfl⟩ := Py.ofOption_eq_ok.mp hcall
  exact ⟨obj, hobj, (Prod.mk.inj hrest).2.symm⟩

/-- What `remove` does when it returns. -/
theorem remove_ok {o : ObjId} {s s' : Db V ξ ω} (h : remove T O o s = (.ok (), s')) :
    ∃ obj uid c objects, s.heap[o]? = some obj ∧ obj.uid = some uid ∧
      (∀ p' ∈ c, ∃ p ∈ s.catalog, p'.1 = p.1 ∧
        CatalogIndex.unindexDoc T O uid p.2 = (.ok (), p'.2)) ∧
      IdStore.remove uid s.objects = (.ok (), objects) ∧
      s' = { s with catalog := c, objects := objects } := by
  rw [remove, Py.get_bind_apply] at h
  obtain ⟨obj, s₁, hcall₁, hrest₁⟩ := Py.bind_eq_ok.mp h
  obtain ⟨hobj, rfl⟩ := Py.ofOption_eq_ok.mp hcall₁
  obtain ⟨uid, s₂, hcall₂, hrest₂⟩ := Py.bind_eq_ok.mp hrest₁
  obtain ⟨huid, rfl⟩ := Py.ofOption_eq_ok.mp hcall₂
  obtain ⟨⟨⟩, s₃, hcall₃, hrest₃⟩ := Py.bind_eq_ok.mp hrest₂
  obtain ⟨c, hc, rfl⟩ := inCatalog_ok hcall₃
  obtain ⟨objects, hremove, rfl⟩ := Py.zoom_eq_ok.mp hrest₃
  exact ⟨obj, uid, c, objects, hobj, huid, onIndexes_ok hc, hremove, rfl⟩

/-- What `reindex_one` does when it returns. -/
theorem reindexOne_ok {o : ObjId} {attributes : Option (List Str)} {s s' : Db V ξ ω}
    (h : reindexOne T O o attributes s = (.ok (), s')) :
    ∃ obj uid, s.heap[o]? = some obj ∧ obj.uid = some uid ∧
      indexFields T O (named attributes) uid obj s = (.ok (), s') := by
  rw [reindexOne, Py.get_bind_apply] at h
  obtain ⟨obj, s₁, hcall₁, hrest₁⟩ := Py.bind_eq_ok.mp h
  obtain ⟨hobj, rfl⟩ := Py.ofOption_eq_ok.mp hcall₁
  obtain ⟨uid, s₂, hcall₂, hrest₂⟩ := Py.bind_eq_ok.mp hrest₁
  obtain ⟨huid, rfl⟩ := Py.ofOption_eq_ok.mp hcall₂
  exact ⟨obj, uid, hobj, huid, hrest₂⟩

/-- A committed transaction: its steps, then the reduced queue, then an empty queue. -/
theorem machine_ok {ops : List (Op V)} {s : Db V ξ ω} (h : Commits M T O key s ops) :
    ∃ s₁ s₂, steps M T O ops s = (.ok (), s₁) ∧
      Py.forEach (IndexQueue.handle (processor T O)) (IndexQueue.optimize (key s₁.heap) s₁.queue) s₁ =
        (.ok (), s₂) ∧
      (machine M T O key s ops).2 = { s₂ with queue := [] } := by
  have hrun : machine M T O key s ops = (.ok (), (machine M T O key s ops).2) := Prod.ext h rfl
  obtain ⟨⟨⟩, s₁, hsteps, hrest⟩ := Py.bind_eq_ok.mp hrun
  rw [beforeCommit, Py.get_bind_apply] at hrest
  obtain ⟨⟨⟩, s₂, hprocess, hrest⟩ := Py.bind_eq_ok.mp hrest
  exact ⟨s₁, s₂, hsteps, hprocess, (Prod.mk.inj hrest).2.symm⟩

theorem handle_reindex {it : Item ObjId} (h : it.op = reindexOp) :
    IndexQueue.handle (processor T O : QueueProcessor (Db V ξ ω) ObjId) it =
      reindexOne T O it.obj it.attrs := by
  rw [IndexQueue.handle, if_neg (by rw [h]; decide), if_pos h, processor]

/-! ## No dangling entries

Adding and removing keep the catalog within the store. The hook may not: a queued operation
reindexes an object under its `_p_uid`, whether the object is stored or not. Hence the condition,
on the queue as it is at the commit. -/

/-- Every document held by an index is in the object store. -/
def NoDangling (T : IndexClass V ξ) (O : IndexClass V ω) (s : Db V ξ ω) : Prop :=
  ∀ p ∈ s.catalog, ∀ docid, (CatalogIndex.view T O).Holds p.2 docid → docid ∈ s.objects.tree

/-- The `_p_uid` of a queued object is in the object store. -/
def QueueStored (s : Db V ξ ω) : Prop :=
  ∀ it ∈ s.queue, ∀ uid ∈ s.heap[it.obj]?.bind Obj.uid, uid ∈ s.objects.tree

instance (s : Db V ξ ω) : Decidable (QueueStored s) :=
  inferInstanceAs (Decidable (∀ it ∈ s.queue, ∀ uid ∈ s.heap[it.obj]?.bind Obj.uid,
    uid ∈ s.objects.tree))

/-- The state in which a transaction is committed. -/
def beforeHook (M : Model V) (T : IndexClass V ξ) (O : IndexClass V ω) (s : Db V ξ ω)
    (ops : List (Op V)) : Db V ξ ω := (steps M T O ops s).2

/-- What the steps of a transaction keep. -/
structure Inv (T : IndexClass V ξ) (O : IndexClass V ω) (s : Db V ξ ω) : Prop where
  /-- the indexes are well formed -/
  index : ∀ p ∈ s.catalog, (CatalogIndex.view T O).Inv p.2
  /-- their documents are stored -/
  noDangling : NoDangling T O s
  /-- only reindex operations are queued -/
  queue : ∀ it ∈ s.queue, IndexQueue.Reindexes it

theorem inv_init : Inv T O (init M T O) := by
  refine ⟨fun p hp => ?_, fun p hp d hd => ?_, fun it hit => nomatch hit⟩
  · obtain ⟨f, -, rfl⟩ := List.mem_map.mp hp
    exact (CatalogIndex.new_ok f.kind).1
  · obtain ⟨f, -, rfl⟩ := List.mem_map.mp hp
    exact absurd hd ((CatalogIndex.new_ok f.kind).2 d)

/-- Indexing a stored document lets none dangle. -/
theorem Inv.indexFields {named : Indexable V → Bool} {uid : ℤ} {obj : Obj V} {s s' : Db V ξ ω}
    (h : Inv T O s) (huid : uid ∈ s.objects.tree)
    (hrun : indexFields T O named uid obj s = (.ok (), s')) : Inv T O s' := by
  obtain ⟨c, rfl, hc⟩ := indexFields_ok hrun
  refine ⟨fun p' hp' => ?_, fun p' hp' d hd => ?_, h.queue⟩
  · obtain ⟨p, hp, -, hcall⟩ := hc p' hp'
    by_cases hn : named p.1 = true
    · rw [if_pos hn] at hcall
      exact (CatalogIndex.indexDoc_ok (h.index p hp) hcall).1.inv
    · rw [if_neg hn] at hcall
      exact hcall ▸ h.index p hp
  · obtain ⟨p, hp, -, hcall⟩ := hc p' hp'
    by_cases hn : named p.1 = true
    · rw [if_pos hn] at hcall
      rcases (CatalogIndex.indexDoc_ok (h.index p hp) hcall).1.holds d hd with rfl | hd
      · exact huid
      · exact h.noDangling p hp d hd
    · rw [if_neg hn] at hcall
      exact h.noDangling p hp d (hcall ▸ hd)

theorem Inv.step {op : Op V} {s s' : Db V ξ ω} (h : Inv T O s)
    (hrun : step M T O op s = (.ok (), s')) : Inv T O s' := by
  cases op with
  | add o kw draws =>
    obtain ⟨obj, uid, objects, -, -, hadd, hindex⟩ := add_ok hrun
    obtain ⟨-, htree⟩ := IdStore.add_spec hadd
    have huid : uid ∈ objects.tree := by
      rw [htree, BTree.mem_insert]
      exact .inl rfl
    have hadded : Inv T O { s with
        objects := objects
        heap := s.heap.insert o { obj with uid := some uid } } := by
      refine ⟨h.index, fun p hp d hd => ?_, h.queue⟩
      change d ∈ objects.tree
      rw [htree, BTree.mem_insert]
      exact .inr (h.noDangling p hp d hd)
    exact hadded.indexFields huid hindex
  | assign o name value =>
    obtain ⟨obj, -, rfl⟩ := assign_ok hrun
    refine ⟨h.index, h.noDangling, fun it hit => ?_⟩
    by_cases hn : M.Notifies name obj
    · simp only [if_pos hn] at hit
      rcases List.mem_append.mp hit with hit | hit
      · exact h.queue it hit
      · obtain rfl := List.mem_singleton.mp hit
        exact ⟨rfl, rfl⟩
    · simp only [if_neg hn] at hit
      exact h.queue it hit
  | remove o =>
    obtain ⟨obj, uid, c, objects, -, -, hc, hremove, rfl⟩ := remove_ok hrun
    obtain ⟨-, htree⟩ := IdStore.remove_spec hremove
    refine ⟨fun p' hp' => ?_, fun p' hp' d hd => ?_, h.queue⟩
    · obtain ⟨p, hp, -, hcall⟩ := hc p' hp'
      exact (CatalogIndex.unindexDoc_ok (h.index p hp) hcall).1.inv
    · obtain ⟨p, hp, -, hcall⟩ := hc p' hp'
      obtain ⟨hup, hgone⟩ := CatalogIndex.unindexDoc_ok (h.index p hp) hcall
      change d ∈ objects.tree
      rw [htree, BTree.mem_erase]
      have hne : d ≠ uid := by
        rintro rfl
        exact hgone hd
      exact ⟨h.noDangling p hp d ((hup.holds d hd).resolve_left hne), hne⟩
  | deactivate =>
    obtain rfl := (Prod.mk.inj hrun).2
    exact ⟨h.index, h.noDangling, h.queue⟩

theorem Inv.steps {ops : List (Op V)} {s s' : Db V ξ ω} (h : Inv T O s)
    (hrun : steps M T O ops s = (.ok (), s')) : Inv T O s' :=
  @Py.forEach_inv _ _ s (Db.step M T O) (fun _ s => Inv T O s) ops s'
    (fun _ _ _ _ hs hstep => hs.step hstep) h hrun

variable [Std.LawfulEqOrd κ] [DecidableEq κ]

/-- A commit lets no document dangle when the queued objects are stored. -/
theorem Inv.commit {ops : List (Op V)} {s : Db V ξ ω} (h : Inv T O s)
    (hcommits : Commits M T O key s ops) (hstored : QueueStored (beforeHook M T O s ops)) :
    Inv T O (machine M T O key s ops).2 := by
  obtain ⟨s₁, s₂, hsteps, hprocess, hfinal⟩ := machine_ok hcommits
  rw [beforeHook, hsteps] at hstored
  have h₁ := h.steps hsteps
  have hitems : ∀ it ∈ IndexQueue.optimize (key s₁.heap) s₁.queue, it.op = reindexOp ∧
      ∀ uid ∈ s₁.heap[it.obj]?.bind Obj.uid, uid ∈ s₁.objects.tree := by
    intro it hit
    have hmerged := IndexQueue.mem_optimize h₁.queue hit
    obtain ⟨it', hit', hobj⟩ := hmerged.queued
    exact ⟨hmerged.reindexes.1, hobj ▸ hstored it' hit'⟩
  have hrun := @Py.forEach_inv _ _ s₁ (IndexQueue.handle (processor T O))
    (fun items t => Inv T O t ∧ ∀ it ∈ items, it.op = reindexOp ∧
      ∀ uid ∈ t.heap[it.obj]?.bind Obj.uid, uid ∈ t.objects.tree)
    (IndexQueue.optimize (key s₁.heap) s₁.queue) s₂ ?_ ⟨h₁, hitems⟩ hprocess
  · rw [hfinal]
    exact ⟨hrun.1.index, hrun.1.noDangling, fun it hit => nomatch hit⟩
  · rintro it items t t' ⟨ht, hit⟩ hstep
    obtain ⟨⟨hop, huid⟩, hitems⟩ := List.forall_mem_cons.mp hit
    rw [handle_reindex hop] at hstep
    obtain ⟨obj, uid, hobj, hobjuid, hindex⟩ := reindexOne_ok hstep
    have hmem := huid uid (by rw [hobj, Option.bind_some, hobjuid]; rfl)
    refine ⟨ht.indexFields hmem hindex, ?_⟩
    obtain ⟨c, rfl, -⟩ := indexFields_ok hindex
    exact hitems

/-- **No dangling index entries**: after every one of a sequence of committed
transactions the documents held by the indexes are in the object store, if at each
commit the `_p_uid` of every queued object is. -/
theorem no_dangling (M : Model V) (T : IndexClass V ξ) (O : IndexClass V ω)
    (key : Heap V → ObjId → κ) (transactions : List (List (Op V)))
    (h : (machine M T O key).Along
      (fun s ops => Commits M T O key s ops ∧ QueueStored (beforeHook M T O s ops))
      (init M T O) transactions) :
    ∀ s ∈ (machine M T O key).states (init M T O) transactions, NoDangling T O s := by
  have hinv : ∀ s ∈ (machine M T O key).states (init M T O) transactions, Inv T O s :=
    h.states_inv (fun s ops hs hok => hs.commit hok.1 hok.2) inv_init
  exact fun s hs => (hinv s hs).noDangling

/-! ## Pages

A model with one field, for the examples. Hashes of objects that do not define any are those of
their addresses. -/

/-- Texts that are tuples of numbered words. -/
def tupleLexicon : Lexicon TupleValue Unit where
  empty := ()
  sourceToWordIds lex text :=
    match text with
    | none => (.error .typeError, lex)
    | some l => (.ok (l.map fun x => x.natAbs + 1), lex)
  positive lex text wids h w hw := by
    cases text with
    | none => cases h
    | some l =>
      obtain rfl := Except.ok.inj h
      obtain ⟨x, -, rfl⟩ := List.mem_map.mp hw
      exact Nat.succ_pos _

/-- The index class for them. -/
def tupleTexts : IndexClass TupleValue (IncrementalLuceneIndex ℚ (List ℕ) Unit) :=
  IncrementalLuceneIndex.lucene IncrementalLuceneIndex.plainWidcode tupleLexicon

/-- `title = fields.Field()`. -/
def title : Indexable TupleValue where
  name := "title".toList
  kind := .field
  default := none
  virtual := none
  indexed := true
  single := .inl rfl

/-- Pages with a title. -/
def page : Model TupleValue := ⟨[title], by simp⟩

/-- Hashes of objects that do not define any. -/
def address (_ : Heap TupleValue) (o : ObjId) : ObjId := o

/-- A page is added, retitled and, in a transaction of its own, removed. -/
theorem no_dangling_example :
    (machine page tupleTexts tupleTexts address).Along
        (fun s ops => Commits page tupleTexts tupleTexts address s ops ∧
          QueueStored (beforeHook page tupleTexts tupleTexts s ops))
        (init page tupleTexts tupleTexts)
        [[.add 0 [(title.name, ([1] : List ℤ))] [7]], [.assign 0 title.name ([2] : List ℤ)],
          [.remove 0]] ∧
      ∀ s ∈ (machine page tupleTexts tupleTexts address).states (init page tupleTexts tupleTexts)
        [[.add 0 [(title.name, ([1] : List ℤ))] [7]], [.assign 0 title.name ([2] : List ℤ)],
          [.remove 0]], NoDangling tupleTexts tupleTexts s := by
  have h : (machine page tupleTexts tupleTexts address).Along
      (fun s ops => Commits page tupleTexts tupleTexts address s ops ∧
        QueueStored (beforeHook page tupleTexts tupleTexts s ops))
      (init page tupleTexts tupleTexts)
      [[.add 0 [(title.name, ([1] : List ℤ))] [7]], [.assign 0 title.name ([2] : List ℤ)],
        [.remove 0]] := by
    decide +kernel
  exact ⟨h, no_dangling page tupleTexts tupleTexts address _ h⟩

/-- A page is retitled and removed in one transaction: its id stays in the index. -/
theorem dangling_after_remove :
    (machine page tupleTexts tupleTexts address).Along
        (Commits page tupleTexts tupleTexts address) (init page tupleTexts tupleTexts)
        [[.add 0 [(title.name, ([1] : List ℤ))] [7]],
          [.assign 0 title.name ([2] : List ℤ), .remove 0]] ∧
      ¬NoDangling tupleTexts tupleTexts ((machine page tupleTexts tupleTexts address).final
        (init page tupleTexts tupleTexts) [[.add 0 [(title.name, ([1] : List ℤ))] [7]],
          [.assign 0 title.name ([2] : List ℤ), .remove 0]]) := by
  set s := (machine page tupleTexts tupleTexts address).final
    (init page tupleTexts tupleTexts) [[.add 0 [(title.name, ([1] : List ℤ))] [7]],
      [.assign 0 title.name ([2] : List ℤ), .remove 0]] with hs
  refine ⟨by decide +kernel, fun h => ?_⟩
  have hheld : s.catalog.any (fun p => match p.2 with
      | .field ix => decide ((7 : ℤ) ∈ ix.revIndex)
      | _ => false) = true := by
    rw [hs]
    decide +kernel
  have hgone : (7 : ℤ) ∉ s.objects.tree := by
    rw [hs]
    decide +kernel
  obtain ⟨⟨f, ix | ix | ix⟩, hp, hin⟩ := List.any_eq_true.mp hheld
  · exact hgone (h _ hp 7 (.inl (of_decide_eq_true hin)))
  · cases hin
  · cases hin

end Db

end Zerodb
