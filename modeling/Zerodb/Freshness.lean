import Zerodb.Db

/-!
# Freshness: do the indexes have the current values?

While objects are only added and assigned to, an index of a stored field is brought up
to date at a commit if the attribute is queued for its object. Every assignment queues
it but one: `__setattr__` does not notify when the attribute was `None` (`Blind`).
`fresh_stored` says what follows for whole runs.

An index of a virtual field is not named by any notification. It has what the function
gave when the object was added, and `fresh_virtual` says when that is enough.
-/

namespace Zerodb

namespace Db

variable {V ξ ω κ : Type} [PyValue V] [Ord κ] [Std.TransOrd κ]
variable {M : Model V} {T : IndexClass V ξ} {O : IndexClass V ω} {key : Heap V → ObjId → κ}

/-! ## Objects and their ids

While nothing is removed, ids and objects stay linked: an object with a `_p_uid` is stored under
it, no two objects have one id, and every stored object has the attributes of its model. The
proofs about freshness take a stored object to its id and back all the time, and go through
`Consistent` for it. -/

/-- The step removes nothing. -/
def Op.Keeps : Op V → Prop
  | .remove _ => False
  | _ => True

instance : DecidablePred (Op.Keeps : Op V → Prop)
  | .add _ _ _ => .isTrue trivial
  | .assign _ _ _ => .isTrue trivial
  | .remove _ => .isFalse id
  | .deactivate => .isTrue trivial

/-- What steps that remove nothing keep, besides `Inv`. -/
structure Consistent (M : Model V) (T : IndexClass V ξ) (O : IndexClass V ω) (s : Db V ξ ω) :
    Prop where
  /-- the invariant of all steps -/
  inv : Inv T O s
  /-- the indexes are those of the indexed fields -/
  fields : ∀ p ∈ s.catalog, p.1 ∈ M.indexedFields
  /-- every instance has its stored fields -/
  complete : ∀ (o : ObjId) (obj : Obj V), s.heap[o]? = some obj → obj.Complete M
  /-- an object is stored under its `_p_uid` -/
  linked : ∀ uid o, s.objects.tree[uid]? = some o ↔ s.heap[o]?.bind Obj.uid = some uid

theorem consistent_init : Consistent M T O (init M T O) where
  inv := inv_init
  fields p hp := by
    obtain ⟨f, hf, rfl⟩ := List.mem_map.mp hp
    exact hf
  complete o obj h := by simp [init] at h
  linked uid o := by simp [init, IdStore.init]

/-- The object stored under an id. -/
theorem Consistent.obj {s : Db V ξ ω} (h : Consistent M T O s) {uid : ℤ} {o : ObjId}
    (hs : s.objects.tree[uid]? = some o) : ∃ obj, s.heap[o]? = some obj ∧ obj.uid = some uid :=
  Option.bind_eq_some_iff.mp ((h.linked uid o).mp hs)

theorem Consistent.stored {s : Db V ξ ω} (h : Consistent M T O s) {uid : ℤ} {o : ObjId}
    {obj : Obj V} (hobj : s.heap[o]? = some obj) (huid : obj.uid = some uid) :
    s.objects.tree[uid]? = some o :=
  (h.linked uid o).mpr (Option.bind_eq_some_iff.mpr ⟨obj, hobj, huid⟩)

/-- So a queued object is stored. -/
theorem Consistent.queueStored {s : Db V ξ ω} (h : Consistent M T O s) : QueueStored s := by
  intro it hit uid huid
  exact BTree.mem_of_get _ ((h.linked uid it.obj).mpr huid)

theorem linked_add {s : Db V ξ ω} (h : Consistent M T O s) {o : ObjId} {uid : ℤ} {obj : Obj V}
    (ho : o ∉ s.heap) (huid : uid ∉ s.objects.tree) (hobj : obj.uid = some uid) (u : ℤ) (x : ObjId) :
    (s.objects.tree.insert uid o)[u]? = some x ↔ (s.heap.insert o obj)[x]?.bind Obj.uid = some u := by
  rw [BTree.get_insert, BTree.get_insert]
  by_cases hu : uid = u
  · by_cases hx : o = x
    · rw [if_pos hu, if_pos hx, Option.bind_some, hobj, hu, hx]
      exact iff_of_true rfl rfl
    · rw [if_pos hu, if_neg hx, ← h.linked]
      refine iff_of_false (fun heq => hx (Option.some.inj heq)) fun hs => huid ?_
      exact hu ▸ BTree.mem_of_get _ hs
  · by_cases hx : o = x
    · rw [if_neg hu, if_pos hx, Option.bind_some, hobj]
      refine iff_of_false (fun hs => ho ?_) fun heq => hu (Option.some.inj heq)
      obtain ⟨y, hy, -⟩ := h.obj hs
      exact hx ▸ BTree.mem_of_get _ hy
    · rw [if_neg hu, if_neg hx, h.linked]

theorem indexFields_fields {named : Indexable V → Bool} {uid : ℤ} {obj : Obj V} {s s' : Db V ξ ω}
    (hfields : ∀ p ∈ s.catalog, p.1 ∈ M.indexedFields)
    (h : indexFields T O named uid obj s = (.ok (), s')) : ∀ p ∈ s'.catalog, p.1 ∈ M.indexedFields := by
  obtain ⟨c, rfl, hc⟩ := indexFields_ok h
  intro p' hp'
  obtain ⟨p, hp, hfield, -⟩ := hc p' hp'
  exact hfield ▸ hfields p hp

theorem Consistent.step {op : Op V} {s s' : Db V ξ ω} (h : Consistent M T O s) (hop : op.Keeps)
    (hrun : step M T O op s = (.ok (), s')) : Consistent M T O s' := by
  have hinv := h.inv.step hrun
  cases op with
  | add o kw draws =>
    obtain ⟨obj, uid, objects, hinit, ho, hadd, hindex⟩ := add_ok hrun
    obtain ⟨huid, htree⟩ := IdStore.add_spec hadd
    have hfields := indexFields_fields (M := M) (by exact h.fields) hindex
    obtain ⟨c, rfl, -⟩ := indexFields_ok hindex
    refine ⟨hinv, hfields, fun x y hy => ?_, fun u x => ?_⟩
    · simp only [BTree.get_insert] at hy
      by_cases hx : o = x
      · rw [if_pos hx, Option.some.injEq] at hy
        subst hy
        exact (Model.init_ok hinit).1
      · rw [if_neg hx] at hy
        exact h.complete x y hy
    · simp only [htree]
      exact linked_add h ho huid rfl u x
  | assign o name value =>
    obtain ⟨obj, hobj, rfl⟩ := assign_ok hrun
    refine ⟨hinv, h.fields, fun x y hy => ?_, fun u x => ?_⟩
    · simp only [BTree.get_insert] at hy
      by_cases hx : o = x
      · rw [if_pos hx, Option.some.injEq] at hy
        subst hy
        exact (h.complete o obj hobj).setattr name value
      · rw [if_neg hx] at hy
        exact h.complete x y hy
    · simp only [BTree.get_insert]
      rw [h.linked]
      by_cases hx : o = x
      · rw [if_pos hx, ← hx, hobj]
        rfl
      · rw [if_neg hx]
  | remove o => exact absurd hop id
  | deactivate =>
    obtain rfl := (Prod.mk.inj hrun).2
    exact ⟨hinv, h.fields, h.complete, h.linked⟩

/-- Processing the queue changes the catalog only, one reindexed object at a time. -/
theorem process_inv {R : List (Item ObjId) → Db V ξ ω → Prop} {items : List (Item ObjId)}
    {s s' : Db V ξ ω} (hop : ∀ it ∈ items, it.op = reindexOp)
    (hstep : ∀ it items t t' obj uid, R (it :: items) t → t.heap[it.obj]? = some obj →
      obj.uid = some uid → indexFields T O (named it.attrs) uid obj t = (.ok (), t') → R items t')
    (hs : R items s) (hrun : Py.forEach (IndexQueue.handle (processor T O)) items s = (.ok (), s')) :
    R [] s' ∧ s'.heap = s.heap ∧ s'.objects = s.objects := by
  have h := @Py.forEach_inv _ _ s (IndexQueue.handle (processor T O))
    (fun items t => (∀ it ∈ items, it.op = reindexOp) ∧ R items t ∧ t.heap = s.heap ∧
      t.objects = s.objects) items s' ?_ ⟨hop, hs, rfl, rfl⟩ hrun
  · exact h.2
  · rintro it items t t' ⟨hops, ht, hheap, hobjects⟩ hhandle
    obtain ⟨hit, hops⟩ := List.forall_mem_cons.mp hops
    rw [handle_reindex hit] at hhandle
    obtain ⟨obj, uid, hobj, huid, hindex⟩ := reindexOne_ok hhandle
    have hnext := hstep it items t t' obj uid ht hobj huid hindex
    obtain ⟨c, rfl, -⟩ := indexFields_ok hindex
    exact ⟨hops, hnext, hheap, hobjects⟩

variable [Std.LawfulEqOrd κ] [DecidableEq κ]

theorem Consistent.steps {ops : List (Op V)} {s s' : Db V ξ ω} (h : Consistent M T O s)
    (hops : ∀ op ∈ ops, op.Keeps) (hrun : steps M T O ops s = (.ok (), s')) :
    Consistent M T O s' := by
  have hall := @Py.forEach_inv _ _ s (Db.step M T O)
    (fun ops s => (∀ op ∈ ops, op.Keeps) ∧ Consistent M T O s) ops s' ?_ ⟨hops, h⟩ hrun
  · exact hall.2
  · rintro op ops t t' ⟨hkeeps, ht⟩ hstep
    obtain ⟨hop, hkeeps⟩ := List.forall_mem_cons.mp hkeeps
    exact ⟨hkeeps, ht.step hop hstep⟩

theorem Consistent.commit {ops : List (Op V)} {s : Db V ξ ω} (h : Consistent M T O s)
    (hops : ∀ op ∈ ops, op.Keeps) (hcommits : Commits M T O key s ops) :
    Consistent M T O (machine M T O key s ops).2 := by
  obtain ⟨s₁, s₂, hsteps, hprocess, hfinal⟩ := machine_ok hcommits
  have h₁ := h.steps hops hsteps
  have hinv := h.inv.commit hcommits (by rw [beforeHook, hsteps]; exact h₁.queueStored)
  have hop : ∀ it ∈ IndexQueue.optimize (key s₁.heap) s₁.queue, it.op = reindexOp :=
    fun it hit => (IndexQueue.mem_optimize h₁.inv.queue hit).reindexes.1
  obtain ⟨hfields, hheap, hobjects⟩ := process_inv (R := fun _ t =>
    ∀ p ∈ t.catalog, p.1 ∈ M.indexedFields) hop
    (fun it items t t' obj uid ht _ _ hindex => indexFields_fields ht hindex) h₁.fields hprocess
  rw [hfinal] at hinv ⊢
  refine ⟨hinv, hfields, fun o obj hobj => ?_, fun uid o => ?_⟩
  · exact h₁.complete o obj (hheap ▸ hobj)
  · simp only [hheap, hobjects]
    exact h₁.linked uid o

/-! ## Stored fields

The invariant between commits is `FreshUpTo`: an index entry is right, or its attribute is queued,
or the assignment was not noticed, or the value is the marker. An assignment moves an attribute
from the first case to the second or the third.

At the commit the queue is worked off from the front. What is left to do names the attributes that
may still be stale (`FreshLeft`), and nothing is left in the end. The reduction of the queue keeps
all named attributes, if the hash tells the objects apart. -/

/-- The attribute is queued for the object. -/
def Queued (queue : List (Item ObjId)) (o : ObjId) (name : Str) : Prop :=
  ∃ it ∈ queue, it.obj = o ∧ name ∈ it.attrs.getD []

instance (queue : List (Item ObjId)) (o : ObjId) (name : Str) : Decidable (Queued queue o name) :=
  inferInstanceAs (Decidable (∃ it ∈ queue, it.obj = o ∧ name ∈ it.attrs.getD []))

/-- An assignment to an indexed attribute that is `None` passes unnoticed. -/
def Blind (M : Model V) (s : Db V ξ ω) (o : ObjId) (name : Str) (value : V) : Prop :=
  (∃ obj ∈ s.heap[o]?, obj.uid.isSome = true ∧ obj.attrs[name]? = some PyValue.pyNone) ∧
    value ≠ PyValue.pyNone ∧ name ∈ M.indexedFields.map Indexable.name

instance (s : Db V ξ ω) (o : ObjId) (name : Str) (value : V) : Decidable (Blind M s o name value) :=
  inferInstanceAs (Decidable (_ ∧ _ ∧ _))

/-- The attribute a step assigns to unnoticed. -/
def blindOf (M : Model V) (s : Db V ξ ω) : Op V → List (ObjId × Str)
  | .assign o name value => if Blind M s o name value then [(o, name)] else []
  | _ => []

/-- The attributes the steps of a transaction assign to unnoticed. -/
def blinds (M : Model V) (T : IndexClass V ξ) (O : IndexClass V ω) :
    Db V ξ ω → List (Op V) → List (ObjId × Str)
  | _, [] => []
  | s, op :: ops => blindOf M s op ++ blinds M T O (step M T O op s).2 ops

/-- The indexes of stored fields have every stored object under the value of its
attribute. -/
def FreshStored (T : IndexClass V ξ) (O : IndexClass V ω) (s : Db V ξ ω) : Prop :=
  ∀ p ∈ s.catalog, p.1.virtual = none → ∀ uid o, s.objects.tree[uid]? = some o →
    ∃ obj value, s.heap[o]? = some obj ∧ obj.attrs[p.1.name]? = some value ∧
      (CatalogIndex.view T O).Under p.2 uid value

/-- What a transaction must meet for the indexes of stored fields to stay fresh. -/
structure Noticed (M : Model V) (T : IndexClass V ξ) (O : IndexClass V ω)
    (key : Heap V → ObjId → κ) (s : Db V ξ ω) (ops : List (Op V)) : Prop where
  /-- it removes nothing -/
  keeps : ∀ op ∈ ops, op.Keeps
  /-- what it assigns to unnoticed is queued all the same -/
  queued : ∀ b ∈ blinds M T O s ops, Queued (beforeHook M T O s ops).queue b.1 b.2
  /-- no attribute is left with the marker for missing values -/
  proper : ∀ f ∈ M.indexedFields, f.virtual.isNone = true →
    ∀ u ∈ (beforeHook M T O s ops).objects.tree.toList,
      (beforeHook M T O s ops).heap[u.2]?.bind (·.attrs[f.name]?) ≠ some marker
  /-- the hash tells the queued objects apart -/
  distinct : ∀ a ∈ (beforeHook M T O s ops).queue, ∀ b ∈ (beforeHook M T O s ops).queue,
    key (beforeHook M T O s ops).heap a.obj = key (beforeHook M T O s ops).heap b.obj → a.obj = b.obj

/-! ## During a transaction

Between commits the indexes lag behind, but only in what is queued and in what was assigned to
unnoticed. `FreshUpTo` says that every other attribute is fresh; adding and assigning keep it,
with one more attribute in the queue or among the unnoticed ones. -/

/-- Fresh but for some attributes, for those queued and for the marker. -/
def FreshUpTo (T : IndexClass V ξ) (O : IndexClass V ω) (B : List (ObjId × Str)) (s : Db V ξ ω) :
    Prop :=
  ∀ p ∈ s.catalog, p.1.virtual = none → ∀ uid o obj value, s.objects.tree[uid]? = some o →
    s.heap[o]? = some obj → obj.attrs[p.1.name]? = some value →
      (CatalogIndex.view T O).Under p.2 uid value ∨ (o, p.1.name) ∈ B ∨
        Queued s.queue o p.1.name ∨ value = marker

omit [Ord κ] [Std.TransOrd κ] [Std.LawfulEqOrd κ] [DecidableEq κ] in
theorem FieldIndexed.under {named : Indexable V → Bool} {uid : ℤ} {heap : Heap V} {obj : Obj V}
    {p p' : Indexable V × CatalogIndex V ξ ω} (h : FieldIndexed T O named uid heap obj p p')
    (hinv : (CatalogIndex.view T O).Inv p.2) :
    (CatalogIndex.view T O).Inv p'.2 ∧
      (∀ d value, d ≠ uid →
        ((CatalogIndex.view T O).Under p'.2 d value ↔ (CatalogIndex.view T O).Under p.2 d value)) ∧
      (named p.1 = true → p.1.value heap obj ≠ marker →
        (CatalogIndex.view T O).Under p'.2 uid (p.1.value heap obj)) ∧
      (named p.1 = false → p'.2 = p.2) := by
  obtain ⟨-, hcall⟩ := h
  by_cases hn : named p.1 = true
  · rw [if_pos hn] at hcall
    obtain ⟨hup, hunder⟩ := CatalogIndex.indexDoc_ok hinv hcall
    exact ⟨hup.inv, hup.frame, fun _ => hunder, fun hf => absurd hn (by simp [hf])⟩
  · rw [if_neg hn] at hcall
    rw [hcall]
    exact ⟨hinv, fun _ _ _ => Iff.rfl, fun ht => absurd ht hn, fun _ => rfl⟩

omit [Ord κ] [Std.TransOrd κ] [Std.LawfulEqOrd κ] [DecidableEq κ] in
/-- An added object is indexed under its attributes. -/
theorem FreshUpTo.add {B : List (ObjId × Str)} {s s' : Db V ξ ω} {o : ObjId} {kw : List (Str × V)}
    {draws : List ℤ} (h : FreshUpTo T O B s) (hc : Consistent M T O s)
    (hrun : add M T O o kw draws s = (.ok (), s')) : FreshUpTo T O B s' := by
  obtain ⟨obj, uid, objects, -, ho, hadd, hindex⟩ := add_ok hrun
  obtain ⟨huid, htree⟩ := IdStore.add_spec hadd
  obtain ⟨c, rfl, hcat⟩ := indexFields_ok hindex
  intro p' hp' hv u x y value hu hx hval
  obtain ⟨p, hp, hstep⟩ := hcat p' hp'
  obtain ⟨-, hframe, hnew, -⟩ := hstep.under (hc.inv.index p hp)
  have hfield : p'.1 = p.1 := hstep.1
  simp only [htree, BTree.get_insert] at hu hx
  by_cases hxo : o = x
  · -- the added object itself
    rw [if_pos hxo, Option.some.injEq] at hx
    subst hx
    have huu : uid = u := by
      by_contra hne
      rw [if_neg hne] at hu
      obtain ⟨z, hz, -⟩ := hc.obj hu
      exact ho (hxo ▸ BTree.mem_of_get _ hz)
    subst huu
    by_cases hm : value = marker
    · exact .inr (.inr (.inr hm))
    · left
      have hvalue : p.1.value (s.heap.insert o { obj with uid := some uid })
          { obj with uid := some uid } = value := by
        rw [Indexable.value_stored (hfield ▸ hv), ← hfield, hval]
        rfl
      exact hvalue ▸ hnew rfl (hvalue ▸ hm)
  · rw [if_neg hxo] at hx
    have hne : uid ≠ u := by
      rintro rfl
      rw [if_pos rfl] at hu
      exact hxo (Option.some.inj hu)
    rw [if_neg hne] at hu
    rw [hfield] at hv hval ⊢
    exact (h p hp hv u x y value hu hx hval).imp (hframe u value (Ne.symm hne)).mpr id

omit [Ord κ] [Std.TransOrd κ] [Std.LawfulEqOrd κ] [DecidableEq κ] in
/-- An assigned attribute is queued, or was assigned to unnoticed. -/
theorem FreshUpTo.assign {B : List (ObjId × Str)} {s s' : Db V ξ ω} {o : ObjId} {name : Str}
    {value : V} (h : FreshUpTo T O B s) (hc : Consistent M T O s)
    (hrun : assign M o name value s = (.ok (), s')) :
    FreshUpTo T O (B ++ blindOf M s (.assign o name value)) s' := by
  obtain ⟨obj, hobj, rfl⟩ := assign_ok hrun
  intro p hp hv u x y w hu hx hval
  have hmono : ∀ n, Queued s.queue x n → Queued (if M.Notifies name obj then
      s.queue ++ [⟨reindexOp, o, some [name]⟩] else s.queue) x n := by
    rintro n ⟨it, hit, hq⟩
    refine ⟨it, ?_, hq⟩
    split
    · exact List.mem_append_left _ hit
    · exact hit
  have hold : ∀ z w, s.heap[x]? = some z → z.attrs[p.1.name]? = some w →
      (CatalogIndex.view T O).Under p.2 u w ∨
        (x, p.1.name) ∈ B ++ blindOf M s (.assign o name value) ∨
        Queued (if M.Notifies name obj then s.queue ++ [⟨reindexOp, o, some [name]⟩]
          else s.queue) x p.1.name ∨ w = marker := by
    intro z w hz hw
    rcases h p hp hv u x z w hu hz hw with hun | hb | hq | hm
    · exact .inl hun
    · exact .inr (.inl (List.mem_append_left _ hb))
    · exact .inr (.inr (.inl (hmono _ hq)))
    · exact .inr (.inr (.inr hm))
  simp only [BTree.get_insert] at hx
  by_cases hxo : o = x
  · subst hxo
    rw [if_pos rfl, Option.some.injEq] at hx
    subst hx
    simp only [Obj.setattr, BTree.get_insert] at hval
    by_cases hname : name = p.1.name
    · rw [if_pos hname, Option.some.injEq] at hval
      subst hval
      obtain ⟨z, hz, huid⟩ := hc.obj hu
      rw [hobj, Option.some.injEq] at hz
      subst hz
      have hfield := hc.fields p hp
      have hindexed : name ∈ M.indexedFields.map Indexable.name :=
        hname ▸ List.mem_map_of_mem hfield
      have hcomplete := hc.complete o obj hobj p.1 (List.mem_of_mem_filter hfield) hv
      obtain ⟨before, hbefore⟩ := (BTree.mem_iff _).mp hcomplete
      by_cases hnone : before = PyValue.pyNone
      · by_cases hval : value = PyValue.pyNone
        · exact hold obj value hobj (by rw [hbefore, hnone, hval])
        · -- from `None` to a value: no notification
          have hblind : Blind M s o name value := ⟨⟨obj, hobj, by rw [huid]; rfl, by
            rw [hname, hbefore, hnone]⟩, hval, hindexed⟩
          refine .inr (.inl (List.mem_append_right _ ?_))
          rw [blindOf, if_pos hblind, hname]
          exact List.mem_singleton.mpr rfl
      · have hnotifies : M.Notifies name obj :=
          ⟨⟨before, by rw [hname, hbefore]; rfl, hnone⟩, hindexed, by rw [huid]; rfl⟩
        refine .inr (.inr (.inl ⟨⟨reindexOp, o, some [name]⟩, ?_, rfl, ?_⟩))
        · simp only [if_pos hnotifies]
          exact List.mem_append_right _ (List.mem_singleton.mpr rfl)
        · simp [hname]
    · rw [if_neg hname] at hval
      exact hold obj w hobj hval
  · rw [if_neg hxo] at hx
    exact hold y w hx hval

omit [Ord κ] [Std.TransOrd κ] [Std.LawfulEqOrd κ] [DecidableEq κ] in
theorem FreshUpTo.steps {ops : List (Op V)} {B : List (ObjId × Str)} {s s' : Db V ξ ω}
    (h : FreshUpTo T O B s) (hc : Consistent M T O s) (hops : ∀ op ∈ ops, op.Keeps)
    (hrun : steps M T O ops s = (.ok (), s')) : FreshUpTo T O (B ++ blinds M T O s ops) s' := by
  induction ops generalizing s B with
  | nil =>
    obtain ⟨-, rfl⟩ := Prod.mk.inj hrun
    rwa [blinds, List.append_nil]
  | cons op ops ih =>
    obtain ⟨hop, hops⟩ := List.forall_mem_cons.mp hops
    obtain ⟨t, hstep, hrest⟩ := Py.forEach_cons_eq_ok.mp hrun
    have hnext : FreshUpTo T O (B ++ blindOf M s op) t := by
      cases op with
      | add o kw draws => simpa [blindOf] using h.add hc hstep
      | assign o name value => exact h.assign hc hstep
      | remove o => exact absurd hop id
      | deactivate =>
        obtain rfl := (Prod.mk.inj hstep).2
        rw [show blindOf M s (.deactivate : Op V) = [] from rfl, List.append_nil]
        exact h
    have := ih hnext (hc.step hop hstep) hops hrest
    rwa [List.append_assoc, ← show (Db.step M T O op s).2 = t from congrArg Prod.snd hstep] at this

/-! ## At the commit

The queue is reduced and processed, one operation after the other. What is not yet fresh is named
by an operation that is left (`FreshLeft`), until none is left. -/

/-- What is queued survives the reduction of the queue, if the hash tells the objects
apart. -/
theorem queued_optimize {queue : List (Item ObjId)} {k : ObjId → κ}
    (hre : ∀ it ∈ queue, IndexQueue.Reindexes it)
    (hdistinct : ∀ a ∈ queue, ∀ b ∈ queue, k a.obj = k b.obj → a.obj = b.obj) {o : ObjId} {name : Str}
    (h : Queued queue o name) : Queued (IndexQueue.optimize k queue) o name := by
  obtain ⟨it, hit, rfl, hname⟩ := h
  obtain ⟨it', hit', hk⟩ : ∃ it' ∈ IndexQueue.optimize k queue, k it'.obj = k it.obj :=
    IndexQueue.exists_mem_optimize (fun x hx => (hre x hx).1) hit
  have hmerged := IndexQueue.mem_optimize hre hit'
  obtain ⟨it'', hit'', hobj⟩ := hmerged.queued
  have hsame : it'.obj = it.obj := by
    rw [← hobj]
    exact hdistinct it'' hit'' it hit (by rw [hobj, hk])
  exact ⟨it', hit', hsame, (hmerged.names name).mpr ⟨it, hit, hk.symm, hname⟩⟩

/-- Every stored attribute but the marker is fresh or named by an operation left. -/
structure FreshLeft (T : IndexClass V ξ) (O : IndexClass V ω) (s : Db V ξ ω)
    (items : List (Item ObjId)) (t : Db V ξ ω) : Prop where
  /-- the operations are reindex operations -/
  reindexes : ∀ it ∈ items, IndexQueue.Reindexes it
  /-- the objects are as they were -/
  heap : t.heap = s.heap
  /-- the indexes are well formed -/
  index : ∀ p ∈ t.catalog, (CatalogIndex.view T O).Inv p.2
  /-- what is not fresh is left -/
  fresh : ∀ p ∈ t.catalog, p.1.virtual = none → ∀ (uid : ℤ) (o : ObjId) (obj : Obj V) (value : V),
    s.objects.tree[uid]? = some o → s.heap[o]? = some obj → obj.attrs[p.1.name]? = some value →
      value = marker ∨ (CatalogIndex.view T O).Under p.2 uid value ∨ Queued items o p.1.name

omit [Ord κ] [Std.TransOrd κ] [Std.LawfulEqOrd κ] [DecidableEq κ] in
theorem FreshLeft.step {s t t' : Db V ξ ω} {it : Item ObjId} {items : List (Item ObjId)}
    {obj : Obj V} {uid : ℤ} (h : FreshLeft T O s (it :: items) t) (hc : Consistent M T O s)
    (hobj : t.heap[it.obj]? = some obj) (huid : obj.uid = some uid)
    (hindex : indexFields T O (named it.attrs) uid obj t = (.ok (), t')) :
    FreshLeft T O s items t' := by
  obtain ⟨c, rfl, hcat⟩ := indexFields_ok hindex
  obtain ⟨⟨-, hattrs⟩, hitems⟩ := List.forall_mem_cons.mp h.reindexes
  obtain ⟨l, hl⟩ := Option.isSome_iff_exists.mp hattrs
  refine ⟨hitems, h.heap, fun p' hp' => ?_, fun p' hp' hv u x y value hu hx hval => ?_⟩
  · obtain ⟨p, hp, hstep⟩ := hcat p' hp'
    exact (hstep.under (h.index p hp)).1
  · obtain ⟨p, hp, hstep⟩ := hcat p' hp'
    obtain ⟨-, hframe, hnew, hsame⟩ := hstep.under (h.index p hp)
    have hfield : p'.1 = p.1 := hstep.1
    rw [hfield] at hv hval ⊢
    have hstored := hc.stored (h.heap ▸ hobj) huid
    by_cases hxo : x = it.obj
    · subst hxo
      rw [h.heap, hx, Option.some.injEq] at hobj
      subst hobj
      obtain ⟨z, hz, hzuid⟩ := hc.obj hu
      rw [hx, Option.some.injEq] at hz
      subst hz
      rw [huid, Option.some.injEq] at hzuid
      subst hzuid
      have hvalue : p.1.value t.heap y = value := by
        rw [Indexable.value_stored hv, hval]
        rfl
      by_cases hn : named it.attrs p.1 = true
      · by_cases hm : value = marker
        · exact .inl hm
        · exact .inr (.inl (hvalue ▸ hnew hn (hvalue ▸ hm)))
      · rw [hsame (Bool.eq_false_iff.mpr hn)]
        rcases h.fresh p hp hv uid it.obj y value hu hx hval with hm | hun | ⟨it', hit', hobj', hname⟩
        · exact .inl hm
        · exact .inr (.inl hun)
        · rcases List.mem_cons.mp hit' with rfl | hit'
          · rw [hl, Option.getD_some] at hname
            have hin : named it'.attrs p.1 = true := by
              rw [hl]
              exact decide_eq_true hname
            exact absurd hin hn
          · exact .inr (.inr ⟨it', hit', hobj', hname⟩)
    · have hne : u ≠ uid := by
        rintro rfl
        rw [hstored, Option.some.injEq] at hu
        exact hxo hu.symm
      rcases h.fresh p hp hv u x y value hu hx hval with hm | hun | ⟨it', hit', hobj', hname⟩
      · exact .inl hm
      · exact .inr (.inl ((hframe u value hne).mpr hun))
      · rcases List.mem_cons.mp hit' with rfl | hit'
        · exact absurd hobj'.symm hxo
        · exact .inr (.inr ⟨it', hit', hobj', hname⟩)

/-- A commit brings the queued attributes up to date. -/
theorem FreshStored.commit {ops : List (Op V)} {s : Db V ξ ω} (h : FreshStored T O s)
    (hc : Consistent M T O s) (hcommits : Commits M T O key s ops)
    (hn : Noticed M T O key s ops) : FreshStored T O (machine M T O key s ops).2 := by
  obtain ⟨s₁, s₂, hsteps, hprocess, hfinal⟩ := machine_ok hcommits
  obtain ⟨hops, hqueued, hproper, hdistinct⟩ := hn
  have hhook : beforeHook M T O s ops = s₁ := by rw [beforeHook, hsteps]
  rw [hhook] at hqueued hproper hdistinct
  have hc₁ := hc.steps hops hsteps
  have hstart : FreshUpTo T O [] s := by
    intro p hp hv uid o obj value huid hobj hval
    obtain ⟨obj', value', hobj', hval', hunder⟩ := h p hp hv uid o huid
    rw [hobj, Option.some.injEq] at hobj'
    subst hobj'
    rw [hval, Option.some.injEq] at hval'
    exact .inl (hval' ▸ hunder)
  have hupto := hstart.steps hc hops hsteps
  rw [List.nil_append] at hupto
  have hitems : ∀ it ∈ IndexQueue.optimize (key s₁.heap) s₁.queue, IndexQueue.Reindexes it :=
    fun it hit => (IndexQueue.mem_optimize hc₁.inv.queue hit).reindexes
  have hleft : FreshLeft T O s₁ (IndexQueue.optimize (key s₁.heap) s₁.queue) s₁ := by
    refine ⟨hitems, rfl, hc₁.inv.index, fun p hp hv uid o obj value huid hobj hval => ?_⟩
    rcases hupto p hp hv uid o obj value huid hobj hval with hun | hb | hq | hm
    · exact .inr (.inl hun)
    · exact .inr (.inr (queued_optimize hc₁.inv.queue hdistinct (hqueued _ hb)))
    · exact .inr (.inr (queued_optimize hc₁.inv.queue hdistinct hq))
    · exact .inl hm
  obtain ⟨hend, hheap, hobjects⟩ := process_inv (fun it hit => (hitems it hit).1)
    (fun it items t t' obj uid ht hobj huid hindex => ht.step hc₁ hobj huid hindex) hleft hprocess
  have hfields := (hc.commit hops hcommits).fields
  rw [hfinal] at hfields ⊢
  intro p hp hv uid o huid
  simp only [hheap, hobjects] at huid ⊢
  obtain ⟨obj, hobj, -⟩ := hc₁.obj huid
  have hfield := hfields p hp
  obtain ⟨value, hval⟩ := (BTree.mem_iff _).mp
    (hc₁.complete o obj hobj p.1 (List.mem_of_mem_filter hfield) hv)
  refine ⟨obj, value, hobj, hval, ?_⟩
  rcases hend.fresh p hp hv uid o obj value huid hobj hval with rfl | hun | ⟨it, hit, -⟩
  · refine absurd ?_ (hproper p.1 hfield (by rw [hv]; rfl) (uid, o)
      (Std.ExtTreeMap.mem_toList_iff_getElem?_eq_some.mpr huid))
    rw [hobj, Option.bind_some, hval]
  · exact hun
  · cases hit

/-- What an index finds for an object. -/
def valueAt (s : Db V ξ ω) (f : Indexable V) (o : ObjId) : Option V :=
  s.heap[o]?.map (f.value s.heap)

/-- The indexes of virtual fields have every stored object under what the function
computes. -/
def FreshVirtual (T : IndexClass V ξ) (O : IndexClass V ω) (s : Db V ξ ω) : Prop :=
  ∀ p ∈ s.catalog, p.1.virtual.isSome = true → ∀ uid o, s.objects.tree[uid]? = some o →
    ∃ value, valueAt s p.1 o = some value ∧ (CatalogIndex.view T O).Under p.2 uid value

/-- The step removes nothing, and does not assign to a virtual field. -/
def Op.Plain (M : Model V) : Op V → Prop
  | .assign _ name _ => ∀ f ∈ M.fields, f.virtual.isSome = true → f.name ≠ name
  | .remove _ => False
  | _ => True

instance : DecidablePred (Op.Plain M : Op V → Prop)
  | .add _ _ _ => .isTrue trivial
  | .assign _ name _ =>
    inferInstanceAs (Decidable (∀ f ∈ M.fields, f.virtual.isSome = true → f.name ≠ name))
  | .remove _ => .isFalse id
  | .deactivate => .isTrue trivial

/-- The virtual values of an object are the same in two states. -/
def SameValues (M : Model V) (s t : Db V ξ ω) (o : ObjId) : Prop :=
  ∀ f ∈ M.indexedFields, f.virtual.isSome = true → valueAt s f o = valueAt t f o

instance (s t : Db V ξ ω) (o : ObjId) : Decidable (SameValues M s t o) :=
  inferInstanceAs (Decidable (∀ f ∈ M.indexedFields, f.virtual.isSome = true →
    valueAt s f o = valueAt t f o))

/-- Added objects have the virtual values of the state `t` from the first. -/
def AddedSame (M : Model V) (T : IndexClass V ξ) (O : IndexClass V ω) (t : Db V ξ ω) :
    Db V ξ ω → List (Op V) → Prop
  | _, [] => True
  | s, .add o kw draws :: ops => SameValues M (step M T O (.add o kw draws) s).2 t o ∧
      AddedSame M T O t (step M T O (.add o kw draws) s).2 ops
  | s, op :: ops => AddedSame M T O t (step M T O op s).2 ops

/-- What a transaction must meet for the indexes of virtual fields to stay fresh. -/
structure Steady (M : Model V) (T : IndexClass V ξ) (O : IndexClass V ω) (s : Db V ξ ω)
    (ops : List (Op V)) : Prop where
  /-- it removes nothing, and assigns to stored attributes -/
  plain : ∀ op ∈ ops, op.Plain M
  /-- at its commit stored objects have the virtual values they had before -/
  kept : ∀ u ∈ s.objects.tree.toList, SameValues M s (beforeHook M T O s ops) u.2
  /-- and added ones those they were added with -/
  added : AddedSame M T O (beforeHook M T O s ops) s ops
  /-- the functions return values that are not the marker for missing ones -/
  proper : ∀ f ∈ M.indexedFields, f.virtual.isSome = true →
    ∀ u ∈ (beforeHook M T O s ops).objects.tree.toList,
      valueAt (beforeHook M T O s ops) f u.2 ≠ some marker

omit [PyValue V] in
theorem Op.Plain.keeps {op : Op V} (h : op.Plain M) : op.Keeps := by
  cases op with
  | remove o => exact absurd h id
  | _ => trivial

/-! ## The indexes during a transaction

No queued operation names a virtual field, so that the indexes of virtual fields change in a
transaction only when an object is added. They are compared with the values of the state at its
end. -/

/-- The indexes of virtual fields have the values of another state. -/
def FreshAs (T : IndexClass V ξ) (O : IndexClass V ω) (t s : Db V ξ ω) : Prop :=
  ∀ p ∈ s.catalog, p.1.virtual.isSome = true → ∀ uid o, s.objects.tree[uid]? = some o →
    ∃ value, valueAt t p.1 o = some value ∧
      (value ≠ marker → (CatalogIndex.view T O).Under p.2 uid value)

/-- The queue names no virtual field. -/
def PlainQueue (M : Model V) (queue : List (Item ObjId)) : Prop :=
  ∀ it ∈ queue, ∀ name ∈ it.attrs.getD [], ∀ f ∈ M.fields, f.virtual.isSome = true → f.name ≠ name

theorem FreshAs.step {op : Op V} {ops : List (Op V)} {t s s' : Db V ξ ω} (h : FreshAs T O t s)
    (hc : Consistent M T O s) (hop : op.Plain M) (hadded : AddedSame M T O t s (op :: ops))
    (hrun : Db.step M T O op s = (.ok (), s')) : FreshAs T O t s' ∧ AddedSame M T O t s' ops := by
  have hs' : (Db.step M T O op s).2 = s' := congrArg Prod.snd hrun
  cases op with
  | add o kw draws =>
    rw [AddedSame, hs'] at hadded
    obtain ⟨hsame, hadded⟩ := hadded
    refine ⟨?_, hadded⟩
    obtain ⟨obj, uid, objects, -, ho, hadd, hindex⟩ := add_ok hrun
    obtain ⟨huid, htree⟩ := IdStore.add_spec hadd
    have hkeeps : (Op.add o kw draws).Keeps := trivial
    have hfields := (hc.step hkeeps hrun).fields
    obtain ⟨c, rfl, hcat⟩ := indexFields_ok hindex
    intro p' hp' hv u x hu
    obtain ⟨p, hp, hstep⟩ := hcat p' hp'
    obtain ⟨-, hframe, hnew, -⟩ := hstep.under (hc.inv.index p hp)
    have hfield : p'.1 = p.1 := hstep.1
    simp only [htree, BTree.get_insert] at hu
    by_cases huu : uid = u
    · subst huu
      rw [if_pos rfl, Option.some.injEq] at hu
      subst hu
      have hvalue := hsame p'.1 (hfields p' hp') hv
      simp only [valueAt, BTree.get_insert, if_pos, Option.map_some] at hvalue
      refine ⟨_, hvalue.symm, fun hm => ?_⟩
      rw [hfield] at hm ⊢
      exact hnew rfl hm
    · rw [if_neg huu] at hu
      rw [hfield] at hv ⊢
      obtain ⟨value, hvalue, hunder⟩ := h p hp hv u x hu
      exact ⟨value, hvalue, fun hm => (hframe u value (Ne.symm huu)).mpr (hunder hm)⟩
  | assign o name value =>
    have hrest : AddedSame M T O t (Db.step M T O (.assign o name value) s).2 ops := hadded
    rw [hs'] at hrest
    refine ⟨?_, hrest⟩
    obtain ⟨obj, -, rfl⟩ := assign_ok hrun
    exact h
  | remove o => exact absurd hop id
  | deactivate =>
    have hrest : AddedSame M T O t (Db.step M T O .deactivate s).2 ops := hadded
    rw [hs'] at hrest
    refine ⟨?_, hrest⟩
    obtain rfl := (Prod.mk.inj hrun).2
    exact h

theorem FreshAs.steps {ops : List (Op V)} {t s s' : Db V ξ ω} (h : FreshAs T O t s)
    (hc : Consistent M T O s) (hops : ∀ op ∈ ops, op.Plain M) (hadded : AddedSame M T O t s ops)
    (hrun : steps M T O ops s = (.ok (), s')) : FreshAs T O t s' := by
  have hall := @Py.forEach_inv _ _ s (Db.step M T O)
    (fun ops s => (∀ op ∈ ops, op.Plain M) ∧ Consistent M T O s ∧ FreshAs T O t s ∧
      AddedSame M T O t s ops) ops s' ?_ ⟨hops, hc, h, hadded⟩ hrun
  · exact hall.2.2.1
  · rintro op ops u u' ⟨hplain, hcu, hu, hadd⟩ hstep
    obtain ⟨hop, hplain⟩ := List.forall_mem_cons.mp hplain
    exact ⟨hplain, hcu.step hop.keeps hstep, hu.step hcu hop hadd hstep⟩

theorem PlainQueue.steps {ops : List (Op V)} {s s' : Db V ξ ω} (h : PlainQueue M s.queue)
    (hops : ∀ op ∈ ops, op.Plain M) (hrun : steps M T O ops s = (.ok (), s')) :
    PlainQueue M s'.queue := by
  have hall := @Py.forEach_inv _ _ s (Db.step M T O)
    (fun ops s => (∀ op ∈ ops, op.Plain M) ∧ PlainQueue M s.queue) ops s' ?_ ⟨hops, h⟩ hrun
  · exact hall.2
  · rintro op ops u u' ⟨hplain, hu⟩ hstep
    obtain ⟨hop, hplain⟩ := List.forall_mem_cons.mp hplain
    refine ⟨hplain, ?_⟩
    cases op with
    | add o kw draws =>
      obtain ⟨obj, uid, objects, -, -, -, hindex⟩ := add_ok hstep
      obtain ⟨c, rfl, -⟩ := indexFields_ok hindex
      exact hu
    | assign o name value =>
      obtain ⟨obj, -, rfl⟩ := assign_ok hstep
      intro it hit
      by_cases hn : M.Notifies name obj
      · simp only [if_pos hn] at hit
        rcases List.mem_append.mp hit with hit | hit
        · exact hu it hit
        · obtain rfl := List.mem_singleton.mp hit
          intro n hnm
          obtain rfl := List.mem_singleton.mp hnm
          exact hop
      · simp only [if_neg hn] at hit
        exact hu it hit
    | remove o => exact absurd hop id
    | deactivate =>
      obtain rfl := (Prod.mk.inj hstep).2
      exact hu

/-- A commit leaves the indexes of virtual fields as they are. -/
theorem FreshVirtual.commit {ops : List (Op V)} {s : Db V ξ ω} (h : FreshVirtual T O s)
    (hc : Consistent M T O s) (hq : PlainQueue M s.queue) (hcommits : Commits M T O key s ops)
    (hn : Steady M T O s ops) : FreshVirtual T O (machine M T O key s ops).2 := by
  obtain ⟨s₁, s₂, hsteps, hprocess, hfinal⟩ := machine_ok hcommits
  obtain ⟨hops, hkept, hadded, hproper⟩ := hn
  have hhook : beforeHook M T O s ops = s₁ := by rw [beforeHook, hsteps]
  rw [hhook] at hkept hadded hproper
  have hkeeps : ∀ op ∈ ops, op.Keeps := fun op hop => (hops op hop).keeps
  have hc₁ := hc.steps hkeeps hsteps
  have hstart : FreshAs T O s₁ s := by
    intro p hp hv uid o huid
    obtain ⟨value, hvalue, hunder⟩ := h p hp hv uid o huid
    have hsame := hkept (uid, o) (Std.ExtTreeMap.mem_toList_iff_getElem?_eq_some.mpr huid) p.1
      (hc.fields p hp) hv
    exact ⟨value, hsame ▸ hvalue, fun _ => hunder⟩
  have hfresh := hstart.steps hc hops hadded hsteps
  have hplain := hq.steps hops hsteps
  have hitems : ∀ it ∈ IndexQueue.optimize (key s₁.heap) s₁.queue, IndexQueue.Reindexes it ∧
      ∀ name ∈ it.attrs.getD [], ∀ f ∈ M.fields, f.virtual.isSome = true → f.name ≠ name := by
    intro it hit
    have hmerged := IndexQueue.mem_optimize hc₁.inv.queue hit
    refine ⟨hmerged.reindexes, fun name hname => ?_⟩
    obtain ⟨it', hit', -, hname'⟩ := (hmerged.names name).mp hname
    exact hplain it' hit' name hname'
  -- no operation names a virtual field, so their indexes stay
  have hend := process_inv (R := fun items t =>
    (∀ it ∈ items, IndexQueue.Reindexes it ∧ ∀ name ∈ it.attrs.getD [], ∀ f ∈ M.fields,
      f.virtual.isSome = true → f.name ≠ name) ∧
    (∀ p ∈ t.catalog, p.1 ∈ M.indexedFields) ∧
    ∀ p ∈ t.catalog, p.1.virtual.isSome = true → p ∈ s₁.catalog)
    (fun it hit => (hitems it hit).1.1) ?_ ⟨hitems, hc₁.fields, fun p hp _ => hp⟩ hprocess
  · obtain ⟨⟨-, -, hsame⟩, hheap, hobjects⟩ := hend
    rw [hfinal]
    intro p hp hv uid o huid
    simp only [valueAt, hheap, hobjects] at huid ⊢
    obtain ⟨value, hvalue, hunder⟩ := hfresh p (hsame p hp hv) hv uid o huid
    refine ⟨value, hvalue, hunder ?_⟩
    rintro rfl
    exact hproper p.1 (hc₁.fields p (hsame p hp hv)) hv (uid, o)
      (Std.ExtTreeMap.mem_toList_iff_getElem?_eq_some.mpr huid) hvalue
  · rintro it items t t' obj uid ⟨hits, hfields, hcat⟩ - - hindex
    obtain ⟨⟨hre, hnames⟩, hits⟩ := List.forall_mem_cons.mp hits
    have hfields' := indexFields_fields hfields hindex
    obtain ⟨c, rfl, hc'⟩ := indexFields_ok hindex
    refine ⟨hits, hfields', fun p' hp' hv => ?_⟩
    obtain ⟨p, hp, hfield, hcall⟩ := hc' p' hp'
    obtain ⟨l, hl⟩ := Option.isSome_iff_exists.mp hre.2
    have hnot : ¬named it.attrs p.1 = true := by
      rw [hl]
      intro hin
      refine hnames p.1.name ?_ p.1 (List.mem_of_mem_filter (hfields p hp)) (hfield ▸ hv) rfl
      rw [hl]
      exact of_decide_eq_true hin
    rw [if_neg hnot] at hcall
    have heq : p' = p := Prod.ext hfield hcall
    exact heq ▸ hcat p hp (hfield ▸ hv)

/-- **Freshness of virtual fields**: after every one of a sequence of committed
transactions that add objects and assign stored attributes, the indexes of virtual
fields have every stored object under what the function computes, if every
transaction is `Steady`. -/
theorem fresh_virtual (M : Model V) (T : IndexClass V ξ) (O : IndexClass V ω)
    (key : Heap V → ObjId → κ) (transactions : List (List (Op V)))
    (h : (machine M T O key).Along
      (fun s ops => Commits M T O key s ops ∧ Steady M T O s ops) (init M T O) transactions) :
    ∀ s ∈ (machine M T O key).states (init M T O) transactions, FreshVirtual T O s := by
  have hinv : ∀ s ∈ (machine M T O key).states (init M T O) transactions,
      Consistent M T O s ∧ PlainQueue M s.queue ∧ FreshVirtual T O s := by
    refine h.states_inv (fun s ops hs hok => ?_)
      ⟨consistent_init, (fun it hit => nomatch hit), fun p hp hv uid o huid => by
        simp [init, IdStore.init] at huid⟩
    refine ⟨hs.1.commit (fun op hop => (hok.2.plain op hop).keeps) hok.1, ?_,
      hs.2.2.commit hs.1 hs.2.1 hok.1 hok.2⟩
    obtain ⟨s₁, s₂, -, -, hfinal⟩ := machine_ok hok.1
    rw [hfinal]
    exact fun it hit => nomatch hit
  exact fun s hs => (hinv s hs).2.2

/-- The salary of an employee. -/
def salary : Indexable TupleValue := { title with name := "salary".toList }

/-- Twice the salary. -/
def futureSalary : Indexable TupleValue where
  name := "future_salary".toList
  kind := .field
  default := none
  virtual := some fun _ obj => obj.attrs[salary.name]?.map fun value =>
    value.map fun l : List ℤ => l.map (2 * ·)
  indexed := true
  single := .inl rfl

/-- Employees with a title, a salary and a future one. -/
def employee : Model TupleValue := ⟨[title, salary, futureSalary], by decide⟩

/-- An employee is retitled. -/
theorem fresh_virtual_example :
    FreshVirtual tupleTexts tupleTexts ((machine employee tupleTexts tupleTexts address).final
      (init employee tupleTexts tupleTexts)
      [[.add 0 [(title.name, ([1] : List ℤ)), (salary.name, ([5] : List ℤ))] [7]],
        [.assign 0 title.name ([2] : List ℤ)]]) :=
  fresh_virtual employee tupleTexts tupleTexts address
    [[.add 0 [(title.name, ([1] : List ℤ)), (salary.name, ([5] : List ℤ))] [7]],
      [.assign 0 title.name ([2] : List ℤ)]]
    ⟨⟨by decide +kernel, by decide +kernel, by decide +kernel, ⟨by decide +kernel, trivial⟩,
        by decide +kernel⟩,
      ⟨by decide +kernel, by decide +kernel, by decide +kernel, trivial, by decide +kernel⟩, trivial⟩
    _ (Machine.final_mem_states _ _ _)

/-- The salary is raised from 5 to 6: the index of the future salary still has 10. -/
theorem stale_future_salary :
    (machine employee tupleTexts tupleTexts address).Along
        (Commits employee tupleTexts tupleTexts address) (init employee tupleTexts tupleTexts)
        [[.add 0 [(title.name, ([1] : List ℤ)), (salary.name, ([5] : List ℤ))] [7]],
          [.assign 0 salary.name ([6] : List ℤ)]] ∧
      ¬FreshVirtual tupleTexts tupleTexts ((machine employee tupleTexts tupleTexts address).final
        (init employee tupleTexts tupleTexts)
        [[.add 0 [(title.name, ([1] : List ℤ)), (salary.name, ([5] : List ℤ))] [7]],
          [.assign 0 salary.name ([6] : List ℤ)]]) := by
  set s := (machine employee tupleTexts tupleTexts address).final
    (init employee tupleTexts tupleTexts)
    [[.add 0 [(title.name, ([1] : List ℤ)), (salary.name, ([5] : List ℤ))] [7]],
      [.assign 0 salary.name ([6] : List ℤ)]] with hs
  refine ⟨by decide +kernel, fun h => ?_⟩
  have hindex : s.catalog.any (fun p => p.1.virtual.isSome &&
      decide (valueAt s p.1 0 = some (([12] : List ℤ) : TupleValue)) && match p.2 with
      | .field ix => decide (ix.revIndex[(7 : ℤ)]? = some (([10] : List ℤ) : TupleValue))
      | _ => false) = true := by
    rw [hs]
    decide +kernel
  have hstored : s.objects.tree[(7 : ℤ)]? = some 0 := by
    rw [hs]
    decide +kernel
  obtain ⟨⟨f, ix⟩, hp, hin⟩ := List.any_eq_true.mp hindex
  simp only [Bool.and_eq_true, decide_eq_true_eq] at hin
  obtain ⟨⟨hv, hvalue⟩, hin⟩ := hin
  obtain ⟨value, hval, hunder⟩ := h _ hp hv 7 0 hstored
  rw [hvalue, Option.some.injEq] at hval
  rcases ix with ix | ix | ix
  · have hten : ix.revIndex[(7 : ℤ)]? = some (([10] : List ℤ) : TupleValue) := of_decide_eq_true hin
    have htwelve : ix.revIndex[(7 : ℤ)]? = some value := hunder.1
    rw [hten, ← hval] at htwelve
    exact absurd htwelve (by decide)
  · cases hin
  · cases hin

end Db

end Zerodb
