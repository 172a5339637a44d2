import Zerodb.Freshness

/-!
# Mirror: the indexes of stored fields, with removal and manual reindexing

`DB.reindex` indexes an object again at once. `enableAutoReindex` switches off what the
before-commit hook does with the queue, and modifications are queued from the time on when it
was first switched on. What an index lacks at a commit are the attributes that were assigned
and not reindexed since (`dirty`).

* `mirrored` — where these are queued and automatic reindexing is on, or where there are none,
  the indexes of stored fields have exactly the stored objects, each under the value of its
  attribute, after any transactions that add, assign, remove and reindex.
-/

namespace Zerodb

/-- A database with the state of automatic reindexing. -/
structure Session (V ξ ω : Type) [PyValue V] where
  /-- the database -/
  db : Db V ξ ω
  /-- modifications are queued: the dispatcher is among the subscribers -/
  subscribed : Bool
  /-- `_reindex_queue_processor.enabled` -/
  enabled : Bool

namespace Session

variable {V ξ ω κ : Type} [PyValue V] [Ord κ] [Std.TransOrd κ]
variable (M : Model V) (T : IndexClass V ξ) (O : IndexClass V ω)

/-! ## Calls

Reindexing by hand goes straight to the catalog, without the queue. Automatic reindexing has two
switches: a subscriber that queues modifications, which is never taken away again, and a flag of
the processor, which the hook looks at. -/

/-- What is done in a transaction. -/
inductive Action (V : Type) where
  /-- a step on objects -/
  | op : Db.Op V → Action V
  /-- `DB.reindex` of an object -/
  | reindex : ObjId → Option (List Str) → Action V
  /-- `DB.enableAutoReindex` -/
  | enableAutoReindex : Bool → Action V

/-- An action. Without a subscriber nothing is queued. -/
def act : Action V → Py (Session V ξ ω) Unit
  | .op op => fun s =>
    let (result, db) := Db.step M T O op s.db
    (result, { s with db := if s.subscribed then db else { db with queue := s.db.queue } })
  | .reindex o attributes => Py.zoom db (fun d s => { s with db := d }) (Db.reindexOne T O o attributes)
  | .enableAutoReindex enabled => Py.modify fun s => { s with
      subscribed := s.subscribed || enabled
      enabled := enabled }

/-- `AutoReindexQueueProcessor`, on or off. -/
def processor (enabled : Bool) : QueueProcessor (Db V ξ ω) ObjId where
  index _ _ := Py.pure ()
  reindex o attributes := if enabled then Db.reindexOne T O o attributes else Py.pure ()
  unindex _ := Py.pure ()

variable (key : Heap V → ObjId → κ)

/-- `before_commit`. -/
def beforeCommit (enabled : Bool) : Py (Db V ξ ω) Unit := do
  let s ← Py.get
  IndexQueue.process (processor T O enabled) (key s.heap) s.queue
  Py.modify fun s => { s with queue := [] }

/-- A transaction. -/
def machine : Machine (Session V ξ ω) (List (Action V)) (Except Exc Unit) := fun s actions =>
  (do
    Py.forEach (act M T O) actions
    let s ← Py.get
    Py.zoom db (fun d s => { s with db := d }) (beforeCommit T O key s.enabled)) s

/-- A new database, with the argument `autoreindex`. -/
def init (autoreindex : Bool) : Session V ξ ω := ⟨Db.init M T O, autoreindex, autoreindex⟩

/-- The transaction commits. -/
def Commits (s : Session V ξ ω) (actions : List (Action V)) : Prop :=
  (machine M T O key s actions).1 = .ok ()

instance (s : Session V ξ ω) (actions : List (Action V)) : Decidable (Commits M T O key s actions) :=
  inferInstanceAs (Decidable (_ = _))

/-- The state in which it is committed. -/
def beforeHook (s : Session V ξ ω) (actions : List (Action V)) : Session V ξ ω :=
  (Py.forEach (act M T O) actions s).2

/-! ## What is tracked

`dirty` is a specification variable: the attributes that were assigned in a transaction and not
reindexed since. The code does not keep it. `Tracked` says that what is dirty at the commit is
queued, with the processor on, or that nothing is; and that what the hook reindexes is still
stored. -/

/-- The attribute of an object is reindexed with these. -/
def Covers (o : ObjId) (attributes : Option (List Str)) (d : ObjId × Str) : Prop :=
  d.1 = o ∧ ∀ l ∈ attributes, d.2 ∈ l

instance (o : ObjId) (attributes : Option (List Str)) (d : ObjId × Str) :
    Decidable (Covers o attributes d) := inferInstanceAs (Decidable (_ ∧ _))

/-- What has been assigned and not been reindexed since. -/
def dirtyAfter (D : List (ObjId × Str)) : Action V → List (ObjId × Str)
  | .op (.assign o name _) => D ++ [(o, name)]
  | .reindex o attributes => D.filter fun d => ¬Covers o attributes d
  | _ => D

/-- The same, after a transaction. -/
def dirty (actions : List (Action V)) : List (ObjId × Str) := actions.foldl dirtyAfter []

/-- The object is stored under its `_p_uid`, if it has that attribute. -/
def Live (s : Db V ξ ω) (o : ObjId) : Prop :=
  ∀ uid ∈ s.heap[o]?.bind Obj.uid, s.objects.tree[uid]? = some o

instance (s : Db V ξ ω) (o : ObjId) : Decidable (Live s o) :=
  inferInstanceAs (Decidable (∀ uid ∈ s.heap[o]?.bind Obj.uid, s.objects.tree[uid]? = some o))

/-- A reindexed object is stored. -/
def ReindexLive (s : Session V ξ ω) : Action V → Prop
  | .reindex o _ => Live s.db o
  | _ => True

instance (s : Session V ξ ω) (a : Action V) : Decidable (ReindexLive s a) :=
  match a with
  | .op _ => .isTrue trivial
  | .reindex o _ => inferInstanceAs (Decidable (Live s.db o))
  | .enableAutoReindex _ => .isTrue trivial

/-- The actions, one after another. -/
def actions : Machine (Session V ξ ω) (Action V) (Except Exc Unit) := fun s a => act M T O a s

/-- **What a transaction must meet** for the indexes to follow the objects. -/
structure Tracked (s : Session V ξ ω) (l : List (Action V)) : Prop where
  /-- what is reindexed is stored -/
  live : (actions M T O).Along ReindexLive s l
  /-- so is what is queued, if the queue is processed -/
  queueLive : (beforeHook M T O s l).enabled = true →
    ∀ it ∈ (beforeHook M T O s l).db.queue, Live (beforeHook M T O s l).db it.obj
  /-- and the hash tells it apart -/
  distinct : (beforeHook M T O s l).enabled = true →
    ∀ a ∈ (beforeHook M T O s l).db.queue, ∀ b ∈ (beforeHook M T O s l).db.queue,
      key (beforeHook M T O s l).db.heap a.obj = key (beforeHook M T O s l).db.heap b.obj →
        a.obj = b.obj
  /-- what is dirty of stored objects is queued, and the queue is processed -/
  queued : ∀ u ∈ (beforeHook M T O s l).db.objects.tree.toList, ∀ d ∈ dirty l, d.1 = u.2 →
    (beforeHook M T O s l).enabled = true ∧ Db.Queued (beforeHook M T O s l).db.queue d.1 d.2
  /-- no attribute is left with the marker for missing values -/
  proper : ∀ f ∈ M.indexedFields, f.virtual.isNone = true →
    ∀ u ∈ (beforeHook M T O s l).db.objects.tree.toList,
      (beforeHook M T O s l).db.heap[u.2]?.bind (·.attrs[f.name]?) ≠ some marker

/-- **The mirror**: the indexes of stored fields have the stored objects and no others, each
under the value of its attribute. -/
structure Mirrored (T : IndexClass V ξ) (O : IndexClass V ω) (s : Db V ξ ω) : Prop where
  /-- no others -/
  noDangling : Db.NoDangling T O s
  /-- under their values -/
  fresh : Db.FreshStored T O s

variable {M T O key}

/-! ## Objects and their ids

With removals an object may keep an id that is not in the store any more. `Linked` is weaker than
`Consistent` of `Freshness` in that point: a stored object has its id, while an id need not lead
to an object. -/

/-- What all actions keep, besides freshness. -/
structure Linked (M : Model V) (T : IndexClass V ξ) (O : IndexClass V ω) (s : Db V ξ ω) : Prop where
  /-- the invariant of all steps -/
  inv : Db.Inv T O s
  /-- the indexes are those of the indexed fields -/
  fields : ∀ p ∈ s.catalog, p.1 ∈ M.indexedFields
  /-- every instance has its stored fields -/
  complete : ∀ (o : ObjId) (obj : Obj V), s.heap[o]? = some obj → obj.Complete M
  /-- a stored object has its id as `_p_uid` -/
  linked : ∀ uid o, s.objects.tree[uid]? = some o → s.heap[o]?.bind Obj.uid = some uid

/-- The object stored under an id. -/
theorem Linked.obj {s : Db V ξ ω} (h : Linked M T O s) {uid : ℤ} {o : ObjId}
    (hs : s.objects.tree[uid]? = some o) : ∃ obj, s.heap[o]? = some obj ∧ obj.uid = some uid :=
  Option.bind_eq_some_iff.mp (h.linked uid o hs)

/-- The queue does not matter, as long as it has reindex operations. -/
theorem Linked.withQueue {s : Db V ξ ω} (h : Linked M T O s) {queue : List (Item ObjId)}
    (hq : ∀ it ∈ queue, IndexQueue.Reindexes it) : Linked M T O { s with queue := queue } :=
  ⟨⟨h.inv.index, h.inv.noDangling, hq⟩, h.fields, h.complete, h.linked⟩

theorem Linked.step {op : Db.Op V} {s s' : Db V ξ ω} (h : Linked M T O s)
    (hrun : Db.step M T O op s = (.ok (), s')) : Linked M T O s' := by
  have hinv := h.inv.step hrun
  cases op with
  | add o kw draws =>
    obtain ⟨obj, uid, objects, hinit, ho, hadd, hindex⟩ := Db.add_ok hrun
    obtain ⟨-, htree⟩ := IdStore.add_spec hadd
    have hfields := Db.indexFields_fields (M := M) (by exact h.fields) hindex
    obtain ⟨c, rfl, -⟩ := Db.indexFields_ok hindex
    refine ⟨hinv, hfields, fun x y hy => ?_, fun u x hu => ?_⟩
    · simp only [BTree.get_insert] at hy
      by_cases hx : o = x
      · rw [if_pos hx, Option.some.injEq] at hy
        subst hy
        exact (Model.init_ok hinit).1
      · rw [if_neg hx] at hy
        exact h.complete x y hy
    · simp only [htree, BTree.get_insert] at hu ⊢
      by_cases huid : uid = u
      · rw [if_pos huid, Option.some.injEq] at hu
        rw [if_pos hu, Option.bind_some, huid]
      · rw [if_neg huid] at hu
        obtain ⟨y, hy, hyuid⟩ := h.obj hu
        have hx : o ≠ x := by
          rintro rfl
          exact ho (BTree.mem_of_get _ hy)
        rw [if_neg hx, hy, Option.bind_some, hyuid]
  | assign o name value =>
    obtain ⟨obj, hobj, rfl⟩ := Db.assign_ok hrun
    refine ⟨hinv, h.fields, fun x y hy => ?_, fun u x hu => ?_⟩
    · simp only [BTree.get_insert] at hy
      by_cases hx : o = x
      · rw [if_pos hx, Option.some.injEq] at hy
        subst hy
        exact (h.complete o obj hobj).setattr name value
      · rw [if_neg hx] at hy
        exact h.complete x y hy
    · have hold := h.linked u x hu
      simp only [BTree.get_insert]
      by_cases hx : o = x
      · rw [← hx, hobj] at hold
        rw [if_pos hx]
        exact hold
      · rwa [if_neg hx]
  | remove o =>
    obtain ⟨obj, uid, c, objects, -, -, hc, hremove, rfl⟩ := Db.remove_ok hrun
    obtain ⟨-, htree⟩ := IdStore.remove_spec hremove
    refine ⟨hinv, fun p' hp' => ?_, h.complete, fun u x hu => ?_⟩
    · obtain ⟨p, hp, hfield, -⟩ := hc p' hp'
      exact hfield ▸ h.fields p hp
    · simp only [htree, BTree.get_erase] at hu
      split at hu
      · cases hu
      · exact h.linked u x hu
  | deactivate =>
    obtain rfl := (Prod.mk.inj hrun).2
    exact ⟨hinv, h.fields, h.complete, h.linked⟩

theorem Linked.indexFields {named : Indexable V → Bool} {uid : ℤ} {obj : Obj V} {s s' : Db V ξ ω}
    (h : Linked M T O s) (huid : uid ∈ s.objects.tree)
    (hrun : Db.indexFields T O named uid obj s = (.ok (), s')) : Linked M T O s' := by
  have hinv := h.inv.indexFields huid hrun
  have hfields := Db.indexFields_fields (M := M) h.fields hrun
  obtain ⟨c, rfl, -⟩ := Db.indexFields_ok hrun
  exact ⟨hinv, hfields, h.complete, h.linked⟩

/-! ## Freshness

`FreshBut D` says that the indexes are fresh but for the attributes in `D`. Each step makes `D`
larger or smaller, and a removed object does not matter any more. A step on one object leaves the
entries of the others, by the frame condition of the views. -/

/-- Every stored object is in the indexes of stored fields under the values of its attributes,
but for some of them and for the marker. -/
def FreshBut (T : IndexClass V ξ) (O : IndexClass V ω) (D : ObjId × Str → Prop) (s : Db V ξ ω) :
    Prop :=
  ∀ p ∈ s.catalog, p.1.virtual = none → ∀ uid o obj value, s.objects.tree[uid]? = some o →
    s.heap[o]? = some obj → obj.attrs[p.1.name]? = some value →
      (CatalogIndex.view T O).Under p.2 uid value ∨ D (o, p.1.name) ∨ value = marker

theorem FreshBut.mono {D D' : ObjId × Str → Prop} {s : Db V ξ ω} (h : FreshBut T O D s)
    (hD : ∀ (uid : ℤ) (o : ObjId) (name : Str), s.objects.tree[uid]? = some o → D (o, name) → D' (o, name)) :
    FreshBut T O D' s :=
  fun p hp hv uid o obj value hu hx hval =>
    (h p hp hv uid o obj value hu hx hval).imp_right (Or.imp_left (hD uid o _ hu))

/-- An added object has its values in the indexes. -/
theorem FreshBut.add {D : List (ObjId × Str)} {o : ObjId} {kw : List (Str × V)} {draws : List ℤ}
    {s s' : Db V ξ ω} (h : FreshBut T O (· ∈ D) s) (hl : Linked M T O s)
    (hrun : Db.step M T O (.add o kw draws) s = (.ok (), s')) : FreshBut T O (· ∈ D) s' := by
  obtain ⟨obj, uid, objects, -, ho, hadd, hindex⟩ := Db.add_ok hrun
  obtain ⟨huid, htree⟩ := IdStore.add_spec hadd
  obtain ⟨c, rfl, hcat⟩ := Db.indexFields_ok hindex
  intro p' hp' hv u x y value hu hx hval
  obtain ⟨p, hp, hstep⟩ := hcat p' hp'
  obtain ⟨-, hframe, hnew, -⟩ := hstep.under (hl.inv.index p hp)
  have hfield : p'.1 = p.1 := hstep.1
  simp only [htree, BTree.get_insert] at hu hx
  by_cases huu : uid = u
  · -- the added object itself
    rw [if_pos huu, Option.some.injEq] at hu
    rw [if_pos hu, Option.some.injEq] at hx
    subst hu hx huu
    by_cases hm : value = marker
    · exact .inr (.inr hm)
    · left
      have hvalue : p.1.value (s.heap.insert o { obj with uid := some uid })
          { obj with uid := some uid } = value := by
        rw [Indexable.value_stored (hfield ▸ hv), ← hfield, hval]
        rfl
      exact hvalue ▸ hnew rfl (hvalue ▸ hm)
  · rw [if_neg huu] at hu
    have hxo : o ≠ x := by
      rintro rfl
      obtain ⟨z, hz, -⟩ := hl.obj hu
      exact ho (BTree.mem_of_get _ hz)
    rw [if_neg hxo] at hx
    rw [hfield] at hv hval ⊢
    exact (h p hp hv u x y value hu hx hval).imp_left (hframe u value (Ne.symm huu)).mpr

/-- An assignment makes one attribute dirty. -/
theorem FreshBut.assign {D : List (ObjId × Str)} {o : ObjId} {name : Str} {value : V}
    {s s' : Db V ξ ω} (h : FreshBut T O (· ∈ D) s)
    (hrun : Db.step M T O (.assign o name value) s = (.ok (), s')) :
    FreshBut T O (· ∈ D ++ [(o, name)]) s' := by
  obtain ⟨obj, hobj, rfl⟩ := Db.assign_ok hrun
  intro p hp hv u x y w hu hx hval
  simp only [BTree.get_insert] at hx
  by_cases hchanged : o = x ∧ name = p.1.name
  · refine .inr (.inl (List.mem_append_right _ ?_))
    rw [hchanged.1, hchanged.2]
    exact List.mem_singleton_self _
  · have hold : ∃ z, s.heap[x]? = some z ∧ z.attrs[p.1.name]? = some w := by
      by_cases hxo : o = x
      · rw [if_pos hxo, Option.some.injEq] at hx
        subst hx
        simp only [Obj.setattr, BTree.get_insert] at hval
        rw [if_neg fun hname => hchanged ⟨hxo, hname⟩] at hval
        exact ⟨obj, hxo ▸ hobj, hval⟩
      · rw [if_neg hxo] at hx
        exact ⟨y, hx, hval⟩
    obtain ⟨z, hz, hw⟩ := hold
    exact (h p hp hv u x z w hu hz hw).imp_right (Or.imp_left (List.mem_append_left _))

/-- A removed object leaves the others in the indexes. -/
theorem FreshBut.remove {D : List (ObjId × Str)} {o : ObjId} {s s' : Db V ξ ω}
    (h : FreshBut T O (· ∈ D) s) (hl : Linked M T O s)
    (hrun : Db.step M T O (.remove o) s = (.ok (), s')) : FreshBut T O (· ∈ D) s' := by
  obtain ⟨obj, uid, c, objects, -, -, hc, hremove, rfl⟩ := Db.remove_ok hrun
  obtain ⟨-, htree⟩ := IdStore.remove_spec hremove
  intro p' hp' hv u x y value hu hx hval
  obtain ⟨p, hp, hfield, hcall⟩ := hc p' hp'
  obtain ⟨hup, -⟩ := CatalogIndex.unindexDoc_ok (hl.inv.index p hp) hcall
  simp only [htree, BTree.get_erase] at hu
  split at hu
  · cases hu
  · rename_i hne
    rw [hfield] at hv hval ⊢
    exact (h p hp hv u x y value hu hx hval).imp_left (hup.frame u value (Ne.symm hne)).mpr

/-- What a step makes dirty. -/
theorem FreshBut.step {D : List (ObjId × Str)} {op : Db.Op V} {s s' : Db V ξ ω}
    (h : FreshBut T O (· ∈ D) s) (hl : Linked M T O s) (hrun : Db.step M T O op s = (.ok (), s')) :
    FreshBut T O (· ∈ dirtyAfter D (.op op)) s' := by
  cases op with
  | add o kw draws => exact h.add hl hrun
  | assign o name value => exact h.assign hrun
  | remove o => exact h.remove hl hrun
  | deactivate =>
    obtain rfl := (Prod.mk.inj hrun).2
    exact h

/-- What reindexing an object makes fresh. -/
theorem FreshBut.indexFields {D : ObjId × Str → Prop} {o : ObjId} {attributes : Option (List Str)}
    {uid : ℤ} {obj : Obj V} {s s' : Db V ξ ω} (h : FreshBut T O D s) (hl : Linked M T O s)
    (hobj : s.heap[o]? = some obj) (hstored : s.objects.tree[uid]? = some o)
    (hrun : Db.indexFields T O (Db.named attributes) uid obj s = (.ok (), s')) :
    FreshBut T O (fun d => D d ∧ ¬Covers o attributes d) s' := by
  obtain ⟨c, rfl, hcat⟩ := Db.indexFields_ok hrun
  intro p' hp' hv u x y value hu hx hval
  obtain ⟨p, hp, hstep⟩ := hcat p' hp'
  obtain ⟨-, hframe, hnew, hsame⟩ := hstep.under (hl.inv.index p hp)
  rw [show p'.1 = p.1 from hstep.1] at hv hval ⊢
  have hold := h p hp hv u x y value hu hx hval
  by_cases huu : u = uid
  · subst huu
    rw [hstored, Option.some.injEq] at hu
    subst hu
    rw [hobj, Option.some.injEq] at hx
    subst hx
    by_cases hn : Db.named attributes p.1 = true
    · by_cases hm : value = marker
      · exact .inr (.inr hm)
      · have hvalue : p.1.value s.heap obj = value := by
          rw [Indexable.value_stored hv, hval]
          rfl
        exact .inl (hvalue ▸ hnew hn (hvalue ▸ hm))
    · -- the attribute is not among those that are reindexed
      rw [hsame (Bool.eq_false_iff.mpr hn)]
      refine hold.imp_right (Or.imp_left fun hd => ⟨hd, fun hcov => hn ?_⟩)
      rcases attributes with _ | l
      · rfl
      · exact decide_eq_true (hcov.2 l rfl)
  · have hxo : x ≠ o := by
      rintro rfl
      obtain ⟨z, hz, hzuid⟩ := hl.obj hu
      obtain ⟨z', hz', hzuid'⟩ := hl.obj hstored
      rw [hz, Option.some.injEq] at hz'
      subst hz'
      exact huu (Option.some.inj (hzuid.symm.trans hzuid'))
    exact hold.imp (hframe u value huu).mpr (Or.imp_left fun hd => ⟨hd, fun hcov => hxo hcov.1⟩)

/-! ## Actions

An action of a session is a step of the database, or reindexes an object at once. What it does to
`dirty` is said by `dirtyAfter`, so that the two are followed side by side. -/

/-- What an action does that returns. -/
theorem act_ok {a : Action V} {s s' : Session V ξ ω} (hl : Linked M T O s.db)
    (hlive : ReindexLive s a) (hrun : act M T O a s = (.ok (), s')) :
    Linked M T O s'.db ∧ ∀ D, FreshBut T O (· ∈ D) s.db → FreshBut T O (· ∈ dirtyAfter D a) s'.db := by
  cases a with
  | op op =>
    rcases hstep : Db.step M T O op s.db with ⟨e | ⟨⟨⟩⟩, db⟩
    · simp only [act, hstep] at hrun
      cases hrun
    · simp only [act, hstep] at hrun
      obtain ⟨-, rfl⟩ := Prod.mk.inj hrun
      have hl' := hl.step hstep
      have hfresh : ∀ D, FreshBut T O (· ∈ D) s.db → FreshBut T O (· ∈ dirtyAfter D (.op op)) db :=
        fun D h => h.step hl hstep
      by_cases hsub : s.subscribed = true
      · simp only [if_pos hsub]
        exact ⟨hl', hfresh⟩
      · simp only [if_neg hsub]
        exact ⟨hl'.withQueue hl.inv.queue, hfresh⟩
  | reindex o attributes =>
    rw [act] at hrun
    obtain ⟨d, hcall, rfl⟩ := Py.zoom_eq_ok.mp hrun
    obtain ⟨obj, uid, hobj, huid, hindex⟩ := Db.reindexOne_ok hcall
    have hstored := hlive uid (by rw [hobj]; exact huid)
    refine ⟨hl.indexFields (BTree.mem_of_get _ hstored) hindex, fun D h => ?_⟩
    refine (h.indexFields hl hobj hstored hindex).mono fun u x name _ hd => ?_
    exact List.mem_filter.mpr ⟨hd.1, decide_eq_true hd.2⟩
  | enableAutoReindex enabled =>
    obtain rfl := (Prod.mk.inj hrun).2
    exact ⟨hl, fun D h => h⟩

theorem actions_ok {l : List (Action V)} {s s' : Session V ξ ω} (hl : Linked M T O s.db)
    (hlive : (actions M T O).Along ReindexLive s l) (hrun : Py.forEach (act M T O) l s = (.ok (), s'))
    {D : List (ObjId × Str)} (h : FreshBut T O (· ∈ D) s.db) :
    Linked M T O s'.db ∧ FreshBut T O (· ∈ l.foldl dirtyAfter D) s'.db := by
  induction l generalizing s D with
  | nil =>
    obtain ⟨-, rfl⟩ := Prod.mk.inj hrun
    exact ⟨hl, h⟩
  | cons a l ih =>
    obtain ⟨t, hstep, hrest⟩ := Py.forEach_cons_eq_ok.mp hrun
    obtain ⟨ha, hl'⟩ := hlive
    obtain ⟨ht, hfresh⟩ := act_ok hl ha hstep
    rw [show (actions M T O s a).2 = t from congrArg Prod.snd hstep] at hl'
    exact ih ht hl' hrest (hfresh D h)

/-! ## Commits

With the processor on, the hook makes fresh what is queued, and that covers what is dirty; with
the processor off it empties the queue and nothing is dirty. In both cases what is left is the
mirror. -/

/-- A committed transaction: its actions, then the reduced queue, then an empty queue. -/
theorem machine_ok {l : List (Action V)} {s : Session V ξ ω} (h : Commits M T O key s l) :
    ∃ s₁ db, Py.forEach (act M T O) l s = (.ok (), s₁) ∧
      Py.forEach (IndexQueue.handle (processor T O s₁.enabled))
        (IndexQueue.optimize (key s₁.db.heap) s₁.db.queue) s₁.db = (.ok (), db) ∧
      (machine M T O key s l).2 = { s₁ with db := { db with queue := [] } } := by
  have hrun : machine M T O key s l = (.ok (), (machine M T O key s l).2) := Prod.ext h rfl
  obtain ⟨⟨⟩, s₁, hactions, hrest⟩ := Py.bind_eq_ok.mp hrun
  rw [Py.get_bind_apply] at hrest
  obtain ⟨d, hcommit, hfinal⟩ := Py.zoom_eq_ok.mp hrest
  rw [beforeCommit, Py.get_bind_apply] at hcommit
  obtain ⟨⟨⟩, db, hprocess, hclear⟩ := Py.bind_eq_ok.mp hcommit
  obtain rfl := (Prod.mk.inj hclear).2
  exact ⟨s₁, db, hactions, hprocess, hfinal⟩

/-- A queue of reindex operations that is processed without the processor. -/
theorem process_disabled {items : List (Item ObjId)} (hop : ∀ it ∈ items, it.op = reindexOp)
    (s : Db V ξ ω) : Py.forEach (IndexQueue.handle (processor T O false)) items s = (.ok (), s) := by
  induction items with
  | nil => rfl
  | cons it items ih =>
    obtain ⟨hit, hitems⟩ := List.forall_mem_cons.mp hop
    refine Py.forEach_cons_eq_ok.mpr ⟨s, ?_, ih hitems⟩
    rw [IndexQueue.handle, if_neg (by rw [hit]; decide), if_pos hit]
    rfl

/-- With it, what is queued becomes fresh. -/
theorem process_enabled {items : List (Item ObjId)} (hitems : ∀ it ∈ items, IndexQueue.Reindexes it)
    {s s' : Db V ξ ω} (hl : Linked M T O s) (hlive : ∀ it ∈ items, Live s it.obj)
    (h : FreshBut T O (fun d => Db.Queued items d.1 d.2) s)
    (hrun : Py.forEach (IndexQueue.handle (processor T O true)) items s = (.ok (), s')) :
    Linked M T O s' ∧ FreshBut T O (fun _ => False) s' ∧ s'.heap = s.heap ∧ s'.objects = s.objects := by
  have hproc : (processor T O true : QueueProcessor (Db V ξ ω) ObjId) = Db.processor T O := rfl
  rw [hproc] at hrun
  let R (items : List (Item ObjId)) (t : Db V ξ ω) : Prop :=
    Linked M T O t ∧ (∀ it ∈ items, IndexQueue.Reindexes it ∧ Live t it.obj) ∧
      FreshBut T O (fun d => Db.Queued items d.1 d.2) t
  have hstep : ∀ it items t t' obj uid, R (it :: items) t → t.heap[it.obj]? = some obj →
      obj.uid = some uid → Db.indexFields T O (Db.named it.attrs) uid obj t = (.ok (), t') →
      R items t' := by
    intro it items t t' obj uid ⟨ht, hall, hfresh⟩ hobj huid hindex
    obtain ⟨⟨⟨-, hattrs⟩, hlive⟩, hall⟩ := List.forall_mem_cons.mp hall
    obtain ⟨names, hnames⟩ := Option.isSome_iff_exists.mp hattrs
    have hstored := hlive uid (by rw [hobj]; exact huid)
    have hfresh' := hfresh.indexFields ht hobj hstored hindex
    have ht' := ht.indexFields (BTree.mem_of_get _ hstored) hindex
    obtain ⟨c, rfl, -⟩ := Db.indexFields_ok hindex
    refine ⟨ht', hall, hfresh'.mono fun u x name _ hd => ?_⟩
    -- what was queued and is not covered is queued with a later operation
    obtain ⟨⟨it', hit', hobj', hname⟩, hcov⟩ := hd
    rcases List.mem_cons.mp hit' with rfl | hit'
    · refine absurd ⟨hobj'.symm, fun l hl => ?_⟩ hcov
      rw [hnames, Option.getD_some] at hname
      rw [hnames] at hl
      exact Option.some.inj hl ▸ hname
    · exact ⟨it', hit', hobj', hname⟩
  obtain ⟨⟨hl', -, hfresh⟩, hheap, hobjects⟩ := Db.process_inv (R := R)
    (fun it hit => (hitems it hit).1) hstep ⟨hl, fun it hit => ⟨hitems it hit, hlive it hit⟩, h⟩ hrun
  refine ⟨hl', hfresh.mono fun uid o name _ hq => ?_, hheap, hobjects⟩
  obtain ⟨it, hit, -⟩ := hq
  exact absurd hit List.not_mem_nil

variable [Std.LawfulEqOrd κ] [DecidableEq κ]

/-- **A committed transaction** that is tracked leaves the indexes fresh. -/
theorem Linked.commit {l : List (Action V)} {s : Session V ξ ω} (hl : Linked M T O s.db)
    (h : FreshBut T O (fun _ => False) s.db) (hcommits : Commits M T O key s l)
    (ht : Tracked M T O key s l) : Linked M T O (machine M T O key s l).2.db ∧
      FreshBut T O (fun _ => False) (machine M T O key s l).2.db ∧
      (machine M T O key s l).2.db.heap = (beforeHook M T O s l).db.heap ∧
      (machine M T O key s l).2.db.objects = (beforeHook M T O s l).db.objects := by
  obtain ⟨s₁, db, hactions, hprocess, hfinal⟩ := machine_ok hcommits
  have hhook : beforeHook M T O s l = s₁ := by rw [beforeHook, hactions]
  obtain ⟨hlive, hqueue, hdistinct, hqueued, -⟩ := ht
  rw [hhook] at hqueue hdistinct hqueued ⊢
  have hclean : FreshBut T O (· ∈ ([] : List (ObjId × Str))) s.db :=
    h.mono fun uid o name _ hd => absurd hd id
  obtain ⟨hl₁, h₁⟩ := actions_ok hl hlive hactions hclean
  have hdirty : ∀ (uid : ℤ) (o : ObjId) (name : Str), s₁.db.objects.tree[uid]? = some o →
      (o, name) ∈ dirty l → s₁.enabled = true ∧ Db.Queued s₁.db.queue o name :=
    fun uid o name huid hd => hqueued (uid, o)
      (Std.ExtTreeMap.mem_toList_iff_getElem?_eq_some.mpr huid) (o, name) hd rfl
  have hitems : ∀ it ∈ IndexQueue.optimize (key s₁.db.heap) s₁.db.queue, IndexQueue.Reindexes it :=
    fun it hit => (IndexQueue.mem_optimize hl₁.inv.queue hit).reindexes
  rw [hfinal]
  by_cases hen : s₁.enabled = true
  · rw [hen] at hprocess
    have hlive₁ : ∀ it ∈ IndexQueue.optimize (key s₁.db.heap) s₁.db.queue, Live s₁.db it.obj := by
      intro it hit
      obtain ⟨it', hit', hobj⟩ := (IndexQueue.mem_optimize hl₁.inv.queue hit).queued
      exact hobj ▸ hqueue hen it' hit'
    have hstart : FreshBut T O
        (fun d => Db.Queued (IndexQueue.optimize (key s₁.db.heap) s₁.db.queue) d.1 d.2) s₁.db :=
      h₁.mono fun uid o name huid hd =>
        Db.queued_optimize hl₁.inv.queue (hdistinct hen) (hdirty uid o name huid hd).2
    obtain ⟨hl₂, h₂, hheap, hobjects⟩ := process_enabled hitems hl₁ hlive₁ hstart hprocess
    exact ⟨hl₂.withQueue fun it hit => absurd hit List.not_mem_nil, h₂, hheap, hobjects⟩
  · have hoff : s₁.enabled = false := Bool.eq_false_iff.mpr hen
    rw [hoff, process_disabled fun it hit => (hitems it hit).1] at hprocess
    obtain rfl := (Prod.mk.inj hprocess).2
    have hfresh : FreshBut T O (fun _ => False) s₁.db :=
      h₁.mono fun uid o name huid hd => hen (hdirty uid o name huid hd).1
    exact ⟨hl₁.withQueue fun it hit => absurd hit List.not_mem_nil, hfresh, rfl, rfl⟩

end Session

end Zerodb
