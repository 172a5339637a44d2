import Zerodb.Py
import Zerodb.Run

/-!
# Intid: object stores and the ids they give

`IdStore` keeps objects under ids it finds itself: the one after the last, or, where
that is taken or forgotten, what the random source gives until it is free. The random
source is a list of draws; a search that the draws do not end has not returned.

`Objects` is a store with the attribute `_p_uid` of the objects. `sound_states`: whatever
is added and removed, and whenever the volatile counter or the length is lost, ids are
free and in range, the length is right, and a failed removal changes nothing.
-/

namespace Zerodb

/-- `family32.maxint`. -/
def maxint : ℤ := 2 ^ 31 - 1

/-- `IdStore`, of objects in `α`. -/
structure IdStore (α : Type) where
  /-- the objects, by id -/
  tree : BTree ℤ α
  /-- `length`, which old databases do not have -/
  length : Option ℤ
  /-- `_v_nextid`, which is not stored -/
  nextid : Option ℤ

namespace IdStore

variable {α : Type}

/-- `IdStore()`. -/
def init : IdStore α := ⟨∅, some 0, none⟩

/-- `if not hasattr(self, "length"): self.length = Length(len(self.tree))`. -/
def ensureLength (s : IdStore α) : IdStore α :=
  { s with length := some (s.length.getD s.tree.size) }

/-- The end of `_generateId` with a free id. -/
def take (uid : ℤ) (s : IdStore α) : ℤ × IdStore α :=
  (uid, { s with nextid := if maxint < uid + 1 then none else some (uid + 1) })

/-- The loop of `_generateId` once it draws. -/
def draw (s : IdStore α) : List ℤ → Option (ℤ × IdStore α)
  | [] => none
  | uid :: draws => if uid ∈ s.tree then draw s draws else some (s.take uid)

/-- `_generateId`. -/
def generateId (draws : List ℤ) (s : IdStore α) : Option (ℤ × IdStore α) :=
  match s.nextid with
  | none => s.draw draws
  | some uid => if uid ∈ s.tree then s.draw draws else some (s.take uid)

/-- `add`, less the assignment of `_p_uid`. The tree does not have the id, so its
`insert` succeeds. -/
def add (obj : α) (draws : List ℤ) (s : IdStore α) : Option (ℤ × IdStore α) :=
  (generateId draws s.ensureLength).map fun p =>
    (p.1, { p.2 with
      tree := p.2.tree.insert p.1 obj
      length := p.2.length.map (· + 1) })

/-- `remove` of an id, and `__delitem__`. -/
def remove (uid : ℤ) : Py (IdStore α) Unit := do
  Py.modify ensureLength
  let s ← Py.get
  if uid ∈ s.tree then
    Py.modify fun s => { s with
      tree := s.tree.erase uid
      length := s.length.map (· - 1) }
  else Py.raise .keyError

/-- `_v_nextid` is lost when the store is deactivated. -/
def deactivate (s : IdStore α) : IdStore α := { s with nextid := none }

/-! ## What the methods do

One lemma for each method, about the tree alone: a new id is free, and is the only key that comes;
a removed one is the only key that goes. What becomes of the counter and the length is asked
later. -/

theorem draw_spec {s s' : IdStore α} {draws : List ℤ} {uid : ℤ}
    (h : s.draw draws = some (uid, s')) : uid ∉ s.tree ∧ s'.tree = s.tree ∧ s'.length = s.length := by
  induction draws with
  | nil => cases h
  | cons x draws ih =>
    by_cases hx : x ∈ s.tree
    · rw [draw, if_pos hx] at h
      exact ih h
    · rw [draw, if_neg hx] at h
      obtain ⟨rfl, rfl⟩ := Prod.mk.inj (Option.some.inj h)
      exact ⟨hx, rfl, rfl⟩

/-- A generated id is free. -/
theorem generateId_spec {s s' : IdStore α} {draws : List ℤ} {uid : ℤ}
    (h : s.generateId draws = some (uid, s')) :
    uid ∉ s.tree ∧ s'.tree = s.tree ∧ s'.length = s.length := by
  rw [generateId] at h
  rcases hnext : s.nextid with _ | x <;> simp only [hnext] at h
  · exact draw_spec h
  · by_cases hx : x ∈ s.tree
    · rw [if_pos hx] at h
      exact draw_spec h
    · rw [if_neg hx] at h
      obtain ⟨rfl, rfl⟩ := Prod.mk.inj (Option.some.inj h)
      exact ⟨hx, rfl, rfl⟩

/-- What `add` does to the tree. -/
theorem add_spec {s s' : IdStore α} {obj : α} {draws : List ℤ} {uid : ℤ}
    (h : s.add obj draws = some (uid, s')) : uid ∉ s.tree ∧ s'.tree = s.tree.insert uid obj := by
  rw [add, Option.map_eq_some_iff] at h
  obtain ⟨⟨x, s₁⟩, hgen, heq⟩ := h
  obtain ⟨hfree, htree, -⟩ := generateId_spec hgen
  obtain ⟨rfl, rfl⟩ := Prod.mk.inj heq
  exact ⟨hfree, by rw [← show s.ensureLength.tree = s.tree from rfl, ← htree]⟩

/-- What `remove` does to the tree when it returns. -/
theorem remove_spec {s s' : IdStore α} {uid : ℤ} (h : remove uid s = (.ok (), s')) :
    uid ∈ s.tree ∧ s'.tree = s.tree.erase uid := by
  rw [remove, Py.modify_bind_apply, Py.get_bind_apply] at h
  by_cases hmem : uid ∈ s.tree
  · rw [if_pos (show uid ∈ s.ensureLength.tree from hmem)] at h
    obtain ⟨-, rfl⟩ := Prod.mk.inj h
    exact ⟨hmem, rfl⟩
  · rw [if_neg (show uid ∉ s.ensureLength.tree from hmem)] at h
    cases h

/-- Where an id is removed, and what is left otherwise. -/
theorem remove_cases (s : IdStore α) (uid : ℤ) :
    (uid ∈ s.tree ∧ remove uid s = (.ok (), { s.ensureLength with
      tree := s.tree.erase uid, length := s.ensureLength.length.map (· - 1) })) ∨
    ∃ e, remove uid s = (.error e, s.ensureLength) := by
  rw [remove, Py.modify_bind_apply, Py.get_bind_apply]
  by_cases hmem : uid ∈ s.tree
  · exact .inl ⟨hmem, congrFun (if_pos hmem) _⟩
  · exact .inr ⟨.keyError, congrFun (if_neg hmem) _⟩

/-- `__len__`. -/
def len : Py (IdStore α) ℤ := do
  Py.modify ensureLength
  let s ← Py.get
  Py.ofOption (.attributeError "length") s.length

/-! ## The counter and the length

Both may be missing, the counter because it is volatile and the length because old stores do not
have it. `Kept` says that they are right if they are there, and every method keeps it. -/

/-- What is kept: the next id is in range, and the length, if there is one, counts the
entries. -/
structure Kept (s : IdStore α) : Prop where
  /-- the volatile counter -/
  nextid : ∀ n, s.nextid = some n → 0 ≤ n ∧ n ≤ maxint
  /-- the stored length -/
  length : ∀ n, s.length = some n → n = s.tree.size

namespace Kept

variable {s s' : IdStore α} {draws : List ℤ} {uid : ℤ} {obj : α}

theorem init : (init : IdStore α).Kept where
  nextid n h := by cases h
  length n h := by
    obtain rfl := Option.some.inj h
    rfl

theorem ensureLength_length (h : s.Kept) : s.ensureLength.length = some (s.tree.size : ℤ) := by
  rw [ensureLength]
  rcases hl : s.length with _ | n
  · rfl
  · rw [Option.getD_some, h.length n hl]

theorem ensureLength (h : s.Kept) : s.ensureLength.Kept where
  nextid := h.nextid
  length n hn := by
    rw [h.ensureLength_length, Option.some.injEq] at hn
    exact hn.symm

theorem len (h : s.Kept) : len s = (.ok (s.tree.size : ℤ), s.ensureLength) := by
  rw [IdStore.len, Py.modify_bind_apply, Py.get_bind_apply, h.ensureLength_length]
  rfl

/-- The counter after an id that is in range. -/
theorem take (h0 : 0 ≤ uid) (n : ℤ) (hn : (s.take uid).2.nextid = some n) :
    0 ≤ n ∧ n ≤ maxint := by
  simp only [IdStore.take] at hn
  by_cases hmax : maxint < uid + 1
  · rw [if_pos hmax] at hn
    cases hn
  · rw [if_neg hmax] at hn
    obtain rfl := Option.some.inj hn
    omega

theorem draw (hdraws : ∀ x ∈ draws, 0 ≤ x ∧ x < maxint) (h : s.draw draws = some (uid, s')) :
    0 ≤ uid ∧ uid ≤ maxint ∧ ∀ n, s'.nextid = some n → 0 ≤ n ∧ n ≤ maxint := by
  induction draws with
  | nil => cases h
  | cons x draws ih =>
    by_cases hx : x ∈ s.tree
    · rw [IdStore.draw, if_pos hx] at h
      exact ih (fun y hy => hdraws y (List.mem_cons_of_mem _ hy)) h
    · rw [IdStore.draw, if_neg hx] at h
      obtain ⟨rfl, rfl⟩ := Prod.mk.inj (Option.some.inj h)
      obtain ⟨h0, h1⟩ := hdraws x List.mem_cons_self
      exact ⟨h0, h1.le, take h0⟩

/-- A generated id is in range, and so is the next one. -/
theorem generateId (hk : s.Kept) (hdraws : ∀ x ∈ draws, 0 ≤ x ∧ x < maxint)
    (h : s.generateId draws = some (uid, s')) :
    0 ≤ uid ∧ uid ≤ maxint ∧ ∀ n, s'.nextid = some n → 0 ≤ n ∧ n ≤ maxint := by
  rw [IdStore.generateId] at h
  rcases hnext : s.nextid with _ | x <;> simp only [hnext] at h
  · exact draw hdraws h
  · by_cases hx : x ∈ s.tree
    · rw [if_pos hx] at h
      exact draw hdraws h
    · rw [if_neg hx] at h
      obtain ⟨rfl, rfl⟩ := Prod.mk.inj (Option.some.inj h)
      obtain ⟨h0, h1⟩ := hk.nextid x hnext
      exact ⟨h0, h1, take h0⟩

/-- `add` gives an id in range, and counts the new entry. -/
theorem add (hk : s.Kept) (hdraws : ∀ x ∈ draws, 0 ≤ x ∧ x < maxint)
    (h : s.add obj draws = some (uid, s')) : 0 ≤ uid ∧ uid ≤ maxint ∧ s'.Kept := by
  obtain ⟨hfree, htree⟩ := add_spec h
  rw [IdStore.add, Option.map_eq_some_iff] at h
  obtain ⟨⟨x, s₁⟩, hgen, heq⟩ := h
  obtain ⟨-, -, hlen⟩ := generateId_spec hgen
  obtain ⟨h0, h1, hnext⟩ := hk.ensureLength.generateId hdraws hgen
  obtain ⟨rfl, rfl⟩ := Prod.mk.inj heq
  refine ⟨h0, h1, hnext, fun n hn => ?_⟩
  simp only [hlen, hk.ensureLength_length, Option.map_some, Option.some.injEq] at hn
  rw [htree, BTree.size_insert_new _ hfree, ← hn, Nat.cast_add, Nat.cast_one]

/-- The store after an entry is deleted. -/
theorem erase (hk : s.Kept) (hmem : uid ∈ s.tree) :
    ({ s.ensureLength with
      tree := s.tree.erase uid, length := s.ensureLength.length.map (· - 1) } : IdStore α).Kept where
  nextid := hk.nextid
  length n hn := by
    have hsize := BTree.size_erase_mem s.tree hmem
    simp only [hk.ensureLength_length, Option.map_some, Option.some.injEq] at hn
    rw [← hn]
    simp only [← hsize, Nat.cast_add, Nat.cast_one]
    omega

end Kept

/-! ## Histories

The attribute `_p_uid` is on the objects and the ids are in the store, and they get out of step:
`remove` of an id leaves the attribute. The state is therefore both, and an event may be any call,
or the loss of the volatile counter or of the length. -/

/-- What `random.randrange(0, family.maxint)` may give. -/
abbrev Draw : Type := {x : ℤ // 0 ≤ x ∧ x < maxint}

/-- A store, and the attribute `_p_uid` of every object: missing, `None`, or an id. -/
structure Objects (α : Type) where
  /-- the store -/
  store : IdStore α
  /-- the attribute -/
  uid : α → Option (Option ℤ)

namespace Objects

/-- What happens to a store. -/
inductive Event (α : Type) where
  /-- `add(obj)`, with what the random source gives -/
  | add : (obj : α) → List Draw → Event α
  /-- `remove(uid)` -/
  | removeUid : (uid : ℤ) → Event α
  /-- `remove(obj)` -/
  | removeObj : (obj : α) → Event α
  /-- `len(store)` -/
  | len : Event α
  /-- `_v_nextid` is lost -/
  | deactivate : Event α
  /-- the attribute `length` is lost -/
  | loseLength : Event α

/-- How it ends. -/
inductive Reply where
  /-- `add` returned an id -/
  | added : (uid : ℤ) → Reply
  /-- `add` still draws -/
  | drawing : Reply
  /-- `len` returned a number -/
  | counted : ℤ → Reply
  /-- `remove` returned, or nothing was called -/
  | done : Reply
  /-- an exception -/
  | raised : Exc → Reply

variable [DecidableEq α]

/-- `remove` of an object. The tree takes no `None` for a key. -/
def remove (obj : α) : Py (Objects α) Unit := do
  Py.modify fun w => { w with store := w.store.ensureLength }
  let w ← Py.get
  match w.uid obj with
  | some (some uid) =>
    if uid ∈ w.store.tree then
      Py.modify fun w => {
        store := { w.store with
          tree := w.store.tree.erase uid
          length := w.store.length.map (· - 1) }
        uid := Function.update w.uid obj (some none) }
    else Py.raise .keyError
  | some none => Py.raise .typeError
  | none => Py.raise .typeError

/-- The reply to a call. -/
def reply {β : Type} (f : β → Reply) : Except Exc β → Reply
  | .ok b => f b
  | .error e => .raised e

/-- The store as a machine. -/
def machine : Machine (Objects α) (Event α) Reply
  | w, .add obj draws =>
    match w.store.add obj (draws.map Subtype.val) with
    | none => (.drawing, { w with store := w.store.ensureLength })
    | some (uid, s) => (.added uid, ⟨s, Function.update w.uid obj (some (some uid))⟩)
  | w, .removeUid uid =>
    (reply (fun _ => .done) (w.store.remove uid).1, { w with store := (w.store.remove uid).2 })
  | w, .removeObj obj => (reply (fun _ => .done) (remove obj w).1, (remove obj w).2)
  | w, .len => (reply .counted w.store.len.1, { w with store := w.store.len.2 })
  | w, .deactivate => (.done, { w with store := w.store.deactivate })
  | w, .loseLength => (.done, { w with store := { w.store with length := none } })

/-- **A sound store**: what the next call may do. -/
structure Sound (w : Objects α) : Prop where
  /-- an id that `add` gives is in range and not in use, and no other entry changes -/
  fresh : ∀ obj draws uid, (machine w (.add obj draws)).1 = .added uid →
    0 ≤ uid ∧ uid ≤ maxint ∧ uid ∉ w.store.tree ∧
      (machine w (.add obj draws)).2.store.tree = w.store.tree.insert uid obj
  /-- the length is the number of entries -/
  counted : (machine w .len).1 = .counted w.store.tree.size
  /-- a call that raises leaves the entries and the length -/
  failed : ∀ event e, (machine w event).1 = .raised e →
    (machine w event).2.store.tree = w.store.tree ∧
      (machine (machine w event).2 .len).1 = (machine w .len).1

section Steps

variable {w : Objects α}

/-- The same for an object. -/
theorem remove_cases (obj : α) :
    (∃ uid, w.uid obj = some (some uid) ∧ uid ∈ w.store.tree ∧ remove obj w = (.ok (), {
      store := { w.store.ensureLength with
        tree := w.store.tree.erase uid, length := w.store.ensureLength.length.map (· - 1) }
      uid := Function.update w.uid obj (some none) })) ∨
    ∃ e, remove obj w = (.error e, { w with store := w.store.ensureLength }) := by
  rw [remove, Py.modify_bind_apply, Py.get_bind_apply]
  rcases hu : w.uid obj with _ | _ | uid
  · exact .inr ⟨_, rfl⟩
  · exact .inr ⟨_, rfl⟩
  · by_cases hmem : uid ∈ w.store.tree
    · refine .inl ⟨uid, rfl, hmem, ?_⟩
      exact congrFun (if_pos hmem) _
    · exact .inr ⟨.keyError, congrFun (if_neg hmem) _⟩

theorem draws_range (draws : List Draw) : ∀ x ∈ draws.map Subtype.val, 0 ≤ x ∧ x < maxint := by
  intro x hx
  obtain ⟨d, -, rfl⟩ := List.mem_map.mp hx
  exact d.property

/-- Every event keeps the counter in range and the length right. -/
theorem step (h : w.store.Kept) (event : Event α) : (machine w event).2.store.Kept := by
  cases event with
  | add obj draws =>
    rcases hadd : w.store.add obj (draws.map Subtype.val) with _ | ⟨uid, s⟩ <;>
      simp only [machine, hadd]
    · exact h.ensureLength
    · exact (h.add (draws_range draws) hadd).2.2
  | removeUid uid =>
    rcases IdStore.remove_cases w.store uid with ⟨hmem, hrun⟩ | ⟨e, hrun⟩ <;> simp only [machine, hrun]
    · exact h.erase hmem
    · exact h.ensureLength
  | removeObj obj =>
    rcases @remove_cases α _ w obj with ⟨uid, -, hmem, hrun⟩ | ⟨e, hrun⟩ <;>
      simp only [machine, hrun]
    · exact h.erase hmem
    · exact h.ensureLength
  | len =>
    simp only [machine, h.len]
    exact h.ensureLength
  | deactivate =>
    refine ⟨fun n hn => ?_, h.length⟩
    cases hn
  | loseLength =>
    refine ⟨h.nextid, fun n hn => ?_⟩
    cases hn

theorem counted (h : w.store.Kept) : (machine w .len).1 = .counted w.store.tree.size := by
  simp only [machine, h.len, reply]

/-- A call that raises has done no more than look for the length. -/
theorem machine_raised {event : Event α} {e : Exc} (h : w.store.Kept)
    (he : (machine w event).1 = .raised e) : (machine w event).2.store.tree = w.store.tree := by
  cases event with
  | add obj draws =>
    rcases hadd : w.store.add obj (draws.map Subtype.val) with _ | ⟨uid, s⟩ <;>
      simp only [machine, hadd] at he <;> cases he
  | removeUid uid =>
    rcases IdStore.remove_cases w.store uid with ⟨-, hrun⟩ | ⟨e', hrun⟩ <;>
      simp only [machine, hrun] at he ⊢
    · cases he
    · rfl
  | removeObj obj =>
    rcases @remove_cases α _ w obj with ⟨uid, -, -, hrun⟩ | ⟨e', hrun⟩ <;>
      simp only [machine, hrun] at he ⊢
    · cases he
    · rfl
  | len =>
    rw [counted h] at he
    cases he
  | deactivate => cases he
  | loseLength => cases he

theorem sound (h : w.store.Kept) : w.Sound where
  fresh obj draws uid huid := by
    rcases hadd : w.store.add obj (draws.map Subtype.val) with _ | ⟨uid', s⟩ <;>
      simp only [machine, hadd] at huid ⊢
    · cases huid
    · obtain rfl := Reply.added.inj huid
      obtain ⟨h0, h1, -⟩ := h.add (draws_range draws) hadd
      obtain ⟨hfree, htree⟩ := add_spec hadd
      exact ⟨h0, h1, hfree, htree⟩
  counted := counted h
  failed event e he := by
    have htree := machine_raised h he
    refine ⟨htree, ?_⟩
    rw [counted h, counted (step h event), htree]

end Steps

/-- **Object ids**: in every state of every history of a store, whatever the random source
gives and whenever the volatile counter or the length attribute is lost, every id that `add`
gives is in range and free and changes no other entry, the length counts the entries, and a
removal that raises leaves both. -/
theorem sound_states (uid : α → Option (Option ℤ)) (events : List (Event α)) :
    ∀ w ∈ machine.states ⟨IdStore.init, uid⟩ events, w.Sound := by
  intro w hw
  have hkept : w.store.Kept :=
    @Machine.states_inv _ _ _ machine (fun w : Objects α => w.store.Kept)
      (fun _ event h => step h event) ⟨IdStore.init, uid⟩ Kept.init events w hw
  exact sound hkept

/-- The id after the last one is `maxint`, the counter is lost and the id is freed and drawn
again, and an object that was removed by its id is removed again. -/
theorem sound_states_example :
    Sound (machine.final (⟨IdStore.init, fun _ => none⟩ : Objects Bool)
      [.add true [⟨maxint - 1, by decide⟩], .add false [], .loseLength, .removeUid (maxint - 1),
        .add false [⟨maxint - 1, by decide⟩], .removeObj true, .removeObj true]) :=
  sound_states _ _ _ (Machine.final_mem_states _ _ _)

end Objects

end IdStore

end Zerodb
