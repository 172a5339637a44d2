import Zerodb.Storage

/-!
# Owner storage: records tagged with their writer

`OwnerStorage(storage, user_id)` appends the user's id to every record it stores,
checks the last bytes of every record it reads, and strips them. The id is only a
suffix of opaque data, so nothing in a record says where the data ends: that the
suffix is the real writer is a property of histories.

A `Server` is a base storage with the list of stores that took effect. `Tagged`
is the invariant: the revisions of every object are exactly those stores, each
ending in its own writer. From it, `load_isolated` and `store_isolated`: a user
reads back exactly what was passed to the store of the revision, and reads or
overwrites only records that are theirs, their own root, or the shared root.
-/

namespace Zerodb

universe u

/-! ## The wrapper

Every method is a permission check and one call below it. The checks compare the last bytes of a
record with the user's id, and `stripOwner` takes off as many bytes as that id is long, whoever
wrote the record; both say something about the record only if what is below was stored by a
wrapper of this kind. `stripOwner_tag` and `tag_iff` are for that case: ids are of equal length,
so a tag is recognised exactly when it is the writer's. -/

/-- The message of a refused access. -/
def accessMessage (oid userId : Oid) : String :=
  "Attempt to access encrypted data of others at <" ++ toString (u64 oid) ++ "> by <" ++
    toString (u64 userId) ++ ">"

/-- The records a user may touch: their own, their own root folder, the root. -/
def Permitted (userId oid : Oid) (data : Bytes) : Prop :=
  userId.bytes <:+ data ∨ oid = userId ∨ oid = z64

instance (userId oid : Oid) (data : Bytes) : Decidable (Permitted userId oid data) :=
  inferInstanceAs (Decidable (_ ∨ _ ∨ _))

/-- `_check_permissions`. -/
def checkPermissions (userId : Oid) (data : Bytes) (oid : Oid) : Except Exc Unit :=
  if Permitted userId oid data then .ok () else .error (.storageError (accessMessage oid userId))

/-- `data[:-len(self.user_id)]`. -/
def stripOwner (userId : Oid) (data : Bytes) : Bytes := data.take (data.length - userId.bytes.length)

namespace OwnerStorage

variable {σ : Type u} (B : BaseStorage σ) (userId : Oid)

/-- `OwnerStorage.loadBefore`. -/
def loadBefore (s : σ) (oid : Oid) (tid : ℕ) : Except Exc (Option Record) :=
  match B.loadBefore s oid tid with
  | .error e => .error e
  | .ok none => .ok none
  | .ok (some (data, serial, after)) =>
    match checkPermissions userId data oid with
    | .error e => .error e
    | .ok () => .ok (some (stripOwner userId data, serial, after))

/-- `OwnerStorage.loadSerial`: its first line reads a name, `tid`, that is bound
nowhere. -/
def loadSerial (_s : σ) (_oid : Oid) (_serial : ℕ) : Except Exc Bytes :=
  .error (.nameError "tid")

/-- The permission check in front of `OwnerStorage.store`; `None[0]` is a
`TypeError`. -/
def checkStore (s : σ) (oid : Oid) : Except Exc Unit :=
  match B.loadBefore s oid maxtid with
  | .error .posKeyError => .ok ()
  | .error e => .error e
  | .ok none => .error .typeError
  | .ok (some (oldData, _, _)) => checkPermissions userId oldData oid

/-- `OwnerStorage.store`. -/
def store (s : σ) (oid : Oid) (serial : ℕ) (data : Bytes) : Except Exc (ℕ × σ) :=
  match checkStore B userId s oid with
  | .error e => .error e
  | .ok () => B.store s oid serial (data ++ userId.bytes)

/-- An `OwnerStorage` below another wrapper. -/
def lower : Lower σ := ⟨loadBefore B userId, store B userId⟩

end OwnerStorage

/-- A tag is recognised exactly when it is the writer's. -/
theorem suffix_tag_iff {userId writer : Oid} {data : Bytes} :
    userId.bytes <:+ data ++ writer.bytes ↔ writer = userId := by
  refine ⟨?_, ?_⟩
  · intro h
    have hlen : userId.bytes.length = writer.bytes.length := by
      rw [userId.length_eq, writer.length_eq]
    have hsuf : userId.bytes <:+ writer.bytes :=
      List.suffix_of_suffix_length_le h (List.suffix_append _ _) hlen.le
    exact Oid.ext (hsuf.eq_of_length hlen).symm
  · rintro rfl
    exact List.suffix_append _ _

/-- Whoever reads, stripping takes off exactly the writer's tag. -/
theorem stripOwner_tag (userId writer : Oid) (data : Bytes) :
    stripOwner userId (data ++ writer.bytes) = data := by
  have hlen : (data ++ writer.bytes).length - userId.bytes.length = data.length := by
    rw [List.length_append, userId.length_eq, writer.length_eq]
    omega
  rw [stripOwner, hlen, List.take_left]

/-! ## Histories of stores and loads

The claim is about every order of calls by users who share a base storage. The server of the model
also keeps the stores that took effect, which no method reads: `Tagged` ties the base storage to
them, and `Tagged.step` is all that an induction over histories needs. Each method is then asked
once what it does in a tagged server, and the answer names the writer of the revision and not its
last bytes. -/

/-- A store that took effect: the revision's serial, the object, the user, and the
data the user passed. -/
structure Stored where
  /-- the serial of the revision -/
  tid : ℕ
  /-- the object -/
  oid : Oid
  /-- the user who stored -/
  user : Oid
  /-- the data passed to the store -/
  data : Bytes

/-- The revision such a store leaves in the base storage. -/
def Stored.revision (w : Stored) : Revision := ⟨w.tid, w.data ++ w.user.bytes⟩

/-- A base storage and the stores that took effect on it, oldest first. -/
structure Server (σ : Type u) where
  /-- the state of the base storage -/
  base : σ
  /-- the history of effective stores -/
  log : List Stored

namespace Server

variable {σ : Type u}

/-- The stores that made the revisions of an object, oldest first. -/
def writes (sv : Server σ) (oid : Oid) : List Stored := sv.log.filter (·.oid = oid)

/-- The store that wrote a revision. -/
def writer (sv : Server σ) (oid : Oid) (serial : ℕ) : Option Stored :=
  (sv.writes oid).find? (·.tid = serial)

/-- The store that wrote the latest revision. -/
def lastWriter (sv : Server σ) (oid : Oid) : Option Stored := (sv.writes oid).getLast?

/-- A call by a user. -/
inductive Call where
  /-- `OwnerStorage(storage, user).store(oid, serial, data)` -/
  | store : (user oid : Oid) → (serial : ℕ) → (data : Bytes) → Call
  /-- `OwnerStorage(storage, user).loadBefore(oid, tid)` -/
  | loadBefore : (user oid : Oid) → (tid : ℕ) → Call

/-- What a call returns. -/
inductive Reply where
  /-- the outcome of a store: the new serial -/
  | stored : Except Exc ℕ → Reply
  /-- the outcome of a load -/
  | loaded : Except Exc (Option Record) → Reply

variable (B : BaseStorage σ)

/-- The server as a machine. An exception leaves the base storage as it is. -/
def machine : Machine (Server σ) Call Reply
  | sv, .store user oid serial data =>
    match OwnerStorage.store B user sv.base oid serial data with
    | .error e => (.stored (.error e), sv)
    | .ok (tid, base) => (.stored (.ok tid), ⟨base, sv.log ++ [⟨tid, oid, user, data⟩]⟩)
  | sv, .loadBefore user oid tid => (.loaded (OwnerStorage.loadBefore B user sv.base oid tid), sv)

/-- The empty server. -/
def init : Server σ := ⟨B.empty, []⟩

/-! ## The tagging invariant

A store that takes effect adds one revision to one object, tagged with its user, and one entry to
the record of stores. The serials increase, so that the store behind a revision can be found by
its serial. -/

/-- **The tagging invariant**: the revisions of an object are the stores that took
effect on it, each tagged with its writer, under increasing serials. -/
structure Tagged (sv : Server σ) : Prop where
  /-- revisions are tagged stores -/
  revisions_eq : ∀ oid, B.revisions sv.base oid = (sv.writes oid).map Stored.revision
  /-- serials increase -/
  ascending : ∀ oid, (sv.writes oid).Pairwise fun w w' => w.tid < w'.tid
  /-- serials are proper transaction ids -/
  bounded : ∀ w ∈ sv.log, w.tid < maxtid

variable {B}

theorem tagged_init : Tagged B (init B) where
  revisions_eq oid := by simp [init, writes, B.revisions_empty]
  ascending oid := by simp [init, writes]
  bounded w hw := by simp [init] at hw

theorem writes_append (sv : Server σ) (base : σ) (w : Stored) (oid : Oid) :
    (Server.mk base (sv.log ++ [w])).writes oid =
      if w.oid = oid then sv.writes oid ++ [w] else sv.writes oid := by
  by_cases ho : w.oid = oid <;> simp [writes, List.filter_append, ho]

/-- An effective store went through to the base storage. -/
theorem store_ok {user oid : Oid} {s s' : σ} {serial tid : ℕ} {data : Bytes}
    (h : OwnerStorage.store B user s oid serial data = .ok (tid, s')) :
    OwnerStorage.checkStore B user s oid = .ok () ∧
      B.store s oid serial (data ++ user.bytes) = .ok (tid, s') := by
  unfold OwnerStorage.store at h
  rcases hc : OwnerStorage.checkStore B user s oid with e | ⟨⟩ <;> rw [hc] at h
  · cases h
  · exact ⟨rfl, h⟩

/-- Every call keeps the tagging invariant. -/
theorem Tagged.step {sv : Server σ} (h : Tagged B sv) (c : Call) : Tagged B (machine B sv c).2 := by
  cases c with
  | loadBefore user oid tid => exact h
  | store user oid serial data =>
    rcases hst : OwnerStorage.store B user sv.base oid serial data with e | ⟨tid, base⟩ <;>
      simp only [machine, hst]
    · exact h
    · obtain ⟨-, hbase⟩ := store_ok hst
      obtain ⟨hmax, hnew, hrev, hframe⟩ := B.store_ok hbase
      refine ⟨fun o => ?_, fun o => ?_, fun w hw => ?_⟩
      · rw [writes_append]
        by_cases ho : oid = o
        · subst ho
          rw [hrev, if_pos rfl, List.map_append, h.revisions_eq]
          rfl
        · rw [hframe o (Ne.symm ho), if_neg ho, h.revisions_eq]
      · rw [writes_append]
        by_cases ho : oid = o
        · subst ho
          rw [if_pos rfl, List.pairwise_append]
          refine ⟨h.ascending oid, List.pairwise_singleton _ _, fun w hw w' hw' => ?_⟩
          obtain rfl := List.mem_singleton.mp hw'
          apply hnew w.revision
          rw [h.revisions_eq]
          exact List.mem_map_of_mem hw
        · rw [if_neg ho]
          exact h.ascending o
      · rcases List.mem_append.mp hw with hw | hw
        · exact h.bounded w hw
        · obtain rfl := List.mem_singleton.mp hw
          exact hmax

/-- In a list with increasing keys, an element is found by its key. -/
theorem find_of_ascending {α : Type*} {f : α → ℕ} {l : List α} {w : α}
    (h : l.Pairwise fun a b => f a < f b) (hw : w ∈ l) : l.find? (f · = f w) = some w := by
  induction l with
  | nil => cases hw
  | cons x l ih =>
    obtain ⟨hx, hl⟩ := List.pairwise_cons.mp h
    rcases List.mem_cons.mp hw with rfl | hw
    · simp
    · have hne : f x ≠ f w := (hx w hw).ne
      rw [List.find?_cons_of_neg (by simpa using hne)]
      exact ih hl hw

/-- The store behind a revision, found by its serial. -/
theorem Tagged.writer_of_revision {sv : Server σ} (h : Tagged B sv) {oid : Oid} {r : Revision}
    (hr : r ∈ B.revisions sv.base oid) :
    ∃ w, sv.writer oid r.tid = some w ∧ r.data = w.data ++ w.user.bytes := by
  rw [h.revisions_eq] at hr
  obtain ⟨w, hw, rfl⟩ := List.mem_map.mp hr
  exact ⟨w, find_of_ascending (h.ascending oid) hw, rfl⟩

/-- The record that decides a store is the latest one. -/
theorem Tagged.loadBefore_maxtid {sv : Server σ} (h : Tagged B sv) {oid : Oid} {w : Stored}
    (hw : sv.lastWriter oid = some w) :
    B.loadBefore sv.base oid maxtid = .ok (some (w.data ++ w.user.bytes, w.tid, none)) := by
  obtain ⟨ws, hws⟩ := List.getLast?_eq_some_iff.mp hw
  rw [B.loadBefore_eq, h.revisions_eq, hws, List.map_append]
  refine loadRevision_maxtid fun r hr => ?_
  have hr' : r ∈ (sv.writes oid).map Stored.revision := by
    rw [hws, List.map_append]
    exact hr
  obtain ⟨w', hw', rfl⟩ := List.mem_map.mp hr'
  exact h.bounded w' (List.mem_of_mem_filter hw')

/-- An object with a revision has a last writer. -/
theorem Tagged.lastWriter_of_revisions {sv : Server σ} (h : Tagged B sv) {oid : Oid}
    (hne : B.revisions sv.base oid ≠ []) : ∃ w, sv.lastWriter oid = some w := by
  rw [h.revisions_eq] at hne
  have hws : sv.writes oid ≠ [] := fun h0 => hne (by rw [h0, List.map_nil])
  exact ⟨_, List.getLast?_eq_some_getLast hws⟩

/-! ## What a tagged server answers

The answers of the wrapper, with last bytes replaced by writers. -/

/-- Who may touch a record, in terms of its writer. -/
theorem permitted_tag_iff {user oid : Oid} {w : Stored} :
    Permitted user oid (w.data ++ w.user.bytes) ↔ w.user = user ∨ oid = user ∨ oid = z64 := by
  rw [Permitted, suffix_tag_iff]

/-- A load gives back the stored bytes, and only to those permitted. -/
theorem Tagged.load_isolated {sv : Server σ} (h : Tagged B sv) {user oid : Oid} {tid serial : ℕ}
    {data : Bytes} {after : Option ℕ}
    (hl : OwnerStorage.loadBefore B user sv.base oid tid = .ok (some (data, serial, after))) :
    ∃ w, sv.writer oid serial = some w ∧ data = w.data ∧
      (w.user = user ∨ oid = user ∨ oid = z64) := by
  unfold OwnerStorage.loadBefore at hl
  rcases hb : B.loadBefore sv.base oid tid with e | _ | ⟨raw, serial', after'⟩ <;>
    simp only [hb] at hl
  · cases hl
  · cases hl
  · by_cases hp : Permitted user oid raw
    · rw [checkPermissions, if_pos hp] at hl
      simp only [Except.ok.injEq, Option.some.injEq, Prod.mk.injEq] at hl
      obtain ⟨rfl, rfl, -⟩ := hl
      rw [B.loadBefore_eq] at hb
      obtain ⟨w, hw, hdata⟩ := h.writer_of_revision (loadRevision_some hb).1
      obtain rfl : raw = w.data ++ w.user.bytes := hdata
      exact ⟨w, hw, stripOwner_tag _ _ _, permitted_tag_iff.mp hp⟩
    · rw [checkPermissions, if_neg hp] at hl
      cases hl

/-- A store over someone else's record is refused. -/
theorem Tagged.store_refused {sv : Server σ} (h : Tagged B sv) {user oid : Oid} {w : Stored}
    (hw : sv.lastWriter oid = some w) (hn : ¬(w.user = user ∨ oid = user ∨ oid = z64))
    (serial : ℕ) (data : Bytes) :
    machine B sv (.store user oid serial data) =
      (.stored (.error (.storageError (accessMessage oid user))), sv) := by
  have hcheck : OwnerStorage.checkStore B user sv.base oid =
      .error (.storageError (accessMessage oid user)) := by
    rw [OwnerStorage.checkStore, h.loadBefore_maxtid hw]
    exact if_neg (permitted_tag_iff.not.mpr hn)
  simp [machine, OwnerStorage.store, hcheck]

/-- **Record isolation**, at every state of every history: a load by a user returns
the very bytes passed to the store of that revision, and only if the user wrote it
or the object is their root or the shared root; a store over a record of which
neither holds raises `StorageError` and changes nothing. -/
theorem isolation (calls : List Call) :
    ∀ sv ∈ (machine B).states (init B) calls,
      (∀ user oid tid data serial after,
        (machine B sv (.loadBefore user oid tid)).1 = .loaded (.ok (some (data, serial, after))) →
          ∃ w, sv.writer oid serial = some w ∧ data = w.data ∧
            (w.user = user ∨ oid = user ∨ oid = z64)) ∧
      (∀ user oid serial data, B.revisions sv.base oid ≠ [] →
        ∃ w, sv.lastWriter oid = some w ∧
          (¬(w.user = user ∨ oid = user ∨ oid = z64) →
            machine B sv (.store user oid serial data) =
              (.stored (.error (.storageError (accessMessage oid user))), sv))) := by
  intro sv hsv
  have h : Tagged B sv := Machine.states_inv (fun _ c hs => hs.step c) tagged_init calls sv hsv
  refine ⟨fun user oid tid data serial after hl => ?_, fun user oid serial data hne => ?_⟩
  · simp only [machine, Reply.loaded.injEq] at hl
    exact h.load_isolated hl
  · obtain ⟨w, hw⟩ := h.lastWriter_of_revisions hne
    exact ⟨w, hw, fun hn => h.store_refused hw hn serial data⟩

/-- User 5 stores a record whose last bytes spell user 6's id; user 6 may still not
overwrite it. -/
theorem isolation_example :
    let B := MemoryStorage.base
    let sv := (machine B).final (init B) [.store (p64 5) (p64 9) 0 (p64 6).bytes]
    machine B sv (.store (p64 6) (p64 9) 1 []) =
      (.stored (.error (.storageError (accessMessage (p64 9) (p64 6)))), sv) := by
  intro B sv
  have hsv : sv ∈ (machine B).states (init B) [.store (p64 5) (p64 9) 0 (p64 6).bytes] :=
    Machine.final_mem_states _ _ _
  obtain ⟨w, hw, hrefused⟩ := (isolation _ sv hsv).2 (p64 6) (p64 9) 1 [] (by decide)
  obtain rfl : (⟨1, p64 9, p64 5, (p64 6).bytes⟩ : Stored) = w := by
    have hlast : sv.lastWriter (p64 9) = some ⟨1, p64 9, p64 5, (p64 6).bytes⟩ := by rfl
    exact Option.some.inj (hlast.symm.trans hw)
  exact hrefused (by decide)

/-! ## The two loads

`loadBefore` and `loadSerial` should answer alike about the same revision. `Tagged` gives what
`loadBefore` answers between a revision and the next one; `loadSerial` raises before it reads
anything, so that they agree about no revision of any history. -/

/-- What it means that a load by serial agrees with a load before a transaction id:
the same data, refused together. -/
structure SameLoad (before : Except Exc (Option Record)) (serial : Except Exc Bytes) : Prop where
  /-- the data of one is the data of the other -/
  data : ∀ {d tid after}, before = .ok (some (d, tid, after)) → serial = .ok d
  /-- `StorageError` comes from both or from neither -/
  refused : (∃ m, serial = .error (.storageError m)) ↔ ∃ m, before = .error (.storageError m)

/-- The revisions of an object have increasing serials. -/
theorem Tagged.revisions_ascending {sv : Server σ} (h : Tagged B sv) (oid : Oid) :
    (B.revisions sv.base oid).Pairwise fun r r' => r.tid < r'.tid := by
  rw [h.revisions_eq]
  exact List.Pairwise.map _ (fun _ _ hlt => hlt) (h.ascending oid)

/-- A load between a revision and the next one gives the stripped revision to those
permitted, and refuses the others. -/
theorem Tagged.loadBefore_until {sv : Server σ} (h : Tagged B sv) (user : Oid) {oid : Oid}
    {r : Revision} (hr : r ∈ B.revisions sv.base oid) {t : ℕ}
    (ht : r.Until (B.revisions sv.base oid) t) :
    (∃ after, OwnerStorage.loadBefore B user sv.base oid t =
        .ok (some (stripOwner user r.data, r.tid, after))) ∨
      OwnerStorage.loadBefore B user sv.base oid t =
        .error (.storageError (accessMessage oid user)) := by
  obtain ⟨after, hload⟩ := ht.loadRevision (h.revisions_ascending oid) hr
  simp only [OwnerStorage.loadBefore, B.loadBefore_eq, hload]
  by_cases hp : Permitted user oid r.data
  · rw [checkPermissions, if_pos hp]
    exact .inl ⟨after, rfl⟩
  · rw [checkPermissions, if_neg hp]
    exact .inr rfl

/-- **The two loads never agree**: in every history, for every user and every revision,
`loadSerial` answers neither with the data nor with the refusal of `loadBefore` at any
transaction id between the revision and the next one; there is always such an id. -/
theorem loadSerial_never (calls : List Call) :
    ∀ sv ∈ (machine B).states (init B) calls, ∀ user oid, ∀ r ∈ B.revisions sv.base oid,
      (∃ t, r.Until (B.revisions sv.base oid) t) ∧
      ∀ t, r.Until (B.revisions sv.base oid) t →
        ¬SameLoad (OwnerStorage.loadBefore B user sv.base oid t)
          (OwnerStorage.loadSerial sv.base oid r.tid) := by
  intro sv hsv user oid r hr
  have h : Tagged B sv := Machine.states_inv (fun _ c hs => hs.step c) tagged_init calls sv hsv
  refine ⟨⟨_, r.until_succ _⟩, fun t ht hsame => ?_⟩
  rcases h.loadBefore_until user hr ht with ⟨after, hload⟩ | hload
  · have hdata := hsame.data hload
    cases hdata
  · obtain ⟨m, hm⟩ := hsame.refused.mpr ⟨_, hload⟩
    cases hm

/-- The user's own record: loaded before the next revision, but not by its serial. -/
theorem loadSerial_never_example :
    let B := MemoryStorage.base
    let sv := (machine B).final (init B) [.store (p64 5) (p64 9) 0 [1, 2]]
    ¬SameLoad (OwnerStorage.loadBefore B (p64 5) sv.base (p64 9) 2)
      (OwnerStorage.loadSerial sv.base (p64 9) 1) := by
  intro B sv
  have hsv : sv ∈ (machine B).states (init B) [.store (p64 5) (p64 9) 0 [1, 2]] :=
    Machine.final_mem_states _ _ _
  have hrevs : B.revisions sv.base (p64 9) = [⟨1, [1, 2] ++ (p64 5).bytes⟩] := by rfl
  have hr : ⟨1, [1, 2] ++ (p64 5).bytes⟩ ∈ B.revisions sv.base (p64 9) := by
    rw [hrevs]
    exact List.mem_singleton_self _
  exact (loadSerial_never _ sv hsv (p64 5) (p64 9) _ hr).2 2 (Revision.until_succ _ _)

/-- A user's own record comes back from `loadBefore` and raises `NameError` in
`loadSerial`. -/
theorem loadSerial_unbound :
    let B := MemoryStorage.base
    let sv := (machine B).final (init B) [.store (p64 5) (p64 9) 0 [1, 2]]
    B.revisions sv.base (p64 9) = [⟨1, [1, 2] ++ (p64 5).bytes⟩] ∧
      OwnerStorage.loadBefore B (p64 5) sv.base (p64 9) 2 = .ok (some ([1, 2], 1, none)) ∧
      OwnerStorage.loadSerial sv.base (p64 9) 1 = .error (.nameError "tid") ∧
      ¬SameLoad (OwnerStorage.loadBefore B (p64 5) sv.base (p64 9) 2)
        (OwnerStorage.loadSerial sv.base (p64 9) 1) := by
  intro B sv
  have hload : OwnerStorage.loadBefore B (p64 5) sv.base (p64 9) 2 =
      .ok (some ([1, 2], 1, none)) := by rfl
  refine ⟨rfl, hload, rfl, fun hsame => ?_⟩
  have hdata := hsame.data hload
  cases hdata

end Server

end Zerodb
