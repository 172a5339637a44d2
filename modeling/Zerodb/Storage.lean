import Zerodb.Trees

/-!
# Storage: exceptions, object ids, and the base storage contract

The storages under the wrappers are third-party, so they enter as a contract:
`BaseStorage σ` bundles the operations on a state type `σ` with the documented
laws of a versioned storage — every object has a list of revisions, `loadBefore`
reads the latest one before a transaction id, a store appends one under a new,
larger transaction id. `MemoryStorage` is an instance.
-/

namespace Zerodb

universe u

/-- A Python `str`. -/
abbrev Str : Type := List Char

instance : LawfulBEq Str := inferInstance

/-- The Python exceptions the program raises or meets. -/
inductive Exc where
  /-- missing key -/
  | keyError : Exc
  /-- wrong type of argument -/
  | typeError : Exc
  /-- wrong value of argument -/
  | valueError : String → Exc
  /-- missing attribute -/
  | attributeError : String → Exc
  /-- division by zero -/
  | zeroDivisionError : Exc
  /-- unbound name -/
  | nameError : String → Exc
  /-- exhausted iterator -/
  | stopIteration : Exc
  /-- `ZODB.POSException.POSKeyError` -/
  | posKeyError : Exc
  /-- `ZODB.POSException.ConflictError` -/
  | conflictError : Exc
  /-- `ZODB.POSException.StorageError` -/
  | storageError : String → Exc
  /-- `ZEO.Exceptions.AuthError` -/
  | authError : Exc
  /-- `ssl.SSLError` -/
  | sslError : Exc
  /-- `zerodb.models.exceptions.ModelException` -/
  | modelException : String → Exc
  /-- `collective.indexing.queue.InvalidQueueOperation` -/
  | invalidQueueOperation : ℤ → Exc
  /-- `zope.component.ComponentLookupError` -/
  | componentLookupError : Exc
  /-- bytes that are no text -/
  | unicodeDecodeError : Exc
  /-- `zerodb.crypto.exceptions.WrongKeyError` -/
  | wrongKeyError : String → Exc
  /-- failed `assert` -/
  | assertionError : Exc
  /-- index out of range -/
  | indexError : Exc
  deriving DecidableEq, Repr

/-! ## Object ids

Ids are eight bytes, and equal exactly when the numbers are that `p64` and `u64` turn into them
and back. -/

/-- A byte string. -/
abbrev Bytes : Type := List UInt8

/-- An object id: eight bytes. User ids are object ids too. -/
@[ext] structure Oid where
  /-- the bytes, most significant first -/
  bytes : Bytes
  /-- there are eight of them -/
  length_eq : bytes.length = 8
  deriving DecidableEq

namespace Oid

instance : Ord Oid := ⟨compareOn Oid.bytes⟩

instance : Std.TransOrd Oid := inferInstanceAs (Std.TransCmp (compareOn Oid.bytes))

instance : Std.LawfulEqOrd Oid where
  eq_of_compare h := Oid.ext (Std.LawfulEqOrd.eq_of_compare h)

end Oid

/-- `ZODB.utils.u64`. -/
def u64 (oid : Oid) : ℕ := oid.bytes.foldl (fun n b => 256 * n + b.toNat) 0

/-- `ZODB.utils.p64`, on integers below `2 ^ 64`. -/
def p64 (n : ℕ) : Oid :=
  ⟨(List.range 8).map fun i => UInt8.ofNat (n / 256 ^ (7 - i)), by simp⟩

/-- `ZODB.utils.z64`: the id of the root object. -/
def z64 : Oid := p64 0

/-! ## The base storage

The contract says how the operations act on the list of revisions of an object, and nothing else
about the states. `loadRevision` is what `loadBefore` does with such a list; its lemmas are all
that the wrappers need about reading. -/

/-- `ZODB.utils.maxtid`; transaction ids are read as numbers. -/
def maxtid : ℕ := 2 ^ 63 - 1

/-- A committed revision of an object. -/
structure Revision where
  /-- the transaction that wrote it -/
  tid : ℕ
  /-- its data record -/
  data : Bytes
  deriving DecidableEq

/-- What `loadBefore` returns when there is a revision: data, serial, end tid. -/
abbrev Record : Type := Bytes × ℕ × Option ℕ

/-- The contract of `loadBefore` on the revisions of one object, oldest first. -/
def loadRevision (revs : List Revision) (tid : ℕ) : Except Exc (Option Record) :=
  if revs.isEmpty then .error .posKeyError
  else
    match (revs.filter (·.tid < tid)).getLast? with
    | none => .ok none
    | some r => .ok (some (r.data, r.tid, (revs.find? (tid ≤ ·.tid)).map (·.tid)))

/-- A versioned storage with states in `σ`: operations and documented laws. A
store is one transaction; it returns the new revision's serial. -/
structure BaseStorage (σ : Type u) where
  /-- the empty storage -/
  empty : σ
  /-- the revisions of an object, oldest first -/
  revisions : σ → Oid → List Revision
  /-- the latest revision before a transaction id -/
  loadBefore : σ → Oid → ℕ → Except Exc (Option Record)
  /-- the revision written by a transaction -/
  loadSerial : σ → Oid → ℕ → Except Exc Bytes
  /-- write a revision, given the serial it is based on -/
  store : σ → Oid → ℕ → Bytes → Except Exc (ℕ × σ)
  /-- the empty storage has no objects -/
  revisions_empty : ∀ oid, revisions empty oid = []
  /-- `loadBefore` reads the revisions -/
  loadBefore_eq : ∀ s oid tid, loadBefore s oid tid = loadRevision (revisions s oid) tid
  /-- `loadSerial` reads the revisions -/
  loadSerial_eq : ∀ s oid tid, loadSerial s oid tid =
    match (revisions s oid).find? (·.tid = tid) with
    | none => .error .posKeyError
    | some r => .ok r.data
  /-- a store appends a revision under a fresh, larger transaction id -/
  store_ok : ∀ {s oid serial data tid s'}, store s oid serial data = .ok (tid, s') →
    tid < maxtid ∧ (∀ r ∈ revisions s oid, r.tid < tid) ∧
    revisions s' oid = revisions s oid ++ [⟨tid, data⟩] ∧
    ∀ oid', oid' ≠ oid → revisions s' oid' = revisions s oid'

/-- The revision found in an ascending list is one of them, before `tid`. -/
theorem loadRevision_some {revs : List Revision} {tid : ℕ} {data : Bytes} {serial : ℕ}
    {after : Option ℕ} (h : loadRevision revs tid = .ok (some (data, serial, after))) :
    ⟨serial, data⟩ ∈ revs ∧ serial < tid := by
  unfold loadRevision at h
  split at h
  · cases h
  · rcases hl : (revs.filter (·.tid < tid)).getLast? with _ | r
    · rw [hl] at h
      cases h
    · rw [hl] at h
      simp only [Except.ok.injEq, Option.some.injEq, Prod.mk.injEq] at h
      obtain ⟨rfl, rfl, -⟩ := h
      simpa using List.mem_of_getLast? hl

/-- Before `maxtid` lies the last revision. -/
theorem loadRevision_maxtid {revs : List Revision} {r : Revision}
    (hlt : ∀ x ∈ revs ++ [r], x.tid < maxtid) :
    loadRevision (revs ++ [r]) maxtid = .ok (some (r.data, r.tid, none)) := by
  have hfilter : (revs ++ [r]).filter (·.tid < maxtid) = revs ++ [r] :=
    List.filter_eq_self.mpr fun x hx => by simpa using hlt x hx
  have hfind : (revs ++ [r]).find? (maxtid ≤ ·.tid) = none :=
    List.find?_eq_none.mpr fun x hx => by simpa using hlt x hx
  simp [loadRevision, hfilter, hfind]

/-- `loadBefore` on revisions that come from other things. -/
theorem loadRevision_map {α : Type} (f : α → Revision) (l : List α) (tid : ℕ) :
    loadRevision (l.map f) tid =
      if l.isEmpty then .error .posKeyError
      else
        match (l.filter fun a => (f a).tid < tid).getLast? with
        | none => .ok none
        | some a => .ok (some ((f a).data, (f a).tid,
            (l.find? fun a => tid ≤ (f a).tid).map fun a => (f a).tid)) := by
  rw [loadRevision, List.isEmpty_map, List.filter_map, List.getLast?_map, List.find?_map]
  simp only [Function.comp_def, Option.map_map]
  rcases (l.filter fun a => (f a).tid < tid).getLast? with _ | a <;> rfl

/-- `t` lies after a revision and not after the next one. -/
structure Revision.Until (r : Revision) (revs : List Revision) (t : ℕ) : Prop where
  /-- after the revision -/
  after : r.tid < t
  /-- not after a later one -/
  next : ∀ r' ∈ revs, r.tid < r'.tid → t ≤ r'.tid

/-- Right behind a revision there is no other. -/
theorem Revision.until_succ (r : Revision) (revs : List Revision) : r.Until revs (r.tid + 1) :=
  ⟨Nat.lt_succ_self _, fun _ _ hlt => hlt⟩

/-- Between a revision and the next one, the revision is what is found. -/
theorem Revision.Until.loadRevision {r : Revision} {revs : List Revision} {t : ℕ}
    (h : r.Until revs t) (hasc : revs.Pairwise fun a b => a.tid < b.tid) (hr : r ∈ revs) :
    ∃ after, Zerodb.loadRevision revs t = .ok (some (r.data, r.tid, after)) := by
  obtain ⟨older, newer, rfl⟩ := List.append_of_mem hr
  obtain ⟨-, hcons, hcross⟩ := List.pairwise_append.mp hasc
  obtain ⟨hhead, -⟩ := List.pairwise_cons.mp hcons
  have holder : older.filter (·.tid < t) = older := by
    refine List.filter_eq_self.mpr fun x hx => ?_
    have := hcross x hx r (List.mem_cons_self ..)
    have := h.after
    exact decide_eq_true (by omega)
  have hnewer : newer.filter (·.tid < t) = [] := by
    refine List.filter_eq_nil_iff.mpr fun x hx => ?_
    have := h.next x (List.mem_append_right _ (List.mem_cons_of_mem _ hx)) (hhead x hx)
    simpa using this
  have hfilter : (older ++ r :: newer).filter (·.tid < t) = older ++ [r] := by
    rw [List.filter_append, holder, List.filter_cons, if_pos (decide_eq_true h.after), hnewer]
  have hne : ¬(older ++ r :: newer).isEmpty = true := by simp
  refine ⟨((older ++ r :: newer).find? (t ≤ ·.tid)).map (·.tid), ?_⟩
  rw [Zerodb.loadRevision, if_neg hne, hfilter, List.getLast?_concat]

namespace BaseStorage

variable {σ : Type u} (B : BaseStorage σ) {s s' : σ} {oid oid' : Oid} {serial tid : ℕ} {data : Bytes}

/-- A store leaves other objects alone. -/
theorem loadBefore_store_ne (h : B.store s oid serial data = .ok (tid, s')) (hoid : oid' ≠ oid)
    (t : ℕ) : B.loadBefore s' oid' t = B.loadBefore s oid' t := by
  obtain ⟨-, -, -, hother⟩ := B.store_ok h
  rw [B.loadBefore_eq, B.loadBefore_eq, hother oid' hoid]

/-- What is stored is the last revision. -/
theorem loadBefore_store (h : B.store s oid serial data = .ok (tid, s')) :
    B.loadBefore s' oid maxtid = .ok (some (data, tid, none)) := by
  obtain ⟨htid, holder, hrevs, -⟩ := B.store_ok h
  rw [B.loadBefore_eq, hrevs]
  refine loadRevision_maxtid fun x hx => ?_
  rcases List.mem_append.mp hx with hx | hx
  · exact (holder x hx).trans htid
  · obtain rfl := List.mem_singleton.mp hx
    exact htid

end BaseStorage

/-- What a wrapper uses of the storage below it. -/
structure Lower (σ : Type u) where
  /-- `loadBefore` -/
  loadBefore : σ → Oid → ℕ → Except Exc (Option Record)
  /-- `store`, with the serial of the new revision -/
  store : σ → Oid → ℕ → Bytes → Except Exc (ℕ × σ)

/-- The base storage itself. -/
def BaseStorage.lower {σ : Type u} (B : BaseStorage σ) : Lower σ := ⟨B.loadBefore, B.store⟩

/-! ## A storage in memory

An instance, for the examples, and to show that the laws are consistent. -/

/-- All revisions, under transaction ids counted up from zero. -/
structure MemoryStorage where
  /-- the last transaction id given out -/
  last : ℕ
  /-- object to revisions, oldest first -/
  data : BTree Oid (List Revision)
  /-- no revision is newer than `last` -/
  le_last : ∀ (oid : Oid) (r : Revision), r ∈ data[oid]?.getD [] → r.tid ≤ last

namespace MemoryStorage

/-- The serial a client must present to overwrite an object. -/
def serial (revs : List Revision) : ℕ := (revs.getLast?.map (·.tid)).getD 0

/-- One more revision of an object. -/
def append (s : MemoryStorage) (oid : Oid) (data : Bytes) : MemoryStorage where
  last := s.last + 1
  data := s.data.insert oid (s.data[oid]?.getD [] ++ [⟨s.last + 1, data⟩])
  le_last oid' r hr := by
    rw [BTree.get_insert] at hr
    by_cases ho : oid = oid'
    · subst ho
      rw [if_pos rfl, Option.getD_some] at hr
      rcases List.mem_append.mp hr with hr | hr
      · have := s.le_last _ _ hr
        omega
      · obtain rfl := List.mem_singleton.mp hr
        exact le_refl _
    · rw [if_neg ho] at hr
      have := s.le_last _ _ hr
      omega

/-- Store unless the serial is stale or the transaction ids are used up. -/
def store (s : MemoryStorage) (oid : Oid) (serial : ℕ) (data : Bytes) :
    Except Exc (ℕ × MemoryStorage) :=
  if serial ≠ MemoryStorage.serial (s.data[oid]?.getD []) then .error .conflictError
  else if maxtid ≤ s.last + 1 then .error (.storageError "")
  else .ok (s.last + 1, s.append oid data)

/-- The storage in memory meets the contract. -/
def base : BaseStorage MemoryStorage where
  empty := ⟨0, ∅, by simp⟩
  revisions s oid := s.data[oid]?.getD []
  loadBefore s oid tid := loadRevision (s.data[oid]?.getD []) tid
  loadSerial s oid tid :=
    match (s.data[oid]?.getD []).find? (·.tid = tid) with
    | none => .error .posKeyError
    | some r => .ok r.data
  store := store
  revisions_empty oid := by simp
  loadBefore_eq _ _ _ := rfl
  loadSerial_eq _ _ _ := rfl
  store_ok {s oid serial data tid s'} h := by
    unfold store at h
    split at h
    · cases h
    · split at h
      · cases h
      · simp only [Except.ok.injEq, Prod.mk.injEq] at h
        obtain ⟨rfl, rfl⟩ := h
        refine ⟨by omega, fun r hr => ?_, ?_, fun oid' ho => ?_⟩
        · have := s.le_last _ _ hr
          omega
        · simp [append]
        · simp only [append, BTree.get_insert_ne _ (Ne.symm ho)]

end MemoryStorage

end Zerodb
