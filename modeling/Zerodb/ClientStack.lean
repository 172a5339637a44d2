import Zerodb.Transforming
import Zerodb.OwnerStorage
import Zerodb.Run

/-!
# Client stack: a versioned store of plain records

What a user stores goes through `TransformingStorage`, which encodes it, and then through
`OwnerStorage`, which tags it, to the base storage. A load goes the same way back.

Seen from above this is a versioned record store like the base storage, on plain records
(`Represents`), with one difference: `TransformingStorage.loadBefore` unpacks what the
storage below gives, so that it raises a `TypeError` where the object has no revision
before the transaction id (`loadBefore_iff`).
-/

namespace Zerodb

namespace ClientStack

variable {σ : Type} (B : BaseStorage σ) (C : Ciphers) (U : Utilities) (userId rootOid : Oid)

/-! ## The stack

The wrappers are given the storage below them, so that the stack is one inside the other, and its
store is made of two. -/

/-- `loadBefore` of the whole stack. -/
def loadBefore (s : σ) (oid : Oid) (tid : ℕ) : Except Exc Record :=
  TransformingStorage.loadBefore (OwnerStorage.lower B userId) C U s oid tid

/-- `store` of the whole stack. -/
def store (s : σ) (oid : Oid) (serial : ℕ) (rand : Rand) (data : Bytes) : Except Exc (ℕ × σ) :=
  TransformingStorage.store (OwnerStorage.lower B userId) C U rootOid s oid serial rand data

/-- A call of `store`. -/
structure Call where
  /-- the object -/
  oid : Oid
  /-- the serial it is based on -/
  serial : ℕ
  /-- the random bytes of the call -/
  rand : Rand
  /-- the data -/
  data : Bytes

/-- The base storage, and the plain records that were committed. -/
structure State (σ : Type) where
  /-- the base storage -/
  base : σ
  /-- object, serial and data of the committed stores, oldest first -/
  committed : List (Oid × Revision)

/-- The plain revisions of an object, oldest first. -/
def State.plain (s : State σ) (oid : Oid) : List Revision :=
  (s.committed.filter (·.1 = oid)).map Prod.snd

/-- One store; it is committed unless it raises. -/
def step : Machine (State σ) Call (Except Exc ℕ) := fun s c =>
  match store B C U userId rootOid s.base c.oid c.serial c.rand c.data with
  | .error e => (.error e, s)
  | .ok (tid, base) => (.ok tid, ⟨base, s.committed ++ [(c.oid, ⟨tid, c.data⟩)]⟩)

/-! ## What the stack represents

The revisions below are the plain ones, each tagged with the user and encoded. Decoding gives a
plain record back exactly if it cannot be taken for something else, which is therefore the
condition for the stack to behave on it. -/

/-- The user can read this revision of the object, as this data. -/
def Opens (oid : Oid) (r : Revision) (data : Bytes) : Prop :=
  Permitted userId oid r.data ∧ U.untransform C (stripOwner userId r.data) = .ok data

/-- The base storage has the plain revisions, encoded for the user. -/
def Represents (s : State σ) : Prop :=
  ∀ oid, ∃ opened : List (Revision × Bytes), B.revisions s.base oid = opened.map Prod.fst ∧
    s.plain oid = opened.map (fun p => ⟨p.1.tid, p.2⟩) ∧ ∀ p ∈ opened, Opens C U userId oid p.1 p.2

variable {B C U userId rootOid}

theorem Represents.step {s : State σ} (h : Represents B C U userId s) (c : Call)
    (hround : ∀ rand noCipherName,
      U.untransform C (U.transform C rand noCipherName c.data) = .ok c.data) :
    Represents B C U userId (step B C U userId rootOid s c).2 := by
  rw [ClientStack.step]
  rcases hstore : store B C U userId rootOid s.base c.oid c.serial c.rand c.data
    with e | ⟨tid, base⟩
  · exact h
  · obtain ⟨x, hx, hbase⟩ : ∃ x, U.untransform C x = .ok c.data ∧
        B.store s.base c.oid c.serial (x ++ userId.bytes) = .ok (tid, base) := by
      rw [store, TransformingStorage.store, OwnerStorage.lower] at hstore
      dsimp only at hstore
      rw [OwnerStorage.store] at hstore
      split at hstore
      · cases hstore
      · exact ⟨_, hround _ _, hstore⟩
    obtain ⟨-, -, hrevs, hother⟩ := B.store_ok hbase
    intro oid
    obtain ⟨opened, hopened, hplain, hall⟩ := h oid
    by_cases hoid : c.oid = oid
    · subst hoid
      refine ⟨opened ++ [(⟨tid, x ++ userId.bytes⟩, c.data)], ?_, ?_, fun p hp => ?_⟩
      · rw [List.map_append, ← hopened]
        exact hrevs
      · rw [List.map_append, ← hplain]
        simp [State.plain]
      · rcases List.mem_append.mp hp with hp | hp
        · exact hall p hp
        · obtain rfl := List.mem_singleton.mp hp
          refine ⟨.inl (List.suffix_append _ _), ?_⟩
          dsimp only
          rw [stripOwner_tag, hx]
    · refine ⟨opened, (hother oid (Ne.symm hoid)).trans hopened, ?_, hall⟩
      rw [← hplain]
      simp [State.plain, hoid]

/-- What the stack loads from revisions that the user can read. -/
theorem Represents.loads_iff {s : State σ} (h : Represents B C U userId s) (oid : Oid)
    (tid : ℕ) : (loadBefore B C U userId s.base oid tid).map some = loadRevision (s.plain oid) tid ↔
      s.plain oid = [] ∨ ∃ r ∈ s.plain oid, r.tid < tid := by
  obtain ⟨opened, hopened, hplain, hall⟩ := h oid
  have hbase : B.loadBefore s.base oid tid = loadRevision (opened.map Prod.fst) tid := by
    rw [B.loadBefore_eq, hopened]
  rw [loadRevision_map] at hbase
  rw [hplain, loadRevision_map, loadBefore, TransformingStorage.loadBefore, OwnerStorage.lower]
  dsimp only
  rw [OwnerStorage.loadBefore, hbase]
  rcases hne : opened with _ | ⟨p, ps⟩
  · exact iff_of_true rfl (.inl rfl)
  · rw [← hne]
    have hempty : opened.isEmpty = false := by rw [hne]; rfl
    simp only [hempty, Bool.false_eq_true, if_false]
    rcases hlast : (opened.filter fun p => p.1.tid < tid).getLast? with _ | q
    · -- the `None` of the storage below is unpacked
      simp only [hlast]
      refine iff_of_false (by intro heq; cases heq) ?_
      rw [hne]
      rintro (hnil | ⟨r, hr, htid⟩)
      · exact absurd hnil (by simp)
      · rw [← hne] at hr
        obtain ⟨q, hq, rfl⟩ := List.mem_map.mp hr
        rw [List.getLast?_eq_none_iff] at hlast
        exact List.not_mem_nil (hlast ▸ List.mem_filter.mpr ⟨hq, decide_eq_true htid⟩)
    · obtain ⟨hq, htid⟩ := List.mem_filter.mp (List.mem_of_getLast? hlast)
      obtain ⟨hpermitted, hdata⟩ := hall q hq
      refine iff_of_true ?_ (.inr ⟨_, List.mem_map_of_mem hq, of_decide_eq_true htid⟩)
      have hcheck : checkPermissions userId q.1.data oid = .ok () := if_pos hpermitted
      simp only [hlast, hcheck, hdata]
      rfl

/-- **The client stack**: after any history of stores by a user, `loadBefore` behaves on the
plain records as the base storage does, exactly for the transaction ids before which the
object has a revision, and for objects that do not exist. -/
theorem loadBefore_iff (B : BaseStorage σ) (C : Ciphers) (U : Utilities) (userId rootOid : Oid)
    (s₀ : State σ) (h₀ : Represents B C U userId s₀) (calls : List Call)
    (hround : ∀ c ∈ calls, ∀ rand noCipherName,
      U.untransform C (U.transform C rand noCipherName c.data) = .ok c.data)
    (oid : Oid) (tid : ℕ) :
    (loadBefore B C U userId ((step B C U userId rootOid).final s₀ calls).base oid tid).map some =
        loadRevision (((step B C U userId rootOid).final s₀ calls).plain oid) tid ↔
      ((step B C U userId rootOid).final s₀ calls).plain oid = [] ∨
        ∃ r ∈ ((step B C U userId rootOid).final s₀ calls).plain oid, r.tid < tid := by
  refine Represents.loads_iff ?_ oid tid
  induction calls generalizing s₀ with
  | nil => exact h₀
  | cons c calls ih =>
    obtain ⟨hc, hcalls⟩ := List.forall_mem_cons.mp hround
    exact ih _ (h₀.step c hc) hcalls

/-- A registry with the two encrypters of `DB`. -/
def aesUtilities : Utilities := Utilities.setup [] (Utilities.dbEncrypters (.all 7))

/-- One record is stored in an empty storage. -/
def oneRecord : State MemoryStorage :=
  (step MemoryStorage.base maskCiphers aesUtilities (p64 5) (p64 5)).final
    ⟨MemoryStorage.base.empty, []⟩ [⟨p64 1, 0, .zeros, [128]⟩]

/-- It is loaded. -/
theorem loadBefore_iff_example :
    (loadBefore MemoryStorage.base maskCiphers aesUtilities (p64 5) oneRecord.base (p64 1)
      maxtid).map some = loadRevision (oneRecord.plain (p64 1)) maxtid := by
  refine (loadBefore_iff MemoryStorage.base maskCiphers aesUtilities (p64 5) (p64 5)
    ⟨MemoryStorage.base.empty, []⟩ (fun oid => ⟨[], ?_, rfl, ?_⟩) [⟨p64 1, 0, .zeros, [128]⟩] ?_
    (p64 1) maxtid).mpr (.inr ⟨⟨1, [128]⟩, by decide +kernel, by decide⟩)
  · exact MemoryStorage.base.revisions_empty oid
  · exact fun p hp => absurd hp List.not_mem_nil
  · intro c hc rand noCipherName
    obtain rfl := List.mem_singleton.mp hc
    have hreg : aesUtilities.Registered := Utilities.registered_setup (by simp) (by decide)
    exact (Utilities.untransform_transform_iff hreg rand noCipherName [128]).mpr
      (.inr ⟨fun h => absurd h (by decide), fun h => absurd h (by decide)⟩)

/-- The record is not there before its first revision, and the load raises. -/
theorem loadBefore_raises :
    loadBefore MemoryStorage.base maskCiphers aesUtilities (p64 5) oneRecord.base (p64 1) 1 =
        .error .typeError ∧ loadRevision (oneRecord.plain (p64 1)) 1 = .ok none := by
  decide +kernel

end ClientStack

end Zerodb
