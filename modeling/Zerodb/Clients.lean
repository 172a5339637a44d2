import Zerodb.Transforming
import Zerodb.Run

/-!
# Clients: several processes on one database

Clients open one database, each in its own process and with its own ordered list of the
same encrypters, all with one key. Records other than the root are stored without the name
of their encrypter: what they mean depends on the default encrypter of the reader, which
is the one the root record named when the reader opened the database.

`Readable` says that a client that opens now finds every such record written by the
encrypter it selects. `readable_iff_agreed`: a run keeps that exactly when all its stores
are `Agreed` with the root record.
-/

namespace Zerodb

/-- The clients of a database: each has its own order of the same encrypters. -/
structure Clients (ι : Type) where
  /-- the `DB` class of each -/
  config : ι → Utilities.Config
  /-- all have the same encrypters -/
  perm : ∀ i j, (config i).encrypters.Perm (config j).encrypters

/-- A store of a record without a cipher name that took effect. -/
structure Unnamed where
  /-- the object -/
  oid : Oid
  /-- the serial of the revision -/
  tid : ℕ
  /-- the encrypter that wrote it -/
  encrypter : Option Encrypter
  /-- what it encrypted -/
  plain : Bytes

/-- The database and the processes that have opened it. -/
structure World (σ : Type) where
  /-- the base storage -/
  base : σ
  /-- the registry of each process -/
  processes : List Utilities
  /-- the stores of records without a cipher name, oldest first -/
  log : List Unnamed

namespace World

variable {σ ι : Type} (B : BaseStorage σ) (C : Ciphers) (clients : Clients ι) (key : Key)
variable (rootOid : Oid)

/-- What a client or a process does. -/
inductive Op (ι : Type) where
  /-- a client opens the database in a new process -/
  | open (client : ι)
  /-- a process stores a record -/
  | store (process : ℕ) (oid : Oid) (serial : ℕ) (rand : Rand) (data : Bytes)
  /-- a process loads a record -/
  | load (process : ℕ) (oid : Oid) (tid : ℕ)

/-- The root record, as a client that opens the database reads it. -/
def root (s : World σ) : Except Exc (Option Record) := B.loadBefore s.base rootOid maxtid

/-- A client opens the database in a process of its own. -/
def opened (s : World σ) (client : ι) : Except Exc Unit × Utilities :=
  Utilities.empty.openDb (clients.config client) key (s.root B rootOid)

/-- One operation; a load gives its record. -/
def step : Machine (World σ) (Op ι) (Except Exc (Option Record)) := fun s op =>
  match op with
  | .open client =>
    match s.opened B clients key rootOid client with
    | (.ok (), U) => (.ok none, { s with processes := s.processes ++ [U] })
    | (.error e, _) => (.error e, s)
  | .store process oid serial rand data =>
    match s.processes[process]? with
    | none => (.ok none, s)
    | some U =>
      match TransformingStorage.store B.lower C U rootOid s.base oid serial rand data with
      | .error e => (.error e, s)
      | .ok (tid, base) =>
        (.ok none, {
          base := base
          processes := s.processes
          log := if oid = rootOid then s.log
            else s.log ++ [⟨oid, tid, U.encrypters[([] : Bytes)]?, U.compress data⟩] })
  | .load process oid tid =>
    match s.processes[process]? with
    | none => (.ok none, s)
    | some U => ((TransformingStorage.loadBefore B.lower C U s.base oid tid).map some, s)

/-- A process reads a stored record: it was written by the default encrypter of the
process, and decrypting gives what was encrypted. -/
structure ReadableBy (s : World σ) (U : Utilities) (w : Unnamed) : Prop where
  /-- it was written by the encrypter of the process -/
  encrypter : w.encrypter = U.encrypters[([] : Bytes)]?
  /-- and is decrypted -/
  decrypt : ∃ r ∈ B.revisions s.base w.oid, r.tid = w.tid ∧ U.decrypt C r.data = .ok w.plain

/-- Whichever client opens the database now, it opens, and all records without a cipher
name are readable to it. -/
def Readable (s : World σ) : Prop :=
  ∀ i, ∃ U, s.opened B clients key rootOid i = (.ok (), U) ∧ ∀ w ∈ s.log, ReadableBy B C s U w

/-- The encrypter the root record asks for: the one it names or, while it is not
encrypted, the first one of every client. -/
def Asked (s : World σ) (cls : EncrypterClass) : Prop :=
  ∀ data rest, s.root B rootOid = .ok (some (data, rest)) →
    match getEncryptionSignature data with
    | some name => name = cls.name.bytes
    | none => ∀ i, (clients.config i).encrypters.head? = some cls

/-- A store agrees with the root record: a record is stored with the encrypter the root
asks for, and the root with the encrypter of all records without a cipher name. Stores
that the base storage refuses do no harm. -/
def Agreed (s : World σ) : Op ι → Prop
  | .store process oid serial rand data => ∀ U ∈ s.processes[process]?,
    ∀ r, TransformingStorage.store B.lower C U rootOid s.base oid serial rand data = .ok r →
      if oid = rootOid then ∀ w ∈ s.log, w.encrypter = U.encrypters[([] : Bytes)]?
      else ∀ e ∈ U.encrypters[([] : Bytes)]?, s.Asked B clients rootOid e.cls
  | _ => True

/-- What holds in every state, agreed or not. -/
structure Sane (s : World σ) : Prop where
  /-- every process has one of the encrypters as default -/
  processes : ∀ U ∈ s.processes, ∃ i, ∃ cls ∈ (clients.config i).encrypters,
    U.encrypters[([] : Bytes)]? = some ⟨cls, key⟩
  /-- the root record exists; it is not encrypted, or names one of the encrypters -/
  root : ∃ data rest, s.root B rootOid = .ok (some (data, rest)) ∧
    (getEncryptionSignature data = none ∨ ∃ i, ∃ cls ∈ (clients.config i).encrypters,
      getEncryptionSignature data = some cls.name.bytes)
  /-- the records without a cipher name are what their encrypters made of the data -/
  log : ∀ w ∈ s.log, ∃ e, w.encrypter = some e ∧ ∃ rand, ∃ r ∈ B.revisions s.base w.oid,
    r.tid = w.tid ∧ r.data = e.encrypt C rand w.plain true

variable {B C clients key rootOid}

/-! ## What a client selects

A client selects an encrypter once, when it opens the database: by the name in the root record, or
its own first one if the root is not encrypted. In a sane state this is the same for every client,
unless the root is not encrypted and clients prefer different ones; that is the one gap. -/

/-- The encrypter class a client selects when it opens the database. -/
def Selects (B : BaseStorage σ) (clients : Clients ι) (rootOid : Oid) (s : World σ) (i : ι)
    (cls : EncrypterClass) : Prop :=
  ∃ data rest, s.root B rootOid = .ok (some (data, rest)) ∧
    match getEncryptionSignature data with
    | some name => cls ∈ (clients.config i).encrypters ∧ name = cls.name.bytes
    | none => (clients.config i).encrypters.head? = some cls

theorem Selects.unique {s : World σ} {i : ι} {cls cls' : EncrypterClass}
    (h : Selects B clients rootOid s i cls) (h' : Selects B clients rootOid s i cls') :
    cls = cls' := by
  obtain ⟨data, rest, hroot, h⟩ := h
  obtain ⟨data', rest', hroot', h'⟩ := h'
  rw [hroot, Except.ok.injEq, Option.some.injEq, Prod.mk.injEq] at hroot'
  obtain ⟨rfl, -⟩ := hroot'
  rcases hsig : getEncryptionSignature data with _ | name
  · rw [hsig] at h h'
    exact Option.some.inj (h.symm.trans h')
  · rw [hsig] at h h'
    exact List.inj_on_of_nodup_map (clients.config i).nodup h.1 h'.1
      (Name.ext (h.2.symm.trans h'.2))

/-- The classes a process starts with are those of its configuration. -/
theorem registerClasses_empty (cfg : Utilities.Config) {n : Bytes} (hn : n ≠ [])
    {cls : EncrypterClass} :
    (Utilities.empty.registerClasses cfg.encrypters).classes[n]? = some cls ↔
      cls ∈ cfg.encrypters ∧ cls.name.bytes = n := by
  obtain ⟨c, rest, hl⟩ := List.exists_cons_of_ne_nil cfg.ne
  have hspec := Utilities.registerClasses_spec Utilities.ready_empty.classes (hl ▸ cfg.named)
    (hl ▸ cfg.nodup)
  rw [← hl] at hspec
  refine ⟨?_, ?_⟩
  · intro h
    by_cases hex : ∃ x ∈ cfg.encrypters, x.name.bytes = n
    · obtain ⟨x, hx, rfl⟩ := hex
      rw [hspec.registered x hx, Option.some.injEq] at h
      exact h ▸ ⟨hx, rfl⟩
    · rw [hspec.other n hn fun x hx hxn => hex ⟨x, hx, hxn⟩] at h
      simp [Utilities.empty] at h
  · rintro ⟨hcls, rfl⟩
    exact hspec.registered cls hcls

theorem registerClasses_default (cfg : Utilities.Config) :
    (Utilities.empty.registerClasses cfg.encrypters).classes[([] : Bytes)]? =
      cfg.encrypters.head? := by
  obtain ⟨c, rest, hl⟩ := List.exists_cons_of_ne_nil cfg.ne
  rw [hl, (Utilities.registerClasses_spec Utilities.ready_empty.classes (hl ▸ cfg.named)
    (hl ▸ cfg.nodup)).default, List.head?_cons]

/-- In a sane state every client can open the database, with the encrypter it selects. -/
theorem Sane.opened {s : World σ} (h : s.Sane B C clients key rootOid) (i : ι) :
    ∃ U cls, s.opened B clients key rootOid i = (.ok (), U) ∧
      U.encrypters[([] : Bytes)]? = some ⟨cls, key⟩ ∧ cls ∈ (clients.config i).encrypters ∧
      Selects B clients rootOid s i cls := by
  obtain ⟨data, rest, hroot, hsig⟩ := h.root
  obtain ⟨-, -, -, ⟨cls, hcls, hdefault⟩, hok⟩ := Utilities.openDb_spec Utilities.ready_empty
    (clients.config i) key (s.root B rootOid)
  have hdata : Utilities.rootRecord (s.root B rootOid) = .ok data := by rw [hroot]; rfl
  obtain ⟨c, l, hl⟩ := List.exists_cons_of_ne_nil (clients.config i).ne
  -- the class selected by the root record
  obtain ⟨cls', hroot', hmem, hsel⟩ : ∃ cls', Utilities.rootClass (Utilities.empty.registerClasses
      (clients.config i).encrypters).classes data = some cls' ∧
      cls' ∈ (clients.config i).encrypters ∧ Selects B clients rootOid s i cls' := by
    rcases hsig with hnone | ⟨j, cls', hmem, hname⟩
    · refine ⟨c, ?_, hl ▸ List.mem_cons_self, data, rest, hroot, ?_⟩
      · rw [Utilities.rootClass, hnone]
        exact (registerClasses_default _).trans (by rw [hl]; rfl)
      · rw [hnone, hl]
        rfl
    · have hmem' := (clients.perm j i).mem_iff.mp hmem
      obtain ⟨b, bs, hb⟩ := List.exists_cons_of_ne_nil ((clients.config j).named cls' hmem)
      refine ⟨cls', ?_, hmem', data, rest, hroot, ?_⟩
      · rw [Utilities.rootClass, hname, hb]
        exact (registerClasses_empty _ (List.cons_ne_nil b bs)).mpr ⟨hmem', hb⟩
      · rw [hname]
        exact ⟨hmem', rfl⟩
  rw [Utilities.selected, hdata] at hcls
  dsimp only at hcls
  rw [hroot'] at hcls
  obtain rfl : cls' = cls := Option.some.inj hcls
  exact ⟨_, cls', Prod.ext (hok.mpr ⟨data, hdata, by rw [hroot']; rfl⟩) rfl, hdefault, hmem, hsel⟩

/-- The root asks for the encrypter that all clients select. -/
theorem asked_iff {s : World σ} (h : s.Sane B C clients key rootOid) {i : ι} {cls : EncrypterClass}
    (hcls : cls ∈ (clients.config i).encrypters) :
    s.Asked B clients rootOid cls ↔ ∀ j, Selects B clients rootOid s j cls := by
  obtain ⟨data, rest, hroot, hsig⟩ := h.root
  refine ⟨?_, ?_⟩
  · intro ha j
    refine ⟨data, rest, hroot, ?_⟩
    have := ha data rest hroot
    rcases hs : getEncryptionSignature data with _ | name
    · rw [hs] at this
      exact this j
    · rw [hs] at this
      exact ⟨(clients.perm i j).mem_iff.mp hcls, this⟩
  · intro hall data' rest' hroot'
    rcases hs : getEncryptionSignature data' with _ | name
    · intro j
      obtain ⟨d, r, hr, hm⟩ := hall j
      rw [hroot', Except.ok.injEq, Option.some.injEq, Prod.mk.injEq] at hr
      rw [← hr.1, hs] at hm
      exact hm
    · obtain ⟨d, r, hr, hm⟩ := hall i
      rw [hroot', Except.ok.injEq, Option.some.injEq, Prod.mk.injEq] at hr
      rw [← hr.1, hs] at hm
      exact hm.2

/-- The records are readable when every client selects the encrypter that wrote them. -/
theorem Sane.readable_iff {s : World σ} (h : s.Sane B C clients key rootOid) :
    s.Readable B C clients key rootOid ↔ ∀ w ∈ s.log, ∀ i cls,
      Selects B clients rootOid s i cls → w.encrypter = some ⟨cls, key⟩ := by
  refine ⟨?_, ?_⟩
  · intro hread w hw i cls hcls
    obtain ⟨U, hopen, hall⟩ := hread i
    obtain ⟨U', cls', hopen', hdefault, -, hsel⟩ := h.opened i
    rw [hopen, Prod.mk.injEq] at hopen'
    rw [(hall w hw).encrypter, hopen'.2, hdefault, hcls.unique hsel]
  · intro hall i
    obtain ⟨U, cls, hopen, hdefault, -, hsel⟩ := h.opened i
    refine ⟨U, hopen, fun w hw => ?_⟩
    have hw' := hall w hw i cls hsel
    obtain ⟨e, he, rand, r, hr, htid, hdata⟩ := h.log w hw
    refine ⟨hw'.trans hdefault.symm, r, hr, htid, ?_⟩
    rw [hdata]
    refine Utilities.decrypt_encrypt ?_ rand w.plain
    rw [if_pos rfl, hdefault, ← hw', he]

/-! ## Runs

`Agreed` asks of a store that it does not widen the gap: records are stored with the encrypter
that the root asks for, and the root itself with the encrypter of the records there are. Each step
keeps the records readable exactly when it is agreed, and runs follow. -/

/-- A store that takes effect: a new revision, and another registry is left alone. -/
theorem store_cases (s : World σ) (process : ℕ) (oid : Oid) (serial : ℕ) (rand : Rand)
    (data : Bytes) :
    (step B C clients key rootOid s (.store process oid serial rand data)).2 = s ∧
        (∀ U ∈ s.processes[process]?, ∀ r,
          TransformingStorage.store B.lower C U rootOid s.base oid serial rand data ≠ .ok r) ∨
      ∃ U tid base, U ∈ s.processes ∧ U ∈ s.processes[process]? ∧
        TransformingStorage.store B.lower C U rootOid s.base oid serial rand data =
          .ok (tid, base) ∧
        (step B C clients key rootOid s (.store process oid serial rand data)).2 =
          ⟨base, s.processes, if oid = rootOid then s.log
            else s.log ++ [⟨oid, tid, U.encrypters[([] : Bytes)]?, U.compress data⟩]⟩ := by
  rw [step]
  rcases hU : s.processes[process]? with _ | U
  · exact .inl ⟨rfl, fun U hU => absurd hU (Option.not_mem_none U)⟩
  · dsimp only
    rcases hstore : TransformingStorage.store B.lower C U rootOid s.base oid serial rand data
      with e | ⟨tid, base⟩
    · refine .inl ⟨rfl, fun V hV r hr => ?_⟩
      obtain rfl := Option.mem_some_iff.mp hV
      rw [hstore] at hr
      cases hr
    · exact .inr ⟨U, tid, base, List.mem_of_getElem? hU, rfl, hstore, rfl⟩

theorem Sane.log_mono {s : World σ} (h : s.Sane B C clients key rootOid) {oid : Oid} {serial : ℕ}
    {x : Bytes} {tid : ℕ} {base : σ} (hstore : B.store s.base oid serial x = .ok (tid, base)) :
    ∀ w ∈ s.log, ∃ e, w.encrypter = some e ∧ ∃ rand, ∃ r ∈ B.revisions base w.oid,
      r.tid = w.tid ∧ r.data = e.encrypt C rand w.plain true := by
  obtain ⟨-, -, hrevs, hother⟩ := B.store_ok hstore
  intro w hw
  obtain ⟨e, he, rand, r, hr, hdata⟩ := h.log w hw
  refine ⟨e, he, rand, r, ?_, hdata⟩
  by_cases hoid : w.oid = oid
  · rw [hoid, hrevs]
    exact List.mem_append_left _ (hoid ▸ hr)
  · rw [hother w.oid hoid]
    exact hr

theorem Sane.step {s : World σ} (h : s.Sane B C clients key rootOid) (op : Op ι) :
    (step B C clients key rootOid s op).2.Sane B C clients key rootOid := by
  cases op with
  | «open» i =>
    obtain ⟨U, cls, hopen, hdefault, hmem, -⟩ := h.opened i
    have hstep : (World.step B C clients key rootOid s (.open i)).2 =
        { s with processes := s.processes ++ [U] } := by
      rw [World.step]
      simp only [hopen]
    rw [hstep]
    refine ⟨fun V hV => ?_, h.root, h.log⟩
    rcases List.mem_append.mp hV with hV | hV
    · exact h.processes V hV
    · obtain rfl := List.mem_singleton.mp hV
      exact ⟨i, cls, hmem, hdefault⟩
  | load p oid tid =>
    have hstep : (World.step B C clients key rootOid s (.load p oid tid)).2 = s := by
      rw [World.step]
      split <;> rfl
    rw [hstep]
    exact h
  | store p oid serial rand data =>
    rcases @store_cases σ ι B C clients key rootOid s p oid serial rand data with
      ⟨hs, -⟩ | ⟨U, tid, base, hU, -, hstore, hs⟩
    · rw [hs]
      exact h
    · rw [hs]
      obtain ⟨i, cls, hcls, hdefault⟩ := h.processes U hU
      refine ⟨h.processes, ?_, ?_⟩
      · by_cases hoid : oid = rootOid
        · subst hoid
          refine ⟨_, _, B.loadBefore_store hstore, .inr ⟨i, cls, hcls, ?_⟩⟩
          rw [Utilities.getEncryptionSignature_transform hdefault, if_neg (by simp)]
          rfl
        · obtain ⟨d, rest, hroot, hsig⟩ := h.root
          exact ⟨d, rest, (B.loadBefore_store_ne hstore (Ne.symm hoid) _).trans hroot, hsig⟩
      · have hold := h.log_mono hstore
        by_cases hoid : oid = rootOid
        · rw [if_pos hoid]
          exact hold
        · rw [if_neg hoid]
          intro w hw
          rcases List.mem_append.mp hw with hw | hw
          · exact hold w hw
          · obtain rfl := List.mem_singleton.mp hw
            obtain ⟨-, -, hrevs, -⟩ := B.store_ok hstore
            refine ⟨⟨cls, key⟩, hdefault, rand, _, hrevs ▸ List.mem_append_right _
              (List.mem_singleton.mpr rfl), rfl, ?_⟩
            have htrue : decide (oid ≠ rootOid) = true := by simpa using hoid
            dsimp only
            rw [htrue, Utilities.transform, Utilities.encrypt, hdefault]

/-- What a store that succeeds agrees with, whose process has one default encrypter. -/
theorem agreed_store_iff {s : World σ} {p : ℕ} {oid : Oid} {serial : ℕ} {rand : Rand} {data : Bytes}
    {U : Utilities} {cls : EncrypterClass} {r : ℕ × σ} (hU : U ∈ s.processes[p]?)
    (hstore : TransformingStorage.store B.lower C U rootOid s.base oid serial rand data = .ok r)
    (hdefault : U.encrypters[([] : Bytes)]? = some ⟨cls, key⟩) :
    s.Agreed B C clients rootOid (.store p oid serial rand data : Op ι) ↔
      if oid = rootOid then ∀ w ∈ s.log, w.encrypter = U.encrypters[([] : Bytes)]?
      else s.Asked B clients rootOid cls := by
  rw [Agreed]
  refine ⟨fun ha => ?_, fun ha V hV r hr => ?_⟩
  · have hU' := ha U hU _ hstore
    split
    · rwa [if_pos ‹_›] at hU'
    · rw [if_neg ‹_›] at hU'
      exact hU' _ hdefault
  · obtain rfl := Option.some.inj (hU.symm.trans hV)
    split
    · rwa [if_pos ‹_›] at ha
    · rw [if_neg ‹_›] at ha
      intro e he
      obtain rfl := Option.some.inj (hdefault.symm.trans he)
      exact ha

/-- One step keeps the records readable exactly when it is agreed. -/
theorem readable_step_iff {s : World σ} (h : s.Sane B C clients key rootOid)
    (hread : s.Readable B C clients key rootOid) (op : Op ι) :
    (World.step B C clients key rootOid s op).2.Readable B C clients key rootOid ↔
      s.Agreed B C clients rootOid op := by
  have hnext := h.step op
  rw [hnext.readable_iff]
  rw [h.readable_iff] at hread
  cases op with
  | «open» i =>
    obtain ⟨U, cls, hopen, -⟩ := h.opened i
    rw [World.step]
    simp only [hopen]
    exact iff_of_true hread trivial
  | load p oid tid =>
    have hstep : (World.step B C clients key rootOid s (.load p oid tid)).2 = s := by
      rw [World.step]
      split <;> rfl
    rw [hstep]
    exact iff_of_true hread trivial
  | store p oid serial rand data =>
    rcases @store_cases σ ι B C clients key rootOid s p oid serial rand data with
      ⟨hs, hnone⟩ | ⟨U, tid, base, hU, hUp, hstore, hs⟩
    · rw [hs]
      exact iff_of_true hread fun U hU r hr => absurd hr (hnone U hU r)
    · rw [hs] at hnext ⊢
      obtain ⟨i, cls, hcls, hdefault⟩ := h.processes U hU
      rw [agreed_store_iff hUp hstore hdefault]
      by_cases hoid : oid = rootOid
      · subst hoid
        simp only [if_true] at hnext ⊢
        have hsel : ∀ j, Selects B clients oid
            (⟨base, s.processes, s.log⟩ : World σ) j cls := by
          intro j
          refine ⟨_, _, B.loadBefore_store hstore, ?_⟩
          rw [Utilities.getEncryptionSignature_transform hdefault, if_neg (by simp)]
          exact ⟨(clients.perm i j).mem_iff.mp hcls, rfl⟩
        rw [hdefault]
        refine ⟨fun hall w hw => hall w hw i cls (hsel i), fun hall w hw j c hc => ?_⟩
        rw [hall w hw, hc.unique (hsel j)]
      · simp only [if_neg hoid] at hnext ⊢
        have hsel : ∀ (l : List Unnamed) j c, Selects B clients rootOid
            (⟨base, s.processes, l⟩ : World σ) j c ↔ Selects B clients rootOid s j c := by
          intro l j c
          have hroot : World.root B rootOid (⟨base, s.processes, l⟩ : World σ) = s.root B rootOid :=
            B.loadBefore_store_ne hstore (Ne.symm hoid) _
          rw [Selects, Selects, hroot]
        simp only [hsel, List.forall_mem_append, List.forall_mem_singleton, hdefault]
        rw [and_iff_right hread, asked_iff h hcls]
        refine ⟨?_, ?_⟩
        · intro hall j
          obtain ⟨-, c, -, -, -, hc⟩ := h.opened j
          have := Option.some.inj (hall j c hc)
          rw [Encrypter.mk.injEq] at this
          exact this.1 ▸ hc
        · intro hall j c hc
          rw [hc.unique (hall j)]

/-- **Records without a cipher name**: starting from a root record that is not encrypted,
whatever the clients do, every client that opens the database can read all of them exactly
as long as every store was `Agreed`. -/
theorem readable_iff_agreed (B : BaseStorage σ) (C : Ciphers) (clients : Clients ι) (key : Key)
    (rootOid : Oid) (base : σ) (data : Bytes) (rest : ℕ × Option ℕ)
    (hroot : B.loadBefore base rootOid maxtid = .ok (some (data, rest)))
    (hplain : getEncryptionSignature data = none) (ops : List (Op ι)) :
    (∀ s ∈ (step B C clients key rootOid).states ⟨base, [], []⟩ ops,
        s.Readable B C clients key rootOid) ↔
      (step B C clients key rootOid).Along (Agreed B C clients rootOid) ⟨base, [], []⟩ ops := by
  have hsane : Sane B C clients key rootOid (⟨base, [], []⟩ : World σ) :=
    ⟨fun U hU => absurd hU List.not_mem_nil, ⟨data, rest, hroot, .inl hplain⟩,
      fun w hw => absurd hw List.not_mem_nil⟩
  have hread : Readable B C clients key rootOid (⟨base, [], []⟩ : World σ) :=
    hsane.readable_iff.mpr fun w hw => absurd hw List.not_mem_nil
  exact @Machine.states_inv_iff_along _ _ _ (step B C clients key rootOid)
    (Agreed B C clients rootOid) (Readable B C clients key rootOid)
    (Sane B C clients key rootOid) (fun s op hs _ _ => hs.step op)
    (fun s op hs hread => readable_step_iff hs hread op) _ hsane hread ops

/-! ## Two clients

Two encrypters and two clients that prefer different ones of them are enough for the race that the
condition excludes. -/

/-- Two clients that prefer different ones. -/
def aesClients : Clients Bool where
  config := aesConfig
  perm i j := by cases i <;> cases j <;> decide

/-- The root record is stored first. -/
theorem readable_iff_agreed_example :
    Readable MemoryStorage.base maskCiphers aesClients (.all 7) z64
    ((step MemoryStorage.base maskCiphers aesClients (.all 7) z64).final ⟨plainRoot, [], []⟩
      [.open true, .store 0 z64 1 .zeros [128], .store 0 (p64 1) 0 .zeros [128, 5]]) := by
  refine (readable_iff_agreed MemoryStorage.base maskCiphers aesClients (.all 7) z64 plainRoot [128]
    (1, none) (by decide +kernel) (by decide +kernel)
    [.open true, .store 0 z64 1 .zeros [128], .store 0 (p64 1) 0 .zeros [128, 5]]).mpr
    ⟨trivial, ?_, ?_, trivial⟩ _ (Machine.final_mem_states _ _ _)
  · intro U hU r hr
    rw [if_pos rfl]
    exact fun w hw => absurd hw List.not_mem_nil
  · intro U hU r hr
    rw [if_neg (by decide)]
    intro e he data rest hroot
    -- the root record now names the first client's encrypter
    have hsig : (Utilities.rootRecord (root MemoryStorage.base z64
        ((step MemoryStorage.base maskCiphers aesClients (.all 7) z64).final ⟨plainRoot, [], []⟩
          [.open true, .store 0 z64 1 .zeros [128]]))).map getEncryptionSignature =
        .ok (some (aes256Encrypter true).name.bytes) := by
      decide +kernel
    have hdefault : (some U).map (fun U => U.encrypters[([] : Bytes)]?) =
        some (some ⟨aes256Encrypter true, .all 7⟩) := by
      rw [← hU]
      decide +kernel
    obtain rfl := Option.some.inj ((Option.some.inj hdefault).symm.trans he)
    have hroot' : root MemoryStorage.base z64
        ((step MemoryStorage.base maskCiphers aesClients (.all 7) z64).final ⟨plainRoot, [], []⟩
          [.open true, .store 0 z64 1 .zeros [128]]) = .ok (some (data, rest)) := hroot
    rw [hroot'] at hsig
    have hdata : getEncryptionSignature data = some (aes256Encrypter true).name.bytes :=
      Except.ok.inj hsig
    rw [hdata]

/-- The clients open the database before its root record is stored; the one writes a record
and the other the root record. Who opens the database then cannot read the record. -/
theorem unreadable_after_race :
    (step MemoryStorage.base maskCiphers aesClients (.all 7) z64).outputs ⟨plainRoot, [], []⟩
      [.open true, .open false, .store 1 (p64 1) 0 .zeros [128, 5], .store 0 z64 1 .zeros [128],
        .open false, .load 2 (p64 1) maxtid] =
      [.ok none, .ok none, .ok none, .ok none, .ok none, .error wrongKey] := by
  decide +kernel

end World

end Zerodb
