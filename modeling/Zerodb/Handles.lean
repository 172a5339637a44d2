import Zerodb.Transforming
import Zerodb.Run

/-!
# Handles: several databases opened in one process

Every `DB` opened in a process uses the registry of the process. The last one opened leaves
its key in all encrypters and its choice of the default one, so a handle opened before
stores under a foreign key, and cannot read what it stored.

`independent_of_undisturbed`: every step of a handle is right in a run in which, at each
step of a handle, the database opened last has its key and selected its encrypter.
-/

namespace Zerodb

/-- The compressors there are: a name belongs to one. -/
structure Library where
  /-- the compressors -/
  compressors : Set CommonCompressor
  /-- of different names -/
  inj : ∀ c ∈ compressors, ∀ c' ∈ compressors, c.name = c'.name → c = c'

/-- A store by a handle that took effect. -/
structure Kept where
  /-- the object -/
  oid : Oid
  /-- the serial of the revision -/
  tid : ℕ
  /-- the data passed to the store -/
  data : Pickle

/-- An open database. -/
structure DbHandle (σ : Type) where
  /-- the key it was opened with -/
  key : Key
  /-- the class of the encrypter its root record named, or of its first one -/
  cls : EncrypterClass
  /-- `_root_oid` -/
  rootOid : Oid
  /-- the base storage of its database -/
  base : σ
  /-- its stores that took effect, oldest first -/
  log : List Kept

/-- The encrypter a handle should use. -/
def DbHandle.encrypter {σ : Type} (h : DbHandle σ) : Encrypter := ⟨h.cls, h.key⟩

/-- A process with open databases. -/
structure Process (σ : Type) where
  /-- its registry -/
  utilities : Utilities
  /-- the open databases, in the order they were opened in -/
  handles : List (DbHandle σ)
  /-- what the last construction of a database, failed or not, selected: its key and the
  class of its default encrypter -/
  last : Option Encrypter

namespace Process

variable {σ : Type} (B : BaseStorage σ) (C : Ciphers) (L : Library)

/-- What happens in a process. -/
inductive Op (σ : Type) (L : Library) where
  /-- a database is opened -/
  | open (cfg : Utilities.Config) (key : Key) (rootOid : Oid) (base : σ)
      (hcfg : ∀ c ∈ cfg.compressor, c ∈ L.compressors)
  /-- a handle stores a record -/
  | store (handle : ℕ) (oid : Oid) (serial : ℕ) (rand : Rand) (data : Pickle)
  /-- a handle loads a record -/
  | load (handle : ℕ) (oid : Oid) (tid : ℕ)

/-- One operation; a load gives its record. -/
def step : Machine (Process σ) (Op σ L) (Except Exc (Option Record)) := fun s op =>
  match op with
  | .open cfg key rootOid base _ =>
    let root := B.loadBefore base rootOid maxtid
    let selected := s.utilities.selected cfg root
    let last := selected.map (⟨·, key⟩)
    match s.utilities.openDb cfg key root, selected with
    | (.ok (), U), some cls => (.ok none, ⟨U, s.handles ++ [⟨key, cls, rootOid, base, []⟩], last⟩)
    | (.ok (), U), none => (.ok none, ⟨U, s.handles, last⟩)
    | (.error e, U), _ => (.error e, ⟨U, s.handles, last⟩)
  | .store handle oid serial rand data =>
    match s.handles[handle]? with
    | none => (.ok none, s)
    | some h =>
      match TransformingStorage.store B.lower C s.utilities h.rootOid h.base oid serial rand
          data.bytes with
      | .error e => (.error e, s)
      | .ok (tid, base) => (.ok none, { s with
          handles := s.handles.set handle { h with
            base := base
            log := h.log ++ [⟨oid, tid, data⟩] } })
  | .load handle oid tid =>
    match s.handles[handle]? with
    | none => (.ok none, s)
    | some h => ((TransformingStorage.loadBefore B.lower C s.utilities h.base oid tid).map some, s)

/-- The root record of a handle's database names its encrypter, if it names one. -/
def RootNames (h : DbHandle σ) : Prop :=
  ∀ data rest, B.loadBefore h.base h.rootOid maxtid = .ok (some (data, rest)) →
    ∀ name, getEncryptionSignature data = some name → name ≠ [] → name = h.cls.name.bytes

/-- A step does for its handle what it should: a store encrypts with the handle's key and
with the encrypter its root record names, and a load gives back what the handle stored. -/
def Right (s : Process σ) : Op σ L → Prop
  | .open .. => True
  | .store handle oid serial rand data => ∀ h ∈ s.handles[handle]?, RootNames B h ∧
    ∀ tid base, TransformingStorage.store B.lower C s.utilities h.rootOid h.base oid serial rand
        data.bytes = .ok (tid, base) →
      ∃ x, (⟨tid, h.encrypter.encrypt C rand x (oid ≠ h.rootOid)⟩ : Revision) ∈
        B.revisions base oid
  | .load handle oid tid => ∀ h ∈ s.handles[handle]?,
    ∀ data serial tend, B.loadBefore h.base oid tid = .ok (some (data, serial, tend)) →
      ∀ w ∈ h.log, w.oid = oid → w.tid = serial →
        TransformingStorage.loadBefore B.lower C s.utilities h.base oid tid =
          .ok (w.data.bytes, serial, tend)

/-- The database opened last in the process has the key of the handle and selected its
encrypter. For a root record, which names its encrypter, the key is enough, as long as
the class of that name is still the same. -/
def Undisturbed (s : Process σ) : Op σ L → Prop
  | .open .. => True
  | .store handle .. => ∀ h ∈ s.handles[handle]?, s.last = some h.encrypter
  | .load handle oid _ => ∀ h ∈ s.handles[handle]?,
    if oid = h.rootOid then (∃ cls, s.last = some ⟨cls, h.key⟩) ∧
      s.utilities.classes[h.cls.name.bytes]? = some h.cls
    else s.last = some h.encrypter

/-! ## Invariant

Opening another database changes the registry under a handle: keys and the default are replaced,
but no encrypter is taken away. So what a handle has stored can still be found by name, and is
read back if the key is right again at the time of the load, which is what `Undisturbed` asks for
at each step. -/

/-- The revision of a store is there, and was written by the handle's encrypter. -/
def Written (U : Utilities) (h : DbHandle σ) (w : Kept) : Prop :=
  (∃ r ∈ B.revisions h.base w.oid, r.tid = w.tid) ∧
    ∀ r ∈ B.revisions h.base w.oid, r.tid = w.tid → ∃ rand x, U.Packs x w.data ∧
      r.data = h.encrypter.encrypt C rand x (w.oid ≠ h.rootOid)

/-- The compressors of a registry are of the library, and registered under their names. -/
structure Stocked (U : Utilities) : Prop where
  /-- they are of the library -/
  mem : ∀ (n : Bytes) c, U.compressors[n]? = some c → c ∈ L.compressors
  /-- the default one is registered under its name -/
  default : Named CommonCompressor.name U.compressors

/-- What holds of a process. -/
structure Sane (s : Process σ) : Prop where
  /-- its registry is one between constructions -/
  ready : s.utilities.Ready
  /-- its default encrypter is what the last construction selected -/
  last : s.utilities.encrypters[([] : Bytes)]? = s.last
  /-- which left its key everywhere -/
  keyed : ∀ e ∈ s.last, Utilities.Keyed e.key s.utilities
  /-- the compressors are known -/
  stocked : Stocked L s.utilities
  /-- the root records name the encrypters of the handles -/
  root : ∀ h ∈ s.handles, RootNames B h
  /-- and what the handles stored is written by them -/
  written : ∀ h ∈ s.handles, ∀ w ∈ h.log, Written B C s.utilities h w

variable {B C L}

/-- With another compressor as default, the old ones can still be found. -/
theorem Stocked.open {U V : Utilities} (h : Stocked L U) {cfg : Utilities.Config}
    (hcfg : ∀ c ∈ cfg.compressor, c ∈ L.compressors)
    (hV : V.compressors = U.withCompressor cfg) :
    Stocked L V ∧ ∀ x data, U.Packs x data → V.Packs x data := by
  rw [Utilities.withCompressor] at hV
  rcases hc : cfg.compressor with _ | c
  · rw [hc] at hV
    refine ⟨⟨hV ▸ h.mem, hV ▸ h.default⟩, fun x data hx => ?_⟩
    rw [Utilities.Packs, hV]
    exact hx
  · rw [hc] at hV hcfg
    have hmem : c ∈ L.compressors := hcfg c rfl
    refine ⟨⟨fun n d hd => ?_, ?_⟩, fun x data hx => ?_⟩
    · simp only [hV, BTree.get_insert] at hd
      split_ifs at hd
      · exact Option.some.inj hd ▸ hmem
      · exact Option.some.inj hd ▸ hmem
      · exact h.mem n d hd
    · rw [hV]
      exact Named.insert_default (by rw [BTree.get_insert, if_pos rfl])
    · rcases hx with rfl | ⟨d, hd, hshort, rfl⟩
      · exact .inl rfl
      · have hne : ([] : Bytes) ≠ d.name.bytes := by
          intro hn
          apply hshort.1
          rw [CommonCompressor.sig, if_pos hn.symm]
          exact List.nil_prefix
        refine .inr ⟨d, ?_, hshort, rfl⟩
        simp only [hV, BTree.get_insert, if_neg hne]
        split
        · rename_i hname
          rw [L.inj c hmem d (h.mem _ d hd) (Name.ext hname)]
        · exact hd

/-- A handle stays as it is while another database is opened. -/
theorem Written.mono {U V : Utilities} {h : DbHandle σ} {w : Kept} (hw : Written B C U h w)
    (hV : ∀ x data, U.Packs x data → V.Packs x data) : Written B C V h w := by
  refine ⟨hw.1, fun r hr htid => ?_⟩
  obtain ⟨rand, x, hx, hdata⟩ := hw.2 r hr htid
  exact ⟨rand, x, hV x _ hx, hdata⟩

theorem Sane.open {s : Process σ} (hs : Sane B C L s) (cfg : Utilities.Config) (key : Key)
    (rootOid : Oid) (base : σ) (hcfg : ∀ c ∈ cfg.compressor, c ∈ L.compressors) :
    Sane B C L (step B C L s (.open cfg key rootOid base hcfg)).2 := by
  obtain ⟨hkeyed, hclasses, hcompressors, ⟨cls, hcls, hdefault⟩, hok⟩ :=
    Utilities.openDb_spec hs.ready cfg key (B.loadBefore base rootOid maxtid)
  rw [step]
  rcases hopen : s.utilities.openDb cfg key (B.loadBefore base rootOid maxtid) with ⟨res, U⟩
  rw [hopen] at hkeyed hclasses hcompressors hdefault hok
  obtain ⟨hstocked, hpacks⟩ := hs.stocked.open hcfg hcompressors
  have hkeyed' : ∀ e ∈ (some cls).map (⟨·, key⟩ : EncrypterClass → Encrypter),
      Utilities.Keyed e.key U := by
    intro e he
    rw [Option.map_some, Option.mem_some_iff] at he
    exact he ▸ hkeyed
  simp only [hcls, Option.map_some]
  have hold : ∀ h ∈ s.handles, ∀ w ∈ h.log, Written B C U h w := fun h hh w hw =>
    (hs.written h hh w hw).mono hpacks
  rcases res with e | ⟨⟨⟩⟩
  · exact ⟨hkeyed.ready, hdefault, hkeyed', hstocked, hs.root, hold⟩
  · refine ⟨hkeyed.ready, hdefault, hkeyed', hstocked, fun h hh => ?_, fun h hh w hw => ?_⟩
    · rcases List.mem_append.mp hh with hh | hh
      · exact hs.root h hh
      · obtain rfl := List.mem_singleton.mp hh
        obtain ⟨d, hd, hsome⟩ := hok.mp rfl
        intro data rest hroot name hname hne
        obtain rfl : data = d := by
          rw [hroot] at hd
          exact Except.ok.inj hd
        -- the root record selected the class by its name
        rw [Utilities.selected, hd] at hcls
        dsimp only at hcls
        obtain ⟨c, hc⟩ := Option.isSome_iff_exists.mp hsome
        rw [hc] at hcls
        obtain rfl : c = cls := Option.some.inj hcls
        obtain ⟨b, bs, rfl⟩ := List.exists_cons_of_ne_nil hne
        rw [Utilities.rootClass, hname] at hc
        rw [← hclasses] at hc
        exact (hkeyed.classes.eq _ c hne hc).symm
    · rcases List.mem_append.mp hh with hh | hh
      · exact hold h hh w hw
      · obtain rfl := List.mem_singleton.mp hh
        exact absurd hw List.not_mem_nil

/-- A store under the handle's own encrypter. -/
theorem Written.store {U : Utilities} {h : DbHandle σ} {oid : Oid} {serial tid : ℕ} {rand : Rand}
    {data : Pickle} {base : σ} (hU : Stocked L U)
    (hdefault : U.encrypters[([] : Bytes)]? = some h.encrypter)
    (hstore : TransformingStorage.store B.lower C U h.rootOid h.base oid serial rand data.bytes =
      .ok (tid, base)) (hlog : ∀ w ∈ h.log, Written B C U h w) :
    ∀ w ∈ h.log ++ [⟨oid, tid, data⟩],
      Written B C U { h with base := base, log := h.log ++ [⟨oid, tid, data⟩] } w := by
  obtain ⟨-, holder, hrevs, hother⟩ := B.store_ok hstore
  intro w hw
  rcases List.mem_append.mp hw with hw | hw
  · obtain ⟨⟨r, hr, htid⟩, hall⟩ := hlog w hw
    by_cases hoid : w.oid = oid
    · rw [Written, hoid, hrevs]
      rw [hoid] at hr hall
      refine ⟨⟨r, List.mem_append_left _ hr, htid⟩, fun r' hr' htid' => ?_⟩
      rcases List.mem_append.mp hr' with hr' | hr'
      · exact hall r' hr' htid'
      · -- the new revision is a later one
        obtain rfl := List.mem_singleton.mp hr'
        have := holder r hr
        simp only at htid'
        omega
    · rw [Written, hother w.oid hoid]
      exact ⟨⟨r, hr, htid⟩, hall⟩
  · obtain rfl := List.mem_singleton.mp hw
    rw [Written, hrevs]
    refine ⟨⟨_, List.mem_append_right _ (List.mem_singleton.mpr rfl), rfl⟩, fun r hr htid => ?_⟩
    rcases List.mem_append.mp hr with hr | hr
    · have := holder r hr
      simp only at htid
      omega
    · obtain rfl := List.mem_singleton.mp hr
      refine ⟨rand, U.compress data.bytes, Utilities.packs_compress hU.default data, ?_⟩
      rw [Utilities.transform, Utilities.encrypt, hdefault]
      rfl

/-- Storing the root record with the handle's own encrypter names it. -/
theorem RootNames.store {U : Utilities} {h : DbHandle σ} {oid : Oid} {serial tid : ℕ} {rand : Rand}
    {data : Bytes} {base : σ} {log : List Kept}
    (hdefault : U.encrypters[([] : Bytes)]? = some h.encrypter)
    (hstore : TransformingStorage.store B.lower C U h.rootOid h.base oid serial rand data =
      .ok (tid, base)) (hroot : RootNames B h) :
    RootNames B { h with base := base, log := log } := by
  intro d rest hd name hname hne
  by_cases hoid : h.rootOid = oid
  · subst hoid
    rw [TransformingStorage.store] at hstore
    dsimp only at hd
    rw [B.loadBefore_store hstore, Except.ok.injEq, Option.some.injEq, Prod.mk.injEq] at hd
    obtain ⟨rfl, -⟩ := hd
    rw [Utilities.getEncryptionSignature_transform hdefault, if_neg (by simp)] at hname
    exact (Option.some.inj hname).symm
  · rw [TransformingStorage.store] at hstore
    dsimp only at hd
    rw [B.loadBefore_store_ne hstore hoid] at hd
    exact hroot d rest hd name hname hne

/-- Every undisturbed step keeps the invariant. -/
theorem Sane.step {s : Process σ} (hs : Sane B C L s) (op : Op σ L) (hop : Undisturbed L s op) :
    Sane B C L (step B C L s op).2 := by
  cases op with
  | «open» cfg key rootOid base hcfg => exact hs.open cfg key rootOid base hcfg
  | load i oid tid =>
    have hstep : (Process.step B C L s (.load i oid tid)).2 = s := by
      rw [Process.step]
      split <;> rfl
    rw [hstep]
    exact hs
  | store i oid serial rand data =>
    rcases hi : s.handles[i]? with _ | h
    · have hstep : (Process.step B C L s (.store i oid serial rand data)).2 = s := by
        rw [Process.step]
        simp only [hi]
      rw [hstep]
      exact hs
    · rcases hstore : TransformingStorage.store B.lower C s.utilities h.rootOid h.base oid serial
        rand data.bytes with e | ⟨tid, base⟩
      · have hstep : (Process.step B C L s (.store i oid serial rand data)).2 = s := by
          rw [Process.step]
          simp only [hi, hstore]
        rw [hstep]
        exact hs
      · have hstep : (Process.step B C L s (.store i oid serial rand data)).2 = { s with
            handles := s.handles.set i { h with
              base := base
              log := h.log ++ [⟨oid, tid, data⟩] } } := by
          rw [Process.step]
          simp only [hi, hstore]
        rw [hstep]
        have hmem : h ∈ s.handles := List.mem_of_getElem? hi
        have hdefault : s.utilities.encrypters[([] : Bytes)]? = some h.encrypter :=
          hs.last.trans (hop h hi)
        refine ⟨hs.ready, hs.last, hs.keyed, hs.stocked, fun k hk => ?_, fun k hk => ?_⟩
        · rcases List.mem_or_eq_of_mem_set hk with hk | rfl
          · exact hs.root k hk
          · exact (hs.root h hmem).store hdefault hstore
        · rcases List.mem_or_eq_of_mem_set hk with hk | rfl
          · exact hs.written k hk
          · exact Written.store hs.stocked hdefault hstore (hs.written h hmem)

/-! ## Steps that are right

A load by a handle finds the encrypter of the record if the database opened last has the key of
the handle and selected the same encrypter. A store uses the default encrypter, which is the one
of that database. -/

/-- The handle's encrypter is found under the name a record of it was written with. -/
theorem Sane.reader {s : Process σ} (hs : Sane B C L s) {i : ℕ} {oid : Oid} {tid : ℕ}
    (hop : Undisturbed L s (.load i oid tid)) {h : DbHandle σ} (hi : s.handles[i]? = some h) :
    s.utilities.encrypters[if decide (oid ≠ h.rootOid) then [] else h.encrypter.name.bytes]? =
      some h.encrypter := by
  have hop := hop h hi
  by_cases hoid : oid = h.rootOid
  · rw [if_pos hoid] at hop
    obtain ⟨⟨cls, hlast⟩, hclass⟩ := hop
    have hkeyed := hs.keyed _ hlast
    have hne : h.encrypter.name.bytes ≠ [] := hkeyed.classes.ne _ _ hclass
    rw [if_neg (by simpa using hoid), hkeyed.encrypters _ hne]
    exact congrArg (Option.map _) hclass
  · rw [if_neg hoid] at hop
    rw [if_pos (by simpa using hoid), hs.last, hop]

/-- An undisturbed step is right. -/
theorem Sane.right {s : Process σ} (hs : Sane B C L s) (op : Op σ L) (hop : Undisturbed L s op) :
    Right B C L s op := by
  cases op with
  | «open» => trivial
  | store i oid serial rand data =>
    intro h hi
    refine ⟨hs.root h (List.mem_of_getElem? hi), fun tid base hstore => ?_⟩
    obtain ⟨-, -, hrevs, -⟩ := B.store_ok hstore
    have hdefault : s.utilities.encrypters[([] : Bytes)]? = some h.encrypter :=
      hs.last.trans (hop h hi)
    rw [Utilities.transform, Utilities.encrypt, hdefault] at hrevs
    exact ⟨_, hrevs ▸ List.mem_append_right _ (List.mem_singleton.mpr rfl)⟩
  | load i oid tid =>
    intro h hi data serial tend hload w hw hoid htid
    have hread := hs.reader hop hi
    rw [B.loadBefore_eq] at hload
    obtain ⟨hrev, -⟩ := loadRevision_some hload
    obtain ⟨-, hall⟩ := hs.written h (List.mem_of_getElem? hi) w hw
    obtain ⟨rand, x, hx, hdata⟩ := hall _ (hoid ▸ hrev) htid.symm
    dsimp only at hdata
    rw [hoid] at hdata
    have hlower : B.lower.loadBefore h.base oid tid = .ok (some (data, serial, tend)) :=
      (B.loadBefore_eq _ _ _).trans hload
    rw [TransformingStorage.loadBefore, hlower]
    dsimp only
    rw [hdata, Utilities.untransform, Utilities.decrypt_encrypt hread]
    change (s.utilities.decompress x >>= _) = _
    rw [hx.decompress]
    rfl

/-- **Independence of handles**: in every run in which the steps of each handle are
`Undisturbed`, they are all right, whatever databases are opened in the same process. -/
theorem independent_of_undisturbed (B : BaseStorage σ) (C : Ciphers) (L : Library)
    (ops : List (Op σ L))
    (h : (step B C L).Along (Undisturbed L) ⟨Utilities.empty, [], none⟩ ops) :
    (step B C L).Along (Right B C L) ⟨Utilities.empty, [], none⟩ ops := by
  refine h.imp (fun s op hs hop => Sane.step hs op hop) (fun s op hs hop => Sane.right hs op hop) ?_
  exact ⟨Utilities.ready_empty, by simp [Utilities.empty], by simp,
    ⟨by simp [Utilities.empty], fun c hc => by simp [Utilities.empty] at hc⟩, by simp, by simp⟩

/-- No compressors. -/
def noCompressors : Library := ⟨∅, by simp⟩

/-- One opening with a key, of a database of its own. -/
def openAes (key : Key) : Op MemoryStorage noCompressors :=
  .open (aesConfig true) key z64 plainRoot (by simp [aesConfig])

/-- The database opened last stores a record and loads it. -/
theorem independent_of_undisturbed_example :
    (step MemoryStorage.base maskCiphers noCompressors).Along
      (Right MemoryStorage.base maskCiphers noCompressors) ⟨Utilities.empty, [], none⟩
      [openAes (.all 9), openAes (.all 7), .store 1 (p64 1) 0 .zeros ⟨[128, 5], by decide⟩,
        .load 1 (p64 1) maxtid] := by
  refine independent_of_undisturbed MemoryStorage.base maskCiphers noCompressors _
    ⟨trivial, trivial, ?_, ?_, trivial⟩
  · change ∀ h ∈ _, _ = some (DbHandle.encrypter h)
    decide +kernel
  · intro h hi
    rw [if_neg]
    · revert h
      decide +kernel
    · revert h
      decide +kernel

/-- After another database is opened with another key, the first one cannot read its record. -/
theorem dependent_after_open :
    (step MemoryStorage.base maskCiphers noCompressors).outputs ⟨Utilities.empty, [], none⟩
      [openAes (.all 7), .store 0 (p64 1) 0 .zeros ⟨[128, 5], by decide⟩, openAes (.all 9),
        .load 0 (p64 1) maxtid] = [.ok none, .ok none, .ok none, .error wrongKey] := by
  decide +kernel

end Process

end Zerodb
