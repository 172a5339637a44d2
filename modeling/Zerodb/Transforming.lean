import Zerodb.Transform

/-!
# Transforming: opening a database, and the storage that transforms records

Constructing a `DB` registers its encrypter classes and replaces the encrypters of all
registered classes by instances with its key (`initDefaultCrypto`); constructing the
`TransformingStorage` then makes the encrypter named by the root record the default one
(`configureDefault`). `initDefaultCrypto_spec` and `opened_default` say what is registered
afterwards: instances with the new key only, and which one is the default.
-/

namespace Zerodb

/-! ## A registry with one key

`init` goes through the registered classes and replaces the encrypter of each by a new one. That
the old ones go is not evident: an encrypter is unregistered only as the default one, and
otherwise overwritten by its successor of the same name. `Reinited` is the invariant of the loop,
and it needs every encrypter to be registered under its own name (`WellNamed`). -/

namespace Utilities

/-- `unregisterUtility(utility)`: it has no name there, so that only the default
registration goes, and only if it is this one. -/
def unregister (U : Utilities) (utility : Encrypter) : Utilities :=
  if U.encrypters[([] : Bytes)]? = some utility then
    { U with encrypters := U.encrypters.erase [] }
  else U

/-- One turn of the loop of `init`. The constructor registers the new encrypter, too. -/
def reinit (key : Key) (U : Utilities) (p : Bytes × EncrypterClass) : Utilities :=
  let U := match U.encrypters[p.1]? with
    | some utility => U.unregister utility
    | none => U
  (U.register ⟨p.2, key⟩).register ⟨p.2, key⟩

/-- `init`. -/
def init (U : Utilities) (key : Key) : Utilities :=
  (U.classes.toList.filter (·.1 ≠ [])).foldl (reinit key) U

/-- The encrypter classes of a subclass of `DB`, and its compressor. -/
structure Config where
  /-- `encrypter`, as a list -/
  encrypters : List EncrypterClass
  /-- `compressor` -/
  compressor : Option CommonCompressor
  /-- there is one -/
  ne : encrypters ≠ []
  /-- the classes set `name` -/
  named : ∀ cls ∈ encrypters, cls.name.bytes ≠ []
  /-- to different names -/
  nodup : (encrypters.map EncrypterClass.name).Nodup

/-- The classes are registered, the first one as default. -/
def registerClasses (U : Utilities) : List EncrypterClass → Utilities
  | [] => U
  | cls :: rest => rest.foldl (fun U cls => U.registerClass cls false) (U.registerClass cls true)

/-- `_init_default_crypto`. -/
def initDefaultCrypto (U : Utilities) (cfg : Config) (key : Key) : Utilities :=
  let U := U.registerClasses cfg.encrypters
  let U := match cfg.compressor with
    | some c => U.registerCompressor c true
    | none => U
  U.init key

/-- `TransformingStorage.__init__`: the encrypter named by the root record becomes the
default one. -/
def configureDefault (U : Utilities) (rootData : Bytes) : Except Exc Utilities :=
  match getEncryptionSignature rootData with
  | some (b :: sig) => do
    let name ← decode (b :: sig)
    let e ← getUtility U.encrypters name
    .ok { U with encrypters := U.encrypters.insert [] e }
  | _ => .ok U

/-- `base.loadBefore(root_oid, maxtid)[0]`, from what `loadBefore` gives. -/
def rootRecord : Except Exc (Option Record) → Except Exc Bytes
  | .ok (some (data, _)) => .ok data
  | .ok none => .error .typeError
  | .error e => .error e

/-- The registry after `DB.__init__`, with what `base.loadBefore(root_oid, maxtid)` gave,
and how it ended. -/
def openDb (U : Utilities) (cfg : Config) (key : Key) (root : Except Exc (Option Record)) :
    Except Exc Unit × Utilities :=
  let U := U.initDefaultCrypto cfg key
  match rootRecord root >>= U.configureDefault with
  | .ok V => (.ok (), V)
  | .error e => (.error e, U)

/-- The class of the encrypter the root record names, or of the default one. -/
def rootClass (classes : BTree Bytes EncrypterClass) (rootData : Bytes) : Option EncrypterClass :=
  match getEncryptionSignature rootData with
  | some (b :: sig) => classes[b :: sig]?
  | _ => classes[([] : Bytes)]?

variable {U : Utilities} {key : Key}

/-- Every utility has a name and is registered under it, and under no other name unless
it is the default one. -/
structure WellNamed {α : Type} (name : α → Name) (t : BTree Bytes α) : Prop where
  /-- none has the empty name -/
  ne : ∀ (n : Bytes) u, t[n]? = some u → (name u).bytes ≠ []
  /-- each is registered under its own name, or as default -/
  eq : ∀ (n : Bytes) u, n ≠ [] → t[n]? = some u → (name u).bytes = n
  /-- the default one is registered under its name -/
  default : Named name t

/-- The default encrypter is removed exactly if it has the name. -/
theorem unregister_default (h : WellNamed Encrypter.name U.encrypters) {n : Bytes} (hn : n ≠ [])
    {V : Utilities}
    (hV : V = match U.encrypters[n]? with | some u => U.unregister u | none => U) :
    V.classes = U.classes ∧ V.compressors = U.compressors ∧
      (∀ m : Bytes, m ≠ [] → V.encrypters[m]? = U.encrypters[m]?) ∧
      ∀ e, V.encrypters[([] : Bytes)]? = some e ↔
        U.encrypters[([] : Bytes)]? = some e ∧ e.name.bytes ≠ n := by
  have hdefault : ∀ e, U.encrypters[([] : Bytes)]? = some e → e.name.bytes = n →
      U.encrypters[n]? = some e := fun e he hne => hne ▸ h.default e he
  rcases hget : U.encrypters[n]? with _ | u
  · rw [hget] at hV
    subst hV
    refine ⟨rfl, rfl, fun _ _ => rfl, fun e => ⟨fun he => ⟨he, fun hne => ?_⟩, And.left⟩⟩
    rw [hdefault e he hne] at hget
    exact absurd hget (Option.some_ne_none e)
  · rw [hget] at hV
    subst hV
    dsimp only
    rw [unregister]
    split
    · rename_i hu
      refine ⟨rfl, rfl, fun m hm => BTree.get_erase_ne _ (Ne.symm hm), fun e => ?_⟩
      rw [BTree.get_erase, if_pos rfl]
      refine ⟨fun he => absurd he.symm (Option.some_ne_none e), fun ⟨he, hne⟩ => absurd ?_ hne⟩
      obtain rfl := Option.some.inj (he.symm.trans hu)
      exact h.eq n e hn hget
    · rename_i hu
      refine ⟨rfl, rfl, fun _ _ => rfl, fun e => ⟨fun he => ⟨he, fun hne => hu ?_⟩, And.left⟩⟩
      rw [he, ← hget, hdefault e he hne]

/-- The state of `init` when the classes in `done` have had their turn. -/
structure Reinited (U₀ : Utilities) (key : Key) (done : List (Bytes × EncrypterClass))
    (U : Utilities) : Prop where
  /-- the classes stay -/
  classes : U.classes = U₀.classes
  /-- the compressors stay -/
  compressors : U.compressors = U₀.compressors
  /-- the encrypters of these classes have the key -/
  keyed : ∀ p ∈ done, U.encrypters[p.1]? = some ⟨p.2, key⟩
  /-- so has the default one, if its class is among them -/
  default : ∀ p ∈ done, U₀.classes[([] : Bytes)]? = some p.2 →
    U.encrypters[([] : Bytes)]? = some ⟨p.2, key⟩
  /-- the encrypters of other names stay -/
  other : ∀ n : Bytes, n ≠ [] → (∀ p ∈ done, p.1 ≠ n) → U.encrypters[n]? = U₀.encrypters[n]?
  /-- the encrypters are well named -/
  named : WellNamed Encrypter.name U.encrypters

@[simp] theorem register_classes (U : Utilities) (e : Encrypter) :
    (U.register e).classes = U.classes := by
  rw [register]
  split <;> rfl

@[simp] theorem register_compressors (U : Utilities) (e : Encrypter) :
    (U.register e).compressors = U.compressors := by
  rw [register]
  split <;> rfl

/-- What is found after a registration. -/
theorem register_get {d : EncrypterClass} (hd : U.classes[([] : Bytes)]? = some d) (e : Encrypter)
    (k : Bytes) : (U.register e).encrypters[k]? =
      if e.name.bytes = k ∨ (k = [] ∧ d = e.cls) then some e else U.encrypters[k]? := by
  rw [register_of_class hd]
  dsimp only
  split <;> simp only [BTree.get_insert] <;> grind

/-- Registering again changes nothing. -/
theorem register_register_get {d : EncrypterClass} (hd : U.classes[([] : Bytes)]? = some d)
    (e : Encrypter) (k : Bytes) : ((U.register e).register e).encrypters[k]? =
      if e.name.bytes = k ∨ (k = [] ∧ d = e.cls) then some e else U.encrypters[k]? := by
  have hd' : (U.register e).classes[([] : Bytes)]? = some d := by rw [register_classes, hd]
  rw [register_get hd', register_get hd]
  split <;> rfl

/-- The registry `V` after a turn for a class, against the one before. -/
structure Renewed (U V : Utilities) (d cls : EncrypterClass) (key : Key) : Prop where
  /-- the classes stay -/
  classes : V.classes = U.classes
  /-- the compressors stay -/
  compressors : V.compressors = U.compressors
  /-- the encrypters of other names stay -/
  other : ∀ k : Bytes, k ≠ [] → k ≠ cls.name.bytes → V.encrypters[k]? = U.encrypters[k]?
  /-- that of the class has the key -/
  own : V.encrypters[cls.name.bytes]? = some ⟨cls, key⟩
  /-- the default one becomes that of the default class, and is not left to another key -/
  default : ∀ u, V.encrypters[([] : Bytes)]? = some u ↔ if d = cls then u = ⟨cls, key⟩
    else U.encrypters[([] : Bytes)]? = some u ∧ u.name.bytes ≠ cls.name.bytes

/-! ## One turn of `init`

A turn makes a new encrypter of a class, which registers itself under its name in place of the old
one, and as the default one if the class is the default. The old one is the default afterwards in
no case. -/

/-- A turn. -/
theorem reinit_renewed (h : WellNamed Encrypter.name U.encrypters) {d cls : EncrypterClass}
    (hd : U.classes[([] : Bytes)]? = some d) (hn : cls.name.bytes ≠ []) :
    Renewed U (reinit key U (cls.name.bytes, cls)) d cls key := by
  rw [reinit]
  generalize hV : (match U.encrypters[cls.name.bytes]? with
    | some u => U.unregister u | none => U) = V
  obtain ⟨hVc, hVz, hVe, hVd⟩ := unregister_default h hn hV.symm
  have hdV : V.classes[([] : Bytes)]? = some d := by rw [hVc, hd]
  set e : Encrypter := ⟨cls, key⟩ with he
  have hename : e.name.bytes = cls.name.bytes := rfl
  have hget := register_register_get hdV e
  refine ⟨?_, ?_, fun k hk hkn => ?_, ?_, fun u => ?_⟩
  · rw [register_classes, register_classes, hVc]
  · rw [register_compressors, register_compressors, hVz]
  · rw [hget, if_neg (by rintro (hh | ⟨hh, -⟩); exacts [hkn (hh ▸ hename), hk hh]), hVe k hk]
  · rw [hget, if_pos (.inl hename)]
  · rw [hget]
    split_ifs with h₁ h₂ h₂
    · rw [Option.some.injEq, eq_comm]
    · exact absurd (h₁.resolve_left fun hh => hn (hename ▸ hh)).2 h₂
    · exact absurd (.inr ⟨rfl, h₂⟩) h₁
    · exact hVd u

/-- After a turn the encrypters are well named. -/
theorem Renewed.named {V : Utilities} {d cls : EncrypterClass} (hV : Renewed U V d cls key)
    (h : WellNamed Encrypter.name U.encrypters) (hn : cls.name.bytes ≠ []) :
    WellNamed Encrypter.name V.encrypters := by
  have hname : ∀ u, some (⟨cls, key⟩ : Encrypter) = some u → u.name.bytes = cls.name.bytes := by
    rintro u ⟨⟩
    rfl
  refine ⟨fun k u hu => ?_, fun k u hk hu => ?_, fun u hu => ?_⟩
  · by_cases hk : k = []
    · subst hk
      rw [hV.default] at hu
      split at hu
      · rw [hu]
        exact hn
      · exact h.ne _ u hu.1
    · by_cases hkn : k = cls.name.bytes
      · subst hkn
        rw [hV.own] at hu
        rw [hname u hu]
        exact hn
      · exact h.ne k u (hV.other k hk hkn ▸ hu)
  · by_cases hkn : k = cls.name.bytes
    · subst hkn
      rw [hV.own] at hu
      exact hname u hu
    · exact h.eq k u hk (hV.other k hk hkn ▸ hu)
  · rw [hV.default] at hu
    split at hu
    · rw [hu]
      exact hV.own
    · rw [hV.other _ (h.ne _ u hu.1) hu.2]
      exact h.default u hu.1

theorem Reinited.step {U₀ : Utilities} {d : EncrypterClass} {done : List (Bytes × EncrypterClass)}
    (h : Reinited U₀ key done U) (hc : WellNamed EncrypterClass.name U₀.classes)
    (hd : U₀.classes[([] : Bytes)]? = some d)
    (hdone : ∀ p ∈ done, p.1 ≠ [] ∧ U₀.classes[p.1]? = some p.2) {p : Bytes × EncrypterClass}
    (hp : p.1 ≠ [] ∧ U₀.classes[p.1]? = some p.2) (hnew : ∀ q ∈ done, q.1 ≠ p.1) :
    Reinited U₀ key (done ++ [p]) (reinit key U p) := by
  obtain ⟨n, cls⟩ := p
  obtain ⟨hn, hcls⟩ := hp
  obtain rfl : cls.name.bytes = n := hc.eq n cls hn hcls
  have hV : Renewed U (reinit key U (cls.name.bytes, cls)) d cls key :=
    reinit_renewed h.named (h.classes ▸ hd) hn
  refine ⟨hV.classes.trans h.classes, hV.compressors.trans h.compressors, fun q hq => ?_,
    fun q hq hqd => ?_, fun k hk hkp => ?_, hV.named h.named hn⟩
  · rcases List.mem_append.mp hq with hq | hq
    · rw [hV.other q.1 (hdone q hq).1 (hnew q hq), h.keyed q hq]
    · obtain rfl := List.mem_singleton.mp hq
      exact hV.own
  · have hdq : d = q.2 := Option.some.inj (hd.symm.trans hqd)
    rw [hV.default]
    rcases List.mem_append.mp hq with hq | hq
    · have hqn : q.2.name.bytes ≠ cls.name.bytes := fun hh =>
        hnew q hq ((hc.eq q.1 q.2 (hdone q hq).1 (hdone q hq).2).symm.trans hh)
      rw [if_neg fun hdc => hqn (by rw [← hdq, hdc])]
      exact ⟨h.default q hq hqd, hqn⟩
    · obtain rfl := List.mem_singleton.mp hq
      rw [if_pos hdq]
  · rw [hV.other k hk (hkp (cls.name.bytes, cls) (by simp)).symm]
    exact h.other k hk fun q hq => hkp q (List.mem_append_left _ hq)

/-- All classes get their turn. -/
theorem Reinited.steps {U₀ : Utilities} {d : EncrypterClass}
    {done todo : List (Bytes × EncrypterClass)} (h : Reinited U₀ key done U)
    (hc : WellNamed EncrypterClass.name U₀.classes) (hd : U₀.classes[([] : Bytes)]? = some d)
    (hall : ∀ p ∈ done ++ todo, p.1 ≠ [] ∧ U₀.classes[p.1]? = some p.2)
    (hnodup : ((done ++ todo).map Prod.fst).Nodup) :
    Reinited U₀ key (done ++ todo) (todo.foldl (reinit key) U) := by
  induction todo generalizing done U with
  | nil => rwa [List.append_nil]
  | cons p todo ih =>
    have hsplit : done ++ p :: todo = (done ++ [p]) ++ todo := by simp
    have hnew : ∀ q ∈ done, q.1 ≠ p.1 := by
      intro q hq hqp
      rw [List.map_append, List.nodup_append] at hnodup
      exact hnodup.2.2 _ (List.mem_map_of_mem hq) _ (by simp) hqp
    have hdone : ∀ q ∈ done, q.1 ≠ [] ∧ U₀.classes[q.1]? = some q.2 := fun q hq =>
      hall q (List.mem_append_left _ hq)
    have hstep := h.step hc hd hdone (hall p (by simp)) hnew
    rw [hsplit] at hall hnodup ⊢
    exact ih hstep hall hnodup

/-! ## After `init`

All classes have had their turn, so that every encrypter that is registered has the new key. -/

/-- What holds of the registry of a process between constructions. -/
structure Ready (U : Utilities) : Prop where
  /-- the classes are well named -/
  classes : WellNamed EncrypterClass.name U.classes
  /-- the encrypters are well named -/
  encrypters : WellNamed Encrypter.name U.encrypters
  /-- every encrypter has the name of a class -/
  known : ∀ n : Bytes, n ≠ [] → U.classes[n]? = none → U.encrypters[n]? = none

/-- All encrypters have the key. -/
structure Keyed (key : Key) (U : Utilities) : Prop where
  /-- the classes are well named -/
  classes : WellNamed EncrypterClass.name U.classes
  /-- the encrypters are the instances of the classes -/
  encrypters : ∀ n : Bytes, n ≠ [] → U.encrypters[n]? = U.classes[n]?.map (⟨·, key⟩)
  /-- the default one is one of them -/
  default : ∃ cls, U.classes[cls.name.bytes]? = some cls ∧
    U.encrypters[([] : Bytes)]? = some ⟨cls, key⟩

theorem ready_empty : Ready empty where
  classes := ⟨by simp [empty], by simp [empty], fun u hu => by simp [empty] at hu⟩
  encrypters := ⟨by simp [empty], by simp [empty], fun u hu => by simp [empty] at hu⟩
  known := by simp [empty]

theorem Keyed.ready (h : Keyed key U) : Ready U := by
  obtain ⟨cls, hcls, hdefault⟩ := h.default
  have hne : cls.name.bytes ≠ [] := h.classes.ne _ _ hcls
  refine ⟨h.classes, ⟨fun n u hu => ?_, fun n u hn hu => ?_, fun u hu => ?_⟩, fun n hn hc => ?_⟩
  · by_cases hn : n = []
    · subst hn
      rw [hdefault, Option.some.injEq] at hu
      exact hu ▸ hne
    · rw [h.encrypters n hn, Option.map_eq_some_iff] at hu
      obtain ⟨c, hc, rfl⟩ := hu
      exact h.classes.ne n c hc
  · rw [h.encrypters n hn, Option.map_eq_some_iff] at hu
    obtain ⟨c, hc, rfl⟩ := hu
    exact h.classes.eq n c hn hc
  · rw [hdefault, Option.some.injEq] at hu
    subst hu
    change U.encrypters[cls.name.bytes]? = _
    rw [h.encrypters _ hne, hcls, Option.map_some]
  · rw [h.encrypters n hn, hc, Option.map_none]

/-- **After `init`** all encrypters have the key, and the default one is of the default
class. -/
theorem init_spec {d : EncrypterClass} (h : Ready U) (hd : U.classes[([] : Bytes)]? = some d) :
    (U.init key).classes = U.classes ∧ (U.init key).compressors = U.compressors ∧
      Keyed key (U.init key) ∧ (U.init key).encrypters[([] : Bytes)]? = some ⟨d, key⟩ := by
  set todo := U.classes.toList.filter (·.1 ≠ []) with htodo
  have hmem : ∀ p, p ∈ todo ↔ p.1 ≠ [] ∧ U.classes[p.1]? = some p.2 := by
    intro p
    rw [htodo, List.mem_filter, Std.ExtTreeMap.mem_toList_iff_getElem?_eq_some, and_comm]
    simp
  have hnodup : (todo.map Prod.fst).Nodup := by
    refine List.pairwise_map.mpr (List.Pairwise.sublist List.filter_sublist
      (Std.ExtTreeMap.distinct_keys_toList.imp fun hne heq => hne ?_))
    rw [heq, Std.compare_eq_iff_eq]
  have hstart : Reinited U key [] U :=
    ⟨rfl, rfl, by simp, by simp, fun _ _ _ => rfl, h.encrypters⟩
  have hend := hstart.steps h.classes hd (fun p hp => (hmem p).mp hp) hnodup
  rw [List.nil_append] at hend
  have hdn : d.name.bytes ≠ [] := h.classes.ne _ d hd
  have hdmem : (d.name.bytes, d) ∈ todo := (hmem _).mpr ⟨hdn, h.classes.default d hd⟩
  have hdefault : (U.init key).encrypters[([] : Bytes)]? = some ⟨d, key⟩ := hend.default _ hdmem hd
  have hclasses : (U.init key).classes = U.classes := hend.classes
  refine ⟨hclasses, hend.compressors, ⟨hclasses ▸ h.classes, fun n hn => ?_, d, ?_, hdefault⟩,
    hdefault⟩
  · rw [hclasses]
    rcases hc : U.classes[n]? with _ | cls
    · refine (hend.other n hn fun p hp hpn => ?_).trans (h.known n hn hc)
      exact absurd (hpn ▸ ((hmem p).mp hp).2) (by rw [hc]; exact Option.some_ne_none _ ∘ Eq.symm)
    · exact hend.keyed (n, cls) ((hmem _).mpr ⟨hn, hc⟩)
  · rw [hclasses]
    exact h.classes.default d hd

/-! ## Opening

Construction is three steps, with a lemma each: the classes are registered, their encrypters
renewed, and the default one chosen by the root record. The first two leave a registry in which
all encrypters have the new key, and the last one can only exchange one of these for another. -/

/-- One more utility under its name, which the default one does not have. -/
theorem WellNamed.insert {α : Type} {name : α → Name} {t : BTree Bytes α} (h : WellNamed name t)
    {u : α} (hu : (name u).bytes ≠ []) (hother : ∀ d, t[([] : Bytes)]? = some d → name d ≠ name u) :
    WellNamed name (t.insert (name u).bytes u) := by
  refine ⟨fun n v hv => ?_, fun n v hn hv => ?_,
    h.default.insert fun d hd hname => absurd hname (hother d hd)⟩
  · rw [BTree.get_insert] at hv
    split at hv
    · exact Option.some.inj hv ▸ hu
    · exact h.ne n v hv
  · rw [BTree.get_insert] at hv
    split at hv
    · rename_i hun
      exact Option.some.inj hv ▸ hun
    · exact h.eq n v hn hv

/-- One more utility under its name and as the default one. -/
theorem WellNamed.insert_default {α : Type} {name : α → Name} {t : BTree Bytes α}
    (h : WellNamed name t) {u : α} (hu : (name u).bytes ≠ []) :
    WellNamed name ((t.insert (name u).bytes u).insert [] u) := by
  refine ⟨fun n v hv => ?_, fun n v hn hv => ?_,
    Named.insert_default (by rw [BTree.get_insert, if_pos rfl])⟩
  · simp only [BTree.get_insert] at hv
    split_ifs at hv
    · exact Option.some.inj hv ▸ hu
    · exact Option.some.inj hv ▸ hu
    · exact h.ne n v hv
  · rw [BTree.get_insert_ne _ (Ne.symm hn), BTree.get_insert] at hv
    split at hv
    · rename_i hun
      exact Option.some.inj hv ▸ hun
    · exact h.eq n v hn hv

/-- What a registry is after the classes of a configuration are registered. -/
structure Classed (l : List EncrypterClass) (d : EncrypterClass) (U V : Utilities) : Prop where
  /-- the classes are well named -/
  classes : WellNamed EncrypterClass.name V.classes
  /-- this is the default one -/
  default : V.classes[([] : Bytes)]? = some d
  /-- these are registered -/
  registered : ∀ cls ∈ l, V.classes[cls.name.bytes]? = some cls
  /-- the others stay -/
  other : ∀ n : Bytes, n ≠ [] → (∀ cls ∈ l, cls.name.bytes ≠ n) → V.classes[n]? = U.classes[n]?
  /-- the encrypters stay -/
  encrypters : V.encrypters = U.encrypters
  /-- the compressors stay -/
  compressors : V.compressors = U.compressors

theorem registerClasses_spec {cls : EncrypterClass} {rest : List EncrypterClass}
    (h : WellNamed EncrypterClass.name U.classes) (hne : ∀ c ∈ cls :: rest, c.name.bytes ≠ [])
    (hnodup : ((cls :: rest).map EncrypterClass.name).Nodup) :
    Classed (cls :: rest) cls U (U.registerClasses (cls :: rest)) := by
  rw [registerClasses]
  induction rest using List.reverseRecOn with
  | nil =>
    have hcls := hne cls (by simp)
    refine ⟨h.insert_default hcls, ?_, fun c hc => ?_, fun n hn hother => ?_, rfl, rfl⟩
    · simp only [List.foldl_nil, registerClass, if_pos, BTree.get_insert]
    · obtain rfl := List.mem_singleton.mp hc
      simp only [List.foldl_nil, registerClass, if_pos, BTree.get_insert, if_neg (Ne.symm hcls)]
    · simp only [List.foldl_nil, registerClass, if_pos, BTree.get_insert,
        if_neg (Ne.symm hn), if_neg (hother cls (by simp))]
  | append_singleton rest c ih =>
    have ih := ih (fun x hx => hne x (by
      rcases List.mem_cons.mp hx with rfl | hx
      · exact List.mem_cons_self
      · exact List.mem_cons_of_mem _ (List.mem_append_left _ hx)))
      (hnodup.sublist (List.Sublist.map _ ((List.sublist_append_left rest [c]).cons_cons cls)))
    have hc := hne c (by simp)
    have hnew : ∀ x ∈ cls :: rest, x.name ≠ c.name := by
      intro x hx hxc
      rw [← List.cons_append, List.map_append, List.nodup_append] at hnodup
      exact hnodup.2.2 _ (List.mem_map_of_mem hx) _ (by simp) hxc
    rw [List.foldl_append, List.foldl_cons, List.foldl_nil]
    generalize (rest.foldl (fun U cls => U.registerClass cls false) (U.registerClass cls true)) = V
      at ih
    have hget : ∀ n : Bytes, (V.registerClass c false).classes[n]? =
        if c.name.bytes = n then some c else V.classes[n]? := fun n => by
      simp only [registerClass, Bool.false_eq_true, if_false, BTree.get_insert]
    refine ⟨ih.classes.insert hc fun d hd => ?_, ?_, fun x hx => ?_, fun n hn hother => ?_,
      ih.encrypters, ih.compressors⟩
    · rw [ih.default, Option.some.injEq] at hd
      exact hd ▸ hnew cls (by simp)
    · rw [hget, if_neg hc, ih.default]
    · rw [hget]
      rw [← List.cons_append, List.mem_append, List.mem_singleton] at hx
      rcases hx with hx | rfl
      · rw [if_neg fun hh => hnew x hx (Name.ext hh.symm), ih.registered x hx]
      · rw [if_pos rfl]
    · rw [hget, if_neg (hother c (by simp))]
      exact ih.other n hn fun x hx => hother x (by
        rw [← List.cons_append]
        exact List.mem_append_left _ hx)

/-- The compressors after a database is opened: its own one is the default. -/
def withCompressor (U : Utilities) (cfg : Config) : BTree Bytes CommonCompressor :=
  match cfg.compressor with
  | some c => (U.compressors.insert c.name.bytes c).insert [] c
  | none => U.compressors

/-- **After `_init_default_crypto`** all encrypters have the key, and the default one is of
the first class. -/
theorem initDefaultCrypto_spec (h : Ready U) (cfg : Config) (key : Key) :
    (U.initDefaultCrypto cfg key).classes = (U.registerClasses cfg.encrypters).classes ∧
      (U.initDefaultCrypto cfg key).compressors = U.withCompressor cfg ∧
      Keyed key (U.initDefaultCrypto cfg key) ∧
      ∃ cls, cfg.encrypters.head? = some cls ∧
        (U.initDefaultCrypto cfg key).encrypters[([] : Bytes)]? = some ⟨cls, key⟩ := by
  obtain ⟨cls, rest, hl⟩ := List.exists_cons_of_ne_nil cfg.ne
  have hspec := registerClasses_spec h.classes (hl ▸ cfg.named) (hl ▸ cfg.nodup)
  rw [← hl] at hspec
  rw [initDefaultCrypto]
  generalize hV : (match cfg.compressor with
    | some c => (U.registerClasses cfg.encrypters).registerCompressor c true
    | none => U.registerClasses cfg.encrypters) = V
  have hcompressors : V.compressors = U.withCompressor cfg := by
    subst hV
    rw [withCompressor]
    rcases cfg.compressor with _ | c
    · exact hspec.compressors
    · simp only [registerCompressor, if_pos, hspec.compressors]
  obtain ⟨hclasses, hencrypters⟩ : V.classes = (U.registerClasses cfg.encrypters).classes ∧
      V.encrypters = U.encrypters := by
    subst hV
    rcases cfg.compressor with _ | c <;> exact ⟨rfl, hspec.encrypters⟩
  have hready : Ready V := by
    refine ⟨hclasses ▸ hspec.classes, hencrypters ▸ h.encrypters, fun n hn hc => ?_⟩
    rw [hclasses] at hc
    rw [hencrypters]
    apply h.known n hn
    rw [← hspec.other n hn fun x hx hxn => ?_, hc]
    have := hspec.registered x hx
    rw [hxn, hc] at this
    exact absurd this.symm (Option.some_ne_none x)
  have hd : V.classes[([] : Bytes)]? = some cls := by rw [hclasses, hspec.default]
  obtain ⟨hc, hz, hkeyed, hdefault⟩ := @init_spec V key cls hready hd
  exact ⟨hc.trans hclasses, hz.trans hcompressors, hkeyed, cls, by rw [hl]; rfl, hdefault⟩

/-- The default encrypter of a process in which all encrypters have the key is replaced by
the one the root record names. -/
theorem Keyed.configureDefault (h : Keyed key U) {d : EncrypterClass}
    (hd : U.classes[([] : Bytes)]? = some d)
    (hdefault : U.encrypters[([] : Bytes)]? = some ⟨d, key⟩) (rootData : Bytes) :
    match rootClass U.classes rootData with
    | some cls => ∃ V, U.configureDefault rootData = .ok V ∧ Keyed key V ∧
        V.classes = U.classes ∧ V.compressors = U.compressors ∧
        V.encrypters[([] : Bytes)]? = some ⟨cls, key⟩
    | none => ∃ e, U.configureDefault rootData = .error e := by
  rw [rootClass, Utilities.configureDefault]
  rcases hsig : getEncryptionSignature rootData with _ | ⟨_ | ⟨b, sig⟩⟩
  · dsimp only
    rw [hd]
    exact ⟨U, rfl, h, rfl, rfl, hdefault⟩
  · dsimp only
    rw [hd]
    exact ⟨U, rfl, h, rfl, rfl, hdefault⟩
  · dsimp only
    have hget := h.encrypters (b :: sig) (List.cons_ne_nil b sig)
    rcases hcls : U.classes[b :: sig]? with _ | cls
    · dsimp only
      rw [hcls, Option.map_none] at hget
      rw [decode]
      split
      · refine ⟨.componentLookupError, ?_⟩
        change (getUtility U.encrypters (b :: sig) >>= _) = _
        rw [getUtility, hget]
        rfl
      · exact ⟨.unicodeDecodeError, rfl⟩
    · dsimp only
      rw [hcls, Option.map_some] at hget
      have hname : cls.name.bytes = b :: sig := h.classes.eq _ cls (List.cons_ne_nil b sig) hcls
      refine ⟨{ U with encrypters := U.encrypters.insert [] ⟨cls, key⟩ }, ?_,
        ⟨h.classes, fun n hn => ?_, cls, hname ▸ hcls, ?_⟩, rfl, rfl, ?_⟩
      · rw [← hname, decode_name]
        change (getUtility U.encrypters cls.name.bytes >>= _) = _
        rw [hname, getUtility_of_some hget]
        rfl
      · dsimp only
        rw [BTree.get_insert_ne _ (Ne.symm hn), h.encrypters n hn]
      · dsimp only
        rw [BTree.get_insert, if_pos rfl]
      · dsimp only
        rw [BTree.get_insert, if_pos rfl]

/-- The class of the default encrypter after the construction of a database: the one the
root record names; the first one if it names none, or if the database fails to open. -/
def selected (U : Utilities) (cfg : Config) (root : Except Exc (Option Record)) :
    Option EncrypterClass :=
  match rootRecord root with
  | .ok data => rootClass (U.registerClasses cfg.encrypters).classes data <|> cfg.encrypters.head?
  | .error _ => cfg.encrypters.head?

/-- **After a database is opened**, or has failed to open, all encrypters of the process have
its key, and the default one is of the selected class. -/
theorem openDb_spec (h : Ready U) (cfg : Config) (key : Key) (root : Except Exc (Option Record)) :
    Keyed key (U.openDb cfg key root).2 ∧
      (U.openDb cfg key root).2.classes = (U.registerClasses cfg.encrypters).classes ∧
      (U.openDb cfg key root).2.compressors = U.withCompressor cfg ∧
      (∃ cls, U.selected cfg root = some cls ∧
        (U.openDb cfg key root).2.encrypters[([] : Bytes)]? = some ⟨cls, key⟩) ∧
      ((U.openDb cfg key root).1 = .ok () ↔ ∃ data, rootRecord root = .ok data ∧
        (rootClass (U.registerClasses cfg.encrypters).classes data).isSome = true) := by
  obtain ⟨hclasses, hcompressors, hkeyed, d, hd, hdefault⟩ := initDefaultCrypto_spec h cfg key
  have hspec : (U.initDefaultCrypto cfg key).classes[([] : Bytes)]? = some d := by
    obtain ⟨cls, rest, hl⟩ := List.exists_cons_of_ne_nil cfg.ne
    have hcls := registerClasses_spec h.classes (hl ▸ cfg.named) (hl ▸ cfg.nodup)
    rw [hl, List.head?_cons, Option.some.injEq] at hd
    rw [hclasses, hl, hcls.default, hd]
  rcases hroot : rootRecord root with e | data
  · have hopen : U.openDb cfg key root = (.error e, U.initDefaultCrypto cfg key) := by
      rw [openDb, hroot]
      rfl
    rw [hopen, selected, hroot]
    exact ⟨hkeyed, hclasses, hcompressors, ⟨d, hd, hdefault⟩,
      iff_of_false (by rintro ⟨⟩) (by rintro ⟨data, hdata, -⟩; cases hdata)⟩
  · have hconf := hkeyed.configureDefault hspec hdefault data
    have hopen : U.openDb cfg key root =
        match (U.initDefaultCrypto cfg key).configureDefault data with
        | .ok V => (.ok (), V)
        | .error e => (.error e, U.initDefaultCrypto cfg key) := by
      rw [openDb, hroot]
      rfl
    rw [selected, hroot]
    dsimp only
    rw [hclasses] at hconf
    rcases hclass : rootClass (U.registerClasses cfg.encrypters).classes data with _ | cls
    · rw [hclass] at hconf
      obtain ⟨e, he⟩ := hconf
      rw [hopen, he]
      refine ⟨hkeyed, hclasses, hcompressors, ⟨d, hd, hdefault⟩,
        iff_of_false (by rintro ⟨⟩) ?_⟩
      rintro ⟨data', hdata, hsome⟩
      obtain rfl := Except.ok.inj hdata
      rw [hclass] at hsome
      cases hsome
    · rw [hclass] at hconf
      obtain ⟨V, hV, hkeyedV, hclassesV, hcompressorsV, hdefaultV⟩ := hconf
      rw [hopen, hV]
      refine ⟨hkeyedV, hclassesV, hcompressorsV.trans hcompressors, ⟨cls, rfl, hdefaultV⟩,
        iff_of_true rfl ⟨data, rfl, ?_⟩⟩
      rw [hclass]
      rfl

end Utilities

/-! ## The storage

What `ZODB` stores are pickles, which the decoder can never take for something signed. With that
the round trip needs no condition on the record. -/

/-- A record as `ZODB` stores it: pickles. No pickle begins with `.`, which ends one. -/
structure Pickle where
  /-- the bytes -/
  bytes : Bytes
  /-- not a `.` -/
  head_ne : bytes.head? ≠ some 46

namespace TransformingStorage

variable {σ : Type} (base : Lower σ) (C : Ciphers) (U : Utilities) (rootOid : Oid)

/-- `loadBefore`: what the base storage gives is unpacked into three values, so that its
`None` raises a `TypeError`. -/
def loadBefore (s : σ) (oid : Oid) (tid : ℕ) : Except Exc Record :=
  match base.loadBefore s oid tid with
  | .error e => .error e
  | .ok none => .error .typeError
  | .ok (some (data, serial, tend)) => do
    let outData ← U.untransform C data
    .ok (outData, serial, tend)

/-- `store`: the root record is encrypted with the name of the encrypter. -/
def store (s : σ) (oid : Oid) (serial : ℕ) (rand : Rand) (data : Bytes) : Except Exc (ℕ × σ) :=
  base.store s oid serial (U.transform C rand (oid ≠ rootOid) data)

end TransformingStorage

namespace Utilities

variable {U : Utilities}

/-- The signature of a record is the name of the default encrypter, or empty. -/
theorem getEncryptionSignature_transform {C : Ciphers} {e : Encrypter}
    (he : U.encrypters[([] : Bytes)]? = some e) (rand : Rand) (noCipherName : Bool) (x : Bytes) :
    getEncryptionSignature (U.transform C rand noCipherName x) =
      some (if noCipherName then [] else e.name.bytes) := by
  rw [transform, encrypt, he]
  exact getEncryptionSignature_encrypt e rand (U.compress x) noCipherName

/-- What a compressor of the registry may have made of a pickle. -/
def Packs (U : Utilities) (x : Bytes) (data : Pickle) : Prop :=
  x = data.bytes ∨ ∃ c : CommonCompressor, U.compressors[c.name.bytes]? = some c ∧
    c.Shortens data.bytes ∧ x = c.sig ++ c.rawCompress data.bytes

theorem packs_compress (h : Named CommonCompressor.name U.compressors) (data : Pickle) :
    U.Packs (U.compress data.bytes) data := by
  rw [compress]
  rcases hc : U.compressors[([] : Bytes)]? with _ | c
  · exact .inl rfl
  · dsimp only
    rw [CommonCompressor.compress]
    split
    · exact .inr ⟨c, h c hc, ‹_›, rfl⟩
    · exact .inl rfl

theorem Packs.decompress {x : Bytes} {data : Pickle} (h : U.Packs x data) :
    U.decompress x = .ok data.bytes := by
  rcases h with rfl | ⟨c, hc, hshort, rfl⟩
  · have hhead := data.head_ne
    refine if_neg fun hpre => ?_
    obtain ⟨rest, hrest⟩ := hpre
    rw [← hrest] at hhead
    exact hhead rfl
  · exact decompress_shortened hc hshort

end Utilities

/-! ## A configuration to compute with

For the examples here and in the modules on handles. -/

/-- The two encrypters in one order or the other. -/
def aesConfig (newFirst : Bool) : Utilities.Config where
  encrypters := if newFirst then [aes256Encrypter true, aes256EncrypterV0]
    else [aes256EncrypterV0, aes256Encrypter true]
  compressor := none
  ne := by cases newFirst <;> simp
  named := by cases newFirst <;> decide
  nodup := by cases newFirst <;> decide

/-- A storage with a root record that is not encrypted. -/
def plainRoot : MemoryStorage := MemoryStorage.base.empty.append z64 [128]

end Zerodb
