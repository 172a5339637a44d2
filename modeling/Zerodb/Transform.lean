import Zerodb.Storage

/-!
# Transform: compressing and encrypting records

A record is compressed, then encrypted. Both steps sign what they wrote with a prefix,
`.c<name>$` and `.e<name>$` (or `.e$` for the default encrypter), and both pass data
through: the compressor what it does not shorten, the encrypter everything when none is
registered. The decoder goes by the prefix alone, so plain data that begins like a
signature can be mistaken for a signed record; `roundTrip_iff` says exactly when.

Compressors and encrypters are looked up in a process-wide registry (`Utilities`), under
their name and, for the default one, under the empty name.
-/

namespace Zerodb

/-! ## Signatures

A signature is two letters, the name and `$`, and is taken off by looking for the first `$`. So a
name must not contain one, which is the invariant of `Name`; data that begins with the two letters
and goes on without a `$` has everything but its last byte for a name. -/

/-- `$` -/
def dollar : UInt8 := 36

/-- `b".e"` -/
def encrypted : Bytes := [46, 101]

/-- `b".c"` -/
def compressed : Bytes := [46, 99]

/-- The name of a compressor or an encrypter: ASCII text, as the registry takes it,
without the `$` that ends a signature. -/
@[ext] structure Name where
  /-- the text -/
  bytes : Bytes
  /-- it is ASCII -/
  ascii : ∀ b ∈ bytes, b < 128
  /-- it has no `$` -/
  noDollar : dollar ∉ bytes
  deriving DecidableEq

/-- `b".e%s$" % name`, `b".c%s$" % name`. -/
def signature (kind name : Bytes) : Bytes := kind ++ name ++ [dollar]

/-- `data[2:data.find(b"$")]`; `find` is `-1` when there is no `$`. -/
def signatureName (data : Bytes) : Bytes :=
  if dollar ∈ data then (data.takeWhile (· ≠ dollar)).drop 2 else data.dropLast.drop 2

/-- The bytes that may follow a first byte of UTF-8. -/
def continuation (b : UInt8) : Option (List (UInt8 × UInt8)) :=
  if b < 0x80 then some []
  else if 0xC2 ≤ b ∧ b ≤ 0xDF then some [(0x80, 0xBF)]
  else if b = 0xE0 then some [(0xA0, 0xBF), (0x80, 0xBF)]
  else if b = 0xED then some [(0x80, 0x9F), (0x80, 0xBF)]
  else if 0xE1 ≤ b ∧ b ≤ 0xEF then some [(0x80, 0xBF), (0x80, 0xBF)]
  else if b = 0xF0 then some [(0x90, 0xBF), (0x80, 0xBF), (0x80, 0xBF)]
  else if 0xF1 ≤ b ∧ b ≤ 0xF3 then some [(0x80, 0xBF), (0x80, 0xBF), (0x80, 0xBF)]
  else if b = 0xF4 then some [(0x80, 0x8F), (0x80, 0xBF), (0x80, 0xBF)]
  else none

/-- The bytes are UTF-8, after those that are still expected. -/
def isUtf8 : List (UInt8 × UInt8) → Bytes → Bool
  | [], [] => true
  | _ :: _, [] => false
  | (lo, hi) :: expected, b :: data => lo ≤ b && b ≤ hi && isUtf8 expected data
  | [], b :: data =>
    match continuation b with
    | none => false
    | some expected => isUtf8 expected data

/-- `data.decode()`. The text is kept as its bytes. -/
def decode (data : Bytes) : Except Exc Bytes :=
  if isUtf8 [] data then .ok data else .error .unicodeDecodeError

theorem decode_name (n : Name) : decode n.bytes = .ok n.bytes := by
  have hascii : ∀ data : Bytes, (∀ b ∈ data, b < 128) → isUtf8 [] data = true := by
    intro data h
    induction data with
    | nil => rfl
    | cons b data ih =>
      obtain ⟨hb, hdata⟩ := List.forall_mem_cons.mp h
      rw [isUtf8, continuation, if_pos hb]
      exact ih hdata
  rw [decode, if_pos (hascii _ n.ascii)]

theorem prefix_signature (kind name data : Bytes) : kind <+: signature kind name ++ data := by
  rw [signature, List.append_assoc, List.append_assoc]
  exact List.prefix_append _ _

theorem signatureName_signature {kind : Bytes} (hlen : kind.length = 2) (hkind : dollar ∉ kind)
    (n : Name) (data : Bytes) : signatureName (signature kind n.bytes ++ data) = n.bytes := by
  have hname : ∀ b ∈ kind ++ n.bytes, (b ≠ dollar) := by
    intro b hb
    rcases List.mem_append.mp hb with hb | hb
    · exact fun h => hkind (h ▸ hb)
    · exact fun h => n.noDollar (h ▸ hb)
  have hmem : dollar ∈ signature kind n.bytes ++ data := by simp [signature]
  rw [signatureName, if_pos hmem, signature, List.append_assoc, List.takeWhile_append_of_pos]
  · simp [← hlen]
  · simpa using hname

/-! ## Compressors

A compressor signs what it has made shorter, signature included, and passes on everything else. It
also passes on what begins with its own signature, so that data can arrive at the decoder signed
by nobody. -/

/-- `CommonCompressor`. -/
structure CommonCompressor where
  /-- `name` -/
  name : Name
  /-- `_compress`, with the further arguments -/
  rawCompress : Bytes → Bytes
  /-- `_decompress` -/
  rawDecompress : Bytes → Except Exc Bytes
  /-- it inverts `_compress` -/
  rawDecompress_rawCompress : ∀ data, rawDecompress (rawCompress data) = .ok data

namespace CommonCompressor

/-- `_signature`: none without a name. -/
def sig (c : CommonCompressor) : Bytes :=
  if c.name.bytes = [] then [] else signature compressed c.name.bytes

/-- The compressor makes the data shorter, and the data is not signed by it yet. -/
def Shortens (c : CommonCompressor) (data : Bytes) : Prop :=
  ¬c.sig <+: data ∧ (c.sig ++ c.rawCompress data).length < data.length

instance (c : CommonCompressor) (data : Bytes) : Decidable (c.Shortens data) :=
  inferInstanceAs (Decidable (_ ∧ _))

/-- `CommonCompressor.compress`. -/
def compress (c : CommonCompressor) (data : Bytes) : Bytes :=
  if c.Shortens data then c.sig ++ c.rawCompress data else data

/-- Without a name the compressor compresses nothing. -/
theorem Shortens.sig_eq {c : CommonCompressor} {data : Bytes} (h : c.Shortens data) :
    c.sig = signature compressed c.name.bytes := by
  refine if_neg fun hn => h.1 ?_
  rw [sig, if_pos hn]
  exact List.nil_prefix

/-- `CommonCompressor.decompress`. -/
def decompress (c : CommonCompressor) (data : Bytes) : Except Exc Bytes :=
  if c.sig ≠ [] ∧ c.sig <+: data then c.rawDecompress (data.drop c.sig.length) else .ok data

end CommonCompressor

/-! ## Encrypters

An encrypter of this program is a class around a cipher of one of two libraries, which enters with
the law that it decrypts what it has encrypted. Keys and random bytes have the lengths that the
methods ask for, as invariants of their types. -/

/-- An AEAD cipher of a library, with the law that decrypting inverts encrypting under
the same key and IV. -/
structure Aead where
  /-- the length of a tag -/
  macLen : ℕ
  /-- from key, data and IV to the encrypted data and its tag -/
  encryptAndMac : Bytes → Bytes → Bytes → Bytes × Bytes
  /-- from key, encrypted data, tag and IV to the data, nothing if the tag is wrong -/
  decryptAndVerify : Bytes → Bytes → Bytes → Bytes → Option Bytes
  /-- tags have that length -/
  length_tag : ∀ key data iv, (encryptAndMac key data iv).2.length = macLen
  /-- decrypting inverts encrypting -/
  decrypt_encrypt : ∀ key data iv, decryptAndVerify key (encryptAndMac key data iv).1
    (encryptAndMac key data iv).2 iv = some data

/-- The ciphers of the two libraries: `zerodbext.aead` and `Crypto.Cipher.AES`. -/
structure Ciphers where
  /-- `AES256GCM` -/
  sodium : Aead
  /-- `AES.new(key, MODE, iv)` -/
  pycrypto : Aead

/-- A symmetric key. -/
structure Key where
  /-- the bytes -/
  bytes : Bytes
  /-- as `_init_encryption` asserts -/
  length_eq : bytes.length = 32
  deriving DecidableEq

/-- `rand(n)`, during one call. -/
structure Rand where
  /-- as many random bytes -/
  draw : ℕ → Bytes
  /-- that many -/
  length_draw : ∀ n, (draw n).length = n

/-- An encrypter class: `AES256Encrypter` or one that differs from it in these. -/
structure EncrypterClass where
  /-- `name` -/
  name : Name
  /-- `iv_size` -/
  ivSize : ℕ
  /-- `use_sodium` -/
  useSodium : Bool
  deriving DecidableEq

/-- `AES256Encrypter`, named `AES256-GCM`; it uses the first library if that is
installed. -/
def aes256Encrypter (useSodium : Bool) : EncrypterClass where
  name := ⟨[65, 69, 83, 50, 53, 54, 45, 71, 67, 77], by decide +kernel, by decide +kernel⟩
  ivSize := 12
  useSodium := useSodium

/-- `AES256EncrypterV0`, named `AES256`. -/
def aes256EncrypterV0 : EncrypterClass where
  name := ⟨[65, 69, 83, 50, 53, 54], by decide +kernel, by decide +kernel⟩
  ivSize := 16
  useSodium := false

/-- An instance of an encrypter class. -/
structure Encrypter where
  /-- its class -/
  cls : EncrypterClass
  /-- `_box`, or `key` -/
  key : Key
  deriving DecidableEq

/-- What `_decrypt` raises. -/
def wrongKey : Exc :=
  .wrongKeyError "Data couldn't be decrypted. Probably your key is wrong"

variable (C : Ciphers)

/-- The cipher of a class. -/
def EncrypterClass.cipher (cls : EncrypterClass) : Aead :=
  if cls.useSodium then C.sodium else C.pycrypto

namespace Encrypter

/-- `name`. -/
def name (e : Encrypter) : Name := e.cls.name

/-- `_signature`. -/
def sig (e : Encrypter) : Bytes := signature encrypted e.name.bytes

/-- `_encrypt`. -/
def rawEncrypt (e : Encrypter) (rand : Rand) (data : Bytes) : Bytes :=
  let iv := rand.draw e.cls.ivSize
  let (edata, tag) := (e.cls.cipher C).encryptAndMac e.key.bytes data iv
  iv ++ tag ++ edata

/-- `_decrypt`. -/
def rawDecrypt (e : Encrypter) (edata : Bytes) : Except Exc Bytes :=
  let iv := edata.take e.cls.ivSize
  let rest := edata.drop e.cls.ivSize
  let tag := rest.take (e.cls.cipher C).macLen
  let data := rest.drop (e.cls.cipher C).macLen
  match (e.cls.cipher C).decryptAndVerify e.key.bytes data tag iv with
  | some data => .ok data
  | none => .error wrongKey

/-- `CommonEncrypter.encrypt`. -/
def encrypt (e : Encrypter) (rand : Rand) (data : Bytes) (noCipherName : Bool) : Bytes :=
  (if noCipherName then signature encrypted [] else e.sig) ++ e.rawEncrypt C rand data

/-- `CommonEncrypter.decrypt`. -/
def decrypt (e : Encrypter) (data : Bytes) : Except Exc Bytes :=
  if e.sig <+: data then e.rawDecrypt C (data.drop e.sig.length)
  else if signature encrypted [] <+: data then e.rawDecrypt C (data.drop 3)
  else .ok data

variable {C}

theorem rawDecrypt_rawEncrypt (e : Encrypter) (rand : Rand) (data : Bytes) :
    e.rawDecrypt C (e.rawEncrypt C rand data) = .ok data := by
  have hiv := rand.length_draw e.cls.ivSize
  have htag := (e.cls.cipher C).length_tag e.key.bytes data (rand.draw e.cls.ivSize)
  have hinv := (e.cls.cipher C).decrypt_encrypt e.key.bytes data (rand.draw e.cls.ivSize)
  simp only [rawDecrypt, rawEncrypt, List.append_assoc]
  rw [List.take_left' hiv, List.drop_left' hiv, List.take_left' htag, List.drop_left' htag, hinv]

/-- An encrypter reads what it wrote, with or without its name. -/
theorem decrypt_encrypt (e : Encrypter) (rand : Rand) (data : Bytes) (noCipherName : Bool) :
    e.decrypt C (e.encrypt C rand data noCipherName) = .ok data := by
  have hraw := e.rawDecrypt_rawEncrypt (C := C) rand data
  cases noCipherName with
  | false =>
    have hpre : e.sig <+: e.sig ++ e.rawEncrypt C rand data := List.prefix_append _ _
    simp only [decrypt, encrypt, Bool.false_eq_true, if_false, if_pos hpre]
    rw [List.drop_left, hraw]
  | true =>
    have hpre : signature encrypted [] <+: signature encrypted [] ++ e.rawEncrypt C rand data :=
      List.prefix_append _ _
    simp only [decrypt, encrypt, if_true, if_pos hpre]
    split
    · -- the signature of the empty name is `.e$` too
      rename_i hsig
      have hname : e.name.bytes = [] := by
        rcases hb : e.name.bytes with _ | ⟨b, bs⟩
        · rfl
        · simp only [sig, signature, hb, encrypted, List.cons_append, List.nil_append,
            List.cons_prefix_cons, true_and] at hsig
          exact absurd (hsig.1 ▸ hb ▸ List.mem_cons_self) e.name.noDollar
      have hlen : e.sig.length = 3 := by rw [sig, hname]; rfl
      have hlen' : (signature encrypted []).length = 3 := rfl
      rw [hlen, List.drop_left' hlen', hraw]
    · have hlen : (signature encrypted []).length = 3 := rfl
      rw [List.drop_left' hlen, hraw]

end Encrypter

/-! ## A cipher to compute with

An instance, for the examples. Nothing is asked of it but the law. -/

/-- One byte of the key masks the data, and the tag is the first half of the key. -/
def maskCipher : Aead where
  macLen := 16
  encryptAndMac key data _ := (data.map (· ^^^ key.headD 0), (key ++ List.replicate 16 0).take 16)
  decryptAndVerify key data tag _ :=
    if tag = (key ++ List.replicate 16 0).take 16 then some (data.map (· ^^^ key.headD 0)) else none
  length_tag key data iv := by simp
  decrypt_encrypt key data iv := by simp [Function.comp_def]

/-- It stands for both libraries. -/
def maskCiphers : Ciphers := ⟨maskCipher, maskCipher⟩

/-- A key of one repeated byte. -/
def Key.all (b : UInt8) : Key := ⟨List.replicate 32 b, by simp⟩

/-- Zeros for random bytes. -/
def Rand.zeros : Rand := ⟨fun n => List.replicate n 0, by simp⟩

/-! ## The registry

Everything is looked up by name, when it is used, in the registry of the process. A record is read
back if what wrote it is found under the name that it wrote (`Registered`), and if what nobody
wrote on is not taken for signed (`Unmistakable`); `untransform_transform_iff` says that both are
needed. -/

/-- `getGlobalSiteManager()`: the utilities of a process, by interface and name. The
default one of an interface has the empty name. -/
structure Utilities where
  /-- those providing `ICompressor` -/
  compressors : BTree Bytes CommonCompressor
  /-- those providing `IEncrypterClass` -/
  classes : BTree Bytes EncrypterClass
  /-- those providing `IEncrypter` -/
  encrypters : BTree Bytes Encrypter

/-- `getUtility`. -/
def getUtility {α : Type} (utilities : BTree Bytes α) (name : Bytes) : Except Exc α :=
  match utilities[name]? with
  | some utility => .ok utility
  | none => .error .componentLookupError

theorem getUtility_of_some {α : Type} {utilities : BTree Bytes α} {name : Bytes} {u : α}
    (h : utilities[name]? = some u) : getUtility utilities name = .ok u := by
  rw [getUtility, h]

/-- `get_encryption_signature`. -/
def getEncryptionSignature (data : Bytes) : Option Bytes :=
  if encrypted <+: data then some (signatureName data) else none

namespace Utilities

/-- Nothing is registered. -/
def empty : Utilities := ⟨∅, ∅, ∅⟩

/-- `CommonCompressor.register`. -/
def registerCompressor (U : Utilities) (c : CommonCompressor) (default : Bool) : Utilities :=
  let named := U.compressors.insert c.name.bytes c
  { U with compressors := if default then named.insert [] c else named }

/-- `register_class`. -/
def registerClass (U : Utilities) (cls : EncrypterClass) (default : Bool) : Utilities :=
  let named := U.classes.insert cls.name.bytes cls
  { U with classes := if default then named.insert [] cls else named }

/-- `CommonEncrypter.register`; without a default class it registers nothing. -/
def register (U : Utilities) (e : Encrypter) : Utilities :=
  match U.classes[([] : Bytes)]? with
  | none => U
  | some cls =>
    let default := if cls = e.cls then U.encrypters.insert [] e else U.encrypters
    { U with encrypters := default.insert e.name.bytes e }

/-- `compress`. -/
def compress (U : Utilities) (data : Bytes) : Bytes :=
  match U.compressors[([] : Bytes)]? with
  | some c => c.compress data
  | none => data

/-- `decompress`. -/
def decompress (U : Utilities) (data : Bytes) : Except Exc Bytes :=
  if compressed <+: data then do
    let name ← decode (signatureName data)
    let c ← getUtility U.compressors name
    c.decompress data
  else .ok data

variable (C : Ciphers)

/-- `encrypt`. -/
def encrypt (U : Utilities) (rand : Rand) (data : Bytes) (noCipherName : Bool) : Bytes :=
  match U.encrypters[([] : Bytes)]? with
  | some e => e.encrypt C rand data noCipherName
  | none => data

/-- `decrypt`. -/
def decrypt (U : Utilities) (data : Bytes) : Except Exc Bytes :=
  match getEncryptionSignature data with
  | none => .ok data
  | some sig => do
    let name ← decode sig
    let e ← getUtility U.encrypters name
    e.decrypt C data

/-- `_transform`, and `_transform_named` for `noCipherName = False`. -/
def transform (U : Utilities) (rand : Rand) (noCipherName : Bool) (data : Bytes) : Bytes :=
  U.encrypt C rand (U.compress data) noCipherName

/-- `_untransform`. -/
def untransform (U : Utilities) (data : Bytes) : Except Exc Bytes := do
  let data ← U.decrypt C data
  U.decompress data

end Utilities

/-! ## What is found again

What an encrypter or a compressor has signed is read back by looking up the name. That the name is
found is a property of the registry; that data which nobody signed is passed through is one of the
data. -/

/-- The default utility of an interface is also registered under its own name. -/
def Named {α : Type} (name : α → Name) (utilities : BTree Bytes α) : Prop :=
  ∀ u, utilities[([] : Bytes)]? = some u → utilities[(name u).bytes]? = some u

namespace Named

variable {α : Type} {name : α → Name} {t : BTree Bytes α}

theorem insert (h : Named name t) {u : α}
    (hother : ∀ d, t[([] : Bytes)]? = some d → name d = name u → d = u) :
    Named name (t.insert (name u).bytes u) := by
  intro d hd
  rw [BTree.get_insert] at hd ⊢
  split at hd
  · obtain rfl := Option.some.inj hd
    rw [if_pos rfl]
  · split
    · rename_i hname
      rw [hother d hd (Name.ext hname.symm)]
    · exact h d hd

theorem insert_default {u : α} (hu : t[(name u).bytes]? = some u) : Named name (t.insert [] u) := by
  intro d hd
  rw [BTree.get_insert, if_pos rfl, Option.some.injEq] at hd
  subst hd
  rw [BTree.get_insert]
  split
  · rfl
  · exact hu

end Named

namespace Utilities

variable {C : Ciphers} {U : Utilities}

theorem getEncryptionSignature_encrypt (e : Encrypter) (rand : Rand) (data : Bytes)
    (noCipherName : Bool) : getEncryptionSignature (e.encrypt C rand data noCipherName) =
      some (if noCipherName then [] else e.name.bytes) := by
  have hpre : ∀ n : Name, getEncryptionSignature (signature encrypted n.bytes ++
      e.rawEncrypt C rand data) = some n.bytes := by
    intro n
    rw [getEncryptionSignature, if_pos (prefix_signature _ _ _),
      signatureName_signature rfl (by decide) n]
  cases noCipherName with
  | true => exact hpre ⟨[], by simp, by simp⟩
  | false => exact hpre e.name

/-- What an encrypter wrote is read back if it is found under the name it wrote. -/
theorem decrypt_encrypt {e : Encrypter} {noCipherName : Bool}
    (he : U.encrypters[if noCipherName then [] else e.name.bytes]? = some e) (rand : Rand)
    (data : Bytes) : U.decrypt C (e.encrypt C rand data noCipherName) = .ok data := by
  have hdecode : decode (if noCipherName then [] else e.name.bytes) =
      .ok (if noCipherName then [] else e.name.bytes) := by
    cases noCipherName with
    | true => rfl
    | false => exact decode_name e.name
  rw [decrypt, getEncryptionSignature_encrypt]
  dsimp only
  rw [hdecode]
  change (getUtility U.encrypters _ >>= _) = _
  rw [getUtility_of_some he]
  exact e.decrypt_encrypt rand data noCipherName

/-- What a compressor shortened is read back if it is found under its name. -/
theorem decompress_shortened {c : CommonCompressor} (hc : U.compressors[c.name.bytes]? = some c)
    {data : Bytes} (hs : c.Shortens data) :
    U.decompress (c.sig ++ c.rawCompress data) = .ok data := by
  have hsig := hs.sig_eq
  have hpre : compressed <+: c.sig ++ c.rawCompress data := hsig ▸ prefix_signature _ _ _
  have hne : c.sig ≠ [] := by rw [hsig, signature]; simp
  have hsn := @signatureName_signature compressed rfl (by decide) c.name (c.rawCompress data)
  rw [← hsig] at hsn
  rw [decompress, if_pos hpre, hsn, decode_name]
  change (getUtility U.compressors c.name.bytes >>= _) = _
  rw [getUtility_of_some hc]
  change c.decompress (c.sig ++ c.rawCompress data) = .ok data
  rw [CommonCompressor.decompress, if_pos ⟨hne, List.prefix_append _ _⟩, List.drop_left,
    c.rawDecompress_rawCompress]

/-- The registry of a process that registered compressors and encrypters: default ones
are registered under their names too, and encrypters only with a default one. -/
structure Registered (U : Utilities) : Prop where
  /-- compressors -/
  compressors : Named CommonCompressor.name U.compressors
  /-- encrypters -/
  encrypters : Named Encrypter.name U.encrypters
  /-- no encrypters without a default one -/
  default : U.encrypters[([] : Bytes)]? = none → ∀ name : Bytes, U.encrypters[name]? = none

/-- A compressor passes the data through, or decompresses it to itself. -/
def Passes (c : CommonCompressor) (data : Bytes) : Prop :=
  c.sig = [] ∨ ¬c.sig <+: data ∨ c.rawDecompress (data.drop c.sig.length) = .ok data

/-- The decoder cannot take the data for something else: the default compressor shortens
it, or the data does not begin like a signed record. A beginning `.e` does no harm if
there is an encrypter, and `.c` none if the compressor named there passes it through. -/
def Unmistakable (U : Utilities) (data : Bytes) : Prop :=
  (∃ c, U.compressors[([] : Bytes)]? = some c ∧ c.Shortens data) ∨
    ((encrypted <+: data → U.encrypters[([] : Bytes)]?.isSome = true) ∧
      (compressed <+: data → decode (signatureName data) = .ok (signatureName data) ∧
        ∃ c, U.compressors[signatureName data]? = some c ∧ Passes c data))

theorem passes_iff {c : CommonCompressor} {data : Bytes} :
    c.decompress data = .ok data ↔ Passes c data := by
  rw [CommonCompressor.decompress, Passes]
  split
  · rename_i h
    simp [h.1, h.2]
  · rename_i h
    by_cases hsig : c.sig = []
    · simp [hsig]
    · simp [hsig] at h
      simp [h]

theorem decompress_iff {data : Bytes} : U.decompress data = .ok data ↔
    (compressed <+: data → decode (signatureName data) = .ok (signatureName data) ∧
      ∃ c, U.compressors[signatureName data]? = some c ∧ Passes c data) := by
  by_cases hpre : compressed <+: data
  · rw [decompress, if_pos hpre, decode]
    simp only [hpre, true_imp_iff]
    split
    · change (getUtility U.compressors (signatureName data) >>= _) = _ ↔ _
      rw [getUtility]
      rcases hc : U.compressors[signatureName data]? with _ | c
      · simp [bind, Except.bind]
      · change c.decompress data = _ ↔ _
        rw [passes_iff]
        simp
    · simp [bind, Except.bind]
  · simp [decompress, hpre]

/-- A record the compressor did not write is decoded from what the encrypter makes of it. -/
theorem decrypt_transform (h : U.Registered) (rand : Rand) (noCipherName : Bool) {data : Bytes}
    (hdata : encrypted <+: data → U.encrypters[([] : Bytes)]?.isSome = true) :
    U.decrypt C (U.encrypt C rand data noCipherName) = .ok data := by
  rcases he : U.encrypters[([] : Bytes)]? with _ | e
  · have hpre : ¬encrypted <+: data := fun hp => by simpa [he] using hdata hp
    rw [encrypt, he, decrypt, getEncryptionSignature, if_neg hpre]
  · rw [encrypt, he]
    refine decrypt_encrypt ?_ rand data
    cases noCipherName with
    | true => exact he
    | false => exact h.encrypters e he

theorem untransform_transform_iff (h : U.Registered) (rand : Rand) (noCipherName : Bool)
    (data : Bytes) : U.untransform C (U.transform C rand noCipherName data) = .ok data ↔
      Unmistakable U data := by
  by_cases hs : ∃ c, U.compressors[([] : Bytes)]? = some c ∧ c.Shortens data
  · refine iff_of_true ?_ (.inl hs)
    obtain ⟨c, hc, hshort⟩ := hs
    have hcompress : U.compress data = c.sig ++ c.rawCompress data := by
      rw [compress, hc]
      exact if_pos hshort
    have hy : ¬encrypted <+: c.sig ++ c.rawCompress data := by
      rw [hshort.sig_eq]
      simp [encrypted, compressed, signature]
    rw [untransform, transform, hcompress,
      decrypt_transform h rand noCipherName fun hp => absurd hp hy]
    exact decompress_shortened (h.compressors c hc) hshort
  · have hy : U.compress data = data := by
      rw [compress]
      rcases hc : U.compressors[([] : Bytes)]? with _ | c
      · rfl
      · exact if_neg fun hshort => hs ⟨c, hc, hshort⟩
    rw [Unmistakable, or_iff_right hs, untransform, transform, hy]
    by_cases hdata : encrypted <+: data → U.encrypters[([] : Bytes)]?.isSome = true
    · rw [decrypt_transform h rand noCipherName hdata, and_iff_right hdata]
      exact decompress_iff
    · refine iff_of_false ?_ fun hh => hdata hh.1
      obtain ⟨hpre, hnone⟩ := Classical.not_imp.mp hdata
      rw [Option.not_isSome_iff_eq_none] at hnone
      rw [encrypt, hnone, decrypt, getEncryptionSignature, if_pos hpre]
      dsimp only
      rw [decode]
      split
      · change ¬((getUtility U.encrypters _ >>= _) >>= _) = _
        rw [getUtility, h.default hnone]
        simp [bind, Except.bind]
      · simp [bind, Except.bind]

/-! ## Sets of compressors and encrypters

`Registered` is the invariant of registering. The functions that register several things are loops
over one that inserts, so that there is a lemma on what one insertion keeps, and frames for what
the loops leave alone. -/

/-- Compressors, encrypter classes and then their instances are registered, the marked
ones as default. -/
def setup (cs : List (CommonCompressor × Bool)) (es : List (Encrypter × Bool)) : Utilities :=
  let withCompressors := cs.foldl (fun U p => U.registerCompressor p.1 p.2) empty
  let withClasses := es.foldl (fun U p => U.registerClass p.1.cls p.2) withCompressors
  es.foldl (fun U p => U.register p.1) withClasses

/-- Registering a utility of a new name, maybe also as the default. -/
theorem Named.register {α : Type} {name : α → Name} {t : BTree Bytes α} {done : List α}
    (h : Named name t) (hdone : ∀ (n : Bytes) u, t[n]? = some u → u ∈ done) {u : α}
    (hnew : ∀ d ∈ done, name d ≠ name u) (default : Prop) [Decidable default] :
    let t' := t.insert (name u).bytes u
    Named name (if default then t'.insert [] u else t') ∧
      ∀ (n : Bytes) v, (if default then t'.insert [] u else t')[n]? = some v → v ∈ done ++ [u] := by
  have hnamed : Named name (t.insert (name u).bytes u) :=
    h.insert fun d hd hname => absurd hname (hnew d (hdone _ _ hd))
  have hmem : ∀ (n : Bytes) v, (t.insert (name u).bytes u)[n]? = some v → v ∈ done ++ [u] := by
    intro n v hv
    rw [BTree.get_insert] at hv
    split at hv
    · simp [Option.some.inj hv]
    · exact List.mem_append_left _ (hdone n v hv)
  split
  · refine ⟨Named.insert_default (by rw [BTree.get_insert, if_pos rfl]), fun n v hv => ?_⟩
    rw [BTree.get_insert] at hv
    split at hv
    · simp [Option.some.inj hv]
    · exact hmem n v hv
  · exact ⟨hnamed, hmem⟩

theorem named_registerCompressors (done : List CommonCompressor)
    (cs : List (CommonCompressor × Bool))
    (hnodup : ((done ++ cs.map Prod.fst).map CommonCompressor.name).Nodup)
    (hdone : ∀ (n : Bytes) c, U.compressors[n]? = some c → c ∈ done)
    (h : Named CommonCompressor.name U.compressors) : Named CommonCompressor.name
      (cs.foldl (fun U p => U.registerCompressor p.1 p.2) U).compressors := by
  induction cs generalizing U done with
  | nil => exact h
  | cons p cs ih =>
    obtain ⟨c, default⟩ := p
    have hsplit : done ++ ((c, default) :: cs).map Prod.fst = (done ++ [c]) ++ cs.map Prod.fst := by
      simp
    rw [hsplit] at hnodup
    have hnew : ∀ d ∈ done, d.name ≠ c.name := by
      intro d hd hname
      rw [List.map_append, List.map_append, List.nodup_append, List.nodup_append] at hnodup
      exact hnodup.1.2.2 _ (List.mem_map_of_mem hd) _ (by simp) hname
    obtain ⟨hnamed, hmem⟩ := Named.register h hdone hnew (default = true)
    exact ih (done ++ [c]) hnodup hmem hnamed

/-- Which of the two names an encrypter is registered under first does not matter. -/
theorem insert_default_comm (t : BTree Bytes Encrypter) (n : Bytes) (e : Encrypter) :
    (t.insert [] e).insert n e = (t.insert n e).insert [] e := by
  refine Std.ExtTreeMap.ext_getElem? fun k => ?_
  simp only [BTree.get_insert]
  split <;> split <;> rfl

theorem register_of_class {cls : EncrypterClass} (hcls : U.classes[([] : Bytes)]? = some cls)
    (e : Encrypter) : U.register e = ⟨U.compressors, U.classes,
      if cls = e.cls then (U.encrypters.insert e.name.bytes e).insert [] e
      else U.encrypters.insert e.name.bytes e⟩ := by
  rw [register, hcls]
  dsimp only
  split
  · rw [insert_default_comm]
  · rfl

theorem named_registers {cls : EncrypterClass} (done : List Encrypter)
    (es : List (Encrypter × Bool))
    (hcls : U.classes[([] : Bytes)]? = some cls)
    (hnodup : ((done ++ es.map Prod.fst).map Encrypter.name).Nodup)
    (hdone : ∀ (n : Bytes) e, U.encrypters[n]? = some e → e ∈ done)
    (h : Named Encrypter.name U.encrypters)
    (hdefault : U.encrypters[([] : Bytes)]?.isSome = true ∨ ∃ p ∈ es, p.1.cls = cls) :
    Named Encrypter.name (es.foldl (fun U p => U.register p.1) U).encrypters ∧
      (es.foldl (fun U p => U.register p.1) U).encrypters[([] : Bytes)]?.isSome = true := by
  induction es generalizing U done with
  | nil => exact ⟨h, hdefault.resolve_right (by simp)⟩
  | cons p es ih =>
    obtain ⟨e, flag⟩ := p
    have hsplit : done ++ ((e, flag) :: es).map Prod.fst = (done ++ [e]) ++ es.map Prod.fst := by
      simp
    rw [hsplit] at hnodup
    have hnew : ∀ d ∈ done, d.name ≠ e.name := by
      intro d hd hname
      rw [List.map_append, List.map_append, List.nodup_append, List.nodup_append] at hnodup
      exact hnodup.1.2.2 _ (List.mem_map_of_mem hd) _ (by simp) hname
    obtain ⟨hnamed, hmem⟩ := Named.register h hdone hnew (cls = e.cls)
    rw [List.foldl_cons, register_of_class hcls]
    refine ih (done ++ [e]) hcls hnodup hmem hnamed ?_
    by_cases he : cls = e.cls
    · exact .inl (by rw [if_pos he, BTree.get_insert, if_pos rfl]; rfl)
    · rcases hdefault with hsome | ⟨p, hp, hcls'⟩
      · refine .inl ?_
        rw [if_neg he, BTree.get_insert]
        split
        · rfl
        · exact hsome
      · rcases List.mem_cons.mp hp with rfl | hp
        · exact absurd hcls'.symm he
        · exact .inr ⟨p, hp, hcls'⟩

theorem registers_of_no_class (hcls : U.classes[([] : Bytes)]? = none)
    (es : List (Encrypter × Bool)) :
    es.foldl (fun U p => U.register p.1) U = U := by
  induction es with
  | nil => rfl
  | cons p es ih =>
    have hreg : U.register p.1 = U := by rw [register, hcls]
    rw [List.foldl_cons, hreg, ih]

theorem registerCompressors_frame (cs : List (CommonCompressor × Bool)) :
    (cs.foldl (fun U p => U.registerCompressor p.1 p.2) U).classes = U.classes ∧
      (cs.foldl (fun U p => U.registerCompressor p.1 p.2) U).encrypters = U.encrypters := by
  induction cs generalizing U with
  | nil => exact ⟨rfl, rfl⟩
  | cons p cs ih => exact ih

theorem registerClasses_frame (es : List (Encrypter × Bool)) :
    (es.foldl (fun U p => U.registerClass p.1.cls p.2) U).compressors = U.compressors ∧
      (es.foldl (fun U p => U.registerClass p.1.cls p.2) U).encrypters = U.encrypters := by
  induction es generalizing U with
  | nil => exact ⟨rfl, rfl⟩
  | cons p es ih => exact ih

theorem registers_frame (es : List (Encrypter × Bool)) :
    (es.foldl (fun U p => U.register p.1) U).compressors = U.compressors := by
  induction es generalizing U with
  | nil => rfl
  | cons p es ih =>
    rw [List.foldl_cons, ih, register]
    split <;> rfl

theorem registerClass_get {cls cls' : EncrypterClass} {default : Bool} {n : Bytes}
    (h : (U.registerClass cls default).classes[n]? = some cls') :
    cls' = cls ∨ U.classes[n]? = some cls' := by
  cases default <;> simp only [registerClass, Bool.false_eq_true, if_false, if_true,
    BTree.get_insert] at h <;> grind

theorem registerClasses_get (es : List (Encrypter × Bool)) {cls : EncrypterClass} {n : Bytes}
    (h : (es.foldl (fun U p => U.registerClass p.1.cls p.2) U).classes[n]? = some cls) :
    (∃ p ∈ es, p.1.cls = cls) ∨ U.classes[n]? = some cls := by
  induction es generalizing U with
  | nil => exact .inr h
  | cons p es ih =>
    rcases ih h with ⟨q, hq, hcls⟩ | hcls
    · exact .inl ⟨q, List.mem_cons_of_mem _ hq, hcls⟩
    · rcases registerClass_get hcls with rfl | hcls
      · exact .inl ⟨p, List.mem_cons_self, rfl⟩
      · exact .inr hcls

theorem registered_setup {cs : List (CommonCompressor × Bool)} {es : List (Encrypter × Bool)}
    (hcs : (cs.map fun p => p.1.name).Nodup) (hes : (es.map fun p => p.1.name).Nodup) :
    (setup cs es).Registered := by
  have hcs' : (([] ++ cs.map Prod.fst).map CommonCompressor.name).Nodup := by
    rw [List.nil_append, List.map_map]
    exact hcs
  have hes' : (([] ++ es.map Prod.fst).map Encrypter.name).Nodup := by
    rw [List.nil_append, List.map_map]
    exact hes
  have hempty : ∀ (n : Bytes) c, empty.compressors[n]? = some c → c ∈ [] := by
    simp [empty]
  rw [setup]
  set U₁ := cs.foldl (fun U p => U.registerCompressor p.1 p.2) empty with hU₁
  set U₂ := es.foldl (fun U p => U.registerClass p.1.cls p.2) U₁ with hU₂
  obtain ⟨hclasses₁, hencrypters₁⟩ := @registerCompressors_frame empty cs
  obtain ⟨hcompressors₂, hencrypters₂⟩ := @registerClasses_frame U₁ es
  have hnone : ∀ n : Bytes, U₂.encrypters[n]? = none := by
    intro n
    rw [hencrypters₂, hencrypters₁, empty, Std.ExtTreeMap.getElem?_empty]
  have hcompressors : Named CommonCompressor.name
      (es.foldl (fun U p => U.register p.1) U₂).compressors := by
    rw [registers_frame, hcompressors₂]
    exact named_registerCompressors [] cs hcs' hempty fun c hc => absurd hc (by simp [empty])
  rcases hcls : U₂.classes[([] : Bytes)]? with _ | cls
  · rw [registers_of_no_class hcls] at hcompressors ⊢
    refine ⟨hcompressors, fun e he => ?_, fun _ => hnone⟩
    rw [hnone] at he
    exact absurd he.symm (Option.some_ne_none e)
  · have hes₁ : ∃ p ∈ es, p.1.cls = cls := by
      apply (registerClasses_get es hcls).resolve_right
      rw [hclasses₁]
      simp [empty]
    obtain ⟨hnamed, hsome⟩ := named_registers [] es hcls hes'
      (fun n e he => absurd (hnone n ▸ he).symm (Option.some_ne_none e))
      (fun e he => absurd (hnone [] ▸ he).symm (Option.some_ne_none e)) (.inr hes₁)
    exact ⟨hcompressors, hnamed, fun hn => absurd hn (Option.isSome_iff_ne_none.mp hsome)⟩

/-- **Round trip of a record**: with any set of compressors and encrypters registered, what
the encoder makes of a record is decoded to the record exactly when the record is
`Unmistakable`. -/
theorem roundTrip_iff (C : Ciphers) (cs : List (CommonCompressor × Bool))
    (es : List (Encrypter × Bool)) (hcs : (cs.map fun p => p.1.name).Nodup)
    (hes : (es.map fun p => p.1.name).Nodup) (rand : Rand) (noCipherName : Bool) (x : Bytes) :
    (setup cs es).untransform C ((setup cs es).transform C rand noCipherName x) = .ok x ↔
      Unmistakable (setup cs es) x :=
  untransform_transform_iff (registered_setup hcs hes) rand noCipherName x

/-- The two encrypters of `DB.encrypter`, the first as default. -/
def dbEncrypters (key : Key) : List (Encrypter × Bool) :=
  [(⟨aes256Encrypter true, key⟩, true), (⟨aes256EncrypterV0, key⟩, false)]

/-- A record that begins like an encrypted one survives, because an encrypter signs it. -/
theorem roundTrip_iff_example :
    (setup [] (dbEncrypters (.all 7))).untransform maskCiphers
      ((setup [] (dbEncrypters (.all 7))).transform maskCiphers .zeros true [46, 101, 1]) =
        .ok [46, 101, 1] :=
  (roundTrip_iff maskCiphers [] (dbEncrypters (.all 7)) (by simp) (by decide) .zeros true
    [46, 101, 1]).mpr (.inr ⟨fun _ => by decide +kernel, fun h => absurd h (by decide)⟩)

/-- Without encrypters a record `.e` is taken for an encrypted one. -/
theorem unsigned_mistaken :
    (setup [] []).untransform maskCiphers
      ((setup [] []).transform maskCiphers .zeros true [46, 101]) ≠ .ok [46, 101] := by
  have h : (setup [] []).untransform maskCiphers
      ((setup [] []).transform maskCiphers .zeros true [46, 101]) =
        .error .componentLookupError := by
    decide +kernel
  rw [h]
  simp

end Utilities

end Zerodb
