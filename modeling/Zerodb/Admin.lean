import Zerodb.Py

/-!
# Admin: users, their certificates and their passwords

The administrator's tables: user objects, the index by name, the map from DER
certificates to user ids, and the concatenated certificate data. Every method is a
`Py` computation, so a call that raises half way leaves the changes it had made.

A user object is named by its id, the oid of its root folder. Attributes of a user
that are assigned mark it as changed; its plain dictionary `certs` can be mutated
without that.
-/

namespace Zerodb

/-! ## Strings and secrets

What the administrator leaves to libraries is the `Platform`: parsing a certificate, and the two
hash functions. Nothing is assumed of them here; where a result needs that hashes do not collide,
it says so (`Platform.Ideal`). -/

/-- `str.encode()`. -/
def encode (s : Str) : Bytes := s.flatMap String.utf8EncodeChar

/-- What may be passed for a password. -/
inductive Secret where
  /-- a `str` -/
  | text : Str → Secret
  /-- a `bytes` -/
  | bytes : Bytes → Secret
  deriving DecidableEq

namespace Secret

/-- Is it nonempty? -/
def truthy : Secret → Bool
  | .text s => !s.isEmpty
  | .bytes b => !b.isEmpty

/-- Encoded unless it is `bytes`. -/
def toBytes : Secret → Bytes
  | .text s => encode s
  | .bytes b => b

end Secret

/-- The libraries the administrator calls: OpenSSL and the hash functions, with the
certificate file that comes with the program. -/
structure Platform where
  /-- `get_der`: the certificate in a PEM text, when there is one -/
  getDer : Str → Option Bytes
  /-- `hashlib.sha256(data).digest()` -/
  sha256 : Bytes → Bytes
  /-- `scrypt.hash(password, salt, **scrypt_kw)` -/
  scrypt : Bytes → Bytes → Bytes
  /-- the contents of `nobody.pem` -/
  nobodyPem : Str
  /-- its certificate -/
  nobodyDer : Bytes
  /-- `nobody.pem` is readable -/
  getDer_nobody : getDer nobodyPem = some nobodyDer

/-- A security function, as the administrator calls it: without key and certificate files,
dropping the key it returns. It takes user name, password and application name to the new
password. -/
abbrev SecurityFunction : Type := Str → Option Secret → Str → Except Exc (Option Secret)

/-- A security function of `kdf`. -/
structure Security where
  /-- the function -/
  run : SecurityFunction
  /-- a password stays a password -/
  run_some : ∀ {uname password appname result},
    run uname (some password) appname = .ok result → result ≠ none
  /-- it looks nothing up -/
  run_ne_keyError : ∀ uname password appname, run uname password appname ≠ .error .keyError

namespace Platform

variable (P : Platform)

/-- `"|".join([username, appname, 'key'])`. -/
def kdfSalt (username appname : Str) : Str :=
  ['|'].intercalate [username, appname, ['k', 'e', 'y']]

/-- `hashlib.sha256(key + b'auth').digest()` for the scrypt key of a password. -/
def authHash (username : Str) (password : Secret) (appname : Str) : Bytes :=
  P.sha256 (P.scrypt password.toBytes (encode (kdfSalt username appname)) ++
    encode ['a', 'u', 't', 'h'])

/-- `kdf.hash_password`, the default security function. -/
def kdfHashPassword : Security where
  run username password appname :=
    match password with
    | none => .ok none
    | some p => .ok (some (if p.truthy then .bytes (P.authHash username p appname) else p))
  run_some h := by
    obtain rfl := Except.ok.inj h
    exact Option.some_ne_none _
  run_ne_keyError uname password appname := by
    cases password <;> exact fun h => nomatch h

/-- `hash_password`. -/
def hashPassword (password : Secret) (salt : Bytes) : Bytes :=
  encode ['s', 'h', 'a', '2', '5', '6', ':', ':'] ++ P.sha256 (password.toBytes ++ salt)

end Platform

/-- A platform to run examples on: certificates are their PEM texts, hashes are plain. -/
def plainPlatform : Platform where
  getDer pem := if pem = [] then none else some (pem.map fun c => UInt8.ofNat c.toNat)
  sha256 data := data
  scrypt password salt := password ++ salt
  nobodyPem := ['n']
  nobodyDer := [110]
  getDer_nobody := by decide

/-! ## Users

The object of a user, with the flag by which the database knows that it has to be stored. Only an
assignment to an attribute sets the flag. The dictionary of certificates is changed in place, so
that a new certificate does not; `AdminStore` is about what becomes of it. -/

/-- `User`, less its root folder. -/
structure User where
  /-- the name -/
  name : Str
  /-- the oid of the root folder -/
  id : ℕ
  /-- `{cert_der -> cert_pem}` -/
  certs : BTree Bytes Str
  /-- the hashed password, if set -/
  password : Option Bytes
  /-- the salt; the attribute exists only if the user was added with a password -/
  salt : Option Bytes
  /-- was an attribute assigned since the object was loaded? -/
  changed : Bool

namespace User

variable (P : Platform)

/-- `User(name, root, password)`, given the hexadecimal digits of `uuid4()`. -/
def new (name : Str) (root : ℕ) (password : Option Secret) (uuid : Bytes) : User :=
  match password with
  | none => ⟨name, root, ∅, none, none, true⟩
  | some p =>
    if p.truthy then ⟨name, root, ∅, some (P.hashPassword p uuid), some uuid, true⟩
    else ⟨name, root, ∅, none, none, true⟩

/-- `check_password`. -/
def checkPassword (user : User) (password : Secret) : Except Exc Bool :=
  match user.salt with
  | none => .error (.attributeError "salt")
  | some salt => .ok (some (P.hashPassword password salt) = user.password)

/-- `change_password`. -/
def changePassword (user : User) : Option Secret → Except Exc User
  | none => .ok user
  | some p =>
    if p.truthy then
      match user.salt with
      | none => .error (.attributeError "salt")
      | some salt => .ok { user with password := some (P.hashPassword p salt), changed := true }
    else .ok { user with password := none, changed := true }

@[simp] theorem new_name (name : Str) (root : ℕ) (password : Option Secret) (uuid : Bytes) :
    (new P name root password uuid).name = name := by
  unfold new
  split <;> [rfl; (split <;> rfl)]

@[simp] theorem new_id (name : Str) (root : ℕ) (password : Option Secret) (uuid : Bytes) :
    (new P name root password uuid).id = root := by
  unfold new
  split <;> [rfl; (split <;> rfl)]

@[simp] theorem new_certs (name : Str) (root : ℕ) (password : Option Secret) (uuid : Bytes) :
    (new P name root password uuid).certs = ∅ := by
  unfold new
  split <;> [rfl; (split <;> rfl)]

@[simp] theorem new_changed (name : Str) (root : ℕ) (password : Option Secret) (uuid : Bytes) :
    (new P name root password uuid).changed = true := by
  unfold new
  split <;> [rfl; (split <;> rfl)]

/-- Setting a password leaves the identity of the user. -/
theorem changePassword_keeps {user user' : User} {password : Option Secret}
    (h : user.changePassword P password = .ok user') :
    user'.name = user.name ∧ user'.id = user.id ∧ user'.certs = user.certs := by
  unfold changePassword at h
  split at h
  · obtain rfl := Except.ok.inj h
    exact ⟨rfl, rfl, rfl⟩
  · split at h
    · split at h
      · cases h
      · obtain rfl := Except.ok.inj h
        exact ⟨rfl, rfl, rfl⟩
    · obtain rfl := Except.ok.inj h
      exact ⟨rfl, rfl, rfl⟩

/-- And assigns an attribute of it. -/
theorem changePassword_some {user user' : User} {p : Secret}
    (h : user.changePassword P (some p) = .ok user') : user'.changed = true := by
  simp only [changePassword] at h
  split at h
  · split at h
    · cases h
    · obtain rfl := Except.ok.inj h
      rfl
  · obtain rfl := Except.ok.inj h
    rfl

theorem changePassword_ne_keyError (user : User) (password : Option Secret) :
    user.changePassword P password ≠ .error .keyError := by
  unfold changePassword
  split
  · exact fun h => nomatch h
  · split
    · split <;> exact fun h => nomatch h
    · exact fun h => nomatch h

end User

/-! ## The concatenated certificates

The data is a text to which certificates are appended and from which they are cut out again by
`str.replace`. Replacing drops every occurrence of a text, also one that begins in one certificate
and ends in the next; `AdminMemory` says when it drops the right one. -/

namespace Certs

/-- `Certs.add`. -/
def add (data pem : Str) : Str := data ++ '\n' :: '\n' :: pem

/-- Scan a text for a pattern and drop its occurrences, left to right; the number
says how many characters of an occurrence are still to be skipped. -/
def dropOccurrences (pattern : Str) : ℕ → Str → Str
  | _, [] => []
  | skip + 1, _ :: text => dropOccurrences pattern skip text
  | 0, c :: text =>
    if pattern.isPrefixOf (c :: text) then dropOccurrences pattern (pattern.length - 1) text
    else c :: dropOccurrences pattern 0 text

/-- `Certs.remove`: `self.data.replace('\n\n' + pem_data, '')`. -/
def remove (data pem : Str) : Str := dropOccurrences ('\n' :: '\n' :: pem) 0 data

end Certs

/-! ## The tables

Every method is a `Py` computation over the tables: what a call has done before it raises stays
done. The parts of `change_cert` and `add_user` are definitions of their own, in the order in
which the source has them. -/

/-- `Admin` with the user objects its connection has loaded. -/
structure Admin where
  /-- the user objects -/
  objs : BTree ℕ User
  /-- `users`: the users, each under its id -/
  users : TreeSet ℕ
  /-- `users_by_name` -/
  usersByName : BTree Str ℕ
  /-- `uids`: certificate to user id; `nobody` has none -/
  uids : BTree Bytes (Option ℕ)
  /-- `certs.data` -/
  certs : Str
  /-- the connection gives out oids in increasing order; this one is next -/
  nextOid : ℕ

namespace Admin

variable (P : Platform)

/-- `Admin(conn)`; the admin object itself has oid 1. -/
def init : Admin where
  objs := ∅
  users := ∅
  usersByName := ∅
  uids := (∅ : BTree Bytes (Option ℕ)).insert P.nobodyDer none
  certs := Certs.add [] P.nobodyPem
  nextOid := 2

/-- Follow a reference to a user. -/
def load (r : ℕ) : Py Admin User := do
  let a ← Py.get
  Py.ofOption .posKeyError a.objs[r]?

/-- `_add_user_cert`. The dictionary `user.certs` is mutated in place. -/
def addUserCert (r : ℕ) (pem : Str) : Py Admin Unit := do
  let der ← Py.ofOption .sslError (P.getDer pem)
  let user ← load r
  let a ← Py.get
  if der ∈ a.uids ∨ der ∈ user.certs then
    Py.raise (.valueError "SSL certificate id already used")
  else
    Py.modify fun a =>
      { a with
        uids := a.uids.insert der (some user.id)
        objs := a.objs.insert r { user with certs := user.certs.insert der pem }
        certs := Certs.add a.certs pem }

/-- `_del_user_certs`: the loop over `user.certs.items()`. -/
def delUserCerts : List (Bytes × Str) → Py Admin Unit
  | [] => pure ()
  | (der, pem) :: items => do
    let a ← Py.get
    if der ∈ a.uids then
      Py.modify fun a => { a with uids := a.uids.erase der, certs := Certs.remove a.certs pem }
      delUserCerts items
    else Py.raise .keyError

/-- `self._p_jar.add(root)`: the oid of a new root folder. -/
def newRoot : Py Admin ℕ := do
  let a ← Py.get
  Py.modify fun a => { a with nextOid := a.nextOid + 1 }
  return a.nextOid

/-- `if pem_data: self._add_user_cert(user, pem_data)`. -/
def addFirstCert (r : ℕ) : Option Str → Py Admin Unit
  | some (c :: pem) => addUserCert P r (c :: pem)
  | _ => pure ()

/-- `add_user`. -/
def addUser (uname : Str) (pem : Option Str) (password : Option Secret)
    (security : SecurityFunction) (appname : Str) (uuid : Bytes) : Py Admin ℕ := do
  let root ← newRoot
  let password ← Py.ofExcept (security uname password appname)
  let user := User.new P uname root password uuid
  Py.modify fun a =>
    { a with
      objs := a.objs.insert user.id user
      users := a.users.insert user.id
      usersByName := a.usersByName.insert user.name user.id }
  addFirstCert P user.id pem
  return user.id

/-- `del_user`. -/
def delUser (name : Str) : Py Admin Unit := do
  let a ← Py.get
  let r ← Py.ofOption .keyError a.usersByName[name]?
  Py.modify fun a => { a with usersByName := a.usersByName.erase name }
  let user ← load r
  let a ← Py.get
  if user.id ∈ a.users then
    Py.modify fun a => { a with users := a.users.erase user.id }
    delUserCerts user.certs.toList
  else Py.raise .keyError

/-- The certificate part of `change_cert`. -/
def replaceCerts (r : ℕ) : Option Str → Py Admin Unit
  | none => pure ()
  | some pem => do
    let user ← load r
    delUserCerts user.certs.toList
    Py.modify fun a => { a with objs := a.objs.insert r { user with certs := ∅ } }
    if pem = [] then pure () else addUserCert P r pem

/-- The password part of `change_cert`. -/
def replacePassword (r : ℕ) (name : Str) (security : SecurityFunction) (appname : Str) :
    Option Secret → Py Admin Unit
  | none => pure ()
  | some p => do
    let password ← Py.ofExcept (security name (some p) appname)
    let user ← load r
    let user ← Py.ofExcept (user.changePassword P password)
    Py.modify fun a => { a with objs := a.objs.insert r user }

/-- `change_cert`. -/
def changeCert (name : Str) (pem : Option Str) (password : Option Secret)
    (security : SecurityFunction) (appname : Str) : Py Admin Unit := do
  let a ← Py.get
  let r ← Py.ofOption .keyError a.usersByName[name]?
  replaceCerts P r pem
  replacePassword P r name security appname password

/-! ## What the calls do

One lemma per call: what it does when its lookups succeed, and that otherwise it
raises. -/

/-- What the loop over a user's certificates leaves when it ends. -/
def dropCerts (items : List (Bytes × Str)) (a : Admin) : Admin :=
  items.foldl (fun a item =>
    { a with uids := a.uids.erase item.1, certs := Certs.remove a.certs item.2 }) a

@[simp] theorem dropCerts_objs (items : List (Bytes × Str)) (a : Admin) :
    (dropCerts items a).objs = a.objs := by
  induction items generalizing a with
  | nil => rfl
  | cons item items ih => exact ih _

@[simp] theorem dropCerts_users (items : List (Bytes × Str)) (a : Admin) :
    (dropCerts items a).users = a.users := by
  induction items generalizing a with
  | nil => rfl
  | cons item items ih => exact ih _

@[simp] theorem dropCerts_usersByName (items : List (Bytes × Str)) (a : Admin) :
    (dropCerts items a).usersByName = a.usersByName := by
  induction items generalizing a with
  | nil => rfl
  | cons item items ih => exact ih _

@[simp] theorem dropCerts_nextOid (items : List (Bytes × Str)) (a : Admin) :
    (dropCerts items a).nextOid = a.nextOid := by
  induction items generalizing a with
  | nil => rfl
  | cons item items ih => exact ih _

/-- What becomes of the certificate data depends on nothing else. -/
theorem dropCerts_certs (items : List (Bytes × Str)) {a b : Admin} (h : a.certs = b.certs) :
    (dropCerts items a).certs = (dropCerts items b).certs := by
  induction items generalizing a b with
  | nil => exact h
  | cons item items ih =>
    apply ih
    simp only [h]

theorem dropCerts_uids (items : List (Bytes × Str)) (a : Admin) (der : Bytes) :
    (dropCerts items a).uids[der]? =
      if der ∈ items.map Prod.fst then none else a.uids[der]? := by
  induction items generalizing a with
  | nil => simp [dropCerts]
  | cons item items ih =>
    have hstep := ih { a with uids := a.uids.erase item.1, certs := Certs.remove a.certs item.2 }
    rw [dropCerts, List.foldl_cons, ← dropCerts, hstep, BTree.get_erase]
    by_cases hmem : der ∈ items.map Prod.fst
    · simp [hmem]
    · by_cases hd : item.1 = der
      · simp [hd]
      · simp [hmem, hd, Ne.symm hd]

/-- The loop ends when all its certificates are registered. -/
theorem delUserCerts_ok {items : List (Bytes × Str)} {a : Admin}
    (hnodup : items.Pairwise fun x y => x.1 ≠ y.1) (hmem : ∀ item ∈ items, item.1 ∈ a.uids) :
    delUserCerts items a = (.ok (), dropCerts items a) := by
  induction items generalizing a with
  | nil => rfl
  | cons item items ih =>
    obtain ⟨hne, hnodup⟩ := List.pairwise_cons.mp hnodup
    have hhead : item.1 ∈ a.uids := hmem _ List.mem_cons_self
    rw [delUserCerts, Py.get_bind_apply, if_pos hhead, Py.modify_bind_apply, ih hnodup]
    · rfl
    · intro x hx
      have hxa := hmem x (List.mem_cons_of_mem _ hx)
      rw [BTree.mem_iff] at hxa ⊢
      rw [BTree.get_erase_ne _ (hne x hx)]
      exact hxa

theorem delUserCerts_user {a : Admin} {user : User} (h : ∀ der ∈ user.certs, der ∈ a.uids) :
    delUserCerts user.certs.toList a = (.ok (), dropCerts user.certs.toList a) := by
  refine delUserCerts_ok ?_ fun item hitem => ?_
  · exact Std.ExtTreeMap.distinct_keys_toList.imp fun hne heq => hne (by simp [heq])
  · exact h _ (BTree.mem_of_get _ (Std.ExtTreeMap.mem_toList_iff_getElem?_eq_some.mp hitem))

theorem dropCerts_uids_user (user : User) (a : Admin) (der : Bytes) :
    (dropCerts user.certs.toList a).uids[der]? =
      if der ∈ user.certs then none else a.uids[der]? := by
  have hiff : der ∈ user.certs.toList.map Prod.fst ↔ der ∈ user.certs := by simp
  rw [dropCerts_uids]
  simp only [hiff]

/-! ## Registering a certificate

`_add_user_cert` looks at the certificate before it changes anything: it registers it, in the
dictionary of the user, in the table and in the data, or leaves everything as it was. -/

/-- `_add_user_cert`, run. -/
theorem addUserCert_apply {a : Admin} {r : ℕ} {user : User} (hu : a.objs[r]? = some user)
    (pem : Str) :
    addUserCert P r pem a =
      match P.getDer pem with
      | none => (.error .sslError, a)
      | some der =>
        if der ∈ a.uids ∨ der ∈ user.certs then
          (.error (.valueError "SSL certificate id already used"), a)
        else
          (.ok (), { a with
            uids := a.uids.insert der (some user.id)
            objs := a.objs.insert r { user with certs := user.certs.insert der pem }
            certs := Certs.add a.certs pem }) := by
  have hload : load r a = (.ok user, a) := by simp [load, hu]
  rw [addUserCert]
  rcases P.getDer pem with _ | der
  · rfl
  · rw [Py.ofOption_some, Py.pure_bind_apply, Py.bind_of_ok hload, Py.get_bind_apply]
    by_cases hused : der ∈ a.uids ∨ der ∈ user.certs
    · simp only [if_pos hused]
      rfl
    · simp only [if_neg hused]
      rfl

/-- A user's only certificate, if it has one, and the certificate data with it. -/
def FirstCert (data : Str) (certs : BTree Bytes Str) (data' : Str) : Prop :=
  (certs = ∅ ∧ data' = data) ∨
    ∃ der pem, certs = (∅ : BTree Bytes Str).insert der pem ∧ data' = Certs.add data pem

/-- `_add_user_cert` for a user without certificates: it registers the certificate, or leaves
everything as it was. -/
theorem addUserCert_cases {a : Admin} {r : ℕ} {user : User} (hu : a.objs[r]? = some user)
    (hcerts : user.certs = ∅) (pem : Str) :
    (∃ der, P.getDer pem = some der ∧ der ∉ a.uids ∧
      addUserCert P r pem a = (.ok (), { a with
        uids := a.uids.insert der (some user.id)
        objs := a.objs.insert r { user with certs := (∅ : BTree Bytes Str).insert der pem }
        certs := Certs.add a.certs pem })) ∨
    (∃ e, addUserCert P r pem a = (.error e, a) ∧ e ≠ .keyError ∧
      ∀ der, P.getDer pem = some der → der ∈ a.uids) := by
  have hadd := addUserCert_apply P hu pem
  rcases hder : P.getDer pem with _ | der <;> simp only [hder] at hadd
  · exact .inr ⟨_, hadd, Exc.noConfusion, fun der hd => absurd hd.symm (Option.some_ne_none der)⟩
  · have hnew : der ∉ user.certs := by simp [hcerts]
    by_cases hused : der ∈ a.uids
    · rw [if_pos (.inl hused)] at hadd
      refine .inr ⟨_, hadd, Exc.noConfusion, fun d hd => ?_⟩
      obtain rfl := Option.some.inj hd
      exact hused
    · rw [if_neg (fun h => h.elim hused hnew), hcerts] at hadd
      exact .inl ⟨der, rfl, hused, hadd⟩

/-! ## Replacing certificates

`change_cert` takes the old certificates away before it adds the new one, and sets the password
after that. So what it leaves depends on where it stops: `CertsReplaced` are the tables for each
case, with the certificates that the user has in the end, and the cases are gone through once for
the certificate part and once for the whole call. -/

/-- The certificates `change_cert` gives a user in place of the old ones. -/
def Replaced (old : BTree Bytes Str) : Option Str → BTree Bytes Str → Prop
  | none, new => new = old
  | some [], new => new = ∅
  | some (c :: pem), new =>
    ∃ der, P.getDer (c :: pem) = some der ∧ new = (∅ : BTree Bytes Str).insert der (c :: pem)

/-- A certificate that cannot be given to a user: unreadable, or someone else's. -/
def Refused (a : Admin) (user : User) (pem : Option Str) : Prop :=
  ∃ c text, pem = some (c :: text) ∧
    ∀ der, P.getDer (c :: text) = some der → der ∈ a.uids ∧ der ∉ user.certs

/-- The certificate data after the certificates of a user have been replaced: as it was, or
without the old ones and with the new one. -/
def NewData (a : Admin) (user : User) (certs : BTree Bytes Str) (data : Str) : Prop :=
  (certs = user.certs ∧ data = a.certs) ∨
    FirstCert (dropCerts user.certs.toList a).certs certs data

/-- The tables after the certificates of a user have been replaced. -/
structure CertsReplaced (a b : Admin) (r : ℕ) (user user' : User) : Prop where
  /-- no user is added or removed -/
  users : b.users = a.users
  /-- nor renamed -/
  usersByName : b.usersByName = a.usersByName
  /-- nor any root folder -/
  nextOid : b.nextOid = a.nextOid
  /-- the user's object is updated -/
  objs : ∀ k : ℕ, b.objs[k]? = if r = k then some user' else a.objs[k]?
  /-- it keeps its name -/
  name : user'.name = user.name
  /-- and its id -/
  id : user'.id = user.id
  /-- the new certificates, and only these, are the user's -/
  uids : ∀ der : Bytes, b.uids[der]? =
    if der ∈ user'.certs then some (some user.id)
    else if der ∈ user.certs then none else a.uids[der]?
  /-- a new certificate was free or the user's -/
  free : ∀ der ∈ user'.certs, der ∈ a.uids → der ∈ user.certs

/-- An assignment to the user afterwards changes no certificate. -/
theorem CertsReplaced.assign {a b : Admin} {r : ℕ} {user user' user'' : User}
    (h : CertsReplaced a b r user user') (hname : user''.name = user'.name)
    (hid : user''.id = user'.id) (hcerts : user''.certs = user'.certs) :
    CertsReplaced a { b with objs := b.objs.insert r user'' } r user user'' := by
  refine ⟨h.users, h.usersByName, h.nextOid, fun k => ?_, hname.trans h.name, hid.trans h.id,
    ?_, ?_⟩
  · simp only [BTree.get_insert, h.objs]
    by_cases hk : r = k
    · rw [if_pos hk, if_pos hk]
    · simp only [if_neg hk]
  · rw [hcerts]
    exact h.uids
  · rw [hcerts]
    exact h.free

/-- The loop over a user's certificates and the `clear` after it. -/
theorem certsReplaced_clear {a : Admin} {r : ℕ} {user : User} :
    CertsReplaced a
      { dropCerts user.certs.toList a with objs := a.objs.insert r { user with certs := ∅ } }
      r user { user with certs := ∅ } := by
  refine ⟨by simp, by simp, by simp, fun k => BTree.get_insert _, rfl, rfl, fun der => ?_,
    fun der hd => by simp at hd⟩
  rw [if_neg (by simp)]
  exact dropCerts_uids_user user a der

/-- `replace_certs`: it ends with the new certificates; or it refuses the new one, and the
user is left without any. -/
theorem replaceCerts_cases {a : Admin} {r : ℕ} {user : User} (hu : a.objs[r]? = some user)
    (hown : ∀ der ∈ user.certs, a.uids[der]? = some (some user.id)) (pem : Option Str) :
    (∃ b certs, replaceCerts P r pem a = (.ok (), b) ∧ Replaced P user.certs pem certs ∧
      CertsReplaced a b r user { user with certs := certs } ∧ NewData a user certs b.certs) ∨
    (∃ e b, replaceCerts P r pem a = (.error e, b) ∧ e ≠ .keyError ∧ Refused P a user pem ∧
      CertsReplaced a b r user { user with certs := ∅ } ∧ NewData a user ∅ b.certs) := by
  have hload : load r a = (.ok user, a) := by simp [load, hu]
  have hdel := delUserCerts_user fun der hder => BTree.mem_of_get _ (hown der hder)
  rcases pem with _ | pem
  · refine .inl ⟨a, user.certs, rfl, rfl, ⟨rfl, rfl, rfl, fun k => ?_, rfl, rfl, fun der => ?_,
      fun der hder _ => hder⟩, .inl ⟨rfl, rfl⟩⟩
    · by_cases hk : r = k
      · subst hk
        simpa using hu
      · rw [if_neg hk]
    · by_cases hd : der ∈ user.certs
      · rw [if_pos hd, hown der hd]
      · rw [if_neg hd, if_neg hd]
  · set b : Admin :=
      { dropCerts user.certs.toList a with objs := a.objs.insert r { user with certs := ∅ } } with hb
    have hrun : replaceCerts P r (some pem) a =
        (if pem = [] then pure () else addUserCert P r pem) b := by
      rw [replaceCerts, Py.bind_of_ok hload, Py.bind_of_ok hdel, Py.modify_bind_apply,
        dropCerts_objs]
    have hclear : CertsReplaced a b r user { user with certs := ∅ } := certsReplaced_clear
    have hdata : NewData a user ∅ b.certs := .inr (.inl ⟨rfl, rfl⟩)
    rcases pem with _ | ⟨c, text⟩
    · rw [if_pos rfl] at hrun
      exact .inl ⟨b, ∅, hrun, rfl, hclear, hdata⟩
    · rw [if_neg (List.cons_ne_nil _ _)] at hrun
      have hbu : b.objs[r]? = some { user with certs := ∅ } := by rw [hclear.objs, if_pos rfl]
      have hfree : ∀ der : Bytes, der ∈ b.uids ↔ der ∈ a.uids ∧ der ∉ user.certs := by
        intro der
        rw [BTree.mem_iff, BTree.mem_iff, hclear.uids, if_neg (by simp)]
        by_cases hd : der ∈ user.certs <;> simp [hd]
      rcases addUserCert_cases P hbu rfl (c :: text) with ⟨der, hder, hnot, hadd⟩ | ⟨e, hadd, he, hused⟩
      · refine .inl ⟨_, (∅ : BTree Bytes Str).insert der (c :: text), hrun.trans hadd,
          ⟨der, hder, rfl⟩, ⟨hclear.users, hclear.usersByName, hclear.nextOid, fun k => ?_, rfl, rfl,
          fun d => ?_, fun d hd hda => ?_⟩, .inr (.inr ⟨der, c :: text, rfl, rfl⟩)⟩
        · simp only [BTree.get_insert, hclear.objs]
          by_cases hk : r = k
          · rw [if_pos hk, if_pos hk]
          · simp only [if_neg hk]
        · have huids := hclear.uids d
          rw [if_neg (by simp)] at huids
          simp only [BTree.get_insert, huids]
          by_cases hd : der = d <;> simp [hd]
        · obtain rfl : der = d := by simpa using hd
          by_contra hold
          exact hnot ((hfree _).mpr ⟨hda, hold⟩)
      · exact .inr ⟨e, b, hrun.trans hadd, he, ⟨c, text, rfl, fun der hd => (hfree der).mp (hused der hd)⟩,
          hclear, hdata⟩

/-- The password part: nothing, an assignment to the user, or an exception. -/
theorem replacePassword_cases {a : Admin} {r : ℕ} {user : User} (hu : a.objs[r]? = some user)
    (name : Str) (security : Security) (appname : Str) (password : Option Secret) :
    (password = none ∧ replacePassword P r name security.run appname password a = (.ok (), a)) ∨
    (password ≠ none ∧ ∃ user', user'.changed = true ∧ user'.name = user.name ∧
      user'.id = user.id ∧ user'.certs = user.certs ∧
      replacePassword P r name security.run appname password a =
        (.ok (), { a with objs := a.objs.insert r user' })) ∨
    (password ≠ none ∧ ∃ e b, e ≠ .keyError ∧
      replacePassword P r name security.run appname password a = (.error e, b)) := by
  have hload : load r a = (.ok user, a) := by simp [load, hu]
  rcases password with _ | p
  · exact .inl ⟨rfl, rfl⟩
  · rcases hsec : security.run name (some p) appname with e | result
    · refine .inr (.inr ⟨Option.some_ne_none _, e, a, ?_, ?_⟩)
      · rintro rfl
        exact security.run_ne_keyError _ _ _ hsec
      · rw [replacePassword, hsec]
        rfl
    · obtain ⟨q, rfl⟩ := Option.ne_none_iff_exists'.mp (security.run_some hsec)
      have hrun : replacePassword P r name security.run appname (some p) a =
          (Py.ofExcept (user.changePassword P (some q)) >>= fun user' =>
            Py.modify fun a => { a with objs := a.objs.insert r user' }) a := by
        rw [replacePassword, hsec, Py.bind_of_ok (Py.ofExcept_apply _ _), Py.bind_of_ok hload]
      rcases hpw : user.changePassword P (some q) with e | user'
      · refine .inr (.inr ⟨Option.some_ne_none _, e, a, ?_, ?_⟩)
        · rintro rfl
          exact User.changePassword_ne_keyError P user _ hpw
        · rw [hrun, hpw]
          rfl
      · obtain ⟨hn, hid, hc⟩ := User.changePassword_keeps P hpw
        refine .inr (.inl ⟨Option.some_ne_none _, user', User.changePassword_some P hpw, hn, hid, hc, ?_⟩)
        rw [hrun, hpw]
        rfl

/-- Whatever the password part does, it leaves the user's name, id and certificates. -/
theorem replacePassword_leaves {a : Admin} {r : ℕ} {user : User} (hu : a.objs[r]? = some user)
    (name : Str) (security : SecurityFunction) (appname : Str) (password : Option Secret) :
    (replacePassword P r name security appname password a).2 = a ∨
    ∃ user', user'.name = user.name ∧ user'.id = user.id ∧ user'.certs = user.certs ∧
      (replacePassword P r name security appname password a).2 =
        { a with objs := a.objs.insert r user' } := by
  have hload : load r a = (.ok user, a) := by simp [load, hu]
  rcases password with _ | p
  · exact .inl rfl
  · rcases hsec : security name (some p) appname with e | q
    · rw [replacePassword, hsec]
      exact .inl rfl
    · rw [replacePassword, hsec, Py.bind_of_ok (Py.ofExcept_apply _ _), Py.bind_of_ok hload]
      rcases hpw : user.changePassword P q with e | user'
      · exact .inl rfl
      · obtain ⟨hname, hid, hcerts⟩ := User.changePassword_keeps P hpw
        exact .inr ⟨user', hname, hid, hcerts, rfl⟩

/-- `change_cert` on a known name: the certificate part, then the password part. -/
theorem changeCert_found {a : Admin} {name : Str} {r : ℕ} (hr : a.usersByName[name]? = some r)
    (pem : Option Str) (password : Option Secret) (security : SecurityFunction) (appname : Str) :
    changeCert P name pem password security appname a =
      (replaceCerts P r pem >>= fun _ =>
        replacePassword P r name security appname password) a := by
  rw [changeCert, Py.get_bind_apply, hr, Py.ofOption_some, Py.pure_bind_apply]

/-- `change_cert` on a user whose certificates are registered: it ends with the
certificates replaced, the user marked as changed if a password was passed; or it
raises, because of the password or because the new certificate is refused. -/
theorem changeCert_cases {a : Admin} {name : Str} {r : ℕ} {user : User}
    (hr : a.usersByName[name]? = some r) (hu : a.objs[r]? = some user)
    (hown : ∀ der ∈ user.certs, a.uids[der]? = some (some user.id)) (pem : Option Str)
    (password : Option Secret) (security : Security) (appname : Str) :
    (∃ b user', changeCert P name pem password security.run appname a = (.ok (), b) ∧
      Replaced P user.certs pem user'.certs ∧ CertsReplaced a b r user user' ∧
      user'.changed = (user.changed || password.isSome)) ∨
    (∃ e b, changeCert P name pem password security.run appname a = (.error e, b) ∧
      e ≠ .keyError ∧ (password ≠ none ∨ Refused P a user pem)) := by
  have hrun := changeCert_found P hr pem password security.run appname
  rcases replaceCerts_cases P hu hown pem with ⟨b, certs, hb, hrep, hab, -⟩ | ⟨e, b, hb, he, href, -⟩
  · rw [Py.bind_of_ok hb] at hrun
    have hbu : b.objs[r]? = some { user with certs := certs } := by rw [hab.objs, if_pos rfl]
    rcases replacePassword_cases P hbu name security appname password with
      ⟨rfl, hp⟩ | ⟨hne, user', hch, hn, hid, hc, hp⟩ | ⟨hne, e, c, he, hp⟩
    · exact .inl ⟨b, _, hrun.trans hp, hrep, hab, by simp⟩
    · refine .inl ⟨_, user', hrun.trans hp, by rw [hc]; exact hrep, hab.assign hn hid hc, ?_⟩
      rw [hch, Option.isSome_iff_ne_none.mpr hne, Bool.or_true]
    · exact .inr ⟨e, c, hrun.trans hp, he, .inl hne⟩
  · exact .inr ⟨e, b, hrun.trans (Py.bind_of_error hb), he, .inr href⟩

/-- Whether `change_cert` ends or raises, it leaves the tables with the certificates of the
user replaced. -/
theorem changeCert_leaves {a : Admin} {name : Str} {r : ℕ} {user : User}
    (hr : a.usersByName[name]? = some r) (hu : a.objs[r]? = some user)
    (hown : ∀ der ∈ user.certs, a.uids[der]? = some (some user.id)) (pem : Option Str)
    (password : Option Secret) (security : SecurityFunction) (appname : Str) :
    ∃ b user', (changeCert P name pem password security appname a).2 = b ∧
      CertsReplaced a b r user user' ∧ NewData a user user'.certs b.certs := by
  have hrun := changeCert_found P hr pem password security appname
  rcases replaceCerts_cases P hu hown pem with
    ⟨b, certs, hb, -, hab, hdata⟩ | ⟨e, b, hb, -, -, hab, hdata⟩
  · rw [Py.bind_of_ok hb] at hrun
    have hbu : b.objs[r]? = some { user with certs := certs } := by rw [hab.objs, if_pos rfl]
    rcases replacePassword_leaves P hbu name security appname password with
      hp | ⟨user', hn, hid, hc, hp⟩
    · exact ⟨b, _, by rw [hrun, hp], hab, hdata⟩
    · refine ⟨_, user', by rw [hrun, hp], hab.assign hn hid hc, ?_⟩
      rw [hc]
      exact hdata
  · exact ⟨b, _, by rw [hrun, Py.bind_of_error hb], hab, hdata⟩

/-! ## Adding and deleting users

A user is in the tables before the certificate is looked at, so that a certificate that is refused
leaves a user without any. Deleting a user ends when all certificates of it are registered. -/

/-- The tables after a user has been added. -/
structure UserAdded (a b : Admin) (user : User) : Prop where
  /-- under a fresh id -/
  id : user.id = a.nextOid
  /-- as a new object, which is stored -/
  changed : user.changed = true
  /-- in the table of users -/
  users : b.users = a.users.insert user.id
  /-- and in the table of names -/
  usersByName : b.usersByName = a.usersByName.insert user.name user.id
  /-- the oid is used up -/
  nextOid : b.nextOid = a.nextOid + 1
  /-- the object is there -/
  objs : ∀ k : ℕ, b.objs[k]? = if user.id = k then some user else a.objs[k]?
  /-- its certificate, if it has one, is registered -/
  uids : ∀ der : Bytes, b.uids[der]? =
    if der ∈ user.certs then some (some user.id) else a.uids[der]?
  /-- and was free -/
  free : ∀ der ∈ user.certs, der ∉ a.uids

/-- `add_user`: the security function raises; or the user is added, without a certificate
if that one raises. -/
theorem addUser_cases (a : Admin) (uname : Str) (pem : Option Str) (password : Option Secret)
    (security : SecurityFunction) (appname : Str) (uuid : Bytes) :
    (∃ e, security uname password appname = .error e ∧
      addUser P uname pem password security appname uuid a =
        (.error e, { a with nextOid := a.nextOid + 1 })) ∨
    (∃ p b user, security uname password appname = .ok p ∧ user.name = uname ∧
      { User.new P uname a.nextOid p uuid with certs := user.certs } = user ∧
      UserAdded a b user ∧ FirstCert a.certs user.certs b.certs ∧
      ((addUser P uname pem password security appname uuid a = (.ok user.id, b) ∧
          ¬ Refused P a { user with certs := ∅ } pem) ∨
        ∃ e, addUser P uname pem password security appname uuid a = (.error e, b) ∧
          Refused P a { user with certs := ∅ } pem)) := by
  rcases hsec : security uname password appname with e | password'
  · refine .inl ⟨e, rfl, ?_⟩
    rw [addUser, hsec]
    rfl
  · set user := User.new P uname a.nextOid password' uuid with huser
    have hid : user.id = a.nextOid := User.new_id P _ _ _ _
    have hname : user.name = uname := User.new_name P _ _ _ _
    have hcerts : user.certs = ∅ := User.new_certs P _ _ _ _
    set b : Admin := { a with
      nextOid := a.nextOid + 1
      objs := a.objs.insert user.id user
      users := a.users.insert user.id
      usersByName := a.usersByName.insert user.name user.id } with hb
    have hadded : UserAdded a b user :=
      ⟨hid, User.new_changed P _ _ _ _, rfl, rfl, rfl, fun k => BTree.get_insert _,
        fun der => by simp [hcerts, hb], fun der hder => by simp [hcerts] at hder⟩
    have hnone : FirstCert a.certs user.certs b.certs := .inl ⟨hcerts, rfl⟩
    have hrun : addUser P uname pem password security appname uuid a =
        (addFirstCert P user.id pem >>= fun _ => pure user.id) b := by
      rw [addUser, hsec]
      rfl
    rcases pem with _ | _ | ⟨c, text⟩
    · refine .inr ⟨_, b, user, rfl, hname, rfl, hadded, hnone, .inl ⟨hrun, ?_⟩⟩
      rintro ⟨c, text, h, -⟩
      cases h
    · refine .inr ⟨_, b, user, rfl, hname, rfl, hadded, hnone, .inl ⟨hrun, ?_⟩⟩
      rintro ⟨c, text, h, -⟩
      cases h
    · have hbu : b.objs[user.id]? = some user := by rw [hadded.objs, if_pos rfl]
      rcases addUserCert_cases P hbu hcerts (c :: text) with
        ⟨der, hder, hnot, hadd⟩ | ⟨e, hadd, -, hused⟩
      · refine .inr ⟨_, _, { user with certs := (∅ : BTree Bytes Str).insert der (c :: text) }, rfl,
          hname, rfl, ⟨hid, hadded.changed, rfl, rfl, rfl, fun k => ?_, fun d => ?_, fun d hd => ?_⟩,
          .inr ⟨der, c :: text, rfl, rfl⟩, .inl ⟨hrun.trans (Py.bind_of_ok hadd), ?_⟩⟩
        · simp only [BTree.get_insert, hadded.objs]
          by_cases hk : user.id = k
          · rw [if_pos hk, if_pos hk]
          · simp only [if_neg hk]
        · simp only [BTree.get_insert, hb]
          by_cases hd : der = d <;> simp [hd]
        · obtain rfl : der = d := by simpa using hd
          exact hnot
        · rintro ⟨c', text', hpem, hall⟩
          obtain ⟨rfl, rfl⟩ := List.cons.inj (Option.some.inj hpem)
          exact hnot (hall der hder).1
      · exact .inr ⟨_, b, user, rfl, hname, rfl, hadded, hnone,
          .inr ⟨e, hrun.trans (Py.bind_of_error hadd), c, text, rfl, fun der hd =>
            ⟨hused der hd, by simp⟩⟩⟩

/-- `del_user` on a user whose certificates are registered. -/
theorem delUser_ok {a : Admin} {name : Str} {r : ℕ} {user : User}
    (hr : a.usersByName[name]? = some r) (hu : a.objs[r]? = some user)
    (hid : user.id ∈ a.users) (hown : ∀ der ∈ user.certs, der ∈ a.uids) :
    delUser name a = (.ok (), dropCerts user.certs.toList
      { a with usersByName := a.usersByName.erase name, users := a.users.erase user.id }) := by
  set b : Admin := { a with usersByName := a.usersByName.erase name } with hb
  have hload : load r b = (.ok user, b) := by simp [load, hb, hu]
  rw [delUser, Py.get_bind_apply, hr, Py.ofOption_some, Py.pure_bind_apply, Py.modify_bind_apply,
    Py.bind_of_ok hload, Py.get_bind_apply, if_pos hid, Py.modify_bind_apply]
  exact delUserCerts_user hown

/-- `del_user` on an unknown name. -/
theorem delUser_unknown {a : Admin} {name : Str} (h : a.usersByName[name]? = none) :
    delUser name a = (.error .keyError, a) := by
  rw [delUser, Py.get_bind_apply, h]
  rfl

/-- `change_cert` on an unknown name. -/
theorem changeCert_unknown {a : Admin} {name : Str} (h : a.usersByName[name]? = none)
    (pem : Option Str) (password : Option Secret) (security : SecurityFunction) (appname : Str) :
    changeCert P name pem password security appname a = (.error .keyError, a) := by
  rw [changeCert, Py.get_bind_apply, h]
  rfl

end Admin

end Zerodb
