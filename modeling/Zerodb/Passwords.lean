import Zerodb.AdminMemory

/-!
# Passwords: the life cycle of a user's password

A client never sends its password: a key derivation function of `kdf` turns it into a
hash, and the administrator keeps a salted hash of that.

* `Kdf.run` — the three functions of `kdf`, which agree on the hash of a password;
* `recorded` — the administrator's calls with a record of the password last set for each
  user; the record is not part of the program;
* `Kept` — what a user object holds for its last password. Every call keeps it;
* `Salted` — the salt exists only if the user was added with a password. Without one the
  first password cannot be set later, and `check_password` raises.
-/

namespace Zerodb

/-! ## Passwords and their bytes

Everything is hashed as bytes, and a password may be passed as a text or as bytes. Two passwords
are the same (`Same`) if they have the same bytes, which for two texts means that they are equal.
The hashes are assumed to have no collisions (`Platform.Ideal`), so that equal hashes mean the
same password. -/

/-- Different texts have different bytes. -/
theorem encode_injective : Function.Injective encode := by
  intro s t h
  have hbytes : s.utf8Encode = t.utf8Encode := congrArg List.toByteArray h
  exact String.ofList_injective (String.toByteArray_inj.mp hbytes)

namespace Secret

/-- Are they the same password? A text is also the same as its encoding. -/
def Same : Secret → Secret → Prop
  | .text s, .text t => s = t
  | .bytes b, .bytes c => b = c
  | .text s, .bytes b => encode s = b
  | .bytes b, .text s => b = encode s

theorem same_iff (p q : Secret) : p.Same q ↔ p.toBytes = q.toBytes := by
  cases p with
  | text s =>
    cases q with
    | text t => exact encode_injective.eq_iff.symm
    | bytes b => exact Iff.rfl
  | bytes b => cases q <;> exact Iff.rfl

/-- An empty password has no bytes. -/
theorem truthy_iff (p : Secret) : p.truthy = true ↔ p.toBytes ≠ [] := by
  cases p with
  | text s =>
    have hempty : s = [] ↔ encode s = [] := encode_injective.eq_iff' rfl |>.symm
    simp [truthy, toBytes, ← hempty]
  | bytes b => simp [truthy, toBytes]

end Secret

/-- What is assumed of the hash functions: they have no collisions, and a digest is not
empty. -/
structure Platform.Ideal (P : Platform) : Prop where
  /-- `sha256` is injective -/
  sha256_inj : Function.Injective P.sha256
  /-- `scrypt` is injective in the password -/
  scrypt_inj : ∀ salt, Function.Injective fun password => P.scrypt password salt
  /-- a digest has bytes -/
  sha256_ne_nil : ∀ data, P.sha256 data ≠ []

namespace Platform.Ideal

variable {P : Platform} (hP : P.Ideal)

include hP

/-- The hash sent for a password determines its bytes. -/
theorem authHash_inj {username appname : Str} {p q : Secret} :
    P.authHash username p appname = P.authHash username q appname ↔ p.Same q := by
  rw [Secret.same_iff]
  refine ⟨?_, ?_⟩
  · intro h
    exact hP.scrypt_inj _ (List.append_cancel_right (hP.sha256_inj h))
  · intro h
    rw [authHash, h, authHash]

theorem authHash_ne_nil (username : Str) (p : Secret) (appname : Str) :
    P.authHash username p appname ≠ [] := hP.sha256_ne_nil _

/-- The salted hash determines the bytes that were hashed. -/
theorem hashPassword_inj {p q : Secret} {salt : Bytes} :
    P.hashPassword p salt = P.hashPassword q salt ↔ p.toBytes = q.toBytes := by
  refine ⟨?_, ?_⟩
  · intro h
    exact List.append_cancel_right (hP.sha256_inj (List.append_cancel_left h))
  · intro h
    rw [hashPassword, h, hashPassword]

end Platform.Ideal

/-! ## The key derivation functions

Which of the three functions a client uses depends on what it is given (`guess`). For a nonempty
password all of them send the same hash, and it is the one that the administrator's security
function makes, so that a user can be added on one side and log in from the other. -/

/-- The functions of `kdf`. -/
inductive Kdf where
  /-- `key_from_password` -/
  | keyFromPassword
  /-- `key_from_cert` -/
  | keyFromCert
  /-- `hash_password` -/
  | hashPassword
  deriving DecidableEq

namespace Kdf

variable (P : Platform)

/-- `scrypt.hash(password, salt, **scrypt_kw)`, with the salt made of user name and
application name. -/
def scryptKey (username : Str) (password : Secret) (appname : Str) : Bytes :=
  P.scrypt password.toBytes (encode (Platform.kdfSalt username appname))

/-- `hashlib.sha256(key + b'auth').digest()`. -/
def authDigest (key : Bytes) : Bytes := P.sha256 (key ++ encode ['a', 'u', 't', 'h'])

/-- A function of `kdf`: the password to send, and the encryption key. The key file, if
there is one, is given by its text; the certificate file is not read. -/
def run (username : Str) (password : Option Secret) (keyFile : Option Str) (appname : Str)
    (key : Option Bytes) : Kdf → Except Exc (Option Secret × Option Bytes)
  | keyFromPassword =>
    match password with
    | none => .error .typeError
    | some p =>
      let key := scryptKey P username p appname
      .ok (some (.bytes (authDigest P key)), some key)
  | keyFromCert =>
    match keyFile with
    | none => .error .typeError
    | some text =>
      let key := P.sha256 (encode text)
      match password with
      | none => .ok (none, some key)
      | some p => .ok (some (.bytes (authDigest P (scryptKey P username p appname))), some key)
  | hashPassword =>
    match password with
    | none => .ok (none, key)
    | some p =>
      if p.truthy then .ok (some (.bytes (authDigest P (scryptKey P username p appname))), key)
      else .ok (some p, key)

/-- `guess`. -/
def guess (password : Option Secret) (keyFile : Option Str) (key : Option Bytes) :
    Except Exc Kdf :=
  match key, password, keyFile with
  | none, some _, _ => .ok keyFromPassword
  | none, none, some _ => .ok keyFromCert
  | none, none, none => .error (.attributeError "Not enough attributes to guess KDF")
  | some _, _, _ => .ok hashPassword

/-- What is sent for a password. -/
def clientHash (kdf : Kdf) (username : Str) (password : Secret) (appname : Str) : Secret :=
  if kdf = hashPassword ∧ password.truthy = false then password
  else .bytes (P.authHash username password appname)

/-- All functions send the same for a password. -/
theorem run_some (kdf : Kdf) (username : Str) (p : Secret) (text appname : Str)
    (key : Option Bytes) :
    ∃ key', kdf.run P username (some p) (some text) appname key =
      .ok (some (kdf.clientHash P username p appname), key') := by
  cases kdf with
  | keyFromPassword => exact ⟨_, rfl⟩
  | keyFromCert => exact ⟨_, rfl⟩
  | hashPassword =>
    refine ⟨key, ?_⟩
    rw [run, clientHash]
    cases p.truthy <;> rfl

/-- The default security function of the administrator is `hash_password`. -/
theorem kdfHashPassword_run (username : Str) (password : Option Secret) (appname : Str) :
    (P.kdfHashPassword.run username password appname) =
      (run P username password none appname none hashPassword).map Prod.fst := by
  cases password with
  | none => rfl
  | some p =>
    simp only [Platform.kdfHashPassword, run]
    cases p.truthy <;> rfl

/-- It hashes nonempty passwords. -/
theorem kdfHashPassword_of_truthy {p : Secret} (hp : p.truthy = true) (username appname : Str) :
    P.kdfHashPassword.run username (some p) appname =
      .ok (some (.bytes (P.authHash username p appname))) := by
  rw [kdfHashPassword_run, run, if_pos hp]
  rfl

end Kdf

/-! ## What a user object holds

`Kept` relates a user object to the password last set. It is stated with the salt that the object
has: a password that is kept is salted with it, which is what `check_password` computes again. -/

namespace User

variable (P : Platform)

/-- What a user object holds for the password last set, when that was a nonempty one, and
for none. -/
def Kept (user : User) : Option (Secret × Str) → Prop
  | none => user.password = none
  | some (p, appname) => p.truthy = true ∧ ∃ salt, user.salt = some salt ∧
      user.password = some (P.hashPassword (.bytes (P.authHash user.name p appname)) salt)

variable {P} {user : User}

/-- Without a password no hash is accepted. -/
theorem checkPassword_none (h : user.Kept P none) (hash : Secret) :
    user.checkPassword P hash ≠ .ok true := by
  have hnone : user.password = none := h
  unfold checkPassword
  cases user.salt with
  | none =>
    intro hok
    cases hok
  | some salt =>
    intro hok
    have hhash := of_decide_eq_true (Except.ok.inj hok)
    rw [hnone] at hhash
    exact absurd hhash (Option.some_ne_none _)

/-- A hash is accepted if and only if it has the bytes that were hashed for the password. -/
theorem checkPassword_eq_true_iff (hP : P.Ideal) {p : Secret} {appname : Str}
    (h : user.Kept P (some (p, appname))) {hash : Secret} :
    user.checkPassword P hash = .ok true ↔ hash.toBytes = P.authHash user.name p appname := by
  obtain ⟨-, salt, hsalt, hpassword⟩ := h
  rw [checkPassword, hsalt, hpassword]
  simp only [Except.ok.injEq, decide_eq_true_eq, Option.some.injEq]
  exact hP.hashPassword_inj

/-- **A password is accepted if and only if it is the last one**, whichever function of `kdf`
made the hash. -/
theorem checkPassword_iff (hP : P.Ideal) {p : Secret} {appname : Str}
    (h : user.Kept P (some (p, appname))) (kdf : Kdf) (q : Secret) :
    user.checkPassword P (kdf.clientHash P user.name q appname) = .ok true ↔ q.Same p := by
  rw [checkPassword_eq_true_iff hP h, Kdf.clientHash]
  by_cases hempty : kdf = .hashPassword ∧ q.truthy = false
  · -- an empty password is sent as it is; no digest is empty
    rw [if_pos hempty]
    have hq : q.toBytes = [] := by
      by_contra hne
      rw [(Secret.truthy_iff q).mpr hne] at hempty
      cases hempty.2
    refine iff_of_false ?_ ?_
    · rw [hq]
      exact (hP.authHash_ne_nil _ _ _).symm
    · rw [Secret.same_iff, hq]
      exact ((Secret.truthy_iff p).mp h.1).symm
  · rw [if_neg hempty]
    exact hP.authHash_inj

end User

/-! ## The calls, with the default security function

The calls of `Admin` with `hash_password` filled in. What was last set for a user is not in the
tables, which have hashes only; `recorded` keeps it beside them, so that a statement about every
state can speak of it. -/

namespace Admin

variable (P : Platform)

/-- A call of the administrator with the default security function. -/
inductive Command where
  /-- `add_user(uname, pem_data, password, appname=appname)` -/
  | addUser : (uname : Str) → (pem : Option Str) → (password : Option Secret) →
      (appname : Str) → (uuid : Bytes) → Command
  /-- `del_user(name)` -/
  | delUser : (name : Str) → Command
  /-- `change_cert(name, pem_data, password, appname=appname)` -/
  | changeCert : (name : Str) → (pem : Option Str) → (password : Option Secret) →
      (appname : Str) → Command

namespace Command

/-- The security function filled in. -/
def call : Command → Call
  | addUser uname pem password appname uuid =>
    .addUser uname pem password P.kdfHashPassword.run appname uuid
  | delUser name => .delUser name
  | changeCert name pem password appname =>
    .changeCert name pem password P.kdfHashPassword.run appname

/-- The password passed. -/
def password : Command → Option Secret
  | addUser _ _ password _ _ => password
  | delUser _ => none
  | changeCert _ _ password _ => password

/-- Is it a nonempty one? -/
def givesPassword (c : Command) : Bool := c.password.any Secret.truthy

/-- What is recorded for a password: it, unless it is empty. -/
def entry (appname : Str) (p : Secret) : Option (Secret × Str) :=
  if p.truthy then some (p, appname) else none

/-- The user whose password a call has set, and what is recorded for it. A new user has one
set, empty if none was passed; `change_cert` sets one if it was passed and nothing raised. -/
def sets (a : Admin) (result : Except Exc Unit) : Command → Option (ℕ × Option (Secret × Str))
  | addUser _ _ password appname _ => some (a.nextOid, password.bind (entry appname))
  | delUser _ => none
  | changeCert name _ password appname =>
    match result with
    | .error _ => none
    | .ok () => a.usersByName[name]?.bind fun r => password.map fun p => (r, entry appname p)

end Command

/-- The tables, with the record of passwords. -/
structure Recorded where
  /-- the tables -/
  tables : Admin
  /-- by user id: the password last set and the application name it was set with, unless it
  was empty -/
  last : ℕ → Option (Secret × Str)

/-- The calls, with their effect on the record. -/
def recorded : Machine Recorded Command (Except Exc Unit) := fun s c =>
  let (result, b) := memory P s.tables (c.call P)
  (result, ⟨b, match c.sets s.tables result with
    | none => s.last
    | some (r, x) => Function.update s.last r x⟩)

/-- No user, nothing recorded. -/
def Recorded.init : Recorded := ⟨Admin.init P, fun _ => none⟩

@[simp] theorem recorded_tables (s : Recorded) (c : Command) :
    (recorded P s c).2.tables = (memory P s.tables (c.call P)).2 := rfl

@[simp] theorem recorded_result (s : Recorded) (c : Command) :
    (recorded P s c).1 = (memory P s.tables (c.call P)).1 := rfl

/-! ## One call

A password is hashed twice on its way: by the security function, and with the salt. On a user
without a salt the second step raises for a nonempty password (`replacePassword_unsalted`); an
empty one is stored as none. `PasswordEffect` collects the cases of all calls. -/

variable {P}

/-- `change_cert` on a user: the certificate part raises; or the password part follows. -/
theorem changeCert_parts {a : Admin} {name : Str} {r : ℕ} {user : User}
    (hr : a.usersByName[name]? = some r) (hu : a.objs[r]? = some user)
    (hown : ∀ der ∈ user.certs, a.uids[der]? = some (some user.id)) (pem : Option Str)
    (password : Option Secret) (security : SecurityFunction) (appname : Str) :
    (∃ e b, changeCert P name pem password security appname a = (.error e, b) ∧
      Refused P a user pem ∧ CertsReplaced a b r user { user with certs := ∅ }) ∨
    (∃ b certs, changeCert P name pem password security appname a =
        replacePassword P r name security appname password b ∧
      ¬ Refused P a user pem ∧ CertsReplaced a b r user { user with certs := certs }) := by
  have hrun := changeCert_found P hr pem password security appname
  rcases replaceCerts_cases P hu hown pem with
    ⟨b, certs, hb, hrep, hab, -⟩ | ⟨e, b, hb, -, href, hab, -⟩
  · exact .inr ⟨b, certs, hrun.trans (Py.bind_of_ok hb), hab.not_refused hrep, hab⟩
  · exact .inl ⟨e, b, hrun.trans (Py.bind_of_error hb), href, hab⟩

/-- The password part on a user without salt: a nonempty password raises. -/
theorem replacePassword_unsalted (hP : P.Ideal) {a : Admin} {r : ℕ} {user : User}
    (hu : a.objs[r]? = some user) (hsalt : user.salt = none) (name appname : Str) {p : Secret}
    (hp : p.truthy = true) :
    replacePassword P r name P.kdfHashPassword.run appname (some p) a =
      (.error (.attributeError "salt"), a) := by
  have hload : load r a = (.ok user, a) := by simp [load, hu]
  have hsecurity := Kdf.kdfHashPassword_of_truthy P hp name appname
  have hdigest : (Secret.bytes (P.authHash name p appname)).truthy = true :=
    (Secret.truthy_iff _).mpr (hP.authHash_ne_nil _ _ _)
  rw [replacePassword, hsecurity, Py.bind_of_ok (Py.ofExcept_apply _ _), Py.bind_of_ok hload,
    User.changePassword]
  simp only [hdigest, if_true, hsalt]
  rfl

/-- The password part otherwise: the user object keeps what was passed. -/
theorem replacePassword_salted (hP : P.Ideal) {a : Admin} {r : ℕ} {user : User}
    (hu : a.objs[r]? = some user) (appname : Str) {p : Secret}
    (hsalt : p.truthy = true → user.salt ≠ none) :
    ∃ user', replacePassword P r user.name P.kdfHashPassword.run appname (some p) a =
        (.ok (), { a with objs := a.objs.insert r user' }) ∧
      user'.name = user.name ∧ user'.id = user.id ∧ user'.certs = user.certs ∧
      user'.salt = user.salt ∧ user'.Kept P (Command.entry appname p) := by
  have hload : load r a = (.ok user, a) := by simp [load, hu]
  cases hp : p.truthy with
  | true =>
    obtain ⟨salt, hs⟩ := Option.ne_none_iff_exists'.mp (hsalt hp)
    have hsecurity := Kdf.kdfHashPassword_of_truthy P hp user.name appname
    -- the hash is not empty, so that it is salted and stored
    have hdigest : (Secret.bytes (P.authHash user.name p appname)).truthy = true :=
      (Secret.truthy_iff _).mpr (hP.authHash_ne_nil _ _ _)
    refine ⟨{ user with
      password := some (P.hashPassword (.bytes (P.authHash user.name p appname)) salt)
      changed := true }, ?_, rfl, rfl, rfl, rfl, ?_⟩
    · rw [replacePassword, hsecurity, Py.bind_of_ok (Py.ofExcept_apply _ _), Py.bind_of_ok hload,
        User.changePassword]
      simp only [hdigest, if_true, hs]
      rfl
    · rw [Command.entry, if_pos hp]
      exact ⟨hp, salt, hs, rfl⟩
  | false =>
    -- an empty password is passed as it is, and stored as none
    have hsecurity : P.kdfHashPassword.run user.name (some p) appname = .ok (some p) := by
      simp only [Platform.kdfHashPassword, hp, Bool.false_eq_true, if_false]
    refine ⟨{ user with password := none, changed := true }, ?_, rfl, rfl, rfl, rfl, ?_⟩
    · rw [replacePassword, hsecurity, Py.bind_of_ok (Py.ofExcept_apply _ _), Py.bind_of_ok hload,
        User.changePassword]
      simp only [hp, Bool.false_eq_true, if_false]
      rfl
    · rw [Command.entry, hp]
      exact rfl

/-- A new user holds the password it was added with, and has a salt if it is a nonempty one. -/
theorem kept_new (hP : P.Ideal) (name : Str) (root : ℕ) (password : Option Secret) (appname : Str)
    {p : Option Secret} (h : P.kdfHashPassword.run name password appname = .ok p) (uuid : Bytes) :
    (User.new P name root p uuid).Kept P (password.bind (Command.entry appname)) ∧
      ((User.new P name root p uuid).salt ≠ none ↔ password.any Secret.truthy = true) := by
  cases password with
  | none =>
    obtain rfl := Except.ok.inj h
    exact ⟨rfl, iff_of_false (not_not_intro rfl) Bool.false_ne_true⟩
  | some q =>
    obtain rfl := Except.ok.inj h
    have hdigest : (Secret.bytes (P.authHash name q appname)).truthy = true :=
      (Secret.truthy_iff _).mpr (hP.authHash_ne_nil _ _ _)
    cases hq : q.truthy with
    | true =>
      simp only [User.new, Option.bind_some, Option.any_some, Command.entry, hq, if_true, hdigest]
      exact ⟨⟨hq, uuid, rfl, rfl⟩, iff_of_true (Option.some_ne_none _) trivial⟩
    | false =>
      simp only [User.new, Option.bind_some, Option.any_some, Command.entry, hq,
        Bool.false_eq_true, if_false]
      exact ⟨rfl, iff_of_false (not_not_intro rfl) not_false⟩

/-- What a call does to the passwords of the users. -/
inductive PasswordEffect (P : Platform) (a : Admin) :
    Command → Except Exc Unit → Admin → Prop where
  /-- a user is added with its password, whether its certificate is refused or not -/
  | added {uname pem password appname uuid result b} {user : User} : UserAdded a b user →
      user.Kept P (password.bind (Command.entry appname)) →
      (user.salt ≠ none ↔ password.any Secret.truthy = true) →
      (result = .ok () ↔ ¬ Refused P a (User.new P uname a.nextOid password uuid) pem) →
      PasswordEffect P a (.addUser uname pem password appname uuid) result b
  /-- no user is added or changed -/
  | deleted {name result b} : (∀ x, IsUser b x → IsUser a x) →
      PasswordEffect P a (.delUser name) result b
  /-- there is no user of that name to change -/
  | unknown {name pem password appname} : a.usersByName[name]? = none →
      PasswordEffect P a (.changeCert name pem password appname) (.error .keyError) a
  /-- the password of a user is set, if one is passed -/
  | set {pem password appname b} {user user' : User} : IsUser a user →
      a.usersByName[user.name]? = some user.id → CertsReplaced a b user.id user user' →
      user'.salt = user.salt → ¬ Refused P a user pem →
      (password.any Secret.truthy = true → user.salt ≠ none) →
      (password = none → ∀ x, user.Kept P x → user'.Kept P x) →
      (∀ p, password = some p → user'.Kept P (Command.entry appname p)) →
      PasswordEffect P a (.changeCert user.name pem password appname) (.ok ()) b
  /-- the certificate is refused, or there is no salt: the password stays -/
  | stays {pem password appname e b} {user user' : User} : IsUser a user →
      a.usersByName[user.name]? = some user.id → CertsReplaced a b user.id user user' →
      user'.salt = user.salt → (∀ x, user.Kept P x → user'.Kept P x) →
      (Refused P a user pem ∨ password.any Secret.truthy = true ∧ user.salt = none) →
      PasswordEffect P a (.changeCert user.name pem password appname) (.error e) b

/-- `change_cert` on a user. -/
theorem changeCert_effect (hP : P.Ideal) {a : Admin} (hl : Linked P a) {user : User}
    (hu : IsUser a user) (hr : a.usersByName[user.name]? = some user.id) (pem : Option Str)
    (password : Option Secret) (appname : Str) :
    ∃ result b, changeCert P user.name pem password P.kdfHashPassword.run appname a =
        (result, b) ∧
      PasswordEffect P a (.changeCert user.name pem password appname) result b := by
  rcases changeCert_parts hr hu.2 (fun _ hd => hl.mapped.own hu hd) pem password
    P.kdfHashPassword.run appname with ⟨e, b, hrun, href, hab⟩ | ⟨b, certs, hrun, href, hab⟩
  · exact ⟨_, b, hrun, .stays hu hr hab rfl (fun _ hk => hk) (.inl href)⟩
  · have hbu : b.objs[user.id]? = some { user with certs := certs } := by rw [hab.objs, if_pos rfl]
    cases password with
    | none =>
      refine ⟨_, b, hrun.trans rfl, .set hu hr hab rfl href ?_ (fun _ _ hk => hk) ?_⟩
      · intro h
        cases h
      · intro p h
        cases h
    | some p =>
      by_cases hready : p.truthy = true → user.salt ≠ none
      · obtain ⟨user', hp, hn, hid, hc, hs, hk⟩ := replacePassword_salted hP hbu appname hready
        refine ⟨_, _, hrun.trans hp, .set hu hr (hab.assign hn hid hc) hs href hready ?_ ?_⟩
        · intro h
          cases h
        · intro q hq
          rw [← Option.some.inj hq]
          exact hk
      · obtain ⟨hp, hsalt⟩ := Classical.not_imp.mp hready
        have hsalt : user.salt = none := by simpa using hsalt
        exact ⟨_, b, hrun.trans (replacePassword_unsalted hP hbu hsalt _ _ hp),
          .stays hu hr hab rfl (fun _ hk => hk) (.inr ⟨hp, hsalt⟩)⟩

theorem refused_congr {a : Admin} {x y : User} (h : x.certs = y.certs) (pem : Option Str) :
    Refused P a x pem ↔ Refused P a y pem := by
  rw [Refused, h]
  exact Iff.rfl

/-- Every call has one of these effects. -/
theorem passwordEffect (hP : P.Ideal) {a : Admin} (hl : Linked P a) (c : Command) :
    ∃ result b, memory P a (c.call P) = (result, b) ∧ PasswordEffect P a c result b := by
  cases c with
  | addUser uname pem password appname uuid =>
    rcases addUser_cases P a uname pem password P.kdfHashPassword.run appname uuid with
      ⟨e, hsec, -⟩ | ⟨p, b, user, hsec, -, hnew, hadded, -, hrun⟩
    · cases password <;> cases hsec
    · obtain ⟨hkept, hsalt⟩ := kept_new hP uname a.nextOid password appname hsec uuid
      have hcerts : (User.new P uname a.nextOid password uuid).certs =
          ({ user with certs := ∅ } : User).certs := User.new_certs P _ _ _ _
      rw [← hnew] at hadded hrun
      rcases hrun with ⟨hrun, href⟩ | ⟨e, hrun, href⟩
      · refine ⟨_, b, Py.bind_of_ok hrun, .added hadded hkept hsalt (iff_of_true rfl ?_)⟩
        exact mt (refused_congr hcerts pem).mp href
      · refine ⟨_, b, Py.bind_of_error hrun, .added hadded hkept hsalt (iff_of_false (by simp) ?_)⟩
        exact not_not_intro ((refused_congr hcerts pem).mpr href)
  | delUser name =>
    rcases hr : a.usersByName[name]? with _ | r
    · exact ⟨_, a, delUser_unknown hr, .deleted fun _ hx => hx⟩
    · obtain ⟨user, hu, rfl, rfl⟩ := hl.names name r hr
      exact ⟨_, deleted a user, delUser_ok hr hu.2 hu.1 (hl.mapped.own_mem hu),
        .deleted fun x hx => ((deleted_isUser a user x).mp hx).1⟩
  | changeCert name pem password appname =>
    rcases hr : a.usersByName[name]? with _ | r
    · exact ⟨_, a, changeCert_unknown P hr _ _ _ _, .unknown hr⟩
    · obtain ⟨user, hu, rfl, rfl⟩ := hl.names name r hr
      exact changeCert_effect hP hl hu hr pem password appname

/-! ## Histories

The effects give the invariant `Tracked`: each user object holds what is recorded for it. Two
equivalences follow step by step, one for the calls that complete (`Ready`) and one for users that
have a salt (`addsSalted`), and are put together for histories. -/

/-- The condition for a call with a nonempty password to complete. A certificate that is
passed must be readable and not another user's; `change_cert` needs a user of that name, and
one that has a salt. -/
def Ready (P : Platform) (a : Admin) : Command → Prop
  | .addUser uname pem password _ uuid =>
    ¬ Refused P a (User.new P uname a.nextOid password uuid) pem
  | .delUser _ => True
  | .changeCert name pem _ _ => ∃ user, IsUser a user ∧ a.usersByName[name]? = some user.id ∧
      ¬ Refused P a user pem ∧ user.salt ≠ none

/-- Does the call add no user without a password? -/
def Command.addsSalted : Command → Prop
  | .addUser _ _ password _ _ => password.any Secret.truthy = true
  | .delUser _ => True
  | .changeCert .. => True

/-- What the calls keep: each user object holds what is recorded for it. -/
structure Tracked (P : Platform) (s : Recorded) : Prop where
  /-- the tables are linked -/
  linked : Linked P s.tables
  /-- the passwords are those recorded -/
  kept : ∀ user, IsUser s.tables user → user.Kept P (s.last user.id)

/-- All users have a salt. -/
def Salted (s : Recorded) : Prop := ∀ user, IsUser s.tables user → user.salt ≠ none

theorem Tracked.init : Tracked P (Recorded.init P) :=
  ⟨Linked.init, fun user hu => by simp [IsUser, Recorded.init, Admin.init] at hu⟩

/-- Every call keeps what is recorded. -/
theorem Tracked.step (hP : P.Ideal) {s : Recorded} (ht : Tracked P s) (c : Command) :
    Tracked P (recorded P s c).2 := by
  have hlinked : Linked P (memory P s.tables (c.call P)).2 := ht.linked.step _
  refine ⟨hlinked, fun x hx => ?_⟩
  obtain ⟨result, b, hmem, heffect⟩ := passwordEffect hP ht.linked c
  rw [recorded_tables, hmem] at hx
  rw [recorded, hmem]
  cases heffect with
  | added hadded hkept _ _ =>
    rcases (hadded.isUser ht.linked x).mp hx with rfl | hx
    · rw [hadded.id]
      simp only [Command.sets, Function.update_self]
      exact hkept
    · -- the other users have smaller numbers
      have hne : x.id ≠ s.tables.nextOid := (ht.linked.objs _ _ hx.2).2.ne
      simp only [Command.sets, Function.update_of_ne hne]
      exact ht.kept x hx
  | deleted hsub => exact ht.kept x (hsub x hx)
  | unknown _ => exact ht.kept x hx
  | @set pem password appname _ user user' hu hr hab _ _ _ hsame hset =>
    cases password with
    | none =>
      simp only [Command.sets, hr, Option.bind_some, Option.map_none]
      rcases (hab.isUser hu x).mp hx with rfl | ⟨hx, -⟩
      · rw [hab.id]
        exact hsame rfl _ (ht.kept user hu)
      · exact ht.kept x hx
    | some p =>
      simp only [Command.sets, hr, Option.bind_some, Option.map_some]
      rcases (hab.isUser hu x).mp hx with rfl | ⟨hx, hne⟩
      · rw [hab.id, Function.update_self]
        exact hset p rfl
      · rw [Function.update_of_ne hne]
        exact ht.kept x hx
  | @stays _ _ _ _ _ user user' hu _ hab _ hsame _ =>
    simp only [Command.sets]
    rcases (hab.isUser hu x).mp hx with rfl | ⟨hx, -⟩
    · rw [hab.id]
      exact hsame _ (ht.kept user hu)
    · exact ht.kept x hx

/-- A call with a nonempty password completes exactly when it is ready to. -/
theorem Tracked.completes_iff (hP : P.Ideal) {s : Recorded} (ht : Tracked P s) {c : Command}
    (hgives : c.givesPassword = true) : (recorded P s c).1 = .ok () ↔ Ready P s.tables c := by
  obtain ⟨result, b, hmem, heffect⟩ := passwordEffect hP ht.linked c
  rw [recorded_result, hmem]
  cases heffect with
  | added _ _ _ hiff => exact hiff
  | deleted _ => cases hgives
  | unknown hr =>
    refine iff_of_false (by simp) ?_
    rintro ⟨user, -, hname, -⟩
    rw [hr] at hname
    cases hname
  | set hu hr _ _ href hsalt _ _ => exact iff_of_true rfl ⟨_, hu, hr, href, hsalt hgives⟩
  | stays hu hr _ _ _ hwhy =>
    refine iff_of_false (by simp) ?_
    rintro ⟨x, hx, hname, href, hsalt⟩
    rw [hr] at hname
    -- the user of that name is the one whose salt is missing, or whose certificate is refused
    obtain rfl := hu.unique hx (Option.some.inj hname)
    rcases hwhy with h | ⟨-, h⟩
    · exact href h
    · exact hsalt h

/-- The users keep having salts exactly when one is not added without a password. -/
theorem Tracked.salted_iff (hP : P.Ideal) {s : Recorded} (ht : Tracked P s) (hs : Salted s)
    (c : Command) : Salted (recorded P s c).2 ↔ c.addsSalted := by
  obtain ⟨result, b, hmem, heffect⟩ := passwordEffect hP ht.linked c
  rw [Salted, recorded_tables, hmem]
  cases heffect with
  | @added _ _ _ _ _ _ _ user hadded _ hsalt _ =>
    rw [Command.addsSalted, ← hsalt]
    refine ⟨?_, ?_⟩
    · intro h
      exact h user ((hadded.isUser ht.linked user).mpr (.inl rfl))
    · intro h x hx
      rcases (hadded.isUser ht.linked x).mp hx with rfl | hx
      · exact h
      · exact hs x hx
  | deleted hsub => exact iff_of_true (fun x hx => hs x (hsub x hx)) trivial
  | unknown _ => exact iff_of_true hs trivial
  | set hu _ hab hsalt _ _ _ _ =>
    refine iff_of_true (fun x hx => ?_) trivial
    rcases (hab.isUser hu x).mp hx with rfl | ⟨hx, -⟩
    · rw [hsalt]
      exact hs _ hu
    · exact hs x hx
  | stays hu _ hab hsalt _ _ =>
    refine iff_of_true (fun x hx => ?_) trivial
    rcases (hab.isUser hu x).mp hx with rfl | ⟨hx, -⟩
    · rw [hsalt]
      exact hs _ hu
    · exact hs x hx

/-! ## What is accepted

The record says which password was last set, and the user object holds a hash of it. The two agree
for every function of `kdf`; `check_password` has an answer for a user if the user has a salt. -/

/-- What `check_password` accepts: of a user whose last password is `p`, exactly the hash
of `p`, whichever function of `kdf` the client uses; of a user without a password, nothing. -/
structure Agrees (P : Platform) (s : Recorded) : Prop where
  /-- the hash of a password is accepted if and only if it is the last one -/
  accepts : ∀ user, IsUser s.tables user → ∀ p appname, s.last user.id = some (p, appname) →
    ∀ (kdf : Kdf) (q : Secret) (keyFile : Str) (key : Option Bytes), ∃ hash key',
      kdf.run P user.name (some q) (some keyFile) appname key = .ok (some hash, key') ∧
      (user.checkPassword P hash = .ok true ↔ q.Same p)
  /-- no hash is accepted where there is no password -/
  rejects : ∀ user, IsUser s.tables user → s.last user.id = none →
    ∀ hash, user.checkPassword P hash ≠ .ok true

/-- `check_password` has an answer for every user. -/
def Answers (P : Platform) (s : Recorded) : Prop :=
  ∀ user, IsUser s.tables user → ∀ hash, ∃ answer, user.checkPassword P hash = .ok answer

theorem Tracked.agrees (hP : P.Ideal) {s : Recorded} (ht : Tracked P s) : Agrees P s where
  accepts user hu p appname hlast kdf q keyFile key := by
    have hk := ht.kept user hu
    rw [hlast] at hk
    obtain ⟨key', hrun⟩ := kdf.run_some P user.name q keyFile appname key
    exact ⟨_, key', hrun, User.checkPassword_iff hP hk kdf q⟩
  rejects user hu hlast hash := by
    have hk := ht.kept user hu
    rw [hlast] at hk
    exact User.checkPassword_none hk hash

theorem answers_iff (s : Recorded) : Answers P s ↔ Salted s := by
  refine ⟨?_, ?_⟩
  · intro h user hu hsalt
    obtain ⟨answer, hanswer⟩ := h user hu (.bytes [])
    rw [User.checkPassword, hsalt] at hanswer
    cases hanswer
  · intro h user hu hash
    obtain ⟨salt, hsalt⟩ := Option.ne_none_iff_exists'.mp (h user hu)
    exact ⟨_, by rw [User.checkPassword, hsalt]⟩

/-- Every call with a nonempty password completes. -/
def Completes (P : Platform) (cs : List Command) : Prop :=
  (recorded P).Along (fun s c => c.givesPassword = true → (recorded P s c).1 = .ok ())
    (Recorded.init P) cs

theorem completes_iff_ready (hP : P.Ideal) (cs : List Command) :
    Completes P cs ↔ (recorded P).Along (fun s c => c.givesPassword = true → Ready P s.tables c)
      (Recorded.init P) cs := by
  refine @Machine.along_congr _ _ _ (recorded P) _ _ (Tracked P) (fun _ c ht _ => ht.step hP c)
    ?_ _ Tracked.init cs
  intro s c ht
  exact forall_congr' fun hgives => ht.completes_iff hP hgives

/-- **Passwords**: all calls with a nonempty password complete, and in every state the hashes
of the last passwords and no others are accepted, if and only if all these calls are ready.
`check_password` answers for every user besides if and only if, in addition, no user is
added without a password. -/
theorem passwords_iff_ready (P : Platform) (hP : P.Ideal) (cs : List Command) :
    ((Completes P cs ∧ ∀ s ∈ (recorded P).states (Recorded.init P) cs, Agrees P s) ↔
      (recorded P).Along (fun s c => c.givesPassword = true → Ready P s.tables c)
        (Recorded.init P) cs) ∧
    ((Completes P cs ∧
        ∀ s ∈ (recorded P).states (Recorded.init P) cs, Agrees P s ∧ Answers P s) ↔
      (recorded P).Along (fun s c => c.givesPassword = true → Ready P s.tables c)
          (Recorded.init P) cs ∧ ∀ c ∈ cs, c.addsSalted) := by
  have hstep : ∀ s c, Tracked P s → Tracked P (recorded P s c).2 := fun s c ht => ht.step hP c
  have hagrees : ∀ s ∈ (recorded P).states (Recorded.init P) cs, Agrees P s := fun s hs =>
    (@Machine.states_inv _ _ _ (recorded P) (Tracked P) hstep _ Tracked.init cs s hs).agrees hP
  have hanswers : (∀ s ∈ (recorded P).states (Recorded.init P) cs, Answers P s) ↔
      ∀ c ∈ cs, c.addsSalted := by
    have hnone : Salted (Recorded.init P) := fun user hu => by
      simp [IsUser, Recorded.init, Admin.init] at hu
    simp only [answers_iff]
    rw [← Machine.along_inputs (m := recorded P)]
    exact @Machine.states_inv_iff_along _ _ _ (recorded P) _ Salted (Tracked P)
      (fun s c ht _ _ => hstep s c ht) (fun s c ht hs => ht.salted_iff hP hs c) _ Tracked.init hnone cs
  rw [completes_iff_ready hP, ← hanswers]
  refine ⟨and_iff_left hagrees, ?_⟩
  exact and_congr_right fun _ => ⟨fun h s hs => (h s hs).2, fun h s hs => ⟨hagrees s hs, h s hs⟩⟩

/-- A platform whose hash functions have no collisions: a digest is the data after a mark. -/
def markedPlatform : Platform where
  getDer pem := if pem = [] then none else some (pem.map fun c => UInt8.ofNat c.toNat)
  sha256 data := 0 :: data
  scrypt password salt := password ++ salt
  nobodyPem := ['n']
  nobodyDer := [110]
  getDer_nobody := plainPlatform.getDer_nobody

theorem markedPlatform_ideal : markedPlatform.Ideal where
  sha256_inj _ _ h := (List.cons.inj h).2
  scrypt_inj _ _ _ h := List.append_cancel_right h
  sha256_ne_nil _ := List.cons_ne_nil _ _

/-- User `a` is added with password `p`, which is changed to `q` and then cleared; the
hypotheses of the equivalence are met. -/
theorem passwords_iff_ready_example :
    ((Completes markedPlatform
          [.addUser ['a'] none (some (.text ['p'])) ['z'] [1],
            .changeCert ['a'] none (some (.text ['q'])) ['z'],
            .changeCert ['a'] none (some (.text [])) ['z']] ∧
        ∀ s ∈ (recorded markedPlatform).states (Recorded.init markedPlatform)
          [.addUser ['a'] none (some (.text ['p'])) ['z'] [1],
            .changeCert ['a'] none (some (.text ['q'])) ['z'],
            .changeCert ['a'] none (some (.text [])) ['z']], Agrees markedPlatform s) ↔
      (recorded markedPlatform).Along
        (fun s c => c.givesPassword = true → Ready markedPlatform s.tables c)
        (Recorded.init markedPlatform)
        [.addUser ['a'] none (some (.text ['p'])) ['z'] [1],
          .changeCert ['a'] none (some (.text ['q'])) ['z'],
          .changeCert ['a'] none (some (.text [])) ['z']]) :=
  (passwords_iff_ready markedPlatform markedPlatform_ideal _).1

/-- User `a` is added with a certificate and no password: a password cannot be set later, and
`check_password` raises. -/
theorem changeCert_first_password :
    ¬ Completes markedPlatform
        [.addUser ['a'] (some ['1']) none ['z'] [], .changeCert ['a'] none (some (.text ['p'])) ['z']] ∧
    ((recorded markedPlatform).final (Recorded.init markedPlatform)
        [.addUser ['a'] (some ['1']) none ['z'] []]).tables.objs[2]?.map
      (fun user => user.checkPassword markedPlatform (.bytes [0])) =
        some (.error (.attributeError "salt")) := by
  refine ⟨?_, by decide +kernel⟩
  intro h
  exact absurd (h.2.1 (by decide)) (by decide +kernel)

end Admin

end Zerodb
