import Zerodb.Admin
import Zerodb.OwnerStorage

/-!
# Gate: registering a connection

`ZEOStorage.register` first lets the base class select the raw storage and enable
the storage methods on the connection, and only then authenticates the client and
puts an `OwnerStorage` in place of the raw storage. Every exit in the middle leaves
the connection open with the methods enabled on the raw storage.

A second `register` is refused by the base class, so that the first one decides for good.

`authenticate_eq_ok` says which clients get through; `gated_iff` for which histories
of calls the records are touched through an `OwnerStorage` only.
-/

namespace Zerodb

/-! ## Authentication

`Authentic` is what the server should ask of a client, in terms of its tables: it mentions no
exception, and says who is authenticated as whom. The code asks in a different order, and stops at
the first thing that is missing. -/

/-- The dictionary of credentials; a key may be missing. -/
structure Credentials where
  /-- `credentials['name']` -/
  name : Option Str
  /-- `credentials['password']` -/
  password : Option Secret

/-- **Authentication of a client as a user**: the certificate maps to the user's id,
or to nobody and there are credentials; and credentials, when given, name the user
and pass `check_password`. -/
structure Authentic (P : Platform) (admin : Admin) (der : Bytes) (credentials : Option Credentials)
    (uid : ℕ) : Prop where
  /-- the certificate's user, or nobody -/
  cert : admin.uids[der]? = some (some uid) ∨ admin.uids[der]? = some none ∧ credentials ≠ none
  /-- the credentials, if any -/
  credentials : ∀ c, credentials = some c → ∃ name password r user,
    c.name = some name ∧ c.password = some password ∧ admin.usersByName[name]? = some r ∧
      admin.objs[r]? = some user ∧ user.checkPassword P password = .ok true ∧ user.id = uid

/-! ## The connection

What is modelled of a connection is `self.storage` and whether the methods are enabled. Which of
them a client may call depends on the second, which storage they work on depends on the first, and
the base class sets both before the client is authenticated. -/

/-- What `self.storage` is. -/
inductive Handle where
  /-- the storage of the server -/
  | raw : Handle
  /-- `OwnerStorage(storage, user_id)` -/
  | owner : (userId : Oid) → Handle
  deriving DecidableEq

/-- A server connection of a client, and the server's storage. -/
structure ZEOStorage (σ : Type) where
  /-- the state of the server's storage -/
  base : σ
  /-- `self.storage`, once the base class has set it -/
  storage : Option Handle
  /-- `self.user_id` -/
  userId : Option ℕ
  /-- has `setup_delegation` enabled the registered methods? -/
  enabled : Bool

namespace ZEOStorage

variable {σ : Type} (B : BaseStorage σ) (P : Platform)

/-- The base class's `register`. It raises if a storage is selected already, and for what else it
has against the request, such as an unknown storage: `refused`. Otherwise it selects the storage
and calls `setup_delegation`. -/
def baseRegister (refused : Option Exc) : Py (ZEOStorage σ) Unit := do
  let conn ← Py.get
  match conn.storage, refused with
  | some _, _ => Py.raise (.valueError "duplicate register() call")
  | none, some e => Py.raise e
  | none, none => Py.modify fun conn => { conn with storage := some .raw, enabled := true }

/-- The check of the credentials in `register`. -/
def checkCredentials (admin : Admin) (c : Credentials) : Py (ZEOStorage σ) Unit := do
  let name ← Py.ofOption .keyError c.name
  let r ← Py.ofOption .keyError admin.usersByName[name]?
  let user ← Py.ofOption .posKeyError admin.objs[r]?
  let conn ← Py.get
  if some user.id ≠ conn.userId ∧ conn.userId ≠ none then Py.raise .authError
  else
    let password ← Py.ofOption .keyError c.password
    let ok ← Py.ofExcept (user.checkPassword P password)
    if ok then Py.modify fun conn => { conn with userId := some user.id }
    else Py.raise .authError

/-- The authentication in `register`. -/
def authenticate (admin : Admin) (der : Bytes) (credentials : Option Credentials) :
    Py (ZEOStorage σ) Unit := do
  let userId ← Py.ofOption .keyError admin.uids[der]?
  Py.modify fun conn => { conn with userId := userId }
  match credentials with
  | none => if userId = none then Py.raise .authError else pure ()
  | some c => checkCredentials P admin c

/-- `register`, for a client with certificate `der`; credentials are `none` also
when the dictionary is empty. -/
def register (refused : Option Exc) (admin : Admin) (der : Bytes)
    (credentials : Option Credentials) : Py (ZEOStorage σ) Unit := do
  baseRegister refused
  authenticate P admin der credentials
  Py.modify fun conn => { conn with storage := conn.userId.map (.owner ∘ p64) }

/-- The calls of a client. -/
inductive Call where
  /-- `register`; the base class may have something against it, and the server finds the
  administrator's tables in its storage -/
  | register : (refused : Option Exc) → (admin : Admin) → (der : Bytes) →
      (credentials : Option Credentials) → Call
  /-- `get_root_id()` -/
  | getRootId : Call
  /-- `loadBefore(oid, tid)` -/
  | loadBefore : (oid : Oid) → (tid : ℕ) → Call
  /-- `loadSerial(oid, serial)` -/
  | loadSerial : (oid : Oid) → (serial : ℕ) → Call
  /-- `store(oid, serial, data)` -/
  | store : (oid : Oid) → (serial : ℕ) → (data : Bytes) → Call

/-- What the client is sent back. -/
inductive Reply where
  /-- the method is not enabled -/
  | refused : Reply
  /-- the outcome of `register` -/
  | registered : Except Exc Unit → Reply
  /-- the user id -/
  | rootId : Option ℕ → Reply
  /-- the outcome of `loadBefore` -/
  | loaded : Except Exc (Option Record) → Reply
  /-- the outcome of `loadSerial` -/
  | data : Except Exc Bytes → Reply
  /-- the outcome of `store` -/
  | stored : Except Exc ℕ → Reply

/-- `self.storage.loadBefore`. -/
def Handle.loadBefore : Handle → σ → Oid → ℕ → Except Exc (Option Record)
  | .raw => B.loadBefore
  | .owner userId => OwnerStorage.loadBefore B userId

/-- `self.storage.loadSerial`. -/
def Handle.loadSerial : Handle → σ → Oid → ℕ → Except Exc Bytes
  | .raw => B.loadSerial
  | .owner _ => OwnerStorage.loadSerial

/-- `self.storage.store`. -/
def Handle.store : Handle → σ → Oid → ℕ → Bytes → Except Exc (ℕ × σ)
  | .raw => B.store
  | .owner userId => OwnerStorage.store B userId

/-- The storage a method works on: none before it is enabled. -/
def handle (conn : ZEOStorage σ) : Option Handle := if conn.enabled then conn.storage else none

/-- The connection as a machine. -/
def machine : Machine (ZEOStorage σ) Call Reply := fun conn call =>
  match call, conn.handle with
  | .register refused admin der credentials, _ =>
    let (result, conn) := register P refused admin der credentials conn
    (.registered result, conn)
  | _, none => (.refused, conn)
  | .getRootId, some _ => (.rootId conn.userId, conn)
  | .loadBefore oid tid, some h => (.loaded (Handle.loadBefore B h conn.base oid tid), conn)
  | .loadSerial oid serial, some h => (.data (Handle.loadSerial B h conn.base oid serial), conn)
  | .store oid serial data, some h =>
    match Handle.store B h conn.base oid serial data with
    | .error e => (.stored (.error e), conn)
    | .ok (tid, base) => (.stored (.ok tid), { conn with base := base })

/-- A new connection to a server. -/
def connect (base : σ) : ZEOStorage σ := ⟨base, none, none, false⟩

/-! ## Registering

On a new connection `register` does one of three things: the base class refuses it and nothing
happens, the client is authentic and gets its `OwnerStorage`, or it raises and leaves the raw
storage selected. What the base class refuses, but for a second `register`, is a parameter. -/

/-- The check of the credentials passes for the user they name. -/
theorem checkCredentials_eq_ok {admin : Admin} {c : Credentials} {conn conn' : ZEOStorage σ} :
    checkCredentials P admin c conn = (.ok (), conn') ↔
      ∃ name password r user, c.name = some name ∧ c.password = some password ∧
        admin.usersByName[name]? = some r ∧ admin.objs[r]? = some user ∧
        user.checkPassword P password = .ok true ∧
        (conn.userId = some user.id ∨ conn.userId = none) ∧
        conn' = { conn with userId := some user.id } := by
  simp only [checkCredentials, Py.bind_eq_ok, Py.ofOption_eq_ok, Py.get_bind_apply]
  refine ⟨?_, ?_⟩
  · rintro ⟨name, conn, ⟨hname, rfl⟩, r, conn, ⟨hr, rfl⟩, user, conn, ⟨hu, rfl⟩, h⟩
    by_cases hid : some user.id ≠ conn.userId ∧ conn.userId ≠ none
    · rw [if_pos hid] at h
      cases h
    · rw [if_neg hid] at h
      simp only [Py.bind_eq_ok, Py.ofOption_eq_ok, Py.ofExcept_apply, Prod.mk.injEq] at h
      obtain ⟨password, conn, ⟨hpw, rfl⟩, ok, conn, ⟨hcheck, rfl⟩, h⟩ := h
      cases ok
      · cases h
      · refine ⟨name, password, r, user, hname, hpw, hr, hu, hcheck, ?_, ?_⟩
        · by_contra hnot
          exact hid ⟨fun heq => hnot (.inl heq.symm), fun heq => hnot (.inr heq)⟩
        · exact (congrArg Prod.snd h).symm
  · rintro ⟨name, password, r, user, hname, hpw, hr, hu, hcheck, hid, rfl⟩
    refine ⟨name, conn, ⟨hname, rfl⟩, r, conn, ⟨hr, rfl⟩, user, conn, ⟨hu, rfl⟩, ?_⟩
    have hid' : ¬(some user.id ≠ conn.userId ∧ conn.userId ≠ none) := by
      rcases hid with hid | hid <;> simp [hid]
    simp only [if_neg hid', hpw, Py.ofOption_some, Py.pure_bind_apply, hcheck]
    rfl

/-- Authentication ends normally for authentic clients, with the user's id. -/
theorem authenticate_eq_ok {admin : Admin} {der : Bytes} {credentials : Option Credentials}
    {conn conn' : ZEOStorage σ} :
    authenticate P admin der credentials conn = (.ok (), conn') ↔
      ∃ uid, Authentic P admin der credentials uid ∧ conn' = { conn with userId := some uid } := by
  simp only [authenticate, Py.bind_eq_ok, Py.ofOption_eq_ok, Py.modify_bind_apply]
  refine ⟨?_, ?_⟩
  · rintro ⟨userId, conn, ⟨huid, rfl⟩, h⟩
    rcases credentials with _ | c
    · rcases userId with _ | uid
      · cases h
      · exact ⟨uid, ⟨.inl huid, fun c hc => absurd hc.symm (Option.some_ne_none c)⟩,
          (congrArg Prod.snd h).symm⟩
    · obtain ⟨name, password, r, user, hname, hpw, hr, hu, hcheck, hid, rfl⟩ :=
        (checkCredentials_eq_ok P).mp h
      refine ⟨user.id, ⟨?_, ?_⟩, rfl⟩
      · rcases hid with hid | hid
        · exact .inl (huid.trans (congrArg some hid))
        · exact .inr ⟨huid.trans (congrArg some hid), Option.some_ne_none c⟩
      · rintro c' ⟨⟩
        exact ⟨name, password, r, user, hname, hpw, hr, hu, hcheck, rfl⟩
  · rintro ⟨uid, ⟨hcert, hcred⟩, rfl⟩
    rcases credentials with _ | c
    · obtain huid := hcert.resolve_right fun h => h.2 rfl
      exact ⟨some uid, conn, ⟨huid, rfl⟩, rfl⟩
    · obtain ⟨name, password, r, user, hname, hpw, hr, hu, hcheck, rfl⟩ := hcred c rfl
      have hrun : ∀ userId, userId = some user.id ∨ userId = none →
          checkCredentials P admin c { conn with userId := userId } =
            (.ok (), { conn with userId := some user.id }) := fun userId hid =>
        (checkCredentials_eq_ok P).mpr ⟨name, password, r, user, hname, hpw, hr, hu, hcheck, hid, rfl⟩
      rcases hcert with huid | ⟨huid, -⟩
      · exact ⟨some user.id, conn, ⟨huid, rfl⟩, hrun _ (.inl rfl)⟩
      · exact ⟨none, conn, ⟨huid, rfl⟩, hrun _ (.inr rfl)⟩

/-- Authentication leaves the storage of the connection alone. -/
theorem authenticate_keeps (admin : Admin) (der : Bytes) (credentials : Option Credentials)
    (I : ZEOStorage σ → Prop) (hI : ∀ conn userId, I conn → I { conn with userId := userId }) :
    Py.Keeps I (authenticate P admin der credentials) := by
  refine (Py.Keeps.ofOption _ _).bind fun userId => (Py.Keeps.modify fun conn => hI conn _).bind
    fun _ => ?_
  rcases credentials with _ | c
  · dsimp only
    split
    · exact Py.Keeps.raise _
    · exact Py.Keeps.pure _
  · refine (Py.Keeps.ofOption _ _).bind fun name => (Py.Keeps.ofOption _ _).bind fun r =>
      (Py.Keeps.ofOption _ _).bind fun user => Py.Keeps.get.bind fun conn => ?_
    split
    · exact Py.Keeps.raise _
    · refine (Py.Keeps.ofOption _ _).bind fun password => (Py.Keeps.ofExcept _).bind fun ok => ?_
      split
      · exact Py.Keeps.modify fun conn => hI conn _
      · exact Py.Keeps.raise _

/-- On a connection that has not selected a storage, the base class does. -/
theorem register_of_new (admin : Admin) (der : Bytes) (credentials : Option Credentials)
    {conn : ZEOStorage σ} (hnew : conn.storage = none) :
    register P none admin der credentials conn = (authenticate P admin der credentials >>=
      fun _ => Py.modify fun conn => { conn with storage := conn.userId.map (.owner ∘ p64) })
      { conn with storage := some .raw, enabled := true } := by
  have hbase : baseRegister none conn =
      (.ok (), { conn with storage := some .raw, enabled := true }) := by
    rw [baseRegister, Py.get_bind_apply, hnew]
    rfl
  rw [register, Py.bind_of_ok hbase]

/-- **Registering** on a connection that has not selected a storage: an authentic client gets the
`OwnerStorage` of its user; anyone else gets an exception, and the raw storage. -/
theorem register_cases (admin : Admin) (der : Bytes) (credentials : Option Credentials)
    {conn : ZEOStorage σ} (hnew : conn.storage = none) :
    (∃ uid, Authentic P admin der credentials uid ∧
      register P none admin der credentials conn = (.ok (), { conn with
        storage := some (.owner (p64 uid)), userId := some uid, enabled := true })) ∨
    (¬∃ uid, Authentic P admin der credentials uid) ∧
      ∃ e conn', register P none admin der credentials conn = (.error e, conn') ∧
        conn'.storage = some .raw ∧ conn'.enabled = true ∧ conn'.base = conn.base := by
  have hrun := register_of_new P admin der credentials hnew
  rcases hauth : authenticate P admin der credentials
    { conn with storage := some .raw, enabled := true } with ⟨e | ⟨⟩, conn'⟩
  · right
    refine ⟨?_, e, conn', hrun.trans (Py.bind_of_error hauth), ?_⟩
    · rintro ⟨uid, huid⟩
      rw [(authenticate_eq_ok P).mpr ⟨uid, huid, rfl⟩] at hauth
      cases hauth
    · have hkeep := authenticate_keeps P admin der credentials
        (fun c : ZEOStorage σ => c.storage = some .raw ∧ c.enabled = true ∧ c.base = conn.base)
        (fun _ _ h => h) { conn with storage := some .raw, enabled := true } ⟨rfl, rfl, rfl⟩
      rw [hauth] at hkeep
      exact hkeep
  · left
    obtain ⟨uid, huid, rfl⟩ := (authenticate_eq_ok P).mp hauth
    exact ⟨uid, huid, hrun.trans (Py.bind_of_ok hauth)⟩

/-- What the base class has something against changes nothing. -/
theorem register_of_refused {refused : Option Exc} (admin : Admin) (der : Bytes)
    (credentials : Option Credentials) {conn : ZEOStorage σ}
    (h : conn.storage ≠ none ∨ refused ≠ none) :
    ∃ e, register P refused admin der credentials conn = (.error e, conn) := by
  rcases hs : conn.storage with _ | s
  · obtain ⟨e, rfl⟩ := Option.ne_none_iff_exists'.mp (h.resolve_left fun hne => hne hs)
    refine ⟨e, ?_⟩
    rw [register, baseRegister, Py.bind_of_error]
    rw [Py.get_bind_apply, hs]
    rfl
  · refine ⟨.valueError "duplicate register() call", ?_⟩
    rw [register, baseRegister, Py.bind_of_error]
    rw [Py.get_bind_apply, hs]
    rfl

end ZEOStorage

end Zerodb
