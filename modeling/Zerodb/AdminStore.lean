import Zerodb.Admin

/-!
# AdminStore: the administrator's tables across transactions

Each transaction runs one call and commits; an exception aborts it. Between
transactions everything is reloaded. The tables are trees, written whenever they
are updated, and so is the certificate data; a user object is written only if it is
new or an attribute of it was assigned. A certificate put into the dictionary of a
user without an assignment is therefore in the tables but not in the stored user.

`consistent_iff_sound` says for which histories the tables stay consistent.
-/

namespace Zerodb

namespace Admin

variable (P : Platform)

/-! ## Transactions

A transaction starts from the stored tables. When its call ends, the trees are stored as they are,
and a user object only if it is new or marked as changed (`storedUser`); when it raises, nothing
is stored. -/

/-- A transaction: one call of the administrator. -/
inductive Tx where
  /-- `add_user(uname, pem_data, password, security, appname)` -/
  | addUser : (uname : Str) → (pem : Option Str) → (password : Option Secret) →
      (security : Security) → (appname : Str) → (uuid : Bytes) → Tx
  /-- `del_user(name)` -/
  | delUser : (name : Str) → Tx
  /-- `change_cert(name, pem_data, password, security, appname)` -/
  | changeCert : (name : Str) → (pem : Option Str) → (password : Option Secret) →
      (security : Security) → (appname : Str) → Tx

/-- The call, its result dropped. -/
def Tx.run : Tx → Py Admin Unit
  | .addUser uname pem password security appname uuid => do
    let _ ← Admin.addUser P uname pem password security.run appname uuid
    return ()
  | .delUser name => Admin.delUser name
  | .changeCert name pem password security appname =>
    Admin.changeCert P name pem password security.run appname

/-- What is stored of a user: the new state if it is marked as changed, else the old
record. -/
def storedUser (old : Option User) (user : User) : User :=
  if user.changed then { user with changed := false } else old.getD user

/-- The tables as the next transaction loads them after a commit. -/
def commit (old new : Admin) : Admin :=
  { new with objs := new.objs.map fun r user => storedUser old.objs[r]? user }

/-- Transactions as a machine on the stored tables; an abort leaves them as they
are. -/
def machine : Machine Admin Tx (Except Exc Unit) := fun a tx =>
  match tx.run P a with
  | (.ok (), b) => (.ok (), commit a b)
  | (.error e, _) => (.error e, a)

/-! ## Consistency

`WellFormed` is what every history keeps. `Consistent` asks for more: that the table of
certificates has exactly the certificates of the stored users, and that users are found under
their names. Both halves are brought into the form of `Mapped` and `Named`, which speak of users
alone, so that a step needs to say only how the set of users changes. -/

/-- A user of the table `users`. -/
def IsUser (a : Admin) (user : User) : Prop := user.id ∈ a.users ∧ a.objs[user.id]? = some user

/-- **Consistency of the tables**: `uids` maps exactly the certificates of the users
to their ids, and the nobody certificate to nothing; and no call on an existing
user fails a lookup. -/
structure Consistent (a : Admin) : Prop where
  /-- `uids` is the inverse of the users' certificates -/
  uids_iff : ∀ (der : Bytes) (uid : Option ℕ), a.uids[der]? = some uid ↔
    (der = P.nobodyDer ∧ uid = none) ∨
      ∃ user, IsUser a user ∧ der ∈ user.certs ∧ uid = some user.id
  /-- `del_user` finds what it deletes -/
  delUser_ne : ∀ user, IsUser a user → (delUser user.name a).1 ≠ .error .keyError
  /-- and so does `change_cert` -/
  changeCert_ne : ∀ user, IsUser a user → ∀ pem password (security : Security) appname,
    (changeCert P user.name pem password security.run appname a).1 ≠ .error .keyError

/-- What every history keeps, consistent or not. -/
structure WellFormed (a : Admin) : Prop where
  /-- the table of names refers to users of that name -/
  names : ∀ (name : Str) (r : ℕ), a.usersByName[name]? = some r →
    ∃ user, IsUser a user ∧ user.id = r ∧ user.name = name
  /-- the table of users refers to objects -/
  users : ∀ r ∈ a.users, ∃ user, a.objs[r]? = some user
  /-- objects are kept under their ids, which are used up, and are freshly loaded -/
  objs : ∀ (r : ℕ) (user : User), a.objs[r]? = some user →
    user.id = r ∧ r < a.nextOid ∧ user.changed = false

variable {P}

theorem IsUser.unique {a : Admin} {x y : User} (hx : IsUser a x) (hy : IsUser a y)
    (h : x.id = y.id) : x = y := by
  have := hx.2
  rw [h, hy.2] at this
  exact (Option.some.inj this).symm

/-- The users after one has been added. -/
theorem isUser_insert {a b : Admin} {user : User} (husers : b.users = a.users.insert user.id)
    (hobjs : ∀ k : ℕ, b.objs[k]? = if user.id = k then some user else a.objs[k]?)
    (hfresh : user.id ∉ a.users) (x : User) : IsUser b x ↔ x = user ∨ IsUser a x := by
  rw [IsUser, husers, TreeSet.mem_insert, hobjs]
  by_cases hx : user.id = x.id
  · rw [if_pos hx, Option.some.injEq]
    refine ⟨?_, ?_⟩
    · rintro ⟨-, rfl⟩
      exact .inl rfl
    · rintro (rfl | hu)
      · exact ⟨.inl rfl, rfl⟩
      · exact absurd hu.1 (hx ▸ hfresh)
  · rw [if_neg hx]
    refine ⟨?_, ?_⟩
    · rintro ⟨hid | hmem, hobj⟩
      · exact absurd hid.symm hx
      · exact .inr ⟨hmem, hobj⟩
    · rintro (rfl | hu)
      · exact absurd rfl hx
      · exact ⟨.inr hu.1, hu.2⟩

/-- The users after the object of one has been replaced. -/
theorem isUser_replace {a b : Admin} {user : User} (husers : b.users = a.users)
    (hobjs : ∀ k : ℕ, b.objs[k]? = if user.id = k then some user else a.objs[k]?)
    (hmem : user.id ∈ a.users) (x : User) :
    IsUser b x ↔ x = user ∨ IsUser a x ∧ x.id ≠ user.id := by
  rw [IsUser, husers, hobjs]
  by_cases hx : user.id = x.id
  · rw [if_pos hx, Option.some.injEq]
    refine ⟨?_, ?_⟩
    · rintro ⟨-, rfl⟩
      exact .inl rfl
    · rintro (rfl | ⟨-, hne⟩)
      · exact ⟨hmem, rfl⟩
      · exact absurd hx.symm hne
  · rw [if_neg hx]
    refine ⟨?_, ?_⟩
    · exact fun hh => .inr ⟨hh, Ne.symm hx⟩
    · rintro (rfl | ⟨hh, -⟩)
      · exact absurd rfl hx
      · exact hh

/-- The users after one has been deleted. -/
theorem isUser_erase {a b : Admin} {r : ℕ} (husers : b.users = a.users.erase r)
    (hobjs : ∀ k : ℕ, b.objs[k]? = a.objs[k]?) (x : User) :
    IsUser b x ↔ IsUser a x ∧ x.id ≠ r := by
  rw [IsUser, husers, TreeSet.mem_erase, hobjs, IsUser]
  exact ⟨fun h => ⟨⟨h.1.1, h.2⟩, h.1.2⟩, fun h => ⟨⟨h.1.1, h.2⟩, h.1.2⟩⟩

/-- The users, as certificates' owners: `uids_iff` without the tables. -/
def Mapped (P : Platform) (isUser : User → Prop) (uids : BTree Bytes (Option ℕ)) : Prop :=
  ∀ (der : Bytes) (uid : Option ℕ), uids[der]? = some uid ↔
    (der = P.nobodyDer ∧ uid = none) ∨
      ∃ user, isUser user ∧ der ∈ user.certs ∧ uid = some user.id

namespace Mapped

variable {isUser isUser' : User → Prop} {uids uids' : BTree Bytes (Option ℕ)}

/-- The certificates of a user are registered under its id. -/
theorem own (h : Mapped P isUser uids) {user : User} (hu : isUser user) {der : Bytes}
    (hd : der ∈ user.certs) : uids[der]? = some (some user.id) :=
  (h der _).mpr (.inr ⟨user, hu, hd, rfl⟩)

theorem own_mem (h : Mapped P isUser uids) {user : User} (hu : isUser user) :
    ∀ der ∈ user.certs, der ∈ uids :=
  fun _ hd => BTree.mem_of_get _ (h.own hu hd)

theorem nobody_mem (h : Mapped P isUser uids) : uids[P.nobodyDer]? = some none :=
  (h _ _).mpr (.inl ⟨rfl, rfl⟩)

/-- A new user with free certificates keeps the map. -/
theorem add (h : Mapped P isUser uids) {user : User} (hfree : ∀ der ∈ user.certs, der ∉ uids)
    (hisUser : ∀ x, isUser' x ↔ x = user ∨ isUser x)
    (huids : ∀ der : Bytes, uids'[der]? =
      if der ∈ user.certs then some (some user.id) else uids[der]?) :
    Mapped P isUser' uids' := by
  intro der uid
  rw [huids]
  by_cases hd : der ∈ user.certs
  · have hnot : uids[der]? = none := (BTree.not_mem_iff _).mp (hfree der hd)
    rw [if_pos hd]
    refine ⟨?_, ?_⟩
    · rintro ⟨⟩
      exact .inr ⟨user, (hisUser _).mpr (.inl rfl), hd, rfl⟩
    · rintro (⟨rfl, -⟩ | ⟨x, hx, hdx, rfl⟩)
      · rw [h.nobody_mem] at hnot
        cases hnot
      · rcases (hisUser x).mp hx with rfl | hx
        · rfl
        · rw [h.own hx hdx] at hnot
          cases hnot
  · rw [if_neg hd, h]
    refine ⟨?_, ?_⟩
    · rintro (hn | ⟨x, hx, hdx, rfl⟩)
      · exact .inl hn
      · exact .inr ⟨x, (hisUser x).mpr (.inr hx), hdx, rfl⟩
    · rintro (hn | ⟨x, hx, hdx, rfl⟩)
      · exact .inl hn
      · rcases (hisUser x).mp hx with rfl | hx
        · exact absurd hdx hd
        · exact .inr ⟨x, hx, hdx, rfl⟩

/-- Deleting a user with its certificates keeps the map. -/
theorem delete (h : Mapped P isUser uids) {user : User} (hu : isUser user)
    (hunique : ∀ x, isUser x → x.id = user.id → x = user)
    (hisUser : ∀ x, isUser' x ↔ isUser x ∧ x.id ≠ user.id)
    (huids : ∀ der : Bytes, uids'[der]? = if der ∈ user.certs then none else uids[der]?) :
    Mapped P isUser' uids' := by
  intro der uid
  rw [huids]
  by_cases hd : der ∈ user.certs
  · have hown := h.own hu hd
    rw [if_pos hd]
    refine iff_of_false (fun hh => nomatch hh) ?_
    rintro (⟨rfl, -⟩ | ⟨x, hx, hdx, rfl⟩)
    · rw [h.nobody_mem] at hown
      cases hown
    · obtain ⟨hx, hne⟩ := (hisUser x).mp hx
      rw [h.own hx hdx] at hown
      exact hne (Option.some.inj (Option.some.inj hown))
  · rw [if_neg hd, h]
    refine ⟨?_, ?_⟩
    · rintro (hn | ⟨x, hx, hdx, rfl⟩)
      · exact .inl hn
      · refine .inr ⟨x, (hisUser x).mpr ⟨hx, fun heq => ?_⟩, hdx, rfl⟩
        exact hd (hunique x hx heq ▸ hdx)
    · rintro (hn | ⟨x, hx, hdx, rfl⟩)
      · exact .inl hn
      · exact .inr ⟨x, ((hisUser x).mp hx).1, hdx, rfl⟩

/-- Someone else's certificate is neither among the old ones of a user nor among new ones that
were free. -/
theorem not_other (h : Mapped P isUser uids) {user : User} {certs : BTree Bytes Str}
    (hu : isUser user) (hfree : ∀ der ∈ certs, der ∈ uids → der ∈ user.certs) {x : User} {der : Bytes}
    (hx : isUser x) (hne : x.id ≠ user.id) (hdx : der ∈ x.certs) :
    der ∉ user.certs ∧ der ∉ certs := by
  have hold : der ∉ user.certs := by
    intro hd
    have hown := h.own hu hd
    rw [h.own hx hdx] at hown
    exact hne (Option.some.inj (Option.some.inj hown))
  exact ⟨hold, fun hd => hold (hfree der hd (h.own_mem hx der hdx))⟩

/-- Nor is the certificate of nobody. -/
theorem not_nobody (h : Mapped P isUser uids) {user : User} {certs : BTree Bytes Str}
    (hu : isUser user) (hfree : ∀ der ∈ certs, der ∈ uids → der ∈ user.certs) :
    P.nobodyDer ∉ user.certs ∧ P.nobodyDer ∉ certs := by
  have hold : P.nobodyDer ∉ user.certs := by
    intro hd
    have hown := h.own hu hd
    rw [h.nobody_mem] at hown
    cases hown
  exact ⟨hold, fun hd => hold (hfree _ hd (BTree.mem_of_get _ h.nobody_mem))⟩

/-- Registering other certificates for a user keeps the map exactly when these are
the certificates of the user afterwards. -/
theorem replace_iff (h : Mapped P isUser uids) {user user' : User} {certs : BTree Bytes Str}
    (hu : isUser user) (hid : user'.id = user.id)
    (hunique : ∀ x, isUser x → x.id = user.id → x = user)
    (hisUser : ∀ x, isUser' x ↔ x = user' ∨ isUser x ∧ x.id ≠ user.id)
    (hfree : ∀ der ∈ certs, der ∈ uids → der ∈ user.certs)
    (huids : ∀ der : Bytes, uids'[der]? = if der ∈ certs then some (some user.id)
      else if der ∈ user.certs then none else uids[der]?) :
    Mapped P isUser' uids' ↔ ∀ der, der ∈ user'.certs ↔ der ∈ certs := by
  have hother : ∀ x der, isUser x → x.id ≠ user.id → der ∈ x.certs →
      der ∉ user.certs ∧ der ∉ certs := fun _ _ => h.not_other hu hfree
  have hnobody := h.not_nobody hu hfree
  refine ⟨?_, ?_⟩
  · intro hm der
    refine ⟨?_, ?_⟩
    · intro hd
      by_contra hc
      have hown := hm.own ((hisUser _).mpr (.inl rfl)) hd
      rw [huids, if_neg hc] at hown
      by_cases hold : der ∈ user.certs
      · rw [if_pos hold] at hown
        cases hown
      · rw [if_neg hold] at hown
        rcases (h der _).mp hown with ⟨-, hn⟩ | ⟨x, hx, hdx, heq⟩
        · cases hn
        · have hxid : x.id = user.id := by rw [← hid, Option.some.inj heq]
          exact hold (hunique x hx hxid ▸ hdx)
    · intro hc
      have hown := huids der
      rw [if_pos hc] at hown
      rcases (hm der _).mp hown with ⟨-, hn⟩ | ⟨x, hx, hdx, heq⟩
      · cases hn
      · rcases (hisUser x).mp hx with rfl | ⟨hx, hne⟩
        · exact hdx
        · exact absurd (Option.some.inj heq).symm hne
  · intro hcerts der uid
    rw [huids]
    by_cases hc : der ∈ certs
    · rw [if_pos hc]
      refine ⟨?_, ?_⟩
      · rintro ⟨⟩
        exact .inr ⟨user', (hisUser _).mpr (.inl rfl), (hcerts der).mpr hc, by rw [hid]⟩
      · rintro (⟨rfl, -⟩ | ⟨x, hx, hdx, rfl⟩)
        · exact absurd hc hnobody.2
        · rcases (hisUser x).mp hx with rfl | ⟨hx, hne⟩
          · rw [hid]
          · exact absurd hc (hother x der hx hne hdx).2
    · rw [if_neg hc]
      by_cases hold : der ∈ user.certs
      · rw [if_pos hold]
        refine iff_of_false (fun hh => nomatch hh) ?_
        rintro (⟨rfl, -⟩ | ⟨x, hx, hdx, rfl⟩)
        · exact hnobody.1 hold
        · rcases (hisUser x).mp hx with rfl | ⟨hx, hne⟩
          · exact hc ((hcerts der).mp hdx)
          · exact (hother x der hx hne hdx).1 hold
      · rw [if_neg hold, h]
        refine ⟨?_, ?_⟩
        · rintro (hn | ⟨x, hx, hdx, rfl⟩)
          · exact .inl hn
          · refine .inr ⟨x, (hisUser x).mpr (.inr ⟨hx, fun heq => ?_⟩), hdx, rfl⟩
            exact hold (hunique x hx heq ▸ hdx)
        · rintro (hn | ⟨x, hx, hdx, rfl⟩)
          · exact .inl hn
          · rcases (hisUser x).mp hx with rfl | ⟨hx, -⟩
            · exact absurd ((hcerts der).mp hdx) hc
            · exact .inr ⟨x, hx, hdx, rfl⟩

end Mapped

/-- Every user can be found under its name. -/
def Named (a : Admin) : Prop := ∀ user, IsUser a user → user.name ∈ a.usersByName

/-- The user a name refers to. -/
theorem WellFormed.named {a : Admin} (hw : WellFormed a) {name : Str} {r : ℕ}
    (hr : a.usersByName[name]? = some r) :
    ∃ user, IsUser a user ∧ a.objs[r]? = some user ∧ user.id = r ∧ user.name = name := by
  obtain ⟨user, hu, rfl, hn⟩ := hw.names name r hr
  exact ⟨user, hu, hu.2, rfl, hn⟩

/-- The calls on existing users look nothing up in vain. -/
theorem WellFormed.consistent {a : Admin} (hw : WellFormed a) (hm : Mapped P (IsUser a) a.uids)
    (hn : Named a) : Consistent P a := by
  refine ⟨hm, fun x hx => ?_, fun x hx pem password security appname => ?_⟩ <;>
    obtain ⟨r, hr⟩ := (BTree.mem_iff _).mp (hn x hx) <;>
    obtain ⟨user, hu, hobj, -, -⟩ := hw.named hr
  · rw [delUser_ok hr hobj hu.1 (hm.own_mem hu)]
    exact fun h => nomatch h
  · rcases changeCert_cases P hr hobj (fun _ hd => hm.own hu hd) pem password security appname with
      ⟨b, user', hb, -⟩ | ⟨e, b, hb, he, -⟩
    · rw [hb]
      exact fun h => nomatch h
    · rw [hb]
      exact fun h => he (Except.error.inj h)

theorem Consistent.mapped {a : Admin} (h : Consistent P a) : Mapped P (IsUser a) a.uids := h.uids_iff

theorem Consistent.named {a : Admin} (h : Consistent P a) : Named a := by
  intro user hu
  by_contra hnot
  apply h.delUser_ne user hu
  rw [delUser_unknown ((BTree.not_mem_iff _).mp hnot)]

/-! ## What a transaction stores

The effects of the calls (`UserAdded`, `CertsReplaced`) are carried over to what is stored. They
come through as they are, but for one thing: a user object whose certificates were replaced and
that is not marked as changed stays as it was. -/

/-- The objects after a commit, when the call has updated one of them. -/
theorem commit_objs {a b : Admin} (hw : WellFormed a) {r : ℕ} {user : User}
    (hobjs : ∀ k : ℕ, b.objs[k]? = if r = k then some user else a.objs[k]?) (k : ℕ) :
    (commit a b).objs[k]? =
      if r = k then some (storedUser a.objs[r]? user) else a.objs[k]? := by
  rw [commit, Std.ExtTreeMap.getElem?_map, hobjs]
  by_cases hk : r = k
  · subst hk
    simp
  · rw [if_neg hk, if_neg hk]
    rcases hu : a.objs[k]? with _ | x
    · rfl
    · simp [storedUser, (hw.objs k x hu).2.2]

theorem commit_of_same {a b : Admin} (hw : WellFormed a) (hobjs : b.objs = a.objs) (k : ℕ) :
    (commit a b).objs[k]? = a.objs[k]? := by
  rw [commit, Std.ExtTreeMap.getElem?_map, hobjs]
  rcases hu : a.objs[k]? with _ | x
  · rfl
  · simp [storedUser, (hw.objs k x hu).2.2]

@[simp] theorem commit_users (a b : Admin) : (commit a b).users = b.users := rfl

@[simp] theorem commit_usersByName (a b : Admin) : (commit a b).usersByName = b.usersByName := rfl

@[simp] theorem commit_uids (a b : Admin) : (commit a b).uids = b.uids := rfl

@[simp] theorem commit_nextOid (a b : Admin) : (commit a b).nextOid = b.nextOid := rfl

/-- A user is added. -/
theorem UserAdded.commit {a b : Admin} {user : User} (hw : WellFormed a) (h : UserAdded a b user) :
    ∃ user', user'.id = user.id ∧ user'.name = user.name ∧ user'.certs = user.certs ∧
      user'.changed = false ∧ (commit a b).objs[user.id]? = some user' ∧
      ∀ x, IsUser (commit a b) x ↔ x = user' ∨ IsUser a x := by
  have hfresh : user.id ∉ a.users := by
    intro hu
    obtain ⟨x, hx⟩ := hw.users _ hu
    have := (hw.objs _ _ hx).2.1
    rw [h.id] at this
    omega
  have hstored : storedUser a.objs[user.id]? user = { user with changed := false } := by
    simp [storedUser, h.changed]
  have hobjs := commit_objs hw h.objs
  rw [hstored] at hobjs
  exact ⟨{ user with changed := false }, rfl, rfl, rfl, rfl, by rw [hobjs, if_pos rfl],
    isUser_insert h.users hobjs hfresh⟩

/-- A user's record is replaced. -/
theorem CertsReplaced.commit {a b : Admin} {r : ℕ} {user user' : User} (hw : WellFormed a)
    (hu : IsUser a user) (hr : user.id = r) (h : CertsReplaced a b r user user') :
    ∃ user'', user''.id = user.id ∧ user''.name = user.name ∧ user''.changed = false ∧
      user''.certs = (if user'.changed then user'.certs else user.certs) ∧
      (commit a b).objs[r]? = some user'' ∧
      ∀ x, IsUser (commit a b) x ↔ x = user'' ∨ IsUser a x ∧ x.id ≠ user.id := by
  subst hr
  set stored := storedUser a.objs[user.id]? user' with hst
  have hstored : stored.id = user.id ∧ stored.name = user.name ∧ stored.changed = false ∧
      stored.certs = if user'.changed then user'.certs else user.certs := by
    rw [hst, hu.2, storedUser]
    by_cases hc : user'.changed = true
    · simp [hc, h.id, h.name]
    · simp [hc, (hw.objs _ _ hu.2).2.2]
  have hobjs := commit_objs hw h.objs
  rw [← hst, ← hstored.1] at hobjs
  refine ⟨stored, hstored.1, hstored.2.1, hstored.2.2.1, hstored.2.2.2, ?_, ?_⟩
  · rw [← hstored.1, hobjs, if_pos rfl]
  · rw [← hstored.1]
    exact isUser_replace h.users hobjs (hstored.1 ▸ hu.1)

/-- The tables are well formed afterwards. -/
theorem CertsReplaced.wellFormed_commit {a b : Admin} {user user' : User} (hw : WellFormed a)
    (hu : IsUser a user) (h : CertsReplaced a b user.id user user') : WellFormed (a.commit b) := by
  obtain ⟨user'', hid, hname', hch'', -, hobj', hisUser⟩ := h.commit hw hu rfl
  refine ⟨fun n r hn => ?_, fun r hr' => ?_, fun r x hx => ?_⟩
  · rw [commit_usersByName, h.usersByName] at hn
    obtain ⟨x, hx, rfl, hxn⟩ := hw.names n r hn
    by_cases hx' : x.id = user.id
    · obtain rfl := hx.unique hu hx'
      exact ⟨user'', (hisUser _).mpr (.inl rfl), hid, hname'.trans hxn⟩
    · exact ⟨x, (hisUser x).mpr (.inr ⟨hx, hx'⟩), rfl, hxn⟩
  · rw [commit_users, h.users] at hr'
    rw [commit_objs hw h.objs]
    by_cases hk : user.id = r
    · exact ⟨_, if_pos hk⟩
    · rw [if_neg hk]
      exact hw.users r hr'
  · by_cases hk : user.id = r
    · subst hk
      obtain rfl := Option.some.inj (hobj'.symm.trans hx)
      refine ⟨hid, ?_, hch''⟩
      rw [commit_nextOid, h.nextOid]
      exact (hw.objs _ _ hu.2).2.1
    · rw [commit_objs hw h.objs, if_neg hk] at hx
      rw [commit_nextOid, h.nextOid]
      exact hw.objs r x hx

/-- The tables after `del_user` of a user. -/
theorem delUser_commit {a : Admin} {name : Str} {r : ℕ} (hw : WellFormed a)
    (hm : Mapped P (IsUser a) a.uids) (hr : a.usersByName[name]? = some r) :
    ∃ user b, IsUser a user ∧ user.id = r ∧ user.name = name ∧ delUser name a = (.ok (), b) ∧
      (∀ k : ℕ, (commit a b).objs[k]? = a.objs[k]?) ∧ b.nextOid = a.nextOid ∧
      b.users = a.users.erase r ∧ b.usersByName = a.usersByName.erase name ∧
      (∀ der : Bytes, b.uids[der]? = if der ∈ user.certs then none else a.uids[der]?) ∧
      ∀ x, IsUser (commit a b) x ↔ IsUser a x ∧ x.id ≠ r := by
  obtain ⟨user, hu, hobj, rfl, hname⟩ := hw.named hr
  have hrun := delUser_ok hr hobj hu.1 (hm.own_mem hu)
  set b := dropCerts user.certs.toList
    { a with usersByName := a.usersByName.erase name, users := a.users.erase user.id } with hb
  have hobjs : ∀ k : ℕ, (commit a b).objs[k]? = a.objs[k]? := commit_of_same hw (by simp [hb])
  refine ⟨user, b, hu, rfl, hname, hrun, hobjs, by simp [hb], by simp [hb], by simp [hb],
    fun der => dropCerts_uids_user user _ der, isUser_erase (by simp [hb]) hobjs⟩

/-! ## One transaction

`Sound` is the condition on a transaction that is needed for consistency, read off the tables
before it. For each call it is shown to be enough, and to be needed: in a transaction that is not
sound a certificate or a user is lost, which `Mapped.replace_iff` and `Named` make an equivalence.
-/

theorem machine_of_ok {a b : Admin} {t : Tx} (h : t.run P a = (.ok (), b)) :
    machine P a t = (.ok (), commit a b) := by
  rw [machine, h]

theorem machine_of_error {a b : Admin} {t : Tx} {e : Exc} (h : t.run P a = (.error e, b)) :
    machine P a t = (.error e, a) := by
  rw [machine, h]

/-- The histories' steps under which the tables stay consistent. A user whose name is
shared is not deleted under it; and a certificate change without a password does not
change the set of certificates, unless it raises. -/
def Sound (P : Platform) (a : Admin) : Tx → Prop
  | .addUser .. => True
  | .delUser name => ∀ user, IsUser a user → user.name = name →
      a.usersByName[name]? = some user.id
  | .changeCert name pem password _ _ => password = none → ∀ user, IsUser a user →
      a.usersByName[name]? = some user.id →
        Refused P a user pem ∨
          ∀ certs, Replaced P user.certs pem certs → ∀ der, der ∈ user.certs ↔ der ∈ certs

/-- Adding a user. -/
theorem step_addUser {a b : Admin} {user : User} (hw : WellFormed a) (hc : Consistent P a)
    (h : UserAdded a b user) : WellFormed (commit a b) ∧ Consistent P (commit a b) := by
  obtain ⟨user', hid, hname, hcerts, hch, hobj, hisUser⟩ := h.commit hw
  have hnames : ∀ (name : Str) (r : ℕ), (commit a b).usersByName[name]? = some r →
      ∃ x, IsUser (commit a b) x ∧ x.id = r ∧ x.name = name := by
    intro name r hr
    rw [commit_usersByName, h.usersByName, BTree.get_insert] at hr
    by_cases hn : user.name = name
    · rw [if_pos hn, Option.some.injEq] at hr
      exact ⟨user', (hisUser _).mpr (.inl rfl), hid.trans hr, hname.trans hn⟩
    · rw [if_neg hn] at hr
      obtain ⟨x, hx, hxr, hxn⟩ := hw.names name r hr
      exact ⟨x, (hisUser x).mpr (.inr hx), hxr, hxn⟩
  have hwell : WellFormed (commit a b) := by
    refine ⟨hnames, fun r hr => ?_, fun r x hx => ?_⟩
    · rw [commit_users, h.users, TreeSet.mem_insert] at hr
      rcases hr with rfl | hr
      · exact ⟨user', hobj⟩
      · obtain ⟨x, hx⟩ := hw.users r hr
        rw [commit_objs hw h.objs]
        by_cases hk : user.id = r
        · exact ⟨_, if_pos hk⟩
        · exact ⟨x, by rw [if_neg hk, hx]⟩
    · by_cases hk : user.id = r
      · subst hk
        obtain rfl := Option.some.inj (hobj.symm.trans hx)
        refine ⟨hid, ?_, hch⟩
        rw [commit_nextOid, h.nextOid, h.id]
        omega
      · rw [commit_objs hw h.objs, if_neg hk] at hx
        obtain ⟨hxid, hlt, hxch⟩ := hw.objs r x hx
        refine ⟨hxid, ?_, hxch⟩
        rw [commit_nextOid, h.nextOid]
        omega
  refine ⟨hwell, hwell.consistent ?_ fun x hx => ?_⟩
  · refine hc.mapped.add ?_ hisUser ?_
    · intro der hd
      exact h.free der (hcerts ▸ hd)
    · intro der
      rw [commit_uids, h.uids, hcerts, hid]
  · rw [BTree.mem_iff, commit_usersByName, h.usersByName, BTree.get_insert]
    by_cases hn : user.name = x.name
    · exact ⟨_, if_pos hn⟩
    · rcases (hisUser x).mp hx with rfl | hx
      · exact absurd hname.symm hn
      · obtain ⟨r, hr⟩ := (BTree.mem_iff _).mp (hc.named x hx)
        exact ⟨r, by rw [if_neg hn, hr]⟩

/-- Deleting a user: the others must be found under their names. -/
theorem step_delUser {a : Admin} {name : Str} (hw : WellFormed a) (hc : Consistent P a) :
    WellFormed (machine P a (.delUser name)).2 ∧
      (Consistent P (machine P a (.delUser name)).2 ↔ Sound P a (.delUser name)) := by
  rcases hr : a.usersByName[name]? with _ | r
  · rw [machine_of_error (t := .delUser name) (delUser_unknown hr)]
    refine ⟨hw, iff_of_true hc fun x hx hn => ?_⟩
    obtain ⟨r, hr'⟩ := (BTree.mem_iff _).mp (hc.named x hx)
    rw [hn, hr] at hr'
    cases hr'
  · obtain ⟨user, b, hu, rfl, hname, hrun, hobjs, hnext, husers, hbyName, huids, hisUser⟩ :=
      delUser_commit hw hc.mapped hr
    rw [machine_of_ok (t := .delUser name) hrun]
    have hwell : WellFormed (commit a b) := by
      refine ⟨fun n r hn => ?_, fun r hu' => ?_, fun r x hx => ?_⟩
      · rw [commit_usersByName, hbyName, BTree.get_erase] at hn
        by_cases hnn : name = n
        · rw [if_pos hnn] at hn
          cases hn
        · rw [if_neg hnn] at hn
          obtain ⟨x, hx, rfl, hxn⟩ := hw.names n r hn
          refine ⟨x, (hisUser x).mpr ⟨hx, fun heq => ?_⟩, rfl, hxn⟩
          obtain rfl := hx.unique hu heq
          exact hnn (hname.symm.trans hxn)
      · rw [commit_users, husers, TreeSet.mem_erase] at hu'
        rw [hobjs]
        exact hw.users r hu'.1
      · rw [hobjs] at hx
        rw [commit_nextOid, hnext]
        exact hw.objs r x hx
    have hmapped : Mapped P (IsUser (commit a b)) (commit a b).uids :=
      hc.mapped.delete hu (fun x hx heq => hx.unique hu heq) hisUser huids
    have hnamed : Named (commit a b) ↔ Sound P a (.delUser name) := by
      refine ⟨?_, ?_⟩
      · intro hn x hx hxn
        by_contra hne
        have hxid : x.id ≠ user.id := fun heq => hne (by rw [hr, heq])
        have hmem := hn x ((hisUser x).mpr ⟨hx, hxid⟩)
        rw [BTree.mem_iff, commit_usersByName, hbyName, BTree.get_erase, if_pos hxn.symm] at hmem
        obtain ⟨y, hy⟩ := hmem
        cases hy
      · intro hs x hx
        obtain ⟨hx, hxid⟩ := (hisUser x).mp hx
        have hne : name ≠ x.name := by
          rintro rfl
          have := hs x hx rfl
          rw [hr, Option.some.injEq] at this
          exact hxid this.symm
        obtain ⟨r', hr'⟩ := (BTree.mem_iff _).mp (hc.named x hx)
        rw [BTree.mem_iff, commit_usersByName, hbyName, BTree.get_erase_ne _ hne]
        exact ⟨r', hr'⟩
    exact ⟨hwell, fun h => hnamed.mp h.named, fun hs => hwell.consistent hmapped (hnamed.mpr hs)⟩

/-- The certificates to be given do not depend on how `Replaced` is met. -/
theorem Replaced.unique {old new new' : BTree Bytes Str} {pem : Option Str}
    (h : Replaced P old pem new) (h' : Replaced P old pem new') : new = new' := by
  rcases pem with _ | _ | ⟨c, text⟩
  · exact h.trans h'.symm
  · exact h.trans h'.symm
  · obtain ⟨der, hd, rfl⟩ := h
    obtain ⟨der', hd', rfl⟩ := h'
    obtain rfl := Option.some.inj (hd.symm.trans hd')
    rfl

/-- A refused certificate is not one a user can be given. -/
theorem CertsReplaced.not_refused {a b : Admin} {r : ℕ} {user user' : User} {pem : Option Str}
    (h : CertsReplaced a b r user user') (hrep : Replaced P user.certs pem user'.certs)
    (href : Refused P a user pem) : False := by
  obtain ⟨c, text, rfl, href⟩ := href
  obtain ⟨der, hd, hnew⟩ := hrep
  have hmem : der ∈ user'.certs := by simp [hnew]
  obtain ⟨ha, hnot⟩ := href der hd
  exact hnot (h.free der hmem ha)

/-- Changing a certificate: the stored user must have the certificates registered. -/
theorem step_changeCert {a : Admin} {name appname : Str} {pem : Option Str}
    {password : Option Secret} {security : Security} (hw : WellFormed a) (hc : Consistent P a) :
    WellFormed (machine P a (.changeCert name pem password security appname)).2 ∧
      (Consistent P (machine P a (.changeCert name pem password security appname)).2 ↔
        Sound P a (.changeCert name pem password security appname)) := by
  set t : Tx := .changeCert name pem password security appname with ht
  rcases hr : a.usersByName[name]? with _ | r
  · rw [machine_of_error (t := t) (changeCert_unknown P hr pem password security.run appname)]
    refine ⟨hw, iff_of_true hc fun _ x hx hx' => ?_⟩
    rw [hr] at hx'
    cases hx'
  obtain ⟨user, hu, hobj, rfl, hname⟩ := hw.named hr
  -- the condition speaks of this one user
  have hsound : Sound P a t ↔ (password = none → Refused P a user pem ∨
      ∀ certs, Replaced P user.certs pem certs → ∀ der, der ∈ user.certs ↔ der ∈ certs) := by
    refine ⟨?_, ?_⟩
    · exact fun h hp => h hp user hu hr
    · intro h hp x hx hxr
      obtain rfl := hx.unique hu (Option.some.inj (hxr.symm.trans hr))
      exact h hp
  rcases changeCert_cases P hr hobj (fun _ hd => hc.mapped.own hu hd) pem password security appname
    with ⟨b, user', hrun, hrep, hab, hch⟩ | ⟨e, b, hrun, -, hwhy⟩
  · rw [machine_of_ok (t := t) hrun, hsound]
    obtain ⟨user'', hid, hname', hch'', hcerts, hobj', hisUser⟩ := hab.commit hw hu rfl
    have hwell : WellFormed (commit a b) := hab.wellFormed_commit hw hu
    have hnamed : Named (commit a b) := by
      intro x hx
      rw [commit_usersByName, hab.usersByName]
      rcases (hisUser x).mp hx with rfl | ⟨hx, -⟩
      · rw [hname']
        exact hc.named user hu
      · exact hc.named x hx
    have hmapped : Mapped P (IsUser (commit a b)) (commit a b).uids ↔
        ∀ der, der ∈ user''.certs ↔ der ∈ user'.certs :=
      hc.mapped.replace_iff hu hid (fun x hx heq => hx.unique hu heq) hisUser hab.free hab.uids
    have hcons : Consistent P (commit a b) ↔ ∀ der, der ∈ user''.certs ↔ der ∈ user'.certs := by
      rw [← hmapped]
      exact ⟨fun h => h.mapped, fun h => hwell.consistent h hnamed⟩
    refine ⟨hwell, hcons.trans ?_⟩
    rw [hcerts, hch, (hw.objs _ _ hobj).2.2, Bool.false_or]
    rcases password with _ | p
    · refine ⟨?_, ?_⟩
      · intro h _
        refine .inr fun certs hcs der => ?_
        rw [hcs.unique hrep]
        exact h der
      · intro h
        rcases h rfl with href | hkeep
        · exact absurd href (hab.not_refused hrep)
        · exact hkeep _ hrep
    · simp
  · rw [machine_of_error (t := t) hrun, hsound]
    refine ⟨hw, iff_of_true hc fun hp => .inl ?_⟩
    exact hwhy.resolve_left fun hne => hne hp

/-- One transaction keeps the tables consistent exactly when it is sound. -/
theorem consistent_step_iff {a : Admin} (hw : WellFormed a) (hc : Consistent P a) (t : Tx) :
    WellFormed (machine P a t).2 ∧ (Consistent P (machine P a t).2 ↔ Sound P a t) := by
  cases t with
  | delUser name => exact step_delUser hw hc
  | changeCert name pem password security appname => exact step_changeCert hw hc
  | addUser uname pem password security appname uuid =>
    have hraise : ∀ {e b}, addUser P uname pem password security.run appname uuid a = (.error e, b) →
        machine P a (.addUser uname pem password security appname uuid) = (.error e, a) :=
      fun hrun => machine_of_error (Py.bind_of_error hrun)
    rcases addUser_cases P a uname pem password security.run appname uuid with
      ⟨e, -, hrun⟩ | ⟨_, b, user, -, -, -, hadded, -, ⟨hrun, -⟩ | ⟨e, hrun, -⟩⟩
    · rw [hraise hrun]
      exact ⟨hw, iff_of_true hc trivial⟩
    · have ht : Tx.run P (.addUser uname pem password security appname uuid) a = (.ok (), b) :=
        Py.bind_of_ok hrun
      rw [machine_of_ok ht]
      obtain ⟨hw', hc'⟩ := step_addUser hw hc hadded
      exact ⟨hw', iff_of_true hc' trivial⟩
    · rw [hraise hrun]
      exact ⟨hw, iff_of_true hc trivial⟩

/-! ## Histories

The step is an equivalence in well-formed states, so that the histories whose states are all
consistent are exactly those whose transactions are all sound. -/

theorem wellFormed_init : WellFormed (init P) where
  names name r h := by simp [init] at h
  users r h := by simp [init] at h
  objs r user h := by simp [init] at h

theorem consistent_init : Consistent P (init P) := by
  have hnone : ∀ user, ¬ IsUser (init P) user := fun user hu => by simp [IsUser, init] at hu
  refine wellFormed_init.consistent (fun der uid => ?_) fun user hu => absurd hu (hnone user)
  have huids : (init P).uids[der]? = if P.nobodyDer = der then some none else none := by
    simp only [init, BTree.get_insert, Std.ExtTreeMap.getElem?_empty]
  simp only [huids, hnone, false_and]
  by_cases hd : P.nobodyDer = der
  · simp [hd, eq_comm]
  · simp [hd, Ne.symm hd]

/-- **Consistency of the stored tables, exactly**: every state of a history of
transactions is consistent if and only if no transaction deletes a user under a
shared name, and none changes the set of certificates of a user without setting a
password. -/
theorem consistent_iff_sound (txs : List Tx) :
    (∀ a ∈ (machine P).states (init P) txs, Consistent P a) ↔
      (machine P).Along (Sound P) (init P) txs :=
  @Machine.states_inv_iff_along _ _ _ (machine P) (Sound P) (Consistent P) WellFormed
    (fun _ t hw hc _ => (consistent_step_iff hw hc t).1)
    (fun _ t hw hc => (consistent_step_iff hw hc t).2) _ wellFormed_init consistent_init txs

/-- User `a` is added with certificate 1 and changed to certificate 2 without a
password; the stored user still has certificate 1, and deleting it fails. -/
theorem changeCert_lost :
    ¬ Consistent plainPlatform ((machine plainPlatform).final (init plainPlatform)
      [.addUser ['a'] (some ['1']) none plainPlatform.kdfHashPassword [] [],
        .changeCert ['a'] (some ['2']) none plainPlatform.kdfHashPassword []]) := by
  intro h
  have hraise := h.delUser_ne ⟨['a'], 2, (∅ : BTree Bytes Str).insert [49] ['1'], none, none, false⟩
    ⟨by decide, by rfl⟩
  exact hraise (by decide)

end Admin

end Zerodb
