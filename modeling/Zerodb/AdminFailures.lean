import Zerodb.AdminMemory

/-!
# AdminFailures: what a call of the administrator that raises leaves behind

A `Desk` is one connection of the administrator: the stored tables and the loaded ones.
Calls work on the loaded tables, whether they end or raise; a commit stores what is marked
as changed, an abort takes it back, and in between the connection may forget a loaded user
that is not marked as changed. So a user's dictionary of certificates may be ahead of the
stored one, or behind the table of certificates.

* `Sane` — what every order of these events keeps;
* `unchanged_iff_harmless` — in every state reached, a call that raises leaves the tables
  and every user's certificates and password as they were exactly when it is `Harmless`.
-/

namespace Zerodb

namespace Admin

variable (P : Platform)

/-! ## The desk

The stored and the loaded tables side by side. `revertedUser` and `reloaded` are where the
in-place dictionary shows: an abort brings back what is marked as changed and nothing else, so
that a certificate that was added or cleared in place survives it. -/

/-- The stored tables and those the connection has loaded. -/
structure Desk where
  /-- as of the last commit -/
  stored : Admin
  /-- as the calls see them -/
  loaded : Admin

/-- What happens at a desk. -/
inductive Event where
  /-- a call of the administrator -/
  | call : Call → Event
  /-- `transaction.commit()` -/
  | commit : Event
  /-- `transaction.abort()` -/
  | abort : Event
  /-- the connection drops a loaded user that is not marked as changed -/
  | forget : (r : ℕ) → Event

/-- The loaded tables after a commit: nothing is marked as changed. -/
def settled (a : Admin) : Admin :=
  { a with objs := a.objs.map fun _ user => { user with changed := false } }

/-- A user after an abort: reloaded if it was marked as changed. -/
def revertedUser (loaded : Option User) (stored : User) : User :=
  match loaded with
  | none => stored
  | some user => if user.changed then stored else user

/-- The loaded tables after an abort: what was marked as changed is reloaded. Oids that
were given out are not given out again. -/
def reverted (stored loaded : Admin) : Admin :=
  { stored with
    objs := stored.objs.map fun r user => revertedUser loaded.objs[r]? user
    nextOid := loaded.nextOid }

/-- The loaded tables after a user has been dropped and loaded again. -/
def reloaded (stored loaded : Admin) (r : ℕ) : Admin :=
  match stored.objs[r]? with
  | none => loaded
  | some user =>
    { loaded with objs := loaded.objs.map fun k old =>
        if k = r ∧ old.changed = false then user else old }

/-- The desk as a machine. -/
def desk : Machine Desk Event (Except Exc Unit)
  | s, .call c => ((memory P s.loaded c).1, { s with loaded := (memory P s.loaded c).2 })
  | s, .commit => (.ok (), ⟨commit s.stored s.loaded, settled s.loaded⟩)
  | s, .abort => (.ok (), { s with loaded := reverted s.stored s.loaded })
  | s, .forget r => (.ok (), { s with loaded := reloaded s.stored s.loaded r })

/-- A new database. -/
def Desk.init : Desk := ⟨Admin.init P, Admin.init P⟩

/-! ## What is kept

Under all orders of events very little of the consistency of the tables remains. `Sane` is what
does: users are where the tables say, under their own names, and hold at most one certificate. It
does not say that certificates are registered, which may fail in either direction. -/

/-- What the tables keep, whatever is committed, aborted or forgotten. -/
structure Sane (a : Admin) : Prop where
  /-- objects are kept under their ids, which are used up -/
  objs : ∀ (r : ℕ) (user : User), a.objs[r]? = some user → user.id = r ∧ r < a.nextOid
  /-- no user has two certificates -/
  single : ∀ (r : ℕ) (user : User), a.objs[r]? = some user → Single user.certs
  /-- the table of users refers to objects -/
  users : ∀ r ∈ a.users, ∃ user, a.objs[r]? = some user
  /-- the table of names refers to users of that name -/
  names : ∀ (name : Str) (r : ℕ), a.usersByName[name]? = some r →
    r ∈ a.users ∧ ∃ user, a.objs[r]? = some user ∧ user.name = name

/-- The tables after the certificates of a user have been taken away. -/
def cleared (a : Admin) (user : User) : Admin :=
  { dropCerts user.certs.toList a with objs := a.objs.insert user.id { user with certs := ∅ } }

/-- And after it has been given another one. -/
def certified (a : Admin) (user : User) (der : Bytes) (pem : Str) : Admin :=
  { cleared a user with
    uids := (cleared a user).uids.insert der (some user.id)
    objs := (cleared a user).objs.insert user.id
      { user with certs := (∅ : BTree Bytes Str).insert der pem }
    certs := Certs.add (cleared a user).certs pem }

/-- How the certificate part of `change_cert` ends, and with which tables. -/
inductive CertsLeft (a : Admin) (user : User) : Option Str → Except Exc Unit → Admin → Prop where
  /-- nothing is to be changed -/
  | kept : CertsLeft a user none (.ok ()) a
  /-- a certificate of the user is not in the table -/
  | unregistered {pem der} : der ∈ user.certs → der ∉ a.uids →
      CertsLeft a user (some pem) (.error .keyError) a
  /-- the certificates are taken away -/
  | cleared : (∀ der ∈ user.certs, der ∈ a.uids) →
      CertsLeft a user (some []) (.ok ()) (cleared a user)
  /-- the new certificate is refused -/
  | refused {pem e} : (∀ der ∈ user.certs, der ∈ a.uids) → Refused P a user (some pem) →
      CertsLeft a user (some pem) (.error e) (Admin.cleared a user)
  /-- the new certificate takes the place of the old ones -/
  | certified {c text der} : (∀ der ∈ user.certs, der ∈ a.uids) →
      P.getDer (c :: text) = some der → (der ∈ a.uids → der ∈ user.certs) →
      CertsLeft a user (some (c :: text)) (.ok ()) (Admin.certified a user der (c :: text))

variable {P}

theorem cleared_uids (a : Admin) (user : User) (der : Bytes) :
    (cleared a user).uids[der]? = if der ∈ user.certs then none else a.uids[der]? :=
  dropCerts_uids_user user a der

theorem mem_cleared_uids (a : Admin) (user : User) (der : Bytes) :
    der ∈ (cleared a user).uids ↔ der ∈ a.uids ∧ der ∉ user.certs := by
  rw [BTree.mem_iff, BTree.mem_iff, cleared_uids]
  by_cases hd : der ∈ user.certs <;> simp [hd]

/-- A user with one certificate loses it, or the loop stops before it. -/
theorem delUserCerts_single {a : Admin} {user : User} (h : Single user.certs) :
    ((∀ der ∈ user.certs, der ∈ a.uids) ∧
      delUserCerts user.certs.toList a = (.ok (), dropCerts user.certs.toList a)) ∨
    (∃ der ∈ user.certs, der ∉ a.uids ∧ delUserCerts user.certs.toList a = (.error .keyError, a)) := by
  by_cases hall : ∀ der ∈ user.certs, der ∈ a.uids
  · exact .inl ⟨hall, delUserCerts_user hall⟩
  · push Not at hall
    obtain ⟨der, hd, hnot⟩ := hall
    refine .inr ⟨der, hd, hnot, ?_⟩
    rcases h with hnone | ⟨der', pem, hone⟩
    · simp [hnone] at hd
    · rw [hone, BTree.mem_insert] at hd
      obtain rfl : der = der' := hd.resolve_right (by simp)
      rw [hone, BTree.toList_singleton, delUserCerts, Py.get_bind_apply, if_neg hnot]
      rfl

/-- The certificate part of `change_cert`. -/
theorem replaceCerts_left {a : Admin} {user : User} (hu : a.objs[user.id]? = some user)
    (hs : Single user.certs) (pem : Option Str) :
    CertsLeft P a user pem (replaceCerts P user.id pem a).1 (replaceCerts P user.id pem a).2 := by
  have hload : load user.id a = (.ok user, a) := by simp [load, hu]
  rcases pem with _ | pem
  · exact .kept
  · rcases delUserCerts_single hs with ⟨hall, hdel⟩ | ⟨der, hd, hnot, hdel⟩
    · have hrun : replaceCerts P user.id (some pem) a =
          (if pem = [] then pure () else addUserCert P user.id pem) (cleared a user) := by
        rw [replaceCerts, Py.bind_of_ok hload, Py.bind_of_ok hdel, Py.modify_bind_apply,
          dropCerts_objs]
        rfl
      rcases pem with _ | ⟨c, text⟩
      · rw [hrun, if_pos rfl]
        exact .cleared hall
      · rw [hrun, if_neg (List.cons_ne_nil _ _)]
        have hbu : (cleared a user).objs[user.id]? = some { user with certs := ∅ } := by
          simp [cleared]
        rcases addUserCert_cases P hbu rfl (c :: text) with
          ⟨der, hder, hnot, hadd⟩ | ⟨e, hadd, -, hused⟩ <;> rw [hadd]
        · refine .certified hall hder fun hda => ?_
          by_contra hold
          exact hnot ((mem_cleared_uids a user der).mpr ⟨hda, hold⟩)
        · exact .refused hall ⟨c, text, rfl, fun der hd => (mem_cleared_uids a user der).mp (hused der hd)⟩
    · have hrun : replaceCerts P user.id (some pem) a = (.error .keyError, a) := by
        rw [replaceCerts, Py.bind_of_ok hload, Py.bind_of_error hdel]
      rw [hrun]
      exact .unregistered hd hnot

/-- The password part either leaves everything, or ends. -/
theorem replacePassword_error {a b : Admin} {r : ℕ} {name appname : Str} {security : SecurityFunction}
    {password : Option Secret} {e : Exc}
    (h : replacePassword P r name security appname password a = (.error e, b)) : b = a := by
  rcases password with _ | p
  · cases h
  · rw [replacePassword] at h
    rcases hsec : security name (some p) appname with e' | q <;> rw [hsec] at h
    · cases h
      rfl
    · rw [Py.bind_of_ok (Py.ofExcept_apply _ _)] at h
      rcases hu : a.objs[r]? with _ | user
      · have hload : load r a = (.error .posKeyError, a) := by simp [load, hu]
        rw [Py.bind_of_error hload] at h
        cases h
        rfl
      · have hload : load r a = (.ok user, a) := by simp [load, hu]
        rw [Py.bind_of_ok hload] at h
        rcases hpw : user.changePassword P q with e' | user' <;> rw [hpw] at h
        · cases h
          rfl
        · cases h

/-! ## Changes of one user

`change_cert` changes the certificates or the password of one user, and the entries for these
certificates. It does no more than that wherever it stops, and this is all that the invariants
need of it. -/

/-- The tables after a call has changed one user's certificates or password. -/
structure UserChanged (a b : Admin) (user user' : User) : Prop where
  /-- no user is added or removed -/
  users : b.users = a.users
  /-- nor renamed -/
  usersByName : b.usersByName = a.usersByName
  /-- nor any root folder -/
  nextOid : b.nextOid = a.nextOid
  /-- the user's object is updated -/
  objs : ∀ k : ℕ, b.objs[k]? = if user.id = k then some user' else a.objs[k]?
  /-- it keeps its name -/
  name : user'.name = user.name
  /-- and its id -/
  id : user'.id = user.id
  /-- it has no certificate or one -/
  single : Single user'.certs

namespace UserChanged

variable {a b : Admin} {user user' : User}

theorem refl (hu : a.objs[user.id]? = some user) (hs : Single user.certs) :
    UserChanged a a user user := by
  refine ⟨rfl, rfl, rfl, fun k => ?_, rfl, rfl, hs⟩
  by_cases hk : user.id = k
  · subst hk
    rw [if_pos rfl, hu]
  · rw [if_neg hk]

theorem cleared (a : Admin) (user : User) :
    UserChanged a (cleared a user) user { user with certs := ∅ } where
  users := by simp [Admin.cleared]
  usersByName := by simp [Admin.cleared]
  nextOid := by simp [Admin.cleared]
  objs _ := BTree.get_insert _
  name := rfl
  id := rfl
  single := .inl rfl

/-- An assignment to the user afterwards. -/
theorem assign (h : UserChanged a b user user') {user'' : User} (hname : user''.name = user'.name)
    (hid : user''.id = user'.id) (hs : Single user''.certs) (uids : BTree Bytes (Option ℕ))
    (certs : Str) :
    UserChanged a { b with objs := b.objs.insert user.id user'', uids := uids, certs := certs }
      user user'' := by
  refine ⟨h.users, h.usersByName, h.nextOid, fun k => ?_, hname.trans h.name, hid.trans h.id, hs⟩
  simp only [BTree.get_insert, h.objs]
  by_cases hk : user.id = k
  · rw [if_pos hk, if_pos hk]
  · simp only [if_neg hk]

theorem certified (a : Admin) (user : User) (der : Bytes) (pem : Str) :
    UserChanged a (certified a user der pem) user
      { user with certs := (∅ : BTree Bytes Str).insert der pem } := by
  refine (cleared a user).assign ?_ ?_ ?_ _ _
  · rfl
  · rfl
  · exact .inr ⟨der, pem, rfl⟩

end UserChanged

/-- However the certificate part ends, it has changed nothing but the user. -/
theorem CertsLeft.changed {a b : Admin} {user : User} {pem : Option Str} {res : Except Exc Unit}
    (h : CertsLeft P a user pem res b) (hu : a.objs[user.id]? = some user)
    (hs : Single user.certs) :
    ∃ certs, UserChanged a b user { user with certs := certs } := by
  cases h with
  | kept => exact ⟨_, UserChanged.refl hu hs⟩
  | unregistered _ _ => exact ⟨_, UserChanged.refl hu hs⟩
  | cleared _ => exact ⟨_, UserChanged.cleared a user⟩
  | refused _ _ => exact ⟨_, UserChanged.cleared a user⟩
  | certified _ _ _ => exact ⟨_, UserChanged.certified a user _ _⟩

/-- And so has `change_cert`, however it ends. -/
theorem changeCert_changed {a : Admin} {name : Str} {user : User}
    (hr : a.usersByName[name]? = some user.id) (hu : a.objs[user.id]? = some user)
    (hs : Single user.certs) (pem : Option Str) (password : Option Secret)
    (security : SecurityFunction) (appname : Str) :
    ∃ user', UserChanged a (changeCert P name pem password security appname a).2 user user' := by
  have hrun := changeCert_found P hr pem password security appname
  have hleft := replaceCerts_left (P := P) hu hs pem
  rcases hcerts : replaceCerts P user.id pem a with ⟨e | ⟨⟩, b⟩ <;> rw [hcerts] at hleft
  · obtain ⟨certs, hchanged⟩ := hleft.changed hu hs
    rw [hrun, Py.bind_of_error hcerts]
    exact ⟨_, hchanged⟩
  · obtain ⟨certs, hchanged⟩ := hleft.changed hu hs
    rw [hrun, Py.bind_of_ok hcerts]
    have hbu : b.objs[user.id]? = some { user with certs := certs } := by
      rw [hchanged.objs, if_pos rfl]
    rcases replacePassword_leaves P hbu name security appname password with
      hp | ⟨user', hname, hid, hc, hp⟩ <;> rw [hp]
    · exact ⟨_, hchanged⟩
    · have hsingle : Single user'.certs := hc ▸ hchanged.single
      exact ⟨user', hchanged.assign hname hid hsingle b.uids b.certs⟩

/-- What `del_user` of a user leaves, whether it ends or a certificate is missing. -/
theorem delUser_leaves {a : Admin} {name : Str} {user : User}
    (hr : a.usersByName[name]? = some user.id) (hu : a.objs[user.id]? = some user)
    (hid : user.id ∈ a.users) (hs : Single user.certs) :
    (delUser name a).2.users = a.users.erase user.id ∧
    (delUser name a).2.usersByName = a.usersByName.erase name ∧
    (delUser name a).2.nextOid = a.nextOid ∧ (delUser name a).2.objs = a.objs := by
  set b : Admin := { a with usersByName := a.usersByName.erase name } with hb
  set c : Admin := { b with users := a.users.erase user.id } with hc
  have hload : load user.id b = (.ok user, b) := by simp [load, hb, hu]
  have hrun : delUser name a = delUserCerts user.certs.toList c := by
    rw [delUser, Py.get_bind_apply, hr, Py.ofOption_some, Py.pure_bind_apply, Py.modify_bind_apply,
      Py.bind_of_ok hload, Py.get_bind_apply, if_pos hid, Py.modify_bind_apply]
  rw [hrun]
  rcases @delUserCerts_single c user hs with ⟨-, hdel⟩ | ⟨der, -, -, hdel⟩ <;> rw [hdel]
  · simp [hb, hc]
  · simp [hb, hc]

/-! ## One call

Every call, however it ends, changes one user or adds or removes one. `Moved` says this of the
tables in a form that composes with commits, aborts and reloads: objects keep their names, and
what is new has an id that was not in use. -/

/-- How the tables may move in one step, seen from the stored ones: names of objects stay,
and new objects have new ids. -/
structure Moved (a b : Admin) : Prop where
  /-- the tables stay sane -/
  sane : Sane b
  /-- oids are not given out twice -/
  nextOid : a.nextOid ≤ b.nextOid
  /-- an object was there under its name, or is new -/
  names : ∀ (r : ℕ) (user : User), b.objs[r]? = some user →
    (∃ old, a.objs[r]? = some old ∧ user.name = old.name) ∨ a.nextOid ≤ r

theorem Moved.refl {a : Admin} (h : Sane a) : Moved a a :=
  ⟨h, le_rfl, fun _ user hu => .inl ⟨user, hu, rfl⟩⟩

namespace Sane

variable {a b : Admin} {user user' : User}

theorem init : Sane (init P) where
  objs r user h := by simp [Admin.init] at h
  single r user h := by simp [Admin.init] at h
  users r h := by simp [Admin.init] at h
  names name r h := by simp [Admin.init] at h

/-- The user found under a name. -/
theorem named (h : Sane a) {name : Str} {r : ℕ} (hr : a.usersByName[name]? = some r) :
    ∃ user : User, user.id = r ∧ user.name = name ∧ r ∈ a.users ∧ a.objs[user.id]? = some user ∧
      Single user.certs := by
  obtain ⟨hmem, user, hu, hname⟩ := h.names name r hr
  obtain rfl := (h.objs r user hu).1
  exact ⟨user, rfl, hname, hmem, hu, h.single _ user hu⟩

/-- An oid is used up. -/
theorem tick (h : Sane a) : Moved a { a with nextOid := a.nextOid + 1 } where
  sane := ⟨fun r x hx => ⟨(h.objs r x hx).1, Nat.lt_succ_of_lt (h.objs r x hx).2⟩, h.single, h.users,
    h.names⟩
  nextOid := Nat.le_succ _
  names _ x hx := .inl ⟨x, hx, rfl⟩

theorem added (h : Sane a) (hadd : UserAdded a b user) (hs : Single user.certs) : Moved a b where
  sane := by
    refine ⟨fun r x hx => ?_, fun r x hx => ?_, fun r hr => ?_, fun name r hr => ?_⟩
    · rw [hadd.objs] at hx
      rw [hadd.nextOid]
      by_cases hk : user.id = r
      · rw [if_pos hk, Option.some.injEq] at hx
        have hid := hadd.id
        exact ⟨hx ▸ hk, by omega⟩
      · rw [if_neg hk] at hx
        exact ⟨(h.objs r x hx).1, Nat.lt_succ_of_lt (h.objs r x hx).2⟩
    · rw [hadd.objs] at hx
      by_cases hk : user.id = r
      · rw [if_pos hk, Option.some.injEq] at hx
        exact hx ▸ hs
      · rw [if_neg hk] at hx
        exact h.single r x hx
    · rw [hadd.users, TreeSet.mem_insert] at hr
      rw [hadd.objs]
      by_cases hk : user.id = r
      · exact ⟨user, if_pos hk⟩
      · rw [if_neg hk]
        exact h.users r (hr.resolve_left (Ne.symm hk))
    · rw [hadd.usersByName, BTree.get_insert] at hr
      rw [hadd.users, TreeSet.mem_insert, hadd.objs]
      by_cases hn : user.name = name
      · rw [if_pos hn, Option.some.injEq] at hr
        exact ⟨.inl hr.symm, user, if_pos hr, hn⟩
      · rw [if_neg hn] at hr
        obtain ⟨hmem, x, hx, hxn⟩ := h.names name r hr
        have hlt := (h.objs r x hx).2
        have hid := hadd.id
        exact ⟨.inr hmem, x, (if_neg (by omega)).trans hx, hxn⟩
  nextOid := by
    rw [hadd.nextOid]
    exact Nat.le_succ _
  names r x hx := by
    rw [hadd.objs] at hx
    by_cases hk : user.id = r
    · exact .inr (by rw [← hk, hadd.id])
    · rw [if_neg hk] at hx
      exact .inl ⟨x, hx, rfl⟩

theorem changed (h : Sane a) (hu : a.objs[user.id]? = some user)
    (hc : UserChanged a b user user') : Moved a b where
  sane := by
    refine ⟨fun r x hx => ?_, fun r x hx => ?_, fun r hr => ?_, fun name r hr => ?_⟩
    · rw [hc.objs] at hx
      rw [hc.nextOid]
      by_cases hk : user.id = r
      · rw [if_pos hk, Option.some.injEq] at hx
        exact ⟨hx ▸ hc.id.trans hk, hk ▸ (h.objs _ user hu).2⟩
      · rw [if_neg hk] at hx
        exact h.objs r x hx
    · rw [hc.objs] at hx
      by_cases hk : user.id = r
      · rw [if_pos hk, Option.some.injEq] at hx
        exact hx ▸ hc.single
      · rw [if_neg hk] at hx
        exact h.single r x hx
    · rw [hc.users] at hr
      rw [hc.objs]
      by_cases hk : user.id = r
      · exact ⟨user', if_pos hk⟩
      · rw [if_neg hk]
        exact h.users r hr
    · rw [hc.usersByName] at hr
      rw [hc.users, hc.objs]
      obtain ⟨hmem, x, hx, hxn⟩ := h.names name r hr
      by_cases hk : user.id = r
      · subst hk
        obtain rfl := Option.some.inj (hx.symm.trans hu)
        exact ⟨hmem, user', if_pos rfl, hc.name.trans hxn⟩
      · rw [if_neg hk]
        exact ⟨hmem, x, hx, hxn⟩
  nextOid := hc.nextOid.ge
  names r x hx := by
    rw [hc.objs] at hx
    by_cases hk : user.id = r
    · subst hk
      rw [if_pos rfl, Option.some.injEq] at hx
      exact .inl ⟨user, hu, hx ▸ hc.name⟩
    · rw [if_neg hk] at hx
      exact .inl ⟨x, hx, rfl⟩

theorem deleted (h : Sane a) {name : Str} (hr : a.usersByName[name]? = some user.id)
    (hu : a.objs[user.id]? = some user) (hname : user.name = name)
    (husers : b.users = a.users.erase user.id) (hnames : b.usersByName = a.usersByName.erase name)
    (hnext : b.nextOid = a.nextOid) (hobjs : b.objs = a.objs) : Moved a b where
  sane := by
    refine ⟨fun r x hx => ?_, fun r x hx => ?_, fun r hmem => ?_, fun n r hn => ?_⟩
    · rw [hobjs] at hx
      rw [hnext]
      exact h.objs r x hx
    · rw [hobjs] at hx
      exact h.single r x hx
    · rw [husers, TreeSet.mem_erase] at hmem
      rw [hobjs]
      exact h.users r hmem.1
    · rw [hnames, BTree.get_erase] at hn
      by_cases hk : name = n
      · rw [if_pos hk] at hn
        cases hn
      · rw [if_neg hk] at hn
        obtain ⟨hmem, x, hx, hxn⟩ := h.names n r hn
        rw [husers, TreeSet.mem_erase, hobjs]
        refine ⟨⟨hmem, ?_⟩, x, hx, hxn⟩
        rintro rfl
        -- a user is found under its own name only
        obtain rfl := Option.some.inj (hx.symm.trans hu)
        exact hk (hname.symm.trans hxn)
  nextOid := hnext.ge
  names r x hx := by
    rw [hobjs] at hx
    exact .inl ⟨x, hx, rfl⟩

/-- Every call, however it ends, moves the tables so. -/
theorem moved (h : Sane a) (c : Call) : Moved a (memory P a c).2 := by
  cases c with
  | addUser uname pem password security appname uuid =>
    rcases addUser_cases P a uname pem password security appname uuid with
      ⟨e, -, hrun⟩ | ⟨p, b, user, -, -, -, hadd, hdata, hrun⟩
    · have hleft : memory P a (.addUser uname pem password security appname uuid) =
          (.error e, { a with nextOid := a.nextOid + 1 }) := Py.bind_of_error hrun
      rw [hleft]
      exact h.tick
    · have hleft : (memory P a (.addUser uname pem password security appname uuid)).2 = b := by
        rcases hrun with ⟨hrun, -⟩ | ⟨e, hrun, -⟩
        · exact congrArg Prod.snd (Py.bind_of_ok hrun)
        · exact congrArg Prod.snd (Py.bind_of_error hrun)
      rw [hleft]
      exact h.added hadd hdata.single
  | delUser name =>
    rcases hr : a.usersByName[name]? with _ | r
    · have hleft : memory P a (.delUser name) = (.error .keyError, a) := delUser_unknown hr
      rw [hleft]
      exact .refl h
    · obtain ⟨user, rfl, hname, hmem, hu, hs⟩ := h.named hr
      obtain ⟨husers, hnames, hnext, hobjs⟩ := delUser_leaves hr hu hmem hs
      exact h.deleted hr hu hname husers hnames hnext hobjs
  | changeCert name pem password security appname =>
    rcases hr : a.usersByName[name]? with _ | r
    · have hleft : memory P a (.changeCert name pem password security appname) =
          (.error .keyError, a) := changeCert_unknown P hr pem password security appname
      rw [hleft]
      exact .refl h
    · obtain ⟨user, rfl, -, -, hu, hs⟩ := h.named hr
      obtain ⟨user', hchanged⟩ :=
        changeCert_changed (P := P) hr hu hs pem password security appname
      exact h.changed hu hchanged

end Sane

/-! ## Every order of events

The invariant of the desk: both sides are sane, and an object that both have has one name. Each
event moves one side towards the other, or both stay. -/

/-- Reloading users changes neither names nor ids. -/
theorem Sane.map {a : Admin} (h : Sane a) {f : ℕ → User → User} {n : ℕ} (hn : a.nextOid ≤ n)
    (hf : ∀ (r : ℕ) (user : User), a.objs[r]? = some user →
      (f r user).name = user.name ∧ (f r user).id = user.id ∧ Single (f r user).certs) :
    Sane { a with objs := a.objs.map f, nextOid := n } := by
  have hget : ∀ (r : ℕ) (x : User), (a.objs.map f)[r]? = some x →
      ∃ user, a.objs[r]? = some user ∧ f r user = x := by
    intro r x hx
    rw [Std.ExtTreeMap.getElem?_map] at hx
    exact Option.map_eq_some_iff.mp hx
  have hmap : ∀ (r : ℕ) (user : User), a.objs[r]? = some user →
      (a.objs.map f)[r]? = some (f r user) := by
    intro r user hu
    rw [Std.ExtTreeMap.getElem?_map, hu, Option.map_some]
  refine ⟨fun r x hx => ?_, fun r x hx => ?_, fun r hr => ?_, fun name r hr => ?_⟩
  · obtain ⟨user, hu, rfl⟩ := hget r x hx
    obtain ⟨hid, hlt⟩ := h.objs r user hu
    exact ⟨(hf r user hu).2.1.trans hid, lt_of_lt_of_le hlt hn⟩
  · obtain ⟨user, hu, rfl⟩ := hget r x hx
    exact (hf r user hu).2.2
  · obtain ⟨user, hu⟩ := h.users r hr
    exact ⟨_, hmap r user hu⟩
  · obtain ⟨hmem, user, hu, hname⟩ := h.names name r hr
    exact ⟨hmem, _, hmap r user hu, (hf r user hu).1.trans hname⟩

/-- What a desk keeps: both sets of tables are sane, and hold an object under one name. -/
structure Desk.Kept (s : Desk) : Prop where
  /-- the stored tables -/
  stored : Sane s.stored
  /-- the loaded tables -/
  loaded : Sane s.loaded
  /-- oids are not given out twice -/
  nextOid : s.stored.nextOid ≤ s.loaded.nextOid
  /-- objects keep their names -/
  names : ∀ (r : ℕ) (old user : User), s.stored.objs[r]? = some old →
    s.loaded.objs[r]? = some user → user.name = old.name

namespace Desk.Kept

variable {s : Desk}

theorem init : (Desk.init P).Kept where
  stored := Sane.init
  loaded := Sane.init
  nextOid := le_rfl
  names r old user h := by simp [Desk.init, Admin.init] at h

theorem call (h : s.Kept) (c : Call) : (desk P s (.call c)).2.Kept := by
  have hmoved : Moved s.loaded (memory P s.loaded c).2 := h.loaded.moved c
  refine ⟨h.stored, hmoved.sane, h.nextOid.trans hmoved.nextOid, fun r old user hold hu => ?_⟩
  rcases hmoved.names r user hu with ⟨user', hu', hname⟩ | hnew
  · exact hname.trans (h.names r old user' hold hu')
  · have hlt := (h.stored.objs r old hold).2
    have hle := h.nextOid
    omega

/-- What is stored of a loaded user. -/
theorem storedUser (h : s.Kept) {r : ℕ} {user : User} (hu : s.loaded.objs[r]? = some user) :
    (storedUser s.stored.objs[r]? user).name = user.name ∧
    (storedUser s.stored.objs[r]? user).id = user.id ∧
    Single (storedUser s.stored.objs[r]? user).certs := by
  rw [Admin.storedUser]
  by_cases hc : user.changed = true
  · rw [if_pos hc]
    exact ⟨rfl, rfl, h.loaded.single r user hu⟩
  · rw [if_neg hc]
    rcases hold : s.stored.objs[r]? with _ | old
    · exact ⟨rfl, rfl, h.loaded.single r user hu⟩
    · have hid := (h.stored.objs r old hold).1.trans (h.loaded.objs r user hu).1.symm
      exact ⟨(h.names r old user hold hu).symm, hid, h.stored.single r old hold⟩

theorem commit (h : s.Kept) : (desk P s .commit).2.Kept where
  stored := h.loaded.map le_rfl fun _ _ hu => h.storedUser hu
  loaded := h.loaded.map le_rfl fun r user hu => ⟨rfl, rfl, h.loaded.single r user hu⟩
  nextOid := le_rfl
  names r old user hold hu := by
    simp only [desk, Admin.commit, settled, Std.ExtTreeMap.getElem?_map,
      Option.map_eq_some_iff] at hold hu
    obtain ⟨x, hx, rfl⟩ := hold
    obtain ⟨y, hy, rfl⟩ := hu
    obtain rfl := Option.some.inj (hx.symm.trans hy)
    exact (h.storedUser hx).1.symm

/-- What an abort makes of a user. -/
theorem revertedUser (h : s.Kept) {r : ℕ} {old : User} (hold : s.stored.objs[r]? = some old) :
    (revertedUser s.loaded.objs[r]? old).name = old.name ∧
    (revertedUser s.loaded.objs[r]? old).id = old.id ∧
    Single (revertedUser s.loaded.objs[r]? old).certs := by
  rcases hu : s.loaded.objs[r]? with _ | user
  · exact ⟨rfl, rfl, h.stored.single r old hold⟩
  · rw [Admin.revertedUser]
    by_cases hc : user.changed = true
    · rw [if_pos hc]
      exact ⟨rfl, rfl, h.stored.single r old hold⟩
    · rw [if_neg hc]
      have hid := (h.loaded.objs r user hu).1.trans (h.stored.objs r old hold).1.symm
      exact ⟨h.names r old user hold hu, hid, h.loaded.single r user hu⟩

theorem abort (h : s.Kept) : (desk P s .abort).2.Kept where
  stored := h.stored
  loaded := h.stored.map h.nextOid fun _ _ hold => h.revertedUser hold
  nextOid := h.nextOid
  names r old user hold hu := by
    simp only [desk, reverted, Std.ExtTreeMap.getElem?_map, Option.map_eq_some_iff] at hu
    obtain ⟨x, hx, rfl⟩ := hu
    obtain rfl := Option.some.inj (hx.symm.trans hold)
    exact (h.revertedUser hx).1

theorem forget (h : s.Kept) (r : ℕ) : (desk P s (.forget r)).2.Kept := by
  rcases hold : s.stored.objs[r]? with _ | old
  · have hsame : (desk P s (.forget r)).2 = s := by simp only [desk, reloaded, hold]
    rw [hsame]
    exact h
  · have hf : ∀ (k : ℕ) (user : User), s.loaded.objs[k]? = some user →
        (if k = r ∧ user.changed = false then old else user).name = user.name ∧
        (if k = r ∧ user.changed = false then old else user).id = user.id ∧
        Single (if k = r ∧ user.changed = false then old else user).certs := by
      intro k user hu
      by_cases hk : k = r ∧ user.changed = false
      · rw [if_pos hk]
        rw [← hk.1] at hold
        have hid := (h.stored.objs k old hold).1.trans (h.loaded.objs k user hu).1.symm
        exact ⟨(h.names k old user hold hu).symm, hid, h.stored.single k old hold⟩
      · rw [if_neg hk]
        exact ⟨rfl, rfl, h.loaded.single k user hu⟩
    have hsane := h.loaded.map le_rfl hf
    have hsame : reloaded s.stored s.loaded r = { s.loaded with
        objs := s.loaded.objs.map fun k user =>
          if k = r ∧ user.changed = false then old else user } := by rw [reloaded, hold]
    rw [← hsame] at hsane
    refine ⟨h.stored, hsane, ?_, fun k x user hx hu => ?_⟩
    · simp only [desk, hsame]
      exact h.nextOid
    · simp only [desk, hsame, Std.ExtTreeMap.getElem?_map, Option.map_eq_some_iff] at hu
      obtain ⟨y, hy, rfl⟩ := hu
      exact (hf k y hy).1.trans (h.names k x y hx hy)

/-- Every event keeps it. -/
theorem step (h : s.Kept) (e : Event) : (desk P s e).2.Kept := by
  cases e with
  | call c => exact h.call c
  | commit => exact h.commit
  | abort => exact h.abort
  | forget r => exact h.forget r

end Desk.Kept

/-! ## Calls that raise

A call that raises has changed something unless it raised at once. The interesting case is
`change_cert`, which takes the old certificates away first: it may raise afterwards and still have
changed nothing if there were none, or if the certificate that is given is the one that was taken
away and it was the last in the data. -/

/-- What is to be left alone: the tables, and the users' certificates and passwords. -/
structure Unchanged (a b : Admin) : Prop where
  /-- `users` -/
  users : b.users = a.users
  /-- `users_by_name` -/
  usersByName : b.usersByName = a.usersByName
  /-- `uids` -/
  uids : b.uids = a.uids
  /-- `certs.data` -/
  certs : b.certs = a.certs
  /-- every user's certificates and password -/
  held : ∀ r ∈ a.users, (b.objs[r]?).map (fun user => (user.certs, user.password)) =
    (a.objs[r]?).map fun user => (user.certs, user.password)

/-- How `change_cert` of a user may raise without having changed anything. -/
inductive Undone (P : Platform) (a : Admin) (user : User) : Option Str → Prop where
  /-- the certificate is not to be changed -/
  | kept : Undone P a user none
  /-- the user's certificate is missing in the table, which is noticed first -/
  | unregistered {pem der} : der ∈ user.certs → der ∉ a.uids → Undone P a user (some pem)
  /-- the user has none to lose, and does not get the new one -/
  | bare {pem} : user.certs = ∅ → (pem = [] ∨ Refused P a user (some pem)) →
      Undone P a user (some pem)
  /-- the new one is the user's, and the last one in the data -/
  | same {c text der} : P.getDer (c :: text) = some der →
      user.certs = (∅ : BTree Bytes Str).insert der (c :: text) →
      a.uids[der]? = some (some user.id) →
      Certs.add (Certs.remove a.certs (c :: text)) (c :: text) = a.certs →
      Undone P a user (some (c :: text))

/-- The calls that change nothing if they raise. -/
def Harmless (P : Platform) (a : Admin) : Call → Prop
  | .addUser uname _ password security appname _ => ∃ e, security uname password appname = .error e
  | .delUser name => a.usersByName[name]? = none
  | .changeCert name pem _ _ _ => ∀ user : User, a.usersByName[name]? = some user.id →
      a.objs[user.id]? = some user → Undone P a user pem

/-! ## Whether anything is changed

The certificate part of `change_cert` takes the old certificate away and adds the new one. When
each of the two leaves everything as it was is an equivalence, and `CertsLeft.unchanged_iff` puts
them together for all the ways in which the part may end. -/

theorem Unchanged.refl (a : Admin) : Unchanged a a := ⟨rfl, rfl, rfl, rfl, fun _ _ => rfl⟩

section OneUser

variable {a : Admin} {user : User}

/-- Taking away the certificates of a user changes something, unless there are none. -/
theorem unchanged_cleared_iff (hmem : user.id ∈ a.users) (hu : a.objs[user.id]? = some user) :
    Unchanged a (cleared a user) ↔ user.certs = ∅ := by
  refine ⟨?_, ?_⟩
  · intro h
    have hheld := h.held _ hmem
    rw [hu, (UserChanged.cleared a user).objs, if_pos rfl] at hheld
    simp only [Option.map_some, Option.some.injEq, Prod.mk.injEq] at hheld
    exact hheld.1.symm
  · intro hnone
    have hlist : user.certs.toList = [] := by rw [hnone, Std.ExtTreeMap.toList_eq_nil_iff]
    have hsame : dropCerts user.certs.toList a = a := by rw [hlist, dropCerts, List.foldl_nil]
    refine ⟨by simp [cleared], by simp [cleared], by simp [cleared, hsame],
      by simp [cleared, hsame], fun r _ => ?_⟩
    rw [(UserChanged.cleared a user).objs]
    by_cases hk : user.id = r
    · subst hk
      rw [if_pos rfl, hu, Option.map_some, Option.map_some, hnone]
    · rw [if_neg hk]

/-- Giving a user a certificate changes something, unless it is the one that was taken away,
and was the last one in the data. -/
theorem unchanged_certified_iff (hmem : user.id ∈ a.users) (hu : a.objs[user.id]? = some user)
    (der : Bytes) (pem : Str) :
    Unchanged a (certified a user der pem) ↔
      user.certs = (∅ : BTree Bytes Str).insert der pem ∧ a.uids[der]? = some (some user.id) ∧
        Certs.add (Certs.remove a.certs pem) pem = a.certs := by
  have hcerts (hone : user.certs = (∅ : BTree Bytes Str).insert der pem) :
      (certified a user der pem).certs = Certs.add (Certs.remove a.certs pem) pem := by
    rw [certified, cleared, hone, BTree.toList_singleton]
    rfl
  have huids (d : Bytes) : (certified a user der pem).uids[d]? =
      if der = d then some (some user.id) else if d ∈ user.certs then none else a.uids[d]? := by
    simp only [certified, BTree.get_insert, cleared_uids]
  refine ⟨?_, ?_⟩
  · intro h
    have hheld := h.held _ hmem
    rw [hu, (UserChanged.certified a user der pem).objs, if_pos rfl] at hheld
    simp only [Option.map_some, Option.some.injEq, Prod.mk.injEq] at hheld
    have hone := hheld.1.symm
    refine ⟨hone, ?_, (hcerts hone).symm.trans h.certs⟩
    rw [← h.uids, huids, if_pos rfl]
  · rintro ⟨hone, hreg, hdata⟩
    have hchanged := UserChanged.certified a user der pem
    refine ⟨hchanged.users, hchanged.usersByName, ?_, (hcerts hone).trans hdata, fun r _ => ?_⟩
    · refine Std.ExtTreeMap.ext_getElem? fun d => ?_
      rw [huids]
      by_cases hd : der = d
      · rw [if_pos hd, ← hd, hreg]
      · have hnot : d ∉ user.certs := by
          rw [hone, BTree.mem_insert]
          simp [Ne.symm hd]
        rw [if_neg hd, if_neg hnot]
    · rw [hchanged.objs]
      by_cases hk : user.id = r
      · subst hk
        rw [if_pos rfl, hu, Option.map_some, Option.map_some, hone]
      · rw [if_neg hk]

/-- What the certificate part leaves, in case the call raises then or later. -/
theorem CertsLeft.unchanged_iff {b : Admin} {pem : Option Str} {res : Except Exc Unit}
    (h : CertsLeft P a user pem res b) (hmem : user.id ∈ a.users)
    (hu : a.objs[user.id]? = some user) : Unchanged a b ↔ Undone P a user pem := by
  cases h with
  | kept => exact iff_of_true (.refl a) .kept
  | unregistered hd hnot => exact iff_of_true (.refl a) (.unregistered hd hnot)
  | cleared hall =>
    rw [unchanged_cleared_iff hmem hu]
    refine ⟨?_, ?_⟩
    · exact fun hnone => .bare hnone (.inl rfl)
    · intro hun
      cases hun with
      | unregistered hd hnot => exact absurd (hall _ hd) hnot
      | bare hnone _ => exact hnone
  | refused hall href =>
    rw [unchanged_cleared_iff hmem hu]
    refine ⟨?_, ?_⟩
    · exact fun hnone => .bare hnone (.inr href)
    · intro hun
      cases hun with
      | unregistered hd hnot => exact absurd (hall _ hd) hnot
      | bare hnone _ => exact hnone
      | same hder hone _ _ =>
        obtain ⟨c, text, hpem, hrefused⟩ := href
        cases hpem
        exact absurd (by simp [hone]) (hrefused _ hder).2
  | @certified c text der hall hder hfree =>
    rw [unchanged_certified_iff hmem hu]
    refine ⟨?_, ?_⟩
    · rintro ⟨hone, hreg, hdata⟩
      exact .same hder hone hreg hdata
    · intro hun
      cases hun with
      | unregistered hd hnot => exact absurd (hall _ hd) hnot
      | bare hnone hwhy =>
        -- a certificate that a user without any may have is not refused
        obtain ⟨c', text', hpem, hrefused⟩ := hwhy.resolve_left (List.cons_ne_nil _ _)
        cases hpem
        obtain ⟨hused, hnot⟩ := hrefused der hder
        exact absurd (hfree hused) hnot
      | same hder' hone hreg hdata =>
        obtain rfl := Option.some.inj (hder.symm.trans hder')
        exact ⟨hone, hreg, hdata⟩

end OneUser

/-- `add_user` raises before it changes anything, or after the user is in the tables. -/
theorem Sane.addUser_unchanged_iff {a b : Admin} (h : Sane a) {uname : Str} {pem : Option Str}
    {password : Option Secret} {security : SecurityFunction} {appname : Str} {uuid : Bytes} {e : Exc}
    (hrun : memory P a (.addUser uname pem password security appname uuid) = (.error e, b)) :
    Unchanged a b ↔ Harmless P a (.addUser uname pem password security appname uuid) := by
  rcases addUser_cases P a uname pem password security appname uuid with
    ⟨e', hsec, hleft⟩ | ⟨p, b', user, hsec, -, -, hadd, -, hleft⟩
  · have hb : memory P a (.addUser uname pem password security appname uuid) =
        (.error e', { a with nextOid := a.nextOid + 1 }) := Py.bind_of_error hleft
    rw [hrun] at hb
    obtain rfl := congrArg Prod.snd hb
    exact iff_of_true ⟨rfl, rfl, rfl, rfl, fun _ _ => rfl⟩ ⟨e', hsec⟩
  · have hb : (memory P a (.addUser uname pem password security appname uuid)).2 = b' := by
      rcases hleft with ⟨hleft, -⟩ | ⟨e, hleft, -⟩
      · exact congrArg Prod.snd (Py.bind_of_ok hleft)
      · exact congrArg Prod.snd (Py.bind_of_error hleft)
    rw [hrun] at hb
    obtain rfl : b = b' := hb
    refine iff_of_false (fun hun => ?_) ?_
    · have hmem : user.id ∈ b.users := by
        rw [hadd.users, TreeSet.mem_insert]
        exact .inl rfl
      rw [hun.users] at hmem
      obtain ⟨x, hx⟩ := h.users _ hmem
      have hlt := (h.objs _ x hx).2
      rw [hadd.id] at hlt
      exact lt_irrefl _ hlt
    · rintro ⟨e', hsec'⟩
      rw [hsec] at hsec'
      cases hsec'

/-- `del_user` raises for a name that is unknown, or after the user is out of the tables. -/
theorem Sane.delUser_unchanged_iff {a b : Admin} (h : Sane a) {name : Str} {e : Exc}
    (hrun : memory P a (.delUser name) = (.error e, b)) :
    Unchanged a b ↔ Harmless P a (.delUser name) := by
  rcases hr : a.usersByName[name]? with _ | r
  · have hb : memory P a (.delUser name) = (.error .keyError, a) := delUser_unknown hr
    rw [hrun] at hb
    obtain rfl : b = a := congrArg Prod.snd hb
    exact iff_of_true (.refl b) hr
  · obtain ⟨user, rfl, hname, hmem, hu, hs⟩ := h.named hr
    obtain ⟨husers, -⟩ := delUser_leaves hr hu hmem hs
    have hb : (delUser name a).2 = b := congrArg Prod.snd hrun
    rw [hb] at husers
    refine iff_of_false (fun hun => ?_) (fun hnone => ?_)
    · have hgone : user.id ∉ a.users := by
        rw [← hun.users, husers, TreeSet.mem_erase]
        exact fun hm => hm.2 rfl
      exact hgone hmem
    · rw [Harmless, hr] at hnone
      cases hnone

/-- `change_cert` raises for a name that is unknown, or leaves what its certificate part does. -/
theorem Sane.changeCert_unchanged_iff {a b : Admin} (h : Sane a) {name : Str} {pem : Option Str}
    {password : Option Secret} {security : SecurityFunction} {appname : Str} {e : Exc}
    (hrun : memory P a (.changeCert name pem password security appname) = (.error e, b)) :
    Unchanged a b ↔ Harmless P a (.changeCert name pem password security appname) := by
  rcases hr : a.usersByName[name]? with _ | r
  · have hb : memory P a (.changeCert name pem password security appname) =
        (.error .keyError, a) := changeCert_unknown P hr pem password security appname
    rw [hrun] at hb
    obtain rfl : b = a := congrArg Prod.snd hb
    refine iff_of_true (.refl b) fun user hfound => ?_
    rw [hr] at hfound
    cases hfound
  · obtain ⟨user, rfl, -, hmem, hu, hs⟩ := h.named hr
    have hone : Harmless P a (.changeCert name pem password security appname) ↔
        Undone P a user pem := by
      refine ⟨?_, ?_⟩
      · exact fun hall => hall user hr hu
      · intro hun x hx hxu
        rw [hr, Option.some.injEq] at hx
        rw [← hx, hu, Option.some.injEq] at hxu
        exact hxu ▸ hun
    have hleft := replaceCerts_left (P := P) hu hs pem
    have hparts := (changeCert_found P hr pem password security appname).symm.trans hrun
    rw [hone]
    rcases hcerts : replaceCerts P user.id pem a with ⟨e' | ⟨⟩, b'⟩ <;> rw [hcerts] at hleft
    · rw [Py.bind_of_error hcerts] at hparts
      cases hparts
      exact hleft.unchanged_iff hmem hu
    · rw [Py.bind_of_ok hcerts] at hparts
      obtain rfl := replacePassword_error hparts
      exact hleft.unchanged_iff hmem hu

/-- A call that raises changes nothing exactly when it is harmless. -/
theorem Sane.unchanged_iff {a b : Admin} (h : Sane a) {c : Call} {e : Exc}
    (hrun : memory P a c = (.error e, b)) : Unchanged a b ↔ Harmless P a c := by
  cases c with
  | addUser => exact h.addUser_unchanged_iff hrun
  | delUser => exact h.delUser_unchanged_iff hrun
  | changeCert => exact h.changeCert_unchanged_iff hrun

/-- **Failed user administration, exactly**: in every state of every order of calls, commits,
aborts and reloads, a call that raises leaves the tables and every user's certificates and
password as they were if and only if it is harmless: the security function refuses the
password, the name is unknown, or the certificate part of `change_cert` has nothing to do. -/
theorem unchanged_iff_harmless (P : Platform) (events : List Event) :
    ∀ s ∈ (desk P).states (Desk.init P) events, ∀ c e b, memory P s.loaded c = (.error e, b) →
      (Unchanged s.loaded b ↔ Harmless P s.loaded c) := by
  intro s hs c e b hrun
  have hkept : s.Kept :=
    @Machine.states_inv _ _ _ (desk P) Desk.Kept (fun _ ev hk => hk.step ev) _ Desk.Kept.init
      events s hs
  exact hkept.loaded.unchanged_iff hrun

/-- Users `a` and `b` have certificates. Giving `a` the certificate of `b` raises and takes away
that of `a`; giving `a` a password raises, since `a` has no salt, and changes nothing. -/
theorem unchanged_iff_harmless_example :
    let s := (desk plainPlatform).final (Desk.init plainPlatform)
      [.call (.addUser ['a'] (some ['1']) none plainPlatform.kdfHashPassword.run [] []), .commit,
        .call (.addUser ['b'] (some ['2']) none plainPlatform.kdfHashPassword.run [] [])]
    let used : Call := .changeCert ['a'] (some ['2']) none plainPlatform.kdfHashPassword.run []
    let unsalted : Call :=
      .changeCert ['a'] none (some (.text ['p'])) plainPlatform.kdfHashPassword.run []
    (Unchanged s.loaded (memory plainPlatform s.loaded used).2 ↔
        Harmless plainPlatform s.loaded used) ∧
      (Unchanged s.loaded (memory plainPlatform s.loaded unsalted).2 ↔
        Harmless plainPlatform s.loaded unsalted) := by
  intro s used unsalted
  have hmem : s ∈ (desk plainPlatform).states (Desk.init plainPlatform) _ :=
    Machine.final_mem_states _ _ _
  refine ⟨?_, ?_⟩
  · exact unchanged_iff_harmless plainPlatform _ s hmem used
      (.valueError "SSL certificate id already used") _ (Prod.ext (by decide +kernel) rfl)
  · exact unchanged_iff_harmless plainPlatform _ s hmem unsalted (.attributeError "salt") _
      (Prod.ext (by decide +kernel) rfl)

/-- Adding `b` with the certificate of `a` raises, and leaves `b` in the tables. -/
theorem addUser_used_certificate :
    let s := (desk plainPlatform).final (Desk.init plainPlatform)
      [.call (.addUser ['a'] (some ['1']) none plainPlatform.kdfHashPassword.run [] []), .commit]
    ∃ b, memory plainPlatform s.loaded
        (.addUser ['b'] (some ['1']) none plainPlatform.kdfHashPassword.run [] []) =
          (.error (.valueError "SSL certificate id already used"), b) ∧
      ¬Unchanged s.loaded b := by
  intro s
  refine ⟨_, by rfl, fun h => ?_⟩
  have hnames := congrArg (·[['b']]?) h.usersByName
  exact absurd hnames (by decide +kernel)

end Admin

end Zerodb
