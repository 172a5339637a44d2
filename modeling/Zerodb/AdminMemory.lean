import Zerodb.AdminStore

/-!
# AdminMemory: the administrator's tables within one connection

Here nothing is committed or aborted: the calls work on the loaded objects one after
the other, and a call that raises leaves what it had done. `Effect` says what a call
leaves, however it ends; the invariants are kept effect by effect.

* `registered_states` — the table of certificates, the users' dictionaries and the
  certificate data agree in every state, as long as the text of a certificate occurs in
  the data only once.
* `bijective_iff_fresh` — the table of users and the table of names agree in every state
  exactly when no user is added under a name that is taken.
-/

namespace Zerodb

/-! ## Replacing a text that occurs once

If a text occurs once in the data, replacing it by nothing cuts out that occurrence. Occurrences
are counted at all positions, overlapping ones included, since a certificate may occur where the
end of one entry meets the start of the next. -/

namespace Certs

/-- At how many positions of a text does a nonempty pattern occur? -/
def occurrences (pattern : Str) : Str → ℕ
  | [] => 0
  | c :: text => (if pattern.isPrefixOf (c :: text) then 1 else 0) + occurrences pattern text

/-- `Certs.data` after adding the certificates of a list. -/
def concat (entries : List (Bytes × Str)) : Str := entries.flatMap fun e => '\n' :: '\n' :: e.2

variable {pattern : Str}

theorem occurrences_le_append (x y : Str) : occurrences pattern y ≤ occurrences pattern (x ++ y) := by
  induction x with
  | nil => exact le_rfl
  | cons c x ih =>
    rw [List.cons_append, occurrences]
    omega

theorem isPrefixOf_append (y : Str) : pattern.isPrefixOf (pattern ++ y) = true :=
  List.isPrefixOf_iff_prefix.mpr (List.prefix_append _ _)

/-- A text without the pattern is left alone. -/
theorem dropOccurrences_of_none {text : Str} (h : occurrences pattern text = 0) :
    dropOccurrences pattern 0 text = text := by
  induction text with
  | nil => rfl
  | cons c text ih =>
    rw [occurrences] at h
    have hhead : pattern.isPrefixOf (c :: text) = false := by
      by_contra hp
      rw [if_pos (Bool.not_eq_false _ ▸ hp)] at h
      omega
    rw [dropOccurrences, hhead, if_neg Bool.false_ne_true, ih (by omega)]

theorem dropOccurrences_skip (x y : Str) :
    dropOccurrences pattern x.length (x ++ y) = dropOccurrences pattern 0 y := by
  induction x with
  | nil => rfl
  | cons c x ih => exact ih

/-- The pattern is dropped from where it occurs, and nothing else is. -/
theorem dropOccurrences_append {c : Char} {rest x y : Str}
    (h : occurrences (c :: rest) (x ++ (c :: rest ++ y)) ≤ 1) :
    dropOccurrences (c :: rest) 0 (x ++ (c :: rest ++ y)) = x ++ y := by
  induction x with
  | nil =>
    have hhead : (c :: rest).isPrefixOf (c :: (rest ++ y)) = true := isPrefixOf_append y
    rw [List.nil_append, List.cons_append, occurrences, if_pos hhead] at h
    have htail : occurrences (c :: rest) y ≤ occurrences (c :: rest) (rest ++ y) :=
      occurrences_le_append rest y
    rw [List.nil_append, List.cons_append, dropOccurrences, if_pos hhead]
    refine (dropOccurrences_skip rest y).trans (dropOccurrences_of_none ?_)
    omega
  | cons d x ih =>
    rw [List.cons_append, occurrences] at h
    have hone : 1 ≤ occurrences (c :: rest) (x ++ (c :: rest ++ y)) := by
      refine le_trans ?_ (occurrences_le_append x _)
      have hhere : (c :: rest).isPrefixOf (c :: (rest ++ y)) = true := isPrefixOf_append y
      rw [List.cons_append, occurrences, if_pos hhere]
      omega
    have hhead : (c :: rest).isPrefixOf (d :: (x ++ (c :: rest ++ y))) = false := by
      by_contra hp
      rw [if_pos (Bool.not_eq_false _ ▸ hp)] at h
      omega
    rw [List.cons_append, dropOccurrences, hhead, if_neg Bool.false_ne_true, ih (by omega)]
    rfl

@[simp] theorem concat_append (l l' : List (Bytes × Str)) : concat (l ++ l') = concat l ++ concat l' :=
  List.flatMap_append

theorem concat_cons (e : Bytes × Str) (l : List (Bytes × Str)) :
    concat (e :: l) = '\n' :: '\n' :: e.2 ++ concat l := rfl

theorem add_concat (l : List (Bytes × Str)) (der : Bytes) (pem : Str) :
    add (concat l) pem = concat (l ++ [(der, pem)]) := by
  rw [concat_append, concat_cons]
  simp [add, concat]

/-- A certificate whose text occurs once is removed from its place. -/
theorem remove_concat {l l' : List (Bytes × Str)} {der : Bytes} {pem : Str}
    (h : occurrences ('\n' :: '\n' :: pem) (concat (l ++ (der, pem) :: l')) ≤ 1) :
    remove (concat (l ++ (der, pem) :: l')) pem = concat (l ++ l') := by
  rw [concat_append, concat_cons] at h ⊢
  rw [concat_append]
  exact dropOccurrences_append h

end Certs

namespace Admin

variable (P : Platform)

/-! ## The certificate data

The data is the concatenation of a list of entries, one for each certificate that a user holds.
Order does not matter to anybody, so the list is some list with these entries, and deleting a
certificate deletes an entry of it. -/

/-- The certificate data is made of the nobody certificate and those of the users, each
once. -/
def Listed (isUser : User → Prop) (data : Str) : Prop :=
  ∃ entries : List (Bytes × Str), data = Certs.concat entries ∧
    (entries.Pairwise fun x y => x.1 ≠ y.1) ∧
    ∀ e, e ∈ entries ↔ e = (P.nobodyDer, P.nobodyPem) ∨
      ∃ user, isUser user ∧ user.certs[e.1]? = some e.2

/-- A user has no certificate or one. -/
def Single (certs : BTree Bytes Str) : Prop :=
  certs = ∅ ∨ ∃ der pem, certs = (∅ : BTree Bytes Str).insert der pem

variable {P}

theorem FirstCert.single {data data' : Str} {certs : BTree Bytes Str}
    (h : FirstCert data certs data') : Single certs := by
  rcases h with ⟨h, -⟩ | ⟨der, pem, h, -⟩
  · exact .inl h
  · exact .inr ⟨der, pem, h⟩

namespace Listed

variable {isUser isUser' : User → Prop} {data data' : Str}

/-- The list depends only on what certificates the users have. -/
theorem congr (h : Listed P isUser data)
    (hsame : ∀ (der : Bytes) (pem : Str), (∃ user, isUser' user ∧ user.certs[der]? = some pem) ↔
      ∃ user, isUser user ∧ user.certs[der]? = some pem) : Listed P isUser' data := by
  obtain ⟨entries, hdata, hpair, hmem⟩ := h
  refine ⟨entries, hdata, hpair, fun e => ?_⟩
  rw [hmem, hsame]

/-- A new user's certificate is appended. -/
theorem first (h : Listed P isUser data) {user : User}
    (hfree : ∀ der ∈ user.certs, der ≠ P.nobodyDer ∧ ∀ x, isUser x → der ∉ x.certs)
    (hisUser : ∀ x, isUser' x ↔ x = user ∨ isUser x) (hfirst : FirstCert data user.certs data') :
    Listed P isUser' data' := by
  rcases hfirst with ⟨hnone, rfl⟩ | ⟨der, pem, hone, rfl⟩
  · refine h.congr fun der pem => ⟨?_, ?_⟩
    · rintro ⟨x, hx, hc⟩
      rcases (hisUser x).mp hx with rfl | hx
      · rw [hnone] at hc
        simp at hc
      · exact ⟨x, hx, hc⟩
    · rintro ⟨x, hx, hc⟩
      exact ⟨x, (hisUser x).mpr (.inr hx), hc⟩
  · obtain ⟨entries, rfl, hpair, hmem⟩ := h
    obtain ⟨hnobody, hothers⟩ := hfree der (by simp [hone])
    refine ⟨entries ++ [(der, pem)], Certs.add_concat _ _ _, ?_, fun e => ?_⟩
    · rw [List.pairwise_append]
      refine ⟨hpair, List.pairwise_singleton _ _, fun e he e' he' => ?_⟩
      obtain rfl := List.mem_singleton.mp he'
      rintro rfl
      rcases (hmem e).mp he with rfl | ⟨x, hx, hc⟩
      · exact hnobody rfl
      · exact hothers x hx (BTree.mem_of_get _ hc)
    · rw [List.mem_append, List.mem_singleton, hmem]
      refine ⟨?_, ?_⟩
      · rintro ((he | ⟨x, hx, hc⟩) | rfl)
        · exact .inl he
        · exact .inr ⟨x, (hisUser x).mpr (.inr hx), hc⟩
        · exact .inr ⟨user, (hisUser _).mpr (.inl rfl), by simp [hone]⟩
      · rintro (he | ⟨x, hx, hc⟩)
        · exact .inl (.inl he)
        · rcases (hisUser x).mp hx with rfl | hx
          · rw [hone, BTree.get_insert] at hc
            by_cases hd : der = e.1
            · rw [if_pos hd, Option.some.injEq] at hc
              exact .inr (Prod.ext hd.symm hc.symm)
            · rw [if_neg hd] at hc
              simp at hc
          · exact .inl (.inr ⟨x, hx, hc⟩)

/-- A user's certificate whose text occurs once is taken out. -/
theorem drop {a : Admin} (h : Listed P isUser a.certs) {user : User} (hu : isUser user)
    (hsingle : Single user.certs) (hnobody : P.nobodyDer ∉ user.certs)
    (hothers : ∀ x, isUser x → x.id ≠ user.id → ∀ der ∈ x.certs, der ∉ user.certs)
    (hunique : ∀ x, isUser x → x.id = user.id → x = user)
    (honce : ∀ (der : Bytes) (pem : Str), user.certs[der]? = some pem →
      Certs.occurrences ('\n' :: '\n' :: pem) a.certs ≤ 1) :
    Listed P (fun x => isUser x ∧ x.id ≠ user.id) (dropCerts user.certs.toList a).certs := by
  rcases hsingle with hnone | ⟨der, pem, hone⟩
  · have hsame : (dropCerts user.certs.toList a).certs = a.certs := by
      rw [hnone, Std.ExtTreeMap.toList_eq_nil_iff.mpr rfl]
      rfl
    rw [hsame]
    refine h.congr fun der pem => ⟨?_, ?_⟩
    · rintro ⟨x, hx, hc⟩
      exact ⟨x, hx.1, hc⟩
    · rintro ⟨x, hx, hc⟩
      refine ⟨x, ⟨hx, fun heq => ?_⟩, hc⟩
      rw [hunique x hx heq, hnone] at hc
      simp at hc
  · have hget : user.certs[der]? = some pem := by simp [hone]
    have hmine : ∀ d, d ∈ user.certs ↔ d = der := fun d => by rw [hone, BTree.mem_insert]; simp
    obtain ⟨entries, hdata, hpair, hmem⟩ := h
    obtain ⟨l, l', rfl⟩ := List.append_of_mem ((hmem (der, pem)).mpr (.inr ⟨user, hu, hget⟩))
    have hdrop : (dropCerts user.certs.toList a).certs = Certs.concat (l ++ l') := by
      have hocc := honce der pem hget
      rw [hdata] at hocc
      rw [hone, BTree.toList_singleton]
      exact (congrArg (Certs.remove · pem) hdata).trans (Certs.remove_concat hocc)
    have hperm : (l ++ (der, pem) :: l').Perm ((der, pem) :: (l ++ l')) := List.perm_middle
    have hpair' := (hperm.pairwise_iff fun hne => Ne.symm hne).mp hpair
    obtain ⟨hne, hrest⟩ := List.pairwise_cons.mp hpair'
    have hrestMem : ∀ e, e ∈ l ++ l' ↔ e ∈ l ++ (der, pem) :: l' ∧ e.1 ≠ der := by
      intro e
      rw [hperm.mem_iff, List.mem_cons]
      refine ⟨?_, ?_⟩
      · exact fun he => ⟨.inr he, (hne e he).symm⟩
      · rintro ⟨rfl | he, hd⟩
        · exact absurd rfl hd
        · exact he
    refine ⟨l ++ l', hdrop, hrest, fun e => ?_⟩
    rw [hrestMem, hmem]
    refine ⟨?_, ?_⟩
    · rintro ⟨he | ⟨x, hx, hc⟩, hd⟩
      · exact .inl he
      · refine .inr ⟨x, ⟨hx, fun heq => ?_⟩, hc⟩
        rw [hunique x hx heq] at hc
        exact hd ((hmine _).mp (BTree.mem_of_get _ hc))
    · rintro (rfl | ⟨x, ⟨hx, hid⟩, hc⟩)
      · exact ⟨.inl rfl, fun hd => hnobody ((hmine _).mpr hd)⟩
      · refine ⟨.inr ⟨x, hx, hc⟩, fun hd => ?_⟩
        exact hothers x hx hid e.1 (BTree.mem_of_get _ hc) ((hmine _).mpr hd)

end Listed

/-! ## What a call leaves

`Effect` has a case for each way in which a call can leave the tables, with what is known about
the state before it. An exception is a case like the others: adding a user with a refused
certificate leaves the user, changing to a refused certificate leaves the user without one.
`Linked` is kept by all cases, and needs no condition on the calls. -/

/-- A call of the administrator, with any security function. -/
inductive Call where
  /-- `add_user(uname, pem_data, password, security, appname)` -/
  | addUser : (uname : Str) → (pem : Option Str) → (password : Option Secret) →
      (security : SecurityFunction) → (appname : Str) → (uuid : Bytes) → Call
  /-- `del_user(name)` -/
  | delUser : (name : Str) → Call
  /-- `change_cert(name, pem_data, password, security, appname)` -/
  | changeCert : (name : Str) → (pem : Option Str) → (password : Option Secret) →
      (security : SecurityFunction) → (appname : Str) → Call

/-- The call, its result dropped. -/
def Call.run (P : Platform) : Call → Py Admin Unit
  | .addUser uname pem password security appname uuid => do
    let _ ← Admin.addUser P uname pem password security appname uuid
    return ()
  | .delUser name => Admin.delUser name
  | .changeCert name pem password security appname =>
    Admin.changeCert P name pem password security appname

/-- The calls as a machine on the loaded tables; an exception leaves them as they are
then. -/
def memory (P : Platform) : Machine Admin Call (Except Exc Unit) := fun a c => c.run P a

/-- What every call keeps. -/
structure Linked (P : Platform) (a : Admin) : Prop where
  /-- objects are kept under their ids, which are used up -/
  objs : ∀ (r : ℕ) (user : User), a.objs[r]? = some user → user.id = r ∧ r < a.nextOid
  /-- the table of users refers to objects -/
  users : ∀ r ∈ a.users, ∃ user, a.objs[r]? = some user
  /-- the table of names refers to users of that name -/
  names : ∀ (name : Str) (r : ℕ), a.usersByName[name]? = some r →
    ∃ user, IsUser a user ∧ user.id = r ∧ user.name = name
  /-- `uids` is the inverse of the users' certificates -/
  mapped : Mapped P (IsUser a) a.uids

/-- The tables after `del_user` of a user. -/
def deleted (a : Admin) (user : User) : Admin :=
  dropCerts user.certs.toList
    { a with usersByName := a.usersByName.erase user.name, users := a.users.erase user.id }

/-- What a call leaves, whether it ends or raises. -/
inductive Effect (a : Admin) : Call → Admin → Prop where
  /-- the security function raises: an oid is used up -/
  | rejected {uname pem password security appname uuid e} :
      security uname password appname = .error e →
      Effect a (.addUser uname pem password security appname uuid) { a with nextOid := a.nextOid + 1 }
  /-- a user is added, its certificate with it or not -/
  | added {uname pem password security appname uuid p b} {user : User} :
      security uname password appname = .ok p → user.name = uname → UserAdded a b user →
      FirstCert a.certs user.certs b.certs →
      Effect a (.addUser uname pem password security appname uuid) b
  /-- there is no user of that name to delete -/
  | absent {name} : a.usersByName[name]? = none → Effect a (.delUser name) a
  /-- a user is deleted -/
  | deleted {name} {user : User} : IsUser a user → user.name = name →
      a.usersByName[name]? = some user.id → Effect a (.delUser name) (deleted a user)
  /-- there is no user of that name to change -/
  | unknown {name pem password security appname} : a.usersByName[name]? = none →
      Effect a (.changeCert name pem password security appname) a
  /-- the certificates of a user are replaced -/
  | replaced {name pem password security appname b} {user user' : User} : IsUser a user →
      CertsReplaced a b user.id user user' → NewData a user user'.certs b.certs →
      Effect a (.changeCert name pem password security appname) b

/-- Every call has one of these effects. -/
theorem Linked.effect {a : Admin} (h : Linked P a) (c : Call) : Effect a c (memory P a c).2 := by
  cases c with
  | addUser uname pem password security appname uuid =>
    rcases addUser_cases P a uname pem password security appname uuid with
      ⟨e, hsec, hrun⟩ | ⟨p, b, user, hsec, hname, -, hadded, hdata, hrun⟩
    · have hleft : memory P a (.addUser uname pem password security appname uuid) =
          (.error e, { a with nextOid := a.nextOid + 1 }) := Py.bind_of_error hrun
      rw [hleft]
      exact .rejected hsec
    · have hleft : (memory P a (.addUser uname pem password security appname uuid)).2 = b := by
        rcases hrun with ⟨hrun, -⟩ | ⟨e, hrun, -⟩
        · exact congrArg Prod.snd (Py.bind_of_ok hrun)
        · exact congrArg Prod.snd (Py.bind_of_error hrun)
      rw [hleft]
      exact .added hsec hname hadded hdata
  | delUser name =>
    rcases hr : a.usersByName[name]? with _ | r
    · have hleft : memory P a (.delUser name) = (.error .keyError, a) := delUser_unknown hr
      rw [hleft]
      exact .absent hr
    · obtain ⟨user, hu, rfl, hname⟩ := h.names name r hr
      have hleft : memory P a (.delUser name) = (.ok (), deleted a user) := by
        subst hname
        exact delUser_ok hr hu.2 hu.1 (h.mapped.own_mem hu)
      rw [hleft]
      exact .deleted hu hname hr
  | changeCert name pem password security appname =>
    rcases hr : a.usersByName[name]? with _ | r
    · have hleft : memory P a (.changeCert name pem password security appname) =
          (.error .keyError, a) := changeCert_unknown P hr pem password security appname
      rw [hleft]
      exact .unknown hr
    · obtain ⟨user, hu, rfl, hname⟩ := h.names name r hr
      obtain ⟨b, user', hleft, hrep, hdata⟩ := changeCert_leaves P hr hu.2
        (fun _ hd => h.mapped.own hu hd) pem password security appname
      have hleft' : (memory P a (.changeCert name pem password security appname)).2 = b := hleft
      rw [hleft']
      exact .replaced hu hrep hdata

theorem UserAdded.isUser {a b : Admin} {user : User} (hl : Linked P a) (h : UserAdded a b user) :
    ∀ x, IsUser b x ↔ x = user ∨ IsUser a x := by
  refine isUser_insert h.users h.objs fun hmem => ?_
  obtain ⟨x, hx⟩ := hl.users _ hmem
  have hlt := (hl.objs _ _ hx).2
  rw [h.id] at hlt
  omega

theorem CertsReplaced.isUser {a b : Admin} {user user' : User} (hu : IsUser a user)
    (h : CertsReplaced a b user.id user user') :
    ∀ x, IsUser b x ↔ x = user' ∨ IsUser a x ∧ x.id ≠ user.id := by
  rw [← h.id]
  exact isUser_replace h.users (h.id ▸ h.objs) (h.id ▸ hu.1)

theorem deleted_isUser (a : Admin) (user : User) :
    ∀ x, IsUser (deleted a user) x ↔ IsUser a x ∧ x.id ≠ user.id :=
  isUser_erase (by simp [deleted]) fun k => by simp [deleted]

theorem deleted_uids (a : Admin) (user : User) (der : Bytes) :
    (deleted a user).uids[der]? = if der ∈ user.certs then none else a.uids[der]? :=
  dropCerts_uids_user user _ der

namespace Linked

variable {a b : Admin} {user user' : User}

theorem init : Linked P (init P) where
  objs r user h := by simp [Admin.init] at h
  users r h := by simp [Admin.init] at h
  names name r h := by simp [Admin.init] at h
  mapped := consistent_init.mapped

/-- Someone else's certificates are not the user's. -/
theorem others (hl : Linked P a) (hu : IsUser a user) {x : User} (hx : IsUser a x)
    (hne : x.id ≠ user.id) : ∀ der ∈ x.certs, der ∉ user.certs := by
  intro der hdx hd
  have hown := hl.mapped.own hu hd
  rw [hl.mapped.own hx hdx] at hown
  exact hne (Option.some.inj (Option.some.inj hown))

/-- Nor is the nobody certificate. -/
theorem nobody (hl : Linked P a) (hu : IsUser a user) : P.nobodyDer ∉ user.certs := by
  intro hd
  have hown := hl.mapped.own hu hd
  rw [hl.mapped.nobody_mem] at hown
  cases hown

theorem added (hl : Linked P a) (h : UserAdded a b user) : Linked P b := by
  have hisUser := h.isUser hl
  refine ⟨fun r x hx => ?_, fun r hr => ?_, fun n r hn => ?_, hl.mapped.add h.free hisUser h.uids⟩
  · rw [h.objs] at hx
    rw [h.nextOid]
    by_cases hk : user.id = r
    · rw [if_pos hk, Option.some.injEq] at hx
      refine ⟨hx ▸ hk, ?_⟩
      rw [← hk, h.id]
      omega
    · rw [if_neg hk] at hx
      obtain ⟨hid, hlt⟩ := hl.objs r x hx
      exact ⟨hid, by omega⟩
  · rw [h.users, TreeSet.mem_insert] at hr
    rw [h.objs]
    by_cases hk : user.id = r
    · exact ⟨user, if_pos hk⟩
    · rw [if_neg hk]
      exact hl.users r (hr.resolve_left (Ne.symm hk))
  · rw [h.usersByName, BTree.get_insert] at hn
    by_cases hk : user.name = n
    · rw [if_pos hk, Option.some.injEq] at hn
      exact ⟨user, (hisUser _).mpr (.inl rfl), hn, hk⟩
    · rw [if_neg hk] at hn
      obtain ⟨x, hx, hxr, hxn⟩ := hl.names n r hn
      exact ⟨x, (hisUser x).mpr (.inr hx), hxr, hxn⟩

theorem replaced (hl : Linked P a) (hu : IsUser a user)
    (h : CertsReplaced a b user.id user user') : Linked P b := by
  have hisUser := h.isUser hu
  refine ⟨fun r x hx => ?_, fun r hr => ?_, fun n r hn => ?_, ?_⟩
  · rw [h.objs] at hx
    rw [h.nextOid]
    by_cases hk : user.id = r
    · rw [if_pos hk, Option.some.injEq] at hx
      subst hx hk
      exact ⟨h.id, (hl.objs _ _ hu.2).2⟩
    · rw [if_neg hk] at hx
      exact hl.objs r x hx
  · rw [h.users] at hr
    rw [h.objs]
    by_cases hk : user.id = r
    · exact ⟨user', if_pos hk⟩
    · rw [if_neg hk]
      exact hl.users r hr
  · rw [h.usersByName] at hn
    obtain ⟨x, hx, hxr, hxn⟩ := hl.names n r hn
    by_cases hk : x.id = user.id
    · obtain rfl := hx.unique hu hk
      exact ⟨user', (hisUser _).mpr (.inl rfl), h.id.trans hxr, h.name.trans hxn⟩
    · exact ⟨x, (hisUser x).mpr (.inr ⟨hx, hk⟩), hxr, hxn⟩
  · exact (hl.mapped.replace_iff hu h.id (fun x hx heq => hx.unique hu heq) hisUser h.free
      h.uids).mpr fun der => Iff.rfl

theorem deleted (hl : Linked P a) (hu : IsUser a user) : Linked P (Admin.deleted a user) := by
  have hisUser := deleted_isUser a user
  refine ⟨fun r x hx => ?_, fun r hr => ?_, fun n r hn => ?_, ?_⟩
  · simp only [Admin.deleted, dropCerts_objs, dropCerts_nextOid] at hx ⊢
    exact hl.objs r x hx
  · simp only [Admin.deleted, dropCerts_objs, dropCerts_users, TreeSet.mem_erase] at hr ⊢
    exact hl.users r hr.1
  · simp only [Admin.deleted, dropCerts_usersByName, BTree.get_erase] at hn
    by_cases hk : user.name = n
    · rw [if_pos hk] at hn
      cases hn
    · rw [if_neg hk] at hn
      obtain ⟨x, hx, hxr, hxn⟩ := hl.names n r hn
      refine ⟨x, (hisUser x).mpr ⟨hx, fun heq => ?_⟩, hxr, hxn⟩
      obtain rfl := hx.unique hu heq
      exact hk hxn
  · exact hl.mapped.delete hu (fun x hx heq => hx.unique hu heq) hisUser (deleted_uids a user)

theorem of_effect (hl : Linked P a) {c : Call} (h : Effect a c b) : Linked P b := by
  cases h with
  | rejected _ =>
    exact ⟨fun r x hx => ⟨(hl.objs r x hx).1, Nat.lt_succ_of_lt (hl.objs r x hx).2⟩, hl.users,
      hl.names, hl.mapped⟩
  | added _ _ h _ => exact hl.added h
  | absent _ => exact hl
  | deleted hu _ _ => exact hl.deleted hu
  | unknown _ => exact hl
  | replaced hu h _ => exact hl.replaced hu h

/-- Every call keeps the links. -/
theorem step (hl : Linked P a) (c : Call) : Linked P (memory P a c).2 := hl.of_effect (hl.effect c)

end Linked

/-! ## Certificates

`Filed` adds the certificate data to the invariant. It is kept as long as the text of a
certificate occurs in the data only at its own entry (`Distinct`), which is asked of the state
before each call, since that is when texts are cut out. -/

/-- What the calls keep of the certificate data, as long as texts occur once. -/
structure Filed (P : Platform) (a : Admin) : Prop where
  /-- no user has two certificates -/
  single : ∀ user, IsUser a user → Single user.certs
  /-- the data lists the certificates there are -/
  listed : Listed P (IsUser a) a.certs

/-- The text of a certificate that a user holds occurs in the data only at its own
entry. -/
def Distinct (a : Admin) : Prop :=
  ∀ user, IsUser a user → ∀ (der : Bytes) (pem : Str), user.certs[der]? = some pem →
    Certs.occurrences ('\n' :: '\n' :: pem) a.certs ≤ 1

instance (a : Admin) : Decidable (Distinct a) := by
  refine decidable_of_iff (∀ r ∈ a.users.toList, ∀ user ∈ a.objs[r]?, user.id = r →
    ∀ e ∈ user.certs.toList, Certs.occurrences ('\n' :: '\n' :: e.2) a.certs ≤ 1) ⟨?_, ?_⟩
  · intro h user hu der pem hc
    exact h user.id (Std.ExtTreeSet.mem_toList.mpr hu.1) user hu.2 rfl (der, pem)
      (Std.ExtTreeMap.mem_toList_iff_getElem?_eq_some.mpr hc)
  · rintro h r hr user hu rfl e he
    exact h user ⟨Std.ExtTreeSet.mem_toList.mp hr, hu⟩ e.1 e.2
      (Std.ExtTreeMap.mem_toList_iff_getElem?_eq_some.mp he)

namespace Filed

variable {a b : Admin} {user user' : User}

theorem init : Filed P (init P) := by
  have hnone : ∀ user, ¬ IsUser (Admin.init P) user :=
    fun user hu => by simp [IsUser, Admin.init] at hu
  refine ⟨fun user hu => absurd hu (hnone user), [(P.nobodyDer, P.nobodyPem)], ?_,
    List.pairwise_singleton _ _, fun e => ?_⟩
  · rw [Certs.concat_cons]
    simp [Admin.init, Certs.add, Certs.concat]
  · rw [List.mem_singleton]
    refine ⟨?_, ?_⟩
    · exact .inl
    · rintro (he | ⟨user, hu, -⟩)
      · exact he
      · exact absurd hu (hnone user)

theorem added (hf : Filed P a) (hl : Linked P a) (h : UserAdded a b user)
    (hdata : FirstCert a.certs user.certs b.certs) : Filed P b := by
  have hisUser := h.isUser hl
  refine ⟨fun x hx => ?_, hf.listed.first (fun der hd => ⟨?_, fun x hx hdx => ?_⟩) hisUser hdata⟩
  · rcases (hisUser x).mp hx with rfl | hx
    · exact hdata.single
    · exact hf.single x hx
  · rintro rfl
    exact h.free _ hd (BTree.mem_of_get _ hl.mapped.nobody_mem)
  · exact h.free der hd (hl.mapped.own_mem hx der hdx)

/-- The data without the user's certificate. -/
theorem drop (hf : Filed P a) (hl : Linked P a) (hd : Distinct a) (hu : IsUser a user) :
    Listed P (fun x => IsUser a x ∧ x.id ≠ user.id) (dropCerts user.certs.toList a).certs :=
  hf.listed.drop hu (hf.single user hu) (hl.nobody hu) (fun _ hx hne => hl.others hu hx hne)
    (fun _ hx heq => hx.unique hu heq) (hd user hu)

theorem deleted (hf : Filed P a) (hl : Linked P a) (hd : Distinct a) (hu : IsUser a user) :
    Filed P (Admin.deleted a user) := by
  have hisUser := deleted_isUser a user
  refine ⟨fun x hx => hf.single x ((hisUser x).mp hx).1, ?_⟩
  have hdata : (Admin.deleted a user).certs = (dropCerts user.certs.toList a).certs :=
    dropCerts_certs _ rfl
  rw [hdata]
  refine (hf.drop hl hd hu).congr fun der pem => ?_
  simp only [hisUser]

theorem replaced (hf : Filed P a) (hl : Linked P a) (hd : Distinct a) (hu : IsUser a user)
    (h : CertsReplaced a b user.id user user') (hdata : NewData a user user'.certs b.certs) :
    Filed P b := by
  have hisUser := h.isUser hu
  rcases hdata with ⟨hcerts, hsame⟩ | hfirst
  · refine ⟨fun x hx => ?_, ?_⟩
    · rcases (hisUser x).mp hx with rfl | ⟨hx, -⟩
      · rw [hcerts]
        exact hf.single user hu
      · exact hf.single x hx
    · rw [hsame]
      refine hf.listed.congr fun der pem => ⟨?_, ?_⟩
      · rintro ⟨x, hx, hc⟩
        rcases (hisUser x).mp hx with rfl | ⟨hx, -⟩
        · exact ⟨user, hu, hcerts ▸ hc⟩
        · exact ⟨x, hx, hc⟩
      · rintro ⟨x, hx, hc⟩
        by_cases hk : x.id = user.id
        · obtain rfl := hx.unique hu hk
          exact ⟨user', (hisUser _).mpr (.inl rfl), hcerts ▸ hc⟩
        · exact ⟨x, (hisUser x).mpr (.inr ⟨hx, hk⟩), hc⟩
  · refine ⟨fun x hx => ?_, (hf.drop hl hd hu).first (fun der hdu => ⟨?_, fun x hx hdx => ?_⟩)
      hisUser hfirst⟩
    · rcases (hisUser x).mp hx with rfl | ⟨hx, -⟩
      · exact hfirst.single
      · exact hf.single x hx
    · rintro rfl
      exact hl.nobody hu (h.free _ hdu (BTree.mem_of_get _ hl.mapped.nobody_mem))
    · exact hl.others hu hx.1 hx.2 der hdx (h.free der hdu (hl.mapped.own_mem hx.1 der hdx))

theorem of_effect (hf : Filed P a) (hl : Linked P a) (hd : Distinct a) {c : Call}
    (h : Effect a c b) : Filed P b := by
  cases h with
  | rejected _ => exact ⟨hf.single, hf.listed⟩
  | added _ _ h hdata => exact hf.added hl h hdata
  | absent _ => exact hf
  | deleted hu _ _ => exact hf.deleted hl hd hu
  | unknown _ => exact hf
  | replaced hu h hdata => exact hf.replaced hl hd hu h hdata

end Filed

/-- **The certificate tables agree**: what is registered is what the users hold, no
certificate belongs to two of them, and the data lists what there is. -/
structure Registered (P : Platform) (a : Admin) : Prop where
  /-- a certificate is registered to a user if and only if that user holds it -/
  uids_iff : ∀ (der : Bytes) (r : ℕ), a.uids[der]? = some (some r) ↔
    ∃ user, IsUser a user ∧ user.id = r ∧ der ∈ user.certs
  /-- no two users hold the same -/
  unique : ∀ x y (der : Bytes), IsUser a x → IsUser a y → der ∈ x.certs → der ∈ y.certs → x = y
  /-- nobody has no id -/
  nobody : a.uids[P.nobodyDer]? = some none
  /-- the data is made of the nobody certificate and those the users hold, each once -/
  data : Listed P (IsUser a) a.certs

theorem Filed.registered {a : Admin} (hf : Filed P a) (hl : Linked P a) : Registered P a where
  uids_iff der r := by
    rw [hl.mapped]
    refine ⟨?_, ?_⟩
    · rintro (⟨-, hr⟩ | ⟨user, hu, hd, hr⟩)
      · cases hr
      · exact ⟨user, hu, (Option.some.inj hr).symm, hd⟩
    · rintro ⟨user, hu, rfl, hd⟩
      exact .inr ⟨user, hu, hd, rfl⟩
  unique x y der hx hy hdx hdy := by
    by_contra hne
    exact hl.others hy hx (fun heq => hne (hx.unique hy heq)) der hdx hdy
  nobody := hl.mapped.nobody_mem
  data := hf.listed

/-- **The certificate tables in memory**: in every state of a run whose calls each start
with certificate texts that occur once, the tables agree. -/
theorem registered_states (P : Platform) (calls : List Call)
    (h : (memory P).Along (fun a _ => Distinct a) (init P) calls) :
    ∀ a ∈ (memory P).states (init P) calls, Registered P a := by
  intro a ha
  have hboth : Linked P a ∧ Filed P a :=
    @Machine.Along.states_inv _ _ _ (memory P) _ (fun a => Linked P a ∧ Filed P a)
      (fun a c hi hd => ⟨hi.1.step c, hi.2.of_effect hi.1 hd (hi.1.effect c)⟩) _ _
      ⟨Linked.init, Filed.init⟩ h a ha
  exact hboth.2.registered hboth.1

/-- User `a` changes certificate 1 for certificate 2; adding `b` with certificate 2 raises
half way, and deleting `a` then leaves `b` without certificates. -/
theorem registered_states_example :
    Registered plainPlatform ((memory plainPlatform).final (init plainPlatform)
      [.addUser ['a'] (some ['1']) none plainPlatform.kdfHashPassword.run [] [],
        .changeCert ['a'] (some ['2']) none plainPlatform.kdfHashPassword.run [],
        .addUser ['b'] (some ['2']) none plainPlatform.kdfHashPassword.run [] [],
        .delUser ['a']]) :=
  registered_states plainPlatform
    [.addUser ['a'] (some ['1']) none plainPlatform.kdfHashPassword.run [] [],
      .changeCert ['a'] (some ['2']) none plainPlatform.kdfHashPassword.run [],
      .addUser ['b'] (some ['2']) none plainPlatform.kdfHashPassword.run [] [],
      .delUser ['a']]
    (by decide +kernel) _ (Machine.final_mem_states _ _ _)

/-! ## Names

The table of names is keyed by name, so that adding a second user of a name leaves the first one
unreachable. Everything else about the bijection holds in linked tables anyway
(`Linked.bijective`), which makes the condition exact. -/

/-- **The tables of users are in bijection**: they hold the same users, each under its own id
and its own name, and `del_user` leaves no user of the name and no certificate of one. -/
structure Bijective (a : Admin) : Prop where
  /-- users are kept under their ids -/
  byId : ∀ r ∈ a.users, ∃ user, a.objs[r]? = some user ∧ user.id = r
  /-- each is found under its name -/
  byName : ∀ user, IsUser a user → a.usersByName[user.name]? = some user.id
  /-- and names are of users only -/
  names : ∀ (name : Str) (r : ℕ), a.usersByName[name]? = some r →
    ∃ user, IsUser a user ∧ user.id = r ∧ user.name = name
  /-- after `del_user` there is no user of the name -/
  delUser_users : ∀ name user, IsUser (delUser name a).2 user → user.name ≠ name
  /-- and no certificate of one is registered -/
  delUser_uids : ∀ name user, IsUser a user → user.name = name →
    ∀ der ∈ user.certs, der ∉ (delUser name a).2.uids

/-- A user that gets past its security function is added under a name that is free. -/
def Fresh (a : Admin) : Call → Prop
  | .addUser uname _ password security appname _ =>
    (security uname password appname).toBool = true → uname ∉ a.usersByName
  | _ => True

instance (a : Admin) : DecidablePred (Fresh a)
  | .addUser .. => inferInstanceAs (Decidable (_ → _))
  | .delUser _ => .isTrue trivial
  | .changeCert .. => .isTrue trivial

/-- Being found under one's name is all there is to the bijection. -/
theorem Linked.bijective {a : Admin} (hl : Linked P a)
    (h : ∀ user, IsUser a user → a.usersByName[user.name]? = some user.id) : Bijective a := by
  have hdel : ∀ name, Effect a (.delUser name) (delUser name a).2 := fun name => hl.effect (.delUser name)
  refine ⟨fun r hr => ?_, h, hl.names, fun name x hx => ?_, fun name x hx hn der hd => ?_⟩
  · obtain ⟨user, hu⟩ := hl.users r hr
    exact ⟨user, hu, (hl.objs r user hu).1⟩
  · have hd := hdel name
    generalize (delUser name a).2 = b at hx hd
    cases hd with
    | absent hr =>
      rintro rfl
      rw [h x hx] at hr
      cases hr
    | @deleted _ user hu hname hr =>
      obtain ⟨hx, hne⟩ := (deleted_isUser a user x).mp hx
      rintro rfl
      rw [h x hx, Option.some.injEq] at hr
      exact hne hr
  · have hb := hdel name
    generalize (delUser name a).2 = b at hb
    cases hb with
    | absent hr =>
      subst hn
      rw [h x hx] at hr
      cases hr
    | @deleted _ user hu hname hr =>
      subst hn
      rw [h x hx, Option.some.injEq] at hr
      obtain rfl := hx.unique hu hr
      rw [BTree.not_mem_iff, deleted_uids, if_pos hd]

/-- One call keeps the bijection exactly when it is fresh. -/
theorem Linked.bijective_iff {a b : Admin} (hl : Linked P a) (hb : Bijective a) {c : Call}
    (h : Effect a c b) : Bijective b ↔ Fresh a c := by
  have hl' := hl.of_effect h
  cases h with
  | rejected hsec =>
    refine iff_of_true (hl'.bijective hb.byName) ?_
    intro hok
    rw [hsec] at hok
    cases hok
  | @added uname pem password security appname uuid p b user hsec hname hadded hdata =>
    have hisUser := hadded.isUser hl
    have hfresh : Fresh a (.addUser uname pem password security appname uuid) ↔
        uname ∉ a.usersByName := by
      rw [Fresh, hsec]
      exact ⟨fun h => h rfl, fun h _ => h⟩
    rw [hfresh]
    subst hname
    refine ⟨?_, ?_⟩
    · -- the user that had the name is not found under it any more
      intro hb' hmem
      obtain ⟨r, hr⟩ := (BTree.mem_iff _).mp hmem
      obtain ⟨x, hx, rfl, hxn⟩ := hl.names _ _ hr
      have hfound := hb'.byName x ((hisUser x).mpr (.inr hx))
      rw [hadded.usersByName, hxn, BTree.get_insert, if_pos rfl, Option.some.injEq, hadded.id] at hfound
      have hlt := (hl.objs _ _ hx.2).2
      omega
    · intro hnew
      refine hl'.bijective fun x hx => ?_
      rw [hadded.usersByName, BTree.get_insert]
      rcases (hisUser x).mp hx with rfl | hx
      · rw [if_pos rfl]
      · have hfound := hb.byName x hx
        have hne : user.name ≠ x.name := fun heq => hnew (heq ▸ BTree.mem_of_get _ hfound)
        rw [if_neg hne, hfound]
  | absent _ => exact iff_of_true hb trivial
  | @deleted name user hu hname hr =>
    refine iff_of_true (hl'.bijective fun x hx => ?_) trivial
    obtain ⟨hx, hne⟩ := (deleted_isUser a user x).mp hx
    have hfound := hb.byName x hx
    have hnames : user.name ≠ x.name := by
      intro heq
      rw [← heq, hname, hr, Option.some.injEq] at hfound
      exact hne hfound.symm
    simp only [Admin.deleted, dropCerts_usersByName]
    rw [BTree.get_erase_ne _ hnames, hfound]
  | unknown _ => exact iff_of_true hb trivial
  | @replaced name _ _ _ _ b user user' hu hrep hdata =>
    refine iff_of_true (hl'.bijective fun x hx => ?_) trivial
    rw [hrep.usersByName]
    rcases (hrep.isUser hu x).mp hx with rfl | ⟨hx, -⟩
    · rw [hrep.name, hrep.id]
      exact hb.byName user hu
    · exact hb.byName x hx

/-- **The tables of users in memory, exactly**: every state of a run is in bijection if and
only if no call adds a user under a name that is taken. -/
theorem bijective_iff_fresh (P : Platform) (calls : List Call) :
    (∀ a ∈ (memory P).states (init P) calls, Bijective a) ↔
      (memory P).Along Fresh (init P) calls :=
  @Machine.states_inv_iff_along _ _ _ (memory P) Fresh Bijective (Linked P)
    (fun _ c hl _ _ => hl.step c)
    (fun _ c hl hb => hl.bijective_iff hb (hl.effect c)) _ Linked.init
    (Linked.init.bijective fun user hu => by simp [IsUser, init] at hu) calls

/-- User `a` is added twice: the first one is not found under its name any more, and
deleting `a` leaves its certificate registered. -/
theorem addUser_twice :
    ¬ Bijective ((memory plainPlatform).final (init plainPlatform)
      [.addUser ['a'] (some ['1']) none plainPlatform.kdfHashPassword.run [] [],
        .addUser ['a'] (some ['2']) none plainPlatform.kdfHashPassword.run [] []]) ∧
    ((memory plainPlatform).final (init plainPlatform)
      [.addUser ['a'] (some ['1']) none plainPlatform.kdfHashPassword.run [] [],
        .addUser ['a'] (some ['2']) none plainPlatform.kdfHashPassword.run [] [],
        .delUser ['a']]).uids[([49] : Bytes)]? = some (some 2) := by
  refine ⟨fun h => ?_, by decide +kernel⟩
  have hfirst := h.byName
    ⟨['a'], 2, (∅ : BTree Bytes Str).insert [49] ['1'], none, none, true⟩ ⟨by decide, by rfl⟩
  exact absurd hfirst (by decide)

end Admin

end Zerodb
