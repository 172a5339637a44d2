import Zerodb.AdminMemory
import Zerodb.Gate

/-!
# Invalidation: which connections hear of a commit

The server keeps a list of the connections that have selected its storage, and
`StorageServer.invalidate` goes through it, comparing the `user_id` of each with that of
the committing connection. A connection enters the list, and gets the `user_id` of its
certificate, before its credentials are checked; a `register` that fails then leaves both.

* `StorageServer.invalidate` — the messages of a commit;
* `Wired` — what the steps of the server keep: a successfully registered connection is in
  the list once, under its user;
* `routed_iff_clean` — the invalidations of a user go to the right connections as long as
  no `register` with that user's certificate has failed.
-/

namespace Zerodb

/-- A message to a client. -/
inductive Message where
  /-- `invalidateTransaction(tid, invalidated)` -/
  | invalidateTransaction : (tid : ℕ) → (invalidated : List Oid) → Message
  /-- `info(info)` -/
  | info : Bytes → Message
  deriving DecidableEq

/-- A connection of the server, with what became of its `register`; the last two fields are
no part of the program. -/
structure Client where
  /-- the program's object -/
  zs : ZEOStorage Unit
  /-- the user it registered successfully as -/
  registeredAs : Option ℕ
  /-- the user of the certificate it failed to register with -/
  failedAs : Option ℕ

/-- `StorageServer`, for its one storage. -/
structure StorageServer where
  /-- the open connections, in the order they were opened -/
  clients : List Client
  /-- `zeo_storages_by_storage_id[storage_id]`, by their positions -/
  zeoStorages : List ℕ
  /-- `invq[storage_id]`, newest first -/
  invq : List (ℕ × List Oid)
  /-- `invq_bound` -/
  invqBound : ℕ
  /-- what has been passed on to the certificate database -/
  acceptor : List (ℕ × List Oid)

namespace ZEOStorage

variable {σ : Type} (P : Platform)

/-- A check of credentials that raises has changed nothing. -/
theorem checkCredentials_error {admin : Admin} {c : Credentials} {conn conn' : ZEOStorage σ}
    {e : Exc} (h : checkCredentials P admin c conn = (.error e, conn')) : conn' = conn := by
  rw [checkCredentials] at h
  rcases hname : c.name with _ | name <;> rw [hname] at h
  · exact (congrArg Prod.snd h).symm
  rw [Py.ofOption_some, Py.pure_bind_apply] at h
  rcases hr : admin.usersByName[name]? with _ | r <;> rw [hr] at h
  · exact (congrArg Prod.snd h).symm
  rw [Py.ofOption_some, Py.pure_bind_apply] at h
  rcases hu : admin.objs[r]? with _ | user <;> rw [hu] at h
  · exact (congrArg Prod.snd h).symm
  rw [Py.ofOption_some, Py.pure_bind_apply, Py.get_bind_apply] at h
  by_cases hid : some user.id ≠ conn.userId ∧ conn.userId ≠ none
  · rw [if_pos hid] at h
    exact (congrArg Prod.snd h).symm
  rw [if_neg hid] at h
  rcases hpw : c.password with _ | password <;> rw [hpw] at h
  · exact (congrArg Prod.snd h).symm
  rw [Py.ofOption_some, Py.pure_bind_apply] at h
  rcases hcheck : user.checkPassword P password with e' | ok <;> rw [hcheck] at h
  · exact (congrArg Prod.snd h).symm
  · cases ok with
    | false => exact (congrArg Prod.snd h).symm
    | true => cases h

/-- **A `register` that raises leaves the user of the certificate** on the connection. -/
theorem register_error {admin : Admin} {der : Bytes} {credentials : Option Credentials}
    {conn conn' : ZEOStorage σ} {e : Exc} (hnew : conn.storage = none) (hfresh : conn.userId = none)
    (h : register P none admin der credentials conn = (.error e, conn')) :
    conn'.userId = admin.uids[der]?.join := by
  set start : ZEOStorage σ := { conn with storage := some .raw, enabled := true } with hstart
  have hrun := register_of_new P admin der credentials hnew
  rw [hrun] at h
  rcases hauth : authenticate P admin der credentials start with ⟨e' | ⟨⟩, conn''⟩
  · rw [Py.bind_of_error hauth] at h
    obtain rfl : conn'' = conn' := congrArg Prod.snd h
    rw [authenticate] at hauth
    rcases huid : admin.uids[der]? with _ | userId <;> rw [huid] at hauth
    · obtain rfl : start = conn'' := congrArg Prod.snd hauth
      exact hfresh
    · rw [Py.ofOption_some, Py.pure_bind_apply, Py.modify_bind_apply] at hauth
      cases credentials with
      | none =>
        -- nobody without credentials is refused
        cases userId with
        | none => exact congrArg ZEOStorage.userId (congrArg Prod.snd hauth).symm
        | some uid => cases hauth
      | some c => exact congrArg ZEOStorage.userId (checkCredentials_error P hauth)
  · rw [Py.bind_of_ok hauth] at h
    cases h

end ZEOStorage

namespace StorageServer

/-! ## The server

`register` of the server adds the connection to the list before the client is authenticated, and
the `user_id` of the certificate is assigned before the credentials are checked. Nothing takes
either back. A commit sends its message to those in the list with the `user_id` of the committing
connection. -/

/-- `zs.user_id`. -/
def userId (s : StorageServer) (c : ℕ) : Option ℕ := s.clients[c]?.bind fun cl => cl.zs.userId

/-- The user a connection registered successfully as. -/
def registeredAs (s : StorageServer) (c : ℕ) : Option ℕ := s.clients[c]?.bind Client.registeredAs

/-- The user of the certificate a connection failed to register with. -/
def failedAs (s : StorageServer) (c : ℕ) : Option ℕ := s.clients[c]?.bind Client.failedAs

/-- What a connection in the list is sent, if anything. -/
def message (s : StorageServer) (conn : ℕ) (tid : ℕ) (invalidated : List Oid)
    (info : Option Bytes) (c : ℕ) : Option Message :=
  if s.userId c = s.userId conn then
    if invalidated ≠ [] ∧ c ≠ conn then some (.invalidateTransaction tid invalidated)
    else info.map .info
  else none

/-- `invq` after a commit. -/
def enqueue (s : StorageServer) (tid : ℕ) (invalidated : List Oid) : List (ℕ × List Oid) :=
  if invalidated = [] then s.invq
  else (tid, invalidated) :: if s.invqBound ≤ s.invq.length then s.invq.dropLast else s.invq

/-- `invalidate`; without a connection nobody is told. The messages are in the order they
are sent. -/
def invalidate (s : StorageServer) (conn : Option ℕ) (tid : ℕ) (invalidated : List Oid)
    (info : Option Bytes) : List (ℕ × Message) × StorageServer :=
  (match conn with
    | none => []
    | some conn => s.zeoStorages.filterMap fun c =>
      (s.message conn tid invalidated info c).map fun m => (c, m),
    { s with
      invq := s.enqueue tid invalidated
      acceptor := s.acceptor ++ [(tid, invalidated)] })

/-- `register` of a connection. The base class refuses a second one, and whatever it has
itself against the request; then it adds the connection to the list. -/
def register (P : Platform) (s : StorageServer) (c : ℕ) (refused : Option Exc) (admin : Admin)
    (der : Bytes) (credentials : Option Credentials) : Except Exc Unit × StorageServer :=
  match s.clients[c]? with
  | none => (.error .keyError, s)
  | some cl =>
    match cl.zs.storage, refused with
    | some _, _ => (.error (.valueError "duplicate register() call"), s)
    | none, some e => (.error e, s)
    | none, none =>
      match ZEOStorage.register P none admin der credentials cl.zs with
      | (.ok (), zs) =>
        (.ok (), { s with
          clients := s.clients.set c ⟨zs, zs.userId, none⟩
          zeoStorages := s.zeoStorages ++ [c] })
      | (.error e, zs) =>
        (.error e, { s with
          clients := s.clients.set c ⟨zs, none, admin.uids[der]?.join⟩
          zeoStorages := s.zeoStorages ++ [c] })

/-- What happens at the server. -/
inductive Event where
  /-- a connection is opened -/
  | connect : Event
  /-- a connection calls `register`; the base class may have something against it -/
  | register : (c : ℕ) → (refused : Option Exc) → (admin : Admin) → (der : Bytes) →
      (credentials : Option Credentials) → Event
  /-- a connection finishes a transaction -/
  | commit : (c : ℕ) → (tid : ℕ) → (invalidated : List Oid) → (info : Option Bytes) → Event

/-- The server as a machine that answers with the messages it sends. -/
def machine (P : Platform) : Machine StorageServer Event (List (ℕ × Message)) := fun s event =>
  match event with
  | .connect => ([], { s with clients := s.clients ++ [⟨ZEOStorage.connect (), none, none⟩] })
  | .register c refused admin der credentials =>
    ([], (s.register P c refused admin der credentials).2)
  | .commit c tid invalidated info => s.invalidate (some c) tid invalidated info

/-- A server without connections. -/
def start (invqBound : ℕ) : StorageServer := ⟨[], [], [], invqBound, []⟩

/-! ## What the steps keep

`Wired` is the list and `Known` the meaning of `user_id`: that of the registration, successful or
failed. The base class refuses a second `register`, so that what one has left stays. -/

/-- The `user_id` of a connection is that of its registration, failed or not. -/
structure Known (cl : Client) : Prop where
  /-- the user it registered as, or failed to -/
  userId : cl.zs.userId = cl.registeredAs.or cl.failedAs
  /-- not both -/
  exclusive : cl.registeredAs ≠ none → cl.failedAs = none
  /-- neither before `register` -/
  fresh : cl.zs.storage = none → cl.registeredAs = none ∧ cl.failedAs = none

/-- The list holds each connection that has selected the storage once. -/
structure Wired (s : StorageServer) : Prop where
  /-- no connection is in the list twice -/
  nodup : s.zeoStorages.Nodup
  /-- a connection is in the list once it has selected the storage -/
  listed : ∀ c, c ∈ s.zeoStorages ↔ ∃ cl, s.clients[c]? = some cl ∧ cl.zs.storage ≠ none
  /-- the connections have the ids of their registrations -/
  known : ∀ (c : ℕ) (cl : Client), s.clients[c]? = some cl → Known cl

namespace Wired

variable {P : Platform} {s : StorageServer}

theorem start (invqBound : ℕ) : Wired (start invqBound) :=
  ⟨List.nodup_nil, fun c => by simp [StorageServer.start], fun c cl h => by
    simp [StorageServer.start] at h⟩

/-- A connection is opened. -/
theorem connect (hw : Wired s) :
    Wired { s with clients := s.clients ++ [⟨ZEOStorage.connect (), none, none⟩] } := by
  have hget : ∀ c cl, (s.clients ++ [⟨ZEOStorage.connect (), none, none⟩])[c]? = some cl ↔
      s.clients[c]? = some cl ∨
        c = s.clients.length ∧ cl = ⟨ZEOStorage.connect (), none, none⟩ := by
    intro c cl
    rcases lt_trichotomy c s.clients.length with hlt | rfl | hgt
    · rw [List.getElem?_append_left hlt]
      exact ⟨.inl, fun h => h.resolve_right fun h => hlt.ne h.1⟩
    · rw [List.getElem?_append_right (Nat.le_refl _), List.getElem?_eq_none (Nat.le_refl _)]
      simp [eq_comm]
    · rw [List.getElem?_eq_none (by simp; omega), List.getElem?_eq_none hgt.le]
      simp [hgt.ne']
  refine ⟨hw.nodup, fun c => ?_, fun c cl h => ?_⟩
  · rw [hw.listed]
    refine ⟨?_, ?_⟩
    · rintro ⟨cl, hcl, hs⟩
      exact ⟨cl, (hget c cl).mpr (.inl hcl), hs⟩
    · rintro ⟨cl, hcl, hs⟩
      rcases (hget c cl).mp hcl with hcl | ⟨-, rfl⟩
      · exact ⟨cl, hcl, hs⟩
      · exact absurd rfl hs
  · rcases (hget c cl).mp h with hcl | ⟨-, rfl⟩
    · exact hw.known c cl hcl
    · exact ⟨rfl, fun h => absurd rfl h, fun _ => ⟨rfl, rfl⟩⟩

/-- A connection selects the storage. -/
theorem select (hw : Wired s) {c : ℕ} {cl cl' : Client} (hcl : s.clients[c]? = some cl)
    (hfresh : cl.zs.storage = none) (hstorage : cl'.zs.storage ≠ none) (hknown : Known cl') :
    Wired { s with clients := s.clients.set c cl', zeoStorages := s.zeoStorages ++ [c] } := by
  have hlt : c < s.clients.length := (List.getElem?_eq_some_iff.mp hcl).1
  -- a connection without a storage is not in the list yet
  have hnew : c ∉ s.zeoStorages := by
    intro hmem
    obtain ⟨x, hx, hs⟩ := (hw.listed c).mp hmem
    rw [hcl, Option.some.injEq] at hx
    exact hs (hx ▸ hfresh)
  have hget : ∀ d x, (s.clients.set c cl')[d]? = some x ↔
      d = c ∧ x = cl' ∨ d ≠ c ∧ s.clients[d]? = some x := by
    intro d x
    by_cases hd : d = c
    · subst hd
      rw [List.getElem?_set_self hlt]
      simp [eq_comm]
    · rw [List.getElem?_set_ne (Ne.symm hd)]
      simp [hd]
  refine ⟨?_, fun d => ?_, fun d x hx => ?_⟩
  · rw [List.nodup_append]
    refine ⟨hw.nodup, List.nodup_singleton c, fun x hx y hy hxy => ?_⟩
    rw [List.mem_singleton] at hy
    exact hnew (hy ▸ hxy ▸ hx)
  · rw [List.mem_append, List.mem_singleton, hw.listed]
    refine ⟨?_, ?_⟩
    · rintro (⟨x, hx, hs⟩ | rfl)
      · by_cases hd : d = c
        · exact ⟨cl', (hget d cl').mpr (.inl ⟨hd, rfl⟩), hstorage⟩
        · exact ⟨x, (hget d x).mpr (.inr ⟨hd, hx⟩), hs⟩
      · exact ⟨cl', (hget d cl').mpr (.inl ⟨rfl, rfl⟩), hstorage⟩
    · rintro ⟨x, hx, hs⟩
      rcases (hget d x).mp hx with ⟨rfl, -⟩ | ⟨-, hx⟩
      · exact .inr rfl
      · exact .inl ⟨x, hx, hs⟩
  · rcases (hget d x).mp hx with ⟨-, rfl⟩ | ⟨-, hx⟩
    · exact hknown
    · exact hw.known d x hx

/-- A connection calls `register`. -/
theorem register (hw : Wired s) (c : ℕ) (refused : Option Exc) (admin : Admin) (der : Bytes)
    (credentials : Option Credentials) :
    Wired (s.register P c refused admin der credentials).2 := by
  rw [StorageServer.register]
  rcases hcl : s.clients[c]? with _ | cl
  · exact hw
  · rcases hs : cl.zs.storage with _ | h
    · cases refused with
      | some e => simpa only [hs] using hw
      | none =>
        have hfresh := (hw.known c cl hcl).fresh hs
        have hnone : cl.zs.userId = none := by
          rw [(hw.known c cl hcl).userId, hfresh.1, hfresh.2]
          rfl
        simp only [hs]
        rcases ZEOStorage.register_cases P admin der credentials hs with
          ⟨uid, -, hrun⟩ | ⟨-, e, conn', hrun, hraw, -, -⟩
        · rw [hrun]
          exact hw.select hcl hs (Option.some_ne_none _)
            ⟨rfl, fun _ => rfl, fun h => absurd h (Option.some_ne_none _)⟩
        · rw [hrun]
          refine hw.select hcl hs (hraw ▸ Option.some_ne_none _)
            ⟨ZEOStorage.register_error P hs hnone hrun, fun h => absurd rfl h, fun h => ?_⟩
          rw [hraw] at h
          exact absurd h (Option.some_ne_none _)
    · simpa only [hs] using hw

/-- Every step keeps the list. -/
theorem step (hw : Wired s) (event : Event) : Wired (machine P s event).2 := by
  cases event with
  | connect => exact hw.connect
  | register c refused admin der credentials => exact hw.register c refused admin der credentials
  | commit c tid invalidated info => exact ⟨hw.nodup, hw.listed, hw.known⟩

end Wired

/-! ## Who is told

A message goes to each other connection in the list with the same `user_id`, once. These are the
connections that registered as the user, and those that failed to with the certificate of the
user. So a commit is routed right exactly if there are none of the latter. -/

/-- How often a commit sends its invalidation to a connection. -/
def told (P : Platform) (s : StorageServer) (c tid : ℕ) (invalidated : List Oid)
    (info : Option Bytes) (d : ℕ) : ℕ :=
  (machine P s (.commit c tid invalidated info)).1.count (d, .invalidateTransaction tid invalidated)

/-- **What a commit sends**: its invalidation goes once to each other connection in the list
with the same `user_id`, and to nobody else. -/
theorem told_eq (P : Platform) {s : StorageServer} (hw : Wired s) (c tid : ℕ)
    {invalidated : List Oid} (hne : invalidated ≠ []) (info : Option Bytes) (d : ℕ) :
    told P s c tid invalidated info d =
      if d ∈ s.zeoStorages ∧ s.userId d = s.userId c ∧ d ≠ c then 1 else 0 := by
  -- the loop sends the invalidation, or `info` to the sender itself, or nothing
  have hmessage : s.message c tid invalidated info d = some (.invalidateTransaction tid invalidated) ↔
      s.userId d = s.userId c ∧ d ≠ c := by
    rw [message]
    by_cases huser : s.userId d = s.userId c
    · by_cases hd : d = c
      · subst hd
        cases info <;> simp
      · simp [huser, hd, hne]
    · simp [huser]
  set send := fun x : ℕ => (s.message c tid invalidated info x).map fun m => (x, m) with hsend
  have hmem : (d, Message.invalidateTransaction tid invalidated) ∈ s.zeoStorages.filterMap send ↔
      d ∈ s.zeoStorages ∧ s.userId d = s.userId c ∧ d ≠ c := by
    rw [List.mem_filterMap]
    refine ⟨?_, ?_⟩
    · rintro ⟨x, hx, hxm⟩
      obtain ⟨m, hm, heq⟩ := Option.map_eq_some_iff.mp hxm
      obtain ⟨rfl, rfl⟩ := Prod.mk.inj heq
      exact ⟨hx, hmessage.mp hm⟩
    · rintro ⟨hd, h⟩
      exact ⟨d, hd, Option.map_eq_some_iff.mpr ⟨_, hmessage.mpr h, rfl⟩⟩
  -- each connection is in the list once, and is sent one message
  have hnodup : (s.zeoStorages.filterMap send).Nodup := by
    refine hw.nodup.filterMap fun x y p hx hy => ?_
    obtain ⟨m, -, rfl⟩ := Option.map_eq_some_iff.mp hx
    obtain ⟨m', -, heq⟩ := Option.map_eq_some_iff.mp hy
    exact (congrArg Prod.fst heq).symm
  have htold : told P s c tid invalidated info d =
      (s.zeoStorages.filterMap send).count (d, .invalidateTransaction tid invalidated) := rfl
  rw [htold]
  by_cases h : d ∈ s.zeoStorages ∧ s.userId d = s.userId c ∧ d ≠ c
  · rw [if_pos h, List.count_eq_one_of_mem hnodup (hmem.mpr h)]
  · rw [if_neg h, List.count_eq_zero_of_not_mem (mt hmem.mp h)]

/-- **A commit is routed right**: the invalidation by a connection that registered
successfully as `u` is sent exactly once to every other such connection, and to no connection
that did not. -/
def Routed (P : Platform) (s : StorageServer) : Event → Prop
  | .connect => True
  | .register .. => True
  | .commit c tid invalidated info => invalidated ≠ [] → ∀ u, s.registeredAs c = some u →
      (∀ d, d ≠ c → s.registeredAs d = some u → told P s c tid invalidated info d = 1) ∧
      ∀ d, s.registeredAs d ≠ some u → told P s c tid invalidated info d = 0

/-- When a user commits, no `register` with the certificate of that user has failed. -/
def Clean (s : StorageServer) : Event → Prop
  | .connect => True
  | .register .. => True
  | .commit c _ invalidated _ => invalidated ≠ [] → ∀ u, s.registeredAs c = some u →
      ∀ d, s.failedAs d ≠ some u

namespace Wired

variable {P : Platform} {s : StorageServer}

/-- A connection has the id of a user if it registered as that user, or failed to. -/
theorem userId_iff (hw : Wired s) (d u : ℕ) :
    s.userId d = some u ↔ s.registeredAs d = some u ∨ s.failedAs d = some u := by
  rw [StorageServer.userId, registeredAs, failedAs]
  rcases hcl : s.clients[d]? with _ | cl
  · simp
  · have hknown := hw.known d cl hcl
    simp only [Option.bind_some, hknown.userId, Option.or_eq_some_iff]
    refine ⟨?_, ?_⟩
    · rintro (h | ⟨-, h⟩)
      · exact .inl h
      · exact .inr h
    · rintro (h | h)
      · exact .inl h
      · refine .inr ⟨?_, h⟩
        by_contra hne
        rw [hknown.exclusive hne] at h
        cases h

/-- Then it is in the list. -/
theorem mem_zeoStorages (hw : Wired s) {d u : ℕ}
    (h : s.registeredAs d = some u ∨ s.failedAs d = some u) : d ∈ s.zeoStorages := by
  rw [registeredAs, failedAs] at h
  rcases hcl : s.clients[d]? with _ | cl
  · simp [hcl] at h
  · refine (hw.listed d).mpr ⟨cl, hcl, fun hs => ?_⟩
    obtain ⟨hreg, hfail⟩ := (hw.known d cl hcl).fresh hs
    simp [hcl, hreg, hfail] at h

theorem not_both (hw : Wired s) {d u : ℕ} (h : s.failedAs d = some u) : s.registeredAs d = none := by
  rw [failedAs] at h
  rw [registeredAs]
  rcases hcl : s.clients[d]? with _ | cl
  · rfl
  · simp only [hcl, Option.bind_some] at h ⊢
    by_contra hne
    rw [(hw.known d cl hcl).exclusive hne] at h
    cases h

/-- One commit is routed right exactly when it is clean. -/
theorem routed_iff (hw : Wired s) (event : Event) : Routed P s event ↔ Clean s event := by
  cases event with
  | connect => exact Iff.rfl
  | register c refused admin der credentials => exact Iff.rfl
  | commit c tid invalidated info =>
    refine forall_congr' fun hne => forall_congr' fun u => forall_congr' fun hu => ?_
    have hc : s.userId c = some u := (hw.userId_iff c u).mpr (.inl hu)
    simp only [told_eq P hw c tid hne info, hc]
    refine ⟨?_, ?_⟩
    · rintro ⟨-, hno⟩ d hd
      -- a connection that failed to register has the id, and is told
      have hnot : s.registeredAs d ≠ some u := by
        rw [hw.not_both hd]
        exact (Option.some_ne_none u).symm
      have hdc : d ≠ c := by
        rintro rfl
        exact hnot hu
      have htold := hno d hnot
      rw [if_pos ⟨hw.mem_zeoStorages (.inr hd), (hw.userId_iff d u).mpr (.inr hd), hdc⟩] at htold
      cases htold
    · intro hclean
      refine ⟨?_, ?_⟩
      · intro d hdc hd
        exact if_pos ⟨hw.mem_zeoStorages (.inl hd), (hw.userId_iff d u).mpr (.inl hd), hdc⟩
      · intro d hd
        apply if_neg
        rintro ⟨-, hid, -⟩
        rcases (hw.userId_iff d u).mp hid with h | h
        · exact hd h
        · exact hclean d h

end Wired

/-- **Invalidation routing, exactly**: over every sequence of steps of the server, all
commits by successfully registered connections are routed right if and only if none of them
is by a user with whose certificate a `register` has failed before. -/
theorem routed_iff_clean (P : Platform) (invqBound : ℕ) (events : List Event) :
    (machine P).Along (Routed P) (start invqBound) events ↔
      (machine P).Along Clean (start invqBound) events := by
  refine @Machine.along_congr _ _ _ (machine P) _ _ Wired (fun _ event hw _ => hw.step event)
    ?_ _ (Wired.start invqBound) events
  exact fun _ event hw => hw.routed_iff event

/-- Two connections with the certificate of a user: one registers, the other has forgotten to
name the user in its credentials. -/
def forgetful (P : Platform) : List Event :=
  let admin := ((Admin.memory P).final (Admin.init P)
    [.addUser ['a'] (some ['1']) none P.kdfHashPassword.run [] []])
  [.connect, .register 0 none admin [49] none,
    .connect, .register 1 none admin [49] (some ⟨none, none⟩)]

/-- The second registration fails, and the connection hears of what the user commits. -/
theorem not_routed_failed :
    ¬ (machine plainPlatform).Along (Routed plainPlatform) (start 100)
      (forgetful plainPlatform ++ [.commit 0 1 [z64] none]) := by
  intro h
  have hcommit := ((Machine.along_append (m := machine plainPlatform)).mp h).2.1
  have hroute := hcommit (List.cons_ne_nil _ _) 2 (by decide +kernel)
  exact absurd (hroute.2 1 (by decide +kernel)) (by decide +kernel)

end StorageServer

end Zerodb
