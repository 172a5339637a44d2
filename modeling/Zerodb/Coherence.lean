import Zerodb.Handover
import Zerodb.Invalidation

/-!
# Coherence: the copies that clients keep

A client keeps what it has loaded or committed until it hears that it has changed. The server
tells of a commit only the other connections of the user who committed
(`StorageServer.invalidate`): nobody else can have loaded the object, since records can only be
read by the users who wrote them (`OwnerStorage`). The exceptions are the shared root, which
everybody reads, and the root folders, which the administrator writes before their users do.

Connections register, load and commit here, and messages arrive, in any order.

* `coherent` — what a client keeps, once all messages to it have arrived, is current, if it is
  not one of the exceptions;
* `current_iff` — all of it is current, exactly if no commit is on an object that a client of
  another user keeps.
-/

namespace Zerodb

/-! ## Ids

Owners of records are told apart by the eight bytes of `p64`, and users by numbers. `p64` is
injective on numbers of eight bytes, which all oids are, so that an owner is a user. -/

theorem u64_p64 (n : ℕ) (h : n < 2 ^ 64) : u64 (p64 n) = n := by
  simp only [u64, p64, List.range, List.range.loop, List.map_cons, List.map_nil, List.foldl_cons,
    List.foldl_nil, UInt8.toNat_ofNat']
  omega

/-- `p64` tells ids of eight bytes apart. -/
theorem eq_of_p64_eq {m n : ℕ} (hm : m < 2 ^ 64) (hn : n < 2 ^ 64) (h : p64 m = p64 n) : m = n := by
  rw [← u64_p64 m hm, h, u64_p64 n hn]

/-- The ids of the users in the tables are those of objects: eight bytes. -/
structure Admin.Sized (a : Admin) : Prop where
  /-- those of certificates -/
  uids : ∀ p ∈ a.uids.toList, ∀ uid ∈ p.2, uid < 2 ^ 64
  /-- those of user objects -/
  objs : ∀ p ∈ a.objs.toList, p.2.id < 2 ^ 64

/-- So are those of clients that get through. -/
theorem Authentic.lt {P : Platform} {a : Admin} {der : Bytes} {credentials : Option Credentials}
    {uid : ℕ} (h : Authentic P a der credentials uid) (ha : a.Sized) : uid < 2 ^ 64 := by
  rcases h.cert with hcert | ⟨-, hcred⟩
  · exact ha.uids _ (Std.ExtTreeMap.mem_toList_iff_getElem?_eq_some.mpr hcert) uid rfl
  · obtain ⟨c, hc⟩ := Option.ne_none_iff_exists'.mp hcred
    obtain ⟨name, password, r, user, -, -, -, huser, -, rfl⟩ := h.credentials c hc
    exact ha.objs _ (Std.ExtTreeMap.mem_toList_iff_getElem?_eq_some.mpr huser)

/-! ## Registered connections

A connection that is registered works on the `OwnerStorage` of its user, and keeps doing so. That
is what ties the two halves of the server together: what a client may load is decided by owners of
records, and what it is told by the ids of registered connections. -/

namespace StorageServer

variable {P : Platform} {s : StorageServer}

/-- The storage that the methods of a connection work on. -/
def storageOf (s : StorageServer) (c : ℕ) : Option Handle := s.clients[c]?.bind fun cl => cl.zs.handle

/-- For a registered connection, it is the `OwnerStorage` of the user. -/
def Owned (s : StorageServer) : Prop :=
  ∀ (c : ℕ) (cl : Client), s.clients[c]? = some cl → ∀ user, cl.registeredAs = some user →
    cl.zs.handle = some (.owner (p64 user))

theorem Owned.storageOf_eq (h : Owned s) {c user : ℕ} (hc : s.registeredAs c = some user) :
    s.storageOf c = some (.owner (p64 user)) := by
  obtain ⟨cl, hcl, hreg⟩ := Option.bind_eq_some_iff.mp hc
  rw [storageOf, hcl, Option.bind_some]
  exact h c cl hcl user hreg

/-- A new connection is not registered. -/
theorem getElem?_connect {d : ℕ} {cl : Client}
    (h : (machine P s .connect).2.clients[d]? = some cl) :
    s.clients[d]? = some cl ∨ s.clients[d]? = none ∧ cl.registeredAs = none := by
  change (s.clients ++ [(⟨ZEOStorage.connect (), none, none⟩ : Client)])[d]? = some cl at h
  rcases lt_or_ge d s.clients.length with hlt | hge
  · rw [List.getElem?_append_left hlt] at h
    exact .inl h
  · rw [List.getElem?_append_right hge] at h
    obtain rfl := List.mem_singleton.mp (List.mem_of_getElem? h)
    exact .inr ⟨List.getElem?_eq_none hge, rfl⟩

theorem registeredAs_connect (d : ℕ) :
    (machine P s .connect).2.registeredAs d = s.registeredAs d := by
  rw [registeredAs, registeredAs]
  rcases hcl : (machine P s .connect).2.clients[d]? with _ | cl
  · have hlen : (s.clients ++ [(⟨ZEOStorage.connect (), none, none⟩ : Client)]).length ≤ d :=
      List.getElem?_eq_none_iff.mp hcl
    rw [List.length_append] at hlen
    rw [List.getElem?_eq_none (by omega)]
  · rcases getElem?_connect hcl with hold | ⟨hnone, hnew⟩
    · rw [hold]
    · rw [hnone]
      exact hnew

/-- A registered connection stays so, and another one gets through if it is authentic. -/
theorem Wired.getElem?_register (hw : Wired s) {c : ℕ} {refused : Option Exc} {admin : Admin}
    {der : Bytes} {credentials : Option Credentials} (d : ℕ) :
    (s.register P c refused admin der credentials).2.clients[d]? = s.clients[d]? ∨
      s.registeredAs d = none ∧ ∃ cl,
        (s.register P c refused admin der credentials).2.clients[d]? = some cl ∧
          ∀ uid, cl.registeredAs = some uid → Authentic P admin der credentials uid ∧
            cl.zs.handle = some (.owner (p64 uid)) := by
  rw [StorageServer.register]
  rcases hcl : s.clients[c]? with _ | cl
  · exact .inl rfl
  rcases hs : cl.zs.storage with _ | h
  · cases refused with
    | some e => exact .inl (by simp only [hs])
    | none =>
      have hlt : c < s.clients.length := (List.getElem?_eq_some_iff.mp hcl).1
      have hfresh : s.registeredAs c = none := by
        rw [registeredAs, hcl]
        exact ((hw.known c cl hcl).fresh hs).1
      simp only [hs]
      by_cases hd : d = c
      · subst hd
        refine .inr ⟨hfresh, ?_⟩
        rcases ZEOStorage.register_cases P admin der credentials hs with
          ⟨uid, hauth, hrun⟩ | ⟨-, e, conn', hrun, -⟩
        · simp only [hrun, List.getElem?_set_self hlt]
          refine ⟨_, rfl, fun uid' huid => ?_⟩
          obtain rfl := Option.some.inj huid
          exact ⟨hauth, rfl⟩
        · simp only [hrun, List.getElem?_set_self hlt]
          exact ⟨_, rfl, fun uid huid => by cases huid⟩
      · left
        rcases ZEOStorage.register_cases P admin der credentials hs with
          ⟨uid, -, hrun⟩ | ⟨-, e, conn', hrun, -⟩ <;>
          simp only [hrun, List.getElem?_set_ne (Ne.symm hd)]
  · exact .inl (by simp only [hs])

/-- Every step keeps that. -/
theorem Owned.step (h : Owned s) (hw : Wired s) (event : Event) : Owned (machine P s event).2 := by
  intro d cl hcl user huser
  cases event with
  | connect =>
    rcases getElem?_connect hcl with hold | ⟨-, hnew⟩
    · exact h d cl hold user huser
    · rw [hnew] at huser
      cases huser
  | register c refused admin der credentials =>
    change (s.register P c refused admin der credentials).2.clients[d]? = some cl at hcl
    rcases @Wired.getElem?_register P s hw c refused admin der credentials d with
      hsame | ⟨-, cl', hcl', hall⟩
    · exact h d cl (hsame ▸ hcl) user huser
    · obtain rfl := Option.some.inj (hcl'.symm.trans hcl)
      exact (hall user huser).2
  | commit c tid invalidated info => exact h d cl hcl user huser

/-- The invalidations of a commit. -/
theorem mem_commit {c d tid t : ℕ} {invalidated oids : List Oid} {info : Option Bytes} :
    (d, .invalidateTransaction t oids) ∈ (machine P s (.commit c tid invalidated info)).1 ↔
      (d ∈ s.zeoStorages ∧ s.userId d = s.userId c) ∧ (invalidated ≠ [] ∧ d ≠ c) ∧
        t = tid ∧ oids = invalidated := by
  have hmessage : s.message c tid invalidated info d = some (.invalidateTransaction t oids) ↔
      s.userId d = s.userId c ∧ (invalidated ≠ [] ∧ d ≠ c) ∧ t = tid ∧ oids = invalidated := by
    rw [message]
    by_cases huser : s.userId d = s.userId c
    · by_cases hsend : invalidated ≠ [] ∧ d ≠ c
      · rw [if_pos huser, if_pos hsend]
        simp [huser, hsend, eq_comm]
      · rw [if_pos huser, if_neg hsend]
        cases info <;> simp [hsend]
    · simp [huser]
  refine (List.mem_filterMap.trans ⟨?_, ?_⟩)
  · rintro ⟨x, hx, hxm⟩
    obtain ⟨m, hm, heq⟩ := Option.map_eq_some_iff.mp hxm
    obtain ⟨rfl, rfl⟩ := Prod.mk.inj heq
    obtain ⟨huser, hrest⟩ := hmessage.mp hm
    exact ⟨⟨hx, huser⟩, hrest⟩
  · rintro ⟨⟨hd, huser⟩, hrest⟩
    exact ⟨d, hd, Option.map_eq_some_iff.mpr ⟨_, hmessage.mpr ⟨huser, hrest⟩, rfl⟩⟩

/-- Registered connections are told of a commit exactly if they are others of the same user. -/
theorem Wired.mem_commit_iff (hw : Wired s) {c d user user' : ℕ} (hc : s.registeredAs c = some user)
    (hd : s.registeredAs d = some user') (tid : ℕ) (invalidated : List Oid) (info : Option Bytes)
    (oid : Oid) :
    (∃ t oids, (d, .invalidateTransaction t oids) ∈ (machine P s (.commit c tid invalidated info)).1 ∧
      oid ∈ oids) ↔ oid ∈ invalidated ∧ d ≠ c ∧ user' = user := by
  have hlisted := hw.mem_zeoStorages (.inl hd)
  have hiff : s.userId d = s.userId c ↔ user' = user := by
    rw [(hw.userId_iff d user').mpr (.inl hd), (hw.userId_iff c user).mpr (.inl hc),
      Option.some.injEq]
  refine ⟨?_, ?_⟩
  · rintro ⟨t, oids, hmem, hin⟩
    obtain ⟨⟨-, huser⟩, ⟨-, hdc⟩, -, rfl⟩ := mem_commit.mp hmem
    exact ⟨hin, hdc, hiff.mp huser⟩
  · rintro ⟨hin, hdc, huser⟩
    exact ⟨tid, invalidated, mem_commit.mpr ⟨⟨hlisted, hiff.mpr huser⟩,
      ⟨List.ne_nil_of_mem hin, hdc⟩, rfl, rfl⟩, hin⟩

end StorageServer

/-! ## Clients

Of what a client keeps only the serials matter: a copy is current or not. Messages name objects,
and a client forgets what is named (`Copies.receive`). They arrive in order, so that what a client
will keep in the end is what is left after all messages that are under way (`receive_noticesTo`).
-/

/-- What a message says about the objects a client keeps. -/
inductive Notice where
  /-- this is the serial of what was loaded or committed -/
  | copy : (oid : Oid) → (tid : ℕ) → Notice
  /-- these have changed -/
  | invalid : List Oid → Notice

/-- The serials of the revisions that a client keeps. -/
abbrev Copies : Type := Oid → Option ℕ

/-- A client hears of something. -/
def Copies.receive (m : Copies) : Notice → Copies
  | .copy oid tid => fun o => if o = oid then some tid else m o
  | .invalid oids => fun o => if o ∈ oids then none else m o

/-- What a message of the server says about objects. -/
def Message.notice : Message → Option Notice
  | .invalidateTransaction _ oids => some (.invalid oids)
  | .info _ => none

/-- What the messages say to one connection. -/
def noticesTo (d : ℕ) (messages : List (ℕ × Message)) : List Notice :=
  messages.filterMap fun m => if m.1 = d then m.2.notice else none

/-- **What such messages leave**: what the client kept and none of them names. -/
theorem receive_noticesTo {d : ℕ} {messages : List (ℕ × Message)} {m : Copies} {oid : Oid} {tid : ℕ} :
    (noticesTo d messages).foldl Copies.receive m oid = some tid ↔ m oid = some tid ∧
      ∀ t oids, (d, .invalidateTransaction t oids) ∈ messages → oid ∉ oids := by
  induction messages generalizing m with
  | nil => exact (and_iff_left fun _ _ hmem => absurd hmem List.not_mem_nil).symm
  | cons x messages ih =>
    obtain ⟨c, msg⟩ := x
    have hcons : ∀ t oids, (d, .invalidateTransaction t oids) ∈ (c, msg) :: messages ↔
        (d = c ∧ .invalidateTransaction t oids = msg) ∨ (d, .invalidateTransaction t oids) ∈ messages :=
      fun t oids => by rw [List.mem_cons, Prod.mk.injEq]
    simp only [hcons]
    by_cases hc : c = d
    · subst hc
      cases msg with
      | info bytes =>
        have hsame : noticesTo c ((c, .info bytes) :: messages) = noticesTo c messages := by
          simp [noticesTo, Message.notice]
        rw [hsame, ih]
        simp
      | invalidateTransaction t oids =>
        have hmore : noticesTo c ((c, .invalidateTransaction t oids) :: messages) =
            .invalid oids :: noticesTo c messages := by
          simp [noticesTo, Message.notice]
        have hreceive : m.receive (.invalid oids) oid = some tid ↔ m oid = some tid ∧ oid ∉ oids := by
          by_cases hin : oid ∈ oids <;> simp [Copies.receive, hin]
        rw [hmore, List.foldl_cons, ih, hreceive]
        refine ⟨?_, ?_⟩
        · rintro ⟨⟨hm, hnot⟩, hall⟩
          refine ⟨hm, ?_⟩
          rintro t' oids' (⟨-, heq⟩ | hmem)
          · cases heq
            exact hnot
          · exact hall t' oids' hmem
        · rintro ⟨hm, hall⟩
          exact ⟨⟨hm, hall t oids (.inl ⟨rfl, rfl⟩)⟩, fun t' oids' hmem => hall t' oids' (.inr hmem)⟩
    · have hsame : noticesTo d ((c, msg) :: messages) = noticesTo d messages := by
        simp [noticesTo, hc]
      rw [hsame, ih]
      simp [Ne.symm hc]

namespace Coherence

/-! ## The server and its clients

A commit is a step of its own here: the stores, and then the messages to the others. Between the
steps anything may happen, so that a client may load and commit while messages to it are under
way. A store that fails aborts the transaction, and nothing is sent.

A client whose `register` raised works on the raw storage: its commits are not told to anybody as
those of a user, and `Behaved` is the condition that there is no such client. -/

/-- A server with its storage, its connections and the clients behind them. -/
structure State (σ : Type) where
  /-- the storage, with the stores that took effect -/
  server : Server σ
  /-- the connections -/
  net : StorageServer
  /-- the notices under way to each client, oldest first -/
  inbox : ℕ → List Notice
  /-- what each client keeps -/
  copies : ℕ → Copies

/-- An object that a client stores. -/
structure Write where
  /-- its id -/
  oid : Oid
  /-- the serial of the revision it is based on -/
  serial : ℕ
  /-- its record -/
  data : Bytes

/-- What happens. -/
inductive Event where
  /-- a connection is opened -/
  | connect : Event
  /-- a connection calls `register` -/
  | register : (c : ℕ) → (refused : Option Exc) → (admin : Admin) → (der : Bytes) →
      (credentials : Option Credentials) → Event
  /-- a client loads the latest revision of an object -/
  | load : (c : ℕ) → (oid : Oid) → Event
  /-- a client stores objects and commits -/
  | commit : (c : ℕ) → List Write → (info : Option Bytes) → Event
  /-- the first message under way to a client arrives -/
  | receive : (c : ℕ) → Event

variable {σ : Type} (B : BaseStorage σ) (P : Platform)

/-- Messages are sent. -/
def State.send (s : State σ) (notices : ℕ → List Notice) : State σ :=
  { s with inbox := fun d => s.inbox d ++ notices d }

/-- A client loads an object. -/
def State.load (s : State σ) (c : ℕ) (oid : Oid) : State σ :=
  match s.net.storageOf c with
  | none => s
  | some h =>
    match ZEOStorage.Handle.loadBefore B h s.server.base oid maxtid with
    | .ok (some (_, tid, _)) => s.send fun d => if d = c then [.copy oid tid] else []
    | _ => s

/-- A store that took effect, in the history of the users: stores on the raw storage are by none. -/
def logStore (h : Handle) (tid : ℕ) (w : Write) (log : List Stored) : List Stored :=
  match h with
  | .raw => log
  | .owner user => log ++ [⟨tid, w.oid, user, w.data⟩]

/-- The stores of a transaction, one after another, and the serials they are given. -/
def storeAll (h : Handle) : List Write → Server σ → Except Exc (List (Oid × ℕ) × Server σ)
  | [], sv => .ok ([], sv)
  | w :: ws, sv => do
    let (tid, base) ← ZEOStorage.Handle.store B h sv.base w.oid w.serial w.data
    let (serials, sv) ← storeAll h ws ⟨base, logStore h tid w sv.log⟩
    return ((w.oid, tid) :: serials, sv)

/-- A client stores objects and commits. If a store raises, the transaction is aborted. -/
def State.commit (s : State σ) (c : ℕ) (writes : List Write) (info : Option Bytes) : State σ :=
  match s.net.storageOf c with
  | none => s
  | some h =>
    match storeAll B h writes s.server with
    | .error _ => s
    | .ok (serials, server) =>
      let tid := (serials.getLast?.map Prod.snd).getD 0
      let (messages, net) :=
        StorageServer.machine P s.net (.commit c tid (writes.map Write.oid) info)
      let t : State σ := { s with server := server, net := net }
      t.send fun d =>
        noticesTo d messages ++ if d = c then serials.map (fun p => .copy p.1 p.2) else []

/-- The first message under way to a client arrives. -/
def State.receive (s : State σ) (c : ℕ) : State σ :=
  match s.inbox c with
  | [] => s
  | notice :: rest => { s with
      inbox := Function.update s.inbox c rest
      copies := Function.update s.copies c ((s.copies c).receive notice) }

/-- The server and its clients as a machine. -/
def machine : Machine (State σ) Event Unit
  | s, .connect => ((), { s with net := (StorageServer.machine P s.net .connect).2 })
  | s, .register c refused admin der credentials =>
    ((), { s with net := (s.net.register P c refused admin der credentials).2 })
  | s, .load c oid => ((), s.load B c oid)
  | s, .commit c writes info => ((), s.commit B P c writes info)
  | s, .receive c => ((), s.receive c)

/-- An empty server without connections. -/
def init (invqBound : ℕ) : State σ :=
  ⟨Server.init B, StorageServer.start invqBound, fun _ => [], fun _ _ => none⟩

/-- The administrator's tables have the ids of objects in them. -/
def Event.Sized : Event → Prop
  | .register _ _ admin _ _ => admin.Sized
  | _ => True

/-- Clients whose `register` has raised load and commit nothing: they would do so on the raw
storage. Those who have not called it are refused. -/
def Behaved (s : State σ) : Event → Prop
  | .load c _ => s.net.storageOf c ≠ none → s.net.registeredAs c ≠ none
  | .commit c _ _ => s.net.storageOf c ≠ none → s.net.registeredAs c ≠ none
  | _ => True

instance (s : State σ) : ∀ e, Decidable (Behaved s e)
  | .load c _ => inferInstanceAs (Decidable (s.net.storageOf c ≠ none → s.net.registeredAs c ≠ none))
  | .commit c _ _ =>
    inferInstanceAs (Decidable (s.net.storageOf c ≠ none → s.net.registeredAs c ≠ none))
  | .connect | .register .. | .receive _ => inferInstanceAs (Decidable True)

/-- What a client keeps when all that is under way to it has arrived. -/
def State.settled (s : State σ) (d : ℕ) : Copies := (s.inbox d).foldl Copies.receive (s.copies d)

/-- The revision is the latest one of the object. -/
def State.Current (s : State σ) (oid : Oid) (tid : ℕ) : Prop :=
  ∃ w, s.server.lastWriter oid = some w ∧ w.tid = tid

/-- **The exceptions**: the shared root, the user's own root folder, and one that its user has
taken over. -/
def State.Excepted (s : State σ) (user : ℕ) (oid : Oid) : Prop :=
  oid = z64 ∨ oid = p64 user ∨ ∃ w, s.server.lastWriter oid = some w ∧ w.user = oid

/-! ## What the steps keep

`Coherent` speaks of what a client keeps when all that is under way has arrived (`settled`). Such
a copy is of an object that the user of the client wrote last, and is current then, or the object
is one of the exceptions.

A load keeps this since only such objects load. A commit keeps it since it is told to the other
connections of its user, and those of other users have no copies of what it writes: records are
written over by their owners only. The exceptions are where the last step fails. -/

/-- **Coherence**: what a client keeps, once all that is under way to it has arrived, is of an
object that its user wrote last, and current, or of one of the exceptions. -/
structure Coherent (s : State σ) : Prop where
  /-- records are tagged -/
  tagged : Server.Tagged B s.server
  /-- the connections are in the list -/
  wired : s.net.Wired
  /-- the registered ones with their `OwnerStorage` -/
  owned : s.net.Owned
  /-- under users with ids of objects -/
  sized : ∀ d user, s.net.registeredAs d = some user → user < 2 ^ 64
  /-- who keeps something has registered, and it is current or excepted -/
  kept : ∀ d oid tid, s.settled d oid = some tid → ∃ user w, s.net.registeredAs d = some user ∧
    s.server.lastWriter oid = some w ∧
      (w.tid = tid ∧ w.user = p64 user ∨ oid = z64 ∨ oid = p64 user ∨ w.user = oid)

variable {B P} {s : State σ}

theorem settled_send (notices : ℕ → List Notice) (d : ℕ) :
    (s.send notices).settled d = (notices d).foldl Copies.receive (s.settled d) :=
  List.foldl_append

/-- What arrives was under way. -/
theorem settled_receive (c d : ℕ) : (s.receive c).settled d = s.settled d := by
  rw [State.receive]
  rcases hbox : s.inbox c with _ | ⟨notice, rest⟩
  · rfl
  · by_cases hd : d = c
    · subst hd
      simp only [State.settled, Function.update_self, hbox, List.foldl_cons]
    · simp only [State.settled, Function.update_of_ne hd]

theorem receive_same (c : ℕ) : (s.receive c).server = s.server ∧ (s.receive c).net = s.net := by
  rw [State.receive]
  split <;> exact ⟨rfl, rfl⟩

theorem lastWriter_append (sv : Server σ) (base : σ) (w : Stored) (oid : Oid) :
    (Server.mk base (sv.log ++ [w])).lastWriter oid =
      if w.oid = oid then some w else sv.lastWriter oid := by
  rw [Server.lastWriter, Server.writes_append]
  by_cases ho : w.oid = oid
  · rw [if_pos ho, if_pos ho, List.getLast?_concat]
  · rw [if_neg ho, if_neg ho, Server.lastWriter]

/-- A user who loads an object gets the latest revision, and may. -/
theorem lastWriter_of_load {sv : Server σ} (h : Server.Tagged B sv) {user oid : Oid} {data : Bytes}
    {tid : ℕ} {after : Option ℕ}
    (hload : OwnerStorage.loadBefore B user sv.base oid maxtid = .ok (some (data, tid, after))) :
    ∃ w, sv.lastWriter oid = some w ∧ w.tid = tid ∧ (w.user = user ∨ oid = user ∨ oid = z64) := by
  have hall : (sv.writes oid).filter (·.tid < maxtid) = sv.writes oid :=
    List.filter_eq_self.mpr fun w hw => decide_eq_true (h.bounded w (List.mem_of_mem_filter hw))
  rw [h.loadBefore_eq, hall] at hload
  split at hload
  · cases hload
  · split at hload
    · cases hload
    · rename_i w hw
      split at hload
      · rename_i hp
        simp only [Except.ok.injEq, Option.some.injEq, Prod.mk.injEq] at hload
        exact ⟨w, hw, hload.2.1, hp⟩
      · cases hload

/-! ## The stores of a commit

Stores are made one after another on the `OwnerStorage` of the user, and each can be refused. When
all have succeeded, every object that was written has the user for its last writer, and the others
have their old one. -/

/-- **What the stores of a transaction do** to the histories of objects. -/
structure Stores (B : BaseStorage σ) (sv sv' : Server σ) (user : Oid) (oids : List Oid) : Prop where
  /-- records are tagged -/
  tagged : Server.Tagged B sv'
  /-- other objects are left alone -/
  other : ∀ oid ∉ oids, sv'.lastWriter oid = sv.lastWriter oid
  /-- an object has a new last revision by the user, who had written the one before, or whose
  root folder it is -/
  last : ∀ oid ∈ oids, ∃ x, sv'.lastWriter oid = some x ∧ x.user = user ∧
    ∀ w, sv.lastWriter oid = some w → w.tid < x.tid ∧ (oid ≠ z64 → Follows oid w.user user)

theorem Stores.one {sv : Server σ} (h : Server.Tagged B sv) {user oid : Oid} {serial tid : ℕ}
    {data : Bytes} {base : σ}
    (hst : OwnerStorage.store B user sv.base oid serial data = .ok (tid, base)) :
    Stores B sv ⟨base, sv.log ++ [⟨tid, oid, user, data⟩]⟩ user [oid] := by
  have htagged := h.step (.store user oid serial data)
  have hserver : (Server.machine B sv (.store user oid serial data)).2 =
      ⟨base, sv.log ++ [⟨tid, oid, user, data⟩]⟩ := by
    simp only [Server.machine, hst]
  rw [hserver] at htagged
  refine ⟨htagged, fun o ho => ?_, fun o ho => ?_⟩
  · rw [lastWriter_append, if_neg fun heq => ho (List.mem_singleton.mpr heq.symm)]
  · obtain rfl := List.mem_singleton.mp ho
    refine ⟨_, by rw [lastWriter_append, if_pos rfl], rfl, fun w hw => ⟨?_, fun hz => ?_⟩⟩
    · have hasc := htagged.ascending o
      rw [Server.writes_append, if_pos rfl, List.pairwise_append] at hasc
      exact hasc.2.2 w (List.mem_of_getLast? hw) _ (List.mem_singleton_self _)
    · exact h.follows_of_store hz hw hst

/-- One store, and the others. -/
theorem Stores.cons {sv sv₁ sv' : Server σ} {user oid : Oid} {oids : List Oid}
    (h₁ : Stores B sv sv₁ user [oid]) (h : Stores B sv₁ sv' user oids) :
    Stores B sv sv' user (oid :: oids) := by
  refine ⟨h.tagged, fun o ho => ?_, fun o ho => ?_⟩
  · rw [List.mem_cons, not_or] at ho
    obtain ⟨hne, ho⟩ := ho
    exact (h.other o ho).trans (h₁.other o fun hmem => hne (List.mem_singleton.mp hmem))
  · by_cases hin : o ∈ oids
    · obtain ⟨x, hx, huser, hlast⟩ := h.last o hin
      refine ⟨x, hx, huser, fun w hw => ?_⟩
      by_cases heq : o = oid
      · obtain ⟨y, hy, -, hfirst⟩ := h₁.last o (List.mem_singleton.mpr heq)
        obtain ⟨hlt, hfollows⟩ := hfirst w hw
        exact ⟨hlt.trans (hlast y hy).1, hfollows⟩
      · exact hlast w ((h₁.other o fun hmem => heq (List.mem_singleton.mp hmem)).trans hw)
    · obtain rfl := (List.mem_cons.mp ho).resolve_right hin
      obtain ⟨x, hx, hrest⟩ := h₁.last o (List.mem_singleton_self o)
      exact ⟨x, (h.other o hin).trans hx, hrest⟩

/-- **The stores of a transaction** by a user, and what they leave the client that learns the
serials. -/
theorem storeAll_spec {user : Oid} {writes : List Write} {sv sv' : Server σ}
    {serials : List (Oid × ℕ)} (h : Server.Tagged B sv)
    (hst : storeAll B (.owner user) writes sv = .ok (serials, sv')) :
    Stores B sv sv' user (writes.map Write.oid) ∧ ∀ m oid,
      (serials.map fun p => Notice.copy p.1 p.2).foldl Copies.receive m oid =
        if oid ∈ writes.map Write.oid then (sv'.lastWriter oid).map Stored.tid else m oid := by
  induction writes generalizing sv serials with
  | nil =>
    obtain ⟨rfl, rfl⟩ := Prod.mk.inj (Except.ok.inj hst)
    refine ⟨⟨h, fun oid _ => rfl, fun oid hin => absurd hin List.not_mem_nil⟩, fun m oid => ?_⟩
    rw [List.map_nil, List.map_nil, if_neg List.not_mem_nil, List.foldl_nil]
  | cons w ws ih =>
    rcases hone : OwnerStorage.store B user sv.base w.oid w.serial w.data with e | ⟨tid, base⟩ <;>
      simp only [storeAll, ZEOStorage.Handle.store, logStore, hone, bind, Except.bind] at hst
    · cases hst
    have h₁ := Stores.one h hone
    rcases hall : storeAll B (.owner user) ws ⟨base, sv.log ++ [⟨tid, w.oid, user, w.data⟩]⟩ with
      e | ⟨serials', sv''⟩ <;> rw [hall] at hst
    · cases hst
    obtain ⟨rfl, rfl⟩ := Prod.mk.inj (Except.ok.inj hst)
    obtain ⟨hstores, hserials⟩ := ih h₁.tagged hall
    refine ⟨h₁.cons hstores, fun m oid => ?_⟩
    rw [List.map_cons, List.foldl_cons, hserials, List.map_cons]
    by_cases hin : oid ∈ ws.map Write.oid
    · rw [if_pos hin, if_pos (List.mem_cons_of_mem _ hin)]
    · rw [if_neg hin]
      by_cases heq : oid = w.oid
      · subst heq
        rw [if_pos List.mem_cons_self, hstores.other _ hin, lastWriter_append, if_pos rfl]
        exact if_pos rfl
      · rw [if_neg (List.not_mem_cons_of_ne_of_not_mem heq hin)]
        exact if_neg heq

/-! ## One step

Registering and sending change what clients will be told and not what they keep. A load adds a
copy that is current. A commit is the one step that makes copies stale, and `Committed` is what is
needed of it: who wrote what, and which clients are told. -/

/-- Where only the connections change, and the registered ones stay so. -/
theorem Coherent.withNet (h : Coherent B s) {net : StorageServer} (hw : net.Wired) (ho : net.Owned)
    (hsized : ∀ d user, net.registeredAs d = some user → user < 2 ^ 64)
    (hreg : ∀ d user, s.net.registeredAs d = some user → net.registeredAs d = some user) :
    Coherent B { s with net := net } := by
  refine ⟨h.tagged, hw, ho, hsized, fun d oid tid hkept => ?_⟩
  obtain ⟨user, w, hd, hrest⟩ := h.kept d oid tid hkept
  exact ⟨user, w, hreg d user hd, hrest⟩

theorem Coherent.register (h : Coherent B s) (c : ℕ) (refused : Option Exc) {admin : Admin}
    (ha : admin.Sized) (der : Bytes) (credentials : Option Credentials) :
    Coherent B { s with net := (s.net.register P c refused admin der credentials).2 } := by
  have hclients := fun d =>
    @StorageServer.Wired.getElem?_register P _ h.wired c refused admin der credentials d
  refine h.withNet (h.wired.register c refused admin der credentials)
    (h.owned.step (P := P) h.wired (.register c refused admin der credentials))
    (fun d user hd => ?_) fun d user hd => ?_
  · rcases hclients d with hsame | ⟨-, cl, hcl, hall⟩
    · rw [StorageServer.registeredAs, hsame] at hd
      exact h.sized d user hd
    · rw [StorageServer.registeredAs, hcl] at hd
      exact (hall user hd).1.lt ha
  · rcases hclients d with hsame | ⟨hnone, -⟩
    · rwa [StorageServer.registeredAs, hsame]
    · rw [hnone] at hd
      cases hd

/-- The storage of a client that loads or commits is that of the user it is registered as. -/
theorem Coherent.storage_cases (h : Coherent B s) {c : ℕ}
    (hb : s.net.storageOf c ≠ none → s.net.registeredAs c ≠ none) :
    (s.net.registeredAs c = none ∧ s.net.storageOf c = none) ∨
      ∃ user, s.net.registeredAs c = some user ∧ s.net.storageOf c = some (.owner (p64 user)) := by
  rcases hc : s.net.registeredAs c with _ | user
  · exact .inl ⟨rfl, by_contra fun hne => hb hne hc⟩
  · exact .inr ⟨user, rfl, h.owned.storageOf_eq hc⟩

theorem load_same (c : ℕ) (oid : Oid) :
    (s.load B c oid).server = s.server ∧ (s.load B c oid).net = s.net := by
  rw [State.load]
  split
  · exact ⟨rfl, rfl⟩
  · split <;> exact ⟨rfl, rfl⟩

/-- What a load brings is current, and of a user who may read it. -/
theorem settled_load (h : Coherent B s) {c : ℕ} {oid : Oid} (hb : Behaved s (.load c oid)) {d : ℕ}
    {o : Oid} {t : ℕ} (hkept : (s.load B c oid).settled d o = some t) : s.settled d o = some t ∨
      ∃ user w, s.net.registeredAs d = some user ∧ s.server.lastWriter o = some w ∧ w.tid = t ∧
        (w.user = p64 user ∨ o = p64 user ∨ o = z64) := by
  rw [State.load] at hkept
  rcases h.storage_cases hb with ⟨-, hstorage⟩ | ⟨user, hc, hstorage⟩ <;> rw [hstorage] at hkept
  · exact .inl hkept
  rcases hload : OwnerStorage.loadBefore B (p64 user) s.server.base oid maxtid with
    e | _ | ⟨data, tid, after⟩ <;>
    simp only [ZEOStorage.Handle.loadBefore, hload] at hkept
  · exact .inl hkept
  · exact .inl hkept
  obtain ⟨w, hw, htid, hp⟩ := lastWriter_of_load h.tagged hload
  rw [settled_send] at hkept
  by_cases hd : d = c
  · subst hd
    rw [if_pos rfl] at hkept
    by_cases ho : o = oid
    · subst ho
      have hcopy : ([Notice.copy o tid].foldl Copies.receive (s.settled d)) o = some tid := if_pos rfl
      rw [hcopy, Option.some.injEq] at hkept
      exact .inr ⟨user, w, hc, hw, htid.trans hkept, hp⟩
    · have hcopy : ([Notice.copy oid tid].foldl Copies.receive (s.settled d)) o = s.settled d o :=
        if_neg ho
      exact .inl (hcopy ▸ hkept)
  · rw [if_neg hd] at hkept
    exact .inl hkept

theorem Coherent.load (h : Coherent B s) {c : ℕ} {oid : Oid} (hb : Behaved s (.load c oid)) :
    Coherent B (s.load B c oid) := by
  obtain ⟨hserver, hnet⟩ := load_same (B := B) (s := s) c oid
  refine ⟨hserver ▸ h.tagged, hnet ▸ h.wired, hnet ▸ h.owned, hnet ▸ h.sized, fun d o t hkept => ?_⟩
  rw [hserver, hnet]
  rcases settled_load h hb hkept with hkept | ⟨user, w, hd, hw, htid, hp⟩
  · exact h.kept d o t hkept
  · refine ⟨user, w, hd, hw, ?_⟩
    rcases hp with huser | hroot | hz
    · exact .inl ⟨htid, huser⟩
    · exact .inr (.inr (.inl hroot))
    · exact .inr (.inl hz)

/-- What the messages of a commit leave a client. -/
theorem Coherent.receive_commit (h : Coherent B s) {c user : ℕ} (hc : s.net.registeredAs c = some user)
    (tid : ℕ) (oids : List Oid) (info : Option Bytes) (d : ℕ) (o : Oid) (t : ℕ) :
    (noticesTo d (StorageServer.machine P s.net (.commit c tid oids info)).1).foldl Copies.receive
        (s.settled d) o = some t ↔
      s.settled d o = some t ∧ (o ∈ oids → d ≠ c → s.net.registeredAs d ≠ some user) := by
  rw [receive_noticesTo]
  refine and_congr_right fun hkept => ?_
  obtain ⟨user', w, hd, -⟩ := h.kept d o t hkept
  have htold := h.wired.mem_commit_iff (P := P) hc hd tid oids info o
  rw [hd]
  refine ⟨fun hall hin hdc huser => ?_, fun hnot t' oids' hmem hin => ?_⟩
  · obtain ⟨t', oids', hmem, hin⟩ := htold.mpr ⟨hin, hdc, Option.some.inj huser⟩
    exact hall t' oids' hmem hin
  · obtain ⟨hin, hdc, huser⟩ := htold.mp ⟨t', oids', hmem, hin⟩
    exact hnot hin hdc (congrArg some huser)

/-- **What a commit does** that takes effect. -/
structure Committed (B : BaseStorage σ) (s t : State σ) (c user : ℕ) (oids : List Oid) : Prop where
  /-- it is by the user of the connection -/
  registered : s.net.registeredAs c = some user
  /-- under whose id the objects are stored -/
  stores : Stores B s.server t.server (p64 user) oids
  /-- the connections stay -/
  wired : t.net.Wired
  /-- with their storages -/
  owned : t.net.Owned
  /-- as they are registered -/
  same : ∀ d, t.net.registeredAs d = s.net.registeredAs d
  /-- the client keeps the new revisions, and the other clients of the user lose older ones -/
  settled : ∀ d oid tid, t.settled d oid = some tid ↔
    if oid ∈ oids then d = c ∧ t.Current oid tid ∨ d ≠ c ∧ s.settled d oid = some tid ∧
      s.net.registeredAs d ≠ some user
    else s.settled d oid = some tid

/-- A commit takes effect, or it changes nothing. -/
theorem Coherent.commit_cases (h : Coherent B s) {c : ℕ} {writes : List Write}
    {info : Option Bytes} (hb : Behaved s (.commit c writes info)) :
    (∃ user r, storeAll B (.owner (p64 user)) writes s.server = .ok r ∧
      Committed B s (s.commit B P c writes info) c user (writes.map Write.oid)) ∨
    s.commit B P c writes info = s ∧ ∀ user r, s.net.registeredAs c = some user →
      storeAll B (.owner (p64 user)) writes s.server ≠ .ok r := by
  rw [State.commit]
  rcases h.storage_cases hb with ⟨hc, hstorage⟩ | ⟨user, hc, hstorage⟩ <;> simp only [hstorage]
  · refine .inr ⟨trivial, fun user r huser => ?_⟩
    rw [hc] at huser
    cases huser
  rcases hst : storeAll B (.owner (p64 user)) writes s.server with e | ⟨serials, server⟩
  · refine .inr ⟨rfl, fun user' r huser hok => ?_⟩
    obtain rfl := Option.some.inj (hc.symm.trans huser)
    rw [hst] at hok
    cases hok
  obtain ⟨hstores, hserials⟩ := storeAll_spec h.tagged hst
  refine .inl ⟨user, _, hst, ?_⟩
  refine
    { registered := hc
      stores := hstores
      wired := h.wired.step (P := P) (.commit c _ (writes.map Write.oid) info)
      owned := h.owned.step (P := P) h.wired (.commit c _ (writes.map Write.oid) info)
      same := fun d => rfl
      settled := fun d o t => ?_ }
  have hreceive := h.receive_commit (P := P) hc ((serials.getLast?.map Prod.snd).getD 0)
    (writes.map Write.oid) info d o t
  rw [settled_send, List.foldl_append]
  by_cases hd : d = c
  · rw [if_pos hd, hserials]
    by_cases ho : o ∈ writes.map Write.oid
    · rw [if_pos ho, if_pos ho, Option.map_eq_some_iff]
      exact ⟨fun hcur => .inl ⟨hd, hcur⟩, fun hor => hor.elim (fun h => h.2) fun h => absurd hd h.1⟩
    · rw [if_neg ho, if_neg ho]
      exact hreceive.trans (and_iff_left fun hin => absurd hin ho)
  · rw [if_neg hd]
    refine hreceive.trans ?_
    by_cases ho : o ∈ writes.map Write.oid
    · rw [if_pos ho]
      simp only [hd, ho, false_and, false_or, ne_eq, not_false_eq_true, true_and, forall_const]
    · rw [if_neg ho]
      exact and_iff_left fun hin => absurd hin ho

/-- A commit keeps coherence: what other users keep of the objects is not excepted only if they
had written it last, and then they could not be others. -/
theorem Coherent.commit (h : Coherent B s) {c : ℕ} {writes : List Write} {info : Option Bytes}
    (hb : Behaved s (.commit c writes info)) : Coherent B (s.commit B P c writes info) := by
  rcases h.commit_cases (P := P) hb with ⟨user, r, -, hcommit⟩ | ⟨hsame, -⟩
  swap
  · rw [hsame]
    exact h
  refine ⟨hcommit.stores.tagged, hcommit.wired, hcommit.owned,
    fun d user' hd => h.sized d user' (hcommit.same d ▸ hd), fun d o t hkept => ?_⟩
  rw [hcommit.settled] at hkept
  rw [hcommit.same]
  by_cases ho : o ∈ writes.map Write.oid
  swap
  · rw [if_neg ho] at hkept
    rw [hcommit.stores.other o ho]
    exact h.kept d o t hkept
  obtain ⟨x, hx, hwriter, hlast⟩ := hcommit.stores.last o ho
  rw [if_pos ho] at hkept
  rcases hkept with ⟨rfl, w, hw, htid⟩ | ⟨-, hold, hother⟩
  · obtain rfl := Option.some.inj (hx.symm.trans hw)
    exact ⟨user, x, hcommit.registered, hx, .inl ⟨htid, hwriter⟩⟩
  obtain ⟨user', w, hd, hw, hcases⟩ := h.kept d o t hold
  refine ⟨user', x, hd, hx, .inr ?_⟩
  by_cases hz : o = z64
  · exact .inl hz
  rcases (hlast w hw).2 hz with hsame | hheir
  · rcases hcases with ⟨-, hmine⟩ | hz' | hroot | htaken
    · have huser := eq_of_p64_eq (h.sized c user hcommit.registered) (h.sized d user' hd)
        (hsame.trans hmine)
      exact absurd (huser ▸ hd) hother
    · exact .inl hz'
    · exact .inr (.inl hroot)
    · exact .inr (.inr (hwriter.trans (hsame.trans htaken)))
  · exact .inr (.inr (hwriter.trans hheir))

/-- Every step keeps coherence. -/
theorem Coherent.step (h : Coherent B s) (e : Event) (he : e.Sized) (hb : Behaved s e) :
    Coherent B (machine B P s e).2 := by
  cases e with
  | connect =>
    have hreg := fun d => @StorageServer.registeredAs_connect P s.net d
    exact h.withNet h.wired.connect (h.owned.step (P := P) h.wired .connect)
      (fun d user hd => h.sized d user ((hreg d).symm.trans hd))
      fun d user hd => (hreg d).trans hd
  | register c refused admin der credentials => exact h.register c refused he der credentials
  | load c oid => exact h.load hb
  | commit c writes info => exact h.commit (P := P) hb
  | receive c =>
    have hsame := receive_same (s := s) c
    refine ⟨hsame.1 ▸ h.tagged, hsame.2 ▸ h.wired, hsame.2 ▸ h.owned, hsame.2 ▸ h.sized,
      fun d oid tid hkept => ?_⟩
    change (s.receive c).settled d oid = some tid at hkept
    rw [settled_receive] at hkept
    change ∃ user w, (s.receive c).net.registeredAs d = some user ∧
      (s.receive c).server.lastWriter oid = some w ∧ _
    rw [hsame.1, hsame.2]
    exact h.kept d oid tid hkept

/-! ## Whole histories

The invariant holds of an empty server, and so in all states of a history of clients that behave.
-/

theorem coherent_init (invqBound : ℕ) : Coherent B (init B invqBound) where
  tagged := Server.tagged_init
  wired := StorageServer.Wired.start invqBound
  owned d cl hcl := by simp [init, StorageServer.start] at hcl
  sized d user hd := by simp [init, StorageServer.start, StorageServer.registeredAs] at hd
  kept d oid tid hkept := by cases hkept

/-- **What clients keep**: in every state of every history of connections that register, load,
commit and receive, what a client keeps when all messages to it have arrived is current, except
the shared root, the root folder of its user, and root folders that their users have taken over. -/
theorem coherent (B : BaseStorage σ) (P : Platform) (invqBound : ℕ) (events : List Event)
    (h : (machine B P).Along (fun s e => e.Sized ∧ Behaved s e) (init B invqBound) events) :
    ∀ s ∈ (machine B P).states (init B invqBound) events, ∀ d oid tid,
      s.settled d oid = some tid → ∃ user, s.net.registeredAs d = some user ∧
        (s.Current oid tid ∨ s.Excepted user oid) := by
  intro s hs d oid tid hkept
  have hall : ∀ s ∈ (machine B P).states (init B invqBound) events, Coherent B s :=
    h.states_inv (fun _ e hc he => hc.step e he.1 he.2) (coherent_init invqBound)
  obtain ⟨user, w, hd, hw, hcases⟩ := (hall s hs).kept d oid tid hkept
  refine ⟨user, hd, ?_⟩
  rcases hcases with ⟨htid, -⟩ | hz | hroot | htaken
  · exact .inl ⟨w, hw, htid⟩
  · exact .inr (.inl hz)
  · exact .inr (.inr (.inl hroot))
  · exact .inr (.inr (.inr ⟨w, hw, htaken⟩))

/-- The tables with two users, who have a certificate each. -/
def twoUsers : Admin :=
  (Admin.memory plainPlatform).final (Admin.init plainPlatform)
    [.addUser ['a'] (some ['1']) none plainPlatform.kdfHashPassword.run [] [],
      .addUser ['b'] (some ['2']) none plainPlatform.kdfHashPassword.run [] []]

theorem sized_twoUsers : twoUsers.Sized := ⟨by decide +kernel, by decide +kernel⟩

/-- Two connections of the first user and one of the second. One commits an object and the root
folder of the second user, and then the object again; the other one loads the object both times.
The second user takes the root folder over. -/
def threeClients : List Event :=
  [.connect, .connect, .connect, .register 0 none twoUsers [49] none,
    .register 1 none twoUsers [49] none, .register 2 none twoUsers [50] none,
    .commit 0 [⟨p64 9, 0, [1]⟩, ⟨p64 3, 0, [2]⟩] none, .load 1 (p64 9), .receive 1,
    .commit 0 [⟨p64 9, 1, [3]⟩] none, .load 1 (p64 9), .load 2 (p64 3),
    .commit 2 [⟨p64 3, 2, [4]⟩] none]

theorem behaved_threeClients :
    (machine MemoryStorage.base plainPlatform).Along (fun s e => e.Sized ∧ Behaved s e)
      (init MemoryStorage.base 100) threeClients := by
  have hsized : ∀ e ∈ threeClients, e.Sized := by
    simp [threeClients, Event.Sized, sized_twoUsers]
  exact ((Machine.along_inputs _ _).mpr hsized).and (by decide +kernel)

/-- What the other connection of the first user keeps is current. -/
theorem coherent_example :
    let s := (machine MemoryStorage.base plainPlatform).final (init MemoryStorage.base 100) threeClients
    ∃ user, s.net.registeredAs 1 = some user ∧ (s.Current (p64 9) 3 ∨ s.Excepted user (p64 9)) :=
  coherent MemoryStorage.base plainPlatform 100 threeClients behaved_threeClients _
    (Machine.final_mem_states _ _ _) 1 (p64 9) 3 (by decide +kernel)

/-- The first user does not hear that the second one has taken over the root folder. -/
example :
    let s := (machine MemoryStorage.base plainPlatform).final (init MemoryStorage.base 100) threeClients
    s.settled 0 (p64 3) = some 2 ∧ (s.server.lastWriter (p64 3)).map Stored.tid = some 4 := by
  decide +kernel

/-! ## When all of it is current

A commit makes the copies stale that other users keep of the same objects, and no others: it is
later than all of them. So all copies are current in every state exactly if no commit meets such a
copy, which is a condition on the state before the commit. -/

/-- All that clients keep is current. -/
def State.AllCurrent (s : State σ) : Prop :=
  ∀ d oid tid, s.settled d oid = some tid → s.Current oid tid

variable (B) in
/-- A commit that takes effect is on objects that no client of another user keeps. -/
def Sole (s : State σ) : Event → Prop
  | .commit c writes _ => ∀ user r, s.net.registeredAs c = some user →
    storeAll B (.owner (p64 user)) writes s.server = .ok r →
      ∀ w ∈ writes, ∀ d, s.settled d w.oid ≠ none → s.net.registeredAs d = some user
  | _ => True

/-- A commit that takes effect keeps all current, exactly if other users keep none of the objects:
their copies are older than the commit. -/
theorem Committed.allCurrent_iff {t : State σ} {c user : ℕ} {oids : List Oid}
    (h : Committed B s t c user oids) (hc : s.AllCurrent) : t.AllCurrent ↔
      ∀ o ∈ oids, ∀ d, s.settled d o ≠ none → s.net.registeredAs d = some user := by
  refine ⟨fun hall o ho d hd => ?_, fun hsole d o tid hkept => ?_⟩
  · obtain ⟨tid, htid⟩ := Option.ne_none_iff_exists'.mp hd
    by_contra hother
    have hdc : d ≠ c := fun hdc => hother (hdc ▸ h.registered)
    have hkept := (h.settled d o tid).mpr (by rw [if_pos ho]; exact .inr ⟨hdc, htid, hother⟩)
    obtain ⟨y, hy, rfl⟩ := hc d o tid htid
    obtain ⟨x, hx, -, hlast⟩ := h.stores.last o ho
    obtain ⟨x', hx', heq⟩ := hall d o y.tid hkept
    obtain rfl := Option.some.inj (hx.symm.trans hx')
    exact absurd heq (hlast y hy).1.ne'
  · rw [h.settled] at hkept
    by_cases ho : o ∈ oids
    · rw [if_pos ho] at hkept
      rcases hkept with ⟨-, hcur⟩ | ⟨-, hold, hother⟩
      · exact hcur
      · exact absurd (hsole o ho d (hold ▸ Option.some_ne_none tid)) hother
    · rw [if_neg ho] at hkept
      rw [State.Current, h.stores.other o ho]
      exact hc d o tid hkept

/-- One step keeps all current, exactly if it is such a commit or none. -/
theorem Coherent.allCurrent_step (h : Coherent B s) (hc : s.AllCurrent) (e : Event)
    (hb : Behaved s e) :
    (machine B P s e).2.AllCurrent ↔ Sole B s e := by
  cases e with
  | connect => exact iff_of_true hc trivial
  | register c refused admin der credentials => exact iff_of_true hc trivial
  | load c oid =>
    refine iff_of_true (fun d o t hkept => ?_) trivial
    change (s.load B c oid).Current o t
    rw [State.Current, (load_same c oid).1]
    rcases settled_load h hb hkept with hkept | ⟨user, w, -, hw, htid, -⟩
    · exact hc d o t hkept
    · exact ⟨w, hw, htid⟩
  | receive c =>
    refine iff_of_true (fun d o t hkept => ?_) trivial
    change (s.receive c).settled d o = some t at hkept
    rw [settled_receive] at hkept
    change (s.receive c).Current o t
    rw [State.Current, (receive_same c).1]
    exact hc d o t hkept
  | commit c writes info =>
    rcases h.commit_cases (P := P) hb with ⟨user, r, hst, hcommit⟩ | ⟨hsame, hfails⟩
    swap
    · refine iff_of_true ?_ fun user r hreg hok => absurd hok (hfails user r hreg)
      change (s.commit B P c writes info).AllCurrent
      rw [hsame]
      exact hc
    refine (hcommit.allCurrent_iff hc).trans ⟨fun hall user' r' hreg _ w hw d hd => ?_,
      fun hsole o ho d hd => ?_⟩
    · rw [hreg.symm.trans hcommit.registered]
      exact hall w.oid (List.mem_map_of_mem hw) d hd
    · obtain ⟨w, hw, rfl⟩ := List.mem_map.mp ho
      exact hsole user r hcommit.registered hst w hw d hd

/-- **All current, exactly**: all that clients keep is current, in every state of a history, if and
only if every commit that takes effect is on objects that no client of another user keeps. -/
theorem current_iff (B : BaseStorage σ) (P : Platform) (invqBound : ℕ) (events : List Event)
    (h : (machine B P).Along (fun s e => e.Sized ∧ Behaved s e) (init B invqBound) events) :
    (∀ s ∈ (machine B P).states (init B invqBound) events, s.AllCurrent) ↔
      (machine B P).Along (Sole B) (init B invqBound) events := by
  refine h.states_inv_iff (fun _ e hc he => Coherent.step hc e he.1 he.2)
    (fun _ e hc he hcur => Coherent.allCurrent_step hc hcur e he.2) (coherent_init invqBound) ?_
  exact fun d oid tid hkept => by cases hkept

/-- This one has an old copy in it, and a commit on an object that another user keeps. -/
theorem current_iff_example :
    (∀ s ∈ (machine MemoryStorage.base plainPlatform).states (init MemoryStorage.base 100)
      threeClients, s.AllCurrent) ↔
      (machine MemoryStorage.base plainPlatform).Along (Sole MemoryStorage.base)
        (init MemoryStorage.base 100) threeClients :=
  current_iff MemoryStorage.base plainPlatform 100 threeClients behaved_threeClients

end Coherence

end Zerodb
