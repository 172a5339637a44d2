import Zerodb.ClientStack
import Zerodb.Handover

/-!
# Shared stack: many users on one server

Every user has a client stack of their own, `TransformingStorage` with the user's keys over
`OwnerStorage` with the user's id, and all of them share one base storage. `get_root_id` gives
a client its user id, so that the root object of a user is the object with that id.

A run of stores by any users is a run of `OwnerStorage` calls on encoded data (`State.server`).
Hence a user reads the plain records that the user has stored, whatever the others did in
between, and no others (`shared_load`); a store over a record of another user is refused.
-/

namespace Zerodb

namespace SharedStack

/-- What the process of a user decodes with. -/
structure Client where
  /-- the encryption libraries -/
  ciphers : Ciphers
  /-- the registry of encrypters and compressors -/
  utilities : Utilities
  /-- it was set up by registering them -/
  registered : utilities.Registered

variable {σ : Type} (B : BaseStorage σ) (clients : Oid → Client)

/-- A call by a user. -/
inductive Call where
  /-- `store` of the user's stack -/
  | store : (user oid : Oid) → (serial : ℕ) → (rand : Rand) → (data : Bytes) → Call
  /-- `loadBefore` of the user's stack -/
  | loadBefore : (user oid : Oid) → (tid : ℕ) → Call

/-- What a call returns. -/
inductive Reply where
  /-- the outcome of a store: the new serial -/
  | stored : Except Exc ℕ → Reply
  /-- the outcome of a load -/
  | loaded : Except Exc Record → Reply

/-- A store that took effect. -/
structure Written where
  /-- the serial of the revision -/
  tid : ℕ
  /-- the object -/
  oid : Oid
  /-- the user who stored -/
  user : Oid
  /-- the data passed to the store -/
  plain : Bytes
  /-- the data the stack passed on -/
  encoded : Bytes
  deriving DecidableEq

/-- The base storage and the stores that took effect on it, oldest first. -/
structure State (σ : Type) where
  /-- the base storage -/
  base : σ
  /-- the history of effective stores -/
  log : List Written

/-- `store` of a user's stack. -/
def store (s : σ) (user oid : Oid) (serial : ℕ) (rand : Rand) (data : Bytes) :
    Except Exc (ℕ × σ) :=
  ClientStack.store B (clients user).ciphers (clients user).utilities user user s oid serial rand data

/-- `loadBefore` of a user's stack. -/
def loadBefore (s : σ) (user oid : Oid) (tid : ℕ) : Except Exc Record :=
  ClientStack.loadBefore B (clients user).ciphers (clients user).utilities user s oid tid

/-- What a user's stack makes of data, before it is tagged. -/
def encode (user oid : Oid) (rand : Rand) (data : Bytes) : Bytes :=
  (clients user).utilities.transform (clients user).ciphers rand (oid ≠ user) data

/-- One call. An exception leaves the base storage as it is. -/
def machine : Machine (State σ) Call Reply := fun s c =>
  match c with
  | .store user oid serial rand data =>
    match store B clients s.base user oid serial rand data with
    | .error e => (.stored (.error e), s)
    | .ok (tid, base) =>
      (.stored (.ok tid), ⟨base, s.log ++ [⟨tid, oid, user, data, encode clients user oid rand data⟩]⟩)
  | .loadBefore user oid tid => (.loaded (loadBefore B clients s.base user oid tid), s)

/-- The empty server. -/
def init : State σ := ⟨B.empty, []⟩

/-- The stores that made the revisions of an object, oldest first. -/
def State.writes (s : State σ) (oid : Oid) : List Written := s.log.filter (·.oid = oid)

/-- The store of the latest revision before a transaction id. -/
def State.latest (s : State σ) (oid : Oid) (tid : ℕ) : Option Written :=
  ((s.writes oid).filter (·.tid < tid)).getLast?

/-- The serial of the first revision that is not before a transaction id. -/
def State.next (s : State σ) (oid : Oid) (tid : ℕ) : Option ℕ :=
  ((s.writes oid).find? (tid ≤ ·.tid)).map (·.tid)

/-- What the decoder of a user cannot take for something else (`Unmistakable`). -/
def Call.Plain : Call → Prop
  | .store user _ _ _ data => Utilities.Unmistakable (clients user).utilities data
  | .loadBefore .. => True

/-! ## The calls as calls of `OwnerStorage`

A stack encodes what it stores and decodes what it loads, with the user's own keys, and in between
there is the `OwnerStorage` of its user. So the server below moves as that of `OwnerStorage` does,
and its tagging invariant is at hand. Beside it, `Readable` says that every record decodes to the
data that its writer stored, by the keys of that writer. -/

/-- What `OwnerStorage` saw of a store. -/
def Written.stored (w : Written) : Stored := ⟨w.tid, w.oid, w.user, w.encoded⟩

/-- The server below the stacks. -/
def State.server (s : State σ) : Server σ := ⟨s.base, s.log.map Written.stored⟩

/-- The call of `OwnerStorage` that a call comes to. -/
def Call.lower : Call → Server.Call
  | .store user oid serial rand data => .store user oid serial (encode clients user oid rand data)
  | .loadBefore user oid tid => .loadBefore user oid tid

variable {B clients}

theorem server_step (s : State σ) (c : Call) :
    (machine B clients s c).2.server = (Server.machine B s.server (c.lower clients)).2 := by
  cases c with
  | loadBefore user oid tid => rfl
  | store user oid serial rand data =>
    have hlower : store B clients s.base user oid serial rand data =
        OwnerStorage.store B user s.base oid serial (encode clients user oid rand data) := rfl
    rcases hst : store B clients s.base user oid serial rand data with e | ⟨tid, base⟩
    · rw [hlower] at hst
      simp only [machine, Call.lower, Server.machine, State.server, hlower, hst]
    · rw [hlower] at hst
      simp only [machine, Call.lower, Server.machine, State.server, hlower, hst, List.map_append,
        List.map_singleton, Written.stored]

theorem server_writes (s : State σ) (oid : Oid) :
    s.server.writes oid = (s.writes oid).map Written.stored := by
  rw [Server.writes, State.server, State.writes, List.filter_map]
  rfl

theorem server_latest (s : State σ) (oid : Oid) (tid : ℕ) :
    ((s.server.writes oid).filter (·.tid < tid)).getLast? = (s.latest oid tid).map Written.stored := by
  rw [server_writes, List.filter_map, List.getLast?_map]
  rfl

theorem server_next (s : State σ) (oid : Oid) (tid : ℕ) :
    ((s.server.writes oid).find? (tid ≤ ·.tid)).map (·.tid) = s.next oid tid := by
  rw [server_writes, List.find?_map, Option.map_map]
  rfl

/-- The records can be decoded: the server below is tagged, and each record that was passed on
decodes to the data its writer stored. -/
structure Readable (B : BaseStorage σ) (clients : Oid → Client) (s : State σ) : Prop where
  /-- the server below is tagged -/
  tagged : Server.Tagged B s.server
  /-- records decode -/
  decodes : ∀ w ∈ s.log,
    (clients w.user).utilities.untransform (clients w.user).ciphers w.encoded = .ok w.plain

theorem readable_init : Readable B clients (init B) where
  tagged := Server.tagged_init
  decodes _ hw := absurd hw List.not_mem_nil

/-- One call keeps the records readable, if it stores what can be decoded. -/
theorem Readable.step {s : State σ} (h : Readable B clients s) (c : Call)
    (hc : c.Plain clients) : Readable B clients (machine B clients s c).2 := by
  refine ⟨by rw [server_step]; exact h.tagged.step _, ?_⟩
  cases c with
  | loadBefore user oid tid => exact h.decodes
  | store user oid serial rand data =>
    rcases hst : store B clients s.base user oid serial rand data with e | ⟨tid, base⟩ <;>
      simp only [machine, hst]
    · exact h.decodes
    · intro w hw
      rcases List.mem_append.mp hw with hw | hw
      · exact h.decodes w hw
      · obtain rfl := List.mem_singleton.mp hw
        exact (Utilities.untransform_transform_iff (clients user).registered rand _ data).mpr hc

theorem readable_states (calls : List Call) (hcalls : ∀ c ∈ calls, c.Plain clients) :
    ∀ s ∈ (machine B clients).states (init B) calls, Readable B clients s := by
  have hplain : (machine B clients).Along (fun _ c => c.Plain clients) (init B) calls :=
    (Machine.along_inputs _ _).mpr hcalls
  exact hplain.states_inv (fun _ c hs hc => hs.step c hc) readable_init

/-! ## What a user reads

Where the latest record is the user's own, decoding it with the user's keys gives back the data;
where it is another user's, the check of `OwnerStorage` comes first, and nothing is decoded. -/

/-- What a user's stack answers on a shared server: what a versioned store of the user's plain
records would, and a refusal where the record is another user's. -/
structure Answers (B : BaseStorage σ) (clients : Oid → Client) (s : State σ) (user oid : Oid)
    (tid : ℕ) : Prop where
  /-- no such object -/
  missing : s.writes oid = [] → loadBefore B clients s.base user oid tid = .error .posKeyError
  /-- no revision yet -/
  early : s.writes oid ≠ [] → s.latest oid tid = none →
    loadBefore B clients s.base user oid tid = .error .typeError
  /-- the user's own record, as it was stored -/
  own : ∀ w, s.latest oid tid = some w → w.user = user →
    loadBefore B clients s.base user oid tid = .ok (w.plain, w.tid, s.next oid tid)
  /-- someone else's record -/
  foreign : ∀ w, s.latest oid tid = some w → w.user ≠ user → oid ≠ user → oid ≠ z64 →
    loadBefore B clients s.base user oid tid = .error (.storageError (accessMessage oid user))
  /-- someone else's record, also for writing -/
  refused : ∀ w, (s.writes oid).getLast? = some w → w.user ≠ user → oid ≠ user → oid ≠ z64 →
    ∀ serial rand data, machine B clients s (.store user oid serial rand data) =
      (.stored (.error (.storageError (accessMessage oid user))), s)

theorem Readable.answers {s : State σ} (h : Readable B clients s) (user oid : Oid) (tid : ℕ) :
    Answers B clients s user oid tid := by
  have hload : loadBefore B clients s.base user oid tid = TransformingStorage.loadBefore
      (OwnerStorage.lower B user) (clients user).ciphers (clients user).utilities s.base oid tid := rfl
  have howner := h.tagged.loadBefore_eq user oid tid
  rw [server_latest, server_next, server_writes, List.isEmpty_map] at howner
  have hbase : (OwnerStorage.lower B user).loadBefore s.base oid tid =
      OwnerStorage.loadBefore B user s.server.base oid tid := rfl
  have hne : ∀ w, s.latest oid tid = some w → ¬(s.writes oid).isEmpty = true := by
    intro w hw
    rw [List.isEmpty_iff]
    exact List.ne_nil_of_mem (List.mem_of_mem_filter (List.mem_of_getLast? hw))
  refine ⟨fun hnil => ?_, fun hsome hnone => ?_, fun w hw huser => ?_,
    fun w hw huser hroot hz => ?_, fun w hw huser hroot hz serial rand data => ?_⟩
  · rw [if_pos (List.isEmpty_iff.mpr hnil)] at howner
    rw [hload, TransformingStorage.loadBefore, hbase, howner]
  · rw [if_neg (List.isEmpty_iff.not.mpr hsome), hnone] at howner
    rw [hload, TransformingStorage.loadBefore, hbase, howner]
    rfl
  · have hdecodes := h.decodes w (List.mem_of_mem_filter (List.mem_of_mem_filter
      (List.mem_of_getLast? hw)))
    rw [if_neg (hne w hw), hw] at howner
    have hstored : OwnerStorage.loadBefore B user s.server.base oid tid =
        .ok (some (w.encoded, w.tid, s.next oid tid)) := howner.trans (if_pos (.inl huser))
    subst huser
    rw [hload, TransformingStorage.loadBefore, hbase, hstored]
    simp only [hdecodes]
    rfl
  · rw [if_neg (hne w hw), hw] at howner
    have hn : ¬(w.stored.user = user ∨ oid = user ∨ oid = z64) := by
      rw [not_or, not_or]
      exact ⟨huser, hroot, hz⟩
    have hstored : OwnerStorage.loadBefore B user s.server.base oid tid =
        .error (.storageError (accessMessage oid user)) := howner.trans (if_neg hn)
    rw [hload, TransformingStorage.loadBefore, hbase, hstored]
  · have hlast : s.server.lastWriter oid = some w.stored := by
      rw [Server.lastWriter, server_writes, List.getLast?_map, hw, Option.map_some]
    have hn : ¬(w.stored.user = user ∨ oid = user ∨ oid = z64) := by
      rw [not_or, not_or]
      exact ⟨huser, hroot, hz⟩
    have hstore := h.tagged.store_refused hlast hn serial (encode clients user oid rand data)
    have hlower : store B clients s.base user oid serial rand data =
        OwnerStorage.store B user s.server.base oid serial (encode clients user oid rand data) := rfl
    rcases hst : OwnerStorage.store B user s.server.base oid serial
        (encode clients user oid rand data) with e | ⟨t, base⟩ <;>
      simp only [Server.machine, hst, Prod.mk.injEq, Server.Reply.stored.injEq] at hstore
    · simp only [machine, hlower, hst]
      rw [hstore.1]
    · exact absurd hstore.1 (by simp)

/-- **The shared stack**: in every state of every history of stores by any users, each with
keys of their own, each user's stack answers on the shared base storage as a versioned store of
the plain records does, restricted to the records that the user wrote. -/
theorem shared_load (B : BaseStorage σ) (clients : Oid → Client) (calls : List Call)
    (hcalls : ∀ c ∈ calls, c.Plain clients) :
    ∀ s ∈ (machine B clients).states (init B) calls, ∀ user oid tid,
      Answers B clients s user oid tid :=
  fun s hs user oid tid => (readable_states calls hcalls s hs).answers user oid tid

/-- Two users with different keys and the encrypters of `DB`. -/
def twoClients (user : Oid) : Client where
  ciphers := maskCiphers
  utilities := Utilities.setup [] (if user = p64 5 then Utilities.dbEncrypters (.all 7)
    else Utilities.dbEncrypters (.all 9))
  registered := by split <;> exact Utilities.registered_setup (by simp) (by decide)

/-- User 6 stores a record of their own between two of user 5, and user 5 reads back the
first one. -/
theorem shared_load_example :
    let calls : List Call := [.store (p64 5) (p64 9) 0 .zeros [128, 1],
      .store (p64 6) (p64 8) 0 .zeros [128, 2], .store (p64 5) (p64 9) 1 .zeros [128, 3]]
    let s := (machine MemoryStorage.base twoClients).final (init MemoryStorage.base) calls
    loadBefore MemoryStorage.base twoClients s.base (p64 5) (p64 9) 3 =
      .ok ([128, 1], 1, some 3) := by
  intro calls s
  have hs : s ∈ (machine MemoryStorage.base twoClients).states (init MemoryStorage.base) calls :=
    Machine.final_mem_states _ _ _
  have hcalls : ∀ c ∈ calls, c.Plain twoClients := by
    intro c hc
    simp only [calls, List.mem_cons, List.not_mem_nil, or_false] at hc
    rcases hc with rfl | rfl | rfl <;>
      exact .inr ⟨fun h => absurd h (by decide), fun h => absurd h (by decide)⟩
  have hanswers := shared_load MemoryStorage.base twoClients calls hcalls s hs (p64 5) (p64 9) 3
  have hlatest : s.latest (p64 9) 3 = some
      ⟨1, p64 9, p64 5, [128, 1], encode twoClients (p64 5) (p64 9) .zeros [128, 1]⟩ := by
    decide +kernel
  have hnext : s.next (p64 9) 3 = some 3 := by decide +kernel
  rw [hanswers.own _ hlatest rfl, hnext]

end SharedStack

end Zerodb
