import Zerodb.AdminMemory
import Zerodb.OwnerStorage

/-!
# User statistics: the file of a server, divided among its users

`userstats` reads the transactions of a file storage. It takes the last eight bytes of the
first data record of a transaction for the user who wrote it and charges the whole transaction
to that user; in the end it looks the users up in the administrator's tables.

The file is written by connections: each transaction has records that the `OwnerStorage` of one
user tagged (`Commit.written`). So the eight bytes are the user's id, each user is charged
exactly the bytes of their own transactions, and all charges together are the file
(`userstats_spec`). A single user who was deleted makes it raise.
-/

namespace Zerodb

/-! ## The function

The loop keeps a dictionary from eight bytes to a number of bytes. A transaction is charged as a
whole, to the first of its records that has data, and to nobody if none has. The names are looked
up when the loop has ended, so that one missing user loses all results. -/

/-- A transaction of a file storage. -/
structure FileTransaction where
  /-- `_tpos`: where it begins -/
  tpos : ℕ
  /-- `_tend`: where its length is repeated -/
  tend : ℕ
  /-- the `data` of its records; a record may have none -/
  records : List (Option Bytes)

namespace FileTransaction

/-- `record.data[-8:]`. -/
def lastEight (data : Bytes) : Bytes := data.drop (data.length - 8)

/-- `transaction._tend - transaction._tpos + 8`. -/
def size (t : FileTransaction) : ℕ := t.tend - t.tpos + 8

/-- The user of the first record with data. -/
def owner (t : FileTransaction) : Option Bytes :=
  ((t.records.filterMap id).find? (· ≠ [])).map lastEight

end FileTransaction

namespace UserStats

/-- One turn of the loop over the transactions. -/
def charge (result : BTree Bytes ℕ) (t : FileTransaction) : BTree Bytes ℕ :=
  match t.owner with
  | none => result
  | some uid => result.insert uid (result[uid]?.getD 0 + t.size)

/-- `result`, when the loop has ended. -/
def totals (file : List FileTransaction) : BTree Bytes ℕ := file.foldl charge ∅

/-- `admin.users[uid].name`. -/
def userName (a : Admin) (uid : Bytes) : Except Exc Str :=
  match a.users.toList.find? fun r => (p64 r).bytes = uid with
  | none => .error .keyError
  | some r =>
    match a.objs[r]? with
    | none => .error .posKeyError
    | some user => .ok user.name

/-- An entry of the list that is returned. -/
structure Entry where
  /-- the user's id -/
  uid : Bytes
  /-- the user's name -/
  name : Str
  /-- the bytes charged -/
  total : ℕ

/-- `(uid, admin.users[uid].name, total)`. -/
def entry (a : Admin) (e : Bytes × ℕ) : Except Exc Entry := do
  let name ← userName a e.1
  return ⟨e.1, name, e.2⟩

/-- `userstats`. -/
def userstats (file : List FileTransaction) (a : Admin) : Except Exc (List Entry) :=
  (totals file).toList.mapM (entry a)

/-! ## The file

What connections write, as the file storage lays it out: a header and records, and the length once
more at the end. The records are tagged by an `OwnerStorage`, all with the id of the one user of
the connection; that is what `userstats` relies on. -/

/-- A transaction that a connection commits. -/
structure Commit where
  /-- the user of the connection -/
  user : Oid
  /-- the bytes of the transaction and record headers -/
  headers : ℕ
  /-- the data passed to `OwnerStorage.store`, of one object at least -/
  stores : List Bytes
  /-- there is one -/
  ne : stores ≠ []

namespace Commit

/-- The tagged records. -/
def records (c : Commit) : List Bytes := c.stores.map (· ++ c.user.bytes)

/-- The bytes of the transaction. -/
def length (c : Commit) : ℕ := c.headers + (c.records.map List.length).sum

/-- The transaction, written at a position of the file. -/
def written (c : Commit) (pos : ℕ) : FileTransaction := ⟨pos, pos + c.length, c.records.map some⟩

/-- The bytes it takes, with the repeated length at its end. -/
def size (c : Commit) : ℕ := c.length + 8

end Commit

/-- The transactions of some commits, from a position on. -/
def transactions : ℕ → List Commit → List FileTransaction
  | _, [] => []
  | pos, c :: cs => c.written pos :: transactions (pos + c.size) cs

/-- The position after the last transaction. -/
def fileEnd (pos : ℕ) (cs : List Commit) : ℕ := cs.foldl (fun pos c => pos + c.size) pos

/-- The bytes of the commits of a user. -/
def share (cs : List Commit) (uid : Bytes) : ℕ :=
  ((cs.filter (·.user.bytes = uid)).map Commit.size).sum

/-! ## The totals

A tag is eight bytes long, so that the last eight bytes of a tagged record are the tag, whatever
the data before it. From there on it is a sum over the commits: the total of a user grows by the
size of each of the user's transactions and by nothing else, and all totals together by all sizes.
-/

/-- A tagged record ends in the tag. -/
theorem lastEight_tag (data : Bytes) (user : Oid) :
    FileTransaction.lastEight (data ++ user.bytes) = user.bytes := by
  have hlen : (data ++ user.bytes).length - 8 = data.length := by
    rw [List.length_append, user.length_eq, Nat.add_sub_cancel]
  rw [FileTransaction.lastEight, hlen, List.drop_left]

/-- A transaction is charged to the user who committed it. -/
theorem Commit.owner_written (c : Commit) (pos : ℕ) : (c.written pos).owner = some c.user.bytes := by
  obtain ⟨data, rest, hstores⟩ := List.exists_cons_of_ne_nil c.ne
  have hne : data ++ c.user.bytes ≠ [] := by
    intro hnil
    have hlen := congrArg List.length hnil
    rw [List.length_append, c.user.length_eq, List.length_nil] at hlen
    omega
  have hrecords : c.records = (data ++ c.user.bytes) :: rest.map (· ++ c.user.bytes) := by
    rw [Commit.records, hstores, List.map_cons]
  have hmap : ((c.written pos).records.filterMap id) = c.records := by
    rw [Commit.written, List.filterMap_map, Function.id_comp, List.filterMap_some]
  have hfirst : c.records.find? (· ≠ []) = some (data ++ c.user.bytes) := by
    rw [hrecords]
    exact List.find?_cons_of_pos (decide_eq_true hne)
  rw [FileTransaction.owner, hmap, hfirst, Option.map_some, lastEight_tag]

theorem Commit.size_written (c : Commit) (pos : ℕ) : (c.written pos).size = c.size := by
  rw [FileTransaction.size, Commit.written, Commit.size, Nat.add_sub_cancel_left]

/-- One commit more, from the point of view of the totals. -/
theorem charge_written (result : BTree Bytes ℕ) (c : Commit) (pos : ℕ) :
    charge result (c.written pos) =
      result.insert c.user.bytes (result[c.user.bytes]?.getD 0 + c.size) := by
  rw [charge, c.owner_written, c.size_written]

/-- What the loop adds to a total, and that it adds nothing else. -/
theorem foldl_charge (cs : List Commit) (pos : ℕ) (result : BTree Bytes ℕ) (uid : Bytes) :
    ((transactions pos cs).foldl charge result)[uid]? =
      if uid ∈ result ∨ ∃ c ∈ cs, c.user.bytes = uid then
        some (result[uid]?.getD 0 + share cs uid)
      else none := by
  induction cs generalizing pos result with
  | nil =>
    by_cases hmem : uid ∈ result
    · simp [transactions, share, hmem]
    · simp [transactions, hmem]
  | cons c cs ih =>
    rw [transactions, List.foldl_cons, charge_written, ih]
    simp only [BTree.mem_insert, BTree.get_insert]
    by_cases hc : c.user.bytes = uid
    · subst hc
      simp [share, add_assoc]
    · have hshare : share (c :: cs) uid = share cs uid := by
        rw [share, List.filter_cons_of_neg (by simpa using hc), share]
      simp [hc, Ne.symm hc, hshare]

/-- The users with a total, and what it is. -/
theorem totals_get (cs : List Commit) (pos : ℕ) (uid : Bytes) :
    (totals (transactions pos cs))[uid]? =
      if ∃ c ∈ cs, c.user.bytes = uid then some (share cs uid) else none := by
  rw [totals, foldl_charge]
  simp

/-- A charge adds the size of the transaction to the sum of all totals. -/
theorem total_charge (result : BTree Bytes ℕ) (c : Commit) (pos : ℕ) :
    (charge result (c.written pos)).total = result.total + c.size := by
  rw [charge_written, BTree.total_insert]
  by_cases hmem : c.user.bytes ∈ result
  · obtain ⟨n, hn⟩ := (BTree.mem_iff _).mp hmem
    rw [BTree.total_eq_add_erase _ hn, hn, Option.getD_some]
    omega
  · rw [BTree.erase_of_not_mem _ hmem, (BTree.not_mem_iff _).mp hmem, Option.getD_none]
    omega

/-- The totals are the file behind the start. -/
theorem total_foldl (cs : List Commit) (pos : ℕ) (result : BTree Bytes ℕ) :
    ((transactions pos cs).foldl charge result).total + pos = result.total + fileEnd pos cs := by
  induction cs generalizing pos result with
  | nil => rfl
  | cons c cs ih =>
    have hnext := ih (pos + c.size) (charge result (c.written pos))
    rw [total_charge] at hnext
    rw [transactions, List.foldl_cons, fileEnd, List.foldl_cons, ← fileEnd]
    omega

/-! ## The names

Ids that were read from the file are numbers again, and the tables of the administrator have the
users by number. In linked tables a name is found exactly for the ids of users. -/

/-- Every element has a result. -/
theorem mapM_eq_ok {α β : Type*} {f : α → Except Exc β} {l : List α} {r : List β} :
    l.mapM f = .ok r ↔ List.Forall₂ (fun a b => f a = .ok b) l r := by
  induction l generalizing r with
  | nil =>
    rw [List.mapM_nil, List.forall₂_nil_left_iff]
    exact ⟨fun h => (Except.ok.inj h).symm, fun h => congrArg Except.ok h.symm⟩
  | cons a l ih =>
    rw [List.mapM_cons, List.forall₂_cons_left_iff]
    refine ⟨?_, ?_⟩
    · intro h
      rcases ha : f a with e | b
      · rw [ha] at h
        cases h
      · rw [ha] at h
        rcases hl : l.mapM f with e | bs
        · rw [hl] at h
          cases h
        · rw [hl] at h
          exact ⟨b, bs, rfl, ih.mp hl, (Except.ok.inj h).symm⟩
    · rintro ⟨b, bs, hb, hbs, rfl⟩
      rw [hb, ih.mpr hbs]
      rfl

theorem entry_eq_ok {a : Admin} {e : Bytes × ℕ} {r : Entry} :
    entry a e = .ok r ↔ userName a e.1 = .ok r.name ∧ r.uid = e.1 ∧ r.total = e.2 := by
  rw [entry]
  rcases userName a e.1 with err | name
  · exact iff_of_false (by intro h; cases h) (by rintro ⟨h, -⟩; cases h)
  · refine ⟨?_, ?_⟩
    · intro h
      obtain rfl := Except.ok.inj h
      exact ⟨rfl, rfl, rfl⟩
    · rintro ⟨hname, huid, htotal⟩
      obtain rfl := Except.ok.inj hname
      rw [← huid, ← htotal]
      rfl

/-- A name is found exactly for the users there are. -/
theorem exists_userName_iff {P : Platform} {a : Admin} (h : Admin.Linked P a) (uid : Bytes) :
    (∃ name, userName a uid = .ok name) ↔
      ∃ user, Admin.IsUser a user ∧ (p64 user.id).bytes = uid := by
  rw [userName]
  rcases hfind : a.users.toList.find? fun r => (p64 r).bytes = uid with _ | r
  · refine iff_of_false (by rintro ⟨name, hname⟩; cases hname) ?_
    rintro ⟨user, hu, rfl⟩
    have hnot := List.find?_eq_none.mp hfind user.id (Std.ExtTreeSet.mem_toList.mpr hu.1)
    exact hnot (decide_eq_true rfl)
  · have hmem : r ∈ a.users := Std.ExtTreeSet.mem_toList.mp (List.mem_of_find?_eq_some hfind)
    obtain ⟨user, hu⟩ := h.users r hmem
    have hid := (h.objs r user hu).1
    subst hid
    refine iff_of_true ⟨user.name, ?_⟩ ⟨user, ⟨hmem, hu⟩, ?_⟩
    · dsimp only
      rw [hu]
    · have hp := List.find?_some hfind
      exact of_decide_eq_true hp

/-! ## What is returned

The entries are the totals with names, one for each user who has committed. It returns if all of
them are still users; the parts of `Divided` are then those of the two sections before. -/

/-- The bytes of the file are divided among the users who wrote them. -/
structure Divided (a : Admin) (cs : List Commit) (result : List Entry) : Prop where
  /-- there is one entry for each user who committed, with the user's name and bytes -/
  mem_iff : ∀ e : Entry, e ∈ result ↔ (∃ c ∈ cs, c.user.bytes = e.uid) ∧
    userName a e.uid = .ok e.name ∧ e.total = share cs e.uid
  /-- no two entries are for one user -/
  nodup : (result.map Entry.uid).Nodup
  /-- the entries make up the file, without its first four bytes -/
  sum : (result.map Entry.total).sum + 4 = fileEnd 4 cs

/-- If each element has a result, there are results. -/
theorem exists_mapM {α β : Type*} {f : α → Except Exc β} {l : List α}
    (h : ∀ a ∈ l, ∃ b, f a = .ok b) : ∃ r, l.mapM f = .ok r := by
  induction l with
  | nil => exact ⟨[], rfl⟩
  | cons a l ih =>
    obtain ⟨⟨b, hb⟩, hl⟩ := List.forall_mem_cons.mp h
    obtain ⟨r, hr⟩ := ih hl
    exact ⟨b :: r, mapM_eq_ok.mpr (.cons hb (mapM_eq_ok.mp hr))⟩

/-- A result has an element behind it. -/
theorem exists_of_forall₂ {α β : Type*} {R : α → β → Prop} {l : List α} {r : List β}
    (h : List.Forall₂ R l r) : ∀ b ∈ r, ∃ a ∈ l, R a b := by
  induction h with
  | nil => exact fun b hb => absurd hb List.not_mem_nil
  | @cons a b l r hab _ ih =>
    intro c hc
    rcases List.mem_cons.mp hc with rfl | hc
    · exact ⟨a, List.mem_cons_self .., hab⟩
    · obtain ⟨a', ha', hac⟩ := ih c hc
      exact ⟨a', List.mem_cons_of_mem _ ha', hac⟩

/-- The entries are the totals, with names. -/
theorem userstats_pairs {a : Admin} {file : List FileTransaction} {result : List Entry}
    (h : userstats file a = .ok result) :
    result.map (fun e => (e.uid, e.total)) = (totals file).toList ∧
      ∀ e ∈ result, userName a e.uid = .ok e.name := by
  have hentries := mapM_eq_ok.mp h
  refine ⟨?_, fun e he => ?_⟩
  · rw [← List.forall₂_eq_eq_eq, List.forall₂_map_left_iff]
    apply List.Forall₂.flip
    refine hentries.imp fun pair e he => ?_
    obtain ⟨-, huid, htotal⟩ := entry_eq_ok.mp he
    exact Prod.ext huid htotal
  · obtain ⟨pair, -, hpair⟩ := exists_of_forall₂ hentries e he
    obtain ⟨hname, huid, -⟩ := entry_eq_ok.mp hpair
    rw [huid]
    exact hname

/-- What the entries say, when it returns. -/
theorem divided_of_ok {a : Admin} {cs : List Commit} {result : List Entry}
    (h : userstats (transactions 4 cs) a = .ok result) : Divided a cs result := by
  obtain ⟨hpairs, hnames⟩ := userstats_pairs h
  have htotal : ∀ uid total, (uid, total) ∈ result.map (fun e => (e.uid, e.total)) ↔
      (∃ c ∈ cs, c.user.bytes = uid) ∧ total = share cs uid := by
    intro uid total
    rw [hpairs, Std.ExtTreeMap.mem_toList_iff_getElem?_eq_some, totals_get]
    simp [eq_comm]
  refine ⟨fun e => ⟨fun he => ?_, ?_⟩, ?_, ?_⟩
  · obtain ⟨hc, hshare⟩ := (htotal e.uid e.total).mp (List.mem_map_of_mem he)
    exact ⟨hc, hnames e he, hshare⟩
  · rintro ⟨hc, hname, hshare⟩
    obtain ⟨e', he', hpair⟩ := List.mem_map.mp ((htotal e.uid e.total).mpr ⟨hc, hshare⟩)
    obtain ⟨huid, htot⟩ := Prod.mk.inj hpair
    have hname' := hnames e' he'
    rw [huid, hname] at hname'
    have heq : e' = e := by
      cases e
      cases e'
      cases huid
      cases htot
      cases Except.ok.inj hname'
      rfl
    exact heq ▸ he'
  · have hkeys : result.map Entry.uid = (totals (transactions 4 cs)).toList.map Prod.fst := by
      rw [← hpairs, List.map_map]
      rfl
    rw [hkeys, Std.ExtTreeMap.map_fst_toList_eq_keys]
    exact Std.ExtTreeMap.nodup_keys
  · have hsum : result.map Entry.total = (totals (transactions 4 cs)).toList.map Prod.snd := by
      rw [← hpairs, List.map_map]
      rfl
    have hfold := total_foldl cs 4 ∅
    rw [BTree.total_empty, zero_add] at hfold
    rw [hsum]
    exact hfold

/-- **User statistics**: for every history of the administrator and every sequence of commits,
`userstats` returns exactly if every user who committed is still a user, and then it divides
the file among them. -/
theorem userstats_spec (P : Platform) (calls : List Admin.Call) (cs : List Commit) :
    ((∃ result, userstats (transactions 4 cs) ((Admin.memory P).final (Admin.init P) calls) =
        .ok result) ↔
      ∀ c ∈ cs, ∃ user, Admin.IsUser ((Admin.memory P).final (Admin.init P) calls) user ∧
        p64 user.id = c.user) ∧
    ∀ result, userstats (transactions 4 cs) ((Admin.memory P).final (Admin.init P) calls) =
      .ok result → Divided ((Admin.memory P).final (Admin.init P) calls) cs result := by
  have hlinked : Admin.Linked P ((Admin.memory P).final (Admin.init P) calls) :=
    Machine.states_inv (fun _ c hl => hl.step c) Admin.Linked.init calls _
      (Machine.final_mem_states _ _ _)
  refine ⟨⟨?_, ?_⟩, fun result h => divided_of_ok h⟩
  · rintro ⟨result, h⟩ c hc
    obtain ⟨hpairs, hnames⟩ := userstats_pairs h
    have hmem : (c.user.bytes, share cs c.user.bytes) ∈ result.map fun e => (e.uid, e.total) := by
      rw [hpairs, Std.ExtTreeMap.mem_toList_iff_getElem?_eq_some, totals_get]
      exact if_pos ⟨c, hc, rfl⟩
    obtain ⟨e, he, hpair⟩ := List.mem_map.mp hmem
    obtain ⟨user, hu, hid⟩ := (exists_userName_iff hlinked e.uid).mp ⟨e.name, hnames e he⟩
    exact ⟨user, hu, Oid.ext (hid.trans (congrArg Prod.fst hpair))⟩
  · intro hknown
    refine exists_mapM fun e he => ?_
    rw [Std.ExtTreeMap.mem_toList_iff_getElem?_eq_some, totals_get] at he
    split at he
    · rename_i hc
      obtain ⟨c, hc, huid⟩ := hc
      obtain ⟨user, hu, hid⟩ := hknown c hc
      obtain ⟨name, hname⟩ := (exists_userName_iff hlinked e.1).mpr
        ⟨user, hu, (congrArg Oid.bytes hid).trans huid⟩
      exact ⟨⟨e.1, name, e.2⟩, entry_eq_ok.mpr ⟨hname, rfl, rfl⟩⟩
    · cases he

end UserStats

end Zerodb
