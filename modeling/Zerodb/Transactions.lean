import Zerodb.Queue
import Zerodb.Run

/-!
# Transactions: the indexing queue over transactions and savepoints

The queue is a Python list that is appended to and cleared in place. A savepoint keeps a
copy of it, and a rollback makes *that copy* the queue, so that what is enqueued afterwards
is also in the savepoint: a second rollback to it brings it back.

`Session` has the lists as objects, with the transaction machinery around them: the data
managers that joined, the before-commit hooks and the savepoints that are still valid.
`Ideal` is what the queue is for. `handed_eq_ideal`: in every run whose rollbacks find
their savepoint's list as it was taken, what is handed to the processors at each commit is
the reduction of the operations that were enqueued and not undone.
-/

namespace Zerodb

namespace QueueTM

/-- What a savepoint of the transaction has of a data manager. -/
inductive Part where
  /-- a `QueueSavepoint` with its `state`, a list -/
  | queue (state : ℕ)
  /-- an `AbortSavepoint` of a `QueueTM` that joined later -/
  | abort (tm : ℕ)

/-- A savepoint of the transaction. -/
structure Savepoint (α : Type) where
  /-- the savepoints of the data managers -/
  parts : List Part
  /-- the queue when it was made -/
  taken : List (Item α)

/-- A thread: its queue, its transaction, and the lists and `QueueTM`s made so far. -/
structure Session (α : Type) where
  /-- the lists -/
  lists : List (List (Item α))
  /-- `queue`, one of them -/
  queue : ℕ
  /-- `tmhook`: the `register` of one of the `QueueTM`s -/
  tmhook : Option ℕ
  /-- `registered` of each `QueueTM` -/
  registered : List Bool
  /-- the data managers that joined the transaction -/
  resources : List ℕ
  /-- whose `before_commit` it will call -/
  hooks : List ℕ
  /-- its valid savepoints, oldest first -/
  savepoints : List (Savepoint α)

/-- What happens in a thread. -/
inductive Op (α : Type) where
  /-- `index`, `reindex` or `unindex` -/
  | enqueue (it : Item α)
  /-- a savepoint is made -/
  | savepoint
  /-- a rollback to a valid savepoint, counted from the oldest -/
  | rollback (k : ℕ)
  /-- the transaction is committed -/
  | commit
  /-- the transaction is aborted -/
  | abort

namespace Session

variable {α : Type}

/-- A new thread. -/
def init : Session α := ⟨[[]], 0, none, [], [], [], []⟩

/-- The operations in the queue. -/
def live (s : Session α) : List (Item α) := s.lists[s.queue]?.getD []

/-- `self.queue.append(it)`. -/
def append (s : Session α) (it : Item α) : Session α :=
  { s with lists := s.lists.set s.queue (s.live ++ [it]) }

/-- A new list becomes the queue. -/
def replace (s : Session α) (l : List (Item α)) : Session α :=
  { s with lists := s.lists ++ [l], queue := s.lists.length }

/-- `clear`. -/
def clear (s : Session α) : Session α :=
  { s with lists := s.lists.set s.queue [], tmhook := none }

/-- `join`: the savepoints made before get an `AbortSavepoint`. -/
def join (s : Session α) (tm : ℕ) : Session α :=
  { s with
    resources := s.resources ++ [tm]
    savepoints := s.savepoints.map fun sp => { sp with parts := sp.parts ++ [.abort tm] } }

/-- `QueueTM.register`. -/
def register (s : Session α) (tm : ℕ) : Session α :=
  if s.registered[tm]? = some false then
    let s := s.join tm
    { s with hooks := s.hooks ++ [tm], registered := s.registered.set tm true }
  else s

/-- `hook`: a `QueueTM` is made if there is none. -/
def hook (s : Session α) : Session α :=
  match s.tmhook with
  | some tm => s.register tm
  | none => { s with
      tmhook := some s.registered.length
      registered := s.registered ++ [false] }.register s.registered.length

/-- `tpc_abort`, which is `abort`. The queue clears itself in `abort`, too. -/
def tpcAbort (s : Session α) (tm : ℕ) : Session α :=
  let s := s.clear.clear
  { s with registered := s.registered.set tm false }

/-- The savepoint of one data manager is rolled back. -/
def rollbackPart (s : Session α) : Part → Session α
  | .queue state => { s with queue := state }
  | .abort tm =>
    let s := s.tpcAbort tm
    { s with resources := s.resources.filter (· ≠ tm) }

variable {κ : Type} [LinearOrder α] [Ord κ] [Std.TransOrd κ]

/-- `process`, and what it hands to the processors. -/
def process (key : α → κ) (s : Session α) : List (Item α) × Session α :=
  let l := IndexQueue.optimize key s.live
  if l = [] then ([], s.replace l) else (l, (s.replace l).clear)

/-- `before_commit`. -/
def beforeCommit (key : α → κ) (p : List (Item α) × Session α) : List (Item α) × Session α :=
  let (handed, s) := p.2.process key
  (p.1 ++ handed, s.clear)

/-- Another transaction. -/
def next (s : Session α) : Session α := { s with resources := [], hooks := [], savepoints := [] }

/-- One operation, and what is handed to the processors. -/
def step (key : α → κ) : Machine (Session α) (Op α) (List (Item α)) := fun s op =>
  match op with
  | .enqueue it => ([], (s.append it).hook)
  | .savepoint =>
    -- every data manager that joined copies the queue
    let lists := s.lists ++ s.resources.map fun _ => s.live
    let parts := (List.range' s.lists.length s.resources.length).map .queue
    ([], { s with lists := lists, savepoints := s.savepoints ++ [⟨parts, s.live⟩] })
  | .rollback k =>
    match s.savepoints[k]? with
    | none => ([], s)
    | some sp => ([], sp.parts.foldl rollbackPart
        { s with savepoints := s.savepoints.take (k + 1) })
  | .commit =>
    let (handed, s) := s.hooks.foldl (fun p _ => beforeCommit key p) ([], s)
    (handed, { s with
      registered := s.resources.foldl (fun l tm => l.set tm false) s.registered }.next)
  | .abort => ([], (s.resources.foldl tpcAbort s).next)

end Session

/-! ## What the queue is for

The specification has no lists that are shared and no data managers. A savepoint is a copy of the
operations, and rolling back to it forgets what came after. -/

/-- The operations enqueued in the transaction and not undone, and what they were at each
valid savepoint. -/
structure Ideal (α : Type) where
  /-- the operations -/
  pending : List (Item α)
  /-- at each savepoint, oldest first -/
  snapshots : List (List (Item α))

namespace Ideal

variable {α κ : Type} [LinearOrder α] [Ord κ] [Std.TransOrd κ]

/-- A new thread. -/
def init : Ideal α := ⟨[], []⟩

/-- A rollback undoes what was enqueued since; a commit hands over the reduction. -/
def step (key : α → κ) : Machine (Ideal α) (Op α) (List (Item α)) := fun t op =>
  match op with
  | .enqueue it => ([], { t with pending := t.pending ++ [it] })
  | .savepoint => ([], { t with snapshots := t.snapshots ++ [t.pending] })
  | .rollback k =>
    match t.snapshots[k]? with
    | none => ([], t)
    | some l => ([], ⟨l, t.snapshots.take (k + 1)⟩)
  | .commit => (IndexQueue.optimize key t.pending, init)
  | .abort => ([], init)

end Ideal

/-! ## Simulation

Between the operations of a thread its queue is empty and nobody has joined, or it has joined the
transaction once; a savepoint has the list it took, or a part that aborts the queue if it was made
before (`Sim`). The two levels differ in the rollback: it makes the list of the savepoint the
queue, and that list is what the ideal savepoint has as long as nothing was appended to it since,
which is `Intact`. -/

namespace Session

variable {α : Type}

/-- No savepoint of a queue is among the parts. -/
def Aborts (parts : List Part) : Prop := ∀ p ∈ parts, ∃ tm, p = .abort tm

/-- The queue is empty, and no data manager has joined. -/
structure Idle (s : Session α) : Prop where
  /-- there is no hook -/
  tmhook : s.tmhook = none
  /-- nor a data manager -/
  resources : s.resources = []
  /-- nor an operation -/
  live : s.live = []
  /-- the savepoints were made from an empty queue -/
  savepoints : ∀ sp ∈ s.savepoints, Aborts sp.parts ∧ sp.taken = []

/-- The queue has joined the transaction through a `QueueTM`. -/
structure Joined (s : Session α) (tm : ℕ) : Prop where
  /-- it is the hook -/
  tmhook : s.tmhook = some tm
  /-- it is the only data manager -/
  resources : s.resources = [tm]
  /-- it is registered -/
  registered : s.registered[tm]? = some true
  /-- the transaction will call it -/
  hooks : s.hooks ≠ []
  /-- the savepoints made before it joined will abort it, those made after have the queue -/
  savepoints : ∃ before after, s.savepoints = before ++ after ∧
    (∀ sp ∈ before, Aborts sp.parts ∧ sp.taken = [] ∧ .abort tm ∈ sp.parts) ∧
    ∀ sp ∈ after, ∃ state, sp.parts = [.queue state] ∧ state < s.lists.length

/-- The session has the queue of the ideal one. -/
structure Sim (s : Session α) (t : Ideal α) : Prop where
  /-- the queue is a list -/
  bound : s.queue < s.lists.length
  /-- with the operations that were not undone -/
  live : s.live = t.pending
  /-- and the savepoints are those of the ideal session -/
  snapshots : s.savepoints.map Savepoint.taken = t.snapshots
  /-- the queue has joined the transaction, or is empty -/
  phase : Idle s ∨ ∃ tm, Joined s tm

/-- The list of a `QueueSavepoint` is as it was taken. -/
def Unchanged (s : Session α) (taken : List (Item α)) : Part → Prop
  | .queue state => s.lists[state]? = some taken
  | .abort _ => True

/-- A rollback finds the list of the savepoint as it was taken. -/
def Intact (s : Session α) : Op α → Prop
  | .rollback k => ∀ sp ∈ s.savepoints[k]?, ∀ p ∈ sp.parts, Unchanged s sp.taken p
  | _ => True

instance [DecidableEq α] (s : Session α) (taken : List (Item α)) :
    DecidablePred (Unchanged s taken)
  | .queue state => inferInstanceAs (Decidable (s.lists[state]? = some taken))
  | .abort _ => inferInstanceAs (Decidable True)

instance [DecidableEq α] (s : Session α) : DecidablePred (Intact s)
  | .rollback k =>
    inferInstanceAs (Decidable (∀ sp ∈ s.savepoints[k]?, ∀ p ∈ sp.parts, Unchanged s sp.taken p))
  | .enqueue _ => inferInstanceAs (Decidable True)
  | .savepoint => inferInstanceAs (Decidable True)
  | .commit => inferInstanceAs (Decidable True)
  | .abort => inferInstanceAs (Decidable True)

variable {s : Session α} {t : Ideal α}

/-! ## Enqueueing and savepoints

Enqueueing makes an empty queue join the transaction. A savepoint keeps a copy of the queue if it
has joined. -/

theorem live_append (h : s.queue < s.lists.length) (it : Item α) :
    (s.append it).live = s.live ++ [it] := by
  simp [append, live, h]

theorem live_clear (h : s.queue < s.lists.length) : s.clear.live = [] := by
  simp [clear, live, h]

/-- An empty queue is joined through a new `QueueTM`. -/
theorem Idle.enqueue (h : Idle s) (hb : s.queue < s.lists.length) (it : Item α) :
    Joined (s.append it).hook s.registered.length ∧ (s.append it).hook.live = s.live ++ [it] ∧
      (s.append it).hook.queue < (s.append it).hook.lists.length ∧
      (s.append it).hook.savepoints.map Savepoint.taken = s.savepoints.map Savepoint.taken := by
  have hhook : (s.append it).hook = { s.append it with
      tmhook := some s.registered.length
      registered := (s.registered ++ [false]).set s.registered.length true
      resources := [s.registered.length]
      hooks := s.hooks ++ [s.registered.length]
      savepoints := s.savepoints.map fun sp =>
        { sp with parts := sp.parts ++ [.abort s.registered.length] } } := by
    have hnone : (s.append it).tmhook = none := h.tmhook
    rw [hook, hnone]
    simp [register, join, append, h.resources]
  rw [hhook]
  refine ⟨⟨rfl, rfl, by simp, by simp, _, [], (List.append_nil _).symm, fun sp hsp => ?_, by simp⟩,
    live_append hb it, by simpa [append] using hb, by simp [Function.comp_def]⟩
  obtain ⟨sp₀, hsp₀, rfl⟩ := List.mem_map.mp hsp
  obtain ⟨haborts, htaken⟩ := h.savepoints sp₀ hsp₀
  refine ⟨fun p hp => ?_, htaken, by simp⟩
  rcases List.mem_append.mp hp with hp | hp
  · exact haborts p hp
  · exact ⟨_, List.mem_singleton.mp hp⟩

theorem Sim.enqueue (h : Sim s t) (it : Item α) :
    Sim (s.append it).hook { t with pending := t.pending ++ [it] } := by
  rcases h.phase with hidle | ⟨tm, hjoined⟩
  · obtain ⟨hj, hlive, hb, hsp⟩ := hidle.enqueue h.bound it
    exact ⟨hb, by rw [hlive, h.live], hsp.trans h.snapshots, .inr ⟨_, hj⟩⟩
  · have hhook : (s.append it).hook = s.append it := by
      have hsome : (s.append it).tmhook = some tm := hjoined.tmhook
      have hreg : (s.append it).registered[tm]? = some true := hjoined.registered
      rw [hook, hsome]
      dsimp only
      rw [register, hreg, if_neg (by simp)]
    rw [hhook]
    obtain ⟨before, after, hsplit, hbefore, hafter⟩ := hjoined.savepoints
    refine ⟨by simpa [append] using h.bound, by rw [live_append h.bound, h.live], h.snapshots,
      .inr ⟨tm, hjoined.tmhook, hjoined.resources, hjoined.registered, hjoined.hooks, before, after,
        hsplit, hbefore, fun sp hsp => ?_⟩⟩
    obtain ⟨state, hparts, hstate⟩ := hafter sp hsp
    exact ⟨state, hparts, by simpa [append] using hstate⟩

theorem Sim.snapshot (h : Sim s t) (k : ℕ) :
    t.snapshots[k]? = s.savepoints[k]?.map Savepoint.taken := by
  rw [← h.snapshots, List.getElem?_map]

/-! ## Rollbacks

A rollback goes through the parts of the savepoint: there is one with a list of the queue, which
becomes the queue, or there are some that abort it, which is right since the queue was empty when
they were made. -/

/-- Rolling back `AbortSavepoint`s empties the queue and lets their data managers go. -/
theorem foldl_aborts {parts : List Part} (h : Aborts parts) (s : Session α)
    (hb : s.queue < s.lists.length) :
    (parts.foldl rollbackPart s).queue = s.queue ∧
      (parts.foldl rollbackPart s).lists.length = s.lists.length ∧
      (parts.foldl rollbackPart s).savepoints = s.savepoints ∧
      (parts.foldl rollbackPart s).resources ⊆ s.resources ∧
      (s.live = [] → (parts.foldl rollbackPart s).live = []) ∧
      (s.tmhook = none → (parts.foldl rollbackPart s).tmhook = none) ∧
      ∀ tm, .abort tm ∈ parts → (parts.foldl rollbackPart s).live = [] ∧
        (parts.foldl rollbackPart s).tmhook = none ∧
        tm ∉ (parts.foldl rollbackPart s).resources := by
  induction parts generalizing s with
  | nil => exact ⟨rfl, rfl, rfl, List.Subset.refl _, id, id, fun tm htm => absurd htm List.not_mem_nil⟩
  | cons p parts ih =>
    obtain ⟨hp, hparts⟩ := List.forall_mem_cons.mp h
    obtain ⟨tm₀, rfl⟩ := hp
    have hb' : (s.rollbackPart (.abort tm₀)).queue < (s.rollbackPart (.abort tm₀)).lists.length := by
      simpa [rollbackPart, tpcAbort, clear] using hb
    have hlive : (s.rollbackPart (.abort tm₀)).live = [] := by
      simp [rollbackPart, tpcAbort, clear, live, hb]
    obtain ⟨hq, hl, hsp, hres, hlive', hhook, hall⟩ := ih hparts (s.rollbackPart (.abort tm₀)) hb'
    have hlen : (s.rollbackPart (.abort tm₀)).lists.length = s.lists.length := by
      simp [rollbackPart, tpcAbort, clear]
    rw [List.foldl_cons]
    refine ⟨hq, hl.trans hlen, hsp, fun tm htm => (List.mem_filter.mp (hres htm)).1,
      fun _ => hlive' hlive, fun _ => hhook rfl, fun tm htm => ?_⟩
    rcases List.mem_cons.mp htm with heq | htm
    · obtain rfl := Part.abort.inj heq
      exact ⟨hlive' hlive, hhook rfl, fun hmem => by simpa using (List.mem_filter.mp (hres hmem)).2⟩
    · exact hall tm htm

theorem Sim.rollback (h : Sim s t) {k : ℕ} (hok : Intact s (.rollback k)) {sp : Savepoint α}
    (hsp : s.savepoints[k]? = some sp) :
    Sim (sp.parts.foldl rollbackPart { s with savepoints := s.savepoints.take (k + 1) })
      ⟨sp.taken, t.snapshots.take (k + 1)⟩ := by
  have hmem : sp ∈ s.savepoints := List.mem_of_getElem? hsp
  have hsnap : (s.savepoints.take (k + 1)).map Savepoint.taken = t.snapshots.take (k + 1) := by
    rw [← h.snapshots, List.map_take]
  rcases h.phase with hidle | ⟨tm, hjoined⟩
  · obtain ⟨haborts, htaken⟩ := hidle.savepoints sp hmem
    obtain ⟨hq, hl, hsp', hres, hlive, hhook, -⟩ := foldl_aborts haborts
      { s with savepoints := s.savepoints.take (k + 1) } h.bound
    refine ⟨by rw [hq, hl]; exact h.bound, by rw [hlive hidle.live, htaken], by rw [hsp']; exact hsnap,
      .inl ⟨hhook hidle.tmhook, ?_, hlive hidle.live, fun sp' hmem' => ?_⟩⟩
    · exact List.subset_nil.mp (hidle.resources ▸ hres)
    · rw [hsp'] at hmem'
      exact hidle.savepoints sp' (List.mem_of_mem_take hmem')
  · obtain ⟨before, after, hsplit, hbefore, hafter⟩ := hjoined.savepoints
    by_cases hk : k < before.length
    · -- the queue joined after the savepoint
      have hspb : sp ∈ before := by
        rw [hsplit, List.getElem?_append_left hk] at hsp
        exact List.mem_of_getElem? hsp
      obtain ⟨haborts, htaken, htm⟩ := hbefore sp hspb
      obtain ⟨hq, hl, hsp', hres, -, -, hall⟩ := foldl_aborts haborts
        { s with savepoints := s.savepoints.take (k + 1) } h.bound
      obtain ⟨hlive, hhook, htm'⟩ := hall tm htm
      refine ⟨by rw [hq, hl]; exact h.bound, by rw [hlive, htaken], by rw [hsp']; exact hsnap,
        .inl ⟨hhook, ?_, hlive, fun sp' hmem' => ?_⟩⟩
      · refine List.eq_nil_iff_forall_not_mem.mpr fun tm' htm'' => ?_
        have := hres htm''
        dsimp only at this
        rw [hjoined.resources, List.mem_singleton] at this
        exact htm' (this ▸ htm'')
      · rw [hsp'] at hmem'
        dsimp only at hmem'
        rw [hsplit, List.take_append_of_le_length hk] at hmem'
        obtain ⟨ha, ht, -⟩ := hbefore sp' (List.mem_of_mem_take hmem')
        exact ⟨ha, ht⟩
    · -- the savepoint has a copy of the queue
      rw [Nat.not_lt] at hk
      have hspa : sp ∈ after := by
        rw [hsplit, List.getElem?_append_right hk] at hsp
        exact List.mem_of_getElem? hsp
      obtain ⟨state, hparts, hstate⟩ := hafter sp hspa
      have hlist : s.lists[state]? = some sp.taken := hok sp hsp (.queue state) (by rw [hparts]; simp)
      have hlive : s.lists[state]?.getD [] = sp.taken := by rw [hlist, Option.getD_some]
      rw [hparts]
      refine ⟨hstate, hlive, hsnap,
        .inr ⟨tm, hjoined.tmhook, hjoined.resources, hjoined.registered, hjoined.hooks, before,
          after.take (k + 1 - before.length), ?_, hbefore,
          fun sp' hmem' => hafter sp' (List.mem_of_mem_take hmem')⟩⟩
      simp only [List.foldl_cons, List.foldl_nil, rollbackPart, hsplit]
      rw [List.take_append, List.take_of_length_le (by omega)]

theorem Sim.savepoint (h : Sim s t) : Sim
    { s with
      lists := s.lists ++ s.resources.map fun _ => s.live
      savepoints := s.savepoints ++
        [⟨(List.range' s.lists.length s.resources.length).map .queue, s.live⟩] }
    { t with snapshots := t.snapshots ++ [t.pending] } := by
  have hlive : ∀ l, (s.lists ++ l)[s.queue]?.getD [] = s.live := by
    intro l
    rw [List.getElem?_append_left h.bound, Session.live]
  refine ⟨h.bound.trans_le (by simp), (hlive _).trans h.live, ?_, ?_⟩
  · rw [List.map_append, h.snapshots, ← h.live]
    rfl
  · rcases h.phase with hidle | ⟨tm, hjoined⟩
    · refine .inl ⟨hidle.tmhook, hidle.resources, (hlive _).trans hidle.live, fun sp hsp => ?_⟩
      rcases List.mem_append.mp hsp with hsp | hsp
      · exact hidle.savepoints sp hsp
      · obtain rfl := List.mem_singleton.mp hsp
        rw [hidle.resources]
        exact ⟨fun p hp => absurd hp List.not_mem_nil, hidle.live⟩
    · obtain ⟨before, after, hsplit, hbefore, hafter⟩ := hjoined.savepoints
      refine .inr ⟨tm, hjoined.tmhook, hjoined.resources, hjoined.registered, hjoined.hooks, before,
        after ++ [⟨(List.range' s.lists.length s.resources.length).map .queue, s.live⟩], ?_, hbefore,
        fun sp hsp => ?_⟩
      · rw [← List.append_assoc, ← hsplit]
      · rcases List.mem_append.mp hsp with hsp | hsp
        · obtain ⟨state, hparts, hstate⟩ := hafter sp hsp
          exact ⟨state, hparts, hstate.trans_le (by simp)⟩
        · obtain rfl := List.mem_singleton.mp hsp
          rw [hjoined.resources]
          exact ⟨s.lists.length, rfl, by simp⟩

/-! ## Commits and aborts

Both end with an empty queue that nobody has joined. A commit runs all hooks, the first of which
hands over the reduction of the queue. -/

/-- The next transaction starts with an empty queue. -/
theorem sim_next (hb : s.queue < s.lists.length) (hlive : s.live = []) (hhook : s.tmhook = none) :
    Sim s.next (Ideal.init : Ideal α) :=
  ⟨hb, hlive, rfl, .inl ⟨hhook, rfl, hlive, fun _ hsp => absurd hsp List.not_mem_nil⟩⟩

theorem sim_init : Sim (init : Session α) Ideal.init :=
  ⟨by simp [init], rfl, rfl, .inl ⟨rfl, rfl, rfl, fun _ hsp => absurd hsp List.not_mem_nil⟩⟩

variable {κ : Type} [LinearOrder α] [Ord κ] [Std.TransOrd κ] {key : α → κ}

theorem optimize_nil : IndexQueue.optimize key ([] : List (Item α)) = [] := by
  have hnil : (∅ : BTree κ (Item α)).toList = [] := by
    rw [← List.length_eq_zero_iff, Std.ExtTreeMap.length_toList, Std.ExtTreeMap.size_empty]
  rw [IndexQueue.optimize, List.foldl_nil, hnil]
  rfl

/-- The hook hands over the reduction of the queue, and clears it. -/
theorem beforeCommit_spec (handed : List (Item α)) (s : Session α) :
    (beforeCommit key (handed, s)).1 = handed ++ IndexQueue.optimize key s.live ∧
      (beforeCommit key (handed, s)).2.live = [] ∧ (beforeCommit key (handed, s)).2.tmhook = none ∧
      (beforeCommit key (handed, s)).2.queue < (beforeCommit key (handed, s)).2.lists.length := by
  rw [beforeCommit, process]
  dsimp only
  split
  · rename_i hnil
    exact ⟨by rw [hnil], live_clear (by simp [replace]), rfl, by simp [clear, replace]⟩
  · exact ⟨rfl, live_clear (by simp [clear, replace]), rfl, by simp [clear, replace]⟩

/-- Further hooks find the queue empty. -/
theorem foldl_beforeCommit (hooks : List ℕ) (handed : List (Item α)) (s : Session α)
    (hb : s.queue < s.lists.length) (hlive : s.live = []) (hhook : s.tmhook = none) :
    (hooks.foldl (fun p _ => beforeCommit key p) (handed, s)).1 = handed ∧
      (hooks.foldl (fun p _ => beforeCommit key p) (handed, s)).2.live = [] ∧
      (hooks.foldl (fun p _ => beforeCommit key p) (handed, s)).2.tmhook = none ∧
      (hooks.foldl (fun p _ => beforeCommit key p) (handed, s)).2.queue <
        (hooks.foldl (fun p _ => beforeCommit key p) (handed, s)).2.lists.length := by
  induction hooks generalizing s with
  | nil => exact ⟨rfl, hlive, hhook, hb⟩
  | cons tm hooks ih =>
    obtain ⟨h₁, h₂, h₃, h₄⟩ := @beforeCommit_spec α κ _ _ _ key handed s
    rw [hlive, optimize_nil, List.append_nil] at h₁
    rw [List.foldl_cons, ← Prod.mk.eta (p := beforeCommit key (handed, s)), h₁]
    exact ih _ h₄ h₂ h₃

theorem Sim.commit (h : Sim s t) : (step key s .commit).1 = IndexQueue.optimize key t.pending ∧
    Sim (step key s .commit).2 Ideal.init := by
  rw [step]
  dsimp only
  obtain ⟨h₁, h₂, h₃, h₄⟩ :
      (s.hooks.foldl (fun p _ => beforeCommit key p) ([], s)).1 = IndexQueue.optimize key t.pending ∧
      (s.hooks.foldl (fun p _ => beforeCommit key p) ([], s)).2.live = [] ∧
      (s.hooks.foldl (fun p _ => beforeCommit key p) ([], s)).2.tmhook = none ∧
      (s.hooks.foldl (fun p _ => beforeCommit key p) ([], s)).2.queue <
        (s.hooks.foldl (fun p _ => beforeCommit key p) ([], s)).2.lists.length := by
    rcases h.phase with hidle | ⟨tm, hjoined⟩
    · have hall := @foldl_beforeCommit α κ _ _ _ key s.hooks [] s h.bound hidle.live hidle.tmhook
      rwa [← h.live, hidle.live, optimize_nil]
    · obtain ⟨tm', hooks, hh⟩ := List.exists_cons_of_ne_nil hjoined.hooks
      obtain ⟨h₁, h₂, h₃, h₄⟩ := @beforeCommit_spec α κ _ _ _ key [] s
      rw [List.nil_append, h.live] at h₁
      rw [hh, List.foldl_cons, ← Prod.mk.eta (p := beforeCommit key ([], s)), h₁]
      exact foldl_beforeCommit hooks _ _ h₄ h₂ h₃
  exact ⟨h₁, sim_next h₄ h₂ h₃⟩

theorem Sim.abort (h : Sim s t) : Sim (step key s .abort).2 (Ideal.init : Ideal α) := by
  rw [step]
  dsimp only
  rcases h.phase with hidle | ⟨tm, hjoined⟩
  · rw [hidle.resources]
    exact sim_next h.bound hidle.live hidle.tmhook
  · rw [hjoined.resources]
    have hb : (s.tpcAbort tm).queue < (s.tpcAbort tm).lists.length := by
      simpa [tpcAbort, clear] using h.bound
    exact sim_next hb (by simp [tpcAbort, clear, Session.live, h.bound]) rfl

theorem Sim.step (h : Sim s t) (op : Op α) (hok : Intact s op) :
    (step key s op).1 = (Ideal.step key t op).1 ∧
      Sim (step key s op).2 (Ideal.step key t op).2 := by
  cases op with
  | enqueue it => exact ⟨rfl, h.enqueue it⟩
  | savepoint => exact ⟨rfl, h.savepoint⟩
  | rollback k =>
    have hsnap := h.snapshot k
    rw [Session.step, Ideal.step]
    rcases hsp : s.savepoints[k]? with _ | sp
    · rw [hsp, Option.map_none] at hsnap
      simp only [hsnap]
      exact ⟨trivial, h⟩
    · rw [hsp, Option.map_some] at hsnap
      simp only [hsnap]
      exact ⟨trivial, h.rollback hok hsp⟩
  | commit => exact h.commit
  | abort => exact ⟨rfl, h.abort⟩

/-- **Lifetime of the queue**: in every sequence of transactions whose rollbacks are all
`Intact`, each commit hands over the reduction of the operations that were enqueued in the
transaction and not undone, and every transaction starts with an empty queue. -/
theorem handed_eq_ideal (key : α → κ) (ops : List (Op α))
    (h : (Session.step key).Along Intact init ops) :
    (Session.step key).outputs init ops = (Ideal.step key).outputs Ideal.init ops ∧
      ∀ before op after, ops = before ++ op :: after → op = .commit ∨ op = .abort →
        ((Session.step key).final init (before ++ [op])).live = [] := by
  have hstep : ∀ (s : Session α) (t : Ideal α) (op : Op α), Sim s t → Intact s op →
      (Session.step key s op).1 = (Ideal.step key t op).1 ∧
        Sim (Session.step key s op).2 (Ideal.step key t op).2 :=
    fun s t op hs hok => hs.step op hok
  refine ⟨(h.simulates hstep sim_init).1, fun before op after hops hend => ?_⟩
  have hsplit : ops = (before ++ [op]) ++ after := by simp [hops]
  have hpre := (Machine.along_append.mp (hsplit ▸ h)).1
  have hsim := (hpre.simulates hstep sim_init).2
  have hinit : (Ideal.step key).final Ideal.init (before ++ [op]) = Ideal.init := by
    rw [Machine.final_append]
    rcases hend with rfl | rfl <;> rfl
  rw [hsim.live, hinit]
  rfl

/-- `reindex` of an object. -/
def reindexed (n : ℕ) : Item ℕ := ⟨reindexOp, n, some []⟩

/-- One operation is undone and another one is not. -/
theorem handed_eq_ideal_example : (Session.step (id : ℕ → ℕ)).outputs init
    [.enqueue (reindexed 1), .savepoint, .enqueue (reindexed 2), .rollback 0,
      .enqueue (reindexed 3), .commit] =
    (Ideal.step (id : ℕ → ℕ)).outputs Ideal.init
      [.enqueue (reindexed 1), .savepoint, .enqueue (reindexed 2), .rollback 0,
        .enqueue (reindexed 3), .commit] :=
  (handed_eq_ideal (id : ℕ → ℕ) [.enqueue (reindexed 1), .savepoint, .enqueue (reindexed 2),
    .rollback 0, .enqueue (reindexed 3), .commit]
    ⟨trivial, trivial, trivial, by decide +kernel, trivial, trivial, trivial⟩).1

/-- What is enqueued after a rollback comes back with a second one to the same savepoint. -/
theorem undone_handed : (Session.step (id : ℕ → ℕ)).outputs init
    [.enqueue (reindexed 1), .savepoint, .rollback 0, .enqueue (reindexed 2), .rollback 0,
      .commit] ≠
    (Ideal.step (id : ℕ → ℕ)).outputs Ideal.init
      [.enqueue (reindexed 1), .savepoint, .rollback 0, .enqueue (reindexed 2), .rollback 0,
        .commit] := by
  decide +kernel

end Session

end QueueTM

end Zerodb
