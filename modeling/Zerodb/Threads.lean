import Zerodb.Run
import Zerodb.Trees

/-!
# Threads: the connections of the threads that use a database

Every thread gets a connection of its own from the pool when it first uses the database, and
keeps it in a thread-local attribute. `ThreadWatcher` calls back when the thread has ended, and
the connection is closed, which returns it to the pool. What is closed is the connection that
the thread had when the watching began.

`disconnect` closes the connection earlier. The thread still remembers it then, and takes it
for its own if it is open again because another thread has got it from the pool.

* `private_iff` — no thread has a connection that another one remembers, in any state of a run,
  exactly when the pool never gives out a connection that another thread remembers;
* `steady` — in such a run a thread keeps its connection until it disconnects or ends;
* `accounted` — without `disconnect` the open connections are those of the threads, one each.
-/

namespace Zerodb

/-! ## Watching threads

`ThreadWatcher` needs to know nothing of databases: its callbacks have any arguments. What is to
be known of it is that a thread that is watched stays watched until it ends, and is called back
for with the arguments of the first time. -/

/-- `ThreadWatcher`, with the arguments of its callbacks in `α`. Threads and vigils are named by
their ids. -/
structure ThreadWatcher (α : Type) where
  /-- `_refs`: the arguments that the callback of a vigil has -/
  refs : BTree ℕ α
  /-- `_local.vigil` of each thread -/
  vigil : BTree ℕ ℕ

namespace ThreadWatcher

variable {α : Type}

/-- `__init__`. -/
def init : ThreadWatcher α := ⟨∅, ∅⟩

/-- `is_watching`. -/
def isWatching (thread : ℕ) (w : ThreadWatcher α) : Bool :=
  match w.vigil[thread]? with
  | none => false
  | some v => decide (v ∈ w.refs)

/-- `watch`, with the id of the new vigil. -/
def watch (thread vigil : ℕ) (args : α) (w : ThreadWatcher α) : ThreadWatcher α :=
  if w.isWatching thread then w
  else ⟨w.refs.insert vigil args, w.vigil.insert thread vigil⟩

/-- The thread ends, its vigil is gone, and `_on_death` calls back with these arguments. -/
def onDeath (thread : ℕ) (w : ThreadWatcher α) : Option α × ThreadWatcher α :=
  match w.vigil[thread]? with
  | none => (none, w)
  | some v => (w.refs[v]?, ⟨w.refs.erase v, w.vigil.erase thread⟩)

/-- The arguments with which it will call back for the thread. -/
def args (w : ThreadWatcher α) (thread : ℕ) : Option α := w.vigil[thread]?.bind (w.refs[·]?)

/-- Every vigil is watched, and is that of one thread. -/
structure Wf (w : ThreadWatcher α) : Prop where
  /-- it is watched -/
  watched : ∀ t v : ℕ, w.vigil[t]? = some v → v ∈ w.refs
  /-- it is that of one thread -/
  single : ∀ t u v : ℕ, w.vigil[t]? = some v → w.vigil[u]? = some v → t = u

theorem wf_init : (init : ThreadWatcher α).Wf :=
  ⟨fun t v h => by simp [init] at h, fun t u v h => by simp [init] at h⟩

variable {w : ThreadWatcher α} {thread : ℕ}

theorem Wf.isWatching_iff (h : w.Wf) : w.isWatching thread = true ↔ (w.args thread).isSome := by
  rw [isWatching, args]
  rcases hv : w.vigil[thread]? with _ | v
  · simp
  · have hmem := h.watched thread v hv
    simp [hmem]

/-- A thread that is watched already is called back for as before. -/
theorem Wf.watch (h : w.Wf) (thread : ℕ) {v : ℕ} (hv : v ∉ w.refs) (x : α) :
    (w.watch thread v x).Wf ∧ ∀ u, (w.watch thread v x).args u =
      if u = thread then some ((w.args thread).getD x) else w.args u := by
  rw [ThreadWatcher.watch]
  by_cases hw : w.isWatching thread = true
  · rw [if_pos hw]
    refine ⟨h, fun u => ?_⟩
    obtain ⟨y, hy⟩ := Option.isSome_iff_exists.mp (h.isWatching_iff.mp hw)
    by_cases hu : u = thread
    · rw [if_pos hu, hu, hy, Option.getD_some]
    · rw [if_neg hu]
  · rw [if_neg hw]
    have hnone : w.args thread = none := by
      rcases ha : w.args thread with _ | y
      · rfl
      · exact absurd (h.isWatching_iff.mpr (by rw [ha]; rfl)) hw
    have hnew : ∀ u, w.vigil[u]? ≠ some v := fun u hu => hv (h.watched u v hu)
    refine ⟨⟨fun u v' hu => ?_, fun u u' v' hu hu' => ?_⟩, fun u => ?_⟩
    · simp only [BTree.get_insert] at hu
      rw [BTree.mem_insert]
      by_cases ht : thread = u
      · rw [if_pos ht] at hu
        exact .inl (Option.some.inj hu).symm
      · rw [if_neg ht] at hu
        exact .inr (h.watched u v' hu)
    · simp only [BTree.get_insert] at hu hu'
      by_cases ht : thread = u
      · by_cases ht' : thread = u'
        · exact ht.symm.trans ht'
        · rw [if_pos ht] at hu
          rw [if_neg ht', ← Option.some.inj hu] at hu'
          exact absurd hu' (hnew u')
      · rw [if_neg ht] at hu
        by_cases ht' : thread = u'
        · rw [if_pos ht'] at hu'
          rw [← Option.some.inj hu'] at hu
          exact absurd hu (hnew u)
        · rw [if_neg ht'] at hu'
          exact h.single u u' v' hu hu'
    · simp only [args, BTree.get_insert]
      by_cases ht : u = thread
      · rw [if_pos ht.symm, if_pos ht]
        rw [Option.bind_some, if_pos rfl]
        exact congrArg some (by rw [show (w.vigil[thread]?.bind (w.refs[·]?)) = none from hnone]; rfl)
      · rw [if_neg (Ne.symm ht), if_neg ht]
        rcases hu : w.vigil[u]? with _ | v'
        · rfl
        · have hne : v ≠ v' := by
            rintro rfl
            exact hnew u hu
          rw [Option.bind_some, if_neg hne, Option.bind_some]

/-- A thread that ends is called back for, and no other. -/
theorem Wf.onDeath (h : w.Wf) (thread : ℕ) :
    (w.onDeath thread).1 = w.args thread ∧ (w.onDeath thread).2.Wf ∧
      ∀ u, (w.onDeath thread).2.args u = if u = thread then none else w.args u := by
  rcases hv : w.vigil[thread]? with _ | v
  · simp only [ThreadWatcher.onDeath, hv]
    refine ⟨by simp [args, hv], h, fun u => ?_⟩
    by_cases hu : u = thread
    · rw [if_pos hu, hu, args, hv, Option.bind_none]
    · rw [if_neg hu]
  · simp only [ThreadWatcher.onDeath, hv]
    have hkept : ∀ {u v'}, (w.vigil.erase thread)[u]? = some v' →
        u ≠ thread ∧ w.vigil[u]? = some v' ∧ v ≠ v' := by
      intro u v' hu
      rw [BTree.get_erase] at hu
      split at hu
      · cases hu
      · rename_i hne
        refine ⟨Ne.symm hne, hu, ?_⟩
        rintro rfl
        exact hne (h.single thread u v hv hu)
    refine ⟨by simp [args, hv], ⟨fun u v' hu => ?_, fun u u' v' hu hu' => ?_⟩, fun u => ?_⟩
    · obtain ⟨-, hold, hne⟩ := hkept hu
      exact (BTree.mem_erase _).mpr ⟨h.watched u v' hold, Ne.symm hne⟩
    · exact h.single u u' v' (hkept hu).2.1 (hkept hu').2.1
    · simp only [args]
      by_cases ht : u = thread
      · rw [if_pos ht, BTree.get_erase, if_pos ht.symm, Option.bind_none]
      · rw [if_neg ht, BTree.get_erase_ne _ (Ne.symm ht)]
        rcases hu : w.vigil[u]? with _ | v'
        · rfl
        · have hne : v ≠ v' := by
            rintro rfl
            exact ht (h.single u thread v hu hv)
          simp only [Option.bind_some, BTree.get_erase_ne _ hne]

end ThreadWatcher

/-! ## Connections

A thread finds its connection through a thread-local attribute, and what is closed in the end is
an argument of a callback. `Wf` says that these two are the same, so that `remembered_eq` can say
of a call which threads remember what: only using the root and ending change that. -/

/-- The connections of a database handle, in one process. They are named by their ids. -/
structure Connections where
  /-- those whose `opened` is not `None` -/
  opened : TreeSet ℕ
  /-- those that have joined a transaction, and cannot be closed -/
  joined : TreeSet ℕ
  /-- `__thread_local.conn` of each thread -/
  conn : BTree ℕ ℕ
  /-- `__thread_watcher` -/
  watcher : ThreadWatcher ℕ

namespace Connections

/-- What a thread does. -/
inductive Call where
  /-- it uses `_root`; `_db.open()` would give a connection, and a new vigil has an id -/
  | root : (thread conn vigil : ℕ) → Call
  /-- it changes an object -/
  | change : (thread : ℕ) → Call
  /-- its transaction ends -/
  | finish : (thread : ℕ) → Call
  /-- `disconnect` -/
  | disconnect : (thread : ℕ) → Call
  /-- it ends -/
  | exit : (thread : ℕ) → Call
  deriving DecidableEq

/-- What it gets. -/
inductive Reply where
  /-- the root, of a connection -/
  | root : ℕ → Reply
  /-- nothing -/
  | none : Reply
  /-- `ConnectionStateError` -/
  | connectionStateError : Reply
  deriving DecidableEq

/-- Nothing is open at first. -/
def init : Connections := ⟨∅, ∅, ∅, .init⟩

/-- The connection that the thread remembers, if it is open. -/
def current (s : Connections) (thread : ℕ) : Option ℕ :=
  s.conn[thread]?.filter fun c => decide (c ∈ s.opened)

/-- `_conn_open`. -/
def connOpen (thread conn vigil : ℕ) (s : Connections) : Connections where
  opened := s.opened.insert conn
  joined := s.joined
  conn := s.conn.insert thread conn
  watcher := s.watcher.watch thread vigil conn

/-- `close` of a connection. -/
def close (conn : ℕ) (s : Connections) : Reply × Connections :=
  if conn ∈ s.joined then (.connectionStateError, s)
  else (.none, { s with opened := s.opened.erase conn })

/-- The calls of the threads, one after another. -/
def machine : Machine Connections Call Reply
  | s, .root thread conn vigil =>
    match s.current thread with
    | some c => (.root c, s)
    | none => (.root conn, s.connOpen thread conn vigil)
  | s, .change thread =>
    match s.current thread with
    | some c => (.none, { s with joined := s.joined.insert c })
    | none => (.none, s)
  | s, .finish thread =>
    match s.conn[thread]? with
    | some c => (.none, { s with joined := s.joined.erase c })
    | none => (.none, s)
  | s, .disconnect thread =>
    match s.conn[thread]? with
    | some c => s.close c
    | none => (.none, s)
  | s, .exit thread =>
    let (args, watcher) := s.watcher.onDeath thread
    let s := { s with conn := s.conn.erase thread, watcher := watcher }
    match args with
    -- an exception of the destructor is not seen
    | some c => (.none, (s.close c).2)
    | none => (.none, s)

/-- A new vigil is none of those that are watched: ids are those of one object. -/
def NewVigil (s : Connections) : Call → Prop
  | .root thread _ vigil => s.current thread = none → vigil ∉ s.watcher.refs
  | _ => True

instance (s : Connections) (call : Call) : Decidable (NewVigil s call) :=
  match call with
  | .root _ _ _ => inferInstanceAs (Decidable (_ → _))
  | .change _ | .finish _ | .disconnect _ | .exit _ => .isTrue trivial

/-- And the pool gives out connections that are not open, as it does unless one was closed twice.
A thread that disconnects and then ends closes its connection twice. -/
def Fresh (s : Connections) : Call → Prop
  | .root thread conn vigil =>
    s.current thread = none → conn ∉ s.opened ∧ vigil ∉ s.watcher.refs
  | _ => True

instance (s : Connections) (call : Call) : Decidable (Fresh s call) :=
  match call with
  | .root _ _ _ => inferInstanceAs (Decidable (_ → _))
  | .change _ | .finish _ | .disconnect _ | .exit _ => .isTrue trivial

/-- The thread has the connection, or will close it when it ends. -/
def Remembers (s : Connections) (thread conn : ℕ) : Prop :=
  s.conn[thread]? = some conn ∨ s.watcher.args thread = some conn

/-- The connection that is opened is not one that another thread remembers. -/
def Forgotten (s : Connections) : Call → Prop
  | .root thread conn _ =>
    s.current thread = none → ∀ other, s.Remembers other conn → other = thread
  | _ => True

/-- **Privacy**: no thread has a connection that another thread remembers. -/
def Private (s : Connections) : Prop :=
  ∀ thread other c : ℕ, s.conn[thread]? = some c → s.Remembers other c → other = thread

/-- No call of `disconnect`, and threads end after their transactions. -/
def Calm (s : Connections) : Call → Prop
  | .disconnect _ => False
  | .exit thread => ∀ c ∈ s.conn[thread]?, c ∉ s.joined
  | _ => True

instance (s : Connections) (call : Call) : Decidable (Calm s call) :=
  match call with
  | .disconnect _ => .isFalse id
  | .exit thread => inferInstanceAs (Decidable (∀ c ∈ s.conn[thread]?, c ∉ s.joined))
  | .root _ _ _ | .change _ | .finish _ => .isTrue trivial

/-- **The open connections are those of the threads**, one each. -/
structure Accounted (s : Connections) : Prop where
  /-- a thread has an open connection, which will be closed when it ends -/
  mine : ∀ thread c : ℕ, s.conn[thread]? = some c → c ∈ s.opened ∧ s.watcher.args thread = some c
  /-- no other thread has it -/
  own : ∀ thread other c : ℕ, s.conn[thread]? = some c → s.conn[other]? = some c → other = thread
  /-- and there are no others -/
  all : ∀ c ∈ s.opened, ∃ thread : ℕ, s.conn[thread]? = some c

variable {s : Connections}

@[simp] theorem close_conn (c : ℕ) : (s.close c).2.conn = s.conn := by
  rw [close]
  split <;> rfl

@[simp] theorem close_watcher (c : ℕ) : (s.close c).2.watcher = s.watcher := by
  rw [close]
  split <;> rfl

/-- What is closed is not open, unless it has joined a transaction. -/
theorem mem_close_opened {c d : ℕ} :
    d ∈ (s.close c).2.opened ↔ d ∈ s.opened ∧ (d = c → c ∈ s.joined) := by
  rw [close]
  by_cases hc : c ∈ s.joined
  · simp [hc]
  · rw [if_neg hc]
    simp only [TreeSet.mem_erase, hc]

theorem current_eq_some {thread c : ℕ} :
    s.current thread = some c ↔ s.conn[thread]? = some c ∧ c ∈ s.opened := by
  rw [current, Option.filter_eq_some_iff, decide_eq_true_iff]

theorem machine_root_some {thread conn vigil c : ℕ} (h : s.current thread = some c) :
    machine s (.root thread conn vigil) = (.root c, s) := by
  simp only [machine, h]

theorem machine_root_none {thread conn vigil : ℕ} (h : s.current thread = none) :
    machine s (.root thread conn vigil) = (.root conn, s.connOpen thread conn vigil) := by
  simp only [machine, h]

/-! ## What threads remember

A thread remembers what it has and what it will close at its end. Under `Wf` it is watched exactly
if it has a connection; opening one and ending are the two calls after which something else is
remembered. -/

/-- Threads are watched from when they first have a connection. -/
structure Wf (s : Connections) : Prop where
  /-- the watcher is well formed -/
  watcher : s.watcher.Wf
  /-- threads that have a connection are watched, and no others -/
  watched : ∀ thread : ℕ, s.watcher.args thread = none ↔ s.conn[thread]? = none

theorem wf_init : init.Wf :=
  ⟨ThreadWatcher.wf_init, fun thread => by simp [init, ThreadWatcher.init, ThreadWatcher.args]⟩

/-- What a thread remembers after a connection has been opened. -/
theorem Wf.connOpen (h : s.Wf) (thread conn : ℕ) {vigil : ℕ} (hv : vigil ∉ s.watcher.refs) :
    (s.connOpen thread conn vigil).Wf ∧ ∀ u,
      (s.connOpen thread conn vigil).watcher.args u =
        if u = thread then some ((s.watcher.args thread).getD conn) else s.watcher.args u := by
  obtain ⟨hwf, hargs⟩ := h.watcher.watch thread hv conn
  refine ⟨⟨hwf, fun u => ?_⟩, hargs⟩
  rw [Connections.connOpen, hargs, BTree.get_insert]
  by_cases hu : u = thread
  · rw [if_pos hu, if_pos hu.symm]
    exact iff_of_false (Option.some_ne_none _) (Option.some_ne_none _)
  · rw [if_neg hu, if_neg (Ne.symm hu)]
    exact h.watched u

/-- And after a thread has ended. -/
theorem Wf.exit (h : s.Wf) (thread : ℕ) :
    (machine s (.exit thread)).2.Wf ∧
      (machine s (.exit thread)).2.conn = s.conn.erase thread ∧
      (∀ u, (machine s (.exit thread)).2.watcher.args u =
        if u = thread then none else s.watcher.args u) ∧
      ∀ d, d ∈ (machine s (.exit thread)).2.opened ↔
        d ∈ s.opened ∧ (s.watcher.args thread = some d → d ∈ s.joined) := by
  obtain ⟨hfst, hwf, hargs⟩ := h.watcher.onDeath thread
  have hwatched : ∀ u, (s.watcher.onDeath thread).2.args u = none ↔ (s.conn.erase thread)[u]? = none := by
    intro u
    rw [hargs, BTree.get_erase]
    by_cases hu : u = thread
    · rw [if_pos hu, if_pos hu.symm]
    · rw [if_neg hu, if_neg (Ne.symm hu)]
      exact h.watched u
  let s' : Connections := { s with
    conn := s.conn.erase thread, watcher := (s.watcher.onDeath thread).2 }
  rcases ha : s.watcher.args thread with _ | c <;> rw [ha] at hfst
  · have hrun : (machine s (.exit thread)).2 = s' := by simp only [machine, hfst, s']
    rw [hrun]
    exact ⟨⟨hwf, hwatched⟩, rfl, hargs, fun d => (and_iff_left fun hd => by cases hd).symm⟩
  · have hrun : (machine s (.exit thread)).2 = (s'.close c).2 := by simp only [machine, hfst, s']
    have hopened : ∀ d, d ∈ (s'.close c).2.opened ↔ d ∈ s.opened ∧ (some c = some d → d ∈ s.joined) := by
      intro d
      rw [mem_close_opened, Option.some.injEq]
      refine and_congr_right fun _ => ⟨?_, ?_⟩
      · rintro hj rfl
        exact hj rfl
      · rintro hj rfl
        exact hj rfl
    rw [hrun]
    refine ⟨⟨?_, ?_⟩, close_conn c, ?_, hopened⟩
    · rw [close_watcher]
      exact hwf
    · rw [close_watcher, close_conn]
      exact hwatched
    · rw [close_watcher]
      exact hargs

/-- What threads remember after a connection has been opened: its thread has it, and goes on to
close the one that it was to close before, if any. -/
theorem Wf.remembers_connOpen (h : s.Wf) {thread conn vigil : ℕ} (hv : vigil ∉ s.watcher.refs)
    {u x : ℕ} : (s.connOpen thread conn vigil).Remembers u x ↔
      if u = thread then x = conn ∨ s.watcher.args thread = some x else s.Remembers u x := by
  have hargs := (h.connOpen thread conn hv).2 u
  have hconn : (s.connOpen thread conn vigil).conn[u]? =
      if thread = u then some conn else s.conn[u]? := BTree.get_insert _
  rw [Remembers, hconn, hargs]
  by_cases hu : u = thread
  · rw [if_pos hu.symm, if_pos hu, if_pos hu]
    rcases s.watcher.args thread with _ | y <;> simp [eq_comm]
  · rw [if_neg (Ne.symm hu), if_neg hu, if_neg hu, Remembers]

/-- A thread that has ended remembers nothing. -/
theorem Wf.remembers_exit (h : s.Wf) {thread u x : ℕ} :
    (machine s (.exit thread)).2.Remembers u x ↔ u ≠ thread ∧ s.Remembers u x := by
  obtain ⟨-, hconn, hargs, -⟩ := h.exit thread
  rw [Remembers, hconn, hargs, BTree.get_erase]
  by_cases hu : u = thread
  · simp [hu]
  · simp [Ne.symm hu, hu, Remembers]

/-- The thread does not use the root, nor end. -/
def Call.isOther : Call → Bool
  | .change _ | .finish _ | .disconnect _ => true
  | .root _ _ _ | .exit _ => false

/-- Other calls leave what threads remember. -/
theorem remembered_eq {call : Call} (h : call.isOther = true) :
    (machine s call).2.conn = s.conn ∧ (machine s call).2.watcher = s.watcher := by
  cases call with
  | root t c v => cases h
  | exit t => cases h
  | change t =>
    simp only [machine]
    split <;> exact ⟨rfl, rfl⟩
  | finish t =>
    simp only [machine]
    split <;> exact ⟨rfl, rfl⟩
  | disconnect t =>
    simp only [machine]
    split
    · exact ⟨close_conn _, close_watcher _⟩
    · exact ⟨rfl, rfl⟩

theorem Wf.congr {s' : Connections} (h : s.Wf) (heq : s'.conn = s.conn ∧ s'.watcher = s.watcher) :
    s'.Wf :=
  ⟨by rw [heq.2]; exact h.watcher, by rw [heq.1, heq.2]; exact h.watched⟩

theorem Fresh.newVigil {call : Call} (h : Fresh s call) : NewVigil s call := by
  cases call with
  | root thread conn vigil => exact fun hcur => (h hcur).2
  | change thread | finish thread | disconnect thread | exit thread => exact trivial

theorem Wf.step (h : s.Wf) {call : Call} (hv : NewVigil s call) : (machine s call).2.Wf := by
  cases call with
  | root t c v =>
    rcases hcur : s.current t with _ | d
    · rw [machine_root_none hcur]
      exact (h.connOpen t c (hv hcur)).1
    · rw [machine_root_some hcur]
      exact h
  | exit t => exact (h.exit t).1
  | change t | finish t | disconnect t => exact h.congr (remembered_eq rfl)

/-! ## Privacy

Privacy depends on what threads remember, and so a call can only break it by opening a connection.
It does if another thread remembers the connection, and this is the case at once: hence the
equivalence. -/

theorem private_congr {s' : Connections} (heq : s'.conn = s.conn ∧ s'.watcher = s.watcher) :
    s'.Private ↔ s.Private := by
  rw [Private, Private]
  simp only [Remembers, heq.1, heq.2]

/-- **One call** keeps privacy exactly if the connection that it opens is forgotten. -/
theorem private_step (hw : s.Wf) {call : Call} (hv : NewVigil s call) (hp : s.Private) :
    (machine s call).2.Private ↔ Forgotten s call := by
  cases call with
  | root t c v =>
    rcases hcur : s.current t with _ | d
    · have hconn : ∀ u, (s.connOpen t c v).conn[u]? = if t = u then some c else s.conn[u]? :=
        fun u => BTree.get_insert _
      have hremembers : ∀ {u x}, (s.connOpen t c v).Remembers u x ↔
          if u = t then x = c ∨ s.watcher.args t = some x else s.Remembers u x :=
        hw.remembers_connOpen (hv hcur)
      rw [machine_root_none hcur]
      refine ⟨fun h _ other hother => ?_, fun h a b x hx hb => ?_⟩
      · by_contra hne
        refine hne (h t other c (by rw [hconn, if_pos rfl]) (hremembers.mpr ?_))
        rwa [if_neg hne]
      · rw [hconn] at hx
        rw [hremembers] at hb
        by_cases ha : t = a
        · -- the connection that has been opened
          rw [if_pos ha, Option.some.injEq] at hx
          subst ha hx
          by_contra hne
          rw [if_neg hne] at hb
          exact hne (h hcur b hb)
        · rw [if_neg ha] at hx
          split at hb
          · rename_i hbt
            subst hbt
            rcases hb with rfl | hb
            · exact absurd (h hcur a (.inl hx)).symm ha
            · exact hp a b x hx (.inr hb)
          · exact hp a b x hx hb
    · rw [machine_root_some hcur]
      refine iff_of_true hp fun hnone => ?_
      rw [hcur] at hnone
      cases hnone
  | exit t =>
    refine iff_of_true (fun a b x hx hb => ?_) trivial
    rw [(hw.exit t).2.1, BTree.get_erase] at hx
    split at hx
    · cases hx
    · exact hp a b x hx (hw.remembers_exit.mp hb).2
  | change t | finish t | disconnect t =>
    exact iff_of_true ((private_congr (remembered_eq rfl)).mpr hp) trivial

theorem private_init : init.Private := fun t u c h => by simp [init] at h

/-- **Privacy, exactly**: whatever the threads do, in whatever order, and whatever the pool gives
out, no thread has a connection that another one remembers in any state of a run if and only if
the pool gives out no connection that another thread remembers, be it open or disconnected. -/
theorem private_iff (calls : List Call) (h : machine.Along NewVigil init calls) :
    (∀ s ∈ machine.states init calls, Private s) ↔ machine.Along Forgotten init calls :=
  h.states_inv_iff (fun s _ (hw : Wf s) hv => hw.step hv) (fun _ _ hw hv hp => private_step hw hv hp)
    wf_init private_init

/-- Two threads get connections, one of them disconnects, and a third one gets a new one. -/
theorem private_iff_example :
    (∀ s ∈ machine.states init
        [.root 1 10 100, .root 2 11 200, .disconnect 1, .root 3 12 300, .exit 1, .root 2 13 400],
      Private s) ↔
    machine.Along Forgotten init
      [.root 1 10 100, .root 2 11 200, .disconnect 1, .root 3 12 300, .exit 1, .root 2 13 400] :=
  private_iff _ (by decide +kernel)

/-- One thread disconnects, another gets its connection, and both use it. -/
example :
    machine.outputs init [.root 1 10 100, .disconnect 1, .root 2 10 200, .root 1 11 101] =
      [.root 10, .none, .root 10, .root 10] := by decide +kernel

/-- A thread disconnects and ends; its connection, closed twice, is given out twice. -/
example :
    machine.outputs init [.root 1 10 100, .disconnect 1, .exit 1, .root 2 10 200, .root 3 10 300] =
      [.root 10, .none, .none, .root 10, .root 10] := by decide +kernel

/-! ## A thread keeps its connection

Other threads can close a connection only if they remember it. In a private run none of them does.
-/

/-- In privacy, calls of other threads leave a thread its open connection. -/
theorem keeps_current (hw : s.Wf) (hp : s.Private) {call : Call} {thread c : ℕ}
    (h : s.current thread = some c) (hdisconnect : call ≠ .disconnect thread)
    (hexit : call ≠ .exit thread) : (machine s call).2.current thread = some c := by
  obtain ⟨hc, hopened⟩ := current_eq_some.mp h
  refine current_eq_some.mpr ?_
  cases call with
  | root t c' v =>
    rcases hcur : s.current t with _ | d
    · rw [machine_root_none hcur]
      have hne : t ≠ thread := by
        rintro rfl
        rw [hcur] at h
        cases h
      refine ⟨?_, (TreeSet.mem_insert _).mpr (.inr hopened)⟩
      rw [connOpen, BTree.get_insert_ne _ hne]
      exact hc
    · rw [machine_root_some hcur]
      exact ⟨hc, hopened⟩
  | exit t =>
    have hne : t ≠ thread := fun heq => hexit (heq ▸ rfl)
    obtain ⟨-, hconn, -, hmem⟩ := hw.exit t
    refine ⟨by rw [hconn, BTree.get_erase_ne _ hne]; exact hc, (hmem c).mpr ⟨hopened, fun ha => ?_⟩⟩
    exact absurd (hp thread t c hc (.inr ha)) hne
  | disconnect t =>
    have hne : t ≠ thread := fun heq => hdisconnect (heq ▸ rfl)
    refine ⟨by rw [(remembered_eq rfl).1]; exact hc, ?_⟩
    simp only [machine]
    split
    · rename_i d hd
      refine mem_close_opened.mpr ⟨hopened, fun heq => ?_⟩
      exact absurd (hp thread t c hc (.inl (heq ▸ hd))) hne
    · exact hopened
  | change t =>
    refine ⟨by rw [(remembered_eq rfl).1]; exact hc, ?_⟩
    simp only [machine]
    split <;> exact hopened
  | finish t =>
    refine ⟨by rw [(remembered_eq rfl).1]; exact hc, ?_⟩
    simp only [machine]
    split <;> exact hopened

/-- What `_root` gives is the root of the connection that the thread has from then on. -/
theorem root_current {thread conn vigil : ℕ} : ∃ c,
    (machine s (.root thread conn vigil)).1 = .root c ∧
      (machine s (.root thread conn vigil)).2.current thread = some c := by
  rcases hcur : s.current thread with _ | c
  · rw [machine_root_none hcur]
    refine ⟨conn, rfl, current_eq_some.mpr ⟨?_, (TreeSet.mem_insert _).mpr (.inl rfl)⟩⟩
    exact (BTree.get_insert _).trans (if_pos rfl)
  · rw [machine_root_some hcur]
    exact ⟨c, rfl, hcur⟩

/-- What is kept along a run in which every opened connection is forgotten. -/
theorem keeps_run {calls : List Call} {thread c : ℕ} (hw : s.Wf) (hp : s.Private)
    (h : machine.Along (fun s call => NewVigil s call ∧ Forgotten s call) s calls)
    (hcur : s.current thread = some c)
    (hkeep : ∀ call ∈ calls, call ≠ .disconnect thread ∧ call ≠ .exit thread) :
    (machine.final s calls).current thread = some c := by
  induction calls generalizing s with
  | nil => exact hcur
  | cons call calls ih =>
    obtain ⟨⟨hv, hforgotten⟩, hrest⟩ := h
    obtain ⟨⟨hd, he⟩, hkeep⟩ := List.forall_mem_cons.mp hkeep
    exact ih (hw.step hv) ((private_step hw hv hp).mpr hforgotten) hrest
      (keeps_current hw hp hcur hd he) hkeep

/-- **A thread keeps its connection**: whatever other threads do in between, a thread that neither
disconnects nor ends uses the same connection, if the pool gives out forgotten ones only. -/
theorem steady (calls between : List Call) (thread conn conn' vigil vigil' : ℕ)
    (h : machine.Along (fun s call => NewVigil s call ∧ Forgotten s call) init
      (calls ++ .root thread conn vigil :: between))
    (hkeep : ∀ call ∈ between, call ≠ .disconnect thread ∧ call ≠ .exit thread) :
    (machine (machine.final init (calls ++ .root thread conn vigil :: between))
        (.root thread conn' vigil')).1 =
      (machine (machine.final init calls) (.root thread conn vigil)).1 := by
  obtain ⟨hcalls, ⟨hv, hforgotten⟩, hbetween⟩ := Machine.along_append.mp h
  have hinv : ∀ s ∈ machine.states init calls, Wf s ∧ Private s :=
    hcalls.states_inv (fun s call hs hok => ⟨hs.1.step hok.1, (private_step hs.1 hok.1 hs.2).mpr hok.2⟩)
      ⟨wf_init, private_init⟩
  obtain ⟨hw, hp⟩ := hinv _ (Machine.final_mem_states _ _ _)
  obtain ⟨c, hreply, hcur⟩ := @root_current (machine.final init calls) thread conn vigil
  have hlast := keeps_run (hw.step hv) ((private_step hw hv hp).mpr hforgotten) hbetween hcur hkeep
  rw [Machine.final_append, Machine.final_cons, machine_root_some hlast, hreply]

/-! ## What is open

The other direction of the account: that a connection which nobody has is not open. A thread that
disconnects goes on remembering a closed connection, and one that ends in a transaction leaves its
own open, so that the runs are those without either. -/

/-- In such a state threads remember no more than the connections they have. -/
theorem Accounted.conn_of_remembers (ha : s.Accounted) (hw : s.Wf) {thread c : ℕ}
    (h : s.Remembers thread c) : s.conn[thread]? = some c := by
  rcases h with h | h
  · exact h
  · rcases hconn : s.conn[thread]? with _ | d
    · rw [(hw.watched thread).mpr hconn] at h
      cases h
    · exact (ha.mine thread d hconn).2.symm.trans h

/-- A connection that is not open is forgotten then. -/
theorem Accounted.forgotten (ha : s.Accounted) (hw : s.Wf) {call : Call} (hf : Fresh s call) :
    Forgotten s call := by
  cases call with
  | root t c v =>
    intro hcur other hc
    exact absurd (ha.mine other c (ha.conn_of_remembers hw hc)).1 (hf hcur).1
  | change t | finish t | disconnect t | exit t => trivial

theorem Accounted.congr {s' : Connections} (ha : s.Accounted)
    (heq : s'.conn = s.conn ∧ s'.watcher = s.watcher) (hopened : s'.opened = s.opened) :
    s'.Accounted :=
  ⟨by rw [heq.1, heq.2, hopened]; exact ha.mine, by rw [heq.1]; exact ha.own,
    by rw [heq.1, hopened]; exact ha.all⟩

/-- A thread that has no connection gets one. -/
theorem Accounted.connOpen (ha : s.Accounted) (hw : s.Wf) {t c v : ℕ}
    (hf : Fresh s (.root t c v)) (hcur : s.current t = none) : (s.connOpen t c v).Accounted := by
  obtain ⟨hc, hv⟩ := hf hcur
  obtain ⟨-, hargs⟩ := hw.connOpen t c hv
  have hnone : s.conn[t]? = none := by
    rcases hconn : s.conn[t]? with _ | d
    · rfl
    · rw [current_eq_some.mpr ⟨hconn, (ha.mine t d hconn).1⟩] at hcur
      cases hcur
  have hconn : ∀ u, (s.connOpen t c v).conn[u]? = if t = u then some c else s.conn[u]? :=
    fun u => BTree.get_insert _
  have hold : ∀ {u x : ℕ}, s.conn[u]? = some x → x ≠ c := by
    rintro u x hx rfl
    exact hc (ha.mine u x hx).1
  refine ⟨fun u x hx => ?_, fun a b x hx hb => ?_, fun x hx => ?_⟩
  · rw [hconn] at hx
    rw [hargs]
    by_cases hu : t = u
    · rw [if_pos hu, Option.some.injEq] at hx
      rw [if_pos hu.symm, (hw.watched t).mpr hnone, ← hx]
      exact ⟨(TreeSet.mem_insert _).mpr (.inl rfl), rfl⟩
    · rw [if_neg hu] at hx
      rw [if_neg (Ne.symm hu)]
      obtain ⟨hopened, hx⟩ := ha.mine u x hx
      exact ⟨(TreeSet.mem_insert _).mpr (.inr hopened), hx⟩
  · rw [hconn] at hx hb
    split at hx
    · split at hb
      · rename_i hta htb
        exact htb.symm.trans hta
      · exact absurd (Option.some.inj hx).symm (hold hb)
    · split at hb
      · exact absurd (Option.some.inj hb).symm (hold hx)
      · exact ha.own a b x hx hb
  · rcases (TreeSet.mem_insert _).mp hx with rfl | hx
    · exact ⟨t, by rw [hconn, if_pos rfl]⟩
    · obtain ⟨u, hu⟩ := ha.all x hx
      refine ⟨u, ?_⟩
      rw [hconn, if_neg]
      · exact hu
      · rintro rfl
        rw [hnone] at hu
        cases hu

/-- A thread that ends has closed its connection. -/
theorem Accounted.exit (ha : s.Accounted) (hw : s.Wf) {t : ℕ} (hcalm : Calm s (.exit t)) :
    (machine s (.exit t)).2.Accounted := by
  obtain ⟨-, hconn, hargs, hmem⟩ := hw.exit t
  have hkept : ∀ {u x : ℕ}, (s.conn.erase t)[u]? = some x → u ≠ t ∧ s.conn[u]? = some x := by
    intro u x hx
    rw [BTree.get_erase] at hx
    split at hx
    · cases hx
    · rename_i hne
      exact ⟨Ne.symm hne, hx⟩
  refine ⟨fun u x hx => ?_, fun a b x hx hb => ?_, fun x hx => ?_⟩
  · rw [hconn] at hx
    obtain ⟨hu, hx⟩ := hkept hx
    obtain ⟨hopened, hwatched⟩ := ha.mine u x hx
    rw [hmem, hargs, if_neg hu]
    refine ⟨⟨hopened, fun ht => ?_⟩, hwatched⟩
    rcases hct : s.conn[t]? with _ | y
    · rw [(hw.watched t).mpr hct] at ht
      cases ht
    · obtain rfl := Option.some.inj ((ha.mine t y hct).2.symm.trans ht)
      exact absurd (ha.own u t y hx hct).symm hu
  · rw [hconn] at hx hb
    exact ha.own a b x (hkept hx).2 (hkept hb).2
  · obtain ⟨hopened, hclosed⟩ := (hmem x).mp hx
    obtain ⟨u, hu⟩ := ha.all x hopened
    refine ⟨u, ?_⟩
    rw [hconn, BTree.get_erase_ne]
    · exact hu
    · rintro rfl
      exact hcalm x hu (hclosed (ha.mine t x hu).2)

/-- **One call** without `disconnect` keeps account of the connections. -/
theorem Accounted.step (ha : s.Accounted) (hw : s.Wf) {call : Call} (hf : Fresh s call)
    (hcalm : Calm s call) : (machine s call).2.Accounted := by
  cases call with
  | root t c v =>
    rcases hcur : s.current t with _ | d
    · rw [machine_root_none hcur]
      exact ha.connOpen hw hf hcur
    · rw [machine_root_some hcur]
      exact ha
  | exit t => exact ha.exit hw hcalm
  | disconnect t => exact absurd hcalm id
  | change t | finish t =>
    refine ha.congr (remembered_eq rfl) ?_
    simp only [machine]
    split <;> rfl

theorem accounted_init : Wf init ∧ Accounted init := by
  refine ⟨wf_init, fun t c hc => ?_, fun t u c hc => ?_, fun c hc => ?_⟩
  · simp [init] at hc
  · simp [init] at hc
  · simp [init] at hc

theorem accounted_step {call : Call} (hs : Wf s ∧ Accounted s) (hok : Fresh s call ∧ Calm s call) :
    Wf (machine s call).2 ∧ Accounted (machine s call).2 :=
  ⟨hs.1.step hok.1.newVigil, hs.2.step hs.1 hok.1 hok.2⟩

/-- A connection that is accounted for is remembered by its thread only. -/
theorem Accounted.private (ha : s.Accounted) (hw : s.Wf) : s.Private :=
  fun thread other c hc hother => ha.own thread other c hc (ha.conn_of_remembers hw hother)

/-- Without `disconnect` the connections that are opened are forgotten. -/
theorem forgotten_of_calm {calls : List Call}
    (h : machine.Along (fun s call => Fresh s call ∧ Calm s call) init calls) :
    machine.Along (fun s call => NewVigil s call ∧ Forgotten s call) init calls :=
  h.imp (fun s _ (hs : Wf s ∧ Accounted s) hok => accounted_step hs hok)
    (fun _ _ hs hok => ⟨hok.1.newVigil, hs.2.forgotten hs.1 hok.1⟩) accounted_init

/-- **Every connection is accounted for**: as long as no thread disconnects, and threads end after
their transactions, the open connections are in every state those of the threads that use the
database, one each, and each will be closed when its thread ends. -/
theorem accounted (calls : List Call)
    (h : machine.Along (fun s call => Fresh s call ∧ Calm s call) init calls) :
    ∀ s ∈ machine.states init calls, Accounted s ∧ Private s := by
  intro s hs
  obtain ⟨hw, ha⟩ := h.states_inv
    (fun s _ (hs : Wf s ∧ Accounted s) hok => accounted_step hs hok) accounted_init s hs
  exact ⟨ha, ha.private hw⟩

/-- Two threads use the database; one changes an object, commits and ends; a third one comes. -/
theorem accounted_example :
    let s := machine.final init [.root 1 10 100, .root 2 11 200, .change 1, .root 1 12 101, .finish 1,
      .exit 1, .root 3 10 100, .root 2 12 201]
    Accounted s ∧ Private s :=
  accounted _ (by decide +kernel) _ (Machine.final_mem_states _ _ _)

/-- The second one keeps its connection when the first one ends. -/
theorem steady_example :
    (machine (machine.final init ([.root 1 10 100] ++
        .root 2 11 200 :: [.exit 1, .root 3 10 100])) (.root 2 12 201)).1 =
      (machine (machine.final init [.root 1 10 100]) (.root 2 11 200)).1 :=
  steady [.root 1 10 100] [.exit 1, .root 3 10 100] 2 11 12 200 201
    (forgotten_of_calm (by decide +kernel)) (by decide)

end Connections

end Zerodb
