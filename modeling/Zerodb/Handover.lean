import Zerodb.OwnerStorage
import Zerodb.Run

/-!
# Hand-over: whose an object is in the course of a history

A user's root folder is first written by the administrator; its user may read it, because
its id is the user's, and takes it over by writing it. From then on the administrator has
no access to what is written.

Except for the shared root this is the only way an object changes hands: a store needs the
tag of the latest revision, or the id of the object (`Succession.step`). So the writers of an
object are its creator for a while and then, if at all, the user whose root it is
(`handed_over`), and who is refused a revision is refused all later ones (`access_lost`).
-/

namespace Zerodb

universe u

/-! ## Successions

The writers of an object form a list, the latest first. A step of the storage can only extend it
by the last writer or by the heir, the user whose root it is. Such a list is a run of one writer
followed by a run of the heir, which is a fact about lists (`replicate_of_pairwise`). -/

/-- `y` comes after `x` in a succession that only `heir` may enter. -/
def Follows {α : Type*} (heir : α) (x y : α) : Prop := y = x ∨ y = heir

theorem Follows.trans {α : Type*} {heir x y z : α} (hxy : Follows heir x y)
    (hyz : Follows heir y z) : Follows heir x z := by
  rcases hyz with rfl | rfl
  · exact hxy
  · exact .inr rfl

instance {α : Type*} (heir : α) : Trans (Follows heir) (Follows heir) (Follows heir) :=
  ⟨Follows.trans⟩

/-- Once the heir has come, nobody else does. -/
theorem eq_replicate_of_follows {α : Type*} {heir : α} {l : List α}
    (h : ∀ x ∈ l, Follows heir heir x) : l = List.replicate l.length heir :=
  List.eq_replicate_of_mem fun x hx => (h x hx).elim id id

/-- A succession is one run of its first member and one of the heir. -/
theorem replicate_of_pairwise {α : Type*} {heir x : α} {l : List α}
    (h : (x :: l).Pairwise (Follows heir)) :
    ∃ n m, x :: l = List.replicate (n + 1) x ++ List.replicate m heir := by
  induction l with
  | nil => exact ⟨0, 0, rfl⟩
  | cons y l ih =>
    obtain ⟨hx, hy⟩ := List.pairwise_cons.mp h
    rcases hx y (List.mem_cons_self ..) with rfl | rfl
    · obtain ⟨n, m, hl⟩ := ih hy
      refine ⟨n + 1, m, ?_⟩
      rw [hl, List.replicate_succ (n := n + 1), List.cons_append]
    · have hrest : y :: l = List.replicate (y :: l).length y :=
        eq_replicate_of_follows fun z hz => by
          rcases List.mem_cons.mp hz with rfl | hz
          · exact .inl rfl
          · exact (List.pairwise_cons.mp hy).1 z hz
      exact ⟨0, (y :: l).length, by rw [← hrest]; rfl⟩

namespace Server

variable {σ : Type u} {B : BaseStorage σ}

/-- Every revision of an object but the shared root is by the writer of an earlier one, or
by the user whose root it is. -/
def Succession (sv : Server σ) : Prop :=
  ∀ oid, oid ≠ z64 → (sv.writes oid).Pairwise fun w w' => Follows oid w.user w'.user

theorem succession_init : Succession (init B) := by
  intro oid _
  simp [init, writes]

/-- A store goes through only if the latest revision is the user's, or the object is. -/
theorem Tagged.follows_of_store {sv : Server σ} (h : Tagged B sv) {user oid : Oid}
    {serial tid : ℕ} {data : Bytes} {base : σ} {w : Stored} (hoid : oid ≠ z64)
    (hw : sv.lastWriter oid = some w)
    (hst : OwnerStorage.store B user sv.base oid serial data = .ok (tid, base)) :
    Follows oid w.user user := by
  obtain ⟨hcheck, -⟩ := store_ok hst
  rw [OwnerStorage.checkStore, h.loadBefore_maxtid hw] at hcheck
  have hp : Permitted user oid (w.data ++ w.user.bytes) := by
    by_contra hn
    have hrefused : checkPermissions user (w.data ++ w.user.bytes) oid =
        .error (.storageError (accessMessage oid user)) := if_neg hn
    exact Except.noConfusion rfl rfl (heq_of_eq (hrefused.symm.trans hcheck))
  rcases permitted_tag_iff.mp hp with huser | huser | hz
  · exact .inl huser.symm
  · exact .inr huser.symm
  · exact absurd hz hoid

/-- One call keeps the succession. -/
theorem Succession.step {sv : Server σ} (h : Succession sv) (ht : Tagged B sv) (c : Call) :
    Succession (machine B sv c).2 := by
  cases c with
  | loadBefore user oid tid => exact h
  | store user oid serial data =>
    rcases hst : OwnerStorage.store B user sv.base oid serial data with e | ⟨tid, base⟩ <;>
      simp only [machine, hst]
    · exact h
    · intro o ho
      rw [writes_append]
      by_cases heq : oid = o
      · subst heq
        rw [if_pos rfl, ← List.isChain_iff_pairwise, List.isChain_append]
        refine ⟨List.isChain_iff_pairwise.mpr (h oid ho), List.isChain_singleton _, ?_⟩
        intro w hw w' hw'
        obtain rfl := Option.some.inj hw'
        exact ht.follows_of_store ho hw hst
      · rw [if_neg heq]
        exact h o ho

/-- Both invariants, in every state of every history. -/
theorem succession_states (calls : List Call) :
    ∀ sv ∈ (machine B).states (init B) calls, Tagged B sv ∧ Succession sv :=
  Machine.states_inv (fun _ c hs => ⟨hs.1.step c, hs.2.step hs.1 c⟩)
    ⟨tagged_init, succession_init⟩ calls

/-- **Hand-over**: in every history, the revisions of an object other than the shared root
are first written by its creator and then, if at all, only by the user whose root folder it
is. -/
theorem handed_over (calls : List Call) :
    ∀ sv ∈ (machine B).states (init B) calls, ∀ oid, oid ≠ z64 →
      ∀ creator, (sv.writes oid).head? = some creator →
        ∃ n m, (sv.writes oid).map Stored.user =
          List.replicate (n + 1) creator.user ++ List.replicate m oid := by
  intro sv hsv oid hoid creator hhead
  obtain ⟨rest, hws⟩ := List.head?_eq_some_iff.mp hhead
  have hpairs := (succession_states calls sv hsv).2 oid hoid
  rw [hws] at hpairs ⊢
  rw [List.map_cons]
  apply replicate_of_pairwise
  rw [← List.map_cons (f := Stored.user)]
  exact List.pairwise_map.mpr hpairs

/-- The administrator creates a user's root folder, and the user takes it over. -/
theorem handed_over_example :
    let calls : List Call := [.store (p64 2) (p64 5) 0 [1], .store (p64 5) (p64 5) 1 [2]]
    let sv := (machine MemoryStorage.base).final (init MemoryStorage.base) calls
    ∃ n m, (sv.writes (p64 5)).map Stored.user =
      List.replicate (n + 1) (p64 2) ++ List.replicate m (p64 5) := by
  intro calls sv
  have hsv : sv ∈ (machine MemoryStorage.base).states (init MemoryStorage.base) calls :=
    Machine.final_mem_states _ _ _
  have hhead : (sv.writes (p64 5)).head? = some ⟨1, p64 5, p64 2, [1]⟩ := by rfl
  exact handed_over calls sv hsv (p64 5) (by decide) ⟨1, p64 5, p64 2, [1]⟩ hhead

/-! ## Losing access

A load is refused if someone else wrote the revision that it finds. In a succession every later
writer is then someone else, too: only the heir may follow, and the heir is never refused. -/

/-- What a load answers, in terms of the stores that took effect. -/
theorem Tagged.loadBefore_eq {sv : Server σ} (h : Tagged B sv) (user oid : Oid) (tid : ℕ) :
    OwnerStorage.loadBefore B user sv.base oid tid =
      if (sv.writes oid).isEmpty then .error .posKeyError
      else
        match ((sv.writes oid).filter (·.tid < tid)).getLast? with
        | none => .ok none
        | some w =>
          if w.user = user ∨ oid = user ∨ oid = z64 then
            .ok (some (w.data, w.tid, ((sv.writes oid).find? (tid ≤ ·.tid)).map (·.tid)))
          else .error (.storageError (accessMessage oid user)) := by
  rw [OwnerStorage.loadBefore, B.loadBefore_eq, h.revisions_eq, loadRevision_map]
  by_cases hempty : (sv.writes oid).isEmpty
  · rw [if_pos hempty, if_pos hempty]
  · rw [if_neg hempty, if_neg hempty]
    rcases hlast : ((sv.writes oid).filter (·.tid < tid)).getLast? with _ | w
    · have hrev : ((sv.writes oid).filter fun w => w.revision.tid < tid).getLast? = none := hlast
      simp only [hrev, hlast]
    · have hrev : ((sv.writes oid).filter fun w => w.revision.tid < tid).getLast? = some w := hlast
      simp only [hrev, hlast]
      by_cases hp : w.user = user ∨ oid = user ∨ oid = z64
      · have hcheck : checkPermissions user w.revision.data oid = .ok () :=
          if_pos (permitted_tag_iff.mpr hp)
        have hstrip : stripOwner user w.revision.data = w.data := stripOwner_tag _ _ _
        rw [if_pos hp, hcheck, hstrip]
        rfl
      · have hcheck : checkPermissions user w.revision.data oid =
            .error (.storageError (accessMessage oid user)) := if_neg (permitted_tag_iff.not.mpr hp)
        rw [if_neg hp, hcheck]

/-- When a load is refused: someone else wrote what it finds. -/
theorem Tagged.refused_iff {sv : Server σ} (h : Tagged B sv) {user oid : Oid} (tid : ℕ) :
    (∃ m, OwnerStorage.loadBefore B user sv.base oid tid = .error (.storageError m)) ↔
      ∃ w, ((sv.writes oid).filter (·.tid < tid)).getLast? = some w ∧
        ¬(w.user = user ∨ oid = user ∨ oid = z64) := by
  rw [h.loadBefore_eq]
  refine ⟨?_, ?_⟩
  · rintro ⟨m, hm⟩
    split at hm
    · cases hm
    · split at hm
      · cases hm
      · rename_i w hw
        refine ⟨w, hw, fun hp => ?_⟩
        rw [if_pos hp] at hm
        cases hm
  · rintro ⟨w, hw, hn⟩
    have hne : ¬(sv.writes oid).isEmpty = true := by
      rw [List.isEmpty_iff]
      exact List.ne_nil_of_mem (List.mem_of_mem_filter (List.mem_of_getLast? hw))
    exact ⟨accessMessage oid user, by rw [if_neg hne, hw]; exact if_neg hn⟩

/-- A call only adds to what was written. -/
theorem writes_step (sv : Server σ) (c : Call) (oid : Oid) :
    ∃ more, (machine B sv c).2.writes oid = sv.writes oid ++ more := by
  cases c with
  | loadBefore user oid' tid => exact ⟨[], (List.append_nil _).symm⟩
  | store user oid' serial data =>
    rcases hst : OwnerStorage.store B user sv.base oid' serial data with e | ⟨tid, base⟩ <;>
      simp only [machine, hst]
    · exact ⟨[], (List.append_nil _).symm⟩
    · rw [writes_append]
      by_cases ho : oid' = oid
      · exact ⟨_, if_pos ho⟩
      · exact ⟨[], by rw [if_neg ho, List.append_nil]⟩

theorem writes_final (sv : Server σ) (calls : List Call) (oid : Oid) :
    ∃ more, ((machine B).final sv calls).writes oid = sv.writes oid ++ more := by
  induction calls generalizing sv with
  | nil => exact ⟨[], (List.append_nil _).symm⟩
  | cons c calls ih =>
    obtain ⟨first, hfirst⟩ := writes_step (B := B) sv c oid
    obtain ⟨more, hmore⟩ := ih (machine B sv c).2
    exact ⟨first ++ more, by rw [Machine.final_cons, hmore, hfirst, List.append_assoc]⟩

/-- In a succession, the last of some members follows each of them. -/
theorem follows_getLast {α : Type*} {R : α → α → Prop} {l : List α} {x y : α}
    (hR : l.Pairwise R) (hx : x ∈ l) (hy : l.getLast? = some y) : x = y ∨ R x y := by
  obtain ⟨init, rfl⟩ := List.getLast?_eq_some_iff.mp hy
  rcases List.mem_append.mp hx with hx | hx
  · exact .inr ((List.pairwise_append.mp hR).2.2 x hx y (List.mem_singleton_self y))
  · exact .inl (List.mem_singleton.mp hx)

/-- **Access is lost for good**: if a user is refused an object as of some transaction id, then
after any further calls the user is refused it as of every later transaction id, too; only the
user whose root folder it is, and the shared root, are exempt. -/
theorem access_lost (calls later : List Call) (user oid : Oid) (tid tid' : ℕ)
    (hle : tid ≤ tid')
    (hrefused : ∃ m, OwnerStorage.loadBefore B user ((machine B).final (init B) calls).base oid tid =
      .error (.storageError m)) :
    ∃ m, OwnerStorage.loadBefore B user ((machine B).final (init B) (calls ++ later)).base oid tid' =
      .error (.storageError m) := by
  obtain ⟨ht, -⟩ := succession_states (B := B) calls _ (Machine.final_mem_states _ _ _)
  obtain ⟨ht', hs'⟩ := succession_states (B := B) (calls ++ later) _ (Machine.final_mem_states _ _ _)
  obtain ⟨w, hw, hn⟩ := (ht.refused_iff tid).mp hrefused
  rw [not_or, not_or] at hn
  obtain ⟨huser, hroot, hz⟩ := hn
  obtain ⟨more, hmore⟩ := writes_final (B := B) ((machine B).final (init B) calls) later oid
  rw [← Machine.final_append] at hmore
  obtain ⟨hmem, hlt⟩ := List.mem_filter.mp (List.mem_of_getLast? hw)
  -- the revision that was refused lies before the later transaction id, too
  have hmem' : w ∈ (((machine B).final (init B) (calls ++ later)).writes oid).filter (·.tid < tid') := by
    refine List.mem_filter.mpr ⟨?_, decide_eq_true (lt_of_lt_of_le (of_decide_eq_true hlt) hle)⟩
    rw [hmore]
    exact List.mem_append_left _ hmem
  have hlast := List.getLast?_eq_some_getLast (List.ne_nil_of_mem hmem')
  refine (ht'.refused_iff tid').mpr ⟨_, hlast, ?_⟩
  rw [not_or, not_or]
  refine ⟨fun heq => ?_, hroot, hz⟩
  rcases follows_getLast ((hs' oid hz).filter _) hmem' hlast with hsame | hsame | hheir
  · exact huser (by rw [hsame, heq])
  · exact huser (hsame.symm.trans heq)
  · exact hroot (hheir.symm.trans heq)

/-- The administrator wrote the folder, its user overwrote it, and the administrator is refused
it from then on. -/
theorem access_lost_example :
    let calls : List Call := [.store (p64 2) (p64 5) 0 [1], .store (p64 5) (p64 5) 1 [2]]
    let later : List Call := [.store (p64 2) (p64 5) 2 [3], .store (p64 5) (p64 5) 2 [4]]
    ∃ m, OwnerStorage.loadBefore MemoryStorage.base (p64 2)
      ((machine MemoryStorage.base).final (init MemoryStorage.base) (calls ++ later)).base (p64 5) 9 =
        .error (.storageError m) := by
  intro calls later
  have hrefused : OwnerStorage.loadBefore MemoryStorage.base (p64 2)
      ((machine MemoryStorage.base).final (init MemoryStorage.base) calls).base (p64 5) 3 =
        .error (.storageError (accessMessage (p64 5) (p64 2))) := by rfl
  exact access_lost calls later (p64 2) (p64 5) 3 9 (by decide) ⟨_, hrefused⟩

end Server

end Zerodb
