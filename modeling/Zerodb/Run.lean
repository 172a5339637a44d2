import Mathlib

/-!
# Runs: machines, invariants, and exactness of step conditions

A machine answers an input with an output and moves to a next state; a run feeds
it a list of inputs. Three things are packaged here once:

* `Machine.states` — every state a run goes through, first and last included;
* `Machine.Along ok` — every step of the run meets the condition `ok` at the
  state it starts from;
* `Along.states_inv` / `states_inv_iff_along` — if the condition is enough for
  one step to keep an invariant, it is enough for a run; if it is also necessary
  for one step, the run keeps the invariant exactly when it meets the condition.
-/

namespace Zerodb

universe u v w

variable {σ : Type u} {ι : Type v} {ο : Type w}

/-- A deterministic machine: state, input, output and next state. -/
abbrev Machine (σ : Type u) (ι : Type v) (ο : Type w) : Type (max u v w) := σ → ι → ο × σ

namespace Machine

variable (m : Machine σ ι ο)

/-- The state after a list of inputs. -/
def final : σ → List ι → σ
  | s, [] => s
  | s, i :: is => final (m s i).2 is

/-- The answers to a list of inputs, in order. -/
def outputs : σ → List ι → List ο
  | _, [] => []
  | s, i :: is => (m s i).1 :: outputs (m s i).2 is

/-- The states a run goes through. -/
def states : σ → List ι → List σ
  | s, [] => [s]
  | s, i :: is => s :: states (m s i).2 is

/-- Every step of the run meets `ok` at the state it starts from. -/
def Along (ok : σ → ι → Prop) : σ → List ι → Prop
  | _, [] => True
  | s, i :: is => ok s i ∧ Along ok (m s i).2 is

/-! ## Input by input

Runs unfold from the left, and split where their inputs do. -/

@[simp] theorem final_nil (s : σ) : m.final s [] = s := rfl

@[simp] theorem final_cons (s : σ) (i : ι) (is : List ι) :
    m.final s (i :: is) = m.final (m s i).2 is := rfl

@[simp] theorem outputs_nil (s : σ) : m.outputs s [] = [] := rfl

@[simp] theorem outputs_cons (s : σ) (i : ι) (is : List ι) :
    m.outputs s (i :: is) = (m s i).1 :: m.outputs (m s i).2 is := rfl

@[simp] theorem states_nil (s : σ) : m.states s [] = [s] := rfl

@[simp] theorem states_cons (s : σ) (i : ι) (is : List ι) :
    m.states s (i :: is) = s :: m.states (m s i).2 is := rfl

theorem final_append (s : σ) (is js : List ι) :
    m.final s (is ++ js) = m.final (m.final s is) js := by
  induction is generalizing s with
  | nil => rfl
  | cons i is ih => exact ih (m s i).2

theorem mem_states_self (s : σ) (is : List ι) : s ∈ m.states s is := by
  cases is <;> simp

theorem final_mem_states (s : σ) (is : List ι) : m.final s is ∈ m.states s is := by
  induction is generalizing s with
  | nil => simp
  | cons i is ih => exact List.mem_cons_of_mem _ (ih _)

variable {m} {ok ok' : σ → ι → Prop} {Inv : σ → Prop}

instance decidableAlong [∀ s i, Decidable (ok s i)] :
    ∀ (s : σ) (is : List ι), Decidable (m.Along ok s is)
  | _, [] => .isTrue trivial
  | s, i :: is => @instDecidableAnd _ _ _ (decidableAlong (m s i).2 is)

/-! ## Conditions on steps

`Along` is a condition on the whole run. Often it is one on the inputs alone, and it is then one
for each of them. -/

theorem along_of_forall (h : ∀ s i, ok s i) (s : σ) (is : List ι) : m.Along ok s is := by
  induction is generalizing s with
  | nil => trivial
  | cons i is ih => exact ⟨h s i, ih _⟩

/-- A condition of the inputs alone. -/
theorem along_inputs {p : ι → Prop} (s : σ) (is : List ι) :
    m.Along (fun _ i => p i) s is ↔ ∀ i ∈ is, p i := by
  induction is generalizing s with
  | nil => simp [Along]
  | cons i is ih => rw [Along, ih, List.forall_mem_cons]

/-- Two conditions that a run meets. -/
theorem Along.and {s : σ} {is : List ι} (h : m.Along ok s is) (h' : m.Along ok' s is) :
    m.Along (fun s i => ok s i ∧ ok' s i) s is := by
  induction is generalizing s with
  | nil => trivial
  | cons i is ih => exact ⟨⟨h.1, h'.1⟩, ih h.2 h'.2⟩

theorem along_append {s : σ} {is js : List ι} :
    m.Along ok s (is ++ js) ↔ m.Along ok s is ∧ m.Along ok (m.final s is) js := by
  induction is generalizing s with
  | nil => simp [Along]
  | cons i is ih => simp [Along, ih, and_assoc]

/-! ## Rules for runs

Each rule needs a fact about one step, from a state with the invariant, and gives one about all
states or all outputs of a run. The inductions over inputs are here and nowhere else. -/

/-- **Invariant rule**: a condition under which one step keeps the invariant
keeps it in every state of a run that meets the condition. -/
theorem Along.states_inv (hstep : ∀ s i, Inv s → ok s i → Inv (m s i).2)
    {s : σ} {is : List ι} (hs : Inv s) (ha : m.Along ok s is) :
    ∀ t ∈ m.states s is, Inv t := by
  induction is generalizing s with
  | nil =>
    intro t ht
    obtain rfl := List.mem_singleton.mp ht
    exact hs
  | cons i is ih =>
    intro t ht
    rcases List.mem_cons.mp ht with rfl | ht
    · exact hs
    · exact ih (hstep s i hs ha.1) ha.2 t ht

/-- **Consequence rule**: a condition that keeps an invariant, and with it implies another
condition of the step, implies that one along a run. -/
theorem Along.imp (hstep : ∀ s i, Inv s → ok s i → Inv (m s i).2)
    (himp : ∀ s i, Inv s → ok s i → ok' s i) {s : σ} {is : List ι} (hs : Inv s)
    (ha : m.Along ok s is) : m.Along ok' s is := by
  induction is generalizing s with
  | nil => trivial
  | cons i is ih => exact ⟨himp s i hs ha.1, ih (hstep s i hs ha.1) ha.2⟩

/-- Two conditions that agree wherever an invariant holds that one of them keeps. -/
theorem along_congr (hstep : ∀ s i, Inv s → ok' s i → Inv (m s i).2)
    (h : ∀ s i, Inv s → (ok s i ↔ ok' s i)) {s : σ} (hs : Inv s) (is : List ι) :
    m.Along ok s is ↔ m.Along ok' s is :=
  ⟨fun ha => ha.imp (fun s i hi hok => hstep s i hi ((h s i hi).mp hok))
      (fun s i hi => (h s i hi).mp) hs,
    fun ha => ha.imp hstep (fun s i hi => (h s i hi).mpr) hs⟩

/-- The unconditional invariant rule. -/
theorem states_inv (hstep : ∀ s i, Inv s → Inv (m s i).2) {s : σ} (hs : Inv s) (is : List ι) :
    ∀ t ∈ m.states s is, Inv t := by
  have ha : m.Along (fun _ _ => True) s is := along_of_forall (fun _ _ => trivial) s is
  exact ha.states_inv (fun s i h _ => hstep s i h) hs

/-- **Exactness**: when the condition is necessary and sufficient for one step to
keep the invariant, a run keeps it exactly when all its steps meet the condition.
An auxiliary invariant `Aux` may be kept along with it. -/
theorem states_inv_iff_along {Aux : σ → Prop}
    (haux : ∀ s i, Aux s → Inv s → ok s i → Aux (m s i).2)
    (hstep : ∀ s i, Aux s → Inv s → (Inv (m s i).2 ↔ ok s i)) {s : σ} (hx : Aux s) (hs : Inv s)
    (is : List ι) : (∀ t ∈ m.states s is, Inv t) ↔ m.Along ok s is := by
  refine ⟨?_, ?_⟩
  · intro h
    induction is generalizing s with
    | nil => trivial
    | cons i is ih =>
      have hnext : Inv (m s i).2 :=
        h _ (List.mem_cons_of_mem _ (m.mem_states_self (m s i).2 is))
      have hok : ok s i := (hstep s i hx hs).mp hnext
      exact ⟨hok, ih (haux s i hx hs hok) hnext fun t ht => h t (List.mem_cons_of_mem _ ht)⟩
  · intro ha t ht
    have hboth : ∀ t ∈ m.states s is, Aux t ∧ Inv t :=
      ha.states_inv (fun s i h hok => ⟨haux s i h.1 h.2 hok, (hstep s i h.1 h.2).mpr hok⟩) ⟨hx, hs⟩
    exact (hboth t ht).2

/-- **Exactness under a precondition**: the same for the runs whose steps all meet one, which
keeps the auxiliary invariant. -/
theorem Along.states_inv_iff {Aux : σ → Prop} {pre : σ → ι → Prop}
    (haux : ∀ s i, Aux s → pre s i → Aux (m s i).2)
    (hstep : ∀ s i, Aux s → pre s i → Inv s → (Inv (m s i).2 ↔ ok s i)) {s : σ} {is : List ι}
    (hx : Aux s) (hs : Inv s) (ha : m.Along pre s is) :
    (∀ t ∈ m.states s is, Inv t) ↔ m.Along ok s is := by
  induction is generalizing s with
  | nil =>
    refine iff_of_true (fun t ht => ?_) trivial
    obtain rfl := List.mem_singleton.mp ht
    exact hs
  | cons i is ih =>
    obtain ⟨hpre, hrest⟩ := ha
    rw [states_cons, List.forall_mem_cons, Along]
    refine ⟨fun h => ?_, fun h => ⟨hs, ?_⟩⟩
    · have hnext : Inv (m s i).2 := h.2 _ (m.mem_states_self _ _)
      exact ⟨(hstep s i hx hpre hs).mp hnext, (ih (haux s i hx hpre) hnext hrest).mp h.2⟩
    · have hnext : Inv (m s i).2 := (hstep s i hx hpre hs).mpr h.1
      exact (ih (haux s i hx hpre) hnext hrest).mpr h.2

/-- **Output rule**: if under the condition one step keeps the invariant and
answers as `spec` does, a whole run answers as `spec` does. -/
theorem Along.outputs_eq {spec : ι → ο}
    (hstep : ∀ s i, Inv s → ok s i → (m s i).1 = spec i ∧ Inv (m s i).2)
    {s : σ} {is : List ι} (hs : Inv s) (ha : m.Along ok s is) :
    m.outputs s is = is.map spec := by
  induction is generalizing s with
  | nil => rfl
  | cons i is ih =>
    obtain ⟨hout, hnext⟩ := hstep s i hs ha.1
    rw [outputs_cons, List.map_cons, hout, ih hnext ha.2]

/-- **Simulation rule**: if under the condition one step answers as a step of another
machine does, and keeps a relation to it, so does a whole run. -/
theorem Along.simulates {τ : Type u} {m' : Machine τ ι ο} {R : σ → τ → Prop}
    (hstep : ∀ s t i, R s t → ok s i → (m s i).1 = (m' t i).1 ∧ R (m s i).2 (m' t i).2)
    {s : σ} {t : τ} {is : List ι} (hs : R s t) (ha : m.Along ok s is) :
    m.outputs s is = m'.outputs t is ∧ R (m.final s is) (m'.final t is) := by
  induction is generalizing s t with
  | nil => exact ⟨rfl, hs⟩
  | cons i is ih =>
    obtain ⟨hout, hnext⟩ := hstep s t i hs ha.1
    obtain ⟨houts, hfinal⟩ := ih hnext ha.2
    exact ⟨by rw [outputs_cons, outputs_cons, hout, houts], hfinal⟩

end Machine

end Zerodb
