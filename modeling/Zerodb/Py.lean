import Zerodb.Storage

/-!
# Py: computations that change a state and may raise

A Python method ends with a value or with an exception, and what it changed before
stays changed either way. `Py σ α` is that: a function from a state to an outcome
*and* a state, whatever the outcome. The lemmas run the constructs (`bind_apply`
and its kin) and take a normal end of a sequence apart (`bind_eq_ok`).
-/

namespace Zerodb

/-- A computation on states `σ` with values in `α`. -/
def Py (σ α : Type) : Type := σ → Except Exc α × σ

namespace Py

variable {σ α β : Type}

/-- End with a value. -/
protected def pure (a : α) : Py σ α := fun s => (.ok a, s)

/-- Go on with the value; an exception ends the sequence. -/
protected def bind (x : Py σ α) (f : α → Py σ β) : Py σ β := fun s =>
  match x s with
  | (.ok a, t) => f a t
  | (.error e, t) => (.error e, t)

instance : Monad (Py σ) where
  pure := Py.pure
  bind := Py.bind

/-- `raise e`. -/
def raise (e : Exc) : Py σ α := fun s => (.error e, s)

/-- Read the state. -/
def get : Py σ σ := fun s => (.ok s, s)

/-- Change the state. -/
def modify (f : σ → σ) : Py σ Unit := fun s => (.ok (), f s)

/-- The outcome of a call outside the state. -/
def ofExcept (x : Except Exc α) : Py σ α := fun s => (x, s)

/-- A lookup that raises `e` when there is nothing. -/
def ofOption (e : Exc) : Option α → Py σ α
  | some a => pure a
  | none => raise e

/-- A computation on a part of the state. -/
def zoom {τ : Type} (get : σ → τ) (set : τ → σ → σ) (x : Py τ α) : Py σ α := fun s =>
  ((x (get s)).1, set (x (get s)).2 s)

/-- `for a in l`. -/
def forEach (f : α → Py σ Unit) : List α → Py σ Unit
  | [] => Py.pure ()
  | a :: l => Py.bind (f a) fun _ => forEach f l

variable (s : σ) (x : Py σ α) (f : α → Py σ β) (e : Exc)

/-! ## Running the constructs

A construct on a state is its outcome and its state. These lemmas are for rewriting, outermost
construct first. -/

@[simp] theorem pure_apply (a : α) : (pure a : Py σ α) s = (.ok a, s) := rfl

@[simp] theorem raise_apply : (raise e : Py σ α) s = (.error e, s) := rfl

@[simp] theorem get_apply : (get : Py σ σ) s = (.ok s, s) := rfl

@[simp] theorem modify_apply (g : σ → σ) : modify g s = (.ok (), g s) := rfl

@[simp] theorem ofExcept_apply (y : Except Exc α) : (ofExcept y : Py σ α) s = (y, s) := rfl

@[simp] theorem ofOption_some (a : α) : (ofOption e (some a) : Py σ α) = pure a := rfl

@[simp] theorem ofOption_none : (ofOption e none : Py σ α) = raise e := rfl

theorem bind_apply : (x >>= f) s =
    match x s with
    | (.ok a, t) => f a t
    | (.error e, t) => (.error e, t) := rfl

variable {s x f e}

theorem bind_of_ok {a : α} {t : σ} (h : x s = (.ok a, t)) : (x >>= f) s = f a t := by
  rw [bind_apply, h]

theorem bind_of_error {t : σ} (h : x s = (.error e, t)) : (x >>= f) s = (.error e, t) := by
  rw [bind_apply, h]

@[simp] theorem pure_bind_apply (a : α) : ((pure a : Py σ α) >>= f) s = f a s := rfl

@[simp] theorem raise_bind_apply : ((raise e : Py σ α) >>= f) s = (.error e, s) := rfl

@[simp] theorem get_bind_apply (g : σ → Py σ β) : (get >>= g) s = g s s := rfl

@[simp] theorem modify_bind_apply (h : σ → σ) (g : Unit → Py σ β) :
    (modify h >>= g) s = g () (h s) := rfl

theorem bind_assoc {γ : Type} (x : Py σ α) (f : α → Py σ β) (g : β → Py σ γ) :
    x >>= f >>= g = x >>= fun a => f a >>= g := by
  funext s
  rw [bind_apply, bind_apply, bind_apply]
  rcases x s with ⟨_ | a, t⟩ <;> rfl

/-! ## What a normal end says

A computation that is known to end normally is taken apart: each part has ended normally, in the
state the part before has left. -/

/-- A sequence ends normally when both parts do. -/
theorem bind_eq_ok {b : β} {u : σ} :
    (x >>= f) s = (.ok b, u) ↔ ∃ a t, x s = (.ok a, t) ∧ f a t = (.ok b, u) := by
  rw [bind_apply]
  rcases hx : x s with ⟨_ | a, t⟩ <;> simp

@[simp] theorem ofOption_eq_ok {o : Option α} {a : α} {t : σ} :
    ofOption e o s = (.ok a, t) ↔ o = some a ∧ t = s := by
  cases o <;> simp [eq_comm]

theorem zoom_eq_ok {τ : Type} {get : σ → τ} {set : τ → σ → σ} {y : Py τ α} {a : α} {u : σ} :
    zoom get set y s = (.ok a, u) ↔ ∃ t, y (get s) = (.ok a, t) ∧ u = set t s := by
  rw [zoom]
  rcases hy : y (get s) with ⟨_ | b, t⟩ <;> simp [eq_comm]

theorem forEach_cons_eq_ok {g : α → Py σ Unit} {a : α} {l : List α} {u : σ} :
    forEach g (a :: l) s = (.ok (), u) ↔ ∃ t, g a s = (.ok (), t) ∧ forEach g l t = (.ok (), u) := by
  refine (@bind_eq_ok σ Unit Unit s (g a) (fun _ => forEach g l) () u).trans ⟨?_, ?_⟩
  · rintro ⟨⟨⟩, t, h⟩
    exact ⟨t, h⟩
  · rintro ⟨t, h⟩
    exact ⟨(), t, h⟩

/-! ## Loops

Loops over lists that are put together, and the rule for a loop: what every turn keeps that ends
normally. -/

/-- A loop over one list after another. -/
theorem forEach_append (g : α → Py σ Unit) (l l' : List α) :
    forEach g (l ++ l') = forEach g l >>= fun _ => forEach g l' := by
  induction l with
  | nil => rfl
  | cons a l ih =>
    change (g a >>= fun _ => forEach g (l ++ l')) =
      (g a >>= fun _ => forEach g l) >>= fun _ => forEach g l'
    rw [ih, bind_assoc]

/-- A loop over what a function gives. -/
theorem forEach_map {γ : Type} (g : α → Py σ Unit) (f : γ → α) (l : List γ) :
    forEach g (l.map f) = forEach (fun c => g (f c)) l := by
  induction l with
  | nil => rfl
  | cons c l ih => rw [List.map_cons, forEach, ih]; rfl

/-- A loop in a loop. -/
theorem forEach_flatMap {γ : Type} (g : α → Py σ Unit) (f : γ → List α) (l : List γ) :
    forEach g (l.flatMap f) = forEach (fun c => forEach g (f c)) l := by
  induction l with
  | nil => rfl
  | cons c l ih => rw [List.flatMap_cons, forEach_append, ih]; rfl

/-- A loop depends on its turns only. -/
theorem forEach_congr {g g' : α → Py σ Unit} {l : List α} (h : ∀ a ∈ l, g a = g' a) :
    forEach g l = forEach g' l := by
  induction l with
  | nil => rfl
  | cons a l ih =>
    rw [forEach, forEach, h a List.mem_cons_self, ih fun b hb => h b (List.mem_cons_of_mem _ hb)]

/-- A turn that is skipped under a condition. -/
theorem forEach_ite {g : α → Py σ Unit} (c : α → Prop) [DecidablePred c] (l : List α) :
    forEach (fun a => if c a then g a else Pure.pure ()) l = forEach g (l.filter (c ·)) := by
  induction l with
  | nil => rfl
  | cons a l ih =>
    rw [forEach, ih]
    by_cases ha : c a
    · rw [if_pos ha, List.filter_cons, if_pos (decide_eq_true ha)]
      rfl
    · rw [if_neg ha, List.filter_cons, if_neg (by simpa using ha)]
      rfl

/-- **Loop rule**: what every turn that ends normally keeps, a loop that ends normally
keeps; `R` may depend on what is left to do. -/
theorem forEach_inv {g : α → Py σ Unit} {R : List α → σ → Prop} {l : List α} {u : σ}
    (hstep : ∀ a as s t, R (a :: as) s → g a s = (.ok (), t) → R as t)
    (hs : R l s) (hrun : forEach g l s = (.ok (), u)) : R [] u := by
  induction l generalizing s with
  | nil =>
    cases hrun
    exact hs
  | cons a l ih =>
    obtain ⟨t, ha, hl⟩ := forEach_cons_eq_ok.mp hrun
    exact ih (hstep a l s t hs ha) hl

/-! ## Invariants

A method that raises leaves what it has changed, so an invariant has to hold in the state it
leaves however it ends. `Keeps` composes along the constructs as a method is written, one rule for
each. -/

/-- The computation keeps `I`, however it ends. -/
def Keeps (I : σ → Prop) (x : Py σ α) : Prop := ∀ s, I s → I (x s).2

variable {I : σ → Prop}

theorem Keeps.pure (a : α) : Keeps I (Pure.pure a : Py σ α) := fun _ h => h

theorem Keeps.raise (e : Exc) : Keeps I (Py.raise e : Py σ α) := fun _ h => h

theorem Keeps.get : Keeps I (Py.get : Py σ σ) := fun _ h => h

theorem Keeps.ofExcept (y : Except Exc α) : Keeps I (Py.ofExcept y : Py σ α) := fun _ h => h

theorem Keeps.ofOption (e : Exc) (o : Option α) : Keeps I (Py.ofOption e o : Py σ α) := by
  cases o <;> exact fun _ h => h

theorem Keeps.modify {g : σ → σ} (h : ∀ s, I s → I (g s)) : Keeps I (Py.modify g) := h

theorem Keeps.bind (hx : Keeps I x) (hf : ∀ a, Keeps I (f a)) : Keeps I (x >>= f) := by
  intro s hs
  have ht := hx s hs
  rw [bind_apply]
  rcases hr : x s with ⟨_ | a, t⟩ <;> rw [hr] at ht
  · exact ht
  · exact hf a t ht

theorem Keeps.forEach {g : α → Py σ Unit} (h : ∀ a, Keeps I (g a)) (l : List α) :
    Keeps I (Py.forEach g l) := by
  induction l with
  | nil => exact .pure ()
  | cons a l ih => exact (h a).bind fun _ => ih

end Py

end Zerodb
