import Mathlib

/-!
# Outcomes

Inversion for computations that may fail: how a sequence of steps, a guard and a run over a list
succeed, and in the same way for actions that keep a state. A sequence avoids an error when all of
its steps do.
-/

namespace CellBag.Outcome

section Computation
variable {ε α β : Type}

/-- A sequence succeeds when its first step does, and the others do with what it gives. -/
lemma bind_eq_ok {x : Except ε α} {f : α → Except ε β} {b : β} :
    (x >>= f) = .ok b ↔ ∃ a, x = .ok a ∧ f a = .ok b := by
  cases x with
  | error e =>
    constructor
    · rintro ⟨⟩
    · rintro ⟨_, ⟨⟩, _⟩
  | ok a =>
    refine ⟨fun h => ⟨a, rfl, h⟩, ?_⟩
    rintro ⟨_, e, h⟩
    cases e
    exact h

/-- What follows a success goes on with its value. -/
@[simp]
lemma ok_bind (a : α) (f : α → Except ε β) : (Except.ok a >>= f) = f a :=
  rfl

/-- Nothing follows a failure. -/
@[simp]
lemma throw_bind (e : ε) (f : α → Except ε β) : ((throw e : Except ε α) >>= f) = .error e :=
  rfl

/-- A value that is returned is the outcome. -/
@[simp]
lemma pure_eq_ok {a b : α} : (pure a : Except ε α) = .ok b ↔ a = b :=
  ⟨fun h => Except.ok.inj h, fun h => congrArg Except.ok h⟩

/-- Behind a guard an outcome is a success if the guard lets it pass. -/
@[simp]
lemma guard_eq_ok {p : Prop} [Decidable p] {e : ε} {x : Except ε α} {a : α} :
    (if p then .error e else x) = .ok a ↔ ¬ p ∧ x = .ok a := by
  by_cases h : p
  · simp [h]
  · simp [h]

/-- Behind a check an outcome is a success if the check does not fail. -/
@[simp]
lemma check_eq_ok {p : Prop} [Decidable p] {e : ε} {x : Except ε α} {a : α} :
    (if p then x else .error e) = .ok a ↔ p ∧ x = .ok a := by
  by_cases h : p
  · simp [h]
  · simp [h]

/-- A run over a list succeeds when it does for each member. -/
lemma mapM_eq_ok {f : α → Except ε β} {xs : List α} {ys : List β} :
    xs.mapM f = .ok ys ↔ List.Forall₂ (fun x y => f x = .ok y) xs ys := by
  induction xs generalizing ys with
  | nil =>
    rw [List.mapM_nil, pure_eq_ok, List.forall₂_nil_left_iff]
    exact eq_comm
  | cons x xs ih =>
    rw [List.mapM_cons, bind_eq_ok, List.forall₂_cons_left_iff]
    constructor
    · rintro ⟨y, hy, h⟩
      obtain ⟨zs, hzs, e⟩ := bind_eq_ok.1 h
      exact ⟨y, zs, hy, ih.1 hzs, (pure_eq_ok.1 e).symm⟩
    · rintro ⟨y, zs, hy, hzs, rfl⟩
      exact ⟨y, hy, bind_eq_ok.2 ⟨zs, ih.2 hzs, rfl⟩⟩

/-- A run over a list succeeds when each member gives something, which then belongs to it. -/
lemma exists_mapM {f : α → Except ε β} {P : α → β → Prop} {xs : List α}
    (each : ∀ x ∈ xs, ∃ y, f x = .ok y ∧ P x y) :
    ∃ ys, xs.mapM f = .ok ys ∧ List.Forall₂ P xs ys := by
  induction xs with
  | nil => exact ⟨[], rfl, .nil⟩
  | cons x xs ih =>
    obtain ⟨⟨y, e, h⟩, each⟩ := List.forall_mem_cons.1 each
    obtain ⟨ys, es, hs⟩ := ih each
    exact ⟨y :: ys, mapM_eq_ok.2 (.cons e (mapM_eq_ok.1 es)), .cons h hs⟩

/-- If each item has an outcome, so has a list of them, and what holds of each item holds all
along. -/
lemma exists_mapM_of_forall₂ {γ : Type} {f : β → Except ε γ} {P : α → β → Prop} {Q : α → γ → Prop}
    {xs : List α} {ys : List β} (h : List.Forall₂ P xs ys)
    (each : ∀ x y, P x y → ∃ z, f y = .ok z ∧ Q x z) :
    ∃ zs, ys.mapM f = .ok zs ∧ List.Forall₂ Q xs zs := by
  induction h with
  | nil => exact ⟨[], rfl, .nil⟩
  | cons first _ ih =>
    obtain ⟨z, e, q⟩ := each _ _ first
    obtain ⟨zs, es, qs⟩ := ih
    exact ⟨z :: zs, mapM_eq_ok.2 (.cons e (mapM_eq_ok.1 es)), .cons q qs⟩

/-- An item of the one list has a partner in the other. -/
lemma exists_of_mem {P : α → β → Prop} {xs : List α} {ys : List β} {y : β}
    (h : List.Forall₂ P xs ys) (mem : y ∈ ys) : ∃ x ∈ xs, P x y := by
  induction h with
  | nil => cases mem
  | cons first _ ih =>
    cases mem with
    | head => exact ⟨_, List.mem_cons_self, first⟩
    | tail _ mem =>
      obtain ⟨x, mx, hx⟩ := ih mem
      exact ⟨x, List.mem_cons_of_mem _ mx, hx⟩

/-- What a mapped list gives comes from one of its items. -/
lemma exists_of_mem_mapM {f : α → Except ε β} {xs : List α} {ys : List β} {y : β}
    (e : xs.mapM f = .ok ys) (mem : y ∈ ys) : ∃ x ∈ xs, f x = .ok y := by
  obtain ⟨x, mx, h⟩ := exists_of_mem (mapM_eq_ok.1 e) mem
  exact ⟨x, mx, h⟩

/-- A fold of which each step succeeds is a fold of what the steps give. -/
lemma foldlM_eq_ok {f : β → α → Except ε β} {g : β → α → β} {xs : List α}
    (each : ∀ x ∈ xs, ∀ b, f b x = .ok (g b x)) (b : β) : xs.foldlM f b = .ok (xs.foldl g b) := by
  induction xs generalizing b with
  | nil => rfl
  | cons x xs ih =>
    obtain ⟨first, later⟩ := List.forall_mem_cons.1 each
    rw [List.foldlM_cons, first, ok_bind, ih later, List.foldl_cons]

/-- A computation may fail, but not with this error. -/
def Avoids (e : ε) (x : Except ε α) : Prop := x ≠ .error e

section Avoids
variable {e e' : ε} {x : Except ε α} {f : α → Except ε β}

/-- A success is no failure. -/
lemma avoids_ok (a : α) : Avoids e (.ok a : Except ε α) :=
  nofun

/-- A failure with one error is not one with another. -/
lemma avoids_error (ne : e' ≠ e) : Avoids e (.error e' : Except ε α) :=
  fun same => ne (Except.error.inj same)

/-- A sequence avoids an error when its first step does, and the others do with what it gives. -/
lemma Avoids.bind (first : Avoids e x) (rest : ∀ a, x = .ok a → Avoids e (f a)) :
    Avoids e (x >>= f) := by
  cases x with
  | ok a => exact rest a rfl
  | error e' => exact avoids_error fun same => first (congrArg Except.error same)

/-- A guard that throws another error may come first. -/
lemma Avoids.guard {p : Prop} [Decidable p] (ne : e' ≠ e) (rest : Avoids e x) :
    Avoids e (if p then .error e' else x) := by
  split
  · exact avoids_error ne
  · exact rest

/-- A check that throws another error may come first. -/
lemma Avoids.check {p : Prop} [Decidable p] (ne : e' ≠ e) (rest : Avoids e x) :
    Avoids e (if p then x else .error e') := by
  split
  · exact rest
  · exact avoids_error ne

/-- A mapped list avoids an error that none of its items ends with. -/
lemma Avoids.mapM {xs : List α} (each : ∀ x ∈ xs, Avoids e (f x)) : Avoids e (xs.mapM f) := by
  induction xs with
  | nil => exact avoids_ok []
  | cons x xs ih =>
    obtain ⟨first, later⟩ := List.forall_mem_cons.1 each
    rw [List.mapM_cons]
    refine first.bind fun y _ => ?_
    exact (ih later).bind fun ys _ => avoids_ok (y :: ys)

end Avoids

end Computation

section Action
variable {ε σ α β : Type} {s t u : σ}

/-- Actions in sequence succeed when the first one does, and the others do with what it gives. -/
lemma action_bind_eq_ok {x : EStateM ε σ α} {f : α → EStateM ε σ β} {b : β} :
    (x >>= f) s = .ok b u ↔ ∃ a t, x s = .ok a t ∧ f a t = .ok b u := by
  show (match x s with | .ok a t => f a t | .error e t => .error e t) = _ ↔ _
  cases x s with
  | error e t =>
    constructor
    · rintro ⟨⟩
    · rintro ⟨_, _, ⟨⟩, _⟩
  | ok a t =>
    refine ⟨fun h => ⟨a, t, rfl, h⟩, ?_⟩
    rintro ⟨_, _, e, h⟩
    cases e
    exact h

/-- What follows an action that succeeds goes on with its value and state. -/
lemma action_bind_of_ok {x : EStateM ε σ α} {f : α → EStateM ε σ β} {a : α} (run : x s = .ok a t) :
    (x >>= f) s = f a t := by
  show EStateM.bind x f s = f a t
  rw [EStateM.bind, run]

/-- Nothing follows an action that fails. -/
lemma action_bind_of_error {x : EStateM ε σ α} {f : α → EStateM ε σ β} {e : ε}
    (run : x s = .error e t) : (x >>= f) s = .error e t := by
  show EStateM.bind x f s = .error e t
  rw [EStateM.bind, run]

/-- Actions that do the same in a state may stand for each other there. -/
lemma action_bind_congr {x y : EStateM ε σ α} {f : α → EStateM ε σ β} (same : x s = y s) :
    (x >>= f) s = (y >>= f) s := by
  show EStateM.bind x f s = EStateM.bind y f s
  rw [EStateM.bind, EStateM.bind, same]

/-- A returned value leaves the state as it is. -/
@[simp]
lemma action_pure_eq_ok {a b : α} :
    (pure a : EStateM ε σ α) s = .ok b t ↔ a = b ∧ s = t := by
  show EStateM.Result.ok a s = .ok b t ↔ _
  rw [EStateM.Result.ok.injEq]

/-- Behind a guard an action succeeds if the guard lets it pass. -/
@[simp]
lemma action_guard_eq_ok {p : Prop} [Decidable p] {e : ε} {x : EStateM ε σ α} {a : α} :
    (if p then throw e else x) s = .ok a t ↔ ¬ p ∧ x s = .ok a t := by
  by_cases h : p
  · rw [if_pos h]
    exact ⟨by rintro ⟨⟩, fun h' => absurd h h'.1⟩
  · simp [h]

/-- Behind a guard at the beginning of a sequence an action succeeds if the guard lets it pass. -/
@[simp]
lemma action_guard_bind_eq_ok {p : Prop} [Decidable p] {e : ε} {f : β → EStateM ε σ α}
    {x : EStateM ε σ α} {a : α} :
    (if p then throw e >>= f else x) s = .ok a t ↔ ¬ p ∧ x s = .ok a t := by
  by_cases h : p
  · rw [if_pos h]
    exact ⟨by rintro ⟨⟩, fun h' => absurd h h'.1⟩
  · simp [h]

/-- An outcome that is lifted into an action leaves the state as it is. -/
@[simp]
lemma action_ofExcept_eq_ok {x : Except ε α} {a : α} :
    (ofExcept x : EStateM ε σ α) s = .ok a t ↔ x = .ok a ∧ s = t := by
  cases x with
  | error e => exact ⟨by rintro ⟨⟩, by rintro ⟨⟨⟩, _⟩⟩
  | ok b =>
    show (pure b : EStateM ε σ α) s = .ok a t ↔ _
    rw [action_pure_eq_ok, Except.ok.injEq]

/-- A sequence may be run as a computation or step by step. -/
lemma ofExcept_bind (x : Except ε α) (f : α → Except ε β) :
    (ofExcept (x >>= f) : EStateM ε σ β) = (do ofExcept (f (← ofExcept x))) := by
  cases x with
  | error => rfl
  | ok => rfl

end Action

end CellBag.Outcome
