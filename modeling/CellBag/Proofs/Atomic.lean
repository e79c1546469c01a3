import CellBag.Proofs.Outcome
import Mathlib

/-!
# Atomic actions

An action is atomic when it has its effect, or fails and leaves the state as it was. A sequence of
actions is atomic when all that comes before its first effect only looks at the state
(`Outcome.Atomic.bind_look`), and nothing that comes behind it can fail
(`Outcome.Atomic.bind_total`).
-/

namespace CellBag.Outcome

variable {ε σ α β : Type} {s : σ}

/-- An outcome with some effect, or a failure that leaves the state as it was. -/
def Atomic (s : σ) (effect : α → σ → Prop) : EStateM.Result ε σ α → Prop
  | .ok a t => effect a t
  | .error _ t => t = s

/-- An atomic action has every effect that follows from its own. -/
lemma Atomic.imp {P Q : α → σ → Prop} {r : EStateM.Result ε σ α} (h : Atomic s P r)
    (imp : ∀ a t, P a t → Q a t) : Atomic s Q r := by
  cases r with
  | ok a t => exact imp a t h
  | error => exact h

/-- An outcome that is lifted into an action changes nothing. -/
lemma atomic_ofExcept (x : Except ε α) :
    Atomic s (fun a t => t = s ∧ x = .ok a) ((ofExcept x : EStateM ε σ α) s) := by
  cases x with
  | ok a => exact ⟨rfl, rfl⟩
  | error => rfl

variable {x : EStateM ε σ α} {f : α → EStateM ε σ β} {Q : β → σ → Prop}

/-- An action that leaves the state as it is may come first. -/
lemma Atomic.bind_look {P : α → Prop} (look : Atomic s (fun a t => t = s ∧ P a) (x s))
    (next : ∀ a, P a → Atomic s Q (f a s)) : Atomic s Q ((x >>= f) s) := by
  cases run : x s with
  | ok a t =>
    rw [run] at look
    obtain ⟨rfl, holds⟩ := look
    rw [action_bind_of_ok run]
    exact next a holds
  | error e t =>
    rw [run] at look
    rw [action_bind_of_error run]
    exact look

/-- Behind an action that has changed the state nothing may fail. -/
lemma Atomic.bind_total {P : α → σ → Prop} (first : Atomic s P (x s))
    (rest : ∀ a t, P a t → ∃ b u, f a t = .ok b u ∧ Q b u) : Atomic s Q ((x >>= f) s) := by
  cases run : x s with
  | ok a t =>
    rw [run] at first
    obtain ⟨b, u, run', effect⟩ := rest a t first
    rw [action_bind_of_ok run, run']
    exact effect
  | error e t =>
    rw [run] at first
    rw [action_bind_of_error run]
    exact first

end CellBag.Outcome
