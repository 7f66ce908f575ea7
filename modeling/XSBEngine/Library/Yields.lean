/-!
# What a computation with errors yields

A postcondition for the results and one for the errors, with the rules for composing them.
-/

namespace XSBEngine.Library

/-- Every result satisfies `P`, every error `Q`. -/
def Yields {ε α : Type} (x : Except ε α) (P : α → Prop) (Q : ε → Prop) : Prop :=
  match x with
  | .ok a => P a
  | .error e => Q e

namespace Yields

variable {ε α β : Type} {x : Except ε α} {f : α → Except ε β} {P P' : α → Prop} {R : β → Prop}
  {Q Q' : ε → Prop}

theorem ok {a : α} (h : P a) : Yields (.ok a : Except ε α) P Q := h

theorem bind (hx : Yields x P Q) (hf : ∀ a, P a → Yields (f a) R Q) :
    Yields (x >>= f) R Q := by
  cases x with
  | error e => exact hx
  | ok a => exact hf a hx

theorem map {g : α → β} (hx : Yields x (fun a => R (g a)) Q) : Yields (g <$> x) R Q := by
  cases x with
  | error e | ok a => exact hx

theorem mono (hx : Yields x P Q) (h : ∀ a, P a → P' a) : Yields x P' Q := by
  cases x with
  | error e => exact hx
  | ok a => exact h a hx

theorem ite {c : Prop} [Decidable c] {y : Except ε α} (hx : c → Yields x P Q)
    (hy : ¬ c → Yields y P Q) : Yields (if c then x else y) P Q := by
  split
  · next h => exact hx h
  · next h => exact hy h

theorem of_ok {a : α} (h : Yields x P Q) (heq : x = .ok a) : P a := by
  rw [heq] at h
  exact h

theorem of_error {e : ε} (h : Yields x P Q) (heq : x = .error e) : Q e := by
  rw [heq] at h
  exact h

end Yields

end XSBEngine.Library
