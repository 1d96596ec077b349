/-
# What a fallible computation yields

A value with `Q`, or an error with `E` (`Yields`): the rules for the steps a computation is made of.
-/
import Mathlib.Data.Nat.Basic

namespace Citron
namespace Lib

universe u

variable {ε : Type*} {α β : Type u} {E : ε → Prop} {P Q : α → Prop} {R : β → Prop} {x : Except ε α}

def Yields (E : ε → Prop) (x : Except ε α) (Q : α → Prop) : Prop :=
  match x with
  | .ok a => Q a
  | .error e => E e

theorem Yields.mono (h : Yields E x P) (hPQ : ∀ a, P a → Q a) : Yields E x Q := by
  cases x with
  | error e => exact h
  | ok a => exact hPQ a h

theorem Yields.forget (h : Yields E x P) : Yields E x fun _ => True := h.mono fun _ _ => trivial

theorem Yields.bind {f : α → Except ε β} (h : Yields E x P) (hf : ∀ a, P a → Yields E (f a) R) : Yields E (x >>= f) R := by
  cases x with
  | error e => exact h
  | ok a => exact hf a h

/-- What holds of the value of every run that ends with one. -/
theorem Yields.and (h : Yields E x P) (hQ : ∀ a, x = .ok a → Q a) : Yields E x fun a => P a ∧ Q a := by
  cases x with
  | error e => exact h
  | ok a => exact ⟨h, hQ a rfl⟩

end Lib
end Citron
