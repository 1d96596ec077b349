/-
# Straight-line code

An emitter appends instructions and gives back what it has made of them. An instruction is named by its place. What holds
of the result of an emitter, wherever it appends, follows from what its instructions compute.
-/
import Mathlib

namespace Citron
namespace Lib

/-- A result and the instructions that were appended, for the place of the first of them. -/
def Emitter (I α : Type) : Type := ℕ → α × List I

namespace Emitter

variable {I V α β : Type}

instance : Monad (Emitter I) where
  pure a := fun _ => (a, [])
  bind m f := fun n => ((f (m n).1 (n + (m n).2.length)).1, (m n).2 ++ (f (m n).1 (n + (m n).2.length)).2)

/-- One instruction; its place is the result. -/
def emit (i : I) : Emitter I ℕ := fun n => (n, [i])

/-- The values at the places of the code are what the instructions compute. -/
def Runs (Computes : (ℕ → V) → I → V → Prop) (ρ : ℕ → V) : ℕ → List I → Prop
  | _, [] => True
  | n, i :: code => Computes ρ i (ρ n) ∧ Runs Computes ρ (n + 1) code

variable {Computes : (ℕ → V) → I → V → Prop} {ρ : ℕ → V}

theorem runs_append {n : ℕ} {code code' : List I} :
    Runs Computes ρ n (code ++ code') ↔ Runs Computes ρ n code ∧ Runs Computes ρ (n + code.length) code' := by
  induction code generalizing n with
  | nil => simp [Runs]
  | cons i code ih =>
    have hlength : n + (i :: code).length = n + 1 + code.length := by simp; omega
    rw [List.cons_append, Runs, Runs, ih, and_assoc, hlength]

/-- Wherever the emitter appends, its result has the property if its code runs. -/
def Yields (Computes : (ℕ → V) → I → V → Prop) (ρ : ℕ → V) (m : Emitter I α) (Q : α → Prop) : Prop :=
  ∀ n, Runs Computes ρ n (m n).2 → Q (m n).1

theorem Yields.pure {Q : α → Prop} {a : α} (h : Q a) : Yields Computes ρ (pure a) Q := fun _ _ => h

/-- **What the first emitter yields is what the second one starts from.** -/
theorem Yields.bind {m : Emitter I α} {f : α → Emitter I β} {P : α → Prop} {Q : β → Prop} (h : Yields Computes ρ m P)
    (hf : ∀ a, P a → Yields Computes ρ (f a) Q) : Yields Computes ρ (m >>= f) Q := by
  intro n hruns
  obtain ⟨hfirst, hsecond⟩ := runs_append.1 hruns
  exact hf _ (h n hfirst) _ hsecond

theorem Yields.mono {m : Emitter I α} {P Q : α → Prop} (h : Yields Computes ρ m P) (hPQ : ∀ a, P a → Q a) : Yields Computes ρ m Q :=
  fun n hruns => hPQ _ (h n hruns)

theorem Yields.emit (i : I) : Yields Computes ρ (emit i) fun n => Computes ρ i (ρ n) := fun _ hruns => hruns.1

end Emitter
end Lib
end Citron
