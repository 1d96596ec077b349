/-
# Folds that may fail

A fold over a list whose steps may fail, with an invariant that says what is true of the state and
of the elements that are still to come.
-/
import Mathlib.Order.Basic

namespace Citron
namespace Lib

variable {α σ ε : Type*} {f : σ → α → Except ε σ} {P : List α → σ → Prop}

/-- Every step succeeds and keeps the invariant. -/
theorem foldlM_total (hstep : ∀ a l t, P (a :: l) t → ∃ t', f t a = .ok t' ∧ P l t') {l : List α} {s : σ}
    (hs : P l s) : ∃ s', l.foldlM f s = .ok s' ∧ P [] s' := by
  induction l generalizing s with
  | nil => exact ⟨s, rfl, hs⟩
  | cons a l ih =>
    obtain ⟨t, ht, hP⟩ := hstep a l s hs
    obtain ⟨s', hs', hP'⟩ := ih hP
    refine ⟨s', ?_, hP'⟩
    rw [List.foldlM_cons, ht]
    exact hs'

/-- Every step keeps the invariant or fails as it may. -/
theorem foldlM_total_or {Q : ε → Prop}
    (hstep : ∀ a l t, P (a :: l) t → (∃ t', f t a = .ok t' ∧ P l t') ∨ ∃ e, f t a = .error e ∧ Q e) {l : List α} {s : σ}
    (hs : P l s) : (∃ s', l.foldlM f s = .ok s' ∧ P [] s') ∨ ∃ e, l.foldlM f s = .error e ∧ Q e := by
  induction l generalizing s with
  | nil => exact .inl ⟨s, rfl, hs⟩
  | cons a l ih =>
    rw [List.foldlM_cons]
    rcases hstep a l s hs with ⟨t, ht, hP⟩ | ⟨e, he, hQ⟩
    · rw [ht]
      exact ih hP
    · rw [he]
      exact .inr ⟨e, rfl, hQ⟩

/-- A step that succeeds keeps the invariant. -/
theorem foldlM_partial (hstep : ∀ a l t t', P (a :: l) t → f t a = .ok t' → P l t') {l : List α} {s s' : σ}
    (hs : P l s) (hfold : l.foldlM f s = .ok s') : P [] s' := by
  induction l generalizing s with
  | nil =>
    cases hfold
    exact hs
  | cons a l ih =>
    rw [List.foldlM_cons] at hfold
    cases ht : f s a with
    | error e =>
      rw [ht] at hfold
      cases hfold
    | ok t =>
      rw [ht] at hfold
      exact ih (hstep a l s t hs ht) hfold

end Lib
end Citron
