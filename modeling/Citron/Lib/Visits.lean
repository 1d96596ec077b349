/-
# Visiting the items of a list

A visitor is called for the items of a list in order. It has a state, and answers whether it wants no more items. Visiting
until it says so is compared with visiting all.
-/
import Mathlib.Data.List.Basic

namespace Citron
namespace Lib

open List

variable {α σ : Type} (f : α → σ → Bool × σ)

/-- The items up to and including the first one for which the visitor answers `true`, and the state after them. -/
def visitUntil : List α → σ → List α × σ
  | [], s => ([], s)
  | x :: xs, s =>
    if (f x s).1 then ([x], (f x s).2) else (x :: (visitUntil xs (f x s).2).1, (visitUntil xs (f x s).2).2)

/-- The state after all items. -/
def visitAll : List α → σ → σ
  | [], s => s
  | x :: xs, s => visitAll xs (f x s).2

/-- What the visitor answers for all items. -/
def answers : List α → σ → List Bool
  | [], _ => []
  | x :: xs, s => (f x s).1 :: answers xs (f x s).2

variable {f}

theorem answers_ne_nil {xs : List α} (hxs : xs ≠ []) (s : σ) : answers f xs s ≠ [] := by
  obtain ⟨x, xs, rfl⟩ := exists_cons_of_ne_nil hxs
  exact cons_ne_nil _ _

theorem visitUntil_ne_nil {xs : List α} (hxs : xs ≠ []) (s : σ) : (visitUntil f xs s).1 ≠ [] := by
  obtain ⟨x, xs, rfl⟩ := exists_cons_of_ne_nil hxs
  rw [visitUntil]
  split <;> exact cons_ne_nil _ _

/-- **The visits end exactly behind the first items** if none of these but the last is answered with `true`, and either the
last one is or there are no others. -/
theorem visitUntil_append_eq_iff {xs ys : List α} {s : σ} :
    (visitUntil f (xs ++ ys) s).1 = xs ↔
      (∀ b ∈ (answers f xs s).dropLast, b = false) ∧ ((answers f xs s).getLast? = some true ∨ ys = []) := by
  induction xs generalizing s with
  | nil =>
    constructor
    · intro hvisits
      refine ⟨fun b hb => absurd hb not_mem_nil, Or.inr ?_⟩
      by_contra hys
      exact visitUntil_ne_nil hys s hvisits
    · rintro ⟨-, hlast | hys⟩
      · cases hlast
      · rw [hys]
        rfl
  | cons x xs ih =>
    rw [cons_append, visitUntil, answers]
    cases hanswer : (f x s).1 with
    | true =>
      rw [if_pos rfl]
      by_cases hxs : xs = []
      · subst hxs
        simp [answers]
      · constructor
        · intro hvisits
          exact absurd (List.cons.inj hvisits).2.symm hxs
        · rintro ⟨hall, -⟩
          rw [dropLast_cons_of_ne_nil (answers_ne_nil hxs _)] at hall
          exact absurd (hall true mem_cons_self) Bool.noConfusion
    | false =>
      rw [if_neg Bool.noConfusion, List.cons.injEq, and_iff_right rfl, ih]
      by_cases hxs : xs = []
      · subst hxs
        simp [answers]
      · have hne := answers_ne_nil (f := f) hxs (f x s).2
        rw [dropLast_cons_of_ne_nil hne, forall_mem_cons, and_iff_right rfl, getLast?_cons_of_ne_nil hne]

/-- An item that is kept is in front, as far as items are kept. -/
theorem filter_eq_takeWhile_append (p : α → Bool) (xs : List α) :
    xs.filter p = xs.takeWhile p ++ (xs.dropWhile p).filter p := by
  have hkept : (xs.takeWhile p).filter p = xs.takeWhile p :=
    filter_eq_self.mpr fun x hx => all_eq_true.mp all_takeWhile x hx
  calc xs.filter p = (xs.takeWhile p ++ xs.dropWhile p).filter p := by rw [takeWhile_append_dropWhile]
    _ = (xs.takeWhile p).filter p ++ (xs.dropWhile p).filter p := filter_append _ _
    _ = xs.takeWhile p ++ (xs.dropWhile p).filter p := by rw [hkept]

end Lib
end Citron
