/-
# Binary search

The search halves a range until it is empty. Where a condition holds of the first places of the range and of no others, it
ends at the first place where the condition fails.
-/
import Mathlib

namespace Citron
namespace Lib

variable {before : ℕ → Bool} {pos count : ℕ}

/-- The search of `std::upper_bound` in `count` places from `pos` on. -/
def partitionPoint (before : ℕ → Bool) (pos count : ℕ) : ℕ :=
  if _hcount : 0 < count then
    let half := count / 2
    let mid := pos + half
    if before mid then partitionPoint before (mid + 1) (count - (half + 1)) else partitionPoint before pos half
  else pos
termination_by count

/-- A place splits a range: the condition holds before it and fails from it on. -/
structure Partitions (before : ℕ → Bool) (first last mid : ℕ) : Prop where
  first_le : first ≤ mid
  le_last : mid ≤ last
  holds : ∀ i, first ≤ i → i < mid → before i = true
  fails : ∀ i, mid ≤ i → i < last → before i = false

theorem Partitions.congr {before' : ℕ → Bool} {first last mid : ℕ} (h : Partitions before first last mid)
    (hsame : ∀ i, first ≤ i → i < last → before' i = before i) : Partitions before' first last mid where
  first_le := h.first_le
  le_last := h.le_last
  holds i hi hlt := (hsame i hi (hlt.trans_le h.le_last)).trans (h.holds i hi hlt)
  fails i hi hlt := (hsame i (h.first_le.trans hi) hlt).trans (h.fails i hi hlt)

/-- **The search finds the place** that splits the range. -/
theorem partitionPoint_eq {last mid : ℕ} (h : Partitions before pos last mid) (hcount : pos + count = last) :
    partitionPoint before pos count = mid := by
  subst hcount
  induction count using Nat.strong_induction_on generalizing pos with
  | _ count ih =>
    have hlast := h.le_last
    have hfirst := h.first_le
    rw [partitionPoint]
    by_cases hcount : 0 < count
    · rw [dif_pos hcount]
      have hhalf : count / 2 < count := Nat.div_lt_self hcount (by decide)
      cases hbefore : before (pos + count / 2) with
      | true =>
        -- The place is behind the middle.
        have hbehind : pos + count / 2 < mid := by
          by_contra hle
          have hfails := h.fails _ (Nat.le_of_not_lt hle) (by omega)
          rw [hbefore] at hfails
          cases hfails
        simp only [hbefore, if_true]
        exact ih _ (by omega) ⟨by omega, by omega, fun i hi => h.holds i (by omega), fun i hi hlt => h.fails i hi (by omega)⟩
      | false =>
        have hupto : mid ≤ pos + count / 2 := by
          by_contra hlt
          have hholds := h.holds _ (Nat.le_add_right pos _) (Nat.lt_of_not_le hlt)
          rw [hbefore] at hholds
          cases hholds
        simp only [hbefore, Bool.false_eq_true, if_false]
        exact ih _ hhalf ⟨hfirst, hupto, h.holds, fun i hi hlt => h.fails i hi (by omega)⟩
    · rw [dif_neg hcount]
      omega

/-- Where the condition that holds at a place holds at every place before it, there is a place that splits the range. -/
theorem exists_partitions {last : ℕ} (hle : pos ≤ last)
    (hdown : ∀ i j, pos ≤ i → i ≤ j → j < last → before j = true → before i = true) :
    ∃ mid, Partitions before pos last mid := by
  induction last, hle using Nat.le_induction with
  | base => exact ⟨pos, le_refl _, le_refl _, fun i hi hlt => absurd hi (by omega), fun i hi hlt => absurd hi (by omega)⟩
  | succ last hle ih =>
    cases hbefore : before last with
    | true =>
      refine ⟨last + 1, by omega, le_refl _, fun i hi hlt => ?_, fun i hi hlt => absurd hi (by omega)⟩
      exact hdown i last hi (by omega) (by omega) hbefore
    | false =>
      obtain ⟨mid, hmid⟩ := ih fun i j hi hij hj => hdown i j hi hij (by omega)
      have hmidLast := hmid.le_last
      refine ⟨mid, hmid.first_le, by omega, hmid.holds, fun i hi hlt => ?_⟩
      rcases Nat.lt_or_eq_of_le (Nat.lt_succ_iff.mp hlt) with hlt | rfl
      · exact hmid.fails i hi hlt
      · exact hbefore

end Lib
end Citron
