/-
# Counted references

Holders each have a multiset of what they refer to; the references to a target are counted over all
holders. Giving one holder another multiset changes the count of a target by the difference.
-/
import Mathlib.Algebra.BigOperators.Ring.Finset
import Mathlib.Algebra.Order.BigOperators.Group.Finset

namespace Citron
namespace Lib

open Function Finset Multiset

variable {ι κ : Type*} [DecidableEq κ]

/-- How often the holders refer to the target. -/
def referencesTo (holders : Finset ι) (refs : ι → Multiset κ) (target : κ) : ℕ :=
  ∑ i ∈ holders, (refs i).count target

variable {holders : Finset ι} {refs : ι → Multiset κ}

theorem referencesTo_congr {refs' : ι → Multiset κ} (h : ∀ i ∈ holders, refs' i = refs i) (target : κ) :
    referencesTo holders refs' target = referencesTo holders refs target :=
  sum_congr rfl fun i hi => congrArg (Multiset.count target) (h i hi)

theorem referencesTo_eq_zero {target : κ} :
    referencesTo holders refs target = 0 ↔ ∀ i ∈ holders, target ∉ refs i := by
  rw [referencesTo, Finset.sum_eq_zero_iff]
  constructor
  · intro h i hi
    exact count_eq_zero.mp (h i hi)
  · intro h i hi
    exact count_eq_zero.mpr (h i hi)

/-- A holder without references does not count. -/
theorem referencesTo_insert [DecidableEq ι] {i : ι} (hi : i ∉ holders) (hrefs : refs i = 0) (target : κ) :
    referencesTo (insert i holders) refs target = referencesTo holders refs target := by
  rw [referencesTo, sum_insert hi, hrefs, count_zero, Nat.zero_add]
  rfl

/-- Holders without references do not count. -/
theorem referencesTo_subset {some all : Finset ι} (hsub : some ⊆ all) (hrest : ∀ i ∈ all, i ∉ some → refs i = 0)
    (target : κ) : referencesTo some refs target = referencesTo all refs target := by
  apply sum_subset hsub
  intro i hi hnot
  rw [hrest i hi hnot, count_zero]

variable [DecidableEq ι]

theorem referencesTo_update (refs : ι → Multiset κ) {i : ι} (hi : i ∈ holders) (m : Multiset κ) (target : κ) :
    referencesTo holders (update refs i m) target + (refs i).count target =
      referencesTo holders refs target + m.count target := by
  have hrest : ∑ j ∈ holders.erase i, (update refs i m j).count target =
      ∑ j ∈ holders.erase i, (refs j).count target := by
    apply sum_congr rfl
    intro j hj
    rw [update_of_ne (ne_of_mem_erase hj)]
  have hnew := sum_erase_add holders (fun j => (update refs i m j).count target) hi
  have hold := sum_erase_add holders (fun j => (refs j).count target) hi
  rw [update_self, hrest] at hnew
  unfold referencesTo
  omega

theorem referencesTo_cons {i : ι} (hi : i ∈ holders) (added target : κ) :
    referencesTo holders (update refs i (added ::ₘ refs i)) target =
      referencesTo holders refs target + if target = added then 1 else 0 := by
  have h := referencesTo_update refs hi (added ::ₘ refs i) target
  rw [count_cons] at h
  omega

theorem referencesTo_erase {i : ι} (hi : i ∈ holders) {removed : κ} (hmem : removed ∈ refs i) (target : κ) :
    referencesTo holders (update refs i ((refs i).erase removed)) target +
        (if target = removed then 1 else 0) = referencesTo holders refs target := by
  have h := referencesTo_update refs hi ((refs i).erase removed) target
  have hpos := count_pos.mpr hmem
  by_cases htarget : target = removed
  · subst htarget
    rw [count_erase_self] at h
    rw [if_pos rfl]
    omega
  · rw [count_erase_of_ne htarget] at h
    rw [if_neg htarget]
    omega

end Lib
end Citron
