/-
# Displaced regions

Regions of given sizes are placed at random, each at a draw of its own plus the sizes of all regions that come before it in
an order that respects the draws. They never overlap, and with draws up to what is left over they stay inside.
-/
import Mathlib

namespace Citron
namespace Lib

open Finset

variable {ι κ : Type*} [Fintype ι] [LinearOrder κ] {size draw : ι → ℕ} {key : ι → κ} {i j : ι} {remaining : ℕ}

/-- Where a region starts: its draw, moved behind the regions with smaller keys. -/
def displaced (size draw : ι → ℕ) (key : ι → κ) (i : ι) : ℕ := draw i + ∑ j with key j < key i, size j

/-- Where a region ends. -/
theorem displaced_add_size [DecidableEq ι] :
    displaced size draw key i + size i = draw i + ∑ k ∈ insert i (Finset.univ.filter fun k => key k < key i), size k := by
  have hnot : i ∉ Finset.univ.filter fun k => key k < key i := fun h => lt_irrefl _ (mem_filter.mp h).2
  rw [sum_insert hnot, displaced]
  ring

/-- A region ends where the next ones may start. -/
theorem displaced_add_le (hmono : ∀ i j, key i < key j → draw i ≤ draw j) (hlt : key i < key j) :
    displaced size draw key i + size i ≤ displaced size draw key j := by
  classical
  have hsub : insert i (Finset.univ.filter fun k => key k < key i) ⊆ Finset.univ.filter fun k => key k < key j := by
    intro k hk
    rcases mem_insert.mp hk with rfl | hk
    · exact mem_filter.mpr ⟨mem_univ _, hlt⟩
    · exact mem_filter.mpr ⟨mem_univ _, (mem_filter.mp hk).2.trans hlt⟩
  rw [displaced_add_size]
  exact Nat.add_le_add (hmono i j hlt) (sum_le_sum_of_subset hsub)

/-- No two regions overlap, whatever was drawn. -/
theorem displaced_apart (hinj : Function.Injective key) (hmono : ∀ i j, key i < key j → draw i ≤ draw j) (hne : i ≠ j) :
    displaced size draw key i + size i ≤ displaced size draw key j ∨
      displaced size draw key j + size j ≤ displaced size draw key i :=
  (lt_or_gt_of_ne fun h => hne (hinj h)).imp (displaced_add_le hmono) (displaced_add_le hmono)

/-- No region ends past the draws and the sizes of all. -/
theorem displaced_add_size_le (hdraw : draw i ≤ remaining) :
    displaced size draw key i + size i ≤ remaining + ∑ j, size j := by
  classical
  rw [displaced_add_size]
  exact Nat.add_le_add hdraw (sum_le_sum_of_subset (subset_univ _))

end Lib
end Citron
