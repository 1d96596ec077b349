/-
# Alignment

`Common::AlignUp` and `Common::AlignDown`.
-/
import Mathlib

namespace Citron
namespace Common

def alignUp (value size : ℕ) : ℕ :=
  let mod := value % size
  if mod = 0 then value - mod else value - mod + size

def alignDown (value size : ℕ) : ℕ := value - value % size

variable {value size : ℕ}

theorem alignDown_eq (value size : ℕ) : alignDown value size = value / size * size := by
  have := Nat.div_add_mod' value size
  unfold alignDown
  omega

theorem alignDown_le (value size : ℕ) : alignDown value size ≤ value := Nat.sub_le ..

theorem dvd_alignDown (value size : ℕ) : size ∣ alignDown value size := by
  rw [alignDown_eq]
  exact Nat.dvd_mul_left ..

theorem lt_alignDown_add (hs : 0 < size) : value < alignDown value size + size := by
  have := Nat.mod_lt value hs
  unfold alignDown
  omega

theorem alignDown_of_dvd (h : size ∣ value) : alignDown value size = value := by
  unfold alignDown
  rw [Nat.mod_eq_zero_of_dvd h, Nat.sub_zero]

theorem alignUp_of_dvd (h : size ∣ value) : alignUp value size = value := by
  unfold alignUp
  simp [Nat.mod_eq_zero_of_dvd h]

theorem le_alignUp (hs : 0 < size) : value ≤ alignUp value size := by
  have := Nat.mod_lt value hs
  unfold alignUp
  simp only
  split_ifs <;> omega

theorem dvd_alignUp (value size : ℕ) : size ∣ alignUp value size := by
  have h := dvd_alignDown value size
  unfold alignUp
  simp only
  split_ifs
  · exact h
  · exact Nat.dvd_add h (Nat.dvd_refl _)

theorem alignUp_lt_add (hs : 0 < size) : alignUp value size < value + size := by
  have := Nat.mod_le value size
  unfold alignUp
  simp only
  split_ifs <;> omega

/-- No multiple lies below the one above. -/
theorem alignUp_le {k : ℕ} (hd : size ∣ k) (hk : value ≤ k) : alignUp value size ≤ k := by
  rcases Nat.eq_zero_or_pos size with rfl | hs
  · obtain rfl := Nat.eq_zero_of_zero_dvd hd
    obtain rfl := Nat.le_zero.mp hk
    rfl
  · have h1 : alignUp value size < value + size := alignUp_lt_add hs
    obtain ⟨i, hi⟩ := dvd_alignUp value size
    obtain ⟨j, rfl⟩ := hd
    rw [hi] at h1 ⊢
    have : i < j + 1 := Nat.lt_of_mul_lt_mul_left (a := size) (by rw [Nat.mul_succ]; omega)
    exact Nat.mul_le_mul_left _ (by omega)

end Common
end Citron
