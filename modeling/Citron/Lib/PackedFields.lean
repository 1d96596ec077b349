/-
# Fields packed in words

A word holds fields of `width` bits side by side. Writing one field leaves the others, and
a value that fits is read back.
-/
import Mathlib

namespace Citron

open BitVec

variable {width i j : ℕ} {w v : BitVec 64}

def fieldMask (width : ℕ) : BitVec 64 := BitVec.ofNat 64 (2 ^ width - 1)

def getField (width : ℕ) (w : BitVec 64) (i : ℕ) : BitVec 64 := w >>> (i * width) &&& fieldMask width

def setField (width : ℕ) (w : BitVec 64) (i : ℕ) (v : BitVec 64) : BitVec 64 :=
  ~~~(fieldMask width <<< (i * width)) &&& w ||| v <<< (i * width)

theorem getLsbD_fieldMask (k : ℕ) : (fieldMask width).getLsbD k = (decide (k < 64) && decide (k < width)) := by
  rw [fieldMask, getLsbD_ofNat, Nat.testBit_two_pow_sub_one]

theorem getLsbD_getField (k : ℕ) : (getField width w i).getLsbD k = (decide (k < width) && w.getLsbD (i * width + k)) := by
  rw [getField, getLsbD_and, getLsbD_ushiftRight, getLsbD_fieldMask]
  by_cases hk : k < 64
  · rw [decide_eq_true hk, Bool.true_and, Bool.and_comm]
  · rw [getLsbD_of_ge _ _ (by omega), Bool.false_and, Bool.and_false]

theorem getLsbD_setField (k : ℕ) (hk : k < 64) : (setField width w i v).getLsbD k =
    ((!(decide (i * width ≤ k) && decide (k - i * width < width)) && w.getLsbD k) ||
      (decide (i * width ≤ k) && v.getLsbD (k - i * width))) := by
  rw [setField, getLsbD_or, getLsbD_and, getLsbD_not, getLsbD_shiftLeft,
    getLsbD_shiftLeft, getLsbD_fieldMask]
  by_cases hle : i * width ≤ k
  · have hlt : k - i * width < 64 := by omega
    simp [hk, hle, hlt, Nat.not_lt.mpr hle]
  · simp [hk, hle, Nat.lt_of_not_le hle]

/-- The field that was written. -/
theorem getField_setField_self (hi : (i + 1) * width ≤ 64) (hv : v &&& fieldMask width = v) :
    getField width (setField width w i v) i = v := by
  apply eq_of_getLsbD_eq
  intro k hk
  rw [getLsbD_getField]
  by_cases hlt : k < width
  · rw [Nat.succ_mul] at hi
    rw [decide_eq_true hlt, Bool.true_and, getLsbD_setField _ (by omega), Nat.add_sub_cancel_left]
    simp [hlt]
  · rw [decide_eq_false hlt, Bool.false_and, ← hv, getLsbD_and, getLsbD_fieldMask, decide_eq_false hlt,
      Bool.and_false, Bool.and_false]

/-- The other fields. -/
theorem getField_setField_of_ne (hij : i ≠ j) (hj : (j + 1) * width ≤ 64) (hv : v &&& fieldMask width = v) :
    getField width (setField width w i v) j = getField width w j := by
  apply eq_of_getLsbD_eq
  intro k hk
  rw [getLsbD_getField, getLsbD_getField]
  by_cases hlt : k < width
  · rw [Nat.succ_mul] at hj
    rw [getLsbD_setField _ (by omega)]
    rcases Nat.lt_or_gt_of_ne hij with h | h
    · have hmul : (i + 1) * width ≤ j * width := Nat.mul_le_mul_right _ h
      rw [Nat.succ_mul] at hmul
      have hvzero : v.getLsbD (j * width + k - i * width) = false := by
        rw [← hv, getLsbD_and, getLsbD_fieldMask, decide_eq_false (show ¬ j * width + k - i * width < width by omega),
          Bool.and_false, Bool.and_false]
      rw [hvzero, decide_eq_false (show ¬ j * width + k - i * width < width by omega)]
      simp
    · have hmul : (j + 1) * width ≤ i * width := Nat.mul_le_mul_right _ h
      rw [Nat.succ_mul] at hmul
      rw [decide_eq_false (show ¬ i * width ≤ j * width + k by omega)]
      simp
  · rw [decide_eq_false hlt, Bool.false_and, Bool.false_and]

end Citron
