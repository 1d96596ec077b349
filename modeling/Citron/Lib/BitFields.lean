/-
# Bit fields of words

A field is the bits of a word from an offset on, as many as a count says. Reading and replacing a field are defined bit
by bit; the shifts and masks that compute them are shown to.
-/
import Mathlib

namespace Citron
namespace Lib
namespace BitFields

open BitVec

variable {w : ℕ}

/-- The field at bit 0, zeros above it. -/
def extractUnsigned (base : BitVec w) (offset count : ℕ) : BitVec w :=
  BitVec.ofFnLE fun k => decide (k < count) && base.getLsbD (offset + k)

/-- The field at bit 0, its last bit repeated above it; zero for an empty field. -/
def extractSigned (base : BitVec w) (offset count : ℕ) : BitVec w :=
  BitVec.ofFnLE fun k => decide (0 < count) && base.getLsbD (offset + min (k : ℕ) (count - 1))

/-- The word with the low bits of another in the place of the field. -/
def insertBits (base insert : BitVec w) (offset count : ℕ) : BitVec w :=
  BitVec.ofFnLE fun k =>
    if offset ≤ k ∧ k < offset + count then insert.getLsbD (k - offset) else base.getLsbD k

theorem getLsbD_ofFnLE (f : Fin w → Bool) {k : ℕ} (hk : k < w) : (BitVec.ofFnLE f).getLsbD k = f ⟨k, hk⟩ := by
  rw [getLsbD_eq_getElem hk, getElem_ofFnLE]

/-- The low bits set, as the complement of the high ones. -/
def lowMask (w count : ℕ) : BitVec w := ~~~(BitVec.allOnes w <<< count)

@[simp] theorem getLsbD_lowMask {count k : ℕ} : (lowMask w count).getLsbD k = (decide (k < w) && decide (k < count)) := by
  rw [lowMask, getLsbD_not, getLsbD_shiftLeft, getLsbD_allOnes]
  by_cases hk : k < w <;> by_cases hc : k < count <;> simp [hk, hc]
  omega

/-- One less than a power of two sets the bits below it. -/
theorem one_shiftLeft_sub_one (count : ℕ) : (1#w <<< count) - 1#w = lowMask w count := by
  have hall : BitVec.allOnes w = 0#w - 1#w := by
    rw [BitVec.zero_sub]
    exact neg_one_eq_allOnes.symm
  have hshift : BitVec.allOnes w <<< count = 0#w - 1#w <<< count := by
    rw [hall, shiftLeft_eq_mul_twoPow, shiftLeft_eq_mul_twoPow, sub_mul]
    simp
  rw [lowMask, hshift, not_eq_neg_add]
  simp [BitVec.sub_eq_add_neg]

/-! ### Reading a field -/

theorem shift_and_mask (base : BitVec w) (offset count : ℕ) :
    base >>> offset &&& lowMask w count = extractUnsigned base offset count := by
  apply eq_of_getLsbD_eq
  intro k hk
  rw [extractUnsigned, getLsbD_ofFnLE _ hk, getLsbD_and, getLsbD_ushiftRight, getLsbD_lowMask]
  simp [hk, Bool.and_comm]

/-- The field shifted to the top of the word and back, repeating its last bit. -/
theorem shift_left_right (base : BitVec w) {offset count : ℕ} (hcount : 0 < count) (hfits : offset + count ≤ w) :
    (base <<< (w - (offset + count))).sshiftRight (w - count) = extractSigned base offset count := by
  apply eq_of_getLsbD_eq
  intro k hk
  have hmsb : (base <<< (w - (offset + count))).msb = base.getLsbD (offset + (count - 1)) := by
    rw [msb_eq_getLsbD_last, getLsbD_shiftLeft]
    have hlast : w - 1 - (w - (offset + count)) = offset + (count - 1) := by omega
    have hpast : ¬w - 1 < w - (offset + count) := by omega
    have hin : w - 1 < w := by omega
    simp [hlast, hpast, hin]
  rw [extractSigned, getLsbD_ofFnLE _ hk, getLsbD_sshiftRight, hmsb]
  by_cases hfield : k < count
  · have hmin : min k (count - 1) = k := by omega
    have hin : w - count + k < w := by omega
    have hpast : ¬w - count + k < w - (offset + count) := by omega
    have hbit : w - count + k - (w - (offset + count)) = offset + k := by omega
    rw [if_pos hin, getLsbD_shiftLeft, hbit, hmin]
    simp only [hin, hpast, hcount, Nat.not_le.mpr hk, decide_true, decide_false, Bool.not_false, Bool.true_and]
  · have hmin : min k (count - 1) = count - 1 := by omega
    have hin : ¬w - count + k < w := by omega
    rw [if_neg hin, hmin]
    simp only [hcount, Nat.not_le.mpr hk, decide_true, decide_false, Bool.not_false, Bool.true_and]

/-! ### Replacing a field -/

/-- The bits that an unmasked insert sets past the field. -/
def spilled (insert : BitVec w) (offset count : ℕ) : BitVec w :=
  insert <<< offset &&& ~~~(lowMask w count <<< offset)

/-- An insert that is not masked replaces the field just when the bits past it are set already. -/
theorem clear_and_or_unmasked_iff (base insert : BitVec w) (offset count : ℕ) :
    base &&& ~~~(lowMask w count <<< offset) ||| insert <<< offset = insertBits base insert offset count ↔
      spilled insert offset count &&& ~~~base = 0 := by
  rw [eq_of_getLsbD_eq_iff, eq_of_getLsbD_eq_iff]
  apply forall₂_congr
  intro k hk
  rw [insertBits, getLsbD_ofFnLE _ hk, spilled, getLsbD_or, getLsbD_and, getLsbD_and,
    getLsbD_and, getLsbD_not, getLsbD_not, getLsbD_shiftLeft, getLsbD_shiftLeft,
    getLsbD_lowMask]
  by_cases hlow : offset ≤ k
  · have hsub : k - offset < count ↔ k < offset + count := by omega
    have hin : k - offset < w := by omega
    have hnot : ¬k < offset := by omega
    by_cases hhigh : k < offset + count
    · simp [hk, hlow, hhigh, hsub, hin, hnot]
    · cases hbase : base.getLsbD k <;> cases hinsert : insert.getLsbD (k - offset) <;>
        simp [hk, hlow, hhigh, hsub, hin, hnot]
  · have hnot : k < offset := by omega
    simp [hk, hlow, hnot]

end BitFields
end Lib
end Citron
