/-
# Block linear layouts

An image is cut into blocks, a block into GOBs of 64 bytes by 8 lines, and the bytes of a GOB are
permuted. The place of a byte is a number with one digit for each of these choices, so different
bytes have different places, and there are as many places as the blocks have bytes.
-/
import Mathlib.Tactic.Ring

namespace Citron
namespace Tegra
namespace Texture

/-! ### Numbers with digits -/

theorem digit_lt {a b k m : ℕ} (ha : a < k) (hb : b < m) : a * m + b < k * m :=
  calc a * m + b
      < a * m + m := Nat.add_lt_add_left hb _
    _ = (a + 1) * m := (Nat.succ_mul a m).symm
    _ ≤ k * m := Nat.mul_le_mul_right m ha

theorem digit_inj {a a' b b' m : ℕ} (hb : b < m) (hb' : b' < m) (h : a * m + b = a' * m + b') : a = a' ∧ b = b' := by
  have hdiv := congrArg (· / m) h
  have hpos : 0 < m := Nat.lt_of_le_of_lt (Nat.zero_le b) hb
  simp only [Nat.mul_comm _ m, Nat.mul_add_div hpos, Nat.div_eq_of_lt hb, Nat.div_eq_of_lt hb', Nat.add_zero] at hdiv
  subst hdiv
  exact ⟨rfl, Nat.add_left_cancel h⟩

/-- A quotient rounded up. -/
def ceilDiv (n m : ℕ) : ℕ := (n + (m - 1)) / m

theorem le_ceilDiv_mul {m : ℕ} (hm : 0 < m) (n : ℕ) : n ≤ ceilDiv n m * m := by
  have h := Nat.div_add_mod (n + (m - 1)) m
  have hlt := Nat.mod_lt (n + (m - 1)) hm
  rw [ceilDiv, Nat.mul_comm]
  omega

theorem div_lt_ceilDiv {i n m : ℕ} (hm : 0 < m) (hi : i < n) : i / m < ceilDiv n m :=
  Nat.div_lt_of_lt_mul (by
    rw [Nat.mul_comm]
    exact Nat.lt_of_lt_of_le hi (le_ceilDiv_mul hm n))

/-! ### Layouts -/

/-- A layout: GOBs in a row of the image, blocks in a column, and the logarithms of a block's sizes in GOBs. -/
structure BlockLinear where
  gobsInX : ℕ
  blocksInY : ℕ
  blockHeight : ℕ
  blockDepth : ℕ

/-- `MakeSwizzleTable`: where a GOB has the byte at `x` and `y`. -/
def swizzleTable (x y : ℕ) : ℕ :=
  x % 64 / 32 * 256 + y % 8 / 2 * 64 + x % 32 / 16 * 32 + y % 2 * 16 + x % 16

theorem swizzleTable_lt (x y : ℕ) : swizzleTable x y < 512 := by
  unfold swizzleTable
  omega

theorem swizzleTable_inj {x x' y y' : ℕ} (h : swizzleTable x y = swizzleTable x' y') :
    x % 64 = x' % 64 ∧ y % 8 = y' % 8 := by
  unfold swizzleTable at h
  omega

namespace BlockLinear

variable (l : BlockLinear)

/-- The place of a byte: its block, the slice and the GOB of the block, the byte of the GOB. -/
def place (x y z : ℕ) : ℕ :=
  ((((z / 2 ^ l.blockDepth * l.blocksInY + y / 8 / 2 ^ l.blockHeight) * l.gobsInX + x / 64) * 2 ^ l.blockDepth +
    z % 2 ^ l.blockDepth) * 2 ^ l.blockHeight + y / 8 % 2 ^ l.blockHeight) * 512 + swizzleTable x y

/-- The bytes of the blocks, `blocksInZ` of them behind one another. -/
def size (blocksInZ : ℕ) : ℕ :=
  blocksInZ * l.blocksInY * l.gobsInX * 2 ^ l.blockDepth * 2 ^ l.blockHeight * 512

variable {l} {x x' y y' z z' blocksInZ : ℕ}

theorem place_lt (hx : x / 64 < l.gobsInX) (hy : y / 8 / 2 ^ l.blockHeight < l.blocksInY)
    (hz : z / 2 ^ l.blockDepth < blocksInZ) : l.place x y z < l.size blocksInZ := by
  apply digit_lt _ (swizzleTable_lt x y)
  apply digit_lt _ (Nat.mod_lt _ (Nat.two_pow_pos _))
  apply digit_lt _ (Nat.mod_lt _ (Nat.two_pow_pos _))
  exact digit_lt (digit_lt hz hy) hx

/-- **Different bytes have different places.** -/
theorem place_inj (hx : x / 64 < l.gobsInX) (hy : y / 8 / 2 ^ l.blockHeight < l.blocksInY)
    (hx' : x' / 64 < l.gobsInX) (hy' : y' / 8 / 2 ^ l.blockHeight < l.blocksInY)
    (h : l.place x y z = l.place x' y' z') : x = x' ∧ y = y' ∧ z = z' := by
  obtain ⟨h, htable⟩ := digit_inj (swizzleTable_lt x y) (swizzleTable_lt x' y') h
  obtain ⟨h, hgob⟩ := digit_inj (Nat.mod_lt _ (Nat.two_pow_pos _)) (Nat.mod_lt _ (Nat.two_pow_pos _)) h
  obtain ⟨h, hslice⟩ := digit_inj (Nat.mod_lt _ (Nat.two_pow_pos _)) (Nat.mod_lt _ (Nat.two_pow_pos _)) h
  obtain ⟨h, hcolumn⟩ := digit_inj hx hx' h
  obtain ⟨hz, hrow⟩ := digit_inj hy hy' h
  obtain ⟨hx64, hy8⟩ := swizzleTable_inj htable
  have hyGob : y / 8 = y' / 8 := by
    rw [← Nat.div_add_mod (y / 8) (2 ^ l.blockHeight), ← Nat.div_add_mod (y' / 8) (2 ^ l.blockHeight), hrow, hgob]
  refine ⟨?_, ?_, ?_⟩
  · rw [← Nat.div_add_mod x 64, ← Nat.div_add_mod x' 64, hcolumn, hx64]
  · rw [← Nat.div_add_mod y 8, ← Nat.div_add_mod y' 8, hyGob, hy8]
  · rw [← Nat.div_add_mod z (2 ^ l.blockDepth), ← Nat.div_add_mod z' (2 ^ l.blockDepth), hz, hslice]

/-- Bytes of one aligned piece of a row follow each other. -/
theorem place_add {b : ℕ} (hb : x % 16 + b < 16) : l.place (x + b) y z = l.place x y z + b := by
  have h64 : (x + b) / 64 = x / 64 := by omega
  have htable : swizzleTable (x + b) y = swizzleTable x y + b := by
    unfold swizzleTable
    omega
  rw [place, place, h64, htable, Nat.add_assoc]

/-- The place as a sum of offsets of the block's slice, of the row of blocks and of the column of blocks. -/
theorem place_eq_sum (x y z : ℕ) : l.place x y z =
    z / 2 ^ l.blockDepth * (l.blocksInY * (l.gobsInX * 2 ^ (9 + l.blockHeight + l.blockDepth))) +
      z % 2 ^ l.blockDepth * 2 ^ (9 + l.blockHeight) +
      (y / 8 / 2 ^ l.blockHeight * (l.gobsInX * 2 ^ (9 + l.blockHeight + l.blockDepth)) +
        y / 8 % 2 ^ l.blockHeight * 2 ^ 9) +
      x / 64 * 2 ^ (9 + l.blockHeight + l.blockDepth) + swizzleTable x y := by
  simp only [place, Nat.pow_add]
  ring

end BlockLinear

end Texture
end Tegra
end Citron
