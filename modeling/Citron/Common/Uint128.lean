/-
# 128-bit arithmetic without 128-bit integers

The fallbacks of `uint128.h` for compilers without 128-bit integers: a product divided by a number, a fixed point factor by
shifting and subtracting, the high half of a product, and a 128-bit number divided by a 32-bit one. The products and the
division by 32 bits are exact up to what does not fit the result; `MultiplyAndDivide64` is exact as long as the product of
the two remainders fits 64 bits (`multiplyAndDivide64_exact_iff`).
-/
import Citron.Lib.LongArithmetic

namespace Citron
namespace Common

open Lib.LongArithmetic BitVec

/-! ### The fallbacks -/

/-- `static_cast<u32>`, and back to 64 bits. -/
def u32 (value : BitVec 64) : BitVec 64 := (value.setWidth 32).setWidth 64

def multiplyAndDivide64 (a b d : BitVec 64) : BitVec 64 :=
  let diva := a / d
  let moda := a % d
  let divb := b / d
  let modb := b % d
  diva * b + moda * divb + moda * modb / d

/-- A step of the loop of `GetFixedPoint64Factor`: the quotient and the remainder after a bit. -/
def getFixedPoint64FactorBit (numerator divisor : BitVec 64) (bit : ℕ) :
    BitVec 64 × BitVec 64 → BitVec 64 × BitVec 64
  | (quotient, remainder) =>
    let inputBit := decide (64 ≤ bit) && decide ((numerator >>> (bit - 64)) &&& 1 ≠ 0)
    let overflow := decide (remainder >>> 63 ≠ 0)
    let remainder := (remainder <<< 1) ||| (if inputBit then 1 else 0)
    if overflow || decide (divisor ≤ remainder) then
      (if bit < 64 then quotient ||| 1#64 <<< bit else quotient, remainder - divisor)
    else (quotient, remainder)

/-- The bits from one down to 0. -/
def getFixedPoint64FactorLoop (numerator divisor : BitVec 64) :
    ℕ → BitVec 64 × BitVec 64 → BitVec 64 × BitVec 64
  | 0, state => state
  | bit + 1, state =>
    getFixedPoint64FactorLoop numerator divisor bit (getFixedPoint64FactorBit numerator divisor bit state)

/-- Where the compiler has no `__udivti3`. -/
def getFixedPoint64Factor (numerator divisor : BitVec 64) : BitVec 64 :=
  (getFixedPoint64FactorLoop numerator divisor 128 (0, 0)).1

/-- Where it has no 128-bit division of any kind; "bit more inaccurate". -/
def getFixedPoint64FactorInaccurate (numerator divisor : BitVec 64) : BitVec 64 :=
  multiplyAndDivide64 (BitVec.allOnes 64) numerator divisor

def multiplyHigh (a b : BitVec 64) : BitVec 64 :=
  let aLo := u32 a
  let aHi := a >>> 32
  let bLo := u32 b
  let bHi := b >>> 32
  let aXBHi := aHi * bHi
  let aXBMid := aHi * bLo
  let bXAMid := bHi * aLo
  let aXBLo := aLo * bLo
  let carryBit := (u32 aXBMid + u32 bXAMid + (aXBLo >>> 32)) >>> 32
  aXBHi + (aXBMid >>> 32) + (bXAMid >>> 32) + carryBit

/-- The dividend has its low half first. -/
def divide128On32 (dividend : BitVec 64 × BitVec 64) (divisor32 : BitVec 32) : BitVec 64 × BitVec 64 :=
  let divisor := divisor32.setWidth 64
  let remainder := dividend.1 % divisor
  let accum := dividend.1 / divisor
  if dividend.2 = 0 then (accum, remainder)
  else
    -- `dividend[1] / divisor` is left out "as that overflows".
    let firstSegment := (dividend.2 % divisor) <<< 32
    let accum := accum + ((firstSegment / divisor) <<< 32)
    let secondSegment := (firstSegment % divisor) <<< 32
    let accum := accum + secondSegment / divisor
    let remainder := remainder + secondSegment % divisor
    if divisor ≤ remainder then (accum + 1, remainder - divisor) else (accum, remainder)

example : multiplyHigh (BitVec.allOnes 64) (BitVec.allOnes 64) = BitVec.allOnes 64 - 1 := by decide

/-! ### `MultiplyAndDivide64` -/

section MultiplyAndDivide64

variable {a b d : BitVec 64}

/-- What the fallback computes: the product of the remainders wraps around before the division. -/
theorem multiplyAndDivide64_toNat : (multiplyAndDivide64 a b d).toNat =
    (a.toNat / d.toNat * b.toNat + a.toNat % d.toNat * (b.toNat / d.toNat) +
      a.toNat % d.toNat * (b.toNat % d.toNat) % 2 ^ 64 / d.toNat) % 2 ^ 64 := by
  unfold multiplyAndDivide64
  simp only [toNat_add, toNat_mul, toNat_udiv, toNat_umod, Nat.add_mod, Nat.mod_mod]

/-- **`MultiplyAndDivide64` is exact** on quotients that fit, exactly if the product of the remainders fits. -/
theorem multiplyAndDivide64_exact_iff (hd : d ≠ 0) (hfits : a.toNat * b.toNat / d.toNat < 2 ^ 64) :
    (multiplyAndDivide64 a b d).toNat = a.toNat * b.toNat / d.toNat ↔
      a.toNat % d.toNat * (b.toNat % d.toNat) < 2 ^ 64 := by
  have hpos : 0 < d.toNat := Nat.pos_of_ne_zero fun h => hd (eq_of_toNat_eq h)
  rw [← mod_div_eq_iff hpos d.isLt.le, multiplyAndDivide64_toNat]
  rw [mul_div_split _ _ hpos] at hfits ⊢
  have hle : a.toNat % d.toNat * (b.toNat % d.toNat) % 2 ^ 64 / d.toNat ≤
      a.toNat % d.toNat * (b.toNat % d.toNat) / d.toNat := Nat.div_le_div_right (Nat.mod_le ..)
  rw [Nat.mod_eq_of_lt (by omega)]
  omega

end MultiplyAndDivide64

/-! ### `MultiplyHigh` -/

@[simp] theorem u32_toNat (value : BitVec 64) : (u32 value).toNat = value.toNat % 2 ^ 32 := by
  rw [u32, toNat_setWidth, toNat_setWidth]
  omega

theorem shiftRight_32_toNat (value : BitVec 64) : (value >>> 32).toNat = value.toNat / 2 ^ 32 := by
  rw [toNat_ushiftRight, Nat.shiftRight_eq_div_pow]

/-- A product of halves does not wrap around. -/
theorem mul_halves_toNat {x y : BitVec 64} (hx : x.toNat < 2 ^ 32) (hy : y.toNat < 2 ^ 32) :
    (x * y).toNat = x.toNat * y.toNat ∧ x.toNat * y.toNat ≤ (2 ^ 32 - 1) * (2 ^ 32 - 1) := by
  have hle : x.toNat * y.toNat ≤ (2 ^ 32 - 1) * (2 ^ 32 - 1) := Nat.mul_le_mul (by omega) (by omega)
  exact ⟨by rw [toNat_mul, Nat.mod_eq_of_lt (by omega)], hle⟩

/-- **`MultiplyHigh`** is the high half of the product. -/
theorem multiplyHigh_toNat (a b : BitVec 64) : (multiplyHigh a b).toNat = a.toNat * b.toNat / 2 ^ 64 := by
  have hahi : (a >>> 32).toNat < 2 ^ 32 := by rw [shiftRight_32_toNat]; have := a.isLt; omega
  have hbhi : (b >>> 32).toNat < 2 ^ 32 := by rw [shiftRight_32_toNat]; have := b.isLt; omega
  have halo : (u32 a).toNat < 2 ^ 32 := by rw [u32_toNat]; omega
  have hblo : (u32 b).toNat < 2 ^ 32 := by rw [u32_toNat]; omega
  have hparts : a.toNat * b.toNat / 2 ^ 64 = _ :=
    (congrArg₂ (fun x y => x * y / (2 ^ 32 * 2 ^ 32)) (Nat.div_add_mod' a.toNat (2 ^ 32)).symm
      (Nat.div_add_mod' b.toNat (2 ^ 32)).symm).trans (mul_high (2 ^ 32) _ _ _ _ (by decide))
  have hlt : a.toNat * b.toNat / 2 ^ 64 < 2 ^ 64 :=
    Nat.div_lt_of_lt_mul (Nat.mul_lt_mul'' a.isLt b.isLt)
  obtain ⟨hhh, hhhle⟩ := mul_halves_toNat hahi hbhi
  obtain ⟨hhl, hhlle⟩ := mul_halves_toNat hahi hblo
  obtain ⟨hlh, hlhle⟩ := mul_halves_toNat hbhi halo
  obtain ⟨hll, hllle⟩ := mul_halves_toNat halo hblo
  unfold multiplyHigh
  simp only [toNat_add, shiftRight_32_toNat, u32_toNat] at hhh hhl hlh hll hhhle hhlle hlhle hllle ⊢
  rw [hhh, hhl, hlh, hll]
  rw [hparts] at hlt ⊢
  generalize a.toNat / 2 ^ 32 * (b.toNat / 2 ^ 32) = hh at *
  generalize a.toNat / 2 ^ 32 * (b.toNat % 2 ^ 32) = hl at *
  generalize b.toNat / 2 ^ 32 * (a.toNat % 2 ^ 32) = lh at *
  generalize a.toNat % 2 ^ 32 * (b.toNat % 2 ^ 32) = ll at *
  omega

/-! ### `Divide128On32` -/

def toNat128 (value : BitVec 64 × BitVec 64) : ℕ := value.2.toNat * 2 ^ 64 + value.1.toNat

theorem shiftLeft_32_toNat (value : BitVec 64) : (value <<< 32).toNat = value.toNat * 2 ^ 32 % 2 ^ 64 := by
  rw [toNat_shiftLeft, Nat.shiftLeft_eq]

/-- A remainder brought up by 32 bits does not wrap around, and its quotient is a digit. -/
theorem segment_toNat (value : BitVec 64) {divisor : BitVec 64} {d : ℕ} (hd : divisor.toNat = d) (hpos : 0 < d)
    (hlt : d < 2 ^ 32) :
    ((value % divisor) <<< 32).toNat = value.toNat % d * 2 ^ 32 ∧ value.toNat % d * 2 ^ 32 / d < 2 ^ 32 := by
  have hmod := Nat.mod_lt value.toNat hpos
  constructor
  · rw [shiftLeft_32_toNat, toNat_umod, hd, Nat.mod_eq_of_lt (by omega)]
  · exact Nat.div_lt_of_lt_mul (Nat.mul_lt_mul_of_pos_right hmod (by decide))

/-- **`Divide128On32`** has the exact remainder, and the quotient up to what does not fit 64 bits. -/
theorem divide128On32_toNat (dividend : BitVec 64 × BitVec 64) {divisor : BitVec 32} (hd : divisor ≠ 0) :
    (divide128On32 dividend divisor).1.toNat = toNat128 dividend / divisor.toNat % 2 ^ 64 ∧
      (divide128On32 dividend divisor).2.toNat = toNat128 dividend % divisor.toNat := by
  have hpos : 0 < divisor.toNat := Nat.pos_of_ne_zero fun h => hd (eq_of_toNat_eq h)
  have hdlt := divisor.isLt
  have hwide : (divisor.setWidth 64).toNat = divisor.toNat := by
    rw [toNat_setWidth, Nat.mod_eq_of_lt (by omega)]
  obtain ⟨lo, hi⟩ := dividend
  have hlo := lo.isLt
  unfold divide128On32 toNat128
  simp only
  generalize hword : divisor.setWidth 64 = word at hwide ⊢
  by_cases hzero : hi = 0
  · have hquotient : lo.toNat / divisor.toNat < 2 ^ 64 := lt_of_le_of_lt (Nat.div_le_self ..) hlo
    rw [if_pos hzero, hzero, toNat_udiv, toNat_umod, hwide]
    have hnat : (0 : BitVec 64).toNat * 2 ^ 64 + lo.toNat = lo.toNat := by
      rw [show (0 : BitVec 64).toNat = 0 from rfl, Nat.zero_mul, Nat.zero_add]
    rw [hnat, Nat.mod_eq_of_lt hquotient]
    exact ⟨rfl, rfl⟩
  · rw [if_neg hzero]
    obtain ⟨hfirst, hq₁⟩ := segment_toNat hi hwide hpos hdlt
    obtain ⟨hsecond, hq₂⟩ := segment_toNat ((hi % word) <<< 32) hwide hpos hdlt
    rw [hfirst] at hsecond hq₂
    have hsquare : (2 : ℕ) ^ 64 = 2 ^ 32 * 2 ^ 32 := by norm_num
    have hexact := div_two_digits (2 ^ 32) hi.toNat lo.toNat hpos
    rw [← hsquare] at hexact
    rw [hexact.1, hexact.2]
    generalize (hi % word) <<< 32 = first at hfirst hsecond ⊢
    generalize (first % word) <<< 32 = second at hsecond ⊢
    have hrest := Nat.mod_lt lo.toNat hpos
    have hrest' := Nat.mod_lt second.toNat hpos
    have hremainder : (lo % word + second % word).toNat = second.toNat % divisor.toNat + lo.toNat % divisor.toNat := by
      rw [toNat_add, toNat_umod, toNat_umod, hwide, Nat.add_comm, Nat.mod_eq_of_lt (by omega)]
    have hshift : ((first / word) <<< 32).toNat = first.toNat / divisor.toNat * 2 ^ 32 := by
      rw [shiftLeft_32_toNat, toNat_udiv, hwide, Nat.mod_eq_of_lt (by rw [hfirst]; omega)]
    have hle : word ≤ lo % word + second % word ↔
        divisor.toNat ≤ second.toNat % divisor.toNat + lo.toNat % divisor.toNat := by
      rw [le_def, hwide, hremainder]
    rw [← hsecond, ← hfirst]
    by_cases hcarry : divisor.toNat ≤ second.toNat % divisor.toNat + lo.toNat % divisor.toNat
    · rw [if_pos (hle.mpr hcarry), if_pos hcarry, if_pos hcarry, toNat_sub_of_le (hle.mpr hcarry), hremainder,
        hwide]
      refine ⟨?_, rfl⟩
      simp only [toNat_add, hshift, toNat_udiv, hwide]
      have hone : (1 : BitVec 64).toNat = 1 := rfl
      omega
    · rw [if_neg (hle.not.mpr hcarry), if_neg hcarry, if_neg hcarry, hremainder]
      refine ⟨?_, rfl⟩
      simp only [toNat_add, hshift, toNat_udiv, hwide]
      omega

/-! ### `GetFixedPoint64Factor` -/

section GetFixedPoint64Factor

variable {numerator divisor : BitVec 64}

/-- The bits of the shifted numerator down to one have been divided. -/
def Divided (numerator divisor : BitVec 64) (bit : ℕ) (state : BitVec 64 × BitVec 64) : Prop :=
  state.1.toNat = numerator.toNat * 2 ^ 64 / 2 ^ bit / divisor.toNat * 2 ^ bit ∧
    state.2.toNat = numerator.toNat * 2 ^ 64 / 2 ^ bit % divisor.toNat

/-- The bit of the shifted numerator that a step brings down. -/
theorem inputBit_eq (bit : ℕ) :
    (decide (64 ≤ bit) && decide ((numerator >>> (bit - 64)) &&& 1 ≠ 0)) =
      decide (numerator.toNat * 2 ^ 64 / 2 ^ bit % 2 = 1) := by
  have hand : (numerator >>> (bit - 64)) &&& 1 ≠ 0 ↔ numerator.toNat / 2 ^ (bit - 64) % 2 = 1 := by
    rw [ne_eq, toNat_eq, toNat_and, toNat_ushiftRight, Nat.shiftRight_eq_div_pow]
    have hone : (1 : BitVec 64).toNat = 1 := rfl
    have hzero : (0 : BitVec 64).toNat = 0 := rfl
    rw [hone, hzero, Nat.and_one_is_mod]
    omega
  rcases Nat.lt_or_ge bit 64 with hlt | hge
  · have heven : numerator.toNat * 2 ^ 64 / 2 ^ bit % 2 = 0 := by
      have hsplit : numerator.toNat * 2 ^ 64 = 2 * (numerator.toNat * 2 ^ (63 - bit)) * 2 ^ bit := by
        rw [show (2 : ℕ) ^ 64 = 2 * 2 ^ (63 - bit) * 2 ^ bit by rw [← pow_succ', ← pow_add]; congr 1; omega]
        ring
      rw [hsplit, Nat.mul_div_cancel _ (by positivity), Nat.mul_mod_right]
    rw [heven, decide_eq_false (by omega : ¬ 64 ≤ bit), Bool.false_and]
    rfl
  · have hshift : numerator.toNat * 2 ^ 64 / 2 ^ bit = numerator.toNat / 2 ^ (bit - 64) := by
      rw [show (2 : ℕ) ^ bit = 2 ^ (bit - 64) * 2 ^ 64 by rw [← pow_add]; congr 1; omega]
      exact Nat.mul_div_mul_right _ _ (by positivity)
    rw [hshift, decide_eq_true hge, Bool.true_and, decide_eq_decide]
    exact hand

/-- Bringing down a bit: the remainder is doubled, and whether the divisor goes in is seen from the bit that falls out. -/
theorem bringDown {remainder : BitVec 64} {b : ℕ} (hb : b < 2) (hlt : remainder.toNat < divisor.toNat) :
    let remainder' := (remainder <<< 1) ||| (if decide (b = 1) then 1 else 0)
    ((decide (remainder >>> 63 ≠ 0) || decide (divisor ≤ remainder')) = true ↔
        divisor.toNat ≤ 2 * remainder.toNat + b) ∧
      (divisor.toNat ≤ 2 * remainder.toNat + b →
        (remainder' - divisor).toNat = 2 * remainder.toNat + b - divisor.toNat) ∧
      (¬ divisor.toNat ≤ 2 * remainder.toNat + b → remainder'.toNat = 2 * remainder.toNat + b) := by
  intro remainder'
  have hbit : (if decide (b = 1) then 1 else 0 : BitVec 64).toNat = b := by
    rcases Nat.lt_or_ge b 1 with h | h
    · obtain rfl : b = 0 := by omega
      rfl
    · obtain rfl : b = 1 := by omega
      rfl
  have hshift : remainder'.toNat = 2 * remainder.toNat % 2 ^ 64 + b := by
    have heven : 2 * remainder.toNat % 2 ^ 64 = 2 ^ 1 * (remainder.toNat % 2 ^ 63) := by omega
    rw [toNat_or, hbit, toNat_shiftLeft, Nat.shiftLeft_eq, pow_one, Nat.mul_comm, heven,
      Nat.two_pow_add_eq_or_of_lt (by omega)]
  have hoverflow : remainder >>> 63 ≠ 0 ↔ 2 ^ 63 ≤ remainder.toNat := by
    rw [ne_eq, toNat_eq, toNat_ushiftRight, Nat.shiftRight_eq_div_pow]
    have hzero : (0 : BitVec 64).toNat = 0 := rfl
    rw [hzero]
    omega
  have := remainder.isLt
  refine ⟨?_, ?_, ?_⟩
  · rw [Bool.or_eq_true, decide_eq_true_eq, decide_eq_true_eq, hoverflow, le_def, hshift]
    omega
  · intro hle
    rw [toNat_sub, hshift]
    omega
  · intro hgt
    rw [hshift]
    omega

theorem Divided.step {bit : ℕ} {state : BitVec 64 × BitVec 64} (hlt : numerator < divisor)
    (h : Divided numerator divisor (bit + 1) state) :
    Divided numerator divisor bit (getFixedPoint64FactorBit numerator divisor bit state) := by
  obtain ⟨quotient, remainder⟩ := state
  obtain ⟨hquotient, hremainder⟩ := h
  rw [lt_def] at hlt
  have hpos : 0 < divisor.toNat := by omega
  unfold Divided getFixedPoint64FactorBit
  simp only at hquotient hremainder ⊢
  rw [inputBit_eq]
  have hhalf : numerator.toNat * 2 ^ 64 / 2 ^ (bit + 1) = numerator.toNat * 2 ^ 64 / 2 ^ bit / 2 := by
    rw [Nat.div_div_eq_div_mul, ← pow_succ]
  have hle : numerator.toNat * 2 ^ 64 / 2 ^ bit < divisor.toNat ∨ bit < 64 := by
    refine (Nat.lt_or_ge bit 64).symm.imp_left fun hge => lt_of_le_of_lt ?_ hlt
    calc numerator.toNat * 2 ^ 64 / 2 ^ bit ≤ numerator.toNat * 2 ^ 64 / 2 ^ 64 :=
          Nat.div_le_div_left (Nat.pow_le_pow_right (by decide) hge) (by positivity)
      _ = numerator.toNat := Nat.mul_div_cancel _ (by positivity)
  rw [hhalf] at hquotient hremainder
  generalize numerator.toNat * 2 ^ 64 / 2 ^ bit = shifted at hquotient hremainder hle ⊢
  have hb : shifted % 2 < 2 := Nat.mod_lt _ (by decide)
  have hstep := div_bit (n := shifted / 2) hpos hb
  rw [Nat.div_add_mod, ← hremainder] at hstep
  have hremlt : remainder.toNat < divisor.toNat := by rw [hremainder]; exact Nat.mod_lt _ hpos
  obtain ⟨htest, htaken, hleft⟩ := bringDown hb hremlt
  generalize (remainder <<< 1 ||| if decide (shifted % 2 = 1) then 1 else 0) = remainder' at htest htaken hleft ⊢
  by_cases hin : divisor.toNat ≤ 2 * remainder.toNat + shifted % 2
  · rw [if_pos (htest.mpr hin)]
    rw [if_pos hin, if_pos hin] at hstep
    have hlow : bit < 64 := hle.resolve_left fun h => by
      rw [Nat.div_eq_of_lt h] at hstep
      omega
    refine ⟨?_, by rw [htaken hin, hstep.2]⟩
    have hone : (1#64 <<< bit).toNat = 2 ^ bit := by
      rw [toNat_shiftLeft, show (1#64).toNat = 1 from rfl, Nat.one_shiftLeft]
      exact Nat.mod_eq_of_lt (Nat.pow_lt_pow_right (by decide) hlow)
    rw [if_pos hlow, hstep.1, toNat_or, hone, hquotient, Nat.mul_comm (shifted / 2 / divisor.toNat),
      ← Nat.two_pow_add_eq_or_of_lt (Nat.pow_lt_pow_right (by decide) (Nat.lt_succ_self bit)), pow_succ]
    ring
  · rw [if_neg (htest.not.mpr hin)]
    rw [if_neg hin, if_neg hin] at hstep
    refine ⟨?_, by rw [hleft hin, hstep.2]⟩
    simp only
    rw [hquotient, hstep.1, pow_succ]
    ring

theorem Divided.loop (hlt : numerator < divisor) : ∀ (bits : ℕ) (state : BitVec 64 × BitVec 64),
    Divided numerator divisor bits state →
    Divided numerator divisor 0 (getFixedPoint64FactorLoop numerator divisor bits state)
  | 0, _, h => h
  | bits + 1, _, h => Divided.loop hlt bits _ (h.step hlt)

/-- **`GetFixedPoint64Factor`** bit by bit. -/
theorem getFixedPoint64Factor_toNat (hlt : numerator < divisor) :
    (getFixedPoint64Factor numerator divisor).toNat = numerator.toNat * 2 ^ 64 / divisor.toNat := by
  have hstart : Divided numerator divisor 128 (0, 0) := by
    have hzero : numerator.toNat * 2 ^ 64 / 2 ^ 128 = 0 := Nat.div_eq_of_lt (by omega)
    unfold Divided
    rw [hzero, Nat.zero_div, Nat.zero_mod, Nat.zero_mul]
    exact ⟨rfl, rfl⟩
  have hend := (Divided.loop hlt 128 _ hstart).1
  rw [pow_zero, Nat.div_one, Nat.mul_one] at hend
  exact hend

/-- The last fallback gives that or one less, where its product and division are exact. -/
theorem getFixedPoint64FactorInaccurate_toNat (hlt : numerator < divisor)
    (hremainders : (2 ^ 64 - 1) % divisor.toNat * (numerator.toNat % divisor.toNat) < 2 ^ 64) :
    (getFixedPoint64FactorInaccurate numerator divisor).toNat = (2 ^ 64 - 1) * numerator.toNat / divisor.toNat ∧
      (2 ^ 64 - 1) * numerator.toNat / divisor.toNat ≤ numerator.toNat * 2 ^ 64 / divisor.toNat ∧
      numerator.toNat * 2 ^ 64 / divisor.toNat ≤ (2 ^ 64 - 1) * numerator.toNat / divisor.toNat + 1 := by
  rw [lt_def] at hlt
  have hpos : 0 < divisor.toNat := by omega
  have hones : (BitVec.allOnes 64).toNat = 2 ^ 64 - 1 := toNat_allOnes
  have hfits : (2 ^ 64 - 1) * numerator.toNat / divisor.toNat < 2 ^ 64 := by
    refine Nat.div_lt_of_lt_mul ?_
    omega
  refine ⟨?_, Nat.div_le_div_right (by omega), ?_⟩
  · rw [← hones] at hfits hremainders ⊢
    exact (multiplyAndDivide64_exact_iff (fun h => by rw [h] at hpos; exact absurd hpos (by decide)) hfits).mpr hremainders
  · rw [← Nat.add_div_right _ hpos]
    exact Nat.div_le_div_right (by omega)

theorem getFixedPoint64FactorInaccurate_clock :
    (getFixedPoint64FactorInaccurate 19200000 1000000000).toNat = (2 ^ 64 - 1) * 19200000 / 1000000000 :=
  (getFixedPoint64FactorInaccurate_toNat (by decide) (by decide)).1

end GetFixedPoint64Factor

/-! ### All of them -/

/-- **The fallbacks agree with 128-bit arithmetic**, the division by 32 bits up to the part of the quotient that does not
fit, the product divided by a number as long as the product of the remainders fits. -/
theorem fallbacks_agree (a b d : BitVec 64) (dividend : BitVec 64 × BitVec 64) (divisor : BitVec 32) :
    (a < d → (getFixedPoint64Factor a d).toNat = a.toNat * 2 ^ 64 / d.toNat) ∧
    (multiplyHigh a b).toNat = a.toNat * b.toNat / 2 ^ 64 ∧
    (divisor ≠ 0 → (divide128On32 dividend divisor).1.toNat = toNat128 dividend / divisor.toNat % 2 ^ 64 ∧
      (divide128On32 dividend divisor).2.toNat = toNat128 dividend % divisor.toNat) ∧
    (d ≠ 0 → a.toNat * b.toNat / d.toNat < 2 ^ 64 → a.toNat % d.toNat * (b.toNat % d.toNat) < 2 ^ 64 →
      (multiplyAndDivide64 a b d).toNat = a.toNat * b.toNat / d.toNat) :=
  ⟨getFixedPoint64Factor_toNat, multiplyHigh_toNat a b, divide128On32_toNat dividend,
    fun hd hfits hremainders => (multiplyAndDivide64_exact_iff hd hfits).mpr hremainders⟩

/-- A clock's worth of each: what each of them admits. -/
theorem fallbacks_agree_clock :
    (getFixedPoint64Factor 19200000 1000000000).toNat = 19200000 * 2 ^ 64 / 1000000000 ∧
    (multiplyHigh 19200000 1000000000).toNat = 19200000 * 1000000000 / 2 ^ 64 ∧
    ((divide128On32 (5, 3) 1000).1.toNat = (3 * 2 ^ 64 + 5) / 1000 % 2 ^ 64 ∧
      (divide128On32 (5, 3) 1000).2.toNat = (3 * 2 ^ 64 + 5) % 1000) ∧
    (multiplyAndDivide64 19200000 1000000000 1000000000).toNat = 19200000 * 1000000000 / 1000000000 := by
  obtain ⟨hfactor, hhigh, hdivide, hmultiply⟩ := fallbacks_agree 19200000 1000000000 1000000000 (5, 3) 1000
  exact ⟨hfactor (by decide), hhigh, hdivide (by decide), hmultiply (by decide) (by decide) (by decide)⟩

/-- A quotient that does not fit is cut off, and a product of remainders that does not fit is lost. -/
theorem fallbacks_not_agree :
    ¬ (divide128On32 (0, 1) 1).1.toNat = toNat128 (0, 1) / 1 ∧
    ¬ (multiplyAndDivide64 (2 ^ 33) (2 ^ 33) (2 ^ 34)).toNat = 2 ^ 33 * 2 ^ 33 / 2 ^ 34 := by
  decide +kernel

end Common
end Citron
