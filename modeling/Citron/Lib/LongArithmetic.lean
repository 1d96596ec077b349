/-
# Arithmetic on numbers of several digits

Quotients and products that do not fit a word are computed from parts: a product divided by a number from the quotients
and remainders of its factors, the high part of a product from the products of halves, a quotient of two digits digit by
digit, and a quotient of bits by shifting and subtracting.
-/
import Mathlib

namespace Citron
namespace Lib
namespace LongArithmetic

variable {d r q n bit : ℕ}

/-- A product over a number, from the quotients and remainders of the factors. -/
theorem mul_div_split (a b : ℕ) (hd : 0 < d) : a * b / d = a / d * b + a % d * (b / d) + a % d * (b % d) / d := by
  have hsplit : a * b = d * (a / d * b + a % d * (b / d)) + a % d * (b % d) := by
    calc a * b = (d * (a / d) + a % d) * b := by rw [Nat.div_add_mod]
      _ = d * (a / d * b) + a % d * b := by ring
      _ = d * (a / d * b) + a % d * (d * (b / d) + b % d) := by rw [Nat.div_add_mod b d]
      _ = d * (a / d * b + a % d * (b / d)) + a % d * (b % d) := by ring
  rw [hsplit, Nat.mul_add_div hd]

/-- The high part of a product, from the products of the halves. -/
theorem mul_high (B ah al bh bl : ℕ) (hB : 0 < B) : (ah * B + al) * (bh * B + bl) / (B * B) =
    ah * bh + ah * bl / B + bh * al / B + (ah * bl % B + bh * al % B + al * bl / B) / B := by
  have hlow : (ah * B + al) * (bh * B + bl) / B = B * (ah * bh) + (ah * bl + bh * al) + al * bl / B := by
    rw [show (ah * B + al) * (bh * B + bl) = B * (B * (ah * bh) + (ah * bl + bh * al)) + al * bl by ring,
      Nat.mul_add_div hB]
  have hmiddle : B * (ah * bh) + (ah * bl + bh * al) + al * bl / B =
      B * (ah * bh + ah * bl / B + bh * al / B) + (ah * bl % B + bh * al % B + al * bl / B) := by
    have h₁ := Nat.div_add_mod (ah * bl) B
    have h₂ := Nat.div_add_mod (bh * al) B
    calc B * (ah * bh) + (ah * bl + bh * al) + al * bl / B
        = B * (ah * bh) + ((B * (ah * bl / B) + ah * bl % B) + (B * (bh * al / B) + bh * al % B)) + al * bl / B := by
          rw [h₁, h₂]
      _ = _ := by ring
  rw [← Nat.div_div_eq_div_mul, hlow, hmiddle, Nat.mul_add_div hB]

/-- A digit is brought down to the remainder of the digits above. -/
theorem div_digit (B hi lo : ℕ) (hd : 0 < d) :
    (hi * B + lo) / d = hi / d * B + (hi % d * B + lo) / d ∧ (hi * B + lo) % d = (hi % d * B + lo) % d := by
  have hsplit : hi * B + lo = d * (hi / d * B) + (hi % d * B + lo) := by
    calc hi * B + lo = (d * (hi / d) + hi % d) * B + lo := by rw [Nat.div_add_mod]
      _ = _ := by ring
  constructor
  · rw [hsplit, Nat.mul_add_div hd]
  · rw [hsplit, Nat.mul_add_mod]

/-- A sum of two numbers over a third, with the carry of the remainders. -/
theorem add_div_carry (a b : ℕ) (hd : 0 < d) :
    (a + b) / d = a / d + b / d + (if d ≤ a % d + b % d then 1 else 0) ∧
      (a + b) % d = if d ≤ a % d + b % d then a % d + b % d - d else a % d + b % d :=
  ⟨Nat.add_div hd, by
    have ha := Nat.mod_lt a hd
    have hb := Nat.mod_lt b hd
    rw [Nat.add_mod]
    split_ifs with h
    · rw [Nat.mod_eq_sub_mod h, Nat.mod_eq_of_lt (by omega)]
    · exact Nat.mod_eq_of_lt (by omega)⟩

/-- The long division of a number above two digits and one below, a digit at a time. -/
theorem div_two_digits (B hi lo : ℕ) (hd : 0 < d) :
    (hi * (B * B) + lo) / d = hi / d * (B * B) + hi % d * B / d * B + hi % d * B % d * B / d + lo / d +
        (if d ≤ hi % d * B % d * B % d + lo % d then 1 else 0) ∧
      (hi * (B * B) + lo) % d =
        if d ≤ hi % d * B % d * B % d + lo % d then hi % d * B % d * B % d + lo % d - d
        else hi % d * B % d * B % d + lo % d := by
  have h₁ := div_digit B hi 0 hd
  have h₂ := div_digit B (hi * B) 0 hd
  have hcarry := add_div_carry (hi * (B * B)) lo hd
  simp only [Nat.add_zero] at h₁ h₂
  rw [Nat.mul_assoc hi B B, h₁.1, h₁.2] at h₂
  rw [h₂.1, h₂.2] at hcarry
  refine ⟨?_, hcarry.2⟩
  rw [hcarry.1]
  ring

/-- One bit more: the remainder is doubled, and the divisor taken off if it goes in. -/
theorem div_bit (hd : 0 < d) (hbit : bit < 2) :
    (2 * n + bit) / d = 2 * (n / d) + (if d ≤ 2 * (n % d) + bit then 1 else 0) ∧
      (2 * n + bit) % d = if d ≤ 2 * (n % d) + bit then 2 * (n % d) + bit - d else 2 * (n % d) + bit := by
  have hr := Nat.mod_lt n hd
  have hsplit : 2 * n + bit = d * (2 * (n / d)) + (2 * (n % d) + bit) := by
    calc 2 * n + bit = 2 * (d * (n / d) + n % d) + bit := by rw [Nat.div_add_mod]
      _ = _ := by ring
  rw [hsplit, Nat.mul_add_div hd, Nat.mul_add_mod]
  split_ifs with h
  · have hone : (2 * (n % d) + bit) / d = 1 := Nat.div_eq_of_lt_le (by omega) (by omega)
    have hlt : 2 * (n % d) + bit - d < d := by omega
    rw [hone, Nat.mod_eq_sub_mod h, Nat.mod_eq_of_lt hlt]
    exact ⟨rfl, rfl⟩
  · have hlt : 2 * (n % d) + bit < d := by omega
    rw [Nat.div_eq_of_lt hlt, Nat.mod_eq_of_lt hlt]
    exact ⟨rfl, rfl⟩

/-- A quotient below a bound is right modulo the bound only if it is right. -/
theorem mod_div_eq_iff {x m : ℕ} (hd : 0 < d) (hdm : d ≤ m) : x % m / d = x / d ↔ x < m := by
  constructor
  · intro h
    by_contra hge
    have hsum : x % m + m ≤ x := by
      have := Nat.div_add_mod x m
      have : m * 1 ≤ m * (x / m) := Nat.mul_le_mul_left _ ((Nat.one_le_div_iff (by omega)).mpr (by omega))
      omega
    have hlt : x % m / d < x / d := calc
      x % m / d < x % m / d + 1 := Nat.lt_succ_self _
      _ = (x % m + d) / d := (Nat.add_div_right _ hd).symm
      _ ≤ x / d := Nat.div_le_div_right (by omega)
    omega
  · intro h
    rw [Nat.mod_eq_of_lt h]

end LongArithmetic
end Lib
end Citron
