/-
# Numbers in big-endian bytes

A number below `2 ^ (8 * n)` as `n` bytes, the highest first, and back.
-/
import Mathlib.Data.List.Basic
import Mathlib.Tactic.Ring

namespace Citron
namespace Lib

/-- The number that the bytes spell, the highest first. -/
def ofBigEndian (bytes : List UInt8) : ℕ := bytes.foldl (fun value byte => value * 2 ^ 8 + byte.toNat) 0

/-- The lowest `n` bytes of a number, the highest first. -/
def toBigEndian : ℕ → ℕ → List UInt8
  | 0, _ => []
  | n + 1, value => toBigEndian n (value / 2 ^ 8) ++ [UInt8.ofNat (value % 2 ^ 8)]

@[simp] theorem length_toBigEndian (n value : ℕ) : (toBigEndian n value).length = n := by
  induction n generalizing value with
  | zero => rfl
  | succ n ih => simp [toBigEndian, ih]

theorem ofBigEndian_concat (bytes : List UInt8) (byte : UInt8) :
    ofBigEndian (bytes ++ [byte]) = ofBigEndian bytes * 2 ^ 8 + byte.toNat := by
  rw [ofBigEndian, List.foldl_append]
  rfl

theorem ofBigEndian_toBigEndian {n value : ℕ} (h : value < 2 ^ (8 * n)) : ofBigEndian (toBigEndian n value) = value := by
  induction n generalizing value with
  | zero =>
    rw [Nat.mul_zero, Nat.pow_zero, Nat.lt_one_iff] at h
    rw [h]
    rfl
  | succ n ih =>
    have hhigh : value / 2 ^ 8 < 2 ^ (8 * n) := by
      rw [Nat.mul_succ, Nat.pow_add] at h
      exact Nat.div_lt_of_lt_mul (by rwa [Nat.mul_comm])
    have hlow : (UInt8.ofNat (value % 2 ^ 8)).toNat = value % 2 ^ 8 := by simp
    rw [toBigEndian, ofBigEndian_concat, ih hhigh, hlow]
    exact Nat.div_add_mod' value (2 ^ 8)

end Lib
end Citron
