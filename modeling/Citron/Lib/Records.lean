/-
# Records of little-endian fields

A field is a number in so many bytes, the least one first. Numbers that fit into their fields are read back from a
record, whatever stands behind it.
-/
import Mathlib

namespace Citron
namespace Lib

/-- The bytes of a number. -/
def toBytes : ℕ → ℕ → List UInt8
  | 0, _ => []
  | width + 1, n => UInt8.ofNat n :: toBytes width (n / 256)

/-- The number of the bytes. -/
def ofBytes : List UInt8 → ℕ
  | [] => 0
  | b :: bytes => b.toNat + 256 * ofBytes bytes

@[simp] theorem toBytes_length (width n : ℕ) : (toBytes width n).length = width := by
  induction width generalizing n with
  | zero => rfl
  | succ width ih => simp [toBytes, ih]

theorem ofBytes_toBytes (width n : ℕ) (hfits : n < 256 ^ width) : ofBytes (toBytes width n) = n := by
  induction width generalizing n with
  | zero =>
    have hzero : n = 0 := by simpa using hfits
    rw [hzero]
    rfl
  | succ width ih =>
    have hrest : n / 256 < 256 ^ width := by
      rw [pow_succ] at hfits
      exact Nat.div_lt_of_lt_mul (by rwa [Nat.mul_comm])
    have hbyte : (UInt8.ofNat n).toNat = n % 256 := by simp
    rw [toBytes, ofBytes, ih _ hrest, hbyte]
    exact Nat.mod_add_div n 256

/-- A record, from the widths of its fields and their numbers. -/
def packFields (fields : List (ℕ × ℕ)) : List UInt8 := fields.flatMap fun field => toBytes field.1 field.2

def unpackFields : List ℕ → List UInt8 → List ℕ
  | [], _ => []
  | width :: widths, bytes => ofBytes (bytes.take width) :: unpackFields widths (bytes.drop width)

@[simp] theorem packFields_length (fields : List (ℕ × ℕ)) : (packFields fields).length = (fields.map Prod.fst).sum := by
  simp [packFields, List.length_flatMap]

/-- **The fields of a record are read back.** -/
theorem unpackFields_packFields (fields : List (ℕ × ℕ)) (rest : List UInt8) (hfits : ∀ field ∈ fields, field.2 < 256 ^ field.1) :
    unpackFields (fields.map Prod.fst) (packFields fields ++ rest) = fields.map Prod.snd := by
  induction fields with
  | nil => rfl
  | cons field fields ih =>
    have hsplit : packFields (field :: fields) ++ rest = toBytes field.1 field.2 ++ (packFields fields ++ rest) := by
      simp [packFields]
    have hfirst := ofBytes_toBytes _ _ (hfits field List.mem_cons_self)
    rw [List.map_cons, List.map_cons, unpackFields, hsplit, List.take_left' (toBytes_length _ _), List.drop_left' (toBytes_length _ _),
      hfirst, ih fun f hf => hfits f (List.mem_cons_of_mem _ hf)]

end Lib
end Citron
