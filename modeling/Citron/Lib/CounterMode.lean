/-
# Counter mode

A stream cipher that encrypts a counter for each block of sixteen bytes and adds the result to the data. The stream from a
later block on is the stream of the counter that many blocks ahead, and to encrypt twice is to decrypt.
-/
import Mathlib

namespace Citron
namespace Lib

/-- The bytes of the encrypted counter. -/
abbrev BlockCipher := BitVec 128 → ℕ → UInt8

variable {cipher : BlockCipher} {counter : BitVec 128}

def counterStream (cipher : BlockCipher) (counter : BitVec 128) (i : ℕ) : UInt8 :=
  cipher (counter + BitVec.ofNat 128 (i / 16)) (i % 16)

theorem counterStream_add (cipher : BlockCipher) (counter : BitVec 128) (n i : ℕ) :
    counterStream cipher counter (16 * n + i) = counterStream cipher (counter + BitVec.ofNat 128 n) i := by
  unfold counterStream
  rw [Nat.mul_add_div (by decide), Nat.mul_add_mod, BitVec.ofNat_add, BitVec.add_assoc]

/-- `n` bytes from a place of the input on go to a place of the output, added to a stream. -/
def addStream (n dst src : ℕ) (stream : ℕ → UInt8) (input output : ℕ → UInt8) : ℕ → UInt8 :=
  fun a => if dst ≤ a ∧ a < dst + n then input (src + (a - dst)) ^^^ stream (a - dst) else output a

variable {n m dst src : ℕ} {stream : ℕ → UInt8} {input output : ℕ → UInt8}

theorem xor_xor_cancel (byte mask : UInt8) : byte ^^^ mask ^^^ mask = byte := by
  rw [UInt8.xor_assoc, UInt8.xor_self, UInt8.xor_zero]

end Lib
end Citron
