/-
# Lowering of 64-bit integers

`LowerInt64ToInt32` replaces an operation on 64-bit integers by code for their words: it extracts the words of the
operands, computes those of the result and puts them together. The instructions mean what the SPIR-V instructions do
that are made of them; where one of those leaves its result undefined the word may be any.
-/
import Citron.Lib.StraightLine

namespace Citron

open BitVec

namespace Shader
namespace LowerInt64

open Lib Emitter

/-- An immediate, or the result of the instruction at a place. -/
inductive Value
  | imm32 (value : BitVec 32)
  | imm64 (value : BitVec 64)
  | inst (place : ℕ)

/-- The instructions that the pass emits. -/
inductive Inst
  | compositeExtractU32x2 (vector : Value) (element : Fin 2)
  | compositeConstructU32x2 (e1 e2 : Value)
  | selectU32 (condition trueValue falseValue : Value)
  | getCarryFromOp (op : Value)
  | iAdd32 (a b : Value)
  | iSub32 (a b : Value)
  | shiftLeftLogical32 (base shift : Value)
  | shiftRightLogical32 (base shift : Value)
  | shiftRightArithmetic32 (base shift : Value)
  | bitwiseOr32 (a b : Value)
  | bitwiseNot32 (value : Value)
  | bitFieldInsert (base insert offset count : Value)
  | bitFieldUExtract (base offset count : Value)
  | iEqual (lhs rhs : Value)
  | uGreaterThan (lhs rhs : Value)
  | sGreaterThanEqual (lhs rhs : Value)

/-! ### The emitter -/

abbrev IREmitter : Type := Emitter Inst Value

def inst (i : Inst) : IREmitter := return .inst (← emit i)

/-- `Unpack` -/
def unpack : Value → Emitter Inst (Value × Value)
  | .imm64 value => return (.imm32 (value.extractLsb' 0 32), .imm32 (value.extractLsb' 32 32))
  | packed => do
    let lo ← inst (.compositeExtractU32x2 packed 0)
    let hi ← inst (.compositeExtractU32x2 packed 1)
    return (lo, hi)

def iAdd64To32 (a b : Value) : IREmitter := do
  let (aLo, aHi) ← unpack a
  let (bLo, bHi) ← unpack b
  let retLo ← inst (.iAdd32 aLo bLo)
  let carryOf ← inst (.getCarryFromOp retLo)
  let carry ← inst (.selectU32 carryOf (.imm32 1) (.imm32 0))
  let sum ← inst (.iAdd32 aHi bHi)
  let retHi ← inst (.iAdd32 sum carry)
  inst (.compositeConstructU32x2 retLo retHi)

def iSub64To32 (a b : Value) : IREmitter := do
  let (aLo, aHi) ← unpack a
  let (bLo, bHi) ← unpack b
  let retLo ← inst (.iSub32 aLo bLo)
  let underflow ← inst (.uGreaterThan retLo aLo)
  let underflowBit ← inst (.selectU32 underflow (.imm32 1) (.imm32 0))
  let difference ← inst (.iSub32 aHi bHi)
  let retHi ← inst (.iSub32 difference underflowBit)
  inst (.compositeConstructU32x2 retLo retHi)

def iNeg64To32 (a : Value) : IREmitter := do
  let (lo, hi) ← unpack a
  let lo ← inst (.bitwiseNot32 lo)
  let hi ← inst (.bitwiseNot32 hi)
  let lo ← inst (.iAdd32 lo (.imm32 1))
  let carryOf ← inst (.getCarryFromOp lo)
  let carry ← inst (.selectU32 carryOf (.imm32 1) (.imm32 0))
  let hi ← inst (.iAdd32 hi carry)
  inst (.compositeConstructU32x2 lo hi)

/-- The end of the shifts: the words for a shift of more than 31, for a shorter one, and for none. -/
def selectShift (isLong isZero : Value) (long short zero : Value × Value) : IREmitter := do
  let nonZeroLo ← inst (.selectU32 isLong long.1 short.1)
  let nonZeroHi ← inst (.selectU32 isLong long.2 short.2)
  let retLo ← inst (.selectU32 isZero zero.1 nonZeroLo)
  let retHi ← inst (.selectU32 isZero zero.2 nonZeroHi)
  inst (.compositeConstructU32x2 retLo retHi)

def shiftLeftLogical64To32 (a shift : Value) : IREmitter := do
  let (lo, hi) ← unpack a
  let shiftedLo ← inst (.shiftLeftLogical32 lo shift)
  let shiftedHi ← inst (.shiftLeftLogical32 hi shift)
  let invShift ← inst (.iSub32 shift (.imm32 32))
  let isLong ← inst (.sGreaterThanEqual invShift (.imm32 0))
  let isZero ← inst (.iEqual shift (.imm32 0))
  let longRetHi ← inst (.shiftLeftLogical32 lo invShift)
  let shiftComplement ← inst (.iSub32 (.imm32 32) shift)
  let loExtract ← inst (.bitFieldUExtract lo shiftComplement shift)
  let shortRetHi ← inst (.bitwiseOr32 shiftedHi loExtract)
  selectShift isLong isZero (.imm32 0, longRetHi) (shiftedLo, shortRetHi) (lo, hi)

def shiftRightLogical64To32 (a shift : Value) : IREmitter := do
  let (lo, hi) ← unpack a
  let shiftedLo ← inst (.shiftRightLogical32 lo shift)
  let shiftedHi ← inst (.shiftRightLogical32 hi shift)
  let invShift ← inst (.iSub32 shift (.imm32 32))
  let isLong ← inst (.sGreaterThanEqual invShift (.imm32 0))
  let isZero ← inst (.iEqual shift (.imm32 0))
  let longRetLo ← inst (.shiftRightLogical32 hi invShift)
  let shiftComplement ← inst (.iSub32 (.imm32 32) shift)
  let shortHiExtract ← inst (.bitFieldUExtract hi (.imm32 0) shift)
  let shortRetLo ← inst (.bitFieldInsert shiftedLo shortHiExtract shiftComplement shift)
  selectShift isLong isZero (longRetLo, .imm32 0) (shortRetLo, shiftedHi) (lo, hi)

def shiftRightArithmetic64To32 (a shift : Value) : IREmitter := do
  let (lo, hi) ← unpack a
  let shiftedLo ← inst (.shiftRightLogical32 lo shift)
  let shiftedHi ← inst (.shiftRightArithmetic32 hi shift)
  let signExtension ← inst (.shiftRightArithmetic32 hi (.imm32 31))
  let invShift ← inst (.iSub32 shift (.imm32 32))
  let isLong ← inst (.sGreaterThanEqual invShift (.imm32 0))
  let isZero ← inst (.iEqual shift (.imm32 0))
  let longRetLo ← inst (.shiftRightArithmetic32 hi invShift)
  let shiftComplement ← inst (.iSub32 (.imm32 32) shift)
  let shortHiExtract ← inst (.bitFieldUExtract hi (.imm32 0) shift)
  let shortRetLo ← inst (.bitFieldInsert shiftedLo shortHiExtract shiftComplement shift)
  selectShift isLong isZero (longRetLo, signExtension) (shortRetLo, shiftedHi) (lo, hi)

/-- The operations that the pass replaces by code. -/
inductive Inst64
  | iAdd64 (a b : Value)
  | iSub64 (a b : Value)
  | iNeg64 (value : Value)
  | shiftLeftLogical64 (base shift : Value)
  | shiftRightLogical64 (base shift : Value)
  | shiftRightArithmetic64 (base shift : Value)

namespace Inst64

def opcodeName : Inst64 → String
  | iAdd64 _ _ => "IAdd64"
  | iSub64 _ _ => "ISub64"
  | iNeg64 _ => "INeg64"
  | shiftLeftLogical64 _ _ => "ShiftLeftLogical64"
  | shiftRightLogical64 _ _ => "ShiftRightLogical64"
  | shiftRightArithmetic64 _ _ => "ShiftRightArithmetic64"

def code : Inst64 → IREmitter
  | iAdd64 a b => iAdd64To32 a b
  | iSub64 a b => iSub64To32 a b
  | iNeg64 value => iNeg64To32 value
  | shiftLeftLogical64 base shift => shiftLeftLogical64To32 base shift
  | shiftRightLogical64 base shift => shiftRightLogical64To32 base shift
  | shiftRightArithmetic64 base shift => shiftRightArithmetic64To32 base shift

end Inst64

/-- `LowerI64ToI32` for these operations; it throws if a pseudo-operation reads a flag of the operation. -/
def lowerI64ToI32 (hasAssociatedPseudoOperation : Bool) (i : Inst64) : Except String IREmitter :=
  if hasAssociatedPseudoOperation then .error (i.opcodeName ++ " emulation with pseudo instructions") else .ok i.code

/-! ### What the instructions compute -/

inductive Datum
  | u1 (value : Bool)
  | u32 (value : BitVec 32)
  | u32x2 (lo hi : BitVec 32)
  deriving DecidableEq

/-- The value of an instruction, and the carry of an addition. -/
structure Result where
  datum : Datum
  carry : Bool

/-- The words of a 64-bit integer. -/
def Datum.packed (x : BitVec 64) : Datum := .u32x2 (x.extractLsb' 0 32) (x.extractLsb' 32 32)

def Value.datum (ρ : ℕ → Result) : Value → Datum
  | .imm32 value => .u32 value
  | .imm64 value => .packed value
  | .inst place => (ρ place).datum

/-- The mask of a field of so many bits. -/
def fieldMask (count : ℕ) : BitVec 32 := BitVec.ofNat 32 (2 ^ count - 1)

def bitFieldInsert (base insert : BitVec 32) (offset count : ℕ) : BitVec 32 :=
  (base &&& ~~~(fieldMask count <<< offset)) ||| ((insert &&& fieldMask count) <<< offset)

def bitFieldUExtract (base : BitVec 32) (offset count : ℕ) : BitVec 32 := (base >>> offset) &&& fieldMask count

/-- The result of an instruction. Operands of another type leave it open; a shift by 32 or more, and a field that does
not end in the word, leave the word open. -/
def Computes (ρ : ℕ → Result) (i : Inst) (r : Result) : Prop :=
  match i with
  | .compositeExtractU32x2 vector element =>
    ∀ lo hi, vector.datum ρ = .u32x2 lo hi → r.datum = .u32 (if element = 0 then lo else hi)
  | .compositeConstructU32x2 e1 e2 => ∀ lo hi, e1.datum ρ = .u32 lo → e2.datum ρ = .u32 hi → r.datum = .u32x2 lo hi
  | .selectU32 condition trueValue falseValue =>
    ∀ c x y, condition.datum ρ = .u1 c → trueValue.datum ρ = .u32 x → falseValue.datum ρ = .u32 y → r.datum = .u32 (if c then x else y)
  | .getCarryFromOp op => ∀ place, op = .inst place → r.datum = .u1 (ρ place).carry
  | .iAdd32 a b =>
    ∀ x y, a.datum ρ = .u32 x → b.datum ρ = .u32 y → r.datum = .u32 (x + y) ∧ r.carry = decide (2 ^ 32 ≤ x.toNat + y.toNat)
  | .iSub32 a b => ∀ x y, a.datum ρ = .u32 x → b.datum ρ = .u32 y → r.datum = .u32 (x - y)
  | .shiftLeftLogical32 base shift =>
    ∀ x k, base.datum ρ = .u32 x → shift.datum ρ = .u32 k → ∃ z, r.datum = .u32 z ∧ (k.toNat < 32 → z = x <<< k.toNat)
  | .shiftRightLogical32 base shift =>
    ∀ x k, base.datum ρ = .u32 x → shift.datum ρ = .u32 k → ∃ z, r.datum = .u32 z ∧ (k.toNat < 32 → z = x >>> k.toNat)
  | .shiftRightArithmetic32 base shift =>
    ∀ x k, base.datum ρ = .u32 x → shift.datum ρ = .u32 k → ∃ z, r.datum = .u32 z ∧ (k.toNat < 32 → z = x.sshiftRight k.toNat)
  | .bitwiseOr32 a b => ∀ x y, a.datum ρ = .u32 x → b.datum ρ = .u32 y → r.datum = .u32 (x ||| y)
  | .bitwiseNot32 value => ∀ x, value.datum ρ = .u32 x → r.datum = .u32 (~~~x)
  | .bitFieldInsert base insert offset count =>
    ∀ x y o n, base.datum ρ = .u32 x → insert.datum ρ = .u32 y → offset.datum ρ = .u32 o → count.datum ρ = .u32 n →
      ∃ z, r.datum = .u32 z ∧ (o.toNat + n.toNat ≤ 32 → z = bitFieldInsert x y o.toNat n.toNat)
  | .bitFieldUExtract base offset count =>
    ∀ x o n, base.datum ρ = .u32 x → offset.datum ρ = .u32 o → count.datum ρ = .u32 n →
      ∃ z, r.datum = .u32 z ∧ (o.toNat + n.toNat ≤ 32 → z = bitFieldUExtract x o.toNat n.toNat)
  | .iEqual lhs rhs => ∀ x y, lhs.datum ρ = .u32 x → rhs.datum ρ = .u32 y → r.datum = .u1 (decide (x = y))
  | .uGreaterThan lhs rhs => ∀ x y, lhs.datum ρ = .u32 x → rhs.datum ρ = .u32 y → r.datum = .u1 (decide (y.toNat < x.toNat))
  | .sGreaterThanEqual lhs rhs => ∀ x y, lhs.datum ρ = .u32 x → rhs.datum ρ = .u32 y → r.datum = .u1 (decide (y.toInt ≤ x.toInt))

/-- What a 64-bit operation computes; a shift by 64 or more leaves the result open. -/
def Inst64.Computes (ρ : ℕ → Result) (i : Inst64) (x : BitVec 64) : Prop :=
  match i with
  | iAdd64 a b => ∃ p q, a.datum ρ = .packed p ∧ b.datum ρ = .packed q ∧ x = p + q
  | iSub64 a b => ∃ p q, a.datum ρ = .packed p ∧ b.datum ρ = .packed q ∧ x = p - q
  | iNeg64 a => ∃ p, a.datum ρ = .packed p ∧ x = -p
  | shiftLeftLogical64 base shift => ∃ p k, base.datum ρ = .packed p ∧ shift.datum ρ = .u32 k ∧ k.toNat < 64 ∧ x = p <<< k.toNat
  | shiftRightLogical64 base shift => ∃ p k, base.datum ρ = .packed p ∧ shift.datum ρ = .u32 k ∧ k.toNat < 64 ∧ x = p >>> k.toNat
  | shiftRightArithmetic64 base shift =>
    ∃ p k, base.datum ρ = .packed p ∧ shift.datum ρ = .u32 k ∧ k.toNat < 64 ∧ x = p.sshiftRight k.toNat

end LowerInt64

/-! ## Words of 64-bit integers

The words of a sum, a difference, a negation and a shift, from the words of the operands, as `LowerInt64ToInt32` computes
them.
-/

namespace LowerInt64

/-- The low word. -/
def lo (x : BitVec 64) : BitVec 32 := x.extractLsb' 0 32

/-- The high word. -/
def hi (x : BitVec 64) : BitVec 32 := x.extractLsb' 32 32

theorem toNat_lo (x : BitVec 64) : (lo x).toNat = x.toNat % 2 ^ 32 := by simp [lo]

theorem toNat_hi (x : BitVec 64) : (hi x).toNat = x.toNat / 2 ^ 32 := by
  rw [hi, extractLsb'_toNat, Nat.shiftRight_eq_div_pow]
  exact Nat.mod_eq_of_lt (by omega)

@[simp] theorem getLsbD_lo (x : BitVec 64) (i : ℕ) : (lo x).getLsbD i = (decide (i < 32) && x.getLsbD i) := by simp [lo]

@[simp] theorem getLsbD_hi (x : BitVec 64) (i : ℕ) : (hi x).getLsbD i = (decide (i < 32) && x.getLsbD (32 + i)) := by simp [hi]

/-! ### Sums and differences -/

theorem lo_add (x y : BitVec 64) : lo (x + y) = lo x + lo y := by
  apply eq_of_toNat_eq
  rw [toNat_add, toNat_lo, toNat_lo, toNat_lo, toNat_add]
  omega

/-- The carry of the low words goes into the high word. -/
theorem hi_add (x y : BitVec 64) : hi (x + y) = hi x + hi y + (if 2 ^ 32 ≤ (lo x).toNat + (lo y).toNat then 1 else 0) := by
  apply eq_of_toNat_eq
  rw [toNat_add, toNat_add, toNat_hi, toNat_hi, toNat_hi, toNat_lo, toNat_lo, toNat_add]
  split
  · have : (1 : BitVec 32).toNat = 1 := rfl
    omega
  · have : (0 : BitVec 32).toNat = 0 := rfl
    omega

theorem lo_sub (x y : BitVec 64) : lo (x - y) = lo x - lo y := by
  apply eq_of_toNat_eq
  rw [toNat_sub, toNat_lo, toNat_lo, toNat_lo, toNat_sub]
  omega

/-- The difference of the low words is above the first of them when it borrows. -/
theorem hi_sub (x y : BitVec 64) : hi (x - y) = hi x - hi y - (if (lo x).toNat < (lo x - lo y).toNat then 1 else 0) := by
  apply eq_of_toNat_eq
  rw [toNat_sub, toNat_sub, toNat_sub, toNat_hi, toNat_hi, toNat_hi, toNat_lo, toNat_lo, toNat_sub]
  split
  · have : (1 : BitVec 32).toNat = 1 := rfl
    omega
  · have : (0 : BitVec 32).toNat = 0 := rfl
    omega

theorem lo_neg (x : BitVec 64) : lo (-x) = ~~~(lo x) + 1 := by
  apply eq_of_toNat_eq
  rw [toNat_add, toNat_not, toNat_lo, toNat_lo, toNat_neg]
  have : (1 : BitVec 32).toNat = 1 := rfl
  omega

theorem hi_neg (x : BitVec 64) :
    hi (-x) = ~~~(hi x) + (if 2 ^ 32 ≤ (~~~(lo x)).toNat + (1 : BitVec 32).toNat then 1 else 0) := by
  apply eq_of_toNat_eq
  have h1 : (1 : BitVec 32).toNat = 1 := rfl
  have h0 : (0 : BitVec 32).toNat = 0 := rfl
  rw [toNat_add, toNat_not, toNat_not, toNat_hi, toNat_hi, toNat_lo, toNat_neg, h1]
  split <;> omega

/-! ### Shifts -/

theorem getLsbD_fieldMask (count i : ℕ) : (fieldMask count).getLsbD i = (decide (i < 32) && decide (i < count)) := by
  rw [fieldMask, getLsbD_ofNat, Nat.testBit_two_pow_sub_one]

@[simp] theorem getLsbD_bitFieldUExtract (base : BitVec 32) (offset count i : ℕ) :
    (bitFieldUExtract base offset count).getLsbD i = (base.getLsbD (offset + i) && (decide (i < 32) && decide (i < count))) := by
  rw [bitFieldUExtract, getLsbD_and, getLsbD_ushiftRight, getLsbD_fieldMask]

@[simp] theorem getLsbD_bitFieldInsert (base insert : BitVec 32) {offset count i : ℕ} (hi : i < 32) :
    (bitFieldInsert base insert offset count).getLsbD i =
      if offset ≤ i ∧ i < offset + count then insert.getLsbD (i - offset) else base.getLsbD i := by
  rw [bitFieldInsert, getLsbD_or, getLsbD_and, getLsbD_not, getLsbD_shiftLeft,
    getLsbD_shiftLeft, getLsbD_and, getLsbD_fieldMask]
  by_cases hoffset : offset ≤ i
  · by_cases hcount : i < offset + count
    · have : i - offset < count := by omega
      simp [hi, hoffset, hcount, this, show ¬ i < offset by omega, show i - offset < 32 by omega]
    · have : ¬ i - offset < count := by omega
      simp [hi, hcount, this]
  · simp [hi, hoffset, show i < offset by omega]

variable {k : ℕ}

section

variable (x : BitVec 64)
include x

/-- A shift by no more than a word takes the low bits of the high word from the low one. -/
theorem lo_shiftLeft_short : lo (x <<< k) = lo x <<< k := by
  apply eq_of_getLsbD_eq
  intro i hi
  simp only [hi, getLsbD_lo, getLsbD_shiftLeft]
  grind

theorem hi_shiftLeft_short (hk : k < 32) :
    hi (x <<< k) = hi x <<< k ||| bitFieldUExtract (lo x) (32 - k) k := by
  apply eq_of_getLsbD_eq
  intro i hi
  simp only [hi, getLsbD_lo, getLsbD_hi, getLsbD_bitFieldUExtract, getLsbD_shiftLeft, getLsbD_or]
  grind

theorem lo_shiftLeft_long (hk : 32 ≤ k) : lo (x <<< k) = 0 := by
  apply eq_of_getLsbD_eq
  intro i hi
  simp only [hi, getLsbD_lo, getLsbD_shiftLeft]
  grind

theorem hi_shiftLeft_long (hk : 32 ≤ k) : hi (x <<< k) = lo x <<< (k - 32) := by
  apply eq_of_getLsbD_eq
  intro i hi
  simp only [hi, getLsbD_lo, getLsbD_hi, getLsbD_shiftLeft]
  grind

theorem lo_ushiftRight_short (hk : k < 32) :
    lo (x >>> k) = bitFieldInsert (lo x >>> k) (bitFieldUExtract (hi x) 0 k) (32 - k) k := by
  apply eq_of_getLsbD_eq
  intro i hi
  simp only [hi, getLsbD_lo, getLsbD_hi, getLsbD_bitFieldUExtract, getLsbD_bitFieldInsert, getLsbD_ushiftRight]
  grind

theorem hi_ushiftRight_short : hi (x >>> k) = hi x >>> k := by
  apply eq_of_getLsbD_eq
  intro i hi
  simp only [hi, getLsbD_hi, getLsbD_ushiftRight]
  grind

theorem lo_ushiftRight_long (hk : 32 ≤ k) : lo (x >>> k) = hi x >>> (k - 32) := by
  apply eq_of_getLsbD_eq
  intro i hi
  simp only [hi, getLsbD_lo, getLsbD_hi, getLsbD_ushiftRight]
  grind

theorem hi_ushiftRight_long (hk : 32 ≤ k) : hi (x >>> k) = 0 := by
  apply eq_of_getLsbD_eq
  intro i hi
  simp only [hi, getLsbD_hi, getLsbD_ushiftRight]
  grind

theorem msb_hi : (hi x).msb = x.msb := by
  rw [msb_eq_getLsbD_last, msb_eq_getLsbD_last, getLsbD_hi]
  rfl

theorem lo_sshiftRight_short (hk : k < 32) :
    lo (x.sshiftRight k) = bitFieldInsert (lo x >>> k) (bitFieldUExtract (hi x) 0 k) (32 - k) k := by
  apply eq_of_getLsbD_eq
  intro i hi
  simp only [hi, getLsbD_lo, getLsbD_hi, getLsbD_bitFieldUExtract, getLsbD_bitFieldInsert, getLsbD_sshiftRight,
    getLsbD_ushiftRight]
  grind

theorem hi_sshiftRight_short : hi (x.sshiftRight k) = (hi x).sshiftRight k := by
  apply eq_of_getLsbD_eq
  intro i hi
  simp only [hi, getLsbD_hi, getLsbD_sshiftRight, msb_hi]
  grind

theorem lo_sshiftRight_long (hk : 32 ≤ k) : lo (x.sshiftRight k) = (hi x).sshiftRight (k - 32) := by
  apply eq_of_getLsbD_eq
  intro i hi
  simp only [hi, getLsbD_lo, getLsbD_hi, getLsbD_sshiftRight, msb_hi]
  grind

theorem hi_sshiftRight_long (hk : 32 ≤ k) : hi (x.sshiftRight k) = (hi x).sshiftRight 31 := by
  apply eq_of_getLsbD_eq
  intro i hi
  simp only [hi, getLsbD_hi, getLsbD_sshiftRight, msb_hi]
  grind

end

end LowerInt64
end Shader
end Citron
