/-
# The emitted integer instructions

The backend emits each integer instruction as one SPIR-V operation on words. The operations are given by what they
define; shifts by the width of the word and fields past its end define nothing.
-/
import Citron.Lib.BitFields
import Citron.ShaderRecompiler.ImmediateFolds

namespace Citron

open BitVec

namespace Shader

open IR Optimization Lib.BitFields

namespace Spirv

/-- The SPIR-V operations on integers, under their names. -/
inductive Op
  | OpIAdd | OpISub | OpIMul | OpSNegate
  | OpShiftLeftLogical | OpShiftRightLogical | OpShiftRightArithmetic
  | OpBitwiseAnd | OpBitwiseOr | OpBitwiseXor | OpNot
  | OpBitFieldInsert | OpBitFieldSExtract | OpBitFieldUExtract
  | OpBitReverse | OpBitCount | OpFindSMsb | OpFindUMsb
  | OpSMin | OpUMin | OpSMax | OpUMax
  | OpSLessThan | OpULessThan | OpIEqual | OpSLessThanEqual | OpULessThanEqual | OpSGreaterThan | OpUGreaterThan
  | OpINotEqual | OpSGreaterThanEqual | OpUGreaterThanEqual
  deriving DecidableEq

/-- The position of the highest set bit, -1 if there is none. -/
def findUMsb (value : BitVec 32) : BitVec 32 :=
  if value = 0 then BitVec.allOnes 32 else BitVec.ofNat 32 value.toNat.log2

/-- What the operation defines. Shifts by 32 and more and fields past bit 31 define nothing. -/
def Op.defines (op : Op) (arg : ℕ → BitVec 32) : Option Imm :=
  let a := arg 0
  let b := arg 1
  match op with
  | .OpIAdd => some (.u32 (a + b))
  | .OpISub => some (.u32 (a - b))
  | .OpIMul => some (.u32 (a * b))
  | .OpSNegate => some (.u32 (-a))
  | .OpShiftLeftLogical => if b.toNat < 32 then some (.u32 (a <<< b.toNat)) else none
  | .OpShiftRightLogical => if b.toNat < 32 then some (.u32 (a >>> b.toNat)) else none
  | .OpShiftRightArithmetic => if b.toNat < 32 then some (.u32 (a.sshiftRight b.toNat)) else none
  | .OpBitwiseAnd => some (.u32 (a &&& b))
  | .OpBitwiseOr => some (.u32 (a ||| b))
  | .OpBitwiseXor => some (.u32 (a ^^^ b))
  | .OpNot => some (.u32 (~~~a))
  | .OpBitFieldInsert =>
    if (arg 2).toNat + (arg 3).toNat ≤ 32 then some (.u32 (insertBits a b (arg 2).toNat (arg 3).toNat)) else none
  | .OpBitFieldSExtract =>
    if b.toNat + (arg 2).toNat ≤ 32 then some (.u32 (extractSigned a b.toNat (arg 2).toNat)) else none
  | .OpBitFieldUExtract =>
    if b.toNat + (arg 2).toNat ≤ 32 then some (.u32 (extractUnsigned a b.toNat (arg 2).toNat)) else none
  | .OpBitReverse => some (.u32 a.reverse)
  | .OpBitCount => some (.u32 a.cpop)
  | .OpFindSMsb => some (.u32 (findUMsb (if a.msb then ~~~a else a)))
  | .OpFindUMsb => some (.u32 (findUMsb a))
  | .OpSMin => some (.u32 (if a.slt b then a else b))
  | .OpUMin => some (.u32 (if a.ult b then a else b))
  | .OpSMax => some (.u32 (if a.slt b then b else a))
  | .OpUMax => some (.u32 (if a.ult b then b else a))
  | .OpSLessThan => some (.u1 (a.slt b))
  | .OpULessThan => some (.u1 (a.ult b))
  | .OpIEqual => some (.u1 (a == b))
  | .OpSLessThanEqual => some (.u1 (a.sle b))
  | .OpULessThanEqual => some (.u1 (a.ule b))
  | .OpSGreaterThan => some (.u1 (b.slt a))
  | .OpUGreaterThan => some (.u1 (b.ult a))
  | .OpINotEqual => some (.u1 (a != b))
  | .OpSGreaterThanEqual => some (.u1 (b.sle a))
  | .OpUGreaterThanEqual => some (.u1 (b.ule a))

end Spirv

/-- The operation that the backend emits for the result of an opcode: `EmitIAdd32` and the functions after it. -/
def emit : IntegerOpcode → Spirv.Op
  | .IAdd32 => .OpIAdd
  | .ISub32 => .OpISub
  | .IMul32 => .OpIMul
  | .INeg32 => .OpSNegate
  | .ShiftLeftLogical32 => .OpShiftLeftLogical
  | .ShiftRightLogical32 => .OpShiftRightLogical
  | .ShiftRightArithmetic32 => .OpShiftRightArithmetic
  | .BitwiseAnd32 => .OpBitwiseAnd
  | .BitwiseOr32 => .OpBitwiseOr
  | .BitwiseXor32 => .OpBitwiseXor
  | .BitwiseNot32 => .OpNot
  | .BitFieldInsert => .OpBitFieldInsert
  | .BitFieldSExtract => .OpBitFieldSExtract
  | .BitFieldUExtract => .OpBitFieldUExtract
  | .BitReverse32 => .OpBitReverse
  | .BitCount32 => .OpBitCount
  | .FindSMsb32 => .OpFindSMsb
  | .FindUMsb32 => .OpFindUMsb
  | .SMin32 => .OpSMin
  | .UMin32 => .OpUMin
  | .SMax32 => .OpSMax
  | .UMax32 => .OpUMax
  | .SLessThan => .OpSLessThan
  | .ULessThan => .OpULessThan
  | .IEqual => .OpIEqual
  | .SLessThanEqual => .OpSLessThanEqual
  | .ULessThanEqual => .OpULessThanEqual
  | .SGreaterThan => .OpSGreaterThan
  | .UGreaterThan => .OpUGreaterThan
  | .INotEqual => .OpINotEqual
  | .SGreaterThanEqual => .OpSGreaterThanEqual
  | .UGreaterThanEqual => .OpUGreaterThanEqual

end Shader

/-! ## Folding immediates agrees with the emitted instructions

The uses of a folded instruction get the word that the emitted operation would have defined. The folds of the bit fields
fail to do so at empty and at full fields, and where an insert is wider than its field.
-/

namespace Shader

open IR Lib.BitFields

namespace Optimization
namespace ImmediateInst

/-- The word that the instruction defines. -/
def defines (inst : ImmediateInst) : Option Imm := (emit inst.op).defines inst.arg

/-- The uses of the instruction get the word it defines: it is left as it is, or folded to that word. -/
def FoldAgrees (inst : ImmediateInst) : Prop :=
  ∀ word, inst.defines = some word →
    constantPropagation inst = .ok none ∨ constantPropagation inst = .ok (some word)

/-- The field ends within the word. -/
def Within (offset count : BitVec 32) : Prop := offset.toNat + count.toNat ≤ 32

instance (offset count : BitVec 32) : Decidable (Within offset count) := inferInstanceAs (Decidable (_ ≤ _))

/-- The fields that the folds get right, of those within the word: an unsigned read wants offset and count below 32, a
signed read a field that is not empty, and an insert no bit past the field that the base has not set already. -/
def FieldFolds (inst : ImmediateInst) : Prop :=
  match inst.op with
  | .BitFieldUExtract => Within (inst.arg 1) (inst.arg 2) → (inst.arg 1).toNat < 32 ∧ (inst.arg 2).toNat < 32
  | .BitFieldSExtract => Within (inst.arg 1) (inst.arg 2) → 0 < (inst.arg 2).toNat
  | .BitFieldInsert =>
    Within (inst.arg 2) (inst.arg 3) →
      (inst.arg 2).toNat < 32 ∧ (inst.arg 3).toNat < 32 ∧
        spilled (inst.arg 1) (inst.arg 2).toNat (inst.arg 3).toNat &&& ~~~inst.arg 0 = 0
  | _ => True

instance (inst : ImmediateInst) : Decidable inst.FieldFolds := by
  unfold FieldFolds
  split <;> infer_instance

end ImmediateInst

/-! ### One fold -/

variable {inst : ImmediateInst}

theorem foldWhenAllImmediates_agrees_iff {T : Type} [Immediate T] {func : Except FoldFault T}
    {value : T} (hfold : constantPropagation inst = foldWhenAllImmediates inst func)
    (hdefines : inst.defines = some (Immediate.make value)) :
    inst.FoldAgrees ↔ inst.hasAssociatedPseudoOperation = true ∨ func = .ok value := by
  unfold ImmediateInst.FoldAgrees
  rw [hdefines, hfold, foldWhenAllImmediates]
  cases inst.hasAssociatedPseudoOperation with
  | true => simp
  | false =>
    cases func with
    | error fault => simp [Except.map]
    | ok folded =>
      have hmake : Immediate.make folded = Immediate.make value ↔ folded = value := by
        constructor
        · intro h
          rw [← Immediate.get_make folded, h, Immediate.get_make]
        · exact congrArg _
      simp [Except.map, hmake]

theorem foldAgrees_of_eq {T : Type} [Immediate T] {value : T}
    (hfold : constantPropagation inst = foldWhenAllImmediates inst (.ok value))
    (hdefines : inst.defines = some (Immediate.make value)) : inst.FoldAgrees :=
  (foldWhenAllImmediates_agrees_iff hfold hdefines).mpr (.inr rfl)

theorem foldAgrees_of_undefined (h : inst.defines = none) : inst.FoldAgrees := by
  intro word hword
  rw [h] at hword
  cases hword

/-! ### The folds of the bit fields -/

theorem Host.shiftLeft_ok {a : BitVec 32} {n : ℕ} (h : n < 32) : Host.shiftLeft a n = .ok (a <<< n) := if_pos h

theorem Host.shiftRight_ok {a : BitVec 32} {n : ℕ} (h : n < 32) : Host.shiftRight a n = .ok (a >>> n) := if_pos h

variable {base insert offset count : BitVec 32}

/-- The sum of offset and count does not overflow in 64 bits. -/
theorem toNat_backShift : (offset.setWidth 64 + count.setWidth 64).toNat = offset.toNat + count.toNat := by
  rw [toNat_add, toNat_setWidth, toNat_setWidth]
  omega

theorem bitFieldUExtractFold_eq_iff (hfits : ImmediateInst.Within offset count) :
    bitFieldUExtractFold base offset count = .ok (extractUnsigned base offset.toNat count.toNat) ↔
      offset.toNat < 32 ∧ count.toNat < 32 := by
  have hsum : ¬32#64 < offset.setWidth 64 + count.setWidth 64 := by
    rw [lt_def, toNat_backShift]
    exact Nat.not_lt.mpr hfits
  rw [bitFieldUExtractFold, if_neg hsum]
  by_cases hoffset : offset.toNat < 32
  · by_cases hcount : count.toNat < 32
    · rw [Host.shiftRight_ok hoffset, Host.shiftLeft_ok hcount, ← shift_and_mask, ← one_shiftLeft_sub_one]
      exact ⟨fun _ => ⟨hoffset, hcount⟩, fun _ => rfl⟩
    · rw [Host.shiftRight_ok hoffset, Host.shiftLeft, if_neg hcount]
      exact ⟨nofun, fun h => absurd h.2 hcount⟩
  · rw [Host.shiftRight, if_neg hoffset]
    exact ⟨nofun, fun h => absurd h.1 hoffset⟩

theorem bitFieldSExtractFold_eq_iff (hfits : ImmediateInst.Within offset count) :
    bitFieldSExtractFold base offset count = .ok (extractSigned base offset.toNat count.toNat) ↔ 0 < count.toNat := by
  have hfits' : offset.toNat + count.toNat ≤ 32 := hfits
  have hleft : (32#64 - (offset.setWidth 64 + count.setWidth 64)).toNat = 32 - (offset.toNat + count.toNat) := by
    rw [toNat_sub, toNat_backShift]
    simp only [toNat_ofNat]
    omega
  have hright : ((32#32 - count).setWidth 64).toNat = 32 - count.toNat := by
    rw [toNat_setWidth, toNat_sub]
    simp only [toNat_ofNat]
    omega
  simp only [bitFieldSExtractFold, lt_def, le_def, toNat_backShift, hleft, hright, toNat_ofNat]
  by_cases hcount : 0 < count.toNat
  · have hdefined : ¬(32 % 2 ^ 64 < offset.toNat + count.toNat ∨ 32 % 2 ^ 64 ≤ 32 - (offset.toNat + count.toNat) ∨
        32 % 2 ^ 64 ≤ 32 - count.toNat) := by omega
    have hback : 0 ≤ ((32 - count.toNat : ℕ) : ℤ) ∧ ((32 - count.toNat : ℕ) : ℤ) < 32 := by omega
    rw [if_neg hdefined, Host.shiftLeft_ok (by omega), ← shift_left_right base hcount hfits']
    change Host.shiftRightSigned _ _ = _ ↔ _
    rw [Host.shiftRightSigned, if_pos hback, Int.toNat_natCast]
    exact ⟨fun _ => hcount, fun _ => rfl⟩
  · have hundefined : 32 % 2 ^ 64 < offset.toNat + count.toNat ∨ 32 % 2 ^ 64 ≤ 32 - (offset.toNat + count.toNat) ∨
        32 % 2 ^ 64 ≤ 32 - count.toNat := by omega
    rw [if_pos hundefined]
    exact ⟨nofun, fun h => absurd h hcount⟩

theorem bitFieldInsertFold_eq_iff :
    bitFieldInsertFold base insert offset count = .ok (insertBits base insert offset.toNat count.toNat) ↔
      offset.toNat < 32 ∧ count.toNat < 32 ∧ spilled insert offset.toNat count.toNat &&& ~~~base = 0 := by
  simp only [bitFieldInsertFold, le_def, toNat_ofNat]
  by_cases hdefined : count.toNat < 32 ∧ offset.toNat < 32
  · obtain ⟨hcount, hoffset⟩ := hdefined
    have hnot : ¬(32 % 2 ^ 32 ≤ count.toNat ∨ 32 % 2 ^ 32 ≤ offset.toNat) := by omega
    rw [if_neg hnot, Host.shiftLeft_ok hcount]
    change (Host.shiftLeft _ _ >>= _) = _ ↔ _
    rw [Host.shiftLeft_ok hoffset, Host.shiftLeft_ok hoffset, ← clear_and_or_unmasked_iff]
    constructor
    · intro h
      injection h with h
      exact ⟨hoffset, hcount, h⟩
    · rintro ⟨-, -, h⟩
      exact congrArg Except.ok h
  · have hthrows : 32 % 2 ^ 32 ≤ count.toNat ∨ 32 % 2 ^ 32 ≤ offset.toNat := by omega
    rw [if_pos hthrows]
    exact ⟨nofun, fun h => absurd ⟨h.2.1, h.1⟩ hdefined⟩

theorem shiftRightSigned_toInt (hcount : count.toNat < 32) :
    Host.shiftRightSigned base count.toInt = .ok (base.sshiftRight count.toNat) := by
  have hint : count.toInt = count.toNat := by
    rw [toInt_eq_toNat_of_lt]
    omega
  have hbounds : 0 ≤ (count.toNat : ℤ) ∧ (count.toNat : ℤ) < 32 := by omega
  rw [hint, Host.shiftRightSigned, if_pos hbounds, Int.toNat_natCast]

/-! ### The pass -/

/-- **The uses of an instruction of immediates get the word it defines just when it has a pseudo-operation, which keeps
it from being folded, or its fields are ones that the folds get right.** -/
theorem constantPropagation_agrees_iff (inst : ImmediateInst) :
    inst.FoldAgrees ↔ inst.hasAssociatedPseudoOperation = true ∨ inst.FieldFolds := by
  obtain ⟨op, arg, pseudo⟩ := inst
  cases op with
  | BitFieldUExtract =>
    by_cases hfits : ImmediateInst.Within (arg 1) (arg 2)
    · have hword : ({ op := .BitFieldUExtract, arg := arg, hasAssociatedPseudoOperation := pseudo } : ImmediateInst).defines =
          some (Immediate.make (extractUnsigned (arg 0) (arg 1).toNat (arg 2).toNat)) := if_pos hfits
      rw [foldWhenAllImmediates_agrees_iff rfl hword, bitFieldUExtractFold_eq_iff hfits]
      exact or_congr_right ⟨fun h _ => h, fun h => h hfits⟩
    · exact ⟨fun _ => .inr fun h => absurd h hfits, fun _ => foldAgrees_of_undefined (if_neg hfits)⟩
  | BitFieldSExtract =>
    by_cases hfits : ImmediateInst.Within (arg 1) (arg 2)
    · have hword : ({ op := .BitFieldSExtract, arg := arg, hasAssociatedPseudoOperation := pseudo } : ImmediateInst).defines =
          some (Immediate.make (extractSigned (arg 0) (arg 1).toNat (arg 2).toNat)) := if_pos hfits
      rw [foldWhenAllImmediates_agrees_iff rfl hword, bitFieldSExtractFold_eq_iff hfits]
      exact or_congr_right ⟨fun h _ => h, fun h => h hfits⟩
    · exact ⟨fun _ => .inr fun h => absurd h hfits, fun _ => foldAgrees_of_undefined (if_neg hfits)⟩
  | BitFieldInsert =>
    by_cases hfits : ImmediateInst.Within (arg 2) (arg 3)
    · have hword : ({ op := .BitFieldInsert, arg := arg, hasAssociatedPseudoOperation := pseudo } : ImmediateInst).defines =
          some (Immediate.make (insertBits (arg 0) (arg 1) (arg 2).toNat (arg 3).toNat)) := if_pos hfits
      rw [foldWhenAllImmediates_agrees_iff rfl hword, bitFieldInsertFold_eq_iff]
      exact or_congr_right ⟨fun h _ => h, fun h => h hfits⟩
    · exact ⟨fun _ => .inr fun h => absurd h hfits, fun _ => foldAgrees_of_undefined (if_neg hfits)⟩
  | ShiftRightArithmetic32 =>
    refine ⟨fun _ => .inr trivial, fun _ => ?_⟩
    by_cases hshift : (arg 1).toNat < 32
    · have hword : ({ op := .ShiftRightArithmetic32, arg := arg, hasAssociatedPseudoOperation := pseudo } :
          ImmediateInst).defines = some (Immediate.make ((arg 0).sshiftRight (arg 1).toNat)) := if_pos hshift
      exact (foldWhenAllImmediates_agrees_iff rfl hword).mpr (.inr (shiftRightSigned_toInt hshift))
    · exact foldAgrees_of_undefined (if_neg hshift)
  | INeg32 | ShiftLeftLogical32 | ShiftRightLogical32 | BitwiseNot32 | BitReverse32 | BitCount32 | FindSMsb32
  | FindUMsb32 | SMin32 | UMin32 | SMax32 | UMax32 =>
    -- not folded
    exact ⟨fun _ => .inr trivial, fun _ _ _ => .inl rfl⟩
  | IAdd32 | ISub32 | IMul32 | BitwiseAnd32 | BitwiseOr32 | BitwiseXor32 =>
    exact ⟨fun _ => .inr trivial, fun _ => foldAgrees_of_eq (T := BitVec 32) rfl rfl⟩
  | SLessThan | ULessThan | IEqual | SLessThanEqual | ULessThanEqual | SGreaterThan | UGreaterThan | INotEqual
  | SGreaterThanEqual | UGreaterThanEqual =>
    exact ⟨fun _ => .inr trivial, fun _ => foldAgrees_of_eq (T := Bool) rfl rfl⟩

/-- A byte inserted with more than eight bits set: the ninth stays. -/
theorem constantPropagation_not_agrees :
    ¬({ op := .BitFieldInsert, arg := ([0#32, 0x1ff#32, 0#32, 8#32].getD · 0) } : ImmediateInst).FoldAgrees := by
  intro h
  have hword := h (.u32 0xff#32) (by decide +kernel)
  revert hword
  decide +kernel

end Optimization
end Shader
end Citron
