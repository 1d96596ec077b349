/-
# Constant propagation: the folds of immediates

`ConstantPropagation` evaluates an integer instruction all of whose arguments are 32-bit immediates. Each fold computes
on the host, where a shift by the width of the word or more is undefined.
-/
import Citron.ShaderRecompiler.ConstantPropagation

namespace Citron
namespace Shader
namespace Optimization

open IR

/-- The 32-bit integer opcodes: arithmetic, shifts, bitwise operations, bit fields, bit searches and comparisons. -/
inductive IntegerOpcode
  | IAdd32 | ISub32 | IMul32 | INeg32
  | ShiftLeftLogical32 | ShiftRightLogical32 | ShiftRightArithmetic32
  | BitwiseAnd32 | BitwiseOr32 | BitwiseXor32 | BitwiseNot32
  | BitFieldInsert | BitFieldSExtract | BitFieldUExtract
  | BitReverse32 | BitCount32 | FindSMsb32 | FindUMsb32
  | SMin32 | UMin32 | SMax32 | UMax32
  | SLessThan | ULessThan | IEqual | SLessThanEqual | ULessThanEqual | SGreaterThan | UGreaterThan | INotEqual
  | SGreaterThanEqual | UGreaterThanEqual
  deriving DecidableEq

/-- An instruction whose arguments are immediates. -/
structure ImmediateInst where
  op : IntegerOpcode
  arg : ℕ → BitVec 32
  hasAssociatedPseudoOperation : Bool := false

/-- How the host fails to compute a fold. -/
inductive FoldFault
  | undefinedShift
  | thrown (exception : Exception)
  deriving DecidableEq

namespace Host

/-- `a << n` -/
def shiftLeft (a : BitVec 32) (n : ℕ) : Except FoldFault (BitVec 32) :=
  if n < 32 then .ok (a <<< n) else .error .undefinedShift

/-- `a >> n` of an unsigned `a` -/
def shiftRight (a : BitVec 32) (n : ℕ) : Except FoldFault (BitVec 32) :=
  if n < 32 then .ok (a >>> n) else .error .undefinedShift

/-- `a >> n` of a signed `a` -/
def shiftRightSigned (a : BitVec 32) (n : ℤ) : Except FoldFault (BitVec 32) :=
  if 0 ≤ n ∧ n < 32 then .ok (a.sshiftRight n.toNat) else .error .undefinedShift

end Host

/-! ### The bit fields -/

def undefinedResult (text : String) : FoldFault := .thrown (.logicError text)

def bitFieldUExtractFold (base shift count : BitVec 32) : Except FoldFault (BitVec 32) := do
  if 32#64 < shift.setWidth 64 + count.setWidth 64 then
    throw (undefinedResult "Undefined result in {}({}, {}, {})")
  let shifted ← Host.shiftRight base shift.toNat
  let bit ← Host.shiftLeft 1#32 count.toNat
  return shifted &&& (bit - 1#32)

def bitFieldSExtractFold (base shift count : BitVec 32) : Except FoldFault (BitVec 32) := do
  let backShift : BitVec 64 := shift.setWidth 64 + count.setWidth 64
  let leftShift : BitVec 64 := 32#64 - backShift
  let rightShift : BitVec 64 := (32#32 - count).setWidth 64
  if 32#64 < backShift ∨ 32#64 ≤ leftShift ∨ 32#64 ≤ rightShift then
    throw (undefinedResult "Undefined result in {}({}, {}, {})")
  let shifted ← Host.shiftLeft base leftShift.toNat
  Host.shiftRightSigned shifted rightShift.toNat

def bitFieldInsertFold (base insert offset bits : BitVec 32) : Except FoldFault (BitVec 32) := do
  if 32#32 ≤ bits ∨ 32#32 ≤ offset then
    throw (undefinedResult "Undefined result in {}({}, {}, {}, {})")
  let high ← Host.shiftLeft (~~~0#32) bits.toNat
  let field ← Host.shiftLeft (~~~high) offset.toNat
  let inserted ← Host.shiftLeft insert offset.toNat
  return base &&& ~~~field ||| inserted

/-! ### The switch -/

/-- The value that replaces the uses of the instruction, none if it is left as it is. -/
def foldWhenAllImmediates (inst : ImmediateInst) {T : Type} [Immediate T] (func : Except FoldFault T) :
    Except FoldFault (Option Imm) :=
  if inst.hasAssociatedPseudoOperation then .ok none else func.map fun value => some (Immediate.make value)

/-- `FoldAdd<u32>` with the case of `FoldCommutative` for two immediates -/
def foldAdd (inst : ImmediateInst) : Except FoldFault (Option Imm) :=
  if inst.hasAssociatedPseudoOperation then .ok none
  else .ok (some (Immediate.make (inst.arg 0 + inst.arg 1)))

def constantPropagation (inst : ImmediateInst) : Except FoldFault (Option Imm) :=
  let a := inst.arg 0
  let b := inst.arg 1
  match inst.op with
  | .IAdd32 => foldAdd inst
  | .ISub32 => foldWhenAllImmediates inst (.ok (a - b))
  | .IMul32 => foldWhenAllImmediates inst (.ok (a * b))
  | .ShiftRightArithmetic32 => foldWhenAllImmediates inst (Host.shiftRightSigned a b.toInt)
  | .SLessThan => foldWhenAllImmediates inst (.ok (a.slt b))
  | .ULessThan => foldWhenAllImmediates inst (.ok (a.ult b))
  | .SLessThanEqual => foldWhenAllImmediates inst (.ok (a.sle b))
  | .ULessThanEqual => foldWhenAllImmediates inst (.ok (a.ule b))
  | .SGreaterThan => foldWhenAllImmediates inst (.ok (b.slt a))
  | .UGreaterThan => foldWhenAllImmediates inst (.ok (b.ult a))
  | .SGreaterThanEqual => foldWhenAllImmediates inst (.ok (b.sle a))
  | .UGreaterThanEqual => foldWhenAllImmediates inst (.ok (b.ule a))
  | .IEqual => foldWhenAllImmediates inst (.ok (a == b))
  | .INotEqual => foldWhenAllImmediates inst (.ok (a != b))
  | .BitwiseAnd32 => foldWhenAllImmediates inst (.ok (a &&& b))
  | .BitwiseOr32 => foldWhenAllImmediates inst (.ok (a ||| b))
  | .BitwiseXor32 => foldWhenAllImmediates inst (.ok (a ^^^ b))
  | .BitFieldUExtract => foldWhenAllImmediates inst (bitFieldUExtractFold a b (inst.arg 2))
  | .BitFieldSExtract => foldWhenAllImmediates inst (bitFieldSExtractFold a b (inst.arg 2))
  | .BitFieldInsert => foldWhenAllImmediates inst (bitFieldInsertFold a b (inst.arg 2) (inst.arg 3))
  | .INeg32 | .ShiftLeftLogical32 | .ShiftRightLogical32 | .BitwiseNot32 | .BitReverse32 | .BitCount32 | .FindSMsb32
  | .FindUMsb32 | .SMin32 | .UMin32 | .SMax32 | .UMax32 => .ok none

end Optimization
end Shader
end Citron
