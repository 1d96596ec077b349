/-
# Constant propagation: the structural folds

The folds of `ConstantPropagation` that look beyond the immediates of the instruction itself: they
reassociate constants, recognise multiplications split in 16-bit halves, cancel constant buffer
reads, and look through logical, select and composite instructions.
-/
import Citron.ShaderRecompiler.MicroInstruction

namespace Citron
namespace Shader
namespace Optimization

open IR

/-- The types `Arg<T>` reads from an immediate and `IR::Value` makes one of. -/
class Immediate (T : Type) where
  get : Imm → T
  make : T → Imm
  get_make : ∀ value, get (make value) = value

instance : Immediate Bool where
  get
    | .u1 value => value
    | _ => false
  make := .u1
  get_make _ := rfl

instance : Immediate (BitVec 32) where
  get
    | .u32 value => value
    | _ => 0
  make := .u32
  get_make _ := rfl

instance : Immediate (BitVec 64) where
  get
    | .u64 value => value
    | _ => 0
  make := .u64
  get_make _ := rfl

/-- `Arg<T>` -/
def argOf (T : Type) [Immediate T] : Value → T
  | .imm payload => Immediate.get payload
  | .inst _ => Immediate.get .void

/-- `IR::Value{value}` -/
def immediate {T : Type} [Immediate T] (value : T) : Value := .imm (Immediate.make value)

variable (s : InstStorage)

/-! ### Commutative operations -/

def foldCommutative {T : Type} [Immediate T] (i : ℕ) (immFn : T → T → T) : Except Exception (InstStorage × Bool) :=
  let lhs := s.arg i 0
  let rhs := s.arg i 1
  match lhs, rhs with
  | .imm _, .imm _ => do
    let s₁ ← s.replaceUsesWith i (immediate (immFn (argOf T lhs) (argOf T rhs)))
    return (s₁, false)
  | .imm _, .inst rhsInst =>
    if s.op rhsInst = s.op i ∧ (s.arg rhsInst 1).isImmediate then do
      let combined := immFn (argOf T lhs) (argOf T (s.arg rhsInst 1))
      let s₁ ← s.setArg i 0 (s.arg rhsInst 0)
      let s₂ ← s₁.setArg i 1 (immediate combined)
      return (s₂, true)
    else do
      -- normalize
      let s₁ ← s.setArg i 0 rhs
      let s₂ ← s₁.setArg i 1 lhs
      return (s₂, true)
  | .inst lhsInst, .imm _ =>
    if s.op lhsInst = s.op i ∧ (s.arg lhsInst 1).isImmediate then do
      let combined := immFn (argOf T rhs) (argOf T (s.arg lhsInst 1))
      let s₁ ← s.setArg i 0 (s.arg lhsInst 0)
      let s₂ ← s₁.setArg i 1 (immediate combined)
      return (s₂, true)
    else return (s, true)
  | .inst _, .inst _ => return (s, true)

/-! ### Multiplications by halves -/

/-- The reads of one constant buffer word. -/
def equalCbuf (a b : ℕ) : Bool :=
  s.op a = .GetCbufU32 ∧ s.op b = .GetCbufU32 ∧ s.arg a 0 = s.arg b 0 ∧ s.arg a 1 = s.arg b 1

/-- The comparison of `AreEqual`. -/
def valuesEqual (lhs rhs : Value) : Bool :=
  if lhs = rhs then true
  else
    match s.get lhs, s.get rhs with
    | some lhsInst, some rhsInst => equalCbuf s lhsInst rhsInst
    | _, _ => false

/-- No two adjacent values differ. -/
def areEqual : List Value → Bool
  | [] | [_] => true
  | lhs :: rhs :: values => valuesEqual s lhs rhs && areEqual (rhs :: values)

/-- A `BitFieldUExtract` with these immediates. -/
def extracts (j : ℕ) (offset count : BitVec 32) : Bool :=
  s.op j = .BitFieldUExtract ∧ s.arg j 1 = immediate offset ∧ s.arg j 2 = immediate count

/-- The factors when the instruction is the sum of two `XMAD` multiplications. -/
def xmadMultiply (i : ℕ) : Option (Value × Value) := do
  let lhsShl ← s.argInst i 0
  let rhsMul ← s.argInst i 1
  guard (s.op lhsShl = .ShiftLeftLogical32 ∧ s.arg lhsShl 1 = immediate 16#32)
  let lhsMul ← s.argInst lhsShl 0
  guard (s.op lhsMul = .IMul32 ∧ s.op rhsMul = .IMul32)
  let factorB := s.arg lhsMul 1
  guard (factorB = s.arg rhsMul 1)
  let lhsBfe ← s.argInst lhsMul 0
  let rhsBfe ← s.argInst rhsMul 0
  guard (extracts s lhsBfe 16#32 16#32)
  guard (extracts s rhsBfe 0#32 16#32)
  let factorA := s.arg lhsBfe 0
  guard (factorA = s.arg rhsBfe 0)
  return (factorA, factorB)

def foldXmadMultiply (block i : ℕ) : Except Exception (InstStorage × Bool) :=
  match xmadMultiply s i with
  | none => return (s, false)
  | some (factorA, factorB) => do
    let s₁ ← s.prependNewInst block (some i) .IMul32 [factorA, factorB]
    let s₂ ← s₁.replaceUsesWith i (.inst s.size)
    return (s₂, true)

/-- The factors and the addend when the instruction ends the pattern of an integer `FMA`. The
variables carry the numbers of the source's listing. -/
def xmadMultiplyAdd (i : ℕ) : Option (Value × Value × Value) := do
  let i25 ← s.argInst i 0
  let i27 ← s.argInst i 1
  guard (s.op i27 = .IAdd32)
  guard (s.op i25 = .ShiftLeftLogical32 ∧ s.arg i25 1 = immediate 16#32)
  let i24 ← s.argInst i25 0
  guard (s.op i24 = .IMul32)
  let i22 ← s.argInst i24 0
  let i23 ← s.argInst i24 1
  guard (extracts s i22 16#32 16#32)
  guard (extracts s i23 16#32 16#32)
  let i11 ← s.argInst i23 0
  guard (s.op i11 = .BitFieldInsert ∧ s.arg i11 2 = immediate 16#32 ∧ s.arg i11 3 = immediate 16#32)
  let i8 ← s.argInst i11 0
  let i10 ← s.argInst i11 1
  guard (s.op i8 = .IMul32)
  let i6 ← s.argInst i8 0
  let i7 ← s.argInst i8 1
  guard (extracts s i6 0#32 16#32)
  guard (extracts s i7 16#32 16#32)
  let i26 ← s.argInst i27 0
  let i18 ← s.argInst i27 1
  guard (s.op i26 = .ShiftLeftLogical32 ∧ s.arg i26 1 = immediate 16#32)
  guard (s.argInst i26 0 = some i11)
  guard (s.op i18 = .IAdd32)
  let i17 ← s.argInst i18 0
  guard (s.op i17 = .IMul32)
  let i15 ← s.argInst i17 0
  let i16 ← s.argInst i17 1
  guard (extracts s i15 0#32 16#32)
  guard (extracts s i16 0#32 16#32)
  guard (extracts s i10 0#32 16#32)
  guard (areEqual s [s.arg i7 0, s.arg i16 0, s.arg i10 0])
  guard (areEqual s [s.arg i22 0, s.arg i6 0, s.arg i15 0])
  return (s.arg i7 0, s.arg i6 0, s.arg i18 1)

def foldXmadMultiplyAdd (block i : ℕ) : Except Exception (InstStorage × Bool) :=
  match xmadMultiplyAdd s i with
  | none => return (s, false)
  | some (opA, opB, opC) => do
    let s₁ ← s.prependNewInst block (some i) .IMul32 [opA, opB]
    let s₂ ← s₁.prependNewInst block (some i) .IAdd32 [.inst s.size, opC]
    let s₃ ← s₂.replaceUsesWith i (.inst s₁.size)
    return (s₃, true)

/-! ### Sums and differences -/

/-- The part of `FoldAdd` that is the same for both widths: the result says whether more is tried. -/
def foldAddZero (T : Type) [Immediate T] [Add T] [OfNat T 0] [DecidableEq T] (i : ℕ) :
    Except Exception (InstStorage × Bool) := do
  if (s.insts i).hasAssociatedPseudoOperation then
    return (s, false)
  let (s₁, folds) ← foldCommutative s i fun a b : T => a + b
  if !folds then
    return (s₁, false)
  let rhs := s₁.arg i 1
  if rhs.isImmediate ∧ argOf T rhs = 0 then
    let s₂ ← s₁.replaceUsesWith i (s₁.arg i 0)
    return (s₂, false)
  return (s₁, true)

/-- `FoldAdd<u32>` -/
def foldAdd32 (block i : ℕ) : Except Exception InstStorage := do
  let (s₁, continues) ← foldAddZero s (BitVec 32) i
  if !continues then
    return s₁
  let (s₂, multiplies) ← foldXmadMultiply s₁ block i
  if multiplies then
    return s₂
  let (s₃, _) ← foldXmadMultiplyAdd s₂ block i
  return s₃

/-- `FoldAdd<u64>` -/
def foldAdd64 (i : ℕ) : Except Exception InstStorage := do
  let (s₁, _) ← foldAddZero s (BitVec 64) i
  return s₁

/-- What is left of the sum `opA` when the constant buffer read `opB` is taken away. -/
def addendOf (opA opB : ℕ) : Option Value := do
  guard (s.op opB = .GetCbufU32)
  guard (s.op opA = .IAdd32)
  let (addOpA, addOpB) :=
    if (s.arg opA 1).isImmediate then (s.arg opA 1, s.arg opA 0) else (s.arg opA 0, s.arg opA 1)
  guard (!addOpB.isImmediate)
  let addCbuf ← s.get addOpB
  guard (equalCbuf s addCbuf opB)
  return addOpA

def foldISub32 (i : ℕ) : Except Exception InstStorage :=
  if s.areAllArgsImmediates i ∧ !(s.insts i).hasAssociatedPseudoOperation then
    s.replaceUsesWith i (immediate (argOf (BitVec 32) (s.arg i 0) - argOf (BitVec 32) (s.arg i 1)))
  else
    match s.argInst i 0, s.argInst i 1 with
    | some opA, some opB =>
      if equalCbuf s opA opB then s.replaceUsesWith i (immediate 0#32)
      else
        -- canonicalize local variables: the sum first, whichever operand it is
        let operands := if s.op opB = .IAdd32 then (opB, opA) else (opA, opB)
        match addendOf s operands.1 operands.2 with
        | some addOpA => s.replaceUsesWith i addOpA
        | none => return s
    | _, _ => return s

/-! ### Logic and selection -/

def foldSelect (i : ℕ) : Except Exception InstStorage :=
  let cond := s.arg i 0
  if cond.isImmediate then
    s.replaceUsesWith i (if argOf Bool cond then s.arg i 1 else s.arg i 2)
  else return s

def foldLogicalAnd (i : ℕ) : Except Exception InstStorage := do
  let (s₁, folds) ← foldCommutative s i fun a b : Bool => a && b
  if !folds then
    return s₁
  let rhs := s₁.arg i 1
  if rhs.isImmediate then
    if argOf Bool rhs then s₁.replaceUsesWith i (s₁.arg i 0)
    else s₁.replaceUsesWith i (immediate false)
  else return s₁

def foldLogicalOr (i : ℕ) : Except Exception InstStorage := do
  let (s₁, folds) ← foldCommutative s i fun a b : Bool => a || b
  if !folds then
    return s₁
  let rhs := s₁.arg i 1
  if rhs.isImmediate then
    if argOf Bool rhs then s₁.replaceUsesWith i (immediate true)
    else s₁.replaceUsesWith i (s₁.arg i 0)
  else return s₁

def foldLogicalNot (i : ℕ) : Except Exception InstStorage :=
  match s.arg i 0 with
  | .imm payload => s.replaceUsesWith i (immediate (!argOf Bool (.imm payload)))
  | .inst arg => if s.op arg = .LogicalNot then s.replaceUsesWith i (s.arg arg 0) else return s

/-! ### Composites -/

/-- `FoldCompositeExtractImpl`, looking through at most so many insertions. -/
def foldCompositeExtractFor (insert construct : Opcode) (firstIndex : BitVec 32) : ℕ → Value → Option Value
  | 0, _ => none
  | n + 1, value => do
    let inst ← s.get value
    if s.op inst = construct then
      return s.arg inst firstIndex.toNat
    guard (s.op inst = insert)
    let valueIndex := s.arg inst 2
    guard valueIndex.isImmediate
    if firstIndex ≠ argOf (BitVec 32) valueIndex then
      let valueComposite := s.arg inst 0
      guard (!valueComposite.isImmediate)
      foldCompositeExtractFor insert construct firstIndex n valueComposite
    else return s.arg inst 1

/-- A chain of insertions visits no instruction twice. -/
def foldCompositeExtractImpl (instValue : Value) (insert construct : Opcode) (firstIndex : BitVec 32) :
    Option Value :=
  foldCompositeExtractFor s insert construct firstIndex s.size instValue

def foldCompositeExtract (i : ℕ) (construct insert : Opcode) : Except Exception InstStorage :=
  let value1 := s.arg i 0
  let value2 := s.arg i 1
  if value1.isImmediate ∨ !value2.isImmediate then return s
  else
    match foldCompositeExtractImpl s value1 insert construct (argOf (BitVec 32) value2) with
    | none => return s
    | some result => s.replaceUsesWith i result

/-! ### The switch -/

/-- The cases of `ConstantPropagation` above. -/
def structuralFold (block i : ℕ) : Except Exception InstStorage :=
  match s.op i with
  | .IAdd32 => foldAdd32 s block i
  | .ISub32 => foldISub32 s i
  | .IAdd64 => foldAdd64 s i
  | .Select _ => foldSelect s i
  | .LogicalAnd => foldLogicalAnd s i
  | .LogicalOr => foldLogicalOr s i
  | .LogicalNot => foldLogicalNot s i
  | .CompositeExtract element size =>
    if element = .U32 ∨ element = .F32 ∨ element = .F16 then
      foldCompositeExtract s i (.CompositeConstruct element size) (.CompositeInsert element size)
    else return s
  | _ => return s

end Optimization
end Shader
end Citron
