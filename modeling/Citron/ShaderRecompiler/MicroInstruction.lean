/-
# The instructions of the shader recompiler

A program's instructions live in one storage and never move. An argument is an immediate or the
index of the instruction whose result it is; every mutation of an argument keeps the use count of
the instructions it names, and a pseudo-operation is linked back from the one it reads.
-/
import Mathlib

namespace Citron
namespace Shader
namespace IR

/-- What an instruction throws. -/
inductive Exception
  | logicError (text : String)
  | invalidArgument (text : String)
  deriving DecidableEq

/-- The payload of an immediate. Floating-point numbers are kept as their bits, which is how
`Value::operator==` compares them. -/
inductive Imm
  | void
  | reg (index : ℕ)
  | pred (index : ℕ)
  | attribute (index : ℕ)
  | patch (index : ℕ)
  | u1 (value : Bool)
  | u8 (value : BitVec 8)
  | u16 (value : BitVec 16)
  | u32 (value : BitVec 32)
  | u64 (value : BitVec 64)
  | f16 (bits : BitVec 16)
  | f32 (bits : BitVec 32)
  | f64 (bits : BitVec 64)
  deriving DecidableEq

/-- An immediate, or the result of the instruction at an index of the storage. -/
inductive Value
  | imm (payload : Imm)
  | inst (index : ℕ)
  deriving DecidableEq

namespace Value

def isImmediate : Value → Bool
  | .imm _ => true
  | .inst _ => false

/-- The index of the instruction, none for an immediate. -/
def instIndex : Value → Option ℕ
  | .imm _ => none
  | .inst i => some i

end Value

/-- The element types of the composite and the select opcodes. -/
inductive Element
  | U1 | U8 | U16 | U32 | U64 | F16 | F32 | F64
  deriving DecidableEq

/-- The opcodes some modelled function asks for. `CompositeConstruct .U32 2` is the source's
`CompositeConstructU32x2`, `Select .U1` its `SelectU1`; `sideEffect` and `other` stand for the
opcodes that nothing asks for by name, with and without side effects. -/
inductive Opcode
  | Phi | Identity | Void
  | GetCbufU32
  | CompositeConstruct (element : Element) (size : Fin 5)
  | CompositeExtract (element : Element) (size : Fin 5)
  | CompositeInsert (element : Element) (size : Fin 5)
  | Select (element : Element)
  | GetZeroFromOp | GetSignFromOp | GetCarryFromOp | GetOverflowFromOp | GetSparseFromOp | GetInBoundsFromOp
  | IAdd32 | IAdd64 | ISub32 | IMul32 | ShiftLeftLogical32 | BitFieldInsert | BitFieldUExtract
  | LogicalOr | LogicalAnd | LogicalXor | LogicalNot
  | sideEffect (index : ℕ) (arity : Fin 6)
  | other (index : ℕ) (arity : Fin 6)
  deriving DecidableEq

/-- The four links from an instruction to the pseudo-operations that read it. -/
inductive PseudoLink
  | zero | sign | carry | overflow
  deriving DecidableEq

namespace Opcode

/-- `NumArgsOf` -/
def numArgs : Opcode → ℕ
  | Phi | Void => 0
  | CompositeConstruct _ size => size
  | sideEffect _ arity | other _ arity => arity
  | Identity | LogicalNot => 1
  | GetZeroFromOp | GetSignFromOp | GetCarryFromOp | GetOverflowFromOp | GetSparseFromOp | GetInBoundsFromOp => 1
  | Select _ | CompositeInsert _ _ | BitFieldUExtract => 3
  | BitFieldInsert => 4
  | GetCbufU32 | CompositeExtract _ _ => 2
  | IAdd32 | IAdd64 | ISub32 | IMul32 | ShiftLeftLogical32 | LogicalOr | LogicalAnd | LogicalXor => 2

theorem numArgs_le (op : Opcode) : op.numArgs ≤ 5 := by
  cases op <;> simp only [numArgs] <;> omega

/-- The link a use by this opcode sets: the switch of `Use` and `UndoUse`. The zero, sparse and
in-bounds operations share one. -/
def pseudoLink : Opcode → Option PseudoLink
  | GetZeroFromOp | GetSparseFromOp | GetInBoundsFromOp => some .zero
  | GetSignFromOp => some .sign
  | GetCarryFromOp => some .carry
  | GetOverflowFromOp => some .overflow
  | _ => none

def mayHaveSideEffects : Opcode → Bool
  | sideEffect _ _ => true
  | _ => false

end Opcode

/-- An instruction. The source keeps `args` and `phiArgs` in one union, told apart by `op`; the one
that is not in use is empty here. -/
structure Inst where
  op : Opcode
  useCount : ℤ := 0
  pseudo : PseudoLink → Option ℕ := fun _ => none
  args : Vector Value 5 := Vector.replicate 5 (.imm .void)
  phiArgs : List (ℕ × Value) := []

namespace Inst

def hasUses (inst : Inst) : Bool := 0 < inst.useCount

def hasAssociatedPseudoOperation (inst : Inst) : Bool :=
  (inst.pseudo .zero).isSome || (inst.pseudo .sign).isSome || (inst.pseudo .carry).isSome ||
    (inst.pseudo .overflow).isSome

def numArgs (inst : Inst) : ℕ :=
  if inst.op = .Phi then inst.phiArgs.length else inst.op.numArgs

def rawArg (inst : Inst) (index : ℕ) : Value :=
  if inst.op = .Phi then ((inst.phiArgs[index]?).map (·.2)).getD (.imm .void)
  else (inst.args[index]?).getD (.imm .void)

/-- The assignment at the end of `SetArg`. -/
def putArg (inst : Inst) (index : ℕ) (value : Value) : Inst :=
  if inst.op = .Phi then
    { inst with phiArgs := inst.phiArgs.modify index fun operand => (operand.1, value) }
  else
    { inst with args := inst.args.setIfInBounds index value }

/-- `ClearArgs` after the uses are undone. -/
def cleared (inst : Inst) : Inst :=
  if inst.op = .Phi then { inst with phiArgs := [] }
  else { inst with args := Vector.replicate 5 (.imm .void) }

/-- `ReplaceOpcode`: leaving `Phi` destroys the operands and constructs the arguments. -/
def withOpcode (inst : Inst) (opcode : Opcode) : Inst :=
  if inst.op = .Phi then
    { inst with op := opcode, phiArgs := [], args := Vector.replicate 5 (.imm .void) }
  else { inst with op := opcode }

/-- The values of the argument or operand slots, those past the arity of the opcode included. -/
def slots (inst : Inst) : List Value :=
  if inst.op = .Phi then inst.phiArgs.map (·.2) else inst.args.toList

end Inst

/-- The instructions of a program. The list of a block is the chain of the `next` links. -/
structure InstStorage where
  insts : ℕ → Inst
  size : ℕ
  blocks : ℕ → List ℕ

namespace InstStorage

variable (s : InstStorage)

def modify (i : ℕ) (f : Inst → Inst) : InstStorage :=
  { s with insts := fun j => if j = i then f (s.insts j) else s.insts j }

def op (i : ℕ) : Opcode := (s.insts i).op

/-- The loop of `Resolve`: at most `n` identities are looked through. -/
def resolveFor : ℕ → Value → Value
  | 0, value => value
  | _ + 1, .imm payload => .imm payload
  | n + 1, .inst i => if s.op i = .Identity then resolveFor n ((s.insts i).rawArg 0) else .inst i

/-- A chain of identities visits no instruction twice, so it ends within the size of the storage. -/
def resolve (value : Value) : Value := s.resolveFor s.size value

/-- `InstStorage::Get` -/
def get (value : Value) : Option ℕ := (s.resolve value).instIndex

def arg (i index : ℕ) : Value := s.resolve ((s.insts i).rawArg index)

def argInst (i index : ℕ) : Option ℕ := s.get ((s.insts i).rawArg index)

def areAllArgsImmediates (i : ℕ) : Bool :=
  (List.range (s.insts i).numArgs).all fun index => (s.arg i index).isImmediate

/-! ### Uses -/

/-- `Inst::Use` of the instruction `i`, for a value that is the instruction `target`. -/
def use (i target : ℕ) : Except Exception InstStorage :=
  let counted := s.modify target fun inst => { inst with useCount := inst.useCount + 1 }
  match (counted.op i).pseudoLink with
  | none => .ok counted
  | some link =>
    if ((counted.insts target).pseudo link).isSome then
      .error (.logicError "Only one of each type of pseudo-op allowed")
    else
      .ok (counted.modify target fun inst => { inst with pseudo := Function.update inst.pseudo link (some i) })

/-- `Inst::UndoUse` of the instruction `i`, for a value that is the instruction `target`. -/
def undoUse (i target : ℕ) : Except Exception InstStorage :=
  let counted := s.modify target fun inst => { inst with useCount := inst.useCount - 1 }
  match (counted.op i).pseudoLink with
  | none => .ok counted
  | some link =>
    match (counted.insts target).pseudo link with
    | none => .error (.logicError "Undoing use of invalid pseudo-op")
    | some pseudo =>
      if counted.op pseudo = counted.op i then
        .ok (counted.modify target fun inst => { inst with pseudo := Function.update inst.pseudo link none })
      else
        .error (.logicError "Undoing use of invalid pseudo-op")

/-- `if (value.IsInst()) Use(value)` -/
def useValue (i : ℕ) : Value → Except Exception InstStorage
  | .imm _ => .ok s
  | .inst target => s.use i target

/-- `if (value.IsInst()) UndoUse(value)` -/
def undoUseValue (i : ℕ) : Value → Except Exception InstStorage
  | .imm _ => .ok s
  | .inst target => s.undoUse i target

/-! ### Mutators -/

def setArg (i index : ℕ) (value : Value) : Except Exception InstStorage := do
  if (s.insts i).numArgs ≤ index then
    throw (.invalidArgument "Out of bounds argument index {} in opcode {}")
  let s₁ ← s.undoUseValue i ((s.insts i).rawArg index)
  let s₂ ← s₁.useValue i value
  return s₂.modify i fun inst => inst.putArg index value

def addPhiOperand (i predecessor : ℕ) (value : Value) : Except Exception InstStorage := do
  let s₁ ← s.useValue i value
  return s₁.modify i fun inst => { inst with phiArgs := inst.phiArgs ++ [(predecessor, value)] }

/-- Undoes the use of every value of a list, in order. -/
def undoUses (i : ℕ) (values : List Value) : Except Exception InstStorage :=
  values.foldlM (fun t value => t.undoUseValue i value) s

def clearArgs (i : ℕ) : Except Exception InstStorage := do
  let s₁ ← s.undoUses i (s.insts i).slots
  return s₁.modify i Inst.cleared

def replaceOpcode (i : ℕ) (opcode : Opcode) : Except Exception InstStorage := do
  if opcode = .Phi then
    throw (.logicError "Cannot transition into Phi")
  return s.modify i fun inst => inst.withOpcode opcode

def invalidate (i : ℕ) : Except Exception InstStorage := do
  let s₁ ← s.clearArgs i
  s₁.replaceOpcode i .Void

def replaceUsesWith (i : ℕ) (replacement : Value) : Except Exception InstStorage := do
  let s₁ ← s.invalidate i
  let s₂ ← s₁.replaceOpcode i .Identity
  let s₃ ← s₂.useValue i replacement
  return s₃.modify i fun inst => { inst with args := inst.args.set 0 replacement }

/-! ### Blocks -/

/-- A new instruction at the end of the storage, in no block. -/
def emplace (opcode : Opcode) : InstStorage :=
  { s with insts := fun j => if j = s.size then { op := opcode } else s.insts j, size := s.size + 1 }

/-- Puts an index before another one, at the end when there is none. -/
def insertBefore (index : ℕ) (before : Option ℕ) : List ℕ → List ℕ
  | [] => [index]
  | i :: is => if before = some i then index :: i :: is else i :: insertBefore index before is

/-- `Block::Link` -/
def link (block index : ℕ) (before : Option ℕ) : InstStorage :=
  { s with blocks := Function.update s.blocks block (insertBefore index before (s.blocks block)) }

/-- `Block::erase` -/
def erase (block index : ℕ) : InstStorage :=
  { s with blocks := Function.update s.blocks block ((s.blocks block).erase index) }

/-- Sets the arguments of the instruction `i` from `index` on. -/
def setArgs (s : InstStorage) (i index : ℕ) : List Value → Except Exception InstStorage
  | [] => .ok s
  | value :: values => do
    let s₁ ← s.setArg i index value
    setArgs s₁ i (index + 1) values

/-- `Block::PrependNewInst`: the storage with the new instruction, which is its last. -/
def prependNewInst (block : ℕ) (before : Option ℕ) (opcode : Opcode) (args : List Value) :
    Except Exception InstStorage := do
  let s₁ := (s.emplace opcode).link block s.size before
  if (s₁.insts s.size).numArgs ≠ args.length then
    throw (.invalidArgument "Invalid number of arguments {} in {}")
  s₁.setArgs s.size 0 args

end InstStorage

/-- The identity that takes the place of an instruction. -/
def Inst.identityTo (inst : Inst) (replacement : Value) : Inst :=
  { inst with
    op := .Identity
    args := (Vector.replicate 5 (.imm .void)).set 0 replacement
    phiArgs := if inst.op = .Phi then [] else inst.phiArgs }

end IR
end Shader
end Citron
