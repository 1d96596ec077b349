/-
# The instructions of the cheat VM

`DmntCheatVm::DecodeNextOpcode`: an instruction is one to five words, by the type and the
fields of its first. Fields of an enumeration can have values the enumeration does not name.
The two reads of one expression are made in the order they are written in.
-/
import Citron.Lib.Scanner

namespace Citron
namespace Core

open Lib (Scanner)
open Lib.Scanner (next)

abbrev Dword := BitVec 32

abbrev U64 := BitVec 64

abbrev NumRegisters : ℕ := 16

instance neZeroNumRegisters : NeZero NumRegisters := ⟨by decide⟩

abbrev NumReadableStaticRegisters : ℕ := 0x80

abbrev NumStaticRegisters : ℕ := 0x100

abbrev RegIndex := Fin NumRegisters

/-! ### Opcodes -/

inductive CheatVmOpcodeType
  | storeStatic
  | beginConditionalBlock
  | endConditionalBlock
  | controlLoop
  | loadRegisterStatic
  | loadRegisterMemory
  | storeStaticToAddress
  | performArithmeticStatic
  | beginKeypressConditionalBlock
  | performArithmeticRegister
  | storeRegisterToAddress
  | beginRegisterConditionalBlock
  | saveRestoreRegister
  | saveRestoreRegisterMask
  | readWriteStaticRegister
  | pauseProcess
  | resumeProcess
  | debugLog
  | unrecognized (type : ℕ)
deriving DecidableEq, Repr

def CheatVmOpcodeType.ofValue (type : ℕ) : CheatVmOpcodeType :=
  if type = 0 then .storeStatic
  else if type = 1 then .beginConditionalBlock
  else if type = 2 then .endConditionalBlock
  else if type = 3 then .controlLoop
  else if type = 4 then .loadRegisterStatic
  else if type = 5 then .loadRegisterMemory
  else if type = 6 then .storeStaticToAddress
  else if type = 7 then .performArithmeticStatic
  else if type = 8 then .beginKeypressConditionalBlock
  else if type = 9 then .performArithmeticRegister
  else if type = 10 then .storeRegisterToAddress
  else if type = 0xC0 then .beginRegisterConditionalBlock
  else if type = 0xC1 then .saveRestoreRegister
  else if type = 0xC2 then .saveRestoreRegisterMask
  else if type = 0xC3 then .readWriteStaticRegister
  else if type = 0xFF0 then .pauseProcess
  else if type = 0xFF1 then .resumeProcess
  else if type = 0xFFF then .debugLog
  else .unrecognized type

inductive MemoryAccessType
  | mainNso
  | heap
  | alias
  | aslr
  | other (value : ℕ)
deriving DecidableEq, Repr

def MemoryAccessType.ofValue : ℕ → MemoryAccessType
  | 0 => .mainNso
  | 1 => .heap
  | 2 => .alias
  | 3 => .aslr
  | value => .other value

inductive ConditionalComparisonType
  | gt
  | ge
  | lt
  | le
  | eq
  | ne
  | other (value : ℕ)
deriving DecidableEq, Repr

def ConditionalComparisonType.ofValue : ℕ → ConditionalComparisonType
  | 1 => .gt
  | 2 => .ge
  | 3 => .lt
  | 4 => .le
  | 5 => .eq
  | 6 => .ne
  | value => .other value

inductive RegisterArithmeticType
  | addition
  | subtraction
  | multiplication
  | leftShift
  | rightShift
  | logicalAnd
  | logicalOr
  | logicalNot
  | logicalXor
  | none
  | other (value : ℕ)
deriving DecidableEq, Repr

def RegisterArithmeticType.ofValue : ℕ → RegisterArithmeticType
  | 0 => .addition
  | 1 => .subtraction
  | 2 => .multiplication
  | 3 => .leftShift
  | 4 => .rightShift
  | 5 => .logicalAnd
  | 6 => .logicalOr
  | 7 => .logicalNot
  | 8 => .logicalXor
  | 9 => .none
  | value => .other value

inductive StoreRegisterOffsetType
  | none
  | reg
  | imm
  | memReg
  | memImm
  | memImmReg
deriving DecidableEq, Repr

/-- A value without a name is `None`. -/
def StoreRegisterOffsetType.ofValue : ℕ → StoreRegisterOffsetType
  | 1 => .reg
  | 2 => .imm
  | 3 => .memReg
  | 4 => .memImm
  | 5 => .memImmReg
  | _ => .none

inductive CompareRegisterValueType
  | memoryRelAddr
  | memoryOfsReg
  | registerRelAddr
  | registerOfsReg
  | staticValue
  | otherRegister
  | other (value : ℕ)
deriving DecidableEq, Repr

def CompareRegisterValueType.ofValue : ℕ → CompareRegisterValueType
  | 0 => .memoryRelAddr
  | 1 => .memoryOfsReg
  | 2 => .registerRelAddr
  | 3 => .registerOfsReg
  | 4 => .staticValue
  | 5 => .otherRegister
  | value => .other value

inductive SaveRestoreRegisterOpType
  | restore
  | save
  | clearSaved
  | clearRegs
  | other (value : ℕ)
deriving DecidableEq, Repr

def SaveRestoreRegisterOpType.ofValue : ℕ → SaveRestoreRegisterOpType
  | 0 => .restore
  | 1 => .save
  | 2 => .clearSaved
  | 3 => .clearRegs
  | value => .other value

inductive DebugLogValueType
  | memoryRelAddr
  | memoryOfsReg
  | registerRelAddr
  | registerOfsReg
  | registerValue
  | other (value : ℕ)
deriving DecidableEq, Repr

def DebugLogValueType.ofValue : ℕ → DebugLogValueType
  | 0 => .memoryRelAddr
  | 1 => .memoryOfsReg
  | 2 => .registerRelAddr
  | 3 => .registerOfsReg
  | 4 => .registerValue
  | value => .other value

/-- A decoded instruction. A `VmInt` is kept as the number its bits are. -/
inductive Opcode
  | storeStatic (bitWidth : ℕ) (memType : MemoryAccessType) (offsetRegister : RegIndex) (relAddress value : U64)
  | beginConditional (bitWidth : ℕ) (memType : MemoryAccessType) (condType : ConditionalComparisonType)
      (relAddress value : U64)
  | endConditional (isElse : Bool)
  | controlLoop (startLoop : Bool) (regIndex : RegIndex) (numIters : Dword)
  | loadRegisterStatic (regIndex : RegIndex) (value : U64)
  | loadRegisterMemory (bitWidth : ℕ) (memType : MemoryAccessType) (regIndex : RegIndex) (loadFromReg : Bool)
      (relAddress : U64)
  | storeStaticToAddress (bitWidth : ℕ) (regIndex : RegIndex) (incrementReg addOffsetReg : Bool)
      (offsetRegIndex : RegIndex) (value : U64)
  | performArithmeticStatic (bitWidth : ℕ) (regIndex : RegIndex) (mathType : RegisterArithmeticType) (value : Dword)
  | beginKeypressConditional (keyMask : Dword)
  | performArithmeticRegister (bitWidth : ℕ) (mathType : RegisterArithmeticType)
      (dstRegIndex srcReg1Index srcReg2Index : RegIndex) (hasImmediate : Bool) (value : U64)
  | storeRegisterToAddress (bitWidth : ℕ) (strRegIndex addrRegIndex : RegIndex) (incrementReg : Bool)
      (ofsType : StoreRegisterOffsetType) (memType : MemoryAccessType) (ofsRegIndex : RegIndex) (relAddress : U64)
  | beginRegisterConditional (bitWidth : ℕ) (condType : ConditionalComparisonType) (valRegIndex : RegIndex)
      (compType : CompareRegisterValueType) (memType : MemoryAccessType)
      (addrRegIndex otherRegIndex ofsRegIndex : RegIndex) (relAddress value : U64)
  | saveRestoreRegister (dstIndex srcIndex : RegIndex) (opType : SaveRestoreRegisterOpType)
  | saveRestoreRegisterMask (opType : SaveRestoreRegisterOpType) (shouldOperate : RegIndex → Bool)
  | readWriteStaticRegister (staticIdx : Fin NumStaticRegisters) (idx : RegIndex)
  | pauseProcess
  | resumeProcess
  | debugLog (bitWidth : ℕ) (logId : ℕ) (valType : DebugLogValueType) (memType : MemoryAccessType)
      (addrRegIndex valRegIndex ofsRegIndex : RegIndex) (relAddress : U64)

structure CheatVmOpcode where
  beginConditionalBlock : Bool
  opcode : Opcode

/-! ### The decoder -/

/-- `(word >> low) & 0xF`. -/
def nibble (word : Dword) (low : ℕ) : ℕ := (word.extractLsb' low 4).toNat

theorem nibble_lt (word : Dword) (low : ℕ) : nibble word low < 16 := (word.extractLsb' low 4).isLt

def regNibble (word : Dword) (low : ℕ) : RegIndex := ⟨nibble word low, nibble_lt word low⟩

/-- The static register index of two nibbles. -/
def staticIndex (word : Dword) : Fin NumStaticRegisters := ⟨(word.extractLsb' 4 8).toNat, (word.extractLsb' 4 8).isLt⟩

/-- `(static_cast<u64>(high) << 32) | low`. -/
def joinDwords (high low : Dword) : U64 := high.setWidth 64 <<< 32 ||| low.setWidth 64

def getNextVmInt (bitWidth : ℕ) : Scanner Dword U64 := do
  let first ← next
  match bitWidth with
  | 1 => pure ((first.setWidth 8).setWidth 64)
  | 2 => pure ((first.setWidth 16).setWidth 64)
  | 4 => pure (first.setWidth 64)
  | 8 => do
    let second ← next
    pure (joinDwords first second)
  | _ => pure 0

def opcodeType (first : Dword) : CheatVmOpcodeType :=
  let type := nibble first 28
  let type := if 12 ≤ type then type * 16 + nibble first 24 else type
  let type := if 0xF0 ≤ type then type * 16 + nibble first 20 else type
  .ofValue type

def decodeStoreRegisterToAddress (first : Dword) : Scanner Dword Opcode :=
  let opcode := Opcode.storeRegisterToAddress (nibble first 24) (regNibble first 20) (regNibble first 16)
    (nibble first 12 ≠ 0)
  let ofsType := StoreRegisterOffsetType.ofValue (nibble first 8)
  let ofsReg := regNibble first 4
  let memType := MemoryAccessType.ofValue (nibble first 4)
  match ofsType with
  | .none | .reg => pure (opcode ofsType .mainNso ofsReg 0)
  | .imm => do
    let low ← next
    pure (opcode ofsType .mainNso ofsReg (joinDwords (first &&& 0xF) low))
  | .memReg => pure (opcode ofsType memType ofsReg 0)
  | .memImm | .memImmReg => do
    let low ← next
    pure (opcode ofsType memType ofsReg (joinDwords (first &&& 0xF) low))

def decodeBeginRegisterConditional (first : Dword) : Scanner Dword Opcode :=
  let bitWidth := nibble first 20
  let compType := CompareRegisterValueType.ofValue (nibble first 8)
  let opcode := Opcode.beginRegisterConditional bitWidth (.ofValue (nibble first 16)) (regNibble first 12) compType
  let memType := MemoryAccessType.ofValue (nibble first 4)
  match compType with
  | .staticValue => do
    let value ← getNextVmInt bitWidth
    pure (opcode .mainNso 0 0 0 0 value)
  | .otherRegister => pure (opcode .mainNso 0 (regNibble first 4) 0 0 0)
  | .memoryRelAddr => do
    let low ← next
    pure (opcode memType 0 0 0 (joinDwords (first &&& 0xF) low) 0)
  | .memoryOfsReg => pure (opcode memType 0 0 (regNibble first 0) 0 0)
  | .registerRelAddr => do
    let low ← next
    pure (opcode .mainNso (regNibble first 4) 0 0 (joinDwords (first &&& 0xF) low) 0)
  | .registerOfsReg => pure (opcode .mainNso (regNibble first 4) 0 (regNibble first 0) 0 0)
  | .other _ => pure (opcode .mainNso 0 0 0 0 0)

def decodeDebugLog (first : Dword) : Scanner Dword Opcode :=
  let valType := DebugLogValueType.ofValue (nibble first 8)
  let opcode := Opcode.debugLog (nibble first 16) (nibble first 12) valType
  let memType := MemoryAccessType.ofValue (nibble first 4)
  match valType with
  | .registerValue => pure (opcode .mainNso 0 (regNibble first 4) 0 0)
  | .memoryRelAddr => do
    let low ← next
    pure (opcode memType 0 0 0 (joinDwords (first &&& 0xF) low))
  | .memoryOfsReg => pure (opcode memType 0 0 (regNibble first 0) 0)
  | .registerRelAddr => do
    let low ← next
    pure (opcode .mainNso (regNibble first 4) 0 0 (joinDwords (first &&& 0xF) low))
  | .registerOfsReg => pure (opcode .mainNso (regNibble first 4) 0 (regNibble first 0) 0)
  | .other _ => pure (opcode .mainNso 0 0 0 0)

/-- The rest of an instruction that starts with `first`. -/
def decodeOpcode (first : Dword) : Scanner Dword Opcode :=
  match opcodeType first with
  | .storeStatic => do
    let second ← next
    let value ← getNextVmInt (nibble first 24)
    pure (.storeStatic (nibble first 24) (.ofValue (nibble first 20)) (regNibble first 16)
      (joinDwords (first &&& 0xFF) second) value)
  | .beginConditionalBlock => do
    let second ← next
    let value ← getNextVmInt (nibble first 24)
    pure (.beginConditional (nibble first 24) (.ofValue (nibble first 20)) (.ofValue (nibble first 16))
      (joinDwords (first &&& 0xFF) second) value)
  | .endConditionalBlock => pure (.endConditional (nibble first 24 = 1))
  | .controlLoop =>
    if nibble first 24 = 0 then do
      let numIters ← next
      pure (.controlLoop true (regNibble first 20) numIters)
    else pure (.controlLoop false (regNibble first 20) 0)
  | .loadRegisterStatic => do
    let high ← next
    let low ← next
    pure (.loadRegisterStatic (regNibble first 16) (joinDwords high low))
  | .loadRegisterMemory => do
    let second ← next
    pure (.loadRegisterMemory (nibble first 24) (.ofValue (nibble first 20)) (regNibble first 16)
      (nibble first 12 ≠ 0) (joinDwords (first &&& 0xFF) second))
  | .storeStaticToAddress => do
    let high ← next
    let low ← next
    pure (.storeStaticToAddress (nibble first 24) (regNibble first 16) (nibble first 12 ≠ 0)
      (nibble first 8 ≠ 0) (regNibble first 4) (joinDwords high low))
  | .performArithmeticStatic => do
    let value ← next
    pure (.performArithmeticStatic (nibble first 24) (regNibble first 16) (.ofValue (nibble first 12)) value)
  | .beginKeypressConditionalBlock => pure (.beginKeypressConditional (first &&& 0x0FFFFFFF))
  | .performArithmeticRegister =>
    if nibble first 8 ≠ 0 then do
      let value ← getNextVmInt (nibble first 24)
      pure (.performArithmeticRegister (nibble first 24) (.ofValue (nibble first 20)) (regNibble first 16)
        (regNibble first 12) 0 true value)
    else
      pure (.performArithmeticRegister (nibble first 24) (.ofValue (nibble first 20)) (regNibble first 16)
        (regNibble first 12) (regNibble first 4) false 0)
  | .storeRegisterToAddress => decodeStoreRegisterToAddress first
  | .beginRegisterConditionalBlock => decodeBeginRegisterConditional first
  | .saveRestoreRegister =>
    pure (.saveRestoreRegister (regNibble first 16) (regNibble first 8) (.ofValue (nibble first 4)))
  | .saveRestoreRegisterMask =>
    pure (.saveRestoreRegisterMask (.ofValue (nibble first 20)) fun i => first.getLsbD i)
  | .readWriteStaticRegister => pure (.readWriteStaticRegister (staticIndex first) (regNibble first 0))
  | .pauseProcess => pure .pauseProcess
  | .resumeProcess => pure .resumeProcess
  | .debugLog => decodeDebugLog first
  | .unrecognized _ => failure

/-- The types that begin a conditional block. -/
def beginsConditionalBlock : CheatVmOpcodeType → Bool
  | .beginConditionalBlock | .beginKeypressConditionalBlock | .beginRegisterConditionalBlock => true
  | _ => false

/-- One instruction off the front of the words. -/
def decode : Scanner Dword CheatVmOpcode := do
  let first ← next
  let opcode ← decodeOpcode first
  pure ⟨beginsConditionalBlock (opcodeType first), opcode⟩

/-! ### An instruction depends on its own words -/

open Lib.Scanner

theorem local_getNextVmInt (bitWidth : ℕ) : Local (getNextVmInt bitWidth) := by
  refine local_bind local_next fun first => ?_
  split
  · exact local_pure _
  · exact local_pure _
  · exact local_pure _
  · exact local_bind local_next fun _ => local_pure _
  · exact local_pure _

/-- A word is read, and the rest is known. -/
theorem local_next_pure {β : Type} (f : Dword → β) : Local (do let w ← next; pure (f w) : Scanner Dword β) :=
  local_bind local_next fun _ => local_pure _

theorem local_decodeStoreRegisterToAddress (first : Dword) : Local (decodeStoreRegisterToAddress first) := by
  unfold decodeStoreRegisterToAddress
  dsimp only
  split <;> first | exact local_pure _ | exact local_next_pure _

theorem local_decodeBeginRegisterConditional (first : Dword) : Local (decodeBeginRegisterConditional first) := by
  unfold decodeBeginRegisterConditional
  dsimp only
  split
  · exact local_bind (local_getNextVmInt _) fun _ => local_pure _
  all_goals first | exact local_pure _ | exact local_next_pure _

theorem local_decodeDebugLog (first : Dword) : Local (decodeDebugLog first) := by
  unfold decodeDebugLog
  dsimp only
  split <;> first | exact local_pure _ | exact local_next_pure _

theorem local_decodeOpcode (first : Dword) : Local (decodeOpcode first) := by
  unfold decodeOpcode
  cases opcodeType first with
  | storeStatic | beginConditionalBlock =>
    exact local_bind local_next fun _ => local_bind (local_getNextVmInt _) fun _ => local_pure _
  | loadRegisterStatic | storeStaticToAddress =>
    exact local_bind local_next fun _ => local_next_pure _
  | loadRegisterMemory | performArithmeticStatic => exact local_next_pure _
  | controlLoop =>
    dsimp only
    split
    · exact local_next_pure _
    · exact local_pure _
  | performArithmeticRegister =>
    dsimp only
    split
    · exact local_bind (local_getNextVmInt _) fun _ => local_pure _
    · exact local_pure _
  | storeRegisterToAddress => exact local_decodeStoreRegisterToAddress first
  | beginRegisterConditionalBlock => exact local_decodeBeginRegisterConditional first
  | debugLog => exact local_decodeDebugLog first
  | unrecognized type => exact local_failure
  | endConditionalBlock | beginKeypressConditionalBlock | saveRestoreRegister | saveRestoreRegisterMask
    | readWriteStaticRegister | pauseProcess | resumeProcess => exact local_pure _

theorem local_decode : Local decode :=
  local_bind local_next fun first => local_bind (local_decodeOpcode first) fun _ => local_pure _

/-- An instruction has at least one word. -/
theorem decode_length {words rest : List Dword} {opcode : CheatVmOpcode} (h : decode words = some (opcode, rest)) :
    rest.length < words.length :=
  length_lt_of_next_bind (fun first => local_bind (local_decodeOpcode first) fun _ => local_pure _) h

end Core
end Citron
