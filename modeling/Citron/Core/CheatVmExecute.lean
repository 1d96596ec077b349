/-
# Running a cheat program

`DmntCheatVm::Execute`. The calls of the callbacks go through a world of any type: reads look at
it, writes and the other calls change it, and the writes are also kept as a list. What a run has
visited, the place of each instruction and the condition depth there, is kept beside it.
-/
import Citron.Core.CheatVm

namespace Citron
namespace Core

variable {W : Type}

/-! ### What instructions work on -/

/-- `MemoryWriteUnsafe(address, &value, size)`. -/
structure MemoryWrite where
  address : U64
  value : U64
  size : ℕ
deriving DecidableEq, Repr

/-- The memory callbacks pass the low `size` bytes of a value. -/
structure Callbacks (W : Type) where
  memoryReadUnsafe : W → U64 → ℕ → U64
  memoryWriteUnsafe : W → MemoryWrite → W
  hidKeysDown : W → U64
  pauseProcess : W → W
  resumeProcess : W → W
  debugLog : W → BitVec 8 → U64 → W

/-- The bases of the extents. -/
structure CheatProcessMetadata where
  mainNsoBase : U64
  heapBase : U64
  aliasBase : U64
  aslrBase : U64

/-- What stays the same while a program runs. -/
structure Context (W : Type) where
  callbacks : Callbacks W
  metadata : CheatProcessMetadata
  kDown : U64

structure Machine (W : Type) where
  registers : RegIndex → U64
  savedValues : RegIndex → U64
  staticRegisters : Fin NumStaticRegisters → U64
  world : W
  writes : List MemoryWrite
  /-- The instructions executed so far: where each is, and the condition depth there. -/
  visited : List (ℕ × ℕ)

namespace Machine

def setRegister (m : Machine W) (r : RegIndex) (value : U64) : Machine W :=
  { m with registers := Function.update m.registers r value }

def setSaved (m : Machine W) (r : RegIndex) (value : U64) : Machine W :=
  { m with savedValues := Function.update m.savedValues r value }

def visit (m : Machine W) (ptr depth : ℕ) : Machine W := { m with visited := m.visited ++ [(ptr, depth)] }

@[simp] theorem registers_visit (m : Machine W) (ptr depth : ℕ) : (m.visit ptr depth).registers = m.registers := rfl

@[simp] theorem visited_visit (m : Machine W) (ptr depth : ℕ) :
    (m.visit ptr depth).visited = m.visited ++ [(ptr, depth)] := rfl

@[simp] theorem visited_setRegister (m : Machine W) (r : RegIndex) (value : U64) :
    (m.setRegister r value).visited = m.visited := rfl

@[simp] theorem registers_setRegister (m : Machine W) (r : RegIndex) (value : U64) :
    (m.setRegister r value).registers r = value := Function.update_self ..

theorem registers_setRegister_of_ne (m : Machine W) {r r' : RegIndex} (h : r' ≠ r) (value : U64) :
    (m.setRegister r value).registers r' = m.registers r' := Function.update_of_ne h ..

end Machine

def validWidth (bitWidth : ℕ) : Bool := bitWidth = 1 || bitWidth = 2 || bitWidth = 4 || bitWidth = 8

/-- `static_cast` to the type of the width; other widths leave the value. -/
def applyBitWidth (bitWidth : ℕ) (value : U64) : U64 :=
  match bitWidth with
  | 1 => (value.setWidth 8).setWidth 64
  | 2 => (value.setWidth 16).setWidth 64
  | 4 => (value.setWidth 32).setWidth 64
  | _ => value

/-- Also what the switches on the width of a register's value compute. -/
def getVmInt (value : U64) (bitWidth : ℕ) : U64 := if validWidth bitWidth then applyBitWidth bitWidth value else 0

def getCheatProcessAddress (metadata : CheatProcessMetadata) (memType : MemoryAccessType) (relAddress : U64) : U64 :=
  match memType with
  | .heap => metadata.heapBase + relAddress
  | .alias => metadata.aliasBase + relAddress
  | .aslr => metadata.aslrBase + relAddress
  | .mainNso | .other _ => metadata.mainNsoBase + relAddress

/-- A read into the low bytes of `data`. Only a valid width reads. -/
def readMemory (c : Context W) (m : Machine W) (bitWidth : ℕ) (address data : U64) : U64 :=
  if validWidth bitWidth then
    let kept := data ^^^ applyBitWidth bitWidth data
    kept ||| applyBitWidth bitWidth (c.callbacks.memoryReadUnsafe m.world address bitWidth)
  else data

/-- Only a valid width writes. -/
def writeMemory (c : Context W) (m : Machine W) (bitWidth : ℕ) (address value : U64) : Machine W :=
  if validWidth bitWidth then
    let write : MemoryWrite := ⟨address, applyBitWidth bitWidth value, bitWidth⟩
    { m with world := c.callbacks.memoryWriteUnsafe m.world write, writes := m.writes ++ [write] }
  else m

@[simp] theorem registers_writeMemory (c : Context W) (m : Machine W) (bitWidth : ℕ) (address value : U64) :
    (writeMemory c m bitWidth address value).registers = m.registers := by
  unfold writeMemory
  split <;> rfl

@[simp] theorem visited_writeMemory (c : Context W) (m : Machine W) (bitWidth : ℕ) (address value : U64) :
    (writeMemory c m bitWidth address value).visited = m.visited := by
  unfold writeMemory
  split <;> rfl

/-! ### Conditions -/

def compare (condType : ConditionalComparisonType) (src cond : U64) : Bool :=
  match condType with
  | .gt => cond < src
  | .ge => cond ≤ src
  | .lt => src < cond
  | .le => src ≤ cond
  | .eq => src = cond
  | .ne => src ≠ cond
  | .other _ => false

/-- The address that a comparison with memory reads. -/
def compareAddress (c : Context W) (m : Machine W) (compType : CompareRegisterValueType) (memType : MemoryAccessType)
    (addrRegIndex ofsRegIndex : RegIndex) (relAddress : U64) : U64 :=
  match compType with
  | .memoryRelAddr => getCheatProcessAddress c.metadata memType relAddress
  | .memoryOfsReg => getCheatProcessAddress c.metadata memType (m.registers ofsRegIndex)
  | .registerRelAddr => m.registers addrRegIndex + relAddress
  | .registerOfsReg => m.registers addrRegIndex + m.registers ofsRegIndex
  | _ => 0

/-- `cond_met` of the three instructions that begin a block. -/
def conditionMet (c : Context W) (m : Machine W) : Opcode → Bool
  | .beginConditional bitWidth memType condType relAddress value =>
    compare condType (readMemory c m bitWidth (getCheatProcessAddress c.metadata memType relAddress) 0)
      (getVmInt value bitWidth)
  | .beginKeypressConditional keyMask => keyMask.setWidth 64 &&& c.kDown == keyMask.setWidth 64
  | .beginRegisterConditional bitWidth condType valRegIndex compType memType addrRegIndex otherRegIndex ofsRegIndex
      relAddress value =>
    let src := getVmInt (m.registers valRegIndex) bitWidth
    compare condType src <| match compType with
      | .staticValue => getVmInt value bitWidth
      | .otherRegister => getVmInt (m.registers otherRegIndex) bitWidth
      | compType =>
        readMemory c m bitWidth (compareAddress c m compType memType addrRegIndex ofsRegIndex relAddress) 0
  | _ => true

/-! ### Instructions without control -/

/-- The count of a shift by 64 or more is taken modulo 64: the source does not say what it gives. -/
def staticArithmetic (mathType : RegisterArithmeticType) (value operand : U64) : U64 :=
  match mathType with
  | .addition => value + operand
  | .subtraction => value - operand
  | .multiplication => value * operand
  | .leftShift => value <<< (operand.toNat % 64)
  | .rightShift => value >>> (operand.toNat % 64)
  | _ => value

def registerArithmetic (mathType : RegisterArithmeticType) (operand1 operand2 : U64) : U64 :=
  match mathType with
  | .logicalAnd => operand1 &&& operand2
  | .logicalOr => operand1 ||| operand2
  | .logicalNot => ~~~operand1
  | .logicalXor => operand1 ^^^ operand2
  | .other _ => 0
  | mathType => staticArithmetic mathType operand1 operand2

/-- `dst_address` of `StoreRegisterToAddress`. -/
def storeAddress (c : Context W) (m : Machine W) (ofsType : StoreRegisterOffsetType) (memType : MemoryAccessType)
    (addrRegIndex ofsRegIndex : RegIndex) (relAddress : U64) : U64 :=
  match ofsType with
  | .none => m.registers addrRegIndex
  | .reg => m.registers addrRegIndex + m.registers ofsRegIndex
  | .imm => m.registers addrRegIndex + relAddress
  | .memReg => getCheatProcessAddress c.metadata memType (m.registers addrRegIndex)
  | .memImm => getCheatProcessAddress c.metadata memType relAddress
  | .memImmReg => getCheatProcessAddress c.metadata memType (m.registers addrRegIndex + relAddress)

/-- A value that is logged: a register's, or a value of memory. -/
def logValue (c : Context W) (m : Machine W) (bitWidth : ℕ) (valType : DebugLogValueType) (memType : MemoryAccessType)
    (addrRegIndex valRegIndex ofsRegIndex : RegIndex) (relAddress : U64) : U64 :=
  let read address := readMemory c m bitWidth address 0
  match valType with
  | .registerValue => getVmInt (m.registers valRegIndex) bitWidth
  | .memoryRelAddr => read (getCheatProcessAddress c.metadata memType relAddress)
  | .memoryOfsReg => read (getCheatProcessAddress c.metadata memType (m.registers ofsRegIndex))
  | .registerRelAddr => read (m.registers addrRegIndex + relAddress)
  | .registerOfsReg => read (m.registers addrRegIndex + m.registers ofsRegIndex)
  | .other _ => read 0

/-- What an instruction that is neither a condition, an end nor a loop does. -/
def perform (c : Context W) (m : Machine W) : Opcode → Machine W
  | .storeStatic bitWidth memType offsetRegister relAddress value =>
    let address := getCheatProcessAddress c.metadata memType (relAddress + m.registers offsetRegister)
    writeMemory c m bitWidth address (getVmInt value bitWidth)
  | .loadRegisterStatic regIndex value => m.setRegister regIndex value
  | .loadRegisterMemory bitWidth memType regIndex loadFromReg relAddress =>
    let address :=
      if loadFromReg then m.registers regIndex + relAddress else getCheatProcessAddress c.metadata memType relAddress
    m.setRegister regIndex (readMemory c m bitWidth address (m.registers regIndex))
  | .storeStaticToAddress bitWidth regIndex incrementReg addOffsetReg offsetRegIndex value =>
    let address := if addOffsetReg then m.registers regIndex + m.registers offsetRegIndex else m.registers regIndex
    let m := writeMemory c m bitWidth address value
    if incrementReg then m.setRegister regIndex (m.registers regIndex + BitVec.ofNat 64 bitWidth) else m
  | .performArithmeticStatic bitWidth regIndex mathType value =>
    m.setRegister regIndex
      (applyBitWidth bitWidth (staticArithmetic mathType (m.registers regIndex) (value.setWidth 64)))
  | .performArithmeticRegister bitWidth mathType dstRegIndex srcReg1Index srcReg2Index hasImmediate value =>
    let operand2 := if hasImmediate then getVmInt value bitWidth else m.registers srcReg2Index
    m.setRegister dstRegIndex (applyBitWidth bitWidth (registerArithmetic mathType (m.registers srcReg1Index) operand2))
  | .storeRegisterToAddress bitWidth strRegIndex addrRegIndex incrementReg ofsType memType ofsRegIndex relAddress =>
    let address := storeAddress c m ofsType memType addrRegIndex ofsRegIndex relAddress
    let m := writeMemory c m bitWidth address (m.registers strRegIndex)
    if incrementReg then m.setRegister addrRegIndex (m.registers addrRegIndex + BitVec.ofNat 64 bitWidth) else m
  | .saveRestoreRegister dstIndex srcIndex opType =>
    match opType with
    | .clearRegs => m.setRegister dstIndex 0
    | .clearSaved => m.setSaved dstIndex 0
    | .save => m.setSaved dstIndex (m.registers srcIndex)
    | .restore | .other _ => m.setRegister dstIndex (m.savedValues srcIndex)
  | .saveRestoreRegisterMask opType shouldOperate =>
    match opType with
    | .clearSaved => { m with savedValues := fun i => if shouldOperate i then 0 else m.savedValues i }
    | .clearRegs => { m with registers := fun i => if shouldOperate i then 0 else m.registers i }
    | .save => { m with savedValues := fun i => if shouldOperate i then m.registers i else m.savedValues i }
    | .restore | .other _ =>
      { m with registers := fun i => if shouldOperate i then m.savedValues i else m.registers i }
  | .readWriteStaticRegister staticIdx idx =>
    if staticIdx.val < NumReadableStaticRegisters then m.setRegister idx (m.staticRegisters staticIdx)
    else { m with staticRegisters := Function.update m.staticRegisters staticIdx (m.registers idx) }
  | .pauseProcess => { m with world := c.callbacks.pauseProcess m.world }
  | .resumeProcess => { m with world := c.callbacks.resumeProcess m.world }
  | .debugLog bitWidth logId valType memType addrRegIndex valRegIndex ofsRegIndex relAddress =>
    let value := logValue c m bitWidth valType memType addrRegIndex valRegIndex ofsRegIndex relAddress
    { m with world := c.callbacks.debugLog m.world (BitVec.ofNat 8 logId) value }
  | .beginConditional .. | .endConditional .. | .controlLoop .. | .beginKeypressConditional ..
    | .beginRegisterConditional .. => m

/-! ### The virtual machine -/

structure DmntCheatVm (W : Type) where
  program : List Dword
  instructionPtr : ℕ
  conditionDepth : ℕ
  decodeSuccess : Bool
  loopTops : RegIndex → ℕ
  machine : Machine W

namespace DmntCheatVm

/-- After a failure nothing is decoded, and the pointer is not looked at again. -/
def decodeNextOpcode (s : DmntCheatVm W) : DmntCheatVm W × Option CheatVmOpcode :=
  if s.decodeSuccess then
    match decode (s.program.drop s.instructionPtr) with
    | some (opcode, rest) => ({ s with instructionPtr := s.program.length - rest.length }, some opcode)
    | none => ({ s with decodeSuccess := false }, none)
  else (s, none)

/-- A decoded instruction moves the pointer on, and changes nothing else. -/
theorem decodeNextOpcode_eq_some {s s' : DmntCheatVm W} {opcode : CheatVmOpcode}
    (h : s.decodeNextOpcode = (s', some opcode)) :
    s' = { s with instructionPtr := s'.instructionPtr } ∧
      s.program.length - s'.instructionPtr < s.program.length - s.instructionPtr := by
  unfold decodeNextOpcode at h
  split at h
  · split at h
    · next rest hd =>
      cases h
      have hlt := decode_length hd
      rw [List.length_drop] at hlt
      refine ⟨rfl, ?_⟩
      change s.program.length - (s.program.length - rest.length) < s.program.length - s.instructionPtr
      omega
    · cases h
  · cases h

/-- The loop of `SkipConditionalBlock`. -/
def skipTo (isIf : Bool) (desiredDepth : ℕ) (s : DmntCheatVm W) : DmntCheatVm W :=
  if desiredDepth < s.conditionDepth then
    match h : s.decodeNextOpcode with
    | (s', none) => s'
    | (s', some skipOpcode) =>
      have : s'.program.length - s'.instructionPtr < s.program.length - s.instructionPtr := by
        obtain ⟨h1, h2⟩ := decodeNextOpcode_eq_some h
        rw [h1]
        exact h2
      if skipOpcode.beginConditionalBlock then
        skipTo isIf desiredDepth { s' with conditionDepth := s'.conditionDepth + 1 }
      else match skipOpcode.opcode with
        | .endConditional false => skipTo isIf desiredDepth { s' with conditionDepth := s'.conditionDepth - 1 }
        | .endConditional true =>
          if isIf ∧ s'.conditionDepth - 1 = desiredDepth then s' else skipTo isIf desiredDepth s'
        | _ => skipTo isIf desiredDepth s'
  else s
termination_by s.program.length - s.instructionPtr

/-- Outside every block the source declares the call unreachable. -/
def skipConditionalBlock (isIf : Bool) (s : DmntCheatVm W) : DmntCheatVm W :=
  if 0 < s.conditionDepth then s.skipTo isIf (s.conditionDepth - 1) else s

/-- The body of the loop of `Execute`, for the instruction that was decoded at `ptr`. -/
def executeOpcode (c : Context W) (ptr : ℕ) (opcode : CheatVmOpcode) (s : DmntCheatVm W) : DmntCheatVm W :=
  let s := { s with machine := s.machine.visit ptr s.conditionDepth }
  let s := if opcode.beginConditionalBlock then { s with conditionDepth := s.conditionDepth + 1 } else s
  match opcode.opcode with
  | .endConditional isElse =>
    if isElse then s.skipConditionalBlock false else { s with conditionDepth := s.conditionDepth - 1 }
  | .controlLoop startLoop regIndex numIters =>
    if startLoop then
      { s with
        machine := s.machine.setRegister regIndex (numIters.setWidth 64)
        loopTops := Function.update s.loopTops regIndex s.instructionPtr }
    else
      let m := s.machine.setRegister regIndex (s.machine.registers regIndex - 1)
      if m.registers regIndex = 0#64 then { s with machine := m }
      else { s with machine := m, instructionPtr := s.loopTops regIndex }
  | opcode =>
    -- an instruction without a condition is always met, and a condition that is met does nothing
    if conditionMet c s.machine opcode then { s with machine := perform c s.machine opcode }
    else s.skipConditionalBlock true

/-- The loop of `Execute`, for fewer than `fuel` instructions. -/
def executeLoop (c : Context W) : ℕ → DmntCheatVm W → Option (DmntCheatVm W)
  | 0, _ => none
  | fuel + 1, s =>
    match s.decodeNextOpcode with
    | (s', none) => some s'
    | (s', some opcode) => executeLoop c fuel (s'.executeOpcode c s.instructionPtr opcode)

/-- `ResetState`. The static registers stay, and the lists of the run start empty. -/
def resetState (s : DmntCheatVm W) : DmntCheatVm W :=
  { s with
    machine := { s.machine with
      registers := fun _ => 0
      savedValues := fun _ => 0
      writes := []
      visited := [] }
    loopTops := fun _ => 0
    instructionPtr := 0
    conditionDepth := 0
    decodeSuccess := true }

def execute (callbacks : Callbacks W) (metadata : CheatProcessMetadata) (fuel : ℕ) (s : DmntCheatVm W) :
    Option (DmntCheatVm W) :=
  executeLoop ⟨callbacks, metadata, callbacks.hidKeysDown s.machine.world⟩ fuel s.resetState

end DmntCheatVm

end Core
end Citron
