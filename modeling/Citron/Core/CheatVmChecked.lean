/-
# The cheat VM with every access checked

`DmntCheatVm::DecodeNextOpcode`, `SkipConditionalBlock` and `Execute` over the arrays of the VM. The indices of an
instruction are the numbers that its words give; an access outside an array, a shift by 64 or more and the call that the
source declares unreachable are faults.
-/
import Citron.Core.CheatVmExecute
import Citron.Lib.Checked

namespace Citron
namespace Core
namespace CheckedVm

open Lib Checked

variable {W : Type}

inductive Fault
  | outside (index : ℕ)
  | shift (amount : U64)
  | unreachable
deriving DecidableEq

abbrev MaximumProgramOpcodeCount : ℕ := 0x400

/-- What `LoadProgram` leaves. -/
structure Program where
  words : Vector Dword MaximumProgramOpcodeCount
  numOpcodes : ℕ
  numOpcodes_le : numOpcodes ≤ MaximumProgramOpcodeCount

structure DmntCheatVm (W : Type) where
  program : Program
  instructionPtr : ℕ
  conditionDepth : U64
  decodeSuccess : Bool
  registers : Vector U64 NumRegisters
  savedValues : Vector U64 NumRegisters
  staticRegisters : Vector U64 NumStaticRegisters
  loopTops : Vector ℕ NumRegisters
  world : W

/-- A decoded instruction; what it does not use is left out. -/
inductive Opcode
  | storeStatic (bitWidth : ℕ) (memType : MemoryAccessType) (offsetRegister : ℕ) (relAddress value : U64)
  | beginConditional (bitWidth : ℕ) (memType : MemoryAccessType) (condType : ConditionalComparisonType)
      (relAddress value : U64)
  | endConditional (isElse : Bool)
  | controlLoop (startLoop : Bool) (regIndex : ℕ) (numIters : Dword)
  | loadRegisterStatic (regIndex : ℕ) (value : U64)
  | loadRegisterMemory (bitWidth : ℕ) (memType : MemoryAccessType) (regIndex : ℕ) (loadFromReg : Bool)
      (relAddress : U64)
  | storeStaticToAddress (bitWidth : ℕ) (regIndex : ℕ) (incrementReg addOffsetReg : Bool) (offsetRegIndex : ℕ)
      (value : U64)
  | performArithmeticStatic (bitWidth : ℕ) (regIndex : ℕ) (mathType : RegisterArithmeticType) (value : Dword)
  | beginKeypressConditional (keyMask : Dword)
  | performArithmeticRegister (bitWidth : ℕ) (mathType : RegisterArithmeticType)
      (dstRegIndex srcReg1Index srcReg2Index : ℕ) (hasImmediate : Bool) (value : U64)
  | storeRegisterToAddress (bitWidth : ℕ) (strRegIndex addrRegIndex : ℕ) (incrementReg : Bool)
      (ofsType : StoreRegisterOffsetType) (memType : MemoryAccessType) (ofsRegIndex : ℕ) (relAddress : U64)
  | beginRegisterConditional (bitWidth : ℕ) (condType : ConditionalComparisonType) (valRegIndex : ℕ)
      (compType : CompareRegisterValueType) (memType : MemoryAccessType) (addrRegIndex otherRegIndex ofsRegIndex : ℕ)
      (relAddress value : U64)
  | saveRestoreRegister (dstIndex srcIndex : ℕ) (opType : SaveRestoreRegisterOpType)
  | saveRestoreRegisterMask (opType : SaveRestoreRegisterOpType) (shouldOperate : ℕ → Bool)
  | readWriteStaticRegister (staticIdx idx : ℕ)
  | pauseProcess
  | resumeProcess
  | debugLog (bitWidth : ℕ) (logId : ℕ) (valType : DebugLogValueType) (memType : MemoryAccessType)
      (addrRegIndex valRegIndex ofsRegIndex : ℕ) (relAddress : U64)

def Opcode.beginsConditionalBlock : Opcode → Bool
  | beginConditional .. | beginKeypressConditional .. | beginRegisterConditional .. => true
  | _ => false

/-! ### The decoder -/

/-- `instruction_ptr`, and `valid` of the call. -/
structure Cursor where
  instructionPtr : ℕ
  valid : Bool

abbrev Decoder (α : Type) : Type := Checked Fault Cursor α

def getNextDword (p : Program) : Decoder Dword := do
  let cursor ← get
  if p.numOpcodes ≤ cursor.instructionPtr then
    set { cursor with valid := false }
    return 0
  else
    set { cursor with instructionPtr := cursor.instructionPtr + 1 }
    readAt (.outside cursor.instructionPtr) (fun _ => p.words) cursor.instructionPtr

def getNextVmInt (p : Program) (bitWidth : ℕ) : Decoder U64 := do
  let first ← getNextDword p
  match bitWidth with
  | 1 => return (first.setWidth 8).setWidth 64
  | 2 => return (first.setWidth 16).setWidth 64
  | 4 => return first.setWidth 64
  | 8 => return joinDwords first (← getNextDword p)
  | _ => return 0

/-- `(word >> 4) & 0xFF` -/
def staticNibbles (word : Dword) : ℕ := (word.extractLsb' 4 8).toNat

def decodeStoreRegisterToAddress (p : Program) (first : Dword) : Decoder Opcode :=
  let opcode := Opcode.storeRegisterToAddress (nibble first 24) (nibble first 20) (nibble first 16) (nibble first 12 ≠ 0)
  let ofsType := StoreRegisterOffsetType.ofValue (nibble first 8)
  let ofsReg := nibble first 4
  let memType := MemoryAccessType.ofValue (nibble first 4)
  match ofsType with
  | .none | .reg => return opcode ofsType .mainNso ofsReg 0
  | .imm => return opcode ofsType .mainNso ofsReg (joinDwords (first &&& 0xF) (← getNextDword p))
  | .memReg => return opcode ofsType memType ofsReg 0
  | .memImm | .memImmReg => return opcode ofsType memType ofsReg (joinDwords (first &&& 0xF) (← getNextDword p))

def decodeBeginRegisterConditional (p : Program) (first : Dword) : Decoder Opcode :=
  let bitWidth := nibble first 20
  let compType := CompareRegisterValueType.ofValue (nibble first 8)
  let opcode := Opcode.beginRegisterConditional bitWidth (.ofValue (nibble first 16)) (nibble first 12) compType
  let memType := MemoryAccessType.ofValue (nibble first 4)
  match compType with
  | .staticValue => return opcode .mainNso 0 0 0 0 (← getNextVmInt p bitWidth)
  | .otherRegister => return opcode .mainNso 0 (nibble first 4) 0 0 0
  | .memoryRelAddr => return opcode memType 0 0 0 (joinDwords (first &&& 0xF) (← getNextDword p)) 0
  | .memoryOfsReg => return opcode memType 0 0 (nibble first 0) 0 0
  | .registerRelAddr => return opcode .mainNso (nibble first 4) 0 0 (joinDwords (first &&& 0xF) (← getNextDword p)) 0
  | .registerOfsReg => return opcode .mainNso (nibble first 4) 0 (nibble first 0) 0 0
  | .other _ => return opcode .mainNso 0 0 0 0 0

def decodeDebugLog (p : Program) (first : Dword) : Decoder Opcode :=
  let valType := DebugLogValueType.ofValue (nibble first 8)
  let opcode := Opcode.debugLog (nibble first 16) (nibble first 12) valType
  let memType := MemoryAccessType.ofValue (nibble first 4)
  match valType with
  | .registerValue => return opcode .mainNso 0 (nibble first 4) 0 0
  | .memoryRelAddr => return opcode memType 0 0 0 (joinDwords (first &&& 0xF) (← getNextDword p))
  | .memoryOfsReg => return opcode memType 0 0 (nibble first 0) 0
  | .registerRelAddr => return opcode .mainNso (nibble first 4) 0 0 (joinDwords (first &&& 0xF) (← getNextDword p))
  | .registerOfsReg => return opcode .mainNso (nibble first 4) 0 (nibble first 0) 0
  | .other _ => return opcode .mainNso 0 0 0 0

/-- The instruction that starts with `first`; none for a type that is not recognized. Words after the end are read as 0,
and make the decoding invalid. -/
def decodeOpcode (p : Program) (first : Dword) : Decoder (Option Opcode) :=
  match opcodeType first with
  | .storeStatic => do
    let second ← getNextDword p
    let value ← getNextVmInt p (nibble first 24)
    return some (.storeStatic (nibble first 24) (.ofValue (nibble first 20)) (nibble first 16)
      (joinDwords (first &&& 0xFF) second) value)
  | .beginConditionalBlock => do
    let second ← getNextDword p
    let value ← getNextVmInt p (nibble first 24)
    return some (.beginConditional (nibble first 24) (.ofValue (nibble first 20)) (.ofValue (nibble first 16))
      (joinDwords (first &&& 0xFF) second) value)
  | .endConditionalBlock => return some (.endConditional (nibble first 24 = 1))
  | .controlLoop =>
    if nibble first 24 = 0 then do
      let numIters ← getNextDword p
      return some (.controlLoop true (nibble first 20) numIters)
    else return some (.controlLoop false (nibble first 20) 0)
  | .loadRegisterStatic => do
    let high ← getNextDword p
    let low ← getNextDword p
    return some (.loadRegisterStatic (nibble first 16) (joinDwords high low))
  | .loadRegisterMemory => do
    let second ← getNextDword p
    return some (.loadRegisterMemory (nibble first 24) (.ofValue (nibble first 20)) (nibble first 16)
      (nibble first 12 ≠ 0) (joinDwords (first &&& 0xFF) second))
  | .storeStaticToAddress => do
    let high ← getNextDword p
    let low ← getNextDword p
    return some (.storeStaticToAddress (nibble first 24) (nibble first 16) (nibble first 12 ≠ 0) (nibble first 8 ≠ 0)
      (nibble first 4) (joinDwords high low))
  | .performArithmeticStatic => do
    let value ← getNextDword p
    return some (.performArithmeticStatic (nibble first 24) (nibble first 16) (.ofValue (nibble first 12)) value)
  | .beginKeypressConditionalBlock => return some (.beginKeypressConditional (first &&& 0x0FFFFFFF))
  | .performArithmeticRegister =>
    if nibble first 8 ≠ 0 then do
      let value ← getNextVmInt p (nibble first 24)
      return some (.performArithmeticRegister (nibble first 24) (.ofValue (nibble first 20)) (nibble first 16)
        (nibble first 12) 0 true value)
    else
      return some (.performArithmeticRegister (nibble first 24) (.ofValue (nibble first 20)) (nibble first 16)
        (nibble first 12) (nibble first 4) false 0)
  | .storeRegisterToAddress => some <$> decodeStoreRegisterToAddress p first
  | .beginRegisterConditionalBlock => some <$> decodeBeginRegisterConditional p first
  | .saveRestoreRegister =>
    return some (.saveRestoreRegister (nibble first 16) (nibble first 8) (.ofValue (nibble first 4)))
  | .saveRestoreRegisterMask =>
    return some (.saveRestoreRegisterMask (.ofValue (nibble first 20)) fun i => first.getLsbD i)
  | .readWriteStaticRegister => return some (.readWriteStaticRegister (staticNibbles first) (nibble first 0))
  | .pauseProcess => return some .pauseProcess
  | .resumeProcess => return some .resumeProcess
  | .debugLog => some <$> decodeDebugLog p first
  | .unrecognized _ => return none

/-- The instruction, if its decoding is valid. -/
def decode (p : Program) : Decoder (Option Opcode) := do
  let first ← getNextDword p
  if (← get).valid then
    let opcode ← decodeOpcode p first
    return if (← get).valid then opcode else none
  else return none

end CheckedVm

/-! ## Execution of the checked cheat VM

A decoded instruction has indices of four bits, or of eight for the static registers, and its words are before the end of
the program. So the pointer moves on, and the loop of `SkipConditionalBlock` ends.
-/

namespace CheckedVm

open Lib Checked

variable {W : Type} {p : Program} {α β : Type}

/-! ### What the decoder gives -/

/-- The decoder does not fault, does not move back, and gives a value with the property. -/
def Gives (x : Decoder α) (P : α → Prop) : Prop :=
  ∀ c, Ends x c (fun a c' => c.instructionPtr ≤ c'.instructionPtr ∧ P a) fun _ => False

theorem Gives.pure {P : α → Prop} {a : α} (h : P a) : Gives (pure a) P := fun _ => .pure ⟨le_rfl, h⟩

theorem Gives.bind {x : Decoder α} {f : α → Decoder β} {P : α → Prop} {Q : β → Prop} (hx : Gives x P)
    (hf : ∀ a, P a → Gives (f a) Q) : Gives (x >>= f) Q := fun c =>
  .bind (hx c) fun a c' ⟨hle, ha⟩ => (hf a ha c').mono (fun _ _ ⟨hle', hQ⟩ => ⟨hle.trans hle', hQ⟩) fun _ h => h

theorem Gives.some {x : Decoder α} {P : α → Prop} {Q : Option α → Prop} (hx : Gives x P)
    (hPQ : ∀ a, P a → Q (some a)) : Gives (Option.some <$> x) Q := hx.bind fun _ ha => .pure (hPQ _ ha)

/-- A word is read before the end, or the cursor becomes invalid. -/
theorem getNextDword_ends (c : Cursor) : Ends (getNextDword p) c
    (fun _ c' => (p.numOpcodes ≤ c.instructionPtr ∧ c' = { c with valid := false }) ∨
      c.instructionPtr < p.numOpcodes ∧ c' = { c with instructionPtr := c.instructionPtr + 1 }) fun _ => False := by
  refine .bind (.get (R := fun a c' => a = c ∧ c' = c) ⟨rfl, rfl⟩) ?_
  rintro _ _ ⟨rfl, rfl⟩
  split
  · next hend => exact .bind (.set (R := fun _ c' => c' = _) rfl) fun _ _ h => .pure (.inl ⟨hend, h⟩)
  · next hbefore =>
    refine .bind (.set (R := fun _ c' => c' = _) rfl) fun _ c' hc' => ?_
    have hindex := p.numOpcodes_le
    unfold Ends
    rw [readAt_eq _ _ (by omega)]
    exact .inr ⟨by omega, hc'⟩

theorem getNextDword_gives : Gives (getNextDword p) fun _ => True := fun c =>
  (getNextDword_ends c).mono (fun _ c' h => ⟨by rcases h with ⟨-, rfl⟩ | ⟨-, rfl⟩ <;> simp, trivial⟩) fun _ h => h

theorem getNextVmInt_gives (bitWidth : ℕ) : Gives (getNextVmInt p bitWidth) fun _ => True := by
  refine getNextDword_gives.bind fun first _ => ?_
  split
  · exact .pure trivial
  · exact .pure trivial
  · exact .pure trivial
  · exact getNextDword_gives.bind fun _ _ => .pure trivial
  · exact .pure trivial

/-- The indices of an instruction are in the arrays. -/
def Opcode.Bounded : Opcode → Prop
  | storeStatic _ _ offsetRegister _ _ => offsetRegister < NumRegisters
  | controlLoop _ regIndex _ => regIndex < NumRegisters
  | loadRegisterStatic regIndex _ => regIndex < NumRegisters
  | loadRegisterMemory _ _ regIndex _ _ => regIndex < NumRegisters
  | storeStaticToAddress _ regIndex _ _ offsetRegIndex _ => regIndex < NumRegisters ∧ offsetRegIndex < NumRegisters
  | performArithmeticStatic _ regIndex _ _ => regIndex < NumRegisters
  | performArithmeticRegister _ _ dstRegIndex srcReg1Index srcReg2Index _ _ =>
    dstRegIndex < NumRegisters ∧ srcReg1Index < NumRegisters ∧ srcReg2Index < NumRegisters
  | storeRegisterToAddress _ strRegIndex addrRegIndex _ _ _ ofsRegIndex _ =>
    strRegIndex < NumRegisters ∧ addrRegIndex < NumRegisters ∧ ofsRegIndex < NumRegisters
  | beginRegisterConditional _ _ valRegIndex _ _ addrRegIndex otherRegIndex ofsRegIndex _ _ =>
    valRegIndex < NumRegisters ∧ addrRegIndex < NumRegisters ∧ otherRegIndex < NumRegisters ∧ ofsRegIndex < NumRegisters
  | saveRestoreRegister dstIndex srcIndex _ => dstIndex < NumRegisters ∧ srcIndex < NumRegisters
  | readWriteStaticRegister staticIdx idx => staticIdx < NumStaticRegisters ∧ idx < NumRegisters
  | debugLog _ _ _ _ addrRegIndex valRegIndex ofsRegIndex _ =>
    addrRegIndex < NumRegisters ∧ valRegIndex < NumRegisters ∧ ofsRegIndex < NumRegisters
  | beginConditional .. | endConditional .. | beginKeypressConditional .. | saveRestoreRegisterMask .. | pauseProcess
    | resumeProcess => True

theorem decodeStoreRegisterToAddress_gives (first : Dword) : Gives (decodeStoreRegisterToAddress p first) Opcode.Bounded := by
  have hbound : nibble first 20 < 16 ∧ nibble first 16 < 16 ∧ nibble first 4 < 16 :=
    ⟨nibble_lt first 20, nibble_lt first 16, nibble_lt first 4⟩
  unfold decodeStoreRegisterToAddress
  dsimp only
  split <;> first | exact .pure hbound | exact getNextDword_gives.bind fun _ _ => .pure hbound

theorem decodeBeginRegisterConditional_gives (first : Dword) :
    Gives (decodeBeginRegisterConditional p first) Opcode.Bounded := by
  have h12 := nibble_lt first 12
  have h4 := nibble_lt first 4
  have h0 := nibble_lt first 0
  have hzero : 0 < NumRegisters := by decide
  unfold decodeBeginRegisterConditional
  dsimp only
  split
  · exact (getNextVmInt_gives _).bind fun _ _ => .pure ⟨h12, hzero, hzero, hzero⟩
  · exact .pure ⟨h12, hzero, h4, hzero⟩
  · exact getNextDword_gives.bind fun _ _ => .pure ⟨h12, hzero, hzero, hzero⟩
  · exact .pure ⟨h12, hzero, hzero, h0⟩
  · exact getNextDword_gives.bind fun _ _ => .pure ⟨h12, h4, hzero, hzero⟩
  · exact .pure ⟨h12, h4, hzero, h0⟩
  · exact .pure ⟨h12, hzero, hzero, hzero⟩

theorem decodeDebugLog_gives (first : Dword) : Gives (decodeDebugLog p first) Opcode.Bounded := by
  have h4 := nibble_lt first 4
  have h0 := nibble_lt first 0
  have hzero : 0 < NumRegisters := by decide
  unfold decodeDebugLog
  dsimp only
  split
  · exact .pure ⟨hzero, h4, hzero⟩
  · exact getNextDword_gives.bind fun _ _ => .pure ⟨hzero, hzero, hzero⟩
  · exact .pure ⟨hzero, hzero, h0⟩
  · exact getNextDword_gives.bind fun _ _ => .pure ⟨h4, hzero, hzero⟩
  · exact .pure ⟨h4, hzero, h0⟩
  · exact .pure ⟨hzero, hzero, hzero⟩

/-- Whatever the words are, the indices of the instruction are in the arrays. -/
theorem decodeOpcode_gives (first : Dword) :
    Gives (decodeOpcode p first) fun o => ∀ opcode, o = some opcode → opcode.Bounded := by
  have h20 := nibble_lt first 20
  have h16 := nibble_lt first 16
  have h12 := nibble_lt first 12
  have h8 := nibble_lt first 8
  have h4 := nibble_lt first 4
  have h0 := nibble_lt first 0
  have hzero : 0 < NumRegisters := by decide
  unfold decodeOpcode
  cases opcodeType first with
  | storeStatic =>
    refine getNextDword_gives.bind fun _ _ => (getNextVmInt_gives _).bind fun _ _ => .pure ?_
    rintro _ ⟨⟩
    exact h16
  | beginConditionalBlock =>
    refine getNextDword_gives.bind fun _ _ => (getNextVmInt_gives _).bind fun _ _ => .pure ?_
    rintro _ ⟨⟩
    trivial
  | endConditionalBlock | beginKeypressConditionalBlock | saveRestoreRegisterMask | pauseProcess | resumeProcess =>
    refine .pure ?_
    rintro _ ⟨⟩
    trivial
  | controlLoop =>
    dsimp only
    split
    · refine getNextDword_gives.bind fun _ _ => .pure ?_
      rintro _ ⟨⟩
      exact h20
    · refine .pure ?_
      rintro _ ⟨⟩
      exact h20
  | loadRegisterStatic =>
    refine getNextDword_gives.bind fun _ _ => getNextDword_gives.bind fun _ _ => .pure ?_
    rintro _ ⟨⟩
    exact h16
  | loadRegisterMemory | performArithmeticStatic =>
    refine getNextDword_gives.bind fun _ _ => .pure ?_
    rintro _ ⟨⟩
    exact h16
  | storeStaticToAddress =>
    refine getNextDword_gives.bind fun _ _ => getNextDword_gives.bind fun _ _ => .pure ?_
    rintro _ ⟨⟩
    exact ⟨h16, h4⟩
  | performArithmeticRegister =>
    dsimp only
    split
    · refine (getNextVmInt_gives _).bind fun _ _ => .pure ?_
      rintro _ ⟨⟩
      exact ⟨h16, h12, hzero⟩
    · refine .pure ?_
      rintro _ ⟨⟩
      exact ⟨h16, h12, h4⟩
  | storeRegisterToAddress => exact (decodeStoreRegisterToAddress_gives first).some fun _ h _ ho => Option.some.inj ho ▸ h
  | beginRegisterConditionalBlock =>
    exact (decodeBeginRegisterConditional_gives first).some fun _ h _ ho => Option.some.inj ho ▸ h
  | saveRestoreRegister =>
    refine .pure ?_
    rintro _ ⟨⟩
    exact ⟨h16, h8⟩
  | readWriteStaticRegister =>
    refine .pure ?_
    rintro _ ⟨⟩
    exact ⟨(first.extractLsb' 4 8).isLt, h0⟩
  | debugLog => exact (decodeDebugLog_gives first).some fun _ h _ ho => Option.some.inj ho ▸ h
  | unrecognized type => exact .pure nofun

/-- A decoded instruction starts before the end of the program, and the cursor is behind its first word. -/
theorem decode_ends (c : Cursor) : Ends (decode p) c
    (fun o c' => ∀ opcode, o = some opcode →
      opcode.Bounded ∧ c.instructionPtr < p.numOpcodes ∧ c.instructionPtr < c'.instructionPtr) fun _ => False := by
  refine .bind (getNextDword_ends c) fun first c₁ hfirst => ?_
  refine .bind (.get (R := fun a c' => a = c₁ ∧ c' = c₁) ⟨rfl, rfl⟩) ?_
  rintro _ _ ⟨rfl, rfl⟩
  split
  · next hvalid =>
    obtain ⟨hbefore, hc₁⟩ : c.instructionPtr < p.numOpcodes ∧ _ = _ := by
      rcases hfirst with ⟨-, rfl⟩ | h
      · cases hvalid
      · exact h
    refine .bind (decodeOpcode_gives first _) fun o c₂ ⟨hle, hbounded⟩ => ?_
    refine .bind (.get (R := fun a c' => a = c₂ ∧ c' = c₂) ⟨rfl, rfl⟩) ?_
    rintro _ _ ⟨rfl, rfl⟩
    refine .pure fun opcode ho => ?_
    rw [hc₁] at hle
    split at ho
    · exact ⟨hbounded opcode ho, hbefore, hle⟩
    · cases ho
  · exact .pure nofun

/-! ### The virtual machine -/

namespace DmntCheatVm

def decodeNextOpcode : Checked Fault (DmntCheatVm W) (Option Opcode) := fun s => do
  let (opcode, cursor) ← decode s.program ⟨s.instructionPtr, s.decodeSuccess⟩
  return (opcode, { s with instructionPtr := cursor.instructionPtr, decodeSuccess := opcode.isSome })

/-- Decoding does not fault; it moves the pointer, and a decoded instruction has indices in the arrays. -/
theorem decodeNextOpcode_ends (s : DmntCheatVm W) : ∃ o ptr,
    decodeNextOpcode s = .ok (o, { s with instructionPtr := ptr, decodeSuccess := o.isSome }) ∧
      ∀ opcode, o = some opcode → opcode.Bounded ∧ s.instructionPtr < s.program.numOpcodes ∧ s.instructionPtr < ptr := by
  have h := decode_ends (p := s.program) ⟨s.instructionPtr, s.decodeSuccess⟩
  unfold decodeNextOpcode
  unfold Ends at h
  split at h
  · next o c' hdecode =>
    rw [hdecode]
    exact ⟨o, c'.instructionPtr, rfl, h⟩
  · exact h.elim

theorem decodeNextOpcode_some {s s' : DmntCheatVm W} {opcode : Opcode} (h : decodeNextOpcode s = .ok (some opcode, s')) :
    opcode.Bounded ∧ s.instructionPtr < s.program.numOpcodes ∧ s.instructionPtr < s'.instructionPtr ∧
      s'.program = s.program := by
  obtain ⟨o, ptr, hdecode, hsome⟩ := decodeNextOpcode_ends s
  rw [hdecode] at h
  cases h
  obtain ⟨hbounded, hbefore, hmoved⟩ := hsome opcode rfl
  exact ⟨hbounded, hbefore, hmoved, rfl⟩

/-- The loop of `SkipConditionalBlock`. -/
def skipTo (isIf : Bool) (desiredDepth : U64) (s : DmntCheatVm W) : Except Fault (Unit × DmntCheatVm W) :=
  if desiredDepth < s.conditionDepth then
    match h : decodeNextOpcode s with
    | .error fault => .error fault
    | .ok (none, s') => .ok ((), s')
    | .ok (some skipOpcode, s') =>
      have : s'.program.numOpcodes - s'.instructionPtr < s.program.numOpcodes - s.instructionPtr := by
        obtain ⟨-, hbefore, hmoved, hprogram⟩ := decodeNextOpcode_some h
        rw [hprogram]
        omega
      if skipOpcode.beginsConditionalBlock then
        skipTo isIf desiredDepth { s' with conditionDepth := s'.conditionDepth + 1 }
      else match skipOpcode with
        | .endConditional false => skipTo isIf desiredDepth { s' with conditionDepth := s'.conditionDepth - 1 }
        | .endConditional true =>
          if isIf ∧ s'.conditionDepth - 1 = desiredDepth then .ok ((), s') else skipTo isIf desiredDepth s'
        | _ => skipTo isIf desiredDepth s'
  else .ok ((), s)
termination_by s.program.numOpcodes - s.instructionPtr

def skipConditionalBlock (isIf : Bool) : Checked Fault (DmntCheatVm W) Unit := fun s =>
  if 0 < s.conditionDepth then skipTo isIf (s.conditionDepth - 1) s else .error .unreachable

/-! ### Instructions -/

def getRegister (i : ℕ) : Checked Fault (DmntCheatVm W) U64 := readAt (.outside i) registers i

def setRegister (i : ℕ) (value : U64) : Checked Fault (DmntCheatVm W) Unit :=
  writeAt (.outside i) registers (fun s array => { s with registers := array }) i value

def getSaved (i : ℕ) : Checked Fault (DmntCheatVm W) U64 := readAt (.outside i) savedValues i

def setSaved (i : ℕ) (value : U64) : Checked Fault (DmntCheatVm W) Unit :=
  writeAt (.outside i) savedValues (fun s array => { s with savedValues := array }) i value

/-- Only a valid width reads, into the low bytes of `data`. -/
def readMemory (c : Context W) (bitWidth : ℕ) (address data : U64) : Checked Fault (DmntCheatVm W) U64 := do
  let s ← get
  if validWidth bitWidth then
    let kept := data ^^^ applyBitWidth bitWidth data
    return kept ||| applyBitWidth bitWidth (c.callbacks.memoryReadUnsafe s.world address bitWidth)
  else return data

def changeWorld (f : W → W) : Checked Fault (DmntCheatVm W) Unit := modify fun s => { s with world := f s.world }

/-- Only a valid width writes. -/
def writeMemory (c : Context W) (bitWidth : ℕ) (address value : U64) : Checked Fault (DmntCheatVm W) Unit :=
  changeWorld fun w =>
    if validWidth bitWidth then c.callbacks.memoryWriteUnsafe w ⟨address, applyBitWidth bitWidth value, bitWidth⟩ else w

def compareAddress (c : Context W) (compType : CompareRegisterValueType) (memType : MemoryAccessType)
    (addrRegIndex ofsRegIndex : ℕ) (relAddress : U64) : Checked Fault (DmntCheatVm W) U64 :=
  match compType with
  | .memoryRelAddr => return getCheatProcessAddress c.metadata memType relAddress
  | .memoryOfsReg => return getCheatProcessAddress c.metadata memType (← getRegister ofsRegIndex)
  | .registerRelAddr => return (← getRegister addrRegIndex) + relAddress
  | .registerOfsReg => return (← getRegister addrRegIndex) + (← getRegister ofsRegIndex)
  | _ => return 0

/-- `cond_met` of the three instructions that begin a block; the others are met. -/
def conditionMet (c : Context W) : Opcode → Checked Fault (DmntCheatVm W) Bool
  | .beginConditional bitWidth memType condType relAddress value => do
    let src ← readMemory c bitWidth (getCheatProcessAddress c.metadata memType relAddress) 0
    return compare condType src (getVmInt value bitWidth)
  | .beginKeypressConditional keyMask => return keyMask.setWidth 64 &&& c.kDown == keyMask.setWidth 64
  | .beginRegisterConditional bitWidth condType valRegIndex compType memType addrRegIndex otherRegIndex ofsRegIndex
      relAddress value => do
    let src := getVmInt (← getRegister valRegIndex) bitWidth
    match compType with
    | .staticValue => return compare condType src (getVmInt value bitWidth)
    | .otherRegister => return compare condType src (getVmInt (← getRegister otherRegIndex) bitWidth)
    | compType =>
      let address ← compareAddress c compType memType addrRegIndex ofsRegIndex relAddress
      return compare condType src (← readMemory c bitWidth address 0)
  | _ => return true

def shiftBy (shift : U64 → ℕ → U64) (value amount : U64) : Checked Fault (DmntCheatVm W) U64 :=
  if amount.toNat < 64 then return shift value amount.toNat else throw (.shift amount)

/-- Of the other types nothing is done. -/
def staticArithmetic (mathType : RegisterArithmeticType) (value operand : U64) : Checked Fault (DmntCheatVm W) U64 :=
  match mathType with
  | .addition => return value + operand
  | .subtraction => return value - operand
  | .multiplication => return value * operand
  | .leftShift => shiftBy (· <<< ·) value operand
  | .rightShift => shiftBy (· >>> ·) value operand
  | _ => return value

def registerArithmetic (mathType : RegisterArithmeticType) (operand1 operand2 : U64) : Checked Fault (DmntCheatVm W) U64 :=
  match mathType with
  | .logicalAnd => return operand1 &&& operand2
  | .logicalOr => return operand1 ||| operand2
  | .logicalNot => return ~~~operand1
  | .logicalXor => return operand1 ^^^ operand2
  | .other _ => return 0
  | mathType => staticArithmetic mathType operand1 operand2

def storeAddress (c : Context W) (ofsType : StoreRegisterOffsetType) (memType : MemoryAccessType)
    (addrRegIndex ofsRegIndex : ℕ) (relAddress : U64) : Checked Fault (DmntCheatVm W) U64 := do
  let address ← getRegister addrRegIndex
  match ofsType with
  | .none => return address
  | .reg => return address + (← getRegister ofsRegIndex)
  | .imm => return address + relAddress
  | .memReg => return getCheatProcessAddress c.metadata memType address
  | .memImm => return getCheatProcessAddress c.metadata memType relAddress
  | .memImmReg => return getCheatProcessAddress c.metadata memType (address + relAddress)

def logValue (c : Context W) (bitWidth : ℕ) (valType : DebugLogValueType) (memType : MemoryAccessType)
    (addrRegIndex valRegIndex ofsRegIndex : ℕ) (relAddress : U64) : Checked Fault (DmntCheatVm W) U64 :=
  match valType with
  | .registerValue => return getVmInt (← getRegister valRegIndex) bitWidth
  | .memoryRelAddr => readMemory c bitWidth (getCheatProcessAddress c.metadata memType relAddress) 0
  | .memoryOfsReg => do readMemory c bitWidth (getCheatProcessAddress c.metadata memType (← getRegister ofsRegIndex)) 0
  | .registerRelAddr => do readMemory c bitWidth ((← getRegister addrRegIndex) + relAddress) 0
  | .registerOfsReg => do readMemory c bitWidth ((← getRegister addrRegIndex) + (← getRegister ofsRegIndex)) 0
  | .other _ => readMemory c bitWidth 0 0

/-- One element of the loop of `SaveRestoreRegisterMask`. -/
def saveRestore (opType : SaveRestoreRegisterOpType) (dst src : ℕ) : Checked Fault (DmntCheatVm W) Unit :=
  match opType with
  | .clearRegs => setRegister dst 0
  | .clearSaved => setSaved dst 0
  | .save => do setSaved dst (← getRegister src)
  | .restore | .other _ => do setRegister dst (← getSaved src)

/-- The loop over the registers below the number. -/
def saveRestoreMask (opType : SaveRestoreRegisterOpType) (shouldOperate : ℕ → Bool) :
    ℕ → Checked Fault (DmntCheatVm W) Unit
  | 0 => return
  | n + 1 => do
    saveRestoreMask opType shouldOperate n
    if shouldOperate n then saveRestore opType n n

def incrementRegister (increment : Bool) (i bitWidth : ℕ) : Checked Fault (DmntCheatVm W) Unit := do
  if increment then setRegister i ((← getRegister i) + BitVec.ofNat 64 bitWidth)

/-- The second operand of `PerformArithmeticRegister`. -/
def operand2 (bitWidth srcReg2Index : ℕ) (hasImmediate : Bool) (value : U64) : Checked Fault (DmntCheatVm W) U64 :=
  if hasImmediate then return getVmInt value bitWidth else getRegister srcReg2Index

/-- The body of the loop of `Execute`. -/
def executeOpcode (c : Context W) (opcode : Opcode) : Checked Fault (DmntCheatVm W) Unit := do
  if opcode.beginsConditionalBlock then modify fun s => { s with conditionDepth := s.conditionDepth + 1 }
  match opcode with
  | .beginConditional .. | .beginKeypressConditional .. | .beginRegisterConditional .. =>
    if !(← conditionMet c opcode) then skipConditionalBlock true
  | .endConditional true => skipConditionalBlock false
  | .endConditional false =>
    modify fun s => if 0 < s.conditionDepth then { s with conditionDepth := s.conditionDepth - 1 } else s
  | .controlLoop true regIndex numIters =>
    setRegister regIndex (numIters.setWidth 64)
    writeAt (.outside regIndex) loopTops (fun s array => { s with loopTops := array }) regIndex (← get).instructionPtr
  | .controlLoop false regIndex _ =>
    setRegister regIndex ((← getRegister regIndex) - 1)
    if (← getRegister regIndex) ≠ 0 then
      let top ← readAt (.outside regIndex) loopTops regIndex
      modify fun s => { s with instructionPtr := top }
  | .storeStatic bitWidth memType offsetRegister relAddress value =>
    let address := getCheatProcessAddress c.metadata memType (relAddress + (← getRegister offsetRegister))
    writeMemory c bitWidth address (getVmInt value bitWidth)
  | .loadRegisterStatic regIndex value => setRegister regIndex value
  | .loadRegisterMemory bitWidth memType regIndex loadFromReg relAddress =>
    let data ← getRegister regIndex
    let address := if loadFromReg then data + relAddress else getCheatProcessAddress c.metadata memType relAddress
    setRegister regIndex (← readMemory c bitWidth address data)
  | .storeStaticToAddress bitWidth regIndex increment addOffsetReg offsetRegIndex value =>
    let address ← getRegister regIndex
    let offset ← if addOffsetReg then getRegister offsetRegIndex else pure 0
    writeMemory c bitWidth (address + offset) value
    incrementRegister increment regIndex bitWidth
  | .performArithmeticStatic bitWidth regIndex mathType value =>
    let result ← staticArithmetic mathType (← getRegister regIndex) (value.setWidth 64)
    setRegister regIndex (applyBitWidth bitWidth result)
  | .performArithmeticRegister bitWidth mathType dstRegIndex srcReg1Index srcReg2Index hasImmediate value =>
    let operand1Value ← getRegister srcReg1Index
    let operand2Value ← operand2 bitWidth srcReg2Index hasImmediate value
    let result ← registerArithmetic mathType operand1Value operand2Value
    setRegister dstRegIndex (applyBitWidth bitWidth result)
  | .storeRegisterToAddress bitWidth strRegIndex addrRegIndex increment ofsType memType ofsRegIndex relAddress =>
    let value ← getRegister strRegIndex
    let address ← storeAddress c ofsType memType addrRegIndex ofsRegIndex relAddress
    writeMemory c bitWidth address value
    incrementRegister increment addrRegIndex bitWidth
  | .saveRestoreRegister dstIndex srcIndex opType => saveRestore opType dstIndex srcIndex
  | .saveRestoreRegisterMask opType shouldOperate => saveRestoreMask opType shouldOperate NumRegisters
  | .readWriteStaticRegister staticIdx idx =>
    if staticIdx < NumReadableStaticRegisters then
      setRegister idx (← readAt (.outside staticIdx) staticRegisters staticIdx)
    else
      writeAt (.outside staticIdx) staticRegisters (fun s array => { s with staticRegisters := array }) staticIdx
        (← getRegister idx)
  | .pauseProcess => changeWorld c.callbacks.pauseProcess
  | .resumeProcess => changeWorld c.callbacks.resumeProcess
  | .debugLog bitWidth logId valType memType addrRegIndex valRegIndex ofsRegIndex relAddress =>
    let value ← logValue c bitWidth valType memType addrRegIndex valRegIndex ofsRegIndex relAddress
    changeWorld fun w => c.callbacks.debugLog w (BitVec.ofNat 8 logId) value

/-- One turn of the loop of `Execute`; false at its end. -/
def turn (c : Context W) : Checked Fault (DmntCheatVm W) Bool := do
  match ← decodeNextOpcode with
  | none => return false
  | some opcode =>
    executeOpcode c opcode
    return true

/-- `ResetState`; the static registers stay. -/
def resetState (s : DmntCheatVm W) : DmntCheatVm W :=
  { s with
    registers := .replicate _ 0
    savedValues := .replicate _ 0
    loopTops := .replicate _ 0
    instructionPtr := 0
    conditionDepth := 0
    decodeSuccess := true }

end DmntCheatVm

end CheckedVm
end Core
end Citron
