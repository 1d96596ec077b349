/-
# Safety of the cheat VM

No instruction accesses an array outside, whatever the words of the program are. An instruction faults in two ways: it
shifts by 64 or more, or it skips a block at depth zero, as an `else` outside every block does.
-/
import Citron.Core.CheatVmChecked

namespace Citron
namespace Core
namespace CheckedVm

open Lib Checked

variable {W : Type} {c : Context W} {α β : Type}

namespace DmntCheatVm

/-! ### Steps that do not fault -/

def Safe (x : Checked Fault (DmntCheatVm W) α) : Prop := ∀ s, Ends x s (fun _ _ => True) fun _ => False

/-- The step also leaves the state alone. -/
def Observes (x : Checked Fault (DmntCheatVm W) α) : Prop := ∀ s, ∃ a, x s = .ok (a, s)

theorem Safe.pure (a : α) : Safe (pure a : Checked Fault (DmntCheatVm W) α) := fun _ => trivial

variable {x : Checked Fault (DmntCheatVm W) α} {f : α → Checked Fault (DmntCheatVm W) β}

theorem Safe.bind (hx : Safe x) (hf : ∀ a, Safe (f a)) : Safe (x >>= f) := fun s => .bind (hx s) fun a s' _ => hf a s'

theorem Safe.modify (f : DmntCheatVm W → DmntCheatVm W) : Safe (modify f) := fun _ => trivial

theorem Observes.pure (a : α) : Observes (pure a : Checked Fault (DmntCheatVm W) α) := fun _ => ⟨a, rfl⟩

theorem Observes.bind (hx : Observes x) (hf : ∀ a, Observes (f a)) : Observes (x >>= f) := fun s => by
  obtain ⟨a, ha⟩ := hx s
  obtain ⟨b, hb⟩ := hf a s
  exact ⟨b, (bind_eq_ok ha).trans hb⟩

theorem Observes.safe (hx : Observes x) : Safe x := fun s => by
  obtain ⟨a, ha⟩ := hx s
  unfold Ends
  rw [ha]
  trivial

variable {i bitWidth : ℕ}

theorem getRegister_observes (h : i < NumRegisters) : Observes (getRegister i : Checked Fault (DmntCheatVm W) U64) :=
  fun s => ⟨_, readAt_eq _ _ h s⟩

theorem readMemory_observes (address data : U64) : Observes (readMemory c bitWidth address data) := fun s => by
  unfold readMemory
  cases validWidth bitWidth with
  | true => exact ⟨_, rfl⟩
  | false => exact ⟨_, rfl⟩

theorem setRegister_safe (h : i < NumRegisters) (value : U64) :
    Safe (setRegister i value : Checked Fault (DmntCheatVm W) Unit) := fun s => by
  unfold Ends setRegister
  rw [writeAt_eq _ _ _ h]
  trivial

theorem setSaved_safe (h : i < NumRegisters) (value : U64) :
    Safe (setSaved i value : Checked Fault (DmntCheatVm W) Unit) := fun s => by
  unfold Ends setSaved
  rw [writeAt_eq _ _ _ h]
  trivial

variable {addrRegIndex ofsRegIndex : ℕ}

theorem compareAddress_observes (haddr : addrRegIndex < NumRegisters)
    (hofs : ofsRegIndex < NumRegisters) (compType : CompareRegisterValueType) (memType : MemoryAccessType)
    (relAddress : U64) : Observes (compareAddress c compType memType addrRegIndex ofsRegIndex relAddress) := by
  unfold compareAddress
  split
  · exact .pure _
  · exact (getRegister_observes hofs).bind fun _ => .pure _
  · exact (getRegister_observes haddr).bind fun _ => .pure _
  · exact (getRegister_observes haddr).bind fun _ => (getRegister_observes hofs).bind fun _ => .pure _
  · exact .pure _

variable {opcode : Opcode}

theorem conditionMet_observes (h : opcode.Bounded) : Observes (conditionMet c opcode) := by
  cases opcode with
  | beginConditional => exact (readMemory_observes _ _).bind fun _ => .pure _
  | beginRegisterConditional bitWidth condType valRegIndex compType memType addrRegIndex otherRegIndex ofsRegIndex =>
    obtain ⟨hval, haddr, hother, hofs⟩ := h
    refine (getRegister_observes hval).bind fun _ => ?_
    split
    · exact .pure _
    · exact (getRegister_observes hother).bind fun _ => .pure _
    · exact (compareAddress_observes haddr hofs _ _ _).bind fun _ => (readMemory_observes _ _).bind fun _ => .pure _
  | _ => exact .pure _

theorem storeAddress_observes (haddr : addrRegIndex < NumRegisters)
    (hofs : ofsRegIndex < NumRegisters) (ofsType : StoreRegisterOffsetType) (memType : MemoryAccessType)
    (relAddress : U64) : Observes (storeAddress c ofsType memType addrRegIndex ofsRegIndex relAddress) := by
  refine (getRegister_observes haddr).bind fun _ => ?_
  cases ofsType with
  | reg => exact (getRegister_observes hofs).bind fun _ => .pure _
  | _ => exact .pure _

theorem logValue_observes {valRegIndex : ℕ} (haddr : addrRegIndex < NumRegisters)
    (hval : valRegIndex < NumRegisters) (hofs : ofsRegIndex < NumRegisters) (valType : DebugLogValueType)
    (memType : MemoryAccessType) (relAddress : U64) :
    Observes (logValue c bitWidth valType memType addrRegIndex valRegIndex ofsRegIndex relAddress) := by
  cases valType with
  | registerValue => exact (getRegister_observes hval).bind fun _ => .pure _
  | memoryRelAddr | other => exact readMemory_observes _ _
  | memoryOfsReg => exact (getRegister_observes hofs).bind fun _ => readMemory_observes _ _
  | registerRelAddr => exact (getRegister_observes haddr).bind fun _ => readMemory_observes _ _
  | registerOfsReg =>
    exact (getRegister_observes haddr).bind fun _ => (getRegister_observes hofs).bind fun _ => readMemory_observes _ _

theorem saveRestore_safe {dst src : ℕ} (hdst : dst < NumRegisters) (hsrc : src < NumRegisters)
    (opType : SaveRestoreRegisterOpType) : Safe (saveRestore opType dst src : Checked Fault (DmntCheatVm W) Unit) := by
  have hsaved : Observes (getSaved src : Checked Fault (DmntCheatVm W) U64) := fun s => ⟨_, readAt_eq _ _ hsrc s⟩
  cases opType with
  | clearRegs => exact setRegister_safe hdst 0
  | clearSaved => exact setSaved_safe hdst 0
  | save => exact (getRegister_observes hsrc).safe.bind fun _ => setSaved_safe hdst _
  | restore | other => exact hsaved.safe.bind fun _ => setRegister_safe hdst _

theorem saveRestoreMask_safe (opType : SaveRestoreRegisterOpType) (shouldOperate : ℕ → Bool) {n : ℕ}
    (hn : n ≤ NumRegisters) : Safe (saveRestoreMask opType shouldOperate n : Checked Fault (DmntCheatVm W) Unit) := by
  induction n with
  | zero => exact .pure _
  | succ n ih =>
    refine (ih (by omega)).bind fun _ => ?_
    split
    · exact saveRestore_safe hn hn opType
    · exact .pure _

theorem incrementRegister_safe (h : i < NumRegisters) (increment : Bool) :
    Safe (incrementRegister increment i bitWidth : Checked Fault (DmntCheatVm W) Unit) := by
  unfold incrementRegister
  split
  · exact (getRegister_observes h).safe.bind fun _ => setRegister_safe h _
  · exact .pure _

theorem operand2_observes (bitWidth : ℕ) (h : i < NumRegisters) (hasImmediate : Bool) (value : U64) :
    Observes (operand2 bitWidth i hasImmediate value : Checked Fault (DmntCheatVm W) U64) := by
  unfold operand2
  split
  · exact .pure _
  · exact getRegister_observes h

/-- Skipping ends, and does not fault: every turn of it goes on to a later word. -/
theorem skipTo_eq_ok (isIf : Bool) (desiredDepth : U64) (s : DmntCheatVm W) :
    ∃ s', skipTo isIf desiredDepth s = .ok ((), s') := by
  induction hn : s.program.numOpcodes - s.instructionPtr using Nat.strong_induction_on generalizing s with
  | _ n ih =>
    subst hn
    rw [skipTo]
    split
    · split
      · next fault hfault =>
        obtain ⟨o, ptr, hdecode, -⟩ := decodeNextOpcode_ends s
        rw [hdecode] at hfault
        cases hfault
      · exact ⟨_, rfl⟩
      · next skipOpcode s' hdecode =>
        obtain ⟨-, hbefore, hmoved, hprogram⟩ := decodeNextOpcode_some hdecode
        have hless : s'.program.numOpcodes - s'.instructionPtr < s.program.numOpcodes - s.instructionPtr := by
          rw [hprogram]
          omega
        split
        · exact ih _ hless _ rfl
        · split
          · exact ih _ hless _ rfl
          · split
            · exact ⟨_, rfl⟩
            · exact ih _ hless _ rfl
          · exact ih _ hless _ rfl
    · exact ⟨_, rfl⟩

/-- The call faults at depth zero, and then only. -/
theorem skipConditionalBlock_ends (isIf : Bool) (s : DmntCheatVm W) : Ends (skipConditionalBlock isIf) s
    (fun _ _ => s.conditionDepth ≠ 0) fun fault => s.conditionDepth = 0 ∧ fault = .unreachable := by
  unfold Ends skipConditionalBlock
  by_cases h : 0 < s.conditionDepth
  · obtain ⟨s', hs'⟩ := skipTo_eq_ok isIf (s.conditionDepth - 1) s
    rw [if_pos h, hs']
    rintro h0
    rw [h0] at h
    exact absurd h (by decide)
  · rw [if_neg h]
    refine ⟨?_, rfl⟩
    have := BitVec.not_lt.1 h
    exact BitVec.le_zero_iff.1 this

/-! ### Which instructions fault -/

def IsShift (mathType : RegisterArithmeticType) : Prop := mathType = .leftShift ∨ mathType = .rightShift

/-- The state in which an instruction that begins a block tests its condition. -/
def deepen (s : DmntCheatVm W) : DmntCheatVm W := { s with conditionDepth := s.conditionDepth + 1 }

/-- An instruction, and the state in which it is executed: a shift by 64 or more, an `else` at depth zero, or a condition
that is not met when the depth has just wrapped around. -/
def Harms (c : Context W) (s : DmntCheatVm W) : Opcode → Prop
  | .endConditional true => s.conditionDepth = 0
  | .performArithmeticStatic _ _ mathType value => IsShift mathType ∧ 64 ≤ value.toNat
  | .performArithmeticRegister bitWidth mathType _ _ srcReg2Index hasImmediate value =>
    IsShift mathType ∧ ∃ amount, operand2 bitWidth srcReg2Index hasImmediate value s = .ok (amount, s) ∧ 64 ≤ amount.toNat
  | opcode =>
    opcode.beginsConditionalBlock = true ∧ s.deepen.conditionDepth = 0 ∧
      conditionMet c opcode s.deepen = .ok (false, s.deepen)

/-- The instruction ends if it does no harm, and faults otherwise, but not for an access. -/
def Exact (c : Context W) (opcode : Opcode) : Prop :=
  ∀ s, Ends (executeOpcode c opcode) s (fun _ _ => ¬ Harms c s opcode)
    fun fault => Harms c s opcode ∧ ∀ i, fault ≠ .outside i

theorem exact_of_safe (h : Safe (executeOpcode c opcode)) (hharmless : ∀ s, ¬ Harms c s opcode) :
    Exact c opcode := fun s => (h s).mono (fun _ _ _ => hharmless s) fun _ => False.elim

theorem shiftBy_ends (shift : U64 → ℕ → U64) (value amount : U64) (s : DmntCheatVm W) :
    Ends (shiftBy shift value amount) s (fun _ s' => s' = s ∧ amount.toNat < 64)
      fun fault => fault = .shift amount ∧ 64 ≤ amount.toNat := by
  unfold shiftBy
  split
  · next h => exact .pure ⟨rfl, h⟩
  · next h => exact .throw ⟨rfl, by omega⟩

theorem staticArithmetic_ends (mathType : RegisterArithmeticType) (value operand : U64) (s : DmntCheatVm W) :
    Ends (staticArithmetic mathType value operand) s (fun _ s' => s' = s ∧ ¬ (IsShift mathType ∧ 64 ≤ operand.toNat))
      fun fault => (IsShift mathType ∧ 64 ≤ operand.toNat) ∧ ∀ i, fault ≠ .outside i := by
  cases mathType with
  | leftShift =>
    refine (shiftBy_ends _ value operand s).mono (fun _ s' ⟨hs, hlt⟩ => ⟨hs, fun h => ?_⟩) fun fault ⟨hf, hle⟩ => ?_
    · exact absurd h.2 (by omega)
    · exact ⟨⟨.inl rfl, hle⟩, fun i => hf ▸ nofun⟩
  | rightShift =>
    refine (shiftBy_ends _ value operand s).mono (fun _ s' ⟨hs, hlt⟩ => ⟨hs, fun h => ?_⟩) fun fault ⟨hf, hle⟩ => ?_
    · exact absurd h.2 (by omega)
    · exact ⟨⟨.inr rfl, hle⟩, fun i => hf ▸ nofun⟩
  | _ => exact .pure ⟨rfl, fun h => by rcases h.1 with h | h <;> cases h⟩

theorem registerArithmetic_ends (mathType : RegisterArithmeticType) (value operand : U64) (s : DmntCheatVm W) :
    Ends (registerArithmetic mathType value operand) s (fun _ s' => s' = s ∧ ¬ (IsShift mathType ∧ 64 ≤ operand.toNat))
      fun fault => (IsShift mathType ∧ 64 ≤ operand.toNat) ∧ ∀ i, fault ≠ .outside i := by
  cases mathType with
  | logicalAnd | logicalOr | logicalNot | logicalXor | other =>
    exact .pure ⟨rfl, fun h => by rcases h.1 with h | h <;> cases h⟩
  | addition => exact staticArithmetic_ends .addition value operand s
  | subtraction => exact staticArithmetic_ends .subtraction value operand s
  | multiplication => exact staticArithmetic_ends .multiplication value operand s
  | leftShift => exact staticArithmetic_ends .leftShift value operand s
  | rightShift => exact staticArithmetic_ends .rightShift value operand s
  | none => exact staticArithmetic_ends .none value operand s

/-- The three instructions that begin a block. -/
theorem exact_beginsConditionalBlock (hbounded : opcode.Bounded)
    (hharms : ∀ s, Harms c s opcode ↔ s.deepen.conditionDepth = 0 ∧ conditionMet c opcode s.deepen = .ok (false, s.deepen))
    (hexecute : ∀ s, executeOpcode c opcode s =
      ((conditionMet c opcode) >>= fun met => if !met then skipConditionalBlock true else pure ()) s.deepen) :
    Exact c opcode := by
  intro s
  obtain ⟨met, hmet⟩ := conditionMet_observes (c := c) hbounded s.deepen
  unfold Ends
  rw [hexecute, bind_eq_ok hmet, hharms, hmet]
  cases met with
  | true => rintro ⟨-, h⟩; cases h
  | false =>
    refine (skipConditionalBlock_ends true s.deepen).mono (fun _ _ h h0 => h h0.1) fun fault ⟨h0, hfault⟩ => ?_
    exact ⟨⟨h0, rfl⟩, fun i => hfault ▸ nofun⟩

/-- **Which instructions fault, and when.** -/
theorem executeOpcode_exact (h : opcode.Bounded) : Exact c opcode := by
  cases opcode with
  | beginConditional | beginKeypressConditional | beginRegisterConditional =>
    exact exact_beginsConditionalBlock h (fun s => ⟨fun h => h.2, fun h => ⟨rfl, h⟩⟩) fun s => rfl
  | endConditional isElse =>
    cases isElse with
    | true =>
      exact fun s => (skipConditionalBlock_ends false s).mono (fun _ _ h0 => h0) fun fault ⟨h0, hfault⟩ =>
        ⟨h0, fun i => hfault ▸ nofun⟩
    | false => exact exact_of_safe (.modify _) fun s h => nomatch h.1
  | controlLoop startLoop regIndex numIters =>
    refine exact_of_safe ?_ fun s h => nomatch h.1
    cases startLoop with
    | true =>
      refine (setRegister_safe h _).bind fun _ s => ?_
      refine .bind (.get (R := fun _ s' => s' = s) rfl) fun s' _ _ => ?_
      unfold Ends
      rw [writeAt_eq _ _ _ h]
      trivial
    | false =>
      refine (getRegister_observes h).safe.bind fun _ => (setRegister_safe h _).bind fun _ => ?_
      refine (getRegister_observes h).safe.bind fun _ => ?_
      split
      · have htop : Observes (readAt (Fault.outside regIndex) (loopTops (W := W)) regIndex) := fun s =>
          ⟨_, readAt_eq _ _ h s⟩
        exact htop.safe.bind fun _ => .modify _
      · exact .pure _
  | storeStatic =>
    exact exact_of_safe ((getRegister_observes h).safe.bind fun _ => .modify _) fun s h => nomatch h.1
  | loadRegisterStatic => exact exact_of_safe (setRegister_safe h _) fun s h => nomatch h.1
  | loadRegisterMemory =>
    refine exact_of_safe ?_ fun s h => nomatch h.1
    exact (getRegister_observes h).safe.bind fun _ => (readMemory_observes _ _).safe.bind fun _ => setRegister_safe h _
  | storeStaticToAddress bitWidth regIndex increment addOffsetReg offsetRegIndex value =>
    refine exact_of_safe ?_ fun s h => nomatch h.1
    obtain ⟨hreg, hoffset⟩ := h
    refine (getRegister_observes hreg).safe.bind fun _ => ?_
    cases addOffsetReg with
    | true =>
      refine (getRegister_observes hoffset).safe.bind fun _ => (Safe.modify _).bind fun _ => ?_
      exact incrementRegister_safe hreg increment
    | false => exact (Safe.pure _).bind fun _ => (Safe.modify _).bind fun _ => incrementRegister_safe hreg increment
  | performArithmeticStatic bitWidth regIndex mathType value =>
    intro s
    obtain ⟨operand1, hoperand1⟩ := getRegister_observes h s
    have hamount : (value.setWidth 64).toNat = value.toNat := by
      rw [BitVec.toNat_setWidth]
      exact Nat.mod_eq_of_lt (value.isLt.trans (by norm_num))
    have hends := staticArithmetic_ends mathType operand1 (value.setWidth 64) s
    rw [hamount] at hends
    refine .congr (bind_eq_ok hoperand1) (.bind hends fun result s' ⟨_, hharmless⟩ => ?_)
    exact (setRegister_safe h _ s').mono (fun _ _ _ => hharmless) fun _ => False.elim
  | performArithmeticRegister bitWidth mathType dstRegIndex srcReg1Index srcReg2Index hasImmediate value =>
    intro s
    obtain ⟨hdst, hsrc1, hsrc2⟩ := h
    obtain ⟨operand1, hoperand1⟩ := getRegister_observes hsrc1 s
    obtain ⟨amount, hamount⟩ := operand2_observes bitWidth hsrc2 hasImmediate value s
    have hharms : Harms c s (.performArithmeticRegister bitWidth mathType dstRegIndex srcReg1Index srcReg2Index
        hasImmediate value) ↔ IsShift mathType ∧ 64 ≤ amount.toNat := by
      refine and_congr_right fun _ => ⟨?_, fun h => ⟨amount, hamount, h⟩⟩
      rintro ⟨amount', hamount', hle⟩
      rw [hamount] at hamount'
      cases hamount'
      exact hle
    have hends := registerArithmetic_ends mathType operand1 amount s
    rw [← hharms] at hends
    refine .congr ((bind_eq_ok hoperand1).trans (bind_eq_ok hamount)) (.bind hends fun result s' ⟨_, hharmless⟩ => ?_)
    exact (setRegister_safe hdst _ s').mono (fun _ _ _ => hharmless) fun _ => False.elim
  | storeRegisterToAddress bitWidth strRegIndex addrRegIndex increment =>
    refine exact_of_safe ?_ fun s h => nomatch h.1
    obtain ⟨hstr, haddr, hofs⟩ := h
    refine (getRegister_observes hstr).safe.bind fun _ => (storeAddress_observes haddr hofs _ _ _).safe.bind fun _ => ?_
    exact (Safe.modify _).bind fun _ => incrementRegister_safe haddr increment
  | saveRestoreRegister => exact exact_of_safe (saveRestore_safe h.1 h.2 _) fun s h => nomatch h.1
  | saveRestoreRegisterMask => exact exact_of_safe (saveRestoreMask_safe _ _ le_rfl) fun s h => nomatch h.1
  | readWriteStaticRegister staticIdx idx =>
    refine exact_of_safe ?_ fun s h => nomatch h.1
    obtain ⟨hstatic, hidx⟩ := h
    change Safe (ite _ _ _)
    split
    · have hread : Observes (readAt (Fault.outside staticIdx) (staticRegisters (W := W)) staticIdx) := fun s =>
        ⟨_, readAt_eq _ _ hstatic s⟩
      exact hread.safe.bind fun _ => setRegister_safe hidx _
    · refine (getRegister_observes hidx).safe.bind fun _ s => ?_
      unfold Ends
      rw [writeAt_eq _ _ _ hstatic]
      trivial
  | pauseProcess => exact exact_of_safe (.modify _) fun s h => nomatch h.1
  | resumeProcess => exact exact_of_safe (.modify _) fun s h => nomatch h.1
  | debugLog =>
    refine exact_of_safe ?_ fun s h => nomatch h.1
    obtain ⟨haddr, hval, hofs⟩ := h
    exact (logValue_observes haddr hval hofs _ _ _).safe.bind fun _ => .modify _

/-! ### Runs -/

/-- The states before the turns of a run. -/
inductive Reached (c : Context W) (s : DmntCheatVm W) : DmntCheatVm W → Prop
  | start : Reached c s s
  | turn {s' s'' : DmntCheatVm W} : Reached c s s' → turn c s' = .ok (true, s'') → Reached c s s''

/-- A turn of the run faults. -/
def Faults (c : Context W) (s : DmntCheatVm W) (fault : Fault) : Prop := ∃ s', Reached c s s' ∧ turn c s' = .error fault

/-- The instruction at the pointer does harm. -/
def HarmsNext (c : Context W) (s : DmntCheatVm W) : Prop :=
  ∃ opcode s', decodeNextOpcode s = .ok (some opcode, s') ∧ Harms c s' opcode

theorem turn_ends (c : Context W) (s : DmntCheatVm W) :
    Ends (turn c) s (fun _ _ => ¬ HarmsNext c s) fun fault => HarmsNext c s ∧ ∀ i, fault ≠ .outside i := by
  obtain ⟨o, ptr, hdecode, hsome⟩ := decodeNextOpcode_ends s
  refine .congr (bind_eq_ok hdecode) ?_
  cases o with
  | none =>
    refine .pure ?_
    rintro ⟨opcode, s', hnext, -⟩
    rw [hdecode] at hnext
    cases hnext
  | some opcode =>
    refine .bind ((executeOpcode_exact (c := c) (hsome opcode rfl).1 _).mono (fun _ _ h => h) fun fault h => ?_) fun _ _ h => ?_
    · exact ⟨⟨opcode, _, hdecode, h.1⟩, h.2⟩
    · refine .pure ?_
      rintro ⟨opcode', s', hnext, hharms⟩
      rw [hdecode] at hnext
      cases hnext
      exact h hharms

/-- **No run accesses an array outside, and a run faults if and only if it comes to an instruction that does harm.** -/
theorem execute_faults_iff (callbacks : Callbacks W) (metadata : CheatProcessMetadata) (s : DmntCheatVm W) :
    (∀ i, ¬ Faults ⟨callbacks, metadata, callbacks.hidKeysDown s.world⟩ s.resetState (.outside i)) ∧
      ((∃ fault, Faults ⟨callbacks, metadata, callbacks.hidKeysDown s.world⟩ s.resetState fault) ↔
        ∃ s', Reached ⟨callbacks, metadata, callbacks.hidKeysDown s.world⟩ s.resetState s' ∧
          HarmsNext ⟨callbacks, metadata, callbacks.hidKeysDown s.world⟩ s') := by
  constructor
  · rintro i ⟨s', -, hfault⟩
    have hends := turn_ends ⟨callbacks, metadata, callbacks.hidKeysDown s.world⟩ s'
    unfold Ends at hends
    rw [hfault] at hends
    exact hends.2 i rfl
  · constructor
    · rintro ⟨fault, s', hreached, hfault⟩
      have hends := turn_ends ⟨callbacks, metadata, callbacks.hidKeysDown s.world⟩ s'
      unfold Ends at hends
      rw [hfault] at hends
      exact ⟨s', hreached, hends.1⟩
    · rintro ⟨s', hreached, hharms⟩
      have hends := turn_ends ⟨callbacks, metadata, callbacks.hidKeysDown s.world⟩ s'
      unfold Ends at hends
      split at hends
      · exact absurd hharms hends
      · next fault hfault => exact ⟨fault, s', hreached, hfault⟩

end DmntCheatVm

/-- The program of some words. -/
def Program.ofWords (words : List Dword) (h : words.length ≤ MaximumProgramOpcodeCount) : Program where
  words := ⟨(words ++ .replicate (MaximumProgramOpcodeCount - words.length) 0).toArray, by simp; omega⟩
  numOpcodes := words.length
  numOpcodes_le := h

/-- No keys, and memory of zeros. -/
def idle : Callbacks Unit := ⟨fun _ _ _ => 0, fun w _ => w, fun _ => 0, id, id, fun w _ _ => w⟩

namespace DmntCheatVm

def ofProgram (program : Program) : DmntCheatVm Unit :=
  ⟨program, 0, 0, true, .replicate _ 0, .replicate _ 0, .replicate _ 0, .replicate _ 0, ()⟩

/-- An `else` outside every block, and a shift by 64. -/
theorem execute_faults :
    Faults ⟨idle, ⟨0, 0, 0, 0⟩, 0⟩ (ofProgram (.ofWords [0x21000000] (by decide))).resetState .unreachable ∧
      Faults ⟨idle, ⟨0, 0, 0, 0⟩, 0⟩ (ofProgram (.ofWords [0x78003000, 64] (by decide))).resetState (.shift 64) :=
  ⟨⟨_, .start, rfl⟩, ⟨_, .start, rfl⟩⟩

end DmntCheatVm
end CheckedVm
end Core
end Citron
