/-
# Structured cheat programs

Programs of properly nested conditional blocks and counted loops, and what they mean without an
instruction pointer, a depth counter or loop tops. An instruction of such a program is a list of
words that decodes to it, whatever the words after the first look like.
-/
import Citron.Core.CheatVmExecute

namespace Citron
namespace Core

open Lib.Scanner List

variable {W : Type}

/-! ### Kinds of instructions -/

def Opcode.isCondition : Opcode → Bool
  | .beginConditional .. | .beginKeypressConditional .. | .beginRegisterConditional .. => true
  | _ => false

/-- The instruction is no part of a conditional block or a loop. -/
def Opcode.isPlain : Opcode → Bool
  | .endConditional .. | .controlLoop .. => false
  | opcode => !opcode.isCondition

variable {opcode : Opcode}

theorem isCondition_of_isPlain (h : opcode.isPlain = true) : opcode.isCondition = false := by
  cases opcode <;> first | rfl | cases h

theorem ne_endConditional_of_isPlain (h : opcode.isPlain = true) (isElse : Bool) :
    opcode ≠ .endConditional isElse := by
  rintro rfl
  cases h

/-- What is decoded from a word of the type. -/
theorem gives_isCondition (first : Dword) :
    Gives (fun o : Opcode => o.isCondition = beginsConditionalBlock (opcodeType first)) (decodeOpcode first) := by
  unfold decodeOpcode
  cases opcodeType first with
  | storeStatic | beginConditionalBlock | loadRegisterStatic | storeStaticToAddress =>
    exact gives_bind fun _ => gives_bind fun _ => gives_pure rfl
  | loadRegisterMemory | performArithmeticStatic => exact gives_bind fun _ => gives_pure rfl
  | controlLoop | performArithmeticRegister =>
    dsimp only
    split
    · exact gives_bind fun _ => gives_pure rfl
    · exact gives_pure rfl
  | storeRegisterToAddress =>
    unfold decodeStoreRegisterToAddress
    dsimp only
    split <;> first | exact gives_pure rfl | exact gives_bind fun _ => gives_pure rfl
  | beginRegisterConditionalBlock =>
    unfold decodeBeginRegisterConditional
    dsimp only
    split <;> first | exact gives_pure rfl | exact gives_bind fun _ => gives_pure rfl
  | debugLog =>
    unfold decodeDebugLog
    dsimp only
    split <;> first | exact gives_pure rfl | exact gives_bind fun _ => gives_pure rfl
  | unrecognized type => exact gives_failure
  | endConditionalBlock | beginKeypressConditionalBlock | saveRestoreRegister | saveRestoreRegisterMask
    | readWriteStaticRegister | pauseProcess | resumeProcess => exact gives_pure rfl

theorem decode_flag {words rest : List Dword} {opcode : CheatVmOpcode} (h : decode words = some (opcode, rest)) :
    opcode.beginConditionalBlock = opcode.opcode.isCondition := by
  have hgives : Gives (fun o : CheatVmOpcode => o.beginConditionalBlock = o.opcode.isCondition) decode := by
    refine gives_bind fun first xs o rest ho => ?_
    obtain ⟨op, mid, h1, h2⟩ := bind_eq_some ho
    cases h2
    exact (gives_isCondition first xs op _ h1).symm
  exact hgives _ _ _ h

/-- The words of an instruction of a kind. -/
structure Instruction (kind : Opcode → Prop) where
  words : List Dword
  opcode : Opcode
  flag : Bool
  decodes : decode words = some (⟨flag, opcode⟩, [])
  isKind : kind opcode

/-- A properly nested program. A loop has its counter and its iterations, of which there is at least one. -/
inductive Block
  | done
  | plain (i : Instruction fun o => o.isPlain) (rest : Block)
  | ifThen (cond : Instruction fun o => o.isCondition) (body : Block)
      (endIf : Instruction fun o => o = .endConditional false) (rest : Block)
  | ifElse (cond : Instruction fun o => o.isCondition) (body : Block)
      (elseIf : Instruction fun o => o = .endConditional true) (other : Block)
      (endIf : Instruction fun o => o = .endConditional false) (rest : Block)
  | loop (regIndex : RegIndex) (numIters : Dword) (start : Instruction fun o => o = .controlLoop true regIndex numIters)
      (body : Block) (finish : Instruction fun o => o = .controlLoop false regIndex 0) (rest : Block)

namespace Block

def words : Block → List Dword
  | done => []
  | plain i rest => i.words ++ rest.words
  | ifThen cond body endIf rest => cond.words ++ body.words ++ endIf.words ++ rest.words
  | ifElse cond body elseIf other endIf rest =>
    cond.words ++ body.words ++ elseIf.words ++ other.words ++ endIf.words ++ rest.words
  | loop _ _ start body finish rest => start.words ++ body.words ++ finish.words ++ rest.words

/-! ### The registers a program writes -/

end Block

def SaveRestoreRegisterOpType.writesRegisters : SaveRestoreRegisterOpType → Bool
  | .save | .clearSaved => false
  | .restore | .clearRegs | .other _ => true

/-- The instruction assigns to the register. -/
def Opcode.writes (r : RegIndex) : Opcode → Bool
  | .loadRegisterStatic regIndex _ => regIndex = r
  | .loadRegisterMemory _ _ regIndex _ _ => regIndex = r
  | .storeStaticToAddress _ regIndex incrementReg _ _ _ => incrementReg && regIndex = r
  | .performArithmeticStatic _ regIndex _ _ => regIndex = r
  | .performArithmeticRegister _ _ dstRegIndex _ _ _ _ => dstRegIndex = r
  | .storeRegisterToAddress _ _ addrRegIndex incrementReg _ _ _ _ => incrementReg && addrRegIndex = r
  | .saveRestoreRegister dstIndex _ opType => opType.writesRegisters && dstIndex = r
  | .saveRestoreRegisterMask opType shouldOperate => opType.writesRegisters && shouldOperate r
  | .readWriteStaticRegister staticIdx idx => staticIdx.val < NumReadableStaticRegisters && idx = r
  | .controlLoop _ regIndex _ => regIndex = r
  | _ => false

theorem perform_registers {c : Context W} {m : Machine W} {r : RegIndex}
    (h : opcode.writes r = false) : (perform c m opcode).registers r = m.registers r := by
  cases opcode with
  | storeStatic => simp [perform]
  | loadRegisterStatic regIndex value =>
    have hne : r ≠ regIndex := by simpa [Opcode.writes, eq_comm] using h
    exact Machine.registers_setRegister_of_ne _ hne _
  | loadRegisterMemory _ _ regIndex _ _ | performArithmeticStatic _ regIndex _ _
    | performArithmeticRegister _ _ regIndex _ _ _ _ =>
    have hne : r ≠ regIndex := by simpa [Opcode.writes, eq_comm] using h
    exact Machine.registers_setRegister_of_ne _ hne _
  | storeStaticToAddress bitWidth regIndex incrementReg _ _ _
    | storeRegisterToAddress bitWidth _ regIndex incrementReg _ _ _ _ =>
    cases incrementReg with
    | false => simp [perform]
    | true =>
      have hne : r ≠ regIndex := by simpa [Opcode.writes, eq_comm] using h
      simp [perform, Machine.registers_setRegister_of_ne _ hne]
  | saveRestoreRegister regIndex srcIndex opType =>
    cases opType with
    | save | clearSaved => rfl
    | restore | clearRegs | other =>
      have hne : r ≠ regIndex := by
        simpa [Opcode.writes, SaveRestoreRegisterOpType.writesRegisters, eq_comm] using h
      exact Machine.registers_setRegister_of_ne _ hne _
  | saveRestoreRegisterMask opType shouldOperate =>
    cases opType with
    | save | clearSaved => rfl
    | restore | clearRegs | other =>
      have hr : shouldOperate r = false := by
        simpa [Opcode.writes, SaveRestoreRegisterOpType.writesRegisters] using h
      simp [perform, hr]
  | readWriteStaticRegister staticIdx regIndex =>
    simp only [perform]
    split
    · next hs =>
      have hne : r ≠ regIndex := by
        rintro rfl
        simp only [Opcode.writes, hs, decide_true, Bool.true_and] at h
        cases h
      exact Machine.registers_setRegister_of_ne _ hne _
    · rfl
  | beginConditional | endConditional | controlLoop | beginKeypressConditional | beginRegisterConditional
    | pauseProcess | resumeProcess | debugLog => rfl

namespace Block

def writes (r : RegIndex) : Block → Bool
  | done => false
  | plain i rest => i.opcode.writes r || rest.writes r
  | ifThen _ body _ rest => body.writes r || rest.writes r
  | ifElse _ body _ other _ rest => body.writes r || other.writes r || rest.writes r
  | loop regIndex _ _ body _ rest => regIndex = r || body.writes r || rest.writes r

/-- Every loop has an iteration, and its body leaves the counter alone. -/
def Counted : Block → Prop
  | done => True
  | plain _ rest => rest.Counted
  | ifThen _ body _ rest => body.Counted ∧ rest.Counted
  | ifElse _ body _ other _ rest => body.Counted ∧ other.Counted ∧ rest.Counted
  | loop regIndex numIters _ body _ rest =>
    numIters ≠ 0 ∧ body.writes regIndex = false ∧ body.Counted ∧ rest.Counted

/-! ### The structured interpreter -/

/-- A counted loop: the counter is the number of passes that are left, at the start of each pass and at the end. -/
def repeatCounted (regIndex : RegIndex) (pass : Machine W → Machine W) : ℕ → Machine W → Machine W
  | 0, m => m.setRegister regIndex 0
  | k + 1, m => repeatCounted regIndex pass k (pass (m.setRegister regIndex (BitVec.ofNat 64 (k + 1))))

/-- What the program at `pos`, inside `depth` conditional blocks, does. -/
def interpret (c : Context W) : Block → (pos depth : ℕ) → Machine W → Machine W
  | done, _, _, m => m
  | plain i rest, pos, depth, m =>
    rest.interpret c (pos + i.words.length) depth (perform c (m.visit pos depth) i.opcode)
  | ifThen cond body endIf rest, pos, depth, m =>
    let bodyPos := pos + cond.words.length
    let endPos := bodyPos + body.words.length
    let m := m.visit pos depth
    let m :=
      if conditionMet c m cond.opcode then (body.interpret c bodyPos (depth + 1) m).visit endPos (depth + 1) else m
    rest.interpret c (endPos + endIf.words.length) depth m
  | ifElse cond body elseIf other endIf rest, pos, depth, m =>
    let bodyPos := pos + cond.words.length
    let elsePos := bodyPos + body.words.length
    let otherPos := elsePos + elseIf.words.length
    let endPos := otherPos + other.words.length
    let m := m.visit pos depth
    let m :=
      if conditionMet c m cond.opcode then (body.interpret c bodyPos (depth + 1) m).visit elsePos (depth + 1)
      else (other.interpret c otherPos (depth + 1) m).visit endPos (depth + 1)
    rest.interpret c (endPos + endIf.words.length) depth m
  | loop regIndex numIters start body finish rest, pos, depth, m =>
    let bodyPos := pos + start.words.length
    let finishPos := bodyPos + body.words.length
    let pass m := (body.interpret c bodyPos depth m).visit finishPos depth
    rest.interpret c (finishPos + finish.words.length) depth
      (repeatCounted regIndex pass numIters.toNat (m.visit pos depth))

variable {pass : Machine W → Machine W}

theorem registers_repeatCounted {regIndex r : RegIndex} (hne : r ≠ regIndex)
    (hpass : ∀ m, (pass m).registers r = m.registers r) :
    ∀ (k : ℕ) (m : Machine W), (repeatCounted regIndex pass k m).registers r = m.registers r
  | 0, m => m.registers_setRegister_of_ne hne 0
  | k + 1, m => by
    rw [repeatCounted, registers_repeatCounted hne hpass k, hpass, m.registers_setRegister_of_ne hne]

/-- The interpreter leaves a register alone that the program does not write. -/
theorem registers_interpret {c : Context W} {r : RegIndex} (block : Block) (h : block.writes r = false) :
    ∀ pos depth (m : Machine W), (block.interpret c pos depth m).registers r = m.registers r := by
  induction block with
  | done => exact fun _ _ _ => rfl
  | plain i rest ih =>
    intro pos depth m
    obtain ⟨hi, hr⟩ := Bool.or_eq_false_iff.mp h
    rw [interpret, ih hr, perform_registers hi, Machine.registers_visit]
  | ifThen cond body endIf rest hbody hrest =>
    intro pos depth m
    obtain ⟨hb, hr⟩ := Bool.or_eq_false_iff.mp h
    rw [interpret, hrest hr]
    split
    · rw [Machine.registers_visit, hbody hb, Machine.registers_visit]
    · rfl
  | ifElse cond body elseIf other endIf rest hbody hother hrest =>
    intro pos depth m
    obtain ⟨hbo, hr⟩ := Bool.or_eq_false_iff.mp h
    obtain ⟨hb, ho⟩ := Bool.or_eq_false_iff.mp hbo
    rw [interpret, hrest hr]
    split
    · rw [Machine.registers_visit, hbody hb, Machine.registers_visit]
    · rw [Machine.registers_visit, hother ho, Machine.registers_visit]
  | loop regIndex numIters start body finish rest hbody hrest =>
    intro pos depth m
    obtain ⟨hbr, hr⟩ := Bool.or_eq_false_iff.mp h
    obtain ⟨hne, hb⟩ := Bool.or_eq_false_iff.mp hbr
    rw [interpret, hrest hr, registers_repeatCounted fun he => of_decide_eq_false hne he.symm]
    · rfl
    · exact fun m => hbody hb _ _ m

/-! ### Nesting -/

@[simp] theorem visited_perform (c : Context W) (m : Machine W) (opcode : Opcode) :
    (perform c m opcode).visited = m.visited := by
  cases opcode with
  | storeStaticToAddress | storeRegisterToAddress =>
    simp only [perform]
    split <;> simp
  | saveRestoreRegister _ _ opType | saveRestoreRegisterMask opType _ => cases opType <;> rfl
  | readWriteStaticRegister =>
    simp only [perform]
    split <;> rfl
  | _ => simp [perform]

/-- Where each instruction is, and the number of conditional blocks around it. The else and the end of a block are
inside it. -/
def nesting : Block → (pos depth : ℕ) → List (ℕ × ℕ)
  | done, _, _ => []
  | plain i rest, pos, depth => (pos, depth) :: rest.nesting (pos + i.words.length) depth
  | ifThen cond body endIf rest, pos, depth =>
    let bodyPos := pos + cond.words.length
    let endPos := bodyPos + body.words.length
    (pos, depth) :: body.nesting bodyPos (depth + 1) ++
      (endPos, depth + 1) :: rest.nesting (endPos + endIf.words.length) depth
  | ifElse cond body elseIf other endIf rest, pos, depth =>
    let bodyPos := pos + cond.words.length
    let elsePos := bodyPos + body.words.length
    let otherPos := elsePos + elseIf.words.length
    let endPos := otherPos + other.words.length
    (pos, depth) :: body.nesting bodyPos (depth + 1) ++
      (elsePos, depth + 1) :: other.nesting otherPos (depth + 1) ++
        (endPos, depth + 1) :: rest.nesting (endPos + endIf.words.length) depth
  | loop _ _ start body finish rest, pos, depth =>
    let bodyPos := pos + start.words.length
    let finishPos := bodyPos + body.words.length
    (pos, depth) :: body.nesting bodyPos depth ++
      (finishPos, depth) :: rest.nesting (finishPos + finish.words.length) depth

variable {v : ℕ × ℕ}

theorem visited_repeatCounted (regIndex : RegIndex) {l : List (ℕ × ℕ)}
    (hpass : ∀ m, v ∈ (pass m).visited → v ∈ m.visited ∨ v ∈ l) :
    ∀ (k : ℕ) (m : Machine W), v ∈ (repeatCounted regIndex pass k m).visited → v ∈ m.visited ∨ v ∈ l
  | 0, _, h => .inl h
  | k + 1, _, h => (visited_repeatCounted regIndex hpass k _ h).elim (hpass _) .inr

theorem mem_visited_visit {m : Machine W} {pos depth : ℕ} :
    v ∈ (m.visit pos depth).visited ↔ v ∈ m.visited ∨ v = (pos, depth) := by
  rw [Machine.visited_visit, mem_append, mem_singleton]

/-- The interpreter visits instructions of the program, each at its nesting. -/
theorem visited_interpret {c : Context W} (block : Block) : ∀ pos depth (m : Machine W),
    v ∈ (block.interpret c pos depth m).visited → v ∈ m.visited ∨ v ∈ block.nesting pos depth := by
  induction block with
  | done => exact fun _ _ _ h => .inl h
  | plain i rest ih =>
    intro pos depth m h
    have hm := ih _ _ _ h
    rw [visited_perform, mem_visited_visit] at hm
    simp only [nesting, mem_cons]
    tauto
  | ifThen cond body endIf rest hbody hrest =>
    intro pos depth m h
    have hm := hrest _ _ _ h
    simp only [nesting, mem_append, mem_cons]
    split at hm
    · rw [mem_visited_visit] at hm
      have hb := hbody (pos + cond.words.length) (depth + 1) (m.visit pos depth)
      rw [mem_visited_visit] at hb
      tauto
    · rw [mem_visited_visit] at hm
      tauto
  | ifElse cond body elseIf other endIf rest hbody hother hrest =>
    intro pos depth m h
    have hm := hrest _ _ _ h
    simp only [nesting, mem_append, mem_cons]
    split at hm
    · rw [mem_visited_visit] at hm
      have hb := hbody (pos + cond.words.length) (depth + 1) (m.visit pos depth)
      rw [mem_visited_visit] at hb
      tauto
    · rw [mem_visited_visit] at hm
      have ho := hother (pos + cond.words.length + body.words.length + elseIf.words.length) (depth + 1)
        (m.visit pos depth)
      rw [mem_visited_visit] at ho
      tauto
  | loop regIndex numIters start body finish rest hbody hrest =>
    intro pos depth m h
    have hm := hrest _ _ _ h
    simp only [nesting, mem_append, mem_cons]
    have hpass : ∀ m, v ∈ ((body.interpret c (pos + start.words.length) depth m).visit
        (pos + start.words.length + body.words.length) depth).visited →
        v ∈ m.visited ∨ v ∈ body.nesting (pos + start.words.length) depth ++
          [(pos + start.words.length + body.words.length, depth)] := by
      intro m hv
      rw [mem_visited_visit] at hv
      rw [mem_append, mem_singleton]
      have hb := hbody (pos + start.words.length) depth m
      tauto
    have hloop := visited_repeatCounted regIndex hpass numIters.toNat (m.visit pos depth)
    rw [mem_visited_visit, mem_append, mem_singleton] at hloop
    tauto

end Block

end Core
end Citron
