/-
# What the instructions compute

A valuation gives every instruction of a storage its result. It is a model of the storage when each
result is what the opcode computes from the arguments; the opcodes that read the outside world are
the leaves and may yield anything.
-/
import Citron.ShaderRecompiler.MicroInstructionCode
import Mathlib.Data.BitVec
import Mathlib.Tactic.LinearCombination

namespace Citron
namespace Shader
namespace IR

/-- The result of an instruction. -/
inductive Datum
  | scalar (payload : Imm)
  | composite (elements : List Imm)

namespace Datum

def u1 (value : Bool) : Datum := .scalar (.u1 value)
def u32 (value : BitVec 32) : Datum := .scalar (.u32 value)
def u64 (value : BitVec 64) : Datum := .scalar (.u64 value)

end Datum

/-- Results of the instructions, by their index. -/
abbrev Valuation := ℕ → Datum

namespace Value

def denote (ρ : Valuation) : Value → Datum
  | .imm payload => .scalar payload
  | .inst i => ρ i

/-- The value does not refer past the first `n` instructions. -/
def Below (n : ℕ) (value : Value) : Prop := ∀ i, value = .inst i → i < n

theorem Below.mono {n m : ℕ} (h : n ≤ m) {value : Value} (hv : value.Below n) : value.Below m := by
  intro i hi
  exact Nat.lt_of_lt_of_le (hv i hi) h

@[simp] theorem below_imm (n : ℕ) (payload : Imm) : (Value.imm payload).Below n := by
  intro i hi
  cases hi

@[simp] theorem below_inst {n i : ℕ} : (Value.inst i).Below n ↔ i < n := by
  constructor
  · intro h
    exact h i rfl
  · intro h j hj
    cases hj
    exact h

theorem denote_congr {n : ℕ} {ρ ρ' : Valuation} (h : ∀ i < n, ρ' i = ρ i) {value : Value}
    (hv : value.Below n) : value.denote ρ' = value.denote ρ := by
  cases value with
  | imm payload => rfl
  | inst i => exact h i (below_inst.mp hv)

end Value

/-! ### Bit fields -/

/-- The mask of a field of `count` bits at bit 0. -/
def fieldMask (count : BitVec 32) : BitVec 32 := (1#32 <<< count) - 1

def bitFieldUExtract (base offset count : BitVec 32) : BitVec 32 := (base >>> offset) &&& fieldMask count

def bitFieldInsert (base insert offset count : BitVec 32) : BitVec 32 :=
  (base &&& ~~~(fieldMask count <<< offset)) ||| ((insert &&& fieldMask count) <<< offset)

/-- What an opcode computes, `arg` being the results its arguments refer to. The constant buffers
are the function `cbuf` of bank and offset. Fields past bit 31 and shifts of 32 and more leave the
result open. -/
def Computes (cbuf : BitVec 32 → BitVec 32 → BitVec 32) (op : Opcode) (arg : ℕ → Datum) (result : Datum) : Prop :=
  match op with
  | .Identity => result = arg 0
  | .GetCbufU32 => ∃ bank offset, arg 0 = .u32 bank ∧ arg 1 = .u32 offset ∧ result = .u32 (cbuf bank offset)
  | .CompositeConstruct _ size =>
    ∃ elements, elements.length = size.val ∧ (∀ k x, elements[k]? = some x → arg k = .scalar x) ∧
      result = .composite elements
  | .CompositeExtract _ _ =>
    ∃ elements index x, arg 0 = .composite elements ∧ arg 1 = .u32 index ∧ elements[index.toNat]? = some x ∧
      result = .scalar x
  | .CompositeInsert _ _ =>
    ∃ elements x index, arg 0 = .composite elements ∧ arg 1 = .scalar x ∧ arg 2 = .u32 index ∧
      index.toNat < elements.length ∧ result = .composite (elements.set index.toNat x)
  | .Select _ => ∃ condition, arg 0 = .u1 condition ∧ result = if condition then arg 1 else arg 2
  | .IAdd32 => ∃ a b, arg 0 = .u32 a ∧ arg 1 = .u32 b ∧ result = .u32 (a + b)
  | .IAdd64 => ∃ a b, arg 0 = .u64 a ∧ arg 1 = .u64 b ∧ result = .u64 (a + b)
  | .ISub32 => ∃ a b, arg 0 = .u32 a ∧ arg 1 = .u32 b ∧ result = .u32 (a - b)
  | .IMul32 => ∃ a b, arg 0 = .u32 a ∧ arg 1 = .u32 b ∧ result = .u32 (a * b)
  | .ShiftLeftLogical32 =>
    ∃ base shift r, arg 0 = .u32 base ∧ arg 1 = .u32 shift ∧ result = .u32 r ∧
      (shift.toNat < 32 → r = base <<< shift)
  | .BitFieldInsert =>
    ∃ base insert offset count r, arg 0 = .u32 base ∧ arg 1 = .u32 insert ∧ arg 2 = .u32 offset ∧
      arg 3 = .u32 count ∧ result = .u32 r ∧
      (offset.toNat + count.toNat ≤ 32 → r = bitFieldInsert base insert offset count)
  | .BitFieldUExtract =>
    ∃ base offset count r, arg 0 = .u32 base ∧ arg 1 = .u32 offset ∧ arg 2 = .u32 count ∧ result = .u32 r ∧
      (offset.toNat + count.toNat ≤ 32 → r = bitFieldUExtract base offset count)
  | .LogicalOr => ∃ a b, arg 0 = .u1 a ∧ arg 1 = .u1 b ∧ result = .u1 (a || b)
  | .LogicalAnd => ∃ a b, arg 0 = .u1 a ∧ arg 1 = .u1 b ∧ result = .u1 (a && b)
  | .LogicalXor => ∃ a b, arg 0 = .u1 a ∧ arg 1 = .u1 b ∧ result = .u1 (a ^^ b)
  | .LogicalNot => ∃ a, arg 0 = .u1 a ∧ result = .u1 (!a)
  | _ => True

variable {cbuf : BitVec 32 → BitVec 32 → BitVec 32}

namespace InstStorage

/-- Instructions refer to instructions of the storage only. -/
def Closed (s : InstStorage) : Prop :=
  ∀ i < s.size, ∀ index, ((s.insts i).rawArg index).Below s.size

/-- Every instruction of the storage yields what its opcode computes. -/
def Models (cbuf : BitVec 32 → BitVec 32 → BitVec 32) (s : InstStorage) (ρ : Valuation) : Prop :=
  ∀ i < s.size, Computes cbuf (s.op i) (fun index => ((s.insts i).rawArg index).denote ρ) (ρ i)

variable {s s' : InstStorage} {ρ : Valuation}

theorem resolveFor_below (hs : s.Closed) (n : ℕ) {value : Value} (hv : value.Below s.size) :
    (s.resolveFor n value).Below s.size := by
  induction n generalizing value with
  | zero => exact hv
  | succ n ih =>
    cases value with
    | imm payload => exact hv
    | inst i =>
      rw [resolveFor]
      split
      · exact ih (hs i (Value.below_inst.mp hv) 0)
      · exact hv

theorem denote_resolveFor (hs : s.Closed) (h : s.Models cbuf ρ) (n : ℕ) {value : Value}
    (hv : value.Below s.size) : (s.resolveFor n value).denote ρ = value.denote ρ := by
  induction n generalizing value with
  | zero => rfl
  | succ n ih =>
    cases value with
    | imm payload => rfl
    | inst i =>
      have hi := Value.below_inst.mp hv
      rw [resolveFor]
      split
      next hid =>
        have hc := h i hi
        rw [hid] at hc
        rw [ih (hs i hi 0)]
        exact hc.symm
      next => rfl

@[simp] theorem resolve_imm (s : InstStorage) (payload : Imm) : s.resolve (.imm payload) = .imm payload := by
  unfold resolve
  cases s.size <;> rfl

theorem arg_below (hs : s.Closed) {i : ℕ} (hi : i < s.size) (index : ℕ) : (s.arg i index).Below s.size :=
  resolveFor_below hs s.size (hs i hi index)

theorem denote_arg (hs : s.Closed) (h : s.Models cbuf ρ) {i : ℕ} (hi : i < s.size) (index : ℕ) :
    (s.arg i index).denote ρ = ((s.insts i).rawArg index).denote ρ :=
  denote_resolveFor hs h s.size (hs i hi index)

/-- The arguments with the identities looked through compute the same. -/
theorem Models.computes (h : s.Models cbuf ρ) (hs : s.Closed) {i : ℕ} (hi : i < s.size) :
    Computes cbuf (s.op i) (fun index => (s.arg i index).denote ρ) (ρ i) := by
  have hargs : (fun index => (s.arg i index).denote ρ) = fun index => ((s.insts i).rawArg index).denote ρ := by
    funext index
    exact denote_arg hs h hi index
  rw [hargs]
  exact h i hi

theorem Models.computes_op (h : s.Models cbuf ρ) (hs : s.Closed) {i : ℕ} (hi : i < s.size) {opcode : Opcode}
    (hop : s.op i = opcode) : Computes cbuf opcode (fun index => (s.arg i index).denote ρ) (ρ i) :=
  hop ▸ h.computes hs hi

theorem instIndex_eq_some {value : Value} {j : ℕ} (h : value.instIndex = some j) : value = .inst j := by
  cases value with
  | imm payload => cases h
  | inst i =>
    cases h
    rfl

theorem get_spec (hs : s.Closed) (h : s.Models cbuf ρ) {value : Value} (hv : value.Below s.size) {j : ℕ}
    (hget : s.get value = some j) : j < s.size ∧ value.denote ρ = ρ j := by
  have hres := instIndex_eq_some hget
  constructor
  · have hbelow := resolveFor_below hs s.size hv
    change s.resolveFor s.size value = .inst j at hres
    rw [hres] at hbelow
    exact Value.below_inst.mp hbelow
  · rw [← denote_resolveFor hs h s.size hv]
    change s.resolveFor s.size value = .inst j at hres
    rw [hres]
    rfl

/-- The instruction an argument refers to yields what the argument does. -/
theorem argInst_spec (hs : s.Closed) (h : s.Models cbuf ρ) {i index j : ℕ} (hi : i < s.size)
    (harg : s.argInst i index = some j) : j < s.size ∧ (s.arg i index).denote ρ = ρ j := by
  obtain ⟨hj, hval⟩ := get_spec hs h (hs i hi index) harg
  rw [denote_arg hs h hi index]
  exact ⟨hj, hval⟩

theorem argInst_eq (i index : ℕ) : s.argInst i index = (s.arg i index).instIndex := rfl

/-! ### Storages without cycles -/

/-- Positions of the instructions: arguments come before what they are arguments of, the operands
of phi instructions apart. -/
structure Ordered (s : InstStorage) (position : ℕ → ℕ) : Prop where
  bound : ∀ i < s.size, position i < s.size
  before : ∀ i < s.size, s.op i ≠ .Phi → ∀ index j, (s.insts i).rawArg index = .inst j → position j < position i

section Ordered

variable {position : ℕ → ℕ} (ho : s.Ordered position) (hs : s.Closed)
include ho hs

theorem resolveFor_position {n i j : ℕ} (hi : i < s.size) (hres : s.resolveFor n (.inst i) = .inst j) :
    position j ≤ position i := by
  induction n generalizing i with
  | zero =>
    cases hres
    exact Nat.le_refl _
  | succ n ih =>
    rw [resolveFor] at hres
    split at hres
    next hid =>
      cases harg : (s.insts i).rawArg 0 with
      | imm payload =>
        rw [harg] at hres
        cases n <;> cases hres
      | inst k =>
        rw [harg] at hres
        have hk : k < s.size := Value.below_inst.mp (harg ▸ hs i hi 0)
        have hlt := ho.before i hi (by rw [hid]; decide) 0 k harg
        exact Nat.le_of_lt (Nat.lt_of_le_of_lt (ih hk hres) hlt)
    next =>
      cases hres
      exact Nat.le_refl _

theorem arg_position {i index k : ℕ} (hi : i < s.size) (hop : s.op i ≠ .Phi) (harg : s.arg i index = .inst k) :
    position k < position i := by
  cases hraw : (s.insts i).rawArg index with
  | imm payload =>
    rw [arg, hraw, resolve_imm] at harg
    cases harg
  | inst l =>
    have hl : l < s.size := Value.below_inst.mp (hraw ▸ hs i hi index)
    rw [arg, hraw] at harg
    exact Nat.lt_of_le_of_lt (resolveFor_position ho hs hl harg) (ho.before i hi hop index l hraw)

end Ordered

/-! ### Models of changed storages -/

section Changes

variable {i : ℕ} {f : Inst → Inst} (hcodes : SameCodes s' (s.modify i f))
include hcodes

theorem rawArg_of_ne {j : ℕ} (hj : j ≠ i) (index : ℕ) : (s'.insts j).rawArg index = (s.insts j).rawArg index := by
  have hcode := hcodes.code j
  rw [insts_modify, if_neg hj] at hcode
  exact hcode.rawArg index

theorem op_of_ne {j : ℕ} (hj : j ≠ i) : s'.op j = s.op j := by
  have hcode := hcodes.code j
  rw [insts_modify, if_neg hj] at hcode
  exact hcode.1

theorem code_of_eq : SameCode (s'.insts i) (f (s.insts i)) := by
  have hcode := hcodes.code i
  rwa [insts_modify, if_pos rfl] at hcode

theorem closed_of_modify (hs : s.Closed) (hf : ∀ index, ((f (s.insts i)).rawArg index).Below s.size) :
    s'.Closed := by
  intro j hj index
  have hsize : s'.size = s.size := hcodes.size
  rw [hsize] at hj ⊢
  by_cases hji : j = i
  · subst hji
    rw [(code_of_eq hcodes).rawArg]
    exact hf index
  · rw [rawArg_of_ne hcodes hji]
    exact hs j hj index

theorem models_of_modify (h : s.Models cbuf ρ)
    (hf : Computes cbuf (f (s.insts i)).op (fun index => ((f (s.insts i)).rawArg index).denote ρ) (ρ i)) :
    s'.Models cbuf ρ := by
  intro j hj
  have hsize : s'.size = s.size := hcodes.size
  rw [hsize] at hj
  by_cases hji : j = i
  · subst hji
    rw [InstStorage.op, (code_of_eq hcodes).1]
    simpa only [(code_of_eq hcodes).rawArg] using hf
  · rw [op_of_ne hcodes hji]
    simpa only [rawArg_of_ne hcodes hji] using h j hj

end Changes

namespace Emitted

variable {opcode : Opcode} {a b : Value} (hemitted : Emitted s' s opcode a b)
include hemitted

theorem closed (hs : s.Closed) (ha : a.Below s.size) (hb : b.Below s.size) : s'.Closed := by
  intro j hj index
  have hle : s.size ≤ s'.size := by
    rw [hemitted.size]
    exact Nat.le_succ _
  apply Value.Below.mono hle
  by_cases hjs : j = s.size
  · subst hjs
    rw [hemitted.arg]
    split
    · exact ha
    · split
      · exact hb
      · exact Value.below_imm _ _
  · have hlt : j < s.size := by
      rw [hemitted.size] at hj
      omega
    rw [(hemitted.code j hlt).rawArg]
    exact hs j hlt index

theorem models (hs : s.Closed) (h : s.Models cbuf ρ) (ha : a.Below s.size) (hb : b.Below s.size) {d : Datum}
    (hd : Computes cbuf opcode
      (fun index => (if index = 0 then a else if index = 1 then b else .imm .void).denote ρ) d) :
    s'.Models cbuf (Function.update ρ s.size d) := by
  have hold : ∀ j < s.size, Function.update ρ s.size d j = ρ j := by
    intro j hj
    exact Function.update_of_ne (Nat.ne_of_lt hj) _ _
  intro j hj
  by_cases hjs : j = s.size
  · subst hjs
    have hargs : (fun index => ((s'.insts s.size).rawArg index).denote (Function.update ρ s.size d)) =
        fun index => (if index = 0 then a else if index = 1 then b else .imm .void).denote ρ := by
      funext index
      rw [hemitted.arg]
      apply Value.denote_congr hold
      split
      · exact ha
      · split
        · exact hb
        · exact Value.below_imm _ _
    rw [hemitted.op, hargs, Function.update_self]
    exact hd
  · have hlt : j < s.size := by
      rw [hemitted.size] at hj
      omega
    have hargs : (fun index => ((s'.insts j).rawArg index).denote (Function.update ρ s.size d)) =
        fun index => ((s.insts j).rawArg index).denote ρ := by
      funext index
      rw [(hemitted.code j hlt).rawArg]
      exact Value.denote_congr hold (hs j hlt index)
    rw [InstStorage.op, (hemitted.code j hlt).1, hargs, hold j hlt]
    exact h j hlt

end Emitted

/-- The instructions of `s` have the results in `s'` that they have in `s`. -/
def KeepsValues (cbuf : BitVec 32 → BitVec 32 → BitVec 32) (s' s : InstStorage) (ρ : Valuation) : Prop :=
  ∃ ρ', (∀ i < s.size, ρ' i = ρ i) ∧ s'.Models cbuf ρ'

end InstStorage
end IR
end Shader
end Citron
