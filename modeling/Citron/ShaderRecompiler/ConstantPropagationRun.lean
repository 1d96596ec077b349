/-
# Constant propagation over a program

`FoldISub32` takes a constant buffer read away from a sum it is part of. It sorts the two operands
first and so forgets which was subtracted: a sum taken away from the read is folded to the addend
and not to its negation. No other structural fold changes a value.
-/
import Citron.ShaderRecompiler.ConstantPropagationXmad
import Mathlib.Tactic.IntervalCases
import Mathlib.Tactic.Ring

namespace Citron
namespace Shader
namespace Optimization

open IR InstStorage

variable {cbuf : BitVec 32 → BitVec 32 → BitVec 32} {s : InstStorage} {ρ : Valuation} {i : ℕ}

/-! ### Differences -/

/-- The addend of the sum that is subtracted from a constant buffer read it contains. -/
def cbufMinusSum (s : InstStorage) (i : ℕ) : Option Value := do
  guard (s.op i = .ISub32)
  let opA ← s.argInst i 0
  let opB ← s.argInst i 1
  guard (s.op opB = .IAdd32)
  addendOf s opB opA

/-- The rest of the sum and the constant buffer word it is the sum with. -/
theorem addendOf_spec (hs : s.Closed) (h : s.Models cbuf ρ) {opA opB : ℕ} (hltA : opA < s.size)
    (hltB : opB < s.size) {x : Value} (hfind : addendOf s opA opB = some x) :
    x.Below s.size ∧ ∃ w c, x.denote ρ = .u32 w ∧ ρ opB = .u32 c ∧ ρ opA = .u32 (w + c) := by
  obtain ⟨hcbuf, hfind⟩ := guard_some hfind
  obtain ⟨hadd, hfind⟩ := guard_some hfind
  obtain ⟨l, r, hl, hr, hsum⟩ := iAdd32_spec hs h hltA hadd
  by_cases himm : (s.arg opA 1).isImmediate = true
  · rw [if_pos himm] at hfind
    obtain ⟨-, hfind⟩ := guard_some hfind
    obtain ⟨j, hget, hfind⟩ := bind_some hfind
    obtain ⟨hequal, hfind⟩ := guard_some hfind
    cases hfind
    obtain ⟨hj, hval⟩ := get_spec hs h (arg_below hs hltA 0) hget
    have hread : ρ opB = .u32 l := (equalCbuf_spec hs h hj hltB hequal).symm.trans (hval.symm.trans hl)
    exact ⟨arg_below hs hltA 1, r, l, hr, hread, hsum.trans (congrArg Datum.u32 (BitVec.add_comm l r))⟩
  · rw [if_neg himm] at hfind
    obtain ⟨-, hfind⟩ := guard_some hfind
    obtain ⟨j, hget, hfind⟩ := bind_some hfind
    obtain ⟨hequal, hfind⟩ := guard_some hfind
    cases hfind
    obtain ⟨hj, hval⟩ := get_spec hs h (arg_below hs hltA 1) hget
    have hread : ρ opB = .u32 r := (equalCbuf_spec hs h hj hltB hequal).symm.trans (hval.symm.trans hr)
    exact ⟨arg_below hs hltA 0, l, r, hl, hread, hsum⟩

/-- The condition under which the fold of an instruction keeps the values: twice the addend is zero
where a sum is subtracted from a constant buffer read. -/
def AddendIsOwnNegation (s : InstStorage) (ρ : Valuation) (i : ℕ) : Prop :=
  ∀ x, cbufMinusSum s i = some x → ∀ w, x.denote ρ = .u32 w → w + w = 0

/-- The fold returns, and keeps the values exactly under the condition. -/
def FoldsUnlessNegated (cbuf : BitVec 32 → BitVec 32 → BitVec 32) (s : InstStorage) (ρ : Valuation) (i : ℕ)
    (result : Except Exception InstStorage) : Prop :=
  ∃ s', result = .ok s' ∧ s.size ≤ s'.size ∧ s'.Closed ∧ (s'.KeepsValues cbuf s ρ ↔ AddendIsOwnNegation s ρ i)

theorem FoldsSoundly.unlessNegated {result : Except Exception InstStorage} (h : FoldsSoundly cbuf s ρ result)
    (hnone : cbufMinusSum s i = none) : FoldsUnlessNegated cbuf s ρ i result := by
  obtain ⟨s', hs', hle, hclosed, hkeeps⟩ := h
  refine ⟨s', hs', hle, hclosed, fun _ x hx => ?_, fun _ => hkeeps⟩
  rw [hnone] at hx
  cases hx

theorem argInst_none {index : ℕ} (himm : (s.arg i index).isImmediate = true) : s.argInst i index = none := by
  rw [argInst_eq]
  cases harg : s.arg i index with
  | imm payload => rfl
  | inst j =>
    rw [harg] at himm
    cases himm

theorem areAllArgsImmediates_iSub32 (hop : s.op i = .ISub32) :
    s.areAllArgsImmediates i = ((s.arg i 0).isImmediate && (s.arg i 1).isImmediate) := by
  have hnum : (s.insts i).numArgs = 2 := numArgs_of_op hop (by decide) rfl
  rw [areAllArgsImmediates, hnum]
  simp [List.range_succ]

theorem cbufMinusSum_of_argInst {opA opB : ℕ} (hop : s.op i = .ISub32) (hA : s.argInst i 0 = some opA)
    (hB : s.argInst i 1 = some opB) :
    cbufMinusSum s i = if s.op opB = .IAdd32 then addendOf s opB opA else none := by
  simp only [cbufMinusSum, hop, hA, hB, guard_true, Option.pure_def, Option.bind_eq_bind, Option.bind_some]
  split
  next hadd => simp [hadd]
  next hadd => simp [hadd]

/-- The folded sum, taken away from the read it contains, is the negated addend. -/
theorem foldISub32_swapped (hs : s.Closed) (h : s.Models cbuf ρ) (hi : i < s.size) (hop : s.op i = .ISub32)
    {opA opB : ℕ} (hA : s.argInst i 0 = some opA) (hB : s.argInst i 1 = some opB) (hadd : s.op opB = .IAdd32)
    {x : Value} (hfind : addendOf s opB opA = some x) :
    FoldsUnlessNegated cbuf s ρ i (s.replaceUsesWith i x) := by
  obtain ⟨hltA, hvalA⟩ := argInst_spec hs h hi hA
  obtain ⟨hltB, hvalB⟩ := argInst_spec hs h hi hB
  obtain ⟨hx, w, c, hw, hread, hsum⟩ := addendOf_spec hs h hltB hltA hfind
  obtain ⟨a, b, ha, hb, hres⟩ : ∃ a b, (s.arg i 0).denote ρ = .u32 a ∧ (s.arg i 1).denote ρ = .u32 b ∧
      ρ i = .u32 (a - b) := h.computes_op hs hi hop
  have hac : a = c := u32_inj (ha.symm.trans (hvalA.trans hread))
  have hbc : b = w + c := u32_inj (hb.symm.trans (hvalB.trans hsum))
  have hneg : a - b = -w := by
    rw [hac, hbc]
    ring
  have hcond : AddendIsOwnNegation s ρ i ↔ w + w = 0 := by
    rw [AddendIsOwnNegation, cbufMinusSum_of_argInst hop hA hB, if_pos hadd, hfind]
    constructor
    · intro hall
      exact hall x rfl w hw
    · rintro hww _ ⟨⟩ w' hw'
      rw [hw] at hw'
      cases hw'
      exact hww
  obtain ⟨s', hs', hsize, hclosed, hmodels, hval⟩ :=
    replaceUsesWith_spec cbuf ρ hs (by rw [hop]; rfl) hx
  refine ⟨s', hs', Nat.le_of_eq hsize.symm, hclosed, Iff.trans ⟨?_, ?_⟩ hcond.symm⟩
  · intro hkeeps
    obtain ⟨ρ', hagree, hmodels'⟩ := hkeeps
    have hi' := hval hi ρ' hmodels'
    rw [hagree i hi, hres, Value.denote_congr hagree hx, hw] at hi'
    have hww : -w = w := hneg ▸ u32_inj hi'
    exact add_eq_zero_iff_eq_neg.mpr hww.symm
  · intro hww
    refine ⟨ρ, fun _ _ => rfl, hmodels h ?_⟩
    rw [hw, hres, hneg]
    exact congrArg Datum.u32 (add_eq_zero_iff_eq_neg.mp hww)

theorem foldISub32_spec (hs : s.Closed) (h : s.Models cbuf ρ) (hi : i < s.size) (hop : s.op i = .ISub32) :
    FoldsUnlessNegated cbuf s ρ i (foldISub32 s i) := by
  have hlink : (s.op i).pseudoLink = none := by
    rw [hop]
    rfl
  obtain ⟨a, b, ha, hb, hres⟩ : ∃ a b, (s.arg i 0).denote ρ = .u32 a ∧ (s.arg i 1).denote ρ = .u32 b ∧
      ρ i = .u32 (a - b) := h.computes_op hs hi hop
  unfold foldISub32
  split
  next hall =>
    rw [areAllArgsImmediates_iSub32 hop, Bool.and_eq_true] at hall
    apply FoldsSoundly.unlessNegated
    · apply replaceUsesWith_sound hs h hlink (Value.below_imm _ _)
      rw [argOf_imm hall.1.1 ha, argOf_imm hall.1.2 hb, hres]
      rfl
    · simp [cbufMinusSum, argInst_none hall.1.1]
  next =>
    split
    next opA opB hA hB =>
      obtain ⟨hltA, hvalA⟩ := argInst_spec hs h hi hA
      obtain ⟨hltB, hvalB⟩ := argInst_spec hs h hi hB
      have hminus := cbufMinusSum_of_argInst hop hA hB
      split
      next hequal =>
        apply FoldsSoundly.unlessNegated
        · apply replaceUsesWith_sound hs h hlink (Value.below_imm _ _)
          have hab : a = b := u32_inj (ha.symm.trans (hvalA.trans ((equalCbuf_spec hs h hltA hltB hequal).trans
            (hvalB.symm.trans hb))))
          rw [hres, hab, BitVec.sub_self]
          rfl
        · obtain ⟨-, hcbuf, -⟩ := of_decide_eq_true hequal
          rw [hminus, hcbuf]
          rfl
      next =>
        by_cases hadd : s.op opB = .IAdd32
        · simp only [if_pos hadd]
          cases hfind : addendOf s opB opA with
          | some x => exact foldISub32_swapped hs h hi hop hA hB hadd hfind
          | none =>
            apply (foldsSoundly_self hs h).unlessNegated
            rw [hminus, if_pos hadd, hfind]
        · simp only [if_neg hadd]
          have hnone : cbufMinusSum s i = none := by
            rw [hminus, if_neg hadd]
          cases hfind : addendOf s opA opB with
          | none => exact (foldsSoundly_self hs h).unlessNegated hnone
          | some x =>
            obtain ⟨hx, w, c, hw, hread, hsum⟩ := addendOf_spec hs h hltA hltB hfind
            have hac : a = w + c := u32_inj (ha.symm.trans (hvalA.trans hsum))
            have hbc : b = c := u32_inj (hb.symm.trans (hvalB.trans hread))
            apply (replaceUsesWith_sound hs h hlink hx ?_).unlessNegated hnone
            rw [hw, hres, hac, hbc, BitVec.add_sub_cancel]
    next hnone =>
      apply (foldsSoundly_self hs h).unlessNegated
      cases hA : s.argInst i 0 with
      | none => simp [cbufMinusSum, hA]
      | some opA =>
        cases hB : s.argInst i 1 with
        | none => simp [cbufMinusSum, hB]
        | some opB => exact absurd hB (hnone opA opB hA)

/-! ### One instruction -/

theorem cbufMinusSum_of_op (hop : s.op i ≠ .ISub32) : cbufMinusSum s i = none := by
  simp [cbufMinusSum, hop]

theorem structuralFold_spec (hs : s.Closed) (h : s.Models cbuf ρ) (hi : i < s.size) (block : ℕ) :
    FoldsUnlessNegated cbuf s ρ i (structuralFold s block i) := by
  by_cases hsub : s.op i = .ISub32
  · rw [structuralFold, hsub]
    exact foldISub32_spec hs h hi hsub
  apply FoldsSoundly.unlessNegated _ (cbufMinusSum_of_op hsub)
  unfold structuralFold
  split
  next hop => exact foldAdd32_sound hs h hi hop block
  next hop => exact absurd hop hsub
  next hop => exact foldAdd64_sound hs h hi hop
  next hop => exact foldSelect_sound hs h hi hop
  next hop => exact foldLogicalAnd_sound hs h hi hop
  next hop => exact foldLogicalOr_sound hs h hi hop
  next hop => exact foldLogicalNot_sound hs h hi hop
  next element size hop =>
    split
    next => exact foldCompositeExtract_sound hs h hi hop
    next => exact foldsSoundly_self hs h
  next => exact foldsSoundly_self hs h

/-- **A structural fold returns, and every instruction of the storage has the result it had, exactly
unless a sum that is subtracted from a constant buffer read it contains has an addend that is not
its own negation.** -/
theorem structuralFold_keepsValues_iff (hs : s.Closed) (h : s.Models cbuf ρ) (hi : i < s.size) (block : ℕ) :
    (∃ s', structuralFold s block i = .ok s' ∧ s'.KeepsValues cbuf s ρ) ↔ AddendIsOwnNegation s ρ i := by
  obtain ⟨s', hs', -, -, hiff⟩ := structuralFold_spec hs h hi block
  constructor
  · intro hkeeps
    obtain ⟨t, ht, hkeeps⟩ := hkeeps
    rw [hs'] at ht
    cases ht
    exact hiff.mp hkeeps
  · intro hown
    exact ⟨s', hs', hiff.mpr hown⟩

/-- A constant buffer word, its sum with 5, and the differences of the two in both orders. -/
def sumAndRead : InstStorage where
  insts
    | 0 => { op := .GetCbufU32, args := #v[immediate 0#32, immediate 4#32, .imm .void, .imm .void, .imm .void] }
    | 1 => { op := .IAdd32, args := #v[.inst 0, immediate 5#32, .imm .void, .imm .void, .imm .void] }
    | 2 => { op := .ISub32, args := #v[.inst 1, .inst 0, .imm .void, .imm .void, .imm .void] }
    | 3 => { op := .ISub32, args := #v[.inst 0, .inst 1, .imm .void, .imm .void, .imm .void] }
    | _ => { op := .Void }
  size := 4
  blocks _ := [0, 1, 2, 3]

/-- The results when the word is 7. -/
def sumAndReadResults : Valuation
  | 0 => .u32 7#32
  | 1 => .u32 12#32
  | 2 => .u32 5#32
  | _ => .u32 (-5#32)

theorem sumAndRead_closed : sumAndRead.Closed := by
  intro i hi index
  have hi' : i < 4 := hi
  interval_cases i <;> match index with
    | 0 | 1 | 2 | 3 | 4 => simp [sumAndRead, Inst.rawArg, immediate]
    | n + 5 => simp [sumAndRead, Inst.rawArg]

theorem sumAndRead_models : sumAndRead.Models (fun _ _ => 7#32) sumAndReadResults := by
  intro i hi
  have hi' : i < 4 := hi
  interval_cases i
  · exact ⟨0#32, 4#32, rfl, rfl, rfl⟩
  · exact ⟨7#32, 5#32, rfl, rfl, rfl⟩
  · exact ⟨12#32, 7#32, rfl, rfl, rfl⟩
  · exact ⟨7#32, 12#32, rfl, rfl, rfl⟩

theorem structuralFold_keepsValues_sumMinusRead :
    ∃ s', structuralFold sumAndRead 0 2 = .ok s' ∧ s'.KeepsValues (fun _ _ => 7#32) sumAndRead sumAndReadResults :=
  (structuralFold_keepsValues_iff sumAndRead_closed sumAndRead_models (by decide) 0).mpr
    fun x hx => absurd (hx.symm.trans (show cbufMinusSum sumAndRead 2 = none from rfl)) (by simp)

/-- The difference of the word and the sum is folded to 5. -/
theorem structuralFold_readMinusSum :
    sumAndRead.Closed ∧ sumAndRead.Models (fun _ _ => 7#32) sumAndReadResults ∧
      ¬ ∃ s', structuralFold sumAndRead 0 3 = .ok s' ∧
        s'.KeepsValues (fun _ _ => 7#32) sumAndRead sumAndReadResults := by
  refine ⟨sumAndRead_closed, sumAndRead_models, ?_⟩
  intro hkeeps
  obtain ⟨s', hs', hvalues⟩ := hkeeps
  obtain ⟨t, ht, -, -, hiff⟩ := structuralFold_spec (i := 3) sumAndRead_closed sumAndRead_models (by decide) 0
  rw [hs'] at ht
  cases ht
  have hfive := hiff.mp hvalues (immediate 5#32) rfl 5#32 rfl
  exact absurd hfive (by decide)

/-! ### A program -/

/-- The pass: the instructions of the blocks in turn, each with its block. -/
def structuralFolds (s : InstStorage) : List (ℕ × ℕ) → Except Exception InstStorage
  | [] => .ok s
  | (block, i) :: visits => do
    let s₁ ← structuralFold s block i
    structuralFolds s₁ visits

/-- No visit finds a sum subtracted from a constant buffer read it contains. -/
def NeverSubtractsSum (s : InstStorage) : List (ℕ × ℕ) → Prop
  | [] => True
  | (block, i) :: visits =>
    cbufMinusSum s i = none ∧ ∀ s₁, structuralFold s block i = .ok s₁ → NeverSubtractsSum s₁ visits

/-- **The pass returns a storage in which every instruction has the result it had.** -/
theorem structuralFolds_keepsValues (hs : s.Closed) (h : s.Models cbuf ρ) {visits : List (ℕ × ℕ)}
    (hvisits : ∀ visit ∈ visits, visit.2 < s.size) (hnever : NeverSubtractsSum s visits) :
    FoldsSoundly cbuf s ρ (structuralFolds s visits) := by
  induction visits generalizing s ρ with
  | nil => exact foldsSoundly_self hs h
  | cons visit visits ih =>
    obtain ⟨block, i⟩ := visit
    obtain ⟨hnone, hrest⟩ := hnever
    have hi : i < s.size := hvisits (block, i) List.mem_cons_self
    obtain ⟨s₁, hs₁, hle₁, hclosed₁, hiff⟩ := structuralFold_spec hs h hi block
    obtain ⟨ρ₁, hagree₁, hmodels₁⟩ := hiff.mpr fun x hx => absurd (hnone.symm.trans hx) (by simp)
    have hvisits₁ : ∀ visit ∈ visits, visit.2 < s₁.size := fun visit hvisit =>
      Nat.lt_of_lt_of_le (hvisits visit (List.mem_cons_of_mem _ hvisit)) hle₁
    obtain ⟨s₂, hs₂, hle₂, hclosed₂, ρ₂, hagree₂, hmodels₂⟩ := ih hclosed₁ hmodels₁ hvisits₁ (hrest s₁ hs₁)
    refine ⟨s₂, ?_, Nat.le_trans hle₁ hle₂, hclosed₂, ρ₂, fun j hj => ?_, hmodels₂⟩
    · rw [structuralFolds, hs₁]
      exact hs₂
    · exact (hagree₂ j (Nat.lt_of_lt_of_le hj hle₁)).trans (hagree₁ j hj)

theorem structuralFolds_keepsValues_sumAndRead :
    FoldsSoundly (fun _ _ => 7#32) sumAndRead sumAndReadResults (structuralFolds sumAndRead [(0, 1), (0, 2)]) :=
  structuralFolds_keepsValues sumAndRead_closed sumAndRead_models (by decide)
    ⟨rfl, fun s₁ hs₁ => ⟨by cases hs₁; rfl, fun _ _ => trivial⟩⟩

end Optimization
end Shader
end Citron
