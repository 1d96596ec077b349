/-
# Multiplications by halves

The sums the `XMAD` folds look for are products: with `a = hi * 2^16 + lo` the partial products of
the halves add up to the product modulo `2^32`.
-/
import Citron.ShaderRecompiler.ConstantPropagationFolds

namespace Citron
namespace Shader
namespace Optimization

open IR InstStorage Function BitVec

/-! ### Halves of words -/

/-- The two halves of a word. -/
def lowHalf (a : BitVec 32) : BitVec 32 := bitFieldUExtract a 0#32 16#32

def highHalf (a : BitVec 32) : BitVec 32 := bitFieldUExtract a 16#32 16#32

theorem fieldMask_sixteen : IR.fieldMask 16#32 = BitVec.ofNat 32 (2 ^ 16 - 1) := by decide

theorem toNat_lowHalf (a : BitVec 32) : (lowHalf a).toNat = a.toNat % 2 ^ 16 := by
  rw [lowHalf, bitFieldUExtract, fieldMask_sixteen, toNat_and]
  change (a >>> (0 : ℕ)).toNat &&& (2 ^ 16 - 1) = _
  rw [Nat.and_two_pow_sub_one_eq_mod, toNat_ushiftRight, Nat.shiftRight_zero]

theorem toNat_highHalf (a : BitVec 32) : (highHalf a).toNat = a.toNat / 2 ^ 16 := by
  rw [highHalf, bitFieldUExtract, fieldMask_sixteen, toNat_and]
  change (a >>> (16 : ℕ)).toNat &&& (2 ^ 16 - 1) = _
  rw [Nat.and_two_pow_sub_one_eq_mod, toNat_ushiftRight, Nat.shiftRight_eq_div_pow]
  omega

theorem lowHalf_lowHalf (a : BitVec 32) : lowHalf (lowHalf a) = lowHalf a := by
  apply eq_of_toNat_eq
  rw [toNat_lowHalf, toNat_lowHalf, Nat.mod_mod]

theorem halves (a : BitVec 32) : highHalf a * 65536#32 + lowHalf a = a := by
  apply eq_of_toNat_eq
  rw [toNat_add, toNat_mul, toNat_highHalf, toNat_lowHalf]
  change (a.toNat / 2 ^ 16 * 2 ^ 16 % 2 ^ 32 + a.toNat % 2 ^ 16) % 2 ^ 32 = _
  omega

theorem shiftLeft_sixteen (a : BitVec 32) : a <<< 16#32 = a * 65536#32 := by
  have hpow : 65536#32 = BitVec.twoPow 32 16 := by decide
  rw [hpow, mul_twoPow_eq_shiftLeft]
  rfl

theorem getLsbD_fieldMask (k : ℕ) : (IR.fieldMask 16#32).getLsbD k = decide (k < 16) := by
  rw [fieldMask_sixteen, getLsbD_ofNat, Nat.testBit_two_pow_sub_one]
  by_cases hk : k < 16
  · simp [hk, Nat.lt_trans hk]
  · simp [hk]

theorem getLsbD_shiftLeft_sixteen (a : BitVec 32) (k : ℕ) :
    (a <<< 16#32).getLsbD k = (decide (16 ≤ k ∧ k < 32) && a.getLsbD (k - 16)) := by
  rw [shiftLeft_eq', getLsbD_shiftLeft]
  change (decide (k < 32) && !decide (k < 16) && a.getLsbD (k - 16)) = _
  grind

theorem getLsbD_ushiftRight_sixteen (a : BitVec 32) (k : ℕ) : (a >>> 16#32).getLsbD k = a.getLsbD (k + 16) := by
  rw [ushiftRight_eq', getLsbD_ushiftRight, Nat.add_comm]
  rfl

/-- The high half of an insertion at bit 16 is what was inserted. -/
theorem highHalf_insert (a b : BitVec 32) : highHalf (bitFieldInsert a b 16#32 16#32) = lowHalf b := by
  have hb : b >>> 0#32 = b := by simp
  apply eq_of_getLsbD_eq
  intro k hk
  simp only [highHalf, lowHalf, bitFieldInsert, bitFieldUExtract, getLsbD_and, getLsbD_or,
    getLsbD_not, getLsbD_ushiftRight_sixteen, getLsbD_fieldMask, getLsbD_shiftLeft_sixteen, hb]
  grind

/-- The low half is kept, and nothing else of it is left after a shift by 16. -/
theorem shiftLeft_insert (a b : BitVec 32) : bitFieldInsert a b 16#32 16#32 <<< 16#32 = a <<< 16#32 := by
  apply eq_of_getLsbD_eq
  intro k hk
  simp only [bitFieldInsert, getLsbD_and, getLsbD_or, getLsbD_not, getLsbD_fieldMask,
    getLsbD_shiftLeft_sixteen]
  grind

theorem square_shift : 65536#32 * 65536#32 = (0 : BitVec 32) := by decide

theorem multiply_halves (a b : BitVec 32) : ((highHalf a * b) <<< 16#32) + lowHalf a * b = a * b := by
  have ha := halves a
  rw [shiftLeft_sixteen]
  linear_combination b * ha

theorem multiplyAdd_halves (a b c : BitVec 32) :
    ((highHalf b * lowHalf a) <<< 16#32) + (((lowHalf b * highHalf a) <<< 16#32) + (lowHalf b * lowHalf a + c)) =
      a * b + c := by
  have ha := halves a
  have hb := halves b
  have hsq := square_shift
  rw [shiftLeft_sixteen, shiftLeft_sixteen]
  linear_combination (highHalf b * 65536#32 + lowHalf b) * ha + a * hb - highHalf a * highHalf b * hsq

/-! ### What the instructions of the patterns yield -/

variable {cbuf : BitVec 32 → BitVec 32 → BitVec 32} {s : InstStorage} {ρ : Valuation} {i : ℕ}

section Patterns

variable (hs : s.Closed) (h : s.Models cbuf ρ) {j : ℕ} (hj : j < s.size)
include hs h hj

theorem iMul32_spec (hop : s.op j = .IMul32) :
    ∃ a b, (s.arg j 0).denote ρ = .u32 a ∧ (s.arg j 1).denote ρ = .u32 b ∧ ρ j = .u32 (a * b) :=
  h.computes_op hs hj hop

theorem iAdd32_spec (hop : s.op j = .IAdd32) :
    ∃ a b, (s.arg j 0).denote ρ = .u32 a ∧ (s.arg j 1).denote ρ = .u32 b ∧ ρ j = .u32 (a + b) :=
  h.computes_op hs hj hop

theorem shift_spec (hop : s.op j = .ShiftLeftLogical32) (hshift : s.arg j 1 = immediate 16#32) :
    ∃ a, (s.arg j 0).denote ρ = .u32 a ∧ ρ j = .u32 (a <<< 16#32) := by
  obtain ⟨base, shift, r, hbase, hsh, hres, hr⟩ : ∃ base shift r : BitVec 32,
      (s.arg j 0).denote ρ = .u32 base ∧ (s.arg j 1).denote ρ = .u32 shift ∧ ρ j = .u32 r ∧
        (shift.toNat < 32 → r = base <<< shift) := h.computes_op hs hj hop
  rw [hshift] at hsh
  cases hsh
  exact ⟨base, hbase, hres.trans (congrArg Datum.u32 (hr (by decide)))⟩

theorem extract_spec {offset : BitVec 32} (hextracts : extracts s j offset 16#32 = true)
    (hoffset : offset.toNat + 16 ≤ 32) :
    ∃ a, (s.arg j 0).denote ρ = .u32 a ∧ ρ j = .u32 (bitFieldUExtract a offset 16#32) := by
  obtain ⟨hop, hoff, hcount⟩ := of_decide_eq_true hextracts
  obtain ⟨base, off, count, r, hbase, ho, hc, hres, hr⟩ : ∃ base off count r : BitVec 32,
      (s.arg j 0).denote ρ = .u32 base ∧ (s.arg j 1).denote ρ = .u32 off ∧ (s.arg j 2).denote ρ = .u32 count ∧
        ρ j = .u32 r ∧ (off.toNat + count.toNat ≤ 32 → r = bitFieldUExtract base off count) :=
    h.computes_op hs hj hop
  rw [hoff] at ho
  rw [hcount] at hc
  cases ho
  cases hc
  exact ⟨base, hbase, hres.trans (congrArg Datum.u32 (hr hoffset))⟩

theorem lowHalf_spec (hextracts : extracts s j 0#32 16#32 = true) :
    ∃ a, (s.arg j 0).denote ρ = .u32 a ∧ ρ j = .u32 (lowHalf a) :=
  extract_spec hs h hj hextracts (by decide)

theorem highHalf_spec (hextracts : extracts s j 16#32 16#32 = true) :
    ∃ a, (s.arg j 0).denote ρ = .u32 a ∧ ρ j = .u32 (highHalf a) :=
  extract_spec hs h hj hextracts (by decide)

theorem insert_spec (hop : s.op j = .BitFieldInsert) (hoffset : s.arg j 2 = immediate 16#32)
    (hcount : s.arg j 3 = immediate 16#32) :
    ∃ a b, (s.arg j 0).denote ρ = .u32 a ∧ (s.arg j 1).denote ρ = .u32 b ∧
      ρ j = .u32 (bitFieldInsert a b 16#32 16#32) := by
  obtain ⟨base, insert, off, count, r, hbase, hinsert, ho, hc, hres, hr⟩ : ∃ base insert off count r : BitVec 32,
      (s.arg j 0).denote ρ = .u32 base ∧ (s.arg j 1).denote ρ = .u32 insert ∧ (s.arg j 2).denote ρ = .u32 off ∧
        (s.arg j 3).denote ρ = .u32 count ∧ ρ j = .u32 r ∧
          (off.toNat + count.toNat ≤ 32 → r = bitFieldInsert base insert off count) :=
    h.computes_op hs hj hop
  rw [hoffset] at ho
  rw [hcount] at hc
  cases ho
  cases hc
  exact ⟨base, insert, hbase, hinsert, hres.trans (congrArg Datum.u32 (hr (by decide)))⟩

end Patterns

theorem u32_inj {a b : BitVec 32} (h : Datum.u32 a = Datum.u32 b) : a = b := by
  cases h
  rfl

theorem equalCbuf_spec (hs : s.Closed) (h : s.Models cbuf ρ) {a b : ℕ} (ha : a < s.size) (hb : b < s.size)
    (hequal : equalCbuf s a b = true) : ρ a = ρ b := by
  obtain ⟨hopa, hopb, h0, h1⟩ := of_decide_eq_true hequal
  obtain ⟨bank, offset, hbank, hoffset, hres⟩ : ∃ bank offset, (s.arg a 0).denote ρ = .u32 bank ∧
      (s.arg a 1).denote ρ = .u32 offset ∧ ρ a = .u32 (cbuf bank offset) := h.computes_op hs ha hopa
  obtain ⟨bank', offset', hbank', hoffset', hres'⟩ : ∃ bank offset, (s.arg b 0).denote ρ = .u32 bank ∧
      (s.arg b 1).denote ρ = .u32 offset ∧ ρ b = .u32 (cbuf bank offset) := h.computes_op hs hb hopb
  rw [h0, hbank'] at hbank
  rw [h1, hoffset'] at hoffset
  cases hbank
  cases hoffset
  exact hres.trans hres'.symm

theorem valuesEqual_spec (hs : s.Closed) (h : s.Models cbuf ρ) {lhs rhs : Value} (hl : lhs.Below s.size)
    (hr : rhs.Below s.size) (hequal : valuesEqual s lhs rhs = true) : lhs.denote ρ = rhs.denote ρ := by
  unfold valuesEqual at hequal
  split at hequal
  next heq => rw [heq]
  next =>
    split at hequal
    next l r hgetl hgetr =>
      obtain ⟨hllt, hlval⟩ := get_spec hs h hl hgetl
      obtain ⟨hrlt, hrval⟩ := get_spec hs h hr hgetr
      rw [hlval, hrval]
      exact equalCbuf_spec hs h hllt hrlt hequal
    next => cases hequal

/-- What `AreEqual` says of three values. -/
theorem areEqual_spec (hs : s.Closed) (h : s.Models cbuf ρ) {x y z : Value} (hx : x.Below s.size)
    (hy : y.Below s.size) (hz : z.Below s.size) (hequal : areEqual s [x, y, z] = true) :
    x.denote ρ = y.denote ρ ∧ y.denote ρ = z.denote ρ := by
  rw [areEqual, areEqual, Bool.and_eq_true, Bool.and_eq_true] at hequal
  exact ⟨valuesEqual_spec hs h hx hy hequal.1, valuesEqual_spec hs h hy hz hequal.2.1⟩

/-! ### The patterns -/

theorem bind_some {α β : Type} {x : Option α} {f : α → Option β} {b : β} (h : (x >>= f) = some b) :
    ∃ a, x = some a ∧ f a = some b :=
  Option.bind_eq_some_iff.mp h

theorem guard_some {α : Type} {p : Prop} [Decidable p] {f : Unit → Option α} {b : α}
    (h : (guard p >>= f) = some b) : p ∧ f () = some b := by
  obtain ⟨_, hp, hf⟩ := bind_some h
  rw [Option.guard_eq_some'] at hp
  exact ⟨hp, hf⟩

theorem xmadMultiply_spec (hs : s.Closed) (h : s.Models cbuf ρ) (hi : i < s.size) (hop : s.op i = .IAdd32)
    {x y : Value} (hfind : xmadMultiply s i = some (x, y)) :
    x.Below s.size ∧ y.Below s.size ∧
      ∃ a b, x.denote ρ = .u32 a ∧ y.denote ρ = .u32 b ∧ ρ i = .u32 (a * b) := by
  simp only [xmadMultiply, Option.bind_eq_bind, Option.bind_eq_some_iff, Option.guard_eq_some',
    Option.pure_def, Option.some.injEq, Prod.mk.injEq] at hfind
  obtain ⟨lhsShl, hlhsShl, rhsMul, hrhsMul, _, ⟨hopShl, hshift⟩, lhsMul, hlhsMul, _, ⟨hopLhs, hopRhs⟩, _, hfactorB,
    lhsBfe, hlhsBfe, rhsBfe, hrhsBfe, _, hlhsExt, _, hrhsExt, _, hfactorA, rfl, rfl⟩ := hfind
  obtain ⟨hltShl, hvalShl⟩ := argInst_spec hs h hi hlhsShl
  obtain ⟨hltRhs, hvalRhs⟩ := argInst_spec hs h hi hrhsMul
  obtain ⟨hltLhs, hvalLhs⟩ := argInst_spec hs h hltShl hlhsMul
  obtain ⟨hltLhsBfe, hvalLhsBfe⟩ := argInst_spec hs h hltLhs hlhsBfe
  obtain ⟨hltRhsBfe, hvalRhsBfe⟩ := argInst_spec hs h hltRhs hrhsBfe
  refine ⟨arg_below hs hltLhsBfe 0, arg_below hs hltLhs 1, ?_⟩
  obtain ⟨l, r, hl, hr, hsum⟩ := iAdd32_spec hs h hi hop
  obtain ⟨base, hbase, hshl⟩ := shift_spec hs h hltShl hopShl hshift
  obtain ⟨p, b, hp, hb, hlhs⟩ := iMul32_spec hs h hltLhs hopLhs
  obtain ⟨q, b', hq, hb', hrhs⟩ := iMul32_spec hs h hltRhs hopRhs
  obtain ⟨a, ha, hhigh⟩ := highHalf_spec hs h hltLhsBfe hlhsExt
  obtain ⟨a', ha', hlow⟩ := lowHalf_spec hs h hltRhsBfe hrhsExt
  -- the two factors are read twice
  have hbb : b' = b := u32_inj (hb'.symm.trans (hfactorB ▸ hb))
  have haa : a' = a := u32_inj (ha'.symm.trans (hfactorA ▸ ha))
  have hpa : p = highHalf a := u32_inj (hp.symm.trans (hvalLhsBfe.trans hhigh))
  have hqa : q = lowHalf a := u32_inj (hq.symm.trans (hvalRhsBfe.trans (haa ▸ hlow)))
  have hbasep : base = p * b := u32_inj (hbase.symm.trans (hvalLhs.trans hlhs))
  have hlp : l = base <<< 16#32 := u32_inj (hl.symm.trans (hvalShl.trans hshl))
  have hrq : r = q * b' := u32_inj (hr.symm.trans (hvalRhs.trans hrhs))
  refine ⟨a, b, ha, hb, hsum.trans (congrArg Datum.u32 ?_)⟩
  rw [hlp, hbasep, hpa, hrq, hqa, hbb]
  exact multiply_halves a b

theorem xmadMultiplyAdd_spec (hs : s.Closed) (h : s.Models cbuf ρ) (hi : i < s.size) (hop : s.op i = .IAdd32)
    {x y z : Value} (hfind : xmadMultiplyAdd s i = some (x, y, z)) :
    x.Below s.size ∧ y.Below s.size ∧ z.Below s.size ∧
      ∃ a b c, x.denote ρ = .u32 a ∧ y.denote ρ = .u32 b ∧ z.denote ρ = .u32 c ∧ ρ i = .u32 (a * b + c) := by
  obtain ⟨i25, h25, hfind⟩ := bind_some hfind
  obtain ⟨i27, h27, hfind⟩ := bind_some hfind
  obtain ⟨hop27, hfind⟩ := guard_some hfind
  obtain ⟨⟨hop25, hshift25⟩, hfind⟩ := guard_some hfind
  obtain ⟨i24, h24, hfind⟩ := bind_some hfind
  obtain ⟨hop24, hfind⟩ := guard_some hfind
  obtain ⟨i22, h22, hfind⟩ := bind_some hfind
  obtain ⟨i23, h23, hfind⟩ := bind_some hfind
  obtain ⟨hext22, hfind⟩ := guard_some hfind
  obtain ⟨hext23, hfind⟩ := guard_some hfind
  obtain ⟨i11, h11, hfind⟩ := bind_some hfind
  obtain ⟨⟨hop11, hoffset11, hcount11⟩, hfind⟩ := guard_some hfind
  obtain ⟨i8, h8, hfind⟩ := bind_some hfind
  obtain ⟨i10, h10, hfind⟩ := bind_some hfind
  obtain ⟨hop8, hfind⟩ := guard_some hfind
  obtain ⟨i6, h6, hfind⟩ := bind_some hfind
  obtain ⟨i7, h7, hfind⟩ := bind_some hfind
  obtain ⟨hext6, hfind⟩ := guard_some hfind
  obtain ⟨hext7, hfind⟩ := guard_some hfind
  obtain ⟨i26, h26, hfind⟩ := bind_some hfind
  obtain ⟨i18, h18, hfind⟩ := bind_some hfind
  obtain ⟨⟨hop26, hshift26⟩, hfind⟩ := guard_some hfind
  obtain ⟨h26eq, hfind⟩ := guard_some hfind
  obtain ⟨hop18, hfind⟩ := guard_some hfind
  obtain ⟨i17, h17, hfind⟩ := bind_some hfind
  obtain ⟨hop17, hfind⟩ := guard_some hfind
  obtain ⟨i15, h15, hfind⟩ := bind_some hfind
  obtain ⟨i16, h16, hfind⟩ := bind_some hfind
  obtain ⟨hext15, hfind⟩ := guard_some hfind
  obtain ⟨hext16, hfind⟩ := guard_some hfind
  obtain ⟨hext10, hfind⟩ := guard_some hfind
  obtain ⟨hopAs, hfind⟩ := guard_some hfind
  obtain ⟨hopBs, hfind⟩ := guard_some hfind
  cases hfind
  obtain ⟨hlt25, hval25⟩ := argInst_spec hs h hi h25
  obtain ⟨hlt27, hval27⟩ := argInst_spec hs h hi h27
  obtain ⟨hlt24, hval24⟩ := argInst_spec hs h hlt25 h24
  obtain ⟨hlt22, hval22⟩ := argInst_spec hs h hlt24 h22
  obtain ⟨hlt23, hval23⟩ := argInst_spec hs h hlt24 h23
  obtain ⟨hlt11, hval11⟩ := argInst_spec hs h hlt23 h11
  obtain ⟨hlt8, hval8⟩ := argInst_spec hs h hlt11 h8
  obtain ⟨hlt10, hval10⟩ := argInst_spec hs h hlt11 h10
  obtain ⟨hlt6, hval6⟩ := argInst_spec hs h hlt8 h6
  obtain ⟨hlt7, hval7⟩ := argInst_spec hs h hlt8 h7
  obtain ⟨hlt26, hval26⟩ := argInst_spec hs h hlt27 h26
  obtain ⟨hlt18, hval18⟩ := argInst_spec hs h hlt27 h18
  obtain ⟨-, hval26'⟩ := argInst_spec hs h hlt26 h26eq
  obtain ⟨hlt17, hval17⟩ := argInst_spec hs h hlt18 h17
  obtain ⟨hlt15, hval15⟩ := argInst_spec hs h hlt17 h15
  obtain ⟨hlt16, hval16⟩ := argInst_spec hs h hlt17 h16
  refine ⟨arg_below hs hlt7 0, arg_below hs hlt6 0, arg_below hs hlt18 1, ?_⟩
  -- the operands read through the halves
  obtain ⟨a, ha7, hhigh7⟩ := highHalf_spec hs h hlt7 hext7
  obtain ⟨a16, ha16, hlow16⟩ := lowHalf_spec hs h hlt16 hext16
  obtain ⟨a10, ha10, hlow10⟩ := lowHalf_spec hs h hlt10 hext10
  obtain ⟨b22, hb22, hhigh22⟩ := highHalf_spec hs h hlt22 hext22
  obtain ⟨b, hb6, hlow6⟩ := lowHalf_spec hs h hlt6 hext6
  obtain ⟨b15, hb15, hlow15⟩ := lowHalf_spec hs h hlt15 hext15
  obtain ⟨e716, e1610⟩ := areEqual_spec hs h (arg_below hs hlt7 0) (arg_below hs hlt16 0) (arg_below hs hlt10 0) hopAs
  obtain ⟨e226, e615⟩ := areEqual_spec hs h (arg_below hs hlt22 0) (arg_below hs hlt6 0) (arg_below hs hlt15 0) hopBs
  have ha16a : a16 = a := u32_inj (ha16.symm.trans (e716.symm.trans ha7))
  have ha10a : a10 = a := u32_inj (ha10.symm.trans (e1610.symm.trans (ha16.trans (congrArg Datum.u32 ha16a))))
  have hb22b : b22 = b := u32_inj (hb22.symm.trans (e226.trans hb6))
  have hb15b : b15 = b := u32_inj (hb15.symm.trans (e615.symm.trans hb6))
  -- the partial products
  obtain ⟨p8, q8, hp8, hq8, h8v⟩ := iMul32_spec hs h hlt8 hop8
  have hp8' : p8 = lowHalf b := u32_inj (hp8.symm.trans (hval6.trans hlow6))
  have hq8' : q8 = highHalf a := u32_inj (hq8.symm.trans (hval7.trans hhigh7))
  obtain ⟨base11, insert11, hbase11, hinsert11, h11v⟩ := insert_spec hs h hlt11 hop11 hoffset11 hcount11
  have hbase11' : base11 = p8 * q8 := u32_inj (hbase11.symm.trans (hval8.trans h8v))
  have hinsert11' : insert11 = lowHalf a10 := u32_inj (hinsert11.symm.trans (hval10.trans hlow10))
  obtain ⟨base23, hbase23, h23v⟩ := highHalf_spec hs h hlt23 hext23
  have hbase23' : base23 = bitFieldInsert base11 insert11 16#32 16#32 :=
    u32_inj (hbase23.symm.trans (hval11.trans h11v))
  obtain ⟨p24, q24, hp24, hq24, h24v⟩ := iMul32_spec hs h hlt24 hop24
  have hp24' : p24 = highHalf b22 := u32_inj (hp24.symm.trans (hval22.trans hhigh22))
  have hq24' : q24 = highHalf base23 := u32_inj (hq24.symm.trans (hval23.trans h23v))
  obtain ⟨base25, hbase25, h25v⟩ := shift_spec hs h hlt25 hop25 hshift25
  have hbase25' : base25 = p24 * q24 := u32_inj (hbase25.symm.trans (hval24.trans h24v))
  obtain ⟨base26, hbase26, h26v⟩ := shift_spec hs h hlt26 hop26 hshift26
  have hbase26' : base26 = bitFieldInsert base11 insert11 16#32 16#32 :=
    u32_inj (hbase26.symm.trans (hval26'.trans h11v))
  obtain ⟨p17, q17, hp17, hq17, h17v⟩ := iMul32_spec hs h hlt17 hop17
  have hp17' : p17 = lowHalf b15 := u32_inj (hp17.symm.trans (hval15.trans hlow15))
  have hq17' : q17 = lowHalf a16 := u32_inj (hq17.symm.trans (hval16.trans hlow16))
  -- the sums
  obtain ⟨p18, c, hp18, hc, h18v⟩ := iAdd32_spec hs h hlt18 hop18
  have hp18' : p18 = p17 * q17 := u32_inj (hp18.symm.trans (hval17.trans h17v))
  obtain ⟨p27, q27, hp27, hq27, h27v⟩ := iAdd32_spec hs h hlt27 hop27
  have hp27' : p27 = base26 <<< 16#32 := u32_inj (hp27.symm.trans (hval26.trans h26v))
  have hq27' : q27 = p18 + c := u32_inj (hq27.symm.trans (hval18.trans h18v))
  obtain ⟨l, r, hl, hr, hsum⟩ := iAdd32_spec hs h hi hop
  have hl' : l = base25 <<< 16#32 := u32_inj (hl.symm.trans (hval25.trans h25v))
  have hr' : r = p27 + q27 := u32_inj (hr.symm.trans (hval27.trans h27v))
  refine ⟨a, b, c, ha7, hb6, hc, hsum.trans (congrArg Datum.u32 ?_)⟩
  rw [hl', hr', hbase25', hp27', hq27', hp24', hq24', hbase23', highHalf_insert, hbase26', shiftLeft_insert, hp18',
    hp17', hq17', hbase11', hinsert11', hp8', hq8', ha16a, ha10a, hb22b, hb15b]
  rw [lowHalf_lowHalf]
  exact multiplyAdd_halves a b c

/-! ### The folds -/

/-- An emitted instruction yields what its opcode computes of the two values. -/
theorem prependNewInst_spec (hs : s.Closed) (h : s.Models cbuf ρ) (opcode : Opcode)
    (hlink : opcode.pseudoLink = none) (hphi : opcode ≠ .Phi) (hnum : opcode.numArgs = 2) (block : ℕ) {x y : Value}
    (hx : x.Below s.size) (hy : y.Below s.size) {d : Datum}
    (hd : ∀ arg : ℕ → Datum, arg 0 = x.denote ρ → arg 1 = y.denote ρ → Computes cbuf opcode arg d) :
    ∃ s', s.prependNewInst block (some i) opcode [x, y] = .ok s' ∧ s'.size = s.size + 1 ∧ s'.Closed ∧
      (∀ j < s.size, s'.op j = s.op j) ∧ s'.Models cbuf (update ρ s.size d) := by
  obtain ⟨s', hs', hemitted⟩ := prependNewInst_ok hlink hphi hnum block (some i) x y
  refine ⟨s', hs', hemitted.size, hemitted.closed hs hx hy, fun j hj => (hemitted.code j hj).1, ?_⟩
  apply hemitted.models hs h hx hy
  apply hd
  · rfl
  · rfl

theorem update_old {j : ℕ} (hj : j < s.size) (d : Datum) : update ρ s.size d j = ρ j :=
  update_of_ne (Nat.ne_of_lt hj) _ _

theorem foldXmadMultiply_spec (hs : s.Closed) (h : s.Models cbuf ρ) (hi : i < s.size) (hop : s.op i = .IAdd32)
    (block : ℕ) :
    ∃ s' multiplies, foldXmadMultiply s block i = .ok (s', multiplies) ∧ s.size ≤ s'.size ∧ s'.Closed ∧
      s'.KeepsValues cbuf s ρ ∧ (multiplies = false → s' = s) := by
  cases hfind : xmadMultiply s i with
  | none =>
    refine ⟨s, false, ?_, Nat.le_refl _, hs, ⟨ρ, fun _ _ => rfl, h⟩, fun _ => rfl⟩
    rw [foldXmadMultiply, hfind]
    rfl
  | some factors =>
    obtain ⟨x, y⟩ := factors
    obtain ⟨hx, hy, a, b, ha, hb, hres⟩ := xmadMultiply_spec hs h hi hop hfind
    obtain ⟨s₁, hs₁, hsize₁, hclosed₁, hops₁, hmodels₁⟩ :=
      prependNewInst_spec (i := i) hs h .IMul32 rfl (by decide) rfl block hx hy (d := .u32 (a * b))
        fun arg h0 h1 => ⟨a, b, h0.trans ha, h1.trans hb, rfl⟩
    obtain ⟨s₂, hs₂, hsize₂, hclosed₂, hmodels₂, -⟩ :=
      replaceUsesWith_spec cbuf (update ρ s.size (.u32 (a * b))) (i := i) hclosed₁ (by rw [hops₁ i hi, hop]; rfl)
        (Value.below_inst.mpr (by rw [hsize₁]; exact Nat.lt_succ_self _))
    refine ⟨s₂, true, ?_, by omega, hclosed₂, ?_, fun hfalse => absurd hfalse (by decide)⟩
    · rw [foldXmadMultiply, hfind]
      change (s.prependNewInst block (some i) .IMul32 [x, y] >>= fun s₁ =>
        s₁.replaceUsesWith i (.inst s.size) >>= fun s₂ => .ok (s₂, true)) = _
      rw [hs₁]
      change (s₁.replaceUsesWith i (.inst s.size) >>= fun s₂ => .ok (s₂, true)) = _
      rw [hs₂]
      rfl
    · refine ⟨_, fun j hj => update_old hj _, hmodels₂ hmodels₁ ?_⟩
      rw [update_old hi, hres]
      exact update_self _ _ _

theorem foldXmadMultiplyAdd_spec (hs : s.Closed) (h : s.Models cbuf ρ) (hi : i < s.size) (hop : s.op i = .IAdd32)
    (block : ℕ) :
    ∃ s' multiplies, foldXmadMultiplyAdd s block i = .ok (s', multiplies) ∧ s.size ≤ s'.size ∧ s'.Closed ∧
      s'.KeepsValues cbuf s ρ := by
  cases hfind : xmadMultiplyAdd s i with
  | none =>
    refine ⟨s, false, ?_, Nat.le_refl _, hs, ⟨ρ, fun _ _ => rfl, h⟩⟩
    rw [foldXmadMultiplyAdd, hfind]
    rfl
  | some operands =>
    obtain ⟨x, y, z⟩ := operands
    obtain ⟨hx, hy, hz, a, b, c, ha, hb, hc, hres⟩ := xmadMultiplyAdd_spec hs h hi hop hfind
    obtain ⟨s₁, hs₁, hsize₁, hclosed₁, hops₁, hmodels₁⟩ :=
      prependNewInst_spec (i := i) hs h .IMul32 rfl (by decide) rfl block hx hy (d := .u32 (a * b))
        fun arg h0 h1 => ⟨a, b, h0.trans ha, h1.trans hb, rfl⟩
    have hi₁ : i < s₁.size := by omega
    have hprod : (Value.inst s.size).denote (update ρ s.size (.u32 (a * b))) = .u32 (a * b) :=
      update_self _ _ _
    have hz₁ : z.denote (update ρ s.size (.u32 (a * b))) = .u32 c :=
      (Value.denote_congr (fun j hj => update_old hj _) hz).trans hc
    obtain ⟨s₂, hs₂, hsize₂, hclosed₂, hops₂, hmodels₂⟩ :=
      prependNewInst_spec (i := i) hclosed₁ hmodels₁ .IAdd32 rfl (by decide) rfl block
        (x := .inst s.size) (y := z) (Value.below_inst.mpr (by omega)) (hz.mono (by omega))
        (d := .u32 (a * b + c)) fun arg h0 h1 => ⟨a * b, c, h0.trans hprod, h1.trans hz₁, rfl⟩
    obtain ⟨s₃, hs₃, hsize₃, hclosed₃, hmodels₃, -⟩ :=
      replaceUsesWith_spec cbuf
        (update (update ρ s.size (.u32 (a * b))) s₁.size (.u32 (a * b + c))) (i := i) hclosed₂
        (by rw [hops₂ i hi₁, hops₁ i hi, hop]; rfl)
        (show (Value.inst s₁.size).Below s₂.size from Value.below_inst.mpr (by omega))
    refine ⟨s₃, true, ?_, by omega, hclosed₃, ?_⟩
    · rw [foldXmadMultiplyAdd, hfind]
      change (s.prependNewInst block (some i) .IMul32 [x, y] >>= fun s₁ =>
        s₁.prependNewInst block (some i) .IAdd32 [.inst s.size, z] >>= fun s₂ =>
          s₂.replaceUsesWith i (.inst s₁.size) >>= fun s₃ => .ok (s₃, true)) = _
      rw [hs₁]
      change (s₁.prependNewInst block (some i) .IAdd32 [.inst s.size, z] >>= fun s₂ =>
          s₂.replaceUsesWith i (.inst s₁.size) >>= fun s₃ => .ok (s₃, true)) = _
      rw [hs₂]
      change (s₂.replaceUsesWith i (.inst s₁.size) >>= fun s₃ => .ok (s₃, true)) = _
      rw [hs₃]
      rfl
    · refine ⟨_, fun j hj => ?_, hmodels₃ hmodels₂ ?_⟩
      · rw [update_old (by omega), update_old hj]
      · rw [update_old hi₁, update_old hi, hres]
        exact update_self _ _ _

/-! ### Sums -/

theorem foldAddZero_spec {T : Type} [Immediate T] [Add T] [OfNat T 0] [DecidableEq T]
    (hcomm : ∀ a b : T, a + b = b + a) (hassoc : ∀ a b c : T, a + b + c = a + (b + c)) (hzero : ∀ a : T, a + 0 = a)
    (hs : s.Closed) (h : s.Models cbuf ρ) (hi : i < s.size) (hlink : (s.op i).pseudoLink = none)
    (hphi : s.op i ≠ .Phi) (hnum : (s.op i).numArgs = 2) (hfn : ComputesFn cbuf (s.op i) fun a b : T => a + b) :
    ∃ s' continues, foldAddZero s T i = .ok (s', continues) ∧ s'.size = s.size ∧ s'.Closed ∧ s'.Models cbuf ρ ∧
      (continues = true → s'.op i = s.op i) := by
  unfold foldAddZero
  split
  next => exact ⟨s, false, rfl, rfl, hs, h, fun hfalse => absurd hfalse (by decide)⟩
  next =>
    obtain ⟨s₁, folds, hfold, hsize, hclosed, hmodels, hop₁⟩ :=
      foldCommutative_spec hs h hi hlink hphi hnum hfn hcomm hassoc
    simp only [hfold]
    cases folds with
    | false => exact ⟨s₁, false, rfl, hsize, hclosed, hmodels, fun hfalse => absurd hfalse (by decide)⟩
    | true =>
      have hop := hop₁ rfl
      have hi₁ : i < s₁.size := hsize ▸ hi
      obtain ⟨a, b, ha, hb, hab⟩ := (hfn _ _).mp (hmodels.computes_op hclosed hi₁ hop)
      by_cases hzeroed : (s₁.arg i 1).isImmediate = true ∧ argOf T (s₁.arg i 1) = 0
      · have hb0 : b = 0 := (argOf_imm hzeroed.1 hb).symm.trans hzeroed.2
        obtain ⟨s₂, hs₂, hsize₂, hclosed₂, hmodels₂, -⟩ :=
          replaceUsesWith_spec cbuf ρ hclosed (by rw [hop]; exact hlink) (arg_below hclosed hi₁ 0)
        refine ⟨s₂, false, ?_, hsize₂.trans hsize, hclosed₂, hmodels₂ hmodels ?_,
          fun hfalse => absurd hfalse (by decide)⟩
        · change (if (s₁.arg i 1).isImmediate = true ∧ argOf T (s₁.arg i 1) = 0 then
            s₁.replaceUsesWith i (s₁.arg i 0) >>= fun s₂ => .ok (s₂, false) else .ok (s₁, true)) = _
          rw [if_pos hzeroed, hs₂]
          rfl
        · rw [hab, hb0]
          exact ha.trans (congrArg (fun value => Datum.scalar (Immediate.make value)) (hzero a).symm)
      · refine ⟨s₁, true, ?_, hsize, hclosed, hmodels, fun _ => hop⟩
        change (if (s₁.arg i 1).isImmediate = true ∧ argOf T (s₁.arg i 1) = 0 then
          s₁.replaceUsesWith i (s₁.arg i 0) >>= fun s₂ => .ok (s₂, false) else .ok (s₁, true)) = _
        rw [if_neg hzeroed]

theorem foldAdd64_sound (hs : s.Closed) (h : s.Models cbuf ρ) (hi : i < s.size) (hop : s.op i = .IAdd64) :
    FoldsSoundly cbuf s ρ (foldAdd64 s i) := by
  obtain ⟨s₁, continues, hfold, hsize, hclosed, hmodels, -⟩ :=
    foldAddZero_spec (T := BitVec 64) BitVec.add_comm BitVec.add_assoc BitVec.add_zero hs h hi (by rw [hop]; rfl)
      (by rw [hop]; decide) (by rw [hop]; rfl) (computesFn_of_eq hop computesFn_iAdd64)
  apply FoldsSoundly.of_size hsize
  rw [foldAdd64, hfold]
  exact foldsSoundly_self hclosed hmodels

theorem foldAdd32_sound (hs : s.Closed) (h : s.Models cbuf ρ) (hi : i < s.size) (hop : s.op i = .IAdd32) (block : ℕ) :
    FoldsSoundly cbuf s ρ (foldAdd32 s block i) := by
  obtain ⟨s₁, continues, hfold, hsize, hclosed, hmodels, hop₁⟩ :=
    foldAddZero_spec (T := BitVec 32) BitVec.add_comm BitVec.add_assoc BitVec.add_zero hs h hi (by rw [hop]; rfl)
      (by rw [hop]; decide) (by rw [hop]; rfl) (computesFn_of_eq hop computesFn_iAdd32)
  apply FoldsSoundly.of_size hsize
  rw [foldAdd32, hfold]
  cases continues with
  | false => exact foldsSoundly_self hclosed hmodels
  | true =>
    have hop' := (hop₁ rfl).trans hop
    have hi₁ : i < s₁.size := hsize ▸ hi
    obtain ⟨s₂, multiplies, hfold₂, hle₂, hclosed₂, hkeeps₂, hsame⟩ := foldXmadMultiply_spec hclosed hmodels hi₁ hop' block
    change FoldsSoundly cbuf s₁ ρ (foldXmadMultiply s₁ block i >>= fun r =>
      if r.2 = true then .ok r.1 else foldXmadMultiplyAdd r.1 block i >>= fun r' => .ok r'.1)
    rw [hfold₂]
    cases multiplies with
    | true => exact ⟨s₂, rfl, hle₂, hclosed₂, hkeeps₂⟩
    | false =>
      obtain ⟨s₃, multiplies, hfold₃, hle₃, hclosed₃, hkeeps₃⟩ := foldXmadMultiplyAdd_spec hclosed hmodels hi₁ hop' block
      rw [hsame rfl]
      change FoldsSoundly cbuf s₁ ρ (foldXmadMultiplyAdd s₁ block i >>= fun r' => .ok r'.1)
      rw [hfold₃]
      exact ⟨s₃, rfl, hle₃, hclosed₃, hkeeps₃⟩

end Optimization
end Shader
end Citron
