/-
# What the lowered code computes

For each instruction, what its value is when those of its operands are known. From these the words that the code of each
operation computes: they are the two words of its result.
-/
import Citron.ShaderRecompiler.LowerInt64ToInt32

namespace Citron
namespace Shader
namespace LowerInt64

open Lib Emitter BitVec

variable {ρ : ℕ → Result} {a b base shift : Value} {p q : BitVec 64} {x y z k : BitVec 32}

/-! ### Instructions -/

theorem inst_yields (i : Inst) : Yields Computes ρ (inst i) fun v => ∃ place, v = .inst place ∧ Computes ρ i (ρ place) :=
  .bind (.emit i) fun place h => .pure ⟨place, rfl, h⟩

theorem unpack_yields (ha : a.datum ρ = .packed p) :
    Yields Computes ρ (unpack a) fun w => w.1.datum ρ = .u32 (lo p) ∧ w.2.datum ρ = .u32 (hi p) := by
  cases a with
  | imm32 value => cases ha
  | imm64 value =>
    obtain ⟨hlo, hhi⟩ : value.extractLsb' 0 32 = p.extractLsb' 0 32 ∧ value.extractLsb' 32 32 = p.extractLsb' 32 32 := by
      simpa [Value.datum, Datum.packed] using ha
    exact .pure ⟨congrArg Datum.u32 hlo, congrArg Datum.u32 hhi⟩
  | inst place =>
    refine .bind (inst_yields _) fun vLo ⟨placeLo, hvLo, hlo⟩ => ?_
    refine .bind (inst_yields _) fun vHi ⟨placeHi, hvHi, hhi⟩ => .pure ?_
    subst hvLo hvHi
    exact ⟨hlo _ _ ha, hhi _ _ ha⟩

theorem construct_yields {vLo vHi : Value} (hlo : vLo.datum ρ = .u32 (lo p)) (hhi : vHi.datum ρ = .u32 (hi p)) :
    Yields Computes ρ (inst (.compositeConstructU32x2 vLo vHi)) fun v => v.datum ρ = .packed p :=
  (inst_yields _).mono fun _ ⟨_, hv, h⟩ => hv ▸ h _ _ hlo hhi

theorem select_yields {condition : Value} {c : Bool} (hcondition : condition.datum ρ = .u1 c) (ha : a.datum ρ = .u32 x)
    (hb : b.datum ρ = .u32 y) :
    Yields Computes ρ (inst (.selectU32 condition a b)) fun v => v.datum ρ = .u32 (if c then x else y) :=
  (inst_yields _).mono fun _ ⟨_, hv, h⟩ => hv ▸ h _ _ _ hcondition ha hb

section

variable (ha : a.datum ρ = .u32 x)
include ha

theorem iAdd_yields (hb : b.datum ρ = .u32 y) :
    Yields Computes ρ (inst (.iAdd32 a b)) fun v => v.datum ρ = .u32 (x + y) :=
  (inst_yields _).mono fun _ ⟨_, hv, h⟩ => hv ▸ (h _ _ ha hb).1

/-- A sum, and a carry that is read from it. -/
theorem iAdd_yields_carry (hb : b.datum ρ = .u32 y) :
    Yields Computes ρ (inst (.iAdd32 a b)) fun v => v.datum ρ = .u32 (x + y) ∧
      Yields Computes ρ (inst (.getCarryFromOp v)) fun c => c.datum ρ = .u1 (decide (2 ^ 32 ≤ x.toNat + y.toNat)) := by
  refine (inst_yields _).mono fun v ⟨place, hv, h⟩ => ?_
  obtain ⟨hdatum, hcarry⟩ := h _ _ ha hb
  subst hv
  refine ⟨hdatum, (inst_yields _).mono fun c ⟨_, hc, hread⟩ => ?_⟩
  subst hc
  exact (hread place rfl).trans (congrArg Datum.u1 hcarry)

theorem iSub_yields (hb : b.datum ρ = .u32 y) :
    Yields Computes ρ (inst (.iSub32 a b)) fun v => v.datum ρ = .u32 (x - y) :=
  (inst_yields _).mono fun _ ⟨_, hv, h⟩ => hv ▸ h _ _ ha hb

theorem shiftLeftLogical_yields (hb : b.datum ρ = .u32 k) :
    Yields Computes ρ (inst (.shiftLeftLogical32 a b)) fun v =>
      ∃ z, v.datum ρ = .u32 z ∧ (k.toNat < 32 → z = x <<< k.toNat) :=
  (inst_yields _).mono fun _ ⟨_, hv, h⟩ => hv ▸ h _ _ ha hb

theorem shiftRightLogical_yields (hb : b.datum ρ = .u32 k) :
    Yields Computes ρ (inst (.shiftRightLogical32 a b)) fun v =>
      ∃ z, v.datum ρ = .u32 z ∧ (k.toNat < 32 → z = x >>> k.toNat) :=
  (inst_yields _).mono fun _ ⟨_, hv, h⟩ => hv ▸ h _ _ ha hb

theorem shiftRightArithmetic_yields (hb : b.datum ρ = .u32 k) :
    Yields Computes ρ (inst (.shiftRightArithmetic32 a b)) fun v =>
      ∃ z, v.datum ρ = .u32 z ∧ (k.toNat < 32 → z = x.sshiftRight k.toNat) :=
  (inst_yields _).mono fun _ ⟨_, hv, h⟩ => hv ▸ h _ _ ha hb

theorem bitwiseOr_yields (hb : b.datum ρ = .u32 y) :
    Yields Computes ρ (inst (.bitwiseOr32 a b)) fun v => v.datum ρ = .u32 (x ||| y) :=
  (inst_yields _).mono fun _ ⟨_, hv, h⟩ => hv ▸ h _ _ ha hb

theorem bitwiseNot_yields :
    Yields Computes ρ (inst (.bitwiseNot32 a)) fun v => v.datum ρ = .u32 (~~~x) :=
  (inst_yields _).mono fun _ ⟨_, hv, h⟩ => hv ▸ h _ ha

end

theorem bitFieldInsert_yields {offset count : Value} {o n : BitVec 32} (ha : a.datum ρ = .u32 x) (hb : b.datum ρ = .u32 y)
    (hoffset : offset.datum ρ = .u32 o) (hcount : count.datum ρ = .u32 n) :
    Yields Computes ρ (inst (.bitFieldInsert a b offset count)) fun v =>
      ∃ z, v.datum ρ = .u32 z ∧ (o.toNat + n.toNat ≤ 32 → z = bitFieldInsert x y o.toNat n.toNat) :=
  (inst_yields _).mono fun _ ⟨_, hv, h⟩ => hv ▸ h _ _ _ _ ha hb hoffset hcount

theorem bitFieldUExtract_yields {offset count : Value} {o n : BitVec 32} (ha : a.datum ρ = .u32 x)
    (hoffset : offset.datum ρ = .u32 o) (hcount : count.datum ρ = .u32 n) :
    Yields Computes ρ (inst (.bitFieldUExtract a offset count)) fun v =>
      ∃ z, v.datum ρ = .u32 z ∧ (o.toNat + n.toNat ≤ 32 → z = bitFieldUExtract x o.toNat n.toNat) :=
  (inst_yields _).mono fun _ ⟨_, hv, h⟩ => hv ▸ h _ _ _ ha hoffset hcount

section

variable (ha : a.datum ρ = .u32 x) (hb : b.datum ρ = .u32 y)
include ha hb

theorem iEqual_yields :
    Yields Computes ρ (inst (.iEqual a b)) fun v => v.datum ρ = .u1 (decide (x = y)) :=
  (inst_yields _).mono fun _ ⟨_, hv, h⟩ => hv ▸ h _ _ ha hb

theorem uGreaterThan_yields :
    Yields Computes ρ (inst (.uGreaterThan a b)) fun v => v.datum ρ = .u1 (decide (y.toNat < x.toNat)) :=
  (inst_yields _).mono fun _ ⟨_, hv, h⟩ => hv ▸ h _ _ ha hb

theorem sGreaterThanEqual_yields :
    Yields Computes ρ (inst (.sGreaterThanEqual a b)) fun v => v.datum ρ = .u1 (decide (y.toInt ≤ x.toInt)) :=
  (inst_yields _).mono fun _ ⟨_, hv, h⟩ => hv ▸ h _ _ ha hb

end

/-! ### Addition, subtraction and negation -/

theorem iAdd64To32_yields (ha : a.datum ρ = .packed p) (hb : b.datum ρ = .packed q) :
    Yields Computes ρ (iAdd64To32 a b) fun v => v.datum ρ = .packed (p + q) := by
  refine .bind (unpack_yields ha) fun ⟨aLo, aHi⟩ ⟨haLo, haHi⟩ => ?_
  refine .bind (unpack_yields hb) fun ⟨bLo, bHi⟩ ⟨hbLo, hbHi⟩ => ?_
  refine .bind (iAdd_yields_carry haLo hbLo) fun retLo ⟨hretLo, hreads⟩ => ?_
  refine .bind hreads fun carryOf hcarryOf => ?_
  refine .bind (select_yields hcarryOf rfl rfl) fun carry hcarry => ?_
  refine .bind (iAdd_yields haHi hbHi) fun sum hsum => ?_
  refine .bind (iAdd_yields hsum hcarry) fun retHi hretHi => ?_
  refine construct_yields (hretLo.trans ?_) (hretHi.trans ?_)
  · rw [lo_add]
  · rw [hi_add]
    simp only [decide_eq_true_eq]

theorem iSub64To32_yields (ha : a.datum ρ = .packed p) (hb : b.datum ρ = .packed q) :
    Yields Computes ρ (iSub64To32 a b) fun v => v.datum ρ = .packed (p - q) := by
  refine .bind (unpack_yields ha) fun ⟨aLo, aHi⟩ ⟨haLo, haHi⟩ => ?_
  refine .bind (unpack_yields hb) fun ⟨bLo, bHi⟩ ⟨hbLo, hbHi⟩ => ?_
  refine .bind (iSub_yields haLo hbLo) fun retLo hretLo => ?_
  refine .bind (uGreaterThan_yields hretLo haLo) fun underflow hunderflow => ?_
  refine .bind (select_yields hunderflow rfl rfl) fun underflowBit hunderflowBit => ?_
  refine .bind (iSub_yields haHi hbHi) fun difference hdifference => ?_
  refine .bind (iSub_yields hdifference hunderflowBit) fun retHi hretHi => ?_
  refine construct_yields (hretLo.trans ?_) (hretHi.trans ?_)
  · rw [lo_sub]
  · rw [hi_sub]
    simp only [decide_eq_true_eq]

theorem iNeg64To32_yields (ha : a.datum ρ = .packed p) :
    Yields Computes ρ (iNeg64To32 a) fun v => v.datum ρ = .packed (-p) := by
  refine .bind (unpack_yields ha) fun ⟨aLo, aHi⟩ ⟨haLo, haHi⟩ => ?_
  refine .bind (bitwiseNot_yields haLo) fun notLo hnotLo => ?_
  refine .bind (bitwiseNot_yields haHi) fun notHi hnotHi => ?_
  refine .bind (iAdd_yields_carry hnotLo rfl) fun retLo ⟨hretLo, hreads⟩ => ?_
  refine .bind hreads fun carryOf hcarryOf => ?_
  refine .bind (select_yields hcarryOf rfl rfl) fun carry hcarry => ?_
  refine .bind (iAdd_yields hnotHi hcarry) fun retHi hretHi => ?_
  refine construct_yields (hretLo.trans ?_) (hretHi.trans ?_)
  · rw [lo_neg]
  · rw [hi_neg]
    simp only [decide_eq_true_eq]

/-! ### Shifts -/

/-- The tests of the shifts: whether the amount is 32 or more, and whether it is zero. -/
theorem toInt_sub_nonneg (hk : k.toNat < 64) : (0 : BitVec 32).toInt ≤ (k - 32).toInt ↔ 32 ≤ k.toNat := by
  have h32 : (32 : BitVec 32).toNat = 32 := rfl
  have h0 : (0 : BitVec 32).toInt = 0 := rfl
  rw [h0, toInt_eq_toNat_cond, toNat_sub, h32]
  split <;> omega

theorem toNat_sub_long (hk : k.toNat < 64) (hlong : 32 ≤ k.toNat) : (k - 32).toNat = k.toNat - 32 := by
  have h32 : (32 : BitVec 32).toNat = 32 := rfl
  rw [toNat_sub, h32]
  omega

theorem toNat_sub_short (hshort : k.toNat < 32) : (32 - k).toNat = 32 - k.toNat := by
  have h32 : (32 : BitVec 32).toNat = 32 := rfl
  rw [toNat_sub, h32]
  omega

/-- The words are those of the result if they are in each of the three cases. -/
theorem selectShift_yields {isLong isZero : Value} {long short zero : Value × Value} {longLo longHi shortLo shortHi : BitVec 32}
    {r : BitVec 64} (hk : k.toNat < 64) (hisLong : isLong.datum ρ = .u1 (decide ((0 : BitVec 32).toInt ≤ (k - 32).toInt)))
    (hisZero : isZero.datum ρ = .u1 (decide (k = 0))) (hlongLo : long.1.datum ρ = .u32 longLo)
    (hlongHi : long.2.datum ρ = .u32 longHi) (hshortLo : short.1.datum ρ = .u32 shortLo)
    (hshortHi : short.2.datum ρ = .u32 shortHi) (hzeroLo : zero.1.datum ρ = .u32 (lo p))
    (hzeroHi : zero.2.datum ρ = .u32 (hi p))
    (hlong : 32 ≤ k.toNat → longLo = lo r ∧ longHi = hi r) (hshort : k.toNat < 32 → shortLo = lo r ∧ shortHi = hi r)
    (hzero : k.toNat = 0 → r = p) :
    Yields Computes ρ (selectShift isLong isZero long short zero) fun v => v.datum ρ = .packed r := by
  refine .bind (select_yields hisLong hlongLo hshortLo) fun nonZeroLo hnonZeroLo => ?_
  refine .bind (select_yields hisLong hlongHi hshortHi) fun nonZeroHi hnonZeroHi => ?_
  refine .bind (select_yields hisZero hzeroLo hnonZeroLo) fun retLo hretLo => ?_
  refine .bind (select_yields hisZero hzeroHi hnonZeroHi) fun retHi hretHi => ?_
  simp only [decide_eq_true_eq, toInt_sub_nonneg hk] at hretLo hretHi
  refine construct_yields (hretLo.trans ?_) (hretHi.trans ?_)
  all_goals
    by_cases hk0 : k = 0
    · rw [if_pos hk0, hzero (by rw [hk0]; rfl)]
    · rw [if_neg hk0]
      by_cases h32 : 32 ≤ k.toNat
      · simp [h32, hlong h32]
      · simp [h32, hshort (by omega)]

section

variable (ha : base.datum ρ = .packed p) (hshift : shift.datum ρ = .u32 k) (hk : k.toNat < 64)
include ha hshift hk

theorem shiftLeftLogical64To32_yields :
    Yields Computes ρ (shiftLeftLogical64To32 base shift) fun v => v.datum ρ = .packed (p <<< k.toNat) := by
  refine .bind (unpack_yields ha) fun ⟨aLo, aHi⟩ ⟨haLo, haHi⟩ => ?_
  refine .bind (shiftLeftLogical_yields haLo hshift) fun shiftedLo ⟨sLo, hsLo, hshiftedLo⟩ => ?_
  refine .bind (shiftLeftLogical_yields haHi hshift) fun shiftedHi ⟨sHi, hsHi, hshiftedHi⟩ => ?_
  refine .bind (iSub_yields hshift rfl) fun invShift hinvShift => ?_
  refine .bind (sGreaterThanEqual_yields hinvShift rfl) fun isLong hisLong => ?_
  refine .bind (iEqual_yields hshift rfl) fun isZero hisZero => ?_
  refine .bind (shiftLeftLogical_yields haLo hinvShift) fun longRetHi ⟨lHi, hlHi, hlongRetHi⟩ => ?_
  refine .bind (iSub_yields rfl hshift) fun shiftComplement hshiftComplement => ?_
  refine .bind (bitFieldUExtract_yields haLo hshiftComplement hshift) fun loExtract ⟨e, he, hloExtract⟩ => ?_
  refine .bind (bitwiseOr_yields hsHi he) fun shortRetHi hshortRetHi => ?_
  refine selectShift_yields hk hisLong hisZero rfl hlHi hsLo hshortRetHi haLo haHi (fun h32 => ?_) (fun h32 => ?_) fun hk0 => ?_
  · have hinv := toNat_sub_long hk h32
    rw [hlongRetHi (by omega), hinv]
    exact ⟨(lo_shiftLeft_long p h32).symm, (hi_shiftLeft_long p h32).symm⟩
  · have hcomplement := toNat_sub_short h32
    rw [hshiftedLo h32, hshiftedHi h32, hloExtract (by omega), hcomplement]
    exact ⟨(lo_shiftLeft_short p).symm, (hi_shiftLeft_short p h32).symm⟩
  · rw [hk0, shiftLeft_zero]

theorem shiftRightLogical64To32_yields :
    Yields Computes ρ (shiftRightLogical64To32 base shift) fun v => v.datum ρ = .packed (p >>> k.toNat) := by
  refine .bind (unpack_yields ha) fun ⟨aLo, aHi⟩ ⟨haLo, haHi⟩ => ?_
  refine .bind (shiftRightLogical_yields haLo hshift) fun shiftedLo ⟨sLo, hsLo, hshiftedLo⟩ => ?_
  refine .bind (shiftRightLogical_yields haHi hshift) fun shiftedHi ⟨sHi, hsHi, hshiftedHi⟩ => ?_
  refine .bind (iSub_yields hshift rfl) fun invShift hinvShift => ?_
  refine .bind (sGreaterThanEqual_yields hinvShift rfl) fun isLong hisLong => ?_
  refine .bind (iEqual_yields hshift rfl) fun isZero hisZero => ?_
  refine .bind (shiftRightLogical_yields haHi hinvShift) fun longRetLo ⟨lLo, hlLo, hlongRetLo⟩ => ?_
  refine .bind (iSub_yields rfl hshift) fun shiftComplement hshiftComplement => ?_
  refine .bind (bitFieldUExtract_yields haHi rfl hshift) fun shortHiExtract ⟨e, he, hextract⟩ => ?_
  refine .bind (bitFieldInsert_yields hsLo he hshiftComplement hshift) fun shortRetLo ⟨r, hr, hinsert⟩ => ?_
  refine selectShift_yields hk hisLong hisZero hlLo rfl hr hsHi haLo haHi (fun h32 => ?_) (fun h32 => ?_) fun hk0 => ?_
  · have hinv := toNat_sub_long hk h32
    rw [hlongRetLo (by omega), hinv]
    exact ⟨(lo_ushiftRight_long p h32).symm, (hi_ushiftRight_long p h32).symm⟩
  · have hcomplement := toNat_sub_short h32
    have hzero : (0 : BitVec 32).toNat = 0 := rfl
    rw [hshiftedHi h32, hinsert (by omega), hshiftedLo h32, hextract (by omega), hcomplement, hzero]
    exact ⟨(lo_ushiftRight_short p h32).symm, (hi_ushiftRight_short p).symm⟩
  · rw [hk0, ushiftRight_zero]

theorem shiftRightArithmetic64To32_yields :
    Yields Computes ρ (shiftRightArithmetic64To32 base shift) fun v => v.datum ρ = .packed (p.sshiftRight k.toNat) := by
  refine .bind (unpack_yields ha) fun ⟨aLo, aHi⟩ ⟨haLo, haHi⟩ => ?_
  refine .bind (shiftRightLogical_yields haLo hshift) fun shiftedLo ⟨sLo, hsLo, hshiftedLo⟩ => ?_
  refine .bind (shiftRightArithmetic_yields haHi hshift) fun shiftedHi ⟨sHi, hsHi, hshiftedHi⟩ => ?_
  refine .bind (shiftRightArithmetic_yields haHi rfl) fun signExtension ⟨s, hs, hsign⟩ => ?_
  refine .bind (iSub_yields hshift rfl) fun invShift hinvShift => ?_
  refine .bind (sGreaterThanEqual_yields hinvShift rfl) fun isLong hisLong => ?_
  refine .bind (iEqual_yields hshift rfl) fun isZero hisZero => ?_
  refine .bind (shiftRightArithmetic_yields haHi hinvShift) fun longRetLo ⟨lLo, hlLo, hlongRetLo⟩ => ?_
  refine .bind (iSub_yields rfl hshift) fun shiftComplement hshiftComplement => ?_
  refine .bind (bitFieldUExtract_yields haHi rfl hshift) fun shortHiExtract ⟨e, he, hextract⟩ => ?_
  refine .bind (bitFieldInsert_yields hsLo he hshiftComplement hshift) fun shortRetLo ⟨r, hr, hinsert⟩ => ?_
  refine selectShift_yields hk hisLong hisZero hlLo hs hr hsHi haLo haHi (fun h32 => ?_) (fun h32 => ?_) fun hk0 => ?_
  · have hinv := toNat_sub_long hk h32
    rw [hlongRetLo (by omega), hinv, hsign (by decide)]
    exact ⟨(lo_sshiftRight_long p h32).symm, (hi_sshiftRight_long p h32).symm⟩
  · have hcomplement := toNat_sub_short h32
    have hzero : (0 : BitVec 32).toNat = 0 := rfl
    rw [hshiftedHi h32, hinsert (by omega), hshiftedLo h32, hextract (by omega), hcomplement, hzero]
    exact ⟨(lo_sshiftRight_short p h32).symm, (hi_sshiftRight_short p).symm⟩
  · rw [hk0, sshiftRight_zero]

end

/-- **Whatever the words of the operands and the amount of a shift below 64, the code computes the words of the result.** -/
theorem lowerI64ToI32_computes {hasPseudo : Bool} {i : Inst64} {m : IREmitter} {n : ℕ} {r : BitVec 64}
    (hlower : lowerI64ToI32 hasPseudo i = .ok m) (hruns : Runs Computes ρ n (m n).2) (hcomputes : i.Computes ρ r) :
    (m n).1.datum ρ = .packed r := by
  obtain rfl : i.code = m := by
    cases hasPseudo with
    | true => cases hlower
    | false => exact Except.ok.inj hlower
  cases i with
  | iAdd64 a b =>
    obtain ⟨p, q, ha, hb, rfl⟩ := hcomputes
    exact iAdd64To32_yields ha hb n hruns
  | iSub64 a b =>
    obtain ⟨p, q, ha, hb, rfl⟩ := hcomputes
    exact iSub64To32_yields ha hb n hruns
  | iNeg64 a =>
    obtain ⟨p, ha, rfl⟩ := hcomputes
    exact iNeg64To32_yields ha n hruns
  | shiftLeftLogical64 base shift =>
    obtain ⟨p, k, hbase, hshift, hk, rfl⟩ := hcomputes
    exact shiftLeftLogical64To32_yields hbase hshift hk n hruns
  | shiftRightLogical64 base shift =>
    obtain ⟨p, k, hbase, hshift, hk, rfl⟩ := hcomputes
    exact shiftRightLogical64To32_yields hbase hshift hk n hruns
  | shiftRightArithmetic64 base shift =>
    obtain ⟨p, k, hbase, hshift, hk, rfl⟩ := hcomputes
    exact shiftRightArithmetic64To32_yields hbase hshift hk n hruns

/-- The values of the code for the words `2 ^ 32 - 1` and 0, plus one; a carry goes into the high word. -/
def carried (place : ℕ) : Result :=
  [⟨.u32x2 0xffffffff 0, false⟩, ⟨.u32 0xffffffff, false⟩, ⟨.u32 0, false⟩, ⟨.u32 0, true⟩, ⟨.u1 true, false⟩,
    ⟨.u32 1, false⟩, ⟨.u32 0, false⟩, ⟨.u32 1, false⟩].getD place ⟨.u32x2 0 1, false⟩

theorem carried_computes : (iAdd64To32 (.inst 0) (.imm64 1) 1).1.datum carried = .packed 0x100000000 := by
  have hlower : lowerI64ToI32 false (.iAdd64 (.inst 0) (.imm64 1)) = .ok (iAdd64To32 (.inst 0) (.imm64 1)) := rfl
  refine lowerI64ToI32_computes (n := 1) hlower ?_ ⟨0xffffffff, 1, rfl, rfl, rfl⟩
  refine ⟨?_, ?_, ?_, ?_, ?_, ?_, ?_, ?_, trivial⟩
  · rintro _ _ ⟨⟩; rfl
  · rintro _ _ ⟨⟩; rfl
  · rintro _ _ ⟨⟩ ⟨⟩; exact ⟨rfl, rfl⟩
  · rintro _ ⟨⟩; rfl
  · rintro _ _ _ ⟨⟩ ⟨⟩ ⟨⟩; rfl
  · rintro _ _ ⟨⟩ ⟨⟩; exact ⟨rfl, rfl⟩
  · rintro _ _ ⟨⟩ ⟨⟩; exact ⟨rfl, rfl⟩
  · rintro _ _ ⟨⟩ ⟨⟩; rfl

end LowerInt64
end Shader
end Citron
