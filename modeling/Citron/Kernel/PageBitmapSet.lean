/-
# The page bitmap as a set of offsets

What a valid bitmap holds is a set of offsets, and its count is their number.
Each operation is the one on sets.
-/
import Citron.Kernel.PageBitmapBits

namespace Citron
namespace Kernel

open Common Option Set

/-! ### The initial storages -/

theorem alignUp_div_le {size n : ℕ} (h : size ≤ 64 * n) : alignUp size 64 / 64 ≤ n := by
  have := alignUp_le (Nat.dvd_mul_right 64 n) h
  omega

theorem alignUp_div_pos {size : ℕ} (h : 0 < size) : 0 < alignUp size 64 / 64 := by
  have h1 : size ≤ alignUp size 64 := le_alignUp (by decide)
  obtain ⟨k, hk⟩ := dvd_alignUp size 64
  omega

theorem word_replicate (n i : ℕ) : Level.word (List.replicate n 0) i = 0 := by
  unfold Level.word
  rw [List.getD_eq_getElem?_getD, List.getElem?_replicate]
  split_ifs <;> rfl

theorem bit_replicate (n i : ℕ) : Level.bit (List.replicate n 0) i = false := by
  rw [Level.bit_eq, word_replicate]
  simp

/-- As many levels as the size needs end in a single word. -/
theorem summary_initialStorages : ∀ (depth size : ℕ), 0 < size → size ≤ 64 ^ (depth + 1) →
    ∃ level ups, initialStorages (depth + 1) size = level :: ups ∧ Summary level ups ∧
      size ≤ 64 * level.length ∧ ∀ i, level.bit i = false := by
  intro depth
  induction depth with
  | zero =>
    intro size hpos hle
    have h1 : alignUp size 64 / 64 = 1 := by
      have : alignUp size 64 / 64 ≤ 1 := alignUp_div_le (by simpa using hle)
      have := alignUp_div_pos hpos
      omega
    refine ⟨_, [], rfl, ?_, ?_, bit_replicate _⟩
    · simp [Summary, h1]
    · rw [List.length_replicate, h1]
      simpa using hle
  | succ depth ih =>
    intro size hpos hle
    have hle' : alignUp size 64 / 64 ≤ 64 ^ (depth + 1) := alignUp_div_le (by rw [← Nat.pow_succ']; exact hle)
    obtain ⟨up, ups, hrun, hsum, hlen, hbit⟩ := ih _ (alignUp_div_pos hpos) hle'
    refine ⟨_, _, rfl, ?_, ?_, bit_replicate _⟩
    · rw [hrun]
      refine ⟨by rw [List.length_replicate]; exact hlen, fun i => ?_, hsum⟩
      rw [hbit, word_replicate]
      simp
    · have : size ≤ alignUp size 64 := le_alignUp (by decide)
      have := (dvd_alignUp size 64)
      rw [List.length_replicate]
      omega

theorem lt_pow_getRequiredDepth (size : ℕ) :
    ∃ depth, getRequiredDepth size = depth + 1 ∧ size < 64 ^ (depth + 1) := by
  induction size using Nat.strong_induction_on with
  | _ size ih =>
    unfold getRequiredDepth
    split_ifs with h
    · exact ⟨0, rfl, by omega⟩
    · obtain ⟨depth, hd, hlt⟩ := ih (size / 64) (by omega)
      refine ⟨depth + 1, by rw [hd], ?_⟩
      rw [Nat.pow_succ']
      omega

/-! ### The set of a bitmap -/

namespace KPageBitmap

variable {σ : Type} [TinyMT σ]

/-- The offsets whose bits are set, on the deepest level. -/
def bits (b : KPageBitmap σ) : Set ℕ :=
  match b.bitStorages with
  | [] => ∅
  | level :: _ => {i | level.bit i = true}

/-- The upper levels summarize the deepest one, which has room for `size` bits,
and the count is the number of bits. -/
structure Valid (b : KPageBitmap σ) (size : ℕ) : Prop where
  storages : ∃ level ups, b.bitStorages = level :: ups ∧ Summary level ups ∧ size ≤ 64 * level.length
  numBits : b.numBits = b.bits.ncard

omit [TinyMT σ] in
theorem bits_finite (b : KPageBitmap σ) : b.bits.Finite := by
  unfold bits
  split
  · exact finite_empty
  · next level _ _ =>
    refine (finite_Iio (64 * level.length)).subset fun i hi => ?_
    have := Level.lt_of_bit hi
    rw [mem_Iio]
    omega

omit [TinyMT σ] in
theorem bits_eq {b : KPageBitmap σ} {level : Level} {ups : List Level} (h : b.bitStorages = level :: ups) :
    b.bits = {i | level.bit i = true} := by
  unfold bits
  rw [h]

variable {b : KPageBitmap σ} {size off count : ℕ}

omit [TinyMT σ] in
theorem initializeBitmap_spec (rng : RandomBitGenerator σ) (h : 0 < size) :
    (initializeBitmap rng size).Valid size ∧ (initializeBitmap rng size).bits = ∅ := by
  obtain ⟨depth, hd, hlt⟩ := lt_pow_getRequiredDepth size
  obtain ⟨level, ups, hrun, hsum, hlen, hbit⟩ := summary_initialStorages depth size h hlt.le
  have hst : (initializeBitmap rng size).bitStorages = level :: ups := by
    rw [← hrun, ← hd]
    rfl
  have hbits : (initializeBitmap rng size).bits = ∅ := by
    rw [bits_eq hst]
    simp [hbit]
  refine ⟨⟨⟨level, ups, hst, hsum, hlen⟩, ?_⟩, hbits⟩
  rw [hbits, ncard_empty]
  rfl

omit [TinyMT σ] in
theorem setBit_spec (h : b.Valid size) (hlt : off < size) (hoff : off ∉ b.bits) :
    ∃ b', b.setBit off = some b' ∧ b'.Valid size ∧ b'.bits = insert off b.bits := by
  obtain ⟨level, ups, hst, hsum, hlen⟩ := h.storages
  rw [bits_eq hst, mem_ofPred_eq, Bool.not_eq_true] at hoff
  obtain ⟨level', ups', hrun, hsum', hlen', hbit⟩ := Kernel.setBit_spec ups hsum (by omega) hoff
  have hbits : bits { b with bitStorages := level' :: ups', numBits := b.numBits + 1 } = insert off b.bits := by
    rw [bits_eq rfl, bits_eq hst]
    ext i
    simp only [mem_ofPred_eq, mem_insert_iff, hbit]
    split_ifs with hi <;> simp [hi]
  refine ⟨_, ?_, ⟨⟨level', ups', rfl, hsum', by rwa [hlen']⟩, ?_⟩, hbits⟩
  · simp only [setBit, hst, hrun, bind_eq_bind, bind_some]
  · have hoff' : off ∉ b.bits := by rw [bits_eq hst]; simpa using hoff
    rw [hbits, ncard_insert_of_notMem hoff' b.bits_finite, ← h.numBits]

omit [TinyMT σ] in
theorem clearBit_spec (h : b.Valid size) (hoff : off ∈ b.bits) :
    ∃ b', b.clearBit off = some b' ∧ b'.Valid size ∧ b'.bits = b.bits \ {off} := by
  obtain ⟨level, ups, hst, hsum, hlen⟩ := h.storages
  have hoff' := hoff
  rw [bits_eq hst, mem_ofPred_eq] at hoff'
  obtain ⟨level', ups', hrun, hsum', hlen', hbit⟩ := Kernel.clearBit_spec ups hsum hoff'
  have hbits : bits { b with bitStorages := level' :: ups', numBits := b.numBits - 1 } = b.bits \ {off} := by
    rw [bits_eq rfl, bits_eq hst]
    ext i
    simp only [mem_ofPred_eq, mem_sdiff, mem_singleton_iff, hbit]
    split_ifs with hi <;> simp [hi]
  refine ⟨_, ?_, ⟨⟨level', ups', rfl, hsum', by rwa [hlen']⟩, ?_⟩, hbits⟩
  · simp only [clearBit, hst, hrun, bind_eq_bind, bind_some]
  · rw [hbits, ncard_sdiff_singleton_of_mem hoff, ← h.numBits]

omit [TinyMT σ] in
/-- `ClearRange` of fewer than 64 bits that lie in one word. -/
theorem clearRange_spec (h : b.Valid size) (hc : count < 64) (hpos : 0 < count)
    (hin : off % 64 + count ≤ 64) (hlt : off < size) :
    ∃ cleared b', b.clearRange off count = some (cleared, b') ∧ b'.Valid size ∧
      (cleared = true ↔ Set.Ico off (off + count) ⊆ b.bits) ∧
      b'.bits = if cleared then b.bits \ Set.Ico off (off + count) else b.bits := by
  obtain ⟨level, ups, hst, hsum, hlen⟩ := h.storages
  obtain ⟨level', ups', hrun, hsum', hlen', hbit⟩ := clearRangeWord_spec hsum hc hpos hin (by omega)
  have hall : (∀ i, off ≤ i → i < off + count → level.bit i = true) ↔ Set.Ico off (off + count) ⊆ b.bits := by
    rw [bits_eq hst]
    exact ⟨fun h i hi => h i hi.1 hi.2, fun h i h1 h2 => h ⟨h1, h2⟩⟩
  simp only [clearRange, if_pos hc, hst, hrun, bind_eq_bind, bind_some]
  by_cases hsub : ∀ i, off ≤ i → i < off + count → level.bit i = true
  · have hbits : bits { b with bitStorages := level' :: ups', numBits := b.numBits - count } =
        b.bits \ Set.Ico off (off + count) := by
      rw [bits_eq rfl, bits_eq hst]
      ext i
      have hiff : ((∀ i, off ≤ i → i < off + count → level.bit i = true) ∧ off ≤ i ∧ i < off + count) ↔
        i ∈ Set.Ico off (off + count) := and_iff_right hsub
      simp only [mem_ofPred_eq, mem_sdiff, hbit, hiff]
      split_ifs with hi <;> simp [hi]
    refine ⟨true, _, by rw [decide_eq_true hsub]; rfl, ⟨⟨level', ups', rfl, hsum', by rwa [hlen']⟩, ?_⟩,
      iff_of_true rfl (hall.mp hsub), hbits⟩
    rw [hbits, ncard_sdiff (hall.mp hsub) (finite_Ico ..), ← h.numBits, ncard_Ico_nat,
      Nat.add_sub_cancel_left]
  · exact ⟨false, b, by rw [decide_eq_false hsub]; rfl, h, iff_of_false (by simp) fun h => hsub (hall.mpr h), rfl⟩

/-- The search, linear or random, finds an offset in the set if it is not empty. -/
theorem findFreeBlock_spec (h : b.Valid size) (random : Bool) :
    ∃ found b', b.findFreeBlock random = some (found, b') ∧ b'.Valid size ∧ b'.bits = b.bits ∧
      b'.numBits = b.numBits ∧
      match found with
      | none => b.bits = ∅
      | some off => off ∈ b.bits := by
  obtain ⟨level, ups, hst, hsum, hlen⟩ := h.storages
  set select : RandomBitGenerator σ → BitVec 64 → ℕ × RandomBitGenerator σ := fun g v =>
    if random then g.selectRandomBit v else (countrZero v, g) with hselect
  have hs : Selects select := by
    cases random with
    | true => exact RandomBitGenerator.selectRandomBit_selects
    | false => exact countrZero_selects
  obtain ⟨found, g', hrun, hfound⟩ := Kernel.findFreeBlock_spec hs ups hsum b.rng
  have hbits : bits { b with rng := g' } = b.bits := rfl
  refine ⟨found, { b with rng := g' }, ?_, ⟨⟨level, ups, hst, hsum, hlen⟩, ?_⟩, hbits, rfl, ?_⟩
  · simp only [findFreeBlock, hst, ← hselect, hrun, bind_eq_bind, bind_some]
  · rw [hbits]
    exact h.numBits
  · cases found with
    | none =>
      rw [bits_eq hst]
      simp [hfound]
    | some off =>
      rw [bits_eq hst]
      exact hfound

end KPageBitmap

end Kernel
end Citron
