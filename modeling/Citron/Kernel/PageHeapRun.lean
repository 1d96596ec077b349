/-
# Runs of the page heap

A heap is initialized with no free pages; its user manages pages by a first `Free` of
them, and from then on allocates, and frees ranges of what is allocated. Whatever the
order of the calls, the free blocks are buddies that hold exactly the managed pages
which are not live, and each call returns.
-/
import Citron.Kernel.PageHeapAllocate

namespace Citron
namespace Kernel

open Common Lib Set

namespace KPageHeap

variable {σ : Type} [TinyMT σ] {h h' : KPageHeap σ} {i numPages alignPages : ℕ}

/-! ### Initialize -/

omit [TinyMT σ] in
theorem get_initializeBlocks (rngs : ℕ → RandomBitGenerator σ) (address size : ℕ) :
    ∀ (shifts : List ℕ) (k i : ℕ) (b : Block σ), (initializeBlocks rngs address size k shifts)[i]? = some b →
      ∃ shift, shifts[i]? = some shift ∧
        b = .initializeBlock (rngs (k + i)) address size shift ((shifts[i + 1]?).getD 0) := by
  intro shifts
  induction shifts with
  | nil =>
    intro k i b hb
    exact absurd hb (by simp [initializeBlocks])
  | cons shift shifts ih =>
    intro k i b hb
    unfold initializeBlocks at hb
    cases i with
    | zero =>
      refine ⟨shift, rfl, ?_⟩
      rw [List.getElem?_cons_zero] at hb
      rw [← Option.some.inj hb, Nat.add_zero]
      cases shifts with
      | nil => rfl
      | cons _ _ => rfl
    | succ i =>
      rw [List.getElem?_cons_succ] at hb
      obtain ⟨shift', hshift, hb⟩ := ih (k + 1) i b hb
      exact ⟨shift', hshift, by rw [hb, Nat.add_right_comm k, Nat.add_assoc]; rfl⟩

omit [TinyMT σ] in
theorem length_initializeBlocks (rngs : ℕ → RandomBitGenerator σ) (address size : ℕ) :
    ∀ (shifts : List ℕ) (k : ℕ), (initializeBlocks rngs address size k shifts).length = shifts.length := by
  intro shifts
  induction shifts with
  | nil => exact fun _ => rfl
  | cons shift shifts ih =>
    intro k
    unfold initializeBlocks
    rw [List.length_cons, List.length_cons, ih]

theorem next_shift (hi : i < 7) : (memoryBlockPageShifts[i + 1]?).getD 0 = nextShiftOf i := by
  revert i
  decide

/-- `align` of `Block::Initialize`. -/
theorem align_eq (hi : i < 7) :
    (if nextShiftOf i ≠ 0 then 1 <<< nextShiftOf i else 1 <<< shiftOf i) = bytes (i + 1) := by
  unfold nextShiftOf
  by_cases hi6 : i < 6
  · rw [if_pos hi6, if_pos (shiftOf_ne_zero _), one_shiftLeft_shiftOf]
  · rw [if_neg hi6, if_neg (not_not.mpr rfl), one_shiftLeft_shiftOf, bytes_of_le (by omega), bytes_of_le (by omega)]

omit [TinyMT σ] in
theorem initializeBlock_ok (rng : RandomBitGenerator σ) (address : ℕ) {size : ℕ} (hi : i < 7) (hsize : 0 < size) :
    (Block.initializeBlock rng address size (shiftOf i) (nextShiftOf i)).Ok address size i ∧
      (Block.initializeBlock rng address size (shiftOf i) (nextShiftOf i)).marks i = ∅ := by
  have hend : 0 < (alignUp (address + size) (bytes (i + 1)) - alignDown address (bytes (i + 1))) / bytes i := by
    have h1 := alignDown_le address (bytes (i + 1))
    have h2 : address + size ≤ alignUp (address + size) (bytes (i + 1)) := le_alignUp (bytes_pos (i + 1))
    have hd := (bytes_dvd i).trans (Nat.dvd_sub (dvd_alignUp (address + size) (bytes (i + 1)))
      (dvd_alignDown address (bytes (i + 1))))
    exact Nat.div_pos (Nat.le_of_dvd (by omega) hd) (bytes_pos i)
  obtain ⟨hvalid, hbits⟩ := KPageBitmap.initializeBitmap_spec rng hend
  unfold Block.initializeBlock
  rw [align_eq hi]
  refine ⟨⟨rfl, rfl, rfl, rfl, hvalid⟩, ?_⟩
  unfold Block.marks
  rw [one_shiftLeft_shiftOf, hbits, image_empty]

omit [TinyMT σ] in
theorem initializeHeap_inv (rng : RandomBitGenerator σ) (rngs : ℕ → RandomBitGenerator σ) {address size : ℕ}
    (haddr : 0 < address) (hsize : 0 < size) :
    (initializeHeap rng rngs address size).Inv ∧ (initializeHeap rng rngs address size).freePages = ∅ := by
  have hlen : (initializeHeap rng rngs address size).blocks.length = 7 := length_initializeBlocks rngs address size _ 0
  have hblock : ∀ i (b : Block σ), (initializeHeap rng rngs address size).blocks[i]? = some b →
      b.Ok address size i ∧ b.marks i = ∅ := by
    intro i b hb
    have hi : i < 7 := hlen ▸ (List.getElem?_eq_some_iff.mp hb).1
    obtain ⟨shift, hshift, rfl⟩ := get_initializeBlocks rngs address size _ 0 i b hb
    have h1 : shift = shiftOf i := by
      unfold shiftOf
      rw [List.getD_eq_getElem?_getD, hshift, Option.getD_some]
    rw [h1, next_shift hi]
    exact initializeBlock_ok _ address hi hsize
  have hmarks : (initializeHeap rng rngs address size).marks = fun _ => ∅ := by
    funext i
    unfold marks
    split
    · next b hb => exact (hblock i b hb).2
    · rfl
  have hfree : (initializeHeap rng rngs address size).freePages = ∅ := by
    unfold freePages
    rw [hmarks]
    refine eq_empty_of_forall_notMem fun p hp => ?_
    obtain ⟨i, -, hp⟩ := hp
    exact hp
  refine ⟨⟨haddr, hlen, fun i b hb => (hblock i b hb).1, ?_, hfree ▸ empty_subset _⟩, hfree⟩
  rw [hmarks]
  refine ⟨fun p i j _ _ h1 => absurd h1 (notMem_empty _), fun i n _ hp => ?_⟩
  have hmem : n * sizes.ratio i ∈ sizes.parts i n :=
    BlockSizes.mem_parts.mpr (Nat.mul_div_cancel _ (BlockSizes.ratio_pos i))
  exact hp hmem

/-! ### The number of free pages -/

theorem sum_map_eq {α : Type} (f : α → ℕ) : ∀ (l : List α) (g : ℕ → ℕ), (∀ i a, l[i]? = some a → f a = g i) →
    (l.map f).sum = ∑ i ∈ Finset.range l.length, g i := by
  intro l
  induction l with
  | nil => exact fun _ _ => rfl
  | cons a l ih =>
    intro g hg
    rw [List.map_cons, List.sum_cons, List.length_cons, Finset.sum_range_succ', hg 0 a rfl, Nat.add_comm,
      ih (fun i => g (i + 1)) fun i b hb => hg (i + 1) b hb]

omit [TinyMT σ] in
theorem Inv.getNumFreePages (hinv : h.Inv) : h.getNumFreePages = h.freePages.ncard := by
  have hfin : ∀ i, (h.marks i).Finite := by
    intro i
    unfold marks
    split
    · exact Block.marks_finite _ _
    · exact finite_empty
  unfold KPageHeap.getNumFreePages freePages
  rw [hinv.buddies.ncard_pages hfin]
  have hlen : sizes.levels = h.blocks.length := hinv.length.symm
  rw [hlen]
  refine sum_map_eq _ _ _ fun i b hb => ?_
  have hok := hinv.ok i b hb
  unfold Block.getNumFreePages Block.getNumFreeBlocks Block.getNumPages Block.getSize
  rw [hok.valid.numBits, ← Block.marks_ncard b i, marks_of_get hb, hok.shift]
  rfl

/-! ### The calls -/

theorem Inv.allocateBlock (hinv : h.Inv) (hi : i < 7) (random : Bool) :
    ∃ addr h', h.allocateBlock i random = some (addr, h') ∧ Allocates h (bytes i) (bytes i) addr h' := by
  unfold KPageHeap.allocateBlock
  cases random with
  | false => exact hinv.allocateByLinearSearch hi
  | true =>
    obtain ⟨b, hb, hok⟩ := hinv.get hi
    have hpages : b.getNumPages * PageSize = bytes i := by
      unfold Block.getNumPages Block.getSize
      rw [hok.shift, one_shiftLeft_shiftOf, Nat.div_mul_cancel (pageSize_dvd_bytes i)]
    have hrun : ∃ addr h', h.allocateByRandom i b.getNumPages b.getNumPages = some (addr, h') ∧
        Allocates h (b.getNumPages * PageSize) (b.getNumPages * PageSize) addr h' :=
      hinv.allocateByRandom hi hpages.le (hpages.trans (Nat.one_shiftLeft _)) (shiftOf_lt i) (hpages ▸ dvd_rfl)
    rw [hpages] at hrun
    simp only [hb, Option.bind_eq_bind, Option.bind_some]
    exact hrun

theorem getAlignedBlockIndex_spec (hi : getAlignedBlockIndex numPages alignPages = some i) :
    i < 7 ∧ numPages * PageSize ≤ bytes i ∧ alignPages * PageSize ≤ bytes i := by
  obtain ⟨hlt, hle, -⟩ := List.findIdx?_eq_some_iff_getElem.mp hi
  have hshift : memoryBlockPageShifts[i] = shiftOf i := by
    rw [shiftOf, List.getD_eq_getElem?_getD, List.getElem?_eq_getElem hlt, Option.getD_some]
  rw [hshift, one_shiftLeft_shiftOf, decide_eq_true_eq] at hle
  have hmul := Nat.mul_le_mul_right PageSize hle
  rw [Nat.div_mul_cancel (pageSize_dvd_bytes i)] at hmul
  refine ⟨hlt, le_trans (Nat.mul_le_mul_right _ (le_max_left ..)) hmul,
    le_trans (Nat.mul_le_mul_right _ (le_max_right ..)) hmul⟩

theorem Inv.allocateAligned {k : ℕ} (hinv : h.Inv) (hi : getAlignedBlockIndex numPages alignPages = some i)
    (hk : alignPages = 2 ^ k) :
    ∃ addr h', h.allocateAligned i numPages alignPages = some (addr, h') ∧
      Allocates h (numPages * PageSize) (alignPages * PageSize) addr h' := by
  obtain ⟨hi7, hneeded, halign⟩ := getAlignedBlockIndex_spec hi
  have hpow : alignPages * PageSize = 2 ^ (k + 12) := by
    rw [hk, pow_add]
    rfl
  have hbytes : bytes i = 2 ^ shiftOf i := Nat.one_shiftLeft _
  have hle : k + 12 ≤ shiftOf i := by
    rw [hpow, hbytes] at halign
    exact (Nat.pow_le_pow_iff_right (by decide)).mp halign
  refine hinv.allocateByRandom hi7 hneeded hpow (hle.trans_lt (shiftOf_lt i)) ?_
  rw [hpow, hbytes]
  exact pow_dvd_pow 2 hle

/-! ### Runs -/

/-- The live pages after a call that returned `addr`. -/
def liveAfter (live : Set ℕ) (addr size : ℕ) : Set ℕ :=
  if addr = 0 then live else live ∪ pageRange addr (addr + size)

/-- The heaps that a user can reach, with the pages managed and those that are live. The
callers of `AllocateAligned` find its index with `GetAlignedBlockIndex`, and align to powers of two. -/
inductive Reaches : KPageHeap σ → Set ℕ → Set ℕ → Prop
  | initial {rng rngs address size} (haddr : PageSize ∣ address) (hsize : PageSize ∣ size) (hpos : 0 < address)
      (hsz : 0 < size) : Reaches (initializeHeap rng rngs address size) ∅ ∅
  | manage {h h' managed live addr numPages} (hr : Reaches h managed live) (haddr : PageSize ∣ addr)
      (hin : pageRange addr (addr + numPages * PageSize) ⊆ h.region)
      (hnew : Disjoint (pageRange addr (addr + numPages * PageSize)) managed)
      (hrun : h.free addr numPages = some h') :
      Reaches h' (managed ∪ pageRange addr (addr + numPages * PageSize)) live
  | allocateBlock {h h' managed live index random addr} (hr : Reaches h managed live) (hi : index < 7)
      (hrun : h.allocateBlock index random = some (addr, h')) :
      Reaches h' managed (liveAfter live addr (bytes index))
  | allocateAligned {h h' managed live index numPages alignPages k addr} (hr : Reaches h managed live)
      (hi : getAlignedBlockIndex numPages alignPages = some index) (hk : alignPages = 2 ^ k)
      (hrun : h.allocateAligned index numPages alignPages = some (addr, h')) :
      Reaches h' managed (liveAfter live addr (numPages * PageSize))
  | free {h h' managed live addr numPages} (hr : Reaches h managed live) (haddr : PageSize ∣ addr)
      (hlive : pageRange addr (addr + numPages * PageSize) ⊆ live) (hrun : h.free addr numPages = some h') :
      Reaches h' managed (live \ pageRange addr (addr + numPages * PageSize))

/-- The free pages are the managed ones that are not live. -/
structure Balanced (h : KPageHeap σ) (managed live : Set ℕ) : Prop where
  inv : h.Inv
  inside : managed ⊆ h.region
  live_sub : live ⊆ managed
  pages : h.freePages = managed \ live

section Steps

variable {managed live : Set ℕ} {size align addr : ℕ}

omit [TinyMT σ] in
theorem Balanced.allocate (hb : Balanced h managed live) (ha : Allocates h size align addr h') :
    Balanced h' managed (liveAfter live addr size) := by
  rcases ha with ⟨rfl, ht⟩ | ⟨hne, -, ht⟩
  · refine ⟨ht.inv, ht.region ▸ hb.inside, hb.live_sub, ?_⟩
    rw [ht.pages, sdiff_empty, hb.pages]
    rfl
  · have hsub := ht.sub
    rw [hb.pages] at hsub
    unfold liveAfter
    rw [if_neg hne]
    refine ⟨ht.inv, ht.region ▸ hb.inside, union_subset hb.live_sub (hsub.trans sdiff_subset), ?_⟩
    rw [ht.pages, hb.pages, Set.sdiff_sdiff]

omit [TinyMT σ] in
/-- What an allocation takes was managed, and not live. -/
theorem Balanced.fresh (hb : Balanced h managed live) (ha : Allocates h size align addr h') (hne : addr ≠ 0) :
    align ∣ addr ∧ pageRange addr (addr + size) ⊆ managed ∧ Disjoint (pageRange addr (addr + size)) live := by
  rcases ha with ⟨h0, -⟩ | ⟨-, hd, ht⟩
  · exact absurd h0 hne
  · have hsub := ht.sub
    rw [hb.pages] at hsub
    exact ⟨hd, hsub.trans sdiff_subset, disjoint_sdiff_left.mono_left hsub⟩

omit [TinyMT σ] in
theorem Balanced.held {s : Set ℕ} (hb : Balanced h managed live) (hs : s ⊆ live) : h.Held s := by
  refine ⟨(hs.trans hb.live_sub).trans hb.inside, ?_⟩
  rw [hb.pages]
  exact disjoint_sdiff_right.mono_left hs

theorem Reaches.balanced (hr : Reaches h managed live) : Balanced h managed live := by
  induction hr with
  | initial haddr hsize hpos hsz =>
    obtain ⟨hinv, hfree⟩ := initializeHeap_inv _ _ hpos hsz
    exact ⟨hinv, empty_subset _, empty_subset _, by rw [hfree, sdiff_empty]⟩
  | @manage h h' managed live addr numPages hr haddr hin hnew hrun ih =>
    have hdisj : Disjoint (pageRange addr (addr + numPages * PageSize)) h.freePages := by
      rw [ih.pages]
      exact hnew.mono_right sdiff_subset
    obtain ⟨h'', hrun', hf⟩ := free_spec ih.inv haddr ⟨hin, hdisj⟩
    obtain rfl := Option.some.inj (hrun'.symm.trans hrun)
    refine ⟨hf.inv, ?_, ih.live_sub.trans subset_union_left, ?_⟩
    · rw [hf.region]
      exact union_subset ih.inside hin
    · rw [hf.pages, ih.pages, union_sdiff_distrib, (hnew.mono_right ih.live_sub).sdiff_eq_left]
  | allocateBlock hr hi hrun ih =>
    obtain ⟨addr', h'', hrun', ha⟩ := ih.inv.allocateBlock hi _
    obtain ⟨rfl, rfl⟩ := Prod.mk.inj (Option.some.inj (hrun'.symm.trans hrun))
    exact ih.allocate ha
  | allocateAligned hr hi hk hrun ih =>
    obtain ⟨addr', h'', hrun', ha⟩ := ih.inv.allocateAligned hi hk
    obtain ⟨rfl, rfl⟩ := Prod.mk.inj (Option.some.inj (hrun'.symm.trans hrun))
    exact ih.allocate ha
  | free hr haddr hlive hrun ih =>
    obtain ⟨h'', hrun', hf⟩ := free_spec ih.inv haddr (ih.held hlive)
    obtain rfl := Option.some.inj (hrun'.symm.trans hrun)
    refine ⟨hf.inv, hf.region ▸ ih.inside, sdiff_subset.trans ih.live_sub, ?_⟩
    rw [hf.pages, ih.pages, Set.sdiff_sdiff_right, inter_eq_right.mpr (hlive.trans ih.live_sub)]

/-- In every run the free blocks of all sizes are disjoint, they hold exactly the managed
pages that are not live, all of them are counted and coalesced, and every call returns:
an allocation with pages that are managed, not live, and aligned. -/
theorem Reaches.free_blocks (hr : Reaches h managed live) :
    (∀ i j n m, i < 7 → j < 7 → n ∈ h.marks i → m ∈ h.marks j → (i ≠ j ∨ n ≠ m) →
      Disjoint (sizes.block i n) (sizes.block j m)) ∧
    (∀ p, (∃ i n, i < 7 ∧ n ∈ h.marks i ∧ p ∈ sizes.block i n) ↔ p ∈ managed \ live) ∧
    live ⊆ managed ∧
    h.getNumFreePages = (managed \ live).ncard ∧
    (∀ i n, i + 1 < 7 → ∃ m ∈ sizes.parts i n, m ∉ h.marks i) ∧
    (∀ i random, i < 7 → ∃ addr h', h.allocateBlock i random = some (addr, h') ∧
      (addr ≠ 0 → bytes i ∣ addr ∧ pageRange addr (addr + bytes i) ⊆ managed ∧
        Disjoint (pageRange addr (addr + bytes i)) live)) ∧
    (∀ numPages k i, getAlignedBlockIndex numPages (2 ^ k) = some i →
      ∃ addr h', h.allocateAligned i numPages (2 ^ k) = some (addr, h') ∧
        (addr ≠ 0 → 2 ^ k * PageSize ∣ addr ∧ pageRange addr (addr + numPages * PageSize) ⊆ managed ∧
          Disjoint (pageRange addr (addr + numPages * PageSize)) live)) ∧
    (∀ addr numPages, PageSize ∣ addr → pageRange addr (addr + numPages * PageSize) ⊆ live →
      ∃ h', h.free addr numPages = some h') := by
  have hb := hr.balanced
  refine ⟨?_, ?_, hb.live_sub, ?_, ?_, ?_, ?_, ?_⟩
  · intro i j n m hi hj hn hm hne
    refine disjoint_left.mpr fun p hp hp' => ?_
    rw [BlockSizes.mem_block] at hp hp'
    have hij := hb.inv.buddies.disjoint p i j hi hj (hp.symm ▸ hn) (hp'.symm ▸ hm)
    subst hij
    rcases hne with hne | hne
    · exact hne rfl
    · exact hne (hp.symm.trans hp')
  · intro p
    rw [← hb.pages]
    constructor
    · rintro ⟨i, n, hi, hn, hp⟩
      exact ⟨i, hi, (BlockSizes.mem_block.mp hp).symm ▸ hn⟩
    · rintro ⟨i, hi, hp⟩
      exact ⟨i, _, hi, hp, BlockSizes.mem_block.mpr rfl⟩
  · rw [hb.inv.getNumFreePages, hb.pages]
  · intro i n hi
    exact not_subset.mp (hb.inv.buddies.coalesced i n hi)
  · intro i random hi
    obtain ⟨addr, h', hrun, ha⟩ := hb.inv.allocateBlock hi random
    exact ⟨addr, h', hrun, hb.fresh ha⟩
  · intro numPages k i hi
    obtain ⟨addr, h', hrun, ha⟩ := hb.inv.allocateAligned hi rfl
    exact ⟨addr, h', hrun, hb.fresh ha⟩
  · intro addr numPages haddr hlive
    obtain ⟨h', hrun, -⟩ := free_spec hb.inv haddr (hb.held hlive)
    exact ⟨h', hrun⟩

/-- A generator that always gives the same bits. -/
@[reducible] def constantTinyMT : TinyMT Unit := ⟨fun u => (0, u)⟩

/-- The pages of a fresh heap of 16 pages at `0x10000` are all free once they are managed. -/
theorem free_blocks_sixteen_pages : ∃ h, @Reaches Unit constantTinyMT h (∅ ∪ pageRange 0x10000 0x20000) ∅ ∧
    h.getNumFreePages = ((∅ ∪ pageRange 0x10000 0x20000) \ ∅).ncard ∧
    ∃ addr h', @allocateBlock Unit constantTinyMT h 1 true = some (addr, h') ∧
      (addr ≠ 0 → bytes 1 ∣ addr) := by
  let _ := constantTinyMT
  have h0 : Reaches (initializeHeap ⟨(), 0, 0⟩ (fun _ => ⟨(), 0, 0⟩) 0x10000 0x10000 : KPageHeap Unit) ∅ ∅ :=
    .initial (by decide) (by decide) (by decide) (by decide)
  have hb := h0.balanced
  have hheld : (initializeHeap ⟨(), 0, 0⟩ (fun _ => ⟨(), 0, 0⟩) 0x10000 0x10000 : KPageHeap Unit).Held
      (pageRange 0x10000 (0x10000 + 16 * PageSize)) := by
    refine ⟨subset_rfl, ?_⟩
    rw [hb.pages, sdiff_empty]
    exact disjoint_empty _
  obtain ⟨h, hrun, -⟩ := free_spec hb.inv (by decide) hheld
  have hr : Reaches h (∅ ∪ pageRange 0x10000 0x20000) ∅ :=
    .manage h0 (by decide) subset_rfl (disjoint_empty _) hrun
  obtain ⟨-, -, -, hcount, -, halloc, -⟩ := Reaches.free_blocks hr
  obtain ⟨addr, h', hrun', haddr⟩ := halloc 1 true (by decide)
  exact ⟨h, hr, hcount, addr, h', hrun', fun hne => (haddr hne).1⟩

end Steps

end KPageHeap

end Kernel
end Citron
