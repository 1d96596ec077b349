/-
# The page heap

`KPageHeap` keeps the free pages of a physical region in blocks of seven sizes,
with a bitmap for each size. `AllocateBlock` and `AllocateAligned` pop a block and
free what they do not need of it, and `Free` cuts a range into blocks. The address
0 stands for "no block". An access past the last size gives `none`. Addresses are
natural numbers: the physical address space ends far below the wrap-around.
-/
import Citron.Kernel.MemoryBlock
import Citron.Kernel.PageBitmapSet
import Citron.Lib.Buddy

namespace Citron
namespace Kernel

open Common

namespace KPageHeap

variable {σ : Type} [TinyMT σ]

/-! ### The blocks of one size -/

structure Block (σ : Type) where
  bitmap : KPageBitmap σ
  heapAddress : ℕ
  endOffset : ℕ
  blockShift : ℕ
  nextBlockShift : ℕ

namespace Block

def getSize (b : Block σ) : ℕ := 1 <<< b.blockShift

def getNumPages (b : Block σ) : ℕ := b.getSize / PageSize

def getNumFreeBlocks (b : Block σ) : ℕ := b.bitmap.numBits

def getNumFreePages (b : Block σ) : ℕ := b.getNumFreeBlocks * b.getNumPages

/-- `Initialize`, with the generator of the bitmap. -/
def initializeBlock (rng : RandomBitGenerator σ) (addr size bs nbs : ℕ) : Block σ :=
  let align := if nbs ≠ 0 then 1 <<< nbs else 1 <<< bs
  let heapAddress := alignDown addr align
  let endOffset := (alignUp (addr + size) align - heapAddress) / (1 <<< bs)
  { bitmap := .initializeBitmap rng endOffset
    heapAddress := heapAddress
    endOffset := endOffset
    blockShift := bs
    nextBlockShift := nbs }

/-- Mark a block as free. Gives back the block of the next size that it completes, if any. -/
def pushBlock (b : Block σ) (address : ℕ) : Option (ℕ × Block σ) := do
  let offset := (address - b.heapAddress) >>> b.blockShift
  let bitmap ← b.bitmap.setBit offset
  if b.nextBlockShift ≠ 0 then do
    let diff := 1 <<< (b.nextBlockShift - b.blockShift)
    let offset := alignDown offset diff
    let (cleared, bitmap) ← bitmap.clearRange offset diff
    if cleared then some (b.heapAddress + offset <<< b.blockShift, { b with bitmap })
    else some (0, { b with bitmap })
  else some (0, { b with bitmap })

def popBlock (b : Block σ) (random : Bool) : Option (ℕ × Block σ) := do
  let (soffset, bitmap) ← b.bitmap.findFreeBlock random
  match soffset with
  | none => some (0, { b with bitmap })
  | some offset => do
    let bitmap ← bitmap.clearBit offset
    some (b.heapAddress + offset <<< b.blockShift, { b with bitmap })

end Block

/-- `MemoryBlockPageShifts`. -/
def memoryBlockPageShifts : List ℕ := [0xC, 0x10, 0x15, 0x16, 0x19, 0x1D, 0x1E]

end KPageHeap

open KPageHeap in
structure KPageHeap (σ : Type) where
  heapAddress : ℕ
  heapSize : ℕ
  blocks : List (Block σ)
  rng : RandomBitGenerator σ

namespace KPageHeap

variable {σ : Type} [TinyMT σ]

def initializeBlocks (rngs : ℕ → RandomBitGenerator σ) (address size : ℕ) : ℕ → List ℕ → List (Block σ)
  | _, [] => []
  | i, curBlockShift :: shifts =>
    .initializeBlock (rngs i) address size curBlockShift (shifts.headD 0) ::
      initializeBlocks rngs address size (i + 1) shifts

/-- `Initialize`, with the generators of the heap and of the bitmaps. -/
def initializeHeap (rng : RandomBitGenerator σ) (rngs : ℕ → RandomBitGenerator σ) (address size : ℕ) :
    KPageHeap σ :=
  { heapAddress := address
    heapSize := size
    blocks := initializeBlocks rngs address size 0 memoryBlockPageShifts
    rng := rng }

def getNumFreePages (h : KPageHeap σ) : ℕ := (h.blocks.map Block.getNumFreePages).sum

def setBlock (h : KPageHeap σ) (index : ℕ) (b : Block σ) : KPageHeap σ :=
  { h with blocks := h.blocks.set index b }

/-! ### Free -/

/-- `FreeBlock`: push the block, and what it completes, for at most `levels` sizes. -/
def freeBlockLoop : ℕ → KPageHeap σ → ℕ → ℕ → Option (KPageHeap σ)
  | 0, _, _, _ => none
  | levels + 1, h, block, index => do
    let b ← h.blocks[index]?
    let (block, b) ← b.pushBlock block
    let h := h.setBlock index b
    if block ≠ 0 then freeBlockLoop levels h block (index + 1) else some h

def freeBlock (h : KPageHeap σ) (block index : ℕ) : Option (KPageHeap σ) :=
  freeBlockLoop (h.blocks.length - index) h block index

theorem shift_pos (shift : ℕ) : 0 < 1 <<< shift := by
  rw [Nat.one_shiftLeft]
  exact Nat.two_pow_pos shift

/-- `for (block = big_start; block < big_end; block += block_size)`. -/
def freeBig (h : KPageHeap σ) (index shift block bigEnd : ℕ) : Option (KPageHeap σ) :=
  if block < bigEnd then do
    let h ← h.freeBlock block index
    h.freeBig index shift (block + 1 <<< shift) bigEnd
  else some h
termination_by bigEnd - block
decreasing_by
  have := shift_pos shift
  omega

/-- `while (before_start + block_size <= before_end)`. -/
def freeBefore (h : KPageHeap σ) (index shift beforeStart beforeEnd : ℕ) : Option (ℕ × KPageHeap σ) :=
  if beforeStart + 1 <<< shift ≤ beforeEnd then do
    let h ← h.freeBlock (beforeEnd - 1 <<< shift) index
    h.freeBefore index shift beforeStart (beforeEnd - 1 <<< shift)
  else some (beforeEnd, h)
termination_by beforeEnd
decreasing_by
  have := shift_pos shift
  omega

/-- `while (after_start + block_size <= after_end)`. -/
def freeAfter (h : KPageHeap σ) (index shift afterStart afterEnd : ℕ) : Option (ℕ × KPageHeap σ) :=
  if afterStart + 1 <<< shift ≤ afterEnd then do
    let h ← h.freeBlock afterStart index
    h.freeAfter index shift (afterStart + 1 <<< shift) afterEnd
  else some (afterStart, h)
termination_by afterEnd - afterStart
decreasing_by
  have := shift_pos shift
  omega

/-- Free space before the big blocks, with the sizes below `index`. -/
def freeAllBefore (h : KPageHeap σ) (beforeStart : ℕ) : ℕ → ℕ → Option (KPageHeap σ)
  | 0, _ => some h
  | i + 1, beforeEnd => do
    let b ← h.blocks[i]?
    let (beforeEnd, h) ← h.freeBefore i b.blockShift beforeStart beforeEnd
    h.freeAllBefore beforeStart i beforeEnd

/-- Free space after the big blocks, with the sizes below `index`. -/
def freeAllAfter (h : KPageHeap σ) (afterEnd : ℕ) : ℕ → ℕ → Option (KPageHeap σ)
  | 0, _ => some h
  | i + 1, afterStart => do
    let b ← h.blocks[i]?
    let (afterStart, h) ← h.freeAfter i b.blockShift afterStart afterEnd
    h.freeAllAfter afterEnd i afterStart

/-- The largest block size below `index` that fits into the range. -/
def findBigIndex (h : KPageHeap σ) (start stop : ℕ) : ℕ → Option (ℕ × Block σ)
  | 0 => none
  | i + 1 => do
    let b ← h.blocks[i]?
    if alignUp start b.getSize < alignDown stop b.getSize then some (i, b) else h.findBigIndex start stop i

def free (h : KPageHeap σ) (addr numPages : ℕ) : Option (KPageHeap σ) :=
  if numPages = 0 then some h
  else
    let stop := addr + numPages * PageSize
    match h.findBigIndex addr stop h.blocks.length with
    | none => some h
    | some (bigIndex, big) => do
      let bigStart := alignUp addr big.getSize
      let bigEnd := alignDown stop big.getSize
      let h ← h.freeBig bigIndex big.blockShift bigStart bigEnd
      let h ← h.freeAllBefore addr bigIndex bigStart
      h.freeAllAfter stop bigIndex bigEnd

/-! ### Allocate -/

/-- The loop of `AllocateByLinearSearch` over the sizes from `i` on. -/
def linearSearch (neededSize : ℕ) : ℕ → KPageHeap σ → ℕ → Option (ℕ × KPageHeap σ)
  | 0, h, _ => some (0, h)
  | levels + 1, h, i => do
    let b ← h.blocks[i]?
    let (addr, b) ← b.popBlock false
    let h := h.setBlock i b
    if addr ≠ 0 then
      let allocatedSize := b.getSize
      if allocatedSize > neededSize then do
        let h ← h.free (addr + neededSize) ((allocatedSize - neededSize) / PageSize)
        some (addr, h)
      else some (addr, h)
    else linearSearch neededSize levels h (i + 1)

def allocateByLinearSearch (h : KPageHeap σ) (index : ℕ) : Option (ℕ × KPageHeap σ) := do
  let b ← h.blocks[index]?
  linearSearch b.getSize (h.blocks.length - index) h index

/-- The possible alignments in the free blocks of a size. -/
def possibleAlignments (b : Block σ) (neededSize alignShift : ℕ) : ℕ :=
  (1 + (b.getSize - neededSize) >>> alignShift) * b.getNumFreeBlocks

/-- Count the possible alignments from `i` on, until there are four: their number,
and where the sizes to look at end. -/
def countAlignments (neededSize alignShift : ℕ) : List (Block σ) → ℕ → ℕ → ℕ × ℕ
  | [], i, possible => (possible, i)
  | b :: bs, i, possible =>
    let possible := possible + possibleAlignments b neededSize alignShift
    if possible ≥ 4 then (possible, i + 1) else countAlignments neededSize alignShift bs (i + 1) possible

/-- The size that the random alignment lies in. -/
def chooseIndex (neededSize alignShift rnd : ℕ) : List (Block σ) → ℕ → ℕ → Option ℕ
  | [], _, _ => none
  | b :: bs, i, possible =>
    let possible := possible + possibleAlignments b neededSize alignShift
    if rnd < possible then some i else chooseIndex neededSize alignShift rnd bs (i + 1) possible

/-- The size to allocate from. -/
def selectIndex (h : KPageHeap σ) (index neededSize alignShift : ℕ) : ℕ × KPageHeap σ :=
  let (possible, maxBlocks) := countAlignments neededSize alignShift (h.blocks.drop index) index 0
  if possible > 0 ∧ index + 1 < maxBlocks then
    let (rnd, rng) := h.rng.generateRandom possible
    let blocks := (h.blocks.take maxBlocks).drop index
    ((chooseIndex neededSize alignShift rnd blocks index 0).getD index, { h with rng })
  else (index, h)

def allocateByRandom (h : KPageHeap σ) (index numPages alignPages : ℕ) : Option (ℕ × KPageHeap σ) := do
  let neededSize := numPages * PageSize
  let alignSize := alignPages * PageSize
  let alignShift := countrZero (BitVec.ofNat 64 alignSize)
  let (index, h) := h.selectIndex index neededSize alignShift
  let b ← h.blocks[index]?
  let (addr, b) ← b.popBlock true
  let h := h.setBlock index b
  if addr ≠ 0 then
    let leftoverSize := b.getSize - neededSize
    if leftoverSize > 0 then do
      let possibleAlignments := 1 + leftoverSize >>> alignShift
      let (rnd, rng) := h.rng.generateRandom possibleAlignments
      let h := { h with rng }
      let randomOffset := rnd <<< alignShift
      let h ← (if randomOffset ≠ 0 then h.free addr (randomOffset / PageSize) else some h)
      let addr := addr + randomOffset
      let h ← (if randomOffset ≠ leftoverSize then
          h.free (addr + neededSize) ((leftoverSize - randomOffset) / PageSize)
        else some h)
      some (addr, h)
    else some (addr, h)
  else some (0, h)

def allocateBlock (h : KPageHeap σ) (index : ℕ) (random : Bool) : Option (ℕ × KPageHeap σ) :=
  if random then do
    let b ← h.blocks[index]?
    h.allocateByRandom index b.getNumPages b.getNumPages
  else h.allocateByLinearSearch index

def allocateAligned (h : KPageHeap σ) (index numPages alignPages : ℕ) : Option (ℕ × KPageHeap σ) :=
  h.allocateByRandom index numPages alignPages

/-- The smallest size whose blocks hold the pages and are aligned enough. -/
def getAlignedBlockIndex (numPages alignPages : ℕ) : Option ℕ :=
  let targetPages := max numPages alignPages
  memoryBlockPageShifts.findIdx? fun shift => targetPages ≤ 1 <<< shift / PageSize

end KPageHeap
end Kernel

/-! ## The block sizes of the page heap

The seven block sizes as buddy blocks of pages (`sizes`), the free blocks of a heap
as marks (`marks`), and what `PushBlock` and `PopBlock` do to the marks of their size.
-/

namespace Kernel

open Common Lib

namespace KPageHeap

/-! ### The sizes -/

/-- The shift of a size; the last one for all sizes beyond. -/
def shiftOf (i : ℕ) : ℕ := memoryBlockPageShifts.getD i 0x1E

/-- `next_block_shift` of a size; the last one has none. -/
def nextShiftOf (i : ℕ) : ℕ := if i < 6 then shiftOf (i + 1) else 0

/-- The size of a block in bytes. -/
def bytes (i : ℕ) : ℕ := 1 <<< shiftOf i

theorem bytes_of_le {i : ℕ} (h : 6 ≤ i) : bytes i = 0x40000000 := by
  have : shiftOf i = 0x1E := by
    unfold shiftOf
    rw [List.getD_eq_getElem?_getD]
    rcases Nat.eq_or_lt_of_le h with rfl | h
    · rfl
    · rw [List.getElem?_eq_none (by simp [memoryBlockPageShifts]; omega)]
      rfl
  rw [bytes, this]
  rfl

/-- A property of all sizes is one of the first seven. -/
theorem forall_size {P : ℕ → ℕ → Prop} (h : ∀ i < 6, P (bytes i) (bytes (i + 1)))
    (hlast : P 0x40000000 0x40000000) (i : ℕ) : P (bytes i) (bytes (i + 1)) := by
  rcases Nat.lt_or_ge i 6 with hi | hi
  · exact h i hi
  · rw [bytes_of_le hi, bytes_of_le (by omega)]
    exact hlast

theorem bytes_dvd (i : ℕ) : bytes i ∣ bytes (i + 1) :=
  forall_size (P := (· ∣ ·)) (by decide) (by decide) i

theorem pageSize_dvd_bytes (i : ℕ) : PageSize ∣ bytes i :=
  forall_size (P := fun a _ => PageSize ∣ a) (by decide) (by decide) i

theorem bytes_pos (i : ℕ) : 0 < bytes i := shift_pos _

/-- The block sizes in pages. -/
def sizes : BlockSizes where
  levels := 7
  size i := bytes i / PageSize
  pos i := Nat.div_pos (Nat.le_of_dvd (bytes_pos i) (pageSize_dvd_bytes i)) (by decide)
  dvd i := Nat.div_dvd_div (pageSize_dvd_bytes i) (bytes_dvd i)

theorem bytes_eq (i : ℕ) : bytes i = sizes.size i * PageSize := (Nat.div_mul_cancel (pageSize_dvd_bytes i)).symm

theorem bytes_succ_eq (i : ℕ) : bytes (i + 1) = bytes i * sizes.ratio i := by
  rw [bytes_eq, bytes_eq, ← BlockSizes.ratio_mul]
  ring

/-- The parts of a block of the next size: fewer than 64, a power of two. -/
theorem ratio_dvd (i : ℕ) : sizes.ratio i ∣ 64 ∧ sizes.ratio i < 64 := by
  have h : sizes.ratio i = bytes (i + 1) / PageSize / (bytes i / PageSize) := rfl
  rw [h]
  exact forall_size (P := fun a b => (b / PageSize) / (a / PageSize) ∣ 64 ∧ (b / PageSize) / (a / PageSize) < 64)
    (by decide) (by decide) i

/-! ### The marks -/

variable {σ : Type}

namespace Block

/-- The number of the first block of the bitmap. -/
def base (b : Block σ) (i : ℕ) : ℕ := b.heapAddress / bytes i

/-- The free blocks of one size, by their number in the address space. -/
def marks (b : Block σ) (i : ℕ) : Set ℕ := (b.base i + ·) '' b.bitmap.bits

/-- The blocks of size `i` of a heap at the address. -/
structure Ok (b : Block σ) (address size i : ℕ) : Prop where
  shift : b.blockShift = shiftOf i
  nextShift : b.nextBlockShift = nextShiftOf i
  heapAddress : b.heapAddress = alignDown address (bytes (i + 1))
  endOffset : b.endOffset = (alignUp (address + size) (bytes (i + 1)) - b.heapAddress) / bytes i
  valid : b.bitmap.Valid b.endOffset

end Block

section Blocks

variable {b : Block σ} {address size i n : ℕ}

theorem Block.Ok.base_mul (h : b.Ok address size i) : b.base i * bytes i = b.heapAddress := by
  refine Nat.div_mul_cancel ?_
  rw [h.heapAddress]
  exact (bytes_dvd i).trans (dvd_alignDown ..)

/-- The first block begins a block of the next size. -/
theorem Block.Ok.ratio_dvd_base (h : b.Ok address size i) : sizes.ratio i ∣ b.base i := by
  have hd : bytes (i + 1) ∣ b.base i * bytes i := by
    rw [h.base_mul, h.heapAddress]
    exact dvd_alignDown ..
  rw [bytes_succ_eq, Nat.mul_comm (b.base i)] at hd
  exact Nat.dvd_of_mul_dvd_mul_left (bytes_pos i) hd

theorem Block.marks_ncard (b : Block σ) (i : ℕ) : (b.marks i).ncard = b.bitmap.bits.ncard :=
  Set.ncard_image_of_injective _ (add_right_injective _)

theorem Block.marks_finite (b : Block σ) (i : ℕ) : (b.marks i).Finite := b.bitmap.bits_finite.image _

/-- A block of the heap has an offset in the bitmap. -/
theorem Block.Ok.exists_offset (h : b.Ok address size i) (h1 : address ≤ n * bytes i)
    (h2 : n * bytes i < address + size) : ∃ off, n = b.base i + off ∧ off < b.endOffset := by
  have hpos := bytes_pos i
  have hle : b.base i ≤ n := by
    refine le_of_mul_le_mul_right ?_ hpos
    rw [h.base_mul, h.heapAddress]
    exact (alignDown_le ..).trans h1
  refine ⟨n - b.base i, by omega, ?_⟩
  rw [h.endOffset, ← h.base_mul]
  have hup : address + size ≤ alignUp (address + size) (bytes (i + 1)) := le_alignUp (bytes_pos (i + 1))
  obtain ⟨k, hk⟩ := (bytes_dvd i).trans (dvd_alignUp (address + size) (bytes (i + 1)))
  rw [hk, Nat.mul_comm (bytes i), ← Nat.sub_mul, Nat.mul_div_cancel _ hpos]
  have hlt : n * bytes i < k * bytes i := by
    rw [Nat.mul_comm k, ← hk]
    omega
  have := Nat.lt_of_mul_lt_mul_right hlt
  omega

theorem shiftRight_eq (a i : ℕ) : a >>> shiftOf i = a / bytes i := by
  rw [Nat.shiftRight_eq_div_pow, bytes, Nat.one_shiftLeft]

theorem shiftLeft_eq (a i : ℕ) : a <<< shiftOf i = a * bytes i := by
  rw [Nat.shiftLeft_eq, bytes, Nat.one_shiftLeft]

/-- `diff` of `PushBlock`. -/
theorem one_shiftLeft_sub (hi : i < 6) : 1 <<< (shiftOf (i + 1) - shiftOf i) = sizes.ratio i := by
  revert i
  decide

/-- The parts of a block, as offsets in the bitmap. -/
theorem Block.Ok.parts_eq (h : b.Ok address size i) (off : ℕ) :
    sizes.parts i ((b.base i + off) / sizes.ratio i) =
      (b.base i + ·) '' Set.Ico (alignDown off (sizes.ratio i)) (alignDown off (sizes.ratio i) + sizes.ratio i) := by
  obtain ⟨k, hk⟩ := h.ratio_dvd_base
  have hpos : 0 < sizes.ratio i := BlockSizes.ratio_pos i
  ext m
  simp only [BlockSizes.mem_parts, Set.mem_image, Set.mem_Ico]
  rw [hk, Nat.mul_add_div hpos, alignDown_eq, Nat.div_eq_iff hpos]
  constructor
  · rintro ⟨h1, h2⟩
    refine ⟨m - sizes.ratio i * k, ?_⟩
    rw [Nat.add_mul, Nat.mul_comm k] at h1 h2
    omega
  · rintro ⟨r, ⟨h1, h2⟩, rfl⟩
    rw [Nat.add_mul, Nat.mul_comm k]
    omega

theorem Block.Ok.address_eq (h : b.Ok address size i) (off : ℕ) :
    b.heapAddress + off <<< b.blockShift = (b.base i + off) * bytes i := by
  rw [h.shift, shiftLeft_eq, ← h.base_mul, Nat.add_mul]

theorem shiftOf_ne_zero (i : ℕ) : shiftOf i ≠ 0 := by
  rcases Nat.lt_or_ge i 6 with hi | hi
  · revert i
    decide
  · have h := bytes_of_le hi
    unfold bytes at h
    intro h0
    rw [h0] at h
    exact absurd h (by decide)

theorem shiftOf_lt (i : ℕ) : shiftOf i < 64 := by
  rcases Nat.lt_or_ge i 7 with hi | hi
  · revert i
    decide
  · unfold shiftOf
    rw [List.getD_eq_getElem?_getD, List.getElem?_eq_none (by exact hi), Option.getD_none]
    decide

/-- A block of the next size lies in a single word of the bitmap. -/
theorem alignDown_ratio_mod (off i : ℕ) : alignDown off (sizes.ratio i) % 64 + sizes.ratio i ≤ 64 := by
  obtain ⟨hd, -⟩ := ratio_dvd i
  obtain ⟨k, hk⟩ := (Nat.dvd_mod_iff hd).mpr (dvd_alignDown off (sizes.ratio i))
  obtain ⟨m, hm⟩ := hd
  have hlt := Nat.mod_lt (alignDown off (sizes.ratio i)) (show 0 < 64 by decide)
  rw [hk, hm] at hlt
  have hkm : k < m := Nat.lt_of_mul_lt_mul_left hlt
  have hle := Nat.mul_le_mul_left (sizes.ratio i) hkm
  rw [hk]
  rw [Nat.mul_succ] at hle
  omega

/-- `PushBlock` marks the block, or joins it with its buddies if they are all free. -/
theorem Block.Ok.pushBlock (h : b.Ok address size i) (hi : i < 7) (h1 : address ≤ n * bytes i)
    (h2 : n * bytes i < address + size) (hn : n ∉ b.marks i) :
    ∃ next b', b.pushBlock (n * bytes i) = some (next, b') ∧ b'.Ok address size i ∧
      ((i + 1 < 7 ∧ sizes.parts i (n / sizes.ratio i) ⊆ insert n (b.marks i) ∧
          next = n / sizes.ratio i * bytes (i + 1) ∧
          b'.marks i = b.marks i \ sizes.parts i (n / sizes.ratio i)) ∨
        ((i + 1 < 7 → ¬ sizes.parts i (n / sizes.ratio i) ⊆ insert n (b.marks i)) ∧
          next = 0 ∧ b'.marks i = insert n (b.marks i))) := by
  obtain ⟨off, rfl, hoff⟩ := h.exists_offset h1 h2
  have hoffset : ((b.base i + off) * bytes i - b.heapAddress) >>> b.blockShift = off := by
    rw [h.shift, shiftRight_eq, ← h.base_mul, ← Nat.sub_mul, Nat.add_sub_cancel_left,
      Nat.mul_div_cancel _ (bytes_pos i)]
  have hbit : off ∉ b.bitmap.bits := fun hb => hn ⟨off, hb, rfl⟩
  obtain ⟨bitmap₁, hset, hv₁, hbits₁⟩ := KPageBitmap.setBit_spec h.valid hoff hbit
  have hmarks₁ : (b.base i + ·) '' bitmap₁.bits = insert (b.base i + off) (b.marks i) := by
    rw [hbits₁, Set.image_insert_eq]
    rfl
  unfold Block.pushBlock
  simp only [hoffset, hset, Option.bind_eq_bind, Option.bind_some]
  by_cases hi6 : i < 6
  · have hnext : b.nextBlockShift = shiftOf (i + 1) := by rw [h.nextShift, nextShiftOf, if_pos hi6]
    have hne : b.nextBlockShift ≠ 0 := hnext ▸ shiftOf_ne_zero (i + 1)
    have hpos : 0 < sizes.ratio i := BlockSizes.ratio_pos i
    obtain ⟨cleared, bitmap₂, hclear, hv₂, hiff, hbits₂⟩ := KPageBitmap.clearRange_spec hv₁ (ratio_dvd i).2 hpos
      (alignDown_ratio_mod off i) ((alignDown_le off _).trans_lt hoff)
    have hdiff : 1 <<< (b.nextBlockShift - b.blockShift) = sizes.ratio i := by
      rw [hnext, h.shift, one_shiftLeft_sub hi6]
    have hsub : cleared = true ↔ sizes.parts i ((b.base i + off) / sizes.ratio i) ⊆
        insert (b.base i + off) (b.marks i) := by
      rw [hiff, h.parts_eq, ← hmarks₁, Set.image_subset_image_iff (add_right_injective _)]
    rw [if_pos hne, hdiff, hclear]
    cases cleared with
    | true =>
      refine ⟨_, _, rfl, ⟨h.shift, h.nextShift, h.heapAddress, h.endOffset, hv₂⟩,
        .inl ⟨by omega, hsub.mp rfl, ?_, ?_⟩⟩
      · show b.heapAddress + alignDown off (sizes.ratio i) <<< b.blockShift = _
        obtain ⟨k, hk⟩ := h.ratio_dvd_base
        rw [h.address_eq, bytes_succ_eq, alignDown_eq, hk, Nat.mul_add_div hpos]
        ring
      · show (b.base i + ·) '' bitmap₂.bits = _
        rw [hbits₂, if_pos rfl, Set.image_sdiff (add_right_injective _), hmarks₁, ← h.parts_eq,
          Set.insert_sdiff_of_mem _ (BlockSizes.mem_parts.mpr rfl)]
    | false =>
      refine ⟨0, _, rfl, ⟨h.shift, h.nextShift, h.heapAddress, h.endOffset, hv₂⟩,
        .inr ⟨fun _ hp => Bool.false_ne_true (hsub.mpr hp), rfl, ?_⟩⟩
      show (b.base i + ·) '' bitmap₂.bits = _
      rw [hbits₂, if_neg Bool.false_ne_true, hmarks₁]
  · have hnext : b.nextBlockShift = 0 := by rw [h.nextShift, nextShiftOf, if_neg hi6]
    rw [if_neg (not_not.mpr hnext)]
    exact ⟨0, _, rfl, ⟨h.shift, h.nextShift, h.heapAddress, h.endOffset, hv₁⟩,
      .inr ⟨fun h => absurd h (by omega), rfl, hmarks₁⟩⟩

variable [TinyMT σ]

/-- `PopBlock` takes the mark of a block away, if there is one. -/
theorem Block.Ok.popBlock (h : b.Ok address size i) (random : Bool) :
    ∃ addr b', b.popBlock random = some (addr, b') ∧ b'.Ok address size i ∧
      ((addr = 0 ∧ b.marks i = ∅ ∧ b'.marks i = ∅) ∨
        ∃ n ∈ b.marks i, addr = n * bytes i ∧ b'.marks i = b.marks i \ {n}) := by
  obtain ⟨found, bitmap, hfind, hv, hbits, -, hfound⟩ := KPageBitmap.findFreeBlock_spec h.valid random
  unfold Block.popBlock
  simp only [hfind, Option.bind_eq_bind, Option.bind_some]
  cases found with
  | none =>
    have hempty : b.marks i = ∅ := by
      unfold Block.marks
      rw [hfound, Set.image_empty]
    refine ⟨0, _, rfl, ⟨h.shift, h.nextShift, h.heapAddress, h.endOffset, hv⟩, .inl ⟨rfl, hempty, ?_⟩⟩
    show (b.base i + ·) '' bitmap.bits = _
    rw [hbits]
    exact hempty
  | some off =>
    obtain ⟨bitmap', hclear, hv', hbits'⟩ := KPageBitmap.clearBit_spec hv (hbits ▸ hfound)
    simp only [hclear, Option.bind_some]
    refine ⟨_, _, rfl, ⟨h.shift, h.nextShift, h.heapAddress, h.endOffset, hv'⟩,
      .inr ⟨b.base i + off, ⟨off, hfound, rfl⟩, h.address_eq off, ?_⟩⟩
    show (b.base i + ·) '' bitmap'.bits = _
    rw [hbits', hbits, Set.image_sdiff (add_right_injective _), Set.image_singleton]
    rfl

end Blocks

end KPageHeap

end Kernel
end Citron
