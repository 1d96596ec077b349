/-
# The search for a free area

`KMemoryBlockManager::FindFreeArea` walks the blocks from the one that holds
the region's start, rounds the first address of each `Free` block up to the
wanted remainder, and takes the first area that ends in the block and in the
region. Its sums are 64-bit and wrap. Where none of them does
(`Representable`), the search is a first fit over the blocks
(`searchBlocks_eq`), so it finds the lowest area
(**`findFreeArea_lowest`**); address 0 stands for no area.
-/
import Citron.Kernel.MemoryBlockCoalesce
import Citron.Common.Alignment
import Citron.Lib.FirstFit

namespace Citron
namespace Kernel

open Lib Common List

/-- The value of a 64-bit sum. -/
def u64 (n : ℕ) : ℕ := n % 2 ^ 64

/-- One less, where the difference is 64-bit. -/
def predU64 (n : ℕ) : ℕ := u64 (n + (2 ^ 64 - 1))

theorem u64_of_lt {n : ℕ} (h : n < 2 ^ 64) : u64 n = n := Nat.mod_eq_of_lt h

theorem predU64_of_pos {n : ℕ} (h : 0 < n) (hn : n ≤ 2 ^ 64) : predU64 (u64 n) = n - 1 := by
  unfold predU64 u64
  omega

/-- The arguments of `FindFreeArea`. -/
structure FreeAreaRequest where
  regionStart : ℕ
  regionNumPages : ℕ
  numPages : ℕ
  alignment : ℕ
  offset : ℕ
  guardPages : ℕ
deriving DecidableEq, Repr

namespace FreeAreaRequest

variable (r : FreeAreaRequest)

/-- `area` of the loop's turn at the block: the rounded first address. -/
def areaIn (b : KMemoryBlock) : ℕ :=
  let area := if b.address ≤ r.regionStart then r.regionStart else b.address
  let area := u64 (area + r.guardPages * PageSize)
  let offsetArea := u64 (alignDown area r.alignment + r.offset)
  if area ≤ offsetArea then offsetArea else u64 (offsetArea + r.alignment)

/-- The loop of `FindFreeArea`, from a node on. -/
def searchBlocks : List KMemoryBlock → ℕ
  | [] => 0
  | b :: bs =>
    let regionLast := predU64 (u64 (r.regionStart + r.regionNumPages * PageSize))
    if regionLast < b.address then 0
    else if b.memoryState ≠ .free then searchBlocks bs
    else
      let area := r.areaIn b
      let areaLast := predU64 (u64 (area + r.numPages * PageSize + r.guardPages * PageSize))
      if b.address ≤ area ∧ area < areaLast ∧ areaLast ≤ regionLast ∧ areaLast ≤ b.getLastAddress then
        area
      else searchBlocks bs

end FreeAreaRequest

def KMemoryBlockManager.findFreeArea (m : KMemoryBlockManager) (r : FreeAreaRequest) : ℕ :=
  if 0 < r.numPages then r.searchBlocks (findIterator m.tree r.regionStart).rest else 0

/-! ### What the search is for -/

namespace FreeAreaRequest

/-- One past the region. -/
def regionEnd (r : FreeAreaRequest) : ℕ := r.regionStart + r.regionNumPages * PageSize

/-- What an area takes up from its first address on: its pages and the guard after them. -/
def extent (r : FreeAreaRequest) : ℕ := r.numPages * PageSize + r.guardPages * PageSize

/-- The first address the guard pages leave for an area in the block and the region. -/
def lowest (r : FreeAreaRequest) (b : KMemoryBlock) : ℕ :=
  max b.address r.regionStart + r.guardPages * PageSize

end FreeAreaRequest

/-- The area at `a`, with the guard pages on both sides, lies in the region and in the block. -/
structure IsAreaOf (r : FreeAreaRequest) (b : KMemoryBlock) (a : ℕ) : Prop where
  congruent : a % r.alignment = r.offset
  free : b.memoryState = .free
  region_le : r.regionStart + r.guardPages * PageSize ≤ a
  le_region : a + r.extent ≤ r.regionEnd
  block_le : b.address + r.guardPages * PageSize ≤ a
  le_block : a + r.extent ≤ b.getEndAddress

/-- The area at `a` lies in a block of the tree. -/
def IsFreeArea (m : KMemoryBlockManager) (r : FreeAreaRequest) (a : ℕ) : Prop :=
  ∃ b ∈ m.tree, IsAreaOf r b a

/-- A result other than 0 is the lowest free area, and 0 says that there is none. -/
def FindsLowestArea (m : KMemoryBlockManager) (r : FreeAreaRequest) : Prop :=
  (m.findFreeArea r ≠ 0 → IsLeast {a | IsFreeArea m r a} (m.findFreeArea r)) ∧
    (m.findFreeArea r = 0 → ∀ a, ¬ IsFreeArea m r a)

/-- No 64-bit sum of the search wraps: the region ends at an address, and so does the first
area that each `Free` block of the region has to offer. -/
structure Representable (m : KMemoryBlockManager) (r : FreeAreaRequest) : Prop where
  regionEnd_pos : 0 < r.regionEnd
  regionEnd_le : r.regionEnd ≤ 2 ^ 64
  area_le : ∀ b ∈ m.tree, b.memoryState = .free → r.regionStart < b.getEndAddress →
    b.address < r.regionEnd → firstCongruent r.alignment r.offset (r.lowest b) + r.extent ≤ 2 ^ 64

/-! ### The search is a first fit -/

variable {m : KMemoryBlockManager} {r : FreeAreaRequest} {b : KMemoryBlock} {l : List KMemoryBlock}
  {a e x y : ℕ}

theorem isAreaOf_iff : IsAreaOf r b x ↔ b.memoryState = .free ∧
    (r.lowest b ≤ x ∧ x % r.alignment = r.offset ∧ x + r.extent ≤ min r.regionEnd b.getEndAddress) := by
  unfold FreeAreaRequest.lowest
  constructor
  · rintro ⟨h1, h2, h3, h4, h5, h6⟩
    exact ⟨h2, by omega, h1, by omega⟩
  · rintro ⟨h2, h3, h1, h4⟩
    exact ⟨h1, h2, by omega, by omega, by omega, by omega⟩

theorem extent_pos (hn : 0 < r.numPages) : 1 < r.extent := by
  unfold FreeAreaRequest.extent
  unfold PageSize at *
  omega

/-- What a block has to offer. -/
def offer (r : FreeAreaRequest) (b : KMemoryBlock) : Option ℕ :=
  if b.memoryState = .free then
    firstFit r.alignment r.offset r.extent (r.lowest b) (min r.regionEnd b.getEndAddress)
  else none

theorem leastOf_offer (ho : r.offset < r.alignment) (b : KMemoryBlock) :
    LeastOf {x | IsAreaOf r b x} (offer r b) := by
  simp only [isAreaOf_iff]
  unfold offer
  split_ifs with hfree
  · simpa only [hfree, true_and] using leastOf_firstFit ho r.extent (r.lowest b) _
  · simp only [hfree, false_and]
    exact Set.eq_empty_of_forall_notMem fun _ h => h

/-- Without a wrap the rounding gives the first address with the remainder. -/
theorem areaIn_eq (ho : r.offset < r.alignment)
    (h : firstCongruent r.alignment r.offset (r.lowest b) < 2 ^ 64) :
    r.areaIn b = firstCongruent r.alignment r.offset (r.lowest b) := by
  have hlow : (if b.address ≤ r.regionStart then r.regionStart else b.address) +
      r.guardPages * PageSize = r.lowest b := by
    unfold FreeAreaRequest.lowest
    split_ifs <;> omega
  have hle : r.lowest b ≤ firstCongruent r.alignment r.offset (r.lowest b) :=
    (isLeast_firstCongruent ho _).1.1
  simp only [FreeAreaRequest.areaIn, hlow]
  rw [u64_of_lt (hle.trans_lt h)]
  unfold firstCongruent at h ⊢
  rw [← alignDown_eq] at h ⊢
  by_cases hcmp : r.lowest b ≤ alignDown (r.lowest b) r.alignment + r.offset
  · rw [if_pos hcmp] at h ⊢
    rw [u64_of_lt h, if_pos hcmp]
  · rw [if_neg hcmp] at h ⊢
    rw [u64_of_lt (by omega : alignDown (r.lowest b) r.alignment + r.offset < 2 ^ 64), if_neg hcmp, u64_of_lt h]

/-- Blocks above the region have nothing to offer. -/
theorem offer_eq_none (ho : r.offset < r.alignment) (hn : 0 < r.numPages) (h : r.regionEnd ≤ b.address) :
    offer r b = none := by
  have hle := (isLeast_firstCongruent ho (r.lowest b)).1.1
  have hpos := extent_pos hn
  have hlow : b.address ≤ r.lowest b := by unfold FreeAreaRequest.lowest; omega
  have hout : ¬ firstCongruent r.alignment r.offset (r.lowest b) + r.extent ≤ min r.regionEnd b.getEndAddress := by
    omega
  simp only [offer, firstFit, if_neg hout, ite_self]

/-- **The loop takes the first offer.** -/
theorem searchBlocks_eq (ho : r.offset < r.alignment) (hn : 0 < r.numPages) (hr : Representable m r) :
    ∀ {l : List KMemoryBlock} {a : ℕ}, Spans a l e → r.regionStart < e → (∀ b ∈ l, b ∈ m.tree) →
      (∀ b ∈ l, r.regionStart < b.getEndAddress) →
      r.searchBlocks l = (l.findSome? (offer r)).getD 0
  | [], _, _, _, _, _ => rfl
  | b :: l, a, hl, hlt, hm, hs => by
    obtain ⟨hba, hlast, htail⟩ := hl
    have ih := searchBlocks_eq ho hn hr htail hlt (fun c hc => hm c (mem_cons_of_mem _ hc))
      fun c hc => hs c (mem_cons_of_mem _ hc)
    have hend : predU64 (u64 (r.regionStart + r.regionNumPages * PageSize)) = r.regionEnd - 1 :=
      predU64_of_pos hr.regionEnd_pos hr.regionEnd_le
    have hpos := extent_pos hn
    have hpos' := hr.regionEnd_pos
    simp only [FreeAreaRequest.searchBlocks, hend, findSome?_cons]
    by_cases habove : r.regionEnd - 1 < b.address
    · -- the loop stops; no block from here on meets the region
      have hnone : (b :: l).findSome? (offer r) = none := by
        refine findSome?_eq_none_iff.mpr fun c hc => offer_eq_none ho hn ?_
        rcases mem_cons.mp hc with rfl | hc
        · omega
        · have := (htail.bounds c hc).1; omega
      rw [if_pos habove]
      rw [findSome?_cons] at hnone
      rw [hnone]
      rfl
    rw [if_neg habove]
    by_cases hfree : b.memoryState = .free
    swap
    · rw [if_pos hfree, show offer r b = none from if_neg hfree]
      exact ih
    have hle := (isLeast_firstCongruent ho (r.lowest b)).1.1
    have hfit := hr.area_le b (hm b mem_cons_self) hfree (hs b mem_cons_self) (by omega)
    have harea := areaIn_eq (b := b) ho (by omega)
    have hsum : r.areaIn b + r.numPages * PageSize + r.guardPages * PageSize = r.areaIn b + r.extent :=
      Nat.add_assoc ..
    rw [if_neg (not_not.mpr hfree), hsum, harea, predU64_of_pos (by omega) hfit]
    have hlow : b.address ≤ r.lowest b := by unfold FreeAreaRequest.lowest; omega
    simp only [offer, if_pos hfree, firstFit]
    by_cases hin : firstCongruent r.alignment r.offset (r.lowest b) + r.extent ≤ min r.regionEnd b.getEndAddress
    · rw [if_pos hin, if_pos (by unfold KMemoryBlock.getLastAddress; omega)]
      rfl
    · rw [if_neg hin, if_neg (by unfold KMemoryBlock.getLastAddress; omega)]
      exact ih

/-- Areas of a later block lie above those of an earlier one. -/
theorem areas_pairwise (hl : Spans a l e) :
    l.Pairwise fun b c => ∀ x ∈ {x | IsAreaOf r b x}, ∀ y ∈ {y | IsAreaOf r c y}, x ≤ y := by
  induction l generalizing a with
  | nil => exact .nil
  | cons b l ih =>
    obtain ⟨-, -, htail⟩ := hl
    refine .cons (fun c hc x hx y hy => ?_) (ih htail)
    calc x ≤ b.getEndAddress := (Nat.le_add_right ..).trans hx.le_block
      _ ≤ c.address := (htail.bounds c hc).1
      _ ≤ y := (Nat.le_add_right ..).trans hy.block_le

/-! ### The blocks before the region -/

/-- A block that ends before the region has no area in it. -/
theorem not_isAreaOf_of_end_le (hn : 0 < r.numPages) (h : b.getEndAddress ≤ r.regionStart) :
    ¬ IsAreaOf r b x := by
  intro hx
  have := extent_pos hn
  have := hx.le_block
  have := hx.region_le
  omega

/-- The nodes from the iterator on are those that do not end before the region. -/
theorem findIterator_rest (hm : Spans m.startAddress m.tree m.endAddress) (hs : m.startAddress ≤ x) :
    ∃ l₁ a, m.tree = l₁ ++ (findIterator m.tree x).rest ∧ (∀ b ∈ l₁, b.getEndAddress ≤ x) ∧
      Spans a (findIterator m.tree x).rest m.endAddress ∧
      ((findIterator m.tree x).rest ≠ [] → x < m.endAddress) ∧
      ∀ b ∈ (findIterator m.tree x).rest, x < b.getEndAddress := by
  by_cases hx : x < m.endAddress
  · obtain ⟨l₁, b, l₂, htree, h1, ⟨h2, h3⟩, h4⟩ := hm.exists_split hs hx
    have hrest : (findIterator m.tree x).rest = b :: l₂ := by rw [htree, findIterator_eq l₂ h1 h2 h3]
    rw [hrest]
    refine ⟨l₁, b.address, htree, fun c hc => (h1.bounds c hc).2.2.trans h2,
      ⟨rfl, by omega, h4⟩, fun _ => hx, fun c hc => ?_⟩
    rcases mem_cons.mp hc with rfl | hc
    · exact h3
    · have := h4.bounds c hc; omega
  · have hrest : (findIterator m.tree x).rest = [] := by
      refine dropWhile_eq_nil_iff.mpr fun b hb => ?_
      obtain ⟨-, h1, h2⟩ := hm.bounds b hb
      rw [compare_gt_of_end_le (by simp only [KMemoryBlock.ofRange]; omega) h1]
      rfl
    rw [hrest]
    exact ⟨m.tree, m.endAddress, by simp, fun b hb => (hm.bounds b hb).2.2.trans (by omega), rfl,
      by simp, by simp⟩

/-- The search result is the least free area, with 0 for none. -/
theorem findFreeArea_eq (hm : Spans m.startAddress m.tree m.endAddress)
    (hs : m.startAddress ≤ r.regionStart) (ho : r.offset < r.alignment) (hn : 0 < r.numPages)
    (hr : Representable m r) :
    ∃ o, LeastOf {a | IsFreeArea m r a} o ∧ m.findFreeArea r = o.getD 0 := by
  obtain ⟨l₁, a, htree, hbefore, hspan, hne, hafter⟩ := findIterator_rest hm hs
  set rest := (findIterator m.tree r.regionStart).rest with hrest
  refine ⟨rest.findSome? (offer r), ?_, ?_⟩
  · have hleast := leastOf_findSome? (fun b _ => leastOf_offer ho b) (areas_pairwise (r := r) hspan)
    convert hleast using 1
    ext x
    simp only [IsFreeArea, htree, mem_append, Set.mem_ofPred_eq]
    constructor
    · rintro ⟨b, hb | hb, hx⟩
      · exact absurd hx (not_isAreaOf_of_end_le hn (hbefore b hb))
      · exact ⟨b, hb, hx⟩
    · rintro ⟨b, hb, hx⟩
      exact ⟨b, .inr hb, hx⟩
  · rw [KMemoryBlockManager.findFreeArea, if_pos hn, ← hrest]
    rcases eq_or_ne rest [] with hnil | hcons
    · rw [hnil]; rfl
    · exact searchBlocks_eq ho hn hr hspan (hne hcons)
        (fun b hb => by rw [htree]; exact mem_append_right _ hb) hafter

/-- **`FindFreeArea` finds the lowest area.** Where no sum wraps and the region starts in the
managed space, a result other than 0 is the lowest area, and the result is 0 only if there is no
area or the lowest one is at address 0. -/
theorem findFreeArea_lowest (hm : Spans m.startAddress m.tree m.endAddress)
    (hs : m.startAddress ≤ r.regionStart) (ho : r.offset < r.alignment) (hn : 0 < r.numPages)
    (hr : Representable m r) :
    (m.findFreeArea r ≠ 0 → IsLeast {a | IsFreeArea m r a} (m.findFreeArea r)) ∧
      (m.findFreeArea r = 0 → IsFreeArea m r 0 ∨ ∀ a, ¬ IsFreeArea m r a) := by
  obtain ⟨o, hleast, heq⟩ := findFreeArea_eq hm hs ho hn hr
  rw [heq]
  cases o with
  | none => exact ⟨fun h => absurd rfl h, fun _ => .inr fun a ha => Set.eq_empty_iff_forall_notMem.mp hleast a ha⟩
  | some x =>
    refine ⟨fun _ => hleast, fun h => .inl ?_⟩
    obtain rfl : x = 0 := h
    exact hleast.1

/-! ### Requests at the limits -/

/-- One free block of 16 pages. -/
def freeBlockManager (address : ℕ) : KMemoryBlockManager where
  tree := [.ofRange address 16 .free .none .none]
  startAddress := address
  endAddress := address + 0x10000

theorem freeBlock_end (address : ℕ) :
    (KMemoryBlock.ofRange address 16 .free .none .none).getEndAddress = address + 0x10000 := by
  have hsize : 16 * PageSize = 0x10000 := by decide
  unfold KMemoryBlock.getEndAddress KMemoryBlock.getSize KMemoryBlock.ofRange
  rw [hsize]

theorem freeBlockManager_spans (address : ℕ) :
    Spans (freeBlockManager address).startAddress (freeBlockManager address).tree
      (freeBlockManager address).endAddress := by
  refine ⟨rfl, ?_, freeBlock_end address⟩
  rw [freeBlock_end]
  simp [freeBlockManager]

theorem findFreeArea_lowest_freeBlock :
    (freeBlockManager 0x10000).findFreeArea ⟨0x10000, 16, 2, 0x4000, 0x1000, 1⟩ = 0x11000 ∧
      IsLeast {a | IsFreeArea (freeBlockManager 0x10000) ⟨0x10000, 16, 2, 0x4000, 0x1000, 1⟩ a} 0x11000 := by
  have heq : (freeBlockManager 0x10000).findFreeArea ⟨0x10000, 16, 2, 0x4000, 0x1000, 1⟩ = 0x11000 := by
    decide +kernel
  have hr : Representable (freeBlockManager 0x10000) ⟨0x10000, 16, 2, 0x4000, 0x1000, 1⟩ := by
    refine ⟨by decide, by decide, fun b hb _ _ _ => ?_⟩
    obtain rfl := mem_singleton.mp hb
    decide +kernel
  have h := (findFreeArea_lowest (freeBlockManager_spans _) (by decide) (by decide) (by decide) hr).1
    (by rw [heq]; decide)
  rw [heq] at h
  exact ⟨heq, h⟩

theorem isFreeArea_freeBlock {address : ℕ} :
    IsFreeArea (freeBlockManager address) r x ↔
      IsAreaOf r (.ofRange address 16 .free .none .none) x := by
  simp [IsFreeArea, freeBlockManager]

/-- The result names an address that is no area. -/
theorem not_findsLowestArea_of_result {address : ℕ} (hx : (freeBlockManager address).findFreeArea r = x)
    (h0 : x ≠ 0) (h : r.regionEnd < x + r.extent ∨ address + 0x10000 < x + r.extent) :
    ¬ FindsLowestArea (freeBlockManager address) r := by
  intro hf
  have harea := (hf.1 (by rwa [hx])).1
  rw [hx] at harea
  have harea := isFreeArea_freeBlock.mp harea
  have h1 := harea.le_region
  have h2 := harea.le_block
  rw [freeBlock_end] at h2
  omega

/-- The result says that there is no area, but there is one. -/
theorem not_findsLowestArea_of_zero {address : ℕ} (hx : (freeBlockManager address).findFreeArea r = 0)
    (h : IsAreaOf r (.ofRange address 16 .free .none .none) x) :
    ¬ FindsLowestArea (freeBlockManager address) r :=
  fun hf => hf.2 hx x (isFreeArea_freeBlock.mpr h)

/-- The search fails to find the lowest area where the size of the area or the last address of an
empty region wraps, where the lowest area is at address 0, where the region starts below the first
block, and where the area has no pages. -/
theorem findFreeArea_limits :
    ¬ FindsLowestArea (freeBlockManager 0x10000) ⟨0x10000, 16, 2 ^ 52 + 1, 0x1000, 0, 0⟩ ∧
      ¬ FindsLowestArea (freeBlockManager 0) ⟨0, 0, 1, 0x1000, 0, 1⟩ ∧
      ¬ FindsLowestArea (freeBlockManager 0) ⟨0, 16, 1, 0x1000, 0, 0⟩ ∧
      ¬ FindsLowestArea (freeBlockManager 0x10000) ⟨0x8000, 24, 1, 0x1000, 0, 0⟩ ∧
      ¬ FindsLowestArea (freeBlockManager 0x10000) ⟨0x10000, 16, 0, 0x1000, 0, 0⟩ := by
  refine ⟨not_findsLowestArea_of_result (x := 0x10000) (by decide +kernel) (by decide) (by decide +kernel),
    not_findsLowestArea_of_result (x := 0x1000) (by decide +kernel) (by decide) (by decide +kernel),
    not_findsLowestArea_of_zero (x := 0) (by decide +kernel) ?_,
    not_findsLowestArea_of_zero (x := 0x10000) (by decide +kernel) ?_,
    not_findsLowestArea_of_zero (x := 0x10000) (by decide +kernel) ?_⟩
  all_goals constructor <;> decide +kernel

end Kernel
end Citron
