/-
# The search for a free area with random draws

`KPageTableBase::FindFreeArea` tries eight random places of the region, then a first fit from a random page of it on, then a
first fit over all of it. The pages to draw from are what the request leaves of the region, by a 64-bit difference that is
taken before anything is compared, and a place that is drawn is aligned down, moved by the offset and looked up before it is
compared with the region. **`findFreeArea_sound_iff`** says for which requests all draws are harmless.
-/
import Citron.Kernel.MemoryBlockFreeArea

namespace Citron
namespace Kernel

open Common Lib List

/-- A 64-bit difference. -/
def subU64 (a b : ℕ) : ℕ := u64 (a + (2 ^ 64 - b))

/-- Random numbers, each up to the bound that is given with the draw. -/
abbrev Draws := { draw : ℕ → ℕ → ℕ // ∀ i max, draw i max ≤ max }

/-- What the search reads of a page table. The address space has at most 39 bits and does not begin at 0. -/
structure KPageTableBase where
  memoryBlockManager : KMemoryBlockManager
  enableAslr : Bool
  spans : Spans memoryBlockManager.startAddress memoryBlockManager.tree memoryBlockManager.endAddress
  start_pos : 0 < memoryBlockManager.startAddress
  end_le : memoryBlockManager.endAddress ≤ 2 ^ 39

namespace FreeAreaRequest

variable (r : FreeAreaRequest)

def sparePages : ℕ := subU64 (subU64 r.regionNumPages r.numPages) r.guardPages

/-- The bound of the draws of a place. -/
def lastDraw : ℕ := u64 (r.sparePages * PageSize) / r.alignment

def candidate (draw : ℕ) : ℕ :=
  u64 (Common.alignDown (u64 (r.regionStart + u64 (draw * r.alignment))) r.alignment + r.offset)

/-- The comparisons for a place in the block that holds it. -/
def Takes (b : KMemoryBlock) (candidate : ℕ) : Prop :=
  let last := predU64 (u64 (candidate + (r.numPages + r.guardPages) * PageSize))
  b.memoryState = .free ∧ r.regionStart ≤ candidate ∧ u64 (b.address + r.guardPages * PageSize) ≤ candidate ∧
    last ≤ b.getLastAddress ∧ last ≤ predU64 (u64 (r.regionStart + r.regionNumPages * PageSize))

instance (b : KMemoryBlock) (candidate : ℕ) : Decidable (r.Takes b candidate) := inferInstanceAs (Decidable (_ ∧ _))

/-- The request from a page of the region on. -/
def fromPage (offsetPages : ℕ) : FreeAreaRequest :=
  { r with
    regionStart := u64 (r.regionStart + u64 (offsetPages * PageSize))
    regionNumPages := subU64 r.regionNumPages offsetPages }

/-- The direct tries from the `i`-th draw on: the places that are looked up, and the area or 0. Nothing comes of a place that
no block holds. -/
def tryAreas (m : KMemoryBlockManager) (draws : Draws) : ℕ → ℕ → List ℕ × Option ℕ
  | _, 0 => ([], some 0)
  | i, tries + 1 =>
    let candidate := r.candidate (draws.1 i r.lastDraw)
    match (findIterator m.tree candidate).rest.head? with
    | none => ([candidate], none)
    | some b =>
      if r.Takes b candidate then ([candidate], some candidate)
      else (candidate :: (tryAreas m draws (i + 1) tries).1, (tryAreas m draws (i + 1) tries).2)

end FreeAreaRequest

namespace KPageTableBase

/-- The places that are looked up, and the result. -/
def findFreeArea (t : KPageTableBase) (r : FreeAreaRequest) (draws : Draws) : List ℕ × Option ℕ :=
  if r.numPages ≤ r.regionNumPages then
    if t.enableAslr then
      let tried := r.tryAreas t.memoryBlockManager draws 0 8
      (tried.1, tried.2.map fun address =>
        let address :=
          if address = 0 then t.memoryBlockManager.findFreeArea (r.fromPage (draws.1 8 r.sparePages)) else address
        if address = 0 then t.memoryBlockManager.findFreeArea r else address)
    else ([], some (t.memoryBlockManager.findFreeArea r))
  else ([], some 0)

/-! ### What it is for -/

/-- An area with its guard pages lies in a free block, and it ends with them in the region. -/
def IsGuarded (t : KPageTableBase) (r : FreeAreaRequest) (a : ℕ) : Prop :=
  ∃ b ∈ t.memoryBlockManager.tree, b.memoryState = .free ∧ b.address + r.guardPages * PageSize ≤ a ∧
    a + r.extent ≤ b.getEndAddress ∧ r.regionStart ≤ a ∧ a + r.extent ≤ r.regionEnd

/-- No difference wraps, no place outside the address space is looked up, and the result is an area, or 0 where the first fit
over the region finds none. -/
structure Sound (t : KPageTableBase) (r : FreeAreaRequest) (draws : Draws) : Prop where
  spare : (r.sparePages : ℤ) = r.regionNumPages - r.numPages - r.guardPages
  last : ∀ c ∈ (t.findFreeArea r draws).1, 0 < c + r.extent ∧ 0 < r.regionEnd
  inSpace : ∀ c ∈ (t.findFreeArea r draws).1, t.memoryBlockManager.startAddress ≤ c ∧ c < t.memoryBlockManager.endAddress
  area : ∀ a, (t.findFreeArea r draws).2 = some a → a ≠ 0 → t.IsGuarded r a
  none : (t.findFreeArea r draws).2 = some 0 → t.memoryBlockManager.findFreeArea r = 0

/-- The area and its guard fit into the region, and the first and the last place that can be drawn are in the address space. -/
structure Roomy (t : KPageTableBase) (r : FreeAreaRequest) : Prop where
  fits : r.numPages + r.guardPages ≤ r.regionNumPages
  first : t.memoryBlockManager.startAddress ≤ Common.alignDown r.regionStart r.alignment + r.offset
  last : Common.alignDown (r.regionStart +
      (r.regionNumPages - r.numPages - r.guardPages) * PageSize / r.alignment * r.alignment) r.alignment + r.offset <
    t.memoryBlockManager.endAddress

/-- A region of the address space, and arguments that are 64-bit. -/
structure IsRequest (t : KPageTableBase) (r : FreeAreaRequest) : Prop where
  start_le : t.memoryBlockManager.startAddress ≤ r.regionStart
  le_end : r.regionEnd ≤ t.memoryBlockManager.endAddress
  pages_le : r.numPages ≤ r.regionNumPages
  alignment : ∃ k < 64, r.alignment = 2 ^ k
  offset_lt : r.offset < r.alignment
  guard_lt : r.guardPages < 2 ^ 64

variable {t : KPageTableBase} {r : FreeAreaRequest} {draws : Draws} {a c : ℕ}

theorem subU64_of_le {a b : ℕ} (h : b ≤ a) (ha : a < 2 ^ 64) : subU64 a b = a - b := by
  unfold subU64 u64
  omega

/-! ### The draws -/

namespace IsRequest

variable (h : t.IsRequest r)
include h

theorem pos_regionStart : 0 < r.regionStart := t.start_pos.trans_le h.start_le

theorem regionEnd_le : r.regionStart + r.regionNumPages * PageSize ≤ 2 ^ 39 := h.le_end.trans t.end_le

theorem alignment_le : 0 < r.alignment ∧ r.alignment ≤ 2 ^ 63 := by
  obtain ⟨k, hk, heq⟩ := h.alignment
  rw [heq]
  exact ⟨Nat.two_pow_pos k, Nat.pow_le_pow_right (by decide) (by omega)⟩

theorem sparePages_eq (hfits : r.numPages + r.guardPages ≤ r.regionNumPages) :
    r.sparePages = r.regionNumPages - r.numPages - r.guardPages := by
  have hend := h.regionEnd_le
  unfold PageSize at hend
  unfold FreeAreaRequest.sparePages
  rw [subU64_of_le h.pages_le (by omega), subU64_of_le (by omega) (by omega)]

theorem candidate_eq {draw : ℕ} (hdraw : r.regionStart + draw * r.alignment ≤ 2 ^ 39) :
    r.candidate draw = Common.alignDown (r.regionStart + draw * r.alignment) r.alignment + r.offset := by
  obtain ⟨-, hle⟩ := h.alignment_le
  have hdown := alignDown_le (r.regionStart + draw * r.alignment) r.alignment
  have hoffset := h.offset_lt
  unfold FreeAreaRequest.candidate
  rw [u64_of_lt (by omega : draw * r.alignment < 2 ^ 64),
    u64_of_lt (by omega : r.regionStart + draw * r.alignment < 2 ^ 64), u64_of_lt (by omega)]

theorem lastDraw_eq (hfits : r.numPages + r.guardPages ≤ r.regionNumPages) :
    r.lastDraw = (r.regionNumPages - r.numPages - r.guardPages) * PageSize / r.alignment ∧
      r.regionStart + r.lastDraw * r.alignment ≤ 2 ^ 39 := by
  have hend := h.regionEnd_le
  have hspare : (r.regionNumPages - r.numPages - r.guardPages) * PageSize ≤ r.regionNumPages * PageSize :=
    Nat.mul_le_mul_right _ (by omega)
  have heq : r.lastDraw = (r.regionNumPages - r.numPages - r.guardPages) * PageSize / r.alignment := by
    unfold FreeAreaRequest.lastDraw
    rw [h.sparePages_eq hfits, u64_of_lt (by omega)]
  have hmul := Nat.div_mul_le_self ((r.regionNumPages - r.numPages - r.guardPages) * PageSize) r.alignment
  rw [← heq] at hmul
  exact ⟨heq, by omega⟩

/-- All places that can be drawn are in the address space. -/
theorem candidate_mem (hroomy : t.Roomy r) {draw : ℕ} (hdraw : draw ≤ r.lastDraw) :
    t.memoryBlockManager.startAddress ≤ r.candidate draw ∧ r.candidate draw < t.memoryBlockManager.endAddress := by
  obtain ⟨hlast, hbound⟩ := h.lastDraw_eq hroomy.fits
  have hmul : draw * r.alignment ≤ r.lastDraw * r.alignment := Nat.mul_le_mul_right _ hdraw
  have hmono {x y : ℕ} (hxy : x ≤ y) : Common.alignDown x r.alignment ≤ Common.alignDown y r.alignment := by
    rw [alignDown_eq, alignDown_eq]
    exact Nat.mul_le_mul_right _ (Nat.div_le_div_right hxy)
  have hlow := hmono (Nat.le_add_right r.regionStart (draw * r.alignment))
  have hhigh := hmono (Nat.add_le_add_left hmul r.regionStart)
  have hfirst := hroomy.first
  have hend := hroomy.last
  rw [← hlast] at hend
  rw [h.candidate_eq (by omega)]
  exact ⟨by omega, by omega⟩

end IsRequest

/-- A place of the address space is in a block. -/
theorem findIterator_head (t : KPageTableBase) (hstart : t.memoryBlockManager.startAddress ≤ c)
    (hend : c < t.memoryBlockManager.endAddress) :
    ∃ b ∈ t.memoryBlockManager.tree, (findIterator t.memoryBlockManager.tree c).rest.head? = some b ∧
      c < b.getEndAddress ∧ b.getEndAddress ≤ t.memoryBlockManager.endAddress := by
  obtain ⟨l₁, b, l₂, htree, h1, ⟨h2, h3⟩, h4⟩ := t.spans.exists_split hstart hend
  have hmem : b ∈ t.memoryBlockManager.tree := by
    rw [htree]
    exact mem_append_right _ mem_cons_self
  refine ⟨b, hmem, ?_, h3, (t.spans.bounds b hmem).2.2⟩
  rw [htree, findIterator_eq l₂ h1 h2 h3]
  rfl

/-- A place that passes the comparisons is an area. -/
theorem isGuarded_of_takes (h : t.IsRequest r) (hfits : r.numPages + r.guardPages ≤ r.regionNumPages) {b : KMemoryBlock}
    (hb : b ∈ t.memoryBlockManager.tree) (hc : c < b.getEndAddress) (hend : b.getEndAddress ≤ t.memoryBlockManager.endAddress)
    (htakes : r.Takes b c) : t.IsGuarded r c := by
  obtain ⟨hfree, hle, hguard, hlast, hregion⟩ := htakes
  have hspace := t.end_le
  have hbound := h.regionEnd_le
  have hpos := h.pos_regionStart
  have hextent : (r.numPages + r.guardPages) * PageSize = r.extent := Nat.add_mul ..
  have hsum : r.extent ≤ r.regionNumPages * PageSize := by
    rw [← hextent]
    exact Nat.mul_le_mul_right _ hfits
  have hparts : r.extent = r.numPages * PageSize + r.guardPages * PageSize := rfl
  have hblock := (t.spans.bounds b hb).2.1
  rw [hextent, predU64_of_pos (by omega) (by omega)] at hlast hregion
  rw [predU64_of_pos (by omega) (by omega)] at hregion
  rw [u64_of_lt (by omega)] at hguard
  unfold KMemoryBlock.getLastAddress at hlast
  refine ⟨b, hb, hfree, hguard, by omega, hle, ?_⟩
  unfold FreeAreaRequest.regionEnd
  omega

/-- The direct tries stay in the address space and come to an area or to 0. -/
theorem tryAreas_spec (h : t.IsRequest r) (hroomy : t.Roomy r) (draws : Draws) (tries i : ℕ) :
    (∀ c ∈ (r.tryAreas t.memoryBlockManager draws i tries).1,
      t.memoryBlockManager.startAddress ≤ c ∧ c < t.memoryBlockManager.endAddress) ∧
    ∀ a, (r.tryAreas t.memoryBlockManager draws i tries).2 = some a → a ≠ 0 → t.IsGuarded r a := by
  induction tries generalizing i with
  | zero => exact ⟨fun _ hc => absurd hc not_mem_nil, fun a ha hne => absurd (Option.some.inj ha).symm hne⟩
  | succ tries ih =>
    have hin := h.candidate_mem hroomy (draws.2 i r.lastDraw)
    obtain ⟨b, hb, hhead, hlt, hend⟩ := t.findIterator_head hin.1 hin.2
    simp only [FreeAreaRequest.tryAreas, hhead]
    split
    · rename_i htakes
      refine ⟨fun c hc => ?_, fun a ha _ => ?_⟩
      · rw [mem_singleton.mp hc]
        exact hin
      · rw [← Option.some.inj ha]
        exact isGuarded_of_takes h hroomy.fits hb hlt hend htakes
    · refine ⟨fun c hc => ?_, (ih (i + 1)).2⟩
      rcases mem_cons.mp hc with rfl | hc
      · exact hin
      · exact (ih (i + 1)).1 c hc

/-! ### The first fits -/

/-- The first fit from a page of the region on finds an area, or 0. -/
theorem isGuarded_findFreeArea (h : t.IsRequest r) (hfits : r.numPages + r.guardPages ≤ r.regionNumPages) {pages : ℕ}
    (hpages : pages ≤ r.regionNumPages) (hne : t.memoryBlockManager.findFreeArea (r.fromPage pages) ≠ 0) :
    t.IsGuarded r (t.memoryBlockManager.findFreeArea (r.fromPage pages)) := by
  have hbound := h.regionEnd_le
  have hpos := h.pos_regionStart
  have hmul : pages * PageSize ≤ r.regionNumPages * PageSize := Nat.mul_le_mul_right _ hpages
  have hfrom : r.fromPage pages =
      { r with regionStart := r.regionStart + pages * PageSize, regionNumPages := r.regionNumPages - pages } := by
    have hregion : r.regionNumPages < 2 ^ 64 := by
      unfold PageSize at hbound
      omega
    unfold FreeAreaRequest.fromPage
    rw [u64_of_lt (by omega : pages * PageSize < 2 ^ 64), u64_of_lt (by omega), subU64_of_le hpages hregion]
  rw [hfrom] at hne ⊢
  set r' : FreeAreaRequest :=
    { r with regionStart := r.regionStart + pages * PageSize, regionNumPages := r.regionNumPages - pages } with hr'
  have hend : r'.regionEnd = r.regionEnd := by
    change r.regionStart + pages * PageSize + (r.regionNumPages - pages) * PageSize = r.regionStart + r.regionNumPages * PageSize
    rw [Nat.add_assoc, ← Nat.add_mul, Nat.add_sub_cancel' hpages]
  have hextent : r'.extent ≤ r.regionNumPages * PageSize := by
    change r.numPages * PageSize + r.guardPages * PageSize ≤ _
    rw [← Nat.add_mul]
    exact Nat.mul_le_mul_right _ hfits
  have hregion : r.regionEnd = r.regionStart + r.regionNumPages * PageSize := rfl
  have hparts : r'.extent = r.numPages * PageSize + r.guardPages * PageSize := rfl
  have hrep : Representable t.memoryBlockManager r' := by
    refine ⟨by omega, by omega, fun b hb _ _ hblock => ?_⟩
    have hlowest : r'.lowest b = max b.address (r.regionStart + pages * PageSize) + r.guardPages * PageSize := rfl
    obtain ⟨-, hle⟩ := h.alignment_le
    have hoffset := h.offset_lt
    have hdown := Nat.div_mul_le_self (r'.lowest b) r.alignment
    change (if r'.lowest b ≤ r'.lowest b / r.alignment * r.alignment + r.offset then
      r'.lowest b / r.alignment * r.alignment + r.offset
      else r'.lowest b / r.alignment * r.alignment + r.offset + r.alignment) + r'.extent ≤ 2 ^ 64
    split_ifs <;> omega
  by_cases hnum : 0 < r.numPages
  · have hstart := h.start_le
    have hstart' : t.memoryBlockManager.startAddress ≤ r'.regionStart := hstart.trans (Nat.le_add_right ..)
    have harea := ((findFreeArea_lowest (r := r') t.spans hstart' h.offset_lt hnum hrep).1 hne).1
    obtain ⟨b, hb, -, hfree, hle, hle', hblock, hblock'⟩ := harea
    refine ⟨b, hb, hfree, hblock, hblock', ?_, hend ▸ hle'⟩
    have hfirst : r.regionStart + pages * PageSize + r.guardPages * PageSize ≤ _ := hle
    omega
  · refine absurd ?_ hne
    rw [KMemoryBlockManager.findFreeArea, if_neg hnum]

theorem fromPage_zero (h : t.IsRequest r) : r.fromPage 0 = r := by
  have hbound := h.regionEnd_le
  unfold PageSize at hbound
  have hzero : u64 0 = 0 := rfl
  unfold FreeAreaRequest.fromPage
  rw [Nat.zero_mul, hzero, Nat.add_zero, u64_of_lt (by omega), subU64_of_le (Nat.zero_le _) (by omega), Nat.sub_zero]

/-! ### All draws -/

theorem findFreeArea_aslr (h : t.IsRequest r) (haslr : t.enableAslr = true) (draws : Draws) :
    t.findFreeArea r draws = ((r.tryAreas t.memoryBlockManager draws 0 8).1,
      (r.tryAreas t.memoryBlockManager draws 0 8).2.map fun address =>
        let address :=
          if address = 0 then t.memoryBlockManager.findFreeArea (r.fromPage (draws.1 8 r.sparePages)) else address
        if address = 0 then t.memoryBlockManager.findFreeArea r else address) := by
  rw [findFreeArea, if_pos h.pages_le, if_pos haslr]

theorem Roomy.sound (h : t.IsRequest r) (haslr : t.enableAslr = true) (hroomy : t.Roomy r) (draws : Draws) :
    t.Sound r draws := by
  obtain ⟨hqueries, hareas⟩ := tryAreas_spec h hroomy draws 8 0
  have hspare := h.sparePages_eq hroomy.fits
  have hfits := hroomy.fits
  have hdraw := draws.2 8 r.sparePages
  have hwhole := isGuarded_findFreeArea h hfits (Nat.zero_le _)
  rw [fromPage_zero h] at hwhole
  have hpart := isGuarded_findFreeArea h hfits (show draws.1 8 r.sparePages ≤ r.regionNumPages by omega)
  have hpos : 0 < r.regionEnd := by
    have := h.pos_regionStart
    unfold FreeAreaRequest.regionEnd
    omega
  have hstart := t.start_pos
  refine ⟨by omega, ?_, ?_, fun a ha hne => ?_, fun h0 => ?_⟩
  · rw [findFreeArea_aslr h haslr]
    exact fun c hc => ⟨by have := (hqueries c hc).1; omega, hpos⟩
  · rw [findFreeArea_aslr h haslr]
    exact hqueries
  · rw [findFreeArea_aslr h haslr] at ha
    obtain ⟨x, hx, rfl⟩ := Option.map_eq_some_iff.mp ha
    dsimp only at hne ⊢
    split_ifs at hne ⊢ with h1 h2
    · exact hwhole hne
    · exact hpart hne
    · exact hareas x hx hne
  · rw [findFreeArea_aslr h haslr] at h0
    obtain ⟨x, hx, hzero⟩ := Option.map_eq_some_iff.mp h0
    dsimp only at hzero
    split_ifs at hzero with h1 h2
    · exact hzero
    · exact absurd hzero h2
    · exact absurd hzero h1

/-- The first place that is drawn is looked up. -/
theorem candidate_mem_queries (h : t.IsRequest r) (haslr : t.enableAslr = true) (draws : Draws) :
    r.candidate (draws.1 0 r.lastDraw) ∈ (t.findFreeArea r draws).1 := by
  rw [findFreeArea_aslr h haslr]
  unfold FreeAreaRequest.tryAreas
  dsimp only
  split
  · exact mem_singleton_self _
  · split
    · exact mem_singleton_self _
    · exact mem_cons_self

/-- A page table whose address space is one free block of 16 pages. -/
def freeTable : KPageTableBase where
  memoryBlockManager := freeBlockManager 0x10000
  enableAslr := true
  spans := freeBlockManager_spans 0x10000
  start_pos := by decide
  end_le := by decide

end KPageTableBase
end Kernel
end Citron
