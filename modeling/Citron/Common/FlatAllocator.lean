/-
# The flat allocator

`FlatAllocator` is the flat address space map with physical type `bool`: a block is
taken or free. `Allocate` first tries the addresses from the end of the last linear
allocation on, past the fixed mappings there, and then the gaps between the blocks.
`VaType` is `u32`; a result of 0 (`UnmappedVa`) says that the address space is full.
-/
import Citron.Common.AddressSpaceRun

namespace Citron

open List

namespace Common

open Lib FlatAddressSpaceMap

/-- `VaType` is `u32`. -/
def vaSize : ℕ := 2 ^ 32

structure FlatAllocator extends FlatAddressSpaceMap Bool Unit where
  virtStart : ℕ
  currentLinearAllocEnd : ℕ
deriving DecidableEq, Repr

namespace FlatAllocator

def new (virtStart vaLimit : ℕ) : FlatAllocator :=
  { FlatAddressSpaceMap.new vaLimit with virtStart, currentLinearAllocEnd := virtStart }

/-- The loop that skips over the fixed mappings in front of the linear end, from
the blocks `predecessor` and what follows it on. -/
def skipMappings (vaLimit size : ℕ) (predecessor : Block Bool Unit) : List (Block Bool Unit) → ℕ
  | [] => 0
  | successor :: rest =>
    if successor.virt - predecessor.virt < size ∨ predecessor.mapped then predecessor.virt
    else if rest = [] then
      -- the last block has no successor, the limit is its end
      let allocEnd := (successor.virt + size) % vaSize
      if allocEnd ≥ successor.virt ∧ allocEnd ≤ vaLimit then successor.virt else 0
    else skipMappings vaLimit size successor rest

/-- The linear pass of `Allocate`. -/
def linearStart (a : FlatAllocator) (size : ℕ) : Option ℕ :=
  let allocEnd := (a.currentLinearAllocEnd + size) % vaSize
  if allocEnd ≥ a.currentLinearAllocEnd ∧ allocEnd ≤ a.vaLimit then do
    let allocEndSuccessor := lowerBound a.blocks allocEnd
    let allocEndPredecessor ← prev allocEndSuccessor
    let predecessor ← a.blocks[allocEndPredecessor]?
    if predecessor.virt ≤ a.currentLinearAllocEnd then some a.currentLinearAllocEnd
    else some (skipMappings a.vaLimit size predecessor (a.blocks.drop allocEndSuccessor))
  else some 0

/-- The loop over the gaps, `none` at the end of the blocks. -/
def searchGap (size : ℕ) (predecessor : Block Bool Unit) : List (Block Bool Unit) → Option ℕ
  | [] => none
  | successor :: rest =>
    if successor.virt - predecessor.virt < size ∨ predecessor.mapped then searchGap size successor rest
    else some predecessor.virt

/-- `Allocate`. With one block only, the search for a gap begins past the end. -/
def allocate (a : FlatAllocator) (size : ℕ) : Option (ℕ × FlatAllocator) := do
  let allocStart ← a.linearStart size
  if allocStart ≠ 0 then
    let blocks ← mapLocked a.blocks allocStart true size ()
    some (allocStart, { a with blocks, currentLinearAllocEnd := (allocStart + size) % vaSize })
  else
    match a.blocks.tail with
    | [] => none
    | predecessor :: rest =>
      match searchGap size predecessor rest with
      | none => some (0, a)
      | some allocStart => do
        let blocks ← mapLocked a.blocks allocStart true size ()
        some (allocStart, { a with blocks })

def allocateFixed (a : FlatAllocator) (virt size : ℕ) : Option FlatAllocator := do
  let m ← a.toFlatAddressSpaceMap.map virt true size ()
  some { a with toFlatAddressSpaceMap := m }

def free (a : FlatAllocator) (virt size : ℕ) : Option FlatAllocator := do
  let m ← a.toFlatAddressSpaceMap.unmap virt size
  some { a with toFlatAddressSpaceMap := m }

/-! ### Where the two passes look -/

/-- The block before `alloc_end`, where the linear pass begins, if it begins. -/
structure Window (a : FlatAllocator) (size : ℕ) (before : List (Block Bool Unit)) (p : Block Bool Unit)
    (after : List (Block Bool Unit)) : Prop where
  blocks : a.blocks = before ++ p :: after
  fits : a.currentLinearAllocEnd + size ≤ a.vaLimit
  before : ∀ b ∈ before, b.virt < a.currentLinearAllocEnd + size
  predecessor : p.virt < a.currentLinearAllocEnd + size
  after : ∀ b ∈ after, a.currentLinearAllocEnd + size ≤ b.virt

/-- A free block that is long enough for the next block. -/
def Skips (size : ℕ) (b c : Block Bool Unit) : Prop := b.unmapped = true ∧ size ≤ c.virt - b.virt

/-- When `Allocate` finds a free region. If one block holds the whole linear window
it is free. If a block begins in the window, the last such block and those behind it
are free and long enough, but for the last block of all. If the linear pass finds
nothing, there is more than one block, and no gap of the size begins below the
start. -/
structure AllocateOk (a : FlatAllocator) (size : ℕ) : Prop where
  window : ∀ before p after, Window a size before p after → p.virt ≤ a.currentLinearAllocEnd →
    p.unmapped = true
  skip : ∀ before p after, Window a size before p after → a.currentLinearAllocEnd < p.virt →
    (p :: after).IsChain (Skips size)
  search : a.linearStart size = some 0 → a.blocks.tail ≠ [] ∧
    a.blocks.tail.IsChain fun b c => b.virt < a.virtStart → ¬ Skips size b c

end FlatAllocator
end Common

/-! ## Taken addresses

An `Unmap` can leave a block of its range behind, so the blocks of the allocator
need not alternate, and some freed addresses stay taken. What the allocator rests on
holds all the same: the blocks stay in order, between a free block at 0 and a last
free one (`Ordered`), and a call changes nothing outside its range.
-/

namespace Common

open Lib PhysicalAddress

namespace FlatAddressSpaceMap

/-- The blocks are strictly sorted from 0 to the limit, and the first and the last
one are unmapped. -/
structure Ordered (vaLimit : ℕ) (blocks : List (Block Bool Unit)) : Prop where
  ascending : Ascending Block.virt blocks
  head : ∃ b l, blocks = b :: l ∧ b.virt = 0 ∧ b.unmapped = true
  last : ∀ b ∈ blocks.getLast?, b.unmapped = true
  limit : ∀ b ∈ blocks, b.virt ≤ vaLimit

/-- The address belongs to a mapped block. -/
def Taken (blocks : List (Block Bool Unit)) (a : ℕ) : Prop := (lookup blocks a).isSome

variable {blocks l m r x e : List (Block Bool Unit)} {p q y b t : Block Bool Unit}
  {virt virtEnd size vaLimit a : ℕ}

/-! ### Other blocks in the range -/

/-- The blocks `e` stand behind the block `y` for what the blocks `r` stand for
behind the block `q`, from the end of the range on. -/
structure Trails (vaLimit : ℕ) (q : Block Bool Unit) (r : List (Block Bool Unit)) (y : Block Bool Unit)
    (e : List (Block Bool Unit)) (virtEnd : ℕ) : Prop where
  bounds : ∀ b ∈ e, virtEnd ≤ b.virt ∧ b.virt ≤ vaLimit
  ascending : Ascending Block.virt e
  last : ∀ b ∈ (y :: e).getLast?, b.unmapped = true
  rest : ∀ a, virtEnd ≤ a → ((lastAt Block.virt e a).or (some y)).bind (target · a) =
    ((lastAt Block.virt r a).or (some q)).bind (target · a)

theorem Ordered.splice (h : Ordered vaLimit (l ++ [p] ++ m ++ r)) (hc : Cut l p m r q virt virtEnd)
    (hlt : virt < virtEnd) (hlimit : virtEnd ≤ vaLimit) (hasc : Ascending Block.virt x)
    (hx : ∀ b ∈ x, virt ≤ b.virt ∧ b.virt < virtEnd) (hy : (p :: x).getLast? = some y)
    (ht : Trails vaLimit q r y e virtEnd) :
    Ordered vaLimit (l ++ [p] ++ x ++ e) ∧
      ∀ a, ¬ (virt ≤ a ∧ a < virtEnd) → lookup (l ++ [p] ++ x ++ e) a = lookup (l ++ [p] ++ m ++ r) a := by
  have hy' : (l ++ [p] ++ x).getLast? = some y := by
    rw [append_assoc, singleton_append, getLast?_append, hy, Option.some_or]
  have hyv : y.virt < virtEnd := by
    rcases mem_cons.mp (mem_of_getLast? hy) with rfl | hb
    · exact hc.predecessor.trans hlt
    · exact (hx y hb).2
  obtain ⟨hlm, -, -⟩ := ascending_append.mp h.ascending
  obtain ⟨hlp, -, -⟩ := ascending_append.mp hlm
  refine ⟨⟨?_, ?_, ?_, ?_⟩, fun a ha => ?_⟩
  · refine Ascending.splice (v := virt) (w := virtEnd) hlp hasc ht.ascending ?_ hx
      (fun b hb => (ht.bounds b hb).1) hlt.le
    simpa [or_imp, forall_and] using ⟨hc.left, hc.predecessor⟩
  · obtain ⟨b, t, hb, hb'⟩ := h.head
    cases l with
    | nil =>
      obtain ⟨rfl, -⟩ := hb
      exact ⟨p, x ++ e, by simp, hb'⟩
    | cons c l =>
      simp only [cons_append, List.cons.injEq] at hb
      obtain ⟨rfl, -⟩ := hb
      exact ⟨c, l ++ [p] ++ x ++ e, by simp, hb'⟩
  · have hlast : (l ++ [p] ++ x ++ e).getLast? = (y :: e).getLast? := by
      obtain ⟨z, hz⟩ := getLast?_eq_some_iff.mp hy'
      rw [hz, append_assoc, singleton_append, getLast?_append, Option.or_of_isSome (by simp)]
    rw [hlast]
    exact ht.last
  · intro b hb
    rcases mem_append.mp hb with hb | hb
    · rcases mem_append.mp hb with hb | hb
      · exact h.limit b (mem_append_left _ (mem_append_left _ hb))
      · exact (hx b hb).2.le.trans hlimit
    · exact (ht.bounds b hb).2
  · by_cases h1 : virt ≤ a
    · have h2 : virtEnd ≤ a := by
        by_contra h2
        exact ha ⟨h1, not_le.mp h2⟩
      rw [lookup_append_of_le hy' (hyv.le.trans h2), lookup_append_of_le hc.getLast?
        ((hc.last_virt hlt).le.trans h2)]
      exact ht.rest a h2
    · have hxe : ∀ b ∈ x ++ e, a < b.virt := by
        intro b hb
        rcases mem_append.mp hb with hb | hb
        · have := (hx b hb).1
          omega
        · have := (ht.bounds b hb).1
          omega
      have hmr : ∀ b ∈ m ++ r, a < b.virt := by
        intro b hb
        rcases mem_append.mp hb with hb | hb
        · have := (hc.middle b hb).1
          omega
        · have := hc.right b hb
          omega
      rw [append_assoc _ x, append_assoc _ m, lookup_append_of_lt hxe, lookup_append_of_lt hmr]

/-! ### What follows the range -/

section Trails

variable (hr : ∀ b ∈ r, virtEnd ≤ b.virt ∧ b.virt ≤ vaLimit) (hasc : Ascending Block.virt r)
  (hlast : ∀ b ∈ (q :: r).getLast?, b.unmapped = true)
include hr hasc hlast

theorem Trails.tail (ht : t.virt = virtEnd) (hlimit : virtEnd ≤ vaLimit) (hu : t.unmapped = q.unmapped)
    (hne : ∀ b ∈ r.head?, b.virt ≠ virtEnd) : Trails vaLimit q r y (t :: r) virtEnd where
  bounds := forall_mem_cons.mpr ⟨⟨ht.ge, ht.trans_le hlimit⟩, hr⟩
  ascending := by
    refine ascending_cons.mpr ⟨fun b hb => ?_, hasc⟩
    cases r with
    | nil => cases hb
    | cons c r =>
      have hcne := hne c rfl
      have hcv := (hr c mem_cons_self).1
      rcases mem_cons.mp hb with rfl | hb
      · omega
      · have := (ascending_cons.mp hasc).1 b hb
        omega
  last := by
    cases r with
    | nil =>
      intro b hb
      obtain rfl : t = b := by simpa using hb
      rw [hu]
      exact hlast q rfl
    | cons b r => simpa [getLast?_cons_cons] using hlast
  rest a ha := by
    rw [lastAt_cons_of_le (ht.trans_le ha), Option.or_assoc, Option.some_or]
    refine bind_or_congr ?_
    -- an address is taken or not, its place in the block does not matter
    have hphys : t.phys = q.phys := by
      have h1 : t.unmapped = !t.phys := by cases h : t.phys <;> simp [Block.unmapped, h, unmappedPa]
      have h2 : q.unmapped = !q.phys := by cases h : q.phys <;> simp [Block.unmapped, h, unmappedPa]
      rw [h1, h2] at hu
      exact Bool.not_inj hu
    unfold target
    rw [hu, hphys]
    rfl

/-- The blocks from the end of the range on stay, if one of them begins there or
the blocks before it are both unmapped. -/
theorem Trails.same (h : (∃ b, r.head? = some b ∧ b.virt = virtEnd) ∨
    (y.unmapped = true ∧ q.unmapped = true)) : Trails vaLimit q r y r virtEnd where
  bounds := hr
  ascending := hasc
  last := by
    cases r with
    | nil =>
      intro b hb
      obtain rfl : y = b := by simpa using hb
      rcases h with ⟨b, hb, -⟩ | ⟨hy, -⟩
      · cases hb
      · exact hy
    | cons b r => simpa [getLast?_cons_cons] using hlast
  rest a ha := by
    rcases h with ⟨b, hb, hbv⟩ | ⟨hy, hq⟩
    · cases r with
      | nil => cases hb
      | cons c r =>
        obtain rfl : c = b := by simpa using hb
        rw [lastAt_cons_of_le (hbv.trans_le ha), Option.or_assoc, Option.or_assoc]
        rfl
    · exact bind_or_congr (by rw [target_of_unmapped hy, target_of_unmapped hq])

/-- An unmapped block at the end of the range is dropped for one before it. -/
theorem Trails.drop (hb : b.unmapped = true) (hbv : b.virt = virtEnd) (hy : y.unmapped = true)
    {z : List (Block Bool Unit)} (hz : r = b :: z) : Trails vaLimit q r y z virtEnd := by
  subst hz
  refine ⟨fun c hc => hr c (mem_cons_of_mem _ hc), (ascending_cons.mp hasc).2, ?_, fun a ha => ?_⟩
  · cases z with
    | nil =>
      intro c hc
      obtain rfl : y = c := by simpa using hc
      exact hy
    | cons c z => simpa [getLast?_cons_cons] using hlast
  · rw [lastAt_cons_of_le (hbv.trans_le ha), Option.or_assoc, Option.some_or]
    refine bind_or_congr ?_
    rw [target_of_unmapped hy, target_of_unmapped hb]

theorem Trails.map (hlimit : virtEnd ≤ vaLimit) : Trails vaLimit q r y (mapRest m r q virtEnd) virtEnd := by
  cases r with
  | nil =>
    have hqu : q.unmapped = true := hlast q rfl
    unfold mapRest
    cases m.isEmpty
    · exact Trails.tail hr hasc hlast rfl hlimit rfl (by simp)
    · exact Trails.tail hr hasc hlast rfl hlimit (hqu ▸ rfl) (by simp)
  | cons b r =>
    rw [mapRest_cons]
    by_cases hbv : b.virt = virtEnd
    · rw [if_pos hbv]
      exact Trails.same hr hasc hlast (.inl ⟨b, rfl, hbv⟩)
    · rw [if_neg hbv]
      exact Trails.tail hr hasc hlast rfl hlimit rfl (by simpa using hbv)

/-- Behind the range an unmapped block, or a mapped block of the range that the
call leaves. -/
theorem Trails.unmap (hlimit : virtEnd ≤ vaLimit)
    (hy : (∃ b, r.head? = some b ∧ b.virt = virtEnd ∧ b.unmapped = false) ∨
      (∃ b, r.head? = some b ∧ b.virt ≠ virtEnd ∧ q.unmapped = false) ∨ y.unmapped = true) :
    Trails vaLimit q r y (unmapRest r q virtEnd) virtEnd := by
  unfold unmapRest
  cases r with
  | nil =>
    have hqu := hlast q rfl
    rw [if_pos hqu]
    refine Trails.same hr hasc hlast (.inr ⟨?_, hqu⟩)
    rcases hy with ⟨b, hb, -⟩ | ⟨b, hb, -⟩ | hy
    · cases hb
    · cases hb
    · exact hy
  | cons b r =>
    simp only [head?_cons, Option.some.injEq, exists_eq_left'] at hy
    by_cases hbv : b.virt = virtEnd
    · by_cases hqu : q.unmapped = true
      · rw [if_pos hqu]
        exact Trails.same hr hasc hlast (.inl ⟨b, rfl, hbv⟩)
      · rw [if_neg hqu]
        by_cases hbu : b.unmapped = true
        · simp only [hbv, hbu, if_true]
          refine Trails.drop hr hasc hlast hbu hbv ?_ rfl
          rcases hy with ⟨-, h⟩ | ⟨h, -⟩ | h
          · rw [hbu] at h
            cases h
          · exact absurd hbv h
          · exact h
        · simp only [hbv, hbu, if_true, Bool.false_eq_true, if_false]
          exact Trails.same hr hasc hlast (.inl ⟨b, rfl, hbv⟩)
    · by_cases hqu : q.unmapped = true
      · rw [if_pos hqu]
        refine Trails.same hr hasc hlast (.inr ⟨?_, hqu⟩)
        rcases hy with ⟨h, -⟩ | ⟨-, h⟩ | h
        · exact absurd h hbv
        · rw [hqu] at h
          cases h
        · exact h
      · rw [if_neg hqu]
        simp only [hbv, if_false]
        exact Trails.tail hr hasc hlast rfl hlimit rfl (by simpa using hbv)

end Trails

theorem Ordered.parts (h : Ordered vaLimit (l ++ [p] ++ m ++ r)) (hc : Cut l p m r q virt virtEnd) :
    Ascending Block.virt m ∧ (∀ b ∈ r, virtEnd ≤ b.virt ∧ b.virt ≤ vaLimit) ∧ Ascending Block.virt r ∧
      ∀ b ∈ (q :: r).getLast?, b.unmapped = true := by
  obtain ⟨h1, h2, -⟩ := ascending_append.mp h.ascending
  refine ⟨(ascending_append.mp h1).2.1, fun b hb => ⟨hc.right b hb, h.limit b (by simp [hb])⟩, h2, ?_⟩
  obtain ⟨z, hz⟩ := getLast?_eq_some_iff.mp hc.getLast?
  have := h.last
  rw [hz, append_assoc, getLast?_append, singleton_append] at this
  cases hr : (q :: r).getLast? with
  | none => simp at hr
  | some b =>
    rw [hr] at this
    exact this

end FlatAddressSpaceMap

end Common
end Citron
