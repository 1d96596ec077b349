/-
# The flat address space map

`FlatAddressSpaceMap` keeps a vector of blocks, sorted by their first virtual
address. A block reaches to the next one and is mapped to a physical address, or
unmapped. `MapLocked` and `UnmapLocked` find the ends of their range by iterators
into the vector, which are indices here; an access through an iterator that points
to no block gives `none`. The assertions are not part of a release build, so the
model goes on after them as the code does. The unmap callback is not modelled:
each call ends with it.
-/
import Mathlib

namespace Citron
namespace Common

/-- `PaType`, `UnmappedPa` and `PaContigSplit` of the template. -/
class PhysicalAddress (Pa : Type) where
  unmappedPa : Pa
  paContigSplit : Bool
  add : Pa → ℕ → Pa
  add_zero : ∀ p, add p 0 = p
  add_add : ∀ p a b, add (add p a) b = add p (a + b)

open PhysicalAddress

variable {Pa Extra : Type} [DecidableEq Pa] [PhysicalAddress Pa]

structure Block (Pa Extra : Type) where
  virt : ℕ
  phys : Pa
  extraInfo : Extra
deriving DecidableEq, Repr

namespace Block

def mapped (b : Block Pa Extra) : Bool := b.phys != unmappedPa

def unmapped (b : Block Pa Extra) : Bool := b.phys == unmappedPa

end Block

structure FlatAddressSpaceMap (Pa Extra : Type) where
  blocks : List (Block Pa Extra)
  vaLimit : ℕ
deriving DecidableEq, Repr

namespace FlatAddressSpaceMap

/-! ### The vector -/

/-- `std::lower_bound`. -/
def lowerBound (blocks : List (Block Pa Extra)) (virt : ℕ) : ℕ :=
  blocks.findIdx fun b => virt ≤ b.virt

/-- `std::prev`. -/
def prev : ℕ → Option ℕ
  | 0 => none
  | i + 1 => some i

/-- `blocks.insert` of a list. -/
def insertBlocks (blocks : List (Block Pa Extra)) (i : ℕ) (new : List (Block Pa Extra)) :
    List (Block Pa Extra) := blocks.take i ++ new ++ blocks.drop i

/-- `blocks.erase` of a range. -/
def eraseBlocks (blocks : List (Block Pa Extra)) (i j : ℕ) : List (Block Pa Extra) :=
  blocks.take i ++ blocks.drop j

/-! ### Map -/

/-- The walk of `MapLocked` to the first block that is not before `virt`. -/
def walkBackToSuccessor (blocks : List (Block Pa Extra)) (virt : ℕ) : ℕ → Option ℕ
  | 0 => none
  | i + 1 => do
    let block ← blocks[i]?
    if virt ≤ block.virt then walkBackToSuccessor blocks virt i else some (i + 1)

/-- The end of `MapLocked`, once there is a block at the end of the range. -/
def mapStart (blocks : List (Block Pa Extra)) (virt virtEnd : ℕ) (phys : Pa) (extraInfo : Extra)
    (blockEndSuccessor : ℕ) : Option (List (Block Pa Extra)) := do
  let blockStartSuccessor ← walkBackToSuccessor blocks virt blockEndSuccessor
  let start ← blocks[blockStartSuccessor]?
  if start.virt > virtEnd then
    some blocks
  else if start.virt = virtEnd then
    some (insertBlocks blocks blockStartSuccessor [⟨virt, phys, extraInfo⟩])
  else
    let eraseStart := blockStartSuccessor + 1
    let blocks :=
      if eraseStart ≠ blockEndSuccessor then eraseBlocks blocks eraseStart blockEndSuccessor else blocks
    some (blocks.set blockStartSuccessor ⟨virt, phys, extraInfo⟩)

def mapTailPhys (blockEndPredecessor : Block Pa Extra) (virtEnd : ℕ) : Pa :=
  if !paContigSplit Pa then blockEndPredecessor.phys
  -- always propagate unmapped regions
  else if blockEndPredecessor.unmapped then blockEndPredecessor.phys
  else add blockEndPredecessor.phys (virtEnd - blockEndPredecessor.virt)

def mapLocked [Inhabited Extra] (blocks : List (Block Pa Extra)) (virt : ℕ) (phys : Pa) (size : ℕ)
    (extraInfo : Extra) : Option (List (Block Pa Extra)) := do
  let virtEnd := virt + size
  let blockEndSuccessor := lowerBound blocks virtEnd
  let blockEndPredecessor ← prev blockEndSuccessor
  let predecessor ← blocks[blockEndPredecessor]?
  match blocks[blockEndSuccessor]? with
  | some successor =>
    if successor.virt ≠ virtEnd then
      let tailPhys := mapTailPhys predecessor virtEnd
      if blockEndPredecessor ≠ 0 ∧ predecessor.virt ≥ virt then
        -- reuse the block as the tail
        let blocks := blocks.set blockEndPredecessor ⟨virtEnd, tailPhys, predecessor.extraInfo⟩
        mapStart blocks virt virtEnd phys extraInfo blockEndPredecessor
      else
        some (insertBlocks blocks blockEndSuccessor
          [⟨virt, phys, extraInfo⟩, ⟨virtEnd, tailPhys, predecessor.extraInfo⟩])
    else mapStart blocks virt virtEnd phys extraInfo blockEndSuccessor
  | none =>
    if blockEndPredecessor ≠ 0 ∧ predecessor.virt ≥ virt then
      -- move the start of the last block
      let blocks := blocks.set blockEndPredecessor { predecessor with virt := virtEnd }
      mapStart blocks virt virtEnd phys extraInfo blockEndPredecessor
    else
      some (insertBlocks blocks blockEndSuccessor
        [⟨virt, phys, extraInfo⟩, ⟨virtEnd, unmappedPa, default⟩])

/-! ### Unmap -/

/-- `walk_back_to_predecessor`. -/
def walkBackToPredecessor (blocks : List (Block Pa Extra)) (virt : ℕ) : ℕ → Option ℕ
  | 0 => do
    let block ← blocks[0]?
    if virt ≤ block.virt then none else some 0
  | i + 1 => do
    let block ← blocks[i + 1]?
    if virt ≤ block.virt then walkBackToPredecessor blocks virt i else some (i + 1)

/-- `erase_blocks_with_end_unmapped`. -/
def eraseBlocksWithEndUnmapped (blocks : List (Block Pa Extra)) (virt : ℕ) (unmappedEnd : ℕ) :
    Option (List (Block Pa Extra)) := do
  let blockStartPredecessor ← walkBackToPredecessor blocks virt unmappedEnd
  let blockStartSuccessor := blockStartPredecessor + 1
  let predecessor ← blocks[blockStartPredecessor]?
  if predecessor.unmapped then
    some (eraseBlocks blocks blockStartSuccessor (unmappedEnd + 1))
  else
    -- reuse the unmapped block as the start of the region
    let block ← blocks[unmappedEnd]?
    let blocks := blocks.set unmappedEnd { block with virt := virt }
    some (eraseBlocks blocks blockStartSuccessor unmappedEnd)

/-- The end of `UnmapLocked`, once there is a block at the end of the range. -/
def unmapStart [Inhabited Extra] (blocks : List (Block Pa Extra)) (virt virtEnd : ℕ)
    (blockEndPredecessor blockEndSuccessor : ℕ) : Option (List (Block Pa Extra)) := do
  let blockStartPredecessor ← walkBackToPredecessor blocks virt blockEndSuccessor
  let blockStartSuccessor := blockStartPredecessor + 1
  let predecessor ← blocks[blockStartPredecessor]?
  let start ← blocks[blockStartSuccessor]?
  if start.virt > virtEnd then
    some blocks
  else if start.virt = virtEnd then
    if predecessor.mapped then
      some (insertBlocks blocks blockStartSuccessor [⟨virt, unmappedPa, default⟩])
    else some blocks
  else if predecessor.unmapped then
    some (eraseBlocks blocks blockStartSuccessor blockEndPredecessor)
  else
    let eraseStart := blockStartSuccessor + 1
    let blocks :=
      if eraseStart ≠ blockEndSuccessor then eraseBlocks blocks eraseStart blockEndSuccessor else blocks
    some (blocks.set blockStartSuccessor { start with virt := virt, phys := unmappedPa })

def unmapTailPhys (blockEndPredecessor : Block Pa Extra) (virtEnd : ℕ) : Pa :=
  if paContigSplit Pa then add blockEndPredecessor.phys (virtEnd - blockEndPredecessor.virt)
  else blockEndPredecessor.phys

def unmapLocked [Inhabited Extra] (blocks : List (Block Pa Extra)) (virt size : ℕ) :
    Option (List (Block Pa Extra)) := do
  let virtEnd := virt + size
  let blockEndSuccessor := lowerBound blocks virtEnd
  let blockEndPredecessor ← prev blockEndSuccessor
  let predecessor ← blocks[blockEndPredecessor]?
  if predecessor.unmapped then
    if predecessor.virt > virt then eraseBlocksWithEndUnmapped blocks virt blockEndPredecessor
    else some blocks
  else
    let successor ← blocks[blockEndSuccessor]?
    if successor.virt = virtEnd ∧ successor.unmapped then
      eraseBlocksWithEndUnmapped blocks virt blockEndSuccessor
    else if successor.virt ≠ virtEnd then
      let tailPhys := unmapTailPhys predecessor virtEnd
      if predecessor.virt ≥ virt then
        -- reuse the block as the tail
        let blocks := blocks.set blockEndPredecessor { predecessor with virt := virtEnd, phys := tailPhys }
        let blockEndPredecessor' ← prev blockEndPredecessor
        unmapStart blocks virt virtEnd blockEndPredecessor' blockEndPredecessor
      else
        some (insertBlocks blocks blockEndSuccessor
          [⟨virt, unmappedPa, default⟩, ⟨virtEnd, tailPhys, predecessor.extraInfo⟩])
    else unmapStart blocks virt virtEnd blockEndPredecessor blockEndSuccessor

/-! ### The operations -/

/-- The map before any call: one unmapped block. `UnmappedVa` is 0. -/
def new [Inhabited Extra] (vaLimit : ℕ) : FlatAddressSpaceMap Pa Extra :=
  ⟨[⟨0, unmappedPa, default⟩], vaLimit⟩

def map [Inhabited Extra] (m : FlatAddressSpaceMap Pa Extra) (virt : ℕ) (phys : Pa) (size : ℕ)
    (extraInfo : Extra) : Option (FlatAddressSpaceMap Pa Extra) := do
  let blocks ← mapLocked m.blocks virt phys size extraInfo
  some { m with blocks }

def unmap [Inhabited Extra] (m : FlatAddressSpaceMap Pa Extra) (virt size : ℕ) :
    Option (FlatAddressSpaceMap Pa Extra) := do
  let blocks ← unmapLocked m.blocks virt size
  some { m with blocks }

end FlatAddressSpaceMap

end Common
end Citron
