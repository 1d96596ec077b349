/-
# The page bitmap

`KPageBitmap` keeps a set of bits in words of 64, with a level of words above it
that has a bit for each word that is not zero, and so on up to a single word. The
levels are listed here from the deepest one up, the order in which `SetBit` and
`ClearBit` walk them. An access outside a level's storage gives `none`.
`FindFreeRange` is not modelled: the heap does not call it.
-/
import Citron.Common.Alignment

namespace Citron
namespace Kernel

open Common

/-! ### Random bits -/

/-- `Common::TinyMT`, as a source of 32 random bits at a time. -/
class TinyMT (σ : Type) where
  generateRandomU32 : σ → BitVec 32 × σ

structure RandomBitGenerator (σ : Type) where
  rng : σ
  entropy : BitVec 32 := 0
  bitsAvailable : ℕ := 0

namespace RandomBitGenerator

variable {σ : Type} [TinyMT σ]

def refreshEntropy (g : RandomBitGenerator σ) : RandomBitGenerator σ :=
  let (entropy, rng) := TinyMT.generateRandomU32 g.rng
  ⟨rng, entropy, 32⟩

/-- Refresh if there are no bits left. -/
def ensureBits (g : RandomBitGenerator σ) : RandomBitGenerator σ :=
  if g.bitsAvailable = 0 then g.refreshEntropy else g

theorem ensureBits_pos (g : RandomBitGenerator σ) : 0 < g.ensureBits.bitsAvailable := by
  unfold ensureBits
  split_ifs with h
  · exact Nat.succ_pos _
  · exact Nat.pos_of_ne_zero h

def generateRandomBit (g : RandomBitGenerator σ) : Bool × RandomBitGenerator σ :=
  let g := g.ensureBits
  (g.entropy.getLsbD 0, { g with entropy := g.entropy >>> 1, bitsAvailable := g.bitsAvailable - 1 })

def generateRandomBits (g : RandomBitGenerator σ) (result : BitVec 64) (numBits : ℕ) :
    BitVec 64 × RandomBitGenerator σ :=
  if 0 < numBits then
    let g' := g.ensureBits
    let curBits := min numBits g'.bitsAvailable
    let mask : BitVec 64 := (1#64 <<< curBits) - 1#64
    generateRandomBits
      { g' with entropy := g'.entropy >>> curBits, bitsAvailable := g'.bitsAvailable - curBits }
      ((result <<< curBits) ||| (g'.entropy.setWidth 64 &&& mask)) (numBits - curBits)
  else (result, g)
termination_by numBits
decreasing_by
  have := g.ensureBits_pos
  omega

/-- A random number below `max`: 64 bits without the leading zeros of `max`, and one more. -/
def generateRandom (g : RandomBitGenerator σ) (max : ℕ) : ℕ × RandomBitGenerator σ :=
  let bitsNeeded := 1 + (if max = 0 then 0 else max.log2 + 1)
  let (rnd, g) := g.generateRandomBits 0 bitsNeeded
  (rnd.toNat - rnd.toNat / max * max, g)

/-- The turns of the loop of `SelectRandomBit`: `cur_num_bits` is half as large each time. -/
def selectRandomBitLoop (g : RandomBitGenerator σ) : ℕ → BitVec 64 → ℕ → ℕ × RandomBitGenerator σ
  | 0, _, selected => (selected, g)
  | k + 1, bitmap, selected =>
    let curNumBits := 1 <<< k
    let high := bitmap >>> curNumBits
    let low := bitmap &&& ~~~(BitVec.allOnes 64 <<< curNumBits)
    if high ≠ 0 then
      if low = 0 then g.selectRandomBitLoop k high (selected + curNumBits)
      else
        let (bit, g) := g.generateRandomBit
        if bit then g.selectRandomBitLoop k high (selected + curNumBits)
        else g.selectRandomBitLoop k low selected
    else g.selectRandomBitLoop k low selected

def selectRandomBit (g : RandomBitGenerator σ) (bitmap : BitVec 64) : ℕ × RandomBitGenerator σ :=
  g.selectRandomBitLoop 6 bitmap 0

end RandomBitGenerator

/-! ### The levels -/

/-- `std::countr_zero`. -/
def countrZero (v : BitVec 64) : ℕ := ((List.range 64).find? v.getLsbD).getD 64

abbrev Level := List (BitVec 64)

/-- The bit at an offset. -/
def Level.bit (level : Level) (offset : ℕ) : Bool := (level.getD (offset / 64) 0).getLsbD (offset % 64)

/-- `SetBit(depth, offset)`, for the level of the depth and those above it. -/
def setBit : List Level → ℕ → Option (List Level)
  | [], _ => some []
  | level :: levels, offset => do
    let ind := offset / 64
    let which := offset % 64
    let mask : BitVec 64 := 1#64 <<< which
    let v ← level[ind]?
    let level := level.set ind (v ||| mask)
    if v ≠ 0 then some (level :: levels)
    else do
      let levels ← setBit levels ind
      some (level :: levels)

/-- `ClearBit(depth, offset)`, for the level of the depth and those above it. -/
def clearBit : List Level → ℕ → Option (List Level)
  | [], _ => some []
  | level :: levels, offset => do
    let ind := offset / 64
    let which := offset % 64
    let mask : BitVec 64 := 1#64 <<< which
    let v ← level[ind]?
    let v := v &&& ~~~mask
    let level := level.set ind v
    if v ≠ 0 then some (level :: levels)
    else do
      let levels ← clearBit levels ind
      some (level :: levels)

/-- `ClearRange` of fewer than 64 bits. -/
def clearRangeWord (levels : List Level) (offset count : ℕ) : Option (Bool × List Level) :=
  match levels with
  | [] => none
  | level :: ups => do
    let bitInd := offset / 64
    let shift := offset % 64
    let mask : BitVec 64 := ((1#64 <<< count) - 1#64) <<< shift
    let v ← level[bitInd]?
    if v &&& mask ≠ mask then some (false, level :: ups)
    else
      let v := v &&& ~~~mask
      let level := level.set bitInd v
      if v = 0 then do
        let ups ← clearBit ups bitInd
        some (true, level :: ups)
      else some (true, level :: ups)

/-- The first loop of `ClearRange` of 64 bits or more: are all of `n` words full? -/
def allWordsSet (level : Level) (bitInd : ℕ) : ℕ → Option Bool
  | 0 => some true
  | n + 1 => do
    let v ← level[bitInd]?
    if v ≠ BitVec.allOnes 64 then some false else allWordsSet level (bitInd + 1) n

/-- Its second loop: clear them. -/
def clearWords (level : Level) (ups : List Level) (bitInd : ℕ) : ℕ → Option (List Level)
  | 0 => some (level :: ups)
  | n + 1 => do
    let ups ← clearBit ups bitInd
    clearWords (level.set bitInd 0) ups (bitInd + 1) n

def clearRangeWords (levels : List Level) (offset count : ℕ) : Option (Bool × List Level) :=
  match levels with
  | [] => none
  | level :: ups => do
    let all ← allWordsSet level (offset / 64) (count / 64)
    if all then do
      let levels ← clearWords level ups (offset / 64) (count / 64)
      some (true, levels)
    else some (false, level :: ups)

/-- The walk of `FindFreeBlock` from depth 0 down to the deepest level. `select`
picks a bit of a word that is not zero. -/
def findFreeBlock {σ : Type} (select : σ → BitVec 64 → ℕ × σ) : List Level → σ → Option (Option ℕ × σ)
  | [], g => some (some 0, g)
  | level :: levels, g => do
    let (found, g) ← findFreeBlock select levels g
    match found with
    | none => some (none, g)
    | some offset => do
      let v ← level[offset]?
      if v = 0 then some (none, g)
      else
        let (bit, g) := select g v
        some (some (offset * 64 + bit), g)

/-! ### The bitmap -/

def getRequiredDepth (regionSize : ℕ) : ℕ :=
  if regionSize / 64 = 0 then 1 else getRequiredDepth (regionSize / 64) + 1
termination_by regionSize
decreasing_by omega

/-- The storages that `Initialize` lays out, all zero. -/
def initialStorages : ℕ → ℕ → List Level
  | 0, _ => []
  | depth + 1, size =>
    let size := alignUp size 64 / 64
    List.replicate size 0 :: initialStorages depth size

structure KPageBitmap (σ : Type) where
  bitStorages : List Level
  rng : RandomBitGenerator σ
  numBits : ℕ

namespace KPageBitmap

variable {σ : Type} [TinyMT σ]

/-- `Initialize`, with a generator that is seeded already. -/
def initializeBitmap (rng : RandomBitGenerator σ) (size : ℕ) : KPageBitmap σ :=
  { bitStorages := initialStorages (getRequiredDepth size) size
    rng := rng
    numBits := 0 }

def findFreeBlock (b : KPageBitmap σ) (random : Bool) : Option (Option ℕ × KPageBitmap σ) := do
  let select (g : RandomBitGenerator σ) (v : BitVec 64) : ℕ × RandomBitGenerator σ :=
    if random then g.selectRandomBit v else (countrZero v, g)
  let (offset, rng) ← Kernel.findFreeBlock select b.bitStorages b.rng
  some (offset, { b with rng })

def setBit (b : KPageBitmap σ) (offset : ℕ) : Option (KPageBitmap σ) := do
  let bitStorages ← Kernel.setBit b.bitStorages offset
  some { b with bitStorages, numBits := b.numBits + 1 }

def clearBit (b : KPageBitmap σ) (offset : ℕ) : Option (KPageBitmap σ) := do
  let bitStorages ← Kernel.clearBit b.bitStorages offset
  some { b with bitStorages, numBits := b.numBits - 1 }

def clearRange (b : KPageBitmap σ) (offset count : ℕ) : Option (Bool × KPageBitmap σ) := do
  let (cleared, bitStorages) ←
    if count < 64 then clearRangeWord b.bitStorages offset count
    else clearRangeWords b.bitStorages offset count
  if cleared then some (true, { b with bitStorages, numBits := b.numBits - count })
  else some (false, b)

end KPageBitmap

end Kernel
end Citron
