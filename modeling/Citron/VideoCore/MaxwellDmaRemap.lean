/-
# The component remap of the DMA engine

`MaxwellDMA::RemapConst`: a destination element has components, each of which is a component of the source element, a
constant, or left as it is. An access of a buffer outside its bytes is a fault. `CopyRemapped` fills with a constant by
itself where the remap does only that.
-/
import Mathlib.Data.List.Basic
import Mathlib.Tactic.IntervalCases
import Mathlib.Tactic.Ring

namespace Citron
namespace Tegra
namespace MaxwellDMA

/-- The selectors; three bits have one value without a name. -/
inductive Swizzle
  | srcX | srcY | srcZ | srcW | constA | constB | noWrite | unnamed
  deriving DecidableEq

/-- `static_cast<Swizzle>` of three bits. -/
def Swizzle.ofBits : ℕ → Swizzle
  | 0 => srcX
  | 1 => srcY
  | 2 => srcZ
  | 3 => srcW
  | 4 => constA
  | 5 => constB
  | 6 => noWrite
  | _ => unnamed

/-- The component of the source that is selected. -/
def Swizzle.source : Swizzle → Option ℕ
  | srcX => some 0
  | srcY => some 1
  | srcZ => some 2
  | srcW => some 3
  | _ => none

/-- The bytes of a span. -/
structure Buffer where
  size : ℕ
  byte : ℕ → UInt8

inductive Fault
  | read | write
  deriving DecidableEq

namespace Buffer

/-- `std::memcpy` from the span. -/
def read (buffer : Buffer) (offset count : ℕ) : Except Fault (ℕ → UInt8) :=
  if offset + count ≤ buffer.size then .ok fun b => buffer.byte (offset + b) else .error .read

/-- `std::memcpy` to the span. -/
def write (buffer : Buffer) (offset count : ℕ) (bytes : ℕ → UInt8) : Except Fault Buffer :=
  if offset + count ≤ buffer.size then
    .ok { buffer with byte := fun p => if offset ≤ p ∧ p < offset + count then bytes (p - offset) else buffer.byte p }
  else .error .write

end Buffer

structure RemapConst where
  remapConstaValue : BitVec 32
  remapConstbValue : BitVec 32
  componentsRaw : BitVec 32

namespace RemapConst

variable (remap : RemapConst)

/-- `BitField<position, bits>` -/
def field (position bits : ℕ) : ℕ := remap.componentsRaw.toNat / 2 ^ position % 2 ^ bits

def dstComponent (i : ℕ) : Swizzle := .ofBits (remap.field (i * 4) 3)

def componentSize : ℕ := remap.field 16 2 + 1

def numSrc : ℕ := remap.field 20 2 + 1

def numDst : ℕ := remap.field 24 2 + 1

def srcElementSize : ℕ := remap.numSrc * remap.componentSize

def dstElementSize : ℕ := remap.numDst * remap.componentSize

def isPlainCopy : Bool :=
  remap.numSrc == remap.numDst && (List.range remap.numDst).all fun i => remap.dstComponent i == .ofBits i

/-- The bytes of a constant, the lowest first. -/
def constantByte (value : BitVec 32) (byte : ℕ) : UInt8 := UInt8.ofNat (value.toNat / 2 ^ (byte * 8))

/-- A destination component of an element. -/
def remapComponent (src dst : Buffer) (element i : ℕ) : Except Fault Buffer := do
  let component := element * remap.dstElementSize + i * remap.componentSize
  match (remap.dstComponent i).source with
  | some source =>
    if source < remap.numSrc then
      let bytes ← src.read (element * remap.srcElementSize + source * remap.componentSize) remap.componentSize
      dst.write component remap.componentSize bytes
    else return dst
  | none =>
    match remap.dstComponent i with
    | .constA => dst.write component remap.componentSize (constantByte remap.remapConstaValue)
    | .constB => dst.write component remap.componentSize (constantByte remap.remapConstbValue)
    | _ => return dst

/-- The first components of an element. -/
def remapComponents (src : Buffer) (element : ℕ) : ℕ → Buffer → Except Fault Buffer
  | 0, dst => .ok dst
  | i + 1, dst => do
    let dst ← remapComponents src element i dst
    remap.remapComponent src dst element i

/-- The first elements. -/
def remapElements (src : Buffer) : ℕ → Buffer → Except Fault Buffer
  | 0, dst => .ok dst
  | element + 1, dst => do
    let dst ← remapElements src element dst
    remap.remapComponents src element remap.numDst dst

/-! ### The copy -/

/-- The bytes of guest memory. -/
abbrev GuestMemory := ℕ → UInt8

/-- The memory's bytes from an address on. -/
def readBlock (memory : GuestMemory) (address size : ℕ) : Buffer := ⟨size, fun p => memory (address + p)⟩

def writeBlock (memory : GuestMemory) (address : ℕ) (buffer : Buffer) : GuestMemory := fun a =>
  if address ≤ a ∧ a < address + buffer.size then buffer.byte (a - address) else memory a

/-- The first words of the write buffer; the loop steps over four bytes at a time. -/
def fillWords (value : BitVec 32) : ℕ → Buffer → Except Fault Buffer
  | 0, buffer => .ok buffer
  | word + 1, buffer => do
    let buffer ← fillWords value word buffer
    buffer.write (word * 4) 4 (constantByte value)

/-- The remap only fills with words of a constant. -/
def fillsConstant : Bool := remap.dstComponent 0 == .constA && remap.numDst == 1 && remap.componentSize == 4

/-- The source is copied out first, and the destination is read before it is written. -/
def copyElements (memory : GuestMemory) (src dst count : ℕ) : Except Fault GuestMemory := do
  let source := readBlock memory src (count * remap.srcElementSize)
  let destination := readBlock memory dst (count * remap.dstElementSize)
  let destination ← remap.remapElements source count destination
  return writeBlock memory dst destination

/-- `stale` are the bytes that the write buffer has from before. -/
def copyRemapped (stale : ℕ → UInt8) (memory : GuestMemory) (src dst count : ℕ) : Except Fault GuestMemory := do
  if remap.fillsConstant then
    let dstSize := count * remap.dstElementSize
    let buffer ← fillWords remap.remapConstaValue ((dstSize + 3) / 4) ⟨dstSize, stale⟩
    return writeBlock memory dst buffer
  else remap.copyElements memory src dst count

end RemapConst

/-! ## What the component remap writes

A byte of the destination belongs to a component of an element. The loops over elements and components give each the byte that
its selector names, one component after the other, and nothing else; so a remap is a plain copy exactly when every component
selects itself, and a fill with words is the remap with one constant component of four bytes.
-/

namespace RemapConst

variable {remap : RemapConst} {src dst out : Buffer} {element i count p : ℕ}

theorem componentSize_pos (remap : RemapConst) : 0 < remap.componentSize := Nat.succ_pos _

theorem numDst_pos (remap : RemapConst) : 0 < remap.numDst := Nat.succ_pos _

/-- What a byte of a component becomes: that of the selected source component or constant, or what it is. -/
def componentByte (remap : RemapConst) (src : Buffer) (element i b : ℕ) (old : UInt8) : UInt8 :=
  match (remap.dstComponent i).source with
  | some source =>
    if source < remap.numSrc then src.byte (element * remap.srcElementSize + source * remap.componentSize + b) else old
  | none =>
    match remap.dstComponent i with
    | .constA => constantByte remap.remapConstaValue b
    | .constB => constantByte remap.remapConstbValue b
    | _ => old

/-! ### One component -/

/-- A span after some of its bytes have been given. -/
structure Gives (dst out : Buffer) (there : ℕ → Prop) (byte : ℕ → UInt8) : Prop where
  size : out.size = dst.size
  given : ∀ p, there p → out.byte p = byte p
  kept : ∀ p, ¬there p → out.byte p = dst.byte p

theorem write_gives {offset size : ℕ} (bytes : ℕ → UInt8) (h : offset + size ≤ dst.size) :
    ∃ out, dst.write offset size bytes = .ok out ∧
      Gives dst out (fun p => offset ≤ p ∧ p < offset + size) fun p => bytes (p - offset) := by
  refine ⟨_, if_pos h, rfl, ?_, ?_⟩
  · intro p hp
    exact if_pos hp
  · intro p hp
    exact if_neg hp

theorem Gives.self {there : ℕ → Prop} {byte : ℕ → UInt8} (h : ∀ p, there p → byte p = dst.byte p) : Gives dst dst there byte :=
  ⟨rfl, fun p hp => (h p hp).symm, fun _ _ => rfl⟩

theorem Gives.congr {there : ℕ → Prop} {byte byte' : ℕ → UInt8} (h : Gives dst out there byte)
    (hbyte : ∀ p, there p → byte' p = byte p) : Gives dst out there byte' :=
  ⟨h.size, fun p hp => (h.given p hp).trans (hbyte p hp).symm, h.kept⟩

theorem remapComponent_gives (remap : RemapConst) (hsource : (element + 1) * remap.srcElementSize ≤ src.size)
    (hdest : element * remap.dstElementSize + (i + 1) * remap.componentSize ≤ dst.size) :
    ∃ out, remap.remapComponent src dst element i = .ok out ∧
      Gives dst out (fun p => element * remap.dstElementSize + i * remap.componentSize ≤ p ∧
        p < element * remap.dstElementSize + (i + 1) * remap.componentSize)
      fun p => remap.componentByte src element i (p - (element * remap.dstElementSize + i * remap.componentSize))
        (dst.byte p) := by
  have hend : element * remap.dstElementSize + (i + 1) * remap.componentSize =
      element * remap.dstElementSize + i * remap.componentSize + remap.componentSize := by
    rw [Nat.succ_mul, Nat.add_assoc]
  rw [hend] at hdest ⊢
  unfold remapComponent componentByte
  cases hsel : (remap.dstComponent i).source with
  | some source =>
    dsimp only
    by_cases hlt : source < remap.numSrc
    · have hin : element * remap.srcElementSize + source * remap.componentSize + remap.componentSize ≤ src.size := by
        have hle : (source + 1) * remap.componentSize ≤ remap.srcElementSize := Nat.mul_le_mul_right _ hlt
        rw [Nat.succ_mul] at hle hsource
        omega
      have hread : src.read (element * remap.srcElementSize + source * remap.componentSize) remap.componentSize = .ok
          fun b => src.byte (element * remap.srcElementSize + source * remap.componentSize + b) := if_pos hin
      rw [if_pos hlt, hread]
      obtain ⟨out, hout, hgives⟩ :=
        write_gives (fun b => src.byte (element * remap.srcElementSize + source * remap.componentSize + b)) hdest
      exact ⟨out, hout, hgives.congr fun p _ => if_pos hlt⟩
    · rw [if_neg hlt]
      exact ⟨dst, rfl, .self fun p _ => if_neg hlt⟩
  | none =>
    cases hconst : remap.dstComponent i with
    | constA => exact write_gives _ hdest
    | constB => exact write_gives _ hdest
    | srcX => exact ⟨dst, rfl, .self fun p _ => rfl⟩
    | srcY => exact ⟨dst, rfl, .self fun p _ => rfl⟩
    | srcZ => exact ⟨dst, rfl, .self fun p _ => rfl⟩
    | srcW => exact ⟨dst, rfl, .self fun p _ => rfl⟩
    | noWrite => exact ⟨dst, rfl, .self fun p _ => rfl⟩
    | unnamed => exact ⟨dst, rfl, .self fun p _ => rfl⟩

/-! ### All components -/

/-- What the byte at a position becomes. -/
def remappedByte (remap : RemapConst) (src dst : Buffer) (p : ℕ) : UInt8 :=
  remap.componentByte src (p / remap.componentSize / remap.numDst) (p / remap.componentSize % remap.numDst)
    (p % remap.componentSize) (dst.byte p)

/-- The bytes before a position have been given theirs. -/
def Remapped (remap : RemapConst) (src dst out : Buffer) (n : ℕ) : Prop := Gives dst out (· < n) (remap.remappedByte src dst)

theorem remappedByte_of_component (hi : i < remap.numDst)
    (hlow : element * remap.dstElementSize + i * remap.componentSize ≤ p)
    (hhigh : p < element * remap.dstElementSize + (i + 1) * remap.componentSize) :
    remap.remappedByte src dst p =
      remap.componentByte src element i (p - (element * remap.dstElementSize + i * remap.componentSize)) (dst.byte p) := by
  have hsize := remap.componentSize_pos
  have hstart : element * remap.dstElementSize + i * remap.componentSize =
      remap.componentSize * (element * remap.numDst + i) := by
    rw [dstElementSize]
    ring
  obtain ⟨b, rfl⟩ := Nat.exists_eq_add_of_le hlow
  have hb : b < remap.componentSize := by
    rw [Nat.succ_mul] at hhigh
    omega
  have hblock : (remap.componentSize * (element * remap.numDst + i) + b) / remap.componentSize =
      element * remap.numDst + i := by
    rw [Nat.mul_add_div hsize, Nat.div_eq_of_lt hb, Nat.add_zero]
  have hoffset : (remap.componentSize * (element * remap.numDst + i) + b) % remap.componentSize = b := by
    rw [Nat.mul_add_mod, Nat.mod_eq_of_lt hb]
  have helement : (element * remap.numDst + i) / remap.numDst = element := by
    rw [Nat.mul_comm, Nat.mul_add_div remap.numDst_pos, Nat.div_eq_of_lt hi, Nat.add_zero]
  have hindex : (element * remap.numDst + i) % remap.numDst = i := by
    rw [Nat.mul_comm, Nat.mul_add_mod, Nat.mod_eq_of_lt hi]
  rw [remappedByte, hstart, hblock, hoffset, helement, hindex, Nat.add_sub_cancel_left]

/-- One component more. -/
theorem Remapped.step {next : Buffer} (hi : i < remap.numDst)
    (h : Remapped remap src dst out (element * remap.dstElementSize + i * remap.componentSize))
    (hnext : Gives out next (fun p => element * remap.dstElementSize + i * remap.componentSize ≤ p ∧
        p < element * remap.dstElementSize + (i + 1) * remap.componentSize)
      fun p => remap.componentByte src element i (p - (element * remap.dstElementSize + i * remap.componentSize))
        (out.byte p)) :
    Remapped remap src dst next (element * remap.dstElementSize + (i + 1) * remap.componentSize) where
  size := hnext.size.trans h.size
  given p hp := by
    rcases Nat.lt_or_ge p (element * remap.dstElementSize + i * remap.componentSize) with hlow | hhigh
    · rw [hnext.kept p fun hin => Nat.not_lt_of_le hin.1 hlow]
      exact h.given p hlow
    · rw [hnext.given p ⟨hhigh, hp⟩, remappedByte_of_component hi hhigh hp, h.kept p (Nat.not_lt_of_le hhigh)]
  kept p hp := by
    have hle : element * remap.dstElementSize + i * remap.componentSize ≤
        element * remap.dstElementSize + (i + 1) * remap.componentSize := by
      rw [Nat.succ_mul]
      omega
    rw [hnext.kept p fun hin => hp hin.2]
    exact h.kept p fun hlt => hp (hlt.trans_le hle)

theorem remapComponents_remapped (hi : i ≤ remap.numDst) (hsource : (element + 1) * remap.srcElementSize ≤ src.size)
    (hdest : (element + 1) * remap.dstElementSize ≤ dst.size)
    (h : Remapped remap src dst out (element * remap.dstElementSize)) :
    ∃ next, remap.remapComponents src element i out = .ok next ∧
      Remapped remap src dst next (element * remap.dstElementSize + i * remap.componentSize) := by
  induction i with
  | zero =>
    refine ⟨out, rfl, ?_⟩
    rwa [Nat.zero_mul, Nat.add_zero]
  | succ i ih =>
    obtain ⟨middle, hmiddle, hremapped⟩ := ih (Nat.le_of_succ_le hi)
    have hcomponents : (i + 1) * remap.componentSize ≤ remap.dstElementSize := Nat.mul_le_mul_right _ hi
    have hfits : element * remap.dstElementSize + (i + 1) * remap.componentSize ≤ middle.size := by
      rw [hremapped.size]
      rw [Nat.succ_mul] at hdest
      omega
    obtain ⟨next, hnext, hgives⟩ := remapComponent_gives remap hsource hfits
    refine ⟨next, ?_, hremapped.step hi hgives⟩
    rw [remapComponents, hmiddle]
    exact hnext

/-- **The loops give every byte of the elements what its component selects, and no other byte.** -/
theorem remapElements_remapped (remap : RemapConst) (hsource : count * remap.srcElementSize ≤ src.size)
    (hdest : count * remap.dstElementSize ≤ dst.size) :
    ∃ out, remap.remapElements src count dst = .ok out ∧ Remapped remap src dst out (count * remap.dstElementSize) := by
  induction count with
  | zero =>
    refine ⟨dst, rfl, rfl, ?_, fun _ _ => rfl⟩
    intro p hp
    rw [Nat.zero_mul] at hp
    exact absurd hp (Nat.not_lt_zero p)
  | succ element ih =>
    have hle : element ≤ element + 1 := Nat.le_succ element
    obtain ⟨middle, hmiddle, hremapped⟩ :=
      ih ((Nat.mul_le_mul_right _ hle).trans hsource) ((Nat.mul_le_mul_right _ hle).trans hdest)
    obtain ⟨next, hnext, hall⟩ := remapComponents_remapped le_rfl hsource hdest hremapped
    refine ⟨next, ?_, ?_⟩
    · rw [remapElements, hmiddle]
      exact hnext
    · have hend : (element + 1) * remap.dstElementSize =
          element * remap.dstElementSize + remap.numDst * remap.componentSize := Nat.succ_mul _ _
      rwa [hend]

theorem remappedByte_component (hi : i < remap.numDst) {b : ℕ} (hb : b < remap.componentSize) :
    remap.remappedByte src dst (element * remap.dstElementSize + i * remap.componentSize + b) =
      remap.componentByte src element i b
        (dst.byte (element * remap.dstElementSize + i * remap.componentSize + b)) := by
  have hhigh : element * remap.dstElementSize + i * remap.componentSize + b <
      element * remap.dstElementSize + (i + 1) * remap.componentSize := by
    rw [Nat.succ_mul]
    omega
  rw [remappedByte_of_component hi (Nat.le_add_right _ _) hhigh, Nat.add_sub_cancel_left]

/-! ### Plain copies -/

/-- The remap makes every destination from every source a byte-identical copy. -/
def CopiesBytes (remap : RemapConst) : Prop :=
  ∀ count src dst, src.size = count * remap.srcElementSize → dst.size = count * remap.dstElementSize →
    ∃ out, remap.remapElements src count dst = .ok out ∧ out.size = src.size ∧ ∀ p < out.size, out.byte p = src.byte p

theorem isPlainCopy_iff :
    remap.isPlainCopy = true ↔ remap.numSrc = remap.numDst ∧ ∀ i < remap.numDst, remap.dstComponent i = .ofBits i := by
  simp [isPlainCopy]

/-- The numbers of the four source components. -/
theorem ofBits_source (hi : i < 4) : (Swizzle.ofBits i).source = some i := by
  interval_cases i <;> rfl

theorem source_eq_some {swizzle : Swizzle} (h : swizzle.source = some i) : swizzle = .ofBits i := by
  cases swizzle <;> cases h <;> rfl

theorem numDst_le (remap : RemapConst) : remap.numDst ≤ 4 := Nat.succ_le_of_lt (Nat.mod_lt _ (by decide))

theorem copiesBytes_of_isPlainCopy (h : remap.isPlainCopy = true) : remap.CopiesBytes := by
  obtain ⟨hnum, hcomponents⟩ := isPlainCopy_iff.mp h
  intro count src dst hsource hdest
  have hstride : remap.srcElementSize = remap.dstElementSize := by rw [srcElementSize, dstElementSize, hnum]
  obtain ⟨out, hout, hremapped⟩ := remapElements_remapped remap hsource.ge hdest.ge
  refine ⟨out, hout, by rw [hremapped.size, hdest, hsource, hstride], ?_⟩
  intro p hp
  rw [hremapped.size, hdest] at hp
  have hi : p / remap.componentSize % remap.numDst < remap.numDst := Nat.mod_lt _ remap.numDst_pos
  have hsel : (remap.dstComponent (p / remap.componentSize % remap.numDst)).source =
      some (p / remap.componentSize % remap.numDst) := by
    rw [hcomponents _ hi]
    exact ofBits_source (hi.trans_le remap.numDst_le)
  have hposition : p / remap.componentSize / remap.numDst * remap.srcElementSize +
      p / remap.componentSize % remap.numDst * remap.componentSize + p % remap.componentSize = p := by
    calc p / remap.componentSize / remap.numDst * remap.srcElementSize +
          p / remap.componentSize % remap.numDst * remap.componentSize + p % remap.componentSize
        = (remap.numDst * (p / remap.componentSize / remap.numDst) + p / remap.componentSize % remap.numDst) *
            remap.componentSize + p % remap.componentSize := by
          rw [hstride, dstElementSize]
          ring
      _ = p / remap.componentSize * remap.componentSize + p % remap.componentSize := by rw [Nat.div_add_mod]
      _ = p := Nat.div_add_mod' p remap.componentSize
  rw [hremapped.given p hp, remappedByte, componentByte, hsel]
  dsimp only
  rw [if_pos (by rwa [hnum]), hposition]

/-- A source of zeros but for one byte. -/
def oneByte (size position : ℕ) (byte : UInt8) : Buffer := ⟨size, fun p => if p = position then byte else 0⟩

theorem componentByte_of_copiesBytes (h : remap.CopiesBytes) (hi : i < remap.numDst) (byte : UInt8) :
    remap.componentByte (oneByte remap.srcElementSize (i * remap.componentSize) byte) 0 i 0 0 = byte := by
  have hsize := remap.componentSize_pos
  have hle : (i + 1) * remap.componentSize ≤ remap.dstElementSize := Nat.mul_le_mul_right _ hi
  have hsource : (oneByte remap.srcElementSize (i * remap.componentSize) byte).size = 1 * remap.srcElementSize :=
    (Nat.one_mul _).symm
  have hdest : (oneByte remap.dstElementSize 0 0).size = 1 * remap.dstElementSize := (Nat.one_mul _).symm
  obtain ⟨out, hout, hsame, hcopy⟩ := h 1 _ _ hsource hdest
  obtain ⟨out', hout', hremapped⟩ := remapElements_remapped remap hsource.ge hdest.ge
  obtain rfl : out = out' := Except.ok.inj (hout.symm.trans hout')
  have hin : i * remap.componentSize < out.size := by
    rw [hremapped.size, hdest]
    rw [Nat.succ_mul] at hle
    omega
  have hzero : (oneByte remap.dstElementSize 0 0).byte (0 * remap.dstElementSize + i * remap.componentSize + 0) = 0 :=
    ite_self 0
  have hposition : 0 * remap.dstElementSize + i * remap.componentSize + 0 = i * remap.componentSize := by omega
  calc remap.componentByte (oneByte remap.srcElementSize (i * remap.componentSize) byte) 0 i 0 0
      = remap.remappedByte (oneByte remap.srcElementSize (i * remap.componentSize) byte) (oneByte remap.dstElementSize 0 0)
          (i * remap.componentSize) := by
        rw [← hposition, remappedByte_component hi hsize, hzero, hposition]
    _ = out.byte (i * remap.componentSize) := by
        rw [hremapped.given _ (by rw [← hdest, ← hremapped.size]; exact hin)]
    _ = byte := by
        rw [hcopy _ hin]
        exact if_pos rfl

/-- A copy needs each component to be selected by itself: a constant cannot be two different bytes, and what is not written is
not 1. -/
theorem dstComponent_of_copiesBytes (h : remap.CopiesBytes) (hi : i < remap.numDst) : remap.dstComponent i = .ofBits i := by
  have hone := componentByte_of_copiesBytes h hi 1
  have htwo := componentByte_of_copiesBytes h hi 2
  unfold componentByte at hone htwo
  cases hsel : (remap.dstComponent i).source with
  | some source =>
    simp only [hsel] at hone
    by_cases hlt : source < remap.numSrc
    · rw [if_pos hlt, Nat.zero_mul, Nat.zero_add, Nat.add_zero] at hone
      have hposition : source * remap.componentSize = i * remap.componentSize := by
        by_contra hne
        have hzero : (oneByte remap.srcElementSize (i * remap.componentSize) 1).byte (source * remap.componentSize) = 0 :=
          if_neg hne
        rw [hzero] at hone
        exact absurd hone (by decide)
      obtain rfl := Nat.eq_of_mul_eq_mul_right remap.componentSize_pos hposition
      exact source_eq_some hsel
    · rw [if_neg hlt] at hone
      exact absurd hone (by decide)
  | none =>
    simp only [hsel] at hone htwo
    rw [hone] at htwo
    exact absurd htwo (by decide)

theorem numSrc_of_copiesBytes (h : remap.CopiesBytes) : remap.numSrc = remap.numDst := by
  obtain ⟨out, hout, hsame, -⟩ := h 1 (oneByte (1 * remap.srcElementSize) 0 0) (oneByte (1 * remap.dstElementSize) 0 0) rfl rfl
  have hle : 1 * remap.srcElementSize ≤ (oneByte (1 * remap.srcElementSize) 0 0).size := le_rfl
  have hle' : 1 * remap.dstElementSize ≤ (oneByte (1 * remap.dstElementSize) 0 0).size := le_rfl
  obtain ⟨out', hout', hremapped⟩ := remapElements_remapped remap hle hle'
  obtain rfl : out = out' := Except.ok.inj (hout.symm.trans hout')
  have hsizes : 1 * remap.dstElementSize = 1 * remap.srcElementSize := hremapped.size.symm.trans hsame
  rw [Nat.one_mul, Nat.one_mul] at hsizes
  exact (Nat.eq_of_mul_eq_mul_right remap.componentSize_pos hsizes).symm

theorem isPlainCopy_iff_copiesBytes (remap : RemapConst) : remap.isPlainCopy = true ↔ remap.CopiesBytes :=
  ⟨copiesBytes_of_isPlainCopy, fun h =>
    isPlainCopy_iff.mpr ⟨numSrc_of_copiesBytes h, fun _ hi => dstComponent_of_copiesBytes h hi⟩⟩

/-! ### The fill -/

/-- The first words have been given the bytes of the constant. -/
theorem fillWords_gives (value : BitVec 32) {words : ℕ} (h : words * 4 ≤ dst.size) :
    ∃ out, fillWords value words dst = .ok out ∧ Gives dst out (· < words * 4) fun p => constantByte value (p % 4) := by
  induction words with
  | zero => exact ⟨dst, rfl, rfl, fun p hp => absurd hp (Nat.not_lt_zero p), fun _ _ => rfl⟩
  | succ words ih =>
    obtain ⟨middle, hmiddle, hgiven⟩ := ih (by omega)
    have hfits : words * 4 + 4 ≤ middle.size := by
      rw [hgiven.size]
      omega
    obtain ⟨out, hout, hgives⟩ := write_gives (constantByte value) hfits
    refine ⟨out, ?_, hgives.size.trans hgiven.size, ?_, ?_⟩
    · rw [fillWords, hmiddle]
      exact hout
    · intro p hp
      rcases Nat.lt_or_ge p (words * 4) with hlow | hhigh
      · rw [hgives.kept p fun hin => Nat.not_lt_of_le hin.1 hlow]
        exact hgiven.given p hlow
      · rw [hgives.given p ⟨hhigh, by omega⟩]
        congr 1
        omega
    · intro p hp
      rw [hgives.kept p fun hin => hp (by omega), hgiven.kept p fun hlt => hp (by omega)]

theorem writeBlock_congr {memory : GuestMemory} {address : ℕ} {buffer buffer' : Buffer} (hsize : buffer.size = buffer'.size)
    (hbyte : ∀ p < buffer'.size, buffer.byte p = buffer'.byte p) :
    writeBlock memory address buffer = writeBlock memory address buffer' := by
  funext a
  unfold writeBlock
  rw [hsize]
  by_cases ha : address ≤ a ∧ a < address + buffer'.size
  · rw [if_pos ha, if_pos ha, hbyte _ (by omega)]
  · rw [if_neg ha, if_neg ha]

/-- The fill writes what the remap would write. -/
theorem copyRemapped_eq_copyElements (remap : RemapConst) (stale : ℕ → UInt8) (memory : GuestMemory) (src dst count : ℕ) :
    remap.copyRemapped stale memory src dst count = remap.copyElements memory src dst count := by
  unfold copyRemapped
  by_cases hfills : remap.fillsConstant = true
  · rw [if_pos hfills]
    simp only [fillsConstant, Bool.and_eq_true, beq_iff_eq] at hfills
    obtain ⟨⟨hconst, hnum⟩, hsize⟩ := hfills
    have hstride : remap.dstElementSize = 4 := by rw [dstElementSize, hnum, hsize]
    have hwords : (count * remap.dstElementSize + 3) / 4 = count := by
      rw [hstride]
      omega
    have hroom : count * 4 ≤ (⟨count * remap.dstElementSize, stale⟩ : Buffer).size := by rw [hstride]
    obtain ⟨filled, hfilled, hgiven⟩ := fillWords_gives remap.remapConstaValue hroom
    have hsource : count * remap.srcElementSize ≤ (readBlock memory src (count * remap.srcElementSize)).size := le_rfl
    have hdest : count * remap.dstElementSize ≤ (readBlock memory dst (count * remap.dstElementSize)).size := le_rfl
    obtain ⟨out, hout, hremapped⟩ := remapElements_remapped remap hsource hdest
    have hsame : writeBlock memory dst filled = writeBlock memory dst out := by
      apply writeBlock_congr (hgiven.size.trans hremapped.size.symm)
      intro p hp
      rw [hremapped.size] at hp
      have hp4 : p < count * 4 := by rwa [← hstride]
      have hindex : p / remap.componentSize % remap.numDst = 0 := by rw [hnum, Nat.mod_one]
      rw [hgiven.given p hp4, hremapped.given p hp, remappedByte, hindex, componentByte, hconst, hsize]
      rfl
    rw [copyElements, hout]
    dsimp only
    rw [hwords, hfilled]
    exact congrArg Except.ok hsame
  · rw [if_neg hfills]

/-- **The remap writes each component what it selects and no other byte, is known for a plain copy exactly when it is one, and
fills with constants as it remaps.** -/
theorem remap_correct (remap : RemapConst) :
    (∀ count src dst, count * remap.srcElementSize ≤ src.size → count * remap.dstElementSize ≤ dst.size →
      ∃ out, remap.remapElements src count dst = .ok out ∧ out.size = dst.size ∧
        (∀ element < count, ∀ i < remap.numDst, ∀ b < remap.componentSize,
          out.byte (element * remap.dstElementSize + i * remap.componentSize + b) =
            remap.componentByte src element i b
              (dst.byte (element * remap.dstElementSize + i * remap.componentSize + b))) ∧
        ∀ p, count * remap.dstElementSize ≤ p → out.byte p = dst.byte p) ∧
      (remap.isPlainCopy = true ↔ remap.CopiesBytes) ∧
      ∀ stale memory src dst count,
        remap.copyRemapped stale memory src dst count = remap.copyElements memory src dst count := by
  refine ⟨?_, isPlainCopy_iff_copiesBytes remap, copyRemapped_eq_copyElements remap⟩
  intro count src dst hsource hdest
  obtain ⟨out, hout, hremapped⟩ := remapElements_remapped remap hsource hdest
  refine ⟨out, hout, hremapped.size, ?_, fun p hp => hremapped.kept p (Nat.not_lt_of_le hp)⟩
  intro element helement i hi b hb
  have hin : element * remap.dstElementSize + i * remap.componentSize + b < count * remap.dstElementSize := by
    have hcomponent : (i + 1) * remap.componentSize ≤ remap.dstElementSize := Nat.mul_le_mul_right _ hi
    have helements : (element + 1) * remap.dstElementSize ≤ count * remap.dstElementSize := Nat.mul_le_mul_right _ helement
    rw [Nat.succ_mul] at hcomponent helements
    omega
  rw [hremapped.given _ hin, remappedByte_component hi hb]

end RemapConst
end MaxwellDMA
end Tegra
end Citron
