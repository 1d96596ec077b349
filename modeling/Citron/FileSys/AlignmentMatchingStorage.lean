/-
# Reading and writing a storage in blocks

`AlignmentMatchingStorageImpl` reads and writes any range of a storage that is accessed in blocks of a data alignment. The
core of the range goes straight to or from the caller's buffer, the rest block by block over a work buffer. Whether the
buffer is aligned or not, reading gives the bytes of the range (`read_bytes`) and writing changes these bytes of the storage
and no others (`write_bytes`).
-/
import Citron.Common.Alignment
import Citron.Lib.Copies

namespace Citron
namespace FileSys
namespace AlignmentMatchingStorage

open Common Lib

/-! ### The storage below -/

structure BaseStorage where
  size : ℕ
  bytes : ℕ → UInt8

/-- `Read(out + dst, length, offset)`, which stops at the end of the storage. -/
def BaseStorage.read (base : BaseStorage) (length offset dst : ℕ) (out : ℕ → UInt8) : ℕ → UInt8 :=
  copyBytes (min length (base.size - offset)) dst offset base.bytes out

/-- `Write(data + src, length, offset)`. -/
def BaseStorage.write (base : BaseStorage) (length offset src : ℕ) (data : ℕ → UInt8) : BaseStorage :=
  { base with bytes := copyBytes (min length (base.size - offset)) offset src data base.bytes }

/-! ### The extents -/

def isAligned (value alignment : ℕ) : Bool := value &&& (alignment - 1) = 0

def getRoundDownDifference (x align : ℕ) : ℕ := x - alignDown x align

def getRoundUpDifference (x align : ℕ) : ℕ := alignUp x align - x

/-- The core buffer is given by its place in the caller's buffer. -/
structure Extents where
  alignedCoreBuffer : ℕ
  coreOffset : ℕ
  coreSize : ℕ
  bufferGap : ℕ
  offsetGap : ℕ
  coveredOffset : ℕ

/-- Whole blocks of what a buffer has from a place on. -/
def coreSizeFrom (size difference dataAlignment : ℕ) : ℕ :=
  if size < difference then 0 else alignDown (size - difference) dataAlignment

/-- The core goes to the buffer at its place. -/
def alignedExtents (dataAlignment offset size : ℕ) : Extents :=
  let offsetRoundUpDifference := getRoundUpDifference offset dataAlignment
  let coreOffset := alignUp offset dataAlignment
  let coreSize := coreSizeFrom size offsetRoundUpDifference dataAlignment
  { alignedCoreBuffer := offsetRoundUpDifference
    coreOffset := coreOffset
    coreSize := coreSize
    bufferGap := 0
    offsetGap := 0
    coveredOffset := if coreSize > 0 then coreOffset else offset }

/-- `buffer` is the address of the caller's buffer. -/
def readExtents (dataAlignment bufferAlignment offset buffer size : ℕ) : Extents :=
  if isAligned (buffer + getRoundUpDifference offset dataAlignment) bufferAlignment then
    alignedExtents dataAlignment offset size
  else
    let bufferRoundUpDifference := getRoundUpDifference buffer bufferAlignment
    { alignedCoreBuffer := bufferRoundUpDifference
      coreOffset := alignDown offset dataAlignment
      coreSize := coreSizeFrom size bufferRoundUpDifference dataAlignment
      bufferGap := bufferRoundUpDifference
      offsetGap := getRoundDownDifference offset dataAlignment
      coveredOffset := offset }

def writeExtents (dataAlignment bufferAlignment offset buffer size : ℕ) : Extents :=
  if isAligned (buffer + getRoundUpDifference offset dataAlignment) bufferAlignment then
    alignedExtents dataAlignment offset size
  else
    { alignedCoreBuffer := 0
      coreOffset := alignDown offset dataAlignment
      coreSize := 0
      bufferGap := 0
      offsetGap := 0
      coveredOffset := offset }

/-! ### Reading -/

/-- The caller's buffer and the work buffer. -/
structure Buffers where
  out : ℕ → UInt8
  workBuf : ℕ → UInt8

/-- The core portion, and how much of it is in place. -/
def readCore (base : BaseStorage) (extents : Extents) (buffers : Buffers) : ℕ × Buffers :=
  if extents.coreSize > 0 then
    let out := base.read extents.coreSize extents.coreOffset extents.alignedCoreBuffer buffers.out
    if extents.offsetGap ≠ 0 ∨ extents.bufferGap ≠ 0 then
      (extents.coreSize - extents.offsetGap,
        { buffers with
          out := copyBytes (extents.coreSize - extents.offsetGap) (extents.alignedCoreBuffer - extents.bufferGap)
            (extents.alignedCoreBuffer + extents.offsetGap) out out })
    else (extents.coreSize, { buffers with out := out })
  else (extents.coreSize, buffers)

def readHead (base : BaseStorage) (dataAlignment offset coveredOffset : ℕ) (buffers : Buffers) : Buffers :=
  if offset < coveredOffset then
    let headOffset := alignDown offset dataAlignment
    let headSize := coveredOffset - offset
    let workBuf := base.read dataAlignment headOffset 0 buffers.workBuf
    { out := copyBytes headSize 0 (getRoundDownDifference offset dataAlignment) workBuf buffers.out
      workBuf := workBuf }
  else buffers

/-- Each round reads a byte or more, so that there are not more rounds than bytes left. -/
def readTail (base : BaseStorage) (dataAlignment offset : ℕ) : (rounds tailOffset remainingTailSize : ℕ) →
    Buffers → Buffers
  | 0, _, _, buffers => buffers
  | rounds + 1, tailOffset, remainingTailSize, buffers =>
    if remainingTailSize > 0 then
      let alignedTailOffset := alignDown tailOffset dataAlignment
      let curSize := min (alignedTailOffset + dataAlignment - tailOffset) remainingTailSize
      let workBuf := base.read dataAlignment alignedTailOffset 0 buffers.workBuf
      readTail base dataAlignment offset rounds (tailOffset + curSize) (remainingTailSize - curSize)
        { out := copyBytes curSize (tailOffset - offset) (tailOffset - alignedTailOffset) workBuf buffers.out
          workBuf := workBuf }
    else buffers

def read (base : BaseStorage) (dataAlignment bufferAlignment offset buffer size : ℕ) (buffers : Buffers) :
    ℕ × Buffers :=
  if size = 0 then (size, buffers)
  else
    let extents := readExtents dataAlignment bufferAlignment offset buffer size
    let (coreSize, buffers) := readCore base extents buffers
    let buffers := readHead base dataAlignment offset extents.coveredOffset buffers
    let tailOffset := extents.coveredOffset + coreSize
    let remainingTailSize := offset + size - tailOffset
    (size, readTail base dataAlignment offset remainingTailSize tailOffset remainingTailSize buffers)

/-! ### Writing -/

def writeCore (base : BaseStorage) (extents : Extents) (buffer : ℕ → UInt8) : BaseStorage :=
  if extents.coreSize > 0 then base.write extents.coreSize extents.coreOffset extents.alignedCoreBuffer buffer
  else base

/-- A block is read, changed in the work buffer and written back. -/
def writeHead (base : BaseStorage) (dataAlignment offset coveredOffset : ℕ) (buffer workBuf : ℕ → UInt8) :
    BaseStorage × (ℕ → UInt8) :=
  if offset < coveredOffset then
    let headOffset := alignDown offset dataAlignment
    let headSize := coveredOffset - offset
    let workBuf := base.read dataAlignment headOffset 0 workBuf
    let workBuf := copyBytes headSize (offset - headOffset) 0 buffer workBuf
    (base.write dataAlignment headOffset 0 workBuf, workBuf)
  else (base, workBuf)

def writeTail (dataAlignment offset : ℕ) (buffer : ℕ → UInt8) : (rounds tailOffset remainingTailSize : ℕ) →
    BaseStorage × (ℕ → UInt8) → BaseStorage × (ℕ → UInt8)
  | 0, _, _, state => state
  | rounds + 1, tailOffset, remainingTailSize, (base, workBuf) =>
    if remainingTailSize > 0 then
      let alignedTailOffset := alignDown tailOffset dataAlignment
      let curSize := min (alignedTailOffset + dataAlignment - tailOffset) remainingTailSize
      let workBuf := base.read dataAlignment alignedTailOffset 0 workBuf
      let workBuf :=
        copyBytes curSize (getRoundDownDifference tailOffset dataAlignment) (tailOffset - offset) buffer workBuf
      writeTail dataAlignment offset buffer rounds (tailOffset + curSize) (remainingTailSize - curSize)
        (base.write dataAlignment alignedTailOffset 0 workBuf, workBuf)
    else (base, workBuf)

/-- `address` is where the caller's buffer lies. -/
def write (base : BaseStorage) (dataAlignment bufferAlignment offset address size : ℕ) (buffer workBuf : ℕ → UInt8) :
    ℕ × BaseStorage × (ℕ → UInt8) :=
  if size = 0 then (size, base, workBuf)
  else
    let extents := writeExtents dataAlignment bufferAlignment offset address size
    let base := writeCore base extents buffer
    let state := writeHead base dataAlignment offset extents.coveredOffset buffer workBuf
    let tailOffset := extents.coveredOffset + extents.coreSize
    let remainingTailSize := offset + size - tailOffset
    (size, writeTail dataAlignment offset buffer remainingTailSize tailOffset remainingTailSize state)

/-! ### Extents that cover -/

section Extents

variable {dataAlignment bufferAlignment offset buffer size : ℕ}

/-- What the extents say of a range: the core, moved by its gaps, goes to its place in the buffer, and what is before it
lies in the first block. -/
structure Extents.Covers (extents : Extents) (dataAlignment offset size : ℕ) : Prop where
  offset_le : offset ≤ extents.coveredOffset
  le_block : extents.coveredOffset ≤ alignDown offset dataAlignment + dataAlignment
  empty : extents.coreSize = 0 → extents.coveredOffset = offset
  source : 0 < extents.coreSize → extents.coreOffset + extents.offsetGap = extents.coveredOffset
  target : 0 < extents.coreSize → offset + extents.alignedCoreBuffer = extents.coveredOffset + extents.bufferGap
  fits : 0 < extents.coreSize → extents.alignedCoreBuffer + extents.coreSize ≤ size
  inside : 0 < extents.coreSize → extents.coreOffset + extents.coreSize ≤ offset + size
  gap_le : 0 < extents.coreSize → extents.offsetGap ≤ extents.coreSize

theorem add_roundUp (offset : ℕ) (hd : 0 < dataAlignment) :
    offset + getRoundUpDifference offset dataAlignment = alignUp offset dataAlignment := by
  have : offset ≤ alignUp offset dataAlignment := le_alignUp hd
  unfold getRoundUpDifference
  omega

theorem roundDown_add (offset dataAlignment : ℕ) :
    alignDown offset dataAlignment + getRoundDownDifference offset dataAlignment = offset := by
  have := alignDown_le offset dataAlignment
  unfold getRoundDownDifference
  omega

/-- The aligned place above an offset is in its block or at its end. -/
theorem alignUp_le_block (offset : ℕ) (hd : 0 < dataAlignment) :
    alignUp offset dataAlignment ≤ alignDown offset dataAlignment + dataAlignment :=
  alignUp_le (Nat.dvd_add (dvd_alignDown ..) (Nat.dvd_refl _)) (lt_alignDown_add hd).le

/-- A core that is not empty fits behind its place, and has a block. -/
theorem coreSizeFrom_cases (size difference dataAlignment : ℕ) :
    coreSizeFrom size difference dataAlignment = 0 ∨
      (difference + coreSizeFrom size difference dataAlignment ≤ size ∧
        dataAlignment ≤ coreSizeFrom size difference dataAlignment) := by
  have hle := alignDown_le (size - difference) dataAlignment
  unfold coreSizeFrom
  split_ifs with h
  · exact Or.inl rfl
  · rcases Nat.eq_zero_or_pos (alignDown (size - difference) dataAlignment) with hzero | hpos
    · exact Or.inl hzero
    · exact Or.inr ⟨by omega, Nat.le_of_dvd hpos (dvd_alignDown ..)⟩

theorem covers_aligned (hd : 0 < dataAlignment) :
    (alignedExtents dataAlignment offset size).Covers dataAlignment offset size := by
  have hup := add_roundUp offset hd
  have hblock := alignUp_le_block offset hd
  have hcore := coreSizeFrom_cases size (getRoundUpDifference offset dataAlignment) dataAlignment
  unfold alignedExtents
  simp only
  generalize coreSizeFrom size (getRoundUpDifference offset dataAlignment) dataAlignment = coreSize at hcore ⊢
  rcases Nat.eq_zero_or_pos coreSize with rfl | hpos
  · rw [if_neg (lt_irrefl 0)]
    constructor <;> simp only [implies_true] <;> omega
  · rw [if_pos hpos]
    constructor <;> simp only <;> omega

theorem covers_readExtents (hd : 0 < dataAlignment) :
    (readExtents dataAlignment bufferAlignment offset buffer size).Covers dataAlignment offset size := by
  unfold readExtents
  split_ifs with haligned
  · exact covers_aligned hd
  · have hlt : offset < alignDown offset dataAlignment + dataAlignment := lt_alignDown_add hd
    have hdown := roundDown_add offset dataAlignment
    have hcore := coreSizeFrom_cases size (getRoundUpDifference buffer bufferAlignment) dataAlignment
    constructor <;> simp only [implies_true] <;> omega

theorem covers_writeExtents (hd : 0 < dataAlignment) :
    (writeExtents dataAlignment bufferAlignment offset buffer size).Covers dataAlignment offset size := by
  unfold writeExtents
  split_ifs with haligned
  · exact covers_aligned hd
  · have hlt : offset < alignDown offset dataAlignment + dataAlignment := lt_alignDown_add hd
    constructor <;> simp only [implies_true] <;> omega

theorem writeExtents_gaps : (writeExtents dataAlignment bufferAlignment offset buffer size).bufferGap = 0 ∧
    (writeExtents dataAlignment bufferAlignment offset buffer size).offsetGap = 0 := by
  unfold writeExtents alignedExtents
  split_ifs <;> exact ⟨rfl, rfl⟩

end Extents

/-! ### What is read -/

section Read

variable {base : BaseStorage} {dataAlignment bufferAlignment offset address size : ℕ} {buffer out : ℕ → UInt8}
  {done : ℕ → Prop}

/-- Some places of the buffer have their bytes of the range, and nothing is written past it. -/
structure Filled (base : BaseStorage) (offset size : ℕ) (buffer : ℕ → UInt8) (done : ℕ → Prop) (out : ℕ → UInt8) :
    Prop where
  bytes : ∀ a < size, done a → out a = base.bytes (offset + a)
  rest : ∀ a, size ≤ a → out a = buffer a

theorem Filled.mono {done' : ℕ → Prop} (h : Filled base offset size buffer done out)
    (hle : ∀ a < size, done' a → done a) : Filled base offset size buffer done' out :=
  ⟨fun a ha hdone => h.bytes a ha (hle a ha hdone), h.rest⟩

/-- A copy of the right bytes adds its places. -/
theorem Filled.copy (h : Filled base offset size buffer done out) (n dst src : ℕ) (input : ℕ → UInt8)
    (hfits : dst + n ≤ size) (hinput : ∀ b < n, input (src + b) = base.bytes (offset + (dst + b))) :
    Filled base offset size buffer (fun a => done a ∨ dst ≤ a ∧ a < dst + n) (copyBytes n dst src input out) := by
  refine ⟨fun a ha hdone => ?_, fun a ha => ?_⟩
  · rw [copyBytes]
    split_ifs with hin
    · rw [hinput _ (by omega)]
      congr 1
      omega
    · exact h.bytes a ha (hdone.resolve_right hin)
  · rw [copyBytes, if_neg (by omega)]
    exact h.rest a ha

/-- A read inside the storage copies its bytes. -/
theorem read_inside {length at' dst : ℕ} (h : at' + length ≤ base.size) (out : ℕ → UInt8) :
    base.read length at' dst out = copyBytes length dst at' base.bytes out := by
  rw [BaseStorage.read, min_eq_left (by omega)]

/-- The block of a place in the storage lies in the storage. -/
theorem block_le (hd : 0 < dataAlignment) (hsize : dataAlignment ∣ base.size) {x : ℕ} (hx : x < base.size) :
    alignDown x dataAlignment + dataAlignment ≤ base.size := by
  obtain ⟨k, hk⟩ := hsize
  rw [alignDown_eq, ← Nat.succ_mul, hk, Nat.mul_comm]
  refine Nat.mul_le_mul_left _ ?_
  rw [Nat.succ_le_iff, Nat.div_lt_iff_lt_mul hd, Nat.mul_comm, ← hk]
  exact hx

/-- A block in the work buffer. -/
theorem read_block (hd : 0 < dataAlignment) (hsize : dataAlignment ∣ base.size) {x b : ℕ} (hx : x < base.size)
    (hb : b < dataAlignment) (workBuf : ℕ → UInt8) :
    base.read dataAlignment (alignDown x dataAlignment) 0 workBuf b = base.bytes (alignDown x dataAlignment + b) := by
  rw [read_inside (block_le hd hsize hx), copyBytes, if_pos ⟨Nat.zero_le b, by omega⟩, Nat.sub_zero]

theorem readCore_filled {extents : Extents} (hcovers : extents.Covers dataAlignment offset size)
    (hrange : offset + size ≤ base.size) (buffers : Buffers) :
    Filled base offset size buffers.out
      (fun a => extents.coveredOffset - offset ≤ a ∧
        a < extents.coveredOffset - offset + (readCore base extents buffers).1)
      (readCore base extents buffers).2.out := by
  obtain ⟨_, _, _, hsource, htarget, hfits, hinside, hgap⟩ := hcovers
  have hstart : Filled base offset size buffers.out (fun _ => False) buffers.out :=
    ⟨fun _ _ h => h.elim, fun _ _ => rfl⟩
  unfold readCore
  split_ifs with hpos hmove
  · have hread : base.read extents.coreSize extents.coreOffset extents.alignedCoreBuffer buffers.out =
        copyBytes extents.coreSize extents.alignedCoreBuffer extents.coreOffset base.bytes buffers.out :=
      read_inside (by omega) _
    have hrest : Filled base offset size buffers.out (fun _ => False)
        (base.read extents.coreSize extents.coreOffset extents.alignedCoreBuffer buffers.out) := by
      refine ⟨fun _ _ h => h.elim, fun a ha => ?_⟩
      rw [hread, copyBytes, if_neg (by omega)]
    have hmoved := hrest.copy (extents.coreSize - extents.offsetGap) (extents.alignedCoreBuffer - extents.bufferGap)
      (extents.alignedCoreBuffer + extents.offsetGap)
      (base.read extents.coreSize extents.coreOffset extents.alignedCoreBuffer buffers.out)
      (by have := hfits hpos; omega) (by
        intro b hb
        rw [hread, copyBytes, if_pos (by omega)]
        congr 1
        omega)
    refine hmoved.mono fun a ha hdone => Or.inr ?_
    have := htarget hpos
    simp only at hdone
    omega
  · have hread : base.read extents.coreSize extents.coreOffset extents.alignedCoreBuffer buffers.out =
        copyBytes extents.coreSize extents.alignedCoreBuffer extents.coreOffset base.bytes buffers.out :=
      read_inside (by have := hinside hpos; omega) _
    have hcopied := hstart.copy extents.coreSize extents.alignedCoreBuffer extents.coreOffset base.bytes (hfits hpos)
      (by
        intro b hb
        have := hsource hpos
        congr 1
        omega)
    rw [← hread] at hcopied
    refine hcopied.mono fun a ha hdone => Or.inr ?_
    have := htarget hpos
    simp only at hdone
    omega
  · refine hstart.mono fun a ha hdone => ?_
    omega

theorem readTail_filled (hd : 0 < dataAlignment) (hsize : dataAlignment ∣ base.size) (hrange : offset + size ≤ base.size) :
    ∀ (rounds tailOffset remaining : ℕ) (buffers : Buffers), remaining ≤ rounds → offset ≤ tailOffset →
      tailOffset + remaining = offset + size →
      Filled base offset size buffer (fun a => a < tailOffset - offset) buffers.out →
      Filled base offset size buffer (fun _ => True)
        (readTail base dataAlignment offset rounds tailOffset remaining buffers).out
  | 0, tailOffset, remaining, buffers, hrounds, hoffset, hend, h => h.mono fun a ha _ => by omega
  | rounds + 1, tailOffset, remaining, buffers, hrounds, hoffset, hend, h => by
    rw [readTail]
    split_ifs with hpos
    · have hlt : tailOffset < alignDown tailOffset dataAlignment + dataAlignment := lt_alignDown_add hd
      have hle := alignDown_le tailOffset dataAlignment
      simp only
      generalize hcur : min (alignDown tailOffset dataAlignment + dataAlignment - tailOffset) remaining = curSize
      have hcopy := h.copy curSize (tailOffset - offset) (tailOffset - alignDown tailOffset dataAlignment)
        (base.read dataAlignment (alignDown tailOffset dataAlignment) 0 buffers.workBuf) (by omega) (by
          intro b hb
          rw [read_block hd hsize (by omega) (by omega)]
          congr 1
          omega)
      exact readTail_filled hd hsize hrange rounds _ _ _ (by omega) (by omega) (by omega)
        (hcopy.mono fun a _ ha => by omega)
    · exact h.mono fun a ha _ => by omega

/-- The core ends inside the range. -/
theorem readCore_end {extents : Extents} (hcovers : extents.Covers dataAlignment offset size) (base : BaseStorage)
    (buffers : Buffers) :
    extents.coveredOffset + (readCore base extents buffers).1 ≤ offset + size := by
  obtain ⟨hoffset, _, hempty, hsource, _, _, hinside, hgap⟩ := hcovers
  unfold readCore
  split_ifs with hpos hmove
  · simp only
    omega
  · have := hsource hpos
    simp only
    omega
  · omega

/-- The head fills what is before the core. -/
theorem readHead_filled {coveredOffset coreSize : ℕ} {buffers : Buffers} (hd : 0 < dataAlignment)
    (hsize : dataAlignment ∣ base.size) (hrange : offset + size ≤ base.size) (hpos : 0 < size)
    (hblock : coveredOffset ≤ alignDown offset dataAlignment + dataAlignment) (hend : coveredOffset ≤ offset + size)
    (h : Filled base offset size buffer (fun a => coveredOffset - offset ≤ a ∧ a < coveredOffset - offset + coreSize)
      buffers.out) :
    Filled base offset size buffer (fun a => a < coveredOffset - offset + coreSize)
      (readHead base dataAlignment offset coveredOffset buffers).out := by
  unfold readHead
  split_ifs with hlt
  · have hdown := roundDown_add offset dataAlignment
    have hcopy := h.copy (coveredOffset - offset) 0 (getRoundDownDifference offset dataAlignment)
      (base.read dataAlignment (alignDown offset dataAlignment) 0 buffers.workBuf) (by omega) (by
        intro b hb
        rw [read_block hd hsize (by omega) (by omega)]
        congr 1
        omega)
    exact hcopy.mono fun a _ ha => by omega
  · exact h.mono fun a _ ha => by omega

/-- **Reading gives the bytes of the range**, whatever the alignments of the storage and of the buffer are, and nothing
is written past the end of the buffer. -/
theorem read_bytes (hd : 0 < dataAlignment) (hsize : dataAlignment ∣ base.size) (hrange : offset + size ≤ base.size)
    (buffers : Buffers) :
    (read base dataAlignment bufferAlignment offset address size buffers).1 = size ∧
      (∀ i < size, (read base dataAlignment bufferAlignment offset address size buffers).2.out i =
        base.bytes (offset + i)) ∧
      ∀ i, size ≤ i →
        (read base dataAlignment bufferAlignment offset address size buffers).2.out i = buffers.out i := by
  unfold read
  split_ifs with hzero
  · exact ⟨rfl, fun i hi => by omega, fun _ _ => rfl⟩
  · have hcovers : (readExtents dataAlignment bufferAlignment offset address size).Covers dataAlignment offset size :=
      covers_readExtents hd
    simp only
    generalize readExtents dataAlignment bufferAlignment offset address size = extents at hcovers ⊢
    have hcore := readCore_filled hcovers hrange buffers
    have hend := readCore_end hcovers base buffers
    have hoffset := hcovers.offset_le
    generalize readCore base extents buffers = core at hcore hend ⊢
    have hhead := readHead_filled hd hsize hrange (by omega) hcovers.le_block (by omega) hcore
    have htail := readTail_filled hd hsize hrange _ (extents.coveredOffset + core.1)
      (offset + size - (extents.coveredOffset + core.1)) _ le_rfl (by omega) (by omega)
      (hhead.mono fun a _ ha => by omega)
    exact ⟨trivial, fun i hi => htail.bytes i hi trivial, htail.rest⟩

end Read

/-! ### What is written -/

section Write

variable {start base : BaseStorage} {dataAlignment bufferAlignment offset address size : ℕ} {buffer : ℕ → UInt8}
  {done : ℕ → Prop}

/-- Some places of the range have the buffer's bytes, and all other places of the storage are as before. -/
structure Written (start : BaseStorage) (offset : ℕ) (buffer : ℕ → UInt8) (done : ℕ → Prop) (base : BaseStorage) :
    Prop where
  size_eq : base.size = start.size
  bytes : ∀ a, done a → base.bytes a = buffer (a - offset)
  rest : ∀ a, ¬ done a → base.bytes a = start.bytes a

theorem Written.congr {done' : ℕ → Prop} (h : Written start offset buffer done base) (hiff : ∀ a, done' a ↔ done a) :
    Written start offset buffer done' base :=
  ⟨h.size_eq, fun a ha => h.bytes a ((hiff a).mp ha), fun a ha => h.rest a (fun hdone => ha ((hiff a).mpr hdone))⟩

/-- Replacing a piece of the storage by the buffer's bytes adds its places. -/
theorem Written.splice {base' : BaseStorage} {x n : ℕ} (h : Written start offset buffer done base)
    (hbytes : ∀ a, base'.bytes a = if x ≤ a ∧ a < x + n then buffer (a - offset) else base.bytes a)
    (hsize : base'.size = base.size) :
    Written start offset buffer (fun a => done a ∨ x ≤ a ∧ a < x + n) base' := by
  refine ⟨hsize.trans h.size_eq, fun a ha => ?_, fun a ha => ?_⟩
  · rw [hbytes]
    split_ifs with hin
    · rfl
    · exact h.bytes a (ha.resolve_right hin)
  · rw [hbytes, if_neg fun hin => ha (Or.inr hin)]
    exact h.rest a fun hdone => ha (Or.inl hdone)

/-- A block read, changed from one place on and written back is the storage changed there. -/
theorem rewrite_block (hd : 0 < dataAlignment) (hsize : dataAlignment ∣ base.size) (x n : ℕ) (hx : x < base.size)
    (hn : x + n ≤ alignDown x dataAlignment + dataAlignment) (hoffset : offset ≤ x) (buffer workBuf : ℕ → UInt8)
    (a : ℕ) :
    (base.write dataAlignment (alignDown x dataAlignment) 0
      (copyBytes n (x - alignDown x dataAlignment) (x - offset) buffer
        (base.read dataAlignment (alignDown x dataAlignment) 0 workBuf))).bytes a =
      if x ≤ a ∧ a < x + n then buffer (a - offset) else base.bytes a := by
  have hblock := block_le hd hsize hx
  have hle := alignDown_le x dataAlignment
  rw [BaseStorage.write, min_eq_left (by omega)]
  simp only
  rw [copyBytes]
  split_ifs with hin hpiece
  · rw [copyBytes, if_pos (by omega)]
    congr 1
    omega
  · rw [copyBytes, if_neg (by omega), Nat.zero_add, read_block hd hsize hx (by omega)]
    congr 1
    omega
  · omega
  · rfl

theorem writeTail_written (hd : 0 < dataAlignment) (hsize : dataAlignment ∣ start.size)
    (hrange : offset + size ≤ start.size) : ∀ (rounds tailOffset remaining : ℕ) (state : BaseStorage × (ℕ → UInt8)),
      remaining ≤ rounds → offset ≤ tailOffset → tailOffset + remaining = offset + size →
      Written start offset buffer (fun a => offset ≤ a ∧ a < tailOffset) state.1 →
      Written start offset buffer (fun a => offset ≤ a ∧ a < offset + size)
        (writeTail dataAlignment offset buffer rounds tailOffset remaining state).1
  | 0, tailOffset, remaining, state, hrounds, hoffset, hend, h => h.congr fun a => by omega
  | rounds + 1, tailOffset, remaining, (base, workBuf), hrounds, hoffset, hend, h => by
    rw [writeTail]
    split_ifs with hpos
    · have hlt : tailOffset < alignDown tailOffset dataAlignment + dataAlignment := lt_alignDown_add hd
      have hbase : base.size = start.size := h.size_eq
      simp only
      generalize hcur : min (alignDown tailOffset dataAlignment + dataAlignment - tailOffset) remaining = curSize
      have hblock := rewrite_block hd (by rw [hbase]; exact hsize) tailOffset curSize (by omega) (by omega) hoffset
        buffer workBuf
      refine writeTail_written hd hsize hrange rounds _ _ _ (by omega) (by omega) (by omega) ?_
      exact (h.splice hblock rfl).congr fun a => by omega
    · exact h.congr fun a => by omega

section

variable {extents : Extents} (hcovers : extents.Covers dataAlignment offset size)
  (hgaps : extents.bufferGap = 0 ∧ extents.offsetGap = 0)
include hcovers hgaps

theorem writeCore_written (hrange : offset + size ≤ start.size) (buffer : ℕ → UInt8) :
    Written start offset buffer
      (fun a => extents.coveredOffset ≤ a ∧ a < extents.coveredOffset + extents.coreSize)
      (writeCore start extents buffer) := by
  obtain ⟨_, _, _, hsource, htarget, _, hinside, _⟩ := hcovers
  have hstart : Written start offset buffer (fun _ => False) start := ⟨rfl, fun _ h => h.elim, fun _ _ => rfl⟩
  unfold writeCore
  split_ifs with hpos
  · have hcore : ∀ a, (start.write extents.coreSize extents.coreOffset extents.alignedCoreBuffer buffer).bytes a =
        if extents.coreOffset ≤ a ∧ a < extents.coreOffset + extents.coreSize then buffer (a - offset)
        else start.bytes a := by
      intro a
      rw [BaseStorage.write, min_eq_left (by omega)]
      simp only
      rw [copyBytes]
      split_ifs with hin
      · congr 1
        omega
      · rfl
    refine (hstart.splice hcore rfl).congr fun a => ?_
    rw [false_or]
    omega
  · refine hstart.congr fun a => ?_
    rw [iff_false]
    omega

/-- The core ends inside the range. -/
theorem Extents.Covers.core_end :
    extents.coveredOffset + extents.coreSize ≤ offset + size := by
  obtain ⟨_, _, hempty, hsource, _, _, hinside, _⟩ := hcovers
  rcases Nat.eq_zero_or_pos extents.coreSize with hzero | hpos
  · omega
  · omega

end

theorem writeHead_written {coveredOffset coreSize : ℕ} (hd : 0 < dataAlignment) (hsize : dataAlignment ∣ start.size)
    (hrange : offset + size ≤ start.size) (hpos : 0 < size) (hoffset : offset ≤ coveredOffset)
    (hblock : coveredOffset ≤ alignDown offset dataAlignment + dataAlignment) (workBuf : ℕ → UInt8)
    (h : Written start offset buffer (fun a => coveredOffset ≤ a ∧ a < coveredOffset + coreSize) base) :
    Written start offset buffer (fun a => offset ≤ a ∧ a < coveredOffset + coreSize)
      (writeHead base dataAlignment offset coveredOffset buffer workBuf).1 := by
  have hbase : base.size = start.size := h.size_eq
  unfold writeHead
  split_ifs with hlt
  · have hrewrite := rewrite_block hd (by rw [hbase]; exact hsize) offset (coveredOffset - offset) (by omega)
      (by omega) le_rfl buffer workBuf
    rw [Nat.sub_self] at hrewrite
    exact (h.splice hrewrite rfl).congr fun a => by omega
  · exact h.congr fun a => by omega

/-- **Writing changes the bytes of the range to the buffer's** and leaves every other byte of the storage. -/
theorem write_bytes (hd : 0 < dataAlignment) (hsize : dataAlignment ∣ start.size) (hrange : offset + size ≤ start.size)
    (buffer workBuf : ℕ → UInt8) :
    (write start dataAlignment bufferAlignment offset address size buffer workBuf).1 = size ∧
      (write start dataAlignment bufferAlignment offset address size buffer workBuf).2.1.size = start.size ∧
      ∀ a, (write start dataAlignment bufferAlignment offset address size buffer workBuf).2.1.bytes a =
        if offset ≤ a ∧ a < offset + size then buffer (a - offset) else start.bytes a := by
  unfold write
  split_ifs with hzero
  · refine ⟨rfl, rfl, fun a => ?_⟩
    rw [if_neg (by omega)]
  · have hcovers : (writeExtents dataAlignment bufferAlignment offset address size).Covers dataAlignment offset size :=
      covers_writeExtents hd
    have hgaps : (writeExtents dataAlignment bufferAlignment offset address size).bufferGap = 0 ∧
        (writeExtents dataAlignment bufferAlignment offset address size).offsetGap = 0 := writeExtents_gaps
    simp only
    generalize writeExtents dataAlignment bufferAlignment offset address size = extents at hcovers hgaps ⊢
    have hend := hcovers.core_end hgaps
    have hoffset := hcovers.offset_le
    have hcore := writeCore_written hcovers hgaps hrange buffer
    have hhead := writeHead_written hd hsize hrange (by omega) hoffset hcovers.le_block workBuf hcore
    have htail := writeTail_written hd hsize hrange _ (extents.coveredOffset + extents.coreSize)
      (offset + size - (extents.coveredOffset + extents.coreSize)) _ le_rfl (by omega) (by omega) hhead
    refine ⟨trivial, htail.size_eq, fun a => ?_⟩
    split_ifs with hin
    · exact htail.bytes a hin
    · exact htail.rest a hin

end Write

/-! ### Both -/

/-- **Accesses in blocks are plain accesses.** Of a storage whose size is a multiple of the data alignment, reading any
range gives its bytes and leaves the memory past the buffer; writing any range is the splice of the buffer into the
storage. -/
theorem accesses_are_plain {base : BaseStorage} {dataAlignment offset size : ℕ} (hd : 0 < dataAlignment)
    (hsize : dataAlignment ∣ base.size) (hrange : offset + size ≤ base.size) (bufferAlignment address : ℕ)
    (buffers : Buffers) (buffer workBuf : ℕ → UInt8) :
    ((read base dataAlignment bufferAlignment offset address size buffers).1 = size ∧
      (∀ i < size, (read base dataAlignment bufferAlignment offset address size buffers).2.out i =
        base.bytes (offset + i)) ∧
      ∀ i, size ≤ i →
        (read base dataAlignment bufferAlignment offset address size buffers).2.out i = buffers.out i) ∧
    ((write base dataAlignment bufferAlignment offset address size buffer workBuf).1 = size ∧
      (write base dataAlignment bufferAlignment offset address size buffer workBuf).2.1.size = base.size ∧
      ∀ a, (write base dataAlignment bufferAlignment offset address size buffer workBuf).2.1.bytes a =
        if offset ≤ a ∧ a < offset + size then buffer (a - offset) else base.bytes a) :=
  ⟨read_bytes hd hsize hrange buffers, write_bytes hd hsize hrange buffer workBuf⟩

/-- A range that ends in a third block, with a buffer that is not aligned. -/
theorem accesses_are_plain_blocks :
    let base : BaseStorage := { size := 12, bytes := fun a => UInt8.ofNat a }
    (∀ i < 6, (read base 4 8 3 5 6 ⟨fun _ => 0, fun _ => 0⟩).2.out i = UInt8.ofNat (3 + i)) ∧
      ∀ a, (write base 4 8 3 5 6 (fun _ => 255) (fun _ => 0)).2.1.bytes a =
        if 3 ≤ a ∧ a < 9 then 255 else UInt8.ofNat a := by
  intro base
  obtain ⟨⟨_, hread, _⟩, _, _, hwrite⟩ := accesses_are_plain (by decide : 0 < 4) (⟨3, rfl⟩ : 4 ∣ base.size)
    (by decide : 3 + 6 ≤ base.size) 8 5 ⟨fun _ => 0, fun _ => 0⟩ (fun _ => 255) (fun _ => 0)
  exact ⟨hread, hwrite⟩

end AlignmentMatchingStorage
end FileSys
end Citron
