/-
# The page tables of the GPU

`MemoryManager`: a table of big pages before a table of small ones, with two bits for the
state of each page. An index outside of a vector is a fault, and so is a copy through a
null pointer. The addresses are below `2 ^ 63`, and a run outside of the tables faults
before it could wrap. The kinds of the pages, the calls to the rasterizer and the lock are
left out.
-/
import Mathlib.Logic.Function.Basic
import Mathlib.Tactic.Set
import Citron.Lib.PackedFields

namespace Citron
namespace Tegra

open Function

/-! ### The memory of the device -/

abbrev HostMemory := ℕ → UInt8

/-- The host address of each page of the device that has a backing. -/
structure DeviceMemory where
  pages : ℕ → Option ℕ

def cpuPageBits : ℕ := 12

def cpuPageSize : ℕ := 2 ^ cpuPageBits

/-- `std::memcpy` to the host. -/
def storeBytes (host : HostMemory) (pointer : ℕ) : List UInt8 → HostMemory
  | [] => host
  | b :: bs => storeBytes (update host pointer b) (pointer + 1) bs

/-- `std::memcpy` from the host. -/
def loadBytes (host : HostMemory) (pointer size : ℕ) : List UInt8 := (List.range size).map fun i => host (pointer + i)

namespace DeviceMemory

def getPointer (memory : DeviceMemory) (address : ℕ) : Option ℕ :=
  (memory.pages (address / cpuPageSize)).map (· + address % cpuPageSize)

/-- `DeviceMemoryManager::ReadBlockUnsafe` byte by byte: a page without a backing reads as zeros. -/
def readBlockUnsafe (memory : DeviceMemory) (host : HostMemory) (address size : ℕ) : List UInt8 :=
  (List.range size).map fun i =>
    match memory.getPointer (address + i) with
    | some p => host p
    | none => 0

/-- `DeviceMemoryManager::WriteBlockUnsafe` byte by byte: a page without a backing is skipped. -/
def writeBlockUnsafe (memory : DeviceMemory) (host : HostMemory) (address : ℕ) : List UInt8 → HostMemory
  | [] => host
  | b :: bs =>
    let host := match memory.getPointer address with
      | some p => update host p b
      | none => host
    memory.writeBlockUnsafe host (address + 1) bs

end DeviceMemory

/-! ### Entries -/

inductive EntryType
  | free
  | reserved
  | mapped
deriving DecidableEq, Repr

def EntryType.toBits : EntryType → BitVec 64
  | .free => 0
  | .reserved => 1
  | .mapped => 2

/-- The value 3 is not written, and no test is for it. -/
def EntryType.ofBits (bits : BitVec 64) : EntryType :=
  if bits = 2 then .mapped else if bits = 1 then .reserved else .free

def pageBits : ℕ := 12

structure MemoryManager where
  addressSpaceBits : ℕ
  bigPageBits : ℕ
  entries : ℕ → BitVec 64
  bigEntries : ℕ → BitVec 64
  pageTable : ℕ → BitVec 32
  bigPageTableDev : ℕ → BitVec 32
  bigPageContinuous : ℕ → BitVec 64

namespace MemoryManager

def new (addressSpaceBits bigPageBits : ℕ) : MemoryManager where
  addressSpaceBits := addressSpaceBits
  bigPageBits := bigPageBits
  entries _ := 0
  bigEntries _ := 0
  pageTable _ := 0
  bigPageTableDev _ := 0
  bigPageContinuous _ := 0

variable (m : MemoryManager)

def addressSpaceSize : ℕ := 2 ^ m.addressSpaceBits

def usedPageBits (isBigPage : Bool) : ℕ := if isBigPage then m.bigPageBits else pageBits

def usedPageSize (isBigPage : Bool) : ℕ := 2 ^ m.usedPageBits isBigPage

/-- The number of pages, of which each word of the entries holds 32. -/
def tableSize (isBigPage : Bool) : ℕ := 2 ^ (m.addressSpaceBits - m.usedPageBits isBigPage)

def words (isBigPage : Bool) : ℕ → BitVec 64 := if isBigPage then m.bigEntries else m.entries

def getEntry (isBigPage : Bool) (position : ℕ) : Option EntryType :=
  let position := position / m.usedPageSize isBigPage
  if position / 32 < m.tableSize isBigPage / 32 then
    some (.ofBits (getField 2 (m.words isBigPage (position / 32)) (position % 32)))
  else none

def setEntry (isBigPage : Bool) (position : ℕ) (entry : EntryType) : Option MemoryManager :=
  let position := position / m.usedPageSize isBigPage
  if position / 32 < m.tableSize isBigPage / 32 then
    let word := setField 2 (m.words isBigPage (position / 32)) (position % 32) entry.toBits
    some (if isBigPage then { m with bigEntries := update m.bigEntries (position / 32) word }
      else { m with entries := update m.entries (position / 32) word })
  else none

def pageEntryIndex (isBigPage : Bool) (gpuAddr : ℕ) : ℕ := gpuAddr / m.usedPageSize isBigPage % m.tableSize isBigPage

def isBigPageContinuous (bigPageIndex : ℕ) : Option Bool :=
  if bigPageIndex / 64 < m.tableSize true / 64 then
    some (getField 1 (m.bigPageContinuous (bigPageIndex / 64)) (bigPageIndex % 64) != 0)
  else none

def setBigPageContinuous (bigPageIndex : ℕ) (value : Bool) : Option MemoryManager :=
  if bigPageIndex / 64 < m.tableSize true / 64 then
    let word := setField 1 (m.bigPageContinuous (bigPageIndex / 64)) (bigPageIndex % 64) (if value then 1 else 0)
    some { m with bigPageContinuous := update m.bigPageContinuous (bigPageIndex / 64) word }
  else none

/-! ### Mapping -/

/-- The loop over `offset`, as the loop over the number of the page. -/
def forPages (body : ℕ → MemoryManager → Option MemoryManager) : ℕ → MemoryManager → Option MemoryManager
  | 0, m => some m
  | n + 1, m => (forPages body n m).bind (body n)

/-- The number of values of `offset` below `size`. -/
def pageCount (isBigPage : Bool) (size : ℕ) : ℕ := (size + m.usedPageSize isBigPage - 1) / m.usedPageSize isBigPage

/-- The body of the loop of `PageTableOp`. -/
def setPage (entryType : EntryType) (gpuAddr devAddr k : ℕ) (m : MemoryManager) : Option MemoryManager :=
  let offset := k * m.usedPageSize false
  (m.setEntry false (gpuAddr + offset) entryType).map fun m =>
    if entryType = .mapped then
      let index := m.pageEntryIndex false (gpuAddr + offset)
      { m with pageTable := update m.pageTable index (.ofNat 32 ((devAddr + offset) / 2 ^ cpuPageBits)) }
    else m

def pageTableOp (entryType : EntryType) (gpuAddr devAddr size : ℕ) : Option MemoryManager :=
  if entryType = .mapped ∧ size ≠ 0 ∧ (gpuAddr ≥ m.addressSpaceSize ∨ size > m.addressSpaceSize - gpuAddr) then some m
  else forPages (setPage entryType gpuAddr devAddr) (m.pageCount false size) m

/-- The pages of the device behind a big page follow each other in the host's memory. -/
def isContinuous (memory : DeviceMemory) (devAddr : ℕ) : Bool :=
  match memory.getPointer devAddr with
  | none => false
  | some basePtr => (List.range (m.usedPageSize true / m.usedPageSize false)).all fun k =>
      memory.getPointer (devAddr + k * m.usedPageSize false) == some (basePtr + k * m.usedPageSize false)

/-- The body of the loop of `BigPageTableOp`. -/
def setBigPage (memory : DeviceMemory) (entryType : EntryType) (gpuAddr devAddr k : ℕ) (m : MemoryManager) :
    Option MemoryManager :=
  let offset := k * m.usedPageSize true
  (m.setEntry true (gpuAddr + offset) entryType).bind fun m =>
    let index := m.pageEntryIndex true (gpuAddr + offset)
    if entryType = .mapped then
      { m with
        bigPageTableDev := update m.bigPageTableDev index
          (.ofNat 32 ((devAddr + offset) / 2 ^ cpuPageBits)) }.setBigPageContinuous index
            (m.isContinuous memory (devAddr + offset))
    else m.setBigPageContinuous index false

def bigPageTableOp (memory : DeviceMemory) (entryType : EntryType) (gpuAddr devAddr size : ℕ) : Option MemoryManager :=
  forPages (setBigPage memory entryType gpuAddr devAddr) (m.pageCount true size) m

def map (memory : DeviceMemory) (gpuAddr devAddr size : ℕ) (isBigPages : Bool) : Option MemoryManager :=
  if isBigPages then m.bigPageTableOp memory .mapped gpuAddr devAddr size
  else m.pageTableOp .mapped gpuAddr devAddr size

def mapSparse (memory : DeviceMemory) (gpuAddr size : ℕ) (isBigPages : Bool) : Option MemoryManager :=
  if isBigPages then m.bigPageTableOp memory .reserved gpuAddr 0 size
  else m.pageTableOp .reserved gpuAddr 0 size

/-- The ranges that `Unmap` tells the rasterizer first are left out. -/
def unmap (memory : DeviceMemory) (gpuAddr size : ℕ) : Option MemoryManager :=
  if size = 0 then some m
  else (m.bigPageTableOp memory .free gpuAddr 0 size).bind fun m => m.pageTableOp .free gpuAddr 0 size

/-! ### Access -/

/-- The device address that a table has for a page, and the offset in the page. -/
def deviceAddress (isBigPage : Bool) (pageIndex pageOffset : ℕ) : ℕ :=
  (if isBigPage then m.bigPageTableDev pageIndex else m.pageTable pageIndex).toNat * 2 ^ cpuPageBits + pageOffset

def gpuToCpuAddress (gpuAddr : ℕ) : Option (Option ℕ) :=
  if ¬ gpuAddr < m.addressSpaceSize then some none
  else do
    if (← m.getEntry true gpuAddr) ≠ .mapped then
      if (← m.getEntry false gpuAddr) ≠ .mapped then
        return none
      return some (m.deviceAddress false (m.pageEntryIndex false gpuAddr) (gpuAddr % m.usedPageSize false))
    return some (m.deviceAddress true (m.pageEntryIndex true gpuAddr) (gpuAddr % m.usedPageSize true))

variable {σ : Type}

/-- The loop of `MemoryOperation`, whose steps take at least a byte. -/
def walk (isBigPages : Bool) (func : EntryType → ℕ → ℕ → ℕ → σ → Option σ) :
    (steps pageIndex pageOffset currentAddress remainingSize : ℕ) → σ → Option σ
  | 0, _, _, _, _, s => some s
  | steps + 1, pageIndex, pageOffset, currentAddress, remainingSize, s =>
    if remainingSize = 0 then some s
    else do
      let copyAmount := min (m.usedPageSize isBigPages - pageOffset) remainingSize
      let entry ← m.getEntry isBigPages currentAddress
      let s ← func entry pageIndex pageOffset copyAmount s
      walk isBigPages func steps (pageIndex + 1) 0 (currentAddress + copyAmount) (remainingSize - copyAmount) s

/-- `MemoryOperation`, with one function for the three kinds of entries. -/
def memoryOperation (isBigPages : Bool) (gpuSrcAddr size : ℕ) (func : EntryType → ℕ → ℕ → ℕ → σ → Option σ) (s : σ) :
    Option σ :=
  m.walk isBigPages func size (gpuSrcAddr / m.usedPageSize isBigPages) (gpuSrcAddr % m.usedPageSize isBigPages) gpuSrcAddr
    size s

/-- The walk over the big pages, whose unmapped pages are walked as small ones. -/
def blockOperation (gpuAddr size : ℕ) (mappedBig mappedNormal : ℕ → ℕ → ℕ → σ → Option σ) (skip : ℕ → σ → σ) (s : σ) :
    Option σ :=
  m.memoryOperation true gpuAddr size (fun
    | .mapped, pageIndex, offset, copyAmount, s => mappedBig pageIndex offset copyAmount s
    | .reserved, _, _, copyAmount, s => some (skip copyAmount s)
    | .free, pageIndex, offset, copyAmount, s =>
      m.memoryOperation false (pageIndex * m.usedPageSize true + offset) copyAmount (fun
        | .mapped, pageIndex, offset, copyAmount, s => mappedNormal pageIndex offset copyAmount s
        | _, _, _, copyAmount, s => some (skip copyAmount s)) s) s

def readBlockUnsafe (memory : DeviceMemory) (host : HostMemory) (gpuSrcAddr size : ℕ) : Option (List UInt8) :=
  let mappedNormal pageIndex offset copyAmount dest :=
    (memory.getPointer (m.deviceAddress false pageIndex offset)).map fun physical =>
      dest ++ loadBytes host physical copyAmount
  let mappedBig pageIndex offset copyAmount dest := do
    let devAddrBase := m.deviceAddress true pageIndex offset
    if !(← m.isBigPageContinuous pageIndex) then
      return dest ++ memory.readBlockUnsafe host devAddrBase copyAmount
    else
      let physical ← memory.getPointer devAddrBase
      return dest ++ loadBytes host physical copyAmount
  m.blockOperation gpuSrcAddr size mappedBig mappedNormal (fun copyAmount dest => dest ++ List.replicate copyAmount 0) []

/-- `WriteBlockUnsafe` keeps the bytes that are left of the source. -/
def writeBlockUnsafe (memory : DeviceMemory) (host : HostMemory) (gpuDestAddr : ℕ) (src : List UInt8) :
    Option HostMemory :=
  let mappedNormal pageIndex offset copyAmount s :=
    (memory.getPointer (m.deviceAddress false pageIndex offset)).map fun physical =>
      (s.1.drop copyAmount, storeBytes s.2 physical (s.1.take copyAmount))
  let mappedBig pageIndex offset copyAmount s := do
    let devAddrBase := m.deviceAddress true pageIndex offset
    if !(← m.isBigPageContinuous pageIndex) then
      return (s.1.drop copyAmount, memory.writeBlockUnsafe s.2 devAddrBase (s.1.take copyAmount))
    else
      let physical ← memory.getPointer devAddrBase
      return (s.1.drop copyAmount, storeBytes s.2 physical (s.1.take copyAmount))
  (m.blockOperation gpuDestAddr src.length mappedBig mappedNormal (fun copyAmount s => (s.1.drop copyAmount, s.2))
    (src, host)).map Prod.snd

/-! ### Calls -/

inductive Call
  | map (gpuAddr devAddr size : ℕ) (isBigPages : Bool)
  | mapSparse (gpuAddr size : ℕ) (isBigPages : Bool)
  | unmap (gpuAddr size : ℕ)

def call (memory : DeviceMemory) : Call → Option MemoryManager
  | .map gpuAddr devAddr size isBigPages => m.map memory gpuAddr devAddr size isBigPages
  | .mapSparse gpuAddr size isBigPages => m.mapSparse memory gpuAddr size isBigPages
  | .unmap gpuAddr size => m.unmap memory gpuAddr size

end MemoryManager

/-! ## What the calls do to the page tables

The two bits of each page, and its word of the table, as functions of the page's index. A
loop over pages sets those of its range and leaves the others.
-/

variable {memory : DeviceMemory} {a i n size : ℕ}

/-- Bytes of one page share its index. -/
theorem div_mod_of_lt {page : ℕ} (h : a % page + i < page) : (a + i) / page = a / page ∧ (a + i) % page = a % page + i := by
  have hpos : 0 < page := by omega
  have ha := Nat.div_add_mod a page
  have heq : a + i = a % page + i + page * (a / page) := by omega
  refine ⟨?_, ?_⟩
  · rw [heq, Nat.add_mul_div_left _ _ hpos, Nat.div_eq_of_lt h, Nat.zero_add]
  · rw [heq, Nat.add_mul_mod_self_left, Nat.mod_eq_of_lt h]

namespace EntryType

@[simp] theorem ofBits_toBits (e : EntryType) : ofBits e.toBits = e := by cases e <;> rfl

theorem toBits_fits (e : EntryType) : e.toBits &&& fieldMask 2 = e.toBits := by cases e <;> rfl

end EntryType

namespace MemoryManager

variable {m m' : MemoryManager} {e : EntryType} {isBig : Bool} {k : ℕ}

/-- The entry of a page. -/
def entry (m : MemoryManager) (isBig : Bool) (k : ℕ) : EntryType := .ofBits (getField 2 (m.words isBig (k / 32)) (k % 32))

/-- The page of the device behind a page. -/
def table (m : MemoryManager) (isBig : Bool) : ℕ → BitVec 32 := if isBig then m.bigPageTableDev else m.pageTable

def continuous (m : MemoryManager) (k : ℕ) : Bool := getField 1 (m.bigPageContinuous (k / 64)) (k % 64) != 0

/-- The big pages are bigger than the small ones, and the bits of each kind fill whole words. -/
structure Sized (m : MemoryManager) : Prop where
  pages : pageBits < m.bigPageBits
  words : m.bigPageBits + 6 ≤ m.addressSpaceBits

theorem Sized.bits_le (hm : Sized m) (isBig : Bool) : m.usedPageBits isBig + 6 ≤ m.addressSpaceBits := by
  have hp := hm.pages
  have hw := hm.words
  cases isBig with
  | true => exact hw
  | false =>
    change pageBits + 6 ≤ _
    omega

theorem usedPageSize_pos (m : MemoryManager) (isBig : Bool) : 0 < m.usedPageSize isBig := Nat.two_pow_pos _

theorem Sized.space (hm : Sized m) (isBig : Bool) : m.addressSpaceSize = m.tableSize isBig * m.usedPageSize isBig := by
  have hb := hm.bits_le isBig
  rw [addressSpaceSize, tableSize, usedPageSize, ← Nat.pow_add, Nat.sub_add_cancel (by omega)]

theorem Sized.tableSize_dvd (hm : Sized m) (isBig : Bool) : 64 ∣ m.tableSize isBig := by
  have hb := hm.bits_le isBig
  exact Nat.pow_dvd_pow 2 (show 6 ≤ m.addressSpaceBits - m.usedPageBits isBig by omega)

theorem Sized.lt_tableSize (hm : Sized m) (isBig : Bool) (ha : a < m.addressSpaceSize) :
    a / m.usedPageSize isBig < m.tableSize isBig := by
  rw [hm.space isBig] at ha
  exact Nat.div_lt_of_lt_mul (Nat.mul_comm _ _ ▸ ha)

theorem Sized.pageEntryIndex (hm : Sized m) (isBig : Bool) (ha : a < m.addressSpaceSize) :
    m.pageEntryIndex isBig a = a / m.usedPageSize isBig := Nat.mod_eq_of_lt (hm.lt_tableSize isBig ha)

theorem Sized.getEntry (hm : Sized m) (isBig : Bool) (ha : a < m.addressSpaceSize) :
    m.getEntry isBig a = some (m.entry isBig (a / m.usedPageSize isBig)) := by
  obtain ⟨c, hc⟩ := hm.tableSize_dvd isBig
  have hlt := hm.lt_tableSize isBig ha
  exact if_pos (by omega)

theorem Sized.isBigPageContinuous (hm : Sized m) (hk : k < m.tableSize true) :
    m.isBigPageContinuous k = some (m.continuous k) := by
  obtain ⟨c, hc⟩ := hm.tableSize_dvd true
  exact if_pos (by omega)

/-! ### One page -/

/-- The tables after `SetEntry` of a page. -/
def putEntry (m : MemoryManager) (isBig : Bool) (k : ℕ) (e : EntryType) : MemoryManager :=
  let word := setField 2 (m.words isBig (k / 32)) (k % 32) e.toBits
  if isBig then { m with bigEntries := update m.bigEntries (k / 32) word }
  else { m with entries := update m.entries (k / 32) word }

/-- The tables after `SetBigPageContinuous`. -/
def putContinuous (m : MemoryManager) (k : ℕ) (value : Bool) : MemoryManager :=
  let word := setField 1 (m.bigPageContinuous (k / 64)) (k % 64) (if value then 1 else 0)
  { m with bigPageContinuous := update m.bigPageContinuous (k / 64) word }

theorem Sized.setEntry (hm : Sized m) (isBig : Bool) (e : EntryType) (ha : a < m.addressSpaceSize) :
    m.setEntry isBig a e = some (m.putEntry isBig (a / m.usedPageSize isBig) e) := by
  obtain ⟨c, hc⟩ := hm.tableSize_dvd isBig
  have hlt := hm.lt_tableSize isBig ha
  exact if_pos (by omega)

theorem Sized.setBigPageContinuous (hm : Sized m) (value : Bool) (hk : k < m.tableSize true) :
    m.setBigPageContinuous k value = some (m.putContinuous k value) := by
  obtain ⟨c, hc⟩ := hm.tableSize_dvd true
  exact if_pos (by omega)

theorem words_putEntry (isBig isBig' : Bool) (j : ℕ) : (m.putEntry isBig k e).words isBig' j =
    if isBig' = isBig ∧ j = k / 32 then setField 2 (m.words isBig (k / 32)) (k % 32) e.toBits else m.words isBig' j := by
  cases isBig <;> cases isBig' <;> by_cases hj : j = k / 32 <;> simp [putEntry, words, hj]

/-- Only the entry of the page changes. -/
theorem entry_putEntry (isBig isBig' : Bool) (j : ℕ) :
    (m.putEntry isBig k e).entry isBig' j = if isBig' = isBig ∧ j = k then e else m.entry isBig' j := by
  unfold entry
  rw [words_putEntry]
  by_cases hb : isBig' = isBig
  · subst hb
    by_cases hw : j / 32 = k / 32
    · rw [if_pos ⟨rfl, hw⟩]
      by_cases hj : j = k
      · rw [hj, if_pos ⟨rfl, rfl⟩, getField_setField_self (by omega) e.toBits_fits, EntryType.ofBits_toBits]
      · rw [if_neg fun h => hj h.2, getField_setField_of_ne (by omega) (by omega) e.toBits_fits, hw]
    · rw [if_neg fun h => hw h.2, if_neg fun h => hw (congrArg (· / 32) h.2)]
  · rw [if_neg fun h => hb h.1, if_neg fun h => hb h.1]

theorem continuous_putContinuous (value : Bool) (j : ℕ) :
    (m.putContinuous k value).continuous j = if j = k then value else m.continuous j := by
  have hfits : (if value then 1 else 0 : BitVec 64) &&& fieldMask 1 = if value then 1 else 0 := by cases value <;> rfl
  unfold continuous putContinuous
  dsimp only
  by_cases hj : j = k
  · subst hj
    rw [if_pos rfl, update_self, getField_setField_self (by omega) hfits]
    cases value <;> rfl
  · rw [if_neg hj]
    by_cases hw : j / 64 = k / 64
    · rw [hw, update_self, getField_setField_of_ne (by omega) (by omega) hfits]
    · rw [update_of_ne hw]

@[simp] theorem putEntry_table (isBig isBig' : Bool) : (m.putEntry isBig k e).table isBig' = m.table isBig' := by
  cases isBig <;> rfl

@[simp] theorem putEntry_continuous (isBig : Bool) : (m.putEntry isBig k e).continuous = m.continuous := by
  cases isBig <;> rfl

@[simp] theorem putEntry_addressSpaceBits (isBig : Bool) : (m.putEntry isBig k e).addressSpaceBits = m.addressSpaceBits := by
  cases isBig <;> rfl

@[simp] theorem putEntry_bigPageBits (isBig : Bool) : (m.putEntry isBig k e).bigPageBits = m.bigPageBits := by
  cases isBig <;> rfl

theorem pageEntryIndex_congr (hspace : m'.addressSpaceBits = m.addressSpaceBits) (hbits : m'.bigPageBits = m.bigPageBits)
    (isBig : Bool) : m'.pageEntryIndex isBig = m.pageEntryIndex isBig := by
  funext a
  unfold pageEntryIndex usedPageSize tableSize usedPageBits
  rw [hspace, hbits]

/-! ### A range of pages -/

/-- The tables `m'` are `m` with the pages of a range set: their entries, and the words and the bits of continuity
that the call gives them. -/
structure PagesSet (m m' : MemoryManager) (isBig : Bool) (e : EntryType) (first n : ℕ) (frame : ℕ → BitVec 32)
    (value : ℕ → Bool) : Prop where
  addressSpaceBits : m'.addressSpaceBits = m.addressSpaceBits
  bigPageBits : m'.bigPageBits = m.bigPageBits
  entry : ∀ isBig' j, m'.entry isBig' j = if isBig' = isBig ∧ first ≤ j ∧ j < first + n then e else m.entry isBig' j
  table : ∀ isBig' j, m'.table isBig' j =
    if (isBig' = isBig ∧ first ≤ j ∧ j < first + n) ∧ e = .mapped then frame (j - first) else m.table isBig' j
  continuous : ∀ j, m'.continuous j =
    if isBig = true ∧ first ≤ j ∧ j < first + n then value (j - first) else m.continuous j

variable {first : ℕ} {frame : ℕ → BitVec 32} {value : ℕ → Bool}

theorem PagesSet.refl (m : MemoryManager) : PagesSet m m isBig e first 0 frame value := by
  refine ⟨rfl, rfl, fun isBig' j => (if_neg ?_).symm, fun isBig' j => (if_neg ?_).symm, fun j => (if_neg ?_).symm⟩ <;> omega

theorem PagesSet.usedPageSize (h : PagesSet m m' isBig e first n frame value) (isBig' : Bool) :
    m'.usedPageSize isBig' = m.usedPageSize isBig' := by
  unfold MemoryManager.usedPageSize usedPageBits
  rw [h.bigPageBits]

theorem PagesSet.addressSpaceSize (h : PagesSet m m' isBig e first n frame value) :
    m'.addressSpaceSize = m.addressSpaceSize := by
  unfold MemoryManager.addressSpaceSize
  rw [h.addressSpaceBits]

theorem PagesSet.sized (h : PagesSet m m' isBig e first n frame value) (hm : Sized m) : Sized m' := by
  obtain ⟨h1, h2⟩ := hm
  exact ⟨h.bigPageBits ▸ h1, by rw [h.bigPageBits, h.addressSpaceBits]; exact h2⟩

/-- A loop whose body sets one page of the range after the other. -/
theorem forPages_spec {body : ℕ → MemoryManager → Option MemoryManager}
    (hbody : ∀ k < n, ∀ m₁, PagesSet m m₁ isBig e first k frame value →
      ∃ m₂, body k m₁ = some m₂ ∧ PagesSet m m₂ isBig e first (k + 1) frame value) :
    ∃ m', forPages body n m = some m' ∧ PagesSet m m' isBig e first n frame value := by
  induction n with
  | zero => exact ⟨m, rfl, PagesSet.refl m⟩
  | succ n ih =>
    obtain ⟨m₁, h₁, hset⟩ := ih fun k hk => hbody k (Nat.lt_succ_of_lt hk)
    obtain ⟨m₂, h₂, hset₂⟩ := hbody n (Nat.lt_succ_self n) m₁ hset
    exact ⟨m₂, by rw [forPages, h₁, Option.bind_some, h₂], hset₂⟩

/-- The next page of a range. -/
theorem PagesSet.succ {m₁ m₂ : MemoryManager} (h : PagesSet m m₁ isBig e first n frame value)
    (hspace : m₂.addressSpaceBits = m₁.addressSpaceBits) (hbits : m₂.bigPageBits = m₁.bigPageBits)
    (hentry : ∀ isBig' j, m₂.entry isBig' j = if isBig' = isBig ∧ j = first + n then e else m₁.entry isBig' j)
    (htable : ∀ isBig' j, m₂.table isBig' j =
      if (isBig' = isBig ∧ j = first + n) ∧ e = .mapped then frame n else m₁.table isBig' j)
    (hcontinuous : ∀ j, m₂.continuous j = if isBig = true ∧ j = first + n then value n else m₁.continuous j) :
    PagesSet m m₂ isBig e first (n + 1) frame value := by
  refine ⟨hspace.trans h.addressSpaceBits, hbits.trans h.bigPageBits, fun isBig' j => ?_, fun isBig' j => ?_, fun j => ?_⟩
  · rw [hentry, h.entry]
    grind
  · rw [htable, h.table]
    grind
  · rw [hcontinuous, h.continuous]
    grind

theorem table_update (isBig : Bool) {index : ℕ} {word : BitVec 32} (isBig' : Bool) (j : ℕ) :
    (if isBig then { m with bigPageTableDev := update m.bigPageTableDev index word }
      else { m with pageTable := update m.pageTable index word }).table isBig' j =
      if isBig' = isBig ∧ j = index then word else m.table isBig' j := by
  cases isBig <;> cases isBig' <;> by_cases hj : j = index <;> simp [table, hj]

/-- The address of a page of a range. -/
theorem page_index (m : MemoryManager) (isBig : Bool) (gpuAddr k : ℕ) :
    (gpuAddr + k * m.usedPageSize isBig) / m.usedPageSize isBig = gpuAddr / m.usedPageSize isBig + k :=
  Nat.add_mul_div_right _ _ (m.usedPageSize_pos isBig)

/-- The pages of `PageTableOp`. -/
theorem Sized.setPages (hm : Sized m) (e : EntryType) (gpuAddr devAddr : ℕ)
    (hfits : ∀ k < n, gpuAddr + k * m.usedPageSize false < m.addressSpaceSize) :
    ∃ m', forPages (setPage e gpuAddr devAddr) n m = some m' ∧
      PagesSet m m' false e (gpuAddr / m.usedPageSize false) n
        (fun k => .ofNat 32 ((devAddr + k * m.usedPageSize false) / 2 ^ cpuPageBits)) (fun _ => false) := by
  refine forPages_spec fun k hk m₁ h => ?_
  have hm₁ := h.sized hm
  have hin := hfits k hk
  rw [← h.addressSpaceSize, ← h.usedPageSize] at hin
  have hindex := (hm₁.pageEntryIndex false hin).trans (page_index m₁ false gpuAddr k)
  set index := gpuAddr / m.usedPageSize false + k with hix
  set m₂ := m₁.putEntry false index e with hm₂
  have hspace₂ : m₂.addressSpaceBits = m₁.addressSpaceBits := putEntry_addressSpaceBits false
  have hbits₂ : m₂.bigPageBits = m₁.bigPageBits := putEntry_bigPageBits false
  have hcontinuous₂ : m₂.continuous = m₁.continuous := putEntry_continuous false
  have hindex' : m₂.pageEntryIndex false (gpuAddr + k * m.usedPageSize false) = index := by
    rw [pageEntryIndex_congr hspace₂ hbits₂, ← h.usedPageSize false, hindex, h.usedPageSize]
  unfold setPage
  dsimp only
  rw [hm₁.setEntry false e hin, Option.map_some, page_index, h.usedPageSize, ← hix, ← hm₂, hindex']
  by_cases he : e = .mapped
  · rw [if_pos he]
    refine ⟨_, rfl, h.succ hspace₂ hbits₂ (fun isBig' j => entry_putEntry _ _ _) (fun isBig' j => ?_) fun j => ?_⟩
    · refine (table_update false isBig' j).trans ?_
      rw [hm₂, putEntry_table]
      simp only [he, and_true, hix]
    · rw [if_neg nofun]
      exact congrFun hcontinuous₂ j
  · rw [if_neg he]
    refine ⟨_, rfl, h.succ hspace₂ hbits₂ (fun isBig' j => entry_putEntry _ _ _) (fun isBig' j => ?_) fun j => ?_⟩
    · rw [if_neg fun hj => he hj.2, hm₂, putEntry_table]
    · rw [if_neg nofun, hcontinuous₂]

theorem putContinuous_table (value : Bool) : (m.putContinuous k value).table = m.table := rfl

/-- The pages of `BigPageTableOp`. -/
theorem Sized.setBigPages (hm : Sized m) (memory : DeviceMemory) (e : EntryType) (gpuAddr devAddr : ℕ)
    (hfits : ∀ k < n, gpuAddr + k * m.usedPageSize true < m.addressSpaceSize) :
    ∃ m', forPages (setBigPage memory e gpuAddr devAddr) n m = some m' ∧
      PagesSet m m' true e (gpuAddr / m.usedPageSize true) n
        (fun k => .ofNat 32 ((devAddr + k * m.usedPageSize true) / 2 ^ cpuPageBits))
        (fun k => decide (e = .mapped) && m.isContinuous memory (devAddr + k * m.usedPageSize true)) := by
  refine forPages_spec fun k hk m₁ h => ?_
  have hm₁ := h.sized hm
  have hin := hfits k hk
  rw [← h.addressSpaceSize, ← h.usedPageSize] at hin
  have hindex := (hm₁.pageEntryIndex true hin).trans (page_index m₁ true gpuAddr k)
  have hlt := hm₁.lt_tableSize true hin
  rw [page_index, h.usedPageSize] at hlt
  set index := gpuAddr / m.usedPageSize true + k with hix
  set m₂ := m₁.putEntry true index e with hm₂
  have hspace₂ : m₂.addressSpaceBits = m₁.addressSpaceBits := putEntry_addressSpaceBits true
  have hbits₂ : m₂.bigPageBits = m₁.bigPageBits := putEntry_bigPageBits true
  have hsized : Sized m₂ := ⟨by rw [hbits₂]; exact hm₁.pages, by rw [hbits₂, hspace₂]; exact hm₁.words⟩
  have hindex' : m₂.pageEntryIndex true (gpuAddr + k * m.usedPageSize true) = index := by
    rw [pageEntryIndex_congr hspace₂ hbits₂, ← h.usedPageSize true, hindex, h.usedPageSize]
  have hcont : m₂.isContinuous memory = m.isContinuous memory := by
    funext d
    unfold isContinuous usedPageSize usedPageBits
    rw [hbits₂, h.bigPageBits]
  have hlt₂ : index < m₂.tableSize true := by
    unfold tableSize usedPageBits at hlt ⊢
    rw [hspace₂, hbits₂]
    exact hlt
  have hentry₂ : ∀ isBig' j, m₂.entry isBig' j = if isBig' = true ∧ j = index then e else m₁.entry isBig' j :=
    fun isBig' j => entry_putEntry _ _ _
  have hcontinuous₂ : m₂.continuous = m₁.continuous := putEntry_continuous true
  unfold setBigPage
  dsimp only
  rw [hm₁.setEntry true e hin, Option.bind_some, page_index, h.usedPageSize, ← hix, ← hm₂, hindex', hcont]
  by_cases he : e = .mapped
  · set m₃ : MemoryManager := { m₂ with
      bigPageTableDev := update m₂.bigPageTableDev index
        (.ofNat 32 ((devAddr + k * m.usedPageSize true) / 2 ^ cpuPageBits)) } with hm₃
    have hsized' : Sized m₃ := ⟨hsized.pages, hsized.words⟩
    rw [if_pos he, hsized'.setBigPageContinuous _ hlt₂]
    refine ⟨_, rfl, h.succ hspace₂ hbits₂ hentry₂ (fun isBig' j => ?_) fun j => ?_⟩
    · refine (table_update true isBig' j).trans ?_
      rw [hm₂, putEntry_table]
      simp only [he, and_true, hix]
    · rw [continuous_putContinuous, show m₃.continuous = m₁.continuous from hcontinuous₂]
      simp only [he, decide_true, Bool.true_and, true_and, hix]
  · rw [if_neg he, hsized.setBigPageContinuous _ hlt₂]
    refine ⟨_, rfl, h.succ hspace₂ hbits₂ hentry₂ (fun isBig' j => ?_) fun j => ?_⟩
    · rw [if_neg fun hj => he hj.2, putContinuous_table, hm₂, putEntry_table]
    · rw [continuous_putContinuous, hcontinuous₂]
      simp only [he, decide_false, Bool.false_and, true_and, hix]

end MemoryManager

end Tegra
end Citron
