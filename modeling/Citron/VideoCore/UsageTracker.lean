/-
# The usage tracker

`UsageTracker` keeps a bit for each 64-byte unit of a staging buffer, one 64-bit word for each 4096-byte page. `Track` and
`IsUsed` cut their range into the part in its first page, the pages between and the part in its last page. A tracked
range that fits marks the units it touches (`track_used`); a query that stays in one page looks at the whole page up to its
end (`isUsed_iff`).
-/
import Citron.Kernel.PageBitmapBits
import Citron.Lib.BitFields

namespace Citron
namespace VideoCore

open Common Lib.BitFields List

/-! ### The tracker -/

structure UsageTracker where
  pages : List (BitVec 64)
  lastOffset : BitVec 64 := 0
  lastSize : BitVec 64 := 0
deriving DecidableEq

namespace UsageTracker

def bytesPerBitShift : ℕ := 6

def pageShift : ℕ := 6 + bytesPerBitShift

def pageBytes : ℕ := 1 <<< pageShift

def pageOf (offset : BitVec 64) : ℕ := (offset >>> pageShift).toNat

/-- `offset_end_page_aligned`. -/
def pageStart (offset : BitVec 64) : BitVec 64 := BitVec.ofNat 64 (alignDown offset.toNat pageBytes)

/-- A new tracker, by the size of its buffer. -/
def construct (size : BitVec 64) : UsageTracker where
  pages := List.replicate (pageOf size + 1) 0

def pageMask (offset size : BitVec 64) : BitVec 64 :=
  let offsetInPage := offset % BitVec.ofNat 64 pageBytes
  let endInPage :=
    if offsetInPage + size < BitVec.ofNat 64 pageBytes then offsetInPage + size else BitVec.ofNat 64 pageBytes
  if size = 0 ∨ endInPage ≤ offsetInPage then 0
  else
    let firstBit := offsetInPage >>> bytesPerBitShift
    let lastBit := (endInPage - 1) >>> bytesPerBitShift
    let count := lastBit - firstBit + 1
    (if count = 64 then ~~~0#64 else (1#64 <<< count) - 1) <<< firstBit

def reset (tracker : UsageTracker) : UsageTracker :=
  { tracker with pages := tracker.pages.map fun _ => 0, lastSize := 0 }

def trackPage (tracker : UsageTracker) (page : ℕ) (offset size : BitVec 64) : UsageTracker :=
  { tracker with pages := tracker.pages.modify page (· ||| pageMask offset size) }

/-- The `memset` of `count` whole pages. -/
def fill (tracker : UsageTracker) (first count : ℕ) : UsageTracker :=
  { tracker with
    pages := tracker.pages.mapIdx fun i word => if first ≤ i ∧ i < first + count then ~~~0#64 else word }

def isPageUsed (tracker : UsageTracker) (page : ℕ) (offset size : BitVec 64) : Bool :=
  tracker.pages.getD page 0 &&& pageMask offset size ≠ 0

def track (tracker : UsageTracker) (offset size : BitVec 64) : UsageTracker :=
  if offset = tracker.lastOffset ∧ size = tracker.lastSize then tracker
  else
    let page := pageOf offset
    let pageEnd := pageOf (offset + size)
    if pageEnd < page ∨ tracker.pages.length ≤ pageEnd then tracker
    else
      let tracker := { tracker with lastOffset := offset, lastSize := size }
      let tracker := tracker.trackPage page offset size
      if page = pageEnd then tracker
      else
        let tracker := tracker.fill (page + 1) (pageEnd - page - 1)
        let offsetEnd := offset + size
        tracker.trackPage pageEnd (pageStart offsetEnd) (offsetEnd - pageStart offsetEnd)

def isUsed (tracker : UsageTracker) (offset size : BitVec 64) : Bool :=
  let page := pageOf offset
  let pageEnd := pageOf (offset + size)
  if pageEnd < page ∨ tracker.pages.length ≤ pageEnd then false
  else if tracker.isPageUsed page offset size then true
  else if (List.range' (page + 1) (pageEnd - (page + 1))).any fun i => tracker.pages.getD i 0 ≠ 0 then true
  else
    -- A range inside one page gets here too, with everything of the page below its end.
    let offsetEnd := offset + size
    tracker.isPageUsed pageEnd (pageStart offsetEnd) (offsetEnd - pageStart offsetEnd)

/-- A call on the tracker. -/
inductive Call
  | reset
  | track (offset size : BitVec 64)
deriving DecidableEq

def call (tracker : UsageTracker) : Call → UsageTracker
  | .reset => tracker.reset
  | .track offset size => tracker.track offset size

/-- The tracker of a buffer after a sequence of calls. -/
def run (size : BitVec 64) (calls : List Call) : UsageTracker := calls.foldl call (construct size)

example : (run 65536 [.track 128 40]).isUsed 160 4 = true := by decide

/-! ### Units -/

/-- A byte of the range lies in the 64-byte unit. -/
def Touches (offset size unit : ℕ) : Prop := ∃ byte, offset ≤ byte ∧ byte < offset + size ∧ byte / 64 = unit

theorem touches_iff {offset size unit : ℕ} :
    Touches offset size unit ↔ 0 < size ∧ offset / 64 ≤ unit ∧ unit ≤ (offset + size - 1) / 64 := by
  constructor
  · rintro ⟨byte, hle, hlt, rfl⟩
    exact ⟨by omega, Nat.div_le_div_right hle, Nat.div_le_div_right (by omega)⟩
  · rintro ⟨hs, hfirst, hlast⟩
    refine ⟨max offset (64 * unit), le_max_left .., ?_, ?_⟩
    · rw [max_lt_iff]
      omega
    · rcases Nat.le_total (64 * unit) offset with h | h
      · rw [max_eq_left h]
        omega
      · rw [max_eq_right h]
        omega

instance (offset size unit : ℕ) : Decidable (Touches offset size unit) := decidable_of_iff' _ touches_iff

section Offsets

variable {offset size : BitVec 64}

@[simp] theorem pageOf_eq (offset : BitVec 64) : pageOf offset = offset.toNat / 4096 := by
  rw [pageOf, BitVec.toNat_ushiftRight, Nat.shiftRight_eq_div_pow]
  rfl

@[simp] theorem pageStart_toNat (offset : BitVec 64) : (pageStart offset).toNat = offset.toNat / 4096 * 4096 := by
  have hle := alignDown_le offset.toNat pageBytes
  rw [pageStart, BitVec.toNat_ofNat, Nat.mod_eq_of_lt (by omega), alignDown_eq]
  rfl

theorem pageStart_le (offset : BitVec 64) : pageStart offset ≤ offset := by
  rw [BitVec.le_def, pageStart_toNat]
  exact Nat.div_mul_le_self ..

theorem sub_pageStart_toNat (offset : BitVec 64) : (offset - pageStart offset).toNat = offset.toNat % 4096 := by
  rw [BitVec.toNat_sub_of_le (pageStart_le offset), pageStart_toNat]
  omega

end Offsets

/-! ### The mask of a page -/

/-- Either way of making the run of ones gives the low mask. -/
theorem ones_eq (count : BitVec 64) (hcount : count.toNat ≤ 64) :
    (if count = 64 then ~~~0#64 else (1#64 <<< count) - 1) = lowMask 64 count.toNat := by
  split_ifs with h
  · subst h
    decide
  · rw [BitVec.shiftLeft_eq']
    exact one_shiftLeft_sub_one _

/-- The run of ones from one bit to another. -/
theorem ones_shift_bit {firstBit lastBit : BitVec 64} {j : ℕ} (hle : firstBit.toNat ≤ lastBit.toNat)
    (hlast : lastBit.toNat < 64) (hj : j < 64) :
    ((if lastBit - firstBit + 1 = 64 then ~~~0#64 else (1#64 <<< (lastBit - firstBit + 1)) - 1) <<<
      firstBit).getLsbD j = true ↔ firstBit.toNat ≤ j ∧ j ≤ lastBit.toNat := by
  have hcount : (lastBit - firstBit + 1).toNat = lastBit.toNat - firstBit.toNat + 1 := by
    rw [BitVec.toNat_add, BitVec.toNat_sub_of_le (BitVec.le_def.mpr hle)]
    exact Nat.mod_eq_of_lt (by simp; omega)
  rw [ones_eq _ (by omega), hcount, BitVec.shiftLeft_eq', BitVec.getLsbD_shiftLeft, getLsbD_lowMask]
  simp only [Bool.and_eq_true, Bool.not_eq_true', decide_eq_true_eq, decide_eq_false_iff_not]
  omega

/-- The mask has the units the range touches in its page, unless the end wraps around. -/
theorem pageMask_bit {offset size : BitVec 64} {j : ℕ} (hj : j < 64) :
    (pageMask offset size).getLsbD j = true ↔
      offset.toNat % 4096 + size.toNat < 2 ^ 64 ∧ Touches (offset.toNat % 4096) size.toNat j := by
  have hpage : (BitVec.ofNat 64 pageBytes).toNat = 4096 := by decide
  have hin : (offset % BitVec.ofNat 64 pageBytes).toNat = offset.toNat % 4096 := by rw [BitVec.toNat_umod, hpage]
  have hzero : size = 0 ↔ size.toNat = 0 := by simp [← BitVec.toNat_inj]
  unfold pageMask
  simp only
  generalize offset % BitVec.ofNat 64 pageBytes = offsetInPage at hin ⊢
  generalize hend : (if offsetInPage + size < BitVec.ofNat 64 pageBytes then offsetInPage + size
    else BitVec.ofNat 64 pageBytes) = endInPage
  have hendNat : endInPage.toNat = min ((offsetInPage.toNat + size.toNat) % 2 ^ 64) 4096 := by
    rw [← hend]
    split_ifs with h
    · rw [BitVec.lt_def, hpage, BitVec.toNat_add] at h
      rw [BitVec.toNat_add]
      omega
    · rw [BitVec.lt_def, hpage, BitVec.toNat_add] at h
      omega
  rw [touches_iff, ← hin]
  by_cases hempty : size = 0 ∨ endInPage ≤ offsetInPage
  · rw [if_pos hempty]
    rw [hzero, BitVec.le_def] at hempty
    have hnone : (0 : BitVec 64).getLsbD j = false := BitVec.getLsbD_zero
    simp only [hnone, Bool.false_eq_true, false_iff]
    omega
  · rw [if_neg hempty]
    rw [hzero, BitVec.le_def] at hempty
    have hfirst : (offsetInPage >>> bytesPerBitShift).toNat = offsetInPage.toNat / 64 := by
      rw [BitVec.toNat_ushiftRight, Nat.shiftRight_eq_div_pow]
      rfl
    have hlast : ((endInPage - 1) >>> bytesPerBitShift).toNat = (endInPage.toNat - 1) / 64 := by
      have hone : (1 : BitVec 64) ≤ endInPage := by
        rw [BitVec.le_def]
        exact Nat.succ_le_of_lt (by omega)
      rw [BitVec.toNat_ushiftRight, Nat.shiftRight_eq_div_pow, BitVec.toNat_sub_of_le hone]
      rfl
    rw [ones_shift_bit (by rw [hfirst, hlast]; omega) (by rw [hlast]; omega) hj, hfirst, hlast]
    omega

/-! ### Marks -/

/-- The bit of the unit is set. -/
def Used (tracker : UsageTracker) (unit : ℕ) : Prop := (tracker.pages.getD (unit / 64) 0).getLsbD (unit % 64) = true

instance (tracker : UsageTracker) (unit : ℕ) : Decidable (tracker.Used unit) := by
  unfold Used
  infer_instance

/-- The range does not wrap around and ends in the first pages. -/
def Fits (numPages : ℕ) (offset size : BitVec 64) : Prop :=
  offset.toNat + size.toNat < 2 ^ 64 ∧ (offset.toNat + size.toNat) / 4096 < numPages

/-- The range passes the check on its pages. -/
def Accepted (numPages : ℕ) (offset size : BitVec 64) : Prop :=
  pageOf offset ≤ pageOf (offset + size) ∧ pageOf (offset + size) < numPages

instance (numPages : ℕ) (offset size : BitVec 64) : Decidable (Fits numPages offset size) := by
  unfold Fits
  infer_instance

instance (numPages : ℕ) (offset size : BitVec 64) : Decidable (Accepted numPages offset size) := by
  unfold Accepted
  infer_instance

section Marks

variable {tracker : UsageTracker} {offset size : BitVec 64} {page first count unit : ℕ}

/-- A range that is accepted and wraps around ends in its first page. -/
theorem Accepted.cases {numPages : ℕ} (h : Accepted numPages offset size) :
    Fits numPages offset size ∨ (2 ^ 64 ≤ offset.toNat + size.toNat ∧ pageOf offset = pageOf (offset + size)) := by
  simp only [Accepted, Fits, pageOf_eq, BitVec.toNat_add] at h ⊢
  omega

theorem Fits.accepted {numPages : ℕ} (h : Fits numPages offset size) : Accepted numPages offset size := by
  simp only [Accepted, Fits, pageOf_eq, BitVec.toNat_add] at h ⊢
  omega

theorem getD_modify (pages : List (BitVec 64)) (f : BitVec 64 → BitVec 64) (hpage : page < pages.length) (i : ℕ) :
    (pages.modify page f).getD i 0 = if i = page then f (pages.getD i 0) else pages.getD i 0 := by
  rw [getD_eq_getElem?_getD, getD_eq_getElem?_getD, getElem?_modify]
  rcases eq_or_ne i page with rfl | h
  · simp [getElem?_eq_getElem hpage]
  · simp [h, h.symm]

@[simp] theorem trackPage_length : (tracker.trackPage page offset size).pages.length = tracker.pages.length :=
  length_modify ..

@[simp] theorem fill_length : (tracker.fill first count).pages.length = tracker.pages.length := length_mapIdx

theorem trackPage_used (hpage : page < tracker.pages.length) :
    (tracker.trackPage page offset size).Used unit ↔
      tracker.Used unit ∨ unit / 64 = page ∧ (pageMask offset size).getLsbD (unit % 64) = true := by
  rw [Used, Used, trackPage, getD_modify _ _ hpage]
  split_ifs with h
  · rw [BitVec.getLsbD_or]
    simp [h]
  · simp [h]

theorem fill_used : (tracker.fill first count).Used unit ↔
    tracker.Used unit ∨ first ≤ unit / 64 ∧ unit / 64 < first + count ∧ unit / 64 < tracker.pages.length := by
  rw [Used, Used, fill, getD_eq_getElem?_getD, getD_eq_getElem?_getD, getElem?_mapIdx]
  by_cases hlt : unit / 64 < tracker.pages.length
  · rw [getElem?_eq_getElem hlt]
    by_cases h : first ≤ unit / 64 ∧ unit / 64 < first + count
    · have hbit : (~~~0#64).getLsbD (unit % 64) = true := by
        rw [BitVec.getLsbD_not]
        simp [Nat.mod_lt]
      rw [Option.map_some, Option.getD_some, if_pos h]
      exact iff_of_true hbit (Or.inr ⟨h.1, h.2, hlt⟩)
    · simp [h]
      omega
  · rw [getElem?_eq_none (not_lt.mp hlt)]
    simp
    omega

/-- Looking at a page finds a marked unit the mask has. -/
theorem isPageUsed_iff : tracker.isPageUsed page offset size = true ↔
    ∃ unit, unit / 64 = page ∧ tracker.Used unit ∧ (pageMask offset size).getLsbD (unit % 64) = true := by
  rw [isPageUsed, decide_eq_true_eq]
  constructor
  · intro h
    obtain ⟨j, hj, hbit⟩ := Kernel.exists_bit_of_ne_zero h
    rw [BitVec.getLsbD_and, Bool.and_eq_true] at hbit
    refine ⟨64 * page + j, by omega, ?_, ?_⟩
    · rw [Used, show (64 * page + j) / 64 = page by omega, show (64 * page + j) % 64 = j by omega]
      exact hbit.1
    · rw [show (64 * page + j) % 64 = j by omega]
      exact hbit.2
  · rintro ⟨unit, rfl, hused, hmask⟩
    refine Kernel.ne_zero_of_bit (j := unit % 64) ?_
    rw [BitVec.getLsbD_and, Bool.and_eq_true]
    exact ⟨hused, hmask⟩

/-- The parts of a range that fits and ends in a later page: the first page, the pages between, the last page. -/
theorem touches_parts (hfits : offset.toNat + size.toNat < 2 ^ 64) (hlt : pageOf offset < pageOf (offset + size)) :
    Touches offset.toNat size.toNat unit ↔
      (unit / 64 = pageOf offset ∧ (pageMask offset size).getLsbD (unit % 64) = true) ∨
      (pageOf offset + 1 ≤ unit / 64 ∧ unit / 64 < pageOf (offset + size)) ∨
      (unit / 64 = pageOf (offset + size) ∧
        (pageMask (pageStart (offset + size)) ((offset + size) - pageStart (offset + size))).getLsbD (unit % 64)
          = true) := by
  rw [pageMask_bit (Nat.mod_lt _ (by decide)), pageMask_bit (Nat.mod_lt _ (by decide)), sub_pageStart_toNat,
    pageStart_toNat]
  simp only [pageOf_eq, BitVec.toNat_add, Nat.mod_eq_of_lt hfits, touches_iff] at hlt ⊢
  omega

/-- A range inside one page. -/
theorem touches_page (hfits : offset.toNat + size.toNat < 2 ^ 64) (heq : pageOf offset = pageOf (offset + size)) :
    Touches offset.toNat size.toNat unit ↔
      unit / 64 = pageOf offset ∧ (pageMask offset size).getLsbD (unit % 64) = true := by
  rw [pageMask_bit (Nat.mod_lt _ (by decide))]
  simp only [pageOf_eq, BitVec.toNat_add, Nat.mod_eq_of_lt hfits, touches_iff] at heq ⊢
  omega

/-- A range that wraps around inside a page has an empty mask there. -/
theorem pageMask_wraps (hwraps : 2 ^ 64 ≤ offset.toNat + size.toNat) (heq : pageOf offset = pageOf (offset + size))
    {j : ℕ} (hj : j < 64) : (pageMask offset size).getLsbD j = false := by
  rw [← Bool.not_eq_true, pageMask_bit hj]
  simp only [pageOf_eq, BitVec.toNat_add] at heq
  omega

/-- The range `Track` returns early on is marked already. -/
def LastMarked (tracker : UsageTracker) : Prop :=
  ∀ unit, Fits tracker.pages.length tracker.lastOffset tracker.lastSize →
    Touches tracker.lastOffset.toNat tracker.lastSize.toNat unit → tracker.Used unit

@[simp] theorem track_length : (tracker.track offset size).pages.length = tracker.pages.length := by
  unfold track
  simp only
  split_ifs <;> simp

/-- **`Track` marks the units its range touches**, if the range fits, and no others. -/
theorem track_used (hlast : tracker.LastMarked) : (tracker.track offset size).Used unit ↔
    tracker.Used unit ∨ Fits tracker.pages.length offset size ∧ Touches offset.toNat size.toNat unit := by
  unfold track
  simp only
  split_ifs with hsame hguard hpage
  · obtain ⟨rfl, rfl⟩ := hsame
    exact ⟨Or.inl, fun h => h.elim id fun ⟨hfits, htouch⟩ => hlast unit hfits htouch⟩
  · have hnot : ¬ Fits tracker.pages.length offset size := by
      intro h
      have := h.accepted
      unfold Accepted at this
      omega
    simp [hnot]
  · have hacc : Accepted tracker.pages.length offset size := by
      unfold Accepted
      omega
    rw [trackPage_used (by simp only; omega)]
    rcases hacc.cases with hfits | ⟨hwraps, -⟩
    · rw [touches_page hfits.1 hpage]
      simp only [hfits, true_and]
      rfl
    · have hnot : ¬ Fits tracker.pages.length offset size := fun h => absurd h.1 (by omega)
      simp only [pageMask_wraps hwraps hpage (Nat.mod_lt unit (by decide)), hnot, false_and, and_false, or_false,
        Bool.false_eq_true]
      rfl
  · have hacc : Accepted tracker.pages.length offset size := by
      unfold Accepted
      omega
    have hfits : Fits tracker.pages.length offset size := hacc.cases.resolve_right fun h => hpage h.2
    rw [trackPage_used (by rw [fill_length, trackPage_length]; exact hacc.2), fill_used,
      trackPage_used (by simp only; omega), trackPage_length, touches_parts hfits.1 (by omega)]
    have hmiddle : (pageOf offset + 1 ≤ unit / 64 ∧
        unit / 64 < pageOf offset + 1 + (pageOf (offset + size) - pageOf offset - 1) ∧
        unit / 64 < tracker.pages.length) ↔
        pageOf offset + 1 ≤ unit / 64 ∧ unit / 64 < pageOf (offset + size) := by omega
    simp only [hmiddle, hfits, true_and, or_assoc]
    rfl

theorem track_lastMarked (hlast : tracker.LastMarked) : (tracker.track offset size).LastMarked := by
  intro unit hfits htouch
  rw [track_used hlast]
  rw [track_length] at hfits
  by_cases hsame : (tracker.track offset size).lastOffset = offset ∧ (tracker.track offset size).lastSize = size
  · rw [hsame.1, hsame.2] at hfits htouch
    exact Or.inr ⟨hfits, htouch⟩
  · have hold : (tracker.track offset size).lastOffset = tracker.lastOffset ∧
        (tracker.track offset size).lastSize = tracker.lastSize := by
      revert hsame
      unfold track trackPage fill
      simp only
      split_ifs <;> simp
    rw [hold.1, hold.2] at hfits htouch
    exact Or.inl (hlast unit hfits htouch)

/-- The part of the last page of a range that lies below its end. -/
theorem touches_head : Touches (pageStart offset).toNat (offset.toNat % 4096) unit ↔
    unit / 64 = pageOf offset ∧
      (pageMask (pageStart offset) (offset - pageStart offset)).getLsbD (unit % 64) = true := by
  rw [pageMask_bit (Nat.mod_lt _ (by decide)), sub_pageStart_toNat, pageStart_toNat, pageOf_eq, touches_iff,
    touches_iff]
  omega

/-- Looking at the last page of a range finds the marked units below its end. -/
theorem isPageUsed_head : tracker.isPageUsed (pageOf offset) (pageStart offset) (offset - pageStart offset) = true ↔
    ∃ unit, Touches (pageStart offset).toNat (offset.toNat % 4096) unit ∧ tracker.Used unit := by
  rw [isPageUsed_iff]
  apply exists_congr
  intro unit
  rw [touches_head]
  tauto

/-- The scan over the pages between finds a marked unit of them. -/
theorem any_page_iff {last : ℕ} :
    (List.range' first (last - first)).any (fun i => tracker.pages.getD i 0 ≠ 0) = true ↔
      ∃ unit, (first ≤ unit / 64 ∧ unit / 64 < last) ∧ tracker.Used unit := by
  simp only [any_eq_true, mem_range'_1, decide_eq_true_eq]
  constructor
  · rintro ⟨i, hi, hne⟩
    obtain ⟨j, hj, hbit⟩ := Kernel.exists_bit_of_ne_zero hne
    refine ⟨64 * i + j, by omega, ?_⟩
    rw [Used, show (64 * i + j) / 64 = i by omega, show (64 * i + j) % 64 = j by omega]
    exact hbit
  · rintro ⟨unit, hin, hused⟩
    exact ⟨unit / 64, by omega, Kernel.ne_zero_of_bit hused⟩

/-- **What a query looks at**: the units its range touches, if it fits, and in a page it does not leave all those below
its end. -/
theorem isUsed_iff : tracker.isUsed offset size = true ↔ Accepted tracker.pages.length offset size ∧
    ((Fits tracker.pages.length offset size ∧ ∃ unit, Touches offset.toNat size.toNat unit ∧ tracker.Used unit) ∨
      (pageOf offset = pageOf (offset + size) ∧ ∃ unit,
        Touches (pageStart (offset + size)).toNat ((offset + size).toNat % 4096) unit ∧ tracker.Used unit)) := by
  have hunfold : tracker.isUsed offset size = true ↔ Accepted tracker.pages.length offset size ∧
      (tracker.isPageUsed (pageOf offset) offset size = true ∨
        (List.range' (pageOf offset + 1) (pageOf (offset + size) - (pageOf offset + 1))).any
          (fun i => tracker.pages.getD i 0 ≠ 0) = true ∨
        tracker.isPageUsed (pageOf (offset + size)) (pageStart (offset + size))
          (offset + size - pageStart (offset + size)) = true) := by
    unfold isUsed Accepted
    simp only
    split_ifs with hguard hfirst hmiddle
    · simp only [false_iff]
      omega
    · simp only [hfirst, true_or, and_true, true_iff]
      omega
    · simp only [hmiddle, true_or, or_true, and_true, true_iff]
      omega
    · simp only [hfirst, hmiddle, Bool.false_eq_true, false_or, iff_and_self]
      omega
  rw [hunfold, isPageUsed_iff, any_page_iff, isPageUsed_head]
  apply and_congr_right
  intro hacc
  rcases Nat.lt_or_ge (pageOf offset) (pageOf (offset + size)) with hlt | hge
  · have hfits := hacc.cases.resolve_right fun h => absurd h.2 hlt.ne
    simp only [hfits, hlt.ne, true_and, false_and, or_false, touches_parts hfits.1 hlt, touches_head, or_and_right,
      exists_or, and_assoc, and_comm (a := tracker.Used _)]
  · have heq : pageOf offset = pageOf (offset + size) := Nat.le_antisymm hacc.1 hge
    have hnone : ¬ ∃ unit, (pageOf offset + 1 ≤ unit / 64 ∧ unit / 64 < pageOf (offset + size)) ∧
        tracker.Used unit := by
      rintro ⟨unit, hin, -⟩
      omega
    rw [or_iff_right hnone]
    simp only [heq, true_and]
    rcases hacc.cases with hfits | ⟨hwraps, -⟩
    · simp only [hfits, true_and, touches_page hfits.1 heq, heq, and_assoc, and_comm (a := tracker.Used _)]
    · have hnot : ¬ Fits tracker.pages.length offset size := fun h => absurd h.1 (by omega)
      simp only [pageMask_wraps hwraps heq (Nat.mod_lt _ (by decide : 0 < 64)), hnot, false_and, and_false,
        exists_false, Bool.false_eq_true, false_or]

end Marks

/-! ### Runs -/

/-- The ranges of the calls to `Track` since the last `Reset`. -/
def tracked (calls : List Call) : List (BitVec 64 × BitVec 64) :=
  calls.foldl (fun ranges call => match call with
    | .reset => []
    | .track offset size => ranges ++ [(offset, size)]) []

/-- The tracked range and the query touch a unit both. -/
def Shares (range query : BitVec 64 × BitVec 64) : Prop :=
  ∃ unit, Touches range.1.toNat range.2.toNat unit ∧ Touches query.1.toNat query.2.toNat unit

/-- The tracked range touches a unit that lies in the page where the query ends, below that end. -/
def SharesHead (range query : BitVec 64 × BitVec 64) : Prop :=
  ∃ unit, Touches range.1.toNat range.2.toNat unit ∧
    Touches (pageStart (query.1 + query.2)).toNat ((query.1 + query.2).toNat % 4096) unit

def numPages (size : BitVec 64) : ℕ := size.toNat / 4096 + 1

section Runs

variable {bufferSize : BitVec 64} {calls : List Call} {unit : ℕ}

theorem reset_used {tracker : UsageTracker} : ¬ tracker.reset.Used unit := by
  rw [Used, reset, getD_eq_getElem?_getD, getElem?_map]
  cases tracker.pages[unit / 64]? <;> simp

theorem reset_lastMarked {tracker : UsageTracker} : tracker.reset.LastMarked := by
  intro unit _ htouch
  rw [touches_iff] at htouch
  exact absurd htouch.1 (by simp [reset])

theorem tracked_append (calls : List Call) (call : Call) : tracked (calls ++ [call]) = match call with
    | .reset => []
    | .track offset size => tracked calls ++ [(offset, size)] := by
  unfold tracked
  rw [foldl_append]
  rfl

theorem run_append (calls : List Call) (call : Call) :
    run bufferSize (calls ++ [call]) = (run bufferSize calls).call call := by
  unfold run
  rw [foldl_append]
  rfl

/-- **The marks after a run** are the units of the ranges that fit, tracked since the last reset. -/
theorem run_inv (bufferSize : BitVec 64) (calls : List Call) :
    (run bufferSize calls).pages.length = numPages bufferSize ∧ (run bufferSize calls).LastMarked ∧ ∀ unit,
      (run bufferSize calls).Used unit ↔
      ∃ range ∈ tracked calls, Fits (numPages bufferSize) range.1 range.2 ∧
        Touches range.1.toNat range.2.toNat unit := by
  induction calls using List.reverseRecOn with
  | nil =>
    refine ⟨by simp [run, construct, numPages], ?_, ?_⟩
    · intro unit _ htouch
      rw [touches_iff] at htouch
      exact absurd htouch.1 (by simp [run, construct])
    · intro unit
      have hnone : ¬ (construct bufferSize).Used unit := by
        rw [Used, construct, getD_eq_getElem?_getD, getElem?_replicate]
        split_ifs <;> simp
      simpa [tracked, run] using hnone
  | append_singleton calls call ih =>
    obtain ⟨hlength, hlast, hused⟩ := ih
    rw [run_append, tracked_append]
    cases call with
    | reset =>
      refine ⟨by simpa [UsageTracker.call, reset] using hlength, reset_lastMarked, ?_⟩
      intro unit
      simpa [UsageTracker.call] using reset_used
    | track offset size =>
      refine ⟨by rw [UsageTracker.call, track_length, hlength], track_lastMarked hlast, ?_⟩
      intro unit
      rw [UsageTracker.call, track_used hlast, hused, hlength]
      simp only [mem_append, mem_singleton, or_and_right, exists_or, exists_eq_left]

/-- A query finds the ranges that fit and share a unit with what it looks at. -/
theorem run_isUsed_iff {offset size : BitVec 64} : (run bufferSize calls).isUsed offset size = true ↔
    Accepted (numPages bufferSize) offset size ∧ ∃ range ∈ tracked calls, Fits (numPages bufferSize) range.1 range.2 ∧
      ((Fits (numPages bufferSize) offset size ∧ Shares range (offset, size)) ∨
        (pageOf offset = pageOf (offset + size) ∧ SharesHead range (offset, size))) := by
  obtain ⟨hlength, -, hused⟩ := run_inv bufferSize calls
  rw [isUsed_iff, hlength]
  apply and_congr_right
  intro _
  simp only [hused, Shares, SharesHead]
  constructor
  · rintro (⟨hfits, unit, htouch, range, hmem, hrange, hunit⟩ | ⟨heq, unit, htouch, range, hmem, hrange, hunit⟩)
    · exact ⟨range, hmem, hrange, Or.inl ⟨hfits, unit, hunit, htouch⟩⟩
    · exact ⟨range, hmem, hrange, Or.inr ⟨heq, unit, hunit, htouch⟩⟩
  · rintro ⟨range, hmem, hrange, ⟨hfits, unit, hunit, htouch⟩ | ⟨heq, unit, hunit, htouch⟩⟩
    · exact Or.inl ⟨hfits, unit, htouch, range, hmem, hrange, hunit⟩
    · exact Or.inr ⟨heq, unit, htouch, range, hmem, hrange, hunit⟩

end Runs

/-- A tracked range that fits touches the page of a query that stays in that page, at a unit below the query's end. -/
def HeadHit (numPages : ℕ) (ranges : List (BitVec 64 × BitVec 64)) (query : BitVec 64 × BitVec 64) : Prop :=
  pageOf query.1 = pageOf (query.1 + query.2) ∧ pageOf query.1 < numPages ∧
    ∃ range ∈ ranges, Fits numPages range.1 range.2 ∧ SharesHead range query

/-- When the answer to a query is right. If no tracked range shares a unit with the query, nothing is marked from the
start of its page on; if one does, that range and the query fit the tracker, or something else is marked there. -/
def Answers (numPages : ℕ) (ranges : List (BitVec 64 × BitVec 64)) (query : BitVec 64 × BitVec 64) : Prop :=
  ((∃ range ∈ ranges, Shares range query) →
    (Fits numPages query.1 query.2 ∧ ∃ range ∈ ranges, Fits numPages range.1 range.2 ∧ Shares range query) ∨
      HeadHit numPages ranges query) ∧
  ((¬ ∃ range ∈ ranges, Shares range query) → ¬ HeadHit numPages ranges query)

theorem run_isUsed_iff_headHit {bufferSize offset size : BitVec 64} {calls : List Call} :
    (run bufferSize calls).isUsed offset size = true ↔
      (Fits (numPages bufferSize) offset size ∧
        ∃ range ∈ tracked calls, Fits (numPages bufferSize) range.1 range.2 ∧ Shares range (offset, size)) ∨
      HeadHit (numPages bufferSize) (tracked calls) (offset, size) := by
  rw [run_isUsed_iff, HeadHit]
  constructor
  · rintro ⟨hacc, range, hmem, hrange, ⟨hfits, hshares⟩ | ⟨heq, hhead⟩⟩
    · exact Or.inl ⟨hfits, range, hmem, hrange, hshares⟩
    · exact Or.inr ⟨heq, heq ▸ hacc.2, range, hmem, hrange, hhead⟩
  · rintro (⟨hfits, range, hmem, hrange, hshares⟩ | ⟨heq, hlt, range, hmem, hrange, hhead⟩)
    · exact ⟨hfits.accepted, range, hmem, hrange, Or.inl ⟨hfits, hshares⟩⟩
    · exact ⟨⟨heq.le, heq ▸ hlt⟩, range, hmem, hrange, Or.inr ⟨heq, hhead⟩⟩

/-- **Where the tracker answers right.** After any calls, `IsUsed` says that a range tracked since the last reset touches
a unit the query touches, exactly if the marks below a query inside one page are no matter. -/
theorem isUsed_answers_iff (bufferSize offset size : BitVec 64) (calls : List Call) :
    ((run bufferSize calls).isUsed offset size = true ↔ ∃ range ∈ tracked calls, Shares range (offset, size)) ↔
      Answers (numPages bufferSize) (tracked calls) (offset, size) := by
  rw [run_isUsed_iff_headHit, Answers]
  by_cases hshares : ∃ range ∈ tracked calls, Shares range (offset, size)
  · rw [iff_true_right hshares]
    exact ⟨fun h => ⟨fun _ => h, fun hnot => absurd hshares hnot⟩, fun h => h.1 hshares⟩
  · have hnone : ¬ (Fits (numPages bufferSize) offset size ∧
        ∃ range ∈ tracked calls, Fits (numPages bufferSize) range.1 range.2 ∧ Shares range (offset, size)) := by
      rintro ⟨-, range, hmem, -, h⟩
      exact hshares ⟨range, hmem, h⟩
    rw [or_iff_right hnone, iff_false_right hshares]
    exact ⟨fun h => ⟨fun hshared => absurd hshared hshares, fun _ => h⟩, fun h => h.2 hshares⟩

/-- The first unit of a page is tracked, and the third is taken for used. -/
theorem isUsed_head_unit : ¬ ((run 65536 [.track 0 64]).isUsed 128 64 = true ↔
    ∃ range ∈ tracked [.track 0 64], Shares range (128, 64)) := by
  have hused : (run 65536 [.track 0 64]).isUsed 128 64 = true := by decide
  rw [iff_true_left hused]
  rintro ⟨range, hmem, unit, hrange, hquery⟩
  obtain rfl : range = (0, 64) := by simpa [tracked] using hmem
  rw [touches_iff] at hrange hquery
  simp at hrange hquery
  omega

end UsageTracker
end VideoCore
end Citron
