/-
# Pages under locks that overlap

Ranges of pages may be locked several times over. A page counts the ranges that
cover it and its borders count those that start or end there (`countsAt`); how
the state of the page follows from these counts is `Tracks`. A lock keeps this
when it adds its range, and a release when it takes its range away.
-/
import Citron.Kernel.MemoryBlockLocks

namespace Citron
namespace Kernel

open Lib List KMemoryAttribute
open KMemoryBlockDisableMergeAttribute (ipcLeft deviceLeft deviceRight)

/-! ### Ranges -/

structure PageRange where
  address : ℕ
  numPages : ℕ
deriving DecidableEq, Repr

namespace PageRange

def stop (r : PageRange) : ℕ := r.address + r.numPages * PageSize

def covers (r : PageRange) (p : ℕ) : Bool := r.address ≤ p && p < r.stop

theorem covers_iff {r : PageRange} {p : ℕ} : r.covers p = true ↔ r.address ≤ p ∧ p < r.stop := by
  simp [covers]

end PageRange

/-- How many of the ranges cover the page. -/
def coverCount (l : List PageRange) (p : ℕ) : ℕ := l.countP fun r => r.covers p

/-- How many of the ranges start at the address. -/
def startCount (l : List PageRange) (p : ℕ) : ℕ := l.countP fun r => r.address == p

/-- How many of the ranges end at the address. -/
def endCount (l : List PageRange) (p : ℕ) : ℕ := l.countP fun r => r.stop == p

/-- The counts of the ranges at a page. -/
structure PageCounts where
  ipc : ℕ
  ipcStarts : ℕ
  device : ℕ
  deviceStarts : ℕ
  deviceEnds : ℕ
deriving DecidableEq, Repr

def countsAt (ipc device : List PageRange) (p : ℕ) : PageCounts :=
  ⟨coverCount ipc p, startCount ipc p, coverCount device p, startCount device p,
    endCount device (p + PageSize)⟩

section Ranges

variable {m : KMemoryBlockManager} {l : List PageRange} {r : PageRange} {p : ℕ}

theorem startCount_le_coverCount (h : ∀ r ∈ l, 0 < r.numPages) : startCount l p ≤ coverCount l p := by
  refine countP_mono_left fun r hr hp => ?_
  have := h r hr
  have hp' : r.address = p := by simpa using hp
  rw [PageRange.covers_iff]
  simp only [PageRange.stop, PageSize]
  omega

theorem endCount_le_coverCount (h : ∀ r ∈ l, 0 < r.numPages) :
    endCount l (p + PageSize) ≤ coverCount l p := by
  refine countP_mono_left fun r hr hp => ?_
  have := h r hr
  have hp' : r.stop = p + PageSize := by simpa using hp
  simp only [PageRange.stop, PageSize] at hp'
  rw [PageRange.covers_iff]
  simp only [PageRange.stop, PageSize]
  omega

theorem coverCount_cons : coverCount (r :: l) p = coverCount l p + if r.covers p then 1 else 0 :=
  countP_cons

theorem startCount_cons : startCount (r :: l) p = startCount l p + if p = r.address then 1 else 0 := by
  simp only [startCount, countP_cons, beq_iff_eq, eq_comm (a := p)]

theorem endCount_cons : endCount (r :: l) p = endCount l p + if p = r.stop then 1 else 0 := by
  simp only [endCount, countP_cons, beq_iff_eq, eq_comm (a := p)]

variable {ipc device : List PageRange}

theorem countsAt_cons_ipc (h : r.covers p = true) :
    countsAt (r :: ipc) device p =
      { countsAt ipc device p with
        ipc := (countsAt ipc device p).ipc + 1
        ipcStarts := (countsAt ipc device p).ipcStarts + if p == r.address then 1 else 0 } := by
  simp only [countsAt, coverCount_cons, startCount_cons, h, if_true, beq_iff_eq]

theorem countsAt_cons_device (h : r.covers p = true) :
    countsAt ipc (r :: device) p =
      { countsAt ipc device p with
        device := (countsAt ipc device p).device + 1
        deviceStarts := (countsAt ipc device p).deviceStarts + if p == r.address then 1 else 0
        deviceEnds := (countsAt ipc device p).deviceEnds + if p + PageSize == r.stop then 1 else 0 } := by
  simp only [countsAt, coverCount_cons, startCount_cons, endCount_cons, h, if_true, beq_iff_eq]

/-- A range counts on no page that it does not cover. -/
theorem countsAt_cons_of_not (hr : 0 < r.numPages) (h : ¬ r.covers p = true) :
    countsAt (r :: ipc) device p = countsAt ipc device p ∧
      countsAt ipc (r :: device) p = countsAt ipc device p := by
  have hs : p ≠ r.address := by
    rintro rfl
    rw [PageRange.covers_iff] at h
    simp only [PageRange.stop, PageSize] at h
    omega
  have he : p + PageSize ≠ r.stop := by
    rw [PageRange.covers_iff] at h
    simp only [PageRange.stop, PageSize] at h ⊢
    omega
  simp only [countsAt, coverCount_cons, startCount_cons, endCount_cons, h, hs, he, if_false, Nat.add_zero,
    and_self, Bool.false_eq_true]

theorem covers_address (hr : 0 < r.numPages) : r.covers r.address = true := by
  rw [PageRange.covers_iff]
  simp only [PageRange.stop, PageSize]
  omega

theorem startCount_pos (h : r ∈ l) : 0 < startCount l r.address :=
  countP_pos_iff.mpr ⟨r, h, beq_self_eq_true _⟩

theorem endCount_pos (h : r ∈ l) : 0 < endCount l r.stop :=
  countP_pos_iff.mpr ⟨r, h, beq_self_eq_true _⟩

/-- The last page of a range is below its end. -/
theorem covers_last (hr : 0 < r.numPages) :
    r.covers (r.stop - PageSize) = true ∧ r.stop - PageSize + PageSize = r.stop := by
  rw [PageRange.covers_iff]
  simp only [PageRange.stop, PageSize]
  omega

/-- A range in the list counts as if it stood at its head. -/
theorem countsAt_erase_ipc (h : r ∈ l) :
    countsAt l device p = countsAt (r :: l.erase r) device p := by
  have hp := perm_cons_erase h
  simp only [countsAt, coverCount, startCount, hp.countP_eq]

theorem countsAt_erase_device (h : r ∈ l) :
    countsAt ipc l p = countsAt ipc (r :: l.erase r) p := by
  have hp := perm_cons_erase h
  simp only [countsAt, coverCount, startCount, endCount, hp.countP_eq]

end Ranges

/-! ### A page follows the ranges that are locked -/

/-- The mark, if its count is not zero. -/
def withMark (x mark : BitVec 8) (n : ℕ) : BitVec 8 := if 0 < n then x ||| mark else x

section WithMark

variable {x m m' : BitVec 8} {n k : ℕ}

@[simp] theorem withMark_zero : withMark x m 0 = x := rfl

@[simp] theorem withMark_succ : withMark x m (n + 1) = x ||| m := rfl

theorem withMark_or : withMark (withMark x m n) m' k ||| m = withMark (x ||| m) m' k := by
  unfold withMark
  split_ifs
  · rw [BitVec.or_assoc, BitVec.or_comm m' m, ← BitVec.or_assoc, BitVec.or_assoc x, BitVec.or_self]
  · rw [BitVec.or_assoc, BitVec.or_comm m' m, ← BitVec.or_assoc]
  · rw [BitVec.or_assoc, BitVec.or_self]
  · rfl

theorem withMark_or_self : withMark x m n ||| m = x ||| m := by
  unfold withMark
  split_ifs
  · rw [BitVec.or_assoc, BitVec.or_self]
  · rfl

/-- Clearing a mark that was not there before it was set. -/
theorem or_and_not_self (h : x &&& m = 0) : (x ||| m) &&& ~~~m = x := by
  ext i hi
  have := congrArg (fun v => v[i]) h
  simp only [BitVec.getElem_and, BitVec.getElem_or, BitVec.getElem_not] at this ⊢
  cases hx : x[i] <;> cases hm : m[i] <;> simp_all

theorem and_not_of_and_eq (h : x &&& m = 0) : x &&& ~~~m = x := by
  have := or_and_not_self h
  rw [KMemoryBlock.or_and_distrib, BitVec.and_not_self] at this
  exact BitVec.or_zero.symm.trans this

theorem withMark_or_and_not (h : x &&& m = 0) (h' : m' &&& m = 0) :
    withMark (x ||| m) m' k &&& ~~~m = withMark x m' k := by
  unfold withMark
  split_ifs
  · rw [BitVec.or_assoc, BitVec.or_comm m m', ← BitVec.or_assoc]
    refine or_and_not_self ?_
    rw [KMemoryBlock.or_and_distrib, h, h']
    exact BitVec.or_zero
  · exact or_and_not_self h

theorem withMark_and (h : x &&& m = 0) (h' : m' &&& m = 0) : withMark x m' k &&& m = 0 := by
  unfold withMark
  split_ifs
  · rw [KMemoryBlock.or_and_distrib, h, h']
    exact BitVec.or_zero
  · exact h

end WithMark

/-- How the state of a page follows from its state before the run, and from the
counts of the ranges that are locked. -/
structure Tracks (v₀ v : PageState) (n : PageCounts) : Prop where
  memoryState : v.info.memoryState = v₀.info.memoryState
  ipcLockCount : v.info.ipcLockCount = n.ipc
  deviceUseCount : v.info.deviceUseCount = n.device
  memoryAttribute : v.info.memoryAttribute =
    withMark (withMark v₀.info.memoryAttribute ipcLocked n.ipc)
      deviceShared n.device
  permission : n.ipc = 0 → v.info.permission = v₀.info.permission ∧ v.info.originalPermission = .none
  originalPermission : 0 < n.ipc → v.info.originalPermission = v₀.info.permission
  ipcDisableMergeCount : v.ipcDisableMergeCount = n.ipcStarts
  deviceDisableMergeLeftCount : v.deviceDisableMergeLeftCount = n.deviceStarts
  deviceDisableMergeRightCount : v.deviceDisableMergeRightCount = n.deviceEnds
  leftBits : v.leftBits =
    withMark (withMark v₀.leftBits KMemoryBlockDisableMergeAttribute.ipcLeft n.ipcStarts)
      KMemoryBlockDisableMergeAttribute.deviceLeft n.deviceStarts
  rightBits : v.rightBits = withMark 0 KMemoryBlockDisableMergeAttribute.deviceRight n.deviceEnds

/-- No lock is held on the page, and none marks its borders. -/
structure Unlocked (v : PageState) : Prop where
  ipc : v.info.ipcLockCount = 0
  device : v.info.deviceUseCount = 0
  memoryAttribute : v.info.memoryAttribute &&& ignoreMask = 0
  original : v.info.originalPermission = .none
  ipcStarts : v.ipcDisableMergeCount = 0
  deviceStarts : v.deviceDisableMergeLeftCount = 0
  deviceEnds : v.deviceDisableMergeRightCount = 0
  ipcLeft : v.leftBits &&& KMemoryBlockDisableMergeAttribute.ipcLeft = 0
  deviceLeft : v.leftBits &&& KMemoryBlockDisableMergeAttribute.deviceLeft = 0
  right : v.rightBits = 0

section Tracks

variable {v₀ v : PageState} {n : PageCounts} (perm : KMemoryPermission) (first last : Bool)

theorem Unlocked.attribute_bits (h : Unlocked v₀) :
    v₀.info.memoryAttribute &&& ipcLocked = 0 ∧
      v₀.info.memoryAttribute &&& deviceShared = 0 := by
  have hbits : ∀ x : KMemoryAttribute, x &&& ignoreMask = 0 →
      x &&& ipcLocked = 0 ∧ x &&& deviceShared = 0 := by decide
  exact hbits _ h.memoryAttribute

/-- Before the run no range is locked. -/
theorem Unlocked.tracks (h : Unlocked v₀) : Tracks v₀ v₀ ⟨0, 0, 0, 0, 0⟩ where
  memoryState := rfl
  ipcLockCount := h.ipc
  deviceUseCount := h.device
  memoryAttribute := rfl
  permission _ := ⟨rfl, h.original⟩
  originalPermission h := absurd h (lt_irrefl 0)
  ipcDisableMergeCount := h.ipcStarts
  deviceDisableMergeLeftCount := h.deviceStarts
  deviceDisableMergeRightCount := h.deviceEnds
  leftBits := rfl
  rightBits := h.right

/-- A page that no range covers or meets is as it was. -/
theorem Tracks.eq_of_zero (hu : Unlocked v₀) (h : Tracks v₀ v ⟨0, 0, 0, 0, 0⟩) : v = v₀ := by
  obtain ⟨hp, ho⟩ := h.permission rfl
  have hinfo : v.info = v₀.info := by
    cases hv : v.info
    cases hv₀ : v₀.info
    have h1 := h.memoryState
    have h2 := h.ipcLockCount.trans hu.ipc.symm
    have h3 := h.deviceUseCount.trans hu.device.symm
    have h4 := h.memoryAttribute
    have h5 := ho.trans hu.original.symm
    simp only [hv, hv₀, withMark_zero] at h1 h2 h3 h4 h5 hp
    simp only [h1, h2, h3, h4, h5, hp]
  have h1 := h.ipcDisableMergeCount.trans hu.ipcStarts.symm
  have h2 := h.deviceDisableMergeLeftCount.trans hu.deviceStarts.symm
  have h3 := h.deviceDisableMergeRightCount.trans hu.deviceEnds.symm
  have h4 := h.leftBits
  have h5 := h.rightBits.trans hu.right.symm
  cases v
  cases v₀
  exact PageState.mk.injEq .. |>.mpr ⟨hinfo, h1, h2, h4, h3, h5⟩

theorem Tracks.lockForIpc (h : Tracks v₀ v n) (hn : n.ipc + 1 < 65536) (hs : n.ipcStarts ≤ n.ipc) :
    Tracks v₀ (v.lockForIpc perm first)
      { n with ipc := n.ipc + 1, ipcStarts := n.ipcStarts + if first then 1 else 0 } := by
  have hinc : incU16 v.info.ipcLockCount = n.ipc + 1 := by rw [h.ipcLockCount, incU16_of_lt hn]
  have hstart : incU16 v.ipcDisableMergeCount = n.ipcStarts + 1 := by
    rw [h.ipcDisableMergeCount, incU16_of_lt (by omega)]
  refine ⟨h.memoryState, hinc, h.deviceUseCount, ?_, fun h0 => absurd h0 (by simp), fun _ => ?_, ?_,
    h.deviceDisableMergeLeftCount, h.deviceDisableMergeRightCount, ?_, h.rightBits⟩
  · change v.info.memoryAttribute ||| ipcLocked = _
    rw [h.memoryAttribute, withMark_or, withMark_succ]
  · change (if incU16 v.info.ipcLockCount == 1 then v.info.permission else v.info.originalPermission) = _
    rw [hinc]
    by_cases h0 : n.ipc = 0
    · rw [if_pos (by simp [h0])]
      exact (h.permission h0).1
    · rw [if_neg (by simp [h0])]
      exact h.originalPermission (Nat.pos_of_ne_zero h0)
  · cases first with
    | false => exact h.ipcDisableMergeCount
    | true => exact hstart
  · cases first with
    | false => exact h.leftBits
    | true =>
      change v.leftBits ||| ipcLeft = _
      rw [h.leftBits, withMark_or]
      rfl

theorem Tracks.unlockForIpc (hu : Unlocked v₀)
    (h : Tracks v₀ v { n with ipc := n.ipc + 1, ipcStarts := n.ipcStarts + if first then 1 else 0 }) :
    Tracks v₀ (v.unlockForIpc perm first) n := by
  have hone : (v.info.ipcLockCount == 1) = decide (n.ipc = 0) := by
    rw [h.ipcLockCount, Bool.eq_iff_iff]
    simp
  refine ⟨h.memoryState, ?_, h.deviceUseCount, ?_, fun h0 => ?_, fun h0 => ?_, ?_,
    h.deviceDisableMergeLeftCount, h.deviceDisableMergeRightCount, ?_, h.rightBits⟩
  · change decU16 v.info.ipcLockCount = _
    rw [h.ipcLockCount, decU16_succ]
  · change (if v.info.ipcLockCount == 1 then v.info.memoryAttribute &&& ~~~ipcLocked
      else v.info.memoryAttribute) = _
    rw [hone, h.memoryAttribute, withMark_succ]
    by_cases h0 : n.ipc = 0
    · rw [if_pos (by simp [h0]), withMark_or_and_not hu.attribute_bits.1 rfl, h0, withMark_zero]
    · obtain ⟨k, hk⟩ := Nat.exists_eq_succ_of_ne_zero h0
      rw [if_neg (by simp [h0]), hk]
      rfl
  · have hpos : v.info.originalPermission = v₀.info.permission := h.originalPermission (Nat.succ_pos _)
    constructor
    · change (if v.info.ipcLockCount == 1 then v.info.originalPermission else v.info.permission) = _
      rw [hone, if_pos (by simp [h0]), hpos]
    · change (if v.info.ipcLockCount == 1 then KMemoryPermission.none else v.info.originalPermission) = _
      rw [hone, if_pos (by simp [h0])]
  · change (if v.info.ipcLockCount == 1 then KMemoryPermission.none else v.info.originalPermission) = _
    rw [hone, if_neg (by simp; omega)]
    exact h.originalPermission (Nat.succ_pos _)
  · cases first with
    | false => exact h.ipcDisableMergeCount
    | true =>
      change decU16 v.ipcDisableMergeCount = _
      rw [h.ipcDisableMergeCount]
      exact decU16_succ _
  · cases first with
    | false => exact h.leftBits
    | true =>
      change (if v.ipcDisableMergeCount == 1 then
        v.leftBits &&& ~~~ipcLeft else v.leftBits) = _
      rw [h.ipcDisableMergeCount, h.leftBits]
      simp only [if_true, withMark_succ]
      by_cases h0 : n.ipcStarts = 0
      · rw [if_pos (by simp [h0]), withMark_or_and_not hu.ipcLeft rfl, h0, withMark_zero]
      · obtain ⟨k, hk⟩ := Nat.exists_eq_succ_of_ne_zero h0
        rw [if_neg (by simp [h0]), hk]
        rfl

theorem Tracks.shareToDevice (h : Tracks v₀ v n) (hn : n.device + 1 < 65536)
    (hs : n.deviceStarts ≤ n.device) (he : n.deviceEnds ≤ n.device) :
    Tracks v₀ (v.shareToDevice perm first last)
      { n with
        device := n.device + 1
        deviceStarts := n.deviceStarts + if first then 1 else 0
        deviceEnds := n.deviceEnds + if last then 1 else 0 } := by
  have hinc : incU16 v.info.deviceUseCount = n.device + 1 := by rw [h.deviceUseCount, incU16_of_lt hn]
  refine ⟨h.memoryState, h.ipcLockCount, hinc, ?_, h.permission, h.originalPermission,
    h.ipcDisableMergeCount, ?_, ?_, ?_, ?_⟩
  · change v.info.memoryAttribute ||| deviceShared = _
    rw [h.memoryAttribute, withMark_or_self, withMark_succ]
  · cases first with
    | false => exact h.deviceDisableMergeLeftCount
    | true =>
      change incU16 v.deviceDisableMergeLeftCount = _
      rw [h.deviceDisableMergeLeftCount, incU16_of_lt (by omega)]
      rfl
  · cases last with
    | false => exact h.deviceDisableMergeRightCount
    | true =>
      change incU16 v.deviceDisableMergeRightCount = _
      rw [h.deviceDisableMergeRightCount, incU16_of_lt (by omega)]
      rfl
  · cases first with
    | false => exact h.leftBits
    | true =>
      change v.leftBits ||| deviceLeft = _
      rw [h.leftBits, withMark_or_self]
      rfl
  · cases last with
    | false => exact h.rightBits
    | true =>
      change v.rightBits ||| deviceRight = _
      rw [h.rightBits, withMark_or_self]
      rfl

theorem Tracks.unshareToDevice (hu : Unlocked v₀) (hs : n.deviceStarts ≤ n.device)
    (h : Tracks v₀ v { n with
        device := n.device + 1
        deviceStarts := n.deviceStarts + if first then 1 else 0
        deviceEnds := n.deviceEnds + if last then 1 else 0 }) :
    Tracks v₀ (v.unshareToDevice perm first last) n := by
  have hone : (v.info.deviceUseCount == 1) = decide (n.device = 0) := by
    rw [h.deviceUseCount, Bool.eq_iff_iff]
    simp
  -- the left count is at most the uses that are left, so cutting it does nothing
  have hcount : v.unshareLeftCount first = n.deviceStarts := by
    unfold PageState.unshareLeftCount
    rw [h.deviceDisableMergeLeftCount, h.deviceUseCount, decU16_succ]
    cases first with
    | false => simp [Nat.min_eq_left hs]
    | true => simp [Nat.min_eq_left hs]
  refine ⟨h.memoryState, h.ipcLockCount, ?_, ?_, h.permission, h.originalPermission,
    h.ipcDisableMergeCount, hcount, ?_, ?_, ?_⟩
  · change decU16 v.info.deviceUseCount = _
    rw [h.deviceUseCount, decU16_succ]
  · change (if v.info.deviceUseCount == 1 then v.info.memoryAttribute &&& ~~~deviceShared
      else v.info.memoryAttribute) = _
    rw [hone, h.memoryAttribute, withMark_succ]
    by_cases h0 : n.device = 0
    · rw [if_pos (by simp [h0]), h0, withMark_zero]
      exact or_and_not_self (withMark_and hu.attribute_bits.2 rfl)
    · obtain ⟨k, hk⟩ := Nat.exists_eq_succ_of_ne_zero h0
      rw [if_neg (by simp [h0]), hk]
      rfl
  · cases last with
    | false => exact h.deviceDisableMergeRightCount
    | true =>
      change decU16 v.deviceDisableMergeRightCount = _
      rw [h.deviceDisableMergeRightCount]
      exact decU16_succ _
  · change (if !(first && v.deviceDisableMergeLeftCount == 0) && v.unshareLeftCount first == 0 then
      v.leftBits &&& ~~~deviceLeft else v.leftBits) = _
    have hnot : (first && v.deviceDisableMergeLeftCount == 0) = false := by
      rw [h.deviceDisableMergeLeftCount]
      cases first <;> simp
    have hclear : withMark v₀.leftBits ipcLeft n.ipcStarts &&&
        deviceLeft = 0 := withMark_and hu.deviceLeft rfl
    rw [hnot, hcount, h.leftBits]
    by_cases h0 : n.deviceStarts = 0
    · rw [if_pos (by simp [h0]), h0, withMark_zero]
      cases first with
      | false =>
        exact and_not_of_and_eq hclear
      | true => exact or_and_not_self hclear
    · rw [if_neg (by simp [h0])]
      obtain ⟨k, hk⟩ := Nat.exists_eq_succ_of_ne_zero h0
      cases first with
      | false => rfl
      | true =>
        rw [hk]
        rfl
  · cases last with
    | false => exact h.rightBits
    | true =>
      change (if v.deviceDisableMergeRightCount == 1 then
        v.rightBits &&& ~~~deviceRight else v.rightBits) = _
      rw [h.deviceDisableMergeRightCount, h.rightBits]
      by_cases h0 : n.deviceEnds = 0
      · rw [if_pos (by simp [h0]), h0, withMark_zero]
        exact or_and_not_self rfl
      · obtain ⟨k, hk⟩ := Nat.exists_eq_succ_of_ne_zero h0
        rw [if_neg (by simp [h0]), hk]
        rfl

end Tracks

end Kernel
end Citron
