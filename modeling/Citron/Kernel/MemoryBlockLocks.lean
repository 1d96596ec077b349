/-
# The lock functions on a page and its borders

`LockForIpc`, `UnlockForIpc`, `ShareToDevice` and `UnshareToDevice` on a block
of the locked range do to each of its pages, and to the borders the page lies
at, what they would do to a block of that page alone (`pageState_lockForIpc`
and the theorems after it), and keep every disable-merge bit in step with its
count, as long as no count wraps (`MarksOk.lockForIpc` and those after it).
-/
import Citron.Kernel.MemoryBlockMarks

namespace Citron
namespace Kernel

open Lib KMemoryBlockDisableMergeAttribute

/-! ### The lock functions on a page and its borders -/

namespace PageState

/-- `LockForIpc` on the block of a page, which may be the first of the range. -/
def lockForIpc (v : PageState) (perm : KMemoryPermission) (first : Bool) : PageState :=
  { v with
    info := MemoryBlockLockFunction.lockForIpc.onPage perm v.info
    ipcDisableMergeCount := if first then incU16 v.ipcDisableMergeCount else v.ipcDisableMergeCount
    leftBits := if first then v.leftBits ||| ipcLeft else v.leftBits }

def unlockForIpc (v : PageState) (perm : KMemoryPermission) (first : Bool) : PageState :=
  { v with
    info := MemoryBlockLockFunction.unlockForIpc.onPage perm v.info
    ipcDisableMergeCount := if first then decU16 v.ipcDisableMergeCount else v.ipcDisableMergeCount
    leftBits :=
      if first && v.ipcDisableMergeCount == 1 then
        v.leftBits &&& ~~~ipcLeft
      else v.leftBits }

def shareToDevice (v : PageState) (perm : KMemoryPermission) (first last : Bool) : PageState :=
  { v with
    info := MemoryBlockLockFunction.shareToDevice.onPage perm v.info
    deviceDisableMergeLeftCount :=
      if first then incU16 v.deviceDisableMergeLeftCount else v.deviceDisableMergeLeftCount
    leftBits :=
      if first then v.leftBits ||| deviceLeft else v.leftBits
    deviceDisableMergeRightCount :=
      if last then incU16 v.deviceDisableMergeRightCount else v.deviceDisableMergeRightCount
    rightBits :=
      if last then v.rightBits ||| deviceRight else v.rightBits }

/-- The count of a left border after `UnshareToDevice`: it is given back on the
first page, and never more than the device's uses of the page. -/
def unshareLeftCount (v : PageState) (first : Bool) : ℕ :=
  if first && v.deviceDisableMergeLeftCount == 0 then 0
  else min (if first then decU16 v.deviceDisableMergeLeftCount else v.deviceDisableMergeLeftCount)
    (decU16 v.info.deviceUseCount)

def unshareToDevice (v : PageState) (perm : KMemoryPermission) (first last : Bool) : PageState :=
  { v with
    info := MemoryBlockLockFunction.unshareToDevice.onPage perm v.info
    deviceDisableMergeLeftCount := v.unshareLeftCount first
    leftBits :=
      if !(first && v.deviceDisableMergeLeftCount == 0) && v.unshareLeftCount first == 0 then
        v.leftBits &&& ~~~deviceLeft
      else v.leftBits
    deviceDisableMergeRightCount :=
      if last then decU16 v.deviceDisableMergeRightCount else v.deviceDisableMergeRightCount
    rightBits :=
      if last && v.deviceDisableMergeRightCount == 1 then
        v.rightBits &&& ~~~deviceRight
      else v.rightBits }

end PageState

/-! ### The bits of the two sides -/

section Bits

/-- Setting or clearing a bit of the left side, seen from both sides. -/
theorem leftBit_sides : ∀ m ∈ [ipcLeft, deviceLeft], ∀ x : BitVec 8,
    (x ||| m) &&& allLeft = (x &&& allLeft) ||| m ∧ (x ||| m) &&& allRight = x &&& allRight ∧
    (x &&& ~~~m) &&& allLeft = (x &&& allLeft) &&& ~~~m ∧ (x &&& ~~~m) &&& allRight = x &&& allRight := by
  decide

theorem rightBit_sides : ∀ x : BitVec 8,
    (x ||| deviceRight) &&& allLeft = x &&& allLeft ∧
    (x ||| deviceRight) &&& allRight = (x &&& allRight) ||| deviceRight ∧
    (x &&& ~~~deviceRight) &&& allLeft = x &&& allLeft ∧
    (x &&& ~~~deviceRight) &&& allRight = (x &&& allRight) &&& ~~~deviceRight := by
  decide

/-- Setting or clearing one bit changes no other, and adds no unknown bit. -/
theorem bit_set : ∀ m ∈ [ipcLeft, deviceLeft, deviceRight], ∀ x : BitVec 8,
    ((x ||| m).getLsbD 1 = (x.getLsbD 1 || m.getLsbD 1)) ∧ ((x ||| m).getLsbD 2 = (x.getLsbD 2 || m.getLsbD 2)) ∧
    ((x ||| m).getLsbD 4 = (x.getLsbD 4 || m.getLsbD 4)) ∧ ((x &&& ~~~m).getLsbD 1 = (x.getLsbD 1 && !m.getLsbD 1)) ∧
    ((x &&& ~~~m).getLsbD 2 = (x.getLsbD 2 && !m.getLsbD 2)) ∧ ((x &&& ~~~m).getLsbD 4 = (x.getLsbD 4 && !m.getLsbD 4)) ∧
    ((x &&& allLeft) ||| (x &&& allRight) = x →
      ((x ||| m) &&& allLeft) ||| ((x ||| m) &&& allRight) = x ||| m ∧
      ((x &&& ~~~m) &&& allLeft) ||| ((x &&& ~~~m) &&& allRight) = x &&& ~~~m) := by
  decide

end Bits

namespace KMemoryBlock

variable (b : KMemoryBlock) (perm : KMemoryPermission) (left right : Bool)

theorem lockForIpc_bits :
    (b.lockForIpc perm left right).leftBits =
      (if left then b.leftBits ||| ipcLeft else b.leftBits) ∧
    (b.lockForIpc perm left right).rightBits = b.rightBits := by
  have h := leftBit_sides _ (List.mem_cons_self ..) b.disableMergeAttribute
  cases left with
  | false => exact ⟨rfl, rfl⟩
  | true => exact ⟨h.1, h.2.1⟩

theorem unlockForIpc_bits :
    (b.unlockForIpc perm left right).leftBits =
      (if left && b.ipcDisableMergeCount == 1 then
        b.leftBits &&& ~~~ipcLeft else b.leftBits) ∧
    (b.unlockForIpc perm left right).rightBits = b.rightBits := by
  have h := leftBit_sides _ (List.mem_cons_self ..) b.disableMergeAttribute
  simp only [unlockForIpc, leftBits, rightBits]
  split_ifs
  · exact ⟨h.2.2.1, h.2.2.2⟩
  · exact ⟨rfl, rfl⟩

theorem shareToDevice_bits :
    (b.shareToDevice perm left right).leftBits =
      (if left then b.leftBits ||| deviceLeft else b.leftBits) ∧
    (b.shareToDevice perm left right).rightBits =
      (if right then b.rightBits ||| deviceRight else b.rightBits) := by
  have hl := leftBit_sides deviceLeft (by simp) b.disableMergeAttribute
  have hr := rightBit_sides b.disableMergeAttribute
  have hlr := rightBit_sides (b.disableMergeAttribute ||| deviceLeft)
  cases left <;> cases right
  · exact ⟨rfl, rfl⟩
  · exact ⟨hr.1, hr.2.1⟩
  · exact ⟨hl.1, hl.2.1⟩
  · exact ⟨hlr.1.trans hl.1, hlr.2.1.trans (congrArg (· ||| _) hl.2.1)⟩

/-- The count of the left border after `UnshareToDevice`. -/
theorem unshareToDevice_leftCount :
    (b.unshareToDevice perm left right).deviceDisableMergeLeftCount =
      if left && b.deviceDisableMergeLeftCount == 0 then 0
      else min (if left then decU16 b.deviceDisableMergeLeftCount else b.deviceDisableMergeLeftCount)
        (decU16 b.deviceUseCount) := by
  change (if left && b.deviceDisableMergeLeftCount == 0 then b.deviceDisableMergeLeftCount else _) = _
  split_ifs with h
  · simp only [Bool.and_eq_true, beq_iff_eq] at h
    exact h.2
  · rfl
  · rfl

theorem unshareLeft_bits :
    (b.updateDeviceDisableMergeStateForUnshareLeft perm left right).leftBits =
      (if !(left && b.deviceDisableMergeLeftCount == 0) &&
          (b.updateDeviceDisableMergeStateForUnshareLeft perm left right).deviceDisableMergeLeftCount
            == 0 then
        b.leftBits &&& ~~~deviceLeft else b.leftBits) ∧
    (b.updateDeviceDisableMergeStateForUnshareLeft perm left right).rightBits = b.rightBits := by
  have h := leftBit_sides deviceLeft (by simp) b.disableMergeAttribute
  simp only [updateDeviceDisableMergeStateForUnshareLeft, leftBits, rightBits]
  by_cases hret : (left && b.deviceDisableMergeLeftCount == 0) = true
  · simp only [hret, Bool.not_true, Bool.false_and, Bool.false_eq_true, if_false, and_self]
  · simp only [hret, Bool.not_false, Bool.true_and, Bool.false_eq_true, if_false]
    generalize (min _ _ == 0) = n
    cases n
    · exact ⟨rfl, rfl⟩
    · exact ⟨h.2.2.1, h.2.2.2⟩

theorem unshareRight_bits :
    (b.updateDeviceDisableMergeStateForUnshareRight perm left right).leftBits = b.leftBits ∧
    (b.updateDeviceDisableMergeStateForUnshareRight perm left right).rightBits =
      (if right && b.deviceDisableMergeRightCount == 1 then
        b.rightBits &&& ~~~deviceRight else b.rightBits) := by
  have h := rightBit_sides b.disableMergeAttribute
  simp only [updateDeviceDisableMergeStateForUnshareRight, leftBits, rightBits]
  split_ifs
  · exact ⟨h.2.2.1, h.2.2.2⟩
  · exact ⟨rfl, rfl⟩

theorem unshareToDevice_bits :
    (b.unshareToDevice perm left right).leftBits =
      (if !(left && b.deviceDisableMergeLeftCount == 0) &&
          (b.unshareToDevice perm left right).deviceDisableMergeLeftCount == 0 then
        b.leftBits &&& ~~~deviceLeft else b.leftBits) ∧
    (b.unshareToDevice perm left right).rightBits =
      (if right && b.deviceDisableMergeRightCount == 1 then
        b.rightBits &&& ~~~deviceRight else b.rightBits) := by
  have hl := b.dropDeviceUse.unshareLeft_bits perm left right
  have hr := (b.dropDeviceUse.updateDeviceDisableMergeStateForUnshareLeft perm left
    right).unshareRight_bits perm left right
  exact ⟨hr.1.trans hl.1, hr.2.trans (by rw [hl.2]; rfl)⟩

end KMemoryBlock

/-! ### Blocks and pages -/

section PageStates

variable {c : KMemoryBlock} {start stop p : ℕ} (perm : KMemoryPermission)

/-- The page states of a block that takes the place of `c`. -/
theorem pageState_of_place (b c : KMemoryBlock) (p : ℕ) (ha : b.address = c.address)
    (he : b.getEndAddress = c.getEndAddress) : b.pageState p =
      { info := b.pageInfo
        ipcDisableMergeCount := if c.address = p then b.ipcDisableMergeCount else 0
        deviceDisableMergeLeftCount := if c.address = p then b.deviceDisableMergeLeftCount else 0
        leftBits := if c.address = p then b.leftBits else 0
        deviceDisableMergeRightCount :=
          if c.getEndAddress = p + PageSize then b.deviceDisableMergeRightCount else 0
        rightBits := if c.getEndAddress = p + PageSize then b.rightBits else 0 } := by
  simp only [KMemoryBlock.pageState, ha, he]

/-- On a page that is not the first of its block the left side is empty, so the
block's left side changes where the page's does. -/
theorem pageState_lockForIpc (right : Bool) (h1 : start ≤ c.address) (h2 : c.address ≤ p) :
    (c.lockForIpc perm (c.address == start) right).pageState p =
      (c.pageState p).lockForIpc perm (p == start) := by
  obtain ⟨hl, hr⟩ := c.lockForIpc_bits perm (c.address == start) right
  rw [pageState_of_place (c.lockForIpc perm (c.address == start) right) c p rfl rfl, hl, hr]
  by_cases hp : c.address = p
  · subst hp
    simp only [KMemoryBlock.pageState, PageState.lockForIpc, if_true]
    rfl
  · have hs : (p == start) = false := by simp; omega
    simp only [KMemoryBlock.pageState, PageState.lockForIpc, if_neg hp, hs, Bool.false_eq_true, if_false]
    rfl

theorem pageState_unlockForIpc (right : Bool) (h1 : start ≤ c.address) (h2 : c.address ≤ p) :
    (c.unlockForIpc perm (c.address == start) right).pageState p =
      (c.pageState p).unlockForIpc perm (p == start) := by
  obtain ⟨hl, hr⟩ := c.unlockForIpc_bits perm (c.address == start) right
  rw [pageState_of_place (c.unlockForIpc perm (c.address == start) right) c p rfl rfl, hl, hr]
  by_cases hp : c.address = p
  · subst hp
    simp only [KMemoryBlock.pageState, PageState.unlockForIpc, if_true]
    rfl
  · have hs : (p == start) = false := by simp; omega
    simp only [KMemoryBlock.pageState, PageState.unlockForIpc, if_neg hp, hs, Bool.false_and,
      Bool.false_eq_true, if_false]
    rfl

section

variable (h1 : start ≤ c.address) (h2 : c.address ≤ p) (h3 : c.getEndAddress ≤ stop) (h4 : p + PageSize ≤ c.getEndAddress)
include h1 h2 h3 h4

/-- The same for the right side, on a page that is not the last of its block. -/
theorem pageState_shareToDevice :
    (c.shareToDevice perm (c.address == start) (c.getEndAddress == stop)).pageState p =
      (c.pageState p).shareToDevice perm (p == start) (p + PageSize == stop) := by
  obtain ⟨hl, hr⟩ := c.shareToDevice_bits perm (c.address == start) (c.getEndAddress == stop)
  rw [pageState_of_place
    (c.shareToDevice perm (c.address == start) (c.getEndAddress == stop)) c p rfl rfl, hl, hr]
  have hs : c.address ≠ p → (p == start) = false := fun hp => by simp; omega
  have he : c.getEndAddress ≠ p + PageSize → (p + PageSize == stop) = false := fun hp => by
    simp only [PageSize] at *; simp; omega
  by_cases hp : c.address = p <;> by_cases hq : c.getEndAddress = p + PageSize
  · rw [← hq]
    subst hp
    simp only [KMemoryBlock.pageState, PageState.shareToDevice, if_true, ← hq]
    rfl
  · subst hp
    simp only [KMemoryBlock.pageState, PageState.shareToDevice, if_true, if_neg hq, he hq,
      Bool.false_eq_true, if_false]
    rfl
  · rw [← hq]
    simp only [KMemoryBlock.pageState, PageState.shareToDevice, if_true, if_neg hp, hs hp, ← hq,
      Bool.false_eq_true, if_false]
    rfl
  · simp only [KMemoryBlock.pageState, PageState.shareToDevice, if_neg hp, if_neg hq, hs hp, he hq,
      Bool.false_eq_true, if_false]
    rfl

theorem pageState_unshareToDevice :
    (c.unshareToDevice perm (c.address == start) (c.getEndAddress == stop)).pageState p =
      (c.pageState p).unshareToDevice perm (p == start) (p + PageSize == stop) := by
  obtain ⟨hl, hr⟩ := c.unshareToDevice_bits perm (c.address == start) (c.getEndAddress == stop)
  have hn := c.unshareToDevice_leftCount perm (c.address == start) (c.getEndAddress == stop)
  rw [pageState_of_place
    (c.unshareToDevice perm (c.address == start) (c.getEndAddress == stop)) c p rfl rfl, hl, hr, hn]
  have hs : c.address ≠ p → (p == start) = false := fun hp => by simp; omega
  have he : c.getEndAddress ≠ p + PageSize → (p + PageSize == stop) = false := fun hp => by
    simp only [PageSize] at *; simp; omega
  by_cases hp : c.address = p <;> by_cases hq : c.getEndAddress = p + PageSize
  · rw [← hq]
    subst hp
    simp only [KMemoryBlock.pageState, PageState.unshareToDevice, PageState.unshareLeftCount, if_true,
      ← hq]
    rfl
  · subst hp
    simp only [KMemoryBlock.pageState, PageState.unshareToDevice, PageState.unshareLeftCount, if_true,
      if_neg hq, he hq, Bool.false_and, Bool.false_eq_true, if_false]
    rfl
  · rw [← hq]
    simp only [KMemoryBlock.pageState, PageState.unshareToDevice, PageState.unshareLeftCount, if_true,
      if_neg hp, hs hp, ← hq, Bool.false_and, Bool.false_eq_true, if_false, Nat.zero_min]
    rfl
  · simp only [KMemoryBlock.pageState, PageState.unshareToDevice, PageState.unshareLeftCount, if_neg hp,
      if_neg hq, hs hp, he hq, Bool.false_and, Bool.false_eq_true, if_false, Nat.zero_min]
    rfl

end

end PageStates

/-! ### The marks stay in order -/

section Marks

variable {x : KMemoryBlockDisableMergeAttribute} {i l r : ℕ}

section

variable (h : Marked x i l r)
include h

theorem Marked.setIpc : Marked (x ||| ipcLeft) (i + 1) l r := by
  obtain ⟨h1, h2, h4, -, -, -, hk⟩ := bit_set ipcLeft (by simp) x
  exact ⟨by simp, by simpa [h1] using h.leftBit, by simpa [h4] using h.rightBit,
    (hk h.known).1⟩

theorem Marked.clearIpc : Marked (x &&& ~~~ipcLeft) 0 l r := by
  obtain ⟨-, -, -, h1, h2, h4, hk⟩ := bit_set ipcLeft (by simp) x
  exact ⟨by simp, by simpa [h1] using h.leftBit, by simpa [h4] using h.rightBit,
    (hk h.known).2⟩

theorem Marked.setLeft : Marked (x ||| deviceLeft) i (l + 1) r := by
  obtain ⟨h1, h2, h4, -, -, -, hk⟩ := bit_set deviceLeft (by simp) x
  exact ⟨by simpa [h2] using h.ipcBit, by simp, by simpa [h4] using h.rightBit, (hk h.known).1⟩

theorem Marked.clearLeft : Marked (x &&& ~~~deviceLeft) i 0 r := by
  obtain ⟨-, -, -, h1, h2, h4, hk⟩ := bit_set deviceLeft (by simp) x
  exact ⟨by simpa [h2] using h.ipcBit, by simp, by simpa [h4] using h.rightBit, (hk h.known).2⟩

theorem Marked.setRight : Marked (x ||| deviceRight) i l (r + 1) := by
  obtain ⟨h1, h2, h4, -, -, -, hk⟩ := bit_set deviceRight (by simp) x
  exact ⟨by simpa [h2] using h.ipcBit, by simpa [h1] using h.leftBit, by simp, (hk h.known).1⟩

theorem Marked.clearRight : Marked (x &&& ~~~deviceRight) i l 0 := by
  obtain ⟨-, -, -, h1, h2, h4, hk⟩ := bit_set deviceRight (by simp) x
  exact ⟨by simpa [h2] using h.ipcBit, by simpa [h1] using h.leftBit, by simp, (hk h.known).2⟩

end

/-- A bit that stays is right for every count that is zero exactly if the old one is. -/
theorem Marked.counts {i' l' r' : ℕ} (h : Marked x i l r) (hi : 0 < i ↔ 0 < i') (hl : 0 < l ↔ 0 < l')
    (hr : 0 < r ↔ 0 < r') : Marked x i' l' r' :=
  ⟨h.ipcBit.trans hi, h.leftBit.trans hl, h.rightBit.trans hr, h.known⟩

theorem decU16_of_pos {n : ℕ} (h : 0 < n) : decU16 n = n - 1 := by
  unfold decU16; rw [if_neg (by omega)]

variable {c : KMemoryBlock} (perm : KMemoryPermission) (left right : Bool)

theorem MarksOk.lockForIpc (h : MarksOk c) (hc : left = true → c.ipcDisableMergeCount + 1 < 65536) :
    MarksOk (c.lockForIpc perm left right) := by
  cases left with
  | false => exact h
  | true =>
    have := h.setIpc
    rwa [← incU16_of_lt (hc rfl)] at this

theorem MarksOk.unlockForIpc (h : MarksOk c) (hc : left = true → 0 < c.ipcDisableMergeCount) :
    MarksOk (c.unlockForIpc perm left right) := by
  cases left with
  | false => exact h
  | true =>
    have hpos := hc rfl
    have hdec := decU16_of_pos hpos
    change Marked (if c.ipcDisableMergeCount == 1 then c.disableMergeAttribute &&& ~~~ipcLeft
      else c.disableMergeAttribute) (decU16 c.ipcDisableMergeCount) _ _
    rw [hdec]
    by_cases h1 : c.ipcDisableMergeCount = 1
    · rw [h1]
      exact h.clearIpc
    · rw [if_neg (by simpa using h1)]
      exact h.counts (by omega) Iff.rfl Iff.rfl

theorem MarksOk.shareToDevice (h : MarksOk c)
    (hl : left = true → c.deviceDisableMergeLeftCount + 1 < 65536)
    (hr : right = true → c.deviceDisableMergeRightCount + 1 < 65536) :
    MarksOk (c.shareToDevice perm left right) := by
  have hleft : Marked
      (if left then c.disableMergeAttribute ||| deviceLeft else c.disableMergeAttribute)
      c.ipcDisableMergeCount
      (if left then incU16 c.deviceDisableMergeLeftCount else c.deviceDisableMergeLeftCount)
      c.deviceDisableMergeRightCount := by
    cases left with
    | false => exact h
    | true =>
      have := h.setLeft
      rwa [← incU16_of_lt (hl rfl)] at this
  cases right with
  | false => exact hleft
  | true =>
    have := hleft.setRight
    rwa [← incU16_of_lt (hr rfl)] at this

theorem MarksOk.unshareLeft (h : MarksOk c) :
    MarksOk (c.updateDeviceDisableMergeStateForUnshareLeft perm left right) := by
  simp only [KMemoryBlock.updateDeviceDisableMergeStateForUnshareLeft]
  by_cases hret : (left && c.deviceDisableMergeLeftCount == 0) = true
  · simp only [hret, Bool.not_true, Bool.false_and, Bool.false_eq_true, if_false, if_true]
    exact h
  · simp only [hret, Bool.not_false, Bool.true_and, Bool.false_eq_true, if_false, beq_iff_eq]
    set n := min (if left then decU16 c.deviceDisableMergeLeftCount else c.deviceDisableMergeLeftCount)
      c.deviceUseCount with hn
    by_cases h0 : n = 0
    · rw [if_pos h0, h0]
      exact h.clearLeft
    · rw [if_neg h0]
      refine h.counts Iff.rfl ⟨fun _ => Nat.pos_of_ne_zero h0, fun _ => ?_⟩ Iff.rfl
      cases left with
      | true => simpa [Nat.pos_iff_ne_zero] using hret
      | false =>
        simp only [Bool.false_eq_true, if_false] at hn
        omega

theorem MarksOk.unshareRight (h : MarksOk c) (hr : right = true → 0 < c.deviceDisableMergeRightCount) :
    MarksOk (c.updateDeviceDisableMergeStateForUnshareRight perm left right) := by
  cases right with
  | false => exact h
  | true =>
    have hpos := hr rfl
    have hdec := decU16_of_pos hpos
    change Marked (if c.deviceDisableMergeRightCount == 1 then c.disableMergeAttribute &&& ~~~deviceRight
      else c.disableMergeAttribute) _ _ (decU16 c.deviceDisableMergeRightCount)
    rw [hdec]
    by_cases h1 : c.deviceDisableMergeRightCount = 1
    · rw [h1]
      exact h.clearRight
    · rw [if_neg (by simpa using h1)]
      exact h.counts Iff.rfl Iff.rfl (by omega)

theorem MarksOk.unshareToDevice (h : MarksOk c)
    (hr : right = true → 0 < c.deviceDisableMergeRightCount) :
    MarksOk (c.unshareToDevice perm left right) :=
  (MarksOk.unshareLeft (c := c.dropDeviceUse) perm left right h).unshareRight perm left right hr

end Marks

end Kernel
end Citron
