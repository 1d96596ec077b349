/-
# What the four operations do to the pages

A run of a manager begins with `Initialize` and goes on with calls of `Update`,
`UpdateIfMatch`, `UpdateLock` and `UpdateAttribute` that keep the assertions of
the code (`Reaches`). In every state of a run the blocks tile the address space
in order, no two neighbours can be merged, and every lock attribute has a count
(`Represents`). A call keeps this and changes exactly the pages that it should,
unless its range starts inside the first block of the address space and that
block passes the test by which the loop leaves blocks alone: then
`CoalesceForUpdate` steps back to the null node and reads it
(`run_correct_iff`).
-/
import Citron.Kernel.MemoryBlockCoalesce

namespace Citron
namespace Kernel

open Lib KMemoryAttribute

/-! ### The lock functions on a page -/

/-- A block that says this of its pages. -/
def PageInfo.block (i : PageInfo) : KMemoryBlock :=
  { memoryState := i.memoryState
    permission := i.permission
    originalPermission := i.originalPermission
    memoryAttribute := i.memoryAttribute
    ipcLockCount := i.ipcLockCount
    deviceUseCount := i.deviceUseCount }

namespace MemoryBlockLockFunction

/-- The lock function applied once to a page. -/
def onPage (f : MemoryBlockLockFunction) (perm : KMemoryPermission) (i : PageInfo) : PageInfo :=
  (f.call i.block perm false false).pageInfo

/-- A lock function treats all pages of a block alike, and does so whether the
block is at an end of the range or not. -/
theorem call_pageInfo (f : MemoryBlockLockFunction) (b : KMemoryBlock) (perm : KMemoryPermission)
    (left right : Bool) : (f.call b perm left right).pageInfo = f.onPage perm b.pageInfo := by
  cases f <;> rfl

theorem call_place (f : MemoryBlockLockFunction) (b : KMemoryBlock) (perm : KMemoryPermission)
    (left right : Bool) : (f.call b perm left right).address = b.address ∧
      (f.call b perm left right).numPages = b.numPages := by
  cases f <;> exact ⟨rfl, rfl⟩

/-- `assert(new_lock_count > 0)` and `assert(new_count > 0)`. -/
def asserts (f : MemoryBlockLockFunction) (i : PageInfo) : Prop :=
  match f with
  | .lockForIpc => 0 < incU16 i.ipcLockCount
  | .shareToDevice => 0 < incU16 i.deviceUseCount
  | _ => True

end MemoryBlockLockFunction

/-! ### Attribute bits -/

theorem and_ipcLocked_ne {x : KMemoryAttribute} : x &&& ipcLocked ≠ 0 ↔ x[1] = true := by
  revert x
  decide

theorem and_deviceShared_ne {x : KMemoryAttribute} :
    x &&& deviceShared ≠ 0 ↔ x[2] = true := by
  revert x
  decide

theorem and_ignoreMask_eq {x : KMemoryAttribute} :
    x &&& ignoreMask = 0 ↔ x[1] = false ∧ x[2] = false := by
  revert x
  decide

/-- An attribute that agrees away from `m` is the new one with the old bits of `m`. -/
theorem or_and_of_or_eq {x a m : BitVec 8} (h : x ||| m = a ||| m) (ha : a &&& m = 0) :
    a ||| (x &&& m) = x := by
  ext i hi
  have h1 := congrArg (fun v => v[i]) h
  have h2 := congrArg (fun v => v[i]) ha
  simp only [BitVec.getElem_or, BitVec.getElem_and] at h1 h2 ⊢
  cases ha : a[i] <;> cases hx : x[i] <;> cases hm : m[i] <;> simp_all

/-- An attribute that has the bits `a` under the mask is its own update. -/
theorem and_not_or_of_and_eq {x a m : BitVec 8} (h : x &&& m = a) : (x &&& ~~~m) ||| a = x := by
  subst h
  ext i hi
  simp only [BitVec.getElem_or, BitVec.getElem_and, BitVec.getElem_not]
  cases x[i] <;> cases m[i] <;> rfl

/-- A lock attribute has a count, and the counts are `u16`. -/
structure PageInfo.CountsOk (i : PageInfo) : Prop where
  ipc_lt : i.ipcLockCount < 65536
  device_lt : i.deviceUseCount < 65536
  ipc : i.memoryAttribute[1] = true → 0 < i.ipcLockCount
  device : i.memoryAttribute[2] = true → 0 < i.deviceUseCount

theorem checkCounts_iff {b : KMemoryBlock} : KMemoryBlockManager.checkCounts b = true ↔
    (b.memoryAttribute[1] = true → 0 < b.ipcLockCount) ∧
      (b.memoryAttribute[2] = true → 0 < b.deviceUseCount) := by
  simp only [KMemoryBlockManager.checkCounts, Bool.and_eq_true, Bool.not_eq_true', Bool.and_eq_false_iff,
    bne_eq_false_iff_eq, beq_eq_false_iff_ne, ← and_ipcLocked_ne, ← and_deviceShared_ne]
  constructor
  · rintro ⟨h1, h2⟩
    exact ⟨fun h => Nat.pos_of_ne_zero (h1.resolve_left h), fun h => Nat.pos_of_ne_zero (h2.resolve_left h)⟩
  · rintro ⟨h1, h2⟩
    exact ⟨or_iff_not_imp_left.mpr fun h => (h1 h).ne', or_iff_not_imp_left.mpr fun h => (h2 h).ne'⟩

theorem MemoryBlockLockFunction.onPage_countsOk (f : MemoryBlockLockFunction)
    (perm : KMemoryPermission) {i : PageInfo} (h : i.CountsOk) (ha : f.asserts i) :
    (f.onPage perm i).CountsOk := by
  obtain ⟨h1, h2, h3, h4⟩ := h
  -- giving back a device's use, which two of the functions do
  have hdrop : (i.block.dropDeviceUse).pageInfo.CountsOk := by
    by_cases hc : i.deviceUseCount = 1
    · refine ⟨h1, decU16_lt h2, ?_, ?_⟩ <;>
        simp [KMemoryBlock.pageInfo, KMemoryBlock.dropDeviceUse, PageInfo.block, hc]
      exact h3
    · refine ⟨h1, decU16_lt h2, ?_, fun _ => decU16_pos hc⟩
      simpa [KMemoryBlock.pageInfo, KMemoryBlock.dropDeviceUse, PageInfo.block, hc] using h3
  cases f with
  | shareToDevice =>
    refine ⟨h1, incU16_lt _, fun h => h3 ?_, fun _ => ha⟩
    have h' : (i.memoryAttribute ||| deviceShared)[1] = true := h
    simpa using h'
  | lockForIpc =>
    refine ⟨incU16_lt _, h2, fun _ => ha, fun h => h4 ?_⟩
    have h' : (i.memoryAttribute ||| ipcLocked)[2] = true := h
    simpa using h'
  | unshareToDevice => exact hdrop
  | unshareToDeviceRight => exact hdrop
  | unlockForIpc =>
    by_cases hc : i.ipcLockCount = 1
    · refine ⟨decU16_lt h1, h2, ?_, ?_⟩ <;>
        simp [onPage, call, KMemoryBlock.pageInfo, KMemoryBlock.unlockForIpc, PageInfo.block, hc]
      exact h4
    · refine ⟨decU16_lt h1, h2, fun _ => decU16_pos hc, ?_⟩
      simpa [onPage, call, KMemoryBlock.pageInfo, KMemoryBlock.unlockForIpc, PageInfo.block, hc] using h4
  | _ => exact ⟨h1, h2, h3, h4⟩

/-! ### The operations -/

/-- A call of one of the four operations, but for its range. -/
inductive MemoryBlockOperation
  | update (state : KMemoryState) (perm : KMemoryPermission) (attr : KMemoryAttribute)
    (setDisableAttr clearDisableAttr : KMemoryBlockDisableMergeAttribute)
  | updateIfMatch (testState : KMemoryState) (testPerm : KMemoryPermission)
    (testAttr : KMemoryAttribute) (state : KMemoryState) (perm : KMemoryPermission)
    (attr : KMemoryAttribute) (setDisableAttr clearDisableAttr : KMemoryBlockDisableMergeAttribute)
  | updateLock (lockFunc : MemoryBlockLockFunction) (perm : KMemoryPermission)
  | updateAttribute (mask attr : KMemoryAttribute)
deriving DecidableEq, Repr

/-- `HasProperties` of the block of a page. -/
def PageInfo.hasProperties (i : PageInfo) (s : KMemoryState) (p : KMemoryPermission)
    (a : KMemoryAttribute) : Bool := i.block.hasProperties s p a

namespace MemoryBlockOperation

def run (op : MemoryBlockOperation) (m : KMemoryBlockManager)
    (allocator : KMemoryBlockManagerUpdateAllocator) (address numPages : ℕ) :
    Except Fault (KMemoryBlockManager × KMemoryBlockManagerUpdateAllocator) :=
  match op with
  | .update state perm attr setDisableAttr clearDisableAttr =>
    m.update allocator address numPages state perm attr setDisableAttr clearDisableAttr
  | .updateIfMatch testState testPerm testAttr state perm attr setDisableAttr clearDisableAttr =>
    m.updateIfMatch allocator address numPages testState testPerm testAttr state perm attr
      setDisableAttr clearDisableAttr
  | .updateLock lockFunc perm => m.updateLock allocator address numPages lockFunc perm
  | .updateAttribute mask attr => m.updateAttribute allocator address numPages mask attr

/-- What the operation is to make of a page of its range. -/
def onPage : MemoryBlockOperation → PageInfo → PageInfo
  | .update state perm attr _ _, i =>
    { i with
      memoryState := state
      permission := perm
      memoryAttribute := attr ||| (i.memoryAttribute &&& ignoreMask) }
  | .updateIfMatch testState testPerm testAttr state perm attr _ _, i =>
    if i.hasProperties testState testPerm testAttr then
      { i with
        memoryState := state
        permission := perm
        memoryAttribute := attr ||| (i.memoryAttribute &&& ignoreMask) }
    else i
  | .updateLock lockFunc perm, i => lockFunc.onPage perm i
  | .updateAttribute mask attr, i =>
    { i with memoryAttribute := (i.memoryAttribute &&& ~~~mask) ||| attr }

/-- The test by which the loop leaves a block as it is. -/
def skips : MemoryBlockOperation → KMemoryBlock → Bool
  | .update state perm attr _ _, b => b.hasProperties state perm attr
  | .updateIfMatch testState testPerm testAttr state perm attr _ _, b =>
    !(b.hasProperties testState testPerm testAttr && !b.hasProperties state perm attr)
  | .updateLock _ _, _ => false
  | .updateAttribute mask attr, b => b.memoryAttribute &&& mask == attr

/-- What the loop makes of any other block, once it is cut to the range. -/
def change (address numPages : ℕ) : MemoryBlockOperation → KMemoryBlock → KMemoryBlock
  | .update state perm attr setDisableAttr clearDisableAttr, b =>
    b.update state perm attr (b.address == address) setDisableAttr clearDisableAttr
  | .updateIfMatch _ _ _ state perm attr setDisableAttr clearDisableAttr, b =>
    b.update state perm attr false setDisableAttr clearDisableAttr
  | .updateLock lockFunc perm, b =>
    lockFunc.call b perm (b.address == address) (b.getEndAddress == address + numPages * PageSize)
  | .updateAttribute mask attr, b => b.updateAttribute mask attr

/-- The assertions about the arguments (`attr` inside `mask` is checked by the
callers of `UpdateAttribute`), and those that a counter does not overflow. -/
def Asserts (op : MemoryBlockOperation) (m : KMemoryBlockManager) (address numPages : ℕ) : Prop :=
  match op with
  | .update _ _ attr _ _ => attr &&& ignoreMask = 0
  | .updateIfMatch _ _ _ _ _ attr _ _ => attr &&& ignoreMask = 0
  | .updateLock lockFunc _ => ∀ b ∈ m.tree, address < b.getEndAddress →
      b.address < address + numPages * PageSize → lockFunc.asserts b.pageInfo
  | .updateAttribute mask attr => mask &&& ignoreMask = 0 ∧ attr &&& ~~~mask = 0

variable {op : MemoryBlockOperation} {m : KMemoryBlockManager}
  {allocator : KMemoryBlockManagerUpdateAllocator} {address numPages : ℕ}

theorem run_eq (op : MemoryBlockOperation) : op.run m allocator address numPages =
    updateRange op.skips (op.change address numPages) m allocator address numPages := by
  cases op <;> rfl

theorem change_keepsPlace (op : MemoryBlockOperation) (address numPages : ℕ) :
    KeepsPlace (op.change address numPages) := by
  intro b
  cases op with
  | updateLock f perm => exact f.call_place b perm _ _
  | _ => exact ⟨rfl, rfl⟩

/-- What a changed block says of its pages depends only on what the block said of them. -/
theorem change_pageInfo_block (op : MemoryBlockOperation) (b : KMemoryBlock) :
    (op.change address numPages b).pageInfo =
      (op.change address numPages b.pageInfo.block).pageInfo := by
  cases op with
  | updateLock f perm =>
    exact (f.call_pageInfo b perm _ _).trans (f.call_pageInfo b.pageInfo.block perm _ _).symm
  | _ => rfl

/-- A changed block says of its pages what the operation is to make of them. -/
theorem change_pageInfo (op : MemoryBlockOperation) (b : KMemoryBlock) (h : op.skips b = false) :
    (op.change address numPages b).pageInfo = op.onPage b.pageInfo := by
  cases op with
  | updateLock f perm => exact f.call_pageInfo b perm _ _
  | updateIfMatch ts tp ta s p a sd cd =>
    have htest : b.pageInfo.hasProperties ts tp ta = true := by
      simp only [skips, Bool.not_eq_false', Bool.and_eq_true] at h
      exact h.1
    simp only [onPage, htest, if_true]
    rfl
  | _ => rfl

/-- A block that is left as it is has pages that the operation would not change. -/
theorem onPage_of_skips (op : MemoryBlockOperation) (ha : op.Asserts m address numPages) (b : KMemoryBlock)
    (h : op.skips b = true) : op.onPage b.pageInfo = b.pageInfo := by
  have hprop : ∀ {s p a}, b.hasProperties s p a = true → a &&& ignoreMask = 0 →
      ({ b.pageInfo with
        memoryState := s
        permission := p
        memoryAttribute := a ||| (b.memoryAttribute &&& ignoreMask) } : PageInfo) =
        b.pageInfo := by
    intro s p a hb ha
    simp only [KMemoryBlock.hasProperties, Bool.and_eq_true, beq_iff_eq] at hb
    obtain ⟨⟨rfl, rfl⟩, hattr⟩ := hb
    rw [or_and_of_or_eq hattr ha]
    rfl
  cases op with
  | update s p a sd cd => exact hprop h ha
  | updateIfMatch ts tp ta s p a sd cd =>
    simp only [onPage]
    split_ifs with htest
    · have htest' : b.hasProperties ts tp ta = true := htest
      simp only [skips, htest', Bool.true_and, Bool.not_not] at h
      exact hprop h ha
    · rfl
  | updateLock => cases h
  | updateAttribute mask attr =>
    simp only [skips, beq_iff_eq] at h
    simp only [onPage, KMemoryBlock.pageInfo, and_not_or_of_and_eq h]

/-- The counts of a page stay in order. -/
theorem onPage_countsOk (op : MemoryBlockOperation) (ha : op.Asserts m address numPages) {i : PageInfo} (h : i.CountsOk)
    (hlock : ∀ f perm, op = .updateLock f perm → f.asserts i) : (op.onPage i).CountsOk := by
  have hprop : ∀ {s p a}, a &&& ignoreMask = 0 →
      ({ i with
        memoryState := s
        permission := p
        memoryAttribute := a ||| (i.memoryAttribute &&& ignoreMask) } :
        PageInfo).CountsOk := by
    intro s p a ha
    obtain ⟨h3, h4⟩ := and_ignoreMask_eq.mp ha
    exact ⟨h.ipc_lt, h.device_lt, by simpa [h3] using h.ipc, by simpa [h4] using h.device⟩
  cases op with
  | update s p a sd cd => exact hprop ha
  | updateIfMatch ts tp ta s p a sd cd =>
    simp only [onPage]
    split_ifs
    · exact hprop ha
    · exact h
  | updateLock f perm => exact f.onPage_countsOk perm h (hlock f perm rfl)
  | updateAttribute mask attr =>
    obtain ⟨h3, h4⟩ := and_ignoreMask_eq.mp ha.1
    have hbit : ∀ k (hk : k < 8), mask[k] = false → attr[k] = false := fun k hk hm => by
      have := congrArg (fun v => v[k]) ha.2
      simpa [hm] using this
    exact ⟨h.ipc_lt, h.device_lt, by simpa [onPage, h3, hbit 1 (by decide) h3] using h.ipc,
      by simpa [onPage, h4, hbit 2 (by decide) h4] using h.device⟩

end MemoryBlockOperation

/-! ### Runs -/

/-- The view of a page as its info; a good block has its counts in order. -/
def infoView : BlockView PageInfo where
  good b := b.pageInfo.CountsOk
  view b _ := b.pageInfo
  good_split _ _ h := ⟨h, h⟩
  good_add _ _ h _ _ := h
  view_left _ _ _ _ _ _ _ _ _ := rfl
  view_right _ _ _ _ _ _ _ _ _ := rfl
  view_add_left _ _ _ _ _ _ _ _ _ _ _ _ := rfl
  view_add_right _ _ _ _ _ _ h _ _ _ _ _ := (KMemoryBlock.canMergeWith_iff.mp h).1

/-- What the manager says of a page. -/
def pageInfoAt (m : KMemoryBlockManager) (p : ℕ) : Option PageInfo := infoView.viewAt m.tree p

/-- A call that keeps the assertions, with a block for each split at an end of its range. -/
structure Callable (op : MemoryBlockOperation) (m : KMemoryBlockManager)
    (allocator : KMemoryBlockManagerUpdateAllocator) (address numPages : ℕ) : Prop where
  range : InRange m address numPages
  asserts : op.Asserts m address numPages
  room : splitsNeeded m address numPages ≤ allocator.blocks.length

/-- The managers of a run. -/
inductive Reaches : KMemoryBlockManager → Prop
  | initializeManager {st nd : ℕ} (hst : PageSize ∣ st) (hnd : PageSize ∣ nd) (h : st < nd) :
    Reaches (.initializeManager st nd)
  | call {m m' : KMemoryBlockManager} {op : MemoryBlockOperation}
      {allocator allocator' : KMemoryBlockManagerUpdateAllocator} {address numPages : ℕ}
      (hm : Reaches m) (hc : Callable op m allocator address numPages)
      (hr : op.run m allocator address numPages = .ok (m', allocator')) : Reaches m'

/-- The blocks, in strict order, cover the address space without a gap, and
`CheckState` holds. -/
structure Represents (m : KMemoryBlockManager) : Prop where
  sorted : m.tree.Pairwise fun b c => b.address < c.address
  spans : Spans m.startAddress m.tree m.endAddress
  coalesced : Coalesced m.tree
  checkState : m.checkState = true

/-- The call keeps the representation and changes the pages of its range, and no others. -/
def Correct (op : MemoryBlockOperation) (m : KMemoryBlockManager)
    (allocator : KMemoryBlockManagerUpdateAllocator) (address numPages : ℕ) : Prop :=
  ∃ m' allocator', op.run m allocator address numPages = .ok (m', allocator') ∧
    m'.startAddress = m.startAddress ∧ m'.endAddress = m.endAddress ∧ Represents m' ∧
    ∀ p, PageSize ∣ p → pageInfoAt m' p = (pageInfoAt m p).map fun i =>
      if address ≤ p ∧ p < address + numPages * PageSize then op.onPage i else i

/-- What holds in every state of a run. -/
structure RunInv (m : KMemoryBlockManager) : Prop where
  wellFormed : WellFormed m
  nonempty : m.startAddress < m.endAddress
  countsOk : ∀ b ∈ m.tree, b.pageInfo.CountsOk

theorem checkStateFrom_of {prev : KMemoryBlock} {rest : List KMemoryBlock} {a e : ℕ}
    (hs : Spans a (prev :: rest) e) (hc : Coalesced (prev :: rest))
    (hn : ∀ b ∈ prev :: rest, b.pageInfo.CountsOk) :
    KMemoryBlockManager.checkStateFrom prev rest = true := by
  have hcount : ∀ b ∈ prev :: rest, KMemoryBlockManager.checkCounts b = true := fun b hb =>
    checkCounts_iff.mpr ⟨(hn b hb).ipc, (hn b hb).device⟩
  induction rest generalizing prev a with
  | nil => exact hcount prev (by simp)
  | cons cur rest ih =>
    obtain ⟨h1, h2, h3⟩ := hs
    obtain ⟨h4, h5⟩ := List.isChain_cons_cons.mp hc
    have ih' := ih h3 h5 (fun b hb => hn b (List.mem_cons_of_mem _ hb))
      (fun b hb => hcount b (List.mem_cons_of_mem _ hb))
    simp only [KMemoryBlockManager.checkStateFrom, h4, h3.1, ih', hcount cur (by simp), beq_self_eq_true,
      Bool.not_false, Bool.and_true]

theorem RunInv.represents {m : KMemoryBlockManager} (h : RunInv m) : Represents m where
  sorted := h.wellFormed.spans.pairwise_lo
  spans := h.wellFormed.spans
  coalesced := h.wellFormed.coalesced
  checkState := by
    obtain ⟨b, bs, hb, -⟩ := h.wellFormed.spans.exists_cons h.nonempty
    have hs := h.wellFormed.spans
    have hc := h.wellFormed.coalesced
    have hn := h.countsOk
    rw [hb] at hs hc hn
    simp only [KMemoryBlockManager.checkState, hb]
    exact checkStateFrom_of hs hc hn

theorem runInv_initializeManager {st nd : ℕ} (hst : PageSize ∣ st) (hnd : PageSize ∣ nd) (h : st < nd) :
    RunInv (.initializeManager st nd) := by
  have hsize : (nd - st) / PageSize * PageSize = nd - st := Nat.div_mul_cancel (Nat.dvd_sub hnd hst)
  have hend : st + (nd - st) / PageSize * PageSize = nd := by omega
  refine ⟨⟨hst, ⟨rfl, ?_, hend⟩, .singleton _⟩, h, fun b hb => ?_⟩
  · exact h.trans_eq hend.symm
  · obtain rfl : b = _ := List.mem_singleton.mp hb
    refine ⟨Nat.succ_pos _, Nat.succ_pos _, ?_, ?_⟩ <;>
      simp [KMemoryBlock.pageInfo, KMemoryBlock.initializeBlock]

variable {op : MemoryBlockOperation} {m : KMemoryBlockManager}
  {allocator : KMemoryBlockManagerUpdateAllocator} {address numPages : ℕ}

/-- The step lemma: a call that does not start in a head it leaves alone. -/
theorem RunInv.call (hm : RunInv m) (hc : Callable op m allocator address numPages)
    (hok : ¬ StartsInSkippedHead op.skips m address) :
    ∃ l allocator', op.run m allocator address numPages = .ok ({ m with tree := l }, allocator') ∧
      RunInv { m with tree := l } ∧
      ∀ p, PageSize ∣ p → infoView.viewAt l p = (pageInfoAt m p).map fun i =>
        if address ≤ p ∧ p < address + numPages * PageSize then op.onPage i else i := by
  have hst : address < address + numPages * PageSize := by
    have := hc.range.nonempty
    simp only [PageSize]
    omega
  have hed : PageSize ∣ address + numPages * PageSize :=
    Nat.dvd_add hc.range.aligned (Nat.dvd_mul_left ..)
  have hpage : infoView.PageWise (op.change address numPages)
      (fun _ i => (op.change address numPages i.block).pageInfo) address
      (address + numPages * PageSize) := fun c _ _ _ _ _ _ _ => op.change_pageInfo_block c
  have hgood : ∀ b ∈ m.tree.flatMap (pieces op.skips (op.change address numPages) address
      (address + numPages * PageSize)), infoView.good b := by
    intro x hx
    obtain ⟨b, hb, hxb⟩ := List.mem_flatMap.mp hx
    have hbd := (Spans.dvd hm.wellFormed.spans hm.wellFormed.aligned).1 b hb
    have hlt := (hm.wellFormed.spans.bounds b hb).2.1
    by_cases hskip : op.skips b = true
    · rw [pieces_of_skip hskip] at hxb
      exact List.mem_singleton.mp hxb ▸ hm.countsOk b hb
    · refine BlockView.good_pieces hst hc.range.aligned hed hbd hlt (hm.countsOk b hb) ?_ x hxb
      intro c hcg h1 h2 h3 h4 h5 hcd hview
      have hinfo : c.pageInfo = b.pageInfo := hview c.address hcd le_rfl h4
      have hlock : ∀ f perm, op = .updateLock f perm → f.asserts b.pageInfo := by
        rintro f perm rfl
        exact hc.asserts b hb (by omega) (by omega)
      have hch : (op.change address numPages c).pageInfo = op.onPage b.pageInfo := by
        rw [op.change_pageInfo_block c, hinfo, ← op.change_pageInfo_block b,
          op.change_pageInfo b (by simpa using hskip)]
      change (op.change address numPages c).pageInfo.CountsOk
      rw [hch]
      exact op.onPage_countsOk hc.asserts (hm.countsOk b hb) hlock
  obtain ⟨l, allocator', hrun, hwf, hg, hview⟩ := updateRange_spec op.skips infoView
    (op.change_keepsPlace address numPages) hpage hm.wellFormed hc.range hgood hc.room hok
  refine ⟨l, allocator', op.run_eq ▸ hrun, ⟨hwf, hm.nonempty, hg⟩, fun p hp => ?_⟩
  rw [hview p hp, pageInfoAt, BlockView.viewAt, Option.map_map]
  refine congrArg (Option.map · _) (funext fun b => ?_)
  simp only [Function.comp_apply, infoView]
  by_cases hskip : op.skips b = true
  · simp only [hskip, Bool.true_eq_false, and_false, if_false, op.onPage_of_skips hc.asserts b hskip,
      ite_self]
  · simp only [Bool.not_eq_true] at hskip
    simp only [hskip, and_true, ← op.change_pageInfo_block b, op.change_pageInfo b hskip]

/-- The run lemma. -/
theorem Reaches.runInv (hm : Reaches m) : RunInv m := by
  induction hm with
  | initializeManager hst hnd h => exact runInv_initializeManager hst hnd h
  | @call m m' op allocator allocator' address numPages _ hc hr ih =>
    by_cases hok : StartsInSkippedHead op.skips m address
    · have hbad := updateRange_fault (op.change_keepsPlace address numPages) ih.wellFormed hc.range
        hc.room hok
      rw [op.run_eq, hbad] at hr
      cases hr
    · obtain ⟨l, allocator'', hrun, hinv, -⟩ := ih.call hc hok
      obtain ⟨rfl, -⟩ := Prod.mk.inj (Except.ok.inj (hrun.symm.trans hr))
      exact hinv

/-- **The manager.** Every state of a run represents its address space, and a
call keeps this and changes its pages exactly if its range does not start
inside a first block that the loop leaves as it is. -/
theorem run_correct_iff (hm : Reaches m) : Represents m ∧
    ∀ op allocator address numPages, Callable op m allocator address numPages →
      (Correct op m allocator address numPages ↔ ¬ StartsInSkippedHead op.skips m address) := by
  refine ⟨hm.runInv.represents, fun op allocator address numPages hc => ⟨?_, fun hok => ?_⟩⟩
  · rintro ⟨m', allocator', hr, -⟩ hbad
    have hfault := updateRange_fault (op.change_keepsPlace address numPages) hm.runInv.wellFormed
      hc.range hc.room hbad
    rw [op.run_eq, hfault] at hr
    cases hr
  · obtain ⟨l, allocator', hrun, hinv, hview⟩ := hm.runInv.call hc hok
    exact ⟨_, allocator', hrun, rfl, rfl, hinv.represents, hview⟩

/-- A fresh address space of 31 free pages. -/
def freshManager : KMemoryBlockManager := .initializeManager 0x1000 0x20000

theorem reaches_freshManager : Reaches freshManager :=
  .initializeManager (by decide) (by decide) (by decide)

/-- `Update` of four pages, inside the first block, to the properties `s`. -/
theorem callable_freshManager (s : KMemoryState) :
    Callable (.update s .none .none .none .none) freshManager (.ofNumBlocks 2) 0x3000 4 where
  range := ⟨by decide, by decide, by decide, by decide⟩
  asserts := rfl
  room := by decide

/-- Mapping four pages of a fresh address space is correct. -/
theorem run_correct_freshManager :
    Correct (.update 5 .none .none .none .none) freshManager (.ofNumBlocks 2) 0x3000 4 := by
  refine ((run_correct_iff reaches_freshManager).2 _ _ _ _ (callable_freshManager 5)).mpr ?_
  rintro ⟨-, b, hb, -, hskip⟩
  obtain rfl : _ = b := Option.some.inj hb
  exact absurd hskip (by decide)

/-- Freeing them, which are free, is not. -/
theorem not_correct_freshManager : ¬ ∀ m, Reaches m → Represents m ∧
    ∀ op allocator address numPages, Callable op m allocator address numPages →
      Correct op m allocator address numPages := by
  intro h
  obtain ⟨m', allocator', hr, -⟩ :=
    (h freshManager reaches_freshManager).2 _ _ _ _ (callable_freshManager .free)
  have hfault : (MemoryBlockOperation.update .free .none .none .none .none).run freshManager
      (.ofNumBlocks 2) 0x3000 4 = .error .nullNode := by rfl
  rw [hfault] at hr
  cases hr

end Kernel
end Citron
