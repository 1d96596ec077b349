/-
# Runs of locks on overlapping ranges

A run of locks: `UpdateLock` with `LockForIpc` or `ShareToDevice` on a range,
and with `UnlockForIpc` or `UnshareToDevice` on a range that is locked so
(`LockRun`). The run keeps two lists, the ranges that are locked for IPC and
those shared to devices. In every state of a run each page follows its counts
(`LockInv`); so every attribute and every disable-merge bit has its count, and
when both lists are empty again the manager is the one the run began with.
-/
import Citron.Kernel.MemoryBlockLockCounts

namespace Citron

open List

namespace Kernel

open Lib
open KMemoryBlockDisableMergeAttribute (normal locked allLeft allRight)

/-! ### One call -/

section Call

variable {m : KMemoryBlockManager} {allocator : KMemoryBlockManagerUpdateAllocator} {address n : ℕ}

theorem KMemoryBlock.dvd_getEndAddress {b : KMemoryBlock} (h : PageSize ∣ b.address) :
    PageSize ∣ b.getEndAddress := Nat.dvd_add h (Nat.dvd_mul_left ..)

/-- A whole page fits below the next border. -/
theorem add_pageSize_le {p e : ℕ} (hp : PageSize ∣ p) (he : PageSize ∣ e) (h : p < e) :
    p + PageSize ≤ e := by
  obtain ⟨i, rfl⟩ := hp
  obtain ⟨j, rfl⟩ := he
  simp only [PageSize] at *
  omega

/-- `UpdateLock` with a function that does to the pages of a block what `g`
does to each of them alone. -/
theorem updateLock_spec (f : MemoryBlockLockFunction) (perm : KMemoryPermission)
    (g : PageState → Bool → Bool → PageState)
    (hg : ∀ c start stop p, start ≤ c.address → c.address ≤ p → c.getEndAddress ≤ stop →
      p + PageSize ≤ c.getEndAddress →
      (f.call c perm (c.address == start) (c.getEndAddress == stop)).pageState p =
        g (c.pageState p) (p == start) (p + PageSize == stop))
    (hm : WellFormed m) (hmarks : ∀ b ∈ m.tree, MarksOk b) (hr : InRange m address n)
    (hroom : splitsNeeded m address n ≤ allocator.blocks.length)
    (hgood : ∀ c : KMemoryBlock, MarksOk c → PageSize ∣ c.address → address ≤ c.address →
      c.address < c.getEndAddress → c.getEndAddress ≤ address + n * PageSize →
      (∀ p, PageSize ∣ p → c.address ≤ p → p < c.getEndAddress →
        lockView.viewAt m.tree p = some (c.pageState p)) →
      MarksOk (f.call c perm (c.address == address) (c.getEndAddress == address + n * PageSize))) :
    ∃ l allocator', m.updateLock allocator address n f perm = .ok ({ m with tree := l }, allocator') ∧
      WellFormed { m with tree := l } ∧ (∀ b ∈ l, MarksOk b) ∧
      ∀ p, PageSize ∣ p → lockView.viewAt l p = (lockView.viewAt m.tree p).map fun v =>
        if address ≤ p ∧ p < address + n * PageSize then
          g v (p == address) (p + PageSize == address + n * PageSize) else v := by
  have hst : address < address + n * PageSize := by
    have := hr.nonempty
    simp only [PageSize]
    omega
  have hed : PageSize ∣ address + n * PageSize := Nat.dvd_add hr.aligned (Nat.dvd_mul_left ..)
  set upd : KMemoryBlock → KMemoryBlock := fun b =>
    f.call b perm (b.address == address) (b.getEndAddress == address + n * PageSize) with hupd
  have hplace : KeepsPlace upd := fun b => f.call_place b perm _ _
  have hpage : lockView.PageWise upd
      (fun p v => g v (p == address) (p + PageSize == address + n * PageSize)) address
      (address + n * PageSize) := by
    intro c p hp hcd h1 h2 h3 h4
    refine hg c address _ p h1 h3 h2 ?_
    exact add_pageSize_le hp (KMemoryBlock.dvd_getEndAddress hcd) h4
  have hpieces : ∀ x ∈ m.tree.flatMap (pieces (fun _ => false) upd address (address + n * PageSize)),
      lockView.good x := by
    intro x hx
    obtain ⟨b, hb, hxb⟩ := mem_flatMap.mp hx
    have hbd := (Spans.dvd hm.spans hm.aligned).1 b hb
    have hlt := (hm.spans.bounds b hb).2.1
    refine BlockView.good_pieces hst hr.aligned hed hbd hlt (hmarks b hb) ?_ x hxb
    intro c hc h1 h2 h3 h4 h5 hcd hview
    refine hgood c hc hcd h1 h4 h2 fun p hp h6 h7 => ?_
    rw [BlockView.viewAt, blockAt, hm.spans.tileAt_of_mem hb ⟨h3.trans h6, h7.trans_le h5⟩]
    exact congrArg some (hview p hp h6 h7).symm
  obtain ⟨l, allocator', hrun, hwf, hl, hview⟩ := updateRange_spec (fun _ => false) lockView hplace hpage
    hm hr hpieces hroom (fun h => by obtain ⟨-, _, -, -, hskip⟩ := h; cases hskip)
  refine ⟨l, allocator', hrun, hwf, hl, fun p hp => ?_⟩
  rw [hview p hp, BlockView.viewAt, Option.map_map]
  refine congrArg (Option.map · _) (funext fun b => ?_)
  simp only [Function.comp_apply, and_true]

end Call

/-! ### Runs -/

/-- A lock of a range, or the release of a range that is locked, and what it
makes of the ranges locked for IPC and of those shared to devices. A lock keeps
the assertions that no count overflows: no page is locked, or shared, 65536 times. -/
inductive LockCall (m : KMemoryBlockManager) (ipc device : List PageRange) (r : PageRange) :
    MemoryBlockLockFunction → List PageRange → List PageRange → Prop
  | lockForIpc (hr : InRange m r.address r.numPages) (hcount : ∀ p, coverCount (r :: ipc) p < 65536) :
      LockCall m ipc device r .lockForIpc (r :: ipc) device
  | unlockForIpc (hr : r ∈ ipc) : LockCall m ipc device r .unlockForIpc (ipc.erase r) device
  | shareToDevice (hr : InRange m r.address r.numPages)
      (hcount : ∀ p, coverCount (r :: device) p < 65536) :
      LockCall m ipc device r .shareToDevice ipc (r :: device)
  | unshareToDevice (hr : r ∈ device) : LockCall m ipc device r .unshareToDevice ipc (device.erase r)

/-- The states of a run of locks from `m₀`, with the ranges that are locked for
IPC and those that are shared to devices. -/
inductive LockRun (m₀ : KMemoryBlockManager) :
    KMemoryBlockManager → List PageRange → List PageRange → Prop
  | start : LockRun m₀ m₀ [] []
  | step {m m' : KMemoryBlockManager} {ipc device ipc' device' : List PageRange} {r : PageRange}
      {f : MemoryBlockLockFunction} {perm : KMemoryPermission}
      {allocator allocator' : KMemoryBlockManagerUpdateAllocator}
      (h : LockRun m₀ m ipc device) (hc : LockCall m ipc device r f ipc' device')
      (hroom : splitsNeeded m r.address r.numPages ≤ allocator.blocks.length)
      (hrun : m.updateLock allocator r.address r.numPages f perm = .ok (m', allocator')) :
      LockRun m₀ m' ipc' device'

/-- The manager before any lock: the tree is in order, no page is locked, and
the only bits that keep blocks apart are those that no lock sets. -/
structure Fresh (m : KMemoryBlockManager) : Prop where
  wellFormed : WellFormed m
  unlocked : ∀ b ∈ m.tree, b.ipcLockCount = 0 ∧ b.deviceUseCount = 0 ∧
    b.memoryAttribute &&& KMemoryAttribute.ignoreMask = 0 ∧ b.originalPermission = .none
  unmarked : ∀ b ∈ m.tree, b.ipcDisableMergeCount = 0 ∧ b.deviceDisableMergeLeftCount = 0 ∧
    b.deviceDisableMergeRightCount = 0 ∧ b.disableMergeAttribute &&&
      ~~~(normal ||| locked) = 0

theorem unlocked_bits : ∀ x : BitVec 8, x &&& ~~~(normal |||
      locked) = 0 →
    (x &&& allLeft) &&& KMemoryBlockDisableMergeAttribute.ipcLeft = 0 ∧
    (x &&& allLeft) &&& KMemoryBlockDisableMergeAttribute.deviceLeft
      = 0 ∧
    x &&& allRight = 0 ∧
    x.getLsbD 2 = false ∧ x.getLsbD 1 = false ∧ x.getLsbD 4 = false ∧
    (x &&& allLeft) |||
      (x &&& allRight) = x := by
  decide

/-- What holds in every state of a run of locks. -/
structure LockInv (m₀ m : KMemoryBlockManager) (ipc device : List PageRange) : Prop where
  fresh : Fresh m₀
  ends : m.startAddress = m₀.startAddress ∧ m.endAddress = m₀.endAddress
  wellFormed : WellFormed m
  marks : ∀ b ∈ m.tree, MarksOk b
  ipcRanges : ∀ r ∈ ipc, InRange m₀ r.address r.numPages
  deviceRanges : ∀ r ∈ device, InRange m₀ r.address r.numPages
  tracks : ∀ p, PageSize ∣ p → ∀ v₀, lockView.viewAt m₀.tree p = some v₀ →
    ∃ v, lockView.viewAt m.tree p = some v ∧ Tracks v₀ v (countsAt ipc device p)

section Runs

variable {m₀ m m' : KMemoryBlockManager} {ipc device : List PageRange}

theorem Fresh.unlockedPage (h : Fresh m) {p : ℕ} {v : PageState} (hv : lockView.viewAt m.tree p = some v) :
    Unlocked v := by
  obtain ⟨b, hb, rfl⟩ := Option.map_eq_some_iff.mp hv
  have hmem := mem_of_tileAt hb
  obtain ⟨h1, h2, h3, h4⟩ := h.unlocked b hmem
  obtain ⟨h5, h6, h7, h8⟩ := h.unmarked b hmem
  obtain ⟨h9, h10, h11, -⟩ := unlocked_bits _ h8
  refine ⟨h1, h2, h3, h4, ?_, ?_, ?_, ?_, ?_, ?_⟩ <;>
    simp only [lockView, KMemoryBlock.pageState] <;> split_ifs
  all_goals first | rfl | assumption

theorem Fresh.marks (h : Fresh m) : ∀ b ∈ m.tree, MarksOk b := by
  intro b hb
  obtain ⟨h5, h6, h7, h8⟩ := h.unmarked b hb
  obtain ⟨-, -, -, h1, h2, h3, h4⟩ := unlocked_bits _ h8
  exact ⟨by rw [h1, h5]; decide, by rw [h2, h6]; decide, by rw [h3, h7]; decide, h4⟩

theorem Fresh.lockInv (h : Fresh m) : LockInv m m [] [] where
  fresh := h
  ends := ⟨rfl, rfl⟩
  wellFormed := h.wellFormed
  marks := h.marks
  ipcRanges _ hr := nomatch hr
  deviceRanges _ hr := nomatch hr
  tracks _ _ v₀ hv := ⟨v₀, hv, (h.unlockedPage hv).tracks⟩

/-- A range of the manager before the run is one of every state of the run. -/
theorem LockInv.inRange (h : LockInv m₀ m ipc device) {address n : ℕ} :
    InRange m address n ↔ InRange m₀ address n := by
  obtain ⟨h1, h2⟩ := h.ends
  constructor
  · rintro ⟨h3, h4, h5, h6⟩
    exact ⟨h3, h4, h1 ▸ h5, h2 ▸ h6⟩
  · rintro ⟨h3, h4, h5, h6⟩
    exact ⟨h3, h4, h1.symm ▸ h5, h2.symm ▸ h6⟩

/-- Every page of a state of the run has its counts. -/
theorem LockInv.tracksAt (h : LockInv m₀ m ipc device) {p : ℕ} {v : PageState} (hp : PageSize ∣ p)
    (hv : lockView.viewAt m.tree p = some v) :
    ∃ v₀, lockView.viewAt m₀.tree p = some v₀ ∧ Tracks v₀ v (countsAt ipc device p) := by
  obtain ⟨b, hb, -⟩ := Option.map_eq_some_iff.mp hv
  have hin := inside_of_tileAt hb
  have hbounds := h.wellFormed.spans.bounds b (mem_of_tileAt hb)
  obtain ⟨h1, h2⟩ := h.ends
  have hsome := h.fresh.wellFormed.spans.tileAt_isSome (p := p) (h1 ▸ hbounds.1.trans hin.1)
    (h2 ▸ hin.2.trans_le hbounds.2.2)
  obtain ⟨b₀, hb₀⟩ := Option.isSome_iff_exists.mp hsome
  have hv₀ : lockView.viewAt m₀.tree p = some (lockView.view b₀ p) := Option.map_eq_some_iff.mpr ⟨b₀, hb₀, rfl⟩
  obtain ⟨v', hv', ht⟩ := h.tracks p hp _ hv₀
  obtain rfl : v = v' := Option.some.inj (hv.symm.trans hv')
  exact ⟨_, hv₀, ht⟩

variable {r : PageRange} {ipc' device' : List PageRange} {f : MemoryBlockLockFunction}
  {allocator : KMemoryBlockManagerUpdateAllocator}

/-- A call that changes the marks and the pages as the lists of ranges change
keeps the invariant. -/
theorem LockInv.update (h : LockInv m₀ m ipc device) (perm : KMemoryPermission)
    (g : PageState → Bool → Bool → PageState)
    (hg : ∀ c start stop p, start ≤ c.address → c.address ≤ p → c.getEndAddress ≤ stop →
      p + PageSize ≤ c.getEndAddress →
      (f.call c perm (c.address == start) (c.getEndAddress == stop)).pageState p =
        g (c.pageState p) (p == start) (p + PageSize == stop))
    (hr : InRange m r.address r.numPages)
    (hroom : splitsNeeded m r.address r.numPages ≤ allocator.blocks.length)
    (hipc : ∀ r ∈ ipc', InRange m₀ r.address r.numPages)
    (hdevice : ∀ r ∈ device', InRange m₀ r.address r.numPages)
    (hin : ∀ p v₀ v, r.covers p = true → Unlocked v₀ → Tracks v₀ v (countsAt ipc device p) →
      Tracks v₀ (g v (p == r.address) (p + PageSize == r.stop)) (countsAt ipc' device' p))
    (hout : ∀ p, ¬ r.covers p = true → countsAt ipc' device' p = countsAt ipc device p)
    (hgood : ∀ c : KMemoryBlock, MarksOk c →
      (c.address = r.address → c.ipcDisableMergeCount = startCount ipc r.address ∧
        c.deviceDisableMergeLeftCount = startCount device r.address) →
      (c.getEndAddress = r.stop → c.deviceDisableMergeRightCount = endCount device r.stop) →
      MarksOk (f.call c perm (c.address == r.address) (c.getEndAddress == r.stop))) :
    ∃ m' allocator', m.updateLock allocator r.address r.numPages f perm = .ok (m', allocator') ∧
      LockInv m₀ m' ipc' device' := by
  obtain ⟨l, allocator', hrun, hwf, hmarks, hview⟩ := updateLock_spec f perm g hg h.wellFormed h.marks hr
    hroom (by
      intro c hc hcd h1 h2 h3 hview
      apply hgood c hc
      · intro hca
        obtain ⟨v₀, -, ht⟩ := h.tracksAt hcd (hview c.address hcd le_rfl h2)
        have hi := ht.ipcDisableMergeCount
        have hl := ht.deviceDisableMergeLeftCount
        simp only [KMemoryBlock.pageState, if_true, countsAt] at hi hl
        rw [← hca]
        exact ⟨hi, hl⟩
      · intro hce
        have hed := KMemoryBlock.dvd_getEndAddress hcd
        have hle := add_pageSize_le hcd hed h2
        have hlast : c.getEndAddress - PageSize + PageSize = c.getEndAddress :=
          Nat.sub_add_cancel (le_trans (Nat.le_add_left ..) hle)
        have hlt : c.getEndAddress - PageSize < c.getEndAddress := by
          simp only [PageSize] at hlast ⊢
          omega
        obtain ⟨v₀, -, ht⟩ := h.tracksAt (Nat.dvd_sub hed (Nat.dvd_refl _))
          (hview (c.getEndAddress - PageSize) (Nat.dvd_sub hed (Nat.dvd_refl _))
            (Nat.le_sub_of_add_le hle) hlt)
        have hright := ht.deviceDisableMergeRightCount
        simp only [KMemoryBlock.pageState, hlast, if_true, countsAt] at hright
        rw [← hce]
        exact hright)
  refine ⟨_, allocator', hrun, h.fresh, h.ends, hwf, hmarks, hipc, hdevice, fun p hp v₀ hv₀ => ?_⟩
  obtain ⟨v, hv, ht⟩ := h.tracks p hp v₀ hv₀
  have hu := h.fresh.unlockedPage hv₀
  rw [hview p hp, hv]
  refine ⟨_, rfl, ?_⟩
  change Tracks v₀ (if r.address ≤ p ∧ p < r.stop then
    g v (p == r.address) (p + PageSize == r.stop) else v) _
  by_cases hcov : r.covers p = true
  · rw [if_pos (PageRange.covers_iff.mp hcov)]
    exact hin p v₀ v hcov hu ht
  · rw [if_neg fun hc => hcov (PageRange.covers_iff.mpr hc), hout p hcov]
    exact ht

/-- **Step.** Every lock, and every release of a range that is locked, returns
and keeps the invariant. -/
theorem LockInv.step (h : LockInv m₀ m ipc device) (hc : LockCall m ipc device r f ipc' device')
    (perm : KMemoryPermission)
    (hroom : splitsNeeded m r.address r.numPages ≤ allocator.blocks.length) :
    ∃ m' allocator', m.updateLock allocator r.address r.numPages f perm = .ok (m', allocator') ∧
      LockInv m₀ m' ipc' device' := by
  have hipc : ∀ r ∈ ipc, 0 < r.numPages := fun r hr => (h.ipcRanges r hr).nonempty
  have hdevice : ∀ r ∈ device, 0 < r.numPages := fun r hr => (h.deviceRanges r hr).nonempty
  cases hc with
  | lockForIpc hr hcount =>
    have hlt : ∀ p, r.covers p = true → coverCount ipc p + 1 < 65536 := by
      intro p hp
      have := hcount p
      rwa [coverCount_cons, if_pos hp] at this
    refine h.update perm (fun v first _ => v.lockForIpc perm first)
      (fun c _ stop _ h1 h2 _ _ => pageState_lockForIpc perm (c.getEndAddress == stop) h1 h2) hr hroom
      (forall_mem_cons.mpr ⟨h.inRange.mp hr, h.ipcRanges⟩) h.deviceRanges ?_ ?_ ?_
    · intro p v₀ v hp hu ht
      rw [countsAt_cons_ipc hp]
      exact ht.lockForIpc perm _ (hlt p hp) (startCount_le_coverCount hipc)
    · exact fun p hp => (countsAt_cons_of_not hr.nonempty hp).1
    · intro c hc hleft _
      refine hc.lockForIpc perm _ (c.getEndAddress == r.stop) ?_
      intro hca
      rw [(hleft (beq_iff_eq.mp hca)).1]
      have := hlt _ (covers_address hr.nonempty)
      have := startCount_le_coverCount (p := r.address) hipc
      omega
  | unlockForIpc hr =>
    have hrange := h.ipcRanges r hr
    refine h.update perm (fun v first _ => v.unlockForIpc perm first)
      (fun c _ stop _ h1 h2 _ _ => pageState_unlockForIpc perm (c.getEndAddress == stop) h1 h2) (h.inRange.mpr hrange) hroom
      (fun r' hr' => h.ipcRanges r' (mem_of_mem_erase hr')) h.deviceRanges ?_ ?_ ?_
    · intro p v₀ v hp hu ht
      rw [countsAt_erase_ipc hr, countsAt_cons_ipc hp] at ht
      exact ht.unlockForIpc perm _ hu
    · intro p hp
      rw [countsAt_erase_ipc hr, (countsAt_cons_of_not hrange.nonempty hp).1]
    · intro c hc hleft _
      refine hc.unlockForIpc perm _ (c.getEndAddress == r.stop) ?_
      intro hca
      rw [(hleft (beq_iff_eq.mp hca)).1]
      exact startCount_pos hr
  | shareToDevice hr hcount =>
    have hlt : ∀ p, r.covers p = true → coverCount device p + 1 < 65536 := by
      intro p hp
      have := hcount p
      rwa [coverCount_cons, if_pos hp] at this
    refine h.update perm (fun v first last => v.shareToDevice perm first last)
      (fun _ _ _ _ h1 h2 h3 h4 => pageState_shareToDevice perm h1 h2 h3 h4) hr hroom
      h.ipcRanges (forall_mem_cons.mpr ⟨h.inRange.mp hr, h.deviceRanges⟩) ?_ ?_ ?_
    · intro p v₀ v hp hu ht
      rw [countsAt_cons_device hp]
      exact ht.shareToDevice perm _ _ (hlt p hp) (startCount_le_coverCount hdevice)
        (endCount_le_coverCount hdevice)
    · exact fun p hp => (countsAt_cons_of_not hr.nonempty hp).2
    · intro c hc hleft hright
      apply hc.shareToDevice perm
      · intro hca
        rw [(hleft (beq_iff_eq.mp hca)).2]
        have := hlt _ (covers_address hr.nonempty)
        have := startCount_le_coverCount (p := r.address) hdevice
        omega
      · intro hce
        obtain ⟨hcov, hlast⟩ := covers_last hr.nonempty
        rw [hright (beq_iff_eq.mp hce), ← hlast]
        have := hlt _ hcov
        have := endCount_le_coverCount (p := r.stop - PageSize) hdevice
        omega
  | unshareToDevice hr =>
    have hrange := h.deviceRanges r hr
    refine h.update perm (fun v first last => v.unshareToDevice perm first last)
      (fun _ _ _ _ h1 h2 h3 h4 => pageState_unshareToDevice perm h1 h2 h3 h4)
      (h.inRange.mpr hrange) hroom h.ipcRanges
      (fun r' hr' => h.deviceRanges r' (mem_of_mem_erase hr')) ?_ ?_ ?_
    · intro p v₀ v hp hu ht
      rw [countsAt_erase_device hr, countsAt_cons_device hp] at ht
      exact ht.unshareToDevice perm _ _ hu (startCount_le_coverCount fun r' hr' =>
        hdevice r' (mem_of_mem_erase hr'))
    · intro p hp
      rw [countsAt_erase_device hr, (countsAt_cons_of_not hrange.nonempty hp).2]
    · intro c hc _ hright
      apply hc.unshareToDevice perm
      intro hce
      rw [hright (beq_iff_eq.mp hce)]
      exact endCount_pos hr

/-- **Run.** -/
theorem LockRun.lockInv (h₀ : Fresh m₀) (h : LockRun m₀ m ipc device) : LockInv m₀ m ipc device := by
  induction h with
  | start => exact h₀.lockInv
  | step _ hc hroom hrun ih =>
    obtain ⟨m', a', hrun', hinv⟩ := ih.step hc _ hroom
    rw [hrun'] at hrun
    cases hrun
    exact hinv

/-- Every lock attribute and every disable-merge bit is set exactly if its count
is not zero. -/
structure LockBits (b : KMemoryBlock) : Prop where
  ipcLocked : b.memoryAttribute &&& KMemoryAttribute.ipcLocked ≠ 0 ↔ 0 < b.ipcLockCount
  deviceShared : b.memoryAttribute &&& KMemoryAttribute.deviceShared ≠ 0 ↔ 0 < b.deviceUseCount
  ipcLeft : b.disableMergeAttribute &&& KMemoryBlockDisableMergeAttribute.ipcLeft ≠ 0 ↔
    0 < b.ipcDisableMergeCount
  deviceLeft : b.disableMergeAttribute &&& KMemoryBlockDisableMergeAttribute.deviceLeft ≠ 0 ↔
    0 < b.deviceDisableMergeLeftCount
  deviceRight : b.disableMergeAttribute &&& KMemoryBlockDisableMergeAttribute.deviceRight ≠ 0 ↔
    0 < b.deviceDisableMergeRightCount

theorem mark_bits : ∀ x : BitVec 8,
    (x &&& KMemoryBlockDisableMergeAttribute.ipcLeft ≠ 0 ↔ x.getLsbD 2 = true) ∧
    (x &&& KMemoryBlockDisableMergeAttribute.deviceLeft ≠ 0 ↔ x.getLsbD 1 = true) ∧
    (x &&& KMemoryBlockDisableMergeAttribute.deviceRight ≠ 0 ↔ x.getLsbD 4 = true) := by
  decide

/-- The lock attributes of a page are those of the ranges that cover it. -/
theorem Tracks.attribute_iff {v₀ v : PageState} {n : PageCounts} (hu : Unlocked v₀) (h : Tracks v₀ v n) :
    (v.info.memoryAttribute &&& KMemoryAttribute.ipcLocked ≠ 0 ↔ 0 < n.ipc) ∧
      (v.info.memoryAttribute &&& KMemoryAttribute.deviceShared ≠ 0 ↔ 0 < n.device) := by
  obtain ⟨h1, h2⟩ := and_ignoreMask_eq.mp hu.memoryAttribute
  rw [and_ipcLocked_ne, and_deviceShared_ne, h.memoryAttribute]
  unfold withMark
  constructor <;> split_ifs <;> simp_all

theorem LockInv.lockBits (h : LockInv m₀ m ipc device) {b : KMemoryBlock} (hb : b ∈ m.tree) : LockBits b := by
  have hlt := (h.wellFormed.spans.bounds b hb).2.1
  have hbd := (Spans.dvd h.wellFormed.spans h.wellFormed.aligned).1 b hb
  -- the attributes are those of the first page of the block
  have hv : lockView.viewAt m.tree b.address = some (b.pageState b.address) := by
    rw [BlockView.viewAt, blockAt, h.wellFormed.spans.tileAt_of_mem hb ⟨le_rfl, hlt⟩]
    rfl
  obtain ⟨v₀, hv₀, ht⟩ := h.tracksAt hbd hv
  obtain ⟨h1, h2⟩ := ht.attribute_iff (h.fresh.unlockedPage hv₀)
  rw [← ht.ipcLockCount] at h1
  rw [← ht.deviceUseCount] at h2
  have hm := h.marks b hb
  obtain ⟨h3, h4, h5⟩ := mark_bits b.disableMergeAttribute
  exact ⟨h1, h2, h3.trans hm.ipcBit, h4.trans hm.leftBit, h5.trans hm.rightBit⟩

/-- Once no range is locked the manager is the one before the run. -/
theorem LockInv.eq_of_nil (h : LockInv m₀ m [] []) : m = m₀ := by
  obtain ⟨h1, h2⟩ := h.ends
  have hspans := h.wellFormed.spans
  rw [h1, h2] at hspans
  have htree : m.tree = m₀.tree := by
    refine tree_eq_of_viewAt_eq hspans h.fresh.wellFormed.spans h.fresh.wellFormed.aligned
      h.wellFormed.coalesced h.fresh.wellFormed.coalesced h.marks h.fresh.marks fun p hp => ?_
    cases hv : lockView.viewAt m.tree p with
    | some v =>
      obtain ⟨v₀, hv₀, ht⟩ := h.tracksAt hp hv
      rw [hv₀, Tracks.eq_of_zero (h.fresh.unlockedPage hv₀) ht]
    | none =>
      cases hv₀ : lockView.viewAt m₀.tree p with
      | none => rfl
      | some v₀ =>
        obtain ⟨v, hv', -⟩ := h.tracks p hp v₀ hv₀
        rw [hv] at hv'
        cases hv'
  cases m
  cases m₀
  simp only [KMemoryBlockManager.mk.injEq]
  exact ⟨htree, h1, h2⟩

/-- In every state of a run of locks every attribute and every disable-merge bit
has its count, every lock and every release of a locked range returns, and once
all ranges are released the manager is the one before the run. -/
theorem lockRun_lockBits_and_restores (h₀ : Fresh m₀) (h : LockRun m₀ m ipc device) :
    (∀ b ∈ m.tree, LockBits b) ∧
      (∀ r f ipc' device' allocator perm, LockCall m ipc device r f ipc' device' →
        splitsNeeded m r.address r.numPages ≤ allocator.blocks.length →
        ∃ m' allocator', m.updateLock allocator r.address r.numPages f perm = .ok (m', allocator')) ∧
      (ipc = [] → device = [] → m = m₀) := by
  have hinv := h.lockInv h₀
  refine ⟨fun b hb => hinv.lockBits hb, ?_, ?_⟩
  · intro r f ipc' device' allocator perm hc hroom
    obtain ⟨m', allocator', hrun, -⟩ := hinv.step hc perm hroom
    exact ⟨m', allocator', hrun⟩
  · rintro rfl rfl
    exact hinv.eq_of_nil

end Runs

theorem fresh_freshManager : Fresh freshManager where
  wellFormed := ⟨by decide, ⟨rfl, by decide, rfl⟩, isChain_singleton _⟩
  unlocked := by decide
  unmarked := by decide

/-- Four pages of a fresh address space locked for IPC, and four shared to a
device that overlap them. -/
theorem lockRun_freshManager : ∃ m, LockRun freshManager m [⟨0x3000, 4⟩] [⟨0x5000, 4⟩] ∧
    (∀ b ∈ m.tree, LockBits b) := by
  have hroom : ∀ (m : KMemoryBlockManager) (address n : ℕ),
      splitsNeeded m address n ≤ (KMemoryBlockManagerUpdateAllocator.ofNumBlocks 2).blocks.length := by
    intro m address n
    unfold splitsNeeded
    split_ifs <;> decide
  have hcount : ∀ (r : PageRange) p, coverCount [r] p < 65536 := fun r p =>
    countP_le_length.trans_lt (Nat.one_lt_succ_succ _)
  have h₀ := fresh_freshManager.lockInv
  obtain ⟨m₁, a₁, hrun₁, h₁⟩ := h₀.step (r := ⟨0x3000, 4⟩)
    (.lockForIpc ⟨by decide, by decide, by decide, by decide⟩ (hcount _)) .none (hroom ..)
  have hrange : InRange m₁ 0x5000 4 := h₁.inRange.mpr ⟨by decide, by decide, by decide, by decide⟩
  obtain ⟨m₂, a₂, hrun₂, -⟩ := h₁.step (r := ⟨0x5000, 4⟩)
    (.shareToDevice hrange (hcount _)) .none (hroom ..)
  have hrun : LockRun freshManager m₂ [⟨0x3000, 4⟩] [⟨0x5000, 4⟩] :=
    (LockRun.start.step (.lockForIpc (h₀.inRange.mpr ⟨by decide, by decide, by decide, by decide⟩)
      (hcount _)) (hroom ..) hrun₁).step (.shareToDevice hrange (hcount _)) (hroom ..) hrun₂
  exact ⟨m₂, hrun, (lockRun_lockBits_and_restores fresh_freshManager hrun).1⟩

end Kernel

/-! ## Unlocks without new blocks

`CleanupForIpcClient` unlocks with an update allocator of no blocks ("Guaranteed
zero blocks needed here"). Both ends of a range that is locked for IPC are borders
of blocks: the first page of the range counts a lock that starts there, and at the
end of the range the number of locks changes, unless as many start there as end.
-/

namespace Kernel

open Lib

/-! ### Counts of neighbouring pages -/

section Ranges

variable {l : List PageRange} {r : PageRange} {p : ℕ}

theorem PageRange.covers_next (hr : 0 < r.numPages) (ha : PageSize ∣ r.address) (hp : PageSize ∣ p) :
    (if r.covers (p + PageSize) then 1 else 0) + (if p + PageSize = r.stop then 1 else 0) =
      (if r.covers p then 1 else 0) + if p + PageSize = r.address then 1 else 0 := by
  obtain ⟨i, hi⟩ := ha
  obtain ⟨j, rfl⟩ := hp
  simp only [PageRange.covers_iff, PageRange.stop, hi, PageSize]
  split_ifs <;> omega

/-- From a page to the next one the locks that end between them go, and those that
start there come. -/
theorem coverCount_next (hl : ∀ r ∈ l, 0 < r.numPages ∧ PageSize ∣ r.address) (hp : PageSize ∣ p) :
    coverCount l (p + PageSize) + endCount l (p + PageSize) =
      coverCount l p + startCount l (p + PageSize) := by
  induction l with
  | nil => rfl
  | cons r l ih =>
    obtain ⟨hr, ha⟩ := hl r mem_cons_self
    have h1 := ih fun r hr => hl r (mem_cons_of_mem _ hr)
    have h2 := PageRange.covers_next hr ha hp
    rw [coverCount_cons, coverCount_cons, startCount_cons, endCount_cons]
    omega

end Ranges

/-! ### The ends of a locked range -/

section Ends

variable {m₀ m : KMemoryBlockManager} {ipc device : List PageRange} {r : PageRange}

/-- What the pages inside a block say. -/
theorem viewAt_of_inside (hm : WellFormed m) {b : KMemoryBlock} (hb : b ∈ m.tree) {p : ℕ}
    (h1 : b.address ≤ p) (h2 : p < b.getEndAddress) :
    lockView.viewAt m.tree p = some (b.pageState p) := by
  rw [BlockView.viewAt, blockAt, hm.spans.tileAt_of_mem hb ⟨h1, h2⟩]
  rfl

theorem LockInv.not_cuts_address (h : LockInv m₀ m ipc device) (hr : r ∈ ipc) :
    ¬ CutsBlock m.tree r.address := by
  rintro ⟨b, hb, h1, h2⟩
  have hv := viewAt_of_inside h.wellFormed hb h1.le h2
  obtain ⟨v₀, -, ht⟩ := h.tracksAt (h.ipcRanges r hr).aligned hv
  -- a page inside a block has no start of a lock
  have hzero : (b.pageState r.address).ipcDisableMergeCount = 0 := if_neg h1.ne
  have hcount : startCount ipc r.address = 0 := ht.ipcDisableMergeCount.symm.trans hzero
  exact (startCount_pos hr).ne' hcount

theorem LockInv.not_cuts_stop (h : LockInv m₀ m ipc device) (hr : r ∈ ipc) :
    ¬ CutsBlock m.tree r.stop := by
  rintro ⟨b, hb, h1, h2⟩
  have hrange := h.ipcRanges r hr
  have hbd := (Spans.dvd h.wellFormed.spans h.wellFormed.aligned).1 b hb
  have hstop : PageSize ∣ r.stop := Nat.dvd_add hrange.aligned (Nat.dvd_mul_left ..)
  have hle := add_pageSize_le hbd hstop h1
  obtain ⟨-, hlast⟩ := covers_last (r := r) hrange.nonempty
  have hprev : PageSize ∣ r.stop - PageSize := Nat.dvd_sub hstop (Nat.dvd_refl _)
  have hv₁ := viewAt_of_inside h.wellFormed hb (Nat.le_sub_of_add_le hle) ((Nat.sub_le ..).trans_lt h2)
  have hv₂ := viewAt_of_inside h.wellFormed hb h1.le h2
  obtain ⟨_, -, ht₁⟩ := h.tracksAt hprev hv₁
  obtain ⟨_, -, ht₂⟩ := h.tracksAt hstop hv₂
  -- both pages lie in the block, so they count the same locks, and none starts between them
  have hprevCount : b.ipcLockCount = coverCount ipc (r.stop - PageSize) := ht₁.ipcLockCount
  have hcount : b.ipcLockCount = coverCount ipc r.stop := ht₂.ipcLockCount
  have hzero : (b.pageState r.stop).ipcDisableMergeCount = 0 := if_neg h1.ne
  have hstart : startCount ipc r.stop = 0 := ht₂.ipcDisableMergeCount.symm.trans hzero
  have hnext := coverCount_next (l := ipc)
    (fun r hr => ⟨(h.ipcRanges r hr).nonempty, (h.ipcRanges r hr).aligned⟩) hprev
  rw [hlast] at hnext
  have := endCount_pos hr
  omega

theorem LockInv.splitsNeeded (h : LockInv m₀ m ipc device) (hr : r ∈ ipc) :
    splitsNeeded m r.address r.numPages = 0 := by
  unfold Kernel.splitsNeeded
  have hstop : ¬ CutsBlock m.tree (r.address + r.numPages * PageSize) := h.not_cuts_stop hr
  rw [if_neg (h.not_cuts_address hr), if_neg hstop]

end Ends

/-! ### Runs -/

/-- The runs of locks in which every unlock for IPC has an allocator of no blocks, as
in `CleanupForIpcClient`. -/
inductive CleanupRun (m₀ : KMemoryBlockManager) :
    KMemoryBlockManager → List PageRange → List PageRange → Prop
  | start : CleanupRun m₀ m₀ [] []
  | step {m n : KMemoryBlockManager} {ipc device ipcNext deviceNext : List PageRange} {r : PageRange}
      {f : MemoryBlockLockFunction} {perm : KMemoryPermission}
      {allocator rest : KMemoryBlockManagerUpdateAllocator}
      (h : CleanupRun m₀ m ipc device) (hc : LockCall m ipc device r f ipcNext deviceNext)
      (hf : f ≠ .unlockForIpc) (hroom : splitsNeeded m r.address r.numPages ≤ allocator.blocks.length)
      (hrun : m.updateLock allocator r.address r.numPages f perm = .ok (n, rest)) :
      CleanupRun m₀ n ipcNext deviceNext
  | cleanup {m n : KMemoryBlockManager} {ipc device : List PageRange} {r : PageRange}
      {rest : KMemoryBlockManagerUpdateAllocator}
      (h : CleanupRun m₀ m ipc device) (hr : r ∈ ipc)
      (hrun : m.updateLock (.ofNumBlocks 0) r.address r.numPages .unlockForIpc .none = .ok (n, rest)) :
      CleanupRun m₀ n (ipc.erase r) device

section Runs

variable {m₀ m : KMemoryBlockManager} {ipc device : List PageRange}

/-- An unlock of a locked range returns without a block to split with. -/
theorem LockInv.cleanup (h : LockInv m₀ m ipc device) {r : PageRange} (hr : r ∈ ipc) :
    ∃ n rest, m.updateLock (.ofNumBlocks 0) r.address r.numPages .unlockForIpc .none = .ok (n, rest) ∧
      LockInv m₀ n (ipc.erase r) device :=
  h.step (.unlockForIpc hr) .none (h.splitsNeeded hr).le

theorem CleanupRun.lockInv (h₀ : Fresh m₀) (h : CleanupRun m₀ m ipc device) : LockInv m₀ m ipc device := by
  induction h with
  | start => exact h₀.lockInv
  | step _ hc _ hroom hrun ih =>
    obtain ⟨n, rest, hstep, hinv⟩ := ih.step hc _ hroom
    rw [hstep] at hrun
    cases hrun
    exact hinv
  | cleanup _ hr hrun ih =>
    obtain ⟨n, rest, hstep, hinv⟩ := ih.cleanup hr
    rw [hstep] at hrun
    cases hrun
    exact hinv

/-- In every state of a run, both ends of every range that is locked for IPC are
borders of blocks, and its unlock with an allocator of no blocks returns. -/
theorem CleanupRun.unlock_without_blocks (h₀ : Fresh m₀) (h : CleanupRun m₀ m ipc device) :
    ∀ r ∈ ipc, ¬ CutsBlock m.tree r.address ∧ ¬ CutsBlock m.tree r.stop ∧
      ∃ n rest, m.updateLock (.ofNumBlocks 0) r.address r.numPages .unlockForIpc .none = .ok (n, rest) := by
  have hinv := h.lockInv h₀
  intro r hr
  obtain ⟨n, rest, hrun, -⟩ := hinv.cleanup hr
  exact ⟨hinv.not_cuts_address hr, hinv.not_cuts_stop hr, n, rest, hrun⟩

end Runs

/-- Two overlapping ranges of a fresh address space locked for IPC. -/
theorem unlock_without_blocks_freshManager :
    ∃ m, CleanupRun freshManager m [⟨0x5000, 4⟩, ⟨0x3000, 4⟩] [] ∧
      ∀ r ∈ [(⟨0x5000, 4⟩ : PageRange), ⟨0x3000, 4⟩],
        ¬ CutsBlock m.tree r.address ∧ ¬ CutsBlock m.tree r.stop ∧
        ∃ n rest, m.updateLock (.ofNumBlocks 0) r.address r.numPages .unlockForIpc .none = .ok (n, rest) := by
  have hroom : ∀ (m : KMemoryBlockManager) (address n : ℕ),
      splitsNeeded m address n ≤ (KMemoryBlockManagerUpdateAllocator.ofNumBlocks 2).blocks.length := by
    intro m address n
    unfold splitsNeeded
    split_ifs <;> decide
  have hcount : ∀ (l : List PageRange) p, l.length < 65536 → coverCount l p < 65536 := fun _ _ hl =>
    countP_le_length.trans_lt hl
  have h₀ := fresh_freshManager.lockInv
  have hc₁ : LockCall freshManager [] [] ⟨0x3000, 4⟩ .lockForIpc [⟨0x3000, 4⟩] [] :=
    .lockForIpc ⟨by decide, by decide, by decide, by decide⟩ fun p => hcount _ p (by decide)
  obtain ⟨m₁, a₁, hrun₁, h₁⟩ := h₀.step hc₁ .none (hroom ..)
  have hc₂ : LockCall m₁ [⟨0x3000, 4⟩] [] ⟨0x5000, 4⟩ .lockForIpc [⟨0x5000, 4⟩, ⟨0x3000, 4⟩] [] :=
    .lockForIpc (h₁.inRange.mpr ⟨by decide, by decide, by decide, by decide⟩) fun p => hcount _ p (by decide)
  obtain ⟨m₂, a₂, hrun₂, -⟩ := h₁.step hc₂ .none (hroom ..)
  have hrun : CleanupRun freshManager m₂ [⟨0x5000, 4⟩, ⟨0x3000, 4⟩] [] :=
    (CleanupRun.start.step hc₁ (by decide) (hroom ..) hrun₁).step hc₂ (by decide) (hroom ..) hrun₂
  exact ⟨m₂, hrun, hrun.unlock_without_blocks fresh_freshManager⟩

end Kernel
end Citron
