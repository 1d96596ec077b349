/-
# Runs and the device pages of a physical page

In every run that maps only pages which are not mapped, an operation on a physical address is applied to
each device page that is mapped there, once. A physical page that nothing is mapped to is taken for one
with device page `0`, which is never mapped.
-/
import Citron.Core.DeviceMemoryManagerReverse

namespace Citron
namespace Core
namespace DeviceMemory
namespace DeviceMemoryManager

open Lib MultiAddressContainer List

variable {host : HostMemory} {process : ProcessMemory host} {s s' : DeviceMemoryManager} {L L' : ℕ → List (ℕ × ℕ)}

/-! ### The entries do not matter to the table back -/

def withEntries (s : DeviceMemoryManager) (entries : ℕ → GpuCoalescedEntry) : DeviceMemoryManager := { s with entries := entries }

theorem insertDeviceAddr_withEntries (s : DeviceMemoryManager) (entries : ℕ → GpuCoalescedEntry) (P d : ℕ) :
    (s.withEntries entries).insertDeviceAddr P d = (s.insertDeviceAddr P d).map fun t => t.withEntries entries := by
  rw [insertDeviceAddr, insertDeviceAddr, withEntries]
  dsimp only
  split
  · rfl
  · split
    · cases (s.multiDevAddress.registerImplementation (s.compressedDeviceAddr P)).2.register d
        (s.multiDevAddress.registerImplementation (s.compressedDeviceAddr P)).1 with
      | none => rfl
      | some c => rfl
    · cases s.multiDevAddress.register d (s.compressedDeviceAddr P &&& multiMask) with
      | none => rfl
      | some c => rfl

theorem removeDeviceAddr_withEntries (s : DeviceMemoryManager) (entries : ℕ → GpuCoalescedEntry) (P d : ℕ) :
    (s.withEntries entries).removeDeviceAddr P d = (s.removeDeviceAddr P d).map fun t => t.withEntries entries := by
  rw [removeDeviceAddr, removeDeviceAddr, withEntries]
  split
  · rfl
  · cases s.multiDevAddress.unregister d (s.compressedDeviceAddr P &&& multiMask) with
    | none => rfl
    | some r =>
      obtain ⟨⟨more, start⟩, c⟩ := r
      cases more with
      | true => rfl
      | false =>
        cases hrelease : c.releaseEntry start with
        | none => simp [hrelease]
        | some r => simp [hrelease, DeviceMemoryManager.withEntries]

/-- The form of the table back with other entries. -/
theorem Stored.withEntries (h : Stored s L) (entries : ℕ → GpuCoalescedEntry) : Stored (s.withEntries entries) L :=
  ⟨h.chains, h.base, h.two, h.storage⟩

theorem Inverse.same_table (h : Inverse s L) (htable : s'.table = s.table) (hpages : ∀ P, s'.pagesOf L P = s.pagesOf L P) :
    Inverse s' L where
  nodup P := by
    rw [hpages]
    exact h.nodup P
  mem P d := by
    rw [hpages, htable]
    exact h.mem P d
  bounded d := by
    rw [htable]
    exact h.bounded d

theorem update_zero {page : ℕ} (h : s.table page = 0) : Function.update s.table page 0 = s.table := by
  rw [← h, Function.update_eq_self]

/-! ### One page -/

theorem mapPage_inv (h : ReverseInv s L) {virtualAddress asid startPage i : ℕ} (hunmapped : s.table (startPage + i) = 0)
    (hpage : 0 < startPage + i ∧ startPage + i < devicePages) :
    ∃ s' L', s.mapPage process virtualAddress asid startPage i = some s' ∧ ReverseInv s' L' := by
  have hsets (s' : DeviceMemoryManager) (hs' : s.mapPage process virtualAddress asid startPage i = some s') := mapPage_sets hs'
  rw [mapPage] at hsets ⊢
  by_cases hptr : pagePointer process virtualAddress i = 0
  · rw [if_pos hptr] at hsets ⊢
    refine ⟨_, L, rfl, h.stored.withEntries _, ?_⟩
    have htable := (hsets _ rfl).table
    rw [backing, if_pos hptr] at htable
    exact h.inverse.same_table (htable.trans (update_zero hunmapped)) fun _ => rfl
  · rw [if_neg hptr] at hsets ⊢
    have hnew (Q : ℕ) : startPage + i ∉ s.pagesOf L Q := by
      rw [h.inverse.mem, hunmapped]
      exact (Nat.succ_ne_zero Q).symm
    obtain ⟨t, L', hinsert, hrepaged⟩ := insertDeviceAddr_repaged h.stored h.inverse (P := physicalPage host
      (pagePointer process virtualAddress i)) hpage hnew
    have hreturns := fun entries => (insertDeviceAddr_withEntries s entries _ _).trans (congrArg _ hinsert)
    refine ⟨_, L', hreturns _, hrepaged.stored.withEntries _, ?_⟩
    have htable := (hsets _ (hreturns _)).table
    rw [backing, if_neg hptr] at htable
    exact h.inverse.inserted hpage hunmapped htable hrepaged.pages hrepaged.other

theorem unmapPage_inv (h : ReverseInv s L) (page : ℕ) : ∃ s' L', s.unmapPage page = some s' ∧ ReverseInv s' L' := by
  have hsets (s' : DeviceMemoryManager) (hs' : s.unmapPage page = some s') := unmapPage_sets hs'
  rw [unmapPage] at hsets ⊢
  by_cases hmapped : s.table page = 0
  · have hentry : ¬ (s.entries page).compressedPhysicalPtr ≠ 0 := fun hne => hne hmapped
    rw [if_neg hentry] at hsets ⊢
    refine ⟨_, L, rfl, h.stored.withEntries _, ?_⟩
    exact h.inverse.same_table ((hsets _ rfl).table.trans (update_zero hmapped)) fun _ => rfl
  · have hentry : (s.entries page).compressedPhysicalPtr ≠ 0 := hmapped
    rw [if_pos hentry] at hsets ⊢
    have hpage : s.table page = s.table page - 1 + 1 := (Nat.succ_pred_eq_of_ne_zero hmapped).symm
    obtain ⟨t, L', pre, post, hremove, hsplit, hrepaged⟩ := removeDeviceAddr_repaged h.stored h.inverse
      ((h.inverse.mem (s.table page - 1) page).mpr hpage)
    have hreturns := fun entries => (removeDeviceAddr_withEntries s entries _ _).trans (congrArg _ hremove)
    refine ⟨_, L', hreturns _, hrepaged.stored.withEntries _, ?_⟩
    have htable := (hsets _ (hreturns _)).table
    exact h.inverse.removed hpage htable hsplit hrepaged.pages hrepaged.other

/-! ### The calls -/

theorem mapPages_inv (process : ProcessMemory host) (virtualAddress asid startPage n : ℕ) (h : ReverseInv s L)
    (hunmapped : ∀ i < n, s.table (startPage + i) = 0 ∧ 0 < startPage + i ∧ startPage + i < devicePages) :
    ∃ s' L', (List.range n).foldlM (fun s i => s.mapPage process virtualAddress asid startPage i) s = some s' ∧ ReverseInv s' L' := by
  induction n with
  | zero => exact ⟨s, L, rfl, h⟩
  | succ n ih =>
    obtain ⟨t, M, ht, hinv⟩ := ih fun i hi => hunmapped i (Nat.lt_succ_of_lt hi)
    obtain ⟨hlast, hpage⟩ := hunmapped n (Nat.lt_succ_self n)
    have htable := (foldlM_sets (backing process virtualAddress) (fun s i s' => mapPage_sets) ht).2 (startPage + n)
    rw [if_neg (by omega), hlast] at htable
    obtain ⟨s', L', hmap, hinv'⟩ : ∃ s' L', t.mapPage process virtualAddress asid startPage n = some s' ∧ ReverseInv s' L' :=
      mapPage_inv hinv htable hpage
    refine ⟨s', L', ?_, hinv'⟩
    rw [range_succ, foldlM_append, ht]
    exact congrArg (fun o => o.bind some) hmap

theorem unmapPages_inv (startPage n : ℕ) (h : ReverseInv s L) :
    ∃ s' L', (List.range n).foldlM (fun s i => s.unmapPage (startPage + i)) s = some s' ∧ ReverseInv s' L' := by
  induction n with
  | zero => exact ⟨s, L, rfl, h⟩
  | succ n ih =>
    obtain ⟨t, M, ht, hinv⟩ := ih
    obtain ⟨s', L', hunmap, hinv'⟩ := unmapPage_inv hinv (startPage + n)
    refine ⟨s', L', ?_, hinv'⟩
    rw [range_succ, foldlM_append, ht]
    exact congrArg (fun o => o.bind some) hunmap

/-- The runs are all that `TrackContinuity` sets. -/
theorem trackFrom_tables (process : ProcessMemory host) (virtualAddress startPage index lastPtr pageCount : ℕ) (s : DeviceMemoryManager) :
    (trackFrom process virtualAddress startPage index lastPtr pageCount s).compressedDeviceAddr = s.compressedDeviceAddr ∧
    (trackFrom process virtualAddress startPage index lastPtr pageCount s).multiDevAddress = s.multiDevAddress ∧
    (trackFrom process virtualAddress startPage index lastPtr pageCount s).table = s.table := by
  induction index generalizing lastPtr pageCount s with
  | zero => exact ⟨rfl, rfl, rfl⟩
  | succ index ih =>
    rw [trackFrom]
    obtain ⟨hback, hchains, htable⟩ := ih (pagePointer process virtualAddress index)
      (if pagePointer process virtualAddress index + pageSize = lastPtr then pageCount + 1 else 1) (s.setEntry (startPage + index) _)
    exact ⟨hback, hchains, htable.trans (table_setEntry_tracker s _ _)⟩

theorem ReverseInv.track (h : ReverseInv s L) (process : ProcessMemory host) (address virtualAddress size : ℕ) :
    ReverseInv (s.trackContinuity process address virtualAddress size) L := by
  obtain ⟨hback, hchains, htable⟩ := trackFrom_tables process virtualAddress (address / pageSize) (numPages size) 0 1 s
  rw [trackContinuity]
  refine ⟨⟨hchains ▸ h.stored.chains, fun P hP => ?_, h.stored.two, hchains ▸ h.stored.storage⟩, h.inverse.same_table htable fun P => ?_⟩
  · rw [hback]
    exact h.stored.base P hP
  · exact pagesOf_congr rfl (congrFun hback P)

/-- `Map` is called on pages of the device address space, without page `0`, that are not mapped. -/
def Permitted (s : DeviceMemoryManager) : Call host → Prop
  | .map _ address _ size _ _ => ∀ i < numPages size,
    s.table (address / pageSize + i) = 0 ∧ 0 < address / pageSize + i ∧ address / pageSize + i < devicePages
  | .unmap _ _ => True

instance (s : DeviceMemoryManager) : (c : Call host) → Decidable (s.Permitted c)
  | .map _ address _ size _ _ => inferInstanceAs (Decidable (∀ i < numPages size,
    s.table (address / pageSize + i) = 0 ∧ 0 < address / pageSize + i ∧ address / pageSize + i < devicePages))
  | .unmap _ _ => inferInstanceAs (Decidable True)

/-- Every call of a run is permitted. -/
def AlwaysPermitted (s : DeviceMemoryManager) : List (Call host) → Prop
  | [] => True
  | c :: calls => s.Permitted c ∧ ∀ s', s.call c = some s' → s'.AlwaysPermitted calls

theorem call_inv (h : ReverseInv s L) {c : Call host} (hc : s.Permitted c) : ∃ s' L', s.call c = some s' ∧ ReverseInv s' L' := by
  cases c with
  | map process address virtualAddress size asid track =>
    obtain ⟨t, M, ht, hinv⟩ := mapPages_inv process virtualAddress asid (address / pageSize) (numPages size) h hc
    refine ⟨t.trackContinuity process address virtualAddress size, M, ?_, hinv.track process address virtualAddress size⟩
    have hmap : s.call (.map process address virtualAddress size asid true) =
        some (t.trackContinuity process address virtualAddress size) := by
      rw [call, map, ht]
      rfl
    cases track with
    | true => exact hmap
    | false => exact (map_false_track s process address virtualAddress size asid).trans hmap
  | unmap address size =>
    rw [call, unmap]
    split
    · exact ⟨s, L, rfl, h⟩
    · exact unmapPages_inv _ _ h

/-! ### What the table back is for -/

/-- The chains have no cycles and share no entries, each entry in none of them is on the free list once,
and each operation on a physical address is applied to the device pages that are mapped there, or else to
the device page `0`. -/
structure ReverseExact (s : DeviceMemoryManager) : Prop where
  chains : ∃ L, Chains s.multiDevAddress L [] ∧
    ∀ P, (s.compressedDeviceAddr P >>> multiFlagBits = 0 ↔ L P = []) ∧
      (L P ≠ [] → s.compressedDeviceAddr P &&& multiMask = startOf (L P))
  unmapped_zero : s.table 0 = 0
  visits : ∀ address, ∃ pages, pages.Nodup ∧ (∀ d, d ∈ pages ↔ s.table d = address / pageSize + 1) ∧
    s.applyOpOnPAddr address = some ((if pages = [] then [0] else pages).map fun d => d * pageSize + address % pageSize)

theorem ReverseInv.exact (h : ReverseInv s L) : ReverseExact s where
  chains := ⟨L, h.stored.chains, fun P => ⟨base_shift h.stored h.inverse P, h.stored.base_mask⟩⟩
  unmapped_zero := by
    by_contra hmapped
    exact absurd (h.inverse.bounded 0 hmapped).1 (Nat.lt_irrefl 0)
  visits address := by
    refine ⟨s.pagesOf L (address / pageSize), h.inverse.nodup _, h.inverse.mem _, ?_⟩
    have hshift := base_shift h.stored h.inverse (address / pageSize)
    rw [applyOpOnPAddr]
    by_cases hP : L (address / pageSize) = []
    · simp only [hshift.mpr hP, if_true]
      by_cases hbase : s.compressedDeviceAddr (address / pageSize) = 0
      · rw [pagesOf_none hP hbase, hbase]
        rfl
      · rw [pagesOf_single hP hbase]
        rfl
    · have hflag : ¬ s.compressedDeviceAddr (address / pageSize) >>> multiFlagBits = 0 := fun hzero => hP (hshift.mp hzero)
      have hpages : (L (address / pageSize)).map Prod.snd ≠ [] := fun hnil => hP (map_eq_nil_iff.mp hnil)
      have hgather := gatherFrom_linked (h.stored.chains.linked _) hP (h.stored.chains.length_le (address / pageSize))
      simp only [hflag, if_false, h.stored.base_mask hP, gatherValues, hgather, pagesOf_chain hP, hpages, Option.bind_eq_bind,
        Option.bind_some]
      rfl

theorem reverseInv_initial (deviceInter : Bool) : ReverseInv (initial deviceInter) fun _ => [] where
  stored := by
    refine ⟨⟨fun _ => trivial, fun _ => nodup_nil, fun _ _ _ hi => absurd hi not_mem_nil, fun i => ?_⟩,
      fun P hP => absurd rfl hP, fun P hP => absurd rfl hP, Nat.zero_le _⟩
    constructor
    · rintro ⟨hi, hle⟩
      exact absurd (Nat.le_zero.mp hle) hi
    · rintro (hfree | ⟨P, hP⟩)
      · exact absurd hfree not_mem_nil
      · exact absurd hP not_mem_nil
  inverse := by
    refine ⟨fun _ => nodup_nil, fun P d => ⟨fun hd => absurd hd not_mem_nil, fun hd => ?_⟩, fun d hd => absurd rfl hd⟩
    exact absurd hd.symm (Nat.succ_ne_zero P)

theorem alwaysPermitted_inv {calls : List (Call host)} (h : ReverseInv s L) (hcalls : s.AlwaysPermitted calls) :
    ∃ s', calls.foldlM call s = some s' ∧ ReverseExact s' := by
  induction calls generalizing s L with
  | nil => exact ⟨s, rfl, h.exact⟩
  | cons c calls ih =>
    obtain ⟨t, M, ht, hinv⟩ := call_inv h hcalls.1
    obtain ⟨s', hs', hexact⟩ := ih hinv (hcalls.2 t ht)
    refine ⟨s', ?_, hexact⟩
    rw [foldlM_cons, ht]
    exact hs'

/-- **Every run that maps only pages which are not mapped ends, with a table back that is exact.** -/
theorem reverse_map (deviceInter : Bool) (calls : List (Call host)) (h : (initial deviceInter).AlwaysPermitted calls) :
    ∃ s, calls.foldlM call (initial deviceInter) = some s ∧ ReverseExact s :=
  alwaysPermitted_inv (reverseInv_initial deviceInter) h

/-- Two device pages on one physical page. -/
def mapTwice : List (Call lowHost) :=
  [.map identityProcess 0x1000 0x5000 0x1000 0 true, .map identityProcess 0x2000 0x5000 0x1000 0 false]

theorem reverse_map_mapTwice : ∃ s, mapTwice.foldlM call (initial true) = some s ∧ ReverseExact s := by
  refine reverse_map true mapTwice ⟨by decide, fun s hs => ?_⟩
  rw [← Option.some.inj hs]
  exact ⟨by decide, fun _ _ => trivial⟩

/-- Nothing is mapped to the physical page `5`, and an operation on it is applied to device page `0`. -/
theorem no_page_visits_zero : ¬ ∀ address, ∃ pages : List ℕ, pages.Nodup ∧
    (∀ d, d ∈ pages ↔ (initial true).table d = address / pageSize + 1) ∧
    (initial true).applyOpOnPAddr address = some (pages.map fun d => d * pageSize + address % pageSize) := by
  intro h
  obtain ⟨pages, -, hmem, hvisits⟩ := h 0x5000
  cases pages with
  | nil => cases hvisits
  | cons d pages =>
    have hd := (hmem d).mp mem_cons_self
    cases hd

end DeviceMemoryManager
end DeviceMemory
end Core
end Citron
