/-
# Calls that fail half done

`AllocateSpace` fails before it has done anything. `FreeSpace` puts an area into the map that it does not find there,
and it frees mappings until one of them is gone already. `MapBufferEx` pins the handle before it looks for room.
-/
import Citron.Nvdrv.NvMapEviction
import Citron.Nvdrv.NvMapPinCounts
import Citron.Nvdrv.NvhostAsGpu

namespace Citron
namespace Nvdrv
namespace NvhostAsGpu

open Common Function Option

variable {α β γ π : Type} {s s' : NvhostAsGpu α β γ π}

/-- The areas, the mappings, the allocators, the page table and the pins are as they were. -/
structure Unchanged (s s' : NvhostAsGpu α β γ π) : Prop where
  allocationMap : s'.allocationMap = s.allocationMap
  mappingMap : s'.mappingMap = s.mappingMap
  smallPageAllocator : s'.smallPageAllocator = s.smallPageAllocator
  bigPageAllocator : s'.bigPageAllocator = s.bigPageAllocator
  gmmu : s'.gmmu = s.gmmu
  pins : ∀ id, (s'.nvmap.objects id).pins = (s.nvmap.objects id).pins

theorem Unchanged.rfl : Unchanged s s := ⟨Eq.refl _, Eq.refl _, Eq.refl _, Eq.refl _, Eq.refl _, fun _ => Eq.refl _⟩

/-! ### Allocators of pages -/

@[simp] theorem setPageAllocator_self (s : NvhostAsGpu α β γ π) (bigPages : Bool) :
    s.setPageAllocator bigPages (s.pageAllocator bigPages) = s := by
  cases bigPages <;> rfl

@[simp] theorem setPageAllocator_mappingMap (s : NvhostAsGpu α β γ π) (bigPages : Bool) (allocator : γ) :
    (s.setPageAllocator bigPages allocator).mappingMap = s.mappingMap := by
  cases bigPages <;> rfl

@[simp] theorem setPageAllocator_nvmap (s : NvhostAsGpu α β γ π) (bigPages : Bool) (allocator : γ) :
    (s.setPageAllocator bigPages allocator).nvmap = s.nvmap := by
  cases bigPages <;> rfl

/-- The pages of an allocation have no offset exactly if there are none. -/
theorem offset_eq_zero {page bits : ℕ} : page <<< bits = 0 ↔ page = 0 := by
  simp [Nat.shiftLeft_eq]

/-- An allocation without room leaves the state as it is. -/
theorem setPageAllocator_none {bigPages : Bool} {size : ℕ} (hnone : (s.pages.allocate (s.pageAllocator bigPages) size).1 = 0) :
    s.setPageAllocator bigPages (s.pages.allocate (s.pageAllocator bigPages) size).2 = s := by
  rw [s.pages.allocate_none _ _ hnone, setPageAllocator_self]

/-! ### `AllocateSpace` -/

theorem allocateSpace_fails {params : IoctlAllocSpace} (hfails : (s.allocateSpace params).2.1 ≠ .success) :
    (s.allocateSpace params).1 = s := by
  unfold allocateSpace at hfails ⊢
  split_ifs at hfails ⊢ with hinit hsize hsparse hfixed
  · rfl
  · rfl
  · rfl
  · exact absurd rfl hfails
  · dsimp only at hfails ⊢
    split_ifs at hfails ⊢ with hzero
    · exact setPageAllocator_none (offset_eq_zero.1 hzero)
    · exact absurd rfl hfails

/-! ### `FreeSpace` -/

/-- `FreeMappingLocked` throws for an offset without a mapping, and a mapping is gone afterwards. -/
theorem freeMappingLocked_eq (s : NvhostAsGpu α β γ π) (offset : ℕ) :
    (s.mappingMap offset = none ∧ s.freeMappingLocked offset = none) ∨
      ∃ mapping s', s.mappingMap offset = some mapping ∧ s.freeMappingLocked offset = some s' ∧
        s'.mappingMap = update s.mappingMap offset none ∧ s'.nvmap = s.nvmap.unpinHandle mapping.handle := by
  unfold freeMappingLocked
  cases hmapping : s.mappingMap offset with
  | none => exact Or.inl ⟨rfl, rfl⟩
  | some mapping =>
    refine Or.inr ⟨mapping, _, rfl, rfl, ?_, ?_⟩
    · split <;> split <;> simp [freePages]
    · dsimp only
      split <;> split <;> simp [freePages]

/-- All mappings can be freed: none is gone and none comes twice. -/
def Freeable (s : NvhostAsGpu α β γ π) (mappings : List BufferMapping) : Prop :=
  (mappings.map BufferMapping.offset).Nodup ∧ ∀ mapping ∈ mappings, s.mappingMap mapping.offset ≠ none

/-- A mapping that is gone does not come back. -/
theorem freeMappings_gone (mappings : List BufferMapping) (s : NvhostAsGpu α β γ π) {offset : ℕ} (hgone : s.mappingMap offset = none) :
    (freeMappings mappings s).1.mappingMap offset = none := by
  induction mappings generalizing s with
  | nil => exact hgone
  | cons mapping mappings ih =>
    rw [freeMappings]
    rcases s.freeMappingLocked_eq mapping.offset with ⟨-, hfree⟩ | ⟨-, s', -, hfree, hmap, -⟩
    · rw [hfree]
      exact hgone
    · rw [hfree]
      apply ih
      rw [hmap]
      by_cases hsame : offset = mapping.offset
      · rw [hsame, update_self]
      · rw [update_of_ne hsame, hgone]

/-- **The loop comes to its end exactly if all mappings can be freed.** -/
theorem freeMappings_iff (mappings : List BufferMapping) (s : NvhostAsGpu α β γ π) :
    (freeMappings mappings s).2 = true ↔ s.Freeable mappings := by
  induction mappings generalizing s with
  | nil => exact iff_of_true rfl ⟨List.nodup_nil, nofun⟩
  | cons mapping mappings ih =>
    rw [freeMappings]
    rcases s.freeMappingLocked_eq mapping.offset with ⟨hnone, hfree⟩ | ⟨first, s', hfirst, hfree, hmap, -⟩
    · rw [hfree]
      exact iff_of_false Bool.false_ne_true fun h => h.2 mapping List.mem_cons_self hnone
    · rw [hfree]
      have hother {offset : ℕ} : s'.mappingMap offset ≠ none ↔ offset ≠ mapping.offset ∧ s.mappingMap offset ≠ none := by
        rw [hmap]
        by_cases hsame : offset = mapping.offset
        · rw [hsame, update_self]
          simp
        · rw [update_of_ne hsame]
          simp [hsame]
      calc (freeMappings mappings s').2 = true
          ↔ s'.Freeable mappings := ih s'
        _ ↔ s.Freeable (mapping :: mappings) := by
          simp only [Freeable, hother, List.map_cons, List.nodup_cons, List.mem_map, List.forall_mem_cons]
          grind

/-- When a failure of `FreeSpace` changes nothing: the area is known, and it is another one, or already the first of its
mappings is gone, or they can all be freed. An area without pages is found even if it is not known. -/
def FreesWhole (s : NvhostAsGpu α β γ π) (params : IoctlFreeSpace) : Prop :=
  match s.allocationMap[params.offset]? with
  | none => params.pageSize = 0
  | some allocation =>
    allocation.pageSize ≠ params.pageSize ∨ allocation.size ≠ params.pages * params.pageSize ∨
      (∃ mapping ∈ allocation.mappings.head?, s.mappingMap mapping.offset = none) ∨ s.Freeable allocation.mappings

/-- The loop has changed nothing when it stops exactly if it stops at once. -/
theorem freeMappings_unchanged (mappings : List BufferMapping) (hfails : (freeMappings mappings s).2 = false) :
    Unchanged s (freeMappings mappings s).1 ↔ ∃ mapping ∈ mappings.head?, s.mappingMap mapping.offset = none := by
  cases mappings with
  | nil => cases hfails
  | cons mapping mappings =>
    rw [List.head?_cons]
    rcases s.freeMappingLocked_eq mapping.offset with ⟨hnone, hfree⟩ | ⟨first, s', hfirst, hfree, hmap, -⟩
    · rw [freeMappings, hfree]
      exact iff_of_true Unchanged.rfl ⟨mapping, rfl, hnone⟩
    · refine iff_of_false ?_ ?_
      · intro hsame
        have hgone : (freeMappings (mapping :: mappings) s).1.mappingMap mapping.offset = none := by
          rw [freeMappings, hfree]
          apply freeMappings_gone
          rw [hmap, update_self]
        rw [hsame.mappingMap, hfirst] at hgone
        cases hgone
      · rintro ⟨_, ⟨⟩, hnone⟩
        rw [hfirst] at hnone
        cases hnone

theorem freeSpace_keeps_iff (s : NvhostAsGpu α β γ π) (params : IoctlFreeSpace) :
    ((s.freeSpace params).2 ≠ .success → Unchanged s (s.freeSpace params).1) ↔ (s.initialised = true → s.FreesWhole params) := by
  unfold freeSpace FreesWhole allocationAt
  cases hinit : s.initialised with
  | false => exact iff_of_true (fun _ => Unchanged.rfl) nofun
  | true =>
    rw [forall_prop_of_true rfl, Bool.not_true, if_neg Bool.false_ne_true]
    cases hknown : s.allocationMap[params.offset]? with
    | none =>
      dsimp only
      by_cases hsize : params.pageSize = 0
      · refine iff_of_true (fun hfails => absurd ?_ hfails) hsize
        simp [hsize, Allocation.empty, freeMappings]
      · refine iff_of_false ?_ hsize
        intro hsame
        rw [if_pos (Or.inl fun h => hsize h.symm)] at hsame
        have hmap := (hsame nofun).allocationMap
        rw [← hmap] at hknown
        simp at hknown
    | some allocation =>
      dsimp only
      by_cases hother : allocation.pageSize ≠ params.pageSize ∨ allocation.size ≠ params.pages * params.pageSize
      · rw [if_pos hother]
        exact iff_of_true (fun _ => Unchanged.rfl) (by tauto)
      · rw [if_neg hother]
        have hfreeable := freeMappings_iff allocation.mappings s
        have hunchanged := freeMappings_unchanged (s := s) allocation.mappings
        generalize freeMappings allocation.mappings s = r at *
        obtain ⟨t, completed⟩ := r
        cases completed with
        | true =>
          exact iff_of_true (fun hfails => absurd rfl hfails) (by tauto)
        | false =>
          have hchanged := hunchanged rfl
          rw [hchanged]
          exact ⟨fun h => Or.inr (Or.inr (Or.inl (h nofun))), by tauto⟩

/-! ### `MapBufferEx` -/

/-- There is room for the buffer: an area around it, or enough pages in a row. -/
def HasRoomFor (s : NvhostAsGpu α β γ π) (params : IoctlMapBufferEx) : Prop :=
  let size := s.bufferSize params
  let bigPage := isAligned (s.nvmap.objects params.handle).align s.bigPageSize
  if params.flags.fixed then s.allocationAround params.offset size ≠ none
  else (s.pages.allocate (s.pageAllocator bigPage) (s.alignedSize bigPage size >>> s.bitsOfPage bigPage % 2 ^ 32)).1 ≠ 0

/-- When a failure of `MapBufferEx` changes nothing: the handle is not known, or it gets its pin and there is room for the
buffer, or it gets none; a handle that was unpinned too often gets one and no address. -/
def MapsWhole (s : NvhostAsGpu α β γ π) (params : IoctlMapBufferEx) : Prop :=
  params.flags.remap = true ∨ s.nvmap.handles params.handle = false ∨
    (s.nvmap.Pinnable params.handle ∧ s.HasRoomFor params) ∨
    (¬s.nvmap.Pinnable params.handle ∧ (s.nvmap.objects params.handle).pins = 0)

theorem mapAgain_fails {params : IoctlMapBufferEx} (hfails : (s.mapAgain params).2 ≠ .success) : (s.mapAgain params).1 = s := by
  unfold mapAgain at hfails ⊢
  split
  · rfl
  · rename_i mapping heq
    simp only [heq] at hfails
    split_ifs at hfails ⊢
    · rfl
    · exact absurd rfl hfails

theorem mapFixed_eq (s : NvhostAsGpu α β γ π) (params : IoctlMapBufferEx) (deviceAddress size : ℕ) (bigPage : Bool) :
    (s.allocationAround params.offset size = none ∧ s.mapFixed params deviceAddress size bigPage = (s, .badValue)) ∨
      (s.allocationAround params.offset size ≠ none ∧ (s.mapFixed params deviceAddress size bigPage).2 = .success ∧
        (s.mapFixed params deviceAddress size bigPage).1.nvmap = s.nvmap) := by
  unfold mapFixed
  cases s.allocationAround params.offset size with
  | none => exact Or.inl ⟨rfl, rfl⟩
  | some alloc => exact Or.inr ⟨nofun, rfl, rfl⟩

theorem mapAnywhere_eq (s : NvhostAsGpu α β γ π) (params : IoctlMapBufferEx) (deviceAddress size : ℕ) (bigPage : Bool) :
    ((s.pages.allocate (s.pageAllocator bigPage) (s.alignedSize bigPage size >>> s.bitsOfPage bigPage % 2 ^ 32)).1 = 0 ∧
        s.mapAnywhere params deviceAddress size bigPage = (s, .insufficientMemory, 0)) ∨
      ((s.pages.allocate (s.pageAllocator bigPage) (s.alignedSize bigPage size >>> s.bitsOfPage bigPage % 2 ^ 32)).1 ≠ 0 ∧
        (s.mapAnywhere params deviceAddress size bigPage).2.1 = .success ∧
        (s.mapAnywhere params deviceAddress size bigPage).1.nvmap = s.nvmap) := by
  unfold mapAnywhere
  dsimp only
  split_ifs with hzero
  · have hnone := offset_eq_zero.1 hzero
    refine Or.inl ⟨hnone, ?_⟩
    rw [setPageAllocator_none hnone, hnone]
    simp
  · exact Or.inr ⟨fun hnone => hzero (offset_eq_zero.2 hnone), rfl, setPageAllocator_nvmap _ _ _⟩

/-- A pinned handle is mapped if there is room, and otherwise nothing else happens to the pins. -/
theorem mapPinned_eq (s : NvhostAsGpu α β γ π) (params : IoctlMapBufferEx) (base : ℕ) :
    ((s.mapPinned params base).2.1 = .success ↔ s.HasRoomFor params) ∧ (s.mapPinned params base).1.nvmap = s.nvmap := by
  unfold mapPinned HasRoomFor
  dsimp only
  split_ifs with hfixed
  · rcases s.mapFixed_eq params ((base + params.bufferOffset) % 2 ^ 64) (s.bufferSize params)
        (isAligned (s.nvmap.objects params.handle).align s.bigPageSize) with ⟨hnone, hmap⟩ | ⟨hsome, hmap, hnvmap⟩
    · rw [hmap]
      exact ⟨iff_of_false nofun (not_not.2 hnone), rfl⟩
    · exact ⟨iff_of_true hmap hsome, hnvmap⟩
  · rcases s.mapAnywhere_eq params ((base + params.bufferOffset) % 2 ^ 64) (s.bufferSize params)
        (isAligned (s.nvmap.objects params.handle).align s.bigPageSize) with ⟨hnone, hmap⟩ | ⟨hsome, hmap, hnvmap⟩
    · rw [hmap]
      exact ⟨iff_of_false nofun (not_not.2 hnone), rfl⟩
    · exact ⟨iff_of_true hmap hsome, hnvmap⟩

section

variable {nvmap : NvMap α β} {params : IoctlMapBufferEx} {base : ℕ}

section

variable (hpinned : NvMap.Pinned s.nvmap nvmap params.handle base)
include hpinned

/-- The room for a buffer does not depend on the pins. -/
theorem hasRoomFor_pinned :
    { s with nvmap := nvmap }.HasRoomFor params ↔ s.HasRoomFor params := by
  unfold HasRoomFor bufferSize
  rw [hpinned.align, hpinned.origSize]
  exact Iff.rfl

/-- A handle that has got a pin has changed. -/
theorem not_unchanged_of_pinned
    (hgets : s.nvmap.Pinnable params.handle ∨ (s.nvmap.objects params.handle).pins ≠ 0) (hnvmap : s'.nvmap = nvmap) : ¬Unchanged s s' := by
  intro hsame
  have hpins := hsame.pins params.handle
  rw [hnvmap, hpinned.gets hgets] at hpins
  omega

/-- A handle that has got none has not. -/
theorem unchanged_of_unpinned (hnot : ¬s.nvmap.Pinnable params.handle)
    (hzero : (s.nvmap.objects params.handle).pins = 0) : Unchanged s { s with nvmap := nvmap } := by
  refine ⟨rfl, rfl, rfl, rfl, rfl, ?_⟩
  intro i
  by_cases hi : i = params.handle
  · rw [hi]
    exact hpinned.fails hnot hzero
  · exact hpinned.other i hi

end

end

theorem mapBufferEx_keeps_iff (hs : s.nvmap.Accounted) (params : IoctlMapBufferEx) :
    ∃ s' result offset, s.mapBufferEx params = some (s', result, offset) ∧
      ((result ≠ .success → Unchanged s s') ↔ (s.initialised = true → s.MapsWhole params)) ∧ s'.nvmap.Accounted := by
  unfold mapBufferEx MapsWhole
  cases hinit : s.initialised with
  | false => exact ⟨s, _, _, rfl, iff_of_true (fun _ => Unchanged.rfl) nofun, hs⟩
  | true =>
    rw [forall_prop_of_true rfl, Bool.not_true, if_neg Bool.false_ne_true]
    cases hremap : params.flags.remap with
    | true =>
      refine ⟨_, _, _, rfl, iff_of_true ?_ (Or.inl rfl), ?_⟩
      · intro hfails
        rw [mapAgain_fails hfails]
        exact Unchanged.rfl
      · unfold mapAgain
        split
        · exact hs
        · split <;> exact hs
    | false =>
      rw [if_neg Bool.false_ne_true, or_iff_right Bool.false_ne_true]
      cases hreg : s.nvmap.handles params.handle with
      | false => exact ⟨s, _, _, rfl, iff_of_true (fun _ => Unchanged.rfl) (Or.inl rfl), hs⟩
      | true =>
        obtain ⟨nvmap, base, hpin, hpinned⟩ := hs.pinHandle_pinned (maxFreeAttempts - 1) hreg
        have hcall : s.pinHandle params.handle = some ({ s with nvmap := nvmap }, base) := by
          rw [pinHandle]
          exact congrArg _ hpin
        rw [Bool.not_true, if_neg Bool.false_ne_true, or_iff_right (fun h => Bool.false_ne_true h.symm), hcall]
        rw [bind_eq_bind, bind_some]
        dsimp only
        by_cases hpinnable : s.nvmap.Pinnable params.handle
        · rw [if_neg (hpinned.address.2 hpinnable)]
          obtain ⟨hsuccess, hnvmap⟩ := mapPinned_eq { s with nvmap := nvmap } params base
          rw [hasRoomFor_pinned hpinned] at hsuccess
          generalize mapPinned { s with nvmap := nvmap } params base = r at *
          obtain ⟨t, result, offset⟩ := r
          refine ⟨t, result, offset, rfl, ?_, ?_⟩
          · by_cases hroom : s.HasRoomFor params
            · exact iff_of_true (fun hfails => absurd (hsuccess.2 hroom) hfails) (Or.inl ⟨hpinnable, hroom⟩)
            · refine iff_of_false (fun hsame => ?_) (by tauto)
              exact not_unchanged_of_pinned hpinned (Or.inl hpinnable) hnvmap (hsame (mt hsuccess.1 hroom))
          · change t.nvmap = nvmap at hnvmap
            rw [hnvmap]
            exact hpinned.accounted
        · rw [if_pos (not_not.1 (mt hpinned.address.1 hpinnable))]
          refine ⟨_, _, _, rfl, ?_, hpinned.accounted⟩
          by_cases hzero : (s.nvmap.objects params.handle).pins = 0
          · exact iff_of_true (fun _ => unchanged_of_unpinned hpinned hpinnable hzero) (Or.inr ⟨hpinnable, hzero⟩)
          · refine iff_of_false (fun hsame => ?_) (by tauto)
            exact not_unchanged_of_pinned hpinned (Or.inr hzero) rfl (hsame nofun)

/-! ### Runs -/

theorem setPageAllocator_accounted (hs : s.nvmap.Accounted) (bigPages : Bool) (allocator : γ) :
    (s.setPageAllocator bigPages allocator).nvmap.Accounted := by
  rw [setPageAllocator_nvmap]
  exact hs

theorem freeMappings_accounted (mappings : List BufferMapping) (hs : s.nvmap.Accounted) :
    (freeMappings mappings s).1.nvmap.Accounted := by
  induction mappings generalizing s with
  | nil => exact hs
  | cons mapping mappings ih =>
    rw [freeMappings]
    rcases s.freeMappingLocked_eq mapping.offset with ⟨-, hfree⟩ | ⟨first, s', -, hfree, -, hnvmap⟩
    · rw [hfree]
      exact hs
    · rw [hfree]
      apply ih
      rw [hnvmap]
      exact hs.unpinHandle first.handle

theorem freeSpace_accounted (hs : s.nvmap.Accounted) (params : IoctlFreeSpace) : (s.freeSpace params).1.nvmap.Accounted := by
  have hat : (s.allocationAt params.offset).1.nvmap.Accounted := by
    unfold allocationAt
    split <;> exact hs
  unfold freeSpace
  split
  · exact hs
  · generalize s.allocationAt params.offset = r at *
    obtain ⟨t, allocation⟩ := r
    dsimp only
    split
    · exact hat
    · have hfree := freeMappings_accounted allocation.mappings hat
      generalize freeMappings allocation.mappings t = r at *
      obtain ⟨u, completed⟩ := r
      cases completed with
      | false => exact hfree
      | true =>
        dsimp only
        split
        · exact setPageAllocator_accounted (s := { u with gmmu := u.table.unmap u.gmmu params.offset allocation.size }) hfree _ _
        · exact setPageAllocator_accounted hfree _ _

theorem allocateSpace_accounted (hs : s.nvmap.Accounted) (params : IoctlAllocSpace) : (s.allocateSpace params).1.nvmap.Accounted := by
  have hadd {s : NvhostAsGpu α β γ π} (hs : s.nvmap.Accounted) (offset : ℕ) : (s.addAllocation params offset).nvmap.Accounted := by
    unfold addAllocation
    split <;> exact hs
  unfold allocateSpace
  split_ifs
  · exact hs
  · exact hs
  · exact hs
  · exact hadd (setPageAllocator_accounted hs _ _) _
  · dsimp only
    split
    · exact setPageAllocator_accounted hs _ _
    · exact hadd (setPageAllocator_accounted hs _ _) _

theorem ioctl_accounted (hs : s.nvmap.Accounted) {call : Ioctl} {result : NvResult} {offset : ℕ}
    (hcall : s.ioctl call = some (s', result, offset)) : s'.nvmap.Accounted := by
  cases call with
  | allocateSpace params =>
    injection hcall with hcall
    have := allocateSpace_accounted hs params
    rw [hcall] at this
    exact this
  | freeSpace params =>
    cases hcall
    exact freeSpace_accounted hs params
  | mapBufferEx params =>
    obtain ⟨t, r, o, heq, -, ht⟩ := mapBufferEx_keeps_iff hs params
    cases heq.symm.trans hcall
    exact ht

theorem remapEntries_accounted (entries : List IoctlRemapEntry) (hs : s.nvmap.Accounted) {result : NvResult}
    (hcall : remapEntries entries s = some (s', result)) : s'.nvmap.Accounted := by
  have hentry {s s' : NvhostAsGpu α β γ π} (hs : s.nvmap.Accounted) {entry : IoctlRemapEntry} {result : NvResult}
      (hcall : s.remapEntry entry = some (s', result)) : s'.nvmap.Accounted := by
    unfold remapEntry at hcall
    dsimp only at hcall
    split at hcall
    · cases hcall
      exact hs
    · split_ifs at hcall with hsparse hzero hreg
      · cases hcall
        exact hs
      · cases hcall
        exact hs
      · cases hcall
        exact hs
      · obtain ⟨⟨t, base⟩, hpin, hcall⟩ := bind_eq_some_iff.1 hcall
        obtain ⟨r, hpin, heq⟩ := map_eq_some_iff.1 hpin
        obtain ⟨nvmap, address, hpin', ht⟩ := hs.pinHandle (maxFreeAttempts - 1) entry.handle false
        cases hpin'.symm.trans hpin
        cases heq
        split at hcall
        · cases hcall
          exact ht
        · cases hcall
          exact ht
  induction entries generalizing s with
  | nil =>
    cases hcall
    exact hs
  | cons entry entries ih =>
    rw [remapEntries] at hcall
    obtain ⟨⟨t, r⟩, hfirst, hcall⟩ := bind_eq_some_iff.1 hcall
    dsimp only at hcall
    split at hcall
    · exact ih (hentry hs hfirst) hcall
    · cases hcall
      exact hentry hs hfirst

/-- **Every call keeps the queue of nvmap in order.** -/
theorem step_accounted (hs : s.nvmap.Accounted) {event : Event α β γ π} {reply : Reply} (hstep : s.step event = some (s', reply)) :
    s'.nvmap.Accounted := by
  cases event with
  | allocAsEx params =>
    cases hstep
    unfold allocAsEx
    split_ifs <;> exact hs
  | ioctl call =>
    obtain ⟨r, hcall, heq⟩ := map_eq_some_iff.1 hstep
    cases heq
    exact ioctl_accounted hs hcall
  | remap entries =>
    obtain ⟨r, hcall, heq⟩ := map_eq_some_iff.1 hstep
    cases heq
    unfold remap at hcall
    split at hcall
    · cases hcall
      exact hs
    · exact remapEntries_accounted entries hs hcall
  | unmapBuffer offset =>
    cases hstep
    unfold unmapBuffer
    split
    · exact hs
    · split
      · exact hs
      · split <;> split <;> simp only [freePages, setPageAllocator_nvmap] <;> exact hs.unpinHandle _
  | nvmap event =>
    obtain ⟨r, hcall, heq⟩ := map_eq_some_iff.1 hstep
    cases heq
    exact NvMap.step_accounted hs hcall
  | channel smallPageAllocator gmmu =>
    cases hstep
    exact hs

theorem run_accounted {nvmap : NvMap α β} {pages : PageAllocator γ} {table : PageTable π} {history : List (Event α β γ π × Reply)}
    (hnvmap : nvmap.Accounted) (hrun : Lib.History step (fun _ _ => True) (initial nvmap pages table) s history) : s.nvmap.Accounted :=
  hrun.invariant (P := fun s _ => s.nvmap.Accounted) hnvmap fun _ _ _ _ _ hs _ hstep => step_accounted hs hstep

/-- When a failure of the call changes nothing. -/
def KeepsOnFailure (s : NvhostAsGpu α β γ π) : Ioctl → Prop
  | .allocateSpace _ => True
  | .freeSpace params => s.initialised = true → s.FreesWhole params
  | .mapBufferEx params => s.initialised = true → s.MapsWhole params

/-- **A call ends in every state that is reached, and when it fails everything is as it was exactly if it frees its area as a
whole or maps its buffer as a whole.** -/
theorem failing_ioctl_unchanged_iff {memoryManager : AddressAllocator α} {deviceSpace : α} {allocator : AddressAllocator β} {lowArea : β}
    {pages : PageAllocator γ} {table : PageTable π} {history : List (Event α β γ π × Reply)}
    (hrun : Lib.History step (fun _ _ => True)
      (initial (NvMap.initial memoryManager deviceSpace allocator lowArea) pages table) s history) (call : Ioctl) :
    ∃ s' result offset, s.ioctl call = some (s', result, offset) ∧
      ((result ≠ .success → Unchanged s s') ↔ s.KeepsOnFailure call) := by
  have hs := run_accounted (NvMap.initial_accounted memoryManager deviceSpace allocator lowArea) hrun
  cases call with
  | allocateSpace params =>
    refine ⟨(s.allocateSpace params).1, (s.allocateSpace params).2.1, (s.allocateSpace params).2.2, rfl, iff_of_true ?_ trivial⟩
    intro hfails
    rw [allocateSpace_fails hfails]
    exact Unchanged.rfl
  | freeSpace params => exact ⟨(s.freeSpace params).1, (s.freeSpace params).2, params.offset, rfl, s.freeSpace_keeps_iff params⟩
  | mapBufferEx params =>
    obtain ⟨s', result, offset, hcall, hiff, -⟩ := mapBufferEx_keeps_iff hs params
    exact ⟨s', result, offset, hcall, hiff⟩

/-- Pages by first fit; the state is the list of the ranges that are taken. -/
def firstFitPages : PageAllocator (List (ℕ × ℕ)) where
  toAddressAllocator := firstFit (2 ^ 22)
  new _ _ := []
  allocateFixed ranges start size := (start, size) :: ranges

/-- Where an address is mapped to, or that it is sparse. -/
def addressTable : PageTable (ℕ → Option (Option ℕ)) where
  new _ _ _ _ := none
  map table address deviceAddress size _ _ a := if address ≤ a ∧ a < address + size then some (some (deviceAddress + (a - address))) else table a
  mapSparse table address size _ a := if address ≤ a ∧ a < address + size then some none else table a
  unmap table address size a := if address ≤ a ∧ a < address + size then none else table a

/-- An address space that is not initialised yet, and a device with room for a few handles. -/
def fresh : NvhostAsGpu (List (ℕ × ℕ)) (List (ℕ × ℕ)) (List (ℕ × ℕ)) (ℕ → Option (Option ℕ)) :=
  initial (NvMap.device 4) firstFitPages addressTable

/-- The same with the default sizes. -/
def ready : NvhostAsGpu (List (ℕ × ℕ)) (List (ℕ × ℕ)) (List (ℕ × ℕ)) (ℕ → Option (Option ℕ)) := (fresh.allocAsEx ⟨0, 0, 0, 0⟩).1

theorem failing_ioctl_unchanged_iff_ready : ∃ s' result offset, ready.ioctl (.freeSpace ⟨0x100000, 1, 0x1000⟩) = some (s', result, offset) ∧
    ((result ≠ .success → Unchanged ready s') ↔ ready.KeepsOnFailure (.freeSpace ⟨0x100000, 1, 0x1000⟩)) := by
  have hstep : fresh.step (.allocAsEx ⟨0, 0, 0, 0⟩) = some (ready, .result .success) := rfl
  have hrun : Lib.History step (fun _ _ => True) fresh ready _ := Lib.History.start.step trivial hstep
  exact failing_ioctl_unchanged_iff hrun (.freeSpace ⟨0x100000, 1, 0x1000⟩)

/-- A handle with memory, and an address space without areas. -/
def oneHandle : List (Event (List (ℕ × ℕ)) (List (ℕ × ℕ)) (List (ℕ × ℕ)) (ℕ → Option (Option ℕ))) :=
  [.allocAsEx ⟨0, 0, 0, 0⟩, .nvmap (.createHandle 0x1000), .nvmap (.alloc 4 false 0x1000 0x10000000 0)]

/-- **The handle keeps its pin when there is no area to map it into.** -/
theorem mapBufferEx_leaves_pin : ∃ s history call s' result offset, Lib.History step (fun _ _ => True) fresh s history ∧
    s.ioctl call = some (s', result, offset) ∧ result ≠ .success ∧ ¬Unchanged s s' := by
  have hfacts : (Lib.replay step oneHandle (fresh, [])).map (fun r => ((r.1.nvmap.objects 4).pins,
      (r.1.ioctl (.mapBufferEx ⟨⟨true, false, false⟩, 0, 4, 0, 0, 0x40000000⟩)).map fun c => (c.2.1, (c.1.nvmap.objects 4).pins))) =
        some (0, some (.badValue, 1)) := by
    decide +kernel
  obtain ⟨r, hreplay, hr⟩ := map_eq_some_iff.1 hfacts
  injection hr with hbefore hr
  obtain ⟨⟨s', result, offset⟩, hcall, hc⟩ := map_eq_some_iff.1 hr
  injection hc with hresult hafter
  refine ⟨r.1, r.2, _, s', result, offset, Lib.history_of_replay .start hreplay, hcall, ?_, ?_⟩
  · change result = .badValue at hresult
    rw [hresult]
    nofun
  · intro hsame
    have hpins := hsame.pins 4
    rw [hbefore] at hpins
    exact absurd (hafter.symm.trans hpins) (by decide)

end NvhostAsGpu
end Nvdrv
end Citron
