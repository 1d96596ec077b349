/-
# Eviction

When the address space of the device is full, `PinHandle` unmaps the handles of the queue, but not more than it
has attempts for, and it has them only once.
-/
import Citron.Nvdrv.NvMapPins

namespace Citron
namespace Nvdrv

open Common

/-- The first gap that is long enough, from an address on, with the ranges and the new one. -/
def firstGap (limit size : ℕ) : ℕ → List (ℕ × ℕ) → ℕ × List (ℕ × ℕ)
  | start, [] => if start + size ≤ limit then (start, [(start, size)]) else (0, [])
  | start, range :: ranges =>
    if start + size ≤ range.1 then (start, (start, size) :: range :: ranges)
    else
      let r := firstGap limit size (range.1 + range.2) ranges
      (r.1, range :: r.2)

/-- First fit, from the second page on; the state is the list of the ranges that are taken. -/
def firstFit (limit : ℕ) : AddressAllocator (List (ℕ × ℕ)) where
  allocate ranges size := if (firstGap limit size 0x1000 ranges).1 = 0 then (0, ranges) else firstGap limit size 0x1000 ranges
  free ranges address _ := ranges.filter fun range => range.1 != address
  allocate_none := by
    intro ranges size hnone
    split at hnone
    · rename_i hzero
      rw [if_pos hzero]
    · rename_i hsome
      exact absurd hnone hsome

namespace NvMap

variable {α β : Type} {s : NvMap α β} {id : ℕ}

/-- There is room for the handle when all handles of the queue are unmapped. -/
def RoomAfterAll (s : NvMap α β) (id : ℕ) : Prop :=
  (s.release s.unmapQueue).HasRoom (alignUp (s.objects id).alignedSize bigPageSize)

instance (s : NvMap α β) (id : ℕ) : Decidable (s.RoomAfterAll id) := inferInstanceAs (Decidable (HasRoom _ _))

/-- **`PinHandle` ends, and an unmapped handle is mapped and gets an address exactly if it has no pins, its area of the heap or
the device has room for it, for the device at once or when the first hundred handles of the queue are unmapped, and the low
area has if it is to be there.** -/
theorem pinHandle_succeeds_iff {memoryManager : AddressAllocator α} {deviceSpace : α} {allocator : AddressAllocator β} {lowArea : β}
    {history : List (Event α β × Reply)}
    (hrun : Lib.History step (fun _ _ => True) (initial memoryManager deviceSpace allocator lowArea) s history)
    (hreg : s.handles id = true) (hunmapped : (s.objects id).dAddress = 0) (lowAreaPin : Bool) :
    ∃ s' address, s.pinHandle (maxFreeAttempts + 1) id lowAreaPin = some (s', address) ∧
      (address ≠ 0 ∧ (s'.objects id).dAddress ≠ 0 ↔ s.CanPin id lowAreaPin) :=
  (run_accounted hrun).pinHandle_iff (maxFreeAttempts - 1) hreg hunmapped lowAreaPin

/-- A device with room for so many big pages. -/
def device (pages : ℕ) : NvMap (List (ℕ × ℕ)) (List (ℕ × ℕ)) :=
  .initial (firstFit (0x1000 + pages * bigPageSize)) [] (firstFit (2 ^ 32)) []

/-- One handle, not mapped yet. -/
def oneHandle : NvMap (List (ℕ × ℕ)) (List (ℕ × ℕ)) := ((device 1).createHandle 0x8000).1

theorem pinHandle_succeeds_iff_one : ∃ s' address, oneHandle.pinHandle (maxFreeAttempts + 1) 4 false = some (s', address) ∧
    (address ≠ 0 ∧ (s'.objects 4).dAddress ≠ 0 ↔ oneHandle.CanPin 4 false) := by
  have hcreate : (device 1).step (.createHandle 0x8000) = some (oneHandle, .handle 4) := rfl
  have hrun : Lib.History step (fun _ _ => True) (device 1) oneHandle _ := Lib.History.start.step trivial hcreate
  exact pinHandle_succeeds_iff hrun (by decide) (by decide) false

/-- As many handles as attempts and one more are pinned and unpinned; the next one needs all their room. -/
def crowd : List (Event (List (ℕ × ℕ)) (List (ℕ × ℕ))) :=
  ((List.range 101).flatMap fun i => [.createHandle 0x10000, .alloc (4 * (i + 1)) false 0x1000 0x10000000 0,
    .pinHandle (4 * (i + 1)) false, .unpinHandle (4 * (i + 1))]) ++
  [.createHandle (101 * 0x10000), .alloc 408 false 0x1000 0x10000000 0]

/-- **The handle gets no address although unmapping the queue makes room for it.** -/
theorem pinHandle_fails_crowded : ∃ s history, Lib.History step (fun _ _ => True) (device 101) s history ∧
    s.handles 408 = true ∧ (s.objects 408).dAddress = 0 ∧ s.RoomAfterAll 408 ∧
      (s.pinHandle (maxFreeAttempts + 1) 408 false).map Prod.snd = some 0 := by
  have hfacts : (Lib.replay step crowd (device 101, [])).map (fun r => (r.1.handles 408, (r.1.objects 408).dAddress,
      decide (r.1.RoomAfterAll 408),
      (r.1.pinHandle (maxFreeAttempts + 1) 408 false).map Prod.snd)) = some (true, 0, true, some 0) := by
    decide +kernel
  obtain ⟨r, hreplay, hr⟩ := Option.map_eq_some_iff.1 hfacts
  injection hr with hreg hr
  injection hr with haddress hr
  injection hr with hroom hpin
  exact ⟨r.1, r.2, Lib.history_of_replay .start hreplay, hreg, haddress, of_decide_eq_true hroom, hpin⟩

end NvMap
end Nvdrv
end Citron
