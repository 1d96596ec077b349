/-
# Pins

Every call keeps the queue in order, and the loop that makes room for a handle ends: it unmaps as many handles
of the queue as it has attempts, once, and then there is room or there is none.
-/
import Citron.Nvdrv.NvMapQueue

namespace Citron
namespace Nvdrv
namespace NvMap

open Common List Function

variable {α β : Type} {s s' : NvMap α β} {id : ℕ} {h : Handle}

/-- The allocator has room for the size. -/
def HasRoom (s : NvMap α β) (size : ℕ) : Prop := (s.memoryManager.allocate s.deviceSpace size).1 ≠ 0

instance (s : NvMap α β) (size : ℕ) : Decidable (s.HasRoom size) := inferInstanceAs (Decidable (_ ≠ _))

/-- The map as an allocation finds it: at once, or when the first handles of the queue are unmapped. -/
def makeRoom (s : NvMap α β) (size attempts : ℕ) : NvMap α β :=
  if s.HasRoom size then s else s.release (s.unmapQueue.take attempts)

theorem evict_nothing (hqueue : s.unmapQueue = []) (attempts : ℕ) (freedAny : Bool) :
    s.evict attempts freedAny = (s, attempts, freedAny) := by
  cases attempts with
  | zero => rfl
  | succ attempts =>
    unfold evict
    rw [hqueue]

/-- A turn of the loop when there is room. -/
theorem allocateEvicting_room {size : ℕ} (hroom : s.HasRoom size) (turns attempts : ℕ) :
    allocateEvicting size (turns + 1) attempts s = some ({ s with deviceSpace := (s.memoryManager.allocate s.deviceSpace size).2 },
      (s.memoryManager.allocate s.deviceSpace size).1) := if_pos hroom

theorem allocateEvicting_full {size : ℕ} (hroom : ¬s.HasRoom size) (turns attempts : ℕ) :
    allocateEvicting size (turns + 1) attempts s =
      if (s.evict attempts false).2.2 then allocateEvicting size turns (s.evict attempts false).2.1 (s.evict attempts false).1
      else some ((s.evict attempts false).1, 0) := by
  have hnone := s.memoryManager.allocate_none s.deviceSpace size (not_not.1 hroom)
  have hsame : ({ s with deviceSpace := (s.memoryManager.allocate s.deviceSpace size).2 } : NvMap α β) = s := by rw [hnone]
  have hzero : ¬(s.memoryManager.allocate s.deviceSpace size).1 ≠ 0 := hroom
  rw [allocateEvicting]
  rw [if_neg hzero, hsame]

/-- **The loop ends after two turns**, with an address exactly if there is room when the handles were unmapped. -/
theorem Accounted.allocateEvicting_eq (hs : s.Accounted) (size turns attempts : ℕ) :
    ∃ (deviceSpace : α) (address : ℕ), allocateEvicting size (turns + 2) attempts s =
        some ({ s.makeRoom size attempts with deviceSpace := deviceSpace }, address) ∧
      (address ≠ 0 ↔ (s.makeRoom size attempts).HasRoom size) := by
  unfold makeRoom
  by_cases hroom : s.HasRoom size
  · rw [if_pos hroom, allocateEvicting_room hroom]
    exact ⟨_, _, rfl, Iff.rfl⟩
  · rw [if_neg hroom, allocateEvicting_full hroom, hs.evict_eq, Bool.false_or]
    by_cases hnothing : s.unmapQueue.take attempts = []
    · rw [if_neg (mt of_decide_eq_true (not_not.2 hnothing)), hnothing]
      refine ⟨s.deviceSpace, 0, rfl, iff_of_false (not_not.2 rfl) hroom⟩
    · rw [if_pos (decide_eq_true hnothing)]
      have hreleased := hs.release attempts
      by_cases hroom' : (s.release (s.unmapQueue.take attempts)).HasRoom size
      · rw [allocateEvicting_room hroom']
        exact ⟨_, _, rfl, Iff.rfl⟩
      · -- the attempts are used up, or the queue is empty
        have hnone : ((s.release (s.unmapQueue.take attempts)).evict (attempts - s.unmapQueue.length) false) =
            (s.release (s.unmapQueue.take attempts), attempts - s.unmapQueue.length, false) := by
          rcases Nat.lt_or_ge s.unmapQueue.length attempts with hlt | hge
          · apply evict_nothing
            rw [hreleased.queue, drop_of_length_le hlt.le]
          · rw [Nat.sub_eq_zero_of_le hge]
            rfl
        rw [allocateEvicting_full hroom', hnone]
        exact ⟨_, 0, rfl, iff_of_false (not_not.2 rfl) hroom'⟩

/-- What making room leaves. -/
theorem Accounted.makeRoom (hs : s.Accounted) (size attempts : ℕ) :
    (s.makeRoom size attempts).Accounted ∧ (∀ i ∉ s.unmapQueue, (s.makeRoom size attempts).objects i = s.objects i) ∧
      (s.makeRoom size attempts).handles = s.handles ∧ (s.makeRoom size attempts).nextHandleId = s.nextHandleId ∧
      ∀ i ∈ (s.makeRoom size attempts).unmapQueue, i ∈ s.unmapQueue := by
  unfold NvMap.makeRoom
  split
  · exact ⟨hs, fun _ _ => rfl, rfl, rfl, fun _ => id⟩
  · have hreleased := hs.release attempts
    refine ⟨hreleased.accounted, hreleased.other, hreleased.handles, hreleased.nextHandleId, ?_⟩
    intro i hi
    rw [hreleased.queue] at hi
    exact mem_of_mem_drop hi

/-! ### Pinning -/

/-- The low area does not matter for the queue. -/
theorem mapLowArea_maps (s : NvMap α β) (id : ℕ) :
    ∃ (lowArea : β) (pinVirtAddress : ℕ), s.mapLowArea id =
      { s with lowArea := lowArea }.setHandle id { s.objects id with pinVirtAddress := pinVirtAddress } := by
  unfold mapLowArea
  dsimp only
  split
  · exact ⟨_, _, rfl⟩
  · refine ⟨s.lowArea, (s.objects id).pinVirtAddress, ?_⟩
    rw [NvMap.setHandle, update_eq_self]

theorem Accounted.mapLowArea (hs : s.Accounted) (id : ℕ) : (s.mapLowArea id).Accounted := by
  obtain ⟨lowArea, pinVirtAddress, hmap⟩ := mapLowArea_maps s id
  rw [hmap]
  exact (hs.others s.deviceSpace lowArea s.sessions).setHandle rfl ⟨(hs.fine id).queued, (hs.fine id).pinned⟩

theorem mapLowArea_same (s : NvMap α β) (id : ℕ) :
    ((s.mapLowArea id).objects id).dAddress = (s.objects id).dAddress ∧ ((s.mapLowArea id).objects id).pins = (s.objects id).pins ∧
      ((s.mapLowArea id).objects id).unmapQueueEntry = (s.objects id).unmapQueueEntry := by
  obtain ⟨lowArea, pinVirtAddress, hmap⟩ := mapLowArea_maps s id
  rw [hmap, setHandle_self]
  exact ⟨rfl, rfl, rfl⟩

/-- A handle gets a pin that has some or is mapped. -/
theorem Accounted.finishPin (hs : s.Accounted) (lowAreaPin : Bool)
    (hmapped : (s.objects id).pins ≠ 0 ∨ ((s.objects id).unmapQueueEntry = false ∧ (s.objects id).dAddress ≠ 0)) :
    (s.finishPin id lowAreaPin).1.Accounted := by
  have hpin {s : NvMap α β} (hs : s.Accounted)
      (hmapped : (s.objects id).pins ≠ 0 ∨ ((s.objects id).unmapQueueEntry = false ∧ (s.objects id).dAddress ≠ 0)) :
      (s.setHandle id { s.objects id with pins := (s.objects id).pins + 1 }).Accounted := by
    have hfine := hs.fine id
    apply Accounted.setHandle (h := { s.objects id with pins := (s.objects id).pins + 1 }) hs rfl
    rcases hmapped with hpins | ⟨hentry, haddress⟩
    · refine ⟨?_, ?_⟩
      · intro hentry
        obtain ⟨haddress, hle⟩ := hfine.queued hentry
        refine ⟨haddress, ?_⟩
        change (s.objects id).pins + 1 ≤ 0
        omega
      · intro hpos
        change 0 < (s.objects id).pins + 1 at hpos
        exact hfine.pinned (by omega)
    · refine ⟨?_, fun _ => haddress⟩
      intro htrue
      exact absurd (hentry.symm.trans htrue) (by decide)
  cases lowAreaPin with
  | false => exact hpin hs hmapped
  | true =>
    obtain ⟨haddress, hpins, hentry⟩ := mapLowArea_same s id
    apply hpin (hs.mapLowArea id)
    rw [haddress, hpins, hentry]
    exact hmapped

/-- What mapping a handle leaves: it is mapped, or nothing but the queue has changed. -/
structure Mapping (s s' : NvMap α β) (id : ℕ) (isMapped : Bool) : Prop where
  accounted : s'.Accounted
  same : SameHandle (s.objects id) (s'.objects id)
  entry : (s'.objects id).unmapQueueEntry = false
  pinVirtAddress : (s'.objects id).pinVirtAddress = (s.objects id).pinVirtAddress
  mapped : isMapped = true → (s'.objects id).dAddress ≠ 0
  unmapped : isMapped = false → (s'.objects id).dAddress = (s.objects id).dAddress

/-- The address space of the device has room for the handle, at once or when the first handles of the queue are unmapped. -/
def Mappable (s : NvMap α β) (id : ℕ) : Prop :=
  (s.heapOf id).isSome = true ∨ s.HasRoom (alignUp (s.objects id).alignedSize bigPageSize) ∨
    (s.release (s.unmapQueue.take maxFreeAttempts)).HasRoom (alignUp (s.objects id).alignedSize bigPageSize)

theorem makeRoom_hasRoom (s : NvMap α β) (size attempts : ℕ) :
    (s.makeRoom size attempts).HasRoom size ↔ s.HasRoom size ∨ (s.release (s.unmapQueue.take attempts)).HasRoom size := by
  unfold makeRoom
  split
  · rename_i hroom
    exact iff_of_true hroom (Or.inl hroom)
  · rename_i hroom
    exact ⟨Or.inr, fun h => h.resolve_left hroom⟩

/-- The state in which the handle gets its pin. -/
def afterRoom (s : NvMap α β) (id : ℕ) : NvMap α β :=
  if (s.heapOf id).isSome then s else s.makeRoom (alignUp (s.objects id).alignedSize bigPageSize) maxFreeAttempts

/-- A handle that is not in the queue gets an address. -/
theorem Accounted.setAddress (hs : s.Accounted) (hentry : (s.objects id).unmapQueueEntry = false) {address : ℕ} (hpos : address ≠ 0)
    (inHeap : Bool) : Mapping s (s.setHandle id { s.objects id with dAddress := address, inHeap := inHeap }) id true where
  accounted := by
    apply Accounted.setHandle (h := { s.objects id with dAddress := address, inHeap := inHeap }) hs rfl
    refine ⟨?_, fun _ => hpos⟩
    intro htrue
    exact absurd (hentry.symm.trans htrue) (by decide)
  same := by
    rw [setHandle_self]
    exact ⟨rfl, rfl, rfl, rfl⟩
  entry := by
    rw [setHandle_self]
    exact hentry
  pinVirtAddress := by rw [setHandle_self]
  mapped := by
    intro _
    rw [setHandle_self]
    exact hpos
  unmapped := nofun

/-- A handle that is not in the queue is mapped if there is room for it. -/
theorem Accounted.mapHandle (hs : s.Accounted) (hentry : (s.objects id).unmapQueueEntry = false) (turns : ℕ) :
    ∃ s' isMapped, s.mapHandle (turns + 2) id = some (s', isMapped) ∧ Mapping s s' id isMapped ∧
      (isMapped = true ↔ s.Mappable id) ∧ s'.lowArea = (s.afterRoom id).lowArea ∧ s'.allocator = (s.afterRoom id).allocator ∧
      s'.handles = s.handles := by
  have hnot : id ∉ s.unmapQueue := by
    rw [hs.entry, hentry]
    exact Bool.false_ne_true
  unfold NvMap.mapHandle Mappable afterRoom
  dsimp only
  cases hheap : s.heapOf id with
  | some mapper =>
    have hpos : mapper.map (s.objects id).address ≠ 0 := by
      have := mapper.daddress_pos
      unfold HeapMapper.map
      omega
    exact ⟨_, true, rfl, hs.setAddress hentry hpos true, iff_of_true rfl (Or.inl rfl), rfl, rfl, rfl⟩
  | none =>
    obtain ⟨deviceSpace, address, halloc, haddress⟩ :=
      hs.allocateEvicting_eq (alignUp (s.objects id).alignedSize bigPageSize) turns maxFreeAttempts
    obtain ⟨haccounted, hother, hhandles, -, -⟩ := hs.makeRoom (alignUp (s.objects id).alignedSize bigPageSize) maxFreeAttempts
    have hsame := hother id hnot
    rw [makeRoom_hasRoom] at haddress
    rw [halloc]
    clear halloc hother
    generalize s.makeRoom (alignUp (s.objects id).alignedSize bigPageSize) maxFreeAttempts = t at *
    have hthen := haccounted.others deviceSpace t.lowArea t.sessions
    by_cases hzero : address = 0
    · have hnoroom := mt haddress.2 (not_not.2 hzero)
      refine ⟨{ t with deviceSpace := deviceSpace }, false, ?_, ⟨hthen, ?_, ?_, ?_, nofun, fun _ => ?_⟩, iff_of_false nofun ?_, rfl, rfl, hhandles⟩
      · simp [hzero]
      · rw [hsame]
        exact ⟨rfl, rfl, rfl, rfl⟩
      · rw [hsame]
        exact hentry
      · rw [hsame]
      · rw [hsame]
      · exact fun h => hnoroom (h.resolve_left nofun)
    · have hentry' : (t.objects id).unmapQueueEntry = false := by
        rw [hsame]
        exact hentry
      have hset := hthen.setAddress hentry' hzero false
      refine ⟨_, true, by simp only [Option.bind_eq_bind, Option.bind_some, hzero, if_false], ⟨hset.accounted, ?_, hset.entry, ?_, hset.mapped, nofun⟩,
        iff_of_true rfl (Or.inr (haddress.1 hzero)), rfl, rfl, hhandles⟩
      · rw [← hsame]
        exact hset.same
      · rw [← hsame]
        exact hset.pinVirtAddress

/-- The address of a handle in the low area after a pin there. -/
def lowAddress (s : NvMap α β) (h : Handle) : ℕ :=
  if h.pinVirtAddress = 0 then (s.allocator.allocate s.lowArea (h.alignedSize % 2 ^ 32)).1 else h.pinVirtAddress

theorem finishPin_self (s : NvMap α β) (id : ℕ) (lowAreaPin : Bool) :
    ((s.finishPin id lowAreaPin).1.objects id).dAddress = (s.objects id).dAddress ∧
      (s.finishPin id lowAreaPin).2 = if lowAreaPin then s.lowAddress (s.objects id) else (s.objects id).dAddress := by
  unfold finishPin
  cases lowAreaPin with
  | false => simp [setHandle_self]
  | true =>
    have hlow : ((s.mapLowArea id).objects id).pinVirtAddress = s.lowAddress (s.objects id) := by
      unfold mapLowArea lowAddress
      dsimp only
      split
      · rw [setHandle_self]
      · rfl
    simp [setHandle_self, mapLowArea_same, hlow]

/-- **The loop of `PinHandle` ends**, and the queue stays in order. -/
theorem Accounted.pinHandle (hs : s.Accounted) (turns : ℕ) (id : ℕ) (lowAreaPin : Bool) :
    ∃ s' address, s.pinHandle (turns + 2) id lowAreaPin = some (s', address) ∧ s'.Accounted := by
  unfold NvMap.pinHandle
  by_cases hreg : s.handles id = true
  · rw [hreg, Bool.not_true, if_neg Bool.false_ne_true]
    by_cases hpins : (s.objects id).pins = 0
    · rw [if_pos hpins]
      cases hentry : (s.objects id).unmapQueueEntry with
      | true =>
        refine ⟨_, _, rfl, (hs.eraseEntry id).finishPin lowAreaPin (Or.inr ?_)⟩
        rw [eraseEntry_self]
        exact ⟨rfl, ((hs.fine id).queued hentry).1⟩
      | false =>
        obtain ⟨s', isMapped, hmap, hmapping, -, -⟩ := hs.mapHandle hentry turns
        rw [if_neg Bool.false_ne_true, hmap]
        cases isMapped with
        | true => exact ⟨_, _, rfl, hmapping.accounted.finishPin lowAreaPin (Or.inr ⟨hmapping.entry, hmapping.mapped rfl⟩)⟩
        | false => exact ⟨s', 0, rfl, hmapping.accounted⟩
    · rw [if_neg hpins]
      exact ⟨_, _, rfl, hs.finishPin lowAreaPin (Or.inl hpins)⟩
  · rw [Bool.not_eq_true] at hreg
    rw [hreg, Bool.not_false, if_pos rfl]
    exact ⟨s, 0, rfl, hs⟩

/-- When an unmapped handle gets its pin: nobody has unpinned it too often, there is room for it, and in the low area too if
it is to be there. -/
def CanPin (s : NvMap α β) (id : ℕ) (lowAreaPin : Bool) : Prop :=
  (s.objects id).pins = 0 ∧ s.Mappable id ∧ (lowAreaPin = true → (s.afterRoom id).lowAddress (s.objects id) ≠ 0)

/-- **An unmapped handle is mapped and gets an address exactly if it can be pinned.** -/
theorem Accounted.pinHandle_iff (hs : s.Accounted) (turns : ℕ) (hreg : s.handles id = true) (hunmapped : (s.objects id).dAddress = 0)
    (lowAreaPin : Bool) : ∃ s' address, s.pinHandle (turns + 2) id lowAreaPin = some (s', address) ∧
      (address ≠ 0 ∧ (s'.objects id).dAddress ≠ 0 ↔ s.CanPin id lowAreaPin) := by
  have hentry : (s.objects id).unmapQueueEntry = false := by
    rw [← Bool.not_eq_true]
    intro htrue
    exact ((hs.fine id).queued htrue).1 hunmapped
  unfold NvMap.pinHandle CanPin
  rw [hreg, Bool.not_true, if_neg Bool.false_ne_true]
  by_cases hpins : (s.objects id).pins = 0
  · obtain ⟨s', isMapped, hmap, hmapping, hiff, hlow, hallocator, -⟩ := hs.mapHandle hentry turns
    rw [if_pos hpins, hentry, if_neg Bool.false_ne_true, hmap]
    cases isMapped with
    | false =>
      refine ⟨s', 0, rfl, iff_of_false (fun h => h.1 rfl) ?_⟩
      exact fun h => Bool.false_ne_true (hiff.2 h.2.1)
    | true =>
      obtain ⟨haddress, hresult⟩ := finishPin_self s' id lowAreaPin
      have hmapped := hmapping.mapped rfl
      have hlowAddress : s'.lowAddress (s'.objects id) = (s.afterRoom id).lowAddress (s.objects id) := by
        unfold lowAddress
        rw [hmapping.pinVirtAddress, hmapping.same.alignedSize, hlow, hallocator]
      refine ⟨(s'.finishPin id lowAreaPin).1, (s'.finishPin id lowAreaPin).2, rfl, ?_⟩
      rw [haddress, hresult]
      cases lowAreaPin with
      | false => exact iff_of_true ⟨hmapped, hmapped⟩ ⟨hpins, hiff.1 rfl, nofun⟩
      | true =>
        rw [if_pos rfl, hlowAddress]
        exact ⟨fun h => ⟨hpins, hiff.1 rfl, fun _ => h.1⟩, fun h => ⟨h.2.2 rfl, hmapped⟩⟩
  · obtain ⟨haddress, -⟩ := finishPin_self s id lowAreaPin
    rw [if_neg hpins]
    refine ⟨(s.finishPin id lowAreaPin).1, (s.finishPin id lowAreaPin).2, rfl, iff_of_false ?_ fun h => hpins h.1⟩
    rw [haddress]
    exact fun h => h.2 hunmapped

/-! ### The other calls -/

section

variable (hs : s.Accounted)
include hs

theorem Accounted.unpinHandle (id : ℕ) : (s.unpinHandle id).Accounted := by
  unfold NvMap.unpinHandle
  have hfine := hs.fine id
  split
  · exact hs
  · rename_i hreg
    have hknown := hs.known id (by simpa using hreg)
    dsimp only
    rw [setHandle_self]
    by_cases hpins : (s.objects id).pins - 1 = 0
    · rw [if_pos hpins]
      have haddress := hfine.pinned (by omega)
      have hnot : id ∉ s.unmapQueue := by
        rw [hs.entry]
        intro htrue
        have := (hfine.queued htrue).2
        omega
      refine ⟨?_, ?_, ?_, hs.known, ?_⟩
      · change (s.unmapQueue ++ [id]).Nodup
        rw [nodup_append_comm]
        exact nodup_cons.2 ⟨hnot, hs.nodup⟩
      · intro i
        change i ∈ s.unmapQueue ++ [id] ↔ _
        rw [mem_append, mem_singleton]
        by_cases hi : i = id
        · subst hi
          rw [setHandle_self]
          simp
        · rw [setHandle_of_ne _ _ hi, or_iff_left hi, hs.entry]
          exact iff_of_eq (congrArg (fun h : Handle => h.unmapQueueEntry = true) (setHandle_of_ne s _ hi).symm)
      · intro i
        by_cases hi : i = id
        · subst hi
          rw [setHandle_self]
          exact ⟨fun _ => ⟨haddress, hpins.le⟩, fun _ => haddress⟩
        · rw [setHandle_of_ne _ _ hi]
          change ((s.setHandle id _).objects i).Fine
          rw [setHandle_of_ne s _ hi]
          exact hs.fine i
      · intro i hi
        rcases mem_append.1 hi with hi | hi
        · exact hs.queued i hi
        · rw [mem_singleton.1 hi]
          exact hknown
    · rw [if_neg hpins]
      apply Accounted.setHandle (h := { s.objects id with pins := (s.objects id).pins - 1 }) hs rfl
      refine ⟨?_, ?_⟩
      · intro hentry
        obtain ⟨haddress, hle⟩ := hfine.queued hentry
        refine ⟨haddress, ?_⟩
        change (s.objects id).pins - 1 ≤ 0
        omega
      · intro hpos
        change 0 < (s.objects id).pins - 1 at hpos
        exact hfine.pinned (by omega)

/-- The duplicates of a handle do not matter for the queue. -/
theorem Accounted.setDupes (id : ℕ) (dupes internalDupes : ℤ) :
    (s.setHandle id { s.objects id with dupes := dupes, internalDupes := internalDupes }).Accounted :=
  Accounted.setHandle (h := { s.objects id with dupes := dupes, internalDupes := internalDupes }) hs rfl
    ⟨(hs.fine id).queued, (hs.fine id).pinned⟩

theorem Accounted.duplicateHandle (id : ℕ) (internalSession : Bool) :
    (s.duplicateHandle id internalSession).Accounted := by
  unfold NvMap.duplicateHandle Handle.duplicate
  split
  · exact hs
  · split
    · cases internalSession with
      | true => exact hs.setDupes id _ _
      | false => exact hs.setDupes id _ _
    · exact hs.setDupes id _ _

theorem Accounted.forceUnmap (id : ℕ) : (s.forceUnmap id).Accounted := by
  unfold NvMap.forceUnmap
  split
  · have hunmapped := hs.unmapHandle id
    refine hs.unmapped_set hunmapped hunmapped.entry ⟨?_, fun hpos => absurd hpos (lt_irrefl _)⟩
    intro htrue
    exact absurd (hunmapped.entry.symm.trans htrue) (by decide)
  · refine Accounted.setHandle (h := { s.objects id with pins := 0 }) hs rfl ⟨?_, fun hpos => absurd hpos (lt_irrefl _)⟩
    intro htrue
    exact ⟨((hs.fine id).queued htrue).1, le_rfl⟩

theorem Accounted.tryRemoveHandle (id : ℕ) : (s.tryRemoveHandle id).1.Accounted := by
  unfold NvMap.tryRemoveHandle
  dsimp only
  split
  · refine ⟨hs.nodup, hs.entry, hs.fine, ?_, hs.queued⟩
    intro i hi
    by_cases hne : i = id
    · subst hne
      change update s.handles i false i = true at hi
      rw [update_self] at hi
      cases hi
    · change update s.handles id false i = true at hi
      rw [update_of_ne hne] at hi
      exact hs.known i hi
  · exact hs

theorem Accounted.freeHandle (id : ℕ) (internalSession : Bool) : (s.freeHandle id internalSession).1.Accounted := by
  unfold NvMap.freeHandle
  split
  · exact hs
  · apply Accounted.tryRemoveHandle
    split
    · exact hs.setDupes id _ _
    · have hdupes := hs.setDupes id ((s.objects id).dupes - 1) (s.objects id).internalDupes
      dsimp only
      split
      · exact hdupes.forceUnmap id
      · exact hdupes

theorem Accounted.unmapAllHandles (sessionId : ℕ) (order : List ℕ) : (s.unmapAllHandles sessionId order).Accounted := by
  induction order generalizing s with
  | nil => exact hs
  | cons id order ih =>
    apply ih
    dsimp only
    split
    · exact hs
    · exact hs.freeHandle id false

theorem Accounted.createHandle (size : ℕ) : (s.createHandle size).1.Accounted := by
  unfold NvMap.createHandle
  split
  · exact hs
  · have hnot : s.nextHandleId ∉ s.unmapQueue := fun hmem => absurd (hs.queued _ hmem) (lt_irrefl _)
    have hentry : (s.objects s.nextHandleId).unmapQueueEntry = false := by
      rw [← Bool.not_eq_true, ← hs.entry]
      exact hnot
    have hnext : ({ s with nextHandleId := s.nextHandleId + 4, handles := update s.handles s.nextHandleId true } : NvMap α β).Accounted := by
      refine ⟨hs.nodup, hs.entry, hs.fine, ?_, fun i hi => Nat.lt_add_right 4 (hs.queued i hi)⟩
      intro i hi
      change i < s.nextHandleId + 4
      by_cases hne : i = s.nextHandleId
      · omega
      · change update s.handles s.nextHandleId true i = true at hi
        rw [update_of_ne hne] at hi
        exact Nat.lt_add_right 4 (hs.known i hi)
    exact hnext.setHandle hentry.symm ⟨nofun, nofun⟩

theorem Accounted.alloc (id : ℕ) (mapUncached : Bool) (align address sessionId : ℕ) :
    (s.setHandle id ((s.objects id).alloc mapUncached align address sessionId).1).Accounted := by
  have hfine := hs.fine id
  unfold Handle.alloc
  split
  · exact hs.setHandle rfl hfine
  · exact hs.setHandle rfl ⟨hfine.queued, hfine.pinned⟩

end

/-! ### Runs -/

/-- **Every call keeps the queue in order.** -/
theorem step_accounted (hs : s.Accounted) {event : Event α β} {reply : Reply} (hstep : s.step event = some (s', reply)) :
    s'.Accounted := by
  cases event with
  | createHandle size =>
    have hcreated := hs.createHandle size
    rw [step] at hstep
    split at hstep
    · rename_i heq
      cases hstep
      rw [heq] at hcreated
      exact hcreated
    · rename_i heq
      cases hstep
      rw [heq] at hcreated
      exact hcreated
  | alloc id mapUncached align address sessionId =>
    rw [step] at hstep
    split at hstep
    · cases hstep
      exact hs.alloc id mapUncached align address sessionId
    · cases hstep
      exact hs
  | pinHandle id lowAreaPin =>
    obtain ⟨t, address, hpin, ht⟩ := hs.pinHandle (maxFreeAttempts - 1) id lowAreaPin
    obtain ⟨r, hr, heq⟩ := Option.map_eq_some_iff.1 hstep
    cases hpin.symm.trans hr
    cases heq
    exact ht
  | unpinHandle id =>
    cases hstep
    exact hs.unpinHandle id
  | duplicateHandle id internalSession =>
    cases hstep
    exact hs.duplicateHandle id internalSession
  | freeHandle id internalSession =>
    cases hstep
    exact hs.freeHandle id internalSession
  | unmapAllHandles sessionId order =>
    rw [step] at hstep
    split at hstep
    · cases hstep
      exact hs.unmapAllHandles sessionId order
    · cases hstep
  | others deviceSpace lowArea sessions =>
    cases hstep
    exact hs.others deviceSpace lowArea sessions

theorem initial_accounted (memoryManager : AddressAllocator α) (deviceSpace : α) (allocator : AddressAllocator β) (lowArea : β) :
    (initial memoryManager deviceSpace allocator lowArea).Accounted :=
  ⟨nodup_nil, fun _ => iff_of_false not_mem_nil Bool.false_ne_true, fun _ => ⟨nofun, nofun⟩, nofun, nofun⟩

theorem run_accounted {memoryManager : AddressAllocator α} {deviceSpace : α} {allocator : AddressAllocator β} {lowArea : β}
    {history : List (Event α β × Reply)}
    (hrun : Lib.History step (fun _ _ => True) (initial memoryManager deviceSpace allocator lowArea) s history) : s.Accounted :=
  hrun.invariant (P := fun s _ => s.Accounted) (initial_accounted memoryManager deviceSpace allocator lowArea)
    fun _ _ _ _ _ hs _ hstep => step_accounted hs hstep

end NvMap
end Nvdrv
end Citron
