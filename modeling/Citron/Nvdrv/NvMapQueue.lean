/-
# The queue of the handles that nobody pins

A handle is in the queue once, when it has an entry, and then it is mapped and has no pins. What an operation
does to one handle leaves the others as they are.
-/
import Citron.Nvdrv.NvMap

namespace Citron
namespace Nvdrv

/-- A handle with an entry is mapped and not pinned, and a handle with pins is mapped. -/
structure Handle.Fine (h : Handle) : Prop where
  queued : h.unmapQueueEntry = true → h.dAddress ≠ 0 ∧ h.pins ≤ 0
  pinned : 0 < h.pins → h.dAddress ≠ 0

namespace NvMap

variable {α β : Type} {s s' : NvMap α β} {id : ℕ} {h : Handle}

/-- The entries of the handles are those of the queue. -/
structure Accounted (s : NvMap α β) : Prop where
  nodup : s.unmapQueue.Nodup
  entry : ∀ id, id ∈ s.unmapQueue ↔ (s.objects id).unmapQueueEntry = true
  fine : ∀ id, (s.objects id).Fine
  known : ∀ id, s.handles id = true → id < s.nextHandleId
  queued : ∀ id ∈ s.unmapQueue, id < s.nextHandleId

theorem setHandle_self (s : NvMap α β) (id : ℕ) (h : Handle) : (s.setHandle id h).objects id = h := Function.update_self _ _ _

theorem setHandle_of_ne (s : NvMap α β) (h : Handle) {i : ℕ} (hi : i ≠ id) : (s.setHandle id h).objects i = s.objects i :=
  Function.update_of_ne hi _ _

/-- Only one handle changes, and not its entry. -/
theorem Accounted.setHandle (hs : s.Accounted) (hentry : h.unmapQueueEntry = (s.objects id).unmapQueueEntry) (hfine : h.Fine) :
    (s.setHandle id h).Accounted := by
  refine ⟨hs.nodup, ?_, ?_, hs.known, hs.queued⟩
  · intro i
    by_cases hi : i = id
    · subst hi
      rw [setHandle_self, hentry]
      exact hs.entry i
    · rw [setHandle_of_ne s h hi]
      exact hs.entry i
  · intro i
    by_cases hi : i = id
    · subst hi
      rw [setHandle_self]
      exact hfine
    · rw [setHandle_of_ne s h hi]
      exact hs.fine i

/-- The allocators and the sessions do not matter. -/
theorem Accounted.others (hs : s.Accounted) (deviceSpace : α) (lowArea : β) (sessions : ℕ → Option HeapMapper) :
    ({ s with deviceSpace := deviceSpace, lowArea := lowArea, sessions := sessions } : NvMap α β).Accounted :=
  ⟨hs.nodup, hs.entry, hs.fine, hs.known, hs.queued⟩

/-! ### Entries -/

theorem Accounted.eraseEntry_queue (hs : s.Accounted) (id : ℕ) : (s.eraseEntry id).unmapQueue = s.unmapQueue.erase id := by
  unfold eraseEntry
  split
  · rfl
  · rename_i hno
    rw [List.erase_of_not_mem]
    exact mt (hs.entry id).1 hno

theorem eraseEntry_self (s : NvMap α β) (id : ℕ) : (s.eraseEntry id).objects id = { s.objects id with unmapQueueEntry := false } := by
  unfold eraseEntry
  split
  · exact setHandle_self _ _ _
  · rename_i hno
    rw [Bool.not_eq_true] at hno
    rw [← hno]

theorem eraseEntry_of_ne (s : NvMap α β) {i : ℕ} (hi : i ≠ id) : (s.eraseEntry id).objects i = s.objects i := by
  unfold eraseEntry
  split
  · exact setHandle_of_ne _ _ hi
  · rfl

theorem eraseEntry_map (s : NvMap α β) (id : ℕ) :
    (s.eraseEntry id).handles = s.handles ∧ (s.eraseEntry id).nextHandleId = s.nextHandleId := by
  unfold eraseEntry
  split <;> exact ⟨rfl, rfl⟩

theorem Accounted.eraseEntry (hs : s.Accounted) (id : ℕ) : (s.eraseEntry id).Accounted := by
  have hqueue := hs.eraseEntry_queue id
  obtain ⟨hhandles, hnext⟩ := eraseEntry_map s id
  refine ⟨?_, ?_, ?_, ?_, ?_⟩
  · rw [hqueue]
    exact hs.nodup.erase id
  · intro i
    rw [hqueue, hs.nodup.mem_erase_iff]
    by_cases hi : i = id
    · subst hi
      rw [eraseEntry_self]
      simp
    · rw [eraseEntry_of_ne s hi, hs.entry]
      exact ⟨fun h => h.2, fun h => ⟨hi, h⟩⟩
  · intro i
    by_cases hi : i = id
    · subst hi
      rw [eraseEntry_self]
      exact ⟨nofun, (hs.fine i).pinned⟩
    · rw [eraseEntry_of_ne s hi]
      exact hs.fine i
  · rw [hhandles, hnext]
    exact hs.known
  · intro i hi
    rw [hqueue] at hi
    rw [hnext]
    exact hs.queued i (List.mem_of_mem_erase hi)

/-! ### Unmapping -/

/-- Everything of a handle but its mappings. -/
structure SameHandle (h h' : Handle) : Prop where
  pins : h'.pins = h.pins
  address : h'.address = h.address
  alignedSize : h'.alignedSize = h.alignedSize
  sessionId : h'.sessionId = h.sessionId

/-- A handle is taken out of the queue and is not mapped any more. -/
structure Unmapped (s s' : NvMap α β) (id : ℕ) : Prop where
  queue : s'.unmapQueue = s.unmapQueue.erase id
  other : ∀ i, i ≠ id → s'.objects i = s.objects i
  same : SameHandle (s.objects id) (s'.objects id)
  entry : (s'.objects id).unmapQueueEntry = false
  dAddress : (s'.objects id).dAddress = 0
  handles : s'.handles = s.handles
  nextHandleId : s'.nextHandleId = s.nextHandleId

theorem unmapLowArea_unmaps (s : NvMap α β) (id : ℕ) :
    ∃ (lowArea : β) (pinVirtAddress : ℕ), s.unmapLowArea id =
      { s with lowArea := lowArea }.setHandle id { s.objects id with pinVirtAddress := pinVirtAddress } := by
  unfold unmapLowArea
  dsimp only
  split
  · exact ⟨_, 0, rfl⟩
  · refine ⟨s.lowArea, (s.objects id).pinVirtAddress, ?_⟩
    rw [NvMap.setHandle, Function.update_eq_self]

theorem unmapDevice_unmaps (s : NvMap α β) (id : ℕ) :
    ∃ deviceSpace : α, s.unmapDevice id =
      { s with deviceSpace := deviceSpace }.setHandle id { s.objects id with dAddress := 0, inHeap := false } := by
  unfold unmapDevice
  dsimp only
  split
  · exact ⟨s.deviceSpace, rfl⟩
  · rename_i hheap
    rw [Bool.not_eq_true] at hheap
    refine ⟨if 0x1000 ≤ (s.objects id).dAddress then
      s.memoryManager.free s.deviceSpace (s.objects id).dAddress (Common.alignUp (s.objects id).alignedSize bigPageSize)
      else s.deviceSpace, ?_⟩
    rw [← hheap]

theorem Accounted.unmapHandle (hs : s.Accounted) (id : ℕ) : Unmapped s (s.unmapHandle id) id := by
  obtain ⟨hhandles, hnext⟩ := eraseEntry_map s id
  obtain ⟨lowArea, pinVirtAddress, hlow⟩ := unmapLowArea_unmaps (s.eraseEntry id) id
  obtain ⟨deviceSpace, hdevice⟩ := unmapDevice_unmaps ((s.eraseEntry id).unmapLowArea id) id
  have hself : (s.unmapHandle id).objects id =
      { s.objects id with unmapQueueEntry := false, pinVirtAddress := pinVirtAddress, dAddress := 0, inHeap := false } := by
    rw [NvMap.unmapHandle, hdevice, setHandle_self, hlow, setHandle_self, eraseEntry_self]
  constructor
  · rw [NvMap.unmapHandle, hdevice, hlow]
    exact hs.eraseEntry_queue id
  · intro i hi
    rw [NvMap.unmapHandle, hdevice, setHandle_of_ne _ _ hi]
    change ((s.eraseEntry id).unmapLowArea id).objects i = _
    rw [hlow, setHandle_of_ne _ _ hi]
    exact eraseEntry_of_ne s hi
  · rw [hself]
    exact ⟨rfl, rfl, rfl, rfl⟩
  · rw [hself]
  · rw [hself]
  · rw [NvMap.unmapHandle, hdevice, hlow]
    exact hhandles
  · rw [NvMap.unmapHandle, hdevice, hlow]
    exact hnext

/-- A handle is unmapped, and has no pins after that. -/
theorem Accounted.unmapped_set (hs : s.Accounted) (hunmapped : Unmapped s s' id) (hentry : h.unmapQueueEntry = false) (hfine : h.Fine) :
    (s'.setHandle id h).Accounted := by
  refine ⟨?_, ?_, ?_, ?_, ?_⟩
  · change s'.unmapQueue.Nodup
    rw [hunmapped.queue]
    exact hs.nodup.erase id
  · intro i
    change i ∈ s'.unmapQueue ↔ _
    rw [hunmapped.queue, hs.nodup.mem_erase_iff]
    by_cases hi : i = id
    · subst hi
      rw [setHandle_self]
      simp [hentry]
    · rw [setHandle_of_ne _ _ hi, hunmapped.other i hi, hs.entry]
      exact ⟨fun hmem => hmem.2, fun hmem => ⟨hi, hmem⟩⟩
  · intro i
    by_cases hi : i = id
    · subst hi
      rw [setHandle_self]
      exact hfine
    · rw [setHandle_of_ne _ _ hi, hunmapped.other i hi]
      exact hs.fine i
  · change ∀ i, s'.handles i = true → i < s'.nextHandleId
    rw [hunmapped.handles, hunmapped.nextHandleId]
    exact hs.known
  · intro i hi
    change i ∈ s'.unmapQueue at hi
    change i < s'.nextHandleId
    rw [hunmapped.queue] at hi
    rw [hunmapped.nextHandleId]
    exact hs.queued i (List.mem_of_mem_erase hi)

theorem Accounted.unmapped (hs : s.Accounted) (hunmapped : Unmapped s s' id) (hpins : (s.objects id).pins ≤ 0) : s'.Accounted := by
  have hfine : (s'.objects id).Fine := by
    refine ⟨?_, ?_⟩
    · rw [hunmapped.entry]
      exact nofun
    · rw [hunmapped.same.pins]
      omega
  have hset := hs.unmapped_set hunmapped hunmapped.entry hfine
  rw [NvMap.setHandle, Function.update_eq_self] at hset
  exact hset

/-! ### Eviction -/

/-- The handles are unmapped one after the other. -/
def release (s : NvMap α β) (ids : List ℕ) : NvMap α β := ids.foldl unmapHandle s

/-- What the first handles of the queue leave when they are unmapped. -/
structure Released (s s' : NvMap α β) (n : ℕ) : Prop where
  queue : s'.unmapQueue = s.unmapQueue.drop n
  other : ∀ i ∉ s.unmapQueue, s'.objects i = s.objects i
  handles : s'.handles = s.handles
  nextHandleId : s'.nextHandleId = s.nextHandleId
  accounted : s'.Accounted

/-- The first handle of the queue. -/
theorem Accounted.unmapFront (hs : s.Accounted) {rest : List ℕ} (hqueue : s.unmapQueue = id :: rest) :
    (s.objects id).unmapQueueEntry = true ∧ (s.objects id).dAddress ≠ 0 ∧ (s.unmapHandle id).unmapQueue = rest ∧
      (s.unmapHandle id).Accounted := by
  have hmem : id ∈ s.unmapQueue := by
    rw [hqueue]
    exact List.mem_cons_self
  have hentry := (hs.entry id).1 hmem
  obtain ⟨hmapped, hpins⟩ := (hs.fine id).queued hentry
  have hunmapped := hs.unmapHandle id
  refine ⟨hentry, hmapped, ?_, hs.unmapped hunmapped hpins⟩
  rw [hunmapped.queue, hqueue, List.erase_cons_head]

theorem Accounted.release (hs : s.Accounted) (n : ℕ) : Released s (s.release (s.unmapQueue.take n)) n := by
  induction n generalizing s with
  | zero => exact ⟨rfl, fun _ _ => rfl, rfl, rfl, hs⟩
  | succ n ih =>
    cases hqueue : s.unmapQueue with
    | nil =>
      rw [List.take_nil]
      refine ⟨?_, fun _ _ => rfl, rfl, rfl, hs⟩
      rw [hqueue]
      exact hqueue
    | cons id rest =>
      obtain ⟨-, -, hrest, hthen⟩ := hs.unmapFront hqueue
      have hunmapped := hs.unmapHandle id
      have hreleased := ih hthen
      rw [hrest] at hreleased
      rw [List.take_succ_cons]
      refine ⟨?_, ?_, hreleased.handles.trans hunmapped.handles, hreleased.nextHandleId.trans hunmapped.nextHandleId, hreleased.accounted⟩
      · have hdrop := hreleased.queue
        rw [hrest] at hdrop
        rw [hqueue, List.drop_succ_cons]
        exact hdrop
      · intro i hi
        rw [hqueue, List.mem_cons, not_or] at hi
        exact (hreleased.other i (hrest ▸ hi.2)).trans (hunmapped.other i hi.1)

/-- The inner loop unmaps as many handles of the queue as there are attempts left. -/
theorem Accounted.evict_eq (hs : s.Accounted) (attempts : ℕ) (freedAny : Bool) :
    s.evict attempts freedAny =
      (s.release (s.unmapQueue.take attempts), attempts - s.unmapQueue.length,
        freedAny || decide (s.unmapQueue.take attempts ≠ [])) := by
  induction attempts generalizing s freedAny with
  | zero =>
    simp [evict, NvMap.release]
  | succ attempts ih =>
    cases hqueue : s.unmapQueue with
    | nil =>
      unfold evict
      rw [hqueue]
      simp [NvMap.release]
    | cons id rest =>
      obtain ⟨hentry, hmapped, hrest, hthen⟩ := hs.unmapFront hqueue
      unfold evict
      rw [hqueue]
      dsimp only
      rw [if_pos hentry, ih hthen, hrest]
      simp [NvMap.release, hmapped]

end NvMap
end Nvdrv
end Citron
