/-
# What a pin counts

`PinHandle` adds one pin to its handle, or it fails and adds none; only a handle that was unpinned too often fails and
gets its pin. No other handle has more or fewer pins than before, also when handles of the queue are unmapped.
-/
import Citron.Nvdrv.NvMapPins

namespace Citron
namespace Nvdrv

open Common

/-- The pins of a handle, and what a mapping reads of it. -/
structure Handle.SamePins (h h' : Handle) : Prop where
  pins : h'.pins = h.pins
  align : h'.align = h.align
  origSize : h'.origSize = h.origSize

namespace NvMap

variable {α β : Type} {s s' t : NvMap α β} {id : ℕ} {h : Handle}

/-- No handle has more or fewer pins. -/
def SamePins (s s' : NvMap α β) : Prop := ∀ i, (s.objects i).SamePins (s'.objects i)

theorem SamePins.rfl : SamePins s s := fun _ => ⟨Eq.refl _, Eq.refl _, Eq.refl _⟩

theorem SamePins.trans (h₁ : SamePins s s') (h₂ : SamePins s' t) : SamePins s t :=
  fun i => ⟨(h₂ i).pins.trans (h₁ i).pins, (h₂ i).align.trans (h₁ i).align, (h₂ i).origSize.trans (h₁ i).origSize⟩

/-- Only the objects matter. -/
theorem SamePins.of_objects (hobjects : s'.objects = s.objects) : SamePins s s' := by
  intro i
  rw [hobjects]
  exact SamePins.rfl i

theorem SamePins.setHandle (hsame : (s.objects id).SamePins h) : SamePins s (s.setHandle id h) := by
  intro i
  by_cases hi : i = id
  · subst hi
    rw [setHandle_self]
    exact hsame
  · rw [setHandle_of_ne s h hi]
    exact SamePins.rfl i

theorem eraseEntry_samePins (s : NvMap α β) (id : ℕ) : SamePins s (s.eraseEntry id) := by
  unfold eraseEntry
  split
  · exact SamePins.setHandle (s := { s with unmapQueue := s.unmapQueue.erase id }) ⟨rfl, rfl, rfl⟩
  · exact SamePins.rfl

theorem unmapHandle_samePins (s : NvMap α β) (id : ℕ) : SamePins s (s.unmapHandle id) := by
  have hlow (s : NvMap α β) : SamePins s (s.unmapLowArea id) := by
    unfold unmapLowArea
    dsimp only
    split
    · exact SamePins.setHandle (s := { s with lowArea := _ }) ⟨rfl, rfl, rfl⟩
    · exact SamePins.rfl
  have hdevice (s : NvMap α β) : SamePins s (s.unmapDevice id) := by
    unfold unmapDevice
    dsimp only
    split
    · exact SamePins.setHandle ⟨rfl, rfl, rfl⟩
    · exact SamePins.setHandle (s := { s with deviceSpace := _ }) ⟨rfl, rfl, rfl⟩
  exact ((eraseEntry_samePins s id).trans (hlow _)).trans (hdevice _)

theorem evict_samePins (attempts : ℕ) (s : NvMap α β) (freedAny : Bool) : SamePins s (s.evict attempts freedAny).1 := by
  induction attempts generalizing s freedAny with
  | zero => exact SamePins.rfl
  | succ attempts ih =>
    unfold evict
    split
    · exact SamePins.rfl
    · rename_i id _ _
      refine SamePins.trans ?_ (ih _ _)
      split
      · exact unmapHandle_samePins s id
      · exact (unmapHandle_samePins s id).trans (SamePins.of_objects rfl)

theorem allocateEvicting_samePins {size address : ℕ} (turns attempts : ℕ) (s : NvMap α β)
    (halloc : s.allocateEvicting size turns attempts = some (s', address)) : SamePins s s' := by
  induction turns generalizing s attempts with
  | zero => cases halloc
  | succ turns ih =>
    rw [allocateEvicting] at halloc
    dsimp only at halloc
    have hdevice : SamePins s { s with deviceSpace := (s.memoryManager.allocate s.deviceSpace size).2 } := SamePins.of_objects rfl
    have hevict := hdevice.trans (evict_samePins attempts _ false)
    split at halloc
    · cases halloc
      exact hdevice
    · split at halloc
      · exact hevict.trans (ih _ _ halloc)
      · cases halloc
        exact hevict

theorem mapHandle_samePins {turns : ℕ} {isMapped : Bool} (hmap : s.mapHandle turns id = some (s', isMapped)) : SamePins s s' := by
  unfold mapHandle at hmap
  dsimp only at hmap
  split at hmap
  · cases hmap
    exact SamePins.setHandle ⟨rfl, rfl, rfl⟩
  · obtain ⟨r, halloc, hr⟩ := Option.bind_eq_some_iff.1 hmap
    have hsame := allocateEvicting_samePins _ _ _ halloc
    split at hr
    · cases hr
      exact hsame
    · cases hr
      exact hsame.trans (SamePins.setHandle ⟨rfl, rfl, rfl⟩)

/-- Whether `PinHandle` gives an address: a handle with pins is mapped, and one without pins is in the queue or can be mapped. -/
def Pinnable (s : NvMap α β) (id : ℕ) : Prop :=
  if (s.objects id).pins = 0 then (s.objects id).unmapQueueEntry = true ∨ s.Mappable id else (s.objects id).dAddress ≠ 0

/-- What `PinHandle` does to the pins. -/
structure Pinned (s s' : NvMap α β) (id address : ℕ) : Prop where
  accounted : s'.Accounted
  address : address ≠ 0 ↔ s.Pinnable id
  other : ∀ i, i ≠ id → (s'.objects i).pins = (s.objects i).pins
  gets : s.Pinnable id ∨ (s.objects id).pins ≠ 0 → (s'.objects id).pins = (s.objects id).pins + 1
  fails : ¬s.Pinnable id → (s.objects id).pins = 0 → (s'.objects id).pins = (s.objects id).pins
  align : (s'.objects id).align = (s.objects id).align
  origSize : (s'.objects id).origSize = (s.objects id).origSize

/-- The end of `PinHandle` adds the pin. -/
theorem finishPin_pins (id : ℕ) (hsame : SamePins s s') :
    (∀ i, i ≠ id → ((s'.finishPin id false).1.objects i).pins = (s.objects i).pins) ∧
      ((s'.finishPin id false).1.objects id).pins = (s.objects id).pins + 1 ∧
      ((s'.finishPin id false).1.objects id).align = (s.objects id).align ∧
      ((s'.finishPin id false).1.objects id).origSize = (s.objects id).origSize ∧
      (s'.finishPin id false).2 = (s'.objects id).dAddress := by
  have hself : (s'.finishPin id false).1.objects id = { s'.objects id with pins := (s'.objects id).pins + 1 } := setHandle_self _ _ _
  refine ⟨?_, ?_, ?_, ?_, ?_⟩
  · intro i hi
    exact (congrArg Handle.pins (setHandle_of_ne s' _ hi)).trans (hsame i).pins
  · rw [hself, ← (hsame id).pins]
  · rw [hself, ← (hsame id).align]
  · rw [hself, ← (hsame id).origSize]
  · exact (finishPin_self s' id false).2

/-- **What `PinHandle` does to the pins of a handle that is in the map.** -/
theorem Accounted.pinHandle_pinned (hs : s.Accounted) (turns : ℕ) (hreg : s.handles id = true) :
    ∃ s' address, s.pinHandle (turns + 2) id false = some (s', address) ∧ Pinned s s' id address := by
  unfold NvMap.pinHandle
  rw [hreg, Bool.not_true, if_neg Bool.false_ne_true]
  by_cases hpins : (s.objects id).pins = 0
  · rw [if_pos hpins]
    cases hentry : (s.objects id).unmapQueueEntry with
    | true =>
      have hpinnable : s.Pinnable id := by
        rw [Pinnable, if_pos hpins]
        exact Or.inl hentry
      obtain ⟨hother, hself, halign, horig, haddress⟩ := finishPin_pins id (eraseEntry_samePins s id)
      have hmapped : ((s.eraseEntry id).objects id).dAddress ≠ 0 := by
        rw [eraseEntry_self]
        exact ((hs.fine id).queued hentry).1
      refine ⟨((s.eraseEntry id).finishPin id false).1, ((s.eraseEntry id).finishPin id false).2, rfl, ⟨?_, ?_, hother, fun _ => hself, ?_, halign, horig⟩⟩
      · apply (hs.eraseEntry id).finishPin
        rw [eraseEntry_self]
        exact Or.inr ⟨rfl, ((hs.fine id).queued hentry).1⟩
      · rw [haddress]
        exact iff_of_true hmapped hpinnable
      · exact fun hnot => absurd hpinnable hnot
    | false =>
      obtain ⟨s', isMapped, hmap, hmapping, hiff, -, -, -⟩ := hs.mapHandle hentry turns
      have hsame := mapHandle_samePins hmap
      have hpinnable : s.Pinnable id ↔ isMapped = true := by
        rw [Pinnable, if_pos hpins, hentry, hiff]
        simp
      rw [if_neg Bool.false_ne_true, hmap]
      cases isMapped with
      | true =>
        obtain ⟨hother, hself, halign, horig, haddress⟩ := finishPin_pins id hsame
        refine ⟨(s'.finishPin id false).1, (s'.finishPin id false).2, rfl, ⟨?_, ?_, hother, fun _ => hself, ?_, halign, horig⟩⟩
        · exact hmapping.accounted.finishPin false (Or.inr ⟨hmapping.entry, hmapping.mapped rfl⟩)
        · rw [haddress]
          exact iff_of_true (hmapping.mapped rfl) (hpinnable.2 rfl)
        · exact fun hnot => absurd (hpinnable.2 rfl) hnot
      | false =>
        have hnot : ¬s.Pinnable id := fun h => Bool.false_ne_true (hpinnable.1 h)
        refine ⟨s', 0, rfl, ⟨hmapping.accounted, iff_of_false (fun h => h rfl) hnot, fun i _ => (hsame i).pins, ?_,
          fun _ _ => (hsame id).pins, (hsame id).align, (hsame id).origSize⟩⟩
        rintro (hcan | hsome)
        · exact absurd hcan hnot
        · exact absurd hpins hsome
  · rw [if_neg hpins]
    obtain ⟨hother, hself, halign, horig, haddress⟩ := finishPin_pins id (SamePins.rfl (s := s))
    refine ⟨(s.finishPin id false).1, (s.finishPin id false).2, rfl, ⟨hs.finishPin false (Or.inl hpins), ?_, hother, fun _ => hself, ?_, halign, horig⟩⟩
    · rw [haddress, Pinnable, if_neg hpins]
    · exact fun _ hzero => absurd hzero hpins

end NvMap
end Nvdrv
end Citron
