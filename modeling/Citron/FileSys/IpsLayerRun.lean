/-
# Patching with a well-formed patch

The patcher's loop takes one record after the other up to the end marker. The data that it leaves are those with all records
applied, unless one of the records does not apply, after which there is no result.
-/
import Citron.FileSys.IpsLayer

namespace Citron
namespace FileSys
namespace IpsLayer

open Lib List

variable {type : IPSFileType} {ips input : VfsFile} {data temp rest : List UInt8} {offset fuel : ℕ} {record : Record type}
  {records : List (Record type)}

/-- The loop at the bytes of an offset or a marker. -/
theorem patchRecords_temp {word : List UInt8} (hword : word.length = tempSize type) (htemp : temp.length = tempSize type)
    (h : ips.contents.drop offset = word ++ rest) (hoffset : offset ≤ ips.contents.length) :
    patchRecords type ips (fuel + 1) data temp offset =
      if isEOF type word then .ok (some data)
      else (do
        match ← patchRecord ips data (ofBigEndian word) (offset + tempSize type) with
        | none => return none
        | some (data, offset) => patchRecords type ips fuel data word offset) := by
  have hread := read_of_drop h hoffset hword
  have hover : overwrite temp 0 word = word := overwrite_all (hword.trans htemp.symm)
  rw [patchRecords]
  simp only [hread, hover, hword, bind, Except.bind, pure, Except.pure, ne_eq, not_true_eq_false, if_false] <;> rfl

theorem patchRecords_marker (htype : type ≠ .error) (htemp : temp.length = tempSize type)
    (h : ips.contents.drop offset = marker type ++ rest) (hoffset : offset ≤ ips.contents.length) :
    patchRecords type ips (fuel + 1) data temp offset = .ok (some data) := by
  rw [patchRecords_temp (length_marker type) htemp h hoffset, if_pos ((isEOF_iff htype _).mpr rfl)]

theorem patchRecords_record (htype : type ≠ .error) (htemp : temp.length = tempSize type)
    (h : ips.contents.drop offset = record.encode ++ rest) (hoffset : offset ≤ ips.contents.length) :
    patchRecords type ips (fuel + 1) data temp offset = (do
      match ← patchRecord ips data record.offset (offset + tempSize type) with
      | none => return none
      | some (data, offset) =>
        patchRecords type ips fuel data (toBigEndian (tempSize type) record.offset) offset) := by
  have hsplit : ips.contents.drop offset =
      toBigEndian (tempSize type) record.offset ++ (record.payload.encode ++ rest) := by
    rw [h, Record.encode, append_assoc]
  have hmarker : ¬isEOF type (toBigEndian (tempSize type) record.offset) = true :=
    fun heof => record.notMarker ((isEOF_iff htype _).mp heof)
  rw [patchRecords_temp (length_toBigEndian _ _) htemp hsplit hoffset, if_neg hmarker, ofBigEndian_toBigEndian record.fits]

theorem drop_payload (h : ips.contents.drop offset = record.encode ++ rest) (hoffset : offset ≤ ips.contents.length) :
    ips.contents.drop (offset + tempSize type) = record.payload.encode ++ rest ∧
      offset + tempSize type ≤ ips.contents.length := by
  rw [Record.encode, append_assoc] at h
  have hdrop := drop_advance h
  have hle := offset_le h hoffset
  rw [length_toBigEndian] at hdrop hle
  exact ⟨hdrop, hle⟩

theorem Record.length_encode_pos (record : Record type) : 0 < record.encode.length := by
  rw [Record.encode, length_append, length_toBigEndian]
  unfold tempSize
  split <;> omega

/-- The loop applies the records one after the other, each to data of the same size. -/
theorem patchRecords_applyAll (htype : type ≠ .error) (hfuel : (records.flatMap Record.encode).length < fuel)
    (htemp : temp.length = tempSize type)
    (h : ips.contents.drop offset = records.flatMap Record.encode ++ (marker type ++ rest))
    (hoffset : offset ≤ ips.contents.length) (happlies : ∀ record ∈ records, record.Applies data.length) :
    patchRecords type ips fuel data temp offset = .ok (some (applyAll records data)) := by
  induction records generalizing fuel data temp offset with
  | nil =>
    obtain ⟨fuel, rfl⟩ := Nat.exists_eq_add_one.mpr hfuel
    exact patchRecords_marker htype htemp h hoffset
  | cons record records ih =>
    obtain ⟨fuel, rfl⟩ := Nat.exists_eq_add_one.mpr (Nat.zero_lt_of_lt hfuel)
    rw [flatMap_cons, append_assoc] at h
    rw [flatMap_cons, length_append] at hfuel
    have hpos := record.length_encode_pos
    obtain ⟨hpayload, hpayloadOffset⟩ := drop_payload h hoffset
    have hfirst := patchRecord_applies (happlies record mem_cons_self) hpayload hpayloadOffset
    rw [patchRecords_record htype htemp h hoffset, hfirst]
    apply ih
    · omega
    · exact length_toBigEndian _ _
    · exact drop_advance hpayload
    · exact offset_le hpayload hpayloadOffset
    · intro other hother
      rw [record.length_apply]
      exact happlies other (mem_cons_of_mem record hother)

/-- The loop ends without a result at the first record that does not apply. -/
theorem patchRecords_not_applies (htype : type ≠ .error) (htemp : temp.length = tempSize type)
    (h : ips.contents.drop offset = records.flatMap Record.encode ++ (marker type ++ rest))
    (hoffset : offset ≤ ips.contents.length) (happlies : ¬∀ record ∈ records, record.Applies data.length)
    (result : List UInt8) : patchRecords type ips fuel data temp offset ≠ .ok (some result) := by
  induction records generalizing fuel data temp offset with
  | nil => exact absurd (fun record hrecord => absurd hrecord not_mem_nil) happlies
  | cons record records ih =>
    cases fuel with
    | zero => exact fun hendless => by cases hendless
    | succ fuel =>
      rw [flatMap_cons, append_assoc] at h
      obtain ⟨hpayload, hpayloadOffset⟩ := drop_payload h hoffset
      rw [patchRecords_record htype htemp h hoffset]
      by_cases hfirst : record.Applies data.length
      · rw [patchRecord_applies hfirst hpayload hpayloadOffset]
        apply ih
        · exact length_toBigEndian _ _
        · exact drop_advance hpayload
        · exact offset_le hpayload hpayloadOffset
        · intro hrest
          apply happlies
          intro other hother
          rcases mem_cons.mp hother with rfl | hother
          · exact hfirst
          · have hother := hrest other hother
            rwa [record.length_apply] at hother
      · rcases patchRecord_not_applies hfirst hpayload hpayloadOffset with hnone | hfault
        · rw [hnone]
          exact fun hnull => by cases hnull
        · rw [hfault]
          exact fun hnull => by cases hnull

theorem length_magic (type : IPSFileType) : (magic type).length = 5 := by
  unfold magic
  split <;> rfl

theorem identifyMagic_magic (htype : type ≠ .error) : identifyMagic (magic type) = type := by
  cases type with
  | ips => rfl
  | ips32 => rfl
  | error => exact absurd rfl htype

/-- Up to the loop. -/
theorem patchIPS_eq (htype : type ≠ .error) (hips : ips.contents = encodePatch type records rest) :
    patchIPS input ips =
      if input.contents.length = 0 then .ok none
      else patchRecords type ips (ips.getSize + 1) input.contents (List.replicate (tempSize type) 0) 5 := by
  have hstart : ips.contents.drop 0 = magic type ++ (records.flatMap Record.encode ++ (marker type ++ rest)) := by
    rw [drop_zero, hips, encodePatch]
  have hmagic : read ips 5 0 = .ok (magic type) := read_of_drop hstart (Nat.zero_le _) (length_magic type)
  have hcontents : input.contents.drop 0 = input.contents ++ [] := by rw [drop_zero, append_nil]
  have hall : read input input.getSize 0 = .ok input.contents := read_of_drop hcontents (Nat.zero_le _) rfl
  unfold patchIPS
  simp only [hmagic, identifyMagic_magic htype, hall, htype, bind, Except.bind, pure, Except.pure, if_false]

/-- **The result is the input with all records applied if and only if there is input and every record applies.** -/
theorem patchIPS_applyAll_iff (htype : type ≠ .error) (hips : ips.contents = encodePatch type records rest) :
    patchIPS input ips = .ok (some (applyAll records input.contents)) ↔
      input.contents ≠ [] ∧ ∀ record ∈ records, record.Applies input.contents.length := by
  have hdrop : ips.contents.drop 5 = records.flatMap Record.encode ++ (marker type ++ rest) := by
    rw [hips, encodePatch, ← length_magic type, drop_left]
  have hlength : 5 + (records.flatMap Record.encode).length ≤ ips.contents.length := by
    rw [hips, encodePatch, length_append, length_magic, length_append]
    omega
  have htemp : (List.replicate (tempSize type) (0 : UInt8)).length = tempSize type := length_replicate
  rw [patchIPS_eq htype hips]
  by_cases hempty : input.contents.length = 0
  · rw [if_pos hempty]
    constructor
    · intro hnull
      cases hnull
    · exact fun h => absurd (length_eq_zero_iff.mp hempty) h.1
  · rw [if_neg hempty]
    have hne : input.contents ≠ [] := fun h => hempty (congrArg List.length h)
    constructor
    · intro hresult
      refine ⟨hne, ?_⟩
      by_contra happlies
      exact patchRecords_not_applies htype htemp hdrop (by omega) happlies _ hresult
    · rintro ⟨-, happlies⟩
      have hfuel : (records.flatMap Record.encode).length < ips.getSize + 1 := by
        rw [VfsFile.getSize]
        omega
      exact patchRecords_applyAll htype hfuel htemp hdrop (by omega) happlies

/-- The data keep their size. -/
theorem length_applyAll (records : List (Record type)) (data : List UInt8) : (applyAll records data).length = data.length := by
  induction records generalizing data with
  | nil => rfl
  | cons record records ih => exact (ih (record.apply data)).trans (record.length_apply data)

/-- Bytes and a run that goes past the end of three bytes. -/
def bytesAndRun : List (Record .ips) :=
  [⟨0, by decide, by decide, .standard [7, 8] (by decide) (by decide)⟩, ⟨2, by decide, by decide, .rle 5 (by decide) 9⟩]

theorem patchIPS_applyAll_bytesAndRun :
    patchIPS (.boundedFile [1, 2, 3]) (.boundedFile (encodePatch .ips bytesAndRun [])) =
      .ok (some (applyAll bytesAndRun [1, 2, 3])) := by
  refine (patchIPS_applyAll_iff (by decide) rfl).mpr ⟨cons_ne_nil _ _, ?_⟩
  intro record hrecord
  simp only [bytesAndRun, mem_cons, not_mem_nil, or_false] at hrecord
  rcases hrecord with rfl | rfl
  · exact (by decide : 0 + 2 ≤ 3)
  · exact (by decide : 2 ≤ 3 ∧ (2 + 5 ≤ 3 ∨ 2 + 5 < 2 ^ 32))

/-- Two bytes of which one is past the end of three. -/
def bytesPastEnd : List (Record .ips) := [⟨2, by decide, by decide, .standard [7, 8] (by decide) (by decide)⟩]

/-- The record of bytes is not cut: there is no result. -/
theorem patchIPS_bytesPastEnd :
    patchIPS (.boundedFile [1, 2, 3]) (.boundedFile (encodePatch .ips bytesPastEnd [])) = .ok none ∧
      applyAll bytesPastEnd [1, 2, 3] = [1, 2, 7] := by
  decide

end IpsLayer
end FileSys
end Citron
