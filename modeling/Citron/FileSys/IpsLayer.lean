/-
# Binary patches

`PatchIPS` reads a magic and then records up to an end marker: an offset, a size, and the bytes that go there, or after a
size of 0 the size of a run and its byte. A write behind the end of the data is a fault, and so is a read of the patch that
the patch's file does not answer for.
-/
import Mathlib.Data.List.GetD
import Citron.FileSys.VfsFile
import Citron.Lib.BigEndian

namespace Citron

open List

namespace FileSys
namespace IpsLayer

open Lib

inductive IPSFileType
  | ips | ips32 | error
  deriving DecidableEq

/-- `"PATCH"` -/
def patchMagic : List UInt8 := [0x50, 0x41, 0x54, 0x43, 0x48]

/-- `"IPS32"` -/
def ips32Magic : List UInt8 := [0x49, 0x50, 0x53, 0x33, 0x32]

/-- `"EOF"` -/
def eof : List UInt8 := [0x45, 0x4F, 0x46]

/-- `"EEOF"` -/
def eeof : List UInt8 := [0x45, 0x45, 0x4F, 0x46]

def identifyMagic (magic : List UInt8) : IPSFileType :=
  if magic = patchMagic then .ips else if magic = ips32Magic then .ips32 else .error

def isEOF (type : IPSFileType) (data : List UInt8) : Bool :=
  (type == .ips && data == eof) || (type == .ips32 && data == eeof)

/-- The bytes of an offset: the size of `temp`. -/
def tempSize (type : IPSFileType) : ℕ := if type = .ips then 3 else 4

inductive Fault
  | write | read | endless
  deriving DecidableEq

/-- `nullptr` is `none`. -/
abbrev Outcome : Type := Except Fault (Option (List UInt8))

/-- Bytes put over those from an offset on. -/
def overwrite (data : List UInt8) (offset : ℕ) (bytes : List UInt8) : List UInt8 :=
  data.take offset ++ bytes ++ data.drop (offset + bytes.length)

/-- The same into a buffer that may be too short. -/
def write (data : List UInt8) (offset : ℕ) (bytes : List UInt8) : Except Fault (List UInt8) :=
  if offset + bytes.length ≤ data.length then .ok (overwrite data offset bytes) else .error .write

def read (ips : VfsFile) (length offset : ℕ) : Except Fault (List UInt8) :=
  match ips.read length offset with
  | some bytes => .ok bytes
  | none => .error .read

/-- The size that is written, cut by the comparison of 32-bit sums. -/
def clip (realOffset size inSize : ℕ) : ℕ :=
  if inSize < (realOffset + size) % 2 ^ 32 then (inSize - realOffset) % 2 ^ 16 else size

/-- A record behind its offset: the data and the offset behind the record, or nothing if the patch is refused. -/
def patchRecord (ips : VfsFile) (inData : List UInt8) (realOffset offset : ℕ) : Except Fault (Option (List UInt8 × ℕ)) := do
  if inData.length < realOffset then return none
  let sizeBytes ← read ips 2 offset
  if sizeBytes.length ≠ 2 then return none
  let dataSize := ofBigEndian sizeBytes
  let offset := offset + 2
  if dataSize = 0 then
    let sizeBytes ← read ips 2 offset
    if sizeBytes.length ≠ 2 then return none
    let rleSize := ofBigEndian sizeBytes
    let offset := offset + 2
    match ← read ips 1 offset with
    | [byte] =>
      let inData ← write inData realOffset (List.replicate (clip realOffset rleSize inData.length) byte)
      return some (inData, offset + 1)
    | _ => return none
  else
    let bytes ← read ips (clip realOffset dataSize inData.length) offset
    let inData ← write inData realOffset bytes
    if bytes.length ≠ dataSize then return none
    return some (inData, offset + dataSize)

/-- The loop over the records; each takes bytes of the patch, of which there are no more than `fuel`. -/
def patchRecords (type : IPSFileType) (ips : VfsFile) : ℕ → List UInt8 → List UInt8 → ℕ → Outcome
  | 0, _, _, _ => .error .endless
  | fuel + 1, inData, temp, offset => do
    let bytes ← read ips (tempSize type) offset
    let temp := overwrite temp 0 bytes
    if bytes.length ≠ tempSize type then return if isEOF type temp then some inData else none
    else if isEOF type temp then return some inData
    else
      match ← patchRecord ips inData (ofBigEndian temp) (offset + tempSize type) with
      | none => return none
      | some (inData, offset) => patchRecords type ips fuel inData temp offset

def patchIPS (input ips : VfsFile) : Outcome := do
  let type := identifyMagic (← read ips 5 0)
  if type = .error then return none
  let inData ← read input input.getSize 0
  if inData.length = 0 then return none
  patchRecords type ips (ips.getSize + 1) inData (List.replicate (tempSize type) 0) 5

end IpsLayer

/-! ## The records of a binary patch

A well-formed patch is a magic, the bytes of records and an end marker. Its meaning: each record in order overwrites its
range, cut at the end of the data. The patcher does that as long as every record of bytes ends inside the data, and every
run starts inside or at the end.
-/

namespace IpsLayer

open Lib

variable {type : IPSFileType} {ips input : VfsFile} {data temp : List UInt8} {offset realOffset fuel : ℕ}

/-! ### Well-formed patches -/

inductive Payload
  | standard (bytes : List UInt8) (nonempty : bytes ≠ []) (short : bytes.length < 2 ^ 16)
  | rle (size : ℕ) (short : size < 2 ^ 16) (byte : UInt8)

namespace Payload

def bytes : Payload → List UInt8
  | standard bytes _ _ => bytes
  | rle size _ byte => List.replicate size byte

def encode : Payload → List UInt8
  | standard bytes _ _ => toBigEndian 2 bytes.length ++ bytes
  | rle size _ byte => toBigEndian 2 0 ++ toBigEndian 2 size ++ [byte]

end Payload

/-- The end marker of a type. -/
def marker (type : IPSFileType) : List UInt8 := if type = .ips then eof else eeof

/-- A record that the type of the patch can have: its offset has the type's size and is not the end marker. -/
structure Record (type : IPSFileType) where
  offset : ℕ
  fits : offset < 2 ^ (8 * tempSize type)
  notMarker : toBigEndian (tempSize type) offset ≠ marker type
  payload : Payload

namespace Record

variable (record : Record type)

def encode : List UInt8 := toBigEndian (tempSize type) record.offset ++ record.payload.encode

/-- The record's bytes over the data, cut at their end. -/
def apply (data : List UInt8) : List UInt8 :=
  data.mapIdx fun i byte => if record.offset ≤ i then record.payload.bytes.getD (i - record.offset) byte else byte

end Record

def magic (type : IPSFileType) : List UInt8 := if type = .ips then patchMagic else ips32Magic

/-- A patch; what stands behind the end marker does not matter. -/
def encodePatch (type : IPSFileType) (records : List (Record type)) (rest : List UInt8) : List UInt8 :=
  magic type ++ (records.flatMap Record.encode ++ (marker type ++ rest))

def applyAll (records : List (Record type)) (data : List UInt8) : List UInt8 :=
  records.foldl (fun data record => record.apply data) data

/-- The records that are applied to data of a size: bytes must end inside, and a run must start inside or at the end and, if
it does not end inside, stay below 4 GiB. -/
def Record.Applies (record : Record type) (size : ℕ) : Prop :=
  match record.payload with
  | .standard bytes _ _ => record.offset + bytes.length ≤ size
  | .rle length _ _ => record.offset ≤ size ∧ (record.offset + length ≤ size ∨ record.offset + length < 2 ^ 32)

/-! ### Overwriting -/

@[simp] theorem Record.length_apply (record : Record type) (data : List UInt8) : (record.apply data).length = data.length :=
  length_mapIdx

variable {bytes : List UInt8}

theorem length_overwrite (h : offset + bytes.length ≤ data.length) :
    (overwrite data offset bytes).length = data.length := by
  simp only [overwrite, length_append, length_take, length_drop]
  omega

/-- Overwriting with the part of the bytes that is inside is what the record means. -/
theorem Record.apply_eq_overwrite (record : Record type) {count : ℕ} (hcount : count ≤ record.payload.bytes.length)
    (hinside : record.offset + count ≤ data.length)
    (hcut : count < record.payload.bytes.length → record.offset + count = data.length) :
    overwrite data record.offset (record.payload.bytes.take count) = record.apply data := by
  have hlength : (record.payload.bytes.take count).length = count := by
    rw [length_take]
    omega
  apply ext_getElem
  · rw [length_overwrite (by omega), record.length_apply]
  · intro i hi hi'
    rw [length_overwrite (by omega)] at hi
    simp only [overwrite, Record.apply, getElem_mapIdx]
    rcases Nat.lt_or_ge i record.offset with hlow | hhigh
    · rw [if_neg (by omega), getElem_append_left (by simp; omega), getElem_append_left (by simp; omega),
        getElem_take]
    · rw [if_pos hhigh]
      rcases Nat.lt_or_ge (i - record.offset) count with hin | hout
      · rw [getElem_append_left (by simp; omega), getElem_append_right (by simp; omega), getElem_take,
          getD_eq_getElem _ _ (by omega)]
        congr 1
        simp
        omega
      · rw [getElem_append_right (by simp; omega), getElem_drop, getD_eq_default _ _ (by omega)]
        congr 1
        simp
        omega

/-! ### Reading a record -/

theorem read_of_drop {rest : List UInt8} {length : ℕ} (h : ips.contents.drop offset = bytes ++ rest)
    (hoffset : offset ≤ ips.contents.length) (hlength : bytes.length = length) : read ips length offset = .ok bytes := by
  rw [read, ← hlength, ips.read_of_drop h hoffset]

theorem drop_advance {rest : List UInt8} (h : ips.contents.drop offset = bytes ++ rest) :
    ips.contents.drop (offset + bytes.length) = rest := by
  rw [← drop_drop, h, drop_left]

/-- What is behind an offset keeps it inside. -/
theorem offset_le {rest : List UInt8} (h : ips.contents.drop offset = bytes ++ rest)
    (hoffset : offset ≤ ips.contents.length) : offset + bytes.length ≤ ips.contents.length := by
  have hlength := congrArg List.length h
  rw [length_drop, length_append] at hlength
  omega

theorem write_eq (h : offset + bytes.length ≤ data.length) :
    write data offset bytes = .ok (overwrite data offset bytes) := if_pos h

theorem write_eq_error (h : data.length < offset + bytes.length) : write data offset bytes = .error .write :=
  if_neg (Nat.not_le_of_lt h)

theorem Record.offset_lt (record : Record type) : record.offset < 2 ^ 32 := by
  apply record.fits.trans_le
  apply Nat.pow_le_pow_right (by decide)
  unfold tempSize
  split <;> decide

/-! ### One record -/

variable {size : ℕ}

/-- The comparison of the sums is right where the sum stays below 4 GiB or the record ends inside. -/
theorem clip_eq (hstart : realOffset ≤ data.length) (hsize : size < 2 ^ 16)
    (h : realOffset + size ≤ data.length ∨ realOffset + size < 2 ^ 32) :
    clip realOffset size data.length = min size (data.length - realOffset) := by
  unfold clip
  rcases h with h | h
  · rw [if_neg (by omega)]
    omega
  · rw [Nat.mod_eq_of_lt h]
    split
    · rw [Nat.mod_eq_of_lt (by omega)]
      omega
    · omega

theorem clip_le (hstart : realOffset ≤ data.length) (hsize : size < 2 ^ 16) :
    clip realOffset size data.length ≤ size := by
  unfold clip
  split
  · rw [Nat.mod_eq_of_lt (by omega)]
    omega
  · exact le_rfl

/-- Where the sum wraps, nothing is cut. -/
theorem clip_of_wrap (hrealOffset : realOffset < 2 ^ 32) (hstart : realOffset ≤ data.length) (hsize : size < 2 ^ 16)
    (h : 2 ^ 32 ≤ realOffset + size) : clip realOffset size data.length = size := by
  unfold clip
  rw [if_neg]
  omega

variable {record : Record type} {rest : List UInt8}

theorem patchRecord_rle {byte : UInt8} (hsize : size < 2 ^ 16) (hstart : realOffset ≤ data.length)
    (h : ips.contents.drop offset = toBigEndian 2 0 ++ (toBigEndian 2 size ++ ([byte] ++ rest)))
    (hoffset : offset ≤ ips.contents.length) :
    patchRecord ips data realOffset offset =
      (write data realOffset (List.replicate (clip realOffset size data.length) byte)).map
        fun inData => some (inData, offset + 5) := by
  have hsecond := drop_advance h
  have hthird := drop_advance hsecond
  have hoffset₂ := offset_le h hoffset
  have hoffset₃ := offset_le hsecond hoffset₂
  rw [length_toBigEndian] at hsecond hthird hoffset₂ hoffset₃
  rw [length_toBigEndian] at hthird hoffset₃
  have hread₁ := read_of_drop h hoffset (length_toBigEndian 2 0)
  have hread₂ := read_of_drop hsecond hoffset₂ (length_toBigEndian 2 size)
  have hread₃ : read ips 1 (offset + 2 + 2) = .ok [byte] := read_of_drop hthird hoffset₃ rfl
  have hzero : ofBigEndian (toBigEndian 2 0) = 0 := rfl
  have hvalue : ofBigEndian (toBigEndian 2 size) = size := ofBigEndian_toBigEndian hsize
  unfold patchRecord
  rw [if_neg (Nat.not_lt_of_le hstart)]
  simp only [hread₁, hread₂, hread₃, hzero, hvalue, length_toBigEndian, bind, Except.bind, pure, Except.pure, ne_eq,
    not_true_eq_false, if_true, if_false]
  cases write data realOffset (List.replicate (clip realOffset size data.length) byte) with
  | error fault => rfl
  | ok inData => rfl

theorem patchRecord_standard (hnonempty : bytes ≠ []) (hshort : bytes.length < 2 ^ 16)
    (hstart : realOffset ≤ data.length) (h : ips.contents.drop offset = toBigEndian 2 bytes.length ++ (bytes ++ rest))
    (hoffset : offset ≤ ips.contents.length) :
    patchRecord ips data realOffset offset =
      (write data realOffset (bytes.take (clip realOffset bytes.length data.length))).map fun inData =>
        if clip realOffset bytes.length data.length < bytes.length then none
        else some (inData, offset + 2 + bytes.length) := by
  have hsecond := drop_advance h
  have hoffset₂ := offset_le h hoffset
  rw [length_toBigEndian] at hsecond hoffset₂
  have hread₁ := read_of_drop h hoffset (length_toBigEndian 2 bytes.length)
  have hvalue : ofBigEndian (toBigEndian 2 bytes.length) = bytes.length := ofBigEndian_toBigEndian hshort
  have hpos : ¬bytes.length = 0 := fun hzero => hnonempty (length_eq_zero_iff.mp hzero)
  have hclip : clip realOffset bytes.length data.length ≤ bytes.length := clip_le hstart hshort
  have hread₂ : read ips (clip realOffset bytes.length data.length) (offset + 2) =
      .ok (bytes.take (clip realOffset bytes.length data.length)) := by
    have hsplit : ips.contents.drop (offset + 2) = bytes.take (clip realOffset bytes.length data.length) ++
        (bytes.drop (clip realOffset bytes.length data.length) ++ rest) := by
      rw [hsecond, ← append_assoc, take_append_drop]
    exact read_of_drop hsplit hoffset₂ (by rw [length_take]; omega)
  unfold patchRecord
  rw [if_neg (Nat.not_lt_of_le hstart)]
  simp only [hread₁, hread₂, hvalue, hpos, length_toBigEndian, bind, Except.bind, pure, Except.pure, ne_eq,
    not_true_eq_false, if_false]
  cases write data realOffset (bytes.take (clip realOffset bytes.length data.length)) with
  | error fault => rfl
  | ok inData =>
    simp only [Except.map, length_take, Nat.min_eq_left hclip]
    rcases Nat.lt_or_ge (clip realOffset bytes.length data.length) bytes.length with hcut | hall
    · rw [if_pos hcut.ne, if_pos hcut]
    · rw [Nat.le_antisymm hclip hall]
      rw [if_neg (not_not.mpr rfl), if_neg (Nat.lt_irrefl _)]

theorem patchRecord_past (h : data.length < realOffset) : patchRecord ips data realOffset offset = .ok none := by
  unfold patchRecord
  rw [if_pos h]
  rfl

/-- **A record that applies is applied.** -/
theorem patchRecord_applies (happlies : record.Applies data.length)
    (h : ips.contents.drop offset = record.payload.encode ++ rest) (hoffset : offset ≤ ips.contents.length) :
    patchRecord ips data record.offset offset = .ok (some (record.apply data, offset + record.payload.encode.length)) := by
  unfold Record.Applies at happlies
  cases hpayload : record.payload with
  | standard bytes hnonempty hshort =>
    rw [hpayload] at happlies h
    have hstart : record.offset ≤ data.length := by omega
    have hclip : clip record.offset bytes.length data.length = bytes.length := by
      rw [clip_eq hstart hshort (Or.inl happlies)]
      omega
    have happly : overwrite data record.offset bytes = record.apply data := by
      have hover : overwrite data record.offset (record.payload.bytes.take bytes.length) = record.apply data :=
        record.apply_eq_overwrite (by rw [hpayload]; exact le_rfl) happlies
          (by rw [hpayload]; exact fun hlt => absurd hlt (Nat.lt_irrefl _))
      rwa [hpayload, Payload.bytes, take_length] at hover
    have hencode : offset + 2 + bytes.length = offset + (Payload.standard bytes hnonempty hshort).encode.length := by
      rw [Payload.encode, length_append, length_toBigEndian]
      omega
    rw [patchRecord_standard hnonempty hshort hstart (by simpa [Payload.encode] using h) hoffset, hclip, take_length,
      write_eq happlies, happly, hencode]
    simp [Except.map]
  | rle size hshort byte =>
    rw [hpayload] at happlies h
    obtain ⟨hstart, hsum⟩ := happlies
    have hclip := clip_eq hstart hshort hsum
    have hinside : record.offset + (List.replicate (min size (data.length - record.offset)) byte).length ≤ data.length := by
      rw [length_replicate]
      omega
    have happly : overwrite data record.offset (List.replicate (min size (data.length - record.offset)) byte) =
        record.apply data := by
      have hover : overwrite data record.offset (record.payload.bytes.take (min size (data.length - record.offset))) =
          record.apply data :=
        record.apply_eq_overwrite (by rw [hpayload, Payload.bytes, length_replicate]; omega) (by omega)
          (by rw [hpayload, Payload.bytes, length_replicate]; omega)
      rwa [hpayload, Payload.bytes, take_replicate, Nat.min_assoc, Nat.min_comm _ size, ← Nat.min_assoc,
        Nat.min_self] at hover
    have hencode : offset + 5 = offset + (Payload.rle size hshort byte).encode.length := by
      simp [Payload.encode]
    rw [patchRecord_rle hshort hstart (by simpa [Payload.encode] using h) hoffset, hclip, write_eq hinside, happly, hencode]
    rfl

/-- A record that does not apply ends the patching. -/
theorem patchRecord_not_applies (happlies : ¬record.Applies data.length)
    (h : ips.contents.drop offset = record.payload.encode ++ rest) (hoffset : offset ≤ ips.contents.length) :
    patchRecord ips data record.offset offset = .ok none ∨ patchRecord ips data record.offset offset = .error .write := by
  unfold Record.Applies at happlies
  rcases Nat.lt_or_ge data.length record.offset with hpast | hstart
  · exact Or.inl (patchRecord_past hpast)
  cases hpayload : record.payload with
  | standard bytes hnonempty hshort =>
    rw [hpayload] at happlies h
    rw [patchRecord_standard hnonempty hshort hstart (by simpa [Payload.encode] using h) hoffset]
    rcases Nat.lt_or_ge (record.offset + bytes.length) (2 ^ 32) with hsum | hwrap
    · have hclip := clip_eq hstart hshort (Or.inr hsum)
      have hcut : clip record.offset bytes.length data.length < bytes.length := by omega
      have hinside : record.offset + (bytes.take (clip record.offset bytes.length data.length)).length ≤ data.length := by
        rw [length_take]
        omega
      rw [write_eq hinside]
      simp [Except.map, hcut]
    · have hclip := clip_of_wrap record.offset_lt hstart hshort hwrap
      rw [hclip, take_length, write_eq_error (by omega)]
      exact Or.inr rfl
  | rle size hshort byte =>
    rw [hpayload] at happlies h
    have hwrap : 2 ^ 32 ≤ record.offset + size := by
      by_contra hlt
      exact happlies ⟨hstart, Or.inr (by omega)⟩
    have hclip := clip_of_wrap record.offset_lt hstart hshort hwrap
    rw [patchRecord_rle hshort hstart (by simpa [Payload.encode] using h) hoffset, hclip,
      write_eq_error (by rw [length_replicate]; omega)]
    exact Or.inr rfl

/-! ### All records -/

theorem length_marker (type : IPSFileType) : (marker type).length = tempSize type := by
  unfold marker tempSize
  split <;> rfl

/-- The end marker is recognized, and an offset that is not it is not. -/
theorem isEOF_iff (htype : type ≠ .error) (temp : List UInt8) : isEOF type temp = true ↔ temp = marker type := by
  cases type with
  | ips => simp [isEOF, marker]
  | ips32 => simp [isEOF, marker]
  | error => exact absurd rfl htype

theorem overwrite_all (h : bytes.length = temp.length) : overwrite temp 0 bytes = bytes := by
  simp [overwrite, h]

end IpsLayer
end FileSys
end Citron
