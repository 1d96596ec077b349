/-
# Concatenated files

`ConcatenatedVfsFile`: parts at offsets become one file, whose gaps are filled with files of one byte. `Read` finds the part
at an offset and goes on from part to part.
-/
import Mathlib.Data.List.GetD
import Citron.FileSys.VfsFile
import Mathlib.Order.Basic
import Mathlib.Data.Nat.Basic

namespace Citron
namespace FileSys
namespace ConcatenatedVfsFile

open List

/-- What a file is to those who read it. -/
structure Readable where
  getSize : ℕ
  read : ℕ → ℕ → Option (List UInt8)

structure ConcatenationEntry where
  offset : ℕ
  file : VfsFile

def ConcatenationEntry.endOffset (entry : ConcatenationEntry) : ℕ := entry.offset + entry.file.getSize

abbrev ConcatenationMap := List ConcatenationEntry

/-- The loop of `Read` from an entry on; a cursor in front of its entry would wrap. -/
def readEntries : ConcatenationMap → ℕ → ℕ → Option (List UInt8)
  | [], _, _ => some []
  | entry :: map, curLength, curOffset =>
    if curLength = 0 then some []
    else if entry.endOffset < curOffset then some []
    else if curOffset < entry.offset then none
    else
      let fileSeek := curOffset - entry.offset
      let intendedReadSize := min curLength (entry.file.getSize - fileSeek)
      match entry.file.read intendedReadSize fileSeek with
      | none => none
      | some bytes =>
        if bytes.length < intendedReadSize then some bytes
        else (readEntries map (curLength - bytes.length) (curOffset + bytes.length)).map (bytes ++ ·)

/-- How many entries `std::upper_bound` passes over in the sorted map. -/
def upperBound (map : ConcatenationMap) (offset : ℕ) : ℕ := (map.takeWhile (·.offset ≤ offset)).length

/-- `Read`; an offset before the first entry has no entry. -/
def read (map : ConcatenationMap) (length offset : ℕ) : Option (List UInt8) :=
  if map = [] then some []
  else if upperBound map offset = 0 then none
  else readEntries (map.drop (upperBound map offset - 1)) length offset

def getSize (map : ConcatenationMap) : ℕ :=
  match map.getLast? with
  | none => 0
  | some entry => entry.endOffset

/-- The map for parts, behind `lastOffset`. -/
def concatenationMap (fillerByte : UInt8) : ℕ → List ConcatenationEntry → ConcatenationMap
  | _, [] => []
  | lastOffset, part :: parts =>
    (if lastOffset < part.offset then [⟨lastOffset, .staticVfsFile fillerByte (part.offset - lastOffset)⟩] else []) ++
      part :: concatenationMap fillerByte part.endOffset parts

def makeConcatenatedFile (fillerByte : UInt8) : List ConcatenationEntry → Option Readable
  | [] => none
  | [part] => some ⟨part.file.getSize, part.file.read⟩
  | parts => some ⟨getSize (concatenationMap fillerByte 0 parts), read (concatenationMap fillerByte 0 parts)⟩

/-! ## Reading concatenated files

The map that is built from separate parts is continuous: each entry starts where the one before it ends. Reading a continuous
map is reading the contents of its files one behind the other, and these are the parts' bytes with the filler between them. A
single part is not put into a map: what is in front of it is lost.
-/

variable {map parts : ConcatenationMap} {entry part : ConcatenationEntry} {start length offset : ℕ} {fillerByte : UInt8}

/-! ### Continuous maps -/

/-- `VerifyContinuity` from an offset on. -/
def Continuous : ℕ → ConcatenationMap → Prop
  | _, [] => True
  | start, entry :: map => entry.offset = start ∧ Continuous entry.endOffset map

/-- The contents of the files, one behind the other. -/
def joined (map : ConcatenationMap) : List UInt8 := map.flatMap (·.file.contents)

@[simp] theorem joined_nil : joined [] = [] := rfl

@[simp] theorem joined_cons (entry : ConcatenationEntry) (map : ConcatenationMap) :
    joined (entry :: map) = entry.file.contents ++ joined map := rfl

theorem endOffset_eq (entry : ConcatenationEntry) : entry.endOffset = entry.offset + entry.file.contents.length := rfl

/-- The loop reads on from a cursor in its first entry. -/
theorem readEntries_eq (hmap : Continuous start map) (hstart : start ≤ offset)
    (hend : ∀ entry ∈ map.head?, offset ≤ entry.endOffset) :
    readEntries map length offset = some (((joined map).drop (offset - start)).take length) := by
  induction map generalizing start length offset with
  | nil => simp [readEntries]
  | cons entry map ih =>
    obtain ⟨rfl, hmap⟩ := hmap
    have hinside : offset ≤ entry.endOffset := hend entry rfl
    rw [endOffset_eq] at hinside
    rw [readEntries]
    by_cases hlength : length = 0
    · rw [if_pos hlength, hlength, take_zero]
    rw [if_neg hlength, if_neg (by rw [endOffset_eq]; omega), if_neg (by omega)]
    have hseek : offset - entry.offset ≤ entry.file.contents.length := by omega
    have hread := entry.file.read_eq (min length (entry.file.getSize - (offset - entry.offset))) _ hseek
    have hcount : ((entry.file.contents.drop (offset - entry.offset)).take
        (min length (entry.file.getSize - (offset - entry.offset)))).length =
          min length (entry.file.getSize - (offset - entry.offset)) := by
      rw [length_take, length_drop, VfsFile.getSize]
      omega
    simp only [hread, hcount, Nat.lt_irrefl, if_false]
    have hdrop : (joined (entry :: map)).drop (offset - entry.offset) =
        entry.file.contents.drop (offset - entry.offset) ++ joined map := by
      rw [joined_cons, drop_append_of_le_length hseek]
    rw [hdrop, take_append, length_drop]
    rcases Nat.le_total length (entry.file.contents.length - (offset - entry.offset)) with hshort | hlong
    · -- the entry has all that is left to read
      have hmin : min length (entry.file.getSize - (offset - entry.offset)) = length := Nat.min_eq_left hshort
      have hrest : readEntries map 0 (offset + length) = some [] := by
        cases map with
        | nil => rfl
        | cons _ _ => simp [readEntries]
      rw [hmin, Nat.sub_self, hrest, Nat.sub_eq_zero_of_le hshort, take_zero]
      rfl
    · have hmin : min length (entry.file.getSize - (offset - entry.offset)) =
          entry.file.contents.length - (offset - entry.offset) := Nat.min_eq_right hlong
      have hnext : offset + (entry.file.contents.length - (offset - entry.offset)) = entry.endOffset := by
        rw [endOffset_eq]
        omega
      have hrest : readEntries map (length - (entry.file.contents.length - (offset - entry.offset))) entry.endOffset =
          some ((joined map).take (length - (entry.file.contents.length - (offset - entry.offset)))) := by
        rw [ih hmap le_rfl, Nat.sub_self, drop_zero]
        intro next hnext
        cases map with
        | nil => cases hnext
        | cons next' map =>
          cases hnext
          rw [← hmap.1]
          exact Nat.le_add_right _ _
      rw [hmin, hnext, hrest]
      have hall : (entry.file.contents.drop (offset - entry.offset)).take length =
          (entry.file.contents.drop (offset - entry.offset)).take
            (entry.file.contents.length - (offset - entry.offset)) := by
        rw [take_of_length_le, take_of_length_le]
        · rw [length_drop]
        · rw [length_drop]
          exact hlong
      rw [hall]
      rfl

/-- A cursor past the end of the entry it starts in reads nothing. -/
theorem readEntries_past (h : entry.endOffset < offset) : readEntries (entry :: map) length offset = some [] := by
  rw [readEntries]
  by_cases hlength : length = 0
  · rw [if_pos hlength]
  · rw [if_neg hlength, if_pos h]

theorem length_joined_eq (hmap : Continuous start map) (entry : ConcatenationEntry) (hlast : map.getLast? = some entry) :
    start + (joined map).length = entry.endOffset := by
  induction map generalizing start with
  | nil => cases hlast
  | cons first map ih =>
    obtain ⟨rfl, hmap⟩ := hmap
    rw [joined_cons, length_append, ← Nat.add_assoc, ← endOffset_eq]
    cases map with
    | nil =>
      cases hlast
      rfl
    | cons second map =>
      rw [getLast?_cons_cons] at hlast
      exact ih hmap hlast

/-- The entry that the search finds has the offset, unless the offset is past the last entry. -/
theorem readEntries_upperBound (hmap : Continuous start map) (hne : map ≠ []) (hstart : start ≤ offset) :
    0 < upperBound map offset ∧ readEntries (map.drop (upperBound map offset - 1)) length offset =
      some (((joined map).drop (offset - start)).take length) := by
  induction map generalizing start with
  | nil => exact absurd rfl hne
  | cons entry map ih =>
    have hcontinuous := hmap
    obtain ⟨rfl, hmap⟩ := hmap
    have hcount : upperBound (entry :: map) offset = upperBound map offset + 1 := by
      simp [upperBound, hstart]
    refine ⟨by omega, ?_⟩
    rw [hcount, Nat.add_sub_cancel]
    by_cases hzero : upperBound map offset = 0
    · rw [hzero, drop_zero]
      rcases Nat.lt_or_ge entry.endOffset offset with hpast | hinside
      · -- there is no entry behind this one
        have hnil : map = [] := by
          cases map with
          | nil => rfl
          | cons next map =>
            have hle : next.offset ≤ offset := by rw [hmap.1]; exact hpast.le
            simp [upperBound, hle] at hzero
        rw [readEntries_past hpast, hnil, drop_eq_nil_of_le, take_nil]
        rw [endOffset_eq] at hpast
        simp
        omega
      · apply readEntries_eq hcontinuous hstart
        intro first hfirst
        cases hfirst
        exact hinside
    · have hmapne : map ≠ [] := by
        rintro rfl
        exact hzero rfl
      obtain ⟨next, map, rfl⟩ := exists_cons_of_ne_nil hmapne
      have hnext : entry.endOffset ≤ offset := by
        by_contra hlt
        have hgt : ¬next.offset ≤ offset := by rw [hmap.1]; exact hlt
        exact hzero (by simp [upperBound, hgt])
      obtain ⟨hpos, hread⟩ := ih hmap hmapne hnext
      have hdrop : (entry :: next :: map).drop (upperBound (next :: map) offset) =
          (next :: map).drop (upperBound (next :: map) offset - 1) := by
        conv_lhs => rw [← Nat.sub_add_cancel hpos]
        rfl
      rw [endOffset_eq] at hnext
      rw [hdrop, hread, joined_cons entry, drop_append, endOffset_eq]
      have hall : entry.file.contents.drop (offset - entry.offset) = [] := drop_eq_nil_of_le (by omega)
      rw [hall, nil_append]
      congr 3
      omega

/-- **A continuous map is read as its files one behind the other.** -/
theorem read_continuous (hmap : Continuous 0 map) :
    read map length offset = some (((joined map).drop offset).take length) := by
  rw [read]
  by_cases hne : map = []
  · rw [if_pos hne, hne]
    simp
  · rw [if_neg hne]
    obtain ⟨hpos, hread⟩ := readEntries_upperBound hmap hne (Nat.zero_le offset)
    rw [if_neg hpos.ne', hread, Nat.sub_zero]

/-! ### The parts -/

/-- The parts are sorted and do not overlap. -/
def Separate (parts : List ConcatenationEntry) : Prop := parts.Pairwise fun first second => first.endOffset ≤ second.offset

instance (parts : List ConcatenationEntry) : Decidable (Separate parts) := inferInstanceAs (Decidable (List.Pairwise _ _))

def ConcatenationEntry.Covers (part : ConcatenationEntry) (position : ℕ) : Prop :=
  part.offset ≤ position ∧ position < part.endOffset

instance (part : ConcatenationEntry) (position : ℕ) : Decidable (part.Covers position) := inferInstanceAs (Decidable (_ ∧ _))

/-- The byte of the part that covers the position, or the filler. -/
def byteAt (fillerByte : UInt8) (parts : List ConcatenationEntry) (position : ℕ) : UInt8 :=
  match parts.find? (·.Covers position) with
  | some part => part.file.contents.getD (position - part.offset) fillerByte
  | none => fillerByte

/-- The end of the last part. -/
def partsSize (parts : List ConcatenationEntry) : ℕ := getSize parts

/-- Every read gives the bytes of the parts with the filler in the gaps, as many as there are up to the end. -/
structure ReadsParts (fillerByte : UInt8) (parts : List ConcatenationEntry) (made : Readable) : Prop where
  size : made.getSize = partsSize parts
  read : ∀ length offset, ∃ bytes, made.read length offset = some bytes ∧
    bytes.length = min length (partsSize parts - offset) ∧
      ∀ i (h : i < bytes.length), bytes[i] = byteAt fillerByte parts (offset + i)

/-- The file reads nothing past its end. -/
def ReadsNothingPastEnd (file : VfsFile) : Prop := ∀ length offset, file.getSize < offset → file.read length offset = some []

variable {position lastOffset : ℕ}

theorem byteAt_of_covers (h : part.Covers position) :
    byteAt fillerByte (part :: parts) position = part.file.contents.getD (position - part.offset) fillerByte := by
  simp [byteAt, h]

theorem byteAt_of_not_covers (h : ¬part.Covers position) :
    byteAt fillerByte (part :: parts) position = byteAt fillerByte parts position := by
  simp [byteAt, h]

theorem byteAt_before (h : ∀ part ∈ parts, position < part.offset) :
    byteAt fillerByte parts position = fillerByte := by
  have hnone : parts.find? (·.Covers position) = none := by
    rw [find?_eq_none]
    intro part hpart
    have hlt := h part hpart
    have hcovers : ¬part.Covers position := fun hcovers => Nat.not_lt_of_le hcovers.1 hlt
    simpa using hcovers
  simp [byteAt, hnone]

/-- The filler and the part behind an offset. -/
theorem concatenationMap_cons (fillerByte : UInt8) (lastOffset : ℕ) (part : ConcatenationEntry) (parts : ConcatenationMap) :
    joined (concatenationMap fillerByte lastOffset (part :: parts)) =
      List.replicate (part.offset - lastOffset) fillerByte ++
        (part.file.contents ++ joined (concatenationMap fillerByte part.endOffset parts)) := by
  rw [concatenationMap]
  split
  · rfl
  · next hle => rw [Nat.sub_eq_zero_of_le (Nat.le_of_not_lt hle)]; rfl

theorem continuous_concatenationMap (hparts : Separate parts) (hlast : ∀ part ∈ parts, lastOffset ≤ part.offset) :
    Continuous lastOffset (concatenationMap fillerByte lastOffset parts) := by
  induction parts generalizing lastOffset with
  | nil => trivial
  | cons part parts ih =>
    obtain ⟨hpart, hparts⟩ := pairwise_cons.mp hparts
    have hrest := ih hparts hpart
    have hle := hlast part mem_cons_self
    rw [concatenationMap]
    split
    · next hlt =>
      refine ⟨rfl, ?_, hrest⟩
      rw [endOffset_eq, VfsFile.contents_staticVfsFile, length_replicate]
      exact (Nat.add_sub_cancel' hle).symm
    · exact ⟨by omega, hrest⟩

/-- The joined files of the map are the parts and the fillers. -/
theorem joined_concatenationMap (hparts : Separate parts) (hlast : ∀ part ∈ parts, lastOffset ≤ part.offset) (k : ℕ)
    (hk : k < (joined (concatenationMap fillerByte lastOffset parts)).length) :
    (joined (concatenationMap fillerByte lastOffset parts))[k] = byteAt fillerByte parts (lastOffset + k) := by
  induction parts generalizing lastOffset k with
  | nil => exact absurd hk (Nat.not_lt_zero k)
  | cons part parts ih =>
    obtain ⟨hpart, hparts⟩ := pairwise_cons.mp hparts
    have hle := hlast part mem_cons_self
    have hend := endOffset_eq part
    simp only [concatenationMap_cons] at hk ⊢
    rcases Nat.lt_or_ge k (part.offset - lastOffset) with hgap | hafter
    · rw [getElem_append_left (by rwa [length_replicate]), getElem_replicate, byteAt_before]
      intro other hother
      rcases mem_cons.mp hother with rfl | hother
      · omega
      · have hbehind := hpart other hother
        omega
    · rw [getElem_append_right (by rwa [length_replicate])]
      simp only [length_replicate]
      rcases Nat.lt_or_ge (k - (part.offset - lastOffset)) part.file.contents.length with hin | hout
      · have hcovers : part.Covers (lastOffset + k) := ⟨by omega, by omega⟩
        rw [getElem_append_left hin, byteAt_of_covers hcovers, getD_eq_getElem _ _ (by omega)]
        congr 1
        omega
      · have hcovers : ¬part.Covers (lastOffset + k) := fun h => by
          have hlt := h.2
          omega
        rw [getElem_append_right hout, ih hparts hpart, byteAt_of_not_covers hcovers]
        congr 1
        omega

theorem getLast?_concatenationMap (lastOffset : ℕ) :
    (concatenationMap fillerByte lastOffset parts).getLast? = parts.getLast? := by
  induction parts generalizing lastOffset with
  | nil => rfl
  | cons part parts ih =>
    rw [concatenationMap, getLast?_append, getLast?_cons, getLast?_cons, ih]
    rfl

theorem length_joined_concatenationMap (hparts : Separate parts) :
    (joined (concatenationMap fillerByte 0 parts)).length = partsSize parts := by
  have hcontinuous : Continuous 0 (concatenationMap fillerByte 0 parts) :=
    continuous_concatenationMap hparts fun part _ => Nat.zero_le part.offset
  have hsame : (concatenationMap fillerByte 0 parts).getLast? = parts.getLast? := getLast?_concatenationMap 0
  rw [partsSize, getSize]
  cases hlast : parts.getLast? with
  | none =>
    rw [getLast?_eq_none_iff.mp hlast]
    rfl
  | some entry =>
    rw [← hsame] at hlast
    have hlength := length_joined_eq hcontinuous entry hlast
    rwa [Nat.zero_add] at hlength

/-- **A map of separate parts reads the parts.** -/
theorem concatenationMap_reads (hparts : Separate parts) :
    ReadsParts fillerByte parts ⟨getSize (concatenationMap fillerByte 0 parts), read (concatenationMap fillerByte 0 parts)⟩ where
  size := by
    rw [partsSize, getSize, getSize, getLast?_concatenationMap]
  read length offset := by
    have hlast : ∀ part ∈ parts, 0 ≤ part.offset := fun part _ => Nat.zero_le part.offset
    refine ⟨_, read_continuous (continuous_concatenationMap hparts hlast), ?_, ?_⟩
    · rw [length_take, length_drop, length_joined_concatenationMap hparts]
    · intro i h
      rw [getElem_take, getElem_drop, joined_concatenationMap hparts hlast, Nat.zero_add]

/-- A single part, which is read by itself, reads as it should if it is at the start and reads nothing past its end. -/
theorem single_reads_iff :
    ReadsParts fillerByte [part] ⟨part.file.getSize, part.file.read⟩ ↔ part.offset = 0 ∧ ReadsNothingPastEnd part.file := by
  have hsize : partsSize [part] = part.offset + part.file.contents.length := rfl
  constructor
  · intro h
    have hoffset : part.offset = 0 := by
      have heq : part.file.contents.length = part.offset + part.file.contents.length := h.size
      omega
    refine ⟨hoffset, ?_⟩
    intro length offset hpast
    obtain ⟨bytes, hread, hlength, -⟩ := h.read length offset
    have hpast' : part.file.contents.length < offset := hpast
    have hnil : bytes = [] := eq_nil_of_length_eq_zero (by omega)
    rw [← hnil]
    exact hread
  · rintro ⟨hoffset, hpast⟩
    refine ⟨by rw [hsize, hoffset, Nat.zero_add]; rfl, ?_⟩
    intro length offset
    rcases Nat.lt_or_ge part.file.contents.length offset with hlt | hle
    · refine ⟨[], hpast length offset hlt, ?_, ?_⟩
      · rw [hsize]
        simp
        omega
      · exact fun i h => absurd h (Nat.not_lt_zero i)
    · refine ⟨_, part.file.read_eq length offset hle, ?_, ?_⟩
      · rw [length_take, length_drop, hsize, hoffset, Nat.zero_add]
      · intro i h
        rw [length_take, length_drop] at h
        have hcovers : part.Covers (offset + i) := by
          refine ⟨by omega, ?_⟩
          rw [endOffset_eq]
          omega
        rw [byteAt_of_covers hcovers, getElem_take, getElem_drop, getD_eq_getElem _ _ (by omega)]
        congr 1
        omega

/-- **A concatenated file reads its parts if and only if it is not a single part with a gap in front or one that does not answer
past its end.** -/
theorem makeConcatenatedFile_reads_iff (fillerByte : UInt8) (hparts : Separate parts) :
    (∀ made, makeConcatenatedFile fillerByte parts = some made → ReadsParts fillerByte parts made) ↔
      ∀ part, parts = [part] → part.offset = 0 ∧ ReadsNothingPastEnd part.file := by
  match parts with
  | [] =>
    constructor
    · intro _ part hpart
      cases hpart
    · intro _ made hmade
      cases hmade
  | [single] =>
    constructor
    · intro h part hpart
      cases hpart
      exact single_reads_iff.mp (h _ rfl)
    · intro h made hmade
      cases hmade
      exact single_reads_iff.mpr (h single rfl)
  | first :: second :: parts =>
    constructor
    · intro _ part hpart
      cases hpart
    · intro _ made hmade
      cases hmade
      exact concatenationMap_reads hparts

/-- A gap in front, an empty part, and two parts behind one another. -/
def gapInFront : List ConcatenationEntry :=
  [⟨2, .vectorVfsFile [1, 2]⟩, ⟨4, .vectorVfsFile []⟩, ⟨4, .vectorVfsFile [3]⟩, ⟨7, .vectorVfsFile [4]⟩]

theorem makeConcatenatedFile_reads_gapInFront :
    ∃ made, makeConcatenatedFile 0 gapInFront = some made ∧ ReadsParts 0 gapInFront made :=
  ⟨_, rfl, (makeConcatenatedFile_reads_iff 0 (by decide)).mpr (fun part hpart => by cases hpart) _ rfl⟩

example : (makeConcatenatedFile 0 gapInFront).bind (·.read 7 1) = some [0, 1, 2, 3, 0, 0, 4] := by decide

/-- A single part with a gap in front. -/
def singleBehindGap : List ConcatenationEntry := [⟨2, .boundedFile [1, 2]⟩]

/-- The gap in front of a single part is lost. -/
theorem makeConcatenatedFile_singleBehindGap :
    Separate singleBehindGap ∧ ∃ made, makeConcatenatedFile 0 singleBehindGap = some made ∧
      made.read 4 0 = some [1, 2] ∧ ¬ReadsParts 0 singleBehindGap made := by
  refine ⟨by decide, _, rfl, rfl, fun h => ?_⟩
  have hsize := h.size
  revert hsize
  decide

end ConcatenatedVfsFile
end FileSys
end Citron
