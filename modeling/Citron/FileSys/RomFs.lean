/-
# Reading RomFS images

`ExtractRomFS`: the header says where the tables of directories and files are, and the traversal follows the offsets in their
entries, to a sibling, a first subdirectory and a first file. An entry that is not inside its table is all zeros. The traversal
takes fuel; one that has no end never gives anything.
-/
import Mathlib
import Citron.FileSys.VfsFile
import Citron.Lib.Records
import Citron.Lib.Links

namespace Citron
namespace FileSys
namespace RomFs

open Lib

abbrev U32 := BitVec 32

/-- `ROMFS_ENTRY_EMPTY` -/
def romfsEntryEmpty : U32 := 0xFFFFFFFF

structure TableLocation where
  offset : ℕ
  size : ℕ
  deriving DecidableEq

structure RomFSHeader where
  headerSize : ℕ
  directoryHash : TableLocation
  directoryMeta : TableLocation
  fileHash : TableLocation
  fileMeta : TableLocation
  dataOffset : ℕ
  deriving DecidableEq

/-- The bytes of a header. -/
def headerBytes : ℕ := 0x50

def RomFSHeader.ofBytes (bytes : List UInt8) : RomFSHeader :=
  match unpackFields (List.replicate 10 8) bytes with
  | [size, o₁, s₁, o₂, s₂, o₃, s₃, o₄, s₄, data] => ⟨size, ⟨o₁, s₁⟩, ⟨o₂, s₂⟩, ⟨o₃, s₃⟩, ⟨o₄, s₄⟩, data⟩
  | _ => ⟨0, ⟨0, 0⟩, ⟨0, 0⟩, ⟨0, 0⟩, ⟨0, 0⟩, 0⟩

structure RomFSDirectoryEntry where
  parent : U32
  sibling : U32
  childDir : U32
  childFile : U32
  hash : U32
  nameLength : ℕ

structure RomFSFileEntry where
  parent : U32
  sibling : U32
  offset : ℕ
  size : ℕ
  hash : U32
  nameLength : ℕ

/-- The words of an entry of zeros have the value 0. -/
def field (fields : List ℕ) (i : ℕ) : ℕ := fields.getD i 0

def wordField (fields : List ℕ) (i : ℕ) : U32 := BitVec.ofNat 32 (field fields i)

def RomFSDirectoryEntry.ofFields (fields : List ℕ) : RomFSDirectoryEntry :=
  ⟨wordField fields 0, wordField fields 1, wordField fields 2, wordField fields 3, wordField fields 4, field fields 5⟩

def RomFSFileEntry.ofFields (fields : List ℕ) : RomFSFileEntry :=
  ⟨wordField fields 0, wordField fields 1, field fields 2, field fields 3, wordField fields 4, field fields 5⟩

def directoryWidths : List ℕ := [4, 4, 4, 4, 4, 4]

def fileWidths : List ℕ := [4, 4, 8, 8, 4, 4]

structure RomFSTraversalContext where
  header : RomFSHeader
  directoryMeta : List UInt8
  fileMeta : List UInt8
  deriving DecidableEq

/-- `GetEntry`: the fields of an entry and its name, cut at the end of the table. The name's length is the last field. -/
def getEntry (widths : List ℕ) (table : List UInt8) (offset : ℕ) : List ℕ × List UInt8 :=
  let entryEnd := offset + widths.sum
  if table.length < entryEnd then ([], [])
  else
    let fields := unpackFields widths (table.drop offset)
    let nameLength := min (entryEnd + field fields 5) table.length - entryEnd
    (fields, (table.drop entryEnd).take nameLength)

def getDirectoryEntry (ctx : RomFSTraversalContext) (offset : U32) : RomFSDirectoryEntry × List UInt8 :=
  let (fields, name) := getEntry directoryWidths ctx.directoryMeta offset.toNat
  (.ofFields fields, name)

def getFileEntry (ctx : RomFSTraversalContext) (offset : U32) : RomFSFileEntry × List UInt8 :=
  let (fields, name) := getEntry fileWidths ctx.fileMeta offset.toNat
  (.ofFields fields, name)

/-! ### The traversal -/

/-- `OffsetVfsFile` -/
structure OffsetFile where
  size : ℕ
  offset : ℕ
  name : List UInt8

inductive VectorDirectory
  | mk (name : List UInt8) (files : List OffsetFile) (subdirectories : List VectorDirectory)

def VectorDirectory.name : VectorDirectory → List UInt8
  | mk name _ _ => name

/-- The files that are added to the parent. -/
def processFile (ctx : RomFSTraversalContext) : ℕ → U32 → Option (List OffsetFile)
  | 0, _ => none
  | fuel + 1, thisFileOffset =>
    if thisFileOffset = romfsEntryEmpty then some []
    else do
      let (entry, name) := getFileEntry ctx thisFileOffset
      let files ← processFile ctx fuel entry.sibling
      return ⟨entry.size, entry.offset + ctx.header.dataOffset, name⟩ :: files

/-- The directories that are added to the parent. -/
def processDirectory (ctx : RomFSTraversalContext) : ℕ → U32 → Option (List VectorDirectory)
  | 0, _ => none
  | fuel + 1, thisDirOffset =>
    if thisDirOffset = romfsEntryEmpty then some []
    else do
      let (entry, name) := getDirectoryEntry ctx thisDirOffset
      let files ← (if entry.childFile ≠ romfsEntryEmpty then processFile ctx fuel entry.childFile else some [])
      let subdirectories ← (if entry.childDir ≠ romfsEntryEmpty then processDirectory ctx fuel entry.childDir else some [])
      let directories ← processDirectory ctx fuel entry.sibling
      return .mk name files subdirectories :: directories

/-- What is read of the file; where the file does not answer, nothing is. -/
def readBytes (file : VfsFile) (size offset : ℕ) : List UInt8 := (file.read size offset).getD []

/-- The tables of a file whose header is accepted. -/
def traversalContext (file : VfsFile) : Option RomFSTraversalContext :=
  let bytes := readBytes file headerBytes 0
  let header := RomFSHeader.ofBytes bytes
  if bytes.length ≠ headerBytes then none
  else if header.headerSize ≠ headerBytes then none
  else some ⟨header, readBytes file header.directoryMeta.size header.directoryMeta.offset,
    readBytes file header.fileMeta.size header.fileMeta.offset⟩

/-- `some none` is `nullptr`. -/
def extractRomFS (fuel : ℕ) (file : VfsFile) : Option (Option VectorDirectory) :=
  match traversalContext file with
  | none => some none
  | some ctx => (processDirectory ctx fuel 0).map fun directories => directories.find? fun directory => directory.name == []

end RomFs

/-! ## Which traversals of a RomFS end

The entries of the two tables with their links make a graph of at most `2 ^ 33` nodes, and the traversal follows every link
of every entry that it reaches. It ends if and only if no entry that it reaches is reached from itself again: nothing in the
traversal bounds or checks the links.
-/

namespace RomFs

open Lib Relation

variable {ctx : RomFSTraversalContext} {fuel more : ℕ} {offset : U32}

/-- The entry of a directory or of a file, by its offset. -/
abbrev Entry : Type := U32 ⊕ U32

instance : Finite U32 := Finite.of_injective BitVec.toFin fun _ _ h => BitVec.eq_of_toFin_eq h

/-- The links that the traversal follows. -/
inductive Links (ctx : RomFSTraversalContext) : Entry → Entry → Prop
  | fileSibling (offset : U32) (h : (getFileEntry ctx offset).1.sibling ≠ romfsEntryEmpty) :
      Links ctx (.inr offset) (.inr (getFileEntry ctx offset).1.sibling)
  | childFile (offset : U32) (h : (getDirectoryEntry ctx offset).1.childFile ≠ romfsEntryEmpty) :
      Links ctx (.inl offset) (.inr (getDirectoryEntry ctx offset).1.childFile)
  | childDir (offset : U32) (h : (getDirectoryEntry ctx offset).1.childDir ≠ romfsEntryEmpty) :
      Links ctx (.inl offset) (.inl (getDirectoryEntry ctx offset).1.childDir)
  | sibling (offset : U32) (h : (getDirectoryEntry ctx offset).1.sibling ≠ romfsEntryEmpty) :
      Links ctx (.inl offset) (.inl (getDirectoryEntry ctx offset).1.sibling)

/-! ### Files -/

theorem processFile_empty : processFile ctx (fuel + 1) romfsEntryEmpty = some [] := by
  rw [processFile, if_pos rfl]

theorem processFile_isSome_succ (h : offset ≠ romfsEntryEmpty) :
    (processFile ctx (fuel + 1) offset).isSome = (processFile ctx fuel (getFileEntry ctx offset).1.sibling).isSome := by
  rw [processFile, if_neg h]
  cases hrest : processFile ctx fuel (getFileEntry ctx offset).1.sibling with
  | none => simp [hrest]
  | some files => simp [hrest]

theorem processFile_mono (h : (processFile ctx fuel offset).isSome) (hle : fuel ≤ more) : (processFile ctx more offset).isSome := by
  induction fuel generalizing more offset with
  | zero => cases h
  | succ fuel ih =>
    obtain ⟨more, rfl⟩ := Nat.exists_eq_add_of_le' (Nat.one_le_of_lt hle)
    by_cases hoffset : offset = romfsEntryEmpty
    · rw [hoffset, processFile_empty]
      rfl
    · rw [processFile_isSome_succ hoffset] at h ⊢
      exact ih h (Nat.le_of_succ_le_succ hle)

/-! ### Directories -/

theorem processDirectory_empty : processDirectory ctx (fuel + 1) romfsEntryEmpty = some [] := by
  rw [processDirectory, if_pos rfl]

/-- A child is processed if there is one. -/
theorem ite_isSome {α : Type} {child : U32} {processed : Option (List α)} :
    (if child ≠ romfsEntryEmpty then processed else some []).isSome ↔ (child ≠ romfsEntryEmpty → processed.isSome) := by
  by_cases h : child ≠ romfsEntryEmpty
  · rw [if_pos h]
    exact ⟨fun hsome _ => hsome, fun hsome => hsome h⟩
  · rw [if_neg h]
    exact ⟨fun _ hchild => absurd hchild h, fun _ => rfl⟩

theorem isSome_do {α β γ δ : Type} (a : Option α) (b : Option β) (c : Option γ) (f : α → β → γ → δ) :
    (do
      let x ← a
      let y ← b
      let z ← c
      return f x y z).isSome ↔ a.isSome ∧ b.isSome ∧ c.isSome := by
  cases a <;> cases b <;> cases c <;> simp

theorem processDirectory_isSome_succ (h : offset ≠ romfsEntryEmpty) :
    (processDirectory ctx (fuel + 1) offset).isSome ↔
      ((getDirectoryEntry ctx offset).1.childFile ≠ romfsEntryEmpty →
        (processFile ctx fuel (getDirectoryEntry ctx offset).1.childFile).isSome) ∧
      ((getDirectoryEntry ctx offset).1.childDir ≠ romfsEntryEmpty →
        (processDirectory ctx fuel (getDirectoryEntry ctx offset).1.childDir).isSome) ∧
      (processDirectory ctx fuel (getDirectoryEntry ctx offset).1.sibling).isSome := by
  rw [processDirectory, if_neg h, ← ite_isSome, ← ite_isSome]
  exact isSome_do _ _ _ _

theorem processDirectory_mono (h : (processDirectory ctx fuel offset).isSome) (hle : fuel ≤ more) :
    (processDirectory ctx more offset).isSome := by
  induction fuel generalizing more offset with
  | zero => cases h
  | succ fuel ih =>
    obtain ⟨more, rfl⟩ := Nat.exists_eq_add_of_le' (Nat.one_le_of_lt hle)
    have hle' := Nat.le_of_succ_le_succ hle
    by_cases hoffset : offset = romfsEntryEmpty
    · rw [hoffset, processDirectory_empty]
      rfl
    · rw [processDirectory_isSome_succ hoffset] at h ⊢
      obtain ⟨hfiles, hdirs, hsiblings⟩ := h
      exact ⟨fun hchild => processFile_mono (hfiles hchild) hle', fun hchild => ih (hdirs hchild) hle', ih hsiblings hle'⟩

/-! ### The traversal -/

/-- The traversal from an entry ends. -/
def Ends (ctx : RomFSTraversalContext) : Entry → Prop
  | .inl offset => ∃ fuel, (processDirectory ctx fuel offset).isSome
  | .inr offset => ∃ fuel, (processFile ctx fuel offset).isSome

/-- The offset is one of an entry. -/
def Present : Entry → Prop
  | .inl offset => offset ≠ romfsEntryEmpty
  | .inr offset => offset ≠ romfsEntryEmpty

theorem acc_of_processFile (h : (processFile ctx fuel offset).isSome) (hoffset : offset ≠ romfsEntryEmpty) :
    Acc (flip (Links ctx)) (.inr offset) := by
  induction fuel generalizing offset with
  | zero => cases h
  | succ fuel ih =>
    rw [processFile_isSome_succ hoffset] at h
    constructor
    intro next hlink
    cases hlink with
    | fileSibling _ hsibling => exact ih h hsibling

theorem acc_of_processDirectory (h : (processDirectory ctx fuel offset).isSome) (hoffset : offset ≠ romfsEntryEmpty) :
    Acc (flip (Links ctx)) (.inl offset) := by
  induction fuel generalizing offset with
  | zero => cases h
  | succ fuel ih =>
    rw [processDirectory_isSome_succ hoffset] at h
    obtain ⟨hfiles, hdirs, hsiblings⟩ := h
    constructor
    intro next hlink
    cases hlink with
    | childFile _ hchild => exact acc_of_processFile (hfiles hchild) hchild
    | childDir _ hchild => exact ih (hdirs hchild) hchild
    | sibling _ hsibling => exact ih hsiblings hsibling

/-- Processing an offset ends if it is empty, or if it is known to end. -/
theorem exists_processFile (h : offset ≠ romfsEntryEmpty → Ends ctx (.inr offset)) :
    ∃ fuel, (processFile ctx fuel offset).isSome := by
  by_cases hoffset : offset = romfsEntryEmpty
  · refine ⟨1, ?_⟩
    rw [hoffset, processFile_empty]
    rfl
  · exact h hoffset

theorem exists_processDirectory (h : offset ≠ romfsEntryEmpty → Ends ctx (.inl offset)) :
    ∃ fuel, (processDirectory ctx fuel offset).isSome := by
  by_cases hoffset : offset = romfsEntryEmpty
  · refine ⟨1, ?_⟩
    rw [hoffset, processDirectory_empty]
    rfl
  · exact h hoffset

theorem ends_of_acc {entry : Entry} (h : Acc (flip (Links ctx)) entry) (hpresent : Present entry) : Ends ctx entry := by
  induction h with
  | intro entry _ ih =>
    cases entry with
    | inr offset =>
      obtain ⟨fuel, hfuel⟩ := exists_processFile fun hsibling => ih _ (.fileSibling offset hsibling) hsibling
      refine ⟨fuel + 1, ?_⟩
      rwa [processFile_isSome_succ hpresent]
    | inl offset =>
      obtain ⟨files, hfiles⟩ := exists_processFile fun hchild => ih _ (.childFile offset hchild) hchild
      obtain ⟨dirs, hdirs⟩ := exists_processDirectory fun hchild => ih _ (.childDir offset hchild) hchild
      obtain ⟨siblings, hsiblings⟩ := exists_processDirectory fun hsibling => ih _ (.sibling offset hsibling) hsibling
      refine ⟨max files (max dirs siblings) + 1, ?_⟩
      rw [processDirectory_isSome_succ hpresent]
      refine ⟨fun _ => processFile_mono hfiles ?_, fun _ => processDirectory_mono hdirs ?_, processDirectory_mono hsiblings ?_⟩
      · exact le_max_left _ _
      · exact (le_max_left _ _).trans (le_max_right _ _)
      · exact (le_max_right _ _).trans (le_max_right _ _)

/-- **Processing the directories ends if and only if their links are acyclic.** -/
theorem processDirectory_ends_iff (ctx : RomFSTraversalContext) :
    (∃ fuel, (processDirectory ctx fuel 0).isSome) ↔ Acyclic (Links ctx) (.inl 0) := by
  have hpresent : (0 : U32) ≠ romfsEntryEmpty := by decide
  rw [← acc_iff_acyclic]
  constructor
  · rintro ⟨fuel, hfuel⟩
    exact acc_of_processDirectory hfuel hpresent
  · intro hacc
    exact ends_of_acc hacc hpresent

/-- The extraction gives a directory or `nullptr`. -/
def Terminates (file : VfsFile) : Prop := ∃ fuel, (extractRomFS fuel file).isSome

/-- **The extraction ends if and only if the header is refused or no entry that is reached from directory 0 is reached from
itself again.** -/
theorem extractRomFS_terminates_iff (file : VfsFile) :
    Terminates file ↔ ∀ ctx, traversalContext file = some ctx → Acyclic (Links ctx) (.inl 0) := by
  unfold Terminates extractRomFS
  cases traversalContext file with
  | none =>
    constructor
    · intro _ ctx hctx
      cases hctx
    · exact fun _ => ⟨0, rfl⟩
  | some ctx =>
    simp only [Option.isSome_map, processDirectory_ends_iff, Option.some.injEq, forall_eq']

/-- A header with empty tables and nothing behind it. -/
def emptyTables : VfsFile := .boundedFile (0x50 :: List.replicate 0x4F 0)

/-- The tables of `emptyTables`. -/
def noTables : RomFSTraversalContext := ⟨⟨0x50, ⟨0, 0⟩, ⟨0, 0⟩, ⟨0, 0⟩, ⟨0, 0⟩, 0⟩, [], []⟩

/-- File 0 is its own sibling. -/
theorem noTables_processFile (fuel : ℕ) : (processFile noTables fuel 0).isSome = false := by
  induction fuel with
  | zero => rfl
  | succ fuel ih =>
    rw [processFile_isSome_succ (by decide)]
    exact ih

/-- Without tables every entry is zeros, so the first file of directory 0 is file 0. -/
theorem emptyTables_not_terminates : ¬Terminates emptyTables := by
  rintro ⟨fuel, hfuel⟩
  have hctx : traversalContext emptyTables = some noTables := by decide +kernel
  unfold extractRomFS at hfuel
  rw [hctx, Option.isSome_map] at hfuel
  cases fuel with
  | zero => cases hfuel
  | succ fuel =>
    rw [processDirectory_isSome_succ (by decide)] at hfuel
    have hfile := hfuel.1 (by decide)
    have hnone : (processFile noTables fuel (getDirectoryEntry noTables 0).1.childFile).isSome = false :=
      noTables_processFile fuel
    rw [hnone] at hfile
    cases hfile

end RomFs
end FileSys
end Citron
