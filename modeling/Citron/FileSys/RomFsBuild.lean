/-
# Building RomFS tables

`RomFSBuildContext` (fsmitm_romfsbuild.cpp): the visit of a tree makes a context for each of its directories and files, and
`Build` sorts them, gives every one the offset of its entry, and writes the entries into a table of directories and a table
of files, each with a hash table in front: an entry goes in front of the chain of its bucket. Contexts refer to each other
by number, a directory's in the order of the visit and a file's in the sorted order. A path is the list of its bytes.
-/
import Citron.Common.Alignment
import Citron.FileSys.RomFs

namespace Citron
namespace FileSys
namespace RomFsBuild

open Common Lib RomFs

/-! ### Trees -/

inductive VfsDirectory
  | mk (name : List UInt8) (files : List (List UInt8 × VfsFile)) (subdirectories : List VfsDirectory)

namespace VfsDirectory

def name : VfsDirectory → List UInt8
  | mk name _ _ => name

def getFile (dir : VfsDirectory) (name : List UInt8) : Option VfsFile :=
  match dir with
  | mk _ files _ => (files.find? fun file => file.1 = name).map Prod.snd

def getSubdirectory (dir : VfsDirectory) (name : List UInt8) : Option VfsDirectory :=
  match dir with
  | mk _ _ subdirectories => subdirectories.find? fun subdirectory => subdirectory.name = name

end VfsDirectory

/-! ### Contexts -/

structure RomFSBuildDirectoryContext where
  path : List UInt8
  curPathOfs : ℕ
  pathLen : ℕ
  parent : ℕ

structure RomFSBuildFileContext where
  path : List UInt8
  curPathOfs : ℕ
  pathLen : ℕ
  size : ℕ
  parent : ℕ

/-- `FS_MAX_PATH` -/
def fsMaxPath : ℕ := 0x301

/-- `path_len - cur_path_ofs`, a `u32`. -/
def nameSize (curPathOfs pathLen : ℕ) : ℕ := (pathLen + 2 ^ 32 - curPathOfs) % 2 ^ 32

/-- `Common::AlignUp(name_size, 4)`, a `u32`. -/
def alignedNameSize (nameSize : ℕ) : ℕ := alignUp nameSize 4 % 2 ^ 32

namespace RomFSBuildDirectoryContext

def root : RomFSBuildDirectoryContext := ⟨[], 0, 0, 0⟩

variable (dir : RomFSBuildDirectoryContext)

/-- "Set child's path." -/
def childPath (name : List UInt8) : List UInt8 := dir.path ++ 0x2F :: name

def childPathOfs : ℕ := (dir.pathLen + 1) % 2 ^ 32

def childPathLen (name : List UInt8) : ℕ := (dir.childPathOfs + name.length % 2 ^ 32) % 2 ^ 32

def child (number : ℕ) (name : List UInt8) : RomFSBuildDirectoryContext :=
  ⟨dir.childPath name, dir.childPathOfs, dir.childPathLen name, number⟩

def childFile (number : ℕ) (name : List UInt8) (source : VfsFile) : RomFSBuildFileContext :=
  ⟨dir.childPath name, dir.childPathOfs, dir.childPathLen name, source.getSize, number⟩

/-- What `AddDirectory` adds to the size of the table. -/
def entrySize : ℕ := directoryWidths.sum + alignedNameSize (nameSize dir.curPathOfs dir.pathLen)

end RomFSBuildDirectoryContext

def RomFSBuildFileContext.entrySize (file : RomFSBuildFileContext) : ℕ :=
  fileWidths.sum + alignedNameSize (nameSize file.curPathOfs file.pathLen)

structure RomFSBuildContext where
  directories : List RomFSBuildDirectoryContext
  files : List RomFSBuildFileContext

namespace RomFSBuildContext

variable (c : RomFSBuildContext)

def dirTableSize : ℕ := (c.directories.map RomFSBuildDirectoryContext.entrySize).sum

def fileTableSize : ℕ := (c.files.map RomFSBuildFileContext.entrySize).sum

end RomFSBuildContext

/-! ### The visit -/

section Visit

variable (patchIPS : VfsFile → VfsFile → Option VfsFile)

/-- The extension directory has a stub for a name. -/
def isStub (ext : Option VfsDirectory) (name : List UInt8) : Bool :=
  ext.any fun ext => (ext.getFile (name ++ ".stub".toUTF8.toList)).isSome

/-- The source of a file: patched, if the extension directory has a patch that can be applied. -/
def patchedSource (ext : Option VfsDirectory) (name : List UInt8) (source : VfsFile) : VfsFile :=
  match ext.bind fun ext => ext.getFile (name ++ ".ips".toUTF8.toList) with
  | some ips => (patchIPS source ips).getD source
  | none => source

/-- The loop over the files of a directory. -/
def visitFiles (files : List (List UInt8 × VfsFile)) (ext : Option VfsDirectory) (number : ℕ)
    (parent : RomFSBuildDirectoryContext) (c : RomFSBuildContext) : RomFSBuildContext :=
  { c with files := c.files ++ (files.filter fun file => !isStub ext file.1).map fun file =>
      parent.childFile number file.1 (patchedSource patchIPS ext file.1 file.2) }

mutual

/-- `VisitDirectory`, for a directory with its number and context. -/
def visitDirectory : VfsDirectory → Option VfsDirectory → ℕ → RomFSBuildDirectoryContext → RomFSBuildContext → RomFSBuildContext
  | .mk _ files subdirectories, ext, number, parent, c =>
    visitSubdirectories subdirectories ext number parent (visitFiles patchIPS files ext number parent c)

/-- The loop over the subdirectories. -/
def visitSubdirectories : List VfsDirectory → Option VfsDirectory → ℕ → RomFSBuildDirectoryContext → RomFSBuildContext →
    RomFSBuildContext
  | [], _, _, _, c => c
  | dir :: dirs, ext, number, parent, c =>
    if isStub ext dir.name then visitSubdirectories dirs ext number parent c
    else
      let child := parent.child number dir.name
      visitSubdirectories dirs ext number parent
        (visitDirectory dir (ext.bind fun ext => ext.getSubdirectory dir.name) c.directories.length child
          { c with directories := c.directories ++ [child] })

end

/-- The constructor of `RomFSBuildContext`. -/
def RomFSBuildContext.new (base : VfsDirectory) (ext : Option VfsDirectory) : RomFSBuildContext :=
  visitDirectory patchIPS base ext 0 .root ⟨[.root], []⟩

end Visit

/-! ### Sorting, offsets and links -/

/-- What `std::sort` can leave: the elements in the order of their keys, and those with one key in any order. -/
structure Sorts {α κ : Type} [LT κ] (key : α → κ) (l sorted : List α) : Prop where
  perm : sorted.Perm l
  sorted : sorted.Pairwise fun a b => ¬ key b < key a

/-- The directories with their numbers, and the files, "sorted by name". -/
structure SortedContext (c : RomFSBuildContext) where
  directories : List (RomFSBuildDirectoryContext × ℕ)
  files : List RomFSBuildFileContext
  directories_sorts : Sorts (fun dir : RomFSBuildDirectoryContext × ℕ => dir.1.path) c.directories.zipIdx directories
  files_sorts : Sorts RomFSBuildFileContext.path c.files files

/-- `entry_offset`, from entry to entry. -/
def entryOffsets : U32 → List ℕ → List U32
  | _, [] => []
  | offset, size :: sizes => offset :: entryOffsets (offset + BitVec.ofNat 32 size) sizes

/-- The offsets in the file partition, for the size that it has so far. -/
def partitionOffsets : ℕ → List ℕ → List ℕ
  | _, [] => []
  | size, fileSize :: sizes => alignUp size 16 :: partitionOffsets (alignUp size 16 + fileSize) sizes

/-- The first child of a parent, and the sibling of an item. -/
structure Siblings where
  first : ℕ → Option ℕ
  sibling : ℕ → Option ℕ

/-- "Assign deferred parent/sibling ownership", for items with their parents, from the last one on. -/
def assignSiblings (items : List (ℕ × ℕ)) : Siblings :=
  items.foldr (fun item l => ⟨Function.update l.first item.2 (some item.1), Function.update l.sibling item.1 (l.first item.2)⟩)
    ⟨fun _ => none, fun _ => none⟩

/-! ### The tables -/

/-- `romfs_calc_path_hash`. A `char` is signed, and the index is a `u32`. -/
def romfsCalcPathHash (parent : U32) (path : List UInt8) (start pathLen : ℕ) : U32 :=
  (List.range pathLen).foldl
    (fun hash i => ((hash >>> 5) ||| (hash <<< 27)) ^^^ (path.getD ((start + i) % 2 ^ 32) 0).toBitVec.signExtend 32)
    (parent ^^^ 123456789#32)

/-- Where the loop of `romfs_get_hash_table_count` ends. -/
def NoSmallFactor (count : ℕ) : Prop := ∀ p ∈ [2, 3, 5, 7, 11, 13, 17], count % p ≠ 0

instance : DecidablePred NoSmallFactor := fun count => by unfold NoSmallFactor; infer_instance

theorem exists_noSmallFactor (numEntries : ℕ) : ∃ count, numEntries ≤ count ∧ NoSmallFactor count := by
  refine ⟨510510 * numEntries + 1, by omega, fun p hp => ?_⟩
  fin_cases hp <;> omega

def romfsGetHashTableCount (numEntries : ℕ) : ℕ :=
  if numEntries < 3 then 3 else if numEntries < 19 then numEntries ||| 1 else Nat.find (exists_noSmallFactor numEntries)

/-- An entry that is to be written: its offset, what its hash is made of, and its fields behind the next entry of its
bucket. -/
structure Entry where
  entryOffset : U32
  parentOffset : U32
  path : List UInt8
  curPathOfs : ℕ
  nameSize : ℕ
  fields : U32 → List (ℕ × ℕ)

/-- The bytes of the path that are copied behind the entry. -/
def Entry.name (entry : Entry) : List UInt8 := (entry.path.drop entry.curPathOfs).take entry.nameSize

def Entry.hash (entry : Entry) : U32 := romfsCalcPathHash entry.parentOffset entry.path entry.curPathOfs entry.nameSize

/-- A `memcpy` into a table. -/
def copyInto (table : List UInt8) (offset : ℕ) (bytes : List UInt8) : List UInt8 :=
  table.take offset ++ bytes ++ table.drop (offset + bytes.length)

/-- A hash table and the table of its entries. -/
structure Tables where
  buckets : List U32
  table : List UInt8

namespace Tables

/-- "Initialize hash tables." -/
def initial (bucketCount tableSize : ℕ) : Tables := ⟨List.replicate bucketCount romfsEntryEmpty, List.replicate tableSize 0⟩

variable (t : Tables)

/-- The bucket of an entry. -/
def bucketOf (entry : Entry) : ℕ := entry.hash.toNat % t.buckets.length

/-- A turn of the loops that populate the tables: the entry gets what is in its bucket, and then is there itself. Zeros and
the name are written behind it. -/
def writeEntry (entry : Entry) : Tables :=
  let bucket := t.bucketOf entry
  let offset := entry.entryOffset.toNat
  let bytes := packFields (entry.fields (t.buckets.getD bucket 0))
  let table := copyInto t.table offset bytes
  let table := copyInto table (offset + bytes.length) (List.replicate (alignedNameSize entry.nameSize) 0)
  ⟨t.buckets.set bucket entry.entryOffset, copyInto table (offset + bytes.length) entry.name⟩

end Tables

namespace SortedContext

variable {c : RomFSBuildContext} (s : SortedContext c)

/-- "Determine directory offsets." -/
def dirEntryOffsets : List U32 := entryOffsets 0 (s.directories.map fun dir => dir.1.entrySize)

/-- "Determine file offsets." -/
def fileEntryOffsets : List U32 := entryOffsets 0 (s.files.map RomFSBuildFileContext.entrySize)

/-- The `entry_offset` of a directory. -/
def dirEntryOffset (number : ℕ) : U32 := (((s.directories.map Prod.snd).zip s.dirEntryOffsets).lookup number).getD 0

def fileEntryOffset (number : ℕ) : U32 := s.fileEntryOffsets.getD number 0

def filePartitionOffset (number : ℕ) : ℕ := (partitionOffsets 0 (s.files.map RomFSBuildFileContext.size)).getD number 0

def fileSiblings : Siblings := assignSiblings (s.files.zipIdx.map fun file => (file.2, file.1.parent))

/-- The loop over the directories, from the last one on, ends at the root. -/
def dirSiblings : Siblings :=
  assignSiblings (((s.directories.reverse.takeWhile fun dir => dir.2 ≠ 0).reverse).map fun dir => (dir.2, dir.1.parent))

/-- The offset of an item, if there is one. -/
def offsetOr (offsetOf : ℕ → U32) (item : Option ℕ) : U32 := (item.map offsetOf).getD romfsEntryEmpty

def fileEntry (file : (RomFSBuildFileContext × ℕ) × U32) : Entry where
  entryOffset := file.2
  parentOffset := s.dirEntryOffset file.1.1.parent
  path := file.1.1.path
  curPathOfs := file.1.1.curPathOfs
  nameSize := nameSize file.1.1.curPathOfs file.1.1.pathLen
  fields hash :=
    [(4, (s.dirEntryOffset file.1.1.parent).toNat), (4, (offsetOr s.fileEntryOffset (s.fileSiblings.sibling file.1.2)).toNat),
      (8, s.filePartitionOffset file.1.2 % 2 ^ 64), (8, file.1.1.size % 2 ^ 64), (4, hash.toNat),
      (4, nameSize file.1.1.curPathOfs file.1.1.pathLen)]

/-- The offset of the parent of a directory; the root has none. -/
def dirParentOffset (dir : RomFSBuildDirectoryContext × ℕ) : U32 := if dir.2 = 0 then 0 else s.dirEntryOffset dir.1.parent

def dirEntry (dir : (RomFSBuildDirectoryContext × ℕ) × U32) : Entry where
  entryOffset := dir.2
  parentOffset := s.dirParentOffset dir.1
  path := dir.1.1.path
  curPathOfs := dir.1.1.curPathOfs
  nameSize := nameSize dir.1.1.curPathOfs dir.1.1.pathLen
  fields hash :=
    [(4, (s.dirParentOffset dir.1).toNat), (4, (offsetOr s.dirEntryOffset (s.dirSiblings.sibling dir.1.2)).toNat),
      (4, (offsetOr s.dirEntryOffset (s.dirSiblings.first dir.1.2)).toNat),
      (4, (offsetOr s.fileEntryOffset (s.fileSiblings.first dir.1.2)).toNat), (4, hash.toNat),
      (4, nameSize dir.1.1.curPathOfs dir.1.1.pathLen)]

def fileEntries : List Entry := (s.files.zipIdx.zip s.fileEntryOffsets).map s.fileEntry

def dirEntries : List Entry := (s.directories.zip s.dirEntryOffsets).map s.dirEntry

/-- "Populate file tables." -/
def fileTables : Tables :=
  s.fileEntries.foldl Tables.writeEntry (.initial (romfsGetHashTableCount c.files.length) c.fileTableSize)

/-- "Populate dir tables." -/
def dirTables : Tables :=
  s.dirEntries.foldl Tables.writeEntry (.initial (romfsGetHashTableCount c.directories.length) c.dirTableSize)

end SortedContext

end RomFsBuild
end FileSys
end Citron
