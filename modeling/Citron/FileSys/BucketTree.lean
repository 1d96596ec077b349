/-
# Bucket trees

A bucket tree finds the entry of a table that an offset belongs to. The entries, in the order of their offsets, stand in entry
sets, and the first offsets of the entry sets in nodes: all of them in the first node if they fit, and otherwise in the nodes
behind it and in the slots that are left in the first one. A visitor stands on an entry and moves to the next one and back.
-/
import Citron.Lib.BinarySearch
import Citron.Lib.Records

namespace Citron
namespace FileSys

open Lib

/-! ### Storages -/

abbrev Bytes := ℕ → UInt8

/-- A signed number of so many bytes. -/
@[irreducible] def getInt (bytes : Bytes) (offset width : ℕ) : ℤ :=
  (BitVec.ofNat (8 * width) (ofBytes ((List.range width).map fun i => bytes (offset + i)))).toInt

/-- What a buffer has where a read stops at the end of the storage counts as bytes of the storage. -/
structure Storage where
  size : ℕ
  bytes : Bytes

/-- What `Read(buffer, size, offset)` leaves in a buffer of this size. -/
def Storage.read (storage : Storage) (size offset : ℕ) : Bytes :=
  fun i => if i < size then storage.bytes (offset + i) else 0

inductive FsResult
  | bufferAllocationFailed
  | invalidArgument
  | invalidBucketTreeEntryOffset
  | invalidBucketTreeEntrySetOffset
  | invalidBucketTreeNodeEntryCount
  | invalidBucketTreeNodeIndex
  | invalidBucketTreeNodeOffset
  | invalidBucketTreeVirtualOffset
  | invalidIndirectEntryOffset
  | invalidIndirectEntryStorageIndex
  | invalidIndirectStorageSize
  | indirectStorageCorrupted
  | invalidOffset
  | invalidSize
  | nullptrArgument
  | outOfRange
deriving DecidableEq, Repr

/-- `R_UNLESS(condition, result)` -/
def unlessThrow (condition : Bool) (result : FsResult) : Except FsResult Unit :=
  if condition then .ok () else .error result

theorem unlessThrow_bind {α : Type} {condition : Bool} {result : FsResult} {f : Unit → Except FsResult α}
    (h : condition = true) : (unlessThrow condition result >>= f) = f () := by
  rw [h]
  rfl

theorem ok_bind {α β : Type} (a : α) (f : α → Except FsResult β) : ((Except.ok a : Except FsResult α) >>= f) = f a := rfl

/-! ### Nodes and entry sets -/

structure NodeHeader where
  index : ℤ
  count : ℤ
  offset : ℤ

/-- `sizeof(NodeHeader)` -/
def nodeHeaderSize : ℕ := 16

def readNodeHeader (bytes : Bytes) (offset : ℕ) : NodeHeader where
  index := getInt bytes offset 4
  count := getInt bytes (offset + 4) 4
  offset := getInt bytes (offset + 8) 8

def NodeHeader.verify (header : NodeHeader) (nodeIndex : ℤ) (nodeSize entrySize : ℕ) : Except FsResult Unit := do
  unlessThrow (header.index = nodeIndex) .invalidBucketTreeNodeIndex
  unlessThrow (entrySize ≠ 0 ∧ entrySize + nodeHeaderSize ≤ nodeSize) .invalidSize
  let maxEntryCount := (nodeSize - nodeHeaderSize) / entrySize
  unlessThrow (0 < header.count ∧ header.count ≤ maxEntryCount) .invalidBucketTreeNodeEntryCount
  unlessThrow (0 ≤ header.offset) .invalidBucketTreeNodeOffset

/-- `EntrySetHeader::Info`, whose `start` is the offset of the first entry. -/
structure EntrySetInfo where
  index : ℤ
  count : ℤ
  endOffset : ℤ
  start : ℤ

def readEntrySetInfo (bytes : Bytes) (offset : ℕ) : EntrySetInfo where
  index := getInt bytes offset 4
  count := getInt bytes (offset + 4) 4
  endOffset := getInt bytes (offset + 8) 8
  start := getInt bytes (offset + 16) 8

def EntrySetInfo.header (info : EntrySetInfo) : NodeHeader := ⟨info.index, info.count, info.endOffset⟩

def getBucketTreeEntryOffset (entrySetOffset entrySize entryIndex : ℕ) : ℕ :=
  entrySetOffset + nodeHeaderSize + entryIndex * entrySize

/-- `StorageNode`, whose offsets are at a distance of `stride`. -/
structure StorageNode where
  start : ℕ
  stride : ℕ
  count : ℤ

/-- `StorageNode::Find` and `GetIndex`; the offsets are read from a buffer or from a storage. -/
def StorageNode.find (node : StorageNode) (bytes : Bytes) (virtualAddress : ℤ) : ℤ :=
  partitionPoint (fun mid => getInt bytes (node.start + mid * node.stride) 8 ≤ virtualAddress) 0 node.count.toNat - 1

/-! ### The tree -/

structure Offsets where
  startOffset : ℤ
  endOffset : ℤ
deriving DecidableEq

namespace Offsets

def isInclude (offsets : Offsets) (offset : ℤ) : Bool := offsets.startOffset ≤ offset ∧ offset < offsets.endOffset

/-- `IsInclude(offset, size)` -/
def isIncludeRange (offsets : Offsets) (offset size : ℤ) : Bool :=
  0 < size ∧ offsets.startOffset ≤ offset ∧ size ≤ offsets.endOffset - offset

end Offsets

def getEntryCount (nodeSize entrySize : ℕ) : ℕ := (nodeSize - nodeHeaderSize) / entrySize

def getOffsetCount (nodeSize : ℕ) : ℕ := (nodeSize - nodeHeaderSize) / 8

def getEntrySetCount (nodeSize entrySize entryCount : ℕ) : ℕ :=
  let entryCountPerNode := getEntryCount nodeSize entrySize
  (entryCount + entryCountPerNode - 1) / entryCountPerNode

structure BucketTree where
  nodeStorage : Storage
  entryStorage : Storage
  nodeL1 : Bytes
  nodeSize : ℕ
  entrySize : ℕ
  entryCount : ℕ
  offsetCount : ℕ
  entrySetCount : ℕ
  offsets : Offsets

namespace BucketTree

variable (t : BucketTree)

/-- The header of the first node. -/
def l1Header : NodeHeader := readNodeHeader t.nodeL1 0

/-- The offsets of the first node, and the slots behind them. -/
def l1Offset (i : ℕ) : ℤ := getInt t.nodeL1 (nodeHeaderSize + i * 8) 8

def isEmpty : Bool := t.entrySize = 0

def isExistL2 : Bool := t.offsetCount < t.entrySetCount

def isExistOffsetL2OnL1 : Bool := t.isExistL2 ∧ t.l1Header.count < t.offsetCount

def getEntrySetIndex (nodeIndex offsetIndex : ℤ) : ℤ :=
  (t.offsetCount - t.l1Header.count) + t.offsetCount * nodeIndex + offsetIndex

/-- `BucketTree::Initialize` -/
def initializeTree (nodeStorage entryStorage : Storage) (nodeSize entrySize : ℕ) (entryCount : ℤ) :
    Except FsResult BucketTree := do
  unlessThrow (0 < entryCount) .invalidArgument
  let nodeL1 := nodeStorage.read nodeSize 0
  let node := readNodeHeader nodeL1 0
  node.verify 0 nodeSize 8
  let offsetCount := getOffsetCount nodeSize
  let entrySetCount := getEntrySetCount nodeSize entrySize entryCount.toNat
  let begin := getInt nodeL1 nodeHeaderSize 8
  let startOffset := if offsetCount < entrySetCount ∧ node.count < offsetCount then
    getInt nodeL1 (nodeHeaderSize + node.count.toNat * 8) 8 else begin
  let endOffset := node.offset
  unlessThrow (0 ≤ startOffset ∧ startOffset ≤ begin) .invalidBucketTreeEntryOffset
  unlessThrow (startOffset < endOffset) .invalidBucketTreeEntryOffset
  return { nodeStorage, entryStorage, nodeL1, nodeSize, entrySize, entryCount := entryCount.toNat, offsetCount, entrySetCount,
           offsets := ⟨startOffset, endOffset⟩ }

end BucketTree

/-! ### The visitor -/

/-- The entry is the bytes of it; an index below zero stands for none. -/
structure Visitor where
  entry : Bytes
  entryIndex : ℤ
  entrySetCount : ℕ
  entrySet : EntrySetInfo

namespace Visitor

variable (t : BucketTree) (v : Visitor)

/-- The offset that every entry begins with. -/
def offset : ℤ := getInt v.entry 0 8

def isValid : Bool := 0 ≤ v.entryIndex

def canMoveNext : Bool :=
  v.isValid ∧ (v.entryIndex + 1 < v.entrySet.count ∨ v.entrySet.index + 1 < v.entrySetCount)

def canMovePrevious : Bool := v.isValid ∧ (0 < v.entryIndex ∨ 0 < v.entrySet.index)

/-- The last steps of `MoveNext` and `MovePrevious`. -/
def readEntry (entrySet : EntrySetInfo) (entryIndex : ℤ) : Visitor where
  entry := t.entryStorage.read t.entrySize
    (getBucketTreeEntryOffset (entrySet.index.toNat * t.nodeSize) t.entrySize entryIndex.toNat)
  entryIndex := entryIndex
  entrySetCount := v.entrySetCount
  entrySet := entrySet

def moveNext : Except FsResult Visitor := do
  unlessThrow v.isValid .outOfRange
  let entryIndex := v.entryIndex + 1
  if entryIndex = v.entrySet.count then
    let entrySetIndex := v.entrySet.index + 1
    unlessThrow (entrySetIndex < v.entrySetCount) .outOfRange
    let entrySet := readEntrySetInfo t.entryStorage.bytes (entrySetIndex.toNat * t.nodeSize)
    entrySet.header.verify entrySetIndex t.nodeSize t.entrySize
    unlessThrow (entrySet.start = v.entrySet.endOffset ∧ entrySet.start < entrySet.endOffset) .invalidBucketTreeEntrySetOffset
    return v.readEntry t entrySet 0
  else return v.readEntry t v.entrySet entryIndex

def movePrevious : Except FsResult Visitor := do
  unlessThrow v.isValid .outOfRange
  if v.entryIndex = 0 then
    unlessThrow (0 < v.entrySet.index) .outOfRange
    let entrySetIndex := v.entrySet.index - 1
    let entrySet := readEntrySetInfo t.entryStorage.bytes (entrySetIndex.toNat * t.nodeSize)
    entrySet.header.verify entrySetIndex t.nodeSize t.entrySize
    unlessThrow (entrySet.endOffset = v.entrySet.start ∧ entrySet.start < entrySet.endOffset) .invalidBucketTreeEntrySetOffset
    return v.readEntry t entrySet (entrySet.count - 1)
  else return v.readEntry t v.entrySet (v.entryIndex - 1)

/-- The storages on a table go on so, and take the offset that the next entry begins with or the end of the table. -/
def nextEntryOffset (result : FsResult) : Except FsResult (Visitor × ℤ) := do
  if v.canMoveNext then
    let next ← v.moveNext t
    unlessThrow (t.offsets.isInclude next.offset) result
    return (next, next.offset)
  else return (v, t.offsets.endOffset)

end Visitor

/-! ### Finding an entry -/

namespace BucketTree

variable (t : BucketTree)

def findEntrySetWithBuffer (virtualAddress : ℤ) (nodeIndex : ℕ) : Except FsResult ℤ := do
  let nodeOffset := (nodeIndex + 1) * t.nodeSize
  let buffer := t.nodeStorage.read t.nodeSize nodeOffset
  let header := readNodeHeader buffer 0
  header.verify nodeIndex t.nodeSize 8
  let index := StorageNode.find ⟨nodeHeaderSize, 8, header.count⟩ buffer virtualAddress
  unlessThrow (0 ≤ index) .invalidBucketTreeVirtualOffset
  return t.getEntrySetIndex header.index index

def findEntrySetWithoutBuffer (virtualAddress : ℤ) (nodeIndex : ℕ) : Except FsResult ℤ := do
  let nodeOffset := (nodeIndex + 1) * t.nodeSize
  let header := readNodeHeader t.nodeStorage.bytes nodeOffset
  header.verify nodeIndex t.nodeSize 8
  let index := StorageNode.find ⟨nodeHeaderSize + nodeOffset, 8, header.count⟩ t.nodeStorage.bytes virtualAddress
  unlessThrow (0 ≤ index) .outOfRange
  return t.getEntrySetIndex header.index index

/-- The size of the pooled buffer decides whether the node is read as a whole. -/
def findEntrySet (poolSize : ℕ) (virtualAddress : ℤ) (nodeIndex : ℕ) : Except FsResult ℤ :=
  if t.nodeSize ≤ poolSize then t.findEntrySetWithBuffer virtualAddress nodeIndex
  else t.findEntrySetWithoutBuffer virtualAddress nodeIndex

def findEntryWithBuffer (virtualAddress : ℤ) (entrySetIndex : ℕ) : Except FsResult Visitor := do
  let entrySetOffset := entrySetIndex * t.nodeSize
  let buffer := t.entryStorage.read t.nodeSize entrySetOffset
  let entrySet := readEntrySetInfo buffer 0
  entrySet.header.verify entrySetIndex t.nodeSize t.entrySize
  let index := StorageNode.find ⟨nodeHeaderSize, t.entrySize, entrySet.count⟩ buffer virtualAddress
  unlessThrow (0 ≤ index) .outOfRange
  let entryOffset := getBucketTreeEntryOffset 0 t.entrySize index.toNat
  return { entry := fun i => if i < t.entrySize then buffer (entryOffset + i) else 0
           entryIndex := index, entrySetCount := t.entrySetCount, entrySet }

def findEntryWithoutBuffer (virtualAddress : ℤ) (entrySetIndex : ℕ) : Except FsResult Visitor := do
  let entrySetOffset := entrySetIndex * t.nodeSize
  let entrySet := readEntrySetInfo t.entryStorage.bytes entrySetOffset
  entrySet.header.verify entrySetIndex t.nodeSize t.entrySize
  let index := StorageNode.find ⟨nodeHeaderSize + entrySetOffset, t.entrySize, entrySet.count⟩ t.entryStorage.bytes virtualAddress
  unlessThrow (0 ≤ index) .outOfRange
  let entryOffset := getBucketTreeEntryOffset entrySetOffset t.entrySize index.toNat
  return { entry := t.entryStorage.read t.entrySize entryOffset
           entryIndex := index, entrySetCount := t.entrySetCount, entrySet }

def findEntry (poolSize : ℕ) (virtualAddress : ℤ) (entrySetIndex : ℕ) : Except FsResult Visitor :=
  if t.nodeSize ≤ poolSize then t.findEntryWithBuffer virtualAddress entrySetIndex
  else t.findEntryWithoutBuffer virtualAddress entrySetIndex

/-- `std::upper_bound` in the offsets of the first node. -/
def l1UpperBound (first last : ℕ) (virtualAddress : ℤ) : ℕ :=
  partitionPoint (fun pos => t.l1Offset pos ≤ virtualAddress) first (last - first)

/-- The part of `Visitor::Find` that gets the entry set index. -/
def findEntrySetIndex (poolSize : ℕ) (virtualAddress : ℤ) : Except FsResult ℤ :=
  let count := t.l1Header.count.toNat
  if t.isExistOffsetL2OnL1 ∧ virtualAddress < t.l1Offset 0 then do
    let pos := t.l1UpperBound count t.offsetCount virtualAddress
    unlessThrow (count < pos) .outOfRange
    return ((pos - 1 - count : ℕ) : ℤ)
  else do
    let pos := t.l1UpperBound 0 count virtualAddress
    unlessThrow (0 < pos) .outOfRange
    let nodeIndex := pos - 1
    if t.isExistL2 then
      unlessThrow (nodeIndex < t.offsetCount) .invalidBucketTreeNodeOffset
      t.findEntrySet poolSize virtualAddress nodeIndex
    else return (nodeIndex : ℤ)

/-- `Visitor::Find` -/
def visitorFind (poolSize : ℕ) (virtualAddress : ℤ) : Except FsResult Visitor := do
  unlessThrow (virtualAddress < t.l1Header.offset) .outOfRange
  let entrySetIndex ← t.findEntrySetIndex poolSize virtualAddress
  unlessThrow (0 ≤ entrySetIndex ∧ entrySetIndex < t.entrySetCount) .invalidBucketTreeNodeOffset
  t.findEntry poolSize virtualAddress entrySetIndex.toNat

def find (poolSize : ℕ) (virtualAddress : ℤ) : Except FsResult Visitor := do
  unlessThrow (0 ≤ virtualAddress) .invalidOffset
  unlessThrow (!t.isEmpty) .outOfRange
  t.visitorFind poolSize virtualAddress

end BucketTree
end FileSys
end Citron
