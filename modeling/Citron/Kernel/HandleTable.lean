/-
# The handle table

`KHandleTable` gives out handles for objects: an index into its arrays with a linear
id. The word of an entry holds the linear id while the entry is in use, and the next
free index while it is not. An access outside the arrays gives `none`. The references
that the table holds to its objects are not modelled.
-/
import Mathlib

namespace Citron
namespace Kernel

open List

abbrev Handle := BitVec 32

/-- `EntryInfo`, a union of `u16 linear_id` and `s16 next_free_index`. -/
abbrev EntryInfo := BitVec 16

namespace EntryInfo

def getLinearId (e : EntryInfo) : ℕ := e.toNat

def getNextFreeIndex (e : EntryInfo) : ℤ := e.toInt

def ofLinearId (id : ℕ) : EntryInfo := BitVec.ofNat 16 id

def ofNextFreeIndex (index : ℤ) : EntryInfo := BitVec.ofInt 16 index

end EntryInfo

/-! ### `HandlePack` -/

namespace Handle

def index (h : Handle) : ℕ := h.toNat % 2 ^ 15

def linearId (h : Handle) : ℕ := h.toNat / 2 ^ 15 % 2 ^ 15

def reserved (h : Handle) : ℕ := h.toNat / 2 ^ 30 % 2 ^ 2

def encodeHandle (index linearId : ℕ) : Handle := BitVec.ofNat 32 (index % 2 ^ 15 + linearId % 2 ^ 15 * 2 ^ 15)

/-- `Svc::IsPseudoHandle`. -/
def isPseudoHandle (h : Handle) : Bool := h == 0xFFFF8001#32 || h == 0xFFFF8000#32

end Handle

structure KHandleTable (O : Type) where
  entryInfos : List EntryInfo
  objects : List (Option O)
  freeHeadIndex : ℤ
  tableSize : ℕ
  maxCount : ℕ
  nextLinearId : ℕ
  count : ℕ

namespace KHandleTable

variable {O : Type}

def MaxTableSize : ℕ := 1024

def MinLinearId : ℕ := 1

def MaxLinearId : ℕ := 0x7FFF

/-- A table that is constructed. -/
def initialTable : KHandleTable O :=
  { entryInfos := List.replicate MaxTableSize 0
    objects := List.replicate MaxTableSize none
    freeHeadIndex := 0
    tableSize := 0
    maxCount := 0
    nextLinearId := 0
    count := 0 }

/-- The loop of `Initialize` that frees all entries. -/
def freeAllEntries : ℕ → KHandleTable O → KHandleTable O
  | 0, t => t
  | i + 1, t =>
    let t := freeAllEntries i t
    { t with
      objects := t.objects.set i none
      entryInfos := t.entryInfos.set i (.ofNextFreeIndex (i - 1))
      freeHeadIndex := i }

/-- `Initialize`, which finds the arrays as they are; `none` for `ResultOutOfMemory`. -/
def initializeTable (t : KHandleTable O) (size : ℤ) : Option (KHandleTable O) :=
  if size ≤ MaxTableSize then
    let tableSize := if size ≤ 0 then MaxTableSize else size.toNat
    some <| freeAllEntries tableSize
      { t with
        maxCount := 0
        tableSize := tableSize
        nextLinearId := MinLinearId
        count := 0
        freeHeadIndex := -1 }
  else none

/-! ### Entries -/

def allocateEntry (t : KHandleTable O) : Option (ℕ × KHandleTable O) :=
  if t.freeHeadIndex < 0 then none
  else do
    let index := t.freeHeadIndex.toNat
    let info ← t.entryInfos[index]?
    let count := t.count + 1
    some (index, { t with
      freeHeadIndex := info.getNextFreeIndex
      count := count
      maxCount := max t.maxCount count })

def freeEntry (t : KHandleTable O) (index : ℕ) : Option (KHandleTable O) :=
  if index < t.objects.length ∧ index < t.entryInfos.length then
    some { t with
      objects := t.objects.set index none
      entryInfos := t.entryInfos.set index (.ofNextFreeIndex t.freeHeadIndex)
      freeHeadIndex := index
      count := t.count - 1 }
  else none

def allocateLinearId (t : KHandleTable O) : ℕ × KHandleTable O :=
  let id := t.nextLinearId
  let next := id + 1
  (id, { t with nextLinearId := if next > MaxLinearId then MinLinearId else next })

def isValidHandle (t : KHandleTable O) (handle : Handle) : Bool :=
  if handle = 0 then false
  else if handle.linearId = 0 then false
  else if handle.index ≥ t.tableSize then false
  else
    match t.objects[handle.index]?, t.entryInfos[handle.index]? with
    | some (some _), some info => info.getLinearId == handle.linearId
    | _, _ => false

def getObjectImpl (t : KHandleTable O) (handle : Handle) : Option O :=
  if handle.reserved ≠ 0 then none
  else if t.isValidHandle handle then (t.objects[handle.index]?).join
  else none

/-! ### The calls -/

/-- Write an entry that is in use. -/
def setEntry (t : KHandleTable O) (index linearId : ℕ) (obj : O) : Option (KHandleTable O) :=
  if index < t.objects.length ∧ index < t.entryInfos.length then
    some { t with
      entryInfos := t.entryInfos.set index (.ofLinearId linearId)
      objects := t.objects.set index (some obj) }
  else none

/-- Gives no handle for `ResultOutOfHandles`. -/
def add (t : KHandleTable O) (obj : O) : Option (Option Handle × KHandleTable O) :=
  if t.count < t.tableSize then do
    let (linearId, t) := t.allocateLinearId
    let (index, t) ← t.allocateEntry
    let t ← t.setEntry index linearId obj
    some (some (.encodeHandle index linearId), t)
  else some (none, t)

def reserve (t : KHandleTable O) : Option (Option Handle × KHandleTable O) :=
  if t.count < t.tableSize then do
    let (index, t) ← t.allocateEntry
    let (linearId, t) := t.allocateLinearId
    some (some (.encodeHandle index linearId), t)
  else some (none, t)

def unreserve (t : KHandleTable O) (handle : Handle) : Option (KHandleTable O) :=
  if handle.index < t.tableSize then t.freeEntry handle.index else some t

def register (t : KHandleTable O) (handle : Handle) (obj : O) : Option (KHandleTable O) :=
  if handle.index < t.tableSize then t.setEntry handle.index handle.linearId obj else some t

def remove (t : KHandleTable O) (handle : Handle) : Option (Bool × KHandleTable O) :=
  if handle.isPseudoHandle then some (false, t)
  else if handle.reserved ≠ 0 then some (false, t)
  else if t.isValidHandle handle then do
    let t ← t.freeEntry handle.index
    some (true, t)
  else some (false, t)

end KHandleTable

/-! ## The slots of the handle table

The free list runs through the words of the free entries (`FreeChain`), and together
with the handles that are given out it has each index of the table exactly once
(`Slots`). `AllocateEntry` moves the head of the list to the handles, `FreeEntry` moves
an index back, and writing an entry that is in use leaves the list alone.
-/

/-! ### Handles and words -/

namespace Handle

theorem index_encodeHandle {i : ℕ} (hi : i < 2 ^ 15) (id : ℕ) : (encodeHandle i id).index = i := by
  unfold encodeHandle index
  rw [BitVec.toNat_ofNat]
  omega

theorem linearId_encodeHandle {id : ℕ} (i : ℕ) (hid : id < 2 ^ 15) :
    (encodeHandle i id).linearId = id := by
  unfold encodeHandle linearId
  rw [BitVec.toNat_ofNat]
  omega

theorem reserved_encodeHandle (i id : ℕ) : (encodeHandle i id).reserved = 0 := by
  unfold encodeHandle reserved
  rw [BitVec.toNat_ofNat]
  omega

/-- A handle without reserved bits is its index and its linear id. -/
theorem ext_of_reserved {h h' : Handle} (hr : h.reserved = 0) (hr' : h'.reserved = 0) (hi : h.index = h'.index)
    (hid : h.linearId = h'.linearId) : h = h' := by
  unfold reserved at hr hr'
  unfold index at hi
  unfold linearId at hid
  refine BitVec.eq_of_toNat_eq ?_
  omega

theorem linearId_lt (h : Handle) : h.linearId < 2 ^ 15 := Nat.mod_lt _ (by decide)

end Handle

namespace EntryInfo

theorem getLinearId_ofLinearId {id : ℕ} (h : id < 2 ^ 15) : (ofLinearId id).getLinearId = id := by
  unfold ofLinearId getLinearId
  rw [BitVec.toNat_ofNat]
  omega

theorem getNextFreeIndex_ofNextFreeIndex {i : ℤ} (h1 : -1 ≤ i) (h2 : i < 1024) :
    (ofNextFreeIndex i).getNextFreeIndex = i := by
  unfold ofNextFreeIndex getNextFreeIndex
  rw [BitVec.toInt_ofInt, Int.bmod_def]
  split_ifs <;> omega

end EntryInfo

namespace KHandleTable

/-! ### The free list -/

/-- The entries from `head` on, by their next free indices, until −1. -/
def FreeChain (infos : List EntryInfo) : ℤ → List ℕ → Prop
  | head, [] => head = -1
  | head, i :: free => head = i ∧ ∃ info, infos[i]? = some info ∧ FreeChain infos info.getNextFreeIndex free

/-- A word outside the list may change. -/
theorem FreeChain.set {infos : List EntryInfo} {i : ℕ} (info : EntryInfo) : ∀ {free : List ℕ} {head : ℤ},
    FreeChain infos head free → i ∉ free → FreeChain (infos.set i info) head free
  | [], _, h, _ => h
  | j :: free, _, h, hi => by
    obtain ⟨hj, hfree⟩ := not_or.mp (mem_cons.not.mp hi)
    obtain ⟨rfl, next, hnext, hchain⟩ := h
    exact ⟨rfl, next, by rw [getElem?_set_ne hj, hnext], hchain.set info hfree⟩

variable {O : Type} {t : KHandleTable O} {free : List ℕ} {issued issued' : List Handle} {h : Handle}

structure Slots (t : KHandleTable O) (free : List ℕ) (issued : List Handle) : Prop where
  size : t.tableSize ≤ MaxTableSize
  infos : t.entryInfos.length = MaxTableSize
  objects : t.objects.length = MaxTableSize
  chain : FreeChain t.entryInfos t.freeHeadIndex free
  nodup : (free ++ issued.map Handle.index).Nodup
  mem : ∀ i, i ∈ free ++ issued.map Handle.index ↔ i < t.tableSize
  handles : ∀ h ∈ issued, 0 < h.linearId ∧ h.reserved = 0
  count : t.count = issued.length
  nextId : 0 < t.nextLinearId ∧ t.nextLinearId ≤ MaxLinearId

section

variable (hs : Slots t free issued)
include hs

theorem Slots.length : free.length + issued.length = t.tableSize := by
  have hperm : (free ++ issued.map Handle.index).Perm (List.range t.tableSize) := by
    refine (perm_ext_iff_of_nodup hs.nodup nodup_range).mpr fun i => ?_
    rw [hs.mem, mem_range]
  have := hperm.length_eq
  rwa [length_append, length_map, length_range] at this

theorem Slots.perm (hp : issued.Perm issued') : Slots t free issued' := by
  have hp' : (free ++ issued.map Handle.index).Perm (free ++ issued'.map Handle.index) :=
    (hp.map _).append_left _
  exact ⟨hs.size, hs.infos, hs.objects, hs.chain, hp'.nodup_iff.mp hs.nodup,
    fun i => hp'.mem_iff.symm.trans (hs.mem i), fun h hh => hs.handles h (hp.mem_iff.mpr hh),
    hs.count.trans hp.length_eq, hs.nextId⟩

theorem Slots.index_lt (hh : h ∈ issued) : h.index < t.tableSize :=
  (hs.mem _).mp (mem_append_right _ (mem_map_of_mem hh))

theorem Slots.index_inj {h' : Handle} (hh : h ∈ issued) (hh' : h' ∈ issued) (hi : h.index = h'.index) : h = h' :=
  inj_on_of_nodup_map (nodup_append.mp hs.nodup).2.1 hh hh' hi

theorem Slots.index_notMem_free (hh : h ∈ issued) : h.index ∉ free := by
  intro hf
  exact (nodup_append.mp hs.nodup).2.2 _ hf _ (mem_map_of_mem hh) rfl

/-- A new handle is given out: the head of the free list with the next linear id. -/
theorem Slots.allocate (hc : t.count < t.tableSize) :
    ∃ i rest t₁ t₂, free = i :: rest ∧ t.allocateEntry = some (i, t₁) ∧
      t₁.allocateLinearId = (t.nextLinearId, t₂) ∧ t.allocateLinearId.2.allocateEntry = some (i, t₂) ∧
      t₂.entryInfos = t.entryInfos ∧ t₂.objects = t.objects ∧ t₂.tableSize = t.tableSize ∧
      i < t.tableSize ∧ Slots t₂ rest (.encodeHandle i t.nextLinearId :: issued) := by
  have hlen := hs.length
  have hcount := hs.count
  have hsize := hs.size
  cases free with
  | nil =>
    rw [length_nil] at hlen
    omega
  | cons i rest =>
    obtain ⟨hhead, info, hinfo, hchain⟩ := hs.chain
    have hi : i < t.tableSize := (hs.mem i).mp mem_cons_self
    have hi15 : i < 2 ^ 15 := by
      unfold MaxTableSize at hsize
      omega
    have hid : t.nextLinearId < 2 ^ 15 := by
      have := hs.nextId.2
      unfold MaxLinearId at this
      omega
    have hget : t.entryInfos[t.freeHeadIndex.toNat]? = some info := by rw [hhead, Int.toNat_natCast, hinfo]
    have hneg : ¬ t.freeHeadIndex < 0 := by omega
    have hrun : t.allocateEntry = some (i, { t with
        freeHeadIndex := info.getNextFreeIndex
        count := t.count + 1
        maxCount := max t.maxCount (t.count + 1) }) := by
      unfold allocateEntry
      dsimp only
      rw [if_neg hneg, hget]
      simp [hhead]
    have hrun' : t.allocateLinearId.2.allocateEntry = some (i, { t with
        freeHeadIndex := info.getNextFreeIndex
        count := t.count + 1
        maxCount := max t.maxCount (t.count + 1)
        nextLinearId := if t.nextLinearId + 1 > MaxLinearId then MinLinearId else t.nextLinearId + 1 }) := by
      unfold allocateEntry allocateLinearId
      dsimp only
      rw [if_neg hneg, hget]
      simp [hhead]
    refine ⟨i, rest, _, _, rfl, hrun, rfl, hrun', rfl, rfl, rfl, hi, ?_⟩
    have hperm : (rest ++ (Handle.encodeHandle i t.nextLinearId :: issued).map Handle.index).Perm
        (i :: rest ++ issued.map Handle.index) := by
      rw [map_cons, Handle.index_encodeHandle hi15]
      exact perm_middle
    refine ⟨hs.size, hs.infos, hs.objects, hchain, hperm.nodup_iff.mpr hs.nodup,
      fun j => hperm.mem_iff.trans (hs.mem j), ?_, ?_, ?_⟩
    · refine forall_mem_cons.mpr ⟨⟨?_, Handle.reserved_encodeHandle _ _⟩, hs.handles⟩
      rw [Handle.linearId_encodeHandle _ hid]
      exact hs.nextId.1
    · show t.count + 1 = _
      rw [hs.count, length_cons]
    · show 0 < (if t.nextLinearId + 1 > MaxLinearId then MinLinearId else t.nextLinearId + 1) ∧
        (if t.nextLinearId + 1 > MaxLinearId then MinLinearId else t.nextLinearId + 1) ≤ MaxLinearId
      split_ifs
      · decide
      · omega

/-- An entry that is given out may be written. -/
theorem Slots.setEntry (hh : h ∈ issued) (obj : O) :
    ∃ t', t.setEntry h.index h.linearId obj = some t' ∧ Slots t' free issued ∧
      t'.entryInfos = t.entryInfos.set h.index (.ofLinearId h.linearId) ∧
      t'.objects = t.objects.set h.index (some obj) := by
  have hlt := (hs.index_lt hh).trans_le hs.size
  unfold KHandleTable.setEntry
  rw [if_pos ⟨by rw [hs.objects]; exact hlt, by rw [hs.infos]; exact hlt⟩]
  refine ⟨_, rfl, ⟨hs.size, ?_, ?_, hs.chain.set _ (hs.index_notMem_free hh), hs.nodup, hs.mem, hs.handles,
    hs.count, hs.nextId⟩, rfl, rfl⟩
  · rw [length_set, hs.infos]
  · rw [length_set, hs.objects]

end

/-- A handle is taken back: its index is the new head of the free list. -/
theorem Slots.freeEntry (hs : Slots t free (h :: issued)) :
    ∃ t', t.freeEntry h.index = some t' ∧ Slots t' (h.index :: free) issued ∧
      t'.entryInfos = t.entryInfos.set h.index (.ofNextFreeIndex t.freeHeadIndex) ∧
      t'.objects = t.objects.set h.index none := by
  have hlt := (hs.index_lt mem_cons_self).trans_le hs.size
  have hinfos : h.index < t.entryInfos.length := by rw [hs.infos]; exact hlt
  have hhead : -1 ≤ t.freeHeadIndex ∧ t.freeHeadIndex < 1024 := by
    have hsize := hs.size
    have hchain := hs.chain
    unfold MaxTableSize at hsize
    cases free with
    | nil =>
      rw [show t.freeHeadIndex = -1 from hchain]
      omega
    | cons i rest =>
      have := (hs.mem i).mp mem_cons_self
      rw [hchain.1]
      omega
  unfold KHandleTable.freeEntry
  rw [if_pos ⟨by rw [hs.objects]; exact hlt, hinfos⟩]
  have hperm : (h.index :: free ++ issued.map Handle.index).Perm (free ++ (h :: issued).map Handle.index) :=
    perm_middle.symm
  refine ⟨_, rfl, ⟨hs.size, ?_, ?_, ⟨rfl, _, getElem?_set_self hinfos, ?_⟩, hperm.nodup_iff.mpr hs.nodup,
    fun i => hperm.mem_iff.trans (hs.mem i), (forall_mem_cons.mp hs.handles).2, ?_, hs.nextId⟩, rfl, rfl⟩
  · rw [length_set, hs.infos]
  · rw [length_set, hs.objects]
  · rw [EntryInfo.getNextFreeIndex_ofNextFreeIndex hhead.1 hhead.2]
    exact hs.chain.set _ (hs.index_notMem_free mem_cons_self)
  · show t.count - 1 = _
    rw [hs.count, length_cons, Nat.add_sub_cancel]

end KHandleTable

end Kernel
end Citron
