/-
# What a visitor finds and visits

In a well-formed bucket tree `Find` stands on the last entry that does not begin behind the address (`find_spec`), whether
the nodes and the entry sets are read as a whole or not, and from there the visitor moves through the entries of the table
in their order, to the last one (`canMoveNext_spec`) and to the first (`canMovePrevious_spec`).
-/
import Citron.FileSys.BucketTree

namespace Citron
namespace FileSys
namespace BucketTree

open Lib List

/-! ### Reading -/

variable {storage : Storage} {size offset nodeSize entrySize : ℕ}

theorem getInt_read {place width : ℕ} (h : place + width ≤ size) :
    getInt (storage.read size offset) place width = getInt storage.bytes (offset + place) width := by
  have hsame : (List.range width).map (fun i => storage.read size offset (place + i)) =
      (List.range width).map fun i => storage.bytes (offset + place + i) := by
    apply map_congr_left
    intro i hi
    have hlt := mem_range.mp hi
    unfold Storage.read
    rw [if_pos (by omega), Nat.add_assoc]
  unfold getInt
  rw [hsame]

theorem readNodeHeader_read (h : nodeHeaderSize ≤ size) :
    readNodeHeader (storage.read size offset) 0 = readNodeHeader storage.bytes offset := by
  have hsize : 16 ≤ size := h
  unfold readNodeHeader
  rw [getInt_read (by omega), getInt_read (by omega), getInt_read (by omega)]
  rfl

theorem readEntrySetInfo_read (h : 24 ≤ size) :
    readEntrySetInfo (storage.read size offset) 0 = readEntrySetInfo storage.bytes offset := by
  unfold readEntrySetInfo
  rw [getInt_read (by omega), getInt_read (by omega), getInt_read (by omega), getInt_read (by omega)]
  rfl

theorem verify_eq_ok {header : NodeHeader} {index : ℤ} (hindex : header.index = index)
    (hsize : 0 < entrySize) (hnode : entrySize + nodeHeaderSize ≤ nodeSize) (hpos : 0 < header.count)
    (hcount : header.count ≤ ((nodeSize - nodeHeaderSize) / entrySize : ℕ)) (hoffset : 0 ≤ header.offset) :
    header.verify index nodeSize entrySize = .ok () := by
  unfold NodeHeader.verify
  rw [unlessThrow_bind (decide_eq_true hindex), unlessThrow_bind (decide_eq_true ⟨Nat.ne_of_gt hsize, hnode⟩),
    unlessThrow_bind (decide_eq_true ⟨hpos, hcount⟩)]
  unfold unlessThrow
  rw [if_pos (decide_eq_true hoffset)]

theorem verify_header_eq_ok {info : EntrySetInfo} {index : ℤ} (hindex : info.index = index)
    (hsize : 0 < entrySize) (hnode : entrySize + nodeHeaderSize ≤ nodeSize) (hpos : 0 < info.count)
    (hcount : info.count ≤ (getEntryCount nodeSize entrySize : ℕ)) (hoffset : 0 ≤ info.endOffset) :
    info.header.verify index nodeSize entrySize = .ok () :=
  verify_eq_ok hindex hsize hnode hpos hcount hoffset

/-! ### The table -/

variable (t : BucketTree)

def entrySetAt (i : ℕ) : EntrySetInfo := readEntrySetInfo t.entryStorage.bytes (i * t.nodeSize)

def setCount (i : ℕ) : ℕ := (t.entrySetAt i).count.toNat

def setStart (i : ℕ) : ℤ := (t.entrySetAt i).start

def entryAt (i j : ℕ) : Bytes :=
  t.entryStorage.read t.entrySize (getBucketTreeEntryOffset (i * t.nodeSize) t.entrySize j)

/-- The offset that an entry begins with. -/
def entryOffset (entry : Bytes) : ℤ := getInt entry 0 8

def setEntries (i : ℕ) : List Bytes := (List.range (t.setCount i)).map (t.entryAt i)

/-- The entries of the table. -/
def entries : List Bytes := (List.range t.entrySetCount).flatMap t.setEntries

/-- How many offsets the first node has. -/
def l1Count : ℕ := t.l1Header.count.toNat

/-- A node of the second level. -/
def l2Header (j : ℕ) : NodeHeader := readNodeHeader t.nodeStorage.bytes ((j + 1) * t.nodeSize)

def l2Offset (j k : ℕ) : ℤ := getInt t.nodeStorage.bytes ((j + 1) * t.nodeSize + (nodeHeaderSize + k * 8)) 8

/-- The first entry set of a node of the second level: those before the nodes are in the slots of the first node. -/
def l2Base (j : ℕ) : ℕ := (t.offsetCount - t.l1Count) + t.offsetCount * j

/-- The nodes of a tree that needs a second level. -/
structure HasL2 : Prop where
  count_pos : 0 < t.l1Count
  count_le : t.l1Count ≤ t.offsetCount
  spare : ∀ k < t.offsetCount - t.l1Count, t.l1Offset (t.l1Count + k) = t.setStart k
  begins : ∀ j < t.l1Count, t.l1Offset j = t.setStart (t.l2Base j)
  used : ∀ j < t.l1Count, t.l2Base j < t.entrySetCount
  covers : t.entrySetCount ≤ t.l2Base t.l1Count
  index : ∀ j < t.l1Count, (t.l2Header j).index = j
  nodeCount : ∀ j < t.l1Count, (t.l2Header j).count = (min t.offsetCount (t.entrySetCount - t.l2Base j) : ℕ)
  nodeEnd : ∀ j < t.l1Count, 0 ≤ (t.l2Header j).offset
  offsets : ∀ j < t.l1Count, ∀ k < min t.offsetCount (t.entrySetCount - t.l2Base j), t.l2Offset j k = t.setStart (t.l2Base j + k)

/-- The entry sets follow each other, and in each of them the entries. -/
structure HasEntrySets : Prop where
  stored : t.entrySetCount * t.nodeSize ≤ t.entryStorage.size
  index : ∀ i < t.entrySetCount, (t.entrySetAt i).index = i
  count_pos : ∀ i < t.entrySetCount, 0 < t.setCount i
  count_le : ∀ i < t.entrySetCount, t.setCount i ≤ getEntryCount t.nodeSize t.entrySize
  first : t.setStart 0 = t.offsets.startOffset
  next : ∀ i, i + 1 < t.entrySetCount → (t.entrySetAt i).endOffset = t.setStart (i + 1)
  last : (t.entrySetAt (t.entrySetCount - 1)).endOffset = t.offsets.endOffset
  increasing : ∀ i < t.entrySetCount, ∀ j k, j < k → k < t.setCount i →
    entryOffset (t.entryAt i j) < entryOffset (t.entryAt i k)
  before_end : ∀ i < t.entrySetCount, ∀ j < t.setCount i, entryOffset (t.entryAt i j) < (t.entrySetAt i).endOffset

/-- A table as `Initialize` accepts it, whose nodes hold the first offsets of its entry sets. -/
structure WellFormed : Prop where
  entrySize_ge : 8 ≤ t.entrySize
  nodeSize_ge : t.entrySize + nodeHeaderSize ≤ t.nodeSize
  entryCount_pos : 0 < t.entryCount
  nodeL1_eq : t.nodeL1 = t.nodeStorage.read t.nodeSize 0
  offsetCount_eq : t.offsetCount = getOffsetCount t.nodeSize
  entrySetCount_eq : t.entrySetCount = getEntrySetCount t.nodeSize t.entrySize t.entryCount
  start_nonneg : 0 ≤ t.offsets.startOffset
  entrySets : t.HasEntrySets
  l1Index : t.l1Header.index = 0
  l1EndOffset : t.l1Header.offset = t.offsets.endOffset
  onlyL1 : t.entrySetCount ≤ t.offsetCount → t.l1Count = t.entrySetCount ∧ ∀ k < t.entrySetCount, t.l1Offset k = t.setStart k
  withL2 : t.offsetCount < t.entrySetCount → t.HasL2

variable {t}

namespace WellFormed

variable (h : t.WellFormed) {i j k : ℕ}
include h

theorem entrySetCount_pos : 0 < t.entrySetCount := by
  have hper : 0 < getEntryCount t.nodeSize t.entrySize := by
    have hsize := h.entrySize_ge
    have hnode := h.nodeSize_ge
    exact Nat.div_pos (by omega) (by omega)
  have hpos := h.entryCount_pos
  rw [h.entrySetCount_eq]
  exact Nat.div_pos (by omega) hper

/-- The offset of an entry is what a search reads in its place. -/
theorem entryOffset_entryAt (i j : ℕ) : entryOffset (t.entryAt i j) =
    getInt t.entryStorage.bytes (i * t.nodeSize + (nodeHeaderSize + j * t.entrySize)) 8 := by
  unfold entryOffset entryAt
  rw [getInt_read (by have := h.entrySize_ge; omega)]
  unfold getBucketTreeEntryOffset
  rw [Nat.add_zero, Nat.add_assoc]

theorem setStart_eq (i : ℕ) : t.setStart i = entryOffset (t.entryAt i 0) := by
  rw [h.entryOffset_entryAt, Nat.zero_mul, Nat.add_zero]
  simp only [setStart, entrySetAt, readEntrySetInfo, nodeHeaderSize]

theorem count_eq (hi : i < t.entrySetCount) : (t.entrySetAt i).count = t.setCount i := by
  have hpos := h.entrySets.count_pos i hi
  unfold setCount at hpos ⊢
  omega

theorem setStart_le (hi : i < t.entrySetCount) (hj : j < t.setCount i) : t.setStart i ≤ entryOffset (t.entryAt i j) := by
  rw [h.setStart_eq]
  rcases Nat.eq_zero_or_pos j with rfl | hpos
  · exact le_refl _
  · exact (h.entrySets.increasing i hi 0 j hpos hj).le

theorem setStart_lt_end (hi : i < t.entrySetCount) : t.setStart i < (t.entrySetAt i).endOffset := by
  rw [h.setStart_eq]
  exact h.entrySets.before_end i hi 0 (h.entrySets.count_pos i hi)

/-- An entry set ends before the ones behind it begin. -/
theorem endOffset_le (hik : i < k) (hk : k < t.entrySetCount) : (t.entrySetAt i).endOffset ≤ t.setStart k := by
  induction k, hik using Nat.le_induction with
  | base => exact (h.entrySets.next i hk).le
  | succ k hik ih =>
    have hlt := h.setStart_lt_end (i := k) (by omega)
    rw [h.entrySets.next k hk] at hlt
    exact (ih (by omega)).trans hlt.le

theorem setStart_mono (hik : i ≤ k) (hk : k < t.entrySetCount) : t.setStart i ≤ t.setStart k := by
  rcases Nat.eq_or_lt_of_le hik with rfl | hlt
  · exact le_refl _
  · exact (h.setStart_lt_end (by omega)).le.trans (h.endOffset_le hlt hk)

theorem endOffset_le_end (hi : i < t.entrySetCount) : (t.entrySetAt i).endOffset ≤ t.offsets.endOffset := by
  have hlast := h.entrySets.last
  rcases Nat.eq_or_lt_of_le (Nat.le_sub_one_of_lt hi) with rfl | hlt
  · exact hlast.le
  · have hbefore := h.endOffset_le hlt (by omega)
    have hafter := h.setStart_lt_end (i := t.entrySetCount - 1) (by omega)
    omega

theorem start_le_setStart (hi : i < t.entrySetCount) : t.offsets.startOffset ≤ t.setStart i := by
  rw [← h.entrySets.first]
  exact h.setStart_mono (Nat.zero_le i) hi

/-- **The entries are in the order of their offsets.** -/
theorem entries_sorted : t.entries.Pairwise fun e e' => entryOffset e < entryOffset e' := by
  unfold entries
  rw [pairwise_flatMap]
  constructor
  · intro i hi
    have hlt := mem_range.mp hi
    unfold setEntries
    rw [pairwise_map]
    refine pairwise_lt_range.imp_of_mem fun hj hk hjk => ?_
    exact h.entrySets.increasing i hlt _ _ hjk (mem_range.mp hk)
  · refine pairwise_lt_range.imp_of_mem fun {i k} hi hk hik e he e' he' => ?_
    have hk := mem_range.mp hk
    have hi := mem_range.mp hi
    obtain ⟨j, hj, rfl⟩ := mem_map.mp he
    obtain ⟨j', hj', rfl⟩ := mem_map.mp he'
    have hend := h.entrySets.before_end i hi j (mem_range.mp hj)
    have hstart := h.setStart_le hk (mem_range.mp hj')
    have hle := h.endOffset_le hik hk
    omega

theorem entries_within {e : Bytes} (he : e ∈ t.entries) :
    t.offsets.startOffset ≤ entryOffset e ∧ entryOffset e < t.offsets.endOffset := by
  obtain ⟨i, hi, he⟩ := mem_flatMap.mp he
  obtain ⟨j, hj, rfl⟩ := mem_map.mp he
  have hi := mem_range.mp hi
  have hj := mem_range.mp hj
  have hend := h.entrySets.before_end i hi j hj
  have hstart := h.setStart_le hi hj
  have hfirst := h.start_le_setStart hi
  have hlast := h.endOffset_le_end hi
  omega

end WellFormed

/-! ### Standing at an entry -/

variable (t) in
def entriesBefore (i j : ℕ) : List Bytes := (List.range i).flatMap t.setEntries ++ (t.setEntries i).take j

variable (t) in
def entriesFrom (i j : ℕ) : List Bytes :=
  (t.setEntries i).drop j ++ (List.range' (i + 1) (t.entrySetCount - (i + 1))).flatMap t.setEntries

variable (t) in
structure StandsAt (v : Visitor) (i j : ℕ) : Prop where
  i_lt : i < t.entrySetCount
  j_lt : j < t.setCount i
  entry_eq : v.entry = t.entryAt i j
  entryIndex_eq : v.entryIndex = j
  entrySet_eq : v.entrySet = t.entrySetAt i
  entrySetCount_eq : v.entrySetCount = t.entrySetCount

variable {v : Visitor} {i j k : ℕ}

@[simp] theorem length_setEntries (t : BucketTree) (i : ℕ) : (t.setEntries i).length = t.setCount i := by
  unfold setEntries
  rw [length_map, length_range]

theorem drop_setEntries (hj : j < t.setCount i) : (t.setEntries i).drop j = t.entryAt i j :: (t.setEntries i).drop (j + 1) := by
  rw [drop_eq_getElem_cons (by rw [length_setEntries]; exact hj)]
  unfold setEntries
  rw [getElem_map, getElem_range]

theorem take_setEntries (hj : j < t.setCount i) : (t.setEntries i).take (j + 1) = (t.setEntries i).take j ++ [t.entryAt i j] := by
  rw [take_succ_eq_append_getElem (by rw [length_setEntries]; exact hj)]
  unfold setEntries
  rw [getElem_map, getElem_range]

theorem before_append_from (hi : i < t.entrySetCount) (j : ℕ) : t.entriesBefore i j ++ t.entriesFrom i j = t.entries := by
  have hsplit : List.range t.entrySetCount = List.range i ++ i :: List.range' (i + 1) (t.entrySetCount - (i + 1)) := by
    have hcount : t.entrySetCount - (i + 1) + 1 = t.entrySetCount - i := by omega
    have hrange := @range'_append_1 0 i (t.entrySetCount - i)
    rw [Nat.zero_add, Nat.add_sub_cancel' hi.le] at hrange
    rw [← range'_succ, range_eq_range', range_eq_range', hcount, hrange]
  unfold entriesBefore entriesFrom entries
  rw [hsplit, flatMap_append, flatMap_cons, ← append_assoc, append_assoc _ (List.take _ _),
    take_append_drop, append_assoc]

theorem entriesFrom_eq (hj : j < t.setCount i) : t.entriesFrom i j = t.entryAt i j :: t.entriesFrom i (j + 1) := by
  unfold entriesFrom
  rw [drop_setEntries hj, cons_append]

theorem entriesBefore_succ (hj : j < t.setCount i) : t.entriesBefore i (j + 1) = t.entriesBefore i j ++ [t.entryAt i j] := by
  unfold entriesBefore
  rw [take_setEntries hj, append_assoc]

theorem entriesFrom_last (hi : i + 1 < t.entrySetCount) : t.entriesFrom i (t.setCount i) = t.entriesFrom (i + 1) 0 := by
  have hsplit : t.entrySetCount - (i + 1) = t.entrySetCount - (i + 1 + 1) + 1 := by omega
  unfold entriesFrom
  rw [← length_setEntries, drop_length, nil_append, hsplit, range'_succ, flatMap_cons, drop_zero]

theorem entriesFrom_end (hi : i + 1 = t.entrySetCount) : t.entriesFrom i (t.setCount i) = [] := by
  unfold entriesFrom
  rw [← length_setEntries, drop_length, nil_append, hi, Nat.sub_self, range'_zero, flatMap_nil]

theorem entriesBefore_first (i : ℕ) : t.entriesBefore (i + 1) 0 = t.entriesBefore i (t.setCount i) := by
  unfold entriesBefore
  rw [← length_setEntries, take_length, range_succ, flatMap_append, take_zero, append_nil,
    flatMap_singleton]

theorem StandsAt.isValid (hv : t.StandsAt v i j) : v.isValid = true := by
  unfold Visitor.isValid
  rw [hv.entryIndex_eq]
  exact decide_eq_true (Int.natCast_nonneg j)

/-- The last steps of a move stand on the entry. -/
theorem standsAt_readEntry (h : t.WellFormed) (hi : i < t.entrySetCount) (hj : j < t.setCount i)
    (hcount : v.entrySetCount = t.entrySetCount) : t.StandsAt (v.readEntry t (t.entrySetAt i) j) i j where
  i_lt := hi
  j_lt := hj
  entry_eq := by
    unfold Visitor.readEntry entryAt
    rw [h.entrySets.index i hi]
    rfl
  entryIndex_eq := rfl
  entrySet_eq := rfl
  entrySetCount_eq := hcount

theorem verify_entrySetAt (h : t.WellFormed) (hi : i < t.entrySetCount) :
    (t.entrySetAt i).header.verify i t.nodeSize t.entrySize = .ok () := by
  have hsize := h.entrySize_ge
  have hpos := h.entrySets.count_pos i hi
  have hle := h.entrySets.count_le i hi
  have hcount := h.count_eq hi
  have hend := (h.start_le_setStart hi).trans (h.setStart_lt_end hi).le
  refine verify_header_eq_ok (h.entrySets.index i hi) (by omega) h.nodeSize_ge (by omega) ?_ (h.start_nonneg.trans hend)
  rw [hcount]
  exact Int.ofNat_le.mpr hle

/-! ### Moving -/

section

variable (h : t.WellFormed) (hv : t.StandsAt v i j)
include h hv

theorem StandsAt.canMoveNext_iff :
    v.canMoveNext = true ↔ j + 1 < t.setCount i ∨ i + 1 < t.entrySetCount := by
  have hcount := h.count_eq hv.i_lt
  have hindex := h.entrySets.index i hv.i_lt
  unfold Visitor.canMoveNext
  rw [hv.isValid, hv.entryIndex_eq, hv.entrySet_eq, hv.entrySetCount_eq, hcount, hindex]
  simp only [true_and, decide_eq_true_eq]
  omega

theorem StandsAt.moveNext_same (hj : j + 1 < t.setCount i) :
    ∃ v', v.moveNext t = .ok v' ∧ t.StandsAt v' i (j + 1) := by
  refine ⟨v.readEntry t (t.entrySetAt i) ((j + 1 : ℕ) : ℤ), ?_, standsAt_readEntry h hv.i_lt hj hv.entrySetCount_eq⟩
  have hcount := h.count_eq hv.i_lt
  unfold Visitor.moveNext
  rw [unlessThrow_bind hv.isValid, if_neg (by rw [hv.entryIndex_eq, hv.entrySet_eq, hcount]; omega), hv.entrySet_eq,
    hv.entryIndex_eq]
  rfl

theorem StandsAt.moveNext_set (hj : j + 1 = t.setCount i)
    (hi : i + 1 < t.entrySetCount) : ∃ v', v.moveNext t = .ok v' ∧ t.StandsAt v' (i + 1) 0 := by
  refine ⟨v.readEntry t (t.entrySetAt (i + 1)) ((0 : ℕ) : ℤ), ?_,
    standsAt_readEntry h hi (h.entrySets.count_pos _ hi) hv.entrySetCount_eq⟩
  have hcount := h.count_eq hv.i_lt
  have hindex : v.entrySet.index + 1 = ((i + 1 : ℕ) : ℤ) := by
    rw [hv.entrySet_eq, h.entrySets.index i hv.i_lt]
    rfl
  have hnext : (t.entrySetAt (i + 1)).start = v.entrySet.endOffset := by
    rw [hv.entrySet_eq, h.entrySets.next i hi]
    rfl
  unfold Visitor.moveNext
  rw [unlessThrow_bind hv.isValid, if_pos (by rw [hv.entryIndex_eq, hv.entrySet_eq, hcount]; omega)]
  simp only [hindex, Int.toNat_natCast]
  rw [unlessThrow_bind (decide_eq_true (by rw [hv.entrySetCount_eq]; omega))]
  change ((t.entrySetAt (i + 1)).header.verify _ _ _ >>= _) = _
  rw [verify_entrySetAt h hi, ok_bind, unlessThrow_bind (decide_eq_true ⟨hnext, h.setStart_lt_end hi⟩)]
  rfl

/-- **The next entry**: the visitor is on the last entry and cannot move, or it moves to the entry behind its own. -/
theorem StandsAt.canMoveNext_spec :
    (v.canMoveNext = false ∧ t.entriesFrom i j = [v.entry]) ∨
      (v.canMoveNext = true ∧ ∃ v' i' j', v.moveNext t = .ok v' ∧ t.StandsAt v' i' j' ∧
        t.entriesFrom i j = v.entry :: t.entriesFrom i' j' ∧ t.entriesBefore i' j' = t.entriesBefore i j ++ [v.entry]) := by
  have hfrom := entriesFrom_eq hv.j_lt
  have hbefore := entriesBefore_succ hv.j_lt
  rw [← hv.entry_eq] at hfrom hbefore
  by_cases hj : j + 1 < t.setCount i
  · obtain ⟨v', hrun, hv'⟩ := hv.moveNext_same h hj
    exact .inr ⟨(hv.canMoveNext_iff h).mpr (.inl hj), v', i, j + 1, hrun, hv', hfrom, hbefore⟩
  · have hlast : j + 1 = t.setCount i := by have := hv.j_lt; omega
    rw [hlast] at hfrom hbefore
    by_cases hi : i + 1 < t.entrySetCount
    · obtain ⟨v', hrun, hv'⟩ := hv.moveNext_set h hlast hi
      refine .inr ⟨(hv.canMoveNext_iff h).mpr (.inr hi), v', i + 1, 0, hrun, hv', ?_, ?_⟩
      · rw [hfrom, entriesFrom_last hi]
      · rw [entriesBefore_first, hbefore]
    · have hend : i + 1 = t.entrySetCount := by have := hv.i_lt; omega
      refine .inl ⟨?_, ?_⟩
      · rw [Bool.eq_false_iff, Ne, hv.canMoveNext_iff h]
        omega
      · rw [hfrom, entriesFrom_end hend]

theorem StandsAt.canMovePrevious_iff :
    v.canMovePrevious = true ↔ 0 < j ∨ 0 < i := by
  have hindex := h.entrySets.index i hv.i_lt
  unfold Visitor.canMovePrevious
  rw [hv.isValid, hv.entryIndex_eq, hv.entrySet_eq, hindex]
  simp only [true_and, decide_eq_true_eq]
  omega

end

theorem StandsAt.movePrevious_same (h : t.WellFormed) (hv : t.StandsAt v i (j + 1)) :
    ∃ v', v.movePrevious t = .ok v' ∧ t.StandsAt v' i j := by
  refine ⟨v.readEntry t (t.entrySetAt i) (j : ℤ), ?_,
    standsAt_readEntry h hv.i_lt (Nat.lt_of_succ_lt hv.j_lt) hv.entrySetCount_eq⟩
  unfold Visitor.movePrevious
  rw [unlessThrow_bind hv.isValid, if_neg (by rw [hv.entryIndex_eq]; omega), hv.entrySet_eq, hv.entryIndex_eq,
    Int.natCast_add, Int.natCast_one, Int.add_sub_cancel]
  rfl

theorem StandsAt.movePrevious_set (h : t.WellFormed) (hv : t.StandsAt v (i + 1) 0) :
    ∃ v', v.movePrevious t = .ok v' ∧ t.StandsAt v' i (t.setCount i - 1) := by
  have hi : i < t.entrySetCount := Nat.lt_of_succ_lt hv.i_lt
  have hpos := h.entrySets.count_pos i hi
  refine ⟨v.readEntry t (t.entrySetAt i) ((t.setCount i - 1 : ℕ) : ℤ), ?_,
    standsAt_readEntry h hi (by omega) hv.entrySetCount_eq⟩
  have hindex : v.entrySet.index = ((i + 1 : ℕ) : ℤ) := by
    rw [hv.entrySet_eq, h.entrySets.index _ hv.i_lt]
  have hlast : (t.entrySetAt i).count - 1 = ((t.setCount i - 1 : ℕ) : ℤ) := by
    rw [h.count_eq hi]
    omega
  have hprevious : (t.entrySetAt i).endOffset = v.entrySet.start := by
    rw [hv.entrySet_eq, h.entrySets.next i hv.i_lt]
    rfl
  unfold Visitor.movePrevious
  rw [unlessThrow_bind hv.isValid, if_pos (by rw [hv.entryIndex_eq]; rfl)]
  simp only [hindex, Int.natCast_add, Int.natCast_one, Int.add_sub_cancel, Int.toNat_natCast]
  rw [unlessThrow_bind (decide_eq_true (by omega))]
  change ((t.entrySetAt i).header.verify _ _ _ >>= _) = _
  rw [verify_entrySetAt h hi, ok_bind, unlessThrow_bind (decide_eq_true ⟨hprevious, h.setStart_lt_end hi⟩)]
  change Except.ok (v.readEntry t (t.entrySetAt i) ((t.entrySetAt i).count - 1)) = _
  rw [hlast]

/-- **The entry before**: the visitor is on the first entry and cannot move back, or it moves to the entry before its own. -/
theorem StandsAt.canMovePrevious_spec (h : t.WellFormed) (hv : t.StandsAt v i j) :
    (v.canMovePrevious = false ∧ t.entriesBefore i j = []) ∨
      (v.canMovePrevious = true ∧ ∃ v' i' j', v.movePrevious t = .ok v' ∧ t.StandsAt v' i' j' ∧
        t.entriesFrom i' j' = v'.entry :: t.entriesFrom i j ∧ t.entriesBefore i j = t.entriesBefore i' j' ++ [v'.entry]) := by
  cases j with
  | succ j =>
    obtain ⟨v', hrun, hv'⟩ := hv.movePrevious_same h
    refine .inr ⟨(hv.canMovePrevious_iff h).mpr (.inl (Nat.succ_pos j)), v', i, j, hrun, hv', ?_, ?_⟩
    · rw [entriesFrom_eq hv'.j_lt, hv'.entry_eq]
    · rw [entriesBefore_succ hv'.j_lt, hv'.entry_eq]
  | zero =>
    cases i with
    | succ i =>
      obtain ⟨v', hrun, hv'⟩ := hv.movePrevious_set h
      have hpos : t.setCount i - 1 + 1 = t.setCount i := by have := h.entrySets.count_pos i hv'.i_lt; omega
      refine .inr ⟨(hv.canMovePrevious_iff h).mpr (.inr (Nat.succ_pos i)), v', i, t.setCount i - 1, hrun, hv', ?_, ?_⟩
      · rw [entriesFrom_eq hv'.j_lt, hpos, entriesFrom_last hv.i_lt, hv'.entry_eq]
      · have hbefore := entriesBefore_succ hv'.j_lt
        rw [hpos] at hbefore
        rw [entriesBefore_first, hbefore, hv'.entry_eq]
    | zero =>
      refine .inl ⟨?_, rfl⟩
      rw [Bool.eq_false_iff, Ne, hv.canMovePrevious_iff h]
      omega

/-! ### Finding the entry set -/

variable {virtualAddress : ℤ} {poolSize : ℕ}

variable (t virtualAddress) in
/-- The last entry set that does not begin behind the address. -/
structure IsSetOf (i : ℕ) : Prop where
  i_lt : i < t.entrySetCount
  iff : ∀ k < t.entrySetCount, t.setStart k ≤ virtualAddress ↔ k ≤ i

theorem exists_isSetOf (h : t.WellFormed) (hstart : t.offsets.startOffset ≤ virtualAddress) :
    ∃ i, t.IsSetOf virtualAddress i := by
  have hpos := h.entrySetCount_pos
  obtain ⟨mid, hmid⟩ := @exists_partitions (fun k => decide (t.setStart k ≤ virtualAddress)) 0 t.entrySetCount (Nat.zero_le _)
    fun i k _ hik hk hle => decide_eq_true ((h.setStart_mono hik hk).trans (of_decide_eq_true hle))
  have hle := hmid.le_last
  have hmidPos : 0 < mid := by
    by_contra hzero
    have hfirst := of_decide_eq_false (hmid.fails 0 (Nat.le_of_not_lt hzero) hpos)
    rw [h.entrySets.first] at hfirst
    exact hfirst hstart
  refine ⟨mid - 1, by omega, fun k hk => ⟨fun hk' => ?_, fun hk' => ?_⟩⟩
  · by_contra hbehind
    exact of_decide_eq_false (hmid.fails k (by omega) hk) hk'
  · exact of_decide_eq_true (hmid.holds k (Nat.zero_le k) (by omega))

/-- A search in places that hold first offsets of entry sets. -/
theorem IsSetOf.partitions (hset : t.IsSetOf virtualAddress i) {f : ℕ → ℤ} {g : ℕ → ℕ} {first last mid : ℕ}
    (hf : ∀ k, first ≤ k → k < last → f k = t.setStart (g k) ∧ g k < t.entrySetCount ∧ (g k ≤ i ↔ k < mid))
    (hfirst : first ≤ mid) (hlast : mid ≤ last) : Partitions (fun k => f k ≤ virtualAddress) first last mid where
  first_le := hfirst
  le_last := hlast
  holds k hk hmid := by
    obtain ⟨heq, hlt, hiff⟩ := hf k hk (by omega)
    refine decide_eq_true ?_
    rw [heq, hset.iff _ hlt]
    exact hiff.mpr hmid
  fails k hmid hk := by
    obtain ⟨heq, hlt, hiff⟩ := hf k (by omega) hk
    refine decide_eq_false ?_
    rw [heq, hset.iff _ hlt, hiff]
    omega

theorem storageNode_find {node : StorageNode} {bytes : Bytes} {mid : ℕ}
    (h : Partitions (fun k => getInt bytes (node.start + k * node.stride) 8 ≤ virtualAddress) 0 node.count.toNat (mid + 1)) :
    node.find bytes virtualAddress = mid := by
  unfold StorageNode.find
  rw [partitionPoint_eq h (Nat.zero_add _), Int.natCast_add, Int.natCast_one, Int.add_sub_cancel]

theorem l1Header_count (hpos : 0 < t.l1Count) : t.l1Header.count = t.l1Count := by
  unfold l1Count at hpos ⊢
  omega

theorem nodeSize_bounds (h : t.WellFormed) : 24 ≤ t.nodeSize ∧ nodeHeaderSize + t.offsetCount * 8 ≤ t.nodeSize := by
  have hsize := h.entrySize_ge
  have hnode := h.nodeSize_ge
  have hheader : nodeHeaderSize = 16 := rfl
  rw [h.offsetCount_eq]
  unfold getOffsetCount
  omega

/-- **A node of the second level** gives the entry set, whether it is read as a whole or not. -/
theorem findEntrySet_eq (h : t.WellFormed) (hl2 : t.HasL2) (hset : t.IsSetOf virtualAddress i) (hj : j < t.l1Count)
    (hbase : t.l2Base j ≤ i) (hnext : i < t.l2Base j + t.offsetCount) :
    t.findEntrySet poolSize virtualAddress j = .ok (i : ℤ) := by
  obtain ⟨hheader, hslots⟩ := nodeSize_bounds h
  have hcount := hl2.nodeCount j hj
  have hilt := hset.i_lt
  set n := min t.offsetCount (t.entrySetCount - t.l2Base j) with hn
  have hverify : (t.l2Header j).verify j t.nodeSize 8 = .ok () := by
    refine verify_eq_ok (hl2.index j hj) (by decide) (by unfold nodeHeaderSize; omega) (by omega) ?_ (hl2.nodeEnd j hj)
    change _ ≤ ((getOffsetCount t.nodeSize : ℕ) : ℤ)
    rw [← h.offsetCount_eq]
    omega
  have hplaces : Partitions (fun k => t.l2Offset j k ≤ virtualAddress) 0 n (i - t.l2Base j + 1) :=
    hset.partitions (fun k _ hk => ⟨hl2.offsets j hj k hk, by omega, by omega⟩) (Nat.zero_le _) (by omega)
  have hindex : t.getEntrySetIndex j ((i - t.l2Base j : ℕ) : ℤ) = i := by
    have hle := hl2.count_le
    have hpos := hl2.count_pos
    unfold getEntrySetIndex
    have hbase' : (t.l2Base j : ℤ) = (t.offsetCount - t.l1Count) + t.offsetCount * j := by
      unfold l2Base
      rw [Int.natCast_add, Int.natCast_mul, Int.ofNat_sub hle]
    rw [l1Header_count hpos]
    omega
  unfold findEntrySet
  split
  · -- The node is read into the buffer.
    have hread : readNodeHeader (t.nodeStorage.read t.nodeSize ((j + 1) * t.nodeSize)) 0 = t.l2Header j :=
      readNodeHeader_read (by unfold nodeHeaderSize; omega)
    have hfind : StorageNode.find ⟨nodeHeaderSize, 8, (t.l2Header j).count⟩
        (t.nodeStorage.read t.nodeSize ((j + 1) * t.nodeSize)) virtualAddress = (i - t.l2Base j : ℕ) := by
      refine storageNode_find ?_
      rw [hcount, Int.toNat_natCast]
      refine hplaces.congr fun k _ hk => ?_
      have hfits : nodeHeaderSize + k * 8 + 8 ≤ t.nodeSize := by omega
      exact congrArg (fun place : ℤ => decide (place ≤ virtualAddress)) (getInt_read hfits)
    unfold findEntrySetWithBuffer
    simp only [hread, hfind]
    rw [hverify, ok_bind, unlessThrow_bind (decide_eq_true (Int.natCast_nonneg _)), hl2.index j hj, hindex]
    rfl
  · have hread : readNodeHeader t.nodeStorage.bytes ((j + 1) * t.nodeSize) = t.l2Header j := rfl
    have hfind : StorageNode.find ⟨nodeHeaderSize + (j + 1) * t.nodeSize, 8, (t.l2Header j).count⟩ t.nodeStorage.bytes
        virtualAddress = (i - t.l2Base j : ℕ) := by
      refine storageNode_find ?_
      rw [hcount, Int.toNat_natCast]
      refine hplaces.congr fun k _ _ => ?_
      unfold l2Offset
      rw [Nat.add_comm nodeHeaderSize, Nat.add_assoc]
    unfold findEntrySetWithoutBuffer
    simp only [hread, hfind]
    rw [hverify, ok_bind, unlessThrow_bind (decide_eq_true (Int.natCast_nonneg _)), hl2.index j hj, hindex]
    rfl

/-- **The entry set** is found, wherever its first offset stands. -/
theorem findEntrySetIndex_eq (h : t.WellFormed) (hset : t.IsSetOf virtualAddress i) :
    t.findEntrySetIndex poolSize virtualAddress = .ok (i : ℤ) := by
  have hilt := hset.i_lt
  have hcount : t.l1Header.count.toNat = t.l1Count := rfl
  unfold findEntrySetIndex l1UpperBound
  simp only [hcount]
  rcases Nat.lt_or_ge t.offsetCount t.entrySetCount with hmany | hfew
  · have hl2 := h.withL2 hmany
    have hpos := hl2.count_pos
    have hle := hl2.count_le
    have hexist : t.isExistL2 = true := decide_eq_true hmany
    have hbase0 : t.l2Base 0 = t.offsetCount - t.l1Count := by
      unfold l2Base
      rw [Nat.mul_zero, Nat.add_zero]
    have hbegin : t.l1Offset 0 ≤ virtualAddress ↔ t.offsetCount - t.l1Count ≤ i := by
      rw [hl2.begins 0 hpos, hset.iff _ (hl2.used 0 hpos), hbase0]
    have hspare : t.isExistOffsetL2OnL1 = true ↔ t.l1Count < t.offsetCount := by
      unfold isExistOffsetL2OnL1
      rw [hexist, l1Header_count hpos, decide_eq_true_eq, Int.ofNat_lt]
      exact and_iff_right rfl
    by_cases hslots : i < t.offsetCount - t.l1Count
    · -- The first offset is in a slot behind the nodes.
      have hplaces : Partitions (fun k => t.l1Offset k ≤ virtualAddress) t.l1Count t.offsetCount (t.l1Count + i + 1) := by
        refine @IsSetOf.partitions t i virtualAddress hset t.l1Offset (fun k => k - t.l1Count) _ _ _ (fun k hk hlt => ?_)
          (by omega) (by omega)
        have hslot := hl2.spare (k - t.l1Count) (by omega)
        rw [Nat.add_sub_cancel' hk] at hslot
        exact ⟨hslot, by omega, by omega⟩
      have hfound := partitionPoint_eq hplaces (Nat.add_sub_cancel' hle)
      rw [if_pos ⟨hspare.mpr (by omega), by omega⟩, hfound, unlessThrow_bind (decide_eq_true (by omega)), Nat.add_sub_cancel,
        Nat.add_sub_cancel_left]
      rfl
    · -- A node of the second level has it.
      have hbound := hl2.covers
      have hoffsets : 0 < t.offsetCount := by omega
      set j := (i - (t.offsetCount - t.l1Count)) / t.offsetCount with hj
      have hbase : ∀ k, t.l2Base k ≤ i ↔ k ≤ j := by
        intro k
        rw [hj, Nat.le_div_iff_mul_le hoffsets, Nat.mul_comm]
        unfold l2Base
        omega
      have hjlt : j < t.l1Count := by
        by_contra hge
        have hcovered := (hbase t.l1Count).mpr (Nat.le_of_not_lt hge)
        omega
      have hnext : i < t.l2Base j + t.offsetCount := by
        have hlt := mt (hbase (j + 1)).mp (Nat.not_succ_le_self j)
        unfold l2Base at hlt ⊢
        rw [Nat.mul_add, Nat.mul_one] at hlt
        omega
      have hplaces : Partitions (fun k => t.l1Offset k ≤ virtualAddress) 0 t.l1Count (j + 1) :=
        hset.partitions (fun k _ hk => ⟨hl2.begins k hk, hl2.used k hk, by rw [hbase]; omega⟩) (Nat.zero_le _) hjlt
      have hfound := @partitionPoint_eq _ 0 (t.l1Count - 0) _ _ hplaces (by omega)
      rw [if_neg (by rintro ⟨-, hlt⟩; omega), hfound, unlessThrow_bind (decide_eq_true (Nat.succ_pos j)), hexist, if_pos rfl,
        Nat.add_sub_cancel, unlessThrow_bind (decide_eq_true (by omega))]
      exact findEntrySet_eq h hl2 hset hjlt ((hbase j).mpr (le_refl _)) hnext
  · -- The first node has the first offsets of all entry sets.
    obtain ⟨hsets, hstarts⟩ := h.onlyL1 hfew
    have hexist : t.isExistL2 = false := decide_eq_false (Nat.not_lt.mpr hfew)
    have hspare : t.isExistOffsetL2OnL1 = false := by
      unfold isExistOffsetL2OnL1
      rw [hexist]
      rfl
    have hplaces : Partitions (fun k => t.l1Offset k ≤ virtualAddress) 0 t.l1Count (i + 1) := by
      rw [hsets]
      exact hset.partitions (fun k _ hk => ⟨hstarts k hk, hk, by omega⟩) (Nat.zero_le _) hilt
    have hfound := @partitionPoint_eq _ 0 (t.l1Count - 0) _ _ hplaces (by omega)
    rw [hspare, if_neg (by rintro ⟨hfalse, -⟩; cases hfalse), hfound, unlessThrow_bind (decide_eq_true (Nat.succ_pos i)), hexist,
      if_neg (by decide), Nat.add_sub_cancel]
    rfl

/-! ### Finding the entry -/

variable (t) in
/-- The visitor that stands on an entry. -/
def visitorAt (i j : ℕ) : Visitor := ⟨t.entryAt i j, j, t.entrySetCount, t.entrySetAt i⟩

theorem standsAt_visitorAt (hi : i < t.entrySetCount) (hj : j < t.setCount i) : t.StandsAt (t.visitorAt i j) i j :=
  ⟨hi, hj, rfl, rfl, rfl, rfl⟩

/-- The entries of a set fit into its node. -/
theorem entry_fits (h : t.WellFormed) (hi : i < t.entrySetCount) (hj : j < t.setCount i) :
    nodeHeaderSize + j * t.entrySize + t.entrySize ≤ t.nodeSize := by
  have hle := h.entrySets.count_le i hi
  have hmul := Nat.div_mul_le_self (t.nodeSize - nodeHeaderSize) t.entrySize
  have hnode := h.nodeSize_ge
  have hup : (j + 1) * t.entrySize ≤ (t.nodeSize - nodeHeaderSize) / t.entrySize * t.entrySize :=
    Nat.mul_le_mul_right _ (Nat.succ_le_of_lt (hj.trans_le hle))
  rw [Nat.succ_mul] at hup
  omega

/-- **The entry** is found in its set, whether the set is read as a whole or not. -/
theorem findEntry_eq (h : t.WellFormed) (hi : i < t.entrySetCount)
    (hplaces : Partitions (fun k => entryOffset (t.entryAt i k) ≤ virtualAddress) 0 (t.setCount i) (j + 1)) :
    t.findEntry poolSize virtualAddress i = .ok (t.visitorAt i j) := by
  have hsize := h.entrySize_ge
  have hnode := (nodeSize_bounds h).1
  have hverify := verify_entrySetAt h hi
  have hj : j < t.setCount i := hplaces.le_last
  unfold findEntry
  split
  · have hread : readEntrySetInfo (t.entryStorage.read t.nodeSize (i * t.nodeSize)) 0 = t.entrySetAt i :=
      readEntrySetInfo_read hnode
    have hfind : StorageNode.find ⟨nodeHeaderSize, t.entrySize, (t.entrySetAt i).count⟩
        (t.entryStorage.read t.nodeSize (i * t.nodeSize)) virtualAddress = j := by
      refine storageNode_find (hplaces.congr fun k _ hk => ?_)
      have hfits := entry_fits h hi hk
      rw [h.entryOffset_entryAt]
      have hfits : nodeHeaderSize + k * t.entrySize + 8 ≤ t.nodeSize := by omega
      exact congrArg (fun place : ℤ => decide (place ≤ virtualAddress)) (getInt_read hfits)
    have hentry : (fun k => if k < t.entrySize then
        t.entryStorage.read t.nodeSize (i * t.nodeSize) (getBucketTreeEntryOffset 0 t.entrySize j + k) else 0) =
          t.entryAt i j := by
      funext k
      have hfits := entry_fits h hi hj
      unfold entryAt Storage.read getBucketTreeEntryOffset
      by_cases hk : k < t.entrySize
      · rw [if_pos hk, if_pos hk, if_pos (by omega)]
        congr 1
        omega
      · rw [if_neg hk, if_neg hk]
    unfold findEntryWithBuffer
    simp only [hread, hfind, Int.toNat_natCast, hentry]
    rw [hverify, ok_bind, unlessThrow_bind (decide_eq_true (Int.natCast_nonneg _))]
    rfl
  · have hread : readEntrySetInfo t.entryStorage.bytes (i * t.nodeSize) = t.entrySetAt i := rfl
    have hfind : StorageNode.find ⟨nodeHeaderSize + i * t.nodeSize, t.entrySize, (t.entrySetAt i).count⟩ t.entryStorage.bytes
        virtualAddress = j := by
      refine storageNode_find (hplaces.congr fun k _ _ => ?_)
      rw [h.entryOffset_entryAt, Nat.add_comm nodeHeaderSize, Nat.add_assoc]
    unfold findEntryWithoutBuffer
    simp only [hread, hfind, Int.toNat_natCast]
    rw [hverify, ok_bind, unlessThrow_bind (decide_eq_true (Int.natCast_nonneg _))]
    rfl

/-- **`Find`** stands on the last entry that does not begin behind the address; the size of the pooled buffer makes no
difference. -/
theorem find_spec (h : t.WellFormed) (hinclude : t.offsets.isInclude virtualAddress = true) :
    ∃ i j, (∀ poolSize, t.find poolSize virtualAddress = .ok (t.visitorAt i j)) ∧ t.StandsAt (t.visitorAt i j) i j ∧
      entryOffset (t.entryAt i j) ≤ virtualAddress ∧ ∀ e ∈ (t.entriesFrom i j).tail, virtualAddress < entryOffset e := by
  obtain ⟨hstart, hend⟩ := of_decide_eq_true hinclude
  obtain ⟨i, hset⟩ := exists_isSetOf h hstart
  have hi := hset.i_lt
  have hpos := h.entrySets.count_pos i hi
  obtain ⟨mid, hplaces⟩ := @exists_partitions (fun k => decide (entryOffset (t.entryAt i k) ≤ virtualAddress)) 0 (t.setCount i)
    (Nat.zero_le _) fun k l _ hkl hl hle => by
      rcases Nat.eq_or_lt_of_le hkl with rfl | hlt
      · exact hle
      · exact decide_eq_true ((h.entrySets.increasing i hi k l hlt hl).le.trans (of_decide_eq_true hle))
  have hmid : 0 < mid := by
    by_contra hzero
    have hfirst := of_decide_eq_false (hplaces.fails 0 (Nat.le_of_not_lt hzero) hpos)
    rw [← h.setStart_eq] at hfirst
    exact hfirst ((hset.iff i hi).mpr (le_refl i))
  obtain ⟨j, rfl⟩ : ∃ j, mid = j + 1 := ⟨mid - 1, by omega⟩
  have hj : j < t.setCount i := hplaces.le_last
  refine ⟨i, j, fun poolSize => ?_, standsAt_visitorAt hi hj, of_decide_eq_true (hplaces.holds j (Nat.zero_le j) (by omega)), ?_⟩
  · have hnonempty : t.isEmpty = false := decide_eq_false (by have := h.entrySize_ge; omega)
    unfold find visitorFind
    rw [unlessThrow_bind (decide_eq_true (h.start_nonneg.trans hstart)), unlessThrow_bind (by rw [hnonempty]; rfl),
      unlessThrow_bind (decide_eq_true (by rw [h.l1EndOffset]; exact hend)), findEntrySetIndex_eq h hset, ok_bind,
      unlessThrow_bind (decide_eq_true ⟨Int.natCast_nonneg _, Int.ofNat_lt.mpr hi⟩), Int.toNat_natCast]
    exact findEntry_eq h hi hplaces
  · rw [entriesFrom_eq hj, tail_cons]
    intro e he
    rcases mem_append.mp he with he | he
    · obtain ⟨k, hk, rfl⟩ := mem_drop_iff_getElem.mp he
      rw [length_setEntries] at hk
      unfold setEntries
      rw [getElem_map, getElem_range]
      exact Int.not_le.mp (of_decide_eq_false (hplaces.fails _ (by omega) (by omega)))
    · obtain ⟨k, hk, he⟩ := mem_flatMap.mp he
      obtain ⟨l, hl, rfl⟩ := mem_map.mp he
      obtain ⟨hbehind, hklt⟩ := mem_range'_1.mp hk
      have hkS : k < t.entrySetCount := by omega
      have hnot := mt (hset.iff k hkS).mp (by omega)
      have hle := h.setStart_le hkS (mem_range.mp hl)
      omega

/-! ### The entry of an address -/

variable (t) in
/-- The last entry that does not begin behind an address. -/
def entryOf (address : ℤ) : Bytes :=
  ((t.entries.filter fun e => entryOffset e ≤ address).getLast?).getD fun _ => 0

variable (t) in
/-- Where an entry ends, by the entries behind it. -/
def nextOffset (after : List Bytes) : ℤ := (after.head?.map entryOffset).getD t.offsets.endOffset

theorem entriesFrom_cons (hv : t.StandsAt v i j) : t.entriesFrom i j = v.entry :: (t.entriesFrom i j).tail := by
  rw [entriesFrom_eq hv.j_lt, hv.entry_eq, tail_cons]

theorem StandsAt.entries_eq (hv : t.StandsAt v i j) : t.entries = t.entriesBefore i j ++ v.entry :: (t.entriesFrom i j).tail := by
  rw [← entriesFrom_cons hv, before_append_from hv.i_lt]

/-- The addresses from an entry to the next one belong to it. -/
theorem StandsAt.entryOf_eq (h : t.WellFormed) (hv : t.StandsAt v i j) {address : ℤ} (hle : entryOffset v.entry ≤ address)
    (hlt : address < t.nextOffset (t.entriesFrom i j).tail) : t.entryOf address = v.entry := by
  have hsorted := h.entries_sorted
  have hall := hv.entries_eq
  rw [hall, pairwise_append, pairwise_cons] at hsorted
  obtain ⟨-, ⟨-, htail⟩, hcross⟩ := hsorted
  have hbefore : (t.entriesBefore i j).filter (fun e => entryOffset e ≤ address) = t.entriesBefore i j := by
    refine filter_eq_self.mpr fun e he => decide_eq_true ?_
    exact (hcross e he v.entry mem_cons_self).le.trans hle
  have hafter : (t.entriesFrom i j).tail.filter (fun e => entryOffset e ≤ address) = [] := by
    refine filter_eq_nil_iff.mpr fun e he => ?_
    rw [decide_eq_true_eq, Int.not_le]
    cases hrest : (t.entriesFrom i j).tail with
    | nil => rw [hrest] at he; cases he
    | cons e' rest =>
      rw [hrest] at he hlt htail
      have hnext : address < entryOffset e' := hlt
      rcases mem_cons.mp he with rfl | he
      · exact hnext
      · exact hnext.trans ((pairwise_cons.mp htail).1 e he)
  have hentry : (v.entry :: (t.entriesFrom i j).tail).filter (fun e => entryOffset e ≤ address) = [v.entry] := by
    rw [filter_cons, if_pos (decide_eq_true hle), hafter]
  unfold entryOf
  rw [hall, filter_append, hbefore, hentry, getLast?_append, getLast?_singleton, Option.some_or, Option.getD_some]

/-- **Going on**: the visitor moves to the next entry, which begins where its own ends, or stays on the last. -/
theorem StandsAt.nextEntryOffset_spec (h : t.WellFormed) (hv : t.StandsAt v i j) (result : FsResult) :
    ∃ next, v.nextEntryOffset t result = .ok (next, t.nextOffset (t.entriesFrom i j).tail) ∧
      entryOffset v.entry < t.nextOffset (t.entriesFrom i j).tail ∧
      ((t.entriesFrom i j).tail = [] ∨ ∃ i' j', t.StandsAt next i' j' ∧ t.entriesFrom i' j' = (t.entriesFrom i j).tail) := by
  have hsorted := h.entries_sorted
  rw [hv.entries_eq, pairwise_append, pairwise_cons] at hsorted
  have hmem : v.entry ∈ t.entries := by
    rw [hv.entries_eq]
    exact mem_append_right _ mem_cons_self
  unfold Visitor.nextEntryOffset
  rcases hv.canMoveNext_spec h with ⟨hcan, hfrom⟩ | ⟨hcan, next, i', j', hrun, hnext, hfrom, -⟩
  · rw [hcan, hfrom, tail_cons]
    exact ⟨v, rfl, (h.entries_within hmem).2, .inl rfl⟩
  · rw [hcan, if_pos rfl, hrun, ok_bind, hfrom, tail_cons]
    have hends : t.nextOffset (t.entriesFrom i' j') = entryOffset next.entry := by
      rw [entriesFrom_cons hnext]
      rfl
    have hnextMem : next.entry ∈ t.entries := by
      rw [hnext.entries_eq]
      exact mem_append_right _ mem_cons_self
    refine ⟨next, ?_, ?_, .inr ⟨i', j', hnext, rfl⟩⟩
    · have hwithin : t.offsets.isInclude next.offset = true := decide_eq_true (h.entries_within hnextMem)
      rw [unlessThrow_bind hwithin, hends]
      rfl
    · rw [hends]
      refine hsorted.2.1.1 _ ?_
      rw [hfrom, tail_cons, entriesFrom_cons hnext]
      exact mem_cons_self

/-! ### Initializing -/

theorem l1Count_pos (h : t.WellFormed) : 0 < t.l1Count ∧ t.l1Count ≤ t.offsetCount := by
  rcases Nat.lt_or_ge t.offsetCount t.entrySetCount with hmany | hfew
  · exact ⟨(h.withL2 hmany).count_pos, (h.withL2 hmany).count_le⟩
  · have hsets := (h.onlyL1 hfew).1
    have hpos := h.entrySetCount_pos
    omega

/-- The first offset of all is in the first slot that has one. -/
theorem l1Offset_start (h : t.WellFormed) :
    (if t.offsetCount < t.entrySetCount ∧ t.l1Count < t.offsetCount then t.l1Offset t.l1Count else t.l1Offset 0) =
      t.offsets.startOffset := by
  rw [← h.entrySets.first]
  rcases Nat.lt_or_ge t.offsetCount t.entrySetCount with hmany | hfew
  · have hl2 := h.withL2 hmany
    have hle := hl2.count_le
    rcases Nat.eq_or_lt_of_le hle with heq | hlt
    · rw [if_neg (by omega), hl2.begins 0 hl2.count_pos]
      unfold l2Base
      rw [heq, Nat.sub_self, Nat.mul_zero]
    · rw [if_pos ⟨hmany, hlt⟩]
      exact hl2.spare 0 (by omega)
  · rw [if_neg (by omega)]
    exact (h.onlyL1 hfew).2 0 h.entrySetCount_pos

theorem start_le_l1Offset (h : t.WellFormed) : t.offsets.startOffset ≤ t.l1Offset 0 := by
  rcases Nat.lt_or_ge t.offsetCount t.entrySetCount with hmany | hfew
  · have hl2 := h.withL2 hmany
    rw [hl2.begins 0 hl2.count_pos]
    exact h.start_le_setStart (hl2.used 0 hl2.count_pos)
  · rw [(h.onlyL1 hfew).2 0 h.entrySetCount_pos]
    exact h.start_le_setStart h.entrySetCount_pos

/-- **`Initialize`** accepts the storages of a well-formed tree and gives the tree. -/
theorem initializeTree_eq (h : t.WellFormed) :
    initializeTree t.nodeStorage t.entryStorage t.nodeSize t.entrySize t.entryCount = .ok t := by
  obtain ⟨hpos, hle⟩ := l1Count_pos h
  have hnode := (nodeSize_bounds h).1
  have hcount := l1Header_count hpos
  have hstart := l1Offset_start h
  have hsome : t.offsets.startOffset < t.offsets.endOffset := by
    have hset := h.entrySetCount_pos
    exact (h.start_le_setStart hset).trans_lt ((h.setStart_lt_end hset).trans_le (h.endOffset_le_end hset))
  have hverify : t.l1Header.verify 0 t.nodeSize 8 = .ok () := by
    refine verify_eq_ok h.l1Index (by decide) (by unfold nodeHeaderSize; omega) (by omega) ?_ ?_
    · change _ ≤ ((getOffsetCount t.nodeSize : ℕ) : ℤ)
      rw [← h.offsetCount_eq]
      omega
    · rw [h.l1EndOffset]
      exact h.start_nonneg.trans hsome.le
  have hbegin : getInt t.nodeL1 nodeHeaderSize 8 = t.l1Offset 0 := rfl
  have hslot : getInt t.nodeL1 (nodeHeaderSize + t.l1Header.count.toNat * 8) 8 = t.l1Offset t.l1Count := rfl
  have hheader : readNodeHeader t.nodeL1 0 = t.l1Header := rfl
  have hless : t.l1Header.count < (t.offsetCount : ℤ) ↔ t.l1Count < t.offsetCount := by omega
  unfold initializeTree
  rw [unlessThrow_bind (decide_eq_true (Int.natCast_pos.mpr h.entryCount_pos))]
  simp only [Int.toNat_natCast, ← h.nodeL1_eq, ← h.offsetCount_eq, ← h.entrySetCount_eq, hheader, hbegin, hslot]
  rw [hverify, ok_bind]
  simp only [hless, hstart, h.l1EndOffset]
  rw [unlessThrow_bind (decide_eq_true ⟨h.start_nonneg, start_le_l1Offset h⟩), unlessThrow_bind (decide_eq_true hsome)]
  rfl

/-! ### Visiting -/

variable (t) in
/-- After so many calls of `MoveNext`. -/
def moveNextTimes : ℕ → Visitor → Except FsResult Visitor
  | 0, v => .ok v
  | n + 1, v => v.moveNext t >>= moveNextTimes n

variable (t) in
def movePreviousTimes : ℕ → Visitor → Except FsResult Visitor
  | 0, v => .ok v
  | n + 1, v => v.movePrevious t >>= movePreviousTimes n

/-- **Moving on**: call by call the visitor visits the entries behind its own, until there are no more. -/
theorem StandsAt.moveNextTimes_spec (h : t.WellFormed) : ∀ {n i j : ℕ} {v : Visitor}, t.StandsAt v i j →
    n ≤ (t.entriesFrom i j).tail.length → ∃ v' i' j', t.moveNextTimes n v = .ok v' ∧ t.StandsAt v' i' j' ∧
      t.entriesFrom i' j' = (t.entriesFrom i j).drop n ∧
      (v'.canMoveNext = true ↔ n < (t.entriesFrom i j).tail.length) := by
  intro n
  induction n with
  | zero =>
    intro i j v hv _
    refine ⟨v, i, j, rfl, hv, rfl, ?_⟩
    rcases hv.canMoveNext_spec h with ⟨hcan, hfrom⟩ | ⟨hcan, v', i', j', -, hv', hfrom, -⟩
    · rw [hcan, hfrom]
      simp
    · rw [hcan, hfrom, tail_cons, entriesFrom_cons hv']
      simp
  | succ n ih =>
    intro i j v hv hn
    rcases hv.canMoveNext_spec h with ⟨-, hfrom⟩ | ⟨-, v', i', j', hrun, hv', hfrom, -⟩
    · rw [hfrom] at hn
      exact absurd hn (Nat.not_succ_le_zero n)
    · have hlength : (t.entriesFrom i' j').length = (t.entriesFrom i' j').tail.length + 1 := by
        rw [entriesFrom_cons hv']
        rfl
      rw [hfrom, tail_cons, hlength] at hn
      obtain ⟨v'', i'', j'', hrun', hv'', hdrop, hcan⟩ := ih hv' (Nat.le_of_succ_le_succ hn)
      refine ⟨v'', i'', j'', ?_, hv'', ?_, ?_⟩
      · rw [moveNextTimes, hrun, ok_bind, hrun']
      · rw [hdrop, hfrom, drop_succ_cons]
      · rw [hcan, hfrom, tail_cons, hlength, Nat.succ_lt_succ_iff]

/-- **Moving back**, to the first entry. -/
theorem StandsAt.movePreviousTimes_spec (h : t.WellFormed) : ∀ {n i j : ℕ} {v : Visitor}, t.StandsAt v i j →
    n ≤ (t.entriesBefore i j).length → ∃ v' i' j', t.movePreviousTimes n v = .ok v' ∧ t.StandsAt v' i' j' ∧
      t.entriesBefore i' j' = (t.entriesBefore i j).take ((t.entriesBefore i j).length - n) ∧
      (v'.canMovePrevious = true ↔ n < (t.entriesBefore i j).length) := by
  intro n
  induction n with
  | zero =>
    intro i j v hv _
    refine ⟨v, i, j, rfl, hv, (take_length).symm, ?_⟩
    rcases hv.canMovePrevious_spec h with ⟨hcan, hbefore⟩ | ⟨hcan, v', i', j', -, -, -, hbefore⟩
    · rw [hcan, hbefore]
      simp
    · rw [hcan, hbefore]
      simp
  | succ n ih =>
    intro i j v hv hn
    rcases hv.canMovePrevious_spec h with ⟨-, hbefore⟩ | ⟨-, v', i', j', hrun, hv', -, hbefore⟩
    · rw [hbefore] at hn
      exact absurd hn (Nat.not_succ_le_zero n)
    · have hlength : (t.entriesBefore i j).length = (t.entriesBefore i' j').length + 1 := by
        rw [hbefore, length_append, length_singleton]
      rw [hlength] at hn
      obtain ⟨v'', i'', j'', hrun', hv'', htake, hcan⟩ := ih hv' (Nat.le_of_succ_le_succ hn)
      refine ⟨v'', i'', j'', ?_, hv'', ?_, ?_⟩
      · rw [movePreviousTimes, hrun, ok_bind, hrun']
      · rw [htake, hlength, Nat.add_sub_add_right, hbefore, take_append_of_le_length (Nat.sub_le _ _)]
      · rw [hcan, hlength, Nat.succ_lt_succ_iff]

/-- **Bucket trees**: `Find` stands on the last entry that does not begin behind the address, however the nodes are read, and
from there the moves visit the entries behind it and before it, one after the other, until there are no more. -/
theorem find_visits (h : t.WellFormed) (hinclude : t.offsets.isInclude virtualAddress = true) :
    ∃ v before after, t.entries = before ++ v.entry :: after ∧ (∀ poolSize, t.find poolSize virtualAddress = .ok v) ∧
      entryOffset v.entry ≤ virtualAddress ∧ (∀ e ∈ after, virtualAddress < entryOffset e) ∧
      (∀ n ≤ after.length, ∃ v', t.moveNextTimes n v = .ok v' ∧ (v.entry :: after)[n]? = some v'.entry ∧
        (v'.canMoveNext = true ↔ n < after.length)) ∧
      (∀ n ≤ before.length, ∃ v', t.movePreviousTimes n v = .ok v' ∧ (v.entry :: before.reverse)[n]? = some v'.entry ∧
        (v'.canMovePrevious = true ↔ n < before.length)) := by
  obtain ⟨i, j, hfind, hv, hle, hbehind⟩ := find_spec h hinclude
  have hfrom := entriesFrom_cons hv
  have hall := before_append_from hv.i_lt j
  refine ⟨t.visitorAt i j, t.entriesBefore i j, (t.entriesFrom i j).tail, ?_, hfind, hle, hbehind, fun n hn => ?_, fun n hn => ?_⟩
  · rw [← hfrom, hall]
  · obtain ⟨v', i', j', hrun, hv', hdrop, hcan⟩ := hv.moveNextTimes_spec h hn
    refine ⟨v', hrun, ?_, hcan⟩
    rw [← hfrom, ← head?_drop, ← hdrop, entriesFrom_cons hv', head?_cons]
  · obtain ⟨v', i', j', hrun, hv', htake, hcan⟩ := hv.movePreviousTimes_spec h hn
    refine ⟨v', hrun, ?_, hcan⟩
    -- What is before the entry and the entry are the first entries of the table.
    have hall' := before_append_from hv'.i_lt j'
    rw [htake, entriesFrom_cons hv'] at hall'
    cases n with
    | zero =>
      obtain rfl := Except.ok.inj hrun
      rfl
    | succ n =>
      set b := t.entriesBefore i j with hb
      have hplace : t.entries[b.length - (n + 1)]? = some v'.entry := by
        rw [← hall', getElem?_append_right (by rw [length_take]; omega), length_take, Nat.min_eq_left (by omega),
          Nat.sub_self, getElem?_cons_zero]
      rw [← hall, getElem?_append_left (by omega)] at hplace
      rw [getElem?_cons_succ, getElem?_reverse (by omega), ← hplace]
      congr 1
      omega

/-! ### A tree with both levels -/

/-- The storage of a record. -/
def storageOf (fields : List (ℕ × ℕ)) : Storage where
  size := (packFields fields).length
  bytes i := (packFields fields).getD i 0

/-- Five entries in three entry sets: the first offset of the first set is in a slot of the first node. -/
def smallTree : BucketTree :=
  let nodeStorage := storageOf [(4, 0), (4, 1), (8, 50), (8, 20), (8, 0), (4, 0), (4, 2), (8, 50), (8, 20), (8, 40)]
  { nodeStorage
    entryStorage := storageOf [(4, 0), (4, 2), (8, 20), (8, 0), (8, 10), (4, 1), (4, 2), (8, 40), (8, 20), (8, 30),
      (4, 2), (4, 1), (8, 50), (8, 40), (8, 0)]
    nodeL1 := nodeStorage.read 32 0
    nodeSize := 32
    entrySize := 8
    entryCount := 5
    offsetCount := 2
    entrySetCount := 3
    offsets := ⟨0, 50⟩ }

theorem smallTree_hasEntrySets : smallTree.HasEntrySets where
  stored := by decide +kernel
  index := by decide +kernel
  count_pos := by decide +kernel
  count_le := by decide +kernel
  first := by decide +kernel
  next i hi := (by decide +kernel : ∀ i < 2, (smallTree.entrySetAt i).endOffset = smallTree.setStart (i + 1)) i
    (Nat.lt_of_succ_lt_succ hi)
  last := by decide +kernel
  increasing i hi j k hjk hk := (by decide +kernel : ∀ i < 3, ∀ k < smallTree.setCount i, ∀ j < k,
    entryOffset (smallTree.entryAt i j) < entryOffset (smallTree.entryAt i k)) i hi k hk j hjk
  before_end := by decide +kernel

theorem smallTree_hasL2 : smallTree.HasL2 where
  count_pos := by decide +kernel
  count_le := by decide +kernel
  spare := by decide +kernel
  begins := by decide +kernel
  used := by decide +kernel
  covers := by decide +kernel
  index := by decide +kernel
  nodeCount := by decide +kernel
  nodeEnd := by decide +kernel
  offsets := by decide +kernel

theorem smallTree_wellFormed : smallTree.WellFormed where
  entrySize_ge := by decide
  nodeSize_ge := by decide
  entryCount_pos := by decide
  nodeL1_eq := rfl
  offsetCount_eq := by decide
  entrySetCount_eq := by decide
  start_nonneg := by decide
  entrySets := smallTree_hasEntrySets
  l1Index := by decide +kernel
  l1EndOffset := by decide +kernel
  onlyL1 hfew := absurd hfew (by decide)
  withL2 _ := smallTree_hasL2

theorem initializeTree_smallTree : initializeTree smallTree.nodeStorage smallTree.entryStorage smallTree.nodeSize
    smallTree.entrySize smallTree.entryCount = .ok smallTree :=
  initializeTree_eq smallTree_wellFormed

theorem find_visits_smallTree : ∃ v before after, smallTree.entries = before ++ v.entry :: after ∧
    (∀ poolSize, smallTree.find poolSize 35 = .ok v) ∧ entryOffset v.entry ≤ 35 ∧ (∀ e ∈ after, 35 < entryOffset e) ∧
    (∀ n ≤ after.length, ∃ v', smallTree.moveNextTimes n v = .ok v' ∧ (v.entry :: after)[n]? = some v'.entry ∧
      (v'.canMoveNext = true ↔ n < after.length)) ∧
    (∀ n ≤ before.length, ∃ v', smallTree.movePreviousTimes n v = .ok v' ∧ (v.entry :: before.reverse)[n]? = some v'.entry ∧
      (v'.canMovePrevious = true ↔ n < before.length)) :=
  find_visits smallTree_wellFormed (by decide)

end BucketTree
end FileSys
end Citron
