/-
# Storages in counter mode, with a table of generations

`AesCtrCounterExtendedStorage` decrypts what it reads entry by entry of a bucket tree, each with the generation of the entry
in the counter. However a read is cut, a byte is decrypted in the same way, by the entry it belongs to and its offset, so a
read is the two reads of its parts (`read_append`).
-/
import Citron.FileSys.AesCtrStorage
import Citron.FileSys.BucketTreeFind

namespace Citron
namespace FileSys

open Lib AlignmentMatchingStorage BucketTree List

/-- `AesCtrStorage::MakeIv` -/
def makeIv (upper offset : ℕ) : List UInt8 := toBigEndian 8 upper ++ toBigEndian 8 (offset / blockSize)

theorem ofBigEndian_append (bytes bytes' : List UInt8) :
    ofBigEndian (bytes ++ bytes') = ofBigEndian bytes * 256 ^ bytes'.length + ofBigEndian bytes' := by
  induction bytes' using List.reverseRecOn with
  | nil => rw [append_nil, length_nil, Nat.pow_zero, Nat.mul_one]; rfl
  | append_singleton bytes' byte ih =>
    rw [← append_assoc, ofBigEndian_concat, ih, ofBigEndian_concat, length_append, length_singleton, Nat.pow_succ]
    ring

/-- The counter of a later block is the counter that many blocks ahead. -/
theorem counterOf_makeIv_add (upper : ℕ) {offset n : ℕ} (hfits : (offset + 16 * n) / 16 < 2 ^ 64) :
    counterOf (makeIv upper (offset + 16 * n)) = counterOf (makeIv upper offset) + BitVec.ofNat 128 n := by
  have hquot : (offset + 16 * n) / 16 = offset / 16 + n := Nat.add_mul_div_left _ _ (by decide)
  rw [hquot] at hfits
  have hlow : ofBigEndian (toBigEndian 8 (offset / 16)) = offset / 16 :=
    ofBigEndian_toBigEndian ((Nat.le_add_right _ _).trans_lt hfits)
  have hsum : ofBigEndian (toBigEndian 8 (offset / 16 + n)) = offset / 16 + n := ofBigEndian_toBigEndian hfits
  unfold counterOf makeIv blockSize
  rw [ofBigEndian_append, ofBigEndian_append, length_toBigEndian, length_toBigEndian, hquot, hlow, hsum, ← BitVec.ofNat_add,
    Nat.add_assoc]

/-! ### Entries -/

/-- `encryption_value == Entry::Encryption::Encrypted` -/
def isEncrypted (entry : Bytes) : Bool := entry 8 = 0

/-- `static_cast<u32>(generation)` -/
def generation (entry : Bytes) : ℕ := (getInt entry 12 4 % 2 ^ 32).toNat

/-- `NcaAesCtrUpperIv` -/
def upperIv (generation secureValue : ℕ) : ℕ := generation + secureValue * 2 ^ 32

structure AesCtrCounterExtendedStorage where
  table : BucketTree
  dataStorage : BaseStorage
  /-- The block cipher under the key. -/
  cipher : BlockCipher
  secureValue : ℕ
  counterOffset : ℕ

namespace AesCtrCounterExtendedStorage

variable (s : AesCtrCounterExtendedStorage)

/-- The loop of `Read`, where a failed assertion is `none`. -/
def readLoop (endOffset : ℕ) (visitor : Visitor) (curData curOffset : ℕ) (out : ℕ → UInt8) : Option (ℕ → UInt8) :=
  if _hmore : curOffset < endOffset then
    let curEntry := visitor.entry
    let curEntryOffset := visitor.offset
    match visitor.nextEntryOffset s.table .outOfRange with
    | .error _ => none
    | .ok (visitor, nextEntryOffset) =>
      if _hnext : curEntryOffset ≤ curOffset ∧ nextEntryOffset % blockSize = 0 ∧ (curOffset : ℤ) < nextEntryOffset then
        let dataOffset := curOffset - curEntryOffset
        let dataSize := (nextEntryOffset - curEntryOffset) - dataOffset
        let remainingSize : ℤ := endOffset - curOffset
        let curSize := (min remainingSize dataSize).toNat
        let out :=
          if isEncrypted curEntry then
            let counterOffset := s.counterOffset + curEntryOffset + dataOffset
            let iv := makeIv (upperIv (generation curEntry) s.secureValue) counterOffset.toNat
            addStream curSize curData curData (counterStream s.cipher (counterOf iv)) out out
          else out
        readLoop endOffset visitor (curData + curSize) (curOffset + curSize) out
      else none
  else some out
termination_by endOffset - curOffset
decreasing_by omega

/-- `Read(out + dst, size, offset)` -/
def read (poolSize size offset dst : ℕ) (out : ℕ → UInt8) : Option (ℕ × (ℕ → UInt8)) :=
  if size = 0 then some (size, out)
  else if s.table.offsets.isIncludeRange offset size then
    let out := s.dataStorage.read size offset dst out
    match s.table.find poolSize offset with
    | .error _ => none
    | .ok visitor =>
      if visitor.offset % blockSize = 0 ∧ 0 ≤ visitor.offset ∧ s.table.offsets.isInclude visitor.offset then
        (s.readLoop (offset + size) visitor dst offset out).map fun out => (size, out)
      else none
  else none

/-! ### What is read -/

/-- A byte is decrypted by its entry and its offset. -/
def decryptByte (entry : Bytes) (position : ℕ) (byte : UInt8) : UInt8 :=
  if isEncrypted entry then
    byte ^^^ counterStream s.cipher
      (counterOf (makeIv (upperIv (generation entry) s.secureValue) (s.counterOffset + (position - position % 16))))
      (position % 16)
  else byte

/-- A table of which every entry begins with a block, with counters that fit. -/
structure WellFormed : Prop where
  table : s.table.WellFormed
  aligned : ∀ e ∈ s.table.entries, entryOffset e % 16 = 0
  end_aligned : s.table.offsets.endOffset % 16 = 0
  counters : s.counterOffset + s.table.offsets.endOffset < 2 ^ 63

variable {s} {v : Visitor} {i j : ℕ}

/-- The stream of a piece that begins with a block. -/
theorem decryptByte_eq (h : s.WellFormed) {entry : Bytes} {first k : ℕ} (hfirst : 16 ∣ first)
    (hk : ((first + k : ℕ) : ℤ) < s.table.offsets.endOffset) (byte : UInt8) :
    s.decryptByte entry (first + k) byte = if isEncrypted entry then
      byte ^^^ counterStream s.cipher (counterOf (makeIv (upperIv (generation entry) s.secureValue) (s.counterOffset + first))) k
      else byte := by
  obtain ⟨blocks, rfl⟩ := hfirst
  have hcounters := h.counters
  have hmod : (16 * blocks + k) % 16 = k % 16 := Nat.mul_add_mod _ _ _
  have hblock : s.counterOffset + (16 * blocks + k - k % 16) = s.counterOffset + 16 * blocks + 16 * (k / 16) := by omega
  have hsplit : 16 * (k / 16) + k % 16 = k := Nat.div_add_mod k 16
  have hstream := counterStream_add s.cipher
    (counterOf (makeIv (upperIv (generation entry) s.secureValue) (s.counterOffset + 16 * blocks))) (k / 16) (k % 16)
  rw [hsplit] at hstream
  unfold decryptByte
  rw [hmod, hblock, counterOf_makeIv_add _ (by omega), ← hstream]

theorem aligned_nextOffset (h : s.WellFormed) (hv : s.table.StandsAt v i j) :
    s.table.nextOffset (s.table.entriesFrom i j).tail % 16 = 0 := by
  cases htail : (s.table.entriesFrom i j).tail with
  | nil => exact h.end_aligned
  | cons e after =>
    refine h.aligned e ?_
    rw [hv.entries_eq, htail]
    exact mem_append_right _ (mem_cons_of_mem _ mem_cons_self)

/-- A turn of the loop. -/
theorem readLoop_step {endOffset curData curOffset n : ℕ} {next : Visitor} {nextEntryOffset : ℤ} {out : ℕ → UInt8}
    (hmore : curOffset < endOffset) (hnext : v.nextEntryOffset s.table .outOfRange = .ok (next, nextEntryOffset))
    (hle : entryOffset v.entry ≤ curOffset) (haligned : nextEntryOffset % 16 = 0) (hlt : (curOffset : ℤ) < nextEntryOffset)
    (hn : (n : ℤ) = min ((endOffset : ℤ) - curOffset) (nextEntryOffset - curOffset)) :
    s.readLoop endOffset v curData curOffset out = s.readLoop endOffset next (curData + n) (curOffset + n)
      (if isEncrypted v.entry then
        addStream n curData curData (counterStream s.cipher
          (counterOf (makeIv (upperIv (generation v.entry) s.secureValue) (s.counterOffset + curOffset)))) out out
      else out) := by
  have hsize : (nextEntryOffset - v.offset) - (curOffset - v.offset) = nextEntryOffset - curOffset := by omega
  have hcounter : (s.counterOffset + v.offset + (curOffset - v.offset)).toNat = s.counterOffset + curOffset := by omega
  rw [readLoop, dif_pos hmore]
  simp only [hnext]
  rw [dif_pos ⟨hle, haligned, hlt⟩]
  simp only [hsize, hcounter, ← hn, Int.toNat_natCast]

/-- **The loop of `Read`** decrypts every byte that is left by its entry and its offset. -/
theorem readLoop_spec (h : s.WellFormed) {endOffset : ℕ} (hend : (endOffset : ℤ) ≤ s.table.offsets.endOffset) :
    ∀ {left : ℕ} {i j : ℕ} {v : Visitor} {curData curOffset : ℕ} {out : ℕ → UInt8}, left = endOffset - curOffset →
      s.table.StandsAt v i j → entryOffset v.entry ≤ curOffset → 16 ∣ curOffset →
      (curOffset : ℤ) < s.table.nextOffset (s.table.entriesFrom i j).tail →
      ∃ out', s.readLoop endOffset v curData curOffset out = some out' ∧ ∀ a, out' a =
        if curData ≤ a ∧ a < curData + left then
          s.decryptByte (s.table.entryOf ((curOffset + (a - curData) : ℕ) : ℤ)) (curOffset + (a - curData)) (out a)
        else out a := by
  intro left
  induction left using Nat.strong_induction_on with
  | _ left ih =>
    intro i j v curData curOffset out hleft hv hle haligned hlt
    by_cases hmore : curOffset < endOffset
    · obtain ⟨next, hnext, -, hgo⟩ := hv.nextEntryOffset_spec h.table .outOfRange
      have hnextAligned := aligned_nextOffset h hv
      have hentry : ∀ k : ℕ, (curOffset + k : ℤ) < s.table.nextOffset (s.table.entriesFrom i j).tail →
          s.table.entryOf ((curOffset + k : ℕ) : ℤ) = v.entry := fun k hk => hv.entryOf_eq h.table (by omega) (by omega)
      obtain ⟨n, hn⟩ : ∃ n : ℕ, (n : ℤ) = min ((endOffset : ℤ) - curOffset)
          (s.table.nextOffset (s.table.entriesFrom i j).tail - curOffset) := ⟨_, Int.toNat_of_nonneg (by omega)⟩
      rw [readLoop_step hmore hnext hle hnextAligned hlt hn]
      set out₁ := if isEncrypted v.entry then
        addStream n curData curData (counterStream s.cipher
          (counterOf (makeIv (upperIv (generation v.entry) s.secureValue) (s.counterOffset + curOffset)))) out out
        else out with hout₁
      -- The piece up to the next entry.
      have hpiece : ∀ a, out₁ a = if curData ≤ a ∧ a < curData + n then
          s.decryptByte (s.table.entryOf ((curOffset + (a - curData) : ℕ) : ℤ)) (curOffset + (a - curData)) (out a)
          else out a := by
        intro a
        by_cases hin : curData ≤ a ∧ a < curData + n
        · have hplace : curData + (a - curData) = a := by omega
          rw [if_pos hin, hentry _ (by omega), decryptByte_eq h haligned (by omega), hout₁]
          split_ifs
          · unfold addStream
            rw [if_pos hin, hplace]
          · rfl
        · rw [if_neg hin, hout₁]
          split_ifs
          · unfold addStream
            rw [if_neg hin]
          · rfl
      have hrest : ∃ out', s.readLoop endOffset next (curData + n) (curOffset + n) out₁ = some out' ∧ ∀ a, out' a =
          if curData + n ≤ a ∧ a < curData + n + (left - n) then
            s.decryptByte (s.table.entryOf ((curOffset + n + (a - (curData + n)) : ℕ) : ℤ))
              (curOffset + n + (a - (curData + n))) (out₁ a)
          else out₁ a := by
        by_cases hdone : endOffset ≤ curOffset + n
        · rw [readLoop, dif_neg (by omega)]
          refine ⟨out₁, rfl, fun a => ?_⟩
          rw [if_neg (by omega)]
        · rcases hgo with hlast | ⟨i', j', hv', hfrom⟩
          · -- The last entry ends with the table.
            rw [hlast] at hn
            change (n : ℤ) = min _ (s.table.offsets.endOffset - curOffset) at hn
            omega
          · have hbegins : s.table.nextOffset (s.table.entriesFrom i j).tail = entryOffset next.entry := by
              rw [← hfrom, entriesFrom_cons hv']
              rfl
            obtain ⟨-, -, hends, -⟩ := hv'.nextEntryOffset_spec h.table .outOfRange
            have hblocks : (16 : ℤ) ∣ ((curOffset + n : ℕ) : ℤ) := by omega
            exact ih (left - n) (by omega) (by omega) hv' (by omega) (Int.natCast_dvd_natCast.mp hblocks) (by omega)
      obtain ⟨out', hrun, hout'⟩ := hrest
      refine ⟨out', hrun, fun a => ?_⟩
      rw [hout', hpiece]
      by_cases hsecond : curData + n ≤ a ∧ a < curData + n + (left - n)
      · have hplace : curOffset + n + (a - (curData + n)) = curOffset + (a - curData) := by omega
        rw [if_pos hsecond, if_neg (by omega), if_pos (by omega), hplace]
      · rw [if_neg hsecond]
        by_cases hfirst : curData ≤ a ∧ a < curData + n
        · rw [if_pos hfirst, if_pos (by omega)]
        · rw [if_neg hfirst, if_neg (by omega)]
    · rw [readLoop, dif_neg hmore]
      refine ⟨out, rfl, fun a => ?_⟩
      rw [if_neg (by omega)]

/-- The bytes that are decrypted: a read of the data storage leaves the buffer as it is behind the storage's end. -/
def cipherByte (s : AesCtrCounterExtendedStorage) (position : ℕ) (byte : UInt8) : UInt8 :=
  if position < s.dataStorage.size then s.dataStorage.bytes position else byte

/-- **`Read`**: each byte of the range, decrypted by its entry and its offset. -/
theorem read_spec (h : s.WellFormed) {size offset : ℕ} (hoffset : 16 ∣ offset)
    (hinclude : size = 0 ∨ s.table.offsets.isIncludeRange offset size = true) (poolSize dst : ℕ) (out : ℕ → UInt8) :
    ∃ out', s.read poolSize size offset dst out = some (size, out') ∧ ∀ a, out' a =
      if dst ≤ a ∧ a < dst + size then
        s.decryptByte (s.table.entryOf ((offset + (a - dst) : ℕ) : ℤ)) (offset + (a - dst))
          (s.cipherByte (offset + (a - dst)) (out a))
      else out a := by
  unfold read
  by_cases hzero : size = 0
  · rw [if_pos hzero]
    refine ⟨out, rfl, fun a => ?_⟩
    rw [if_neg (by omega)]
  · have hrange := hinclude.resolve_left hzero
    obtain ⟨hpos, hstart, hsize⟩ := of_decide_eq_true hrange
    have hin : s.table.offsets.isInclude offset = true := decide_eq_true ⟨hstart, by omega⟩
    obtain ⟨i, j, hfind, hv, hle, hbehind⟩ := find_spec h.table hin
    have hmem : (s.table.visitorAt i j).entry ∈ s.table.entries := by
      rw [hv.entries_eq]
      exact mem_append_right _ mem_cons_self
    have hwithin := h.table.entries_within hmem
    have hvisitor : (s.table.visitorAt i j).offset % (blockSize : ℤ) = 0 ∧ 0 ≤ (s.table.visitorAt i j).offset ∧
        s.table.offsets.isInclude (s.table.visitorAt i j).offset = true :=
      ⟨h.aligned _ hmem, h.table.start_nonneg.trans hwithin.1, decide_eq_true hwithin⟩
    have hnext : (offset : ℤ) < s.table.nextOffset (s.table.entriesFrom i j).tail := by
      cases htail : (s.table.entriesFrom i j).tail with
      | nil =>
        change (offset : ℤ) < s.table.offsets.endOffset
        omega
      | cons e after =>
        rw [htail] at hbehind
        exact hbehind e mem_cons_self
    obtain ⟨out', hrun, hout'⟩ := @readLoop_spec s h (offset + size) (by omega) size i j _ dst offset
      (s.dataStorage.read size offset dst out) (by omega) hv hle hoffset hnext
    rw [if_neg hzero, if_pos hrange]
    simp only [hfind, if_pos hvisitor, hrun, Option.map_some]
    refine ⟨out', rfl, fun a => ?_⟩
    rw [hout']
    unfold cipherByte BaseStorage.read copyBytes
    by_cases hin : dst ≤ a ∧ a < dst + size
    · rw [if_pos hin, if_pos hin]
      by_cases hstored : offset + (a - dst) < s.dataStorage.size
      · rw [if_pos hstored, if_pos (by omega)]
      · rw [if_neg hstored, if_neg (by omega)]
    · rw [if_neg hin, if_neg hin, if_neg (by omega)]

/-- **Reads in parts**: a read is the read of its first part and then the read of the rest, and what either leaves in the
buffer is each byte of the range, decrypted by the entry it belongs to and its offset. -/
theorem read_append (h : s.WellFormed) {size₁ size₂ offset : ℕ} (hoffset : 16 ∣ offset) (hsize₁ : 16 ∣ size₁)
    (hinclude : s.table.offsets.isIncludeRange offset (size₁ + size₂ : ℕ) = true) (poolSize dst : ℕ) (out : ℕ → UInt8) :
    ∃ out₁ out₂, s.read poolSize size₁ offset dst out = some (size₁, out₁) ∧
      s.read poolSize size₂ (offset + size₁) (dst + size₁) out₁ = some (size₂, out₂) ∧
      s.read poolSize (size₁ + size₂) offset dst out = some (size₁ + size₂, out₂) ∧
      (∀ k < size₁ + size₂, out₂ (dst + k) =
        s.decryptByte (s.table.entryOf ((offset + k : ℕ) : ℤ)) (offset + k) (s.cipherByte (offset + k) (out (dst + k)))) ∧
      ∀ a, a < dst ∨ dst + (size₁ + size₂) ≤ a → out₂ a = out a := by
  obtain ⟨-, hstart, hend⟩ := of_decide_eq_true hinclude
  have hfirst : size₁ = 0 ∨ s.table.offsets.isIncludeRange offset size₁ = true := by
    refine (Nat.eq_zero_or_pos size₁).imp_right fun hpos => decide_eq_true ⟨?_, hstart, ?_⟩ <;> omega
  have hsecond : size₂ = 0 ∨ s.table.offsets.isIncludeRange ((offset + size₁ : ℕ) : ℤ) size₂ = true := by
    refine (Nat.eq_zero_or_pos size₂).imp_right fun hpos => decide_eq_true ⟨?_, ?_, ?_⟩ <;> omega
  obtain ⟨out₁, hrun₁, hout₁⟩ := read_spec h hoffset hfirst poolSize dst out
  obtain ⟨out₂, hrun₂, hout₂⟩ := read_spec h (Nat.dvd_add hoffset hsize₁) hsecond poolSize (dst + size₁) out₁
  obtain ⟨out', hrun, hout'⟩ := read_spec h hoffset (.inr hinclude) poolSize dst out
  have hsame : out' = out₂ := by
    funext a
    rw [hout', hout₂, hout₁]
    by_cases hin₂ : dst + size₁ ≤ a ∧ a < dst + size₁ + size₂
    · have hplace : offset + size₁ + (a - (dst + size₁)) = offset + (a - dst) := by omega
      rw [if_pos hin₂, if_pos (by omega), if_neg (by omega), hplace]
    · rw [if_neg hin₂]
      by_cases hin₁ : dst ≤ a ∧ a < dst + size₁
      · rw [if_pos hin₁, if_pos (by omega)]
      · rw [if_neg hin₁, if_neg (by omega)]
  refine ⟨out₁, out₂, hrun₁, hrun₂, hsame ▸ hrun, fun k hk => ?_, fun a ha => ?_⟩
  · rw [← hsame, hout', if_pos (by omega), Nat.add_sub_cancel_left]
  · rw [← hsame, hout', if_neg (by omega)]

/-! ### A storage of three entries -/

def threeEntries : BucketTree :=
  let nodeStorage := storageOf [(4, 0), (4, 2), (8, 96), (8, 0), (8, 64), (8, 0), (8, 0)]
  { nodeStorage
    entryStorage := storageOf [(4, 0), (4, 2), (8, 64), (8, 0), (1, 0), (3, 0), (4, 7), (8, 32), (1, 1), (3, 0), (4, 8),
      (4, 1), (4, 1), (8, 96), (8, 64), (1, 0), (3, 0), (4, 9), (8, 0), (8, 0)]
    nodeL1 := nodeStorage.read 48 0
    nodeSize := 48
    entrySize := 16
    entryCount := 3
    offsetCount := 4
    entrySetCount := 2
    offsets := ⟨0, 96⟩ }

theorem threeEntries_hasEntrySets : threeEntries.HasEntrySets where
  stored := by decide +kernel
  index := by decide +kernel
  count_pos := by decide +kernel
  count_le := by decide +kernel
  first := by decide +kernel
  next i hi := (by decide +kernel : ∀ i < 1, (threeEntries.entrySetAt i).endOffset = threeEntries.setStart (i + 1)) i
    (Nat.lt_of_succ_lt_succ hi)
  last := by decide +kernel
  increasing i hi j k hjk hk := (by decide +kernel : ∀ i < 2, ∀ k < threeEntries.setCount i, ∀ j < k,
    entryOffset (threeEntries.entryAt i j) < entryOffset (threeEntries.entryAt i k)) i hi k hk j hjk
  before_end := by decide +kernel

theorem threeEntries_wellFormed : threeEntries.WellFormed where
  entrySize_ge := by decide
  nodeSize_ge := by decide
  entryCount_pos := by decide
  nodeL1_eq := rfl
  offsetCount_eq := by decide
  entrySetCount_eq := by decide
  start_nonneg := by decide
  entrySets := threeEntries_hasEntrySets
  l1Index := by decide +kernel
  l1EndOffset := by decide +kernel
  onlyL1 _ := ⟨by decide +kernel, by decide +kernel⟩
  withL2 hmany := absurd hmany (by decide)

def smallStorage : AesCtrCounterExtendedStorage where
  table := threeEntries
  dataStorage := ⟨96, fun a => UInt8.ofNat a⟩
  cipher counter i := UInt8.ofNat (counter.toNat + i)
  secureValue := 5
  counterOffset := 0

theorem smallStorage_wellFormed : smallStorage.WellFormed where
  table := threeEntries_wellFormed
  aligned := by decide +kernel
  end_aligned := by decide
  counters := by decide

theorem read_append_smallStorage : ∃ out₁ out₂, smallStorage.read 48 32 16 0 (fun _ => 0) = some (32, out₁) ∧
    smallStorage.read 48 32 (16 + 32) (0 + 32) out₁ = some (32, out₂) ∧
    smallStorage.read 48 (32 + 32) 16 0 (fun _ => 0) = some (32 + 32, out₂) ∧
    (∀ k < 32 + 32, out₂ (0 + k) =
      smallStorage.decryptByte (smallStorage.table.entryOf ((16 + k : ℕ) : ℤ)) (16 + k) (smallStorage.cipherByte (16 + k) 0)) ∧
    ∀ a, a < 0 ∨ 0 + (32 + 32) ≤ a → out₂ a = 0 :=
  read_append smallStorage_wellFormed (by decide) (by decide) (by decide) 48 0 fun _ => 0

end AesCtrCounterExtendedStorage
end FileSys
end Citron
