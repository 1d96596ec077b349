/-
# Storages in counter mode

`AesCtrStorage` keeps its data encrypted in counter mode, with the counter of their place in the storage. `Write` encrypts
what it is given piece by piece into a pooled buffer. The place in the storage and the counter go on from piece to piece, but
every piece is taken from the beginning of the data: what is longer than the pooled buffer is written right just when it
repeats its first piece (`write_iff`).
-/
import Citron.FileSys.AlignmentMatchingStorage
import Citron.Lib.BigEndian
import Citron.Lib.CounterMode
import Citron.Lib.Records

namespace Citron
namespace FileSys

open Lib AlignmentMatchingStorage List

/-! ### Counters -/

/-- The loop of `AddCounter` from the last byte on. -/
def addCounterLoop : List UInt8 → ℕ → ℕ → List UInt8
  | [], _, _ => []
  | byte :: bytes, remaining, carry =>
    let sum := byte.toNat + remaining % 256 + carry
    UInt8.ofNat (sum % 256) ::
      if sum / 256 = 0 ∧ remaining / 256 = 0 then bytes else addCounterLoop bytes (remaining / 256) (sum / 256)

def addCounter (counter : List UInt8) (value : ℕ) : List UInt8 := (addCounterLoop counter.reverse value 0).reverse

theorem length_addCounterLoop (bytes : List UInt8) (remaining carry : ℕ) :
    (addCounterLoop bytes remaining carry).length = bytes.length := by
  induction bytes generalizing remaining carry with
  | nil => rfl
  | cons byte bytes ih =>
    rw [addCounterLoop, length_cons, length_cons]
    split_ifs
    · rfl
    · rw [ih]

@[simp] theorem length_addCounter (counter : List UInt8) (value : ℕ) : (addCounter counter value).length = counter.length := by
  unfold addCounter
  rw [length_reverse, length_addCounterLoop, length_reverse]

theorem ofBytes_lt (bytes : List UInt8) : ofBytes bytes < 256 ^ bytes.length := by
  induction bytes with
  | nil => exact Nat.one_pos
  | cons byte bytes ih =>
    have hbyte := byte.toNat_lt
    rw [ofBytes, length_cons, Nat.pow_succ]
    omega

theorem ofBytes_addCounterLoop (bytes : List UInt8) (remaining carry : ℕ) :
    ofBytes (addCounterLoop bytes remaining carry) = (ofBytes bytes + remaining + carry) % 256 ^ bytes.length := by
  induction bytes generalizing remaining carry with
  | nil => exact (Nat.mod_one _).symm
  | cons byte bytes ih =>
    set sum := byte.toNat + remaining % 256 + carry with hsum
    have hlow : (UInt8.ofNat (sum % 256)).toNat = sum % 256 := by simp
    have htotal : ofBytes (byte :: bytes) + remaining + carry =
        sum % 256 + 256 * (ofBytes bytes + remaining / 256 + sum / 256) := by
      rw [ofBytes]
      omega
    have hrest : ofBytes (if sum / 256 = 0 ∧ remaining / 256 = 0 then bytes else
        addCounterLoop bytes (remaining / 256) (sum / 256)) =
          (ofBytes bytes + remaining / 256 + sum / 256) % 256 ^ bytes.length := by
      split_ifs with hdone
      · rw [hdone.1, hdone.2]
        exact (Nat.mod_eq_of_lt (ofBytes_lt bytes)).symm
      · exact ih _ _
    rw [addCounterLoop, ofBytes, hlow, hrest, htotal, length_cons, Nat.pow_succ, Nat.mul_comm (256 ^ bytes.length),
      Nat.mod_mul, Nat.add_mul_mod_self_left, Nat.mod_mod, Nat.add_mul_div_left _ _ (by decide), Nat.mod_div_self, Nat.zero_add]

theorem ofBigEndian_eq (bytes : List UInt8) : ofBigEndian bytes = ofBytes bytes.reverse := by
  induction bytes using List.reverseRecOn with
  | nil => rfl
  | append_singleton bytes byte ih =>
    rw [ofBigEndian_concat, ih, reverse_append, reverse_singleton, singleton_append, ofBytes]
    omega

/-- The counter that sixteen bytes hold. -/
def counterOf (bytes : List UInt8) : BitVec 128 := BitVec.ofNat 128 (ofBigEndian bytes)

/-- **`AddCounter`** adds to the counter. -/
theorem counterOf_addCounter {counter : List UInt8} (hlength : counter.length = 16) (value : ℕ) :
    counterOf (addCounter counter value) = counterOf counter + BitVec.ofNat 128 value := by
  have hpow : 256 ^ counter.reverse.length = 2 ^ 128 := by
    rw [length_reverse, hlength]
    decide
  unfold counterOf
  rw [ofBigEndian_eq, ofBigEndian_eq]
  unfold addCounter
  rw [reverse_reverse, ofBytes_addCounterLoop, hpow, Nat.add_zero, ← BitVec.ofNat_add]
  exact BitVec.eq_of_toNat_eq (by simp only [BitVec.toNat_ofNat, Nat.mod_mod])

/-! ### The storage -/

/-- `HeapAllocatableSizeMax` -/
def heapAllocatableSizeMax : ℕ := 4096 * 2 ^ 7

/-- The size of a `PooledBuffer` after `AllocateCore`. -/
def allocateCore (idealSize requiredSize : ℕ) : ℕ := min (max idealSize requiredSize) heapAllocatableSizeMax

def blockSize : ℕ := 0x10

structure AesCtrStorage where
  baseStorage : BaseStorage
  /-- The block cipher under the key. -/
  cipher : BlockCipher
  iv : List UInt8
  iv_length : iv.length = 16

namespace AesCtrStorage

variable (storage : AesCtrStorage)

/-- `Read(out + dst, size, offset)` -/
def read (size offset dst : ℕ) (out : ℕ → UInt8) : ℕ × (ℕ → UInt8) :=
  if size = 0 then (size, out)
  else
    let buffer := storage.baseStorage.read size offset dst out
    let ctr := addCounter storage.iv (offset / blockSize)
    (size, addStream size dst dst (counterStream storage.cipher (counterOf ctr)) buffer buffer)

/-- The loop of `Write`; `work` is the pooled buffer. -/
def writeLoop (cipher : BlockCipher) (buffer : ℕ → UInt8) (workSize offset : ℕ) (remaining curOffset : ℕ) (ctr : List UInt8)
    (work : ℕ → UInt8) (base : BaseStorage) : BaseStorage :=
  if _hremaining : 0 < remaining ∧ 0 < workSize then
    let writeSize := min workSize remaining
    -- The data are taken from the beginning of the buffer.
    let work := addStream writeSize 0 0 (counterStream cipher (counterOf ctr)) buffer work
    let base := base.write writeSize (offset + curOffset) 0 work
    let rest := remaining - writeSize
    let ctr := if 0 < rest then addCounter ctr (writeSize / blockSize) else ctr
    writeLoop cipher buffer workSize offset rest (curOffset + writeSize) ctr work base
  else base
termination_by remaining

/-- `Write(buffer, size, offset)` -/
def write (buffer : ℕ → UInt8) (size offset : ℕ) (work : ℕ → UInt8) : ℕ × AesCtrStorage :=
  if size = 0 then (size, storage)
  else
    let ctr := addCounter storage.iv (offset / blockSize)
    (size, { storage with
      baseStorage := writeLoop storage.cipher buffer (allocateCore size blockSize) offset size 0 ctr work storage.baseStorage })

/-! ### What is written -/

variable {storage} {cipher : BlockCipher} {buffer work out : ℕ → UInt8} {workSize offset size : ℕ}

theorem writeLoop_step {remaining curOffset : ℕ} {ctr : List UInt8} {base : BaseStorage} {n : ℕ}
    (hremaining : 0 < remaining) (hwork : 0 < workSize) (hn : n = min workSize remaining) :
    writeLoop cipher buffer workSize offset remaining curOffset ctr work base =
      writeLoop cipher buffer workSize offset (remaining - n) (curOffset + n)
        (if 0 < remaining - n then addCounter ctr (n / blockSize) else ctr)
        (addStream n 0 0 (counterStream cipher (counterOf ctr)) buffer work)
        (base.write n (offset + curOffset) 0 (addStream n 0 0 (counterStream cipher (counterOf ctr)) buffer work)) := by
  rw [writeLoop, dif_pos ⟨hremaining, hwork⟩, hn]

/-- The loop of `Write` takes every piece from the beginning of the buffer, and encrypts it under the counters of its place. -/
theorem writeLoop_bytes (hwork : 0 < workSize) (hblock : 16 ∣ workSize) {counter : List UInt8} :
    ∀ {remaining curOffset : ℕ} {ctr : List UInt8} {work : ℕ → UInt8} {base : BaseStorage}, 16 ∣ remaining →
      workSize ∣ curOffset → ctr.length = 16 →
      counterOf ctr = counterOf counter + BitVec.ofNat 128 (curOffset / 16) → offset + (curOffset + remaining) ≤ base.size →
      (writeLoop cipher buffer workSize offset remaining curOffset ctr work base).size = base.size ∧
        ∀ a, (writeLoop cipher buffer workSize offset remaining curOffset ctr work base).bytes a =
          if offset + curOffset ≤ a ∧ a < offset + (curOffset + remaining) then
            buffer ((a - offset) % workSize) ^^^ counterStream cipher (counterOf counter) (a - offset)
          else base.bytes a := by
  intro remaining
  induction remaining using Nat.strong_induction_on with
  | _ remaining ih =>
    intro curOffset ctr work base hremaining hcur hctrLength hctr hfits
    by_cases hmore : 0 < remaining
    · obtain ⟨n, hn⟩ : ∃ n, n = min workSize remaining := ⟨_, rfl⟩
      rw [writeLoop_step hmore hwork hn]
      obtain ⟨blocks, hblocks⟩ : 16 ∣ curOffset := hblock.trans hcur
      -- What the piece writes.
      set piece := base.write n (offset + curOffset) 0
        (addStream n 0 0 (counterStream cipher (counterOf ctr)) buffer work) with hpiece
      have hbytes : ∀ a, piece.bytes a = if offset + curOffset ≤ a ∧ a < offset + (curOffset + n) then
          buffer ((a - offset) % workSize) ^^^ counterStream cipher (counterOf counter) (a - offset) else base.bytes a := by
        intro a
        have hall : min n (base.size - (offset + curOffset)) = n := by omega
        rw [hpiece]
        unfold BaseStorage.write copyBytes
        simp only [hall, Nat.add_assoc]
        by_cases hin : offset + curOffset ≤ a ∧ a < offset + (curOffset + n)
        · rw [if_pos (by omega), if_pos hin]
          obtain ⟨i, rfl⟩ := Nat.exists_eq_add_of_le hin.1
          have hplace : offset + curOffset + i - offset = curOffset + i := by omega
          have hmod : (curOffset + i) % workSize = i := by
            obtain ⟨k, rfl⟩ := hcur
            rw [Nat.mul_add_mod, Nat.mod_eq_of_lt (by omega)]
          have hsource : 0 + (offset + curOffset + i - (offset + curOffset)) - 0 = i := by omega
          have hstream : counterStream cipher (counterOf counter) (curOffset + i) = counterStream cipher (counterOf ctr) i := by
            rw [hctr, hblocks, counterStream_add, Nat.mul_div_cancel_left _ (by decide)]
          unfold addStream
          rw [hplace, hmod, hstream, hsource, if_pos (by omega), Nat.zero_add]
        · rw [if_neg (by omega), if_neg hin]
      by_cases hlast : remaining ≤ workSize
      · have hrest : remaining - n = 0 := by omega
        have hnall : n = remaining := by omega
        rw [hrest, writeLoop, dif_neg (by omega)]
        refine ⟨rfl, fun a => ?_⟩
        rw [hbytes, hnall]
      · have hnwork : n = workSize := by omega
        have hnext : counterOf (addCounter ctr (n / blockSize)) =
            counterOf counter + BitVec.ofNat 128 ((curOffset + n) / 16) := by
          have hquot : (curOffset + n) / 16 = curOffset / 16 + n / blockSize := by
            unfold blockSize
            omega
          rw [counterOf_addCounter hctrLength, hctr, hquot, BitVec.ofNat_add, BitVec.add_assoc]
        rw [if_pos (by omega)]
        obtain ⟨hsize, hrun⟩ := ih (remaining - n) (by omega) (Nat.dvd_sub hremaining (hnwork ▸ hblock))
          (Nat.dvd_add hcur (hnwork ▸ dvd_refl _)) (by rw [length_addCounter, hctrLength]) hnext
          (show offset + (curOffset + n + (remaining - n)) ≤ piece.size by rw [hpiece]; change _ ≤ base.size; omega)
        refine ⟨hsize, fun a => ?_⟩
        rw [hrun, hbytes]
        by_cases hin : offset + (curOffset + n) ≤ a ∧ a < offset + (curOffset + n + (remaining - n))
        · rw [if_pos hin, if_pos (by omega)]
        · rw [if_neg hin]
          by_cases hfirst : offset + curOffset ≤ a ∧ a < offset + (curOffset + n)
          · rw [if_pos hfirst, if_pos (by omega)]
          · rw [if_neg hfirst, if_neg (by omega)]
    · rw [writeLoop, dif_neg (by omega)]
      refine ⟨rfl, fun a => ?_⟩
      rw [if_neg (by omega)]

theorem allocateCore_bounds (hsize : 16 ∣ size) :
    0 < allocateCore size blockSize ∧ 16 ∣ allocateCore size blockSize := by
  unfold allocateCore heapAllocatableSizeMax blockSize
  omega

/-- What `Write` leaves in the storage. -/
theorem write_stores (hsize : 16 ∣ size) (hoffset : 16 ∣ offset) (hfits : offset + size ≤ storage.baseStorage.size)
    (buffer work : ℕ → UInt8) :
    ∃ s', storage.write buffer size offset work = (size, s') ∧ s'.cipher = storage.cipher ∧ s'.iv = storage.iv ∧
      s'.baseStorage.size = storage.baseStorage.size ∧ ∀ a, s'.baseStorage.bytes a =
        if offset ≤ a ∧ a < offset + size then
          buffer ((a - offset) % allocateCore size blockSize) ^^^ counterStream storage.cipher (counterOf storage.iv) a
        else storage.baseStorage.bytes a := by
  unfold write
  by_cases hzero : size = 0
  · rw [if_pos hzero]
    refine ⟨storage, rfl, rfl, rfl, rfl, fun a => ?_⟩
    rw [if_neg (by omega)]
  · obtain ⟨hpos, hblock⟩ := allocateCore_bounds hsize
    rw [if_neg hzero]
    obtain ⟨blocks, rfl⟩ := hoffset
    have hstart : counterOf (addCounter storage.iv (16 * blocks / blockSize)) =
        counterOf storage.iv + BitVec.ofNat 128 blocks := by
      rw [counterOf_addCounter storage.iv_length]
      unfold blockSize
      rw [Nat.mul_div_cancel_left _ (by decide)]
    have hlength : (addCounter storage.iv (16 * blocks / blockSize)).length = 16 := by
      rw [length_addCounter, storage.iv_length]
    obtain ⟨hsame, hrun⟩ := @writeLoop_bytes storage.cipher buffer _ (16 * blocks) hpos hblock
      (addCounter storage.iv (16 * blocks / blockSize)) size 0 _ work storage.baseStorage hsize (Nat.dvd_zero _) hlength (BitVec.add_zero _).symm
      (by rw [Nat.zero_add]; exact hfits)
    refine ⟨_, rfl, rfl, rfl, hsame, fun a => ?_⟩
    change (writeLoop _ _ _ _ _ _ _ _ _).bytes a = _
    rw [hrun, Nat.zero_add, Nat.add_zero]
    by_cases hin : 16 * blocks ≤ a ∧ a < 16 * blocks + size
    · have hplace : 16 * blocks + (a - 16 * blocks) = a := by omega
      rw [if_pos hin, if_pos hin, hstart, ← counterStream_add, hplace]
    · rw [if_neg hin, if_neg hin]

/-- What `Read` gives: the bytes of the storage, decrypted with the counters of their places. -/
theorem read_decrypts (hoffset : 16 ∣ offset) (hfits : offset + size ≤ storage.baseStorage.size) (dst : ℕ) (out : ℕ → UInt8) :
    (storage.read size offset dst out).1 = size ∧ ∀ i < size, (storage.read size offset dst out).2 (dst + i) =
      storage.baseStorage.bytes (offset + i) ^^^ counterStream storage.cipher (counterOf storage.iv) (offset + i) := by
  unfold read
  by_cases hzero : size = 0
  · rw [if_pos hzero]
    exact ⟨rfl, fun i hi => absurd hi (by omega)⟩
  · rw [if_neg hzero]
    refine ⟨rfl, fun i hi => ?_⟩
    obtain ⟨blocks, rfl⟩ := hoffset
    have hblocks : 16 * blocks / blockSize = blocks := Nat.mul_div_cancel_left _ (by decide)
    have hall : min size (storage.baseStorage.size - 16 * blocks) = size := by omega
    have hin : dst ≤ dst + i ∧ dst + i < dst + size := by omega
    rw [counterStream_add, ← counterOf_addCounter storage.iv_length, hblocks]
    unfold addStream BaseStorage.read copyBytes
    rw [hall]
    simp only [hin, and_self, if_true, Nat.add_sub_cancel_left]

/-- What `Write` is to do: the range holds the encrypted bytes of the buffer, nothing else changes, and every part of the
range that is read holds the bytes of the buffer again. -/
structure WritesEncrypted (s s' : AesCtrStorage) (buffer : ℕ → UInt8) (size offset : ℕ) : Prop where
  stored : ∀ i < size, s'.baseStorage.bytes (offset + i) =
    buffer i ^^^ counterStream s.cipher (counterOf s.iv + BitVec.ofNat 128 (offset / 16)) i
  size_eq : s'.baseStorage.size = s.baseStorage.size
  rest : ∀ a, a < offset ∨ offset + size ≤ a → s'.baseStorage.bytes a = s.baseStorage.bytes a
  read_eq : ∀ first n dst out, 16 ∣ first → 16 ∣ n → first + n ≤ size →
    (s'.read n (offset + first) dst out).1 = n ∧
      ∀ i < n, (s'.read n (offset + first) dst out).2 (dst + i) = buffer (first + i)

/-- **`Write` writes what it is given** just when the buffer repeats the piece that fits into the pooled buffer. -/
theorem write_iff (storage : AesCtrStorage) (hsize : 16 ∣ size) (hoffset : 16 ∣ offset)
    (hfits : offset + size ≤ storage.baseStorage.size) (buffer work : ℕ → UInt8) :
    (∃ s', storage.write buffer size offset work = (size, s') ∧ WritesEncrypted storage s' buffer size offset) ↔
      ∀ i < size, buffer (i % allocateCore size blockSize) = buffer i := by
  obtain ⟨s', hrun, hcipher, hiv, hsame, hbytes⟩ := write_stores hsize hoffset hfits buffer work
  have hstored : ∀ i < size, s'.baseStorage.bytes (offset + i) = buffer (i % allocateCore size blockSize) ^^^
      counterStream storage.cipher (counterOf storage.iv + BitVec.ofNat 128 (offset / 16)) i := by
    intro i hi
    obtain ⟨blocks, rfl⟩ := hoffset
    rw [hbytes, if_pos (by omega), Nat.add_sub_cancel_left, counterStream_add, Nat.mul_div_cancel_left _ (by decide)]
  constructor
  · rintro ⟨s₁, hrun₁, h⟩ i hi
    obtain rfl : s' = s₁ := (Prod.mk.inj (hrun.symm.trans hrun₁)).2
    have heq := (hstored i hi).symm.trans (h.stored i hi)
    have hcancel := congrArg
      (· ^^^ counterStream storage.cipher (counterOf storage.iv + BitVec.ofNat 128 (offset / 16)) i) heq
    simpa only [xor_xor_cancel] using hcancel
  · intro hrepeat
    refine ⟨s', hrun, fun i hi => ?_, hsame, fun a ha => ?_, fun first n dst out hfirst hn hle => ?_⟩
    · rw [hstored i hi, hrepeat i hi]
    · rw [hbytes, if_neg (by omega)]
    · obtain ⟨hcount, hread⟩ := @read_decrypts s' _ n (Nat.dvd_add hoffset hfirst) (by omega) dst out
      refine ⟨hcount, fun i hi => ?_⟩
      have hplace : offset + first + i - offset = first + i := by omega
      rw [hread i hi, hbytes, if_pos (by omega), hcipher, hiv, hplace, hrepeat _ (by omega), xor_xor_cancel]

/-- A storage of zeros, with a cipher that adds the byte's place to the counter. -/
def zeros (size : ℕ) : AesCtrStorage where
  baseStorage := ⟨size, fun _ => 0⟩
  cipher counter i := UInt8.ofNat (counter.toNat + i)
  iv := List.replicate 16 0
  iv_length := length_replicate

/-- Two blocks. -/
theorem write_twoBlocks : ∃ s', (zeros 32).write (fun i => UInt8.ofNat i) 32 0 (fun _ => 0) = (32, s') ∧
    WritesEncrypted (zeros 32) s' (fun i => UInt8.ofNat i) 32 0 := by
  refine (write_iff (zeros 32) (by decide) (by decide) (by decide) _ _).mpr fun i hi => ?_
  rw [Nat.mod_eq_of_lt (hi.trans_le (by decide))]

/-- A block more than the pooled buffer has: it should hold ones, and holds what the buffer begins with. -/
theorem write_oneBlockMore : ¬ ∃ s', (zeros (heapAllocatableSizeMax + 16)).write
      (fun i => if i < heapAllocatableSizeMax then 0 else 1) (heapAllocatableSizeMax + 16) 0 (fun _ => 0) =
        (heapAllocatableSizeMax + 16, s') ∧
    WritesEncrypted (zeros (heapAllocatableSizeMax + 16)) s' (fun i => if i < heapAllocatableSizeMax then 0 else 1)
      (heapAllocatableSizeMax + 16) 0 := by
  rintro ⟨s', hrun, h⟩
  obtain ⟨s₁, hrun₁, -, -, -, hbytes⟩ := @write_stores (zeros (heapAllocatableSizeMax + 16)) 0 (heapAllocatableSizeMax + 16)
    (by decide) (by decide) (le_refl _) (fun i => if i < heapAllocatableSizeMax then 0 else 1) fun _ => 0
  obtain rfl : s' = s₁ := (Prod.mk.inj (hrun.symm.trans hrun₁)).2
  have hstored := h.stored heapAllocatableSizeMax (by decide)
  have hgranted : heapAllocatableSizeMax % allocateCore (heapAllocatableSizeMax + 16) blockSize = 0 := by decide
  rw [hbytes, if_pos (by decide), Nat.zero_add, Nat.sub_zero, hgranted, if_pos (by decide), if_neg (lt_irrefl _)] at hstored
  have hcancel := congrArg (· ^^^ counterStream (zeros (heapAllocatableSizeMax + 16)).cipher
    (counterOf (zeros (heapAllocatableSizeMax + 16)).iv) heapAllocatableSizeMax) hstored
  simp only [Nat.zero_div, BitVec.add_zero, xor_xor_cancel] at hcancel
  exact absurd hcancel (by decide)

/-! ### Runs of writes -/

/-- The bytes as `Read` gives them. -/
def plaintext (s : AesCtrStorage) : ℕ → UInt8 := fun a =>
  s.baseStorage.bytes a ^^^ counterStream s.cipher (counterOf s.iv) a

/-- A call of `Write`, and what the pooled buffer holds. -/
structure WriteCall where
  buffer : ℕ → UInt8
  size : ℕ
  offset : ℕ
  work : ℕ → UInt8

/-- Whole blocks of the storage that fit into the pooled buffer. -/
structure WriteCall.Fits (c : WriteCall) (storageSize : ℕ) : Prop where
  size : 16 ∣ c.size
  offset : 16 ∣ c.offset
  inside : c.offset + c.size ≤ storageSize
  pooled : c.size ≤ heapAllocatableSizeMax

def writes (s : AesCtrStorage) (calls : List WriteCall) : AesCtrStorage :=
  calls.foldl (fun s c => (s.write c.buffer c.size c.offset c.work).2) s

/-- The same calls on a memory. -/
def plainWrites (memory : ℕ → UInt8) (calls : List WriteCall) : ℕ → UInt8 :=
  calls.foldl (fun memory c => copyBytes c.size c.offset 0 c.buffer memory) memory

theorem plaintext_write {c : WriteCall} (hc : c.Fits storage.baseStorage.size) :
    (storage.write c.buffer c.size c.offset c.work).2.baseStorage.size = storage.baseStorage.size ∧
      (storage.write c.buffer c.size c.offset c.work).2.plaintext = copyBytes c.size c.offset 0 c.buffer storage.plaintext := by
  obtain ⟨s', hrun, hcipher, hiv, hsame, hbytes⟩ := write_stores hc.size hc.offset hc.inside c.buffer c.work
  rw [hrun]
  refine ⟨hsame, funext fun a => ?_⟩
  unfold plaintext copyBytes
  rw [hbytes, hcipher, hiv]
  split_ifs with hin
  · have hplace : (a - c.offset) % allocateCore c.size blockSize = a - c.offset := by
      refine Nat.mod_eq_of_lt ?_
      have hpooled := hc.pooled
      unfold allocateCore
      omega
    rw [hplace, xor_xor_cancel, Nat.zero_add]
  · rfl

theorem plaintext_writes {calls : List WriteCall} (hcalls : ∀ c ∈ calls, c.Fits storage.baseStorage.size) :
    (storage.writes calls).baseStorage.size = storage.baseStorage.size ∧
      (storage.writes calls).plaintext = plainWrites storage.plaintext calls := by
  induction calls generalizing storage with
  | nil => exact ⟨rfl, rfl⟩
  | cons c calls ih =>
    obtain ⟨hfirst, hrest⟩ := forall_mem_cons.mp hcalls
    obtain ⟨hsize, hplain⟩ := plaintext_write hfirst
    obtain ⟨hsizes, hplains⟩ := ih (hsize.symm ▸ hrest)
    rw [hplain] at hplains
    exact ⟨hsizes.trans hsize, hplains⟩

/-- **After any writes a read gives what the last ones of each place have written.** -/
theorem read_writes {calls : List WriteCall} (hcalls : ∀ c ∈ calls, c.Fits storage.baseStorage.size) (hoffset : 16 ∣ offset)
    (hfits : offset + size ≤ storage.baseStorage.size) (dst : ℕ) (out : ℕ → UInt8) :
    ((storage.writes calls).read size offset dst out).1 = size ∧ ∀ i < size,
      ((storage.writes calls).read size offset dst out).2 (dst + i) = plainWrites storage.plaintext calls (offset + i) := by
  obtain ⟨hsize, hplain⟩ := plaintext_writes hcalls
  obtain ⟨hcount, hread⟩ := read_decrypts (hoffset) (hsize.symm ▸ hfits) dst out
  exact ⟨hcount, fun i hi => (hread i hi).trans (congrFun hplain (offset + i))⟩

/-- A block that is written over. -/
def twoCalls : List WriteCall := [⟨UInt8.ofNat, 32, 0, fun _ => 0⟩, ⟨fun _ => 7, 16, 16, fun _ => 0⟩]

theorem read_writes_twoCalls : (((zeros 32).writes twoCalls).read 16 16 0 fun _ => 0).1 = 16 ∧ ∀ i < 16,
    (((zeros 32).writes twoCalls).read 16 16 0 fun _ => 0).2 (0 + i) = plainWrites (zeros 32).plaintext twoCalls (16 + i) :=
  read_writes (forall_mem_cons.mpr ⟨⟨by decide, by decide, by decide, by decide⟩,
    forall_mem_singleton.mpr ⟨by decide, by decide, by decide, by decide⟩⟩) (by decide) (by decide) 0 _

end AesCtrStorage
end FileSys
end Citron
