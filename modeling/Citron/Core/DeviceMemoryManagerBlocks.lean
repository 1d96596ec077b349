/-
# Blocks of device memory

Where the run lengths agree with the table, a block operation moves each byte as the table says, and a
span is contiguous; where they do not, there is a block that goes wrong.
-/
import Citron.Core.DeviceMemoryManager
import Mathlib.Data.List.Range

namespace Citron
namespace Core
namespace DeviceMemory
namespace DeviceMemoryManager

open List

variable {s : DeviceMemoryManager}

/-! ### What the table says -/

/-- The physical page behind a device page, plus one; `0` when it is not mapped. -/
def table (s : DeviceMemoryManager) (page : ℕ) : ℕ := (s.entries page).compressedPhysicalPtr

/-- The device addresses of a range that are not mapped. -/
def holes (s : DeviceMemoryManager) (address size : ℕ) : List ℕ :=
  ((List.range size).map (address + ·)).filter fun x => s.getPointer x = none

/-- What a block operation should report. -/
def report (s : DeviceMemoryManager) (address size : ℕ) : DeviceMemoryReadResult where
  fullyMapped := (s.holes address size).isEmpty
  firstUnmappedAddress := (s.holes address size).headD 0
  unmappedBytes := (s.holes address size).length

/-- The byte at a device address, zero where nothing is mapped. -/
def byteAt (s : DeviceMemoryManager) (physical : Memory) (x : ℕ) : BitVec 8 := (s.getPointer x).elim 0 physical

/-- A byte is stored at a device address, or dropped where nothing is mapped. -/
def storeByte (s : DeviceMemoryManager) (physical : Memory) (x : ℕ) (value : BitVec 8) : Memory :=
  (s.getPointer x).elim physical fun ptr => Function.update physical ptr value

/-- The bytes of a range, one after the other. -/
def storeBytes (s : DeviceMemoryManager) (physical : Memory) (address : ℕ) (src : Memory) (srcPointer size : ℕ) : Memory :=
  (List.range size).foldl (fun m j => s.storeByte m (address + j) (src (srcPointer + j))) physical

/-- Each block operation moves the bytes that the table gives, and each span is contiguous. -/
structure Faithful (s : DeviceMemoryManager) : Prop where
  read : ∀ physical address dest destPointer size,
    (s.readBlockUnsafe physical address dest destPointer size).result = s.report address size ∧
    (s.readBlockUnsafe physical address dest destPointer size).target =
      memcpy dest destPointer (s.byteAt physical) address size
  write : ∀ physical address src srcPointer size,
    (s.writeBlockUnsafe physical address src srcPointer size).result = s.report address size ∧
    (s.writeBlockUnsafe physical address src srcPointer size).target = s.storeBytes physical address src srcPointer size
  span : ∀ address size ptr, s.getSpan address size = some ptr → ∀ j < size, s.getPointer (address + j) = some (ptr + j)

/-- The pages that the run of a page covers are mapped one after the other, or none of them is mapped. -/
def RunsAgree (s : DeviceMemoryManager) : Prop :=
  ∀ page k, k < s.continuityAt page → s.table (page + k) = if s.table page = 0 then 0 else s.table page + k

theorem continuityAt_pos (s : DeviceMemoryManager) (page : ℕ) : 0 < s.continuityAt page := by
  rw [continuityAt]
  split
  · exact Nat.pos_of_ne_zero ‹_›
  · exact Nat.one_pos

/-! ### One turn of the walk -/

/-- The bytes from an address on are unmapped. -/
def Hole (s : DeviceMemoryManager) (x size : ℕ) : Prop := ∀ j < size, s.getPointer (x + j) = none

/-- The bytes from an address on are behind the places from `ptr` on. -/
def Backed (s : DeviceMemoryManager) (x ptr size : ℕ) : Prop := ∀ j < size, s.getPointer (x + j) = some (ptr + j)

variable {x page offset size address ptr done copyAmount destPointer srcPointer : ℕ}

theorem getPointer_of_page (hx : x = page * pageSize + offset) (hoffset : offset < pageSize) :
    s.getPointer x = if s.table page = 0 then none else some ((s.table page - 1) * pageSize + offset) := by
  have hpage : x / pageSize = page := by
    rw [hx, Nat.add_comm, Nat.add_mul_div_right _ _ (by decide), Nat.div_eq_of_lt hoffset, Nat.zero_add]
  have hrest : x % pageSize = offset := by
    rw [hx, Nat.add_comm, Nat.add_mul_mod_self_right, Nat.mod_eq_of_lt hoffset]
  have htable : (s.entries page).compressedPhysicalPtr = s.table page := rfl
  simp only [getPointer, hpage, hrest, htable]

/-- A byte of a run is in one of its pages. -/
theorem run_byte (page : ℕ) {j run : ℕ} (hj : offset + j < run * pageSize) : ∃ k rest, k < run ∧ rest < pageSize ∧
    offset + j = k * pageSize + rest ∧ page * pageSize + offset + j = (page + k) * pageSize + rest := by
  refine ⟨(offset + j) / pageSize, (offset + j) % pageSize, Nat.div_lt_of_lt_mul (Nat.mul_comm _ _ ▸ hj),
    Nat.mod_lt _ (by decide), (Nat.div_add_mod' _ _).symm, ?_⟩
  have hsplit := Nat.div_add_mod' (offset + j) pageSize
  rw [Nat.add_mul]
  omega

theorem RunsAgree.hole (h : RunsAgree s) (hsize : offset + size ≤ s.continuityAt page * pageSize)
    (hpage : s.table page = 0) : s.Hole (page * pageSize + offset) size := by
  intro j hj
  obtain ⟨k, rest, hk, hrest, -, hx⟩ := run_byte page (by omega : offset + j < s.continuityAt page * pageSize)
  rw [getPointer_of_page hx hrest, h page k hk, if_pos hpage, if_pos rfl]

theorem RunsAgree.backed (h : RunsAgree s) (hsize : offset + size ≤ s.continuityAt page * pageSize)
    (hpage : s.table page ≠ 0) : s.Backed (page * pageSize + offset) ((s.table page - 1) * pageSize + offset) size := by
  intro j hj
  obtain ⟨k, rest, hk, hrest, hplace, hx⟩ := run_byte page (by omega : offset + j < s.continuityAt page * pageSize)
  rw [getPointer_of_page hx hrest, h page k hk, if_neg hpage, if_neg (by omega)]
  have hnext : s.table page + k - 1 = s.table page - 1 + k := by omega
  rw [hnext, Nat.add_mul]
  refine congrArg some ?_
  omega

section

variable (h : RunsAgree s) {σ : Type} {onUnmapped onMemory : ℕ → ℕ → σ → σ} {increment : ℕ → σ → σ} {P : ℕ → σ → Prop}
  (hhole : ∀ done copyAmount state, 0 < copyAmount → P done state → s.Hole (address + done) copyAmount →
    P (done + copyAmount) (increment copyAmount (onUnmapped copyAmount (address + done) state)))
  (hbacked : ∀ done copyAmount ptr state, P done state → s.Backed (address + done) ptr copyAmount →
    P (done + copyAmount) (increment copyAmount (onMemory copyAmount ptr state)))
include h hhole hbacked

/-- **The rule of the walk.** What each turn keeps, over a hole or over contiguous bytes, holds of the
whole range. -/
theorem RunsAgree.walkBlock (fuel done : ℕ) {remaining : ℕ} {state : σ} (hfuel : remaining ≤ fuel) (hoffset : offset < pageSize)
    (hdone : done + remaining = size) (hplace : 0 < remaining → page * pageSize + offset = address + done)
    (hstate : P done state) : P size (s.walkBlock onUnmapped onMemory increment fuel page offset remaining state) := by
  induction fuel generalizing page offset remaining done state with
  | zero =>
    rw [DeviceMemoryManager.walkBlock]
    obtain rfl : done = size := by omega
    exact hstate
  | succ fuel ih =>
    rw [DeviceMemoryManager.walkBlock]
    by_cases hremaining : remaining = 0
    · rw [if_pos hremaining]
      obtain rfl : done = size := by omega
      exact hstate
    · rw [if_neg hremaining]
      dsimp only
      have hrun := s.continuityAt_pos page
      have hroom : pageSize ≤ s.continuityAt page * pageSize := Nat.le_mul_of_pos_left _ hrun
      have hat := hplace (Nat.pos_of_ne_zero hremaining)
      generalize hcopy : min (s.continuityAt page * pageSize - offset) remaining = copyAmount
      have hfits : offset + copyAmount ≤ s.continuityAt page * pageSize := by omega
      refine ih (done + copyAmount) (by omega) (by decide) (by omega) (fun hleft => ?_) ?_
      · rw [Nat.add_mul]
        omega
      · rw [hat]
        have htable : (s.entries page).compressedPhysicalPtr = s.table page := rfl
        rw [htable]
        by_cases hpage : s.table page = 0
        · rw [if_pos hpage]
          exact hhole done copyAmount state (by omega) hstate (hat ▸ h.hole hfits hpage)
        · rw [if_neg hpage]
          exact hbacked done copyAmount _ state hstate (hat ▸ h.backed hfits hpage)

/-- The walk over a block, from its first byte. -/
theorem RunsAgree.walkBlock_start {state : σ} (hstate : P 0 state) :
    P size (s.walkBlock onUnmapped onMemory increment size (address / pageSize) (address % pageSize) size state) :=
  h.walkBlock hhole hbacked size 0 (Nat.le_refl size) (Nat.mod_lt _ (by decide)) (Nat.zero_add size)
    (fun _ => Nat.div_add_mod' address pageSize) hstate

end

/-! ### What a block comes to -/

theorem holes_add (s : DeviceMemoryManager) (address m n : ℕ) :
    s.holes address (m + n) = s.holes address m ++ s.holes (address + m) n := by
  rw [holes, range_add, map_append, filter_append, map_map]
  rw [holes, holes]
  congr 3
  funext j
  exact Nat.add_assoc address m j |>.symm

theorem Hole.holes (h : s.Hole x size) : s.holes x size = (List.range size).map (x + ·) := by
  rw [DeviceMemoryManager.holes, filter_eq_self]
  intro y hy
  obtain ⟨j, hj, rfl⟩ := mem_map.mp hy
  exact decide_eq_true (h j (mem_range.mp hj))

theorem Backed.holes (h : s.Backed x ptr size) : s.holes x size = [] := by
  rw [DeviceMemoryManager.holes, filter_eq_nil_iff]
  intro y hy hnone
  obtain ⟨j, hj, rfl⟩ := mem_map.mp hy
  have hnone := of_decide_eq_true hnone
  rw [h j (mem_range.mp hj)] at hnone
  cases hnone

/-- A hole of at least a byte, behind the bytes that are done. -/
theorem Hole.report (h : s.Hole (address + done) copyAmount) (hpos : 0 < copyAmount) :
    (s.report address done).hole copyAmount (address + done) = s.report address (done + copyAmount) := by
  have hholes := holes_add s address done copyAmount
  rw [h.holes] at hholes
  obtain ⟨n, rfl⟩ : ∃ n, copyAmount = n + 1 := ⟨copyAmount - 1, by omega⟩
  rw [DeviceMemoryReadResult.hole, DeviceMemoryManager.report, DeviceMemoryManager.report, hholes]
  cases s.holes address done with
  | nil => simp [range_succ_eq_map]
  | cons x xs => simp [Nat.add_right_comm]

theorem Backed.report (h : s.Backed (address + done) ptr copyAmount) :
    s.report address (done + copyAmount) = s.report address done := by
  have hholes := holes_add s address done copyAmount
  rw [h.holes, append_nil] at hholes
  rw [DeviceMemoryManager.report, DeviceMemoryManager.report, hholes]

theorem memcpy_extend (dest src : Memory) (destPointer srcPointer m n : ℕ) :
    memcpy (memcpy dest destPointer src srcPointer m) (destPointer + m) src (srcPointer + m) n =
      memcpy dest destPointer src srcPointer (m + n) := by
  funext x
  simp only [memcpy]
  by_cases htail : destPointer + m ≤ x ∧ x < destPointer + m + n
  · rw [if_pos htail, if_pos (by omega)]
    congr 1
    omega
  · rw [if_neg htail]
    by_cases hhead : destPointer ≤ x ∧ x < destPointer + m
    · rw [if_pos hhead, if_pos (by omega)]
    · rw [if_neg hhead, if_neg (by omega)]

/-- Copies that read the same bytes. -/
theorem memcpy_congr {dest src src' : Memory} {srcPointer' : ℕ}
    (h : ∀ j < size, src (srcPointer + j) = src' (srcPointer' + j)) :
    memcpy dest destPointer src srcPointer size = memcpy dest destPointer src' srcPointer' size := by
  funext x
  simp only [memcpy]
  by_cases hx : destPointer ≤ x ∧ x < destPointer + size
  · rw [if_pos hx, if_pos hx]
    exact h (x - destPointer) (by omega)
  · rw [if_neg hx, if_neg hx]

theorem memset_eq_memcpy {dest src : Memory} {value : BitVec 8} (h : ∀ j < size, src (srcPointer + j) = value) :
    memset dest destPointer value size = memcpy dest destPointer src srcPointer size := by
  have hset : memset dest destPointer value size = memcpy dest destPointer (fun _ => value) 0 size := rfl
  rw [hset]
  exact memcpy_congr fun j hj => (h j hj).symm

/-- A block operation whose first bytes are done. -/
structure Progress (s : DeviceMemoryManager) (address pointer : ℕ) (target : ℕ → Memory) (done : ℕ) (b : BlockState) : Prop where
  result : b.result = s.report address done
  target : b.target = target done
  pointer : b.pointer = pointer + done

theorem RunsAgree.readBlockUnsafe (h : RunsAgree s) (physical : Memory) (address : ℕ) (dest : Memory) (destPointer size : ℕ) :
    s.Progress address destPointer (memcpy dest destPointer (s.byteAt physical) address) size
      (s.readBlockUnsafe physical address dest destPointer size) := by
  refine h.walkBlock_start (P := s.Progress address destPointer (memcpy dest destPointer (s.byteAt physical) address))
    (fun done copyAmount b hpos hb hhole => ?_) (fun done copyAmount ptr b hb hbacked => ?_) ?_
  · refine ⟨hb.result ▸ hhole.report hpos, ?_, ?_⟩
    · rw [← memcpy_extend, ← hb.target, ← hb.pointer]
      refine memset_eq_memcpy fun j hj => ?_
      rw [byteAt, hhole j hj, Option.elim_none]
    · rw [← Nat.add_assoc, ← hb.pointer]
  · refine ⟨hb.result.trans hbacked.report.symm, ?_, ?_⟩
    · rw [← memcpy_extend, ← hb.target, ← hb.pointer]
      refine memcpy_congr fun j hj => ?_
      rw [byteAt, hbacked j hj, Option.elim_some]
    · rw [← Nat.add_assoc, ← hb.pointer]
  · refine ⟨rfl, ?_, rfl⟩
    funext x
    rw [memcpy, if_neg (by omega), BlockState.start]

theorem storeBytes_add (s : DeviceMemoryManager) (physical : Memory) (address : ℕ) (src : Memory) (srcPointer m n : ℕ) :
    s.storeBytes physical address src srcPointer (m + n) =
      s.storeBytes (s.storeBytes physical address src srcPointer m) (address + m) src (srcPointer + m) n := by
  rw [storeBytes, range_add, foldl_append, foldl_map]
  simp only [storeBytes, Nat.add_assoc]

theorem Hole.storeBytes (h : s.Hole x size) (physical src : Memory) (srcPointer : ℕ) :
    s.storeBytes physical x src srcPointer size = physical := by
  induction size with
  | zero => rfl
  | succ size ih =>
    rw [storeBytes_add, ih fun j hj => h j (by omega)]
    have hlast := h size (by omega)
    simp [DeviceMemoryManager.storeBytes, storeByte, hlast]

theorem Backed.storeBytes (h : s.Backed x ptr size) (physical src : Memory) (srcPointer : ℕ) :
    s.storeBytes physical x src srcPointer size = memcpy physical ptr src srcPointer size := by
  induction size with
  | zero =>
    funext y
    rw [memcpy, if_neg (by omega)]
    rfl
  | succ size ih =>
    rw [storeBytes_add, ih fun j hj => h j (by omega), ← memcpy_extend]
    have hlast := h size (by omega)
    funext y
    simp only [DeviceMemoryManager.storeBytes, storeByte, memcpy, Function.update_apply, range_one, foldl_cons,
      foldl_nil, Nat.add_zero, hlast, Option.elim_some]
    by_cases hy : y = ptr + size
    · rw [if_pos hy, if_pos (by omega), hy, Nat.sub_self, Nat.add_zero]
    · have hother : ¬ (ptr + size ≤ y ∧ y < ptr + size + 1) := by omega
      rw [if_neg hy, if_neg hother]

theorem RunsAgree.writeBlockUnsafe (h : RunsAgree s) (physical : Memory) (address : ℕ) (src : Memory) (srcPointer size : ℕ) :
    s.Progress address srcPointer (s.storeBytes physical address src srcPointer) size
      (s.writeBlockUnsafe physical address src srcPointer size) := by
  refine h.walkBlock_start (P := s.Progress address srcPointer (s.storeBytes physical address src srcPointer))
    (fun done copyAmount b hpos hb hhole => ?_) (fun done copyAmount ptr b hb hbacked => ?_) ⟨rfl, rfl, rfl⟩
  · refine ⟨hb.result ▸ hhole.report hpos, ?_, ?_⟩
    · rw [storeBytes_add, hhole.storeBytes]
      exact hb.target
    · rw [← Nat.add_assoc, ← hb.pointer]
  · refine ⟨hb.result.trans hbacked.report.symm, ?_, ?_⟩
    · rw [storeBytes_add, hbacked.storeBytes, ← hb.target, ← hb.pointer]
    · rw [← Nat.add_assoc, ← hb.pointer]

theorem RunsAgree.getSpan (h : RunsAgree s) (hspan : s.getSpan address size = some ptr) :
    ∀ j < size, s.getPointer (address + j) = some (ptr + j) := by
  rw [DeviceMemoryManager.getSpan] at hspan
  split at hspan
  · rename_i hfits
    have hplace := Nat.div_add_mod' address pageSize
    have hpointer := s.getPointer_of_page hplace.symm (Nat.mod_lt _ (by decide))
    rw [hspan] at hpointer
    split at hpointer
    · cases hpointer
    · rename_i hpage
      rw [Option.some.inj hpointer]
      have hbacked := h.backed (by omega : address % pageSize + size ≤ _) hpage
      rw [hplace] at hbacked
      exact hbacked
  · cases hspan

/-- Where the runs agree with the table, so does all that relies on them. -/
theorem RunsAgree.faithful (h : RunsAgree s) : Faithful s where
  read physical address dest destPointer size :=
    ⟨(h.readBlockUnsafe physical address dest destPointer size).result,
      (h.readBlockUnsafe physical address dest destPointer size).target⟩
  write physical address src srcPointer size :=
    ⟨(h.writeBlockUnsafe physical address src srcPointer size).result,
      (h.writeBlockUnsafe physical address src srcPointer size).target⟩
  span _ _ _ := h.getSpan

/-! ### Where the runs do not agree -/

/-- A block within one run takes one turn. -/
theorem readBlockUnsafe_one (physical dest : Memory) (page size destPointer : ℕ) (hpos : 0 < size)
    (hsize : size ≤ s.continuityAt page * pageSize) :
    (s.readBlockUnsafe physical (page * pageSize) dest destPointer size).target =
      if s.table page = 0 then memset dest destPointer 0 size
      else memcpy dest destPointer physical ((s.table page - 1) * pageSize) size := by
  obtain ⟨n, rfl⟩ : ∃ n, size = n + 1 := ⟨size - 1, by omega⟩
  have hcopy : min (s.continuityAt page * pageSize - 0) (n + 1) = n + 1 := by omega
  have htable : (s.entries page).compressedPhysicalPtr = s.table page := rfl
  have hdone {σ : Type} (onUnmapped onMemory : ℕ → ℕ → σ → σ) (increment : ℕ → σ → σ) (fuel page : ℕ) (state : σ) :
      s.walkBlock onUnmapped onMemory increment fuel page 0 0 state = state := by
    cases fuel with
    | zero => rfl
    | succ fuel => rw [walkBlock, if_pos rfl]
  rw [readBlockUnsafe, Nat.mul_div_cancel _ (by decide), Nat.mul_mod_left, walkBlock, if_neg (Nat.succ_ne_zero n)]
  simp only [hcopy, htable, Nat.sub_self, hdone, Nat.add_zero, BlockState.start]
  split
  · rfl
  · rfl

/-- A table whose blocks are read as it says has runs that agree with it. -/
theorem Faithful.runsAgree (h : Faithful s) : RunsAgree s := by
  intro page k hk
  -- the last page of the block, by its first byte
  have hsize : (k + 1) * pageSize ≤ s.continuityAt page * pageSize := Nat.mul_le_mul_right _ hk
  have hplace : page * pageSize + k * pageSize = (page + k) * pageSize + 0 := by rw [Nat.add_mul, Nat.add_zero]
  have hin : 0 ≤ k * pageSize ∧ k * pageSize < 0 + (k + 1) * pageSize := by
    rw [Nat.add_mul, Nat.one_mul]
    exact ⟨Nat.zero_le _, by simp [pageSize]⟩
  have hread (physical : Memory) : (if s.table page = 0 then 0 else physical ((s.table page - 1) * pageSize + k * pageSize)) =
      s.byteAt physical ((page + k) * pageSize) := by
    have hone := s.readBlockUnsafe_one physical (fun _ => 0) page ((k + 1) * pageSize) 0 (by simp [pageSize]) hsize
    rw [(h.read physical (page * pageSize) (fun _ => 0) 0 ((k + 1) * pageSize)).2] at hone
    have hbyte := congrFun hone (k * pageSize)
    rw [memcpy, if_pos hin, Nat.sub_zero, hplace, Nat.add_zero] at hbyte
    rw [hbyte]
    split
    · rw [memset, if_pos hin]
    · rw [memcpy, if_pos hin, Nat.sub_zero]
  have hpointer := s.getPointer_of_page (x := (page + k) * pageSize) (Nat.add_zero _).symm (by decide)
  by_cases hpage : s.table page = 0
  · rw [if_pos hpage]
    by_contra hmapped
    have hbyte := hread fun _ => 1
    rw [if_pos hpage, byteAt, hpointer, if_neg hmapped, Option.elim_some] at hbyte
    exact absurd hbyte (by decide)
  · rw [if_neg hpage]
    -- memory with a single byte that is not zero
    have hbyte := hread fun x => if x = (s.table page - 1) * pageSize + k * pageSize then 1 else 0
    rw [if_neg hpage, if_pos rfl, byteAt, hpointer] at hbyte
    by_cases hmapped : s.table (page + k) = 0
    · rw [if_pos hmapped, Option.elim_none] at hbyte
      exact absurd hbyte (by decide)
    · rw [if_neg hmapped, Option.elim_some] at hbyte
      split at hbyte
      · rename_i hsame
        rw [Nat.add_zero, ← Nat.add_mul] at hsame
        have hpages := Nat.eq_of_mul_eq_mul_right (by decide) hsame
        omega
      · exact absurd hbyte (by decide)

end DeviceMemoryManager
end DeviceMemory
end Core
end Citron
