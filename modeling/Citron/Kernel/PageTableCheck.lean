/-
# The checks before an update, and how many blocks they ask for

`KPageTableBase::CheckMemoryState` and `CheckMemoryStateContiguous`
(k_page_table_base.cpp) walk over the blocks of a range and report how many
blocks an update of the range may need: one for each end of the range that
lies inside a block. An update allocator with that many blocks never has to
give one when it has none left (`checkMemoryState_allocate`).
-/
import Citron.Kernel.MemoryBlockUpdate

namespace Citron
namespace Kernel

open Lib List

/-! ### The checks -/

/-- alignment.h -/
def alignDown (value size : ℕ) : ℕ := value - value % size

def alignUp (value size : ℕ) : ℕ :=
  if value % size = 0 then value - value % size else value - value % size + size

inductive CheckError
  | invalidCurrentMemory
  | fault (f : Fault)
deriving DecidableEq, Repr

/-- The masks of a check and what is to be found under them. -/
structure MemoryStateTest where
  stateMask : KMemoryState
  state : KMemoryState
  permMask : KMemoryPermission
  perm : KMemoryPermission
  attrMask : KMemoryAttribute
  attr : KMemoryAttribute
deriving DecidableEq, Repr

/-- `CheckMemoryState(info, …)`: "Validate the states match expectation." -/
def MemoryStateTest.check (t : MemoryStateTest) (info : KMemoryBlock) : Bool :=
  info.memoryState &&& t.stateMask == t.state && info.permission &&& t.permMask == t.perm &&
    info.memoryAttribute &&& t.attrMask == t.attr

/-- The loop of the checks, over the nodes from the iterator on: the block that
holds the last address, if every block up to it is `valid`. -/
def checkBlocks (valid : KMemoryBlock → Bool) (lastAddr : ℕ) :
    List KMemoryBlock → Except CheckError KMemoryBlock
  | [] => .error (.fault .nullNode)
  | info :: rest =>
    if valid info then
      if lastAddr ≤ info.getLastAddress then .ok info else checkBlocks valid lastAddr rest
    else .error .invalidCurrentMemory

namespace KMemoryBlockManager

def checkMemoryStateContiguous (m : KMemoryBlockManager) (addr size : ℕ) (t : MemoryStateTest) :
    Except CheckError ℕ :=
  let lastAddr := addr + size - 1
  match (findIterator m.tree addr).rest with
  | [] => .error (.fault .nullNode)
  | first :: rest => do
    let blocksForStartAlign := if alignDown addr PageSize ≠ first.address then 1 else 0
    let last ← checkBlocks t.check lastAddr (first :: rest)
    let blocksForEndAlign := if alignUp (addr + size) PageSize ≠ last.getEndAddress then 1 else 0
    return blocksForStartAlign + blocksForEndAlign

/-- What `CheckMemoryState` writes to its four output pointers. -/
structure CheckedState where
  state : KMemoryState
  perm : KMemoryPermission
  attr : KMemoryAttribute
  blocksNeeded : ℕ
deriving DecidableEq, Repr

/-- The overload that is given an iterator. -/
def checkMemoryStateFrom (it : Iterator) (lastAddr : ℕ) (t : MemoryStateTest)
    (ignoreAttr : KMemoryAttribute) : Except CheckError CheckedState :=
  match it.rest with
  | [] => .error (.fault .nullNode)
  | first :: rest => do
    let valid (info : KMemoryBlock) : Bool :=
      info.memoryState == first.memoryState && info.permission == first.permission &&
        info.memoryAttribute ||| ignoreAttr == first.memoryAttribute ||| ignoreAttr && t.check info
    let last ← checkBlocks valid lastAddr (first :: rest)
    return {
      state := first.memoryState
      perm := first.permission
      attr := first.memoryAttribute &&& ~~~ignoreAttr
      blocksNeeded := if alignDown lastAddr PageSize + PageSize ≠ last.getEndAddress then 1 else 0 }

def checkMemoryState (m : KMemoryBlockManager) (addr size : ℕ) (t : MemoryStateTest)
    (ignoreAttr : KMemoryAttribute) : Except CheckError CheckedState := do
  let it := findIterator m.tree addr
  let out ← checkMemoryStateFrom it (addr + size - 1) t ignoreAttr
  match it.rest with
  | [] => .error (.fault .nullNode)
  | first :: _ =>
    return if alignDown addr PageSize ≠ first.address then
      { out with blocksNeeded := out.blocksNeeded + 1 } else out

end KMemoryBlockManager

/-! ### What an accepted range says about the tree -/

section Accepted

variable {m : KMemoryBlockManager} {addr size lastAddr : ℕ}

variable {n e needed : ℕ}

theorem alignDown_of_dvd (h : PageSize ∣ n) : alignDown n PageSize = n := by
  simp [alignDown, Nat.mod_eq_zero_of_dvd h]

theorem alignUp_of_dvd (h : PageSize ∣ n) : alignUp n PageSize = n := by
  simp [alignUp, Nat.mod_eq_zero_of_dvd h]

/-- The last page of a range that ends on a page border. -/
theorem alignDown_last (h : PageSize ∣ n) (hn : 0 < n) :
    alignDown (n - 1) PageSize + PageSize = n := by
  obtain ⟨k, rfl⟩ := h
  simp only [alignDown, PageSize] at hn ⊢
  omega

variable {last first : KMemoryBlock} {valid : KMemoryBlock → Bool}

/-- The loop ends at the block that holds the last address. -/
theorem checkBlocks_eq_ok :
    ∀ {l : List KMemoryBlock} {a : ℕ}, Spans a l e → a ≤ lastAddr →
      checkBlocks valid lastAddr l = .ok last →
      last ∈ l ∧ last.address ≤ lastAddr ∧ lastAddr < last.getEndAddress
  | [], _, _, _, h => by cases h
  | b :: l, a, ⟨h1, h2, h3⟩, ha, h => by
    have hlast : b.getLastAddress + 1 = b.getEndAddress := by
      unfold KMemoryBlock.getLastAddress; omega
    unfold checkBlocks at h
    split_ifs at h with hv hl
    · obtain rfl := Except.ok.inj h
      exact ⟨by simp, by omega, by omega⟩
    · obtain ⟨h4, h5, h6⟩ := checkBlocks_eq_ok h3 (by omega) h
      exact ⟨mem_cons_of_mem _ h4, h5, h6⟩

/-- A border between blocks cuts none. -/
theorem not_cutsBlock_border {a x : ℕ} {l₁ l₂ : List KMemoryBlock} (h₁ : Spans a l₁ x)
    (h₂ : Spans x l₂ e) : ¬ CutsBlock (l₁ ++ l₂) x := by
  rintro ⟨b, hb, hlt, hgt⟩
  rcases mem_append.mp hb with hb | hb
  · have := (h₁.bounds b hb).2.2
    omega
  · have := (h₂.bounds b hb).1
    omega

variable {rest : List KMemoryBlock}

/-- The iterator that `FindIterator` gives is the block that holds the address. -/
theorem findIterator_cons (hm : WellFormed m) (h : (findIterator m.tree addr).rest = first :: rest) :
    ∃ before, m.tree = before ++ first :: rest ∧ first.address ≤ addr ∧
      addr < first.getEndAddress := by
  set key := KMemoryBlock.ofRange addr 1 .free .none .none with hkey
  have hdrop : m.tree.dropWhile (fun b => key.compare b != .eq) = first :: rest := h
  have htree : m.tree = m.tree.takeWhile (fun b => key.compare b != .eq) ++ first :: rest := by
    rw [← hdrop, takeWhile_append_dropWhile]
  have hlt : first.address < first.getEndAddress :=
    (hm.spans.bounds first (htree ▸ mem_append_right _ (by simp))).2.1
  have heq : key.compare first = .eq := by
    have := head_dropWhile_not (fun b => key.compare b != .eq) (by rw [hdrop]; simp)
    simpa [hdrop] using this
  refine ⟨_, htree, ?_⟩
  have haddr : key.address = addr := rfl
  simp only [KMemoryBlock.compare, haddr, KMemoryBlock.getLastAddress] at heq
  split_ifs at heq with h1 h2
  omega

/-- An end of the range that is a border of the block there needs no split. -/
theorem splitsNeeded_le (hm : WellFormed m) (hfirst : first ∈ m.tree) (hlast : last ∈ m.tree) :
    splitsNeeded m addr n ≤ (if addr ≠ first.address then 1 else 0) +
      (if addr + n * PageSize ≠ last.getEndAddress then 1 else 0) := by
  have hstart : addr = first.address → ¬ CutsBlock m.tree addr := by
    rintro rfl
    obtain ⟨l₁, l₂, htree⟩ := append_of_mem hfirst
    obtain ⟨x, h1, h2⟩ := tiles_append.mp (htree ▸ hm.spans)
    obtain rfl := h2.1
    exact htree ▸ not_cutsBlock_border h1 h2
  have hend : addr + n * PageSize = last.getEndAddress → ¬ CutsBlock m.tree (addr + n * PageSize) := by
    intro h
    obtain ⟨l₁, l₂, htree⟩ := append_of_mem hlast
    have htree' : m.tree = (l₁ ++ [last]) ++ l₂ := by rw [htree]; simp
    obtain ⟨x, h1, h2⟩ := tiles_append.mp (htree' ▸ hm.spans)
    obtain ⟨_, -, h3⟩ := tiles_append.mp h1
    obtain rfl : last.getEndAddress = x := h3.2.2
    rw [h]
    exact htree' ▸ not_cutsBlock_border h1 h2
  unfold splitsNeeded
  by_cases h1 : addr = first.address
  · rw [if_neg (hstart h1), if_neg (not_not.mpr h1)]
    by_cases h2 : addr + n * PageSize = last.getEndAddress
    · rw [if_neg (hend h2), if_neg (not_not.mpr h2)]
    · rw [if_pos h2]
      split_ifs <;> omega
  · rw [if_pos h1]
    by_cases h2 : addr + n * PageSize = last.getEndAddress
    · rw [if_neg (hend h2), if_neg (not_not.mpr h2)]
      split_ifs <;> omega
    · rw [if_pos h2]
      split_ifs <;> omega

/-- What both checks find out about an accepted range: the block of its first
address, the block of its last one, and how many blocks to ask for. -/
structure Accepted (m : KMemoryBlockManager) (addr size needed : ℕ) : Prop where
  blocks : ∃ first ∈ m.tree, ∃ last ∈ m.tree, first.address ≤ addr ∧ addr < first.getEndAddress ∧
    last.address ≤ addr + size - 1 ∧ addr + size - 1 < last.getEndAddress ∧
    needed = (if addr ≠ first.address then 1 else 0) + (if addr + size ≠ last.getEndAddress then 1 else 0)

theorem checkBlocks_last (hm : WellFormed m)
    (hfind : (findIterator m.tree addr).rest = first :: rest) (hle : addr ≤ lastAddr)
    (hlast : checkBlocks valid lastAddr (first :: rest) = .ok last) :
    first ∈ m.tree ∧ last ∈ m.tree ∧ first.address ≤ addr ∧ addr < first.getEndAddress ∧
      last.address ≤ lastAddr ∧ lastAddr < last.getEndAddress := by
  obtain ⟨before, htree, h1, h2⟩ := findIterator_cons hm hfind
  obtain ⟨x, -, h3⟩ := tiles_append.mp (htree ▸ hm.spans)
  have hx : x = first.address := h3.1.symm
  obtain ⟨h4, h5, h6⟩ := checkBlocks_eq_ok h3 (by omega) hlast
  rw [htree]
  exact ⟨mem_append_right _ (by simp), mem_append_right _ h4, h1, h2, h5, h6⟩

theorem accepted_of_checkMemoryStateContiguous {t : MemoryStateTest} (hm : WellFormed m)
    (ha : PageSize ∣ addr) (hs : PageSize ∣ size) (hpos : 0 < size)
    (h : m.checkMemoryStateContiguous addr size t = .ok needed) : Accepted m addr size needed := by
  unfold KMemoryBlockManager.checkMemoryStateContiguous at h
  cases hfind : (findIterator m.tree addr).rest with
  | nil => rw [hfind] at h; cases h
  | cons first rest =>
    rw [hfind] at h
    cases hlast : checkBlocks t.check (addr + size - 1) (first :: rest) with
    | error e => simp [hlast, bind, Except.bind] at h
    | ok last =>
      simp only [hlast, bind, Except.bind, pure, Except.pure, Except.ok.injEq, alignDown_of_dvd ha,
        alignUp_of_dvd (Nat.dvd_add ha hs)] at h
      obtain ⟨h1, h2, h3, h4, h5, h6⟩ := checkBlocks_last hm hfind (by omega) hlast
      exact ⟨first, h1, last, h2, h3, h4, h5, h6, h.symm⟩

theorem accepted_of_checkMemoryState {t : MemoryStateTest} {ignoreAttr : KMemoryAttribute}
    {out : KMemoryBlockManager.CheckedState} (hm : WellFormed m) (ha : PageSize ∣ addr)
    (hs : PageSize ∣ size) (hpos : 0 < size)
    (h : m.checkMemoryState addr size t ignoreAttr = .ok out) :
    Accepted m addr size out.blocksNeeded := by
  unfold KMemoryBlockManager.checkMemoryState KMemoryBlockManager.checkMemoryStateFrom at h
  cases hfind : (findIterator m.tree addr).rest with
  | nil => simp [hfind, bind, Except.bind] at h
  | cons first rest =>
    simp only [hfind] at h
    set valid : KMemoryBlock → Bool := fun info =>
      info.memoryState == first.memoryState && info.permission == first.permission &&
        info.memoryAttribute ||| ignoreAttr == first.memoryAttribute ||| ignoreAttr && t.check info
    cases hlast : checkBlocks valid (addr + size - 1) (first :: rest) with
    | error e => simp [hlast, bind, Except.bind] at h
    | ok last =>
      simp only [hlast, bind, Except.bind, pure, Except.pure, Except.ok.injEq, alignDown_of_dvd ha,
        alignDown_last (Nat.dvd_add ha hs) (by omega)] at h
      obtain ⟨h1, h2, h3, h4, h5, h6⟩ := checkBlocks_last hm hfind (by omega) hlast
      refine ⟨first, h1, last, h2, h3, h4, h5, h6, ?_⟩
      rw [← h]
      split_ifs <;> simp

theorem Accepted.inRange (hm : WellFormed m) (ha : PageSize ∣ addr) (hs : PageSize ∣ size)
    (hpos : 0 < size) (h : Accepted m addr size needed) : InRange m addr (size / PageSize) := by
  obtain ⟨first, hf, last, hl, h1, h2, h3, h4, -⟩ := h.blocks
  have hfb := hm.spans.bounds first hf
  have hlb := hm.spans.bounds last hl
  have hsize : size / PageSize * PageSize = size := Nat.div_mul_cancel hs
  refine ⟨ha, Nat.div_pos (Nat.le_of_dvd hpos hs) (by decide), by omega, ?_⟩
  rw [hsize]
  omega

end Accepted

/-! ### The allocator -/

/-- The view that sees nothing. -/
def trivialView : BlockView Unit where
  good _ := True
  view _ _ := ()
  good_split _ _ _ := ⟨trivial, trivial⟩
  good_add _ _ _ _ _ := trivial
  view_left _ _ _ _ _ _ _ _ _ := rfl
  view_right _ _ _ _ _ _ _ _ _ := rfl
  view_add_left _ _ _ _ _ _ _ _ _ _ _ _ := rfl
  view_add_right _ _ _ _ _ _ _ _ _ _ _ _ := rfl

variable {m : KMemoryBlockManager} {addr size : ℕ}

/-- An operation with a block for every end of its range that lies inside a
block does not meet an empty allocator. -/
theorem run_ne_emptyAllocator (op : MemoryBlockOperation) (hm : WellFormed m)
    {allocator : KMemoryBlockManagerUpdateAllocator} {n : ℕ} (hr : InRange m addr n)
    (hroom : splitsNeeded m addr n ≤ allocator.blocks.length) :
    op.run m allocator addr n ≠ .error .emptyAllocator := by
  rw [op.run_eq]
  by_cases hbad : StartsInSkippedHead op.skips m addr
  · rw [updateRange_fault (op.change_keepsPlace addr n) hm hr hroom hbad]
    decide
  · obtain ⟨l, allocator', hrun, -⟩ := updateRange_spec op.skips trivialView (g := fun _ _ => ())
      (op.change_keepsPlace addr n) (fun _ _ _ _ _ _ _ _ => rfl) hm hr (fun _ _ => trivial) hroom hbad
    rw [hrun]
    exact fun h => nomatch h

/-- **The checks ask for enough.** If one of them accepts a range in a state of
a run, it reports at most the blocks an allocator can hold, and an update of
that range by an allocator with the reported number of blocks, or with more,
never allocates from an empty one. -/
theorem checkMemoryState_allocate (hm : Reaches m) (ha : PageSize ∣ addr) (hs : PageSize ∣ size)
    (hpos : 0 < size) {needed : ℕ}
    (hcheck : (∃ t, m.checkMemoryStateContiguous addr size t = .ok needed) ∨
      ∃ t ignoreAttr out, m.checkMemoryState addr size t ignoreAttr = .ok out ∧
        out.blocksNeeded = needed) :
    splitsNeeded m addr (size / PageSize) ≤ needed ∧
      needed ≤ KMemoryBlockManagerUpdateAllocator.maxBlocks ∧
      ∀ (op : MemoryBlockOperation) (allocator : KMemoryBlockManagerUpdateAllocator),
        needed ≤ allocator.blocks.length →
        op.run m allocator addr (size / PageSize) ≠ .error .emptyAllocator := by
  have hwf := hm.runInv.wellFormed
  have hacc : Accepted m addr size needed := by
    rcases hcheck with ⟨t, h⟩ | ⟨t, ignoreAttr, out, h, rfl⟩
    · exact accepted_of_checkMemoryStateContiguous hwf ha hs hpos h
    · exact accepted_of_checkMemoryState hwf ha hs hpos h
  obtain ⟨first, hf, last, hl, -, -, -, -, hneeded⟩ := hacc.blocks
  have hle : splitsNeeded m addr (size / PageSize) ≤ needed := by
    have : splitsNeeded m addr (size / PageSize) ≤ _ := splitsNeeded_le hwf hf hl
    rwa [Nat.div_mul_cancel hs, ← hneeded] at this
  refine ⟨hle, ?_, fun op allocator hall => ?_⟩
  · rw [hneeded]
    unfold KMemoryBlockManagerUpdateAllocator.maxBlocks
    split_ifs <;> omega
  · exact run_ne_emptyAllocator op hwf (hacc.inRange hwf ha hs hpos) (hle.trans hall)

/-- The check of four pages inside a fresh address space asks for two blocks. -/
theorem checkMemoryState_allocate_freshManager :
    freshManager.checkMemoryState 0x3000 0x4000 ⟨0, 0, 0, 0, 0, 0⟩ 0 = .ok ⟨0, 0, 0, 2⟩ ∧
      (MemoryBlockOperation.update 5 .none .none .none .none).run freshManager (.ofNumBlocks 2) 0x3000
        (0x4000 / PageSize) ≠ .error .emptyAllocator := by
  have hcheck : freshManager.checkMemoryState 0x3000 0x4000 ⟨0, 0, 0, 0, 0, 0⟩ 0 = .ok ⟨0, 0, 0, 2⟩ := by
    decide +kernel
  exact ⟨hcheck, (checkMemoryState_allocate reaches_freshManager (by decide) (by decide) (by decide)
    (.inr ⟨_, _, _, hcheck, rfl⟩)).2.2 _ _ (by decide)⟩

end Kernel
end Citron
