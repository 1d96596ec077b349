/-
# Page groups of a range

`MakePageGroup` walks the page table and lists the physical pages of a range in a page group, one block for each run of
consecutive pages; `IsValidPageGroup` walks it again and takes the runs it finds off the blocks. For a group that
`MakePageGroup` has made of a range that is not empty, the second finds it valid for just the ranges that map the same
physical pages (`isValidPageGroup_iff`). A range lies in the address space, so no size wraps; an entry whose `backing_addr`
is zero is not mapped, which is what the traversal tests.
-/
import Citron.Kernel.MemoryManager
import Citron.Lib.Runs

namespace Citron
namespace Kernel

open KPageHeap Lib List Option

/-! ### The page table -/

/-- `Common::PageTable` with its entries' `backing_addr`: the physical address less the virtual one, in 64 bits. It is zero
where nothing is mapped. Physical pages have numbers of 32 bits. -/
structure PageTable where
  entries : List ℕ
  aligned : ∀ backingAddr ∈ entries, PageSize ∣ backingAddr
  physical : ∀ page backingAddr, entries[page]? = some backingAddr → backingAddr ≠ 0 →
    (backingAddr + page * PageSize) % 2 ^ 64 < 2 ^ 44

structure TraversalEntry where
  physAddr : ℕ
  blockSize : ℕ

structure TraversalContext where
  nextPage : ℕ
  nextOffset : ℕ

namespace PageTable

variable (table : PageTable)

/-- `ContinueTraversal`: the entry, if it is mapped, and the context, which advances in any case. -/
def continueTraversal (context : TraversalContext) : Option TraversalEntry × TraversalContext :=
  let next : TraversalContext := ⟨context.nextPage + 1, context.nextOffset + PageSize⟩
  match table.entries[context.nextPage]? with
  | none => (none, next)
  | some backingAddr =>
    if backingAddr = 0 then (none, next) else (some ⟨(backingAddr + context.nextOffset) % 2 ^ 64, PageSize⟩, next)

/-- `BeginTraversal` -/
def beginTraversal (address : ℕ) : Option TraversalEntry × TraversalContext :=
  table.continueTraversal ⟨address / PageSize, address⟩

/-- The physical page that a page is mapped to. -/
def physicalPage (page : ℕ) : Option ℕ :=
  match table.entries[page]? with
  | none => none
  | some backingAddr => if backingAddr = 0 then none else some ((backingAddr + page * PageSize) % 2 ^ 64 / PageSize)

end PageTable

/-! ### `MakePageGroup` and `IsValidPageGroup` -/

inductive GroupResult
  | invalidCurrentMemory
  | outOfResource
deriving DecidableEq, Repr

/-- What both functions track. -/
structure GroupCursor where
  context : TraversalContext
  curAddr : ℕ
  curSize : ℕ
  totSize : ℕ

namespace GroupCursor

/-- The variables after `BeginTraversal`. -/
def start (entry : TraversalEntry) (context : TraversalContext) : GroupCursor :=
  let curSize := entry.blockSize - (entry.physAddr &&& (entry.blockSize - 1))
  ⟨context, entry.physAddr, curSize, curSize⟩

/-- The next entry goes on where the current ones end. -/
def extend (cur : GroupCursor) (entry : TraversalEntry) (context : TraversalContext) : GroupCursor :=
  ⟨context, cur.curAddr, cur.curSize + entry.blockSize, cur.totSize + entry.blockSize⟩

/-- The next entry starts elsewhere. -/
def restart (cur : GroupCursor) (entry : TraversalEntry) (context : TraversalContext) : GroupCursor :=
  ⟨context, entry.physAddr, entry.blockSize, cur.totSize + entry.blockSize⟩

/-- The right amount for the last block. -/
def lastSize (cur : GroupCursor) (size : ℕ) : ℕ :=
  if size < cur.totSize then cur.curSize - (cur.totSize - size) else cur.curSize

end GroupCursor

namespace PageTable

variable (table : PageTable) (isHeap : ℕ → Bool)

theorem blockSize_of_continueTraversal {context : TraversalContext} {entry : TraversalEntry}
    {next : TraversalContext} (h : table.continueTraversal context = (some entry, next)) : entry.blockSize = PageSize := by
  unfold continueTraversal at h
  split at h
  · cases h
  · split_ifs at h
    · cases h
    · obtain ⟨rfl, -⟩ := Prod.mk.inj h |>.imp_left Option.some.inj
      rfl

/-- `R_UNLESS(IsHeapPhysicalAddress(cur_addr))` and `R_TRY(pg.AddBlock(cur_addr, cur_pages))`. -/
def addHeapBlock (pg : KPageGroup) (curAddr curPages : ℕ) : Except GroupResult KPageGroup :=
  if isHeap curAddr then
    match pg.addBlock curAddr curPages with
    | none => .error .outOfResource
    | some pg => .ok pg
  else .error .invalidCurrentMemory

/-- The loop of `MakePageGroup`. -/
def makeLoop (size : ℕ) (pg : KPageGroup) (cur : GroupCursor) : Except GroupResult (KPageGroup × GroupCursor) :=
  if hlt : cur.totSize < size then
    match hnext : table.continueTraversal cur.context with
    | (none, _) => .error .invalidCurrentMemory
    | (some entry, context) =>
      have hdecreasing : size - (cur.totSize + entry.blockSize) < size - cur.totSize := by
        rw [table.blockSize_of_continueTraversal hnext]
        have hpos : 0 < PageSize := by decide
        omega
      if entry.physAddr ≠ cur.curAddr + cur.curSize then
        match addHeapBlock isHeap pg cur.curAddr (cur.curSize / PageSize) with
        | .error result => .error result
        | .ok pg => makeLoop size pg (cur.restart entry context)
      else makeLoop size pg (cur.extend entry context)
  else .ok (pg, cur)
termination_by size - cur.totSize

def makePageGroup (pg : KPageGroup) (addr numPages : ℕ) : Except GroupResult KPageGroup :=
  let size := numPages * PageSize
  if pg.blocks ≠ [] then .error .invalidCurrentMemory
  else
    match table.beginTraversal addr with
    | (none, _) => .error .invalidCurrentMemory
    | (some entry, context) =>
      match makeLoop table isHeap size pg (.start entry context) with
      | .error result => .error result
      -- Add the last block.
      | .ok (pg, cur) => addHeapBlock isHeap pg cur.curAddr (cur.lastSize size / PageSize)

/-- The block that the iterator is at, with what is left of it, and the blocks behind it. -/
structure BlockCursor where
  curBlockAddress : ℕ
  curBlockPages : ℕ
  rest : List KBlockInfo

/-- `UpdateCurrentIterator`; `none` is the end of the group. -/
def BlockCursor.updateCurrentIterator (it : BlockCursor) : Option BlockCursor :=
  if it.curBlockPages = 0 then
    match it.rest with
    | [] => none
    | block :: rest => some ⟨block.getAddress, block.numPages, rest⟩
  else some it

/-- The loop of `IsValidPageGroup`; `none` is `return false`. -/
def validLoop (size : ℕ) (it : BlockCursor) (cur : GroupCursor) : Option (BlockCursor × GroupCursor) :=
  if hlt : cur.totSize < size then
    match hnext : table.continueTraversal cur.context with
    | (none, _) => none
    | (some entry, context) =>
      have hdecreasing : size - (cur.totSize + entry.blockSize) < size - cur.totSize := by
        rw [table.blockSize_of_continueTraversal hnext]
        have hpos : 0 < PageSize := by decide
        omega
      if entry.physAddr ≠ cur.curAddr + cur.curSize then
        let curPages := cur.curSize / PageSize
        if isHeap cur.curAddr then
          match it.updateCurrentIterator with
          | none => none
          | some it =>
            if it.curBlockAddress ≠ cur.curAddr ∨ it.curBlockPages < curPages then none
            else
              validLoop size ⟨it.curBlockAddress + cur.curSize, it.curBlockPages - curPages, it.rest⟩
                (cur.restart entry context)
        else none
      else validLoop size it (cur.extend entry context)
  else some (it, cur)
termination_by size - cur.totSize

/-- The comparison of the last block. -/
def lastValid (size : ℕ) : Option (BlockCursor × GroupCursor) → Bool
  | none => false
  | some (it, cur) =>
    if isHeap cur.curAddr then
      match it.updateCurrentIterator with
      | none => false
      | some it => it.curBlockAddress = cur.curAddr ∧ it.curBlockPages = cur.lastSize size / PageSize
    else false

def isValidPageGroup (pg : KPageGroup) (addr numPages : ℕ) : Bool :=
  let size := numPages * PageSize
  match pg.blocks with
  | [] => false
  | block :: rest =>
    match table.beginTraversal addr with
    | (none, _) => false
    | (some entry, context) =>
      lastValid isHeap size
        (validLoop table isHeap size ⟨block.getAddress, block.numPages, rest⟩ (.start entry context))

/-! ### The walk of the table -/

variable {table isHeap} {page start count p t n k : ℕ} {ps : List ℕ} {pg pg' : KPageGroup}

/-- The physical pages from a page on. -/
def Maps (table : PageTable) : ℕ → List ℕ → Prop
  | _, [] => True
  | page, p :: ps => table.physicalPage page = some p ∧ Maps table (page + 1) ps

theorem maps_iff : ∀ {ps : List ℕ} {page : ℕ},
    Maps table page ps ↔ ∀ i < ps.length, table.physicalPage (page + i) = ps[i]?
  | [], page => by simp [Maps]
  | p :: ps, page => by
    rw [Maps, maps_iff]
    constructor
    · rintro ⟨hfirst, hrest⟩ i hi
      cases i with
      | zero => exact hfirst
      | succ i =>
        rw [getElem?_cons_succ, ← hrest i (Nat.lt_of_succ_lt_succ hi)]
        congr 1
        omega
    · intro h
      refine ⟨h 0 (Nat.succ_pos _), fun i hi => ?_⟩
      have hnext := h (i + 1) (Nat.succ_lt_succ hi)
      rw [getElem?_cons_succ] at hnext
      rw [← hnext]
      congr 1
      omega

theorem pageSize_dvd_mod {m : ℕ} (h : PageSize ∣ m) : PageSize ∣ m % 2 ^ 64 :=
  (Nat.dvd_mod_iff (by decide : PageSize ∣ 2 ^ 64)).mpr h

/-- The traversal of a page. -/
theorem continueTraversal_eq (page : ℕ) : table.continueTraversal ⟨page, page * PageSize⟩ =
    ((table.physicalPage page).map fun p => ⟨p * PageSize, PageSize⟩, ⟨page + 1, (page + 1) * PageSize⟩) := by
  have hoffset : page * PageSize + PageSize = (page + 1) * PageSize := (Nat.succ_mul _ _).symm
  unfold continueTraversal physicalPage
  simp only [hoffset]
  cases hentry : table.entries[page]? with
  | none => rfl
  | some backingAddr =>
    simp only
    split_ifs with hzero
    · rfl
    · have hdvd : PageSize ∣ (backingAddr + page * PageSize) % 2 ^ 64 :=
        pageSize_dvd_mod (Nat.dvd_add (table.aligned _ (mem_of_getElem? hentry)) (Nat.dvd_mul_left _ _))
      rw [map_some, Nat.div_mul_cancel hdvd]

/-- A cursor in pages: the next page, the run so far, and the number of all pages so far. -/
def cursorAt (page start count t : ℕ) : GroupCursor :=
  ⟨⟨page, page * PageSize⟩, start * PageSize, count * PageSize, t * PageSize⟩

theorem start_eq (page p : ℕ) :
    GroupCursor.start ⟨p * PageSize, PageSize⟩ ⟨page + 1, (page + 1) * PageSize⟩ = cursorAt (page + 1) p 1 1 := by
  have hland : p * PageSize &&& (PageSize - 1) = 0 := by
    have hmod : p * PageSize &&& (2 ^ 12 - 1) = p * PageSize % 2 ^ 12 := Nat.and_two_pow_sub_one_eq_mod _ _
    exact hmod.trans (Nat.mul_mod_left _ _)
  unfold GroupCursor.start cursorAt
  simp only [hland, Nat.sub_zero, Nat.one_mul]

theorem extend_eq : (cursorAt page start count t).extend ⟨p * PageSize, PageSize⟩ ⟨page + 1, (page + 1) * PageSize⟩ =
    cursorAt (page + 1) start (count + 1) (t + 1) := by
  unfold GroupCursor.extend cursorAt
  simp only [Nat.succ_mul]

theorem restart_eq : (cursorAt page start count t).restart ⟨p * PageSize, PageSize⟩ ⟨page + 1, (page + 1) * PageSize⟩ =
    cursorAt (page + 1) p 1 (t + 1) := by
  unfold GroupCursor.restart cursorAt
  simp only [Nat.succ_mul, Nat.zero_mul, Nat.zero_add]

theorem physAddr_ne_iff : p * PageSize ≠ start * PageSize + count * PageSize ↔ p ≠ start + count := by
  rw [← Nat.add_mul, Ne, Nat.mul_left_inj (by decide)]

/-! ### What `MakePageGroup` makes -/

/-- One step of the loop. -/
theorem makeLoop_step (ht : t < n) : makeLoop table isHeap (n * PageSize) pg (cursorAt page start count t) =
    match table.physicalPage page with
    | none => .error .invalidCurrentMemory
    | some p =>
      if p = start + count then
        makeLoop table isHeap (n * PageSize) pg (cursorAt (page + 1) start (count + 1) (t + 1))
      else
        match addHeapBlock isHeap pg (start * PageSize) count with
        | .error result => .error result
        | .ok pg => makeLoop table isHeap (n * PageSize) pg (cursorAt (page + 1) p 1 (t + 1)) := by
  have hlt : (cursorAt page start count t).totSize < n * PageSize := Nat.mul_lt_mul_of_pos_right ht (by decide)
  have hcontinue : table.continueTraversal (cursorAt page start count t).context = _ := continueTraversal_eq page
  have hpages : (cursorAt page start count t).curSize / PageSize = count := Nat.mul_div_cancel _ (by decide)
  rw [makeLoop, dif_pos hlt]
  split
  · next hnext =>
    rw [hcontinue] at hnext
    cases hp : table.physicalPage page with
    | none => rfl
    | some p => rw [hp] at hnext; cases hnext
  · next entry context hnext =>
    rw [hcontinue] at hnext
    cases hp : table.physicalPage page with
    | none => rw [hp] at hnext; cases hnext
    | some p =>
      rw [hp] at hnext
      obtain ⟨rfl, rfl⟩ := Prod.mk.inj hnext |>.imp_left Option.some.inj
      simp only
      rw [extend_eq, restart_eq, hpages]
      by_cases hrun : p = start + count
      · rw [if_neg (by rw [cursorAt, physAddr_ne_iff]; exact not_not_intro hrun), if_pos hrun]
      · rw [if_pos (by rw [cursorAt, physAddr_ne_iff]; exact hrun), if_neg hrun]
        rfl

theorem makeLoop_done (cur : GroupCursor) {size : ℕ} (h : size ≤ cur.totSize) :
    makeLoop table isHeap size pg cur = .ok (pg, cur) := by
  rw [makeLoop, dif_neg (by omega)]

/-- The blocks of some runs, added one after the other. -/
def addRuns (isHeap : ℕ → Bool) : KPageGroup → List (ℕ × ℕ) → Except GroupResult KPageGroup
  | pg, [] => .ok pg
  | pg, r :: rs =>
    match addHeapBlock isHeap pg (r.1 * PageSize) r.2 with
    | .error result => .error result
    | .ok pg => addRuns isHeap pg rs

/-- **The loop of `MakePageGroup`** with the block it leaves adds the runs of the physical pages. -/
theorem makeLoop_inv {cur : GroupCursor} : ∀ {k page start count t : ℕ} {pg made : KPageGroup}, t + k = n →
    makeLoop table isHeap (n * PageSize) pg (cursorAt page start count t) = .ok (made, cur) →
    addHeapBlock isHeap made cur.curAddr (cur.lastSize (n * PageSize) / PageSize) = .ok pg' →
    ∃ ps, ps.length = k ∧ Maps table page ps ∧ addRuns isHeap pg (runsFrom start count ps) = .ok pg'
  | 0, page, start, count, t, pg, made, ht, hloop, hlast => by
    obtain rfl : t = n := by omega
    have htotal : (cursorAt page start count t).totSize = t * PageSize := rfl
    rw [makeLoop_done _ htotal.ge] at hloop
    obtain ⟨rfl, rfl⟩ := Prod.mk.inj (Except.ok.inj hloop)
    refine ⟨[], rfl, trivial, ?_⟩
    have hsize : (cursorAt page start count t).lastSize (t * PageSize) / PageSize = count := by
      unfold GroupCursor.lastSize
      rw [if_neg htotal.not_gt]
      exact Nat.mul_div_cancel _ (by decide)
    have haddr : (cursorAt page start count t).curAddr = start * PageSize := rfl
    rw [hsize, haddr] at hlast
    rw [runsFrom, addRuns, hlast]
    rfl
  | k + 1, page, start, count, t, pg, made, ht, hloop, hlast => by
    rw [makeLoop_step (by omega)] at hloop
    cases hp : table.physicalPage page with
    | none =>
      rw [hp] at hloop
      cases hloop
    | some p =>
      rw [hp] at hloop
      simp only at hloop
      by_cases hrun : p = start + count
      · rw [if_pos hrun] at hloop
        obtain ⟨ps, hlength, hmaps, hadd⟩ := makeLoop_inv (by omega : t + 1 + k = n) hloop hlast
        refine ⟨p :: ps, by rw [length_cons, hlength], ⟨hp, hmaps⟩, ?_⟩
        rw [runsFrom, if_pos hrun, hadd]
      · rw [if_neg hrun] at hloop
        cases hblock : addHeapBlock isHeap pg (start * PageSize) count with
        | error result =>
          rw [hblock] at hloop
          cases hloop
        | ok next =>
          rw [hblock] at hloop
          obtain ⟨ps, hlength, hmaps, hadd⟩ := makeLoop_inv (by omega : t + 1 + k = n) hloop hlast
          refine ⟨p :: ps, by rw [length_cons, hlength], ⟨hp, hmaps⟩, ?_⟩
          rw [runsFrom, if_neg hrun, addRuns]
          simp only [hblock]
          exact hadd

theorem makePageGroup_inv {page n : ℕ} (h : makePageGroup table isHeap pg (page * PageSize) n = .ok pg') (hn : 0 < n) :
    pg.blocks = [] ∧ ∃ ps, ps.length = n ∧ Maps table page ps ∧ addRuns isHeap pg (runs ps) = .ok pg' := by
  have hbegin : table.beginTraversal (page * PageSize) = table.continueTraversal ⟨page, page * PageSize⟩ := by
    unfold beginTraversal
    rw [Nat.mul_div_cancel _ (by decide)]
  unfold makePageGroup at h
  simp only [hbegin, continueTraversal_eq] at h
  by_cases hempty : pg.blocks = []
  · rw [if_neg (not_not_intro hempty)] at h
    refine ⟨hempty, ?_⟩
    cases hp : table.physicalPage page with
    | none =>
      rw [hp] at h
      cases h
    | some p =>
      rw [hp] at h
      simp only [map_some, start_eq] at h
      cases hloop : makeLoop table isHeap (n * PageSize) pg (cursorAt (page + 1) p 1 1) with
      | error result =>
        rw [hloop] at h
        cases h
      | ok result =>
        rw [hloop] at h
        obtain ⟨ps, hlength, hmaps, hadd⟩ := makeLoop_inv (by omega : 1 + (n - 1) = n) hloop h
        exact ⟨p :: ps, by rw [length_cons, hlength]; omega, ⟨hp, hmaps⟩, hadd⟩
  · rw [if_pos hempty] at h
    cases h

/-! ### The blocks of a group -/

def toBlock (r : ℕ × ℕ) : KBlockInfo := ⟨r.1, r.2⟩

/-- The pages of a group in order. -/
def pageList (pg : KPageGroup) : List ℕ := pg.blocks.flatMap fun block => List.range' block.pageIndex block.numPages

variable {rs rest : List (ℕ × ℕ)}

theorem pageList_of_blocks (h : pg.blocks = rs.map toBlock) : pageList pg = expand rs := by
  unfold pageList expand
  rw [h, flatMap_map]
  rfl

variable {r block : ℕ × ℕ}

/-- A run that does not go on the last block is a block of its own. -/
theorem blocks_of_addBlock {done : List (ℕ × ℕ)} (hblocks : pg.blocks = done.map toBlock)
    (hsep : Separated (done ++ [r])) (hr : 0 < r.2) (h : pg.addBlock (r.1 * PageSize) r.2 = some pg') :
    pg'.blocks = (done ++ [r]).map toBlock := by
  have hlast : pg.blocks.getLast?.bind (·.tryConcatenate (r.1 * PageSize) r.2) = none := by
    rw [hblocks, getLast?_map]
    cases hlast : done.getLast? with
    | none => rfl
    | some last =>
      have hne : r.1 ≠ last.1 + last.2 := by
        obtain ⟨before, rfl⟩ := getLast?_eq_some_iff.mp hlast
        rw [append_assoc] at hsep
        exact (isChain_cons_cons.mp (isChain_append.mp hsep).2.1).1
      rw [map_some, bind_some]
      unfold KBlockInfo.tryConcatenate KBlockInfo.getEndAddress toBlock
      rw [if_neg]
      rintro ⟨-, heq⟩
      exact hne (Nat.mul_right_cancel (by decide) heq)
  unfold KPageGroup.addBlock at h
  rw [if_neg (Nat.ne_of_gt hr), hlast] at h
  simp only at h
  split at h
  · cases h
  · obtain rfl := Option.some.inj h
    rw [hblocks, Nat.mul_div_cancel _ (by decide), map_append]
    rfl

/-- Runs that are separated from the blocks are blocks of their own. -/
theorem blocks_of_addRuns : ∀ {rs done : List (ℕ × ℕ)} {pg pg' : KPageGroup}, pg.blocks = done.map toBlock →
    Separated (done ++ rs) → (∀ r ∈ rs, 0 < r.2) → addRuns isHeap pg rs = .ok pg' →
    pg'.blocks = (done ++ rs).map toBlock ∧ ∀ r ∈ rs, isHeap (r.1 * PageSize) = true
  | [], done, pg, pg', hblocks, _, _, h => by
    obtain rfl := Except.ok.inj h
    rw [append_nil]
    exact ⟨hblocks, fun r hr => absurd hr not_mem_nil⟩
  | r :: rs, done, pg, pg', hblocks, hsep, hpos, h => by
    have hr := hpos r mem_cons_self
    have happend : done ++ r :: rs = (done ++ [r]) ++ rs := append_cons done r rs
    unfold addRuns addHeapBlock at h
    by_cases hheap : isHeap (r.1 * PageSize) = true
    · rw [if_pos hheap] at h
      cases hadd : pg.addBlock (r.1 * PageSize) r.2 with
      | none =>
        rw [hadd] at h
        cases h
      | some next =>
        rw [hadd] at h
        rw [happend] at hsep ⊢
        have hnext := blocks_of_addBlock hblocks (isChain_append.mp hsep).1 hr hadd
        obtain ⟨hblocks', hheaps⟩ := blocks_of_addRuns hnext hsep (fun q hq => hpos q (mem_cons_of_mem _ hq)) h
        refine ⟨hblocks', fun q hq => ?_⟩
        rcases mem_cons.mp hq with rfl | hq
        · exact hheap
        · exact hheaps q hq
    · rw [if_neg hheap] at h
      cases h

/-- **What `MakePageGroup` makes**: the runs of the physical pages, each of which starts in the heap. -/
theorem makePageGroup_ok {page n : ℕ} (h : makePageGroup table isHeap pg (page * PageSize) n = .ok pg') (hn : 0 < n) :
    ∃ ps, ps.length = n ∧ Maps table page ps ∧ pg'.blocks = (runs ps).map toBlock ∧
      ∀ r ∈ runs ps, isHeap (r.1 * PageSize) = true := by
  obtain ⟨hempty, ps, hlength, hmaps, hadd⟩ := makePageGroup_inv h hn
  have hempty' : pg.blocks = List.map toBlock [] := hempty
  obtain ⟨hblocks, hheap⟩ := blocks_of_addRuns hempty' (separated_runs ps) (fun r hr => pos_of_mem_runs hr) hadd
  exact ⟨ps, hlength, hmaps, hblocks, hheap⟩

/-! ### What `IsValidPageGroup` finds -/

/-- A place in a group, in pages. -/
def nodeAt (block : ℕ × ℕ) (rest : List (ℕ × ℕ)) : BlockCursor := ⟨block.1 * PageSize, block.2, rest.map toBlock⟩

theorem updateCurrentIterator_eq (block : ℕ × ℕ) (rest : List (ℕ × ℕ)) :
    (nodeAt block rest).updateCurrentIterator = (nextBlock block rest).map fun b => nodeAt b.1 b.2 := by
  unfold BlockCursor.updateCurrentIterator nextBlock nodeAt
  split_ifs
  · cases rest <;> rfl
  · rfl

theorem validLoop_done (it : BlockCursor) (cur : GroupCursor) {size : ℕ} (h : size ≤ cur.totSize) :
    validLoop table isHeap size it cur = some (it, cur) := by
  rw [validLoop, dif_neg (by omega)]

theorem validLoop_step (ht : t < n) :
    validLoop table isHeap (n * PageSize) (nodeAt block rest) (cursorAt page start count t) =
    match table.physicalPage page with
    | none => none
    | some p =>
      if p = start + count then
        validLoop table isHeap (n * PageSize) (nodeAt block rest) (cursorAt (page + 1) start (count + 1) (t + 1))
      else if isHeap (start * PageSize) then
        match nextBlock block rest with
        | none => none
        | some (b, bs) =>
          if b.1 = start ∧ count ≤ b.2 then
            validLoop table isHeap (n * PageSize) (nodeAt (b.1 + count, b.2 - count) bs) (cursorAt (page + 1) p 1 (t + 1))
          else none
      else none := by
  have hlt : (cursorAt page start count t).totSize < n * PageSize := Nat.mul_lt_mul_of_pos_right ht (by decide)
  have hcontinue : table.continueTraversal (cursorAt page start count t).context = _ := continueTraversal_eq page
  have hpages : (cursorAt page start count t).curSize / PageSize = count := Nat.mul_div_cancel _ (by decide)
  have haddr : (cursorAt page start count t).curAddr = start * PageSize := rfl
  rw [validLoop, dif_pos hlt]
  split
  · next hnext =>
    rw [hcontinue] at hnext
    cases hp : table.physicalPage page with
    | none => rfl
    | some p => rw [hp] at hnext; cases hnext
  · next entry context hnext =>
    rw [hcontinue] at hnext
    cases hp : table.physicalPage page with
    | none => rw [hp] at hnext; cases hnext
    | some p =>
      rw [hp] at hnext
      obtain ⟨rfl, rfl⟩ := Prod.mk.inj hnext |>.imp_left Option.some.inj
      simp only
      rw [extend_eq, restart_eq, hpages, updateCurrentIterator_eq]
      by_cases hrun : p = start + count
      · rw [if_neg (by rw [cursorAt, physAddr_ne_iff]; exact not_not_intro hrun), if_pos hrun]
      · rw [if_pos (by rw [cursorAt, physAddr_ne_iff]; exact hrun), if_neg hrun]
        by_cases hheap : isHeap (start * PageSize) = true
        · rw [if_pos (by rw [haddr]; exact hheap), if_pos hheap]
          cases nextBlock block rest with
          | none => rfl
          | some found =>
            obtain ⟨b, bs⟩ := found
            simp only [map_some, haddr]
            by_cases hb : b.1 = start ∧ count ≤ b.2
            · rw [if_pos hb, if_neg]
              · have htake : (⟨(nodeAt b bs).curBlockAddress + (cursorAt page start count t).curSize,
                    (nodeAt b bs).curBlockPages - count, (nodeAt b bs).rest⟩ : BlockCursor) =
                    nodeAt (b.1 + count, b.2 - count) bs := by
                  unfold nodeAt cursorAt
                  simp only [Nat.add_mul]
                rw [htake]
              · rintro (hne | hlt)
                · exact hne (congrArg (· * PageSize) hb.1)
                · exact absurd hlt (Nat.not_lt.mpr hb.2)
            · rw [if_neg hb, if_pos]
              by_cases hfirst : b.1 = start
              · exact .inr (Nat.lt_of_not_le fun hle => hb ⟨hfirst, hle⟩)
              · exact .inl fun heq => hfirst (Nat.mul_right_cancel (by decide) heq)
        · rw [if_neg (by rw [haddr]; exact hheap), if_neg hheap]

/-- The last run is compared with what is left of a block. -/
theorem lastValid_some :
    lastValid isHeap (n * PageSize) (some (nodeAt block rest, cursorAt page start count n)) = true ↔
      isHeap (start * PageSize) = true ∧ takeRuns block rest [(start, count)] = true := by
  have htotal : (cursorAt page start count n).totSize = n * PageSize := rfl
  have haddr : (cursorAt page start count n).curAddr = start * PageSize := rfl
  have hsize : (cursorAt page start count n).lastSize (n * PageSize) / PageSize = count := by
    unfold GroupCursor.lastSize
    rw [if_neg htotal.not_gt]
    exact Nat.mul_div_cancel _ (by decide)
  unfold lastValid
  simp only [haddr, hsize, updateCurrentIterator_eq]
  by_cases hheap : isHeap (start * PageSize) = true
  · rw [if_pos hheap, takeRuns]
    cases nextBlock block rest with
    | none => simp
    | some found =>
      have hiff : found.1.1 * PageSize = start * PageSize ↔ found.1.1 = start := Nat.mul_left_inj (by decide)
      simp only [map_some, nodeAt, decide_eq_true_iff, hheap, true_and, hiff]
      rw [Prod.ext_iff]
  · rw [if_neg hheap]
    exact ⟨fun h => absurd h Bool.false_ne_true, fun h => absurd h.1 hheap⟩

theorem exists_maps_zero {P : List ℕ → Prop} : (∃ ps, ps.length = 0 ∧ Maps table page ps ∧ P ps) ↔ P [] := by
  constructor
  · rintro ⟨ps, hlength, -, hP⟩
    rwa [length_eq_zero_iff.mp hlength] at hP
  · exact fun hP => ⟨[], rfl, trivial, hP⟩

theorem exists_maps_succ {P : List ℕ → Prop} : (∃ ps, ps.length = k + 1 ∧ Maps table page ps ∧ P ps) ↔
    ∃ p, table.physicalPage page = some p ∧ ∃ ps, ps.length = k ∧ Maps table (page + 1) ps ∧ P (p :: ps) := by
  constructor
  · rintro ⟨ps, hlength, hmaps, hP⟩
    cases ps with
    | nil => cases hlength
    | cons p ps => exact ⟨p, hmaps.1, ps, Nat.succ_inj.mp hlength, hmaps.2, hP⟩
  · rintro ⟨p, hp, ps, hlength, hmaps, hP⟩
    exact ⟨p :: ps, congrArg Nat.succ hlength, ⟨hp, hmaps⟩, hP⟩

/-- **The loop of `IsValidPageGroup`** with the last comparison takes the runs of the physical pages off the blocks. -/
theorem validLoop_iff : ∀ {k page start count t : ℕ} {block : ℕ × ℕ} {rest : List (ℕ × ℕ)}, t + k = n →
    (lastValid isHeap (n * PageSize)
        (validLoop table isHeap (n * PageSize) (nodeAt block rest) (cursorAt page start count t)) = true ↔
      ∃ ps, ps.length = k ∧ Maps table page ps ∧ (∀ r ∈ runsFrom start count ps, isHeap (r.1 * PageSize) = true) ∧
        takeRuns block rest (runsFrom start count ps) = true)
  | 0, page, start, count, t, block, rest, ht => by
    obtain rfl : t = n := by omega
    have htotal : (cursorAt page start count t).totSize = t * PageSize := rfl
    rw [validLoop_done _ _ htotal.ge, lastValid_some, exists_maps_zero, runsFrom]
    simp only [mem_singleton, forall_eq]
  | k + 1, page, start, count, t, block, rest, ht => by
    rw [validLoop_step (by omega), exists_maps_succ]
    cases hp : table.physicalPage page with
    | none =>
      constructor
      · intro h
        cases h
      · rintro ⟨p, hnone, -⟩
        cases hnone
    | some p =>
      simp only [Option.some.injEq, exists_eq_left']
      by_cases hrun : p = start + count
      · simp only [if_pos hrun, runsFrom]
        exact validLoop_iff (by omega)
      · simp only [if_neg hrun, runsFrom]
        simp only [takeRuns_cons (runsFrom_ne_nil _ _ _), forall_mem_cons]
        by_cases hheap : isHeap (start * PageSize) = true
        · simp only [hheap, if_true, true_and]
          cases nextBlock block rest with
          | none => simp [lastValid]
          | some found =>
            obtain ⟨b, bs⟩ := found
            simp only
            by_cases hb : b.1 = start ∧ count ≤ b.2
            · rw [if_pos hb, validLoop_iff (by omega : t + 1 + k = n)]
              simp only [hb, and_self, decide_true, Bool.true_and]
            · rw [if_neg hb]
              simp [lastValid, hb]
        · simp [hheap, lastValid]

/-- **What `IsValidPageGroup` finds**: the runs of the physical pages are in the heap, and are taken off the blocks. -/
theorem isValidPageGroup_iff_takeRuns (hblocks : pg.blocks = (r :: rs).map toBlock)
    (hn : 0 < n) : isValidPageGroup table isHeap pg (page * PageSize) n = true ↔
      ∃ ps, ps.length = n ∧ Maps table page ps ∧ (∀ q ∈ runs ps, isHeap (q.1 * PageSize) = true) ∧
        takeRuns r rs (runs ps) = true := by
  have hbegin : table.beginTraversal (page * PageSize) = table.continueTraversal ⟨page, page * PageSize⟩ := by
    unfold beginTraversal
    rw [Nat.mul_div_cancel _ (by decide)]
  obtain ⟨k, rfl⟩ : ∃ k, n = 1 + k := ⟨n - 1, by omega⟩
  unfold isValidPageGroup
  rw [Nat.add_comm 1 k, exists_maps_succ]
  simp only [hblocks, map_cons, hbegin, continueTraversal_eq]
  cases hp : table.physicalPage page with
  | none =>
    constructor
    · intro h
      cases h
    · rintro ⟨p, hnone, -⟩
      cases hnone
  | some p =>
    simp only [map_some, start_eq, Option.some.injEq, exists_eq_left']
    exact validLoop_iff (Nat.add_comm 1 k)

/-- **`IsValidPageGroup` agrees with `MakePageGroup`.** A group that has been made of a range that is not empty lists the
physical pages of the range in order, and it is valid for the ranges whose pages are mapped to the same physical pages. -/
theorem isValidPageGroup_iff (hmake : makePageGroup table isHeap pg (page * PageSize) n = .ok pg') (hn : 0 < n) :
    (pageList pg').length = n ∧ (∀ i < n, table.physicalPage (page + i) = (pageList pg')[i]?) ∧
      ∀ other, isValidPageGroup table isHeap pg' (other * PageSize) n = true ↔
        ∀ i < n, ∃ p, table.physicalPage (other + i) = some p ∧ table.physicalPage (page + i) = some p := by
  obtain ⟨ps, hlength, hmaps, hblocks, hheap⟩ := makePageGroup_ok hmake hn
  have hlist : pageList pg' = ps := (pageList_of_blocks hblocks).trans (expand_runs ps)
  rw [hlist]
  refine ⟨hlength, fun i hi => maps_iff.mp hmaps i (by omega), fun other => ?_⟩
  obtain ⟨r, rs, hruns⟩ : ∃ r rs, runs ps = r :: rs := by
    cases ps with
    | nil => exact absurd hlength (Nat.ne_of_lt hn)
    | cons p ps => exact exists_cons_of_ne_nil (runsFrom_ne_nil ps p 1)
  rw [isValidPageGroup_iff_takeRuns (hblocks.trans (congrArg _ hruns)) hn]
  constructor
  · rintro ⟨qs, hqs, hother, -, htake⟩ i hi
    obtain rfl := (takeRuns_runs hruns (hlength.trans hqs.symm)).mp htake
    have hsame := maps_iff.mp hother i (by omega)
    rw [hsame, maps_iff.mp hmaps i (by omega), getElem?_eq_getElem (by omega)]
    exact ⟨_, rfl, rfl⟩
  · intro h
    refine ⟨ps, hlength, maps_iff.mpr fun i hi => ?_, hheap, (takeRuns_runs hruns rfl).mpr rfl⟩
    obtain ⟨p, hother, hpage⟩ := h i (by omega)
    rw [hother, ← hpage, maps_iff.mp hmaps i hi]

/-- A table with the first two pages of the heap behind a page that is not mapped. -/
def twoPages : PageTable where
  entries := [0, 0x80000000 - PageSize, 0x80000000 - PageSize]
  aligned := by decide
  physical page backingAddr h _ := by
    have hpage : page < 3 := (List.getElem?_eq_some_iff.mp h).1
    have hmem : backingAddr ≤ 0x80000000 := by
      have hall : ∀ b ∈ [0, 0x80000000 - PageSize, 0x80000000 - PageSize], b ≤ 0x80000000 := by decide
      exact hall _ (mem_of_getElem? h)
    have hsize : PageSize ≤ 2 ^ 12 := by decide
    have hoffset : page * PageSize ≤ 2 * 2 ^ 12 := Nat.mul_le_mul (by omega) hsize
    omega

theorem isValidPageGroup_twoPages :
    isValidPageGroup twoPages (fun _ => true) ⟨[⟨0x80000, 2⟩], 0⟩ (1 * PageSize) 2 = true := by
  have hmake : makePageGroup twoPages (fun _ => true) ⟨[], 1⟩ (1 * PageSize) 2 = .ok ⟨[⟨0x80000, 2⟩], 0⟩ := by
    decide +kernel
  obtain ⟨-, -, hvalid⟩ := isValidPageGroup_iff hmake (by decide)
  refine (hvalid 1).mpr fun i hi => ?_
  have hmapped : twoPages.physicalPage (1 + i) = some (0x80000 + i) := by
    interval_cases i <;> decide +kernel
  exact ⟨_, hmapped, hmapped⟩

/-- Of an empty range `MakePageGroup` makes an empty group, which is not valid. -/
theorem isValidPageGroup_empty :
    makePageGroup twoPages (fun _ => true) ⟨[], 1⟩ (1 * PageSize) 0 = .ok ⟨[], 1⟩ ∧
      ¬ (isValidPageGroup twoPages (fun _ => true) ⟨[], 1⟩ (1 * PageSize) 0 = true ↔
        ∀ i < 0, ∃ p, twoPages.physicalPage (1 + i) = some p ∧ twoPages.physicalPage (1 + i) = some p) := by
  refine ⟨by decide +kernel, fun h => ?_⟩
  exact Bool.false_ne_true (h.mpr fun i hi => absurd hi (Nat.not_lt_zero i))

end PageTable

end Kernel
end Citron
