/-
# The regions of a process

`InitializeForProcess` lays out the alias, heap, stack and kernel map regions of an address space. In 39 bits all four are
drawn at random and then displaced, each behind the regions with smaller draws, so that they never overlap
(`initializeForProcess_layout`). In 32 and 36 bits only the alias and heap regions are; the stack and the kernel map are in
the region of the code.
-/
import Citron.Common.Alignment
import Citron.Lib.Displacement

namespace Citron
namespace Kernel
namespace PageTableLayout

open Common Lib

/-! ### Address spaces -/

def mib : ℕ := 2 ^ 20

def gib : ℕ := 2 ^ 30

/-- `KAddressSpaceInfo::Type` -/
inductive InfoType
  | mapSmall
  | mapLarge
  | map39Bit
  | heap
  | stack
  | aliasRegion
deriving DecidableEq

structure KAddressSpaceInfo where
  bitWidth : ℕ
  address : ℕ
  size : ℕ
  type : InfoType

def sizeInvalid : ℕ := 2 ^ 64 - 1

/-- The table without `HAS_NCE`. -/
def addressSpaceInfos : List KAddressSpaceInfo :=
  [⟨32, 2 * mib, gib - 2 * mib, .mapSmall⟩,
    ⟨32, gib, 4 * gib - gib, .mapLarge⟩,
    ⟨32, sizeInvalid, gib, .aliasRegion⟩,
    ⟨32, sizeInvalid, gib, .heap⟩,
    ⟨36, 128 * mib, 2 * gib - 128 * mib, .mapSmall⟩,
    ⟨36, 2 * gib, 64 * gib - 2 * gib, .mapLarge⟩,
    ⟨36, sizeInvalid, 12 * gib, .heap⟩,
    ⟨36, sizeInvalid, 6 * gib, .aliasRegion⟩,
    ⟨39, 128 * mib, 512 * gib - 128 * mib, .map39Bit⟩,
    ⟨39, sizeInvalid, 64 * gib, .mapSmall⟩,
    ⟨39, sizeInvalid, 12 * gib, .heap⟩,
    ⟨39, sizeInvalid, 64 * gib, .aliasRegion⟩,
    ⟨39, sizeInvalid, 2 * gib, .stack⟩]

/-- `none` is `std::unreachable`. -/
def getAddressSpaceInfo (width : ℕ) (type : InfoType) : Option KAddressSpaceInfo :=
  addressSpaceInfos.find? fun info => info.bitWidth == width && info.type == type

def getSpaceStart (width : ℕ) (type : InfoType) : Option ℕ := (getAddressSpaceInfo width type).map (·.address)

def getSpaceSize (width : ℕ) (type : InfoType) : Option ℕ := (getAddressSpaceInfo width type).map (·.size)

/-- The address space types of `CreateProcessFlag`. -/
inductive AddressSpaceType
  | addressSpace32Bit
  | addressSpace64BitDeprecated
  | addressSpace32BitWithoutAlias
  | addressSpace64Bit
deriving DecidableEq

def getAddressSpaceWidth : AddressSpaceType → ℕ
  | .addressSpace64Bit => 39
  | .addressSpace64BitDeprecated => 36
  | .addressSpace32Bit => 32
  | .addressSpace32BitWithoutAlias => 32

/-! ### Regions -/

/-- The regions that are placed, in the order in which they lie when the draws are equal. -/
inductive Region
  | kernelMap
  | stack
  | aliasRegion
  | heap
deriving DecidableEq

instance : Fintype Region := ⟨{.kernelMap, .stack, .aliasRegion, .heap}, fun region => by cases region <;> decide⟩

/-- `m_…_region_start` and `m_…_region_end`. -/
structure Regions where
  start : Region → ℕ
  stop : Region → ℕ

namespace Regions

def place (regions : Regions) (region : Region) (first size : ℕ) : Regions where
  start := Function.update regions.start region first
  stop := Function.update regions.stop region (first + size)

/-- Both ends move on. -/
def displace (regions : Regions) (region : Region) (distance : ℕ) : Regions where
  start := Function.update regions.start region (regions.start region + distance)
  stop := Function.update regions.stop region (regions.stop region + distance)

end Regions

section Setup

variable (allocStart : ℕ) (size rnd : Region → ℕ)

def setupHeapAndAlias (regions : Regions) : Regions :=
  let regions := regions.place .aliasRegion (allocStart + rnd .aliasRegion) (size .aliasRegion)
  let regions := regions.place .heap (allocStart + rnd .heap) (size .heap)
  if rnd .aliasRegion ≤ rnd .heap then regions.displace .heap (size .aliasRegion)
  else regions.displace .aliasRegion (size .heap)

def setupStack (regions : Regions) : Regions :=
  if size .stack ≠ 0 then
    let regions := regions.place .stack (allocStart + rnd .stack) (size .stack)
    let regions :=
      if rnd .aliasRegion < rnd .stack then regions.displace .stack (size .aliasRegion)
      else regions.displace .aliasRegion (size .stack)
    if rnd .heap < rnd .stack then regions.displace .stack (size .heap) else regions.displace .heap (size .stack)
  else regions

def setupKernelMap (regions : Regions) : Regions :=
  if size .kernelMap ≠ 0 then
    let regions := regions.place .kernelMap (allocStart + rnd .kernelMap) (size .kernelMap)
    let regions :=
      if rnd .aliasRegion < rnd .kernelMap then regions.displace .kernelMap (size .aliasRegion)
      else regions.displace .aliasRegion (size .kernelMap)
    let regions :=
      if rnd .heap < rnd .kernelMap then regions.displace .kernelMap (size .heap)
      else regions.displace .heap (size .kernelMap)
    if size .stack ≠ 0 then
      if rnd .stack < rnd .kernelMap then regions.displace .kernelMap (size .stack)
      else regions.displace .stack (size .kernelMap)
    else regions
  else regions

end Setup

/-! ### `InitializeForProcess` -/

def regionAlignment : ℕ := 2 * mib

/-- `KSystemControl::GenerateRandomRange(0, max)`: some number up to `max`. -/
structure RandomRange where
  generate : ℕ → ℕ
  generate_le : ∀ max, generate max ≤ max

/-- `GenerateUniformRange(0, max)` once it has drawn a number it does not reject. -/
def RandomRange.uniform (rnd : ℕ) : RandomRange where
  generate max := rnd % (max + 1)
  generate_le max := Nat.lt_succ_iff.mp (Nat.mod_lt _ (Nat.succ_pos max))

/-- A draw in units. -/
theorem RandomRange.generate_mul_le (range : RandomRange) (max unit : ℕ) : range.generate (max / unit) * unit ≤ max :=
  (Nat.mul_le_mul_right unit (range.generate_le (max / unit))).trans (Nat.div_mul_le_self max unit)

structure Params where
  asType : AddressSpaceType
  enableAliasRegionExtraSize : Bool
  enableAslr : Bool
  codeAddress : ℕ
  codeSize : ℕ
  aslrSpaceStart : ℕ

/-- What is known before the regions are placed. -/
structure Plan where
  size : Region → ℕ
  codeRegionStart : ℕ
  codeRegionEnd : ℕ
  processCodeStart : ℕ
  processCodeEnd : ℕ
  regions : Regions

/-- The extents of the code and the sizes of the regions. `addressSpaceStart` is what the page table had before. -/
def plan (addressSpaceStart : ℕ) (params : Params) : Option Plan := do
  let width := getAddressSpaceWidth params.asType
  let aliasRegionSize ← getSpaceSize width .aliasRegion
  let heapRegionSize ← getSpaceSize width .heap
  let withoutAlias := params.asType = .addressSpace32BitWithoutAlias
  let heapRegionSize := if withoutAlias then heapRegionSize + aliasRegionSize else heapRegionSize
  let aliasRegionSize := if withoutAlias then 0 else aliasRegionSize
  if width = 39 then do
    let aliasRegionSize ← getSpaceSize width .aliasRegion
    let heapRegionSize ← getSpaceSize width .heap
    let stackRegionSize ← getSpaceSize width .stack
    let kernelMapRegionSize ← getSpaceSize width .mapSmall
    let mapStart ← getSpaceStart width .map39Bit
    let mapSize ← getSpaceSize width .map39Bit
    let codeRegionStart := addressSpaceStart + params.aslrSpaceStart + mapStart
    -- Only 39 bits have the extra size.
    let aliasRegionExtraSize := if params.enableAliasRegionExtraSize ∧ aliasRegionSize ≠ 0 then 2 ^ width / 8 else 0
    some
      { size := fun
          | .aliasRegion => aliasRegionSize + aliasRegionExtraSize
          | .heap => heapRegionSize
          | .stack => stackRegionSize
          | .kernelMap => kernelMapRegionSize
        codeRegionStart := codeRegionStart
        codeRegionEnd := codeRegionStart + mapSize
        processCodeStart := alignDown params.codeAddress regionAlignment
        processCodeEnd := alignUp (params.codeAddress + params.codeSize) regionAlignment
        regions := ⟨fun _ => 0, fun _ => 0⟩ }
  else do
    let codeRegionStart ← getSpaceStart width .mapSmall
    let mapSmallSize ← getSpaceSize width .mapSmall
    let codeRegionEnd := codeRegionStart + mapSmallSize
    some
      { size := fun
          | .aliasRegion => aliasRegionSize
          | .heap => heapRegionSize
          | .stack => 0
          | .kernelMap => 0
        codeRegionStart := codeRegionStart
        codeRegionEnd := codeRegionEnd
        processCodeStart := codeRegionStart
        processCodeEnd := codeRegionEnd
        -- The stack and the kernel map are where the code is.
        regions := ⟨fun _ => codeRegionStart, fun _ => codeRegionEnd⟩ }

/-- The difference of two `u64`. -/
def sub64 (a b : ℕ) : ℕ := (a + 2 ^ 64 - b) % 2 ^ 64

namespace Plan

/-- The larger part beside the code. -/
def allocArea (plan : Plan) (spaceEnd : ℕ) : ℕ × ℕ :=
  if sub64 spaceEnd plan.processCodeEnd ≤ sub64 plan.processCodeStart plan.codeRegionStart then
    (plan.codeRegionStart, sub64 plan.processCodeStart plan.codeRegionStart)
  else (plan.processCodeEnd, sub64 spaceEnd plan.processCodeEnd)

def neededSize (plan : Plan) : ℕ :=
  plan.size .aliasRegion + plan.size .heap + plan.size .stack + plan.size .kernelMap

end Plan

/-- The page table with its regions; `none` is `ResultOutOfMemory`. -/
def initializeForProcess (addressSpaceStart : ℕ) (params : Params) (random : Region → RandomRange) :
    Option (Option (Plan × Regions)) := do
  let plan ← plan addressSpaceStart params
  let (allocStart, allocSize) := plan.allocArea (2 ^ getAddressSpaceWidth params.asType)
  if plan.neededSize ≤ allocSize then
    let remainingSize := allocSize - plan.neededSize
    let rnd region :=
      if params.enableAslr then (random region).generate (remainingSize / regionAlignment) * regionAlignment else 0
    let regions := setupHeapAndAlias allocStart plan.size rnd plan.regions
    let regions := setupStack allocStart plan.size rnd regions
    some (some (plan, setupKernelMap allocStart plan.size rnd regions))
  else some none

/-! ### Where the regions come to lie -/

/-- The place of a region among those with its draw. -/
def Region.rank : Region → ℕ
  | .kernelMap => 0
  | .stack => 1
  | .aliasRegion => 2
  | .heap => 3

/-- The order of the displacement. -/
def drawKey (rnd : Region → ℕ) (region : Region) : ℕ ×ₗ ℕ := toLex (rnd region, region.rank)

section Layout

variable {allocStart : ℕ} {size rnd : Region → ℕ} {regions : Regions} {region other : Region} {n first length : ℕ}

theorem drawKey_lt_iff : drawKey rnd region < drawKey rnd other ↔
    rnd region < rnd other ∨ rnd region = rnd other ∧ region.rank < other.rank := Prod.Lex.toLex_lt_toLex

/-- A region before another one in the order displaces it without a smaller draw, one behind it does not. -/
theorem ite_drawKey_of_rank_lt (h : region.rank < other.rank) :
    (if drawKey rnd region < drawKey rnd other then n else 0) = if rnd region ≤ rnd other then n else 0 := by
  have hiff : drawKey rnd region < drawKey rnd other ↔ rnd region ≤ rnd other := by
    rw [drawKey_lt_iff]
    omega
  simp only [hiff]

theorem ite_drawKey_of_rank_le (h : other.rank ≤ region.rank) :
    (if drawKey rnd region < drawKey rnd other then n else 0) = if rnd region < rnd other then n else 0 := by
  have hiff : drawKey rnd region < drawKey rnd other ↔ rnd region < rnd other := by
    rw [drawKey_lt_iff]
    omega
  simp only [hiff]

theorem drawKey_injective (rnd : Region → ℕ) : Function.Injective (drawKey rnd) := by
  intro region other h
  have hrank : region.rank = other.rank := congrArg (fun key => (ofLex key).2) h
  cases region <;> cases other <;> first | rfl | exact absurd hrank (by decide)

theorem drawKey_mono (rnd : Region → ℕ) (region other : Region) (h : drawKey rnd region < drawKey rnd other) :
    rnd region ≤ rnd other := by
  rw [drawKey_lt_iff] at h
  omega

theorem sum_size (f : Region → ℕ) : ∑ region, f region = f .kernelMap + f .stack + f .aliasRegion + f .heap := by
  have huniv : (Finset.univ : Finset Region) = {.kernelMap, .stack, .aliasRegion, .heap} := rfl
  rw [huniv, Finset.sum_insert (by decide), Finset.sum_insert (by decide), Finset.sum_insert (by decide),
    Finset.sum_singleton]
  ring

/-- The displacement of a region, term by term. -/
theorem displaced_eq (region : Region) : displaced size rnd (drawKey rnd) region = rnd region +
    ((if drawKey rnd .kernelMap < drawKey rnd region then size .kernelMap else 0) +
      (if drawKey rnd .stack < drawKey rnd region then size .stack else 0) +
      (if drawKey rnd .aliasRegion < drawKey rnd region then size .aliasRegion else 0) +
      (if drawKey rnd .heap < drawKey rnd region then size .heap else 0)) := by
  rw [displaced, Finset.sum_filter, sum_size]

/-- Displacing a region moves both of its ends, and no other region. -/
@[simp] theorem start_displace : (regions.displace region n).start other =
    regions.start other + if other = region then n else 0 := by
  unfold Regions.displace
  split_ifs with h
  · subst h
    simp
  · simp [h]

@[simp] theorem stop_displace : (regions.displace region n).stop other =
    regions.stop other + if other = region then n else 0 := by
  unfold Regions.displace
  split_ifs with h
  · subst h
    simp
  · simp [h]

@[simp] theorem start_place : (regions.place region first length).start other =
    if other = region then first else regions.start other := by
  unfold Regions.place
  split_ifs with h
  · subst h
    simp
  · simp [h]

@[simp] theorem stop_place : (regions.place region first length).stop other =
    if other = region then first + length else regions.stop other := by
  unfold Regions.place
  split_ifs with h
  · subst h
    simp
  · simp [h]

/-- Of two regions the later one is displaced. -/
theorem start_ite {c : Prop} [Decidable c] {later earlier : Region} {m : ℕ} :
    (if c then regions.displace later n else regions.displace earlier m).start other =
      regions.start other + if c then (if other = later then n else 0) else if other = earlier then m else 0 := by
  split_ifs <;> simp [*]

theorem stop_ite {c : Prop} [Decidable c] {later earlier : Region} {m : ℕ} :
    (if c then regions.displace later n else regions.displace earlier m).stop other =
      regions.stop other + if c then (if other = later then n else 0) else if other = earlier then m else 0 := by
  split_ifs <;> simp [*]

/-- The alias and heap regions, before the others displace them. -/
theorem setupHeapAndAlias_start (allocStart : ℕ) (size rnd : Region → ℕ) (regions : Regions) :
    (setupHeapAndAlias allocStart size rnd regions).start .aliasRegion =
        allocStart + rnd .aliasRegion + (if rnd .heap < rnd .aliasRegion then size .heap else 0) ∧
      (setupHeapAndAlias allocStart size rnd regions).start .heap =
        allocStart + rnd .heap + (if rnd .heap < rnd .aliasRegion then 0 else size .aliasRegion) := by
  unfold setupHeapAndAlias
  simp only [start_ite, start_place, reduceCtorEq, if_true, if_false]
  constructor <;> split_ifs <;> omega

theorem setupStack_start (hstack : size .stack ≠ 0) (regions : Regions) :
    (setupStack allocStart size rnd regions).start .stack = allocStart + rnd .stack +
        (if rnd .aliasRegion < rnd .stack then size .aliasRegion else 0) +
        (if rnd .heap < rnd .stack then size .heap else 0) ∧
      (setupStack allocStart size rnd regions).start .aliasRegion =
        regions.start .aliasRegion + (if rnd .aliasRegion < rnd .stack then 0 else size .stack) ∧
      (setupStack allocStart size rnd regions).start .heap =
        regions.start .heap + (if rnd .heap < rnd .stack then 0 else size .stack) := by
  unfold setupStack
  simp only [if_pos hstack, start_ite, start_place, reduceCtorEq, if_true, if_false, true_and]
  constructor <;> split_ifs <;> omega

theorem setupKernelMap_start (hstack : size .stack ≠ 0) (hmap : size .kernelMap ≠ 0) (regions : Regions) :
    (setupKernelMap allocStart size rnd regions).start .kernelMap = allocStart + rnd .kernelMap +
        (if rnd .aliasRegion < rnd .kernelMap then size .aliasRegion else 0) +
        (if rnd .heap < rnd .kernelMap then size .heap else 0) +
        (if rnd .stack < rnd .kernelMap then size .stack else 0) ∧
      (setupKernelMap allocStart size rnd regions).start .stack =
        regions.start .stack + (if rnd .stack < rnd .kernelMap then 0 else size .kernelMap) ∧
      (setupKernelMap allocStart size rnd regions).start .aliasRegion =
        regions.start .aliasRegion + (if rnd .aliasRegion < rnd .kernelMap then 0 else size .kernelMap) ∧
      (setupKernelMap allocStart size rnd regions).start .heap =
        regions.start .heap + (if rnd .heap < rnd .kernelMap then 0 else size .kernelMap) := by
  unfold setupKernelMap
  simp only [if_pos hstack, if_pos hmap, start_ite, start_place, reduceCtorEq, if_true, if_false, true_and]
  refine ⟨?_, ?_, ?_⟩ <;> split_ifs <;> omega

/-- The three steps. -/
def setupRegions (allocStart : ℕ) (size rnd : Region → ℕ) (regions : Regions) : Regions :=
  setupKernelMap allocStart size rnd (setupStack allocStart size rnd (setupHeapAndAlias allocStart size rnd regions))

theorem displaced_kernelMap : displaced size rnd (drawKey rnd) .kernelMap = rnd .kernelMap +
    ((if rnd .stack < rnd .kernelMap then size .stack else 0) +
      (if rnd .aliasRegion < rnd .kernelMap then size .aliasRegion else 0) +
      (if rnd .heap < rnd .kernelMap then size .heap else 0)) := by
  rw [displaced_eq, ite_drawKey_of_rank_le (by decide), ite_drawKey_of_rank_le (by decide),
    ite_drawKey_of_rank_le (by decide), ite_drawKey_of_rank_le (by decide), if_neg (lt_irrefl _), Nat.zero_add]

theorem displaced_stack : displaced size rnd (drawKey rnd) .stack = rnd .stack +
    ((if rnd .kernelMap ≤ rnd .stack then size .kernelMap else 0) +
      (if rnd .aliasRegion < rnd .stack then size .aliasRegion else 0) +
      (if rnd .heap < rnd .stack then size .heap else 0)) := by
  rw [displaced_eq, ite_drawKey_of_rank_lt (by decide), ite_drawKey_of_rank_le (by decide),
    ite_drawKey_of_rank_le (by decide), ite_drawKey_of_rank_le (by decide), if_neg (lt_irrefl _), Nat.add_zero]

theorem displaced_aliasRegion : displaced size rnd (drawKey rnd) .aliasRegion = rnd .aliasRegion +
    ((if rnd .kernelMap ≤ rnd .aliasRegion then size .kernelMap else 0) +
      (if rnd .stack ≤ rnd .aliasRegion then size .stack else 0) +
      (if rnd .heap < rnd .aliasRegion then size .heap else 0)) := by
  rw [displaced_eq, ite_drawKey_of_rank_lt (by decide), ite_drawKey_of_rank_lt (by decide),
    ite_drawKey_of_rank_le (by decide), ite_drawKey_of_rank_le (by decide), if_neg (lt_irrefl _), Nat.add_zero]

theorem displaced_heap : displaced size rnd (drawKey rnd) .heap = rnd .heap +
    ((if rnd .kernelMap ≤ rnd .heap then size .kernelMap else 0) +
      (if rnd .stack ≤ rnd .heap then size .stack else 0) +
      (if rnd .aliasRegion ≤ rnd .heap then size .aliasRegion else 0)) := by
  rw [displaced_eq, ite_drawKey_of_rank_lt (by decide), ite_drawKey_of_rank_lt (by decide),
    ite_drawKey_of_rank_lt (by decide), ite_drawKey_of_rank_le (by decide), if_neg (lt_irrefl _), Nat.add_zero]

/-- **Every region is displaced by those with smaller draws**, and on equal draws by those before it in the order of the
kernel map, the stack, the alias and the heap region. -/
theorem setupRegions_start (hstack : size .stack ≠ 0) (hmap : size .kernelMap ≠ 0) (regions : Regions)
    (region : Region) : (setupRegions allocStart size rnd regions).start region =
      allocStart + displaced size rnd (drawKey rnd) region := by
  unfold setupRegions
  cases region with
  | kernelMap =>
    rw [(setupKernelMap_start hstack hmap _).1, displaced_kernelMap]
    omega
  | stack =>
    rw [(setupKernelMap_start hstack hmap _).2.1, (setupStack_start hstack _).1, displaced_stack]
    split_ifs <;> omega
  | aliasRegion =>
    rw [(setupKernelMap_start hstack hmap _).2.2.1, (setupStack_start hstack _).2.1, (setupHeapAndAlias_start ..).1,
      displaced_aliasRegion]
    split_ifs <;> omega
  | heap =>
    rw [(setupKernelMap_start hstack hmap _).2.2.2, (setupStack_start hstack _).2.2, (setupHeapAndAlias_start ..).2,
      displaced_heap]
    split_ifs <;> omega

/-- Every region that is placed has its size. -/
theorem setupRegions_stop (hstack : size .stack ≠ 0) (hmap : size .kernelMap ≠ 0) (regions : Regions)
    (region : Region) : (setupRegions allocStart size rnd regions).stop region =
      (setupRegions allocStart size rnd regions).start region + size region := by
  unfold setupRegions setupKernelMap setupStack setupHeapAndAlias
  simp only [if_pos hstack, if_pos hmap, start_ite, stop_ite, start_place, stop_place]
  cases region <;> simp only [reduceCtorEq, if_true, if_false] <;> omega

/-- Without a stack and a kernel map only the alias and the heap region are placed. -/
theorem setupRegions_of_zero (hstack : size .stack = 0) (hmap : size .kernelMap = 0) (regions : Regions) :
    setupRegions allocStart size rnd regions = setupHeapAndAlias allocStart size rnd regions := by
  unfold setupRegions setupKernelMap setupStack
  simp only [hstack, hmap, ne_eq, not_true_eq_false, if_false]

theorem setupHeapAndAlias_displaced (allocStart : ℕ) (rnd : Region → ℕ) (hstack : size .stack = 0)
    (hmap : size .kernelMap = 0) (regions : Regions) :
    (setupHeapAndAlias allocStart size rnd regions).start .aliasRegion =
        allocStart + displaced size rnd (drawKey rnd) .aliasRegion ∧
      (setupHeapAndAlias allocStart size rnd regions).start .heap =
        allocStart + displaced size rnd (drawKey rnd) .heap := by
  obtain ⟨halias, hheap⟩ := setupHeapAndAlias_start allocStart size rnd regions
  rw [halias, hheap, displaced_aliasRegion, displaced_heap, hstack, hmap]
  constructor <;> split_ifs <;> omega

theorem setupHeapAndAlias_rest (allocStart : ℕ) (size rnd : Region → ℕ) (regions : Regions) :
    (setupHeapAndAlias allocStart size rnd regions).stop .aliasRegion =
        (setupHeapAndAlias allocStart size rnd regions).start .aliasRegion + size .aliasRegion ∧
      (setupHeapAndAlias allocStart size rnd regions).stop .heap =
        (setupHeapAndAlias allocStart size rnd regions).start .heap + size .heap ∧
      ∀ region, region ≠ .aliasRegion → region ≠ .heap →
        (setupHeapAndAlias allocStart size rnd regions).start region = regions.start region ∧
          (setupHeapAndAlias allocStart size rnd regions).stop region = regions.stop region := by
  unfold setupHeapAndAlias
  simp only [start_ite, stop_ite, start_place, stop_place, reduceCtorEq, if_true, if_false]
  refine ⟨by omega, by omega, fun region halias hheap => ?_⟩
  simp [halias, hheap]

end Layout

/-! ### The whole layout -/

section Whole

variable {addressSpaceStart : ℕ} {params : Params} {found : Plan}

theorem sub64_eq {a b : ℕ} (hle : b ≤ a) (ha : a < 2 ^ 64) : sub64 a b = a - b := by
  unfold sub64
  omega

/-- The plan for 39 bits. -/
theorem plan_39 (h : params.asType = .addressSpace64Bit) (hplan : plan addressSpaceStart params = some found) :
    found.size .stack ≠ 0 ∧ found.size .kernelMap ≠ 0 ∧
      found.codeRegionStart = addressSpaceStart + params.aslrSpaceStart + 128 * mib ∧
      found.processCodeStart = alignDown params.codeAddress regionAlignment ∧
      found.processCodeEnd = alignUp (params.codeAddress + params.codeSize) regionAlignment := by
  unfold plan at hplan
  rw [h] at hplan
  obtain rfl := Option.some.inj hplan
  exact ⟨(by decide : 2 * gib ≠ 0), (by decide : 64 * gib ≠ 0), rfl, rfl, rfl⟩

/-- The plan for 32 and 36 bits. -/
theorem plan_other (h : params.asType ≠ .addressSpace64Bit) (hplan : plan addressSpaceStart params = some found) :
    found.size .stack = 0 ∧ found.size .kernelMap = 0 ∧ found.processCodeStart = found.codeRegionStart ∧
      found.processCodeEnd = found.codeRegionEnd ∧
      found.codeRegionEnd < 2 ^ getAddressSpaceWidth params.asType ∧
      found.regions = ⟨fun _ => found.codeRegionStart, fun _ => found.codeRegionEnd⟩ := by
  unfold plan at hplan
  cases has : params.asType with
  | addressSpace64Bit => exact absurd has h
  | addressSpace64BitDeprecated =>
    rw [has] at hplan
    obtain rfl := Option.some.inj hplan
    exact ⟨rfl, rfl, rfl, rfl, by decide, rfl⟩
  | addressSpace32Bit =>
    rw [has] at hplan
    obtain rfl := Option.some.inj hplan
    exact ⟨rfl, rfl, rfl, rfl, by decide, rfl⟩
  | addressSpace32BitWithoutAlias =>
    rw [has] at hplan
    obtain rfl := Option.some.inj hplan
    exact ⟨rfl, rfl, rfl, rfl, by decide, rfl⟩

/-- The regions that a type of address space places at random. -/
def Placed (asType : AddressSpaceType) (region : Region) : Prop :=
  asType = .addressSpace64Bit ∨ region = .aliasRegion ∨ region = .heap

/-- What the callers say of the code: it ends in the address space, and with 39 bits does not begin before the region of
the code. -/
structure Params.CodeFits (params : Params) (addressSpaceStart : ℕ) : Prop where
  code_end : params.codeAddress + params.codeSize ≤ 2 ^ getAddressSpaceWidth params.asType
  code_start : params.asType = .addressSpace64Bit →
    addressSpaceStart + params.aslrSpaceStart + 128 * mib ≤ alignDown params.codeAddress regionAlignment

/-- `LoadFromMetadata` puts the code of a 39-bit process 2 GiB behind the start of its randomised space. -/
theorem codeFits_of_loadFromMetadata (h39 : params.asType = .addressSpace64Bit)
    (hcode : params.codeAddress = 2 * gib + params.aslrSpaceStart)
    (hend : params.codeAddress + params.codeSize ≤ 2 ^ 39) : params.CodeFits 0 where
  code_end := by
    rw [h39]
    exact hend
  code_start _ := by
    have hstart : params.codeAddress < alignDown params.codeAddress regionAlignment + regionAlignment :=
      lt_alignDown_add (by decide)
    have haligned : regionAlignment ≤ 128 * mib := by decide
    have hroom : 256 * mib ≤ 2 * gib := by decide
    omega

/-- The regions are placed in a part of the address space. -/
theorem allocArea_le (hfits : params.CodeFits addressSpaceStart) (hplan : plan addressSpaceStart params = some found) :
    (found.allocArea (2 ^ getAddressSpaceWidth params.asType)).1 +
      (found.allocArea (2 ^ getAddressSpaceWidth params.asType)).2 ≤ 2 ^ getAddressSpaceWidth params.asType := by
  have hwidth : (2 : ℕ) ^ getAddressSpaceWidth params.asType < 2 ^ 64 := by
    cases params.asType <;> decide
  by_cases h : params.asType = .addressSpace64Bit
  · obtain ⟨-, -, hregion, hstart, hstop⟩ := plan_39 h hplan
    have hbefore : found.codeRegionStart ≤ found.processCodeStart := by
      rw [hregion, hstart]
      exact hfits.code_start h
    have hcode : found.processCodeStart ≤ 2 ^ getAddressSpaceWidth params.asType := by
      rw [hstart]
      exact (alignDown_le _ _).trans ((Nat.le_add_right _ _).trans hfits.code_end)
    have hbehind : found.processCodeEnd ≤ 2 ^ getAddressSpaceWidth params.asType := by
      rw [hstop]
      refine alignUp_le ?_ hfits.code_end
      rw [h]
      decide
    unfold Plan.allocArea
    rw [sub64_eq hbefore (by omega), sub64_eq hbehind hwidth]
    split_ifs <;> simp only <;> omega
  · obtain ⟨-, -, hstart, hstop, hlt, -⟩ := plan_other h hplan
    unfold Plan.allocArea
    rw [hstart, hstop, sub64_eq hlt.le hwidth]
    have hzero : sub64 found.codeRegionStart found.codeRegionStart = 0 := by
      unfold sub64
      omega
    rw [hzero, if_neg (by omega)]
    omega

/-- With 32 and 36 bits the regions are placed behind the code. -/
theorem allocArea_other (h : params.asType ≠ .addressSpace64Bit) (hplan : plan addressSpaceStart params = some found) :
    (found.allocArea (2 ^ getAddressSpaceWidth params.asType)).1 = found.codeRegionEnd := by
  have hwidth : (2 : ℕ) ^ getAddressSpaceWidth params.asType < 2 ^ 64 := by
    cases params.asType <;> decide
  obtain ⟨-, -, hstart, hstop, hlt, -⟩ := plan_other h hplan
  have hzero : sub64 found.codeRegionStart found.codeRegionStart = 0 := by
    unfold sub64
    omega
  unfold Plan.allocArea
  rw [hstart, hstop, sub64_eq hlt.le hwidth, hzero, if_neg (by omega)]

/-- What a successful call has done. -/
theorem initializeForProcess_eq {random : Region → RandomRange} {regions : Regions}
    (hrun : initializeForProcess addressSpaceStart params random = some (some (found, regions))) :
    plan addressSpaceStart params = some found ∧
      found.neededSize ≤ (found.allocArea (2 ^ getAddressSpaceWidth params.asType)).2 ∧
      ∃ rnd : Region → ℕ,
        (∀ region, rnd region ≤
          (found.allocArea (2 ^ getAddressSpaceWidth params.asType)).2 - found.neededSize) ∧
        regions = setupRegions (found.allocArea (2 ^ getAddressSpaceWidth params.asType)).1 found.size rnd
          found.regions := by
  obtain ⟨found', hplan, hrest⟩ := Option.bind_eq_some_iff.mp hrun
  -- The area is named before the match on it is reduced: its subtractions of 64 bits are not to be evaluated.
  rcases harea : found'.allocArea (2 ^ getAddressSpaceWidth params.asType) with ⟨allocStart, allocSize⟩
  rw [harea] at hrest
  simp only at hrest
  by_cases hroom : found'.neededSize ≤ allocSize
  · rw [if_pos hroom] at hrest
    obtain ⟨rfl, rfl⟩ := Prod.mk.inj (Option.some.inj (Option.some.inj hrest))
    rw [harea]
    refine ⟨hplan, hroom, _, fun region => ?_, rfl⟩
    split_ifs
    · exact (random region).generate_mul_le _ _
    · exact Nat.zero_le _
  · rw [if_neg hroom] at hrest
    cases hrest

/-- A call succeeds when there is room for all regions. -/
theorem initializeForProcess_of_room (random : Region → RandomRange) (hplan : plan addressSpaceStart params = some found)
    (hroom : found.neededSize ≤ (found.allocArea (2 ^ getAddressSpaceWidth params.asType)).2) :
    ∃ regions, initializeForProcess addressSpaceStart params random = some (some (found, regions)) := by
  unfold initializeForProcess
  rcases harea : found.allocArea (2 ^ getAddressSpaceWidth params.asType) with ⟨allocStart, allocSize⟩
  rw [harea] at hroom
  rw [hplan, Option.bind_eq_bind, Option.bind_some, harea]
  simp only
  rw [if_pos hroom]
  exact ⟨_, rfl⟩

/-- A region that is displaced from its draw, with its size. -/
theorem placed_between {area : ℕ × ℕ} {rnd : Region → ℕ} {regions : Regions} {region : Region}
    (hroom : found.neededSize ≤ area.2) (hrnd : rnd region ≤ area.2 - found.neededSize)
    (hstart : regions.start region = area.1 + displaced found.size rnd (drawKey rnd) region)
    (hstop : regions.stop region = regions.start region + found.size region) :
    area.1 ≤ regions.start region ∧ regions.stop region ≤ area.1 + area.2 := by
  have hend : displaced found.size rnd (drawKey rnd) region + found.size region ≤ _ := displaced_add_size_le hrnd
  have hneeded : ∑ region, found.size region = found.neededSize := by
    rw [sum_size]
    unfold Plan.neededSize
    omega
  rw [hneeded] at hend
  omega

theorem placed_apart {area : ℕ × ℕ} {rnd : Region → ℕ} {regions : Regions} {region other : Region} (hne : region ≠ other)
    (hstart : ∀ r, r = region ∨ r = other →
      regions.start r = area.1 + displaced found.size rnd (drawKey rnd) r)
    (hstop : ∀ r, r = region ∨ r = other → regions.stop r = regions.start r + found.size r) :
    regions.stop region ≤ regions.start other ∨ regions.stop other ≤ regions.start region := by
  have hregion := hstart region (.inl rfl)
  have hother := hstart other (.inr rfl)
  rw [hstop region (.inl rfl), hstop other (.inr rfl), hregion, hother]
  have hapart : displaced found.size rnd (drawKey rnd) region + found.size region ≤ _ ∨ _ :=
    displaced_apart (drawKey_injective rnd) (drawKey_mono rnd) hne
  omega

/-- Where the regions come to lie. -/
theorem setupRegions_layout (allocStart : ℕ) (rnd : Region → ℕ) (hplan : plan addressSpaceStart params = some found) :
    (∀ region, Placed params.asType region →
      (setupRegions allocStart found.size rnd found.regions).start region =
          allocStart + displaced found.size rnd (drawKey rnd) region ∧
        (setupRegions allocStart found.size rnd found.regions).stop region =
          (setupRegions allocStart found.size rnd found.regions).start region + found.size region) ∧
    ∀ region, ¬ Placed params.asType region →
      (setupRegions allocStart found.size rnd found.regions).start region = found.codeRegionStart ∧
        (setupRegions allocStart found.size rnd found.regions).stop region = found.codeRegionEnd := by
  by_cases h : params.asType = .addressSpace64Bit
  · obtain ⟨hstack, hmap, -⟩ := plan_39 h hplan
    exact ⟨fun region _ => ⟨setupRegions_start hstack hmap _ region, setupRegions_stop hstack hmap _ region⟩,
      fun region hnot => absurd (.inl h) hnot⟩
  · obtain ⟨hstack, hmap, -, -, -, hregions⟩ := plan_other h hplan
    obtain ⟨halias, hheap⟩ := setupHeapAndAlias_displaced allocStart rnd hstack hmap found.regions
    obtain ⟨hastop, hhstop, hrest⟩ :=
      setupHeapAndAlias_rest allocStart found.size rnd found.regions
    rw [setupRegions_of_zero hstack hmap]
    constructor
    · rintro region (h39 | rfl | rfl)
      · exact absurd h39 h
      · exact ⟨halias, hastop⟩
      · exact ⟨hheap, hhstop⟩
    · intro region hnot
      obtain ⟨hstart, hstop⟩ := hrest region (fun heq => hnot (.inr (.inl heq))) fun heq => hnot (.inr (.inr heq))
      rw [hstart, hstop, hregions]
      exact ⟨rfl, rfl⟩

/-- A region that is not placed is the region of the code, which ends where the others are placed. -/
theorem initializeForProcess_of_not_placed {random : Region → RandomRange} {regions : Regions}
    (hrun : initializeForProcess addressSpaceStart params random = some (some (found, regions))) {region : Region}
    (hnot : ¬ Placed params.asType region) :
    regions.start region = found.codeRegionStart ∧ regions.stop region = found.codeRegionEnd ∧
      found.codeRegionEnd = (found.allocArea (2 ^ getAddressSpaceWidth params.asType)).1 := by
  obtain ⟨hplan, -, rnd, -, rfl⟩ := initializeForProcess_eq hrun
  obtain ⟨hstart, hstop⟩ := (setupRegions_layout _ rnd hplan).2 region hnot
  exact ⟨hstart, hstop, (allocArea_other (fun h => hnot (.inl h)) hplan).symm⟩

/-- **The layout of a process.** Whatever is drawn, equal draws included, the regions that are placed have their sizes, lie
in the part of the address space they are placed in and do not overlap: all four with 39 bits, the alias and the heap region
with 32 and 36 bits. There the stack and the kernel map are the region of the code, which ends where that part begins. -/
theorem initializeForProcess_layout {random : Region → RandomRange} {regions : Regions}
    (hfits : params.CodeFits addressSpaceStart)
    (hrun : initializeForProcess addressSpaceStart params random = some (some (found, regions))) :
    (found.allocArea (2 ^ getAddressSpaceWidth params.asType)).1 +
        (found.allocArea (2 ^ getAddressSpaceWidth params.asType)).2 ≤ 2 ^ getAddressSpaceWidth params.asType ∧
    (∀ region, Placed params.asType region →
      regions.stop region = regions.start region + found.size region ∧
      (found.allocArea (2 ^ getAddressSpaceWidth params.asType)).1 ≤ regions.start region ∧
      regions.stop region ≤ (found.allocArea (2 ^ getAddressSpaceWidth params.asType)).1 +
        (found.allocArea (2 ^ getAddressSpaceWidth params.asType)).2) ∧
    (∀ region other, Placed params.asType region → Placed params.asType other → region ≠ other →
      regions.stop region ≤ regions.start other ∨ regions.stop other ≤ regions.start region) ∧
    (∀ region, ¬ Placed params.asType region →
      regions.start region = found.codeRegionStart ∧ regions.stop region = found.codeRegionEnd ∧
      found.codeRegionEnd = (found.allocArea (2 ^ getAddressSpaceWidth params.asType)).1) := by
  have hcode : ∀ region, ¬ Placed params.asType region → _ := fun region => initializeForProcess_of_not_placed hrun
  obtain ⟨hplan, hroom, rnd, hrnd, rfl⟩ := initializeForProcess_eq hrun
  have hplaced :=
    (setupRegions_layout (found.allocArea (2 ^ getAddressSpaceWidth params.asType)).1 rnd hplan).1
  refine ⟨allocArea_le hfits hplan, fun region hregion => ?_, fun region other hregion hother hne => ?_, hcode⟩
  · obtain ⟨hstart, hstop⟩ := hplaced region hregion
    exact ⟨hstop, placed_between hroom (hrnd region) hstart hstop⟩
  · have hboth : ∀ r, r = region ∨ r = other → Placed params.asType r := by
      rintro r (rfl | rfl)
      · exact hregion
      · exact hother
    exact placed_apart hne (fun r hr => (hplaced r (hboth r hr)).1) fun r hr => (hplaced r (hboth r hr)).2

/-- A process in 39 bits whose four draws are equal. -/
def tiedParams : Params where
  asType := .addressSpace64Bit
  enableAliasRegionExtraSize := true
  enableAslr := true
  codeAddress := 2 * gib
  codeSize := mib
  aslrSpaceStart := 0

theorem initializeForProcess_layout_tied : ∃ found regions,
    initializeForProcess 0 tiedParams (fun _ => .uniform 5) = some (some (found, regions)) ∧
      (regions.stop .kernelMap ≤ regions.start .stack ∨ regions.stop .stack ≤ regions.start .kernelMap) := by
  obtain ⟨regions, hrun⟩ :=
    initializeForProcess_of_room (fun _ => .uniform 5) (rfl : plan 0 tiedParams = some _) (by decide)
  have hfits : tiedParams.CodeFits 0 := codeFits_of_loadFromMetadata rfl rfl (by decide)
  exact ⟨_, regions, hrun, (initializeForProcess_layout hfits hrun).2.2.1 .kernelMap .stack (.inl rfl) (.inl rfl)
    (by decide)⟩

/-- A process in 36 bits, with its code where `LoadFromMetadata` puts it. -/
def deprecatedParams : Params where
  asType := .addressSpace64BitDeprecated
  enableAliasRegionExtraSize := false
  enableAslr := true
  codeAddress := 128 * mib
  codeSize := mib
  aslrSpaceStart := 0

/-- In 36 bits the stack and the kernel map are the same region, and not where the regions are placed. -/
theorem not_layout_deprecated : ¬ ∀ (params : Params) (random : Region → RandomRange) (found : Plan) (regions : Regions),
    params.CodeFits 0 → initializeForProcess 0 params random = some (some (found, regions)) →
      ∀ region other, region ≠ other →
        regions.stop region ≤ regions.start other ∨ regions.stop other ≤ regions.start region := by
  intro h
  obtain ⟨regions, hrun⟩ :=
    initializeForProcess_of_room (fun _ => .uniform 5) (rfl : plan 0 deprecatedParams = some _) (by decide)
  have hfits : deprecatedParams.CodeFits 0 := ⟨by decide, fun h39 => absurd h39 (by decide)⟩
  have hstack : ¬ Placed deprecatedParams.asType .stack := by
    unfold Placed
    decide
  have hmap : ¬ Placed deprecatedParams.asType .kernelMap := by
    unfold Placed
    decide
  obtain ⟨hstack, hstack', -⟩ := initializeForProcess_of_not_placed hrun hstack
  obtain ⟨hmap, hmap', -⟩ := initializeForProcess_of_not_placed hrun hmap
  have hapart := h deprecatedParams _ _ _ hfits hrun .stack .kernelMap (by decide)
  rw [hstack, hstack', hmap, hmap'] at hapart
  revert hapart
  decide

end Whole

end PageTableLayout
end Kernel
end Citron
