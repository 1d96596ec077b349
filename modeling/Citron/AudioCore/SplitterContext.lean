/-
# The splitter context

`SplitterContext::Update`: the guest's buffer has records for splitters, which name the destinations of a splitter, and
records for destinations. A destination has the next one of its splitter's list. An index outside its array is a fault, and
so is following a list past as many destinations as there are, which never ends.
-/
import Citron.Lib.Chains
import Citron.Lib.Checked

namespace Citron

open Function

namespace AudioCore
namespace Renderer
namespace Splitter

open Lib Checked

abbrev U32 := BitVec 32

/-- The bytes of the update buffer. -/
abbrev Input := ℕ → UInt8

/-- The word at a position. -/
def word (input : Input) (a : ℕ) : U32 :=
  BitVec.ofNat 32 ((input a).toNat + (input (a + 1)).toNat * 2 ^ 8 + (input (a + 2)).toNat * 2 ^ 16 +
    (input (a + 3)).toNat * 2 ^ 24)

def makeMagic (a b c d : Char) : U32 :=
  BitVec.ofNat 32 (a.toNat + b.toNat * 2 ^ 8 + c.toNat * 2 ^ 16 + d.toNat * 2 ^ 24)

def splitterInParamHeaderMagic : U32 := makeMagic 'S' 'N' 'D' 'H'

def splitterInfoMagic : U32 := makeMagic 'S' 'N' 'D' 'I'

def splitterSendDataMagic : U32 := makeMagic 'S' 'N' 'D' 'D'

/-! ### Parameters -/

structure InParameterHeader where
  magic : U32
  infoCount : U32
  destinationCount : U32

def inParameterHeader (input : Input) : InParameterHeader := ⟨word input 0, word input 4, word input 8⟩

/-- `SplitterInfo::InParameter` -/
structure InfoParameter where
  magic : U32
  id : U32
  sampleRate : U32
  destinationCount : U32

def infoParameter (input : Input) (offset : U32) : InfoParameter :=
  ⟨word input offset.toNat, word input (offset.toNat + 4), word input (offset.toNat + 8), word input (offset.toNat + 12)⟩

/-- The words behind a splitter's parameters. -/
def destinationIds (input : Input) (offset : U32) (count : ℕ) : List ℕ :=
  (List.range count).map fun k => (word input (offset.toNat + 16 + 4 * k)).toNat

/-- The three versions of a destination's parameters. -/
inductive Version
  | v1 | v2a | v2b
  deriving DecidableEq

namespace Version

/-- The bytes of the parameters. -/
def size : Version → U32
  | v1 => 0x70
  | v2a => 0x90
  | v2b => 0xA8

/-- Where `in_use` is, with `reset_prev_volume` behind it. -/
def inUseAt : Version → ℕ
  | v1 => 0x6C
  | v2a => 0x84
  | v2b => 0x9C

end Version

/-- `SplitterDestinationData::InParameter`; the volumes are kept as their bits. -/
structure DestinationParameter where
  magic : U32
  id : U32
  mixVolumes : List U32
  mixId : U32
  inUse : Bool
  resetPrevVolume : Bool

def destinationParameter (version : Version) (input : Input) (offset : U32) : DestinationParameter where
  magic := word input offset.toNat
  id := word input (offset.toNat + 4)
  mixVolumes := (List.range 24).map fun k => word input (offset.toNat + 8 + 4 * k)
  mixId := word input (offset.toNat + 0x68)
  inUse := input (offset.toNat + version.inUseAt) ≠ 0
  resetPrevVolume := input (offset.toNat + version.inUseAt + 1) ≠ 0

/-! ### The context -/

structure SplitterInfo where
  id : ℤ
  sampleRate : U32
  destinationCount : ℕ
  hasNewConnection : Bool
  destinations : Option ℕ

structure SplitterDestinationData where
  id : ℤ
  destinationId : U32
  mixVolumes : List U32
  prevMixVolumes : List U32
  next : Option ℕ
  inUse : Bool
  needUpdate : Bool

/-- What `Setup` fixes. -/
structure Setup where
  infoCount : ℕ
  destinationsCount : ℕ
  splitterBugFixed : Bool
  splitterPrevVolumeResetSupported : Bool
  splitterFloatCoeffSupported : Bool
  splitterBiquadFilterEnabled : Bool

/-- The two arrays, by index. -/
structure SplitterContext where
  infos : ℕ → SplitterInfo
  destinations : ℕ → SplitterDestinationData

inductive Fault
  | splitter (index : ℤ)
  | destination (index : ℤ)
  | endless
  deriving DecidableEq

abbrev Step (α : Type) : Type := Checked Fault SplitterContext α

/-- The context as `Initialize` constructs it. -/
def initial : SplitterContext where
  infos i := ⟨i, 0, 0, true, none⟩
  destinations d := ⟨d, 0x7FFFFFFF, List.replicate 24 0, List.replicate 24 0, none, false, false⟩

namespace SplitterContext

variable (s : SplitterContext)

def next (d : ℕ) : Option ℕ := (s.destinations d).next

/-- Other successors for the destinations. -/
def withNext (next : ℕ → Option ℕ) : SplitterContext :=
  { s with destinations := fun d => { s.destinations d with next := next d } }

def modifyInfo (i : ℕ) (f : SplitterInfo → SplitterInfo) : SplitterContext :=
  { s with infos := Function.update s.infos i (f (s.infos i)) }

def modifyDestination (d : ℕ) (f : SplitterDestinationData → SplitterDestinationData) : SplitterContext :=
  { s with destinations := Function.update s.destinations d (f (s.destinations d)) }

end SplitterContext

variable (c : Setup)

namespace Setup

def usingSplitter : Bool := 0 < c.infoCount ∧ 0 < c.destinationsCount

def getDestCountPerInfoForCompat : ℕ := if c.infoCount = 0 then 0 else c.destinationsCount / c.infoCount

def version : Version :=
  if c.splitterBiquadFilterEnabled ∧ !c.splitterFloatCoeffSupported then .v2a
  else if !c.splitterFloatCoeffSupported then .v1
  else .v2b

end Setup

/-- `splitter_infos[index]` -/
def infoAt (index : ℤ) : Step ℕ :=
  if 0 ≤ index ∧ index < c.infoCount then pure index.toNat else throw (.splitter index)

/-- `splitter_destinations[index]` -/
def destinationAt (index : ℤ) : Step ℕ :=
  if 0 ≤ index ∧ index < c.destinationsCount then pure index.toNat else throw (.destination index)

/-! ### The lists of the splitters -/

def setNext (d : ℕ) (next : Option ℕ) : Step Unit :=
  modify fun s => s.modifyDestination d fun destination => { destination with next := next }

def setDestinations (i : ℕ) (destinations : Option ℕ) : Step Unit :=
  modify fun s => s.modifyInfo i fun info => { info with destinations := destinations }

def setDestinationCount (i count : ℕ) : Step Unit :=
  modify fun s => s.modifyInfo i fun info => { info with destinationCount := count }

/-- `SplitterInfo::GetData` -/
def getData (s : SplitterContext) (i destinationId : ℕ) : Option ℕ :=
  follow s.next destinationId (s.infos i).destinations

/-- The loop of `RecomposeDestination` that takes a list apart. -/
def clearLinks : ℕ → Option ℕ → Step Unit
  | _, none => pure ()
  | 0, some _ => throw .endless
  | fuel + 1, some destination => do
    let s ← get
    let dest := s.next destination
    setNext destination none
    clearLinks fuel dest

/-- The loop of `RecomposeDestination` that links each destination behind the one before it. -/
def linkFrom (currentDestination : ℕ) : List ℕ → Step Unit
  | [] => pure ()
  | id :: ids => do
    let nextDestination ← destinationAt c id
    setNext currentDestination (some nextDestination)
    linkFrom nextDestination ids

/-- How many of the named destinations count. -/
def destCount (infoHeader : InfoParameter) : ℕ :=
  if c.splitterBugFixed then infoHeader.destinationCount.toNat
  else min infoHeader.destinationCount.toNat c.getDestCountPerInfoForCompat

def recomposeDestination (i : ℕ) (input : Input) (offset : U32) (infoHeader : InfoParameter) : Step Unit := do
  let s ← get
  clearLinks (c.destinationsCount + 1) (getData s i 0)
  setDestinations i none
  match destinationIds input offset (destCount c infoHeader) with
  | [] => return ()
  | id :: ids =>
    let head ← destinationAt c id
    linkFrom c head ids
    setDestinations i (some head)
    setDestinationCount i (destCount c infoHeader)

/-! ### The update -/

/-- The bytes of a splitter's parameters. -/
def infoSize (params : InfoParameter) : U32 := BitVec.ofNat 32 (16 + 3 * 4 + params.destinationCount.toNat * 4)

/-- `SplitterInfo::Update` -/
def infoUpdate (i : ℕ) (params : InfoParameter) : Step U32 := do
  let s ← get
  if params.id.toInt ≠ (s.infos i).id then return 0
  else
    modify fun s => s.modifyInfo i fun info => { info with sampleRate := params.sampleRate, hasNewConnection := true }
    return infoSize params

def updateInfo (input : Input) : ℕ → U32 → Step U32
  | 0, offset => return offset
  | n + 1, offset =>
    let infoHeader := infoParameter input offset
    if infoHeader.magic ≠ splitterInfoMagic then updateInfo input n offset
    else if infoHeader.id.toInt < 0 ∨ c.infoCount < infoHeader.id.toInt then return offset
    else do
      let info ← infoAt c infoHeader.id.toInt
      recomposeDestination c info input offset infoHeader
      let size ← infoUpdate info infoHeader
      updateInfo input n (offset + size)

/-- `SplitterDestinationData::Update` -/
def SplitterDestinationData.update (params : DestinationParameter) (isPrevVolumeResetSupported : Bool)
    (destination : SplitterDestinationData) : SplitterDestinationData :=
  if params.id.toInt ≠ destination.id ∨ params.magic ≠ splitterSendDataMagic then destination
  else
    let resetPrevVolume :=
      if isPrevVolumeResetSupported then params.resetPrevVolume else !destination.inUse && params.inUse
    { destination with
      destinationId := params.mixId
      mixVolumes := params.mixVolumes
      prevMixVolumes := if resetPrevVolume then params.mixVolumes else destination.prevMixVolumes
      needUpdate := if resetPrevVolume then false else destination.needUpdate
      inUse := params.inUse }

/-- The update of the destination that the parameters name, with the flag that is not supported cleared. -/
def updateDestination (params : DestinationParameter) : Step Unit := do
  let destination ← destinationAt c params.id.toInt
  let mapped := { params with resetPrevVolume := c.splitterPrevVolumeResetSupported && params.resetPrevVolume }
  modify fun s => s.modifyDestination destination (·.update mapped c.splitterPrevVolumeResetSupported)

def updateData (input : Input) : ℕ → U32 → Step U32
  | 0, offset => return offset
  | n + 1, offset =>
    let dataHeader := destinationParameter c.version input offset
    match c.version with
    | .v2a =>
      if dataHeader.magic ≠ splitterSendDataMagic then updateData input n (offset + c.version.size)
      else if dataHeader.id.toInt < 0 ∨ c.destinationsCount ≤ dataHeader.id.toInt then
        updateData input n (offset + c.version.size)
      else do
        updateDestination c dataHeader
        updateData input n (offset + c.version.size)
    | .v1 | .v2b =>
      if dataHeader.magic ≠ splitterSendDataMagic then updateData input n offset
      else if dataHeader.id.toInt < 0 ∨ c.destinationsCount < dataHeader.id.toInt then updateData input n offset
      else do
        updateDestination c dataHeader
        updateData input n (offset + c.version.size)

def clearNewConnectionFlags : Step Unit :=
  modify fun s => { s with infos := fun i => { s.infos i with hasNewConnection := false } }

/-- `Common::AlignUp` to 16 -/
def alignUp (value : U32) : U32 := if value % 16 = 0 then value else value - value % 16 + 16

/-- The result with the number of bytes consumed. -/
def update (input : Input) : Step (Bool × U32) :=
  let inParams := inParameterHeader input
  if !c.usingSplitter then return (true, 0)
  else if inParams.magic ≠ splitterInParamHeaderMagic then return (false, 0)
  else do
    clearNewConnectionFlags
    let offset ← updateInfo c input inParams.infoCount.toNat 0x20
    let offset ← updateData c input inParams.destinationCount.toNat offset
    return (true, alignUp offset)

/-! ### The internal state -/

/-- `SplitterDestinationData::UpdateInternalState` -/
def SplitterDestinationData.updateInternalState (destination : SplitterDestinationData) : SplitterDestinationData :=
  { destination with
    prevMixVolumes := if destination.inUse && destination.needUpdate then destination.mixVolumes
      else destination.prevMixVolumes
    needUpdate := false }

/-- `SplitterInfo::UpdateInternalState` from a destination on. -/
def updateList : ℕ → Option ℕ → Step Unit
  | _, none => pure ()
  | 0, some _ => throw .endless
  | fuel + 1, some destination => do
    modify fun s => s.modifyDestination destination (·.updateInternalState)
    let s ← get
    updateList fuel (s.next destination)

/-- The lists of the first splitters. -/
def updateLists : ℕ → Step Unit
  | 0 => pure ()
  | i + 1 => do
    updateLists i
    let s ← get
    updateList c.destinationsCount (s.infos i).destinations

def updateInternalState : Step Unit := updateLists c c.infoCount

end Splitter

/-! ## The lists of the splitters

Every splitter has the destinations that it was last given, in order and as many as it counts; no two splitters share one,
and a destination of no splitter has no successor. `RecomposeDestination` keeps this when the new destinations exist, are
named once and belong to no other splitter.
-/

namespace Splitter

open Lib Checked

variable {c : Setup} {s : SplitterContext} {i d : ℕ}

@[simp] theorem next_withNext (next : ℕ → Option ℕ) : (s.withNext next).next = next := rfl

@[simp] theorem infos_withNext (next : ℕ → Option ℕ) : (s.withNext next).infos = s.infos := rfl

@[simp] theorem withNext_withNext (next next' : ℕ → Option ℕ) : (s.withNext next).withNext next' = s.withNext next' := rfl

@[simp] theorem withNext_next (s : SplitterContext) : s.withNext s.next = s := rfl

@[simp] theorem next_modifyInfo (f : SplitterInfo → SplitterInfo) : (s.modifyInfo i f).next = s.next := rfl

theorem setNext_eq (d : ℕ) (next : Option ℕ) (s : SplitterContext) :
    setNext d next s = .ok ((), s.withNext (Function.update s.next d next)) := by
  change Except.ok ((), s.modifyDestination d _) = _
  congr 2
  unfold SplitterContext.modifyDestination SplitterContext.withNext
  congr 1
  funext k
  by_cases hk : k = d
  · subst hk
    simp
  · simp [update_of_ne hk, SplitterContext.next]

theorem destinationAt_eq (h : d < c.destinationsCount) (s : SplitterContext) : destinationAt c d s = .ok (d, s) := by
  have hbounds : 0 ≤ (d : ℤ) ∧ (d : ℤ) < c.destinationsCount := by omega
  rw [destinationAt, if_pos hbounds]
  rfl

theorem infoAt_eq (h : i < c.infoCount) (s : SplitterContext) : infoAt c i s = .ok (i, s) := by
  have hbounds : 0 ≤ (i : ℤ) ∧ (i : ℤ) < c.infoCount := by omega
  rw [infoAt, if_pos hbounds]
  rfl

/-! ### The loops -/

/-- Taking a list apart clears the successors of its destinations. -/
theorem clearLinks_eq {fuel : ℕ} {start : Option ℕ} {xs : List ℕ} (h : Chained s.next start xs) (hfuel : xs.length ≤ fuel) :
    clearLinks fuel start s = .ok ((), s.withNext (unlinkAll s.next xs)) := by
  induction xs generalizing fuel start s with
  | nil =>
    obtain rfl : start = none := h
    have hnone : clearLinks fuel none s = .ok ((), s) := by cases fuel <;> rfl
    rw [hnone]
    congr 2
  | cons x xs ih =>
    have hnodup := h.nodup
    obtain ⟨rfl, h⟩ := h
    obtain ⟨hx, -⟩ := List.nodup_cons.mp hnodup
    cases fuel with
    | zero => exact absurd hfuel (Nat.not_succ_le_zero _)
    | succ fuel =>
      have hrest : Chained (s.withNext (Function.update s.next x none)).next (s.next x) xs := by
        apply h.congr
        intro y hy
        have hyx : y ≠ x := fun hyx => hx (hyx ▸ hy)
        exact update_of_ne hyx _ _
      have hunlink : unlinkAll (Function.update s.next x none) xs = unlinkAll s.next (x :: xs) := by
        funext y
        by_cases hyx : y = x
        · subst hyx
          simp [unlinkAll]
        · simp [unlinkAll, hyx]
      rw [clearLinks]
      refine (bind_eq_ok (a := s) rfl).trans ?_
      refine (bind_eq_ok (setNext_eq x none s)).trans ?_
      rw [ih hrest (Nat.le_of_succ_le_succ hfuel)]
      simp [hunlink]

/-- Linking puts the destinations behind one another. -/
theorem linkFrom_eq {ids : List ℕ} (hids : ∀ id ∈ ids, id < c.destinationsCount) (x : ℕ) (s : SplitterContext) :
    linkFrom c x ids s = .ok ((), s.withNext (linkAll s.next (x :: ids))) := by
  induction ids generalizing x s with
  | nil => rfl
  | cons y ids ih =>
    rw [linkFrom]
    refine (bind_eq_ok (destinationAt_eq (hids y List.mem_cons_self) s)).trans ?_
    refine (bind_eq_ok (setNext_eq x (some y) s)).trans ?_
    rw [ih fun id hid => hids id (List.mem_cons_of_mem y hid)]
    rfl

/-! ### The invariant -/

/-- The splitters have the lists of destinations that are `assigned` to them. -/
structure Linked (c : Setup) (s : SplitterContext) (assigned : ℕ → List ℕ) : Prop where
  id : ∀ i < c.infoCount, (s.infos i).id = i
  chained : ∀ i < c.infoCount, Chained s.next (s.infos i).destinations (assigned i)
  inside : ∀ i < c.infoCount, ∀ d ∈ assigned i, d < c.destinationsCount
  count : ∀ i < c.infoCount, (s.infos i).destinationCount = (assigned i).length
  disjoint : ∀ i < c.infoCount, ∀ j < c.infoCount, i ≠ j → (assigned i).Disjoint (assigned j)
  free : ∀ d, (∀ i < c.infoCount, d ∉ assigned i) → s.next d = none

theorem initial_linked (c : Setup) : Linked c initial fun _ => [] where
  id _ _ := rfl
  chained _ _ := rfl
  inside _ _ _ hd := absurd hd List.not_mem_nil
  count _ _ := rfl
  disjoint _ _ _ _ _ := List.disjoint_nil_left _
  free _ _ := rfl

variable {assigned : ℕ → List ℕ}

/-- A list has at most as many destinations as there are. -/
theorem Linked.length_le (h : Linked c s assigned) (hi : i < c.infoCount) :
    (assigned i).length ≤ c.destinationsCount := by
  have hsub : assigned i ⊆ List.range c.destinationsCount := fun d hd => List.mem_range.mpr (h.inside i hi d hd)
  have hle := ((h.chained i hi).nodup.subperm hsub).length_le
  rwa [List.length_range] at hle

/-- What a record may name for a splitter, given what the splitters have. -/
structure Assignable (c : Setup) (assigned : ℕ → List ℕ) (i : ℕ) (ids : List ℕ) : Prop where
  splitter : i < c.infoCount
  inside : ∀ id ∈ ids, id < c.destinationsCount
  nodup : ids.Nodup
  unshared : ∀ j < c.infoCount, j ≠ i → ids.Disjoint (assigned j)
  counted : ids = [] → assigned i = []

/-! ### Another list for a splitter -/

/-- The successors once the list of the splitter is taken apart. -/
theorem Linked.unlinked_of_other (h : Linked c s assigned) (hi : i < c.infoCount) {j : ℕ}
    (hj : j < c.infoCount) (hji : j ≠ i) (hd : d ∈ assigned j) : unlinkAll s.next (assigned i) d = s.next d :=
  if_neg fun hdi => h.disjoint j hj i hi hji hd hdi

theorem Linked.unlinked_free (h : Linked c s assigned)
    (hd : ∀ j < c.infoCount, j ≠ i → d ∉ assigned j) : unlinkAll s.next (assigned i) d = none := by
  unfold unlinkAll
  split
  · rfl
  · next hdi =>
    apply h.free
    intro j hj
    by_cases hji : j = i
    · exact hji ▸ hdi
    · exact hd j hj hji

/-- The other splitters keep what they have. -/
theorem Linked.relinked {ids : List ℕ} (h : Linked c s assigned) (ha : Assignable c assigned i ids)
    {s' : SplitterContext} (hid : (s'.infos i).id = i) (hcount : (s'.infos i).destinationCount = ids.length)
    (hchained : Chained s'.next (s'.infos i).destinations ids) (hinfos : ∀ j, j ≠ i → s'.infos j = s.infos j)
    (hnext : ∀ d, d ∉ ids → s'.next d = unlinkAll s.next (assigned i) d) :
    Linked c s' (Function.update assigned i ids) where
  id j hj := by
    by_cases hji : j = i
    · rw [hji, hid]
    · rw [hinfos j hji, h.id j hj]
  chained j hj := by
    by_cases hji : j = i
    · rw [hji, update_self]
      exact hchained
    · rw [update_of_ne hji, hinfos j hji]
      apply (h.chained j hj).congr
      intro d hd
      rw [hnext d fun hids => ha.unshared j hj hji hids hd, h.unlinked_of_other ha.splitter hj hji hd]
  inside j hj := by
    by_cases hji : j = i
    · rw [hji, update_self]
      exact ha.inside
    · rw [update_of_ne hji]
      exact h.inside j hj
  count j hj := by
    by_cases hji : j = i
    · rw [hji, update_self, hcount]
    · rw [update_of_ne hji, hinfos j hji, h.count j hj]
  disjoint j hj k hk hjk := by
    by_cases hji : j = i
    · have hki : k ≠ i := fun hki => hjk (hji.trans hki.symm)
      rw [hji, update_self, update_of_ne hki]
      exact ha.unshared k hk hki
    · rw [update_of_ne hji]
      by_cases hki : k = i
      · rw [hki, update_self]
        exact (ha.unshared j hj hji).symm
      · rw [update_of_ne hki]
        exact h.disjoint j hj k hk hjk
  free d hd := by
    have hids : d ∉ ids := by
      have hdi := hd i ha.splitter
      rwa [update_self] at hdi
    rw [hnext d hids]
    apply h.unlinked_free
    intro j hj hji
    have hdj := hd j hj
    rwa [update_of_ne hji] at hdj

/-- **Recomposing gives the splitter the named destinations.** -/
theorem recomposeDestination_spec {input : Input} {offset : U32} {infoHeader : InfoParameter}
    (h : Linked c s assigned)
    (ha : Assignable c assigned i (destinationIds input offset (destCount c infoHeader))) :
    ∃ s', recomposeDestination c i input offset infoHeader s = .ok ((), s') ∧
      Linked c s' (Function.update assigned i (destinationIds input offset (destCount c infoHeader))) := by
  have hclear := clearLinks_eq (h.chained i ha.splitter) (Nat.le_succ_of_le (h.length_le ha.splitter))
  have hlength : (destinationIds input offset (destCount c infoHeader)).length = destCount c infoHeader := by
    rw [destinationIds, List.length_map, List.length_range]
  unfold recomposeDestination
  generalize hids : destinationIds input offset (destCount c infoHeader) = ids at ha hlength ⊢
  cases ids with
  | nil =>
    refine ⟨(s.withNext (unlinkAll s.next (assigned i))).modifyInfo i fun info => { info with destinations := none }, ?_, ?_⟩
    · refine (bind_eq_ok (a := s) rfl).trans ?_
      exact (bind_eq_ok hclear).trans rfl
    · apply h.relinked ha
      · simpa [SplitterContext.modifyInfo] using h.id i ha.splitter
      · simpa [SplitterContext.modifyInfo, ha.counted rfl] using h.count i ha.splitter
      · simp [SplitterContext.modifyInfo, Chained]
      · intro j hji
        simp [SplitterContext.modifyInfo, update_of_ne hji]
      · exact fun d _ => rfl
  | cons id ids =>
    have hfree : ∀ d ∈ id :: ids, unlinkAll s.next (assigned i) d = none := by
      intro d hd
      apply h.unlinked_free
      exact fun j hj hji hdj => ha.unshared j hj hji hd hdj
    refine ⟨((((s.withNext (linkAll (unlinkAll s.next (assigned i)) (id :: ids))).modifyInfo i
      fun info => { info with destinations := none }).modifyInfo i
      fun info => { info with destinations := some id }).modifyInfo i
      fun info => { info with destinationCount := destCount c infoHeader }), ?_, ?_⟩
    · refine (bind_eq_ok (a := s) rfl).trans ?_
      refine (bind_eq_ok hclear).trans ?_
      refine (bind_eq_ok (a := ()) rfl).trans ?_
      refine (bind_eq_ok (destinationAt_eq (ha.inside id List.mem_cons_self) _)).trans ?_
      refine (bind_eq_ok (linkFrom_eq (fun d hd => ha.inside d (List.mem_cons_of_mem id hd)) id _)).trans ?_
      rfl
    · apply h.relinked ha
      · simpa [SplitterContext.modifyInfo] using h.id i ha.splitter
      · simp [SplitterContext.modifyInfo, ← hlength]
      · have hchain := chained_linkAll ha.nodup hfree
        rw [List.head?_cons] at hchain
        simp only [next_modifyInfo, next_withNext]
        simpa only [SplitterContext.modifyInfo, update_self] using hchain
      · intro j hji
        simp [SplitterContext.modifyInfo, update_of_ne hji]
      · intro d hd
        simp [linkAll_of_notMem hd]

end Splitter
end Renderer
end AudioCore
end Citron
