/-
# An update of the splitters

The records of an update are read by position, so the buffer alone says which splitters and destinations are reached and
what they are given. When each record of a splitter is assignable and each record of a destination names one that exists,
the update faults nowhere and the splitters have what their last records named.
-/
import Citron.AudioCore.SplitterContext

namespace Citron
namespace AudioCore
namespace Renderer
namespace Splitter

open Lib Checked

variable {c : Setup} {s s' : SplitterContext} {assigned : ℕ → List ℕ} {input : Input} {i d n : ℕ} {offset : U32}

/-- The computation ends without a fault. -/
def Returns {α : Type} (x : Step α) (s : SplitterContext) (Q : α → SplitterContext → Prop) : Prop :=
  Ends x s Q fun _ => False

theorem Returns.bind {α β : Type} {x : Step α} {f : α → Step β} {P : α → SplitterContext → Prop}
    {Q : β → SplitterContext → Prop} (h : Returns x s P) (hf : ∀ a s', P a s' → Returns (f a) s' Q) : Returns (x >>= f) s Q :=
  Ends.bind h hf

theorem Returns.of_eq {α : Type} {x : Step α} {Q : α → SplitterContext → Prop} {a : α} (h : x s = .ok (a, s')) (hQ : Q a s') :
    Returns x s Q := by
  unfold Returns Ends
  rw [h]
  exact hQ

theorem Returns.mono {α : Type} {x : Step α} {P Q : α → SplitterContext → Prop} (h : Returns x s P)
    (hPQ : ∀ a s', P a s' → Q a s') : Returns x s Q :=
  Ends.mono h hPQ fun _ hfault => hfault

/-! ### The records of a buffer -/

/-- The splitters that the records reach with the destinations they are given, and where the records end. -/
def infoRecords (c : Setup) (input : Input) : ℕ → U32 → List (ℕ × List ℕ) × U32
  | 0, offset => ([], offset)
  | n + 1, offset =>
    let infoHeader := infoParameter input offset
    if infoHeader.magic ≠ splitterInfoMagic then infoRecords c input n offset
    else if infoHeader.id.toInt < 0 ∨ c.infoCount < infoHeader.id.toInt then ([], offset)
    else
      let rest := infoRecords c input n (offset + infoSize infoHeader)
      ((infoHeader.id.toInt.toNat, destinationIds input offset (destCount c infoHeader)) :: rest.1, rest.2)

/-- The destinations that the records reach and whose place in the array is not checked. -/
def dataRecords (c : Setup) (input : Input) : ℕ → U32 → List ℕ
  | 0, _ => []
  | n + 1, offset =>
    let dataHeader := destinationParameter c.version input offset
    match c.version with
    | .v2a => dataRecords c input n (offset + c.version.size)
    | .v1 | .v2b =>
      if dataHeader.magic ≠ splitterSendDataMagic then dataRecords c input n offset
      else if dataHeader.id.toInt < 0 ∨ c.destinationsCount < dataHeader.id.toInt then dataRecords c input n offset
      else dataHeader.id.toInt.toNat :: dataRecords c input n (offset + c.version.size)

/-- What the splitters have after the records. -/
def assign (assigned : ℕ → List ℕ) (records : List (ℕ × List ℕ)) : ℕ → List ℕ :=
  records.foldl (fun assigned record => Function.update assigned record.1 record.2) assigned

/-- Each record may name what it names when its turn comes. -/
inductive Admits (c : Setup) : (ℕ → List ℕ) → List (ℕ × List ℕ) → Prop
  | nil (assigned : ℕ → List ℕ) : Admits c assigned []
  | cons {assigned : ℕ → List ℕ} {i : ℕ} {ids : List ℕ} {records : List (ℕ × List ℕ)} (hassignable : Assignable c assigned i ids)
      (hrest : Admits c (Function.update assigned i ids) records) : Admits c assigned ((i, ids) :: records)

theorem Admits.of_cons {ids : List ℕ} {records : List (ℕ × List ℕ)} (h : Admits c assigned ((i, ids) :: records)) :
    Assignable c assigned i ids ∧ Admits c (Function.update assigned i ids) records := by
  cases h with | cons hassignable hrest
  exact ⟨hassignable, hrest⟩

/-- The update does not return before its records. -/
def ReadsRecords (c : Setup) (input : Input) : Prop :=
  c.usingSplitter ∧ (inParameterHeader input).magic = splitterInParamHeaderMagic

instance (c : Setup) (input : Input) : Decidable (ReadsRecords c input) := inferInstanceAs (Decidable (_ ∧ _))

def splitterRecords (c : Setup) (input : Input) : List (ℕ × List ℕ) × U32 :=
  infoRecords c input (inParameterHeader input).infoCount.toNat 0x20

def destinationRecords (c : Setup) (input : Input) : List ℕ :=
  dataRecords c input (inParameterHeader input).destinationCount.toNat (splitterRecords c input).2

/-- What an update may contain, given what the splitters have. -/
structure Admissible (c : Setup) (assigned : ℕ → List ℕ) (input : Input) : Prop where
  splitters : ReadsRecords c input → Admits c assigned (splitterRecords c input).1
  destinations : ReadsRecords c input → ∀ d ∈ destinationRecords c input, d < c.destinationsCount

def assignedAfter (c : Setup) (assigned : ℕ → List ℕ) (input : Input) : ℕ → List ℕ :=
  if ReadsRecords c input then assign assigned (splitterRecords c input).1 else assigned

/-! ### What leaves the lists alone -/

/-- Only successors, heads and counts matter to the lists. -/
theorem Linked.congr (h : Linked c s assigned) (hnext : s'.next = s.next)
    (hinfo : ∀ i < c.infoCount, (s'.infos i).id = (s.infos i).id ∧ (s'.infos i).destinations = (s.infos i).destinations ∧
      (s'.infos i).destinationCount = (s.infos i).destinationCount) : Linked c s' assigned where
  id i hi := by rw [(hinfo i hi).1, h.id i hi]
  chained i hi := by
    rw [hnext, (hinfo i hi).2.1]
    exact h.chained i hi
  inside := h.inside
  count i hi := by rw [(hinfo i hi).2.2, h.count i hi]
  disjoint := h.disjoint
  free d hd := by
    rw [hnext]
    exact h.free d hd

theorem next_modifyDestination {f : SplitterDestinationData → SplitterDestinationData} (hf : ∀ x, (f x).next = x.next) :
    (s.modifyDestination d f).next = s.next := by
  funext k
  unfold SplitterContext.next SplitterContext.modifyDestination
  by_cases hk : k = d
  · subst hk
    simp [hf]
  · simp [Function.update_of_ne hk]

theorem Linked.modifyDestination (h : Linked c s assigned) {f : SplitterDestinationData → SplitterDestinationData}
    (hf : ∀ x, (f x).next = x.next) : Linked c (s.modifyDestination d f) assigned :=
  h.congr (next_modifyDestination hf) fun _ _ => ⟨rfl, rfl, rfl⟩

theorem next_update (params : DestinationParameter) (isPrevVolumeResetSupported : Bool) (x : SplitterDestinationData) :
    (x.update params isPrevVolumeResetSupported).next = x.next := by
  unfold SplitterDestinationData.update
  split
  · rfl
  · rfl

theorem updateDestination_returns {params : DestinationParameter} (h : Linked c s assigned) (hd : params.id.toInt = d)
    (hlt : d < c.destinationsCount) : Returns (updateDestination c params) s fun _ s' => Linked c s' assigned := by
  apply Returns.bind (P := fun a s' => a = d ∧ s' = s)
  · rw [hd]
    exact .of_eq (destinationAt_eq hlt s) ⟨rfl, rfl⟩
  · rintro _ _ ⟨rfl, rfl⟩
    exact .of_eq rfl (h.modifyDestination (next_update _ _))

theorem clearNewConnectionFlags_returns (h : Linked c s assigned) :
    Returns clearNewConnectionFlags s fun _ s' => Linked c s' assigned :=
  .of_eq rfl (h.congr rfl fun _ _ => ⟨rfl, rfl, rfl⟩)

theorem infoUpdate_returns {params : InfoParameter} (h : Linked c s assigned) (hi : i < c.infoCount)
    (hid : params.id.toInt = i) :
    Returns (infoUpdate i params) s fun size s' => size = infoSize params ∧ Linked c s' assigned := by
  have hsame : ¬params.id.toInt ≠ (s.infos i).id := not_not.mpr (hid.trans (h.id i hi).symm)
  apply Returns.bind (P := fun a s' => a = s ∧ s' = s)
  · exact .of_eq rfl ⟨rfl, rfl⟩
  rintro a s' ⟨ha, hs'⟩
  rw [ha, hs', if_neg hsame]
  refine .of_eq rfl ⟨rfl, h.congr rfl fun j _ => ?_⟩
  by_cases hji : j = i
  · subst hji
    simp [SplitterContext.modifyInfo]
  · simp [SplitterContext.modifyInfo, Function.update_of_ne hji]

/-! ### The records one after the other -/

/-- What a record at the offset is to the splitters. -/
inductive InfoRecord (c : Setup) (input : Input) (offset : U32) : Prop
  | foreign (hmagic : (infoParameter input offset).magic ≠ splitterInfoMagic)
  | outside (hmagic : (infoParameter input offset).magic = splitterInfoMagic)
      (hid : (infoParameter input offset).id.toInt < 0 ∨ c.infoCount < (infoParameter input offset).id.toInt)
  | names (i : ℕ) (hmagic : (infoParameter input offset).magic = splitterInfoMagic)
      (hid : (infoParameter input offset).id.toInt = i) (hle : i ≤ c.infoCount)

theorem infoRecord (c : Setup) (input : Input) (offset : U32) : InfoRecord c input offset := by
  by_cases hmagic : (infoParameter input offset).magic = splitterInfoMagic
  · by_cases hid : (infoParameter input offset).id.toInt < 0 ∨ c.infoCount < (infoParameter input offset).id.toInt
    · exact .outside hmagic hid
    · have hi : (infoParameter input offset).id.toInt = ((infoParameter input offset).id.toInt.toNat : ℕ) := by omega
      exact .names _ hmagic hi (by omega)
  · exact .foreign hmagic

section

variable (hmagic : (infoParameter input offset).magic = splitterInfoMagic)
  (hid : (infoParameter input offset).id.toInt = i) (hle : i ≤ c.infoCount)
include hmagic hid hle

theorem infoRecords_names :
    infoRecords c input (n + 1) offset =
      ((i, destinationIds input offset (destCount c (infoParameter input offset))) ::
          (infoRecords c input n (offset + infoSize (infoParameter input offset))).1,
        (infoRecords c input n (offset + infoSize (infoParameter input offset))).2) := by
  have hinside : ¬((infoParameter input offset).id.toInt < 0 ∨ c.infoCount < (infoParameter input offset).id.toInt) := by omega
  rw [infoRecords]
  rw [if_neg (not_not.mpr hmagic), if_neg hinside, hid, Int.toNat_natCast]

theorem updateInfo_names :
    updateInfo c input (n + 1) offset = (do
      let info ← infoAt c i
      recomposeDestination c info input offset (infoParameter input offset)
      let size ← infoUpdate info (infoParameter input offset)
      updateInfo c input n (offset + size)) := by
  have hinside : ¬((infoParameter input offset).id.toInt < 0 ∨ c.infoCount < (infoParameter input offset).id.toInt) := by omega
  rw [updateInfo]
  rw [if_neg (not_not.mpr hmagic), if_neg hinside, hid]

end

theorem infoRecords_foreign (hmagic : (infoParameter input offset).magic ≠ splitterInfoMagic) :
    infoRecords c input (n + 1) offset = infoRecords c input n offset := by
  rw [infoRecords]
  exact if_pos hmagic

theorem updateInfo_foreign (hmagic : (infoParameter input offset).magic ≠ splitterInfoMagic) :
    updateInfo c input (n + 1) offset = updateInfo c input n offset := by
  rw [updateInfo]
  exact if_pos hmagic

section

variable (hmagic : (infoParameter input offset).magic = splitterInfoMagic)
  (hid : (infoParameter input offset).id.toInt < 0 ∨ c.infoCount < (infoParameter input offset).id.toInt)
include hmagic hid

theorem infoRecords_outside :
    infoRecords c input (n + 1) offset = ([], offset) := by
  rw [infoRecords]
  rw [if_neg (not_not.mpr hmagic), if_pos hid]

theorem updateInfo_outside :
    updateInfo c input (n + 1) offset = pure offset := by
  rw [updateInfo]
  rw [if_neg (not_not.mpr hmagic), if_pos hid]

end

theorem updateInfo_returns (h : Linked c s assigned) (hadmits : Admits c assigned (infoRecords c input n offset).1) :
    Returns (updateInfo c input n offset) s fun end_ s' =>
      end_ = (infoRecords c input n offset).2 ∧ Linked c s' (assign assigned (infoRecords c input n offset).1) := by
  induction n generalizing s assigned offset with
  | zero => exact .of_eq rfl ⟨rfl, h⟩
  | succ n ih =>
    cases infoRecord c input offset with
    | foreign hmagic =>
      rw [infoRecords_foreign hmagic] at hadmits ⊢
      rw [updateInfo_foreign hmagic]
      exact ih h hadmits
    | outside hmagic hid =>
      rw [infoRecords_outside hmagic hid, updateInfo_outside hmagic hid]
      exact .of_eq rfl ⟨rfl, h⟩
    | names i hmagic hid hle =>
      rw [infoRecords_names hmagic hid hle] at hadmits ⊢
      rw [updateInfo_names hmagic hid hle]
      obtain ⟨hassignable, hadmits⟩ := hadmits.of_cons
      apply Returns.bind (P := fun a s' => a = i ∧ s' = s)
      · exact .of_eq (infoAt_eq hassignable.splitter s) ⟨rfl, rfl⟩
      rintro _ _ ⟨rfl, rfl⟩
      obtain ⟨s₁, hrecompose, hlinked⟩ := recomposeDestination_spec h hassignable
      apply Returns.bind (.of_eq hrecompose (Q := fun _ s' => s' = s₁) rfl)
      rintro _ _ rfl
      apply Returns.bind (infoUpdate_returns hlinked hassignable.splitter hid)
      rintro _ s₂ ⟨rfl, hlinked⟩
      exact ih hlinked hadmits

/-- A destination's record is passed over or gives its parameters to a destination, which is reached in `dataRecords` unless
the record's own check keeps it inside. -/
theorem updateData_succ (c : Setup) (input : Input) (n : ℕ) (offset : U32) :
    (∃ next, updateData c input (n + 1) offset = updateData c input n next ∧
      dataRecords c input (n + 1) offset = dataRecords c input n next) ∨
    (∃ d : ℕ, (destinationParameter c.version input offset).id.toInt = d ∧
      updateData c input (n + 1) offset = (do
        updateDestination c (destinationParameter c.version input offset)
        updateData c input n (offset + c.version.size)) ∧
      (dataRecords c input (n + 1) offset = d :: dataRecords c input n (offset + c.version.size) ∨
        d < c.destinationsCount ∧ dataRecords c input (n + 1) offset = dataRecords c input n (offset + c.version.size))) := by
  rw [updateData, dataRecords]
  generalize destinationParameter c.version input offset = dataHeader
  have hid (hnonneg : ¬dataHeader.id.toInt < 0) : dataHeader.id.toInt = (dataHeader.id.toInt.toNat : ℕ) := by omega
  cases c.version with
  | v2a =>
    dsimp only
    split_ifs with hmagic hinside
    · exact Or.inl ⟨_, rfl, rfl⟩
    · exact Or.inl ⟨_, rfl, rfl⟩
    · exact Or.inr ⟨_, hid fun h => hinside (Or.inl h), rfl, Or.inr ⟨by omega, rfl⟩⟩
  | v1 =>
    dsimp only
    split_ifs with hmagic hinside
    · exact Or.inl ⟨_, rfl, rfl⟩
    · exact Or.inl ⟨_, rfl, rfl⟩
    · exact Or.inr ⟨_, hid fun h => hinside (Or.inl h), rfl, Or.inl rfl⟩
  | v2b =>
    dsimp only
    split_ifs with hmagic hinside
    · exact Or.inl ⟨_, rfl, rfl⟩
    · exact Or.inl ⟨_, rfl, rfl⟩
    · exact Or.inr ⟨_, hid fun h => hinside (Or.inl h), rfl, Or.inl rfl⟩

theorem updateData_returns (h : Linked c s assigned) (hinside : ∀ d ∈ dataRecords c input n offset, d < c.destinationsCount) :
    Returns (updateData c input n offset) s fun _ s' => Linked c s' assigned := by
  induction n generalizing s offset with
  | zero => exact .of_eq rfl h
  | succ n ih =>
    obtain ⟨next, hupdate, hrecords⟩ | ⟨d, hid, hupdate, hrecords⟩ := updateData_succ c input n offset
    · rw [hupdate]
      rw [hrecords] at hinside
      exact ih h hinside
    · have hlt : d < c.destinationsCount ∧
          ∀ d ∈ dataRecords c input n (offset + c.version.size), d < c.destinationsCount := by
        rcases hrecords with hrecords | ⟨hlt, hrecords⟩
        · rw [hrecords] at hinside
          exact List.forall_mem_cons.mp hinside
        · rw [hrecords] at hinside
          exact ⟨hlt, hinside⟩
      rw [hupdate]
      apply Returns.bind (updateDestination_returns h hid hlt.1)
      intro _ s₁ hlinked
      exact ih hlinked hlt.2

/-- **An admissible update faults nowhere and gives the splitters what its records name.** -/
theorem update_returns (h : Linked c s assigned) (hadmissible : Admissible c assigned input) :
    Returns (update c input) s fun _ s' => Linked c s' (assignedAfter c assigned input) := by
  unfold update
  dsimp only
  by_cases hreads : ReadsRecords c input
  · have husing : ¬(!c.usingSplitter) = true := by simp [hreads.1]
    rw [if_neg husing, if_neg (not_not.mpr hreads.2), assignedAfter, if_pos hreads]
    apply Returns.bind (clearNewConnectionFlags_returns h)
    intro _ s₁ h₁
    apply Returns.bind (updateInfo_returns h₁ (hadmissible.splitters hreads))
    rintro _ s₂ ⟨rfl, h₂⟩
    apply Returns.bind (updateData_returns h₂ (hadmissible.destinations hreads))
    intro _ s₃ h₃
    exact .of_eq rfl h₃
  · rw [assignedAfter, if_neg hreads]
    split_ifs with husing hmagic
    · exact .of_eq rfl h
    · exact .of_eq rfl h
    · exact absurd ⟨by simpa using husing, not_not.mp hmagic⟩ hreads

end Splitter

/-! ## Runs of the splitter context

Updates and passes over the internal state in any order. While each update is admissible, every splitter has a list that
ends, as long as it counts, and shares no destination with another splitter; the passes over the lists end. A record may
name the splitter right after the last, which is not checked, and what the records name is not checked at all.
-/

namespace Splitter

open Lib Checked

variable {c : Setup} {s s' : SplitterContext} {assigned : ℕ → List ℕ} {i n : ℕ}

/-! ### The internal state -/

theorem updateList_returns {fuel : ℕ} {start : Option ℕ} {xs : List ℕ} (h : Chained s.next start xs) (hfuel : xs.length ≤ fuel) :
    Returns (updateList fuel start) s fun _ s' => s'.next = s.next ∧ s'.infos = s.infos := by
  induction xs generalizing fuel start s with
  | nil =>
    obtain rfl : start = none := h
    have hnone : updateList fuel none s = .ok ((), s) := by cases fuel <;> rfl
    exact .of_eq hnone ⟨rfl, rfl⟩
  | cons x xs ih =>
    obtain ⟨rfl, h⟩ := h
    cases fuel with
    | zero => exact absurd hfuel (Nat.not_succ_le_zero _)
    | succ fuel =>
      rw [updateList]
      have hnext : (s.modifyDestination x (·.updateInternalState)).next = s.next := next_modifyDestination fun _ => rfl
      apply Returns.bind (P := fun _ s' => s' = s.modifyDestination x (·.updateInternalState))
      · exact .of_eq rfl rfl
      rintro _ _ rfl
      apply Returns.bind (P := fun a s' => a = s.modifyDestination x (·.updateInternalState) ∧ s' = a)
      · exact .of_eq rfl ⟨rfl, rfl⟩
      rintro _ _ ⟨rfl, rfl⟩
      have hrest : Chained (s.modifyDestination x (·.updateInternalState)).next
          ((s.modifyDestination x (·.updateInternalState)).next x) xs := by rwa [hnext]
      refine (ih hrest (Nat.le_of_succ_le_succ hfuel)).mono ?_
      rintro _ s' ⟨hs'next, hs'infos⟩
      exact ⟨hs'next.trans hnext, hs'infos⟩

theorem updateLists_returns (h : Linked c s assigned) (hn : n ≤ c.infoCount) :
    Returns (updateLists c n) s fun _ s' => Linked c s' assigned := by
  induction n with
  | zero => exact .of_eq rfl h
  | succ n ih =>
    rw [updateLists]
    apply Returns.bind (ih (Nat.le_of_succ_le hn))
    intro _ s₁ h₁
    apply Returns.bind (P := fun a s' => a = s₁ ∧ s' = s₁)
    · exact .of_eq rfl ⟨rfl, rfl⟩
    rintro _ _ ⟨rfl, rfl⟩
    refine (updateList_returns (h₁.chained n hn) (h₁.length_le hn)).mono ?_
    rintro _ s' ⟨hnext, hinfos⟩
    exact h₁.congr hnext fun i _ => by rw [hinfos]; exact ⟨rfl, rfl, rfl⟩

theorem updateInternalState_returns (h : Linked c s assigned) :
    Returns (updateInternalState c) s fun _ s' => Linked c s' assigned := updateLists_returns h le_rfl

/-! ### Runs -/

inductive Event
  | update (input : Input)
  | updateInternalState

def Event.perform (c : Setup) : Event → Step Unit
  | .update input => do
    let _ ← Splitter.update c input
  | .updateInternalState => Splitter.updateInternalState c

def run (c : Setup) : List Event → Step Unit
  | [] => pure ()
  | event :: events => do
    event.perform c
    run c events

/-- Each update is admissible after those before it. -/
def AdmissibleRun (c : Setup) : (ℕ → List ℕ) → List Event → Prop
  | _, [] => True
  | assigned, .update input :: events => Admissible c assigned input ∧ AdmissibleRun c (assignedAfter c assigned input) events
  | assigned, .updateInternalState :: events => AdmissibleRun c assigned events

/-- What the splitters should be after an update. -/
structure Sound (c : Setup) (s : SplitterContext) (lists : ℕ → List ℕ) : Prop where
  ends : ∀ i < c.infoCount, Chained s.next (s.infos i).destinations (lists i)
  count : ∀ i < c.infoCount, (lists i).length = (s.infos i).destinationCount
  inside : ∀ i < c.infoCount, ∀ d ∈ lists i, d < c.destinationsCount
  acyclic : ∀ i < c.infoCount, (lists i).Nodup
  disjoint : ∀ i < c.infoCount, ∀ j < c.infoCount, i ≠ j → (lists i).Disjoint (lists j)
  getData : ∀ i < c.infoCount, ∀ k, getData s i k = (lists i)[k]?
  updateInternalState : Returns (updateInternalState c) s fun _ _ => True

/-- The events fault nowhere, and the splitters are sound after each. -/
def KeepsLists (c : Setup) (events : List Event) : Prop :=
  ∀ done, done <+: events → Returns (run c done) initial fun _ s => ∃ lists, Sound c s lists

theorem Linked.sound (h : Linked c s assigned) : Sound c s assigned where
  ends := h.chained
  count i hi := (h.count i hi).symm
  inside := h.inside
  acyclic i hi := (h.chained i hi).nodup
  disjoint := h.disjoint
  getData i hi k := (h.chained i hi).follow_eq k
  updateInternalState := (updateInternalState_returns h).mono fun _ _ _ => trivial

theorem Event.perform_update_returns {input : Input} (h : Linked c s assigned) (hadmissible : Admissible c assigned input) :
    Returns (Event.perform c (.update input)) s fun _ s' => Linked c s' (assignedAfter c assigned input) := by
  apply Returns.bind (update_returns h hadmissible)
  intro _ s' h'
  exact .of_eq rfl h'

theorem run_returns {events : List Event} (h : Linked c s assigned) (hadmissible : AdmissibleRun c assigned events) :
    ∀ done, done <+: events → Returns (run c done) s fun _ s' => ∃ lists, Linked c s' lists := by
  induction events generalizing s assigned with
  | nil =>
    intro done hdone
    rw [List.prefix_nil.mp hdone]
    exact .of_eq rfl ⟨assigned, h⟩
  | cons event events ih =>
    intro done hdone
    cases done with
    | nil => exact .of_eq rfl ⟨assigned, h⟩
    | cons first done =>
      obtain ⟨rfl, hprefix⟩ := List.cons_prefix_cons.mp hdone
      rw [run]
      cases first with
      | update input =>
        obtain ⟨hfirst, hrest⟩ := hadmissible
        apply Returns.bind (Event.perform_update_returns h hfirst)
        intro _ s' h'
        exact ih h' hrest done hprefix
      | updateInternalState =>
        apply Returns.bind (updateInternalState_returns h)
        intro _ s' h'
        exact ih h' hadmissible done hprefix

/-- **While each update is admissible, the splitters keep their lists.** -/
theorem run_keepsLists {events : List Event} (hadmissible : AdmissibleRun c (fun _ => []) events) : KeepsLists c events := by
  intro done hdone
  refine (run_returns (initial_linked c) hadmissible done hdone).mono ?_
  rintro _ s' ⟨lists, h⟩
  exact ⟨lists, h.sound⟩

/-! ### Records -/

/-- The bytes of words. -/
def wordsInput (words : List ℕ) : Input := fun a => UInt8.ofNat (words.getD (a / 4) 0 / 2 ^ (8 * (a % 4)))

def smallSetup : Setup := ⟨2, 3, true, false, false, false⟩

/-- Two splitters are given destinations, then the first is given others. -/
def twoRecords : Input :=
  wordsInput [splitterInParamHeaderMagic.toNat, 3, 0, 0, 0, 0, 0, 0,
    splitterInfoMagic.toNat, 0, 48000, 2, 0, 2, 0, 0, 0,
    splitterInfoMagic.toNat, 1, 48000, 1, 1, 0, 0, 0,
    splitterInfoMagic.toNat, 0, 48000, 1, 2, 0, 0, 0]

def oneTooFar : Input :=
  wordsInput [splitterInParamHeaderMagic.toNat, 1, 0, 0, 0, 0, 0, 0, splitterInfoMagic.toNat, 2, 48000, 1, 0, 0, 0, 0]

theorem splitterRecords_twoRecords : (splitterRecords smallSetup twoRecords).1 = [(0, [0, 2]), (1, [1]), (0, [2])] := by
  decide +kernel

theorem destinationRecords_twoRecords : destinationRecords smallSetup twoRecords = [] := by decide +kernel

theorem admissible_twoRecords : Admissible smallSetup (fun _ => []) twoRecords where
  splitters _ := by
    rw [splitterRecords_twoRecords]
    apply Admits.cons ⟨by decide, by decide, by decide, ?_, fun h => by cases h⟩
    · apply Admits.cons ⟨by decide, by decide, by decide, ?_, fun h => by cases h⟩
      · apply Admits.cons ⟨by decide, by decide, by decide, ?_, fun h => by cases h⟩ (Admits.nil _)
        intro j hj hj0
        obtain rfl : j = 1 := by simp only [smallSetup] at hj; omega
        simp
      · intro j hj hj1
        obtain rfl : j = 0 := by simp only [smallSetup] at hj; omega
        simp
    · exact fun j _ _ => List.disjoint_nil_right _
  destinations _ := by
    rw [destinationRecords_twoRecords]
    exact fun d hd => absurd hd List.not_mem_nil

theorem run_keepsLists_twoRecords : KeepsLists smallSetup [.update twoRecords, .updateInternalState] :=
  run_keepsLists ⟨admissible_twoRecords, trivial⟩

/-- The splitter behind the last is recomposed. -/
theorem run_not_keepsLists : ¬KeepsLists smallSetup [.update oneTooFar] := by
  intro h
  have hfault : run smallSetup [.update oneTooFar] initial = .error (.splitter 2) := by rfl
  have hreturns := h _ (List.prefix_refl _)
  unfold Returns Ends at hreturns
  rw [hfault] at hreturns
  exact hreturns

end Splitter
end Renderer
end AudioCore
end Citron
