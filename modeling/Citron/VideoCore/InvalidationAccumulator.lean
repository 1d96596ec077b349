/-
# The invalidation accumulator

`InvalidationAccumulator` of `video_core/invalidation_accumulator.h` rounds the ranges it is given to units of 32 bytes, joins
those that follow each other and reports what it has collected. The size is rounded up for the address as it was and kept with
the address rounded down, so a range that starts late in its unit loses its end; **`run_faithful`** says what is reported where
no range does, **`faithful_add_iff`** when one range does.
-/
import Mathlib

namespace Citron
namespace VideoCommon

open List

/-- An address and a size. -/
abbrev Range := BitVec 64 × BitVec 64

structure InvalidationAccumulator where
  startAddress : BitVec 64 := 0
  lastCollection : BitVec 64 := 0
  accumulatedSize : BitVec 64 := 0
  hasCollected : Bool := false
  buffer : List Range := []

namespace InvalidationAccumulator

def atomicitySizeMask : BitVec 64 := 31

def atomicityMask : BitVec 64 := ~~~atomicitySizeMask

def resetValues (s : InvalidationAccumulator) (address size : BitVec 64) : InvalidationAccumulator :=
  { s with
    buffer := if s.hasCollected then s.buffer ++ [(s.startAddress, s.accumulatedSize)] else s.buffer
    startAddress := address
    accumulatedSize := size
    lastCollection := address + size }

/-- The test that drops a range. -/
def Contains (s : InvalidationAccumulator) (address size : BitVec 64) : Prop :=
  s.startAddress ≤ address ∧ address + size ≤ s.lastCollection

instance (s : InvalidationAccumulator) (address size : BitVec 64) : Decidable (s.Contains address size) :=
  inferInstanceAs (Decidable (_ ∧ _))

/-- The range that is collected: the size is rounded for the address before that is rounded itself. -/
def rounded (address size : BitVec 64) : Range :=
  (address &&& atomicityMask, ((address + size + atomicitySizeMask) &&& atomicityMask) - address)

def add (s : InvalidationAccumulator) (address size : BitVec 64) : InvalidationAccumulator :=
  if s.Contains address size then s
  else if !s.hasCollected then
    { s.resetValues (rounded address size).1 (rounded address size).2 with hasCollected := true }
  else if (rounded address size).1 ≠ s.lastCollection then s.resetValues (rounded address size).1 (rounded address size).2
  else
    { s with
      accumulatedSize := s.accumulatedSize + (rounded address size).2
      lastCollection := s.lastCollection + (rounded address size).2 }

/-- The accumulated size is left as it is. -/
def clear (s : InvalidationAccumulator) : InvalidationAccumulator :=
  { s with buffer := [], startAddress := 0, lastCollection := 0, hasCollected := false }

/-- What is left behind and the ranges the function is called on. -/
def callback (s : InvalidationAccumulator) : InvalidationAccumulator × List Range :=
  if s.hasCollected then
    let buffer := s.buffer ++ [(s.startAddress, s.accumulatedSize)]
    ({ s with buffer := buffer }, buffer)
  else (s, [])

inductive Call
  | add (address size : BitVec 64)
  | clear
  | callback

def step (s : InvalidationAccumulator) : Call → InvalidationAccumulator
  | .add address size => s.add address size
  | .clear => s.clear
  | .callback => s.callback.1

def run (calls : List Call) : InvalidationAccumulator := calls.foldl step {}

/-! ### What it is for -/

/-- The ranges that were added since the last clear. -/
def collect (added : List Range) : Call → List Range
  | .add address size => added ++ [(address, size)]
  | .clear => []
  | .callback => added

def sinceClear (calls : List Call) : List Range := calls.foldl collect []

def Covers (r : Range) (x : ℕ) : Prop := r.1.toNat ≤ x ∧ x < r.1.toNat + r.2.toNat

/-- The units of 32 bytes from the start of a range to its end. -/
def Hull (r : Range) (x : ℕ) : Prop := r.1.toNat / 32 * 32 ≤ x ∧ x < (r.1.toNat + r.2.toNat + 31) / 32 * 32

def Reported (s : InvalidationAccumulator) (x : ℕ) : Prop := ∃ r ∈ s.callback.2, Covers r x

/-- What is reported contains the added ranges and lies in their hulls. -/
structure Faithful (s : InvalidationAccumulator) (added : List Range) : Prop where
  complete : ∀ r ∈ added, ∀ x, Covers r x → s.Reported x
  tight : ∀ x, s.Reported x → ∃ r ∈ added, Hull r x

/-- The rounded range reaches the end: there is as much behind the range in its last unit as before it in the first. -/
def Reaches (address size : BitVec 64) : Prop :=
  size = 0 ∨ address.toNat % 32 + (address.toNat + size.toNat) ≤ (address.toNat + size.toNat + 31) / 32 * 32

/-- A call loses nothing: an added range ends below the last unit of the address space, and is dropped or reaches its end. -/
def Whole (s : InvalidationAccumulator) : Call → Prop
  | .add address size =>
    address.toNat + size.toNat + 31 < 2 ^ 64 ∧ (s.Contains address size ∨ Reaches address size)
  | .clear => True
  | .callback => True

/-- All calls of a run are such. -/
def AllWhole (s : InvalidationAccumulator) : List Call → Prop
  | [] => True
  | call :: calls => s.Whole call ∧ (s.step call).AllWhole calls

variable {s : InvalidationAccumulator} {added : List Range} {address size : BitVec 64} {x : ℕ}

/-! ### Rounding -/

theorem toNat_and_atomicityMask (a : BitVec 64) : (a &&& atomicityMask).toNat = a.toNat / 32 * 32 := by
  have hmask : ∀ i < 64, atomicityMask.getLsbD i = decide (5 ≤ i) := by decide
  have hshift : a &&& atomicityMask = a >>> 5 <<< 5 := by
    apply BitVec.eq_of_getLsbD_eq
    intro i hi
    rw [BitVec.getLsbD_and, hmask i hi, BitVec.getLsbD_shiftLeft, BitVec.getLsbD_ushiftRight]
    by_cases hlow : 5 ≤ i
    · simp [hi, hlow, Nat.not_lt.mpr hlow]
    · simp [hlow, Nat.lt_of_not_le hlow]
  rw [hshift, BitVec.toNat_shiftLeft, BitVec.toNat_ushiftRight, Nat.shiftRight_eq_div_pow, Nat.shiftLeft_eq]
  omega

theorem rounded_fst (address size : BitVec 64) : (rounded address size).1.toNat = address.toNat / 32 * 32 :=
  toNat_and_atomicityMask address

theorem rounded_snd (hfits : address.toNat + size.toNat + 31 < 2 ^ 64) :
    (rounded address size).2.toNat = (address.toNat + size.toNat + 31) / 32 * 32 - address.toNat := by
  have hmask : atomicitySizeMask.toNat = 31 := rfl
  have hsum : (address + size + atomicitySizeMask).toNat = address.toNat + size.toNat + 31 := by
    rw [BitVec.toNat_add, BitVec.toNat_add, hmask]
    omega
  have hle : address.toNat ≤ (address.toNat + size.toNat + 31) / 32 * 32 := by omega
  rw [rounded, BitVec.toNat_sub_of_le, toNat_and_atomicityMask, hsum]
  rw [BitVec.le_def, toNat_and_atomicityMask, hsum]
  exact hle

/-- The rounded range lies in the hull. -/
theorem hull_of_rounded (hfits : address.toNat + size.toNat + 31 < 2 ^ 64) (hx : Covers (rounded address size) x) :
    Hull (address, size) x := by
  obtain ⟨hle, hlt⟩ := hx
  rw [rounded_fst] at hle hlt
  rw [rounded_snd hfits] at hlt
  exact ⟨hle, by dsimp only; omega⟩

theorem rounded_of_covers (hfits : address.toNat + size.toNat + 31 < 2 ^ 64) (hreach : Reaches address size)
    (hx : Covers (address, size) x) : Covers (rounded address size) x := by
  obtain ⟨hle, hlt⟩ := hx
  dsimp only at hle hlt
  rcases hreach with rfl | hreach
  · exact absurd hlt (Nat.not_lt.mpr hle)
  · constructor
    · rw [rounded_fst]
      omega
    · rw [rounded_fst, rounded_snd hfits]
      omega

/-! ### One call -/

/-- The running interval ends where the last range did; before the first range nothing is kept. -/
structure Tracks (s : InvalidationAccumulator) (added : List Range) : Prop where
  nothing : s.hasCollected = false →
    s.startAddress = 0 ∧ s.lastCollection = 0 ∧ s.buffer = [] ∧ ∀ r ∈ added, r.2 = 0
  last : s.hasCollected = true → s.lastCollection.toNat = s.startAddress.toNat + s.accumulatedSize.toNat
  faithful : s.Faithful added

theorem reported_of_not (h : s.hasCollected = false) : ¬ s.Reported x := by
  simp [Reported, callback, h]

theorem reported_iff (h : s.hasCollected = true) :
    s.Reported x ↔ (∃ r ∈ s.buffer, Covers r x) ∨ Covers (s.startAddress, s.accumulatedSize) x := by
  simp [Reported, callback, h, or_and_right, exists_or]

theorem Tracks.clear : Tracks s.clear [] where
  nothing _ := ⟨rfl, rfl, rfl, fun _ hr => absurd hr not_mem_nil⟩
  last h := by cases h
  faithful := ⟨fun _ hr => absurd hr not_mem_nil, fun _ hx => absurd hx (reported_of_not rfl)⟩

theorem tracks_initial : Tracks {} [] := @Tracks.clear {}

/-- The interval is reported once more, which adds nothing. -/
theorem Tracks.callback (h : Tracks s added) : Tracks s.callback.1 added := by
  cases hcollected : s.hasCollected with
  | false =>
    have hsame : s.callback.1 = s := by simp [InvalidationAccumulator.callback, hcollected]
    rw [hsame]
    exact h
  | true =>
    have hstate : s.callback.1 = { s with buffer := s.buffer ++ [(s.startAddress, s.accumulatedSize)] } := by
      simp [InvalidationAccumulator.callback, hcollected]
    have hnew : s.callback.1.hasCollected = true := by
      rw [hstate]
      exact hcollected
    have hreported : ∀ x, s.callback.1.Reported x ↔ s.Reported x := fun x => by
      rw [reported_iff hnew, reported_iff hcollected, hstate]
      simp [or_and_right, exists_or]
    refine ⟨fun hnot => ?_, fun _ => ?_, fun r hr x hx => ?_, fun x hx => ?_⟩
    · exact absurd (hnew.symm.trans hnot) (by decide)
    · rw [hstate]
      exact h.last hcollected
    · exact (hreported x).mpr (h.faithful.complete r hr x hx)
    · exact h.faithful.tight x ((hreported x).mp hx)

section

variable (h : Tracks s added) (hfits : address.toNat + size.toNat + 31 < 2 ^ 64)
include h hfits

/-- A range that is dropped lies in the running interval. -/
theorem Tracks.dropped (hcontains : s.Contains address size) : Tracks s (added ++ [(address, size)]) := by
  obtain ⟨hstart, hend⟩ := hcontains
  rw [BitVec.le_def] at hstart hend
  have hsum : (address + size).toNat = address.toNat + size.toNat := BitVec.toNat_add_of_lt (by omega)
  rw [hsum] at hend
  refine ⟨fun hnot => ?_, h.last, fun r hr x hx => ?_, fun x hx => ?_⟩
  · obtain ⟨h0, hlast, hbuffer, hempty⟩ := h.nothing hnot
    refine ⟨h0, hlast, hbuffer, fun r hr => ?_⟩
    rcases mem_append.mp hr with hr | hr
    · exact hempty r hr
    · rw [hlast] at hend
      change _ ≤ 0 at hend
      rw [mem_singleton.mp hr]
      exact BitVec.eq_of_toNat_eq (Nat.eq_zero_of_le_zero (by dsimp only; omega))
  · rcases mem_append.mp hr with hr | hr
    · exact h.faithful.complete r hr x hx
    · rw [mem_singleton.mp hr] at hx
      obtain ⟨hle, hlt⟩ := hx
      dsimp only at hle hlt
      cases hcollected : s.hasCollected with
      | false =>
        rw [(h.nothing hcollected).2.1] at hend
        change _ ≤ 0 at hend
        omega
      | true =>
        have hlast := h.last hcollected
        exact (reported_iff hcollected).mpr (.inr ⟨by dsimp only; omega, by dsimp only; omega⟩)
  · obtain ⟨r, hr, hhull⟩ := h.faithful.tight x hx
    exact ⟨r, mem_append_left _ hr, hhull⟩

/-- A range that is not dropped is reported as it was rounded, beside what was reported before. -/
theorem Tracks.reported_add (hcontains : ¬ s.Contains address size) :
    (s.add address size).hasCollected = true ∧
      (s.add address size).lastCollection.toNat =
        (s.add address size).startAddress.toNat + (s.add address size).accumulatedSize.toNat ∧
      ∀ x, (s.add address size).Reported x ↔ s.Reported x ∨ Covers (rounded address size) x := by
  have hfst := rounded_fst address size
  have hsnd := rounded_snd hfits
  have hreset : ((rounded address size).1 + (rounded address size).2).toNat =
      (rounded address size).1.toNat + (rounded address size).2.toNat := BitVec.toNat_add_of_lt (by omega)
  cases hcollected : s.hasCollected with
  | false =>
    have hadd : s.add address size =
        { s.resetValues (rounded address size).1 (rounded address size).2 with hasCollected := true } := by
      simp [add, hcontains, hcollected]
    rw [hadd]
    refine ⟨rfl, hreset, fun x => ?_⟩
    rw [reported_iff rfl, or_iff_right (reported_of_not hcollected)]
    simp [resetValues, hcollected, (h.nothing hcollected).2.2.1]
  | true =>
    have hlast := h.last hcollected
    by_cases hnext : (rounded address size).1 = s.lastCollection
    · have hadd : s.add address size =
          { s with
            accumulatedSize := s.accumulatedSize + (rounded address size).2
            lastCollection := s.lastCollection + (rounded address size).2 } := by
        simp [add, hcontains, hcollected, hnext]
      have hsum : (s.accumulatedSize + (rounded address size).2).toNat =
          s.accumulatedSize.toNat + (rounded address size).2.toNat := BitVec.toNat_add_of_lt (by rw [hnext] at hfst; omega)
      have hnew : (s.add address size).hasCollected = true := by
        rw [hadd]
        exact hcollected
      rw [hnext] at hreset
      refine ⟨hnew, ?_, fun x => ?_⟩
      · rw [hadd]
        dsimp only
        rw [hreset, hsum, hlast]
        omega
      · rw [reported_iff hnew, reported_iff hcollected, or_assoc, hadd]
        refine or_congr_right ?_
        unfold Covers
        dsimp only
        rw [hsum, hnext]
        omega
    · have hadd : s.add address size = s.resetValues (rounded address size).1 (rounded address size).2 := by
        simp [add, hcontains, hcollected, hnext]
      have hnew : (s.add address size).hasCollected = true := by
        rw [hadd]
        exact hcollected
      refine ⟨hnew, by rw [hadd]; exact hreset, fun x => ?_⟩
      rw [reported_iff hnew, reported_iff hcollected, hadd]
      simp [resetValues, hcollected, or_and_right, exists_or]

theorem Tracks.add (hkept : s.Contains address size ∨ Reaches address size) :
    Tracks (s.add address size) (added ++ [(address, size)]) := by
  by_cases hcontains : s.Contains address size
  · rw [InvalidationAccumulator.add, if_pos hcontains]
    exact h.dropped hfits hcontains
  · obtain ⟨hcollected, hlast, hreported⟩ := h.reported_add hfits hcontains
    refine ⟨fun hnot => ?_, fun _ => hlast, fun r hr x hx => (hreported x).mpr ?_, fun x hx => ?_⟩
    · exact absurd (hcollected.symm.trans hnot) (by decide)
    · rcases mem_append.mp hr with hr | hr
      · exact .inl (h.faithful.complete r hr x hx)
      · rw [mem_singleton.mp hr] at hx
        exact .inr (rounded_of_covers hfits (hkept.resolve_left hcontains) hx)
    · rcases (hreported x).mp hx with hx | hx
      · obtain ⟨r, hr, hhull⟩ := h.faithful.tight x hx
        exact ⟨r, mem_append_left _ hr, hhull⟩
      · exact ⟨_, mem_append_right _ (mem_singleton_self _), hull_of_rounded hfits hx⟩

end

theorem Tracks.step (h : Tracks s added) {call : Call} (hwhole : s.Whole call) : Tracks (s.step call) (collect added call) := by
  cases call with
  | add address size => exact h.add hwhole.1 hwhole.2
  | clear => exact Tracks.clear
  | callback => exact h.callback

/-! ### Runs -/

theorem Tracks.run {calls : List Call} (h : Tracks s added) (hwhole : s.AllWhole calls) :
    Tracks (calls.foldl InvalidationAccumulator.step s) (calls.foldl collect added) := by
  induction calls generalizing s added with
  | nil => exact h
  | cons call calls ih => exact ih (h.step hwhole.1) hwhole.2

theorem AllWhole.take {calls : List Call} (h : s.AllWhole calls) (n : ℕ) : s.AllWhole (calls.take n) := by
  induction calls generalizing s n with
  | nil => rw [take_nil]; exact h
  | cons call calls ih =>
    cases n with
    | zero => exact trivial
    | succ n => exact ⟨h.1, ih h.2 n⟩

/-- **Where no range loses its end, the reported ranges contain the added ones and lie in their hulls**, in every state that
the calls go through. -/
theorem run_faithful {calls : List Call} (hwhole : AllWhole {} calls) (n : ℕ) :
    Faithful (run (calls.take n)) (sinceClear (calls.take n)) :=
  (tracks_initial.run (hwhole.take n)).faithful

theorem run_faithful_units : Faithful (run [.add 0x21 0x10, .add 0x40 8, .callback]) [(0x21, 0x10), (0x40, 8)] :=
  @run_faithful [.add 0x21 0x10, .add 0x40 8, .callback]
    ⟨⟨by decide, .inr (.inr (by decide))⟩, ⟨by decide, .inr (.inr (by decide))⟩, trivial, trivial⟩ 3

/-- The byte at 0x1F: a size of one is reported from 0 on. -/
theorem run_lateByte : ¬ ∀ calls, Faithful (run calls) (sinceClear calls) := by
  intro h
  obtain ⟨r, hr, hx⟩ := (h [.add 0x1F 1]).complete (0x1F, 1) (mem_singleton_self _) 0x1F ⟨by decide, by decide⟩
  have hcallback : (run [.add 0x1F 1]).callback.2 = [(0, 1)] := by decide
  rw [hcallback, mem_singleton] at hr
  rw [hr] at hx
  exact absurd hx.2 (by decide)

/-- **A range alone is reported as a whole exactly when it reaches its end.** -/
theorem faithful_add_iff (hfits : address.toNat + size.toNat + 31 < 2 ^ 64) :
    Faithful (run [.add address size]) (sinceClear [.add address size]) ↔ Reaches address size := by
  constructor
  · intro h
    by_cases hempty : size = 0
    · exact .inl hempty
    have hpos : 0 < size.toNat := Nat.pos_of_ne_zero fun h0 => hempty (BitVec.eq_of_toNat_eq h0)
    have hnot : ¬ Contains {} address size := fun hc => by
      have hend := BitVec.le_def.mp hc.2
      rw [BitVec.toNat_add_of_lt (by omega)] at hend
      exact absurd hend (by simp; omega)
    -- the last byte of the range
    have hlast := h.complete (address, size) (mem_singleton_self _) (address.toNat + size.toNat - 1)
      ⟨by dsimp only; omega, by dsimp only; omega⟩
    rcases ((tracks_initial.reported_add hfits hnot).2.2 _).mp hlast with hx | hx
    · exact absurd hx (reported_of_not rfl)
    · have hlt := hx.2
      rw [rounded_fst, rounded_snd hfits] at hlt
      exact .inr (by omega)
  · intro hreach
    have hwhole : AllWhole {} [.add address size] := ⟨⟨hfits, .inr hreach⟩, trivial⟩
    exact (tracks_initial.run hwhole).faithful

end InvalidationAccumulator
end VideoCommon
end Citron
