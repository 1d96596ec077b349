/-
# Slot vectors

Values under ids that stay the same. A bitset says which slots are in use, a list has the free ones, and
both grow with the storage. An iteration goes through the words of the bitset.
-/
import Citron.Kernel.PageBitmapBits
import Citron.Lib.Histories

namespace Citron

open List Function Option

namespace Common

open Kernel

/-- `SlotId::INVALID_INDEX` -/
def invalidIndex : ℕ := 2 ^ 32 - 1

/-- `static_cast<u32>` -/
def toU32 (n : ℕ) : ℕ := n % 2 ^ 32

/-- The last of the free slots is the one at the back. -/
structure SlotVector (T : Type) where
  values : ℕ → Option T
  valuesCapacity : ℕ
  storedBitset : Level
  freeList : List ℕ

namespace SlotVector

variable {T : Type}

def empty : SlotVector T := ⟨fun _ => none, 0, [], []⟩

variable (v : SlotVector T)

def readStorageBit (index : ℕ) : Bool := v.storedBitset.bit index

def setStorageBit (index : ℕ) : SlotVector T :=
  { v with storedBitset := v.storedBitset.set (index / 64) (v.storedBitset.word (index / 64) ||| 1#64 <<< (index % 64)) }

def resetStorageBit (index : ℕ) : SlotVector T :=
  { v with storedBitset := v.storedBitset.set (index / 64) (v.storedBitset.word (index / 64) &&& ~~~(1#64 <<< (index % 64))) }

/-- The objects in use move to the new storage; the new slots are free. -/
def reserve (newCapacity : ℕ) : SlotVector T where
  values := fun i => if v.readStorageBit i then v.values i else none
  valuesCapacity := newCapacity
  storedBitset :=
    v.storedBitset.take ((newCapacity + 63) / 64) ++ List.replicate ((newCapacity + 63) / 64 - v.storedBitset.length) 0
  freeList := v.freeList ++ (List.range (newCapacity - v.valuesCapacity)).map fun i => toU32 (toU32 v.valuesCapacity + i)

/-- `none` is what the code does not get to: `Reserve` has made room. -/
def freeValueIndex : Option (SlotVector T × ℕ) :=
  let v := if v.freeList = [] then v.reserve (if v.valuesCapacity ≠ 0 then v.valuesCapacity <<< 1 else 1) else v
  v.freeList.getLast?.map fun freeIndex => ({ v with freeList := v.freeList.dropLast }, freeIndex)

def insert (value : T) : Option (SlotVector T × ℕ) :=
  v.freeValueIndex.map fun (v, index) => ({ v with values := update v.values index (some value) }.setStorageBit index, index)

def erase (id : ℕ) : SlotVector T :=
  { v with values := update v.values id none, freeList := v.freeList ++ [id] }.resetStorageBit id

def size : ℕ := v.valuesCapacity - v.freeList.length

def contains (id : ℕ) : Bool := id ≠ invalidIndex && id / 64 < v.storedBitset.length && v.storedBitset.bit id

/-! ### Iterators -/

/-- The index of `begin()`: the distance is the one from the word to the first word. -/
def begin : ℕ :=
  match v.storedBitset.findIdx? (· ≠ 0) with
  | none => invalidIndex
  | some it =>
    let wordIndex := toU32 (2 ^ 32 - toU32 it)
    toU32 (wordIndex * 64 + countrZero (v.storedBitset.word it))

/-- The index after `operator++`. -/
def next (id : ℕ) : ℕ :=
  let size := toU32 (toU32 v.storedBitset.length * 64)
  if id < size then ((List.range' (id + 1) (size - (id + 1))).find? v.readStorageBit).getD invalidIndex else id

/-- The indices from an iterator to `end()`. -/
inductive Visits : ℕ → List ℕ → Prop
  | done : Visits invalidIndex []
  | visit {id : ℕ} {ids : List ℕ} (hid : id ≠ invalidIndex) (h : Visits (v.next id) ids) : Visits id (id :: ids)

/-! ### Runs -/

inductive Event (T : Type)
  | insert (value : T)
  | erase (id : ℕ)

/-- What is given back is the id of an inserted value. Only ids in use are erased. -/
def step : Event T → Option (SlotVector T × Option ℕ)
  | .insert value => v.insert value |>.map fun r => (r.1, some r.2)
  | .erase id => if v.contains id then some (v.erase id, none) else none

/-- The value that was inserted under an id and not erased. -/
def liveStep (live : ℕ → Option T) : Event T × Option ℕ → ℕ → Option T
  | (.insert value, some id) => update live id (some value)
  | (.insert _, none) => live
  | (.erase id, _) => update live id none

def live (history : List (Event T × Option ℕ)) : ℕ → Option T := history.foldl liveStep fun _ => none

/-- What the vector promises. -/
structure Exact (v : SlotVector T) (live : ℕ → Option T) : Prop where
  distinct : ∀ value v' id, v.step (.insert value) = some (v', some id) → live id = none
  contains : ∀ id, v.contains id = (live id).isSome
  kept : ∀ id value, live id = some value → v.values id = some value
  iteration : ∃ ids : List ℕ, ids.Pairwise (· < ·) ∧ (∀ id, id ∈ ids ↔ (live id).isSome = true) ∧ v.size = ids.length ∧
    v.Visits v.begin ids

end SlotVector
end Common

/-! ## Runs of a slot vector

Bits, free list and values follow the ids in use. An iteration visits just these ids if the first word of
the bitset is not empty, or all are.
-/

namespace Common
namespace SlotVector

open Kernel Lib

variable {T : Type} {v : SlotVector T} {live : ℕ → Option T} {id : ℕ}

/-- The largest capacity with ids below `INVALID_INDEX` that a `u32` can count. -/
def maxCapacity : ℕ := 2 ^ 31

/-- Bits, free list and values follow the ids in use. -/
structure Follows (v : SlotVector T) (live : ℕ → Option T) : Prop where
  words : v.storedBitset.length = (v.valuesCapacity + 63) / 64
  bit : ∀ id, v.readStorageBit id = (live id).isSome
  kept : ∀ id value, live id = some value → v.values id = some value
  nodup : v.freeList.Nodup
  free : ∀ id, id ∈ v.freeList ↔ id < v.valuesCapacity ∧ live id = none
  bound : ∀ id, (live id).isSome = true → id < v.valuesCapacity

theorem follows_empty : Follows (empty : SlotVector T) fun _ => none where
  words := by simp [empty]
  bit id := by
    rw [readStorageBit, Level.bit]
    simp [empty]
  kept _ _ h := by cases h
  nodup := nodup_nil
  free id := ⟨fun h => absurd h not_mem_nil, fun h => absurd h.1 (Nat.not_lt_zero _)⟩
  bound _ h := by cases h

/-! ### Growth -/

theorem follows_reserve {newCapacity : ℕ} (h : Follows v live) (hfree : v.freeList = []) (hgrow : v.valuesCapacity ≤ newCapacity)
    (hsmall : newCapacity ≤ 2 * maxCapacity) (hnew : v.valuesCapacity ≤ maxCapacity) : Follows (v.reserve newCapacity) live := by
  have hlist : (v.reserve newCapacity).freeList = (List.range (newCapacity - v.valuesCapacity)).map (v.valuesCapacity + ·) := by
    rw [reserve, hfree, nil_append]
    refine map_congr_left fun i hi => ?_
    have hi := mem_range.mp hi
    rw [maxCapacity] at hsmall hnew
    rw [toU32, toU32, Nat.mod_eq_of_lt (a := v.valuesCapacity) (by omega), Nat.mod_eq_of_lt (by omega)]
  have hbit (id : ℕ) : (v.reserve newCapacity).readStorageBit id = v.readStorageBit id := by
    rw [readStorageBit, readStorageBit, Level.bit, Level.bit, getD_eq_getElem?_getD, getD_eq_getElem?_getD]
    have hlength : v.storedBitset.length ≤ (newCapacity + 63) / 64 := by
      rw [h.words]
      omega
    rw [reserve]
    rw [take_of_length_le hlength, getElem?_append]
    split
    · rfl
    · rename_i hlen
      rw [getElem?_eq_none (Nat.le_of_not_lt hlen), getElem?_replicate]
      split
      · rfl
      · rfl
  refine ⟨?_, fun id => (hbit id).trans (h.bit id), fun id value hlive => ?_, ?_, fun id => ?_, fun id hlive =>
    Nat.lt_of_lt_of_le (h.bound id hlive) hgrow⟩
  · rw [reserve, length_append, length_take, length_replicate]
    dsimp only
    omega
  · have hused : v.readStorageBit id = true := by rw [h.bit, hlive]; rfl
    rw [reserve]
    dsimp only
    rw [if_pos hused]
    exact h.kept id value hlive
  · rw [hlist]
    exact nodup_range.map fun _ _ => Nat.add_left_cancel
  · have hnone : id < v.valuesCapacity → live id ≠ none := fun hid hnone => by
      have hmem := (h.free id).mpr ⟨hid, hnone⟩
      rw [hfree] at hmem
      exact not_mem_nil hmem
    rw [hlist, List.mem_map]
    constructor
    · rintro ⟨i, hi, rfl⟩
      have hi := mem_range.mp hi
      refine ⟨show v.valuesCapacity + i < newCapacity by omega, ?_⟩
      by_contra hlive
      have hbound := h.bound _ (isSome_iff_ne_none.mpr hlive)
      omega
    · intro hid
      have hcapacity : id < newCapacity := hid.1
      have hge : ¬ id < v.valuesCapacity := fun hlt => hnone hlt hid.2
      exact ⟨id - v.valuesCapacity, mem_range.mpr (by omega), by omega⟩

variable {v' : SlotVector T} {index start : ℕ}

/-- The slot that is taken from the free ones, with the vector that may have grown. -/
theorem freeValueIndex_spec (h : Follows v live) (hv : v.freeValueIndex = some (v', index))
    (hsmall : v.valuesCapacity ≤ maxCapacity) :
    ∃ w, Follows w live ∧ w.freeList = v'.freeList ++ [index] ∧ v' = { w with freeList := v'.freeList } ∧
      v.valuesCapacity ≤ w.valuesCapacity := by
  have hpop {w : SlotVector T} (hw : w.freeList.getLast?.map (fun freeIndex => ({ w with freeList := w.freeList.dropLast }, freeIndex)) =
      some (v', index)) : w.freeList = v'.freeList ++ [index] ∧ v' = { w with freeList := v'.freeList } := by
    obtain ⟨last, hlast, heq⟩ := map_eq_some_iff.mp hw
    have hv' : { w with freeList := w.freeList.dropLast } = v' := congrArg Prod.fst heq
    have hindex : last = index := congrArg Prod.snd heq
    rw [← hv', ← hindex]
    exact ⟨(dropLast_append_getLast? last hlast).symm, rfl⟩
  rw [freeValueIndex] at hv
  by_cases hfree : v.freeList = []
  · rw [if_pos hfree] at hv
    obtain ⟨hlist, heq⟩ := hpop hv
    have hgrow : v.valuesCapacity ≤ (if v.valuesCapacity ≠ 0 then v.valuesCapacity <<< 1 else 1) ∧
        (if v.valuesCapacity ≠ 0 then v.valuesCapacity <<< 1 else 1) ≤ 2 * maxCapacity := by
      rw [maxCapacity] at hsmall ⊢
      split
      · rw [Nat.shiftLeft_eq]
        omega
      · omega
    exact ⟨_, follows_reserve h hfree hgrow.1 hgrow.2 hsmall, hlist, heq, hgrow.1⟩
  · rw [if_neg hfree] at hv
    obtain ⟨hlist, heq⟩ := hpop hv
    exact ⟨v, h, hlist, heq, Nat.le_refl _⟩

/-! ### Insertion and erasure -/

theorem insert_spec {value : T} (h : Follows v live) (hv : v.insert value = some (v', index))
    (hsmall : v.valuesCapacity ≤ maxCapacity) :
    v.valuesCapacity ≤ v'.valuesCapacity ∧ live index = none ∧ Follows v' (update live index (some value)) := by
  obtain ⟨⟨u, last⟩, hu, heq⟩ := map_eq_some_iff.mp hv
  have hindex : last = index := congrArg Prod.snd heq
  have hv' : ({ u with values := update u.values last (some value) } : SlotVector T).setStorageBit last = v' :=
    congrArg Prod.fst heq
  subst hindex
  have hcapacity : u.valuesCapacity = v'.valuesCapacity := by rw [← hv']; rfl
  obtain ⟨w, hw, hlist, hwu, hgrow⟩ := freeValueIndex_spec h hu hsmall
  have hmem : last ∈ w.freeList := by
    rw [hlist]
    exact mem_append_right _ (mem_singleton_self last)
  obtain ⟨hlast, hnone⟩ := (hw.free last).mp hmem
  have hword : last / 64 < w.storedBitset.length := by
    rw [hw.words]
    omega
  have hnodup := hw.nodup
  rw [hlist] at hnodup
  have hfresh : last ∉ u.freeList := fun hin => (nodup_append.mp hnodup).2.2 last hin last (mem_singleton_self last) rfl
  refine ⟨by rwa [← hcapacity, hwu], hnone, ?_⟩
  rw [← hv', hwu]
  refine ⟨?_, fun id => ?_, fun id x hx => ?_, ?_, fun id => ?_, fun id hlive => ?_⟩
  · rw [setStorageBit, length_set]
    exact hw.words
  · rw [readStorageBit, setStorageBit, Level.bit_set hword]
    by_cases hid : id = last
    · rw [hid, if_pos rfl, or_mask_bit (Nat.mod_lt _ (by decide)), update_self, decide_eq_true rfl, Bool.or_true]
      rfl
    · rw [update_of_ne hid, ← hw.bit id, readStorageBit]
      split
      · rename_i hsame
        have hbit : id % 64 ≠ last % 64 := fun hbit => hid (by omega)
        rw [or_mask_bit (Nat.mod_lt _ (by decide)), decide_eq_false hbit, Bool.or_false, ← hsame]
        rfl
      · rfl
  · by_cases hid : id = last
    · rw [hid, update_self] at hx
      rw [hid]
      exact (update_self ..).trans hx
    · rw [update_of_ne hid] at hx
      exact (update_of_ne hid ..).trans (hw.kept id x hx)
  · exact (nodup_append.mp hnodup).1
  · have hfree := hw.free id
    rw [hlist, mem_append, mem_singleton] at hfree
    by_cases hid : id = last
    · rw [hid, update_self]
      exact ⟨fun hin => absurd hin hfresh, fun hin => by cases hin.2⟩
    · rw [update_of_ne hid]
      exact ⟨fun hin => hfree.mp (Or.inl hin), fun hin => (hfree.mpr hin).resolve_right hid⟩
  · by_cases hid : id = last
    · rw [hid]
      exact hlast
    · rw [update_of_ne hid] at hlive
      exact hw.bound id hlive

theorem erase_spec (h : Follows v live) (hlive : (live id).isSome = true) : Follows (v.erase id) (update live id none) := by
  have hid := h.bound id hlive
  have hword : id / 64 < v.storedBitset.length := by
    rw [h.words]
    omega
  refine ⟨?_, fun i => ?_, fun i x hx => ?_, ?_, fun i => ?_, fun i hi => ?_⟩
  · rw [erase, resetStorageBit, length_set]
    exact h.words
  · rw [readStorageBit, erase, resetStorageBit, Level.bit_set hword]
    by_cases hi : i = id
    · rw [hi, if_pos rfl, and_not_mask_bit (Nat.mod_lt _ (by decide)) (Nat.mod_lt _ (by decide)), update_self,
        decide_eq_true rfl, Bool.not_true, Bool.and_false]
      rfl
    · rw [update_of_ne hi, ← h.bit i, readStorageBit]
      split
      · rename_i hsame
        have hbit : i % 64 ≠ id % 64 := fun hbit => hi (by omega)
        rw [and_not_mask_bit (Nat.mod_lt _ (by decide)) (Nat.mod_lt _ (by decide)), decide_eq_false hbit, Bool.not_false, Bool.and_true,
          ← hsame]
        rfl
      · rfl
  · by_cases hi : i = id
    · rw [hi, update_self] at hx
      cases hx
    · rw [update_of_ne hi] at hx
      exact (update_of_ne hi ..).trans (h.kept i x hx)
  · have hused : id ∉ v.freeList := fun hin => by
      rw [((h.free id).mp hin).2] at hlive
      cases hlive
    exact h.nodup.append (nodup_singleton id) (disjoint_singleton.mpr hused)
  · show i ∈ v.freeList ++ [id] ↔ i < v.valuesCapacity ∧ _
    rw [mem_append, mem_singleton, h.free]
    by_cases hi : i = id
    · rw [hi, update_self]
      exact ⟨fun _ => ⟨hid, rfl⟩, fun _ => Or.inr rfl⟩
    · rw [update_of_ne hi]
      exact ⟨fun hin => hin.resolve_right hi, Or.inl⟩
  · by_cases hi' : i = id
    · rw [hi', update_self] at hi
      cases hi
    · rw [update_of_ne hi'] at hi
      exact h.bound i hi

/-! ### Iteration -/

/-- The ids in use, in their order. -/
def usedIds (v : SlotVector T) : List ℕ := (List.range (v.storedBitset.length * 64)).filter v.readStorageBit

theorem Follows.lt_of_bit (h : Follows v live) (hbit : v.readStorageBit id = true) : id < v.valuesCapacity := by
  rw [h.bit] at hbit
  exact h.bound id hbit

theorem Follows.mem_usedIds (h : Follows v live) : id ∈ v.usedIds ↔ (live id).isSome = true := by
  rw [usedIds, mem_filter, mem_range, ← h.bit]
  refine ⟨And.right, fun hbit => ⟨?_, hbit⟩⟩
  have hid := h.lt_of_bit hbit
  have hwords := h.words
  omega

theorem usedIds_sorted (v : SlotVector T) : v.usedIds.Pairwise (· < ·) := pairwise_lt_range.sublist filter_sublist

/-- The ids in use and the free ones make up the capacity. -/
theorem Follows.size (h : Follows v live) : v.size = v.usedIds.length := by
  have hdisjoint : v.usedIds.Disjoint v.freeList := fun id hused hfree => by
    rw [h.mem_usedIds, ((h.free id).mp hfree).2] at hused
    cases hused
  have hused : v.usedIds.Nodup := (usedIds_sorted v).imp Nat.ne_of_lt
  have hnodup : (v.usedIds ++ v.freeList).Nodup := hused.append h.nodup hdisjoint
  have hperm : (v.usedIds ++ v.freeList).Perm (List.range v.valuesCapacity) := by
    refine (perm_ext_iff_of_nodup hnodup nodup_range).mpr fun id => ?_
    rw [mem_append, mem_range, h.mem_usedIds, h.free]
    constructor
    · rintro (hlive | hfree)
      · exact h.bound id hlive
      · exact hfree.1
    · intro hid
      by_cases hlive : live id = none
      · exact Or.inr ⟨hid, hlive⟩
      · exact Or.inl (isSome_iff_ne_none.mpr hlive)
  have hlength := hperm.length_eq
  rw [length_append, length_range] at hlength
  rw [SlotVector.size]
  omega

section Small

variable (h : Follows v live)
include h

/-- No id is in use. -/
theorem Follows.begin_none (hnone : ∀ id, live id = none) :
    v.begin = ((List.range (v.storedBitset.length * 64)).find? v.readStorageBit).getD invalidIndex := by
  have hbits (i : ℕ) : v.readStorageBit i = false := by rw [h.bit, hnone]; rfl
  have hwords : v.storedBitset.findIdx? (· ≠ 0) = none := by
    rw [findIdx?_eq_none_iff]
    intro word hword
    obtain ⟨i, hi, hget⟩ := mem_iff_getElem.mp hword
    have hzero : v.storedBitset.word i = 0 := Level.word_eq_zero_iff.mpr fun j _ => hbits _
    have hsome := Level.getElem?_eq_some hi
    rw [getElem?_eq_getElem hi, hget, hzero] at hsome
    simpa using Option.some.inj hsome
  have hfind : (List.range (v.storedBitset.length * 64)).find? v.readStorageBit = none := by
    rw [find?_eq_none]
    intro i _
    rw [hbits]
    exact Bool.false_ne_true
  rw [begin, hwords, hfind]
  rfl

/-- The first id in use is in the first word. -/
theorem Follows.begin_first {id : ℕ} (hid : id < 64) (hlive : (live id).isSome = true) :
    v.begin = ((List.range (v.storedBitset.length * 64)).find? v.readStorageBit).getD invalidIndex := by
  have hbit : v.readStorageBit id = true := by rw [h.bit, hlive]
  have hlength : 0 < v.storedBitset.length := by
    have hlt := h.lt_of_bit hbit
    have hwords := h.words
    omega
  have hword (i : ℕ) (hi : i ∈ List.range 64) : (v.storedBitset.word 0).getLsbD i = v.readStorageBit i := by
    have hi := mem_range.mp hi
    rw [readStorageBit, Level.bit_eq, Nat.div_eq_of_lt hi, Nat.mod_eq_of_lt hi]
  have hne : v.storedBitset.word 0 ≠ 0 := ne_zero_of_bit ((hword id (mem_range.mpr hid)).trans hbit)
  obtain ⟨m, hm⟩ : ∃ m, (List.range 64).find? v.readStorageBit = some m := by
    cases hfind : (List.range 64).find? v.readStorageBit with
    | some m => exact ⟨m, rfl⟩
    | none => exact absurd hbit (find?_eq_none.mp hfind id (mem_range.mpr hid))
  have hm64 : m < 64 := mem_range.mp (mem_of_find?_eq_some hm)
  have hctz : countrZero (v.storedBitset.word 0) = m := by
    rw [countrZero, find?_congr hword, hm]
    rfl
  have hindex : v.storedBitset.findIdx? (· ≠ 0) = some 0 := by
    cases hbits : v.storedBitset with
    | nil => rw [hbits] at hlength; exact absurd hlength (Nat.lt_irrefl 0)
    | cons word rest =>
      have hfirst : v.storedBitset.word 0 = word := by rw [hbits]; rfl
      rw [hfirst] at hne
      rw [findIdx?_cons, if_pos (by simpa using hne)]
  obtain ⟨n, hn⟩ : ∃ n, v.storedBitset.length * 64 = 64 + n := ⟨v.storedBitset.length * 64 - 64, by omega⟩
  have hsplit : List.range (v.storedBitset.length * 64) = List.range 64 ++ List.range' 64 n := by
    rw [hn, range_eq_range', range_eq_range', ← range'_append_1, Nat.zero_add]
  rw [begin, hindex, hsplit, find?_append, hm]
  dsimp only
  rw [hctz]
  show toU32 (toU32 (2 ^ 32 - toU32 0) * 64 + m) = m
  rw [toU32, toU32, toU32]
  omega

variable (hsmall : v.valuesCapacity ≤ maxCapacity)
include hsmall

/-- The number of words, and of their bits, fits in a `u32`. -/
theorem Follows.bits_toU32 : toU32 (toU32 v.storedBitset.length * 64) = v.storedBitset.length * 64 := by
  have hwords := h.words
  rw [maxCapacity] at hsmall
  rw [toU32, toU32, Nat.mod_eq_of_lt (a := v.storedBitset.length) (by omega), Nat.mod_eq_of_lt (by omega)]

/-- From an index on, an iteration visits the ids in use that are left. -/
theorem Follows.visits_from (n : ℕ) : ∀ k, k + n = v.storedBitset.length * 64 →
    v.Visits (((List.range' k n).find? v.readStorageBit).getD invalidIndex) ((List.range' k n).filter v.readStorageBit) := by
  induction n with
  | zero => exact fun k _ => .done
  | succ n ih =>
    intro k hk
    have hrest := ih (k + 1) (by omega)
    rw [range'_succ]
    by_cases hbit : v.readStorageBit k = true
    · rw [find?_cons_of_pos hbit, filter_cons_of_pos hbit, getD_some]
      have hlt := h.lt_of_bit hbit
      have hvalid : k ≠ invalidIndex := by
        rw [invalidIndex]
        rw [maxCapacity] at hsmall
        omega
      have hnext : v.next k = ((List.range' (k + 1) n).find? v.readStorageBit).getD invalidIndex := by
        rw [next, h.bits_toU32 hsmall, if_pos (by omega), ← hk]
        have hn : k + (n + 1) - (k + 1) = n := by omega
        rw [hn]
      refine .visit hvalid ?_
      rw [hnext]
      exact hrest
    · rw [find?_cons_of_neg hbit, filter_cons_of_neg hbit]
      exact hrest

theorem Follows.visits (hfirst : (∀ id, live id = none) ∨ ∃ id < 64, (live id).isSome = true) : v.Visits v.begin v.usedIds := by
  have hall := h.visits_from hsmall (v.storedBitset.length * 64) 0 (Nat.zero_add _)
  rw [← range_eq_range'] at hall
  rcases hfirst with hnone | ⟨id, hid, hlive⟩
  · rwa [h.begin_none hnone]
  · rwa [h.begin_first hid hlive]

end Small

/-! ### Runs -/

theorem insert_capacity {value : T} (hv : v.insert value = some (v', id)) : v.valuesCapacity ≤ v'.valuesCapacity := by
  obtain ⟨⟨u, last⟩, hu, heq⟩ := map_eq_some_iff.mp hv
  rw [← show ({ u with values := update u.values last (some value) } : SlotVector T).setStorageBit last = v' from
    congrArg Prod.fst heq]
  show v.valuesCapacity ≤ u.valuesCapacity
  obtain ⟨_, -, heq⟩ := map_eq_some_iff.mp hu
  have hu' : _ = u := congrArg Prod.fst heq
  rw [← hu']
  split
  · show v.valuesCapacity ≤ if v.valuesCapacity ≠ 0 then v.valuesCapacity <<< 1 else 1
    split
    · rw [Nat.shiftLeft_eq]
      omega
    · omega
  · exact Nat.le_refl _

theorem Follows.contains (h : Follows v live) (hsmall : v.valuesCapacity ≤ maxCapacity) (id : ℕ) : v.contains id = (live id).isSome := by
  rw [← h.bit]
  by_cases hbit : v.readStorageBit id = true
  · have hid := h.lt_of_bit hbit
    have hwords := h.words
    rw [maxCapacity] at hsmall
    rw [hbit, SlotVector.contains, invalidIndex, decide_eq_true (by omega), decide_eq_true (by omega), Bool.true_and, Bool.true_and]
    exact hbit
  · rw [eq_false_of_ne_true hbit, SlotVector.contains, Bool.and_eq_false_iff]
    exact Or.inr (eq_false_of_ne_true hbit)

theorem live_append (history : List (Event T × Option ℕ)) (entry : Event T × Option ℕ) :
    SlotVector.live (history ++ [entry]) = liveStep (SlotVector.live history) entry := foldl_append

/-- In every run, bits, free list and values follow the ids in use. -/
theorem run_follows {history : List (Event T × Option ℕ)} (hrun : History step (fun _ _ => True) empty v history)
    (hsmall : v.valuesCapacity ≤ maxCapacity) : Follows v (SlotVector.live history) := by
  revert hsmall
  refine hrun.invariant (P := fun v history => v.valuesCapacity ≤ maxCapacity → Follows v (SlotVector.live history))
    (fun _ => follows_empty) ?_
  intro v history event v' output ih _ hstep hsmall
  rw [live_append]
  cases event with
  | insert value =>
    obtain ⟨⟨u, id⟩, hinsert, heq⟩ := map_eq_some_iff.mp hstep
    obtain ⟨rfl, rfl⟩ := Prod.mk.inj heq
    have hsmall' := Nat.le_trans (insert_capacity hinsert) hsmall
    exact (insert_spec (ih hsmall') hinsert hsmall').2.2
  | erase id =>
    rw [step] at hstep
    split at hstep
    · rename_i hcontains
      obtain ⟨rfl, rfl⟩ := Prod.mk.inj (Option.some.inj hstep)
      have h := ih hsmall
      rw [h.contains hsmall] at hcontains
      exact erase_spec h hcontains
    · cases hstep

theorem Follows.exact (h : Follows v live) (hsmall : v.valuesCapacity ≤ maxCapacity)
    (hfirst : (∀ id, live id = none) ∨ ∃ id < 64, (live id).isSome = true) : Exact v live where
  distinct value v' id hstep := by
    obtain ⟨⟨u, id'⟩, hinsert, heq⟩ := map_eq_some_iff.mp hstep
    obtain ⟨rfl, hid⟩ := Prod.mk.inj heq
    rw [← Option.some.inj hid]
    exact (insert_spec h hinsert hsmall).2.1
  contains := h.contains hsmall
  kept := h.kept
  iteration := ⟨v.usedIds, usedIds_sorted v, fun _ => h.mem_usedIds, h.size, h.visits hsmall hfirst⟩

/-- The first word is empty and another one is not: `begin()` is no id in use. -/
theorem Follows.begin_stray (h : Follows v live) (hsmall : v.valuesCapacity ≤ maxCapacity) (hempty : ∀ id < 64, live id = none)
    (hlive : (live id).isSome = true) : v.valuesCapacity ≤ v.begin := by
  have hbit : v.readStorageBit id = true := by rw [h.bit, hlive]
  have hwords := h.words
  have hid := h.lt_of_bit hbit
  rw [maxCapacity] at hsmall
  cases hindex : v.storedBitset.findIdx? (· ≠ 0) with
  | none =>
    have hword : v.storedBitset[id / 64]? = some (v.storedBitset.word (id / 64)) := Level.getElem?_eq_some (by omega)
    have hzero := findIdx?_eq_none_iff.mp hindex _ (mem_of_getElem? hword)
    exact absurd (of_decide_eq_false hzero) (not_not.mpr (ne_zero_of_bit hbit))
  | some it =>
    obtain ⟨hit, hne, -⟩ := findIdx?_eq_some_iff_getElem.mp hindex
    have hget : v.storedBitset[it] = v.storedBitset.word it := by
      have hsome := Level.getElem?_eq_some hit
      rw [getElem?_eq_getElem hit] at hsome
      exact Option.some.inj hsome
    rw [hget] at hne
    have hpos : it ≠ 0 := by
      rintro rfl
      obtain ⟨j, hj, hset⟩ := exists_bit_of_ne_zero (of_decide_eq_true hne)
      have hused : v.readStorageBit j = true := by
        rw [readStorageBit, Level.bit_eq, Nat.div_eq_of_lt hj, Nat.mod_eq_of_lt hj]
        exact hset
      rw [h.bit, hempty j hj] at hused
      cases hused
    have hctz : countrZero (v.storedBitset.word it) < 64 := by
      obtain ⟨j, hj, hset⟩ := exists_bit_of_ne_zero (of_decide_eq_true hne)
      rw [countrZero]
      cases hfind : (List.range 64).find? (v.storedBitset.word it).getLsbD with
      | none => exact absurd hset (find?_eq_none.mp hfind j (mem_range.mpr hj))
      | some j => exact mem_range.mp (mem_of_find?_eq_some hfind)
    have hword : toU32 (2 ^ 32 - toU32 it) = 2 ^ 32 - it := by
      rw [toU32, toU32, Nat.mod_eq_of_lt (a := it) (by omega), Nat.mod_eq_of_lt (by omega)]
    rw [begin, hindex]
    dsimp only
    rw [hword, toU32]
    omega

theorem visits_invalid {ids : List ℕ} (h : v.Visits start ids) (hstart : start = invalidIndex) : ids = [] := by
  cases h with
  | done => rfl
  | visit hid _ => exact absurd hstart hid

theorem visits_head {first : ℕ} {rest : List ℕ} (h : v.Visits start (first :: rest)) : first = start := by
  cases h with
  | visit _ _ => rfl

/-- **A vector that has not grown beyond `2 ^ 31` slots is exact if and only if it is empty or an id in use is in the first word.** -/
theorem exact_iff {history : List (Event T × Option ℕ)} (hrun : History step (fun _ _ => True) empty v history)
    (hsmall : v.valuesCapacity ≤ maxCapacity) : Exact v (SlotVector.live history) ↔
      (∀ id, SlotVector.live history id = none) ∨ ∃ id < 64, (SlotVector.live history id).isSome = true := by
  have h := run_follows hrun hsmall
  refine ⟨fun hexact => ?_, h.exact hsmall⟩
  by_contra hstray
  obtain ⟨hlive, hempty⟩ := not_or.mp hstray
  obtain ⟨id, hid⟩ := not_forall.mp hlive
  have hid : (SlotVector.live history id).isSome = true := isSome_iff_ne_none.mpr hid
  have hempty (i : ℕ) (hi : i < 64) : SlotVector.live history i = none := by
    by_contra hne
    exact hempty ⟨i, hi, isSome_iff_ne_none.mpr hne⟩
  have hbegin := h.begin_stray hsmall hempty hid
  obtain ⟨ids, -, hmem, -, hvisits⟩ := hexact.iteration
  have hin := (hmem id).mpr hid
  cases ids with
  | nil => exact not_mem_nil hin
  | cons first rest =>
    have hlt := h.bound first ((hmem first).mp mem_cons_self)
    rw [visits_head hvisits] at hlt
    exact absurd hlt (Nat.not_lt.mpr hbegin)

/-- The vector after an insertion. -/
def one : SlotVector Unit := ((empty : SlotVector Unit).step (.insert ())).get rfl |>.1

theorem exact_iff_one : Exact one (SlotVector.live [(.insert (), some 0)]) := by
  have hstep : (empty : SlotVector Unit).step (.insert ()) = some (one, some 0) := rfl
  have hrun : History step (fun _ _ => True) empty one [(.insert (), some 0)] := History.start.step trivial hstep
  exact (exact_iff hrun (by decide)).mpr (Or.inr ⟨0, by decide, rfl⟩)

/-- All ids of the first word are erased, and one in the second word is left. -/
def eraseFirstWord : List (Event Unit) := List.replicate 65 (.insert ()) ++ (List.range 64).map .erase

/-- The iteration is empty. -/
theorem begin_pastFirstWord :
    ¬ ∀ (v : SlotVector Unit) history, History step (fun _ _ => True) empty v history → Exact v (SlotVector.live history) := by
  intro hexact
  have hend : ((replay step eraseFirstWord (empty, [])).map fun r => (r.1.begin, SlotVector.live r.2 127)) = some (invalidIndex, some ()) := by
    decide +kernel
  obtain ⟨r, hreplay, hr⟩ := map_eq_some_iff.mp hend
  obtain ⟨hbegin, hlive⟩ := Prod.mk.inj hr
  obtain ⟨ids, -, hmem, -, hvisits⟩ := (hexact r.1 r.2 (history_of_replay .start hreplay)).iteration
  have hin := (hmem 127).mpr (by rw [hlive]; rfl)
  rw [visits_invalid hvisits hbegin] at hin
  exact not_mem_nil hin

end SlotVector
end Common
end Citron
