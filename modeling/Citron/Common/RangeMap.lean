/-
# The range map

`RangeMap` keeps a value for each address in a `std::map` from the addresses where
the value changes. The addresses of the interface, of the integral type `KeyTBase`,
are cast to its signed type first. Positions in the map are indices; a dereference of
the end, or an `erase` at it, gives `none`.
-/
import Citron.Lib.Breakpoints

namespace Citron

open List

namespace Common

open Lib

/-- An integral type, by the bits of its signed type beside the sign. -/
structure KeyTBase where
  valueBits : ℕ
  signed : Bool

namespace KeyTBase

variable (K : KeyTBase)

/-- One more than `std::numeric_limits<KeyT>::max()`. -/
def limit : ℤ := 2 ^ K.valueBits

theorem limit_pos : 0 < K.limit := by
  unfold limit
  positivity

/-- The values of the type. -/
def Valid (x : ℤ) : Prop :=
  if K.signed then -K.limit ≤ x ∧ x < K.limit else 0 ≤ x ∧ x < 2 * K.limit

instance (x : ℤ) : Decidable (K.Valid x) :=
  inferInstanceAs (Decidable (if K.signed then -K.limit ≤ x ∧ x < K.limit else 0 ≤ x ∧ x < 2 * K.limit))

/-- `static_cast<KeyT>`. -/
def toKey (x : ℤ) : ℤ := if x < K.limit then x else x - 2 * K.limit

end KeyTBase

structure RangeMap (V : Type) where
  nullValue : V
  container : List (ℤ × V)

namespace RangeMap

variable {V : Type} [DecidableEq V]

def initial (K : KeyTBase) (nullValue : V) : RangeMap V := ⟨nullValue, [(-K.limit, nullValue)]⟩

/-! ### The container -/

def lowerBound (l : List (ℤ × V)) (address : ℤ) : ℕ := l.findIdx fun e => decide (address ≤ e.1)

def upperBound (l : List (ℤ × V)) (address : ℤ) : ℕ := l.findIdx fun e => decide (address < e.1)

/-- `emplace`: nothing happens if the key is there. -/
def emplace : List (ℤ × V) → ℤ → V → List (ℤ × V)
  | [], address, value => [(address, value)]
  | e :: l, address, value =>
    if address < e.1 then (address, value) :: e :: l
    else if address = e.1 then e :: l
    else e :: emplace l address value

/-- `while (it != it_end) it = container.erase(it)`. -/
def eraseLoop (l : List (ℤ × V)) (it itEnd : ℕ) : Option (List (ℤ × V)) :=
  if it = itEnd then some l
  else if it < l.length then eraseLoop (l.eraseIdx it) it (if it < itEnd then itEnd - 1 else itEnd)
  else none
termination_by l.length
decreasing_by
  rw [length_eraseIdx_of_lt ‹_›]
  omega

/-! ### Lookup -/

/-- The position of `GetFirstElementBeforeOrOn`. -/
def getFirstElementBeforeOrOn (l : List (ℤ × V)) (address : ℤ) : ℕ :=
  let it := lowerBound l address
  if it = 0 then it
  else if (l[it]?).any (·.1 = address) then it
  else it - 1

def getValueInternal (m : RangeMap V) (address : ℤ) : V :=
  match m.container[getFirstElementBeforeOrOn m.container address]? with
  | none => m.nullValue
  | some e => e.2

def continuousSizeInternal (K : KeyTBase) (m : RangeMap V) (address : ℤ) : ℤ :=
  let it := getFirstElementBeforeOrOn m.container address
  match m.container[it]? with
  | none => 0
  | some e =>
    if e.2 = m.nullValue then 0
    else
      match m.container[it + 1]? with
      | none => K.limit - 1 - address
      | some next => next.1 - address

def getValueAt (K : KeyTBase) (m : RangeMap V) (address : ℤ) : V :=
  if K.toKey address < 0 then m.nullValue else m.getValueInternal (K.toKey address)

def getContinuousSizeFrom (K : KeyTBase) (m : RangeMap V) (address : ℤ) : ℤ :=
  if K.toKey address < 0 then 0 else m.continuousSizeInternal K (K.toKey address)

/-! ### Map -/

def getFirstValueWithin (m : RangeMap V) (address : ℤ) : Option V :=
  let it := lowerBound m.container address
  if it = 0 then (m.container[it]?).map (·.2)
  else if it = m.container.length then some m.nullValue
  else (m.container[it - 1]?).map (·.2)

def getLastValueWithin (m : RangeMap V) (address : ℤ) : Option V :=
  let it := upperBound m.container address
  if it = m.container.length then some m.nullValue
  else if it = 0 then (m.container[it]?).map (·.2)
  else (m.container[it - 1]?).map (·.2)

def internalMap (m : RangeMap V) (address addressEnd : ℤ) (value : V) : Option (RangeMap V) := do
  let firstValue ← m.getFirstValueWithin address
  let lastValue ← m.getLastValueWithin addressEnd
  let l ← eraseLoop m.container (lowerBound m.container address) (upperBound m.container addressEnd)
  let l := if firstValue ≠ value then emplace l address value else l
  let l := if lastValue ≠ value then emplace l addressEnd lastValue else l
  some { m with container := l }

def map (K : KeyTBase) (m : RangeMap V) (address addressEnd : ℤ) (value : V) : Option (RangeMap V) :=
  let newAddress := K.toKey address
  let newAddressEnd := K.toKey addressEnd
  m.internalMap (if newAddress < 0 then 0 else newAddress) (if newAddressEnd < 0 then 0 else newAddressEnd) value

def unmap (K : KeyTBase) (m : RangeMap V) (address addressEnd : ℤ) : Option (RangeMap V) :=
  m.map K address addressEnd m.nullValue

end RangeMap
end Common

/-! ## Mapping a range

The container of a range map is `Canonical`: its keys ascend from the least one, no two
neighbours have the same value, and the last one has the null value. `InternalMap` of a
range that is not empty keeps this, and changes the values of that range only; of a range
that ends at 0 it changes nothing, or walks past the end of the container.
-/

namespace Common
namespace RangeMap

open Lib

variable {V : Type} {K : KeyTBase} {m : RangeMap V} {l l₁ l₂ mid : List (ℤ × V)} {e : ℤ × V}
  {a b : ℤ} {v : V}

/-! ### The container -/

theorem lowerBound_cut (h1 : ∀ e ∈ l₁, e.1 < a) (h2 : ∀ e ∈ l₂, a ≤ e.1) : lowerBound (l₁ ++ l₂) a = l₁.length :=
  findIdx_cut h1 h2

theorem upperBound_cut (h1 : ∀ e ∈ l₁, e.1 ≤ a) (h2 : ∀ e ∈ l₂, a < e.1) : upperBound (l₁ ++ l₂) a = l₁.length :=
  @findIdx_cut _ _ _ Prod.fst _ _ (a + 1) (fun e he => Int.lt_add_one_of_le (h1 e he)) fun e he => h2 e he

theorem emplace_append (v : V) (r : List (ℤ × V)) : ∀ {l₁ : List (ℤ × V)}, (∀ e ∈ l₁, e.1 < a) →
    emplace (l₁ ++ r) a v = l₁ ++ emplace r a v
  | [], _ => rfl
  | e :: l₁, h1 => by
    obtain ⟨he, h1⟩ := forall_mem_cons.mp h1
    rw [cons_append, emplace, if_neg (by omega), if_neg (by omega), emplace_append v r h1, cons_append]

theorem emplace_cut (v : V) (h1 : ∀ e ∈ l₁, e.1 < a) (h2 : ∀ e ∈ l₂, a < e.1) :
    emplace (l₁ ++ l₂) a v = l₁ ++ (a, v) :: l₂ := by
  rw [emplace_append v l₂ h1]
  cases l₂ with
  | nil => rfl
  | cons e l₂ => rw [emplace, if_pos (h2 e mem_cons_self)]

/-- The key is there already. -/
theorem emplace_key (v : V) (h1 : ∀ f ∈ l₁, f.1 < e.1) : emplace (l₁ ++ e :: l₂) e.1 v = l₁ ++ e :: l₂ := by
  rw [emplace_append v _ h1, emplace, if_neg (lt_irrefl _), if_pos rfl]

theorem eraseLoop_cut (l₁ l₂ : List (ℤ × V)) : ∀ mid : List (ℤ × V),
    eraseLoop (l₁ ++ mid ++ l₂) l₁.length (l₁.length + mid.length) = some (l₁ ++ l₂)
  | [] => by
    unfold eraseLoop
    simp
  | e :: mid => by
    have herase : (l₁ ++ e :: mid ++ l₂).eraseIdx l₁.length = l₁ ++ mid ++ l₂ := by
      rw [append_assoc, eraseIdx_append_of_length_le le_rfl, Nat.sub_self, append_assoc]
      rfl
    unfold eraseLoop
    rw [if_neg (by simp), if_pos (by simp), if_pos (by simp), herase, length_cons]
    exact eraseLoop_cut l₁ l₂ mid

/-- The end of the range lies before its start: the loop walks past the end of the container. -/
theorem eraseLoop_of_gt {it itEnd : ℕ} (h : itEnd < it) : ∀ l : List (ℤ × V), eraseLoop l it itEnd = none := by
  intro l
  induction hn : l.length using Nat.strong_induction_on generalizing l with
  | _ n ih =>
    unfold eraseLoop
    rw [if_neg (by omega)]
    split_ifs with hlt
    · exact absurd ‹it < itEnd› (by omega)
    · exact ih _ (by rw [length_eraseIdx_of_lt hlt]; omega) _ rfl
    · rfl

/-! ### Values -/

/-- The value at an address of the signed type. -/
def value (m : RangeMap V) (a : ℤ) : V := ((lastAt Prod.fst m.container a).map Prod.snd).getD m.nullValue

/-- The keys ascend from the least one, no two neighbours have the same value, and the last
one has the null value. -/
structure Canonical (K : KeyTBase) (m : RangeMap V) : Prop where
  ascending : Ascending Prod.fst m.container
  bound : ∀ e ∈ m.container, e.1 < K.limit
  minimum : m.container.head?.map Prod.fst = some (-K.limit)
  last : m.container.getLast?.map Prod.snd = some m.nullValue
  changes : m.container.IsChain fun e f => e.2 ≠ f.2

/-- Nothing is mapped below 0. -/
def NullBelow (K : KeyTBase) (m : RangeMap V) : Prop :=
  ∀ e ∈ m.container, 0 ≤ e.1 ∨ e = (-K.limit, m.nullValue)

/-- The container, cut after the entry that holds at an address. -/
structure HoldsAt (l : List (ℤ × V)) (a : ℤ) (l₁ : List (ℤ × V)) (e : ℤ × V) (l₂ : List (ℤ × V)) : Prop where
  eq : l = l₁ ++ e :: l₂
  before : ∀ f ∈ l₁, f.1 < e.1
  le : e.1 ≤ a
  after : ∀ f ∈ l₂, a < f.1

theorem Canonical.holdsAt (h : Canonical K m) (ha : -K.limit ≤ a) : ∃ l₁ e l₂, HoldsAt m.container a l₁ e l₂ := by
  obtain ⟨l₁, l₂, hl, h1, h2⟩ := h.ascending.exists_cut (a + 1)
  have hne : l₁ ≠ [] := by
    rintro rfl
    have hfirst := h.minimum
    rw [hl, nil_append, Option.map_eq_some_iff] at hfirst
    obtain ⟨f, hf, hf'⟩ := hfirst
    have := h2 f (mem_of_mem_head? hf)
    omega
  obtain ⟨l₁, e, rfl⟩ := eq_nil_or_concat' l₁ |>.resolve_left hne
  have hasc := h.ascending
  rw [hl, ascending_append, ascending_append] at hasc
  refine ⟨l₁, e, l₂, by rw [hl, append_assoc]; rfl, fun f hf => hasc.1.2.2 f hf e mem_cons_self, ?_, ?_⟩
  · have := h1 e (mem_append_right _ mem_cons_self)
    omega
  · intro f hf
    have := h2 f hf
    omega

theorem HoldsAt.value_eq {e : ℤ × V} (h : HoldsAt m.container a l₁ e l₂) : m.value a = e.2 := by
  unfold value
  rw [h.eq, lastAt_append_cons_of_le h.le, lastAt_cons_of_lt h.le h.after]
  rfl

/-- The search for an address ends at the entry that holds at it. -/
theorem HoldsAt.getFirstElementBeforeOrOn (h : HoldsAt l a l₁ e l₂) :
    getFirstElementBeforeOrOn l a = l₁.length := by
  have hle := h.le
  unfold RangeMap.getFirstElementBeforeOrOn
  rw [h.eq]
  by_cases heq : e.1 = a
  · have hlow : lowerBound (l₁ ++ e :: l₂) a = l₁.length := by
      refine lowerBound_cut (fun f hf => heq ▸ h.before f hf) (forall_mem_cons.mpr ⟨heq.ge, fun f hf => ?_⟩)
      exact (h.after f hf).le
    rw [hlow]
    by_cases h0 : l₁.length = 0
    · simp [h0]
    · simp [h0, heq]
  · have hlow : lowerBound (l₁ ++ e :: l₂) a = l₁.length + 1 := by
      rw [← singleton_append, ← append_assoc]
      rw [lowerBound_cut _ fun f hf => (h.after f hf).le, length_append]
      · rfl
      · intro f hf
        rcases mem_append.mp hf with hf | hf
        · have := h.before f hf
          omega
        · rw [mem_singleton.mp hf]
          omega
    have hget : (l₁ ++ e :: l₂)[l₁.length + 1]? = l₂.head? := by
      rw [getElem?_append_right (by omega), Nat.add_sub_cancel_left, getElem?_cons_succ,
        List.head?_eq_getElem?]
    have hany : (l₂.head?.any fun f => decide (f.1 = a)) = false := by
      cases l₂ with
      | nil => rfl
      | cons f l₂ =>
        have := h.after f mem_cons_self
        simp only [head?_cons, Option.any_some, decide_eq_false_iff_not]
        omega
    rw [hlow]
    simp [hget, hany]

/-! ### `InternalMap` -/

/-- The container, cut before and after a range; `e` holds before the range and `f` at its end. -/
structure Cut (l : List (ℤ × V)) (a b : ℤ) (l₁ : List (ℤ × V)) (e : ℤ × V) (mid l₃ : List (ℤ × V)) (f : ℤ × V)
    (r : List (ℤ × V)) : Prop where
  eq : l = l₁ ++ e :: (mid ++ r)
  left : ∀ x ∈ l₁ ++ [e], x.1 < a
  middle : ∀ x ∈ mid, a ≤ x.1 ∧ x.1 ≤ b
  right : ∀ x ∈ r, b < x.1
  last : l₁ ++ e :: mid = l₃ ++ [f]

theorem Canonical.exists_cut (h : Canonical K m) (ha : 0 ≤ a) :
    ∃ l₁ e mid l₃ f r, Cut m.container a b l₁ e mid l₃ f r := by
  have hlim := K.limit_pos
  obtain ⟨l₁, e, l₂, hh⟩ := h.holdsAt (a := a - 1) (by omega)
  have hasc := h.ascending
  rw [hh.eq, ascending_append, ascending_cons] at hasc
  obtain ⟨mid, r, rfl, h1, h2⟩ := hasc.2.1.2.exists_cut (b + 1)
  obtain ⟨l₃, f, hf⟩ := eq_nil_or_concat' (l₁ ++ e :: mid) |>.resolve_left (by simp)
  refine ⟨l₁, e, mid, l₃, f, r, hh.eq, ?_, ?_, ?_, hf⟩
  · intro x hx
    have hle := hh.le
    rcases mem_append.mp hx with hx | hx
    · have := hh.before x hx
      omega
    · rw [mem_singleton.mp hx]
      omega
  · intro x hx
    have := hh.after x (mem_append_left _ hx)
    have := h1 x hx
    omega
  · intro x hx
    have := h2 x hx
    omega

section Cut

variable {f : ℤ × V} {l₃ r : List (ℤ × V)}

section

variable (hc : Cut l a b l₁ e mid l₃ f r)
include hc

theorem Cut.eq_left : l = (l₁ ++ [e]) ++ (mid ++ r) := by
  rw [hc.eq, append_assoc]
  rfl

theorem Cut.eq_last : l = l₃ ++ f :: r := by
  rw [hc.eq, ← cons_append, ← append_assoc, hc.last, append_assoc]
  rfl

theorem Cut.le_of_mem_left (hab : a ≤ b) : ∀ x ∈ l₃ ++ [f], x.1 ≤ b := by
  intro x hx
  rw [← hc.last] at hx
  rcases mem_append.mp hx with hx | hx
  · exact ((hc.left x (mem_append_left _ hx)).trans_le hab).le
  · rcases mem_cons.mp hx with rfl | hx
    · exact ((hc.left x (mem_append_right _ mem_cons_self)).trans_le hab).le
    · exact (hc.middle x hx).2

theorem Cut.le_of_mem_right (hab : a ≤ b) : ∀ x ∈ mid ++ r, a ≤ x.1 := by
  intro x hx
  rcases mem_append.mp hx with hx | hx
  · exact (hc.middle x hx).1
  · exact hab.trans (hc.right x hx).le

end

theorem getLastValueWithin_cut (hc : m.container = l₁ ++ e :: r)
    (hlast : m.container.getLast?.map Prod.snd = some m.nullValue) (h1 : ∀ f ∈ l₁ ++ [e], f.1 ≤ b)
    (h2 : ∀ f ∈ r, b < f.1) : m.getLastValueWithin b = some e.2 := by
  have hcut : m.container = (l₁ ++ [e]) ++ r := by rw [hc, append_assoc]; rfl
  have hup : upperBound m.container b = l₁.length + 1 := by
    rw [hcut, upperBound_cut h1 h2, length_append, length_singleton]
  unfold getLastValueWithin
  rw [hup]
  by_cases hl : l₁.length + 1 = m.container.length
  · have hr : r = [] := by
      rw [hc, length_append, length_cons] at hl
      exact length_eq_zero_iff.mp (by omega)
    rw [hc, hr, getLast?_append] at hlast
    rw [if_pos hl]
    simpa using hlast.symm
  · rw [if_neg hl, if_neg (by omega), hc]
    simp

theorem getFirstValueWithin_cut (hc : m.container = l₁ ++ e :: r)
    (hlast : m.container.getLast?.map Prod.snd = some m.nullValue) (h1 : ∀ f ∈ l₁ ++ [e], f.1 < a)
    (h2 : ∀ f ∈ r, a ≤ f.1) : m.getFirstValueWithin a = some e.2 := by
  have hcut : m.container = (l₁ ++ [e]) ++ r := by rw [hc, append_assoc]; rfl
  have hlow : lowerBound m.container a = l₁.length + 1 := by
    rw [hcut, lowerBound_cut h1 h2, length_append, length_singleton]
  unfold getFirstValueWithin
  rw [hlow, if_neg (by omega)]
  by_cases hl : l₁.length + 1 = m.container.length
  · have hr : r = [] := by
      rw [hc, length_append, length_cons] at hl
      exact length_eq_zero_iff.mp (by omega)
    rw [hc, hr, getLast?_append] at hlast
    rw [if_pos hl]
    simpa using hlast.symm
  · rw [if_neg hl, hc]
    simp

variable [DecidableEq V]

/-- The container that `InternalMap` makes of a cut. -/
def mapped (l₁ r : List (ℤ × V)) (a b : ℤ) (first last v : V) : List (ℤ × V) :=
  l₁ ++ ((if first ≠ v then [(a, v)] else []) ++ (if last ≠ v then [(b, last)] else [])) ++ r

/-- `InternalMap` erases the middle, then writes the two ends. -/
theorem Cut.internalMap (hc : Cut m.container a b l₁ e mid l₃ f r) (h : Canonical K m) (hab : a ≤ b) :
    m.internalMap a b v =
      let l := if e.2 ≠ v then emplace (l₁ ++ [e] ++ r) a v else l₁ ++ [e] ++ r
      some { m with container := if f.2 ≠ v then emplace l b f.2 else l } := by
  have hfirst : m.getFirstValueWithin a = some e.2 :=
    getFirstValueWithin_cut hc.eq h.last hc.left (hc.le_of_mem_right hab)
  have hlast : m.getLastValueWithin b = some f.2 :=
    getLastValueWithin_cut hc.eq_last h.last (hc.le_of_mem_left hab) hc.right
  have hlow : lowerBound m.container a = (l₁ ++ [e]).length := by
    rw [hc.eq_left, lowerBound_cut hc.left (hc.le_of_mem_right hab)]
  have hup : upperBound m.container b = (l₁ ++ [e]).length + mid.length := by
    have hl : l₃ ++ [f] = l₁ ++ [e] ++ mid := by rw [← hc.last, append_assoc]; rfl
    have heq : m.container = (l₃ ++ [f]) ++ r := by rw [hc.eq_last, append_assoc]; rfl
    rw [heq, upperBound_cut (hc.le_of_mem_left hab) hc.right, hl, length_append]
  have herase : eraseLoop m.container (lowerBound m.container a) (upperBound m.container b) =
      some (l₁ ++ [e] ++ r) := by
    rw [hlow, hup, hc.eq_left, ← append_assoc, eraseLoop_cut]
  unfold RangeMap.internalMap
  simp only [hfirst, hlast, herase, Option.bind_eq_bind, Option.bind_some]

/-- A range that is not empty. -/
theorem Cut.internalMap_of_lt (hc : Cut m.container a b l₁ e mid l₃ f r) (h : Canonical K m) (hab : a < b) :
    m.internalMap a b v = some { m with container := mapped (l₁ ++ [e]) r a b e.2 f.2 v } := by
  have hleft : ∀ x ∈ l₁ ++ [e], x.1 < b := fun x hx => (hc.left x hx).trans hab
  have hright : ∀ x ∈ r, a < x.1 := fun x hx => hab.trans (hc.right x hx)
  have hleft' : ∀ x ∈ l₁ ++ [e] ++ [(a, v)], x.1 < b := by
    intro x hx
    rcases mem_append.mp hx with hx | hx
    · exact hleft x hx
    · rw [mem_singleton.mp hx]
      exact hab
  rw [hc.internalMap h hab.le]
  unfold mapped
  dsimp only
  by_cases h1 : e.2 ≠ v
  · rw [if_pos h1, if_pos h1, emplace_cut v hc.left hright]
    by_cases h2 : f.2 ≠ v
    · have heq : l₁ ++ [e] ++ (a, v) :: r = l₁ ++ [e] ++ [(a, v)] ++ r := by simp
      rw [if_pos h2, if_pos h2, heq, emplace_cut f.2 hleft' hc.right]
      simp
    · rw [if_neg h2, if_neg h2]
      simp
  · rw [if_neg h1, if_neg h1]
    by_cases h2 : f.2 ≠ v
    · rw [if_pos h2, if_pos h2, emplace_cut f.2 hleft hc.right]
      simp
    · rw [if_neg h2, if_neg h2]
      simp

/-- What holds from the end of the range on holds as before. -/
theorem mapped_last (l₁ : List (ℤ × V)) (e : ℤ × V) (hab : a ≤ b) (he : e.1 < a) (last : V) :
    ∃ l₄ g, l₁ ++ [e] ++ ((if e.2 ≠ v then [(a, v)] else []) ++ if last ≠ v then [(b, last)] else []) =
      l₄ ++ [g] ∧ g.2 = last ∧ g.1 ≤ b := by
  by_cases h2 : last ≠ v
  · rw [if_pos h2, ← append_assoc]
    exact ⟨_, _, rfl, rfl, le_rfl⟩
  · rw [if_neg h2, append_nil]
    have h2 := not_not.mp h2
    by_cases h1 : e.2 ≠ v
    · rw [if_pos h1]
      exact ⟨_, _, rfl, h2.symm, hab⟩
    · rw [if_neg h1, append_nil]
      exact ⟨_, _, rfl, (not_not.mp h1).trans h2.symm, (he.trans_le hab).le⟩

theorem mapped_changes (last : V) (h1 : (l₁ ++ [e]).IsChain fun x y => x.2 ≠ y.2) :
    (l₁ ++ [e] ++ ((if e.2 ≠ v then [(a, v)] else []) ++ if last ≠ v then [(b, last)] else [])).IsChain
      fun x y => x.2 ≠ y.2 := by
  rw [isChain_append]
  refine ⟨h1, ?_, ?_⟩
  · split_ifs with h2 h3 <;> simp
    exact Ne.symm h3
  · intro x hx y hy
    obtain rfl : e = x := by simpa using hx
    split_ifs at hy with h2 h3 h3
    · obtain rfl : (a, v) = y := by simpa using hy
      exact h2
    · obtain rfl : (a, v) = y := by simpa using hy
      exact h2
    · obtain rfl : (b, last) = y := by simpa using hy
      rw [not_not.mp h2]
      exact Ne.symm h3
    · exact absurd hy (by simp)

/-- The entries that are written lie at the ends of the range. -/
theorem mapped_ends {first last : V} (hab : a ≤ b) : ∀ x ∈ (if first ≠ v then [(a, v)] else []) ++
    (if last ≠ v then [(b, last)] else []), (x.1 = a ∨ x.1 = b) ∧ a ≤ x.1 ∧ x.1 ≤ b := by
  intro x hx
  rcases mem_append.mp hx with hx | hx
  · split_ifs at hx
    · rw [mem_singleton.mp hx]
      exact ⟨.inl rfl, le_rfl, hab⟩
    · exact absurd hx not_mem_nil
  · split_ifs at hx
    · rw [mem_singleton.mp hx]
      exact ⟨.inr rfl, hab, le_rfl⟩
    · exact absurd hx not_mem_nil

theorem Cut.mem_mapped (hc : Cut m.container a b l₁ e mid l₃ f r) (hab : a ≤ b) :
    ∀ x ∈ mapped (l₁ ++ [e]) r a b e.2 f.2 v, x ∈ m.container ∨ x.1 = a ∨ x.1 = b := by
  intro x hx
  rcases mem_append.mp hx with hx | hx
  · rcases mem_append.mp hx with hx | hx
    · refine .inl ?_
      rw [hc.eq_left]
      exact mem_append_left _ hx
    · exact .inr (mapped_ends hab x hx).1
  · refine .inl ?_
    rw [hc.eq_last]
    exact mem_append_right _ (mem_cons_of_mem _ hx)

theorem Cut.canonical_mapped (hc : Cut m.container a b l₁ e mid l₃ f r) (h : Canonical K m)
    (hab : a < b) (hb : b < K.limit) :
    Canonical K { m with container := mapped (l₁ ++ [e]) r a b e.2 f.2 v } := by
  have hX : ∀ x ∈ (if e.2 ≠ v then [(a, v)] else []) ++ (if f.2 ≠ v then [(b, f.2)] else []),
      (x.1 = a ∨ x.1 = b) ∧ a ≤ x.1 ∧ x.1 ≤ b := mapped_ends hab.le
  obtain ⟨l₄, g, hg, hgv, hgb⟩ := mapped_last l₁ e hab.le (hc.left e (by simp)) f.2
  have hchanges := mapped_changes (a := a) (b := b) (v := v) f.2
    (isChain_append.mp (hc.eq_left ▸ h.changes)).1
  have hrest := isChain_append.mp (hc.eq_last ▸ h.changes)
  have hasc := h.ascending
  rw [hc.eq_left, ascending_append] at hasc
  constructor
  · refine Ascending.splice (v := a) (w := b + 1) hasc.1 ?_ (ascending_append.mp hasc.2.1).2.1 hc.left
      (fun x hx => ⟨(hX x hx).2.1, Int.lt_add_one_of_le (hX x hx).2.2⟩) hc.right (by omega)
    split_ifs <;> simp [Ascending, hab]
  · intro x hx
    rcases hc.mem_mapped hab.le x hx with hx | hx
    · exact h.bound x hx
    · omega
  · show (mapped (l₁ ++ [e]) r a b e.2 f.2 v).head?.map Prod.fst = _
    rw [← h.minimum, hc.eq_left]
    unfold mapped
    simp [head?_append]
  · show (mapped (l₁ ++ [e]) r a b e.2 f.2 v).getLast?.map Prod.snd = _
    have hlast := h.last
    rw [hc.eq_last, getLast?_append, getLast?_cons] at hlast
    unfold mapped
    rw [hg, getLast?_append, getLast?_concat]
    cases hr : r.getLast? with
    | none => simpa [hr, hgv] using hlast
    | some x => simpa [hr] using hlast
  · show (mapped (l₁ ++ [e]) r a b e.2 f.2 v).IsChain _
    unfold mapped
    rw [hg] at hchanges ⊢
    refine isChain_append.mpr ⟨hchanges, (isChain_cons.mp hrest.2.1).2, fun x hx y hy => ?_⟩
    obtain rfl : g = x := by simpa using hx
    rw [hgv]
    exact (isChain_cons.mp hrest.2.1).1 y hy

/-- `InternalMap` of a range that is not empty. -/
theorem Canonical.internalMap (h : Canonical K m) (ha : 0 ≤ a) (hab : a < b) (hb : b < K.limit) :
    ∃ m', m.internalMap a b v = some m' ∧ m'.nullValue = m.nullValue ∧ Canonical K m' ∧
      (NullBelow K m → NullBelow K m') ∧ ∀ x, m'.value x = if a ≤ x ∧ x < b then v else m.value x := by
  obtain ⟨l₁, e, mid, l₃, f, r, hc⟩ := h.exists_cut (b := b) ha
  refine ⟨_, hc.internalMap_of_lt h hab, rfl, hc.canonical_mapped h hab hb, fun hnull x hx => ?_,
    fun x => ?_⟩
  · rcases hc.mem_mapped hab.le x hx with hx | hx
    · exact hnull x hx
    · exact .inl (by omega)
  obtain ⟨l₄, g, hg, hgv, hgb⟩ := mapped_last (v := v) l₁ e hab.le (hc.left e (by simp)) f.2
  have hX : ∀ x ∈ (if e.2 ≠ v then [(a, v)] else []) ++ (if f.2 ≠ v then [(b, f.2)] else []),
      (x.1 = a ∨ x.1 = b) ∧ a ≤ x.1 ∧ x.1 ≤ b := mapped_ends hab.le
  unfold value mapped
  dsimp only
  rcases lt_or_ge x a with hxa | hxa
  · have hout : ¬ (a ≤ x ∧ x < b) := by omega
    have hold : lastAt Prod.fst (l₁ ++ [e] ++ (mid ++ r)) x = lastAt Prod.fst (l₁ ++ [e]) x :=
      lastAt_append_of_lt fun y hy => hxa.trans_le (hc.le_of_mem_right hab.le y hy)
    have hnew : lastAt Prod.fst (l₁ ++ [e] ++ (((if e.2 ≠ v then [(a, v)] else []) ++
        if f.2 ≠ v then [(b, f.2)] else []) ++ r)) x = lastAt Prod.fst (l₁ ++ [e]) x := by
      refine lastAt_append_of_lt fun y hy => ?_
      rcases mem_append.mp hy with hy | hy
      · exact hxa.trans_le (hX y hy).2.1
      · exact hxa.trans (hab.trans (hc.right y hy))
    rw [if_neg hout, hc.eq_left, hold, append_assoc (l₁ ++ [e]), hnew]
  rcases lt_or_ge x b with hxb | hxb
  · have hin : a ≤ x ∧ x < b := ⟨hxa, hxb⟩
    rw [if_pos hin, lastAt_append_of_lt fun y hy => hxb.trans (hc.right y hy), ← append_assoc,
      lastAt_append_of_lt]
    · by_cases h1 : e.2 ≠ v
      · rw [if_pos h1, lastAt_concat_of_le (by exact hxa)]
        rfl
      · have := hc.left e (by simp)
        rw [if_neg h1, append_nil, lastAt_concat_of_le (by omega)]
        exact not_not.mp h1
    · intro y hy
      split_ifs at hy
      · rw [mem_singleton.mp hy]
        exact hxb
      · exact absurd hy not_mem_nil
  · have hfb := hc.le_of_mem_left hab.le f (by simp)
    have hout : ¬ (a ≤ x ∧ x < b) := by omega
    rw [if_neg hout, hg, hc.eq_last, lastAt_append, lastAt_concat_of_le (by omega), ← singleton_append,
      ← append_assoc, lastAt_append, lastAt_concat_of_le (by omega)]
    cases lastAt Prod.fst r x with
    | none => exact congrArg (fun v => (some v).getD m.nullValue) hgv
    | some y => rfl

end Cut

end RangeMap
end Common
end Citron
