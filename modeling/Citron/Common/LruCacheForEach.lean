/-
# The unbounded scan

`ForEachItemBelow` without a budget. Whether a callback can stop it is decided from the callback's type, by a comparison of
the trait `std::invoke_result` itself with `bool`: no callback can. So all items up to the first that is too new are visited.
-/
import Citron.Common.LruCacheRun
import Citron.Lib.Visits

namespace Citron
namespace Common
namespace LeastRecentlyUsedCache

open Lib List

variable {ObjectType σ : Type}

/-! ### Callbacks -/

/-- What a callback returns. -/
inductive ResultType
  | void | bool
  deriving DecidableEq

/-- The types that are compared: a result, or the trait with a result as its member. -/
inductive CppType
  | result (type : ResultType)
  | invokeResult (type : ResultType)
  deriving DecidableEq

/-- The state of a callback and the cache. -/
abbrev CallbackState (ObjectType σ : Type) : Type := σ × LeastRecentlyUsedCache ObjectType

/-- A callback, called for the object of an item. It leaves the items behind that item in the list, with their ticks: it may
free the item, or items in front. One that returns nothing never asks to stop. -/
structure Callback (ObjectType σ : Type) where
  result : ResultType
  call : ℕ → CallbackState ObjectType σ → Bool × CallbackState ObjectType σ
  void : result = .void → ∀ id s, (call id s).1 = false
  spares : ∀ s kept id behind, ItemList s.2 (kept ++ id :: behind) →
    ∃ kept', ItemList (call id s).2.2 (kept' ++ behind) ∧
      ∀ other ∈ behind, ((call id s).2.2.itemPool other).tick = (s.2.itemPool other).tick

variable (f : Callback ObjectType σ)

/-- `RETURNS_BOOL` -/
def Callback.returnsBool : Bool := CppType.invokeResult f.result = CppType.result .bool

/-- The loop, with the items for which the callback is called; `none` when it has not ended. -/
def forEachItem (tick : TickType) : ℕ → Option ℕ → CallbackState ObjectType σ → Option (List ℕ × CallbackState ObjectType σ)
  | _, none, s => some ([], s)
  | 0, some _, _ => none
  | fuel + 1, some iterator, s =>
    if s.2.tooNew tick iterator then some ([], s)
    else
      let next := (s.2.itemPool iterator).next
      let (returned, s') := f.call iterator s
      if f.returnsBool && returned then some ([iterator], s')
      else (forEachItem tick fuel next s').map fun (visited, s'') => (iterator :: visited, s'')

def forEachItemBelow (tick : TickType) (fuel : ℕ) (s : CallbackState ObjectType σ) :
    Option (List ℕ × CallbackState ObjectType σ) :=
  forEachItem f tick fuel s.2.firstItem s

/-! ### The loop -/

variable {f} {s : CallbackState ObjectType σ} {tick : TickType} {items kept : List ℕ} {fuel : ℕ}

/-- The tick of the item is not above the bound. -/
def below (tick : TickType) (c : LeastRecentlyUsedCache ObjectType) (id : ℕ) : Bool := !c.tooNew tick id

theorem returnsBool_eq_false (f : Callback ObjectType σ) : f.returnsBool = false := by
  exact decide_eq_false CppType.noConfusion

variable {c : LeastRecentlyUsedCache ObjectType}

theorem below_eq_true_iff {id : ℕ} :
    below tick c id = true ↔ (c.itemPool id).tick.s64 ≤ tick.s64 := by
  have hnot : ¬c.tooNew tick id ↔ (c.itemPool id).tick.s64 ≤ tick.s64 := by
    unfold tooNew
    omega
  rw [below, Bool.not_eq_true', decide_eq_false_iff_not, hnot]

theorem below_congr {c' : LeastRecentlyUsedCache ObjectType} (h : ∀ id ∈ items, (c'.itemPool id).tick = (c.itemPool id).tick) :
    items.takeWhile (below tick c') = items.takeWhile (below tick c) := by
  induction items with
  | nil => rw [takeWhile_nil, takeWhile_nil]
  | cons id items ih =>
    have hid : below tick c' id = true ↔ below tick c id = true := by
      rw [below_eq_true_iff, below_eq_true_iff, h id mem_cons_self]
    have hitems := ih fun other hother => h other (mem_cons_of_mem id hother)
    by_cases hbelow : below tick c id = true
    · rw [takeWhile_cons_of_pos hbelow, takeWhile_cons_of_pos (hid.mpr hbelow), hitems]
    · rw [takeWhile_cons_of_neg hbelow, takeWhile_cons_of_neg (mt hid.mp hbelow)]

/-- The next item is known before the callback is called. -/
theorem ItemList.next_eq {id : ℕ} {behind : List ℕ}
    (h : ItemList c (kept ++ id :: behind)) : (c.itemPool id).next = behind.head? := h.apart.next

/-- **The loop visits the items up to the first that is too new.** -/
theorem forEachItem_eq (h : ItemList s.2 (kept ++ items)) (hfuel : items.length < fuel) :
    forEachItem f tick fuel items.head? s =
      some (items.takeWhile (below tick s.2), visitAll f.call (items.takeWhile (below tick s.2)) s) := by
  induction items generalizing fuel s kept with
  | nil =>
    rw [head?_nil, forEachItem]
    rfl
  | cons id items ih =>
    cases fuel with
    | zero => exact absurd hfuel (Nat.not_lt_zero _)
    | succ fuel =>
      rw [head?_cons, forEachItem, takeWhile_cons]
      by_cases hnew : s.2.tooNew tick id
      · rw [if_pos hnew, below, decide_eq_true hnew]
        rfl
      · obtain ⟨kept', hlist, hticks⟩ := f.spares s kept id items h
        have hrest := ih hlist (Nat.lt_of_succ_lt_succ hfuel)
        have hsame : items.takeWhile (below tick (f.call id s).2.2) = items.takeWhile (below tick s.2) := below_congr hticks
        simp only [if_neg hnew, below, decide_eq_false hnew, h.next_eq, returnsBool_eq_false, hrest, hsame]
        rfl

/-! ### What it should do -/

/-- The scan ends, and it calls the callback in order for the items whose tick is not above the bound, up to and including the
first for which the callback returns `true`. -/
def VisitsBelow (f : Callback ObjectType σ) (tick : TickType) (s : CallbackState ObjectType σ) (items : List ℕ) : Prop :=
  ∀ fuel, items.length < fuel →
    ∃ s', forEachItemBelow f tick fuel s = some ((visitUntil f.call (items.filter (below tick s.2)) s).1, s')

/-- The callback asks to stop at none of the items up to the first that is too new but the last of them, and unless it asks to
stop there, no other item has a tick that is not above the bound. -/
def NeverStoppedEarly (f : Callback ObjectType σ) (tick : TickType) (s : CallbackState ObjectType σ) (items : List ℕ) : Prop :=
  let visited := items.takeWhile (below tick s.2)
  (∀ stop ∈ (answers f.call visited s).dropLast, stop = false) ∧
    ((answers f.call visited s).getLast? = some true ∨
      ∀ id ∈ items.dropWhile (below tick s.2), below tick s.2 id = false)

/-- **The scan calls the callback for the right items if and only if the callback never wants to stop early.** -/
theorem forEachItemBelow_visits_iff (f : Callback ObjectType σ) (tick : TickType) (h : ItemList s.2 items) :
    VisitsBelow f tick s items ↔ NeverStoppedEarly f tick s items := by
  have hrun (fuel : ℕ) (hfuel : items.length < fuel) : forEachItemBelow f tick fuel s =
      some (items.takeWhile (below tick s.2), visitAll f.call (items.takeWhile (below tick s.2)) s) := by
    rw [forEachItemBelow, h.first]
    have hlist : ItemList s.2 ([] ++ items) := h
    exact forEachItem_eq hlist hfuel
  have hothers : (items.dropWhile (below tick s.2)).filter (below tick s.2) = [] ↔
      ∀ id ∈ items.dropWhile (below tick s.2), below tick s.2 id = false := by
    simp [filter_eq_nil_iff]
  rw [NeverStoppedEarly, ← hothers, ← visitUntil_append_eq_iff, ← filter_eq_takeWhile_append]
  constructor
  · intro hvisits
    obtain ⟨s', hs'⟩ := hvisits _ (Nat.lt_succ_self _)
    rw [hrun _ (Nat.lt_succ_self _), Option.some.injEq, Prod.mk.injEq] at hs'
    exact hs'.1.symm
  · intro hvisits fuel hfuel
    refine ⟨visitAll f.call (items.takeWhile (below tick s.2)) s, ?_⟩
    rw [hrun fuel hfuel, hvisits]

/-! ### A callback that frees its item -/

theorem ItemList.free {id : ℕ} {behind : List ℕ} (h : ItemList c (kept ++ id :: behind)) :
    ItemList (c.free id) (kept ++ behind) := by
  have hfirst : (c.free id).firstItem = (c.detach id).firstItem := rfl
  apply h.detach.congr hfirst rfl
  intro y hy
  have hne : y ≠ id := by
    rintro rfl
    exact (nodup_cons.1 (nodup_middle.1 h.distinct)).1 hy
  constructor
  · exact (setNext_next _ id y none).trans ((if_neg hne).trans (setPrev_next _ id y none))
  · exact (setNext_prev _ id y none).trans ((setPrev_prev _ id y none).trans (if_neg hne))

/-- The callback of a collector: it frees each item and asks to stop at one of them. -/
def evictUntil (last : ℕ) : Callback ObjectType Unit where
  result := .bool
  call id s := (id == last, (), s.2.free id)
  void h := by cases h
  spares s kept id behind h := ⟨kept, h.free, fun other _ => LruUse.free_tick s.2 id other⟩

/-- Three items in the list, the last of them newer. -/
def threeItems : LeastRecentlyUsedCache ℕ :=
  (((((empty : LeastRecentlyUsedCache ℕ).insert 7 1).1.insert 8 2).1).insert 9 5).1

theorem threeItems_list : ItemList threeItems [0, 1, 2] where
  first := rfl
  last := rfl
  linked := ⟨rfl, rfl, rfl, rfl, rfl, rfl, trivial⟩
  distinct := by decide

/-- The collector asks to stop at the last of the two items whose ticks are not above 2. -/
theorem forEachItemBelow_visits_threeItems : VisitsBelow (evictUntil 1) 2 ((), threeItems) [0, 1, 2] := by
  have hvisited : [0, 1, 2].takeWhile (below 2 threeItems) = [0, 1] := by decide +kernel
  apply (forEachItemBelow_visits_iff (evictUntil 1) 2 threeItems_list).mpr
  unfold NeverStoppedEarly
  dsimp only
  rw [hvisited]
  exact ⟨by decide +kernel, Or.inl (by decide +kernel)⟩

/-- The collector asks to stop at the first item and is called for the second. -/
theorem forEachItemBelow_not_visits : ¬VisitsBelow (evictUntil 0) 2 ((), threeItems) [0, 1, 2] := by
  intro h
  obtain ⟨s', hs'⟩ := h 4 (by decide)
  have hcalled : (forEachItemBelow (evictUntil 0) 2 4 ((), threeItems)).map (·.1) = some [0, 1] := by decide +kernel
  have hwanted : (visitUntil (evictUntil 0).call ([0, 1, 2].filter (below 2 threeItems)) ((), threeItems)).1 = [0] := by
    decide +kernel
  rw [hs', Option.map_some, hwanted] at hcalled
  exact absurd hcalled (by decide)

end LeastRecentlyUsedCache
end Common
end Citron
