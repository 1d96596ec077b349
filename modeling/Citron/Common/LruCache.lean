/-
# The cache of the least recently used items

Items in a pool, linked in the order in which they were last used, with the slots that are free. A bounded
scan goes through the items from where the last one stopped, and calls back at each of them; the callback
may use the cache, also to scan it again.
-/
import Citron.Lib.Histories
import Citron.Lib.DoublyLinkedLists
import Mathlib

namespace Citron
namespace Common

open List

/-- `TickType` -/
abbrev TickType := UInt64

/-- `static_cast<s64>` -/
def TickType.s64 (tick : TickType) : ℤ := tick.toBitVec.toInt

/-- A pointer to an item is its place in the pool. -/
structure LruItem (ObjectType : Type) where
  obj : ObjectType
  tick : TickType
  next : Option ℕ
  prev : Option ℕ
  deriving Inhabited

/-- Ids are places in the pool. -/
structure LeastRecentlyUsedCache (ObjectType : Type) where
  itemPool : ℕ → LruItem ObjectType
  poolSize : ℕ
  freeItems : List ℕ
  firstItem : Option ℕ
  lastItem : Option ℕ
  scanCursor : Option ℕ

namespace LeastRecentlyUsedCache

variable {ObjectType : Type}

def empty [Inhabited ObjectType] : LeastRecentlyUsedCache ObjectType := ⟨fun _ => default, 0, [], none, none, none⟩

variable (c : LeastRecentlyUsedCache ObjectType)

def setItem (id : ℕ) (item : LruItem ObjectType) : LeastRecentlyUsedCache ObjectType :=
  { c with itemPool := Function.update c.itemPool id item }

def setNext (id : ℕ) (next : Option ℕ) : LeastRecentlyUsedCache ObjectType := c.setItem id { c.itemPool id with next := next }

def setPrev (id : ℕ) (prev : Option ℕ) : LeastRecentlyUsedCache ObjectType := c.setItem id { c.itemPool id with prev := prev }

def setTick (id : ℕ) (tick : TickType) : LeastRecentlyUsedCache ObjectType := c.setItem id { c.itemPool id with tick := tick }

/-- Behind a null check. -/
def setNextOf (item next : Option ℕ) : LeastRecentlyUsedCache ObjectType :=
  match item with
  | some id => c.setNext id next
  | none => c

def setPrevOf (item prev : Option ℕ) : LeastRecentlyUsedCache ObjectType :=
  match item with
  | some id => c.setPrev id prev
  | none => c

def build [Inhabited ObjectType] : LeastRecentlyUsedCache ObjectType × ℕ :=
  match c.freeItems with
  | [] => (({ c with poolSize := c.poolSize + 1 }.setItem c.poolSize { (default : LruItem ObjectType) with next := none, prev := none }),
      c.poolSize)
  | id :: rest => (({ c with freeItems := rest }.setNext id none).setPrev id none, id)

/-- An item becomes the first of an empty list. -/
def attachFirst (item : ℕ) : LeastRecentlyUsedCache ObjectType :=
  if c.firstItem = none then { c with firstItem := some item } else c

/-- An item is put behind the last. -/
def attachLast (item : ℕ) : LeastRecentlyUsedCache ObjectType :=
  match c.lastItem with
  | none => { c with lastItem := some item }
  | some last => { ((c.setPrev item (some last)).setNext last (some item)).setNext item none with lastItem := some item }

def attach (item : ℕ) : LeastRecentlyUsedCache ObjectType := (c.attachFirst item).attachLast item

/-- The cursor of a scan leaves the item. -/
def detachCursor (item : ℕ) : LeastRecentlyUsedCache ObjectType :=
  if c.scanCursor = some item then { c with scanCursor := (c.itemPool item).next } else c

/-- The neighbours of the item get linked to each other. -/
def detachLinks (item : ℕ) : LeastRecentlyUsedCache ObjectType :=
  let c := c.setNextOf (c.itemPool item).prev (c.itemPool item).next
  c.setPrevOf (c.itemPool item).next (c.itemPool item).prev

/-- The item is no longer the first. -/
def detachFirst (item : ℕ) : LeastRecentlyUsedCache ObjectType :=
  if c.firstItem = some item then { c with firstItem := (c.itemPool item).next }.setPrevOf (c.itemPool item).next none else c

/-- The item is no longer the last. -/
def detachLast (item : ℕ) : LeastRecentlyUsedCache ObjectType :=
  if c.lastItem = some item then { c with lastItem := (c.itemPool item).prev }.setNextOf (c.itemPool item).prev none else c

def detach (item : ℕ) : LeastRecentlyUsedCache ObjectType :=
  (((c.detachCursor item).detachLinks item).detachFirst item).detachLast item

def insert [Inhabited ObjectType] (obj : ObjectType) (tick : TickType) : LeastRecentlyUsedCache ObjectType × ℕ :=
  let (c, newId) := c.build
  ((c.setItem newId { c.itemPool newId with obj := obj, tick := tick }).attach newId, newId)

def touch (id : ℕ) (tick : TickType) : LeastRecentlyUsedCache ObjectType :=
  if tick ≤ (c.itemPool id).tick then c
  else
    let c := c.setTick id tick
    if c.lastItem = some id then c else (c.detach id).attach id

def free (id : ℕ) : LeastRecentlyUsedCache ObjectType :=
  let c := ((c.detach id).setPrev id none).setNext id none
  { c with freeItems := c.freeItems ++ [id] }

/-! ### Bounded scans -/

/-- The tick of a scan is below the one of the item. -/
def tooNew (tick : TickType) (id : ℕ) : Prop := tick.s64 - (c.itemPool id).tick.s64 < 0

instance (tick : TickType) (id : ℕ) : Decidable (c.tooNew tick id) := inferInstanceAs (Decidable (_ < _))

/-- A scan begins where the last one stopped, or at the first item. -/
def startScan : LeastRecentlyUsedCache ObjectType :=
  if c.scanCursor = none then { c with scanCursor := c.firstItem } else c

/-- One turn of the loop, up to the callback, with the item it is called for. -/
def scanTurn (tick : TickType) (maxScans : ℕ) : LeastRecentlyUsedCache ObjectType × Option ℕ :=
  match c.scanCursor with
  | none => (c, none)
  | some item =>
    if maxScans = 0 then (c, none)
    else if c.tooNew tick item then ({ c with scanCursor := none }, none)
    else ({ c with scanCursor := (c.itemPool item).next }, some item)

end LeastRecentlyUsedCache

/-! ### Use -/

/-- What is under way: the scans that wait for their callbacks, with their ticks and the turns they have left, and what the
callers know, the ids they have and the last tick. -/
structure LruUse (ObjectType : Type) where
  cache : LeastRecentlyUsedCache ObjectType
  scans : List (TickType × ℕ)
  live : List ℕ
  lastTick : TickType

namespace LruUse

variable {ObjectType : Type}

inductive Event (ObjectType : Type)
  | insert (obj : ObjectType) (tick : TickType)
  | touch (id : ℕ) (tick : TickType)
  | free (id : ℕ)
  | scan (tick : TickType) (maxScans : ℕ)
  | callbackReturn (stop : Bool)

inductive Output (ObjectType : Type)
  | done
  | inserted (id : ℕ)
  | visits (id : ℕ) (obj : ObjectType)
  deriving DecidableEq

def initial [Inhabited ObjectType] (tick : TickType) : LruUse ObjectType := ⟨.empty, [], [], tick⟩

variable (s : LruUse ObjectType)

/-- A turn of a scan: its callback is called, or the scan ends. -/
def turn (scans : List (TickType × ℕ)) (tick : TickType) (maxScans : ℕ) : LruUse ObjectType × Output ObjectType :=
  match s.cache.scanTurn tick maxScans with
  | (cache, none) => ({ s with cache := cache, scans := scans }, .done)
  | (cache, some id) => ({ s with cache := cache, scans := (tick, maxScans - 1) :: scans }, .visits id (s.cache.itemPool id).obj)

/-- Only live ids are touched and freed; a callback returns to the scan that waits for it. -/
def step [Inhabited ObjectType] (s : LruUse ObjectType) : Event ObjectType → Option (LruUse ObjectType × Output ObjectType)
  | .insert obj tick =>
    let (cache, id) := s.cache.insert obj tick
    some ({ s with cache := cache, live := id :: s.live, lastTick := tick }, .inserted id)
  | .touch id tick => if id ∈ s.live then some ({ s with cache := s.cache.touch id tick, lastTick := tick }, .done) else none
  | .free id => if id ∈ s.live then some ({ s with cache := s.cache.free id, live := s.live.erase id }, .done) else none
  | .scan tick maxScans => some ({ s with cache := s.cache.startScan }.turn s.scans tick maxScans)
  | .callbackReturn stop =>
    match s.scans with
    | [] => none
    | (tick, maxScans) :: scans => some (if stop then ({ s with scans := scans }, .done) else s.turn scans tick maxScans)

/-- A tick is not after another, as `Touch` and as a scan compare them. -/
def NotAfter (a b : TickType) : Prop := a ≤ b ∧ a.s64 ≤ b.s64

/-- The ticks do not decrease. -/
def InOrder (s : LruUse ObjectType) : Event ObjectType → Prop
  | .insert _ tick => NotAfter s.lastTick tick
  | .touch _ tick => NotAfter s.lastTick tick
  | _ => True

end LruUse

/-! ## The list of the items

What the operations on the links do, one lemma for each field, and from that what they do to the list: an
item is detached from it, or attached at its end. The ticks and the slots stay as they are.
-/

namespace LeastRecentlyUsedCache

variable {ObjectType : Type} (c : LeastRecentlyUsedCache ObjectType) (id y : ℕ) (o v : Option ℕ)

/-! ### The fields -/

theorem setNext_next : ((c.setNext id v).itemPool y).next = if y = id then v else (c.itemPool y).next := by
  by_cases h : y = id <;> simp [setNext, setItem, h]

theorem setNext_prev : ((c.setNext id v).itemPool y).prev = (c.itemPool y).prev := by
  by_cases h : y = id <;> simp [setNext, setItem, h]

theorem setPrev_prev : ((c.setPrev id v).itemPool y).prev = if y = id then v else (c.itemPool y).prev := by
  by_cases h : y = id <;> simp [setPrev, setItem, h]

theorem setPrev_next : ((c.setPrev id v).itemPool y).next = (c.itemPool y).next := by
  by_cases h : y = id <;> simp [setPrev, setItem, h]

@[simp] theorem setNextOf_next : ((c.setNextOf o v).itemPool y).next = if o = some y then v else (c.itemPool y).next := by
  cases o with
  | none => rfl
  | some id => simp only [setNextOf, setNext_next, Option.some.injEq, eq_comm]

@[simp] theorem setNextOf_prev : ((c.setNextOf o v).itemPool y).prev = (c.itemPool y).prev := by
  cases o with
  | none => rfl
  | some id => exact c.setNext_prev id y v

@[simp] theorem setPrevOf_prev : ((c.setPrevOf o v).itemPool y).prev = if o = some y then v else (c.itemPool y).prev := by
  cases o with
  | none => rfl
  | some id => simp only [setPrevOf, setPrev_prev, Option.some.injEq, eq_comm]

@[simp] theorem setPrevOf_next : ((c.setPrevOf o v).itemPool y).next = (c.itemPool y).next := by
  cases o with
  | none => rfl
  | some id => exact c.setPrev_next id y v

@[simp] theorem setNextOf_firstItem : (c.setNextOf o v).firstItem = c.firstItem := by cases o <;> rfl

@[simp] theorem setNextOf_lastItem : (c.setNextOf o v).lastItem = c.lastItem := by cases o <;> rfl

@[simp] theorem setNextOf_scanCursor : (c.setNextOf o v).scanCursor = c.scanCursor := by cases o <;> rfl

@[simp] theorem setPrevOf_firstItem : (c.setPrevOf o v).firstItem = c.firstItem := by cases o <;> rfl

@[simp] theorem setPrevOf_lastItem : (c.setPrevOf o v).lastItem = c.lastItem := by cases o <;> rfl

@[simp] theorem setPrevOf_scanCursor : (c.setPrevOf o v).scanCursor = c.scanCursor := by cases o <;> rfl

theorem setTick_tick (tick : TickType) :
    ((c.setTick id tick).itemPool y).tick = if y = id then tick else (c.itemPool y).tick := by
  by_cases h : y = id <;> simp [setTick, setItem, h]

theorem setTick_links (tick : TickType) :
    ((c.setTick id tick).itemPool y).next = (c.itemPool y).next ∧ ((c.setTick id tick).itemPool y).prev = (c.itemPool y).prev := by
  by_cases h : y = id <;> simp [setTick, setItem, h]

/-! ### What stays -/

/-- The links, the ends and the cursor are all that changes. -/
structure SameOutside (c c' : LeastRecentlyUsedCache ObjectType) : Prop where
  tick : ∀ y, (c'.itemPool y).tick = (c.itemPool y).tick
  poolSize : c'.poolSize = c.poolSize
  freeItems : c'.freeItems = c.freeItems

variable {c} in
theorem SameOutside.refl : SameOutside c c := ⟨fun _ => rfl, rfl, rfl⟩

variable {c} in
theorem SameOutside.trans {c' c'' : LeastRecentlyUsedCache ObjectType} (h : SameOutside c c') (h' : SameOutside c' c'') :
    SameOutside c c'' :=
  ⟨fun y => (h'.tick y).trans (h.tick y), h'.poolSize.trans h.poolSize, h'.freeItems.trans h.freeItems⟩

theorem setNext_outside : SameOutside c (c.setNext id v) := by
  refine ⟨fun y => ?_, rfl, rfl⟩
  by_cases h : y = id <;> simp [setNext, setItem, h]

theorem setPrev_outside : SameOutside c (c.setPrev id v) := by
  refine ⟨fun y => ?_, rfl, rfl⟩
  by_cases h : y = id <;> simp [setPrev, setItem, h]

theorem setNextOf_outside : SameOutside c (c.setNextOf o v) := by
  cases o with
  | none => exact .refl
  | some id => exact c.setNext_outside id v

theorem setPrevOf_outside : SameOutside c (c.setPrevOf o v) := by
  cases o with
  | none => exact .refl
  | some id => exact c.setPrev_outside id v

/-! ### Detaching -/

theorem detachCursor_outside : SameOutside c (c.detachCursor id) := by
  unfold detachCursor
  split
  · exact ⟨fun _ => rfl, rfl, rfl⟩
  · exact .refl

theorem detachFirst_outside : SameOutside c (c.detachFirst id) := by
  unfold detachFirst
  split
  · apply SameOutside.trans _ (setPrevOf_outside _ _ _)
    exact ⟨fun _ => rfl, rfl, rfl⟩
  · exact .refl

theorem detachLast_outside : SameOutside c (c.detachLast id) := by
  unfold detachLast
  split
  · apply SameOutside.trans _ (setNextOf_outside _ _ _)
    exact ⟨fun _ => rfl, rfl, rfl⟩
  · exact .refl

theorem detachLinks_outside : SameOutside c (c.detachLinks id) := (setNextOf_outside _ _ _).trans (setPrevOf_outside _ _ _)

theorem detach_outside : SameOutside c (c.detach id) := by
  have hcursor := c.detachCursor_outside id
  have hlinks := (c.detachCursor id).detachLinks_outside id
  have hfirst := ((c.detachCursor id).detachLinks id).detachFirst_outside id
  exact ((hcursor.trans hlinks).trans hfirst).trans (detachLast_outside _ id)

section Detach

variable {c id}

/-- An item that is not its own neighbour. -/
structure Apart (c : LeastRecentlyUsedCache ObjectType) (id : ℕ) (p n : Option ℕ) : Prop where
  prev : (c.itemPool id).prev = p
  next : (c.itemPool id).next = n
  prev_ne : p ≠ some id
  next_ne : n ≠ some id

variable {p n : Option ℕ} (h : Apart c id p n)
include h

theorem Apart.detachCursor : Apart (c.detachCursor id) id p n := by
  unfold LeastRecentlyUsedCache.detachCursor
  split <;> exact ⟨h.prev, h.next, h.prev_ne, h.next_ne⟩

theorem Apart.detachLinks_eq : c.detachLinks id = (c.setNextOf p n).setPrevOf n p := by
  have hnext : ((c.setNextOf p n).itemPool id).next = n := by rw [setNextOf_next, if_neg h.prev_ne, h.next]
  have hprev : ((c.setNextOf p n).itemPool id).prev = p := by rw [setNextOf_prev, h.prev]
  unfold detachLinks
  dsimp only
  rw [h.prev, h.next, hnext, hprev]

theorem Apart.detachLinks : Apart (c.detachLinks id) id p n := by
  rw [h.detachLinks_eq]
  refine ⟨?_, ?_, h.prev_ne, h.next_ne⟩
  · rw [setPrevOf_prev, if_neg h.next_ne, setNextOf_prev, h.prev]
  · rw [setPrevOf_next, setNextOf_next, if_neg h.prev_ne, h.next]

theorem Apart.detachFirst : Apart (c.detachFirst id) id p n := by
  unfold LeastRecentlyUsedCache.detachFirst
  split
  · refine ⟨?_, ?_, h.prev_ne, h.next_ne⟩
    · rw [h.next, setPrevOf_prev, if_neg h.next_ne]
      exact h.prev
    · rw [h.next, setPrevOf_next]
      exact h.next
  · exact h

/-- The items around have been linked to each other before. -/
theorem Apart.detachFirst_prev (hfirst : c.firstItem = some id → p = none) (hdone : n = some y → (c.itemPool y).prev = p) :
    ((c.detachFirst id).itemPool y).prev = (c.itemPool y).prev := by
  unfold LeastRecentlyUsedCache.detachFirst
  split
  · rename_i hid
    rw [h.next, setPrevOf_prev]
    split
    · rename_i hy
      rw [hdone hy, hfirst hid]
    · rfl
  · rfl

theorem Apart.detachLast_next (hlast : c.lastItem = some id → n = none) (hdone : p = some y → (c.itemPool y).next = n) :
    ((c.detachLast id).itemPool y).next = (c.itemPool y).next := by
  unfold LeastRecentlyUsedCache.detachLast
  split
  · rename_i hid
    rw [h.prev, setNextOf_next]
    split
    · rename_i hy
      rw [hdone hy, hlast hid]
    · rfl
  · rfl

omit h in
theorem detachFirst_next : ((c.detachFirst id).itemPool y).next = (c.itemPool y).next := by
  unfold LeastRecentlyUsedCache.detachFirst
  split
  · exact setPrevOf_next _ _ _ _
  · rfl

omit h in
theorem detachLast_prev : ((c.detachLast id).itemPool y).prev = (c.itemPool y).prev := by
  unfold LeastRecentlyUsedCache.detachLast
  split
  · exact setNextOf_prev _ _ _ _
  · rfl

omit h in
theorem detachCursor_itemPool : (c.detachCursor id).itemPool = c.itemPool := by
  unfold LeastRecentlyUsedCache.detachCursor
  split <;> rfl

omit h in
theorem detachCursor_detachLinks_ends : ((c.detachCursor id).detachLinks id).firstItem = c.firstItem ∧
    ((c.detachCursor id).detachLinks id).lastItem = c.lastItem := by
  unfold LeastRecentlyUsedCache.detachLinks LeastRecentlyUsedCache.detachCursor
  constructor <;> split <;> simp

omit h in
theorem detachFirst_lastItem : (c.detachFirst id).lastItem = c.lastItem := by
  unfold LeastRecentlyUsedCache.detachFirst
  split <;> simp

theorem Apart.detach_firstItem : (c.detach id).firstItem = if c.firstItem = some id then n else c.firstItem := by
  have hlinks := h.detachCursor.detachLinks
  have hlast (c : LeastRecentlyUsedCache ObjectType) : (c.detachLast id).firstItem = c.firstItem := by
    unfold LeastRecentlyUsedCache.detachLast
    split <;> simp
  have hsame : ((c.detachCursor id).detachLinks id).firstItem = c.firstItem := detachCursor_detachLinks_ends.1
  rw [detach, hlast, LeastRecentlyUsedCache.detachFirst, hsame]
  split
  · rw [hlinks.next, setPrevOf_firstItem]
  · exact hsame

theorem Apart.detach_lastItem : (c.detach id).lastItem = if c.lastItem = some id then p else c.lastItem := by
  have hlinks := h.detachCursor.detachLinks.detachFirst
  have hsame : (((c.detachCursor id).detachLinks id).detachFirst id).lastItem = c.lastItem :=
    detachFirst_lastItem.trans detachCursor_detachLinks_ends.2
  rw [detach, LeastRecentlyUsedCache.detachLast, hsame]
  split
  · rw [hlinks.prev, setNextOf_lastItem]
  · exact hsame

theorem Apart.detach_scanCursor : (c.detach id).scanCursor = if c.scanCursor = some id then n else c.scanCursor := by
  have hlast (c : LeastRecentlyUsedCache ObjectType) : (c.detachLast id).scanCursor = c.scanCursor := by
    unfold LeastRecentlyUsedCache.detachLast
    split <;> simp
  have hfirst (c : LeastRecentlyUsedCache ObjectType) : (c.detachFirst id).scanCursor = c.scanCursor := by
    unfold LeastRecentlyUsedCache.detachFirst
    split <;> simp
  have hlinks (c : LeastRecentlyUsedCache ObjectType) : (c.detachLinks id).scanCursor = c.scanCursor := by
    unfold LeastRecentlyUsedCache.detachLinks
    simp
  rw [detach, hlast, hfirst, hlinks, LeastRecentlyUsedCache.detachCursor, ← h.next]
  split <;> rfl

theorem Apart.detachLinks_next : ((c.detachLinks id).itemPool y).next = if p = some y then n else (c.itemPool y).next := by
  rw [h.detachLinks_eq, setPrevOf_next, setNextOf_next]

theorem Apart.detachLinks_prev : ((c.detachLinks id).itemPool y).prev = if n = some y then p else (c.itemPool y).prev := by
  rw [h.detachLinks_eq, setPrevOf_prev, setNextOf_prev]

theorem Apart.detach_next (hlast : c.lastItem = some id → n = none) :
    ((c.detach id).itemPool y).next = if p = some y then n else (c.itemPool y).next := by
  have hcursor := h.detachCursor
  have hlinks := hcursor.detachLinks_next y
  rw [detachCursor_itemPool] at hlinks
  rw [LeastRecentlyUsedCache.detach, hcursor.detachLinks.detachFirst.detachLast_next, detachFirst_next, hlinks]
  · rw [detachFirst_lastItem, detachCursor_detachLinks_ends.2]
    exact hlast
  · intro hy
    rw [detachFirst_next, hlinks, if_pos hy]

theorem Apart.detach_prev (hfirst : c.firstItem = some id → p = none) :
    ((c.detach id).itemPool y).prev = if n = some y then p else (c.itemPool y).prev := by
  have hcursor := h.detachCursor
  have hlinks := hcursor.detachLinks_prev y
  rw [detachCursor_itemPool] at hlinks
  rw [LeastRecentlyUsedCache.detach, detachLast_prev, hcursor.detachLinks.detachFirst_prev, hlinks]
  · rw [detachCursor_detachLinks_ends.1]
    exact hfirst
  · intro hy
    rw [hlinks, if_pos hy]

end Detach

/-! ### The list -/

/-- The items of a list are linked in its order. -/
structure ItemList (c : LeastRecentlyUsedCache ObjectType) (items : List ℕ) : Prop where
  first : c.firstItem = items.head?
  last : c.lastItem = items.getLast?
  linked : Lib.DoublyLinked (fun y => (c.itemPool y).next) (fun y => (c.itemPool y).prev) none items none
  distinct : items.Nodup

variable {c : LeastRecentlyUsedCache ObjectType} {id : ℕ} {xs ys items : List ℕ}

section

variable (h : ItemList c (xs ++ id :: ys))
include h

theorem ItemList.apart : Apart c id xs.getLast? ys.head? := by
  obtain ⟨hprev, hnext⟩ := h.linked.links
  obtain ⟨-, hy, hdisjoint⟩ := nodup_append.1 h.distinct
  refine ⟨hprev, hnext, ?_, ?_⟩
  · intro hlast
    exact hdisjoint id (mem_of_getLast? hlast) id mem_cons_self rfl
  · intro hhead
    exact (nodup_cons.1 hy).1 (mem_of_head? hhead)

theorem ItemList.first_iff : c.firstItem = some id ↔ xs = [] := by
  rw [h.first]
  cases xs with
  | nil => simp
  | cons x xs =>
    have hne : x ≠ id := by
      rintro rfl
      exact (nodup_cons.1 h.distinct).1 (mem_append_right xs mem_cons_self)
    simpa using hne

theorem ItemList.last_iff : c.lastItem = some id ↔ ys = [] := by
  rw [h.last, getLast?_append]
  cases ys with
  | nil => simp
  | cons y ys =>
    have hy := (nodup_cons.1 (nodup_append.1 h.distinct).2.1).1
    rw [getLast?_cons_cons, getLast?_eq_some_getLast (cons_ne_nil y ys), Option.some_or, Option.some.injEq]
    constructor
    · intro heq
      exact absurd (heq ▸ getLast_mem (cons_ne_nil y ys)) hy
    · intro hnil
      cases hnil

theorem ItemList.detach : ItemList (c.detach id) (xs ++ ys) where
  first := by
    rw [h.apart.detach_firstItem]
    by_cases hxs : xs = []
    · rw [if_pos (h.first_iff.2 hxs), hxs, nil_append]
    · rw [if_neg (mt h.first_iff.1 hxs), h.first, head?_append_of_ne_nil xs hxs, head?_append_of_ne_nil xs hxs]
  last := by
    rw [h.apart.detach_lastItem]
    by_cases hys : ys = []
    · rw [if_pos (h.last_iff.2 hys), hys, append_nil]
    · rw [if_neg (mt h.last_iff.1 hys), h.last, getLast?_append_of_ne_nil _ hys,
        getLast?_append_of_ne_nil _ (cons_ne_nil id ys), getLast?_cons_of_ne_nil hys]
  distinct := (nodup_cons.1 (nodup_middle.1 h.distinct)).2
  linked := by
    apply h.linked.remove h.distinct
    · intro y hy
      apply h.apart.detach_next
      intro hlast
      rw [h.last_iff.1 hlast]
      rfl
    · intro y hy
      apply h.apart.detach_prev
      intro hfirst
      rw [h.first_iff.1 hfirst]
      rfl

end

/-! ### Attaching -/

theorem attachFirst_outside : SameOutside c (c.attachFirst id) := by
  unfold attachFirst
  split
  · exact ⟨fun _ => rfl, rfl, rfl⟩
  · exact .refl

theorem attachLast_outside : SameOutside c (c.attachLast id) := by
  unfold attachLast
  split
  · exact ⟨fun _ => rfl, rfl, rfl⟩
  · rename_i last _
    have hprev := c.setPrev_outside id (some last)
    have hnext := (c.setPrev id (some last)).setNext_outside last (some id)
    have hend := ((c.setPrev id (some last)).setNext last (some id)).setNext_outside id none
    exact ((hprev.trans hnext).trans hend).trans ⟨fun _ => rfl, rfl, rfl⟩

theorem attach_outside : SameOutside c (c.attach id) := attachFirst_outside.trans attachLast_outside

theorem attach_scanCursor : (c.attach id).scanCursor = c.scanCursor := by
  unfold LeastRecentlyUsedCache.attach attachLast attachFirst
  split <;> split <;> rfl

theorem ItemList.attach (h : ItemList c items) (hnew : id ∉ items)
    (hfresh : items = [] → (c.itemPool id).next = none ∧ (c.itemPool id).prev = none) :
    ItemList (c.attach id) (items ++ [id]) := by
  have hdistinct : (items ++ [id]).Nodup := nodup_append.2 ⟨h.distinct, nodup_singleton id, by
    intro y hy z hz
    rw [mem_singleton.1 hz]
    exact ne_of_mem_of_not_mem hy hnew⟩
  cases hlast : items.getLast? with
  | none =>
    have hnil := getLast?_eq_none_iff.1 hlast
    obtain ⟨hnext, hprev⟩ := hfresh hnil
    have hc : c.attach id = { c with firstItem := some id, lastItem := some id } := by
      simp [LeastRecentlyUsedCache.attach, attachFirst, attachLast, h.first, h.last, hnil]
    rw [hc, hnil]
    exact ⟨rfl, rfl, ⟨hprev, hnext, trivial⟩, nodup_singleton id⟩
  | some last =>
    have hne : items ≠ [] := by
      rintro rfl
      cases hlast
    have hfirst : c.firstItem ≠ none := by
      rw [h.first]
      exact mt head?_eq_none_iff.1 hne
    have hc : c.attach id = { ((c.setPrev id (some last)).setNext last (some id)).setNext id none with lastItem := some id } := by
      rw [LeastRecentlyUsedCache.attach, attachFirst, if_neg hfirst, attachLast, h.last, hlast]
    rw [hc]
    refine ⟨?_, ?_, ?_, hdistinct⟩
    · rw [head?_append_of_ne_nil _ hne]
      exact h.first
    · rw [getLast?_concat]
    · apply h.linked.concat h.distinct
      · intro y hy
        have hy' : y ≠ id := ne_of_mem_of_not_mem hy hnew
        rw [setNext_next, if_neg hy', setNext_next, setPrev_next, hlast]
        simp only [Option.some.injEq, eq_comm]
      · intro y hy
        rw [setNext_prev, setNext_prev, setPrev_prev, if_neg (ne_of_mem_of_not_mem hy hnew)]
      · rw [setNext_prev, setNext_prev, setPrev_prev, if_pos rfl, hlast]
      · rw [setNext_next, if_pos rfl]

/-! ### The items in the list -/

theorem ItemList.congr {c' : LeastRecentlyUsedCache ObjectType} (h : ItemList c items) (hfirst : c'.firstItem = c.firstItem)
    (hlast : c'.lastItem = c.lastItem)
    (hlinks : ∀ y ∈ items, (c'.itemPool y).next = (c.itemPool y).next ∧ (c'.itemPool y).prev = (c.itemPool y).prev) :
    ItemList c' items :=
  ⟨hfirst.trans h.first, hlast.trans h.last, h.linked.congr (fun y hy => (hlinks y hy).1) fun y hy => (hlinks y hy).2, h.distinct⟩

theorem ItemList.setTick (h : ItemList c items) (id : ℕ) (tick : TickType) : ItemList (c.setTick id tick) items := by
  have hfirst : (c.setTick id tick).firstItem = c.firstItem := rfl
  exact h.congr hfirst rfl fun y _ => c.setTick_links id y tick

theorem ItemList.erase (h : ItemList c items) (hid : id ∈ items) : ItemList (c.detach id) (items.erase id) := by
  obtain ⟨xs, ys, rfl⟩ := append_of_mem hid
  have hxs : id ∉ xs := fun hmem => (nodup_cons.1 (nodup_middle.1 h.distinct)).1 (mem_append_left ys hmem)
  rw [erase_append_right _ hxs, erase_cons_head]
  exact h.detach

/-- The cursor goes on to the next item when its own is detached. -/
theorem ItemList.detach_scanCursor (h : ItemList c items) (hid : id ∈ items) :
    (c.detach id).scanCursor = if c.scanCursor = some id then (c.itemPool id).next else c.scanCursor := by
  obtain ⟨xs, ys, rfl⟩ := append_of_mem hid
  rw [h.apart.detach_scanCursor, h.apart.next]

/-- What is linked behind an item is another item of the list. -/
theorem ItemList.next_mem (h : ItemList c items) (hid : id ∈ items) {y : ℕ} (hy : (c.itemPool id).next = some y) :
    y ∈ items.erase id := by
  obtain ⟨xs, ys, rfl⟩ := append_of_mem hid
  have hxs : id ∉ xs := fun hmem => (nodup_cons.1 (nodup_middle.1 h.distinct)).1 (mem_append_left ys hmem)
  rw [h.apart.next] at hy
  rw [erase_append_right _ hxs, erase_cons_head]
  exact mem_append_right xs (mem_of_head? hy)

end LeastRecentlyUsedCache
end Common
end Citron
