/-
# The cache in use

Whatever is inserted, touched and freed, inside of the callbacks of a scan or outside, the items that are
live are in one list, in the order of their ticks, and the cursor of the scans is at one of them.
-/
import Citron.Common.LruCache

namespace Citron
namespace Common
namespace LruUse

open LeastRecentlyUsedCache List

variable {ObjectType : Type}

theorem NotAfter.trans {a b c : TickType} (h : NotAfter a b) (h' : NotAfter b c) : NotAfter a c :=
  ⟨UInt64.le_trans h.1 h'.1, Int.le_trans h.2 h'.2⟩

/-- The items are in a list, the live ones and no other, sorted by their ticks; a slot is in it or free. -/
structure Kept (s : LruUse ObjectType) (items : List ℕ) : Prop where
  list : ItemList s.cache items
  cursor : ∀ id, s.cache.scanCursor = some id → id ∈ items
  live : ∀ id, id ∈ items ↔ id ∈ s.live
  live_distinct : s.live.Nodup
  used : ∀ id ∈ items, id < s.cache.poolSize ∧ id ∉ s.cache.freeItems
  free : ∀ id ∈ s.cache.freeItems, id < s.cache.poolSize
  free_distinct : s.cache.freeItems.Nodup
  sorted : items.Pairwise fun a b => NotAfter (s.cache.itemPool a).tick (s.cache.itemPool b).tick
  last : ∀ id ∈ items, NotAfter (s.cache.itemPool id).tick s.lastTick

variable {s : LruUse ObjectType} {items : List ℕ} {c : LeastRecentlyUsedCache ObjectType}

theorem kept_initial [Inhabited ObjectType] (tick : TickType) : Kept (initial tick : LruUse ObjectType) [] where
  list := ⟨rfl, rfl, trivial, nodup_nil⟩
  cursor := by
    intro id h
    cases h
  live _ := Iff.rfl
  live_distinct := nodup_nil
  used := by simp
  free := by
    intro id h
    cases h
  free_distinct := nodup_nil
  sorted := List.Pairwise.nil
  last := by simp

/-! ### A new item -/

/-- A slot that was free, or is new, with nothing linked to it. -/
structure Built (c c' : LeastRecentlyUsedCache ObjectType) (id : ℕ) : Prop where
  pool : ∀ y, y ≠ id → c'.itemPool y = c.itemPool y
  next : (c'.itemPool id).next = none
  prev : (c'.itemPool id).prev = none
  ends : c'.firstItem = c.firstItem ∧ c'.lastItem = c.lastItem ∧ c'.scanCursor = c.scanCursor
  fresh : c.poolSize ≤ id ∨ id ∈ c.freeItems
  lt : id < c'.poolSize
  mono : c.poolSize ≤ c'.poolSize
  free : ∀ y ∈ c'.freeItems, y ∈ c.freeItems ∧ y ≠ id
  free_distinct : c'.freeItems.Nodup

theorem build_built [Inhabited ObjectType] (hfree : ∀ id ∈ c.freeItems, id < c.poolSize) (hdistinct : c.freeItems.Nodup) :
    Built c c.build.1 c.build.2 := by
  unfold build
  split
  · rename_i hnil
    refine ⟨?_, ?_, ?_, ⟨rfl, rfl, rfl⟩, Or.inl le_rfl, Nat.lt_succ_self _, Nat.le_succ _, ?_, ?_⟩
    · intro y hy
      exact Function.update_of_ne hy _ _
    · simp [setItem]
    · simp [setItem]
    · intro y hy
      change y ∈ c.freeItems at hy
      rw [hnil] at hy
      cases hy
    · exact hdistinct
  · rename_i id rest hcons
    rw [hcons] at hdistinct
    obtain ⟨hid, hrest⟩ := nodup_cons.1 hdistinct
    have hmem : id ∈ c.freeItems := by rw [hcons]; exact mem_cons_self
    refine ⟨?_, ?_, ?_, ⟨rfl, rfl, rfl⟩, Or.inr hmem, hfree id hmem, le_rfl, ?_, hrest⟩
    · intro y hy
      simp [setPrev, setNext, setItem, hy]
    · rw [setPrev_next, setNext_next, if_pos rfl]
    · rw [setPrev_prev, if_pos rfl]
    · intro y hy
      rw [hcons]
      exact ⟨mem_cons_of_mem id hy, ne_of_mem_of_not_mem hy hid⟩

theorem Kept.build_notMem [Inhabited ObjectType] (h : Kept s items) : s.cache.build.2 ∉ items := by
  intro hmem
  obtain ⟨hlt, hnot⟩ := h.used _ hmem
  cases (build_built h.free h.free_distinct).fresh with
  | inl hle => exact absurd hlt (Nat.not_lt.2 hle)
  | inr hfree => exact hnot hfree

variable {id : ℕ}

/-- Behind the others comes an item that is not before any of them. -/
theorem sorted_concat (tickOf : ℕ → TickType) (hsorted : items.Pairwise fun a b => NotAfter (tickOf a) (tickOf b))
    (hlast : ∀ y ∈ items, NotAfter (tickOf y) (tickOf id)) :
    (items ++ [id]).Pairwise fun a b => NotAfter (tickOf a) (tickOf b) := by
  rw [pairwise_append]
  refine ⟨hsorted, pairwise_singleton _ _, ?_⟩
  intro y hy z hz
  rw [mem_singleton.1 hz]
  exact hlast y hy

/-- What an insertion does to the cache: a new item is put behind the others. -/
structure Inserted (c c' : LeastRecentlyUsedCache ObjectType) (id : ℕ) (tick : TickType) (items : List ℕ) : Prop where
  list : ItemList c' (items ++ [id])
  tick : (c'.itemPool id).tick = tick
  tick_other : ∀ y ∈ items, (c'.itemPool y).tick = (c.itemPool y).tick
  scanCursor : c'.scanCursor = c.scanCursor

section Insert

variable [Inhabited ObjectType]

theorem insert_outside (obj : ObjectType) (tick : TickType) :
    (c.insert obj tick).1.poolSize = c.build.1.poolSize ∧ (c.insert obj tick).1.freeItems = c.build.1.freeItems :=
  ⟨attach_outside.poolSize, attach_outside.freeItems⟩

theorem Kept.insert_inserted (h : Kept s items) (obj : ObjectType) (tick : TickType) :
    Inserted s.cache (s.cache.insert obj tick).1 s.cache.build.2 tick items := by
  have hbuilt := build_built h.free h.free_distinct
  have hnew := h.build_notMem
  have hne {y : ℕ} (hy : y ∈ items) : y ≠ s.cache.build.2 := ne_of_mem_of_not_mem hy hnew
  let item : LruItem ObjectType := { s.cache.build.1.itemPool s.cache.build.2 with obj := obj, tick := tick }
  have hpool {y : ℕ} (hy : y ∈ items) : (s.cache.build.1.setItem s.cache.build.2 item).itemPool y = s.cache.itemPool y :=
    (Function.update_of_ne (hne hy) _ _).trans (hbuilt.pool y (hne hy))
  have hself : (s.cache.build.1.setItem s.cache.build.2 item).itemPool s.cache.build.2 = item := Function.update_self _ _ _
  have hlist : ItemList (s.cache.build.1.setItem s.cache.build.2 item) items := by
    have hfirst : (s.cache.build.1.setItem s.cache.build.2 item).firstItem = s.cache.firstItem := hbuilt.ends.1
    apply h.list.congr hfirst hbuilt.ends.2.1
    intro y hy
    rw [hpool hy]
    exact ⟨rfl, rfl⟩
  constructor
  · apply hlist.attach hnew
    intro _
    rw [hself]
    exact ⟨hbuilt.next, hbuilt.prev⟩
  · exact (attach_outside.tick _).trans (congrArg LruItem.tick hself)
  · intro y hy
    exact (attach_outside.tick y).trans (congrArg LruItem.tick (hpool hy))
  · exact attach_scanCursor.trans hbuilt.ends.2.2

theorem Kept.insert (h : Kept s items) {obj : ObjectType} {tick : TickType} (htick : NotAfter s.lastTick tick) :
    Kept { s with cache := (s.cache.insert obj tick).1, live := s.cache.build.2 :: s.live, lastTick := tick }
      (items ++ [s.cache.build.2]) := by
  have hbuilt := build_built h.free h.free_distinct
  have hinserted := h.insert_inserted obj tick
  obtain ⟨hsize, hfree⟩ := insert_outside (c := s.cache) obj tick
  have hlast : ∀ y ∈ items, NotAfter ((s.cache.insert obj tick).1.itemPool y).tick tick := by
    intro y hy
    rw [hinserted.tick_other y hy]
    exact (h.last y hy).trans htick
  have hself : NotAfter ((s.cache.insert obj tick).1.itemPool s.cache.build.2).tick tick := by
    rw [hinserted.tick]
    exact ⟨UInt64.le_refl _, Int.le_refl _⟩
  refine ⟨hinserted.list, ?_, ?_, ?_, ?_, ?_, ?_, ?_, ?_⟩
  · intro id hid
    change (s.cache.insert obj tick).1.scanCursor = some id at hid
    rw [hinserted.scanCursor] at hid
    exact mem_append_left _ (h.cursor id hid)
  · intro id
    rw [mem_append, mem_singleton, mem_cons, h.live, or_comm]
  · exact nodup_cons.2 ⟨mt (h.live _).2 h.build_notMem, h.live_distinct⟩
  · intro id hid
    change id < (s.cache.insert obj tick).1.poolSize ∧ id ∉ (s.cache.insert obj tick).1.freeItems
    rw [hsize, hfree]
    rcases mem_append.1 hid with hold | hnew
    · obtain ⟨hlt, hnot⟩ := h.used id hold
      exact ⟨lt_of_lt_of_le hlt hbuilt.mono, fun hmem => hnot (hbuilt.free id hmem).1⟩
    · rw [mem_singleton.1 hnew]
      exact ⟨hbuilt.lt, fun hmem => (hbuilt.free _ hmem).2 rfl⟩
  · intro id hid
    change id ∈ (s.cache.insert obj tick).1.freeItems at hid
    change id < (s.cache.insert obj tick).1.poolSize
    rw [hfree] at hid
    rw [hsize]
    exact lt_of_lt_of_le (h.free id (hbuilt.free id hid).1) hbuilt.mono
  · change (s.cache.insert obj tick).1.freeItems.Nodup
    rw [hfree]
    exact hbuilt.free_distinct
  · apply sorted_concat fun y => ((s.cache.insert obj tick).1.itemPool y).tick
    · apply h.sorted.imp_of_mem
      intro a b ha hb hab
      rw [hinserted.tick_other a ha, hinserted.tick_other b hb]
      exact hab
    · intro y hy
      rw [hinserted.tick]
      exact hlast y hy
  · intro id hid
    rcases mem_append.1 hid with hold | hnew
    · exact hlast id hold
    · rw [mem_singleton.1 hnew]
      exact hself

end Insert

/-! ### An item that is used -/

theorem touch_cases (c : LeastRecentlyUsedCache ObjectType) (id : ℕ) (tick : TickType) :
    c.touch id tick = c ∨ (c.lastItem = some id ∧ c.touch id tick = c.setTick id tick) ∨
      (c.lastItem ≠ some id ∧ c.touch id tick = ((c.setTick id tick).detach id).attach id) := by
  unfold touch
  split
  · exact Or.inl rfl
  · right
    by_cases hlast : c.lastItem = some id
    · exact Or.inl ⟨hlast, if_pos hlast⟩
    · exact Or.inr ⟨hlast, if_neg hlast⟩

/-- The last item of the list is where a used item goes. -/
theorem erase_concat_of_last (hdistinct : items.Nodup) (hlast : items.getLast? = some id) :
    items.erase id ++ [id] = items := by
  obtain ⟨xs, rfl⟩ := getLast?_eq_some_iff.1 hlast
  have hxs : id ∉ xs := by
    intro hid
    exact (nodup_append.1 hdistinct).2.2 id hid id mem_cons_self rfl
  rw [erase_append_right _ hxs, erase_cons_head, append_nil]

/-- An item is put behind the others, with a tick that is not before theirs. -/
structure Placed (c c' : LeastRecentlyUsedCache ObjectType) (id : ℕ) (tick : TickType) (items : List ℕ) : Prop where
  list : ItemList c' (items.erase id ++ [id])
  tick : (c'.itemPool id).tick = tick
  tick_other : ∀ y, y ≠ id → (c'.itemPool y).tick = (c.itemPool y).tick
  slots : c'.poolSize = c.poolSize ∧ c'.freeItems = c.freeItems
  cursor : items.erase id ++ [id] = items ∧ c'.scanCursor = c.scanCursor ∨
    c'.scanCursor = if c.scanCursor = some id then (c.itemPool id).next else c.scanCursor

variable {tick : TickType}

theorem Kept.placed (h : Kept s items) (hid : id ∈ items) (htick : NotAfter s.lastTick tick)
    (hplaced : Placed s.cache c id tick items) :
    Kept { s with cache := c, lastTick := tick } (items.erase id ++ [id]) := by
  have hmem (y : ℕ) : y ∈ items.erase id ++ [id] ↔ y ∈ items := by
    rw [mem_append, mem_singleton, h.list.distinct.mem_erase_iff]
    constructor
    · rintro (⟨-, hy⟩ | rfl)
      · exact hy
      · exact hid
    · intro hy
      by_cases hyid : y = id
      · exact Or.inr hyid
      · exact Or.inl ⟨hyid, hy⟩
  have hother {y : ℕ} (hy : y ∈ items.erase id) : (c.itemPool y).tick = (s.cache.itemPool y).tick :=
    hplaced.tick_other y (h.list.distinct.mem_erase_iff.1 hy).1
  have hlast : ∀ y ∈ items.erase id, NotAfter (c.itemPool y).tick tick := by
    intro y hy
    rw [hother hy]
    exact (h.last y (mem_of_mem_erase hy)).trans htick
  refine ⟨hplaced.list, ?_, ?_, h.live_distinct, ?_, ?_, ?_, ?_, ?_⟩
  · intro y hy
    change c.scanCursor = some y at hy
    rcases hplaced.cursor with ⟨-, hcursor⟩ | hcursor
    · rw [hcursor] at hy
      exact (hmem y).2 (h.cursor y hy)
    · rw [hcursor] at hy
      split at hy
      · exact (hmem y).2 (mem_of_mem_erase (h.list.next_mem hid hy))
      · exact (hmem y).2 (h.cursor y hy)
  · intro y
    exact (hmem y).trans (h.live y)
  · intro y hy
    change y < c.poolSize ∧ y ∉ c.freeItems
    rw [hplaced.slots.1, hplaced.slots.2]
    exact h.used y ((hmem y).1 hy)
  · intro y hy
    change y ∈ c.freeItems at hy
    change y < c.poolSize
    rw [hplaced.slots.2] at hy
    rw [hplaced.slots.1]
    exact h.free y hy
  · change c.freeItems.Nodup
    rw [hplaced.slots.2]
    exact h.free_distinct
  · apply sorted_concat fun y => (c.itemPool y).tick
    · apply (h.sorted.sublist erase_sublist).imp_of_mem
      intro a b ha hb hab
      rw [hother ha, hother hb]
      exact hab
    · intro y hy
      rw [hplaced.tick]
      exact hlast y hy
  · intro y hy
    rcases mem_append.1 hy with hold | hnew
    · exact hlast y hold
    · rw [mem_singleton.1 hnew, hplaced.tick]
      exact ⟨UInt64.le_refl _, Int.le_refl _⟩

/-- What `Touch` does, unless the tick is an old one. -/
theorem Kept.touch_placed (h : Kept s items) (hid : id ∈ items) (tick : TickType) :
    s.cache.touch id tick = s.cache ∨ Placed s.cache (s.cache.touch id tick) id tick items := by
  rcases touch_cases s.cache id tick with hsame | ⟨hlast, htouch⟩ | ⟨hlast, htouch⟩
  · exact Or.inl hsame
  · right
    rw [htouch]
    rw [h.list.last] at hlast
    have hsame := erase_concat_of_last h.list.distinct hlast
    refine ⟨?_, ?_, ?_, ⟨rfl, rfl⟩, Or.inl ⟨hsame, rfl⟩⟩
    · rw [hsame]
      exact h.list.setTick id tick
    · rw [setTick_tick, if_pos rfl]
    · intro y hy
      rw [setTick_tick, if_neg hy]
  · right
    have hset := h.list.setTick id tick
    have hcursor := hset.detach_scanCursor hid
    rw [htouch]
    refine ⟨?_, ?_, ?_, ?_, ?_⟩
    · apply (hset.erase hid).attach (h.list.distinct.not_mem_erase)
      -- the only item would be the last one
      intro hnil
      have hsingle : items = [id] := (erase_eq_nil_iff.1 hnil).resolve_left (ne_nil_of_mem hid)
      rw [h.list.last, hsingle] at hlast
      exact absurd rfl hlast
    · rw [attach_outside.tick, (detach_outside _ id).tick, setTick_tick, if_pos rfl]
    · intro y hy
      rw [attach_outside.tick, (detach_outside _ id).tick, setTick_tick, if_neg hy]
    · exact ⟨attach_outside.poolSize.trans (detach_outside _ id).poolSize,
        attach_outside.freeItems.trans (detach_outside _ id).freeItems⟩
    · right
      rw [attach_scanCursor, hcursor, (setTick_links _ id id tick).1]
      rfl

theorem Kept.touch (h : Kept s items) (hid : id ∈ items) (htick : NotAfter s.lastTick tick) :
    ∃ items', Kept { s with cache := s.cache.touch id tick, lastTick := tick } items' := by
  rcases h.touch_placed hid tick with hsame | hplaced
  · rw [hsame]
    exact ⟨items, { h with last := fun y hy => (h.last y hy).trans htick }⟩
  · exact ⟨_, h.placed hid htick hplaced⟩

/-! ### An item that is freed -/

theorem free_eq (c : LeastRecentlyUsedCache ObjectType) (id : ℕ) :
    (c.free id).firstItem = (c.detach id).firstItem ∧ (c.free id).lastItem = (c.detach id).lastItem ∧
      (c.free id).scanCursor = (c.detach id).scanCursor ∧ (c.free id).poolSize = c.poolSize ∧
      (c.free id).freeItems = c.freeItems ++ [id] :=
  ⟨rfl, rfl, rfl, (detach_outside c id).poolSize, congrArg (· ++ [id]) (detach_outside c id).freeItems⟩

theorem free_tick (c : LeastRecentlyUsedCache ObjectType) (id y : ℕ) : ((c.free id).itemPool y).tick = (c.itemPool y).tick :=
  calc ((c.free id).itemPool y).tick = (((c.detach id).setPrev id none).itemPool y).tick := (setNext_outside _ id none).tick y
    _ = ((c.detach id).itemPool y).tick := (setPrev_outside _ id none).tick y
    _ = (c.itemPool y).tick := (detach_outside c id).tick y

theorem Kept.free_list (h : Kept s items) (hid : id ∈ items) : ItemList (s.cache.free id) (items.erase id) := by
  have hfirst : (s.cache.free id).firstItem = (s.cache.detach id).firstItem := rfl
  apply (h.list.erase hid).congr hfirst rfl
  intro y hy
  have hne : y ≠ id := (h.list.distinct.mem_erase_iff.1 hy).1
  constructor
  · exact (setNext_next _ id y none).trans ((if_neg hne).trans (setPrev_next _ id y none))
  · exact (setNext_prev _ id y none).trans ((setPrev_prev _ id y none).trans (if_neg hne))

theorem Kept.free_kept (h : Kept s items) (hid : id ∈ items) :
    Kept { s with cache := s.cache.free id, live := s.live.erase id } (items.erase id) := by
  obtain ⟨-, -, hcursor, hsize, hfree⟩ := free_eq s.cache id
  obtain ⟨hlt, hnot⟩ := h.used id hid
  refine ⟨h.free_list hid, ?_, ?_, h.live_distinct.erase id, ?_, ?_, ?_, ?_, ?_⟩
  · intro y hy
    change (s.cache.free id).scanCursor = some y at hy
    rw [hcursor, h.list.detach_scanCursor hid] at hy
    split at hy
    · exact h.list.next_mem hid hy
    · rename_i hne
      refine h.list.distinct.mem_erase_iff.2 ⟨?_, h.cursor y hy⟩
      rintro rfl
      exact hne hy
  · intro y
    rw [h.list.distinct.mem_erase_iff, h.live_distinct.mem_erase_iff, h.live]
  · intro y hy
    obtain ⟨hne, hy⟩ := h.list.distinct.mem_erase_iff.1 hy
    change y < (s.cache.free id).poolSize ∧ y ∉ (s.cache.free id).freeItems
    rw [hsize, hfree, mem_append, mem_singleton]
    exact ⟨(h.used y hy).1, not_or.2 ⟨(h.used y hy).2, hne⟩⟩
  · intro y hy
    change y ∈ (s.cache.free id).freeItems at hy
    change y < (s.cache.free id).poolSize
    rw [hfree, mem_append, mem_singleton] at hy
    rw [hsize]
    rcases hy with hy | rfl
    · exact h.free y hy
    · exact hlt
  · change (s.cache.free id).freeItems.Nodup
    rw [hfree]
    refine nodup_append.2 ⟨h.free_distinct, nodup_singleton id, ?_⟩
    intro y hy z hz
    rw [mem_singleton.1 hz]
    exact ne_of_mem_of_not_mem hy hnot
  · apply (h.sorted.sublist erase_sublist).imp
    intro a b hab
    change NotAfter ((s.cache.free id).itemPool a).tick ((s.cache.free id).itemPool b).tick
    rw [free_tick, free_tick]
    exact hab
  · intro y hy
    change NotAfter ((s.cache.free id).itemPool y).tick s.lastTick
    rw [free_tick]
    exact h.last y (mem_of_mem_erase hy)

/-! ### Scans -/

/-- Only the cursor is moved. -/
theorem Kept.moveCursor (h : Kept s items) {cursor : Option ℕ} (hcursor : ∀ id, cursor = some id → id ∈ items)
    (scans : List (TickType × ℕ)) : Kept { s with cache := { s.cache with scanCursor := cursor }, scans := scans } items :=
  { h with list := ⟨h.list.first, h.list.last, h.list.linked, h.list.distinct⟩, cursor := hcursor }

theorem Kept.startScan (h : Kept s items) : Kept { s with cache := s.cache.startScan } items := by
  unfold LeastRecentlyUsedCache.startScan
  split
  · apply h.moveCursor
    intro id hid
    rw [h.list.first] at hid
    exact mem_of_head? hid
  · exact h

/-- What a turn does: nothing, or the scan ends at an item that is too new, or it visits an item. -/
theorem turn_cases (s : LruUse ObjectType) (scans : List (TickType × ℕ)) (tick : TickType) (maxScans : ℕ) :
    ((s.cache.scanCursor = none ∨ maxScans = 0) ∧ s.turn scans tick maxScans = ({ s with scans := scans }, .done)) ∨
      ∃ item, s.cache.scanCursor = some item ∧ maxScans ≠ 0 ∧
        ((s.cache.tooNew tick item ∧
            s.turn scans tick maxScans = ({ s with cache := { s.cache with scanCursor := none }, scans := scans }, .done)) ∨
          (¬s.cache.tooNew tick item ∧
            s.turn scans tick maxScans =
              ({ s with cache := { s.cache with scanCursor := (s.cache.itemPool item).next }, scans := (tick, maxScans - 1) :: scans },
                .visits item (s.cache.itemPool item).obj))) := by
  unfold LruUse.turn scanTurn
  cases hcursor : s.cache.scanCursor with
  | none => exact Or.inl ⟨Or.inl rfl, rfl⟩
  | some item =>
    by_cases hmax : maxScans = 0
    · left
      simp [hmax]
    · right
      refine ⟨item, rfl, hmax, ?_⟩
      by_cases hnew : s.cache.tooNew tick item
      · left
        simp [hmax, hnew]
      · right
        simp [hmax, hnew]

theorem Kept.turn (h : Kept s items) (scans : List (TickType × ℕ)) (tick : TickType) (maxScans : ℕ) :
    Kept (s.turn scans tick maxScans).1 items := by
  rcases turn_cases s scans tick maxScans with ⟨-, hturn⟩ | ⟨item, hcursor, -, ⟨-, hturn⟩ | ⟨-, hturn⟩⟩
  · rw [hturn]
    exact { h with }
  · rw [hturn]
    apply h.moveCursor
    intro id hid
    cases hid
  · rw [hturn]
    apply h.moveCursor
    intro id hid
    exact mem_of_mem_erase (h.list.next_mem (h.cursor item hcursor) hid)

/-! ### Runs -/

variable [Inhabited ObjectType]

/-- **Every step keeps the list of the live items in order, with the cursor in it.** -/
theorem step_kept (h : Kept s items) {event : Event ObjectType} {s' : LruUse ObjectType} {output : Output ObjectType}
    (horder : InOrder s event) (hstep : s.step event = some (s', output)) : ∃ items', Kept s' items' := by
  cases event with
  | insert obj tick =>
    cases hstep
    exact ⟨_, h.insert horder⟩
  | touch id tick =>
    rw [step] at hstep
    split at hstep
    · rename_i hlive
      cases hstep
      exact h.touch ((h.live id).2 hlive) horder
    · cases hstep
  | free id =>
    rw [step] at hstep
    split at hstep
    · rename_i hlive
      cases hstep
      exact ⟨_, h.free_kept ((h.live id).2 hlive)⟩
    · cases hstep
  | scan tick maxScans =>
    have hturn := h.startScan.turn s.scans tick maxScans
    rw [step, Option.some.injEq] at hstep
    rw [hstep] at hturn
    exact ⟨items, hturn⟩
  | callbackReturn stop =>
    rw [step] at hstep
    split at hstep
    · cases hstep
    · split at hstep
      · cases hstep
        exact ⟨items, { h with }⟩
      · rename_i tick maxScans scans _ _
        have hturn := h.turn scans tick maxScans
        rw [Option.some.injEq] at hstep
        rw [hstep] at hturn
        exact ⟨items, hturn⟩

theorem run_kept {history : List (Event ObjectType × Output ObjectType)}
    (h : Lib.History step InOrder (initial tick) s history) : ∃ items, Kept s items := by
  apply h.invariant (P := fun s _ => ∃ items, Kept s items) ⟨[], kept_initial tick⟩
  intro s _ event s' output hkept horder hstep
  obtain ⟨items, hkept⟩ := hkept
  exact step_kept hkept horder hstep

end LruUse
end Common
end Citron
