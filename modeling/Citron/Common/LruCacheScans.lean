/-
# Scans that come around

A scan goes on where the last one stopped. What is ahead of the cursor before it comes to an item gets
less with every turn, and what is freed or used between the turns does not make it more, unless it is used
with a tick that the scans are not below of.
-/
import Citron.Common.LruCacheRun

namespace Citron
namespace Common

open List

/-- What is ahead of the cursor, before and at an item: the items up to it, or those up to the end and from the beginning. -/
inductive Ahead (eligible : ℕ → Bool) (cursor : Option ℕ) (items : List ℕ) (x n : ℕ) : Prop
  | atRest (xs ys : List ℕ) (hitems : items = xs ++ x :: ys) (hcursor : cursor = none) (hn : xs.length < n)
  | before (xs zs ys : List ℕ) (hitems : items = xs ++ (zs ++ x :: ys)) (hcursor : cursor = (zs ++ [x]).head?)
      (hn : zs.length < n)
  | behind (xs ys zs : List ℕ) (hitems : items = xs ++ x :: (ys ++ zs)) (hne : zs ≠ []) (hcursor : cursor = zs.head?)
      (hn : zs.countP eligible + xs.length + 1 < n)

namespace Ahead

variable {eligible eligible' : ℕ → Bool} {cursor cursor' : Option ℕ} {items : List ℕ} {x y n m : ℕ}

theorem pos (h : Ahead eligible cursor items x n) : 0 < n := by
  cases h with
  | atRest xs ys hitems hcursor hn => omega
  | before xs zs ys hitems hcursor hn => omega
  | behind xs ys zs hitems hne hcursor hn => omega

theorem mono (h : Ahead eligible cursor items x n) (hle : n ≤ m) : Ahead eligible cursor items x m := by
  cases h with
  | atRest xs ys hitems hcursor hn => exact .atRest xs ys hitems hcursor (by omega)
  | before xs zs ys hitems hcursor hn => exact .before xs zs ys hitems hcursor (by omega)
  | behind xs ys zs hitems hne hcursor hn => exact .behind xs ys zs hitems hne hcursor (by omega)

/-- It does not get more when items are not eligible any more. -/
theorem imp (h : Ahead eligible cursor items x n) (himp : ∀ y ∈ items, eligible' y = true → eligible y = true) :
    Ahead eligible' cursor items x n := by
  cases h with
  | atRest xs ys hitems hcursor hn => exact .atRest xs ys hitems hcursor hn
  | before xs zs ys hitems hcursor hn => exact .before xs zs ys hitems hcursor hn
  | behind xs ys zs hitems hne hcursor hn =>
    have hle : zs.countP eligible' ≤ zs.countP eligible := by
      apply countP_mono_left
      intro y hy
      apply himp y
      rw [hitems]
      exact mem_append_right xs (mem_cons_of_mem x (mem_append_right ys hy))
    exact .behind xs ys zs hitems hne hcursor (by omega)

/-- The eligible items are all there can be ahead. -/
theorem of_mem (hx : x ∈ items) (hcursor : ∀ id, cursor = some id → id ∈ items)
    (hbefore : ∀ xs ys, items = xs ++ x :: ys → ∀ y ∈ xs ++ [x], eligible y = true) :
    Ahead eligible cursor items x (items.countP eligible + 1) := by
  obtain ⟨xs, ys, hitems⟩ := append_of_mem hx
  have hall := hbefore xs ys hitems
  have hcount : items.countP eligible = xs.length + (1 + ys.countP eligible) := by
    have hxs : xs.countP eligible = xs.length := countP_eq_length.2 fun y hy => hall y (mem_append_left [x] hy)
    have hself : eligible x = true := hall x (mem_append_right xs mem_cons_self)
    rw [hitems, countP_append, countP_cons, hself, hxs, if_pos rfl, Nat.add_comm 1]
  cases hat : cursor with
  | none => exact .atRest xs ys hitems rfl (by omega)
  | some id =>
    have hid := hcursor id hat
    rw [hitems, mem_append, mem_cons] at hid
    rcases hid with hid | rfl | hid
    · obtain ⟨as, bs, rfl⟩ := append_of_mem hid
      rw [length_append, length_cons] at hcount
      refine .before as (id :: bs) ys (hitems.trans (append_assoc _ _ _)) rfl ?_
      rw [length_cons]
      omega
    · exact .before xs [] ys hitems rfl (by rw [length_nil]; omega)
    · obtain ⟨as, bs, rfl⟩ := append_of_mem hid
      rw [countP_append] at hcount
      exact .behind xs as (id :: bs) hitems (cons_ne_nil id bs) rfl (by omega)

/-- An item is put behind the others. -/
theorem concat (h : Ahead eligible cursor items x n) (y : ℕ) :
    Ahead eligible cursor (items ++ [y]) x (n + if eligible y then 1 else 0) := by
  cases h with
  | atRest xs ys hitems hcursor hn =>
    exact .atRest xs (ys ++ [y]) (by rw [hitems, append_assoc, cons_append]) hcursor (by omega)
  | before xs zs ys hitems hcursor hn =>
    exact .before xs zs (ys ++ [y]) (by rw [hitems, append_assoc, append_assoc, cons_append]) hcursor (by omega)
  | behind xs ys zs hitems hne hcursor hn =>
    refine .behind xs ys (zs ++ [y]) ?_ (append_ne_nil_of_left_ne_nil hne _) ?_ ?_
    · rw [hitems, append_assoc, cons_append, append_assoc]
    · rw [head?_append_of_ne_nil _ hne, hcursor]
    · rw [countP_append, countP_singleton]
      omega

/-- Another item is taken out; a cursor at it goes on to the next. -/
theorem erase (h : Ahead eligible cursor items x n) (hdistinct : items.Nodup) (hxy : x ≠ y)
    (hnext : ∀ xs ys, items = xs ++ y :: ys → cursor = some y → cursor' = ys.head?) (hother : cursor ≠ some y → cursor' = cursor) :
    Ahead eligible cursor' (items.erase y) x n := by
  rw [hdistinct.erase_eq_filter]
  have hx : (x != y) = true := bne_iff_ne.2 hxy
  have hlength (l : List ℕ) : (l.filter (· != y)).length ≤ l.length := length_filter_le _ l
  -- what is taken out is not once more in the list
  have honce (as bs : List ℕ) (hitems : items = as ++ y :: bs) (z : ℕ) (hz : z ∈ bs) : (z != y) = true := by
    rw [hitems] at hdistinct
    have hy := (nodup_cons.1 (nodup_append.1 hdistinct).2.1).1
    exact bne_iff_ne.2 (ne_of_mem_of_not_mem hz hy)
  cases h with
  | atRest xs ys hitems hcursor hn =>
    have hat : cursor' = none := (hother (by rw [hcursor]; exact nofun)).trans hcursor
    refine .atRest (xs.filter (· != y)) (ys.filter (· != y)) ?_ hat (lt_of_le_of_lt (hlength xs) hn)
    rw [hitems, filter_append, filter_cons, if_pos hx]
  | before xs zs ys hitems hcursor hn =>
    have hfilter : items.filter (· != y) = xs.filter (· != y) ++ (zs.filter (· != y) ++ x :: ys.filter (· != y)) := by
      rw [hitems, filter_append, filter_append, filter_cons, if_pos hx]
    refine .before _ _ _ hfilter ?_ (lt_of_le_of_lt (hlength zs) hn)
    cases zs with
    | nil => exact (hother (by rw [hcursor]; simpa using hxy)).trans hcursor
    | cons w zs =>
      by_cases hw : w = y
      · subst hw
        have hzs : (w :: zs).filter (· != w) = zs := by
          rw [filter_cons_of_neg (by simp), filter_eq_self]
          intro z hz
          exact honce xs (zs ++ x :: ys) hitems z (mem_append_left _ hz)
        rw [hzs, hnext xs (zs ++ x :: ys) hitems hcursor]
        cases zs <;> rfl
      · rw [filter_cons, if_pos (bne_iff_ne.2 hw)]
        exact (hother (by rw [hcursor]; simpa using hw)).trans hcursor
  | behind xs ys zs hitems hne hcursor hn =>
    have hfilter : items.filter (· != y) = xs.filter (· != y) ++ x :: (ys.filter (· != y) ++ zs.filter (· != y)) := by
      rw [hitems, filter_append, filter_cons, if_pos hx, filter_append]
    have hcount (l : List ℕ) : (l.filter (· != y)).countP eligible ≤ l.countP eligible := filter_sublist.countP_le
    have hxs := hlength xs
    cases zs with
    | nil => exact absurd rfl hne
    | cons w zs =>
      by_cases hw : w = y
      · subst hw
        have hsplit : items = (xs ++ x :: ys) ++ w :: zs := by rw [hitems, append_assoc, cons_append]
        have hzs : (w :: zs).filter (· != w) = zs := by
          rw [filter_cons_of_neg (by simp), filter_eq_self]
          exact honce _ zs hsplit
        have hat := hnext _ zs hsplit hcursor
        rw [hzs] at hfilter
        cases zs with
        | nil => exact .atRest _ _ (hfilter.trans (by rw [append_nil])) hat (by omega)
        | cons v zs =>
          refine .behind _ _ _ hfilter (cons_ne_nil v zs) hat ?_
          rw [countP_cons] at hn
          omega
      · have hzs := hcount (w :: zs)
        refine .behind _ _ _ hfilter ?_ ?_ (by omega)
        · rw [filter_cons, if_pos (bne_iff_ne.2 hw)]
          exact cons_ne_nil _ _
        · rw [filter_cons, if_pos (bne_iff_ne.2 hw)]
          exact (hother (by rw [hcursor]; simpa using hw)).trans hcursor

/-- A scan begins at the first item when none is left from the last one. -/
theorem start (h : Ahead eligible none items x n) : Ahead eligible items.head? items x n := by
  cases h with
  | atRest xs ys hitems hcursor hn =>
    refine .before [] xs ys hitems ?_ hn
    rw [hitems]
    cases xs <;> rfl
  | before xs zs ys hitems hcursor hn =>
    cases zs <;> cases hcursor
  | behind xs ys zs hitems hne hcursor hn =>
    cases zs with
    | nil => exact absurd rfl hne
    | cons w zs => cases hcursor

/-- A turn at another item leaves less ahead. -/
theorem turn {w : ℕ} (h : Ahead eligible (some w) items x n) (heligible : eligible w = true) (hne : w ≠ x)
    (hnext : ∀ xs ys, items = xs ++ w :: ys → cursor' = ys.head?) : ∃ m < n, Ahead eligible cursor' items x m := by
  cases h with
  | atRest xs ys hitems hcursor hn => cases hcursor
  | before xs zs ys hitems hcursor hn =>
    cases zs with
    | nil => exact absurd (Option.some.inj hcursor) hne
    | cons v zs =>
      obtain rfl : w = v := Option.some.inj hcursor
      rw [length_cons] at hn
      refine ⟨n - 1, by omega, .before (xs ++ [w]) zs ys (hitems.trans (by simp)) ?_ (by omega)⟩
      rw [hnext xs (zs ++ x :: ys) hitems]
      cases zs <;> rfl
  | behind xs ys zs hitems hnil hcursor hn =>
    cases zs with
    | nil => exact absurd rfl hnil
    | cons v zs =>
      obtain rfl : w = v := Option.some.inj hcursor
      have hat := hnext (xs ++ x :: ys) zs (hitems.trans (by simp))
      rw [countP_cons, heligible, if_pos rfl] at hn
      cases zs with
      | nil => exact ⟨n - 1, by omega, .atRest xs (ys ++ [w]) hitems hat (by omega)⟩
      | cons u zs =>
        exact ⟨n - 1, by omega, .behind xs (ys ++ [w]) (u :: zs) (hitems.trans (by simp)) (cons_ne_nil u zs) hat (by omega)⟩

/-- At an item that is not eligible a scan ends, and the next one begins at the first item. -/
theorem stop {w : ℕ} (h : Ahead eligible (some w) items x n) (hnot : eligible w = false)
    (hbefore : ∀ xs ys, items = xs ++ x :: ys → ∀ y ∈ xs ++ [x], eligible y = true) : ∃ m < n, Ahead eligible none items x m := by
  cases h with
  | atRest xs ys hitems hcursor hn => cases hcursor
  | before xs zs ys hitems hcursor hn =>
    have hmem : w ∈ (xs ++ zs) ++ [x] := by
      rw [append_assoc]
      exact mem_append_right xs (mem_of_head? hcursor.symm)
    have hw := hbefore (xs ++ zs) ys (hitems.trans (append_assoc _ _ _).symm) w hmem
    rw [hnot] at hw
    cases hw
  | behind xs ys zs hitems hne hcursor hn =>
    exact ⟨n - 1, by omega, .atRest xs (ys ++ zs) hitems rfl (by omega)⟩

end Ahead

/-! ### The items of the cache -/

namespace LruUse

open LeastRecentlyUsedCache

variable {ObjectType : Type} {s s' : LruUse ObjectType} {items : List ℕ} {bound : TickType} {x n : ℕ}

/-- What a scan with the tick visits. -/
def eligible (s : LruUse ObjectType) (bound : TickType) (id : ℕ) : Bool := !s.cache.tooNew bound id

theorem eligible_iff {id : ℕ} : s.eligible bound id = true ↔ (s.cache.itemPool id).tick.s64 ≤ bound.s64 := by
  rw [eligible, Bool.not_eq_true', decide_eq_false_iff_not, tooNew]
  omega

/-- What is before an eligible item is eligible. -/
theorem Kept.eligible_before (h : Kept s items) (hx : s.eligible bound x = true) (xs ys : List ℕ) (hitems : items = xs ++ x :: ys)
    (y : ℕ) (hy : y ∈ xs ++ [x]) : s.eligible bound y = true := by
  rcases mem_append.1 hy with hy | hy
  · have hsorted := h.sorted
    rw [hitems, pairwise_append] at hsorted
    have hle : (s.cache.itemPool y).tick.s64 ≤ (s.cache.itemPool x).tick.s64 := (hsorted.2.2 y hy x mem_cons_self).2
    exact eligible_iff.2 (Int.le_trans hle (eligible_iff.1 hx))
  · rw [mem_singleton.1 hy]
    exact hx

/-- A live item that a scan with the tick has to come to, with what is ahead of the cursor before. -/
structure Pending (s : LruUse ObjectType) (items : List ℕ) (bound : TickType) (x n : ℕ) : Prop where
  kept : Kept s items
  mem : x ∈ items
  eligible : s.eligible bound x = true
  ahead : Ahead (s.eligible bound) s.cache.scanCursor items x n

theorem Pending.of_kept (h : Kept s items) (hx : x ∈ items) (heligible : s.eligible bound x = true) :
    Pending s items bound x (items.countP (s.eligible bound) + 1) :=
  ⟨h, hx, heligible, .of_mem hx h.cursor (h.eligible_before heligible)⟩

theorem Pending.startScan (h : Pending s items bound x n) : Pending { s with cache := s.cache.startScan } items bound x n := by
  have hkept := h.kept.startScan
  unfold LeastRecentlyUsedCache.startScan at hkept ⊢
  split
  · rename_i hcursor
    rw [if_pos hcursor] at hkept
    refine ⟨hkept, h.mem, h.eligible, ?_⟩
    have hahead := h.ahead
    rw [hcursor] at hahead
    change Ahead _ s.cache.firstItem items x n
    rw [h.kept.list.first]
    exact hahead.start
  · exact h

/-- A turn of a scan visits the item, or leaves less ahead. -/
theorem Pending.turn (h : Pending s items bound x n) (scans : List (TickType × ℕ)) (maxScans : ℕ) :
    (∃ obj, (s.turn scans bound maxScans).2 = .visits x obj) ∨
      ∃ m ≤ n, Pending (s.turn scans bound maxScans).1 items bound x m ∧
        (maxScans ≠ 0 → s.cache.scanCursor ≠ none → m < n) := by
  have hkept := h.kept.turn scans bound maxScans
  have hahead := h.ahead
  rcases turn_cases s scans bound maxScans with ⟨hnone, hturn⟩ | ⟨item, hcursor, -, ⟨hnew, hturn⟩ | ⟨hold, hturn⟩⟩
  · rw [hturn] at hkept ⊢
    refine Or.inr ⟨n, le_rfl, ⟨hkept, h.mem, h.eligible, hahead⟩, ?_⟩
    intro hmax hsome
    exact absurd hnone (not_or.2 ⟨hsome, hmax⟩)
  · rw [hturn] at hkept ⊢
    rw [hcursor] at hahead
    have hnot : s.eligible bound item = false := by
      rw [LruUse.eligible, decide_eq_true hnew]
      rfl
    obtain ⟨m, hm, hstopped⟩ := hahead.stop hnot (h.kept.eligible_before h.eligible)
    exact Or.inr ⟨m, hm.le, ⟨hkept, h.mem, h.eligible, hstopped⟩, fun _ _ => hm⟩
  · rw [hturn] at hkept ⊢
    by_cases hx : item = x
    · rw [hx]
      exact Or.inl ⟨_, rfl⟩
    · right
      rw [hcursor] at hahead
      have heligible : s.eligible bound item = true := by
        rw [LruUse.eligible, decide_eq_false hold]
        rfl
      have hnext (xs ys : List ℕ) (hitems : items = xs ++ item :: ys) : (s.cache.itemPool item).next = ys.head? := by
        have hlist := h.kept.list
        rw [hitems] at hlist
        exact hlist.apart.next
      obtain ⟨m, hm, hturned⟩ := hahead.turn heligible hx hnext
      exact ⟨m, hm.le, ⟨hkept, h.mem, h.eligible, hturned⟩, fun _ _ => hm⟩

/-! ### Repeated scans -/

/-- The item is freed or used. -/
def Event.Takes (x : ℕ) : Event ObjectType → Prop
  | .free id => id = x
  | .touch id _ => id = x
  | _ => False

/-- A scan that may visit an item. -/
def Event.scans : Event ObjectType → ℕ
  | .scan _ maxScans => if maxScans = 0 then 0 else 1
  | _ => 0

/-- An item gets a tick that the scans are not below of. -/
def Event.renews (bound : TickType) : Event ObjectType → ℕ
  | .insert _ tick => if tick.s64 ≤ bound.s64 then 1 else 0
  | .touch _ tick => if tick.s64 ≤ bound.s64 then 1 else 0
  | _ => 0

/-- All scans are with the same tick. -/
def Repeats (bound : TickType) (s : LruUse ObjectType) : Event ObjectType → Prop
  | .scan tick _ => tick = bound
  | event => InOrder s event

section Step

theorem Kept.ahead_congr {c : LeastRecentlyUsedCache ObjectType} {scans : List (TickType × ℕ)} {live : List ℕ} {lastTick : TickType}
    {cursor : Option ℕ} (h : Ahead (s.eligible bound) cursor items x n)
    (htick : ∀ y ∈ items, (c.itemPool y).tick = (s.cache.itemPool y).tick) :
    Ahead (eligible ⟨c, scans, live, lastTick⟩ bound) cursor items x n := by
  apply h.imp
  intro y hy heligible
  rw [eligible_iff] at heligible ⊢
  rw [← htick y hy]
  exact heligible

theorem ite_le_ite {b : Bool} {p : Prop} [Decidable p] (h : b = true → p) : (if b then 1 else 0) ≤ if p then 1 else 0 := by
  cases b with
  | false => exact Nat.zero_le _
  | true => rw [if_pos rfl, if_pos (h rfl)]

theorem Pending.insert [Inhabited ObjectType] (h : Pending s items bound x n) {obj : ObjectType} {tick : TickType} (htick : NotAfter s.lastTick tick) :
    Pending { s with cache := (s.cache.insert obj tick).1, live := s.cache.build.2 :: s.live, lastTick := tick }
      (items ++ [s.cache.build.2]) bound x (n + Event.renews bound (.insert obj tick)) := by
  have hinserted := h.kept.insert_inserted obj tick
  refine ⟨h.kept.insert htick, mem_append_left _ h.mem, ?_, ?_⟩
  · rw [eligible_iff]
    change ((s.cache.insert obj tick).1.itemPool x).tick.s64 ≤ bound.s64
    rw [hinserted.tick_other x h.mem]
    exact eligible_iff.1 h.eligible
  · change Ahead _ (s.cache.insert obj tick).1.scanCursor _ x _
    rw [hinserted.scanCursor]
    apply ((Kept.ahead_congr h.ahead hinserted.tick_other).concat s.cache.build.2).mono
    apply Nat.add_le_add_left (ite_le_ite _)
    intro heligible
    rw [eligible_iff] at heligible
    exact hinserted.tick ▸ heligible

theorem Pending.free (h : Pending s items bound x n) {id : ℕ} (hid : id ∈ items) (hne : x ≠ id) :
    Pending { s with cache := s.cache.free id, live := s.live.erase id } (items.erase id) bound x n := by
  refine ⟨h.kept.free_kept hid, (mem_erase_of_ne hne).2 h.mem, ?_, ?_⟩
  · rw [eligible_iff]
    change ((s.cache.free id).itemPool x).tick.s64 ≤ bound.s64
    rw [free_tick]
    exact eligible_iff.1 h.eligible
  · have hcursor : (s.cache.free id).scanCursor = if s.cache.scanCursor = some id then (s.cache.itemPool id).next else s.cache.scanCursor :=
      h.kept.list.detach_scanCursor hid
    apply Kept.ahead_congr
    · apply h.ahead.erase h.kept.list.distinct hne
      · intro xs ys hitems hat
        have hlist := h.kept.list
        rw [hitems] at hlist
        change (s.cache.free id).scanCursor = _
        rw [hcursor, if_pos hat]
        exact hlist.apart.next
      · intro hnot
        exact hcursor.trans (if_neg hnot)
    · intro y _
      exact free_tick s.cache id y

/-- Another item that is used goes behind the others. -/
theorem Pending.touch (h : Pending s items bound x n) {id : ℕ} (hid : id ∈ items) (hne : x ≠ id) {tick : TickType}
    (htick : NotAfter s.lastTick tick) :
    ∃ items', Pending { s with cache := s.cache.touch id tick, lastTick := tick } items' bound x
      (n + Event.renews bound (.touch id tick : Event ObjectType)) := by
  rcases h.kept.touch_placed hid tick with hsame | hplaced
  · rw [hsame]
    refine ⟨items, { h.kept with last := fun y hy => (h.kept.last y hy).trans htick }, h.mem, h.eligible, ?_⟩
    exact h.ahead.mono (Nat.le_add_right _ _)
  · refine ⟨_, h.kept.placed hid htick hplaced, mem_append_left _ ((mem_erase_of_ne hne).2 h.mem), ?_, ?_⟩
    · rw [eligible_iff]
      change ((s.cache.touch id tick).itemPool x).tick.s64 ≤ bound.s64
      rw [hplaced.tick_other x hne]
      exact eligible_iff.1 h.eligible
    · change Ahead _ (s.cache.touch id tick).scanCursor _ x _
      rcases hplaced.cursor with ⟨hitems, hcursor⟩ | hcursor
      · -- the last item stays where it is, and is not eligible if it was not
        rw [hitems, hcursor]
        apply Ahead.mono _ (Nat.le_add_right n _)
        apply h.ahead.imp
        intro y hy heligible
        rw [eligible_iff] at heligible ⊢
        by_cases hyid : y = id
        · rw [hyid] at heligible ⊢
          change ((s.cache.touch id tick).itemPool id).tick.s64 ≤ bound.s64 at heligible
          rw [hplaced.tick] at heligible
          exact Int.le_trans ((h.kept.last id hid).trans htick).2 heligible
        · exact hplaced.tick_other y hyid ▸ heligible
      · have herased : Ahead (s.eligible bound) (s.cache.touch id tick).scanCursor (items.erase id) x n := by
          apply h.ahead.erase h.kept.list.distinct hne
          · intro xs ys hitems hat
            have hlist := h.kept.list
            rw [hitems] at hlist
            rw [hcursor, if_pos hat]
            exact hlist.apart.next
          · intro hnot
            rw [hcursor, if_neg hnot]
        have hother : ∀ y ∈ items.erase id, ((s.cache.touch id tick).itemPool y).tick = (s.cache.itemPool y).tick := by
          intro y hy
          exact hplaced.tick_other y (h.kept.list.distinct.mem_erase_iff.1 hy).1
        apply ((Kept.ahead_congr herased hother).concat id).mono
        apply Nat.add_le_add_left (ite_le_ite _)
        intro heligible
        rw [eligible_iff] at heligible
        exact hplaced.tick ▸ heligible

theorem turn_scans (scans : List (TickType × ℕ)) (maxScans : ℕ) (hscans : ∀ scan ∈ scans, scan.1 = bound) :
    ∀ scan ∈ (s.turn scans bound maxScans).1.scans, scan.1 = bound := by
  rcases turn_cases s scans bound maxScans with ⟨-, hturn⟩ | ⟨item, -, -, ⟨-, hturn⟩ | ⟨-, hturn⟩⟩
  · rw [hturn]
    exact hscans
  · rw [hturn]
    exact hscans
  · rw [hturn]
    intro scan hscan
    rcases mem_cons.1 hscan with rfl | hscan
    · rfl
    · exact hscans scan hscan

theorem Pending.startScan_ne_none (h : Pending s items bound x n) : s.cache.startScan.scanCursor ≠ none := by
  unfold LeastRecentlyUsedCache.startScan
  split
  · change s.cache.firstItem ≠ none
    rw [h.kept.list.first]
    exact mt head?_eq_none_iff.1 (ne_nil_of_mem h.mem)
  · assumption

variable [Inhabited ObjectType]

/-- **A step visits the item, takes it, or leaves less ahead when it scans.** -/
theorem Pending.step (h : Pending s items bound x n) (hscans : ∀ scan ∈ s.scans, scan.1 = bound) {event : Event ObjectType}
    {output : Output ObjectType} (hrepeats : Repeats bound s event) (hstep : s.step event = some (s', output)) :
    (∃ obj, output = .visits x obj) ∨ event.Takes x ∨
      ∃ items' m, Pending s' items' bound x m ∧ (∀ scan ∈ s'.scans, scan.1 = bound) ∧ m + event.scans ≤ n + event.renews bound := by
  cases event with
  | insert obj tick =>
    cases hstep
    exact Or.inr (Or.inr ⟨_, _, h.insert hrepeats, hscans, le_rfl⟩)
  | touch id tick =>
    rw [LruUse.step] at hstep
    split at hstep
    · rename_i hlive
      cases hstep
      by_cases hid : id = x
      · exact Or.inr (Or.inl hid)
      · obtain ⟨items', hpending⟩ := h.touch ((h.kept.live id).2 hlive) (Ne.symm hid) hrepeats
        exact Or.inr (Or.inr ⟨items', _, hpending, hscans, le_rfl⟩)
    · cases hstep
  | free id =>
    rw [LruUse.step] at hstep
    split at hstep
    · rename_i hlive
      cases hstep
      by_cases hid : id = x
      · exact Or.inr (Or.inl hid)
      · exact Or.inr (Or.inr ⟨_, n, h.free ((h.kept.live id).2 hlive) (Ne.symm hid), hscans, le_rfl⟩)
    · cases hstep
  | scan tick maxScans =>
    obtain rfl : tick = bound := hrepeats
    have hturn := h.startScan.turn s.scans maxScans
    have hnext := turn_scans (s := { s with cache := s.cache.startScan }) s.scans maxScans hscans
    rw [LruUse.step, Option.some.injEq] at hstep
    rw [hstep] at hturn hnext
    rcases hturn with hvisits | ⟨m, hm, hpending, hless⟩
    · exact Or.inl hvisits
    · refine Or.inr (Or.inr ⟨items, m, hpending, hnext, ?_⟩)
      by_cases hmax : maxScans = 0
      · simp only [Event.scans, Event.renews, hmax, if_true, Nat.add_zero]
        exact hm
      · have := hless hmax h.startScan_ne_none
        simp only [Event.scans, Event.renews, hmax, if_false, Nat.add_zero]
        omega
  | callbackReturn stop =>
    rw [LruUse.step] at hstep
    split at hstep
    · cases hstep
    · rename_i tick maxScans scans hstack
      rw [hstack] at hscans
      obtain rfl : tick = bound := hscans _ mem_cons_self
      have hrest : ∀ scan ∈ scans, scan.1 = tick := fun scan hscan => hscans scan (mem_cons_of_mem _ hscan)
      split at hstep
      · cases hstep
        exact Or.inr (Or.inr ⟨items, n, { h with kept := { h.kept with } }, hrest, le_rfl⟩)
      · have hturn := h.turn scans maxScans
        have hnext := turn_scans (s := s) scans maxScans hrest
        rw [Option.some.injEq] at hstep
        rw [hstep] at hturn hnext
        rcases hturn with hvisits | ⟨m, hm, hpending, -⟩
        · exact Or.inl hvisits
        · exact Or.inr (Or.inr ⟨items, m, hpending, hnext, hm⟩)

end Step

/-! ### Runs -/

variable [Inhabited ObjectType]

/-- The item was visited by a scan. -/
def Visited (x : ℕ) (history : List (Event ObjectType × Output ObjectType)) : Prop :=
  ∃ p ∈ history, ∃ obj, p.2 = .visits x obj

/-- The item was freed or used. -/
def Taken (x : ℕ) (history : List (Event ObjectType × Output ObjectType)) : Prop := ∃ p ∈ history, p.1.Takes x

/-- **Scans with one tick come to every item that they are not below of, unless it is taken before.** -/
theorem Pending.run {history : List (Event ObjectType × Output ObjectType)} (h : Pending s items bound x n)
    (hscans : ∀ scan ∈ s.scans, scan.1 = bound) (hrun : Lib.History LruUse.step (Repeats bound) s s' history) :
    Visited x history ∨ Taken x history ∨
      ∃ items' m, Pending s' items' bound x m ∧ (∀ scan ∈ s'.scans, scan.1 = bound) ∧
        m + (history.map fun p => p.1.scans).sum ≤ n + (history.map fun p => p.1.renews bound).sum := by
  refine hrun.invariant (P := fun s' history => Visited x history ∨ Taken x history ∨ ∃ items' m, Pending s' items' bound x m ∧
    (∀ scan ∈ s'.scans, scan.1 = bound) ∧
      m + (history.map fun p => p.1.scans).sum ≤ n + (history.map fun p => p.1.renews bound).sum) ?_ ?_
  · exact Or.inr (Or.inr ⟨items, n, h, hscans, le_rfl⟩)
  · intro s₁ history event s₂ output hsofar hrepeats hstep
    rcases hsofar with ⟨p, hp, hvisits⟩ | ⟨p, hp, htakes⟩ | ⟨items', m, hpending, hscans', hle⟩
    · exact Or.inl ⟨p, mem_append_left _ hp, hvisits⟩
    · exact Or.inr (Or.inl ⟨p, mem_append_left _ hp, htakes⟩)
    · have hlast : (event, output) ∈ history ++ [(event, output)] := mem_append_right history mem_cons_self
      rcases hpending.step hscans' hrepeats hstep with hvisits | htakes | ⟨items'', m', hpending', hscans'', hle'⟩
      · exact Or.inl ⟨_, hlast, hvisits⟩
      · exact Or.inr (Or.inl ⟨_, hlast, htakes⟩)
      · refine Or.inr (Or.inr ⟨items'', m', hpending', hscans'', ?_⟩)
        simp only [map_append, map_cons, map_nil, sum_append, sum_cons, sum_nil]
        omega

/-- **The live items are in one list, sorted by their ticks, with the cursor in it; a slot is not used again while it is
live; and scans with one tick visit every eligible item after at most as many scans as there are eligible items.** -/
theorem live_items_listed_and_visited {tick : TickType} {history : List (Event ObjectType × Output ObjectType)}
    (hrun : Lib.History LruUse.step InOrder (initial tick) s history) :
    (∃ items, ItemList s.cache items ∧ (∀ id, id ∈ items ↔ id ∈ s.live) ∧
      (items.Pairwise fun a b => NotAfter (s.cache.itemPool a).tick (s.cache.itemPool b).tick) ∧
      ∀ id, s.cache.scanCursor = some id → id ∈ items) ∧
    (∀ obj tick, (s.cache.insert obj tick).2 ∉ s.live) ∧
    ∀ (bound : TickType) (x : ℕ) (s' : LruUse ObjectType) (later : List (Event ObjectType × Output ObjectType)),
      x ∈ s.live → s.eligible bound x = true → (∀ scan ∈ s.scans, scan.1 = bound) →
      Lib.History LruUse.step (Repeats bound) s s' later →
      s.live.countP (s.eligible bound) + (later.map fun p => p.1.renews bound).sum < (later.map fun p => p.1.scans).sum →
      Visited x later ∨ Taken x later := by
  obtain ⟨items, hkept⟩ := run_kept hrun
  refine ⟨⟨items, hkept.list, hkept.live, hkept.sorted, hkept.cursor⟩, ?_, ?_⟩
  · intro obj tick hlive
    exact hkept.build_notMem ((hkept.live _).2 hlive)
  · intro bound x s' later hx heligible hscans hlater hmany
    have hpending := Pending.of_kept hkept ((hkept.live x).2 hx) heligible
    have hperm : items.Perm s.live := (perm_ext_iff_of_nodup hkept.list.distinct hkept.live_distinct).2 hkept.live
    rcases hpending.run hscans hlater with hvisited | htaken | ⟨items', m, hpending', -, hle⟩
    · exact Or.inl hvisited
    · exact Or.inr htaken
    · have hpos := hpending'.ahead.pos
      rw [hperm.countP_eq] at hle
      omega

-- the cursor is at the item that is freed, and its slot is used again
example : (Lib.replay LruUse.step [.insert 0 0, .insert 1 0, .insert 2 0, .scan 0 1, .callbackReturn false, .free 1, .insert 3 10,
    .touch 0 11, .scan 0 4, .callbackReturn false, .scan 11 4, .callbackReturn false, .callbackReturn false]
    ((initial 0 : LruUse ℕ), [])).map (fun r => r.2.map Prod.snd) =
      some [.inserted 0, .inserted 1, .inserted 2, .visits 0 0, .done, .done, .inserted 1, .done, .visits 2 2, .done,
        .visits 2 2, .visits 1 3, .visits 0 0] := by
  decide +kernel

/-- Two items, and a scan that stops at the first. -/
def oneInserted : LruUse ℕ × Output ℕ := ((initial 0).step (.insert 5 0)).get rfl

def twoInserted : LruUse ℕ × Output ℕ := (oneInserted.1.step (.insert 6 0)).get rfl

def firstVisited : LruUse ℕ × Output ℕ := (twoInserted.1.step (.scan 0 1)).get rfl

def firstReturned : LruUse ℕ × Output ℕ := (firstVisited.1.step (.callbackReturn false)).get rfl

def secondVisited : LruUse ℕ × Output ℕ := (firstReturned.1.step (.scan 0 1)).get rfl

def firstAgain : LruUse ℕ × Output ℕ := (secondVisited.1.step (.scan 0 1)).get rfl

def secondAgain : LruUse ℕ × Output ℕ := (firstAgain.1.step (.scan 0 1)).get rfl

theorem live_items_listed_and_visited_two : Visited 0
    [(Event.scan 0 1, secondVisited.2), (.scan 0 1, firstAgain.2), (.scan 0 1, secondAgain.2)] := by
  have horder : InOrder (initial 0) (.insert 5 0) := ⟨by decide, by decide⟩
  have horder' : InOrder oneInserted.1 (.insert 6 0) := ⟨by decide, by decide⟩
  have hone : (initial 0).step (.insert 5 0) = some (oneInserted.1, oneInserted.2) := Lib.step_get _
  have htwo : oneInserted.1.step (.insert 6 0) = some (twoInserted.1, twoInserted.2) := Lib.step_get _
  have hvisit : twoInserted.1.step (.scan 0 1) = some (firstVisited.1, firstVisited.2) := Lib.step_get _
  have hreturn : firstVisited.1.step (.callbackReturn false) = some (firstReturned.1, firstReturned.2) := Lib.step_get _
  have hscan : InOrder twoInserted.1 (.scan 0 1) := trivial
  have hback : InOrder firstVisited.1 (.callbackReturn false) := trivial
  have hrun : Lib.History LruUse.step InOrder (initial 0) firstReturned.1 _ :=
    (((Lib.History.start.step horder hone).step horder' htwo).step hscan hvisit).step hback hreturn
  have hsecond : firstReturned.1.step (.scan 0 1) = some (secondVisited.1, secondVisited.2) := Lib.step_get _
  have hfirst : secondVisited.1.step (.scan 0 1) = some (firstAgain.1, firstAgain.2) := Lib.step_get _
  have hagain : firstAgain.1.step (.scan 0 1) = some (secondAgain.1, secondAgain.2) := Lib.step_get _
  have hrepeats (s : LruUse ℕ) : Repeats 0 s (.scan 0 1) := rfl
  have hlater : Lib.History LruUse.step (Repeats 0) firstReturned.1 secondAgain.1 _ :=
    ((Lib.History.start.step (hrepeats _) hsecond).step (hrepeats _) hfirst).step (hrepeats _) hagain
  have hvisited := (live_items_listed_and_visited hrun).2.2 0 0 _ _ (by decide +kernel) (by decide +kernel) (by decide +kernel)
    hlater (by decide +kernel)
  refine hvisited.resolve_right ?_
  rintro ⟨p, hp, htakes⟩
  simp at hp
  rcases hp with rfl | rfl | rfl <;> exact htakes

end LruUse
end Common
end Citron
