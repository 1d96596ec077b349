/-
# Runs of the handle table

A run keeps the handles that are reserved, the live ones with their objects, and those
that were removed and not given out since. A handle resolves exactly if it is live, and
the free list holds exactly the entries that are neither registered nor reserved.
-/
import Citron.Kernel.HandleTable

namespace Citron
namespace Kernel
namespace KHandleTable

open List

variable {O : Type}

/-- The tables that a user can reach, with the handles reserved, the live handles and their objects,
and the handles removed and not given out since. -/
inductive Reaches : KHandleTable O → List Handle → List (Handle × O) → Set Handle → Prop
  | initial {size t} (hrun : initialTable.initializeTable size = some t) : Reaches t [] [] ∅
  | add {t t' reserved live stale o h} (hr : Reaches t reserved live stale) (hrun : t.add o = some (some h, t')) :
      Reaches t' reserved ((h, o) :: live) (stale \ {h})
  | addFull {t t' reserved live stale o} (hr : Reaches t reserved live stale) (hrun : t.add o = some (none, t')) :
      Reaches t' reserved live stale
  | reserve {t t' reserved live stale h} (hr : Reaches t reserved live stale)
      (hrun : t.reserve = some (some h, t')) : Reaches t' (h :: reserved) live (stale \ {h})
  | reserveFull {t t' reserved live stale} (hr : Reaches t reserved live stale)
      (hrun : t.reserve = some (none, t')) : Reaches t' reserved live stale
  | register {t t' reserved live stale o h} (hr : Reaches t reserved live stale) (hh : h ∈ reserved)
      (hrun : t.register h o = some t') : Reaches t' (reserved.erase h) ((h, o) :: live) stale
  | unreserve {t t' reserved live stale h} (hr : Reaches t reserved live stale) (hh : h ∈ reserved)
      (hrun : t.unreserve h = some t') : Reaches t' (reserved.erase h) live stale
  | remove {t t' reserved live stale h} (hr : Reaches t reserved live stale)
      (hrun : t.remove h = some (true, t')) :
      Reaches t' reserved (live.filter fun p => p.1 ≠ h) (insert h stale)
  | removeInvalid {t t' reserved live stale h} (hr : Reaches t reserved live stale)
      (hrun : t.remove h = some (false, t')) : Reaches t' reserved live stale

/-- An entry that is registered or reserved. -/
def Occupied (t : KHandleTable O) (reserved : List Handle) (i : ℕ) : Prop :=
  (∃ o, t.objects[i]? = some (some o)) ∨ ∃ h ∈ reserved, h.index = i

section Run

variable {t t' : KHandleTable O} {free : List ℕ} {reserved : List Handle} {live : List (Handle × O)}
  {stale : Set Handle} {h : Handle} {o : O}

/-- The objects and the words of the entries are those of the live handles. -/
structure Holds (t : KHandleTable O) (live : List (Handle × O)) : Prop where
  objects : ∀ i o, t.objects[i]? = some (some o) ↔ ∃ h, (h, o) ∈ live ∧ h.index = i
  ids : ∀ p ∈ live, t.entryInfos[p.1.index]? = some (.ofLinearId p.1.linearId)

structure Inv (t : KHandleTable O) (free : List ℕ) (reserved : List Handle) (live : List (Handle × O))
    (stale : Set Handle) : Prop where
  slots : Slots t free (reserved ++ live.map Prod.fst)
  holds : Holds t live
  stale : ∀ h ∈ stale, h ∉ reserved ++ live.map Prod.fst

/-! ### What handles resolve to -/

theorem mem_issued (hl : (h, o) ∈ live) : h ∈ reserved ++ live.map Prod.fst :=
  mem_append_right _ (mem_map_of_mem hl)

/-- A handle is valid exactly if it is live. -/
theorem Inv.isValidHandle_iff (hinv : Inv t free reserved live stale) (hr : h.reserved = 0) :
    t.isValidHandle h = true ↔ ∃ o, (h, o) ∈ live := by
  unfold KHandleTable.isValidHandle
  constructor
  · intro hvalid
    split_ifs at hvalid with h0 hid hsize
    split at hvalid
    · next o info hobj hinfo =>
      obtain ⟨h', hl', hi⟩ := (hinv.holds.objects _ _).mp hobj
      have hword := hinv.holds.ids _ hl'
      rw [hi, hinfo] at hword
      have hlin : h'.linearId = h.linearId := by
        rw [← beq_iff_eq.mp hvalid, Option.some.inj hword, EntryInfo.getLinearId_ofLinearId h'.linearId_lt]
      obtain rfl := Handle.ext_of_reserved (hinv.slots.handles h' (mem_issued hl')).2 hr hi hlin
      exact ⟨o, hl'⟩
    · exact absurd hvalid Bool.false_ne_true
  · rintro ⟨o, hl⟩
    have hid := (hinv.slots.handles h (mem_issued hl)).1
    have hmem : h ∈ reserved ++ live.map Prod.fst := mem_issued hl
    have hsize := hinv.slots.index_lt hmem
    have h0 : h ≠ 0 := by
      rintro rfl
      exact absurd hid (by decide)
    rw [if_neg h0, if_neg (by omega), if_neg (by omega), (hinv.holds.objects _ o).mpr ⟨h, hl, rfl⟩,
      hinv.holds.ids _ hl]
    exact beq_iff_eq.mpr (EntryInfo.getLinearId_ofLinearId h.linearId_lt)

/-- A handle resolves to the object it is live with, and to nothing else. -/
theorem Inv.getObjectImpl_eq (hinv : Inv t free reserved live stale) :
    t.getObjectImpl h = some o ↔ (h, o) ∈ live := by
  unfold KHandleTable.getObjectImpl
  by_cases hr : h.reserved = 0
  · rw [if_neg (not_not.mpr hr)]
    by_cases hv : t.isValidHandle h = true
    · rw [if_pos hv, Option.join_eq_some_iff, hinv.holds.objects]
      obtain ⟨o', hl'⟩ := (hinv.isValidHandle_iff hr).mp hv
      constructor
      · rintro ⟨h', hl, hi⟩
        rwa [← hinv.slots.index_inj (mem_issued hl) (mem_issued hl') hi]
      · exact fun hl => ⟨h, hl, rfl⟩
    · rw [if_neg hv]
      exact ⟨(fun hn => nomatch hn), fun hl => absurd ((hinv.isValidHandle_iff hr).mpr ⟨o, hl⟩) hv⟩
  · rw [if_pos hr]
    exact ⟨(fun hn => nomatch hn), fun hl => absurd (hinv.slots.handles h (mem_issued hl)).2 hr⟩

theorem Inv.getObjectImpl_stale (hinv : Inv t free reserved live stale) (hs : h ∈ stale) :
    t.getObjectImpl h = none := by
  rw [Option.eq_none_iff_forall_ne_some]
  exact fun o ho => hinv.stale h hs (mem_issued (hinv.getObjectImpl_eq.mp ho))

/-! ### The arrays -/

/-- An object is written to an entry that no live handle has. -/
theorem Holds.set (hh : Holds t live) (hinfos : t'.entryInfos = t.entryInfos.set h.index (.ofLinearId h.linearId))
    (hobjs : t'.objects = t.objects.set h.index (some o)) (hlt : h.index < t.objects.length)
    (hlt' : h.index < t.entryInfos.length) (hnew : ∀ p ∈ live, p.1.index ≠ h.index) :
    Holds t' ((h, o) :: live) := by
  constructor
  · intro i o'
    rw [hobjs]
    by_cases hi : i = h.index
    · subst hi
      rw [getElem?_set_self hlt, Option.some.injEq, Option.some.injEq]
      constructor
      · rintro rfl
        exact ⟨h, mem_cons_self, rfl⟩
      · rintro ⟨h', hl, hi⟩
        rcases mem_cons.mp hl with heq | hl
        · exact (Prod.mk.inj heq).2.symm
        · exact absurd hi (hnew _ hl)
    · rw [getElem?_set_ne (Ne.symm hi), hh.objects]
      constructor
      · rintro ⟨h', hl, hi'⟩
        exact ⟨h', mem_cons_of_mem _ hl, hi'⟩
      · rintro ⟨h', hl, hi'⟩
        rcases mem_cons.mp hl with heq | hl
        · rw [(Prod.mk.inj heq).1] at hi'
          exact absurd hi'.symm hi
        · exact ⟨h', hl, hi'⟩
  · rw [hinfos]
    refine forall_mem_cons.mpr ⟨getElem?_set_self hlt', fun p hp => ?_⟩
    rw [getElem?_set_ne (hnew p hp).symm, hh.ids p hp]

/-- An entry is freed, and the live handle that has it is no longer live. -/
theorem Holds.clear {i : ℕ} {info : EntryInfo} {live' : List (Handle × O)} (hh : Holds t live)
    (hl : ∀ p, p ∈ live' ↔ p ∈ live ∧ p.1.index ≠ i) (hinfos : t'.entryInfos = t.entryInfos.set i info)
    (hobjs : t'.objects = t.objects.set i none) : Holds t' live' := by
  constructor
  · intro j o
    rw [hobjs]
    by_cases hj : j = i
    · subst hj
      constructor
      · intro hnone
        rw [getElem?_set, if_pos rfl] at hnone
        exact absurd hnone (by split_ifs <;> simp)
      · rintro ⟨h, hmem, hi⟩
        exact absurd hi ((hl _).mp hmem).2
    · rw [getElem?_set_ne (Ne.symm hj), hh.objects]
      constructor
      · rintro ⟨h, hmem, hi⟩
        exact ⟨h, (hl _).mpr ⟨hmem, by rwa [hi]⟩, hi⟩
      · rintro ⟨h, hmem, hi⟩
        exact ⟨h, ((hl _).mp hmem).1, hi⟩
  · intro p hp
    obtain ⟨hmem, hi⟩ := (hl p).mp hp
    rw [hinfos, getElem?_set_ne (Ne.symm hi), hh.ids p hmem]

/-! ### The calls -/

theorem Slots.index_fresh {issued : List Handle} (hs : Slots t free (h :: issued)) : ∀ h' ∈ issued, h'.index ≠ h.index := by
  intro h' hh' hi
  have hnodup := (nodup_append.mp hs.nodup).2.1
  rw [map_cons, nodup_cons] at hnodup
  exact hnodup.1 (hi ▸ mem_map_of_mem hh')

theorem Inv.add (hinv : Inv t free reserved live stale) (o : O) (hc : t.count < t.tableSize) :
    ∃ h t' free', t.add o = some (some h, t') ∧ Inv t' free' reserved ((h, o) :: live) (stale \ {h}) := by
  obtain ⟨i, rest, -, t₂, rfl, -, -, hrun, hinfos, hobjs, -, hi, hslots⟩ := hinv.slots.allocate hc
  have hindex : (Handle.encodeHandle i t.nextLinearId).index = i := by
    have := hinv.slots.size
    unfold MaxTableSize at this
    exact Handle.index_encodeHandle (by omega) _
  have hid : (Handle.encodeHandle i t.nextLinearId).linearId = t.nextLinearId := by
    have := hinv.slots.nextId.2
    unfold MaxLinearId at this
    exact Handle.linearId_encodeHandle _ (by omega)
  set h := Handle.encodeHandle i t.nextLinearId with hdef
  obtain ⟨t', hrun', hslots', hinfos', hobjs'⟩ := hslots.setEntry mem_cons_self o
  have hlt : h.index < MaxTableSize := by
    have := hinv.slots.size
    omega
  refine ⟨h, t', rest, ?_, hslots'.perm perm_middle.symm, ?_, ?_⟩
  · rw [hindex, hid] at hrun'
    unfold KHandleTable.add
    have hal : t.allocateLinearId = (t.nextLinearId, t.allocateLinearId.2) := rfl
    rw [if_pos hc, hal]
    simp only [hrun, hrun', Option.bind_eq_bind, Option.bind_some]
    rfl
  · refine hinv.holds.set (hinfos ▸ hinfos') (hobjs ▸ hobjs') ?_ ?_ ?_
    · rwa [hinv.slots.objects]
    · rwa [hinv.slots.infos]
    · exact fun p hp => hslots.index_fresh p.1 (mem_issued hp)
  · rintro x ⟨hx, hxh⟩ hmem
    rcases mem_append.mp hmem with hmem | hmem
    · exact hinv.stale x hx (mem_append_left _ hmem)
    · rcases mem_cons.mp hmem with rfl | hmem
      · exact hxh rfl
      · exact hinv.stale x hx (mem_append_right _ hmem)

theorem Inv.reserve (hinv : Inv t free reserved live stale) (hc : t.count < t.tableSize) :
    ∃ h t' free', t.reserve = some (some h, t') ∧ Inv t' free' (h :: reserved) live (stale \ {h}) := by
  obtain ⟨i, rest, t₁, t₂, rfl, hrun, hid, -, hinfos, hobjs, -, hi, hslots⟩ := hinv.slots.allocate hc
  refine ⟨_, t₂, rest, ?_, hslots, ⟨?_, ?_⟩, ?_⟩
  · unfold KHandleTable.reserve
    rw [if_pos hc]
    simp only [hrun, hid, Option.bind_eq_bind, Option.bind_some]
  · rw [hobjs]
    exact hinv.holds.objects
  · rw [hinfos]
    exact hinv.holds.ids
  · rintro x ⟨hx, hxh⟩ hmem
    rcases mem_cons.mp hmem with rfl | hmem
    · exact hxh rfl
    · exact hinv.stale x hx hmem

/-- What is reserved may be registered, or given back. -/
theorem issued_perm (hh : h ∈ reserved) :
    (reserved ++ live.map Prod.fst).Perm (h :: (reserved.erase h ++ live.map Prod.fst)) :=
  (perm_cons_erase hh).append_right _

theorem Inv.register (hinv : Inv t free reserved live stale) (hh : h ∈ reserved) (o : O) :
    ∃ t', t.register h o = some t' ∧ Inv t' free (reserved.erase h) ((h, o) :: live) stale := by
  have hslots := hinv.slots.perm (issued_perm hh)
  have hlt := hslots.index_lt mem_cons_self
  obtain ⟨t', hrun, hslots', hinfos, hobjs⟩ := hslots.setEntry mem_cons_self o
  refine ⟨t', ?_, hslots'.perm perm_middle.symm, ?_, fun x hx hmem => ?_⟩
  · unfold KHandleTable.register
    rw [if_pos hlt, hrun]
  · refine hinv.holds.set hinfos hobjs ?_ ?_ ?_
    · rw [hslots.objects]
      exact hlt.trans_le hslots.size
    · rw [hslots.infos]
      exact hlt.trans_le hslots.size
    · exact fun p hp => hslots.index_fresh p.1 (mem_issued hp)
  · refine hinv.stale x hx ?_
    rw [(issued_perm hh).mem_iff]
    exact perm_middle.mem_iff.mp hmem

theorem Inv.unreserve (hinv : Inv t free reserved live stale) (hh : h ∈ reserved) :
    ∃ t', t.unreserve h = some t' ∧ Inv t' (h.index :: free) (reserved.erase h) live stale := by
  have hslots := hinv.slots.perm (issued_perm hh)
  have hlt := hslots.index_lt mem_cons_self
  obtain ⟨t', hrun, hslots', hinfos, hobjs⟩ := hslots.freeEntry
  refine ⟨t', ?_, hslots', ?_, fun x hx hmem => ?_⟩
  · unfold KHandleTable.unreserve
    rw [if_pos hlt, hrun]
  · refine hinv.holds.clear (fun p => ⟨fun hp => ⟨hp, ?_⟩, fun hp => hp.1⟩) hinfos hobjs
    exact hslots.index_fresh p.1 (mem_issued hp)
  · refine hinv.stale x hx ?_
    rw [(issued_perm hh).mem_iff]
    exact mem_cons_of_mem _ hmem

/-- A live handle and the other live ones. -/
theorem live_perm (hl : (h, o) ∈ live) (hn : (live.map Prod.fst).Nodup) :
    (live.map Prod.fst).Perm (h :: (live.filter fun p => p.1 ≠ h).map Prod.fst) := by
  obtain ⟨l₁, l₂, rfl⟩ := append_of_mem hl
  rw [map_append, map_cons, nodup_append, nodup_cons] at hn
  have h1 : l₁.filter (fun p => decide (p.1 ≠ h)) = l₁ := by
    refine filter_eq_self.mpr fun p hp => decide_eq_true fun heq => ?_
    exact hn.2.2 _ (mem_map_of_mem hp) _ mem_cons_self heq
  have h2 : l₂.filter (fun p => decide (p.1 ≠ h)) = l₂ := by
    refine filter_eq_self.mpr fun p hp => decide_eq_true fun heq => ?_
    have hmem : p.1 ∈ l₂.map Prod.fst := mem_map_of_mem hp
    exact hn.2.1.1 (heq ▸ hmem)
  rw [filter_append, h1, filter_cons_of_neg (by simp), h2, map_append, map_append, map_cons]
  exact perm_middle

theorem Inv.remove (hinv : Inv t free reserved live stale) (h : Handle) :
    (t.remove h = some (false, t)) ∨
      ∃ t', t.remove h = some (true, t') ∧ (∃ o, (h, o) ∈ live) ∧
        Inv t' (h.index :: free) reserved (live.filter fun p => p.1 ≠ h) (insert h stale) := by
  unfold KHandleTable.remove
  split_ifs with hp hr hv
  · exact .inl rfl
  · exact .inl rfl
  · obtain ⟨o, hl⟩ := (hinv.isValidHandle_iff (not_not.mp hr)).mp hv
    have hnodup := (nodup_append.mp (List.Nodup.of_map _ (nodup_append.mp hinv.slots.nodup).2.1)).2.1
    have hperm : (reserved ++ live.map Prod.fst).Perm
        (h :: (reserved ++ (live.filter fun p => p.1 ≠ h).map Prod.fst)) :=
      ((live_perm hl hnodup).append_left _).trans perm_middle
    have hslots := hinv.slots.perm hperm
    obtain ⟨t', hrun, hslots', hinfos, hobjs⟩ := hslots.freeEntry
    refine .inr ⟨t', by rw [hrun]; rfl, ⟨o, hl⟩, hslots', ?_, ?_⟩
    · refine hinv.holds.clear (fun p => ?_) hinfos hobjs
      rw [mem_filter, decide_eq_true_eq]
      refine and_congr_right fun hp => ⟨fun hne hi => ?_, fun hne heq => hne (heq ▸ rfl)⟩
      exact hne (hinv.slots.index_inj (mem_append_right _ (mem_map_of_mem hp)) (mem_issued hl) hi)
    · rintro x (rfl | hx) hmem
      · exact hslots.index_fresh x hmem rfl
      · exact hinv.stale x hx (hperm.mem_iff.mpr (mem_cons_of_mem _ hmem))
  · exact .inl rfl

/-! ### Runs -/

theorem freeAllEntries_length : ∀ (n : ℕ) (t : KHandleTable O),
    (freeAllEntries n t).entryInfos.length = t.entryInfos.length ∧
      (freeAllEntries n t).objects.length = t.objects.length
  | 0, _ => ⟨rfl, rfl⟩
  | n + 1, t => by
    obtain ⟨h1, h2⟩ := freeAllEntries_length n t
    unfold freeAllEntries
    exact ⟨by rw [length_set, h1], by rw [length_set, h2]⟩

theorem freeAllEntries_chain : ∀ (n : ℕ) (t : KHandleTable O), n ≤ MaxTableSize → t.entryInfos.length = MaxTableSize →
    t.freeHeadIndex = -1 →
    FreeChain (freeAllEntries n t).entryInfos (freeAllEntries n t).freeHeadIndex (List.range n).reverse ∧
      (freeAllEntries n t).freeHeadIndex = n - 1
  | 0, t, _, _, hhead => ⟨hhead, by simpa [freeAllEntries] using hhead⟩
  | n + 1, t, hn, hlen, hhead => by
    obtain ⟨hchain, hn'⟩ := freeAllEntries_chain n t (by omega) hlen hhead
    obtain ⟨h1, -⟩ := freeAllEntries_length n t
    unfold MaxTableSize at hn hlen
    unfold freeAllEntries
    rw [range_succ, reverse_append, reverse_singleton]
    refine ⟨⟨rfl, _, getElem?_set_self (by rw [h1]; omega), ?_⟩, by simp⟩
    rw [EntryInfo.getNextFreeIndex_ofNextFreeIndex (by omega) (by omega), ← hn']
    exact hchain.set _ (by simp)

theorem freeAllEntries_objects (i : ℕ) : ∀ (n : ℕ) (t : KHandleTable O),
    (∀ o : O, t.objects[i]? ≠ some (some o)) → ∀ o : O, (freeAllEntries n t).objects[i]? ≠ some (some o)
  | 0, _, h => h
  | n + 1, t, h => by
    intro o
    unfold freeAllEntries
    rw [getElem?_set]
    split_ifs
    · simp
    · simp
    · exact freeAllEntries_objects i n t h o

theorem freeAllEntries_rest : ∀ (n : ℕ) (t : KHandleTable O),
    (freeAllEntries n t).tableSize = t.tableSize ∧ (freeAllEntries n t).count = t.count ∧
      (freeAllEntries n t).nextLinearId = t.nextLinearId
  | 0, _ => ⟨rfl, rfl, rfl⟩
  | n + 1, t => freeAllEntries_rest n t

/-- All entries of a table that is constructed are freed. -/
theorem freeAllEntries_inv {n : ℕ} (hn : n ≤ MaxTableSize) :
    Inv (freeAllEntries n { (initialTable : KHandleTable O) with
      maxCount := 0, tableSize := n, nextLinearId := MinLinearId, count := 0, freeHeadIndex := -1 })
      (List.range n).reverse [] [] ∅ := by
  set t₀ : KHandleTable O := { (initialTable : KHandleTable O) with
    maxCount := 0, tableSize := n, nextLinearId := MinLinearId, count := 0, freeHeadIndex := -1 } with ht₀
  have hinfos : t₀.entryInfos.length = MaxTableSize := length_replicate
  have hobjs : t₀.objects.length = MaxTableSize := length_replicate
  have hnone : ∀ (i : ℕ) (o : O), t₀.objects[i]? ≠ some (some o) := by
    intro i o
    show (List.replicate MaxTableSize none)[i]? ≠ _
    rw [getElem?_replicate]
    split_ifs <;> simp
  obtain ⟨h1, h2⟩ := freeAllEntries_length n t₀
  obtain ⟨h3, h4, h5⟩ := freeAllEntries_rest n t₀
  refine ⟨⟨h3.trans_le hn, h1.trans hinfos, h2.trans hobjs, (freeAllEntries_chain n t₀ hn hinfos rfl).1, ?_, ?_, ?_,
    h4, ?_⟩, ⟨?_, ?_⟩, ?_⟩
  · simpa using nodup_reverse.mpr nodup_range
  · intro i
    rw [h3]
    simp [ht₀]
  · simp
  · rw [h5]
    exact ⟨Nat.one_pos, (by decide : MinLinearId ≤ MaxLinearId)⟩
  · intro i o
    simpa using freeAllEntries_objects i n t₀ (hnone i) o
  · simp
  · simp

theorem initializeTable_inv {size : ℤ} (h : initialTable.initializeTable size = some t) :
    Inv (O := O) t (List.range t.tableSize).reverse [] [] ∅ := by
  unfold initializeTable at h
  split_ifs at h with hsize hle
  all_goals
    obtain rfl := Option.some.inj h
    rw [(freeAllEntries_rest _ _).1]
  · exact freeAllEntries_inv le_rfl
  · refine freeAllEntries_inv ?_
    omega

theorem Reaches.inv (hr : Reaches t reserved live stale) : ∃ free, Inv t free reserved live stale := by
  induction hr with
  | initial hrun => exact ⟨_, initializeTable_inv hrun⟩
  | @add t t' reserved live stale o h hr hrun ih =>
    obtain ⟨free, hinv⟩ := ih
    by_cases hc : t.count < t.tableSize
    · obtain ⟨h', t'', free', hrun', hinv'⟩ := hinv.add o hc
      obtain ⟨heq, rfl⟩ := Prod.mk.inj (Option.some.inj (hrun'.symm.trans hrun))
      obtain rfl := Option.some.inj heq
      exact ⟨free', hinv'⟩
    · unfold KHandleTable.add at hrun
      rw [if_neg hc] at hrun
      exact absurd hrun (by simp)
  | @addFull t t' reserved live stale o hr hrun ih =>
    obtain ⟨free, hinv⟩ := ih
    by_cases hc : t.count < t.tableSize
    · obtain ⟨h', t'', free', hrun', hinv'⟩ := hinv.add o hc
      exact absurd (hrun'.symm.trans hrun) (by simp)
    · unfold KHandleTable.add at hrun
      rw [if_neg hc] at hrun
      obtain ⟨-, rfl⟩ := Prod.mk.inj (Option.some.inj hrun)
      exact ⟨free, hinv⟩
  | @reserve t t' reserved live stale h hr hrun ih =>
    obtain ⟨free, hinv⟩ := ih
    by_cases hc : t.count < t.tableSize
    · obtain ⟨h', t'', free', hrun', hinv'⟩ := hinv.reserve hc
      obtain ⟨heq, rfl⟩ := Prod.mk.inj (Option.some.inj (hrun'.symm.trans hrun))
      obtain rfl := Option.some.inj heq
      exact ⟨free', hinv'⟩
    · unfold KHandleTable.reserve at hrun
      rw [if_neg hc] at hrun
      exact absurd hrun (by simp)
  | @reserveFull t t' reserved live stale hr hrun ih =>
    obtain ⟨free, hinv⟩ := ih
    by_cases hc : t.count < t.tableSize
    · obtain ⟨h', t'', free', hrun', hinv'⟩ := hinv.reserve hc
      exact absurd (hrun'.symm.trans hrun) (by simp)
    · unfold KHandleTable.reserve at hrun
      rw [if_neg hc] at hrun
      obtain ⟨-, rfl⟩ := Prod.mk.inj (Option.some.inj hrun)
      exact ⟨free, hinv⟩
  | register hr hh hrun ih =>
    obtain ⟨free, hinv⟩ := ih
    obtain ⟨t'', hrun', hinv'⟩ := hinv.register hh _
    obtain rfl := Option.some.inj (hrun'.symm.trans hrun)
    exact ⟨free, hinv'⟩
  | unreserve hr hh hrun ih =>
    obtain ⟨free, hinv⟩ := ih
    obtain ⟨t'', hrun', hinv'⟩ := hinv.unreserve hh
    obtain rfl := Option.some.inj (hrun'.symm.trans hrun)
    exact ⟨_, hinv'⟩
  | @remove t t' reserved live stale h hr hrun ih =>
    obtain ⟨free, hinv⟩ := ih
    rcases hinv.remove h with hrun' | ⟨t'', hrun', -, hinv'⟩
    · exact absurd (hrun'.symm.trans hrun) (by simp)
    · obtain ⟨-, rfl⟩ := Prod.mk.inj (Option.some.inj (hrun'.symm.trans hrun))
      exact ⟨_, hinv'⟩
  | @removeInvalid t t' reserved live stale h hr hrun ih =>
    obtain ⟨free, hinv⟩ := ih
    rcases hinv.remove h with hrun' | ⟨t'', hrun', -, hinv'⟩
    · obtain ⟨-, rfl⟩ := Prod.mk.inj (Option.some.inj (hrun'.symm.trans hrun))
      exact ⟨free, hinv⟩
    · exact absurd (hrun'.symm.trans hrun) (by simp)

theorem Inv.occupied_iff (hinv : Inv t free reserved live stale) (i : ℕ) :
    Occupied t reserved i ↔ i ∈ (reserved ++ live.map Prod.fst).map Handle.index := by
  unfold Occupied
  simp only [hinv.holds.objects, map_append, mem_append, mem_map, Prod.exists]
  constructor
  · rintro (⟨o, h, hl, hi⟩ | ⟨h, hh, hi⟩)
    · exact .inr ⟨h, ⟨h, o, hl, rfl⟩, hi⟩
    · exact .inl ⟨h, hh, hi⟩
  · rintro (⟨h, hh, hi⟩ | ⟨h, ⟨h', o, hl, rfl⟩, hi⟩)
    · exact .inr ⟨h, hh, hi⟩
    · exact .inl ⟨o, h', hl, hi⟩

/-- **The handle table keeps its handles apart.** In every run the free list is acyclic and has exactly
the entries that are neither registered nor reserved, the others are counted, the live handles are
distinct and resolve to their objects, removed ones resolve to nothing until they are given out
again, and no call goes wrong. -/
theorem Reaches.handles (hr : Reaches t reserved live stale) :
    (∃ free, FreeChain t.entryInfos t.freeHeadIndex free ∧ free.Nodup ∧
      ∀ i, i ∈ free ↔ i < t.tableSize ∧ ¬ Occupied t reserved i) ∧
    t.count = {i | Occupied t reserved i}.ncard ∧
    (live.map Prod.fst).Nodup ∧
    (∀ p ∈ live, t.getObjectImpl p.1 = some p.2) ∧
    (∀ h ∈ stale, t.getObjectImpl h = none) ∧
    (∀ o, (t.add o).isSome) ∧ t.reserve.isSome ∧
    (∀ h ∈ reserved, (t.unreserve h).isSome ∧ ∀ o, (t.register h o).isSome) ∧
    ∀ h, (t.remove h).isSome := by
  obtain ⟨free, hinv⟩ := hr.inv
  have hnodup := nodup_append.mp hinv.slots.nodup
  refine ⟨⟨free, hinv.slots.chain, hnodup.1, fun i => ?_⟩, ?_, ?_, ?_, ?_, ?_, ?_, ?_, ?_⟩
  · rw [hinv.occupied_iff, ← hinv.slots.mem, mem_append]
    constructor
    · exact fun hi => ⟨.inl hi, fun hi' => hnodup.2.2 i hi i hi' rfl⟩
    · exact fun hi => hi.1.resolve_right hi.2
  · have hset : {i | Occupied t reserved i} = ((reserved ++ live.map Prod.fst).map Handle.index).toFinset := by
      ext i
      simp only [Set.mem_ofPred_eq, hinv.occupied_iff, coe_toFinset]
    rw [hset, Set.ncard_coe_finset, toFinset_card_of_nodup hnodup.2.1, length_map, hinv.slots.count]
  · exact (nodup_append.mp (List.Nodup.of_map _ hnodup.2.1)).2.1
  · exact fun p hp => hinv.getObjectImpl_eq.mpr hp
  · exact fun h hh => hinv.getObjectImpl_stale hh
  · intro o
    by_cases hc : t.count < t.tableSize
    · obtain ⟨h, t', free', hrun, -⟩ := hinv.add o hc
      rw [hrun]
      rfl
    · unfold KHandleTable.add
      rw [if_neg hc]
      rfl
  · by_cases hc : t.count < t.tableSize
    · obtain ⟨h, t', free', hrun, -⟩ := hinv.reserve hc
      rw [hrun]
      rfl
    · unfold KHandleTable.reserve
      rw [if_neg hc]
      rfl
  · intro h hh
    refine ⟨?_, fun o => ?_⟩
    · obtain ⟨t', hrun, -⟩ := hinv.unreserve hh
      rw [hrun]
      rfl
    · obtain ⟨t', hrun, -⟩ := hinv.register hh o
      rw [hrun]
      rfl
  · intro h
    rcases hinv.remove h with hrun | ⟨t', hrun, -⟩
    · rw [hrun]
      rfl
    · rw [hrun]
      rfl

/-- A table of four entries with an object added. -/
theorem handles_of_four : ∃ (t : KHandleTable ℕ) (h : Handle), Reaches t [] [(h, 7)] (∅ \ {h}) ∧
    t.getObjectImpl h = some 7 ∧ t.count = {i | Occupied t [] i}.ncard := by
  obtain ⟨t₀, hrun₀⟩ : ∃ t₀, (initialTable : KHandleTable ℕ).initializeTable 4 = some t₀ := ⟨_, rfl⟩
  have hc : t₀.count < t₀.tableSize := by
    obtain rfl := Option.some.inj hrun₀
    decide
  obtain ⟨h, t, free, hrun, -⟩ := (initializeTable_inv hrun₀).add 7 hc
  have hr : Reaches t [] [(h, 7)] (∅ \ {h}) := .add (.initial hrun₀) hrun
  obtain ⟨-, hcount, -, hlive, -⟩ := Reaches.handles hr
  exact ⟨t, h, hr, hlive _ mem_cons_self, hcount⟩

end Run

end KHandleTable
end Kernel
end Citron
