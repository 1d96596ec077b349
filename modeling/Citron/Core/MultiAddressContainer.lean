/-
# The chains of device pages

The entries of `MultiAddressContainer` are in chains or on the free list, each once. An operation moves
entries between one chain and the free list and leaves the other chains as they are.
-/
import Citron.Core.DeviceMemoryManager
import Citron.Lib.LinkedLists
import Mathlib.Order.Interval.Finset.Nat
import Mathlib.Data.Finset.Card
import Mathlib.Data.List.Perm.Subperm
import Mathlib.Data.List.Range

namespace Citron
namespace Core
namespace DeviceMemory
namespace MultiAddressContainer

open Lib List Function Option

variable {c c' : MultiAddressContainer} {L : ℕ → List (ℕ × ℕ)} {spare spare' : List ℕ}

/-- An entry as a cell of a linked list. -/
def cell (c : MultiAddressContainer) (entry : ℕ) : Option (ℕ × ℕ) := (c.entry? entry).map fun e => (e.nextEntry, e.value)

variable {entry value fuel x v i P bound : ℕ}

theorem entry?_of_cell {next : ℕ} (h : c.cell entry = some (next, value)) : c.entry? entry = some ⟨next, value⟩ := by
  obtain ⟨⟨n, v⟩, hentry, hpair⟩ := map_eq_some_iff.mp h
  obtain ⟨rfl, rfl⟩ := Prod.mk.inj hpair
  exact hentry

/-! ### The walks along a chain -/

variable {l post : List (ℕ × ℕ)}

theorem gatherFrom_linked (h : Linked c.cell l) (hne : l ≠ []) (hfuel : l.length ≤ fuel) :
    c.gatherFrom fuel (startOf l) = some (l.map Prod.snd) := by
  induction l generalizing fuel with
  | nil => exact absurd rfl hne
  | cons p l ih =>
    obtain ⟨hi, hcell, htail⟩ := h
    obtain ⟨fuel, rfl⟩ : ∃ n, fuel = n + 1 := ⟨fuel - 1, by simp only [length_cons] at hfuel; omega⟩
    have hentry := entry?_of_cell hcell
    rw [startOf_cons, gatherFrom]
    by_cases hl : l = []
    · subst hl
      simp [hentry, startOf]
    · have hnext : startOf l ≠ 0 := fun hzero => hl (htail.startOf_eq_zero.mp hzero)
      have hrest := ih htail hl (Nat.le_of_succ_le_succ hfuel)
      simp [hentry, hnext, hrest]

theorem lastEntry_linked (h : Linked c.cell (l ++ [(x, v)])) (hfuel : l.length < fuel) :
    c.lastEntry fuel (startOf (l ++ [(x, v)])) = some x := by
  induction l generalizing fuel with
  | nil =>
    obtain ⟨fuel, rfl⟩ : ∃ n, fuel = n + 1 := ⟨fuel - 1, by omega⟩
    have hentry := entry?_of_cell h.2.1
    rw [nil_append, startOf_cons, lastEntry]
    simp [hentry, startOf]
  | cons p l ih =>
    obtain ⟨hi, hcell, htail⟩ := h
    obtain ⟨fuel, rfl⟩ : ∃ n, fuel = n + 1 := ⟨fuel - 1, by omega⟩
    have hentry := entry?_of_cell hcell
    have hnext : startOf (l ++ [(x, v)]) ≠ 0 := fun hzero =>
      append_ne_nil_of_right_ne_nil l (cons_ne_nil _ _) (htail.startOf_eq_zero.mp hzero)
    have hrest := ih htail (Nat.lt_of_succ_lt_succ hfuel)
    rw [cons_append, startOf_cons, lastEntry]
    simpa [hentry, hnext] using hrest

/-- The entry before the one that is found. -/
def before (previous : ℕ) (l : List (ℕ × ℕ)) : ℕ := l.foldl (fun _ p => p.1) previous

theorem findValue_linked (h : Linked c.cell (l ++ (i, v) :: post)) (hfirst : ∀ p ∈ l, p.2 ≠ v) (hfuel : l.length < fuel) (previous count : ℕ) :
    c.findValue v fuel (startOf (l ++ (i, v) :: post)) previous count = some (i, before previous l, count + l.length) := by
  induction l generalizing fuel previous count with
  | nil =>
    obtain ⟨fuel, rfl⟩ : ∃ n, fuel = n + 1 := ⟨fuel - 1, by omega⟩
    have hentry := entry?_of_cell h.2.1
    rw [nil_append, startOf_cons, findValue]
    simp [hentry, before]
  | cons p l ih =>
    obtain ⟨j, u⟩ := p
    obtain ⟨hj, hcell, htail⟩ := h
    obtain ⟨fuel, rfl⟩ : ∃ n, fuel = n + 1 := ⟨fuel - 1, by omega⟩
    have hentry := entry?_of_cell hcell
    have huv : u ≠ v := hfirst (j, u) mem_cons_self
    have hrest := ih htail (fun q hq => hfirst q (mem_cons_of_mem _ hq)) (Nat.lt_of_succ_lt_succ hfuel) j (count + 1)
    have hturn : c.findValue v (fuel + 1) j previous count = c.findValue v fuel (startOf (l ++ (i, v) :: post)) j (count + 1) := by
      rw [findValue]
      simp only [hentry, bind_eq_bind, bind_some, ne_eq, huv, not_false_eq_true, if_true]
      rfl
    have hcount : count + 1 + l.length = count + ((j, u) :: l).length := by
      rw [length_cons]
      omega
    rw [cons_append, startOf_cons, hturn, hrest, hcount, before, before, foldl_cons]

/-! ### The entries, in chains and free -/

/-- The chains, the entries in flight and the free list hold each entry of the storage once. -/
structure Chains (c : MultiAddressContainer) (L : ℕ → List (ℕ × ℕ)) (spare : List ℕ) : Prop where
  linked : ∀ P, Linked c.cell (L P)
  nodup : ∀ P, ((L P).map Prod.fst ++ (spare ++ c.freeEntries)).Nodup
  disjoint : ∀ P Q i, i ∈ (L P).map Prod.fst → i ∈ (L Q).map Prod.fst → P = Q
  cover : ∀ i, (i ≠ 0 ∧ i ≤ c.storage.length) ↔ i ∈ spare ++ c.freeEntries ∨ ∃ P, i ∈ (L P).map Prod.fst

theorem Chains.length_le (h : Chains c L spare) (P : ℕ) : (L P).length ≤ c.storage.length := by
  have hnodup := (nodup_append.mp (h.nodup P)).1
  have hsub : (L P).map Prod.fst ⊆ List.range' 1 c.storage.length := by
    intro i hi
    obtain ⟨hi0, hle⟩ := (h.cover i).mpr (.inr ⟨P, hi⟩)
    rw [mem_range'_1]
    omega
  have hlength := (hnodup.subperm hsub).length_le
  rwa [length_map, length_range'] at hlength

/-- Entries move between one chain and those that are in no chain. -/
theorem Chains.move (h : Chains c L spare) (hlength : c'.storage.length = c.storage.length)
    (hperm : (l.map Prod.fst ++ (spare' ++ c'.freeEntries)).Perm ((L P).map Prod.fst ++ (spare ++ c.freeEntries)))
    (hlinked : Linked c'.cell l) (hother : ∀ Q, Q ≠ P → ∀ p ∈ L Q, c'.cell p.1 = c.cell p.1) :
    Chains c' (update L P l) spare' where
  linked Q := by
    by_cases hQ : Q = P
    · rw [hQ, update_self]
      exact hlinked
    · rw [update_of_ne hQ]
      exact (h.linked Q).congr (hother Q hQ)
  nodup Q := by
    by_cases hQ : Q = P
    · rw [hQ, update_self]
      exact hperm.nodup_iff.mpr (h.nodup P)
    · rw [update_of_ne hQ]
      have hpool := (nodup_append.mp (hperm.nodup_iff.mpr (h.nodup P))).2.1
      obtain ⟨hids, -, hapart⟩ := nodup_append.mp (h.nodup Q)
      refine nodup_append.mpr ⟨hids, hpool, fun i hi j hj hij => ?_⟩
      subst hij
      have hmem := hperm.subset (mem_append_right _ hj)
      rcases mem_append.mp hmem with hP | hfree
      · exact hQ (h.disjoint Q P i hi hP)
      · exact hapart i hi i hfree rfl
  disjoint Q R i hi hi' := by
    have hold {S : ℕ} (hS : S ≠ P) (hin : i ∈ (L S).map Prod.fst) (hl : i ∈ l.map Prod.fst) : False := by
      have hmem := hperm.subset (mem_append_left _ hl)
      rcases mem_append.mp hmem with hP | hfree
      · exact hS (h.disjoint S P i hin hP)
      · exact (nodup_append.mp (h.nodup S)).2.2 i hin i hfree rfl
    by_cases hQ : Q = P
    · by_cases hR : R = P
      · rw [hQ, hR]
      · rw [hQ, update_self] at hi
        rw [update_of_ne hR] at hi'
        exact (hold hR hi' hi).elim
    · rw [update_of_ne hQ] at hi
      by_cases hR : R = P
      · rw [hR, update_self] at hi'
        exact (hold hQ hi hi').elim
      · rw [update_of_ne hR] at hi'
        exact h.disjoint Q R i hi hi'
  cover i := by
    rw [hlength, h.cover i]
    have hmem : i ∈ l.map Prod.fst ∨ i ∈ spare' ++ c'.freeEntries ↔ i ∈ (L P).map Prod.fst ∨ i ∈ spare ++ c.freeEntries := by
      rw [← mem_append, ← mem_append]
      exact hperm.mem_iff
    constructor
    · intro hin
      by_cases hP : i ∈ (L P).map Prod.fst ∨ i ∈ spare ++ c.freeEntries
      · rcases hmem.mpr hP with hl | hfree
        · exact .inr ⟨P, by rw [update_self]; exact hl⟩
        · exact .inl hfree
      · rcases hin with hfree | ⟨Q, hQ⟩
        · exact absurd (.inr hfree) hP
        · have hne : Q ≠ P := fun hQP => hP (.inl (hQP ▸ hQ))
          exact .inr ⟨Q, by rw [update_of_ne hne]; exact hQ⟩
    · rintro (hfree | ⟨Q, hQ⟩)
      · rcases hmem.mp (.inr hfree) with hP | hold
        · exact .inr ⟨P, hP⟩
        · exact .inl hold
      · by_cases hne : Q = P
        · rw [hne, update_self] at hQ
          rcases hmem.mp (.inl hQ) with hP | hold
          · exact .inr ⟨P, hP⟩
          · exact .inl hold
        · rw [update_of_ne hne] at hQ
          exact .inr ⟨Q, hQ⟩

/-! ### What the operations do to the entries -/

theorem setNext_cell (hx : x ≠ 0) (n j : ℕ) :
    (c.setNext x n).cell j = if j = x then (c.cell x).map fun p => (n, p.2) else c.cell j := by
  by_cases hj : j = x
  · rw [if_pos hj, hj, cell, entry?, setNext, if_neg hx]
    simp only [getElem?_modify_eq, cell, entry?, if_neg hx]
    cases c.storage[x - 1]? with
    | none => rfl
    | some e => rfl
  · rw [if_neg hj, cell, cell, entry?, entry?]
    by_cases hj0 : j = 0
    · rw [if_pos hj0, if_pos hj0]
    · have hne : x - 1 ≠ j - 1 := by omega
      rw [if_neg hj0, if_neg hj0, setNext]
      rw [getElem?_modify_ne _ _ hne]

theorem setNext_length (x n : ℕ) : (c.setNext x n).storage.length = c.storage.length := length_modify _ _ _

/-- A new entry: where it comes from and what it holds. -/
structure Takes (c : MultiAddressContainer) (L : ℕ → List (ℕ × ℕ)) (value entry : ℕ) (c' : MultiAddressContainer) : Prop where
  chains : Chains c' L [entry]
  cell : c'.cell entry = some (0, value)
  other : ∀ j, j ≠ entry → c'.cell j = c.cell j
  length : c'.storage.length = c.storage.length ∨ c.freeEntries = [] ∧ c'.storage.length = c.storage.length + 1

theorem Takes.fresh (h : Takes c L value entry c') (P : ℕ) : entry ∉ (L P).map Prod.fst := by
  intro hmem
  exact (nodup_append.mp (h.chains.nodup P)).2.2 entry hmem entry (mem_append_left _ (mem_singleton_self _)) rfl

theorem Takes.entry_ne_zero (h : Takes c L value entry c') : entry ≠ 0 :=
  ((h.chains.cover entry).mpr (.inl (mem_append_left _ (mem_singleton_self _)))).1

theorem set_cell {storage : List ChainEntry} (h0 : entry ≠ 0) (hle : entry ≤ storage.length) (value : ℕ)
    (freeEntries : List ℕ) (j : ℕ) :
    cell ⟨storage.set (entry - 1) ⟨0, value⟩, freeEntries⟩ j =
      if j = entry then some (0, value) else cell ⟨storage, freeEntries⟩ j := by
  by_cases hj : j = entry
  · rw [if_pos hj, hj, cell, entry?, if_neg h0]
    rw [getElem?_set_self (by omega)]
    rfl
  · rw [if_neg hj, cell, cell, entry?, entry?]
    by_cases hj0 : j = 0
    · rw [if_pos hj0, if_pos hj0]
    · rw [if_neg hj0, if_neg hj0]
      dsimp only
      rw [getElem?_set_ne (by omega)]

/-- A new entry comes from the free list or, when that is empty, from the end of the storage. -/
theorem Chains.take (h : Chains c L []) (value : ℕ) :
    ∃ entry c', c.registerImplementation value = (entry, c') ∧ Takes c L value entry c' := by
  cases hfree : c.freeEntries with
  | cons entry freeEntries =>
    refine ⟨entry, ⟨c.storage.set (entry - 1) ⟨0, value⟩, freeEntries⟩, ?_, ?_⟩
    · rw [registerImplementation, getNewEntry, hfree]
    · obtain ⟨h0, hle⟩ := (h.cover entry).mpr (.inl (by rw [hfree]; exact mem_cons_self))
      have hcell := set_cell h0 hle value freeEntries
      have hpool : [entry] ++ freeEntries = [] ++ c.freeEntries := hfree.symm
      have hother (j : ℕ) (hj : j ≠ entry) :
          cell ⟨c.storage.set (entry - 1) ⟨0, value⟩, freeEntries⟩ j = c.cell j := by
        rw [hcell, if_neg hj]
        rfl
      refine ⟨⟨fun P => (h.linked P).congr fun p hp => hother p.1 fun hpe => ?_, fun P => ?_, h.disjoint, fun i => ?_⟩, ?_, hother, ?_⟩
      · refine (nodup_append.mp (h.nodup P)).2.2 entry (hpe ▸ List.mem_map_of_mem hp) entry ?_ rfl
        rw [← hpool]
        exact mem_cons_self
      · rw [hpool]
        exact h.nodup P
      · rw [hpool, ← h.cover i]
        simp
      · rw [hcell, if_pos rfl]
      · exact .inl (length_set)
  | nil =>
    refine ⟨c.storage.length + 1, ⟨(c.storage ++ [(⟨0, 0⟩ : ChainEntry)]).set c.storage.length ⟨0, value⟩, []⟩, ?_, ?_⟩
    · rw [registerImplementation, getNewEntry, hfree]
      rfl
    · have hlength : c.storage.length + 1 ≤ (c.storage ++ [(⟨0, 0⟩ : ChainEntry)]).length := by simp
      have h0 : c.storage.length + 1 ≠ 0 := Nat.succ_ne_zero _
      have hcell := set_cell h0 hlength value []
      rw [Nat.add_sub_cancel] at hcell
      have hnew (P : ℕ) : c.storage.length + 1 ∉ (L P).map Prod.fst := by
        intro hmem
        have hle := ((h.cover _).mpr (.inr ⟨P, hmem⟩)).2
        omega
      have hother (j : ℕ) (hj : j ≠ c.storage.length + 1) :
          cell ⟨(c.storage ++ [(⟨0, 0⟩ : ChainEntry)]).set c.storage.length ⟨0, value⟩, []⟩ j = c.cell j := by
        rw [hcell, if_neg hj, cell, cell, entry?, entry?]
        by_cases hj0 : j = 0
        · rw [if_pos hj0, if_pos hj0]
        · rw [if_neg hj0, if_neg hj0]
          by_cases hle : j ≤ c.storage.length
          · rw [getElem?_append_left (by omega)]
          · rw [getElem?_eq_none (by simp; omega), getElem?_eq_none (by omega)]
      refine ⟨⟨fun P => (h.linked P).congr fun p hp => hother p.1 fun hpe => ?_, fun P => ?_, h.disjoint, fun i => ?_⟩, ?_, hother, ?_⟩
      · exact hnew P (hpe ▸ List.mem_map_of_mem hp)
      · refine nodup_append.mpr ⟨(nodup_append.mp (h.nodup P)).1, by simp, fun i hi j hj hij => ?_⟩
        rw [hij, mem_singleton.mp hj] at hi
        exact hnew P hi
      · have hcover := h.cover i
        rw [hfree] at hcover
        simp only [append_nil, not_mem_nil, false_or] at hcover
        rw [← hcover]
        simp only [length_set, length_append, length_singleton, append_nil, mem_singleton]
        omega
      · rw [hcell, if_pos rfl]
      · exact .inr ⟨hfree, by simp⟩

/-! ### One chain changes -/

/-- The new entry is a chain of its own. -/
theorem Takes.single (h : Takes c L value entry c') (hP : L P = []) :
    Chains c' (update L P [(entry, value)]) [] := by
  refine h.chains.move rfl ?_ ⟨h.entry_ne_zero, h.cell, trivial⟩ fun _ _ _ _ => rfl
  rw [hP]
  exact List.Perm.refl _

theorem Chains.register (h : Chains c L []) (value : ℕ) (hP : L P ≠ []) :
    ∃ entry c', c.register value (startOf (L P)) = some c' ∧ Chains c' (update L P (L P ++ [(entry, value)])) [] ∧
      (c'.storage.length = c.storage.length ∨ c.freeEntries = [] ∧ c'.storage.length = c.storage.length + 1) := by
  obtain ⟨entry, c₁, hregister, htakes⟩ := h.take value
  obtain ⟨l, ⟨x, v⟩, hl⟩ := eq_nil_or_concat' (L P) |>.resolve_left hP
  have hlinked := htakes.chains.linked P
  have hnodup := (nodup_append.mp (h.nodup P)).1
  have hfuel := htakes.chains.length_le P
  have hfresh := htakes.fresh P
  rw [hl] at hlinked hnodup hfuel hfresh
  rw [length_append, length_singleton] at hfuel
  have hx : x ≠ 0 := hlinked.of_append.1
  have hxcell : c₁.cell x = some (0, v) := hlinked.of_append.2.1
  have hxentry : entry ≠ x := fun hex => hfresh (hex ▸ by simp)
  refine ⟨entry, c₁.setNext x entry, ?_, htakes.chains.move (setNext_length x entry) ?_ ?_ ?_, ?_⟩
  · rw [MultiAddressContainer.register, hregister]
    dsimp only
    rw [hl, lastEntry_linked hlinked hfuel]
    rfl
  · rw [map_append, append_assoc]
    exact List.Perm.refl _
  · rw [hl]
    refine hlinked.concat hnodup ?_ (fun p _ hp => ?_) ?_ htakes.entry_ne_zero
    · rw [setNext_cell hx, if_pos rfl, hxcell]
      rfl
    · rw [setNext_cell hx, if_neg hp]
    · rw [setNext_cell hx, if_neg hxentry]
      exact htakes.cell
  · intro Q hQ p hp
    have hpx : p.1 ≠ x := fun hpx => hQ (h.disjoint Q P x (hpx ▸ List.mem_map_of_mem hp) (by rw [hl]; simp))
    rw [setNext_cell hx, if_neg hpx]
  · rw [setNext_length]
    exact htakes.length

theorem before_concat (previous : ℕ) (l : List (ℕ × ℕ)) (x v : ℕ) : before previous (l ++ [(x, v)]) = x := by
  rw [before, foldl_append]
  rfl

theorem moreRemaining_linked (h : Linked c.cell post) (previous : ℕ) :
    c.moreRemaining (startOf post) previous = some (decide (2 ≤ post.length ∨ previous ≠ 0 ∧ post ≠ [])) := by
  rw [moreRemaining]
  cases post with
  | nil => simp [startOf]
  | cons p post =>
    obtain ⟨j, w⟩ := p
    obtain ⟨hj, hcell, htail⟩ := h
    have hentry := entry?_of_cell hcell
    have hempty := htail.startOf_eq_zero
    cases post with
    | nil => simp [hj, hentry, startOf]
    | cons q post =>
      have hq : startOf (q :: post) ≠ 0 := fun hzero => cons_ne_nil _ _ (hempty.mp hzero)
      simp [hj, hentry, hq]

/-- The entry with the value goes to the free list. -/
theorem Chains.unregister (h : Chains c L []) {pre : List (ℕ × ℕ)} (hP : L P = pre ++ (i, v) :: post)
    (hfirst : ∀ p ∈ pre, p.2 ≠ v) :
    ∃ c', c.unregister v (startOf (L P)) = some ((decide (2 ≤ (pre ++ post).length), startOf (pre ++ post)), c') ∧
      Chains c' (update L P (pre ++ post)) [] ∧ c'.storage.length = c.storage.length := by
  have hlinked := h.linked P
  have hnodup := (nodup_append.mp (h.nodup P)).1
  have hfuel := h.length_le P
  rw [hP] at hlinked hnodup hfuel
  rw [length_append, length_cons] at hfuel
  have hfind := findValue_linked hlinked hfirst (by omega : pre.length < c.storage.length) 0 0
  obtain ⟨-, hcell, hpost⟩ := hlinked.of_append
  have hentry := entry?_of_cell hcell
  have hperm (freeEntries : List ℕ) : ((pre ++ post).map Prod.fst ++ ([] ++ (freeEntries ++ [i]))).Perm
      ((L P).map Prod.fst ++ ([] ++ freeEntries)) := by
    rw [hP]
    simp only [map_append, map_cons, nil_append, append_assoc]
    refine List.Perm.append_left _ ?_
    rw [← append_assoc]
    exact (perm_append_singleton i _).trans (List.Perm.refl _)
  have hmore := moreRemaining_linked hpost (before 0 pre)
  rcases eq_nil_or_concat' pre with rfl | ⟨l, ⟨x, u⟩, rfl⟩
  · refine ⟨{ c with freeEntries := c.freeEntries ++ [i] }, ?_, ?_, rfl⟩
    · rw [MultiAddressContainer.unregister, hP, hfind]
      simp only [bind_eq_bind, bind_some, hentry, hmore]
      simp [before]
    · exact h.move rfl (hperm c.freeEntries) hpost fun _ _ _ _ => rfl
  · have hx : x ≠ 0 := by
      rw [append_assoc] at hlinked
      exact hlinked.of_append.1
    have hxcell : c.cell x = some (i, u) := by
      rw [append_assoc] at hlinked
      exact hlinked.of_append.2.1
    rw [before_concat] at hfind hmore
    have hpre : l ++ [(x, u)] ≠ [] := append_ne_nil_of_right_ne_nil l (cons_ne_nil _ _)
    have hstart : startOf (l ++ [(x, u)] ++ (i, v) :: post) = startOf (l ++ [(x, u)] ++ post) :=
      (startOf_append_of_ne_nil hpre).trans (startOf_append_of_ne_nil hpre).symm
    have hcount : (decide (2 ≤ post.length ∨ x ≠ 0 ∧ post ≠ []) || decide (0 + (l ++ [(x, u)]).length > 1)) =
        decide (2 ≤ (l ++ [(x, u)] ++ post).length) := by
      rw [← Bool.decide_or]
      refine decide_eq_decide.mpr ?_
      rw [← length_pos_iff]
      simp only [length_append, length_singleton]
      omega
    refine ⟨{ c.setNext x (startOf post) with freeEntries := c.freeEntries ++ [i] }, ?_, ?_, setNext_length x _⟩
    · rw [MultiAddressContainer.unregister, hP, hfind]
      simp only [bind_eq_bind, bind_some, hentry, hmore, if_pos hx, hcount, hstart, Option.pure_def]
      rfl
    · have hcells (j : ℕ) : cell { c.setNext x (startOf post) with freeEntries := c.freeEntries ++ [i] } j =
          if j = x then (c.cell x).map fun p => (startOf post, p.2) else c.cell j := setNext_cell hx _ j
      refine h.move (setNext_length x _) (hperm c.freeEntries) ?_ fun Q hQ p hp => ?_
      · rw [append_assoc] at hlinked hnodup ⊢
        refine hlinked.unlink hnodup ?_ fun p _ hp => ?_
        · rw [hcells, if_pos rfl, hxcell]
          rfl
        · rw [hcells, if_neg hp]
      · have hpx : p.1 ≠ x := fun hpx => hQ (h.disjoint Q P x (hpx ▸ List.mem_map_of_mem hp) (by rw [hP]; simp))
        rw [hcells, if_neg hpx]

/-- The only entry of a chain goes to the free list. -/
theorem Chains.releaseEntry (h : Chains c L []) (hP : L P = [(i, v)]) :
    ∃ c', c.releaseEntry (startOf (L P)) = some (v, c') ∧ Chains c' (update L P []) [] ∧
      c'.storage.length = c.storage.length := by
  have hlinked := h.linked P
  rw [hP] at hlinked
  have hentry := entry?_of_cell hlinked.2.1
  refine ⟨{ c with freeEntries := c.freeEntries ++ [i] }, ?_, h.move rfl ?_ trivial fun _ _ _ _ => rfl, rfl⟩
  · rw [MultiAddressContainer.releaseEntry, hP, startOf_cons, hentry]
    rfl
  · rw [hP]
    exact perm_append_singleton i _

/-! ### How long the storage gets -/

/-- The values of the chains: each is in one chain, once, and in bounds. -/
structure Distinct (L : ℕ → List (ℕ × ℕ)) (bound : ℕ) : Prop where
  nodup : ∀ P, ((L P).map Prod.snd).Nodup
  disjoint : ∀ P Q v, v ∈ (L P).map Prod.snd → v ∈ (L Q).map Prod.snd → P = Q
  bounded : ∀ P v, v ∈ (L P).map Prod.snd → v < bound

/-- One more value in one chain. -/
theorem Distinct.insert (h : Distinct L bound) (P entry : ℕ) (hvalue : value < bound)
    (hnew : ∀ Q, value ∉ (L Q).map Prod.snd) : Distinct (update L P (L P ++ [(entry, value)])) bound := by
  have hvalues (Q v : ℕ) (hv : v ∈ (update L P (L P ++ [(entry, value)]) Q).map Prod.snd) :
      v ∈ (L Q).map Prod.snd ∨ Q = P ∧ v = value := by
    by_cases hQ : Q = P
    · rw [hQ, update_self, map_append] at hv
      rcases mem_append.mp hv with hv | hv
      · exact .inl (hQ ▸ hv)
      · exact .inr ⟨hQ, mem_singleton.mp hv⟩
    · rw [update_of_ne hQ] at hv
      exact .inl hv
  refine ⟨fun Q => ?_, fun Q R v hQ hR => ?_, fun Q v hv => ?_⟩
  · by_cases hQ : Q = P
    · rw [hQ, update_self, map_append]
      refine nodup_append.mpr ⟨h.nodup P, nodup_singleton _, fun v hv w hw hvw => ?_⟩
      rw [hvw, mem_singleton.mp hw] at hv
      exact hnew P hv
    · rw [update_of_ne hQ]
      exact h.nodup Q
  · rcases hvalues Q v hQ with hin | ⟨rfl, rfl⟩
    · rcases hvalues R v hR with hin' | ⟨-, rfl⟩
      · exact h.disjoint Q R v hin hin'
      · exact absurd hin (hnew Q)
    · rcases hvalues R v hR with hin' | ⟨rfl, -⟩
      · exact absurd hin' (hnew R)
      · rfl
  · rcases hvalues Q v hv with hin | ⟨-, rfl⟩
    · exact h.bounded Q v hin
    · exact hvalue

/-- Where no entry is free, the entries are as many as their values. -/
theorem Chains.length_lt (h : Chains c L []) (hfree : c.freeEntries = []) (hdistinct : Distinct L bound)
    (hbound : value < bound) (hnew : ∀ P, value ∉ (L P).map Prod.snd) : c.storage.length < bound := by
  let valueAt (i : ℕ) : ℕ := ((c.cell i).map Prod.snd).getD 0
  have hmem (i : ℕ) (hi : i ∈ Finset.Icc 1 c.storage.length) : ∃ P, (i, valueAt i) ∈ L P := by
    rw [Finset.mem_Icc] at hi
    rcases (h.cover i).mp ⟨by omega, hi.2⟩ with hpool | ⟨P, hP⟩
    · rw [hfree] at hpool
      cases hpool
    · obtain ⟨⟨j, v⟩, hjv, rfl⟩ := List.mem_map.mp hP
      obtain ⟨n, hcell⟩ := (h.linked P).cell_of_mem hjv
      have hvalue : valueAt j = v := by simp only [valueAt, hcell, map_some, getD_some]
      exact ⟨P, hvalue ▸ hjv⟩
  have hmaps : Set.MapsTo valueAt (Finset.Icc 1 c.storage.length) ((Finset.range bound).erase value) := by
    intro i hi
    obtain ⟨P, hP⟩ := hmem i hi
    have hvalue : valueAt i ∈ (L P).map Prod.snd := List.mem_map_of_mem hP
    refine Finset.mem_coe.mpr (Finset.mem_erase.mpr ⟨fun heq => hnew P (heq ▸ hvalue), Finset.mem_range.mpr ?_⟩)
    exact hdistinct.bounded P _ hvalue
  have hinj : Set.InjOn valueAt (Finset.Icc 1 c.storage.length) := by
    intro i hi j hj hij
    obtain ⟨P, hP⟩ := hmem i hi
    obtain ⟨Q, hQ⟩ := hmem j hj
    have hvalue : valueAt i ∈ (L P).map Prod.snd := List.mem_map_of_mem hP
    have hvalue' : valueAt i ∈ (L Q).map Prod.snd := hij ▸ List.mem_map_of_mem hQ
    obtain rfl := hdistinct.disjoint P Q _ hvalue hvalue'
    exact congrArg Prod.fst (inj_on_of_nodup_map (hdistinct.nodup P) hP hQ hij)
  have hcard := Finset.card_le_card_of_injOn valueAt hmaps hinj
  rw [Nat.card_Icc, Finset.card_erase_of_mem (Finset.mem_range.mpr hbound), Finset.card_range] at hcard
  omega

end MultiAddressContainer
end DeviceMemory
end Core
end Citron
