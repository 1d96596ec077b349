/-
# The update loops and the coalescing as list functions

On a tree whose blocks tile the address space (`Spans`), the loop that the
four operations of the manager share computes `rewriteFrom`: the blocks of
the range that `skip` does not accept, cut to the range and changed by `upd`
(`updateLoop_eq`).
-/
import Citron.Kernel.MemoryBlockManager
import Citron.Lib.Tiling

namespace Citron
namespace Kernel

open Lib List

/-- The blocks lie side by side from `a` to `e`. -/
abbrev Spans (a : ℕ) (l : List KMemoryBlock) (e : ℕ) : Prop :=
  Tiles KMemoryBlock.address KMemoryBlock.getEndAddress a l e

/-- The block that holds the address. -/
abbrev blockAt (l : List KMemoryBlock) (p : ℕ) : Option KMemoryBlock :=
  tileAt KMemoryBlock.address KMemoryBlock.getEndAddress l p

/-- The address lies inside a block, away from its start. -/
abbrev CutsBlock (l : List KMemoryBlock) (p : ℕ) : Prop :=
  Cuts KMemoryBlock.address KMemoryBlock.getEndAddress l p

theorem Spans.dvd {e : ℕ} : ∀ {l : List KMemoryBlock} {a : ℕ}, Spans a l e → PageSize ∣ a →
    (∀ b ∈ l, PageSize ∣ b.address) ∧ PageSize ∣ e
  | [], _, h, hd => ⟨by simp, h ▸ hd⟩
  | b :: l, a, ⟨h1, h2, h3⟩, hd => by
    have hb : PageSize ∣ b.address := h1 ▸ hd
    have he : PageSize ∣ b.getEndAddress := Nat.dvd_add hb (Nat.dvd_mul_left ..)
    obtain ⟨h4, h5⟩ := Spans.dvd h3 he
    exact ⟨fun c hc => by rcases mem_cons.mp hc with rfl | hc; exacts [hb, h4 c hc], h5⟩

/-! ### Splitting a block -/

namespace KMemoryBlock

/-- What `Split` puts into the new block. -/
abbrev leftPart (b : KMemoryBlock) (addr : ℕ) : KMemoryBlock := (b.split addr).1

/-- What `Split` leaves of the block. -/
abbrev rightPart (b : KMemoryBlock) (addr : ℕ) : KMemoryBlock := (b.split addr).2

@[simp] theorem leftPart_address (b : KMemoryBlock) (addr : ℕ) :
    (b.leftPart addr).address = b.address := rfl

@[simp] theorem rightPart_address (b : KMemoryBlock) (addr : ℕ) :
    (b.rightPart addr).address = addr := rfl

theorem leftPart_end {b : KMemoryBlock} {addr : ℕ} (h : b.address ≤ addr)
    (hb : PageSize ∣ b.address) (ha : PageSize ∣ addr) :
    (b.leftPart addr).getEndAddress = addr := by
  have := Nat.div_mul_cancel (Nat.dvd_sub ha hb)
  simp only [leftPart, split, getEndAddress, getSize, this]
  omega

theorem rightPart_end {b : KMemoryBlock} {addr : ℕ} (h : b.address ≤ addr)
    (h' : addr ≤ b.getEndAddress) (hb : PageSize ∣ b.address) (ha : PageSize ∣ addr) :
    (b.rightPart addr).getEndAddress = b.getEndAddress := by
  have := Nat.div_mul_cancel (Nat.dvd_sub ha hb)
  simp only [rightPart, split, getEndAddress, getSize, Nat.sub_mul, this] at h' ⊢
  omega

end KMemoryBlock

/-! ### Places in the tree -/

section Places

variable {a x e p : ℕ} {l₁ : List KMemoryBlock} (l₂ : List KMemoryBlock) {b c : KMemoryBlock}

theorem compare_gt_of_end_le (h : c.getEndAddress ≤ b.address) (hc : c.address < c.getEndAddress) :
    b.compare c = .gt := by
  have h1 : ¬ b.address < c.address := by omega
  have h2 : ¬ b.address ≤ c.getLastAddress := by unfold KMemoryBlock.getLastAddress; omega
  simp [KMemoryBlock.compare, h1, h2]

theorem compare_lt_of_lt (h : b.address < c.address) : b.compare c = .lt := by
  simp [KMemoryBlock.compare, h]

theorem compare_eq_of_inside (h1 : c.address ≤ b.address) (h2 : b.address < c.getEndAddress) :
    b.compare c = .eq := by
  have h3 : ¬ b.address < c.address := by omega
  have h4 : b.address ≤ c.getLastAddress := by unfold KMemoryBlock.getLastAddress; omega
  simp [KMemoryBlock.compare, h3, h4]

variable {P : KMemoryBlock → Bool}

theorem takeWhile_append_cons (h : ∀ d ∈ l₁, P d = true) (hb : P b = false) : (l₁ ++ b :: l₂).takeWhile P = l₁ := by
  rw [takeWhile_append_of_pos h]; simp [hb]

theorem dropWhile_append_cons (h : ∀ d ∈ l₁, P d = true)
    (hb : P b = false) : (l₁ ++ b :: l₂).dropWhile P = b :: l₂ := by
  rw [dropWhile_append_of_pos h]; simp [hb]

theorem insert_between (hl : Spans a l₁ b.address) (hlt : b.address < c.address) :
    insert (l₁ ++ c :: l₂) b = .ok ⟨l₁, b :: c :: l₂⟩ := by
  have hgt : ∀ d ∈ l₁, (b.compare d == .gt) = true := fun d hd => by
    obtain ⟨-, h1, h2⟩ := hl.bounds d hd
    rw [compare_gt_of_end_le h2 h1]; rfl
  have hc : (b.compare c == .gt) = false := by rw [compare_lt_of_lt hlt]; rfl
  simp only [insert, takeWhile_append_cons l₂ hgt hc, dropWhile_append_cons l₂ hgt hc,
    compare_lt_of_lt hlt]
  rfl

theorem findIterator_eq (hl : Spans a l₁ b.address) (h1 : b.address ≤ p) (h2 : p < b.getEndAddress) :
    findIterator (l₁ ++ b :: l₂) p = ⟨l₁, b :: l₂⟩ := by
  set key := KMemoryBlock.ofRange p 1 .free .none .none with hkey
  have hne : ∀ d ∈ l₁, (key.compare d != .eq) = true := fun d hd => by
    obtain ⟨-, h3, h4⟩ := hl.bounds d hd
    rw [compare_gt_of_end_le (by simp only [hkey, KMemoryBlock.ofRange]; omega) h3]; rfl
  have hb : (key.compare b != .eq) = false := by rw [compare_eq_of_inside h1 h2]; rfl
  simp only [findIterator, ← hkey, takeWhile_append_cons l₂ hne hb, dropWhile_append_cons l₂ hne hb]

end Places

/-! ### The update loop -/

/-- What the loops make of one block: a block of `[start, stop)` that `skip`
does not accept is cut to the range, and changed there by `upd`. -/
def pieces (skip : KMemoryBlock → Bool) (upd : KMemoryBlock → KMemoryBlock) (start stop : ℕ)
    (b : KMemoryBlock) : List KMemoryBlock :=
  if b.getEndAddress ≤ start ∨ stop ≤ b.address ∨ skip b then [b]
  else
    let (l, m) := if b.address < start then ([b.leftPart start], b.rightPart start) else ([], b)
    let (m, r) := if stop < b.getEndAddress then (m.leftPart stop, [m.rightPart stop]) else (m, [])
    l ++ upd m :: r

/-- `upd` changes neither the place nor the size of a block. -/
def KeepsPlace (upd : KMemoryBlock → KMemoryBlock) : Prop :=
  ∀ b, (upd b).address = b.address ∧ (upd b).numPages = b.numPages

section Loop

variable {skip : KMemoryBlock → Bool} {upd : KMemoryBlock → KMemoryBlock} {a e start stop : ℕ}

theorem KeepsPlace.address (h : KeepsPlace upd) (b : KMemoryBlock) :
    (upd b).address = b.address := (h b).1

theorem KeepsPlace.getEndAddress (h : KeepsPlace upd) (b : KMemoryBlock) :
    (upd b).getEndAddress = b.getEndAddress := by
  simp [KMemoryBlock.getEndAddress, KMemoryBlock.getSize, (h b).1, (h b).2]

variable {l bs cs target : List KMemoryBlock}

/-- The blocks away from the range stay as they are. -/
theorem pieces_flatMap_of_le (h : Spans a l e) (ha : stop ≤ a) :
    l.flatMap (pieces skip upd start stop) = l := by
  induction l generalizing a with
  | nil => rfl
  | cons b l ih =>
    have hb : stop ≤ b.address := h.1 ▸ ha
    have hl := ih h.2.2 (by have := h.2.1; omega)
    simp [flatMap_cons, pieces, hb, hl]

theorem pieces_flatMap_of_ge (h : Spans a l e) (he : e ≤ start) :
    l.flatMap (pieces skip upd start stop) = l := by
  induction l generalizing a with
  | nil => rfl
  | cons b l ih =>
    have hb : b.getEndAddress ≤ start := h.2.2.le.trans he
    simp [flatMap_cons, pieces, hb, ih h.2.2]

/-- No block to the right of a border is cut by it. -/
theorem not_cutsBlock_of_le {x p : ℕ} (h : Spans x l e) (hp : p ≤ x) :
    ¬ CutsBlock l p := by
  rintro ⟨b, hb, h1, -⟩
  have := (h.bounds b hb).1
  omega

variable {s : UpdateState}

/-- A split before the range: one block from the allocator, and the place
moves to the part of the block that lies in the range. -/
theorem splitBefore_eq {b c : KMemoryBlock} (hit : s.it = ⟨l, b :: bs⟩) (hall : s.allocator.blocks = c :: cs)
    (hl : Spans a l b.address) (hlt : b.address < s.curAddress) :
    splitBefore s = .ok { s with
      allocator := ⟨cs⟩
      it := ⟨l ++ [b.leftPart s.curAddress], b.rightPart s.curAddress :: bs⟩ } := by
  have hins := insert_between bs (b := b.leftPart s.curAddress) (c := b.rightPart s.curAddress)
    hl hlt
  simp only [splitBefore, hit, Iterator.deref, bind, Except.bind, pure, Except.pure,
    if_pos (Nat.ne_of_lt hlt), KMemoryBlockManagerUpdateAllocator.allocate, hall, Iterator.tree,
    Iterator.set, tail_cons, hins, Iterator.next]
  rfl

theorem splitBefore_of_eq {b : KMemoryBlock}
    (hit : s.it = ⟨l, b :: bs⟩) (h : b.address = s.curAddress) : splitBefore s = .ok s := by
  simp [splitBefore, hit, Iterator.deref, bind, Except.bind, pure, Except.pure, h]

/-- A split after the range: one block from the allocator, and the place is
the part of the block that lies in the range. -/
theorem splitAfter_eq {b c : KMemoryBlock} (size : ℕ) (hit : s.it = ⟨l, b :: bs⟩)
    (hall : s.allocator.blocks = c :: cs) (hl : Spans a l b.address) (hcur : b.address = s.curAddress)
    (hsize : size < b.getSize) (hpos : 0 < size) :
    splitAfter size s = .ok { s with
      allocator := ⟨cs⟩
      it := ⟨l, b.leftPart (s.curAddress + size) :: b.rightPart (s.curAddress + size) :: bs⟩ } := by
  have hins := insert_between bs (b := b.leftPart (s.curAddress + size))
    (c := b.rightPart (s.curAddress + size)) hl (by
      simp only [KMemoryBlock.leftPart_address, KMemoryBlock.rightPart_address]; omega)
  simp only [splitAfter, hit, Iterator.deref, bind, Except.bind, pure, Except.pure, gt_iff_lt,
    if_pos hsize, KMemoryBlockManagerUpdateAllocator.allocate, hall, Iterator.tree, Iterator.set,
    tail_cons, hins]

theorem splitAfter_of_le {b : KMemoryBlock} {size : ℕ}
    (hit : s.it = ⟨l, b :: bs⟩) (h : b.getSize ≤ size) : splitAfter size s = .ok s := by
  simp [splitAfter, hit, Iterator.deref, bind, Except.bind, pure, Except.pure, Nat.not_lt.mpr h]

theorem updateBlock_eq {b : KMemoryBlock} (hit : s.it = ⟨l, b :: bs⟩) :
    updateBlock upd s = .ok ⟨s.allocator, ⟨l ++ [upd b], bs⟩, s.curAddress + b.getSize,
      s.remainingPages - b.numPages⟩ := by
  simp only [updateBlock, hit, Iterator.deref, Iterator.set, Iterator.next, bind, Except.bind, pure,
    Except.pure, tail_cons]

/-- What the loop keeps: the tree tiles the address space, the place is the
block of the next page to be treated, the allocator has a block for every end
of what is left that lies inside a block, and the treated part followed by the
pieces of the rest is `target`. -/
structure LoopInv (skip : KMemoryBlock → Bool) (upd : KMemoryBlock → KMemoryBlock)
    (a e start stop : ℕ) (target : List KMemoryBlock) (s : UpdateState) : Prop where
  place : ∃ x, Spans a s.it.before x ∧ Spans x s.it.rest e ∧
    (0 < s.remainingPages → x ≤ s.curAddress ∧ (x < s.curAddress → s.curAddress = start) ∧
      ∀ b ∈ s.it.rest.head?, s.curAddress < b.getEndAddress) ∧
    (s.remainingPages = 0 → stop ≤ x)
  pages : s.curAddress + s.remainingPages * PageSize = stop
  start_le : start ≤ s.curAddress
  start_dvd : PageSize ∣ a
  cur_dvd : PageSize ∣ s.curAddress
  stop_le : stop ≤ e
  room : 0 < s.remainingPages →
    (if CutsBlock s.it.rest s.curAddress then 1 else 0) + (if CutsBlock s.it.rest stop then 1 else 0) ≤
      s.allocator.blocks.length
  tree : s.it.before ++ s.it.rest.flatMap (pieces skip upd start stop) = target

/-- In the loop the place is a block that holds the current page. -/
theorem LoopInv.at_block (h : LoopInv skip upd a e start stop target s) (hpos : 0 < s.remainingPages) :
    ∃ b bs, s.it = ⟨s.it.before, b :: bs⟩ ∧ Spans a s.it.before b.address ∧
      Spans b.getEndAddress bs e ∧ b.address ≤ s.curAddress ∧ s.curAddress < b.getEndAddress ∧
      (b.address < s.curAddress → s.curAddress = start) ∧
      PageSize ∣ b.address ∧ PageSize ∣ b.getEndAddress := by
  obtain ⟨x, hl, hr, hx, -⟩ := h.place
  obtain ⟨hx1, hx2, hx3⟩ := hx hpos
  have hlt : x < e := by
    have hp := h.pages
    have := h.stop_le
    simp only [PageSize] at hp
    omega
  obtain ⟨b, bs, hb, rfl, hb2, hb3⟩ := hr.exists_cons hlt
  have hbd : PageSize ∣ b.address := (Spans.dvd hl h.start_dvd).2
  refine ⟨b, bs, by rw [← hb], hl, hb3, hx1, hx3 b (by rw [hb]; rfl), hx2, hbd, ?_⟩
  exact Nat.dvd_add hbd (Nat.dvd_mul_left ..)

/-- The end of the first block after a border is past the border. -/
theorem head_end_of_spans {x : ℕ} (h : Spans x l e) :
    ∀ b ∈ l.head?, x < b.getEndAddress := by
  cases l with
  | nil => simp
  | cons c l => simpa using h.2.1

/-- The room that is left once the block at the place is done. -/
theorem room_tail {b : KMemoryBlock} {n p : ℕ}
    (h : (if CutsBlock (b :: bs) p then 1 else 0) ≤ n) (hr : Spans b.getEndAddress bs e) :
    (if CutsBlock bs b.getEndAddress then 1 else 0) + (if CutsBlock bs p then 1 else 0) ≤ n := by
  rw [if_neg (not_cutsBlock_of_le hr le_rfl)]
  by_cases hc : CutsBlock bs p
  · rw [if_pos (cuts_cons.mpr (.inr hc))] at h
    rw [if_pos hc]
    exact h
  · rw [if_neg hc]
    omega

/-- A turn that leaves the block as it is. -/
theorem updateStep_skip (h : LoopInv skip upd a e start stop target s) (hpos : 0 < s.remainingPages)
    {b : KMemoryBlock} (hit : s.it = ⟨s.it.before, b :: bs⟩)
    (hl : Spans a s.it.before b.address) (hr : Spans b.getEndAddress bs e)
    (h1 : b.address ≤ s.curAddress) (h2 : s.curAddress < b.getEndAddress)
    (hbd : PageSize ∣ b.getEndAddress) (hskip : skip b = true) :
    ∃ s', updateStep skip upd s = .ok s' ∧ LoopInv skip upd a e start stop target s' ∧
      s'.remainingPages < s.remainingPages := by
  have hp := h.pages
  have hs := h.start_le
  have hl' : Spans a (s.it.before ++ [b]) b.getEndAddress := hl.append ⟨rfl, by omega, rfl⟩
  have htree : (s.it.before ++ [b]) ++ bs.flatMap (pieces skip upd start stop) = target := by
    have := h.tree
    rw [hit, flatMap_cons, show pieces skip upd start stop b = [b] by simp [pieces, hskip]] at this
    simpa using this
  have hturn : updateStep skip upd s = .ok
      (if s.curAddress + s.remainingPages * PageSize < b.getEndAddress then
        ⟨s.allocator, ⟨s.it.before ++ [b], bs⟩, s.curAddress + s.remainingPages * PageSize, 0⟩
      else ⟨s.allocator, ⟨s.it.before ++ [b], bs⟩, b.getEndAddress,
        (s.curAddress + s.remainingPages * PageSize - b.getEndAddress) / PageSize⟩) := by
    rw [updateStep, hit]
    simp only [Iterator.deref, Iterator.next, bind, Except.bind, pure, Except.pure, hskip, if_true]
    split_ifs <;> rfl
  refine ⟨_, hturn, ?_⟩
  rw [hp]
  by_cases hin : stop < b.getEndAddress
  · -- the range ends inside the block
    rw [if_pos hin]
    refine ⟨⟨⟨_, hl', hr, by simp, fun _ => hin.le⟩, by simp, ?_, h.start_dvd, ?_, h.stop_le, by simp,
      htree⟩, hpos⟩
    · simp only; omega
    · exact hp ▸ Nat.dvd_add h.cur_dvd (Nat.dvd_mul_left ..)
  · rw [if_neg hin]
    obtain ⟨k, hk⟩ := hbd
    obtain ⟨j, hj⟩ : PageSize ∣ stop := hp ▸ Nat.dvd_add h.cur_dvd (Nat.dvd_mul_left ..)
    have hrem : (stop - b.getEndAddress) / PageSize = j - k := by
      rw [hj, hk, ← Nat.mul_sub, Nat.mul_div_cancel_left _ (by decide)]
    rw [hrem]
    simp only [PageSize] at hin hj hk hp
    refine ⟨⟨⟨_, hl', hr, fun _ => ⟨le_rfl, fun hh => absurd hh (lt_irrefl _), head_end_of_spans hr⟩,
      ?_⟩, ?_, ?_, h.start_dvd, ⟨k, hk⟩, h.stop_le, fun _ => ?_, htree⟩, ?_⟩
    · simp only; omega
    · simp only [PageSize]; omega
    · simp only; omega
    · have hroom := h.room hpos
      rw [hit] at hroom
      exact room_tail (by simp only at hroom ⊢; omega) hr
    · simp only; omega

/-- A turn that changes the block, from the state in which the block starts
at the current page: `m` is the block, cut before the range if need be. -/
theorem updateStep_change (hupd : KeepsPlace upd) {s₁ : UpdateState} {m : KMemoryBlock} (hs₁ : s₁.it = ⟨l, m :: bs⟩)
    (hcur : s₁.curAddress = s.curAddress) (hrem : s₁.remainingPages = s.remainingPages)
    (hl : Spans a l m.address) (hm : m.address = s.curAddress) (hr : Spans m.getEndAddress bs e)
    (hlt : m.address < m.getEndAddress) (hpages : s.curAddress + s.remainingPages * PageSize = stop)
    (hpos : 0 < s.remainingPages) (hstart : start ≤ s.curAddress) (had : PageSize ∣ a) (hstop : stop ≤ e)
    (hroom : (if CutsBlock (m :: bs) stop then 1 else 0) ≤ s₁.allocator.blocks.length)
    (htree : l ++ (if stop < m.getEndAddress then [upd (m.leftPart stop), m.rightPart stop]
      else [upd m]) ++ bs.flatMap (pieces skip upd start stop) = target) :
    ∃ s', (splitAfter (s.remainingPages * PageSize) s₁ >>= updateBlock upd) = .ok s' ∧
      LoopInv skip upd a e start stop target s' ∧ s'.remainingPages < s.remainingPages := by
  have hmd : PageSize ∣ m.address := (Spans.dvd hl had).2
  have hend : m.getEndAddress = m.address + m.getSize := rfl
  by_cases hin : stop < m.getEndAddress
  · -- a block is cut off after the range, and the loop ends
    rw [if_pos hin] at htree
    have hsd : PageSize ∣ stop := hpages ▸ Nat.dvd_add (hm ▸ hmd) (Nat.dvd_mul_left ..)
    have hms : m.address < stop := by simp only [PageSize] at hpages; omega
    have hcut : CutsBlock (m :: bs) stop := ⟨m, by simp, hms, hin⟩
    rw [if_pos hcut] at hroom
    obtain ⟨c, cs, hall⟩ := exists_cons_of_length_pos hroom
    have hsplit := splitAfter_eq (s.remainingPages * PageSize) hs₁ hall hl
      (hm.trans hcur.symm) (by omega) (by simp only [PageSize]; omega)
    rw [hcur, hpages] at hsplit
    have hle : (m.leftPart stop).getEndAddress = stop := KMemoryBlock.leftPart_end hms.le hmd hsd
    have hre : (m.rightPart stop).getEndAddress = m.getEndAddress :=
      KMemoryBlock.rightPart_end hms.le hin.le hmd hsd
    have hnp : (m.leftPart stop).numPages = s.remainingPages := by
      have h1 : (m.leftPart stop).numPages = (stop - m.address) / PageSize := rfl
      rw [h1, hm, ← hpages]
      simp only [PageSize]
      omega
    have hsz : (m.leftPart stop).getSize = s.remainingPages * PageSize := by
      rw [KMemoryBlock.getSize, hnp]
    have hturn : (splitAfter (s.remainingPages * PageSize) s₁ >>= updateBlock upd) = .ok
        ⟨⟨cs⟩, ⟨l ++ [upd (m.leftPart stop)], m.rightPart stop :: bs⟩, stop, 0⟩ := by
      rw [hsplit]
      refine (updateBlock_eq (s := ⟨⟨cs⟩, ⟨l, m.leftPart stop :: m.rightPart stop :: bs⟩,
        s.curAddress, s₁.remainingPages⟩) rfl).trans ?_
      simp only [hsz, hpages, hnp, hrem, Nat.sub_self]
    have hright : Spans stop (m.rightPart stop :: bs) e := ⟨rfl, by rw [hre]; exact hin, hre ▸ hr⟩
    refine ⟨_, hturn, ⟨⟨stop, hl.append ⟨hupd.address _, ?_, ?_⟩, hright, by simp, fun _ => le_rfl⟩,
      by simp, by simp only; omega, had, hsd, hstop, by simp, ?_⟩, hpos⟩
    · rw [hupd.getEndAddress, hle]; exact hms
    · rw [hupd.getEndAddress]; exact hle
    · simp only [pieces_flatMap_of_le hright le_rfl, ← htree,
        pieces_flatMap_of_le hr (by omega : stop ≤ m.getEndAddress)]
      simp
  · -- the whole block lies in the range
    rw [if_neg hin] at htree
    have hsize : m.getSize ≤ s.remainingPages * PageSize := by omega
    have hsz : m.getSize = m.numPages * PageSize := rfl
    have hadr : s₁.curAddress + m.getSize = m.getEndAddress := by rw [hcur, ← hm, hend]
    refine ⟨_, by rw [splitAfter_of_le hs₁ hsize]; exact updateBlock_eq hs₁, ?_, ?_⟩
    · simp only [hadr, hrem]
      simp only [hsz, PageSize] at hsize hpages hin hend
      refine ⟨⟨m.getEndAddress, hl.append ⟨hupd.address m, ?_, hupd.getEndAddress m⟩, hr,
        fun _ => ⟨le_rfl, fun hh => absurd hh (lt_irrefl _), head_end_of_spans hr⟩, ?_⟩, ?_, ?_, had,
        ?_, hstop, fun _ => room_tail hroom hr, ?_⟩
      · rw [hupd.getEndAddress]; exact hlt
      · simp only; omega
      · simp only [PageSize]; omega
      · simp only; omega
      · exact Nat.dvd_add hmd (Nat.dvd_mul_left ..)
      · simp only [← htree]
    · simp only [hrem]
      simp only [PageSize] at hsz hend
      omega

/-- A turn of the loop succeeds, keeps the invariant and consumes a page. -/
theorem updateStep_spec (hupd : KeepsPlace upd)
    (h : LoopInv skip upd a e start stop target s) (hpos : 0 < s.remainingPages) :
    ∃ s', updateStep skip upd s = .ok s' ∧ LoopInv skip upd a e start stop target s' ∧
      s'.remainingPages < s.remainingPages := by
  obtain ⟨b, bs, hit, hl, hr, h1, h2, h3, hbd, hed⟩ := h.at_block hpos
  cases hskip : skip b with
  | true => exact updateStep_skip h hpos hit hl hr h1 h2 hed hskip
  | false =>
    have hstep : updateStep skip upd s = splitBefore s >>= fun s₁ =>
        splitAfter (s.remainingPages * PageSize) s₁ >>= updateBlock upd := by
      rw [updateStep, hit]
      simp only [Iterator.deref, bind, Except.bind, hskip, Bool.false_eq_true, if_false]
    have hp := h.pages
    have hs := h.start_le
    have hroom := h.room hpos
    have htree := h.tree
    have hcur : s.curAddress < stop := by simp only [PageSize] at hp; omega
    rw [hit] at htree hroom
    simp only at hroom
    have hout : ¬ (b.getEndAddress ≤ start ∨ stop ≤ b.address ∨ skip b = true) := by
      simp only [hskip, Bool.false_eq_true, or_false]; omega
    rw [flatMap_cons, pieces, if_neg hout] at htree
    rw [hstep]
    rcases h1.lt_or_eq with hlt | heq
    · -- the range starts inside the block
      have hcs : start = s.curAddress := (h3 hlt).symm
      have hcut : CutsBlock (b :: bs) s.curAddress := ⟨b, by simp, hlt, h2⟩
      rw [if_pos hcut] at hroom
      obtain ⟨c, cs, hall⟩ := exists_cons_of_length_pos (by omega : 0 < s.allocator.blocks.length)
      have hle := KMemoryBlock.leftPart_end hlt.le hbd h.cur_dvd
      have hre := KMemoryBlock.rightPart_end hlt.le h2.le hbd h.cur_dvd
      rw [splitBefore_eq hit hall hl hlt]
      rw [hcs, if_pos hlt, ← hcs] at htree
      refine updateStep_change hupd rfl rfl rfl (hl.append ⟨rfl, ?_, hle⟩) rfl (hre ▸ hr) ?_ hp hpos
        hs h.start_dvd h.stop_le ?_ ?_
      · rw [hle]; exact hlt
      · rw [hre]; exact h2
      · rw [hall, length_cons] at hroom
        have : CutsBlock (b.rightPart s.curAddress :: bs) stop → CutsBlock (b :: bs) stop := by
          simp only [cuts_cons, hre, KMemoryBlock.rightPart_address]
          exact Or.imp_left fun hh => ⟨by omega, hh.2⟩
        by_cases hc : CutsBlock (b.rightPart s.curAddress :: bs) stop
        · rw [if_pos hc]; rw [if_pos (this hc)] at hroom; simp only; omega
        · rw [if_neg hc]; omega
      · rw [← htree, hre, hcs]
        split_ifs <;> simp
    · rw [splitBefore_of_eq hit heq]
      rw [if_neg (by omega : ¬ b.address < start)] at htree
      refine updateStep_change hupd hit rfl rfl hl heq hr (heq ▸ h2) hp hpos hs h.start_dvd h.stop_le
        (by omega) ?_
      rw [← htree]
      split_ifs <;> simp

/-- **The update loop.** On a range inside `[a, e)` the loop puts the pieces of
every block in the block's place. -/
theorem updateLoop_eq (skip : KMemoryBlock → Bool) (hupd : KeepsPlace upd) {n : ℕ}
    {allocator : KMemoryBlockManagerUpdateAllocator} (hl : Spans a l e) (had : PageSize ∣ a)
    (hsd : PageSize ∣ start) (has : a ≤ start) (hn : 0 < n) (hstop : start + n * PageSize = stop)
    (hse : stop ≤ e)
    (hroom : (if CutsBlock l start then 1 else 0) + (if CutsBlock l stop then 1 else 0) ≤
      allocator.blocks.length) :
    ∃ s, updateLoop skip upd n ⟨allocator, findIterator l start, start, n⟩ = .ok s ∧
      s.it.tree = l.flatMap (pieces skip upd start stop) := by
  have hlt : start < e := by simp only [PageSize] at hstop; omega
  obtain ⟨l₁, b, l₂, rfl, h1, ⟨h2, h3⟩, h4⟩ := hl.exists_split has hlt
  have hfind := findIterator_eq l₂ h1 h2 h3
  have hkeep : l₁.flatMap (pieces skip upd start stop) = l₁ := pieces_flatMap_of_ge h1 h2
  have hroom' : ∀ p, start ≤ p → CutsBlock (b :: l₂) p → CutsBlock (l₁ ++ b :: l₂) p := by
    rintro p - ⟨c, hc, h5⟩
    exact ⟨c, mem_append_right _ hc, h5⟩
  have hinv : LoopInv skip upd a e start stop ((l₁ ++ b :: l₂).flatMap (pieces skip upd start stop))
      ⟨allocator, findIterator (l₁ ++ b :: l₂) start, start, n⟩ := by
    rw [hfind]
    refine ⟨⟨b.address, h1, ⟨rfl, by omega, h4⟩, fun _ => ⟨h2, fun _ => rfl, by simpa using h3⟩, ?_⟩,
      hstop, le_rfl, had, hsd, hse, fun _ => ?_, by simp [hkeep]⟩
    · simp only; omega
    · have hs := hroom' start le_rfl
      have he := hroom' stop (by omega)
      simp only
      split_ifs at hroom ⊢ <;> first | omega | (exfalso; tauto)
  obtain ⟨s, hs, hI, hc⟩ := whileLoop_spec Fault.outOfFuel
    (fun s => decide (0 < s.remainingPages)) (updateStep skip upd)
    (LoopInv skip upd a e start stop ((l₁ ++ b :: l₂).flatMap (pieces skip upd start stop)))
    (fun s => s.remainingPages)
    (fun s hI hc => updateStep_spec hupd hI (by simpa using hc)) n _ hinv le_rfl
  refine ⟨s, hs, ?_⟩
  obtain ⟨x, -, hr, -, hx⟩ := hI.place
  rw [← hI.tree, pieces_flatMap_of_le hr (hx (by simpa using hc)), Iterator.tree]

end Loop

end Kernel
end Citron
