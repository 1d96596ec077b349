/-
# Blocks of the GPU's memory

Reading and writing of a block, piece by piece over the big pages and the small ones, is
reading and writing of its bytes through the translation.
-/
import Citron.VideoCore.MemoryManagerRun

namespace Citron
namespace Tegra

open List Option

/-! ### Bytes through pointers -/

/-- The bytes of a range of addresses, where an address without a pointer reads as zero. -/
def loadThrough (pointer : ℕ → Option ℕ) (host : HostMemory) (a size : ℕ) : List UInt8 :=
  (List.range size).map fun i =>
    match pointer (a + i) with
    | some p => host p
    | none => 0

/-- Bytes stored one after the other, where an address without a pointer is skipped. -/
def storeThrough (pointer : ℕ → Option ℕ) (host : HostMemory) (a : ℕ) : List UInt8 → HostMemory
  | [] => host
  | b :: bs =>
    let host := match pointer a with
      | some p => Function.update host p b
      | none => host
    storeThrough pointer host (a + 1) bs

variable {pointer pointer' : ℕ → Option ℕ} {host : HostMemory} {a b p n : ℕ}

theorem loadThrough_congr (h : ∀ i < n, pointer (a + i) = pointer' (b + i)) :
    loadThrough pointer host a n = loadThrough pointer' host b n := by
  refine map_congr_left fun i hi => ?_
  rw [h i (mem_range.mp hi)]

theorem storeThrough_congr {bytes : List UInt8} (h : ∀ i < bytes.length, pointer (a + i) = pointer' (b + i)) :
    storeThrough pointer host a bytes = storeThrough pointer' host b bytes := by
  induction bytes generalizing a b host with
  | nil => rfl
  | cons x xs ih =>
    have hhead := h 0 (Nat.succ_pos _)
    rw [Nat.add_zero, Nat.add_zero] at hhead
    unfold storeThrough
    rw [hhead]
    refine ih fun i hi => ?_
    have htail := h (i + 1) (Nat.succ_lt_succ hi)
    rwa [Nat.add_comm i, ← Nat.add_assoc, ← Nat.add_assoc] at htail

theorem loadThrough_add (n k : ℕ) :
    loadThrough pointer host a (n + k) = loadThrough pointer host a n ++ loadThrough pointer host (a + n) k := by
  unfold loadThrough
  rw [range_add, map_append, List.map_map]
  simp only [Function.comp_def, Nat.add_assoc]

theorem storeThrough_append (xs ys : List UInt8) : storeThrough pointer host a (xs ++ ys) =
    storeThrough pointer (storeThrough pointer host a xs) (a + xs.length) ys := by
  induction xs generalizing a host with
  | nil => rfl
  | cons x xs ih =>
    rw [cons_append, length_cons, Nat.add_comm xs.length, ← Nat.add_assoc]
    exact ih

theorem loadThrough_none (h : ∀ i < n, pointer (a + i) = none) : loadThrough pointer host a n = List.replicate n 0 := by
  refine eq_replicate_iff.mpr ⟨by rw [loadThrough, length_map, length_range], fun x hx => ?_⟩
  obtain ⟨i, hi, rfl⟩ := List.mem_map.mp hx
  rw [h i (mem_range.mp hi)]

theorem storeThrough_none {bytes : List UInt8} (h : ∀ i < bytes.length, pointer (a + i) = none) :
    storeThrough pointer host a bytes = host := by
  have hcongr : storeThrough pointer host a bytes = storeThrough (fun _ => none) host a bytes := storeThrough_congr h
  rw [hcongr]
  clear h hcongr
  induction bytes generalizing a with
  | nil => rfl
  | cons x xs ih => exact ih

/-- A copy from one host address. -/
theorem loadBytes_eq (h : ∀ i < n, pointer (a + i) = some (p + i)) : loadBytes host p n = loadThrough pointer host a n := by
  have hcongr : loadThrough pointer host a n = loadThrough some host p n := loadThrough_congr h
  rw [hcongr]
  rfl

theorem storeBytes_eq {bytes : List UInt8} (h : ∀ i < bytes.length, pointer (a + i) = some (p + i)) :
    storeBytes host p bytes = storeThrough pointer host a bytes := by
  have hcongr : storeThrough pointer host a bytes = storeThrough some host p bytes := storeThrough_congr h
  rw [hcongr]
  clear h hcongr
  induction bytes generalizing p host with
  | nil => rfl
  | cons x xs ih => exact ih

namespace DeviceMemory

variable {memory : DeviceMemory} {address size : ℕ}

theorem readBlockUnsafe_eq : memory.readBlockUnsafe host address size = loadThrough memory.getPointer host address size := rfl

theorem writeBlockUnsafe_eq {bytes : List UInt8} :
    memory.writeBlockUnsafe host address bytes = storeThrough memory.getPointer host address bytes := by
  induction bytes generalizing address host with
  | nil => rfl
  | cons x xs ih => exact ih

/-- A page of the device is in one piece. -/
theorem getPointer_add {i : ℕ} (h : address % cpuPageSize + i < cpuPageSize) :
    memory.getPointer (address + i) = (memory.getPointer address).map (· + i) := by
  obtain ⟨hdiv, hmod⟩ := div_mod_of_lt h
  unfold getPointer
  rw [hdiv, hmod, Option.map_map]
  simp only [Function.comp_def, Nat.add_assoc]

end DeviceMemory

namespace MemoryManager

variable {memory : DeviceMemory} {m : MemoryManager} {isBig : Bool} {translation : ℕ → Option ℕ} {first last k : ℕ}

/-! ### Walks -/

section Walk

variable {σ : Type} {advance : ℕ → ℕ → σ → σ} {func : EntryType → ℕ → ℕ → ℕ → σ → Option σ}

/-- What is done to a range of addresses is done to its parts one after the other. -/
structure Advances (advance : ℕ → ℕ → σ → σ) : Prop where
  zero : ∀ a s, advance a 0 s = s
  add : ∀ a n k s, advance a (n + k) s = advance (a + n) k (advance a n s)

@[simp] theorem walk_zero (m : MemoryManager) (steps pageIndex pageOffset currentAddress : ℕ) (s : σ) :
    m.walk isBig func steps pageIndex pageOffset currentAddress 0 s = some s := by
  cases steps <;> rfl

/-- The pieces of a walk each lie in a page, and the index and the offset are those of the address. -/
theorem Sized.walk (hm : Sized m) (hadvance : Advances advance) (hlast : last ≤ m.addressSpaceSize)
    (hfunc : ∀ a n s, first ≤ a → a + n ≤ last → 0 < n → a % m.usedPageSize isBig + n ≤ m.usedPageSize isBig →
      func (m.entry isBig (a / m.usedPageSize isBig)) (a / m.usedPageSize isBig) (a % m.usedPageSize isBig) n s =
        some (advance a n s))
    (steps a remaining : ℕ) (s : σ) (hfirst : first ≤ a) (hremaining : a + remaining ≤ last) (hsteps : remaining ≤ steps) :
    m.walk isBig func steps (a / m.usedPageSize isBig) (a % m.usedPageSize isBig) a remaining s =
      some (advance a remaining s) := by
  induction steps generalizing a remaining s with
  | zero =>
    have hzero : remaining = 0 := Nat.le_zero.mp hsteps
    rw [hzero, walk_zero, hadvance.zero]
  | succ steps ih =>
    by_cases hzero : remaining = 0
    · rw [hzero, walk_zero, hadvance.zero]
    · set page := m.usedPageSize isBig with hpage
      have hpos : 0 < page := m.usedPageSize_pos isBig
      have hmod : a % page < page := Nat.mod_lt a hpos
      set n := min (page - a % page) remaining with hn
      have hstep := hfunc a n s hfirst (by omega) (by omega) (by omega)
      unfold MemoryManager.walk
      rw [if_neg hzero]
      rw [hm.getEntry isBig (by omega), ← hpage, ← hn]
      simp only [bind_eq_bind, bind_some]
      rw [hstep]
      simp only [bind_some]
      by_cases hrest : remaining - n = 0
      · rw [hrest, walk_zero, show n = remaining by omega]
      · -- the piece ends with the page
        have hend : a + n = (a / page + 1) * page := by
          have hdiv := Nat.div_add_mod a page
          rw [Nat.mul_comm] at hdiv
          rw [Nat.succ_mul]
          omega
        have hindex : (a + n) / page = a / page + 1 := by rw [hend, Nat.mul_div_cancel _ hpos]
        have hoffset : (a + n) % page = 0 := by rw [hend, Nat.mul_mod_left]
        have hnext := ih (a + n) (remaining - n) (advance a n s) (by omega) (by omega) (by omega)
        rw [hindex, hoffset] at hnext
        rw [hnext, ← hadvance.add, show n + (remaining - n) = remaining by omega]

theorem Sized.memoryOperation (hm : Sized m) (hadvance : Advances advance) {size : ℕ} (hlast : a + size ≤ m.addressSpaceSize)
    (hfunc : ∀ b n s, a ≤ b → b + n ≤ a + size → 0 < n → b % m.usedPageSize isBig + n ≤ m.usedPageSize isBig →
      func (m.entry isBig (b / m.usedPageSize isBig)) (b / m.usedPageSize isBig) (b % m.usedPageSize isBig) n s =
        some (advance b n s)) (s : σ) :
    m.memoryOperation isBig a size func s = some (advance a size s) :=
  hm.walk hadvance hlast hfunc size a size s (Nat.le_refl _) (Nat.le_refl _) (Nat.le_refl _)

/-- The walk over the big pages and, where they are free, over the small ones. -/
theorem Inv.blockOperation (h : Inv memory m translation) (hadvance : Advances advance) {size : ℕ}
    (hlast : a + size ≤ m.addressSpaceSize) {mappedBig mappedNormal : ℕ → ℕ → ℕ → σ → Option σ} {skip : ℕ → σ → σ}
    (hbig : ∀ b n s, m.entry true (b / m.usedPageSize true) = .mapped →
      b % m.usedPageSize true + n ≤ m.usedPageSize true → 0 < n → b + n ≤ m.addressSpaceSize →
      (∀ i < n, translation (b + i) = some (m.deviceAddress true (b / m.usedPageSize true) (b % m.usedPageSize true) + i)) →
      mappedBig (b / m.usedPageSize true) (b % m.usedPageSize true) n s = some (advance b n s))
    (hnormal : ∀ b n s, m.entry false (b / m.usedPageSize false) = .mapped →
      b % m.usedPageSize false + n ≤ m.usedPageSize false →
      (∀ i < n, translation (b + i) = some (m.deviceAddress false (b / m.usedPageSize false) (b % m.usedPageSize false) + i)) →
      mappedNormal (b / m.usedPageSize false) (b % m.usedPageSize false) n s = some (advance b n s))
    (hskip : ∀ b n s, (∀ i < n, translation (b + i) = none) → skip n s = advance b n s) (s : σ) :
    m.blockOperation a size mappedBig mappedNormal skip s = some (advance a size s) := by
  have hadd : ∀ isBig k offset i, m.deviceAddress isBig k (offset + i) = m.deviceAddress isBig k offset + i := by
    intro isBig k offset i
    unfold deviceAddress
    rw [Nat.add_assoc]
  refine h.sized.memoryOperation hadvance hlast (fun b n s hb hn hpos hpage => ?_) s
  have hsame : ∀ i < n, (b + i) / m.usedPageSize true = b / m.usedPageSize true ∧
      (b + i) % m.usedPageSize true = b % m.usedPageSize true + i := fun i hi => div_mod_of_lt (by omega)
  cases hentry : m.entry true (b / m.usedPageSize true) with
  | mapped =>
    refine hbig b n s hentry hpage hpos (by omega) fun i hi => ?_
    rw [h.translates _ (by omega), MemoryManager.translate, (hsame i hi).1, if_pos hentry, (hsame i hi).2, hadd]
  | reserved =>
    refine congrArg some (hskip b n s fun i hi => ?_)
    have hbigEntry : m.entry true ((b + i) / m.usedPageSize true) = .reserved := by rw [(hsame i hi).1, hentry]
    rw [h.translates _ (by omega), translate_eq_none]
    · rw [hbigEntry]
      exact nofun
    · exact h.sparse _ (by omega) hbigEntry
  | free =>
    have hbase : b / m.usedPageSize true * m.usedPageSize true + b % m.usedPageSize true = b := by
      rw [Nat.mul_comm]
      exact Nat.div_add_mod b _
    have hbigEntry : ∀ i < n, m.entry true ((b + i) / m.usedPageSize true) ≠ .mapped := fun i hi => by
      rw [(hsame i hi).1, hentry]
      exact nofun
    refine (congrArg (fun c => m.memoryOperation false c n _ s) hbase).trans ?_
    refine h.sized.memoryOperation hadvance (by omega) (fun c l s hc hl hlpos hlpage => ?_) s
    have hsmall : ∀ i < l, (c + i) / m.usedPageSize false = c / m.usedPageSize false ∧
        (c + i) % m.usedPageSize false = c % m.usedPageSize false + i := fun i hi => div_mod_of_lt (by omega)
    have hnot : ∀ i < l, m.entry true ((c + i) / m.usedPageSize true) ≠ .mapped := fun i hi => by
      have hne := hbigEntry (c + i - b) (by omega)
      rwa [show b + (c + i - b) = c + i by omega] at hne
    cases hentry' : m.entry false (c / m.usedPageSize false) with
    | mapped =>
      refine hnormal c l s hentry' hlpage fun i hi => ?_
      rw [h.translates _ (by omega), MemoryManager.translate, if_neg (hnot i hi), (hsmall i hi).1, if_pos hentry',
        (hsmall i hi).2, hadd]
    | reserved =>
      refine congrArg some (hskip c l s fun i hi => ?_)
      rw [h.translates _ (by omega), translate_eq_none (hnot i hi)]
      rw [(hsmall i hi).1, hentry']
      exact nofun
    | free =>
      refine congrArg some (hskip c l s fun i hi => ?_)
      rw [h.translates _ (by omega), translate_eq_none (hnot i hi)]
      rw [(hsmall i hi).1, hentry']
      exact nofun

end Walk

/-! ### Pieces -/

theorem deviceAddress_eq (m : MemoryManager) (isBig : Bool) (k offset : ℕ) :
    m.deviceAddress isBig k offset = m.deviceAddress isBig k 0 + offset := by
  unfold deviceAddress
  rw [Nat.add_zero]

theorem dvd_deviceAddress (m : MemoryManager) (isBig : Bool) (k : ℕ) : cpuPageSize ∣ m.deviceAddress isBig k 0 := by
  unfold deviceAddress cpuPageSize
  rw [Nat.add_zero]
  exact Nat.dvd_mul_left _ _

theorem usedPageSize_small (m : MemoryManager) : m.usedPageSize false = cpuPageSize := rfl

/-- The pointer of a piece of a small page. -/
theorem Inv.getPointer_small (h : Inv memory m translation) (hk : m.entry false k = .mapped) {offset : ℕ}
    (hoffset : offset < m.usedPageSize false) :
    ∃ p, memory.getPointer (m.deviceAddress false k offset) = some p ∧
      ∀ i, offset + i < m.usedPageSize false → memory.getPointer (m.deviceAddress false k offset + i) = some (p + i) := by
  have hmod : m.deviceAddress false k 0 % cpuPageSize = 0 := Nat.mod_eq_zero_of_dvd (m.dvd_deviceAddress false k)
  obtain ⟨q, hq⟩ := isSome_iff_exists.mp (h.backed k hk)
  have hall : ∀ i < m.usedPageSize false, memory.getPointer (m.deviceAddress false k 0 + i) = some (q + i) := by
    intro i hi
    rw [usedPageSize_small] at hi
    rw [DeviceMemory.getPointer_add (by omega), hq, map_some]
  refine ⟨q + offset, by rw [deviceAddress_eq, hall offset hoffset], fun i hi => ?_⟩
  rw [deviceAddress_eq, Nat.add_assoc, hall _ hi, Nat.add_assoc]

/-- The pointer of a piece of a continuous big page. -/
theorem Inv.getPointer_big (h : Inv memory m translation) (hk : m.continuous k = true) {offset : ℕ}
    (hoffset : offset < m.usedPageSize true) :
    ∃ p, memory.getPointer (m.deviceAddress true k offset) = some p ∧
      ∀ i, offset + i < m.usedPageSize true → memory.getPointer (m.deviceAddress true k offset + i) = some (p + i) := by
  have hcontinuous := h.continuous k hk
  unfold isContinuous at hcontinuous
  cases hbase : memory.getPointer (m.deviceAddress true k 0) with
  | none =>
    rw [hbase] at hcontinuous
    cases hcontinuous
  | some q =>
    rw [hbase] at hcontinuous
    simp only [List.all_eq_true, mem_range, beq_iff_eq] at hcontinuous
    have hpos := m.usedPageSize_pos false
    have hdvd : m.usedPageSize false ∣ m.usedPageSize true := h.sized.cpuPageSize_dvd true
    have hall : ∀ i < m.usedPageSize true, memory.getPointer (m.deviceAddress true k 0 + i) = some (q + i) := by
      intro i hi
      have hpage := hcontinuous (i / m.usedPageSize false) (Nat.div_lt_div_of_lt_of_dvd hdvd hi)
      have hlt := Nat.mod_lt i hpos
      have hi' := Nat.div_add_mod i (m.usedPageSize false)
      rw [Nat.mul_comm] at hi'
      have hstart : (m.deviceAddress true k 0 + i / m.usedPageSize false * m.usedPageSize false) % cpuPageSize = 0 :=
        Nat.mod_eq_zero_of_dvd ((Nat.dvd_add_right (m.dvd_deviceAddress true k)).mpr (Nat.dvd_mul_left _ _))
      rw [usedPageSize_small] at hlt
      calc memory.getPointer (m.deviceAddress true k 0 + i)
          = memory.getPointer (m.deviceAddress true k 0 + i / m.usedPageSize false * m.usedPageSize false +
              i % m.usedPageSize false) := by rw [Nat.add_assoc, hi']
        _ = some (q + i / m.usedPageSize false * m.usedPageSize false + i % m.usedPageSize false) := by
          rw [DeviceMemory.getPointer_add (by rw [hstart, Nat.zero_add]; exact hlt), hpage, map_some]
        _ = some (q + i) := by rw [Nat.add_assoc, hi']
    refine ⟨q + offset, by rw [deviceAddress_eq, hall offset hoffset], fun i hi => ?_⟩
    rw [deviceAddress_eq, Nat.add_assoc, hall _ hi, Nat.add_assoc]

/-! ### Reading and writing -/

/-- The host's byte behind an address of the GPU. -/
def pointerAt (memory : DeviceMemory) (translation : ℕ → Option ℕ) (a : ℕ) : Option ℕ :=
  (translation a).bind memory.getPointer

theorem pointerAt_of_eq_some {d : ℕ} (h : translation a = some d) : pointerAt memory translation a = memory.getPointer d := by
  rw [pointerAt, h, bind_some]

theorem pointerAt_of_eq_none (h : translation a = none) : pointerAt memory translation a = none := by
  rw [pointerAt, h, bind_none]

theorem advances_read (pointer : ℕ → Option ℕ) (host : HostMemory) :
    Advances fun a n (dest : List UInt8) => dest ++ loadThrough pointer host a n where
  zero a dest := append_nil dest
  add a n k dest := by rw [loadThrough_add, append_assoc]

theorem advances_write (pointer : ℕ → Option ℕ) :
    Advances fun a n (s : List UInt8 × HostMemory) => (s.1.drop n, storeThrough pointer s.2 a (s.1.take n)) where
  zero a s := rfl
  add a n k s := by
    rw [take_add, storeThrough_append, drop_drop]
    by_cases hlen : n ≤ s.1.length
    · rw [length_take_of_le hlen]
    · rw [drop_of_length_le (Nat.le_of_not_le hlen), take_nil]
      rfl

theorem Inv.readBlockUnsafe (h : Inv memory m translation) (host : HostMemory) {size : ℕ}
    (hlast : a + size ≤ m.addressSpaceSize) :
    m.readBlockUnsafe memory host a size = some (loadThrough (pointerAt memory translation) host a size) := by
  refine (h.blockOperation (advances_read (pointerAt memory translation) host) hlast ?_ ?_ ?_ []).trans
    (congrArg some (nil_append _))
  · intro b n dest hentry hpage hpos hin htranslation
    have hlt := h.sized.lt_tableSize true (show b < m.addressSpaceSize by omega)
    rw [h.sized.isBigPageContinuous hlt]
    simp only [bind_eq_bind, bind_some]
    cases hcontinuous : m.continuous (b / m.usedPageSize true) with
    | false =>
      rw [DeviceMemory.readBlockUnsafe_eq]
      refine congrArg (fun bytes => some (dest ++ bytes)) (loadThrough_congr fun i hi => ?_)
      rw [pointerAt_of_eq_some (htranslation i hi)]
    | true =>
      obtain ⟨p, hp, hbytes⟩ := h.getPointer_big hcontinuous (show b % m.usedPageSize true < m.usedPageSize true by omega)
      rw [hp]
      refine congrArg (fun bytes => some (dest ++ bytes)) (loadBytes_eq fun i hi => ?_)
      rw [pointerAt_of_eq_some (htranslation i hi), hbytes i (by omega)]
  · intro b n dest hentry hpage htranslation
    obtain ⟨p, hp, hbytes⟩ := h.getPointer_small hentry (Nat.mod_lt b (m.usedPageSize_pos false))
    rw [hp]
    refine congrArg (fun bytes => some (dest ++ bytes)) (loadBytes_eq fun i hi => ?_)
    rw [pointerAt_of_eq_some (htranslation i hi), hbytes i (by omega)]
  · intro b n dest hnone
    exact congrArg (dest ++ ·) (loadThrough_none fun i hi => pointerAt_of_eq_none (hnone i hi)).symm

theorem Inv.writeBlockUnsafe (h : Inv memory m translation) (host : HostMemory) {src : List UInt8}
    (hlast : a + src.length ≤ m.addressSpaceSize) :
    m.writeBlockUnsafe memory host a src = some (storeThrough (pointerAt memory translation) host a src) := by
  have htake : ∀ {n i : ℕ} {bytes : List UInt8}, i < (bytes.take n).length → i < n := fun hi =>
    Nat.lt_of_lt_of_le hi (length_take_le _ _)
  refine (congrArg (Option.map Prod.snd) (h.blockOperation (advances_write (pointerAt memory translation)) hlast ?_ ?_ ?_
    (src, host))).trans ?_
  · intro b n s hentry hpage hpos hin htranslation
    have hlt := h.sized.lt_tableSize true (show b < m.addressSpaceSize by omega)
    rw [h.sized.isBigPageContinuous hlt]
    simp only [bind_eq_bind, bind_some]
    cases hcontinuous : m.continuous (b / m.usedPageSize true) with
    | false =>
      rw [DeviceMemory.writeBlockUnsafe_eq]
      refine congrArg (fun host => some (s.1.drop n, host)) (storeThrough_congr fun i hi => ?_)
      rw [pointerAt_of_eq_some (htranslation i (htake hi))]
    | true =>
      obtain ⟨p, hp, hbytes⟩ := h.getPointer_big hcontinuous (show b % m.usedPageSize true < m.usedPageSize true by omega)
      rw [hp]
      refine congrArg (fun host => some (s.1.drop n, host)) (storeBytes_eq fun i hi => ?_)
      have hi := htake hi
      rw [pointerAt_of_eq_some (htranslation i hi), hbytes i (by omega)]
  · intro b n s hentry hpage htranslation
    obtain ⟨p, hp, hbytes⟩ := h.getPointer_small hentry (Nat.mod_lt b (m.usedPageSize_pos false))
    rw [hp]
    refine congrArg (fun host => some (s.1.drop n, host)) (storeBytes_eq fun i hi => ?_)
    have hi := htake hi
    rw [pointerAt_of_eq_some (htranslation i hi), hbytes i (by omega)]
  · intro b n s hnone
    have hstore : storeThrough (pointerAt memory translation) s.2 b (s.1.take n) = s.2 :=
      storeThrough_none fun i hi => pointerAt_of_eq_none (hnone i (htake hi))
    rw [hstore]
  · rw [map_some, take_length]

/-- **In every run whose calls meet their conditions**, an address is translated as the last call that covers it asked,
and a block of the address space is read and written byte by byte through that translation. -/
theorem Runs.translated (h : Runs memory m translation) :
    (∀ a, m.gpuToCpuAddress a = some (translation a)) ∧
      (∀ host a size, a + size ≤ m.addressSpaceSize →
        m.readBlockUnsafe memory host a size = some (loadThrough (pointerAt memory translation) host a size)) ∧
      ∀ host a src, a + src.length ≤ m.addressSpaceSize →
        m.writeBlockUnsafe memory host a src = some (storeThrough (pointerAt memory translation) host a src) :=
  ⟨h.inv.gpuToCpuAddress, fun host _ _ => h.inv.readBlockUnsafe host, fun host _ _ => h.inv.writeBlockUnsafe host⟩

/-- A new big page, and the byte that is read through it. -/
theorem Runs.translated_bigPage :
    let memory : DeviceMemory := ⟨fun page => some (page * cpuPageSize)⟩
    ∃ m, (MemoryManager.new 40 16).call memory (.map 0x10000 0x20000 0x10000 true) = some m ∧
      m.gpuToCpuAddress 0x10010 = some (some 0x20010) ∧
      ∀ host, 0x10010 + 1 ≤ m.addressSpaceSize → m.readBlockUnsafe memory host 0x10010 1 = some [host 0x20010] := by
  intro memory
  have hnew : Runs memory (.new 40 16) (fun _ => none) := .new (by decide) (by decide)
  have hok : CallOk memory (.new 40 16) (.map 0x10000 0x20000 0x10000 true) :=
    ⟨⟨by decide, by decide, by decide⟩, by decide, by decide⟩
  obtain ⟨m, hcall, -⟩ := hnew.inv.call hok
  have htranslated := Runs.translated (.call hnew hok hcall)
  exact ⟨m, hcall, htranslated.1 0x10010, fun host => htranslated.2.1 host 0x10010 1⟩

/-- A small page that is mapped into a sparse big one is translated and not read, and a block past the end of the address
space, which has no translation, is not walked. -/
theorem sparse_shadows_small :
    let memory : DeviceMemory := ⟨fun page => if page = 5 then some 0x7000 else none⟩
    let host : HostMemory := fun a => if a = 0x7000 then 1 else 0
    let m := ((MemoryManager.new 40 16).call memory (.mapSparse 0x100000 0x10000 true)).bind fun m =>
      m.call memory (.map 0x100000 0x5000 0x1000 false)
    m.bind (·.gpuToCpuAddress 0x100000) = some (some 0x5000) ∧
      loadThrough (pointerAt memory fun _ => some 0x5000) host 0x100000 1 = [1] ∧
      m.bind (·.readBlockUnsafe memory host 0x100000 1) = some [0] ∧
      m.bind (·.gpuToCpuAddress 0x10000000000) = some none ∧
      m.bind (·.readBlockUnsafe memory host 0x10000000000 1) = none := by
  decide +kernel

end MemoryManager

end Tegra
end Citron
