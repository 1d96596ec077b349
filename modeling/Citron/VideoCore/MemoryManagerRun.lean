/-
# The translation of the GPU's addresses

What the page tables translate an address to is what the last call that covers it asked
for, as long as no call leaves a page of one size in the shadow of one of the other.
-/
import Mathlib.Tactic.SplitIfs
import Citron.VideoCore.MemoryManager

namespace Citron
namespace Tegra
namespace MemoryManager

variable {memory : DeviceMemory} {m m' : MemoryManager} {e : EntryType} {isBig : Bool}
variable {translation : ℕ → Option ℕ} {gpuAddr devAddr size a k n : ℕ}

/-! ### Translation -/

/-- The device address behind an address of the address space. -/
def translate (m : MemoryManager) (a : ℕ) : Option ℕ :=
  if m.entry true (a / m.usedPageSize true) = .mapped then
    some (m.deviceAddress true (a / m.usedPageSize true) (a % m.usedPageSize true))
  else if m.entry false (a / m.usedPageSize false) = .mapped then
    some (m.deviceAddress false (a / m.usedPageSize false) (a % m.usedPageSize false))
  else none

theorem Sized.gpuToCpuAddress (hm : Sized m) (ha : a < m.addressSpaceSize) :
    m.gpuToCpuAddress a = some (m.translate a) := by
  unfold MemoryManager.gpuToCpuAddress translate
  rw [if_neg (not_not_intro ha), hm.getEntry true ha, hm.getEntry false ha, hm.pageEntryIndex true ha,
    hm.pageEntryIndex false ha]
  by_cases hbig : m.entry true (a / m.usedPageSize true) = .mapped
  · simp [hbig]
  · by_cases hsmall : m.entry false (a / m.usedPageSize false) = .mapped
    · simp [hbig, hsmall]
    · simp [hbig, hsmall]

theorem gpuToCpuAddress_of_ge (ha : m.addressSpaceSize ≤ a) : m.gpuToCpuAddress a = some none := by
  unfold gpuToCpuAddress
  rw [if_pos (Nat.not_lt.mpr ha)]

/-- What the last of the calls asks for. -/
def translateCall (translation : ℕ → Option ℕ) : Call → ℕ → Option ℕ
  | .map gpuAddr devAddr size _, a =>
    if gpuAddr ≤ a ∧ a < gpuAddr + size then some (devAddr + (a - gpuAddr)) else translation a
  | .mapSparse gpuAddr size _, a => if gpuAddr ≤ a ∧ a < gpuAddr + size then none else translation a
  | .unmap gpuAddr size, a => if gpuAddr ≤ a ∧ a < gpuAddr + size then none else translation a

/-- Whole pages of the address space. -/
structure Placed (m : MemoryManager) (isBig : Bool) (gpuAddr size : ℕ) : Prop where
  address : m.usedPageSize isBig ∣ gpuAddr
  whole : m.usedPageSize isBig ∣ size
  fits : gpuAddr + size ≤ m.addressSpaceSize

/-- Whole pages of the device, whose numbers fit in the words of the tables. -/
structure DevicePlaced (devAddr size : ℕ) : Prop where
  address : cpuPageSize ∣ devAddr
  fits : devAddr + size ≤ 2 ^ 32 * cpuPageSize

/-- The calls that leave no page in the shadow of another. A small page is mapped, with a backing, where the big page
is free; no mapped small page is under a big sparse page, and no sparse small page under a mapped big page; and a
mapped big page is unmapped as a whole. -/
def CallOk (memory : DeviceMemory) (m : MemoryManager) : Call → Prop
  | .map gpuAddr devAddr size true => Placed m true gpuAddr size ∧ DevicePlaced devAddr size
  | .map gpuAddr devAddr size false => Placed m false gpuAddr size ∧ DevicePlaced devAddr size ∧
      ∀ a, gpuAddr ≤ a → a < gpuAddr + size →
        m.getEntry true a = some .free ∧ (memory.getPointer (devAddr + (a - gpuAddr))).isSome
  | .mapSparse gpuAddr size true => Placed m true gpuAddr size ∧
      ∀ a, gpuAddr ≤ a → a < gpuAddr + size → m.getEntry false a ≠ some .mapped
  | .mapSparse gpuAddr size false => Placed m false gpuAddr size ∧
      ∀ a, gpuAddr ≤ a → a < gpuAddr + size → m.getEntry true a ≠ some .mapped
  | .unmap gpuAddr size => Placed m false gpuAddr size ∧
      ∀ a, gpuAddr ≤ a → a < gpuAddr + size → m.getEntry true a = some .mapped →
        gpuAddr ≤ a / m.usedPageSize true * m.usedPageSize true ∧
          (a / m.usedPageSize true + 1) * m.usedPageSize true ≤ gpuAddr + size

/-- The tables translate as the calls asked, no mapped small page is under a big sparse page, a big page that is
marked continuous is so in the host's memory, and a mapped small page has a backing. -/
structure Inv (memory : DeviceMemory) (m : MemoryManager) (translation : ℕ → Option ℕ) : Prop where
  sized : Sized m
  translates : ∀ a < m.addressSpaceSize, translation a = m.translate a
  outside : ∀ a, m.addressSpaceSize ≤ a → translation a = none
  sparse : ∀ a < m.addressSpaceSize, m.entry true (a / m.usedPageSize true) = .reserved →
    m.entry false (a / m.usedPageSize false) ≠ .mapped
  continuous : ∀ k, m.continuous k = true → m.isContinuous memory (m.deviceAddress true k 0) = true
  backed : ∀ k, m.entry false k = .mapped → (memory.getPointer (m.deviceAddress false k 0)).isSome

theorem Inv.gpuToCpuAddress (h : Inv memory m translation) (a : ℕ) : m.gpuToCpuAddress a = some (translation a) := by
  by_cases ha : a < m.addressSpaceSize
  · rw [h.sized.gpuToCpuAddress ha, h.translates a ha]
  · rw [gpuToCpuAddress_of_ge (Nat.not_lt.mp ha), h.outside a (Nat.not_lt.mp ha)]

/-! ### Ranges of pages -/

/-- The pages of a range of whole pages are those of its addresses. -/
theorem mem_pages_iff {page : ℕ} (hpos : 0 < page) (haddr : page ∣ gpuAddr) (hsize : page ∣ size) :
    (gpuAddr / page ≤ a / page ∧ a / page < gpuAddr / page + size / page) ↔ gpuAddr ≤ a ∧ a < gpuAddr + size := by
  obtain ⟨g, rfl⟩ := haddr
  obtain ⟨c, rfl⟩ := hsize
  rw [Nat.mul_div_cancel_left _ hpos, Nat.mul_div_cancel_left _ hpos, Nat.le_div_iff_mul_le hpos, Nat.div_lt_iff_lt_mul hpos,
    Nat.add_mul, Nat.mul_comm g, Nat.mul_comm c]

theorem Placed.pageCount (h : Placed m isBig gpuAddr size) : m.pageCount isBig size = size / m.usedPageSize isBig := by
  obtain ⟨c, hc⟩ := h.whole
  have hpos := m.usedPageSize_pos isBig
  unfold MemoryManager.pageCount
  rw [hc, Nat.mul_div_cancel_left _ hpos, Nat.add_sub_assoc hpos, Nat.mul_add_div hpos, Nat.div_eq_of_lt (by omega),
    Nat.add_zero]

theorem lt_of_lt_pageCount (hk : k < m.pageCount isBig size) : k * m.usedPageSize isBig < size := by
  have hpos := m.usedPageSize_pos isBig
  have hle := (Nat.le_div_iff_mul_le hpos).mp (show k + 1 ≤ m.pageCount isBig size from hk)
  rw [Nat.succ_mul] at hle
  omega

/-- The address of the device in a table's word. -/
theorem DevicePlaced.word (h : DevicePlaced devAddr size) (hk : k < size) (hdvd : cpuPageSize ∣ k) :
    (BitVec.ofNat 32 ((devAddr + k) / 2 ^ cpuPageBits)).toNat * 2 ^ cpuPageBits = devAddr + k := by
  have hfits : devAddr + size ≤ 2 ^ 32 * cpuPageSize := h.fits
  have hpos : 0 < cpuPageSize := Nat.two_pow_pos _
  have hin : devAddr + k < 2 ^ 32 * cpuPageSize := by omega
  have hlt : (devAddr + k) / 2 ^ cpuPageBits < 2 ^ 32 := (Nat.div_lt_iff_lt_mul hpos).mpr hin
  rw [BitVec.toNat_ofNat, Nat.mod_eq_of_lt hlt]
  exact Nat.div_mul_cancel ((Nat.dvd_add_right h.address).mpr hdvd)

theorem Sized.cpuPageSize_dvd (hm : Sized m) (isBig : Bool) : cpuPageSize ∣ m.usedPageSize isBig := by
  have hp := hm.pages
  cases isBig with
  | true => exact Nat.pow_dvd_pow 2 (Nat.le_of_lt hp)
  | false => exact Nat.dvd_refl _

section Pages

variable {first : ℕ} {frame : ℕ → BitVec 32} {value : ℕ → Bool}

/-- A page that a call does not set. -/
theorem PagesSet.same (h : PagesSet m m' isBig e first n frame value) {isBig' : Bool}
    (hnot : ¬ (isBig' = isBig ∧ first ≤ k ∧ k < first + n)) :
    m'.entry isBig' k = m.entry isBig' k ∧ m'.table isBig' k = m.table isBig' k := by
  rw [h.entry, h.table, if_neg hnot, if_neg fun hc => hnot hc.1]
  exact ⟨rfl, rfl⟩

theorem deviceAddress_congr {k' : ℕ} (htable : m'.table isBig k = m.table isBig k') (offset : ℕ) :
    m'.deviceAddress isBig k offset = m.deviceAddress isBig k' offset := by
  cases isBig <;> exact congrArg (fun w : BitVec 32 => w.toNat * 2 ^ cpuPageBits + offset) htable

/-- An address whose page of the set size is not set is translated as before. -/
theorem PagesSet.translate_of_not (h : PagesSet m m' isBig e first n frame value)
    (hnot : ¬ (first ≤ a / m.usedPageSize isBig ∧ a / m.usedPageSize isBig < first + n)) :
    m'.translate a = m.translate a := by
  have hsame : ∀ isBig', m'.entry isBig' (a / m.usedPageSize isBig') = m.entry isBig' (a / m.usedPageSize isBig') ∧
      m'.table isBig' (a / m.usedPageSize isBig') = m.table isBig' (a / m.usedPageSize isBig') := by
    intro isBig'
    refine h.same ?_
    rintro ⟨rfl, hc⟩
    exact hnot hc
  unfold translate
  rw [h.usedPageSize, h.usedPageSize, (hsame true).1, (hsame false).1, deviceAddress_congr (hsame true).2,
    deviceAddress_congr (hsame false).2]

end Pages

/-- The word that a call that maps pages gives one of them. -/
theorem PagesSet.deviceAddress_mapped {first : ℕ} {value : ℕ → Bool}
    (h : PagesSet m m' isBig .mapped first n
      (fun k => .ofNat 32 ((devAddr + k * m.usedPageSize isBig) / 2 ^ cpuPageBits)) value)
    (hm : Sized m) (hdev : DevicePlaced devAddr size) (hk : first ≤ k) (hn : k < first + n)
    (hsize : (k - first) * m.usedPageSize isBig < size) (offset : ℕ) :
    m'.deviceAddress isBig k offset = devAddr + (k - first) * m.usedPageSize isBig + offset := by
  have htable := h.table isBig k
  rw [if_pos ⟨⟨rfl, hk, hn⟩, rfl⟩] at htable
  have hword := hdev.word hsize (Nat.dvd_mul_left_of_dvd (hm.cpuPageSize_dvd isBig) _)
  cases isBig <;>
    exact (congrArg (fun w : BitVec 32 => w.toNat * 2 ^ cpuPageBits + offset) htable).trans (congrArg (· + offset) hword)

/-- The device address of an address that a call maps. -/
theorem mapped_address {page : ℕ} (hpos : 0 < page) (haddr : page ∣ gpuAddr) (ha : gpuAddr ≤ a) :
    devAddr + (a / page - gpuAddr / page) * page + a % page = devAddr + (a - gpuAddr) := by
  obtain ⟨g, rfl⟩ := haddr
  have hdiv := Nat.div_add_mod a page
  have hle : g ≤ a / page := (Nat.le_div_iff_mul_le hpos).mpr (Nat.mul_comm page g ▸ ha)
  rw [Nat.mul_div_cancel_left _ hpos, Nat.sub_mul, Nat.mul_comm (a / page), Nat.mul_comm g]
  have hmul := Nat.mul_le_mul_left page hle
  omega

theorem Placed.setPages (h : Placed m false gpuAddr size) (hm : Sized m) (e : EntryType) (devAddr : ℕ) :
    ∃ m', m.pageTableOp e gpuAddr devAddr size = some m' ∧
      PagesSet m m' false e (gpuAddr / m.usedPageSize false) (size / m.usedPageSize false)
        (fun k => .ofNat 32 ((devAddr + k * m.usedPageSize false) / 2 ^ cpuPageBits)) (fun _ => false) := by
  have hfits := h.fits
  unfold pageTableOp
  rw [if_neg (by omega), ← h.pageCount]
  refine hm.setPages e gpuAddr devAddr fun k hk => ?_
  have hlt := lt_of_lt_pageCount hk
  omega

theorem setBigPages_of_fits (hm : Sized m) (hfits : gpuAddr + size ≤ m.addressSpaceSize) (memory : DeviceMemory)
    (e : EntryType) (devAddr : ℕ) :
    ∃ m', m.bigPageTableOp memory e gpuAddr devAddr size = some m' ∧
      PagesSet m m' true e (gpuAddr / m.usedPageSize true) (m.pageCount true size)
        (fun k => .ofNat 32 ((devAddr + k * m.usedPageSize true) / 2 ^ cpuPageBits))
        (fun k => decide (e = .mapped) && m.isContinuous memory (devAddr + k * m.usedPageSize true)) := by
  refine hm.setBigPages memory e gpuAddr devAddr fun k hk => ?_
  have hlt := lt_of_lt_pageCount hk
  omega

/-! ### The calls -/

theorem isContinuous_congr (hbits : m'.bigPageBits = m.bigPageBits) : m'.isContinuous memory = m.isContinuous memory := by
  funext d
  unfold isContinuous usedPageSize usedPageBits
  rw [hbits]

/-- A call on one size of pages keeps the invariant, if it translates its own range as asked, leaves no mapped small page
under a big sparse one, and gives the words of the pages that it maps what they need. -/
theorem Inv.setPages {first : ℕ} {frame : ℕ → BitVec 32} {value : ℕ → Bool} (h : Inv memory m translation)
    (hset : PagesSet m m' isBig e first n frame value) {translation' : ℕ → Option ℕ}
    (hin : ∀ a < m.addressSpaceSize, first ≤ a / m.usedPageSize isBig → a / m.usedPageSize isBig < first + n →
      translation' a = m'.translate a ∧
        (m'.entry true (a / m.usedPageSize true) = .reserved → m'.entry false (a / m.usedPageSize false) ≠ .mapped))
    (hout : ∀ a, m.addressSpaceSize ≤ a ∨ ¬ (first ≤ a / m.usedPageSize isBig ∧ a / m.usedPageSize isBig < first + n) →
      translation' a = translation a)
    (hcontinuous : isBig = true → ∀ k, first ≤ k → k < first + n → value (k - first) = true →
      m.isContinuous memory (m'.deviceAddress true k 0) = true)
    (hbacked : isBig = false → e = .mapped → ∀ k, first ≤ k → k < first + n →
      (memory.getPointer (m'.deviceAddress false k 0)).isSome) :
    Inv memory m' translation' := by
  refine ⟨hset.sized h.sized, fun a ha => ?_, fun a ha => ?_, fun a ha hr => ?_, fun k hk => ?_, fun k hk => ?_⟩
  · rw [hset.addressSpaceSize] at ha
    by_cases hpage : first ≤ a / m.usedPageSize isBig ∧ a / m.usedPageSize isBig < first + n
    · exact (hin a ha hpage.1 hpage.2).1
    · rw [hout a (.inr hpage), hset.translate_of_not hpage, h.translates a ha]
  · rw [hset.addressSpaceSize] at ha
    rw [hout a (.inl ha), h.outside a ha]
  · rw [hset.addressSpaceSize] at ha
    rw [hset.usedPageSize] at hr ⊢
    by_cases hpage : first ≤ a / m.usedPageSize isBig ∧ a / m.usedPageSize isBig < first + n
    · exact (hin a ha hpage.1 hpage.2).2 hr
    · have hsame : ∀ isBig', m'.entry isBig' (a / m.usedPageSize isBig') = m.entry isBig' (a / m.usedPageSize isBig') := by
        intro isBig'
        refine (hset.same ?_).1
        rintro ⟨rfl, hc⟩
        exact hpage hc
      rw [hsame] at hr ⊢
      exact h.sparse a ha hr
  · rw [isContinuous_congr hset.bigPageBits]
    rw [hset.continuous] at hk
    by_cases hpage : isBig = true ∧ first ≤ k ∧ k < first + n
    · rw [if_pos hpage] at hk
      exact hcontinuous hpage.1 k hpage.2.1 hpage.2.2 hk
    · rw [if_neg hpage] at hk
      rw [deviceAddress_congr (hset.same fun hc => hpage ⟨hc.1.symm, hc.2⟩).2]
      exact h.continuous k hk
  · by_cases hpage : false = isBig ∧ first ≤ k ∧ k < first + n
    · rw [hset.entry, if_pos hpage] at hk
      exact hbacked hpage.1.symm hk k hpage.2.1 hpage.2.2
    · rw [(hset.same hpage).1] at hk
      rw [deviceAddress_congr (hset.same hpage).2]
      exact h.backed k hk

/-- The translation that a call on whole pages asks for is the old one outside of its pages. -/
theorem Placed.translateCall_out (hplaced : Placed m isBig gpuAddr size) {new : ℕ → Option ℕ} :
    ∀ a, m.addressSpaceSize ≤ a ∨ ¬ (gpuAddr / m.usedPageSize isBig ≤ a / m.usedPageSize isBig ∧
        a / m.usedPageSize isBig < gpuAddr / m.usedPageSize isBig + size / m.usedPageSize isBig) →
      (if gpuAddr ≤ a ∧ a < gpuAddr + size then new a else translation a) = translation a := by
  intro a ha
  refine if_neg fun hin => ?_
  rcases ha with ha | ha
  · have hfits := hplaced.fits
    omega
  · exact ha ((mem_pages_iff (m.usedPageSize_pos isBig) hplaced.address hplaced.whole).mpr hin)

/-- `Map` of big pages. -/
theorem Inv.mapBig (h : Inv memory m translation) (hok : CallOk memory m (.map gpuAddr devAddr size true)) :
    ∃ m', m.map memory gpuAddr devAddr size true = some m' ∧
      Inv memory m' (translateCall translation (.map gpuAddr devAddr size true)) := by
  obtain ⟨hplaced, hdev⟩ := hok
  have hpos := m.usedPageSize_pos true
  obtain ⟨m', heq, hset⟩ := setBigPages_of_fits h.sized hplaced.fits memory .mapped devAddr
  rw [hplaced.pageCount] at hset
  have hword : ∀ k, gpuAddr / m.usedPageSize true ≤ k →
      k < gpuAddr / m.usedPageSize true + size / m.usedPageSize true → ∀ offset,
      m'.deviceAddress true k offset = devAddr + (k - gpuAddr / m.usedPageSize true) * m.usedPageSize true + offset := by
    intro k hk hlt
    refine hset.deviceAddress_mapped h.sized hdev hk hlt (lt_of_lt_pageCount ?_)
    rw [hplaced.pageCount]
    omega
  refine ⟨m', heq, h.setPages hset (fun a ha h1 h2 => ⟨?_, fun hr => ?_⟩) hplaced.translateCall_out (fun _ k h1 h2 hv => ?_)
    nofun⟩
  · have hin := (mem_pages_iff hpos hplaced.address hplaced.whole).mp ⟨h1, h2⟩
    unfold translateCall translate
    dsimp only
    rw [hset.usedPageSize, if_pos hin, if_pos (by rw [hset.entry, if_pos ⟨rfl, h1, h2⟩]), hword _ h1 h2,
      mapped_address hpos hplaced.address hin.1]
  · rw [hset.entry, if_pos ⟨rfl, h1, h2⟩] at hr
    cases hr
  · rw [hword k h1 h2]
    simpa using hv

/-- `Map` of small pages. -/
theorem Inv.mapSmall (h : Inv memory m translation) (hok : CallOk memory m (.map gpuAddr devAddr size false)) :
    ∃ m', m.map memory gpuAddr devAddr size false = some m' ∧
      Inv memory m' (translateCall translation (.map gpuAddr devAddr size false)) := by
  obtain ⟨hplaced, hdev, hfree⟩ := hok
  have hpos := m.usedPageSize_pos false
  obtain ⟨m', heq, hset⟩ := hplaced.setPages h.sized .mapped devAddr
  have hword : ∀ k, gpuAddr / m.usedPageSize false ≤ k →
      k < gpuAddr / m.usedPageSize false + size / m.usedPageSize false → ∀ offset,
      m'.deviceAddress false k offset = devAddr + (k - gpuAddr / m.usedPageSize false) * m.usedPageSize false + offset := by
    intro k hk hlt
    refine hset.deviceAddress_mapped h.sized hdev hk hlt (lt_of_lt_pageCount ?_)
    rw [hplaced.pageCount]
    omega
  have hentry : ∀ a < m.addressSpaceSize, gpuAddr ≤ a ∧ a < gpuAddr + size →
      m'.entry true (a / m.usedPageSize true) = .free := by
    intro a ha hin
    have hold := (hfree a hin.1 hin.2).1
    rw [h.sized.getEntry true ha] at hold
    rw [hset.entry, if_neg nofun]
    exact Option.some.inj hold
  refine ⟨m', heq, h.setPages hset (fun a ha h1 h2 => ?_) hplaced.translateCall_out nofun (fun _ _ k h1 h2 => ?_)⟩
  · have hin := (mem_pages_iff hpos hplaced.address hplaced.whole).mp ⟨h1, h2⟩
    have hbig := hentry a ha hin
    refine ⟨?_, fun hr => ?_⟩
    · unfold translateCall translate
      dsimp only
      rw [hset.usedPageSize, hset.usedPageSize, if_pos hin, hbig, if_neg nofun,
        if_pos (by rw [hset.entry, if_pos ⟨rfl, h1, h2⟩]), hword _ h1 h2, mapped_address hpos hplaced.address hin.1]
    · cases hbig.symm.trans hr
  · have haddr : k * m.usedPageSize false / m.usedPageSize false = k := Nat.mul_div_cancel _ hpos
    have hin : gpuAddr ≤ k * m.usedPageSize false ∧ k * m.usedPageSize false < gpuAddr + size :=
      (mem_pages_iff hpos hplaced.address hplaced.whole).mp (by rw [haddr]; exact ⟨h1, h2⟩)
    have hsome := (hfree _ hin.1 hin.2).2
    rw [← mapped_address hpos hplaced.address hin.1, haddr, Nat.mul_mod_left] at hsome
    rw [hword k h1 h2]
    exact hsome

/-- An address of no mapped page. -/
theorem translate_eq_none (hbig : m.entry true (a / m.usedPageSize true) ≠ .mapped)
    (hsmall : m.entry false (a / m.usedPageSize false) ≠ .mapped) : m.translate a = none := by
  unfold translate
  rw [if_neg hbig, if_neg hsmall]

theorem Sized.entry_ne (hm : Sized m) (ha : a < m.addressSpaceSize) (h : m.getEntry isBig a ≠ some e) :
    m.entry isBig (a / m.usedPageSize isBig) ≠ e := by
  rw [hm.getEntry isBig ha] at h
  exact fun hc => h (congrArg some hc)

/-- `MapSparse` of big pages. -/
theorem Inv.mapSparseBig (h : Inv memory m translation) (hok : CallOk memory m (.mapSparse gpuAddr size true)) :
    ∃ m', m.mapSparse memory gpuAddr size true = some m' ∧
      Inv memory m' (translateCall translation (.mapSparse gpuAddr size true)) := by
  obtain ⟨hplaced, hsmall⟩ := hok
  obtain ⟨m', heq, hset⟩ := setBigPages_of_fits h.sized hplaced.fits memory .reserved 0
  rw [hplaced.pageCount] at hset
  refine ⟨m', heq, h.setPages hset (fun a ha h1 h2 => ?_) hplaced.translateCall_out nofun nofun⟩
  have hin := (mem_pages_iff (m.usedPageSize_pos true) hplaced.address hplaced.whole).mp ⟨h1, h2⟩
  have hfree : m'.entry false (a / m.usedPageSize false) ≠ .mapped := by
    rw [hset.entry, if_neg nofun]
    exact h.sized.entry_ne ha (hsmall a hin.1 hin.2)
  refine ⟨?_, fun _ => hfree⟩
  rw [translate_eq_none]
  · exact if_pos hin
  · rw [hset.usedPageSize, hset.entry, if_pos ⟨rfl, h1, h2⟩]
    exact nofun
  · rw [hset.usedPageSize]
    exact hfree

/-- `MapSparse` of small pages. -/
theorem Inv.mapSparseSmall (h : Inv memory m translation) (hok : CallOk memory m (.mapSparse gpuAddr size false)) :
    ∃ m', m.mapSparse memory gpuAddr size false = some m' ∧
      Inv memory m' (translateCall translation (.mapSparse gpuAddr size false)) := by
  obtain ⟨hplaced, hbig⟩ := hok
  obtain ⟨m', heq, hset⟩ := hplaced.setPages h.sized .reserved 0
  refine ⟨m', heq, h.setPages hset (fun a ha h1 h2 => ?_) hplaced.translateCall_out nofun nofun⟩
  have hin := (mem_pages_iff (m.usedPageSize_pos false) hplaced.address hplaced.whole).mp ⟨h1, h2⟩
  have hreserved : m'.entry false (a / m.usedPageSize false) = .reserved := by rw [hset.entry, if_pos ⟨rfl, h1, h2⟩]
  refine ⟨?_, fun _ => by rw [hreserved]; exact nofun⟩
  rw [translate_eq_none]
  · exact if_pos hin
  · rw [hset.usedPageSize, hset.entry, if_neg nofun]
    exact h.sized.entry_ne ha (hbig a hin.1 hin.2)
  · rw [hset.usedPageSize, hreserved]
    exact nofun

/-! ### Unmap -/

/-- A big page that the range touches is one of those that `Unmap` frees, if the range covers it. -/
theorem lt_pageCount_of_covers (m : MemoryManager) (h : (k + 1) * m.usedPageSize isBig ≤ gpuAddr + size) :
    k < gpuAddr / m.usedPageSize isBig + m.pageCount isBig size := by
  have hpos := m.usedPageSize_pos isBig
  set page := m.usedPageSize isBig with hpage
  have hsize : size ≤ m.pageCount isBig size * page := by
    have hdiv := Nat.div_add_mod (size + page - 1) page
    have hmod := Nat.mod_lt (size + page - 1) hpos
    rw [Nat.mul_comm] at hdiv
    unfold MemoryManager.pageCount
    rw [← hpage]
    omega
  have haddr := Nat.div_add_mod gpuAddr page
  have hmod := Nat.mod_lt gpuAddr hpos
  rw [Nat.mul_comm] at haddr
  have hlt : k * page < (gpuAddr / page + m.pageCount isBig size) * page := by
    rw [Nat.add_mul]
    rw [Nat.succ_mul] at h
    omega
  exact Nat.lt_of_mul_lt_mul_right hlt

/-- What `Unmap` frees of the big pages. -/
theorem Inv.freeBig (h : Inv memory m translation) (hok : CallOk memory m (.unmap gpuAddr size)) :
    ∃ m', m.bigPageTableOp memory .free gpuAddr 0 size = some m' ∧ Placed m' false gpuAddr size ∧
      (∀ a, gpuAddr ≤ a → a < gpuAddr + size → m'.entry true (a / m'.usedPageSize true) ≠ .mapped) ∧
      ∃ translation', Inv memory m' translation' ∧ ∀ a, ¬ (gpuAddr ≤ a ∧ a < gpuAddr + size) → translation' a = translation a := by
  obtain ⟨hplaced, hwhole⟩ := hok
  have hpos := m.usedPageSize_pos true
  obtain ⟨m', heq, hset⟩ := setBigPages_of_fits h.sized hplaced.fits memory .free 0
  -- a mapped big page with an address of the range is covered by it
  have hcover : ∀ a, gpuAddr ≤ a → a < gpuAddr + size → m.entry true (a / m.usedPageSize true) = .mapped →
      gpuAddr ≤ a / m.usedPageSize true * m.usedPageSize true ∧
        (a / m.usedPageSize true + 1) * m.usedPageSize true ≤ gpuAddr + size := by
    intro a h1 h2 hmapped
    have hfits := hplaced.fits
    exact hwhole a h1 h2 (by rw [h.sized.getEntry true (by omega), hmapped])
  have hplaced' : Placed m' false gpuAddr size := by
    refine ⟨?_, ?_, ?_⟩
    · rw [hset.usedPageSize]
      exact hplaced.address
    · rw [hset.usedPageSize]
      exact hplaced.whole
    · rw [hset.addressSpaceSize]
      exact hplaced.fits
  refine ⟨m', heq, hplaced', fun a h1 h2 => ?_, fun a => if a < m.addressSpaceSize then m'.translate a else none, ?_, ?_⟩
  · rw [hset.usedPageSize, hset.entry]
    split_ifs with hpage
    · exact nofun
    · intro hmapped
      have hc := hcover a h1 h2 hmapped
      have hle : gpuAddr / m.usedPageSize true ≤ a / m.usedPageSize true := Nat.div_le_div_right h1
      exact hpage ⟨rfl, hle, lt_pageCount_of_covers m hc.2⟩
  · refine h.setPages hset (fun a ha h1 h2 => ⟨if_pos ha, fun hr => ?_⟩) (fun a ha => ?_) (fun _ k h1 h2 => nofun) nofun
    · rw [hset.entry, if_pos ⟨rfl, h1, h2⟩] at hr
      cases hr
    · by_cases hlt : a < m.addressSpaceSize
      · have hnot := ha.resolve_left (Nat.not_le.mpr hlt)
        rw [if_pos hlt, hset.translate_of_not hnot, h.translates a hlt]
      · rw [if_neg hlt, h.outside a (Nat.not_lt.mp hlt)]
  · intro a hnot
    dsimp only
    by_cases hlt : a < m.addressSpaceSize
    · rw [if_pos hlt, h.translates a hlt]
      by_cases hpage : gpuAddr / m.usedPageSize true ≤ a / m.usedPageSize true ∧
          a / m.usedPageSize true < gpuAddr / m.usedPageSize true + m.pageCount true size
      · -- the big page is not mapped, since the range does not cover it
        set c := a / m.usedPageSize true - gpuAddr / m.usedPageSize true with hc
        have hold : m.entry true (a / m.usedPageSize true) ≠ .mapped := by
          intro hmapped
          have hin : c * m.usedPageSize true < size := lt_of_lt_pageCount (by omega)
          have hindex : (gpuAddr + c * m.usedPageSize true) / m.usedPageSize true = a / m.usedPageSize true := by
            rw [page_index]
            omega
          have hcov := hcover (gpuAddr + c * m.usedPageSize true) (by omega) (by omega) (by rw [hindex, hmapped])
          rw [hindex, Nat.succ_mul] at hcov
          have hdiv := Nat.div_add_mod a (m.usedPageSize true)
          have hmod := Nat.mod_lt a hpos
          rw [Nat.mul_comm] at hdiv
          exact hnot (by omega)
        have hnew : m'.entry true (a / m.usedPageSize true) ≠ .mapped := by
          rw [hset.entry, if_pos ⟨rfl, hpage⟩]
          exact nofun
        have hsame : m'.entry false (a / m.usedPageSize false) = m.entry false (a / m.usedPageSize false) ∧
            m'.table false (a / m.usedPageSize false) = m.table false (a / m.usedPageSize false) := hset.same nofun
        unfold translate
        rw [hset.usedPageSize, hset.usedPageSize, if_neg hnew, if_neg hold, hsame.1, deviceAddress_congr hsame.2]
      · rw [hset.translate_of_not hpage]
    · rw [if_neg hlt, h.outside a (Nat.not_lt.mp hlt)]

theorem Inv.unmap (h : Inv memory m translation) (hok : CallOk memory m (.unmap gpuAddr size)) :
    ∃ m', m.unmap memory gpuAddr size = some m' ∧ Inv memory m' (translateCall translation (.unmap gpuAddr size)) := by
  unfold MemoryManager.unmap
  by_cases hzero : size = 0
  · subst hzero
    refine ⟨m, if_pos rfl, ?_⟩
    have heq : translateCall translation (.unmap gpuAddr 0) = translation := by
      funext a
      exact if_neg (by omega)
    rw [heq]
    exact h
  · obtain ⟨m₁, h₁, hplaced, hbig, translation₁, hinv, hkeep⟩ := h.freeBig hok
    obtain ⟨m₂, h₂, hset⟩ := hplaced.setPages hinv.sized .free 0
    refine ⟨m₂, by rw [if_neg hzero, h₁, Option.bind_some, h₂], hinv.setPages hset (fun a ha h1 h2 => ?_) (fun a ha => ?_)
      nofun nofun⟩
    · have hin := (mem_pages_iff (m₁.usedPageSize_pos false) hplaced.address hplaced.whole).mp ⟨h1, h2⟩
      have hfree : m₂.entry false (a / m₁.usedPageSize false) = .free := by rw [hset.entry, if_pos ⟨rfl, h1, h2⟩]
      refine ⟨?_, fun _ => by rw [hfree]; exact nofun⟩
      rw [translate_eq_none]
      · exact if_pos hin
      · rw [hset.usedPageSize, hset.entry, if_neg nofun]
        exact hbig a hin.1 hin.2
      · rw [hset.usedPageSize, hfree]
        exact nofun
    · have hnot : ¬ (gpuAddr ≤ a ∧ a < gpuAddr + size) := by
        intro hin
        rcases ha with ha | ha
        · have hfits := hplaced.fits
          omega
        · exact ha ((mem_pages_iff (m₁.usedPageSize_pos false) hplaced.address hplaced.whole).mpr hin)
      rw [hkeep a hnot]
      exact if_neg hnot

/-! ### Runs -/

/-- Each call that meets its condition returns, and the tables translate as it asked. -/
theorem Inv.call (h : Inv memory m translation) {c : Call} (hok : CallOk memory m c) :
    ∃ m', m.call memory c = some m' ∧ Inv memory m' (translateCall translation c) := by
  cases c with
  | map gpuAddr devAddr size isBigPages =>
    cases isBigPages with
    | true => exact h.mapBig hok
    | false => exact h.mapSmall hok
  | mapSparse gpuAddr size isBigPages =>
    cases isBigPages with
    | true => exact h.mapSparseBig hok
    | false => exact h.mapSparseSmall hok
  | unmap gpuAddr size => exact h.unmap hok

/-- The calls that meet their conditions, from new tables, with the translation that they asked for. -/
inductive Runs (memory : DeviceMemory) : MemoryManager → (ℕ → Option ℕ) → Prop
  | new {addressSpaceBits bigPageBits : ℕ} : pageBits < bigPageBits → bigPageBits + 6 ≤ addressSpaceBits →
      Runs memory (.new addressSpaceBits bigPageBits) (fun _ => none)
  | call {m m' : MemoryManager} {translation : ℕ → Option ℕ} {c : Call} : Runs memory m translation →
      CallOk memory m c → m.call memory c = some m' → Runs memory m' (translateCall translation c)

theorem Inv.new {addressSpaceBits bigPageBits : ℕ} (hpages : pageBits < bigPageBits)
    (hwords : bigPageBits + 6 ≤ addressSpaceBits) : Inv memory (.new addressSpaceBits bigPageBits) (fun _ => none) := by
  have hfree : ∀ isBig k, (MemoryManager.new addressSpaceBits bigPageBits).entry isBig k = .free := by
    intro isBig k
    have hzero : (MemoryManager.new addressSpaceBits bigPageBits).words isBig (k / 32) = 0 := by cases isBig <;> rfl
    unfold MemoryManager.entry
    rw [hzero]
    simp [getField, EntryType.ofBits]
  have hunmapped : ∀ isBig k, (MemoryManager.new addressSpaceBits bigPageBits).entry isBig k ≠ .mapped := by
    intro isBig k hmapped
    rw [hfree] at hmapped
    cases hmapped
  refine ⟨⟨hpages, hwords⟩, fun a _ => ?_, fun _ _ => rfl, fun a _ hr => ?_, fun k hk => ?_, fun k hk => ?_⟩
  · exact (translate_eq_none (hunmapped true _) (hunmapped false _)).symm
  · rw [hfree] at hr
    cases hr
  · simp [MemoryManager.continuous, MemoryManager.new, getField] at hk
  · rw [hfree] at hk
    cases hk

theorem Runs.inv (h : Runs memory m translation) : Inv memory m translation := by
  induction h with
  | new hpages hwords => exact .new hpages hwords
  | call _ hok hcall ih =>
    obtain ⟨m', heq, hinv⟩ := ih.call hok
    rw [hcall] at heq
    cases heq
    exact hinv

end MemoryManager

end Tegra
end Citron
