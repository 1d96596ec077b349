/-
# Swizzling textures

`SwizzleTexture` and `UnswizzleTexture`: a texture goes between linear memory and block linear
memory, pixel by pixel. A span is the memory from its first byte on.
-/
import Mathlib.Tactic.Positivity
import Citron.Lib.Copies
import Citron.VideoCore.BlockLinear

namespace Citron
namespace Tegra

open BitVec

namespace Texture

open Lib (countLoop copyBytes)

abbrev U32 := BitVec 32

abbrev Bytes := ℕ → UInt8

abbrev gobSizeXShift : U32 := 6

abbrev gobSizeYShift : U32 := 3

abbrev gobSizeZShift : U32 := 0

abbrev gobSizeShift : U32 := gobSizeXShift + gobSizeYShift + gobSizeZShift

abbrev swizzleXBits : U32 := 0b100101111

abbrev swizzleYBits : U32 := 0b011010000

/-! ### Helpers -/

def divCeilLog2 (value alignmentLog2 : U32) : U32 := (value + (1#32 <<< alignmentLog2) - 1) >>> alignmentLog2

/-- Computed with 64 bits. -/
def alignUpLog2 (value alignLog2 : U32) : U32 :=
  ((value.setWidth 64 + ((1#64 <<< alignLog2) - 1)) >>> alignLog2 <<< alignLog2).setWidth 32

/-- The loop of `pdep`. Each turn takes the lowest bit away from the mask. -/
def pdepLoop (value m bit result : U32) : U32 :=
  if m = 0 then result
  else pdepLoop value (m &&& (m - 1)) (bit + bit) (if value &&& bit = 0 then result else result ||| (m &&& (~~~m + 1)))
termination_by m.toNat
decreasing_by
  have hne : m.toNat ≠ 0 := fun h0 => ‹¬m = 0› (eq_of_toNat_eq h0)
  have hle : (m &&& (m - 1)).toNat ≤ (m - 1).toNat := by
    rw [toNat_and]
    exact Nat.and_le_right
  have hlt := m.isLt
  rw [toNat_sub, show (1 : U32).toNat = 1 from rfl] at hle
  omega

def pdep (mask value : U32) : U32 := pdepLoop value mask 1 0

def incrpdep (mask incrAmount value : U32) : U32 := ((value ||| ~~~mask) + pdep mask incrAmount) &&& mask

/-- `std::countr_zero` of 32 bits. -/
def countrZero (value : U32) : ℕ := ((List.range 32).find? value.getLsbD).getD 32

/-! ### The copy -/

/-- A pixel of a row: `offset` is that of the row and slice, `line` where the row starts in linear memory. The
swizzled position in a GOB is stepped along with the columns. -/
def swizzlePixel (toLinear : Bool) (bytesPerPixel xShift offset swizzledY line : U32) (input : Bytes) (column : ℕ)
    (s : U32 × Bytes) : U32 × Bytes :=
  let (swizzledX, output) := s
  let x := BitVec.ofNat 32 column * bytesPerPixel
  let offsetX := (x >>> gobSizeXShift) <<< xShift
  let swizzledOffset := offset + offsetX + (swizzledX ||| swizzledY)
  let unswizzledOffset := line + BitVec.ofNat 32 column * bytesPerPixel
  let dst := if toLinear then swizzledOffset else unswizzledOffset
  let src := if toLinear then unswizzledOffset else swizzledOffset
  (incrpdep swizzleXBits bytesPerPixel swizzledX, copyBytes bytesPerPixel.toNat dst.toNat src.toNat input output)

def blockSize (blockHeight blockDepth stride : U32) : U32 :=
  let gobsInX := divCeilLog2 stride gobSizeXShift
  gobsInX <<< (gobSizeShift + blockHeight + blockDepth)

def sliceSize (height blockHeight blockDepth stride : U32) : U32 :=
  divCeilLog2 height (blockHeight + gobSizeYShift) * blockSize blockHeight blockDepth stride

def offsetZ (height blockHeight blockDepth stride z : U32) : U32 :=
  let blockDepthMask := (1#32 <<< blockDepth) - 1
  (z >>> blockDepth) * sliceSize height blockHeight blockDepth stride +
    ((z &&& blockDepthMask) <<< (gobSizeShift + blockHeight))

def offsetY (blockHeight blockDepth stride y : U32) : U32 :=
  let blockHeightMask := (1#32 <<< blockHeight) - 1
  let blockY := y >>> gobSizeYShift
  (blockY >>> blockHeight) * blockSize blockHeight blockDepth stride + ((blockY &&& blockHeightMask) <<< gobSizeShift)

def swizzleImpl (toLinear : Bool) (bytesPerPixel : U32) (output input : Bytes)
    (width height depth blockHeight blockDepth stride : U32) : Bytes :=
  let pitch := width * bytesPerPixel
  let xShift := gobSizeShift + blockHeight + blockDepth
  countLoop (fun slice output =>
    let z := BitVec.ofNat 32 slice
    let offsetZ := offsetZ height blockHeight blockDepth stride z
    countLoop (fun line output =>
      let y := BitVec.ofNat 32 line
      let swizzledY := pdep swizzleYBits y
      let offsetY := offsetY blockHeight blockDepth stride y
      (countLoop (swizzlePixel toLinear bytesPerPixel xShift (offsetZ + offsetY) swizzledY
        (z * pitch * height + y * pitch) input) width.toNat (pdep swizzleXBits (0 * bytesPerPixel), output)).2)
      height.toNat output) depth.toNat output

instance decidablePixelSize (bytesPerPixel : U32) :
    Decidable (bytesPerPixel ∈ ([1, 2, 3, 4, 6, 8, 12, 16] : List U32)) := inferInstance

/-- The other sizes of a pixel are refused with an assertion. -/
def swizzle (toLinear : Bool) (output input : Bytes) (bytesPerPixel width height depth blockHeight blockDepth
    strideAlignment : U32) : Bytes :=
  if bytesPerPixel ∈ [1, 2, 3, 4, 6, 8, 12, 16] then
    swizzleImpl toLinear bytesPerPixel output input width height depth blockHeight blockDepth strideAlignment
  else output

/-- What `SwizzleTexture` (to block linear memory) and `UnswizzleTexture` do: the pixel is widened as far as the row
allows. -/
def widenAndSwizzle (toLinear : Bool) (output input : Bytes) (bytesPerPixel width height depth blockHeight blockDepth
    strideAlignment : U32) : Bytes :=
  let stride := alignUpLog2 width strideAlignment * bytesPerPixel
  let newBpp := min 4 (countrZero (width * bytesPerPixel))
  let width := (width * bytesPerPixel) >>> newBpp
  let bytesPerPixel := 1#32 <<< newBpp
  swizzle toLinear output input bytesPerPixel width height depth blockHeight blockDepth stride

def unswizzleTexture (output input : Bytes) (bytesPerPixel width height depth blockHeight blockDepth
    strideAlignment : U32) : Bytes :=
  widenAndSwizzle false output input bytesPerPixel width height depth blockHeight blockDepth strideAlignment

def swizzleTexture (output input : Bytes) (bytesPerPixel width height depth blockHeight blockDepth
    strideAlignment : U32) : Bytes :=
  widenAndSwizzle true output input bytesPerPixel width height depth blockHeight blockDepth strideAlignment

def calculateSize (tiled : Bool) (bytesPerPixel width height depth blockHeight blockDepth : U32) : U32 :=
  if tiled then
    let alignedWidth := alignUpLog2 (width * bytesPerPixel) gobSizeXShift
    let alignedHeight := alignUpLog2 height (gobSizeYShift + blockHeight)
    let alignedDepth := alignUpLog2 depth (gobSizeZShift + blockDepth)
    alignedWidth * alignedHeight * alignedDepth
  else width * height * depth * bytesPerPixel

/-! ### Deposits -/

theorem and_bit_eq_zero (value : U32) {i : ℕ} (hi : i < 32) :
    value &&& BitVec.twoPow 32 i = 0 ↔ value.toNat / 2 ^ i % 2 = 0 := by
  have hbit : value.getLsbD i = decide (value.toNat / 2 ^ i % 2 = 1) := Nat.testBit_eq_decide_div_mod_eq
  have hne : ¬BitVec.twoPow 32 i = 0#32 := by
    intro h0
    have hnat := congrArg BitVec.toNat h0
    rw [toNat_twoPow_of_lt hi] at hnat
    exact (Nat.two_pow_pos i).ne' hnat
  rw [and_twoPow, hbit]
  rcases Nat.mod_two_eq_zero_or_one (value.toNat / 2 ^ i) with h | h
  · simp [h]
  · simp [h, hne]

/-- A turn of the loop, when `p` is the lowest bit of the mask and the result has only bits below it. -/
theorem pdepLoop_turn (value : U32) {m result : U32} {i p : ℕ} (hi : i < 32) (hp : p < 32) (hm : m ≠ 0)
    (hlow : m &&& (~~~m + 1) = BitVec.twoPow 32 p) (hr : result.toNat < 2 ^ p) :
    ∃ result' : U32, pdepLoop value m (BitVec.twoPow 32 i) result =
        pdepLoop value (m &&& (m - 1)) (BitVec.twoPow 32 (i + 1)) result' ∧
      result'.toNat = result.toNat + value.toNat / 2 ^ i % 2 * 2 ^ p := by
  have hbit : BitVec.twoPow 32 i + BitVec.twoPow 32 i = BitVec.twoPow 32 (i + 1) := by
    apply eq_of_toNat_eq
    have hpow : 2 ^ (i + 1) = 2 ^ i + 2 ^ i := by rw [Nat.pow_succ, Nat.mul_two]
    rw [toNat_add, toNat_twoPow, toNat_twoPow, ← Nat.add_mod, hpow]
  rw [pdepLoop, if_neg hm, hbit, hlow]
  refine ⟨_, rfl, ?_⟩
  split
  · next h => rw [(and_bit_eq_zero value hi).mp h, Nat.zero_mul, Nat.add_zero]
  · next h =>
    have hone : value.toNat / 2 ^ i % 2 = 1 := by
      have hne := mt (and_bit_eq_zero value hi).mpr h
      omega
    have hor := Nat.two_pow_add_eq_or_of_lt hr 1
    rw [Nat.mul_one] at hor
    rw [hone, Nat.one_mul, toNat_or, toNat_twoPow_of_lt hp, Nat.or_comm, Nat.add_comm, hor]

/-- The bits of the mask, from the lowest. -/
def HasBits : U32 → List ℕ → Prop
  | m, [] => m = 0
  | m, p :: ps => m ≠ 0 ∧ p < 32 ∧ m &&& (~~~m + 1) = BitVec.twoPow 32 p ∧ HasBits (m &&& (m - 1)) ps

/-- The bits of a number from the `i`-th on, put at the positions. -/
def deposit (value : ℕ) : ℕ → List ℕ → ℕ
  | _, [] => 0
  | i, p :: ps => value / 2 ^ i % 2 * 2 ^ p + deposit value (i + 1) ps

theorem pdepLoop_eq (value : U32) : ∀ (ps : List ℕ) {m result : U32} {i : ℕ}, HasBits m ps → ps.Pairwise (· < ·) →
    i + ps.length ≤ 32 → (∀ p ∈ ps, result.toNat < 2 ^ p) →
    (pdepLoop value m (BitVec.twoPow 32 i) result).toNat = result.toNat + deposit value.toNat i ps
  | [], m, result, i, hm, _, _, _ => by
    obtain rfl : m = 0 := hm
    rw [pdepLoop, if_pos rfl, deposit, Nat.add_zero]
  | p :: ps, m, result, i, ⟨hm, hp, hlow, hbits⟩, hsorted, hlen, hr => by
    obtain ⟨hlt, hsorted⟩ := List.pairwise_cons.mp hsorted
    rw [List.length_cons] at hlen
    have hi : i < 32 := by omega
    obtain ⟨result', heq, hresult⟩ := pdepLoop_turn value hi hp hm hlow (hr p List.mem_cons_self)
    have hr' : ∀ q ∈ ps, result'.toNat < 2 ^ q := by
      intro q hq
      have hpow : 2 ^ (p + 1) ≤ 2 ^ q := Nat.pow_le_pow_right (by decide) (hlt q hq)
      have hhead := hr p List.mem_cons_self
      have hbit : value.toNat / 2 ^ i % 2 * 2 ^ p ≤ 1 * 2 ^ p := Nat.mul_le_mul_right _ (by omega)
      rw [Nat.pow_succ] at hpow
      omega
    rw [heq, pdepLoop_eq value ps hbits hsorted (by omega) hr', hresult, deposit, Nat.add_assoc]

theorem pdep_eq {mask value : U32} (ps : List ℕ) (hm : HasBits mask ps) (hsorted : ps.Pairwise (· < ·))
    (hlen : ps.length ≤ 32) : (pdep mask value).toNat = deposit value.toNat 0 ps := by
  have hlen' : 0 + ps.length ≤ 32 := by omega
  have hr : ∀ p ∈ ps, (0 : U32).toNat < 2 ^ p := fun p _ => Nat.two_pow_pos p
  have h := pdepLoop_eq value ps hm hsorted hlen' hr
  exact h.trans (Nat.zero_add _)

theorem hasBits_x : HasBits swizzleXBits [0, 1, 2, 3, 5, 8] := by
  simp only [HasBits]
  decide

theorem hasBits_y : HasBits swizzleYBits [4, 6, 7] := by
  simp only [HasBits]
  decide

/-- The deposit of `x` in a GOB. -/
def depositX (x : ℕ) : ℕ := x % 64 / 32 * 256 + x % 32 / 16 * 32 + x % 16

/-- The deposit of `y` in a GOB. -/
def depositY (y : ℕ) : ℕ := y % 8 / 2 * 64 + y % 2 * 16

theorem depositX_mod (x : ℕ) : depositX (x % 64) = depositX x := by
  unfold depositX
  omega

theorem depositY_mod (y : ℕ) : depositY (y % 8) = depositY y := by
  unfold depositY
  omega

theorem depositX_lt (x : ℕ) : depositX x < 2 ^ 32 := by
  unfold depositX
  omega

theorem depositY_lt (y : ℕ) : depositY y < 2 ^ 32 := by
  unfold depositY
  omega

theorem pdep_x (x : U32) : pdep swizzleXBits x = BitVec.ofNat 32 (depositX x.toNat) := by
  apply eq_of_toNat_eq
  rw [pdep_eq [0, 1, 2, 3, 5, 8] hasBits_x (by decide) (by decide), toNat_ofNat,
    Nat.mod_eq_of_lt (depositX_lt _)]
  simp only [deposit, depositX, Nat.reduceAdd, Nat.reducePow]
  omega

theorem pdep_y (y : U32) : pdep swizzleYBits y = BitVec.ofNat 32 (depositY y.toNat) := by
  apply eq_of_toNat_eq
  rw [pdep_eq [4, 6, 7] hasBits_y (by decide) (by decide), toNat_ofNat,
    Nat.mod_eq_of_lt (depositY_lt _)]
  simp only [deposit, depositY, Nat.reduceAdd, Nat.reducePow]
  omega

theorem deposit_or : ∀ x < 64, ∀ y < 8, depositX x ||| depositY y = depositX x + depositY y := by
  decide

/-- The two deposits together are the table's entry. -/
theorem pdep_or (x y : U32) : (pdep swizzleXBits x ||| pdep swizzleYBits y).toNat = swizzleTable x.toNat y.toNat := by
  have h := deposit_or (x.toNat % 64) (Nat.mod_lt _ (by decide)) (y.toNat % 8) (Nat.mod_lt _ (by decide))
  rw [depositX_mod, depositY_mod] at h
  rw [pdep_x, pdep_y, toNat_or, toNat_ofNat, toNat_ofNat]
  rw [Nat.mod_eq_of_lt (depositX_lt _), Nat.mod_eq_of_lt (depositY_lt _), h]
  unfold depositX depositY swizzleTable
  omega

theorem step_deposit : ∀ k ≤ 4, ∀ x < 64,
    ((BitVec.ofNat 32 (depositX x) ||| ~~~swizzleXBits) + BitVec.ofNat 32 (depositX (2 ^ k))) &&& swizzleXBits =
      BitVec.ofNat 32 (depositX (x + 2 ^ k)) := by
  decide

/-- Stepping the deposit is the deposit of the next position. -/
theorem incrpdep_pdep {k : ℕ} (hk : k ≤ 4) (x : U32) :
    incrpdep swizzleXBits (1#32 <<< k) (pdep swizzleXBits x) = pdep swizzleXBits (x + 1#32 <<< k) := by
  have hpow : (1#32 <<< k).toNat = 2 ^ k := by
    rw [toNat_shiftLeft, Nat.shiftLeft_eq]
    have hle : 2 ^ k ≤ 2 ^ 4 := Nat.pow_le_pow_right (by decide) hk
    change 1 * 2 ^ k % 2 ^ 32 = 2 ^ k
    omega
  have hstep := step_deposit k hk (x.toNat % 64) (Nat.mod_lt _ (by decide))
  rw [depositX_mod] at hstep
  rw [incrpdep, pdep_x, pdep_x, pdep_x, hpow, hstep, toNat_add, hpow, ← depositX_mod, ← depositX_mod (_ % 2 ^ 32)]
  congr 2
  omega

end Texture

/-! ## The offsets of the source and the block linear layout

Where the sizes fit into 32 bits no sum or product of the source wraps, and the offset it computes
for a byte is the byte's place in the layout.
-/

namespace Texture

open Lib

/-! ### Words of 32 bits -/

variable {a b : U32} {n slices : ℕ}

theorem toNat_shiftLeft_of_lt (h : a.toNat * 2 ^ n < 2 ^ 32) : (a <<< n).toNat = a.toNat * 2 ^ n := by
  rw [toNat_shiftLeft, Nat.shiftLeft_eq, Nat.mod_eq_of_lt h]

theorem toNat_shiftRight (a : U32) (n : ℕ) : (a >>> n).toNat = a.toNat / 2 ^ n := by
  rw [toNat_ushiftRight, Nat.shiftRight_eq_div_pow]

theorem toNat_one_shiftLeft (h : n < 32) : (1#32 <<< n).toNat = 2 ^ n := by
  have hpow : 2 ^ n < 2 ^ 32 := Nat.pow_lt_pow_right (by decide) h
  have hone : (1#32).toNat * 2 ^ n = 2 ^ n := Nat.one_mul _
  rw [toNat_shiftLeft_of_lt (by rwa [hone]), hone]

theorem toNat_and_mask (a : U32) (h : n < 32) : (a &&& ((1#32 <<< n) - 1)).toNat = a.toNat % 2 ^ n := by
  have hpow : 2 ^ n < 2 ^ 32 := Nat.pow_lt_pow_right (by decide) h
  have hpos := Nat.two_pow_pos n
  have hmask : ((1#32 <<< n) - 1).toNat = 2 ^ n - 1 := by
    rw [toNat_sub, toNat_one_shiftLeft h]
    change (2 ^ 32 - 1 + 2 ^ n) % 2 ^ 32 = 2 ^ n - 1
    omega
  rw [toNat_and, hmask, Nat.and_two_pow_sub_one_eq_mod]

theorem toNat_add_of_lt (h : a.toNat + b.toNat < 2 ^ 32) : (a + b).toNat = a.toNat + b.toNat := by
  rw [toNat_add, Nat.mod_eq_of_lt h]

theorem toNat_sum_of_lt {c d : U32} (h : a.toNat + b.toNat + c.toNat + d.toNat < 2 ^ 32) :
    (a + b + c + d).toNat = a.toNat + b.toNat + c.toNat + d.toNat := by
  rw [toNat_add, toNat_add, toNat_add]
  omega

theorem toNat_mul_of_lt (h : a.toNat * b.toNat < 2 ^ 32) : (a * b).toNat = a.toNat * b.toNat := by
  rw [toNat_mul, Nat.mod_eq_of_lt h]

theorem toNat_divCeilLog2 {value alignment : U32} (ha : alignment.toNat < 32)
    (h : value.toNat + 2 ^ alignment.toNat ≤ 2 ^ 32) :
    (divCeilLog2 value alignment).toNat = ceilDiv value.toNat (2 ^ alignment.toNat) := by
  have hpos := Nat.two_pow_pos alignment.toNat
  have hsum : (value + (1#32 <<< alignment) - 1).toNat = value.toNat + (2 ^ alignment.toNat - 1) := by
    rw [toNat_sub, toNat_add, shiftLeft_eq', toNat_one_shiftLeft ha]
    change (2 ^ 32 - 1 + (value.toNat + 2 ^ alignment.toNat) % 2 ^ 32) % 2 ^ 32 = _
    omega
  rw [divCeilLog2, ushiftRight_eq', toNat_shiftRight, hsum, ceilDiv]

/-! ### Layouts that fit -/

/-- The layout that the parameters of `SwizzleImpl` describe. -/
def layout (height blockHeight blockDepth stride : U32) : BlockLinear where
  gobsInX := ceilDiv stride.toNat 64
  blocksInY := ceilDiv height.toNat (2 ^ (blockHeight.toNat + 3))
  blockHeight := blockHeight.toNat
  blockDepth := blockDepth.toNat

/-- The bytes of all its blocks. -/
def layoutSize (height depth blockHeight blockDepth stride : U32) : ℕ :=
  (layout height blockHeight blockDepth stride).size (ceilDiv depth.toNat (2 ^ blockDepth.toNat))

theorem ceilDiv_pos {m : ℕ} (hm : 0 < m) (hn : 0 < n) : 0 < ceilDiv n m := by
  have hle := le_ceilDiv_mul hm n
  apply Nat.pos_of_ne_zero
  intro h0
  rw [h0, Nat.zero_mul] at hle
  omega

variable {height depth blockHeight blockDepth stride : U32}

theorem column_lt {x : ℕ} (hx : x < stride.toNat) : x / 64 < (layout height blockHeight blockDepth stride).gobsInX :=
  div_lt_ceilDiv (by decide) hx

theorem row_lt_ceilDiv {y k : ℕ} (hy : y < n) : y / 8 / 2 ^ k < ceilDiv n (2 ^ (k + 3)) := by
  have hpow : 8 * 2 ^ k = 2 ^ (k + 3) := by
    rw [Nat.pow_add, Nat.mul_comm]
  rw [Nat.div_div_eq_div_mul, hpow]
  exact div_lt_ceilDiv (Nat.two_pow_pos _) hy

theorem row_lt {y : ℕ} (hy : y < height.toNat) :
    y / 8 / 2 ^ (layout height blockHeight blockDepth stride).blockHeight <
      (layout height blockHeight blockDepth stride).blocksInY := row_lt_ceilDiv hy

theorem place_lt_layoutSize {x y z : ℕ} (hx : x < stride.toNat) (hy : y < height.toNat) (hz : z < depth.toNat) :
    (layout height blockHeight blockDepth stride).place x y z < layoutSize height depth blockHeight blockDepth stride :=
  BlockLinear.place_lt (column_lt hx) (row_lt hy) (div_lt_ceilDiv (Nat.two_pow_pos _) hz)

/-- The image has bytes, and its blocks fit. -/
structure Fits (height depth blockHeight blockDepth stride : U32) : Prop where
  stride_pos : 0 < stride.toNat
  height_pos : 0 < height.toNat
  depth_pos : 0 < depth.toNat
  size_lt : layoutSize height depth blockHeight blockDepth stride < 2 ^ 32

namespace Fits

variable (h : Fits height depth blockHeight blockDepth stride)
include h

/-- A factor of the size fits too. -/
theorem factor_lt {n : ℕ} (hn : n ∣ layoutSize height depth blockHeight blockDepth stride) : n < 2 ^ 32 := by
  have hx : 0 < ceilDiv stride.toNat 64 := ceilDiv_pos (by decide) h.stride_pos
  have hy : 0 < ceilDiv height.toNat (2 ^ (blockHeight.toNat + 3)) := ceilDiv_pos (Nat.two_pow_pos _) h.height_pos
  have hz : 0 < ceilDiv depth.toNat (2 ^ blockDepth.toNat) := ceilDiv_pos (Nat.two_pow_pos _) h.depth_pos
  have hpos : 0 < layoutSize height depth blockHeight blockDepth stride := by
    simp only [layoutSize, BlockLinear.size, layout]
    positivity
  exact Nat.lt_of_le_of_lt (Nat.le_of_dvd hpos hn) h.size_lt

theorem shift_lt : 9 + blockHeight.toNat + blockDepth.toNat < 32 := by
  have hdvd : 2 ^ (9 + blockHeight.toNat + blockDepth.toNat) ∣ layoutSize height depth blockHeight blockDepth stride := by
    refine ⟨ceilDiv depth.toNat (2 ^ blockDepth.toNat) * ceilDiv height.toNat (2 ^ (blockHeight.toNat + 3)) *
      ceilDiv stride.toNat 64, ?_⟩
    simp only [layoutSize, BlockLinear.size, layout, Nat.pow_add]
    ring
  exact (Nat.pow_lt_pow_iff_right (by decide)).mp (h.factor_lt hdvd)

theorem toNat_gobShift : (gobSizeShift + blockHeight).toNat = 9 + blockHeight.toNat := by
  have hshift := h.shift_lt
  have hlt : gobSizeShift.toNat + blockHeight.toNat < 2 ^ 32 := by
    change 9 + blockHeight.toNat < 2 ^ 32
    omega
  exact toNat_add_of_lt hlt

theorem toNat_shift : (gobSizeShift + blockHeight + blockDepth).toNat = 9 + blockHeight.toNat + blockDepth.toNat := by
  have hshift := h.shift_lt
  rw [toNat_add_of_lt, h.toNat_gobShift]
  rw [h.toNat_gobShift]
  omega

theorem toNat_gobsInX : (divCeilLog2 stride gobSizeXShift).toNat = ceilDiv stride.toNat 64 := by
  have hdvd : ceilDiv stride.toNat 64 * 512 ∣ layoutSize height depth blockHeight blockDepth stride := by
    refine ⟨ceilDiv depth.toNat (2 ^ blockDepth.toNat) * ceilDiv height.toNat (2 ^ (blockHeight.toNat + 3)) *
      2 ^ blockDepth.toNat * 2 ^ blockHeight.toNat, ?_⟩
    simp only [layoutSize, BlockLinear.size, layout]
    ring
  have hlt := h.factor_lt hdvd
  have hle := le_ceilDiv_mul (m := 64) (by decide) stride.toNat
  exact toNat_divCeilLog2 (by decide) (by change stride.toNat + 64 ≤ 2 ^ 32; omega)

theorem toNat_blocksInY : (divCeilLog2 height (blockHeight + gobSizeYShift)).toNat =
    ceilDiv height.toNat (2 ^ (blockHeight.toNat + 3)) := by
  have hshift := h.shift_lt
  have ha : (blockHeight + gobSizeYShift).toNat = blockHeight.toNat + 3 :=
    toNat_add_of_lt (by change blockHeight.toNat + 3 < 2 ^ 32; omega)
  have hdvd : ceilDiv height.toNat (2 ^ (blockHeight.toNat + 3)) * 2 ^ (blockHeight.toNat + 3) * 64 ∣
      layoutSize height depth blockHeight blockDepth stride := by
    refine ⟨ceilDiv depth.toNat (2 ^ blockDepth.toNat) * ceilDiv stride.toNat 64 * 2 ^ blockDepth.toNat, ?_⟩
    simp only [layoutSize, BlockLinear.size, layout, Nat.pow_add]
    ring
  have hlt := h.factor_lt hdvd
  have hle := le_ceilDiv_mul (Nat.two_pow_pos (blockHeight.toNat + 3)) height.toNat
  have hpow : 2 ^ (blockHeight.toNat + 3) ≤ 2 ^ 31 := Nat.pow_le_pow_right (by decide) (by omega)
  have hsum : height.toNat + 2 ^ (blockHeight + gobSizeYShift).toNat ≤ 2 ^ 32 := by
    rw [ha]
    omega
  rw [toNat_divCeilLog2 (by omega) hsum, ha]

theorem toNat_blockSize : (blockSize blockHeight blockDepth stride).toNat =
    ceilDiv stride.toNat 64 * 2 ^ (9 + blockHeight.toNat + blockDepth.toNat) := by
  have hdvd : ceilDiv stride.toNat 64 * 2 ^ (9 + blockHeight.toNat + blockDepth.toNat) ∣
      layoutSize height depth blockHeight blockDepth stride := by
    refine ⟨ceilDiv depth.toNat (2 ^ blockDepth.toNat) * ceilDiv height.toNat (2 ^ (blockHeight.toNat + 3)), ?_⟩
    simp only [layoutSize, BlockLinear.size, layout, Nat.pow_add]
    ring
  rw [blockSize, shiftLeft_eq', h.toNat_shift, toNat_shiftLeft_of_lt, h.toNat_gobsInX]
  rw [h.toNat_gobsInX]
  exact h.factor_lt hdvd

theorem toNat_sliceSize : (sliceSize height blockHeight blockDepth stride).toNat =
    ceilDiv height.toNat (2 ^ (blockHeight.toNat + 3)) *
      (ceilDiv stride.toNat 64 * 2 ^ (9 + blockHeight.toNat + blockDepth.toNat)) := by
  have hdvd : ceilDiv height.toNat (2 ^ (blockHeight.toNat + 3)) *
      (ceilDiv stride.toNat 64 * 2 ^ (9 + blockHeight.toNat + blockDepth.toNat)) ∣
        layoutSize height depth blockHeight blockDepth stride := by
    refine ⟨ceilDiv depth.toNat (2 ^ blockDepth.toNat), ?_⟩
    simp only [layoutSize, BlockLinear.size, layout, Nat.pow_add]
    ring
  rw [sliceSize, toNat_mul_of_lt] <;> rw [h.toNat_blocksInY, h.toNat_blockSize]
  exact h.factor_lt hdvd

/-- **The offset of the source is the place in the layout.** -/
theorem toNat_offset {x y z : U32} (hx : x.toNat < stride.toNat) (hy : y.toNat < height.toNat)
    (hz : z.toNat < depth.toNat) :
    (offsetZ height blockHeight blockDepth stride z + offsetY blockHeight blockDepth stride y +
      ((x >>> gobSizeXShift) <<< (gobSizeShift + blockHeight + blockDepth)) +
        (pdep swizzleXBits x ||| pdep swizzleYBits y)).toNat =
      (layout height blockHeight blockDepth stride).place x.toNat y.toNat z.toNat := by
  have hshift := h.shift_lt
  have hlt : (layout height blockHeight blockDepth stride).place x.toNat y.toNat z.toNat < 2 ^ 32 :=
    Nat.lt_trans (place_lt_layoutSize hx hy hz) h.size_lt
  rw [BlockLinear.place_eq_sum] at hlt ⊢
  simp only [layout] at hlt ⊢
  have hz₁ : ((z >>> blockDepth) * sliceSize height blockHeight blockDepth stride).toNat =
      z.toNat / 2 ^ blockDepth.toNat * (ceilDiv height.toNat (2 ^ (blockHeight.toNat + 3)) *
        (ceilDiv stride.toNat 64 * 2 ^ (9 + blockHeight.toNat + blockDepth.toNat))) := by
    rw [toNat_mul_of_lt] <;> rw [ushiftRight_eq', toNat_shiftRight, h.toNat_sliceSize]
    omega
  have hz₂ : ((z &&& ((1#32 <<< blockDepth) - 1)) <<< (gobSizeShift + blockHeight)).toNat =
      z.toNat % 2 ^ blockDepth.toNat * 2 ^ (9 + blockHeight.toNat) := by
    rw [shiftLeft_eq', shiftLeft_eq', h.toNat_gobShift, toNat_shiftLeft_of_lt] <;>
      rw [toNat_and_mask z (by omega)]
    omega
  have hy₁ : ((y >>> gobSizeYShift) >>> blockHeight * blockSize blockHeight blockDepth stride).toNat =
      y.toNat / 8 / 2 ^ blockHeight.toNat *
        (ceilDiv stride.toNat 64 * 2 ^ (9 + blockHeight.toNat + blockDepth.toNat)) := by
    rw [toNat_mul_of_lt] <;>
      rw [ushiftRight_eq', ushiftRight_eq', toNat_shiftRight, toNat_shiftRight, h.toNat_blockSize]
    · rfl
    · change y.toNat / 8 / 2 ^ blockHeight.toNat * _ < _
      omega
  have hy₂ : (((y >>> gobSizeYShift) &&& ((1#32 <<< blockHeight) - 1)) <<< gobSizeShift).toNat =
      y.toNat / 8 % 2 ^ blockHeight.toNat * 2 ^ 9 := by
    rw [shiftLeft_eq', shiftLeft_eq', ushiftRight_eq', toNat_shiftLeft_of_lt] <;>
      rw [toNat_and_mask _ (by omega), toNat_shiftRight]
    · rfl
    · change y.toNat / 8 % 2 ^ blockHeight.toNat * 2 ^ 9 < 2 ^ 32
      omega
  have hx₁ : ((x >>> gobSizeXShift) <<< (gobSizeShift + blockHeight + blockDepth)).toNat =
      x.toNat / 64 * 2 ^ (9 + blockHeight.toNat + blockDepth.toNat) := by
    rw [shiftLeft_eq', h.toNat_shift, ushiftRight_eq', toNat_shiftLeft_of_lt] <;> rw [toNat_shiftRight]
    · rfl
    · change x.toNat / 64 * _ < _
      omega
  have hz' : (offsetZ height blockHeight blockDepth stride z).toNat = _ := toNat_add_of_lt (by rw [hz₁, hz₂]; omega)
  have hy' : (offsetY blockHeight blockDepth stride y).toNat = _ := toNat_add_of_lt (by rw [hy₁, hy₂]; omega)
  rw [hz₁, hz₂] at hz'
  rw [hy₁, hy₂] at hy'
  rw [toNat_sum_of_lt, hz', hy', hx₁, pdep_or]
  rw [hz', hy', hx₁, pdep_or]
  exact hlt

/-- The linear texture is not larger than the blocks. -/
theorem linear_lt {pitch : ℕ} (hp : pitch ≤ stride.toNat) : pitch * height.toNat * depth.toNat < 2 ^ 32 := by
  have hx := hp.trans (le_ceilDiv_mul (m := 64) (by decide) stride.toNat)
  have hy := le_ceilDiv_mul (Nat.two_pow_pos (blockHeight.toNat + 3)) height.toNat
  have hz := le_ceilDiv_mul (Nat.two_pow_pos blockDepth.toNat) depth.toNat
  have hle : pitch * height.toNat * depth.toNat ≤ layoutSize height depth blockHeight blockDepth stride :=
    calc pitch * height.toNat * depth.toNat
        ≤ ceilDiv stride.toNat 64 * 64 *
            (ceilDiv height.toNat (2 ^ (blockHeight.toNat + 3)) * 2 ^ (blockHeight.toNat + 3)) *
            (ceilDiv depth.toNat (2 ^ blockDepth.toNat) * 2 ^ blockDepth.toNat) :=
          Nat.mul_le_mul (Nat.mul_le_mul hx hy) hz
      _ = layoutSize height depth blockHeight blockDepth stride := by
          simp only [layoutSize, BlockLinear.size, layout, Nat.pow_add]
          ring
  exact Nat.lt_of_le_of_lt hle h.size_lt

end Fits

/-! ### Bytes of the linear texture -/

/-- The place of a byte of the linear texture. -/
def linearPlace (l : BlockLinear) (pitch height a : ℕ) : ℕ :=
  l.place (a % pitch) (a / pitch % height) (a / pitch / height)

variable {l : BlockLinear} {pitch lines x y z : ℕ}

theorem linearPlace_of_coords (hx : x < pitch) (hy : y < lines) :
    linearPlace l pitch lines ((z * lines + y) * pitch + x) = l.place x y z := by
  have hpos : 0 < pitch := by omega
  have hrow : ((z * lines + y) * pitch + x) / pitch = z * lines + y := by
    rw [Nat.mul_comm, Nat.mul_add_div hpos, Nat.div_eq_of_lt hx, Nat.add_zero]
  have hlines : 0 < lines := by omega
  have hz : (z * lines + y) / lines = z := by
    rw [Nat.mul_comm, Nat.mul_add_div hlines, Nat.div_eq_of_lt hy, Nat.add_zero]
  have hy' : (z * lines + y) % lines = y := by
    rw [Nat.mul_comm, Nat.mul_add_mod, Nat.mod_eq_of_lt hy]
  have hx' : ((z * lines + y) * pitch + x) % pitch = x := by
    rw [Nat.mul_comm, Nat.mul_add_mod, Nat.mod_eq_of_lt hx]
  rw [linearPlace, hrow, hz, hy', hx']

theorem coords_lt {a : ℕ} (ha : a < pitch * lines * slices) :
    a % pitch < pitch ∧ a / pitch % lines < lines ∧ a / pitch / lines < slices := by
  have hpitch : 0 < pitch := Nat.pos_of_ne_zero fun h0 => by simp [h0] at ha
  have hlines : 0 < lines := Nat.pos_of_ne_zero fun h0 => by simp [h0] at ha
  refine ⟨Nat.mod_lt _ hpitch, Nat.mod_lt _ hlines, ?_⟩
  rw [Nat.div_div_eq_div_mul]
  exact Nat.div_lt_of_lt_mul ha

theorem eq_of_coords {a b : ℕ} (h₁ : a % pitch = b % pitch) (h₂ : a / pitch % lines = b / pitch % lines)
    (h₃ : a / pitch / lines = b / pitch / lines) : a = b := by
  have hrow : a / pitch = b / pitch := by
    rw [← Nat.div_add_mod (a / pitch) lines, ← Nat.div_add_mod (b / pitch) lines, h₂, h₃]
  rw [← Nat.div_add_mod a pitch, ← Nat.div_add_mod b pitch, hrow, h₁]

/-- The bytes of a linear texture that the layout covers have different places. -/
theorem linearPlace_injOn (hx : ∀ x < pitch, x / 64 < l.gobsInX)
    (hy : ∀ y < lines, y / 8 / 2 ^ l.blockHeight < l.blocksInY) :
    Set.InjOn (linearPlace l pitch lines) (Set.Iio (pitch * lines * slices)) := by
  intro a ha b hb he
  obtain ⟨hxa, hya, -⟩ := coords_lt ha
  obtain ⟨hxb, hyb, -⟩ := coords_lt hb
  obtain ⟨h₁, h₂, h₃⟩ := BlockLinear.place_inj (hx _ hxa) (hy _ hya) (hx _ hxb) (hy _ hyb) he
  exact eq_of_coords h₁ h₂ h₃

end Texture
end Tegra
end Citron
