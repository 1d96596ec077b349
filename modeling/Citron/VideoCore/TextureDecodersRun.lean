/-
# Swizzling follows the block linear layout

The loops of the source copy the bytes of the linear texture one pixel after the other, each to its
place in the block linear layout or back from there.
-/
import Mathlib.Tactic.IntervalCases
import Citron.VideoCore.TextureDecoders

namespace Citron

open BitVec

namespace Tegra
namespace Texture

open Lib

/-- Where the bytes of the linear texture are in the blocks, or in linear memory. -/
def side (swizzled : Bool) (place : ℕ → ℕ) : ℕ → ℕ := if swizzled then place else id

theorem side_injOn {place : ℕ → ℕ} {s : Set ℕ} (h : Set.InjOn place s) (swizzled : Bool) :
    Set.InjOn (side swizzled place) s := by
  cases swizzled with
  | false => exact Set.injOn_id s
  | true => exact h

theorem piece_lt {k b : ℕ} (hk : k ≤ 4) (hb : b < 2 ^ k) (column : ℕ) : column * 2 ^ k % 16 + b < 16 := by
  interval_cases k <;> omega

/-- What the loops have copied before a byte. -/
abbrev CopiedTo (toLinear : Bool) (place : ℕ → ℕ) (input start : Bytes) (n : ℕ) (output : Bytes) : Prop :=
  Copied (side toLinear place) (side (!toLinear) place) input start n output

section
variable {k : ℕ} {width height depth blockHeight blockDepth stride : U32} {input start : Bytes} {toLinear : Bool}
  {slice line column : ℕ}

/-- The place of a byte of the texture that `SwizzleImpl` copies with pixels of `2 ^ k` bytes. -/
abbrev implPlace (k : ℕ) (width height blockHeight blockDepth stride : U32) : ℕ → ℕ :=
  linearPlace (layout height blockHeight blockDepth stride) (width.toNat * 2 ^ k) height.toNat

/-- The number of a pixel's first byte, and the next one's. -/
theorem pixel_le (hz : slice < depth.toNat) (hy : line < height.toNat) (hx : column < width.toNat) :
    (slice * height.toNat + line) * (width.toNat * 2 ^ k) + column * 2 ^ k + 2 ^ k ≤
      width.toNat * 2 ^ k * height.toNat * depth.toNat :=
  calc (slice * height.toNat + line) * (width.toNat * 2 ^ k) + column * 2 ^ k + 2 ^ k
      = (slice * height.toNat + line) * (width.toNat * 2 ^ k) + (column + 1) * 2 ^ k := by ring
    _ ≤ (slice * height.toNat + line) * (width.toNat * 2 ^ k) + width.toNat * 2 ^ k :=
        Nat.add_le_add_left (Nat.mul_le_mul_right _ hx) _
    _ = (slice * height.toNat + (line + 1)) * (width.toNat * 2 ^ k) := by ring
    _ ≤ (slice * height.toNat + height.toNat) * (width.toNat * 2 ^ k) :=
        Nat.mul_le_mul_right _ (Nat.add_le_add_left hy _)
    _ = (slice + 1) * height.toNat * (width.toNat * 2 ^ k) := by ring
    _ ≤ depth.toNat * height.toNat * (width.toNat * 2 ^ k) :=
        Nat.mul_le_mul_right _ (Nat.mul_le_mul_right _ hz)
    _ = width.toNat * 2 ^ k * height.toNat * depth.toNat := by ring

theorem toNat_ofNat_of_lt {n : ℕ} {a : U32} (h : n < a.toNat) : (BitVec.ofNat 32 n).toNat = n := by
  rw [toNat_ofNat, Nat.mod_eq_of_lt (h.trans a.isLt)]

/-- `unswizzled_offset` of a pixel. -/
theorem toNat_unswizzledOffset (width height : U32) (slice line column : ℕ) (hk : k ≤ 4)
    (hlt : (slice * height.toNat + line) * (width.toNat * 2 ^ k) + column * 2 ^ k < 2 ^ 32) :
    (BitVec.ofNat 32 slice * (width * 1#32 <<< k) * height + BitVec.ofNat 32 line * (width * 1#32 <<< k) +
      BitVec.ofNat 32 column * 1#32 <<< k).toNat =
      (slice * height.toNat + line) * (width.toNat * 2 ^ k) + column * 2 ^ k := by
  have hone : 1#32 <<< k = BitVec.ofNat 32 (2 ^ k) := by
    apply eq_of_toNat_eq
    rw [toNat_one_shiftLeft (by omega), toNat_ofNat,
      Nat.mod_eq_of_lt (Nat.pow_lt_pow_right (by decide) (by omega))]
  have hsum : (slice * height.toNat + line) * (width.toNat * 2 ^ k) + column * 2 ^ k =
      slice * (width.toNat * 2 ^ k) * height.toNat + line * (width.toNat * 2 ^ k) + column * 2 ^ k := by ring
  have hoffset : BitVec.ofNat 32 slice * (width * BitVec.ofNat 32 (2 ^ k)) * height +
      BitVec.ofNat 32 line * (width * BitVec.ofNat 32 (2 ^ k)) + BitVec.ofNat 32 column * BitVec.ofNat 32 (2 ^ k) =
      BitVec.ofNat 32 (slice * (width.toNat * 2 ^ k) * height.toNat + line * (width.toNat * 2 ^ k) +
        column * 2 ^ k) := by
    simp only [ofNat_add, ofNat_mul, ofNat_toNat, setWidth_eq]
  rw [hone, hoffset, ← hsum, toNat_ofNat, Nat.mod_eq_of_lt hlt]

/-- One pixel of a row. -/
theorem swizzlePixel_copied (hk : k ≤ 4) (h : Fits height depth blockHeight blockDepth stride)
    (hp : width.toNat * 2 ^ k ≤ stride.toNat) (hz : slice < depth.toNat) (hy : line < height.toNat)
    (hx : column < width.toNat) {s : U32 × Bytes}
    (hs : s.1 = pdep swizzleXBits (BitVec.ofNat 32 column * 1#32 <<< k))
    (hc : CopiedTo toLinear (implPlace k width height blockHeight blockDepth stride) input start
      ((slice * height.toNat + line) * (width.toNat * 2 ^ k) + column * 2 ^ k) s.2) :
    let pitch := width * 1#32 <<< k
    let z := BitVec.ofNat 32 slice
    let y := BitVec.ofNat 32 line
    let s' := swizzlePixel toLinear (1#32 <<< k) (gobSizeShift + blockHeight + blockDepth)
      (offsetZ height blockHeight blockDepth stride z + offsetY blockHeight blockDepth stride y)
      (pdep swizzleYBits y) (z * pitch * height + y * pitch) input column s
    s'.1 = pdep swizzleXBits (BitVec.ofNat 32 (column + 1) * 1#32 <<< k) ∧
      CopiedTo toLinear (implPlace k width height blockHeight blockDepth stride) input start
        ((slice * height.toNat + line) * (width.toNat * 2 ^ k) + (column + 1) * 2 ^ k) s'.2 := by
  have hend := pixel_le (k := k) hz hy hx
  have hlin := h.linear_lt hp
  have hpitch : column * 2 ^ k + 2 ^ k ≤ width.toNat * 2 ^ k := by
    rw [← Nat.succ_mul]
    exact Nat.mul_le_mul_right _ hx
  have hpow := Nat.two_pow_pos k
  have hone : (1#32 <<< k).toNat = 2 ^ k := toNat_one_shiftLeft (by omega)
  have hx' : (BitVec.ofNat 32 column * 1#32 <<< k).toNat = column * 2 ^ k := by
    rw [toNat_mul_of_lt] <;> rw [toNat_ofNat_of_lt hx, hone]
    omega
  have hswizzled := h.toNat_offset (x := BitVec.ofNat 32 column * 1#32 <<< k) (y := BitVec.ofNat 32 line)
    (z := BitVec.ofNat 32 slice) (by rw [hx']; omega) (by rw [toNat_ofNat_of_lt hy]; exact hy)
    (by rw [toNat_ofNat_of_lt hz]; exact hz)
  rw [hx', toNat_ofNat_of_lt hy, toNat_ofNat_of_lt hz] at hswizzled
  have hunswizzled := toNat_unswizzledOffset width height slice line column hk (by omega)
  have hplace : ∀ b < 2 ^ k, implPlace k width height blockHeight blockDepth stride
      ((slice * height.toNat + line) * (width.toNat * 2 ^ k) + column * 2 ^ k + b) =
      (layout height blockHeight blockDepth stride).place (column * 2 ^ k) line slice + b := by
    intro b hb
    rw [implPlace, Nat.add_assoc, linearPlace_of_coords (by omega) hy, BlockLinear.place_add (piece_lt hk hb column)]
  obtain ⟨swizzledX, output⟩ := s
  obtain rfl : swizzledX = _ := hs
  refine ⟨?_, ?_⟩
  · rw [ofNat_add, BitVec.add_mul, BitVec.one_mul]
    exact incrpdep_pdep hk _
  · have hinj : Set.InjOn (implPlace k width height blockHeight blockDepth stride)
        (Set.Iio ((slice * height.toNat + line) * (width.toNat * 2 ^ k) + column * 2 ^ k + 2 ^ k)) :=
      (linearPlace_injOn (fun _ hx => column_lt (hx.trans_le hp)) fun _ => row_lt).mono (Set.Iio_subset_Iio hend)
    rw [Nat.succ_mul, ← Nat.add_assoc]
    cases toLinear with
    | false =>
      have h := hc.copy (k := 2 ^ k) (side_injOn hinj false) (fun b _ => rfl) hplace
      simp only [swizzlePixel, hone, Bool.false_eq_true, if_false]
      rw [hswizzled, hunswizzled]
      exact h
    | true =>
      have h := hc.copy (k := 2 ^ k) (side_injOn hinj true) hplace (fun b _ => rfl)
      simp only [swizzlePixel, hone, if_true]
      rw [hswizzled, hunswizzled]
      exact h

/-- **`SwizzleImpl` copies each byte of the texture**, to its place or from there. -/
theorem swizzleImpl_copied (hk : k ≤ 4) (hsize : layoutSize height depth blockHeight blockDepth stride < 2 ^ 32)
    (hp : width.toNat * 2 ^ k ≤ stride.toNat) :
    CopiedTo toLinear (implPlace k width height blockHeight blockDepth stride) input start
      (width.toNat * 2 ^ k * height.toNat * depth.toNat)
      (swizzleImpl toLinear (1#32 <<< k) start input width height depth blockHeight blockDepth stride) := by
  have hslices : width.toNat * 2 ^ k * height.toNat * depth.toNat =
      (depth.toNat * height.toNat) * (width.toNat * 2 ^ k) := by ring
  rw [hslices]
  apply countLoop_rule (I := fun slice output => CopiedTo toLinear (implPlace k width height blockHeight blockDepth stride)
    input start ((slice * height.toNat) * (width.toNat * 2 ^ k)) output)
  · rw [Nat.zero_mul, Nat.zero_mul]
    exact Copied.zero
  intro slice hz output hslice
  rw [Nat.succ_mul]
  apply countLoop_rule (I := fun line output => CopiedTo toLinear (implPlace k width height blockHeight blockDepth stride)
    input start ((slice * height.toNat + line) * (width.toNat * 2 ^ k)) output)
  · exact hslice
  intro line hy output hline
  have hrow : (slice * height.toNat + (line + 1)) * (width.toNat * 2 ^ k) =
      (slice * height.toNat + line) * (width.toNat * 2 ^ k) + width.toNat * 2 ^ k := by ring
  rw [hrow]
  have hcolumns := countLoop_rule (n := width.toNat) (s := (pdep swizzleXBits (0 * 1#32 <<< k), output))
    (I := fun column s => s.1 = pdep swizzleXBits (BitVec.ofNat 32 column * 1#32 <<< k) ∧
      CopiedTo toLinear (implPlace k width height blockHeight blockDepth stride) input start
        ((slice * height.toNat + line) * (width.toNat * 2 ^ k) + column * 2 ^ k) s.2)
    ⟨rfl, by rwa [Nat.zero_mul, Nat.add_zero]⟩ fun column hx s hs => by
      have hpos : 0 < width.toNat * 2 ^ k := Nat.mul_pos (by omega) (Nat.two_pow_pos k)
      have hfits : Fits height depth blockHeight blockDepth stride := ⟨by omega, by omega, by omega, hsize⟩
      exact swizzlePixel_copied hk hfits hp hz hy hx hs.1 hs.2
  exact hcolumns.2

/-- An image without bytes. -/
theorem swizzleImpl_empty {bytesPerPixel : U32} (h : width.toNat = 0 ∨ height.toNat = 0 ∨ depth.toNat = 0) :
    swizzleImpl toLinear bytesPerPixel start input width height depth blockHeight blockDepth stride = start := by
  apply countLoop_rule (I := fun _ output => output = start) rfl
  intro slice hz output hslice
  apply countLoop_rule (I := fun _ output => output = start) hslice
  intro line hy output hline
  have hwidth : width.toNat = 0 := by omega
  rw [hwidth]
  exact hline

end

end Texture

/-! ## Whole textures

`SwizzleTexture` and `UnswizzleTexture` widen the pixel to the largest power of two that divides
the bytes of a row, up to 16. The layout is that of the caller's image all the same: it depends on
the bytes of a row and not on how they are cut into pixels.
-/

namespace Texture

open Lib

/-! ### The widened pixel -/

theorem bit_of_lt_countrZero {v : U32} {j : ℕ} (hj : j < countrZero v) : v.toNat.testBit j = false := by
  change v.getLsbD j = false
  unfold countrZero at hj
  cases hfind : (List.range 32).find? v.getLsbD with
  | none =>
    rw [hfind] at hj
    simpa using List.find?_range_eq_none.mp hfind j hj
  | some c =>
    rw [hfind] at hj
    obtain ⟨-, -, hbits⟩ := List.find?_range_eq_some.mp hfind
    simpa using hbits j hj

theorem dvd_of_le_countrZero {v : U32} {k : ℕ} (hk : k ≤ countrZero v) : 2 ^ k ∣ v.toNat := by
  apply Nat.dvd_of_mod_eq_zero
  apply Nat.eq_of_testBit_eq
  intro j
  rw [Nat.testBit_mod_two_pow, Nat.zero_testBit]
  by_cases hj : j < k
  · rw [bit_of_lt_countrZero (Nat.lt_of_lt_of_le hj hk), Bool.and_false]
  · rw [decide_eq_false hj, Bool.false_and]

theorem toNat_alignUpLog2 {value align : U32} (ha : align.toNat < 32)
    (h : ceilDiv value.toNat (2 ^ align.toNat) * 2 ^ align.toNat < 2 ^ 32) :
    (alignUpLog2 value align).toNat = ceilDiv value.toNat (2 ^ align.toNat) * 2 ^ align.toNat := by
  have hpow : 2 ^ align.toNat < 2 ^ 32 := Nat.pow_lt_pow_right (by decide) ha
  have hpos := Nat.two_pow_pos align.toNat
  have hone : (1#64 <<< align.toNat).toNat = 2 ^ align.toNat := by
    rw [toNat_shiftLeft, Nat.shiftLeft_eq]
    change 1 * 2 ^ align.toNat % 2 ^ 64 = 2 ^ align.toNat
    omega
  have hsum : (value.setWidth 64 + ((1#64 <<< align.toNat) - 1)).toNat = value.toNat + (2 ^ align.toNat - 1) := by
    rw [toNat_add, toNat_sub, hone, toNat_setWidth]
    change (value.toNat % 2 ^ 64 + (2 ^ 64 - 1 + 2 ^ align.toNat) % 2 ^ 64) % 2 ^ 64 = _
    omega
  rw [alignUpLog2, shiftLeft_eq', ushiftRight_eq', shiftLeft_eq', toNat_setWidth,
    toNat_shiftLeft, toNat_ushiftRight, hsum, Nat.shiftRight_eq_div_pow, Nat.shiftLeft_eq]
  change ceilDiv value.toNat (2 ^ align.toNat) * 2 ^ align.toNat % 2 ^ 64 % 2 ^ 32 = _
  omega

/-- What the calls are given besides the memory. -/
structure Image where
  bytesPerPixel : U32
  width : U32
  height : U32
  depth : U32
  blockHeight : U32
  blockDepth : U32
  strideAlignment : U32

namespace Image

variable (i : Image)

/-- The bytes of a row of pixels. -/
def pitch : ℕ := i.width.toNat * i.bytesPerPixel.toNat

/-- The bytes of the texture in linear memory. -/
def linearSize : ℕ := i.pitch * i.height.toNat * i.depth.toNat

/-- The bytes of a row when the width is aligned. -/
def stride : ℕ :=
  ceilDiv i.width.toNat (2 ^ i.strideAlignment.toNat) * 2 ^ i.strideAlignment.toNat * i.bytesPerPixel.toNat

def layout : BlockLinear where
  gobsInX := ceilDiv i.stride 64
  blocksInY := ceilDiv i.height.toNat (2 ^ (i.blockHeight.toNat + 3))
  blockHeight := i.blockHeight.toNat
  blockDepth := i.blockDepth.toNat

/-- The bytes of the blocks that hold the image. -/
def size : ℕ := i.layout.size (ceilDiv i.depth.toNat (2 ^ i.blockDepth.toNat))

/-- The place in the blocks of a byte of the linear texture. -/
def place : ℕ → ℕ := linearPlace i.layout i.pitch i.height.toNat

def swizzleTexture (output input : Bytes) : Bytes :=
  Texture.swizzleTexture output input i.bytesPerPixel i.width i.height i.depth i.blockHeight i.blockDepth i.strideAlignment

def unswizzleTexture (output input : Bytes) : Bytes :=
  Texture.unswizzleTexture output input i.bytesPerPixel i.width i.height i.depth i.blockHeight i.blockDepth
    i.strideAlignment

/-- `CalculateSize` of the tiled image, with a width. -/
def calculateSize (width : U32) : U32 :=
  Texture.calculateSize true i.bytesPerPixel width i.height i.depth i.blockHeight i.blockDepth

theorem pitch_le_stride : i.pitch ≤ i.stride :=
  Nat.mul_le_mul_right _ (le_ceilDiv_mul (Nat.two_pow_pos _) _)

/-- The image has bytes, and its blocks fit into 32 bits. -/
structure Fits : Prop where
  linear_pos : 0 < i.linearSize
  size_lt : i.size < 2 ^ 32

namespace Fits

variable {i} (h : i.Fits)
include h

theorem pos : 0 < i.width.toNat ∧ 0 < i.bytesPerPixel.toNat ∧ 0 < i.height.toNat ∧ 0 < i.depth.toNat := by
  have hpos := h.linear_pos
  simp only [linearSize, pitch, CanonicallyOrderedAdd.mul_pos] at hpos
  tauto

/-- A factor of the size fits too. -/
theorem factor_lt {n : ℕ} (hn : n ∣ i.size) : n < 2 ^ 32 := by
  obtain ⟨hw, hb, hh, hd⟩ := h.pos
  have hx := ceilDiv_pos (m := 64) (by decide) (Nat.lt_of_lt_of_le (Nat.mul_pos hw hb) i.pitch_le_stride)
  have hy := ceilDiv_pos (Nat.two_pow_pos (i.blockHeight.toNat + 3)) hh
  have hz := ceilDiv_pos (Nat.two_pow_pos i.blockDepth.toNat) hd
  have hpos : 0 < i.size := by
    simp only [size, layout, BlockLinear.size]
    positivity
  exact Nat.lt_of_le_of_lt (Nat.le_of_dvd hpos hn) h.size_lt

theorem gobs_lt : ceilDiv i.stride 64 * 64 < 2 ^ 32 := by
  apply h.factor_lt
  refine ⟨ceilDiv i.depth.toNat (2 ^ i.blockDepth.toNat) * ceilDiv i.height.toNat (2 ^ (i.blockHeight.toNat + 3)) *
    2 ^ i.blockDepth.toNat * 2 ^ i.blockHeight.toNat * 8, ?_⟩
  simp only [size, layout, BlockLinear.size]
  ring

theorem stride_lt : i.stride < 2 ^ 32 := Nat.lt_of_le_of_lt (le_ceilDiv_mul (by decide) i.stride) h.gobs_lt

theorem toNat_alignedWidth : (alignUpLog2 i.width i.strideAlignment).toNat =
    ceilDiv i.width.toNat (2 ^ i.strideAlignment.toNat) * 2 ^ i.strideAlignment.toNat := by
  obtain ⟨hw, hb, -, -⟩ := h.pos
  have hstride := h.stride_lt
  have hle : ceilDiv i.width.toNat (2 ^ i.strideAlignment.toNat) * 2 ^ i.strideAlignment.toNat ≤ i.stride :=
    Nat.le_mul_of_pos_right _ hb
  have hone := ceilDiv_pos (Nat.two_pow_pos i.strideAlignment.toNat) hw
  have hpow : 2 ^ i.strideAlignment.toNat ≤ ceilDiv i.width.toNat (2 ^ i.strideAlignment.toNat) *
      2 ^ i.strideAlignment.toNat := Nat.le_mul_of_pos_left _ hone
  have hshift : 2 ^ i.strideAlignment.toNat < 2 ^ 32 := by omega
  exact toNat_alignUpLog2 ((Nat.pow_lt_pow_iff_right (by decide)).mp hshift) (by omega)

theorem toNat_stride : (alignUpLog2 i.width i.strideAlignment * i.bytesPerPixel).toNat = i.stride := by
  rw [toNat_mul_of_lt] <;> rw [h.toNat_alignedWidth]
  · rfl
  · exact h.stride_lt

theorem toNat_pitch : (i.width * i.bytesPerPixel).toNat = i.pitch :=
  toNat_mul_of_lt (Nat.lt_of_le_of_lt i.pitch_le_stride h.stride_lt)

end Fits

variable {i} {start input : Bytes} {toLinear : Bool}

theorem widened_mem : ∀ k ≤ 4, (1#32 <<< k : U32) ∈ ([1, 2, 3, 4, 6, 8, 12, 16] : List U32) := by
  decide

theorem widenAndSwizzle_empty (h : i.linearSize = 0) :
    widenAndSwizzle toLinear start input i.bytesPerPixel i.width i.height i.depth i.blockHeight i.blockDepth
      i.strideAlignment = start := by
  unfold widenAndSwizzle swizzle
  dsimp only
  split
  · apply swizzleImpl_empty
    simp only [linearSize, Nat.mul_eq_zero] at h
    rcases h with (hpitch | hh) | hd
    · left
      have hzero : i.width * i.bytesPerPixel = 0 := by
        apply eq_of_toNat_eq
        rw [toNat_mul]
        change i.pitch % 2 ^ 32 = 0
        rw [hpitch]
      rw [hzero, toNat_shiftRight]
      exact Nat.zero_div _
    · exact .inr (.inl hh)
    · exact .inr (.inr hd)
  · rfl

/-- **Each byte goes to its place or comes from there**, as the caller's image has them. -/
theorem widenAndSwizzle_copied (hsize : i.size < 2 ^ 32) :
    CopiedTo toLinear i.place input start i.linearSize
      (widenAndSwizzle toLinear start input i.bytesPerPixel i.width i.height i.depth i.blockHeight i.blockDepth
        i.strideAlignment) := by
  rcases Nat.eq_zero_or_pos i.linearSize with h0 | hpos
  · rw [h0, widenAndSwizzle_empty h0]
    exact Copied.zero
  have h : i.Fits := ⟨hpos, hsize⟩
  obtain ⟨k, hk⟩ : ∃ k, min 4 (countrZero (i.width * i.bytesPerPixel)) = k := ⟨_, rfl⟩
  have hk4 : k ≤ 4 := by omega
  have hdvd : 2 ^ k ∣ i.pitch := by
    rw [← h.toNat_pitch]
    exact dvd_of_le_countrZero (by omega)
  have hpitch : ((i.width * i.bytesPerPixel) >>> k).toNat * 2 ^ k = i.pitch := by
    rw [toNat_shiftRight, h.toNat_pitch, Nat.div_mul_cancel hdvd]
  have hstride := h.toNat_stride
  have hplace : i.place = implPlace k ((i.width * i.bytesPerPixel) >>> k) i.height i.blockHeight i.blockDepth
      (alignUpLog2 i.width i.strideAlignment * i.bytesPerPixel) := by
    rw [implPlace, hpitch, Texture.layout, hstride]
    rfl
  have hlayout : layoutSize i.height i.depth i.blockHeight i.blockDepth
      (alignUpLog2 i.width i.strideAlignment * i.bytesPerPixel) < 2 ^ 32 := by
    rw [layoutSize, Texture.layout, hstride]
    exact hsize
  have hle : ((i.width * i.bytesPerPixel) >>> k).toNat * 2 ^ k ≤
      (alignUpLog2 i.width i.strideAlignment * i.bytesPerPixel).toNat := by
    rw [hpitch, hstride]
    exact i.pitch_le_stride
  unfold widenAndSwizzle swizzle
  rw [hk, if_pos (widened_mem k hk4), hplace, linearSize, ← hpitch]
  exact swizzleImpl_copied hk4 hlayout hle

theorem column_lt_gobsInX {x : ℕ} (hx : x < i.pitch) : x / 64 < i.layout.gobsInX :=
  div_lt_ceilDiv (by decide) (Nat.lt_of_lt_of_le hx i.pitch_le_stride)

theorem place_injOn : Set.InjOn i.place (Set.Iio i.linearSize) :=
  linearPlace_injOn (fun _ => column_lt_gobsInX) fun _ => row_lt_ceilDiv

theorem place_lt {a : ℕ} (ha : a < i.linearSize) : i.place a < i.size := by
  obtain ⟨hx, hy, hz⟩ := coords_lt ha
  exact BlockLinear.place_lt (column_lt_gobsInX hx) (row_lt_ceilDiv hy) (div_lt_ceilDiv (Nat.two_pow_pos _) hz)

/-- `CalculateSize`, when the width has as many GOBs as the stride. -/
theorem toNat_calculateSize (h : i.Fits) {width : U32} (hlt : width.toNat * i.bytesPerPixel.toNat < 2 ^ 32)
    (hgobs : ceilDiv (width.toNat * i.bytesPerPixel.toNat) 64 = ceilDiv i.stride 64) :
    (i.calculateSize width).toNat = i.size := by
  have hsize : i.size = ceilDiv i.stride 64 * 64 *
      (ceilDiv i.height.toNat (2 ^ (i.blockHeight.toNat + 3)) * 2 ^ (i.blockHeight.toNat + 3)) *
      (ceilDiv i.depth.toNat (2 ^ i.blockDepth.toNat) * 2 ^ i.blockDepth.toNat) := by
    simp only [size, layout, BlockLinear.size, Nat.pow_add]
    ring
  have hheightDvd := (Dvd.intro_left _ rfl).trans (Dvd.intro _ hsize.symm)
  have hdepthDvd := Dvd.intro_left _ hsize.symm
  have hheightShift : 2 ^ (i.blockHeight.toNat + 3) < 2 ^ 32 := h.factor_lt ((Dvd.intro_left _ rfl).trans hheightDvd)
  have hdepthShift : 2 ^ i.blockDepth.toNat < 2 ^ 32 := h.factor_lt ((Dvd.intro_left _ rfl).trans hdepthDvd)
  have hh : i.blockHeight.toNat + 3 < 32 := (Nat.pow_lt_pow_iff_right (by decide)).mp hheightShift
  have hd : i.blockDepth.toNat < 32 := (Nat.pow_lt_pow_iff_right (by decide)).mp hdepthShift
  have hrow : (width * i.bytesPerPixel).toNat = width.toNat * i.bytesPerPixel.toNat := toNat_mul_of_lt hlt
  have hwidth : (alignUpLog2 (width * i.bytesPerPixel) gobSizeXShift).toNat = ceilDiv i.stride 64 * 64 := by
    rw [toNat_alignUpLog2 (by decide)] <;> rw [hrow]
    · change ceilDiv (width.toNat * i.bytesPerPixel.toNat) 64 * 64 = _
      rw [hgobs]
    · change ceilDiv (width.toNat * i.bytesPerPixel.toNat) 64 * 64 < 2 ^ 32
      rw [hgobs]
      exact h.gobs_lt
  have hyShift : (gobSizeYShift + i.blockHeight).toNat = i.blockHeight.toNat + 3 := by
    rw [toNat_add]
    change (3 + i.blockHeight.toNat) % 2 ^ 32 = _
    omega
  have hzShift : (gobSizeZShift + i.blockDepth).toNat = i.blockDepth.toNat := by
    rw [toNat_add]
    change (0 + i.blockDepth.toNat) % 2 ^ 32 = _
    omega
  have hheight : (alignUpLog2 i.height (gobSizeYShift + i.blockHeight)).toNat =
      ceilDiv i.height.toNat (2 ^ (i.blockHeight.toNat + 3)) * 2 ^ (i.blockHeight.toNat + 3) := by
    rw [toNat_alignUpLog2] <;> rw [hyShift]
    · exact hh
    · exact h.factor_lt hheightDvd
  have hdepth : (alignUpLog2 i.depth (gobSizeZShift + i.blockDepth)).toNat =
      ceilDiv i.depth.toNat (2 ^ i.blockDepth.toNat) * 2 ^ i.blockDepth.toNat := by
    rw [toNat_alignUpLog2] <;> rw [hzShift]
    · exact hd
    · exact h.factor_lt hdepthDvd
  change (alignUpLog2 (width * i.bytesPerPixel) gobSizeXShift * alignUpLog2 i.height (gobSizeYShift + i.blockHeight) *
    alignUpLog2 i.depth (gobSizeZShift + i.blockDepth)).toNat = i.size
  rw [toNat_mul, toNat_mul, Nat.mod_mul_mod, hwidth, hheight, hdepth, ← hsize, Nat.mod_eq_of_lt h.size_lt]

/-- **The block linear swizzle**: `SwizzleTexture` copies each byte of the linear texture to its place and
`UnswizzleTexture` from there, different bytes have different places below `CalculateSize`, and the one after the
other returns the texture. -/
theorem swizzle_blockLinear (i : Image) (hsize : i.size < 2 ^ 32) :
    (∀ blocks linear, CopiedTo true i.place linear blocks i.linearSize (i.swizzleTexture blocks linear)) ∧
    (∀ linear blocks, CopiedTo false i.place blocks linear i.linearSize (i.unswizzleTexture linear blocks)) ∧
    Set.InjOn i.place (Set.Iio i.linearSize) ∧
    (∀ a < i.linearSize, i.place a < (i.calculateSize (alignUpLog2 i.width i.strideAlignment)).toNat) ∧
    (i.stride ≤ ceilDiv i.pitch 64 * 64 → ∀ a < i.linearSize, i.place a < (i.calculateSize i.width).toNat) ∧
    ∀ linear blocks output, ∀ a < i.linearSize,
      i.unswizzleTexture output (i.swizzleTexture blocks linear) a = linear a := by
  have hswizzle : ∀ blocks linear, CopiedTo true i.place linear blocks i.linearSize (i.swizzleTexture blocks linear) :=
    fun _ _ => widenAndSwizzle_copied hsize
  have hunswizzle : ∀ linear blocks,
      CopiedTo false i.place blocks linear i.linearSize (i.unswizzleTexture linear blocks) :=
    fun _ _ => widenAndSwizzle_copied hsize
  refine ⟨hswizzle, hunswizzle, place_injOn, fun a ha => ?_, fun hwidth a ha => ?_, fun linear blocks output a ha => ?_⟩
  · have h : i.Fits := ⟨by omega, hsize⟩
    have hstride : (alignUpLog2 i.width i.strideAlignment).toNat * i.bytesPerPixel.toNat = i.stride := by
      rw [h.toNat_alignedWidth]
      rfl
    rw [toNat_calculateSize h (by rw [hstride]; exact h.stride_lt) (by rw [hstride])]
    exact place_lt ha
  · have h : i.Fits := ⟨by omega, hsize⟩
    have hpitch : i.pitch < 2 ^ 32 := Nat.lt_of_le_of_lt i.pitch_le_stride h.stride_lt
    have hgobs : ceilDiv i.pitch 64 = ceilDiv i.stride 64 := by
      have hle := i.pitch_le_stride
      unfold ceilDiv at hwidth ⊢
      omega
    rw [toNat_calculateSize h hpitch hgobs]
    exact place_lt ha
  · exact (hswizzle blocks linear).back (hunswizzle output _) ha

/-- Five by three pixels of twelve bytes, two slices, in blocks of two GOBs. -/
def oddImage : Image := ⟨12, 5, 3, 2, 1, 0, 1⟩

theorem swizzle_blockLinear_oddImage : (∀ linear blocks output, ∀ a < 360,
    oddImage.unswizzleTexture output (oddImage.swizzleTexture blocks linear) a = linear a) ∧
      ∀ a < 360, oddImage.place a < 4096 := by
  obtain ⟨-, -, -, hlt, -, hback⟩ := swizzle_blockLinear oddImage (by decide)
  refine ⟨hback, fun a ha => Nat.lt_of_lt_of_le (hlt a ha) (by decide)⟩

end Image

end Texture
end Tegra
end Citron
