/-
# Swizzling a rectangle of a texture

`SwizzleSubrect` and `UnswizzleSubrect` copy a rectangle between linear and block linear memory. For one slice they copy
the pixels of the rectangle one after the other, and the offsets they compute are the places of the pixels in the layout,
cut to 32 bits.
-/
import Mathlib
import Citron.Lib.CopyPieces
import Citron.VideoCore.TextureDecoders

namespace Citron
namespace Tegra
namespace Texture

open Lib

/-- `std::min` -/
def minU32 (a b : U32) : U32 := if b < a then b else a

/-- A pixel of a row of the rectangle: `offset` is that of the row and slice, `line` where the row starts in linear
memory. The swizzled position in a GOB is stepped along with the columns. -/
def swizzleSubrectPixel (toLinear : Bool) (bytesPerPixel originX xShift offset swizzledY line : U32) (input : Bytes)
    (column : ℕ) (s : U32 × Bytes) : U32 × Bytes :=
  let (swizzledX, output) := s
  let x := (BitVec.ofNat 32 column + originX) * bytesPerPixel
  let offsetX := (x >>> gobSizeXShift) <<< xShift
  let swizzledOffset := offset + offsetX + (swizzledX ||| swizzledY)
  let unswizzledOffset := line + BitVec.ofNat 32 column * bytesPerPixel
  let dst := if toLinear then swizzledOffset else unswizzledOffset
  let src := if toLinear then unswizzledOffset else swizzledOffset
  (incrpdep swizzleXBits bytesPerPixel swizzledX, copyBytes bytesPerPixel.toNat dst.toNat src.toNat input output)

/-- The loop over the slices, which returns once all lines are processed. `body` does the lines of one slice. -/
def subrectSlices (body : ℕ → U32 → Bytes → Bytes) (extentY : U32) : ℕ → ℕ → U32 → Bytes → Bytes
  | 0, _, _, output => output
  | n + 1, slice, unprocessedLines, output =>
    let linesInY := minU32 unprocessedLines extentY
    let output := body slice linesInY output
    let unprocessedLines := unprocessedLines - linesInY
    if unprocessedLines = 0 then output else subrectSlices body extentY n (slice + 1) unprocessedLines output

/-- The shifts by the block sizes are shifts by less than the width of the word. -/
def shiftsDefined (blockHeight blockDepth : U32) : Bool :=
  blockHeight < 32 ∧ blockDepth < 32 ∧ blockHeight + gobSizeYShift < 32 ∧ gobSizeShift + blockHeight < 32 ∧
    gobSizeShift + blockHeight + blockDepth < 32

/-- No result if a shift is undefined. -/
def swizzleSubrectImpl (toLinear : Bool) (bytesPerPixel : U32) (output input : Bytes)
    (width height depth originX originY extentX numLines blockHeight blockDepth pitchLinear : U32) : Option Bytes :=
  let pitch := pitchLinear
  let stride := alignUpLog2 (width * bytesPerPixel) gobSizeXShift
  let xShift := gobSizeShift + blockHeight + blockDepth
  let extentY := minU32 numLines (height - originY)
  if shiftsDefined blockHeight blockDepth then
    some (subrectSlices (fun slice linesInY output =>
      let z := BitVec.ofNat 32 slice
      let offsetZ := offsetZ height blockHeight blockDepth stride z
      countLoop (fun line output =>
        let y := BitVec.ofNat 32 line + originY
        let swizzledY := pdep swizzleYBits y
        let offsetY := offsetY blockHeight blockDepth stride y
        (countLoop (swizzleSubrectPixel toLinear bytesPerPixel originX xShift (offsetZ + offsetY) swizzledY
          (z * pitch * height + BitVec.ofNat 32 line * pitch) input) extentX.toNat
          (pdep swizzleXBits (originX * bytesPerPixel), output)).2)
        linesInY.toNat output) extentY depth.toNat 0 numLines output)
  else none

/-- The other sizes of a pixel are refused with an assertion. -/
def swizzleSubrectCase (toLinear : Bool) (output input : Bytes) (bytesPerPixel width height depth originX originY extentX
    extentY blockHeight blockDepth pitchLinear : U32) : Option Bytes :=
  if bytesPerPixel ∈ [1, 2, 3, 4, 6, 8, 12, 16] then
    swizzleSubrectImpl toLinear bytesPerPixel output input width height depth originX originY extentX extentY blockHeight
      blockDepth pitchLinear
  else some output

def swizzleSubrect (output input : Bytes) (bytesPerPixel width height depth originX originY extentX extentY blockHeight
    blockDepth pitchLinear : U32) : Option Bytes :=
  swizzleSubrectCase true output input bytesPerPixel width height depth originX originY extentX extentY blockHeight
    blockDepth pitchLinear

def unswizzleSubrect (output input : Bytes) (bytesPerPixel width height depth originX originY extentX extentY blockHeight
    blockDepth pitchLinear : U32) : Option Bytes :=
  swizzleSubrectCase false output input bytesPerPixel width height depth originX originY extentX extentY blockHeight
    blockDepth pitchLinear

/-! ### Offsets cut to 32 bits -/

theorem ofNat_congr {a b : ℕ} (h : a % 2 ^ 32 = b % 2 ^ 32) : BitVec.ofNat 32 a = BitVec.ofNat 32 b := by
  apply BitVec.eq_of_toNat_eq
  rw [BitVec.toNat_ofNat, BitVec.toNat_ofNat, h]

theorem shiftLeft_eq_ofNat (a : U32) (n : ℕ) : a <<< n = BitVec.ofNat 32 (a.toNat * 2 ^ n) := by
  apply BitVec.eq_of_toNat_eq
  rw [BitVec.toNat_shiftLeft, Nat.shiftLeft_eq, BitVec.toNat_ofNat]

/-- Multiples of a power of two by numbers that agree below it agree in 32 bits. -/
theorem mul_two_pow_congr {a b s : ℕ} (hs : 6 ≤ s) (h : a % 2 ^ 26 = b % 2 ^ 26) :
    a * 2 ^ s % 2 ^ 32 = b * 2 ^ s % 2 ^ 32 := by
  have hmod : a * 2 ^ s ≡ b * 2 ^ s [MOD 2 ^ 26 * 2 ^ s] := Nat.ModEq.mul_right' (2 ^ s) h
  apply hmod.of_dvd
  rw [← Nat.pow_add]
  exact Nat.pow_dvd_pow 2 (by omega)

/-- The GOBs in a row, of a stride of whole GOBs that is cut to 32 bits. -/
theorem toNat_gobsOfRow (value : U32) {row : ℕ} (hrow : value.toNat = row % 2 ^ 32) :
    (divCeilLog2 (alignUpLog2 value gobSizeXShift) gobSizeXShift).toNat = ceilDiv row 64 % 2 ^ 26 := by
  have hsum : (value.setWidth 64 + ((1#64 <<< 6) - 1)).toNat = value.toNat + 63 := by
    rw [BitVec.toNat_add, BitVec.toNat_setWidth]
    change (value.toNat % 2 ^ 64 + 63) % 2 ^ 64 = value.toNat + 63
    omega
  have hstride : (alignUpLog2 value gobSizeXShift).toNat = (value.toNat + 63) / 64 * 64 % 2 ^ 32 := by
    change (((value.setWidth 64 + ((1#64 <<< 6) - 1)) >>> 6 <<< 6).setWidth 32).toNat = _
    rw [BitVec.toNat_setWidth, BitVec.toNat_shiftLeft, BitVec.toNat_ushiftRight, hsum, Nat.shiftRight_eq_div_pow,
      Nat.shiftLeft_eq]
    omega
  change ((alignUpLog2 value gobSizeXShift + 64#32 - 1) >>> 6).toNat = _
  rw [toNat_shiftRight, BitVec.toNat_sub, BitVec.toNat_add, hstride, hrow]
  change ((2 ^ 32 - 1 + ((row % 2 ^ 32 + 63) / 64 * 64 % 2 ^ 32 + 64) % 2 ^ 32) % 2 ^ 32) / 2 ^ 6 = (row + 63) / 64 % 2 ^ 26
  omega

section Offsets

variable {blockHeight blockDepth value : U32} {row : ℕ} (hshift : 9 + blockHeight.toNat + blockDepth.toNat < 32)
include hshift

theorem toNat_xShift : (gobSizeShift + blockHeight + blockDepth).toNat = 9 + blockHeight.toNat + blockDepth.toNat := by
  rw [BitVec.toNat_add, BitVec.toNat_add]
  change ((9 + blockHeight.toNat) % 2 ^ 32 + blockDepth.toNat) % 2 ^ 32 = _
  omega

theorem blockSize_eq (hrow : value.toNat = row % 2 ^ 32) :
    blockSize blockHeight blockDepth (alignUpLog2 value gobSizeXShift) =
      BitVec.ofNat 32 (ceilDiv row 64 * 2 ^ (9 + blockHeight.toNat + blockDepth.toNat)) := by
  rw [blockSize, BitVec.shiftLeft_eq', toNat_xShift hshift, shiftLeft_eq_ofNat, toNat_gobsOfRow value hrow]
  apply ofNat_congr
  apply mul_two_pow_congr (by omega)
  omega

theorem offsetY_eq (hrow : value.toNat = row % 2 ^ 32) (y : U32) :
    offsetY blockHeight blockDepth (alignUpLog2 value gobSizeXShift) y =
      BitVec.ofNat 32 (y.toNat / 8 / 2 ^ blockHeight.toNat *
        (ceilDiv row 64 * 2 ^ (9 + blockHeight.toNat + blockDepth.toNat)) + y.toNat / 8 % 2 ^ blockHeight.toNat * 2 ^ 9) := by
  have hgob : (y >>> gobSizeYShift).toNat = y.toNat / 8 := toNat_shiftRight y 3
  have hmask : ((y >>> gobSizeYShift) &&& ((1#32 <<< blockHeight) - 1)).toNat = y.toNat / 8 % 2 ^ blockHeight.toNat := by
    rw [BitVec.shiftLeft_eq', toNat_and_mask _ (by omega), hgob]
  have hblock : ((y >>> gobSizeYShift) >>> blockHeight).toNat = y.toNat / 8 / 2 ^ blockHeight.toNat := by
    rw [BitVec.ushiftRight_eq', toNat_shiftRight, hgob]
  have hfirst : (y >>> gobSizeYShift) >>> blockHeight = BitVec.ofNat 32 (y.toNat / 8 / 2 ^ blockHeight.toNat) := by
    rw [← hblock, BitVec.ofNat_toNat, BitVec.setWidth_eq]
  have hsecond : ((y >>> gobSizeYShift) &&& ((1#32 <<< blockHeight) - 1)) <<< gobSizeShift =
      BitVec.ofNat 32 (y.toNat / 8 % 2 ^ blockHeight.toNat * 2 ^ 9) := by
    rw [← hmask]
    exact shiftLeft_eq_ofNat _ 9
  simp only [offsetY]
  rw [hfirst, hsecond, blockSize_eq hshift hrow, ← BitVec.ofNat_mul, ← BitVec.ofNat_add]

theorem offsetX_eq (x : ℕ) : (BitVec.ofNat 32 x >>> gobSizeXShift) <<< (gobSizeShift + blockHeight + blockDepth) =
    BitVec.ofNat 32 (x / 64 * 2 ^ (9 + blockHeight.toNat + blockDepth.toNat)) := by
  rw [BitVec.shiftLeft_eq', toNat_xShift hshift, shiftLeft_eq_ofNat]
  apply ofNat_congr
  apply mul_two_pow_congr (by omega)
  change (BitVec.ofNat 32 x >>> 6).toNat % 2 ^ 26 = _
  rw [toNat_shiftRight, BitVec.toNat_ofNat]
  omega

end Offsets

theorem offsetZ_zero (height blockHeight blockDepth stride : U32) :
    offsetZ height blockHeight blockDepth stride 0#32 = 0#32 := by
  simp [offsetZ]

theorem swizzleTable_mod (x y : ℕ) : swizzleTable (x % 64) (y % 8) = swizzleTable x y := by
  unfold swizzleTable
  omega

theorem pdep_or_ofNat (x y : ℕ) : pdep swizzleXBits (BitVec.ofNat 32 x) ||| pdep swizzleYBits (BitVec.ofNat 32 y) =
    BitVec.ofNat 32 (swizzleTable x y) := by
  have hx : x % 2 ^ 32 % 64 = x % 64 := Nat.mod_mod_of_dvd x (by decide)
  have hy : y % 2 ^ 32 % 8 = y % 8 := Nat.mod_mod_of_dvd y (by decide)
  have hlt : swizzleTable x y < 2 ^ 32 := Nat.lt_trans (swizzleTable_lt x y) (by decide)
  apply BitVec.eq_of_toNat_eq
  rw [pdep_or, BitVec.toNat_ofNat, BitVec.toNat_ofNat, BitVec.toNat_ofNat, Nat.mod_eq_of_lt hlt,
    ← swizzleTable_mod (x % 2 ^ 32), hx, hy, swizzleTable_mod]
theorem step_deposit_of_le : ∀ n ≤ 16, ∀ x < 64,
    ((BitVec.ofNat 32 (depositX x) ||| ~~~swizzleXBits) + BitVec.ofNat 32 (depositX n)) &&& swizzleXBits =
      BitVec.ofNat 32 (depositX (x + n)) := by
  decide +kernel

/-- Stepping the deposit by any size of a pixel is the deposit of the next pixel. -/
theorem incrpdep_pdep_of_le {n : U32} (hn : n.toNat ≤ 16) (x : U32) :
    incrpdep swizzleXBits n (pdep swizzleXBits x) = pdep swizzleXBits (x + n) := by
  have hstep := step_deposit_of_le n.toNat hn (x.toNat % 64) (Nat.mod_lt _ (by decide))
  rw [depositX_mod] at hstep
  rw [incrpdep, pdep_x, pdep_x, pdep_x, hstep, BitVec.toNat_add, ← depositX_mod, ← depositX_mod (_ % 2 ^ 32)]
  congr 2
  omega

end Texture

/-! ## What swizzling a rectangle moves

The bytes of a rectangle have places in linear memory and in the block linear layout of their image. `SwizzleSubrect` and
`UnswizzleSubrect` move a pixel in one piece, which follows the layout where the pixel stays within 16 bytes of its row.
-/

namespace Texture

open Lib

/-- What the calls are given besides the memory, for an image of one slice. -/
structure Subrect where
  bytesPerPixel : U32
  width : U32
  height : U32
  originX : U32
  originY : U32
  extentX : U32
  extentY : U32
  blockHeight : U32
  blockDepth : U32
  pitchLinear : U32

namespace Subrect

variable (r : Subrect)

/-- The rectangle lies in the image, its rows in the pitch, and the size of a pixel is supported. -/
structure Valid : Prop where
  supported : r.bytesPerPixel ∈ ([1, 2, 3, 4, 6, 8, 12, 16] : List U32)
  insideX : r.originX.toNat + r.extentX.toNat ≤ r.width.toNat
  insideY : r.originY.toNat + r.extentY.toNat ≤ r.height.toNat
  row_le : r.extentX.toNat * r.bytesPerPixel.toNat ≤ r.pitchLinear.toNat

/-- The block linear layout of the image. -/
def layout : BlockLinear where
  gobsInX := ceilDiv (r.width.toNat * r.bytesPerPixel.toNat) 64
  blocksInY := ceilDiv r.height.toNat (2 ^ (r.blockHeight.toNat + 3))
  blockHeight := r.blockHeight.toNat
  blockDepth := r.blockDepth.toNat

/-- The bytes of a row of the rectangle. -/
def rowBytes : ℕ := r.extentX.toNat * r.bytesPerPixel.toNat

/-- The bytes of the rectangle. -/
def size : ℕ := r.extentY.toNat * r.rowBytes

/-- Where the layout has the `i`-th byte of the rectangle. -/
def swizzledPlace (i : ℕ) : ℕ :=
  r.layout.place (r.originX.toNat * r.bytesPerPixel.toNat + i % r.rowBytes) (r.originY.toNat + i / r.rowBytes) 0

/-- Where linear memory has it. -/
def unswizzledPlace (i : ℕ) : ℕ := i / r.rowBytes * r.pitchLinear.toNat + i % r.rowBytes

/-- `SwizzleSubrect` -/
def swizzle (output input : Bytes) : Option Bytes :=
  swizzleSubrect output input r.bytesPerPixel r.width r.height 1 r.originX r.originY r.extentX r.extentY r.blockHeight
    r.blockDepth r.pitchLinear

/-- `UnswizzleSubrect` -/
def unswizzle (output input : Bytes) : Option Bytes :=
  unswizzleSubrect output input r.bytesPerPixel r.width r.height 1 r.originX r.originY r.extentX r.extentY r.blockHeight
    r.blockDepth r.pitchLinear

/-- Both calls move exactly the bytes of the rectangle, each between its places, and the one after the other returns the
linear rows. -/
structure MovesExactly : Prop where
  swizzles : ∀ input start, ∃ output, r.swizzle start input = some output ∧
    Copied r.swizzledPlace r.unswizzledPlace input start r.size output
  unswizzles : ∀ input start, ∃ output, r.unswizzle start input = some output ∧
    Copied r.unswizzledPlace r.swizzledPlace input start r.size output
  returns : ∀ linear blocks linear', ∃ swizzled output, r.swizzle blocks linear = some swizzled ∧
    r.unswizzle linear' swizzled = some output ∧ ∀ i < r.size, output (r.unswizzledPlace i) = linear (r.unswizzledPlace i)

/-- No pixel of the rectangle straddles 16 bytes of its row, and the offsets of each pixel and the shifts by the block's
sizes fit into 32 bits. -/
structure Contiguous : Prop where
  shift_lt : 9 + r.blockHeight.toNat + r.blockDepth.toNat < 32
  unit : ∀ column < r.extentX.toNat, 0 < r.extentY.toNat →
    (r.originX.toNat + column) * r.bytesPerPixel.toNat % 16 + r.bytesPerPixel.toNat ≤ 16
  swizzled_lt : ∀ line < r.extentY.toNat, ∀ column < r.extentX.toNat,
    r.layout.place ((r.originX.toNat + column) * r.bytesPerPixel.toNat) (r.originY.toNat + line) 0 < 2 ^ 32
  unswizzled_lt : ∀ line < r.extentY.toNat, ∀ column < r.extentX.toNat,
    line * r.pitchLinear.toNat + column * r.bytesPerPixel.toNat < 2 ^ 32

/-! ### The places of a rectangle -/

/-- Where the layout has the first byte of a pixel of the rectangle. -/
def swizzledPixel (p : ℕ) : ℕ :=
  r.layout.place ((r.originX.toNat + p % r.extentX.toNat) * r.bytesPerPixel.toNat)
    (r.originY.toNat + p / r.extentX.toNat) 0

/-- Where linear memory has it. -/
def unswizzledPixel (p : ℕ) : ℕ :=
  p / r.extentX.toNat * r.pitchLinear.toNat + p % r.extentX.toNat * r.bytesPerPixel.toNat

theorem size_eq : r.size = r.extentY.toNat * r.extentX.toNat * r.bytesPerPixel.toNat := by
  rw [size, rowBytes, Nat.mul_assoc]

variable {r}

section Bytes

variable {i : ℕ}

theorem mod_rowBytes : i % r.rowBytes =
    i / r.bytesPerPixel.toNat % r.extentX.toNat * r.bytesPerPixel.toNat + i % r.bytesPerPixel.toNat := by
  rw [rowBytes, Nat.mul_comm, Nat.mod_mul, Nat.add_comm, Nat.mul_comm]

theorem div_rowBytes : i / r.rowBytes = i / r.bytesPerPixel.toNat / r.extentX.toNat := by
  rw [rowBytes, Nat.mul_comm, Nat.div_div_eq_div_mul]

theorem swizzledPlace_eq : r.swizzledPlace i = r.layout.place
    ((r.originX.toNat + i / r.bytesPerPixel.toNat % r.extentX.toNat) * r.bytesPerPixel.toNat + i % r.bytesPerPixel.toNat)
    (r.originY.toNat + i / r.bytesPerPixel.toNat / r.extentX.toNat) 0 := by
  rw [swizzledPlace, mod_rowBytes, div_rowBytes, Nat.add_mul, Nat.add_assoc]

theorem unswizzledPlace_eq : r.unswizzledPlace i = pieceMap r.bytesPerPixel.toNat r.unswizzledPixel i := by
  rw [unswizzledPlace, mod_rowBytes, div_rowBytes, pieceMap, unswizzledPixel, Nat.add_assoc]

end Bytes

namespace Valid

variable (h : r.Valid)
include h

theorem bytesPerPixel_bounds : 0 < r.bytesPerPixel.toNat ∧ r.bytesPerPixel.toNat ≤ 16 := by
  have hsupported := h.supported
  simp only [List.mem_cons, List.not_mem_nil, or_false] at hsupported
  rcases hsupported with hn | hn | hn | hn | hn | hn | hn | hn <;> rw [hn] <;> decide

theorem swizzledPlace_injOn : Set.InjOn r.swizzledPlace (Set.Iio r.size) := by
  intro i hi j hj hij
  have hrow : 0 < r.rowBytes := Nat.pos_of_ne_zero fun h0 => by simp [size, h0] at hi
  have hx : ∀ k, (r.originX.toNat * r.bytesPerPixel.toNat + k % r.rowBytes) / 64 < r.layout.gobsInX := by
    intro k
    apply div_lt_ceilDiv (by decide)
    calc r.originX.toNat * r.bytesPerPixel.toNat + k % r.rowBytes
        < r.originX.toNat * r.bytesPerPixel.toNat + r.rowBytes := Nat.add_lt_add_left (Nat.mod_lt _ hrow) _
      _ = (r.originX.toNat + r.extentX.toNat) * r.bytesPerPixel.toNat := (Nat.add_mul _ _ _).symm
      _ ≤ r.width.toNat * r.bytesPerPixel.toNat := Nat.mul_le_mul_right _ h.insideX
  have hy : ∀ k < r.size, (r.originY.toNat + k / r.rowBytes) / 8 / 2 ^ r.layout.blockHeight < r.layout.blocksInY := by
    intro k hk
    have hline : k / r.rowBytes < r.extentY.toNat := Nat.div_lt_of_lt_mul (by rwa [Nat.mul_comm])
    exact row_lt_ceilDiv (Nat.lt_of_lt_of_le (Nat.add_lt_add_left hline _) h.insideY)
  obtain ⟨hxij, hyij, -⟩ := BlockLinear.place_inj (hx i) (hy i hi) (hx j) (hy j hj) hij
  rw [← Nat.div_add_mod i r.rowBytes, ← Nat.div_add_mod j r.rowBytes, Nat.add_left_cancel hyij,
    Nat.add_left_cancel hxij]

theorem unswizzledPlace_injOn : Set.InjOn r.unswizzledPlace (Set.Iio r.size) := by
  intro i hi j _ hij
  have hrow : 0 < r.rowBytes := Nat.pos_of_ne_zero fun h0 => by simp [size, h0] at hi
  have hlt : ∀ k, k % r.rowBytes < r.pitchLinear.toNat := fun k => Nat.lt_of_lt_of_le (Nat.mod_lt k hrow) h.row_le
  obtain ⟨hdiv, hmod⟩ := digit_inj (hlt i) (hlt j) hij
  rw [← Nat.div_add_mod i r.rowBytes, ← Nat.div_add_mod j r.rowBytes, hdiv, hmod]

end Valid

/-- The code's linear offsets, cut to 32 bits, do not exceed the places. -/
theorem pieceMap_unswizzled_le (i : ℕ) :
    pieceMap r.bytesPerPixel.toNat (fun p => r.unswizzledPixel p % 2 ^ 32) i ≤ r.unswizzledPlace i := by
  rw [unswizzledPlace_eq]
  exact Nat.add_le_add_right (Nat.mod_le _ _) _

/-! ### Where a pixel is one piece -/

/-- The table by the number of the 16 bytes in the row of a GOB. -/
theorem swizzleTable_eq (x y : ℕ) : swizzleTable x y = x / 16 % 4 / 2 * 256 + x / 16 % 2 * 32 + x % 16 + depositY y := by
  have hx64 : x % 64 / 32 = x / 16 % 4 / 2 := by omega
  have hx32 : x % 32 / 16 = x / 16 % 2 := by omega
  rw [swizzleTable, depositY, hx64, hx32]
  omega

/-- A byte past the end of its 16 bytes does not follow those before it. -/
theorem place_ne_add {l : BlockLinear} {x y z b : ℕ} (hb : x % 16 + b = 16) : l.place (x + b) y z ≠ l.place x y z + b := by
  have hpow : 2 ^ 9 ≤ 2 ^ (9 + l.blockHeight + l.blockDepth) := Nat.pow_le_pow_right (by decide) (by omega)
  have hunit : (x + b) / 16 = x / 16 + 1 := by omega
  have hstart : (x + b) % 16 = 0 := by omega
  have hx : x / 64 = x / 16 / 4 := by rw [Nat.div_div_eq_div_mul]
  have hnext : (x + b) / 64 = (x / 16 + 1) / 4 := by rw [← hunit, Nat.div_div_eq_div_mul]
  rw [BlockLinear.place_eq_sum, BlockLinear.place_eq_sum, swizzleTable_eq, swizzleTable_eq, hunit, hstart, hx, hnext]
  clear hunit hstart hx hnext
  generalize x / 16 = k
  by_cases hcolumn : (k + 1) / 4 = k / 4
  · rw [hcolumn]
    omega
  · have hk' : (k + 1) / 4 = k / 4 + 1 := by omega
    rw [hk', Nat.succ_mul]
    omega

/-- The number of a byte of a pixel, and what its places are. -/
theorem pixel_coords {line column b : ℕ} (hline : line < r.extentY.toNat) (hcolumn : column < r.extentX.toNat)
    (hb : b < r.bytesPerPixel.toNat) :
    (line * r.extentX.toNat + column) * r.bytesPerPixel.toNat + b < r.size ∧
      r.swizzledPlace ((line * r.extentX.toNat + column) * r.bytesPerPixel.toNat + b) =
        r.layout.place ((r.originX.toNat + column) * r.bytesPerPixel.toNat + b) (r.originY.toNat + line) 0 ∧
      r.unswizzledPlace ((line * r.extentX.toNat + column) * r.bytesPerPixel.toNat + b) =
        line * r.pitchLinear.toNat + column * r.bytesPerPixel.toNat + b := by
  have hpos : 0 < r.bytesPerPixel.toNat := by omega
  have hwidth : 0 < r.extentX.toNat := by omega
  have hdiv : ((line * r.extentX.toNat + column) * r.bytesPerPixel.toNat + b) / r.bytesPerPixel.toNat =
      line * r.extentX.toNat + column := by
    rw [Nat.mul_comm, Nat.mul_add_div hpos, Nat.div_eq_of_lt hb, Nat.add_zero]
  have hmod : ((line * r.extentX.toNat + column) * r.bytesPerPixel.toNat + b) % r.bytesPerPixel.toNat = b := by
    rw [Nat.mul_comm, Nat.mul_add_mod, Nat.mod_eq_of_lt hb]
  have hline' : (line * r.extentX.toNat + column) / r.extentX.toNat = line := by
    rw [Nat.mul_comm, Nat.mul_add_div hwidth, Nat.div_eq_of_lt hcolumn, Nat.add_zero]
  have hcolumn' : (line * r.extentX.toNat + column) % r.extentX.toNat = column := by
    rw [Nat.mul_comm, Nat.mul_add_mod, Nat.mod_eq_of_lt hcolumn]
  refine ⟨?_, ?_, ?_⟩
  · rw [size_eq]
    exact digit_lt (digit_lt hline hcolumn) hb
  · rw [swizzledPlace_eq, hdiv, hmod, hline', hcolumn']
  · rw [unswizzledPlace_eq, pieceMap_add _ hb, unswizzledPixel, hline', hcolumn']

theorem pixel_of_lt {p : ℕ} (hp : p < r.extentY.toNat * r.extentX.toNat) :
    p / r.extentX.toNat < r.extentY.toNat ∧ p % r.extentX.toNat < r.extentX.toNat := by
  have hpos : 0 < r.extentX.toNat := Nat.pos_of_ne_zero fun h0 => by simp [h0] at hp
  refine ⟨Nat.div_lt_of_lt_mul ?_, Nat.mod_lt _ hpos⟩
  rwa [Nat.mul_comm]

/-- The code's own maps are the places just where the pixels are contiguous. -/
theorem contiguous_iff (h : r.Valid) (hshift : 9 + r.blockHeight.toNat + r.blockDepth.toNat < 32) :
    r.Contiguous ↔ ∀ i < r.size,
      pieceMap r.bytesPerPixel.toNat (fun p => r.swizzledPixel p % 2 ^ 32) i = r.swizzledPlace i ∧
        pieceMap r.bytesPerPixel.toNat (fun p => r.unswizzledPixel p % 2 ^ 32) i = r.unswizzledPlace i := by
  obtain ⟨hpos, hle⟩ := h.bytesPerPixel_bounds
  constructor
  · intro hc i hi
    rw [size_eq] at hi
    obtain ⟨hline, hcolumn⟩ := pixel_of_lt (Nat.div_lt_of_lt_mul (by rwa [Nat.mul_comm] at hi))
    have hunit := hc.unit _ hcolumn (Nat.zero_lt_of_lt hline)
    have hb := Nat.mod_lt i hpos
    refine ⟨?_, ?_⟩
    · rw [pieceMap, swizzledPlace_eq, BlockLinear.place_add (by omega)]
      exact congrArg (· + _) (Nat.mod_eq_of_lt (hc.swizzled_lt _ hline _ hcolumn))
    · rw [unswizzledPlace_eq]
      exact congrArg (· + _) (Nat.mod_eq_of_lt (hc.unswizzled_lt _ hline _ hcolumn))
  · intro hmaps
    -- the first byte of a pixel says that its offsets fit
    have hfirst : ∀ line < r.extentY.toNat, ∀ column < r.extentX.toNat,
        r.layout.place ((r.originX.toNat + column) * r.bytesPerPixel.toNat) (r.originY.toNat + line) 0 < 2 ^ 32 ∧
          line * r.pitchLinear.toNat + column * r.bytesPerPixel.toNat < 2 ^ 32 := by
      intro line hline column hcolumn
      obtain ⟨hi, hswizzled, hunswizzled⟩ := pixel_coords hline hcolumn hpos
      obtain ⟨hs, hu⟩ := hmaps _ hi
      rw [pieceMap_add _ hpos, hswizzled] at hs
      rw [pieceMap_add _ hpos, hunswizzled] at hu
      simp only [Nat.add_zero] at hs hu
      rw [← hs, ← hu]
      exact ⟨Nat.mod_lt _ (by decide), Nat.mod_lt _ (by decide)⟩
    refine ⟨hshift, fun column hcolumn hline => ?_, fun line hline column hcolumn => (hfirst line hline column hcolumn).1,
      fun line hline column hcolumn => (hfirst line hline column hcolumn).2⟩
    by_contra hstraddles
    -- the byte that begins the next 16
    obtain ⟨b, hb⟩ : ∃ b, (r.originX.toNat + column) * r.bytesPerPixel.toNat % 16 + b = 16 :=
      ⟨16 - (r.originX.toNat + column) * r.bytesPerPixel.toNat % 16, by omega⟩
    have hbpp : b < r.bytesPerPixel.toNat := by omega
    obtain ⟨hi, hswizzled, -⟩ := pixel_coords hline hcolumn hbpp
    have hs := (hmaps _ hi).1
    rw [pieceMap_add _ hbpp, hswizzled] at hs
    have hpixel : r.swizzledPixel (0 * r.extentX.toNat + column) =
        r.layout.place ((r.originX.toNat + column) * r.bytesPerPixel.toNat) (r.originY.toNat + 0) 0 := by
      rw [swizzledPixel, Nat.zero_mul, Nat.zero_add, Nat.mod_eq_of_lt hcolumn, Nat.div_eq_of_lt hcolumn]
    rw [hpixel, Nat.mod_eq_of_lt (hfirst 0 hline column hcolumn).1] at hs
    exact place_ne_add hb hs.symm

/-! ### The loops -/

theorem shiftsDefined_iff {blockHeight blockDepth : U32} :
    shiftsDefined blockHeight blockDepth = true ↔ 9 + blockHeight.toNat + blockDepth.toNat < 32 := by
  have hgob : (gobSizeShift + blockHeight).toNat = (9 + blockHeight.toNat) % 2 ^ 32 := BitVec.toNat_add _ _
  have hline : (blockHeight + gobSizeYShift).toNat = (blockHeight.toNat + 3) % 2 ^ 32 := BitVec.toNat_add _ _
  simp only [shiftsDefined, Bool.decide_and, Bool.and_eq_true, decide_eq_true_eq, BitVec.lt_def, BitVec.toNat_add _ blockDepth,
    hgob, hline]
  change (blockHeight.toNat < 32 ∧ blockDepth.toNat < 32 ∧ (blockHeight.toNat + 3) % 2 ^ 32 < 32 ∧
    (9 + blockHeight.toNat) % 2 ^ 32 < 32 ∧ ((9 + blockHeight.toNat) % 2 ^ 32 + blockDepth.toNat) % 2 ^ 32 < 32) ↔ _
  omega

/-- Where the code has the pixels: swizzled or not, cut to 32 bits. -/
def pixelAt (r : Subrect) (swizzled : Bool) (p : ℕ) : ℕ :=
  (if swizzled then r.swizzledPixel p else r.unswizzledPixel p) % 2 ^ 32

section Loops

variable (h : r.Valid) (hshift : 9 + r.blockHeight.toNat + r.blockDepth.toNat < 32) {toLinear : Bool}
  {input output : Bytes} {line column : ℕ}
include h hshift

/-- A pixel is copied in one piece. -/
theorem swizzleSubrectPixel_eq (hline : line < r.extentY.toNat) (hcolumn : column < r.extentX.toNat) :
    swizzleSubrectPixel toLinear r.bytesPerPixel r.originX (gobSizeShift + r.blockHeight + r.blockDepth)
        (offsetZ r.height r.blockHeight r.blockDepth (alignUpLog2 (r.width * r.bytesPerPixel) gobSizeXShift) 0#32 +
          offsetY r.blockHeight r.blockDepth (alignUpLog2 (r.width * r.bytesPerPixel) gobSizeXShift)
            (BitVec.ofNat 32 line + r.originY))
        (pdep swizzleYBits (BitVec.ofNat 32 line + r.originY))
        (0#32 * r.pitchLinear * r.height + BitVec.ofNat 32 line * r.pitchLinear) input column
        (pdep swizzleXBits (BitVec.ofNat 32 ((r.originX.toNat + column) * r.bytesPerPixel.toNat)), output) =
      (pdep swizzleXBits (BitVec.ofNat 32 ((r.originX.toNat + (column + 1)) * r.bytesPerPixel.toNat)),
        copyBytes r.bytesPerPixel.toNat (r.pixelAt toLinear (line * r.extentX.toNat + column))
          (r.pixelAt (!toLinear) (line * r.extentX.toNat + column)) input output) := by
  have hwidth : 0 < r.extentX.toNat := by omega
  have hline' : (line * r.extentX.toNat + column) / r.extentX.toNat = line := by
    rw [Nat.mul_comm, Nat.mul_add_div hwidth, Nat.div_eq_of_lt hcolumn, Nat.add_zero]
  have hcolumn' : (line * r.extentX.toNat + column) % r.extentX.toNat = column := by
    rw [Nat.mul_comm, Nat.mul_add_mod, Nat.mod_eq_of_lt hcolumn]
  have hrow : (r.width * r.bytesPerPixel).toNat = r.width.toNat * r.bytesPerPixel.toNat % 2 ^ 32 := BitVec.toNat_mul _ _
  have hx : (BitVec.ofNat 32 column + r.originX) * r.bytesPerPixel =
      BitVec.ofNat 32 ((r.originX.toNat + column) * r.bytesPerPixel.toNat) := by
    rw [Nat.add_comm, BitVec.ofNat_mul, BitVec.ofNat_add]
    simp
  have hy : BitVec.ofNat 32 line + r.originY = BitVec.ofNat 32 (r.originY.toNat + line) := by
    rw [Nat.add_comm, BitVec.ofNat_add]
    simp
  have hylt : r.originY.toNat + line < 2 ^ 32 := by
    have hinside := h.insideY
    omega
  have hynat : (BitVec.ofNat 32 (r.originY.toNat + line)).toNat = r.originY.toNat + line := by
    rw [BitVec.toNat_ofNat, Nat.mod_eq_of_lt hylt]
  have hnext : incrpdep swizzleXBits r.bytesPerPixel
      (pdep swizzleXBits (BitVec.ofNat 32 ((r.originX.toNat + column) * r.bytesPerPixel.toNat))) =
      pdep swizzleXBits (BitVec.ofNat 32 ((r.originX.toNat + (column + 1)) * r.bytesPerPixel.toNat)) := by
    rw [incrpdep_pdep_of_le h.bytesPerPixel_bounds.2, ← Nat.add_assoc, Nat.succ_mul, BitVec.ofNat_add]
    simp
  have hswizzled : 0#32 +
      offsetY r.blockHeight r.blockDepth (alignUpLog2 (r.width * r.bytesPerPixel) gobSizeXShift)
        (BitVec.ofNat 32 (r.originY.toNat + line)) +
      ((BitVec.ofNat 32 ((r.originX.toNat + column) * r.bytesPerPixel.toNat) >>> gobSizeXShift) <<<
        (gobSizeShift + r.blockHeight + r.blockDepth)) +
      (pdep swizzleXBits (BitVec.ofNat 32 ((r.originX.toNat + column) * r.bytesPerPixel.toNat)) |||
        pdep swizzleYBits (BitVec.ofNat 32 (r.originY.toNat + line))) =
      BitVec.ofNat 32 (r.swizzledPixel (line * r.extentX.toNat + column)) := by
    rw [BitVec.zero_add, offsetY_eq hshift hrow, hynat, offsetX_eq hshift, pdep_or_ofNat, ← BitVec.ofNat_add,
      ← BitVec.ofNat_add, swizzledPixel, hline', hcolumn', BlockLinear.place_eq_sum]
    simp [layout]
  have hunswizzled : 0#32 * r.pitchLinear * r.height + BitVec.ofNat 32 line * r.pitchLinear +
      BitVec.ofNat 32 column * r.bytesPerPixel =
      BitVec.ofNat 32 (r.unswizzledPixel (line * r.extentX.toNat + column)) := by
    rw [unswizzledPixel, hline', hcolumn', BitVec.ofNat_add, BitVec.ofNat_mul, BitVec.ofNat_mul]
    simp
  simp only [swizzleSubrectPixel]
  rw [hnext, hx, hy, offsetZ_zero, hswizzled, hunswizzled]
  cases toLinear <;> rfl

/-- **The loops copy the pixels of the rectangle one after the other.** -/
theorem swizzleSubrectCase_eq : swizzleSubrectCase toLinear output input r.bytesPerPixel r.width r.height 1 r.originX
      r.originY r.extentX r.extentY r.blockHeight r.blockDepth r.pitchLinear =
    some (copyPieces r.bytesPerPixel.toNat (r.pixelAt toLinear) (r.pixelAt !toLinear) input
      (r.extentY.toNat * r.extentX.toNat) output) := by
  have hlines : ∀ a b : U32, a.toNat ≤ b.toNat → minU32 a b = a := by
    intro a b hab
    rw [minU32, if_neg (by rw [BitVec.lt_def]; omega)]
  have hextent : minU32 r.extentY (r.height - r.originY) = r.extentY := by
    have hinside := h.insideY
    apply hlines
    rw [BitVec.toNat_sub]
    omega
  have hrow : ∀ line < r.extentY.toNat, ∀ output : Bytes,
      (countLoop (swizzleSubrectPixel toLinear r.bytesPerPixel r.originX (gobSizeShift + r.blockHeight + r.blockDepth)
        (offsetZ r.height r.blockHeight r.blockDepth (alignUpLog2 (r.width * r.bytesPerPixel) gobSizeXShift) 0#32 +
          offsetY r.blockHeight r.blockDepth (alignUpLog2 (r.width * r.bytesPerPixel) gobSizeXShift)
            (BitVec.ofNat 32 line + r.originY))
        (pdep swizzleYBits (BitVec.ofNat 32 line + r.originY))
        (0#32 * r.pitchLinear * r.height + BitVec.ofNat 32 line * r.pitchLinear) input) r.extentX.toNat
        (pdep swizzleXBits (r.originX * r.bytesPerPixel), output)).2 =
      countLoop (fun column output => copyBytes r.bytesPerPixel.toNat
        (r.pixelAt toLinear (line * r.extentX.toNat + column)) (r.pixelAt (!toLinear) (line * r.extentX.toNat + column))
        input output) r.extentX.toNat output := by
    intro line hline output
    have hstart : r.originX * r.bytesPerPixel =
        BitVec.ofNat 32 ((r.originX.toNat + 0) * r.bytesPerPixel.toNat) := by
      rw [Nat.add_zero, BitVec.ofNat_mul]
      simp
    rw [hstart]
    have hrun := countLoop_rule (n := r.extentX.toNat)
      (I := fun column s => s = (pdep swizzleXBits (BitVec.ofNat 32 ((r.originX.toNat + column) * r.bytesPerPixel.toNat)),
        countLoop (fun column output => copyBytes r.bytesPerPixel.toNat
          (r.pixelAt toLinear (line * r.extentX.toNat + column)) (r.pixelAt (!toLinear) (line * r.extentX.toNat + column))
          input output) column output)) rfl fun column hcolumn s hs => by
        rw [hs]
        exact swizzleSubrectPixel_eq h hshift hline hcolumn
    exact congrArg Prod.snd hrun
  rw [swizzleSubrectCase, if_pos h.supported, swizzleSubrectImpl]
  simp only [shiftsDefined_iff.mpr hshift, if_true, hextent]
  change some (subrectSlices _ r.extentY 1 0 r.extentY output) = _
  simp only [subrectSlices, hlines r.extentY r.extentY (Nat.le_refl _), ite_self]
  rw [countLoop_congr hrow, copyPieces, ← countLoop_countLoop]

end Loops

theorem swizzle_none (h : r.Valid) (hshift : ¬9 + r.blockHeight.toNat + r.blockDepth.toNat < 32) (output input : Bytes) :
    r.swizzle output input = none := by
  rw [swizzle, swizzleSubrect, swizzleSubrectCase, if_pos h.supported, swizzleSubrectImpl]
  exact if_neg fun hdefined => hshift (shiftsDefined_iff.mp hdefined)

/-! ### What is moved -/

instance : Nontrivial UInt8 := ⟨0, 1, by decide⟩

section Moves

variable (h : r.Valid) (hshift : 9 + r.blockHeight.toNat + r.blockDepth.toNat < 32)
include h hshift

theorem swizzle_eq (output input : Bytes) : r.swizzle output input =
    some (copyPieces r.bytesPerPixel.toNat (r.pixelAt true) (r.pixelAt false) input (r.extentY.toNat * r.extentX.toNat)
      output) :=
  swizzleSubrectCase_eq h hshift

theorem unswizzle_eq (output input : Bytes) : r.unswizzle output input =
    some (copyPieces r.bytesPerPixel.toNat (r.pixelAt false) (r.pixelAt true) input (r.extentY.toNat * r.extentX.toNat)
      output) :=
  swizzleSubrectCase_eq h hshift

theorem swizzles_iff : (∀ input start : Bytes, Copied r.swizzledPlace r.unswizzledPlace input start r.size
      (copyPieces r.bytesPerPixel.toNat (r.pixelAt true) (r.pixelAt false) input (r.extentY.toNat * r.extentX.toNat)
        start)) ↔ r.Contiguous := by
  have hdst := h.swizzledPlace_injOn
  have hsrc := h.unswizzledPlace_injOn
  rw [contiguous_iff h hshift]
  rw [size_eq] at hdst hsrc ⊢
  exact copyPieces_copied_iff hdst hsrc (.inr fun i _ => pieceMap_unswizzled_le i)

theorem unswizzles_iff : (∀ input start : Bytes, Copied r.unswizzledPlace r.swizzledPlace input start r.size
      (copyPieces r.bytesPerPixel.toNat (r.pixelAt false) (r.pixelAt true) input (r.extentY.toNat * r.extentX.toNat)
        start)) ↔ r.Contiguous := by
  have hdst := h.unswizzledPlace_injOn
  have hsrc := h.swizzledPlace_injOn
  rw [contiguous_iff h hshift]
  simp only [and_comm (a := pieceMap _ (fun p => r.swizzledPixel p % 2 ^ 32) _ = _)]
  rw [size_eq] at hdst hsrc ⊢
  exact copyPieces_copied_iff hdst hsrc (.inl fun i _ => pieceMap_unswizzled_le i)

end Moves

theorem contiguous_of_movesExactly (h : r.Valid) (hmoves : r.MovesExactly) : r.Contiguous := by
  by_cases hshift : 9 + r.blockHeight.toNat + r.blockDepth.toNat < 32
  · rw [← swizzles_iff h hshift]
    intro input start
    obtain ⟨output, hswizzle, hcopied⟩ := hmoves.swizzles input start
    cases (swizzle_eq h hshift start input).symm.trans hswizzle
    exact hcopied
  · obtain ⟨output, hswizzle, -⟩ := hmoves.swizzles (fun _ => 0) fun _ => 0
    rw [swizzle_none h hshift] at hswizzle
    cases hswizzle

/-- **Both calls move exactly the bytes of the rectangle just when its pixels are contiguous.** -/
theorem movesExactly_iff (h : r.Valid) : r.MovesExactly ↔ r.Contiguous := by
  refine ⟨contiguous_of_movesExactly h, fun hc => ?_⟩
  have hswizzled := (swizzles_iff h hc.shift_lt).mpr hc
  have hunswizzled := (unswizzles_iff h hc.shift_lt).mpr hc
  refine ⟨fun input start => ⟨_, swizzle_eq h hc.shift_lt start input, hswizzled input start⟩,
    fun input start => ⟨_, unswizzle_eq h hc.shift_lt start input, hunswizzled input start⟩, fun linear blocks linear' => ?_⟩
  refine ⟨_, _, swizzle_eq h hc.shift_lt blocks linear, unswizzle_eq h hc.shift_lt linear' _, fun i hi => ?_⟩
  exact (hswizzled linear blocks).back (hunswizzled _ linear') hi

/-- Five by four pixels of three bytes, which do not straddle 16 bytes. -/
def thirds : Subrect := ⟨3, 7, 9, 0, 5, 5, 4, 1, 0, 20⟩

theorem thirds_movesExactly : thirds.MovesExactly :=
  (movesExactly_iff ⟨by decide, by decide, by decide, by decide⟩).mpr
    ⟨by decide, by decide, by decide +kernel, by decide +kernel⟩

/-- Six pixels of three bytes: the last is at the bytes 15 to 17 of the row. -/
def straddling : Subrect := ⟨3, 7, 1, 0, 0, 6, 1, 0, 0, 18⟩

theorem straddling_not_movesExactly : straddling.Valid ∧ ¬straddling.MovesExactly := by
  have hvalid : straddling.Valid := ⟨by decide, by decide, by decide, by decide⟩
  refine ⟨hvalid, fun hmoves => ?_⟩
  have hunit := (contiguous_of_movesExactly hvalid hmoves).unit 5 (by decide) (by decide)
  revert hunit
  decide

end Subrect

end Texture
end Tegra
end Citron
