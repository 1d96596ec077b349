/-
# Decoding ADPCM

`DecodeAdpcm`: frames of a header byte and 14 samples of a nibble each. A call starts anywhere in
a frame, with the header and the last two samples that the call before it has left. Reading past
the bytes it fetched, or past the sixteen coefficients, is a fault.
-/
import Citron.Lib.Loop

namespace Citron
namespace AudioCore
namespace Renderer

open Lib (whileLoop)

structure AdpcmContext where
  header : BitVec 16
  yn0 : BitVec 16
  yn1 : BitVec 16

/-- The guest's bytes by address. -/
abbrev GuestBytes := BitVec 64 → BitVec 8

abbrev Coefficients := Vector (BitVec 16) 16

/-- `startOffset`, `endOffset`, `offset` and `samplesToRead` are 32 bits wide, `bufferSize` 64. -/
structure DecodeArg where
  buffer : BitVec 64
  bufferSize : ℕ
  startOffset : ℕ
  endOffset : ℕ
  coefficients : Coefficients
  adpcmContext : AdpcmContext
  offset : ℕ
  samplesToRead : ℕ

inductive AdpcmFault
  | pastFetched (index : ℕ)
  | pastCoefficients (index : ℕ)
  | outOfTurns

abbrev samplesPerFrame : ℕ := 14

abbrev nibblesPerFrame : ℕ := 16

def steps : Vector (BitVec 32) 16 := #v[0, 1, 2, 3, 4, 5, 6, 7, -8, -7, -6, -5, -4, -3, -2, -1]

/-- `(header >> 4) & 0xF` -/
def coeffIndex (header : BitVec 16) : ℕ := ((header >>> 4) &&& 0xF#16).toNat

/-- `header & 0xF` -/
def scaleOf (header : BitVec 16) : ℕ := (header &&& 0xF#16).toNat

/-- The sums and products are words of 32 bits. -/
def decodeSample (coeff0 coeff1 : BitVec 16) (scale : ℕ) (yn0 yn1 : BitVec 16) (code : BitVec 32) : BitVec 16 :=
  let xn := code * (1#32 <<< scale)
  let prediction := coeff0.signExtend 32 * yn0.signExtend 32 + coeff1.signExtend 32 * yn1.signExtend 32
  let sample := ((xn <<< 11) + 0x400#32 + prediction).sshiftRight 11
  let saturated := if sample.slt (-0x8000#32) then -0x8000#32 else if (0x7FFF#32).slt sample then 0x7FFF#32 else sample
  saturated.setWidth 16

/-- The variables of the loop; `out` is what has been written to the output buffer. -/
structure AdpcmDecoder where
  header : BitVec 16
  coeff0 : BitVec 16
  coeff1 : BitVec 16
  scale : ℕ
  yn0 : BitVec 16
  yn1 : BitVec 16
  positionInFrame : ℕ
  samplesToRead : ℕ
  readIndex : ℕ
  out : List (BitVec 16)

section

variable (wavebuffer : ℕ → Except AdpcmFault (BitVec 8)) (coefficients : Coefficients)

/-- The `size` bytes fetched from `address` on. -/
def guestMemory (memory : GuestBytes) (address : BitVec 64) (size i : ℕ) : Except AdpcmFault (BitVec 8) :=
  if i < size then .ok (memory (address + BitVec.ofNat 64 i)) else .error (.pastFetched i)

def coefficient (i : ℕ) : Except AdpcmFault (BitVec 16) :=
  if h : i < 16 then .ok (coefficients.get ⟨i, h⟩) else .error (.pastCoefficients i)

namespace AdpcmDecoder

variable (d : AdpcmDecoder)

def setHeader (header : BitVec 16) : Except AdpcmFault AdpcmDecoder := do
  let coeff0 ← coefficient coefficients (coeffIndex header * 2 + 0)
  let coeff1 ← coefficient coefficients (coeffIndex header * 2 + 1)
  return { d with header := header, coeff0 := coeff0, coeff1 := coeff1, scale := scaleOf header }

/-- `out_buffer[write_index++] = decode_sample(Steps[code])` -/
def writeSample (code : BitVec 4) : AdpcmDecoder :=
  let sample := decodeSample d.coeff0 d.coeff1 d.scale d.yn0 d.yn1 (steps.get code.toFin)
  { d with yn1 := d.yn0, yn0 := sample, out := d.out ++ [sample] }

def newFrame : Except AdpcmFault AdpcmDecoder := do
  let byte ← wavebuffer d.readIndex
  let d ← d.setHeader coefficients (byte.setWidth 16)
  return { d with readIndex := d.readIndex + 1, positionInFrame := (d.positionInFrame + 2) % 2 ^ 32 }

/-- Both samples of a byte. -/
def decodeByte (d : AdpcmDecoder) (_ : ℕ) : Except AdpcmFault AdpcmDecoder := do
  let byte ← wavebuffer d.readIndex
  return { (d.writeSample (byte.extractLsb' 4 4)).writeSample (byte.extractLsb' 0 4) with readIndex := d.readIndex + 1 }

def decodeFrame : Except AdpcmFault AdpcmDecoder := do
  let d ← (List.range (samplesPerFrame / 2)).foldlM (decodeByte wavebuffer) d
  return { d with positionInFrame := (d.positionInFrame + samplesPerFrame) % 2 ^ 32
                  samplesToRead := d.samplesToRead - samplesPerFrame }

def decodeSingle : Except AdpcmFault AdpcmDecoder := do
  let byte ← wavebuffer d.readIndex
  let d := if d.positionInFrame % 2 = 1 then { d.writeSample (byte.extractLsb' 0 4) with readIndex := d.readIndex + 1 }
    else d.writeSample (byte.extractLsb' 4 4)
  return { d with positionInFrame := (d.positionInFrame + 1) % 2 ^ 32, samplesToRead := d.samplesToRead - 1 }

/-- The body of the loop while there are samples to read. -/
def turn (d : AdpcmDecoder) : Except AdpcmFault AdpcmDecoder := do
  if d.positionInFrame % nibblesPerFrame = 0 then
    let d ← d.newFrame wavebuffer coefficients
    if d.samplesToRead ≥ samplesPerFrame then d.decodeFrame wavebuffer else d.decodeSingle wavebuffer
  else d.decodeSingle wavebuffer

end AdpcmDecoder
end

/-- `end`, twice the bytes up to the end offset and one or three nibbles more. -/
def endNibble (endOffset : ℕ) : ℕ :=
  let stop := (endOffset % samplesPerFrame + nibblesPerFrame * (endOffset / samplesPerFrame)) % 2 ^ 32
  if endOffset % samplesPerFrame ≠ 0 then (stop + 3) % 2 ^ 32 else (stop + 1) % 2 ^ 32

/-- `position_in_frame` at the start. -/
def startNibble (startPos : ℕ) : ℕ :=
  let inFrame := startPos % samplesPerFrame
  let position := (startPos / samplesPerFrame * nibblesPerFrame + inFrame) % 2 ^ 32
  if inFrame ≠ 0 then (position + 2) % 2 ^ 32 else position

/-- The number of bytes to fetch. -/
def fetchSize (samplesToProcess : ℕ) : ℕ := max (samplesToProcess / 8 * samplesPerFrame % 2 ^ 32) 8

/-- The loop over the samples, from the sample that the context comes before. -/
def decodeSamples (memory : GuestBytes) (req : DecodeArg) (startPos samplesToProcess : ℕ) : Except AdpcmFault AdpcmDecoder := do
  let position := startNibble startPos
  let wavebuffer := guestMemory memory (req.buffer + BitVec.ofNat 64 (position / 2)) (fetchSize samplesToProcess)
  let initial : AdpcmDecoder :=
    { header := 0, coeff0 := 0, coeff1 := 0, scale := 0, yn0 := req.adpcmContext.yn0, yn1 := req.adpcmContext.yn1
      positionInFrame := position, samplesToRead := samplesToProcess, readIndex := 0, out := [] }
  let d ← initial.setHeader req.coefficients req.adpcmContext.header
  whileLoop .outOfTurns (fun d => 0 < d.samplesToRead) (AdpcmDecoder.turn wavebuffer req.coefficients) samplesToProcess d

/-- What is written to the output buffer, the context and the number of samples decoded. -/
def decodeAdpcm (memory : GuestBytes) (req : DecodeArg) : Except AdpcmFault (List (BitVec 16) × AdpcmContext × ℕ) :=
  if req.buffer = 0 ∨ req.bufferSize = 0 then .ok ([], req.adpcmContext, 0)
  else if req.endOffset < req.startOffset then .ok ([], req.adpcmContext, 0)
  else if req.bufferSize < endNibble req.endOffset / 2 then .ok ([], req.adpcmContext, 0)
  else
    let startPos := (req.startOffset + req.offset) % 2 ^ 32
    let samplesToProcess := min ((req.endOffset + 2 ^ 32 - startPos) % 2 ^ 32) req.samplesToRead
    if samplesToProcess = 0 then .ok ([], req.adpcmContext, 0)
    else do
      let d ← decodeSamples memory req startPos samplesToProcess
      return (d.out, ⟨d.header, d.yn0, d.yn1⟩, samplesToProcess)

/-- Calls for the given numbers of samples: the offset advances by what each returns, and the context
is carried along. -/
def decodeCalls (memory : GuestBytes) (req : DecodeArg) : List ℕ → Except AdpcmFault (List (List (BitVec 16)) × AdpcmContext)
  | [] => .ok ([], req.adpcmContext)
  | n :: ns => do
    let (out, context, count) ← decodeAdpcm memory { req with samplesToRead := n }
    let (outs, context) ← decodeCalls memory
      { req with adpcmContext := context, offset := (req.offset + count) % 2 ^ 32 } ns
    return (out :: outs, context)

end Renderer

/-! ## The loop of the ADPCM decoder

The reference decodes one sample after the other, each from the nibble of its own frame. The loop
takes a frame at a time where it can and keeps its place as a nibble position and a byte index.
-/

namespace Renderer

open Lib (whileLoop whileLoop_spec)

/-! ### The reference -/

section

variable (coefficients : Coefficients) (wave : ℕ → BitVec 8)

/-- The header of the frame of sample `p`. -/
def frameHeader (p : ℕ) : BitVec 16 := (wave (p / 14 * 8)).setWidth 16

/-- The byte with the code of sample `p`. -/
def codeByte (p : ℕ) : ℕ := p / 14 * 8 + 1 + p % 14 / 2

/-- The code of sample `p`. -/
def sampleCode (p : ℕ) : BitVec 4 :=
  if p % 2 = 1 then (wave (codeByte p)).extractLsb' 0 4 else (wave (codeByte p)).extractLsb' 4 4

/-- The header that sample `p` is decoded with: its frame's, which the context has unless the frame begins. -/
def headerFor (p : ℕ) (context : AdpcmContext) : BitVec 16 := if p % 14 = 0 then frameHeader wave p else context.header

def coefficientAt (i : ℕ) : BitVec 16 := if h : i < 16 then coefficients.get ⟨i, h⟩ else 0

/-- The context after sample `p`; its `yn0` is the sample. -/
def referenceSample (p : ℕ) (context : AdpcmContext) : AdpcmContext where
  header := headerFor wave p context
  yn0 := decodeSample (coefficientAt coefficients (coeffIndex (headerFor wave p context) * 2 + 0))
    (coefficientAt coefficients (coeffIndex (headerFor wave p context) * 2 + 1)) (scaleOf (headerFor wave p context))
    context.yn0 context.yn1 (steps.get (sampleCode wave p).toFin)
  yn1 := context.yn0

/-- The `n` samples from `p` on and the context after them. -/
def reference : ℕ → ℕ → AdpcmContext → List (BitVec 16) × AdpcmContext
  | _, 0, context => ([], context)
  | p, n + 1, context =>
    let next := referenceSample coefficients wave p context
    (next.yn0 :: (reference (p + 1) n next).1, (reference (p + 1) n next).2)

end

variable {coefficients : Coefficients} {wave : ℕ → BitVec 8} {context : AdpcmContext}

theorem reference_add (p n m : ℕ) (context : AdpcmContext) :
    reference coefficients wave p (n + m) context =
      ((reference coefficients wave p n context).1 ++
          (reference coefficients wave (p + n) m (reference coefficients wave p n context).2).1,
        (reference coefficients wave (p + n) m (reference coefficients wave p n context).2).2) := by
  induction n generalizing p context with
  | zero =>
    rw [Nat.zero_add]
    rfl
  | succ n ih =>
    rw [Nat.add_right_comm, reference, ih, reference, List.cons_append, Nat.add_right_comm p 1 n, Nat.add_assoc p n 1]

theorem reference_succ (p n : ℕ) (context : AdpcmContext) :
    reference coefficients wave p (n + 1) context =
      ((reference coefficients wave p n context).1 ++
          [(referenceSample coefficients wave (p + n) (reference coefficients wave p n context).2).yn0],
        referenceSample coefficients wave (p + n) (reference coefficients wave p n context).2) :=
  reference_add p n 1 context

theorem reference_length (p n : ℕ) (context : AdpcmContext) : (reference coefficients wave p n context).1.length = n := by
  induction n generalizing p context with
  | zero => rfl
  | succ n ih => rw [reference, List.length_cons, ih]

/-! ### Writing samples -/

theorem AdpcmDecoder.positionInFrame_writeSample (d : AdpcmDecoder) (code : BitVec 4) :
    (d.writeSample code).positionInFrame = d.positionInFrame := by
  simp only [writeSample]

theorem AdpcmDecoder.samplesToRead_writeSample (d : AdpcmDecoder) (code : BitVec 4) :
    (d.writeSample code).samplesToRead = d.samplesToRead := by
  simp only [writeSample]

/-- The decoder has written the `done` samples from `p` on, and goes on with the header `head`. -/
structure Written (coefficients : Coefficients) (wave : ℕ → BitVec 8) (p : ℕ) (context : AdpcmContext) (done : ℕ)
    (head : BitVec 16) (d : AdpcmDecoder) : Prop where
  header : d.header = head
  coeff0 : d.coeff0 = coefficientAt coefficients (coeffIndex head * 2 + 0)
  coeff1 : d.coeff1 = coefficientAt coefficients (coeffIndex head * 2 + 1)
  scale : d.scale = scaleOf head
  yn0 : d.yn0 = (reference coefficients wave p done context).2.yn0
  yn1 : d.yn1 = (reference coefficients wave p done context).2.yn1
  out : d.out = (reference coefficients wave p done context).1

variable {p done : ℕ} {d : AdpcmDecoder}

variable {head : BitVec 16}

theorem Written.writeSample (h : Written coefficients wave p context done head d)
    (hhead : headerFor wave (p + done) (reference coefficients wave p done context).2 = head) :
    Written coefficients wave p context (done + 1) head (d.writeSample (sampleCode wave (p + done))) := by
  have hsample : decodeSample d.coeff0 d.coeff1 d.scale d.yn0 d.yn1 (steps.get (sampleCode wave (p + done)).toFin) =
      (reference coefficients wave p (done + 1) context).2.yn0 := by
    rw [h.coeff0, h.coeff1, h.scale, h.yn0, h.yn1, reference_succ]
    simp only [referenceSample, hhead]
  refine ⟨h.header, h.coeff0, h.coeff1, h.scale, hsample, ?_, ?_⟩
  · rw [reference_succ]
    exact h.yn0
  · change d.out ++ [_] = _
    rw [hsample, h.out, reference_succ]

/-- Where the reading stands makes no difference to what was written. -/
theorem Written.move (h : Written coefficients wave p context done head d) (position left index : ℕ) :
    Written coefficients wave p context done head
      { d with positionInFrame := position, samplesToRead := left, readIndex := index } :=
  ⟨h.header, h.coeff0, h.coeff1, h.scale, h.yn0, h.yn1, h.out⟩

theorem coefficient_ok {i : ℕ} (h : i < 16) : coefficient coefficients i = .ok (coefficientAt coefficients i) := by
  rw [coefficient, coefficientAt, dif_pos h, dif_pos h]

theorem setHeader_ok (coefficients : Coefficients) (d : AdpcmDecoder) {header : BitVec 16} (h : coeffIndex header < 8) :
    d.setHeader coefficients header =
      .ok { d with header := header
                   coeff0 := coefficientAt coefficients (coeffIndex header * 2 + 0)
                   coeff1 := coefficientAt coefficients (coeffIndex header * 2 + 1)
                   scale := scaleOf header } := by
  rw [AdpcmDecoder.setHeader, coefficient_ok (by omega), coefficient_ok (by omega)]
  rfl

/-- The decoder after the header of a frame. -/
def AdpcmDecoder.takeHeader (d : AdpcmDecoder) (coefficients : Coefficients) (header : BitVec 16) : AdpcmDecoder :=
  { d with header := header
           coeff0 := coefficientAt coefficients (coeffIndex header * 2 + 0)
           coeff1 := coefficientAt coefficients (coeffIndex header * 2 + 1)
           scale := scaleOf header
           readIndex := d.readIndex + 1
           positionInFrame := (d.positionInFrame + 2) % 2 ^ 32 }

theorem Written.takeHeader (h : Written coefficients wave p context done head d) (header : BitVec 16) :
    Written coefficients wave p context done header (d.takeHeader coefficients header) :=
  ⟨rfl, rfl, rfl, rfl, h.yn0, h.yn1, h.out⟩

/-! ### The place in the frame -/

/-- The byte at which the reading stands before sample `p`. -/
def bytePos (p : ℕ) : ℕ := p / 14 * 8 + if p % 14 = 0 then 0 else (p % 14 + 2) / 2

/-- The nibble of the frame at which the position stands before sample `p`. -/
def nibblePos (p : ℕ) : ℕ := if p % 14 = 0 then 0 else p % 14 + 2

theorem bytePos_frame {p : ℕ} (h : p % 14 = 0) : bytePos p = p / 14 * 8 ∧ codeByte p = bytePos p + 1 := by
  rw [bytePos, codeByte, if_pos h]
  omega

theorem bytePos_inside {p : ℕ} (h : p % 14 ≠ 0) : bytePos p = codeByte p := by
  rw [bytePos, codeByte, if_neg h]
  omega

theorem bytePos_succ {p : ℕ} : bytePos (p + 1) = if p % 2 = 1 then codeByte p + 1 else codeByte p := by
  rw [bytePos, codeByte]
  split <;> split <;> omega

/-- The bytes that are read for a sample are among those that were fetched. -/
theorem codeByte_lt {p n q : ℕ} (hlow : p ≤ q) (hhigh : q < p + n) : codeByte q < bytePos p + max (n / 8 * 14) 8 := by
  rw [codeByte, bytePos]
  split <;> omega

/-! ### Frames and single samples -/

/-- What the loop reads for the `n` samples from `p` on. -/
structure Source (read : ℕ → Except AdpcmFault (BitVec 8)) (wave : ℕ → BitVec 8) (p n : ℕ) : Prop where
  bytes : ∀ i < max (n / 8 * 14) 8, read i = .ok (wave (bytePos p + i))
  headers : ∀ q, p ≤ q → q < p + n → coeffIndex (frameHeader wave q) < 8

variable {read : ℕ → Except AdpcmFault (BitVec 8)} {n : ℕ}

/-- The header that the next sample is decoded with is the one that the context has after it. -/
theorem reference_header (p done : ℕ) (context : AdpcmContext) :
    (reference coefficients wave p (done + 1) context).2.header =
      headerFor wave (p + done) (reference coefficients wave p done context).2 := by
  rw [reference_succ]
  rfl

/-- The header of a frame stays through the frame. -/
theorem headerFor_frame (coefficients : Coefficients) (wave : ℕ → BitVec 8) (context : AdpcmContext) (hframe : (p + done) % 14 = 0) {i : ℕ} (hi : i < 14) :
    headerFor wave (p + (done + i)) (reference coefficients wave p (done + i) context).2 = frameHeader wave (p + done) := by
  induction i with
  | zero => rw [Nat.add_zero, headerFor, if_pos hframe]
  | succ i ih =>
    rw [headerFor, if_neg (by omega), ← Nat.add_assoc done i 1, reference_header]
    exact ih (by omega)

/-- Both samples of a byte, the first one of them at an even place. -/
theorem decodeByte_spec (hsource : Source read wave p n) (h : Written coefficients wave p context done head d)
    (hhead : headerFor wave (p + done) (reference coefficients wave p done context).2 = head)
    (hhead' : headerFor wave (p + (done + 1)) (reference coefficients wave p (done + 1) context).2 = head)
    (heven : (p + done) % 2 = 0) (hread : bytePos p + d.readIndex = codeByte (p + done)) (hn : done + 2 ≤ n) (k : ℕ) :
    ∃ d', AdpcmDecoder.decodeByte read d k = .ok d' ∧ Written coefficients wave p context (done + 2) head d' ∧
      d'.readIndex = d.readIndex + 1 ∧ d'.positionInFrame = d.positionInFrame ∧ d'.samplesToRead = d.samplesToRead := by
  have hlt := codeByte_lt (p := p) (n := n) (q := p + done) (by omega) (by omega)
  have hbyte : read d.readIndex = .ok (wave (codeByte (p + done))) := by
    rw [hsource.bytes d.readIndex (by omega), hread]
  have hfirst : (wave (codeByte (p + done))).extractLsb' 4 4 = sampleCode wave (p + done) := by
    rw [sampleCode, if_neg (by omega)]
  have hsecond : (wave (codeByte (p + done))).extractLsb' 0 4 = sampleCode wave (p + (done + 1)) := by
    have hsame : codeByte (p + (done + 1)) = codeByte (p + done) := by
      rw [codeByte, codeByte]
      omega
    rw [sampleCode, if_pos (by omega), hsame]
  have htwo := ((h.writeSample hhead).writeSample hhead').move d.positionInFrame d.samplesToRead (d.readIndex + 1)
  refine ⟨_, ?_, htwo, rfl, rfl, rfl⟩
  rw [AdpcmDecoder.decodeByte, hbyte]
  simp only [bind, Except.bind, pure, Except.pure, hfirst, hsecond, AdpcmDecoder.positionInFrame_writeSample,
    AdpcmDecoder.samplesToRead_writeSample]

/-- The bytes of a frame, up to the first `j` of them. -/
theorem decodeBytes_spec (hsource : Source read wave p n) (hframe : (p + done) % 14 = 0) (hn : done + 14 ≤ n)
    (h : Written coefficients wave p context done (frameHeader wave (p + done)) d)
    (hread : bytePos p + d.readIndex = bytePos (p + done) + 1) {j : ℕ} (hj : j ≤ 7) :
    ∃ d', (List.range j).foldlM (AdpcmDecoder.decodeByte read) d = .ok d' ∧
      Written coefficients wave p context (done + 2 * j) (frameHeader wave (p + done)) d' ∧
      d'.readIndex = d.readIndex + j ∧ d'.positionInFrame = d.positionInFrame ∧ d'.samplesToRead = d.samplesToRead := by
  induction j with
  | zero => exact ⟨d, rfl, h, rfl, rfl, rfl⟩
  | succ j ih =>
    obtain ⟨d₁, hfold, hwritten, hindex, hposition, hleft⟩ := ih (by omega)
    have hhead := headerFor_frame coefficients wave context hframe (i := 2 * j) (by omega)
    have hhead' := headerFor_frame coefficients wave context hframe (i := 2 * j + 1) (by omega)
    have hbyte : bytePos p + d₁.readIndex = codeByte (p + (done + 2 * j)) := by
      obtain ⟨hpos, -⟩ := bytePos_frame hframe
      rw [codeByte]
      omega
    obtain ⟨d₂, hstep, hwritten', hindex', hposition', hleft'⟩ :=
      decodeByte_spec hsource hwritten hhead hhead' (by omega) hbyte (by omega) j
    refine ⟨d₂, ?_, hwritten', by omega, by rw [hposition', hposition], by rw [hleft', hleft]⟩
    rw [List.range_succ, List.foldlM_append, hfold]
    change [j].foldlM (AdpcmDecoder.decodeByte read) d₁ = .ok d₂
    rw [List.foldlM_cons, hstep]
    rfl

/-- The loop has decoded the `done` samples from `p` on. -/
structure At (coefficients : Coefficients) (wave : ℕ → BitVec 8) (p n : ℕ) (context : AdpcmContext) (done : ℕ)
    (d : AdpcmDecoder) : Prop where
  written : Written coefficients wave p context done (reference coefficients wave p done context).2.header d
  position : d.positionInFrame % 16 = nibblePos (p + done)
  readIndex : bytePos p + d.readIndex = bytePos (p + done)
  left : done + d.samplesToRead = n

/-- A single sample, at a place that the position tells. -/
theorem decodeSingle_spec (hsource : Source read wave p n) (h : Written coefficients wave p context done head d)
    (hhead : headerFor wave (p + done) (reference coefficients wave p done context).2 = head)
    (hposition : d.positionInFrame % 16 = (p + done) % 14 + 2) (hread : bytePos p + d.readIndex = codeByte (p + done))
    (hleft : done + d.samplesToRead = n) (hmore : 0 < d.samplesToRead) :
    ∃ d', d.decodeSingle read = .ok d' ∧ At coefficients wave p n context (done + 1) d' := by
  have hlt := codeByte_lt (p := p) (n := n) (q := p + done) (by omega) (by omega)
  have hbyte : read d.readIndex = .ok (wave (codeByte (p + done))) := by
    rw [hsource.bytes d.readIndex (by omega), hread]
  have hone := h.writeSample hhead
  rw [← hhead, ← reference_header] at hone
  have hnibble : (d.positionInFrame + 1) % 2 ^ 32 % 16 = nibblePos (p + (done + 1)) := by
    rw [nibblePos]
    split <;> omega
  have hnext := bytePos_succ (p := p + done)
  rw [AdpcmDecoder.decodeSingle, hbyte]
  by_cases hodd : (p + done) % 2 = 1
  · have hcode : sampleCode wave (p + done) = (wave (codeByte (p + done))).extractLsb' 0 4 := by rw [sampleCode, if_pos hodd]
    rw [if_pos hodd] at hnext
    refine ⟨_, ?_, hone.move ((d.positionInFrame + 1) % 2 ^ 32) (d.samplesToRead - 1) (d.readIndex + 1), hnibble, ?_, ?_⟩
    · rw [hcode]
      simp only [bind, Except.bind]
      rw [if_pos (by omega)]
      rfl
    · change bytePos p + (d.readIndex + 1) = bytePos (p + done + 1)
      omega
    · change done + 1 + (d.samplesToRead - 1) = n
      omega
  · have hcode : sampleCode wave (p + done) = (wave (codeByte (p + done))).extractLsb' 4 4 := by rw [sampleCode, if_neg hodd]
    rw [if_neg hodd] at hnext
    refine ⟨_, ?_, hone.move ((d.positionInFrame + 1) % 2 ^ 32) (d.samplesToRead - 1) d.readIndex, hnibble, ?_, ?_⟩
    · rw [hcode]
      simp only [bind, Except.bind]
      rw [if_neg (by omega)]
      rfl
    · change bytePos p + d.readIndex = bytePos (p + done + 1)
      omega
    · change done + 1 + (d.samplesToRead - 1) = n
      omega

/-- A whole frame after its header. -/
theorem decodeFrame_spec (hsource : Source read wave p n) (hframe : (p + done) % 14 = 0)
    (h : Written coefficients wave p context done (frameHeader wave (p + done)) d)
    (hread : bytePos p + d.readIndex = bytePos (p + done) + 1) (hposition : d.positionInFrame % 16 = 2)
    (hleft : done + d.samplesToRead = n) (hmore : 14 ≤ d.samplesToRead) :
    ∃ d', d.decodeFrame read = .ok d' ∧ At coefficients wave p n context (done + 14) d' := by
  obtain ⟨d', hfold, hwritten, hindex, hposition', hleft'⟩ := decodeBytes_spec hsource hframe (by omega) h hread (Nat.le_refl 7)
  have hheader : (reference coefficients wave p (done + 14) context).2.header = frameHeader wave (p + done) := by
    rw [reference_header p (done + 13)]
    exact headerFor_frame coefficients wave context hframe (by omega)
  refine ⟨_, ?_, ⟨(hheader ▸ hwritten).move ((d'.positionInFrame + 14) % 2 ^ 32) (d'.samplesToRead - 14) d'.readIndex,
    ?_, ?_, ?_⟩⟩
  · rw [AdpcmDecoder.decodeFrame, show samplesPerFrame / 2 = 7 from rfl, hfold]
    rfl
  · change (d'.positionInFrame + 14) % 2 ^ 32 % 16 = _
    rw [nibblePos, if_pos (by omega)]
    omega
  · change bytePos p + d'.readIndex = _
    obtain ⟨hpos, -⟩ := bytePos_frame hframe
    obtain ⟨hnext, -⟩ := bytePos_frame (p := p + (done + 14)) (by omega)
    omega
  · change done + 14 + (d'.samplesToRead - 14) = n
    omega

/-- A turn of the loop decodes a frame or a sample. -/
theorem turn_spec (hsource : Source read wave p n) (h : At coefficients wave p n context done d) (hmore : 0 < d.samplesToRead) :
    ∃ d' done', AdpcmDecoder.turn read coefficients d = .ok d' ∧ At coefficients wave p n context done' d' ∧ done < done' := by
  have hposition := h.position
  have hread := h.readIndex
  have hleft := h.left
  rw [AdpcmDecoder.turn, show nibblesPerFrame = 16 from rfl]
  by_cases hframe : (p + done) % 14 = 0
  · rw [nibblePos, if_pos hframe] at hposition
    obtain ⟨-, hcode⟩ := bytePos_frame hframe
    have hlt := codeByte_lt (p := p) (n := n) (q := p + done) (by omega) (by omega)
    have hbyte : read d.readIndex = .ok (wave ((p + done) / 14 * 8)) := by
      rw [hsource.bytes d.readIndex (by omega), hread, (bytePos_frame hframe).1]
    have hnew : d.newFrame read coefficients = .ok (d.takeHeader coefficients (frameHeader wave (p + done))) := by
      have hheader := setHeader_ok coefficients d (hsource.headers (p + done) (by omega) (by omega))
      rw [AdpcmDecoder.newFrame, hbyte]
      change (do let d ← d.setHeader coefficients (frameHeader wave (p + done)); _) = _
      rw [hheader]
      rfl
    rw [if_pos hposition, hnew]
    have hread' : bytePos p + (d.readIndex + 1) = codeByte (p + done) := by omega
    have hposition' : (d.positionInFrame + 2) % 2 ^ 32 % 16 = 2 := by omega
    by_cases hwhole : 14 ≤ d.samplesToRead
    · obtain ⟨d', hstep, hat⟩ := decodeFrame_spec hsource hframe (h.written.takeHeader _) (hread'.trans hcode) hposition' hleft hwhole
      exact ⟨d', done + 14, (if_pos hwhole).trans hstep, hat, by omega⟩
    · obtain ⟨d', hstep, hat⟩ := decodeSingle_spec hsource (h.written.takeHeader _) (if_pos hframe)
        (by rw [hframe]; exact hposition') hread' hleft hmore
      exact ⟨d', done + 1, (if_neg hwhole).trans hstep, hat, Nat.lt_succ_self done⟩
  · rw [nibblePos, if_neg hframe] at hposition
    rw [if_neg (by omega)]
    have hhead : headerFor wave (p + done) (reference coefficients wave p done context).2 =
        (reference coefficients wave p done context).2.header := if_neg hframe
    obtain ⟨d', hstep, hat⟩ := decodeSingle_spec hsource h.written hhead hposition
      (hread.trans (bytePos_inside hframe)) hleft hmore
    exact ⟨d', done + 1, hstep, hat, Nat.lt_succ_self done⟩

/-- The loop decodes all samples. -/
theorem whileLoop_turn_spec (coefficients : Coefficients) (hsource : Source read wave p n) (h : At coefficients wave p n context 0 d) :
    ∃ d', whileLoop .outOfTurns (fun d : AdpcmDecoder => decide (0 < d.samplesToRead)) (AdpcmDecoder.turn read coefficients)
      n d = .ok d' ∧ At coefficients wave p n context n d' := by
  have hturn : ∀ d : AdpcmDecoder, (∃ done, At coefficients wave p n context done d) → decide (0 < d.samplesToRead) = true →
      ∃ d', AdpcmDecoder.turn read coefficients d = .ok d' ∧ (∃ done, At coefficients wave p n context done d') ∧
        d'.samplesToRead < d.samplesToRead := by
    rintro d ⟨done, hat⟩ hmore
    obtain ⟨d', done', hstep, hat', hlt⟩ := turn_spec hsource hat (of_decide_eq_true hmore)
    have hleft := hat.left
    have hleft' := hat'.left
    exact ⟨d', hstep, ⟨done', hat'⟩, by omega⟩
  have hleft := h.left
  obtain ⟨d', hloop, ⟨done, hat⟩, hend⟩ := whileLoop_spec AdpcmFault.outOfTurns (fun d : AdpcmDecoder => decide (0 < d.samplesToRead))
    (AdpcmDecoder.turn read coefficients) _ AdpcmDecoder.samplesToRead hturn n d ⟨0, h⟩ (by omega)
  have hdone := hat.left
  have hzero : ¬ 0 < d'.samplesToRead := of_decide_eq_false hend
  have hall : done = n := by omega
  exact ⟨d', hloop, hall ▸ hat⟩

end Renderer
end AudioCore
end Citron
