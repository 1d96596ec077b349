/-
# Cuts of ADPCM data

However the samples are cut into calls, each call continues the reference where the last one ended:
the nibble position wraps at 32 bits, and up to there it is the place of the sample.
-/
import Citron.AudioCore.DecodeAdpcm

namespace Citron
namespace AudioCore
namespace Renderer

variable {memory : GuestBytes} {req : DecodeArg}

/-- The encoded bytes of the wave buffer. -/
def waveAt (memory : GuestBytes) (buffer : BitVec 64) (k : ℕ) : BitVec 8 := memory (buffer + BitVec.ofNat 64 k)

/-- As many samples as the nibble positions of 32 bits tell apart. -/
def distinctSamples : ℕ := 14 * 2 ^ 28

/-- The sample at which the call starts. -/
def DecodeArg.startPos (req : DecodeArg) : ℕ := req.startOffset + req.offset

/-- The number of samples that the call decodes. -/
def DecodeArg.count (req : DecodeArg) : ℕ := min (req.endOffset - req.startPos) req.samplesToRead

/-- The bytes of the samples up to the end offset. -/
def encodedSize (stop : ℕ) : ℕ := stop / 14 * 8 + if stop % 14 = 0 then 0 else (stop % 14 + 3) / 2

/-- The wave buffer holds all bytes up to the end offset, and the start position is not past it. -/
structure DecodeArg.Sufficient (req : DecodeArg) : Prop where
  buffer : req.buffer ≠ 0
  bufferSize : encodedSize req.endOffset ≤ req.bufferSize
  endOffset : req.endOffset < 2 ^ 32
  startPos : req.startPos ≤ req.endOffset

/-- Every frame header before the end offset names one of the eight pairs of coefficients. -/
def EncodedUpTo (wave : ℕ → BitVec 8) (stop : ℕ) : Prop := ∀ q < stop, coeffIndex (frameHeader wave q) < 8

variable {p n stop count s q : ℕ}

theorem guestMemory_source (henc : EncodedUpTo (waveAt memory req.buffer) req.endOffset)
    (hn : p + n ≤ req.endOffset) :
    Source (guestMemory memory (req.buffer + BitVec.ofNat 64 (bytePos p)) (max (n / 8 * 14) 8)) (waveAt memory req.buffer) p n := by
  refine ⟨fun i hi => ?_, fun q _ hq => henc q (by omega)⟩
  rw [guestMemory, if_pos hi, waveAt, BitVec.ofNat_add, BitVec.add_assoc]

theorem endNibble_le (stop : ℕ) : endNibble stop / 2 ≤ encodedSize stop := by
  simp only [endNibble, encodedSize, samplesPerFrame, nibblesPerFrame]
  by_cases hframe : stop % 14 = 0
  · rw [if_neg (not_not_intro hframe), if_pos hframe]
    omega
  · rw [if_pos hframe, if_neg hframe]
    omega

/-- The position tells the byte and the nibble of the sample it wraps to. -/
theorem startNibble_eq (p : ℕ) :
    startNibble p / 2 = bytePos (p % distinctSamples) ∧ startNibble p % 16 = nibblePos (p % distinctSamples) := by
  have hmod : p % distinctSamples % 14 = p % 14 := by
    rw [distinctSamples]
    omega
  have hdiv : p % distinctSamples / 14 = p / 14 % 2 ^ 28 := by
    rw [distinctSamples]
    omega
  rw [bytePos, nibblePos, hmod, hdiv]
  simp only [startNibble, samplesPerFrame, nibblesPerFrame]
  by_cases hframe : p % 14 = 0
  · rw [if_neg (not_not_intro hframe), if_pos hframe, if_pos hframe]
    omega
  · rw [if_pos hframe, if_neg hframe, if_neg hframe]
    omega

theorem fetchSize_eq (hn : n < 2 ^ 31) : fetchSize n = max (n / 8 * 14) 8 := by
  rw [fetchSize, samplesPerFrame, Nat.mod_eq_of_lt (by omega)]

/-- The decoder before the loop. -/
def DecodeArg.start (req : DecodeArg) : AdpcmDecoder where
  header := req.adpcmContext.header
  coeff0 := coefficientAt req.coefficients (coeffIndex req.adpcmContext.header * 2 + 0)
  coeff1 := coefficientAt req.coefficients (coeffIndex req.adpcmContext.header * 2 + 1)
  scale := scaleOf req.adpcmContext.header
  yn0 := req.adpcmContext.yn0
  yn1 := req.adpcmContext.yn1
  positionInFrame := startNibble req.startPos
  samplesToRead := req.count
  readIndex := 0
  out := []

section

variable (h : req.Sufficient) (hread : req.samplesToRead < 2 ^ 31)
  (henc : EncodedUpTo (waveAt memory req.buffer) req.endOffset) (hheader : coeffIndex req.adpcmContext.header < 8)
include h hread henc hheader

/-- The loop decodes from the sample that the position wraps to. -/
theorem decodeSamples_spec :
    ∃ d, decodeSamples memory req req.startPos req.count = .ok d ∧
      d.out = (reference req.coefficients (waveAt memory req.buffer) (req.startPos % distinctSamples) req.count
        req.adpcmContext).1 ∧
      (⟨d.header, d.yn0, d.yn1⟩ : AdpcmContext) = (reference req.coefficients (waveAt memory req.buffer)
        (req.startPos % distinctSamples) req.count req.adpcmContext).2 := by
  have hstart := h.startPos
  have hcount : req.count < 2 ^ 31 := (Nat.min_le_right _ _).trans_lt hread
  have hlast : req.startPos % distinctSamples + req.count ≤ req.endOffset := by
    have hmod := Nat.mod_le req.startPos distinctSamples
    have hmin : req.count ≤ req.endOffset - req.startPos := Nat.min_le_left _ _
    omega
  obtain ⟨hbyte, hnibble⟩ := startNibble_eq req.startPos
  rw [decodeSamples, hbyte, fetchSize_eq hcount, setHeader_ok req.coefficients _ hheader]
  have hstarted : At req.coefficients (waveAt memory req.buffer) (req.startPos % distinctSamples) req.count req.adpcmContext 0
      req.start := ⟨⟨rfl, rfl, rfl, rfl, rfl, rfl, rfl⟩, hnibble, rfl, Nat.zero_add _⟩
  obtain ⟨d, hloop, hat⟩ := whileLoop_turn_spec req.coefficients (guestMemory_source henc hlast) hstarted
  refine ⟨d, hloop, hat.written.out, ?_⟩
  rw [hat.written.header, hat.written.yn0, hat.written.yn1]

/-- A call decodes from the sample that its position wraps to. -/
theorem decodeAdpcm_spec :
    decodeAdpcm memory req =
      .ok ((reference req.coefficients (waveAt memory req.buffer) (req.startPos % distinctSamples) req.count req.adpcmContext).1,
        (reference req.coefficients (waveAt memory req.buffer) (req.startPos % distinctSamples) req.count req.adpcmContext).2,
        req.count) := by
  have hsize := h.bufferSize
  have hend := h.endOffset
  have hstart := h.startPos
  have hempty : req.count = 0 → ([], req.adpcmContext, 0) =
      ((reference req.coefficients (waveAt memory req.buffer) (req.startPos % distinctSamples) req.count req.adpcmContext).1,
        (reference req.coefficients (waveAt memory req.buffer) (req.startPos % distinctSamples) req.count req.adpcmContext).2,
        req.count) := fun hcount => by rw [hcount, reference]
  by_cases hnone : req.bufferSize = 0
  · have hcount : req.count = 0 := by
      rw [hnone, encodedSize] at hsize
      rw [DecodeArg.count]
      split at hsize <;> omega
    rw [decodeAdpcm, if_pos (.inr hnone), hempty hcount]
  have hbuffer : ¬ (req.buffer = 0 ∨ req.bufferSize = 0) := fun hcon => hcon.elim h.buffer hnone
  have hbefore : ¬ req.endOffset < req.startOffset := by
    rw [DecodeArg.startPos] at hstart
    omega
  have hfits : ¬ req.bufferSize < endNibble req.endOffset / 2 := by
    have hle := endNibble_le req.endOffset
    omega
  have hpos : (req.startOffset + req.offset) % 2 ^ 32 = req.startPos := Nat.mod_eq_of_lt (hstart.trans_lt hend)
  have hrest : (req.endOffset + 2 ^ 32 - req.startPos) % 2 ^ 32 = req.endOffset - req.startPos := by omega
  rw [decodeAdpcm, if_neg hbuffer, if_neg hbefore, if_neg hfits, hpos]
  dsimp only
  rw [hrest]
  change (if req.count = 0 then _ else _) = _
  by_cases hcount : req.count = 0
  · rw [if_pos hcount, hempty hcount]
  · obtain ⟨d, hd, hout, hcontext⟩ := decodeSamples_spec h hread henc hheader
    rw [if_neg hcount, ← hout, ← hcontext]
    change (do let d ← decodeSamples memory req req.startPos req.count; _) = _
    rw [hd]
    rfl

end

/-! ### Calls after calls -/

variable {context : AdpcmContext} {wave : ℕ → BitVec 8}

theorem reference_header_lt {coefficients : Coefficients} (henc : EncodedUpTo wave stop) (hheader : coeffIndex context.header < 8) (hn : p + n ≤ stop) :
    coeffIndex (reference coefficients wave p n context).2.header < 8 := by
  induction n with
  | zero => exact hheader
  | succ n ih =>
    rw [reference_header, headerFor]
    split
    · exact henc (p + n) (by omega)
    · exact ih (by omega)

/-- The number of samples that calls for the given numbers decode. -/
def totalCount (stop p : ℕ) (ns : List ℕ) : ℕ := min (stop - p) ns.sum

/-- Each call that has samples to decode starts where the nibble positions do not wrap. -/
def StartsDistinct (stop : ℕ) : ℕ → List ℕ → Prop
  | _, [] => True
  | p, n :: ns => (0 < min (stop - p) n → p < distinctSamples) ∧ StartsDistinct stop (p + min (stop - p) n) ns

/-- The arguments of the next call. -/
def DecodeArg.advance (req : DecodeArg) (context : AdpcmContext) (count : ℕ) : DecodeArg :=
  { req with adpcmContext := context, offset := (req.offset + count) % 2 ^ 32 }

theorem DecodeArg.startPos_advance (h : req.Sufficient) (context : AdpcmContext)
    (hcount : count ≤ req.endOffset - req.startPos) : (req.advance context count).startPos = req.startPos + count := by
  have hend := h.endOffset
  have hstart := h.startPos
  rw [DecodeArg.startPos] at *
  change req.startOffset + (req.offset + count) % 2 ^ 32 = req.startOffset + req.offset + count
  rw [Nat.mod_eq_of_lt (by omega), Nat.add_assoc]

theorem DecodeArg.Sufficient.advance (h : req.Sufficient) (context : AdpcmContext)
    (hcount : count ≤ req.endOffset - req.startPos) : (req.advance context count).Sufficient := by
  have hstart := h.startPos
  refine ⟨h.buffer, h.bufferSize, h.endOffset, ?_⟩
  rw [DecodeArg.startPos_advance h context hcount]
  change req.startPos + count ≤ req.endOffset
  omega

theorem totalCount_cons (stop p n : ℕ) (ns : List ℕ) :
    totalCount stop p (n :: ns) = min (stop - p) n + totalCount stop (p + min (stop - p) n) ns := by
  rw [totalCount, totalCount, List.sum_cons]
  omega

/-- What is asked of calls: their samples and the context they leave are those of the reference, and
none writes more samples than it is asked for. -/
structure Continues (req : DecodeArg) (wave : ℕ → BitVec 8) (ns : List ℕ) (outs : List (List (BitVec 16)))
    (context : AdpcmContext) : Prop where
  samples : outs.flatten =
    (reference req.coefficients wave req.startPos (totalCount req.endOffset req.startPos ns) req.adpcmContext).1
  context : context =
    (reference req.coefficients wave req.startPos (totalCount req.endOffset req.startPos ns) req.adpcmContext).2
  within : List.Forall₂ (fun n out => out.length ≤ n) ns outs

variable {r : List (BitVec 16) × AdpcmContext}

/-- The reference for a call and the calls after it. -/
theorem reference_advance (ns : List ℕ) (h : req.Sufficient) (hcount : count = min (req.endOffset - req.startPos) n)
    (hr : r = reference req.coefficients wave req.startPos count req.adpcmContext) :
    ∃ rest, rest = reference (req.advance r.2 count).coefficients wave (req.advance r.2 count).startPos
        (totalCount (req.advance r.2 count).endOffset (req.advance r.2 count).startPos ns) (req.advance r.2 count).adpcmContext ∧
      reference req.coefficients wave req.startPos (totalCount req.endOffset req.startPos (n :: ns)) req.adpcmContext =
        (r.1 ++ rest.1, rest.2) := by
  have hpos := DecodeArg.startPos_advance h r.2 (hcount.trans_le (Nat.min_le_left _ _))
  have htotal : totalCount req.endOffset req.startPos (n :: ns) =
      count + totalCount (req.advance r.2 count).endOffset (req.advance r.2 count).startPos ns := by
    rw [hpos, hcount]
    exact totalCount_cons req.endOffset req.startPos n ns
  refine ⟨_, rfl, ?_⟩
  rw [htotal, reference_add, ← hr, hpos]
  rfl

variable {outs : List (List (BitVec 16))} {ns : List ℕ}

section

variable (h : req.Sufficient) (hcount : count = min (req.endOffset - req.startPos) n)
  (hr : r = reference req.coefficients wave req.startPos count req.adpcmContext)
include h hcount hr

/-- The samples of a first call and of calls that continue it. -/
theorem Continues.extend (hcont : Continues (req.advance r.2 count) wave ns outs context) :
    Continues req wave (n :: ns) (r.1 :: outs) context := by
  obtain ⟨rest, hrest, hall⟩ := reference_advance ns h hcount hr
  refine ⟨?_, ?_, .cons ?_ hcont.within⟩
  · rw [hall, List.flatten_cons, hcont.samples, hrest]
  · rw [hall, hcont.context, hrest]
  · rw [hr, reference_length, hcount]
    exact Nat.min_le_right _ _

/-- What calls have decoded, the first one apart. -/
theorem Continues.rest {out : List (BitVec 16)} (hlength : out.length = count)
    (hcont : Continues req wave (n :: ns) (out :: outs) context) :
    out = r.1 ∧ Continues (req.advance r.2 count) wave ns outs context := by
  obtain ⟨rest, hrest, hall⟩ := reference_advance ns h hcount hr
  have hsamples := hcont.samples
  have hcontext := hcont.context
  have hlength' : out.length = r.1.length := by rw [hlength, hr, reference_length]
  rw [hall, List.flatten_cons] at hsamples
  rw [hall] at hcontext
  obtain ⟨hout, houts⟩ := List.append_inj hsamples hlength'
  refine ⟨hout, ?_, ?_, ?_⟩
  · rw [houts, hrest]
  · rw [hcontext, hrest]
  · cases hcont.within with
    | cons _ hwithin => exact hwithin

end

section

variable (h : req.Sufficient) (henc : EncodedUpTo (waveAt memory req.buffer) req.endOffset)
  (hheader : coeffIndex req.adpcmContext.header < 8)
include h henc hheader

/-- The first of several calls, and the calls after it. -/
theorem decodeCalls_cons (hn : n < 2 ^ 31) (ns : List ℕ) (hcount : count = min (req.endOffset - req.startPos) n)
    (hr : r = reference req.coefficients (waveAt memory req.buffer) (req.startPos % distinctSamples) count req.adpcmContext) :
    decodeCalls memory req (n :: ns) = (do
      let (outs, context) ← decodeCalls memory (req.advance r.2 count) ns
      return (r.1 :: outs, context)) := by
  have hreq : DecodeArg.Sufficient { req with samplesToRead := n } := ⟨h.buffer, h.bufferSize, h.endOffset, h.startPos⟩
  have hcall : decodeAdpcm memory { req with samplesToRead := n } = .ok (r.1, r.2, count) := by
    rw [hr, hcount]
    exact decodeAdpcm_spec hreq hn henc hheader
  rw [decodeCalls, hcall]
  rfl

/-- Calls that start where the positions do not wrap continue one another. -/
theorem decodeCalls_continues (hns : ∀ n ∈ ns, n < 2 ^ 31)
    (hdistinct : StartsDistinct req.endOffset req.startPos ns) :
    ∃ outs context, decodeCalls memory req ns = .ok (outs, context) ∧
      Continues req (waveAt memory req.buffer) ns outs context := by
  induction ns generalizing req with
  | nil =>
    refine ⟨[], _, rfl, ?_, ?_, .nil⟩
    · rw [totalCount, List.sum_nil, Nat.min_zero, reference]
      rfl
    · rw [totalCount, List.sum_nil, Nat.min_zero, reference]
  | cons n ns ih =>
    obtain ⟨hstart, hrest⟩ := hdistinct
    obtain ⟨count, hcount⟩ : ∃ count, count = min (req.endOffset - req.startPos) n := ⟨_, rfl⟩
    rw [← hcount] at hstart hrest
    have hle : count ≤ req.endOffset - req.startPos := hcount.trans_le (Nat.min_le_left _ _)
    have hstop := h.startPos
    obtain ⟨r, hr⟩ : ∃ r, r = reference req.coefficients (waveAt memory req.buffer) req.startPos count req.adpcmContext :=
      ⟨_, rfl⟩
    have hfrom : r = reference req.coefficients (waveAt memory req.buffer) (req.startPos % distinctSamples) count
        req.adpcmContext := by
      by_cases hzero : 0 < count
      · rw [hr, Nat.mod_eq_of_lt (hstart hzero)]
      · rw [hr, Nat.eq_zero_of_not_pos hzero, reference, reference]
    have hpos := DecodeArg.startPos_advance h r.2 hle
    have hheader' : coeffIndex r.2.header < 8 := hr ▸ reference_header_lt henc hheader (by omega)
    obtain ⟨outs, context, hcalls, hcont⟩ := ih (h.advance r.2 hle) henc hheader'
      (fun m hm => hns m (List.mem_cons_of_mem n hm)) (hpos ▸ hrest)
    have hall := hcont.extend h hcount hr
    rw [decodeCalls_cons h henc hheader (hns n List.mem_cons_self) ns hcount hfrom, hcalls]
    exact ⟨_, _, rfl, hall⟩

end

/-! ### Where the position wraps -/

/-- The first call with samples to decode that starts past the wrap starts at `s`. -/
def FirstWrapped (stop : ℕ) : ℕ → List ℕ → ℕ → Prop
  | _, [], _ => False
  | p, n :: ns, s => (0 < min (stop - p) n ∧ distinctSamples ≤ p ∧ s = p) ∨
      ((0 < min (stop - p) n → p < distinctSamples) ∧ FirstWrapped stop (p + min (stop - p) n) ns s)

theorem firstWrapped_of_not (h : ¬ StartsDistinct stop p ns) : ∃ s, FirstWrapped stop p ns s := by
  induction ns generalizing p with
  | nil => exact absurd trivial h
  | cons n ns ih =>
    by_cases hfirst : 0 < min (stop - p) n → p < distinctSamples
    · obtain ⟨s, hs⟩ := ih fun hrest => h ⟨hfirst, hrest⟩
      exact ⟨s, .inr ⟨hfirst, hs⟩⟩
    · obtain ⟨hcount, hwrapped⟩ := Classical.not_imp.mp hfirst
      exact ⟨p, .inl ⟨hcount, Nat.le_of_not_lt hwrapped, rfl⟩⟩

theorem FirstWrapped.bounds (h : FirstWrapped stop p ns s) : distinctSamples ≤ s ∧ s < stop := by
  induction ns generalizing p with
  | nil => exact h.elim
  | cons n ns ih =>
    rcases h with ⟨hcount, hwrapped, rfl⟩ | ⟨-, hrest⟩
    · exact ⟨hwrapped, by omega⟩
    · exact ih hrest

/-- Bytes that are zero but for the one with the code of sample `s`. -/
def markedAt (buffer : BitVec 64) (s : ℕ) : GuestBytes := fun address =>
  if address = buffer + BitVec.ofNat 64 (codeByte s) then 0x11 else 0

theorem waveAt_markedAt (buffer : BitVec 64) {k : ℕ} (hs : s < 2 ^ 32) (hk : k < 2 ^ 33) :
    waveAt (markedAt buffer s) buffer k = if k = codeByte s then 0x11 else 0 := by
  have hbyte : codeByte s < 2 ^ 33 := by
    rw [codeByte]
    omega
  rw [waveAt, markedAt]
  congr 1
  rw [eq_iff_iff, BitVec.add_right_inj]
  constructor
  · intro heq
    have hnat := congrArg BitVec.toNat heq
    rw [BitVec.toNat_ofNat, BitVec.toNat_ofNat] at hnat
    omega
  · intro heq
    rw [heq]

theorem frameHeader_markedAt (buffer : BitVec 64) (hs : s < 2 ^ 32) (hq : q < 2 ^ 32) :
    frameHeader (waveAt (markedAt buffer s) buffer) q = 0 := by
  rw [frameHeader, waveAt_markedAt buffer hs (by omega), if_neg (by rw [codeByte]; omega)]
  rfl

theorem sampleCode_markedAt (buffer : BitVec 64) (hs : s < 2 ^ 32) (hq : q < 2 ^ 32) :
    sampleCode (waveAt (markedAt buffer s) buffer) q = if codeByte q = codeByte s then 1 else 0 := by
  have hbyte : codeByte q < 2 ^ 33 := by
    rw [codeByte]
    omega
  rw [sampleCode, waveAt_markedAt buffer hs hbyte]
  split <;> split <;> decide

/-- Without a prediction the sample is the scaled code. -/
theorem decodeSample_zero (scale : ℕ) (yn0 yn1 : BitVec 16) (code : BitVec 32) :
    decodeSample 0 0 scale yn0 yn1 code = decodeSample 0 0 scale 0 0 code := by
  have hzero : BitVec.signExtend 32 (0 : BitVec 16) = 0#32 := by decide
  simp only [decodeSample, hzero, BitVec.zero_mul]

theorem decodeSample_one_ne (header : BitVec 16) (yn0 yn1 yn0' yn1' : BitVec 16) (scale : ℕ) :
    decodeSample 0 0 (scaleOf header) yn0 yn1 1 ≠ decodeSample 0 0 scale yn0' yn1' 0 := by
  have hscale : scaleOf header < 16 := by
    rw [scaleOf, BitVec.toNat_and]
    exact (Nat.and_le_right).trans_lt (by decide)
  have hone : ∀ s < 16, decodeSample 0 0 s 0 0 1 ≠ 0 := by decide
  have hzero : decodeSample 0 0 scale 0 0 0 = 0 := by
    simp only [decodeSample, BitVec.ofNat_eq_ofNat, BitVec.zero_mul]
    decide
  rw [decodeSample_zero, decodeSample_zero scale, hzero]
  exact hone _ hscale

/-- All coefficients zero. -/
def noCoefficients : Coefficients := Vector.replicate 16 0

theorem coefficientAt_noCoefficients (i : ℕ) : coefficientAt noCoefficients i = 0 := by
  rw [coefficientAt]
  split
  · exact Vector.getElem_replicate _
  · rfl

/-- The wrapped call decodes another sample than it should. -/
theorem referenceSample_wrapped (buffer : BitVec 64) (hs : s < 2 ^ 32) (hwrapped : distinctSamples ≤ s)
    (context context' : AdpcmContext) :
    (referenceSample noCoefficients (waveAt (markedAt buffer s) buffer) (s % distinctSamples) context).yn0 ≠
      (referenceSample noCoefficients (waveAt (markedAt buffer s) buffer) s context').yn0 := by
  have hmod : s % distinctSamples < 2 ^ 32 := (Nat.mod_le s distinctSamples).trans_lt hs
  have hother : codeByte (s % distinctSamples) ≠ codeByte s := by
    rw [codeByte, codeByte]
    rw [distinctSamples] at *
    omega
  have hcode : sampleCode (waveAt (markedAt buffer s) buffer) (s % distinctSamples) = 0 := by
    rw [sampleCode_markedAt buffer hs hmod, if_neg hother]
  have hcode' : sampleCode (waveAt (markedAt buffer s) buffer) s = 1 := by
    rw [sampleCode_markedAt buffer hs hs]
    exact if_pos rfl
  simp only [referenceSample, coefficientAt_noCoefficients, hcode, hcode']
  exact (decodeSample_one_ne _ _ _ _ _ _).symm

/-- The calls do not agree with the reference on the marked bytes. -/
theorem decodeCalls_markedAt {s : ℕ} (h : req.Sufficient) (hcoefficients : req.coefficients = noCoefficients)
    (hheader : coeffIndex req.adpcmContext.header < 8) {ns : List ℕ} (hns : ∀ n ∈ ns, n < 2 ^ 31)
    (hfirst : FirstWrapped req.endOffset req.startPos ns s) {outs : List (List (BitVec 16))} {context : AdpcmContext}
    (hcalls : decodeCalls (markedAt req.buffer s) req ns = .ok (outs, context)) :
    ¬ Continues req (waveAt (markedAt req.buffer s) req.buffer) ns outs context := by
  obtain ⟨hlow, hhigh⟩ := hfirst.bounds
  have hs : s < 2 ^ 32 := hhigh.trans h.endOffset
  induction ns generalizing req outs context with
  | nil => exact hfirst.elim
  | cons n ns ih =>
    intro hcont
    have hend := h.endOffset
    have hstop := h.startPos
    have henc : EncodedUpTo (waveAt (markedAt req.buffer s) req.buffer) req.endOffset := fun q hq => by
      rw [frameHeader_markedAt req.buffer hs (by omega)]
      decide
    obtain ⟨count, hcount⟩ : ∃ count, count = min (req.endOffset - req.startPos) n := ⟨_, rfl⟩
    have hle : count ≤ req.endOffset - req.startPos := hcount.trans_le (Nat.min_le_left _ _)
    obtain ⟨r, hr⟩ : ∃ r, r = reference req.coefficients (waveAt (markedAt req.buffer s) req.buffer)
      (req.startPos % distinctSamples) count req.adpcmContext := ⟨_, rfl⟩
    rw [decodeCalls_cons h henc hheader (hns n List.mem_cons_self) ns hcount hr] at hcalls
    cases hrest : decodeCalls (markedAt req.buffer s) (req.advance r.2 count) ns with
    | error fault =>
      rw [hrest] at hcalls
      cases hcalls
    | ok rest =>
      rw [hrest] at hcalls
      cases hcalls
      have hlength : r.1.length = count := by rw [hr, reference_length]
      obtain ⟨hsame, hcont'⟩ := hcont.rest h hcount rfl hlength
      rcases hfirst with ⟨hpositive, hwrapped, rfl⟩ | ⟨hstart, hfirst⟩
      · obtain ⟨m, hm⟩ : ∃ m, count = m + 1 := ⟨count - 1, by omega⟩
        rw [hr, hm, reference, reference, List.cons.injEq, hcoefficients] at hsame
        exact referenceSample_wrapped req.buffer hs hwrapped _ _ hsame.1
      · rw [← hcount] at hstart hfirst
        have hfrom : r = reference req.coefficients (waveAt (markedAt req.buffer s) req.buffer) req.startPos count
            req.adpcmContext := by
          by_cases hzero : 0 < count
          · rw [hr, Nat.mod_eq_of_lt (hstart hzero)]
          · rw [hr, Nat.eq_zero_of_not_pos hzero, reference, reference]
        rw [← hfrom] at hcont'
        have hheader' : coeffIndex r.2.header < 8 := hfrom ▸ reference_header_lt henc hheader (by omega)
        have hpos := DecodeArg.startPos_advance h r.2 hle
        exact ih (h.advance r.2 hle) hcoefficients hheader' (fun m hm => hns m (List.mem_cons_of_mem n hm)) (hpos ▸ hfirst)
          hrest hhigh hcont'

/-! ### The result -/

/-- The arguments with the data that is decoded. -/
def DecodeArg.withData (req : DecodeArg) (coefficients : Coefficients) (context : AdpcmContext) : DecodeArg :=
  { req with coefficients := coefficients, adpcmContext := context }

theorem DecodeArg.Sufficient.withData (h : req.Sufficient) (coefficients : Coefficients) (context : AdpcmContext) :
    (req.withData coefficients context).Sufficient := ⟨h.buffer, h.bufferSize, h.endOffset, h.startPos⟩

/-- On all encoded bytes, coefficients and contexts the calls for the given numbers of samples end, none
of them past the bytes it fetched or the samples it was asked for, with the samples and the context of
the reference, and so does one call for all samples. -/
def CutsAgree (req : DecodeArg) (ns : List ℕ) : Prop :=
  ∀ (memory : GuestBytes) (coefficients : Coefficients) (context : AdpcmContext),
    EncodedUpTo (waveAt memory req.buffer) req.endOffset → coeffIndex context.header < 8 →
    ∃ outs context', decodeCalls memory (req.withData coefficients context) ns = .ok (outs, context') ∧
      Continues (req.withData coefficients context) (waveAt memory req.buffer) ns outs context' ∧
      decodeAdpcm memory { req.withData coefficients context with samplesToRead := ns.sum } =
        .ok (outs.flatten, context', totalCount req.endOffset req.startPos ns)

theorem StartsDistinct.first (h : StartsDistinct stop p ns) (hcount : 0 < totalCount stop p ns) :
    p < distinctSamples := by
  induction ns generalizing p with
  | nil =>
    rw [totalCount, List.sum_nil, Nat.min_zero] at hcount
    omega
  | cons n ns ih =>
    by_cases hzero : 0 < min (stop - p) n
    · exact h.1 hzero
    · have hrest := h.2
      rw [totalCount_cons] at hcount
      rw [Nat.eq_zero_of_not_pos hzero, Nat.zero_add, Nat.add_zero] at hcount
      rw [Nat.eq_zero_of_not_pos hzero, Nat.add_zero] at hrest
      exact ih hrest hcount

/-- **Cuts.** However the samples are cut into calls, the calls agree with one call and with the reference
exactly when each call that has samples to decode starts among those that 32 bits of nibbles tell apart. -/
theorem cutsAgree_iff {req : DecodeArg} (h : req.Sufficient) {ns : List ℕ} (hns : ns.sum < 2 ^ 31) :
    CutsAgree req ns ↔ StartsDistinct req.endOffset req.startPos ns := by
  have hsum : ∀ n ∈ ns, n < 2 ^ 31 := fun n hn => (List.single_le_sum (fun _ _ => Nat.zero_le _) n hn).trans_lt hns
  constructor
  · intro hagree
    by_contra hdistinct
    obtain ⟨s, hs⟩ := firstWrapped_of_not hdistinct
    have hend := h.endOffset
    have henc : EncodedUpTo (waveAt (markedAt req.buffer s) req.buffer) req.endOffset := fun q hq => by
      rw [frameHeader_markedAt req.buffer (hs.bounds.2.trans hend) (by omega)]
      decide
    obtain ⟨outs, context, hcalls, hcont, -⟩ := hagree (markedAt req.buffer s) noCoefficients ⟨0, 0, 0⟩ henc (by decide)
    have hheader : coeffIndex 0 < 8 := by decide
    exact @decodeCalls_markedAt (req.withData noCoefficients ⟨0, 0, 0⟩) s (h.withData _ _) rfl hheader ns hsum hs outs context
      hcalls hcont
  · intro hdistinct memory coefficients context henc hheader
    obtain ⟨outs, context', hcalls, hcont⟩ := decodeCalls_continues (h.withData coefficients context) henc hheader hsum hdistinct
    refine ⟨outs, context', hcalls, hcont, ?_⟩
    have hone : DecodeArg.Sufficient { req.withData coefficients context with samplesToRead := ns.sum } :=
      ⟨h.buffer, h.bufferSize, h.endOffset, h.startPos⟩
    have hfrom : reference coefficients (waveAt memory req.buffer) (req.startPos % distinctSamples)
        (totalCount req.endOffset req.startPos ns) context =
        reference coefficients (waveAt memory req.buffer) req.startPos (totalCount req.endOffset req.startPos ns) context := by
      by_cases hzero : 0 < totalCount req.endOffset req.startPos ns
      · rw [Nat.mod_eq_of_lt (hdistinct.first hzero)]
      · rw [Nat.eq_zero_of_not_pos hzero, reference, reference]
    have hcall := decodeAdpcm_spec hone hns henc hheader
    change decodeAdpcm memory { req.withData coefficients context with samplesToRead := ns.sum } = .ok
      ((reference coefficients (waveAt memory req.buffer) (req.startPos % distinctSamples)
          (totalCount req.endOffset req.startPos ns) context).1,
        (reference coefficients (waveAt memory req.buffer) (req.startPos % distinctSamples)
          (totalCount req.endOffset req.startPos ns) context).2, totalCount req.endOffset req.startPos ns) at hcall
    rw [hcall, hfrom, hcont.samples, hcont.context]
    rfl

/-- Thirty samples of a wave buffer of three frames, from the sixth sample on. -/
def threeFrames : DecodeArg where
  buffer := 0x1000
  bufferSize := 24
  startOffset := 5
  endOffset := 40
  coefficients := noCoefficients
  adpcmContext := ⟨0, 0, 0⟩
  offset := 1
  samplesToRead := 0

theorem cutsAgree_iff_threeFrames :
    CutsAgree threeFrames [1, 20, 9] ↔ StartsDistinct 40 6 [1, 20, 9] :=
  cutsAgree_iff ⟨by decide, by decide, by decide, by decide⟩ (by decide)

/-- A single sample at the first position that wraps. -/
def pastWrap : DecodeArg where
  buffer := 0x1000
  bufferSize := 2 ^ 31 + 8
  startOffset := 0
  endOffset := distinctSamples + 14
  coefficients := noCoefficients
  adpcmContext := ⟨0, 0, 0⟩
  offset := distinctSamples
  samplesToRead := 1

theorem pastWrap_sufficient : pastWrap.Sufficient := ⟨by decide, by decide, by decide, by decide⟩

/-- The reference on the marked bytes, at the first sample of a frame. -/
theorem reference_markedAt (hq : q < 2 ^ 32) (hframe : q % 14 = 0) :
    reference noCoefficients (waveAt (markedAt 0x1000 distinctSamples) 0x1000) q 1 ⟨0, 0, 0⟩ =
      if codeByte q = codeByte distinctSamples then ([1], ⟨0, 1, 0⟩) else ([0], ⟨0, 0, 0⟩) := by
  have hheader : headerFor (waveAt (markedAt 0x1000 distinctSamples) 0x1000) q ⟨0, 0, 0⟩ = 0 := by
    rw [headerFor, if_pos hframe, frameHeader_markedAt 0x1000 (by decide) hq]
  rw [reference, reference, referenceSample, hheader, sampleCode_markedAt 0x1000 (by decide) hq,
    coefficientAt_noCoefficients, coefficientAt_noCoefficients]
  split
  · rfl
  · rfl

/-- The call reads the first frame of the wave buffer, whose samples are zero, and not the frame of its
sample, which is one. -/
theorem decodeAdpcm_pastWrap :
    pastWrap.Sufficient ∧ decodeAdpcm (markedAt 0x1000 distinctSamples) pastWrap = .ok ([0], ⟨0, 0, 0⟩, 1) ∧
      (reference noCoefficients (waveAt (markedAt 0x1000 distinctSamples) 0x1000) distinctSamples 1 ⟨0, 0, 0⟩).1 = [1] := by
  refine ⟨pastWrap_sufficient, ?_, ?_⟩
  · have henc : EncodedUpTo (waveAt (markedAt 0x1000 distinctSamples) 0x1000) pastWrap.endOffset := fun q hq => by
      rw [frameHeader_markedAt 0x1000 (by decide) (hq.trans pastWrap_sufficient.endOffset)]
      decide
    have hcall := decodeAdpcm_spec pastWrap_sufficient (by decide) henc (by decide)
    have hzero := reference_markedAt (q := 0) (by decide) rfl
    rw [if_neg (by decide)] at hzero
    rw [hcall]
    change Except.ok ((reference noCoefficients (waveAt (markedAt 0x1000 distinctSamples) 0x1000) 0 1 ⟨0, 0, 0⟩).1,
      (reference noCoefficients (waveAt (markedAt 0x1000 distinctSamples) 0x1000) 0 1 ⟨0, 0, 0⟩).2, 1) = _
    rw [hzero]
  · rw [reference_markedAt (by decide) (by decide), if_pos rfl]

end Renderer
end AudioCore
end Citron
