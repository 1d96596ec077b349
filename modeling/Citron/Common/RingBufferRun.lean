/-
# Runs of a ring buffer

The two indices are the numbers of the elements pushed and popped so far. The elements in between are in
their slots, those that are being pushed have slots beyond them, and those that are being popped are the
first of them.
-/
import Citron.Common.RingBuffer

namespace Citron
namespace Common
namespace RingBuffer

open Lib List

variable {T : Type} (k : RingCapacity)

/-! ### Slots -/

theorem slots_pos : 0 < k.slots := Nat.two_pow_pos k.log

theorem slots_lt : k.slots < 2 ^ 63 := by
  have h := k.sensible
  rw [RingCapacity.slots]
  omega

/-- The capacity divides the range of the indices. -/
theorem sizeT_mod_slots (n : ℕ) : sizeT n % k.slots = n % k.slots := by
  have hlog : k.log ≤ 64 := by
    by_contra h
    have hpow : 2 ^ 64 ≤ 2 ^ k.log := Nat.pow_le_pow_right (by decide) (by omega)
    have hlt := slots_lt k
    rw [RingCapacity.slots] at hlt
    omega
  exact Nat.mod_mod_of_dvd n (Nat.pow_dvd_pow 2 hlog)

variable {i j n count pos pushCount writeIndex readIndex popCount : ℕ}

/-- Numbers less than a capacity apart have different slots. -/
theorem slot_ne (hij : i < j) (hji : j < i + k.slots) : i % k.slots ≠ j % k.slots := by
  intro h
  have hdvd : k.slots ∣ j - i := Nat.dvd_of_mod_eq_zero (Nat.sub_mod_eq_zero_of_mod_eq h.symm)
  have hle := Nat.le_of_dvd (by omega) hdvd
  omega

/-- The slots up to the end of the storage. -/
theorem slot_first (hj : j < firstCopy k n count) : (n + j) % k.slots = n % k.slots + j := by
  rw [firstCopy] at hj
  have hlt : n % k.slots + j < k.slots := by omega
  have hsplit : n + j = k.slots * (n / k.slots) + (n % k.slots + j) := by
    have h := Nat.div_add_mod n k.slots
    omega
  rw [hsplit, Nat.mul_add_mod, Nat.mod_eq_of_lt hlt]

/-- The slots at the start of the storage. -/
theorem slot_second (hj : firstCopy k n count + j < count) (hcount : count ≤ k.slots) :
    (n + (firstCopy k n count + j)) % k.slots = j := by
  rw [firstCopy] at hj ⊢
  have hmod := Nat.mod_lt n (slots_pos k)
  have hfirst : min (k.slots - n % k.slots) count = k.slots - n % k.slots := by omega
  rw [hfirst] at hj ⊢
  have hsplit : n + (k.slots - n % k.slots + j) = k.slots * (n / k.slots + 1) + j := by
    have h := Nat.div_add_mod n k.slots
    rw [Nat.mul_add, Nat.mul_one]
    omega
  rw [hsplit, Nat.mul_add_mod, Nat.mod_eq_of_lt (by omega)]

/-! ### Copies -/

/-- A slot among those that are written, or another one. -/
theorem copyIn_cases (data : ℕ → T) (pos : ℕ) (slots : List T) (i : ℕ) :
    (∃ j < slots.length, i = pos + j ∧ slots[j]? = some (copyIn data pos slots i)) ∨
      (∀ j < slots.length, i ≠ pos + j) ∧ copyIn data pos slots i = data i := by
  rw [copyIn]
  by_cases hpos : pos ≤ i
  · rw [if_pos hpos]
    cases hslot : slots[i - pos]? with
    | some x =>
      obtain ⟨hj, -⟩ := List.getElem?_eq_some_iff.mp hslot
      exact Or.inl ⟨i - pos, hj, by omega, hslot⟩
    | none =>
      have hlen := List.getElem?_eq_none_iff.mp hslot
      exact Or.inr ⟨fun j hj => by omega, rfl⟩
  · rw [if_neg hpos]
    exact Or.inr ⟨fun j hj => by omega, rfl⟩

variable {slots input output : List T}

/-- A slot that is written. -/
theorem copyIn_written (data : ℕ → T) (pos : ℕ) (hj : j < slots.length) :
    slots[j]? = some (copyIn data pos slots (pos + j)) := by
  rcases copyIn_cases data pos slots (pos + j) with ⟨j', hj', heq, hslot⟩ | ⟨hother, -⟩
  · rw [Nat.add_left_cancel heq] at hslot ⊢
    exact hslot
  · exact absurd rfl (hother j hj)

/-- A slot that is not written. -/
theorem copyIn_other (data : ℕ → T) (hi : ∀ j < slots.length, i ≠ pos + j) :
    copyIn data pos slots i = data i := by
  rcases copyIn_cases data pos slots i with ⟨j, hj, heq, -⟩ | ⟨-, hsame⟩
  · exact absurd heq (hi j hj)
  · exact hsame

theorem getElem?_copyOut (data : ℕ → T) (pos : ℕ) (hj : j < count) :
    (copyOut data pos count)[j]? = some (data (pos + j)) := by
  rw [copyOut, getElem?_map, getElem?_range hj]
  rfl

theorem length_copyOut (data : ℕ → T) (pos count : ℕ) : (copyOut data pos count).length = count := by
  rw [copyOut, length_map, length_range]

/-! ### The invariant -/

/-- The elements of the log from `from` on, `count` of them, are in their slots. -/
def Placed (data : ℕ → T) (log : List T) (start offset count : ℕ) : Prop :=
  ∀ j < count, log[offset + j]? = some (data ((start + j) % k.slots))

/-- What the thread that pushes knows, when `pushed` elements were pushed and `popped` were popped. -/
def ProducerKnows (data : ℕ → T) (pushed popped : ℕ) : Producer T → Prop
  | .idle => True
  | .loaded input writeIndex pushCount =>
    writeIndex = sizeT pushed ∧ pushCount ≤ input.length ∧ pushed + pushCount ≤ popped + k.slots
  | .halfCopied input writeIndex pushCount =>
    (writeIndex = sizeT pushed ∧ pushCount ≤ input.length ∧ pushed + pushCount ≤ popped + k.slots) ∧
      Placed k data input pushed 0 (firstCopy k pushed pushCount)
  | .copied input writeIndex pushCount =>
    (writeIndex = sizeT pushed ∧ pushCount ≤ input.length ∧ pushed + pushCount ≤ popped + k.slots) ∧
      Placed k data input pushed 0 pushCount

/-- What the thread that pops knows. -/
def ConsumerKnows (log : List T) (popped : ℕ) : Consumer T → Prop
  | .idle => True
  | .loaded readIndex popCount => readIndex = sizeT popped ∧ popped + popCount ≤ log.length
  | .halfCopied readIndex popCount output =>
    (readIndex = sizeT popped ∧ popped + popCount ≤ log.length) ∧ output = (log.drop popped).take (firstCopy k popped popCount)
  | .copied readIndex popCount output =>
    (readIndex = sizeT popped ∧ popped + popCount ≤ log.length) ∧ output = (log.drop popped).take popCount

/-- The indices count the elements, and the elements in between are in their slots. -/
structure InStep (s : State T) (log : List T) (popped : ℕ) : Prop where
  write : s.buffer.writeIndex = sizeT log.length
  read : s.buffer.readIndex = sizeT popped
  le : popped ≤ log.length
  fits : log.length ≤ popped + k.slots
  kept : Placed k s.buffer.data log popped popped (log.length - popped)
  producer : ProducerKnows k s.buffer.data log.length popped s.producer
  consumer : ConsumerKnows k log popped s.consumer

variable {k} {s : State T} {log : List T} {out : ℕ}

theorem InStep.kept_at (h : InStep k s log out) (hi : out ≤ i) (hi' : i < log.length) :
    log[i]? = some (s.buffer.data (i % k.slots)) := by
  have hkept := h.kept (i - out) (by omega)
  rwa [Nat.add_sub_cancel' hi] at hkept

/-- The number of elements between the indices. -/
theorem InStep.size (h : InStep k s log out) : s.buffer.size = log.length - out := by
  have hlt := slots_lt k
  have hle := h.le
  have hfits := h.fits
  rw [RingBuffer.size, h.write, h.read, sizeT, sizeT, sizeT]
  omega

theorem InStep.free (h : InStep k s log out) :
    sizeT (k.slots + s.buffer.readIndex + (2 ^ 64 - s.buffer.writeIndex)) = out + k.slots - log.length := by
  have hlt := slots_lt k
  have hle := h.le
  have hfits := h.fits
  rw [h.write, h.read, sizeT, sizeT, sizeT]
  omega

theorem sizeT_add (n m : ℕ) : sizeT (sizeT n + m) = sizeT (n + m) := by
  rw [sizeT, sizeT, sizeT, Nat.mod_add_mod]

theorem firstCopy_sizeT (n count : ℕ) : firstCopy k (sizeT n) count = firstCopy k n count := by
  rw [firstCopy, firstCopy, sizeT_mod_slots]

/-! ### The thread that pushes -/

section

variable (h : InStep k s log out)
include h

theorem InStep.push (newSlots : List T) :
    InStep k { s with producer := .loaded newSlots s.buffer.writeIndex (min newSlots.length
      (sizeT (k.slots + s.buffer.readIndex + (2 ^ 64 - s.buffer.writeIndex)))) } log out := by
  refine ⟨h.write, h.read, h.le, h.fits, h.kept, ⟨h.write, Nat.min_le_left _ _, ?_⟩, h.consumer⟩
  have hfree := h.free
  have hfits := h.fits
  rw [hfree]
  omega

/-- A copy leaves the elements that are there alone. -/
theorem InStep.kept_copyIn {f : ℕ}
    (hcount : log.length + pushCount ≤ out + k.slots) (hfirst : f + slots.length ≤ pushCount)
    (hslot : ∀ j < slots.length, (log.length + (f + j)) % k.slots = pos + j) :
    Placed k (copyIn s.buffer.data pos slots) log out out (log.length - out) := by
  intro j hj
  rw [h.kept j hj, copyIn_other]
  intro i hi heq
  refine slot_ne k (i := out + j) (j := log.length + (f + i)) (by omega) (by omega) ?_
  rw [hslot i hi, heq]

theorem InStep.copyFirst (hproducer : s.producer = .loaded input writeIndex pushCount) :
    InStep k { s with
      buffer := { s.buffer with data := copyIn s.buffer.data (writeIndex % k.slots) (input.take (firstCopy k writeIndex pushCount)) }
      producer := .halfCopied input writeIndex pushCount } log out := by
  have hknows := h.producer
  rw [hproducer] at hknows
  obtain ⟨hwrite, hinput, hcount⟩ := hknows
  have hpos : writeIndex % k.slots = log.length % k.slots := by rw [hwrite, sizeT_mod_slots]
  have hfirst : firstCopy k writeIndex pushCount = firstCopy k log.length pushCount := by rw [hwrite, firstCopy_sizeT]
  have hle : firstCopy k log.length pushCount ≤ pushCount := Nat.min_le_right _ _
  have hlength : (input.take (firstCopy k log.length pushCount)).length = firstCopy k log.length pushCount := by
    rw [length_take]
    omega
  have hslot (j : ℕ) (hj : j < firstCopy k log.length pushCount) : (log.length + j) % k.slots = log.length % k.slots + j := slot_first k hj
  rw [hpos, hfirst]
  have hkept : Placed k (copyIn s.buffer.data (log.length % k.slots) (input.take (firstCopy k log.length pushCount))) log out out
      (log.length - out) := by
    refine h.kept_copyIn (f := 0) hcount (by omega) fun j hj => ?_
    rw [Nat.zero_add]
    exact hslot j (by omega)
  refine ⟨h.write, h.read, h.le, h.fits, hkept, ⟨⟨hwrite, hinput, hcount⟩, fun j hj => ?_⟩, h.consumer⟩
  · rw [hslot j hj, Nat.zero_add]
    have hwritten := copyIn_written s.buffer.data (log.length % k.slots) (hlength.symm ▸ hj : j < (input.take _).length)
    rwa [getElem?_take_of_lt hj] at hwritten

theorem InStep.copySecond {rest : List T} (hproducer : s.producer = .halfCopied input writeIndex pushCount)
    (hrest : rest = (input.drop (firstCopy k writeIndex pushCount)).take (pushCount - firstCopy k writeIndex pushCount)) :
    InStep k { s with
      buffer := { s.buffer with data := copyIn s.buffer.data 0 rest }
      producer := .copied input writeIndex pushCount } log out := by
  have hknows := h.producer
  rw [hproducer] at hknows
  obtain ⟨⟨hwrite, hinput, hcount⟩, hplaced⟩ := hknows
  have hfirst : firstCopy k writeIndex pushCount = firstCopy k log.length pushCount := by rw [hwrite, firstCopy_sizeT]
  have hle : firstCopy k log.length pushCount ≤ pushCount := Nat.min_le_right _ _
  have hpushes : pushCount ≤ k.slots := by
    have hkeep := h.le
    omega
  rw [hfirst] at hrest
  have hlength : rest.length = pushCount - firstCopy k log.length pushCount := by
    rw [hrest, length_take, length_drop]
    omega
  have hslot (j : ℕ) (hj : j < pushCount - firstCopy k log.length pushCount) :
      (log.length + (firstCopy k log.length pushCount + j)) % k.slots = j := slot_second k (by omega) hpushes
  have hkept : Placed k (copyIn s.buffer.data 0 rest) log out out (log.length - out) := by
    refine h.kept_copyIn (f := firstCopy k log.length pushCount) hcount (by omega) fun j hj => ?_
    rw [hslot j (by omega), Nat.zero_add]
  refine ⟨h.write, h.read, h.le, h.fits, hkept, ⟨⟨hwrite, hinput, hcount⟩, fun j hj => ?_⟩, h.consumer⟩
  · show input[0 + j]? = some (copyIn s.buffer.data 0 rest ((log.length + j) % k.slots))
    by_cases hhalf : j < firstCopy k log.length pushCount
    · rw [hplaced j hhalf, copyIn_other]
      intro i hi heq
      have hi' := hslot i (by omega)
      refine slot_ne k (i := log.length + j) (j := log.length + (firstCopy k log.length pushCount + i)) (by omega) (by omega) ?_
      rw [hi', heq, Nat.zero_add]
    · obtain ⟨i, rfl⟩ := Nat.exists_eq_add_of_le (Nat.le_of_not_lt hhalf)
      have hi : i < pushCount - firstCopy k log.length pushCount := by omega
      have hwritten := copyIn_written s.buffer.data 0 (hlength.symm ▸ hi : i < rest.length)
      have hget : rest[i]? = input[firstCopy k log.length pushCount + i]? := by
        rw [hrest, getElem?_take_of_lt hi, getElem?_drop]
      rw [hget, Nat.zero_add] at hwritten
      rw [Nat.zero_add, hslot i hi, hwritten]

theorem InStep.store (hproducer : s.producer = .copied input writeIndex pushCount) :
    InStep k { s with buffer := { s.buffer with writeIndex := sizeT (writeIndex + pushCount) }, producer := .idle }
      (log ++ input.take pushCount) out := by
  have hknows := h.producer
  rw [hproducer] at hknows
  obtain ⟨⟨hwrite, hinput, hcount⟩, hplaced⟩ := hknows
  have hlength : (log ++ input.take pushCount).length = log.length + pushCount := by
    rw [length_append, length_take]
    omega
  have hle := h.le
  refine ⟨?_, h.read, by omega, by omega, fun j hj => ?_, trivial, ?_⟩
  · show sizeT (writeIndex + pushCount) = _
    rw [hwrite, sizeT_add, hlength]
  · by_cases hold : out + j < log.length
    · rw [getElem?_append_left hold]
      exact h.kept j (by omega)
    · obtain ⟨i, hi⟩ := Nat.exists_eq_add_of_le (Nat.le_of_not_lt hold)
      have hnew := hplaced i (by omega)
      rw [Nat.zero_add] at hnew
      rw [getElem?_append_right (by omega), hi, Nat.add_sub_cancel_left, getElem?_take_of_lt (by omega), hnew]
  · have hconsumer := h.consumer
    have htake (count : ℕ) (hout : out + count ≤ log.length) :
        ((log ++ input.take pushCount).drop out).take count = (log.drop out).take count := by
      rw [drop_append_of_le_length hle, take_append_of_le_length (by rw [length_drop]; omega)]
    cases hc : s.consumer with
    | idle => trivial
    | loaded readIndex popCount =>
      rw [hc] at hconsumer
      obtain ⟨hread, hpop⟩ := hconsumer
      exact ⟨hread, by omega⟩
    | halfCopied readIndex popCount output =>
      rw [hc] at hconsumer
      obtain ⟨⟨hread, hpop⟩, houtput⟩ := hconsumer
      have hfirst : firstCopy k out popCount ≤ popCount := Nat.min_le_right _ _
      exact ⟨⟨hread, by omega⟩, houtput.trans (htake _ (by omega)).symm⟩
    | copied readIndex popCount output =>
      rw [hc] at hconsumer
      obtain ⟨⟨hread, hpop⟩, houtput⟩ := hconsumer
      exact ⟨⟨hread, by omega⟩, houtput.trans (htake _ hpop).symm⟩

end

/-! ### The thread that pops -/

section

variable (h : InStep k s log out)
include h

theorem InStep.pop (maxSlots : ℕ) :
    InStep k { s with consumer := .loaded s.buffer.readIndex (min (sizeT (s.buffer.writeIndex + (2 ^ 64 - s.buffer.readIndex))) maxSlots) }
      log out := by
  refine ⟨h.write, h.read, h.le, h.fits, h.kept, h.producer, h.read, ?_⟩
  have hsize : sizeT (s.buffer.writeIndex + (2 ^ 64 - s.buffer.readIndex)) = log.length - out := h.size
  have hle := h.le
  rw [hsize]
  omega

/-- Elements that are copied out of their slots. -/
theorem InStep.copyOut_eq (hcount : out + n + count ≤ log.length)
    (hslot : ∀ j < count, (out + (n + j)) % k.slots = pos + j) :
    copyOut s.buffer.data pos count = (log.drop (out + n)).take count := by
  refine ext_getElem? fun j => ?_
  by_cases hj : j < count
  · rw [getElem?_copyOut _ _ hj, getElem?_take_of_lt hj, getElem?_drop, Nat.add_assoc, ← hslot j hj]
    exact (h.kept_at (by omega) (by omega)).symm
  · have hlength : ((log.drop (out + n)).take count).length ≤ j := by
      rw [length_take]
      omega
    rw [getElem?_eq_none hlength, getElem?_eq_none]
    rw [length_copyOut]
    omega

theorem InStep.popFirst (hconsumer : s.consumer = .loaded readIndex popCount) :
    InStep k { s with
      consumer := .halfCopied readIndex popCount (copyOut s.buffer.data (readIndex % k.slots) (firstCopy k readIndex popCount)) }
      log out := by
  have hknows := h.consumer
  rw [hconsumer] at hknows
  obtain ⟨hread, hpop⟩ := hknows
  have hle : firstCopy k out popCount ≤ popCount := Nat.min_le_right _ _
  refine ⟨h.write, h.read, h.le, h.fits, h.kept, h.producer, ⟨hread, hpop⟩, ?_⟩
  rw [hread, firstCopy_sizeT, sizeT_mod_slots]
  refine h.copyOut_eq (n := 0) (by omega) fun j hj => ?_
  rw [Nat.zero_add]
  exact slot_first k hj

theorem InStep.popSecond (hconsumer : s.consumer = .halfCopied readIndex popCount output) :
    InStep k { s with
      consumer := .copied readIndex popCount (output ++ copyOut s.buffer.data 0 (popCount - firstCopy k readIndex popCount)) }
      log out := by
  have hknows := h.consumer
  rw [hconsumer] at hknows
  obtain ⟨⟨hread, hpop⟩, houtput⟩ := hknows
  have hle : firstCopy k out popCount ≤ popCount := Nat.min_le_right _ _
  have hfits := h.fits
  have hrest : copyOut s.buffer.data 0 (popCount - firstCopy k out popCount) =
      (log.drop (out + firstCopy k out popCount)).take (popCount - firstCopy k out popCount) := by
    refine h.copyOut_eq (by omega) fun j hj => ?_
    rw [Nat.zero_add]
    exact slot_second k (by omega) (by omega)
  refine ⟨h.write, h.read, h.le, h.fits, h.kept, h.producer, ⟨hread, hpop⟩, ?_⟩
  rw [hread, firstCopy_sizeT, hrest, houtput, ← drop_drop, ← take_add, Nat.add_sub_cancel' hle]

theorem InStep.popStore (hconsumer : s.consumer = .copied readIndex popCount output) :
    (output = (log.drop out).take popCount ∧ out + popCount ≤ log.length) ∧
      InStep k { s with buffer := { s.buffer with readIndex := sizeT (readIndex + popCount) }, consumer := .idle } log (out + popCount) := by
  have hknows := h.consumer
  rw [hconsumer] at hknows
  obtain ⟨⟨hread, hpop⟩, houtput⟩ := hknows
  have hfits := h.fits
  refine ⟨⟨houtput, hpop⟩, h.write, ?_, hpop, by omega, fun j hj => ?_, ?_, trivial⟩
  · show sizeT (readIndex + popCount) = _
    rw [hread, sizeT_add]
  · exact h.kept_at (by omega) (by omega)
  · have hproducer := h.producer
    cases hp : s.producer with
    | idle => trivial
    | loaded input writeIndex pushCount =>
      rw [hp] at hproducer
      obtain ⟨hwrite, hinput, hcount⟩ := hproducer
      exact ⟨hwrite, hinput, by omega⟩
    | halfCopied input writeIndex pushCount =>
      rw [hp] at hproducer
      obtain ⟨⟨hwrite, hinput, hcount⟩, hplaced⟩ := hproducer
      exact ⟨⟨hwrite, hinput, by omega⟩, hplaced⟩
    | copied input writeIndex pushCount =>
      rw [hp] at hproducer
      obtain ⟨⟨hwrite, hinput, hcount⟩, hplaced⟩ := hproducer
      exact ⟨⟨hwrite, hinput, by omega⟩, hplaced⟩

end

/-! ### Runs -/

/-- The elements that a step takes in. -/
def Reply.taken : Reply T → List T
  | .pushed input pushCount => input.take pushCount
  | _ => []

/-- The elements that a step gives out. -/
def Reply.given : Reply T → List T
  | .popped output _ => output
  | _ => []

/-- What a step comes to. -/
structure StepTo (s s' : State T) (log : List T) (out : ℕ) (reply : Reply T) : Prop where
  inStep : InStep k s' (log ++ reply.taken) (out + reply.given.length)
  popped : reply.given = (log.drop out).take reply.given.length
  pushReports : ∀ input pushCount, reply = .pushed input pushCount → pushCount ≤ input.length
  popReports : ∀ output popCount, reply = .popped output popCount → output.length = popCount

theorem StepTo.quiet {s' : State T} (h : InStep k s' log out) : StepTo (k := k) s s' log out .none where
  inStep := by
    rw [show (Reply.none : Reply T).taken = [] from rfl, append_nil]
    exact h
  popped := rfl
  pushReports _ _ h := by cases h
  popReports _ _ h := by cases h

theorem InStep.step {event : Event T} {s' : State T} {reply : Reply T} (h : InStep k s log out)
    (hstep : RingBuffer.step k s event = some (s', reply)) : StepTo (k := k) s s' log out reply := by
  cases event with
  | push newSlots =>
    rw [RingBuffer.step] at hstep
    split at hstep
    · obtain ⟨rfl, rfl⟩ := Prod.mk.inj (Option.some.inj hstep)
      exact .quiet (h.push newSlots)
    · cases hstep
  | pushCopyFirst =>
    rw [RingBuffer.step] at hstep
    split at hstep
    · rename_i input writeIndex pushCount hproducer
      obtain ⟨rfl, rfl⟩ := Prod.mk.inj (Option.some.inj hstep)
      exact .quiet (h.copyFirst hproducer)
    · cases hstep
  | pushCopySecond =>
    rw [RingBuffer.step] at hstep
    split at hstep
    · rename_i input writeIndex pushCount hproducer
      obtain ⟨rfl, rfl⟩ := Prod.mk.inj (Option.some.inj hstep)
      exact .quiet (h.copySecond hproducer rfl)
    · cases hstep
  | pushStore =>
    rw [RingBuffer.step] at hstep
    split at hstep
    · rename_i input writeIndex pushCount hproducer
      obtain ⟨rfl, rfl⟩ := Prod.mk.inj (Option.some.inj hstep)
      have hknows := h.producer
      rw [hproducer] at hknows
      refine ⟨h.store hproducer, rfl, fun _ _ hreply => ?_, fun _ _ hreply => by cases hreply⟩
      cases hreply
      exact hknows.1.2.1
    · cases hstep
  | pop maxSlots =>
    rw [RingBuffer.step] at hstep
    split at hstep
    · obtain ⟨rfl, rfl⟩ := Prod.mk.inj (Option.some.inj hstep)
      exact .quiet (h.pop maxSlots)
    · cases hstep
  | popCopyFirst =>
    rw [RingBuffer.step] at hstep
    split at hstep
    · rename_i readIndex popCount hconsumer
      obtain ⟨rfl, rfl⟩ := Prod.mk.inj (Option.some.inj hstep)
      exact .quiet (h.popFirst hconsumer)
    · cases hstep
  | popCopySecond =>
    rw [RingBuffer.step] at hstep
    split at hstep
    · rename_i readIndex popCount output hconsumer
      obtain ⟨rfl, rfl⟩ := Prod.mk.inj (Option.some.inj hstep)
      exact .quiet (h.popSecond hconsumer)
    · cases hstep
  | popStore =>
    rw [RingBuffer.step] at hstep
    split at hstep
    · rename_i readIndex popCount output hconsumer
      obtain ⟨rfl, rfl⟩ := Prod.mk.inj (Option.some.inj hstep)
      obtain ⟨⟨houtput, hpop⟩, hinStep⟩ := h.popStore hconsumer
      have hlength : output.length = popCount := by
        rw [houtput, length_take, length_drop]
        omega
      refine ⟨?_, ?_, fun _ _ hreply => (by cases hreply), fun _ _ hreply => ?_⟩
      · show InStep k _ (log ++ []) (out + output.length)
        rw [append_nil, hlength]
        exact hinStep
      · show output = (log.drop out).take output.length
        rw [hlength]
        exact houtput
      · cases hreply
        exact hlength
    · cases hstep

/-- The slots that a step writes are none of those of the elements. -/
theorem InStep.untouched (h : InStep k s log out) {event : Event T} (hi : out ≤ i) (hi' : i < log.length) :
    i % k.slots ∉ written k s event := by
  intro hwritten
  cases event with
  | pushCopyFirst =>
    rw [written] at hwritten
    split at hwritten
    · rename_i input writeIndex pushCount hproducer
      have hknows := h.producer
      rw [hproducer] at hknows
      obtain ⟨hwrite, -, hcount⟩ := hknows
      rw [hwrite, firstCopy_sizeT, sizeT_mod_slots] at hwritten
      obtain ⟨j, hj, heq⟩ := mem_map.mp hwritten
      have hj := mem_range.mp hj
      have hle : firstCopy k log.length pushCount ≤ pushCount := Nat.min_le_right _ _
      exact slot_ne k (i := i) (j := log.length + j) (by omega) (by omega) (heq.symm.trans (slot_first k hj).symm)
    · exact not_mem_nil hwritten
  | pushCopySecond =>
    rw [written] at hwritten
    split at hwritten
    · rename_i input writeIndex pushCount hproducer
      have hknows := h.producer
      rw [hproducer] at hknows
      obtain ⟨⟨hwrite, -, hcount⟩, -⟩ := hknows
      rw [hwrite, firstCopy_sizeT] at hwritten
      have hj := mem_range.mp hwritten
      exact slot_ne k (i := i) (j := log.length + (firstCopy k log.length pushCount + i % k.slots)) (by omega) (by omega)
        (slot_second k (by omega) (by omega)).symm
    · exact not_mem_nil hwritten
  | push newSlots => exact not_mem_nil hwritten
  | pushStore => exact not_mem_nil hwritten
  | pop maxSlots => exact not_mem_nil hwritten
  | popCopyFirst => exact not_mem_nil hwritten
  | popCopySecond => exact not_mem_nil hwritten
  | popStore => exact not_mem_nil hwritten

theorem accepted_append (history : List (Event T × Reply T)) (event : Event T) (reply : Reply T) :
    accepted (history ++ [(event, reply)]) = accepted history ++ reply.taken := by
  rw [accepted, flatMap_append, ← accepted]
  cases reply with
  | none => rfl
  | pushed input pushCount => exact congrArg (accepted history ++ ·) (append_nil _)
  | popped output popCount => rfl

theorem popped_append (history : List (Event T × Reply T)) (event : Event T) (reply : Reply T) :
    popped (history ++ [(event, reply)]) = popped history ++ reply.given := by
  rw [popped, flatMap_append, ← popped]
  cases reply with
  | none => rfl
  | pushed input pushCount => rfl
  | popped output popCount => exact congrArg (popped history ++ ·) (append_nil _)

/-- In every run, the popped elements are the first of those that were pushed, and the others are in their slots. -/
theorem run_inStep {data : ℕ → T} {history : List (Event T × Reply T)}
    (hrun : History (RingBuffer.step k) (fun _ _ => True) (initial data) s history) :
    popped history = (accepted history).take (popped history).length ∧ InStep k s (accepted history) (popped history).length := by
  refine hrun.invariant (P := fun s history => popped history = (accepted history).take (popped history).length ∧
    InStep k s (accepted history) (popped history).length) ⟨rfl, rfl, rfl, Nat.le_refl _, Nat.zero_le _, fun j hj => ?_, trivial, trivial⟩ ?_
  · exact absurd hj (Nat.not_lt_zero j)
  intro s history event s' reply ⟨hpopped, h⟩ _ hstep
  have hto := h.step hstep
  have hlength : (popped history ++ reply.given).length = (popped history).length + reply.given.length := length_append
  rw [accepted_append, popped_append, hlength]
  refine ⟨?_, hto.inStep⟩
  have hout : (popped history).length + reply.given.length ≤ (accepted history).length := by
    have hshort := congrArg List.length hto.popped
    rw [length_take, length_drop] at hshort
    have hle := h.le
    omega
  calc popped history ++ reply.given
      = (accepted history).take (popped history).length ++
          ((accepted history).drop (popped history).length).take reply.given.length := by rw [← hpopped, ← hto.popped]
    _ = (accepted history).take ((popped history).length + reply.given.length) := take_add.symm
    _ = (accepted history ++ reply.taken).take ((popped history).length + reply.given.length) :=
        (take_append_of_le_length hout).symm

/-- **In every run of the two threads, the buffer hands on the elements in their order and overwrites none of them.** -/
theorem runs_correct {data : ℕ → T} {history : List (Event T × Reply T)}
    (hrun : History (RingBuffer.step k) (fun _ _ => True) (initial data) s history) : Correct k s history := by
  obtain ⟨hpopped, h⟩ := run_inStep hrun
  refine ⟨?_, fun i hi hi' => h.kept_at hi hi', fun event _ _ _ i hi hi' => h.untouched hi hi',
    fun event s' input pushCount hstep => ?_, fun event s' output popCount hstep => ?_⟩
  · rw [hpopped]
    exact take_prefix _ _
  · have hto := h.step hstep
    have hcount := hto.pushReports input pushCount rfl
    have hsize := hto.inStep.size
    have hlength : (accepted history ++ (Reply.pushed input pushCount).taken).length = (accepted history).length + pushCount := by
      rw [length_append, Reply.taken, length_take]
      omega
    have hle := h.le
    refine ⟨hcount, ?_⟩
    rw [hsize, h.size, hlength]
    show (accepted history).length + pushCount - ((popped history).length + 0) = _
    omega
  · have hto := h.step hstep
    have hlength := hto.popReports output popCount rfl
    have hsize := hto.inStep.size
    have hle := hto.inStep.le
    refine ⟨hlength, ?_⟩
    rw [hsize, h.size]
    have haccepted : (accepted history ++ (Reply.popped output popCount).taken).length = (accepted history).length :=
      congrArg List.length (append_nil _)
    have hpopLength : (Reply.popped output popCount).given.length = popCount := hlength
    rw [haccepted, hpopLength] at hle ⊢
    omega

def twoSlots : RingCapacity := ⟨1, by decide⟩

/-- Three elements through two slots: the last one comes to the slot of the first. -/
def wrapped : List (Event ℕ) :=
  [.push [5, 6, 7], .pushCopyFirst, .pushCopySecond, .pushStore, .pop 1, .popCopyFirst, .popCopySecond, .popStore, .push [7], .pop 9,
    .pushCopyFirst, .popCopyFirst, .pushCopySecond, .popCopySecond, .popStore, .pushStore, .pop 9, .popCopyFirst, .popCopySecond, .popStore]

theorem runs_correct_wrapped : ∃ s history, Correct twoSlots s history ∧ popped history = [5, 6, 7] := by
  have hend : ((replay (RingBuffer.step twoSlots) wrapped (initial fun _ => 0, [])).map fun r => popped r.2) = some [5, 6, 7] := by
    decide +kernel
  obtain ⟨r, hreplay, hr⟩ := Option.map_eq_some_iff.mp hend
  exact ⟨r.1, r.2, runs_correct (history_of_replay .start hreplay), hr⟩

end RingBuffer
end Common
end Citron
