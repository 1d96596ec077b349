/-
# A ring buffer between two threads

One thread pushes and one thread pops. The steps of `Push` and `Pop` (load the indices, copy up to the end
of the storage, copy the rest to its start, store the index) may come in any order.
-/
import Citron.Lib.Histories

namespace Citron
namespace Common

/-- A number of slots that the static assertions let pass. -/
structure RingCapacity where
  log : ℕ
  sensible : 2 ^ log < (2 ^ 64 - 1) / 2

def RingCapacity.slots (k : RingCapacity) : ℕ := 2 ^ k.log

/-- `std::size_t` -/
def sizeT (n : ℕ) : ℕ := n % 2 ^ 64

structure RingBuffer (T : Type) where
  readIndex : ℕ
  writeIndex : ℕ
  data : ℕ → T

namespace RingBuffer

variable {T : Type}

/-- `m_write_index.load() - m_read_index.load()` -/
def size (b : RingBuffer T) : ℕ := sizeT (b.writeIndex + (2 ^ 64 - b.readIndex))

/-- `std::memcpy` of slots into the storage. -/
def copyIn (data : ℕ → T) (pos : ℕ) (slots : List T) : ℕ → T := fun i => if pos ≤ i then (slots[i - pos]?).getD (data i) else data i

/-- `std::memcpy` of slots out of the storage. -/
def copyOut (data : ℕ → T) (pos count : ℕ) : List T := (List.range count).map fun i => data (pos + i)

/-- How far the thread that pushes has come. -/
inductive Producer (T : Type)
  | idle
  | loaded (input : List T) (writeIndex pushCount : ℕ)
  | halfCopied (input : List T) (writeIndex pushCount : ℕ)
  | copied (input : List T) (writeIndex pushCount : ℕ)

/-- How far the thread that pops has come. -/
inductive Consumer (T : Type)
  | idle
  | loaded (readIndex popCount : ℕ)
  | halfCopied (readIndex popCount : ℕ) (output : List T)
  | copied (readIndex popCount : ℕ) (output : List T)

structure State (T : Type) where
  buffer : RingBuffer T
  producer : Producer T
  consumer : Consumer T

inductive Event (T : Type)
  | push (newSlots : List T)
  | pushCopyFirst
  | pushCopySecond
  | pushStore
  | pop (maxSlots : ℕ)
  | popCopyFirst
  | popCopySecond
  | popStore

/-- What a step gives back: the arguments and the result of a call that is over. -/
inductive Reply (T : Type)
  | none
  | pushed (input : List T) (pushCount : ℕ)
  | popped (output : List T) (popCount : ℕ)

/-- A new buffer; what is in its storage is not known. -/
def initial (data : ℕ → T) : State T := ⟨⟨0, 0, data⟩, .idle, .idle⟩

variable (k : RingCapacity)

/-- The slots up to the end of the storage. -/
def firstCopy (index count : ℕ) : ℕ := min (k.slots - index % k.slots) count

def step (s : State T) : Event T → Option (State T × Reply T)
  | .push newSlots =>
    match s.producer with
    | .idle =>
      let writeIndex := s.buffer.writeIndex
      let slotsFree := sizeT (k.slots + s.buffer.readIndex + (2 ^ 64 - writeIndex))
      some ({ s with producer := .loaded newSlots writeIndex (min newSlots.length slotsFree) }, .none)
    | _ => none
  | .pushCopyFirst =>
    match s.producer with
    | .loaded input writeIndex pushCount =>
      let data := copyIn s.buffer.data (writeIndex % k.slots) (input.take (firstCopy k writeIndex pushCount))
      some ({ s with buffer := { s.buffer with data := data }, producer := .halfCopied input writeIndex pushCount }, .none)
    | _ => none
  | .pushCopySecond =>
    match s.producer with
    | .halfCopied input writeIndex pushCount =>
      let first := firstCopy k writeIndex pushCount
      let data := copyIn s.buffer.data 0 ((input.drop first).take (pushCount - first))
      some ({ s with buffer := { s.buffer with data := data }, producer := .copied input writeIndex pushCount }, .none)
    | _ => none
  | .pushStore =>
    match s.producer with
    | .copied input writeIndex pushCount =>
      some ({ s with buffer := { s.buffer with writeIndex := sizeT (writeIndex + pushCount) }, producer := .idle }, .pushed input pushCount)
    | _ => none
  | .pop maxSlots =>
    match s.consumer with
    | .idle =>
      let readIndex := s.buffer.readIndex
      let slotsFilled := sizeT (s.buffer.writeIndex + (2 ^ 64 - readIndex))
      some ({ s with consumer := .loaded readIndex (min slotsFilled maxSlots) }, .none)
    | _ => none
  | .popCopyFirst =>
    match s.consumer with
    | .loaded readIndex popCount =>
      let output := copyOut s.buffer.data (readIndex % k.slots) (firstCopy k readIndex popCount)
      some ({ s with consumer := .halfCopied readIndex popCount output }, .none)
    | _ => none
  | .popCopySecond =>
    match s.consumer with
    | .halfCopied readIndex popCount output =>
      let output := output ++ copyOut s.buffer.data 0 (popCount - firstCopy k readIndex popCount)
      some ({ s with consumer := .copied readIndex popCount output }, .none)
    | _ => none
  | .popStore =>
    match s.consumer with
    | .copied readIndex popCount output =>
      some ({ s with buffer := { s.buffer with readIndex := sizeT (readIndex + popCount) }, consumer := .idle }, .popped output popCount)
    | _ => none

/-- The slots that a step writes. -/
def written (s : State T) : Event T → List ℕ
  | .pushCopyFirst =>
    match s.producer with
    | .loaded _ writeIndex pushCount => (List.range (firstCopy k writeIndex pushCount)).map (writeIndex % k.slots + ·)
    | _ => []
  | .pushCopySecond =>
    match s.producer with
    | .halfCopied _ writeIndex pushCount => List.range (pushCount - firstCopy k writeIndex pushCount)
    | _ => []
  | _ => []

/-- All elements that were pushed. -/
def accepted (history : List (Event T × Reply T)) : List T :=
  history.flatMap fun
    | (_, .pushed input pushCount) => input.take pushCount
    | _ => []

/-- All elements that were popped. -/
def popped (history : List (Event T × Reply T)) : List T :=
  history.flatMap fun
    | (_, .popped output _) => output
    | _ => []

/-- What the buffer promises of a state and the history before it. -/
structure Correct (s : State T) (history : List (Event T × Reply T)) : Prop where
  inOrder : popped history <+: accepted history
  kept : ∀ i, (popped history).length ≤ i → i < (accepted history).length →
    (accepted history)[i]? = some (s.buffer.data (i % k.slots))
  untouched : ∀ event s' reply, step k s event = some (s', reply) →
    ∀ i, (popped history).length ≤ i → i < (accepted history).length → i % k.slots ∉ written k s event
  pushReports : ∀ event s' input pushCount, step k s event = some (s', .pushed input pushCount) →
    pushCount ≤ input.length ∧ s'.buffer.size = s.buffer.size + pushCount
  popReports : ∀ event s' output popCount, step k s event = some (s', .popped output popCount) →
    output.length = popCount ∧ s'.buffer.size + popCount = s.buffer.size

end RingBuffer
end Common
end Citron
