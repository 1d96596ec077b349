/-
# A run of the pusher

The words still to read are those kept from an acquire and those of the queue. Each step takes
words from the front of them as the decoder does (`Stepped`), and a dispatch whose acquires
pass comes to the end of them. So after any pushes, dispatches and retries the calls are the
calls of the words taken, read in one piece (`run_uncut`).
-/
import Citron.VideoCore.DmaPusher

namespace Citron
namespace Tegra
namespace DmaPusher

open List

variable {ch : Channel} {s s' : DmaPusher}

/-! ### The words still to read -/

/-- The words of the queue, from the segment `subindex` of its first list on. -/
def queueWords : List CommandList → ℕ → List Word
  | [], _ => []
  | list :: lists, subindex =>
    (if list.prefetchCommandList ≠ [] then list.prefetchCommandList
      else (list.commandLists.drop subindex).flatMap (·.words)) ++ lists.flatMap CommandList.words

def remaining (s : DmaPusher) : List Word :=
  s.resumeCommands ++ queueWords s.dmaPushbuffer s.dmaPushbufferSubindex

/-- The index of the next segment is in the list it is for. -/
def QueueOk (s : DmaPusher) : Prop :=
  s.dmaPushbufferSubindex = 0 ∨ ∃ list lists, s.dmaPushbuffer = list :: lists ∧ list.prefetchCommandList = [] ∧
    s.dmaPushbufferSubindex < list.commandLists.length

/-- The segments and lists left to do. -/
def queueWork (lists : List CommandList) (subindex : ℕ) : ℕ :=
  (lists.map fun list => list.commandLists.length + 1).sum - subindex

def work (s : DmaPusher) : ℕ := s.remaining.length + queueWork s.dmaPushbuffer s.dmaPushbufferSubindex

theorem queueWords_zero (lists : List CommandList) : queueWords lists 0 = lists.flatMap CommandList.words := by
  cases lists with
  | nil => rfl
  | cons list lists => rw [queueWords, drop_zero, flatMap_cons, CommandList.words]

theorem queueWords_push (h : s.QueueOk) (list : CommandList) :
    queueWords (s.dmaPushbuffer ++ [list]) s.dmaPushbufferSubindex =
      queueWords s.dmaPushbuffer s.dmaPushbufferSubindex ++ list.words := by
  rcases h with h | ⟨first, lists, hq, -, -⟩
  · rw [h, queueWords_zero, queueWords_zero, flatMap_append, flatMap_singleton]
  · rw [hq, cons_append, queueWords, queueWords, flatMap_append, flatMap_singleton, append_assoc]

/-! ### One step -/

/-- A step that goes on: words from the front, decoded, and less left to do. -/
structure Stepped (ch : Channel) (s s' : DmaPusher) : Prop where
  decodes : ∃ now, s.remaining = now ++ s'.remaining ∧ s'.taken = s.taken ++ now ∧
    s'.decoder = now.foldl (Decoder.decodeWord ch.executionMask) s.decoder
  ready : s'.Ready
  queue : s'.QueueOk
  work : s'.work < s.work

variable {commands : List Word}

/-- A step that sends the words `commands` from the state `t`, and has the queue at `lists` and
`subindex`. -/
theorem Processed.stepped {t : DmaPusher} (h : Processed ch t commands s')
    (hp : t.pendingAcquire = false) (htaken : t.taken = s.taken)
    (hdecoder : t.decoder = s.decoder) (lists : List CommandList) (subindex : ℕ)
    (hrem : s.remaining = commands ++ queueWords lists subindex)
    (hok : QueueOk { s' with dmaPushbuffer := lists, dmaPushbufferSubindex := subindex })
    (hwork : queueWork lists subindex < queueWork s.dmaPushbuffer s.dmaPushbufferSubindex ∨
      commands ≠ [] ∧ queueWork lists subindex ≤ queueWork s.dmaPushbuffer s.dmaPushbufferSubindex) :
    Stepped ch s { s' with dmaPushbuffer := lists, dmaPushbufferSubindex := subindex } := by
  obtain ⟨now, hnow, hd⟩ := h.decodes
  refine ⟨⟨now, ?_, ?_, ?_⟩, hd.ready, hok, ?_⟩
  · rw [hrem, hnow, append_assoc]
    rfl
  · exact hd.taken.trans (by rw [htaken])
  · exact hd.decoder.trans (by rw [hdecoder])
  · have hlen : s.remaining.length = commands.length + (queueWords lists subindex).length := by
      rw [hrem, length_append]
    have hle : s'.resumeCommands.length ≤ commands.length := by
      rw [hnow, length_append]
      exact Nat.le_add_left _ _
    have hwork' : work { s' with dmaPushbuffer := lists, dmaPushbufferSubindex := subindex } =
        s'.resumeCommands.length + (queueWords lists subindex).length + queueWork lists subindex := by
      rw [work, remaining, length_append]
    rw [hwork', work]
    rcases hwork with hlt | ⟨hne, hle'⟩
    · omega
    · have := h.moves hp hne
      omega

/-- The loop leaves the queue alone. -/
theorem Processed.same_queue (h : Processed ch s commands s') :
    { s' with dmaPushbuffer := s.dmaPushbuffer, dmaPushbufferSubindex := s.dmaPushbufferSubindex } = s' := by
  obtain ⟨now, -, hd⟩ := h.decodes
  rw [← hd.queue, ← hd.subindex]

theorem Processed.same_subindex (h : Processed ch s commands s') (lists : List CommandList) :
    { s' with dmaPushbuffer := lists, dmaPushbufferSubindex := s.dmaPushbufferSubindex } =
      { s' with dmaPushbuffer := lists } := by
  obtain ⟨now, -, hd⟩ := h.decodes
  rw [← hd.subindex]

theorem step_resume (passes : Bool) (hready : s.Ready) (hok : s.QueueOk)
    (hp : ¬ (s.pendingAcquire = true ∧ ¬ passes = true)) (hr : s.resumeCommands ≠ []) :
    (s.step ch passes).1 = true ∧ Stepped ch s (s.step ch passes).2 := by
  rw [step, if_neg hp]
  dsimp only
  rw [if_pos hr]
  refine ⟨rfl, ?_⟩
  have h := processCommands_processed ch s.resumeCommands 0
    { s with pendingAcquire := false, resumeCommands := [], dmaState.dmaGet := s.resumeDmaGet } hready rfl
  have hstep := h.stepped (s := s) rfl rfl rfl s.dmaPushbuffer s.dmaPushbufferSubindex rfl hok
    (.inr ⟨hr, Nat.le_refl _⟩)
  have heq := h.same_queue
  exact heq ▸ hstep

variable {list : CommandList} {lists : List CommandList}

theorem queueOk_empty (hok : s.QueueOk)
    (hq : s.dmaPushbuffer = list :: lists) (h : list.commandLists = [] ∨ list.prefetchCommandList ≠ []) :
    s.dmaPushbufferSubindex = 0 := by
  rcases hok with h0 | ⟨first, others, hq', hpre, hlt⟩
  · exact h0
  · obtain ⟨rfl, -⟩ := List.cons.inj (hq'.symm.trans hq)
    rcases h with h | h
    · rw [h] at hlt
      exact absurd hlt (Nat.not_lt_zero _)
    · exact absurd hpre h

theorem queueWords_segment {i : ℕ} {header : CommandListHeader}
    (hpre : list.prefetchCommandList = []) (hi : list.commandLists[i]? = some header) :
    queueWords (list :: lists) i = header.words ++ queueWords (list :: lists) (i + 1) := by
  obtain ⟨hlt, hget⟩ := List.getElem?_eq_some_iff.mp hi
  rw [queueWords, queueWords, if_neg (not_not.mpr hpre), if_neg (not_not.mpr hpre), drop_eq_getElem_cons hlt, hget,
    flatMap_cons, append_assoc]

/-- After its last segment a list is done. -/
theorem queueWords_done {i : ℕ} (hpre : list.prefetchCommandList = []) (hi : list.commandLists.length ≤ i) :
    queueWords (list :: lists) i = queueWords lists 0 := by
  rw [queueWords_zero, queueWords, if_neg (not_not.mpr hpre), drop_eq_nil_of_le hi]
  rfl

theorem remaining_of_queue (hr : s.resumeCommands = [])
    (hq : s.dmaPushbuffer = list :: lists) : s.remaining = queueWords (list :: lists) s.dmaPushbufferSubindex := by
  rw [remaining, hr, hq, nil_append]

section

variable (passes : Bool) (hready : s.Ready) (hok : s.QueueOk) (hp : ¬ (s.pendingAcquire = true ∧ ¬ passes = true))
  (hr : s.resumeCommands = []) (hq : s.dmaPushbuffer = list :: lists)
include passes hready hok hp hr hq

theorem step_empty (he : list.commandLists = [] ∧ list.prefetchCommandList = []) :
    (s.step ch passes).1 = true ∧ Stepped ch s (s.step ch passes).2 := by
  have hsub : s.dmaPushbufferSubindex = 0 := queueOk_empty hok hq (.inl he.1)
  rw [step, if_neg hp]
  rw [if_neg (not_not.mpr hr), hq]
  dsimp only
  rw [if_pos he]
  refine ⟨rfl, ?_⟩
  have h := processCommands_processed ch [] 0 { s with pendingAcquire := false } hready hr
  rw [processCommands] at h
  have hrem : s.remaining = [] ++ queueWords lists 0 := by
    rw [remaining_of_queue hr hq, hsub, queueWords_done he.2 (by rw [he.1]; exact Nat.le_refl _), nil_append]
  have hwork : queueWork lists 0 < queueWork s.dmaPushbuffer s.dmaPushbufferSubindex := by
    rw [queueWork, queueWork, hq, hsub, map_cons, sum_cons]
    omega
  exact h.stepped (s := s) rfl rfl rfl lists 0 hrem (.inl rfl) (.inl hwork)

theorem step_prefetch (he : list.prefetchCommandList ≠ []) :
    (s.step ch passes).1 = true ∧ Stepped ch s (s.step ch passes).2 := by
  have hsub : s.dmaPushbufferSubindex = 0 := queueOk_empty hok hq (.inr he)
  rw [step, if_neg hp]
  rw [if_neg (not_not.mpr hr), hq]
  dsimp only
  rw [if_neg (fun h => he h.2), if_pos he]
  refine ⟨rfl, ?_⟩
  have h := processCommands_processed ch list.prefetchCommandList 0
    { s with pendingAcquire := false, dmaPushbuffer := list :: lists } hready hr
  have hrem : s.remaining = list.prefetchCommandList ++ queueWords lists s.dmaPushbufferSubindex := by
    rw [remaining_of_queue hr hq, hsub, queueWords, if_pos he, queueWords_zero]
  have hwork : queueWork lists s.dmaPushbufferSubindex < queueWork s.dmaPushbuffer s.dmaPushbufferSubindex := by
    rw [queueWork, queueWork, hq, hsub, map_cons, sum_cons]
    omega
  have hstep := h.stepped (s := s) rfl rfl rfl lists s.dmaPushbufferSubindex hrem (.inl hsub) (.inl hwork)
  exact h.same_subindex lists ▸ hstep

end

/-- A segment of size 0 is not read. -/
theorem processCommands_skip (words : List Word) (t : DmaPusher) :
    (if words = [] then (true, t) else (true, processCommands ch words 0 t)) = (true, processCommands ch words 0 t) := by
  split_ifs with h
  · rw [h, processCommands]
  · rfl

theorem step_segment (passes : Bool) (hready : s.Ready)
    (hok : s.QueueOk) (hp : ¬ (s.pendingAcquire = true ∧ ¬ passes = true)) (hr : s.resumeCommands = [])
    (hq : s.dmaPushbuffer = list :: lists) (hne : list.commandLists ≠ []) (hpre : list.prefetchCommandList = []) :
    (s.step ch passes).1 = true ∧ Stepped ch s (s.step ch passes).2 := by
  have hlt : s.dmaPushbufferSubindex < list.commandLists.length := by
    rcases hok with h0 | ⟨first, others, hq', -, hlt⟩
    · rw [h0]
      exact length_pos_iff.mpr hne
    · obtain ⟨rfl, -⟩ := List.cons.inj (hq'.symm.trans hq)
      exact hlt
  have hget := getElem?_eq_getElem hlt
  rw [step, if_neg hp]
  rw [if_neg (not_not.mpr hr), hq]
  dsimp only
  rw [if_neg (fun h => hne h.1), if_neg (not_not.mpr hpre), hget]
  dsimp only
  have hwork : queueWork (list :: lists) (s.dmaPushbufferSubindex + 1) <
      queueWork s.dmaPushbuffer s.dmaPushbufferSubindex := by
    rw [queueWork, queueWork, hq, map_cons, sum_cons]
    omega
  have hrem := remaining_of_queue hr hq
  rw [queueWords_segment hpre hget] at hrem
  rw [processCommands_skip]
  refine ⟨rfl, ?_⟩
  split_ifs with hlast
  · rw [queueWords_done hpre hlast] at hrem
    have h := processCommands_processed ch list.commandLists[s.dmaPushbufferSubindex].words 0
      { s with
        pendingAcquire := false
        dmaPushbuffer := lists
        dmaPushbufferSubindex := 0
        dmaState.dmaGet := list.commandLists[s.dmaPushbufferSubindex].addr } hready hr
    have hwork' : queueWork lists 0 < queueWork s.dmaPushbuffer s.dmaPushbufferSubindex := by
      rw [queueWork, queueWork, hq, map_cons, sum_cons]
      omega
    have hstep := h.stepped (s := s) rfl rfl rfl lists 0 hrem (.inl rfl) (.inl hwork')
    exact h.same_queue ▸ hstep
  · have h := processCommands_processed ch list.commandLists[s.dmaPushbufferSubindex].words 0
      { s with
        pendingAcquire := false
        dmaPushbuffer := list :: lists
        dmaPushbufferSubindex := s.dmaPushbufferSubindex + 1
        dmaState.dmaGet := list.commandLists[s.dmaPushbufferSubindex].addr } hready hr
    have hstep := h.stepped (s := s) rfl rfl rfl (list :: lists) (s.dmaPushbufferSubindex + 1) hrem
      (.inr ⟨list, lists, rfl, hpre, Nat.lt_of_not_le hlast⟩) (.inl hwork)
    exact h.same_queue ▸ hstep

variable (ch) in
/-- **A step** goes on with words from the front, or the channel is stopped or has nothing to read. -/
theorem step_spec (passes : Bool) (hready : s.Ready) (hok : s.QueueOk) :
    (s.step ch passes).1 = true ∧ Stepped ch s (s.step ch passes).2 ∨
      s.step ch passes = (false, s) ∧ s.pendingAcquire = true ∧ passes = false ∨
      s.step ch passes = (false, { s with pendingAcquire := false }) ∧ s.remaining = [] := by
  by_cases hp : s.pendingAcquire = true ∧ ¬ passes = true
  · right
    left
    rw [step, if_pos hp]
    exact ⟨rfl, hp.1, Bool.eq_false_iff.mpr hp.2⟩
  · by_cases hr : s.resumeCommands = []
    · cases hq : s.dmaPushbuffer with
      | nil =>
        right
        right
        rw [step, if_neg hp]
        rw [if_neg (not_not.mpr hr), hq]
        exact ⟨rfl, by rw [remaining, hr, hq]; rfl⟩
      | cons list lists =>
        left
        by_cases hpre : list.prefetchCommandList = []
        · by_cases hne : list.commandLists = []
          · exact step_empty passes hready hok hp hr hq ⟨hne, hpre⟩
          · exact step_segment passes hready hok hp hr hq hne hpre
        · exact step_prefetch passes hready hok hp hr hq hpre
    · exact .inl (step_resume passes hready hok hp hr)

/-! ### Runs -/

/-- The invariant of a run in which `stream` was pushed. -/
structure Holds (ch : Channel) (subchannels : ℕ → EngineTypes) (stream : List Word) (s : DmaPusher) : Prop where
  decoder : s.decoder = s.taken.foldl (Decoder.decodeWord ch.executionMask) (initial subchannels).decoder
  words : s.taken ++ s.remaining = stream
  queue : s.QueueOk

variable {subchannels : ℕ → EngineTypes} {stream : List Word}

theorem Holds.stepped (h : Holds ch subchannels stream s) (hs : Stepped ch s s') : Holds ch subchannels stream s' := by
  obtain ⟨now, hrem, htaken, hdecoder⟩ := hs.decodes
  refine ⟨?_, ?_, hs.queue⟩
  · rw [hdecoder, h.decoder, htaken, foldl_append]
  · rw [htaken, append_assoc, ← hrem, h.words]

theorem Holds.dispatchLoop : ∀ (retries : List Bool) {s : DmaPusher}, s.Ready → Holds ch subchannels stream s →
    Holds ch subchannels stream (dispatchLoop ch retries s)
  | [], _, _, h => h
  | passes :: retries, s, hready, h => by
    rw [DmaPusher.dispatchLoop]
    rcases step_spec ch passes hready h.queue with ⟨hmore, hs⟩ | ⟨he, -, -⟩ | ⟨he, -⟩
    · dsimp only
      rw [if_pos hmore]
      exact Holds.dispatchLoop retries hs.ready (h.stepped hs)
    · rw [he]
      exact h
    · rw [he]
      exact ⟨h.decoder, h.words, h.queue⟩

variable (ch) in
/-- A dispatch that is never refused comes to the end of the words. -/
theorem dispatchLoop_drains (n : ℕ) : ∀ {s : DmaPusher}, s.Ready → s.QueueOk → s.work < n →
    (dispatchLoop ch (List.replicate n true) s).remaining = [] := by
  induction n with
  | zero => exact fun _ _ h => absurd h (Nat.not_lt_zero _)
  | succ n ih =>
    intro s hready hok hwork
    rw [replicate_succ, DmaPusher.dispatchLoop]
    rcases step_spec ch true hready hok with ⟨hmore, hs⟩ | ⟨-, -, h⟩ | ⟨he, hrem⟩
    · dsimp only
      rw [if_pos hmore]
      have := hs.work
      exact ih hs.ready hs.queue (by omega)
    · cases h
    · rw [he]
      exact hrem

theorem Holds.apply (h : Holds ch subchannels stream s) (e : Event) :
    Holds ch subchannels (stream ++ e.words) (s.apply ch e) := by
  cases e with
  | push list =>
    refine ⟨h.decoder, ?_, ?_⟩
    · have hrem : (s.push list).remaining = s.remaining ++ list.words := by
        rw [remaining, remaining, append_assoc, ← queueWords_push h.queue]
        rfl
      calc (s.push list).taken ++ (s.push list).remaining
          = (s.taken ++ s.remaining) ++ list.words := by rw [hrem, ← append_assoc]; rfl
        _ = stream ++ list.words := by rw [h.words]
    · rcases h.queue with h0 | ⟨first, lists, hq, hpre, hlt⟩
      · exact .inl h0
      · exact .inr ⟨first, lists ++ [list], congrArg (· ++ [list]) hq, hpre, hlt⟩
  | dispatchCalls retries =>
    rw [Event.words, append_nil]
    exact Holds.dispatchLoop retries (fun _ => rfl) ⟨h.decoder, h.words, h.queue⟩
  | retryAcquire passes =>
    rw [Event.words, append_nil]
    exact ⟨h.decoder, h.words, h.queue⟩

theorem Holds.run : ∀ (events : List Event) {stream : List Word} {s : DmaPusher}, Holds ch subchannels stream s →
    Holds ch subchannels (stream ++ events.flatMap Event.words) (events.foldl (DmaPusher.apply ch) s)
  | [], _, _, h => by rwa [flatMap_nil, append_nil]
  | e :: events, stream, s, h => by
    rw [flatMap_cons, ← append_assoc, foldl_cons]
    exact Holds.run events (h.apply e)

theorem initial_holds : Holds ch subchannels [] (initial subchannels) := ⟨rfl, rfl, .inl rfl⟩

/-! ### In one piece -/

section

variable (hch : ∀ calls, ch.acquires calls = false) (hp : s.pendingAcquire = false)
include hch hp

theorem received_runs (r : Receiver) :
    (s.received ch r).pendingAcquire = false := by
  rw [received, hp, hch, Bool.or_false]

theorem callMethod_runs (argument : Word) :
    (s.callMethod ch argument).pendingAcquire = false := by
  unfold callMethod
  dsimp only
  split_ifs
  · exact received_runs hch hp _
  · exact hp
  · exact received_runs (s := s.enterSegment) hch hp _

theorem callMultiMethod_runs (words : List Word) : (s.callMultiMethod ch words).pendingAcquire = false := by
  unfold callMultiMethod
  dsimp only
  split_ifs
  · exact received_runs hch hp _
  · exact received_runs (s := s.enterSegment) hch hp _

theorem processHeader_runs (header : Word) :
    (s.processHeader ch header).pendingAcquire = false := by
  unfold processHeader
  cases CommandHeader.mode header with
  | inline => exact callMethod_runs hch (s := { s with
      dmaState.method := CommandHeader.method header
      dmaState.subchannel := CommandHeader.subchannel header
      dmaState.dmaWordOffset := (2 ^ 64 - s.dmaState.dmaGet) % 2 ^ 64 }) hp _
  | increasing | nonIncreasing | increaseOnce => exact hp
  | increasingOld | nonIncreasingOld | other bits => exact hp

end

variable (ch) in
/-- Where no call stops the channel the loop comes to the end of its words. -/
theorem processCommands_runs (hch : ∀ calls, ch.acquires calls = false) (commands : List Word) (index : ℕ)
    (s : DmaPusher) (hp : s.pendingAcquire = false) : (processCommands ch commands index s).pendingAcquire = false := by
  induction commands, index, s using processCommands.induct ch with
  | case1 index s => rwa [processCommands]
  | case2 index s command rest hpending =>
    rw [hp] at hpending
    cases hpending
  | case3 index s command rest hpending hc s' hn count now ih =>
    rw [processCommands, if_neg hpending, if_pos hc, if_pos hn]
    exact ih (callMultiMethod_runs (s := s'.taking now) hch hp now)
  | case4 index s command rest hpending hc s' hn ih =>
    rw [processCommands, if_neg hpending, if_pos hc, if_neg hn]
    exact ih (callMethod_runs (s := { s'.taking [command] with
      dmaState.isLastCall := decide (s'.dmaState.methodCount ≤ 1) }) hch hp command)
  | case5 index s command rest hpending hc ih =>
    rw [processCommands, if_neg hpending, if_neg hc]
    exact ih (processHeader_runs (s := s.taking [command]) hch hp command)

/-- The whole stream is taken, and decoded as the decoder does. -/
theorem decodeWhole_spec (mask : EngineTypes → ℕ → Bool) (subchannels : ℕ → EngineTypes) (words : List Word) :
    (decodeWhole mask subchannels words).taken = words ∧
      (decodeWhole mask subchannels words).decoder = words.foldl (Decoder.decodeWord mask) (initial subchannels).decoder := by
  have h := processCommands_processed ⟨mask, fun _ => false⟩ words 0
    { initial subchannels with dmaState.isLastCall := true } (fun _ => rfl) rfl
  have hruns := processCommands_runs ⟨mask, fun _ => false⟩ (fun _ => rfl) words 0
    { initial subchannels with dmaState.isLastCall := true } rfl
  obtain ⟨now, hnow, hd⟩ := h.decodes
  have hresume : (decodeWhole mask subchannels words).resumeCommands = [] := by
    by_contra hne
    have := h.stopped hne
    rw [hruns] at this
    cases this
  have hwords : words = now := by
    rw [decodeWhole] at hresume
    rw [hresume, append_nil] at hnow
    exact hnow
  rw [← hwords] at hd
  exact ⟨hd.taken, hd.decoder⟩

/-- **How the stream is cut and where the channel stops makes no difference.** After any
pushes, dispatches and retries the words taken are a prefix of the words pushed, each once and
in order, and the puller and the engines got what that prefix gives them in one piece. Once the
acquires pass, a dispatch takes the rest. -/
theorem run_uncut (ch : Channel) (subchannels : ℕ → EngineTypes) (events : List Event) :
    let s := events.foldl (apply ch) (initial subchannels)
    let stream := events.flatMap Event.words
    s.taken ++ s.remaining = stream ∧
      s.receiver = (decodeWhole ch.executionMask subchannels s.taken).receiver ∧
      (decodeWhole ch.executionMask subchannels stream).taken = stream ∧
      (s.remaining = [] → s.receiver.calls = (decodeWhole ch.executionMask subchannels stream).receiver.calls) ∧
      ∃ n, (s.dispatchCalls ch (List.replicate n true)).remaining = [] ∧
        (s.dispatchCalls ch (List.replicate n true)).receiver.calls =
          (decodeWhole ch.executionMask subchannels stream).receiver.calls := by
  intro s stream
  have h : Holds ch subchannels stream s := by
    have : Holds ch subchannels ([] ++ stream) s := initial_holds.run events
    rwa [nil_append] at this
  have hreceiver : ∀ {t : DmaPusher}, Holds ch subchannels stream t →
      t.receiver = (decodeWhole ch.executionMask subchannels t.taken).receiver := by
    intro t ht
    have := congrArg Decoder.receiver (ht.decoder.trans (decodeWhole_spec ch.executionMask subchannels t.taken).2.symm)
    exact this
  have hdone : ∀ {t : DmaPusher}, Holds ch subchannels stream t → t.remaining = [] →
      t.receiver.calls = (decodeWhole ch.executionMask subchannels stream).receiver.calls := by
    intro t ht hrem
    have hw := ht.words
    rw [hrem, append_nil] at hw
    rw [hreceiver ht, hw]
  have hdispatch : ∀ retries, Holds ch subchannels stream (s.dispatchCalls ch retries) := by
    intro retries
    have := h.apply (.dispatchCalls retries)
    rwa [Event.words, append_nil] at this
  refine ⟨h.words, hreceiver h, (decodeWhole_spec _ _ _).1, hdone h, ?_⟩
  have hdrains := dispatchLoop_drains ch (s.work + 1) (s := { s with dmaState.isLastCall := true })
    (fun _ => rfl) h.queue (Nat.lt_succ_self _)
  exact ⟨s.work + 1, hdrains, hdone (hdispatch _) hdrains⟩

end DmaPusher
end Tegra
end Citron
