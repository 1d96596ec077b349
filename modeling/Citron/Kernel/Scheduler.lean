/-
# The highest priority thread of each core

`KScheduler::UpdateHighestPriorityThreadsImpl` records the front of each core's scheduled
queue and then migrates threads to the cores that are idle. The counts and ticks that are
kept of the threads, and the wake-up of dummy threads at the end, are not modelled. The
log, which the source does not keep, has what the loop over the idle cores did.
-/
import Citron.Kernel.PriorityInheritance
import Citron.Kernel.PriorityQueue
import Citron.Kernel.PageBitmap
import Citron.Lib.Loop

namespace Citron
namespace Kernel

/-- `Core::Hardware::NUM_CPU_CORES`. -/
def NumCpuCores : ℕ := 4

def HighestCoreMigrationAllowedPriority : ℕ := 2

/-- What the loop over the idle cores does: a thread is moved to a core, or the search for a core ends
at a suggested thread because of the top thread of that thread's core. -/
inductive SearchEvent
  | migrate (thread : ThreadId) (prevCore core : ℤ)
  | stop (core : ℤ) (suggested topThread : ThreadId)
deriving DecidableEq, Repr

/-- The threads, the priority queue and the state of each core's scheduler. -/
structure SchedulerContext where
  members : QueueMembers ThreadId
  /-- The pinned thread of a thread's process on a core; none if the thread has no process. -/
  pinnedThread : ThreadId → ℤ → Option ThreadId
  numKernelWaiters : ThreadId → ℤ
  isRunnable : ThreadId → Bool
  queue : KPriorityQueue ThreadId
  highestPriorityThread : ℤ → Option ThreadId
  needsScheduling : ℤ → Bool

/-- The locals of `UpdateHighestPriorityThreadsImpl`. -/
structure SearchState where
  context : SchedulerContext
  topThreads : ℤ → Option ThreadId
  coresNeedingScheduling : BitVec 64
  idleCores : BitVec 64
  log : List SearchEvent

/-- The mask `1ULL << core_id`. -/
def coreMask (coreId : ℤ) : BitVec 64 := (1 : BitVec 64) <<< coreId.toNat

/-- `UpdateHighestPriorityThread` of a core. -/
def SchedulerContext.updateHighestPriorityThread (s : SchedulerContext) (coreId : ℤ)
    (highestThread : Option ThreadId) : BitVec 64 × SchedulerContext :=
  if s.highestPriorityThread coreId ≠ highestThread then
    (coreMask coreId, { s with
      highestPriorityThread := Function.update s.highestPriorityThread coreId highestThread
      needsScheduling := Function.update s.needsScheduling coreId true })
  else (0, s)

/-- The top thread of a core, with the pinned thread of its process in mind. -/
def SchedulerContext.selectTopThread (s : SchedulerContext) (coreId : ℤ) : Option ThreadId :=
  match s.queue.getScheduledFront coreId with
  | none => none
  | some topThread =>
    match s.pinnedThread topThread coreId with
    | none => some topThread
    | some pinned =>
      if pinned ≠ topThread ∧ s.numKernelWaiters topThread = 0 then
        if s.isRunnable pinned then some pinned else none
      else some topThread

namespace SearchState

/-- Set the local top thread of a core and record it. -/
def setTopThread (s : SearchState) (coreId : ℤ) (topThread : Option ThreadId) : SearchState :=
  let (mask, context) := s.context.updateHighestPriorityThread coreId topThread
  { s with
    context := context
    topThreads := Function.update s.topThreads coreId topThread
    coresNeedingScheduling := s.coresNeedingScheduling ||| mask }

/-- The body of the loop over all cores. -/
def findTopThread (s : SearchState) (coreId : ℤ) : SearchState :=
  let s' := s.setTopThread coreId (s.context.selectTopThread coreId)
  if (s.context.queue.getScheduledFront coreId).isSome then s'
  else { s' with idleCores := s'.idleCores ||| coreMask coreId }

/-- Move a suggested thread to a core, and make it the top thread there. -/
def migrate (s : SearchState) (coreId prevCore : ℤ) (suggested : ThreadId) : Except SchedulerFault SearchState := do
  let members := s.context.members.setActiveCore suggested coreId
  let queue ← s.context.queue.changeCore members prevCore suggested false
  let s := { s with
    context := { s.context with members := members, queue := queue }
    log := s.log ++ [SearchEvent.migrate suggested prevCore coreId] }
  .ok (s.setTopThread coreId (some suggested))

/-- The loop over the threads suggested for a core, with the room left for candidates. Gives the thread
that it ended at, and the candidates. -/
def searchSuggested (coreId : ℤ) : ℕ → Option ThreadId → List ℤ → SearchState →
    Except SchedulerFault (Option ThreadId × List ℤ × SearchState)
  | _, none, candidates, s => .ok (none, candidates, s)
  | room, some suggested, candidates, s =>
    let suggestedCore := s.context.members.activeCore suggested
    let topThread := if suggestedCore ≥ 0 then s.topThreads suggestedCore else none
    if topThread ≠ some suggested then
      match topThread with
      | some top =>
        if s.context.members.priority top < HighestCoreMigrationAllowedPriority then
          .ok (some suggested, candidates, { s with log := s.log ++ [SearchEvent.stop coreId suggested top] })
        else do
          let s ← s.migrate coreId suggestedCore suggested
          .ok (some suggested, candidates, s)
      | none => do
        let s ← s.migrate coreId suggestedCore suggested
        .ok (some suggested, candidates, s)
    else
      match room with
      | 0 => .error .candidatesFull
      | room + 1 => do
        let next ← s.context.queue.getSuggestedNext s.context.members coreId suggested
        searchSuggested coreId room next (candidates ++ [suggestedCore]) s

/-- The loop over the candidate cores, which takes the top thread of the first one that has another. -/
def tryCandidates (coreId : ℤ) : List ℤ → SearchState → Except SchedulerFault SearchState
  | [], s => .ok s
  | candidateCore :: candidates, s =>
    match s.topThreads candidateCore with
    | none => .error .nullThread
    | some suggested => do
      let next ← s.context.queue.getScheduledNext s.context.members candidateCore suggested
      match next with
      | some nextOnCandidateCore =>
        (s.setTopThread candidateCore (some nextOnCandidateCore)).migrate coreId candidateCore suggested
      | none => tryCandidates coreId candidates s

/-- The body of the loop over the idle cores. -/
def fillIdleCore (s : SearchState) : Except SchedulerFault SearchState := do
  let coreId : ℤ := countrZero s.idleCores
  let (suggested, candidates, s) ←
    searchSuggested coreId NumCpuCores (s.context.queue.getSuggestedFront coreId) [] s
  let s ← (if suggested = none then tryCandidates coreId candidates s else .ok s)
  .ok { s with idleCores := s.idleCores &&& ~~~coreMask coreId }

end SearchState

/-- `UpdateHighestPriorityThreadsImpl`: the cores that need scheduling, and the context with the log. -/
def SchedulerContext.updateHighestPriorityThreadsImpl (s : SchedulerContext) :
    Except SchedulerFault (BitVec 64 × SchedulerContext × List SearchEvent) := do
  let start : SearchState := ⟨s, fun _ => none, 0, 0, []⟩
  let found := (List.range NumCpuCores).foldl (fun s coreId => s.findTopThread coreId) start
  let final ← Lib.whileLoop .outOfFuel (fun s => s.idleCores != 0) SearchState.fillIdleCore 64 found
  .ok (final.coresNeedingScheduling, final.context, final.log)

end Kernel
end Citron
