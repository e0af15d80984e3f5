import XetCore.Lib.Interval
import XetCore.Reconstruction.FileTerms

/-! # Fetching the terms of a file ahead of time

The manager plans ranges of the file one after the other and starts a task for each of them.
A task asks for the terms of its range and tells the others when it learns where the file
ends. The tasks may finish between any two accesses of the manager to the shared position.
-/
namespace XetCore.Reconstruction
open Intervals

/-- Arithmetic of floating-point numbers, of which nothing is assumed. -/
structure FloatOps (F : Type) where
  mul : F → F → F
  sub : F → F → F
  max : F → F → F
  le : F → F → Bool
  ofU64 : ℕ → F
  toU64 : F → ℕ

structure ReconstructionConfig (F : Type) where
  minReconstructionFetchSize : ℕ
  maxReconstructionFetchSize : ℕ
  minPrefetchBuffer : ℕ
  targetBlockCompletionTime : F

def clamp (n low high : ℕ) : ℕ := if n < low then low else if high < n then high else n

variable {H F : Type}

/-- A spawned task. Its result is the terms of its range, or none past the end of the file. -/
structure PrefetchTask (H : Type) where
  range : FileRange
  result : Option (Option (List (FileTerm H))) := none

structure TermManager (H : Type) where
  requestedByteRange : FileRange
  knownFinalBytePosition : ℕ
  prefetchedBytePosition : ℕ
  currentActiveBytePosition : ℕ
  prefetchQueue : List (PrefetchTask H)

/-- The state of the estimator when a call looks at it, and the running tasks, by their places in
the queue, that finish before the call looks whether fetching is done, before it plans a block, and
before it takes the next result. -/
structure CallSchedule (F : Type) where
  completionRate : F
  beforeCheck : List ℕ := []
  beforePlan : List ℕ := []
  beforeResult : List ℕ := []

/-- The end of a file is stored by the task whose range it cuts, and a task past the end lowers the
position. -/
def PrefetchTask.finish (retrieve : FileRange → Option (FileRange × List (FileTerm H)))
    (knownFinalBytePosition : ℕ) (t : PrefetchTask H) : ℕ × PrefetchTask H :=
  match t.result with
  | some _ => (knownFinalBytePosition,t)
  | none =>
    match retrieve t.range with
    | some (returnedRange,fileTerms) =>
      (if returnedRange.stop < t.range.stop then returnedRange.stop else knownFinalBytePosition,
        { t with result := some (some fileTerms) })
    | none => (min knownFinalBytePosition t.range.start,{ t with result := some none })

namespace TermManager
variable (retrieve : FileRange → Option (FileRange × List (FileTerm H))) (ops : FloatOps F)
  (config : ReconstructionConfig F) (m : TermManager H)

def finishTask (i : ℕ) : TermManager H :=
  match m.prefetchQueue[i]? with
  | none => m
  | some t =>
    { m with
      knownFinalBytePosition := (t.finish retrieve m.knownFinalBytePosition).1
      prefetchQueue := m.prefetchQueue.set i (t.finish retrieve m.knownFinalBytePosition).2 }

def finishTasks (tasks : List ℕ) : TermManager H := tasks.foldl (finishTask retrieve) m

/-- The end of the next block: not past the known end, and the end of the requested range if little
is left behind it. -/
def blockEnd (blockSize : ℕ) : ℕ :=
  let stop := m.prefetchedBytePosition +
    clamp blockSize config.minReconstructionFetchSize config.maxReconstructionFetchSize
  let lastBytePosition := min m.knownFinalBytePosition m.requestedByteRange.stop
  let stop := if lastBytePosition < stop then lastBytePosition else stop
  if m.requestedByteRange.stop < stop + config.minReconstructionFetchSize then
    m.requestedByteRange.stop else stop

def prefetchBlock (blockSize : ℕ) : TermManager H :=
  if m.blockEnd config blockSize ≤ m.prefetchedBytePosition then m
  else
    { m with
      prefetchedBytePosition := m.blockEnd config blockSize
      prefetchQueue := m.prefetchQueue ++
        [{ range := ⟨m.prefetchedBytePosition,m.blockEnd config blockSize⟩ }] }

def new (requestedByteRange : FileRange) (between : List ℕ) : TermManager H :=
  let m : TermManager H :=
    { requestedByteRange
      knownFinalBytePosition := requestedByteRange.stop
      prefetchedBytePosition := requestedByteRange.start
      currentActiveBytePosition := requestedByteRange.start
      prefetchQueue := [] }
  ((m.prefetchBlock config config.minReconstructionFetchSize).finishTasks retrieve
    between).prefetchBlock config
    (2 * config.minReconstructionFetchSize)

def isDoneFetching : Bool := m.knownFinalBytePosition ≤ m.prefetchedBytePosition

/-- The size of the block to fetch next, if the buffer is not large enough. -/
def nextBlockSize (completionRate : F) : Option ℕ :=
  let prefetchBufferTargetSize := ops.mul config.targetBlockCompletionTime completionRate
  let prefetchBufferSize := ops.max prefetchBufferTargetSize (ops.ofU64 config.minPrefetchBuffer)
  let currentPrefetchBufferSize := ops.ofU64 (m.prefetchedBytePosition - m.currentActiveBytePosition)
  if !m.prefetchQueue.isEmpty && ops.le prefetchBufferSize currentPrefetchBufferSize then none
  else
    some (clamp (ops.toU64 (ops.sub prefetchBufferSize currentPrefetchBufferSize))
      config.minReconstructionFetchSize
      (max config.maxReconstructionFetchSize config.minReconstructionFetchSize))

def checkPrefetchBuffer (call : CallSchedule F) : TermManager H :=
  if m.isDoneFetching then m
  else
    match m.nextBlockSize ops config call.completionRate with
    | none => m
    | some blockSize => (m.finishTasks retrieve call.beforePlan).prefetchBlock config blockSize

/-- Takes the result of the first task, which has to finish for that. -/
def takeNext : TermManager H × Option (List (FileTerm H)) :=
  match m.prefetchQueue with
  | [] => (m,none)
  | t :: rest =>
    match (t.finish retrieve m.knownFinalBytePosition).2.result with
    | some (some fileTerms) =>
      ({ m with
        knownFinalBytePosition := (t.finish retrieve m.knownFinalBytePosition).1
        currentActiveBytePosition := (fileTerms.getLast?.map (·.byteRange.stop)).getD 0
        prefetchQueue := rest },some fileTerms)
    | _ => ({ m with knownFinalBytePosition := m.prefetchedBytePosition, prefetchQueue := rest },none)

def nextFileTerms (call : CallSchedule F) : TermManager H × Option (List (FileTerm H)) :=
  (((m.finishTasks retrieve call.beforeCheck).checkPrefetchBuffer retrieve ops config
    call).finishTasks retrieve
    call.beforeResult).takeNext retrieve

def afterCalls (calls : ℕ → CallSchedule F) : ℕ → TermManager H
  | 0 => m
  | n + 1 => ((afterCalls calls n).nextFileTerms retrieve ops config (calls n)).1

def returned (calls : ℕ → CallSchedule F) (n : ℕ) : Option (List (FileTerm H)) :=
  ((m.afterCalls retrieve ops config calls n).nextFileTerms retrieve ops config (calls n)).2

end TermManager
end XetCore.Reconstruction
