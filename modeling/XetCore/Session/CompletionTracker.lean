import XetCore.Dedup.Structures

/-! # The completion tracker

Files register the bytes they need from xorbs. Bytes of stored or completed xorbs are
done at once, the others when their xorb is reported as completed, with estimates on
the way.
-/
namespace XetCore.Session
open Dedup

variable {H : Type}

structure XorbDependency where
  fileIndices : Finset ℕ := ∅
  completedBytes : ℕ := 0
  xorbSize : ℕ := 0
  isCompleted : Bool := false

structure XorbPartCompletionStats where
  completedBytes : ℕ := 0
  nBytes : ℕ := 0

structure FileDependency (H : Type) where
  totalBytes : ℕ
  isFinalSizeKnown : Bool
  completedBytes : ℕ := 0
  remainingXorbsParts : H → Option XorbPartCompletionStats := fun _ => none

/-- The part of a file in a xorb, or the default of one that is not there. -/
def FileDependency.part (f : FileDependency H) (xorbHash : H) : XorbPartCompletionStats :=
  (f.remainingXorbsParts xorbHash).getD {}

structure CompletionTracker (H : Type) where
  files : List (FileDependency H) := []
  xorbs : H → XorbDependency := fun _ => {}
  totalUploadBytes : ℕ := 0
  totalUploadBytesCompleted : ℕ := 0
  totalBytes : ℕ := 0
  totalBytesCompleted : ℕ := 0

/-- The estimate for a part, from its bytes, the uploaded bytes of the xorb and the size of the
xorb. It is computed in floating point. -/
abbrev Share := ℕ → ℕ → ℕ → ℕ

namespace CompletionTracker

def registerNewFile (t : CompletionTracker H) (nBytes : Option ℕ) : ℕ × CompletionTracker H :=
  let file : FileDependency H := { totalBytes := nBytes.getD 0, isFinalSizeKnown := nBytes.isSome }
  (t.files.length,{ t with files := t.files ++ [file], totalBytes := t.totalBytes + nBytes.getD 0 })

def incrementFileSize (t : CompletionTracker H) (fileId sizeIncrement : ℕ) : CompletionTracker H :=
  if t.files[fileId]?.any (·.isFinalSizeKnown) then t
  else
    { t with
      files := t.files.modify fileId fun f => { f with totalBytes := f.totalBytes + sizeIncrement }
      totalBytes := t.totalBytes + sizeIncrement }

section Xorbs
variable [DecidableEq H]
variable (t : CompletionTracker H)

/-- The bytes of one dependency are done, or they wait for their xorb. -/
def registerDependency (dep : FileXorbDependency H) : CompletionTracker H :=
  let complete : CompletionTracker H :=
    { t with
      files := t.files.modify dep.fileId fun f =>
        { f with completedBytes := f.completedBytes + dep.nBytes }
      totalBytesCompleted := t.totalBytesCompleted + dep.nBytes }
  if dep.isExternal then complete
  else if (t.xorbs dep.xorbHash).isCompleted then complete
  else
    let entry := t.xorbs dep.xorbHash
    { t with
      xorbs := Function.update t.xorbs dep.xorbHash
        { entry with fileIndices := insert dep.fileId entry.fileIndices }
      files := t.files.modify dep.fileId fun f =>
        let part := f.part dep.xorbHash
        { f with
          remainingXorbsParts := Function.update f.remainingXorbsParts dep.xorbHash
            (some { part with nBytes := part.nBytes + dep.nBytes }) } }

def registerDependencies (dependencies : List (FileXorbDependency H)) : CompletionTracker H :=
  dependencies.foldl registerDependency t

variable (xorbHash : H)

def registerNewXorb (xorbSize : ℕ) : Bool × CompletionTracker H :=
  let entry := t.xorbs xorbHash
  if entry.xorbSize = 0 then
    (true,{ t with
      xorbs := Function.update t.xorbs xorbHash { entry with xorbSize := xorbSize }
      totalUploadBytes := t.totalUploadBytes + xorbSize })
  else (false,t)

/-- The bytes of a file that its part of a completed xorb still lacks. -/
def remainingBytes (f : FileDependency H) : ℕ :=
  (f.part xorbHash).nBytes - (f.part xorbHash).completedBytes

def completePart (f : FileDependency H) : FileDependency H :=
  { f with
    remainingXorbsParts := Function.update f.remainingXorbsParts xorbHash none
    completedBytes := f.completedBytes + remainingBytes xorbHash f }

def modifyFiles (indices : Finset ℕ) (change : FileDependency H → FileDependency H)
    (files : List (FileDependency H)) :
    List (FileDependency H) :=
  files.mapIdx fun i f => if i ∈ indices then change f else f

def sumFiles (indices : Finset ℕ) (bytes : FileDependency H → ℕ) (files : List (FileDependency H)) : ℕ :=
  (files.mapIdx fun i f => if i ∈ indices then bytes f else 0).sum

def registerXorbUploadCompletion : CompletionTracker H :=
  let entry := t.xorbs xorbHash
  if entry.isCompleted then t
  else
    { t with
      xorbs := Function.update t.xorbs xorbHash { entry with isCompleted := true, fileIndices := ∅ }
      files := modifyFiles entry.fileIndices (completePart xorbHash) t.files
      totalUploadBytesCompleted := t.totalUploadBytesCompleted + (entry.xorbSize - entry.completedBytes)
      totalBytesCompleted := t.totalBytesCompleted + sumFiles entry.fileIndices
        (remainingBytes xorbHash) t.files }

def incrementalUpdate (share : Share) (xorbHash : H) (completedBytes xorbSize : ℕ)
    (f : FileDependency H) : ℕ :=
  match f.remainingXorbsParts xorbHash with
  | none => 0
  | some part => share part.nBytes completedBytes xorbSize - part.completedBytes

def advancePart (share : Share) (xorbHash : H) (completedBytes xorbSize : ℕ)
    (f : FileDependency H) : FileDependency H :=
  let update := incrementalUpdate share xorbHash completedBytes xorbSize f
  { f with
    remainingXorbsParts := Function.update f.remainingXorbsParts xorbHash <|
      (f.remainingXorbsParts xorbHash).map fun part =>
        { part with completedBytes := part.completedBytes + update }
    completedBytes := f.completedBytes + update }

def registerXorbUploadProgress (share : Share) (t : CompletionTracker H) (xorbHash : H)
    (newByteProgress : ℕ) (checkOrdering : Bool) : CompletionTracker H :=
  let entry := t.xorbs xorbHash
  if !checkOrdering && entry.isCompleted then t
  else
    let completedBytes := entry.completedBytes + newByteProgress
    { t with
      xorbs := Function.update t.xorbs xorbHash { entry with completedBytes := completedBytes }
      files := modifyFiles entry.fileIndices
        (advancePart share xorbHash completedBytes entry.xorbSize) t.files
      totalUploadBytesCompleted := t.totalUploadBytesCompleted + newByteProgress
      totalBytesCompleted := t.totalBytesCompleted +
        sumFiles entry.fileIndices
          (incrementalUpdate share xorbHash completedBytes entry.xorbSize) t.files }

end Xorbs
end CompletionTracker

inductive TrackerEvent (H : Type) where
  | newFile (nBytes : Option ℕ)
  | fileSize (fileId sizeIncrement : ℕ)
  | dependencies (deps : List (FileXorbDependency H))
  | newXorb (xorbHash : H) (xorbSize : ℕ)
  | progress (xorbHash : H) (newByteProgress : ℕ) (checkOrdering : Bool)
  | completion (xorbHash : H)

def TrackerEvent.deps : TrackerEvent H → List (FileXorbDependency H)
  | .dependencies deps => deps
  | _ => []

namespace CompletionTracker
variable [DecidableEq H] (share : Share)
variable (t : CompletionTracker H)

def apply : TrackerEvent H → CompletionTracker H
  | .newFile nBytes => (t.registerNewFile nBytes).2
  | .fileSize fileId sizeIncrement => t.incrementFileSize fileId sizeIncrement
  | .dependencies deps => t.registerDependencies deps
  | .newXorb xorbHash xorbSize => (t.registerNewXorb xorbHash xorbSize).2
  | .progress xorbHash newByteProgress checkOrdering =>
    t.registerXorbUploadProgress share xorbHash newByteProgress checkOrdering
  | .completion xorbHash => t.registerXorbUploadCompletion xorbHash

def applyAll (events : List (TrackerEvent H)) : CompletionTracker H :=
  events.foldl (apply share) t

/-- Dependencies are of known files, and no more of a xorb is uploaded than it has. -/
def EventOk : TrackerEvent H → Prop
  | .dependencies deps => ∀ dep ∈ deps, dep.fileId < t.files.length
  | .progress xorbHash newByteProgress _ =>
    (t.xorbs xorbHash).completedBytes + newByteProgress ≤ (t.xorbs xorbHash).xorbSize
  | _ => True

def EventsOk : CompletionTracker H → List (TrackerEvent H) → Prop
  | _, [] => True
  | t, e :: es => t.EventOk e ∧ EventsOk (apply share t e) es

end CompletionTracker

end XetCore.Session
