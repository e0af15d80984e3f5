import XetCore.RangeUpload.WindowBuilder
import XetCore.Session.UploadSession

/-! # Uploading edits of a file

Edits are given in positions of the original file. The server answers with windows around
them, and the bytes of each window are uploaded with the edits applied. The hash of the
edited file is merged from subtrees, and its segments are composed from those of the
windows and the untouched ones.
-/
namespace XetCore.RangeUpload
open Merkle MerkleHashSubtree Chunking Dedup Intervals Reconstruction Session
open FileDeduper (XetFileInfo)

variable {H : Type}

structure DirtyInput where
  originalRange : FileRange
  reader : Bytes
  newLength : ℕ
deriving DecidableEq, Repr

structure UploadedWindow (H : Type) where
  start : ℕ
  stop : ℕ
  chunks : List (Node H)
  mdb : MDBFileInfo H

/-- What the upload relies on: the stored files, the answer of the server, and a cleaner for each
window, which gets the expected size and the bytes. -/
structure UploadClient (H : Type) where
  getFileReconstructionInfo : H → Option (MDBFileInfo H)
  getFileChunkHashes : H → List FileRange → Except (ClientError H) (FileChunkHashesResponse H)
  readRange : H → FileRange → Bytes
  clean : ℕ → ℕ → Bytes → List (Node H) × MDBFileInfo H

def validateFrom (originalSize : ℕ) : ℕ → ℕ → List DirtyInput → Except DataError Unit
  | _, _, [] => .ok ()
  | i, prevEnd, input :: inputs =>
    let start := input.originalRange.start
    let stop := input.originalRange.stop
    if start > stop then .error
      (.parameterError s!"dirty_inputs[{i}].original_range is reversed: {start}..{stop}")
    else if stop > originalSize then
      .error (.parameterError
        s!"dirty_inputs[{i}].original_range end ({stop}) exceeds original_size ({originalSize})")
    else if i > 0 ∧ start < prevEnd then
      .error (.parameterError
        s!"dirty_inputs[{i}].original_range overlaps the previous edit (starts at {start} < {prevEnd})")
    else validateFrom originalSize (i + 1) stop inputs

def validateDirtyRanges (dirtyInputs : List DirtyInput) (originalSize : ℕ) : Except DataError Unit :=
  validateFrom originalSize 0 0 dirtyInputs

def removedBytes (inputs : List DirtyInput) : ℕ :=
  (inputs.map fun d => d.originalRange.stop - d.originalRange.start).sum

def addedBytes (inputs : List DirtyInput) : ℕ := (inputs.map (·.newLength)).sum

def computeTotalSize (originalSize : ℕ) (dirtyInputs : List DirtyInput) : Except DataError ℕ :=
  let removed := removedBytes dirtyInputs
  let added := addedBytes dirtyInputs
  if originalSize + added < 2 ^ 64 ∧ removed ≤ originalSize + added then .ok
    (originalSize + added - removed)
  else .error (.parameterError
    s!"total size overflows: original_size={originalSize}, added={added}, removed={removed}")

section Snap

def segByteStartsFrom : ℕ → List (FileDataSequenceEntry H) → List ℕ
  | acc, [] => [acc]
  | acc, s :: segments => acc :: segByteStartsFrom (acc + s.unpackedSegmentBytes) segments

/-- The first byte of each segment, and the size of the file. -/
def segByteStarts (mdb : MDBFileInfo H) : List ℕ := segByteStartsFrom 0 mdb.segments

variable (segByteStarts : List ℕ)

/-- The partition point of an ordered list is the number of its leading elements below the bound. -/
def snapToSegmentStart (byte : ℕ) : ℕ :=
  segByteStarts.getD ((segByteStarts.takeWhile fun s => s ≤ byte).length - 1) 0

def snapToSegmentEnd (byte : ℕ) : ℕ :=
  segByteStarts.getD (segByteStarts.takeWhile fun s => s < byte).length 0

/-- An insert goes to the segment that owns its position, at the end of the file to the last one. -/
def snap (originalSize : ℕ) (input : DirtyInput) : FileRange :=
  let r := input.originalRange
  let nSegs := segByteStarts.length - 1
  if r.start = r.stop then
    if r.start = originalSize then ⟨segByteStarts.getD (nSegs - 1) 0,segByteStarts.getD nSegs 0⟩
    else ⟨snapToSegmentStart segByteStarts r.start,snapToSegmentEnd segByteStarts (r.start + 1)⟩
  else ⟨snapToSegmentStart segByteStarts r.start,snapToSegmentEnd segByteStarts r.stop⟩

def serverQuery (originalSize : ℕ) (dirtyInputs : List DirtyInput) : List FileRange :=
  coalesce (dirtyInputs.map (snap segByteStarts originalSize))

end Snap

/-- Whether an edit lands in a window, given that it is not in an earlier one. -/
def landsIn (originalSize : ℕ) (w : FileRange) (d : DirtyInput) : Bool :=
  let r := d.originalRange
  if r.start = r.stop then r.start < w.stop || (r.start == w.stop && w.stop == originalSize)
  else r.stop ≤ w.stop

def readInput (input : DirtyInput) : Except DataError Bytes :=
  let start := input.originalRange.start
  let stop := input.originalRange.stop
  if input.newLength ≤ input.reader.length then .ok (input.reader.take input.newLength)
  else .error (.internalError s!"failed to read dirty input [{start}, {stop}): early eof")

/-- What the cleaner of a window is fed with from the cursor on. -/
def windowData (readRange : FileRange → Bytes) (wEnd : ℕ) : ℕ → List DirtyInput → Except DataError Bytes
  | cursor, [] => .ok (if cursor < wEnd then readRange ⟨cursor,wEnd⟩ else [])
  | cursor, input :: inputs => do
    let before := if cursor < input.originalRange.start then readRange
      ⟨cursor,input.originalRange.start⟩ else []
    let new ← readInput input
    let rest ← windowData readRange wEnd input.originalRange.stop inputs
    return before ++ new ++ rest

def middleSize (w : FileRange) (windowEdits : List DirtyInput) : ℕ :=
  w.stop - w.start + addedBytes windowEdits - removedBytes windowEdits

/-- The uploaded windows, and the edits that are in none of them. -/
def uploadWindows (client : UploadClient H) (originalHash : H) (originalSize : ℕ) :
    ℕ → List FileRange → List DirtyInput → Except DataError (List (UploadedWindow H) × List DirtyInput)
  | _, [], inputs => .ok ([],inputs)
  | i, w :: windows, inputs => do
    let windowEdits := inputs.takeWhile (landsIn originalSize w)
    let data ← windowData (client.readRange originalHash) w.stop w.start windowEdits
    let r := client.clean i (middleSize w windowEdits) data
    let rest ← uploadWindows client originalHash originalSize (i + 1) windows
      (inputs.drop windowEdits.length)
    return (⟨w.start,w.stop,r.1,r.2⟩ :: rest.1,rest.2)

/-- The subtrees of the gaps and the windows in file order, without the empty gaps. -/
def mergeSequence (K : NodeHasher H) (hashRanges : List (Option (MerkleHashSubtree H)))
    (uploaded : List (UploadedWindow H)) : List (MerkleHashSubtree H) :=
  let trailingGap := hashRanges.getLast?.join
  let hashRanges := hashRanges.dropLast
  let firstWindowAtStart := hashRanges.head?.any (·.isNone)
  let lastWindowAtEnd := trailingGap.isNone
  let lastIdx := uploaded.length - 1
  ((uploaded.zip hashRanges).zipIdx.flatMap fun p =>
    p.1.2.toList ++ [fromChunks K (p.2 == 0 && firstWindowAtStart) p.1.1.chunks
      (p.2 == lastIdx && lastWindowAtEnd)]) ++
    trailingGap.toList

def combinedHash (K : NodeHasher H) (hashRanges : List (Option (MerkleHashSubtree H)))
    (uploaded : List (UploadedWindow H)) (totalSize : ℕ) : Except DataError H :=
  match merge K (mergeSequence K hashRanges uploaded) with
  | .error _ => .error (.internalError "MerkleHashSubtree::merge failed")
  | .ok merged =>
    match finalHash K merged with
    | none => .error (.internalError "merged subtree is not fully closed; cannot derive final hash")
    | some aggregatedHash => .ok (if totalSize = 0 then K.default else K.hmac aggregatedHash K.default)

/-- The segments from `segIdx` on with their byte ranges, and the verification hashes from `gapIdx`
on. -/
structure ComposeState (H : Type) where
  allSegments : List (FileDataSequenceEntry H) := []
  allVerification : List H := []
  segIdx : ℕ := 0
  segments : List (FileRange × FileDataSequenceEntry H)
  gapIdx : ℕ := 0
  gapVerification : List H

def segmentRanges : ℕ → List (FileDataSequenceEntry H) → List (FileRange × FileDataSequenceEntry H)
  | _, [] => []
  | acc, s :: segments =>
    (⟨acc,acc + s.unpackedSegmentBytes⟩,s) :: segmentRanges (acc + s.unpackedSegmentBytes) segments

namespace ComposeState

/-- A stable segment takes the next verification hash. -/
def pushStable (segment : FileDataSequenceEntry H) (segments : List (FileRange × FileDataSequenceEntry H))
    (s : ComposeState H) : Except DataError (ComposeState H) :=
  match s.gapVerification with
  | [] =>
    let segIdx := s.segIdx
    .error (.internalError (s!"ran out of gap_verification entries at stable segment {segIdx}; " ++
      "server response is inconsistent with the segment layout"))
  | entry :: gapVerification => .ok
    { allSegments := s.allSegments ++ [segment]
      allVerification := s.allVerification ++ [entry]
      segIdx := s.segIdx + 1
      segments := segments
      gapIdx := s.gapIdx + 1
      gapVerification := gapVerification }

def pushBefore (wStart : ℕ) : List (FileRange × FileDataSequenceEntry H) → ComposeState H →
    Except DataError (ComposeState H)
  | [], s => .ok s
  | (r,segment) :: segments, s =>
    if r.start < wStart then
      if r.stop > wStart then
        let segIdx := s.segIdx
        let start := r.start
        let stop := r.stop
        .error (.internalError
          (s!"server returned a window starting at {wStart} that straddles segment {segIdx} " ++
            s!"({start}..{stop}); composition requires segment-aligned windows"))
      else do
        let s ← s.pushStable segment segments
        pushBefore wStart segments s
    else .ok s

/-- The segments that start before the end of a window. -/
def skipCovered (wEnd : ℕ) (s : ComposeState H) : ComposeState H :=
  { s with
    segIdx := s.segIdx + (s.segments.takeWhile fun p => p.1.start < wEnd).length
    segments := s.segments.dropWhile fun p => p.1.start < wEnd }

def pushWindow (s : ComposeState H) (w : UploadedWindow H) : Except DataError (ComposeState H) := do
  let s ← pushBefore w.start s.segments s
  let s := s.skipCovered w.stop
  let n := w.mdb.segments.length
  let m := w.mdb.verification.length
  if m ≠ n then .error (.internalError s!"window MDB has {n} segments but {m} verification entries")
  else
    return { s with
      allSegments := s.allSegments ++ w.mdb.segments
      allVerification := s.allVerification ++ w.mdb.verification }

def pushRest : List (FileRange × FileDataSequenceEntry H) → ComposeState H →
    Except DataError (ComposeState H)
  | [], s => .ok s
  | (_,segment) :: segments, s => do
    let s ← s.pushStable segment segments
    pushRest segments s

end ComposeState

def composeMdb (originalMdb : MDBFileInfo H) (uploaded : List (UploadedWindow H))
    (gapVerification : List H) (combinedHash : H) : Except DataError (MDBFileInfo H) := do
  let s : ComposeState H :=
    { segments := segmentRanges 0 originalMdb.segments, gapVerification := gapVerification }
  let s ← uploaded.foldlM ComposeState.pushWindow s
  let s ← ComposeState.pushRest s.segments s
  let n := gapVerification.length
  let gapIdx := s.gapIdx
  if gapIdx < n then
    .error (.internalError
      s!"server returned {n} gap_verification entries but only {gapIdx} stable segments were emitted")
  else
    return {
      metadata := ⟨combinedHash,s.allSegments.length,true,false⟩
      segments := s.allSegments
      verification := s.allVerification
      metadataExt := none }

def uploadFreshFile (K : NodeHasher H) (client : UploadClient H) (dirtyInputs : List DirtyInput)
    (totalSize : ℕ) :
    Except DataError (XetFileInfo H) := do
  let data ← dirtyInputs.mapM readInput
  return ⟨fileHash K (client.clean 0 totalSize data.flatten).1,some data.flatten.length,none⟩

/-- The composed file is returned with its info; the session registers it. -/
def uploadRanges (K : NodeHasher H) (client : UploadClient H) (originalHash : H) (originalSize : ℕ)
    (dirtyInputs : List DirtyInput) : Except DataError (XetFileInfo H × Option (MDBFileInfo H)) := do
  validateDirtyRanges dirtyInputs originalSize
  let totalSize ← computeTotalSize originalSize dirtyInputs
  if dirtyInputs.isEmpty then return (⟨originalHash,some originalSize,none⟩,none)
  else if originalSize = 0 then
    let info ← uploadFreshFile K client dirtyInputs totalSize
    return (info,none)
  else
    match client.getFileReconstructionInfo originalHash with
    | none => .error (.parameterError "file not found in CAS")
    | some originalMdb =>
      let reported := originalMdb.fileSize
      if reported ≠ originalSize then
        .error (.parameterError
          s!"caller said original_size={originalSize} but reconstruction info reports {reported}")
      else
        let query := serverQuery (segByteStarts originalMdb) originalSize dirtyInputs
        if query.isEmpty then
          .error (.internalError "internal: non-empty dirty_inputs produced no server query")
        else
          match client.getFileChunkHashes originalHash query with
          | .error _ => .error .clientError
          | .ok response =>
            let nRanges := response.hashRanges.length
            let expected := response.windows.length + 1
            if response.windows.isEmpty then .error (.internalError "server returned no windows")
            else if nRanges ≠ expected then
              .error (.internalError
                s!"server returned {nRanges} hash_ranges, expected {expected} (n_windows + 1)")
            else do
              let r ← uploadWindows client originalHash originalSize 0 response.windows dirtyInputs
              let left := r.2.length
              let total := dirtyInputs.length
              let inputIdx := total - left
              if left ≠ 0 then
                .error (.internalError
                  s!"{left} dirty edits not assigned to any window (input_idx={inputIdx}, total={total})")
              else do
                let hash ← combinedHash K response.hashRanges r.1 totalSize
                let composedMdb ← composeMdb originalMdb r.1 response.gapVerification hash
                return (⟨hash,some totalSize,none⟩,some composedMdb)

end XetCore.RangeUpload
