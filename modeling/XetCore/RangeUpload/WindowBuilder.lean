import XetCore.Chunking.StableBoundary
import XetCore.Merkle.Subtree
import XetCore.Reconstruction.Planning

/-! # The windows of a set of dirty ranges

The chunks of a file go through a builder one by one. A window opens at a chunk that
meets a dirty range and is extended until two clean chunks in a row are of stable size.
The chunks between the windows are kept as subtrees.
-/
namespace XetCore.RangeUpload
open Merkle MerkleHashSubtree Chunking Dedup Intervals Reconstruction

variable {H : Type}

structure ChunkWindowBuilder (H : Type) where
  dirtyIdx : ℕ := 0
  inDirtyZone : Bool := false
  gapIsFirst : Bool := true
  cursor : ℕ := 0
  gapChunks : List (Node H) := []
  windows : List FileRange := []
  hashRanges : List (Option (MerkleHashSubtree H)) := []
  tailPrevSize : Option ℕ := none

namespace ChunkWindowBuilder

def toOption (hr : MerkleHashSubtree H) : Option (MerkleHashSubtree H) :=
  if hr.isEmpty then none else some hr

section Process
variable (K : NodeHasher H) (C : Constants) (dirtyRanges : List FileRange)

def overlapsDirtyAt (idx byteStart byteEnd : ℕ) : Bool :=
  match dirtyRanges[idx]? with
  | none => false
  | some r => decide (byteEnd > r.start) && decide (byteStart < r.stop)

/-- The index after the loop of `merge_ahead`; `fuel` bounds its turns. -/
def mergeAheadLoop (byteEnd : ℕ) : ℕ → ℕ → ℕ
  | 0, dirtyIdx => dirtyIdx
  | fuel + 1, dirtyIdx =>
    match dirtyRanges[dirtyIdx + 1]? with
    | none => dirtyIdx
    | some r => if byteEnd > r.start then mergeAheadLoop byteEnd fuel (dirtyIdx + 1) else dirtyIdx

variable (byteEnd : ℕ) (b : ChunkWindowBuilder H)

def mergeAhead : ChunkWindowBuilder H :=
  { b with dirtyIdx := mergeAheadLoop dirtyRanges byteEnd dirtyRanges.length b.dirtyIdx }

def openWindow : ChunkWindowBuilder H :=
  mergeAhead dirtyRanges byteEnd
    { b with
      hashRanges := b.hashRanges ++ [toOption (fromChunks K b.gapIsFirst b.gapChunks false)]
      gapChunks := []
      windows := b.windows ++ [⟨b.cursor,byteEnd⟩] }

def extendOpenWindow : ChunkWindowBuilder H :=
  { b with windows := b.windows.modifyLast fun w => ⟨w.start,byteEnd⟩ }

def processChunk (hash : H) (size byteEnd : ℕ) (b : ChunkWindowBuilder H) : ChunkWindowBuilder H :=
  let byteStart := b.cursor
  let overlapsDirty := overlapsDirtyAt dirtyRanges b.dirtyIdx byteStart byteEnd
  let b :=
    if !b.inDirtyZone then
      if overlapsDirty then { openWindow K dirtyRanges byteEnd
        b with inDirtyZone := true, tailPrevSize := none }
      else { b with gapChunks := b.gapChunks ++ [(hash,size)] }
    else if overlapsDirty || overlapsDirtyAt dirtyRanges (b.dirtyIdx + 1) byteStart byteEnd then
      let b := if !overlapsDirty then { b with dirtyIdx := b.dirtyIdx + 1 } else b
      { mergeAhead dirtyRanges byteEnd (b.extendOpenWindow byteEnd) with tailPrevSize := none }
    else
      let b := b.extendOpenWindow byteEnd
      let stable := b.tailPrevSize.any fun prev => isStableChunkSize C prev && isStableChunkSize C size
      if stable then
        { b with dirtyIdx := b.dirtyIdx + 1, gapIsFirst := false, inDirtyZone :=
          false, tailPrevSize := none }
      else { b with tailPrevSize := some size }
  { b with cursor := byteEnd }

/-- The entry that ends at `byteEnd` lies in the current dirty range. -/
def entryFullyDirty : Bool :=
  match dirtyRanges[b.dirtyIdx]? with
  | none => false
  | some r => decide (r.start ≤ b.cursor) && decide (byteEnd ≤ r.stop)

def skipDirtyEntry : ChunkWindowBuilder H :=
  let b :=
    if !b.inDirtyZone then { openWindow K dirtyRanges byteEnd b with inDirtyZone := true }
    else mergeAhead dirtyRanges byteEnd (b.extendOpenWindow byteEnd)
  { b with tailPrevSize := none, cursor := byteEnd }

/-- All chunks of a file in order, where each one ends behind the bytes so far. -/
def processAll : List (Node H) → ChunkWindowBuilder H → ChunkWindowBuilder H
  | [], b => b
  | (hash,size) :: chunks, b => processAll
      chunks (processChunk K C dirtyRanges hash size (b.cursor + size) b)

end Process

def finish (K : NodeHasher H) (b : ChunkWindowBuilder H) : List FileRange ×
    List (Option (MerkleHashSubtree H)) :=
  (b.windows,b.hashRanges ++ [toOption (fromChunks K b.gapIsFirst b.gapChunks true)])

end ChunkWindowBuilder

structure FileChunkHashesResponse (H : Type) where
  totalChunks : ℕ
  fileSize : ℕ
  windows : List FileRange
  hashRanges : List (Option (MerkleHashSubtree H))
  gapVerification : List H

/-- The windows and the segments are walked together; the windows that end before a segment are
dropped. -/
def gapVerificationLoop : ℕ → List FileRange → List (FileDataSequenceEntry H × H) → List H
  | _, _, [] => []
  | segStart, windows, (seg,rangeHash) :: rest =>
    let segEnd := segStart + seg.unpackedSegmentBytes
    let windows := windows.dropWhile fun w => w.stop ≤ segStart
    let overlaps := windows.head?.any fun w => w.start < segEnd
    if !overlaps then rangeHash :: gapVerificationLoop segEnd windows rest
    else gapVerificationLoop segEnd windows rest

def buildFileChunkHashesResponse (K : NodeHasher H) (C : Constants) (fileInfo : MDBFileInfo H)
    (dirtyRanges : List FileRange) (chunks : List (Node H)) :
    Except (ClientError H) (FileChunkHashesResponse H) :=
  let fileSize := fileInfo.fileSize
  let dirtyRanges := (dirtyRanges.map fun r => (⟨r.start,min r.stop fileSize⟩ : FileRange)).filter
    fun r => r.start < r.stop && r.start < fileSize
  if dirtyRanges.isEmpty then .error (.other "no valid dirty ranges")
  else
    let builder := ChunkWindowBuilder.processAll K C dirtyRanges chunks {}
    let (windows,hashRanges) := builder.finish K
    if windows.isEmpty then .error (.other "dirty ranges do not overlap any chunks")
    else
      let respond (gapVerification : List H) : FileChunkHashesResponse H :=
        ⟨chunks.length,fileSize,windows,hashRanges,gapVerification⟩
      if fileInfo.verification.isEmpty then .ok (respond [])
      else if fileInfo.verification.length = fileInfo.segments.length then
        .ok (respond (gapVerificationLoop 0 windows (fileInfo.segments.zip fileInfo.verification)))
      else
        let n := fileInfo.verification.length
        let m := fileInfo.segments.length
        .error (.other (s!"file_info has {n} verification entries but {m} segments; " ++
          "expected either zero or a 1:1 mapping"))

end XetCore.RangeUpload
