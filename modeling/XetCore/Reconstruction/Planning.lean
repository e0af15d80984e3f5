import XetCore.Lib.Interval
import XetCore.Dedup.Structures

/-! # Planning a reconstruction on the server

For a byte range of a file, the segments that meet the range are cut down to the
chunks that meet it. Each gives a term, and the terms of one xorb are merged to
disjoint fetch ranges, which are sent as single ranges (V1) or in groups (V2).
-/
namespace XetCore.Reconstruction
open Dedup Intervals

variable {H : Type}

/-- Ranges are end-exclusive, except for the byte ranges of requests. -/
abbrev ChunkRange := Range
abbrev FileRange := Range
abbrev HttpRange := Range

def FileRange.full : FileRange := ⟨0,2 ^ 64 - 1⟩
def HttpRange.ofFileRange (r : FileRange) : HttpRange := ⟨r.start,r.stop - 1⟩
def HttpRange.length (r : HttpRange) : ℕ := r.stop - r.start + 1

inductive ClientError (H : Type) where
  | invalidRange
  | invalidArguments
  | xorbNotFound (hash : H)
  | other (message : String)
deriving Repr, DecidableEq

/-- The offsets that the footer of a xorb holds: where each chunk ends, unpacked and stored. -/
structure XorbObject where
  unpackedChunkOffsets : List ℕ
  chunkBoundaryOffsets : List ℕ
  numChunks : ℕ

namespace XorbObject

def uncompressedChunkLength (x : XorbObject) (chunkIndex : ℕ) : Except (ClientError H) ℕ :=
  match x.unpackedChunkOffsets[chunkIndex]? with
  | none => .error .invalidArguments
  | some cumulativeSum =>
    .ok (cumulativeSum - if chunkIndex = 0 then 0 else x.unpackedChunkOffsets.getD (chunkIndex - 1) 0)

def getByteOffset (x : XorbObject) (chunkIndexStart chunkIndexEnd : ℕ) : Except (ClientError H) (ℕ × ℕ) :=
  if chunkIndexEnd ≤ chunkIndexStart ∨ chunkIndexEnd > x.numChunks then .error .invalidArguments
  else
    .ok (if chunkIndexStart = 0 then 0 else x.chunkBoundaryOffsets.getD (chunkIndexStart - 1) 0,
      x.chunkBoundaryOffsets.getD (chunkIndexEnd - 1) 0)

end XorbObject

structure XorbReconstructionTerm (H : Type) where
  hash : H
  unpackedLength : ℕ
  range : ChunkRange
deriving DecidableEq, Repr

structure MergedRange where
  chunkRange : ChunkRange
  byteRange : FileRange
deriving DecidableEq, Repr

/-- The segments from the one that holds the first byte of the range on, and where that one starts.
-/
def skipSegments (start : ℕ) : ℕ → List (FileDataSequenceEntry H) →
    Except (ClientError H) (ℕ × List (FileDataSequenceEntry H))
  | _, [] => .error .invalidRange
  | cumulativeBytes, segment :: segments =>
    if cumulativeBytes + segment.unpackedSegmentBytes > start then .ok
      (cumulativeBytes,segment :: segments)
    else skipSegments start (cumulativeBytes + segment.unpackedSegmentBytes) segments

/-- A segment that is cut down, with the file position of its first chunk. -/
structure SegmentCut where
  cumulativeBytes : ℕ
  firstChunkByteStart : ℕ
  unpackedSegmentBytes : ℕ
  chunkRange : ChunkRange

/-- Drops the chunks before the first byte of the range; `fuel` bounds their number. -/
def trimStart (footer : XorbObject) (start : ℕ) : ℕ → SegmentCut → Except (ClientError H) SegmentCut
  | 0, c => .ok c
  | fuel + 1, c =>
    if c.chunkRange.start < c.chunkRange.stop then do
      let nextChunkSize ← footer.uncompressedChunkLength c.chunkRange.start
      if c.cumulativeBytes + nextChunkSize ≤ start then
        trimStart footer start fuel
          { cumulativeBytes := c.cumulativeBytes + nextChunkSize
            firstChunkByteStart := c.firstChunkByteStart + nextChunkSize
            unpackedSegmentBytes := c.unpackedSegmentBytes - nextChunkSize
            chunkRange := ⟨c.chunkRange.start + 1,c.chunkRange.stop⟩ }
      else .ok c
    else .ok c

/-- Drops the chunks after the last byte of the range. -/
def trimEnd (footer : XorbObject) (stop : ℕ) : ℕ → SegmentCut → Except (ClientError H) SegmentCut
  | 0, c => .ok c
  | fuel + 1, c =>
    if c.chunkRange.stop > c.chunkRange.start then do
      let lastChunkSize ← footer.uncompressedChunkLength (c.chunkRange.stop - 1)
      if c.cumulativeBytes + (c.unpackedSegmentBytes - lastChunkSize) ≥ stop then
        trimEnd footer stop fuel
          { c with
            unpackedSegmentBytes := c.unpackedSegmentBytes - lastChunkSize
            chunkRange := ⟨c.chunkRange.start,c.chunkRange.stop - 1⟩ }
      else .ok c
    else .ok c

def cutStart (footer : XorbObject) (fileRange : FileRange) (c : SegmentCut) :
    Except (ClientError H) SegmentCut :=
  if c.cumulativeBytes < fileRange.start then
    trimStart footer fileRange.start (c.chunkRange.stop - c.chunkRange.start) c
  else .ok c

def cutEnd (footer : XorbObject) (fileRange : FileRange) (c : SegmentCut) :
    Except (ClientError H) SegmentCut :=
  if c.cumulativeBytes + c.unpackedSegmentBytes > fileRange.stop then
    trimEnd footer fileRange.stop (c.chunkRange.stop - c.chunkRange.start) c
  else .ok c

section Plan
variable [DecidableEq H]

def pushAt {α : Type} (k : H) (a : α) : List (H × List α) → List (H × List α)
  | [] => [(k,[a])]
  | (k',as) :: rest => if k' = k then (k',as ++ [a]) :: rest else (k',as) :: pushAt k a rest

structure TermState (H : Type) where
  cumulativeBytes : ℕ
  firstChunkByteStart : ℕ
  terms : List (XorbReconstructionTerm H) := []
  fetchInfoMap : List (H × List MergedRange) := []

variable (getXorbFooter : H → Except (ClientError H) XorbObject)

def termStep (fileRange : FileRange)
    (segment : FileDataSequenceEntry H) (s : TermState H) : Except (ClientError H) (TermState H) := do
  let xorbFooter ← getXorbFooter segment.xorbHash
  let c : SegmentCut :=
    ⟨s.cumulativeBytes,s.firstChunkByteStart,segment.unpackedSegmentBytes,
      ⟨segment.chunkIndexStart,segment.chunkIndexEnd⟩⟩
  let c ← cutStart xorbFooter fileRange c
  let c ← cutEnd xorbFooter fileRange c
  let bytes ← xorbFooter.getByteOffset c.chunkRange.start c.chunkRange.stop
  return {
    cumulativeBytes := c.cumulativeBytes + c.unpackedSegmentBytes
    firstChunkByteStart := c.firstChunkByteStart
    terms := s.terms ++ [⟨segment.xorbHash,c.unpackedSegmentBytes,c.chunkRange⟩]
    fetchInfoMap := pushAt segment.xorbHash ⟨c.chunkRange,⟨bytes.1,bytes.2⟩⟩ s.fetchInfoMap }

def termLoop (getXorbFooter : H → Except (ClientError H) XorbObject) (fileRange : FileRange) :
    List (FileDataSequenceEntry H) → TermState H → Except (ClientError H) (TermState H)
  | [], s => .ok s
  | segment :: segments, s =>
    if s.cumulativeBytes < fileRange.stop then do
      let s ← termStep getXorbFooter fileRange segment s
      termLoop getXorbFooter fileRange segments s
    else .ok s

/-- Joins the ranges that overlap or touch `cur`, for ranges in order of their starts. -/
def mergeFrom (cur : MergedRange) : List MergedRange → List MergedRange
  | [] => [cur]
  | next :: rest =>
    if next.chunkRange.start ≤ cur.chunkRange.stop then
      mergeFrom
        { chunkRange := ⟨cur.chunkRange.start,max cur.chunkRange.stop next.chunkRange.stop⟩
          byteRange := ⟨cur.byteRange.start,max cur.byteRange.stop next.byteRange.stop⟩ } rest
    else cur :: mergeFrom next rest

def mergeRanges (ranges : List MergedRange) : List MergedRange :=
  match ranges.insertionSort (fun a b => a.chunkRange.start ≤ b.chunkRange.start) with
  | [] => []
  | cur :: rest => mergeFrom cur rest

/-- The offset into the first range, the terms, and the merged ranges of each xorb. -/
structure ReconstructionRanges (H : Type) where
  offsetIntoFirstRange : ℕ := 0
  terms : List (XorbReconstructionTerm H) := []
  merged : List (H × List MergedRange) := []

def rangesIn (fileInfo : MDBFileInfo H)
    (fileRange : FileRange) : Except (ClientError H) (ReconstructionRanges H) := do
  let p ← skipSegments fileRange.start 0 fileInfo.segments
  let s ← termLoop getXorbFooter fileRange p.2 { cumulativeBytes := p.1, firstChunkByteStart := p.1 }
  return {
    offsetIntoFirstRange := fileRange.start - s.firstChunkByteStart
    terms := s.terms
    merged := s.fetchInfoMap.map fun p => (p.1,mergeRanges p.2) }

def computeReconstructionRanges (fileInfo : MDBFileInfo H)
    (bytesRange : Option FileRange) : Except (ClientError H) (Option (ReconstructionRanges H)) :=
  let totalFileSize := fileInfo.fileSize
  match bytesRange with
  | some range =>
    if range.start ≥ totalFileSize then
      if totalFileSize = 0 ∧ range.start = 0 then .ok (some {}) else .ok none
    else (rangesIn getXorbFooter fileInfo ⟨range.start,min range.stop totalFileSize⟩).map some
  | none =>
    if totalFileSize = 0 then .ok (some {}) else (rangesIn getXorbFooter fileInfo .full).map some

end Plan

structure XorbReconstructionFetchInfo where
  range : ChunkRange
  urlRange : HttpRange
deriving DecidableEq, Repr

structure QueryReconstructionResponse (H : Type) where
  offsetIntoFirstRange : ℕ
  terms : List (XorbReconstructionTerm H)
  fetchInfo : List (H × List XorbReconstructionFetchInfo)

structure XorbRangeDescriptor where
  chunks : ChunkRange
  bytes : HttpRange
deriving DecidableEq, Repr

structure XorbMultiRangeFetch where
  url : String := ""
  ranges : List XorbRangeDescriptor
deriving DecidableEq, Repr

structure QueryReconstructionResponseV2 (H : Type) where
  offsetIntoFirstRange : ℕ
  terms : List (XorbReconstructionTerm H)
  xorbs : List (H × List XorbMultiRangeFetch)

/-- Consecutive groups of `n`, the last one possibly shorter. -/
def chunksOf {α : Type} (n : ℕ) : ℕ → List α → List (List α)
  | 0, _ => []
  | fuel + 1, xs => if xs.isEmpty then [] else xs.take n :: chunksOf n fuel (xs.drop n)

def getReconstructionV1 (r : ReconstructionRanges H) : QueryReconstructionResponse H where
  offsetIntoFirstRange := r.offsetIntoFirstRange
  terms := r.terms
  fetchInfo := if r.terms.isEmpty then []
    else r.merged.map fun p => (p.1,p.2.map fun m => ⟨m.chunkRange,.ofFileRange m.byteRange⟩)

def getReconstructionV2 (maxRanges : ℕ) (r : ReconstructionRanges H) :
    QueryReconstructionResponseV2 H where
  offsetIntoFirstRange := r.offsetIntoFirstRange
  terms := r.terms
  xorbs := if r.terms.isEmpty then []
    else r.merged.map fun p => (p.1,(chunksOf maxRanges p.2.length p.2).map fun group =>
      { ranges := group.map fun m => ⟨m.chunkRange,.ofFileRange m.byteRange⟩ })

def QueryReconstructionResponseV2.ofV1 (v1 : QueryReconstructionResponse H) :
    QueryReconstructionResponseV2 H where
  offsetIntoFirstRange := v1.offsetIntoFirstRange
  terms := v1.terms
  xorbs := v1.fetchInfo.map fun p => (p.1,p.2.map fun info => { ranges := [⟨info.range,info.urlRange⟩] })

/-- The kind of response that the server gives; a client turns the first into the second. -/
inductive ApiVersion where
  | v1
  | v2 (maxRanges : ℕ)
deriving DecidableEq, Repr

def respond (version : ApiVersion) (r : ReconstructionRanges H) : QueryReconstructionResponseV2 H :=
  match version with
  | .v1 => .ofV1 (getReconstructionV1 r)
  | .v2 maxRanges => getReconstructionV2 maxRanges r

end XetCore.Reconstruction
