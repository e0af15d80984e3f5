import XetCore.Reconstruction.Planning

/-! # Planning a reconstruction on the client

Each term of a response is assigned to a block of fetched chunk ranges. Blocks are
shared between terms; a term knows at which of the block's chunks it starts. The
bytes of a term are cut out of the block's data.
-/
namespace XetCore.Reconstruction
open Dedup Chunking Intervals

variable {H : Type}

inductive FileReconstructionError (H : Type) where
  | xorbInfoNotFound (xorbHash : H)
  | noXorbFetchEntry (termIndex : ℕ) (xorbHash : H)
  | chunkStartNotFound (chunkStart : ℕ) (chunkRanges : List ChunkRange) (termIndex : ℕ)
  | corruptedReconstruction (message : String)
  | clientError (e : ClientError H)
  | panicked
deriving Repr, DecidableEq

structure XorbReference where
  termChunks : ChunkRange
  uncompressedSize : ℕ
deriving DecidableEq, Repr

structure XorbBlock (H : Type) where
  xorbHash : H
  chunkRanges : List ChunkRange
  xorbBlockIndex : ℕ
  references : List XorbReference
deriving DecidableEq, Repr

structure FileTermEntry where
  byteRange : FileRange
  xorbChunkRange : ChunkRange
  offsetIntoFirstRange : ℕ
  xorbBlockIndex : ℕ
  xorbBlockStartIndex : ℕ
deriving DecidableEq, Repr

structure FileTerm (H : Type) where
  byteRange : FileRange
  xorbChunkRange : ChunkRange
  xorbBlockStartIndex : ℕ
  offsetIntoFirstRange : ℕ
  xorbBlock : XorbBlock H
deriving DecidableEq, Repr

structure BlockState (H : Type) where
  fileTermData : List FileTermEntry := []
  xorbBlocks : List (XorbBlock H) := []
  xorbBlockRetrievalUrls : List (String × List HttpRange) := []
  xorbIndexLookup : List ((H × ℕ) × ℕ) := []
  curFileByteOffset : ℕ

section Plan
variable [DecidableEq H]

/-- The block of a key, which is made when it is first asked for. -/
def blockOf (xorbHash : H) (firstChunkStart : ℕ) (fetch : XorbMultiRangeFetch) (s : BlockState H) :
    ℕ × BlockState H :=
  match s.xorbIndexLookup.lookup (xorbHash,firstChunkStart) with
  | some index => (index,s)
  | none =>
    let newIndex := s.xorbBlocks.length
    (newIndex,{ s with
        xorbBlocks := s.xorbBlocks ++ [⟨xorbHash,fetch.ranges.map (·.chunks),newIndex,[]⟩]
        xorbBlockRetrievalUrls := s.xorbBlockRetrievalUrls ++ [(fetch.url,fetch.ranges.map (·.bytes))]
        xorbIndexLookup := ((xorbHash,firstChunkStart),newIndex) :: s.xorbIndexLookup })

def rangeContains (r term : ChunkRange) : Bool := r.start ≤ term.start && term.stop ≤ r.stop

/-- With multi-range fetching a block is a whole fetch entry, without it a single range. -/
def findXorbBlock (enableMultirange : Bool) (xorbHash : H) (term : ChunkRange) :
    List XorbMultiRangeFetch → BlockState H → Option (ℕ × BlockState H)
  | [], _ => none
  | fetchEntry :: rest, s =>
    if enableMultirange then
      if fetchEntry.ranges.any fun r => rangeContains r.chunks term then
        some (blockOf xorbHash ((fetchEntry.ranges.head?.map (·.chunks.start)).getD 0) fetchEntry s)
      else findXorbBlock enableMultirange xorbHash term rest s
    else
      match fetchEntry.ranges.find? fun r => rangeContains r.chunks term with
      | some range => some (blockOf xorbHash range.chunks.start ⟨fetchEntry.url,[range]⟩ s)
      | none => findXorbBlock enableMultirange xorbHash term rest s

/-- The position of a chunk among the chunks of the ranges. A range that ends before it starts has
no length. -/
def flattenedIndex (chunkStart : ℕ) : ℕ → List ChunkRange → Except (FileReconstructionError H) (Option ℕ)
  | _, [] => .ok none
  | idx, range :: ranges =>
    if chunkStart ≥ range.start ∧ chunkStart < range.stop then .ok
      (some (idx + (chunkStart - range.start)))
    else if range.stop < range.start then .error .panicked
    else flattenedIndex chunkStart (idx + (range.stop - range.start)) ranges

def addReference (r : XorbReference) (b : XorbBlock H) : XorbBlock H :=
  { b with references := b.references ++ [r] }

variable (enableMultirange : Bool)

def blockStep (response : QueryReconstructionResponseV2 H) (localTermIndex : ℕ)
    (term : XorbReconstructionTerm H) (s : BlockState H) :
    Except (FileReconstructionError H) (BlockState H) :=
  match response.xorbs.lookup term.hash with
  | none => .error (.xorbInfoNotFound term.hash)
  | some xorbDescriptor =>
    match findXorbBlock enableMultirange term.hash term.range xorbDescriptor s with
    | none => .error (.noXorbFetchEntry localTermIndex term.hash)
    | some (xorbBlockIndex,s) =>
      let offsetIntoFirstRange := if localTermIndex = 0 then response.offsetIntoFirstRange else 0
      if term.unpackedLength < offsetIntoFirstRange then .error .panicked
      else
        let termByteSize := term.unpackedLength - offsetIntoFirstRange
        let chunkRanges := (s.xorbBlocks[xorbBlockIndex]?.map (·.chunkRanges)).getD []
        match flattenedIndex term.range.start 0 chunkRanges with
        | .error e => .error e
        | .ok none => .error (.chunkStartNotFound term.range.start chunkRanges localTermIndex)
        | .ok (some xorbBlockStartIndex) =>
          .ok { s with
            xorbBlocks := s.xorbBlocks.modify xorbBlockIndex
              (addReference ⟨term.range,term.unpackedLength⟩)
            fileTermData := s.fileTermData ++
              [⟨⟨s.curFileByteOffset,s.curFileByteOffset + termByteSize⟩,term.range,offsetIntoFirstRange,
                xorbBlockIndex,xorbBlockStartIndex⟩]
            curFileByteOffset := s.curFileByteOffset + termByteSize }

def blockLoop (enableMultirange : Bool) (response : QueryReconstructionResponseV2 H) :
    ℕ → List (XorbReconstructionTerm H) → BlockState H → Except (FileReconstructionError H) (BlockState H)
  | _, [], s => .ok s
  | i, term :: terms, s => do
    let s ← blockStep enableMultirange response i term s
    blockLoop enableMultirange response (i + 1) terms s

def trimLast (queryEnd : ℕ) (s : BlockState H) : List FileTermEntry :=
  if s.curFileByteOffset > queryEnd then
    s.fileTermData.modifyLast fun e =>
      { e with byteRange := ⟨e.byteRange.start,e.byteRange.stop - (s.curFileByteOffset - queryEnd)⟩ }
  else s.fileTermData

def fileTerm (blocks : List (XorbBlock H)) (e : FileTermEntry) : Option (FileTerm H) :=
  blocks[e.xorbBlockIndex]?.map fun b =>
    ⟨e.byteRange,e.xorbChunkRange,e.xorbBlockStartIndex,e.offsetIntoFirstRange,b⟩

/-- A planned block of terms, with the url and the byte ranges of each of its xorb blocks. -/
structure TermBlock (H : Type) where
  actualRange : FileRange
  totalTransferBytes : ℕ
  fileTerms : List (FileTerm H)
  retrievalUrls : List (String × List HttpRange)

def sortReferences (b : XorbBlock H) : XorbBlock H :=
  { b with references := b.references.insertionSort (fun r r' =>
    r.termChunks.start ≤ r'.termChunks.start) }

def termBlock (queryEnd : ℕ) (s : BlockState H) : TermBlock H :=
  let fileTermData := trimLast queryEnd s
  { actualRange :=
      ⟨(fileTermData.head?.map (·.byteRange.start)).getD 0,
        (fileTermData.getLast?.map (·.byteRange.stop)).getD 0⟩
    totalTransferBytes := ((s.xorbBlockRetrievalUrls.flatMap (·.2)).map HttpRange.length).sum
    fileTerms := fileTermData.filterMap (fileTerm (s.xorbBlocks.map sortReferences))
    retrievalUrls := s.xorbBlockRetrievalUrls }

def planTermBlock (queryFileByteRange : FileRange)
    (response : QueryReconstructionResponseV2 H) : Except (FileReconstructionError H) (TermBlock H) :=
  (blockLoop enableMultirange response 0 response.terms { curFileByteOffset :=
    queryFileByteRange.start }).map
    (termBlock queryFileByteRange.stop)

/-- The range that is covered, the number of bytes to transfer, and the terms. -/
def retrieveFileTermBlock (queryFileByteRange : FileRange)
    (rawReconstruction : Option (QueryReconstructionResponseV2 H)) :
    Except (FileReconstructionError H) (Option (FileRange × ℕ × List (FileTerm H))) :=
  match rawReconstruction with
  | none => .ok none
  | some response =>
    (planTermBlock enableMultirange queryFileByteRange response).map fun b =>
      some (b.actualRange,b.totalTransferBytes,b.fileTerms)

end Plan

structure XorbBlockData where
  chunkOffsets : List (ℕ × ℕ)
  data : Bytes

/-- Pairs of chunk index and byte offset; fails when there are too few offsets. -/
def buildChunkOffsets (chunkRanges : List ChunkRange) (byteOffsets : List ℕ) : Option (List (ℕ × ℕ)) :=
  let indices := chunkRanges.flatMap fun r => List.range' r.start (r.stop - r.start)
  if indices.length ≤ byteOffsets.length then some (indices.zip byteOffsets) else none

def XorbBlock.chunks (store : H → List (Chunk H)) (b : XorbBlock H) : List (Chunk H) :=
  b.chunkRanges.flatMap fun r => Extents.slice (store b.xorbHash) r.start r.stop

/-- The positions at which the chunks start, and the end of the last one. -/
def byteIndices : ℕ → List (Chunk H) → List ℕ
  | cumulative, [] => [cumulative]
  | cumulative, c :: cs => cumulative :: byteIndices (cumulative + c.data.length) cs

/-- The data of a block when all of its chunks have been fetched. -/
def XorbBlock.fill (store : H → List (Chunk H)) (b : XorbBlock H) : Option XorbBlockData :=
  (buildChunkOffsets b.chunkRanges (byteIndices 0 (b.chunks store))).map fun offsets =>
    ⟨offsets,(b.chunks store).flatMap (·.data)⟩

/-- Fails where the source would read or slice out of bounds, or subtract below zero. -/
def FileTerm.extractBytes (t : FileTerm H) (d : XorbBlockData) : Option Bytes :=
  match d.chunkOffsets[t.xorbBlockStartIndex]? with
  | none => none
  | some (_,startByteOffset) =>
    let startByteOffset := startByteOffset + t.offsetIntoFirstRange
    let expectedSize := t.byteRange.stop - t.byteRange.start
    let endByteOffset := startByteOffset + expectedSize
    if t.byteRange.start ≤ t.byteRange.stop ∧ endByteOffset ≤ d.data.length then
      some (Extents.slice d.data startByteOffset endByteOffset)
    else none

end XetCore.Reconstruction
