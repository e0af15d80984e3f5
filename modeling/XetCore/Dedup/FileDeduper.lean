import XetCore.Lib.WhileLoop
import XetCore.Dedup.Structures

/-! # The file deduper

Chunks arrive in batches. For each batch the stored data is asked first, in one or
two passes; then the chunks are walked once, and each answer is taken or refused.
What is not found becomes new data, which is cut to a xorb when it is full.
-/
namespace XetCore.Dedup
open Merkle Chunking

structure FileDeduper (H S : Type) where
  dataMng : DataManager H S
  fileId : ℕ
  newData : List (Chunk H) := []
  newDataSize : ℕ := 0
  newDataHashLookup : List (H × ℕ) := []
  chunkHashes : List (Node H) := []
  fileInfo : List (FileDataSequenceEntry H) := []
  internallyReferencingEntries : List ℕ := []
  defragTracker : DefragPrevention := {}
  minSpacingBetweenGlobalDedupQueries : ℕ := 0
  nextChunkIndexEligibleForGlobalDedupQuery : ℕ := 0
  deduplicationMetrics : DeduplicationMetrics := {}

namespace FileDeduper
variable {H S : Type} [DecidableEq H] (E : DedupEnv H S)

def new (state : S) (fileId : ℕ) : FileDeduper H S where
  dataMng := { state := state }
  fileId := fileId

variable (d : FileDeduper H S)

def fileDataSequenceContinuesCurrent (fse : FileDataSequenceEntry H) : Bool :=
  d.fileInfo.getLast?.any fun last =>
    last.xorbHash = fse.xorbHash && last.chunkIndexEnd = fse.chunkIndexStart

def addFileDataSequenceEntry (fse : FileDataSequenceEntry H) (nDeduped : ℕ) : FileDeduper H S :=
  if d.fileDataSequenceContinuesCurrent fse then
    { d with
      fileInfo := d.fileInfo.modifyLast fun last =>
        { last with
          unpackedSegmentBytes := last.unpackedSegmentBytes + fse.unpackedSegmentBytes
          chunkIndexEnd := fse.chunkIndexEnd }
      defragTracker := d.defragTracker.incrementLastRangeInFragmentationEstimate nDeduped }
  else
    { d with
      internallyReferencingEntries :=
        if fse.xorbHash = E.marker then d.internallyReferencingEntries ++ [d.fileInfo.length]
        else d.internallyReferencingEntries
      fileInfo := d.fileInfo ++ [fse]
      defragTracker := d.defragTracker.addRangeToFragmentationEstimate E.defrag nDeduped }

def cutNewXorb : RawXorbData H × FileDeduper H S :=
  let newXorb := RawXorbData.fromChunks E.hasher d.newData [0]
  (newXorb,{ d with
      fileInfo := setXorbHash newXorb.xorbHash d.fileInfo d.internallyReferencingEntries
      newData := []
      newDataHashLookup := []
      newDataSize := 0
      internallyReferencingEntries := [] })

/-- The chunks that follow the first match, as long as they follow it in the new data too;
`i` counts them. -/
def localMatchLoop (d : FileDeduper H S) (baseIdx : ℕ) : ℕ → List H → ℕ × ℕ → ℕ × ℕ
  | _, [], acc => acc
  | i, h :: hs, (endIdx,nBytes) =>
    match d.newDataHashLookup.lookup h with
    | some idx =>
      if idx = baseIdx + i then
        localMatchLoop d baseIdx (i + 1) hs
          (idx + 1,nBytes + (d.newData[idx]?.map (·.data.length)).getD 0)
      else (endIdx,nBytes)
    | none => (endIdx,nBytes)

def dedupQueryAgainstLocalData (chunks : List H) : Option (DedupAnswer H) :=
  match chunks with
  | [] => none
  | h :: hs =>
    match d.newDataHashLookup.lookup h with
    | none => none
    | some baseIdx =>
      let r := localMatchLoop d baseIdx 1 hs
        (baseIdx + 1,(d.newData[baseIdx]?.map (·.data.length)).getD 0)
      some (r.1 - baseIdx,⟨E.marker,r.2,baseIdx,r.1⟩,false)

structure QueryState (H S : Type) where
  deduper : FileDeduper H S
  dedupMetrics : DeduplicationMetrics
  dedupedBlocks : List (Option (DedupAnswer H))
  localChunkIndex : ℕ

/-- One round of a query pass over `chunkHashes`, of which the first has index `start` in the file.
-/
def queryStep (firstPass : Bool) (start : ℕ) (chunkHashes : List H) (s : QueryState H S) :
    QueryState H S :=
  let i := s.localChunkIndex
  match s.dedupedBlocks[i]?.join with
  | some (nDeduped,_,_) => { s with localChunkIndex := i + nDeduped }
  | none =>
    let q := E.interface.chunkHashDedupQuery s.deduper.dataMng.state (chunkHashes.drop i)
    let d := { s.deduper with dataMng := { s.deduper.dataMng with state := q.2 } }
    match q.1 with
    | some (nDeduped,fse,isUploadedShard) =>
      { deduper := d
        dedupMetrics :=
          if firstPass then s.dedupMetrics
          else
            { s.dedupMetrics with
              dedupedChunksByGlobalDedup := s.dedupMetrics.dedupedChunksByGlobalDedup + nDeduped
              dedupedBytesByGlobalDedup :=
                s.dedupMetrics.dedupedBytesByGlobalDedup + fse.unpackedSegmentBytes }
        dedupedBlocks := s.dedupedBlocks.set i (some (nDeduped,fse,isUploadedShard))
        localChunkIndex := i + nDeduped }
    | none =>
      let globalChunkIndex := start + i
      let eligible := firstPass &&
        (globalChunkIndex = 0 || (chunkHashes[i]?.map E.hashIsGlobalDedupEligible).getD false) &&
        decide (globalChunkIndex ≥ d.nextChunkIndexEligibleForGlobalDedupQuery)
      { s with
        deduper :=
          match eligible, chunkHashes[i]? with
          | true, some h =>
            { d with
              dataMng := { d.dataMng with state :=
                E.interface.registerGlobalDedupQuery d.dataMng.state h }
              nextChunkIndexEligibleForGlobalDedupQuery :=
                globalChunkIndex + d.minSpacingBetweenGlobalDedupQueries }
          | _, _ => d
        localChunkIndex := i + 1 }

def queryPass (firstPass : Bool) (start : ℕ) (chunkHashes : List H) (s : QueryState H S) :
    Bool × QueryState H S :=
  let s := WhileLoop.run (fun s : QueryState H S => s.localChunkIndex < chunkHashes.length)
    (queryStep E firstPass start chunkHashes) chunkHashes.length { s with localChunkIndex := 0 }
  let c := E.interface.completeGlobalDedupQueries s.deduper.dataMng.state
  (c.1,{ s with deduper := { s.deduper with dataMng := { s.deduper.dataMng with state := c.2 } } })

/-- A second pass is made when the first one brought new shards. -/
def queryPasses (d : FileDeduper H S) (chunkHashes : List H) : QueryState H S :=
  let start := d.chunkHashes.length
  let s := { deduper := d, dedupMetrics := {}, dedupedBlocks := List.replicate chunkHashes.length none,
             localChunkIndex := 0 }
  let p := queryPass E true start chunkHashes s
  if p.1 then (queryPass E false start chunkHashes p.2).2 else p.2

section Process

/-- The variables of the walk over the chunks of a batch. -/
structure ProcessState (H S : Type) where
  deduper : FileDeduper H S
  dedupMetrics : DeduplicationMetrics
  xorbDependencies : List (FileXorbDependency H)
  curIdx : ℕ

/-- The answer from the stored data, or else from the new data. -/
def dedupeQuery (chunkHashes : List H) (dedupedBlocks : List (Option (DedupAnswer H)))
    (s : ProcessState H S) :
    Option (DedupAnswer H) :=
  match dedupedBlocks[s.curIdx]?.join with
  | some a => some a
  | none => s.deduper.dedupQueryAgainstLocalData E (chunkHashes.drop s.curIdx)

/-- Continuing the last entry is always fine; otherwise the fragmentation decides. -/
def allowsDedup (nDeduped : ℕ) (fse : FileDataSequenceEntry H) : Bool × FileDeduper H S :=
  if d.fileDataSequenceContinuesCurrent fse then (true,d)
  else
    let a := d.defragTracker.allowDedupOnNextRange E.defrag nDeduped
    (a.1,{ d with defragTracker := a.2 })

variable (m : DeduplicationMetrics)

def countDeduped (nDeduped nBytes : ℕ) : DeduplicationMetrics :=
  { m with
    dedupedChunks := m.dedupedChunks + nDeduped
    dedupedBytes := m.dedupedBytes + nBytes
    totalChunks := m.totalChunks + nDeduped
    totalBytes := m.totalBytes + nBytes }

def countPrevented (nDeduped nBytes : ℕ) : DeduplicationMetrics :=
  { m with
    defragPreventedDedupChunks := m.defragPreventedDedupChunks + nDeduped
    defragPreventedDedupBytes := m.defragPreventedDedupBytes + nBytes }

def countNew (nBytes : ℕ) : DeduplicationMetrics :=
  { m with
    totalChunks := m.totalChunks + 1
    totalBytes := m.totalBytes + nBytes
    newBytes := m.newBytes + nBytes
    newChunks := m.newChunks + 1 }

def takeDeduped (nDeduped : ℕ) (fse : FileDataSequenceEntry H) (isExternal : Bool)
    (s : ProcessState H S) :
    ProcessState H S :=
  { s with
    deduper := s.deduper.addFileDataSequenceEntry E fse nDeduped
    xorbDependencies :=
      if fse.xorbHash = E.marker then s.xorbDependencies
      else s.xorbDependencies ++ [⟨s.deduper.fileId,fse.xorbHash,fse.unpackedSegmentBytes,isExternal⟩]
    curIdx := s.curIdx + nDeduped }

def cutIfFull (nBytes : ℕ) (s : ProcessState H S) : ProcessState H S :=
  let d := s.deduper
  if d.newDataSize + nBytes > E.constants.maxXorbBytes ∨
      d.newData.length + 1 > E.constants.maxXorbChunks then
    let c := d.cutNewXorb E
    { s with
      deduper := { c.2 with dataMng := c.2.dataMng.registerNewXorb E c.1 }
      xorbDependencies := s.xorbDependencies ++ [⟨d.fileId,c.1.xorbHash,c.1.numBytes,false⟩] }
  else s

/-- The entry of the next chunk of the new data: the last entry if it ends there, or a new one. -/
def extendNewData (nBytes : ℕ) : FileDeduper H S :=
  if d.fileInfo.getLast?.any fun last =>
      last.xorbHash = E.marker && last.chunkIndexEnd = d.newData.length then
    { d with
      fileInfo := d.fileInfo.modifyLast fun last =>
        { last with
          unpackedSegmentBytes := last.unpackedSegmentBytes + nBytes
          chunkIndexEnd := last.chunkIndexEnd + 1 }
      defragTracker := d.defragTracker.incrementLastRangeInFragmentationEstimate 1 }
  else
    { d with
      internallyReferencingEntries := d.internallyReferencingEntries ++ [d.fileInfo.length]
      fileInfo := d.fileInfo ++ [⟨E.marker,nBytes,d.newData.length,d.newData.length + 1⟩]
      defragTracker := d.defragTracker.addRangeToFragmentationEstimate E.defrag 1 }

def pushNewData (chunk : Chunk H) : FileDeduper H S :=
  { d with
    newDataSize := d.newDataSize + chunk.data.length
    newDataHashLookup := (chunk.hash,d.newData.length) :: d.newDataHashLookup
    newData := d.newData ++ [chunk] }

def addNewChunk (chunk : Chunk H) (s : ProcessState H S) : ProcessState H S :=
  let nBytes := chunk.data.length
  let s := cutIfFull E nBytes { s with dedupMetrics := countNew s.dedupMetrics nBytes }
  { s with
    deduper := (s.deduper.extendNewData E nBytes).pushNewData chunk
    curIdx := s.curIdx + 1 }

variable (chunks : List (Chunk H)) (dedupedBlocks : List (Option (DedupAnswer H)))

/-- One round of the walk. The counters of an answer are raised before it is known whether the
answer is taken. -/
def processStep (s : ProcessState H S) : ProcessState H S :=
  let storeChunk (s : ProcessState H S) : ProcessState H S :=
    match chunks[s.curIdx]? with
    | some chunk => addNewChunk E chunk s
    | none => s
  match dedupeQuery E (chunks.map (·.hash)) dedupedBlocks s with
  | some (nDeduped,fse,isExternal) =>
    let m := countDeduped s.dedupMetrics nDeduped fse.unpackedSegmentBytes
    let a := s.deduper.allowsDedup E nDeduped fse
    if a.1 then takeDeduped E nDeduped fse isExternal { s with deduper := a.2, dedupMetrics := m }
    else
      storeChunk { s with
        deduper := a.2
        dedupMetrics := countPrevented m nDeduped fse.unpackedSegmentBytes }
  | none => storeChunk s

def processLoop (s : ProcessState H S) : ProcessState H S :=
  WhileLoop.run (fun s : ProcessState H S => s.curIdx < chunks.length)
    (processStep E chunks dedupedBlocks)
    chunks.length s

/-- The state in which the walk over a batch starts, after the query passes. -/
def startWalk (q : QueryState H S) : ProcessState H S :=
  { deduper := q.deduper, dedupMetrics := q.dedupMetrics, xorbDependencies := [], curIdx := 0 }

def processChunks : DeduplicationMetrics × FileDeduper H S :=
  let q := queryPasses E d (chunks.map (·.hash))
  let s := processLoop E chunks q.dedupedBlocks (startWalk q)
  let d := s.deduper
  (s.dedupMetrics,{ d with
      deduplicationMetrics := d.deduplicationMetrics.mergeIn s.dedupMetrics
      chunkHashes := d.chunkHashes ++ chunks.map chunkNode
      dataMng :=
        if s.xorbDependencies.isEmpty then d.dataMng
        else d.dataMng.registerXorbDependencies E s.xorbDependencies })

def processBatches (batches : List (List (Chunk H))) : FileDeduper H S :=
  batches.foldl (fun d chunks => (d.processChunks E chunks).2) d

end Process

/-- The range hash of each entry over its own part of the chunk hashes, from `chunkIdx` on. -/
def verificationFrom (chunkHashes : List (Node H)) : ℕ → List (FileDataSequenceEntry H) → List H
  | _, [] => []
  | chunkIdx, entry :: entries =>
    let nChunks := entry.chunkIndexEnd - entry.chunkIndexStart
    E.rangeHashFromChunks (((chunkHashes.drop chunkIdx).take nChunks).map Prod.fst) ::
      verificationFrom chunkHashes (chunkIdx + nChunks) entries

def finalize (d : FileDeduper H S) (metadataExt : Option H) :
    H × List (Node H) × DataAggregator H × DeduplicationMetrics :=
  let fileHash := Merkle.fileHash E.hasher d.chunkHashes
  let fi : MDBFileInfo H :=
    { metadata := ⟨fileHash,d.fileInfo.length,true,metadataExt.isSome⟩
      segments := d.fileInfo
      verification := verificationFrom E d.chunkHashes 0 d.fileInfo
      metadataExt := metadataExt }
  (fileHash,d.chunkHashes,DataAggregator.new d.newData fi d.internallyReferencingEntries d.fileId,
    d.deduplicationMetrics)

structure XetFileInfo (H : Type) where
  hash : H
  fileSize : Option ℕ
  sha256 : Option H

/-- The info of a finished file, the chunk hashes, and the data handed to the session. -/
def finishInner (d : FileDeduper H S) (sha256 : Option H) :
    XetFileInfo H × List (Node H) × DataAggregator H × DeduplicationMetrics :=
  let f := d.finalize E sha256
  (⟨f.1,some f.2.2.2.totalBytes,sha256⟩,f.2.1,f.2.2.1,f.2.2.2)

end FileDeduper
end XetCore.Dedup
