import Mathlib.Data.List.ModifyLast
import XetCore.Lib.Extent
import XetCore.Merkle.AggregatedHash
import XetCore.Chunking.Chunker

/-! # Data of the deduplication

File entries point into xorbs by chunk index. An entry whose xorb is not cut yet
carries the marker hash. The fragmentation estimate, the counters and the interface
to the stored data are the parts that a file deduper works with.
-/
namespace XetCore.Dedup
open Merkle Chunking Extents

variable {H : Type}

structure FileDataSequenceEntry (H : Type) where
  xorbHash : H
  unpackedSegmentBytes : ℕ
  chunkIndexStart : ℕ
  chunkIndexEnd : ℕ
deriving DecidableEq, Repr

def setXorbHash (xorbHash : H) (entries : List (FileDataSequenceEntry H)) (indices : List ℕ) :
    List (FileDataSequenceEntry H) :=
  indices.foldl (fun es i => es.modify i (fun e => { e with xorbHash := xorbHash })) entries

structure FileDataSequenceHeader (H : Type) where
  fileHash : H
  numEntries : ℕ
  containsVerification : Bool
  containsMetadataExt : Bool
deriving DecidableEq, Repr

/-- The verification entries are given by their range hashes, the extension by its sha256. -/
structure MDBFileInfo (H : Type) where
  metadata : FileDataSequenceHeader H
  segments : List (FileDataSequenceEntry H)
  verification : List H
  metadataExt : Option H
deriving DecidableEq, Repr

def MDBFileInfo.fileSize (fi : MDBFileInfo H) : ℕ := (fi.segments.map (·.unpackedSegmentBytes)).sum

def byteCount (chunks : List (Chunk H)) : ℕ := (chunks.map (·.data.length)).sum

def chunkNode (c : Chunk H) : Node H := (c.hash,c.data.length)

structure RawXorbData (H : Type) where
  xorbHash : H
  chunks : List (Chunk H)
  numBytes : ℕ
  fileBoundaries : List ℕ
deriving DecidableEq, Repr

def RawXorbData.fromChunks (K : NodeHasher H) (chunks : List (Chunk H)) (fileBoundaries : List ℕ) :
    RawXorbData H where
  xorbHash := Merkle.xorbHash K (chunks.map chunkNode)
  chunks := chunks
  numBytes := byteCount chunks
  fileBoundaries := fileBoundaries

structure FileXorbDependency (H : Type) where
  fileId : ℕ
  xorbHash : H
  nBytes : ℕ
  isExternal : Bool
deriving DecidableEq, Repr

structure DeduplicationMetrics where
  totalBytes : ℕ := 0
  dedupedBytes : ℕ := 0
  newBytes : ℕ := 0
  dedupedBytesByGlobalDedup : ℕ := 0
  defragPreventedDedupBytes : ℕ := 0
  totalChunks : ℕ := 0
  dedupedChunks : ℕ := 0
  newChunks : ℕ := 0
  dedupedChunksByGlobalDedup : ℕ := 0
  defragPreventedDedupChunks : ℕ := 0
deriving DecidableEq, Repr

def DeduplicationMetrics.mergeIn (m other : DeduplicationMetrics) : DeduplicationMetrics where
  totalBytes := m.totalBytes + other.totalBytes
  dedupedBytes := m.dedupedBytes + other.dedupedBytes
  newBytes := m.newBytes + other.newBytes
  dedupedBytesByGlobalDedup := m.dedupedBytesByGlobalDedup + other.dedupedBytesByGlobalDedup
  defragPreventedDedupBytes := m.defragPreventedDedupBytes + other.defragPreventedDedupBytes
  totalChunks := m.totalChunks + other.totalChunks
  dedupedChunks := m.dedupedChunks + other.dedupedChunks
  newChunks := m.newChunks + other.newChunks
  dedupedChunksByGlobalDedup := m.dedupedChunksByGlobalDedup + other.dedupedChunksByGlobalDedup
  defragPreventedDedupChunks := m.defragPreventedDedupChunks + other.defragPreventedDedupChunks

/-- The thresholds of the defragmentation. The two comparisons of averages are made in
floating point and stay abstract: whether `chunks / ranges` is below the target of the low or
the high threshold, and whether a range is smaller than `chunks / ranges`. -/
structure DefragConfig where
  nrangesInStreamingFragmentationEstimator : ℕ
  belowTarget : Bool → ℕ → ℕ → Bool
  smallerThanAverage : ℕ → ℕ → ℕ → Bool

structure DefragPrevention where
  rollingLastNranges : List ℕ := []
  rollingNrangesChunks : ℕ := 0
  defragAtLowThreshold : Bool := true
deriving DecidableEq, Repr

namespace DefragPrevention

def incrementLastRangeInFragmentationEstimate (t : DefragPrevention) (nchunks : ℕ) : DefragPrevention :=
  if t.rollingLastNranges.isEmpty then t
  else
    { t with
      rollingLastNranges := t.rollingLastNranges.modifyLast (· + nchunks)
      rollingNrangesChunks := t.rollingNrangesChunks + nchunks }

def addRangeToFragmentationEstimate (F : DefragConfig) (t : DefragPrevention) (nchunks : ℕ) :
    DefragPrevention :=
  let ranges := t.rollingLastNranges ++ [nchunks]
  let chunks := t.rollingNrangesChunks + nchunks
  if ranges.length > F.nrangesInStreamingFragmentationEstimator then
    { t with rollingLastNranges := ranges.tail, rollingNrangesChunks := chunks - ranges.headD 0 }
  else { t with rollingLastNranges := ranges, rollingNrangesChunks := chunks }

/-- Without enough ranges for an estimate every range is allowed. -/
def allowDedupOnNextRange (F : DefragConfig) (t : DefragPrevention) (dedupRangeSize : ℕ) :
    Bool × DefragPrevention :=
  let ranges := t.rollingLastNranges.length
  if ranges < F.nrangesInStreamingFragmentationEstimator then (true,t)
  else if F.belowTarget t.defragAtLowThreshold t.rollingNrangesChunks ranges then
    if F.smallerThanAverage dedupRangeSize t.rollingNrangesChunks ranges then
      (false,{ t with defragAtLowThreshold := false })
    else (true,t)
  else (true,{ t with defragAtLowThreshold := true })

end DefragPrevention

/-- An answer to a query: the number of chunks, the entry that covers them, and whether the
xorb is already uploaded. -/
abbrev DedupAnswer (H : Type) := ℕ × FileDataSequenceEntry H × Bool

structure DeduplicationDataInterface (H S : Type) where
  chunkHashDedupQuery : S → List H → Option (DedupAnswer H) × S
  registerGlobalDedupQuery : S → H → S
  completeGlobalDedupQueries : S → Bool × S
  registerNewXorb : S → RawXorbData H → S
  registerXorbDependencies : S → List (FileXorbDependency H) → S

/-- The state of the interface, with the xorbs and dependencies it was given. -/
structure DataManager (H S : Type) where
  state : S
  registeredXorbs : List (RawXorbData H) := []
  dependencies : List (FileXorbDependency H) := []

/-- The hash functions, limits and data interface that deduplication works over. -/
structure DedupEnv (H S : Type) where
  hasher : NodeHasher H
  rangeHashFromChunks : List H → H
  marker : H
  hashIsGlobalDedupEligible : H → Bool
  constants : Constants
  defrag : DefragConfig
  interface : DeduplicationDataInterface H S

namespace DataManager
variable {S : Type} (E : DedupEnv H S)

def registerNewXorb (m : DataManager H S) (xorb : RawXorbData H) : DataManager H S :=
  { m with
    state := E.interface.registerNewXorb m.state xorb
    registeredXorbs := m.registeredXorbs ++ [xorb] }

def registerXorbDependencies (m : DataManager H S) (deps : List (FileXorbDependency H)) :
    DataManager H S :=
  { m with
    state := E.interface.registerXorbDependencies m.state deps
    dependencies := m.dependencies ++ deps }

end DataManager

/-- The chunks of one file whose xorb is still open, with the file's info. -/
structure DataAggregator (H : Type) where
  chunks : List (Chunk H) := []
  numBytes : ℕ := 0
  pendingFileInfo : List (MDBFileInfo H × List ℕ × ℕ) := []
  fileBoundaries : List ℕ := []
deriving DecidableEq, Repr

def DataAggregator.new (chunks : List (Chunk H)) (pendingFileInfo : MDBFileInfo H)
    (internallyReferencingEntries : List ℕ) (fileId : ℕ) : DataAggregator H where
  chunks := chunks
  numBytes := byteCount chunks
  pendingFileInfo := [(pendingFileInfo,internallyReferencingEntries,fileId)]
  fileBoundaries := if chunks.isEmpty then [] else [0]

end XetCore.Dedup
