import XetCore.Shard.SerializeFrom

/-! # Writing a minimal shard

A minimal shard is written without lookup tables, with or without its files and their
verification. The chunks with which a file starts get the flag for global deduplication, so
that they stay eligible where the files are left out.
-/
namespace XetCore.Shard
open ByteSources Serialization
open Merkle (DataHash)

abbrev mdbShardGlobalDedupChunkModulus : ℕ := 1024

def hashIsGlobalDedupEligible (h : DataHash) : Bool := h.w3.toNat % mdbShardGlobalDedupChunkModulus = 0

namespace XorbChunkSequenceEntry

def withGlobalDedupFlag (c : XorbChunkSequenceEntry) (isGlobalDedupChunk : Bool) :
    XorbChunkSequenceEntry :=
  if isGlobalDedupChunk then { c with flags := c.flags ||| mdbChunkWithGlobalDedupFlag }
  else { c with flags := c.flags &&& ~~~mdbChunkWithGlobalDedupFlag }

def isGlobalDedupEligible (c : XorbChunkSequenceEntry) : Bool :=
  c.flags &&& mdbChunkWithGlobalDedupFlag ≠ 0 || hashIsGlobalDedupEligible c.chunkHash

end XorbChunkSequenceEntry

namespace MDBMinimalShard
variable (m : MDBMinimalShard)

def hasFileVerification : Bool :=
  match m.fileInfoViews with
  | [] => false
  | fileInfoView :: _ => fileInfoView.containsVerification

/-- The size is 0 if verification is asked for and the shard has none. -/
def serializedSize (withVerification : Bool) : ℕ :=
  if withVerification && !m.hasFileVerification then 0
  else 48 + (m.fileInfoViews.map fun fiv => fiv.byteSize withVerification).sum + 48 +
    (m.xorbInfoViews.map MDBXorbInfoView.byteSize).sum + 48 + mdbShardFooterSize

/-- The chunk with which a file starts, under the hash of its xorb. -/
def addFileStart (starts : MerkleMap (List ℕ)) (fv : MDBFileInfoView) : Result (MerkleMap (List ℕ)) :=
  if 0 < fv.numEntries then do
    let entry ← fv.entry 0
    return starts.insert entry.xorbHash (starts.getD entry.xorbHash [] ++ [entry.chunkIndexStart.toNat])
  else return starts

/-- The starting chunks of all files, sorted and without repetitions. -/
def fileStartEntries : Result (MerkleMap (List ℕ)) := do
  let starts ← m.fileInfoViews.foldlM addFileStart ∅
  return starts.map fun _ indices => (indices.mergeSort (· ≤ ·)).dedup

def rewriteChunk (gdeIndices : List ℕ) (idx : ℕ) (chunk : XorbChunkSequenceEntry) :
    XorbChunkSequenceEntry :=
  if idx ∈ gdeIndices then chunk.withGlobalDedupFlag true else chunk

def serializeXorb (fileStartChunks : MerkleMap (List ℕ)) (xorbInfo : MDBXorbInfoView) : Result Bytes :=
  match fileStartChunks[xorbInfo.xorbHash]? with
  | some gdeIndices => xorbInfo.serializeWithChunkRewrite (rewriteChunk gdeIndices)
  | none => xorbInfo.serialize

/-- The number of bytes of a file, as its segments give it. -/
def materializedBytesOf (fileInfo : MDBFileInfoView) : Result ℕ := do
  let entries ← fileInfo.entries
  return (entries.map fun e => e.unpackedSegmentBytes.toNat).sum

def writeSections (files xorbs : Bytes) (footer : MDBShardFileFooter) : Result Bytes := do
  let parts : ShardParts := {
    fileSection := files ++ FileDataSequenceHeader.bookend.serialize
    xorbSection := xorbs ++ XorbChunkSequenceHeader.bookend.serialize
    fileLookup := []
    xorbLookup := []
    chunkLookup := [] }
  let metadata ← parts.offsets footer
  let out := MDBShardInfo.bytesWith { metadata } parts
  ensure (out.length < 2 ^ 64) .panicked
  return out

/-- Writes the files, if they are asked for, and the xorbs that pass the filter; `now` is the time
of writing. -/
def serializeImpl (withFileSection withVerification : Bool) (expiry : Option UInt64) (now : UInt64)
    (xorbFilter : MDBXorbInfoView → Bool) : Result Bytes := do
  let fileStartChunks ← m.fileStartEntries
  let written := if withFileSection then m.fileInfoViews else []
  let sizes ← written.mapM materializedBytesOf
  let materializedBytes ← MDBInMemoryShard.sumU64 sizes
  let files ← written.mapM fun fileInfo => fileInfo.serialize withVerification
  let kept := m.xorbInfoViews.filter xorbFilter
  let storedBytesOnDisk ← MDBInMemoryShard.sumU64 (kept.map fun x => x.header.numBytesOnDisk.toNat)
  let storedBytes ← MDBInMemoryShard.sumU64 (kept.map fun x => x.header.numBytesInXorb.toNat)
  let xorbs ← kept.mapM (serializeXorb fileStartChunks)
  writeSections files.flatten xorbs.flatten {
    shardCreationTimestamp := now
    shardKeyExpiry := expiry.getD 0
    storedBytesOnDisk := UInt64.ofNat storedBytesOnDisk
    materializedBytes := UInt64.ofNat materializedBytes
    storedBytes := UInt64.ofNat storedBytes }

def serializeXorbSubsetOnly (now : UInt64) (xorbFilter : MDBXorbInfoView → Bool) : Result Bytes :=
  m.serializeImpl false false none now xorbFilter

def serializeXorbSubsetWithExpiry (expiry : Option UInt64) (now : UInt64)
    (xorbFilter : MDBXorbInfoView → Bool) :
    Result Bytes := m.serializeImpl false false expiry now xorbFilter

def serialize (withVerification : Bool) (now : UInt64) : Result Bytes :=
  m.serializeImpl true withVerification none now fun _ => true

def insertFileStarts (xorbView : MDBXorbInfoView) (ret : Finset DataHash) (fse : List ℕ) :
    Result (Finset DataHash) :=
  fse.foldlM (fun ret cIdx =>
    if cIdx < xorbView.numEntries then do
      let chunk ← xorbView.chunk cIdx
      return insert chunk.chunkHash ret
    else return ret) ret

/-- The chunks of a xorb that are eligible by their hash or their flag. -/
def insertEligible (xorbView : MDBXorbInfoView) (ret : Finset DataHash) : Result (Finset DataHash) :=
  (List.range xorbView.numEntries).foldlM (fun ret cIdx => do
    let chunk ← xorbView.chunk cIdx
    return if chunk.isGlobalDedupEligible then insert chunk.chunkHash ret else ret) ret

def globalDedupEligibleChunks : Result (Finset DataHash) := do
  let fileStartEntries ← m.fileStartEntries
  m.xorbInfoViews.foldlM (fun ret xorbView => do
    let ret ← insertFileStarts xorbView ret ((fileStartEntries[xorbView.xorbHash]?).getD [])
    insertEligible xorbView ret) ∅

end MDBMinimalShard
end XetCore.Shard
