import XetCore.Lib.Extent
import XetCore.Shard.FileStructs
import XetCore.Xorb.ObjectFormat

/-! # Writing xorb objects

A xorb is built from chunks and written with its footer. With automatic compression the
scheme is chosen anew at the start of each file and after a number of chunks. A server that
receives the chunks alone builds the footer again from them.
-/
namespace XetCore.Xorb
open ByteSources Serialization Extents Shard
open Merkle (DataHash xorbHash)

def maxXorbBytes : ℕ := 64 * 1024 * 1024

structure Chunk where
  hash : DataHash
  data : Bytes
deriving DecidableEq, Repr

def Chunk.new (E : XorbEnv) (data : Bytes) : Chunk where
  hash := E.dataHash data
  data := data

structure RawXorbData where
  data : List Bytes
  xorbInfo : MDBXorbInfo
  fileBoundaries : List ℕ

namespace RawXorbData

/-- The entries of the chunks from a position on, and the position behind them. -/
def entriesFrom : ℕ → List Chunk → Result (List XorbChunkSequenceEntry × ℕ)
  | pos, [] => return ([],pos)
  | pos, c :: cs => do
    let entry ← XorbChunkSequenceEntry.new c.hash c.data.length pos
    let rest ← entriesFrom (pos + c.data.length) cs
    return (entry :: rest.1,rest.2)

def fromChunks (E : XorbEnv) (chunks : List Chunk) (fileBoundaries : List ℕ) : Result RawXorbData := do
  let entries ← entriesFrom 0 chunks
  let hash := xorbHash E.hasher (chunks.map fun c => (c.hash,c.data.length))
  let metadata ← XorbChunkSequenceHeader.new hash chunks.length entries.2
  return { data := chunks.map Chunk.data, xorbInfo := { metadata, chunks := entries.1 }, fileBoundaries }

def hash (xorb : RawXorbData) : DataHash := xorb.xorbInfo.metadata.xorbHash

def numBytes (xorb : RawXorbData) : ℕ := xorb.xorbInfo.metadata.numBytesInXorb.toNat

end RawXorbData

/-- The bytes written so far, and where each chunk ends in them. -/
structure WrittenChunks where
  data : Bytes := []
  boundaryOffsets : List ℕ := []
deriving DecidableEq, Repr

section Serialize
variable (Z : Compressor)

def writeChunk (scheme : CompressionScheme) (w : WrittenChunks) (chunk : Bytes) :
    Result WrittenChunks := do
  let r ← serializeChunk Z chunk scheme
  return { data := w.data ++ r.1, boundaryOffsets := w.boundaryOffsets ++ [asU32 (w.data ++ r.1).length] }

def sliceAt {α : Type} (xs : List α) (a b : ℕ) : Result (List α) :=
  if a ≤ b ∧ b ≤ xs.length then .ok (slice xs a b) else .error .panicked

/-- The chunks up to an index, in blocks with a scheme each; `fuel` bounds the number of blocks. -/
def writeBlocks (data : List Bytes) (retestInterval endIdx : ℕ) :
    ℕ → ℕ → WrittenChunks → Result WrittenChunks
  | 0, _, w => return w
  | fuel + 1, sIdx, w =>
    if sIdx < endIdx then do
      let next ← addUsize sIdx retestInterval
      let nIdx := min next endIdx
      let first ← unwrap data[sIdx]?
      let block ← sliceAt data sIdx nIdx
      let w ← block.foldlM (writeChunk Z (Z.chooseFromData first)) w
      writeBlocks data retestInterval endIdx fuel nIdx w
    else return w

def writeFiles (data : List Bytes) (retestInterval : ℕ) :
    List ℕ → WrittenChunks → Result WrittenChunks
  | [], w => return w
  | startIdx :: rest, w => do
    let endIdx := rest.head?.getD data.length
    let w ← writeBlocks Z data retestInterval endIdx endIdx startIdx w
    writeFiles data retestInterval rest w

/-- The number of chunks after which the scheme is chosen anew. -/
def retestInterval (numChunks interval : ℕ) : ℕ := if interval > 0 then interval else numChunks

def writeData (xorb : RawXorbData) (scheme : CompressionScheme) (interval : ℕ) : Result WrittenChunks :=
  if scheme = .auto ∧ xorb.data.length ≠ 0 then
    writeFiles Z xorb.data (retestInterval xorb.data.length interval) xorb.fileBoundaries {}
  else xorb.data.foldlM (writeChunk Z scheme) {}

end Serialize

structure SerializedXorbObject where
  serializedData : Bytes
  hash : DataHash
  rawNumBytes : ℕ
  numChunks : ℕ
  footerStart : Option ℕ
deriving DecidableEq, Repr

def footerBytesIf (serializeFooter : Bool) (info : XorbObjectInfoV1) : Result Bytes :=
  if serializeFooter then do
    let r ← XorbObject.serializeGivenInfo info
    return r.2
  else return []

def SerializedXorbObject.fromXorbWithCompression (E : XorbEnv) (xorb : RawXorbData)
    (scheme : CompressionScheme)
    (serializeFooter : Bool) (interval : ℕ) : Result SerializedXorbObject := do
  let chunksAndBoundaries ← xorb.xorbInfo.chunksAndBoundaries
  let written ← writeData E.lz4 xorb scheme interval
  let info ← XorbObjectInfoV1.fillInBoundaryOffsets {
    xorbHash := xorb.hash
    numChunks := asU32 chunksAndBoundaries.length
    chunkHashes := chunksAndBoundaries.map Prod.fst
    unpackedChunkOffsets := chunksAndBoundaries.map Prod.snd
    chunkBoundaryOffsets := written.boundaryOffsets }
  let footer ← footerBytesIf serializeFooter info
  return {
    serializedData := written.data ++ footer
    hash := xorb.hash
    rawNumBytes := xorb.numBytes
    numChunks := xorb.data.length
    footerStart := if serializeFooter then some written.data.length else none }

def CoreError.text : CoreError → String
  | .io .unexpectedEof => "I/O error: failed to fill whole buffer"
  | .io .invalidInput => "I/O error: invalid input parameter"
  | .io .other => "I/O error: other error"
  | .malformedData m => s!"Malformed data: {m}"
  | .chunkHeaderParse => "Chunk header parse error"
  | .invalidRange => "Invalid range"
  | .invalidArguments => "Invalid arguments"
  | .internalError m => s!"Internal error: {m}"
  | .truncatedHashCollision hash => s!"Too many collisions for truncated hash: {hash}"
  | .shardVersion m => s!"Shard version error: {m}"
  | .invalidShard m => s!"Invalid shard: {m}"
  | .panicked => ""

/-- What was gathered from the chunks of an object without a footer. -/
structure RebuiltChunks where
  hashAndSize : List (DataHash × ℕ) := []
  chunkHashes : List DataHash := []
  chunkBoundaryOffsets : List ℕ := []
  unpackedChunkOffsets : List ℕ := []
  written : Bytes := []
deriving DecidableEq, Repr

section Reconstruct
variable (E : XorbEnv)

def rebuildChunk (header : XorbChunkHeader) (reader : Bytes) (s : RebuiltChunks) :
    Result (RebuiltChunks × Bytes) := do
  let r ← ((readBytes header.compressedLength).run reader).mapError
    fun _ => .malformedData "Failed to read chunk data: failed to fill whole buffer"
  let scheme ← header.getCompressionScheme
  let data ← (E.lz4.decompressFromSlice scheme r.1).mapError fun e =>
    let text := CoreError.text e
    .malformedData s!"Failed to decompress chunk: {text}"
  let chunkHash := E.dataHash data
  let boundary ← addU32 (s.chunkBoundaryOffsets.getLast?.getD 0)
    (asU32 (chunkHeaderLength + header.compressedLength))
  let unpacked ← addU32 (s.unpackedChunkOffsets.getLast?.getD 0) (asU32 data.length)
  return ({
    hashAndSize := s.hashAndSize ++ [(chunkHash,data.length)]
    chunkHashes := s.chunkHashes ++ [chunkHash]
    chunkBoundaryOffsets := s.chunkBoundaryOffsets ++ [boundary]
    unpackedChunkOffsets := s.unpackedChunkOffsets ++ [unpacked]
    written := s.written ++ writeChunkHeader header ++ r.1 },r.2)

/-- The chunks up to the end or to the footer; `fuel` bounds their number. -/
def rebuildChunks : ℕ → Bytes → RebuiltChunks → Result RebuiltChunks
  | 0, _, s => return s
  | fuel + 1, reader, s =>
    if reader.isEmpty then return s
    else match deserializeChunkHeader.run reader with
      | .error .chunkHeaderParse => return s
      | .error e => throw e
      | .ok r => do
        let next ← rebuildChunk E r.1 r.2 s
        rebuildChunks fuel next.2 next.1

/-- The object and its hash, and the bytes that are written. -/
def reconstructXorbWithFooter (rawData : Bytes) : Result ((XorbObject × DataHash) × Bytes) := do
  let s ← rebuildChunks E (rawData.length + 1) rawData {}
  let computedHash := xorbHash E.hasher s.hashAndSize
  let info ← XorbObjectInfoV1.fillInBoundaryOffsets {
    xorbHash := computedHash
    chunkHashes := s.chunkHashes
    chunkBoundaryOffsets := s.chunkBoundaryOffsets
    unpackedChunkOffsets := s.unpackedChunkOffsets
    numChunks := asU32 s.hashAndSize.length }
  let r ← XorbObject.serializeGivenInfo info
  return ((r.1,computedHash),s.written ++ r.2)

end Reconstruct
end XetCore.Xorb
