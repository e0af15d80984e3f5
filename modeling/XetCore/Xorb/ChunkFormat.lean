import XetCore.Xorb.CompressionScheme

/-! # The chunk format

A chunk is stored as a header of eight bytes and its compressed bytes. There are two
decoders. One lets the frame decoder read from the source, within the compressed length.
The other one reads the compressed bytes first and decodes them in memory.
-/
namespace XetCore.Xorb
open ByteSources LittleEndian Serialization

def maxChunkSize : ℕ := 64 * 1024 * 2

abbrev chunkHeaderLength : ℕ := 8

def currentVersion : UInt8 := 0

def xorbObjectFormatIdent : Bytes := [88,69,84,66,76,79,66]

structure XorbChunkHeader where
  version : UInt8
  compressedLength : Fin (2 ^ 24)
  compressionScheme : UInt8
  uncompressedLength : Fin (2 ^ 24)
deriving DecidableEq, Repr

namespace XorbChunkHeader

/-- Three bytes hold a length, higher ones are cut off. -/
def new (compressionScheme : CompressionScheme) (compressedLength uncompressedLength : ℕ) :
    XorbChunkHeader where
  version := currentVersion
  compressedLength := Fin.ofNat (2 ^ 24) compressedLength
  compressionScheme := compressionScheme.toU8
  uncompressedLength := Fin.ofNat (2 ^ 24) uncompressedLength

def getCompressionScheme (h : XorbChunkHeader) : Result CompressionScheme :=
  CompressionScheme.ofU8 h.compressionScheme

def validate (h : XorbChunkHeader) : Result Unit := do
  let _ ← h.getCompressionScheme
  let version := h.version
  let compressed := h.compressedLength.val
  let uncompressed := h.uncompressedLength.val
  ensure (version ≤ currentVersion)
    (.malformedData s!"chunk header version too high at {version}, current version is {currentVersion}")
  ensure (compressed ≤ maxChunkSize * 2)
    (.malformedData s!"chunk header compressed length too large at {compressed}, maximum: {maxChunkSize}")
  ensure (uncompressed ≤ maxChunkSize)
    (.malformedData s!"chunk header uncompressed length too large at {uncompressed}, maximum: {maxChunkSize}")

/-- The eight bytes of a header, in the order of its fields. -/
def ofBytes (bs : Bytes) : XorbChunkHeader where
  version := bs.getD 0 0
  compressedLength := Fin.ofNat (2 ^ 24) (ofLE ((bs.drop 1).take 3))
  compressionScheme := bs.getD 4 0
  uncompressedLength := Fin.ofNat (2 ^ 24) (ofLE ((bs.drop 5).take 3))

end XorbChunkHeader

def writeChunkHeader (h : XorbChunkHeader) : Bytes :=
  [h.version] ++ toLE 3 h.compressedLength ++ [h.compressionScheme] ++ toLE 3 h.uncompressedLength

def parseChunkHeader (bs : Bytes) : Result XorbChunkHeader := do
  ensure (bs.take xorbObjectFormatIdent.length ≠ xorbObjectFormatIdent) .chunkHeaderParse
  let result := XorbChunkHeader.ofBytes bs
  result.validate
  return result

variable (Z : Compressor)

/-- The written bytes and their number. A chunk that does not get smaller is stored as it is. -/
def serializeChunk (chunk : Bytes) (compressionScheme : CompressionScheme) :
    Result (Bytes × ℕ) := do
  let resolved := Z.resolveForData compressionScheme chunk
  ensure (resolved ≠ .auto) (.malformedData
    "CompressionScheme::Auto cannot be serialized into xorb chunks")
  let compressed := Z.compressFromSlice resolved chunk
  let stored := if compressed.length ≥ chunk.length then (.none,chunk) else (resolved,compressed)
  let header := XorbChunkHeader.new stored.1 (asU32 stored.2.length) (asU32 chunk.length)
  return (writeChunkHeader header ++ stored.2,chunkHeaderLength + stored.2.length)

def lengthMismatch : CoreError :=
  .malformedData "chunk is corrupted, uncompressed bytes len doesn't agree with chunk header"

section Decoders
variable {σ : Type} [ByteSource σ]

def deserializeChunkHeader : Reader σ CoreError XorbChunkHeader := do
  let buf ← readBytes chunkHeaderLength
  parseChunkHeader buf

/-- The decoded bytes, the length of the chunk with its header, and the length of the decoded bytes.
-/
def deserializeChunkWithHeaderToWriter (header : XorbChunkHeader) :
    Reader σ CoreError (Bytes × ℕ × ℕ) := do
  let scheme ← header.getCompressionScheme
  let uncompressed ← Z.decompressFromReader scheme header.compressedLength
  ensure (uncompressed.length = header.uncompressedLength) lengthMismatch
  return (uncompressed,header.compressedLength + chunkHeaderLength,asU32 uncompressed.length)

def deserializeChunk : Reader σ CoreError (Bytes × ℕ × ℕ) := do
  let header ← deserializeChunkHeader
  deserializeChunkWithHeaderToWriter Z header

/-- The decoder that reads all compressed bytes first. -/
def deserializeChunkWithHeaderToWriterAsync (header : XorbChunkHeader) :
    Reader σ CoreError (Bytes × ℕ × ℕ) := do
  let compressed ← readBytes header.compressedLength
  let scheme ← header.getCompressionScheme
  let uncompressed ← Z.decompressFromSlice scheme compressed
  ensure (uncompressed.length = header.uncompressedLength) lengthMismatch
  return (uncompressed,header.compressedLength + chunkHeaderLength,asU32 uncompressed.length)

/-- The next header, or nothing at the end. Both decoders find the end in this way. -/
def tryReadChunkHeader : Reader σ CoreError (Option XorbChunkHeader) := do
  match ← readOrEnd (.io .unexpectedEof) chunkHeaderLength with
  | none => return none
  | some buf => some <$> parseChunkHeader buf

structure DecodedChunks where
  data : Bytes := []
  numCompressedWritten : ℕ := 0
  numUncompressedWritten : ℕ := 0
  chunkByteIndices : List ℕ := [0]
deriving DecidableEq, Repr

def DecodedChunks.push (d : DecodedChunks) (chunk : Bytes × ℕ × ℕ) (numUncompressedWritten : ℕ) :
    DecodedChunks where
  data := d.data ++ chunk.1
  numCompressedWritten := d.numCompressedWritten + chunk.2.1
  numUncompressedWritten := numUncompressedWritten
  chunkByteIndices := d.chunkByteIndices ++ [numUncompressedWritten]

/-- The loop over the chunks of a source; `fuel` bounds their number. -/
def deserializeChunksLoop (decodeChunk : XorbChunkHeader → Reader σ CoreError (Bytes × ℕ × ℕ)) :
    ℕ → DecodedChunks → Reader σ CoreError DecodedChunks
  | 0, d => return d
  | fuel + 1, d => do
    match ← tryReadChunkHeader with
    | none => return d
    | some header =>
      let chunk ← decodeChunk header
      let total ← addU32 d.numUncompressedWritten chunk.2.2
      deserializeChunksLoop decodeChunk fuel (d.push chunk total)

def deserializeChunksWith (decodeChunk : XorbChunkHeader → Reader σ CoreError (Bytes × ℕ × ℕ)) :
    Reader σ CoreError (Bytes × List ℕ) := do
  let available ← peek
  let d ← deserializeChunksLoop decodeChunk (available.length + 1) {}
  return (d.data,d.chunkByteIndices)

def deserializeChunks (reader : σ) : Result (Bytes × List ℕ) :=
  ((deserializeChunksWith (deserializeChunkWithHeaderToWriter Z)).run reader).map Prod.fst

def deserializeChunksFromAsyncRead (reader : σ) : Result (Bytes × List ℕ) :=
  ((deserializeChunksWith (deserializeChunkWithHeaderToWriterAsync Z)).run reader).map Prod.fst

end Decoders

def deserializeChunksFromStream (items : List Bytes) : Result (Bytes × List ℕ) :=
  deserializeChunksFromAsyncRead Z (ItemStream.mk items)

/-- Appends the data and the offsets of a further segment. -/
def appendChunkSegment (all segment : Bytes × List ℕ) : Result (Bytes × List ℕ) := do
  let baseOffset := asU32 all.1.length
  if all.2.isEmpty then return (all.1 ++ segment.1,all.2 ++ segment.2)
  let rebased ← (segment.2.drop 1).mapM fun o => addU32 o baseOffset
  return (all.1 ++ segment.1,all.2 ++ rebased)

end XetCore.Xorb
