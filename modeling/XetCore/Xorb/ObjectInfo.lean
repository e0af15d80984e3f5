import XetCore.Xorb.ChunkFormat

/-! # The footer of a xorb

The footer lists the hashes of the chunks and where they end, in the stored bytes and in
the decoded ones, in a section for each, and has a closing part. The older version has no
decoded ends.
-/
namespace XetCore.Xorb
open ByteSources Serialization
open Merkle (DataHash)

def xorbObjectFormatIdentHashes : Bytes := [88,66,76,66,72,83,72]
def xorbObjectFormatIdentBoundaries : Bytes := [88,66,76,66,66,78,68]

def xorbObjectFormatVersionV0 : UInt8 := 0
def xorbObjectFormatVersion : UInt8 := 1
def xorbObjectFormatHashesVersion : UInt8 := 0
def xorbObjectFormatBoundariesVersionNoUnpackedInfo : UInt8 := 0
def xorbObjectFormatBoundariesVersion : UInt8 := 1

abbrev identLength : ℕ := 7
abbrev xorbObjectFormatFooterBufferLen : ℕ := 16

structure XorbObjectInfoV0 where
  ident : Bytes := xorbObjectFormatIdent
  version : UInt8 := xorbObjectFormatVersionV0
  xorbHash : DataHash
  numChunks : ℕ
  chunkBoundaryOffsets : List ℕ
  chunkHashes : List DataHash
  buffer : Bytes
deriving DecidableEq, Repr

def XorbObjectInfoV0.serialize (info : XorbObjectInfoV0) : Bytes :=
  info.ident ++ (writeU8 info.version ++ (writeHash info.xorbHash ++ (writeU32 info.numChunks ++
    (info.chunkBoundaryOffsets.flatMap writeU32 ++ (info.chunkHashes.flatMap writeHash ++ info.buffer)))))

structure XorbObjectInfoV1 where
  ident : Bytes := xorbObjectFormatIdent
  version : UInt8 := xorbObjectFormatVersion
  xorbHash : DataHash := default
  identHashSection : Bytes := xorbObjectFormatIdentHashes
  hashesVersion : UInt8 := xorbObjectFormatHashesVersion
  chunkHashes : List DataHash := []
  identBoundarySection : Bytes := xorbObjectFormatIdentBoundaries
  boundariesVersion : UInt8 := xorbObjectFormatBoundariesVersion
  chunkBoundaryOffsets : List ℕ := []
  unpackedChunkOffsets : List ℕ := []
  numChunks : ℕ := 0
  hashesSectionOffsetFromEnd : ℕ := 0
  boundarySectionOffsetFromEnd : ℕ := 0
  nonceBuffer : Bytes := List.replicate xorbObjectFormatFooterBufferLen 0
deriving DecidableEq, Repr

namespace XorbObjectInfoV1
variable (info : XorbObjectInfoV1)

/-- From the boundary section to the end of the footer. -/
def boundaryLength : ℕ :=
  identLength + 1 + 4 + info.chunkBoundaryOffsets.length * 4 + info.unpackedChunkOffsets.length *
    4 + 4 + 4 + 4 +
    xorbObjectFormatFooterBufferLen

def hashesLength : ℕ := identLength + 1 + 4 + info.chunkHashes.length * 32

def serializedLength : ℕ :=
  identLength * 3 + 3 + 4 * 5 + 32 * info.chunkHashes.length + xorbObjectFormatFooterBufferLen +
    info.chunkBoundaryOffsets.length * 4 + info.unpackedChunkOffsets.length * 4 + 32

def fillInBoundaryOffsets : Result XorbObjectInfoV1 := do
  let boundary := asU32 info.boundaryLength
  let hashes ← addU32 (asU32 info.hashesLength) boundary
  return { info with boundarySectionOffsetFromEnd := boundary, hashesSectionOffsetFromEnd := hashes }

/-- A footer of the older version has no section of decoded ends. -/
def fromV0 (src : XorbObjectInfoV0) : Result XorbObjectInfoV1 :=
  fillInBoundaryOffsets
    { ident := src.ident
      xorbHash := src.xorbHash
      chunkHashes := src.chunkHashes
      boundariesVersion := xorbObjectFormatBoundariesVersionNoUnpackedInfo
      chunkBoundaryOffsets := src.chunkBoundaryOffsets
      numChunks := src.numChunks
      nonceBuffer := src.buffer }

def hashesBytes : Bytes :=
  info.identHashSection ++ (writeU8 info.hashesVersion ++
    (writeU32 info.numChunks ++ info.chunkHashes.flatMap writeHash))

def boundariesBytes : Bytes :=
  info.identBoundarySection ++ (writeU8 info.boundariesVersion ++ (writeU32 info.numChunks ++
    (info.chunkBoundaryOffsets.flatMap writeU32 ++ info.unpackedChunkOffsets.flatMap writeU32)))

def endBytes : Bytes :=
  writeU32 info.numChunks ++ (writeU32 info.hashesSectionOffsetFromEnd ++
    (writeU32 info.boundarySectionOffsetFromEnd ++ info.nonceBuffer))

def footerBytes : Bytes :=
  info.ident ++ (writeU8 info.version ++ (writeHash info.xorbHash ++
    (info.hashesBytes ++ (info.boundariesBytes ++ info.endBytes))))

def serialize : Result Bytes := do
  let expected := info.numChunks
  let hashes := info.chunkHashes.length
  let boundaries := info.chunkBoundaryOffsets.length
  let unpacked := info.unpackedChunkOffsets.length
  ensure (expected = hashes)
    (.malformedData s!"Chunk hash vector not correct length on serialization. ({hashes}, expected {expected})")
  ensure (expected = boundaries) (.malformedData
    s!"Chunk boundary offset vector not correct length on serialization. ({boundaries}, expected {expected})")
  ensure (expected = unpacked) (.malformedData
    s!"Unpacked chunk offset vector not correct length on serialization. ({unpacked}, expected {expected})")
  return info.footerBytes

end XorbObjectInfoV1

section Deserialize
variable {σ : Type} [ByteSource σ]

def XorbObjectInfoV0.deserializeV0 : Reader σ CoreError XorbObjectInfoV0 := do
  let xorbHash ← readHash
  let numChunks ← readU32
  let chunkBoundaryOffsets ← readMany readU32 numChunks
  let chunkHashes ← readMany readHash numChunks
  let buffer ← readBytes xorbObjectFormatFooterBufferLen
  return { xorbHash, numChunks, chunkBoundaryOffsets, chunkHashes, buffer }

namespace XorbObjectInfoV1

/-- The identifier of the hash section, its version, the number of chunks and their hashes. -/
def deserializeHashes : Reader σ CoreError (Bytes × UInt8 × ℕ × List DataHash) := do
  let ident ← readBytes identLength
  ensure (ident = xorbObjectFormatIdentHashes)
    (.malformedData "Xorb Invalid Ident for Hash Metadata Section")
  let version ← readU8
  ensure (version = xorbObjectFormatHashesVersion)
    (.malformedData "Xorb Invalid Format Version for Hash Metadata Section")
  let numChunks ← readU32
  let hashes ← readMany readHash numChunks
  return (ident,version,numChunks,hashes)

variable (numChunks : ℕ)

/-- The identifier of the boundary section, its version, and the two lists of ends. -/
def deserializeBoundaries : Reader σ CoreError (Bytes × UInt8 × List ℕ × List ℕ) := do
  let ident ← readBytes identLength
  ensure (ident = xorbObjectFormatIdentBoundaries)
    (.malformedData "Xorb Invalid Ident for Boundary Metadata Section")
  let version ← readU8
  ensure (version = xorbObjectFormatBoundariesVersion)
    (.malformedData "Xorb Invalid Format Version for Boundaries Metadata Section")
  let numChunks' ← readU32
  ensure (numChunks = numChunks')
    (.malformedData "Xorb Invalid: inconsistent num_chunks between hashes and boundaries section.")
  let boundaries ← readMany readU32 numChunks'
  let unpacked ← readMany readU32 numChunks'
  return (ident,version,boundaries,unpacked)

/-- The number of chunks, the two offsets from the end, and the buffer. -/
def deserializeEnd : Reader σ CoreError (ℕ × ℕ × ℕ × Bytes) := do
  let numChunks' ← readU32
  ensure (numChunks' = numChunks)
    (.malformedData "Xorb Invalid: inconsistent num_chunks between metadata and hashes section.")
  let hashes ← readU32
  let boundary ← readU32
  let nonceBuffer ← readBytes xorbObjectFormatFooterBufferLen
  return (numChunks',hashes,boundary,nonceBuffer)

def deserializeFromBoundaries :
    Reader σ CoreError ((Bytes × UInt8 × List ℕ × List ℕ) × (ℕ × ℕ × ℕ × Bytes)) := do
  let boundaries ← deserializeBoundaries numChunks
  let last ← deserializeEnd numChunks
  return (boundaries,last)

/-- From the hash section on, with the number of bytes from the boundary section on. -/
def deserializeFromHashes : Reader σ CoreError ((Bytes × UInt8 × ℕ × List DataHash) ×
    ((Bytes × UInt8 × List ℕ × List ℕ) × (ℕ × ℕ × ℕ × Bytes)) × ℕ) := do
  let hashes ← deserializeHashes
  let fromBoundaries ← counted (deserializeFromBoundaries hashes.2.2.1)
  return (hashes,fromBoundaries)

/-- What follows the version byte of a current footer. The bytes from the start of either section to
the end are counted, and compared with the offsets. -/
def deserializeV1 (ident : Bytes) (version : UInt8) : Reader σ CoreError XorbObjectInfoV1 := do
  let xorbHash ← readHash
  let fromHashes ← counted deserializeFromHashes
  let hashes := fromHashes.1.1
  let boundaries := fromHashes.1.2.1.1
  let last := fromHashes.1.2.1.2
  ensure (fromHashes.2 = last.2.1)
    (.malformedData "Xorb Invalid: incorrect hashes_section_offset_from_end.")
  ensure (fromHashes.1.2.2 = last.2.2.1)
    (.malformedData "Xorb Invalid: incorrect boundary_section_offset_from_end.")
  return {
    ident, version, xorbHash
    identHashSection := hashes.1
    hashesVersion := hashes.2.1
    chunkHashes := hashes.2.2.2
    identBoundarySection := boundaries.1
    boundariesVersion := boundaries.2.1
    chunkBoundaryOffsets := boundaries.2.2.1
    unpackedChunkOffsets := boundaries.2.2.2
    numChunks := last.1
    hashesSectionOffsetFromEnd := last.2.1
    boundarySectionOffsetFromEnd := last.2.2.1
    nonceBuffer := last.2.2.2 }

def deserializeVersion (ident : Bytes) (version : UInt8) : Reader σ CoreError XorbObjectInfoV1 :=
  if version = xorbObjectFormatVersionV0 then do
    let sv0 ← XorbObjectInfoV0.deserializeV0
    fromV0 sv0
  else do
    ensure (version = xorbObjectFormatVersion) (.malformedData "Xorb Invalid Format Version")
    deserializeV1 ident version

def deserialize : Reader σ CoreError (XorbObjectInfoV1 × ℕ) := do
  let s ← counted do
    let ident ← readBytes identLength
    ensure (ident = xorbObjectFormatIdent) (.malformedData "Xorb Invalid Ident")
    let version ← readU8
    deserializeVersion ident version
  return (s.1,asU32 s.2)

end XorbObjectInfoV1
end Deserialize
end XetCore.Xorb
