import XetCore.Shard.Lookups

/-! # Exporting a keyed shard

A shard is copied record by record, with the hash of every chunk replaced by its keyed hash.
The files and the lookup tables can be left out. The places in the footer are counted beside
the writer.
-/
namespace XetCore.Shard
open ByteSources Serialization SortedTables
open Merkle (DataHash)

structure CountedOut where
  pos : ℕ := 0
  out : Bytes := []
deriving DecidableEq, Repr

def CountedOut.write (w : CountedOut) (bytes : Bytes) (n : ℕ) : CountedOut := ⟨w.pos + n,w.out ++ bytes⟩

structure ExportOptions where
  hmacKey : HMACKey
  includeFileInfo : Bool
  includeXorbLookupTable : Bool
  includeChunkLookupTable : Bool
  creationTimestamp : UInt64
  keyExpiry : UInt64

def FileDataSequenceHeader.numExtendedBytes (h : FileDataSequenceHeader) : ℕ :=
  (if h.containsVerification then h.numEntries.toNat * 48 else 0) +
    (if h.containsMetadataExt then 48 else 0)

theorem FileDataSequenceHeader.numExtendedBytes_eq (h : FileDataSequenceHeader) :
    h.numFollowing * 48 = h.numEntries.toNat * 48 + h.numExtendedBytes := by
  unfold numFollowing numExtendedBytes
  split <;> split <;> ring

structure FileExport where
  written : CountedOut
  fileLookup : List (ℕ × ℕ) := []
  index : ℕ := 0
  materializedBytes : ℕ := 0

structure XorbExport where
  written : CountedOut
  xorbLookup : List (ℕ × ℕ) := []
  chunkLookup : List (ℕ × ℕ × ℕ) := []
  xorbIndex : ℕ := 0
  storedBytesOnDisk : ℕ := 0
  storedBytes : ℕ := 0

namespace MDBShardInfo
variable (hmac : DataHash → HMACKey → DataHash) (o : ExportOptions)

def exportEntries : ℕ → FileExport → Reader Bytes CoreError FileExport
  | 0, s => return s
  | n + 1, s => do
    let entry ← FileDataSequenceEntry.deserialize
    let materializedBytes ← addUsize s.materializedBytes entry.unpackedSegmentBytes.toNat
    exportEntries n { s with materializedBytes, written := s.written.write entry.serialize 48 }

/-- Copies a file. The records behind the segments are copied as far as there are any. -/
def exportFile (s : FileExport) (header : FileDataSequenceHeader) :
    Reader Bytes CoreError FileExport := do
  let s ← exportEntries header.numEntries.toNat { s with written := s.written.write header.serialize 48 }
  let extended ← readLimited header.numExtendedBytes
  let index ← addU32 s.index (asU32
    (1 + header.numEntries.toNat + header.numExtendedBytes / mdbFileInfoEntrySize))
  return { s with
    written := s.written.write extended extended.length
    fileLookup := s.fileLookup ++ [(header.fileHash.truncateHash,s.index)]
    index }

/-- A file that is left out is skipped only by the bytes behind its segments. -/
def exportFileStep (s : FileExport) : Reader Bytes CoreError (FileExport ⊕ FileExport) := do
  let header ← FileDataSequenceHeader.deserialize
  if header.isBookend then return .inr { s with written := s.written.write header.serialize 48 }
  else if o.includeFileInfo then Sum.inl <$> exportFile s header
  else do
    let _ ← readLimited header.numExtendedBytes
    return .inl s

/-- The hash of a chunk under the key, unless the key is the default one. -/
def exportedChunk (chunk : XorbChunkSequenceEntry) : XorbChunkSequenceEntry :=
  if o.hmacKey ≠ default then { chunk with chunkHash := hmac chunk.chunkHash o.hmacKey } else chunk

variable (s : XorbExport)

def exportChunk (chunkIndex : ℕ) (chunk : XorbChunkSequenceEntry) : XorbExport :=
  let chunk := exportedChunk hmac o chunk
  { s with
    chunkLookup :=
      if o.includeChunkLookupTable then s.chunkLookup ++
        [(chunk.chunkHash.truncateHash,s.xorbIndex,chunkIndex)]
      else s.chunkLookup
    written := s.written.write chunk.serialize 48 }

def exportChunks : ℕ → ℕ → XorbExport → Reader Bytes CoreError XorbExport
  | 0, _, s => return s
  | n + 1, chunkIndex, s => do
    let chunk ← XorbChunkSequenceEntry.deserialize
    exportChunks n (chunkIndex + 1) (exportChunk hmac o s chunkIndex chunk)

def exportXorb (header : XorbChunkSequenceHeader) : Reader Bytes CoreError XorbExport := do
  let s ← exportChunks hmac o header.numEntries.toNat 0 { s with
    xorbLookup :=
      if o.includeXorbLookupTable then s.xorbLookup ++ [(header.xorbHash.truncateHash,s.xorbIndex)]
        else s.xorbLookup }
  let numRecords ← addU32 1 header.numEntries.toNat
  let xorbIndex ← addU32 s.xorbIndex numRecords
  let storedBytesOnDisk ← addUsize s.storedBytesOnDisk header.numBytesOnDisk.toNat
  let storedBytes ← addUsize s.storedBytes header.numBytesInXorb.toNat
  return { s with xorbIndex, storedBytesOnDisk, storedBytes }

def exportXorbStep : Reader Bytes CoreError (XorbExport ⊕ XorbExport) := do
  let header ← XorbChunkSequenceHeader.deserialize
  let s := { s with written := s.written.write header.serialize 48 }
  if header.isBookend then return .inr s else Sum.inl <$> exportXorb hmac o s header

def exportFiles (s : FileExport) : Reader Bytes CoreError FileExport :=
  readerLoop (.io .unexpectedEof) (exportFileStep o) s

def exportXorbs : Reader Bytes CoreError XorbExport :=
  readerLoop (.io .unexpectedEof) (exportXorbStep hmac o) s

def exportTables (fileInfoOffset : ℕ) (files : FileExport) (xorbs : XorbExport) : CountedOut :=
  let fileLookup := if o.includeFileInfo then files.fileLookup else []
  let xorbLookup := if o.includeXorbLookupTable then xorbs.xorbLookup else []
  let chunkLookup := if o.includeChunkLookupTable then (KeySort.stable _).sort xorbs.chunkLookup else []
  let afterFiles := xorbs.written.write (writeLookup fileLookup) (fileLookup.length * 12)
  let afterXorbs := afterFiles.write (writeLookup xorbLookup) (xorbLookup.length * 12)
  let afterChunks := afterXorbs.write (writeChunkLookup chunkLookup) (chunkLookup.length * 16)
  let footer : MDBShardFileFooter := {
    fileInfoOffset := UInt64.ofNat fileInfoOffset
    xorbInfoOffset := UInt64.ofNat files.written.pos
    fileLookupOffset := UInt64.ofNat xorbs.written.pos
    fileLookupNumEntry := UInt64.ofNat fileLookup.length
    xorbLookupOffset := UInt64.ofNat afterFiles.pos
    xorbLookupNumEntry := UInt64.ofNat xorbLookup.length
    chunkLookupOffset := UInt64.ofNat afterXorbs.pos
    chunkLookupNumEntry := UInt64.ofNat chunkLookup.length
    chunkHashHmacKey := o.hmacKey
    shardCreationTimestamp := o.creationTimestamp
    shardKeyExpiry := o.keyExpiry
    storedBytesOnDisk := UInt64.ofNat xorbs.storedBytesOnDisk
    materializedBytes := UInt64.ofNat files.materializedBytes
    storedBytes := UInt64.ofNat xorbs.storedBytes
    footerOffset := UInt64.ofNat afterChunks.pos }
  afterChunks.write footer.serialize mdbShardFooterSize

/-- Writes the keyed shard and returns the number of bytes written. -/
def exportAsKeyedShard : Reader Bytes CoreError CountedOut := do
  let inHeader ← MDBShardFileHeader.deserialize
  let start := CountedOut.write {} inHeader.serialize 48
  let files ← exportFiles o { written := start }
  let xorbs ← exportXorbs hmac o { written := files.written }
  return exportTables o start.pos files xorbs

end MDBShardInfo
end XetCore.Shard
