import XetCore.Serialization.Primitives
import XetCore.Lib.FixedReader

/-! # Xorb and file records

A xorb is recorded as a header and one entry for each chunk. A file is recorded as a header,
an entry for each segment and, if the flags of the header say so, a verification entry for
each segment and an extension. All of these have 48 bytes.
-/
namespace XetCore.Shard
open ByteSources Serialization
open Merkle (DataHash)

variable {σ : Type} [ByteSource σ]

def mdbDefaultXorbFlag : UInt32 := 0
def mdbChunkWithGlobalDedupFlag : UInt32 := (1 : UInt32) <<< 31

structure XorbChunkSequenceHeader where
  xorbHash : DataHash := default
  xorbFlags : UInt32 := 0
  numEntries : UInt32 := 0
  numBytesInXorb : UInt32 := 0
  numBytesOnDisk : UInt32 := 0
deriving DecidableEq, Repr, Inhabited

namespace XorbChunkSequenceHeader

def new (xorbHash : DataHash) (numEntries numBytesInXorb : ℕ) : Result XorbChunkSequenceHeader := do
  let numEntries ← tryIntoU32 numEntries
  let numBytesInXorb ← tryIntoU32 numBytesInXorb
  return { xorbHash, xorbFlags := mdbDefaultXorbFlag, numEntries, numBytesInXorb }

def bookend : XorbChunkSequenceHeader := { xorbHash := DataHash.marker }

variable (h : XorbChunkSequenceHeader)

def isBookend : Bool := h.xorbHash = DataHash.marker

def serialize : Bytes :=
  writeHash h.xorbHash ++ (writeWord32 h.xorbFlags ++
    (writeWord32 h.numEntries ++ (writeWord32 h.numBytesInXorb ++
    writeWord32 h.numBytesOnDisk)))

def deserialize : Reader σ CoreError XorbChunkSequenceHeader := do
  let xorbHash ← readHash
  let xorbFlags ← readWord32
  let numEntries ← readWord32
  let numBytesInXorb ← readWord32
  let numBytesOnDisk ← readWord32
  return { xorbHash, xorbFlags, numEntries, numBytesInXorb, numBytesOnDisk }

@[simp] theorem length_serialize : h.serialize.length = 48 := by simp [serialize]

theorem reads : Reads deserialize h.serialize h :=
  (reads_hash _).bind ((reads_word32 _).bind ((reads_word32 _).bind ((reads_word32 _).bind
    ((reads_word32 _).bind_pure _))))

end XorbChunkSequenceHeader

structure XorbChunkSequenceEntry where
  chunkHash : DataHash := default
  chunkByteRangeStart : UInt32 := 0
  unpackedSegmentBytes : UInt32 := 0
  flags : UInt32 := 0
  unused : UInt32 := 0
deriving DecidableEq, Repr, Inhabited

namespace XorbChunkSequenceEntry

def new (chunkHash : DataHash) (unpackedSegmentBytes chunkByteRangeStart : ℕ) :
    Result XorbChunkSequenceEntry := do
  let unpackedSegmentBytes ← tryIntoU32 unpackedSegmentBytes
  let chunkByteRangeStart ← tryIntoU32 chunkByteRangeStart
  return { chunkHash, chunkByteRangeStart, unpackedSegmentBytes }

variable (c : XorbChunkSequenceEntry)

def serialize : Bytes :=
  writeHash c.chunkHash ++ (writeWord32 c.chunkByteRangeStart ++ (writeWord32 c.unpackedSegmentBytes ++
    (writeWord32 c.flags ++ writeWord32 c.unused)))

def deserialize : Reader σ CoreError XorbChunkSequenceEntry := do
  let chunkHash ← readHash
  let chunkByteRangeStart ← readWord32
  let unpackedSegmentBytes ← readWord32
  let flags ← readWord32
  let unused ← readWord32
  return { chunkHash, chunkByteRangeStart, unpackedSegmentBytes, flags, unused }

@[simp] theorem length_serialize : c.serialize.length = 48 := by simp [serialize]

theorem reads : Reads deserialize c.serialize c :=
  (reads_hash _).bind ((reads_word32 _).bind ((reads_word32 _).bind ((reads_word32 _).bind
    ((reads_word32 _).bind_pure _))))

end XorbChunkSequenceEntry

structure MDBXorbInfo where
  metadata : XorbChunkSequenceHeader
  chunks : List XorbChunkSequenceEntry
deriving DecidableEq, Repr, Inhabited

namespace MDBXorbInfo

variable (x : MDBXorbInfo)

def numBytes : ℕ := 48 + x.chunks.length * 48

def serialize : Bytes := x.metadata.serialize ++ x.chunks.flatMap XorbChunkSequenceEntry.serialize

/-- The entries behind a header, or nothing behind the bookend. -/
def deserializeEntries (metadata : XorbChunkSequenceHeader) : Reader σ CoreError (Option MDBXorbInfo) :=
  if metadata.isBookend then return none
  else do
    let chunks ← readMany XorbChunkSequenceEntry.deserialize metadata.numEntries.toNat
    return some { metadata, chunks }

def deserialize : Reader σ CoreError (Option MDBXorbInfo) := do
  let metadata ← XorbChunkSequenceHeader.deserialize
  deserializeEntries metadata

def chunksAndBoundaries : Result (List (DataHash × ℕ)) :=
  x.chunks.mapM fun c => do
    let stop ← addU32 c.chunkByteRangeStart.toNat c.unpackedSegmentBytes.toNat
    return (c.chunkHash,stop)

end MDBXorbInfo

abbrev mdbFileInfoEntrySize : ℕ := 48

def mdbDefaultFileFlag : UInt32 := 0
def mdbFileFlagWithVerification : UInt32 := (1 : UInt32) <<< 31
def mdbFileFlagVerificationMask : UInt32 := (1 : UInt32) <<< 31
def mdbFileFlagWithMetadataExt : UInt32 := (1 : UInt32) <<< 30
def mdbFileFlagMetadataExtMask : UInt32 := (1 : UInt32) <<< 30

structure FileDataSequenceHeader where
  fileHash : DataHash := default
  fileFlags : UInt32 := 0
  numEntries : UInt32 := 0
  unused : UInt64 := 0
deriving DecidableEq, Repr, Inhabited

namespace FileDataSequenceHeader

def flagsOf (containsVerification containsMetadataExt : Bool) : UInt32 :=
  mdbDefaultFileFlag ||| (if containsVerification then mdbFileFlagWithVerification else 0) |||
    (if containsMetadataExt then mdbFileFlagWithMetadataExt else 0)

def new (fileHash : DataHash) (numEntries : ℕ) (containsVerification containsMetadataExt : Bool) :
    Result FileDataSequenceHeader := do
  let numEntries ← tryIntoU32 numEntries
  return { fileHash, fileFlags := flagsOf containsVerification containsMetadataExt, numEntries }

def bookend : FileDataSequenceHeader := { fileHash := DataHash.marker }

variable (h : FileDataSequenceHeader)

def isBookend : Bool := h.fileHash = DataHash.marker

def serialize : Bytes :=
  writeHash h.fileHash ++ (writeWord32 h.fileFlags ++ (writeWord32 h.numEntries ++ writeWord64 h.unused))

def deserialize : Reader σ CoreError FileDataSequenceHeader := do
  let fileHash ← readHash
  let fileFlags ← readWord32
  let numEntries ← readWord32
  let unused ← readWord64
  return { fileHash, fileFlags, numEntries, unused }

def containsMetadataExt : Bool := h.fileFlags &&& mdbFileFlagMetadataExtMask ≠ 0

def containsVerification : Bool := h.fileFlags &&& mdbFileFlagVerificationMask ≠ 0

/-- The number of records behind the header. The sum has 32 bits. -/
def numInfoEntryFollowing : Result ℕ := do
  let numMetadataExt := if h.containsMetadataExt then 1 else 0
  if h.containsVerification then do
    let twice ← addU32 h.numEntries.toNat h.numEntries.toNat
    addU32 twice numMetadataExt
  else addU32 h.numEntries.toNat numMetadataExt

/-- The number of records behind the header, where it is counted in machine words. -/
def numFollowing : ℕ :=
  h.numEntries.toNat + (if h.containsVerification then h.numEntries.toNat else 0) +
    (if h.containsMetadataExt then 1 else 0)

@[simp] theorem length_serialize : h.serialize.length = 48 := by simp [serialize]

theorem reads : Reads deserialize h.serialize h :=
  (reads_hash _).bind ((reads_word32 _).bind ((reads_word32 _).bind ((reads_word64 _).bind_pure _)))

end FileDataSequenceHeader

inductive SupersetResult where
  | superA
  | superB
  | neither
  | equal
deriving DecidableEq, Repr

def FileDataSequenceHeader.compareFlagSuperset (headerA headerB : FileDataSequenceHeader) :
    SupersetResult :=
  if headerA.fileFlags = headerB.fileFlags then .equal
  else if headerA.fileFlags &&& headerB.fileFlags = headerB.fileFlags then .superA
  else if headerB.fileFlags &&& headerA.fileFlags = headerA.fileFlags then .superB
  else .neither

structure FileDataSequenceEntry where
  xorbHash : DataHash := default
  xorbFlags : UInt32 := 0
  unpackedSegmentBytes : UInt32 := 0
  chunkIndexStart : UInt32 := 0
  chunkIndexEnd : UInt32 := 0
deriving DecidableEq, Repr, Inhabited

namespace FileDataSequenceEntry

variable (e : FileDataSequenceEntry)

def serialize : Bytes :=
  writeHash e.xorbHash ++ (writeWord32 e.xorbFlags ++ (writeWord32 e.unpackedSegmentBytes ++
    (writeWord32 e.chunkIndexStart ++ writeWord32 e.chunkIndexEnd)))

def deserialize : Reader σ CoreError FileDataSequenceEntry := do
  let xorbHash ← readHash
  let xorbFlags ← readWord32
  let unpackedSegmentBytes ← readWord32
  let chunkIndexStart ← readWord32
  let chunkIndexEnd ← readWord32
  return { xorbHash, xorbFlags, unpackedSegmentBytes, chunkIndexStart, chunkIndexEnd }

@[simp] theorem length_serialize : e.serialize.length = 48 := by simp [serialize]

theorem reads : Reads deserialize e.serialize e :=
  (reads_hash _).bind ((reads_word32 _).bind ((reads_word32 _).bind ((reads_word32 _).bind
    ((reads_word32 _).bind_pure _))))

end FileDataSequenceEntry

/-- Two words that are written with a record and not read back. -/
abbrev SpareWords := UInt64 × UInt64

def writeSpareWords (w : SpareWords) : Bytes := writeWord64 w.1 ++ writeWord64 w.2

structure FileVerificationEntry where
  rangeHash : DataHash := default
  unused : SpareWords := (0,0)
deriving DecidableEq, Repr, Inhabited

structure FileMetadataExt where
  sha256 : DataHash := default
  unused : SpareWords := (0,0)
deriving DecidableEq, Repr, Inhabited

/-- A hash with sixteen bytes behind it that are skipped. -/
def readPaddedHash : Reader σ CoreError DataHash := do
  let hash ← readHash
  let _ ← readBytes 16
  return hash

theorem reads_paddedHash (h : DataHash) (w : SpareWords) :
    Reads readPaddedHash (writeHash h ++ writeSpareWords w) h := by
  have hlen : (writeSpareWords w).length = 16 := by simp [writeSpareWords]
  exact (reads_hash h).bind ((reads_bytes_of_length hlen).bind_pure _)

namespace FileVerificationEntry

variable (v : FileVerificationEntry)

def serialize : Bytes := writeHash v.rangeHash ++ writeSpareWords v.unused

def deserialize : Reader σ CoreError FileVerificationEntry := do
  let rangeHash ← readPaddedHash
  return { rangeHash }

def stripped : FileVerificationEntry := { rangeHash := v.rangeHash }

@[simp] theorem length_serialize : v.serialize.length = 48 := by
  simp [serialize,writeSpareWords]

theorem reads : Reads deserialize v.serialize v.stripped :=
  (reads_paddedHash _ _).bind_pure _

end FileVerificationEntry

namespace FileMetadataExt

variable (m : FileMetadataExt)

def serialize : Bytes := writeHash m.sha256 ++ writeSpareWords m.unused

def deserialize : Reader σ CoreError FileMetadataExt := do
  let sha256 ← readPaddedHash
  return { sha256 }

def stripped : FileMetadataExt := { sha256 := m.sha256 }

@[simp] theorem length_serialize : m.serialize.length = 48 := by simp [serialize,writeSpareWords]

theorem reads : Reads deserialize m.serialize m.stripped := (reads_paddedHash _ _).bind_pure _

end FileMetadataExt

structure MDBFileInfo where
  metadata : FileDataSequenceHeader := {}
  segments : List FileDataSequenceEntry := []
  verification : List FileVerificationEntry := []
  metadataExt : Option FileMetadataExt := none
deriving DecidableEq, Repr, Inhabited

namespace MDBFileInfo
variable (f : MDBFileInfo)

def containsVerification : Bool := f.metadata.containsVerification

def containsMetadataExt : Bool := f.metadata.containsMetadataExt

def numBytes : Result ℕ := do
  let following ← f.metadata.numInfoEntryFollowing
  return mdbFileInfoEntrySize + following * mdbFileInfoEntrySize

def fileSize : ℕ := (f.segments.map fun e => e.unpackedSegmentBytes.toNat).sum

def serialize : Bytes :=
  f.metadata.serialize ++ (f.segments.flatMap FileDataSequenceEntry.serialize ++
    ((if f.containsVerification then f.verification.flatMap FileVerificationEntry.serialize else []) ++
      (f.metadataExt.elim [] FileMetadataExt.serialize)))

variable (metadata : FileDataSequenceHeader)

def deserializeVerification : Reader σ CoreError (List FileVerificationEntry) :=
  if metadata.containsVerification then readMany FileVerificationEntry.deserialize
    metadata.numEntries.toNat
  else pure []

def deserializeMetadataExt : Reader σ CoreError (Option FileMetadataExt) :=
  if metadata.containsMetadataExt then some <$> FileMetadataExt.deserialize else pure none

/-- What follows a header, or nothing behind the bookend. -/
def deserializeEntries : Reader σ CoreError (Option MDBFileInfo) :=
  if metadata.isBookend then return none
  else do
    let segments ← readMany FileDataSequenceEntry.deserialize metadata.numEntries.toNat
    let verification ← deserializeVerification metadata
    let metadataExt ← deserializeMetadataExt metadata
    return some { metadata, segments, verification, metadataExt }

def deserialize : Reader σ CoreError (Option MDBFileInfo) := do
  let metadata ← FileDataSequenceHeader.deserialize
  deserializeEntries metadata

def mergeFrom (other : MDBFileInfo) : MDBFileInfo :=
  let f := if f.containsVerification ≠ other.containsVerification ∧ other.containsVerification then
      { f with
        metadata := { f.metadata with fileFlags := f.metadata.fileFlags ||| mdbFileFlagWithVerification }
        verification := other.verification }
    else f
  if f.containsMetadataExt ≠ other.containsMetadataExt ∧ other.containsMetadataExt then
    { f with
      metadata := { f.metadata with fileFlags := f.metadata.fileFlags ||| mdbFileFlagWithMetadataExt }
      metadataExt := other.metadataExt }
  else f

end MDBFileInfo

end XetCore.Shard
