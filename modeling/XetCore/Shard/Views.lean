import XetCore.Shard.Records

/-! # Views of records

A view keeps the bytes of a record with its header and reads the entries where they stand.
The bytes are as many as the header announces, or more.
-/
namespace XetCore.Shard
open ByteSources Serialization
open Merkle (DataHash)

/-- The bytes from a position on; a position behind the end stops the call. -/
def sliceFrom (data : Bytes) (start : ℕ) : Result Bytes :=
  if start ≤ data.length then .ok (data.drop start) else .error .panicked

/-- The bytes of a range; a range behind the end stops the call. -/
def sliceRange (data : Bytes) (start stop : ℕ) : Result Bytes :=
  if start ≤ stop ∧ stop ≤ data.length then .ok ((data.take stop).drop start) else .error .panicked

def expect {α : Type} (x : Result α) : Result α := x.mapError fun _ => .panicked

structure MDBFileInfoView where
  header : FileDataSequenceHeader
  data : Bytes
  enough : (1 + header.numFollowing) * mdbFileInfoEntrySize ≤ data.length
deriving DecidableEq

namespace MDBFileInfoView

def fromDataAndHeader (header : FileDataSequenceHeader) (data : Bytes) : Result MDBFileInfoView :=
  if h : (1 + header.numFollowing) * mdbFileInfoEntrySize ≤ data.length then .ok ⟨header,data,h⟩
  else .error (.io .unexpectedEof)

def new (data : Bytes) : Result MDBFileInfoView := do
  let r ← FileDataSequenceHeader.deserialize.run data
  fromDataAndHeader r.1 data

variable (v : MDBFileInfoView)

def numEntries : ℕ := v.header.numEntries.toNat

def fileHash : DataHash := v.header.fileHash

def containsMetadataExt : Bool := v.header.containsMetadataExt

def containsVerification : Bool := v.header.containsVerification

def entry (idx : ℕ) : Result FileDataSequenceEntry := do
  let slice ← sliceFrom v.data ((1 + idx) * mdbFileInfoEntrySize)
  expect (ofBuffer FileDataSequenceEntry.deserialize slice)

def verification (idx : ℕ) : Result FileVerificationEntry := do
  let slice ← sliceFrom v.data ((1 + v.numEntries + idx) * mdbFileInfoEntrySize)
  expect (ofBuffer FileVerificationEntry.deserialize slice)

def metadataExt : Result (Option FileMetadataExt) :=
  if v.containsMetadataExt then do
    let slice ← sliceFrom v.data (v.data.length - mdbFileInfoEntrySize)
    return (ofBuffer FileMetadataExt.deserialize slice).toOption
  else return none

def byteSize (withVerification : Bool) : ℕ :=
  (1 + v.numEntries + (if withVerification && v.containsVerification then v.numEntries else 0) +
    (if v.containsMetadataExt then 1 else 0)) * mdbFileInfoEntrySize

/-- The record without its verification entries, under a new header. -/
def serializeSansVerification : Result Bytes := do
  let header ← FileDataSequenceHeader.new v.fileHash v.numEntries false v.containsMetadataExt
  let segments ← sliceRange v.data mdbFileInfoEntrySize ((1 + v.numEntries) * mdbFileInfoEntrySize)
  if v.containsMetadataExt then do
    let ext ← sliceFrom v.data (v.data.length - mdbFileInfoEntrySize)
    return header.serialize ++ (segments ++ ext)
  else return header.serialize ++ segments

def serialize (withVerification : Bool) : Result Bytes :=
  if withVerification && !v.containsVerification then .error (.io .other)
  else if !withVerification && v.containsVerification then v.serializeSansVerification
  else .ok v.data

def entries : Result (List FileDataSequenceEntry) := (List.range v.numEntries).mapM v.entry

def verifications : Result (List FileVerificationEntry) :=
  if v.containsVerification then (List.range v.numEntries).mapM v.verification else return []

end MDBFileInfoView

def MDBFileInfo.ofView (view : MDBFileInfoView) : Result MDBFileInfo := do
  let segments ← view.entries
  let verification ← view.verifications
  let metadata ← FileDataSequenceHeader.new view.fileHash segments.length view.containsVerification
    view.containsMetadataExt
  let metadataExt ← view.metadataExt
  return { metadata, segments, verification, metadataExt }

structure MDBXorbInfoView where
  header : XorbChunkSequenceHeader
  data : Bytes
  enough : 48 + header.numEntries.toNat * 48 ≤ data.length
deriving DecidableEq

namespace MDBXorbInfoView

def fromDataAndHeader (header : XorbChunkSequenceHeader) (data : Bytes) : Result MDBXorbInfoView :=
  if h : 48 + header.numEntries.toNat * 48 ≤ data.length then .ok ⟨header,data,h⟩
  else .error (.io .unexpectedEof)

variable (v : MDBXorbInfoView)

def xorbHash : DataHash := v.header.xorbHash

def numEntries : ℕ := v.header.numEntries.toNat

def chunk (idx : ℕ) : Result XorbChunkSequenceEntry := do
  let slice ← sliceFrom v.data (48 + idx * 48)
  expect (ofBuffer XorbChunkSequenceEntry.deserialize slice)

def chunks : Result (List XorbChunkSequenceEntry) := (List.range v.numEntries).mapM v.chunk

def byteSize : ℕ := 48 + v.numEntries * 48

def serialize : Result Bytes := sliceRange v.data 0 v.byteSize

def serializeWithChunkRewrite (rewrite : ℕ → XorbChunkSequenceEntry → XorbChunkSequenceEntry) :
    Result Bytes := do
  let written ← (List.range v.numEntries).mapM fun idx => do
    let chunk ← v.chunk idx
    return (rewrite idx chunk).serialize
  return v.header.serialize ++ written.flatten

end MDBXorbInfoView

def totalBytes (chunks : List XorbChunkSequenceEntry) : Result ℕ :=
  match chunks.getLast? with
  | some c => addU32 c.chunkByteRangeStart.toNat c.unpackedSegmentBytes.toNat
  | none => return 0

def MDBXorbInfo.ofView (view : MDBXorbInfoView) : Result MDBXorbInfo := do
  let chunks ← view.chunks
  let totalBytes ← totalBytes chunks
  let metadata ← XorbChunkSequenceHeader.new view.xorbHash (asU32 chunks.length) totalBytes
  return { metadata, chunks }

end XetCore.Shard
