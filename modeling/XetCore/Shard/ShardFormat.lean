import XetCore.Shard.Records

/-! # Header and footer of a shard

A shard begins with a tag of 32 bytes, a version and the size of the footer. The footer has
the place of every section, the key of the chunk hashes and the totals.
-/
namespace XetCore.Shard
open ByteSources Serialization
open Merkle (DataHash)

variable {σ : Type} [ByteSource σ]

abbrev HMACKey := DataHash

def mdbShardHeaderTag : Bytes :=
  [72,70,82,101,112,111,77,101,116,97,68,97,116,97,0,85,105,103,69,106,123,129,87,131,165,189,217,
    92,205,209,74,169]

def mdbShardHeaderVersion : UInt64 := 2
def mdbShardFooterVersion : UInt64 := 1
abbrev mdbShardFooterSize : ℕ := 200

structure MDBShardFileHeader where
  version : UInt64 := mdbShardHeaderVersion
  footerSize : UInt64 := UInt64.ofNat mdbShardFooterSize
deriving DecidableEq, Repr, Inhabited

namespace MDBShardFileHeader

variable (h : MDBShardFileHeader)

def serialize : Bytes :=
  mdbShardHeaderTag ++ (writeWord64 h.version ++ writeWord64 h.footerSize)

/-- The tag of a header that is read is the tag of a shard, so it is not kept. -/
def deserialize : Reader σ CoreError MDBShardFileHeader := do
  let tag ← readBytes 32
  ensure (tag = mdbShardHeaderTag)
    (.shardVersion "File does not appear to be a valid Merkle DB Shard file (Wrong Magic Number).")
  let version ← readWord64
  let footerSize ← readWord64
  return { version, footerSize }

@[simp] theorem length_serialize : h.serialize.length = 48 := by
  simp [serialize,mdbShardHeaderTag]

theorem reads : Reads deserialize h.serialize h :=
  (reads_bytes mdbShardHeaderTag).bind
    ((reads_ensure rfl).bind ((reads_word64 _).bind ((reads_word64 _).bind_pure _)))

theorem parses_deserialize : Parses deserialize fun h e => e = h.serialize := by
  refine ((parses_bytes 32).bind fun _ => (parses_ensure _ _).bind fun _ => parses_word64.bind fun _ =>
    parses_word64.bind fun _ => parses_pure _).mono fun h e => ?_
  rintro ⟨_,_,_,rfl,⟨rfl,-⟩,_,_,_,rfl,⟨rfl,rfl⟩,_,_,_,rfl,rfl,_,_,_,rfl,rfl,rfl,rfl⟩
  rfl

theorem follows_deserialize : Follows (σ := σ) deserialize deserialize :=
  (follows_readExact _ _).bind fun _ => (follows_lift _).bind fun _ => follows_word64.bind fun _ =>
    follows_word64.bind fun _ => follows_pure _

end MDBShardFileHeader

structure MDBShardFileFooter where
  version : UInt64 := mdbShardFooterVersion
  fileInfoOffset : UInt64 := 0
  xorbInfoOffset : UInt64 := 0
  fileLookupOffset : UInt64 := 0
  fileLookupNumEntry : UInt64 := 0
  xorbLookupOffset : UInt64 := 0
  xorbLookupNumEntry : UInt64 := 0
  chunkLookupOffset : UInt64 := 0
  chunkLookupNumEntry : UInt64 := 0
  chunkHashHmacKey : HMACKey := default
  shardCreationTimestamp : UInt64 := 0
  shardKeyExpiry : UInt64 := UInt64.ofNat (2 ^ 64 - 1)
  buffer : SpareWords × SpareWords × SpareWords := ((0,0),(0,0),(0,0))
  storedBytesOnDisk : UInt64 := 0
  materializedBytes : UInt64 := 0
  storedBytes : UInt64 := 0
  footerOffset : UInt64 := 0
deriving DecidableEq, Repr, Inhabited

namespace MDBShardFileFooter

def serialize (m : MDBShardFileFooter) : Bytes :=
  writeWord64 m.version ++ (writeWord64 m.fileInfoOffset ++ (writeWord64 m.xorbInfoOffset ++
  (writeWord64 m.fileLookupOffset ++ (writeWord64 m.fileLookupNumEntry ++
  (writeWord64 m.xorbLookupOffset ++ (writeWord64 m.xorbLookupNumEntry ++
  (writeWord64 m.chunkLookupOffset ++ (writeWord64 m.chunkLookupNumEntry ++
  (writeHash m.chunkHashHmacKey ++
    (writeWord64 m.shardCreationTimestamp ++ (writeWord64 m.shardKeyExpiry ++
  (writeSpareWords m.buffer.1 ++ (writeSpareWords m.buffer.2.1 ++ (writeSpareWords m.buffer.2.2 ++
  (writeWord64 m.storedBytesOnDisk ++ (writeWord64 m.materializedBytes ++
  (writeWord64 m.storedBytes ++ writeWord64 m.footerOffset)))))))))))))))))

def deserialize : Reader σ CoreError MDBShardFileFooter := do
  let version ← readWord64
  ensure (version = mdbShardFooterVersion)
    (.shardVersion ("Error: Expected footer version " ++ toString mdbShardFooterVersion ++
      ", got " ++ toString version))
  let fileInfoOffset ← readWord64
  let xorbInfoOffset ← readWord64
  let fileLookupOffset ← readWord64
  let fileLookupNumEntry ← readWord64
  let xorbLookupOffset ← readWord64
  let xorbLookupNumEntry ← readWord64
  let chunkLookupOffset ← readWord64
  let chunkLookupNumEntry ← readWord64
  let chunkHashHmacKey ← readHash
  let shardCreationTimestamp ← readWord64
  let shardKeyExpiry ← readWord64
  let buffer0 ← readSpareWords
  let buffer1 ← readSpareWords
  let buffer2 ← readSpareWords
  let storedBytesOnDisk ← readWord64
  let materializedBytes ← readWord64
  let storedBytes ← readWord64
  let footerOffset ← readWord64
  return {
    version, fileInfoOffset, xorbInfoOffset, fileLookupOffset, fileLookupNumEntry, xorbLookupOffset,
    xorbLookupNumEntry, chunkLookupOffset, chunkLookupNumEntry, chunkHashHmacKey, shardCreationTimestamp,
    shardKeyExpiry, buffer := (buffer0,buffer1,buffer2), storedBytesOnDisk, materializedBytes,
      storedBytes,
    footerOffset }

@[simp] theorem length_serialize (m : MDBShardFileFooter) : m.serialize.length = mdbShardFooterSize := by
  simp [serialize,writeSpareWords]

theorem reads {m : MDBShardFileFooter} (h : m.version = mdbShardFooterVersion) :
    Reads deserialize m.serialize m :=
  (reads_word64 _).bind <| (reads_ensure h).bind <| (reads_word64 _).bind <| (reads_word64 _).bind <|
  (reads_word64 _).bind <| (reads_word64 _).bind <| (reads_word64 _).bind <| (reads_word64 _).bind <|
  (reads_word64 _).bind <| (reads_word64 _).bind <| (reads_hash _).bind <| (reads_word64 _).bind <|
  (reads_word64 _).bind <| (reads_spareWords _).bind <| (reads_spareWords _).bind <|
    (reads_spareWords _).bind <|
  (reads_word64 _).bind <| (reads_word64 _).bind <| (reads_word64 _).bind <| (reads_word64 _).bind_pure _

end MDBShardFileFooter
end XetCore.Shard
