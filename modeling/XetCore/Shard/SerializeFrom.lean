import XetCore.Lib.SortedTable
import XetCore.Shard.InMemoryShard

/-! # Writing a shard

A shard is written as its header, the section of the files, the section of the xorbs, the
three lookup tables and the footer, which says where each of them begins. The tables give
the index of a record in its section, counted in records of 48 bytes.
-/
namespace XetCore.Shard
open ByteSources Serialization SortedTables List
open Merkle (DataHash)

structure MDBShardInfo where
  header : MDBShardFileHeader := {}
  metadata : MDBShardFileFooter := {}
deriving DecidableEq, Repr, Inhabited

/-- A sort by key that is free in the order of equal keys. -/
structure KeySort (ν : Type) where
  sort : List (ℕ × ν) → List (ℕ × ν)
  perm : ∀ l, (sort l).Perm l
  sorted : ∀ l, SortedKeys (sort l)

def KeySort.stable (ν : Type) : KeySort ν where
  sort l := l.mergeSort fun a b => a.1 ≤ b.1
  perm l := List.mergeSort_perm l _
  sorted l := by
    have h : (l.mergeSort fun a b => a.1 ≤ b.1).Pairwise fun a b => decide (a.1 ≤ b.1) = true :=
      List.pairwise_mergeSort (by simpa using fun _ _ _ _ _ _ => Nat.le_trans)
        (by simpa using fun _ _ _ _ => Nat.le_total _ _) l
    exact h.imp fun hab => of_decide_eq_true hab

section Tables

def lookupEntryBytes (e : ℕ × ℕ) : Bytes := writeU64 e.1 ++ writeU32 e.2

def chunkLookupEntryBytes (e : ℕ × ℕ × ℕ) : Bytes := writeU64 e.1 ++ (writeU32 e.2.1 ++ writeU32 e.2.2)

def writeLookup (table : List (ℕ × ℕ)) : Bytes := table.flatMap lookupEntryBytes

variable (table : List (ℕ × ℕ × ℕ))

def writeChunkLookup : Bytes := table.flatMap chunkLookupEntryBytes

@[simp] theorem length_writeLookup (table : List (ℕ × ℕ)) :
    (writeLookup table).length = table.length * 12 :=
  length_flatMap_eq (fun e => by simp [lookupEntryBytes]) table

@[simp] theorem length_writeChunkLookup : (writeChunkLookup table).length = table.length * 16 :=
  length_flatMap_eq (fun e => by simp [chunkLookupEntryBytes]) table

end Tables

/-- The parts of a shard between its header and its footer. -/
structure ShardParts where
  fileSection : Bytes
  xorbSection : Bytes
  fileLookup : List (ℕ × ℕ)
  xorbLookup : List (ℕ × ℕ)
  chunkLookup : List (ℕ × ℕ × ℕ)

namespace ShardParts
variable (parts : ShardParts)

/-- The places of the parts, which are sums of 64 bits. -/
def offsets (footer : MDBShardFileFooter) : Result MDBShardFileFooter := do
  let fileInfoOffset := 48
  let xorbInfoOffset ← addUsize fileInfoOffset parts.fileSection.length
  let fileLookupOffset ← addUsize xorbInfoOffset parts.xorbSection.length
  let xorbLookupOffset ← addUsize fileLookupOffset (parts.fileLookup.length * 12)
  let chunkLookupOffset ← addUsize xorbLookupOffset (parts.xorbLookup.length * 12)
  let footerOffset ← addUsize chunkLookupOffset (parts.chunkLookup.length * 16)
  return { footer with
    fileInfoOffset := UInt64.ofNat fileInfoOffset
    xorbInfoOffset := UInt64.ofNat xorbInfoOffset
    fileLookupOffset := UInt64.ofNat fileLookupOffset
    fileLookupNumEntry := UInt64.ofNat parts.fileLookup.length
    xorbLookupOffset := UInt64.ofNat xorbLookupOffset
    xorbLookupNumEntry := UInt64.ofNat parts.xorbLookup.length
    chunkLookupOffset := UInt64.ofNat chunkLookupOffset
    chunkLookupNumEntry := UInt64.ofNat parts.chunkLookup.length
    footerOffset := UInt64.ofNat footerOffset }

def body : Bytes :=
  parts.fileSection ++ (parts.xorbSection ++
    (writeLookup parts.fileLookup ++ (writeLookup parts.xorbLookup ++
    writeChunkLookup parts.chunkLookup)))

end ShardParts

def MDBShardInfo.bytesWith (info : MDBShardInfo) (parts : ShardParts) : Bytes :=
  info.header.serialize ++ (parts.body ++ info.metadata.serialize)

namespace MDBShardInfo

/-- The section of the files and the index of each of them. -/
def convertAndSaveFileInfo (index : ℕ) : List (DataHash × MDBFileInfo) → Result (List (ℕ × ℕ) × Bytes)
  | [] => return ([],FileDataSequenceHeader.bookend.serialize)
  | (fileHash,content) :: rest => do
    let bytes := content.serialize
    let next ← addU32 index (asU32 (bytes.length / mdbFileInfoEntrySize))
    let r ← convertAndSaveFileInfo next rest
    return ((fileHash.truncateHash,index) :: r.1,bytes ++ r.2)

def chunkLookupOf (index : ℕ) (chunks : List XorbChunkSequenceEntry) : List (ℕ × ℕ × ℕ) :=
  chunks.mapIdx fun i chunk => (chunk.chunkHash.truncateHash,index,asU32 i)

/-- The section of the xorbs, the index of each of them and the places of the chunks, which are not
yet sorted. -/
def convertAndSaveXorbInfo (index : ℕ) :
    List (DataHash × MDBXorbInfo) → Result (List (ℕ × ℕ) × List (ℕ × ℕ × ℕ) × Bytes)
  | [] => return ([],[],XorbChunkSequenceHeader.bookend.serialize)
  | (xorbHash,content) :: rest => do
    let numRecords ← addU32 1 (asU32 content.chunks.length)
    let next ← addU32 index numRecords
    let r ← convertAndSaveXorbInfo next rest
    return ((xorbHash.truncateHash,index) :: r.1,chunkLookupOf index content.chunks ++ r.2.1,
      content.serialize ++ r.2.2)

def partsOf (sorter : KeySort (ℕ × ℕ)) (mdb : MDBInMemoryShard) : Result ShardParts := do
  let files ← convertAndSaveFileInfo 0 mdb.fileContent.toList
  let xorbs ← convertAndSaveXorbInfo 0 mdb.xorbContent.toList
  return {
    fileSection := files.2
    xorbSection := xorbs.2.2
    fileLookup := files.1
    xorbLookup := xorbs.1
    chunkLookup := sorter.sort xorbs.2.1 }

/-- Writes a shard out; the expiry is the time after which it is no longer valid. -/
def serializeFrom (sorter : KeySort (ℕ × ℕ)) (mdb : MDBInMemoryShard) (expiry : Option UInt64) :
    Result (MDBShardInfo × Bytes) := do
  let parts ← partsOf sorter mdb
  let placed ← parts.offsets {}
  let storedBytesOnDisk ← mdb.storedBytesOnDisk
  let materializedBytes ← mdb.materializedBytes
  let storedBytes ← mdb.storedBytes
  let info : MDBShardInfo := {
    metadata := { placed with
      storedBytesOnDisk := UInt64.ofNat storedBytesOnDisk
      materializedBytes := UInt64.ofNat materializedBytes
      storedBytes := UInt64.ofNat storedBytes
      shardKeyExpiry := expiry.getD placed.shardKeyExpiry } }
  return (info,info.bytesWith parts)

end MDBShardInfo

section Parts

/-- The lookup table of files that stand one after the other. -/
def fileLookupFrom (index : ℕ) : List MDBFileInfo → List (ℕ × ℕ)
  | [] => []
  | f :: fs => (f.metadata.fileHash.truncateHash,index) ::
      fileLookupFrom (index + asU32 (f.serialize.length / mdbFileInfoEntrySize)) fs

def xorbLookupFrom (index : ℕ) : List MDBXorbInfo → List (ℕ × ℕ)
  | [] => []
  | x :: xs => (x.metadata.xorbHash.truncateHash,index) ::
      xorbLookupFrom (index + (1 + asU32 x.chunks.length)) xs

def chunkLookupFrom (index : ℕ) : List MDBXorbInfo → List (ℕ × ℕ × ℕ)
  | [] => []
  | x :: xs => MDBShardInfo.chunkLookupOf index x.chunks ++
      chunkLookupFrom (index + (1 + asU32 x.chunks.length)) xs

variable (index : ℕ)

@[simp] theorem length_fileLookupFrom (fs : List MDBFileInfo) :
    (fileLookupFrom index fs).length = fs.length := by
  induction fs generalizing index with
  | nil => rfl
  | cons f fs ih => rw [fileLookupFrom,length_cons,length_cons,ih]

@[simp] theorem length_xorbLookupFrom (xs : List MDBXorbInfo) :
    (xorbLookupFrom index xs).length = xs.length := by
  induction xs generalizing index with
  | nil => rfl
  | cons x xs ih => rw [xorbLookupFrom,length_cons,length_cons,ih]

@[simp] theorem length_chunkLookupFrom (xs : List MDBXorbInfo) :
    (chunkLookupFrom index xs).length = (xs.map fun x => x.chunks.length).sum := by
  induction xs generalizing index with
  | nil => rfl
  | cons x xs ih =>
    rw [chunkLookupFrom,length_append,MDBShardInfo.chunkLookupOf,length_mapIdx,ih,map_cons,sum_cons]

theorem convertAndSaveFileInfo_eq_ok {fs : List MDBFileInfo} {index : ℕ} {r : List (ℕ × ℕ) × Bytes}
    (hin : index < 2 ^ 32) :
    MDBShardInfo.convertAndSaveFileInfo index (fs.map fun f => (f.metadata.fileHash,f)) = .ok r ↔
      r = (fileLookupFrom index fs,fs.flatMap MDBFileInfo.serialize ++
        FileDataSequenceHeader.bookend.serialize) ∧
      index + (fs.map fun f => asU32 (f.serialize.length / mdbFileInfoEntrySize)).sum < 2 ^ 32 := by
  induction fs generalizing index r with
  | nil => exact ⟨fun h => ⟨(Except.ok.inj h).symm,hin⟩,fun h => by rw [h.1]; rfl⟩
  | cons f fs ih =>
    simp only [map_cons,MDBShardInfo.convertAndSaveFileInfo,bind_eq_ok,addU32_eq_ok,sum_cons,
      ← Nat.add_assoc,flatMap_cons,append_assoc]
    constructor
    · rintro ⟨_,⟨rfl,hlt⟩,q,hq,hr⟩
      obtain ⟨rfl,hs⟩ := (ih hlt).mp hq
      exact ⟨(Except.ok.inj hr).symm,hs⟩
    · rintro ⟨rfl,hs⟩
      have hlt : index + asU32 (f.serialize.length / mdbFileInfoEntrySize) < 2 ^ 32 := by omega
      exact ⟨_,⟨rfl,hlt⟩,_,(ih hlt).mpr ⟨rfl,hs⟩,rfl⟩

theorem convertAndSaveXorbInfo_eq_ok {xs : List MDBXorbInfo} {index : ℕ}
    {r : List (ℕ × ℕ) × List (ℕ × ℕ × ℕ) × Bytes} (hin : index < 2 ^ 32) :
    MDBShardInfo.convertAndSaveXorbInfo index (xs.map fun x => (x.metadata.xorbHash,x)) = .ok r ↔
      r = (xorbLookupFrom index xs,chunkLookupFrom index xs,
        xs.flatMap MDBXorbInfo.serialize ++ XorbChunkSequenceHeader.bookend.serialize) ∧
      index + (xs.map fun x => 1 + asU32 x.chunks.length).sum < 2 ^ 32 := by
  induction xs generalizing index r with
  | nil => exact ⟨fun h => ⟨(Except.ok.inj h).symm,hin⟩,fun h => by rw [h.1]; rfl⟩
  | cons x xs ih =>
    simp only [map_cons,MDBShardInfo.convertAndSaveXorbInfo,bind_eq_ok,addU32_eq_ok,sum_cons,
      flatMap_cons,append_assoc]
    constructor
    · rintro ⟨_,⟨rfl,-⟩,_,⟨rfl,hlt⟩,q,hq,hr⟩
      obtain ⟨rfl,hs⟩ := (ih hlt).mp hq
      exact ⟨(Except.ok.inj hr).symm,by omega⟩
    · rintro ⟨rfl,hs⟩
      have hlt : index + (1 + asU32 x.chunks.length) < 2 ^ 32 := by omega
      exact ⟨_,⟨rfl,by omega⟩,_,⟨rfl,hlt⟩,_,(ih hlt).mpr ⟨rfl,by omega⟩,rfl⟩

def ShardParts.placed (parts : ShardParts) (footer : MDBShardFileFooter) : MDBShardFileFooter :=
  let xorbInfoOffset := 48 + parts.fileSection.length
  let fileLookupOffset := xorbInfoOffset + parts.xorbSection.length
  let xorbLookupOffset := fileLookupOffset + parts.fileLookup.length * 12
  let chunkLookupOffset := xorbLookupOffset + parts.xorbLookup.length * 12
  { footer with
    fileInfoOffset := UInt64.ofNat 48
    xorbInfoOffset := UInt64.ofNat xorbInfoOffset
    fileLookupOffset := UInt64.ofNat fileLookupOffset
    fileLookupNumEntry := UInt64.ofNat parts.fileLookup.length
    xorbLookupOffset := UInt64.ofNat xorbLookupOffset
    xorbLookupNumEntry := UInt64.ofNat parts.xorbLookup.length
    chunkLookupOffset := UInt64.ofNat chunkLookupOffset
    chunkLookupNumEntry := UInt64.ofNat parts.chunkLookup.length
    footerOffset := UInt64.ofNat (chunkLookupOffset + parts.chunkLookup.length * 16) }

@[simp] theorem ShardParts.length_body (parts : ShardParts) :
    parts.body.length = parts.fileSection.length +
    (parts.xorbSection.length + (parts.fileLookup.length * 12 + (parts.xorbLookup.length * 12 +
      parts.chunkLookup.length * 16))) := by
  simp [body]

theorem ShardParts.offsets_eq_ok {parts : ShardParts} {footer placed : MDBShardFileFooter} :
    parts.offsets footer = .ok placed ↔ placed = parts.placed footer ∧
    48 + parts.body.length < 2 ^ 64 := by
  rw [parts.length_body]
  simp only [ShardParts.offsets,bind_eq_ok,addUsize_eq_ok]
  constructor
  · rintro ⟨_,⟨rfl,-⟩,_,⟨rfl,-⟩,_,⟨rfl,-⟩,_,⟨rfl,-⟩,_,⟨rfl,hlt⟩,hp⟩
    exact ⟨(Except.ok.inj hp).symm,by omega⟩
  · rintro ⟨rfl,hlt⟩
    exact ⟨_,⟨rfl,by omega⟩,_,⟨rfl,by omega⟩,_,⟨rfl,by omega⟩,_,⟨rfl,by omega⟩,_,⟨rfl,by omega⟩,rfl⟩

end Parts

namespace MDBInMemoryShard
variable (sorter : KeySort (ℕ × ℕ)) (s : MDBInMemoryShard)

def fileSection : Bytes := s.files.flatMap MDBFileInfo.serialize ++
    FileDataSequenceHeader.bookend.serialize

def xorbSection : Bytes := s.xorbs.flatMap MDBXorbInfo.serialize ++
    XorbChunkSequenceHeader.bookend.serialize

def parts : ShardParts where
  fileSection := s.fileSection
  xorbSection := s.xorbSection
  fileLookup := fileLookupFrom 0 s.files
  xorbLookup := xorbLookupFrom 0 s.xorbs
  chunkLookup := sorter.sort (chunkLookupFrom 0 s.xorbs)

def totals (footer : MDBShardFileFooter) (expiry : Option UInt64) : MDBShardFileFooter :=
  { footer with
    storedBytesOnDisk := UInt64.ofNat (s.xorbs.map fun x => x.metadata.numBytesOnDisk.toNat).sum
    materializedBytes := UInt64.ofNat (s.files.map MDBFileInfo.fileSize).sum
    storedBytes := UInt64.ofNat (s.xorbs.map fun x => x.metadata.numBytesInXorb.toNat).sum
    shardKeyExpiry := expiry.getD footer.shardKeyExpiry }

/-- The indices have 32 bits, and the places and totals have 64. -/
structure Fits : Prop where
  fileIndex : (s.files.map fun f => asU32 (f.serialize.length / mdbFileInfoEntrySize)).sum < 2 ^ 32
  xorbIndex : (s.xorbs.map fun x => 1 + asU32 x.chunks.length).sum < 2 ^ 32
  position : 48 + (s.fileSection.length +
    (s.xorbSection.length + (s.files.length * 12 + (s.xorbs.length * 12 +
    (s.xorbs.map fun x => x.chunks.length).sum * 16)))) < 2 ^ 64
  storedBytesOnDisk : (s.xorbs.map fun x => x.metadata.numBytesOnDisk.toNat).sum < 2 ^ 64
  materializedBytes : (s.files.map MDBFileInfo.fileSize).sum < 2 ^ 64
  storedBytes : (s.xorbs.map fun x => x.metadata.numBytesInXorb.toNat).sum < 2 ^ 64

variable {sorter s} {expiry : Option UInt64} {info : MDBShardInfo} {out : Bytes}

theorem length_parts_body : (s.parts sorter).body.length = s.fileSection.length + (s.xorbSection.length +
    (s.files.length * 12 + (s.xorbs.length * 12 + (s.xorbs.map fun x => x.chunks.length).sum * 16))) := by
  rw [ShardParts.length_body,parts]
  simp [(sorter.perm _).length_eq]

theorem partsOf_eq_ok {p : ShardParts} : MDBShardInfo.partsOf sorter s = .ok p ↔ p = s.parts sorter ∧
    (s.files.map fun f => asU32 (f.serialize.length / mdbFileInfoEntrySize)).sum < 2 ^ 32 ∧
    (s.xorbs.map fun x => 1 + asU32 x.chunks.length).sum < 2 ^ 32 := by
  simp only [MDBShardInfo.partsOf,bind_eq_ok,fileContent_toList,xorbContent_toList,
    convertAndSaveFileInfo_eq_ok (show 0 < 2 ^ 32 by decide),convertAndSaveXorbInfo_eq_ok
      (show 0 < 2 ^ 32 by decide),
    Nat.zero_add]
  constructor
  · rintro ⟨_,⟨rfl,hf⟩,_,⟨rfl,hx⟩,hp⟩
    exact ⟨(Except.ok.inj hp).symm,hf,hx⟩
  · rintro ⟨rfl,hf,hx⟩
    exact ⟨_,⟨rfl,hf⟩,_,⟨rfl,hx⟩,rfl⟩

/-- What is written, and that writing succeeds if and only if the numbers fit. -/
theorem serializeFrom_eq_ok : MDBShardInfo.serializeFrom sorter s expiry = .ok (info,out) ↔
      s.Fits ∧ info = { metadata := s.totals ((s.parts sorter).placed {}) expiry } ∧
      out = info.bytesWith (s.parts sorter) := by
  simp only [MDBShardInfo.serializeFrom,bind_eq_ok,partsOf_eq_ok,ShardParts.offsets_eq_ok,
    storedBytesOnDisk,materializedBytes,storedBytes,sumU64_eq_ok]
  constructor
  · rintro ⟨_,⟨rfl,hf,hx⟩,_,⟨rfl,hp⟩,_,⟨rfl,hd⟩,_,⟨rfl,hm⟩,_,⟨rfl,hs⟩,ho⟩
    cases ho
    rw [length_parts_body] at hp
    exact ⟨⟨hf,hx,hp,hd,hm,hs⟩,rfl,rfl⟩
  · rintro ⟨⟨hf,hx,hp,hd,hm,hs⟩,rfl,rfl⟩
    rw [← length_parts_body] at hp
    exact ⟨_,⟨rfl,hf,hx⟩,_,⟨rfl,hp⟩,_,⟨rfl,hd⟩,_,⟨rfl,hm⟩,_,⟨rfl,hs⟩,rfl⟩

/-- A written shard is its header, its two sections and more. -/
theorem serializeFrom_sections (h : MDBShardInfo.serializeFrom sorter s expiry = .ok (info,out)) :
    ∃ rest, out = ({} : MDBShardFileHeader).serialize ++ (s.fileSection ++ (s.xorbSection ++ rest)) := by
  obtain ⟨-,rfl,rfl⟩ := serializeFrom_eq_ok.mp h
  simp only [MDBShardInfo.bytesWith,ShardParts.body,append_assoc]
  exact ⟨_,rfl⟩

end MDBInMemoryShard

def MDBInMemoryShard.toBytes (sorter : KeySort (ℕ × ℕ)) (mdb : MDBInMemoryShard) : Result Bytes := do
  let written ← MDBShardInfo.serializeFrom sorter mdb none
  return written.2

end XetCore.Shard
