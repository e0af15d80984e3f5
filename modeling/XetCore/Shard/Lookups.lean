import XetCore.Lib.ReaderLoop
import XetCore.Shard.InterpolationSearch
import XetCore.Shard.SerializeFrom

/-! # Looking up records in a shard file

The footer of a shard says where its parts begin. A hash is looked up in the table of its
kind by its first word, and the records that the table points at are read until one of
them has the whole hash.
-/
namespace XetCore.Shard
open ByteSources Serialization SortedTables List
open Merkle (DataHash)

variable {xs : List MDBXorbInfo}

def readAt {α : Type} (p : Reader Bytes CoreError α) (bytes : Bytes) (position : ℕ) : Result α :=
  ofBuffer p (bytes.drop position)

def readPair {ν : Type} (readValue : Reader Bytes CoreError ν) : Reader Bytes CoreError (ℕ × ν) := do
  let key ← readU64
  let value ← readValue
  return (key,value)

def readU32Pair : Reader Bytes CoreError (ℕ × ℕ) := do
  let a ← readU32
  let b ← readU32
  return (a,b)

def writeU32Pair (v : ℕ × ℕ) : Bytes := writeU32 v.1 ++ writeU32 v.2

namespace MDBShardInfo

section Model

def loadFromReader (bytes : Bytes) : Result MDBShardInfo := do
  let header ← readAt MDBShardFileHeader.deserialize bytes 0
  ensure (mdbShardFooterSize ≤ bytes.length) (.io .invalidInput)
  let metadata ← readAt MDBShardFileFooter.deserialize bytes (bytes.length - mdbShardFooterSize)
  return { header, metadata }

variable (info : MDBShardInfo) (interpolate : Interpolation) (bytes : Bytes)

/-- The indices of a hash in the table at a place. With eight of them, there may be others. -/
def indexByHash (lookupOffset lookupNumEntry : UInt64) (hash : DataHash) : Result (List ℕ) := do
  let indices ← searchOnSortedU64s interpolate hash.truncateHash 8 readU32 bytes lookupOffset.toNat
    12 lookupNumEntry.toNat
  ensure (indices.length < 8) (.truncatedHashCollision hash.truncateHash)
  return indices

def getFileInfoIndexByHash (fileHash : DataHash) : Result (List ℕ) :=
  indexByHash interpolate bytes info.metadata.fileLookupOffset info.metadata.fileLookupNumEntry fileHash

def expectFileEntry : Option MDBFileInfo → Result MDBFileInfo
  | some mdbFile => .ok mdbFile
  | none => .error (.internalError "invalid file entry index")

def readFileInfo (fileEntryIndex : ℕ) : Result MDBFileInfo := do
  let entry ← readAt MDBFileInfo.deserialize bytes
    (info.metadata.fileInfoOffset.toNat + 48 * fileEntryIndex)
  expectFileEntry entry

def readFullXorbLookup : Result (List (ℕ × ℕ)) :=
  readAt (readMany (readPair readU32) info.metadata.xorbLookupNumEntry.toNat) bytes
    info.metadata.xorbLookupOffset.toNat

def matchFileInfo (fileHash : DataHash) : List ℕ → Result (Option MDBFileInfo)
  | [] => return none
  | fileEntryIndex :: rest => do
    let mdbFileInfo ← info.readFileInfo bytes fileEntryIndex
    if mdbFileInfo.metadata.fileHash = fileHash then return some mdbFileInfo
      else matchFileInfo fileHash rest

def getFileReconstructionInfo (fileHash : DataHash) : Result (Option MDBFileInfo) := do
  let destIndices ← info.getFileInfoIndexByHash interpolate bytes fileHash
  info.matchFileInfo bytes fileHash destIndices

end Model

structure Describes (info : MDBShardInfo) (parts : ShardParts) : Prop where
  version_eq : info.metadata.version = mdbShardFooterVersion
  fileInfoOffset_eq : info.metadata.fileInfoOffset.toNat = 48
  xorbInfoOffset_eq : info.metadata.xorbInfoOffset.toNat = 48 + parts.fileSection.length
  fileLookupOffset_eq : info.metadata.fileLookupOffset.toNat = 48 + parts.fileSection.length +
    parts.xorbSection.length
  fileLookupNumEntry_eq : info.metadata.fileLookupNumEntry.toNat = parts.fileLookup.length
  xorbLookupOffset_eq : info.metadata.xorbLookupOffset.toNat =
    48 + parts.fileSection.length + parts.xorbSection.length + parts.fileLookup.length * 12
  xorbLookupNumEntry_eq : info.metadata.xorbLookupNumEntry.toNat = parts.xorbLookup.length
  chunkLookupOffset_eq : info.metadata.chunkLookupOffset.toNat =
    48 + parts.fileSection.length + parts.xorbSection.length + parts.fileLookup.length * 12 +
      parts.xorbLookup.length * 12
  chunkLookupNumEntry_eq : info.metadata.chunkLookupNumEntry.toNat = parts.chunkLookup.length
  footerOffset_eq : info.metadata.footerOffset.toNat = 48 + parts.body.length

theorem describes_placed {info : MDBShardInfo} {parts : ShardParts} {footer : MDBShardFileFooter}
    (hlt : 48 + parts.body.length < 2 ^ 64) (hv : footer.version = mdbShardFooterVersion)
    (hin : info.metadata = parts.placed footer) : info.Describes parts := by
  have hlen := parts.length_body
  have hna := fun n hn => UInt64.toNat_ofNat_of_lt (by change n < 2 ^ 64; omega)
  refine ⟨?_,?_,?_,?_,?_,?_,?_,?_,?_,?_⟩ <;> rw [hin]
  · exact hv
  · exact hna _ (by omega)
  · exact hna _ (by omega)
  · exact hna _ (by omega)
  · exact hna _ (by omega)
  · exact hna _ (by omega)
  · exact hna _ (by omega)
  · exact hna _ (by omega)
  · exact hna _ (by omega)
  · exact (hna _ (by omega)).trans (by omega)

end MDBShardInfo

section ReadAt
variable {α ν : Type} {p : Reader Bytes CoreError α} {e bytes rest : Bytes} {a : α} {position : ℕ}

theorem readAt_of_reads (h : Reads p e a) (hd : bytes.drop position = e ++ rest) :
    readAt p bytes position = .ok a := by
  rw [readAt,ofBuffer,hd,h rest]
  rfl

variable {readStart pairSize : ℕ} {readValue : Reader Bytes CoreError ν} {enc : ν → Bytes}
  {table : List (ℕ × ν)}

theorem TableAt.readAt_table (h : TableAt bytes readStart pairSize readValue enc table) :
    readAt (readMany (readPair readValue) table.length) bytes readStart = .ok table := by
  obtain ⟨rest,hr⟩ := h.stored
  have hp : ∀ e ∈ table, Reads (readPair readValue) (pairBytes enc e) e := fun e he =>
    (reads_u64 (h.key_lt e he)).bind ((h.reads e he).bind_pure _)
  exact readAt_of_reads (reads_many hp) hr

end ReadAt

section Indices
variable {bytes tail : Bytes} {base index : ℕ} {x : MDBXorbInfo} {rest : Bytes}

theorem MDBXorbInfo.WellFormed.length_lt (h : x.WellFormed) : x.chunks.length < 2 ^ 32 := by
  rw [← h.numEntries_eq]
  exact x.metadata.numEntries.toNat_lt

theorem MDBXorbInfo.WellFormed.drop_next (h : x.WellFormed)
    (hd : bytes.drop (base + 48 * index) = x.serialize ++ rest) :
    bytes.drop (base + 48 * (index + (1 + asU32 x.chunks.length))) = rest := by
  rw [asU32_of_lt h.length_lt,Nat.mul_add,← Nat.add_assoc,← drop_drop,hd,← x.length_serialize,drop_left]

theorem fileLookupFrom_reads {fs : List MDBFileInfo}
    (hd : bytes.drop (base + 48 * index) = fs.flatMap MDBFileInfo.serialize ++ tail)
    (hfs : ∀ f ∈ fs, f.WellFormed) (hs : ∀ f ∈ fs, 1 + f.metadata.numFollowing < 2 ^ 32) :
    (fileLookupFrom index fs).map
      (fun e => (e.1,readAt MDBFileInfo.deserialize bytes (base + 48 * e.2))) =
      fs.map fun f => (f.metadata.fileHash.truncateHash,.ok (some f.stripped)) := by
  induction fs generalizing index with
  | nil => rfl
  | cons f fs ih =>
    obtain ⟨hf,hfs⟩ := forall_mem_cons.mp hfs
    obtain ⟨hlt,hs⟩ := forall_mem_cons.mp hs
    rw [flatMap_cons,append_assoc] at hd
    have hlen := hf.length_serialize
    have hr : asU32 (f.serialize.length / mdbFileInfoEntrySize) = 1 + f.metadata.numFollowing := by
      rw [hlen,Nat.mul_div_cancel_left _ (by decide),asU32_of_lt hlt]
    have hn : bytes.drop (base + 48 * (index + (1 + f.metadata.numFollowing))) =
        fs.flatMap MDBFileInfo.serialize ++ tail := by
      rw [Nat.mul_add,← Nat.add_assoc,← drop_drop,hd,← hlen,drop_left]
    rw [fileLookupFrom,map_cons,map_cons,readAt_of_reads hf.reads hd,hr,ih hn hfs hs]

theorem xorbLookupFrom_reads
    (hd : bytes.drop (base + 48 * index) = xs.flatMap MDBXorbInfo.serialize ++ tail)
    (hxs : ∀ x ∈ xs, x.WellFormed) :
    (xorbLookupFrom index xs).map
      (fun e => (e.1,readAt MDBXorbInfo.deserialize bytes (base + 48 * e.2))) =
      xs.map fun x => (x.metadata.xorbHash.truncateHash,.ok (some x)) := by
  induction xs generalizing index with
  | nil => rfl
  | cons x xs ih =>
    obtain ⟨hx,hxs⟩ := forall_mem_cons.mp hxs
    rw [flatMap_cons,append_assoc] at hd
    rw [xorbLookupFrom,map_cons,map_cons,readAt_of_reads hx.reads hd,ih (hx.drop_next hd) hxs]

theorem MDBXorbInfo.readAt_chunk {i : ℕ}
    (hd : bytes.drop (base + 48 * index) = x.serialize ++ rest) (hi : i < x.chunks.length) :
    readAt XorbChunkSequenceHeader.deserialize bytes (base + 48 * index) = .ok x.metadata ∧
      bytes.drop (base + 48 * (index + 1 + i)) = (x.chunks.drop i).flatMap
        XorbChunkSequenceEntry.serialize ++ rest := by
  rw [MDBXorbInfo.serialize,append_assoc] at hd
  refine ⟨readAt_of_reads x.metadata.reads hd,?_⟩
  have hs : base + 48 * (index + 1 + i) = base + 48 * index + (1 + i) * 48 := by ring
  rw [hs,← drop_drop,hd]
  exact drop_records XorbChunkSequenceEntry.length_serialize x.metadata.length_serialize hi.le

/-- What is read at an entry of the table of the chunks. -/
def readChunkPlace (bytes : Bytes) (base : ℕ) (place : ℕ × ℕ) :
    Result XorbChunkSequenceHeader × Result XorbChunkSequenceEntry :=
  (readAt XorbChunkSequenceHeader.deserialize bytes (base + 48 * place.1),
    readAt XorbChunkSequenceEntry.deserialize bytes (base + 48 * (place.1 + 1 + place.2)))

theorem chunkLookupFrom_reads
    (hd : bytes.drop (base + 48 * index) = xs.flatMap MDBXorbInfo.serialize ++ tail)
    (hxs : ∀ x ∈ xs, x.WellFormed) :
    (chunkLookupFrom index xs).map (fun e => (e.1,readChunkPlace bytes base e.2)) =
      xs.flatMap fun x => x.chunks.map fun c => (c.chunkHash.truncateHash,.ok x.metadata,.ok c) := by
  induction xs generalizing index with
  | nil => rfl
  | cons x xs ih =>
    obtain ⟨hx,hxs⟩ := forall_mem_cons.mp hxs
    rw [flatMap_cons,append_assoc] at hd
    rw [chunkLookupFrom,map_append,flatMap_cons,ih (hx.drop_next hd) hxs]
    congr 1
    refine ext_getElem (by simp [MDBShardInfo.chunkLookupOf]) fun i h₁ h₂ => ?_
    have hi : i < x.chunks.length := by simpa using h₂
    obtain ⟨hh,hc⟩ := MDBXorbInfo.readAt_chunk hd hi
    rw [drop_eq_getElem_cons hi,flatMap_cons,append_assoc] at hc
    simp [MDBShardInfo.chunkLookupOf,readChunkPlace,
      asU32_of_lt (hi.trans hx.length_lt),hh,readAt_of_reads (XorbChunkSequenceEntry.reads _) hc]

end Indices

section Entries
variable {index : ℕ} {fs : List MDBFileInfo}

theorem fileLookupFrom_keys (index : ℕ) (fs : List MDBFileInfo) :
    (fileLookupFrom index fs).map Prod.fst = fs.map fun f => f.metadata.fileHash.truncateHash := by
  induction fs generalizing index with
  | nil => rfl
  | cons f fs ih => rw [fileLookupFrom,map_cons,map_cons,ih]

theorem xorbLookupFrom_keys (index : ℕ) (xs : List MDBXorbInfo) :
    (xorbLookupFrom index xs).map Prod.fst = xs.map fun x => x.metadata.xorbHash.truncateHash := by
  induction xs generalizing index with
  | nil => rfl
  | cons x xs ih => rw [xorbLookupFrom,map_cons,map_cons,ih]

theorem fileLookupFrom_sorted (index : ℕ)
    (h : fs.Pairwise fun a b => a.metadata.fileHash < b.metadata.fileHash) :
    SortedKeys (fileLookupFrom index fs) := by
  have hk : ((fileLookupFrom index fs).map Prod.fst).Pairwise (· ≤ ·) := by
    rw [fileLookupFrom_keys,pairwise_map]
    exact h.imp fun hlt => DataHash.truncateHash_mono hlt.le
  exact pairwise_map.mp hk

theorem xorbLookupFrom_sorted (index : ℕ)
    (h : xs.Pairwise fun a b => a.metadata.xorbHash < b.metadata.xorbHash) :
    SortedKeys (xorbLookupFrom index xs) := by
  have hk : ((xorbLookupFrom index xs).map Prod.fst).Pairwise (· ≤ ·) := by
    rw [xorbLookupFrom_keys,pairwise_map]
    exact h.imp fun hlt => DataHash.truncateHash_mono hlt.le
  exact pairwise_map.mp hk

theorem fileLookupFrom_lt
    (h : index + (fs.map fun f => asU32 (f.serialize.length / mdbFileInfoEntrySize)).sum < 2 ^ 32) :
    ∀ e ∈ fileLookupFrom index fs, e.1 < 2 ^ 64 ∧ e.2 < 2 ^ 32 := by
  induction fs generalizing index with
  | nil => exact nofun
  | cons f fs ih =>
    rw [map_cons,sum_cons] at h
    exact forall_mem_cons.mpr ⟨⟨f.metadata.fileHash.truncateHash_lt,by omega⟩,ih (by omega)⟩

section
variable (h : index + (xs.map fun x => 1 + asU32 x.chunks.length).sum < 2 ^ 32)
include h

theorem xorbLookupFrom_lt : ∀ e ∈ xorbLookupFrom index xs, e.1 < 2 ^ 64 ∧ e.2 < 2 ^ 32 := by
  induction xs generalizing index with
  | nil => exact nofun
  | cons x xs ih =>
    rw [map_cons,sum_cons] at h
    exact forall_mem_cons.mpr ⟨⟨x.metadata.xorbHash.truncateHash_lt,by omega⟩,ih (by omega)⟩

theorem chunkLookupFrom_lt : ∀ e ∈ chunkLookupFrom index xs, e.1 < 2 ^ 64 ∧ e.2.1 < 2 ^ 32 ∧
    e.2.2 < 2 ^ 32 := by
  induction xs generalizing index with
  | nil => exact nofun
  | cons x xs ih =>
    rw [map_cons,sum_cons] at h
    refine forall_mem_append.mpr ⟨fun e he => ?_,ih (by omega)⟩
    obtain ⟨i,hi,rfl⟩ := mem_mapIdx.mp he
    exact ⟨DataHash.truncateHash_lt _,by dsimp only; omega,Nat.mod_lt _ (by decide)⟩

end

end Entries

namespace MDBShardInfo.Describes
variable {info : MDBShardInfo} {parts : ShardParts} (h : info.Describes parts)

theorem bytesWith_eq (info : MDBShardInfo) (parts : ShardParts) :
    info.bytesWith parts = info.header.serialize ++
    (parts.fileSection ++ (parts.xorbSection ++
      (writeLookup parts.fileLookup ++ (writeLookup parts.xorbLookup ++
      (writeChunkLookup parts.chunkLookup ++ info.metadata.serialize))))) := by
  simp [bytesWith,ShardParts.body]

theorem length_bytesWith (info : MDBShardInfo) (parts : ShardParts) :
    (info.bytesWith parts).length = 48 + parts.body.length + mdbShardFooterSize := by
  rw [bytesWith,length_append,length_append,info.header.length_serialize,info.metadata.length_serialize]
  omega

include h

theorem loadFromReader_eq : MDBShardInfo.loadFromReader (info.bytesWith parts) = .ok info := by
  have hh : readAt MDBShardFileHeader.deserialize (info.bytesWith parts) 0 = .ok info.header :=
    readAt_of_reads info.header.reads rfl
  have hf : readAt MDBShardFileFooter.deserialize (info.bytesWith parts)
      ((info.bytesWith parts).length - mdbShardFooterSize) = .ok info.metadata := by
    have hd : (info.bytesWith parts).drop ((info.bytesWith parts).length - mdbShardFooterSize) =
        info.metadata.serialize ++ [] := by
      rw [length_bytesWith,Nat.add_sub_cancel,append_nil,bytesWith,← append_assoc]
      exact drop_left' (by rw [length_append,info.header.length_serialize])
    exact readAt_of_reads (MDBShardFileFooter.reads h.version_eq) hd
  rw [loadFromReader,hh,ok_bind,ensure,if_pos (by rw [length_bytesWith]; omega),ok_bind,hf]
  rfl

theorem drop_fileSection : ∃ rest, (info.bytesWith parts).drop info.metadata.fileInfoOffset.toNat =
    parts.fileSection ++ rest := by
  rw [h.fileInfoOffset_eq,bytesWith_eq,← info.header.length_serialize,drop_left]
  exact ⟨_,rfl⟩

theorem drop_xorbSection : ∃ rest, (info.bytesWith parts).drop info.metadata.xorbInfoOffset.toNat =
    parts.xorbSection ++ rest := by
  rw [h.xorbInfoOffset_eq,bytesWith_eq,← info.header.length_serialize,drop_length_add_append,drop_left]
  exact ⟨_,rfl⟩

theorem fileTable (hen : ∀ e ∈ parts.fileLookup, e.1 < 2 ^ 64 ∧ e.2 < 2 ^ 32) :
    TableAt (info.bytesWith parts) info.metadata.fileLookupOffset.toNat 12 readU32 writeU32
      parts.fileLookup where
  stored := by
    rw [h.fileLookupOffset_eq,bytesWith_eq,← info.header.length_serialize,Nat.add_assoc,
      drop_length_add_append,drop_length_add_append,drop_left]
    exact ⟨_,rfl⟩
  key_lt e he := (hen e he).1
  reads e he := reads_u32 (hen e he).2
  size _ := rfl

theorem xorbTable (hen : ∀ e ∈ parts.xorbLookup, e.1 < 2 ^ 64 ∧ e.2 < 2 ^ 32) :
    TableAt (info.bytesWith parts) info.metadata.xorbLookupOffset.toNat 12 readU32 writeU32
      parts.xorbLookup where
  stored := by
    rw [h.xorbLookupOffset_eq,bytesWith_eq,← info.header.length_serialize,← length_writeLookup,
      Nat.add_assoc,
      Nat.add_assoc,drop_length_add_append,drop_length_add_append,drop_length_add_append,drop_left]
    exact ⟨_,rfl⟩
  key_lt e he := (hen e he).1
  reads e he := reads_u32 (hen e he).2
  size _ := rfl

theorem chunkTable (hen : ∀ e ∈ parts.chunkLookup, e.1 < 2 ^ 64 ∧ e.2.1 < 2 ^ 32 ∧ e.2.2 < 2 ^ 32) :
    TableAt (info.bytesWith parts) info.metadata.chunkLookupOffset.toNat 16 readU32Pair writeU32Pair
      parts.chunkLookup where
  stored := by
    rw [h.chunkLookupOffset_eq,bytesWith_eq,← info.header.length_serialize,← length_writeLookup,
      ← length_writeLookup,
      Nat.add_assoc,Nat.add_assoc,Nat.add_assoc,drop_length_add_append,drop_length_add_append,
      drop_length_add_append,drop_length_add_append,drop_left]
    exact ⟨_,rfl⟩
  key_lt e he := (hen e he).1
  reads e he := (reads_u32 (hen e he).2.1).bind ((reads_u32 (hen e he).2.2).bind_pure _)
  size _ := rfl

end MDBShardInfo.Describes
end XetCore.Shard
