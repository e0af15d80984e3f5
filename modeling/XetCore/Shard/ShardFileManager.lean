import XetCore.Shard.Lookups

/-! # The shard file manager

New records go to a shard in memory. When it is full or flushed it is written to the
directory and emptied, and then the written file is registered. The registered shards are
kept in collections, one for each key, with a table of their chunk hashes.
-/
namespace XetCore.Shard
open ByteSources Serialization List
open Merkle (DataHash)

def asU16 (n : ℕ) : ℕ := n % 2 ^ 16

structure ChunkCacheElement where
  xorbStartIndex : ℕ
  xorbChunkOffset : ℕ
  shardIndex : ℕ
deriving DecidableEq, Repr

/-- A shard file of the directory, where it stands under its hash. -/
structure MDBShardFile where
  shardHash : DataHash
  shard : MDBShardInfo
deriving DecidableEq, Repr

abbrev ShardDirectory := MerkleMap Bytes

namespace ShardDirectory
variable (directory : ShardDirectory)

def read (shardHash : DataHash) : Result Bytes :=
  match directory[shardHash]? with
  | some bytes => .ok bytes
  | none => .error (.io .other)

def loadFromFile (shardHash : DataHash) : Result MDBShardFile := do
  let bytes ← read directory shardHash
  let shard ← MDBShardInfo.loadFromReader bytes
  return { shardHash, shard }

end ShardDirectory

namespace MDBShardInfo
variable (info : MDBShardInfo) (bytes : Bytes)

/-- The chunks of the next xorb with their places, as long as the position is before the end of the
section. -/
def truncatedHashesStep (available stop : ℕ) (s : List (ℕ × ℕ × ℕ) × ℕ) :
    Reader Bytes CoreError ((List (ℕ × ℕ × ℕ) × ℕ) ⊕ List (ℕ × ℕ × ℕ)) := do
  let remaining ← peek
  if info.metadata.xorbInfoOffset.toNat + (available - remaining.length) < stop then
    let xorbHeader ← XorbChunkSequenceHeader.deserialize
    let chunks ← readMany XorbChunkSequenceEntry.deserialize xorbHeader.numEntries.toNat
    let step ← liftM (addU32 1 xorbHeader.numEntries.toNat)
    let xorbIndex ← liftM (addU32 s.2 step)
    return .inl (s.1 ++ chunks.mapIdx fun i c => (c.chunkHash.truncateHash,s.2,i),xorbIndex)
  else return .inr s.1

/-- From the table of the chunks, or from the xorbs where the table is empty. -/
def readAllTruncatedHashes : Result (List (ℕ × ℕ × ℕ)) :=
  if info.metadata.chunkLookupNumEntry ≠ 0 then
    readAt (readMany (readPair readU32Pair) info.metadata.chunkLookupNumEntry.toNat) bytes
      info.metadata.chunkLookupOffset.toNat
  else
    readAt (readerLoop (.io .unexpectedEof) (info.truncatedHashesStep
      (bytes.drop info.metadata.xorbInfoOffset.toNat).length info.metadata.fileLookupOffset.toNat)
        ([],0)) bytes
      info.metadata.xorbInfoOffset.toNat

end MDBShardInfo

structure KeyedShardCollection where
  hmacKey : HMACKey
  shardList : List MDBShardFile := []
  chunkLookup : Std.ExtTreeMap ℕ ChunkCacheElement compare := ∅

namespace KeyedShardCollection

/-- The place of a chunk is kept in fewer bits than it has. -/
def insertHash (shardIndex : ℕ) (lookup : Std.ExtTreeMap ℕ ChunkCacheElement compare) (e : ℕ × ℕ × ℕ) :
    Std.ExtTreeMap ℕ ChunkCacheElement compare :=
  if 2 ^ 16 - 1 < e.2.2 then lookup
  else lookup.insert e.1 ⟨e.2.1,asU16 e.2.2,asU16 shardIndex⟩

def pushShard (c : KeyedShardCollection) (s : MDBShardFile) (insertHashes : List (ℕ × ℕ × ℕ)) :
    KeyedShardCollection where
  hmacKey := c.hmacKey
  shardList := c.shardList ++ [s]
  chunkLookup := insertHashes.foldl (insertHash c.shardList.length) c.chunkLookup

end KeyedShardCollection

variable (collections : List KeyedShardCollection)

/-- The collections stand at the places of their keys. -/
def Keyed (byKey : MerkleMap ℕ) : Prop :=
  ∀ (key : HMACKey) (i : ℕ), byKey[key]? = some i → ∃ c, collections[i]? = some c ∧ c.hmacKey = key

def Listed (byHash : MerkleMap (ℕ × ℕ)) : Prop :=
  ∀ (h : DataHash) (place : ℕ × ℕ), byHash[h]? = some place →
    ∃ c s, collections[place.1]? = some c ∧ c.shardList[place.2]? = some s ∧ s.shardHash = h

section Places
variable {collections} {byKey : MerkleMap ℕ} {byHash : MerkleMap (ℕ × ℕ)}
 {i : ℕ} {c c' : KeyedShardCollection}

theorem getElem?_append_of_eq_some {α : Type} {as bs : List α} {a : α} (ha : as[i]? = some a) :
    (as ++ bs)[i]? = some a := by
  rw [getElem?_append_left (List.getElem?_eq_some_iff.mp ha).1,ha]

theorem keyed_new : Keyed [⟨default,[],∅⟩] ((∅ : MerkleMap ℕ).insert default 0) := by
  intro key i h
  rw [Std.ExtTreeMap.getElem?_insert] at h
  split_ifs at h with heq
  · cases h
    exact ⟨_,rfl,Std.LawfulEqCmp.eq_of_compare heq⟩
  · simp at h

theorem Keyed.push (h : Keyed collections byKey) (key : HMACKey) :
    Keyed (collections ++ [⟨key,[],∅⟩]) (byKey.insert key collections.length) := by
  intro key' i hi
  rw [Std.ExtTreeMap.getElem?_insert] at hi
  split_ifs at hi with heq
  · cases hi
    exact ⟨⟨key,[],∅⟩,by simp,Std.LawfulEqCmp.eq_of_compare heq⟩
  · obtain ⟨c,hc,hk⟩ := h key' i hi
    exact ⟨c,getElem?_append_of_eq_some hc,hk⟩

theorem Keyed.set (h : Keyed collections byKey) (hc : collections[i]? = some c)
    (hk : c'.hmacKey = c.hmacKey) :
    Keyed (collections.set i c') byKey := by
  intro key j hj
  obtain ⟨d,hd,hdk⟩ := h key j hj
  by_cases hij : i = j
  · obtain rfl := hij
    cases hc.symm.trans hd
    have hlt := (List.getElem?_eq_some_iff.mp hc).1
    exact ⟨c',getElem?_set_self hlt,hk.trans hdk⟩
  · exact ⟨d,by rw [getElem?_set_ne hij,hd],hdk⟩

theorem Listed.push (h : Listed collections byHash) (d : KeyedShardCollection) :
    Listed (collections ++ [d]) byHash := by
  intro hash place hp
  obtain ⟨c,s,hc,hs⟩ := h hash place hp
  exact ⟨c,s,getElem?_append_of_eq_some hc,hs⟩

theorem Listed.set (h : Listed collections byHash) (hc : collections[i]? = some c)
    {more : List MDBShardFile}
    (hl : c'.shardList = c.shardList ++ more) : Listed (collections.set i c') byHash := by
  intro hash place hp
  obtain ⟨d,s,hd,hs,hh⟩ := h hash place hp
  by_cases hij : i = place.1
  · obtain rfl := hij
    cases hc.symm.trans hd
    have hlt := (List.getElem?_eq_some_iff.mp hc).1
    exact ⟨c',s,getElem?_set_self hlt,by rw [hl,getElem?_append_of_eq_some hs],hh⟩
  · exact ⟨d,s,by rw [getElem?_set_ne hij,hd],hs,hh⟩

theorem Listed.pushShard (h : Listed collections byHash) (hc : collections[i]? = some c)
    (s : MDBShardFile) (hashes : List (ℕ × ℕ × ℕ)) :
    Listed (collections.set i (c.pushShard s hashes))
      (byHash.insert s.shardHash (i,c.shardList.length)) := by
  intro hash place hp
  rw [Std.ExtTreeMap.getElem?_insert] at hp
  split_ifs at hp with heq
  · cases hp
    have hlt := (List.getElem?_eq_some_iff.mp hc).1
    exact ⟨_,s,getElem?_set_self hlt,by simp [KeyedShardCollection.pushShard],
      Std.LawfulEqCmp.eq_of_compare heq⟩
  · exact h.set hc rfl hash place hp

end Places

structure ShardBookkeeper where
  shardCollections : List KeyedShardCollection
  collectionByKey : MerkleMap ℕ
  shardLookupByShardHash : MerkleMap (ℕ × ℕ)
  totalIndexedChunks : ℕ
  keyed : Keyed shardCollections collectionByKey
  listed : Listed shardCollections shardLookupByShardHash

namespace ShardBookkeeper

/-- The collection without a key comes first, so that it is tried first. -/
def new : ShardBookkeeper where
  shardCollections := [⟨default,[],∅⟩]
  collectionByKey := (∅ : MerkleMap ℕ).insert default 0
  shardLookupByShardHash := ∅
  totalIndexedChunks := 0
  keyed := keyed_new
  listed := by simp [Listed]

variable (b : ShardBookkeeper)

/-- All registered shards, in the order in which a file is looked for. -/
def shards : List MDBShardFile := b.shardCollections.flatMap KeyedShardCollection.shardList

def withCollection (key : HMACKey) : ShardBookkeeper :=
  match b.collectionByKey[key]? with
  | some _ => b
  | none =>
    { shardCollections := b.shardCollections ++ [⟨key,[],∅⟩]
      collectionByKey := b.collectionByKey.insert key b.shardCollections.length
      shardLookupByShardHash := b.shardLookupByShardHash
      totalIndexedChunks := b.totalIndexedChunks
      keyed := b.keyed.push key
      listed := b.listed.push _ }

theorem exists_collection (key : HMACKey) :
    ∃ i, (b.withCollection key).collectionByKey[key]? = some i := by
  rw [withCollection]
  cases hk : b.collectionByKey[key]? with
  | some i => exact ⟨i,hk⟩
  | none => exact ⟨b.shardCollections.length,Std.ExtTreeMap.getElem?_insert_self⟩

/-- Adds a shard to a collection. If its chunks could not be read, nothing else is recorded. -/
def push (chunkIndexTableMaxSize i : ℕ) (c : KeyedShardCollection) (hc : b.shardCollections[i]? = some c)
    (s : MDBShardFile) : Result (List (ℕ × ℕ × ℕ)) → ShardBookkeeper
  | .error _ =>
    { b with
      shardCollections := b.shardCollections.set i (c.pushShard s [])
      keyed := b.keyed.set hc rfl
      listed := b.listed.set hc rfl }
  | .ok hashes =>
    let insertHashes := if b.totalIndexedChunks < chunkIndexTableMaxSize then hashes else []
    let pushed := c.pushShard s insertHashes
    { shardCollections := b.shardCollections.set i pushed
      collectionByKey := b.collectionByKey
      shardLookupByShardHash := b.shardLookupByShardHash.insert s.shardHash (i,c.shardList.length)
      totalIndexedChunks := b.totalIndexedChunks + (pushed.chunkLookup.size - c.chunkLookup.size)
      keyed := b.keyed.set hc rfl
      listed := b.listed.pushShard hc s insertHashes }

def register (chunkIndexTableMaxSize : ℕ) (s : MDBShardFile)
    (truncatedHashes : Result (List (ℕ × ℕ × ℕ))) : ShardBookkeeper :=
  let b' := b.withCollection s.shard.metadata.chunkHashHmacKey
  let i := b'.collectionByKey[s.shard.metadata.chunkHashHmacKey]?.getD 0
  match hc : b'.shardCollections[i]? with
  | some c => b'.push chunkIndexTableMaxSize i c hc s truncatedHashes
  | none => b'

variable {b} {chunkIndexTableMaxSize : ℕ} {s : MDBShardFile} {truncatedHashes : Result (List (ℕ × ℕ × ℕ))}
variable {t : MDBShardFile}

theorem mem_shards : t ∈ b.shards ↔ ∃ c ∈ b.shardCollections, t ∈ c.shardList := mem_flatMap

theorem shards_withCollection (key : HMACKey) : (b.withCollection key).shards = b.shards := by
  rw [withCollection]
  cases b.collectionByKey[key]? with
  | some i => rfl
  | none => simp [shards]

theorem mem_set_pushShard {collections : List KeyedShardCollection} {i : ℕ} {c : KeyedShardCollection}
    (hc : collections[i]? = some c) (hashes : List (ℕ × ℕ × ℕ)) :
    (∃ d ∈ collections.set i (c.pushShard s hashes), t ∈ d.shardList) ↔
      (∃ d ∈ collections, t ∈ d.shardList) ∨ t = s := by
  have hl : (c.pushShard s hashes).shardList = c.shardList ++ [s] := rfl
  obtain ⟨hlt,rfl⟩ := List.getElem?_eq_some_iff.mp hc
  have hs := take_append_drop i collections
  rw [drop_eq_getElem_cons hlt] at hs
  rw [set_eq_take_append_cons_drop,if_pos hlt]
  constructor
  · rintro ⟨d,hd,ht⟩
    rcases mem_append.mp hd with hd | hd
    · exact .inl ⟨d,mem_of_mem_take hd,ht⟩
    · rcases mem_cons.mp hd with rfl | hd
      · rw [hl,mem_append,mem_singleton] at ht
        exact ht.imp_left fun ht => ⟨_,getElem_mem hlt,ht⟩
      · exact .inl ⟨d,mem_of_mem_drop hd,ht⟩
  · rintro (⟨d,hd,ht⟩ | rfl)
    · rw [← hs] at hd
      rcases mem_append.mp hd with hd | hd
      · exact ⟨d,mem_append_left _ hd,ht⟩
      · rcases mem_cons.mp hd with rfl | hd
        · exact ⟨_,mem_append_right _ mem_cons_self,by exact mem_append_left _ ht⟩
        · exact ⟨d,mem_append_right _ (mem_cons_of_mem _ hd),ht⟩
    · exact ⟨_,mem_append_right _ mem_cons_self,by rw [hl]; simp⟩

theorem register_eq : ∃ i c, ∃ hc :
    (b.withCollection s.shard.metadata.chunkHashHmacKey).shardCollections[i]? = some c,
    c.hmacKey = s.shard.metadata.chunkHashHmacKey ∧ b.register chunkIndexTableMaxSize s truncatedHashes =
      (b.withCollection s.shard.metadata.chunkHashHmacKey).push chunkIndexTableMaxSize i c hc s
        truncatedHashes := by
  obtain ⟨i,hi⟩ := b.exists_collection s.shard.metadata.chunkHashHmacKey
  obtain ⟨c,hc,hk⟩ := (b.withCollection s.shard.metadata.chunkHashHmacKey).keyed _ i hi
  have hg : (b.withCollection s.shard.metadata.chunkHashHmacKey).collectionByKey[
      s.shard.metadata.chunkHashHmacKey]?.getD 0 = i := by
    rw [hi,Option.getD_some]
  rw [register]
  split
  · rename_i c' hc'
    have heq := hc'
    rw [hg,hc] at heq
    cases heq
    exact ⟨_,c,hc',hk,rfl⟩
  · rename_i hn
    rw [hg,hc] at hn
    cases hn

/-- A shard that is registered is added to those that are. -/
theorem mem_shards_register :
    t ∈ (b.register chunkIndexTableMaxSize s truncatedHashes).shards ↔ t ∈ b.shards ∨ t = s := by
  obtain ⟨i,c,hc,-,heq⟩ := register_eq
  rw [heq,← shards_withCollection (b := b) s.shard.metadata.chunkHashHmacKey,mem_shards,mem_shards]
  cases truncatedHashes with
  | error e => exact mem_set_pushShard hc _
  | ok hashes => exact mem_set_pushShard hc _

end ShardBookkeeper

/-- The settings of a manager and what it computes with. -/
structure ManagerConfig where
  targetShardMaxSize : ℕ
  chunkIndexTableMaxSize : ℕ
  sorter : KeySort (ℕ × ℕ)
  interpolate : Interpolation
  computeDataHash : Bytes → DataHash

structure ShardFileManager where
  currentState : MDBInMemoryShard
  shardBookkeeper : ShardBookkeeper
  shardDirectory : ShardDirectory

namespace ShardFileManager
variable (cfg : ManagerConfig) (m : ShardFileManager)

/-- Writes the shard in memory to the file of its hash and empties it. -/
def cutShard : Result (ShardFileManager × DataHash) := do
  let bytes ← m.currentState.toBytes cfg.sorter
  let shardHash := cfg.computeDataHash bytes
  return ({ m with currentState := .empty, shardDirectory :=
    m.shardDirectory.insert shardHash bytes },shardHash)

/-- Cuts the shard if so many bytes would take it over the limit. -/
def cutIfFull (numBytes : ℕ) : Result (ShardFileManager × Option DataHash) :=
  if cfg.targetShardMaxSize < m.currentState.shardFileSize + numBytes then do
    let (m',newShard) ← m.cutShard cfg
    return (m',some newShard)
  else return (m,none)

/-- What is done under the lock of the shard in memory. The new file is returned. -/
def addXorbBlock (xorb : MDBXorbInfo) : Result (ShardFileManager × Option DataHash) := do
  let (m',newShard) ← m.cutIfFull cfg xorb.numBytes
  return ({ m' with currentState := m'.currentState.addXorbBlock xorb },newShard)

def addFileReconstructionInfo (fileInfo : MDBFileInfo) : Result (ShardFileManager × Option DataHash) := do
  let numBytes ← fileInfo.numBytes
  let (m',newShard) ← m.cutIfFull cfg numBytes
  let currentState ← m'.currentState.addFileReconstructionInfo fileInfo
  return ({ m' with currentState },newShard)

def flush : Result (ShardFileManager × Option DataHash) :=
  if m.currentState.isEmpty then return (m,none)
  else do
    let (m',newShard) ← m.cutShard cfg
    return (m',some newShard)

def isRegistered (shardHash : DataHash) : Bool :=
  m.shardBookkeeper.shardLookupByShardHash.contains shardHash

/-- The truncated hashes are read from the file of the shard. -/
def registerShard (s : MDBShardFile) : ShardFileManager :=
  { m with
    shardBookkeeper := m.shardBookkeeper.register cfg.chunkIndexTableMaxSize s do
      let bytes ← m.shardDirectory.read s.shardHash
      s.shard.readAllTruncatedHashes bytes }

def registerShards (newShards : List MDBShardFile) : ShardFileManager :=
  newShards.foldl (fun m s => if m.isRegistered s.shardHash then m else m.registerShard cfg s) m

/-- A new manager that has registered these shards of its directory. -/
def openDirectory (shardDirectory : ShardDirectory) (shards : List MDBShardFile) : ShardFileManager :=
  registerShards cfg ⟨.empty,.new,shardDirectory⟩ shards

/-- A shard whose file was deleted after it was registered has no answer. -/
def queryShard (s : MDBShardFile) (fileHash : DataHash) : Result (Option MDBFileInfo) :=
  match m.shardDirectory[s.shardHash]? with
  | none => return none
  | some bytes => s.shard.getFileReconstructionInfo cfg.interpolate bytes fileHash

def queryShards (fileHash : DataHash) :
    List MDBShardFile → Result (Option (MDBFileInfo × Option DataHash))
  | [] => return none
  | s :: rest => do
    match ← m.queryShard cfg s fileHash with
    | some fi => return some (fi,some s.shardHash)
    | none => queryShards fileHash rest

end ShardFileManager
end XetCore.Shard
