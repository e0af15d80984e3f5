import XetCore.Lib.OperationTrees
import XetCore.Shard.SetOperations

/-! # Union and difference of shards in memory

A union takes the records of both shards. Of two xorbs with one hash it keeps the second, and of
two files with one hash the first, with the parts that only the second has. A difference keeps
what only its second shard has.
-/
namespace XetCore.Shard
open ByteSources Serialization OperationTrees
open Merkle (DataHash)

/-- The segment of some chunks of a xorb. The number of bytes and the indices have 32 bits. -/
def FileDataSequenceEntry.fromXorbEntries (metadata : XorbChunkSequenceHeader)
    (chunks : List XorbChunkSequenceEntry)
    (chunkIndexStart chunkIndexEnd : ℕ) : Result FileDataSequenceEntry :=
  if chunks.isEmpty then return {}
  else do
    let unpackedSegmentBytes ← (chunks.map fun sb => sb.unpackedSegmentBytes.toNat).foldlM addU32 0
    let chunkIndexStart ← tryIntoU32 chunkIndexStart
    let chunkIndexEnd ← tryIntoU32 chunkIndexEnd
    return {
      xorbHash := metadata.xorbHash
      xorbFlags := metadata.xorbFlags
      unpackedSegmentBytes := UInt32.ofNat unpackedSegmentBytes
      chunkIndexStart
      chunkIndexEnd }

theorem MDBFileInfo.mergeFrom_fileHash (f other : MDBFileInfo) :
    (f.mergeFrom other).metadata.fileHash = f.metadata.fileHash := by
  unfold MDBFileInfo.mergeFrom
  dsimp only
  split <;> split <;> rfl

/-- The number of chunks of the query, from its first on, that follow each other in the xorb. -/
def matchingRun : List XorbChunkSequenceEntry → List DataHash → ℕ
  | chunk :: chunks, hash :: hashes => if chunk.chunkHash = hash then matchingRun chunks hashes + 1 else 0
  | _, _ => 0

namespace MDBInMemoryShard

/-- Puts a file under its hash, merged with the file that stands there. -/
def mergeFile (m : MerkleMap MDBFileInfo) (p : DataHash × MDBFileInfo) : MerkleMap MDBFileInfo :=
  m.insert p.1 (m[p.1]?.elim p.2 fun old => old.mergeFrom p.2)

section MergeFiles
variable {l : List (DataHash × MDBFileInfo)} {h : DataHash}

theorem getElem?_foldl_mergeFile_of_notMem (hn : h ∉ l.map Prod.fst) (m : MerkleMap MDBFileInfo) :
    (l.foldl mergeFile m)[h]? = m[h]? := by
  induction l generalizing m with
  | nil => rfl
  | cons p l ih =>
    rw [List.map_cons,List.mem_cons,not_or] at hn
    rw [List.foldl_cons,ih hn.2,mergeFile,Std.ExtTreeMap.getElem?_insert,
      if_neg fun heq => hn.1 (Std.LawfulEqCmp.eq_of_compare heq).symm]

variable {f : MDBFileInfo}

theorem getElem?_foldl_mergeFile_of_mem (hn : (l.map Prod.fst).Nodup) (hf : (h,f) ∈ l)
    (m : MerkleMap MDBFileInfo) :
    (l.foldl mergeFile m)[h]? = some (m[h]?.elim f fun old => old.mergeFrom f) := by
  induction l generalizing m with
  | nil => cases hf
  | cons p l ih =>
    rw [List.map_cons,List.nodup_cons] at hn
    rw [List.foldl_cons]
    rcases List.mem_cons.mp hf with rfl | hmem
    · rw [getElem?_foldl_mergeFile_of_notMem hn.1,mergeFile,Std.ExtTreeMap.getElem?_insert_self]
    · have hne : p.1 ≠ h := fun heq => hn.1 (heq ▸ List.mem_map_of_mem hmem)
      rw [ih hn.2 hmem,mergeFile,Std.ExtTreeMap.getElem?_insert,
        if_neg fun heq => hne (Std.LawfulEqCmp.eq_of_compare heq)]

theorem getElem?_mergeFiles (m n : MerkleMap MDBFileInfo) (h : DataHash) :
    (n.toList.foldl mergeFile m)[h]? = Option.merge MDBFileInfo.mergeFrom m[h]? n[h]? := by
  have hk : (n.toList.map Prod.fst).Nodup := by
    rw [Std.ExtTreeMap.map_fst_toList_eq_keys]
    exact Std.ExtTreeMap.nodup_keys
  cases hn : n[h]? with
  | none =>
    rw [getElem?_foldl_mergeFile_of_notMem,Option.merge_none_right]
    rw [Std.ExtTreeMap.map_fst_toList_eq_keys,Std.ExtTreeMap.mem_keys,
      Std.ExtTreeMap.mem_iff_isSome_getElem?,hn]
    exact Bool.false_ne_true
  | some f =>
    rw [getElem?_foldl_mergeFile_of_mem hk (Std.ExtTreeMap.mem_toList_iff_getElem?_eq_some.mpr hn)]
    cases m[h]? <;> rfl

end MergeFiles

variable (s other : MDBInMemoryShard)

def unionContents : MDBInMemoryShard where
  xorbContent := s.xorbContent ∪ other.xorbContent
  fileContent := other.fileContent.toList.foldl mergeFile s.fileContent
  chunkHashLookup := s.chunkHashLookup ∪ other.chunkHashLookup
  currentShardFileSize := 0
  xorb_keyed h x hx := by
    rw [Std.ExtTreeMap.getElem?_union,Option.or_eq_some_iff] at hx
    rcases hx with hx | ⟨-,hx⟩
    · exact other.xorb_keyed h x hx
    · exact s.xorb_keyed h x hx
  file_keyed h f hf := by
    rw [getElem?_mergeFiles] at hf
    cases hs : s.fileContent[h]? with
    | none =>
      rw [hs,Option.merge_none_left] at hf
      exact other.file_keyed h f hf
    | some g =>
      cases ho : other.fileContent[h]? with
      | none =>
        rw [hs,ho,Option.merge_none_right] at hf
        exact s.file_keyed h f (hs.trans hf)
      | some g' =>
        rw [hs,ho] at hf
        cases hf
        rw [MDBFileInfo.mergeFrom_fileHash]
        exact s.file_keyed h g hs

theorem keyed_filter {α : Type} {m : MerkleMap α} {key : α → DataHash} {keep : DataHash → α → Bool}
    (hm : ∀ (h : DataHash) (a : α), m[h]? = some a → key a = h) (h : DataHash) (a : α)
    (ha : (m.filter keep)[h]? = some a) : key a = h := by
  rw [Std.ExtTreeMap.getElem?_filter',Option.filter_eq_some_iff] at ha
  exact hm h a ha.1

def differenceContents : MDBInMemoryShard where
  xorbContent := other.xorbContent.filter fun k _ => !s.xorbContent.contains k
  fileContent := other.fileContent.filter fun k _ => !s.fileContent.contains k
  chunkHashLookup := other.chunkHashLookup.filter fun k _ => !s.chunkHashLookup.contains k
  currentShardFileSize := 0
  xorb_keyed := keyed_filter other.xorb_keyed
  file_keyed := keyed_filter other.file_keyed

section Members
variable {s other} {x : MDBXorbInfo}

theorem mem_xorbs_unionContents : x ∈ (s.unionContents other).xorbs ↔
    x ∈ other.xorbs ∨ (x ∈ s.xorbs ∧ x.metadata.xorbHash ∉ other.xorbContent) := by
  rw [mem_xorbs,mem_xorbs,mem_xorbs,unionContents,Std.ExtTreeMap.getElem?_union,Option.or_eq_some_iff,
    getElem?_eq_none_iff,and_comm]

theorem mem_files_unionContents {f : MDBFileInfo} : f ∈ (s.unionContents other).files ↔
    (f ∈ s.files ∧ f.metadata.fileHash ∉ other.fileContent) ∨
    (f ∈ other.files ∧ f.metadata.fileHash ∉ s.fileContent) ∨
      ∃ g ∈ s.files, ∃ g' ∈ other.files, g.metadata.fileHash = g'.metadata.fileHash ∧
      f = g.mergeFrom g' := by
  simp only [mem_files,← getElem?_eq_none_iff]
  change (other.fileContent.toList.foldl mergeFile s.fileContent)[f.metadata.fileHash]? = some f ↔ _
  rw [getElem?_mergeFiles]
  constructor
  · intro hf
    cases hs : s.fileContent[f.metadata.fileHash]? with
    | none =>
      rw [hs,Option.merge_none_left] at hf
      exact .inr (.inl ⟨hf,rfl⟩)
    | some g =>
      cases ho : other.fileContent[f.metadata.fileHash]? with
      | none =>
        rw [hs,ho,Option.merge_none_right] at hf
        exact .inl ⟨hf,rfl⟩
      | some g' =>
        rw [hs,ho] at hf
        have hg := s.file_keyed _ _ hs
        have hg' := other.file_keyed _ _ ho
        exact .inr (.inr ⟨g,by rw [hg]; exact hs,g',by rw [hg']; exact ho,hg.trans hg'.symm,
          (Option.some.inj hf).symm⟩)
  · rintro (⟨hf,hn⟩ | ⟨hf,hn⟩ | ⟨g,hg,g',hg',hh,rfl⟩)
    · rw [hf,hn]
      rfl
    · rw [hf,hn]
      rfl
    · rw [MDBFileInfo.mergeFrom_fileHash,hg,hh,hg']
      rfl

theorem getElem?_filter_not_contains {α β : Type} {m : MerkleMap α} {n : MerkleMap β}
    {h : DataHash} {a : α} :
    (m.filter fun k _ => !n.contains k)[h]? = some a ↔ m[h]? = some a ∧ h ∉ n := by
  rw [Std.ExtTreeMap.getElem?_filter',Option.filter_eq_some_iff,Bool.not_eq_true',← Bool.not_eq_true,
    Std.ExtTreeMap.contains_iff_mem]

theorem mem_xorbs_differenceContents : x ∈ (s.differenceContents other).xorbs ↔
    x ∈ other.xorbs ∧ x.metadata.xorbHash ∉ s.xorbContent := by
  rw [mem_xorbs,mem_xorbs,differenceContents,getElem?_filter_not_contains]

end Members

def contentSize : Result ℕ := do
  let fileBytes ← s.files.mapM MDBFileInfo.numBytes
  return (s.xorbs.map fun x => x.numBytes + 12).sum + (fileBytes.map fun n => n + 12).sum +
    16 * s.chunkHashLookup.size

def recalculateShardSize : Result MDBInMemoryShard := do
  let numBytes ← s.contentSize
  return { s with currentShardFileSize := numBytes }

def union : Result MDBInMemoryShard := (s.unionContents other).recalculateShardSize

def difference : Result MDBInMemoryShard := (s.differenceContents other).recalculateShardSize

/-- Where the first chunk of the query is, and how many chunks follow as in the query. -/
def chunkHashDedupQuery : List DataHash → Result (Option (ℕ × FileDataSequenceEntry))
  | [] => return none
  | hash :: hashes =>
    match s.chunkHashLookup[hash]? with
    | none => return none
    | some (chunkRef,start) => do
      let count := matchingRun (chunkRef.chunks.drop start) (hash :: hashes)
      if chunkRef.chunks.length < start + count then throw .panicked
      let entry ← FileDataSequenceEntry.fromXorbEntries chunkRef.metadata
        ((chunkRef.chunks.drop start).take count)
        start (start + count)
      return some (count,entry)

end MDBInMemoryShard

inductive ShardEdit where
  | addXorbBlock (xorb : MDBXorbInfo)
  | addFileReconstructionInfo (fileInfo : MDBFileInfo)

def shardOperations : Operations ShardEdit MDBSetOperation MDBInMemoryShard CoreError where
  first := .empty
  one
    | .addXorbBlock xorb, s => .ok (s.addXorbBlock xorb)
    | .addFileReconstructionInfo fileInfo, s => s.addFileReconstructionInfo fileInfo
  two
    | .union, s, other => s.union other
    | .difference, s, other => s.difference other

abbrev ShardTree := Tree ShardEdit MDBSetOperation

end XetCore.Shard
