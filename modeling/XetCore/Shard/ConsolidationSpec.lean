import XetCore.Shard.ManagedDirectory
import XetCore.Shard.SetOperations
import XetCore.Shard.FileLookup
import XetCore.Shard.SetOperationOutput

/-! # Consolidating the shards of a directory

The shards of a directory are read in the order of their times of modification and merged
as long as the sizes allow it. Each merged shard is written out under its hash. At the end
the sources are deleted, unless one of the written shards has the same name.
-/
namespace XetCore.Shard
open ByteSources Serialization ShardDirectory
open Merkle (DataHash)

variable {info : MDBShardInfo}

structure ShardMergeResult where
  mergedShards : List MDBShardFile := []
  obsoleteShards : List MDBShardFile := []
  skippedShards : List MDBShardFile := []

/-- What consolidation is run with: the settings, the time, and the order of the times of
modification. -/
structure ConsolidationConfig where
  targetMaxSize : ℕ
  skipOnError : Bool
  currentTime : UInt64
  expirationBuffer : UInt64
  lastModifiedTime : DataHash → ℕ
  sortByTime : KeySort MDBShardFile
  heap : KeySort MDBShardFile
  sorter : KeySort (ℕ × ℕ)
  computeDataHash : Bytes → DataHash

/-- The shard that is being built, and what became of the shards before. -/
structure MergeState where
  curData : Bytes := []
  curSi : MDBShardInfo := {}
  destShards : List MDBShardFile := []
  ingestedShards : List MDBShardFile := []
  skippedShards : List MDBShardFile := []
  directory : ShardDirectory

namespace ShardDirectory

/-- Writes the data to the file of its hash and loads the file. -/
def writeOutFromReader (computeDataHash : Bytes → DataHash) (directory : ShardDirectory) (data : Bytes) :
    Result (MDBShardFile × ShardDirectory) := do
  let shardHash := computeDataHash data
  let written : ShardDirectory := directory.insert shardHash data
  let sf ← loadFromFile written shardHash
  return (sf,written)

/-- The first bytes of the file, as many as the footer says. -/
def readIntoBuffer (directory : ShardDirectory) (shardHash : DataHash) (numBytes : ℕ) : Result Bytes := do
  let bytes ← read directory shardHash
  ensure (numBytes ≤ bytes.length) (.io .unexpectedEof)
  return bytes.take numBytes

def removeFile (directory : ShardDirectory) (shardHash : DataHash) : Result ShardDirectory :=
  if shardHash ∈ directory then .ok (directory.erase shardHash) else .error (.io .other)

end ShardDirectory

namespace ConsolidationConfig
variable (cfg : ConsolidationConfig)

/-- The size of two shards without one header and one footer. -/
def estimatedSize (curData nextData : Bytes) : Result ℕ := do
  let sum ← addUsize curData.length nextData.length
  subUsize sum (48 + mdbShardFooterSize)

variable (s : MergeState)

def flushShard : Result MergeState := do
  let (outSfi,directory) ← writeOutFromReader cfg.computeDataHash s.directory s.curData
  return { s with destShards := s.destShards ++ [outSfi], directory }

def ingest (sfi : MDBShardFile) (nextData : Bytes) : Result MergeState :=
  let s := { s with ingestedShards := s.ingestedShards ++ [sfi] }
  if s.curData.isEmpty then return { s with curData := nextData, curSi := sfi.shard }
  else do
    let size ← estimatedSize s.curData nextData
    if size ≤ cfg.targetMaxSize then
      let (curSi,curData) ← shardSetUnion cfg.sorter s.curSi s.curData sfi.shard nextData
      return { s with curSi, curData }
    else
      let s ← cfg.flushShard s
      return { s with curData := nextData, curSi := sfi.shard }

def mergeStep (sfi : MDBShardFile) : Result MergeState := do
  let numBytes ← sfi.shard.numBytes
  match readIntoBuffer s.directory sfi.shardHash numBytes with
  | .ok nextData => cfg.ingest s sfi nextData
  | .error e => if cfg.skipOnError then return { s with skippedShards :=
      s.skippedShards ++ [sfi] } else .error e

/-- Sources that are not among the written shards are obsolete. -/
def mergeResult : ShardMergeResult where
  mergedShards := s.destShards
  obsoleteShards := s.ingestedShards.filter fun sfi =>
    sfi.shardHash ∉ s.destShards.map MDBShardFile.shardHash
  skippedShards := s.skippedShards

/-- Merges the listed shards of a directory into the same directory. The buffers must be
allocatable. -/
def mergeShards (names : List DataHash) (directory : ShardDirectory) :
    Result (ShardMergeResult × ShardDirectory) := do
  let (loaded,directory) ← loadAllValid cfg.heap cfg.expirationBuffer cfg.currentTime names directory
  let shards := (cfg.sortByTime.sort (loaded.map fun s => (cfg.lastModifiedTime s.shardHash,s))).map
    Prod.snd
  if shards.isEmpty then return ({},directory)
  else do
    ensure (cfg.targetMaxSize < 2 ^ 63) .panicked
    let s ← shards.foldlM cfg.mergeStep { directory }
    let s ← if s.curData.isEmpty then pure s else cfg.flushShard s
    return (mergeResult s,s.directory)

def removeObsolete (directory : ShardDirectory) (sfi : MDBShardFile) : Result ShardDirectory :=
  match removeFile directory sfi.shardHash with
  | .ok directory => return directory
  | .error e => if cfg.skipOnError then return directory else .error e

def consolidateShardsInDirectory (names : List DataHash) (directory : ShardDirectory) :
    Result (List MDBShardFile × ShardDirectory) := do
  let (shardMergeResult,directory) ← cfg.mergeShards names directory
  let directory ← shardMergeResult.obsoleteShards.foldlM cfg.removeObsolete directory
  return (shardMergeResult.mergedShards,directory)

end ConsolidationConfig

open SortedMerge List

section Sizes

def fileCost (f : MDBFileInfo) : ℕ := 48 * (1 + f.metadata.numFollowing) + 12

/-- The bytes of a xorb with its place and those of its chunks. -/
def xorbCost (x : MDBXorbInfo) : ℕ := 48 * (1 + x.chunks.length) + 12 + 16 * x.chunks.length

/-- The length of a shard with these records and all its tables. -/
def shardLength (fs : List MDBFileInfo) (xs : List MDBXorbInfo) : ℕ :=
  344 + (fs.map fileCost).sum + (xs.map xorbCost).sum

variable {bytes : Bytes} {fs gs : List MDBFileInfo}
  {xs ys : List MDBXorbInfo}

theorem sum_fileCost (fs : List MDBFileInfo) :
    (fs.map fileCost).sum = 48 * (fs.map fun f => 1 + f.metadata.numFollowing).sum + fs.length * 12 := by
  induction fs with
  | nil => rfl
  | cons f fs ih =>
    simp only [map_cons,sum_cons,length_cons,ih,fileCost]
    ring

theorem sum_xorbCost (xs : List MDBXorbInfo) : (xs.map xorbCost).sum =
    48 * (xs.map fun x => 1 + x.chunks.length).sum + xs.length * 12 +
      16 * (xs.map fun x => x.chunks.length).sum := by
  induction xs with
  | nil => rfl
  | cons x xs ih =>
    simp only [map_cons,sum_cons,length_cons,ih,xorbCost]
    ring

section
variable (h : FullShard info bytes fs xs)
include h

theorem FullShard.length_eq : bytes.length = shardLength fs xs := by
  obtain ⟨sorter,fileEnd,xorbEnd,parts,hm,-,-,hin,rfl⟩ := h.made
  rw [MDBShardInfo.Describes.length_bytesWith,ShardParts.length_body,hm.fileSection_eq,
    hm.xorbSection_eq,hm.fileLookup_eq,hm.xorbLookup_eq,hm.chunkLookup_eq,if_pos rfl,if_pos rfl,
    length_append,length_append,h.records.length_files,ShardRecords.length_xorbs,
    (sorter.perm _).length_eq,length_fileLookupFrom,length_xorbLookupFrom,length_chunkLookupFrom,
    fileEnd.length_serialize,xorbEnd.length_serialize,shardLength,sum_fileCost,sum_xorbCost]
  have hf : mdbShardFooterSize = 200 := rfl
  omega

theorem FullShard.loadFromReader_eq : MDBShardInfo.loadFromReader bytes = .ok info := by
  obtain ⟨_,_,_,_,-,-,-,hin,rfl⟩ := h.made
  exact hin.loadFromReader_eq

theorem FullShard.bytesOf_eq (hash : DataHash) : ShardDirectory.bytesOf ⟨hash,info⟩ = bytes.length := by
  obtain ⟨_,_,_,_,-,-,-,hin,rfl⟩ := h.made
  rw [ShardDirectory.bytesOf,hin.footerOffset_eq,MDBShardInfo.Describes.length_bytesWith]

end

theorem numFollowing_unionFile_le {a b : MDBFileInfo} (hc : MeetsEvenly a b) :
    (unionFile a b).metadata.numFollowing ≤ a.metadata.numFollowing + b.metadata.numFollowing := by
  rw [unionFile]
  cases hs : FileDataSequenceHeader.compareFlagSuperset a.metadata b.metadata with
  | superA => exact Nat.le_add_right _ _
  | equal => exact Nat.le_add_right _ _
  | superB => exact Nat.le_add_left _ _
  | neither =>
    have hn := hc hs
    rw [FileDataSequenceHeader.numFollowing,mergedFile,containsVerification_flagsOf,
      containsMetadataExt_flagsOf,FileDataSequenceHeader.numFollowing,
      FileDataSequenceHeader.numFollowing]
    cases ha : a.metadata.containsVerification <;> cases hb : b.metadata.containsVerification <;>
      cases a.metadata.containsMetadataExt <;> cases b.metadata.containsMetadataExt <;>
        simp [ha,hb] at hn ⊢ <;> grind

/-- The records of two shards can be written as one shard. -/
@[mk_iff]
structure Unites (fs gs : List MDBFileInfo) (xs ys : List MDBXorbInfo) : Prop where
  even : ∀ f ∈ fs, ∀ g ∈ gs, f.metadata.fileHash = g.metadata.fileHash → MeetsEvenly f g
  fileRecords_lt :
    ((mergedFiles .union fs gs).map fun f => 1 + f.metadata.numFollowing).sum < 2 ^ 32
  xorbRecords_lt : ((mergedXorbs .union xs ys).map fun x => 1 + x.chunks.length).sum < 2 ^ 32

instance (fs gs : List MDBFileInfo) (xs ys : List MDBXorbInfo) : Decidable (Unites fs gs xs ys) :=
  decidable_of_iff' _ (unites_iff fs gs xs ys)

theorem sum_fileCost_mergedFiles
    (hc : ∀ f ∈ fs, ∀ g ∈ gs, f.metadata.fileHash = g.metadata.fileHash → MeetsEvenly f g) :
    ((mergedFiles .union fs gs).map fileCost).sum ≤
      (fs.map fileCost).sum + (gs.map fileCost).sum :=
  sum_mergeBy_le fun f hf g hg heq z hz => by
    cases hz
    have hle := numFollowing_unionFile_le (hc f hf g hg heq)
    unfold fileCost
    omega

theorem sum_xorbCost_mergedXorbs (xs ys : List MDBXorbInfo) :
    ((mergedXorbs .union xs ys).map xorbCost).sum ≤
      (xs.map xorbCost).sum + (ys.map xorbCost).sum :=
  sum_mergeBy_le fun x hx y hy heq z hz => by
    cases hz
    exact Nat.le_add_right _ _

end Sizes

structure FullSource where
  shardHash : DataHash
  info : MDBShardInfo
  bytes : Bytes
  files : List MDBFileInfo
  xorbs : List MDBXorbInfo
  full : FullShard info bytes files xorbs

namespace FullSource

def file (s : FullSource) : MDBShardFile := ⟨s.shardHash,s.info⟩

end FullSource

variable (cfg : ConsolidationConfig) (sources : List FullSource)

/-- What can be built of the sources by merging them in. -/
inductive Mergeable : MDBShardInfo → Bytes → Prop
  | source {s : FullSource} : s ∈ sources → Mergeable s.info s.bytes
  | union {info info' : MDBShardInfo} {bytes bytes' : Bytes} {s : FullSource} : Mergeable info
    bytes → s ∈ sources →
      shardSetUnion cfg.sorter info bytes s.info s.bytes = .ok (info',bytes') → Mergeable info' bytes'

/-- The directory holds the sources and nothing else. They have not expired, and nothing that is
built of them has the hash of another one of them. -/
structure SourcesIn (names : List DataHash) (directory : ShardDirectory) : Prop where
  nodup : (sources.map FullSource.shardHash).Nodup
  names_perm : names.Perm (sources.map FullSource.shardHash)
  files : ∀ s ∈ sources, directory[s.shardHash]? = some s.bytes
  only : ∀ h ∈ directory, ∃ s ∈ sources, s.shardHash = h
  current : ∀ s ∈ sources, cfg.currentTime ≤ s.info.metadata.shardKeyExpiry
  noCollision : ∀ info bytes, Mergeable cfg sources info bytes → ∀ s ∈ sources,
    cfg.computeDataHash bytes = s.shardHash → bytes = s.bytes

/-- The sources are merged into a shard with these records as long as the limit allows it, and
then into the next shard. All that is merged can be written as one shard. -/
def UnitesAll (targetMaxSize : ℕ) : List MDBFileInfo → List MDBXorbInfo → List FullSource → Prop
  | _, _, [] => True
  | fs, xs, s :: rest =>
    if shardLength fs xs + s.bytes.length ≤ targetMaxSize + 248 then
      Unites fs s.files xs s.xorbs ∧
        UnitesAll targetMaxSize ((mergedFiles .union fs s.files).map MDBFileInfo.stripped)
          (mergedXorbs .union xs s.xorbs) rest
    else UnitesAll targetMaxSize s.files s.xorbs rest

instance decidableUnitesAll (targetMaxSize : ℕ) : ∀ fs xs rest,
    Decidable (UnitesAll targetMaxSize fs xs rest)
  | _, _, [] => inferInstanceAs (Decidable True)
  | fs, xs, s :: rest => by
    have := fun fs xs => decidableUnitesAll targetMaxSize fs xs rest
    unfold UnitesAll
    infer_instance

def UnitesInOrder (targetMaxSize : ℕ) : List FullSource → Prop
  | [] => True
  | s :: rest => UnitesAll targetMaxSize s.files s.xorbs rest

instance (targetMaxSize : ℕ) : ∀ order, Decidable (UnitesInOrder targetMaxSize order)
  | [] => inferInstanceAs (Decidable True)
  | s :: rest => inferInstanceAs (Decidable (UnitesAll targetMaxSize s.files s.xorbs rest))

/-- The sizes fit into their words, and the sources can be merged in the order of their times of
modification. -/
structure Compatible : Prop where
  target_lt : cfg.targetMaxSize < 2 ^ 63
  bytes_lt : (sources.map fun s => s.bytes.length).sum < 2 ^ 64
  unites : ∀ order : List FullSource, order.Perm sources →
    (order.Pairwise fun s t => cfg.lastModifiedTime s.shardHash ≤ cfg.lastModifiedTime t.shardHash) →
      UnitesInOrder cfg.targetMaxSize order

def Bounded (bytes : Bytes) : Prop := bytes.length ≤ cfg.targetMaxSize ∨ ∃ s ∈ sources, s.bytes = bytes

/-- The directory holds exactly the returned and the skipped shards, and the returned ones are
within the limit. -/
structure Consolidated (returned skipped : List MDBShardFile) (left : ShardDirectory) : Prop where
  exactly : ∀ h, h ∈ left ↔ (∃ s ∈ returned, s.shardHash = h) ∨ ∃ s ∈ skipped, s.shardHash = h
  bounded : ∀ s ∈ returned, ∃ bytes, left[s.shardHash]? = some bytes ∧ Bounded cfg sources bytes

structure Current (done : List FullSource) (info : MDBShardInfo) (bytes : Bytes)
    (fs : List MDBFileInfo) (xs : List MDBXorbInfo) : Prop where
  full : FullShard info bytes fs xs
  mergeable : Mergeable cfg sources info bytes
  bounded : Bounded cfg sources bytes
  bytes_le : bytes.length ≤ (done.map fun s => s.bytes.length).sum

variable {cfg sources} {done : List FullSource} {bytes : Bytes}
  {fs : List MDBFileInfo} {xs : List MDBXorbInfo} {s : FullSource}

theorem current_source (hs : s ∈ sources) :
    Current cfg sources (done ++ [s]) s.info s.bytes s.files s.xorbs where
  full := s.full
  mergeable := .source hs
  bounded := .inr ⟨s,hs,rfl⟩
  bytes_le := by
    rw [map_append,sum_append]
    exact Nat.le_add_left _ _

/-- Merging in a source that fits gives a shard within the limit. -/
theorem Current.union (h : Current cfg sources done info bytes fs xs) (hs : s ∈ sources)
    (hu : Unites fs s.files xs s.xorbs)
    (hsi : bytes.length + s.bytes.length ≤ cfg.targetMaxSize + 248) :
    ∃ info' bytes', shardSetUnion cfg.sorter info bytes s.info s.bytes = .ok (info',bytes') ∧
      Current cfg sources (done ++ [s]) info' bytes'
        ((mergedFiles .union fs s.files).map MDBFileInfo.stripped)
        (mergedXorbs .union xs s.xorbs) := by
  have hwf : ∀ f ∈ mergedFiles .union fs s.files, f.WellFormed :=
    mergedFiles_wellFormed h.full s.full hu.even
  obtain ⟨w,hw⟩ : ∃ w, w = writtenShard cfg.sorter
    ((mergedFiles .union fs s.files).map MDBFileInfo.stripped)
    (mergedXorbs .union xs s.xorbs) := ⟨_,rfl⟩
  have hok : shardSetUnion cfg.sorter info bytes s.info s.bytes = .ok w :=
    (setOperation_eq_ok h.full s.full hwf).mpr ⟨hw,hu.fileRecords_lt,hu.xorbRecords_lt⟩
  have hfu := hw ▸ fullShard_writtenShard
    (mergedRecords h.full s.full hwf hu.fileRecords_lt hu.xorbRecords_lt)
  have hst : ((mergedFiles .union fs s.files).map MDBFileInfo.stripped).map fileCost =
      (mergedFiles .union fs s.files).map fileCost := by
    rw [map_map]
    rfl
  -- One header, one footer and one pair of bookends are saved.
  have hl : w.2.length + 344 ≤ bytes.length + s.bytes.length := by
    have hfc := sum_fileCost_mergedFiles hu.even
    have hxc := sum_xorbCost_mergedXorbs xs s.xorbs
    rw [hfu.length_eq,h.full.length_eq,s.full.length_eq,shardLength,shardLength,shardLength,hst]
    omega
  refine ⟨w.1,w.2,hok,hfu,.union h.mergeable hs hok,.inl (by omega),?_⟩
  have hb := h.bytes_le
  rw [map_append,sum_append,map_singleton,sum_singleton]
  omega

end XetCore.Shard
