import XetCore.Shard.ShardRecords

/-! # Looking up a file in a written shard

In a written shard, the record of a hash is found if it is there, as long as fewer than
eight files share the first word of the hash.
-/
namespace XetCore.Shard
open ByteSources Serialization SortedTables List
open Merkle (DataHash)

variable {info : MDBShardInfo}

/-- Files whose records are well formed, in the order of their hashes, with places of 32 bits. -/
structure FileRecords (fs : List MDBFileInfo) : Prop where
  files : ∀ f ∈ fs, f.WellFormed
  ordered : fs.Pairwise fun a b => a.metadata.fileHash < b.metadata.fileHash
  records_lt : ∀ f ∈ fs, 1 + f.metadata.numFollowing < 2 ^ 32
  index_lt : 0 + (fs.map fun f => asU32 (f.serialize.length / mdbFileInfoEntrySize)).sum < 2 ^ 32

section Match
variable {bytes : Bytes} {fileHash : DataHash}

theorem matchFileInfo_eq {indices : List ℕ} {fs : List MDBFileInfo}
    (h : indices.map (info.readFileInfo bytes) = fs.map Except.ok) :
    info.matchFileInfo bytes fileHash indices =
      .ok (fs.find? fun f => f.metadata.fileHash = fileHash) := by
  induction indices generalizing fs with
  | nil =>
    rw [map_eq_nil_iff.mp h.symm]
    rfl
  | cons index indices ih =>
    cases fs with
    | nil => cases h
    | cons f fs =>
      obtain ⟨hhe,ht⟩ := cons.inj h
      rw [MDBShardInfo.matchFileInfo,hhe,ok_bind]
      split_ifs with hh
      · rw [find?_cons_of_pos (by simpa using hh)]
        rfl
      · rw [find?_cons_of_neg (by simpa using hh),ih ht]

end Match

section Unique
variable {fs gs : List MDBFileInfo} {h : DataHash}

theorem find?_fileHash_eq_some (hn : (fs.map fun f => f.metadata.fileHash).Nodup) {f : MDBFileInfo} :
    (fs.find? fun f => f.metadata.fileHash = h) = some f ↔ f ∈ fs ∧ f.metadata.fileHash = h := by
  constructor
  · exact fun hf => ⟨mem_of_find?_eq_some hf,by simpa using find?_some hf⟩
  · rintro ⟨hmem,rfl⟩
    cases hf : fs.find? (fun g => g.metadata.fileHash = f.metadata.fileHash) with
    | none =>
      have hno := find?_eq_none.mp hf f hmem
      simp at hno
    | some g =>
      have hh : g.metadata.fileHash = f.metadata.fileHash := by simpa using find?_some hf
      rw [inj_on_of_nodup_map hn (mem_of_find?_eq_some hf) hmem hh]

theorem find?_fileHash_perm (hp : gs.Perm fs) (hn : (fs.map fun f => f.metadata.fileHash).Nodup) :
    (gs.find? fun f => f.metadata.fileHash = h) = fs.find? fun f => f.metadata.fileHash = h := by
  have hn' : (gs.map fun f => f.metadata.fileHash).Nodup := (hp.map _).nodup_iff.mpr hn
  refine Option.ext fun f => ?_
  rw [find?_fileHash_eq_some hn',find?_fileHash_eq_some hn,hp.mem_iff]

theorem find?_fileHash_filter (hn : (fs.map fun f => f.metadata.fileHash).Nodup) :
    ((fs.filter fun f => f.metadata.fileHash.truncateHash = h.truncateHash).find? fun f =>
      f.metadata.fileHash = h) =
      fs.find? fun f => f.metadata.fileHash = h := by
  have hs := (filter_sublist (p :=
    fun f => decide (f.metadata.fileHash.truncateHash = h.truncateHash)) (l := fs)).map
    fun f => f.metadata.fileHash
  refine Option.ext fun f => ?_
  rw [find?_fileHash_eq_some (hn.sublist hs),find?_fileHash_eq_some hn,mem_filter]
  constructor
  · rintro ⟨⟨hmem,-⟩,hh⟩
    exact ⟨hmem,hh⟩
  · rintro ⟨hmem,rfl⟩
    exact ⟨⟨hmem,by simp⟩,rfl⟩

end Unique

namespace FileRecords
variable {fs : List MDBFileInfo} {parts : ShardParts} {fileEnd : FileDataSequenceHeader}

theorem nodup (h : FileRecords fs) : (fs.map fun f => f.metadata.fileHash).Nodup :=
  pairwise_map.mpr (h.ordered.imp fun hlt => hlt.ne)

theorem hits_reads (h : FileRecords fs) (hin : info.Describes parts)
    (hs : parts.fileSection = fs.flatMap MDBFileInfo.serialize ++ fileEnd.serialize)
    (hl : parts.fileLookup = fileLookupFrom 0 fs) (key : ℕ) :
    (hits key parts.fileLookup).map (info.readFileInfo (info.bytesWith parts)) =
      ((fs.filter fun f => f.metadata.fileHash.truncateHash = key).map MDBFileInfo.stripped).map
        Except.ok := by
  obtain ⟨rest,hd⟩ := hin.drop_fileSection
  rw [hs,append_assoc] at hd
  have hr : (fileLookupFrom 0 fs).map _ = _ := fileLookupFrom_reads hd h.files h.records_lt
  have hfi := congrArg (List.map fun p => (p.1,p.2 >>= MDBShardInfo.expectFileEntry)) hr
  have hf := congrArg (fun l => (l.filter fun p => decide (p.1 = key)).map Prod.snd) hfi
  simp only [filter_map,map_map] at hf
  rw [hl,hits,map_map,map_map]
  exact hf

theorem getFileReconstructionInfo_eq (h : FileRecords fs) (hin : info.Describes parts)
    (hs : parts.fileSection = fs.flatMap MDBFileInfo.serialize ++ fileEnd.serialize)
    (hl : parts.fileLookup = fileLookupFrom 0 fs) (interpolate : Interpolation) (fileHash : DataHash) :
    info.getFileReconstructionInfo interpolate (info.bytesWith parts) fileHash =
      if (fs.filter fun f => f.metadata.fileHash.truncateHash = fileHash.truncateHash).length < 8
      then .ok ((fs.find? fun f => f.metadata.fileHash = fileHash).map MDBFileInfo.stripped)
      else .error (.truncatedHashCollision fileHash.truncateHash) := by
  have ht := hin.fileTable (by rw [hl]; exact fileLookupFrom_lt h.index_lt)
  have hso : SortedKeys parts.fileLookup := by
    rw [hl]
    exact fileLookupFrom_sorted 0 h.ordered
  obtain ⟨values,hp,hse⟩ : ∃ values : List ℕ, values.Perm (hits fileHash.truncateHash parts.fileLookup) ∧
      searchOnSortedU64s interpolate fileHash.truncateHash 8 readU32 (info.bytesWith parts)
        info.metadata.fileLookupOffset.toNat 12 parts.fileLookup.length = .ok (values.take 8) :=
    searchOnSortedU64s_spec hso ht
  have hm := hp.map (info.readFileInfo (info.bytesWith parts))
  rw [h.hits_reads hin hs hl] at hm
  have hle : values.length = (fs.filter fun f => f.metadata.fileHash.truncateHash =
    fileHash.truncateHash).length := by
    simpa using hm.length_eq
  rw [MDBShardInfo.getFileReconstructionInfo,MDBShardInfo.getFileInfoIndexByHash,MDBShardInfo.indexByHash,
    hin.fileLookupNumEntry_eq,hse,ok_bind,length_take,hle]
  by_cases hf : (fs.filter fun f => f.metadata.fileHash.truncateHash = fileHash.truncateHash).length < 8
  · obtain ⟨gs,hgs,hr⟩ := exists_perm_map hm
    have hn : (((fs.filter fun f => f.metadata.fileHash.truncateHash = fileHash.truncateHash).map
        MDBFileInfo.stripped).map fun f => f.metadata.fileHash).Nodup := by
      rw [map_map]
      exact h.nodup.sublist (filter_sublist.map _)
    rw [take_of_length_le (by omega),ensure,if_pos (by omega),if_pos hf]
    refine (matchFileInfo_eq hr).trans (congrArg Except.ok ?_)
    rw [find?_fileHash_perm hgs hn,find?_map,← find?_fileHash_filter h.nodup]
    rfl
  · rw [ensure,if_neg (by omega),if_neg hf]
    rfl

end FileRecords

namespace MDBInMemoryShard
variable {sorter : KeySort (ℕ × ℕ)} {s : MDBInMemoryShard} {expiry : Option UInt64}
  {out : Bytes}

theorem find?_files (fileHash : DataHash) :
    (s.files.find? fun f => f.metadata.fileHash = fileHash) = s.getFileReconstructionInfo fileHash := by
  refine Option.ext fun f => ?_
  rw [find?_fileHash_eq_some s.files_nodup,mem_files,getFileReconstructionInfo]
  constructor
  · rintro ⟨hg,rfl⟩
    exact hg
  · intro hg
    obtain rfl := s.file_keyed fileHash f hg
    exact ⟨hg,rfl⟩

section
variable (ho : MDBShardInfo.serializeFrom sorter s expiry = .ok (info,out))
include ho

theorem describes_written : info.Describes (s.parts sorter) := by
  obtain ⟨hf,hin,rfl⟩ := serializeFrom_eq_ok.mp ho
  have hlt := hf.position
  have hm : info.metadata = (s.parts sorter).placed (s.totals {} expiry) := by
    rw [hin]
    rfl
  exact MDBShardInfo.describes_placed (by rwa [length_parts_body]) rfl hm

theorem loadFromReader_written : MDBShardInfo.loadFromReader out = .ok info := by
  have hd := describes_written ho
  obtain ⟨-,-,rfl⟩ := serializeFrom_eq_ok.mp ho
  exact hd.loadFromReader_eq

end

/-- A written shard answers as the shard in memory did, up to the spare words. -/
theorem getFileReconstructionInfo_written
    (hfi : ∀ f ∈ s.files, f.WellFormed ∧ 1 + f.metadata.numFollowing < 2 ^ 32)
    (ho : MDBShardInfo.serializeFrom sorter s expiry = .ok (info,out)) (interpolate : Interpolation)
    (fileHash : DataHash) : info.getFileReconstructionInfo interpolate out fileHash =
      if (s.files.filter fun f => f.metadata.fileHash.truncateHash = fileHash.truncateHash).length < 8
      then .ok ((s.getFileReconstructionInfo fileHash).map MDBFileInfo.stripped)
      else .error (.truncatedHashCollision fileHash.truncateHash) := by
  have hd := describes_written ho
  obtain ⟨hft,-,rfl⟩ := serializeFrom_eq_ok.mp ho
  have hr : FileRecords s.files :=
    ⟨fun f hf => (hfi f hf).1,s.files_ordered,fun f hf =>
      (hfi f hf).2,by rw [Nat.zero_add]; exact hft.fileIndex⟩
  rw [hr.getFileReconstructionInfo_eq hd rfl rfl,find?_files]

end MDBInMemoryShard
end XetCore.Shard
