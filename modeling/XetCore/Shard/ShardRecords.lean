import XetCore.Shard.Lookups
import XetCore.Shard.ReadBack

/-! # Shards made of records

A shard that is made of records in the order of their hashes is read back, and its tables
are sorted and give the place of every record.
-/
namespace XetCore.Shard
open ByteSources Serialization SortedTables List
open Merkle (DataHash)

/-- A shard whose records are well formed and in the order of their hashes, with places of 32 bits.
-/
structure ShardRecords (fs : List MDBFileInfo) (xs : List MDBXorbInfo) : Prop where
  files : ∀ f ∈ fs, f.WellFormed
  xorbs : ∀ x ∈ xs, x.WellFormed
  files_ordered : fs.Pairwise fun a b => a.metadata.fileHash < b.metadata.fileHash
  xorbs_ordered : xs.Pairwise fun a b => a.metadata.xorbHash < b.metadata.xorbHash
  fileRecords_lt : (fs.map fun f => 1 + f.metadata.numFollowing).sum < 2 ^ 32
  xorbRecords_lt : (xs.map fun x => 1 + x.chunks.length).sum < 2 ^ 32

/-- The tables of a shard are sorted and give the place of each of these records. -/
structure TablesOf (info : MDBShardInfo) (out : Bytes) (fs : List MDBFileInfo)
    (xs cs : List MDBXorbInfo) : Prop where
  files : ∃ table, readAt (readMany (readPair readU32) info.metadata.fileLookupNumEntry.toNat) out
      info.metadata.fileLookupOffset.toNat = .ok table ∧ SortedKeys table ∧
    table.map (fun e => (e.1,info.readFileInfo out e.2)) =
      fs.map fun f => (f.metadata.fileHash.truncateHash,.ok f.stripped)
  xorbs : ∃ table, info.readFullXorbLookup out = .ok table ∧ SortedKeys table ∧
    table.map (fun e => (e.1,readAt MDBXorbInfo.deserialize out
      (info.metadata.xorbInfoOffset.toNat + 48 * e.2))) =
      xs.map fun x => (x.metadata.xorbHash.truncateHash,.ok (some x))
  chunks : ∃ table, readAt (readMany (readPair readU32Pair) info.metadata.chunkLookupNumEntry.toNat) out
      info.metadata.chunkLookupOffset.toNat = .ok table ∧ SortedKeys table ∧
    (table.map fun e => (e.1,readChunkPlace out info.metadata.xorbInfoOffset.toNat e.2)).Perm
      (cs.flatMap fun x => x.chunks.map fun c => (c.chunkHash.truncateHash,.ok x.metadata,.ok c))

namespace ShardRecords
variable {fs : List MDBFileInfo} {ys : List MDBXorbInfo} {parts : ShardParts} {info : MDBShardInfo}
  {fileEnd : FileDataSequenceHeader} {xorbEnd : XorbChunkSequenceHeader} {withXorbs withChunks : Bool}
  {sorter : KeySort (ℕ × ℕ)}

theorem length_files (h : ShardRecords fs ys) :
    (fs.flatMap MDBFileInfo.serialize).length =
      48 * (fs.map fun f => 1 + f.metadata.numFollowing).sum := by
  rw [length_flatMap,← sum_map_mul_left]
  exact congrArg List.sum (map_congr_left fun f hf => (h.files f hf).length_serialize)

theorem length_xorbs (ys : List MDBXorbInfo) :
    (ys.flatMap MDBXorbInfo.serialize).length = 48 * (ys.map fun x => 1 + x.chunks.length).sum := by
  rw [length_flatMap,← sum_map_mul_left]
  exact congrArg List.sum (map_congr_left fun x _ => x.length_serialize)

structure Makes (fs : List MDBFileInfo) (ys : List MDBXorbInfo) (sorter : KeySort (ℕ × ℕ))
    (withXorbs withChunks : Bool)
    (fileEnd : FileDataSequenceHeader) (xorbEnd : XorbChunkSequenceHeader) (parts : ShardParts) :
    Prop where
  fileSection_eq : parts.fileSection = fs.flatMap MDBFileInfo.serialize ++ fileEnd.serialize
  xorbSection_eq : parts.xorbSection = ys.flatMap MDBXorbInfo.serialize ++ xorbEnd.serialize
  fileLookup_eq : parts.fileLookup = fileLookupFrom 0 fs
  xorbLookup_eq : parts.xorbLookup = if withXorbs then xorbLookupFrom 0 ys else []
  chunkLookup_eq : parts.chunkLookup = if withChunks then sorter.sort (chunkLookupFrom 0 ys) else []

section
variable (h : ShardRecords fs ys)
include h

theorem body_lt (hp : Makes fs ys sorter withXorbs withChunks fileEnd xorbEnd parts) :
    48 + parts.body.length < 2 ^ 64 := by
  have hfi := h.fileRecords_lt
  have hxo := h.xorbRecords_lt
  have hf : fs.length ≤ (fs.map fun f => 1 + f.metadata.numFollowing).sum := by
    have hle := length_le_sum_of_one_le (fs.map fun f => 1 + f.metadata.numFollowing)
      (forall_mem_map.mpr fun f _ => Nat.le_add_right 1 _)
    rwa [length_map] at hle
  have hch : (ys.map fun x => 1 + x.chunks.length).sum = ys.length +
    (ys.map fun x => x.chunks.length).sum := by
    rw [sum_map_add,map_const',sum_replicate,smul_eq_mul,Nat.mul_one]
  have hx : parts.xorbLookup.length ≤ ys.length := by
    rw [hp.xorbLookup_eq]
    cases withXorbs <;> simp
  have hc : parts.chunkLookup.length ≤ (ys.map fun x => x.chunks.length).sum := by
    rw [hp.chunkLookup_eq]
    cases withChunks <;> simp [(sorter.perm _).length_eq]
  rw [ShardParts.length_body,hp.fileSection_eq,hp.xorbSection_eq,hp.fileLookup_eq,length_fileLookupFrom,
    length_append,length_append,h.length_files,length_xorbs,fileEnd.length_serialize,
    xorbEnd.length_serialize]
  omega

theorem records_lt : ∀ f ∈ fs, 1 + f.metadata.numFollowing < 2 ^ 32 := fun _ hf =>
  (le_sum_of_mem (mem_map_of_mem hf)).trans_lt h.fileRecords_lt

theorem fileIndex_lt : 0 + (fs.map fun f => asU32 (f.serialize.length / mdbFileInfoEntrySize)).sum <
    2 ^ 32 := by
  have hm : (fs.map fun f => asU32 (f.serialize.length / mdbFileInfoEntrySize)) =
      fs.map fun f => 1 + f.metadata.numFollowing := map_congr_left fun f hf => by
    rw [(h.files f hf).length_serialize,Nat.mul_div_cancel_left _ (by decide),
      asU32_of_lt (h.records_lt f hf)]
  rw [hm,Nat.zero_add]
  exact h.fileRecords_lt

theorem xorbIndex_lt : 0 + (ys.map fun x => 1 + asU32 x.chunks.length).sum < 2 ^ 32 := by
  have hm : (ys.map fun x => 1 + asU32 x.chunks.length) = ys.map fun x => 1 + x.chunks.length :=
    map_congr_left fun x hx => by rw [asU32_of_lt (h.xorbs x hx).length_lt]
  rw [hm,Nat.zero_add]
  exact h.xorbRecords_lt

section
variable (hp : Makes fs ys sorter withXorbs withChunks fileEnd xorbEnd parts)
include hp

theorem tablesOf (hin : info.Describes parts) :
    TablesOf info (info.bytesWith parts) fs (if withXorbs then ys else [])
      (if withChunks then ys else []) where
  files := by
    obtain ⟨rest,hd⟩ := hin.drop_fileSection
    rw [hp.fileSection_eq,append_assoc] at hd
    have ht := hin.fileTable (by rw [hp.fileLookup_eq]; exact fileLookupFrom_lt h.fileIndex_lt)
    have hr : (fileLookupFrom 0 fs).map _ = _ := fileLookupFrom_reads hd h.files h.records_lt
    rw [hin.fileLookupNumEntry_eq]
    refine ⟨_,ht.readAt_table,?_,?_⟩
    · rw [hp.fileLookup_eq]
      exact fileLookupFrom_sorted 0 h.files_ordered
    · have hf := congrArg (List.map fun p => (p.1,p.2 >>= MDBShardInfo.expectFileEntry)) hr
      rw [map_map,map_map] at hf
      rw [hp.fileLookup_eq]
      exact hf
  xorbs := by
    obtain ⟨rest,hd⟩ := hin.drop_xorbSection
    rw [hp.xorbSection_eq,append_assoc] at hd
    have hr : (xorbLookupFrom 0 ys).map _ = _ := xorbLookupFrom_reads hd h.xorbs
    have hl := hp.xorbLookup_eq
    have ht := hin.xorbTable
    rw [MDBShardInfo.readFullXorbLookup,hin.xorbLookupNumEntry_eq]
    cases withXorbs with
    | true =>
      rw [hl] at ht ⊢
      exact ⟨_,(ht (xorbLookupFrom_lt h.xorbIndex_lt)).readAt_table,
        xorbLookupFrom_sorted 0 h.xorbs_ordered,hr⟩
    | false =>
      rw [hl] at ht ⊢
      exact ⟨[],(ht nofun).readAt_table,Pairwise.nil,rfl⟩
  chunks := by
    obtain ⟨rest,hd⟩ := hin.drop_xorbSection
    rw [hp.xorbSection_eq,append_assoc] at hd
    have hr : (chunkLookupFrom 0 ys).map _ = _ := chunkLookupFrom_reads hd h.xorbs
    have hl := hp.chunkLookup_eq
    have ht := hin.chunkTable
    rw [hin.chunkLookupNumEntry_eq]
    cases withChunks with
    | true =>
      have hpe := sorter.perm (chunkLookupFrom 0 ys)
      rw [if_pos rfl] at hl
      rw [hl] at ht ⊢
      refine ⟨_,(ht fun e he => ?_).readAt_table,sorter.sorted _,?_⟩
      · exact chunkLookupFrom_lt h.xorbIndex_lt e (hpe.mem_iff.mp he)
      · rw [if_pos rfl,← hr]
        exact hpe.map _
    | false =>
      rw [hl] at ht ⊢
      exact ⟨[],(ht nofun).readAt_table,Pairwise.nil,Perm.refl _⟩

/-- A shard that is made of these records is read back. -/
theorem contents (hf : fileEnd.isBookend = true) (hx : xorbEnd.isBookend = true) :
    ((MDBMinimalShard.fromReader true true).run (info.bytesWith parts)).map Prod.fst =
      .ok ⟨fileViews fs h.files,xorbViews ys h.xorbs⟩ := by
  have hn : ((fileViews fs h.files).map MDBFileInfoView.fileHash).Nodup := by
    have hm : (fileViews fs h.files).map MDBFileInfoView.fileHash = fs.map fun f => f.metadata.fileHash :=
      fileViews_map (fun header _ => header.fileHash) h.files
    rw [hm]
    exact pairwise_map.mpr (h.files_ordered.imp fun hlt => hlt.ne)
  have hr := MDBMinimalShard.fromReader_bookends true true (exact_fileViews h.files)
    (exact_xorbViews h.xorbs) hn
    info.header hf hx
  rw [fileViews_data,xorbViews_data] at hr
  rw [MDBShardInfo.Describes.bytesWith_eq,hp.fileSection_eq,hp.xorbSection_eq]
  exact hr _

end

end

end ShardRecords
end XetCore.Shard
