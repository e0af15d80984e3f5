import XetCore.Shard.KeyedExportRuns
import XetCore.Shard.ShardRecords

/-! # The walk over files that are left out

An export without the files walks over them, but it skips too little: behind the header of a
file only as many bytes as those of the verifications and the metadata, so that as many records
as the file has segments are read as headers. The walk comes to the end of the files if none of
these records looks like a bookend or like a header with something to skip.
-/
namespace XetCore.Shard
open ByteSources Serialization List
open Merkle (DataHash)

/-- A record that, read as the header of a file, is no bookend and has nothing to skip: it has
neither the flag of the metadata nor the flag of verifications with entries. -/
def PlainRecord (record : Bytes) : Prop :=
  ∀ h ∈ (ofBuffer FileDataSequenceHeader.deserialize record).toOption,
    h.isBookend = false ∧ h.numExtendedBytes = 0

instance (record : Bytes) : Decidable (PlainRecord record) :=
  inferInstanceAs (Decidable (∀ h ∈ (ofBuffer FileDataSequenceHeader.deserialize record).toOption,
    h.isBookend = false ∧ h.numExtendedBytes = 0))

namespace MDBFileInfo
variable (f : MDBFileInfo)

/-- The records behind the header. -/
def records : List Bytes :=
  f.segments.map FileDataSequenceEntry.serialize ++
    ((if f.containsVerification then f.verification.map FileVerificationEntry.serialize else []) ++
      f.metadataExt.toList.map FileMetadataExt.serialize)

/-- The records behind the bytes that are skipped when the file is left out. -/
def unskipped : List Bytes := f.records.drop (f.metadata.numExtendedBytes / 48)

theorem serialize_eq_records : f.serialize = f.metadata.serialize ++ f.records.flatten := by
  unfold serialize records
  cases f.metadataExt <;> split <;> simp [flatMap_def]

theorem length_of_mem_records : ∀ record ∈ f.records, record.length = 48 := by
  unfold records
  simp only [forall_mem_append,forall_mem_map]
  refine ⟨fun e _ => e.length_serialize,?_,fun m _ => m.length_serialize⟩
  split
  · exact forall_mem_map.mpr fun v _ => v.length_serialize
  · exact forall_mem_nil _

end MDBFileInfo

/-- The records of the files that are read as headers are plain. -/
def PlainFiles (fs : List MDBFileInfo) : Prop := ∀ f ∈ fs, ∀ record ∈ f.unskipped, PlainRecord record

theorem drop_flatten_of_length {rs : List Bytes} {n : ℕ} (h : ∀ r ∈ rs, r.length = n) (k : ℕ) :
    rs.flatten.drop (k * n) = (rs.drop k).flatten := by
  induction k generalizing rs with
  | zero => rw [Nat.zero_mul,drop_zero,drop_zero]
  | succ k ih =>
    cases rs with
    | nil => simp
    | cons r rs =>
      obtain ⟨hr,hrs⟩ := forall_mem_cons.mp h
      rw [flatten_cons,Nat.succ_mul,Nat.add_comm,← hr,drop_length_add_append,hr,ih hrs,
        drop_succ_cons]

namespace MDBShardInfo
variable {o : ExportOptions} {fs : List MDBFileInfo}

section
variable (he : o.includeFileInfo = false)
include he

theorem exportFiles_header {h : FileDataSequenceHeader} (hn : h.isBookend = false) (s : FileExport)
    (bytes : Bytes) : (exportFiles o s).run (h.serialize ++ bytes) =
      (exportFiles o s).run (bytes.drop h.numExtendedBytes) := by
  refine readerLoop_next consumes_exportFileStep ?_
  rw [exportFileStep,run_bind_of_ok (h.reads bytes),if_neg (by rw [hn]; decide),
    if_neg (by rw [he]; decide),run_bind_of_ok (readLimited_cursor _ _)]
  rfl

theorem exportFiles_plain {records : List Bytes} (hlen : ∀ r ∈ records, r.length = 48)
    (hp : ∀ r ∈ records, PlainRecord r) (s : FileExport) (rest : Bytes) :
    (exportFiles o s).run (records.flatten ++ rest) = (exportFiles o s).run rest := by
  induction records with
  | nil => rfl
  | cons r records ih =>
    obtain ⟨hr,hlens⟩ := forall_mem_cons.mp hlen
    obtain ⟨hpr,hps⟩ := forall_mem_cons.mp hp
    obtain ⟨h,rfl⟩ := FileDataSequenceHeader.takes_deserialize.exists_encoding
      FileDataSequenceHeader.parses_deserialize hr
    have hh : ofBuffer FileDataSequenceHeader.deserialize h.serialize = .ok h := by
      have hread := h.reads []
      rw [append_nil] at hread
      rw [ofBuffer,hread]
      rfl
    obtain ⟨hn,hz⟩ := hpr h (by rw [hh]; rfl)
    rw [flatten_cons,append_assoc,exportFiles_header he hn,hz,drop_zero,ih hlens hps]

theorem exportFiles_file {f : MDBFileInfo} (hf : f.WellFormed)
    (hp : ∀ record ∈ f.unskipped, PlainRecord record) (s : FileExport) (rest : Bytes) :
    (exportFiles o s).run (f.serialize ++ rest) = (exportFiles o s).run rest := by
  obtain ⟨ext,hs,hext⟩ := hf.serialize_split
  rw [f.serialize_eq_records,append_cancel_left_eq] at hs
  have hle : f.metadata.numExtendedBytes ≤ f.records.flatten.length := by
    rw [hs,length_append]
    omega
  have hdiv : f.metadata.numExtendedBytes = f.metadata.numExtendedBytes / 48 * 48 := by
    have heq := f.metadata.numExtendedBytes_eq
    omega
  have hdrop : f.records.flatten.drop f.metadata.numExtendedBytes = f.unskipped.flatten := by
    rw [hdiv,drop_flatten_of_length f.length_of_mem_records]
    rfl
  rw [f.serialize_eq_records,append_assoc,exportFiles_header he hf.not_bookend,
    drop_append_of_le_length hle,hdrop]
  exact exportFiles_plain he (fun r hr => f.length_of_mem_records r (mem_of_mem_drop hr)) hp s rest

/-- The walk comes to the bookend of the files. -/
theorem exportFiles_left_out (hfs : ∀ f ∈ fs, f.WellFormed) (hp : PlainFiles fs)
    {last : FileDataSequenceHeader} (hend : last.isBookend = true) (s : FileExport) (rest : Bytes) :
    (exportFiles o s).run (fs.flatMap MDBFileInfo.serialize ++ last.serialize ++ rest) =
      .ok ({ s with written := s.written.write last.serialize 48 },rest) := by
  induction fs with
  | nil => exact readerLoop_stop (reads_exportFileStep_bookend s hend rest)
  | cons f fs ih =>
    obtain ⟨hf,hfs⟩ := forall_mem_cons.mp hfs
    obtain ⟨hpf,hp⟩ := forall_mem_cons.mp hp
    rw [flatMap_cons,append_assoc,append_assoc,exportFiles_file he hf hpf,← append_assoc,
      ih hfs hp]

end
end MDBShardInfo
end XetCore.Shard
