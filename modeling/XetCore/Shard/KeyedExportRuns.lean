import XetCore.Shard.KeyedExport

/-! # What an export writes

Copying a record is a function of the record, and the loops of the export run through the
records of a section.
-/
namespace XetCore.Shard
open ByteSources Serialization SortedTables List
open Merkle (DataHash)

@[simp] theorem CountedOut.write_write (w : CountedOut) (a b : Bytes) (m n : ℕ) :
    (w.write a m).write b n = w.write (a ++ b) (m + n) := by
  rw [write,write,write,Nat.add_assoc,append_assoc]

theorem FileDataSequenceHeader.numExtendedBytes_div (h : FileDataSequenceHeader) :
    1 + h.numEntries.toNat + h.numExtendedBytes / mdbFileInfoEntrySize = 1 + h.numFollowing := by
  have heq := h.numExtendedBytes_eq
  dsimp only [mdbFileInfoEntrySize]
  omega

theorem MDBFileInfo.WellFormed.serialize_split {f : MDBFileInfo} (h : f.WellFormed) :
    ∃ ext, f.serialize = f.metadata.serialize ++
      (f.segments.flatMap FileDataSequenceEntry.serialize ++ ext) ∧
      ext.length = f.metadata.numExtendedBytes := by
  have hlen := h.length_serialize
  have he := f.metadata.numExtendedBytes_eq
  refine ⟨_,rfl,?_⟩
  rw [MDBFileInfo.serialize,length_append,length_append,f.metadata.length_serialize,
    length_flatMap_eq FileDataSequenceEntry.length_serialize,← h.numEntries_eq] at hlen
  omega

def FileExport.copied (s : FileExport) (f : MDBFileInfo) : Result FileExport := do
  let materializedBytes ← (f.segments.map fun e => e.unpackedSegmentBytes.toNat).foldlM addUsize
    s.materializedBytes
  let index ← addU32 s.index (asU32 (1 + f.metadata.numFollowing))
  return {
    written := s.written.write f.serialize f.serialize.length
    fileLookup := s.fileLookup ++ [(f.metadata.fileHash.truncateHash,s.index)]
    index
    materializedBytes }

namespace MDBShardInfo
variable {hmac : DataHash → HMACKey → DataHash} {o : ExportOptions} {fs : List MDBFileInfo}
  {xs : List MDBXorbInfo}

section Files

theorem run_exportEntries (es : List FileDataSequenceEntry) (s : FileExport) (rest : Bytes) :
    (exportEntries es.length s).run (es.flatMap FileDataSequenceEntry.serialize ++ rest) =
      ((es.map fun e => e.unpackedSegmentBytes.toNat).foldlM addUsize s.materializedBytes).map
        fun materializedBytes =>
        ({ s with
          materializedBytes
          written := s.written.write (es.flatMap FileDataSequenceEntry.serialize)
            (es.length * 48) },rest) := by
  induction es generalizing s with
  | nil =>
    have hn : s.written.write [] 0 = s.written := by rw [CountedOut.write,append_nil]; rfl
    rw [flatMap_nil,length_nil,Nat.zero_mul,hn]
    rfl
  | cons e es ih =>
    rw [length_cons,exportEntries,flatMap_cons,append_assoc,run_bind_of_ok (e.reads _),map_cons,
      foldlM_cons]
    cases hs : addUsize s.materializedBytes e.unpackedSegmentBytes.toNat with
    | error err => rfl
    | ok n =>
      rw [run_bind_of_ok (run_lift_eq_ok.mpr ⟨rfl,rfl⟩),ih,ok_bind,CountedOut.write_write,
        Nat.succ_mul,Nat.add_comm 48]

theorem parses_exportEntries (n : ℕ) (s : FileExport) : Parses (exportEntries n s) fun _ _ => True := by
  induction n generalizing s with
  | zero => exact (parses_pure s).mono fun _ _ _ => trivial
  | succ n ih =>
    exact (FileDataSequenceEntry.parses_deserialize.bind fun _ => (parses_lift _).bind fun _ => ih _).mono
      fun _ _ _ => trivial

theorem consumes_exportFileStep : Consumes (exportFileStep o) := by
  refine Consumes.of_bind FileDataSequenceHeader.parses_deserialize ?_ fun s header => ?_
  · rintro header _ rfl
    rw [header.length_serialize]
    decide
  · split
    · exact (parses_pure _).mono fun _ _ _ => trivial
    · split
      · exact (((parses_exportEntries _ _).bind fun _ => (parses_readLimited _).bind fun _ =>
          (parses_lift _).bind
          fun _ => parses_pure _).map _).mono fun _ _ _ => trivial
      · exact ((parses_readLimited _).bind fun _ => parses_pure _).mono fun _ _ _ => trivial

variable {h : FileDataSequenceHeader}

theorem reads_exportFileStep_bookend (s : FileExport) (he : h.isBookend = true) :
    Reads (exportFileStep o s) h.serialize
      (.inr { s with written := s.written.write h.serialize 48 }) := by
  refine h.reads.bind_nil ?_
  rw [if_pos he]
  exact reads_pure _

theorem run_exportFileStep (hin : o.includeFileInfo = true) (s : FileExport)
    {f : MDBFileInfo} (hf : f.WellFormed) (rest : Bytes) :
    (exportFileStep o s).run (f.serialize ++ rest) = (s.copied f).map fun s' => (.inl s',rest) := by
  obtain ⟨ext,hs,hex⟩ := hf.serialize_split
  have hlen : f.serialize.length = 48 + (f.segments.length * 48 + ext.length) := by
    rw [hs,length_append,length_append,f.metadata.length_serialize,
      length_flatMap_eq FileDataSequenceEntry.length_serialize]
  have he := run_exportEntries f.segments
    { s with written := s.written.write f.metadata.serialize 48 } (ext ++ rest)
  rw [FileExport.copied,hlen,hs,append_assoc,append_assoc,exportFileStep,
    run_bind_of_ok (f.metadata.reads _),if_neg (by rw [hf.not_bookend]; decide),if_pos
      hin,StateT.run_map,exportFile,
    hf.numEntries_eq]
  cases hsu : (f.segments.map fun e => e.unpackedSegmentBytes.toNat).foldlM addUsize
    s.materializedBytes with
  | error err =>
    rw [hsu] at he
    rw [run_bind_of_error he]
    rfl
  | ok n =>
    rw [hsu] at he
    rw [run_bind_of_ok he,run_bind_of_ok (reads_readLimited hex rest),ok_bind,← hf.numEntries_eq,
      f.metadata.numExtendedBytes_div]
    cases addU32 s.index (asU32 (1 + f.metadata.numFollowing)) with
    | error err => rfl
    | ok index =>
      simp only [CountedOut.write_write,Nat.add_assoc]
      rfl

theorem run_exportFiles (hin : o.includeFileInfo = true) (hfs : ∀ f ∈ fs, f.WellFormed)
    (he : h.isBookend = true) (s : FileExport) (rest : Bytes) :
    (exportFiles o s).run (fs.flatMap MDBFileInfo.serialize ++ h.serialize ++ rest) =
      (fs.foldlM FileExport.copied s).map fun s' =>
        ({ s' with written := s'.written.write h.serialize 48 },rest) :=
  readerLoop_records consumes_exportFileStep (fun s f hf => run_exportFileStep hin s (hfs f hf))
    (fun s => reads_exportFileStep_bookend s he) s rest

end Files

/-- The totals of the files and their places, where they fit. -/
theorem foldlM_copied (hfs : ∀ f ∈ fs, f.WellFormed) {s : FileExport}
    (hin : s.index + (fs.map fun f => 1 + f.metadata.numFollowing).sum < 2 ^ 32)
    (hb : s.materializedBytes + (fs.map MDBFileInfo.fileSize).sum < 2 ^ 64) :
    fs.foldlM FileExport.copied s = .ok {
      written := s.written.write (fs.flatMap MDBFileInfo.serialize)
        (fs.flatMap MDBFileInfo.serialize).length
      fileLookup := s.fileLookup ++ fileLookupFrom s.index fs
      index := s.index + (fs.map fun f => 1 + f.metadata.numFollowing).sum
      materializedBytes := s.materializedBytes + (fs.map MDBFileInfo.fileSize).sum } := by
  induction fs generalizing s with
  | nil =>
    have hn : s.written.write [] 0 = s.written := by rw [CountedOut.write,append_nil]; rfl
    simp only [flatMap_nil,length_nil,hn,fileLookupFrom,append_nil]
    rfl
  | cons f fs ih =>
    obtain ⟨hf,hfs⟩ := forall_mem_cons.mp hfs
    rw [map_cons,sum_cons] at hin hb
    have hr : asU32 (1 + f.metadata.numFollowing) = 1 + f.metadata.numFollowing := asU32_of_lt (by omega)
    have hl : asU32 (f.serialize.length / mdbFileInfoEntrySize) = 1 + f.metadata.numFollowing := by
      rw [hf.length_serialize,Nat.mul_div_cancel_left _ (by decide),hr]
    have hc : s.copied f = .ok {
        written := s.written.write f.serialize f.serialize.length
        fileLookup := s.fileLookup ++ [(f.metadata.fileHash.truncateHash,s.index)]
        index := s.index + (1 + f.metadata.numFollowing)
        materializedBytes := s.materializedBytes + f.fileSize } := by
      have hs : (f.segments.map fun e => e.unpackedSegmentBytes.toNat).foldlM addUsize
        s.materializedBytes =
          .ok (s.materializedBytes + f.fileSize) :=
        (MDBInMemoryShard.foldlM_addUsize (by omega)).mpr ⟨rfl,by change _ + f.fileSize < _; omega⟩
      rw [FileExport.copied,hs,ok_bind,hr,addU32_of_lt (by omega)]
      rfl
    rw [foldlM_cons,hc,ok_bind,ih hfs (by dsimp only; omega) (by dsimp only; omega)]
    simp [fileLookupFrom,hl,Nat.add_assoc]

theorem sum_lt_of_records {α : Type} {l : List α} {g records : α → ℕ}
    (h : ∀ a ∈ l, g a ≤ records a * (2 ^ 32 - 1))
    (hr : (l.map records).sum < 2 ^ 32) : (l.map g).sum < 2 ^ 64 := by
  have hle := sum_le_sum h
  rw [sum_map_mul_right] at hle
  calc (l.map g).sum ≤ (l.map records).sum * (2 ^ 32 - 1) := hle
    _ ≤ (2 ^ 32 - 1) * (2 ^ 32 - 1) := Nat.mul_le_mul_right _ (by omega)
    _ < 2 ^ 64 := by decide

theorem word32_le (w : UInt32) : w.toNat ≤ 2 ^ 32 - 1 := Nat.le_pred_of_lt w.toNat_lt

theorem sum_fileSize_lt (hfs : ∀ f ∈ fs, f.WellFormed)
    (hr : (fs.map fun f => 1 + f.metadata.numFollowing).sum < 2 ^ 32) :
    (fs.map MDBFileInfo.fileSize).sum < 2 ^ 64 := by
  refine sum_lt_of_records (fun f hf => ?_) hr
  have hs : f.fileSize ≤ f.segments.length * (2 ^ 32 - 1) := by
    have hle := sum_le_card_nsmul (f.segments.map fun e => e.unpackedSegmentBytes.toNat) (2 ^ 32 - 1)
    rw [length_map,smul_eq_mul] at hle
    exact hle (forall_mem_map.mpr fun e _ => word32_le e.unpackedSegmentBytes)
  refine hs.trans (Nat.mul_le_mul_right _ ?_)
  rw [← (hfs f hf).numEntries_eq,FileDataSequenceHeader.numFollowing]
  omega

theorem sum_word32_lt (word : MDBXorbInfo → UInt32)
    (hr : (xs.map fun x => 1 + x.chunks.length).sum < 2 ^ 32) :
    (xs.map fun x => (word x).toNat).sum < 2 ^ 64 := by
  refine sum_lt_of_records (fun x _ => ?_) hr
  have hle := word32_le (word x)
  calc (word x).toNat ≤ 1 * (2 ^ 32 - 1) := by omega
    _ ≤ (1 + x.chunks.length) * (2 ^ 32 - 1) := Nat.mul_le_mul_right _ (by omega)

section Xorbs
variable {x : MDBXorbInfo} (s : XorbExport)

def exportedXorb (hmac : DataHash → HMACKey → DataHash) (o : ExportOptions) (x : MDBXorbInfo) :
    MDBXorbInfo :=
  { x with chunks := x.chunks.map (exportedChunk hmac o) }

def XorbExport.copied (hmac : DataHash → HMACKey → DataHash) (o : ExportOptions) (s : XorbExport)
    (x : MDBXorbInfo) :
    Result XorbExport := do
  let numRecords ← addU32 1 x.metadata.numEntries.toNat
  let xorbIndex ← addU32 s.xorbIndex numRecords
  let storedBytesOnDisk ← addUsize s.storedBytesOnDisk x.metadata.numBytesOnDisk.toNat
  let storedBytes ← addUsize s.storedBytes x.metadata.numBytesInXorb.toNat
  return {
    written := s.written.write (exportedXorb hmac o x).serialize (48 + x.chunks.length * 48)
    xorbLookup :=
      if o.includeXorbLookupTable then s.xorbLookup ++
        [(x.metadata.xorbHash.truncateHash,s.xorbIndex)] else s.xorbLookup
    chunkLookup :=
      if o.includeChunkLookupTable then s.chunkLookup ++ chunkLookupOf s.xorbIndex
        (exportedXorb hmac o x).chunks
      else s.chunkLookup
    xorbIndex
    storedBytesOnDisk
    storedBytes }

/-- The entries of the table for chunks from an index on. -/
def chunkEntriesFrom (xorbIndex chunkIndex : ℕ) : List XorbChunkSequenceEntry → List (ℕ × ℕ × ℕ)
  | [] => []
  | c :: cs => (c.chunkHash.truncateHash,xorbIndex,chunkIndex) :: chunkEntriesFrom xorbIndex
      (chunkIndex + 1) cs

theorem chunkEntriesFrom_eq {cs : List XorbChunkSequenceEntry} (xorbIndex : ℕ) {n : ℕ}
    (h : n + cs.length ≤ 2 ^ 32) :
    chunkEntriesFrom xorbIndex n cs = cs.mapIdx fun i c =>
      (c.chunkHash.truncateHash,xorbIndex,asU32 (n + i)) := by
  induction cs generalizing n with
  | nil => rfl
  | cons c cs ih =>
    rw [length_cons] at h
    rw [chunkEntriesFrom,ih (by omega),mapIdx_cons,Nat.add_zero,asU32_of_lt (by omega)]
    simp [Nat.add_assoc,Nat.add_comm 1]

def exportedChunks (hmac : DataHash → HMACKey → DataHash) (o : ExportOptions) (s : XorbExport)
    (chunkIndex : ℕ) (cs : List XorbChunkSequenceEntry) : XorbExport :=
  { s with
    chunkLookup :=
      if o.includeChunkLookupTable
      then s.chunkLookup ++ chunkEntriesFrom s.xorbIndex chunkIndex (cs.map (exportedChunk hmac o))
      else s.chunkLookup
    written := s.written.write
      ((cs.map (exportedChunk hmac o)).flatMap XorbChunkSequenceEntry.serialize) (cs.length * 48) }

theorem exportedChunks_cons (n : ℕ) (c : XorbChunkSequenceEntry) (cs : List XorbChunkSequenceEntry) :
    exportedChunks hmac o (exportChunk hmac o s n c)
      (n + 1) cs = exportedChunks hmac o s n (c :: cs) := by
  simp only [exportedChunks,exportChunk,CountedOut.write_write,map_cons,length_cons,
    chunkEntriesFrom,Nat.succ_mul,Nat.add_comm 48]
  cases o.includeChunkLookupTable with
  | true => simp
  | false => simp

theorem exportChunks_eq (count n : ℕ) (s : XorbExport) : exportChunks hmac o count n s =
    exportedChunks hmac o s n <$> readMany XorbChunkSequenceEntry.deserialize count := by
  induction count generalizing n s with
  | zero =>
    have hn : exportedChunks hmac o s n [] = s := by
      simp [exportedChunks,chunkEntriesFrom,CountedOut.write]
    rw [exportChunks,readMany,map_pure,hn]
  | succ count ih =>
    simp only [exportChunks,readMany,ih,exportedChunks_cons,map_eq_pure_bind,bind_assoc,pure_bind]

theorem copied_eq (hx : x.WellFormed) : XorbExport.copied hmac o s x = (do
    let s := exportedChunks hmac o { s with
      written := s.written.write x.metadata.serialize 48
      xorbLookup :=
        if o.includeXorbLookupTable then s.xorbLookup ++
          [(x.metadata.xorbHash.truncateHash,s.xorbIndex)] else s.xorbLookup }
      0 x.chunks
    let numRecords ← addU32 1 x.metadata.numEntries.toNat
    let xorbIndex ← addU32 s.xorbIndex numRecords
    let storedBytesOnDisk ← addUsize s.storedBytesOnDisk x.metadata.numBytesOnDisk.toNat
    let storedBytes ← addUsize s.storedBytes x.metadata.numBytesInXorb.toNat
    return { s with xorbIndex, storedBytesOnDisk, storedBytes }) := by
  have hlen := hx.length_lt
  have he : chunkEntriesFrom s.xorbIndex 0 (x.chunks.map (exportedChunk hmac o)) =
      chunkLookupOf s.xorbIndex (exportedXorb hmac o x).chunks := by
    rw [chunkEntriesFrom_eq _ (by rw [length_map]; omega)]
    simp only [Nat.zero_add]
    rfl
  simp only [exportedChunks,CountedOut.write_write,he]
  rfl

theorem run_exportXorbStep (hx : x.WellFormed) (rest : Bytes) :
    (exportXorbStep hmac o s).run (x.serialize ++ rest) =
      (XorbExport.copied hmac o s x).map fun s' => (.inl s',rest) := by
  have hch : Reads (readMany XorbChunkSequenceEntry.deserialize x.metadata.numEntries.toNat)
      (x.chunks.flatMap XorbChunkSequenceEntry.serialize) x.chunks := by
    rw [hx.numEntries_eq]
    exact reads_many fun c _ => c.reads
  rw [MDBXorbInfo.serialize,append_assoc,exportXorbStep,run_bind_of_ok (x.metadata.reads _),
    if_neg (by rw [hx.not_bookend]; decide),copied_eq s hx,StateT.run_map,exportXorb,
    exportChunks_eq,run_bind_of_ok (hch.map _ rest)]
  simp only [run_lift_bind,map_bind_eq,map_bind]
  rfl

theorem consumes_exportXorbStep : Consumes (exportXorbStep hmac o) := by
  refine Consumes.of_bind XorbChunkSequenceHeader.parses_deserialize ?_ fun s header => ?_
  · rintro header _ rfl
    rw [header.length_serialize]
    decide
  · dsimp only
    split
    · exact (parses_pure _).mono fun _ _ _ => trivial
    · rw [exportXorb,exportChunks_eq]
      exact ((((parses_many (XorbChunkSequenceEntry.parses_deserialize.mono
        fun _ _ h => ⟨trivial,h⟩) _).map _).bind fun _ => (parses_lift _).bind fun _ =>
          (parses_lift _).bind fun _ => (parses_lift _).bind fun _ => (parses_lift _).bind
            fun _ => parses_pure _).map _).mono fun _ _ _ => trivial

theorem reads_exportXorbStep_bookend {h : XorbChunkSequenceHeader} (he : h.isBookend = true) :
    Reads (exportXorbStep hmac o s) h.serialize
      (.inr { s with written := s.written.write h.serialize 48 }) := by
  refine h.reads.bind_nil ?_
  rw [if_pos he]
  exact reads_pure _

def exportedXorbs (hmac : DataHash → HMACKey → DataHash) (o : ExportOptions) (s : XorbExport)
    (xs : List MDBXorbInfo) :
    XorbExport where
  written := s.written.write ((xs.map (exportedXorb hmac o)).flatMap MDBXorbInfo.serialize)
    (xs.map fun x => 48 + x.chunks.length * 48).sum
  xorbLookup :=
    if o.includeXorbLookupTable then s.xorbLookup ++ xorbLookupFrom s.xorbIndex
      (xs.map (exportedXorb hmac o))
    else s.xorbLookup
  chunkLookup :=
    if o.includeChunkLookupTable then s.chunkLookup ++ chunkLookupFrom s.xorbIndex
      (xs.map (exportedXorb hmac o))
    else s.chunkLookup
  xorbIndex := s.xorbIndex + (xs.map fun x => 1 + x.chunks.length).sum
  storedBytesOnDisk := s.storedBytesOnDisk + (xs.map fun x => x.metadata.numBytesOnDisk.toNat).sum
  storedBytes := s.storedBytes + (xs.map fun x => x.metadata.numBytesInXorb.toNat).sum

theorem copied_eq_ok {s s' : XorbExport} (hx : x.WellFormed) : XorbExport.copied hmac o s x = .ok s' ↔
    s' = exportedXorbs hmac o s [x] ∧ s'.xorbIndex < 2 ^ 32 ∧ s'.storedBytesOnDisk < 2 ^ 64 ∧
    s'.storedBytes < 2 ^ 64 := by
  simp only [XorbExport.copied,bind_eq_ok,addU32_eq_ok,addUsize_eq_ok,hx.numEntries_eq,
    exportedXorbs,xorbLookupFrom,
    chunkLookupFrom,flatMap_cons,flatMap_nil,append_nil,map_cons,map_nil,sum_cons,sum_nil,Nat.add_zero]
  constructor
  · rintro ⟨_,⟨rfl,-⟩,_,⟨rfl,hin⟩,_,⟨rfl,hd⟩,_,⟨rfl,hs⟩,hs'⟩
    cases hs'
    exact ⟨rfl,hin,hd,hs⟩
  · rintro ⟨rfl,hin,hd,hs⟩
    exact ⟨_,⟨rfl,by dsimp only at hin; omega⟩,_,⟨rfl,hin⟩,_,⟨rfl,hd⟩,_,⟨rfl,hs⟩,rfl⟩

/-- What copying the xorbs gives, and that it succeeds if and only if the numbers fit. -/
theorem foldlM_xorb_copied (hxs : ∀ x ∈ xs, x.WellFormed) {s s' : XorbExport}
    (hin : s.xorbIndex < 2 ^ 32) (hdi : s.storedBytesOnDisk < 2 ^ 64) (hs : s.storedBytes < 2 ^ 64) :
    xs.foldlM (XorbExport.copied hmac o) s = .ok s' ↔ s' = exportedXorbs hmac o s xs ∧
      s'.xorbIndex < 2 ^ 32 ∧ s'.storedBytesOnDisk < 2 ^ 64 ∧ s'.storedBytes < 2 ^ 64 := by
  refine foldlM_eq_ok_iff (exportedXorbs hmac o)
    (fun s => s.xorbIndex < 2 ^ 32 ∧ s.storedBytesOnDisk < 2 ^ 64 ∧ s.storedBytes < 2 ^ 64)
    (fun s => by simp [exportedXorbs,CountedOut.write,xorbLookupFrom,chunkLookupFrom])
      (fun s x xs hx _ => ?_)
    (fun s s' x hx _ => copied_eq_ok hx) (fun s xs => ?_) hxs ⟨hin,hdi,hs⟩
  · have hlen : asU32 (exportedXorb hmac o x).chunks.length = x.chunks.length := by
      rw [exportedXorb,length_map,asU32_of_lt hx.length_lt]
    simp only [exportedXorbs,CountedOut.write_write,map_cons,sum_cons,xorbLookupFrom,chunkLookupFrom,hlen]
    cases o.includeXorbLookupTable <;> cases o.includeChunkLookupTable <;>
      simp [exportedXorb,Nat.add_assoc,xorbLookupFrom,chunkLookupFrom]
  · simp only [exportedXorbs]
    omega

end Xorbs
end MDBShardInfo
end XetCore.Shard
