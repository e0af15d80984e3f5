import XetCore.Shard.KeyedExportRuns
import XetCore.Shard.SkippedFiles

/-! # When a keyed export is right

With the files, the export of a shard is always the shard with keyed chunk hashes. Without
them, it is so if the walk over the files finds only plain records where it reads headers that
are none. Another record can send it elsewhere.
-/
namespace XetCore.Shard
open ByteSources Serialization SortedTables List
open Merkle (DataHash)

/-- The record of a xorb with the hash of every chunk replaced. -/
def MDBXorbInfo.keyed (hmac : DataHash → HMACKey → DataHash) (key : HMACKey) (x : MDBXorbInfo) :
    MDBXorbInfo :=
  { x with chunks := x.chunks.map fun c => { c with chunkHash := hmac c.chunkHash key } }

/-- The bytes of a shard up to whatever stands behind its sections. -/
def shardBytes (header : MDBShardFileHeader) (fs : List MDBFileInfo) (xs : List MDBXorbInfo)
    (rest : Bytes) : Bytes :=
  header.serialize ++
    (fs.flatMap MDBFileInfo.serialize ++ FileDataSequenceHeader.bookend.serialize ++
      (xs.flatMap MDBXorbInfo.serialize ++ XorbChunkSequenceHeader.bookend.serialize ++ rest))

/-- The count and the bytes are those of the keyed shard: the xorbs in their order with keyed chunk
hashes, the files if they are included, and the included tables. -/
structure IsKeyedExport (hmac : DataHash → HMACKey → DataHash) (o : ExportOptions) (fs : List MDBFileInfo)
    (xs : List MDBXorbInfo) (r : CountedOut) : Prop where
  count_eq : r.pos = r.out.length
  contents : ∃ m, ((MDBMinimalShard.fromReader true true).run r.out).map Prod.fst = .ok m ∧
    m.fileInfoViews.map (fun v => (v.header,v.data)) =
      (if o.includeFileInfo then fs.map fun f => (f.metadata,f.serialize) else []) ∧
    m.xorbInfoViews.map (fun v => (v.header,v.data)) = xs.map fun x =>
      (x.metadata,(x.keyed hmac o.hmacKey).serialize)
  tables : ∃ info, MDBShardInfo.loadFromReader r.out = .ok info ∧
    info.metadata.chunkHashHmacKey = o.hmacKey ∧
    TablesOf info r.out (if o.includeFileInfo then fs else [])
      (if o.includeXorbLookupTable then xs.map (MDBXorbInfo.keyed hmac o.hmacKey) else [])
      (if o.includeChunkLookupTable then xs.map (MDBXorbInfo.keyed hmac o.hmacKey) else [])

theorem ShardRecords.keyed {fs : List MDBFileInfo} {xs : List MDBXorbInfo} (h : ShardRecords fs xs)
    (hmac : DataHash → HMACKey → DataHash) (key : HMACKey) (withFiles : Bool) :
    ShardRecords (if withFiles then fs else []) (xs.map (MDBXorbInfo.keyed hmac key)) := by
  have hxo : ∀ x ∈ xs.map (MDBXorbInfo.keyed hmac key), x.WellFormed := forall_mem_map.mpr fun x hx =>
    ⟨by rw [MDBXorbInfo.keyed,length_map]; exact (h.xorbs x hx).numEntries_eq,(h.xorbs x hx).not_bookend⟩
  have ho : (xs.map (MDBXorbInfo.keyed hmac key)).Pairwise fun a b =>
    a.metadata.xorbHash < b.metadata.xorbHash :=
    pairwise_map.mpr h.xorbs_ordered
  have hr : ((xs.map (MDBXorbInfo.keyed hmac key)).map fun x => 1 + x.chunks.length).sum < 2 ^ 32 := by
    simpa [Function.comp_def,MDBXorbInfo.keyed] using h.xorbRecords_lt
  cases withFiles with
  | true => exact ⟨h.files,hxo,h.files_ordered,ho,h.fileRecords_lt,hr⟩
  | false => exact ⟨nofun,hxo,Pairwise.nil,ho,Nat.two_pow_pos 32,hr⟩

namespace MDBShardInfo
variable {hmac : DataHash → HMACKey → DataHash} {o : ExportOptions} {fs : List MDBFileInfo}
  {xs : List MDBXorbInfo} {fileEnd : FileDataSequenceHeader} {xorbEnd : XorbChunkSequenceHeader}

theorem exportedXorb_eq (hkey : o.hmacKey ≠ default) :
    exportedXorb hmac o = MDBXorbInfo.keyed hmac o.hmacKey := by
  funext x
  have hc : exportedChunk hmac o = fun c => { c with chunkHash := hmac c.chunkHash o.hmacKey } := by
    funext c
    rw [exportedChunk,if_pos hkey]
  rw [exportedXorb,hc]
  rfl

section Tables
variable {header : MDBShardFileHeader} {fileSection xorbSection : Bytes} {files : FileExport}
  {xorbs : XorbExport}

def exportParts (o : ExportOptions) (fileSection xorbSection : Bytes) (files : FileExport)
    (xorbs : XorbExport) :
    ShardParts where
  fileSection
  xorbSection
  fileLookup := if o.includeFileInfo then files.fileLookup else []
  xorbLookup := if o.includeXorbLookupTable then xorbs.xorbLookup else []
  chunkLookup := if o.includeChunkLookupTable then (KeySort.stable _).sort xorbs.chunkLookup else []

/-- The footer of an export but for the places of its parts. -/
def exportFooter (o : ExportOptions) (files : FileExport) (xorbs : XorbExport) : MDBShardFileFooter where
  chunkHashHmacKey := o.hmacKey
  shardCreationTimestamp := o.creationTimestamp
  shardKeyExpiry := o.keyExpiry
  storedBytesOnDisk := UInt64.ofNat xorbs.storedBytesOnDisk
  materializedBytes := UInt64.ofNat files.materializedBytes
  storedBytes := UInt64.ofNat xorbs.storedBytes

theorem exportTables_eq
    (hf : files.written = (CountedOut.write {} header.serialize 48).write fileSection fileSection.length)
    (hx : xorbs.written = files.written.write xorbSection xorbSection.length) {parts : ShardParts}
    {info : MDBShardInfo} (hp : parts = exportParts o fileSection xorbSection files xorbs)
    (hin : info = ⟨header,parts.placed (exportFooter o files xorbs)⟩) :
    exportTables o 48 files xorbs = ⟨(info.bytesWith parts).length,info.bytesWith parts⟩ := by
  have hpo : files.written.pos = 48 + fileSection.length := by rw [hf]; simp [CountedOut.write]
  have hpo' : xorbs.written.pos = 48 + fileSection.length + xorbSection.length := by
    rw [hx,CountedOut.write,hpo]
  have ho : xorbs.written.out = header.serialize ++ (fileSection ++ xorbSection) := by
    rw [hx,hf]
    simp [CountedOut.write]
  subst hp hin
  rw [Describes.length_bytesWith,ShardParts.length_body,Describes.bytesWith_eq]
  simp only [exportTables,CountedOut.write,hpo,hpo',ho,exportParts,append_assoc]
  congr 1
  omega

end Tables

theorem isKeyedExport_of_files (header : MDBShardFileHeader) (hkey : o.hmacKey ≠ default)
    (h : ShardRecords fs xs) (hf : fileEnd.isBookend = true) (hxr : xorbEnd.isBookend = true)
    {files : FileExport} (hw : files.written = (CountedOut.write {} header.serialize 48).write
      ((if o.includeFileInfo then fs else []).flatMap MDBFileInfo.serialize ++ fileEnd.serialize)
      ((if o.includeFileInfo then fs else []).flatMap MDBFileInfo.serialize ++
        fileEnd.serialize).length)
    (hl : files.fileLookup = fileLookupFrom 0 (if o.includeFileInfo then fs else []))
    {xorbs : XorbExport} (hxo : xorbs = { exportedXorbs hmac o { written := files.written } xs with
      written := (exportedXorbs hmac o { written := files.written } xs).written.write
        xorbEnd.serialize 48 }) :
    IsKeyedExport hmac o fs xs (exportTables o 48 files xorbs) := by
  have hk := h.keyed hmac o.hmacKey o.includeFileInfo
  generalize hys : xs.map (MDBXorbInfo.keyed hmac o.hmacKey) = ys at hk
  have hx : xorbs.written = files.written.write
      (ys.flatMap MDBXorbInfo.serialize ++ xorbEnd.serialize)
      (ys.flatMap MDBXorbInfo.serialize ++ xorbEnd.serialize).length := by
    have hs : (xs.map fun x => 48 + x.chunks.length * 48).sum =
        (ys.flatMap MDBXorbInfo.serialize).length := by
      rw [ShardRecords.length_xorbs,← sum_map_mul_left,← hys,map_map]
      refine congrArg List.sum (map_congr_left fun x _ => ?_)
      simp only [Function.comp_apply,MDBXorbInfo.keyed,length_map]
      ring
    rw [hxo,length_append,← hs,xorbEnd.length_serialize]
    simp [exportedXorbs,exportedXorb_eq hkey,hys]
  have hm : ShardRecords.Makes (if o.includeFileInfo then fs else []) ys (.stable _)
      o.includeXorbLookupTable o.includeChunkLookupTable fileEnd xorbEnd (exportParts o
        ((if o.includeFileInfo then fs else []).flatMap MDBFileInfo.serialize ++ fileEnd.serialize)
        (ys.flatMap MDBXorbInfo.serialize ++ xorbEnd.serialize) files xorbs) := by
    refine ⟨rfl,rfl,?_,?_,?_⟩
    · cases hin : o.includeFileInfo with
      | true => simpa [exportParts,hin] using hl
      | false => simp [exportParts,hin,fileLookupFrom]
    · rw [exportParts,hxo,exportedXorbs,exportedXorb_eq hkey,hys]
      cases o.includeXorbLookupTable <;> rfl
    · rw [exportParts,hxo,exportedXorbs,exportedXorb_eq hkey,hys]
      cases o.includeChunkLookupTable <;> rfl
  have ho := exportTables_eq (o := o) hw hx rfl rfl
  have hif : Describes
      ⟨header,(exportParts o _ _ files xorbs).placed (exportFooter o files xorbs)⟩ _ :=
    describes_placed (hk.body_lt hm) rfl rfl
  rw [ho]
  refine ⟨rfl,⟨_,hk.contents hm hf hxr,?_,?_⟩,⟨_,hif.loadFromReader_eq,rfl,?_⟩⟩
  · refine (fileViews_map Prod.mk hk.files).trans ?_
    cases o.includeFileInfo <;> rfl
  · refine (xorbViews_map Prod.mk hk.xorbs).trans ?_
    rw [← hys,map_map]
    rfl
  · rw [hys]
    exact hk.tablesOf hm hif

variable (hmac) in
theorem run_exportXorbs (hxs : ∀ x ∈ xs, x.WellFormed)
    (hs : (xs.map fun x => 1 + x.chunks.length).sum < 2 ^ 32) (he : xorbEnd.isBookend = true)
    (w : CountedOut) (rest : Bytes) : (exportXorbs hmac o { written := w }).run
        (xs.flatMap MDBXorbInfo.serialize ++ xorbEnd.serialize ++ rest) =
      .ok ({ exportedXorbs hmac o { written := w } xs with
        written := (exportedXorbs hmac o { written := w } xs).written.write
          xorbEnd.serialize 48 },rest) := by
  have hf : xs.foldlM (XorbExport.copied hmac o) { written := w } =
      .ok (exportedXorbs hmac o { written := w } xs) := by
    refine (foldlM_xorb_copied hxs (Nat.two_pow_pos 32) (Nat.two_pow_pos 64)
      (Nat.two_pow_pos 64)).mpr ⟨rfl,?_⟩
    simp only [exportedXorbs,Nat.zero_add]
    exact ⟨hs,sum_word32_lt (fun x => x.metadata.numBytesOnDisk) hs,
      sum_word32_lt (fun x => x.metadata.numBytesInXorb) hs⟩
  rw [exportXorbs,readerLoop_records consumes_exportXorbStep
    (fun s x hx => run_exportXorbStep s (hxs x hx)) (fun s => reads_exportXorbStep_bookend s he),hf]
  rfl

/-- The files are copied, or the walk over them leaves nothing but the bookend. -/
theorem exists_run_exportFiles (h : ShardRecords fs xs)
    (hplain : o.includeFileInfo = true ∨ PlainFiles fs) (he : fileEnd.isBookend = true)
    (w : CountedOut) (rest : Bytes) : ∃ files, (exportFiles o { written := w }).run
        (fs.flatMap MDBFileInfo.serialize ++ fileEnd.serialize ++ rest) = .ok (files,rest) ∧
      files.written = w.write
        ((if o.includeFileInfo then fs else []).flatMap MDBFileInfo.serialize ++ fileEnd.serialize)
        ((if o.includeFileInfo then fs else []).flatMap MDBFileInfo.serialize ++
          fileEnd.serialize).length ∧
      files.fileLookup = fileLookupFrom 0 (if o.includeFileInfo then fs else []) := by
  cases hin : o.includeFileInfo with
  | true =>
    have hf := run_exportFiles hin h.files he { written := w } rest
    rw [foldlM_copied h.files (by rw [Nat.zero_add]; exact h.fileRecords_lt)
      (by rw [Nat.zero_add]; exact sum_fileSize_lt h.files h.fileRecords_lt)] at hf
    refine ⟨_,hf,?_,?_⟩
    · rw [if_pos rfl,length_append,fileEnd.length_serialize]
      exact CountedOut.write_write _ _ _ _ _
    · rw [if_pos rfl]
      exact nil_append _
  | false =>
    have hp : PlainFiles fs := hplain.resolve_left (by rw [hin]; decide)
    refine ⟨_,exportFiles_left_out hin h.files hp he { written := w } rest,?_,?_⟩
    · rw [if_neg (by decide),flatMap_nil,nil_append,fileEnd.length_serialize]
    · rw [if_neg (by decide)]
      rfl

/-- The export of a shard is its keyed shard if the files are included, or if the records that are
read as headers when they are left out are plain. -/
theorem exportAsKeyedShard_keyed (hmac : DataHash → HMACKey → DataHash) (o : ExportOptions)
    (hkey : o.hmacKey ≠ default) (header : MDBShardFileHeader) {fs : List MDBFileInfo}
    {xs : List MDBXorbInfo} (h : ShardRecords fs xs)
    (hplain : o.includeFileInfo = true ∨ PlainFiles fs) (rest : Bytes) :
    ∃ r, ofBuffer (exportAsKeyedShard hmac o) (shardBytes header fs xs rest) = .ok r ∧
      IsKeyedExport hmac o fs xs r := by
  have hfileEnd := FileDataSequenceHeader.bookend_isBookend
  have hxorbEnd := XorbChunkSequenceHeader.bookend_isBookend
  obtain ⟨files,hfiles,hwritten,hlookup⟩ := exists_run_exportFiles h hplain hfileEnd
    (CountedOut.write {} header.serialize 48)
    (xs.flatMap MDBXorbInfo.serialize ++ XorbChunkSequenceHeader.bookend.serialize ++ rest)
  have hxorbs := run_exportXorbs hmac (o := o) h.xorbs h.xorbRecords_lt hxorbEnd
    files.written rest
  refine ⟨_,?_,isKeyedExport_of_files header hkey h hfileEnd hxorbEnd hwritten hlookup rfl⟩
  rw [ofBuffer,shardBytes,exportAsKeyedShard,run_bind_of_ok (header.reads _),
    run_bind_of_ok hfiles,run_bind_of_ok hxorbs]
  rfl

/-- A file with two segments, their verifications and metadata. -/
def verifiedFile : MDBFileInfo where
  metadata :=
    { fileHash := ⟨1,0,0,0⟩
      fileFlags := mdbFileFlagWithVerification ||| mdbFileFlagWithMetadataExt
      numEntries := 2 }
  segments := [{ xorbHash := ⟨2,0,0,0⟩, unpackedSegmentBytes := 3 },{ xorbHash := ⟨2,0,0,0⟩ }]
  verification := [{ rangeHash := ⟨5,0,0,0⟩ },{ rangeHash := ⟨6,0,0,0⟩ }]
  metadataExt := some { sha256 := ⟨7,0,0,0⟩ }

def addKey (h : DataHash) (key : HMACKey) : DataHash := ⟨h.w0 + key.w0,h.w1,h.w2,h.w3⟩

/-- The file is left out: the last verification and the metadata are read as headers. -/
theorem exportAsKeyedShard_left_out :
    PlainFiles [verifiedFile] ∧ ∃ r, ofBuffer (exportAsKeyedShard addKey
      ⟨⟨1,0,0,0⟩,false,true,true,0,0⟩) (shardBytes {} [verifiedFile]
        [⟨{ xorbHash := ⟨2,0,0,0⟩, numEntries := 1 },[{}]⟩] []) = .ok r ∧
      IsKeyedExport addKey ⟨⟨1,0,0,0⟩,false,true,true,0,0⟩ [verifiedFile]
        [⟨{ xorbHash := ⟨2,0,0,0⟩, numEntries := 1 },[{}]⟩] r := by
  have hplain : PlainFiles [verifiedFile] := forall_mem_singleton.mpr (by decide +kernel)
  exact ⟨hplain,exportAsKeyedShard_keyed _ _ (by decide) {}
    ⟨by decide,by decide,pairwise_singleton _ _,pairwise_singleton _ _,by decide,by decide⟩
    (.inr hplain) []⟩

/-- A segment with the flag of verifications: read as a header, it skips the bookend, and the walk
ends behind the xorbs. -/
theorem exportAsKeyedShard_misled : ∃ (mdb : MDBInMemoryShard) (written : MDBShardInfo × Bytes),
    (MDBInMemoryShard.empty.addXorbBlock ⟨{ xorbHash := ⟨2,0,0,0⟩ },[]⟩).addFileReconstructionInfo
      { metadata := { fileHash := ⟨1,0,0,0⟩, numEntries := 1 }
        segments := [{ xorbHash := ⟨2,0,0,0⟩, xorbFlags :=
          mdbFileFlagWithVerification, unpackedSegmentBytes := 1 }] } = .ok mdb ∧
    mdb.WellFormed ∧ serializeFrom (.stable _) mdb none = .ok written ∧
    ofBuffer (exportAsKeyedShard (fun h _ => h) ⟨⟨1,0,0,0⟩,false,true,true,0,0⟩) written.2 =
      .error (.io .unexpectedEof) := by
  have h : (do
      let mdb ← (MDBInMemoryShard.empty.addXorbBlock
        ⟨{ xorbHash := ⟨2,0,0,0⟩ },[]⟩).addFileReconstructionInfo
        { metadata := { fileHash := ⟨1,0,0,0⟩, numEntries := 1 }
          segments := [{ xorbHash := ⟨2,0,0,0⟩, xorbFlags :=
            mdbFileFlagWithVerification, unpackedSegmentBytes := 1 }] }
      let written ← serializeFrom (.stable _) mdb none
      return decide (mdb.WellFormed ∧ ofBuffer (exportAsKeyedShard (fun h _ => h)
        ⟨⟨1,0,0,0⟩,false,true,true,0,0⟩) written.2 = .error (.io .unexpectedEof)) : Result Bool) =
      .ok true := by
    decide +kernel
  simp only [bind_eq_ok] at h
  obtain ⟨mdb,hmdb,written,hwritten,hresult⟩ := h
  obtain ⟨hwf,herror⟩ := of_decide_eq_true (Except.ok.inj hresult)
  exact ⟨mdb,written,hmdb,hwf,hwritten,herror⟩

end MDBShardInfo
end XetCore.Shard
