import XetCore.RangeUpload.Compose
import XetCore.RangeUpload.Response
import XetCore.Reconstruction.PlanningSpec

/-! # The bytes of the composed file

Composing drops every segment that starts before the end of a window. What the composed
segments denote is the edited file without the bytes between the end of a window and the
next segment. So it is the edited file exactly when every window ends at a segment.
-/
namespace XetCore.RangeUpload
open Merkle Chunking Dedup Intervals Reconstruction Session Extents Patches StreamCut List

variable {H : Type} {G : GearHasher} {store : H → List (Chunk H)} {file : Bytes} {c : Chunker G}

section Bytes
variable {pos : ℕ} {segments : List (FileDataSequenceEntry H)}
variable {ps : List (FileRange × List (FileDataSequenceEntry H))}

theorem fileBytes_eq (store : H → List (Chunk H)) (es : List (FileDataSequenceEntry H)) :
    fileBytes store es = bytesOf (es.flatMap (·.read store)) := by
  simp only [bytesOf,flatMap_assoc]
  rfl

theorem fileBytes_append (store : H → List (Chunk H)) (es fs : List (FileDataSequenceEntry H)) :
    fileBytes store (es ++ fs) = fileBytes store es ++ fileBytes store fs := flatMap_append ..

theorem length_fileBytes {es : List (FileDataSequenceEntry H)} (h : ∀ e ∈ es, EntryOk store e) :
    (fileBytes store es).length = segmentBytesSum es := by
  rw [fileBytes_eq,bytesOf_length,segmentBytesSum_eq h]

theorem mem_splice {e : FileDataSequenceEntry H}
    (he : e ∈ splice pos segments ps) : e ∈ segments ∨ ∃ p ∈ ps, e ∈ p.2 := by
  induction ps generalizing pos segments with
  | nil => exact Or.inl he
  | cons p ps ih =>
    obtain ⟨w,new⟩ := p
    have hf := (splitSegments_spec w.start pos segments).append_eq
    have hs := (splitSegments_spec w.stop w.start (splitSegments w.start pos segments).2).append_eq
    simp only [splice,mem_append] at he
    rcases he with (he | he) | he
    · exact Or.inl (hf ▸ mem_append_left _ he)
    · exact Or.inr ⟨(w,new),by simp,he⟩
    · rcases ih he with he | ⟨p,hp,he⟩
      · exact Or.inl (hf ▸ mem_append_right _ (hs ▸ mem_append_right _ he))
      · exact Or.inr ⟨p,by simp [hp],he⟩

theorem fileBytes_splice {f : ℕ → ℕ} (hr : Ready pos segments (ps.map (·.1)))
    (hok : ∀ e ∈ segments, EntryOk store e) (hfi : file.drop pos = fileBytes store segments)
    (hf : ∀ p ∈ ps, f p.1.stop = snapToSegmentEnd (segByteStartsFrom pos segments) p.1.stop) :
    fileBytes store (splice pos segments ps) =
      patch file file.length pos (ps.map fun p => ⟨p.1.start,f p.1.stop,fileBytes store p.2⟩) := by
  induction ps generalizing pos segments with
  | nil => rw [splice,map_nil,patch,slice_length_eq_drop,hfi]
  | cons p ps ih =>
    obtain ⟨w,new⟩ := p
    obtain ⟨before,covered,after,hp,hst,hn⟩ := hr.passes
    have hsn := hf (w,new) (by simp)
    simp only [hp.snap_eq] at hsn
    obtain rfl := hp.append_eq
    simp only [fileBytes_append] at hfi
    have hlen := length_fileBytes fun e he => hok e (mem_append_left _ he)
    have hlen' := length_fileBytes fun e he => hok e (mem_append_right _ (mem_append_left after he))
    have hs := hp.start_eq
    have hb : slice file pos w.start = fileBytes store before := by
      rw [slice,hfi,← hs,Nat.add_sub_cancel_left,← hlen,take_left]
    have ha : file.drop (w.start + segmentBytesSum covered) = fileBytes store after := by
      rw [← hs,Nat.add_assoc,← drop_drop,hfi,← append_assoc,← hlen,← hlen',← length_append,drop_left]
    have hre := ih hn (fun e he => hok e (by simp [he])) ha fun q hq => ?_
    · rw [hp.splice_cons,fileBytes_append,fileBytes_append,hre,map_cons,patch]
      simp [hsn,hb]
    · have hle := (pairwise_cons.mp hr.sorted).1 q.1 (mem_map_of_mem hq)
      have hlt := hr.lt q.1 (mem_map_of_mem (mem_cons_of_mem _ hq))
      rw [hf q (by simp [hq]),hp.snap_later _ (hle.trans hlt.le)]

end Bytes

def segmentHash (rangeHashFromChunks : List H → H) (store : H → List (Chunk H))
    (e : FileDataSequenceEntry H) : H :=
  rangeHashFromChunks ((e.read store).map (·.hash))

/-- Cleaning cuts the bytes into chunks and gives segments that denote them, with their hashes. -/
structure Cleans (rangeHashFromChunks : List H → H) (store : H → List (Chunk H)) (D : Bytes → H)
    (c : Chunker G) (client : UploadClient H) : Prop where
  chunks : ∀ i size data, (client.clean i size data).1 = cdcNodes D c data
  denotes : ∀ i size data, Denotes store (client.clean i size data).2.segments (cdcChunks D c data)
  verification : ∀ i size data, (client.clean i size data).2.verification =
    (client.clean i size data).2.segments.map (segmentHash rangeHashFromChunks store)

/-- The info of the edited file: its segments denote the edited bytes, with the right total and
hashes. -/
structure ComposedOk (rangeHashFromChunks : List H → H) (store : H → List (Chunk H)) (file : Bytes)
    (ds : List DirtyInput) (fi : MDBFileInfo H) : Prop where
  bytes : fileBytes store fi.segments = edited file ds
  size : computeTotalSize file.length ds = .ok fi.fileSize
  verification : fi.verification = fi.segments.map (segmentHash rangeHashFromChunks store)

section Composed
variable {D : Bytes → H} {mdb : MDBFileInfo H} {C : Constants}
  {rangeHash : List H → H} {client : UploadClient H} {originalHash : H} {ds : List DirtyInput}
  {ranges : List FileRange} {qs : Pairs H} {tl : List (Node H)}

theorem bytesOf_cdcChunks (hs : c.Synced) (hb : c.chunkbuf = []) (data : Bytes) :
    bytesOf (cdcChunks D c data) = data := by
  rw [cdcChunks_eq hs hb,bytesOf,flatMap_map]
  simpa [Chunk.new] using pieces_flatten c.rule data

section
variable (h : StoredFile store D c mdb file)
include h

theorem Layout.ready (hl : Layout C ranges (cdcNodes D c file) qs tl)
    (hq : Query (segByteStarts mdb) file.length ds ranges) :
    Ready 0 mdb.segments (windowRanges 0 qs) := by
  have hw := hl.windowsOk h.node_pos h.nodeBytes_eq
  refine ⟨h.segment_pos,hw.sorted,hw.lt,hl.start_segment h hq,fun w hmem => ?_⟩
  rw [Nat.zero_add]
  exact (hw.stop_le w hmem).trans h.fileSize_eq.ge

theorem snapToSegmentEnd_window {w : FileRange} (hw : w.stop ≤ file.length) :
    w.stop ≤ snapToSegmentEnd (segByteStarts mdb) w.stop ∧
      (snapToSegmentEnd (segByteStarts mdb) w.stop = w.stop ↔ w.stop ∈ segByteStarts mdb) := by
  have he : ∃ x ∈ segByteStarts mdb, w.stop ≤ x :=
    ⟨_,fileSize_mem_segByteStarts mdb,hw.trans h.fileSize_eq.ge⟩
  exact ⟨(snapToSegmentEnd_spec he).2,snapToSegmentEnd_eq_iff he⟩

theorem stretched_fits (ha : Assignable file.length (windowRanges 0 qs) ds)
    (hs : ∀ w ∈ windowRanges 0 qs, w.start ∈ segByteStarts mdb) :
    Fits file.length 0 (((assign file.length (windowRanges 0 qs) ds).map fun p =>
      (group p).outer file).map
      (Patch.stretch (snapToSegmentEnd (segByteStarts mdb)))) := by
  rw [map_map]
  have hw := ha.windows
  have hf := assign_map_fst file.length (windowRanges 0 qs) ds
  rw [← hf] at hw hs
  have hsn : ∀ p ∈ assign file.length (windowRanges 0 qs) ds, ∀ x ∈ segByteStarts mdb, p.1.stop ≤ x →
      snapToSegmentEnd (segByteStarts mdb) p.1.stop ≤ x := fun p _ x hx hle => snapToSegmentEnd_le hx hle
  refine Fits.of_sorted (pairwise_map.mpr ?_) (forall_mem_map.mpr fun p hp => ?_)
    (fun _ _ => Nat.zero_le _)
    (forall_mem_map.mpr fun p hp => ?_) (Nat.zero_le _)
  · refine Pairwise.imp_of_mem ?_ (pairwise_map.mp hw.sorted)
    intro p q hp hq hle
    exact hsn p hp q.1.start (hs _ (mem_map_of_mem hq)) hle
  · have hmem := mem_map_of_mem (f := fun p : FileRange × List DirtyInput => p.1) hp
    exact (hw.lt _ hmem).le.trans (snapToSegmentEnd_window h (hw.stop_le _ hmem)).1
  · have hmem := mem_map_of_mem (f := fun p : FileRange × List DirtyInput => p.1) hp
    exact hsn p hp _ (h.fileSize_eq ▸ fileSize_mem_segByteStarts mdb) (hw.stop_le _ hmem)

variable {response : FileChunkHashesResponse H}

/-- A query that the server answers is one for a file that is not empty and edits that are. -/
theorem query_of_response {K : NodeHasher H} (hv : ValidEdits file.length ds)
    {chunks : List (Node H)}
    (hr : buildFileChunkHashesResponse K C mdb (serverQuery (segByteStarts mdb) file.length ds)
      chunks = .ok response) :
    Query (segByteStarts mdb) file.length ds (serverQuery (segByteStarts mdb) file.length ds) ∧
      serverQuery (segByteStarts mdb) file.length ds ≠ [] := by
  have hf : file ≠ [] := by
    rintro rfl
    have hs := h.fileSize_eq
    simp [buildFileChunkHashesResponse,hs] at hr
  have hq := serverQuery_spec h.segment_pos (h.segments_ne_nil hf) (h.fileSize_eq ▸ hv)
  rw [h.fileSize_eq] at hq
  refine ⟨hq,fun hn => ?_⟩
  simp [buildFileChunkHashesResponse,hn] at hr

/-- Composing the windows of an answer succeeds. The bytes are those of the file with each window,
and what follows it up to the next segment, replaced by the edited window. -/
theorem composeMdb_bytes {K : NodeHasher H}
    (hv : mdb.verification = mdb.segments.map (segmentHash rangeHash store))
    (hc : Cleans rangeHash store D c client)
    (hra : ∀ r : FileRange, r.stop ≤ file.length →
      client.readRange originalHash r = slice file r.start r.stop)
    (hve : ValidEdits file.length ds) (hrd : Readable ds)
    (hre : buildFileChunkHashesResponse K C mdb (serverQuery (segByteStarts mdb) file.length ds)
      (cdcNodes D c file) = .ok response) {uploaded : List (UploadedWindow H)} {left : List DirtyInput}
    (hu : uploadWindows client originalHash file.length 0 response.windows ds = .ok (uploaded,left))
    (hash : H) :
    ∃ qs tl fi, Layout C (serverQuery (segByteStarts mdb) file.length ds) (cdcNodes D c file) qs tl ∧
      response.windows = windowRanges 0 qs ∧
      composeMdb mdb uploaded response.gapVerification hash = .ok fi ∧
      (∀ e ∈ fi.segments, EntryOk store e) ∧
      fi.verification = fi.segments.map (segmentHash rangeHash store) ∧
      fileBytes store fi.segments = patch file file.length 0
        (((assign file.length (windowRanges 0 qs) ds).map fun p => (group p).outer file).map
          (Patch.stretch (snapToSegmentEnd (segByteStarts mdb)))) := by
  obtain ⟨hq,hne⟩ := query_of_response h hve hre
  obtain ⟨qs,tl,hl,-,ha,-⟩ := h.response_spec K C hq hne
  obtain ⟨hwi,-,hg⟩ := ha response hre
  rw [hwi,uploadWindows_eq hra hrd (hl.assignable h.node_pos h.nodeBytes_eq hve hq)] at hu
  cases hu
  have hre := hl.ready h hq
  set ps := assign file.length (windowRanges 0 qs) ds with hps
  have hr : (uploadedFrom client file 0 ps).map UploadedWindow.range = windowRanges 0 qs :=
    (uploadedFrom_map (fun _ _ => rfl) 0 ps).trans (assign_map_fst ..)
  have hz : mdb.segments.zip mdb.verification = verified (segmentHash rangeHash store) mdb.segments := by
    rw [hv,verified,map_prod_left_eq_zip]
  have hw : ∀ u ∈ uploadedFrom client file 0 ps,
      u.mdb.verification = u.mdb.segments.map (segmentHash rangeHash store) := by
    intro u hu
    obtain ⟨j,p,-,rfl⟩ := mem_uploadedFrom hu
    exact hc.verification ..
  obtain ⟨fi,hru,hs,hve⟩ := composeMdb_eq (hr ▸ hre) hw hash
  rw [hr,← hz,← hg (by rw [hv,length_map])] at hru
  refine ⟨qs,tl,fi,hl,hwi,hru,fun e he => ?_,hve,?_⟩
  · rw [hs] at he
    rcases mem_splice he with he | ⟨q,hq,he⟩
    · exact h.denotes.ok e he
    · obtain ⟨u,hu,rfl⟩ := mem_map.mp hq
      obtain ⟨j,p,-,rfl⟩ := mem_uploadedFrom hu
      exact (hc.denotes ..).ok e he
  · have hwh : file.drop 0 = fileBytes store mdb.segments := by
      rw [drop_zero,fileBytes_eq,h.denotes.chunks_eq,bytesOf_cdcChunks h.synced h.chunkbuf]
    have hwi : ∀ j p, fileBytes store (uploadedWindow client file j p).mdb.segments =
      ((group p).outer file).content := by
      intro j p
      rw [fileBytes_eq,uploadedWindow,(hc.denotes ..).chunks_eq,bytesOf_cdcChunks h.synced h.chunkbuf]
    rw [hs,fileBytes_splice (by rw [map_map]; exact hr ▸ hre)
      h.denotes.ok hwh fun _ _ => rfl,map_map,map_map]
    refine congrArg _ (uploadedFrom_map (fun j p => ?_) 0 ps)
    simp only [Function.comp,hwi]
    rfl

end

/-- Composing always succeeds; the result is the info of the edited file exactly when every window
ends where a segment starts, or at the end of the file. -/
theorem composeMdb_ok_iff {K : NodeHasher H} (h : StoredFile store D c mdb file)
    (hverification : mdb.verification = mdb.segments.map (segmentHash rangeHash store))
    (hclean : Cleans rangeHash store D c client)
    (hrange : ∀ r : FileRange, r.stop ≤ file.length →
      client.readRange originalHash r = slice file r.start r.stop)
    (hvalid : validateDirtyRanges ds file.length = .ok ()) (hread : Readable ds) {total : ℕ}
    (htotal : computeTotalSize file.length ds = .ok total) {response : FileChunkHashesResponse H}
    (hresponse : buildFileChunkHashesResponse K C mdb (serverQuery (segByteStarts mdb) file.length ds)
      (cdcNodes D c file) = .ok response) {uploaded : List (UploadedWindow H)} {left : List DirtyInput}
    (hupload : uploadWindows client originalHash file.length 0 response.windows ds =
      .ok (uploaded,left)) (hash : H) :
    ∃ fi, composeMdb mdb uploaded response.gapVerification hash = .ok fi ∧
      (ComposedOk rangeHash store file ds fi ↔ ∀ w ∈ response.windows, w.stop ∈ segByteStarts mdb) := by
  have hv := ValidEdits.of_validate hvalid
  obtain ⟨qs,tl,fi,hlayout,hwindows,hrun,hok,hver,hbytes⟩ :=
    composeMdb_bytes h hverification hclean hrange hv hread hresponse hupload hash
  have hq := (query_of_response h hv hresponse).1
  have ha := hlayout.assignable h.node_pos h.nodeBytes_eq hv hq
  refine ⟨fi,hrun,?_⟩
  rw [hwindows]
  have hstop : ∀ p ∈ assign file.length (windowRanges 0 qs) ds, p.1.stop ≤ file.length := fun p hp =>
    ha.windows.stop_le p.1 (assign_map_fst file.length (windowRanges 0 qs) ds ▸ mem_map_of_mem hp)
  have hiff := patch_stretch_eq_iff le_rfl (ha.outer_fits file)
    (stretched_fits h ha (hlayout.start_segment h hq))
    (forall_mem_map.mpr fun p hp => (snapToSegmentEnd_window h (hstop p hp)).1)
  rw [← hbytes,← edited_eq ha] at hiff
  have hends : (∀ p ∈ (assign file.length (windowRanges 0 qs) ds).map fun p => (group p).outer file,
      snapToSegmentEnd (segByteStarts mdb) p.stop = p.stop) ↔
      ∀ w ∈ windowRanges 0 qs, w.stop ∈ segByteStarts mdb := by
    conv_rhs => rw [← assign_map_fst file.length (windowRanges 0 qs) ds]
    rw [forall_mem_map,forall_mem_map]
    exact forall₂_congr fun p hp => (snapToSegmentEnd_window h (hstop p hp)).2
  refine ⟨fun hfi => hends.mp (hiff.mp hfi.bytes),fun hall => ?_⟩
  have hedited := hiff.mpr (hends.mpr hall)
  refine ⟨hedited,?_,hver⟩
  rw [htotal,computeTotalSize_eq hv hread htotal,← hedited,length_fileBytes hok]
  rfl

end Composed

theorem exists_ok_of_toOption {ε α β : Type*} {x : Except ε α} {f : α → β} {b : β}
    (h : x.toOption.map f = some b) :
    ∃ a, x = .ok a ∧ f a = b := by
  cases x with
  | error e => cases h
  | ok a => exact ⟨a,rfl,Option.some.inj h⟩

def plainHasher : NodeHasher Bytes where
  isNaturalCut _ := false
  internalNodeHash nodes := nodes.flatMap (·.1)
  hmac h _ := h
  default := []

def plainStore (c : Chunker G) (xorb : Bytes) : List (Chunk Bytes) := cdcChunks id c xorb

def plainSegment (c : Chunker G) (xorb : Bytes) : FileDataSequenceEntry Bytes :=
  ⟨xorb,xorb.length,0,(plainStore c xorb).length⟩

def plainInfo (c : Chunker G) (parts : List Bytes) : MDBFileInfo Bytes where
  metadata := ⟨parts.flatten,parts.length,true,false⟩
  segments := parts.map (plainSegment c)
  verification := parts.map fun xorb => segmentHash List.flatten (plainStore c) (plainSegment c xorb)
  metadataExt := none

def plainClient (C : Constants) (c : Chunker G) (parts : List Bytes) : UploadClient Bytes where
  getFileReconstructionInfo _ := some (plainInfo c parts)
  getFileChunkHashes _ query :=
    buildFileChunkHashesResponse plainHasher C (plainInfo c parts) query (cdcNodes id c parts.flatten)
  readRange _ r := slice parts.flatten r.start r.stop
  clean _ _ data := (cdcNodes id c data,plainInfo c [data])

theorem plainSegment_read (c : Chunker G) (xorb : Bytes) :
    (plainSegment c xorb).read (plainStore c) = cdcChunks id c xorb := by
  simp [FileDataSequenceEntry.read,FileDataSequenceEntry.extent,plainSegment,Extent.read,plainStore]

theorem plainSegment_ok (hs : c.Synced) (hb : c.chunkbuf = []) (xorb : Bytes) :
    EntryOk (plainStore c) (plainSegment c xorb) := by
  refine ⟨⟨Nat.zero_le _,le_rfl⟩,?_⟩
  rw [plainSegment_read,← bytesOf_length,bytesOf_cdcChunks hs hb]
  rfl

theorem plainClient_cleans (hs : c.Synced) (hb : c.chunkbuf = []) (C : Constants) (parts : List Bytes) :
    Cleans List.flatten (plainStore c) id c (plainClient C c parts) where
  chunks _ _ _ := rfl
  denotes _ _ data := by
    have h := (plainSegment_ok hs hb data).denotes
    rwa [plainSegment_read] at h
  verification _ _ _ := rfl

theorem plainFile_stored {C : Constants} (hc : Chunker.new G C C.targetChunkSize = some c)
    {parts : List Bytes} (hp : parts.flatMap (cdcChunks id c) = cdcChunks id c parts.flatten)
    (hne : ∀ xorb ∈ parts, 0 < (cdcChunks id c xorb).length) :
    StoredFile (plainStore c) id c (plainInfo c parts) parts.flatten := by
  obtain ⟨hs,hb⟩ := Chunker.new_synced hc
  refine ⟨hs,hb,⟨forall_mem_map.mpr fun xorb _ => plainSegment_ok hs hb xorb,?_⟩,forall_mem_map.mpr hne⟩
  rw [← hp,plainInfo,flatMap_map]
  exact flatMap_congr fun xorb _ => plainSegment_read c xorb

/-- Four chunks of stable size and a short one, in two xorbs: the first chunk, and the others. -/
def cutParts : List Bytes :=
  let file := clearedBlock 200 ++ clearedBlock 200 ++ clearedBlock 200 ++ clearedBlock 200
  [file.take 264,file.drop 264]

def cutEdits : List DirtyInput := [⟨⟨0,1⟩,[7],1⟩]

theorem cutParts_stored :
    StoredFile (plainStore wideChunker) id wideChunker (plainInfo wideChunker cutParts)
      cutParts.flatten :=
  plainFile_stored new_wide (by decide +kernel) (by decide +kernel)

/-- The window ends in the second segment, and the two chunks behind it are lost without an error.
-/
theorem uploadRanges_loses_bytes :
    StoredFile (plainStore wideChunker) id wideChunker (plainInfo wideChunker cutParts) cutParts.flatten ∧
    validateDirtyRanges cutEdits cutParts.flatten.length = .ok () ∧
    ∃ info fi, uploadRanges plainHasher (plainClient wideConstants wideChunker cutParts) cutParts.flatten
        cutParts.flatten.length cutEdits = .ok (info,some fi) ∧
      info.fileSize = some 1064 ∧ fi.fileSize = 796 ∧ (edited cutParts.flatten cutEdits).length = 1064 ∧
      fileBytes (plainStore wideChunker) fi.segments ≠ edited cutParts.flatten cutEdits := by
  refine ⟨cutParts_stored,by decide +kernel,?_⟩
  have hrun : ((uploadRanges plainHasher (plainClient wideConstants wideChunker cutParts) cutParts.flatten
      cutParts.flatten.length cutEdits).toOption.map fun p => p.2.map fun fi => (p.1.fileSize,fi.fileSize,
        decide (fileBytes (plainStore wideChunker) fi.segments = edited cutParts.flatten cutEdits))) =
      some (some (some 1064,796,false)) := by decide +kernel
  obtain ⟨⟨info,mdb⟩,hup,hmdb⟩ := exists_ok_of_toOption hrun
  obtain ⟨fi,rfl,hfi⟩ := Option.map_eq_some_iff.mp hmdb
  simp only [Prod.mk.injEq,decide_eq_false_iff_not] at hfi
  exact ⟨info,fi,hup,hfi.1,hfi.2.1,by decide +kernel,hfi.2.2⟩

def alignedParts : List Bytes :=
  let file := clearedBlock 200 ++ clearedBlock 200 ++ clearedBlock 200 ++ clearedBlock 200
  [slice file 0 264,slice file 264 530,slice file 530 796,slice file 796 1062,slice file 1062 1064]

theorem composeMdb_ok_iff_aligned : ∃ uploaded gapVerification fi,
    composeMdb (plainInfo wideChunker alignedParts) uploaded gapVerification [] = .ok fi ∧
      ComposedOk List.flatten (plainStore wideChunker) alignedParts.flatten cutEdits fi := by
  have hquery : ((buildFileChunkHashesResponse plainHasher wideConstants
    (plainInfo wideChunker alignedParts)
      (serverQuery (segByteStarts (plainInfo wideChunker alignedParts))
        alignedParts.flatten.length cutEdits)
      (cdcNodes id wideChunker alignedParts.flatten)).toOption.map (·.windows)) =
        some [⟨0,796⟩] := by decide +kernel
  obtain ⟨response,hresponse,hwindows⟩ := exists_ok_of_toOption hquery
  have hwindow : ((uploadWindows (plainClient wideConstants wideChunker alignedParts) []
    alignedParts.flatten.length 0
      [⟨0,796⟩] cutEdits).toOption.map (·.2)) = some [] := by decide +kernel
  obtain ⟨⟨uploaded,left⟩,hupload,-⟩ := exists_ok_of_toOption hwindow
  have hs := Chunker.new_synced new_wide
  have hstored : StoredFile (plainStore wideChunker) id wideChunker (plainInfo wideChunker alignedParts)
      alignedParts.flatten := plainFile_stored new_wide (by decide +kernel) (by decide +kernel)
  have htotal : computeTotalSize alignedParts.flatten.length cutEdits = .ok 1064 := by decide +kernel
  obtain ⟨fi,hrun,hiff⟩ := composeMdb_ok_iff (K := plainHasher) hstored (by simp [plainInfo])
    (plainClient_cleans hs.1 hs.2 wideConstants alignedParts) (fun _ _ => rfl) (by decide +kernel)
    (by unfold Readable; decide) htotal hresponse (hwindows ▸ hupload) []
  refine ⟨uploaded,response.gapVerification,fi,hrun,hiff.mpr ?_⟩
  rw [hwindows]
  decide +kernel

end XetCore.RangeUpload
