import XetCore.RangeUpload.CombinedHash

/-! # What an upload of edits returns

The combined hash is the file hash of the chunks that a clean upload of the edited file
has. This holds for every list of edits that passes the validation, also when nothing is
left of the file.
-/
namespace XetCore.RangeUpload
open Merkle MerkleHashSubtree Chunking Dedup Intervals Reconstruction Session Extents Patches
  StreamCut WindowScan List
open FileDeduper (XetFileInfo)

variable {H : Type} {G : GearHasher} {D : Bytes → H} {c : Chunker G} {K : NodeHasher H} {C : Constants}
  {store : H → List (Chunk H)} {mdb : MDBFileInfo H} {file : Bytes} {client : UploadClient H}
    {originalHash : H}
  {ds : List DirtyInput}
variable {uploaded : List (UploadedWindow H)} {response : FileChunkHashesResponse H} {total : ℕ}

theorem mergeParts_flatten (hs : c.Synced) (hb : c.chunkbuf = [])
    (hcl : ∀ i size data, (client.clean i size data).1 = cdcNodes D c data) {Qs : PiecePairs}
    {T : List Bytes}
    {ps : List (FileRange × List DirtyInput)} (hlen : ps.length = Qs.length) (i : ℕ) :
    (mergeParts (nodePairs D Qs) (uploadedFrom client file i ps) (T.map (pieceNode D))).flatten =
      ((blocks file Qs ps).flatMap (fun b => b.1 ++ pieces c.rule b.2) ++ T).map (pieceNode D) := by
  have hp : ∀ cs : List (Node H), (nonemptyPart cs).flatten = cs := by
    intro cs
    cases cs <;> simp [nonemptyPart]
  induction Qs generalizing ps i with
  | nil =>
    exact hp _
  | cons q Qs ih =>
    cases ps with
    | nil => simp at hlen
    | cons p ps =>
      have hr := ih (Nat.succ.inj hlen) (i + 1)
      have hc : (uploadedWindow client file i p).chunks =
          (pieces c.rule ((group p).outer file).content).map (pieceNode D) := by
        rw [uploadedWindow,hcl,cdcNodes_eq hs hb]
      rw [nodePairs_cons,uploadedFrom,mergeParts,flatten_append,flatten_cons,hp,hr,hc,blocks,
        blocks,zipWith_cons_cons,flatMap_cons]
      simp [map_append]

theorem combinedHash_eq {parts : List (List (Node H))} {hashRanges : List (Option (MerkleHashSubtree H))}
    (hp : mergeSequence K hashRanges uploaded = pieceSubtrees K true parts)
    (hto : total = 0 ↔ parts.flatten = []) :
    combinedHash K hashRanges uploaded total = .ok (fileHash K parts.flatten) := by
  obtain ⟨t,hm,ht⟩ := merge_represents K parts
  rw [combinedHash,hp,hm]
  simp [ht.finalHash,fileHash,fileHashWithSalt,hto]

theorem edited_nil (file : Bytes) : edited file [] = file := slice_zero_length file

theorem edited_of_nil (ds : List DirtyInput) : edited [] ds = (ds.map DirtyInput.bytes).flatten := by
  have hgo : ∀ pos, patch [] 0 pos (ds.map DirtyInput.patch) = (ds.map DirtyInput.bytes).flatten := by
    induction ds with
    | nil => intro pos; simp [patch,slice]
    | cons d ds ih => intro pos; simp [patch,slice,ih,DirtyInput.patch]
  exact hgo 0

theorem mapM_readInput (hr : Readable ds) : ds.mapM readInput = .ok (ds.map DirtyInput.bytes) := by
  induction ds with
  | nil => rfl
  | cons d ds ih =>
    obtain ⟨hd,hds⟩ := forall_mem_cons.mp hr
    have hn : readInput d = .ok d.bytes := if_pos hd
    rw [mapM_cons,hn,ih hds]
    rfl

theorem total_eq_zero_iff (hs : c.Synced) (hb : c.chunkbuf = []) (data : Bytes) :
    data.length = 0 ↔ cdcNodes D c data = [] := by
  rw [cdcNodes_eq hs hb,map_eq_nil_iff,length_eq_zero_iff]
  refine ⟨fun h => by rw [h,pieces_nil],fun h => ?_⟩
  have hf := pieces_flatten c.rule data
  rw [h] at hf
  exact hf.symm

theorem combinedHash_response (hc : Chunker.new G C C.targetChunkSize = some c)
    (hwi : hashWindowSize < c.minimumChunk) (hG : Windowed G c.mask) (h : StoredFile store D c mdb file)
    (hra : ∀ r : FileRange, r.stop ≤ file.length →
      client.readRange originalHash r = slice file r.start r.stop)
    (hcl : ∀ i size data, (client.clean i size data).1 = cdcNodes D c data)
    (hv : ValidEdits file.length ds) (hrd : Readable ds)
    (hre : buildFileChunkHashesResponse K C mdb (serverQuery (segByteStarts mdb) file.length ds)
      (cdcNodes D c file) = .ok response) :
    response.windows ≠ [] ∧ response.hashRanges.length = response.windows.length + 1 ∧
    ∃ uploaded, uploadWindows client originalHash file.length 0 response.windows ds = .ok (uploaded,[]) ∧
      combinedHash K response.hashRanges uploaded (edited file ds).length =
        .ok (fileHash K (cdcNodes D c (edited file ds))) := by
  obtain ⟨hq,hne⟩ := query_of_response h hv hre
  obtain ⟨qs,tl,hl,hqs,han,-⟩ := h.response_spec K C hq hne
  obtain ⟨hw,hr,-⟩ := han response hre
  have ha := hl.assignable h.node_pos h.nodeBytes_eq hv hq
  have hch := hl.chunks_eq
  rw [cdcNodes_eq h.synced h.chunkbuf] at hch hl
  obtain ⟨Qs,T,hp,rfl,rfl⟩ := exists_piecePairs hch
  rw [gapRanges_placePairs,show List.isEmpty (nodePairs D Qs) = false by simpa using hqs] at hr
  have hlen : (assign file.length (windowRanges 0 (nodePairs D Qs)) ds).length = Qs.length := by
    rw [← length_map,assign_map_fst,windowRanges_length,nodePairs,length_map]
  have hup := uploadWindows_eq hra hrd ha 0
  set us := uploadedFrom client file 0 (assign file.length (windowRanges 0 (nodePairs D Qs)) ds)
  have hu : us.length = (nodePairs D Qs).length := by
    have hm : us.map UploadedWindow.range =
      (assign file.length (windowRanges 0 (nodePairs D Qs)) ds).map (·.1) :=
      uploadedFrom_map (fun _ _ => rfl) 0 _
    have hco := congrArg List.length hm
    rw [length_map,length_map,hlen] at hco
    rw [hco,nodePairs,length_map]
  have hf : (mergeParts (nodePairs D Qs) us (T.map (pieceNode D))).flatten = _ :=
    mergeParts_flatten h.synced h.chunkbuf hcl hlen 0
  rw [← pieces_edited hc hwi hG hp hl hq ha,← cdcNodes_eq h.synced h.chunkbuf] at hf
  refine ⟨?_,?_,us,?_,?_⟩
  · rw [hw]
    exact windowRanges_ne_nil hqs
  · have hg : ∀ (s : Bool) (qs : Pairs H), (gapSubtrees K s qs).length = qs.length := by
      intro s qs
      induction qs generalizing s with
      | nil => rfl
      | cons q qs ih => rw [gapSubtrees,length_cons,ih,length_cons]
    rw [hr,hw,length_append,hg,windowRanges_length,length_singleton]
  · rw [hw]
    exact hup
  · rw [hr,← hf]
    refine combinedHash_eq (mergeSequence_eq hu hqs) ?_
    rw [hf]
    exact total_eq_zero_iff h.synced h.chunkbuf _

/-- The client knows the file, and the server answers from its chunks. -/
structure Serves (K : NodeHasher H) (C : Constants) (client : UploadClient H) (originalHash : H)
    (mdb : MDBFileInfo H) (chunks : List (Node H)) (file : Bytes) : Prop where
  info : client.getFileReconstructionInfo originalHash = some mdb
  chunkHashes : ∀ query, client.getFileChunkHashes originalHash query = buildFileChunkHashesResponse
    K C mdb query chunks
  readRange : ∀ r : FileRange, r.stop ≤ file.length →
    client.readRange originalHash r = slice file r.start r.stop

theorem uploadRanges_eq (h : StoredFile store D c mdb file) (hs : Serves K C client originalHash mdb
      (cdcNodes D c file) file) (hv : validateDirtyRanges ds file.length = .ok ())
    (ht : computeTotalSize file.length ds = .ok total) (hds : ds ≠ []) (hf : file ≠ [])
    (hr : buildFileChunkHashesResponse K C mdb
      (serverQuery (segByteStarts mdb) file.length ds) (cdcNodes D c file) = .ok response)
    (hw : response.windows ≠ []) (hlen : response.hashRanges.length = response.windows.length + 1)
    {hash : H}
    (hu : uploadWindows client originalHash file.length 0 response.windows ds = .ok (uploaded,[]))
    (hh : combinedHash K response.hashRanges uploaded total = .ok hash) :
    uploadRanges K client originalHash file.length ds =
      (composeMdb mdb uploaded response.gapVerification hash).map fun m =>
        (⟨hash,some total,none⟩,some m) := by
  have hq := (query_of_response h (ValidEdits.of_validate hv) hr).2
  have hsi : file.length ≠ 0 := fun hz => hf (length_eq_zero_iff.mp hz)
  rw [← hs.chunkHashes] at hr
  unfold uploadRanges
  simp only [hv,ht,bind,Except.bind,List.isEmpty_iff,hds,hsi,hs.info,h.fileSize_eq,hq,hr,hw,hlen,hu,
    hh,ne_eq,↓reduceIte]
  cases composeMdb mdb uploaded response.gapVerification hash <;> rfl

/-- Every list of edits that passes the validation gives the hash of a clean upload of the edited
file: the hash combined from the answer of the server, and the one that the upload returns. The
upload succeeds when the segments of the file and of the windows have their verification hashes. -/
theorem uploadRanges_hash (hc : Chunker.new G C C.targetChunkSize = some c)
    (hwin : hashWindowSize < c.minimumChunk) (hG : Windowed G c.mask) (h : StoredFile store D c mdb file)
    (hserves : Serves K C client (fileHash K (cdcNodes D c file)) mdb (cdcNodes D c file) file)
    (hclean : ∀ i size data, (client.clean i size data).1 = cdcNodes D c data)
    (hvalid : validateDirtyRanges ds file.length = .ok ()) (hread : Readable ds) {total : ℕ}
    (htotal : computeTotalSize file.length ds = .ok total) :
    (∀ response uploaded left,
      buildFileChunkHashesResponse K C mdb (serverQuery (segByteStarts mdb) file.length ds)
        (cdcNodes D c file) = .ok response →
      uploadWindows client (fileHash K (cdcNodes D c file)) file.length 0 response.windows ds =
        .ok (uploaded,left) →
      combinedHash K response.hashRanges uploaded total =
        .ok (fileHash K (cdcNodes D c (edited file ds)))) ∧
    ∃ r : Except DataError (Option (MDBFileInfo H)),
      uploadRanges K client (fileHash K (cdcNodes D c file)) file.length ds =
        r.map (fun m => (⟨fileHash K (cdcNodes D c (edited file ds)),some total,none⟩,m)) ∧
      ∀ rangeHash, Cleans rangeHash store D c client →
        mdb.verification = mdb.segments.map (segmentHash rangeHash store) → ∃ m, r = .ok m := by
  have hv := ValidEdits.of_validate hvalid
  obtain rfl := computeTotalSize_eq hv hread htotal
  refine ⟨fun response uploaded left hresponse hupload => ?_,?_⟩
  · obtain ⟨-,-,us,hus,hhash⟩ :=
      combinedHash_response hc hwin hG h hserves.readRange hclean hv hread hresponse
    rw [hus] at hupload
    cases hupload
    exact hhash
  · by_cases hds : ds = []
    · subst hds
      refine ⟨.ok none,?_,fun _ _ _ => ⟨_,rfl⟩⟩
      simp only [uploadRanges,htotal,edited_nil]
      rfl
    by_cases hfile : file = []
    · subst hfile
      refine ⟨.ok none,?_,fun _ _ _ => ⟨_,rfl⟩⟩
      simp only [length_nil] at hvalid htotal
      simp only [uploadRanges,uploadFreshFile,hvalid,htotal,List.isEmpty_iff,hds,length_nil,
        mapM_readInput hread,hclean,edited_of_nil]
      rfl
    have hq := serverQuery_spec h.segment_pos (h.segments_ne_nil hfile) (h.fileSize_eq ▸ hv)
    rw [h.fileSize_eq] at hq
    have hquery : serverQuery (segByteStarts mdb) file.length ds ≠ [] := by
      obtain ⟨d,rest,hd⟩ := exists_cons_of_ne_nil hds
      obtain ⟨r,hr,-⟩ := hq.holds d (by simp [hd])
      exact ne_nil_of_mem hr
    cases hresponse : buildFileChunkHashesResponse K C mdb
      (serverQuery (segByteStarts mdb) file.length ds)
        (cdcNodes D c file) with
    | error e =>
      have hsize : file.length ≠ 0 := fun hz => hfile (length_eq_zero_iff.mp hz)
      have hanswer := hresponse
      rw [← hserves.chunkHashes] at hanswer
      refine ⟨.error .clientError,?_,fun rangeHash _ hverification => ?_⟩
      · simp only [uploadRanges,hvalid,htotal,List.isEmpty_iff,hds,hsize,hserves.info,
          h.fileSize_eq,hquery,hanswer,ne_eq,not_true_eq_false]
        rfl
      · obtain ⟨-,-,-,-,-,hok⟩ := h.response_spec K C hq hquery
        obtain ⟨response,hok⟩ := hok (by rw [hverification,length_map])
        rw [hresponse] at hok
        cases hok
    | ok response =>
      obtain ⟨hwindows,hlen,us,hus,hhash⟩ :=
        combinedHash_response hc hwin hG h hserves.readRange hclean hv hread hresponse
      rw [uploadRanges_eq h hserves hvalid htotal hds hfile hresponse hwindows hlen hus hhash]
      refine ⟨(composeMdb mdb us response.gapVerification
        (fileHash K (cdcNodes D c (edited file ds)))).map some,?_,
        fun rangeHash hcl hverification => ?_⟩
      · cases composeMdb mdb us response.gapVerification
          (fileHash K (cdcNodes D c (edited file ds))) <;> rfl
      · obtain ⟨-,-,fi,-,-,hfi,-⟩ :=
          composeMdb_bytes h hverification hcl hserves.readRange hv hread hresponse hus
          (fileHash K (cdcNodes D c (edited file ds)))
        exact ⟨some fi,by rw [hfi]; rfl⟩

/-- Two inserts and a deletion, the last one at the end of the file. -/
def severalEdits : List DirtyInput := [⟨⟨3,3⟩,[7,8],2⟩,⟨⟨300,310⟩,[],0⟩,⟨⟨1064,1064⟩,[9],1⟩]

theorem uploadRanges_hash_several : ∃ m,
    uploadRanges plainHasher (plainClient wideConstants wideChunker cutParts)
        (fileHash plainHasher (cdcNodes id wideChunker cutParts.flatten)) cutParts.flatten.length
          severalEdits =
      .ok (⟨fileHash plainHasher (cdcNodes id wideChunker (edited cutParts.flatten severalEdits)),
        some 1057,none⟩,m) := by
  have hs := Chunker.new_synced new_wide
  have hclean := plainClient_cleans hs.1 hs.2 wideConstants cutParts
  have htotal : computeTotalSize cutParts.flatten.length severalEdits = .ok 1057 := by decide +kernel
  obtain ⟨-,r,hrun,hok⟩ := uploadRanges_hash new_wide (by decide) (gearHasher_windowed _ _)
    cutParts_stored ⟨rfl,fun _ => rfl,fun _ _ => rfl⟩ hclean.chunks (by decide +kernel)
      (by unfold Readable; decide) htotal
  obtain ⟨m,rfl⟩ := hok List.flatten hclean (by simp [plainInfo])
  exact ⟨m,hrun⟩

/-- What is done for a window and the edits that it takes. -/
structure WindowFed (readRange : FileRange → Bytes) (file : Bytes) (p : FileRange × List DirtyInput) :
    Prop where
  within : ∀ d ∈ p.2, p.1.start ≤ d.originalRange.start ∧ d.originalRange.stop ≤ p.1.stop
  fed : windowData readRange p.1.stop p.1.start p.2 =
    .ok (patch file p.1.stop p.1.start (p.2.map DirtyInput.patch))
  not_reversed : p.1.start ≤ p.1.stop
  no_underflow : removedBytes p.2 ≤ p.1.stop - p.1.start + addedBytes p.2
  size : middleSize p.1 p.2 = (patch file p.1.stop p.1.start (p.2.map DirtyInput.patch)).length

theorem Assignable.windowFed {ws : List FileRange} (h : Assignable file.length ws ds) (hre : Readable ds)
    {readRange : FileRange → Bytes}
    (hra : ∀ r : FileRange, r.stop ≤ file.length → readRange r = slice file r.start r.stop)
    {p : FileRange × List DirtyInput} (hp : p ∈ assign file.length ws ds) :
    WindowFed readRange file p := by
  have hw : p.1 ∈ ws := assign_map_fst file.length ws ds ▸ List.mem_map_of_mem hp
  have hs := h.windows.stop_le p.1 hw
  have hf := h.fits p hp
  have hr : Readable p.2 := fun d hd => hre d (by
    rw [← h.flatMap_assign]
    exact List.mem_flatMap.mpr ⟨p,hp,hd⟩)
  have hlen := patch_length hs hf
  rw [removed_patches,added_patches hr] at hlen
  have hlt := (h.windows.lt p.1 hw).le
  refine ⟨fun d hd => ⟨(h.holds p hp d hd).start_le,(h.holds p hp d hd).le_stop⟩,
    windowData_eq hra hs hr hf,hlt,by omega,?_⟩
  unfold middleSize
  omega

theorem windows_take_edits (K : NodeHasher H) (C : Constants) {chunks : List (Node H)}
    (hsegments : ∀ e ∈ mdb.segments, 0 < e.unpackedSegmentBytes) (hchunks : ∀ x ∈ chunks, 0 < x.2)
    (hsize : mdb.fileSize = file.length) (hbytes : nodeBytes chunks = file.length)
    {client : UploadClient H} {originalHash : H}
    (hrange : ∀ r : FileRange, r.stop ≤ file.length →
      client.readRange originalHash r = slice file r.start r.stop)
    (hvalid : validateDirtyRanges ds file.length = .ok ()) (hread : Readable ds)
    {response : FileChunkHashesResponse H} (hresponse : buildFileChunkHashesResponse K C mdb
      (serverQuery (segByteStarts mdb) file.length ds) chunks = .ok response) :
    uploadWindows client originalHash file.length 0 response.windows ds =
        .ok (uploadedFrom client file 0 (assign file.length response.windows ds),[]) ∧
      (assign file.length response.windows ds).map (·.1) = response.windows ∧
      (assign file.length response.windows ds).flatMap (·.2) = ds ∧
      ∀ p ∈ assign file.length response.windows ds, WindowFed (client.readRange originalHash) file p := by
  have hv := ValidEdits.of_validate hvalid
  have hquery : serverQuery (segByteStarts mdb) file.length ds ≠ [] := by
    intro hnil
    simp [buildFileChunkHashesResponse,hnil] at hresponse
  have hne : mdb.segments ≠ [] := by
    intro hnil
    have hzero : mdb.fileSize = 0 := by simp [MDBFileInfo.fileSize,hnil]
    simp [buildFileChunkHashesResponse,hzero] at hresponse
  have hq := serverQuery_spec hsegments hne (hsize ▸ hv)
  rw [hsize] at hq
  have ho : Ordered (serverQuery (segByteStarts mdb) file.length ds) :=
    ⟨hq.apart.separated.imp le_of_lt,hq.apart.lt⟩
  obtain ⟨qs,tl,hlayout,-,hanswer,-⟩ :=
    buildFileChunkHashesResponse_spec K C ho (hsize ▸ hq.apart.stop_le) hquery
    (hbytes.trans hsize.symm)
  have ha := hlayout.toLayout.assignable hchunks hbytes hv hq
  rw [← (hanswer response hresponse).windows_eq] at ha
  exact ⟨uploadWindows_eq hrange hread ha 0,assign_map_fst _ _ _,ha.flatMap_assign,
    fun p hp => ha.windowFed hread hrange hp⟩

def fiveChunks : List (Node Bytes) := [([1],300),([2],300),([3],300),([4],300),([5],300)]

def fiveInfo : MDBFileInfo Bytes where
  metadata := ⟨[],3,true,false⟩
  segments := [⟨[1],300,0,1⟩,⟨[2],600,0,2⟩,⟨[3],600,0,2⟩]
  verification := [[1],[2],[3]]
  metadataExt := none

def zeros : Bytes := List.replicate 1500 0

theorem zeros_length : zeros.length = 1500 := List.length_replicate ..

/-- A replacement, two inserts where the second window starts, and one at the end of the file. -/
def boundaryEdits : List DirtyInput :=
  [⟨⟨10,20⟩,[1,2],2⟩,⟨⟨900,900⟩,[3],1⟩,⟨⟨900,900⟩,[4,5],2⟩,⟨⟨1500,1500⟩,[6],1⟩]

def zeroClient : UploadClient Bytes where
  getFileReconstructionInfo _ := some fiveInfo
  getFileChunkHashes _ query :=
    buildFileChunkHashesResponse plainHasher wideConstants fiveInfo query fiveChunks
  readRange _ r := slice zeros r.start r.stop
  clean _ _ _ := ([],fiveInfo)

theorem windows_take_edits_at_boundaries : ∃ response,
    buildFileChunkHashesResponse plainHasher wideConstants fiveInfo
      (serverQuery (segByteStarts fiveInfo) zeros.length boundaryEdits) fiveChunks = .ok response ∧
    response.windows = [⟨0,900⟩,⟨900,1500⟩] ∧
    (assign zeros.length response.windows boundaryEdits).map (·.2.length) = [1,3] ∧
    ∀ p ∈ assign zeros.length response.windows boundaryEdits,
      WindowFed (zeroClient.readRange []) zeros p := by
  have hquery : ((buildFileChunkHashesResponse plainHasher wideConstants fiveInfo
      (serverQuery (segByteStarts fiveInfo) zeros.length boundaryEdits) fiveChunks).toOption.map
        (·.windows)) =
      some [⟨0,900⟩,⟨900,1500⟩] := by
    decide +kernel
  obtain ⟨response,hresponse,hwindows⟩ := exists_ok_of_toOption hquery
  have hrange : ∀ r : FileRange, r.stop ≤ zeros.length →
    zeroClient.readRange [] r = slice zeros r.start r.stop :=
    fun _ _ => rfl
  have hvalid : validateDirtyRanges boundaryEdits zeros.length = .ok () := by
    decide +kernel
  have hread : Readable boundaryEdits := by
    unfold Readable
    decide
  have hsize : fiveInfo.fileSize = zeros.length := zeros_length.symm
  have hbytes : nodeBytes fiveChunks = zeros.length := zeros_length.symm
  obtain ⟨-,-,-,hfed⟩ := windows_take_edits plainHasher wideConstants (by decide) (by decide) hsize
    hbytes hrange hvalid
    hread hresponse
  refine ⟨response,hresponse,hwindows,?_,hfed⟩
  rw [hwindows,zeros_length]
  decide +kernel

end XetCore.RangeUpload
