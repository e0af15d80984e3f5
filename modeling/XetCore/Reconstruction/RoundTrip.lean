import Mathlib.Data.List.ModifyLast
import XetCore.Reconstruction.BlockPlan

/-! # Reading a range back

The pieces that the terms cut out of their blocks, joined, are the bytes of the range.
The first piece starts at the offset that the server gives, the last one ends where
the client cuts it off.
-/
namespace XetCore.Reconstruction
open Dedup Chunking Extents Intervals List

variable {H : Type} {store : H → List (Chunk H)}

theorem byteIndices_length (c : ℕ) (cs : List (Chunk H)) : (byteIndices c cs).length = cs.length + 1 := by
  induction cs generalizing c with
  | nil => rfl
  | cons x cs ih => rw [byteIndices,length_cons,ih,length_cons]

theorem byteIndices_getElem? (c : ℕ) (pre cs : List (Chunk H)) :
    (byteIndices c (pre ++ cs))[pre.length]? = some (c + byteCount pre) := by
  induction pre generalizing c with
  | nil => cases cs <;> simp [byteIndices,byteCount]
  | cons x pre ih =>
    rw [cons_append,byteIndices,length_cons,getElem?_cons_succ,ih]
    simp [byteCount,Nat.add_assoc]

theorem rangeChunks_length {cs : List (Chunk H)} {rs : List ChunkRange}
    (h : ∀ r ∈ rs, r.stop ≤ cs.length) :
    (rangeChunks cs rs).length = (rs.flatMap fun r => List.range' r.start (r.stop - r.start)).length := by
  induction rs with
  | nil => rfl
  | cons r rs ih =>
    rw [rangeChunks,flatMap_cons,length_append,slice_length (h r (by simp)),flatMap_cons,
      length_append,length_range',← ih fun r hr => h r (by simp [hr])]
    rfl

theorem extractBytes_fill {b : XorbBlock H}
    (hin : ∀ r ∈ b.chunkRanges, r.stop ≤ (store b.xorbHash).length)
    {pre mid post : List (Chunk H)}
    (hc : rangeChunks (store b.xorbHash) b.chunkRanges = pre ++ mid ++ post)
    (hm : mid ≠ []) {t : FileTerm H} (hs : t.xorbBlockStartIndex = pre.length)
    (hr : t.byteRange.start ≤ t.byteRange.stop)
    (hsi : t.offsetIntoFirstRange + (t.byteRange.stop - t.byteRange.start) ≤ (bytesOf mid).length) :
    (b.fill store).bind t.extractBytes = some (slice (bytesOf mid) t.offsetIntoFirstRange
      (t.offsetIntoFirstRange + (t.byteRange.stop - t.byteRange.start))) := by
  have hlen := rangeChunks_length hin
  have hp : 0 < mid.length := length_pos_iff.mpr hm
  let indices := b.chunkRanges.flatMap fun r => List.range' r.start (r.stop - r.start)
  have hid : indices.length = pre.length + mid.length + post.length := by
    rw [← hlen,hc,length_append,length_append]
  have hf : b.fill store = some ⟨indices.zip (byteIndices 0 (pre ++ mid ++ post)),
    bytesOf (pre ++ mid ++ post)⟩ := by
    have hb : b.chunks store = pre ++ mid ++ post := hc
    rw [XorbBlock.fill,hb,buildChunkOffsets,if_pos]
    · rfl
    · rw [byteIndices_length,← hc,hlen]
      omega
  obtain ⟨i,hi⟩ : ∃ i, indices[pre.length]? = some i := ⟨_,getElem?_eq_getElem (by omega)⟩
  have hg : (indices.zip (byteIndices 0 (pre ++ mid ++ post)))[pre.length]? = some (i,byteCount pre) := by
    refine getElem?_zip_eq_some.mpr ⟨hi,?_⟩
    rw [append_assoc,byteIndices_getElem?,Nat.zero_add]
  have hd : bytesOf (pre ++ mid ++ post) = bytesOf pre ++ (bytesOf mid ++ bytesOf post) := by
    rw [bytesOf_append,bytesOf_append,append_assoc]
  rw [hf,Option.bind_some,FileTerm.extractBytes,hs]
  simp only [hg]
  rw [if_pos,hd,← bytesOf_length,Nat.add_assoc,slice_append_right,slice_append_left _ hsi]
  refine ⟨hr,?_⟩
  rw [hd,length_append,length_append,← bytesOf_length]
  omega

def assemble (store : H → List (Chunk H)) : List (FileTerm H) → Option Bytes
  | [] => some []
  | t :: ts => do
    let piece ← (t.xorbBlock.fill store).bind t.extractBytes
    let pieces ← assemble store ts
    return piece ++ pieces

theorem extractBytes_length {t : FileTerm H} {d : XorbBlockData} {bytes : Bytes}
    (h : t.extractBytes d = some bytes) :
    t.byteRange.start ≤ t.byteRange.stop ∧ bytes.length = t.byteRange.stop - t.byteRange.start := by
  unfold FileTerm.extractBytes at h
  split at h
  · cases h
  · dsimp only at h
    split at h
    · rename_i hc
      cases h
      exact ⟨hc.1,by rw [slice_length hc.2]; omega⟩
    · cases h

theorem assemble_ordered {ts : List (FileTerm H)} {bytes : Bytes} (h : assemble store ts = some bytes) :
    ∀ t ∈ ts, t.byteRange.start ≤ t.byteRange.stop := by
  induction ts generalizing bytes with
  | nil => simp
  | cons t ts ih =>
    obtain ⟨piece,hp,pieces,hps,-⟩ := by simpa [assemble,Option.bind_eq_some_iff] using h
    obtain ⟨d,-,hd⟩ := hp
    exact forall_mem_cons.mpr ⟨(extractBytes_length hd).1,ih hps⟩

def shorten (excess : ℕ) (e : FileTermEntry) : FileTermEntry :=
  { e with byteRange := ⟨e.byteRange.start,e.byteRange.stop - excess⟩ }

section Laid
variable {blocks : List (XorbBlock H)} {pos offset : ℕ} {ts : List (XorbReconstructionTerm H)}
  {es : List FileTermEntry}
variable {shapes : List (H × List ChunkRange)} {α : Type} {e : FileTermEntry}

theorem Placed.fileTerm {t : XorbReconstructionTerm H} (hok : TermOk store t)
    (h : Placed store (blocks.map XorbBlock.shape) t e) (hr : e.byteRange.start ≤ e.byteRange.stop)
    (hs : e.offsetIntoFirstRange + (e.byteRange.stop - e.byteRange.start) ≤ (termBytes store t).length) :
    ∃ f, fileTerm blocks e = some f ∧ (f.xorbBlock.fill store).bind f.extractBytes =
      some (slice (termBytes store t) e.offsetIntoFirstRange
        (e.offsetIntoFirstRange + (e.byteRange.stop - e.byteRange.start))) := by
  obtain ⟨rs,pre,post,hg,hin,hst,hc⟩ := h.in_block
  rw [getElem?_map] at hg
  obtain ⟨b,hb,hsh⟩ := Option.map_eq_some_iff.mp hg
  obtain ⟨hh,rfl⟩ := Prod.mk.inj hsh
  rw [← hh] at hin hc
  have hm : slice (store b.xorbHash) t.range.start t.range.stop ≠ [] := by
    have hlen := slice_length hok.stop_le (a := t.range.start)
    have hlt := hok.lt
    rw [← hh] at hlen
    exact length_pos_iff.mp (by omega)
  have hby : termBytes store t = bytesOf (slice (store b.xorbHash) t.range.start t.range.stop) := by
    rw [hh]
    rfl
  rw [hby] at hs ⊢
  refine ⟨_,by rw [Reconstruction.fileTerm,hb]; rfl,?_⟩
  exact extractBytes_fill hin hc hm hst hr hs

theorem modifyLast_singleton (f : α → α) (a : α) : [a].modifyLast f = [f a] :=
  modifyLast_concat f a []

theorem modifyLast_cons_cons (f : α → α) (a b : α) (xs : List α) :
    (a :: b :: xs).modifyLast f = a :: (b :: xs).modifyLast f :=
  modifyLast_append_of_right_ne_nil f [a] (b :: xs) (by simp)

theorem assemble_cons_entry {f : FileTerm H} (hf : fileTerm blocks e = some f)
    {piece pieces : Bytes} (hpi : (f.xorbBlock.fill store).bind f.extractBytes = some piece)
    (hp : assemble store (es.filterMap (fileTerm blocks)) = some pieces) :
    assemble store ((e :: es).filterMap (fileTerm blocks)) = some (piece ++ pieces) := by
  rw [filterMap_cons_some hf,assemble,hpi,hp]
  rfl

theorem Laid.assemble (h : Laid store (blocks.map XorbBlock.shape) pos offset ts es) (hne : ts ≠ [])
    (hok : ∀ t ∈ ts, TermOk store t) {excess : ℕ} (hfi : ∀ t ∈ ts.head?, offset ≤ t.unpackedLength)
    (hl : (ts.dropLast.flatMap (termBytes store)).length + excess ≤ (ts.flatMap (termBytes store)).length)
    (hof : offset + excess ≤ (ts.flatMap (termBytes store)).length) :
    Reconstruction.assemble store ((es.modifyLast (shorten excess)).filterMap (fileTerm blocks)) =
      some (slice (ts.flatMap (termBytes store)) offset
        ((ts.flatMap (termBytes store)).length - excess)) := by
  induction h with
  | nil => exact absurd rfl hne
  | @cons pos offset t ts e es hr hs hp hre ih =>
    have hlen := (hok t (by simp)).length
    have hle := hfi t (by simp)
    cases hre with
    | nil =>
      rw [flatMap_singleton] at hof ⊢
      have hsi : offset + ((shorten excess e).byteRange.stop - (shorten excess e).byteRange.start) =
          (termBytes store t).length - excess := by
        simp only [shorten,hr]
        omega
      have hp' : Placed store (blocks.map XorbBlock.shape) t (shorten excess e) := ⟨hp.in_block⟩
      have ho : (shorten excess e).byteRange.start ≤ (shorten excess e).byteRange.stop := by
        simp only [shorten,hr]
        omega
      obtain ⟨f,hf,hpi⟩ := hp'.fileTerm (hok t (by simp)) ho (by
        rw [show (shorten excess e).offsetIntoFirstRange = offset from hs,hsi]
        omega)
      rw [show (shorten excess e).offsetIntoFirstRange = offset from hs,hsi] at hpi
      rw [modifyLast_singleton,assemble_cons_entry hf hpi rfl,append_nil]
    | @cons _ _ u us d ds hr' hs' hp' hre' =>
      rw [flatMap_cons,length_append] at hof ⊢
      rw [dropLast_cons_cons,flatMap_cons,flatMap_cons,length_append,length_append] at hl
      have hre := ih (by simp) (fun v hv => hok v (by simp [hv])) (by simp) (by omega) (by omega)
      have hsi : offset + (e.byteRange.stop - e.byteRange.start) = (termBytes store t).length := by
        rw [hr]
        simp only
        omega
      obtain ⟨f,hf,hpi⟩ := hp.fileTerm (hok t (by simp)) (by simp [hr]) (by rw [hs,hsi])
      rw [hs,hsi] at hpi
      rw [modifyLast_cons_cons,assemble_cons_entry hf hpi hre]
      have hri := slice_append_right (termBytes store t) ((u :: us).flatMap (termBytes store)) 0
        (((u :: us).flatMap (termBytes store)).length - excess)
      rw [Nat.add_zero] at hri
      rw [← hri,← slice_append_left ((u :: us).flatMap (termBytes store)) le_rfl,
        slice_append_slice _ (by omega) (by omega),Nat.add_sub_assoc (by omega)]

theorem Laid.stop_eq (h : Laid store shapes pos offset ts es)
    (hok : ∀ t ∈ ts, TermOk store t) (hf : ∀ t ∈ ts.head?, offset ≤ t.unpackedLength) :
    (es.getLast?.map (·.byteRange.stop)).getD pos = pos +
      ((ts.flatMap (termBytes store)).length - offset) := by
  induction h with
  | nil => simp
  | @cons pos offset t ts e es hra hs hp hr ih =>
    have hlen := (hok t (by simp)).length
    have hle := hf t (by simp)
    have hr' := ih (fun u hu => hok u (by simp [hu])) fun u _ => Nat.zero_le _
    have hl : ((e :: es).getLast?.map (·.byteRange.stop)).getD pos =
        (es.getLast?.map (·.byteRange.stop)).getD (pos + (t.unpackedLength - offset)) := by
      rw [getLast?_cons]
      cases es.getLast? with
      | none => simp [hra]
      | some d => rfl
    rw [hl,hr',flatMap_cons,length_append]
    omega

theorem Laid.start_eq (h : Laid store shapes pos offset ts es) (hne : ts ≠ [])
    (excess : ℕ) : ((es.modifyLast (shorten excess)).head?.map (·.byteRange.start)).getD 0 = pos := by
  cases h with
  | nil => exact absurd rfl hne
  | @cons _ _ _ _ e es hr hs hp hre =>
    cases es with
    | nil => simp [modifyLast_singleton,shorten,hr]
    | cons d ds => simp [modifyLast_cons_cons,hr]

theorem getLast?_modifyLast (f : α → α) (xs : List α) :
    (xs.modifyLast f).getLast? = xs.getLast?.map f := by
  rcases eq_nil_or_concat xs with rfl | ⟨ys,y,rfl⟩
  · simp [List.modifyLast,modifyLast.go]
  · simp [modifyLast_concat]

theorem Laid.stop_shorten (h : Laid store shapes pos offset ts es)
    (hne : ts ≠ []) (excess : ℕ) :
    ((es.modifyLast (shorten excess)).getLast?.map (·.byteRange.stop)).getD 0 =
      (es.getLast?.map (·.byteRange.stop)).getD pos - excess := by
  cases h with
  | nil => exact absurd rfl hne
  | @cons _ _ _ _ e es hr hs hp hre =>
    rw [getLast?_modifyLast,getLast?_cons]
    rfl

theorem Placed.byteRange {t : XorbReconstructionTerm H}
    (h : Placed store (blocks.map XorbBlock.shape) t e) :
    ∃ f, Reconstruction.fileTerm blocks e = some f ∧ f.byteRange = e.byteRange := by
  obtain ⟨rs,pre,post,hg,-⟩ := h.in_block
  rw [getElem?_map] at hg
  obtain ⟨b,hb,-⟩ := Option.map_eq_some_iff.mp hg
  exact ⟨_,by rw [Reconstruction.fileTerm,hb]; rfl,rfl⟩

theorem Laid.tiles (h : Laid store (blocks.map XorbBlock.shape) pos offset ts es) (hne : ts ≠ [])
    (excess : ℕ)
    (hle : ∀ f ∈ (es.modifyLast (shorten excess)).filterMap (fileTerm blocks),
      f.byteRange.start ≤ f.byteRange.stop) :
    Tiles pos (((es.modifyLast (shorten excess)).getLast?.map (·.byteRange.stop)).getD 0)
      (((es.modifyLast (shorten excess)).filterMap (fileTerm blocks)).map FileTerm.byteRange) := by
  induction h with
  | nil => exact absurd rfl hne
  | @cons pos offset t ts e es hr hs hp hre ih =>
    cases hre with
    | nil =>
      have hp' : Placed store (blocks.map XorbBlock.shape) t (shorten excess e) := ⟨hp.in_block⟩
      obtain ⟨f,hf,hb⟩ := hp'.byteRange
      rw [modifyLast_singleton,filterMap_cons_some hf] at hle ⊢
      exact ⟨by simp [hb,shorten,hr],hle f (by simp),congrArg Range.stop hb⟩
    | @cons _ _ u us d ds hr' hs' hp' hre' =>
      obtain ⟨f,hf,hb⟩ := hp.byteRange
      rw [modifyLast_cons_cons,filterMap_cons_some hf] at hle ⊢
      refine ⟨by simp [hb,hr],hle f (by simp),?_⟩
      have hti := ih (by simp) fun f hf => hle f (by simp [hf])
      simpa [hb,hr,getLast?_cons,getLast?_modifyLast] using hti

theorem modifyLast_shorten_zero (es : List FileTermEntry) : es.modifyLast (shorten 0) = es := by
  rcases eq_nil_or_concat es with rfl | ⟨ds,d,rfl⟩
  · simp [List.modifyLast,modifyLast.go]
  · rw [concat_eq_append,modifyLast_concat]
    rfl

theorem trimLast_eq (queryEnd : ℕ) (s : BlockState H) :
    trimLast queryEnd s = s.fileTermData.modifyLast (shorten (s.curFileByteOffset - queryEnd)) := by
  unfold trimLast
  split_ifs with hle
  · rfl
  · rw [Nat.sub_eq_zero_of_le (not_lt.mp hle),modifyLast_shorten_zero]

end Laid

variable [DecidableEq H] {getXorbFooter : H → Except (ClientError H) XorbObject}

section
variable {file : Bytes} {query : FileRange} (hlt : query.start < query.stop)
  (hin : query.start < file.length) {response : QueryReconstructionResponseV2 H}
  (hp : Planned store file ⟨query.start,min query.stop file.length⟩ response.offsetIntoFirstRange
    response.terms)
  (hf : Fetchable store response.terms (response.xorbs.map fun p => (p.1,fetchedRanges p.2)))
include hlt hin hp hf

theorem retrieveFileTermBlock_tiles (enableMultirange : Bool) :
    ∃ transfer terms, retrieveFileTermBlock enableMultirange query (some response) =
        .ok (some (⟨query.start,min query.stop file.length⟩,transfer,terms)) ∧
      assemble store terms = some (slice file query.start (min query.stop file.length)) ∧
      Tiles query.start (min query.stop file.length) (terms.map FileTerm.byteRange) := by
  obtain ⟨hok,hb,hc,hif,hfi,hla⟩ := hp
  simp only at hb hc hif hla
  have hne : response.terms ≠ [] := by
    intro hn
    rw [hn] at hc
    simp at hc
    omega
  let s₀ : BlockState H := { curFileByteOffset := query.start }
  have hta : TableOk enableMultirange response s₀ := fun h k i hi => absurd hi (by simp [s₀])
  have hle : ∀ t ∈ response.terms.head?, response.offsetIntoFirstRange ≤ t.unpackedLength :=
    fun t ht => (hfi t ht).le
  obtain ⟨s,es,hru,-,hd,hcu,hl⟩ := blockLoop_spec hf hok (fun t ht => ht) hta 0 hle
  have hd' : s.fileTermData = es := hd
  have hl' : Laid store (shapes s) query.start response.offsetIntoFirstRange response.terms es := hl
  have hs := hl'.stop_eq hok hle
  rw [show s₀.curFileByteOffset = query.start from rfl,hs] at hcu
  have hsh : (s.xorbBlocks.map sortReferences).map XorbBlock.shape = shapes s := map_map ..
  have hct : (response.terms.flatMap (termBytes store)).length - (s.curFileByteOffset - query.stop) =
      response.offsetIntoFirstRange + (min query.stop file.length - query.start) := by omega
  have hla' : (response.terms.dropLast.flatMap (termBytes store)).length +
    (s.curFileByteOffset - query.stop) ≤
      (response.terms.flatMap (termBytes store)).length := by omega
  have ha := Laid.assemble (hsh ▸ hl') hne hok hle hla' (by omega)
  rw [hct,← hb] at ha
  have hr : (⟨((trimLast query.stop s).head?.map (·.byteRange.start)).getD 0,
      ((trimLast query.stop s).getLast?.map (·.byteRange.stop)).getD 0⟩ : FileRange) =
      ⟨query.start,min query.stop file.length⟩ := by
    rw [trimLast_eq,hd',hl'.start_eq hne,hl'.stop_shorten hne,hs]
    congr 1
    omega
  refine ⟨(termBlock query.stop s).totalTransferBytes,(termBlock query.stop s).fileTerms,?_,?_⟩
  · have hru' := hru
    rw [retrieveFileTermBlock,planTermBlock,hru',← hr]
    rfl
  · have hst := congrArg Range.stop hr
    rw [trimLast_eq,hd'] at hst
    dsimp only at hst
    rw [termBlock,trimLast_eq,hd']
    exact ⟨ha,hst ▸ Laid.tiles (hsh ▸ hl') hne _ (assemble_ordered ha)⟩

end

/-- The server plans the range, the client plans the answer. -/
def planRange (getXorbFooter : H → Except (ClientError H) XorbObject) (version : ApiVersion)
    (enableMultirange : Bool) (fileInfo : MDBFileInfo H) (range : FileRange) :
    Except (FileReconstructionError H) (Option (FileRange × ℕ × List (FileTerm H))) :=
  match computeReconstructionRanges getXorbFooter fileInfo (some range) with
  | .error e => .error (.clientError e)
  | .ok ranges => retrieveFileTermBlock enableMultirange range (ranges.map (respond version))

omit [DecidableEq H] in
theorem fileBytes_length {es : List (FileDataSequenceEntry H)}
    (hes : ∀ e ∈ es, SegmentOk store getXorbFooter e) :
    (fileBytes store es).length = (es.map (·.unpackedSegmentBytes)).sum := by
  induction es with
  | nil => rfl
  | cons e es ih =>
    rw [fileBytes,List.flatMap_cons,List.length_append,segmentBytes_length (hes e (by simp)),
      List.map_cons,List.sum_cons,← ih fun f hf => hes f (by simp [hf])]
    rfl

theorem planRange_reads (fileInfo : MDBFileInfo H)
    (hsegments : ∀ e ∈ fileInfo.segments, SegmentOk store getXorbFooter e) (range : FileRange)
    (hlt : range.start < range.stop) (hin : range.start < fileInfo.fileSize) (enableMultirange : Bool)
    (version : ApiVersion) (hversion : version.Allowed) :
    ∃ transfer terms, planRange getXorbFooter version enableMultirange fileInfo range =
        .ok (some (⟨range.start,min range.stop fileInfo.fileSize⟩,transfer,terms)) ∧
      assemble store terms =
        some (slice (fileBytes store fileInfo.segments) range.start
          (min range.stop fileInfo.fileSize)) := by
  have hsize : (fileBytes store fileInfo.segments).length = fileInfo.fileSize :=
    fileBytes_length hsegments
  have hclip := lt_min hlt hin
  have hclip' : min range.stop fileInfo.fileSize ≤ (fileBytes store fileInfo.segments).length := by
    rw [hsize]
    exact min_le_right _ _
  obtain ⟨r,hrun,hne,hplan,hfetch⟩ := rangesIn_spec hsegments
    (show Range.start ⟨range.start,min range.stop fileInfo.fileSize⟩ <
      min range.stop fileInfo.fileSize from hclip) hclip'
  have hcompute : computeReconstructionRanges getXorbFooter fileInfo (some range) = .ok (some r) := by
    unfold computeReconstructionRanges
    dsimp only
    rw [if_neg (by omega),hrun]
    rfl
  have hoffset : (respond version r).offsetIntoFirstRange = r.offsetIntoFirstRange := by
    cases version <;> rfl
  have hterms : (respond version r).terms = r.terms := by cases version <;> rfl
  rw [← respond_ranges hversion hne,← hterms] at hfetch
  rw [← hterms,← hoffset] at hplan
  rw [planRange,hcompute]
  rw [← hsize] at hin hplan ⊢
  obtain ⟨transfer,terms,hr,ha,-⟩ := retrieveFileTermBlock_tiles hlt hin hplan hfetch enableMultirange
  exact ⟨transfer,terms,hr,ha⟩

def pairStore (hash : ℕ) : List (Chunk ℕ) :=
  if hash = 1 then [⟨10,[1,2]⟩,⟨11,[3]⟩,⟨12,[4,5,6]⟩] else [⟨20,[7]⟩,⟨21,[8,9]⟩]

def pairFooter (hash : ℕ) : Except (ClientError ℕ) XorbObject :=
  if hash = 1 then .ok ⟨[2,3,6],[5,9,15],3⟩ else .ok ⟨[1,3],[4,9],2⟩

/-- Segments that repeat and overlap chunks of the first xorb. -/
def pairFile : MDBFileInfo ℕ :=
  ⟨⟨0,4,false,false⟩,[⟨1,3,0,2⟩,⟨2,3,0,2⟩,⟨1,4,1,3⟩,⟨1,2,0,1⟩],[],none⟩

theorem pairFile_ok : ∀ e ∈ pairFile.segments, SegmentOk pairStore pairFooter e := by
  have ho : FooterOk ⟨[2,3,6],[5,9,15],3⟩ (pairStore 1) := ⟨by decide,rfl,rfl⟩
  have ht : FooterOk ⟨[1,3],[4,9],2⟩ (pairStore 2) := ⟨by decide,rfl,rfl⟩
  intro e he
  simp only [pairFile,mem_cons,not_mem_nil,or_false] at he
  rcases he with rfl | rfl | rfl | rfl
  · exact ⟨⟨⟨by decide,by decide⟩,by decide⟩,by decide,_,rfl,ho⟩
  · exact ⟨⟨⟨by decide,by decide⟩,by decide⟩,by decide,_,rfl,ht⟩
  · exact ⟨⟨⟨by decide,by decide⟩,by decide⟩,by decide,_,rfl,ho⟩
  · exact ⟨⟨⟨by decide,by decide⟩,by decide⟩,by decide,_,rfl,ho⟩

theorem planRange_reads_pair :
    ∃ transfer terms, planRange pairFooter (.v2 1) true pairFile ⟨1,8⟩ =
      .ok (some (⟨1,8⟩,transfer,terms)) ∧
      assemble pairStore terms = some [2,3,7,8,9,3,4] :=
  planRange_reads pairFile pairFile_ok ⟨1,8⟩ (by decide) (by decide) true (.v2 1) (le_refl 1)

end XetCore.Reconstruction
