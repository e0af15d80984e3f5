import XetCore.Dedup.Queries

/-! # Walking the batches of a file

A round of the walk takes an answer, refuses it, or finds none; in the last two
cases the chunk becomes new data. Every round keeps the invariant, hence so does a
batch, and so does every run of batches.
-/
namespace XetCore.Dedup.FileDeduper
open Merkle Chunking Extents List

variable {H S : Type} [DecidableEq H] {E : DedupEnv H S} {content : H → Bytes}
  {store : H → List (Chunk H)}
variable {ext : Bool} {n : ℕ} {d : FileDeduper H S} {chunks done : List (Chunk H)}

section Step

variable {blocks : List (Option (DedupAnswer H))}
  {s : ProcessState H S}
variable {fse : FileDataSequenceEntry H} {cs : List (Chunk H)}

/-- The same walk with other counters and another tracker. -/
abbrev ProcessState.retuned (s : ProcessState H S) (t : DefragPrevention)
    (m : DeduplicationMetrics) : ProcessState H S :=
  { s with deduper := { s.deduper with defragTracker := t }, dedupMetrics := m }

theorem processStep_cases (E : DedupEnv H S) (blocks : List (Option (DedupAnswer H)))
    (hlt : s.curIdx < chunks.length) :
    (∃ n fse ext t, dedupeQuery E (chunks.map (·.hash)) blocks s = some (n,fse,ext) ∧
      (s.deduper.allowsDedup E n fse).1 = true ∧ processStep E chunks blocks s =
        takeDeduped E n fse ext (s.retuned t (countDeduped s.dedupMetrics n fse.unpackedSegmentBytes))) ∨
    (∃ n fse ext t, dedupeQuery E (chunks.map (·.hash)) blocks s = some (n,fse,ext) ∧
      (s.deduper.allowsDedup E n fse).1 = false ∧
      processStep E chunks blocks s = addNewChunk E chunks[s.curIdx]
        (s.retuned t (countPrevented (countDeduped s.dedupMetrics n fse.unpackedSegmentBytes) n
          fse.unpackedSegmentBytes))) ∨
    (dedupeQuery E (chunks.map (·.hash)) blocks s = none ∧ processStep E chunks blocks s =
      addNewChunk E chunks[s.curIdx] (s.retuned s.deduper.defragTracker s.dedupMetrics)) := by
  unfold processStep
  simp only [getElem?_eq_getElem hlt]
  cases hq : dedupeQuery E (chunks.map (·.hash)) blocks s with
  | none => exact Or.inr (Or.inr ⟨rfl,rfl⟩)
  | some a =>
    obtain ⟨n,fse,ext⟩ := a
    obtain ⟨t,ht⟩ : ∃ t, (s.deduper.allowsDedup E n fse).2 = { s.deduper with defragTracker := t } := by
      unfold allowsDedup
      split <;> exact ⟨_,rfl⟩
    simp only [ht]
    cases ha : (s.deduper.allowsDedup E n fse).1 with
    | true => exact Or.inl ⟨n,fse,ext,t,rfl,ha,by simp⟩
    | false => exact Or.inr (Or.inl ⟨n,fse,ext,t,rfl,ha,by simp⟩)

theorem dedupeQuery_count (hb : BlocksSound E store (chunks.map (·.hash)) blocks)
    (h : dedupeQuery E (chunks.map (·.hash)) blocks s = some (n,fse,ext)) :
    0 < n ∧ n ≤ chunks.length - s.curIdx := by
  unfold dedupeQuery at h
  split at h
  · rename_i a ha
    obtain rfl : a = (n,fse,ext) := by simpa using h
    have hc := (hb _ _ _ _ ha).2
    have hle : n ≤ chunks.length - s.curIdx := by
      have hl := congrArg List.length hc.hashes_eq
      simp only [length_map,hc.ok.chunk_count,length_take,hc.stop,length_drop] at hl
      omega
    exact ⟨hc.pos,hle⟩
  · have hc := dedupQueryAgainstLocalData_count h
    simpa using hc

theorem Valid.query_covers (hb : BlocksSound E store (chunks.map (·.hash)) blocks)
    (hv : Valid E content store s.deduper cs)
    (h : dedupeQuery E (chunks.map (·.hash)) blocks s = some (n,fse,ext)) :
    Covers (s.deduper.source E store) ((chunks.drop s.curIdx).map (·.hash)) n fse := by
  unfold dedupeQuery at h
  rw [map_drop]
  split at h
  · rename_i a ha
    obtain rfl : a = (n,fse,ext) := by simpa using h
    obtain ⟨hm,hc⟩ := hb _ _ _ _ ha
    -- a stored xorb is read the same way next to the new data
    have hs : store fse.xorbHash <+: s.deduper.source E store fse.xorbHash := by
      simp [source,openSource,hm]
    obtain ⟨hok,hr⟩ := hc.ok.grow hs
    exact ⟨hc.pos,hok,hc.stop,by rw [hr,hc.hashes_eq]⟩
  · exact hv.local_covers h

/-- The chunks that an answer stands for, and their number of bytes. -/
theorem Valid.query_read (hI : SoundInterface E content store)
    (hb : BlocksSound E store (chunks.map (·.hash)) blocks) (hg : Genuine content chunks)
    (hv : Valid E content store s.deduper cs)
    (h : dedupeQuery E (chunks.map (·.hash)) blocks s = some (n,fse,ext)) :
    EntryOk (s.deduper.source E store) fse ∧
    fse.read (s.deduper.source E store) = (chunks.drop s.curIdx).take n := by
  have hc := hv.query_covers hb h
  refine ⟨hc.ok,hc.read_eq ?_ fun c hm => hg c (mem_of_mem_drop hm)⟩
  unfold source openSource
  split
  · exact hv.genuine
  · exact hI.genuine _

structure Frame (d d' : FileDeduper H S) : Prop where
  chunkHashes : d'.chunkHashes = d.chunkHashes
  metrics : d'.deduplicationMetrics = d.deduplicationMetrics
  registered : d.dataMng.registeredXorbs <+: d'.dataMng.registeredXorbs

omit [DecidableEq H] in
theorem Frame.trans {d' d'' : FileDeduper H S} (h : Frame d d') (h' : Frame d' d'') : Frame d d'' :=
  ⟨h'.chunkHashes.trans h.chunkHashes,h'.metrics.trans h.metrics,h.registered.trans h'.registered⟩

theorem addEntry_eq (d : FileDeduper H S) (fse : FileDataSequenceEntry H) (n : ℕ) :
    ∃ es refs t, d.addFileDataSequenceEntry E fse n =
      { d with fileInfo := es, internallyReferencingEntries := refs, defragTracker := t } := by
  unfold addFileDataSequenceEntry
  split <;> exact ⟨_,_,_,rfl⟩

theorem addEntry_frame (d : FileDeduper H S) (fse : FileDataSequenceEntry H) (n : ℕ) :
    Frame d (d.addFileDataSequenceEntry E fse n) := by
  obtain ⟨es,refs,t,h⟩ := addEntry_eq d fse n
  rw [h]
  exact ⟨rfl,rfl,prefix_refl _⟩

omit [DecidableEq H] in
theorem cutIfFull_frame (n : ℕ) (s : ProcessState H S) : Frame s.deduper (cutIfFull E n s).deduper := by
  unfold cutIfFull
  simp only
  split
  · exact ⟨rfl,rfl,List.prefix_append _ _⟩
  · exact ⟨rfl,rfl,List.prefix_refl _⟩

theorem addNewChunk_frame (chunk : Chunk H) (s : ProcessState H S) :
    Frame s.deduper (addNewChunk E chunk s).deduper := by
  have hc := cutIfFull_frame (E := E) chunk.data.length
    { s with dedupMetrics := countNew s.dedupMetrics chunk.data.length }
  refine hc.trans ?_
  simp only [addNewChunk,extendNewData_eq]
  have ha := addEntry_frame (E := E)
    (cutIfFull E chunk.data.length
      { s with dedupMetrics := countNew s.dedupMetrics chunk.data.length }).deduper
  exact ⟨(ha _ 1).chunkHashes,(ha _ 1).metrics,(ha _ 1).registered⟩

theorem Valid.cutIfFull (hv : Valid E content store s.deduper cs) (n : ℕ)
    (hst : Stored E.marker store (cutIfFull E n s).deduper.dataMng.registeredXorbs) :
    Valid E content store (cutIfFull E n s).deduper cs := by
  unfold FileDeduper.cutIfFull at hst ⊢
  simp only at hst ⊢
  split_ifs at hst with hf
  · rw [if_pos hf]
    have hx := hst (s.deduper.cutNewXorb E).1 (by simp [DataManager.registerNewXorb])
    exact (hv.cut hx.1 hx.2).congr rfl rfl rfl rfl rfl
  · rw [if_neg hf]
    exact hv

theorem Valid.addNewChunk {chunk : Chunk H} (hv : Valid E content store s.deduper cs)
    (hg : chunk.data = content chunk.hash)
    (hst : Stored E.marker store (addNewChunk E chunk s).deduper.dataMng.registeredXorbs) :
    Valid E content store (addNewChunk E chunk s).deduper (cs ++ [chunk]) := by
  have hf := addEntry_frame (E := E)
    (FileDeduper.cutIfFull E chunk.data.length
      { s with dedupMetrics := countNew s.dedupMetrics chunk.data.length }).deduper
  simp only [FileDeduper.addNewChunk,extendNewData_eq] at hst
  have hc := Valid.cutIfFull (s := { s with dedupMetrics := countNew s.dedupMetrics chunk.data.length })
    (hv.congr rfl rfl rfl rfl rfl) chunk.data.length (hst.of_prefix (hf _ 1).registered)
  exact hc.addChunk hg

end Step

section Run

variable {blocks : List (Option (DedupAnswer H))}
  {s : ProcessState H S} {m : DeduplicationMetrics} {t : DefragPrevention}

/-- After `curIdx` chunks of a batch, if the xorbs cut so far are stored. -/
structure WalkInv (E : DedupEnv H S) (content : H → Bytes) (store : H → List (Chunk H))
    (d : FileDeduper H S) (done chunks : List (Chunk H)) (s : ProcessState H S) : Prop where
  le : s.curIdx ≤ chunks.length
  frame : Frame d s.deduper
  valid : Stored E.marker store s.deduper.dataMng.registeredXorbs →
    Valid E content store s.deduper (done ++ chunks.take s.curIdx)

omit [DecidableEq H] in
theorem cutIfFull_curIdx (n : ℕ) (s : ProcessState H S) : (cutIfFull E n s).curIdx = s.curIdx := by
  unfold cutIfFull
  simp only
  split <;> rfl

theorem addNewChunk_curIdx (c : Chunk H) (s : ProcessState H S) (t : DefragPrevention)
    (m : DeduplicationMetrics) :
    (addNewChunk E c (s.retuned t m)).curIdx = s.curIdx + 1 := by
  simp [addNewChunk,cutIfFull_curIdx]

theorem WalkInv.addNewChunk (h : WalkInv E content store d done chunks s) (hg : Genuine content chunks)
    (hlt : s.curIdx < chunks.length) :
    WalkInv E content store d done chunks (addNewChunk E chunks[s.curIdx] (s.retuned t m)) := by
  have hid := addNewChunk_curIdx (E := E) chunks[s.curIdx] s t m
  have hf := addNewChunk_frame (E := E) chunks[s.curIdx] (s.retuned t m)
  refine ⟨hid.trans_le hlt,h.frame.trans { hf with },?_⟩
  intro hst
  have hv := h.valid (hst.of_prefix hf.registered)
  have hn := Valid.addNewChunk (s := s.retuned t m) (hv.congr rfl rfl rfl rfl rfl)
    (hg _ (getElem_mem hlt)) hst
  rw [hid,take_succ_eq_append_getElem hlt,← append_assoc]
  exact hn

section
variable (hI : SoundInterface E content store) (hb : BlocksSound E store (chunks.map (·.hash)) blocks)
  (hg : Genuine content chunks) (h : WalkInv E content store d done chunks s)
include hI hb hg h

theorem WalkInv.takeDeduped {fse : FileDataSequenceEntry H}
    (hq : dedupeQuery E (chunks.map (·.hash)) blocks s = some (n,fse,ext)) :
    WalkInv E content store d done chunks (takeDeduped E n fse ext (s.retuned t m)) := by
  have hn := dedupeQuery_count hb hq
  have hf := addEntry_frame (E := E) (s.retuned t m).deduper fse n
  refine ⟨by simp only [FileDeduper.takeDeduped]; omega,h.frame.trans { hf with },?_⟩
  intro hst
  have hv := h.valid (hst.of_prefix hf.registered)
  obtain ⟨hok,hr⟩ := hv.query_read hI hb hg hq
  have ha := Valid.addEntry (d := (s.retuned t m).deduper) (hv.congr rfl rfl rfl rfl rfl) hok n
  simp only [FileDeduper.takeDeduped]
  rw [take_add,← append_assoc,← hr]
  exact ha

theorem WalkInv.step (hlt : s.curIdx < chunks.length) :
    WalkInv E content store d done chunks (processStep E chunks blocks s) := by
  rcases processStep_cases E blocks hlt with ⟨n,fse,ext,t,hq,-,hs⟩ | ⟨n,fse,ext,t,-,-,hs⟩ | ⟨-,hs⟩
  · exact hs ▸ h.takeDeduped hI hb hg hq
  · exact hs ▸ h.addNewChunk hg hlt
  · exact hs ▸ h.addNewChunk hg hlt

end

theorem curIdx_lt_processStep (hb : BlocksSound E store (chunks.map (·.hash)) blocks)
    (hlt : s.curIdx < chunks.length) : s.curIdx < (processStep E chunks blocks s).curIdx := by
  rcases processStep_cases E blocks hlt with ⟨n,fse,ext,t,hq,-,hs⟩ | ⟨n,fse,ext,t,-,-,hs⟩ | ⟨-,hs⟩
  · have hn := (dedupeQuery_count hb hq).1
    rw [hs]
    simp only [FileDeduper.takeDeduped]
    omega
  · rw [hs,addNewChunk_curIdx]
    exact Nat.lt_succ_self _
  · rw [hs,addNewChunk_curIdx]
    exact Nat.lt_succ_self _

theorem processLoop_inv (hI : SoundInterface E content store)
    (hb : BlocksSound E store (chunks.map (·.hash)) blocks) (hg : Genuine content chunks)
    (h : WalkInv E content store d done chunks s) :
    WalkInv E content store d done chunks (processLoop E chunks blocks s) ∧
      (processLoop E chunks blocks s).curIdx = chunks.length := by
  have hst : ∀ s : ProcessState H S, decide (s.curIdx < chunks.length) = true →
      WalkInv E content store d done chunks s →
        WalkInv E content store d done chunks (processStep E chunks blocks s) :=
    fun s hlt hs => hs.step hI hb hg (by simpa using hlt)
  have hr : WalkInv E content store d done chunks (processLoop E chunks blocks s) :=
    WhileLoop.run_invariant hst h
  have he : decide ((processLoop E chunks blocks s).curIdx < chunks.length) = false := by
    refine WhileLoop.run_exits (fun s => chunks.length - s.curIdx) hst ?_ h (by omega)
    intro s hlt _
    have hlt : s.curIdx < chunks.length := by simpa using hlt
    have := curIdx_lt_processStep hb hlt
    omega
  have hle := hr.le
  simp only [decide_eq_false_iff_not] at he
  exact ⟨hr,by omega⟩

end Run

section Batches

variable {batches : List (List (Chunk H))}

/-- After whole batches the chunk hashes of the file are complete too. -/
structure FileInv (E : DedupEnv H S) (content : H → Bytes) (store : H → List (Chunk H))
    (d : FileDeduper H S) (chunks : List (Chunk H)) : Prop where
  hashes : d.chunkHashes = chunks.map chunkNode
  valid : Stored E.marker store d.dataMng.registeredXorbs → Valid E content store d chunks

theorem startWalk_inv (hI : SoundInterface E content store)
    (hv : Stored E.marker store d.dataMng.registeredXorbs → Valid E content store d done)
    (chunks : List (Chunk H)) :
    WalkInv E content store d done chunks (startWalk (queryPasses E d (chunks.map (·.hash)))) := by
  obtain ⟨state,next,hd⟩ := (queryPasses_inv hI d (chunks.map (·.hash))).deduper
  refine ⟨Nat.zero_le _,?_,?_⟩
  · simp only [startWalk,hd]
    exact ⟨rfl,rfl,prefix_refl _⟩
  · simp only [startWalk,hd,take_zero,append_nil]
    intro hst
    exact (hv hst).congr rfl rfl rfl rfl rfl

def walked (E : DedupEnv H S) (d : FileDeduper H S) (chunks : List (Chunk H)) : ProcessState H S :=
  let q := queryPasses E d (chunks.map (·.hash))
  processLoop E chunks q.dedupedBlocks (startWalk q)

theorem walked_inv (hI : SoundInterface E content store) (hg : Genuine content chunks)
    (hv : Stored E.marker store d.dataMng.registeredXorbs → Valid E content store d done) :
    WalkInv E content store d done chunks (walked E d chunks) ∧
    (walked E d chunks).curIdx = chunks.length :=
  processLoop_inv hI (queryPasses_inv hI d _).blocks hg (startWalk_inv hI hv chunks)

theorem processChunks_registered (d : FileDeduper H S) (chunks : List (Chunk H)) :
    (d.processChunks E chunks).2.dataMng.registeredXorbs =
      (walked E d chunks).deduper.dataMng.registeredXorbs := by
  simp only [processChunks]
  split <;> rfl

theorem FileInv.processChunks (hI : SoundInterface E content store) (hg : Genuine content chunks)
    (h : FileInv E content store d done) :
    FileInv E content store (d.processChunks E chunks).2 (done ++ chunks) := by
  obtain ⟨hw,he⟩ := walked_inv hI hg h.valid
  refine ⟨?_,?_⟩
  · rw [map_append,← h.hashes,← hw.frame.chunkHashes]
    rfl
  · intro hst
    rw [processChunks_registered] at hst
    have hv := hw.valid hst
    rw [he,take_length] at hv
    exact hv.congr rfl rfl rfl rfl rfl

theorem FileInv.processBatches (hI : SoundInterface E content store)
    (hg : Genuine content batches.flatten) (h : FileInv E content store d done) :
    FileInv E content store (d.processBatches E batches) (done ++ batches.flatten) := by
  induction batches generalizing d done with
  | nil => simpa [FileDeduper.processBatches] using h
  | cons b bs ih =>
    obtain ⟨hb,hbs⟩ := hg.of_cons
    have hn := ih hbs (h.processChunks hI hb)
    simpa [FileDeduper.processBatches] using hn

theorem fileInv_new (state : S) (fileId : ℕ) : FileInv E content store (new state fileId) [] :=
  ⟨rfl,fun _ => valid_new state fileId⟩

theorem fileInv_processBatches (hI : SoundInterface E content store) (state : S) (fileId : ℕ)
    (hg : Genuine content batches.flatten) :
    FileInv E content store ((new state fileId).processBatches E batches) batches.flatten := by
  simpa using (fileInv_new state fileId).processBatches hI hg

end Batches

omit [DecidableEq H] in
theorem verificationFrom_eq {source : H → List (Chunk H)} {es : List (FileDataSequenceEntry H)}
    (hok : ∀ e ∈ es, EntryOk source e) (pre : List (Node H)) :
    verificationFrom E (pre ++ (es.flatMap (·.read source)).map chunkNode) pre.length es =
      es.map (fun e => E.rangeHashFromChunks ((e.read source).map (·.hash))) := by
  induction es generalizing pre with
  | nil => rfl
  | cons e es ih =>
    have hn := (hok e (by simp)).chunk_count
    have hr := ih (fun f hf => hok f (by simp [hf])) (pre ++ (e.read source).map chunkNode)
    rw [List.length_append,List.length_map,hn,List.append_assoc,← List.map_append,
      ← List.flatMap_cons] at hr
    rw [verificationFrom,hr,List.drop_left,List.flatMap_cons,List.map_append,
      List.take_append_of_le_length (by simp [hn]),List.take_of_length_le
        (by simp [hn]),List.map_cons,List.map_map]
    rfl

theorem FileInv.verification_eq {d : FileDeduper H S} {cs : List (Chunk H)}
    (h : FileInv E content store d cs)
    (hst : Stored E.marker store d.dataMng.registeredXorbs) :
    verificationFrom E d.chunkHashes 0 d.fileInfo =
      d.fileInfo.map (fun e => E.rangeHashFromChunks ((e.read (d.source E store)).map (·.hash))) := by
  have hd := (h.valid hst).denotes
  have hv := verificationFrom_eq (E := E) hd.ok []
  rwa [hd.chunks_eq,nil_append,← h.hashes] at hv

/-- For every run of batches the entries denote the file, with the cut xorbs under their hashes and
the new data under the marker; the markers are where they are listed; and the finished file has one
verification entry for each segment, over the chunk hashes of the segment. -/
theorem processBatches_denotes (hI : SoundInterface E content store) (state : S) (fileId : ℕ)
    (batches : List (List (Chunk H))) (hg : Genuine content batches.flatten)
    (hst : Stored E.marker store ((new state fileId).processBatches E batches).dataMng.registeredXorbs) :
    let d := (new state fileId).processBatches E batches
    Denotes (d.source E store) d.fileInfo batches.flatten ∧
    d.internallyReferencingEntries = markerIndices E.marker d.fileInfo ∧
    ∀ ext, ∃ fi, (d.finalize E ext).2.2.1.pendingFileInfo =
      [(fi,d.internallyReferencingEntries,d.fileId)] ∧
      fi.segments = d.fileInfo ∧
      fi.verification = d.fileInfo.map
        (fun e => E.rangeHashFromChunks ((e.read (d.source E store)).map (·.hash))) := by
  intro d
  have hinv := fileInv_processBatches hI state fileId hg
  have hv := hinv.valid hst
  exact ⟨hv.denotes,hv.markers,fun ext => ⟨_,rfl,rfl,hinv.verification_eq hst⟩⟩

def smallContent (h : ℕ) : Bytes := [UInt8.ofNat h]

def smallChunk (h : ℕ) : Chunk ℕ := ⟨h,smallContent h⟩

def smallHasher : NodeHasher ℕ where
  isNaturalCut _ := false
  internalNodeHash nodes := nodes.foldl (fun acc n => 5 * acc + n.1) 1
  hmac h _ := h
  default := 0

/-- Xorb 900 holds chunk 7 and xorb 901 holds chunk 8; xorb 32 is made of the chunks 1 and 2. -/
def smallStore (x : ℕ) : List (Chunk ℕ) :=
  if x = 900 then [smallChunk 7] else if x = 901 then [smallChunk 8]
    else if x = 32 then [smallChunk 1,smallChunk 2]
  else []

/-- Knows the chunks 7 and 8. Averages are compared with 4 and 8 chunks for each range. -/
def smallEnv (nranges maxXorbChunks : ℕ) : DedupEnv ℕ Unit where
  hasher := smallHasher
  rangeHashFromChunks := List.sum
  marker := 999
  hashIsGlobalDedupEligible _ := false
  constants := { maxXorbChunks := maxXorbChunks }
  defrag :=
    { nrangesInStreamingFragmentationEstimator := nranges
      belowTarget := fun low chunks ranges => chunks < (if low then 4 else 8) * ranges
      smallerThanAverage := fun n chunks ranges => n * ranges < chunks }
  interface :=
    { chunkHashDedupQuery := fun _ hashes =>
        (match hashes with
          | 7 :: _ => some (1,⟨900,1,0,1⟩,true)
          | 8 :: _ => some (1,⟨901,1,0,1⟩,true)
          | _ => none,())
      registerGlobalDedupQuery := fun _ _ => ()
      completeGlobalDedupQueries := fun _ => (false,())
      registerNewXorb := fun _ _ => ()
      registerXorbDependencies := fun _ _ => () }

theorem smallEnv_sound (nranges maxXorbChunks : ℕ) :
    SoundInterface (smallEnv nranges maxXorbChunks) smallContent smallStore := by
  have hr : ∀ (x y : ℕ) (hashes : List ℕ), smallStore x = [smallChunk y] → x ≠ 999 →
      x ≠ 999 ∧ Covers smallStore (y :: hashes) 1 ⟨x,1,0,1⟩ := by
    intro x y hashes hx hm
    refine ⟨hm,by decide,⟨⟨by simp [FileDataSequenceEntry.extent],?_⟩,?_⟩,rfl,?_⟩ <;>
      simp [FileDataSequenceEntry.extent,FileDataSequenceEntry.read,Extent.read,slice,hx,
        byteCount,smallChunk,smallContent]
  refine ⟨?_,?_⟩
  · intro x c hc
    simp only [smallStore] at hc
    split at hc
    · obtain rfl := mem_singleton.mp hc
      rfl
    · split at hc
      · obtain rfl := mem_singleton.mp hc
        rfl
      · split at hc
        · rcases mem_pair.mp hc with rfl | rfl <;> rfl
        · simp at hc
  · intro s hashes n fse up hq
    simp only [smallEnv] at hq
    split at hq
    · obtain ⟨rfl,rfl,-⟩ : 1 = n ∧ _ = fse ∧ true = up := by simpa using hq
      exact hr 900 7 _ rfl (by decide)
    · obtain ⟨rfl,rfl,-⟩ : 1 = n ∧ _ = fse ∧ true = up := by simpa using hq
      exact hr 901 8 _ rfl (by decide)
    · simp at hq

/-- A file with a stored chunk, a chunk that repeats new data, and a xorb cut between them. -/
theorem processBatches_denotes_small :
    let d := (new () 0).processBatches (smallEnv 128 2) [[smallChunk 1,smallChunk 7,smallChunk 2],
      [smallChunk 1,smallChunk 3]]
    Denotes (d.source (smallEnv 128 2) smallStore) d.fileInfo
      [smallChunk 1,smallChunk 7,smallChunk 2,smallChunk 1,smallChunk 3] :=
  (processBatches_denotes (smallEnv_sound 128 2) () 0
    [[smallChunk 1,smallChunk 7,smallChunk 2],[smallChunk 1,smallChunk 3]]
    (by unfold Genuine; decide +kernel) (by unfold Stored; decide +kernel)).1

end XetCore.Dedup.FileDeduper
