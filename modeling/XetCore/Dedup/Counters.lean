import XetCore.Dedup.Walk

/-! # The counters of a file

An answer is counted before it is taken. When the fragmentation refuses it, its chunks are
counted again as new data, so the totals are right exactly when the walk over the batches
refuses nothing.
-/
namespace XetCore.Dedup.FileDeduper
open Merkle Chunking Extents List

variable {H S : Type} [DecidableEq H] {E : DedupEnv H S} {content : H → Bytes}
  {store : H → List (Chunk H)}
variable {d : FileDeduper H S} {chunks done : List (Chunk H)}

/-- The totals are those of the chunks and of the refused answers. -/
structure Counted (m : DeduplicationMetrics) (chunks : List (Chunk H)) : Prop where
  totalChunks : m.totalChunks = chunks.length + m.defragPreventedDedupChunks
  totalBytes : m.totalBytes = byteCount chunks + m.defragPreventedDedupBytes
  sum : m.totalBytes = m.newBytes + m.dedupedBytes
  refused : m.defragPreventedDedupChunks = 0 → m.defragPreventedDedupBytes = 0

section Counts
omit [DecidableEq H]
variable {m m' : DeduplicationMetrics} {cs ds : List (Chunk H)}

theorem counted_nil (c b : ℕ) :
    Counted ({ dedupedChunksByGlobalDedup := c, dedupedBytesByGlobalDedup := b } : DeduplicationMetrics)
      ([] : List (Chunk H)) :=
  ⟨rfl,rfl,rfl,fun _ => rfl⟩

theorem Counted.deduped (h : Counted m cs) {n : ℕ} (hn : ds.length = n) :
    Counted (countDeduped m n (byteCount ds)) (cs ++ ds) := by
  obtain ⟨h1,h2,h3,h0⟩ := h
  refine ⟨?_,?_,?_,?_⟩ <;> (simp only [countDeduped,length_append,byteCount_append]; omega)

theorem Counted.prevented (h : Counted m cs) {n : ℕ} (hn : 0 < n) (b : ℕ) :
    Counted (countPrevented (countDeduped m n b) n b) cs := by
  obtain ⟨h1,h2,h3,h0⟩ := h
  refine ⟨?_,?_,?_,?_⟩ <;> (simp only [countPrevented,countDeduped]; omega)

theorem Counted.new (h : Counted m cs) (c : Chunk H) :
    Counted (countNew m c.data.length) (cs ++ [c]) := by
  obtain ⟨h1,h2,h3,h0⟩ := h
  have ho : byteCount [c] = c.data.length := by simp [byteCount]
  refine ⟨?_,?_,?_,?_⟩ <;>
    (simp only [countNew,length_append,length_singleton,byteCount_append]; omega)

theorem Counted.mergeIn (h : Counted m cs) (h' : Counted m' ds) : Counted (m.mergeIn m') (cs ++ ds) := by
  obtain ⟨h1,h2,h3,h0⟩ := h
  obtain ⟨h4,h5,h6,h0'⟩ := h'
  refine ⟨?_,?_,?_,?_⟩ <;> (simp only
    [DeduplicationMetrics.mergeIn,length_append,byteCount_append]; omega)

end Counts

section Walk
variable {blocks : List (Option (DedupAnswer H))}
  {s : ProcessState H S}

def refuses (E : DedupEnv H S) (chunks : List (Chunk H)) (blocks : List (Option (DedupAnswer H)))
    (s : ProcessState H S) : Bool :=
  match dedupeQuery E (chunks.map (·.hash)) blocks s with
  | some (n,fse,_) => !(s.deduper.allowsDedup E n fse).1
  | none => false

omit [DecidableEq H] in
theorem cutIfFull_metrics (n : ℕ) (s : ProcessState H S) :
    (cutIfFull E n s).dedupMetrics = s.dedupMetrics := by
  unfold cutIfFull
  simp only
  split <;> rfl

theorem addNewChunk_metrics (c : Chunk H) (s : ProcessState H S) (t : DefragPrevention)
    (m : DeduplicationMetrics) :
    (addNewChunk E c (s.retuned t m)).dedupMetrics = countNew m c.data.length := by
  simp [addNewChunk,cutIfFull_metrics]

/-- The counters of the batch, on top of the invariant of the walk. -/
structure CountInv (E : DedupEnv H S) (content : H → Bytes) (store : H → List (Chunk H))
    (d : FileDeduper H S) (done chunks : List (Chunk H)) (s : ProcessState H S) : Prop where
  walk : WalkInv E content store d done chunks s
  counted : Stored E.marker store s.deduper.dataMng.registeredXorbs →
    Counted s.dedupMetrics (chunks.take s.curIdx)

theorem CountInv.step (hI : SoundInterface E content store)
    (hb : BlocksSound E store (chunks.map (·.hash)) blocks) (hg : Genuine content chunks)
    (h : CountInv E content store d done chunks s) (hlt : s.curIdx < chunks.length) :
    CountInv E content store d done chunks (processStep E chunks blocks s) := by
  refine ⟨h.walk.step hI hb hg hlt,?_⟩
  rcases processStep_cases E blocks hlt with ⟨n,fse,ext,t,hq,-,hs⟩ | ⟨n,fse,ext,t,hq,-,hs⟩ | ⟨-,hs⟩
  · rw [hs]
    intro hst
    have hst' := hst.of_prefix (addEntry_frame (s.retuned t _).deduper fse n).registered
    obtain ⟨hok,hr⟩ := (h.walk.valid hst').query_read hI hb hg hq
    have hn := (dedupeQuery_count hb hq).2
    have hlen : ((chunks.drop s.curIdx).take n).length = n := by
      rw [length_take,length_drop]
      omega
    simp only [takeDeduped]
    rw [take_add,hok.bytes,hr]
    exact (h.counted hst').deduped hlen
  · rw [hs,addNewChunk_metrics,addNewChunk_curIdx,take_succ_eq_append_getElem hlt]
    intro hst
    have hst' := hst.of_prefix (addNewChunk_frame _ _).registered
    exact ((h.counted hst').prevented (dedupeQuery_count hb hq).1 fse.unpackedSegmentBytes).new _
  · rw [hs,addNewChunk_metrics,addNewChunk_curIdx,take_succ_eq_append_getElem hlt]
    intro hst
    exact (h.counted (hst.of_prefix (addNewChunk_frame _ _).registered)).new _

theorem prevented_processStep (hb : BlocksSound E store (chunks.map (·.hash)) blocks)
    (hlt : s.curIdx < chunks.length) :
    (refuses E chunks blocks s = false →
      (processStep E chunks blocks s).dedupMetrics.defragPreventedDedupChunks =
      s.dedupMetrics.defragPreventedDedupChunks) ∧
    (¬refuses E chunks blocks s = false → s.dedupMetrics.defragPreventedDedupChunks <
      (processStep E chunks blocks s).dedupMetrics.defragPreventedDedupChunks) := by
  rcases processStep_cases E blocks hlt with ⟨n,fse,ext,t,hq,ha,hs⟩ | ⟨n,fse,ext,t,hq,ha,hs⟩ | ⟨hq,hs⟩
  · simp [hs,refuses,hq,ha,takeDeduped,countDeduped]
  · have hn := (dedupeQuery_count hb hq).1
    rw [hs,addNewChunk_metrics]
    simp [refuses,hq,ha,countPrevented,countDeduped,countNew,hn]
  · rw [hs,addNewChunk_metrics]
    simp [refuses,hq,countNew]

end Walk

/-- No round of the walk over the batch refuses an answer. -/
def AcceptsBatch (E : DedupEnv H S) (d : FileDeduper H S) (chunks : List (Chunk H)) : Prop :=
  let q := queryPasses E d (chunks.map (·.hash))
  WhileLoop.Always (fun s : ProcessState H S => s.curIdx < chunks.length)
    (processStep E chunks q.dedupedBlocks)
    (fun s => refuses E chunks q.dedupedBlocks s = false) chunks.length (startWalk q)

def NeverRefuses (E : DedupEnv H S) : FileDeduper H S → List (List (Chunk H)) → Prop
  | _, [] => True
  | d, b :: bs => AcceptsBatch E d b ∧ NeverRefuses E (d.processChunks E b).2 bs

instance (d : FileDeduper H S) (chunks : List (Chunk H)) : Decidable (AcceptsBatch E d chunks) :=
  WhileLoop.Always.decidable _ _ _ _ _

instance NeverRefuses.decidable : ∀ (d : FileDeduper H S) batches, Decidable (NeverRefuses E d batches)
  | _, [] => inferInstanceAs (Decidable True)
  | d, b :: bs =>
    haveI := NeverRefuses.decidable (d.processChunks E b).2 bs
    inferInstanceAs (Decidable (AcceptsBatch E d b ∧ NeverRefuses E (d.processChunks E b).2 bs))

section
variable (hI : SoundInterface E content store)
include hI

theorem processChunks_counted (hg : Genuine content chunks)
    (hv : Stored E.marker store d.dataMng.registeredXorbs → Valid E content store d done)
    (hst : Stored E.marker store (d.processChunks E chunks).2.dataMng.registeredXorbs) :
    Counted (d.processChunks E chunks).1 chunks := by
  let q := queryPasses E d (chunks.map (·.hash))
  have hq : QueryInv E store (chunks.map (·.hash)) d q := queryPasses_inv hI d _
  have hsr : CountInv E content store d done chunks (startWalk q) := by
    refine ⟨startWalk_inv hI hv chunks,fun _ => ?_⟩
    obtain ⟨c,b,hm⟩ := hq.metrics
    simp only [startWalk,hm]
    exact counted_nil c b
  have hr : CountInv E content store d done chunks (walked E d chunks) :=
    WhileLoop.run_invariant (fun s hlt hs => hs.step hI hq.blocks hg (by simpa using hlt)) hsr
  rw [processChunks_registered] at hst
  have hc := hr.counted hst
  rwa [(walked_inv hI hg hv).2,take_length] at hc

theorem acceptsBatch_iff (d : FileDeduper H S) (chunks : List (Chunk H)) :
    AcceptsBatch E d chunks ↔ (d.processChunks E chunks).1.defragPreventedDedupChunks = 0 := by
  let q := queryPasses E d (chunks.map (·.hash))
  have hq : QueryInv E store (chunks.map (·.hash)) d q := queryPasses_inv hI d _
  have hz : (startWalk q).dedupMetrics.defragPreventedDedupChunks = 0 := by
    obtain ⟨c,b,hm⟩ := hq.metrics
    simp [startWalk,hm]
  rw [← hz]
  exact WhileLoop.always_iff_counter (P := fun _ => True)
    (fun s : ProcessState H S => s.dedupMetrics.defragPreventedDedupChunks) (fun _ _ _ => trivial)
    (fun s hlt _ => (prevented_processStep hq.blocks (by simpa using hlt)).1)
    (fun s hlt _ => (prevented_processStep hq.blocks (by simpa using hlt)).2) trivial

section
variable (hg : Genuine content chunks)
  (hv : Stored E.marker store d.dataMng.registeredXorbs → Valid E content store d done)
include hg hv

theorem processChunks_metrics : (d.processChunks E chunks).2.deduplicationMetrics =
      d.deduplicationMetrics.mergeIn (d.processChunks E chunks).1 := by
  rw [← (walked_inv hI hg hv).1.frame.metrics]
  rfl

end

section
variable {batches : List (List (Chunk H))} (hg : Genuine content batches.flatten)
  (h : FileInv E content store d done)
include hg h

theorem processBatches_counted
    (hc : Stored E.marker store d.dataMng.registeredXorbs → Counted d.deduplicationMetrics done)
    (hst : Stored E.marker store (d.processBatches E batches).dataMng.registeredXorbs) :
    Counted (d.processBatches E batches).deduplicationMetrics (done ++ batches.flatten) := by
  induction batches generalizing d done with
  | nil => simpa [processBatches] using hc hst
  | cons b bs ih =>
    obtain ⟨hb,hbs⟩ := hg.of_cons
    have hco : Stored E.marker store (d.processChunks E b).2.dataMng.registeredXorbs →
        Counted (d.processChunks E b).2.deduplicationMetrics (done ++ b) := by
      intro hs
      rw [processChunks_metrics hI hb h.valid]
      exact (hc (hs.of_prefix (by
        rw [processChunks_registered]
        exact (walked_inv hI hb h.valid).1.frame.registered))).mergeIn
        (processChunks_counted hI hb h.valid hs)
    have hr := ih hbs (h.processChunks hI hb) hco hst
    simpa [processBatches] using hr

theorem neverRefuses_iff : d.deduplicationMetrics.defragPreventedDedupChunks ≤
      (d.processBatches E batches).deduplicationMetrics.defragPreventedDedupChunks ∧
    (NeverRefuses E d batches ↔
      (d.processBatches E batches).deduplicationMetrics.defragPreventedDedupChunks =
      d.deduplicationMetrics.defragPreventedDedupChunks) := by
  induction batches generalizing d done with
  | nil => simp [processBatches,NeverRefuses]
  | cons b bs ih =>
    obtain ⟨hb,hbs⟩ := hg.of_cons
    obtain ⟨hle,hif⟩ := ih hbs (h.processChunks hI hb)
    have hm := congrArg DeduplicationMetrics.defragPreventedDedupChunks
      (processChunks_metrics hI hb h.valid)
    simp only [DeduplicationMetrics.mergeIn] at hm
    rw [NeverRefuses,acceptsBatch_iff hI,hif]
    simp only [processBatches,foldl_cons] at hle ⊢
    constructor <;> omega

end

end

/-- The totals of a finished file are those of its chunks, and the size in its info is that of its
segments, exactly when no answer was refused on the way. -/
theorem totals_iff_neverRefuses (hI : SoundInterface E content store) (state : S) (fileId : ℕ)
    (batches : List (List (Chunk H))) (hg : Genuine content batches.flatten)
    (hst : Stored E.marker store ((new state fileId).processBatches E batches).dataMng.registeredXorbs) :
    let d := (new state fileId).processBatches E batches
    ((d.deduplicationMetrics.totalBytes = byteCount batches.flatten ∧
      d.deduplicationMetrics.totalChunks = batches.flatten.length ∧
      d.deduplicationMetrics.totalBytes = d.deduplicationMetrics.newBytes +
        d.deduplicationMetrics.dedupedBytes) ∧
      ∀ sha, (d.finishInner E sha).1.fileSize = some (byteCount batches.flatten) ∧
        ∀ p ∈ (d.finishInner E sha).2.2.1.pendingFileInfo, (d.finishInner E sha).1.fileSize =
          some p.1.fileSize) ↔
    NeverRefuses E (new state fileId) batches := by
  intro d
  have hinv := fileInv_processBatches hI state fileId hg
  have hcount : Counted d.deduplicationMetrics batches.flatten := by
    simpa using processBatches_counted hI hg (fileInv_new state fileId) (fun _ => counted_nil 0 0) hst
  have hsize := (hinv.valid hst).denotes.bytes_sum
  rw [(neverRefuses_iff hI hg (fileInv_new state fileId)).2]
  change _ ↔ d.deduplicationMetrics.defragPreventedDedupChunks = 0
  constructor
  · rintro ⟨⟨-,hchunks,-⟩,-⟩
    have := hcount.totalChunks
    omega
  · intro hzero
    have hbytes : d.deduplicationMetrics.totalBytes = byteCount batches.flatten := by
      have := hcount.totalBytes
      have := hcount.refused hzero
      omega
    refine ⟨⟨hbytes,by rw [hcount.totalChunks,hzero,Nat.add_zero],hcount.sum⟩,fun sha => ⟨?_,?_⟩⟩
    · exact congrArg some hbytes
    · intro p hp
      obtain rfl := mem_singleton.mp hp
      exact congrArg some (hbytes.trans hsize.symm)

theorem totals_iff_neverRefuses_small :
    let d := (new () 0).processBatches (smallEnv 128 2) [[smallChunk 1,smallChunk 7,smallChunk 2],
      [smallChunk 1,smallChunk 3]]
    d.deduplicationMetrics.totalBytes =
      byteCount [smallChunk 1,smallChunk 7,smallChunk 2,smallChunk 1,smallChunk 3] :=
  ((totals_iff_neverRefuses (smallEnv_sound 128 2) () 0
    [[smallChunk 1,smallChunk 7,smallChunk 2],[smallChunk 1,smallChunk 3]]
    (by unfold Genuine; decide +kernel) (by unfold Stored; decide +kernel)).mpr (by decide +kernel)).1.1

/-- Four new chunks and a stored one are two ranges; the next stored chunk is refused and counted
twice. -/
theorem totals_exceed_file :
    let batches := [[smallChunk 1,smallChunk 2,smallChunk 3,smallChunk 4,smallChunk 7,smallChunk 8]]
    let d := (new () 0).processBatches (smallEnv 2 8192) batches
    SoundInterface (smallEnv 2 8192) smallContent smallStore ∧ Genuine smallContent batches.flatten ∧
      Stored (smallEnv 2 8192).marker smallStore d.dataMng.registeredXorbs ∧
      byteCount batches.flatten = 6 ∧ batches.flatten.length = 6 ∧
      d.deduplicationMetrics.totalBytes = 7 ∧ d.deduplicationMetrics.totalChunks = 7 ∧
      (d.finishInner (smallEnv 2 8192) none).1.fileSize = some 7 ∧
      (d.finishInner (smallEnv 2 8192) none).2.2.1.pendingFileInfo.map (·.1.fileSize) = [6] := by
  refine ⟨smallEnv_sound 2 8192,?_,?_,?_⟩
  · unfold Genuine
    decide +kernel
  · unfold Stored
    decide +kernel
  · decide +kernel

end XetCore.Dedup.FileDeduper
