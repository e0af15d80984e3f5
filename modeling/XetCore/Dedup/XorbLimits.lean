import XetCore.Dedup.Walk
import XetCore.Dedup.DataAggregator

/-! # Limits of the xorbs of a file

When no chunk is larger than a xorb may be, the new data of a deduper always fits
into a xorb, and so does every xorb that is cut on the way. A finished file hands
over data within the limits.
-/
namespace XetCore.Dedup.FileDeduper
open Merkle Chunking List

variable {H S : Type} {E : DedupEnv H S}

/-- The new data fits into a xorb, and so did what was cut. -/
structure Fits (C : Constants) (d : FileDeduper H S) : Prop where
  size : d.newDataSize = byteCount d.newData
  bytes_le : d.newDataSize ≤ C.maxXorbBytes
  chunks_le : d.newData.length ≤ C.maxXorbChunks
  cut : ∀ x ∈ d.dataMng.registeredXorbs, XorbOk C x

variable {d d' : FileDeduper H S}
variable {s : ProcessState H S} {store : H → List (Chunk H)}

theorem Fits.congr {C : Constants} (h : Fits C d) (hs : d'.newDataSize = d.newDataSize)
    (hn : d'.newData = d.newData)
    (hm : d'.dataMng.registeredXorbs = d.dataMng.registeredXorbs) : Fits C d' := by
  refine ⟨?_,?_,?_,?_⟩
  · rw [hs,hn,h.size]
  · rw [hs]
    exact h.bytes_le
  · rw [hn]
    exact h.chunks_le
  · rw [hm]
    exact h.cut

theorem Fits.cutIfFull (h : Fits E.constants s.deduper) {n : ℕ}
    (hn : n ≤ E.constants.maxXorbBytes) (hc : 0 < E.constants.maxXorbChunks) :
    Fits E.constants (cutIfFull E n s).deduper ∧
    (cutIfFull E n s).deduper.newDataSize + n ≤ E.constants.maxXorbBytes ∧
      (cutIfFull E n s).deduper.newData.length + 1 ≤ E.constants.maxXorbChunks := by
  unfold FileDeduper.cutIfFull
  simp only
  split_ifs with hf
  · -- the cut xorb has a chunk, since an empty one has room
    have hp : 0 < s.deduper.newData.length := by
      by_contra hz
      have hni : s.deduper.newData = [] := length_eq_zero_iff.mp (by omega)
      have hs := h.size
      simp only [hni,byteCount,map_nil,sum_nil,length_nil] at hf hs
      omega
    refine ⟨⟨rfl,Nat.zero_le _,Nat.zero_le _,?_⟩,by simpa [cutNewXorb] using hn,hc⟩
    intro x hx
    simp only [DataManager.registerNewXorb,mem_append,mem_singleton] at hx
    rcases hx with hx | rfl
    · exact h.cut x hx
    · exact ⟨h.size.symm.trans_le h.bytes_le,h.chunks_le,by simp [cutNewXorb,RawXorbData.fromChunks],
        by simpa [cutNewXorb,RawXorbData.fromChunks] using hp,by simp [cutNewXorb,RawXorbData.fromChunks]⟩
  · simp only [not_or,Nat.not_lt] at hf
    exact ⟨h,hf.1,hf.2⟩

variable [DecidableEq H] {content : H → Bytes} {chunks : List (Chunk H)}

theorem Fits.addNewChunk (h : Fits E.constants s.deduper) {c : Chunk H}
    (hb : c.data.length ≤ E.constants.maxXorbBytes) (hc : 0 < E.constants.maxXorbChunks) :
    Fits E.constants (addNewChunk E c s).deduper := by
  let s' : ProcessState H S := { s with dedupMetrics := countNew s.dedupMetrics c.data.length }
  obtain ⟨hf,hby,hch⟩ := Fits.cutIfFull (s := s') h hb hc
  simp only [FileDeduper.addNewChunk,extendNewData_eq]
  obtain ⟨es,refs,t,ha⟩ := addEntry_eq (FileDeduper.cutIfFull E c.data.length s').deduper
    ⟨E.marker,c.data.length,(FileDeduper.cutIfFull E c.data.length s').deduper.newData.length,
      (FileDeduper.cutIfFull E c.data.length s').deduper.newData.length + 1⟩ 1
  rw [ha]
  refine ⟨?_,hby,?_,hf.cut⟩
  · simp only [pushNewData,hf.size]
    simp [byteCount]
  · simp only [pushNewData,length_append]
    exact hch

theorem Fits.step {blocks : List (Option (DedupAnswer H))}
    (h : Fits E.constants s.deduper) (hb : ∀ c ∈ chunks, c.data.length ≤ E.constants.maxXorbBytes)
    (hc : 0 < E.constants.maxXorbChunks) (hlt : s.curIdx < chunks.length) :
    Fits E.constants (processStep E chunks blocks s).deduper := by
  have hch := hb _ (getElem_mem hlt)
  rcases processStep_cases E blocks hlt with ⟨n,fse,ext,t,-,-,hs⟩ | ⟨n,fse,ext,t,-,-,hs⟩ | ⟨-,hs⟩
  · obtain ⟨es,refs,t',ha⟩ := addEntry_eq (E := E) { s.deduper with defragTracker := t } fse n
    simp only [hs,takeDeduped,ha]
    exact h.congr rfl rfl rfl
  · rw [hs]
    exact Fits.addNewChunk (s := s.retuned t _) (h.congr rfl rfl rfl) hch hc
  · rw [hs]
    exact h.addNewChunk hch hc

theorem Fits.processChunks (hI : SoundInterface E content store) (h : Fits E.constants d)
    (hb : ∀ c ∈ chunks, c.data.length ≤ E.constants.maxXorbBytes) (hc : 0 < E.constants.maxXorbChunks) :
    Fits E.constants (d.processChunks E chunks).2 := by
  let q := queryPasses E d (chunks.map (·.hash))
  obtain ⟨state,next,hd⟩ := (queryPasses_inv hI d (chunks.map (·.hash))).deduper
  have hst : Fits E.constants (startWalk q).deduper := by
    simp only [startWalk,q,hd]
    exact h.congr rfl rfl rfl
  have hr : Fits E.constants (walked E d chunks).deduper :=
    WhileLoop.run_invariant (P := fun s : ProcessState H S => Fits E.constants s.deduper)
      (fun s hlt hs => hs.step hb hc (by simpa using hlt)) hst
  exact hr.congr rfl rfl (processChunks_registered d chunks)

/-- For every run of batches the cut xorbs are within the limits, and so is the remaining data. -/
theorem processBatches_fits
    (hI : SoundInterface E content store) (h : Fits E.constants d) {batches : List (List (Chunk H))}
    (hb : ∀ c ∈ batches.flatten, c.data.length ≤ E.constants.maxXorbBytes)
    (hc : 0 < E.constants.maxXorbChunks) :
    Fits E.constants (d.processBatches E batches) := by
  induction batches generalizing d with
  | nil => exact h
  | cons b bs ih =>
    exact ih (h.processChunks hI (fun c hm => hb c (mem_append_left _ hm)) hc)
      fun c hm => hb c (mem_append_right _ hm)

omit [DecidableEq H] in
theorem fits_new (state : S) (fileId : ℕ) : Fits E.constants (new state fileId : FileDeduper H S) :=
  ⟨rfl,Nat.zero_le _,Nat.zero_le _,by simp [new]⟩

omit [DecidableEq H] in
theorem Fits.withinLimits (h : Fits E.constants d) (ext : Option H) :
    WithinLimits E.constants (d.finalize E ext).2.2.1 :=
  ⟨h.size.symm.trans_le h.bytes_le,h.chunks_le⟩

end XetCore.Dedup.FileDeduper
