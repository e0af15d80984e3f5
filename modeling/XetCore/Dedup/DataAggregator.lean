import XetCore.Dedup.Denotation

/-! # Data of several files in one open xorb

The chunks that remain of finished files are collected until a xorb is cut. When two
aggregators are joined, the second one's marker entries move behind the chunks of the
first. When the xorb is cut, the marker entries get its hash.
-/
namespace XetCore.Dedup
open Merkle Chunking Extents List

variable {H : Type} [DecidableEq H]

def FileDataSequenceEntry.shift (marker : H) (k : ℕ) (e : FileDataSequenceEntry H) :
    FileDataSequenceEntry H :=
  if e.xorbHash = marker then
    { e with chunkIndexStart := e.chunkIndexStart + k, chunkIndexEnd := e.chunkIndexEnd + k }
  else e

namespace DataAggregator

/-- The xorb, and for each file its id, its info and the number of its bytes in the xorb. -/
def finalize (K : NodeHasher H) (a : DataAggregator H) : RawXorbData H × List (ℕ × MDBFileInfo H × ℕ) :=
  let xorbData := RawXorbData.fromChunks K a.chunks a.fileBoundaries
  (xorbData,a.pendingFileInfo.map fun p =>
    (p.2.2,{ p.1 with segments := setXorbHash xorbData.xorbHash p.1.segments p.2.1 },
      (p.2.1.map fun i => (p.1.segments[i]?.map (·.unpackedSegmentBytes)).getD 0).sum))

def mergeIn (marker : H) (a other : DataAggregator H) : DataAggregator H :=
  let shift := a.chunks.length
  { chunks := a.chunks ++ other.chunks
    numBytes := a.numBytes + other.numBytes
    pendingFileInfo := a.pendingFileInfo ++ other.pendingFileInfo.map fun p =>
      ({ p.1 with segments := p.1.segments.map (·.shift marker shift) },p.2)
    fileBoundaries := a.fileBoundaries ++ other.fileBoundaries.map (· + shift) }

end DataAggregator

/-- Two infos of one file that differ in where its chunks are. -/
structure SameFile (fi fi' : MDBFileInfo H) : Prop where
  metadata : fi'.metadata = fi.metadata
  verification : fi'.verification = fi.verification
  metadataExt : fi'.metadataExt = fi.metadataExt

/-- A file info as it was first, with the chunks of the file. -/
abbrev FileRecord (H : Type) := MDBFileInfo H × List (Chunk H)

/-- The info of a file whose entries may point to the open xorb. -/
structure PendingOk (marker : H) (source : H → List (Chunk H)) (p : MDBFileInfo H × List ℕ × ℕ)
    (f : FileRecord H) : Prop where
  same : SameFile f.1 p.1
  denotes : Denotes source p.1.segments f.2
  markers : p.2.1 = markerIndices marker p.1.segments

/-- The info of a file all of whose chunks are in stored xorbs. -/
structure Complete (marker : H) (store : H → List (Chunk H)) (fi : MDBFileInfo H)
    (f : FileRecord H) : Prop where
  same : SameFile f.1 fi
  denotes : Denotes store fi.segments f.2
  no_marker : ∀ e ∈ fi.segments, e.xorbHash ≠ marker

/-- File boundaries are chunk indices in increasing order, from the first chunk on. -/
structure BoundariesOk (boundaries : List ℕ) (numChunks : ℕ) : Prop where
  increasing : boundaries.Pairwise (· < ·)
  lt : ∀ b ∈ boundaries, b < numChunks
  first : 0 < numChunks → boundaries.head? = some 0

structure XorbOk (C : Constants) (x : RawXorbData H) : Prop where
  bytes_le : x.numBytes ≤ C.maxXorbBytes
  chunks_le : x.chunks.length ≤ C.maxXorbChunks
  boundaries : BoundariesOk x.fileBoundaries x.chunks.length

structure WithinLimits (C : Constants) (a : DataAggregator H) : Prop where
  bytes_le : a.numBytes ≤ C.maxXorbBytes
  chunks_le : a.chunks.length ≤ C.maxXorbChunks

structure AggregatorOk (marker : H) (store : H → List (Chunk H)) (a : DataAggregator H)
    (files : List (FileRecord H)) : Prop where
  pending : List.Forall₂ (PendingOk marker (openSource marker a.chunks store)) a.pendingFileInfo files
  bytes : a.numBytes = byteCount a.chunks
  boundaries : BoundariesOk a.fileBoundaries a.chunks.length

variable {marker : H} {store : H → List (Chunk H)}

theorem aggregatorOk_empty : AggregatorOk marker store {} [] :=
  ⟨Forall₂.nil,rfl,⟨Pairwise.nil,by simp,by simp⟩⟩

theorem BoundariesOk.append {bs cs : List ℕ} {m n : ℕ} (hb : BoundariesOk bs m) (hc : BoundariesOk cs n) :
    BoundariesOk (bs ++ cs.map (· + m)) (m + n) where
  increasing := by
    refine pairwise_append.mpr ⟨hb.increasing,?_,?_⟩
    · exact pairwise_map.mpr (hc.increasing.imp (by omega))
    · intro b hbm c hcm
      obtain ⟨c,-,rfl⟩ := mem_map.mp hcm
      have := hb.lt b hbm
      omega
  lt b hbm := by
    rcases mem_append.mp hbm with hbm | hbm
    · have := hb.lt b hbm
      omega
    · obtain ⟨c,hcm,rfl⟩ := mem_map.mp hbm
      have := hc.lt c hcm
      omega
  first hp := by
    by_cases hm : 0 < m
    · rw [head?_append,hb.first hm]
      rfl
    · -- without chunks there is no boundary before
      have hn : bs = [] := eq_nil_iff_forall_not_mem.mpr fun b hbm => by
        have := hb.lt b hbm
        omega
      rw [hn,nil_append,head?_map,hc.first (by omega)]
      simp only [Option.map_some]
      congr 1
      omega

theorem Denotes.shift {es : List (FileDataSequenceEntry H)} {cs newData : List (Chunk H)}
    (h : Denotes (openSource marker newData store) es cs) (before : List (Chunk H)) :
    Denotes (openSource marker (before ++ newData) store) (es.map (·.shift marker before.length)) cs := by
  refine h.rewrite _ fun e _ he => ?_
  unfold FileDataSequenceEntry.shift
  split_ifs with hm
  · exact he.shift (by rw [hm,openSource_marker,openSource_marker])
  · exact he.grow (by rw [openSource_of_ne hm,openSource_of_ne hm])

theorem shift_xorbHash (k : ℕ) (e : FileDataSequenceEntry H) :
    (e.shift marker k).xorbHash = e.xorbHash := by
  unfold FileDataSequenceEntry.shift
  split <;> rfl

theorem AggregatorOk.mergeIn {a b : DataAggregator H} {fs gs : List (FileRecord H)}
    (ha : AggregatorOk marker store a fs)
    (hb : AggregatorOk marker store b gs) :
    AggregatorOk marker store (a.mergeIn marker b) (fs ++ gs) where
  pending := by
    refine rel_append (ha.pending.imp ?_) (forall₂_map_left_iff.mpr (hb.pending.imp ?_))
    · intro p f hp
      refine ⟨hp.same,hp.denotes.grow fun x => ?_,hp.markers⟩
      unfold openSource
      split
      · exact prefix_append _ _
      · exact prefix_refl _
    · intro p f hp
      exact ⟨⟨hp.same.metadata,hp.same.verification,hp.same.metadataExt⟩,hp.denotes.shift a.chunks,
        hp.markers.trans (by simp [markerIndices,findIdxs_map,Function.comp_def,shift_xorbHash])⟩
  bytes := by
    simp [DataAggregator.mergeIn,byteCount_append,ha.bytes,hb.bytes]
  boundaries := by
    have h := ha.boundaries.append hb.boundaries
    rwa [← length_append] at h

/-- Cutting the xorb completes every file of the aggregator. -/
theorem AggregatorOk.finalize {K : NodeHasher H} {a : DataAggregator H} {fs : List (FileRecord H)}
    (ha : AggregatorOk marker store a fs) (hs : store (a.finalize K).1.xorbHash = a.chunks)
    (hm : (a.finalize K).1.xorbHash ≠ marker) :
    List.Forall₂ (Complete marker store) ((a.finalize K).2.map (·.2.1)) fs := by
  simp only [DataAggregator.finalize,map_map]
  refine forall₂_map_left_iff.mpr (ha.pending.imp fun p f hp => ?_)
  have hse := setXorbHash_markerIndices marker (a.finalize K).1.xorbHash p.1.segments
  rw [← hp.markers] at hse
  have hno : ∀ e ∈ p.1.segments.map (·.close marker (a.finalize K).1.xorbHash), e.xorbHash ≠ marker := by
    intro e he
    obtain ⟨e,-,rfl⟩ := mem_map.mp he
    exact close_ne_marker hm e
  refine ⟨⟨hp.same.metadata,hp.same.verification,hp.same.metadataExt⟩,?_,?_⟩
  · have hc : Denotes store (List.map id _) f.2 := (hp.denotes.close hs hm []).rewrite id fun e he hok =>
      hok.grow (by rw [openSource_of_ne (hno e he)])
    rwa [map_id,← hse] at hc
  · rwa [← hse] at hno

end XetCore.Dedup
