import XetCore.Dedup.Denotation
import XetCore.RangeUpload.Assignment
import XetCore.RangeUpload.Windows

/-! # The answer of the server

The server answers a query for a stored file with windows that are in order, start at
segments and hold every edit, and with the subtrees of the gaps between them.
-/
namespace XetCore.RangeUpload
open Merkle MerkleHashSubtree Chunking Dedup Intervals Reconstruction Session StreamCut WindowScan List

variable {H : Type} {G : GearHasher} {file : Bytes} {D : Bytes → H} {c : Chunker G}
variable {mdb : MDBFileInfo H}

section Stored

def cdcChunks (D : Bytes → H) (c : Chunker G) (data : Bytes) : List (Chunk H) :=
  (c.nextBlock D data true).1

def cdcNodes (D : Bytes → H) (c : Chunker G) (data : Bytes) : List (Node H) :=
  (cdcChunks D c data).map chunkNode

theorem cdcChunks_eq {c : Chunker G} (hs : c.Synced) (hb : c.chunkbuf = []) (D : Bytes → H)
    (data : Bytes) :
    cdcChunks D c data = (pieces c.rule data).map (.new D) := hs.nextBlock_pieces hb data

/-- The segments of the file denote its chunks, and none of them is empty. -/
structure StoredFile (store : H → List (Chunk H)) (D : Bytes → H) (c : Chunker G) (mdb : MDBFileInfo H)
    (file : Bytes) : Prop where
  synced : c.Synced
  chunkbuf : c.chunkbuf = []
  denotes : Denotes store mdb.segments (cdcChunks D c file)
  lt : ∀ e ∈ mdb.segments, e.chunkIndexStart < e.chunkIndexEnd

variable {store : H → List (Chunk H)}

theorem nodeBytes_chunkNode (cs : List (Chunk H)) : nodeBytes (cs.map chunkNode) = byteCount cs := by
  simp [nodeBytes,byteCount,chunkNode,Function.comp_def]

theorem segmentBytesSum_eq {segments : List (FileDataSequenceEntry H)}
    (h : ∀ e ∈ segments, EntryOk store e) :
    segmentBytesSum segments = byteCount (segments.flatMap (·.read store)) := by
  induction segments with
  | nil => rfl
  | cons e es ih =>
    obtain ⟨he,hes⟩ := forall_mem_cons.mp h
    rw [flatMap_cons,byteCount_append,← he.bytes,← ih hes]
    simp [segmentBytesSum]

namespace StoredFile

section
variable (h : StoredFile store D c mdb file)
include h

theorem chunks_eq : cdcChunks D c file = (pieces c.rule file).map (.new D) :=
  cdcChunks_eq h.synced h.chunkbuf D file

theorem chunk_pos : ∀ x ∈ cdcChunks D c file, 0 < x.data.length := by
  rw [h.chunks_eq]
  refine forall_mem_map.mpr fun p hp => ?_
  exact length_pos_iff.mpr (pieces_ne_nil c.rule file p hp)

theorem nodeBytes_eq : nodeBytes (cdcNodes D c file) = file.length := by
  have hf := congrArg List.length (pieces_flatten c.rule file)
  rw [← sum_map_length] at hf
  rw [cdcNodes,nodeBytes_chunkNode,h.chunks_eq,byteCount,map_map]
  exact hf

theorem fileSize_eq : mdb.fileSize = file.length := by
  have hs := segmentBytesSum_eq h.denotes.ok
  rw [h.denotes.chunks_eq,← nodeBytes_chunkNode] at hs
  exact hs.trans h.nodeBytes_eq

theorem segment_pos : ∀ e ∈ mdb.segments, 0 < e.unpackedSegmentBytes := by
  intro e he
  have hok := h.denotes.ok e he
  have hlen := hok.chunk_count
  have hlt := h.lt e he
  obtain ⟨x,xs,hr⟩ := exists_cons_of_ne_nil
    (ne_nil_of_length_pos (show 0 < (e.read store).length by omega))
  have hx : x ∈ cdcChunks D c file := by
    rw [← h.denotes.chunks_eq]
    exact mem_flatMap.mpr ⟨e,he,by simp [hr]⟩
  have hp := h.chunk_pos x hx
  rw [hok.bytes,hr]
  simp only [byteCount,map_cons,sum_cons]
  omega

theorem segments_ne_nil (hne : file ≠ []) : mdb.segments ≠ [] := by
  intro hn
  have hs := h.fileSize_eq
  rw [MDBFileInfo.fileSize,hn] at hs
  exact hne (length_eq_zero_iff.mp hs.symm)

theorem boundary {b : ℕ} (hb : b ∈ segByteStarts mdb) :
    ∃ as bs, cdcNodes D c file = as ++ bs ∧ b = nodeBytes as := by
  obtain ⟨front,back,hs,rfl⟩ := mem_segByteStartsFrom.mp hb
  refine ⟨(front.flatMap (·.read store)).map chunkNode,(back.flatMap (·.read store)).map chunkNode,?_,?_⟩
  · rw [cdcNodes,← h.denotes.chunks_eq,hs,flatMap_append,map_append]
  · rw [nodeBytes_chunkNode,Nat.zero_add]
    exact segmentBytesSum_eq fun e he => h.denotes.ok e (by simp [hs,he])

end

end StoredFile
end Stored

section Answer
variable (K : NodeHasher H) (C : Constants) {ranges : List FileRange}

theorem clip_eq {size : ℕ} (ho : Ordered ranges) (hs : ∀ r ∈ ranges, r.stop ≤ size) :
    ((ranges.map fun r => (⟨r.start,min r.stop size⟩ : FileRange)).filter
      fun r => r.start < r.stop && r.start < size) = ranges := by
  have hm : (ranges.map fun r => (⟨r.start,min r.stop size⟩ : FileRange)) = ranges := by
    refine (map_congr_left fun r hr => ?_).trans (map_id ranges)
    rw [min_eq_left (hs r hr)]
    rfl
  rw [hm]
  refine filter_eq_self.mpr fun r hr => ?_
  have hlt := ho.lt r hr
  have hle := hs r hr
  simp only [Bool.and_eq_true,decide_eq_true_eq]
  omega

/-- The parts of an answer, for chunks that are partitioned into gaps and windows. -/
structure Answered (mdb : MDBFileInfo H) (qs : Pairs H) (tl : List (Node H))
    (response : FileChunkHashesResponse H) :
    Prop where
  windows_eq : response.windows = windowRanges 0 qs
  hashRanges_eq : response.hashRanges = gapRanges K true (placePairs 0 qs) ++
    [ChunkWindowBuilder.toOption (fromChunks K qs.isEmpty tl true)]
  gapVerification_eq : mdb.verification.length = mdb.segments.length → response.gapVerification =
    gapVerificationLoop 0 (windowRanges 0 qs) (mdb.segments.zip mdb.verification)

theorem windowRanges_ne_nil {pos : ℕ} {qs : Pairs H} (h : qs ≠ []) : windowRanges pos qs ≠ [] := by
  cases qs with
  | nil => exact absurd rfl h
  | cons q qs => simp [windowRanges]

/-- What the server computes for ranges that lie in the file. -/
theorem buildFileChunkHashesResponse_spec {mdb : MDBFileInfo H} {chunks : List (Node H)}
    (ho : Ordered ranges) (hs : ∀ r ∈ ranges, r.stop ≤ mdb.fileSize) (hne : ranges ≠ [])
    (hb : nodeBytes chunks = mdb.fileSize) : ∃ qs tl, TightLayout C ranges chunks qs tl ∧ qs ≠ [] ∧
      (∀ response, buildFileChunkHashesResponse K C mdb ranges chunks = .ok response →
        Answered K mdb qs tl response) ∧
      (mdb.verification.length = mdb.segments.length →
        ∃ response, buildFileChunkHashesResponse K C mdb ranges chunks = .ok response) := by
  obtain ⟨qs,tl,hl,hwi,hr⟩ := exists_layout K C ho chunks
  have hqs : qs ≠ [] := by
    obtain ⟨r,rs,rfl⟩ := exists_cons_of_ne_nil hne
    obtain ⟨w,hw,-⟩ := hl.covered mem_cons_self (hb ▸ hs r (by simp))
    rintro rfl
    simp [windowRanges] at hw
  refine ⟨qs,tl,hl,hqs,?_,?_⟩
  · intro response hru
    unfold buildFileChunkHashesResponse at hru
    simp only [clip_eq ho hs,List.isEmpty_iff,hne,hwi,hr,windowRanges_ne_nil hqs,↓reduceIte] at hru
    split at hru
    · rename_i he
      cases hru
      refine ⟨rfl,rfl,fun _ => ?_⟩
      simp [he,gapVerificationLoop]
    · split at hru
      · cases hru
        exact ⟨rfl,rfl,fun _ => rfl⟩
      · cases hru
  · intro hv
    unfold buildFileChunkHashesResponse
    simp only [clip_eq ho hs,List.isEmpty_iff,hne,hwi,windowRanges_ne_nil hqs,↓reduceIte]
    split <;> exact ⟨_,rfl⟩

end Answer

section Windows
variable {store : H → List (Chunk H)}
  {C : Constants} {ds : List DirtyInput} {ranges : List FileRange} {qs : Pairs H} {tl : List (Node H)}

/-- The answer for the ranges that the client asks for. -/
theorem StoredFile.response_spec (K : NodeHasher H) (C : Constants) (h : StoredFile store D c mdb file)
    (hq : Query (segByteStarts mdb) file.length ds ranges) (hne : ranges ≠ []) :
    ∃ qs tl, Layout C ranges (cdcNodes D c file) qs tl ∧ qs ≠ [] ∧
      (∀ response, buildFileChunkHashesResponse K C mdb ranges (cdcNodes D c file) = .ok response →
        Answered K mdb qs tl response) ∧
      (mdb.verification.length = mdb.segments.length →
        ∃ response, buildFileChunkHashesResponse K C mdb ranges (cdcNodes D c file) = .ok response) := by
  have ho : Ordered ranges := ⟨hq.apart.separated.imp le_of_lt,hq.apart.lt⟩
  obtain ⟨qs,tl,hl,hr⟩ := buildFileChunkHashesResponse_spec K C ho (h.fileSize_eq ▸ hq.apart.stop_le) hne
    (h.nodeBytes_eq.trans h.fileSize_eq.symm)
  exact ⟨qs,tl,hl.toLayout,hr⟩

theorem StoredFile.node_pos (h : StoredFile store D c mdb file) : ∀ x ∈ cdcNodes D c file, 0 < x.2 := by
  intro x hx
  obtain ⟨y,hy,rfl⟩ := mem_map.mp hx
  exact h.chunk_pos y hy

section General
variable {chunks : List (Node H)} {size : ℕ} {starts : List ℕ}

theorem Layout.windowsOk (hp : ∀ x ∈ chunks, 0 < x.2) (hby : nodeBytes chunks = size)
    (hl : Layout C ranges chunks qs tl) : WindowsOk size (windowRanges 0 qs) := by
  obtain ⟨hs,hb⟩ := @windowRanges_bounds H qs 0
  refine ⟨hs,fun w hw => ?_,fun w hw => ?_⟩
  · obtain ⟨front,q,back,heq,rfl⟩ := mem_windowRanges hw
    obtain ⟨x,xs,hx⟩ := exists_cons_of_ne_nil (hl.windows_ne_nil q (by simp [heq]))
    have hmem : x ∈ chunks := by
      rw [← hl.chunks_eq,heq]
      simp [hx]
    have := hp x hmem
    simp only [hx,nodeBytes_cons]
    omega
  · have hle := (hb w hw).2.2
    have ha := congrArg nodeBytes hl.chunks_eq
    rw [nodeBytes_append,hby] at ha
    omega

theorem Layout.assignable (hp : ∀ x ∈ chunks, 0 < x.2) (hb : nodeBytes chunks = size)
    (hl : Layout C ranges chunks qs tl) (hv : ValidEdits size ds) (hq : Query starts size ds ranges) :
    Assignable size (windowRanges 0 qs) ds := by
  have hw := hl.windowsOk hp hb
  refine ⟨hw,hv.sorted,hv.start_le,fun d hd => ?_⟩
  obtain ⟨r,hr,hs,hst,hin⟩ := hq.holds d hd
  obtain ⟨w,hmem,hws,hwe⟩ := hl.covered hr (hb ▸ hq.apart.stop_le r hr)
  refine ⟨w,hmem,hws.trans hs,hst.trans hwe,fun heq => (hin heq).imp (·.trans_le hwe) fun he => ?_⟩
  have hle := hw.stop_le w hmem
  omega

end General

theorem Layout.start_segment (h : StoredFile store D c mdb file)
    (hl : Layout C ranges (cdcNodes D c file) qs tl)
    (hq : Query (segByteStarts mdb) file.length ds ranges) :
    ∀ w ∈ windowRanges 0 qs, w.start ∈ segByteStarts mdb := by
  intro w hw
  obtain ⟨r,hr,hs⟩ := hl.start_mem (fun r hr => h.boundary (hq.ends r hr).1) hw
  rw [← hs]
  exact (hq.ends r hr).1

end Windows
end XetCore.RangeUpload
