import XetCore.Dedup.Denotation
import XetCore.Reconstruction.Planning

/-! # What the server plans

The terms are chunk ranges of the xorbs whose bytes, joined, are the part of the file
from the start of the first chunk on, up to at least the end of the range. The merged
ranges of a xorb are separated, and each term lies inside one of them.
-/
namespace XetCore.Reconstruction
open Dedup Chunking Extents Intervals List

variable {H : Type} {c : SegmentCut} {x : XorbObject} {cs : List (Chunk H)}

def bytesOf (cs : List (Chunk H)) : Bytes := cs.flatMap (·.data)

theorem bytesOf_length (cs : List (Chunk H)) : (bytesOf cs).length = byteCount cs := by
  simp [bytesOf,byteCount]

theorem bytesOf_append (cs ds : List (Chunk H)) : bytesOf (cs ++ ds) = bytesOf cs ++ bytesOf ds := by
  simp [bytesOf]

structure FooterOk (x : XorbObject) (cs : List (Chunk H)) : Prop where
  unpacked : x.unpackedChunkOffsets = (List.range cs.length).map fun i => byteCount (cs.take (i + 1))
  boundaries : x.chunkBoundaryOffsets.length = cs.length
  numChunks : x.numChunks = cs.length

theorem byteCount_slice_split (cs : List (Chunk H)) {a b c : ℕ} (hab : a ≤ b) (hbc : b ≤ c) :
    byteCount (slice cs a c) = byteCount (slice cs a b) + byteCount (slice cs b c) := by
  rw [← byteCount_append,slice_append_slice cs hab hbc]

theorem FooterOk.chunkLength (h : FooterOk x cs) {i : ℕ} (hi : i < cs.length) :
    x.uncompressedChunkLength i = (.ok (byteCount (slice cs i (i + 1))) : Except (ClientError H) ℕ) := by
  have ht : byteCount (cs.take (i + 1)) = byteCount (cs.take i) + byteCount (slice cs i (i + 1)) := by
    rw [← byteCount_append,take_append_slice cs (Nat.le_succ i)]
  have hg : ∀ j, j < cs.length → x.unpackedChunkOffsets[j]? = some (byteCount (cs.take (j + 1))) := by
    intro j hj
    rw [h.unpacked,getElem?_map,getElem?_range hj]
    rfl
  unfold XorbObject.uncompressedChunkLength
  rw [hg i hi]
  cases i with
  | zero =>
    rw [if_pos rfl,ht]
    simp [byteCount]
  | succ i =>
    simp only [Nat.add_one_ne_zero,↓reduceIte,Nat.add_sub_cancel,getD_eq_getElem?_getD,
      hg i (by omega),Option.getD_some]
    congr 1
    omega

theorem FooterOk.byteOffset (h : FooterOk x cs) {a b : ℕ} (hab : a < b) (hb : b ≤ cs.length) :
    ∃ r, x.getByteOffset a b = (.ok r : Except (ClientError H) (ℕ × ℕ)) := by
  have hn := h.numChunks
  unfold XorbObject.getByteOffset
  rw [if_neg (by omega)]
  exact ⟨_,rfl⟩

/-- A cut segment is a range of the chunks with the right number of bytes. -/
structure CutOk (cs : List (Chunk H)) (c : SegmentCut) : Prop where
  lt : c.chunkRange.start < c.chunkRange.stop
  stop_le : c.chunkRange.stop ≤ cs.length
  bytes : c.unpackedSegmentBytes = byteCount (slice cs c.chunkRange.start c.chunkRange.stop)

/-- Chunks were taken away at both ends of the cut, and those at the start are counted. -/
structure Trims (cs : List (Chunk H)) (c c' : SegmentCut) : Prop where
  ok : CutOk cs c'
  start_le : c.chunkRange.start ≤ c'.chunkRange.start
  le_stop : c'.chunkRange.stop ≤ c.chunkRange.stop
  cumulative : c'.cumulativeBytes = c.cumulativeBytes +
    byteCount (slice cs c.chunkRange.start c'.chunkRange.start)
  first : c'.firstChunkByteStart = c.firstChunkByteStart +
    byteCount (slice cs c.chunkRange.start c'.chunkRange.start)

theorem Trims.refl (hc : CutOk cs c) : Trims cs c c :=
  ⟨hc,le_rfl,le_rfl,by simp [byteCount],by simp [byteCount]⟩

theorem Trims.trans {c' d : SegmentCut} (h : Trims cs c c') (h' : Trims cs c' d) : Trims cs c d := by
  have hs := byteCount_slice_split cs h.start_le h'.start_le
  have hc := h.cumulative
  have hf := h.first
  have hc' := h'.cumulative
  have hf' := h'.first
  exact ⟨h'.ok,h.start_le.trans h'.start_le,h'.le_stop.trans h.le_stop,by omega,by omega⟩

theorem trimStart_spec (h : FooterOk x cs) {start fuel : ℕ} (hc : CutOk cs c)
    (hp : c.cumulativeBytes ≤ start) (hin : start < c.cumulativeBytes + c.unpackedSegmentBytes) :
    ∃ c', trimStart x start fuel c = (.ok c' : Except (ClientError H) SegmentCut) ∧ Trims cs c c' ∧
      c'.chunkRange.stop = c.chunkRange.stop ∧ c'.cumulativeBytes ≤ start := by
  induction fuel generalizing c with
  | zero => exact ⟨c,rfl,.refl hc,rfl,hp⟩
  | succ fuel ih =>
    have hc' := Trims.refl hc
    obtain ⟨cumulative,first,bytes,a,b⟩ := c
    obtain ⟨hlt,hst,hb⟩ := hc
    dsimp only at hlt hst hb hp hin
    have hs := byteCount_slice_split cs (Nat.le_add_right a 1) hlt
    rw [trimStart,if_pos hlt,h.chunkLength (show a < cs.length by omega)]
    simp only [bind,Except.bind]
    split_ifs with hle
    · have hne : a + 1 ≠ b := by
        rintro rfl
        omega
      have hok : CutOk cs ⟨cumulative + byteCount (slice cs a (a + 1)),
        first + byteCount (slice cs a (a + 1)),
          bytes - byteCount (slice cs a (a + 1)),⟨a + 1,b⟩⟩ :=
            ⟨by dsimp only; omega,hst,by dsimp only; omega⟩
      obtain ⟨c',hr,ht,he,hl⟩ := ih hok hle (by dsimp only; omega)
      exact ⟨c',hr,.trans ⟨hok,Nat.le_succ a,le_rfl,rfl,rfl⟩ ht,he,hl⟩
    · exact ⟨_,rfl,hc',rfl,hp⟩

theorem trimEnd_spec (h : FooterOk x cs) {stop fuel : ℕ} (hc : CutOk cs c)
    (hp : c.cumulativeBytes < stop) (hin : stop ≤ c.cumulativeBytes + c.unpackedSegmentBytes) :
    ∃ c', trimEnd x stop fuel c = (.ok c' : Except (ClientError H) SegmentCut) ∧ Trims cs c c' ∧
      c'.chunkRange.start = c.chunkRange.start ∧ stop ≤ c'.cumulativeBytes + c'.unpackedSegmentBytes := by
  induction fuel generalizing c with
  | zero => exact ⟨c,rfl,.refl hc,rfl,hin⟩
  | succ fuel ih =>
    have hc' := Trims.refl hc
    obtain ⟨cumulative,first,bytes,a,b⟩ := c
    obtain ⟨hlt,hst,hb⟩ := hc
    dsimp only at hlt hst hb hp hin
    obtain ⟨b,rfl⟩ := Nat.exists_eq_add_one_of_ne_zero (Nat.ne_zero_of_lt hlt)
    have hs := byteCount_slice_split cs (Nat.le_of_lt_succ hlt) (Nat.le_add_right b 1)
    rw [trimEnd,if_pos hlt,Nat.add_sub_cancel,h.chunkLength (show b < cs.length by omega)]
    simp only [bind,Except.bind]
    split_ifs with hle
    · have hne : a ≠ b := by
        rintro rfl
        omega
      have hok : CutOk cs ⟨cumulative,first,bytes - byteCount (slice cs b (b + 1)),⟨a,b⟩⟩ :=
        ⟨by dsimp only; omega,by dsimp only; omega,by dsimp only; omega⟩
      obtain ⟨c',hr,ht,he,hl⟩ := ih hok hp hle
      exact ⟨c',hr,.trans ⟨hok,le_rfl,Nat.le_succ b,by simp [byteCount],by simp [byteCount]⟩ ht,he,hl⟩
    · exact ⟨_,rfl,hc',rfl,hin⟩

section Terms
variable (store : H → List (Chunk H)) (getXorbFooter : H → Except (ClientError H) XorbObject)

def termBytes (t : XorbReconstructionTerm H) : Bytes :=
  bytesOf (slice (store t.hash) t.range.start t.range.stop)

structure TermOk (t : XorbReconstructionTerm H) : Prop where
  lt : t.range.start < t.range.stop
  stop_le : t.range.stop ≤ (store t.hash).length
  length : t.unpackedLength = (termBytes store t).length

def segmentBytes (e : FileDataSequenceEntry H) : Bytes := bytesOf (e.read store)

def fileBytes (es : List (FileDataSequenceEntry H)) : Bytes := es.flatMap (segmentBytes store)

/-- A segment that the server can read: it has chunks and lies in its xorb, whose footer is known.
-/
structure SegmentOk (e : FileDataSequenceEntry H) : Prop where
  ok : EntryOk store e
  lt : e.chunkIndexStart < e.chunkIndexEnd
  footer : ∃ x, getXorbFooter e.xorbHash = .ok x ∧ FooterOk x (store e.xorbHash)

variable {store getXorbFooter}
variable {e : FileDataSequenceEntry H} {fileRange : FileRange}

theorem segmentBytes_length (h : SegmentOk store getXorbFooter e) :
    (segmentBytes store e).length = e.unpackedSegmentBytes := by
  rw [segmentBytes,bytesOf_length,h.ok.bytes]

theorem cutStart_spec (hx : FooterOk x cs)
    (hc : CutOk cs c) (hin : fileRange.start < c.cumulativeBytes + c.unpackedSegmentBytes) :
    ∃ c', cutStart x fileRange c = (.ok c' : Except (ClientError H) SegmentCut) ∧ Trims cs c c' ∧
      c'.chunkRange.stop = c.chunkRange.stop ∧
      (c'.cumulativeBytes ≤ fileRange.start ∨ c'.chunkRange.start = c.chunkRange.start) := by
  unfold cutStart
  split_ifs with hb
  · obtain ⟨c',hr,ht,hs,hl⟩ := trimStart_spec hx hc hb.le hin
    exact ⟨c',hr,ht,hs,Or.inl hl⟩
  · exact ⟨c,rfl,.refl hc,rfl,Or.inr rfl⟩

theorem cutEnd_spec (hx : FooterOk x cs) (hc : CutOk cs c) (hlt : c.cumulativeBytes < fileRange.stop) :
    ∃ c', cutEnd x fileRange c = (.ok c' : Except (ClientError H) SegmentCut) ∧ Trims cs c c' ∧
      c'.chunkRange.start = c.chunkRange.start ∧
      (fileRange.stop ≤ c'.cumulativeBytes + c'.unpackedSegmentBytes ∨
        c'.chunkRange.stop = c.chunkRange.stop) := by
  unfold cutEnd
  split_ifs with ha
  · obtain ⟨c',hr,ht,hs,hl⟩ := trimEnd_spec hx hc hlt ha.le
    exact ⟨c',hr,ht,hs,Or.inl hl⟩
  · exact ⟨c,rfl,.refl hc,rfl,Or.inr rfl⟩

variable [DecidableEq H]

/-- The term of a segment at file position `s.cumulativeBytes`. The range starts in the segment or
before it, and does not end before it. -/
theorem termStep_spec (hr : fileRange.start < fileRange.stop) (he : SegmentOk store getXorbFooter e)
    {s : TermState H}
    (hin : fileRange.start < s.cumulativeBytes + e.unpackedSegmentBytes)
    (hlt : s.cumulativeBytes < fileRange.stop) :
    ∃ s' t lead trail m, termStep getXorbFooter fileRange e s = .ok s' ∧ TermOk store t ∧
    t.hash = e.xorbHash ∧
      segmentBytes store e = lead ++ termBytes store t ++ trail ∧
      s'.terms = s.terms ++ [t] ∧ m.chunkRange = t.range ∧
      s'.fetchInfoMap = pushAt e.xorbHash m s.fetchInfoMap ∧
      s'.firstChunkByteStart = s.firstChunkByteStart + lead.length ∧
      s'.cumulativeBytes = s.cumulativeBytes + lead.length + t.unpackedLength ∧
      (s.cumulativeBytes + lead.length ≤ fileRange.start ∨ lead = []) ∧
      (fileRange.stop ≤ s'.cumulativeBytes ∨ trail = []) := by
  obtain ⟨x,hg,hx⟩ := he.footer
  have hw := he.ok.within.stop_le
  have hc : CutOk (store e.xorbHash) ⟨s.cumulativeBytes,s.firstChunkByteStart,e.unpackedSegmentBytes,
      ⟨e.chunkIndexStart,e.chunkIndexEnd⟩⟩ := ⟨he.lt,hw,he.ok.bytes⟩
  obtain ⟨c₁,hru₁,ht₁,hst₁,hp₁⟩ := cutStart_spec hx hc hin
  have hlt₁ : c₁.cumulativeBytes < fileRange.stop := by
    rcases hp₁ with h | h
    · omega
    · rw [ht₁.cumulative,h,slice_self]
      simpa [byteCount] using hlt
  obtain ⟨c₂,hru₂,ht₂,hs₂,hen⟩ := cutEnd_spec hx ht₁.ok hlt₁
  have hcu₂ := ht₂.cumulative
  obtain ⟨hok,hs₁,hst,hcu₁,hf₁⟩ := ht₁.trans ht₂
  rw [hst₁] at hen
  rw [hs₂,slice_self] at hcu₂
  rw [← hs₂,← show c₂.cumulativeBytes = c₁.cumulativeBytes by simpa [byteCount] using hcu₂] at hp₁
  obtain ⟨b,hb⟩ := hx.byteOffset hok.lt hok.stop_le
  have hby : c₂.unpackedSegmentBytes =
    (termBytes store ⟨e.xorbHash,c₂.unpackedSegmentBytes,c₂.chunkRange⟩).length := by
    rw [termBytes,bytesOf_length]
    exact hok.bytes
  let s' : TermState H :=
    { cumulativeBytes := c₂.cumulativeBytes + c₂.unpackedSegmentBytes
      firstChunkByteStart := c₂.firstChunkByteStart
      terms := s.terms ++ [⟨e.xorbHash,c₂.unpackedSegmentBytes,c₂.chunkRange⟩]
      fetchInfoMap := pushAt e.xorbHash ⟨c₂.chunkRange,⟨b.1,b.2⟩⟩ s.fetchInfoMap }
  refine ⟨s',⟨e.xorbHash,c₂.unpackedSegmentBytes,c₂.chunkRange⟩,
    bytesOf (slice (store e.xorbHash) e.chunkIndexStart c₂.chunkRange.start),
    bytesOf (slice (store e.xorbHash) c₂.chunkRange.stop e.chunkIndexEnd),⟨c₂.chunkRange,⟨b.1,b.2⟩⟩,
    ?_,⟨hok.lt,hok.stop_le,hby⟩,rfl,?_,rfl,rfl,rfl,?_,?_,?_,?_⟩
  · simp [termStep,hg,bind,Except.bind,hru₁,hru₂,hb,pure,Except.pure,s']
  · rw [termBytes,← bytesOf_append,← bytesOf_append,slice_append_slice _ hs₁ hok.lt.le,
      slice_append_slice _ (hs₁.trans hok.lt.le) hst]
    rfl
  · rw [bytesOf_length]
    exact hf₁
  · rw [bytesOf_length,← hcu₁]
  · rw [bytesOf_length,← hcu₁]
    refine hp₁.imp id fun h => ?_
    rw [h,slice_self]
    rfl
  · refine hen.imp id fun h => ?_
    rw [h,slice_self]
    rfl

end Terms
end XetCore.Reconstruction
