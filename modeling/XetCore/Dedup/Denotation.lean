import XetCore.Dedup.FileDeduper

/-! # What file entries denote

Entries denote a chunk list when every entry lies inside its xorb, has the byte count of
its chunks, and the chunks joined are the list. The operations on entries are the ways in
which the list can grow.
-/
namespace XetCore.Dedup
open Merkle Chunking Extents List

variable {H : Type}

theorem byteCount_append (xs ys : List (Chunk H)) :
    byteCount (xs ++ ys) = byteCount xs + byteCount ys := by
  simp [byteCount]

def FileDataSequenceEntry.extent (e : FileDataSequenceEntry H) : Extent H :=
  ⟨e.xorbHash,e.chunkIndexStart,e.chunkIndexEnd⟩

def FileDataSequenceEntry.read (source : H → List (Chunk H)) (e : FileDataSequenceEntry H) :
    List (Chunk H) :=
  e.extent.read source

structure EntryOk (source : H → List (Chunk H)) (e : FileDataSequenceEntry H) : Prop where
  within : e.extent.Within source
  bytes : e.unpackedSegmentBytes = byteCount (e.read source)

structure Denotes (source : H → List (Chunk H)) (entries : List (FileDataSequenceEntry H))
    (chunks : List (Chunk H)) : Prop where
  ok : ∀ e ∈ entries, EntryOk source e
  chunks_eq : entries.flatMap (·.read source) = chunks

variable {source source' : H → List (Chunk H)} {es : List (FileDataSequenceEntry H)} {cs : List (Chunk H)}
variable {e last : FileDataSequenceEntry H}

theorem EntryOk.chunk_count (h : EntryOk source e) :
    (e.read source).length = e.chunkIndexEnd - e.chunkIndexStart :=
  h.within.read_length

theorem denotes_nil (source : H → List (Chunk H)) : Denotes source [] [] := ⟨by simp,rfl⟩

theorem Denotes.append {fs : List (FileDataSequenceEntry H)} {ds : List (Chunk H)}
    (h : Denotes source es cs)
    (h' : Denotes source fs ds) : Denotes source (es ++ fs) (cs ++ ds) where
  ok f hf := (mem_append.mp hf).elim (h.ok f) (h'.ok f)
  chunks_eq := by rw [flatMap_append,h.chunks_eq,h'.chunks_eq]

theorem EntryOk.denotes (h : EntryOk source e) :
    Denotes source [e] (e.read source) := ⟨by simpa using h,by simp⟩

/-- The last entry takes in an entry that starts where it ends. -/
theorem Denotes.extend_last (h : Denotes source (es ++ [last]) cs) (he : EntryOk source e)
    (hx : last.xorbHash = e.xorbHash) (hj : last.chunkIndexEnd = e.chunkIndexStart) :
    Denotes source (es ++ [{ last with
      unpackedSegmentBytes := last.unpackedSegmentBytes + e.unpackedSegmentBytes
      chunkIndexEnd := e.chunkIndexEnd }]) (cs ++ e.read source) := by
  have hl := h.ok last (by simp)
  have hls := hl.within.start_le
  have hes := he.within.start_le
  have hs := he.within.stop_le
  simp only [FileDataSequenceEntry.extent] at hls hes hs
  have hjo : ({ last with
      unpackedSegmentBytes := last.unpackedSegmentBytes + e.unpackedSegmentBytes
      chunkIndexEnd := e.chunkIndexEnd } : FileDataSequenceEntry H).read source =
        last.read source ++ e.read source := by
    simp only [FileDataSequenceEntry.read,Extent.read,FileDataSequenceEntry.extent,hx]
    rw [hj,slice_append_slice _ (by omega) (by omega)]
  have hok : EntryOk source { last with
      unpackedSegmentBytes := last.unpackedSegmentBytes + e.unpackedSegmentBytes
      chunkIndexEnd := e.chunkIndexEnd } := by
    refine ⟨⟨?_,?_⟩,?_⟩
    · simp only [FileDataSequenceEntry.extent]
      omega
    · simpa only [FileDataSequenceEntry.extent,hx] using hs
    · rw [hjo,byteCount_append,hl.bytes,he.bytes]
  refine ⟨?_,?_⟩
  · intro f hf
    rcases mem_append.mp hf with hf | hf
    · exact h.ok f (by simp [hf])
    · rw [mem_singleton.mp hf]
      exact hok
  · have hc := h.chunks_eq
    simp only [flatMap_append,flatMap_singleton] at hc ⊢
    rw [hjo,← append_assoc,hc]

/-- Entries may be rewritten and sources changed, as long as each entry reads the same chunks. -/
theorem Denotes.rewrite (h : Denotes source es cs) (f : FileDataSequenceEntry H → FileDataSequenceEntry H)
    (hf : ∀ e ∈ es, EntryOk source e → EntryOk source' (f e) ∧ (f e).read source' = e.read source) :
    Denotes source' (es.map f) cs where
  ok g hg := by
    obtain ⟨e,he,rfl⟩ := mem_map.mp hg
    exact (hf e he (h.ok e he)).1
  chunks_eq := by
    rw [← h.chunks_eq,flatMap_map]
    exact flatMap_congr fun e he => (hf e he (h.ok e he)).2

theorem EntryOk.grow (h : EntryOk source e) (hg : source e.xorbHash <+: source' e.xorbHash) :
    EntryOk source' e ∧ e.read source' = e.read source := by
  have hr : e.read source' = e.read source := by
    obtain ⟨t,ht⟩ := hg
    exact (congrArg (slice · _ _) ht.symm).trans (slice_append_left t h.within.stop_le)
  refine ⟨⟨h.within.grow hg,?_⟩,hr⟩
  rw [hr]
  exact h.bytes

theorem Denotes.grow (h : Denotes source es cs) (hg : ∀ x, source x <+: source' x) :
    Denotes source' es cs := by
  have := h.rewrite id fun e _ he => he.grow (hg e.xorbHash)
  simpa using this

theorem EntryOk.rename (h : EntryOk source e) {x : H} (hx : source' x = source e.xorbHash) :
    EntryOk source' { e with xorbHash := x } ∧
    ({ e with xorbHash := x } : FileDataSequenceEntry H).read source' =
      e.read source := by
  have hr : ({ e with xorbHash := x } : FileDataSequenceEntry H).read source' = e.read source := by
    simp [FileDataSequenceEntry.read,Extent.read,FileDataSequenceEntry.extent,hx]
  refine ⟨⟨⟨h.within.start_le,?_⟩,?_⟩,hr⟩
  · simpa only [FileDataSequenceEntry.extent,hx] using h.within.stop_le
  · rw [hr]
    exact h.bytes

/-- An entry whose xorb is placed behind other chunks. -/
theorem EntryOk.shift (h : EntryOk source e) {before : List (Chunk H)}
    (hs : source' e.xorbHash = before ++ source e.xorbHash) : EntryOk source' { e with
      chunkIndexStart := e.chunkIndexStart + before.length
      chunkIndexEnd := e.chunkIndexEnd + before.length } ∧
    ({ e with
      chunkIndexStart := e.chunkIndexStart + before.length
      chunkIndexEnd := e.chunkIndexEnd + before.length } : FileDataSequenceEntry H).read source' =
        e.read source := by
  have hr : ({ e with
      chunkIndexStart := e.chunkIndexStart + before.length
      chunkIndexEnd := e.chunkIndexEnd + before.length } : FileDataSequenceEntry H).read source' =
        e.read source := by
    simp only [FileDataSequenceEntry.read,Extent.read,FileDataSequenceEntry.extent,hs]
    rw [Nat.add_comm,Nat.add_comm e.chunkIndexEnd,slice_append_right]
  have hst := h.within.start_le
  have hsp := h.within.stop_le
  simp only [FileDataSequenceEntry.extent] at hst hsp
  refine ⟨⟨⟨?_,?_⟩,?_⟩,hr⟩
  · simp only [FileDataSequenceEntry.extent]
    omega
  · simp only [FileDataSequenceEntry.extent,hs,length_append]
    omega
  · rw [hr]
    exact h.bytes

theorem Denotes.bytes_sum (h : Denotes source es cs) :
    (es.map (·.unpackedSegmentBytes)).sum = byteCount cs := by
  rw [← h.chunks_eq]
  have hok := h.ok
  clear h
  induction es with
  | nil => simp [byteCount]
  | cons e es ih =>
    rw [map_cons,sum_cons,flatMap_cons,byteCount_append,(hok e (by simp)).bytes,ih fun f hf =>
      hok f (by simp [hf])]

section Markers
variable [DecidableEq H]
variable {marker xorbHash : H} {store : H → List (Chunk H)} {newData : List (Chunk H)}

def openSource (marker : H) (newData : List (Chunk H)) (store : H → List (Chunk H)) (h : H) :
    List (Chunk H) :=
  if h = marker then newData else store h

@[simp] theorem openSource_marker (marker : H) (newData : List (Chunk H)) (store : H → List (Chunk H)) :
    openSource marker newData store marker = newData := if_pos rfl

theorem openSource_of_ne {h : H} (hm : h ≠ marker) (newData : List (Chunk H))
    (store : H → List (Chunk H)) :
    openSource marker newData store h = store h := if_neg hm

def markerIndices (marker : H) (entries : List (FileDataSequenceEntry H)) : List ℕ :=
  entries.findIdxs (fun e => e.xorbHash = marker)

def FileDataSequenceEntry.close (marker xorbHash : H) (e : FileDataSequenceEntry H) :
    FileDataSequenceEntry H :=
  if e.xorbHash = marker then { e with xorbHash := xorbHash } else e

theorem foldl_modify_findIdxs {α : Type*} (p : α → Bool) (f : α → α) (xs ys : List α) :
    (ys.findIdxs p xs.length).foldl (fun es i => es.modify i f) (xs ++ ys) =
      xs ++ ys.map (fun y => if p y then f y else y) := by
  induction ys generalizing xs with
  | nil => simp
  | cons y ys ih =>
    rw [findIdxs_cons]
    cases hp : p y with
    | true =>
      have h := ih (xs ++ [f y])
      rw [length_append,length_singleton,append_assoc] at h
      have hm : (xs ++ y :: ys).modify xs.length f = xs ++ ([f y] ++ ys) := by
        rw [modify_eq_take_cons_drop (by simp)]
        simp
      rw [if_pos rfl,foldl_cons,hm,h]
      simp [hp]
    | false =>
      have h := ih (xs ++ [y])
      rw [length_append,length_singleton,append_assoc] at h
      rw [if_neg (by simp),show xs ++ y :: ys = xs ++ ([y] ++ ys) by simp,h]
      simp [hp]

theorem setXorbHash_markerIndices (marker xorbHash : H) (entries : List (FileDataSequenceEntry H)) :
    setXorbHash xorbHash entries (markerIndices marker entries) =
      entries.map (·.close marker xorbHash) := by
  have h := foldl_modify_findIdxs (fun e : FileDataSequenceEntry H => decide (e.xorbHash = marker))
    (fun e => { e with xorbHash := xorbHash }) [] entries
  simpa [setXorbHash,markerIndices,FileDataSequenceEntry.close] using h

/-- When the open data becomes a stored xorb, an entry that points to it reads the same chunks. -/
theorem EntryOk.close
    (he : EntryOk (openSource marker newData store) e) (hs : store xorbHash = newData)
    (hm : xorbHash ≠ marker)
    (newData' : List (Chunk H)) : EntryOk (openSource marker newData' store) (e.close marker xorbHash) ∧
      (e.close marker xorbHash).read (openSource marker newData' store) =
        e.read (openSource marker newData store) := by
  unfold FileDataSequenceEntry.close
  split_ifs with hma
  · exact he.rename (by rw [hma,openSource_of_ne hm,openSource_marker,hs])
  · exact he.grow (by rw [openSource_of_ne hma,openSource_of_ne hma])

theorem Denotes.close (h : Denotes (openSource marker newData store) es cs)
    (hs : store xorbHash = newData) (hm : xorbHash ≠ marker) (newData' : List (Chunk H)) :
    Denotes (openSource marker newData' store) (es.map (·.close marker xorbHash)) cs :=
  h.rewrite _ fun _ _ he => he.close hs hm newData'

theorem close_ne_marker (hm : xorbHash ≠ marker) (e : FileDataSequenceEntry H) :
    (e.close marker xorbHash).xorbHash ≠ marker := by
  unfold FileDataSequenceEntry.close
  split_ifs with h
  · exact hm
  · exact h

theorem markerIndices_concat (marker : H) (es : List (FileDataSequenceEntry H))
    (e : FileDataSequenceEntry H) :
    markerIndices marker (es ++ [e]) =
      if e.xorbHash = marker then markerIndices marker es ++ [es.length]
        else markerIndices marker es := by
  unfold markerIndices
  split <;> simp_all

end Markers
end XetCore.Dedup
