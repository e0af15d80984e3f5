import XetCore.Dedup.Denotation

/-! # The state of a file deduper

At every point of a batch the entries denote the chunks walked so far, read against
the stored xorbs and, under the marker, against the new data. The steps that keep
this are adding an entry, adding a chunk to the new data and cutting a xorb.
-/
namespace XetCore.Dedup
open Merkle Chunking Extents List

variable {H S : Type} {content : H → Bytes} {e : FileDataSequenceEntry H}

/-- The chunk hashes name the contents: no two chunks in play collide. -/
def Genuine (content : H → Bytes) (chunks : List (Chunk H)) : Prop :=
  ∀ c ∈ chunks, c.data = content c.hash

theorem Genuine.of_cons {b : List (Chunk H)} {bs : List (List (Chunk H))}
    (h : Genuine content (b :: bs).flatten) : Genuine content b ∧ Genuine content bs.flatten := by
  exact ⟨fun c hc => h c (mem_append_left _ hc),fun c hc => h c (mem_append_right _ hc)⟩

theorem Genuine.eq_of_hashes {cs ds : List (Chunk H)} (hc : Genuine content cs)
    (hd : Genuine content ds) (h : cs.map (·.hash) = ds.map (·.hash)) : cs = ds := by
  induction cs generalizing ds with
  | nil => simpa using h.symm
  | cons c cs ih =>
    cases ds with
    | nil => simp at h
    | cons d ds =>
      simp only [map_cons,cons.injEq] at h
      have hcd : c = d := by
        have h1 := hc c (by simp)
        have h2 := hd d (by simp)
        cases c
        cases d
        simp_all
      rw [hcd,ih (fun x hx => hc x (by simp [hx])) (fun x hx => hd x (by simp [hx])) h.2]

structure Covers (source : H → List (Chunk H)) (hashes : List H) (n : ℕ)
    (e : FileDataSequenceEntry H) : Prop where
  pos : 0 < n
  ok : EntryOk source e
  stop : e.chunkIndexEnd = e.chunkIndexStart + n
  hashes_eq : (e.read source).map (·.hash) = hashes.take n

theorem Covers.read_eq {source : H → List (Chunk H)} {n : ℕ}
    {cs : List (Chunk H)} (h : Covers source (cs.map (·.hash)) n e)
    (hs : Genuine content (source e.xorbHash)) (hc : Genuine content cs) : e.read source = cs.take n := by
  refine Genuine.eq_of_hashes (fun c hm => hs c (mem_of_mem_slice hm))
    (fun c hm => hc c (mem_of_mem_take hm)) ?_
  rw [h.hashes_eq,map_take]

/-- Stored data is named by its hashes, and answers cover the chunks that were asked for. -/
structure SoundInterface (E : DedupEnv H S) (content : H → Bytes) (store : H → List (Chunk H)) :
    Prop where
  genuine : ∀ x, Genuine content (store x)
  query : ∀ {s hashes n fse up}, (E.interface.chunkHashDedupQuery s hashes).1 = some (n,fse,up) →
    fse.xorbHash ≠ E.marker ∧ Covers store hashes n fse

/-- The xorbs that were registered are stored under their hashes. -/
def Stored (marker : H) (store : H → List (Chunk H)) (xorbs : List (RawXorbData H)) : Prop :=
  ∀ x ∈ xorbs, store x.xorbHash = x.chunks ∧ x.xorbHash ≠ marker

theorem Stored.of_prefix {marker : H} {store : H → List (Chunk H)} {xs ys : List (RawXorbData H)}
    (h : Stored marker store ys) (hp : xs <+: ys) : Stored marker store xs :=
  fun x hx => h x (hp.subset hx)

namespace FileDeduper
variable [DecidableEq H] (E : DedupEnv H S)

def source (store : H → List (Chunk H)) (d : FileDeduper H S) : H → List (Chunk H) :=
  openSource E.marker d.newData store

structure Valid (content : H → Bytes) (store : H → List (Chunk H)) (d : FileDeduper H S)
    (chunks : List (Chunk H)) : Prop where
  denotes : Denotes (d.source E store) d.fileInfo chunks
  markers : d.internallyReferencingEntries = markerIndices E.marker d.fileInfo
  size : d.newDataSize = byteCount d.newData
  lookup : ∀ h i, d.newDataHashLookup.lookup h = some i → d.newData[i]?.map (·.hash) = some h
  genuine : Genuine content d.newData

variable {E} {store : H → List (Chunk H)} {d d' : FileDeduper H S} {cs : List (Chunk H)}
variable {fse : FileDataSequenceEntry H} {chunk : Chunk H}

theorem valid_new (state : S) (fileId : ℕ) : Valid E content store (new state fileId) [] where
  denotes := denotes_nil _
  markers := rfl
  size := rfl
  lookup h i hi := by simp [new] at hi
  genuine c hc := by simp [new] at hc

/-- The tracker, the interface and the counters do not matter. -/
theorem Valid.congr (h : Valid E content store d cs) (hf : d'.fileInfo = d.fileInfo)
    (hn : d'.newData = d.newData)
    (hs : d'.newDataSize = d.newDataSize) (hl : d'.newDataHashLookup = d.newDataHashLookup)
    (hi : d'.internallyReferencingEntries = d.internallyReferencingEntries) :
    Valid E content store d' cs where
  denotes := by
    unfold source
    rw [hf,hn]
    exact h.denotes
  markers := by rw [hi,hf,h.markers]
  size := by rw [hs,hn,h.size]
  lookup := by
    rw [hl,hn]
    exact h.lookup
  genuine := by
    rw [hn]
    exact h.genuine

theorem continues_iff : d.fileDataSequenceContinuesCurrent fse = true ↔
    ∃ es last, d.fileInfo = es ++ [last] ∧ last.xorbHash = fse.xorbHash ∧
    last.chunkIndexEnd = fse.chunkIndexStart := by
  unfold fileDataSequenceContinuesCurrent
  rcases eq_nil_or_concat d.fileInfo with h | ⟨es,last,h⟩
  · simp [h]
  · simp [h]

theorem Valid.addEntry (h : Valid E content store d cs) (hok : EntryOk (d.source E store) fse) (n : ℕ) :
    Valid E content store (d.addFileDataSequenceEntry E fse n) (cs ++ fse.read (d.source E store)) := by
  unfold addFileDataSequenceEntry
  cases hc : d.fileDataSequenceContinuesCurrent fse with
  | true =>
    obtain ⟨es,last,hf,hx,hj⟩ := continues_iff.mp hc
    have hd := h.denotes
    have hm := h.markers
    rw [hf] at hd hm
    rw [if_pos rfl,hf,modifyLast_concat]
    refine ⟨hd.extend_last hok hx hj,?_,h.size,h.lookup,h.genuine⟩
    rw [hm,markerIndices_concat,markerIndices_concat]
  | false =>
    rw [if_neg (by simp)]
    refine ⟨h.denotes.append hok.denotes,?_,h.size,h.lookup,h.genuine⟩
    rw [markerIndices_concat,← h.markers]

theorem extendNewData_eq (d : FileDeduper H S) (nBytes : ℕ) : d.extendNewData E nBytes =
    d.addFileDataSequenceEntry E ⟨E.marker,nBytes,d.newData.length,d.newData.length + 1⟩ 1 := by
  unfold extendNewData addFileDataSequenceEntry fileDataSequenceContinuesCurrent
  rcases eq_nil_or_concat d.fileInfo with h | ⟨es,last,h⟩
  · simp [h]
  · simp only [h,concat_eq_append,getLast?_append,getLast?_singleton,Option.some_or,Option.any_some,
      modifyLast_concat]
    split_ifs with hc
    · simp only [Bool.and_eq_true,decide_eq_true_eq] at hc
      rw [hc.2]
    · rfl

section
variable (h : Valid E content store d cs)
include h

theorem Valid.pushNewData (hg : chunk.data = content chunk.hash) :
    Valid E content store (d.pushNewData chunk) cs where
  denotes := by
    refine h.denotes.grow fun x => ?_
    unfold source openSource
    split
    · exact prefix_append _ _
    · exact prefix_refl _
  markers := h.markers
  size := by
    simp only [FileDeduper.pushNewData,h.size]
    simp [byteCount]
  lookup := by
    intro k i hi
    simp only [FileDeduper.pushNewData,lookup_cons] at hi ⊢
    split at hi
    · rename_i hk
      obtain rfl : d.newData.length = i := by simpa using hi
      simp only [beq_iff_eq] at hk
      simp [hk]
    · have hold := h.lookup k i hi
      have hlt : i < d.newData.length := by
        by_contra hlt
        rw [getElem?_eq_none (by omega)] at hold
        simp at hold
      rwa [getElem?_append_left hlt]
  genuine c hc := by
    simp only [FileDeduper.pushNewData,mem_append,mem_singleton] at hc
    rcases hc with hc | rfl
    · exact h.genuine c hc
    · exact hg

theorem Valid.addChunk (hg : chunk.data = content chunk.hash) :
    Valid E content store ((d.extendNewData E chunk.data.length).pushNewData chunk) (cs ++ [chunk]) := by
  let fse : FileDataSequenceEntry H := ⟨E.marker,chunk.data.length,d.newData.length,d.newData.length + 1⟩
  have hr : fse.read ((d.pushNewData chunk).source E store) = [chunk] := by
    simp [fse,FileDataSequenceEntry.read,Extent.read,FileDataSequenceEntry.extent,source,
      FileDeduper.pushNewData,slice]
  have hok : EntryOk ((d.pushNewData chunk).source E store) fse := by
    refine ⟨⟨?_,?_⟩,?_⟩
    · simp [fse,FileDataSequenceEntry.extent]
    · simp [fse,FileDataSequenceEntry.extent,source,FileDeduper.pushNewData]
    · rw [hr]
      simp [byteCount,fse]
  have ha := (h.pushNewData hg).addEntry hok 1
  rw [hr] at ha
  rw [extendNewData_eq]
  -- the entry does not depend on the data that is pushed after it
  refine ha.congr ?_ ?_ ?_ ?_ ?_ <;>
    (unfold addFileDataSequenceEntry fileDataSequenceContinuesCurrent;
      simp only [FileDeduper.pushNewData,fse];
     split <;> rfl)

theorem Valid.cut (hs : store (d.cutNewXorb E).1.xorbHash = d.newData)
    (hm : (d.cutNewXorb E).1.xorbHash ≠ E.marker) : Valid E content store (d.cutNewXorb E).2 cs where
  denotes := by
    have hc := h.denotes.close hs hm []
    rwa [← setXorbHash_markerIndices,← h.markers] at hc
  markers := by
    have hid := setXorbHash_markerIndices E.marker (d.cutNewXorb E).1.xorbHash d.fileInfo
    rw [← h.markers] at hid
    have hn : markerIndices E.marker (d.cutNewXorb E).2.fileInfo = [] := by
      refine findIdxs_eq_nil_iff.mpr fun e he => decide_eq_false ?_
      simp only [cutNewXorb] at he hid
      rw [hid] at he
      obtain ⟨e,-,rfl⟩ := mem_map.mp he
      exact close_ne_marker hm e
    rw [hn]
    rfl
  size := rfl
  lookup k i hi := by simp [cutNewXorb] at hi
  genuine c hc := by simp [cutNewXorb] at hc

end

end FileDeduper
end XetCore.Dedup
