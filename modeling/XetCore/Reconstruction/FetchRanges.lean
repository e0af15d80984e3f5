import XetCore.Reconstruction.TermLoop

/-! # The ranges to fetch

The merged ranges of a xorb are kept apart from each other and cover the ranges of
its terms. A response of either version holds exactly these ranges, in groups.
-/
namespace XetCore.Reconstruction
open Dedup Chunking Extents Intervals List

variable {H : Type}

theorem mergeFrom_chunkRanges (cur : MergedRange) (rest : List MergedRange) :
    (mergeFrom cur rest).map (·.chunkRange) = coalesceFrom cur.chunkRange (rest.map (·.chunkRange)) := by
  induction rest generalizing cur with
  | nil => rfl
  | cons next rest ih =>
    rw [mergeFrom,map_cons,coalesceFrom]
    split
    · exact ih _
    · rw [map_cons,ih]

theorem mergeRanges_chunkRanges (ms : List MergedRange) :
    (mergeRanges ms).map (·.chunkRange) = coalesce (ms.map (·.chunkRange)) := by
  have hs := map_insertionSort (fun a b => a.chunkRange.start ≤ b.chunkRange.start) StartsBefore
    (fun m : MergedRange => m.chunkRange) ms fun _ _ _ _ => Iff.rfl
  unfold mergeRanges coalesce
  rw [← hs]
  cases ms.insertionSort (fun a b => a.chunkRange.start ≤ b.chunkRange.start) with
  | nil => rfl
  | cons cur rest => exact mergeFrom_chunkRanges cur rest

variable [DecidableEq H] {store : H → List (Chunk H)}
  {getXorbFooter : H → Except (ClientError H) XorbObject}

/-- The ranges to fetch of each xorb are apart, and those of a term's xorb cover the term. -/
structure Fetchable (store : H → List (Chunk H)) (terms : List (XorbReconstructionTerm H))
    (ranges : List (H × List ChunkRange)) : Prop where
  term : ∀ t ∈ terms, ∃ rs, ranges.lookup t.hash = some rs ∧ Covered t.range rs
  apart : ∀ h rs, ranges.lookup h = some rs → Apart (store h).length rs

theorem lookup_map_snd {α β : Type} (f : α → β) (m : List (H × α)) (k : H) :
    (m.map fun p => (p.1,f p.2)).lookup k = (m.lookup k).map f := by
  induction m with
  | nil => rfl
  | cons p m ih =>
    rw [map_cons,lookup_cons_ite,lookup_cons_ite,ih]
    split <;> rfl

def chunkRangesOf (merged : List (H × List MergedRange)) : List (H × List ChunkRange) :=
  merged.map fun p => (p.1,p.2.map (·.chunkRange))

theorem Listed.fetchable {terms : List (XorbReconstructionTerm H)} {ranges : List (H × List MergedRange)}
    (h : Listed store terms ranges) :
    Fetchable store terms (chunkRangesOf (ranges.map fun p => (p.1,mergeRanges p.2))) := by
  have hl : ∀ k, (chunkRangesOf (ranges.map fun p => (p.1,mergeRanges p.2))).lookup k =
      (ranges.lookup k).map fun ms => coalesce (ms.map (·.chunkRange)) := by
    intro k
    rw [chunkRangesOf,lookup_map_snd,lookup_map_snd,Option.map_map]
    exact congrArg (Option.map · _) (funext mergeRanges_chunkRanges)
  refine ⟨?_,?_⟩
  · intro t ht
    obtain ⟨ms,hms,m,hm,hr⟩ := h.term t ht
    exact ⟨_,by rw [hl,hms]; rfl,coalesce_covers (mem_map.mpr ⟨m,hm,hr⟩)⟩
  · intro k rs hk
    rw [hl] at hk
    obtain ⟨ms,hms,rfl⟩ := Option.map_eq_some_iff.mp hk
    exact coalesce_apart (forall_mem_map.mpr fun m hm => (h.within k ms hms m hm).1)
      (forall_mem_map.mpr fun m hm => (h.within k ms hms m hm).2)

/-- What the client relies on: the terms hold the bytes of the range, behind an offset into the
first term, and the range ends inside the last one. -/
structure Planned (store : H → List (Chunk H)) (file : Bytes) (fileRange : FileRange)
    (offset : ℕ) (terms : List (XorbReconstructionTerm H)) : Prop where
  ok : ∀ t ∈ terms, TermOk store t
  bytes : slice file fileRange.start fileRange.stop =
    slice (terms.flatMap (termBytes store)) offset (offset + (fileRange.stop - fileRange.start))
  covered : offset + (fileRange.stop - fileRange.start) ≤ (terms.flatMap (termBytes store)).length
  in_file : fileRange.start + (terms.flatMap (termBytes store)).length ≤ offset + file.length
  first_lt : ∀ t ∈ terms.head?, offset < t.unpackedLength
  last_lt : (terms.dropLast.flatMap (termBytes store)).length < offset +
    (fileRange.stop - fileRange.start)

theorem TermsInv.planned {fileRange : FileRange} (hr : fileRange.start < fileRange.stop) {file : Bytes}
    {s : TermState H} (h : TermsInv store fileRange file s) (hne : s.terms ≠ [])
    (hst : fileRange.stop ≤ s.cumulativeBytes) :
    Planned store file fileRange (fileRange.start - s.firstChunkByteStart) s.terms := by
  obtain ⟨lead,trail,hf,hl,-⟩ := h.joined
  have hc := h.cumulative
  have hfi := h.first_le
  refine ⟨h.ok,?_,by omega,?_,?_,?_⟩
  · have hs := slice_append_right lead (s.terms.flatMap (termBytes store) ++ trail)
      (fileRange.start - s.firstChunkByteStart) (fileRange.stop - s.firstChunkByteStart)
    rw [hl,Nat.add_sub_cancel' hfi,Nat.add_sub_cancel' (by omega),← append_assoc,← hf,
      slice_append_left _ (by omega)] at hs
    rw [hs]
    congr 1
    omega
  · rw [hf,length_append,length_append]
    omega
  · intro t ht
    have := h.first_lt t ht
    omega
  · have := h.last_lt hne
    omega

theorem rangesIn_spec {fi : MDBFileInfo H} (hes : ∀ e ∈ fi.segments, SegmentOk store getXorbFooter e)
    {fileRange : FileRange} (hr : fileRange.start < fileRange.stop)
    (hst : fileRange.stop ≤ (fileBytes store fi.segments).length) :
    ∃ r, rangesIn getXorbFooter fi fileRange = .ok r ∧ r.terms ≠ [] ∧
      Planned store (fileBytes store fi.segments) fileRange r.offsetIntoFirstRange r.terms ∧
      Fetchable store r.terms (chunkRangesOf r.merged) := by
  obtain ⟨skipped,e,rest,hs,hsk,hle,hlt⟩ := skipSegments_spec hes
    (show fileRange.start < 0 + (fileBytes store fi.segments).length by omega) (Nat.zero_le _)
  rw [Nat.zero_add] at hsk hle hlt
  let s₀ : TermState H :=
    { cumulativeBytes := (fileBytes store skipped).length, firstChunkByteStart :=
      (fileBytes store skipped).length }
  have hin : TermsInv store fileRange (fileBytes store skipped) s₀ :=
    ⟨by simp [s₀],⟨by simp [s₀],by simp [s₀]⟩,⟨fileBytes store skipped,[],by simp [s₀],rfl,Or.inr rfl⟩,
      by simp [s₀],hle,by simp [s₀],fun h => absurd rfl h⟩
  have hp := hle.trans_lt hr
  rw [hs] at hes
  obtain ⟨s₁,hru₁,hne₁,hiv₁⟩ := hin.step hr (hes e (by simp)) hp fun _ => hlt
  have hre : ∀ f ∈ rest, SegmentOk store getXorbFooter f := fun f hf => hes f (by simp [hf])
  obtain ⟨s₂,hru₂,hne,hiv,he⟩ := termLoop_spec hr hre hiv₁ hne₁
  have hfi : fileBytes store skipped ++ segmentBytes store e ++ fileBytes store rest =
    fileBytes store fi.segments := by
    rw [hs]
    simp [fileBytes]
  rw [hfi] at hiv he
  refine ⟨⟨fileRange.start - s₂.firstChunkByteStart,s₂.terms,s₂.fetchInfoMap.map fun p =>
    (p.1,mergeRanges p.2)⟩,?_,hne,hiv.planned hr hne (by omega),hiv.listed.fetchable⟩
  have hl : termLoop getXorbFooter fileRange (e :: rest) s₀ = .ok s₂ := by
    rw [termLoop,if_pos hp,hru₁]
    exact hru₂
  rw [rangesIn,hsk]
  simp only [bind,Except.bind,hl,s₀]
  rfl

theorem chunksOf_flatten {α : Type} {n : ℕ} (hn : 1 ≤ n) {fuel : ℕ} {xs : List α}
    (hf : xs.length ≤ fuel) :
    (chunksOf n fuel xs).flatten = xs := by
  induction fuel generalizing xs with
  | zero => rw [chunksOf,flatten_nil,eq_nil_of_length_eq_zero (Nat.le_zero.mp hf)]
  | succ fuel ih =>
    rw [chunksOf]
    split_ifs with hni
    · rw [flatten_nil,isEmpty_iff.mp hni]
    · rw [flatten_cons,ih (by rw [length_drop]; omega),take_append_drop]

def ApiVersion.Allowed : ApiVersion → Prop
  | .v1 => True
  | .v2 maxRanges => 1 ≤ maxRanges

def fetchedRanges (fetches : List XorbMultiRangeFetch) : List ChunkRange :=
  (fetches.flatMap (·.ranges)).map (·.chunks)

theorem fetchedRanges_groups (groups : List (List MergedRange)) :
    fetchedRanges (groups.map fun group =>
      { ranges := group.map fun m => ⟨m.chunkRange,.ofFileRange m.byteRange⟩ }) =
      groups.flatten.map (·.chunkRange) := by
  induction groups with
  | nil => rfl
  | cons group groups ih =>
    rw [fetchedRanges,map_cons,flatMap_cons,map_append,flatten_cons,map_append,← ih,map_map]
    rfl

omit [DecidableEq H] in
theorem respond_ranges {version : ApiVersion} (hv : version.Allowed) {r : ReconstructionRanges H}
    (hne : r.terms ≠ []) :
    (respond version r).xorbs.map (fun p => (p.1,fetchedRanges p.2)) = chunkRangesOf r.merged := by
  cases version with
  | v1 =>
    simp only [respond,QueryReconstructionResponseV2.ofV1,getReconstructionV1,List.isEmpty_iff,if_neg hne,
      List.map_map,chunkRangesOf]
    refine List.map_congr_left fun p _ => congrArg (Prod.mk p.1) ?_
    have h := fetchedRanges_groups (p.2.map ([·]))
    rw [List.map_map,← List.flatMap_def,List.flatMap_singleton'] at h
    rw [Function.comp_apply,List.map_map]
    exact h
  | v2 maxRanges =>
    simp only [respond,getReconstructionV2,List.isEmpty_iff,if_neg hne,List.map_map,chunkRangesOf]
    refine List.map_congr_left fun p _ => congrArg (Prod.mk p.1) ?_
    have h := fetchedRanges_groups (chunksOf maxRanges p.2.length p.2)
    rwa [chunksOf_flatten hv le_rfl] at h

end XetCore.Reconstruction
