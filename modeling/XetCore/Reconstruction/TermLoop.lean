import XetCore.Reconstruction.PlanningSpec

/-! # The terms of a range

The loop over the segments keeps the terms so far in step with the bytes of the
segments so far: what lies before the first term is cut off, and behind the last one
nothing is cut off unless the end of the range has been reached.
-/
namespace XetCore.Reconstruction
open Dedup Chunking Extents Intervals List

variable {H : Type} [DecidableEq H]
variable {store : H → List (Chunk H)} {getXorbFooter : H → Except (ClientError H) XorbObject}
variable {fileRange : FileRange} {before : Bytes} {s : TermState H} {es : List (FileDataSequenceEntry H)}

theorem lookup_cons_ite {κ α : Type} [BEq κ] [LawfulBEq κ] [DecidableEq κ] (k k₀ : κ) (v : α)
    (m : List (κ × α)) :
    ((k₀,v) :: m).lookup k = if k = k₀ then some v else m.lookup k := by
  rw [List.lookup_cons]
  by_cases h : k = k₀
  · simp [h]
  · simp [h,beq_eq_false_iff_ne.mpr h]

theorem lookup_pushAt {α : Type} (k k' : H) (a : α) (m : List (H × List α)) :
    (pushAt k a m).lookup k' = if k' = k then some ((m.lookup k).getD [] ++ [a]) else m.lookup k' := by
  induction m with
  | nil => simp [pushAt,lookup_cons_ite]
  | cons p m ih =>
    obtain ⟨k₀,as⟩ := p
    rw [pushAt]
    split
    · rename_i h₀
      subst h₀
      simp only [lookup_cons_ite,↓reduceIte]
      split <;> rfl
    · rename_i h₀
      rw [lookup_cons_ite,ih,lookup_cons_ite,lookup_cons_ite,if_neg (Ne.symm h₀)]
      by_cases h : k' = k
      · rw [h,if_neg (Ne.symm h₀),if_pos rfl,if_pos rfl]
      · rw [if_neg h,if_neg h]

/-- Every term has its range in the list of its xorb, and the lists hold ranges inside the xorbs. -/
structure Listed (store : H → List (Chunk H)) (terms : List (XorbReconstructionTerm H))
    (ranges : List (H × List MergedRange)) : Prop where
  term : ∀ t ∈ terms, ∃ ms, ranges.lookup t.hash = some ms ∧ ∃ m ∈ ms, m.chunkRange = t.range
  within : ∀ h ms, ranges.lookup h = some ms → ∀ m ∈ ms,
    m.chunkRange.start < m.chunkRange.stop ∧ m.chunkRange.stop ≤ (store h).length

theorem Listed.push {terms : List (XorbReconstructionTerm H)} {ranges : List (H × List MergedRange)}
    (h : Listed store terms ranges) {t : XorbReconstructionTerm H} (ht : TermOk store t) {m : MergedRange}
    (hm : m.chunkRange = t.range) : Listed store (terms ++ [t]) (pushAt t.hash m ranges) where
  term u hu := by
    rw [lookup_pushAt]
    rcases mem_append.mp hu with hu | hu
    · obtain ⟨ms,hms,r,hr,hru⟩ := h.term u hu
      split_ifs with heq
      · rw [heq] at hms
        exact ⟨_,rfl,r,by rw [hms]; exact mem_append_left _ hr,hru⟩
      · exact ⟨ms,hms,r,hr,hru⟩
    · obtain rfl := mem_singleton.mp hu
      exact ⟨_,if_pos rfl,m,by simp,hm⟩
  within k ms hk r hr := by
    rw [lookup_pushAt] at hk
    split_ifs at hk with heq
    · cases hk
      rcases mem_append.mp hr with hr | hr
      · cases hl : ranges.lookup t.hash with
        | none => simp [hl] at hr
        | some rs =>
          rw [hl] at hr
          rw [heq]
          exact h.within t.hash rs hl r hr
      · obtain rfl := mem_singleton.mp hr
        rw [hm,heq]
        exact ⟨ht.lt,ht.stop_le⟩
    · exact h.within k ms hk r hr

/-- The terms so far, for the bytes of the segments up to here. -/
structure TermsInv (store : H → List (Chunk H)) (fileRange : FileRange) (before : Bytes)
    (s : TermState H) :
    Prop where
  ok : ∀ t ∈ s.terms, TermOk store t
  listed : Listed store s.terms s.fetchInfoMap
  joined : ∃ lead trail, before = lead ++ s.terms.flatMap (termBytes store) ++ trail ∧
    lead.length = s.firstChunkByteStart ∧ (fileRange.stop ≤ s.cumulativeBytes ∨ trail = [])
  cumulative : s.cumulativeBytes = s.firstChunkByteStart + (s.terms.flatMap (termBytes store)).length
  first_le : s.firstChunkByteStart ≤ fileRange.start
  first_lt : ∀ t ∈ s.terms.head?, fileRange.start < s.firstChunkByteStart + t.unpackedLength
  last_lt : s.terms ≠ [] → s.firstChunkByteStart +
    (s.terms.dropLast.flatMap (termBytes store)).length < fileRange.stop

theorem TermsInv.start_lt
    (h : TermsInv store fileRange before s) (hne : s.terms ≠ []) :
    fileRange.start < s.cumulativeBytes := by
  have hc := h.cumulative
  cases hs : s.terms with
  | nil => exact absurd hs hne
  | cons t ts =>
    have hf := h.first_lt t (by simp [hs])
    have hlen := (h.ok t (by simp [hs])).length
    rw [hs,flatMap_cons,length_append] at hc
    omega

theorem TermsInv.step (hr : fileRange.start < fileRange.stop)
    (h : TermsInv store fileRange before s) {e : FileDataSequenceEntry H}
    (he : SegmentOk store getXorbFooter e) (hlt : s.cumulativeBytes < fileRange.stop)
    (hin : s.terms = [] → fileRange.start < s.cumulativeBytes + e.unpackedSegmentBytes) :
    ∃ s', termStep getXorbFooter fileRange e s = .ok s' ∧ s'.terms ≠ [] ∧
      TermsInv store fileRange (before ++ segmentBytes store e) s' := by
  have hin' : fileRange.start < s.cumulativeBytes + e.unpackedSegmentBytes := by
    by_cases hne : s.terms = []
    · exact hin hne
    · have := h.start_lt hne
      omega
  obtain ⟨s',t,lead',trail',m,hru,ht,hh,hse,hte,hm,hma,hf,hcu,hle,hta⟩ :=
    termStep_spec hr he hin' hlt
  obtain ⟨lead,trail,hb,hlen,hen⟩ := h.joined
  -- the loop has not reached the end of the range, so nothing was cut off behind the terms
  obtain rfl : trail = [] := hen.resolve_left (by omega)
  have hc := h.cumulative
  have hn : s.terms ≠ [] → lead' = [] := by
    intro hne
    have := h.start_lt hne
    exact hle.resolve_left (by omega)
  have hj : before ++ segmentBytes store e = (lead ++ lead') ++
    s'.terms.flatMap (termBytes store) ++ trail' := by
    rw [hse,hb,hte,flatMap_append,flatMap_singleton]
    by_cases hne : s.terms = []
    · simp [hne]
    · simp [hn hne]
  have hlen' : (lead ++ lead').length = s'.firstChunkByteStart := by rw [length_append,hlen,hf]
  have hfirst_le := h.first_le
  have htl := ht.length
  refine ⟨s',hru,by simp [hte],?_,?_,⟨lead ++ lead',trail',hj,hlen',hta⟩,?_,?_,?_,?_⟩
  · intro u hu
    rw [hte] at hu
    rcases mem_append.mp hu with hu | hu
    · exact h.ok u hu
    · rw [mem_singleton.mp hu]
      exact ht
  · rw [hte,hma,← hh]
    exact h.listed.push ht hm
  · rw [hte,flatMap_append,flatMap_singleton,length_append]
    omega
  · by_cases hne : s.terms = []
    · rcases hle with hl | hl
      · omega
      · rw [hl,length_nil] at hf
        omega
    · rw [hn hne,length_nil] at hf
      omega
  · intro u hu
    cases hs : s.terms with
    | nil =>
      rw [hte,hs] at hu
      obtain rfl : t = u := by simpa using hu
      rw [hs,flatMap_nil,length_nil] at hc
      have hre : fileRange.start < s'.cumulativeBytes := by
        rcases hta with htr | htr
        · omega
        · have hse' := congrArg List.length hse
          rw [segmentBytes_length he,htr,append_nil,length_append,← htl] at hse'
          omega
      omega
    | cons v vs =>
      rw [hte,hs] at hu
      obtain rfl : v = u := by simpa using hu
      have := h.first_lt v (by simp [hs])
      omega
  · intro _
    rw [hte,dropLast_concat]
    rcases hle with hl | hl
    · by_cases hne : s.terms = []
      · omega
      · omega
    · rw [hl,length_nil] at hf
      omega

theorem termLoop_spec (hr : fileRange.start < fileRange.stop)
    (hes : ∀ e ∈ es, SegmentOk store getXorbFooter e) (h : TermsInv store fileRange before s)
    (hne : s.terms ≠ []) :
    ∃ s', termLoop getXorbFooter fileRange es s = .ok s' ∧ s'.terms ≠ [] ∧
      TermsInv store fileRange (before ++ fileBytes store es) s' ∧
      min fileRange.stop (before ++ fileBytes store es).length ≤ s'.cumulativeBytes := by
  induction es generalizing before s with
  | nil =>
    obtain ⟨lead,trail,hb,hlen,he⟩ := h.joined
    refine ⟨s,rfl,hne,by simpa [fileBytes] using h,?_⟩
    rcases he with he | he
    · omega
    · have := h.cumulative
      rw [hb,he]
      simp only [fileBytes,flatMap_nil,append_nil,length_append]
      omega
  | cons e es ih =>
    have hby : fileBytes store (e :: es) = segmentBytes store e ++ fileBytes store es := rfl
    rw [hby]
    by_cases hlt : s.cumulativeBytes < fileRange.stop
    · obtain ⟨s',hru,hne',hin⟩ := h.step hr (hes e (by simp)) hlt (fun hn => absurd hn hne)
      obtain ⟨s'',hru',hne'',hin',he⟩ := ih (fun f hf => hes f (by simp [hf])) hin hne'
      rw [append_assoc] at hin' he
      refine ⟨s'',?_,hne'',hin',he⟩
      rw [termLoop,if_pos hlt,hru]
      exact hru'
    · obtain ⟨lead,trail,hb,hlen,he⟩ := h.joined
      refine ⟨s,by rw [termLoop,if_neg hlt],hne,?_,by omega⟩
      exact { h with joined := ⟨lead,trail ++ (segmentBytes store e ++ fileBytes store es),by
        rw [hb,append_assoc],hlen,Or.inl (by omega)⟩ }

omit [DecidableEq H] in
/-- The skipped segments end before the start of the range, and the next one does not. -/
theorem skipSegments_spec {start : ℕ}
    (hes : ∀ e ∈ es, SegmentOk store getXorbFooter e) {cum : ℕ}
    (hin : start < cum + (fileBytes store es).length)
    (hle : cum ≤ start) : ∃ skipped e rest, es = skipped ++ e :: rest ∧
      skipSegments start cum es = .ok (cum + (fileBytes store skipped).length,e :: rest) ∧
      cum + (fileBytes store skipped).length ≤ start ∧
      start < cum + (fileBytes store skipped).length + e.unpackedSegmentBytes := by
  induction es generalizing cum with
  | nil =>
    simp only [fileBytes,List.flatMap_nil,List.length_nil] at hin
    omega
  | cons e es ih =>
    have hlen := segmentBytes_length (hes e (by simp))
    by_cases hgt : cum + e.unpackedSegmentBytes > start
    · exact ⟨[],e,es,rfl,by rw [skipSegments,if_pos hgt]; rfl,by simpa [fileBytes] using hle,
        by simpa [fileBytes] using hgt⟩
    · have hb : (fileBytes store (e :: es)).length = e.unpackedSegmentBytes +
        (fileBytes store es).length := by
        rw [fileBytes,List.flatMap_cons,List.length_append,hlen]
        rfl
      have hin' : start < cum + e.unpackedSegmentBytes + (fileBytes store es).length := by omega
      obtain ⟨skipped,f,rest,hes',hr,h1,h2⟩ := ih (fun g hg => hes g (by simp [hg])) hin' (by omega)
      have hsk : (fileBytes store (e :: skipped)).length = e.unpackedSegmentBytes +
        (fileBytes store skipped).length := by
        rw [fileBytes,List.flatMap_cons,List.length_append,hlen]
        rfl
      refine ⟨e :: skipped,f,rest,by rw [hes']; rfl,?_,by omega,by omega⟩
      rw [skipSegments,if_neg hgt,hr,hsk,Nat.add_assoc]

end XetCore.Reconstruction
