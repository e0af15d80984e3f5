import XetCore.Lib.Runs
import XetCore.Lib.WindowScan
import XetCore.Merkle.MergePieces
import XetCore.RangeUpload.WindowBuilder

/-! # What the window builder computes

The index into the dirty ranges only serves to tell which chunks meet a dirty range.
With that, the builder is the window scan of the library over the chunks with their
positions, and its windows and subtrees can be read off the partition.
-/
namespace XetCore.RangeUpload
open Merkle MerkleHashSubtree Chunking Dedup Intervals Reconstruction WindowScan ChunkWindowBuilder List

variable {H : Type}
variable (K : NodeHasher H) {ranges : List FileRange} {b : ChunkWindowBuilder H}

abbrev Placed (H : Type) := FileRange × Node H

def place : ℕ → List (Node H) → List (Placed H)
  | _, [] => []
  | pos, c :: cs => (⟨pos,pos + c.2⟩,c) :: place (pos + c.2) cs

def overlaps (x r : FileRange) : Bool := decide (x.stop > r.start) && decide (x.start < r.stop)

def dirty (dirtyRanges : List FileRange) (x : Placed H) : Bool := dirtyRanges.any (overlaps x.1)

def stable (C : Constants) (x : Placed H) : Bool := isStableChunkSize C x.2.2

/-- From the first byte of the first chunk to the last byte of the last one. -/
def extent (w : List (Placed H)) : FileRange :=
  ⟨(w.head?.map (·.1.start)).getD 0,(w.getLast?.map (·.1.stop)).getD 0⟩

theorem extent_singleton (x : Placed H) : extent [x] = x.1 := rfl

theorem toOption_fromChunks (s e : Bool) (chunks : List (Node H)) : toOption (fromChunks K s chunks e) =
      if chunks.isEmpty then none else some (fromChunks K s chunks e) := by
  have hif := (represents_fromChunks (K := K) s e chunks).isEmpty_iff
  unfold toOption
  by_cases h : chunks = []
  · rw [if_pos (hif.mpr h),if_pos (by simp [h])]
  · rw [if_neg (fun he => h (hif.mp he)),if_neg (by simpa using h)]

def gapRanges (K : NodeHasher H) :
    Bool → List (List (Placed H) × List (Placed H)) → List (Option (MerkleHashSubtree H))
  | _, [] => []
  | atStart, p :: ps => toOption (fromChunks K atStart (p.1.map (·.2)) false) :: gapRanges K false ps

theorem gapRanges_concat (atStart : Bool) (ps : List (List (Placed H) × List (Placed H)))
    (p : List (Placed H) × List (Placed H)) : gapRanges K atStart (ps ++ [p]) = gapRanges K atStart ps ++
      [toOption (fromChunks K (atStart && ps.isEmpty) (p.1.map (·.2)) false)] := by
  induction ps generalizing atStart with
  | nil => simp [gapRanges]
  | cons q ps ih => simp [gapRanges,ih]

theorem gapRanges_window (atStart : Bool) (ps : List (List (Placed H) × List (Placed H)))
    (g w w' : List (Placed H)) :
    gapRanges K atStart (ps ++ [(g,w)]) = gapRanges K atStart (ps ++ [(g,w')]) := by
  rw [gapRanges_concat,gapRanges_concat]

section Index
variable {before after : List FileRange} {pos idx : ℕ} {r : FileRange}

structure Ordered (ranges : List FileRange) : Prop where
  sorted : ranges.Pairwise fun a b => a.stop ≤ b.start
  lt : ∀ r ∈ ranges, r.start < r.stop

/-- In a gap, the ranges before the index are passed and the others are ahead. -/
structure GapIndex (ranges : List FileRange) (pos idx : ℕ) : Prop where
  split : ∃ before after, ranges = before ++ after ∧ before.length = idx ∧ (∀ r ∈ before, r.stop ≤ pos) ∧
    ∀ r ∈ after, pos ≤ r.start

/-- In a window, the range at the index has been reached and those behind it are ahead. -/
structure WindowIndex (ranges : List FileRange) (pos idx : ℕ) : Prop where
  split : ∃ before r after, ranges = before ++ r :: after ∧ before.length = idx ∧ r.start < pos ∧
    ∀ q ∈ after, pos ≤ q.start

theorem any_overlaps_head (ho : Ordered after) {stop : ℕ} (ha : ∀ r ∈ after, pos ≤ r.start) :
    after.any (overlaps ⟨pos,stop⟩) = after.head?.any (overlaps ⟨pos,stop⟩) := by
  cases after with
  | nil => rfl
  | cons r after =>
    rw [Bool.eq_iff_iff]
    simp only [any_cons,head?_cons,Option.any_some,Bool.or_eq_true,or_iff_left_iff_imp]
    intro han
    obtain ⟨q,hq,hov⟩ := any_eq_true.mp han
    have hlt := ho.lt r (by simp)
    have hs := (pairwise_cons.mp ho.sorted).1 q hq
    have hp := ha r (by simp)
    simp only [overlaps,Bool.and_eq_true,decide_eq_true_eq] at hov ⊢
    omega

theorem Ordered.append_right (h : Ordered (before ++ after)) : Ordered after :=
  ⟨(pairwise_append.mp h.sorted).2.1,fun r hr => h.lt r (by simp [hr])⟩

theorem overlapsDirtyAt_eq (ranges : List FileRange) (idx pos stop : ℕ) :
    overlapsDirtyAt ranges idx pos stop = ranges[idx]?.any (overlaps ⟨pos,stop⟩) := by
  unfold overlapsDirtyAt
  cases ranges[idx]? <;> rfl

theorem any_passed (h : ∀ r ∈ before, r.stop ≤ pos) (stop : ℕ) :
    before.any (overlaps ⟨pos,stop⟩) = false := by
  rw [any_eq_false]
  intro r hr
  have := h r hr
  simp only [overlaps,Bool.and_eq_true,decide_eq_true_eq]
  omega

section
variable (ho : Ordered ranges)
include ho

theorem GapIndex.dirty_eq (h : GapIndex ranges pos idx) (stop : ℕ) :
    ranges.any (overlaps ⟨pos,stop⟩) = overlapsDirtyAt ranges idx pos stop := by
  obtain ⟨before,after,rfl,rfl,hp,ha⟩ := h.split
  rw [any_append,any_passed hp,Bool.false_or,any_overlaps_head ho.append_right ha,
    overlapsDirtyAt_eq,getElem?_append_right le_rfl,Nat.sub_self,head?_eq_getElem?]

theorem passed_of_reached (heq : ranges = before ++ r :: after) (hr : r.start < pos) :
    ∀ q ∈ before, q.stop ≤ pos := by
  intro q hq
  have := (pairwise_append.mp (heq ▸ ho.sorted)).2.2 q hq r (by simp)
  omega

theorem WindowIndex.dirty_eq (h : WindowIndex ranges pos idx) (stop : ℕ) :
    ranges.any (overlaps ⟨pos,stop⟩) = (overlapsDirtyAt ranges idx pos stop ||
      overlapsDirtyAt ranges (idx + 1) pos stop) := by
  obtain ⟨before,r,after,heq,rfl,hr,hah⟩ := h.split
  have hp := passed_of_reached ho heq hr
  subst heq
  have ha : Ordered after := Ordered.append_right (show Ordered ([r] ++ after) from ho.append_right)
  rw [any_append,any_passed hp,Bool.false_or,any_cons,any_overlaps_head ha hah,
    overlapsDirtyAt_eq,overlapsDirtyAt_eq,getElem?_append_right le_rfl,Nat.sub_self,
    getElem?_append_right (by omega),Nat.add_sub_cancel_left,head?_eq_getElem?]
  rfl

theorem mergeAheadLoop_spec (stop : ℕ) {fuel : ℕ}
    (heq : ranges = before ++ r :: after) (hr : r.start < stop) (hf : after.length ≤ fuel) :
    WindowIndex ranges stop (mergeAheadLoop ranges stop fuel before.length) := by
  induction after generalizing before r fuel with
  | nil =>
    have hid : mergeAheadLoop ranges stop fuel before.length = before.length := by
      cases fuel <;> simp [mergeAheadLoop,heq]
    exact ⟨before,r,[],heq,hid.symm,hr,by simp⟩
  | cons q after ih =>
    cases fuel with
    | zero => simp at hf
    | succ fuel =>
      have hg : ranges[before.length + 1]? = some q := by simp [heq]
      rw [mergeAheadLoop,hg]
      simp only
      split_ifs with hq
      · have heq' : ranges = (before ++ [r]) ++ q :: after := by simp [heq]
        simpa using ih heq' hq (by simpa using hf)
      · refine ⟨before,r,q :: after,heq,rfl,hr,?_⟩
        have hs : (q :: after).Pairwise fun a b => a.stop ≤ b.start :=
          ((pairwise_append.mp (heq ▸ ho.sorted)).2.1).of_cons
        have hlt := ho.lt q (by simp [heq])
        refine forall_mem_cons.mpr ⟨by omega,fun p hp => ?_⟩
        have := (pairwise_cons.mp hs).1 p hp
        omega

end

section Steps
variable {stop : ℕ}

theorem ahead_of_cold (ho : Ordered after) (ha : ∀ r ∈ after, pos ≤ r.start)
    (hc : after.any (overlaps ⟨pos,stop⟩) = false) : ∀ r ∈ after, stop ≤ r.start := by
  intro r hr
  have hov := any_eq_false.mp hc r hr
  have hlt := ho.lt r hr
  have hp := ha r hr
  simp only [overlaps,Bool.and_eq_true,decide_eq_true_eq] at hov
  omega

section
variable (ho : Ordered ranges)
include ho

theorem GapIndex.pass (h : GapIndex ranges pos idx) (hle : pos ≤ stop)
    (hc : ranges.any (overlaps ⟨pos,stop⟩) = false) : GapIndex ranges stop idx := by
  obtain ⟨before,after,rfl,hid,hp,ha⟩ := h.split
  rw [any_append,Bool.or_eq_false_iff] at hc
  exact ⟨before,after,rfl,hid,fun r hr => (hp r hr).trans hle,ahead_of_cold ho.append_right ha hc.2⟩

theorem GapIndex.enter (h : GapIndex ranges pos idx) (hh : ranges.any (overlaps ⟨pos,stop⟩) = true) :
    WindowIndex ranges stop (mergeAheadLoop ranges stop ranges.length idx) := by
  rw [h.dirty_eq ho,overlapsDirtyAt_eq] at hh
  obtain ⟨before,after,rfl,rfl,-,-⟩ := h.split
  rw [getElem?_append_right le_rfl,Nat.sub_self] at hh
  cases after with
  | nil => simp at hh
  | cons r after =>
    simp only [getElem?_cons_zero,Option.any_some,overlaps,Bool.and_eq_true,decide_eq_true_eq] at hh
    exact mergeAheadLoop_spec ho stop rfl hh.1 (by simp only [length_append,length_cons]; omega)

section
variable (h : WindowIndex ranges pos idx)
include h

theorem WindowIndex.extend (hle : pos ≤ stop) (hh : ranges.any (overlaps ⟨pos,stop⟩) = true) :
    WindowIndex ranges stop (mergeAheadLoop ranges stop ranges.length
      (if overlapsDirtyAt ranges idx pos stop then idx else idx + 1)) := by
  rw [h.dirty_eq ho] at hh
  obtain ⟨before,r,after,rfl,rfl,hr,-⟩ := h.split
  split_ifs with hno
  · exact mergeAheadLoop_spec ho stop rfl (by omega) (by simp only [length_append,length_cons]; omega)
  · have hn := (Bool.or_eq_true _ _ ▸ hh).resolve_left hno
    rw [overlapsDirtyAt_eq,getElem?_append_right (by omega),Nat.add_sub_cancel_left] at hn
    cases after with
    | nil => simp at hn
    | cons q after =>
      simp only [getElem?_cons_succ,getElem?_cons_zero,Option.any_some,overlaps,Bool.and_eq_true,
        decide_eq_true_eq] at hn
      have heq : before ++ r :: q :: after = (before ++ [r]) ++ q :: after := by simp
      have := mergeAheadLoop_spec ho stop heq hn.1
        (show after.length ≤ (before ++ r :: q :: after).length by
        simp only [length_append,length_cons]; omega)
      simpa using this

theorem WindowIndex.pass (hle : pos ≤ stop)
    (hc : ranges.any (overlaps ⟨pos,stop⟩) = false) : WindowIndex ranges stop idx := by
  obtain ⟨before,r,after,rfl,hid,hr,hah⟩ := h.split
  simp only [any_append,any_cons,Bool.or_eq_false_iff] at hc
  have ha : Ordered after := Ordered.append_right (show Ordered ([r] ++ after) from ho.append_right)
  exact ⟨before,r,after,rfl,hid,by omega,ahead_of_cold ha hah hc.2.2⟩

theorem WindowIndex.leave (hle : pos ≤ stop)
    (hc : ranges.any (overlaps ⟨pos,stop⟩) = false) : GapIndex ranges stop (idx + 1) := by
  obtain ⟨before,r,after,heq,hid,hr,hah⟩ := h.split
  have hp := passed_of_reached ho heq hr
  have hc' := hc
  subst heq
  simp only [any_append,any_cons,Bool.or_eq_false_iff] at hc'
  have ha : Ordered after := Ordered.append_right (show Ordered ([r] ++ after) from ho.append_right)
  have hov : ¬(overlaps ⟨pos,stop⟩ r = true) := by simp [hc'.2.1]
  simp only [overlaps,Bool.and_eq_true,decide_eq_true_eq] at hov
  refine ⟨before ++ [r],after,by simp,by simp [hid],?_,ahead_of_cold ha hah hc'.2.2⟩
  exact forall_mem_concat (fun q hq => (hp q hq).trans hle) (by omega)

end

end

end Steps
end Index

section Builder
variable (C : Constants)

/-- The builder state that belongs to a state of the scan, behind the first `pos` bytes. -/
structure Simulates (ranges : List FileRange) (K : NodeHasher H) (pos : ℕ) (s : Split (Placed H))
    (b : ChunkWindowBuilder H) : Prop where
  windows : b.windows = s.pairs.map fun p => extent p.2
  hashRanges : b.hashRanges = gapRanges K true s.pairs
  gapChunks : b.gapChunks = s.tail.map (·.2)
  inDirtyZone : b.inDirtyZone = s.window.isSome
  gapIsFirst : b.gapIsFirst = s.closed.isEmpty
  cursor : b.cursor = pos
  tailPrevSize : b.tailPrevSize = (s.window.bind (·.2)).map (·.2.2)
  nonempty : ∀ p ∈ s.window, p.1 ≠ []
  gapIndex : s.window = none → GapIndex ranges pos b.dirtyIdx
  windowIndex : s.window ≠ none → WindowIndex ranges pos b.dirtyIdx

variable {K C}

section
variable (ho : Ordered ranges) {pos : ℕ} {s : Split (Placed H)}
  (h : Simulates ranges K pos s b)
include ho h

theorem Simulates.step (c : Node H) :
    Simulates ranges K (pos + c.2) (step (dirty ranges) (stable C) s (⟨pos,pos + c.2⟩,c))
      (processChunk K C ranges c.1 c.2 (pos + c.2) b) := by
  obtain ⟨closed,gap,window⟩ := s
  obtain ⟨dirtyIdx,inDirtyZone,gapIsFirst,cursor,gapChunks,windows,hashRanges,tailPrevSize⟩ := b
  obtain ⟨hwi,hr,hga,hz,hf,hcu,ht,hne,hg,hwn⟩ := h
  subst hcu hz hwi hr hga hf ht
  have hle : cursor ≤ cursor + c.2 := Nat.le_add_right _ _
  cases window with
  | none =>
    have hid := hg rfl
    have hov := hid.dirty_eq ho (cursor + c.2)
    cases hd : ranges.any (overlaps ⟨cursor,cursor + c.2⟩) with
    | true =>
      simp only [WindowScan.step,dirty,hd,↓reduceIte,processChunk,← hov,
        openWindow,mergeAhead,Option.isSome_none,Bool.not_false]
      refine ⟨?_,?_,by simp [Split.tail],rfl,rfl,rfl,rfl,by simp,by simp,fun _ => hid.enter ho hd⟩
      · simp [Split.pairs,extent_singleton]
      · simp only [Split.pairs,Option.toList_none,map_nil,append_nil,Option.toList_some,map_cons]
        rw [gapRanges_concat]
        rfl
    | false =>
      simp only [WindowScan.step,dirty,hd,processChunk,← hov,Option.isSome_none,Bool.not_false]
      exact ⟨rfl,rfl,by simp [Split.tail],rfl,rfl,rfl,rfl,by simp,fun _ => hid.pass ho hle hd,by simp⟩
  | some p =>
    obtain ⟨w,prev⟩ := p
    have hid := hwn (by simp)
    have hw : w ≠ [] := hne (w,prev) rfl
    have hov := hid.dirty_eq ho (cursor + c.2)
    have he : (closed.map (fun p => extent p.2) ++ [extent w]).modifyLast
      (fun r => ⟨r.start,cursor + c.2⟩) =
        closed.map (fun p => extent p.2) ++ [extent (w ++ [(⟨cursor,cursor + c.2⟩,c)])] := by
      simp [modifyLast_concat,extent,head?_append_of_ne_nil w hw]
    cases hd : ranges.any (overlaps ⟨cursor,cursor + c.2⟩) with
    | true =>
      have hn := hid.extend ho hle hd
      simp only [WindowScan.step,dirty,hd,↓reduceIte,processChunk,← hov,
        extendOpenWindow,mergeAhead,Option.isSome_some,Bool.not_true,
        Bool.false_eq_true]
      refine ⟨?_,?_,?_,?_,?_,rfl,rfl,by simp,by simp,fun _ => ?_⟩
      · split <;> simpa [Split.pairs] using he
      · split <;> simpa [Split.pairs] using gapRanges_window K true closed gap w _
      · split <;> rfl
      · split <;> rfl
      · split <;> rfl
      · cases hat : overlapsDirtyAt ranges dirtyIdx cursor (cursor + c.2) <;>
          simpa [hat] using hn
    | false =>
      have hca : (((some (w,prev)).bind (·.2)).map (·.2.2)).any (fun prev =>
          isStableChunkSize C prev && isStableChunkSize C c.2) =
          (prev.any (stable C) && stable C ((⟨cursor,cursor + c.2⟩,c) : Placed H)) := by
        cases prev <;> simp [stable]
      cases hc : prev.any (stable C) && stable C ((⟨cursor,cursor + c.2⟩,c) : Placed H) with
      | true =>
        simp only [WindowScan.step,dirty,hd,↓reduceIte,processChunk,← hov,extendOpenWindow,
          Bool.false_eq_true,hca,hc]
        refine ⟨?_,?_,rfl,rfl,by simp,rfl,rfl,by simp,fun _ => hid.leave ho hle hd,by simp⟩
        · simpa [Split.pairs] using he
        · simpa [Split.pairs] using gapRanges_window K true closed gap w _
      | false =>
        simp only [WindowScan.step,dirty,hd,processChunk,← hov,extendOpenWindow,hca,hc]
        refine ⟨?_,?_,rfl,rfl,rfl,rfl,rfl,by simp,by simp,fun _ => hid.pass ho hle hd⟩
        · simpa [Split.pairs] using he
        · simpa [Split.pairs] using gapRanges_window K true closed gap w _

theorem Simulates.run (chunks : List (Node H)) : Simulates ranges K (pos + (chunks.map (·.2)).sum)
      ((place pos chunks).foldl (WindowScan.step (dirty ranges) (stable C)) s)
      (processAll K C ranges chunks b) := by
  induction chunks generalizing pos s b with
  | nil => exact h
  | cons c chunks ih =>
    have hn := ih (h.step (C := C) ho c)
    rw [place,foldl_cons,processAll,h.cursor,map_cons,sum_cons,← Nat.add_assoc]
    exact hn

end

theorem simulates_new (K : NodeHasher H) (ranges : List FileRange) : Simulates ranges K 0 {} {} :=
  ⟨rfl,rfl,rfl,rfl,rfl,rfl,rfl,by simp,fun _ => ⟨[],ranges,rfl,rfl,by simp,by simp⟩,by simp⟩

/-- The builder returns the extents of the windows and the subtrees of the gaps of one partition. -/
theorem finish_processAll (K : NodeHasher H) (C : Constants) (ho : Ordered ranges)
    (chunks : List (Node H)) :
    ∃ ps tail, IsSplit (dirty ranges) (stable C) (place 0 chunks) ps tail ∧
      (∀ p ∈ ps, Tight (dirty ranges) (stable C) p.2) ∧
      ((processAll K C ranges chunks {}).finish K).1 = ps.map (fun p => extent p.2) ∧
      ((processAll K C ranges chunks {}).finish K).2 = gapRanges K true ps ++
        [toOption (fromChunks K ps.isEmpty (tail.map (·.2)) true)] := by
  have hsi := (simulates_new K ranges).run (C := C) ho chunks
  have hs := scan_isSplit (dirty ranges) (stable C) (place 0 chunks)
  rw [scan] at hs
  refine ⟨_,_,hs,scan_tight _,hsi.windows,?_⟩
  rw [finish,hsi.hashRanges,hsi.gapChunks,hsi.gapIsFirst]
  generalize (place 0 chunks).foldl (WindowScan.step (dirty ranges) (stable C)) {} = s
  obtain ⟨closed,gap,window⟩ := s
  cases window with
  | none => simp [Split.pairs]
  | some p => simp [Split.tail,toOption_fromChunks]

end Builder

section Entries
variable {K : NodeHasher H} {C : Constants} {byteEnd : ℕ}

theorem entryFullyDirty_iff : entryFullyDirty ranges byteEnd b = true ↔
    ∃ r, ranges[b.dirtyIdx]? = some r ∧ r.start ≤ b.cursor ∧ byteEnd ≤ r.stop := by
  rw [entryFullyDirty]
  cases ranges[b.dirtyIdx]? <;> simp

/-- A chunk that meets the current dirty range is skipped like an entry. -/
theorem processChunk_eq_skip (hash : H) (size : ℕ)
    (h : overlapsDirtyAt ranges b.dirtyIdx b.cursor byteEnd = true) :
    processChunk K C ranges hash size byteEnd b = skipDirtyEntry K ranges byteEnd b := by
  rw [processChunk,skipDirtyEntry,h]
  cases b.inDirtyZone <;> rfl

theorem mergeAheadLoop_of_le {fuel idx : ℕ} (h : ∀ r ∈ ranges[idx + 1]?, byteEnd ≤ r.start) :
    mergeAheadLoop ranges byteEnd fuel idx = idx := by
  cases fuel with
  | zero => rfl
  | succ fuel =>
    rw [mergeAheadLoop]
    cases hn : ranges[idx + 1]? with
    | none => rfl
    | some r => exact if_neg (Nat.not_lt.mpr (h r hn))

section
variable {first : ℕ} (h : ∀ r ∈ ranges[b.dirtyIdx + 1]?, first ≤ r.start)
include h

theorem dirtyIdx_skip : (skipDirtyEntry K ranges first b).dirtyIdx = b.dirtyIdx := by
  rw [skipDirtyEntry]
  cases b.inDirtyZone <;> exact mergeAheadLoop_of_le h

theorem skip_skip : skipDirtyEntry K ranges byteEnd (skipDirtyEntry K ranges first b) =
    skipDirtyEntry K ranges byteEnd b := by
  obtain ⟨dirtyIdx,inDirtyZone,gapIsFirst,cursor,gapChunks,windows,hashRanges,tailPrevSize⟩ := b
  have hm : mergeAheadLoop ranges first ranges.length dirtyIdx = dirtyIdx := mergeAheadLoop_of_le h
  cases inDirtyZone with
  | false => simp [skipDirtyEntry,openWindow,mergeAhead,extendOpenWindow,hm,modifyLast_concat]
  | true =>
    simp only [skipDirtyEntry,mergeAhead,extendOpenWindow,hm,Bool.not_true,Bool.false_eq_true,↓reduceIte]
    rcases eq_nil_or_concat windows with rfl | ⟨ws,w,rfl⟩
    · rfl
    · simp [modifyLast_concat]

end

theorem processAll_eq_skip (hs : ranges.IsChain fun a b => a.stop ≤ b.start) {c : Node H}
    {chunks : List (Node H)} (hp : ∀ x ∈ c :: chunks, 0 < x.2)
    (hd : entryFullyDirty ranges (b.cursor + ((c :: chunks).map (·.2)).sum) b = true) :
    processAll K C ranges (c :: chunks) b = skipDirtyEntry K ranges
      (b.cursor + ((c :: chunks).map (·.2)).sum) b := by
  induction chunks generalizing b c with
  | nil =>
    obtain ⟨r,hr,hl,hle⟩ := entryFullyDirty_iff.mp hd
    have hc := hp c mem_cons_self
    rw [map_singleton,sum_singleton] at hle ⊢
    exact processChunk_eq_skip _ _ (by rw [overlapsDirtyAt,hr]; simp; omega)
  | cons c' chunks ih =>
    obtain ⟨r,hr,hl,hle⟩ := entryFullyDirty_iff.mp hd
    obtain ⟨hc,hp⟩ := forall_mem_cons.mp hp
    rw [map_cons,sum_cons] at hle ⊢
    have hn : ∀ q ∈ ranges[b.dirtyIdx + 1]?, b.cursor + c.2 ≤ q.start := by
      intro q hq
      obtain ⟨hi,rfl⟩ := List.getElem?_eq_some_iff.mp hr
      obtain ⟨hj,rfl⟩ := List.getElem?_eq_some_iff.mp hq
      have := isChain_iff_getElem.mp hs _ hj
      omega
    have hi := dirtyIdx_skip (K := K) hn
    rw [processAll,processChunk_eq_skip _ _ (by rw [overlapsDirtyAt,hr]; simp; omega),
      ih hp (entryFullyDirty_iff.mpr ⟨r,hi ▸ hr,?_,?_⟩)]
    · rw [skip_skip hn]
      congr 1
      exact Nat.add_assoc _ _ _
    · exact hl.trans (Nat.le_add_right _ _)
    · exact (Nat.add_assoc _ _ _).le.trans hle

end Entries

inductive BuilderStep (H : Type) where
  | chunk (hash : H) (size byteEnd : ℕ)
  | entry (byteEnd : ℕ)

namespace ChunkWindowBuilder

def step (K : NodeHasher H) (C : Constants) (ranges : List FileRange) (b : ChunkWindowBuilder H) :
    BuilderStep H → ChunkWindowBuilder H
  | .chunk hash size byteEnd => processChunk K C ranges hash size byteEnd b
  | .entry byteEnd => skipDirtyEntry K ranges byteEnd b

/-- After any steps, an entry of chunks that are not empty can be skipped if it lies in the current
dirty range: no further steps tell the difference. -/
theorem run_skip_entry (K : NodeHasher H) (C : Constants) {ranges : List FileRange}
    (hs : ranges.IsChain fun a b => a.stop ≤ b.start) (steps : List (BuilderStep H))
    {chunks : List (Node H)}
    (hne : chunks ≠ []) (hp : ∀ c ∈ chunks, 0 < c.2) : let b := Runs.run (step K C ranges) {} steps
    let byteEnd := b.cursor + (chunks.map (·.2)).sum
    entryFullyDirty ranges byteEnd b = true → ∀ more,
      (Runs.run (step K C ranges) (skipDirtyEntry K ranges byteEnd b) more).finish K =
        (Runs.run (step K C ranges) (processAll K C ranges chunks b) more).finish K := by
  intro b byteEnd hd more
  obtain ⟨c,cs,rfl⟩ := exists_cons_of_ne_nil hne
  rw [processAll_eq_skip hs hp hd]

abbrev plainHasher : NodeHasher ℕ := ⟨fun _ => false,fun _ => 0,fun a _ => a,0⟩

abbrev twoRanges : List FileRange := [⟨4,20⟩,⟨30,40⟩]

/-- An entry in the middle of a run: a window is open before it, and another one follows. -/
theorem run_skip_entry_two :
    let b := Runs.run (step plainHasher {} twoRanges) {} [.chunk 1 3 3,.chunk 2 3 6]
    entryFullyDirty twoRanges 16 b = true ∧
      (Runs.run (step plainHasher {} twoRanges) (skipDirtyEntry plainHasher twoRanges 16 b)
          [.chunk 9 8 24,.chunk 10 8 32]).finish plainHasher =
        (Runs.run (step plainHasher {} twoRanges)
          (processAll plainHasher {} twoRanges [(7,4),(8,6)] b)
          [.chunk 9 8 24,.chunk 10 8 32]).finish plainHasher :=
  ⟨rfl,run_skip_entry plainHasher {} (by decide) [.chunk 1 3 3,.chunk 2 3 6]
    (cons_ne_nil (7,4) [(8,6)]) (by decide) rfl [.chunk 9 8 24,.chunk 10 8 32]⟩

/-- A first chunk without bytes belongs to the gap in front of the dirty range, unless it is skipped
with the entry. -/
theorem skip_entry_empty_chunk : entryFullyDirty [⟨0,10⟩] 10 ({} : ChunkWindowBuilder ℕ) = true ∧
      (((skipDirtyEntry plainHasher [⟨0,10⟩] 10 {}).finish plainHasher).2.map Option.isSome) =
        [false,false] ∧
      (((processAll plainHasher {} [⟨0,10⟩] [(7,0),(8,10)] {}).finish plainHasher).2.map Option.isSome) =
        [true,false] := by
  decide

end ChunkWindowBuilder
end XetCore.RangeUpload
