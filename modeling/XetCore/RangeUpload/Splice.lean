import XetCore.RangeUpload.Edits

/-! # Splicing windows into the segments

The segments before a window stay, those that start in it are dropped. Two walks do
this: the server's, which picks the verification hashes of the segments that stay, and
the client's, which takes them up again. For windows that start at segments they agree.
-/
namespace XetCore.RangeUpload
open Merkle Dedup Intervals Reconstruction Session List

variable {H : Type} {pos b : ℕ} {segments : List (FileDataSequenceEntry H)}

@[simp] theorem segmentBytesSum_nil : segmentBytesSum ([] : List (FileDataSequenceEntry H)) = 0 := rfl
@[simp] theorem segmentBytesSum_cons (e : FileDataSequenceEntry H) (es : List (FileDataSequenceEntry H)) :
    segmentBytesSum (e :: es) = e.unpackedSegmentBytes + segmentBytesSum es := by simp [segmentBytesSum]
@[simp] theorem segmentBytesSum_append (es fs : List (FileDataSequenceEntry H)) :
    segmentBytesSum (es ++ fs) = segmentBytesSum es + segmentBytesSum fs := by simp [segmentBytesSum]

theorem le_of_mem_segByteStartsFrom (h : b ∈ segByteStartsFrom pos segments) : pos ≤ b := by
  obtain ⟨as,bs,-,rfl⟩ := mem_segByteStartsFrom.mp h
  exact Nat.le_add_right _ _

@[simp] theorem snapToSegmentEnd_cons (x : ℕ) (xs : List ℕ) (b : ℕ) :
    snapToSegmentEnd (x :: xs) b = if x < b then snapToSegmentEnd xs b else x := by
  unfold snapToSegmentEnd
  by_cases h : x < b <;> simp [h]

theorem snapToSegmentEnd_le {x : ℕ} (hx : x ∈ segByteStartsFrom pos segments) (hb : b ≤ x) :
    snapToSegmentEnd (segByteStartsFrom pos segments) b ≤ x := by
  induction segments generalizing pos with
  | nil =>
    obtain rfl := mem_singleton.mp hx
    simp [segByteStartsFrom,not_lt.mpr hb]
  | cons s segments ih =>
    have hle := le_of_mem_segByteStartsFrom hx
    rw [segByteStartsFrom,snapToSegmentEnd_cons]
    split
    · rcases mem_cons.mp hx with rfl | hx
      · omega
      · exact ih hx
    · exact hle

/-- Snapping leaves a byte alone exactly when a segment starts there. -/
theorem snapToSegmentEnd_eq_iff (hb : ∃ x ∈ segByteStartsFrom pos segments, b ≤ x) :
    snapToSegmentEnd (segByteStartsFrom pos segments) b = b ↔ b ∈ segByteStartsFrom pos segments := by
  have hs := snapToSegmentEnd_spec hb
  refine ⟨fun h => h ▸ hs.1,fun h => (snapToSegmentEnd_le h le_rfl).antisymm hs.2⟩

/-- The segments that start before a byte, and the others. -/
def splitSegments (b : ℕ) : ℕ → List (FileDataSequenceEntry H) →
    List (FileDataSequenceEntry H) × List (FileDataSequenceEntry H)
  | _, [] => ([],[])
  | pos, s :: segments =>
    if pos < b then
      let r := splitSegments b (pos + s.unpackedSegmentBytes) segments
      (s :: r.1,r.2)
    else ([],s :: segments)

/-- What is needed of the two parts: they make up the segments, the first one ends at the first
segment that starts at `b` or behind, and what lies behind `b` lies in the second one. -/
structure SplitAt (b pos : ℕ) (segments xs ys : List (FileDataSequenceEntry H)) : Prop where
  append_eq : segments = xs ++ ys
  snap_eq : b ≤ pos + segmentBytesSum segments →
    snapToSegmentEnd (segByteStartsFrom pos segments) b = pos + segmentBytesSum xs
  mem : ∀ x ∈ segByteStartsFrom pos segments, b ≤ x → x ∈ segByteStartsFrom (pos + segmentBytesSum xs) ys
  snap_later : ∀ x, b ≤ x → snapToSegmentEnd (segByteStartsFrom (pos + segmentBytesSum xs) ys) x =
    snapToSegmentEnd (segByteStartsFrom pos segments) x
  starts_lt : ∀ as e bs, xs = as ++ e :: bs → pos + segmentBytesSum as < b

theorem splitSegments_spec (b pos : ℕ) (segments : List (FileDataSequenceEntry H)) :
    SplitAt b pos segments (splitSegments b pos segments).1 (splitSegments b pos segments).2 := by
  induction segments generalizing pos with
  | nil =>
    refine ⟨rfl,fun h => ?_,fun x hx _ => hx,fun x _ => rfl,by simp [splitSegments]⟩
    simp only [segmentBytesSum_nil,Nat.add_zero] at h
    simp [splitSegments,segByteStartsFrom,not_lt.mpr h]
  | cons s segments ih =>
    rw [splitSegments]
    split_ifs with hlt
    · have hr := ih (pos + s.unpackedSegmentBytes)
      refine ⟨congrArg (s :: ·) hr.append_eq,?_,?_,?_,?_⟩
      · intro h
        simp only [segmentBytesSum_cons,← Nat.add_assoc] at h ⊢
        rw [segByteStartsFrom,snapToSegmentEnd_cons,if_pos hlt]
        exact hr.snap_eq h
      · intro x hx hle
        simp only [segmentBytesSum_cons,← Nat.add_assoc]
        rcases mem_cons.mp hx with rfl | hx
        · omega
        · exact hr.mem x hx hle
      · intro x hle
        simp only [segmentBytesSum_cons,← Nat.add_assoc]
        rw [segByteStartsFrom,snapToSegmentEnd_cons,if_pos (by omega)]
        exact hr.snap_later x hle
      · intro as e bs heq
        cases as with
        | nil => simpa using hlt
        | cons a as =>
          obtain ⟨rfl,heq'⟩ := cons.inj heq
          have := hr.starts_lt as e bs heq'
          simpa only [segmentBytesSum_cons,← Nat.add_assoc] using this
    · exact ⟨rfl,fun _ => by simp [segByteStartsFrom,hlt],fun x hx _ => hx,fun x _ => rfl,by simp⟩

/-- Windows ahead of the segments: in order, not empty, and starting at segments. -/
structure Ready (pos : ℕ) (segments : List (FileDataSequenceEntry H)) (ws : List FileRange) : Prop where
  bytes_pos : ∀ e ∈ segments, 0 < e.unpackedSegmentBytes
  sorted : ws.Pairwise fun a b => a.stop ≤ b.start
  lt : ∀ w ∈ ws, w.start < w.stop
  start_mem : ∀ w ∈ ws, w.start ∈ segByteStartsFrom pos segments
  stop_le : ∀ w ∈ ws, w.stop ≤ pos + segmentBytesSum segments

/-- The segments before a window, those that start in it, and those behind it. -/
structure Passes (pos : ℕ) (segments : List (FileDataSequenceEntry H)) (w : FileRange)
    (before covered after : List (FileDataSequenceEntry H)) : Prop where
  before_eq : splitSegments w.start pos segments = (before,covered ++ after)
  covered_eq : splitSegments w.stop w.start (covered ++ after) = (covered,after)
  append_eq : segments = before ++ (covered ++ after)
  start_eq : pos + segmentBytesSum before = w.start
  snap_eq : snapToSegmentEnd (segByteStartsFrom pos segments) w.stop = w.start + segmentBytesSum covered
  snap_later : ∀ x, w.stop ≤ x →
    snapToSegmentEnd (segByteStartsFrom (w.start + segmentBytesSum covered) after) x =
    snapToSegmentEnd (segByteStartsFrom pos segments) x
  starts_lt : ∀ as e bs, covered = as ++ e :: bs → w.start + segmentBytesSum as < w.stop

variable {w : FileRange} {ws : List FileRange}

theorem Ready.passes (h : Ready pos segments (w :: ws)) : ∃ before covered after,
    Passes pos segments w before covered after ∧ w.stop ≤ w.start + segmentBytesSum covered ∧
      Ready (w.start + segmentBytesSum covered) after ws := by
  have hst := h.start_mem w (by simp)
  have hlt := h.lt w (by simp)
  have hsp := h.stop_le w (by simp)
  have hf := splitSegments_spec w.start pos segments
  obtain ⟨before,rest,hb⟩ : ∃ before rest, splitSegments w.start pos segments = (before,rest) := ⟨_,_,rfl⟩
  rw [hb] at hf
  have hp : pos + segmentBytesSum before = w.start := by
    rw [← hf.snap_eq (hlt.le.trans hsp)]
    exact (snapToSegmentEnd_eq_iff ⟨_,hst,le_rfl⟩).mpr hst
  have hs := splitSegments_spec w.stop w.start rest
  obtain ⟨covered,after,hc⟩ : ∃ covered after, splitSegments w.stop w.start rest =
    (covered,after) := ⟨_,_,rfl⟩
  rw [hc] at hs
  obtain rfl : rest = covered ++ after := hs.append_eq
  have hsu := congrArg segmentBytesSum hf.append_eq
  simp only [segmentBytesSum_append] at hsu
  have hl := hf.snap_later
  simp only [hp] at hl
  have hsn := hs.snap_eq (by rw [segmentBytesSum_append]; omega)
  have hmem := hf.mem
  simp only [hp] at hmem
  have hle : w.stop ≤ w.start + segmentBytesSum covered := by
    rw [← hsn]
    refine (snapToSegmentEnd_spec ⟨_,mem_segByteStartsFrom.mpr ⟨covered ++ after,[],by simp,rfl⟩,?_⟩).2
    rw [segmentBytesSum_append]
    omega
  refine ⟨before,covered,after,⟨hb,hc,hf.append_eq,hp,?_,?_,hs.starts_lt⟩,hle,?_⟩
  · rw [← hl w.stop hlt.le,hsn]
  · intro x hx
    rw [← hl x (hlt.le.trans hx)]
    exact hs.snap_later x hx
  · have hso := pairwise_cons.mp h.sorted
    refine ⟨fun e he => h.bytes_pos e ?_,hso.2,fun v hv => h.lt v (by simp [hv]),fun v hv =>
      ?_,fun v hv => ?_⟩
    · rw [hf.append_eq]
      simp [he]
    · have hle' := hso.1 v hv
      exact hs.mem v.start (hmem v.start (h.start_mem v (by simp [hv])) (hlt.le.trans hle')) hle'
    · have := h.stop_le v (by simp [hv])
      omega

/-- The segments that stay, with others in the place of each window. -/
def splice : ℕ → List (FileDataSequenceEntry H) → List (FileRange × List (FileDataSequenceEntry H)) →
    List (FileDataSequenceEntry H)
  | _, segments, [] => segments
  | pos, segments, (w,new) :: ws =>
    let r := splitSegments w.start pos segments
    let q := splitSegments w.stop w.start r.2
    r.1 ++ new ++ splice (w.start + segmentBytesSum q.1) q.2 ws

theorem Passes.splice_cons {before covered after new : List (FileDataSequenceEntry H)}
    (h : Passes pos segments w before covered after)
    (vs : List (FileRange × List (FileDataSequenceEntry H))) :
    splice pos segments ((w,new) :: vs) = before ++ new ++
      splice (w.start + segmentBytesSum covered) after vs := by
  simp [splice,h.before_eq,h.covered_eq]

end XetCore.RangeUpload
