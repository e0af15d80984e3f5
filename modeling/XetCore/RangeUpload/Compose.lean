import XetCore.RangeUpload.Splice

/-! # The composed file

The verification hashes that the server sends are those of the segments that stay. The
client uses up exactly these, so composing succeeds, and its segments are the splice of
the uploaded windows into the original segments.
-/
namespace XetCore.RangeUpload
open Merkle Dedup Intervals Reconstruction Session List

variable {H : Type} {pos : ℕ} {segments before covered after : List (FileDataSequenceEntry H)}
  {w : FileRange}
  {ws : List FileRange} {rangeHash : FileDataSequenceEntry H → H}

def verified (rangeHash : FileDataSequenceEntry H → H) (segments : List (FileDataSequenceEntry H)) :
    List (FileDataSequenceEntry H × H) :=
  segments.map fun e => (e,rangeHash e)

@[simp] theorem verified_nil : verified rangeHash [] = [] := rfl
@[simp] theorem verified_cons (e : FileDataSequenceEntry H) (es : List (FileDataSequenceEntry H)) :
    verified rangeHash (e :: es) = (e,rangeHash e) :: verified rangeHash es := rfl
@[simp] theorem verified_append (es fs : List (FileDataSequenceEntry H)) :
    verified rangeHash (es ++ fs) = verified rangeHash es ++ verified rangeHash fs := map_append ..

theorem dropWhile_ahead (hlt : pos < w.stop) : (w :: ws).dropWhile (fun v => v.stop ≤ pos) = w :: ws := by
  simp [hlt]

theorem gapVerificationLoop_before (hle : pos + segmentBytesSum before ≤ w.start) (hlt : w.start < w.stop)
    (rest : List (FileDataSequenceEntry H × H)) :
    gapVerificationLoop pos (w :: ws) (verified rangeHash before ++ rest) =
      before.map rangeHash ++ gapVerificationLoop (pos + segmentBytesSum before) (w :: ws) rest := by
  induction before generalizing pos with
  | nil => simp
  | cons e es ih =>
    rw [segmentBytesSum_cons,← Nat.add_assoc] at hle ⊢
    have hn : ¬w.start < pos + e.unpackedSegmentBytes := by omega
    rw [verified_cons,cons_append,gapVerificationLoop,dropWhile_ahead (by omega)]
    simp only [head?_cons,Option.any_some,hn]
    rw [ih hle]
    rfl

theorem gapVerificationLoop_covered (hp : ∀ e ∈ covered, 0 < e.unpackedSegmentBytes) (hle : w.start ≤ pos)
    (hlt : ∀ as e bs, covered = as ++ e :: bs → pos + segmentBytesSum as < w.stop)
    (rest : List (FileDataSequenceEntry H × H)) :
    gapVerificationLoop pos (w :: ws) (verified rangeHash covered ++ rest) =
      gapVerificationLoop (pos + segmentBytesSum covered) (w :: ws) rest := by
  induction covered generalizing pos with
  | nil => simp
  | cons e es ih =>
    have he := hp e (by simp)
    have hs : pos < w.stop := by simpa using hlt [] e es rfl
    have hin : w.start < pos + e.unpackedSegmentBytes := by omega
    rw [segmentBytesSum_cons,← Nat.add_assoc,verified_cons,cons_append,gapVerificationLoop,
      dropWhile_ahead hs]
    simp only [head?_cons,Option.any_some,hin]
    refine ih (fun f hf => hp f (by simp [hf])) (by omega) fun as f bs heq => ?_
    have := hlt (e :: as) f bs (by rw [heq]; rfl)
    simpa only [segmentBytesSum_cons,← Nat.add_assoc] using this

theorem gapVerificationLoop_leave (hle : w.stop ≤ pos) (rest : List (FileDataSequenceEntry H × H)) :
    gapVerificationLoop pos (w :: ws) rest = gapVerificationLoop pos ws rest := by
  cases rest with
  | nil => rfl
  | cons p rest => simp [gapVerificationLoop,hle]

theorem gapVerificationLoop_eq (h : Ready pos segments ws) :
    gapVerificationLoop pos ws (verified rangeHash segments) =
    (splice pos segments (ws.map fun w => (w,[]))).map rangeHash := by
  induction ws generalizing pos segments with
  | nil =>
    induction segments generalizing pos with
    | nil => rfl
    | cons e es ih =>
      have hr : Ready (pos + e.unpackedSegmentBytes) es [] :=
        ⟨fun f hf => h.bytes_pos f (by simp [hf]),Pairwise.nil,by simp,by simp,by simp⟩
      have hre := ih hr
      simp [gapVerificationLoop,splice,hre]
  | cons w ws ih =>
    obtain ⟨before,covered,after,hp,hs,hn⟩ := h.passes
    have hlt := h.lt w (by simp)
    rw [map_cons,hp.splice_cons,append_nil,map_append,← ih hn]
    obtain rfl := hp.append_eq
    rw [verified_append,gapVerificationLoop_before hp.start_eq.le hlt,hp.start_eq,verified_append,
      gapVerificationLoop_covered (fun e he => h.bytes_pos e (by simp [he])) le_rfl hp.starts_lt,
      gapVerificationLoop_leave hs]

section Client
open ComposeState

def ComposeState.pushed (rangeHash : FileDataSequenceEntry H → H) (s : ComposeState H)
    (stable : List (FileDataSequenceEntry H)) (segments : List (FileRange × FileDataSequenceEntry H))
    (gapVerification : List H) : ComposeState H where
  allSegments := s.allSegments ++ stable
  allVerification := s.allVerification ++ stable.map rangeHash
  segIdx := s.segIdx + stable.length
  segments := segments
  gapIdx := s.gapIdx + stable.length
  gapVerification := gapVerification

variable {s : ComposeState H} {g : List H}

theorem pushStable_eq {e : FileDataSequenceEntry H}
    (hg : s.gapVerification = rangeHash e :: g) (rest : List (FileRange × FileDataSequenceEntry H)) :
    s.pushStable e rest = .ok (s.pushed rangeHash [e] rest g) := by
  unfold pushStable
  rw [hg]
  rfl

theorem pushed_pushed (s : ComposeState H) (as bs : List (FileDataSequenceEntry H))
    (r r' : List (FileRange × FileDataSequenceEntry H)) (g g' : List H) :
    (s.pushed rangeHash as r g).pushed rangeHash bs r' g' = s.pushed rangeHash (as ++ bs) r' g' := by
  simp [pushed,Nat.add_assoc]

theorem pushed_nil {r : List (FileRange × FileDataSequenceEntry H)}
    (hr : s.segments = r) (hg : s.gapVerification = g) : s.pushed rangeHash [] r g = s := by
  subst hr hg
  simp [pushed]

theorem pushBefore_eq (hen : pos + segmentBytesSum before = w.start)
    (hp : ∀ e ∈ before, 0 < e.unpackedSegmentBytes)
    (hs : s.segments = segmentRanges pos (before ++ after))
    (hg : s.gapVerification = before.map rangeHash ++ g) :
    pushBefore w.start (segmentRanges pos (before ++ after)) s =
      .ok (s.pushed rangeHash before (segmentRanges w.start after) g) := by
  induction before generalizing pos s with
  | nil =>
    obtain rfl : pos = w.start := hen
    have hsa : s.pushed rangeHash [] (segmentRanges w.start after) g = s := pushed_nil hs hg
    rw [hsa]
    cases after with
    | nil => rfl
    | cons e es => simp [segmentRanges,pushBefore]
  | cons e es ih =>
    have he := hp e (by simp)
    rw [segmentBytesSum_cons,← Nat.add_assoc] at hen
    have hst : pos < w.start := by omega
    have hsp : ¬pos + e.unpackedSegmentBytes > w.start := by omega
    rw [cons_append,segmentRanges,pushBefore,if_pos hst,if_neg hsp,pushStable_eq hg]
    have hr := ih hen (fun f hf => hp f (by simp [hf]))
      (s := s.pushed rangeHash [e] (segmentRanges (pos + e.unpackedSegmentBytes) (es ++ after))
        (es.map rangeHash ++ g)) rfl rfl
    rwa [pushed_pushed] at hr

theorem pushRest_eq (hs : s.segments = segmentRanges pos segments)
    (hg : s.gapVerification = segments.map rangeHash) :
    pushRest (segmentRanges pos segments) s = .ok (s.pushed rangeHash segments [] []) := by
  induction segments generalizing pos s with
  | nil =>
    have hsa : s.pushed rangeHash [] [] [] = s := pushed_nil hs hg
    rw [hsa]
    rfl
  | cons e es ih =>
    rw [segmentRanges,pushRest,pushStable_eq hg]
    have hse : (s.pushed rangeHash [e] (segmentRanges (pos + e.unpackedSegmentBytes) es)
      (es.map rangeHash)).segments =
        segmentRanges (pos + e.unpackedSegmentBytes) es := rfl
    have hr := ih hse rfl
    rwa [pushed_pushed] at hr

theorem dropWhile_covered (hlt : ∀ as e bs, covered = as ++ e :: bs → pos + segmentBytesSum as < w.stop)
    (hs : w.stop ≤ pos + segmentBytesSum covered) :
    (segmentRanges pos (covered ++ after)).dropWhile (fun p => p.1.start < w.stop) =
      segmentRanges (pos + segmentBytesSum covered) after := by
  induction covered generalizing pos with
  | nil =>
    cases after with
    | nil => rfl
    | cons e es =>
      have hn : ¬pos < w.stop := by simpa using hs
      simp [segmentRanges,hn]
  | cons e es ih =>
    have hin : pos < w.stop := by simpa using hlt [] e es rfl
    rw [segmentBytesSum_cons,← Nat.add_assoc] at hs ⊢
    have hl : ∀ as f bs, es = as ++ f :: bs →
      pos + e.unpackedSegmentBytes + segmentBytesSum as < w.stop := by
      intro as f bs heq
      have := hlt (e :: as) f bs (by rw [heq]; rfl)
      simpa only [segmentBytesSum_cons,← Nat.add_assoc] using this
    simpa [segmentRanges,hin] using ih hl hs

/-- The state before a window: the segments and hashes ahead, and what has been composed. -/
structure Composed (rangeHash : FileDataSequenceEntry H → H) (n pos : ℕ)
    (segments : List (FileDataSequenceEntry H))
    (ws : List FileRange) (done : List (FileDataSequenceEntry H)) (s : ComposeState H) : Prop where
  allSegments : s.allSegments = done
  allVerification : s.allVerification = done.map rangeHash
  segments_eq : s.segments = segmentRanges pos segments
  gap_eq : s.gapVerification = (splice pos segments (ws.map fun w => (w,[]))).map rangeHash
  gapIdx : s.gapIdx + s.gapVerification.length = n

variable {n : ℕ} {done : List (FileDataSequenceEntry H)} {u : UploadedWindow H}
  {us : List (UploadedWindow H)}

abbrev UploadedWindow.range (u : UploadedWindow H) : FileRange := ⟨u.start,u.stop⟩

/-- One window: the segments before it and its own are added, and those that start in it are
skipped. -/
theorem Composed.pushWindow (hr : Ready pos segments (u.range :: ws))
    (hs : Composed rangeHash n pos segments (u.range :: ws) done s)
    (hu : u.mdb.verification = u.mdb.segments.map rangeHash) :
    ∃ before covered after s', Passes pos segments u.range before covered after ∧
      Ready (u.start + segmentBytesSum covered) after ws ∧ ComposeState.pushWindow s u = .ok s' ∧
      Composed rangeHash n (u.start + segmentBytesSum covered) after ws
        (done ++ before ++ u.mdb.segments) s' := by
  obtain ⟨before,covered,after,hp,hst,hn⟩ := hr.passes
  have hg := hs.gap_eq
  rw [map_cons,hp.splice_cons,append_nil,map_append] at hg
  have hse := hs.segments_eq
  rw [hp.append_eq] at hse
  have hb := pushBefore_eq hp.start_eq
    (fun e he => hr.bytes_pos e (by rw [hp.append_eq]; simp [he])) hse hg
  have hsk : (segmentRanges u.start (covered ++ after)).dropWhile (fun p => p.1.start < u.stop) = _ :=
    dropWhile_covered hp.starts_lt hst
  have hlen : u.mdb.verification.length = u.mdb.segments.length := by rw [hu,length_map]
  let t := ComposeState.skipCovered u.stop
    (s.pushed rangeHash before (segmentRanges u.start (covered ++ after))
    ((splice (u.start + segmentBytesSum covered) after (ws.map fun w => (w,[]))).map rangeHash))
  refine ⟨before,covered,after,{ t with
    allSegments := t.allSegments ++ u.mdb.segments
    allVerification := t.allVerification ++ u.mdb.verification },hp,hn,?_,?_⟩
  · rw [ComposeState.pushWindow,hse,hb]
    simp only [hlen,ne_eq,not_true_eq_false]
    rfl
  · have hid := hs.gapIdx
    rw [hg] at hid
    refine ⟨?_,?_,hsk,rfl,?_⟩
    · simp [t,skipCovered,pushed,hs.allSegments]
    · simp [t,skipCovered,pushed,hs.allVerification,hu]
    · simp only [t,skipCovered,pushed]
      rw [← hid]
      simp [Nat.add_assoc]

theorem Composed.run (hr : Ready pos segments (us.map UploadedWindow.range))
    (hs : Composed rangeHash n pos segments (us.map UploadedWindow.range) done s)
    (hu : ∀ u ∈ us, u.mdb.verification = u.mdb.segments.map rangeHash) :
    ∃ s' pos' rest, us.foldlM ComposeState.pushWindow s = .ok s' ∧
    Composed rangeHash n pos' rest [] s'.allSegments s' ∧
      s'.allSegments ++ rest = done ++
        splice pos segments (us.map fun u => (u.range,u.mdb.segments)) := by
  induction us generalizing pos segments done s with
  | nil => exact ⟨s,pos,segments,rfl,hs.allSegments ▸ hs,by rw [hs.allSegments]; rfl⟩
  | cons u us ih =>
    obtain ⟨before,covered,after,t,hp,hn,hpu,ht⟩ := hs.pushWindow hr (hu u (by simp))
    obtain ⟨s',pos',rest,hru,hs',ha⟩ := ih hn ht fun v hv => hu v (by simp [hv])
    refine ⟨s',pos',rest,?_,hs',?_⟩
    · rw [foldlM_cons,hpu]
      exact hru
    · rw [ha,map_cons,hp.splice_cons]
      simp

/-- Composing succeeds with the splice of the windows into the segments, each with its hash. -/
theorem composeMdb_eq {mdb : MDBFileInfo H} (hr : Ready 0 mdb.segments (us.map UploadedWindow.range))
    (hu : ∀ u ∈ us, u.mdb.verification = u.mdb.segments.map rangeHash) (hash : H) :
    ∃ fi, composeMdb mdb us (gapVerificationLoop 0 (us.map UploadedWindow.range)
      (verified rangeHash mdb.segments))
        hash = .ok fi ∧
      fi.segments = splice 0 mdb.segments (us.map fun u => (u.range,u.mdb.segments)) ∧
      fi.verification = fi.segments.map rangeHash := by
  set gap := gapVerificationLoop 0 (us.map UploadedWindow.range) (verified rangeHash mdb.segments)
  have hg : gap = _ := gapVerificationLoop_eq hr
  have hin : Composed rangeHash gap.length 0 mdb.segments (us.map UploadedWindow.range) []
      { segments := segmentRanges 0 mdb.segments, gapVerification := gap } :=
    ⟨rfl,rfl,rfl,hg,Nat.zero_add _⟩
  obtain ⟨s,pos,rest,hru,hs,ha⟩ := hin.run hr hu
  have hg' : s.gapVerification = rest.map rangeHash := hs.gap_eq
  have hre := pushRest_eq hs.segments_eq hg'
  rw [← hs.segments_eq] at hre
  have hid : ¬s.gapIdx + rest.length < gap.length := by
    have := hs.gapIdx
    rw [hg',length_map] at this
    omega
  refine ⟨⟨⟨hash,(s.allSegments ++ rest).length,true,false⟩,s.allSegments ++ rest,
    s.allVerification ++ rest.map rangeHash,none⟩,?_,ha,?_⟩
  · unfold composeMdb
    simp only [hru,hre,bind,Except.bind,pushed,hid]
    rfl
  · simp [hs.allVerification]

end Client
end XetCore.RangeUpload
