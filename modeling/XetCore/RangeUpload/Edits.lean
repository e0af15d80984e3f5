import Mathlib.Data.List.TakeWhile
import XetCore.RangeUpload.UploadRanges

/-! # Edits and windows

Every edit is snapped to segments and lands in the one window that holds it. The
edited file is the original file between the windows, and in each window the original
bytes with the edits of the window.
-/
namespace XetCore.RangeUpload
open Merkle Chunking Dedup Intervals Reconstruction Session Extents List

variable {H : Type} {ds : List DirtyInput} {mdb : MDBFileInfo H}

abbrev DirtyInput.start (d : DirtyInput) : ℕ := d.originalRange.start
abbrev DirtyInput.stop (d : DirtyInput) : ℕ := d.originalRange.stop

def DirtyInput.bytes (d : DirtyInput) : Bytes := d.reader.take d.newLength

/-- Every reader yields the bytes that its edit asks for. -/
def Readable (ds : List DirtyInput) : Prop := ∀ d ∈ ds, d.newLength ≤ d.reader.length

structure ValidEdits (size : ℕ) (ds : List DirtyInput) : Prop where
  sorted : ds.Pairwise fun a b => a.stop ≤ b.start
  start_le : ∀ d ∈ ds, d.start ≤ d.stop
  stop_le : ∀ d ∈ ds, d.stop ≤ size

theorem validateFrom_ok {size i prevEnd : ℕ} (h : validateFrom size i prevEnd ds = .ok ()) :
    ValidEdits size ds ∧ (0 < i → ∀ d ∈ ds, prevEnd ≤ d.start) := by
  induction ds generalizing i prevEnd with
  | nil => exact ⟨⟨Pairwise.nil,by simp,by simp⟩,by simp⟩
  | cons d ds ih =>
    rw [validateFrom] at h
    split at h
    · cases h
    rename_i hle
    split at h
    · cases h
    rename_i hs
    split at h
    · cases h
    rename_i hp
    obtain ⟨hv,hn⟩ := ih h
    have hle' : d.start ≤ d.stop := not_lt.mp hle
    refine ⟨⟨pairwise_cons.mpr ⟨hn (Nat.succ_pos i),hv.sorted⟩,?_,?_⟩,fun hi => ?_⟩
    · exact forall_mem_cons.mpr ⟨hle',hv.start_le⟩
    · exact forall_mem_cons.mpr ⟨not_lt.mp hs,hv.stop_le⟩
    · have hd : prevEnd ≤ d.start := by
        by_contra hlt
        exact hp ⟨hi,not_le.mp hlt⟩
      exact forall_mem_cons.mpr ⟨hd,fun e he => hd.trans (hle'.trans (hn (Nat.succ_pos i) e he))⟩

theorem ValidEdits.of_validate {size : ℕ} (h : validateDirtyRanges ds size = .ok ()) :
    ValidEdits size ds := (validateFrom_ok h).1

section Snap
variable {acc : ℕ} {segments : List (FileDataSequenceEntry H)} {starts : List ℕ}

def segmentBytesSum (segments : List (FileDataSequenceEntry H)) : ℕ :=
  (segments.map (·.unpackedSegmentBytes)).sum

theorem mem_segByteStartsFrom {b : ℕ} : b ∈ segByteStartsFrom acc segments ↔
    ∃ as bs, segments = as ++ bs ∧ b = acc + segmentBytesSum as := by
  induction segments generalizing acc with
  | nil => simp [segByteStartsFrom,segmentBytesSum]
  | cons s segments ih =>
    rw [segByteStartsFrom,mem_cons,ih]
    constructor
    · rintro (rfl | ⟨as,bs,rfl,rfl⟩)
      · exact ⟨[],_,rfl,by simp [segmentBytesSum]⟩
      · exact ⟨s :: as,bs,rfl,by simp [segmentBytesSum,Nat.add_assoc]⟩
    · rintro ⟨as,bs,heq,rfl⟩
      cases as with
      | nil => exact Or.inl (by simp [segmentBytesSum])
      | cons a as =>
        cases heq
        exact Or.inr ⟨as,bs,rfl,by simp [segmentBytesSum,Nat.add_assoc]⟩

theorem segByteStartsFrom_length (acc : ℕ) (segments : List (FileDataSequenceEntry H)) :
    (segByteStartsFrom acc segments).length = segments.length + 1 := by
  induction segments generalizing acc with
  | nil => rfl
  | cons s segments ih => rw [segByteStartsFrom,length_cons,ih,length_cons]

theorem segByteStartsFrom_getD_append (acc d : ℕ) (as bs : List (FileDataSequenceEntry H)) :
    (segByteStartsFrom acc (as ++ bs)).getD as.length d = acc + segmentBytesSum as := by
  induction as generalizing acc with
  | nil => cases bs <;> simp [segByteStartsFrom,segmentBytesSum]
  | cons a as ih =>
    rw [cons_append,segByteStartsFrom,length_cons,getD_cons_succ,ih]
    simp [segmentBytesSum,Nat.add_assoc]

theorem snapToSegmentStart_spec {byte : ℕ} (hf : ∀ s ∈ starts.head?, s ≤ byte)
    (hne : starts ≠ []) : snapToSegmentStart starts byte ∈ starts ∧
    snapToSegmentStart starts byte ≤ byte := by
  obtain ⟨first,rest,rfl⟩ := exists_cons_of_ne_nil hne
  have hle := hf first rfl
  have ht : (first :: rest).takeWhile (fun s => s ≤ byte) ≠ [] := by simp [hle]
  obtain ⟨front,last,hl⟩ := (eq_nil_or_concat' _).resolve_left ht
  have hs := takeWhile_append_dropWhile (p := fun s => decide (s ≤ byte)) (l := first :: rest)
  have hv : snapToSegmentStart (first :: rest) byte = last := by
    rw [snapToSegmentStart,hl]
    rw [hl] at hs
    rw [← hs]
    simp
  rw [hv]
  have hmem : last ∈ (first :: rest).takeWhile (fun s => s ≤ byte) := by simp [hl]
  exact ⟨(takeWhile_sublist _).subset hmem,by simpa using mem_takeWhile_imp hmem⟩

theorem snapToSegmentEnd_spec {byte : ℕ} (hl : ∃ s ∈ starts, byte ≤ s) :
    snapToSegmentEnd starts byte ∈ starts ∧ byte ≤ snapToSegmentEnd starts byte := by
  have hd : starts.dropWhile (fun s => s < byte) ≠ [] := by
    intro hni
    obtain ⟨s,hs,hle⟩ := hl
    have := dropWhile_eq_nil_iff.mp hni s hs
    simp only [decide_eq_true_eq] at this
    omega
  obtain ⟨s,rest,hs⟩ := exists_cons_of_ne_nil hd
  have hsp := takeWhile_append_dropWhile (p := fun s => decide (s < byte)) (l := starts)
  have hv : snapToSegmentEnd starts byte = s := by
    have hg : ∀ ts, ts ++ s :: rest = starts → starts.getD ts.length 0 = s := by
      rintro ts rfl
      simp
    exact hg _ (hs ▸ hsp)
  have hn := dropWhile_get_zero_not (fun s => decide (s < byte)) starts (by simp [hs])
  simp only [hs,get_eq_getElem,decide_eq_true_eq,not_lt] at hn
  rw [hv]
  exact ⟨(dropWhile_suffix _).subset (hs ▸ mem_cons_self),hn⟩

/-- A snapped range is made of segments and holds its edit. -/
structure Snapped (starts : List ℕ) (size : ℕ) (d : DirtyInput) (r : FileRange) : Prop where
  start_mem : r.start ∈ starts
  stop_mem : r.stop ∈ starts
  lt : r.start < r.stop
  start_le : r.start ≤ d.start
  le_stop : d.stop ≤ r.stop
  insert_lt : d.start = d.stop → d.start < r.stop ∨ d.start = size

theorem segByteStarts_ne_nil (mdb : MDBFileInfo H) : segByteStarts mdb ≠ [] := by
  apply ne_nil_of_length_pos
  rw [segByteStarts,segByteStartsFrom_length]
  exact Nat.succ_pos _

theorem fileSize_mem_segByteStarts (mdb : MDBFileInfo H) : mdb.fileSize ∈ segByteStarts mdb :=
  mem_segByteStartsFrom.mpr ⟨mdb.segments,[],by simp,by simp [segmentBytesSum,MDBFileInfo.fileSize]⟩

theorem le_fileSize_of_mem {mdb : MDBFileInfo H} {b : ℕ} (hb : b ∈ segByteStarts mdb) :
    b ≤ mdb.fileSize := by
  obtain ⟨as,bs,hs,rfl⟩ := mem_segByteStartsFrom.mp hb
  simp [segmentBytesSum,MDBFileInfo.fileSize,hs]

section
variable (hpos : ∀ e ∈ mdb.segments, 0 < e.unpackedSegmentBytes) (hne : mdb.segments ≠ [])
include hpos hne

theorem last_segment : (segByteStarts mdb).getD ((segByteStarts mdb).length - 1 - 1) 0 ∈
    segByteStarts mdb ∧
    (segByteStarts mdb).getD ((segByteStarts mdb).length - 1 - 1) 0 < mdb.fileSize ∧
    (segByteStarts mdb).getD ((segByteStarts mdb).length - 1) 0 = mdb.fileSize := by
  obtain ⟨front,last,hs⟩ := (eq_nil_or_concat' _).resolve_left hne
  have hl := hpos last (by simp [hs])
  have hlen : (segByteStarts mdb).length = front.length + 2 := by
    rw [segByteStarts,segByteStartsFrom_length,hs]
    simp
  have hf : (segByteStarts mdb).getD front.length 0 = segmentBytesSum front := by
    rw [segByteStarts,hs,segByteStartsFrom_getD_append,Nat.zero_add]
  have he : (segByteStarts mdb).getD (front.length + 1) 0 = mdb.fileSize := by
    have h := segByteStartsFrom_getD_append 0 0 mdb.segments []
    rwa [append_nil,Nat.zero_add,hs,length_append,length_singleton,← hs] at h
  have hsi : mdb.fileSize = segmentBytesSum front + last.unpackedSegmentBytes := by
    simp [MDBFileInfo.fileSize,segmentBytesSum,hs]
  rw [hlen,show front.length + 2 - 1 - 1 = front.length by omega,hf]
  refine ⟨mem_segByteStartsFrom.mpr ⟨front,[last],hs,(Nat.zero_add _).symm⟩,by omega,he⟩

theorem snap_spec {d : DirtyInput} (hle : d.start ≤ d.stop) (hsi : d.stop ≤ mdb.fileSize) :
    Snapped (segByteStarts mdb) mdb.fileSize d (snap (segByteStarts mdb) mdb.fileSize d) := by
  have hf : ∀ s ∈ (segByteStarts mdb).head?, s ≤ d.start := by
    unfold segByteStarts
    cases mdb.segments <;> simp [segByteStartsFrom]
  have hs := snapToSegmentStart_spec hf (segByteStarts_ne_nil mdb)
  have hen := fileSize_mem_segByteStarts mdb
  unfold snap
  simp only
  split
  · rename_i hin
    have hin' : d.start = d.stop := hin
    split_ifs with heo
    · have heo' : d.start = mdb.fileSize := heo
      obtain ⟨hmem,hlt,hl⟩ := last_segment hpos hne
      rw [hl]
      exact ⟨hmem,hen,hlt,by rw [heo']; exact hlt.le,hsi,fun _ => Or.inr heo'⟩
    · have hn' : d.start ≠ mdb.fileSize := heo
      have he := snapToSegmentEnd_spec ⟨_,hen,show d.start + 1 ≤ mdb.fileSize by omega⟩
      have hlt : d.start < snapToSegmentEnd (segByteStarts mdb) (d.start + 1) := he.2
      exact ⟨hs.1,he.1,hs.2.trans_lt hlt,hs.2,hin' ▸ hlt.le,fun _ => Or.inl hlt⟩
  · rename_i hed
    have hed' : d.start < d.stop := lt_of_le_of_ne hle hed
    have he := snapToSegmentEnd_spec ⟨_,hen,hsi⟩
    exact ⟨hs.1,he.1,hs.2.trans_lt (hed'.trans_le he.2),hs.2,he.2,fun h => absurd h hed⟩

end

end Snap

/-- What the server is asked: separate runs of whole segments that hold all edits. -/
structure Query (starts : List ℕ) (size : ℕ) (ds : List DirtyInput) (ranges : List FileRange) : Prop where
  apart : Apart size ranges
  ends : ∀ r ∈ ranges, r.start ∈ starts ∧ r.stop ∈ starts
  holds : ∀ d ∈ ds, ∃ r ∈ ranges, r.start ≤ d.start ∧ d.stop ≤ r.stop ∧
    (d.start = d.stop → d.start < r.stop ∨ d.start = size)

theorem serverQuery_spec (hpos : ∀ e ∈ mdb.segments, 0 < e.unpackedSegmentBytes) (hne : mdb.segments ≠ [])
    (hv : ValidEdits mdb.fileSize ds) :
    Query (segByteStarts mdb) mdb.fileSize ds (serverQuery (segByteStarts mdb) mdb.fileSize ds) := by
  have hs : ∀ r ∈ ds.map (snap (segByteStarts mdb) mdb.fileSize), ∃ d ∈ ds,
      Snapped (segByteStarts mdb) mdb.fileSize d r := by
    intro r hr
    obtain ⟨d,hd,rfl⟩ := mem_map.mp hr
    exact ⟨d,hd,snap_spec hpos hne (hv.start_le d hd) (hv.stop_le d hd)⟩
  refine ⟨coalesce_apart ?_ ?_,coalesce_ends ?_,?_⟩
  · intro r hr
    obtain ⟨d,-,h⟩ := hs r hr
    exact h.lt
  · intro r hr
    obtain ⟨d,-,h⟩ := hs r hr
    exact le_fileSize_of_mem h.stop_mem
  · intro r hr
    obtain ⟨d,-,h⟩ := hs r hr
    exact ⟨h.start_mem,h.stop_mem⟩
  · intro d hd
    have h := snap_spec hpos hne (hv.start_le d hd) (hv.stop_le d hd)
    obtain ⟨r,hr,hsr,hst⟩ := coalesce_covers (mem_map_of_mem hd)
    exact ⟨r,hr,hsr.trans h.start_le,h.le_stop.trans hst,fun hin =>
      (h.insert_lt hin).imp (·.trans_le hst) id⟩

end XetCore.RangeUpload
