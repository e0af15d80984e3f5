import XetCore.Reconstruction.RoundTrip
import XetCore.Reconstruction.SequentialWriterSpec
import XetCore.Reconstruction.TermManagerSpec

/-! # Downloading a range of a file

The loop takes blocks of terms from the manager and hands the data of each term to the writer,
which refuses what does not follow. The bytes of the range reach the output, whatever the
estimator says and whenever tasks, items and writes are done.
-/
namespace XetCore.Reconstruction
open Dedup Chunking Extents Intervals Fuel List

inductive DownloadError where
  | overflow
  | notSequential (expected got : ℕ)
  | noData
  | sizeMismatch (expected got : ℕ)
  | writer (e : WriterError)
  | bytesWrittenMismatch (expected actual : ℕ)

/-- The writer with the items for its thread, and the bytes of the terms so far. -/
structure SequentialWriter where
  nextPosition : ℕ := 0
  items : List Bytes := []
  totalBytesScheduled : ℕ := 0

/-- An error of the task that checks the data is an error of the run. -/
def SequentialWriter.setNextTermDataSource (w : SequentialWriter) (byteRange : FileRange)
    (data : Option Bytes) :
    Except DownloadError SequentialWriter :=
  let expectedSize := byteRange.stop - byteRange.start
  if byteRange.start ≠ w.nextPosition then .error (.notSequential w.nextPosition byteRange.start)
  else
    match data with
    | none => .error .noData
    | some data =>
      if data.length ≠ expectedSize then .error (.sizeMismatch expectedSize data.length)
      else .ok ⟨byteRange.stop,w.items ++ [data],w.totalBytesScheduled + expectedSize⟩

variable {H F : Type} (store : H → List (Chunk H)) (offset : ℕ)

def writeTerm (w : SequentialWriter) (t : FileTerm H) : Except DownloadError SequentialWriter :=
  if t.byteRange.start < offset ∨ t.byteRange.stop < t.byteRange.start then .error .overflow
  else
    w.setNextTermDataSource ⟨t.byteRange.start - offset,t.byteRange.stop - offset⟩
      ((t.xorbBlock.fill store).bind t.extractBytes)

def writeBlocks : ℕ → (ℕ → Option (List (FileTerm H))) → SequentialWriter →
    Option (Except DownloadError SequentialWriter)
  | 0, _, _ => none
  | fuel + 1, returned, w =>
    match returned 0 with
    | none => some (.ok w)
    | some fileTerms =>
      match fileTerms.foldlM (writeTerm store offset) w with
      | .error e => some (.error e)
      | .ok w => writeBlocks fuel (fun n => returned (n + 1)) w

variable {store offset} {file : Bytes} {p q : ℕ} {w : SequentialWriter}

structure Took (offset p q : ℕ) (bytes : Bytes) (w w' : SequentialWriter) : Prop where
  position : w'.nextPosition = q - offset
  flatten : w'.items.flatten = w.items.flatten ++ bytes
  total : w'.totalBytesScheduled = w.totalBytesScheduled + (q - p)

theorem writeTerms_spec {ts : List (FileTerm H)} {bytes : Bytes}
    (ht : Tiles p q (ts.map FileTerm.byteRange))
    (ha : assemble store ts = some bytes) (ho : offset ≤ p) (hw : w.nextPosition = p - offset) :
    ∃ w', ts.foldlM (writeTerm store offset) w = .ok w' ∧ Took offset p q bytes w w' := by
  induction ts generalizing p bytes w with
  | nil =>
    obtain rfl : p = q := ht
    cases ha
    exact ⟨w,rfl,hw,by simp,by simp⟩
  | cons t ts ih =>
    obtain ⟨rfl,hle,ht⟩ := ht
    obtain ⟨piece,⟨d,hd,hp⟩,pieces,hps,rfl⟩ := by simpa [assemble,Option.bind_eq_some_iff] using ha
    obtain ⟨hlo,hl⟩ := extractBytes_length hp
    have hs : ∃ w₁, writeTerm store offset w t = .ok w₁ ∧
      Took offset t.byteRange.start t.byteRange.stop piece w w₁ := by
      rw [writeTerm,if_neg (by omega),hd,Option.bind_some,hp,
        SequentialWriter.setNextTermDataSource.eq_def]
      exact ⟨_,(if_neg (not_not.mpr hw.symm)).trans (if_neg (by simp; omega)),rfl,by simp,by simp; omega⟩
    obtain ⟨w₁,hs,hn,hf,hto⟩ := hs
    obtain ⟨w',hr,hn',hf',hto'⟩ := ih ht hps (ho.trans hle) hn
    have hq := ht.le
    exact ⟨w',by rw [foldlM_cons,hs]; exact hr,hn',by rw [hf',hf,append_assoc],by omega⟩

/-- The terms of a part of the file. -/
def Piece (store : H → List (Chunk H)) (file : Bytes) (a b : ℕ) (fileTerms : List (FileTerm H)) : Prop :=
  Tiles a b (fileTerms.map FileTerm.byteRange) ∧ assemble store fileTerms = some (slice file a b)

theorem writeBlocks_spec {returned : ℕ → Option (List (FileTerm H))} {blocks : List (List (FileTerm H))}
    (hr : ∀ i, returned i = blocks[i]?) (hb : ∀ b ∈ blocks, ∃ a z, a < z ∧ Piece store file a z b)
    (ht : Tiles p q (blocks.flatten.map FileTerm.byteRange)) (ho : offset ≤ p)
    (hw : w.nextPosition = p - offset) :
    ∃ w', Returns (fun fuel => writeBlocks store offset fuel returned w) (.ok w') ∧
      Took offset p q (slice file p q) w w' := by
  induction blocks generalizing p returned w with
  | nil =>
    obtain rfl : p = q := ht
    exact ⟨w,returns_of_eq fun fuel => by rw [writeBlocks,hr 0]; rfl,hw,by simp,by simp⟩
  | cons b blocks ih =>
    obtain ⟨a,z,hlt,hti,ha⟩ := hb b (by simp)
    rw [flatten_cons,map_append] at ht
    obtain ⟨rfl,ht⟩ := ht.of_append hti hlt
    obtain ⟨w₁,hs,hn,hf,hto⟩ := writeTerms_spec hti ha ho hw
    obtain ⟨w',hret,hn',hf',hto'⟩ :=
      ih (fun i => hr (i + 1)) (fun c hc => hb c (by simp [hc])) ht (by omega) hn
    have hq := ht.le
    refine ⟨w',hret.step fun fuel => by simp only [writeBlocks,hr 0,getElem?_cons_zero,hs],hn',
      ?_,by omega⟩
    rw [hf',hf,append_assoc,slice_append_slice _ hlt.le hq]

/-- A download: the kind of the answers, the estimator, the range, and when tasks, items and writes
are done. -/
structure Download (F : Type) where
  version : ApiVersion
  allowed : version.Allowed
  enableMultirange : Bool
  ops : FloatOps F
  config : ReconstructionConfig F
  min_pos : 1 ≤ config.minReconstructionFetchSize
  min_le : config.minReconstructionFetchSize ≤ config.maxReconstructionFetchSize
  range : FileRange
  between : List ℕ
  calls : ℕ → CallSchedule F
  timing : Timing
  out : Output

namespace Download
variable [DecidableEq H] (d : Download F) (getXorbFooter : H → Except (ClientError H) XorbObject)
  (fileInfo : MDBFileInfo H)

def retrieve (r : FileRange) : Option (FileRange × List (FileTerm H)) :=
  (planRange getXorbFooter d.version d.enableMultirange fileInfo r).toOption.join.map fun b => (b.1,b.2.2)

/-- What is written, and the number of its bytes. -/
def runImpl (store : H → List (Chunk H)) (fuel : ℕ) : Option (Except DownloadError (Bytes × ℕ)) :=
  let retrieve := d.retrieve getXorbFooter fileInfo
  let termManager := TermManager.new retrieve d.config d.range d.between
  (writeBlocks store d.range.start fuel (termManager.returned retrieve d.ops d.config d.calls)
    {}).bind fun
    | .error e => some (.error e)
    | .ok w => (SyncWriterThread.run d.timing d.out fuel (.new w.items)).map fun
      | .error e => .error (.writer e)
      | .ok t =>
        if t.bytesWritten ≠ w.nextPosition then .error
          (.bytesWrittenMismatch w.nextPosition t.bytesWritten)
        else .ok (t.output,w.totalBytesScheduled)

variable {getXorbFooter fileInfo} (hsegments : ∀ e ∈ fileInfo.segments, SegmentOk store getXorbFooter e)
  (hfile : fileBytes store fileInfo.segments = file)
include hsegments hfile

theorem retrieve_within {r : FileRange} (hlt : r.start < r.stop) (hin : r.start < file.length) :
    ∃ fileTerms,
    d.retrieve getXorbFooter fileInfo r = some (⟨r.start,min r.stop file.length⟩,fileTerms) ∧
    Piece store file r.start (min r.stop file.length) fileTerms := by
  subst hfile
  obtain ⟨ranges,hrun,hne,hp,hf⟩ := rangesIn_spec hsegments
    (show Range.start ⟨r.start,min r.stop _⟩ < _ from lt_min hlt hin) (min_le_right _ _)
  have hr : (respond d.version ranges).offsetIntoFirstRange = ranges.offsetIntoFirstRange ∧
      (respond d.version ranges).terms = ranges.terms := by cases d.version <;> exact ⟨rfl,rfl⟩
  rw [← respond_ranges d.allowed hne,← hr.2] at hf
  rw [← hr.1,← hr.2] at hp
  obtain ⟨transfer,terms,ht,ha,hti⟩ := retrieveFileTermBlock_tiles hlt hin hp hf d.enableMultirange
  refine ⟨terms,?_,hti,ha⟩
  have hc : computeReconstructionRanges getXorbFooter fileInfo (some r) = .ok (some ranges) := by
    rw [show _ = fileInfo.fileSize from fileBytes_length hsegments] at hin hrun
    rw [computeReconstructionRanges,if_neg (not_le.mpr hin),hrun]
    rfl
  simp only [retrieve,planRange,hc]
  rw [Option.map_some,ht]
  rfl

theorem retrieve_past (hne : file ≠ []) {r : FileRange} (hle : file.length ≤ r.start) :
    d.retrieve getXorbFooter fileInfo r = none := by
  have hpos := length_pos_iff.mpr hne
  rw [← hfile,show _ = fileInfo.fileSize from fileBytes_length hsegments] at hle hpos
  have hc : computeReconstructionRanges getXorbFooter fileInfo (some r) = .ok none := by
    rw [computeReconstructionRanges,if_pos hle,if_neg (by omega)]
  simp only [retrieve,planRange,hc]
  rfl

/-- The bytes of the part of the range that is in the file are written, and counted. -/
theorem runImpl_writes (hne : file ≠ []) : Returns (d.runImpl getXorbFooter fileInfo store) (.ok
    (slice file d.range.start (min d.range.stop file.length),
      min d.range.stop file.length - d.range.start)) := by
  have htruthful : Truthful file.length (d.retrieve getXorbFooter fileInfo) :=
    ⟨fun r hlt hin => (d.retrieve_within hsegments hfile hlt hin).imp fun _ h => ⟨h.1,h.2.1⟩,
      fun r _ => d.retrieve_past hsegments hfile hne⟩
  have hplanned := TermManager.planned_new d.range htruthful d.config d.between
  obtain ⟨blocks,hr,ht⟩ := hplanned.blocks htruthful d.min_pos d.min_le d.ops d.calls
  have hpieces : ∀ b ∈ blocks, ∃ a z, a < z ∧ Piece store file a z b := by
    intro b hb
    obtain ⟨n,hn⟩ := mem_iff_getElem?.mp hb
    obtain ⟨r,hlt,heq⟩ := hplanned.returned_eq htruthful d.min_pos d.min_le d.ops d.calls
      ((hr n).trans hn)
    rcases lt_or_ge r.start file.length with hin | hle
    · obtain ⟨terms,hterms,hpiece⟩ := d.retrieve_within hsegments hfile hlt hin
      rw [hterms] at heq
      exact ⟨_,_,lt_min hlt hin,Option.some.inj heq ▸ hpiece⟩
    · rw [htruthful.past r hlt hle] at heq
      cases heq
  obtain ⟨w,⟨n,hw⟩,hposition,hflatten,htotal⟩ := writeBlocks_spec hr hpieces ht le_rfl (w := {}) (by simp)
  obtain ⟨t,⟨k,hrun⟩,hwrote⟩ :=
    SyncWriterThread.run_returns d.timing d.out (.new w.items) (.new w.items) rfl
  rw [slice] at hflatten
  have hmax : max d.range.start (min d.range.stop file.length) - d.range.start =
      min d.range.stop file.length - d.range.start := by omega
  rw [hmax] at hposition hflatten htotal
  have hbytes : t.bytesWritten = w.nextPosition := by
    rw [hwrote.bytesWritten,hflatten,hposition]
    simp
    omega
  refine ⟨max n k,fun fuel hfuel => ?_⟩
  simp only [runImpl,hw fuel (le_of_max_le_left hfuel),hrun fuel (le_of_max_le_right hfuel),
    Option.bind_some,Option.map_some,if_neg (not_not.mpr hbytes),hwrote.output,hflatten,htotal]
  simp [slice]

end Download

/-- A file of twelve bytes that is read to its end, with items that come late. -/
theorem runImpl_writes_pair : Returns (Download.runImpl ⟨.v2 1,le_refl 1,true,
      ⟨(· * ·),(· - ·),max,fun a b => decide (a ≤ b),id,id⟩,⟨2,4,3,1⟩,by decide,by
        decide,⟨1,2 ^ 64 - 1⟩,[],
      fun _ => ⟨7,[],[],[]⟩,SyncWriterThread.lateItems,SyncWriterThread.takesAll⟩ pairFooter
        pairFile pairStore)
    (.ok ([2,3,7,8,9,3,4,5,6,1,2],11)) := Download.runImpl_writes _ pairFile_ok rfl (by decide)

end XetCore.Reconstruction
