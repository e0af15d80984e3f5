import XetCore.Dedup.XorbLimits

/-! # The upload session

Finished files hand over what remains of their data. When it would be too large for a xorb
together with the current session data, the larger one is cut and its files are registered.
Each file is registered once, and its segments point to its chunks.
-/
namespace XetCore.Session
open Merkle Chunking Dedup List

variable {H S : Type} {E : DedupEnv H S} {content : H → Bytes} {store : H → List (Chunk H)}

structure FileUploadSession (H : Type) where
  currentSessionData : DataAggregator H := {}
  fileReconstructionInfo : List (MDBFileInfo H) := []
  registeredXorbs : List (RawXorbData H) := []
  uploadedXorbs : List (RawXorbData H) := []
  dependencies : List (FileXorbDependency H) := []
  deduplicationMetrics : DeduplicationMetrics := {}
  finalized : Bool := false

inductive DataError where
  | invalidOperation (message : String)
  | internalError (message : String)
  | parameterError (message : String)
  | clientError
deriving Repr, DecidableEq

namespace FileUploadSession
variable [DecidableEq H]

/-- A xorb that was registered before with some bytes is not uploaded again, and an empty one never.
-/
def registerNewXorb (s : FileUploadSession H) (xorb : RawXorbData H)
    (fileDependencies : List (FileXorbDependency H)) :
    Bool × FileUploadSession H :=
  let xorbIsNew := s.registeredXorbs.all fun x => x.xorbHash ≠ xorb.xorbHash || x.numBytes = 0
  let s' := { s with
    registeredXorbs := s.registeredXorbs ++ [xorb]
    dependencies := s.dependencies ++ fileDependencies }
  if !xorbIsNew then (false,s')
  else if xorb.numBytes = 0 then (true,s')
  else (true,{ s' with uploadedXorbs := s.uploadedXorbs ++ [xorb] })

def processAggregatedDataAsXorbImpl (K : NodeHasher H) (s : FileUploadSession H)
    (dataAgg : DataAggregator H)
    (registerFiles : Bool) : List (MDBFileInfo H) × FileUploadSession H :=
  let f := dataAgg.finalize K
  let newDependencies := f.2.map fun p => ⟨p.1,f.1.xorbHash,p.2.2,false⟩
  let fileInfos := f.2.map (·.2.1)
  if registerFiles then
    ([],(registerNewXorb { s with fileReconstructionInfo := s.fileReconstructionInfo ++ fileInfos } f.1
      newDependencies).2)
  else (fileInfos,(s.registerNewXorb f.1 newDependencies).2)

def processAggregatedDataAsXorb (K : NodeHasher H) (s : FileUploadSession H)
    (dataAgg : DataAggregator H) :
    FileUploadSession H :=
  (s.processAggregatedDataAsXorbImpl K dataAgg true).2

variable (E : DedupEnv H S) (s : FileUploadSession H)

def registerSingleFileCleanCompletion (fileData : DataAggregator H)
    (dedupMetrics : DeduplicationMetrics) : FileUploadSession H :=
  let current := s.currentSessionData
  let s' :=
    if current.numBytes + fileData.numBytes > E.constants.maxXorbBytes ∨
        current.chunks.length + fileData.chunks.length > E.constants.maxXorbChunks then
      if current.numBytes > fileData.numBytes then
        processAggregatedDataAsXorb E.hasher { s with currentSessionData := fileData } current
      else s.processAggregatedDataAsXorb E.hasher fileData
    else { s with currentSessionData := current.mergeIn E.marker fileData }
  { s' with deduplicationMetrics := s'.deduplicationMetrics.mergeIn dedupMetrics }

def registerSingleFileCleanCompletionDetached
    (fileData : DataAggregator H) (dedupMetrics : DeduplicationMetrics) :
    Except DataError (MDBFileInfo H) × FileUploadSession H :=
  let p := s.processAggregatedDataAsXorbImpl E.hasher fileData false
  let s' := { p.2 with deduplicationMetrics := p.2.deduplicationMetrics.mergeIn dedupMetrics }
  match p.1 with
  | fi :: _ => (.ok fi,s')
  | [] => (.error (.internalError "detached completion produced no file info"),s')

def finalizeImpl (returnFiles : Bool) :
    Except DataError ((DeduplicationMetrics × List (MDBFileInfo H)) × FileUploadSession H) :=
  if s.finalized then .error (.invalidOperation "FileUploadSession already finalized")
  else
    let s' := processAggregatedDataAsXorb E.hasher { s with currentSessionData := {}, finalized := true }
      s.currentSessionData
    .ok ((s'.deduplicationMetrics,if returnFiles then s'.fileReconstructionInfo else []),
      { s' with deduplicationMetrics := {} })

end FileUploadSession

section Invariant
variable [DecidableEq H]

/-- After some files: those whose xorb is cut are complete, the others are in the session data. -/
structure SessionInv (E : DedupEnv H S) (store : H → List (Chunk H)) (s : FileUploadSession H)
    (files : List (FileRecord H)) : Prop where
  limits : WithinLimits E.constants s.currentSessionData
  xorbs : ∀ x ∈ s.registeredXorbs, XorbOk E.constants x
  uploaded : ∀ x ∈ s.registeredXorbs, x.numBytes ≠ 0 → ∃ y ∈ s.uploadedXorbs, y.xorbHash = x.xorbHash
  files : ∃ cut pending, (cut ++ pending).Perm files ∧
    AggregatorOk E.marker store s.currentSessionData pending ∧
    (Stored E.marker store s.registeredXorbs →
      List.Forall₂ (Complete E.marker store) s.fileReconstructionInfo cut)

variable {s : FileUploadSession H} {a : DataAggregator H}
  {files fs gs : List (FileRecord H)}

theorem registerNewXorb_registered (s : FileUploadSession H) (x : RawXorbData H)
    (deps : List (FileXorbDependency H)) :
    (s.registerNewXorb x deps).2.registeredXorbs = s.registeredXorbs ++ [x] ∧
    (s.registerNewXorb x deps).2.currentSessionData = s.currentSessionData ∧
    (s.registerNewXorb x deps).2.fileReconstructionInfo = s.fileReconstructionInfo ∧
    (s.registerNewXorb x deps).2.finalized = s.finalized := by
  unfold FileUploadSession.registerNewXorb
  simp only
  split
  · exact ⟨rfl,rfl,rfl,rfl⟩
  · split <;> exact ⟨rfl,rfl,rfl,rfl⟩

theorem registerNewXorb_uploaded (x : RawXorbData H) (deps : List (FileXorbDependency H))
    (h : ∀ x ∈ s.registeredXorbs, x.numBytes ≠ 0 → ∃ y ∈ s.uploadedXorbs, y.xorbHash = x.xorbHash) :
    ∀ z ∈ (s.registerNewXorb x deps).2.registeredXorbs, z.numBytes ≠ 0 →
      ∃ y ∈ (s.registerNewXorb x deps).2.uploadedXorbs, y.xorbHash = z.xorbHash := by
  rw [(registerNewXorb_registered s x deps).1]
  unfold FileUploadSession.registerNewXorb
  simp only
  intro z hz hne
  rcases mem_append.mp hz with hz | hz
  · obtain ⟨y,hy,hyz⟩ := h z hz hne
    refine ⟨y,?_,hyz⟩
    split
    · exact hy
    · split
      · exact hy
      · exact mem_append_left _ hy
  · obtain rfl := mem_singleton.mp hz
    split
    · -- an earlier xorb of the same hash was uploaded
      rename_i hold
      simp only [Bool.not_eq_eq_eq_not,Bool.not_true,all_eq_false,Bool.or_eq_true,decide_eq_true_eq,
        not_or,not_not] at hold
      obtain ⟨w,hw,hh,hby⟩ := hold
      obtain ⟨y,hy,hyw⟩ := h w hw hby
      exact ⟨y,hy,hyw.trans hh⟩
    · exact ⟨z,mem_append_right _ (mem_singleton_self z),rfl⟩

theorem processAggregated_inv (hx : ∀ x ∈ s.registeredXorbs, XorbOk E.constants x)
    (hu : ∀ x ∈ s.registeredXorbs, x.numBytes ≠ 0 → ∃ y ∈ s.uploadedXorbs, y.xorbHash = x.xorbHash)
    (hl : WithinLimits E.constants s.currentSessionData)
    (hc : AggregatorOk E.marker store s.currentSessionData fs)
    (ha : AggregatorOk E.marker store a gs) (hla : WithinLimits E.constants a) {cut : List (FileRecord H)}
    (hd : Stored E.marker store s.registeredXorbs →
      List.Forall₂ (Complete E.marker store) s.fileReconstructionInfo cut)
    (hp : ((cut ++ gs) ++ fs).Perm files) :
    SessionInv E store (s.processAggregatedDataAsXorb E.hasher a) files := by
  let s' : FileUploadSession H :=
    { s with fileReconstructionInfo := s.fileReconstructionInfo ++ (a.finalize E.hasher).2.map (·.2.1) }
  let deps : List (FileXorbDependency H) :=
    (a.finalize E.hasher).2.map fun p => ⟨p.1,(a.finalize E.hasher).1.xorbHash,p.2.2,false⟩
  have hr := registerNewXorb_registered s' (a.finalize E.hasher).1 deps
  change SessionInv E store (s'.registerNewXorb (a.finalize E.hasher).1 deps).2 files
  refine ⟨?_,?_,registerNewXorb_uploaded _ deps hu,cut ++ gs,fs,hp,?_,?_⟩
  · rw [hr.2.1]
    exact hl
  · rw [hr.1]
    intro x hxm
    rcases mem_append.mp hxm with hxm | hxm
    · exact hx x hxm
    · obtain rfl := mem_singleton.mp hxm
      exact ⟨ha.bytes.symm.trans_le hla.bytes_le,hla.chunks_le,ha.boundaries⟩
  · rw [hr.2.1]
    exact hc
  · rw [hr.1,hr.2.2.1]
    intro hst
    have hxo := hst (a.finalize E.hasher).1 (by simp)
    exact rel_append (hd (hst.of_prefix (prefix_append _ _))) (ha.finalize hxo.1 hxo.2)

theorem SessionInv.register (h : SessionInv E store s files) (ha : AggregatorOk E.marker store a gs)
    (hla : WithinLimits E.constants a) (m : DeduplicationMetrics) :
    SessionInv E store (s.registerSingleFileCleanCompletion E a m) (files ++ gs) := by
  obtain ⟨cut,pending,hp,hag,hd⟩ := h.files
  unfold FileUploadSession.registerSingleFileCleanCompletion
  simp only
  split
  · split
    · -- the session data is cut and the file stays
      have hin := processAggregated_inv (s := { s with currentSessionData := a }) h.xorbs
        h.uploaded hla ha hag
        h.limits hd (hp.append_right gs)
      exact { hin with }
    · have hpe : ((cut ++ gs) ++ pending).Perm (files ++ gs) := by
        rw [append_assoc]
        refine ((perm_append_comm).append_left cut).trans ?_
        rw [← append_assoc]
        exact hp.append_right gs
      have hin := processAggregated_inv h.xorbs h.uploaded h.limits hag ha hla hd hpe
      exact { hin with }
  · rename_i hf
    simp only [not_or,Nat.not_lt] at hf
    refine ⟨⟨hf.1,?_⟩,h.xorbs,h.uploaded,cut,pending ++ gs,?_,hag.mergeIn ha,hd⟩
    · simpa [DataAggregator.mergeIn] using hf.2
    · rw [← append_assoc]
      exact hp.append_right gs

end Invariant

section Run
variable [DecidableEq H]

/-- A file whose batches went through a deduper and whose remaining data fits into a xorb. -/
structure FinishedFile (E : DedupEnv H S) (content : H → Bytes) (store : H → List (Chunk H)) where
  state : S
  fileId : ℕ
  batches : List (List (Chunk H))
  metadataExt : Option H
  genuine : Genuine content batches.flatten
  stored : Stored E.marker store
    ((FileDeduper.new state fileId).processBatches E batches).dataMng.registeredXorbs
  limits : WithinLimits E.constants
    (((FileDeduper.new state fileId).processBatches E batches).finalize E metadataExt).2.2.1

namespace FinishedFile
variable (f : FinishedFile E content store)

/-- Every run over chunks that are not larger than a xorb may be gives a finished file. -/
def ofRun (hI : SoundInterface E content store) (state : S) (fileId : ℕ) (batches : List (List (Chunk H)))
    (metadataExt : Option H) (hg : Genuine content batches.flatten)
    (hst : Stored E.marker store
      ((FileDeduper.new state fileId).processBatches E batches).dataMng.registeredXorbs)
    (hb : ∀ c ∈ batches.flatten, c.data.length ≤ E.constants.maxXorbBytes)
    (hc : 0 < E.constants.maxXorbChunks) :
    FinishedFile E content store where
  state := state
  fileId := fileId
  batches := batches
  metadataExt := metadataExt
  genuine := hg
  stored := hst
  limits := (FileDeduper.processBatches_fits hI (FileDeduper.fits_new state fileId) hb
    hc).withinLimits metadataExt

def deduper : FileDeduper H S := (FileDeduper.new f.state f.fileId).processBatches E f.batches
def aggregator : DataAggregator H := (f.deduper.finalize E f.metadataExt).2.2.1
def metrics : DeduplicationMetrics := (f.deduper.finalize E f.metadataExt).2.2.2
def chunks : List (Chunk H) := f.batches.flatten

def info : MDBFileInfo H where
  metadata := ⟨Merkle.fileHash E.hasher (f.chunks.map chunkNode),f.deduper.fileInfo.length,true,
    f.metadataExt.isSome⟩
  segments := f.deduper.fileInfo
  verification := f.deduper.fileInfo.map fun e =>
    E.rangeHashFromChunks ((e.read (f.deduper.source E store)).map (·.hash))
  metadataExt := f.metadataExt

theorem aggregator_ok (hI : SoundInterface E content store) :
    AggregatorOk E.marker store f.aggregator [(f.info,f.chunks)] := by
  have hin : FileDeduper.FileInv E content store f.deduper f.chunks :=
    FileDeduper.fileInv_processBatches hI f.state f.fileId f.genuine
  have hv := hin.valid f.stored
  have hh : (f.deduper.finalize E f.metadataExt).1 = Merkle.fileHash E.hasher
    (f.chunks.map chunkNode) := by
    rw [← hin.hashes]
    rfl
  have hbo : BoundariesOk f.aggregator.fileBoundaries f.aggregator.chunks.length := by
    simp only [aggregator,FileDeduper.finalize,DataAggregator.new]
    cases f.deduper.newData with
    | nil => exact ⟨by simp,by simp,by simp⟩
    | cons c cs => exact ⟨by simp,by simp,by simp⟩
  refine ⟨Forall₂.cons ⟨⟨?_,hin.verification_eq f.stored,rfl⟩,hv.denotes,hv.markers⟩ Forall₂.nil,rfl,hbo⟩
  simp only [info,← hh]
  rfl

end FinishedFile

variable {records : List (FileRecord H)}
variable {s : FileUploadSession H}

def registerAll (E : DedupEnv H S) (s : FileUploadSession H)
    (files : List (FinishedFile E content store)) :
    FileUploadSession H :=
  files.foldl (fun s f => s.registerSingleFileCleanCompletion E f.aggregator f.metrics) s

theorem sessionInv_new : SessionInv E store {} [] :=
  ⟨⟨Nat.zero_le _,Nat.zero_le _⟩,by simp,by simp,[],[],Perm.refl _,aggregatorOk_empty,fun _ =>
    Forall₂.nil⟩

theorem SessionInv.registerAll (hI : SoundInterface E content store)
    (h : SessionInv E store s records) (files : List (FinishedFile E content store)) :
    SessionInv E store (registerAll E s files) (records ++ files.map fun f => (f.info,f.chunks)) := by
  induction files generalizing s records with
  | nil => simpa [Session.registerAll] using h
  | cons f fs ih =>
    have hn := ih (h.register (f.aggregator_ok hI) f.limits f.metrics)
    simpa [Session.registerAll] using hn

theorem registerSingleFileCleanCompletion_finalized (s : FileUploadSession H) (a : DataAggregator H)
    (m : DeduplicationMetrics) : (s.registerSingleFileCleanCompletion E a m).finalized = s.finalized := by
  unfold FileUploadSession.registerSingleFileCleanCompletion
  simp only
  split
  · split <;> exact (registerNewXorb_registered _ _ _).2.2.2
  · rfl

theorem registerAll_finalized (s : FileUploadSession H) (files : List (FinishedFile E content store)) :
    (registerAll E s files).finalized = s.finalized := by
  induction files generalizing s with
  | nil => rfl
  | cons f fs ih => exact (ih _).trans (registerSingleFileCleanCompletion_finalized _ _ _)

theorem SessionInv.finalize (h : SessionInv E store s records) (hf : s.finalized = false)
    (returnFiles : Bool) :
    ∃ r s', s.finalizeImpl E returnFiles = .ok (r,s') ∧ (∀ x ∈ s'.registeredXorbs, XorbOk E.constants x) ∧
      (∀ x ∈ s'.registeredXorbs, x.numBytes ≠ 0 → ∃ y ∈ s'.uploadedXorbs, y.xorbHash = x.xorbHash) ∧
      (Stored E.marker store s'.registeredXorbs → ∃ infos, s'.fileReconstructionInfo.Perm infos ∧
        List.Forall₂ (Complete E.marker store) infos records) := by
  obtain ⟨cut,pending,hp,ha,hd⟩ := h.files
  have he : WithinLimits E.constants ({} : DataAggregator H) := ⟨Nat.zero_le _,Nat.zero_le _⟩
  let t := FileUploadSession.processAggregatedDataAsXorb E.hasher
    { s with currentSessionData := {}, finalized := true } s.currentSessionData
  have hin : SessionInv E store t records := processAggregated_inv h.xorbs h.uploaded he
    aggregatorOk_empty ha h.limits hd (by simpa using hp)
  obtain ⟨cut',pending',hp',ha',hd'⟩ := hin.files
  -- nothing is pending any more
  have hcu : t.currentSessionData = {} := (registerNewXorb_registered _ _ _).2.1
  obtain rfl : pending' = [] := by
    have hpe := ha'.pending
    rw [hcu] at hpe
    exact forall₂_nil_left_iff.mp hpe
  rw [append_nil] at hp'
  have hok : s.finalizeImpl E returnFiles = .ok ((t.deduplicationMetrics,
      if returnFiles then t.fileReconstructionInfo else []),{ t with deduplicationMetrics := {} }) := by
    simp only [FileUploadSession.finalizeImpl,hf,Bool.false_eq_true]
    rfl
  refine ⟨_,_,hok,hin.xorbs,hin.uploaded,fun hst => ?_⟩
  have hco : Relation.Comp (List.Forall₂ (Complete E.marker store)) List.Perm
    t.fileReconstructionInfo records :=
    ⟨cut',hd' hst,hp'⟩
  rwa [forall₂_comp_perm_eq_perm_comp_forall₂] at hco

/-- For every sequence of finished files, closing the session succeeds. If the xorbs are stored
under their hashes, then each file is registered once, without markers and with segments that denote
its chunks; and every xorb is within the limits, with its file boundaries in order. -/
theorem session_registers_files (hI : SoundInterface E content store)
    (files : List (FinishedFile E content store)) (returnFiles : Bool) :
    ∃ r s', (registerAll E {} files).finalizeImpl E returnFiles = .ok (r,s') ∧
      (Stored E.marker store s'.registeredXorbs → ∃ infos, s'.fileReconstructionInfo.Perm infos ∧
        List.Forall₂ (fun fi f => Complete E.marker store fi (f.info,f.chunks)) infos files) ∧
      (∀ x ∈ s'.registeredXorbs, XorbOk E.constants x) ∧
      ∀ x ∈ s'.registeredXorbs, x.numBytes ≠ 0 → ∃ y ∈ s'.uploadedXorbs, y.xorbHash = x.xorbHash := by
  have hinv := sessionInv_new.registerAll hI files
  obtain ⟨r,s',hr,hx,hu,hfiles⟩ := hinv.finalize (registerAll_finalized {} files) returnFiles
  refine ⟨r,s',hr,fun hst => ?_,hx,hu⟩
  obtain ⟨infos,hp,hall⟩ := hfiles hst
  exact ⟨infos,hp,forall₂_map_right_iff.mp hall⟩

open FileDeduper in
/-- A file deduplicated against the small store, in xorbs of at most two chunks. -/
def smallRun (fileId : ℕ) (batches : List (List (Chunk ℕ)))
    (hg : Genuine smallContent batches.flatten)
    (hst : Stored (smallEnv 128 2).marker smallStore
      ((new () fileId).processBatches (smallEnv 128 2) batches).dataMng.registeredXorbs)
    (hb : ∀ c ∈ batches.flatten, c.data.length ≤ (smallEnv 128 2).constants.maxXorbBytes) :
    FinishedFile (smallEnv 128 2) smallContent smallStore :=
  .ofRun (smallEnv_sound 128 2) () fileId batches none hg hst hb Nat.two_pos

open FileDeduper in
/-- One file with a stored chunk and a new one, and one with a single new chunk. -/
def smallFiles : List (FinishedFile (smallEnv 128 2) smallContent smallStore) :=
  [smallRun 0 [[smallChunk 7,smallChunk 1]] (by unfold Genuine; decide +kernel)
    (by unfold Stored; decide +kernel) (by decide +kernel),
   smallRun 1 [[smallChunk 2]] (by unfold Genuine; decide +kernel)
    (by unfold Stored; decide +kernel) (by decide +kernel)]

open FileDeduper in
theorem session_registers_files_small : ∃ infos,
    List.Forall₂ (fun fi (f : FinishedFile (smallEnv 128 2) smallContent smallStore) =>
      Complete 999 smallStore fi (f.info,f.chunks)) infos smallFiles := by
  obtain ⟨r,s',hr,hfiles,-⟩ := session_registers_files (smallEnv_sound 128 2) smallFiles true
  have hx : some s'.registeredXorbs = some [⟨32,[smallChunk 1,smallChunk 2],2,[0,1]⟩] := by
    have h := congrArg (fun e => e.toOption.map fun p => p.2.registeredXorbs) hr
    rw [← show _ = some s'.registeredXorbs from h]
    decide +kernel
  obtain ⟨infos,-,hall⟩ := hfiles (by
    rw [Option.some.inj hx]
    unfold Stored
    decide +kernel)
  exact ⟨infos,hall⟩

end Run
end XetCore.Session
