import XetCore.Session.TrackerAccounts
import XetCore.Session.UploadSession

/-! # The dependencies of the files of a session

The entries of the last xorb of a file are counted when the aggregator that holds them
is cut, in whatever order files are finished. With what the deduper registered on the
way this gives the bytes of the file, unless one of its xorbs was cut short.
-/
namespace XetCore.Session
open Merkle Chunking Dedup FileDeduper FileUploadSession List

variable {H S : Type} {E : DedupEnv H S} {content : H → Bytes} {store : H → List (Chunk H)}

variable (fileId : ℕ)

abbrev allDepBytes (deps : List (FileXorbDependency H)) : ℕ := fileDepBytes fileId (fun _ => true) deps

theorem allDepBytes_append (as bs : List (FileXorbDependency H)) :
    allDepBytes fileId (as ++ bs) = allDepBytes fileId as + allDepBytes fileId bs := by
  simp [fileDepBytes]

theorem allDepBytes_own {fileId : ℕ} {deps : List (FileXorbDependency H)}
    (h : ∀ d ∈ deps, d.fileId = fileId) (i : ℕ) :
    allDepBytes i deps = if fileId = i then depBytes deps else 0 := by
  split_ifs with hid
  · refine congrArg depBytes (filter_eq_self.mpr fun d hd => ?_)
    simp [h d hd,hid]
  · refine fileDepBytes_eq_zero fun d hd hd' => absurd ((h d hd).symm.trans hd') hid

variable [DecidableEq H] (K : NodeHasher H) (s : FileUploadSession H)

def FileUploadSession.checkpoint : FileUploadSession H :=
  processAggregatedDataAsXorb K { s with currentSessionData := {} } s.currentSessionData

/-- The bytes of the entries of one pending file in the open xorb. -/
def indexBytes (p : MDBFileInfo H × List ℕ × ℕ) : ℕ :=
  (p.2.1.map fun i => (p.1.segments[i]?.map (·.unpackedSegmentBytes)).getD 0).sum

variable (a : DataAggregator H)

def pendingBytes : ℕ :=
  ((a.pendingFileInfo.filter fun p => p.2.2 = fileId).map indexBytes).sum

theorem indexBytes_shift (marker : H) (k : ℕ) (p : MDBFileInfo H × List ℕ × ℕ) :
    indexBytes ({ p.1 with segments := p.1.segments.map (·.shift marker k) },p.2) = indexBytes p := by
  refine congrArg List.sum (map_congr_left fun i _ => ?_)
  simp only [getElem?_map,Option.map_map]
  congr 2
  funext e
  simp only [Function.comp,FileDataSequenceEntry.shift]
  split <;> rfl

theorem pendingBytes_mergeIn (marker : H) (a b : DataAggregator H) :
    pendingBytes fileId (a.mergeIn marker b) = pendingBytes fileId a + pendingBytes fileId b := by
  simp only [pendingBytes,DataAggregator.mergeIn,filter_append,map_append,sum_append,filter_map,map_map]
  congr 2
  exact map_congr_left fun p _ => indexBytes_shift marker a.chunks.length p

theorem registerNewXorb_dependencies (x : RawXorbData H)
    (deps : List (FileXorbDependency H)) :
    (s.registerNewXorb x deps).2.dependencies = s.dependencies ++ deps := by
  unfold registerNewXorb
  simp only
  split
  · rfl
  · split <;> rfl

omit [DecidableEq H] in
theorem allDepBytes_finalize (fileId : ℕ) :
    allDepBytes fileId ((a.finalize K).2.map fun p => ⟨p.1,(a.finalize K).1.xorbHash,p.2.2,false⟩) =
      pendingBytes fileId a := by
  simp only [allDepBytes,fileDepBytes,depBytes,DataAggregator.finalize,List.map_map,List.filter_map,
    Bool.and_true,pendingBytes]
  rfl

theorem processAggregated_dependencies (registerFiles : Bool) (fileId : ℕ) :
    let s' := (s.processAggregatedDataAsXorbImpl K a registerFiles).2
    allDepBytes fileId s'.dependencies = allDepBytes fileId s.dependencies + pendingBytes fileId a ∧
    s'.currentSessionData = s.currentSessionData ∧ s'.finalized = s.finalized := by
  unfold processAggregatedDataAsXorbImpl
  split
  all_goals
    simp only [registerNewXorb_dependencies,allDepBytes_append,allDepBytes_finalize]
    exact ⟨trivial,(registerNewXorb_registered _ _ _).2.1,(registerNewXorb_registered _ _ _).2.2.2⟩

/-- The bytes that are registered for a file or that wait in the session data. -/
def sessionBytes : ℕ :=
  allDepBytes fileId s.dependencies + pendingBytes fileId s.currentSessionData

section Steps

/-- What happens to a session: a file is finished, with its info registered or returned, or what is
there is cut. -/
inductive SessionStep (E : DedupEnv H S) (content : H → Bytes) (store : H → List (Chunk H)) where
  | complete (f : FinishedFile E content store)
  | completeDetached (f : FinishedFile E content store)
  | checkpoint

variable (fileId : ℕ)

def SessionStep.files : SessionStep E content store → List (FinishedFile E content store)
  | .complete f => [f]
  | .completeDetached f => [f]
  | .checkpoint => []

variable (s : FileUploadSession H)

def FileUploadSession.apply : SessionStep E content store → FileUploadSession H
  | .complete f => s.registerSingleFileCleanCompletion E f.aggregator f.metrics
  | .completeDetached f => (s.registerSingleFileCleanCompletionDetached E f.aggregator f.metrics).2
  | .checkpoint => s.checkpoint E.hasher

theorem sessionBytes_complete (a : DataAggregator H) (m : DeduplicationMetrics) :
    sessionBytes fileId (s.registerSingleFileCleanCompletion E a m) = sessionBytes fileId s +
      pendingBytes fileId a := by
  unfold registerSingleFileCleanCompletion processAggregatedDataAsXorb sessionBytes
  simp only
  split
  · split
    · obtain ⟨hd,hc,-⟩ := processAggregated_dependencies E.hasher { s with currentSessionData := a }
        s.currentSessionData true fileId
      simp [hd,hc]
    · obtain ⟨hd,hc,-⟩ := processAggregated_dependencies E.hasher s a true fileId
      simp only [hc]
      omega
  · simp only [pendingBytes_mergeIn]
    omega

theorem sessionBytes_completeDetached (a : DataAggregator H)
    (m : DeduplicationMetrics) :
    sessionBytes fileId (s.registerSingleFileCleanCompletionDetached E a m).2 =
      sessionBytes fileId s + pendingBytes fileId a := by
  obtain ⟨hd,hc,-⟩ := processAggregated_dependencies E.hasher s a false fileId
  unfold registerSingleFileCleanCompletionDetached sessionBytes
  simp only
  split
  all_goals
    simp only [hc]
    omega

theorem sessionBytes_checkpoint (K : NodeHasher H) (s : FileUploadSession H) :
    sessionBytes fileId (s.checkpoint K) = sessionBytes fileId s := by
  obtain ⟨hd,hc,-⟩ := processAggregated_dependencies K { s with currentSessionData := {} }
    s.currentSessionData
    true fileId
  unfold checkpoint processAggregatedDataAsXorb sessionBytes
  rw [hd,hc]
  rfl

theorem apply_bytes (step : SessionStep E content store) : sessionBytes fileId (s.apply step) =
      sessionBytes fileId s + (step.files.map fun f => pendingBytes fileId f.aggregator).sum ∧
    (s.apply step).finalized = s.finalized := by
  cases step with
  | complete f =>
    exact ⟨sessionBytes_complete fileId s f.aggregator f.metrics,
      registerSingleFileCleanCompletion_finalized s f.aggregator f.metrics⟩
  | completeDetached f =>
    exact ⟨sessionBytes_completeDetached fileId s f.aggregator f.metrics,
      (processAggregated_dependencies E.hasher s f.aggregator false fileId).2.2⟩
  | checkpoint =>
    exact ⟨sessionBytes_checkpoint fileId E.hasher s,
      (processAggregated_dependencies E.hasher _ _ true fileId).2.2⟩

variable (steps : List (SessionStep E content store))

def FileUploadSession.applyAll : FileUploadSession H :=
  steps.foldl FileUploadSession.apply s

theorem applyAll_bytes : sessionBytes fileId (s.applyAll steps) =
      sessionBytes fileId s + ((steps.flatMap SessionStep.files).map fun f =>
        pendingBytes fileId f.aggregator).sum ∧
    (s.applyAll steps).finalized = s.finalized := by
  induction steps generalizing s with
  | nil => exact ⟨rfl,rfl⟩
  | cons step steps ih =>
    obtain ⟨hb,hf⟩ := apply_bytes fileId s step
    obtain ⟨hb',hf'⟩ := ih (s.apply step)
    refine ⟨?_,hf'.trans hf⟩
    rw [flatMap_cons,map_append,sum_append,← Nat.add_assoc,← hb]
    exact hb'

theorem finalizeImpl_dependencies (hf : s.finalized = false) (returnFiles : Bool) :
    ∃ r s', s.finalizeImpl E returnFiles = .ok (r,s') ∧
      ∀ fileId, allDepBytes fileId s'.dependencies = sessionBytes fileId s := by
  unfold finalizeImpl
  rw [hf]
  exact ⟨_,_,rfl,fun fileId =>
    (processAggregated_dependencies E.hasher _ s.currentSessionData true fileId).1⟩

end Steps

section Totals

namespace FinishedFile
variable (f : FinishedFile E content store)

section
variable (hI : SoundInterface E content store)
include hI

theorem deduper_owner : f.deduper.fileId = f.fileId ∧
    ∀ dep ∈ f.deduper.dataMng.dependencies, dep.fileId = f.fileId :=
  processBatches_owner hI f.batches rfl (by simp [FileDeduper.new])

theorem pendingBytes_aggregator (fileId : ℕ) :
    pendingBytes fileId f.aggregator = if f.fileId = fileId then markerBytes E.marker
      f.deduper.fileInfo else 0 := by
  have hin : FileDeduper.FileInv E content store f.deduper f.chunks :=
    fileInv_processBatches hI f.state f.fileId f.genuine
  rw [← (f.deduper_owner hI).1,← markerIndices_bytes,← (hin.valid f.stored).markers]
  by_cases hid : f.deduper.fileId = fileId <;>
    simp [pendingBytes,aggregator,finalize,DataAggregator.new,indexBytes,hid]

theorem dependencies_add_missing (fileId : ℕ) :
    allDepBytes fileId f.deduper.dataMng.dependencies + pendingBytes fileId f.aggregator =
      if f.fileId = fileId then byteCount f.chunks - missing E f.deduper else 0 := by
  have hs : depBytes f.deduper.dataMng.dependencies + markerBytes E.marker f.deduper.fileInfo +
      missing E f.deduper = byteCount f.chunks :=
    (depBytes_add_missing hI f.state f.fileId f.genuine f.stored).1
  rw [allDepBytes_own (f.deduper_owner hI).2,f.pendingBytes_aggregator hI]
  split <;> omega

end

end FinishedFile

theorem sum_of_key {A : Type} {key : A → ℕ} (value : A → ℕ) {l : List A} (hnd : (l.map key).Nodup) {a : A}
    (ha : a ∈ l) : (l.map fun b => if key b = key a then value b else 0).sum = value a := by
  induction l with
  | nil => cases ha
  | cons b bs ih =>
    rw [map_cons,nodup_cons] at hnd
    rw [map_cons,sum_cons]
    rcases mem_cons.mp ha with rfl | ha
    · -- no other element has this key
      have hr : (bs.map fun b => if key b = key a then value b else 0) = bs.map fun _ => 0 := by
        refine map_congr_left fun b hb => if_neg fun hk => hnd.1 ?_
        exact mem_map.mpr ⟨b,hb,hk⟩
      rw [hr,if_pos rfl]
      simp
    · have hne : key b ≠ key a := fun hk => hnd.1 (mem_map.mpr ⟨a,ha,hk.symm⟩)
      rw [if_neg hne,ih hnd.2 ha,Nat.zero_add]

/-- All dependencies that are registered for the files of a session. -/
def registeredDependencies (files : List (FinishedFile E content store)) (s : FileUploadSession H) :
    List (FileXorbDependency H) :=
  (files.flatMap fun f => f.deduper.dataMng.dependencies) ++ s.dependencies

omit [DecidableEq H] in
theorem allDepBytes_flatMap {A : Type} (fileId : ℕ) (deps : A → List (FileXorbDependency H))
    (l : List A) :
    allDepBytes fileId (l.flatMap deps) = (l.map fun a => allDepBytes fileId (deps a)).sum := by
  induction l with
  | nil => rfl
  | cons a as ih => rw [List.flatMap_cons,allDepBytes_append,ih,List.map_cons,List.sum_cons]

theorem registeredDependencies_bytes (hI : SoundInterface E content store)
    {steps : List (SessionStep E content store)}
    (hid : ((steps.flatMap SessionStep.files).map (·.fileId)).Nodup) {s' : FileUploadSession H}
    (hs' : ∀ fileId, allDepBytes fileId s'.dependencies =
      sessionBytes fileId (({} : FileUploadSession H).applyAll steps))
    {f : FinishedFile E content store} (hf : f ∈ steps.flatMap SessionStep.files) :
    allDepBytes f.fileId (registeredDependencies (steps.flatMap SessionStep.files) s') =
      byteCount f.chunks - missing E f.deduper := by
  rw [registeredDependencies,allDepBytes_append,allDepBytes_flatMap,hs',
    (applyAll_bytes f.fileId {} steps).1]
  have hz : sessionBytes f.fileId ({} : FileUploadSession H) = 0 := rfl
  rw [hz,Nat.zero_add,← sum_map_add]
  simp only [FinishedFile.dependencies_add_missing _ hI]
  exact sum_of_key (fun g => byteCount g.chunks - missing E g.deduper) hid hf

/-- The bytes of the dependencies of a file are those of the file, and the tracker sees the file
complete as soon as every xorb that it needs is: this holds if and only if no xorb of the file is
cut short. -/
theorem dependencies_cover_file_iff (hI : SoundInterface E content store)
    (steps : List (SessionStep E content store))
    (hids : ((steps.flatMap SessionStep.files).map (·.fileId)).Nodup) (returnFiles : Bool) :
    ∃ r s', (({} : FileUploadSession H).applyAll steps).finalizeImpl E returnFiles = .ok (r,s') ∧
      ∀ f ∈ steps.flatMap SessionStep.files,
        let deps := registeredDependencies (steps.flatMap SessionStep.files) s'
        (allDepBytes f.fileId deps = byteCount f.chunks ∧
          ∀ (share : Share) (events : List (TrackerEvent H)) (file : FileDependency H),
            (∀ n completed size, completed ≤ size → share n completed size ≤ n) →
            CompletionTracker.EventsOk share {} events → (events.flatMap TrackerEvent.deps).Perm deps →
            (CompletionTracker.applyAll share {} events).files[f.fileId]? = some file →
            file.totalBytes = byteCount f.chunks →
            (∀ d ∈ deps, d.fileId = f.fileId →
              isDone (CompletionTracker.applyAll share {} events).xorbs d = true) →
            file.completedBytes = file.totalBytes) ↔
        FileDeduper.NeverCutsShort E (FileDeduper.new f.state f.fileId) f.batches := by
  obtain ⟨hbytes,hfin⟩ := applyAll_bytes 0 ({} : FileUploadSession H) steps
  obtain ⟨r,s',hr,hs'⟩ := finalizeImpl_dependencies _ hfin returnFiles
  refine ⟨r,s',hr,fun f hf => ?_⟩
  intro deps
  have htotal : allDepBytes f.fileId deps = byteCount f.chunks - missing E f.deduper :=
    registeredDependencies_bytes hI hids hs' hf
  obtain ⟨hsum,hiff⟩ := depBytes_add_missing hI f.state f.fileId f.genuine f.stored
  have hle : missing E f.deduper ≤ byteCount f.chunks := by
    rw [FinishedFile.chunks,← hsum]
    exact Nat.le_add_left _ _
  rw [hiff]
  constructor
  · rintro ⟨hall,-⟩
    change missing E f.deduper = 0
    omega
  · intro hzero
    have hall : allDepBytes f.fileId deps = byteCount f.chunks := by
      rw [htotal,show missing E f.deduper = 0 from hzero,Nat.sub_zero]
    refine ⟨hall,fun share events file hshare hok hperm hfile hsize hdone => ?_⟩
    rw [completedBytes_eq hshare hok hfile fun d hd hid => hdone d (hperm.mem_iff.mp hd) hid,hsize,← hall]
    exact ((hperm.filter _).map _).sum_eq

open FileDeduper in
/-- Both files of a session with a checkpoint at its end. -/
def smallSteps : List (SessionStep (smallEnv 128 2) smallContent smallStore) :=
  smallFiles.map SessionStep.complete ++ [SessionStep.checkpoint]

theorem dependencies_cover_file_iff_small : ∃ r s',
    (({} : FileUploadSession ℕ).applyAll smallSteps).finalizeImpl (smallEnv 128 2) true = .ok (r,s') ∧
    ∀ f ∈ smallFiles, allDepBytes f.fileId (registeredDependencies smallFiles s') =
      byteCount f.chunks := by
  obtain ⟨r,s',hr,hcover⟩ := dependencies_cover_file_iff (smallEnv_sound 128 2) smallSteps
    (by decide +kernel) true
  have hwhole : ∀ f ∈ smallFiles, FileDeduper.NeverCutsShort (smallEnv 128 2)
      (FileDeduper.new f.state f.fileId) f.batches := by decide +kernel
  exact ⟨r,s',hr,fun f hf => ((hcover f hf).mpr (hwhole f hf)).1⟩

open FileDeduper in
/-- The second chunk repeats the first one, and both entries point to the xorb that the fourth chunk
cuts. -/
def repeatingFile : FinishedFile (smallEnv 128 2) smallContent smallStore :=
  smallRun 0 [[smallChunk 1,smallChunk 1,smallChunk 2,smallChunk 3]]
    (by unfold Genuine; decide +kernel) (by unfold Stored; decide +kernel) (by decide +kernel)

/-- Of the four bytes of the file, three are registered, and with all xorbs completed its progress
is three of four. -/
theorem repeatingFile_not_covered : ∃ r s',
    (({} : FileUploadSession ℕ).applyAll [.complete repeatingFile]).finalizeImpl (smallEnv 128 2) true =
      .ok (r,s') ∧
    byteCount repeatingFile.chunks = 4 ∧ allDepBytes 0 (registeredDependencies [repeatingFile] s') = 3 ∧
    (∀ d ∈ registeredDependencies [repeatingFile] s', d.fileId = 0) ∧
    let t := CompletionTracker.applyAll (fun _ _ _ => 0) {}
      ([.newFile (some 4),.dependencies (registeredDependencies [repeatingFile] s')] ++
        (registeredDependencies [repeatingFile] s').map fun d => .completion d.xorbHash)
    (∀ d ∈ registeredDependencies [repeatingFile] s', isDone t.xorbs d = true) ∧
    t.files.map (fun f => (f.completedBytes,f.totalBytes)) = [(3,4)] := by
  refine ⟨_,_,rfl,?_⟩
  decide +kernel

end Totals
end XetCore.Session
