import XetCore.Dedup.DataAggregator
import XetCore.Dedup.Walk

/-! # The dependencies of a file on xorbs

A file depends on a stored xorb with the bytes of each answer that is taken, on a xorb
that is cut on the way with the bytes of that xorb, and on the last xorb with the bytes
of its own entries. A repeated chunk is stored once, so entries can exceed their xorb.
-/
namespace XetCore.Dedup
open Merkle Chunking Extents List

variable {H S : Type} {chunks done : List (Chunk H)}

def entryBytes (es : List (FileDataSequenceEntry H)) : ℕ := (es.map (·.unpackedSegmentBytes)).sum

def depBytes (deps : List (FileXorbDependency H)) : ℕ := (deps.map (·.nBytes)).sum

section Bytes

variable {es fs : List (FileDataSequenceEntry H)} {e : FileDataSequenceEntry H}

@[simp] theorem entryBytes_append :
    entryBytes (es ++ fs) = entryBytes es + entryBytes fs := by simp [entryBytes]

@[simp] theorem entryBytes_cons :
    entryBytes (e :: es) = e.unpackedSegmentBytes + entryBytes es := by simp [entryBytes]

@[simp] theorem entryBytes_nil : entryBytes ([] : List (FileDataSequenceEntry H)) = 0 := rfl

@[simp] theorem depBytes_append (as bs : List (FileXorbDependency H)) :
    depBytes (as ++ bs) = depBytes as + depBytes bs := by simp [depBytes]

variable [DecidableEq H] {marker : H}

def markerBytes (marker : H) (es : List (FileDataSequenceEntry H)) : ℕ :=
  entryBytes (es.filter (·.xorbHash = marker))

theorem markerBytes_concat : markerBytes marker (es ++ [e]) =
    markerBytes marker es + if e.xorbHash = marker then e.unpackedSegmentBytes else 0 := by
  by_cases h : e.xorbHash = marker <;> simp [markerBytes,h]

theorem markerBytes_of_ne (h : ∀ e ∈ es, e.xorbHash ≠ marker) : markerBytes marker es = 0 := by
  have hn : es.filter (·.xorbHash = marker) = [] := by simpa using h
  rw [markerBytes,hn,entryBytes_nil]

theorem markerIndices_lt {i : ℕ} (h : i ∈ markerIndices marker es) : i < es.length := by
  simpa using lt_add_of_mem_findIdxs i h

theorem markerIndices_bytes (es : List (FileDataSequenceEntry H)) :
    ((markerIndices marker es).map fun i => (es[i]?.map (·.unpackedSegmentBytes)).getD 0).sum =
      markerBytes marker es := by
  induction es using List.reverseRecOn with
  | nil => rfl
  | append_singleton es e ih =>
    have hold : ((markerIndices marker es).map fun i =>
      ((es ++ [e])[i]?.map (·.unpackedSegmentBytes)).getD 0) =
        (markerIndices marker es).map fun i => (es[i]?.map (·.unpackedSegmentBytes)).getD 0 := by
      refine map_congr_left fun i hi => ?_
      rw [getElem?_append_left (markerIndices_lt hi)]
    rw [markerIndices_concat,markerBytes_concat]
    split
    · rw [map_append,sum_append,hold,ih]
      simp
    · rw [hold,ih,Nat.add_zero]

end Bytes

namespace FileDeduper
variable [DecidableEq H] {E : DedupEnv H S} {content : H → Bytes} {store : H → List (Chunk H)}
  {d : FileDeduper H S}

theorem addEntry_bytes (d : FileDeduper H S) (fse : FileDataSequenceEntry H) (n : ℕ) :
    entryBytes (d.addFileDataSequenceEntry E fse n).fileInfo = entryBytes d.fileInfo +
      fse.unpackedSegmentBytes ∧
    markerBytes E.marker (d.addFileDataSequenceEntry E fse n).fileInfo = markerBytes E.marker d.fileInfo +
      if fse.xorbHash = E.marker then fse.unpackedSegmentBytes else 0 := by
  unfold addFileDataSequenceEntry
  cases hc : d.fileDataSequenceContinuesCurrent fse with
  | true =>
    obtain ⟨es,last,hf,hx,-⟩ := continues_iff.mp hc
    rw [if_pos rfl,hf,modifyLast_concat]
    refine ⟨by simp [Nat.add_assoc],?_⟩
    rw [markerBytes_concat,markerBytes_concat,hx]
    split
    · simp only
      omega
    · rfl
  | false =>
    exact ⟨by simp,markerBytes_concat⟩

theorem cutNewXorb_bytes (hm : d.internallyReferencingEntries = markerIndices E.marker d.fileInfo)
    (hx : (d.cutNewXorb E).1.xorbHash ≠ E.marker) :
    entryBytes (d.cutNewXorb E).2.fileInfo = entryBytes d.fileInfo ∧
    markerBytes E.marker (d.cutNewXorb E).2.fileInfo = 0 := by
  have hf : (d.cutNewXorb E).2.fileInfo =
    d.fileInfo.map (·.close E.marker (d.cutNewXorb E).1.xorbHash) := by
    rw [← setXorbHash_markerIndices,← hm]
    rfl
  rw [hf]
  constructor
  · rw [entryBytes,map_map]
    refine congrArg List.sum (map_congr_left fun e _ => ?_)
    simp only [Function.comp,FileDataSequenceEntry.close]
    split <;> rfl
  · refine markerBytes_of_ne fun e he => ?_
    obtain ⟨e,-,rfl⟩ := mem_map.mp he
    exact close_ne_marker hx e

section Walk
variable {blocks : List (Option (DedupAnswer H))} {s : ProcessState H S}
variable {cs : List (Chunk H)} {chunk : Chunk H}

def isFull (E : DedupEnv H S) (d : FileDeduper H S) (nBytes : ℕ) : Bool :=
  d.newDataSize + nBytes > E.constants.maxXorbBytes ∨ d.newData.length + 1 > E.constants.maxXorbChunks

/-- The next chunk becomes new data: there is no answer for it, or the answer is refused. -/
def storesChunk (E : DedupEnv H S) (chunks : List (Chunk H)) (blocks : List (Option (DedupAnswer H)))
    (s : ProcessState H S) : Bool :=
  match dedupeQuery E (chunks.map (·.hash)) blocks s with
  | some (n,fse,_) => !(s.deduper.allowsDedup E n fse).1
  | none => true

/-- This round cuts a xorb that has fewer bytes than the entries that point to it. -/
def cutsShort (E : DedupEnv H S) (chunks : List (Chunk H)) (blocks : List (Option (DedupAnswer H)))
    (s : ProcessState H S) : Bool :=
  storesChunk E chunks blocks s && (chunks[s.curIdx]?.any fun c => isFull E s.deduper c.data.length) &&
    decide (s.deduper.newDataSize < markerBytes E.marker s.deduper.fileInfo)

/-- The bytes of the dependencies so far, those of this batch included. -/
def walkDepBytes (s : ProcessState H S) : ℕ :=
  depBytes s.deduper.dataMng.dependencies + depBytes s.xorbDependencies

theorem cutIfFull_bytes (hv : Valid E content store s.deduper cs) (n : ℕ)
    (hst : Stored E.marker store (cutIfFull E n s).deduper.dataMng.registeredXorbs) :
    entryBytes (cutIfFull E n s).deduper.fileInfo = entryBytes s.deduper.fileInfo ∧
    markerBytes E.marker (cutIfFull E n s).deduper.fileInfo =
      (if isFull E s.deduper n then 0 else markerBytes E.marker s.deduper.fileInfo) ∧
    (cutIfFull E n s).deduper.newDataSize = (if isFull E s.deduper n then 0 else s.deduper.newDataSize) ∧
    walkDepBytes (cutIfFull E n s) = walkDepBytes s + if isFull E s.deduper n then
      s.deduper.newDataSize else 0 := by
  unfold cutIfFull at *
  simp only [isFull,decide_eq_true_eq] at hst ⊢
  split_ifs at hst with hf
  · simp only [if_pos hf]
    have hx := hst (s.deduper.cutNewXorb E).1 (by simp [DataManager.registerNewXorb])
    obtain ⟨he,hm⟩ := cutNewXorb_bytes hv.markers hx.2
    refine ⟨he,hm,rfl,?_⟩
    simp only [walkDepBytes,DataManager.registerNewXorb,hv.size]
    simp [depBytes,cutNewXorb,RawXorbData.fromChunks,Nat.add_assoc]
  · rw [if_neg hf,if_neg hf,if_neg hf,if_neg hf]
    exact ⟨rfl,rfl,rfl,rfl⟩

theorem addNewChunk_bytes (hv : Valid E content store s.deduper cs)
    (hst : Stored E.marker store (addNewChunk E chunk s).deduper.dataMng.registeredXorbs) :
    entryBytes (addNewChunk E chunk s).deduper.fileInfo = entryBytes s.deduper.fileInfo +
      chunk.data.length ∧
    markerBytes E.marker (addNewChunk E chunk s).deduper.fileInfo =
      (if isFull E s.deduper chunk.data.length then 0
        else markerBytes E.marker s.deduper.fileInfo) + chunk.data.length ∧
    (addNewChunk E chunk s).deduper.newDataSize =
      (if isFull E s.deduper chunk.data.length then 0 else s.deduper.newDataSize) + chunk.data.length ∧
    walkDepBytes (addNewChunk E chunk s) =
      walkDepBytes s + if isFull E s.deduper chunk.data.length then s.deduper.newDataSize else 0 := by
  set n := chunk.data.length with hn
  set c := cutIfFull E n { s with dedupMetrics := countNew s.dedupMetrics n } with hc
  have hne : addNewChunk E chunk s = { c with
      deduper := (c.deduper.addFileDataSequenceEntry E ⟨E.marker,n,c.deduper.newData.length,
        c.deduper.newData.length + 1⟩ 1).pushNewData chunk
      curIdx := c.curIdx + 1 } := by
    simp only [addNewChunk,extendNewData_eq]
    rfl
  set fse : FileDataSequenceEntry H := ⟨E.marker,n,c.deduper.newData.length,c.deduper.newData.length + 1⟩
  rw [hne] at hst ⊢
  have hf := addEntry_frame (E := E) c.deduper fse 1
  obtain ⟨he,hcu,hs,hd⟩ := cutIfFull_bytes (s := { s with dedupMetrics := countNew s.dedupMetrics n })
    (hv.congr rfl rfl rfl rfl rfl) n (hst.of_prefix hf.registered)
  obtain ⟨hb,hm⟩ := addEntry_bytes c.deduper fse 1
  obtain ⟨es,refs,t,ha⟩ := addEntry_eq c.deduper fse 1
  rw [if_pos rfl] at hm
  rw [ha] at hb hm ⊢
  refine ⟨hb.trans (congrArg (· + n) he),?_,?_,hd⟩
  · rw [← hcu]
    exact hm
  · rw [← hs]
    rfl

theorem takeDeduped_bytes (n : ℕ) (fse : FileDataSequenceEntry H) (ext : Bool) (s : ProcessState H S) :
    entryBytes (takeDeduped E n fse ext s).deduper.fileInfo = entryBytes s.deduper.fileInfo +
      fse.unpackedSegmentBytes ∧
    markerBytes E.marker (takeDeduped E n fse ext s).deduper.fileInfo =
      markerBytes E.marker s.deduper.fileInfo +
      (if fse.xorbHash = E.marker then fse.unpackedSegmentBytes else 0) ∧
    (takeDeduped E n fse ext s).deduper.newDataSize = s.deduper.newDataSize ∧
    walkDepBytes (takeDeduped E n fse ext s) =
      walkDepBytes s + if fse.xorbHash = E.marker then 0 else fse.unpackedSegmentBytes := by
  obtain ⟨hb,hm⟩ := addEntry_bytes s.deduper fse n
  obtain ⟨es,refs,t,ha⟩ := addEntry_eq (E := E) s.deduper fse n
  refine ⟨hb,hm,?_,?_⟩
  · simp [takeDeduped,ha]
  · simp only [walkDepBytes,takeDeduped,ha]
    split
    · rfl
    · simp [depBytes,Nat.add_assoc]

/-- The entries of closed xorbs that are not covered by a dependency. -/
def missingBytes (E : DedupEnv H S) (s : ProcessState H S) : ℕ :=
  entryBytes s.deduper.fileInfo - (markerBytes E.marker s.deduper.fileInfo + walkDepBytes s)

structure DepInv (E : DedupEnv H S) (content : H → Bytes) (store : H → List (Chunk H))
    (d : FileDeduper H S) (done chunks : List (Chunk H)) (s : ProcessState H S) : Prop where
  walk : WalkInv E content store d done chunks s
  size_le : s.deduper.newDataSize ≤ markerBytes E.marker s.deduper.fileInfo
  deps_le : markerBytes E.marker s.deduper.fileInfo + walkDepBytes s ≤ entryBytes s.deduper.fileInfo

theorem processStep_split (blocks : List (Option (DedupAnswer H))) (hlt : s.curIdx < chunks.length) :
    (storesChunk E chunks blocks s = false ∧ ∃ n fse ext t m, processStep E chunks blocks s =
      takeDeduped E n fse ext (s.retuned t m)) ∨
    (storesChunk E chunks blocks s = true ∧ ∃ t m, processStep E chunks blocks s =
      addNewChunk E chunks[s.curIdx] (s.retuned t m)) := by
  rcases processStep_cases E blocks hlt with ⟨n,fse,ext,t,hq,ha,hs⟩ | ⟨n,fse,ext,t,hq,ha,hs⟩ | ⟨hq,hs⟩
  · exact Or.inl ⟨by simp [storesChunk,hq,ha],n,fse,ext,t,_,hs⟩
  · exact Or.inr ⟨by simp [storesChunk,hq,ha],t,_,hs⟩
  · exact Or.inr ⟨by simp [storesChunk,hq],_,_,hs⟩

theorem processStep_registered (blocks : List (Option (DedupAnswer H))) (hlt : s.curIdx < chunks.length) :
    s.deduper.dataMng.registeredXorbs <+:
      (processStep E chunks blocks s).deduper.dataMng.registeredXorbs := by
  rcases processStep_split blocks hlt with ⟨-,n,fse,ext,t,m,hs⟩ | ⟨-,t,m,hs⟩
  · rw [hs]
    exact (addEntry_frame (s.retuned t m).deduper fse n).registered
  · rw [hs]
    exact (addNewChunk_frame _ (s.retuned t m)).registered

section
variable (h : DepInv E content store d done chunks s) {m : DeduplicationMetrics} {t : DefragPrevention}
  {s' : ProcessState H S}
include h

theorem DepInv.takeDeduped {n : ℕ} {fse : FileDataSequenceEntry H} {ext : Bool}
    (hs' : s' = takeDeduped E n fse ext (s.retuned t m))
    (hw : WalkInv E content store d done chunks s') :
    DepInv E content store d done chunks s' ∧ missingBytes E s' = missingBytes E s := by
  obtain ⟨-,hs,hd⟩ := h
  obtain ⟨h1,h2,h3,h4⟩ := takeDeduped_bytes n fse ext (s.retuned t m)
  rw [← hs'] at h1 h2 h3 h4
  have hold : walkDepBytes (s.retuned t m) = walkDepBytes s := rfl
  simp only [hold] at h1 h2 h3 h4
  unfold missingBytes
  split_ifs at h2 with hm
  · rw [if_pos hm] at h4
    exact ⟨⟨hw,by omega,by omega⟩,by omega⟩
  · rw [if_neg hm] at h4
    exact ⟨⟨hw,by omega,by omega⟩,by omega⟩

theorem DepInv.addNewChunk (hs' : s' = addNewChunk E chunk (s.retuned t m))
    (hv : Valid E content store s.deduper cs)
    (hst : Stored E.marker store s'.deduper.dataMng.registeredXorbs)
    (hw : WalkInv E content store d done chunks s') :
    DepInv E content store d done chunks s' ∧ missingBytes E s' = missingBytes E s +
      if isFull E s.deduper chunk.data.length then
        markerBytes E.marker s.deduper.fileInfo - s.deduper.newDataSize else 0 := by
  obtain ⟨-,hs,hd⟩ := h
  rw [hs'] at hst
  obtain ⟨h1,h2,h3,h4⟩ := addNewChunk_bytes (s := s.retuned t m) (hv.congr rfl rfl rfl rfl rfl) hst
  rw [← hs'] at h1 h2 h3 h4
  have hold : walkDepBytes (s.retuned t m) = walkDepBytes s := rfl
  have hfu : isFull E (s.retuned t m).deduper chunk.data.length =
    isFull E s.deduper chunk.data.length := rfl
  simp only [hfu] at h1 h2 h3 h4
  unfold missingBytes
  split_ifs at h2 with hf
  · rw [if_pos hf] at h3 h4
    rw [if_pos hf]
    exact ⟨⟨hw,by omega,by omega⟩,by omega⟩
  · rw [if_neg hf] at h3 h4
    rw [if_neg hf]
    exact ⟨⟨hw,by omega,by omega⟩,by omega⟩

end

theorem DepInv.step (hI : SoundInterface E content store)
    (hb : BlocksSound E store (chunks.map (·.hash)) blocks)
    (hg : Genuine content chunks) (h : DepInv E content store d done chunks s)
    (hlt : s.curIdx < chunks.length)
    (hst : Stored E.marker store (processStep E chunks blocks s).deduper.dataMng.registeredXorbs) :
    DepInv E content store d done chunks (processStep E chunks blocks s) ∧
    (cutsShort E chunks blocks s = false →
      missingBytes E (processStep E chunks blocks s) = missingBytes E s) ∧
    (¬cutsShort E chunks blocks s = false →
      missingBytes E s < missingBytes E (processStep E chunks blocks s)) := by
  have hw := h.walk.step hI hb hg hlt
  have hv := h.walk.valid (hst.of_prefix (processStep_registered blocks hlt))
  rcases processStep_split blocks hlt with ⟨hno,n,fse,ext,t,m,hsp⟩ | ⟨hy,t,m,hsp⟩
  · obtain ⟨hin,hm⟩ := h.takeDeduped hsp hw
    have hn : cutsShort E chunks blocks s = false := by simp [cutsShort,hno]
    exact ⟨hin,fun _ => hm,fun hs => absurd hn hs⟩
  · obtain ⟨hin,hm⟩ := h.addNewChunk hsp hv hst hw
    have hs : cutsShort E chunks blocks s = (isFull E s.deduper chunks[s.curIdx].data.length &&
        decide (s.deduper.newDataSize < markerBytes E.marker s.deduper.fileInfo)) := by
      simp [cutsShort,hy,getElem?_eq_getElem hlt]
    refine ⟨hin,?_⟩
    rw [hm,hs]
    cases isFull E s.deduper chunks[s.curIdx].data.length with
    | false => simp
    | true =>
      simp only [Bool.true_and,decide_eq_false_iff_not,↓reduceIte]
      omega

end Walk

section Batches
variable {batches : List (List (Chunk H))} {fileId : ℕ} {s : ProcessState H S}

/-- No round of the walk over the batch cuts a xorb short. -/
def CutsWhole (E : DedupEnv H S) (d : FileDeduper H S) (chunks : List (Chunk H)) : Prop :=
  let q := queryPasses E d (chunks.map (·.hash))
  WhileLoop.Always (fun s : ProcessState H S => s.curIdx < chunks.length)
    (processStep E chunks q.dedupedBlocks)
    (fun s => cutsShort E chunks q.dedupedBlocks s = false) chunks.length (startWalk q)

def NeverCutsShort (E : DedupEnv H S) : FileDeduper H S → List (List (Chunk H)) → Prop
  | _, [] => True
  | d, b :: bs => CutsWhole E d b ∧ NeverCutsShort E (d.processChunks E b).2 bs

instance (d : FileDeduper H S) (chunks : List (Chunk H)) : Decidable (CutsWhole E d chunks) :=
  WhileLoop.Always.decidable _ _ _ _ _

instance NeverCutsShort.decidable :
    ∀ (d : FileDeduper H S) batches, Decidable (NeverCutsShort E d batches)
  | _, [] => inferInstanceAs (Decidable True)
  | d, b :: bs =>
    haveI := NeverCutsShort.decidable (d.processChunks E b).2 bs
    inferInstanceAs (Decidable (CutsWhole E d b ∧ NeverCutsShort E (d.processChunks E b).2 bs))

/-- The entries of closed xorbs that are not covered by a dependency, between two batches. -/
def missing (E : DedupEnv H S) (d : FileDeduper H S) : ℕ :=
  entryBytes d.fileInfo - (markerBytes E.marker d.fileInfo + depBytes d.dataMng.dependencies)

structure FileDepInv (E : DedupEnv H S) (content : H → Bytes) (store : H → List (Chunk H))
    (d : FileDeduper H S) (done : List (Chunk H)) : Prop where
  file : FileInv E content store d done
  size_le : d.newDataSize ≤ markerBytes E.marker d.fileInfo
  deps_le : markerBytes E.marker d.fileInfo + depBytes d.dataMng.dependencies ≤ entryBytes d.fileInfo

theorem fileDepInv_new (state : S) (fileId : ℕ) : FileDepInv E content store (new state fileId) [] :=
  ⟨fileInv_new state fileId,Nat.zero_le _,Nat.zero_le _⟩

theorem processChunks_dependencies (d : FileDeduper H S) (chunks : List (Chunk H)) :
    (d.processChunks E chunks).2.dataMng.dependencies =
      (walked E d chunks).deduper.dataMng.dependencies ++ (walked E d chunks).xorbDependencies := by
  simp only [processChunks]
  split_ifs with he
  · rw [walked,isEmpty_iff.mp he,append_nil]
  · rfl

section
variable (hI : SoundInterface E content store)
include hI

theorem FileDepInv.processChunks (hg : Genuine content chunks) (h : FileDepInv E content store d done)
    (hst : Stored E.marker store (d.processChunks E chunks).2.dataMng.registeredXorbs) :
    FileDepInv E content store (d.processChunks E chunks).2 (done ++ chunks) ∧
    missing E d ≤ missing E (d.processChunks E chunks).2 ∧
    (CutsWhole E d chunks ↔ missing E (d.processChunks E chunks).2 = missing E d) := by
  let q := queryPasses E d (chunks.map (·.hash))
  have hq : QueryInv E store (chunks.map (·.hash)) d q := queryPasses_inv hI d _
  obtain ⟨state,next,hd⟩ := hq.deduper
  have hsr : DepInv E content store d done chunks (startWalk q) := by
    refine ⟨startWalk_inv hI h.file.valid chunks,?_,?_⟩
    · simp only [startWalk,hd]
      exact h.size_le
    · simp only [startWalk,hd]
      exact h.deps_le
  have hz : missingBytes E (startWalk q) = missing E d := by
    simp only [startWalk,hd]
    rfl
  have he := processChunks_registered (E := E) d chunks
  rw [he] at hst
  have hsp : ∀ s : ProcessState H S, decide (s.curIdx < chunks.length) = true →
    DepInv E content store d done chunks s →
      Stored E.marker store (processStep E chunks q.dedupedBlocks
        s).deduper.dataMng.registeredXorbs → _ :=
    fun s hlt hs hr => hs.step hI hq.blocks hg (of_decide_eq_true hlt) hr
  obtain ⟨hin,hle,hif⟩ := WhileLoop.always_iff_counter_of_end
    (R := fun s => Stored E.marker store s.deduper.dataMng.registeredXorbs) (missingBytes E)
    (fun s hlt hr => hr.of_prefix (processStep_registered _ (of_decide_eq_true hlt)))
    (fun s hlt hs hr => (hsp s hlt hs hr).1) (fun s hlt hs hr => (hsp s hlt hs hr).2.1)
    (fun s hlt hs hr => (hsp s hlt hs hr).2.2) hsr hst
  have hde : depBytes (d.processChunks E chunks).2.dataMng.dependencies =
    walkDepBytes (walked E d chunks) := by
    rw [processChunks_dependencies,depBytes_append]
    rfl
  have ha : missing E (d.processChunks E chunks).2 = missingBytes E (walked E d chunks) := by
    rw [missing,hde]
    rfl
  rw [ha,← hz]
  refine ⟨⟨h.file.processChunks hI hg,hin.size_le,?_⟩,hle,hif⟩
  rw [hde]
  exact hin.deps_le

theorem processBatches_keeps_registered (hg : Genuine content batches.flatten)
    (h : FileInv E content store d done) :
    d.dataMng.registeredXorbs <+: (d.processBatches E batches).dataMng.registeredXorbs := by
  induction batches generalizing d done with
  | nil => exact prefix_refl _
  | cons b bs ih =>
    obtain ⟨hb,hbs⟩ := hg.of_cons
    refine IsPrefix.trans ?_ (ih hbs (h.processChunks hI hb))
    rw [processChunks_registered]
    exact (walked_inv hI hb h.valid).1.frame.registered

theorem FileDepInv.processBatches (hg : Genuine content batches.flatten)
    (h : FileDepInv E content store d done)
    (hst : Stored E.marker store (d.processBatches E batches).dataMng.registeredXorbs) :
    FileDepInv E content store (d.processBatches E batches) (done ++ batches.flatten) ∧
    missing E d ≤ missing E (d.processBatches E batches) ∧
    (NeverCutsShort E d batches ↔ missing E (d.processBatches E batches) = missing E d) := by
  induction batches generalizing d done with
  | nil => simpa [FileDeduper.processBatches,NeverCutsShort] using h
  | cons b bs ih =>
    obtain ⟨hb,hbs⟩ := hg.of_cons
    simp only [FileDeduper.processBatches,foldl_cons] at hst ⊢
    have hf := hst.of_prefix (processBatches_keeps_registered hI hbs (h.file.processChunks hI hb))
    obtain ⟨hin,hle,hif⟩ := h.processChunks hI hb hf
    obtain ⟨hin',hle',hif'⟩ := ih hbs hin hst
    simp only [FileDeduper.processBatches] at hin' hle' hif'
    rw [NeverCutsShort,hif,hif',flatten_cons,← append_assoc]
    exact ⟨hin',hle.trans hle',⟨fun hc => by omega,fun hc => by omega⟩⟩

/-- What the dependencies and the entries of the open xorb leave out of a file. -/
theorem depBytes_add_missing (state : S) (fileId : ℕ) (hg : Genuine content batches.flatten)
    (hst : Stored E.marker store ((new state fileId).processBatches E batches).dataMng.registeredXorbs) :
    let d := (new state fileId).processBatches E batches
    depBytes d.dataMng.dependencies + markerBytes E.marker d.fileInfo + missing E d =
      byteCount batches.flatten ∧
    (NeverCutsShort E (new state fileId) batches ↔ missing E d = 0) := by
  intro d
  obtain ⟨hin,-,hif⟩ := (fileDepInv_new state fileId).processBatches hI hg hst
  have hs : entryBytes d.fileInfo = byteCount batches.flatten := (hin.file.valid hst).denotes.bytes_sum
  have hle : markerBytes E.marker d.fileInfo + depBytes d.dataMng.dependencies ≤
    entryBytes d.fileInfo := hin.deps_le
  refine ⟨?_,hif⟩
  rw [missing]
  omega

end

structure OwnDeps (fileId : ℕ) (s : ProcessState H S) : Prop where
  id : s.deduper.fileId = fileId
  registered : ∀ dep ∈ s.deduper.dataMng.dependencies, dep.fileId = fileId
  batch : ∀ dep ∈ s.xorbDependencies, dep.fileId = fileId

omit [DecidableEq H] in
theorem OwnDeps.cutIfFull (h : OwnDeps fileId s) (n : ℕ) : OwnDeps fileId (cutIfFull E n s) := by
  obtain ⟨hid,hr,hb⟩ := h
  unfold FileDeduper.cutIfFull
  simp only
  split
  · exact ⟨hid,hr,List.forall_mem_append.mpr ⟨hb,by simp [hid]⟩⟩
  · exact ⟨hid,hr,hb⟩

theorem OwnDeps.step (h : OwnDeps fileId s) (blocks : List (Option (DedupAnswer H)))
    (hlt : s.curIdx < chunks.length) : OwnDeps fileId (processStep E chunks blocks s) := by
  rcases processStep_split blocks hlt with ⟨-,n,fse,ext,t,m,hs⟩ | ⟨-,t,m,hs⟩
  · obtain ⟨es,refs,t',ha⟩ := addEntry_eq (s.retuned t m).deduper fse n
    rw [hs,takeDeduped,ha]
    refine ⟨h.id,h.registered,?_⟩
    split
    · exact h.batch
    · exact forall_mem_append.mpr ⟨h.batch,by simp [h.id]⟩
  · have ho : OwnDeps fileId (s.retuned t (countNew m chunks[s.curIdx].data.length)) := { h with }
    have hc := ho.cutIfFull (E := E) chunks[s.curIdx].data.length
    rw [hs]
    simp only [addNewChunk,extendNewData_eq]
    obtain ⟨es,refs,t',ha⟩ := addEntry_eq (FileDeduper.cutIfFull E chunks[s.curIdx].data.length
      (s.retuned t (countNew m chunks[s.curIdx].data.length))).deduper _ 1
    rw [ha]
    exact { hc with }

theorem processBatches_owner (hI : SoundInterface E content store) (batches : List (List (Chunk H)))
    (hid : d.fileId = fileId) (hde : ∀ dep ∈ d.dataMng.dependencies, dep.fileId = fileId) :
    (d.processBatches E batches).fileId = fileId ∧
    ∀ dep ∈ (d.processBatches E batches).dataMng.dependencies, dep.fileId = fileId := by
  induction batches generalizing d with
  | nil => exact ⟨hid,hde⟩
  | cons b bs ih =>
    obtain ⟨state,next,hd⟩ := (queryPasses_inv hI d (b.map (·.hash))).deduper
    have hst : OwnDeps fileId (startWalk (queryPasses E d (b.map (·.hash)))) := by
      refine ⟨?_,?_,by simp [startWalk]⟩ <;> simpa only [startWalk,hd]
    have hr : OwnDeps fileId (walked E d b) :=
      WhileLoop.run_invariant (fun s hlt hs => hs.step _ (of_decide_eq_true hlt)) hst
    refine ih hr.id ?_
    rw [processChunks_dependencies]
    exact forall_mem_append.mpr ⟨hr.registered,hr.batch⟩

end Batches
end FileDeduper
end XetCore.Dedup
