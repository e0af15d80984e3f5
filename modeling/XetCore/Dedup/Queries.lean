import XetCore.Dedup.Invariant

/-! # Answers to dedup queries

An answer covers the first of the chunks that were asked for. For the new data this
follows from the hash lookup; the query passes leave the file state alone and collect
answers that cover the chunks from their positions on.
-/
namespace XetCore.Dedup.FileDeduper
open Merkle Chunking Extents List

variable {H S : Type} {E : DedupEnv H S} {content : H → Bytes} {store : H → List (Chunk H)} {up : Bool}
variable {d : FileDeduper H S}

section LocalQuery
variable [DecidableEq H]
variable {fse : FileDataSequenceEntry H} {hs : List H}

theorem localMatchLoop_spec (baseIdx i : ℕ) (hs : List H) (nBytes : ℕ) :
    ∃ k ≤ hs.length, (localMatchLoop d baseIdx i hs (baseIdx + i,nBytes)).1 = baseIdx + i + k ∧
      ((∀ h i, d.newDataHashLookup.lookup h = some i → d.newData[i]?.map (·.hash) = some h) →
        baseIdx + i ≤ d.newData.length →
        baseIdx + i + k ≤ d.newData.length ∧
        (localMatchLoop d baseIdx i hs (baseIdx + i,nBytes)).2 =
          nBytes + byteCount (slice d.newData (baseIdx + i) (baseIdx + i + k)) ∧
        (slice d.newData (baseIdx + i) (baseIdx + i + k)).map (·.hash) = hs.take k) := by
  induction hs generalizing i nBytes with
  | nil => exact ⟨0,le_rfl,rfl,fun _ hl => ⟨hl,by simp [localMatchLoop,byteCount],by simp⟩⟩
  | cons h hs ih =>
    have hst : ∃ k ≤ (h :: hs).length, (baseIdx + i,nBytes).1 = baseIdx + i + k ∧
        ((∀ h i, d.newDataHashLookup.lookup h = some i → d.newData[i]?.map (·.hash) = some h) →
          baseIdx + i ≤ d.newData.length →
          baseIdx + i + k ≤ d.newData.length ∧
          (baseIdx + i,nBytes).2 = nBytes + byteCount (slice d.newData (baseIdx + i) (baseIdx + i + k)) ∧
          (slice d.newData (baseIdx + i) (baseIdx + i + k)).map (·.hash) = (h :: hs).take k) :=
      ⟨0,by simp,rfl,fun _ hl => ⟨hl,by simp [byteCount],by simp⟩⟩
    unfold localMatchLoop
    cases hlo : d.newDataHashLookup.lookup h with
    | none => exact hst
    | some idx =>
      by_cases hid : idx = baseIdx + i
      · subst hid
        simp only [↓reduceIte]
        obtain ⟨k,hk,he,hsc⟩ := ih (i + 1) (nBytes + (d.newData[baseIdx + i]?.map (·.data.length)).getD 0)
        refine ⟨k + 1,by simpa using hk,?_,?_⟩
        · rw [show baseIdx + i + 1 = baseIdx + (i + 1) by omega,he]
          omega
        · intro hl hle
          have hcu := hl h _ hlo
          obtain ⟨c,hc,hch⟩ := Option.map_eq_some_iff.mp hcu
          have hlt : baseIdx + i < d.newData.length := (List.getElem?_eq_some_iff.mp hc).1
          obtain ⟨h1,h2,h3⟩ := hsc hl (by omega)
          have ho : slice d.newData (baseIdx + i) (baseIdx + i + 1) = [c] := by
            rw [slice_succ hlt,(List.getElem?_eq_some_iff.mp hc).2]
          have hsp : slice d.newData (baseIdx + i) (baseIdx + i + (k + 1)) =
              c :: slice d.newData (baseIdx + (i + 1)) (baseIdx + (i + 1) + k) := by
            rw [← slice_append_slice d.newData (show baseIdx + i ≤ baseIdx + i + 1 by omega)
              (show baseIdx + i + 1 ≤ baseIdx + i + (k + 1) by omega),ho,singleton_append,
              show baseIdx + i + (k + 1) = baseIdx + (i + 1) + k by omega,Nat.add_assoc baseIdx i 1]
          refine ⟨by omega,?_,?_⟩
          · rw [show baseIdx + i + 1 = baseIdx + (i + 1) by omega,h2,hsp,hc]
            simp only [Option.map_some,Option.getD_some,byteCount,map_cons,sum_cons]
            omega
          · rw [hsp,map_cons,h3,hch,take_succ_cons]
      · simp only [hid]
        exact hst

theorem dedupQueryAgainstLocalData_count {n : ℕ}
    (h : d.dedupQueryAgainstLocalData E hs = some (n,fse,up)) : 0 < n ∧ n ≤ hs.length := by
  cases hs with
  | nil => simp [dedupQueryAgainstLocalData] at h
  | cons x hs =>
    simp only [dedupQueryAgainstLocalData] at h
    split at h
    · simp at h
    · rename_i baseIdx _
      obtain ⟨k,hk,he,-⟩ := localMatchLoop_spec (d := d) baseIdx 1 hs
        ((d.newData[baseIdx]?.map (·.data.length)).getD 0)
      simp only [Option.some.injEq,Prod.mk.injEq] at h
      simp only [length_cons]
      omega

theorem Valid.local_covers {cs : List (Chunk H)} (hv : Valid E content store d cs) {n : ℕ}
    (h : d.dedupQueryAgainstLocalData E hs = some (n,fse,up)) :
    Covers (d.source E store) hs n fse := by
  cases hs with
  | nil => simp [dedupQueryAgainstLocalData] at h
  | cons x hs =>
    simp only [dedupQueryAgainstLocalData] at h
    split at h
    · simp at h
    · rename_i baseIdx hl
      obtain ⟨c,hc,hch⟩ := Option.map_eq_some_iff.mp (hv.lookup x baseIdx hl)
      obtain ⟨hlt,hg⟩ := List.getElem?_eq_some_iff.mp hc
      rw [hc] at h
      obtain ⟨k,hk,he,hsp⟩ := localMatchLoop_spec baseIdx 1 hs c.data.length
      obtain ⟨h1,h2,h3⟩ := hsp hv.lookup (by omega)
      simp only [Option.map_some,Option.getD_some,Option.some.injEq,Prod.mk.injEq] at h
      obtain ⟨hn,hf,-⟩ := h
      rw [he] at hn hf
      rw [h2] at hf
      subst hf
      have hr : slice d.newData baseIdx (baseIdx + 1 + k) = c :: slice d.newData (baseIdx + 1)
        (baseIdx + 1 + k) := by
        rw [← slice_append_slice d.newData (show baseIdx ≤ baseIdx + 1 by omega)
          (show baseIdx + 1 ≤ baseIdx + 1 + k by omega),slice_succ hlt,hg]
        rfl
      have hsr : d.source E store E.marker = d.newData := by simp [source]
      refine ⟨by omega,⟨⟨?_,?_⟩,?_⟩,?_,?_⟩
      · simp only [FileDataSequenceEntry.extent]
        omega
      · simpa only [FileDataSequenceEntry.extent,hsr] using h1
      · simp [FileDataSequenceEntry.read,FileDataSequenceEntry.extent,Extent.read,hsr,hr,
          byteCount,map_cons]
      · simp only
        omega
      · simp only [FileDataSequenceEntry.read,FileDataSequenceEntry.extent,Extent.read,hsr,hr,
          map_cons,h3,hch]
        rw [show n = k + 1 by omega,take_succ_cons]

end LocalQuery

section Query

/-- The answers cover the chunks from their positions on, in stored xorbs. -/
def BlocksSound (E : DedupEnv H S) (store : H → List (Chunk H)) (hashes : List H)
    (blocks : List (Option (DedupAnswer H))) : Prop :=
  ∀ i n fse up, blocks[i]?.join = some (n,fse,up) → fse.xorbHash ≠ E.marker ∧
    Covers store (hashes.drop i) n fse

/-- The query passes change the interface and the answers, and count global answers. -/
structure QueryInv (E : DedupEnv H S) (store : H → List (Chunk H)) (hashes : List H) (d : FileDeduper H S)
    (s : QueryState H S) : Prop where
  deduper : ∃ state next, s.deduper =
    { d with dataMng := { d.dataMng with state :=
      state }, nextChunkIndexEligibleForGlobalDedupQuery := next }
  metrics : ∃ c b, s.dedupMetrics = { dedupedChunksByGlobalDedup := c, dedupedBytesByGlobalDedup := b }
  blocks : BlocksSound E store hashes s.dedupedBlocks

variable {hashes : List H}
variable {s : QueryState H S}

theorem QueryInv.setState (h : QueryInv E store hashes d s) (state : S) : QueryInv E store hashes d
      { s with deduper := { s.deduper with dataMng := { s.deduper.dataMng with state := state } } } := by
  obtain ⟨st,next,hd⟩ := h.deduper
  exact ⟨⟨state,next,by rw [hd]⟩,h.metrics,h.blocks⟩

theorem BlocksSound.set {blocks : List (Option (DedupAnswer H))}
    (h : BlocksSound E store hashes blocks) {i n : ℕ}
    {fse : FileDataSequenceEntry H} (hm : fse.xorbHash ≠ E.marker)
    (hc : Covers store (hashes.drop i) n fse) :
    BlocksSound E store hashes (blocks.set i (some (n,fse,up))) := by
  intro j n' fse' up' hj
  by_cases hij : i = j
  · subst hij
    by_cases hlt : i < blocks.length
    · simp only [getElem?_set_self hlt] at hj
      obtain ⟨rfl,rfl,-⟩ := hj
      exact ⟨hm,hc⟩
    · rw [getElem?_eq_none (by simpa using hlt)] at hj
      simp at hj
  · rw [getElem?_set_ne hij] at hj
    exact h j n' fse' up' hj

section
variable (hI : SoundInterface E content store)
include hI

theorem QueryInv.step (h : QueryInv E store hashes d s)
    (firstPass : Bool) (start : ℕ) : QueryInv E store hashes d
      (queryStep E firstPass start hashes s) := by
  unfold queryStep
  simp only
  split
  · exact { h with }
  · have hs := h.setState
      (E.interface.chunkHashDedupQuery s.deduper.dataMng.state (hashes.drop s.localChunkIndex)).2
    split
    · rename_i n fse up hq
      obtain ⟨hm,hc⟩ := hI.query hq
      obtain ⟨c,b,hme⟩ := h.metrics
      refine ⟨hs.deduper,?_,h.blocks.set hm hc⟩
      cases firstPass with
      | true => exact ⟨c,b,hme⟩
      | false => exact ⟨_,_,by simp only [hme]; rfl⟩
    · refine ⟨?_,h.metrics,h.blocks⟩
      obtain ⟨st,next,hd⟩ := h.deduper
      split
      · exact ⟨_,_,by rw [hd]⟩
      · exact hs.deduper

theorem QueryInv.pass (h : QueryInv E store hashes d s)
    (firstPass : Bool) (start : ℕ) : QueryInv E store hashes d
      (queryPass E firstPass start hashes s).2 := by
  have h0 : QueryInv E store hashes d { s with localChunkIndex := 0 } := { h with }
  have hr : QueryInv E store hashes d
      (WhileLoop.run (fun s : QueryState H S => s.localChunkIndex < hashes.length)
        (queryStep E firstPass start hashes) hashes.length { s with localChunkIndex := 0 }) :=
    WhileLoop.run_invariant (fun s _ hs => hs.step hI firstPass start) h0
  exact hr.setState _

theorem queryPasses_inv (d : FileDeduper H S) (hashes : List H) :
    QueryInv E store hashes d (queryPasses E d hashes) := by
  have h0 : QueryInv E store hashes d ⟨d,{},List.replicate hashes.length none,0⟩ := by
    refine ⟨⟨d.dataMng.state,d.nextChunkIndexEligibleForGlobalDedupQuery,rfl⟩,⟨0,0,rfl⟩,?_⟩
    intro i n fse up hi
    rw [getElem?_replicate] at hi
    split at hi <;> simp at hi
  have h1 := h0.pass hI true d.chunkHashes.length
  unfold queryPasses
  simp only
  split
  · exact h1.pass hI false _
  · exact h1

end

end Query

end XetCore.Dedup.FileDeduper
