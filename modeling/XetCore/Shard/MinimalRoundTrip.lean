import XetCore.Shard.ReadBack
import XetCore.Shard.MinimalWriter

/-! # A minimal shard is read back

What a minimal shard writes is a shard of the same files, without their verification if it
is dropped, and of the same xorbs, in which the starting chunks of files are flagged. The
flags make up for the files where these are left out.
-/
namespace XetCore.Shard
open ByteSources Serialization MDBMinimalShard List
open Merkle (DataHash)

variable {fs : List MDBFileInfo}

section Flags
open XorbChunkSequenceEntry

theorem flags_or_and (a b : UInt32) : (a ||| b) &&& b = b := by
  refine UInt32.eq_of_toBitVec_eq (BitVec.eq_of_getLsbD_eq fun i _ => ?_)
  simpa using fun h => Or.inr h

theorem flags_or_andNot (a b : UInt32) : (a ||| b) &&& ~~~b = a &&& ~~~b := by
  refine UInt32.eq_of_toBitVec_eq (BitVec.eq_of_getLsbD_eq fun i hi => ?_)
  simp only [UInt32.toBitVec_and,UInt32.toBitVec_or,UInt32.toBitVec_not,BitVec.getLsbD_and,
    BitVec.getLsbD_or,BitVec.getLsbD_not]
  cases a.toBitVec.getLsbD i <;> cases b.toBitVec.getLsbD i <;> simp

/-- The same chunk, whatever its flag for global deduplication says. -/
def SameUpToFlag (c c' : XorbChunkSequenceEntry) : Prop :=
  c.withGlobalDedupFlag false = c'.withGlobalDedupFlag false

variable (indices : List ℕ) (idx : ℕ) (c : XorbChunkSequenceEntry)

theorem rewriteChunk_same : SameUpToFlag (rewriteChunk indices idx c) c := by
  unfold SameUpToFlag rewriteChunk
  split
  · simp [withGlobalDedupFlag,flags_or_andNot]
  · rfl

@[simp] theorem rewriteChunk_hash : (rewriteChunk indices idx c).chunkHash = c.chunkHash := by
  unfold rewriteChunk
  split <;> rfl

theorem rewriteChunk_eligible : (rewriteChunk indices idx c).isGlobalDedupEligible = true ↔
    idx ∈ indices ∨ c.isGlobalDedupEligible = true := by
  unfold rewriteChunk
  split_ifs with hmem
  · have hf : (c.flags ||| mdbChunkWithGlobalDedupFlag) &&& mdbChunkWithGlobalDedupFlag ≠ 0 := by
      rw [flags_or_and]
      decide
    simp [withGlobalDedupFlag,isGlobalDedupEligible,hf,hmem]
  · simp [hmem]

end Flags

section Written
variable {f : MDBFileInfo} {x : MDBXorbInfo}

/-- The record as it is written: without its verification if that is dropped. -/
def MDBFileInfo.written (withVerification : Bool) (f : MDBFileInfo) : MDBFileInfo :=
  if !withVerification && f.containsVerification then
    { metadata := {
        fileHash := f.metadata.fileHash
        fileFlags := FileDataSequenceHeader.flagsOf false f.containsMetadataExt
        numEntries := f.metadata.numEntries }
      segments := f.segments
      verification := []
      metadataExt := f.metadataExt }
  else f

/-- The record with the flag on the chunks at these indices. -/
def MDBXorbInfo.flaggedAt (indices : List ℕ) (x : MDBXorbInfo) : MDBXorbInfo :=
  { x with chunks := x.chunks.mapIdx (rewriteChunk indices) }

theorem MDBXorbInfo.flaggedAt_nil (x : MDBXorbInfo) : x.flaggedAt [] = x := by
  have hid : x.chunks.mapIdx (rewriteChunk []) = x.chunks := by
    refine ext_getElem? fun i => ?_
    rw [getElem?_mapIdx]
    cases x.chunks[i]? with
    | none => rfl
    | some c => exact congrArg some (if_neg not_mem_nil)
  rw [flaggedAt,hid]

theorem MDBXorbInfo.WellFormed.flaggedAt (h : x.WellFormed) (indices : List ℕ) :
    (x.flaggedAt indices).WellFormed :=
  ⟨by rw [MDBXorbInfo.flaggedAt,length_mapIdx]; exact h.numEntries_eq,h.not_bookend⟩

theorem MDBFileInfo.WellFormed.written (h : f.WellFormed) (withVerification : Bool) :
    (f.written withVerification).WellFormed := by
  unfold MDBFileInfo.written
  split
  · refine ⟨h.numEntries_eq,?_,?_,h.not_bookend⟩
    · rw [MDBFileInfo.containsVerification,containsVerification_flagsOf]
      rfl
    · exact h.metadataExt_isSome.trans (containsMetadataExt_flagsOf false f.containsMetadataExt _ _).symm
  · exact h

theorem MDBFileInfo.WellFormed.slice_ext (h : f.WellFormed) (he : f.containsMetadataExt = true) :
    sliceFrom f.serialize (f.serialize.length - mdbFileInfoEntrySize) =
      .ok (f.metadataExt.elim [] FileMetadataExt.serialize) := by
  have hs := h.metadataExt_isSome
  rw [he] at hs
  obtain ⟨m,hm⟩ := Option.isSome_iff_exists.mp hs
  obtain ⟨front,hd⟩ := MDBFileInfo.WellFormed.exists_front_ext hm
  have hst : (front ++ m.serialize).length - mdbFileInfoEntrySize = front.length := by
    rw [length_append,m.length_serialize,Nat.add_sub_cancel]
  rw [hd,hst,sliceFrom,if_pos (by simp),drop_left,hm]
  rfl

theorem MDBFileInfo.WellFormed.slice_segments (h : f.WellFormed) :
    sliceRange f.serialize mdbFileInfoEntrySize
      ((1 + f.metadata.numEntries.toNat) * mdbFileInfoEntrySize) =
      .ok (f.segments.flatMap FileDataSequenceEntry.serialize) := by
  have hlen : (f.metadata.serialize ++ f.segments.flatMap FileDataSequenceEntry.serialize).length =
      (1 + f.metadata.numEntries.toNat) * 48 := by
    rw [length_append,FileDataSequenceHeader.length_serialize,
      length_flatMap_eq FileDataSequenceEntry.length_serialize,h.numEntries_eq]
    ring
  rw [MDBFileInfo.serialize,← append_assoc,sliceRange,← hlen,if_pos ⟨by simp,by simp⟩,take_left]
  exact congrArg Except.ok (drop_left' f.metadata.length_serialize)

theorem serialize_fileView (h : f.WellFormed) {withVerification : Bool}
    (hve : withVerification = true → f.containsVerification = true) :
    h.view.serialize withVerification = .ok (f.written withVerification).serialize := by
  have hfl : h.view.containsVerification = f.containsVerification := rfl
  have hnu : tryIntoU32 f.metadata.numEntries.toNat = .ok f.metadata.numEntries := by
    rw [tryIntoU32_of_lt f.metadata.numEntries.toNat_lt,UInt32.ofNat_toNat]
  rw [MDBFileInfoView.serialize,hfl,MDBFileInfo.written]
  cases withVerification with
  | true =>
    rw [hve rfl]
    rfl
  | false =>
    cases hv : f.containsVerification with
    | false => rfl
    | true =>
      have hne : FileDataSequenceHeader.new h.view.fileHash h.view.numEntries false
        h.view.containsMetadataExt = .ok {
          fileHash := f.metadata.fileHash
          fileFlags := FileDataSequenceHeader.flagsOf false f.containsMetadataExt
          numEntries := f.metadata.numEntries } := by
        change (tryIntoU32 f.metadata.numEntries.toNat >>= _) = _
        rw [hnu]
        rfl
      have hs : sliceRange h.view.data mdbFileInfoEntrySize
        ((1 + h.view.numEntries) * mdbFileInfoEntrySize) =
          .ok (f.segments.flatMap FileDataSequenceEntry.serialize) := h.slice_segments
      have hf := containsVerification_flagsOf false f.containsMetadataExt f.metadata.fileHash
        f.metadata.numEntries
      change h.view.serializeSansVerification = _
      rw [MDBFileInfoView.serializeSansVerification,hne,ok_bind,hs,ok_bind]
      simp only [Bool.not_false,Bool.and_self,if_true,MDBFileInfo.serialize,
        MDBFileInfo.containsVerification,hf]
      cases he : h.view.containsMetadataExt with
      | true =>
        have hsl : sliceFrom h.view.data (h.view.data.length - mdbFileInfoEntrySize) =
            .ok (f.metadataExt.elim [] FileMetadataExt.serialize) := h.slice_ext he
        rw [if_pos rfl,hsl]
        rfl
      | false =>
        have hn : f.metadataExt = none := by
          rw [← Option.not_isSome_iff_eq_none,h.metadataExt_isSome]
          exact ne_true_of_eq_false he
        rw [hn,Option.elim_none,append_nil,if_neg Bool.false_ne_true,if_neg Bool.false_ne_true,append_nil]
        rfl

theorem serializeXorb_view (h : x.WellFormed) (starts : MerkleMap (List ℕ)) :
    serializeXorb starts h.view =
      .ok (x.flaggedAt ((starts[x.metadata.xorbHash]?).getD [])).serialize := by
  have hh : h.view.xorbHash = x.metadata.xorbHash := rfl
  rw [serializeXorb,hh]
  cases starts[x.metadata.xorbHash]? with
  | none =>
    rw [Option.getD_none,x.flaggedAt_nil]
    have hs : h.view.byteSize = x.serialize.length := by
      rw [x.length_serialize,MDBXorbInfoView.byteSize,h.numEntries_view]
      ring
    change sliceRange x.serialize 0 h.view.byteSize = _
    rw [hs,sliceRange,if_pos ⟨Nat.zero_le _,Nat.le_refl _⟩,take_length,drop_zero]
  | some indices =>
    have hc : (List.range h.view.numEntries).mapM (fun idx => do
        let chunk ← h.view.chunk idx
        return (rewriteChunk indices idx chunk).serialize) =
          .ok ((x.flaggedAt indices).chunks.map XorbChunkSequenceEntry.serialize) := by
      have hlen : ((x.flaggedAt indices).chunks.map XorbChunkSequenceEntry.serialize).length =
        x.chunks.length := by
        rw [length_map,MDBXorbInfo.flaggedAt,length_mapIdx]
      refine mapM_range (by rw [hlen,h.numEntries_view]) fun i hi => ?_
      rw [hlen] at hi
      rw [h.chunk_view hi,getElem_map]
      simp only [MDBXorbInfo.flaggedAt,getElem_mapIdx]
      rfl
    change h.view.serializeWithChunkRewrite (rewriteChunk indices) = _
    rw [MDBXorbInfoView.serializeWithChunkRewrite,hc,ok_bind,← flatMap_def]
    rfl

theorem mapM_pmap {α β γ : Type} {P : α → Prop} {view : ∀ a, P a → β} {f : β → Result γ} {g : α → γ}
    {l : List α} (hP : ∀ a ∈ l, P a) (hf : ∀ a ∈ l, ∀ ha : P a, f (view a ha) = .ok (g a)) :
    (l.pmap view hP).mapM f = .ok (l.map g) := by
  induction l with
  | nil => rfl
  | cons a l ih =>
    obtain ⟨ha,hl⟩ := forall_mem_cons.mp hP
    obtain ⟨hfa,hfl⟩ := forall_mem_cons.mp hf
    rw [pmap_cons,mapM_cons,hfa ha,ok_bind,ih hl hfl]
    rfl

end Written

def startIndices (fs : List MDBFileInfo) (hash : DataHash) : List ℕ :=
  fs.filterMap fun f => f.segments.head?.bind fun e =>
    if e.xorbHash = hash then some e.chunkIndexStart.toNat else none

theorem addFileStart_view {f : MDBFileInfo} (h : f.WellFormed) (starts : MerkleMap (List ℕ)) :
    ∃ starts', addFileStart starts h.view = .ok starts' ∧
      ∀ hash, (starts'[hash]?).getD [] = (starts[hash]?).getD [] ++ startIndices [f] hash := by
  have hn := h.numEntries_view
  cases hs : f.segments with
  | nil =>
    rw [hs] at hn
    refine ⟨starts,by rw [addFileStart,hn]; rfl,fun hash => ?_⟩
    simp [startIndices,hs]
  | cons e es =>
    have he : h.view.entry 0 = .ok e := by
      have hg := h.entry_view (by rw [hs]; exact Nat.succ_pos _)
      rw [hg]
      simp [hs]
    refine ⟨_,by
      rw [addFileStart,hn,hs,if_pos (length_pos_of_ne_nil (cons_ne_nil e es)),he]
      rfl,
      fun hash => ?_⟩
    rw [Std.ExtTreeMap.getElem?_insert,Std.ExtTreeMap.getD_eq_getD_getElem?]
    by_cases heq : e.xorbHash = hash
    · subst heq
      simp [startIndices,hs]
    · simp [startIndices,hs,heq]

theorem foldlM_addFileStart (h : ∀ f ∈ fs, f.WellFormed) (starts : MerkleMap (List ℕ)) :
    ∃ starts', (fileViews fs h).foldlM addFileStart starts = .ok starts' ∧
      ∀ hash, (starts'[hash]?).getD [] = (starts[hash]?).getD [] ++ startIndices fs hash := by
  induction fs generalizing starts with
  | nil => exact ⟨starts,rfl,fun hash => (append_nil _).symm⟩
  | cons f fs ih =>
    obtain ⟨hf,hfs⟩ := forall_mem_cons.mp h
    obtain ⟨starts₁,hfi,ha⟩ := addFileStart_view hf starts
    obtain ⟨starts',hr,hal⟩ := ih hfs starts₁
    refine ⟨starts',?_,fun hash => ?_⟩
    · change (hf.view :: fileViews fs hfs).foldlM _ starts = _
      rw [foldlM_cons,hfi,ok_bind,hr]
    · rw [hal,ha,append_assoc,startIndices,startIndices,← filterMap_append,singleton_append]
      rfl

theorem fileStartEntries_views (h : ∀ f ∈ fs, f.WellFormed) (xorbs : List MDBXorbInfoView) :
    ∃ starts, (MDBMinimalShard.mk (fileViews fs h) xorbs).fileStartEntries = .ok starts ∧
      ∀ hash i, i ∈ (starts[hash]?).getD [] ↔ i ∈ startIndices fs hash := by
  obtain ⟨starts,hf,hs⟩ := foldlM_addFileStart h ∅
  refine ⟨_,by rw [fileStartEntries,hf]; rfl,fun hash i => ?_⟩
  have hg := hs hash
  rw [Std.ExtTreeMap.getElem?_empty,Option.getD_none,nil_append] at hg
  rw [Std.ExtTreeMap.getElem?_map,← hg]
  cases starts[hash]? with
  | none => rfl
  | some indices => simp

section Bytes

/-- The bytes of a shard without lookup tables, up to its footer. -/
def sectionBytes (fs : List MDBFileInfo) (xs : List MDBXorbInfo) : Bytes :=
  ({} : MDBShardFileHeader).serialize ++
    ((fs.flatMap MDBFileInfo.serialize ++ FileDataSequenceHeader.bookend.serialize) ++
      (xs.flatMap MDBXorbInfo.serialize ++ XorbChunkSequenceHeader.bookend.serialize))

theorem writeSections_ok {fs : List MDBFileInfo} {xs : List MDBXorbInfo}
    (hlen : (sectionBytes fs xs).length + mdbShardFooterSize < 2 ^ 64) (footer : MDBShardFileFooter) :
    ∃ metadata : MDBShardFileFooter, writeSections (fs.map MDBFileInfo.serialize).flatten
      (xs.map MDBXorbInfo.serialize).flatten footer = .ok (sectionBytes fs xs ++ metadata.serialize) := by
  rw [← flatMap_def,← flatMap_def,writeSections]
  dsimp only
  have hb : ∀ metadata : MDBShardFileFooter, MDBShardInfo.bytesWith { metadata } {
      fileSection := fs.flatMap MDBFileInfo.serialize ++ FileDataSequenceHeader.bookend.serialize
      xorbSection := xs.flatMap MDBXorbInfo.serialize ++ XorbChunkSequenceHeader.bookend.serialize
      fileLookup := []
      xorbLookup := []
      chunkLookup := [] } = sectionBytes fs xs ++ metadata.serialize := fun metadata => by
    simp [MDBShardInfo.bytesWith,ShardParts.body,sectionBytes,writeLookup,writeChunkLookup]
  rw [ShardParts.offsets_eq_ok.mpr ⟨rfl,?_⟩,ok_bind,hb,ensure,if_pos,ok_bind]
  · exact ⟨_,rfl⟩
  · rwa [length_append,MDBShardFileFooter.length_serialize]
  · rw [sectionBytes,length_append,MDBShardFileHeader.length_serialize] at hlen
    rw [ShardParts.length_body]
    simp only [length_append,length_nil] at hlen ⊢
    omega

structure TotalsFit (files : List MDBFileInfoView) (xorbs : List MDBXorbInfoView) : Prop where
  materialized : ∃ sizes, files.mapM materializedBytesOf = .ok sizes ∧ sizes.sum < 2 ^ 64
  onDisk : (xorbs.map fun x => x.header.numBytesOnDisk.toNat).sum < 2 ^ 64
  stored : (xorbs.map fun x => x.header.numBytesInXorb.toNat).sum < 2 ^ 64

variable {m : MDBMinimalShard} {ks : List MDBXorbInfo} {hfs : ∀ f ∈ fs, f.WellFormed}
  {hks : ∀ x ∈ ks, x.WellFormed} {withFileSection withVerification : Bool}
    {xorbFilter : MDBXorbInfoView → Bool}

/-- What is written, if its totals and its length fit. -/
theorem serializeImpl_ok (hfi : m.fileInfoViews = fileViews fs hfs)
    (hk : m.xorbInfoViews.filter xorbFilter = xorbViews ks hks)
    (hv : withFileSection = true → withVerification = true → ∀ f ∈ fs, f.containsVerification = true)
    (ht : TotalsFit (if withFileSection then m.fileInfoViews else []) (m.xorbInfoViews.filter xorbFilter))
    (expiry : Option UInt64) (now : UInt64) :
    ∃ starts : DataHash → List ℕ, (∀ hash i, i ∈ starts hash ↔ i ∈ startIndices fs hash) ∧
      let out := sectionBytes ((if withFileSection then fs else []).map
        (MDBFileInfo.written withVerification))
        (ks.map fun x => x.flaggedAt (starts x.metadata.xorbHash))
      (out.length + mdbShardFooterSize < 2 ^ 64 → ∃ metadata : MDBShardFileFooter,
        m.serializeImpl withFileSection withVerification expiry now xorbFilter =
          .ok (out ++ metadata.serialize)) := by
  obtain ⟨starts,hs,hmem⟩ := fileStartEntries_views hfs m.xorbInfoViews
  rw [← hfi] at hs
  refine ⟨fun hash => (starts[hash]?).getD [],hmem,fun hlen => ?_⟩
  obtain ⟨⟨sizes,hsi,hsu⟩,hd,hst⟩ := ht
  have hwr : (if withFileSection then m.fileInfoViews else []).mapM
    (fun v => v.serialize withVerification) =
      .ok (((if withFileSection then fs else []).map (MDBFileInfo.written withVerification)).map
        MDBFileInfo.serialize) := by
    cases withFileSection with
    | true =>
      rw [if_pos rfl,if_pos rfl,hfi,map_map]
      exact mapM_pmap hfs fun f hf h => serialize_fileView h fun hw => hv rfl hw f hf
    | false => rfl
  have hx : (m.xorbInfoViews.filter xorbFilter).mapM (serializeXorb starts) =
      .ok ((ks.map fun x => x.flaggedAt ((starts[x.metadata.xorbHash]?).getD [])).map
        MDBXorbInfo.serialize) := by
    rw [hk,map_map]
    exact mapM_pmap hks fun x _ h => serializeXorb_view h starts
  rw [serializeImpl,hs,ok_bind]
  dsimp only
  rw [hsi,ok_bind,MDBInMemoryShard.sumU64_eq_ok.mpr ⟨rfl,hsu⟩,ok_bind,hwr,ok_bind,
    MDBInMemoryShard.sumU64_eq_ok.mpr ⟨rfl,hd⟩,ok_bind,MDBInMemoryShard.sumU64_eq_ok.mpr
      ⟨rfl,hst⟩,ok_bind,
    hx,ok_bind]
  exact writeSections_ok hlen _

end Bytes
end XetCore.Shard
