import XetCore.Shard.KeyedExportRuns
import XetCore.Shard.SetOperationSpec
import XetCore.Shard.ShardRecords

/-! # The shard that a set operation writes

The records of a union or a difference are written with the tables and the totals that a shard
in memory with these records would be written with.
-/
namespace XetCore.Shard
open ByteSources Serialization SortedMerge MDBShardInfo List
open Merkle (DataHash)

variable {fs gs : List MDBFileInfo} {xs ys : List MDBXorbInfo}

/-- What is written of these files, behind what was written before. -/
def pushedFiles (o : FileSetOutput) (fs : List MDBFileInfo) : FileSetOutput where
  bytes := o.bytes ++ fs.flatMap MDBFileInfo.serialize
  lookup := o.lookup ++ fileLookupFrom o.currentIndex fs
  currentIndex := o.currentIndex + (fs.map fun f => 1 + f.metadata.numFollowing).sum
  materializedBytes := o.materializedBytes + (fs.map MDBFileInfo.fileSize).sum

def pushedXorbs (o : XorbSetOutput) (xs : List MDBXorbInfo) : XorbSetOutput where
  bytes := o.bytes ++ xs.flatMap MDBXorbInfo.serialize
  lookup := o.lookup ++ xorbLookupFrom o.currentIndex xs
  chunkLookup := o.chunkLookup ++ chunkLookupFrom o.currentIndex xs
  currentIndex := o.currentIndex + (xs.map fun x => 1 + x.chunks.length).sum
  storedBytesOnDisk := o.storedBytesOnDisk + (xs.map fun x => x.metadata.numBytesOnDisk.toNat).sum
  storedBytes := o.storedBytes + (xs.map fun x => x.metadata.numBytesInXorb.toNat).sum

theorem FileSetOutput.push_eq_ok {o o' : FileSetOutput} {f : MDBFileInfo}
    (hb : o.materializedBytes < 2 ^ 64) :
    o.push f = .ok o' ↔ o' = pushedFiles o [f] ∧ o'.currentIndex < 2 ^ 32 ∧
    o'.materializedBytes < 2 ^ 64 := by
  have hs : f.segments.foldlM (fun n e => addUsize n e.unpackedSegmentBytes.toNat) o.materializedBytes =
      (f.segments.map fun e => e.unpackedSegmentBytes.toNat).foldlM addUsize o.materializedBytes := by
    rw [foldlM_map]
  simp only [push,bind_eq_ok,hs,MDBInMemoryShard.foldlM_addUsize hb,numInfoEntryFollowing_ok,addU32_eq_ok]
  have hp : pushedFiles o [f] = {
      bytes := o.bytes ++ f.serialize
      lookup := o.lookup ++ [(f.metadata.fileHash.truncateHash,o.currentIndex)]
      currentIndex := o.currentIndex + (1 + f.metadata.numFollowing)
      materializedBytes := o.materializedBytes + f.fileSize } := by simp [pushedFiles,fileLookupFrom]
  constructor
  · rintro ⟨_,⟨rfl,hlt⟩,_,⟨rfl,-⟩,_,⟨rfl,-⟩,_,⟨rfl,hin⟩,ho'⟩
    cases ho'
    exact ⟨hp.symm,hin,hlt⟩
  · rw [hp]
    rintro ⟨rfl,hin,hlt⟩
    exact ⟨_,⟨rfl,hlt⟩,_,⟨rfl,by dsimp only at hin; omega⟩,_,⟨rfl,by dsimp only at hin; omega⟩,_,
      ⟨rfl,hin⟩,rfl⟩

theorem foldlM_pushFiles {fs : List MDBFileInfo} (hfs : ∀ f ∈ fs, f.WellFormed) {o o' : FileSetOutput}
    (hin : o.currentIndex < 2 ^ 32) (hby : o.materializedBytes < 2 ^ 64) :
    fs.foldlM FileSetOutput.push o = .ok o' ↔
      o' = pushedFiles o fs ∧ o'.currentIndex < 2 ^ 32 ∧ o'.materializedBytes < 2 ^ 64 := by
  refine foldlM_eq_ok_iff pushedFiles (fun o => o.currentIndex < 2 ^ 32 ∧ o.materializedBytes < 2 ^ 64)
    (fun o => by simp [pushedFiles,fileLookupFrom]) (fun o f fs hf hlt => ?_)
    (fun o o' f _ ho => FileSetOutput.push_eq_ok ho.2) (fun o fs => ?_) hfs ⟨hin,hby⟩
  · have hl : asU32 (f.serialize.length / mdbFileInfoEntrySize) = 1 + f.metadata.numFollowing := by
      rw [hf.length_serialize,Nat.mul_div_cancel_left _ (by decide),asU32_of_lt]
      simp only [pushedFiles,map_cons,sum_cons] at hlt
      omega
    simp [pushedFiles,fileLookupFrom,hl,Nat.add_assoc]
  · simp only [pushedFiles]
    omega

theorem XorbSetOutput.push_eq_ok {o o' : XorbSetOutput} {x : MDBXorbInfo} (hx : x.WellFormed) :
    o.push x = .ok o' ↔ o' = pushedXorbs o [x] ∧
      o'.currentIndex < 2 ^ 32 ∧ o'.storedBytesOnDisk < 2 ^ 64 ∧ o'.storedBytes < 2 ^ 64 := by
  have hl : (x.chunks.mapIdx fun j chunk => (chunk.chunkHash.truncateHash,o.currentIndex,j)) =
      chunkLookupOf o.currentIndex x.chunks := by
    refine mapIdx_eq_mapIdx_iff.mpr fun i hi => ?_
    rw [asU32_of_lt (hi.trans hx.length_lt)]
  simp only [push,bind_eq_ok,addUsize_eq_ok,addU32_eq_ok,hx.numEntries_eq,hl]
  simp only [pushedXorbs,xorbLookupFrom,chunkLookupFrom,flatMap_cons,flatMap_nil,append_nil,
    map_cons,map_nil,sum_cons,sum_nil,Nat.add_zero]
  constructor
  · rintro ⟨_,⟨rfl,hd⟩,_,⟨rfl,hs⟩,_,⟨rfl,-⟩,_,⟨rfl,hin⟩,ho'⟩
    cases ho'
    exact ⟨rfl,hin,hd,hs⟩
  · rintro ⟨rfl,hin,hd,hs⟩
    exact ⟨_,⟨rfl,hd⟩,_,⟨rfl,hs⟩,_,⟨rfl,by dsimp only at hin; omega⟩,_,⟨rfl,hin⟩,rfl⟩

theorem foldlM_pushXorbs {xs : List MDBXorbInfo} (hxs : ∀ x ∈ xs, x.WellFormed) {o o' : XorbSetOutput}
    (hin : o.currentIndex < 2 ^ 32) (hdi : o.storedBytesOnDisk < 2 ^ 64) (hs : o.storedBytes < 2 ^ 64) :
    xs.foldlM XorbSetOutput.push o = .ok o' ↔ o' = pushedXorbs o xs ∧
      o'.currentIndex < 2 ^ 32 ∧ o'.storedBytesOnDisk < 2 ^ 64 ∧ o'.storedBytes < 2 ^ 64 := by
  refine foldlM_eq_ok_iff pushedXorbs
    (fun o => o.currentIndex < 2 ^ 32 ∧ o.storedBytesOnDisk < 2 ^ 64 ∧ o.storedBytes < 2 ^ 64)
    (fun o => by simp [pushedXorbs,xorbLookupFrom,chunkLookupFrom]) (fun o x xs hx _ => ?_)
    (fun o o' x hx _ => XorbSetOutput.push_eq_ok hx) (fun o xs => ?_) hxs ⟨hin,hdi,hs⟩
  · simp [pushedXorbs,xorbLookupFrom,chunkLookupFrom,asU32_of_lt hx.length_lt,Nat.add_assoc]
  · simp only [pushedXorbs]
    omega

section Written
variable (sorter : KeySort (ℕ × ℕ)) (fs : List MDBFileInfo) (xs : List MDBXorbInfo)

def writtenParts : ShardParts where
  fileSection := fs.flatMap MDBFileInfo.serialize ++ FileDataSequenceHeader.bookend.serialize
  xorbSection := xs.flatMap MDBXorbInfo.serialize ++ XorbChunkSequenceHeader.bookend.serialize
  fileLookup := fileLookupFrom 0 fs
  xorbLookup := xorbLookupFrom 0 xs
  chunkLookup := sorter.sort (chunkLookupFrom 0 xs)

def writtenFooter : MDBShardFileFooter := (writtenParts sorter fs xs).placed {
  storedBytesOnDisk := UInt64.ofNat (xs.map fun x => x.metadata.numBytesOnDisk.toNat).sum
  materializedBytes := UInt64.ofNat (fs.map MDBFileInfo.fileSize).sum
  storedBytes := UInt64.ofNat (xs.map fun x => x.metadata.numBytesInXorb.toNat).sum }

def writtenShard : MDBShardInfo × Bytes :=
  let info : MDBShardInfo := { metadata := writtenFooter sorter fs xs }
  (info,info.bytesWith (writtenParts sorter fs xs))

end Written

/-- A shard with all its tables, which is made of these records. -/
structure FullShard (info : MDBShardInfo) (bytes : Bytes) (fs : List MDBFileInfo)
    (xs : List MDBXorbInfo) : Prop where
  records : ShardRecords fs xs
  made : ∃ sorter fileEnd xorbEnd parts, ShardRecords.Makes fs xs sorter true true fileEnd xorbEnd parts ∧
    fileEnd.isBookend = true ∧ xorbEnd.isBookend = true ∧ info.Describes parts ∧
      bytes = info.bytesWith parts

namespace FullShard
variable {info : MDBShardInfo} {bytes : Bytes}

section
variable (h : FullShard info bytes fs xs)
include h

theorem countable : ∀ f ∈ fs, Countable f := fun f hf =>
  ⟨h.records.files f hf,by have := h.records.records_lt f hf; omega⟩

theorem fileSection_eq : ∃ tail ending, bytes.drop info.metadata.fileInfoOffset.toNat =
    fileKind.encode tail fs ∧
      loadNextFile.run tail = .ok (none,ending) ∧ 0 < tail.length := by
  obtain ⟨_,fileEnd,_,parts,hm,hf,-,hin,rfl⟩ := h.made
  obtain ⟨rest,hd⟩ := hin.drop_fileSection
  refine ⟨fileEnd.serialize ++ rest,rest,
    ?_,by rw [loadNextFile,run_bind_of_ok (fileEnd.reads rest),hf]; rfl,by simp⟩
  rw [hd,hm.fileSection_eq,append_assoc]
  rfl

theorem xorbSection_eq : ∃ tail ending, bytes.drop info.metadata.xorbInfoOffset.toNat =
    xorbKind.encode tail xs ∧
      loadNextXorb.run tail = .ok (none,ending) ∧ 0 < tail.length := by
  obtain ⟨_,_,xorbEnd,parts,hm,-,hx,hin,rfl⟩ := h.made
  obtain ⟨rest,hd⟩ := hin.drop_xorbSection
  refine ⟨xorbEnd.serialize ++ rest,rest,
    ?_,by rw [loadNextXorb,run_bind_of_ok (xorbEnd.reads rest),hx]; rfl,by simp⟩
  rw [hd,hm.xorbSection_eq,append_assoc]
  rfl

end

end FullShard

section SetOperation
variable {info0 info1 : MDBShardInfo} {bytes0 bytes1 : Bytes}
  {sorter : KeySort (ℕ × ℕ)} {op : MDBSetOperation} (h0 : FullShard info0 bytes0 fs xs)
    (h1 : FullShard info1 bytes1 gs ys)
include h0 h1

theorem run_fileSections (o : FileSetOutput) :
    fileSections.run op (bytes0.drop info0.metadata.fileInfoOffset.toNat)
    (bytes1.drop info1.metadata.fileInfoOffset.toNat) o =
      ((mergedFiles op fs gs).map MDBFileInfo.stripped).foldlM FileSetOutput.push o := by
  obtain ⟨tail0,ending0,hd0,he0,hp⟩ := h0.fileSection_eq
  obtain ⟨tail1,ending1,hd1,he1,-⟩ := h1.fileSection_eq
  rw [hd0,hd1,(merges_files op).run_eq lawful_fileKind he0 he1 h0.countable h1.countable
    (fun f => by simp [fileKind]) hp,foldlM_map]
  rfl

theorem run_xorbSections (o : XorbSetOutput) :
    xorbSections.run op (bytes0.drop info0.metadata.xorbInfoOffset.toNat)
    (bytes1.drop info1.metadata.xorbInfoOffset.toNat) o = (mergedXorbs op xs ys).foldlM
      XorbSetOutput.push o := by
  obtain ⟨tail0,ending0,hd0,he0,hp⟩ := h0.xorbSection_eq
  obtain ⟨tail1,ending1,hd1,he1,-⟩ := h1.xorbSection_eq
  rw [hd0,hd1,(merges_xorbs op).run_eq lawful_xorbKind he0 he1 h0.records.xorbs h1.records.xorbs
    (fun x => by simp [xorbKind]) hp]
  rfl

omit h0 h1 in
theorem MDBFileInfo.WellFormed.stripped {f : MDBFileInfo} (h : f.WellFormed) : f.stripped.WellFormed :=
  ⟨h.numEntries_eq,(List.length_map _).trans h.verification_length,
    Option.isSome_map.trans h.metadataExt_isSome,h.not_bookend⟩

omit h0 h1 in
theorem fileHash_unionFile {a b : MDBFileInfo} (h : a.metadata.fileHash = b.metadata.fileHash) :
    (unionFile a b).metadata.fileHash = a.metadata.fileHash := by
  rw [unionFile]
  cases FileDataSequenceHeader.compareFlagSuperset a.metadata b.metadata with
  | superA => rfl
  | equal => rfl
  | superB => exact h.symm
  | neither => rfl

theorem mergedXorbs_wellFormed : ∀ x ∈ mergedXorbs op xs ys, x.WellFormed := by
  refine forall_mem_mergeBy h0.records.xorbs h1.records.xorbs fun x hx y hy _ z hz => ?_
  cases op with
  | union => exact Option.some.inj hz ▸ h0.records.xorbs x hx
  | difference => cases hz

theorem mergedXorbs_ordered : (mergedXorbs op xs ys).Pairwise fun a b =>
    a.metadata.xorbHash < b.metadata.xorbHash := by
  refine ordered_mergeBy (fun x hx y hy _ z hz => ?_) h0.records.xorbs_ordered h1.records.xorbs_ordered
  cases op with
  | union => rw [← Option.some.inj hz]
  | difference => cases hz

theorem mergedFiles_ordered : (mergedFiles op fs gs).Pairwise fun a b =>
    a.metadata.fileHash < b.metadata.fileHash := by
  refine ordered_mergeBy (fun f hf g hg heq z hz => ?_) h0.records.files_ordered h1.records.files_ordered
  cases op with
  | union => rw [← Option.some.inj hz,fileHash_unionFile heq]
  | difference => cases hz

theorem mergedRecords (hfl : ∀ f ∈ mergedFiles op fs gs, f.WellFormed)
    (hfi : ((mergedFiles op fs gs).map fun f => 1 + f.metadata.numFollowing).sum < 2 ^ 32)
    (hx : ((mergedXorbs op xs ys).map fun x => 1 + x.chunks.length).sum < 2 ^ 32) :
    ShardRecords ((mergedFiles op fs gs).map MDBFileInfo.stripped) (mergedXorbs op xs ys) where
  files := forall_mem_map.mpr fun f hf => (hfl f hf).stripped
  xorbs := mergedXorbs_wellFormed h0 h1
  files_ordered := pairwise_map.mpr (mergedFiles_ordered h0 h1)
  xorbs_ordered := mergedXorbs_ordered h0 h1
  fileRecords_lt := by
    rw [map_map]
    exact hfi
  xorbRecords_lt := hx

omit h0 h1 in
theorem makes_writtenParts (sorter : KeySort (ℕ × ℕ)) (fs : List MDBFileInfo) (xs : List MDBXorbInfo) :
    ShardRecords.Makes fs xs sorter true true FileDataSequenceHeader.bookend
      XorbChunkSequenceHeader.bookend
      (writtenParts sorter fs xs) := ⟨rfl,rfl,rfl,rfl,rfl⟩

/-- What a set operation writes, and that it succeeds if and only if the records have places of 32
bits. -/
theorem setOperation_eq_ok (hfl : ∀ f ∈ mergedFiles op fs gs, f.WellFormed) {r : MDBShardInfo × Bytes} :
    setOperation sorter op info0 info1 bytes0 bytes1 = .ok r ↔
      r = writtenShard sorter ((mergedFiles op fs gs).map MDBFileInfo.stripped) (mergedXorbs op xs ys) ∧
      ((mergedFiles op fs gs).map fun f => 1 + f.metadata.numFollowing).sum < 2 ^ 32 ∧
      ((mergedXorbs op xs ys).map fun x => 1 + x.chunks.length).sum < 2 ^ 32 := by
  have hpu : ∀ o', ((mergedFiles op fs gs).map MDBFileInfo.stripped).foldlM FileSetOutput.push {} =
    .ok o' ↔ _ :=
    fun o' => foldlM_pushFiles (forall_mem_map.mpr fun f hf => (hfl f hf).stripped)
      (by decide) (by decide)
  have hp : ∀ o', (mergedXorbs op xs ys).foldlM XorbSetOutput.push {} = .ok o' ↔ _ :=
    fun o' => foldlM_pushXorbs (mergedXorbs_wellFormed h0 h1) (by decide) (by decide) (by decide)
  have hre : ((mergedFiles op fs gs).map MDBFileInfo.stripped).map
    (fun f => 1 + f.metadata.numFollowing) =
      (mergedFiles op fs gs).map fun f => 1 + f.metadata.numFollowing := by
    rw [map_map]
    rfl
  simp only [setOperation,run_fileSections h0 h1,run_xorbSections h0 h1,bind_eq_ok,hpu,hp,
    ShardParts.offsets_eq_ok]
  constructor
  · rintro ⟨_,⟨rfl,hfi,-⟩,_,⟨rfl,hx,-,-⟩,_,⟨rfl,-⟩,hr⟩
    simp only [pushedFiles,pushedXorbs,hre,Nat.zero_add] at hfi hx
    refine ⟨(Except.ok.inj hr).symm.trans ?_,hfi,hx⟩
    simp only [pushedFiles,pushedXorbs,Nat.zero_add]
    rfl
  · rintro ⟨rfl,hfi,hx⟩
    have hm := mergedRecords h0 h1 hfl hfi hx
    have hb := sum_fileSize_lt hm.files hm.fileRecords_lt
    have hd := sum_word32_lt (fun x => x.metadata.numBytesOnDisk) hx
    have hs := sum_word32_lt (fun x => x.metadata.numBytesInXorb) hx
    have hlt := hm.body_lt (makes_writtenParts sorter _ _)
    refine ⟨_,⟨rfl,?_⟩,_,⟨rfl,?_⟩,_,⟨rfl,hlt⟩,?_⟩ <;> simp only [pushedFiles,pushedXorbs,hre,Nat.zero_add]
    · exact ⟨hfi,hb⟩
    · exact ⟨hx,hd,hs⟩
    · rfl

omit h0 h1 in
theorem fullShard_writtenShard (h : ShardRecords fs xs) :
    FullShard (writtenShard sorter fs xs).1 (writtenShard sorter fs xs).2 fs xs :=
  ⟨h,sorter,_,_,_,makes_writtenParts sorter fs xs,FileDataSequenceHeader.bookend_isBookend,
    XorbChunkSequenceHeader.bookend_isBookend,
    describes_placed (h.body_lt (makes_writtenParts sorter fs xs)) rfl rfl,rfl⟩

omit h0 h1 in
/-- What the merged record has of the verification is as long as the header of the first one says.
-/
theorem mergedFile_wellFormed {a b : MDBFileInfo} (ha : a.WellFormed) (hb : b.WellFormed)
    (hc : a.metadata.containsVerification = false → b.metadata.containsVerification = true →
      a.metadata.numEntries = b.metadata.numEntries) : (mergedFile a b).WellFormed where
  numEntries_eq := ha.numEntries_eq
  verification_length := by
    have hva : a.verification.length =
        if a.metadata.containsVerification then a.segments.length else 0 := ha.verification_length
    have hvb : b.verification.length =
        if b.metadata.containsVerification then b.segments.length else 0 := hb.verification_length
    have hf : (mergedFile a b).containsVerification =
        (a.metadata.containsVerification || b.metadata.containsVerification) :=
      containsVerification_flagsOf _ _ _ _
    change (if a.metadata.containsVerification then a.verification else b.verification).length = _
    rw [hf]
    cases hv : a.metadata.containsVerification with
    | true =>
      rwa [hv] at hva
    | false =>
      rw [if_neg Bool.false_ne_true,hvb,Bool.false_or]
      cases hw : b.metadata.containsVerification with
      | false => rfl
      | true =>
        rw [if_pos rfl,if_pos rfl,← hb.numEntries_eq,← hc hv hw]
        exact ha.numEntries_eq
  metadataExt_isSome := by
    have hea : a.metadataExt.isSome = a.metadata.containsMetadataExt := ha.metadataExt_isSome
    have heb : b.metadataExt.isSome = b.metadata.containsMetadataExt := hb.metadataExt_isSome
    have hf : (mergedFile a b).containsMetadataExt =
        (a.metadata.containsMetadataExt || b.metadata.containsMetadataExt) :=
      containsMetadataExt_flagsOf _ _ _ _
    change (if a.metadata.containsMetadataExt then a.metadataExt else b.metadataExt).isSome = _
    rw [hf]
    cases he : a.metadata.containsMetadataExt with
    | true => rw [if_pos rfl,hea,he,Bool.true_or]
    | false => rw [if_neg Bool.false_ne_true,heb,Bool.false_or]
  not_bookend := ha.not_bookend

/-- Where neither record has all the parts of the other one, and the verification is that of the
second one, both have the same number of segments. -/
def MeetsEvenly (a b : MDBFileInfo) : Prop :=
  FileDataSequenceHeader.compareFlagSuperset a.metadata b.metadata = .neither →
    a.metadata.containsVerification = false → b.metadata.containsVerification = true →
      a.metadata.numEntries = b.metadata.numEntries

instance (a b : MDBFileInfo) : Decidable (MeetsEvenly a b) := by
  unfold MeetsEvenly
  infer_instance

theorem mergedFiles_wellFormed
    (hc : ∀ f ∈ fs, ∀ g ∈ gs, f.metadata.fileHash = g.metadata.fileHash → MeetsEvenly f g) :
    ∀ f ∈ mergedFiles op fs gs, f.WellFormed := by
  refine forall_mem_mergeBy h0.records.files h1.records.files fun f hf g hg heq z hz => ?_
  cases op with
  | difference => cases hz
  | union =>
    cases hz
    have hwf := h0.records.files f hf
    have hwg := h1.records.files g hg
    rw [unionFile]
    cases hs : FileDataSequenceHeader.compareFlagSuperset f.metadata g.metadata with
    | superA => exact hwf
    | equal => exact hwf
    | superB => exact hwg
    | neither => exact mergedFile_wellFormed hwf hwg (hc f hf g hg heq hs)

end SetOperation
end XetCore.Shard
