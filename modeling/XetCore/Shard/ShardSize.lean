import XetCore.Shard.ChunkIndex

/-! # The size of a shard in memory

A shard in memory keeps the number of bytes that it takes when it is written. Unions and
differences count with one entry for each hash of the chunk lookup. What is written has one
entry for each stored chunk.
-/
namespace XetCore.Shard
open ByteSources Serialization OperationTrees MDBInMemoryShard List
open Merkle (DataHash)

variable {s' : MDBInMemoryShard}

section Sums
variable {α : Type} {cost : α → ℕ} {l k : List α}

theorem sum_map_eq_of_mem_iff (hl : l.Nodup) (hk : k.Nodup) (hmem : ∀ a, a ∈ l ↔ a ∈ k) :
    (l.map cost).sum = (k.map cost).sum :=
  (((perm_ext_iff_of_nodup hl hk).mpr hmem).map cost).sum_eq

theorem sum_filter_eq_iff (hp : ∀ a, 0 < cost a) (keep : α → Bool) :
    ((l.filter keep).map cost).sum = (l.map cost).sum ↔ ∀ a ∈ l, keep a = true := by
  have hle : ∀ l : List α, ((l.filter keep).map cost).sum ≤ (l.map cost).sum := fun l =>
    (filter_sublist.map cost).sum_le_sum fun _ _ => Nat.zero_le _
  induction l with
  | nil => simp
  | cons a l ih =>
    rw [map_cons,sum_cons,forall_mem_cons]
    by_cases ha : keep a = true
    · rw [filter_cons_of_pos ha,map_cons,sum_cons,Nat.add_left_cancel_iff]
      exact ih.trans (and_iff_right ha).symm
    · rw [filter_cons_of_neg ha]
      refine iff_of_false (fun heq => ?_) fun h => ha h.1
      have hr := hle l
      have hp := hp a
      omega

theorem sum_replaced_eq_iff (hp : ∀ a, 0 < cost a) (hl : l.Nodup) (hk : k.Nodup)
    {key : α → DataHash} {a : α} (hmem : ∀ b, b ∈ k ↔ b = a ∨ (b ∈ l ∧ key b ≠ key a)) :
    (k.map cost).sum = (l.map cost).sum + cost a ↔ ∀ b ∈ l, key b ≠ key a := by
  have hs : (k.map cost).sum = ((a :: l.filter fun b => key b ≠ key a).map cost).sum := by
    refine sum_map_eq_of_mem_iff hk ?_ fun b => ?_
    · exact nodup_cons.mpr ⟨by simp,hl.filter _⟩
    · rw [hmem,mem_cons,mem_filter,decide_eq_true_iff]
  have hif := sum_filter_eq_iff (l := l) hp fun b => key b ≠ key a
  simp only [decide_eq_true_iff] at hif
  rw [hs,map_cons,sum_cons,Nat.add_comm,Nat.add_right_cancel_iff,hif]

end Sums

namespace MDBInMemoryShard
variable {s other : MDBInMemoryShard} {sorter : KeySort (ℕ × ℕ)} {h : DataHash}

def fileFootprint (f : MDBFileInfo) : ℕ := f.serialize.length + 12

def xorbFootprint (x : MDBXorbInfo) : ℕ := 16 * x.chunks.length + x.numBytes + 12

theorem fileFootprint_pos (f : MDBFileInfo) : 0 < fileFootprint f := Nat.succ_pos _

theorem xorbFootprint_pos (x : MDBXorbInfo) : 0 < xorbFootprint x := Nat.succ_pos _

/-- What the records of a shard take, with their lookup entries. -/
def storedSize (s : MDBInMemoryShard) : ℕ :=
  (s.files.map fileFootprint).sum + (s.xorbs.map xorbFootprint).sum

theorem length_flatMap_serialize_files (fs : List MDBFileInfo) :
    (fs.flatMap MDBFileInfo.serialize).length + fs.length * 12 = (fs.map fileFootprint).sum := by
  induction fs with
  | nil => rfl
  | cons f fs ih =>
    rw [flatMap_cons,length_append,length_cons,map_cons,sum_cons,← ih,fileFootprint]
    ring

theorem length_flatMap_serialize_xorbs (xs : List MDBXorbInfo) :
    (xs.flatMap MDBXorbInfo.serialize).length + xs.length * 12 +
      (xs.map fun x => x.chunks.length).sum * 16 =
      (xs.map xorbFootprint).sum := by
  induction xs with
  | nil => rfl
  | cons x xs ih =>
    rw [flatMap_cons,length_append,length_cons,map_cons,sum_cons,map_cons,
      sum_cons,← ih,xorbFootprint,MDBXorbInfo.length_serialize,MDBXorbInfo.numBytes]
    ring

theorem length_of_toBytes {bytes : Bytes} (h : s.toBytes sorter = .ok bytes) :
    bytes.length = s.storedSize + nonContentByteSize := by
  obtain ⟨⟨info,out⟩,hw,ho⟩ := bind_eq_ok.mp h
  cases ho
  obtain ⟨-,-,rfl⟩ := serializeFrom_eq_ok.mp hw
  have hf := length_flatMap_serialize_files s.files
  have hx := length_flatMap_serialize_xorbs s.xorbs
  simp only [MDBShardInfo.bytesWith,length_append,MDBShardFileHeader.length_serialize,
    MDBShardFileFooter.length_serialize,length_parts_body,fileSection,xorbSection,
    FileDataSequenceHeader.length_serialize,XorbChunkSequenceHeader.length_serialize,storedSize,
    nonContentByteSize]
  omega

/-- The headers of the files count what is written of them. -/
def FilesAgree (s : MDBInMemoryShard) : Prop := ∀ f ∈ s.files, f.numBytes = .ok f.serialize.length

/-- The size is what the records take, and the headers of the files agree with them. -/
structure Sized (s : MDBInMemoryShard) : Prop where
  filesAgree : s.FilesAgree
  size_eq : s.currentShardFileSize = s.storedSize

theorem sized_empty : empty.Sized where
  filesAgree f hf := by simp [empty,files] at hf
  size_eq := by
    rfl

theorem notMem_xorbContent_iff : h ∉ s.xorbContent ↔ ∀ x ∈ s.xorbs, x.metadata.xorbHash ≠ h := by
  rw [Std.ExtTreeMap.mem_iff_isSome_getElem?,Option.isSome_iff_exists]
  constructor
  · rintro hn x hx rfl
    exact hn ⟨x,mem_xorbs.mp hx⟩
  · rintro hne ⟨x,hx⟩
    have hk := s.xorb_keyed h x hx
    exact hne x (mem_xorbs.mpr (by rw [hk]; exact hx)) hk

theorem notMem_fileContent_iff : h ∉ s.fileContent ↔ ∀ f ∈ s.files, f.metadata.fileHash ≠ h := by
  rw [Std.ExtTreeMap.mem_iff_isSome_getElem?,Option.isSome_iff_exists]
  constructor
  · rintro hn f hf rfl
    exact hn ⟨f,mem_files.mp hf⟩
  · rintro hne ⟨f,hf⟩
    have hk := s.file_keyed h f hf
    exact hne f (mem_files.mpr (by rw [hk]; exact hf)) hk

theorem sized_addXorbBlock {xorb : MDBXorbInfo} (hs : s.Sized) :
    (s.addXorbBlock xorb).Sized ↔ xorb.metadata.xorbHash ∉ s.xorbContent := by
  rw [notMem_xorbContent_iff,← sum_replaced_eq_iff xorbFootprint_pos s.xorbs_nodup.of_map
    (s.addXorbBlock xorb).xorbs_nodup.of_map fun x => mem_xorbs_addXorbBlock]
  have hsi := hs.size_eq
  have hf : (s.addXorbBlock xorb).files = s.files := rfl
  have hc : (s.addXorbBlock xorb).currentShardFileSize = s.currentShardFileSize + xorbFootprint xorb := by
    rw [xorbFootprint,← Nat.add_assoc,← Nat.add_assoc]
    rfl
  rw [storedSize] at hsi
  constructor
  · intro h
    have hn := h.size_eq
    rw [storedSize,hf,hc] at hn
    omega
  · intro hsu
    refine ⟨hs.filesAgree,?_⟩
    rw [storedSize,hf,hc,hsu]
    omega

section AddFile
variable {fileInfo : MDBFileInfo}

theorem mem_files_addFileReconstructionInfo (h : s.addFileReconstructionInfo fileInfo = .ok s')
    {f : MDBFileInfo} :
    f ∈ s'.files ↔ f = fileInfo ∨ (f ∈ s.files ∧ f.metadata.fileHash ≠ fileInfo.metadata.fileHash) := by
  obtain ⟨n,-,ha⟩ := bind_eq_ok.mp h
  cases ha
  rw [mem_files,mem_files,Std.ExtTreeMap.getElem?_insert]
  by_cases hf : fileInfo.metadata.fileHash = f.metadata.fileHash
  · simp [eq_comm,hf]
  · rw [if_neg fun heq => hf (Std.LawfulEqCmp.eq_of_compare heq)]
    refine ⟨fun h => .inr ⟨h,Ne.symm hf⟩,?_⟩
    rintro (rfl | ⟨h,-⟩)
    · exact absurd rfl hf
    · exact h

theorem sized_addFileReconstructionInfo (hs : s.Sized)
    (h : s.addFileReconstructionInfo fileInfo = .ok s') :
    s'.Sized ↔ fileInfo.numBytes = .ok fileInfo.serialize.length ∧
    fileInfo.metadata.fileHash ∉ s.fileContent := by
  have hmem : ∀ f, f ∈ s'.files ↔ f = fileInfo ∨
    (f ∈ s.files ∧ f.metadata.fileHash ≠ fileInfo.metadata.fileHash) :=
    fun f => mem_files_addFileReconstructionInfo h
  rw [notMem_fileContent_iff,← sum_replaced_eq_iff fileFootprint_pos s.files_nodup.of_map
    s'.files_nodup.of_map hmem]
  obtain ⟨n,hn,hadd⟩ := bind_eq_ok.mp h
  have hx : s'.xorbs = s.xorbs := by
    cases hadd
    rfl
  have hc : s'.currentShardFileSize = s.currentShardFileSize + n + 12 := by
    cases hadd
    rfl
  have hsz := hs.size_eq
  rw [storedSize] at hsz
  constructor
  · intro hsi
    have ha := hsi.filesAgree fileInfo ((hmem fileInfo).mpr (.inl rfl))
    cases hn.symm.trans ha
    have hne := hsi.size_eq
    rw [storedSize,hx,hc] at hne
    refine ⟨ha,?_⟩
    rw [fileFootprint]
    omega
  · rintro ⟨ha,hsu⟩
    cases hn.symm.trans ha
    refine ⟨fun f hf => ?_,?_⟩
    · rcases (hmem f).mp hf with rfl | ⟨hf,-⟩
      · exact ha
      · exact hs.filesAgree f hf
    · rw [storedSize,hx,hc,hsu,fileFootprint]
      omega

end AddFile

theorem mapM_numBytes {fs : List MDBFileInfo} (h : ∀ f ∈ fs, f.numBytes = .ok f.serialize.length) :
    fs.mapM MDBFileInfo.numBytes = .ok (fs.map fun f => f.serialize.length) := by
  induction fs with
  | nil => rfl
  | cons f fs ih =>
    obtain ⟨hf,hfs⟩ := forall_mem_cons.mp h
    rw [mapM_cons,hf,ih hfs]
    rfl

theorem contentSize_eq (h : s.FilesAgree) : ∃ n, s.contentSize = .ok n ∧
    n + 16 * (s.xorbs.map fun x => x.chunks.length).sum = s.storedSize + 16 * s.chunkHashLookup.size := by
  rw [contentSize,mapM_numBytes h]
  refine ⟨_,rfl,?_⟩
  have hx : (s.xorbs.map fun x => x.numBytes + 12).sum + 16 * (s.xorbs.map fun x => x.chunks.length).sum =
      (s.xorbs.map xorbFootprint).sum := by
    rw [← sum_map_mul_left,← sum_map_add]
    refine congrArg List.sum (map_congr_left fun x _ => ?_)
    rw [xorbFootprint]
    omega
  rw [map_map,storedSize,← hx]
  change _ + (s.files.map fileFootprint).sum + _ + _ = _
  omega

theorem sized_recalculated (h : s.recalculateShardSize = .ok s') :
    s'.Sized ↔ s.FilesAgree ∧ s.chunkHashLookup.size = (s.xorbs.map fun x => x.chunks.length).sum := by
  obtain ⟨n,hn,rfl⟩ := recalculateShardSize_eq_ok.mp h
  have hsi : s.FilesAgree → (n = s.storedSize ↔
      s.chunkHashLookup.size = (s.xorbs.map fun x => x.chunks.length).sum) := by
    intro ha
    obtain ⟨k,hk,heq⟩ := contentSize_eq ha
    cases hn.symm.trans hk
    omega
  constructor
  · intro hs
    exact ⟨hs.filesAgree,(hsi hs.filesAgree).mp hs.size_eq⟩
  · rintro ⟨ha,hc⟩
    exact ⟨ha,(hsi ha).mpr hc⟩

def chunkKeys (s : MDBInMemoryShard) : Finset DataHash := s.chunkHashLookup.keys.toFinset

theorem mem_chunkKeys : h ∈ s.chunkKeys ↔ h ∈ s.chunkHashLookup := by
  rw [chunkKeys,mem_toFinset,Std.ExtTreeMap.mem_keys]

theorem card_chunkKeys (s : MDBInMemoryShard) : s.chunkKeys.card = s.chunkHashLookup.size := by
  rw [chunkKeys,toFinset_card_of_nodup Std.ExtTreeMap.nodup_keys,Std.ExtTreeMap.length_keys]

theorem chunkKeys_differenceContents :
    (s.differenceContents other).chunkKeys = other.chunkKeys \ s.chunkKeys := by
  ext h
  rw [Finset.mem_sdiff,mem_chunkKeys,mem_chunkKeys,mem_chunkKeys,Std.ExtTreeMap.mem_iff_isSome_getElem?,
    Std.ExtTreeMap.mem_iff_isSome_getElem?,Option.isSome_iff_exists,Option.isSome_iff_exists,←
      exists_and_right]
  exact exists_congr fun _ => getElem?_filter_not_contains

theorem filesAgree_unionContents (hs : s.FilesAgree) (ho : other.FilesAgree) :
    (s.unionContents other).FilesAgree ↔
      ∀ f ∈ s.files, ∀ g ∈ other.files, f.metadata.fileHash = g.metadata.fileHash →
      (f.mergeFrom g).numBytes = .ok (f.mergeFrom g).serialize.length := by
  constructor
  · intro h f hf g hg hh
    exact h _ (mem_files_unionContents.mpr (.inr (.inr ⟨f,hf,g,hg,hh,rfl⟩)))
  · intro h f hf
    rcases mem_files_unionContents.mp hf with ⟨hf,-⟩ | ⟨hf,-⟩ | ⟨g,hg,g',hg',hh,rfl⟩
    · exact hs f hf
    · exact ho f hf
    · exact h g hg g' hg' hh

theorem chunkCount_unionContents : ((s.unionContents other).xorbs.map fun x => x.chunks.length).sum =
    ((other.xorbs ++ s.xorbs.filter fun x => x.metadata.xorbHash ∉ other.xorbContent).map fun x =>
      x.chunks.length).sum := by
  refine sum_map_eq_of_mem_iff (s.unionContents other).xorbs_nodup.of_map ?_ fun x => ?_
  · rw [nodup_append]
    refine ⟨other.xorbs_nodup.of_map,s.xorbs_nodup.of_map.filter _,?_⟩
    rintro x hx _ hy rfl
    obtain ⟨-,hn⟩ := mem_filter.mp hy
    exact notMem_xorbContent_iff.mp (of_decide_eq_true hn) x hx rfl
  · rw [mem_xorbs_unionContents,mem_append,mem_filter,decide_eq_true_iff]

theorem chunkCount_differenceContents :
    ((s.differenceContents other).xorbs.map fun x => x.chunks.length).sum =
    ((other.xorbs.filter fun x => x.metadata.xorbHash ∉ s.xorbContent).map fun x =>
      x.chunks.length).sum := by
  refine sum_map_eq_of_mem_iff (s.differenceContents other).xorbs_nodup.of_map ?_ fun x => ?_
  · exact other.xorbs_nodup.of_map.filter _
  · rw [mem_xorbs_differenceContents,mem_filter,decide_eq_true_iff]

end MDBInMemoryShard

/-- A new hash is added, and the header of a file counts what is written of it. -/
def ShardEdit.KeepsSize : ShardEdit → MDBInMemoryShard → Prop
  | .addXorbBlock xorb, s => xorb.metadata.xorbHash ∉ s.xorbContent
  | .addFileReconstructionInfo f, s =>
    f.numBytes = .ok f.serialize.length ∧ f.metadata.fileHash ∉ s.fileContent

/-- The chunks that stay are as many as the hashes that stay in the lookup. For a union, the headers
of merged files count what is written of them. -/
def MDBSetOperation.KeepsSize : MDBSetOperation → MDBInMemoryShard → MDBInMemoryShard → Prop
  | .union, s, other =>
      (∀ f ∈ s.files, ∀ g ∈ other.files, f.metadata.fileHash = g.metadata.fileHash →
        (f.mergeFrom g).numBytes = .ok (f.mergeFrom g).serialize.length) ∧
      (s.chunkKeys ∪ other.chunkKeys).card =
        ((other.xorbs ++ s.xorbs.filter fun x => x.metadata.xorbHash ∉ other.xorbContent).map fun x =>
          x.chunks.length).sum
  | .difference, s, other => (other.chunkKeys \ s.chunkKeys).card =
      ((other.xorbs.filter fun x => x.metadata.xorbHash ∉ s.xorbContent).map fun x => x.chunks.length).sum

theorem sized_edit (edit : ShardEdit) {s s' : MDBInMemoryShard} (hs : s.Sized)
    (h : shardOperations.one edit s = .ok s') : s'.Sized ↔ edit.KeepsSize s := by
  cases edit with
  | addXorbBlock xorb =>
    cases h
    exact sized_addXorbBlock hs
  | addFileReconstructionInfo fileInfo => exact sized_addFileReconstructionInfo hs h

theorem sized_setOperation (op : MDBSetOperation) {s other s' : MDBInMemoryShard} (hs : s.Sized)
    (ho : other.Sized)
    (h : shardOperations.two op s other = .ok s') : s'.Sized ↔ op.KeepsSize s other := by
  cases op with
  | union =>
    rw [sized_recalculated h,← card_chunkKeys,show (s.unionContents other).chunkKeys =
      s.chunkKeys ∪ other.chunkKeys by
      ext h
      rw [Finset.mem_union,mem_chunkKeys,mem_chunkKeys,mem_chunkKeys]
      exact Std.ExtTreeMap.mem_union_iff,chunkCount_unionContents,
      filesAgree_unionContents hs.filesAgree ho.filesAgree]
    rfl
  | difference =>
    rw [sized_recalculated h,← card_chunkKeys,chunkKeys_differenceContents,chunkCount_differenceContents]
    refine and_iff_right fun f hf => ho.filesAgree f ?_
    rw [mem_files,differenceContents,getElem?_filter_not_contains] at hf
    exact mem_files.mpr hf.1

/-- The size is the length of what is written, for all shards on the way, if each operation keeps
it. Where all of them can be written and the headers of the files agree with them, it is so only
then. -/
theorem shardFileSize_throughout (sorter : KeySort (ℕ × ℕ)) (t : ShardTree) :
    (t.Permitted shardOperations ShardEdit.KeepsSize MDBSetOperation.KeepsSize →
      t.Throughout shardOperations fun s => ∀ bytes, s.toBytes sorter = .ok bytes →
        s.shardFileSize = bytes.length) ∧
    (t.Throughout shardOperations (fun s => s.FilesAgree ∧
        ∃ bytes, s.toBytes sorter = .ok bytes ∧ s.shardFileSize = bytes.length) →
      t.Permitted shardOperations ShardEdit.KeepsSize MDBSetOperation.KeepsSize) := by
  rw [← Tree.throughout_iff sized_empty
    (fun edit _ _ => sized_edit edit) (fun op _ _ _ => sized_setOperation op)]
  constructor
  · intro h
    refine h.mono fun s hs bytes hbytes => ?_
    rw [length_of_toBytes hbytes,shardFileSize,hs.size_eq]
  · intro h
    refine h.mono fun s hs => ?_
    obtain ⟨hagree,bytes,hbytes,hsize⟩ := hs
    rw [length_of_toBytes hbytes,shardFileSize,Nat.add_right_cancel_iff] at hsize
    exact ⟨hagree,hsize⟩

def addedTwice : MDBInMemoryShard :=
  (MDBInMemoryShard.empty.addXorbBlock (oneChunkXorb 1)).addXorbBlock (oneChunkXorb 1)

def addedTwiceTree : ShardTree :=
  .unary (.addXorbBlock (oneChunkXorb 1)) (.unary (.addXorbBlock (oneChunkXorb 1)) .leaf)

/-- A xorb that is added twice is counted twice and written once. -/
theorem added_twice_counted_twice : ∃ bytes, addedTwiceTree.eval shardOperations = .ok addedTwice ∧
    addedTwice.toBytes (.stable _) = .ok bytes ∧ bytes.length < addedTwice.shardFileSize := by
  have hfits : addedTwice.Fits :=
    ⟨by decide +kernel,by decide +kernel,by decide +kernel,by decide +kernel,by decide +kernel,by
      decide +kernel⟩
  obtain ⟨bytes,hbytes⟩ : ∃ bytes, addedTwice.toBytes (.stable _) = .ok bytes :=
    ⟨_,bind_eq_ok.mpr ⟨_,serializeFrom_eq_ok.mpr ⟨hfits,rfl,rfl⟩,rfl⟩⟩
  have hless : addedTwice.storedSize < addedTwice.currentShardFileSize := by decide +kernel
  refine ⟨bytes,rfl,hbytes,?_⟩
  rw [length_of_toBytes hbytes,shardFileSize]
  omega

end XetCore.Shard
