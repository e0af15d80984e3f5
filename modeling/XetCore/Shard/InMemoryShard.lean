import XetCore.Shard.StreamingShard

/-! # Shards in memory

A shard in memory keeps its files and its xorbs under their hashes, in the order of the
hashes, and for each chunk hash the place where it was seen last.
-/
namespace XetCore.Shard
open ByteSources Serialization List
open Merkle (DataHash)

abbrev MerkleMap (α : Type) := Std.ExtTreeMap DataHash α compare

structure MDBInMemoryShard where
  xorbContent : MerkleMap MDBXorbInfo
  fileContent : MerkleMap MDBFileInfo
  chunkHashLookup : MerkleMap (MDBXorbInfo × ℕ)
  currentShardFileSize : ℕ
  xorb_keyed : ∀ (h : DataHash) (x : MDBXorbInfo), xorbContent[h]? = some x → x.metadata.xorbHash = h
  file_keyed : ∀ (h : DataHash) (f : MDBFileInfo), fileContent[h]? = some f → f.metadata.fileHash = h

theorem keyed_insert {α : Type} {m : MerkleMap α} {key : α → DataHash}
    (hm : ∀ (h : DataHash) (a : α), m[h]? = some a → key a = h) (a : α) :
    ∀ (h : DataHash) (b : α), (m.insert (key a) a)[h]? = some b → key b = h := by
  intro h b hb
  rw [Std.ExtTreeMap.getElem?_insert] at hb
  split_ifs at hb with heq
  · cases hb
    exact Std.LawfulEqCmp.eq_of_compare heq
  · exact hm h b hb

section Rebuild
variable {α β : Type} {key : α → DataHash} {f : α → β} {g : α → α} {l : List α}

theorem getElem?_foldl_insert_of_notMem {h : DataHash} (hn : h ∉ l.map key) (m : MerkleMap β) :
    (l.foldl (fun m a => m.insert (key a) (f a)) m)[h]? = m[h]? := by
  induction l generalizing m with
  | nil => rfl
  | cons a l ih =>
    rw [map_cons,mem_cons,not_or] at hn
    rw [foldl_cons,ih hn.2,Std.ExtTreeMap.getElem?_insert,
      if_neg fun heq => hn.1 (Std.LawfulEqCmp.eq_of_compare heq).symm]

theorem getElem?_foldl_insert_of_mem (hn : (l.map key).Nodup) {a : α} (ha : a ∈ l) (m : MerkleMap β) :
    (l.foldl (fun m a => m.insert (key a) (f a)) m)[key a]? = some (f a) := by
  induction l generalizing m with
  | nil => cases ha
  | cons b l ih =>
    rw [map_cons,nodup_cons] at hn
    rw [foldl_cons]
    rcases mem_cons.mp ha with rfl | ha
    · rw [getElem?_foldl_insert_of_notMem hn.1,Std.ExtTreeMap.getElem?_insert_self]
    · exact ih hn.2 ha _

/-- Inserting the changed values gives the map back if and only if no value changes. -/
theorem foldl_insert_eq_iff {m : MerkleMap α} (hm : ∀ (h : DataHash) (a : α), m[h]? = some a → key a = h)
    (hn : ((m.toList.map Prod.snd).map key).Nodup) :
    (m.toList.map Prod.snd).foldl (fun t a => t.insert (key a) (g a)) (∅ : MerkleMap α) = m ↔
      ∀ a ∈ m.toList.map Prod.snd, g a = a := by
  have hmem : ∀ a, a ∈ m.toList.map Prod.snd ↔ m[key a]? = some a := by
    intro a
    rw [mem_map]
    constructor
    · rintro ⟨⟨h,b⟩,hb,rfl⟩
      have hg := Std.ExtTreeMap.mem_toList_iff_getElem?_eq_some.mp hb
      rw [hm h b hg]
      exact hg
    · exact fun hg => ⟨(key a,a),Std.ExtTreeMap.mem_toList_iff_getElem?_eq_some.mpr hg,rfl⟩
  constructor
  · intro heq a ha
    have hg := getElem?_foldl_insert_of_mem (f := g) hn ha (∅ : MerkleMap α)
    rw [heq,(hmem a).mp ha] at hg
    exact (Option.some.inj hg).symm
  · intro hs
    refine Std.ExtTreeMap.ext_getElem? fun h => ?_
    cases hg : m[h]? with
    | some a =>
      obtain rfl := hm h a hg
      have ha := (hmem a).mpr hg
      rw [getElem?_foldl_insert_of_mem hn ha,hs a ha]
    | none =>
      rw [getElem?_foldl_insert_of_notMem,Std.ExtTreeMap.getElem?_empty]
      intro hma
      obtain ⟨a,ha,rfl⟩ := mem_map.mp hma
      rw [(hmem a).mp ha] at hg
      cases hg

end Rebuild

namespace MDBInMemoryShard

def empty : MDBInMemoryShard := ⟨∅,∅,∅,0,by simp,by simp⟩

variable (s : MDBInMemoryShard)

def addXorbBlock (xorb : MDBXorbInfo) : MDBInMemoryShard where
  xorbContent := s.xorbContent.insert xorb.metadata.xorbHash xorb
  fileContent := s.fileContent
  chunkHashLookup := xorb.chunks.zipIdx.foldl (fun m c => m.insert c.1.chunkHash (xorb,c.2))
    s.chunkHashLookup
  currentShardFileSize := s.currentShardFileSize + 16 * xorb.chunks.length + xorb.numBytes + 12
  xorb_keyed := keyed_insert s.xorb_keyed xorb
  file_keyed := s.file_keyed

def addFileReconstructionInfo (fileInfo : MDBFileInfo) : Result MDBInMemoryShard := do
  let numBytes ← fileInfo.numBytes
  return {
    xorbContent := s.xorbContent
    fileContent := s.fileContent.insert fileInfo.metadata.fileHash fileInfo
    chunkHashLookup := s.chunkHashLookup
    currentShardFileSize := s.currentShardFileSize + numBytes + 12
    xorb_keyed := s.xorb_keyed
    file_keyed := keyed_insert s.file_keyed fileInfo }

def getFileReconstructionInfo (fileHash : DataHash) : Option MDBFileInfo := s.fileContent[fileHash]?

/-- A sum of 64 bits, which stops the call where it leaves them. -/
def sumU64 (values : List ℕ) : Result ℕ := values.foldlM addUsize 0

variable {values : List ℕ}

def files : List MDBFileInfo := s.fileContent.toList.map Prod.snd

def xorbs : List MDBXorbInfo := s.xorbContent.toList.map Prod.snd

def storedBytesOnDisk : Result ℕ := sumU64 (s.xorbs.map fun x => x.metadata.numBytesOnDisk.toNat)

def materializedBytes : Result ℕ := sumU64 (s.files.map MDBFileInfo.fileSize)

def storedBytes : Result ℕ := sumU64 (s.xorbs.map fun x => x.metadata.numBytesInXorb.toNat)

def isEmpty : Bool := s.xorbContent.isEmpty && s.fileContent.isEmpty

def nonContentByteSize : ℕ := mdbShardFooterSize + 48 + 48 + 48

def shardFileSize : ℕ := s.currentShardFileSize + nonContentByteSize

def addFileView (shard : MDBInMemoryShard) (view : MDBFileInfoView) : Result MDBInMemoryShard := do
  let info ← MDBFileInfo.ofView view
  shard.addFileReconstructionInfo info

def addXorbView (shard : MDBInMemoryShard) (view : MDBXorbInfoView) : Result MDBInMemoryShard := do
  let info ← MDBXorbInfo.ofView view
  return shard.addXorbBlock info

/-- Reads a shard up to the end of its xorbs. The footer is not read. -/
def fromReader {σ : Type} [ByteSource σ] : Reader σ CoreError MDBInMemoryShard := do
  let _ ← MDBShardFileHeader.deserialize
  let shard ← processShardFileInfoSection addFileView empty
  processShardXorbInfoSection addXorbView shard

/-- Headers agree with their entry lists and flags, and no hash is the bookend. -/
structure WellFormed (s : MDBInMemoryShard) : Prop where
  files : ∀ f ∈ s.files, f.WellFormed
  xorbs : ∀ x ∈ s.xorbs, x.WellFormed

instance : Decidable s.WellFormed :=
  decidable_of_iff ((∀ f ∈ s.files, f.WellFormed) ∧ ∀ x ∈ s.xorbs, x.WellFormed)
    ⟨fun h => ⟨h.1,h.2⟩,fun h => ⟨h.1,h.2⟩⟩

theorem foldlM_addUsize {a n : ℕ} (ha : a < 2 ^ 64) :
    values.foldlM addUsize a = .ok n ↔ n = a + values.sum ∧ a + values.sum < 2 ^ 64 :=
  (foldlM_eq_ok_iff (fun a l => a + l.sum) (· < 2 ^ 64) Nat.add_zero (fun a b l _ _ => by
    simp [Nat.add_assoc])
    (fun a b c _ _ => addUsize_eq_ok.trans (and_congr_right fun h => by rw [h]))
      (fun a l => (Nat.le_add_right a _).trans_lt) (fun _ _ => trivial) ha).trans
    (and_congr_right fun h => by rw [h])

theorem sumU64_eq_ok {n : ℕ} : sumU64 values = .ok n ↔ n = values.sum ∧ values.sum < 2 ^ 64 := by
  rw [sumU64,foldlM_addUsize (by decide),Nat.zero_add]

variable {s}

theorem mem_files {f : MDBFileInfo} : f ∈ s.files ↔ s.fileContent[f.metadata.fileHash]? = some f := by
  rw [files,mem_map]
  constructor
  · rintro ⟨⟨h,f'⟩,hmem,rfl⟩
    have hg := Std.ExtTreeMap.mem_toList_iff_getElem?_eq_some.mp hmem
    rw [s.file_keyed h f' hg]
    exact hg
  · exact fun hg => ⟨(f.metadata.fileHash,f),Std.ExtTreeMap.mem_toList_iff_getElem?_eq_some.mpr hg,rfl⟩

theorem mem_xorbs {x : MDBXorbInfo} : x ∈ s.xorbs ↔ s.xorbContent[x.metadata.xorbHash]? = some x := by
  rw [xorbs,mem_map]
  constructor
  · rintro ⟨⟨h,x'⟩,hmem,rfl⟩
    have hg := Std.ExtTreeMap.mem_toList_iff_getElem?_eq_some.mp hmem
    rw [s.xorb_keyed h x' hg]
    exact hg
  · exact fun hg => ⟨(x.metadata.xorbHash,x),Std.ExtTreeMap.mem_toList_iff_getElem?_eq_some.mpr hg,rfl⟩

theorem fileContent_toList : s.fileContent.toList = s.files.map fun f => (f.metadata.fileHash,f) := by
  rw [files,map_map]
  refine (map_id _).symm.trans (map_congr_left fun p hp => ?_)
  obtain ⟨h,f⟩ := p
  rw [Function.comp_apply,s.file_keyed h f (Std.ExtTreeMap.mem_toList_iff_getElem?_eq_some.mp hp)]
  rfl

theorem xorbContent_toList : s.xorbContent.toList = s.xorbs.map fun x => (x.metadata.xorbHash,x) := by
  rw [xorbs,map_map]
  refine (map_id _).symm.trans (map_congr_left fun p hp => ?_)
  obtain ⟨h,x⟩ := p
  rw [Function.comp_apply,s.xorb_keyed h x (Std.ExtTreeMap.mem_toList_iff_getElem?_eq_some.mp hp)]
  rfl

section
variable (s)

theorem files_ordered : s.files.Pairwise fun a b => a.metadata.fileHash < b.metadata.fileHash := by
  have h : s.fileContent.toList.Pairwise fun a b => compare a.1 b.1 = .lt :=
    Std.ExtTreeMap.ordered_keys_toList
  rw [fileContent_toList,pairwise_map] at h
  exact h.imp fun hlt => compare_lt_iff_lt.mp hlt

theorem xorbs_ordered : s.xorbs.Pairwise fun a b => a.metadata.xorbHash < b.metadata.xorbHash := by
  have h : s.xorbContent.toList.Pairwise fun a b => compare a.1 b.1 = .lt :=
    Std.ExtTreeMap.ordered_keys_toList
  rw [xorbContent_toList,pairwise_map] at h
  exact h.imp fun hlt => compare_lt_iff_lt.mp hlt

theorem files_nodup : (s.files.map fun f => f.metadata.fileHash).Nodup :=
  pairwise_map.mpr (s.files_ordered.imp fun hlt => hlt.ne)

theorem xorbs_nodup : (s.xorbs.map fun x => x.metadata.xorbHash).Nodup :=
  pairwise_map.mpr (s.xorbs_ordered.imp fun hlt => hlt.ne)

end

end MDBInMemoryShard
end XetCore.Shard
