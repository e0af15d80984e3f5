import XetCore.Shard.ShardAlgebra

/-! # The chunks of a shard in memory

The chunks of a shard are indexed if the lookup has exactly the hashes of the stored chunks, each
with a stored xorb and the place of such a chunk in it. Each operation keeps the chunks indexed
under a condition on its arguments, and only then.
-/
namespace XetCore.Shard
open ByteSources Serialization OperationTrees MDBInMemoryShard
open Merkle (DataHash)

abbrev MDBXorbInfo.chunkHashes (x : MDBXorbInfo) : List DataHash := x.chunks.map fun c => c.chunkHash

variable {h : DataHash}

theorem exists_getElem?_foldl_insert {α β : Type} {key : α → DataHash} {f : α → β} {l : List α}
    (hmem : h ∈ l.map key) (m : MerkleMap β) :
    ∃ a ∈ l, key a = h ∧ (l.foldl (fun m a => m.insert (key a) (f a)) m)[h]? = some (f a) := by
  induction l generalizing m with
  | nil => cases hmem
  | cons b l ih =>
    by_cases hr : h ∈ l.map key
    · obtain ⟨a,ha,hk,hg⟩ := ih hr (m.insert (key b) (f b))
      exact ⟨a,List.mem_cons_of_mem b ha,hk,hg⟩
    · rw [List.map_cons,List.mem_cons,or_iff_left hr] at hmem
      subst hmem
      refine ⟨b,List.mem_cons_self,rfl,?_⟩
      rw [List.foldl_cons,getElem?_foldl_insert_of_notMem hr,Std.ExtTreeMap.getElem?_insert_self]

/-- No chunk that is resolved to a replaced xorb is missing in the new one. -/
def ShardEdit.KeepsIndex : ShardEdit → MDBInMemoryShard → Prop
  | .addXorbBlock xorb, s => ∀ h x (i : ℕ), s.chunkHashLookup[h]? = some (x,i) →
      x.metadata.xorbHash = xorb.metadata.xorbHash → h ∈ xorb.chunkHashes
  | .addFileReconstructionInfo _, _ => True

/-- A union needs the same of the xorbs that it replaces. A difference must drop the chunks with the
xorbs to which they are resolved, and no other chunks of the xorbs that stay. -/
def MDBSetOperation.KeepsIndex : MDBSetOperation → MDBInMemoryShard → MDBInMemoryShard → Prop
  | .union, s, other => ∀ h x (i : ℕ), s.chunkHashLookup[h]? = some (x,i) →
      x.metadata.xorbHash ∈ other.xorbContent → h ∈ other.chunkHashLookup
  | .difference, s, other =>
      (∀ h x (i : ℕ), other.chunkHashLookup[h]? = some (x,i) → h ∉ s.chunkHashLookup →
        x.metadata.xorbHash ∉ s.xorbContent) ∧
      ∀ x ∈ other.xorbs, x.metadata.xorbHash ∉ s.xorbContent → ∀ h ∈ x.chunkHashes, h ∉ s.chunkHashLookup

namespace MDBInMemoryShard
variable {s other : MDBInMemoryShard} {x : MDBXorbInfo}

structure ChunksIndexed (s : MDBInMemoryShard) : Prop where
  keys : ∀ h, h ∈ s.chunkHashLookup ↔ ∃ x ∈ s.xorbs, h ∈ x.chunkHashes
  entries : ∀ h x (i : ℕ), s.chunkHashLookup[h]? = some (x,i) → x ∈ s.xorbs ∧ x.chunkHashes[i]? = some h

theorem chunksIndexed_empty : empty.ChunksIndexed where
  keys h := by simp [empty,xorbs]
  entries h x i hg := by simp [empty] at hg

theorem ChunksIndexed.exists_entry (hs : s.ChunksIndexed) (hx : x ∈ s.xorbs)
    (hmem : h ∈ x.chunkHashes) : ∃ y i, s.chunkHashLookup[h]? = some (y,i) := by
  have hk := (hs.keys h).mpr ⟨x,hx,hmem⟩
  obtain ⟨⟨y,i⟩,hg⟩ := Option.isSome_iff_exists.mp (Std.ExtTreeMap.mem_iff_isSome_getElem?.mp hk)
  exact ⟨y,i,hg⟩

theorem ChunksIndexed.mk' (hk : ∀ x ∈ s.xorbs, ∀ h ∈ x.chunkHashes, h ∈ s.chunkHashLookup)
    (he : ∀ h x (i : ℕ), s.chunkHashLookup[h]? = some (x,i) → x ∈ s.xorbs ∧ x.chunkHashes[i]? = some h) :
    s.ChunksIndexed where
  keys h := by
    constructor
    · intro hke
      obtain ⟨⟨x,i⟩,hg⟩ := Option.isSome_iff_exists.mp (Std.ExtTreeMap.mem_iff_isSome_getElem?.mp hke)
      obtain ⟨hx,hi⟩ := he h x i hg
      exact ⟨x,hx,List.mem_of_getElem? hi⟩
    · rintro ⟨x,hx,hmem⟩
      exact hk x hx h hmem
  entries := he

section AddXorbBlock
variable {xorb : MDBXorbInfo}

theorem mem_xorbs_addXorbBlock : x ∈ (s.addXorbBlock xorb).xorbs ↔
    x = xorb ∨ (x ∈ s.xorbs ∧ x.metadata.xorbHash ≠ xorb.metadata.xorbHash) := by
  rw [mem_xorbs,mem_xorbs,addXorbBlock,Std.ExtTreeMap.getElem?_insert]
  by_cases hx : xorb.metadata.xorbHash = x.metadata.xorbHash
  · simp [eq_comm,hx]
  · rw [if_neg fun heq => hx (Std.LawfulEqCmp.eq_of_compare heq)]
    refine ⟨fun h => .inr ⟨h,Ne.symm hx⟩,?_⟩
    rintro (rfl | ⟨h,-⟩)
    · exact absurd rfl hx
    · exact h

theorem map_zipIdx_chunkHash (x : MDBXorbInfo) :
    (x.chunks.zipIdx.map fun c => c.1.chunkHash) = x.chunkHashes := by
  rw [MDBXorbInfo.chunkHashes,← List.zipIdx_map_fst 0 x.chunks,List.map_map,List.zipIdx_map_fst]
  rfl

theorem getElem?_lookup_addXorbBlock_of_notMem (hn : h ∉ xorb.chunkHashes) :
    (s.addXorbBlock xorb).chunkHashLookup[h]? = s.chunkHashLookup[h]? := by
  rw [← map_zipIdx_chunkHash] at hn
  exact getElem?_foldl_insert_of_notMem hn s.chunkHashLookup

theorem exists_lookup_addXorbBlock (hmem : h ∈ xorb.chunkHashes) :
    ∃ i : ℕ, (s.addXorbBlock xorb).chunkHashLookup[h]? = some (xorb,i) ∧
    xorb.chunkHashes[i]? = some h := by
  rw [← map_zipIdx_chunkHash] at hmem
  obtain ⟨c,hc,rfl,hg⟩ := exists_getElem?_foldl_insert (f := fun c => (xorb,c.2)) hmem s.chunkHashLookup
  refine ⟨c.2,hg,?_⟩
  rw [List.getElem?_map,List.mem_zipIdx_iff_getElem?.mp hc]
  rfl

theorem chunksIndexed_addXorbBlock (hs : s.ChunksIndexed) :
    (s.addXorbBlock xorb).ChunksIndexed ↔ (ShardEdit.addXorbBlock xorb).KeepsIndex s := by
  constructor
  · intro ha h x i hg hh
    by_contra hno
    obtain ⟨hx,hi⟩ := ha.entries h x i ((getElem?_lookup_addXorbBlock_of_notMem hno).trans hg)
    rcases mem_xorbs_addXorbBlock.mp hx with rfl | ⟨-,hne⟩
    · exact hno (List.mem_of_getElem? hi)
    · exact hne hh
  · intro hold
    refine .mk' ?_ ?_
    · intro x hx h hmem
      rw [Std.ExtTreeMap.mem_iff_isSome_getElem?]
      by_cases hn : h ∈ xorb.chunkHashes
      · obtain ⟨i,hg,-⟩ := exists_lookup_addXorbBlock hn
        rw [hg]
        rfl
      · rcases mem_xorbs_addXorbBlock.mp hx with rfl | ⟨hx,-⟩
        · exact absurd hmem hn
        · rw [getElem?_lookup_addXorbBlock_of_notMem hn,← Std.ExtTreeMap.mem_iff_isSome_getElem?]
          exact (hs.keys h).mpr ⟨x,hx,hmem⟩
    · intro h x i hg
      by_cases hn : h ∈ xorb.chunkHashes
      · obtain ⟨j,hj,hjh⟩ := exists_lookup_addXorbBlock hn
        cases hj.symm.trans hg
        exact ⟨mem_xorbs_addXorbBlock.mpr (.inl rfl),hjh⟩
      · rw [getElem?_lookup_addXorbBlock_of_notMem hn] at hg
        obtain ⟨hx,hi⟩ := hs.entries h x i hg
        exact ⟨mem_xorbs_addXorbBlock.mpr (.inr ⟨hx,fun hh => hn (hold h x i hg hh)⟩),hi⟩

end AddXorbBlock

theorem chunksIndexed_unionContents (hs : s.ChunksIndexed) (ho : other.ChunksIndexed) :
    (s.unionContents other).ChunksIndexed ↔ MDBSetOperation.union.KeepsIndex s other := by
  have hg : ∀ h e, (s.unionContents other).chunkHashLookup[h]? = some e ↔
      other.chunkHashLookup[h]? = some e ∨
        (h ∉ other.chunkHashLookup ∧ s.chunkHashLookup[h]? = some e) := by
    intro h e
    rw [unionContents,Std.ExtTreeMap.getElem?_union,Option.or_eq_some_iff,getElem?_eq_none_iff]
  constructor
  · intro hu h x i hi hh
    by_contra hn
    obtain ⟨hx,hih⟩ := hu.entries h x i ((hg h (x,i)).mpr (.inr ⟨hn,hi⟩))
    rcases mem_xorbs_unionContents.mp hx with hx | ⟨-,hne⟩
    · exact hn ((ho.keys h).mpr ⟨x,hx,List.mem_of_getElem? hih⟩)
    · exact hne hh
  · intro hold
    refine .mk' ?_ ?_
    · intro x hx h hmem
      rw [unionContents,Std.ExtTreeMap.mem_union_iff]
      rcases mem_xorbs_unionContents.mp hx with hx | ⟨hx,-⟩
      · exact .inr ((ho.keys h).mpr ⟨x,hx,hmem⟩)
      · exact .inl ((hs.keys h).mpr ⟨x,hx,hmem⟩)
    · intro h x i hi
      rcases (hg h (x,i)).mp hi with hi | ⟨hn,hi⟩
      · obtain ⟨hx,hih⟩ := ho.entries h x i hi
        exact ⟨mem_xorbs_unionContents.mpr (.inl hx),hih⟩
      · obtain ⟨hx,hih⟩ := hs.entries h x i hi
        exact ⟨mem_xorbs_unionContents.mpr (.inr ⟨hx,fun hh => hn (hold h x i hi hh)⟩),hih⟩

theorem chunksIndexed_differenceContents (ho : other.ChunksIndexed) :
    (s.differenceContents other).ChunksIndexed ↔ MDBSetOperation.difference.KeepsIndex s other := by
  have hg : ∀ h e, (s.differenceContents other).chunkHashLookup[h]? = some e ↔
      other.chunkHashLookup[h]? = some e ∧ h ∉ s.chunkHashLookup :=
        fun h e => getElem?_filter_not_contains
  constructor
  · intro hdi
    constructor
    · intro h x i hi hno
      obtain ⟨hx,-⟩ := hdi.entries h x i ((hg h (x,i)).mpr ⟨hi,hno⟩)
      exact (mem_xorbs_differenceContents.mp hx).2
    · intro x hx hn h hmem
      obtain ⟨y,i,hi⟩ := hdi.exists_entry (mem_xorbs_differenceContents.mpr ⟨hx,hn⟩) hmem
      exact ((hg h (y,i)).mp hi).2
  · rintro ⟨hk,hd⟩
    refine .mk' ?_ ?_
    · intro x hx h hmem
      obtain ⟨hx,hn⟩ := mem_xorbs_differenceContents.mp hx
      obtain ⟨y,i,hi⟩ := ho.exists_entry hx hmem
      rw [Std.ExtTreeMap.mem_iff_isSome_getElem?,(hg h (y,i)).mpr ⟨hi,hd x hx hn h hmem⟩]
      rfl
    · intro h x i hi
      obtain ⟨hi,hno⟩ := (hg h (x,i)).mp hi
      obtain ⟨hx,hih⟩ := ho.entries h x i hi
      exact ⟨mem_xorbs_differenceContents.mpr ⟨hx,hk h x i hi hno⟩,hih⟩

theorem matchingRun_spec (chunks : List XorbChunkSequenceEntry) (hashes : List DataHash) :
    matchingRun chunks hashes ≤ chunks.length ∧
      ((chunks.take (matchingRun chunks hashes)).map fun c => c.chunkHash) = hashes.take
        (matchingRun chunks hashes) := by
  induction chunks generalizing hashes with
  | nil => simp [matchingRun]
  | cons c chunks ih =>
    cases hashes with
    | nil => simp [matchingRun]
    | cons h hashes =>
      obtain ⟨hle,ht⟩ := ih hashes
      rw [matchingRun]
      split_ifs with heq
      · exact ⟨by rw [List.length_cons]; omega,by
          rw [List.take_succ_cons,List.take_succ_cons,List.map_cons,ht,heq]⟩
      · exact ⟨Nat.zero_le _,rfl⟩

/-- Queries find the stored chunks and answer with stored xorbs. -/
structure FindsChunks (s : MDBInMemoryShard) : Prop where
  found : ∀ x ∈ s.xorbs, ∀ h ∈ x.chunkHashes, ∀ hashes, ∃ y ∈ s.xorbs, ∃ i n : ℕ, 1 ≤ n ∧
    i + n ≤ y.chunks.length ∧
    ((y.chunks.drop i).take n).map (fun c => c.chunkHash) = (h :: hashes).take n ∧
    s.chunkHashDedupQuery (h :: hashes) =
      (FileDataSequenceEntry.fromXorbEntries y.metadata ((y.chunks.drop i).take n) i (i + n)).map
        fun e => some (n,e)
  inside : ∀ hashes n e, s.chunkHashDedupQuery hashes = .ok (some (n,e)) →
    1 ≤ n ∧ e.xorbHash ∈ s.xorbContent

theorem ChunksIndexed.query_eq (hs : s.ChunksIndexed) {i : ℕ}
    (hg : s.chunkHashLookup[h]? = some (x,i)) (hashes : List DataHash) : ∃ n :
    ℕ, 1 ≤ n ∧ i + n ≤ x.chunks.length ∧
      ((x.chunks.drop i).take n).map (fun c => c.chunkHash) = (h :: hashes).take n ∧
      s.chunkHashDedupQuery (h :: hashes) =
        (FileDataSequenceEntry.fromXorbEntries x.metadata ((x.chunks.drop i).take n) i (i + n)).map
          fun e => some (n,e) := by
  obtain ⟨-,hi⟩ := hs.entries h x i hg
  rw [List.getElem?_map,Option.map_eq_some_iff] at hi
  obtain ⟨c,hc,rfl⟩ := hi
  have hd : x.chunks.drop i = c :: x.chunks.drop (i + 1) := by
    obtain ⟨hlt,rfl⟩ := List.getElem?_eq_some_iff.mp hc
    exact List.drop_eq_getElem_cons hlt
  obtain ⟨hle,ht⟩ := matchingRun_spec (x.chunks.drop i) (c.chunkHash :: hashes)
  obtain ⟨n,hn⟩ : ∃ n, n = matchingRun (x.chunks.drop i) (c.chunkHash :: hashes) := ⟨_,rfl⟩
  rw [← hn] at hle ht
  have ho : 1 ≤ n := by
    rw [hn,hd,matchingRun,if_pos rfl]
    omega
  have hlen : i + n ≤ x.chunks.length := by
    rw [List.length_drop] at hle
    omega
  refine ⟨n,ho,hlen,ht,?_⟩
  rw [chunkHashDedupQuery]
  simp only [hg,← hn,if_neg (Nat.not_lt.mpr hlen)]
  cases FileDataSequenceEntry.fromXorbEntries x.metadata ((x.chunks.drop i).take n) i (i + n) <;> rfl

theorem fromXorbEntries_xorbHash {metadata : XorbChunkSequenceHeader}
    {chunks : List XorbChunkSequenceEntry} {i j : ℕ} {e : FileDataSequenceEntry} (hne : chunks ≠ [])
    (h : FileDataSequenceEntry.fromXorbEntries metadata chunks i j = .ok e) :
    e.xorbHash = metadata.xorbHash := by
  rw [FileDataSequenceEntry.fromXorbEntries,if_neg (by simpa using hne)] at h
  simp only [bind_eq_ok] at h
  obtain ⟨_,-,_,-,_,-,he⟩ := h
  cases he
  rfl

theorem ChunksIndexed.findsChunks (hs : s.ChunksIndexed) : s.FindsChunks where
  found x hx h hmem hashes := by
    obtain ⟨y,i,hg⟩ := hs.exists_entry hx hmem
    obtain ⟨n,hn⟩ := hs.query_eq hg hashes
    exact ⟨y,(hs.entries h y i hg).1,i,n,hn⟩
  inside hashes n e hq := by
    cases hashes with
    | nil => cases hq
    | cons h hashes =>
      cases hg : s.chunkHashLookup[h]? with
      | none =>
        rw [chunkHashDedupQuery] at hq
        simp only [hg] at hq
        cases hq
      | some entry =>
        obtain ⟨x,i⟩ := entry
        obtain ⟨k,hk,hlen,-,heq⟩ := hs.query_eq hg hashes
        rw [heq,map_eq_ok] at hq
        obtain ⟨e',he,hp⟩ := hq
        obtain ⟨rfl,rfl⟩ := Prod.mk.inj (Option.some.inj hp)
        have hne : (x.chunks.drop i).take k ≠ [] := by
          intro hni
          have hz := congrArg List.length hni
          rw [List.length_take,List.length_drop,List.length_nil] at hz
          omega
        refine ⟨hk,?_⟩
        rw [fromXorbEntries_xorbHash hne he,Std.ExtTreeMap.mem_iff_isSome_getElem?,
          mem_xorbs.mp (hs.entries h x i hg).1]
        rfl

theorem recalculateShardSize_eq_ok {s' : MDBInMemoryShard} : s.recalculateShardSize = .ok s' ↔
    ∃ n, s.contentSize = .ok n ∧ s' = { s with currentShardFileSize := n } := by
  rw [recalculateShardSize,bind_eq_ok]
  refine exists_congr fun n => and_congr_right fun _ => ?_
  exact ⟨fun h => (Except.ok.inj h).symm,fun h => by rw [h]; rfl⟩

end MDBInMemoryShard

theorem chunksIndexed_edit (edit : ShardEdit) {s s' : MDBInMemoryShard} (hs : s.ChunksIndexed)
    (h : shardOperations.one edit s = .ok s') : s'.ChunksIndexed ↔ edit.KeepsIndex s := by
  cases edit with
  | addXorbBlock xorb =>
    cases h
    exact chunksIndexed_addXorbBlock hs
  | addFileReconstructionInfo fileInfo =>
    obtain ⟨n,-,ha⟩ := bind_eq_ok.mp h
    cases ha
    exact iff_of_true ⟨hs.keys,hs.entries⟩ trivial

theorem chunksIndexed_setOperation (op : MDBSetOperation) {s other s' : MDBInMemoryShard}
    (hs : s.ChunksIndexed)
    (ho : other.ChunksIndexed) (h : shardOperations.two op s other = .ok s') :
    s'.ChunksIndexed ↔ op.KeepsIndex s other := by
  cases op with
  | union =>
    obtain ⟨n,-,rfl⟩ := recalculateShardSize_eq_ok.mp h
    rw [← chunksIndexed_unionContents hs ho]
    exact ⟨fun h => ⟨h.keys,h.entries⟩,fun h => ⟨h.keys,h.entries⟩⟩
  | difference =>
    obtain ⟨n,-,rfl⟩ := recalculateShardSize_eq_ok.mp h
    rw [← chunksIndexed_differenceContents ho]
    exact ⟨fun h => ⟨h.keys,h.entries⟩,fun h => ⟨h.keys,h.entries⟩⟩

/-- The chunks of all shards on the way are indexed and found if and only if each operation keeps
the index. -/
theorem chunksIndexed_throughout_iff (t : ShardTree) :
    t.Throughout shardOperations (fun s => s.ChunksIndexed ∧ s.FindsChunks) ↔
      t.Permitted shardOperations ShardEdit.KeepsIndex MDBSetOperation.KeepsIndex := by
  rw [← Tree.throughout_iff chunksIndexed_empty
    (fun edit _ _ => chunksIndexed_edit edit) (fun op _ _ _ => chunksIndexed_setOperation op)]
  exact ⟨fun h => h.mono fun _ hs => hs.1,fun h => h.mono fun _ hs => ⟨hs,hs.findsChunks⟩⟩

def oneChunkXorb (w : UInt64) : MDBXorbInfo where
  metadata := { xorbHash := ⟨w,0,0,0⟩, numEntries := 1 }
  chunks := [{ chunkHash := ⟨9,0,0,0⟩ }]

def sharedChunkTree : ShardTree :=
  .binary .difference (.unary (.addXorbBlock (oneChunkXorb 1)) .leaf)
    (.unary (.addXorbBlock (oneChunkXorb 2)) .leaf)

/-- The xorb stays and its chunk is not found. -/
theorem shared_chunk_not_found :
    ∃ s, sharedChunkTree.eval shardOperations = .ok s ∧ oneChunkXorb 2 ∈ s.xorbs ∧
    s.chunkHashDedupQuery (oneChunkXorb 2).chunkHashes = .ok none ∧ ¬ s.ChunksIndexed := by
  have hresult : (sharedChunkTree.eval shardOperations).map
    (fun s => (s.xorbs,s.chunkHashLookup.toList)) =
      .ok ([oneChunkXorb 2],[]) := by decide +kernel
  obtain ⟨s,hs,hpair⟩ := map_eq_ok.mp hresult
  obtain ⟨hxorbs,hlookup⟩ := Prod.mk.inj hpair
  have hmem : oneChunkXorb 2 ∈ s.xorbs := by simp [hxorbs]
  have hnone : s.chunkHashLookup[(⟨9,0,0,0⟩ : DataHash)]? = none := by
    rw [Std.ExtTreeMap.toList_eq_nil_iff.mp hlookup,Std.ExtTreeMap.getElem?_empty]
  refine ⟨s,hs,hmem,?_,fun hindexed => ?_⟩
  · simp only [oneChunkXorb,MDBXorbInfo.chunkHashes,List.map_cons,chunkHashDedupQuery,hnone]
    rfl
  · obtain ⟨x,i,hget⟩ := hindexed.exists_entry hmem (List.mem_singleton_self _)
    rw [hnone] at hget
    cases hget

end XetCore.Shard
