import XetCore.Shard.ShardFileManager

/-! # The places of registered shards

A bookkeeper is consistent if each shard is listed once, the lookup by hash gives the places of
exactly the listed shards, and the chunk lookups name shards of their collections. Registering a
shard keeps this if and only if its hash is new and its chunk hashes could be read.
-/
namespace XetCore.Shard
open Serialization List
open Merkle (DataHash)

namespace ShardBookkeeper
variable {b : ShardBookkeeper} {chunkIndexTableMaxSize : ℕ} {s t : MDBShardFile} {place : ℕ × ℕ}
  {truncatedHashes : Result (List (ℕ × ℕ × ℕ))} {c : KeyedShardCollection}

/-- The shard stands at this place of this collection. -/
def At (b : ShardBookkeeper) (place : ℕ × ℕ) (s : MDBShardFile) : Prop :=
  ∃ c, b.shardCollections[place.1]? = some c ∧ c.shardList[place.2]? = some s

def ChunksInside (c : KeyedShardCollection) : Prop :=
  ∀ (h : ℕ) (e : ChunkCacheElement), c.chunkLookup[h]? = some e → e.shardIndex < c.shardList.length

structure Consistent (b : ShardBookkeeper) : Prop where
  nodup : (b.shards.map fun s => s.shardHash).Nodup
  lookup : ∀ (h : DataHash) (place : ℕ × ℕ), b.shardLookupByShardHash[h]? = some place ↔
    ∃ s, b.At place s ∧ s.shardHash = h
  inside : ∀ c ∈ b.shardCollections, ChunksInside c

theorem At.mem_shards (h : b.At place s) : s ∈ b.shards := by
  obtain ⟨c,hc,hs⟩ := h
  exact ShardBookkeeper.mem_shards.mpr ⟨c,mem_of_getElem? hc,mem_of_getElem? hs⟩

theorem consistent_new : new.Consistent where
  nodup := nodup_nil
  lookup h place := by
    refine iff_of_false (by simp [new]) ?_
    rintro ⟨s,hs,-⟩
    exact not_mem_nil hs.mem_shards
  inside c hc := by
    obtain rfl := mem_singleton.mp hc
    intro h e he
    simp at he

theorem ChunksInside.pushShard (hc : ChunksInside c) (s : MDBShardFile)
    (insertHashes : List (ℕ × ℕ × ℕ)) : ChunksInside (c.pushShard s insertHashes) := by
  have hlen : (c.pushShard s insertHashes).shardList.length = c.shardList.length + 1 := by
    simp [KeyedShardCollection.pushShard]
  have hf : ∀ (l : List (ℕ × ℕ × ℕ)) (m : Std.ExtTreeMap ℕ ChunkCacheElement compare),
      (∀ (h : ℕ) (e : ChunkCacheElement), m[h]? = some e → e.shardIndex < c.shardList.length + 1) →
      ∀ (h : ℕ) (e : ChunkCacheElement),
        (l.foldl (KeyedShardCollection.insertHash c.shardList.length) m)[h]? = some e →
        e.shardIndex < c.shardList.length + 1 := by
    intro l
    induction l with
    | nil => exact fun m hm => hm
    | cons p l ih =>
      intro m hm
      refine ih _ fun h e he => ?_
      rw [KeyedShardCollection.insertHash] at he
      split at he
      · exact hm h e he
      · rw [Std.ExtTreeMap.getElem?_insert] at he
        split at he
        · cases he
          -- the index is cut to 16 bits, which makes it no larger
          exact Nat.lt_succ_of_le (Nat.mod_le _ _)
        · exact hm h e he
  intro h e he
  rw [hlen]
  exact hf insertHashes c.chunkLookup (fun h e he => Nat.lt_succ_of_lt (hc h e he)) h e he

section PushShard
variable {collections : List KeyedShardCollection} {i : ℕ} {c : KeyedShardCollection}

theorem flatMap_set_pushShard (hc : collections[i]? = some c) (s : MDBShardFile)
    (insertHashes : List (ℕ × ℕ × ℕ)) :
    ((collections.set i (c.pushShard s insertHashes)).flatMap KeyedShardCollection.shardList).Perm
      (s :: collections.flatMap KeyedShardCollection.shardList) := by
  obtain ⟨hlt,rfl⟩ := List.getElem?_eq_some_iff.mp hc
  have hs := take_append_drop i collections
  rw [drop_eq_getElem_cons hlt] at hs
  have hl : (collections[i].pushShard s insertHashes).shardList = collections[i].shardList ++ [s] := rfl
  rw [set_eq_take_append_cons_drop,if_pos hlt,flatMap_append,flatMap_cons,hl,append_assoc,
    singleton_append]
  refine ((perm_middle.append_left _).trans perm_middle).trans (Perm.cons s ?_)
  rw [← flatMap_cons,← flatMap_append,hs]

theorem getElem?_set_pushShard (hc : collections[i]? = some c) (insertHashes : List (ℕ × ℕ × ℕ)) :
    (∃ d, (collections.set i (c.pushShard s insertHashes))[place.1]? = some d ∧
      d.shardList[place.2]? = some t) ↔
      (∃ d, collections[place.1]? = some d ∧ d.shardList[place.2]? = some t) ∨
        (place = (i,c.shardList.length) ∧ t = s) := by
  obtain ⟨p,q⟩ := place
  have hlt := (List.getElem?_eq_some_iff.mp hc).1
  by_cases hp : i = p
  · subst hp
    rw [getElem?_set_self hlt,hc]
    simp only [Option.some.injEq,exists_eq_left',KeyedShardCollection.pushShard,Prod.mk.injEq,true_and]
    rw [getElem?_append]
    split_ifs with hq
    · rw [or_iff_left fun h => absurd h.1 (Nat.ne_of_lt hq)]
    · have hn := getElem?_eq_none (Nat.le_of_not_lt hq)
      rw [hn,or_iff_right (Option.some_ne_none t).symm,getElem?_singleton]
      split
      · rw [Option.some_inj,and_iff_right (show q = c.shardList.length by omega)]
        exact eq_comm
      · rename_i hs
        exact iff_of_false (Option.some_ne_none t).symm fun h => hs (by omega)
  · rw [getElem?_set_ne hp,or_iff_left fun h => hp (Prod.mk.inj h.1).1.symm]

end PushShard

theorem at_withCollection (key : HMACKey) : (b.withCollection key).At place t ↔ b.At place t := by
  rw [withCollection]
  cases b.collectionByKey[key]? with
  | some i => rfl
  | none =>
    constructor
    · rintro ⟨c,hc,ht⟩
      rw [getElem?_append] at hc
      split at hc
      · exact ⟨c,hc,ht⟩
      · obtain rfl := mem_singleton.mp (mem_of_getElem? hc)
        simp at ht
    · rintro ⟨c,hc,ht⟩
      exact ⟨c,getElem?_append_of_eq_some hc,ht⟩

theorem inside_withCollection (key : HMACKey) (h : ∀ c ∈ b.shardCollections, ChunksInside c) :
    ∀ c ∈ (b.withCollection key).shardCollections, ChunksInside c := by
  rw [withCollection]
  cases b.collectionByKey[key]? with
  | some i => exact h
  | none =>
    intro c hc
    rcases mem_append.mp hc with hc | hc
    · exact h c hc
    · obtain rfl := mem_singleton.mp hc
      intro h e he
      simp at he

/-- What a bookkeeper has after a shard was registered at a place. -/
structure Registered (b b' : ShardBookkeeper) (s : MDBShardFile) (place : ℕ × ℕ) : Prop where
  perm : b'.shards.Perm (s :: b.shards)
  at_iff : ∀ q t, b'.At q t ↔ b.At q t ∨ (q = place ∧ t = s)
  fresh : ∀ t, ¬ b.At place t
  inside : (∀ c ∈ b.shardCollections, ChunksInside c) → ∀ c ∈ b'.shardCollections, ChunksInside c

theorem registered_of_set {key : HMACKey} {b' : ShardBookkeeper} {i : ℕ}
    (hc : (b.withCollection key).shardCollections[i]? = some c) {insertHashes : List (ℕ × ℕ × ℕ)}
    (hb' : b'.shardCollections = (b.withCollection key).shardCollections.set i
      (c.pushShard s insertHashes)) :
    Registered b b' s (i,c.shardList.length) where
  perm := by
    rw [← shards_withCollection (b := b) key,shards,hb']
    exact flatMap_set_pushShard hc s insertHashes
  at_iff q t := by
    rw [← at_withCollection (b := b) key,At,hb']
    exact getElem?_set_pushShard hc insertHashes
  fresh t ht := by
    obtain ⟨d,hd,ht⟩ := (at_withCollection key).mpr ht
    cases hc.symm.trans hd
    rw [getElem?_eq_none (Nat.le_refl _)] at ht
    cases ht
  inside h d hd := by
    have hin := inside_withCollection key h
    rw [hb'] at hd
    rcases mem_or_eq_of_mem_set hd with hd | rfl
    · exact hin d hd
    · exact (hin c (mem_of_getElem? hc)).pushShard s insertHashes

theorem shardLookup_withCollection (key : HMACKey) :
    (b.withCollection key).shardLookupByShardHash = b.shardLookupByShardHash := by
  rw [withCollection]
  cases b.collectionByKey[key]? <;> rfl

theorem registered_register (b : ShardBookkeeper) (chunkIndexTableMaxSize : ℕ) (s : MDBShardFile)
    (truncatedHashes : Result (List (ℕ × ℕ × ℕ))) :
    ∃ place, Registered b (b.register chunkIndexTableMaxSize s truncatedHashes) s place ∧
      (b.register chunkIndexTableMaxSize s truncatedHashes).shardLookupByShardHash =
        if truncatedHashes.isOk then b.shardLookupByShardHash.insert s.shardHash place
          else b.shardLookupByShardHash := by
  obtain ⟨i,c,hc,-,heq⟩ := @register_eq b chunkIndexTableMaxSize s truncatedHashes
  rw [heq]
  refine ⟨(i,c.shardList.length),?_⟩
  cases truncatedHashes with
  | error e => exact ⟨registered_of_set hc rfl,shardLookup_withCollection _⟩
  | ok hashes =>
    refine ⟨registered_of_set hc rfl,?_⟩
    change (b.withCollection _).shardLookupByShardHash.insert s.shardHash _ = _
    rw [shardLookup_withCollection]
    rfl

/-- Registering keeps the places right if and only if the hash is new and the chunk hashes are read.
-/
theorem consistent_register_iff (hb : b.Consistent) :
    (b.register chunkIndexTableMaxSize s truncatedHashes).Consistent ↔
      truncatedHashes.isOk = true ∧ s.shardHash ∉ b.shards.map fun t => t.shardHash := by
  obtain ⟨place,hr,hl⟩ := registered_register b chunkIndexTableMaxSize s truncatedHashes
  have hn : ((b.register chunkIndexTableMaxSize s truncatedHashes).shards.map fun t =>
    t.shardHash).Nodup ↔
      s.shardHash ∉ b.shards.map fun t => t.shardHash := by
    rw [(hr.perm.map _).nodup_iff,map_cons,nodup_cons]
    exact and_iff_left hb.nodup
  constructor
  · intro h
    have hnw := hn.mp h.nodup
    refine ⟨?_,hnw⟩
    by_contra hf
    rw [if_neg hf] at hl
    have hp := (h.lookup s.shardHash place).mpr ⟨s,(hr.at_iff place s).mpr (.inr ⟨rfl,rfl⟩),rfl⟩
    rw [hl] at hp
    obtain ⟨t,ht,-⟩ := (hb.lookup s.shardHash place).mp hp
    exact hr.fresh t ht
  · rintro ⟨hok,hnw⟩
    rw [if_pos hok] at hl
    refine ⟨hn.mpr hnw,fun h q => ?_,hr.inside hb.inside⟩
    rw [hl,Std.ExtTreeMap.getElem?_insert]
    split_ifs with heq
    · obtain rfl := Std.LawfulEqCmp.eq_of_compare heq
      constructor
      · intro hq
        cases hq
        exact ⟨s,(hr.at_iff place s).mpr (.inr ⟨rfl,rfl⟩),rfl⟩
      · rintro ⟨t,ht,hh⟩
        rcases (hr.at_iff q t).mp ht with ht | ⟨rfl,-⟩
        · exact absurd (hh ▸ mem_map_of_mem ht.mem_shards) hnw
        · rfl
    · rw [hb.lookup]
      refine exists_congr fun t => and_congr_left fun hh => ?_
      rw [hr.at_iff,or_iff_left]
      rintro ⟨-,rfl⟩
      exact heq (Std.LawfulEqCmp.compare_eq_iff_eq.mpr hh)

end ShardBookkeeper
end XetCore.Shard
