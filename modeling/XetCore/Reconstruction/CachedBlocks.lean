import XetCore.ChunkCache.GetAlone
import XetCore.Reconstruction.RoundTrip

/-! # Blocks and the chunk cache

The data of a block is looked up in the chunk cache under the first of its ranges, or else
downloaded and put there under the same range. A put of more chunks than the first range
has is refused, but a lookup finds what a block of one range has left.
-/
namespace XetCore.Reconstruction
open Dedup Chunking Extents Runs Fuel ChunkCache List

variable {H : Type}

def XorbBlock.firstRange (b : XorbBlock H) : ChunkRange := b.chunkRanges.head?.getD ⟨0,0⟩

def XorbBlock.dataOf (b : XorbBlock H) (byteOffsets : List ℕ) (data : Bytes) : Option XorbBlockData :=
  (buildChunkOffsets b.chunkRanges byteOffsets).map fun chunkOffsets => ⟨chunkOffsets,data⟩

structure Retrieved (H : Type) where
  data : Option XorbBlockData
  cache : DiskCache H
  put : Option (PutCall H)

inductive RetrievalEvent (H : Type) where
  | retrieve (b : XorbBlock H) (fuel : ℕ)
  | advancePut (call : ℕ) (choices : List (H × ℕ))

section Model
variable [DecidableEq H] (crc32 : Bytes → ℕ) (store : H → List (Chunk H))

def XorbBlock.retrieveData (b : XorbBlock H) (cache : DiskCache H) (fuel : ℕ) : Option (Retrieved H) :=
  (cache.get crc32 b.xorbHash b.firstRange fuel).map fun got =>
    match got.1 with
    | .ok (some cacheRange) => ⟨b.dataOf cacheRange.offsets cacheRange.data,got.2,none⟩
    | _ =>
      ⟨b.fill store,got.2,
        some (PutCall.start b.xorbHash b.firstRange (byteIndices 0 (b.chunks store))
          (bytesOf (b.chunks store)))⟩

/-- Blocks are retrieved, and the puts that this starts run at any time. -/
def nextRetrieval (s : CacheSystem H) : RetrievalEvent H → CacheSystem H
  | .retrieve b fuel =>
    match b.retrieveData crc32 store s.cache fuel with
    | none => s
    | some r => { s with cache := r.cache, puts := s.puts ++ r.put.toList }
  | .advancePut call choices => s.next crc32 (.advancePut call choices)

end Model

section Store
variable (store : H → List (Chunk H))

def storeContent (xorbHash : H) (chunkIndex : ℕ) : Bytes :=
  ((store xorbHash)[chunkIndex]?.map (·.data)).getD []

variable (b : XorbBlock H)

def XorbBlock.Within : Prop := ∀ r ∈ b.chunkRanges, r.stop ≤ (store b.xorbHash).length

def XorbBlock.restChunks : List (Chunk H) := rangeChunks (store b.xorbHash) b.chunkRanges.tail

variable {store}
variable {b}

theorem contentChunks_storeContent {xorbHash : H} {r : ChunkRange}
    (h : r.stop ≤ (store xorbHash).length) :
    contentChunks (storeContent store) xorbHash r = (slice (store xorbHash) r.start r.stop).map
      (·.data) := by
  have hlen : (slice (store xorbHash) r.start r.stop).length = r.stop - r.start := slice_length h
  refine ext_getElem (by rw [contentChunks_length,length_map,hlen]) fun i hi _ => ?_
  rw [contentChunks_length] at hi
  have hlt : r.start + i < (store xorbHash).length := by omega
  simp [contentChunks,storeContent,slice,getElem?_eq_getElem hlt]

theorem byteIndices_eq (n : ℕ) (cs : List (Chunk H)) :
    byteIndices n cs = startOffsets n (cs.map (·.data)) := by
  induction cs generalizing n with
  | nil => rfl
  | cons c cs ih => rw [byteIndices,map_cons,startOffsets,ih]

theorem XorbBlock.chunks_eq :
    b.chunks store = slice (store b.xorbHash) b.firstRange.start b.firstRange.stop ++
      b.restChunks store := by
  unfold XorbBlock.chunks XorbBlock.restChunks XorbBlock.firstRange rangeChunks
  cases b.chunkRanges with
  | nil => simp
  | cons r rs => rfl

theorem XorbBlock.Within.firstRange_le (h : b.Within store) :
    b.firstRange.stop ≤ (store b.xorbHash).length := by
  unfold XorbBlock.firstRange
  cases hr : b.chunkRanges with
  | nil => simp
  | cons r rs => exact h r (by simp [hr])

theorem XorbBlock.Within.put_consistent (h : b.Within store)
    (hb : (bytesOf (store b.xorbHash)).length < 2 ^ 32) : Consistent (storeContent store)
      (.put b.xorbHash b.firstRange (byteIndices 0 (b.chunks store)) (bytesOf (b.chunks store))) := by
  intro ha
  obtain ⟨hlt,-,hlen,-⟩ := putArguments_eq_ok ha
  have hf : (slice (store b.xorbHash) b.firstRange.start b.firstRange.stop).length =
      b.firstRange.stop - b.firstRange.start := slice_length h.firstRange_le
  -- there are no more chunks than those of the first range
  have hr : b.restChunks store = [] := by
    rw [byteIndices_length,b.chunks_eq,length_append,hf] at hlen
    exact eq_nil_of_length_eq_zero (by omega)
  have hc : b.chunks store = slice (store b.xorbHash) b.firstRange.start b.firstRange.stop := by
    rw [b.chunks_eq,hr,append_nil]
  rw [hc,contentChunks_storeContent h.firstRange_le,byteIndices_eq]
  refine ⟨fun n hn => ?_,rfl,flatMap_def⟩
  have hle := (le_of_mem_startOffsets hn).2
  have ht := slice_flatMap (fun c : Chunk H => c.data) (store b.xorbHash) hlt.le
  have hs : (bytesOf (slice (store b.xorbHash) b.firstRange.start b.firstRange.stop)).length ≤
      (bytesOf (store b.xorbHash)).length := by
    unfold bytesOf
    rw [← ht]
    simp only [slice,length_take,length_drop]
    omega
  rw [← flatMap_def] at hle
  unfold bytesOf at hs hb
  omega

theorem zip_take_of_length_le {α β : Type} {as : List α} {bs : List β} {n : ℕ} (h : as.length ≤ n) :
    as.zip (bs.take n) = as.zip bs := by
  induction as generalizing bs n with
  | nil => simp
  | cons a as ih =>
    cases bs with
    | nil => simp
    | cons b bs =>
      obtain ⟨m,rfl⟩ := Nat.exists_eq_add_of_le' (Nat.one_le_of_lt h)
      rw [take_succ_cons,zip_cons_cons,zip_cons_cons,ih (by simpa using h)]

theorem XorbBlock.Within.fill_isSome (h : b.Within store) : (b.fill store).isSome := by
  rw [XorbBlock.fill,buildChunkOffsets,if_pos]
  · rfl
  · rw [byteIndices_length,← rangeChunks_length h]
    exact Nat.le_succ _

/-- What the first chunks give serves for the whole block only if the other ones hold next to
nothing. -/
theorem XorbBlock.Within.dataOf_eq_fill_iff (h : b.Within store) {first rest : List (Chunk H)}
    (hc : b.chunks store = first ++ rest) :
    (∃ data, b.dataOf (byteIndices 0 first) (bytesOf first) = some data ∧ b.fill store = some data) ↔
      rest.length ≤ 1 ∧ bytesOf rest = [] := by
  set indices := b.chunkRanges.flatMap fun r => List.range' r.start (r.stop - r.start) with hin
  have hlen : indices.length = first.length + rest.length := by
    rw [← length_append,← hc]
    exact (rangeChunks_length h).symm
  have hf : b.fill store = some ⟨indices.zip (byteIndices 0 (first ++ rest)),
    bytesOf first ++ bytesOf rest⟩ := by
    rw [XorbBlock.fill,hc,buildChunkOffsets,if_pos]
    · rw [← bytesOf_append]
      rfl
    · rw [byteIndices_length,← hin,hlen,length_append]
      omega
  have hd : b.dataOf (byteIndices 0 first) (bytesOf first) =
      if rest.length ≤ 1 then some ⟨indices.zip (byteIndices 0 first),bytesOf first⟩ else none := by
    rw [XorbBlock.dataOf,buildChunkOffsets,byteIndices_length,← hin,hlen]
    by_cases hle : rest.length ≤ 1
    · rw [if_pos (by omega),if_pos hle]
      rfl
    · rw [if_neg (by omega),if_neg hle]
      rfl
  rw [hf,hd]
  by_cases hle : rest.length ≤ 1
  · -- the offsets of the first chunks are those of all chunks
    have hz : indices.zip (byteIndices 0 (first ++ rest)) = indices.zip (byteIndices 0 first) := by
      rw [← zip_take_of_length_le (n := first.length + 1) (by omega),byteIndices_eq,byteIndices_eq,
        startOffsets_take,← map_take,take_left]
    rw [if_pos hle,hz]
    simp [hle]
  · simp [hle]

end Store

section Histories
variable [DecidableEq H] {crc32 : Bytes → ℕ} {store : H → List (Chunk H)} {s : CacheSystem H}
  {b : XorbBlock H}

def RetrievalEvent.Within (store : H → List (Chunk H)) : RetrievalEvent H → Prop
  | .retrieve b _ => b.Within store
  | .advancePut _ _ => True

abbrev StoreSound (crc32 : Bytes → ℕ) (store : H → List (Chunk H)) (s : CacheSystem H) : Prop :=
  SystemSound (storeContent store) crc32 (Stored (storeContent store) crc32) s

theorem StoreSound.next (h : StoreSound crc32 store s) (hb : ∀ x, (bytesOf (store x)).length < 2 ^ 32)
    {e : RetrievalEvent H} (he : e.Within store) :
    StoreSound crc32 store (nextRetrieval crc32 store s e) := by
  cases e with
  | advancePut call choices =>
    have hr : EventRight (storeContent store) crc32 s (.advancePut call choices) := ⟨trivial,trivial⟩
    exact SystemSound.next h (fun _ _ _ hf => hf) (fun _ _ _ hf _ => hf) hr
  | retrieve b fuel =>
    simp only [nextRetrieval,XorbBlock.retrieveData]
    cases hg : s.cache.get crc32 b.xorbHash b.firstRange fuel with
    | none => exact h
    | some got =>
      have hfi := fun key item file hf => h.files key item file (getAlone_files hg hf)
      have hp := he.put_consistent (hb b.xorbHash)
      simp only [Option.map_some]
      split
      · exact ⟨hfi,h.gets,by simpa using h.puts⟩
      · refine ⟨hfi,h.gets,fun c hc => ?_⟩
        rcases mem_append.mp hc with hc | hc
        · exact h.puts c hc
        · exact putStart_stored hp (by simpa using hc)

theorem StoreSound.retrieveData_returns (h : StoreSound crc32 store s) (hb : b.Within store)
    (hfree : b.firstRange.start < b.firstRange.stop → s.cache.blocked = false) :
    ∃ r, Returns (b.retrieveData crc32 store s.cache) r ∧
      r.data = if b.firstRange.start < b.firstRange.stop ∧
          s.cache.holds b.xorbHash b.firstRange = true then
        b.dataOf (byteIndices 0 (slice (store b.xorbHash) b.firstRange.start b.firstRange.stop))
          (bytesOf (slice (store b.xorbHash) b.firstRange.start b.firstRange.stop))
      else b.fill store := by
  obtain ⟨cache,hg⟩ := get_returns hfree fun item file hf => h.files b.xorbHash item file hf
  refine ⟨_,hg.map _,?_⟩
  by_cases hlt : b.firstRange.start < b.firstRange.stop
  · rw [if_neg (Nat.not_le_of_lt hlt)]
    cases hh : s.cache.holds b.xorbHash b.firstRange with
    | false => simp
    | true =>
      simp only [↓reduceIte,rightRange,hlt]
      rw [contentChunks_storeContent hb.firstRange_le,byteIndices_eq,← flatMap_def]
      rfl
  · rw [if_pos (Nat.le_of_not_lt hlt),if_neg (fun hc => hlt hc.1)]

/-- After any history of retrievals, a block is retrieved as without a cache exactly if its first
range is empty, or no put is stuck and, where the cache holds the range, the other ranges have at
most one chunk and no bytes. -/
theorem retrieved_as_downloaded_iff (hbytes : ∀ x, (bytesOf (store x)).length < 2 ^ 32)
    {capacity : ℕ} {events : List (RetrievalEvent H)} (hevents : ∀ e ∈ events, e.Within store)
    (hb : b.Within store) {cache : DiskCache H} (hcache : cache =
      (run (nextRetrieval crc32 store) { cache := { capacity := capacity } } events).cache) :
    (∃ r, Returns (b.retrieveData crc32 store cache) r ∧
        ∃ data, r.data = some data ∧ b.fill store = some data) ↔
      (b.firstRange.start < b.firstRange.stop → cache.blocked = false ∧
        (cache.holds b.xorbHash b.firstRange = true →
          (b.restChunks store).length ≤ 1 ∧ bytesOf (b.restChunks store) = [])) := by
  have hstart : StoreSound crc32 store { cache := { capacity := capacity } } :=
    ⟨by simp,by simp,by simp⟩
  have hkeep : ∀ s e, RetrievalEvent.Within store e → StoreSound crc32 store s →
      StoreSound crc32 store (nextRetrieval crc32 store s e) := fun s e he hs => hs.next hbytes he
  have hsound := run_invariant hkeep hstart (permitted_of_forall hevents)
  subst hcache
  by_cases hfree : b.firstRange.start < b.firstRange.stop →
      (run (nextRetrieval crc32 store) { cache := { capacity := capacity } }
        events).cache.blocked = false
  · obtain ⟨r,hreturns,hdata⟩ := hsound.retrieveData_returns hb hfree
    rw [hreturns.exists_and_iff,hdata]
    split
    · rename_i hheld
      rw [hb.dataOf_eq_fill_iff b.chunks_eq]
      exact ⟨fun h hlt => ⟨hfree hlt,fun _ => h⟩,fun h => (h hheld.1).2 hheld.2⟩
    · rename_i hmiss
      obtain ⟨data,hfill⟩ := Option.isSome_iff_exists.mp hb.fill_isSome
      exact ⟨fun _ hlt => ⟨hfree hlt,fun hheld => absurd ⟨hlt,hheld⟩ hmiss⟩,
        fun _ => ⟨data,hfill,hfill⟩⟩
  · -- the lookup waits behind the stuck put, however much fuel it has
    refine iff_of_false ?_ fun h => hfree fun hlt => (h hlt).1
    rw [Classical.not_imp,Bool.not_eq_false] at hfree
    rintro ⟨r,⟨n,hn⟩,-⟩
    have hr := hn n le_rfl
    rw [XorbBlock.retrieveData,get_blocked hfree.1 hfree.2] at hr
    cases hr

def sevenChunks : Unit → List (Chunk Unit) := fun _ => (List.range 7).map fun i => ⟨(),[UInt8.ofNat i]⟩

def singleRange : XorbBlock Unit := ⟨(),[⟨0,2⟩],0,[]⟩

def twoRanges : XorbBlock Unit := ⟨(),[⟨0,2⟩,⟨5,7⟩],0,[]⟩

/-- A block of one range is retrieved and put into the cache. -/
def singleRangeCached : List (RetrievalEvent Unit) :=
  .retrieve singleRange 10 :: List.replicate 4 (.advancePut 0 [])

theorem singleRangeCached_within : ∀ e ∈ singleRangeCached, e.Within sevenChunks := by
  intro e he
  rcases mem_cons.mp he with rfl | he
  · intro r hr
    obtain rfl := mem_singleton.mp hr
    decide
  · obtain rfl := eq_of_mem_replicate he
    trivial

theorem twoRanges_within : twoRanges.Within sevenChunks := by
  intro r hr
  simp only [twoRanges,mem_cons,not_mem_nil,or_false] at hr
  rcases hr with rfl | rfl <;> decide

def singleRangeCache : DiskCache Unit :=
  (run (nextRetrieval byteSum sevenChunks) { cache := { capacity := 100 } } singleRangeCached).cache

/-- The block of one range finds its own chunks, and the block of two ranges finds them, too. -/
theorem retrieved_as_downloaded_one_range :
    (∃ r, Returns (singleRange.retrieveData byteSum sevenChunks singleRangeCache) r ∧
        ∃ data, r.data = some data ∧ singleRange.fill sevenChunks = some data) ∧
      ¬∃ r, Returns (twoRanges.retrieveData byteSum sevenChunks singleRangeCache) r ∧
        ∃ data, r.data = some data ∧ twoRanges.fill sevenChunks = some data := by
  have hbytes : ∀ x, (bytesOf (sevenChunks x)).length < 2 ^ 32 := by decide
  have hone : singleRange.Within sevenChunks :=
    singleRangeCached_within (.retrieve singleRange 10) mem_cons_self
  refine ⟨(retrieved_as_downloaded_iff hbytes singleRangeCached_within hone rfl).mpr
    fun _ => ⟨rfl,fun _ => ⟨by decide,by decide⟩⟩,fun h => ?_⟩
  have hrest := (retrieved_as_downloaded_iff hbytes singleRangeCached_within twoRanges_within
    rfl).mp h (by decide)
  exact absurd (hrest.2 rfl).1 (by decide)

/-- The block of two ranges finds the chunks of the block of one range, and has no offsets for its
other chunks. -/
theorem cached_range_fails_block :
    (∀ e ∈ singleRangeCached, e.Within sevenChunks) ∧ twoRanges.Within sevenChunks ∧
    (twoRanges.fill sevenChunks).isSome ∧
      ∃ r, twoRanges.retrieveData byteSum sevenChunks singleRangeCache 10 = some r ∧ r.data = none :=
  ⟨singleRangeCached_within,twoRanges_within,rfl,_,rfl,rfl⟩

end Histories
end XetCore.Reconstruction
