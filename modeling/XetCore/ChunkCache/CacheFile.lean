import XetCore.Lib.Extent
import XetCore.Lib.Interval
import XetCore.Serialization.Primitives

/-! # Files of the chunk cache

A cache file holds the bytes of consecutive chunks. Its header lists where the chunks
start and where the last one ends. A range of the chunks is cut out by the positions
in the header.
-/
namespace XetCore.ChunkCache
open ByteSources LittleEndian Serialization Extents Intervals List

abbrev ChunkRange := Range

inductive ChunkCacheError where
  | io (kind : IoErrorKind)
  | parse (message : String)
  | badRange
  | invalidArguments
  | general
  /-- The call panics: an arithmetic overflow or an index out of bounds. -/
  | panicked
deriving DecidableEq, Repr

structure CacheFileHeader where
  chunkByteIndices : List ℕ
deriving DecidableEq, Repr

structure CacheRange where
  offsets : List ℕ
  data : Bytes
  range : ChunkRange
deriving DecidableEq, Repr

namespace CacheFileHeader

def headerLen (h : CacheFileHeader) : ℕ := (h.chunkByteIndices.length + 1) * 4

def serialize (h : CacheFileHeader) : Bytes :=
  writeU32 (asU32 h.chunkByteIndices.length) ++ h.chunkByteIndices.flatMap writeU32

def readIndex : Reader Bytes ChunkCacheError ℕ := ofLE <$> readExact (.io .unexpectedEof) 4

/-- Reads that many indices behind those that were read before. -/
def readIndices : ℕ → List ℕ → Reader Bytes ChunkCacheError (List ℕ)
  | 0, chunkByteIndices => pure chunkByteIndices
  | n + 1, chunkByteIndices => do
    let idx ← readIndex
    if chunkByteIndices = [] ∧ idx ≠ 0 then throw (.parse "first byte index isn't 0")
    else if chunkByteIndices.getLast?.any (idx ≤ ·) then
      throw (.parse "chunk byte indices are not strictly increasing")
    else readIndices n (chunkByteIndices ++ [idx])

def deserialize (file : Bytes) : Except ChunkCacheError CacheFileHeader := do
  let (chunkByteIndices,_) ← (do
    let chunkByteIndicesLen ← readIndex
    readIndices chunkByteIndicesLen [] : Reader Bytes ChunkCacheError (List ℕ)).run file
  return ⟨chunkByteIndices⟩

end CacheFileHeader

def strictlyIncreasing : List ℕ → Bool
  | a :: b :: rest => a < b && strictlyIncreasing (b :: rest)
  | _ => true

/-- The chunks of a range, from a file whose first chunk has index `start`. -/
def getRangeFromCacheFile (header : CacheFileHeader) (fileContents : Bytes) (range : ChunkRange)
    (start : ℕ) :
    Except ChunkCacheError CacheRange :=
  if range.start < start ∨ range.stop < start then .error .panicked
  else
    let startIdx := range.start - start
    let endIdx := range.stop - start
    match header.chunkByteIndices[startIdx]?, header.chunkByteIndices[endIdx]? with
    | some startByte, some endByte =>
      if endByte < startByte then .error .panicked
      else
        let data := slice fileContents (startByte + header.headerLen) (endByte + header.headerLen)
        if data.length = endByte - startByte then
          .ok ⟨(slice header.chunkByteIndices startIdx (endIdx + 1)).map (· - startByte),data,range⟩
        else .error (.io .unexpectedEof)
    | _, _ => .error .badRange

section Offsets
variable (n : ℕ) {chunks : List Bytes}

/-- Where chunks start that are stored from a position on, and where the last one ends. -/
def startOffsets : ℕ → List Bytes → List ℕ
  | position, [] => [position]
  | position, chunk :: chunks => position :: startOffsets (position + chunk.length) chunks

@[simp] theorem startOffsets_length (chunks : List Bytes) :
    (startOffsets n chunks).length = chunks.length + 1 := by
  induction chunks generalizing n with
  | nil => rfl
  | cons c chunks ih => rw [startOffsets,length_cons,ih,length_cons]

theorem startOffsets_getElem? {i : ℕ} (hi : i ≤ chunks.length) :
    (startOffsets n chunks)[i]? = some (n + (chunks.take i).flatten.length) := by
  induction chunks generalizing n i with
  | nil =>
    obtain rfl : i = 0 := by simpa using hi
    rfl
  | cons c chunks ih =>
    cases i with
    | zero => rfl
    | succ i =>
      rw [startOffsets,getElem?_cons_succ,ih _ (by simpa using hi)]
      simp [Nat.add_assoc]

theorem startOffsets_drop {i : ℕ} (hi : i ≤ chunks.length) :
    (startOffsets n chunks).drop i = startOffsets (n + (chunks.take i).flatten.length)
    (chunks.drop i) := by
  induction chunks generalizing n i with
  | nil =>
    obtain rfl : i = 0 := by simpa using hi
    rfl
  | cons c chunks ih =>
    cases i with
    | zero => rfl
    | succ i =>
      rw [startOffsets,drop_succ_cons,ih _ (by simpa using hi)]
      simp [Nat.add_assoc]

theorem startOffsets_take (chunks : List Bytes) (i : ℕ) :
    (startOffsets n chunks).take (i + 1) = startOffsets n (chunks.take i) := by
  induction chunks generalizing n i with
  | nil => simp
  | cons c chunks ih =>
    cases i with
    | zero => rfl
    | succ i => rw [startOffsets,take_succ_cons,ih,take_succ_cons,startOffsets]

theorem map_sub_startOffsets (chunks : List Bytes) (m : ℕ) :
    (startOffsets (m + n) chunks).map (· - n) = startOffsets m chunks := by
  induction chunks generalizing m with
  | nil => simp [startOffsets]
  | cons c chunks ih =>
    rw [startOffsets,map_cons,Nat.add_sub_cancel,startOffsets,Nat.add_right_comm,ih]

theorem le_of_mem_startOffsets {n m : ℕ} (h : m ∈ startOffsets n chunks) :
    n ≤ m ∧ m ≤ n + chunks.flatten.length := by
  induction chunks generalizing n with
  | nil =>
    obtain rfl := mem_singleton.mp h
    simp
  | cons c chunks ih =>
    rcases mem_cons.mp h with rfl | h
    · exact ⟨le_rfl,Nat.le_add_right _ _⟩
    · obtain ⟨hlo,hhi⟩ := ih h
      rw [flatten_cons,length_append]
      omega

end Offsets

theorem strictlyIncreasing_iff {indices : List ℕ} :
    strictlyIncreasing indices = true ↔ indices.Pairwise (· < ·) := by
  induction indices with
  | nil => simp [strictlyIncreasing]
  | cons a rest ih =>
    cases rest with
    | nil => simp [strictlyIncreasing]
    | cons b rest =>
      rw [strictlyIncreasing,Bool.and_eq_true,ih,decide_eq_true_eq,pairwise_cons (a := a)]
      refine and_congr_left fun hr => ⟨fun hab c hc => ?_,fun h => h b mem_cons_self⟩
      rcases mem_cons.mp hc with rfl | hc
      · exact hab
      · exact hab.trans ((pairwise_cons.mp hr).1 c hc)

namespace CacheFileHeader

theorem reads_index {n : ℕ} (h : n < 2 ^ 32) : Reads readIndex (writeU32 n) n := by
  have hr := (reads_readExact (ε := ChunkCacheError) (.io .unexpectedEof) (toLE 4 n)).map ofLE
  rwa [toLE_length,ofLE_toLE (by simpa using h)] at hr

theorem reads_indices {indices : List ℕ} (before : List ℕ) (hin : (before ++ indices).Pairwise (· < ·))
    (hz : (before ++ indices).head? = some 0) (hlt : ∀ n ∈ indices, n < 2 ^ 32) :
    Reads (readIndices indices.length before) (indices.flatMap writeU32) (before ++ indices) := by
  induction indices generalizing before with
  | nil =>
    rw [append_nil]
    exact reads_pure before
  | cons n indices ih =>
    have hl : before.getLast?.any (n ≤ ·) = false := by
      cases hb : before.getLast? with
      | none => rfl
      | some m =>
        have hmn := (pairwise_append.mp hin).2.2 m (mem_of_getLast? hb) n mem_cons_self
        simpa using hmn
    have hf : ¬(before = [] ∧ n ≠ 0) := by
      rintro ⟨rfl,hn⟩
      exact hn (by simpa using hz)
    have hr := ih (before ++ [n]) (by simpa using hin) (by simpa using hz)
      fun m hm => hlt m (mem_cons_of_mem _ hm)
    rw [append_assoc,singleton_append] at hr
    refine Reads.bind (reads_index (hlt n mem_cons_self)) ?_
    simp only [if_neg hf,hl,Bool.false_eq_true]
    exact hr

theorem deserialize_serialize {h : CacheFileHeader} (hic : h.chunkByteIndices.Pairwise (· < ·))
    (hz : h.chunkByteIndices.head? = some 0) (hlt : ∀ n ∈ h.chunkByteIndices, n < 2 ^ 32)
    (hlen : h.chunkByteIndices.length < 2 ^ 32) (rest : Bytes) :
    deserialize (h.serialize ++ rest) = .ok h := by
  have hin := reads_indices [] hic hz hlt
  have hr := (reads_index hlen).bind (f := fun n => readIndices n []) hin rest
  unfold deserialize serialize
  rw [asU32_of_lt hlen,hr]
  rfl

@[simp] theorem serialize_length (h : CacheFileHeader) : h.serialize.length = h.headerLen := by
  rw [serialize,length_append,length_flatMap_eq length_writeU32,headerLen,length_writeU32]
  omega

end CacheFileHeader

def cacheFile (chunks : List Bytes) : Bytes :=
  (CacheFileHeader.mk (startOffsets 0 chunks)).serialize ++ chunks.flatten

/-- The part of a cached range is made of its own chunks. -/
theorem getRangeFromCacheFile_cacheFile {chunks : List Bytes} {range : ChunkRange} {start : ℕ}
    (hsr : start ≤ range.start) (hle : range.start ≤ range.stop)
    (hst : range.stop - start ≤ chunks.length) :
    getRangeFromCacheFile ⟨startOffsets 0 chunks⟩ (cacheFile chunks) range start =
      .ok ⟨startOffsets 0 (slice chunks (range.start - start) (range.stop - start)),
        (slice chunks (range.start - start) (range.stop - start)).flatten,range⟩ := by
  set i := range.start - start with hi
  set j := range.stop - start with hj
  have hij : i ≤ j := by omega
  have ht : (chunks.take j).flatten = (chunks.take i).flatten ++ (slice chunks i j).flatten := by
    rw [← flatten_append,take_append_slice chunks hij]
  have hd : slice (cacheFile chunks)
    ((chunks.take i).flatten.length + (CacheFileHeader.mk (startOffsets 0 chunks)).headerLen)
      ((chunks.take j).flatten.length + (CacheFileHeader.mk (startOffsets 0 chunks)).headerLen) =
        (slice chunks i j).flatten := by
    have hs := slice_flatMap id chunks hij
    simp only [flatMap_id] at hs
    rw [cacheFile,← CacheFileHeader.serialize_length,Nat.add_comm,
      Nat.add_comm (chunks.take j).flatten.length,slice_append_right,ht,length_append,hs]
  have ho : (slice (startOffsets 0 chunks) i (j + 1)).map (· - (chunks.take i).flatten.length) =
      startOffsets 0 (slice chunks i j) := by
    rw [slice,startOffsets_drop 0 (by omega),show j + 1 - i = j - i + 1 by omega,startOffsets_take,
      map_sub_startOffsets]
    rfl
  unfold getRangeFromCacheFile
  rw [if_neg (by omega)]
  simp only [← hi,← hj,startOffsets_getElem? 0 hst,startOffsets_getElem? 0 (hij.trans hst),
    Nat.zero_add,hd,ho]
  rw [if_neg (by rw [ht,length_append]; omega),if_pos (by rw [ht,length_append]; omega)]

end XetCore.ChunkCache
