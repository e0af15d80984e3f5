import XetCore.Xorb.Ranges

/-! # Ranges of validated objects

Validation seeks to the start of each chunk, and the range reader walks on from where the
frame decoder stopped. The two agree as long as each decoder reads its payload to the end, or
leaves nothing but complete chunks without data.
-/
namespace XetCore.Xorb.XorbObject
open ByteSources Serialization Chunking Extents List
open Merkle (DataHash xorbHash)
variable {E : XorbEnv}

section Definitions
variable (E) (bytes : Bytes) (xorb : XorbObject)

def chunkStart (i : ℕ) : ℕ := (0 :: xorb.info.chunkBoundaryOffsets).getD i 0

/-- The ends of the decoded chunks. The older footer does not have them, and they are taken from the
headers. -/
def unpackedEnds : List ℕ :=
  if xorb.info.boundariesVersion = xorbObjectFormatBoundariesVersion then xorb.info.unpackedChunkOffsets
  else boundariesFrom 0 ((List.range xorb.info.numChunks).map fun i =>
    (XorbChunkHeader.ofBytes ((bytes.drop (xorb.chunkStart i)).take
      chunkHeaderLength)).uncompressedLength.val)

def unpackedStart (i : ℕ) : ℕ := (0 :: xorb.unpackedEnds bytes).getD i 0

/-- The data of chunks `i` to `j` split at the decoded ends, and the pieces have the hashes of the
footer. -/
def SplitsInto (i j : ℕ) (d : Bytes) : Prop :=
  d.length = xorb.unpackedStart bytes j - xorb.unpackedStart bytes i ∧
  ∀ k, i ≤ k → k < j → xorb.info.chunkHashes[k]? = some (E.dataHash (slice d
    (xorb.unpackedStart bytes k - xorb.unpackedStart bytes i)
    (xorb.unpackedStart bytes (k + 1) - xorb.unpackedStart bytes i)))

/-- What the decoder leaves of the payload of a chunk. -/
def unreadBytes (i : ℕ) : Bytes :=
  match (deserializeChunk E.lz4).run (slice bytes (xorb.chunkStart i) (xorb.chunkStart (i + 1))) with
  | .ok r => r.2
  | .error _ => []

/-- Each payload is read to its end, or up to complete chunks that hold nothing. -/
def PayloadsRead : Prop := ∀ i < xorb.info.numChunks, Blank E (xorb.unreadBytes E bytes i)

end Definitions

section Accepted
variable {cs : List (StoredChunk E.lz4)} {xorb : XorbObject}
variable {i : ℕ}

theorem getD_cons_boundariesFrom {ns : List ℕ} (hi : i ≤ ns.length) :
    (0 :: boundariesFrom 0 ns).getD i 0 = (ns.take i).sum := by
  cases i with
  | zero => rfl
  | succ i =>
    rw [getD_cons_succ,boundariesFrom_getD (by omega),Nat.zero_add]

section
variable (h : Tabled E xorb.info cs)
include h

theorem Tabled.chunkStart_eq (hi : i ≤ cs.length) :
    xorb.chunkStart i = ((cs.take i).flatMap StoredChunk.bytes).length := by
  rw [chunkStart,h.boundaries_eq,getD_cons_boundariesFrom (by simpa using hi),map_take_sum]

section
variable (tail : Bytes)

theorem Tabled.slice_eq {j : ℕ} (hij : i ≤ j) (hj : j ≤ cs.length) :
    slice (cs.flatMap StoredChunk.bytes ++ tail) (xorb.chunkStart i) (xorb.chunkStart j) =
      (slice cs i j).flatMap StoredChunk.bytes := by
  have hle' := take_flatMap_length_le StoredChunk.bytes cs hj
  rw [take_length] at hle'
  rw [h.chunkStart_eq (hij.trans hj),h.chunkStart_eq hj,slice_append_left tail hle']
  rw [← slice_flatMap StoredChunk.bytes cs hij]
  congr 1
  rw [← length_append,← flatMap_append,take_append_slice cs hij]

theorem Tabled.header_eq (hi : i < cs.length) :
    XorbChunkHeader.ofBytes (((cs.flatMap StoredChunk.bytes ++ tail).drop (xorb.chunkStart i)).take
      chunkHeaderLength) =
      cs[i].frame.header := by
  have hb : cs.flatMap StoredChunk.bytes ++ tail = (cs.take i).flatMap StoredChunk.bytes ++
      (writeChunkHeader cs[i].frame.header ++
        (cs[i].frame.payload ++ ((cs.drop (i + 1)).flatMap StoredChunk.bytes ++ tail))) := by
    nth_rewrite 1 [← take_append_drop i cs,drop_eq_getElem_cons hi]
    simp only [flatMap_append,flatMap_cons,StoredChunk.bytes,Frame.bytes,append_assoc]
  rw [h.chunkStart_eq hi.le,hb,drop_left,take_left' (writeChunkHeader_length _),ofBytes_writeChunkHeader]

theorem Tabled.unpackedStart_eq (hi : i ≤ cs.length) :
    xorb.unpackedStart (cs.flatMap StoredChunk.bytes ++ tail) i =
      ((cs.take i).flatMap StoredChunk.chunk).length := by
  have he : xorb.unpackedEnds (cs.flatMap StoredChunk.bytes ++ tail) =
    boundariesFrom 0 (cs.map fun c => c.chunk.length) := by
    unfold unpackedEnds
    split_ifs with hv
    · exact h.unpacked_eq hv
    · congr 1
      refine ext_getElem (by simp [h.numChunks_eq]) fun i hi hi' => ?_
      rw [length_map] at hi'
      rw [getElem_map,getElem_range,getElem_map,h.header_eq tail hi',cs[i].length_eq]
  rw [unpackedStart,he,getD_cons_boundariesFrom (by simpa using hi),map_take_sum]

theorem Tabled.unpackedStart_succ (hi : i < cs.length) :
    xorb.unpackedStart (cs.flatMap StoredChunk.bytes ++ tail) (i + 1) =
      xorb.unpackedStart (cs.flatMap StoredChunk.bytes ++ tail) i + cs[i].chunk.length := by
  rw [h.unpackedStart_eq tail hi,h.unpackedStart_eq tail hi.le,take_succ_eq_append_getElem hi,
    flatMap_append,length_append]
  simp

theorem Tabled.unpackedStart_le {j : ℕ} (hij : i ≤ j)
    (hj : j ≤ cs.length) : xorb.unpackedStart (cs.flatMap StoredChunk.bytes ++ tail) i ≤
      xorb.unpackedStart (cs.flatMap StoredChunk.bytes ++ tail) j := by
  rw [h.unpackedStart_eq tail hj,h.unpackedStart_eq tail (hij.trans hj)]
  exact take_flatMap_length_le StoredChunk.chunk cs hij

theorem Tabled.splitsInto_cons {j : ℕ} (hi : i < cs.length) (hij : i < j) (hj : j ≤ cs.length)
    {d : Bytes} (hd : SplitsInto E (cs.flatMap StoredChunk.bytes ++ tail) xorb (i + 1) j d) :
    SplitsInto E (cs.flatMap StoredChunk.bytes ++ tail) xorb i j (cs[i].chunk ++ d) := by
  have hn := h.unpackedStart_succ tail hi
  have hle : xorb.unpackedStart _ (i + 1) ≤ xorb.unpackedStart _ j := h.unpackedStart_le tail hij hj
  unfold SplitsInto at hd ⊢
  set U := xorb.unpackedStart (cs.flatMap StoredChunk.bytes ++ tail)
  obtain ⟨hlen,ha⟩ := hd
  refine ⟨by rw [length_append]; omega,fun k hk hkj => ?_⟩
  rcases Nat.eq_or_lt_of_le hk with rfl | hk
  · have hf : slice (cs[i].chunk ++ d) (U i - U i) (U (i + 1) - U i) = cs[i].chunk := by
      rw [Nat.sub_self,show U (i + 1) - U i = cs[i].chunk.length by omega,
        slice_append_left d le_rfl,slice_zero_length]
    rw [hf,h.hashes_eq,getElem?_map,getElem?_eq_getElem hi]
    rfl
  · -- behind the first chunk, the pieces are pieces of the rest
    have h₁ : U (i + 1) ≤ U k := h.unpackedStart_le tail hk (by omega)
    have h₂ : U k ≤ U (k + 1) := h.unpackedStart_le tail k.le_succ (by omega)
    have hs := slice_append_right cs[i].chunk d (U k - U (i + 1)) (U (k + 1) - U (i + 1))
    rw [show cs[i].chunk.length + (U k - U (i + 1)) = U k - U i by omega,
      show cs[i].chunk.length + (U (k + 1) - U (i + 1)) = U (k + 1) - U i by omega] at hs
    rw [ha k hk hkj,hs]

theorem Tabled.splitsInto {j : ℕ} (hij : i ≤ j) (hj : j ≤ cs.length) :
    SplitsInto E (cs.flatMap StoredChunk.bytes ++ tail) xorb i j
      ((slice cs i j).flatMap StoredChunk.chunk) := by
  -- from the last chunk of the range to the first one
  induction hn : j - i generalizing i with
  | zero =>
    obtain rfl : i = j := by omega
    rw [slice_self]
    exact ⟨(Nat.sub_self _).symm,fun _ hk hkj => absurd hk (Nat.not_le.mpr hkj)⟩
  | succ n ih =>
    have hi : i < cs.length := by omega
    rw [← slice_append_slice cs i.le_succ (show i + 1 ≤ j by omega),slice_succ hi,
      singleton_append,flatMap_cons]
    exact h.splitsInto_cons tail hi (by omega) hj (ih (by omega) (by omega))

end

end

theorem Tabled.unreadBytes_eq (h : Tabled E xorb.info cs) (tail : Bytes) (hi : i < cs.length) :
    xorb.unreadBytes E (cs.flatMap StoredChunk.bytes ++ tail) i = cs[i].unread := by
  have hr := cs[i].deserializeChunk_run []
  rw [append_nil,append_nil] at hr
  rw [unreadBytes,h.slice_eq tail i.le_succ hi,slice_succ hi,flatMap_cons,flatMap_nil,append_nil,hr]

end Accepted

/-- In a validated object with another hash than the default one, whose payloads are read to their
ends, every range of chunks decodes to data that split into pieces with the hashes of the footer. -/
theorem validated_ranges {bytes : Bytes} {hash : DataHash} {xorb : XorbObject}
    (hv : (validateXorbObject E bytes hash).run = .ok (some xorb)) (hn : xorb.info.numChunks ≠ 0)
    (hdefault : hash ≠ default) (hread : PayloadsRead E bytes xorb) :
    (∀ i j, i < j → j ≤ xorb.info.numChunks →
      ∃ d, xorb.getBytesByChunkRange E bytes i j = .ok d ∧ SplitsInto E bytes xorb i j d) ∧
    xorb.getAllBytes E bytes = xorb.getBytesByChunkRange E bytes 0 xorb.info.numChunks := by
  obtain ⟨cs,ha⟩ := (validateXorbObject_eq_ok hn).mp hv
  have ht := ha.tabled
  have hcheck := ht.validateXorbObjectInfo_eq hn
  have hlen := ht.numChunks_eq
  have hne : cs ≠ [] := ne_nil_of_length_pos (by omega)
  have hall := ht.getAllBytes_eq ha.chunks hne
  rw [ha.info_hash,if_pos hdefault] at hcheck
  obtain ⟨tail,rfl⟩ := ha.chunks
  have hblank : ∀ c ∈ cs, Blank E c.unread := by
    intro c hc
    obtain ⟨k,hk,rfl⟩ := mem_iff_getElem.mp hc
    rw [← ht.unreadBytes_eq tail hk]
    exact hread k (by omega)
  rw [← hlen]
  refine ⟨fun i j hij hj => ⟨_,?_,ht.splitsInto tail hij.le hj⟩,hall⟩
  rw [ht.getBytesByChunkRange_eq ⟨tail,rfl⟩ hcheck hij hj]
  exact getChunkContents_whole fun c hc => hblank c (mem_of_mem_slice hc)

/-- A run of three zeros and a byte. The codec reads one byte of the first payload, and `rest`
follows it. -/
def zerosAndByte (rest : Bytes) : Bytes :=
  writeChunkHeader (XorbChunkHeader.new .lz4 (1 + rest.length) 3) ++ (3 :: rest) ++
    writeChunkHeader (XorbChunkHeader.new .none 1 1) ++ [9]

def zerosAndByteInfo (rest : Bytes) : XorbObjectInfoV1 where
  xorbHash := xorbHash plainEnv.hasher [(plainEnv.dataHash [0,0,0],3),(plainEnv.dataHash [9],1)]
  chunkHashes := [plainEnv.dataHash [0,0,0],plainEnv.dataHash [9]]
  chunkBoundaryOffsets := [9 + rest.length,18 + rest.length]
  unpackedChunkOffsets := [3,4]
  numChunks := 2
  hashesSectionOffsetFromEnd := 132
  boundarySectionOffsetFromEnd := 56

def zerosAndByteObject (rest : Bytes) : Bytes :=
  zerosAndByte rest ++ (zerosAndByteInfo rest).footerBytes ++ writeU32 172

/-- A chunk without data, which may stand behind what the codec reads of a payload. -/
def emptyChunk : Bytes := writeChunkHeader (XorbChunkHeader.new .none 0 0)

/-- The first payload is read up to a chunk without data. -/
theorem validated_ranges_blank : (zerosAndByteInfo emptyChunk).numChunks ≠ 0 ∧
    PayloadsRead plainEnv (zerosAndByteObject emptyChunk) ⟨zerosAndByteInfo emptyChunk,172⟩ ∧
    ∀ i j, i < j → j ≤ 2 →
      ∃ d, getBytesByChunkRange ⟨zerosAndByteInfo emptyChunk,172⟩ plainEnv
          (zerosAndByteObject emptyChunk) i j = .ok d ∧
        SplitsInto plainEnv (zerosAndByteObject emptyChunk) ⟨zerosAndByteInfo emptyChunk,172⟩
          i j d := by
  have hv : (validateXorbObject plainEnv (zerosAndByteObject emptyChunk)
      (zerosAndByteInfo emptyChunk).xorbHash).run =
        .ok (some ⟨zerosAndByteInfo emptyChunk,172⟩) := by decide +kernel
  have hn : (zerosAndByteInfo emptyChunk).numChunks ≠ 0 := by decide
  have hread : PayloadsRead plainEnv (zerosAndByteObject emptyChunk)
      ⟨zerosAndByteInfo emptyChunk,172⟩ := by
    intro i hi
    have hi : i < 2 := hi
    interval_cases i
    · exact ⟨[⟨XorbChunkHeader.new .none 0 0,[],by decide,rfl⟩],
        by simpa using ⟨by decide,by decide⟩,by decide +kernel⟩
    · exact blank_of_eq_nil (by decide +kernel)
  exact ⟨hn,hread,(validated_ranges hv hn (by decide +kernel) hread).1⟩

/-- The validator accepts a chunk with a byte behind the part that the decoder reads. The range
reader takes that byte for the start of the next header. -/
theorem validated_range_fails :
    (validateXorbObject plainEnv (zerosAndByteObject [77]) (zerosAndByteInfo [77]).xorbHash).run =
      .ok (some ⟨zerosAndByteInfo [77],172⟩) ∧
    getBytesByChunkRange ⟨zerosAndByteInfo [77],172⟩ plainEnv (zerosAndByteObject [77]) 0 2 =
      .error (.malformedData "chunk header version too high at 77, current version is 0") := by
  decide +kernel

end XetCore.Xorb.XorbObject
