import XetCore.Lib.Extent
import XetCore.Xorb.ObjectInfoSpec
import XetCore.Xorb.Validation

/-! # Reading ranges of chunks

In an accepted object the table of stored ends gives the bytes of any range of chunks. They
are decoded one chunk after the other, and what a decoder leaves of a chunk is taken for
the start of the next one.
-/
namespace XetCore.Xorb.XorbObject
open ByteSources Serialization Chunking Extents List
open Merkle (DataHash)
variable {E : XorbEnv} {hash : DataHash} {xorb : XorbObject} {cs : List (StoredChunk E.lz4)}

theorem getChunkContentsLoop_append (fuel : ℕ) (reader res : Bytes) :
    getChunkContentsLoop E fuel reader res = (getChunkContentsLoop E fuel reader []).map (res ++ ·) := by
  induction fuel generalizing reader res with
  | zero => simp [getChunkContentsLoop,pure,Except.pure,Except.map]
  | succ fuel ih =>
    rw [getChunkContentsLoop,getChunkContentsLoop]
    split
    · simp [pure,Except.pure,Except.map]
    · cases (deserializeChunk E.lz4).run reader with
      | error e => rfl
      | ok r =>
        change getChunkContentsLoop E fuel r.2 (res ++ r.1.1) =
          (getChunkContentsLoop E fuel r.2 ([] ++ r.1.1)).map _
        rw [ih r.2 (res ++ r.1.1),ih r.2 ([] ++ r.1.1)]
        cases getChunkContentsLoop E fuel r.2 [] <;> simp [Except.map]

theorem getChunkContentsLoop_fuel {f g : ℕ} {reader : Bytes} (hf : reader.length < f)
    (hg : reader.length < g)
    (res : Bytes) : getChunkContentsLoop E f reader res = getChunkContentsLoop E g reader res := by
  induction f generalizing g reader res with
  | zero => exact absurd hf (Nat.not_lt_zero _)
  | succ f ih =>
    obtain ⟨g,rfl⟩ := Nat.exists_eq_succ_of_ne_zero (Nat.ne_zero_of_lt hg)
    rw [getChunkContentsLoop,getChunkContentsLoop]
    split
    · rfl
    · cases hr : (deserializeChunk E.lz4).run reader with
      | error e => rfl
      | ok r =>
        obtain ⟨hlen,-,-⟩ := deserializeChunk_length hr
        exact ih (by omega) (by omega) _

theorem getChunkContents_cons {t : Bytes} (h : t ≠ []) :
    getChunkContents E t = (deserializeChunk E.lz4).run t >>= fun r =>
      (getChunkContents E r.2).map (r.1.1 ++ ·) := by
  rw [getChunkContents,getChunkContentsLoop,if_neg (by simpa using h)]
  cases hr : (deserializeChunk E.lz4).run t with
  | error e => rfl
  | ok r =>
    obtain ⟨hlen,-,-⟩ := deserializeChunk_length hr
    change getChunkContentsLoop E t.length r.2 ([] ++ r.1.1) = (getChunkContents E r.2).map _
    rw [nil_append,getChunkContentsLoop_append,getChunkContents,
      getChunkContentsLoop_fuel (by omega) (Nat.lt_succ_self r.2.length)]

theorem getChunkContents_stored (c : StoredChunk E.lz4) (rest : Bytes) :
    getChunkContents E (c.bytes ++ rest) = (getChunkContents E (c.unread ++ rest)).map
      (c.chunk ++ ·) := by
  have hne : c.bytes ++ rest ≠ [] := by
    have hlen := c.bytes_length
    exact ne_nil_of_length_pos (by rw [length_append]; omega)
  rw [getChunkContents_cons hne,c.deserializeChunk_run]
  rfl

/-- Complete frames that are read to their ends and hold nothing. -/
def Blank (E : XorbEnv) (bytes : Bytes) : Prop :=
  ∃ frames : List Frame, (∀ f ∈ frames, f.Holds E.lz4 []) ∧ bytes = frames.flatMap Frame.bytes

theorem blank_of_eq_nil {bytes : Bytes} (h : bytes = []) : Blank E bytes := ⟨[],by simp,h⟩

theorem getChunkContents_blank {blank : Bytes} (h : Blank E blank) (rest : Bytes) :
    getChunkContents E (blank ++ rest) = getChunkContents E rest := by
  obtain ⟨frames,hf,rfl⟩ := h
  induction frames with
  | nil => rfl
  | cons f frames ih =>
    obtain ⟨hf,hfs⟩ := forall_mem_cons.mp hf
    have hu : (StoredChunk.mk f [] f.payload.length hf.decode_eq hf.length_eq).unread = [] :=
      drop_length
    have hs := getChunkContents_stored (E := E) ⟨f,[],_,hf.decode_eq,hf.length_eq⟩
      (frames.flatMap Frame.bytes ++ rest)
    rw [hu,nil_append,ih hfs] at hs
    rw [flatMap_cons,append_assoc]
    refine hs.trans ?_
    cases getChunkContents E rest <;> rfl

/-- Chunks that are read to their ends, or up to frames that hold nothing, decode to themselves. -/
theorem getChunkContents_whole {cs : List (StoredChunk E.lz4)} (h : ∀ c ∈ cs, Blank E c.unread) :
    getChunkContents E (cs.flatMap StoredChunk.bytes) = .ok (cs.flatMap StoredChunk.chunk) := by
  induction cs with
  | nil => rfl
  | cons c cs ih =>
    obtain ⟨hc,hcs⟩ := forall_mem_cons.mp h
    rw [flatMap_cons,getChunkContents_stored,getChunkContents_blank hc,ih hcs,flatMap_cons]
    rfl

section Offsets
variable (f : StoredChunk E.lz4 → Bytes) {i : ℕ} {ns : List ℕ}

theorem boundariesFrom_getElem? (hi : i < ns.length) :
    (boundariesFrom 0 ns)[i]? = some (ns.take (i + 1)).sum := by
  have hlt : i < (boundariesFrom 0 ns).length := by simpa using hi
  have h := boundariesFrom_getD hi 0
  rw [getD_eq_getElem?_getD,getElem?_eq_getElem hlt,Option.getD_some,Nat.zero_add] at h
  rw [getElem?_eq_getElem hlt,h]

theorem offsetBefore_boundariesFrom (hi : i ≤ ns.length) :
    offsetBefore (boundariesFrom 0 ns) i = .ok (ns.take i).sum := by
  unfold offsetBefore
  split_ifs with h
  · rw [h]
    rfl
  · rw [boundariesFrom_getElem? (by omega),Nat.sub_add_cancel (by omega)]
    rfl

theorem map_take_sum (cs : List (StoredChunk E.lz4)) (i : ℕ) :
    ((cs.map fun c => (f c).length).take i).sum = ((cs.take i).flatMap f).length := by
  rw [← map_take,length_flatMap]

theorem offsetBefore_ends (hi : i ≤ cs.length) :
    offsetBefore (boundariesFrom 0 (cs.map fun c => (f c).length)) i =
      .ok ((cs.take i).flatMap f).length := by
  rw [offsetBefore_boundariesFrom (by simpa using hi),map_take_sum]

theorem ends_getElem? {j : ℕ} (hij : i < j) (hj : j ≤ cs.length) :
    (boundariesFrom 0 (cs.map fun c => (f c).length))[j - 1]? = some ((cs.take j).flatMap f).length := by
  rw [boundariesFrom_getElem? (by simp; omega),map_take_sum,Nat.sub_add_cancel (by omega)]

end Offsets

section Tables
variable {bytes rest : Bytes}
variable {i j : ℕ}

structure Tabled (E : XorbEnv) (info : XorbObjectInfoV1) (cs : List (StoredChunk E.lz4)) : Prop where
  listed : info.Listed
  numChunks_eq : cs.length = info.numChunks
  hashes_eq : info.chunkHashes = cs.map fun c => E.dataHash c.chunk
  boundaries_eq : info.chunkBoundaryOffsets = boundariesFrom 0 (cs.map fun c => c.bytes.length)
  unpacked_eq : info.boundariesVersion = xorbObjectFormatBoundariesVersion →
    info.unpackedChunkOffsets = boundariesFrom 0 (cs.map fun c => c.chunk.length)

theorem seekEnd_eq_ok {n : ℕ} :
    seekEnd bytes n = .ok rest ↔ n ≤ bytes.length ∧ rest = bytes.drop (bytes.length - n) := by
  unfold seekEnd
  split_ifs with h
  · exact ⟨fun hr => ⟨h,(Except.ok.inj hr).symm⟩,fun hr => by rw [hr.2]⟩
  · exact ⟨fun hr => (nomatch hr),fun hr => absurd hr.1 h⟩

/-- What is read is a footer at the end of the object, behind which its length is stored. -/
theorem deserialize_eq_ok (h : deserialize bytes = .ok (xorb,rest)) : ∃ front e, xorb.info.Recognised e ∧
    e.length < 2 ^ 32 ∧ xorb.infoLength = e.length ∧ rest = writeU32 e.length ∧
    bytes = front ++ (e ++ rest) := by
  simp only [deserialize,getInfoLength,bind_eq_ok,ensure_eq_ok,seekEnd_eq_ok] at h
  obtain ⟨_,⟨_,⟨hle,rfl⟩,⟨k,l⟩,hl,⟨⟩⟩,_,⟨hle',rfl⟩,⟨⟨info,n⟩,rest⟩,hr,_,hn,⟨⟩⟩ := h
  dsimp only at hn hle' hr ⊢
  obtain ⟨e,hs,hlen,hre⟩ := XorbObjectInfoV1.parses_deserialize _ _ _ hr
  obtain ⟨_,hs',hlt,rfl⟩ := parses_u32 _ _ _ hl
  have hsl := congrArg List.length hs
  have hsl' := congrArg List.length hs'
  simp only [length_drop,length_append,length_writeU32] at hsl hsl'
  obtain rfl : l = [] := length_eq_zero_iff.mp (by omega)
  -- A footer of 4 GiB or more would end behind the length that is stored for it.
  have hk : k = e.length := by
    simp only [asU32] at hlen
    omega
  have hd := congrArg (drop e.length) hs
  rw [drop_drop,drop_left,show bytes.length - (4 + k) + e.length = bytes.length - 4 by omega,hs',
    append_nil] at hd
  rw [hk] at hd
  exact ⟨_,e,hre,hk ▸ hlt,hk,hd.symm,by rw [← hs,take_append_drop]⟩

theorem Accepts.tabled (h : Accepts E bytes hash xorb cs) : Tabled E xorb.info cs := by
  obtain ⟨rest,hf⟩ := h.footer
  obtain ⟨-,e,hr,-⟩ := deserialize_eq_ok hf
  have hl := hr.listed
  have hlen := h.numChunks_eq
  obtain ⟨hh,hb,hu,-,-⟩ := (describes_iff (by decide) (by decide) (by rw [hl.hashes_length]; omega)
    (by rw [hl.boundaries_length]; omega) (fun hv => by rw [hl.unpacked_length hv]; omega)).mp h.describes
  exact ⟨hl,hlen,hh,hb,hu⟩

/-- An accepted object passes the check of its tables unless its hash is the default hash. -/
theorem Tabled.validateXorbObjectInfo_eq (h : Tabled E xorb.info cs) (hn : xorb.info.numChunks ≠ 0) :
    xorb.validateXorbObjectInfo = if xorb.info.xorbHash ≠ default then .ok ()
      else .error (.malformedData "Invalid XorbObjectInfo, Missing xorb_hash.") := by
  have hlt := h.listed.numChunks_lt
  have hb : asU32 xorb.info.chunkBoundaryOffsets.length = xorb.info.numChunks := by
    rw [h.listed.boundaries_length,asU32_of_lt hlt]
  have hh : asU32 xorb.info.chunkHashes.length = xorb.info.numChunks := by
    rw [h.listed.hashes_length,asU32_of_lt hlt]
  have hu (hv : xorb.info.boundariesVersion = xorbObjectFormatBoundariesVersion) :
      asU32 xorb.info.unpackedChunkOffsets.length = xorb.info.numChunks := by
    rw [h.listed.unpacked_length hv,asU32_of_lt hlt]
  rw [validateXorbObjectInfo,ensure,if_pos hn,ensure,if_pos]
  · rfl
  · rintro (hne | hne | ⟨hv,hne⟩)
    · exact hne hb.symm
    · exact hne hh.symm
    · exact hne (hu hv).symm

theorem Tabled.getByteOffset_eq (h : Tabled E xorb.info cs) (hin : xorb.validateXorbObjectInfo = .ok ())
    (hij : i < j) (hj : j ≤ cs.length) : xorb.getByteOffset i j =
      .ok (((cs.take i).flatMap StoredChunk.bytes).length,
        ((cs.take j).flatMap StoredChunk.bytes).length) := by
  have hj' : j ≤ xorb.info.numChunks := h.numChunks_eq ▸ hj
  simp only [getByteOffset,bind_eq_ok,ensure_eq_ok,unwrap_eq_ok,h.boundaries_eq]
  exact ⟨(),hin,(),by omega,_,offsetBefore_ends StoredChunk.bytes (by omega),_,
    ends_getElem? StoredChunk.bytes hij hj,rfl⟩

theorem Tabled.getContentsLength_eq (h : Tabled E xorb.info cs)
    (hin : xorb.validateXorbObjectInfo = .ok ())
    (hne : cs ≠ []) : xorb.getContentsLength = .ok (cs.flatMap StoredChunk.bytes).length := by
  have hp := length_pos_iff.mpr hne
  have hl := ends_getElem? StoredChunk.bytes hp le_rfl
  rw [take_length] at hl
  have hl' : xorb.info.chunkBoundaryOffsets.getLast? = some (cs.flatMap StoredChunk.bytes).length := by
    rw [h.boundaries_eq,getLast?_eq_getElem?,boundariesFrom_length,length_map]
    exact hl
  rw [getContentsLength,hin,hl']
  rfl

theorem take_flatMap_length_le (f : StoredChunk E.lz4 → Bytes) (cs : List (StoredChunk E.lz4))
    (hij : i ≤ j) :
    ((cs.take i).flatMap f).length ≤ ((cs.take j).flatMap f).length := by
  rw [← take_append_slice cs hij,flatMap_append,length_append]
  omega

theorem getRange_eq (hin : xorb.validateXorbObjectInfo = .ok ()) {a b total : ℕ}
    (hlen : xorb.getContentsLength = .ok total) (hab : a ≤ b) (hb : b ≤ total)
    (ht : total ≤ bytes.length) :
    xorb.getRange E bytes a b = getChunkContents E (slice bytes a b) := by
  have hm : min b total - a = b - a := by omega
  have hr : (readBytes (b - a)).run (bytes.drop a) =
    .ok (slice bytes a b,(bytes.drop a).drop (b - a)) := by
    rw [readBytes,readExact_cursor,if_pos (by rw [length_drop]; omega)]
    rfl
  rw [getRange,ensure,if_pos (by omega),ok_bind,hin,ok_bind,hlen,ok_bind,subU32_of_le (by omega),
    hm,ok_bind,hr]
  rfl

/-- The bytes that are read for a range of chunks are those of the chunks. -/
theorem Tabled.getBytesByChunkRange_eq (h : Tabled E xorb.info cs)
    (hb : ∃ tail, bytes = cs.flatMap StoredChunk.bytes ++ tail)
    (hin : xorb.validateXorbObjectInfo = .ok ()) (hij : i < j) (hj : j ≤ cs.length) :
    xorb.getBytesByChunkRange E bytes i j =
      getChunkContents E ((slice cs i j).flatMap StoredChunk.bytes) := by
  obtain ⟨tail,rfl⟩ := hb
  have hne : cs ≠ [] := ne_nil_of_length_pos (by omega)
  have hle := take_flatMap_length_le StoredChunk.bytes cs hij.le
  have hle' := take_flatMap_length_le StoredChunk.bytes cs hj
  rw [take_length] at hle'
  rw [getBytesByChunkRange,h.getByteOffset_eq hin hij hj,ok_bind,
    getRange_eq hin (h.getContentsLength_eq hin hne) hle hle' (by rw [length_append]; omega),
    slice_append_left tail hle']
  congr 1
  rw [← slice_flatMap StoredChunk.bytes cs hij.le]
  congr 1
  rw [← length_append,← flatMap_append,take_append_slice cs hij.le]

/-- All bytes are those of all chunks, and both calls fail for the default hash. -/
theorem Tabled.getAllBytes_eq (h : Tabled E xorb.info cs)
    (hb : ∃ tail, bytes = cs.flatMap StoredChunk.bytes ++ tail)
    (hne : cs ≠ []) : xorb.getAllBytes E bytes = xorb.getBytesByChunkRange E bytes 0 cs.length := by
  have hp := length_pos_iff.mpr hne
  have hv := h.validateXorbObjectInfo_eq (by rw [← h.numChunks_eq]; omega)
  split_ifs at hv with hd
  · obtain ⟨tail,rfl⟩ := hb
    have hlen := h.getContentsLength_eq hv hne
    rw [h.getBytesByChunkRange_eq ⟨tail,rfl⟩ hv hp le_rfl,slice_zero_length,getAllBytes,hv,ok_bind,
      hlen,ok_bind,getRange_eq hv hlen (Nat.zero_le _) le_rfl (by rw [length_append]; omega),
      slice_append_left tail le_rfl,slice_zero_length]
  · rw [getAllBytes,hv,getBytesByChunkRange,getByteOffset,hv]
    rfl

/-- The length of a range in a current footer is that of its decoded chunks. -/
theorem Tabled.uncompressedRangeLength_eq (h : Tabled E xorb.info cs)
    (hv : xorb.info.boundariesVersion = xorbObjectFormatBoundariesVersion)
    (hin : xorb.validateXorbObjectInfo = .ok ()) (hij : i < j) (hj : j ≤ cs.length) :
    xorb.uncompressedRangeLength i j = .ok ((slice cs i j).flatMap StoredChunk.chunk).length := by
  have hj' : j ≤ xorb.info.numChunks := h.numChunks_eq ▸ hj
  have hle := take_flatMap_length_le StoredChunk.chunk cs hij.le
  have hs : ((cs.take i).flatMap StoredChunk.chunk).length +
    ((slice cs i j).flatMap StoredChunk.chunk).length =
      ((cs.take j).flatMap StoredChunk.chunk).length := by
    rw [← length_append,← flatMap_append,take_append_slice cs hij.le]
  rw [uncompressedRangeLength,hin,ok_bind,ensure,if_pos (by omega),ok_bind,if_neg (by omega),
    h.unpacked_eq hv,offsetBefore_ends StoredChunk.chunk (by omega),ok_bind,ends_getElem?
      StoredChunk.chunk hij hj,
    unwrap,ok_bind,subU32_of_le hle]
  congr 1
  omega

end Tables
end XetCore.Xorb.XorbObject
