import XetCore.Xorb.Ranges

/-! # Objects made of stored chunks

The footer of some stored chunks, as both writers build it. An object that consists of the
chunks and this footer is accepted by validation, as long as its length has 32 bits and
the last chunk is read to its end.
-/
namespace XetCore.Xorb.XorbObject
open ByteSources Serialization Chunking Extents List
open Merkle (xorbHash)
variable {E : XorbEnv}

section Footer
variable {info : XorbObjectInfoV1}

/-- A footer is found at the end of any bytes, behind which its length is stored. -/
theorem deserialize_append {e : Bytes} (h : info.Recognised e) (hlt : e.length < 2 ^ 32) (front : Bytes) :
    deserialize (front ++ (e ++ writeU32 e.length)) = .ok (⟨info,e.length⟩,writeU32 e.length) := by
  set n := e.length with hn
  set bytes := front ++ (e ++ writeU32 n) with hb
  have ht : bytes.length = front.length + n + 4 := by
    rw [hb,length_append,length_append,length_writeU32]
    omega
  have hl : seekEnd bytes 4 = .ok (writeU32 n) := by
    refine seekEnd_eq_ok.mpr ⟨by omega,?_⟩
    have hfr : (front ++ e).length = bytes.length - 4 := by
      rw [ht,length_append]
      omega
    rw [← hfr,hb,← append_assoc,drop_left]
  have hr : (readU32 : Reader Bytes CoreError ℕ).run (writeU32 n) = .ok (n,[]) := by
    have h := reads_u32 hlt []
    rwa [append_nil] at h
  have hf : seekEnd bytes (4 + n) = .ok (e ++ writeU32 n) := by
    refine seekEnd_eq_ok.mpr ⟨by omega,?_⟩
    rw [show bytes.length - (4 + n) = front.length by omega,hb,drop_left]
  have hin := h.reads (writeU32 n)
  rw [← hn,asU32_of_lt hlt] at hin
  rw [deserialize,getInfoLength,hl,ok_bind,hr,ok_bind,pure_bind,hf,ok_bind,hin,ok_bind,ensure,if_pos rfl]
  rfl

/-- An object is read if and only if it ends with a footer and the length of the footer. -/
theorem deserialize_ok_iff (bytes rest : Bytes) (xorb : XorbObject) :
    deserialize bytes = .ok (xorb,rest) ↔
    ∃ front e, xorb.info.Recognised e ∧ e.length < 2 ^ 32 ∧ xorb.infoLength = e.length ∧
    rest = writeU32 e.length ∧
      bytes = front ++ (e ++ rest) := by
  refine ⟨deserialize_eq_ok,?_⟩
  rintro ⟨front,e,hr,hlt,hle,rfl,rfl⟩
  exact (deserialize_append hr hlt front).trans (by rw [← hle])

theorem serialize_eq_ok (h : info.numChunks = info.chunkHashes.length)
    (h' : info.numChunks = info.chunkBoundaryOffsets.length)
    (h'' : info.numChunks = info.unpackedChunkOffsets.length) :
    info.serialize = .ok info.footerBytes := by
  simp only [XorbObjectInfoV1.serialize,bind_eq_ok,ensure_eq_ok]
  exact ⟨(),h,(),h',(),h'',rfl⟩

end Footer

section Stored
variable (E)
variable (cs : List (StoredChunk E.lz4))

/-- The footer of some chunks, before its offsets are filled in. -/
def infoOf : XorbObjectInfoV1 where
  xorbHash := xorbHash E.hasher (cs.map fun c => (E.dataHash c.chunk,c.chunk.length))
  chunkHashes := cs.map fun c => E.dataHash c.chunk
  chunkBoundaryOffsets := boundariesFrom 0 (cs.map fun c => c.bytes.length)
  unpackedChunkOffsets := boundariesFrom 0 (cs.map fun c => c.chunk.length)
  numChunks := cs.length

def filledInfo : XorbObjectInfoV1 :=
  { infoOf E cs with
    boundarySectionOffsetFromEnd := asU32 (infoOf E cs).boundaryLength
    hashesSectionOffsetFromEnd := asU32 (infoOf E cs).hashesLength + asU32 (infoOf E cs).boundaryLength }

def objectOf : Bytes :=
  cs.flatMap StoredChunk.bytes ++
    ((filledInfo E cs).footerBytes ++ writeU32 (asU32 (filledInfo E cs).footerBytes.length))

variable {E} {cs}

section
variable (cs)

theorem serializedLength_filledInfo : (filledInfo E cs).serializedLength = 92 + 40 * cs.length := by
  simp only [filledInfo,infoOf,XorbObjectInfoV1.serializedLength,boundariesFrom_length,length_map,
    identLength,xorbObjectFormatFooterBufferLen]
  omega

theorem boundaryLength_infoOf : (infoOf E cs).boundaryLength = 40 + 8 * cs.length := by
  simp only [infoOf,XorbObjectInfoV1.boundaryLength,boundariesFrom_length,length_map,identLength,
    xorbObjectFormatFooterBufferLen]
  omega

theorem hashesLength_infoOf : (infoOf E cs).hashesLength = 12 + 32 * cs.length := by
  simp only [infoOf,XorbObjectInfoV1.hashesLength,length_map,identLength]
  omega

theorem length_footerBytes_filledInfo : (filledInfo E cs).footerBytes.length = 92 + 40 * cs.length := by
  rw [XorbObjectInfoV1.length_footerBytes rfl rfl rfl rfl,serializedLength_filledInfo]

theorem length_objectOf :
    (objectOf E cs).length = (cs.flatMap StoredChunk.bytes).length + (92 + 40 * cs.length) + 4 := by
  rw [objectOf,length_append,length_append,length_writeU32,length_footerBytes_filledInfo]
  omega

end

theorem le_length_flatMap (f : StoredChunk E.lz4 → Bytes) {o : ℕ}
    (h : o ∈ boundariesFrom 0 (cs.map fun c => (f c).length)) : o ≤ (cs.flatMap f).length := by
  have hle := boundariesFrom_le h
  rwa [Nat.zero_add,← length_flatMap] at hle

theorem wellFormed_filledInfo (hlen : 92 + 40 * cs.length < 2 ^ 32)
    (hs : (cs.flatMap StoredChunk.bytes).length < 2 ^ 32)
    (hc : (cs.flatMap StoredChunk.chunk).length < 2 ^ 32) : (filledInfo E cs).WellFormed := by
  have hb := boundaryLength_infoOf cs
  have hh := hashesLength_infoOf cs
  have hb' : asU32 (infoOf E cs).boundaryLength = (infoOf E cs).boundaryLength := asU32_of_lt (by omega)
  have hh' : asU32 (infoOf E cs).hashesLength = (infoOf E cs).hashesLength := asU32_of_lt (by omega)
  exact {
    numChunks_lt := by
      change cs.length < _
      omega
    hashes_length := length_map _
    boundaries_length := (boundariesFrom_length _ _).trans (length_map _)
    boundaries_lt := fun o ho => (le_length_flatMap StoredChunk.bytes ho).trans_lt hs
    unpacked_length := fun _ => (boundariesFrom_length _ _).trans (length_map _)
    ident_eq := rfl
    version_eq := rfl
    identHash_eq := rfl
    hashesVersion_eq := rfl
    identBoundary_eq := rfl
    boundariesVersion_eq := rfl
    unpacked_lt := fun o ho => (le_length_flatMap StoredChunk.chunk ho).trans_lt hc
    boundaryOffset_eq := hb'
    hashesOffset_eq := congrArg₂ (· + ·) hh' hb'
    hashesOffset_lt := by
      change asU32 _ + asU32 _ < _
      omega
    nonce_length := rfl }

/-- The offsets can be filled in when the footer is not too long. -/
theorem fillIn_infoOf (hlen : 92 + 40 * cs.length < 2 ^ 32) :
    (infoOf E cs).fillInBoundaryOffsets = .ok (filledInfo E cs) := by
  refine XorbObjectInfoV1.fillInBoundaryOffsets_eq_ok.mpr ⟨?_,rfl⟩
  have hb := boundaryLength_infoOf cs
  have hh := hashesLength_infoOf cs
  rw [asU32_of_lt (by omega),asU32_of_lt (by omega)]
  omega

theorem serializeGivenInfo_filledInfo :
    serializeGivenInfo (filledInfo E cs) =
      .ok (⟨filledInfo E cs,asU32 (filledInfo E cs).footerBytes.length⟩,
      (filledInfo E cs).footerBytes ++ writeU32 (asU32 (filledInfo E cs).footerBytes.length)) := by
  have he (ns : List ℕ) (h : ns.length = cs.length) : cs.length = (boundariesFrom 0 ns).length := by
    rw [boundariesFrom_length,h]
  rw [serializeGivenInfo,serialize_eq_ok (length_map _).symm (he _ (length_map _)) (he _ (length_map _))]
  rfl

/-- The object of some chunks is accepted, with the hash of the chunks. -/
theorem accepts_objectOf (hc : (cs.flatMap StoredChunk.chunk).length < 2 ^ 32)
    (hlen : (objectOf E cs).length < 2 ^ 32) (hl : ∀ c, cs.getLast? = some c → c.unread = []) :
    Accepts E (objectOf E cs) (infoOf E cs).xorbHash ⟨filledInfo E cs,92 + 40 * cs.length⟩ cs := by
  rw [length_objectOf] at hlen
  have hwf := wellFormed_filledInfo (by omega) (by omega) hc
  have hf := deserialize_append (Or.inl ⟨hwf,rfl⟩) (by rw [length_footerBytes_filledInfo]; omega)
    (cs.flatMap StoredChunk.bytes)
  rw [length_footerBytes_filledInfo] at hf
  have hu32 : asU32 (filledInfo E cs).footerBytes.length = 92 + 40 * cs.length := by
    rw [length_footerBytes_filledInfo,asU32_of_lt (by omega)]
  refine ⟨?_,⟨_,rfl⟩,rfl,?_,hl,?_,rfl,rfl⟩
  · rw [objectOf,hu32]
    exact ⟨_,hf⟩
  · refine (describes_iff (by decide) (by decide) ?_ ?_ fun _ => ?_).mpr
      ⟨rfl,rfl,fun _ => rfl,by omega,by omega⟩
    · exact (length_map _).trans (Nat.zero_add _).symm
    · exact ((boundariesFrom_length _ _).trans (length_map _)).trans (Nat.zero_add _).symm
    · exact ((boundariesFrom_length _ _).trans (length_map _)).trans (Nat.zero_add _).symm
  · rw [length_objectOf,asU32_of_lt hlen]

end Stored
end XetCore.Xorb.XorbObject
