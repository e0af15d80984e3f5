import XetCore.Xorb.ObjectInfo

/-! # Footers are read back

A well-formed footer is read back from its bytes, and what is read as a current footer is
well formed and was written as these bytes. The two offsets from the end and the number of
chunks are redundant, and the reader checks each of them.
-/
namespace XetCore.Xorb
open ByteSources Serialization LittleEndian List

/-- A footer of the older version with tables of its number of chunks. -/
structure XorbObjectInfoV0.WellFormed (src : XorbObjectInfoV0) : Prop where
  ident_eq : src.ident = xorbObjectFormatIdent
  version_eq : src.version = xorbObjectFormatVersionV0
  numChunks_lt : src.numChunks < 2 ^ 32
  hashes_length : src.chunkHashes.length = src.numChunks
  boundaries_length : src.chunkBoundaryOffsets.length = src.numChunks
  boundaries_lt : ∀ o ∈ src.chunkBoundaryOffsets, o < 2 ^ 32
  buffer_length : src.buffer.length = xorbObjectFormatFooterBufferLen

namespace XorbObjectInfoV1
variable {info : XorbObjectInfoV1} {ident : Bytes}

structure Listed (info : XorbObjectInfoV1) : Prop where
  numChunks_lt : info.numChunks < 2 ^ 32
  hashes_length : info.chunkHashes.length = info.numChunks
  boundaries_length : info.chunkBoundaryOffsets.length = info.numChunks
  boundaries_lt : ∀ o ∈ info.chunkBoundaryOffsets, o < 2 ^ 32
  unpacked_length : info.boundariesVersion = xorbObjectFormatBoundariesVersion →
    info.unpackedChunkOffsets.length = info.numChunks

/-- Current identifiers and versions, tables with an entry for each chunk, and fields of their
widths. -/
structure Current (info : XorbObjectInfoV1) : Prop extends Listed info where
  ident_eq : info.ident = xorbObjectFormatIdent
  version_eq : info.version = xorbObjectFormatVersion
  identHash_eq : info.identHashSection = xorbObjectFormatIdentHashes
  hashesVersion_eq : info.hashesVersion = xorbObjectFormatHashesVersion
  identBoundary_eq : info.identBoundarySection = xorbObjectFormatIdentBoundaries
  boundariesVersion_eq : info.boundariesVersion = xorbObjectFormatBoundariesVersion
  unpacked_lt : ∀ o ∈ info.unpackedChunkOffsets, o < 2 ^ 32
  nonce_length : info.nonceBuffer.length = xorbObjectFormatFooterBufferLen

/-- A footer of the current version whose offsets are those of its sections. -/
structure WellFormed (info : XorbObjectInfoV1) : Prop extends Current info where
  boundaryOffset_eq : info.boundarySectionOffsetFromEnd = info.boundaryLength
  hashesOffset_eq : info.hashesSectionOffsetFromEnd = info.hashesLength + info.boundaryLength
  hashesOffset_lt : info.hashesSectionOffsetFromEnd < 2 ^ 32

theorem length_hashesBytes (h : info.identHashSection = xorbObjectFormatIdentHashes) :
    info.hashesBytes.length = info.hashesLength := by
  have hid : xorbObjectFormatIdentHashes.length = 7 := rfl
  simp only [hashesBytes,hashesLength,identLength,h,length_append,length_writeU8,length_writeU32,
    length_flatMap_eq length_writeHash]
  omega

theorem length_boundariesBytes_endBytes (h : info.identBoundarySection = xorbObjectFormatIdentBoundaries)
    (hn : info.nonceBuffer.length = xorbObjectFormatFooterBufferLen) :
    (info.boundariesBytes ++ info.endBytes).length = info.boundaryLength := by
  have hid : xorbObjectFormatIdentBoundaries.length = 7 := rfl
  simp only [boundariesBytes,endBytes,boundaryLength,identLength,h,length_append,length_writeU8,
    length_writeU32,length_flatMap_eq length_writeU32]
  omega

theorem length_footerBytes (hi : info.ident = xorbObjectFormatIdent)
    (hh : info.identHashSection = xorbObjectFormatIdentHashes)
    (hb : info.identBoundarySection = xorbObjectFormatIdentBoundaries)
    (hn : info.nonceBuffer.length = xorbObjectFormatFooterBufferLen) :
    info.footerBytes.length = info.serializedLength := by
  have hid : xorbObjectFormatIdent.length = 7 := rfl
  rw [footerBytes,length_append,length_append,length_append,length_append,
    length_boundariesBytes_endBytes hb hn,length_hashesBytes hh,hi]
  simp only [hashesLength,boundaryLength,serializedLength,identLength,length_writeU8,length_writeHash]
  omega

theorem WellFormed.length_footerBytes (h : info.WellFormed) :
    info.footerBytes.length = info.serializedLength :=
  XorbObjectInfoV1.length_footerBytes h.ident_eq h.identHash_eq h.identBoundary_eq h.nonce_length

section
variable (h : info.WellFormed)
include h

theorem WellFormed.reads_hashes : Reads deserializeHashes info.hashesBytes
    (info.identHashSection,info.hashesVersion,info.numChunks,info.chunkHashes) := by
  have hid : info.identHashSection.length = identLength := by rw [h.identHash_eq]; rfl
  have hm : Reads (readMany readHash info.chunkHashes.length) (info.chunkHashes.flatMap writeHash)
    info.chunkHashes :=
    reads_many fun hash _ => reads_hash hash
  rw [h.hashes_length] at hm
  exact (reads_bytes_of_length hid).bind ((reads_ensure h.identHash_eq).bind ((reads_u8 _).bind
    ((reads_ensure h.hashesVersion_eq).bind ((reads_u32 h.numChunks_lt).bind (hm.bind_pure _)))))

theorem WellFormed.reads_boundaries :
    Reads (deserializeBoundaries info.numChunks) info.boundariesBytes (info.identBoundarySection,
      info.boundariesVersion,info.chunkBoundaryOffsets,info.unpackedChunkOffsets) := by
  have hid : info.identBoundarySection.length = identLength := by rw [h.identBoundary_eq]; rfl
  have hm := reads_many fun o ho => reads_u32 (h.boundaries_lt o ho)
  have hm' := reads_many fun o ho => reads_u32 (h.unpacked_lt o ho)
  rw [h.boundaries_length] at hm
  rw [h.unpacked_length h.boundariesVersion_eq] at hm'
  exact (reads_bytes_of_length hid).bind ((reads_ensure h.identBoundary_eq).bind ((reads_u8 _).bind
    ((reads_ensure h.boundariesVersion_eq).bind ((reads_u32 h.numChunks_lt).bind ((reads_ensure rfl).bind
      (hm.bind (hm'.bind_pure _)))))))

theorem WellFormed.reads_end : Reads (deserializeEnd info.numChunks) info.endBytes
    (info.numChunks,info.hashesSectionOffsetFromEnd,info.boundarySectionOffsetFromEnd,
      info.nonceBuffer) := by
  have hlt : info.boundarySectionOffsetFromEnd < 2 ^ 32 := by
    have := h.hashesOffset_lt
    rw [h.boundaryOffset_eq]
    rw [h.hashesOffset_eq] at this
    omega
  exact (reads_u32 h.numChunks_lt).bind ((reads_ensure rfl).bind ((reads_u32 h.hashesOffset_lt).bind
    ((reads_u32 hlt).bind ((reads_bytes_of_length h.nonce_length).bind_pure _))))

theorem WellFormed.reads_fromBoundaries :
    Reads (deserializeFromBoundaries info.numChunks) (info.boundariesBytes ++ info.endBytes)
      ((info.identBoundarySection,info.boundariesVersion,info.chunkBoundaryOffsets,
        info.unpackedChunkOffsets),
        (info.numChunks,info.hashesSectionOffsetFromEnd,info.boundarySectionOffsetFromEnd,
          info.nonceBuffer)) :=
  h.reads_boundaries.bind (h.reads_end.bind_pure _)

theorem WellFormed.reads_fromHashes :
    Reads deserializeFromHashes (info.hashesBytes ++ (info.boundariesBytes ++ info.endBytes))
      ((info.identHashSection,info.hashesVersion,info.numChunks,info.chunkHashes),
        ((info.identBoundarySection,info.boundariesVersion,info.chunkBoundaryOffsets,
          info.unpackedChunkOffsets),
          (info.numChunks,info.hashesSectionOffsetFromEnd,info.boundarySectionOffsetFromEnd,
            info.nonceBuffer)),
        info.boundaryLength) := by
  have hb := h.reads_fromBoundaries.counted
  rw [length_boundariesBytes_endBytes h.identBoundary_eq h.nonce_length] at hb
  exact h.reads_hashes.bind (hb.bind_pure _)

theorem WellFormed.reads_deserializeV1 : Reads (deserializeV1 info.ident info.version)
      (writeHash info.xorbHash ++ (info.hashesBytes ++ (info.boundariesBytes ++ info.endBytes)))
        info := by
  have hc := h.reads_fromHashes.counted
  rw [length_append,length_boundariesBytes_endBytes h.identBoundary_eq h.nonce_length,
    length_hashesBytes h.identHash_eq] at hc
  exact (reads_hash info.xorbHash).bind (hc.bind_nil ((reads_ensure h.hashesOffset_eq.symm).bind_nil
    ((reads_ensure h.boundaryOffset_eq.symm).bind_nil (reads_pure info))))

/-- A well-formed footer is read back, and its length with it. -/
theorem WellFormed.reads : Reads deserialize info.footerBytes (info,asU32 info.footerBytes.length) := by
  have hid : info.ident.length = identLength := by rw [h.ident_eq]; rfl
  have hv : Reads (deserializeVersion info.ident info.version)
      (writeHash info.xorbHash ++ (info.hashesBytes ++ (info.boundariesBytes ++ info.endBytes)))
        info := by
    rw [deserializeVersion,if_neg (by rw [h.version_eq]; decide)]
    exact (reads_ensure h.version_eq).bind h.reads_deserializeV1
  exact ((reads_bytes_of_length hid).bind ((reads_ensure h.ident_eq).bind
    ((reads_u8 _).bind hv))).counted.bind_pure fun s => (s.1,asU32 s.2)

end

theorem reads_fromV0 {src : XorbObjectInfoV0} (h : src.WellFormed) (hf : fromV0 src = .ok info) :
    Reads deserialize src.serialize (info,asU32 src.serialize.length) := by
  have hid : src.ident.length = identLength := by rw [h.ident_eq]; rfl
  have hm := reads_many fun o ho => reads_u32 (h.boundaries_lt o ho)
  have hm' := reads_many fun hash (_ : hash ∈ src.chunkHashes) => reads_hash hash
  rw [h.boundaries_length] at hm
  rw [h.hashes_length] at hm'
  have hr : Reads XorbObjectInfoV0.deserializeV0 (writeHash src.xorbHash ++ (writeU32 src.numChunks ++
      (src.chunkBoundaryOffsets.flatMap writeU32 ++ (src.chunkHashes.flatMap writeHash ++ src.buffer))))
      { src with ident := xorbObjectFormatIdent, version := xorbObjectFormatVersionV0 } :=
    (reads_hash src.xorbHash).bind ((reads_u32 h.numChunks_lt).bind (hm.bind (hm'.bind
      ((reads_bytes_of_length h.buffer_length).bind_pure _))))
  rw [← h.ident_eq,← h.version_eq] at hr
  refine ((reads_bytes_of_length hid).bind ((reads_ensure h.ident_eq).bind
    ((reads_u8 _).bind ?_))).counted.bind_pure fun s => (s.1,asU32 s.2)
  rw [deserializeVersion,if_pos h.version_eq]
  exact hr.bind_nil (reads_lift hf)

theorem parses_manyHashes (n : ℕ) :
    Parses (readMany readHash n) fun hs e => hs.length = n ∧ e = hs.flatMap writeHash :=
  (parses_many (parses_hash.mono fun _ _ h => ⟨trivial,h⟩) n).mono fun _ _ h => ⟨h.1,h.2.2⟩

theorem parses_hashes : Parses deserializeHashes fun r e => r.1 = xorbObjectFormatIdentHashes ∧
    r.2.1 = xorbObjectFormatHashesVersion ∧ r.2.2.1 < 2 ^ 32 ∧ r.2.2.2.length = r.2.2.1 ∧
    e = r.1 ++ (writeU8 r.2.1 ++ (writeU32 r.2.2.1 ++ r.2.2.2.flatMap writeHash)) := by
  refine ((parses_bytes _).bind fun ident => (parses_ensure _ _).bind fun _ =>
    parses_u8.bind fun version =>
    (parses_ensure _ _).bind fun _ => parses_u32.bind fun numChunks => (parses_manyHashes numChunks).bind
      fun hashes => parses_pure _).mono fun r e => ?_
  rintro ⟨ident,e₁,_,rfl,⟨rfl,-⟩,_,_,_,rfl,⟨hid,rfl⟩,version,_,_,rfl,rfl,_,_,_,rfl,⟨hv,rfl⟩,
    numChunks,_,_,rfl,⟨hlt,rfl⟩,hashes,_,_,rfl,⟨hlen,rfl⟩,rfl,rfl⟩
  exact ⟨hid,hv,hlt,hlen,by rw [append_nil]; rfl⟩

theorem parses_boundaries (n : ℕ) : Parses (deserializeBoundaries n) fun r e =>
    r.1 = xorbObjectFormatIdentBoundaries ∧ r.2.1 = xorbObjectFormatBoundariesVersion ∧
    r.2.2.1.length = n ∧ (∀ o ∈ r.2.2.1, o < 2 ^ 32) ∧ r.2.2.2.length = n ∧ (∀ o ∈ r.2.2.2, o < 2 ^ 32) ∧
    e = r.1 ++ (writeU8 r.2.1 ++
      (writeU32 n ++ (r.2.2.1.flatMap writeU32 ++ r.2.2.2.flatMap writeU32))) := by
  refine ((parses_bytes _).bind fun ident => (parses_ensure _ _).bind fun _ =>
    parses_u8.bind fun version =>
    (parses_ensure _ _).bind fun _ => parses_u32.bind fun numChunks => (parses_ensure _ _).bind fun _ =>
      (parses_many parses_u32 numChunks).bind fun boundaries => (parses_many parses_u32 numChunks).bind
        fun unpacked => parses_pure _).mono fun r e => ?_
  rintro ⟨ident,e₁,_,rfl,⟨rfl,-⟩,_,_,_,rfl,⟨hid,rfl⟩,version,_,_,rfl,rfl,_,_,_,rfl,⟨hv,rfl⟩,
    numChunks,_,_,rfl,⟨-,rfl⟩,_,_,_,rfl,⟨rfl,rfl⟩,boundaries,_,_,rfl,⟨hlen,hlt,rfl⟩,unpacked,_,_,rfl,
    ⟨hlen',hlt',rfl⟩,rfl,rfl⟩
  exact ⟨hid,hv,hlen,hlt,hlen',hlt',by rw [append_nil]; rfl⟩

theorem parses_end (n : ℕ) : Parses (deserializeEnd n) fun r e => r.1 = n ∧ r.2.1 < 2 ^ 32 ∧
    r.2.2.2.length = xorbObjectFormatFooterBufferLen ∧
    e = writeU32 r.1 ++ (writeU32 r.2.1 ++ (writeU32 r.2.2.1 ++ r.2.2.2)) := by
  refine (parses_u32.bind fun numChunks => (parses_ensure _ _).bind fun _ => parses_u32.bind fun hashes =>
    parses_u32.bind fun boundary => (parses_bytes _).bind fun nonce => parses_pure _).mono fun r e => ?_
  rintro ⟨numChunks,_,_,rfl,⟨-,rfl⟩,_,_,_,rfl,⟨hn,rfl⟩,hashes,_,_,rfl,⟨hlt,rfl⟩,boundary,_,_,rfl,⟨-,rfl⟩,
    nonce,_,_,rfl,⟨rfl,hlen⟩,rfl,rfl⟩
  exact ⟨hn,hlt,hlen,by rw [append_nil]; rfl⟩

/-- What is read as a current footer is well formed, and is the bytes of the footer. -/
theorem parses_deserializeV1 {version : UInt8} (hi : ident = xorbObjectFormatIdent)
    (hv : version = xorbObjectFormatVersion) : Parses (deserializeV1 ident version) fun r e =>
      r.WellFormed ∧ ident ++ (writeU8 version ++ e) = r.footerBytes := by
  refine (parses_hash.bind fun xorbHash =>
    (parses_hashes.bind fun hashes => ((parses_boundaries _).bind fun boundaries =>
    (parses_end _).bind fun last => parses_pure _).counted.bind fun fromBoundaries =>
      parses_pure _).counted.bind
      fun fromHashes => (parses_ensure _ _).bind fun _ => (parses_ensure _ _).bind fun _ =>
        parses_pure _).mono
        fun r e => ?_
  rintro ⟨xorbHash,_,_,rfl,rfl,⟨⟨_,⟨_,_⟩,m⟩,k⟩,_,_,rfl,⟨⟨hashes,_,_,rfl,hh,⟨_,_⟩,_,_,rfl,
    ⟨⟨boundaries,_,_,rfl,hb,⟨n,last⟩,_,_,rfl,hl,⟨⟩,rfl⟩,
      hm⟩,⟨⟩,rfl⟩,hk⟩,_,_,_,rfl,⟨ho,rfl⟩,_,_,_,rfl,⟨ho',rfl⟩,hr,rfl⟩
  obtain ⟨hid,hve,hlt,hha,rfl⟩ := hh
  obtain ⟨hid',hve',hbd,hbn,hun,hu,rfl⟩ := hb
  obtain ⟨rfl,hol,hn,rfl⟩ := hl
  have hln : r.hashesBytes.length = r.hashesLength := length_hashesBytes (by rw [hr]; exact hid)
  have hle : (r.boundariesBytes ++ r.endBytes).length = r.boundaryLength :=
    length_boundariesBytes_endBytes (by rw [hr]; exact hid') (by rw [hr]; exact hn)
  subst hr
  simp only [append_nil] at hm hk ⊢
  have hbo := ho'.symm.trans (hm.trans hle)
  have hba := ho.symm.trans (hk.trans (length_append.trans (congrArg₂ (· + ·) hln hle)))
  exact ⟨{
    numChunks_lt := hlt
    hashes_length := hha
    boundaries_length := hbd
    boundaries_lt := hbn
    unpacked_length := fun _ => hun
    ident_eq := hi
    version_eq := hv
    identHash_eq := hid
    hashesVersion_eq := hve
    identBoundary_eq := hid'
    boundariesVersion_eq := hve'
    unpacked_lt := hu
    boundaryOffset_eq := hbo
    hashesOffset_eq := hba
    hashesOffset_lt := hol
    nonce_length := hn },rfl⟩

theorem parses_deserializeV0 : Parses XorbObjectInfoV0.deserializeV0 fun r e => r.WellFormed ∧
    xorbObjectFormatIdent ++ (writeU8 xorbObjectFormatVersionV0 ++ e) = r.serialize := by
  refine (parses_hash.bind fun xorbHash => parses_u32.bind fun numChunks =>
    (parses_many parses_u32 numChunks).bind
    fun boundaries => (parses_manyHashes numChunks).bind fun hashes => (parses_bytes _).bind fun buffer =>
      parses_pure _).mono fun r e => ?_
  rintro ⟨xorbHash,_,_,rfl,rfl,numChunks,_,_,rfl,⟨hlt,rfl⟩,boundaries,_,_,rfl,⟨hlen,hb,rfl⟩,
    hashes,_,_,rfl,⟨hlen',rfl⟩,buffer,_,_,rfl,⟨rfl,hbu⟩,rfl,rfl⟩
  exact ⟨⟨rfl,rfl,hlt,hlen',hlen,hb,hbu⟩,by rw [append_nil]; rfl⟩

/-- The offsets are filled in unless their sum is too large. -/
theorem fillInBoundaryOffsets_eq_ok {filled : XorbObjectInfoV1} :
    info.fillInBoundaryOffsets = .ok filled ↔
    asU32 info.hashesLength + asU32 info.boundaryLength < 2 ^ 32 ∧
    filled = { info with
      boundarySectionOffsetFromEnd := asU32 info.boundaryLength
      hashesSectionOffsetFromEnd := asU32 info.hashesLength + asU32 info.boundaryLength } := by
  simp only [fillInBoundaryOffsets,bind_eq_ok,addU32_eq_ok]
  constructor
  · rintro ⟨_,⟨rfl,hlt⟩,hf⟩
    exact ⟨hlt,(Except.ok.inj hf).symm⟩
  · rintro ⟨hlt,rfl⟩
    exact ⟨_,⟨rfl,hlt⟩,rfl⟩

/-- What is read is a well-formed footer in its own bytes, or comes from one of the older version.
-/
def Recognised (info : XorbObjectInfoV1) (e : Bytes) : Prop :=
  info.WellFormed ∧ e = info.footerBytes ∨
    ∃ src : XorbObjectInfoV0, src.WellFormed ∧ fromV0 src = .ok info ∧ e = src.serialize

variable {e : Bytes}

section
variable (h : info.Recognised e)
include h

theorem Recognised.current
    (hv : info.boundariesVersion = xorbObjectFormatBoundariesVersion) :
    info.WellFormed ∧ e = info.footerBytes := by
  refine h.resolve_right ?_
  rintro ⟨src,-,hf,-⟩
  obtain ⟨-,rfl⟩ := fillInBoundaryOffsets_eq_ok.mp hf
  cases hv

theorem Recognised.listed : info.Listed := by
  rcases h with ⟨h,-⟩ | ⟨src,h,hf,-⟩
  · exact h.toListed
  · obtain ⟨-,rfl⟩ := fillInBoundaryOffsets_eq_ok.mp hf
    exact ⟨h.numChunks_lt,h.hashes_length,h.boundaries_length,h.boundaries_lt,nofun⟩

theorem Recognised.reads : Reads deserialize e (info,asU32 e.length) := by
  rcases h with ⟨h,rfl⟩ | ⟨src,h,hf,rfl⟩
  · exact h.reads
  · exact reads_fromV0 h hf

/-- Both footers end with the buffer, and another buffer in its place is read with the rest of the
footer. -/
theorem Recognised.refill :
    info.nonceBuffer.length = xorbObjectFormatFooterBufferLen ∧ ∃ e', e = e' ++ info.nonceBuffer ∧
      ∀ b : Bytes, b.length = xorbObjectFormatFooterBufferLen →
        { info with nonceBuffer := b }.Recognised (e' ++ b) := by
  rcases h with ⟨h,rfl⟩ | ⟨src,h,hf,rfl⟩
  · refine ⟨h.nonce_length,{ info with nonceBuffer := [] }.footerBytes,?_,
      fun b hb => Or.inl ⟨{ h with nonce_length := hb },?_⟩⟩
    all_goals simp [footerBytes,endBytes,hashesBytes,boundariesBytes]
  · obtain ⟨hlt,rfl⟩ := fillInBoundaryOffsets_eq_ok.mp hf
    refine ⟨h.buffer_length,{ src with buffer := [] }.serialize,?_,fun b hb =>
      Or.inr ⟨{ src with buffer := b },
      { h with buffer_length := hb },fillInBoundaryOffsets_eq_ok.mpr ⟨hlt,rfl⟩,?_⟩⟩
    all_goals simp [XorbObjectInfoV0.serialize]

end

theorem parses_deserializeVersion (hi : ident = xorbObjectFormatIdent) (version : UInt8) :
    Parses (deserializeVersion ident version) fun r e =>
      r.Recognised (ident ++ (writeU8 version ++ e)) := by
  unfold deserializeVersion
  split_ifs with hv
  · refine (parses_deserializeV0.bind fun sv0 => parses_lift _).mono fun r e => ?_
    rintro ⟨sv0,_,_,rfl,⟨hwf,he⟩,hr,rfl⟩
    exact Or.inr ⟨sv0,hwf,hr,by rw [append_nil,hi,hv,he]⟩
  · exact (parses_ensure_bind fun hv => parses_deserializeV1 hi hv).mono fun r e h => Or.inl h.2

theorem parses_deserialize : Parses deserialize fun r e => r.2 = asU32 e.length ∧ r.1.Recognised e := by
  refine (((parses_bytes _).bind fun ident => parses_ensure_bind fun hi => parses_u8.bind fun version =>
    parses_deserializeVersion hi version).counted.bind fun s => parses_pure _).mono fun r e => ?_
  rintro ⟨s,_,_,rfl,⟨⟨ident,_,_,rfl,⟨rfl,-⟩,-,version,_,_,rfl,rfl,hs⟩,hlen⟩,rfl,rfl⟩
  rw [append_nil]
  exact ⟨by rw [hlen],hs⟩

end XorbObjectInfoV1
end XetCore.Xorb
