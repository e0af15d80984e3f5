import XetCore.Xorb.StoredObject

/-! # The readers of the footer

Besides the reader of whole footers there is one for a footer whose identifier and version
were read before, and one that goes to the boundary section from the end of an object. What
is read as a current footer is written as the bytes that were read.
-/
namespace XetCore.Xorb
open ByteSources Serialization List

namespace XorbObjectInfoV1

variable {info : XorbObjectInfoV1}

section Model
variable {σ : Type} [ByteSource σ]

/-- Behind the identifier and the version, which count as read. -/
def deserializeAsyncV1 : Reader σ CoreError (XorbObjectInfoV1 × ℕ) := do
  let s ← counted (deserializeV1 xorbObjectFormatIdent xorbObjectFormatVersion)
  let total ← addU32 (asU32 s.2) (asU32 (identLength + 1))
  return (s.1,total)

/-- The boundary section with its own number of chunks, and the closing part. -/
def deserializeBoundarySection :
    Reader σ CoreError ((Bytes × UInt8 × List ℕ × List ℕ) × (ℕ × ℕ × ℕ × Bytes)) := do
  let ident ← readBytes identLength
  ensure (ident = xorbObjectFormatIdentBoundaries)
    (.malformedData "Xorb Invalid Ident for Boundary Metadata Section")
  let version ← readU8
  ensure (version = xorbObjectFormatBoundariesVersion)
    (.malformedData "Xorb Invalid Format Version for Boundaries Metadata Section")
  let numChunks ← readU32
  let boundaries ← readMany readU32 numChunks
  let unpacked ← readMany readU32 numChunks
  let last ← deserializeEnd numChunks
  return ((ident,version,boundaries,unpacked),last)

end Model

/-- The footer without its hashes, and the length of its second part. -/
def deserializeOnlyBoundariesSection (bytes : Bytes) : Result (XorbObjectInfoV1 × ℕ) := do
  let reader ← seekEnd bytes (4 + xorbObjectFormatFooterBufferLen + 4)
  let offset ← readU32.run reader
  let offsetFromEnd ← addU32 offset.1 4
  let reader ← seekEnd bytes offsetFromEnd
  let r ← (counted deserializeBoundarySection).run reader
  let boundaries := r.1.1.1
  let last := r.1.1.2
  ensure (r.1.2 = last.2.2.1) (.malformedData "Xorb Invalid: incorrect boundary_section_offset_from_end.")
  return ({
    identBoundarySection := boundaries.1
    boundariesVersion := boundaries.2.1
    chunkBoundaryOffsets := boundaries.2.2.1
    unpackedChunkOffsets := boundaries.2.2.2
    numChunks := last.1
    hashesSectionOffsetFromEnd := last.2.1
    boundarySectionOffsetFromEnd := last.2.2.1
    nonceBuffer := last.2.2.2 },asU32 r.1.2)

def storedVersion (footer : Bytes) : Option UInt8 := footer[identLength]?

section Follows
variable {σ : Type} [ByteSource σ]

theorem follows_u32 : Follows (σ := σ) readU32 readU32 := (follows_readExact _ _).map _

theorem follows_hash : Follows (σ := σ) readHash readHash := (follows_readExact _ _).map _

theorem follows_u8 : Follows (σ := σ) readU8 readU8 := (follows_readExact _ _).map _

theorem follows_deserializeV1 (ident : Bytes) (version : UInt8) :
    Follows (σ := σ) (deserializeV1 ident version) (deserializeV1 ident version) := by
  have he (n : ℕ) : Follows (σ := σ) (deserializeEnd n) (deserializeEnd n) :=
    follows_u32.bind fun _ => (follows_lift _).bind fun _ => follows_u32.bind fun _ =>
      follows_u32.bind fun _ =>
      (follows_readExact _ _).bind fun _ => follows_pure _
  have hb (n : ℕ) : Follows (σ := σ) (deserializeBoundaries n) (deserializeBoundaries n) :=
    (follows_readExact _ _).bind fun _ => (follows_lift _).bind fun _ => follows_u8.bind fun _ =>
      (follows_lift _).bind fun _ => follows_u32.bind fun k => (follows_lift _).bind fun _ =>
        (follows_u32.many k).bind fun _ => (follows_u32.many k).bind fun _ => follows_pure _
  have hh : Follows (σ := σ) deserializeHashes deserializeHashes :=
    (follows_readExact _ _).bind fun _ => (follows_lift _).bind fun _ => follows_u8.bind fun _ =>
      (follows_lift _).bind fun _ => follows_u32.bind fun k => (follows_hash.many k).bind fun _ =>
        follows_pure _
  have hf : Follows deserializeFromHashes deserializeFromHashes :=
    hh.bind fun h => ((hb h.2.2.1).bind fun _ => (he h.2.2.1).bind fun _ =>
      follows_pure _).counted.bind fun _ => follows_pure _
  exact follows_hash.bind fun _ => hf.counted.bind fun _ => (follows_lift _).bind fun _ =>
    (follows_lift _).bind fun _ => follows_pure _

theorem follows_deserializeAsyncV1 : Follows (σ := σ) deserializeAsyncV1 deserializeAsyncV1 :=
  (follows_deserializeV1 _ _).counted.bind fun _ => (follows_lift _).bind fun _ => follows_pure _

theorem follows_deserialize : Follows (σ := σ) deserialize deserialize := by
  have hv0 : Follows (σ := σ) XorbObjectInfoV0.deserializeV0 XorbObjectInfoV0.deserializeV0 :=
    follows_hash.bind fun _ => follows_u32.bind fun k => (follows_u32.many k).bind fun _ =>
      (follows_hash.many k).bind fun _ => (follows_readExact _ _).bind fun _ => follows_pure _
  have hv (ident : Bytes) (version : UInt8) :
      Follows (σ := σ) (deserializeVersion ident version) (deserializeVersion ident version) := by
    unfold deserializeVersion
    split
    · exact hv0.bind fun _ => follows_lift _
    · exact (follows_lift _).bind fun _ => follows_deserializeV1 _ _
  exact ((follows_readExact _ _).bind fun _ => (follows_lift _).bind fun _ => follows_u8.bind fun _ =>
    hv _ _).counted.bind fun _ => follows_pure _

end Follows

section Written
variable {info v : XorbObjectInfoV1}

theorem lengths_eq (h : info.Listed) (hv : info.boundariesVersion = xorbObjectFormatBoundariesVersion) :
    info.boundaryLength = 40 + 8 * info.numChunks ∧ info.hashesLength = 12 + 32 * info.numChunks ∧
      info.serializedLength = 92 + 40 * info.numChunks := by
  simp only [boundaryLength,hashesLength,serializedLength,identLength,xorbObjectFormatFooterBufferLen,
    h.hashes_length,h.boundaries_length,h.unpacked_length hv]
  omega

theorem Current.filled (h : info.Current) (hf : info.fillInBoundaryOffsets = .ok v) : v.Current := by
  obtain ⟨-,rfl⟩ := fillInBoundaryOffsets_eq_ok.mp hf
  exact { h with }

theorem Current.wellFormed_iff (h : info.Current) (hf : info.fillInBoundaryOffsets = .ok v) :
    v.WellFormed ↔ v.hashesLength + v.boundaryLength < 2 ^ 32 := by
  obtain ⟨hlt,rfl⟩ := fillInBoundaryOffsets_eq_ok.mp hf
  constructor
  · intro hwf
    rw [← hwf.hashesOffset_eq]
    exact hwf.hashesOffset_lt
  · intro hlt'
    have hb := asU32_of_lt (Nat.lt_of_le_of_lt (Nat.le_add_left _ _) hlt')
    have hh := asU32_of_lt (Nat.lt_of_le_of_lt (Nat.le_add_right _ _) hlt')
    exact { h.filled hf with
      boundaryOffset_eq := hb
      hashesOffset_eq := congrArg₂ (· + ·) hh hb
      hashesOffset_lt := hlt }

theorem WellFormed.current (h : info.WellFormed) : info.Current := { h with }

theorem Current.serialize_eq (h : info.Current) : info.serialize = .ok info.footerBytes :=
  XorbObject.serialize_eq_ok h.hashes_length.symm h.boundaries_length.symm
    (h.unpacked_length h.boundariesVersion_eq).symm

theorem Current.drop_footerBytes (h : info.Current) : info.footerBytes.drop (identLength + 1) =
    writeHash info.xorbHash ++ (info.hashesBytes ++ (info.boundariesBytes ++ info.endBytes)) := by
  rw [footerBytes,h.ident_eq]
  rfl

/-- The number of bytes with the eight that were read before has 32 bits, or its lower bits are
small. -/
theorem addU32_readBefore {n : ℕ} (h : 52 + 40 * n < 2 ^ 32) :
    addU32 (asU32 (84 + 40 * n)) (asU32 8) = .ok (asU32 (92 + 40 * n)) := by
  rcases Nat.lt_or_ge n 107374181 with hn | hn
  · rw [asU32_of_lt (by omega),asU32_of_lt (by decide),asU32_of_lt (by omega),addU32_of_lt (by omega)]
    congr 1
    omega
  · obtain rfl : n = 107374181 := by omega
    decide

theorem WellFormed.reads_async (h : info.WellFormed) :
    Reads deserializeAsyncV1 (info.footerBytes.drop (identLength + 1))
      (info,asU32 info.serializedLength) := by
  obtain ⟨hb,hh,ht⟩ := lengths_eq h.toListed h.boundariesVersion_eq
  have hlt := h.hashesOffset_lt
  rw [h.hashesOffset_eq,hb,hh] at hlt
  have hlen : (info.footerBytes.drop (identLength + 1)).length = 84 + 40 * info.numChunks := by
    rw [length_drop,h.length_footerBytes,ht]
    exact Nat.sub_eq_of_eq_add (Nat.add_right_comm 84 8 (40 * info.numChunks))
  have hr := h.reads_deserializeV1.counted
  rw [← h.current.drop_footerBytes,hlen,h.ident_eq,h.version_eq] at hr
  intro rest
  have ha : (liftM (addU32 (asU32 (84 + 40 * info.numChunks)) (asU32 8)) : Reader Bytes CoreError
    ℕ).run rest =
      .ok (asU32 info.serializedLength,rest) := by
    rw [ht]
    exact run_lift_eq_ok.mpr ⟨addU32_readBefore (by omega),rfl⟩
  rw [deserializeAsyncV1,run_bind_of_ok (hr rest)]
  exact run_bind_of_ok ha

end Written

section Accepted
variable {bytes rest : Bytes} {n : ℕ}

theorem parses_current : Parses deserialize fun r e => r.2 = asU32 e.length ∧
    (storedVersion e = some xorbObjectFormatVersion → r.1.WellFormed ∧ e = r.1.footerBytes) ∧
    identLength < e.length := by
  have hve {ident : Bytes} (hi : ident = xorbObjectFormatIdent) (version : UInt8) :
      Parses (deserializeVersion ident version) fun r e => version = xorbObjectFormatVersion →
        r.WellFormed ∧ ident ++ (writeU8 version ++ e) = r.footerBytes := by
    unfold deserializeVersion
    split_ifs with hz
    · refine (parses_deserializeV0.bind fun sv0 => parses_lift _).mono fun r e _ hv => ?_
      rw [hz] at hv
      cases hv
    · exact (parses_ensure_bind fun hv => parses_deserializeV1 hi hv).mono fun r e h _ => h.2
  refine (((parses_bytes _).bind fun ident => parses_ensure_bind fun hi => parses_u8.bind fun version =>
    hve hi version).counted.bind fun s => parses_pure _).mono fun r e => ?_
  rintro ⟨s,_,_,rfl,⟨⟨ident,_,_,rfl,⟨rfl,hid⟩,-,version,_,e',rfl,rfl,hs⟩,hlen⟩,rfl,rfl⟩
  rw [append_nil]
  refine ⟨by rw [hlen],fun hv => ?_,?_⟩
  · rw [storedVersion,getElem?_append_right (by omega),hid] at hv
    exact hs (Option.some.inj hv)
  · simp only [length_append,length_writeU8]
    omega

theorem deserialize_current (h : deserialize.run bytes = .ok ((info,n),rest))
    (hv : storedVersion bytes = some xorbObjectFormatVersion) :
    info.WellFormed ∧ bytes = info.footerBytes ++ rest ∧ n = asU32 info.footerBytes.length := by
  obtain ⟨e,rfl,hlen,hc,hl⟩ := parses_current _ _ _ h
  rw [storedVersion,getElem?_append_left hl] at hv
  obtain ⟨hwf,heq⟩ := hc hv
  exact ⟨hwf,by rw [heq],by rw [← heq]; exact hlen⟩

theorem deserializeAsyncV1_current (h : deserializeAsyncV1.run bytes = .ok ((info,n),rest)) :
    info.WellFormed ∧ xorbObjectFormatIdent ++ (writeU8 xorbObjectFormatVersion ++ bytes) =
      info.footerBytes ++ rest := by
  have hp : Parses deserializeAsyncV1 fun r e =>
      r.1.WellFormed ∧ xorbObjectFormatIdent ++ (writeU8 xorbObjectFormatVersion ++ e) =
        r.1.footerBytes := by
    refine ((parses_deserializeV1 rfl rfl).counted.bind fun s => (parses_lift _).bind fun _ =>
      parses_pure _).mono
      fun r e => ?_
    rintro ⟨s,_,_,rfl,⟨hs,-⟩,_,_,_,rfl,⟨-,rfl⟩,rfl,rfl⟩
    simp only [append_nil]
    exact hs
  obtain ⟨e,rfl,hwf,hb⟩ := hp _ _ _ h
  refine ⟨hwf,?_⟩
  rw [← hb]
  simp

end Accepted

theorem WellFormed.reads_boundarySection (h : info.WellFormed) :
    Reads deserializeBoundarySection (info.boundariesBytes ++ info.endBytes)
      ((info.identBoundarySection,info.boundariesVersion,info.chunkBoundaryOffsets,
        info.unpackedChunkOffsets),
        (info.numChunks,info.hashesSectionOffsetFromEnd,info.boundarySectionOffsetFromEnd,
          info.nonceBuffer)) := by
  have hid : info.identBoundarySection.length = identLength := by rw [h.identBoundary_eq]; rfl
  have hm := reads_many fun o ho => reads_u32 (h.boundaries_lt o ho)
  have hm' := reads_many fun o ho => reads_u32 (h.unpacked_lt o ho)
  rw [h.boundaries_length] at hm
  rw [h.unpacked_length h.boundariesVersion_eq] at hm'
  have hb : info.boundariesBytes ++ info.endBytes = info.identBoundarySection ++
    (writeU8 info.boundariesVersion ++
      (writeU32 info.numChunks ++ (info.chunkBoundaryOffsets.flatMap writeU32 ++
        (info.unpackedChunkOffsets.flatMap writeU32 ++ info.endBytes)))) := by
    simp [boundariesBytes]
  rw [hb]
  exact (reads_bytes_of_length hid).bind ((reads_ensure h.identBoundary_eq).bind ((reads_u8 _).bind
    ((reads_ensure h.boundariesVersion_eq).bind ((reads_u32 h.numChunks_lt).bind
      (hm.bind (hm'.bind (h.reads_end.bind_pure _)))))))

theorem seekEnd_append (front back : Bytes) : seekEnd (front ++ back) back.length = .ok back := by
  refine XorbObject.seekEnd_eq_ok.mpr ⟨by simp,?_⟩
  rw [length_append,Nat.add_sub_cancel,drop_left]

theorem WellFormed.deserializeOnlyBoundariesSection_eq (h : info.WellFormed) (front : Bytes)
    {last : Bytes}
    (hl : last.length = 4) : deserializeOnlyBoundariesSection
      (front ++ (info.footerBytes ++ last)) = .ok ({
        identBoundarySection := info.identBoundarySection
        boundariesVersion := info.boundariesVersion
        chunkBoundaryOffsets := info.chunkBoundaryOffsets
        unpackedChunkOffsets := info.unpackedChunkOffsets
        numChunks := info.numChunks
        hashesSectionOffsetFromEnd := info.hashesSectionOffsetFromEnd
        boundarySectionOffsetFromEnd := info.boundarySectionOffsetFromEnd
        nonceBuffer := info.nonceBuffer },info.boundarySectionOffsetFromEnd) := by
  obtain ⟨hb,hh,-⟩ := lengths_eq h.toListed h.boundariesVersion_eq
  have hlt := h.hashesOffset_lt
  rw [h.hashesOffset_eq,hb,hh] at hlt
  have ho := h.boundaryOffset_eq.trans hb
  set front' := front ++ (info.ident ++
    (writeU8 info.version ++ (writeHash info.xorbHash ++ info.hashesBytes))) with hfr
  have hs : front ++ (info.footerBytes ++ last) = front' ++
    (info.boundariesBytes ++ info.endBytes ++ last) := by
    simp [hfr,footerBytes]
  have hse : seekEnd (front ++ (info.footerBytes ++ last)) (info.boundarySectionOffsetFromEnd + 4) =
      .ok (info.boundariesBytes ++ info.endBytes ++ last) := by
    have hlen : (info.boundariesBytes ++ info.endBytes ++ last).length =
      info.boundarySectionOffsetFromEnd + 4 := by
      rw [length_append,length_boundariesBytes_endBytes h.identBoundary_eq h.nonce_length,hl,
        h.boundaryOffset_eq]
    rw [hs,← hlen]
    exact seekEnd_append _ _
  have hf : seekEnd (front ++ (info.footerBytes ++ last)) (4 + xorbObjectFormatFooterBufferLen + 4) =
      .ok (writeU32 info.boundarySectionOffsetFromEnd ++ (info.nonceBuffer ++ last)) := by
    have hlen : (writeU32 info.boundarySectionOffsetFromEnd ++ (info.nonceBuffer ++ last)).length =
        4 + xorbObjectFormatFooterBufferLen + 4 := by
      rw [length_append,length_append,length_writeU32,h.nonce_length,hl,Nat.add_assoc]
    have hba : front ++ (info.footerBytes ++ last) =
      (front' ++ (info.boundariesBytes ++ (writeU32 info.numChunks ++
        writeU32 info.hashesSectionOffsetFromEnd))) ++ (writeU32 info.boundarySectionOffsetFromEnd ++
          (info.nonceBuffer ++ last)) := by
      simp [hs,endBytes]
    rw [hba,← hlen]
    exact seekEnd_append _ _
  have hr := h.reads_boundarySection.counted
  rw [length_boundariesBytes_endBytes h.identBoundary_eq h.nonce_length,← h.boundaryOffset_eq] at hr
  rw [deserializeOnlyBoundariesSection,hf,ok_bind,reads_u32 (by omega),ok_bind,
    addU32_of_lt (by omega),ok_bind,hse,ok_bind,hr,ok_bind]
  dsimp only
  rw [ensure_eq_ok (u := ()).mpr rfl,ok_bind,asU32_of_lt (by omega)]
  rfl

/-- Both readers give the footer back, from every source that starts with its bytes. -/
def ReadBack (v : XorbObjectInfoV1) : Prop :=
  ∀ (σ : Type) [ByteSource σ] (reader : σ) (rest : Bytes),
    (ByteSource.bytes reader = v.footerBytes ++ rest →
      outcome deserialize reader = .ok ((v,asU32 v.serializedLength),rest)) ∧
    (ByteSource.bytes reader = v.footerBytes.drop (identLength + 1) ++ rest →
      outcome deserializeAsyncV1 reader = .ok ((v,asU32 v.serializedLength),rest))

theorem WellFormed.readBack {v : XorbObjectInfoV1} (h : v.WellFormed) : ReadBack v := by
  intro σ _ reader rest
  constructor
  · intro hb
    rw [outcome,follows_deserialize reader,hb,← h.length_footerBytes]
    exact h.reads rest
  · intro hb
    rw [outcome,follows_deserializeAsyncV1 reader,hb]
    exact h.reads_async rest

theorem Current.readBack_iff {info v : XorbObjectInfoV1} (h : info.Current)
    (hf : info.fillInBoundaryOffsets = .ok v) :
    ReadBack v ↔ v.hashesLength + v.boundaryLength < 2 ^ 32 := by
  rw [← h.wellFormed_iff hf]
  refine ⟨fun hr => ?_,WellFormed.readBack⟩
  have hru := (hr Bytes (v.footerBytes ++ []) []).1 rfl
  rw [outcome,follows_deserialize] at hru
  obtain ⟨e,-,-,hre⟩ := parses_deserialize _ _ _ hru
  exact (hre.current (h.filled hf).boundariesVersion_eq).1

theorem onlyBoundaries_agrees {bytes rest : Bytes} {xorb : XorbObject}
    (h : XorbObject.deserialize bytes = .ok (xorb,rest))
    (hv : storedVersion (bytes.drop (bytes.length - (4 + xorb.infoLength))) =
      some xorbObjectFormatVersion) :
    ∃ s n, deserializeOnlyBoundariesSection bytes = .ok (s,n) ∧ s.numChunks = xorb.info.numChunks ∧
      s.chunkBoundaryOffsets = xorb.info.chunkBoundaryOffsets ∧
      s.unpackedChunkOffsets = xorb.info.unpackedChunkOffsets ∧
      s.nonceBuffer = xorb.info.nonceBuffer := by
  simp only [XorbObject.deserialize,bind_eq_ok,ensure_eq_ok,XorbObject.seekEnd_eq_ok] at h
  obtain ⟨infoLength,-,reader,⟨hle,rfl⟩,⟨⟨info,n⟩,t⟩,hr,_,hn,hx⟩ := h
  cases hx
  obtain ⟨hwf,hb,hlen⟩ := deserialize_current hr hv
  -- the footer has fewer bytes than there are, so its length is the stored one and four bytes follow
  have hla : t.length = 4 := by
    have hl := congrArg List.length hb
    rw [length_drop,length_append] at hl
    dsimp only at hn hl
    unfold asU32 at hlen
    omega
  have hsp : bytes = bytes.take (bytes.length - (4 + infoLength)) ++ (info.footerBytes ++ t) := by
    rw [← hb,take_append_drop]
  have hs := hwf.deserializeOnlyBoundariesSection_eq (bytes.take (bytes.length - (4 + infoLength))) hla
  rw [← hsp] at hs
  exact ⟨_,_,hs,rfl,rfl,rfl,rfl⟩

/-- A footer with filled in offsets is written in its length, and both readers give it back if its
sections have less than 4 GiB, and only then. What either reader accepts as a current footer is
written as the bytes that were read. And the reader of the boundary section agrees with the reader
of whole objects. -/
theorem footer_readers : (∀ info v : XorbObjectInfoV1, info.Current → info.fillInBoundaryOffsets = .ok v →
      v.serialize = .ok v.footerBytes ∧ v.footerBytes.length = v.serializedLength ∧
      (ReadBack v ↔ v.hashesLength + v.boundaryLength < 2 ^ 32)) ∧
    (∀ (σ : Type) [ByteSource σ] (reader : σ) (info : XorbObjectInfoV1) (n : ℕ) (rest : Bytes),
      (outcome deserialize reader = .ok ((info,n),rest) →
        storedVersion (ByteSource.bytes reader) = some xorbObjectFormatVersion →
        ∃ consumed, info.serialize = .ok consumed ∧ ByteSource.bytes reader = consumed ++ rest) ∧
      (outcome deserializeAsyncV1 reader = .ok ((info,n),rest) →
        ∃ consumed, info.serialize = .ok consumed ∧
          xorbObjectFormatIdent ++ (writeU8 xorbObjectFormatVersion ++ ByteSource.bytes reader) =
            consumed ++ rest)) ∧
    (∀ (bytes rest : Bytes) (xorb : XorbObject), XorbObject.deserialize bytes = .ok (xorb,rest) →
      storedVersion (bytes.drop (bytes.length - (4 + xorb.infoLength))) = some xorbObjectFormatVersion →
      ∃ s n, deserializeOnlyBoundariesSection bytes = .ok (s,n) ∧ s.numChunks = xorb.info.numChunks ∧
        s.chunkBoundaryOffsets = xorb.info.chunkBoundaryOffsets ∧
        s.unpackedChunkOffsets = xorb.info.unpackedChunkOffsets ∧
        s.nonceBuffer = xorb.info.nonceBuffer) := by
  refine ⟨fun info v h hfill => ?_,fun σ _ reader info n rest => ⟨fun h hv => ?_,fun h => ?_⟩,
    fun bytes rest xorb => onlyBoundaries_agrees⟩
  · have hc := h.filled hfill
    exact ⟨hc.serialize_eq,length_footerBytes hc.ident_eq hc.identHash_eq hc.identBoundary_eq
      hc.nonce_length,h.readBack_iff hfill⟩
  · rw [outcome,follows_deserialize reader] at h
    obtain ⟨hwf,hbytes,-⟩ := deserialize_current h hv
    exact ⟨_,hwf.current.serialize_eq,hbytes⟩
  · rw [outcome,follows_deserializeAsyncV1 reader] at h
    obtain ⟨hwf,hbytes⟩ := deserializeAsyncV1_current h
    exact ⟨_,hwf.current.serialize_eq,hbytes⟩

/-- The footer of one chunk. -/
theorem footer_readers_one_chunk : ∃ v : XorbObjectInfoV1, v.numChunks = 1 ∧ ReadBack v := by
  let info : XorbObjectInfoV1 :=
    { chunkHashes := [default], chunkBoundaryOffsets := [10], unpackedChunkOffsets :=
      [2], numChunks := 1 }
  have hcurrent : info.Current :=
    ⟨⟨by decide,rfl,rfl,by decide,fun _ => rfl⟩,rfl,rfl,rfl,rfl,rfl,rfl,by decide,rfl⟩
  have hfill : info.fillInBoundaryOffsets =
      .ok { info with boundarySectionOffsetFromEnd := 48, hashesSectionOffsetFromEnd := 92 } := by decide
  exact ⟨_,rfl,(footer_readers.1 info _ hcurrent hfill).2.2.mpr (by decide)⟩

/-- The sections of 2 ^ 29 chunks are too long, and the offsets that are filled in are those of no
chunks. -/
theorem footer_readers_fail : ∃ info v : XorbObjectInfoV1, info.Current ∧ info.numChunks = 2 ^ 29 ∧
    info.fillInBoundaryOffsets = .ok v ∧ v.hashesSectionOffsetFromEnd = 52 ∧
    v.boundarySectionOffsetFromEnd = 40 ∧
    v.serialize = .ok v.footerBytes ∧
    deserialize.run v.footerBytes ≠ .ok ((v,asU32 v.serializedLength),[]) := by
  let info : XorbObjectInfoV1 :=
    { chunkHashes := List.replicate (2 ^ 29) default
      chunkBoundaryOffsets := List.replicate (2 ^ 29) 0
      unpackedChunkOffsets := List.replicate (2 ^ 29) 0
      numChunks := 2 ^ 29 }
  have hzero : ∀ o ∈ List.replicate (2 ^ 29) 0, o < 2 ^ 32 := fun o ho => by
    rw [eq_of_mem_replicate ho]
    exact Nat.two_pow_pos 32
  have hcurrent : info.Current :=
    ⟨⟨by decide,length_replicate,length_replicate,hzero,fun _ => length_replicate⟩,rfl,rfl,rfl,rfl,rfl,
      rfl,hzero,rfl⟩
  obtain ⟨hboundary,hhashes,-⟩ := lengths_eq hcurrent.toListed rfl
  have hboundaryU32 : asU32 info.boundaryLength = 40 := by
    rw [hboundary]
    decide
  have hhashesU32 : asU32 info.hashesLength = 12 := by
    rw [hhashes]
    decide
  have hfill : info.fillInBoundaryOffsets =
      .ok { info with boundarySectionOffsetFromEnd := 40, hashesSectionOffsetFromEnd := 52 } := by
    rw [fillInBoundaryOffsets_eq_ok,hboundaryU32,hhashesU32]
    exact ⟨by decide,rfl⟩
  refine ⟨info,_,hcurrent,rfl,hfill,rfl,rfl,(hcurrent.filled hfill).serialize_eq,fun hread => ?_⟩
  obtain ⟨e,-,-,hrec⟩ := parses_deserialize _ _ _ hread
  have hsame : info.hashesLength + info.boundaryLength < 2 ^ 32 :=
    (hcurrent.wellFormed_iff hfill).mp (hrec.current rfl).1
  rw [hboundary,hhashes] at hsame
  exact absurd hsame (by decide)

end XorbObjectInfoV1
end XetCore.Xorb
