import XetCore.Xorb.Rebuild

/-! # Rebuilt objects and validation

Rebuilding does not compare the decoded length of a chunk with its header, nor does it look
at what a decoder leaves of the last payload. Validation does both, so it can refuse what
was rebuilt.
-/
namespace XetCore.Xorb
open ByteSources Serialization Chunking Extents List
open Merkle (DataHash)

variable {E : XorbEnv} {rest : Bytes}

theorem Frame.bytes_append_inj {f g : Frame} {t t' : Bytes} (h : f.bytes ++ t = g.bytes ++ t') :
    f = g ∧ t = t' := by
  rw [bytes,bytes,append_assoc,append_assoc] at h
  obtain ⟨hh,hr⟩ := append_inj h (by rw [writeChunkHeader_length,writeChunkHeader_length])
  have heq : f.header = g.header := by
    rw [← ofBytes_writeChunkHeader f.header,hh,ofBytes_writeChunkHeader]
  obtain ⟨hp,ht⟩ := append_inj hr (by rw [f.length_eq,g.length_eq,heq])
  obtain ⟨header,payload,_,_⟩ := f
  cases heq
  cases hp
  exact ⟨rfl,ht⟩

theorem frames_unique {fs gs : List Frame} {t u : Bytes} (hlen : fs.length = gs.length)
    (h : fs.flatMap Frame.bytes ++ t = gs.flatMap Frame.bytes ++ u) : fs = gs := by
  induction fs generalizing gs with
  | nil => exact (length_eq_zero_iff.mp hlen.symm).symm
  | cons f fs ih =>
    cases gs with
    | nil => cases hlen
    | cons g gs =>
      rw [flatMap_cons,flatMap_cons,append_assoc,append_assoc] at h
      obtain ⟨rfl,hr⟩ := Frame.bytes_append_inj h
      rw [ih (Nat.succ.inj hlen) hr]

/-- The headers and payloads at the start of some bytes; `fuel` bounds their number. -/
def frameParts : ℕ → Bytes → List (XorbChunkHeader × Bytes)
  | 0, _ => []
  | fuel + 1, t =>
    match (deserializeChunkHeader : Reader Bytes CoreError XorbChunkHeader).run t with
    | .error _ => []
    | .ok (header,t') =>
      (header,t'.take header.compressedLength) :: frameParts fuel (t'.drop header.compressedLength)

def rawParts (raw : Bytes) : List (XorbChunkHeader × Bytes) := frameParts (raw.length + 1) raw

theorem frameParts_frames {fuel : ℕ} {ds : List (DecodedFrame E.lz4)} (hr : EndsFrames rest)
    (hf : (ds.flatMap DecodedFrame.bytes ++ rest).length < fuel) :
    frameParts fuel (ds.flatMap DecodedFrame.bytes ++ rest) = ds.map fun d =>
      (d.frame.header,d.frame.payload) := by
  induction ds generalizing fuel with
  | nil =>
    cases fuel with
    | zero => rfl
    | succ fuel =>
      rcases hr with rfl | hr
      · rfl
      · rw [flatMap_nil,nil_append,frameParts,hr]
        rfl
  | cons d ds ih =>
    cases fuel with
    | zero => omega
    | succ fuel =>
      have hp := d.bytes_length
      rw [flatMap_cons,append_assoc,length_append] at hf
      rw [frameParts,deserializeChunkHeader_cons]
      dsimp only
      rw [take_left' d.frame.length_eq,drop_left' d.frame.length_eq,ih (by omega)]
      rfl

section Accepted
variable {ds : List (DecodedFrame E.lz4)} {cs : List (StoredChunk E.lz4)} {Z : Compressor}

def StoredChunk.decoded {Z : Compressor} (c : StoredChunk Z) : DecodedFrame Z :=
  ⟨c.frame,c.chunk,c.read,c.decode_eq⟩

theorem exists_stored (h : ∀ d ∈ ds, d.chunk.length = d.frame.header.uncompressedLength.val) :
    ∃ cs : List (StoredChunk E.lz4), ds = cs.map StoredChunk.decoded := by
  induction ds with
  | nil => exact ⟨[],rfl⟩
  | cons d ds ih =>
    obtain ⟨cs,rfl⟩ := ih fun d' hd' => h d' (mem_cons_of_mem d hd')
    exact ⟨⟨d.frame,d.chunk,d.read,d.decode_eq,h d mem_cons_self⟩ :: cs,rfl⟩

theorem StoredChunk.asU32_chunk_length (c : StoredChunk Z) : asU32 c.chunk.length = c.chunk.length := by
  rw [c.length_eq,c.frame.asU32_uncompressedLength]

section
variable (cs)

theorem flatMap_decoded : (cs.map StoredChunk.decoded).flatMap DecodedFrame.bytes =
    cs.flatMap StoredChunk.bytes := by
  rw [flatMap_map]
  rfl

theorem decodedInfo_decoded : decodedInfo E (cs.map StoredChunk.decoded) = XorbObject.infoOf E cs := by
  have hl : (cs.map fun c => asU32 c.chunk.length) = cs.map fun c => c.chunk.length :=
    map_congr_left fun c _ => c.asU32_chunk_length
  simp only [decodedInfo,map_map,length_map,Function.comp_def,StoredChunk.decoded,hl]
  rfl

end

/-- The chunk lengths are announced, the last payload is read whole, and the object has fewer than 4
GiB. -/
structure Checkable (ds : List (DecodedFrame E.lz4)) : Prop where
  length_eq : ∀ d ∈ ds, d.chunk.length = d.frame.header.uncompressedLength.val
  last_whole : ∀ d, ds.getLast? = some d → d.read = d.frame.payload.length
  size_lt : (ds.flatMap DecodedFrame.bytes).length + (92 + 40 * ds.length) + 4 < 2 ^ 32

theorem accepts_of_checkable (hf : ({} : RebuiltChunks).Fits ds) (h : Checkable ds) :
    ∃ cs, XorbObject.Accepts E (ds.flatMap DecodedFrame.bytes ++ rebuiltFooter E ds)
      (decodedInfo E ds).xorbHash
      ⟨rebuiltInfo E ds,asU32 (rebuiltInfo E ds).footerBytes.length⟩ cs := by
  have hl := h.last_whole
  have hs := h.size_lt
  have hu : (ds.map fun d => asU32 d.chunk.length).sum < 2 ^ 32 := (Nat.zero_add _).symm.trans_lt hf.2
  have hlen : asU32 (rebuiltInfo E ds).footerBytes.length = 92 + 40 * ds.length := by
    rw [length_rebuiltInfo,asU32_of_lt (by omega)]
  obtain ⟨cs,rfl⟩ := exists_stored h.length_eq
  rw [flatMap_decoded,length_map] at hs
  rw [map_map,Function.comp_def,map_congr_left fun c _ => c.asU32_chunk_length,← length_flatMap] at hu
  rw [length_map] at hlen
  refine ⟨cs,?_⟩
  rw [hlen,decodedInfo_decoded,rebuiltFooter,rebuiltInfo,decodedInfo_decoded,flatMap_decoded]
  refine XorbObject.accepts_objectOf hu ?_ fun c hc => ?_
  · rwa [XorbObject.length_objectOf]
  · rw [c.unread_eq_nil]
    exact hl c.decoded (by rw [getLast?_map,hc]; rfl)

theorem checkable_of_accepts {xorb : XorbObject} {hash : DataHash}
    (hx : xorb = ⟨rebuiltInfo E ds,asU32 (rebuiltInfo E ds).footerBytes.length⟩)
    (h : XorbObject.Accepts E (ds.flatMap DecodedFrame.bytes ++ rebuiltFooter E ds) hash xorb cs) :
    Checkable ds := by
  obtain ⟨tail,ht⟩ := h.chunks
  have hf : (cs.map StoredChunk.decoded).map DecodedFrame.frame = ds.map DecodedFrame.frame := by
    refine frames_unique (t := tail) (u := rebuiltFooter E ds) ?_ ?_
    · have hn : cs.length = ds.length := by
        rw [h.numChunks_eq,hx]
        rfl
      rw [length_map,length_map,length_map,hn]
    · rw [map_map,flatMap_map,flatMap_map]
      exact ht.symm
  obtain rfl := map_injective_iff.mpr DecodedFrame.frame_injective hf
  have hp := h.position
  obtain ⟨rest,hr⟩ := h.footer
  obtain ⟨-,e,hre,-,hin,-⟩ := XorbObject.deserialize_eq_ok hr
  have hfo : e.length = 92 + 40 * cs.length := by
    rw [(hre.current (by rw [hx]; rfl)).2,hx,length_rebuiltInfo,length_map]
  refine ⟨?_,?_,?_⟩
  · intro d hd
    obtain ⟨c,-,rfl⟩ := mem_map.mp hd
    exact c.length_eq
  · intro d hd
    rw [getLast?_map,Option.map_eq_some_iff] at hd
    obtain ⟨c,hc,rfl⟩ := hd
    exact c.unread_eq_nil.mp (h.last_whole c hc)
  · rw [flatMap_decoded,length_map]
    simp only [asU32] at hp
    omega

/-- What a payload decodes to, and how much of it is read. -/
def decodePart (Z : Compressor) (part : XorbChunkHeader × Bytes) : Result (Bytes × ℕ) := do
  let scheme ← part.1.getCompressionScheme
  Z.decode scheme part.2

/-- Every chunk of the raw bytes decodes to as many bytes as its header announces, the last
payload is read to its end, and there is room for the footer below 4 GiB. -/
structure Announced (E : XorbEnv) (raw : Bytes) : Prop where
  length_eq : ∀ part ∈ rawParts raw,
    (decodePart E.lz4 part).map (fun r => r.1.length) = .ok part.1.uncompressedLength.val
  last_whole : ∀ part ∈ (rawParts raw).getLast?, (decodePart E.lz4 part).map Prod.snd = .ok part.2.length
  size_lt : ((rawParts raw).map fun part => 8 + part.2.length).sum +
    (92 + 40 * (rawParts raw).length) + 4 < 2 ^ 32

theorem rawParts_eq (h : EndsFrames rest) :
    rawParts (ds.flatMap DecodedFrame.bytes ++ rest) = ds.map fun d => (d.frame.header,d.frame.payload) :=
  frameParts_frames h (Nat.lt_succ_self _)

theorem decodePart_frame (d : DecodedFrame Z) :
    decodePart Z (d.frame.header,d.frame.payload) = .ok (d.chunk,d.read) := d.decode_eq

theorem announced_iff (h : EndsFrames rest) :
    Announced E (ds.flatMap DecodedFrame.bytes ++ rest) ↔ Checkable ds := by
  have hsu : (ds.map fun d => 8 + d.frame.payload.length).sum =
    (ds.flatMap DecodedFrame.bytes).length := by
    rw [length_flatMap]
    exact congrArg List.sum (map_congr_left fun d _ => by rw [d.bytes_length,d.frame.length_eq])
  constructor
  · rintro ⟨hlen,hl,hs⟩
    rw [rawParts_eq h] at hlen hl hs
    rw [map_map,length_map] at hs
    refine ⟨fun d hd => ?_,fun d hd => ?_,?_⟩
    · have hd' := hlen _ (mem_map_of_mem hd)
      rw [decodePart_frame] at hd'
      exact Except.ok.inj hd'
    · have hd' := hl (d.frame.header,d.frame.payload) (by rw [getLast?_map,hd]; rfl)
      rw [decodePart_frame] at hd'
      exact Except.ok.inj hd'
    · rw [← hsu]
      exact hs
  · rintro ⟨hlen,hl,hs⟩
    refine ⟨?_,?_,?_⟩
    · rw [rawParts_eq h]
      intro part hp
      obtain ⟨d,hd,rfl⟩ := mem_map.mp hp
      rw [decodePart_frame]
      exact congrArg Except.ok (hlen d hd)
    · rw [rawParts_eq h]
      intro part hp
      rw [getLast?_map,Option.mem_def,Option.map_eq_some_iff] at hp
      obtain ⟨d,hd,rfl⟩ := hp
      rw [decodePart_frame]
      exact congrArg Except.ok (hl d hd)
    · rw [rawParts_eq h,map_map,length_map]
      rwa [← hsu] at hs

end Accepted

/-- Rebuilding its own output changes nothing, and validation accepts that output exactly when
the raw chunks are what their headers announce. -/
theorem reconstructed_accepted_iff {E : XorbEnv} {raw out : Bytes} {xorb : XorbObject} {hash : DataHash}
    (h : reconstructXorbWithFooter E raw = .ok ((xorb,hash),out)) (hchunk : rawParts raw ≠ []) :
    ((XorbObject.validateXorbObject E out hash).run = .ok (some xorb) ∧
      reconstructXorbWithFooter E out = .ok ((xorb,hash),out)) ↔ Announced E raw := by
  have hagain := reconstructXorbWithFooter_again h
  obtain ⟨ds,rest,rfl,hrest,⟨hfits,-⟩,hx,rfl,rfl⟩ := reconstructXorbWithFooter_eq_ok.mp h
  have hne : xorb.info.numChunks ≠ 0 := by
    rw [rawParts_eq hrest] at hchunk
    rw [hx]
    exact fun hzero => hchunk (by rw [length_eq_zero_iff.mp hzero,map_nil])
  rw [announced_iff hrest,XorbObject.validateXorbObject_eq_ok hne,and_iff_left hagain]
  constructor
  · rintro ⟨cs,hcs⟩
    exact checkable_of_accepts hx hcs
  · intro hds
    rw [hx]
    exact accepts_of_checkable hfits hds

/-- One stored byte, with the length that its header announces. -/
def oneByteRaw (announced : UInt8) : Bytes := [0,1,0,0,0,announced,0,0,7]

theorem reconstructed_accepted_iff_honest : ∃ xorb hash out,
    reconstructXorbWithFooter plainEnv (oneByteRaw 1) = .ok ((xorb,hash),out) ∧
    rawParts (oneByteRaw 1) ≠ [] ∧
      (XorbObject.validateXorbObject plainEnv out hash).run = .ok (some xorb) ∧
      reconstructXorbWithFooter plainEnv out = .ok ((xorb,hash),out) := by
  obtain ⟨⟨⟨xorb,hash⟩,out⟩,h⟩ : ∃ r, reconstructXorbWithFooter plainEnv (oneByteRaw 1) = .ok r := ⟨_,rfl⟩
  have hparts : rawParts (oneByteRaw 1) ≠ [] := by decide +kernel
  have hann : Announced plainEnv (oneByteRaw 1) := ⟨by decide +kernel,by decide +kernel,by decide +kernel⟩
  exact ⟨xorb,hash,out,h,hparts,(reconstructed_accepted_iff h hparts).mpr hann⟩

/-- The header announces two bytes: the object is rebuilt, and validation refuses it. -/
theorem reconstructed_refused : ∃ xorb hash out,
    reconstructXorbWithFooter plainEnv (oneByteRaw 2) = .ok ((xorb,hash),out) ∧
    rawParts (oneByteRaw 2) ≠ [] ∧
      (XorbObject.validateXorbObject plainEnv out hash).run = .ok none :=
  ⟨_,_,_,rfl,by decide +kernel,by decide +kernel⟩

end XetCore.Xorb
