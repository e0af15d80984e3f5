import XetCore.Xorb.ObjectWriter
import XetCore.Xorb.StoredObject

/-! # Rebuilding the footer

The server copies the chunks that it receives, up to the end or to a footer, and builds the
footer anew from what they decode to. Rebuilding the result changes nothing, because its
chunks are the same and the loop stops at the footer.
-/
namespace XetCore.Xorb
open ByteSources Serialization Chunking Extents List
open Merkle (DataHash xorbHash)

structure DecodedFrame (Z : Compressor) where
  frame : Frame
  chunk : Bytes
  read : ℕ
  decode_eq : frame.decode Z = .ok (chunk,read)

namespace DecodedFrame
variable {Z : Compressor} (d : DecodedFrame Z)

def bytes : Bytes := d.frame.bytes

theorem bytes_length : d.bytes.length = 8 + d.frame.header.compressedLength.val := by
  rw [bytes,Frame.bytes_length,d.frame.length_eq,Nat.add_comm]

theorem asU32_bytes_length : asU32 (8 + d.frame.header.compressedLength.val) = d.bytes.length := by
  rw [d.bytes_length,asU32_of_lt (by omega)]

theorem frame_injective : Function.Injective (frame : DecodedFrame Z → Frame) := by
  rintro ⟨f,chunk,read,hd⟩ ⟨g,chunk',read',hd'⟩ (rfl : f = g)
  cases hd.symm.trans hd'
  rfl

end DecodedFrame

theorem deserializeChunkHeader_cons {Z : Compressor} (d : DecodedFrame Z)
    (ds : List (DecodedFrame Z)) (rest : Bytes) :
    (deserializeChunkHeader : Reader Bytes CoreError XorbChunkHeader).run
      ((d :: ds).flatMap DecodedFrame.bytes ++ rest) =
      .ok (d.frame.header,d.frame.payload ++ (ds.flatMap DecodedFrame.bytes ++ rest)) := by
  refine deserializeChunkHeader_eq_ok.mpr ⟨?_,d.frame.valid⟩
  rw [flatMap_cons,DecodedFrame.bytes,Frame.bytes,append_assoc,append_assoc]

section Loop
variable {E : XorbEnv} {d : DecodedFrame E.lz4} {s s' : RebuiltChunks} {t : Bytes}

def lastOffset (offsets : List ℕ) : ℕ := offsets.getLast?.getD 0

def RebuiltChunks.after (s : RebuiltChunks) (ds : List (DecodedFrame E.lz4)) : RebuiltChunks where
  hashAndSize := s.hashAndSize ++ ds.map fun d => (E.dataHash d.chunk,d.chunk.length)
  chunkHashes := s.chunkHashes ++ ds.map fun d => E.dataHash d.chunk
  chunkBoundaryOffsets := s.chunkBoundaryOffsets ++
    boundariesFrom (lastOffset s.chunkBoundaryOffsets) (ds.map fun d => d.bytes.length)
  unpackedChunkOffsets := s.unpackedChunkOffsets ++
    boundariesFrom (lastOffset s.unpackedChunkOffsets) (ds.map fun d => asU32 d.chunk.length)
  written := s.written ++ ds.flatMap DecodedFrame.bytes

theorem lastOffset_concat (offsets : List ℕ) (o : ℕ) : lastOffset (offsets ++ [o]) = o := by
  rw [lastOffset,getLast?_concat,Option.getD_some]

theorem RebuiltChunks.after_nil (s : RebuiltChunks) : s.after ([] : List (DecodedFrame E.lz4)) = s := by
  simp [after,boundariesFrom]

theorem RebuiltChunks.after_cons (s : RebuiltChunks) (d : DecodedFrame E.lz4)
    (ds : List (DecodedFrame E.lz4)) :
    s.after (d :: ds) = (s.after [d]).after ds := by
  simp [after,boundariesFrom,lastOffset_concat,append_assoc]

def RebuiltChunks.Fits (s : RebuiltChunks) (ds : List (DecodedFrame E.lz4)) : Prop :=
  lastOffset s.chunkBoundaryOffsets + (ds.flatMap DecodedFrame.bytes).length < 2 ^ 32 ∧
    lastOffset s.unpackedChunkOffsets + (ds.map fun d => asU32 d.chunk.length).sum < 2 ^ 32

theorem rebuildChunk_eq_ok {header : XorbChunkHeader} {t' : Bytes}
    (hv : header.validate = .ok ()) : rebuildChunk E header t s = .ok (s',t') ↔
      ∃ d : DecodedFrame E.lz4, d.frame.header = header ∧ t = d.frame.payload ++ t' ∧ s.Fits [d] ∧
      s' = s.after [d] := by
  simp only [rebuildChunk,bind_eq_ok,mapError_eq_ok,map_eq_ok,addU32_eq_ok,Compressor.decompressFromSlice]
  constructor
  · rintro ⟨⟨payload,rest⟩,hre,scheme,hs,data,⟨⟨chunk,k⟩,hd,rfl⟩,b,⟨rfl,hb⟩,u,⟨rfl,hu⟩,hr⟩
    obtain ⟨_,rfl,rfl,hlen⟩ := parses_bytes _ _ _ _ hre
    cases hr
    let d : DecodedFrame E.lz4 := ⟨⟨header,payload,hv,hlen⟩,chunk,k,bind_eq_ok.mpr ⟨scheme,hs,hd⟩⟩
    have hby : asU32 (chunkHeaderLength + header.compressedLength) = d.bytes.length :=
      d.asU32_bytes_length
    rw [hby] at hb
    refine ⟨d,rfl,rfl,⟨?_,?_⟩,?_⟩
    · rwa [flatMap_singleton]
    · rwa [map_singleton,sum_singleton]
    · simp only [RebuiltChunks.after,flatMap_singleton,hby]
      rw [append_assoc]
      rfl
  · rintro ⟨d,rfl,rfl,⟨hb,hu⟩,rfl⟩
    obtain ⟨scheme,hs,hd⟩ := bind_eq_ok.mp d.decode_eq
    have hby := d.asU32_bytes_length
    rw [flatMap_singleton] at hb
    refine ⟨_,reads_bytes_of_length d.frame.length_eq t',scheme,hs,d.chunk,⟨_,hd,rfl⟩,_,⟨rfl,?_⟩,_,
      ⟨rfl,hu⟩,?_⟩
    · rwa [hby]
    · simp only [RebuiltChunks.after,flatMap_singleton,hby]
      rw [append_assoc]
      rfl

/-- The loop stops at the end and in front of a footer. -/
def EndsFrames (t : Bytes) : Prop :=
  t = [] ∨ (deserializeChunkHeader : Reader Bytes CoreError XorbChunkHeader).run t =
    .error .chunkHeaderParse

theorem RebuiltChunks.fits_cons {ds : List (DecodedFrame E.lz4)} :
    s.Fits (d :: ds) ↔ s.Fits [d] ∧ (s.after [d]).Fits ds := by
  simp only [Fits,after,map_cons,map_nil,boundariesFrom,lastOffset_concat,flatMap_cons,
    flatMap_nil,append_nil,length_append,sum_cons,sum_nil]
  omega

theorem rebuildChunks_of_endsFrames {fuel : ℕ} (h : EndsFrames t) (s : RebuiltChunks) :
    rebuildChunks E fuel t s = .ok s := by
  cases fuel with
  | zero => rfl
  | succ fuel =>
    rcases h with rfl | h
    · rfl
    · rw [rebuildChunks,h]
      split <;> rfl

theorem rebuildChunks_eq_ok {fuel : ℕ} (hfu : t.length < fuel)
    (hs : s.Fits ([] : List (DecodedFrame E.lz4))) : rebuildChunks E fuel t s = .ok s' ↔
      ∃ (ds : List (DecodedFrame E.lz4)) (rest : Bytes), t = ds.flatMap DecodedFrame.bytes ++ rest ∧
        EndsFrames rest ∧ s.Fits ds ∧ s' = s.after ds := by
  induction fuel generalizing t s with
  | zero => omega
  | succ fuel ih =>
    constructor
    · intro h
      by_cases he : EndsFrames t
      · rw [rebuildChunks_of_endsFrames he] at h
        exact ⟨[],t,rfl,he,hs,(Except.ok.inj h).symm.trans s.after_nil.symm⟩
      rw [rebuildChunks,if_neg (by simpa using fun ht => he (.inl ht))] at h
      split at h
      next hpa => exact absurd (.inr hpa) he
      next => cases h
      next r hr =>
        obtain ⟨⟨next,t'⟩,hst,hl⟩ := bind_eq_ok.mp h
        obtain ⟨ht,hv⟩ := deserializeChunkHeader_eq_ok.mp hr
        obtain ⟨d,hd,hp,hf,rfl⟩ := (rebuildChunk_eq_ok hv).mp hst
        have hb : t = d.bytes ++ t' := by
          rw [ht,hp,DecodedFrame.bytes,Frame.bytes,hd,append_assoc]
        have hlen := congrArg List.length hb
        rw [length_append,d.bytes_length] at hlen
        obtain ⟨ds,rest,rfl,hre,hds,rfl⟩ :=
          (ih (by dsimp only; omega) (RebuiltChunks.fits_cons.mp hf).2).mp hl
        refine ⟨d :: ds,rest,?_,hre,RebuiltChunks.fits_cons.mpr ⟨hf,hds⟩,(s.after_cons d ds).symm⟩
        rw [hb,flatMap_cons,append_assoc]
    · rintro ⟨ds,rest,rfl,hre,hf,rfl⟩
      cases ds with
      | nil =>
        rw [s.after_nil]
        exact rebuildChunks_of_endsFrames hre s
      | cons d ds =>
        obtain ⟨hd,hds⟩ := RebuiltChunks.fits_cons.mp hf
        have hst : rebuildChunk E d.frame.header
          (d.frame.payload ++ (ds.flatMap DecodedFrame.bytes ++ rest)) s =
            .ok (s.after [d],ds.flatMap DecodedFrame.bytes ++ rest) :=
          (rebuildChunk_eq_ok d.frame.valid).mpr ⟨d,rfl,rfl,hd,rfl⟩
        have hlen : ((d :: ds).flatMap DecodedFrame.bytes ++ rest).length =
            d.bytes.length + (ds.flatMap DecodedFrame.bytes ++ rest).length := by
          rw [flatMap_cons,append_assoc,length_append]
        have hpo := d.bytes_length
        rw [rebuildChunks,if_neg (by
          rw [isEmpty_iff_length_eq_zero]
          omega),deserializeChunkHeader_cons]
        refine bind_eq_ok.mpr ⟨_,hst,
          (ih (by dsimp only; omega) (RebuiltChunks.fits_cons.mp hd).2).mpr ⟨ds,rest,rfl,hre,hds,?_⟩⟩
        exact s.after_cons d ds

end Loop

section Object
variable (E : XorbEnv) (ds : List (DecodedFrame E.lz4))

def decodedInfo : XorbObjectInfoV1 where
  xorbHash := xorbHash E.hasher (ds.map fun d => (E.dataHash d.chunk,d.chunk.length))
  chunkHashes := ds.map fun d => E.dataHash d.chunk
  chunkBoundaryOffsets := boundariesFrom 0 (ds.map fun d => d.bytes.length)
  unpackedChunkOffsets := boundariesFrom 0 (ds.map fun d => asU32 d.chunk.length)
  numChunks := ds.length

def rebuiltInfo : XorbObjectInfoV1 :=
  { decodedInfo E ds with
    boundarySectionOffsetFromEnd := asU32 (decodedInfo E ds).boundaryLength
    hashesSectionOffsetFromEnd :=
      asU32 (decodedInfo E ds).hashesLength + asU32 (decodedInfo E ds).boundaryLength }

def rebuiltFooter : Bytes :=
  (rebuiltInfo E ds).footerBytes ++ writeU32 (asU32 (rebuiltInfo E ds).footerBytes.length)

def Rebuildable : Prop :=
  ({} : RebuiltChunks).Fits ds ∧
    asU32 (decodedInfo E ds).hashesLength + asU32 (decodedInfo E ds).boundaryLength < 2 ^ 32

variable {E} {ds} {raw out : Bytes} {xorb : XorbObject} {hash : DataHash}

theorem length_le_bytes (ds : List (DecodedFrame E.lz4)) :
    8 * ds.length ≤ (ds.flatMap DecodedFrame.bytes).length := by
  induction ds with
  | nil => exact Nat.zero_le _
  | cons d ds ih =>
    have hlen := d.bytes_length
    rw [flatMap_cons,length_append,length_cons]
    omega

theorem RebuiltChunks.Fits.length_lt (h : ({} : RebuiltChunks).Fits ds) : ds.length < 2 ^ 32 := by
  have hlt : 0 + (ds.flatMap DecodedFrame.bytes).length < 2 ^ 32 := h.1
  have hle := length_le_bytes ds
  omega

theorem length_rebuiltInfo (ds : List (DecodedFrame E.lz4)) :
    (rebuiltInfo E ds).footerBytes.length = 92 + 40 * ds.length := by
  rw [XorbObjectInfoV1.length_footerBytes rfl rfl rfl rfl]
  simp only [rebuiltInfo,decodedInfo,XorbObjectInfoV1.serializedLength,boundariesFrom_length,length_map,
    identLength,xorbObjectFormatFooterBufferLen]
  omega

theorem endsFrames_rebuiltFooter (ds : List (DecodedFrame E.lz4)) : EndsFrames (rebuiltFooter E ds) := by
  obtain ⟨rest,hr⟩ : ∃ rest, rebuiltFooter E ds =
    (xorbObjectFormatIdent ++ writeU8 xorbObjectFormatVersion) ++ rest := by
    exact ⟨_,rfl⟩
  refine Or.inr ?_
  rfl

theorem info_after (h : ({} : RebuiltChunks).Fits ds) :
    ({ xorbHash := xorbHash E.hasher (({} : RebuiltChunks).after ds).hashAndSize
       chunkHashes := (({} : RebuiltChunks).after ds).chunkHashes
       chunkBoundaryOffsets := (({} : RebuiltChunks).after ds).chunkBoundaryOffsets
       unpackedChunkOffsets := (({} : RebuiltChunks).after ds).unpackedChunkOffsets
       numChunks := asU32 (({} : RebuiltChunks).after ds).hashAndSize.length } : XorbObjectInfoV1) =
      decodedInfo E ds := by
  have hlen : asU32 (({} : RebuiltChunks).after ds).hashAndSize.length = ds.length := by
    simp only [RebuiltChunks.after,nil_append,length_map]
    exact asU32_of_lt h.length_lt
  rw [hlen]
  rfl

theorem serializeGivenInfo_rebuiltInfo (ds : List (DecodedFrame E.lz4)) :
    XorbObject.serializeGivenInfo (rebuiltInfo E ds) =
      .ok (⟨rebuiltInfo E ds,asU32 (rebuiltInfo E ds).footerBytes.length⟩,rebuiltFooter E ds) := by
  have he (ns : List ℕ) (h : ns.length = ds.length) : ds.length = (boundariesFrom 0 ns).length := by
    rw [boundariesFrom_length,h]
  rw [XorbObject.serializeGivenInfo,XorbObject.serialize_eq_ok (length_map _).symm (he _ (length_map _))
    (he _ (length_map _))]
  rfl

/-- Rebuilding succeeds exactly on frames that decode, and appends the footer to them. -/
theorem reconstructXorbWithFooter_eq_ok : reconstructXorbWithFooter E raw = .ok ((xorb,hash),out) ↔
      ∃ (ds : List (DecodedFrame E.lz4)) (rest : Bytes), raw = ds.flatMap DecodedFrame.bytes ++ rest ∧
        EndsFrames rest ∧ Rebuildable E ds ∧
        xorb = ⟨rebuiltInfo E ds,asU32 (rebuiltInfo E ds).footerBytes.length⟩ ∧
        hash = (decodedInfo E ds).xorbHash ∧
        out = ds.flatMap DecodedFrame.bytes ++ rebuiltFooter E ds := by
  have he : ({} : RebuiltChunks).Fits ([] : List (DecodedFrame E.lz4)) :=
    ⟨Nat.two_pow_pos 32,Nat.two_pow_pos 32⟩
  simp only [reconstructXorbWithFooter,bind_eq_ok,rebuildChunks_eq_ok (Nat.lt_succ_self raw.length) he]
  constructor
  · rintro ⟨_,⟨ds,rest,hra,hre,hf,rfl⟩,info,hin,r,hr,hx⟩
    rw [info_after hf] at hin
    obtain ⟨ho,rfl⟩ := XorbObjectInfoV1.fillInBoundaryOffsets_eq_ok.mp hin
    cases (serializeGivenInfo_rebuiltInfo ds).symm.trans hr
    obtain ⟨hxh,rfl⟩ := Prod.mk.inj (Except.ok.inj hx)
    cases hxh
    exact ⟨ds,rest,hra,hre,⟨hf,ho⟩,rfl,rfl,rfl⟩
  · rintro ⟨ds,rest,hra,hre,⟨hf,ho⟩,rfl,rfl,rfl⟩
    refine ⟨_,⟨ds,rest,hra,hre,hf,rfl⟩,rebuiltInfo E ds,?_,_,serializeGivenInfo_rebuiltInfo ds,rfl⟩
    rw [info_after hf]
    exact XorbObjectInfoV1.fillInBoundaryOffsets_eq_ok.mpr ⟨ho,rfl⟩

theorem reconstructXorbWithFooter_again (h : reconstructXorbWithFooter E raw = .ok ((xorb,hash),out)) :
    reconstructXorbWithFooter E out = .ok ((xorb,hash),out) := by
  obtain ⟨ds,rest,-,-,hds,hx,hh,ho⟩ := reconstructXorbWithFooter_eq_ok.mp h
  exact reconstructXorbWithFooter_eq_ok.mpr ⟨ds,_,ho,endsFrames_rebuiltFooter ds,hds,hx,hh,ho⟩

end Object

end XetCore.Xorb
