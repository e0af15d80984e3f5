import XetCore.Xorb.ChunkStream

/-! # The two chunk decoders compared

One decoder reads the body of a chunk through a view of limited length, the other reads
all of the body first. They part at a chunk of whose body something stays unread: the
first one goes on at the bytes that were not read, the second one behind the body.
-/
namespace XetCore.Xorb
open ByteSources Serialization List

variable {Z : Compressor} {body chunk : Bytes} {header : XorbChunkHeader}

theorem tryReadChunkHeader_cases (bs : Bytes) :
    bs = [] ∨ (∃ e, (tryReadChunkHeader : Reader Bytes CoreError _).run bs = .error e) ∨
      ∃ header body, header.validate = .ok () ∧ bs = writeChunkHeader header ++ body := by
  have hr := readOrEnd_cursor (CoreError.io .unexpectedEof) (by decide : 0 < chunkHeaderLength) bs
  by_cases hn : bs = []
  · exact .inl hn
  rw [if_neg hn] at hr
  split_ifs at hr with hlen
  · cases hp : parseChunkHeader (bs.take chunkHeaderLength) with
    | error e =>
      refine .inr (.inl ⟨e,?_⟩)
      rw [tryReadChunkHeader,run_bind_of_ok hr]
      simp only [hp]
      rfl
    | ok header =>
      obtain ⟨hb,hv⟩ := parseChunkHeader_eq_ok (length_take_of_le hlen) hp
      exact .inr (.inr ⟨header,bs.drop chunkHeaderLength,hv,by rw [← hb,take_append_drop]⟩)
  · exact .inr (.inl ⟨_,by rw [tryReadChunkHeader,run_bind_of_error hr]⟩)

section Bodies
variable {k : ℕ}

/-- The frame at the start of a body, and how much of the body is read. -/
def decodeBody (Z : Compressor) (header : XorbChunkHeader) (body : Bytes) : Result (Bytes × ℕ) := do
  let scheme ← header.getCompressionScheme
  Z.decode scheme (body.take header.compressedLength)

/-- The body starts with a frame of as many bytes as the header announces. -/
structure BodyHolds (Z : Compressor) (header : XorbChunkHeader) (body chunk : Bytes) (k : ℕ) : Prop where
  valid : header.validate = .ok ()
  decode_eq : decodeBody Z header body = .ok (chunk,k)
  length_eq : chunk.length = header.uncompressedLength.val

section
variable (h : BodyHolds Z header body chunk k)
include h

theorem BodyHolds.read_le : k ≤ header.compressedLength ∧ k ≤ body.length := by
  obtain ⟨scheme,-,hd⟩ := bind_eq_ok.mp h.decode_eq
  have hle := Compressor.decode_consumed_le hd
  rw [length_take] at hle
  omega

theorem BodyHolds.asU32_length : asU32 chunk.length = chunk.length := by
  have hle := (validate_eq_ok.mp h.valid).2.2.2
  rw [← h.length_eq] at hle
  exact asU32_of_lt (hle.trans_lt (by decide))

theorem BodyHolds.run : (deserializeChunkWithHeaderToWriter Z header).run body =
    .ok ((chunk,header.compressedLength + chunkHeaderLength,chunk.length),body.drop k) := by
  obtain ⟨scheme,hs,hd⟩ := bind_eq_ok.mp h.decode_eq
  exact deserializeChunkWithHeader_eq_ok.mpr ⟨scheme,k,hs,hd,h.length_eq,by rw [h.asU32_length],rfl⟩

end

theorem deserializeChunkWithHeaderAsync_eq_ok {bs bs' : Bytes} {r : Bytes × ℕ × ℕ} :
    (deserializeChunkWithHeaderToWriterAsync Z header).run bs = .ok (r,bs') ↔
      header.compressedLength ≤ bs.length ∧ bs' = bs.drop header.compressedLength ∧
      ∃ k, decodeBody Z header bs = .ok (r.1,k) ∧ r.1.length = header.uncompressedLength ∧
        r.2 = (header.compressedLength + chunkHeaderLength,asU32 r.1.length) := by
  simp only [deserializeChunkWithHeaderToWriterAsync,run_bind_eq_ok,run_lift_eq_ok,run_pure_eq_ok,
    ensure_eq_ok,Compressor.decompressFromSlice,map_eq_ok,decodeBody,bind_eq_ok]
  constructor
  · rintro ⟨compressed,_,hre,scheme,_,⟨hs,rfl⟩,out,_,⟨⟨⟨_,k⟩,hd,rfl⟩,rfl⟩,_,_,⟨hl,rfl⟩,rfl,rfl⟩
    obtain ⟨_,rfl,rfl,hlen⟩ := parses_bytes _ _ _ _ hre
    refine ⟨by simp [← hlen],by rw [← hlen,drop_left],k,⟨scheme,hs,?_⟩,hl,rfl⟩
    rwa [← hlen,take_left]
  · rintro ⟨hle,rfl,k,⟨scheme,hs,hd⟩,hl,hr⟩
    have hre := reads_bytes_of_length (length_take_of_le hle) (bs.drop header.compressedLength)
    rw [take_append_drop] at hre
    exact ⟨_,_,hre,scheme,_,⟨hs,rfl⟩,r.1,_,⟨⟨(r.1,k),hd,rfl⟩,rfl⟩,(),_,⟨hl,rfl⟩,Prod.ext rfl hr,rfl⟩

end Bodies

/-- Up to the first malformed chunk, every body is complete and read to its end. A chunk is
malformed if no header or no frame of the announced length can be read, or the number of decoded
bytes, which the index counts, leaves its type. -/
inductive WholeBodies (Z : Compressor) : ℕ → Bytes → Prop
  | malformed {n : ℕ} {bs : Bytes} (none : ∀ header body chunk k,
      bs = writeChunkHeader header ++ body → BodyHolds Z header body chunk k →
        ¬n + chunk.length < 2 ^ 32) : WholeBodies Z n bs
  | chunk {n : ℕ} {header : XorbChunkHeader} {body chunk : Bytes}
      (holds : BodyHolds Z header body chunk header.compressedLength)
      (rest : WholeBodies Z (n + chunk.length) (body.drop header.compressedLength)) :
      WholeBodies Z n (writeChunkHeader header ++ body)

section Agreement
variable {k : ℕ} (fuel : ℕ) (d : DecodedChunks)

/-- One turn of both loops at a chunk whose body holds a frame that is read to its end. -/
theorem BodyHolds.loops_eq (h : BodyHolds Z header body chunk header.compressedLength) :
    (deserializeChunksLoop (deserializeChunkWithHeaderToWriter Z) (fuel + 1) d).run
        (writeChunkHeader header ++ body) =
      (addU32 d.numUncompressedWritten chunk.length).bind (fun total =>
        (deserializeChunksLoop (deserializeChunkWithHeaderToWriter Z) fuel
          (d.push (chunk,header.compressedLength + chunkHeaderLength,chunk.length) total)).run
            (body.drop header.compressedLength)) ∧
    (deserializeChunksLoop (deserializeChunkWithHeaderToWriterAsync Z) (fuel + 1) d).run
        (writeChunkHeader header ++ body) =
      (addU32 d.numUncompressedWritten chunk.length).bind (fun total =>
        (deserializeChunksLoop (deserializeChunkWithHeaderToWriterAsync Z) fuel
          (d.push (chunk,header.compressedLength + chunkHeaderLength,chunk.length) total)).run
            (body.drop header.compressedLength)) := by
  have hs := h.run
  have ha : (deserializeChunkWithHeaderToWriterAsync Z header).run body =
      .ok ((chunk,header.compressedLength + chunkHeaderLength,chunk.length),
        body.drop header.compressedLength) :=
    deserializeChunkWithHeaderAsync_eq_ok.mpr
      ⟨h.read_le.2,rfl,_,h.decode_eq,h.length_eq,by rw [h.asU32_length]⟩
  constructor
  · rw [deserializeChunksLoop_header h.valid,hs]
    rfl
  · rw [deserializeChunksLoop_header h.valid,ha]
    rfl

variable {d}

/-- Where the number of bytes leaves its type, or no frame stands in the body, both loops fail. -/
theorem loops_fail (hv : header.validate = .ok ()) (hno : ∀ chunk k,
      BodyHolds Z header body chunk k → ¬d.numUncompressedWritten + chunk.length < 2 ^ 32) :
    ((deserializeChunksLoop (deserializeChunkWithHeaderToWriter Z) (fuel + 1) d).run
      (writeChunkHeader header ++ body)).toOption = none ∧
    ((deserializeChunksLoop (deserializeChunkWithHeaderToWriterAsync Z) (fuel + 1) d).run
      (writeChunkHeader header ++ body)).toOption = none := by
  constructor
  · rw [deserializeChunksLoop_header hv,toOption_bind,Option.bind_eq_none_iff]
    rintro ⟨r,t⟩ hr
    obtain ⟨scheme,k,hs,hd,hl,hn,-⟩ :=
      deserializeChunkWithHeader_eq_ok.mp (toOption_eq_some.mp hr)
    have h : BodyHolds Z header body r.1 k := ⟨hv,bind_eq_ok.mpr ⟨scheme,hs,hd⟩,hl⟩
    rw [hn,h.asU32_length,addU32,if_neg (hno r.1 k h)]
    rfl
  · rw [deserializeChunksLoop_header hv,toOption_bind,Option.bind_eq_none_iff]
    rintro ⟨r,t⟩ hr
    obtain ⟨-,-,k,hd,hl,hn⟩ :=
      deserializeChunkWithHeaderAsync_eq_ok.mp (toOption_eq_some.mp hr)
    have h : BodyHolds Z header body r.1 k := ⟨hv,hd,hl⟩
    rw [hn,h.asU32_length,addU32,if_neg (hno r.1 k h)]
    rfl

variable {fuel}

theorem loops_agree {n : ℕ} {bs : Bytes} (h : WholeBodies Z n bs)
    (hd : d.numUncompressedWritten = n) :
    ((deserializeChunksLoop (deserializeChunkWithHeaderToWriter Z) fuel d).run bs).toOption =
      ((deserializeChunksLoop (deserializeChunkWithHeaderToWriterAsync Z) fuel d).run
        bs).toOption := by
  induction h generalizing fuel d with
  | @malformed n bs hno =>
    cases fuel with
    | zero => rfl
    | succ fuel =>
      subst hd
      rcases tryReadChunkHeader_cases bs with rfl | ⟨e,he⟩ | ⟨header,body,hv,rfl⟩
      · rw [deserializeChunksLoop_end,deserializeChunksLoop_end]
      · rw [deserializeChunksLoop,deserializeChunksLoop,run_bind_of_error he,
          run_bind_of_error he]
      · obtain ⟨hs,ha⟩ := loops_fail fuel hv fun chunk k => hno header body chunk k rfl
        rw [hs,ha]
  | @chunk n header body chunk holds rest ih =>
    cases fuel with
    | zero => rfl
    | succ fuel =>
      subst hd
      obtain ⟨hs,ha⟩ := holds.loops_eq fuel d
      rw [hs,ha]
      by_cases hlt : d.numUncompressedWritten + chunk.length < 2 ^ 32
      · rw [addU32_of_lt hlt]
        exact ih rfl
      · rw [addU32,if_neg hlt]
        rfl

section Sources
variable {σ τ : Type} [ByteSource σ] [ByteSource τ]

theorem deserializeChunksWith_run
    (decodeChunk : XorbChunkHeader → Reader Bytes CoreError (Bytes × ℕ × ℕ)) (bs : Bytes) :
    (((deserializeChunksWith decodeChunk).run bs).map Prod.fst).toOption =
      ((deserializeChunksLoop decodeChunk (bs.length + 1) {}).run bs).toOption.map
        fun r => (r.1.data,r.1.chunkByteIndices) := by
  have hp : (peek : Reader Bytes CoreError Bytes).run bs = .ok (bs,bs) := rfl
  rw [deserializeChunksWith,run_bind_of_ok hp,StateT.run_bind]
  cases (deserializeChunksLoop decodeChunk (bs.length + 1) {}).run bs <;> rfl

/-- The decoders agree, on sources of the same bytes, if up to the first malformed chunk every body
is complete and is read to its end. -/
theorem decoders_agree (reader : σ) (asyncReader : τ)
    (hbytes : ByteSource.bytes asyncReader = ByteSource.bytes reader)
    (hwhole : WholeBodies Z 0 (ByteSource.bytes reader)) : (deserializeChunks Z reader).toOption =
      (deserializeChunksFromAsyncRead Z asyncReader).toOption := by
  have hsync := follows_deserializeChunksWith (σ := σ) (follows_deserializeChunkWithHeader (Z := Z))
  have hasync := follows_deserializeChunksWith (σ := τ)
    (follows_deserializeChunkWithHeaderAsync (Z := Z))
  rw [deserializeChunks,hsync.result_eq,deserializeChunksFromAsyncRead,hasync.result_eq,hbytes,
    deserializeChunksWith_run,deserializeChunksWith_run,loops_agree hwhole rfl]

/-- A stored chunk and a compressed one, whose bodies are read whole, and a header that is cut off,
from memory and in three items. -/
theorem decoders_agree_cut_off :
    WholeBodies zeroRuns 0 [0,2,0,0,0,2,0,0,7,9,0,1,0,0,1,5,0,0,5,0,1] ∧
      (deserializeChunks zeroRuns
        ([0,2,0,0,0,2,0,0,7,9,0,1,0,0,1,5,0,0,5,0,1] : Bytes)).toOption =
      (deserializeChunksFromAsyncRead zeroRuns
        (ItemStream.mk [[0,2,0,0,0,2,0,0,7],[9,0,1,0],[0,1,5,0,0,5,0,1]])).toOption := by
  have hcut : WholeBodies zeroRuns 7 [0,1] := by
    refine .malformed fun header body _ _ hbs => ?_
    have hlen := congrArg List.length hbs
    rw [length_append,writeChunkHeader_length] at hlen
    simp at hlen
    omega
  have hruns : WholeBodies zeroRuns 2 [0,1,0,0,1,5,0,0,5,0,1] :=
    @WholeBodies.chunk zeroRuns 2 (.new .lz4 1 5) [5,0,1] [0,0,0,0,0]
      ⟨by decide,by decide,by decide⟩ hcut
  have hwhole : WholeBodies zeroRuns 0 [0,2,0,0,0,2,0,0,7,9,0,1,0,0,1,5,0,0,5,0,1] :=
    @WholeBodies.chunk zeroRuns 0 (.new .none 2 2) [7,9,0,1,0,0,1,5,0,0,5,0,1] [7,9]
      ⟨by decide,by decide,by decide⟩ hruns
  exact ⟨hwhole,decoders_agree _ _ rfl hwhole⟩

/-- A body that is one byte short, and a body with eight bytes behind the frame in it, which are
read as the header of an empty chunk. -/
theorem decoders_disagree :
    (deserializeChunks zeroRuns ([0,2,0,0,0,1,0,0,7] : Bytes) = .ok ([7],[0,1]) ∧
      deserializeChunksFromAsyncRead zeroRuns ([0,2,0,0,0,1,0,0,7] : Bytes) =
        .error (.io .unexpectedEof)) ∧
    (deserializeChunks zeroRuns ([0,9,0,0,1,2,0,0,2,0,0,0,0,0,0,0,0] : Bytes) =
        .ok ([0,0],[0,2,2]) ∧
      deserializeChunksFromAsyncRead zeroRuns ([0,9,0,0,1,2,0,0,2,0,0,0,0,0,0,0,0] : Bytes) =
        .ok ([0,0],[0,2])) := by
  decide +kernel

end Sources
end Agreement
end XetCore.Xorb
