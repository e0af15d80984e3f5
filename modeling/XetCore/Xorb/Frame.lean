import XetCore.Chunking.StableBoundary
import XetCore.Xorb.ChunkFormat

/-! # Frames

A frame is a header that passes its checks with as many bytes as it announces. What the
encoder writes is a frame, and both decoders take frames off one after the other, as long
as the frame decoder reads each one to its end.
-/
namespace XetCore.Xorb
open ByteSources LittleEndian Serialization Chunking List

variable {Z : Compressor} {h : XorbChunkHeader}

section Header
variable {bs : Bytes}

@[simp] theorem writeChunkHeader_length (h : XorbChunkHeader) : (writeChunkHeader h).length = 8 := by
  simp [writeChunkHeader]

theorem ofNat_ofLE_toLE (n : Fin (2 ^ 24)) : Fin.ofNat (2 ^ 24) (ofLE (toLE 3 n)) = n := by
  rw [ofLE_toLE (by simp),Fin.ofNat_eq_cast,Fin.cast_val_eq_self]

theorem toLE_ofNat_ofLE (hlen : bs.length = 3) : toLE 3 (Fin.ofNat (2 ^ 24) (ofLE bs)) = bs := by
  have hlt := ofLE_lt bs
  rw [hlen] at hlt
  have hv : (Fin.ofNat (2 ^ 24) (ofLE bs)).val = ofLE bs := Nat.mod_eq_of_lt (by simpa using hlt)
  rw [hv,← hlen,toLE_ofLE]

theorem ofBytes_writeChunkHeader (h : XorbChunkHeader) :
    XorbChunkHeader.ofBytes (writeChunkHeader h) = h := by
  have h0 : (writeChunkHeader h).getD 0 0 = h.version := rfl
  have h1 : ((writeChunkHeader h).drop 1).take 3 = toLE 3 h.compressedLength := rfl
  have h4 : (writeChunkHeader h).getD 4 0 = h.compressionScheme := rfl
  have h5 : ((writeChunkHeader h).drop 5).take 3 = toLE 3 h.uncompressedLength := rfl
  rw [XorbChunkHeader.ofBytes,h0,h1,h4,h5,ofNat_ofLE_toLE,ofNat_ofLE_toLE]

theorem writeChunkHeader_ofBytes (hlen : bs.length = 8) :
    writeChunkHeader (XorbChunkHeader.ofBytes bs) = bs := by
  match bs, hlen with
  | [a,b,c,d,e,f,g,i], _ =>
    change [a] ++ toLE 3 (Fin.ofNat (2 ^ 24) (ofLE [b,c,d])) ++ [e] ++
      toLE 3 (Fin.ofNat (2 ^ 24) (ofLE [f,g,i])) = _
    rw [toLE_ofNat_ofLE rfl,toLE_ofNat_ofLE rfl]
    rfl

theorem validate_eq_ok : h.validate = .ok () ↔ (∃ scheme, h.getCompressionScheme = .ok scheme) ∧
    h.version = currentVersion ∧ h.compressedLength.val ≤ maxChunkSize * 2 ∧
    h.uncompressedLength.val ≤ maxChunkSize := by
  have hv : h.version ≤ currentVersion ↔ h.version = currentVersion := by
    simp [currentVersion]
  simp only [XorbChunkHeader.validate,bind_eq_ok,ensure_eq_ok,hv]
  exact ⟨fun ⟨scheme,hs,_,h1,_,h2,h3⟩ => ⟨⟨scheme,hs⟩,h1,h2,h3⟩,
    fun ⟨⟨scheme,hs⟩,h1,h2,h3⟩ => ⟨scheme,hs,(),h1,(),h2,h3⟩⟩

theorem parseChunkHeader_write (hv : h.validate = .ok ()) :
    parseChunkHeader (writeChunkHeader h) = .ok h := by
  have hne : (writeChunkHeader h).take xorbObjectFormatIdent.length ≠ xorbObjectFormatIdent := by
    intro hid
    have hf : h.version = 88 := (cons.inj hid).1
    rw [(validate_eq_ok.mp hv).2.1] at hf
    cases hf
  simp only [parseChunkHeader,bind_eq_ok,ensure_eq_ok,ofBytes_writeChunkHeader]
  exact ⟨(),hne,(),hv,rfl⟩

theorem parseChunkHeader_eq_ok (hlen : bs.length = 8) (hp : parseChunkHeader bs = .ok h) :
    bs = writeChunkHeader h ∧ h.validate = .ok () := by
  simp only [parseChunkHeader,bind_eq_ok] at hp
  obtain ⟨_,-,_,hv,hh⟩ := hp
  cases hh
  exact ⟨(writeChunkHeader_ofBytes hlen).symm,hv⟩

end Header

structure Frame where
  header : XorbChunkHeader
  payload : Bytes
  valid : header.validate = .ok ()
  length_eq : payload.length = header.compressedLength.val

namespace Frame
variable (f : Frame)

def bytes : Bytes := writeChunkHeader f.header ++ f.payload

def decode (Z : Compressor) : Result (Bytes × ℕ) := do
  let scheme ← f.header.getCompressionScheme
  Z.decode scheme f.payload

/-- The payload is read to its end and gives these bytes, as many as the header announces. -/
structure Holds (Z : Compressor) (f : Frame) (chunk : Bytes) : Prop where
  decode_eq : f.decode Z = .ok (chunk,f.payload.length)
  length_eq : chunk.length = f.header.uncompressedLength.val

@[simp] theorem bytes_length : f.bytes.length = f.payload.length + 8 := by
  rw [bytes,length_append,writeChunkHeader_length,Nat.add_comm]

theorem uncompressedLength_le :
    f.header.uncompressedLength.val ≤ maxChunkSize := (validate_eq_ok.mp f.valid).2.2.2

theorem asU32_uncompressedLength :
    asU32 f.header.uncompressedLength.val = f.header.uncompressedLength.val :=
  asU32_of_lt (f.uncompressedLength_le.trans_lt (by decide))

end Frame

section Decoders
variable {f : Frame} {chunk : Bytes}
variable {t t' : Bytes} {r : Bytes × ℕ × ℕ}

theorem reads_tryReadChunkHeader (hv : h.validate = .ok ()) :
    Reads tryReadChunkHeader (writeChunkHeader h) (some h) := by
  intro rest
  have hr := readOrEnd_cursor (CoreError.io .unexpectedEof) (by decide : 0 < chunkHeaderLength)
    (writeChunkHeader h ++ rest)
  rw [if_neg (ne_nil_of_length_pos (by simp)),if_pos (by simp),take_left' (writeChunkHeader_length h),
    drop_left' (writeChunkHeader_length h)] at hr
  rw [tryReadChunkHeader,run_bind_of_ok hr]
  simp only [parseChunkHeader_write hv]
  rfl

theorem deserializeChunkWithHeader_eq_ok : (deserializeChunkWithHeaderToWriter Z h).run t = .ok (r,t') ↔
      ∃ scheme k, h.getCompressionScheme = .ok scheme ∧
      Z.decode scheme (t.take h.compressedLength) = .ok (r.1,k) ∧
        r.1.length = h.uncompressedLength ∧
        r.2 = (h.compressedLength + chunkHeaderLength,asU32 r.1.length) ∧ t' = t.drop k := by
  simp only [deserializeChunkWithHeaderToWriter,run_bind_eq_ok,run_lift_eq_ok,run_pure_eq_ok,ensure_eq_ok,
    Compressor.decompressFromReader_eq_ok]
  constructor
  · rintro ⟨scheme,s₁,⟨hs,rfl⟩,out,s₂,⟨k,hd,rfl⟩,u,s₃,⟨hl,rfl⟩,rfl,rfl⟩
    exact ⟨scheme,k,hs,hd,hl,rfl,rfl⟩
  · rintro ⟨scheme,k,hs,hd,hl,hr,rfl⟩
    exact ⟨scheme,t,⟨hs,rfl⟩,r.1,t.drop k,⟨k,hd,rfl⟩,(),t.drop k,⟨hl,rfl⟩,Prod.ext rfl hr,rfl⟩

theorem deserializeChunkHeader_eq_ok :
    (deserializeChunkHeader : Reader Bytes CoreError XorbChunkHeader).run t = .ok (h,t') ↔
      t = writeChunkHeader h ++ t' ∧ h.validate = .ok () := by
  simp only [deserializeChunkHeader,run_bind_eq_ok,run_lift_eq_ok]
  constructor
  · rintro ⟨buf,_,hr,hp,rfl⟩
    obtain ⟨_,rfl,rfl,hlen⟩ := parses_bytes _ _ _ _ hr
    obtain ⟨hb,hv⟩ := parseChunkHeader_eq_ok hlen hp
    exact ⟨by rw [hb],hv⟩
  · rintro ⟨rfl,hv⟩
    exact ⟨_,_,reads_bytes_of_length (writeChunkHeader_length h) t',parseChunkHeader_write hv,rfl⟩

theorem deserializeChunk_eq_ok :
    (deserializeChunk Z).run t = .ok (r,t') ↔ ∃ h t₁ scheme k, t = writeChunkHeader h ++ t₁ ∧
    h.validate = .ok () ∧
      h.getCompressionScheme = .ok scheme ∧ Z.decode scheme (t₁.take h.compressedLength) = .ok (r.1,k) ∧
      r.1.length = h.uncompressedLength ∧
      r.2 = (h.compressedLength + chunkHeaderLength,asU32 r.1.length) ∧
      t' = t₁.drop k := by
  simp only [deserializeChunk,run_bind_eq_ok,deserializeChunkHeader_eq_ok,
    deserializeChunkWithHeader_eq_ok]
  constructor
  · rintro ⟨h,t₁,⟨ht,hv⟩,scheme,k,hr⟩
    exact ⟨h,t₁,scheme,k,ht,hv,hr⟩
  · rintro ⟨h,t₁,scheme,k,ht,hv,hr⟩
    exact ⟨h,t₁,⟨ht,hv⟩,scheme,k,hr⟩

theorem Frame.Holds.asU32_length (hf : f.Holds Z chunk) : asU32 chunk.length = chunk.length := by
  rw [hf.length_eq,f.asU32_uncompressedLength]

/-- A frame that holds a chunk is taken off as a whole. -/
theorem Frame.Holds.reads (hf : f.Holds Z chunk) :
    Reads (deserializeChunkWithHeaderToWriter Z f.header) f.payload
    (chunk,f.header.compressedLength + chunkHeaderLength,chunk.length) := by
  intro rest
  obtain ⟨scheme,hs,hd⟩ := bind_eq_ok.mp hf.decode_eq
  refine deserializeChunkWithHeader_eq_ok.mpr
    ⟨scheme,f.payload.length,hs,?_,hf.length_eq,by rw [hf.asU32_length],?_⟩
  · rw [take_left' f.length_eq]
    exact hd
  · rw [drop_left]

theorem Frame.Holds.reads_async (hf : f.Holds Z chunk) :
    Reads (deserializeChunkWithHeaderToWriterAsync Z f.header) f.payload
      (chunk,f.header.compressedLength + chunkHeaderLength,chunk.length) := by
  intro rest
  obtain ⟨scheme,hs,hd⟩ := bind_eq_ok.mp hf.decode_eq
  have hsl : Z.decompressFromSlice scheme f.payload = .ok chunk := by
    rw [Compressor.decompressFromSlice,hd]
    rfl
  have hr := reads_bytes f.payload rest
  rw [f.length_eq] at hr
  simp only [deserializeChunkWithHeaderToWriterAsync,run_bind_eq_ok,run_lift_eq_ok,run_pure_eq_ok,
    ensure_eq_ok]
  exact ⟨f.payload,rest,hr,scheme,rest,⟨hs,rfl⟩,chunk,rest,⟨hsl,rfl⟩,(),rest,
    ⟨hf.length_eq,rfl⟩,by rw [hf.asU32_length],rfl⟩

end Decoders

theorem exists_frame (scheme : CompressionScheme) {payload : Bytes} {n : ℕ}
    (hp : payload.length ≤ maxChunkSize)
    (hn : n ≤ maxChunkSize) : ∃ f :
    Frame, f.header = XorbChunkHeader.new scheme (asU32 payload.length) (asU32 n) ∧
      f.payload = payload ∧ f.header.uncompressedLength.val = n := by
  have hma : maxChunkSize < 2 ^ 24 := by decide
  have hva : ∀ m ≤ maxChunkSize, (Fin.ofNat (2 ^ 24) (asU32 m)).val = m := fun m hm => by
    rw [asU32_of_lt (by omega)]
    exact Nat.mod_eq_of_lt (by omega)
  have hv : (XorbChunkHeader.new scheme (asU32 payload.length) (asU32 n)).validate = .ok () := by
    refine validate_eq_ok.mpr ⟨⟨scheme,scheme.ofU8_toU8⟩,rfl,?_,?_⟩
    · rw [XorbChunkHeader.new,hva _ hp]
      omega
    · rw [XorbChunkHeader.new,hva _ hn]
      exact hn
  exact ⟨⟨_,payload,hv,(hva _ hp).symm⟩,rfl,rfl,hva _ hn⟩

theorem serializeChunk_frame (hz : Z.Inverts) (scheme : CompressionScheme) {chunk : Bytes}
    (hlen : chunk.length ≤ maxChunkSize) : ∃ f :
    Frame, serializeChunk Z chunk scheme = .ok (f.bytes,f.bytes.length) ∧
      f.Holds Z chunk ∧ f.payload.length ≤ chunk.length := by
  have hr := Z.resolveForData_ne_auto scheme chunk
  set resolved := Z.resolveForData scheme chunk
  -- what is stored decodes to the chunk in both cases
  obtain ⟨used,payload,hs,hd,hle⟩ : ∃ used payload,
      (if (Z.compressFromSlice resolved chunk).length ≥ chunk.length then (CompressionScheme.none,chunk)
        else (resolved,Z.compressFromSlice resolved chunk)) = (used,payload) ∧
      Z.decode used payload = .ok (chunk,payload.length) ∧ payload.length ≤ chunk.length := by
    split
    · exact ⟨_,_,rfl,rfl,Nat.le_refl _⟩
    · exact ⟨_,_,rfl,Compressor.decode_compressFromSlice hz hr chunk,by omega⟩
  obtain ⟨f,hh,rfl,hu⟩ := exists_frame used (hle.trans hlen) hlen
  refine ⟨f,?_,⟨?_,hu.symm⟩,hle⟩
  · simp only [serializeChunk,bind_eq_ok,ensure_eq_ok]
    refine ⟨(),hr,?_⟩
    rw [hs,f.bytes_length,Frame.bytes,hh,Nat.add_comm f.payload.length]
    rfl
  · refine bind_eq_ok.mpr ⟨used,?_,hd⟩
    rw [hh]
    exact used.ofU8_toU8

end XetCore.Xorb
