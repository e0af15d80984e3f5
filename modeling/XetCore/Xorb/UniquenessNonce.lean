import XetCore.Xorb.StoredObject

/-! # The uniqueness nonce

The nonce is written at a position counted from the end of the object, where either version of
the footer has its buffer. Only the buffer is read differently afterwards, and validation accepts
the object for the same hashes. How it fails to accept an object can change.
-/
namespace XetCore.Xorb
open ByteSources Serialization LittleEndian List
open Merkle (DataHash)

abbrev xorbObjectFormatNonceLen : ℕ := 4
abbrev Nonce := { bytes : Bytes // bytes.length = xorbObjectFormatNonceLen }

def XorbObjectInfoV1.setUniquenessNonce (info : XorbObjectInfoV1) (nonce : Nonce) : XorbObjectInfoV1 :=
  { info with nonceBuffer := nonce.val ++ info.nonceBuffer.drop xorbObjectFormatNonceLen }

namespace XorbObject
variable {E : XorbEnv} {bytes rest : Bytes} {hash : DataHash} {xorb : XorbObject}
  {cs : List (StoredChunk E.lz4)}

/-- The result, and the bytes of the object after the call. -/
def overwriteUniquenessNonce (serialized : Bytes) (nonce : Nonce) : Result Unit × Bytes :=
  let len := serialized.length
  let trailer := 4
  if len < xorbObjectFormatFooterBufferLen + trailer then
    (.error (.malformedData "serialized xorb too short to contain a uniqueness nonce"),serialized)
  else
    let infoLength := ofLE (serialized.drop (len - trailer))
    if infoLength < xorbObjectFormatFooterBufferLen ∨ len < infoLength + trailer then
      (.error (.malformedData
        "serialized xorb has an implausible info_length; refusing to write uniqueness nonce"),
        serialized)
    else
      let nonceStart := len - trailer - xorbObjectFormatFooterBufferLen
      (.ok (),serialized.take nonceStart ++
        (nonce.val ++ serialized.drop (nonceStart + xorbObjectFormatNonceLen)))

def refilled (xorb : XorbObject) (buffer : Bytes) : XorbObject :=
  { xorb with info := { xorb.info with nonceBuffer := buffer } }

theorem numChunks_ne_zero (hv : (validateXorbObject E bytes hash).run = .ok (some xorb)) :
    xorb.info.numChunks ≠ 0 := by
  intro hn
  simp only [validateXorbObject,
    validation_bind_eq_ok,okForFormatError_eq_ok,validation_lift_eq_ok,subU32_eq_ok,
    require_eq_ok,validation_pure_eq_ok] at hv
  obtain ⟨⟨_,rest⟩,hf,s,hru,_,⟨rfl,hle⟩,_,⟨rfl,hle'⟩,_,⟨hc,hpo⟩,_,-,rfl⟩ := hv
  rw [hn] at hru
  obtain rfl := validation_pure_eq_ok.mp hru
  obtain ⟨front,e,hr,hlt,hin,rfl,rfl⟩ := deserialize_eq_ok hf
  obtain ⟨hb,e',rfl,-⟩ := hr.refill
  simp only [asU32,length_append,length_writeU32,hb,
    xorbObjectFormatFooterBufferLen] at hc hpo hle hle' hin hlt
  omega

/-- Validation accepts an object for a hash if and only if some chunks are stored in it as its
footer says. -/
theorem validateXorbObject_accepts_iff (E : XorbEnv) (bytes : Bytes) (hash : DataHash)
    (xorb : XorbObject) :
    (validateXorbObject E bytes hash).run = .ok (some xorb) ↔ ∃ cs, cs ≠ [] ∧
    Accepts E bytes hash xorb cs := by
  constructor
  · intro hv
    have hn := numChunks_ne_zero hv
    obtain ⟨cs,ha⟩ := (validateXorbObject_eq_ok hn).mp hv
    exact ⟨cs,fun hc => hn (by rw [← ha.numChunks_eq,hc]; rfl),ha⟩
  · rintro ⟨cs,hne,ha⟩
    exact (validateXorbObject_eq_ok (ha.numChunks_eq ▸ (length_pos_iff.mpr hne).ne')).mpr ⟨cs,ha⟩

theorem Describes.refilled {idx start unpacked : ℕ}
    (h : Describes E xorb.info idx start unpacked cs) (b : Bytes) :
    Describes E (xorb.refilled b).info idx start unpacked cs := by
  induction cs generalizing idx start unpacked with
  | nil => trivial
  | cons c cs ih => exact ⟨h.1,ih h.2⟩

/-- The chunks of an accepted object end before its footer, so they stay when the buffer changes. -/
theorem Accepts.refilled {front buffer b last : Bytes}
    (h : Accepts E (front ++ (buffer ++ last)) hash xorb cs)
    (hle : buffer.length + last.length ≤ xorb.infoLength + 4) (hb : b.length = buffer.length)
    (hf : deserialize (front ++ (b ++ last)) = .ok (xorb.refilled b,rest)) :
    Accepts E (front ++ (b ++ last)) hash (xorb.refilled b) cs := by
  obtain ⟨-,⟨tail,ht⟩,hn,hd,hl,hp,hh,hi⟩ := h
  have hlen : (cs.flatMap StoredChunk.bytes).length ≤ front.length := by
    have := Nat.mod_le (front ++ (buffer ++ last)).length (2 ^ 32)
    simp only [asU32,length_append] at hp this
    omega
  obtain ⟨t,rfl⟩ := prefix_of_prefix_length_le ⟨tail,ht.symm⟩ ⟨_,rfl⟩ hlen
  refine ⟨⟨_,hf⟩,⟨_,append_assoc _ _ _⟩,hn,hd.refilled b,hl,?_,hh,hi⟩
  simp only [length_append,hb] at hp ⊢
  exact hp

theorem accepted_refilled {front buffer b last : Bytes}
    (hv : (validateXorbObject E (front ++ (buffer ++ last)) hash).run = .ok (some xorb))
    (hle : buffer.length + last.length ≤ xorb.infoLength + 4) (hb : b.length = buffer.length)
    (hf : deserialize (front ++ (b ++ last)) = .ok (xorb.refilled b,rest)) :
    (validateXorbObject E (front ++ (b ++ last)) hash).run = .ok (some (xorb.refilled b)) := by
  have hn := numChunks_ne_zero hv
  have hn' : (xorb.refilled b).info.numChunks ≠ 0 := hn
  obtain ⟨cs,ha⟩ := (validateXorbObject_eq_ok hn).mp hv
  exact (validateXorbObject_eq_ok hn').mpr ⟨cs,ha.refilled hle hb hf⟩

theorem overwriteUniquenessNonce_unchanged {nonce : Nonce} {err : CoreError}
    (h : (overwriteUniquenessNonce bytes nonce).1 = .error err) :
    (overwriteUniquenessNonce bytes nonce).2 = bytes := by
  unfold overwriteUniquenessNonce at h ⊢
  dsimp only at h ⊢
  split
  · rfl
  · split
    · rfl
    · rw [if_neg ‹_›,if_neg ‹_›] at h
      cases h

theorem overwriteUniquenessNonce_append (before : Bytes) {buffer : Bytes} {n : ℕ} (nonce : Nonce)
    (hb : buffer.length = xorbObjectFormatFooterBufferLen) (hn : xorbObjectFormatFooterBufferLen ≤ n)
    (hlt : n < 2 ^ 32) (hle : n ≤ before.length + xorbObjectFormatFooterBufferLen) :
    overwriteUniquenessNonce (before ++ (buffer ++ writeU32 n)) nonce =
      (.ok (),before ++ ((nonce.val ++ buffer.drop xorbObjectFormatNonceLen) ++ writeU32 n)) := by
  have hc : xorbObjectFormatFooterBufferLen = 16 := rfl
  have hlen : (before ++ (buffer ++ writeU32 n)).length = before.length + 20 := by
    rw [length_append,length_append,length_writeU32,hb]
  have hd : (before ++ (buffer ++ writeU32 n)).drop (before.length + 20 - 4) = writeU32 n := by
    rw [← append_assoc,drop_left' (by rw [length_append,hb]; omega)]
  have hst : before.length + 20 - 4 - xorbObjectFormatFooterBufferLen = before.length := by omega
  unfold overwriteUniquenessNonce
  dsimp only
  rw [hlen,if_neg (by omega),hd,writeU32,ofLE_toLE hlt,if_neg (by omega),hst,take_left,
    drop_length_add_append,drop_append_of_le_length (by rw [hb]; decide),append_assoc]

/-- When the call fails, the bytes are as before. When an object can be read, the call succeeds and
changes the nonce in its buffer only. The object is read with the new nonce then, and validation
accepts it for the same hashes. -/
theorem overwriteUniquenessNonce_spec (nonce : Nonce) :
    (∀ serialized err, (overwriteUniquenessNonce serialized nonce).1 = .error err →
      (overwriteUniquenessNonce serialized nonce).2 = serialized) ∧
    ∀ bytes xorb rest, deserialize bytes = .ok (xorb,rest) →
      ∃ before after, bytes = before ++ (xorb.info.nonceBuffer ++ rest) ∧
        after = before ++ ((xorb.info.setUniquenessNonce nonce).nonceBuffer ++ rest) ∧
        overwriteUniquenessNonce bytes nonce = (.ok (),after) ∧
        deserialize after = .ok ({ xorb with info := xorb.info.setUniquenessNonce nonce },rest) ∧
        ∀ (E : XorbEnv) hash, (validateXorbObject E bytes hash).run = .ok (some xorb) ↔
          (validateXorbObject E after hash).run =
            .ok (some { xorb with info := xorb.info.setUniquenessNonce nonce }) := by
  refine ⟨fun _ _ => overwriteUniquenessNonce_unchanged,fun bytes xorb rest h => ?_⟩
  obtain ⟨front,e,hr,hlt,hin,rfl,rfl⟩ := deserialize_eq_ok h
  obtain ⟨hb,e',rfl,hre⟩ := hr.refill
  set b := (xorb.info.setUniquenessNonce nonce).nonceBuffer with hbe
  have hbl : b.length = xorb.info.nonceBuffer.length := by
    rw [hbe,XorbObjectInfoV1.setUniquenessNonce,length_append,length_drop,nonce.2,hb]
    rfl
  have hne : (e' ++ b).length = (e' ++ xorb.info.nonceBuffer).length := by
    rw [length_append,length_append,hbl]
  have hd := deserialize_append (hre b (hbl.trans hb)) (hne ▸ hlt) front
  rw [hne,← hin,append_assoc,← append_assoc] at hd
  rw [← hin,append_assoc,← append_assoc] at h ⊢
  rw [length_append,hb] at hin hlt
  have hov := overwriteUniquenessNonce_append (front ++ e') nonce hb (by omega) (hin ▸ hlt)
    (by rw [length_append]; omega)
  have hle : xorb.info.nonceBuffer.length + (writeU32 xorb.infoLength).length ≤ xorb.infoLength + 4 := by
    rw [length_writeU32,hb]
    omega
  exact ⟨front ++ e',_,rfl,rfl,hov,hd,fun E hash => ⟨fun hv => accepted_refilled hv hle hbl hd,
    fun hv => (accepted_refilled hv (hbl ▸ hle) hbl.symm h :)⟩⟩

/-- The payload of the first chunk reaches over the tables of the footer, and its decoder stops
after one byte. The header of the second chunk is read from the buffer. -/
def overlappingObject : Bytes :=
  writeChunkHeader (XorbChunkHeader.new .lz4 117 3) ++ 3 :: (XorbObjectInfoV0.serialize
    { xorbHash := default
      numChunks := 2
      chunkBoundaryOffsets := [125,0]
      chunkHashes := [plainEnv.dataHash [0,0,0],default]
      buffer := [0,0,0,0,76,79,66] ++ replicate 9 0 } ++ writeU32 132)

/-- The object is refused before the call, and after it the check is an error. -/
theorem overwriteUniquenessNonce_verdict : (deserialize overlappingObject).isOk ∧
    (validateXorbObject plainEnv overlappingObject default).run = .ok none ∧
    (validateXorbObject plainEnv (overwriteUniquenessNonce overlappingObject ⟨[88,69,84,66],rfl⟩).2
      default).run =
      .error .chunkHeaderParse := by
  decide +kernel

end XorbObject
end XetCore.Xorb
