import XetCore.Xorb.Frame
import XetCore.Xorb.ObjectFormat

/-! # What validation accepts

A stored chunk is a frame together with what it decodes to. Validation accepts an object
exactly when it starts with stored chunks that the tables of the footer describe, and the
last one of them is read to its end. The decoder may stop early in the other ones.
-/
namespace XetCore.Xorb
open ByteSources Serialization Chunking List
open Merkle (DataHash xorbHash)

/-- A frame, the bytes that it decodes to, and how much of the payload was read for them. -/
structure StoredChunk (Z : Compressor) where
  frame : Frame
  chunk : Bytes
  read : ℕ
  decode_eq : frame.decode Z = .ok (chunk,read)
  length_eq : chunk.length = frame.header.uncompressedLength.val

namespace StoredChunk
variable {Z : Compressor} (c : StoredChunk Z)

def bytes : Bytes := c.frame.bytes

def unread : Bytes := c.frame.payload.drop c.read

theorem read_le : c.read ≤ c.frame.payload.length := by
  obtain ⟨scheme,hs,hd⟩ := bind_eq_ok.mp c.decode_eq
  exact Compressor.decode_consumed_le hd

theorem unread_eq_nil : c.unread = [] ↔ c.read = c.frame.payload.length := by
  have hle := c.read_le
  rw [unread,drop_eq_nil_iff]
  omega

theorem bytes_length : c.bytes.length = c.frame.header.compressedLength.val + 8 := by
  rw [bytes,Frame.bytes_length,c.frame.length_eq]

theorem bytes_length_lt : c.bytes.length < 2 ^ 32 := by
  rw [c.bytes_length]
  omega

/-- Decoding a stored chunk leaves its unread bytes in front of what follows. -/
theorem deserializeChunk_run (rest : Bytes) : (deserializeChunk Z).run (c.bytes ++ rest) =
      .ok ((c.chunk,c.bytes.length,c.chunk.length),c.unread ++ rest) := by
  obtain ⟨scheme,hs,hd⟩ := bind_eq_ok.mp c.decode_eq
  have hu32 : asU32 c.chunk.length = c.chunk.length := by
    rw [c.length_eq,c.frame.asU32_uncompressedLength]
  refine deserializeChunk_eq_ok.mpr ⟨c.frame.header,c.frame.payload ++ rest,scheme,c.read,?_,
    c.frame.valid,hs,?_,c.length_eq,?_,?_⟩
  · rw [bytes,Frame.bytes,append_assoc]
  · rw [take_left' c.frame.length_eq]
    exact hd
  · rw [hu32,c.bytes_length]
  · rw [drop_append_of_le_length c.read_le,unread]

end StoredChunk

section Inversion
variable {Z : Compressor} {t t' : Bytes} {r : Bytes × ℕ × ℕ}

/-- A chunk takes its header off, and at most its length. -/
theorem deserializeChunk_length (h : (deserializeChunk Z).run t = .ok (r,t')) :
    t'.length + 8 ≤ t.length ∧ t.length ≤ t'.length + r.2.1 ∧ asU32 r.2.1 = r.2.1 := by
  obtain ⟨header,t₁,scheme,k,rfl,-,-,hd,-,hr,rfl⟩ := deserializeChunk_eq_ok.mp h
  have hk := Compressor.decode_consumed_le hd
  rw [length_take] at hk
  rw [hr,length_append,writeChunkHeader_length,length_drop]
  dsimp only [chunkHeaderLength]
  exact ⟨by omega,by omega,asU32_of_lt (by omega)⟩

theorem exists_storedChunk (h : (deserializeChunk Z).run t = .ok (r,t')) (hlen : r.2.1 ≤ t.length) :
    ∃ (c : StoredChunk Z) (rest : Bytes), t = c.bytes ++ rest ∧
    r = (c.chunk,c.bytes.length,c.chunk.length) ∧
      t' = c.unread ++ rest := by
  obtain ⟨header,t₁,scheme,k,rfl,hv,hs,hd,hu,hr,rfl⟩ := deserializeChunk_eq_ok.mp h
  rw [hr,length_append,writeChunkHeader_length] at hlen
  dsimp only [chunkHeaderLength] at hlen
  have ht : (t₁.take header.compressedLength).length = header.compressedLength := by
    rw [length_take]
    omega
  let c : StoredChunk Z := ⟨⟨header,t₁.take header.compressedLength,hv,ht⟩,r.1,k,
    bind_eq_ok.mpr ⟨scheme,hs,hd⟩,hu⟩
  have hb : c.bytes = writeChunkHeader header ++ t₁.take header.compressedLength := rfl
  have hu32 : asU32 r.1.length = r.1.length := by rw [hu,c.frame.asU32_uncompressedLength]
  refine ⟨c,t₁.drop header.compressedLength,?_,?_,?_⟩
  · rw [hb,append_assoc,take_append_drop]
  · rw [c.bytes_length]
    exact Prod.ext rfl (hr.trans (by rw [hu32]))
  · have hk := c.read_le
    rw [StoredChunk.unread,← drop_append_of_le_length hk,take_append_drop]

end Inversion

namespace XorbObject
variable {E : XorbEnv} {bytes : Bytes} {info : XorbObjectInfoV1}
variable {s s' : ValidationState} {cs : List (StoredChunk E.lz4)} {idx start unpacked : ℕ}

/-- The tables of the footer, from an index on, describe these chunks from these offsets on. -/
def Describes (E : XorbEnv) (info : XorbObjectInfoV1) : ℕ → ℕ → ℕ → List (StoredChunk E.lz4) → Prop
  | _, _, _, [] => True
  | idx, start, unpacked, c :: cs =>
    (info.chunkHashes[idx]? = some (E.dataHash c.chunk) ∧
      start + c.bytes.length < 2 ^ 32 ∧ info.chunkBoundaryOffsets[idx]? = some (start + c.bytes.length) ∧
      unpacked + c.chunk.length < 2 ^ 32 ∧ (info.boundariesVersion = xorbObjectFormatBoundariesVersion →
        info.unpackedChunkOffsets[idx]? = some (unpacked + c.chunk.length))) ∧
    Describes E info (idx + 1) (start + c.bytes.length) (unpacked + c.chunk.length) cs

theorem checkUnpackedOffset_eq_ok {offset : ℕ} {u : Unit} :
    (checkUnpackedOffset info idx offset).run = .ok (some u) ↔
      (info.boundariesVersion = xorbObjectFormatBoundariesVersion →
        info.unpackedChunkOffsets[idx]? = some offset) := by
  unfold checkUnpackedOffset
  split_ifs with hv
  · simp only [validation_bind_eq_ok,validation_lift_eq_ok,unwrap_eq_ok,require_eq_ok]
    constructor
    · rintro ⟨o,ho,rfl⟩ _
      exact ho
    · intro h
      exact ⟨offset,h hv,rfl⟩
  · exact ⟨fun _ h => absurd h hv,fun _ => rfl⟩

def ValidationState.push (E : XorbEnv) (s : ValidationState) (r : Bytes × ℕ × ℕ) (reader : Bytes) :
    ValidationState where
  hashChunks := s.hashChunks ++ [(E.dataHash r.1,r.2.2)]
  cumulativeCompressedLength := s.cumulativeCompressedLength + asU32 r.2.1
  unpackedChunkOffset := s.unpackedChunkOffset + r.2.2
  startOffset := s.startOffset + asU32 r.2.1
  reader := reader

theorem validateChunk_eq_ok : (validateChunk E bytes info idx s).run = .ok (some s') ↔
      ∃ r reader, (deserializeChunk E.lz4).run (bytes.drop s.startOffset) = .ok (r,reader) ∧
        s.cumulativeCompressedLength + asU32 r.2.1 < 2 ^ 32 ∧ s.unpackedChunkOffset + r.2.2 < 2 ^ 32 ∧
        info.chunkHashes[idx]? = some (E.dataHash r.1) ∧ s.startOffset + asU32 r.2.1 < 2 ^ 32 ∧
        info.chunkBoundaryOffsets[idx]? = some (s.startOffset + asU32 r.2.1) ∧
        (info.boundariesVersion = xorbObjectFormatBoundariesVersion →
          info.unpackedChunkOffsets[idx]? = some (s.unpackedChunkOffset + r.2.2)) ∧
        s' = s.push E r reader := by
  simp only [validateChunk,validation_bind_eq_ok,okForFormatError_eq_ok,validation_lift_eq_ok,
    addU32_eq_ok,unwrap_eq_ok,require_eq_ok,checkUnpackedOffset_eq_ok,validation_pure_eq_ok]
  constructor
  · rintro ⟨⟨r,reader⟩,hr,_,⟨rfl,hc⟩,_,⟨rfl,hun⟩,_,hh,_,rfl,_,hb,_,⟨rfl,hs⟩,_,rfl,_,hu,rfl⟩
    exact ⟨r,reader,hr,hc,hun,hh,hs,hb,hu,rfl⟩
  · rintro ⟨r,reader,hr,hc,hun,hh,hs,hb,hu,rfl⟩
    exact ⟨(r,reader),hr,_,⟨rfl,hc⟩,_,⟨rfl,hun⟩,_,hh,(),rfl,_,hb,_,⟨rfl,hs⟩,(),rfl,(),hu,rfl⟩

def ValidationState.after (s : ValidationState) (cs : List (StoredChunk E.lz4)) (reader : Bytes) :
    ValidationState where
  hashChunks := s.hashChunks ++ cs.map fun c => (E.dataHash c.chunk,c.chunk.length)
  cumulativeCompressedLength := s.cumulativeCompressedLength + (cs.flatMap StoredChunk.bytes).length
  unpackedChunkOffset := s.unpackedChunkOffset + (cs.flatMap StoredChunk.chunk).length
  startOffset := s.startOffset + (cs.flatMap StoredChunk.bytes).length
  reader := reader

theorem ValidationState.after_after (s : ValidationState) (c : StoredChunk E.lz4)
    (cs : List (StoredChunk E.lz4))
    (reader reader' : Bytes) : (s.after [c] reader).after cs reader' = s.after (c :: cs) reader' := by
  simp [after,Nat.add_assoc]

theorem ValidationState.after_nil (s : ValidationState) :
    s.after ([] : List (StoredChunk E.lz4)) s.reader = s := by
  simp [after,append_nil]

def readerBehind (cs : List (StoredChunk E.lz4)) (tail reader : Bytes) : Bytes :=
  (cs.getLast?.map fun c => c.unread ++ tail).getD reader

theorem validateChunks_of_describes
    {tail : Bytes} (hb : bytes.drop s.startOffset = cs.flatMap StoredChunk.bytes ++ tail)
    (hd : Describes E info idx s.startOffset s.unpackedChunkOffset cs)
    (hc : s.cumulativeCompressedLength = s.startOffset) :
    (validateChunks E bytes info cs.length idx s).run =
      .ok (some (s.after cs (readerBehind cs tail s.reader))) := by
  induction cs generalizing idx s with
  | nil => exact congrArg (fun s => Except.ok (some s)) s.after_nil.symm
  | cons c cs ih =>
    obtain ⟨⟨hh,hst,hbo,hun,hu⟩,hr⟩ := hd
    rw [flatMap_cons,append_assoc] at hb
    have hru := c.deserializeChunk_run (cs.flatMap StoredChunk.bytes ++ tail)
    rw [← hb] at hru
    have hu32 := asU32_of_lt c.bytes_length_lt
    set next := s.after [c] (c.unread ++ (cs.flatMap StoredChunk.bytes ++ tail)) with hn
    have hsp : (validateChunk E bytes info idx s).run = .ok (some next) := by
      refine validateChunk_eq_ok.mpr ⟨_,_,hru,?_,hun,hh,?_,?_,hu,by
        simp [hn,ValidationState.push,ValidationState.after,hu32]⟩
      · rw [hc,hu32]
        exact hst
      · rw [hu32]
        exact hst
      · rw [hu32]
        exact hbo
    have hs : next.startOffset = s.startOffset + c.bytes.length := by simp [hn,ValidationState.after]
    have ho : next.unpackedChunkOffset = s.unpackedChunkOffset + c.chunk.length := by
      simp [hn,ValidationState.after]
    have hb' : bytes.drop next.startOffset = cs.flatMap StoredChunk.bytes ++ tail := by
      rw [hs,← drop_drop,hb,drop_left]
    refine validation_bind_eq_ok.mpr ⟨next,hsp,Eq.trans (ih hb' ?_ (congrArg (· + _) hc)) ?_⟩
    · rw [hs,ho]
      exact hr
    rw [hn,ValidationState.after_after]
    cases cs with
    | nil => rfl
    | cons d ds => rfl

theorem describes_of_validateChunks {n : ℕ}
    (h : (validateChunks E bytes info n idx s).run = .ok (some s'))
    (hc : s.cumulativeCompressedLength = s.startOffset)
    (he : bytes.length - s'.reader.length = s'.startOffset) :
    s.startOffset ≤ bytes.length ∧ ∃ (cs : List (StoredChunk E.lz4)) (tail : Bytes), cs.length = n ∧
      bytes.drop s.startOffset = cs.flatMap StoredChunk.bytes ++ tail ∧
      Describes E info idx s.startOffset s.unpackedChunkOffset cs ∧ ∀ c, cs.getLast? = some c →
        c.unread = [] := by
  induction n generalizing idx s with
  | zero =>
    obtain rfl := validation_pure_eq_ok.mp h
    exact ⟨by omega,[],_,rfl,rfl,trivial,nofun⟩
  | succ n ih =>
    obtain ⟨next,hst,hre⟩ := validation_bind_eq_ok.mp h
    obtain ⟨r,reader,hr,-,hun,hh,hs,hbo,hu,rfl⟩ := validateChunk_eq_ok.mp hst
    obtain ⟨hle,-,hu32⟩ := deserializeChunk_length hr
    obtain ⟨hle',cs,tail,hlen,hb,hd,hla⟩ := ih hre (congrArg (· + _) hc)
    have hf : r.2.1 ≤ (bytes.drop s.startOffset).length := by
      rw [length_drop] at hle ⊢
      have : s.startOffset + asU32 r.2.1 ≤ bytes.length := hle'
      omega
    obtain ⟨c,rest,hby,rfl,rfl⟩ := exists_storedChunk hr hf
    simp only [ValidationState.push,asU32_of_lt c.bytes_length_lt] at hb hd hs hbo
    have hrs : rest = cs.flatMap StoredChunk.bytes ++ tail := by
      rw [← hb,← drop_drop,hby,drop_left]
    have hsr : s.startOffset + (c.bytes.length + rest.length) = bytes.length := by
      have hln := congrArg List.length hby
      rw [length_drop,length_append] at hln
      rw [length_drop] at hle
      omega
    refine ⟨by omega,c :: cs,tail,by rw [length_cons,hlen],?_,⟨⟨hh,hs,hbo,hun,hu⟩,hd⟩,?_⟩
    · rw [hby,hrs,flatMap_cons,append_assoc]
    · intro d hl
      cases cs with
      | cons e es => exact hla d hl
      | nil =>
        -- the reader stands at the end of the last chunk, so nothing of it is left
        obtain rfl : c = d := Option.some.inj hl
        obtain rfl : n = 0 := hlen.symm
        obtain rfl := validation_pure_eq_ok.mp hre
        simp only [ValidationState.push,asU32_of_lt c.bytes_length_lt,length_append] at he
        have hp := c.bytes_length
        exact length_eq_zero_iff.mp (by omega)

/-- The reader stands at most at the end of the chunk that was read last. -/
def ValidationState.Placed (bytes : Bytes) (s : ValidationState) : Prop :=
  s.cumulativeCompressedLength = s.startOffset ∧ s.startOffset < 2 ^ 32 ∧
    bytes.length - s.reader.length ≤ s.startOffset

theorem validateChunk_placed (h : (validateChunk E bytes info idx s).run = .ok (some s'))
    (hc : s.cumulativeCompressedLength = s.startOffset) : s'.Placed bytes := by
  obtain ⟨r,reader,hr,-,-,-,hs,-,-,rfl⟩ := validateChunk_eq_ok.mp h
  obtain ⟨hle,hlen,hu32⟩ := deserializeChunk_length hr
  refine ⟨congrArg (· + _) hc,hs,?_⟩
  rw [length_drop] at hle hlen
  simp only [ValidationState.push]
  omega

theorem validateChunks_placed {n : ℕ}
    (h : (validateChunks E bytes info (n + 1) idx s).run = .ok (some s'))
    (hc : s.cumulativeCompressedLength = s.startOffset) : s'.Placed bytes := by
  induction n generalizing idx s with
  | zero =>
    obtain ⟨next,hs,hr⟩ := validation_bind_eq_ok.mp h
    obtain rfl := validation_pure_eq_ok.mp hr
    exact validateChunk_placed hs hc
  | succ n ih =>
    obtain ⟨next,hs,hr⟩ := validation_bind_eq_ok.mp h
    exact ih hr (validateChunk_placed hs hc).1

/-- The object starts with these chunks, and its footer describes them. -/
structure Accepts (E : XorbEnv) (bytes : Bytes) (hash : DataHash) (xorb : XorbObject)
    (cs : List (StoredChunk E.lz4)) : Prop where
  footer : ∃ rest, deserialize bytes = .ok (xorb,rest)
  chunks : ∃ tail, bytes = cs.flatMap StoredChunk.bytes ++ tail
  numChunks_eq : cs.length = xorb.info.numChunks
  describes : Describes E xorb.info 0 0 0 cs
  last_whole : ∀ c, cs.getLast? = some c → c.unread = []
  position : asU32 bytes.length = (cs.flatMap StoredChunk.bytes).length + xorb.infoLength + 4
  hash_eq : xorbHash E.hasher (cs.map fun c => (E.dataHash c.chunk,c.chunk.length)) = hash
  info_hash : xorb.info.xorbHash = hash

theorem Describes.length_lt (hs : start < 2 ^ 32)
    (h : Describes E info idx start unpacked cs) :
    start + (cs.flatMap StoredChunk.bytes).length < 2 ^ 32 := by
  induction cs generalizing idx start unpacked with
  | nil => exact hs
  | cons c cs ih =>
    have hr := ih h.1.2.1 h.2
    rw [flatMap_cons,length_append]
    omega

theorem drop_eq_cons_iff {α : Type} {l t : List α} {i : ℕ} {a : α} :
    l.drop i = a :: t ↔ l[i]? = some a ∧ l.drop (i + 1) = t := by
  rw [← head?_drop,← tail_drop]
  cases l.drop i <;> simp

/-- With an entry for each chunk, the tables are those of the chunks. -/
theorem describes_iff (hs : start < 2 ^ 32) (hu : unpacked < 2 ^ 32)
    (hha : info.chunkHashes.length = idx + cs.length)
    (hbo : info.chunkBoundaryOffsets.length = idx + cs.length)
    (hun : info.boundariesVersion = xorbObjectFormatBoundariesVersion →
      info.unpackedChunkOffsets.length = idx + cs.length) :
    Describes E info idx start unpacked cs ↔
      info.chunkHashes.drop idx = cs.map (fun c => E.dataHash c.chunk) ∧
      info.chunkBoundaryOffsets.drop idx = boundariesFrom start (cs.map fun c => c.bytes.length) ∧
      (info.boundariesVersion = xorbObjectFormatBoundariesVersion →
        info.unpackedChunkOffsets.drop idx = boundariesFrom unpacked (cs.map fun c => c.chunk.length)) ∧
      start + (cs.flatMap StoredChunk.bytes).length < 2 ^ 32 ∧
      unpacked + (cs.flatMap StoredChunk.chunk).length < 2 ^ 32 := by
  induction cs generalizing idx start unpacked with
  | nil =>
    simp only [Describes,true_iff]
    refine ⟨drop_of_length_le hha.le,drop_of_length_le hbo.le,fun hv =>
      drop_of_length_le (hun hv).le,hs,hu⟩
  | cons c cs ih =>
    simp only [length_cons] at hha hbo hun
    simp only [map_cons,boundariesFrom,drop_eq_cons_iff,flatMap_cons,length_append]
    constructor
    · rintro ⟨⟨hh,hlt,hb,hlt',hv⟩,hr⟩
      rw [ih hlt hlt' (by omega) (by omega) (fun hv => by rw [hun hv]; omega)] at hr
      exact ⟨⟨hh,hr.1⟩,⟨hb,hr.2.1⟩,fun h => ⟨hv h,hr.2.2.1 h⟩,by omega,by omega⟩
    · rintro ⟨⟨hh,hhs⟩,⟨hb,hbs⟩,hv,hlt,hlt'⟩
      refine ⟨⟨hh,by omega,hb,by omega,fun h => (hv h).1⟩,?_⟩
      rw [ih (by omega) (by omega) (by omega) (by omega) (fun hv => by rw [hun hv]; omega)]
      exact ⟨hhs,hbs,fun h => (hv h).2,by omega,by omega⟩

/-- Validation accepts an object with chunks exactly when the footer describes the chunks that it
starts with. -/
theorem validateXorbObject_eq_ok {hash : DataHash} {xorb : XorbObject} (hn : xorb.info.numChunks ≠ 0) :
    (validateXorbObject E bytes hash).run = .ok (some xorb) ↔ ∃ cs, Accepts E bytes hash xorb cs := by
  simp only [validateXorbObject,validation_bind_eq_ok,okForFormatError_eq_ok,validation_lift_eq_ok,
    subU32_eq_ok,require_eq_ok,validation_pure_eq_ok]
  constructor
  · rintro ⟨⟨_,rest⟩,hf,s,hru,_,⟨rfl,hle⟩,_,⟨rfl,hle'⟩,_,⟨hc,hpo⟩,_,⟨hh,hif⟩,rfl⟩
    obtain ⟨n,hn⟩ := Nat.exists_eq_succ_of_ne_zero hn
    have hp := validateChunks_placed (by rw [hn] at hru; exact hru) rfl
    have hc' : bytes.length - s.reader.length = s.startOffset := by
      rwa [hp.1,asU32_of_lt (lt_of_le_of_lt hp.2.2 hp.2.1)] at hc
    obtain ⟨-,cs,tail,hlen,hb,hd,hl⟩ := describes_of_validateChunks hru rfl hc'
    have hs := validateChunks_of_describes hb hd rfl
    rw [hlen,hru] at hs
    cases hs
    dsimp only at hle hle'
    have ht : 0 + (cs.flatMap StoredChunk.bytes).length = asU32 bytes.length - xorb.infoLength - 4 :=
      hc.symm.trans hpo
    exact ⟨cs,⟨rest,hf⟩,⟨tail,hb⟩,hlen,hd,hl,by omega,hh,by rw [← hif,hh]⟩
  · rintro ⟨cs,⟨rest,hf⟩,⟨tail,hb⟩,hlen,hd,hl,hpo,hh,hif⟩
    have hs := validateChunks_of_describes (s := { reader := rest }) hb hd rfl
    have ht := Describes.length_lt (by decide) hd
    have hr : readerBehind cs tail rest = tail := by
      have hne : cs ≠ [] := ne_nil_of_length_pos (by omega)
      have hu := hl _ (getLast?_eq_some_getLast hne)
      rw [readerBehind,getLast?_eq_some_getLast hne,Option.map_some,Option.getD_some,hu,nil_append]
    have hc : asU32 (bytes.length - tail.length) = 0 + (cs.flatMap StoredChunk.bytes).length := by
      rw [hb,length_append,Nat.add_sub_cancel,Nat.zero_add,asU32_of_lt (by omega)]
    rw [hlen,hr] at hs
    have hin : xorb.infoLength ≤ asU32 bytes.length := by omega
    have hfo : 4 ≤ asU32 bytes.length - xorb.infoLength := by omega
    refine ⟨_,hf,_,hs,_,⟨rfl,hin⟩,_,⟨rfl,hfo⟩,(),⟨hc,hc.trans ?_⟩,(),⟨hh,?_⟩,rfl⟩
    · dsimp only
      omega
    · rw [hif]
      exact hh

end XorbObject
end XetCore.Xorb
