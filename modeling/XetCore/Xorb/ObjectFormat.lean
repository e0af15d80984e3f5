import XetCore.Merkle.AggregatedHash
import XetCore.Xorb.ObjectInfo

/-! # Xorb objects

The chunks of a xorb are followed by the footer and the length of the footer. Validation
goes from one chunk to the next along the footer and computes all hashes again. The range
readers take the bytes of a range of chunks and decode chunk after chunk.
-/
namespace XetCore.Xorb
open ByteSources Serialization
open Merkle (DataHash NodeHasher xorbHash)

structure XorbEnv where
  lz4 : Compressor
  dataHash : Bytes → DataHash
  hasher : NodeHasher DataHash

def plainEnv : XorbEnv where
  lz4 := zeroRuns
  dataHash data := ⟨UInt64.ofNat (LittleEndian.ofLE data),UInt64.ofNat data.length,1,0⟩
  hasher :=
    { isNaturalCut := fun _ => false
      internalNodeHash := fun nodes =>
        nodes.foldl (fun h n => ⟨h.w0 * 31 + n.1.w0,h.w1 + n.1.w1,2,0⟩) default
      hmac := fun h _ => h
      default := default }

/-- A check that can fail, be refused, or pass with a value. -/
abbrev Validation := OptionT (Result)

/-- Malformed data are refused, other errors are errors. -/
def okForFormatError {α : Type} (x : Result α) : Validation α :=
  OptionT.mk (match x with
    | .ok a => .ok (some a)
    | .error (.malformedData _) => .ok none
    | .error e => .error e)

def require (c : Prop) [Decidable c] : Validation Unit := OptionT.mk (.ok (if c then some () else none))

section Validation
variable {α β : Type} {a : α} {b : β} {x : Result α}

theorem validation_bind_eq_ok {p : Validation α} {f : α → Validation β} :
    (p >>= f).run = .ok (some b) ↔ ∃ a, p.run = .ok (some a) ∧ (f a).run = .ok (some b) := by
  rw [OptionT.run_bind,Option.elimM,bind_eq_ok]
  constructor
  · rintro ⟨_ | a,ha,hb⟩
    · cases hb
    · exact ⟨a,ha,hb⟩
  · rintro ⟨a,ha,hb⟩
    exact ⟨some a,ha,hb⟩

theorem validation_pure_eq_ok {a' : α} : (pure a : Validation α).run = .ok (some a') ↔ a' = a := by
  exact ⟨fun h => (Option.some.inj (Except.ok.inj h)).symm,fun h => by rw [h]; rfl⟩

theorem validation_lift_eq_ok : (liftM x : Validation α).run = .ok (some a) ↔ x = .ok a := by
  cases x with
  | error e => exact ⟨fun h => (nomatch h),fun h => (nomatch h)⟩
  | ok a' => exact ⟨fun h => congrArg Except.ok (Option.some.inj (Except.ok.inj h)),fun h => by
      rw [Except.ok.inj h]; rfl⟩

theorem require_eq_ok {c : Prop} [Decidable c] {u : Unit} : (require c).run = .ok (some u) ↔ c := by
  unfold require
  split_ifs with hc
  · exact ⟨fun _ => hc,fun _ => rfl⟩
  · exact ⟨fun h => (nomatch Except.ok.inj h),fun h => absurd h hc⟩

theorem okForFormatError_eq_ok : (okForFormatError x).run = .ok (some a) ↔ x = .ok a := by
  unfold okForFormatError
  split
  · exact ⟨fun h => congrArg Except.ok (Option.some.inj (Except.ok.inj h)),fun h => by
      rw [Except.ok.inj h]; rfl⟩
  · exact ⟨fun h => (nomatch Except.ok.inj h),fun h => (nomatch h)⟩
  · exact ⟨fun h => (nomatch h),fun h => (nomatch h)⟩

end Validation

structure XorbObject where
  info : XorbObjectInfoV1
  infoLength : ℕ
deriving DecidableEq, Repr

def seekEnd (bytes : Bytes) (n : ℕ) : Result Bytes :=
  if n ≤ bytes.length then .ok (bytes.drop (bytes.length - n)) else .error (.io .invalidInput)

namespace XorbObject

/-- The object, and the bytes that are written for it. -/
def serializeGivenInfo (info : XorbObjectInfoV1) : Result (XorbObject × Bytes) := do
  let written ← info.serialize
  let infoLength := asU32 written.length
  return ({ info, infoLength },written ++ writeU32 infoLength)

def getInfoLength (bytes : Bytes) : Result ℕ := do
  let reader ← seekEnd bytes 4
  let r ← readU32.run reader
  return r.1

def deserialize (bytes : Bytes) : Result (XorbObject × Bytes) := do
  let infoLength ← getInfoLength bytes
  let reader ← seekEnd bytes (4 + infoLength)
  let r ← XorbObjectInfoV1.deserialize.run reader
  ensure (r.1.2 = infoLength) (.malformedData "Xorb Info Format Error")
  return ({ info := r.1.1, infoLength },r.2)

/-- What validation has gathered. The reader is given by what is left of the bytes. -/
structure ValidationState where
  hashChunks : List (DataHash × ℕ) := []
  cumulativeCompressedLength : ℕ := 0
  unpackedChunkOffset : ℕ := 0
  startOffset : ℕ := 0
  reader : Bytes

section Validate
variable (E : XorbEnv) (bytes : Bytes) (info : XorbObjectInfoV1)

def checkUnpackedOffset (idx unpackedChunkOffset : ℕ) : Validation Unit :=
  if info.boundariesVersion = xorbObjectFormatBoundariesVersion then do
    let stored ← (unwrap info.unpackedChunkOffsets[idx]? : Result ℕ)
    require (unpackedChunkOffset = stored)
  else pure ()

def validateChunk (idx : ℕ) (s : ValidationState) : Validation ValidationState := do
  let r ← okForFormatError ((deserializeChunk E.lz4).run (bytes.drop s.startOffset))
  let chunkHash := E.dataHash r.1.1
  let cumulativeCompressedLength ← addU32 s.cumulativeCompressedLength (asU32 r.1.2.1)
  let unpackedChunkOffset ← addU32 s.unpackedChunkOffset r.1.2.2
  let storedHash ← (unwrap info.chunkHashes[idx]? : Result DataHash)
  require (storedHash = chunkHash)
  let boundary ← (unwrap info.chunkBoundaryOffsets[idx]? : Result ℕ)
  let stop ← addU32 s.startOffset (asU32 r.1.2.1)
  require (stop = boundary)
  checkUnpackedOffset info idx unpackedChunkOffset
  return {
    hashChunks := s.hashChunks ++ [(chunkHash,r.1.2.2)]
    cumulativeCompressedLength, unpackedChunkOffset
    startOffset := boundary
    reader := r.2 }

def validateChunks : ℕ → ℕ → ValidationState → Validation ValidationState
  | 0, _, s => return s
  | n + 1, idx, s => do
    let s ← validateChunk E bytes info idx s
    validateChunks n (idx + 1) s

def validateXorbObject (hash : DataHash) : Validation XorbObject := do
  let r ← okForFormatError (deserialize bytes)
  let xorb := r.1
  let s ← validateChunks E bytes xorb.info xorb.info.numChunks 0 { reader := r.2 }
  let curPosition := asU32 (bytes.length - s.reader.length)
  let beforeInfo ← subU32 (asU32 bytes.length) xorb.infoLength
  let expectedFromEndPosition ← subU32 beforeInfo 4
  require (curPosition = s.cumulativeCompressedLength ∧ curPosition = expectedFromEndPosition)
  let xorbHash := xorbHash E.hasher s.hashChunks
  require (xorbHash = hash ∧ xorbHash = xorb.info.xorbHash)
  return xorb

end Validate

section Ranges
variable (xorb : XorbObject) (E : XorbEnv) (bytes : Bytes)

def validateXorbObjectInfo : Result Unit := do
  ensure (xorb.info.numChunks ≠ 0) (.malformedData "Invalid XorbObjectInfo, no chunks in XorbObject.")
  ensure (¬(xorb.info.numChunks ≠ asU32 xorb.info.chunkBoundaryOffsets.length ∨
      xorb.info.numChunks ≠ asU32 xorb.info.chunkHashes.length ∨
      xorb.info.boundariesVersion = xorbObjectFormatBoundariesVersion ∧
        xorb.info.numChunks ≠ asU32 xorb.info.unpackedChunkOffsets.length))
    (.malformedData "Invalid XorbObjectInfo, num chunks not matching boundaries or hashes.")
  ensure (xorb.info.xorbHash ≠ default) (.malformedData "Invalid XorbObjectInfo, Missing xorb_hash.")

def getContentsLength : Result ℕ := do
  xorb.validateXorbObjectInfo
  match xorb.info.chunkBoundaryOffsets.getLast? with
  | some c => return c
  | none => throw (.malformedData "Cannot retrieve content length")

/-- The chunks of the data one after the other; `fuel` bounds their number. -/
def getChunkContentsLoop : ℕ → Bytes → Bytes → Result Bytes
  | 0, _, res => return res
  | fuel + 1, reader, res =>
    if reader.isEmpty then return res
    else do
      let r ← (deserializeChunk E.lz4).run reader
      getChunkContentsLoop fuel r.2 (res ++ r.1.1)

def getChunkContents (chunkData : Bytes) : Result Bytes :=
  getChunkContentsLoop E (chunkData.length + 1) chunkData []

def getRange (byteStart byteEnd : ℕ) : Result Bytes := do
  ensure (¬byteEnd < byteStart) .invalidRange
  xorb.validateXorbObjectInfo
  let contentsLength ← xorb.getContentsLength
  let length ← subU32 (min byteEnd contentsLength) byteStart
  let r ← (readBytes length).run (bytes.drop byteStart)
  getChunkContents E r.1

def getAllBytes : Result Bytes := do
  xorb.validateXorbObjectInfo
  let contentsLength ← xorb.getContentsLength
  xorb.getRange E bytes 0 contentsLength

/-- The entry before an index in a list of ends, which start at zero. -/
def offsetBefore (offsets : List ℕ) (i : ℕ) : Result ℕ :=
  if i = 0 then return 0 else unwrap offsets[i - 1]?

variable (chunkIndexStart chunkIndexEnd : ℕ)

def getByteOffset : Result (ℕ × ℕ) := do
  xorb.validateXorbObjectInfo
  ensure (¬(chunkIndexEnd ≤ chunkIndexStart ∨ xorb.info.numChunks < chunkIndexEnd)) .invalidArguments
  let byteStart ← offsetBefore xorb.info.chunkBoundaryOffsets chunkIndexStart
  let byteEnd ← unwrap xorb.info.chunkBoundaryOffsets[chunkIndexEnd - 1]?
  return (byteStart,byteEnd)

def getBytesByChunkRange : Result Bytes := do
  let offsets ← xorb.getByteOffset chunkIndexStart chunkIndexEnd
  xorb.getRange E bytes offsets.1 offsets.2

def uncompressedRangeLength : Result ℕ := do
  xorb.validateXorbObjectInfo
  ensure (¬(chunkIndexEnd < chunkIndexStart ∨ xorb.info.numChunks < chunkIndexEnd ∨
    xorb.info.numChunks ≤ chunkIndexStart)) .invalidArguments
  if chunkIndexStart = chunkIndexEnd then return 0
  else do
    let beforeStart ← offsetBefore xorb.info.unpackedChunkOffsets chunkIndexStart
    let inclEnd ← unwrap xorb.info.unpackedChunkOffsets[chunkIndexEnd - 1]?
    subU32 inclEnd beforeStart

end Ranges
end XorbObject
end XetCore.Xorb
