import XetCore.Shard.FileStructs

/-! # Records are read back

A record that agrees with its header is read back, up to the spare words. Every 48 bytes are
a record of each kind, and writing it gives these bytes again where no words are spare.
-/
namespace XetCore.Shard
open ByteSources Serialization List
open Merkle (DataHash)

theorem takes_word32 : Takes (CoreError.io .unexpectedEof) 4 readWord32 :=
  ((takes_readExact _ _).map _).map _

theorem takes_word64 : Takes (CoreError.io .unexpectedEof) 8 readWord64 :=
  ((takes_readExact _ _).map _).map _

theorem takes_hash : Takes (CoreError.io .unexpectedEof) 32 readHash := (takes_readExact _ _).map _

variable {σ : Type} [ByteSource σ]

theorem follows_word32 : Follows (σ := σ) readWord32 readWord32 := ((follows_readExact _ _).map _).map _

theorem follows_word64 : Follows (σ := σ) readWord64 readWord64 := ((follows_readExact _ _).map _).map _

theorem follows_readHash : Follows (σ := σ) readHash readHash := (follows_readExact _ _).map _

section HashAndWords
variable {α : Type} (f : DataHash → UInt32 → UInt32 → UInt32 → UInt32 → α)

/-- A hash and four words, the shape of the records that are not about a whole file. -/
def readHashAndWords : Reader σ CoreError α := do
  let hash ← readHash
  let a ← readWord32
  let b ← readWord32
  let c ← readWord32
  let d ← readWord32
  return f hash a b c d

theorem takes_hashAndWords : Takes (CoreError.io .unexpectedEof) 48 (readHashAndWords f) :=
  takes_hash.bind fun _ => takes_word32.bind fun _ => takes_word32.bind fun _ =>
    takes_word32.bind fun _ =>
    takes_word32.bind_pure _

theorem parses_hashAndWords {enc : α → Bytes} (h : ∀ hash a b c d, enc (f hash a b c d) =
      writeHash hash ++ (writeWord32 a ++ (writeWord32 b ++ (writeWord32 c ++ writeWord32 d)))) :
    Parses (readHashAndWords f) fun r e => e = enc r := by
  refine (parses_hash.bind fun _ => parses_word32.bind fun _ => parses_word32.bind fun _ =>
    parses_word32.bind
    fun _ => parses_word32.bind fun _ => parses_pure _).mono fun r e => ?_
  rintro ⟨_,_,_,rfl,rfl,_,_,_,rfl,rfl,_,_,_,rfl,rfl,_,_,_,rfl,rfl,_,_,_,rfl,rfl,rfl,rfl⟩
  rw [h,append_nil]

end HashAndWords

namespace FileDataSequenceHeader

theorem takes_deserialize : Takes (CoreError.io .unexpectedEof) 48 FileDataSequenceHeader.deserialize :=
  takes_hash.bind fun _ => takes_word32.bind fun _ => takes_word32.bind fun _ => takes_word64.bind_pure _

theorem parses_deserialize : Parses FileDataSequenceHeader.deserialize fun h e => e = h.serialize := by
  refine (parses_hash.bind fun _ => parses_word32.bind fun _ => parses_word32.bind fun _ =>
    parses_word64.bind
    fun _ => parses_pure _).mono fun h e => ?_
  rintro ⟨_,_,_,rfl,rfl,_,_,_,rfl,rfl,_,_,_,rfl,rfl,_,_,_,rfl,rfl,rfl,rfl⟩
  rfl

theorem follows_deserialize : Follows (σ := σ) deserialize deserialize :=
  follows_readHash.bind fun _ => follows_word32.bind fun _ => follows_word32.bind fun _ =>
    follows_word64.bind
    fun _ => follows_pure _

@[simp] theorem bookend_isBookend : bookend.isBookend = true := by decide

end FileDataSequenceHeader

namespace XorbChunkSequenceHeader

theorem takes_deserialize : Takes (CoreError.io .unexpectedEof) 48 XorbChunkSequenceHeader.deserialize :=
  takes_hashAndWords _

theorem parses_deserialize : Parses XorbChunkSequenceHeader.deserialize fun h e => e = h.serialize :=
  parses_hashAndWords _ fun _ _ _ _ _ => rfl

theorem follows_deserialize : Follows (σ := σ) deserialize deserialize :=
  follows_readHash.bind fun _ => follows_word32.bind fun _ => follows_word32.bind fun _ =>
    follows_word32.bind
    fun _ => follows_word32.bind fun _ => follows_pure _

@[simp] theorem bookend_isBookend : bookend.isBookend = true := by decide

end XorbChunkSequenceHeader

theorem FileDataSequenceEntry.takes_deserialize :
    Takes (CoreError.io .unexpectedEof) 48 FileDataSequenceEntry.deserialize :=
  takes_hashAndWords _

theorem XorbChunkSequenceEntry.takes_deserialize :
    Takes (CoreError.io .unexpectedEof) 48 XorbChunkSequenceEntry.deserialize :=
  takes_hashAndWords _

theorem XorbChunkSequenceEntry.parses_deserialize :
    Parses XorbChunkSequenceEntry.deserialize fun c e => e = c.serialize :=
  parses_hashAndWords _ fun _ _ _ _ _ => rfl

theorem FileDataSequenceEntry.parses_deserialize :
    Parses FileDataSequenceEntry.deserialize fun c e => e = c.serialize :=
  parses_hashAndWords _ fun _ _ _ _ _ => rfl

def readSpareWords : Reader σ CoreError SpareWords := do
  let a ← readWord64
  let b ← readWord64
  return (a,b)

theorem reads_spareWords (w : SpareWords) : Reads readSpareWords (writeSpareWords w) w :=
  (reads_word64 _).bind ((reads_word64 _).bind_pure _)

def readSpareHash : Reader σ CoreError (DataHash × SpareWords) := do
  let hash ← readHash
  let words ← readSpareWords
  return (hash,words)

theorem takes_spareHash : Takes (CoreError.io .unexpectedEof) 48 readSpareHash :=
  takes_hash.bind fun _ => (takes_word64.bind fun _ => takes_word64.bind_pure _).bind_pure _

theorem parses_spareHash : Parses readSpareHash fun p e => e = writeHash p.1 ++ writeSpareWords p.2 := by
  refine (parses_hash.bind fun _ =>
    (parses_word64.bind fun _ => parses_word64.bind fun _ => parses_pure _).bind
    fun _ => parses_pure _).mono fun p e => ?_
  rintro ⟨_,_,_,rfl,rfl,_,_,_,rfl,⟨_,_,_,rfl,rfl,_,_,_,rfl,rfl,rfl,rfl⟩,rfl,rfl⟩
  rfl

@[simp] theorem containsVerification_flagsOf (v e : Bool) (hash : DataHash) (n : UInt32) :
    (FileDataSequenceHeader.mk hash (FileDataSequenceHeader.flagsOf v e) n 0).containsVerification =
      v := by
  have ha : ∀ v e : Bool, decide
    (FileDataSequenceHeader.flagsOf v e &&& mdbFileFlagVerificationMask ≠ 0) = v := by decide
  exact ha v e

@[simp] theorem containsMetadataExt_flagsOf (v e : Bool) (hash : DataHash) (n : UInt32) :
    (FileDataSequenceHeader.mk hash (FileDataSequenceHeader.flagsOf v e) n 0).containsMetadataExt =
      e := by
  have ha : ∀ v e : Bool, decide
    (FileDataSequenceHeader.flagsOf v e &&& mdbFileFlagMetadataExtMask ≠ 0) = e := by decide
  exact ha v e

namespace MDBFileInfo

/-- The header counts the segments, its flags say which other parts there are, and its hash is not
the bookend. -/
structure WellFormed (f : MDBFileInfo) : Prop where
  numEntries_eq : f.metadata.numEntries.toNat = f.segments.length
  verification_length : f.verification.length = if f.containsVerification then f.segments.length else 0
  metadataExt_isSome : f.metadataExt.isSome = f.containsMetadataExt
  not_bookend : f.metadata.isBookend = false

instance (f : MDBFileInfo) : Decidable f.WellFormed :=
  decidable_of_iff (f.metadata.numEntries.toNat = f.segments.length ∧
      f.verification.length = (if f.containsVerification then f.segments.length else 0) ∧
      f.metadataExt.isSome = f.containsMetadataExt ∧ f.metadata.isBookend = false)
    ⟨fun ⟨h1,h2,h3,h4⟩ => ⟨h1,h2,h3,h4⟩,fun ⟨h1,h2,h3,h4⟩ => ⟨h1,h2,h3,h4⟩⟩

/-- The record without its spare words, which is what is read back. -/
def stripped (f : MDBFileInfo) : MDBFileInfo :=
  { f with
    verification := f.verification.map FileVerificationEntry.stripped
    metadataExt := f.metadataExt.map FileMetadataExt.stripped }

variable {f : MDBFileInfo}

section
variable (h : f.WellFormed)
include h

theorem WellFormed.length_serialize : f.serialize.length = 48 * (1 + f.metadata.numFollowing) := by
  have he : (f.metadataExt.elim [] FileMetadataExt.serialize).length =
    48 * (if f.containsMetadataExt then 1 else 0) := by
    rw [← h.metadataExt_isSome]
    cases f.metadataExt <;> simp
  have hve : (if f.containsVerification then f.verification.flatMap FileVerificationEntry.serialize
    else []).length =
      48 * (if f.containsVerification then f.segments.length else 0) := by
    have hlen := h.verification_length
    cases hv : f.containsVerification with
    | true =>
      rw [hv,if_pos rfl] at hlen
      rw [if_pos rfl,if_pos rfl,length_flatMap_eq FileVerificationEntry.length_serialize,hlen,
        Nat.mul_comm]
    | false => rfl
  rw [serialize,length_append,length_append,length_append,he,hve,
    FileDataSequenceHeader.length_serialize,length_flatMap_eq FileDataSequenceEntry.length_serialize,
    FileDataSequenceHeader.numFollowing,h.numEntries_eq,containsVerification,containsMetadataExt]
  ring

theorem WellFormed.reads_segments :
    Reads (readMany FileDataSequenceEntry.deserialize f.metadata.numEntries.toNat)
      (f.segments.flatMap FileDataSequenceEntry.serialize) f.segments := by
  rw [h.numEntries_eq]
  exact reads_many fun e _ => e.reads

theorem WellFormed.reads_verification : Reads (deserializeVerification f.metadata)
    (if f.containsVerification then f.verification.flatMap FileVerificationEntry.serialize else [])
    (f.verification.map FileVerificationEntry.stripped) := by
  have hlen := h.verification_length
  unfold containsVerification at hlen ⊢
  unfold deserializeVerification
  cases hv : f.metadata.containsVerification with
  | true =>
    rw [hv,if_pos rfl] at hlen
    rw [if_pos rfl,if_pos rfl,h.numEntries_eq,← hlen]
    exact reads_many_map fun v _ => v.reads
  | false =>
    rw [hv] at hlen
    rw [length_eq_zero_iff.mp hlen]
    exact reads_pure []

theorem WellFormed.reads_metadataExt : Reads (deserializeMetadataExt f.metadata)
    (f.metadataExt.elim [] FileMetadataExt.serialize) (f.metadataExt.map FileMetadataExt.stripped) := by
  have hs := h.metadataExt_isSome
  unfold containsMetadataExt at hs
  rw [deserializeMetadataExt,← hs]
  cases f.metadataExt with
  | none => exact reads_pure none
  | some m => exact m.reads.map some

theorem WellFormed.reads_entries : Reads (deserializeEntries f.metadata)
    (f.segments.flatMap FileDataSequenceEntry.serialize ++
      ((if f.containsVerification then f.verification.flatMap FileVerificationEntry.serialize else []) ++
        (f.metadataExt.elim [] FileMetadataExt.serialize))) (some f.stripped) := by
  rw [deserializeEntries,h.not_bookend]
  exact h.reads_segments.bind (h.reads_verification.bind (h.reads_metadataExt.bind_pure _))

theorem WellFormed.reads : Reads deserialize f.serialize (some f.stripped) :=
  f.metadata.reads.bind h.reads_entries

end

end MDBFileInfo

namespace MDBXorbInfo

/-- The header counts the chunks, and its hash is not the bookend. -/
structure WellFormed (x : MDBXorbInfo) : Prop where
  numEntries_eq : x.metadata.numEntries.toNat = x.chunks.length
  not_bookend : x.metadata.isBookend = false

instance (x : MDBXorbInfo) : Decidable x.WellFormed :=
  decidable_of_iff (x.metadata.numEntries.toNat = x.chunks.length ∧ x.metadata.isBookend = false)
    ⟨fun ⟨h1,h2⟩ => ⟨h1,h2⟩,fun ⟨h1,h2⟩ => ⟨h1,h2⟩⟩

variable {x : MDBXorbInfo}

theorem length_serialize (x : MDBXorbInfo) : x.serialize.length = 48 * (1 + x.chunks.length) := by
  rw [serialize,length_append,XorbChunkSequenceHeader.length_serialize,
    length_flatMap_eq XorbChunkSequenceEntry.length_serialize]
  ring

theorem WellFormed.reads (h : x.WellFormed) : Reads deserialize x.serialize (some x) := by
  have hc : Reads (readMany XorbChunkSequenceEntry.deserialize x.chunks.length)
      (x.chunks.flatMap XorbChunkSequenceEntry.serialize) x.chunks := reads_many fun c _ => c.reads
  have he : Reads (deserializeEntries x.metadata)
    (x.chunks.flatMap XorbChunkSequenceEntry.serialize) (some x) := by
    rw [← h.numEntries_eq] at hc
    rw [deserializeEntries,h.not_bookend]
    exact hc.bind_pure _
  exact x.metadata.reads.bind he

end MDBXorbInfo
end XetCore.Shard
