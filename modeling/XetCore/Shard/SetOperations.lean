import XetCore.Shard.Lookups

/-! # Set operations on shards

Two shards are read side by side, section by section. The headers that were read last decide
whether the next record of each shard is copied, skipped, left for later, or merged with the
other one. The lookup tables are built from what is written.
-/
namespace XetCore.Shard
open ByteSources Serialization
open Merkle (DataHash)

inductive MDBSetOperation where
  | union
  | difference
deriving DecidableEq, Repr

inductive NextAction where
  | copyToOut
  | skipOver
  | nothing
  | merge
deriving DecidableEq, Repr

def getNextActions (h1 h2 : Option DataHash) (op : MDBSetOperation) : Option (NextAction × NextAction) :=
  match h1, h2 with
  | none, none => none
  | some _, none => if op = .union then some (.copyToOut,.nothing) else some (.skipOver,.nothing)
  | none, some _ => some (.nothing,.copyToOut)
  | some ft0, some ft1 =>
    match compare ft0 ft1 with
    | .lt => if op = .union then some (.copyToOut,.nothing) else some (.skipOver,.nothing)
    | .eq => if op = .union then some (.copyToOut,.skipOver) else some (.skipOver,.skipOver)
    | .gt => some (.nothing,.copyToOut)

/-- What becomes of two records of one file in a union. -/
def sameFileActions (ft0 ft1 : FileDataSequenceHeader) : NextAction × NextAction :=
  match FileDataSequenceHeader.compareFlagSuperset ft0 ft1 with
  | .superA => (.copyToOut,.skipOver)
  | .equal => (.copyToOut,.skipOver)
  | .superB => (.skipOver,.copyToOut)
  | .neither => (.merge,.nothing)

def getNextActionsForFileInfo (h1 h2 : Option FileDataSequenceHeader) (op : MDBSetOperation) :
    Option (NextAction × NextAction) :=
  let actions := getNextActions (h1.map FileDataSequenceHeader.fileHash)
    (h2.map FileDataSequenceHeader.fileHash) op
  match h1, h2 with
  | some ft0, some ft1 =>
    if compare ft0.fileHash ft1.fileHash = .eq ∧ op = .union then some (sameFileActions ft0 ft1)
      else actions
  | _, _ => actions

/-- One of the two shards: the header that was read last, and what is behind it. -/
structure Side (η : Type) where
  header : Option η
  remaining : Bytes

/-- Two shards at the same section, and what was written so far. -/
structure Merging (η ω : Type) where
  first : Side η
  second : Side η
  output : ω

namespace Merging
variable {η ω : Type} (s : Merging η ω)

def side : Fin 2 → Side η
  | 0 => s.first
  | 1 => s.second

def setSide (side : Side η) : Fin 2 → Merging η ω
  | 0 => { s with first := side }
  | 1 => { s with second := side }

end Merging

structure SectionReader (η ω : Type) where
  loadNext : Reader Bytes CoreError (Option η)
  nextActions : Option η → Option η → MDBSetOperation → Option (NextAction × NextAction)
  copyToOut : η → ω → Reader Bytes CoreError ω
  skipOver : η → Reader Bytes CoreError Unit
  merge : Merging η ω → Result (Merging η ω)

namespace SectionReader
variable {η ω : Type} (k : SectionReader η ω) (op : MDBSetOperation)

def advance {α : Type} (record : Reader Bytes CoreError α) (remaining : Bytes) :
    Result (α × Side η) := do
  let (a,rest) ← record.run remaining
  let (header,rest) ← k.loadNext.run rest
  return (a,⟨header,rest⟩)

def act (i : Fin 2) (action : NextAction) (s : Merging η ω) : Result (Merging η ω) :=
  match action with
  | .copyToOut => do
    let fh ← unwrap (s.side i).header
    let (output,side) ← k.advance (k.copyToOut fh s.output) (s.side i).remaining
    return { s.setSide side i with output }
  | .skipOver => do
    let fh ← unwrap (s.side i).header
    let ((),side) ← k.advance (k.skipOver fh) (s.side i).remaining
    return s.setSide side i
  | .nothing => return s
  | .merge => k.merge s

/-- Every round but the last one reads a header, so that there are fewer rounds than bytes. -/
def rounds : ℕ → Merging η ω → Result (Merging η ω)
  | 0, _ => .error (.io .unexpectedEof)
  | fuel + 1, s =>
    match k.nextActions s.first.header s.second.header op with
    | none => return s
    | some action => do
      let s ← k.act 0 action.1 s
      let s ← k.act 1 action.2 s
      rounds fuel s

/-- Runs over the sections at the start of what remains of the two shards. -/
def run (remaining0 remaining1 : Bytes) (output : ω) : Result ω := do
  let (header0,rest0) ← k.loadNext.run remaining0
  let (header1,rest1) ← k.loadNext.run remaining1
  let s ← k.rounds op (remaining0.length + remaining1.length) ⟨⟨header0,rest0⟩,⟨header1,rest1⟩,output⟩
  return s.output

end SectionReader

def seekForward (n : ℕ) : Reader Bytes CoreError Unit := modify fun s => s.drop n

section Files

structure FileSetOutput where
  bytes : Bytes := []
  lookup : List (ℕ × ℕ) := []
  currentIndex : ℕ := 0
  materializedBytes : ℕ := 0
deriving DecidableEq, Repr

def loadNextFile : Reader Bytes CoreError (Option FileDataSequenceHeader) := do
  let fdsh ← FileDataSequenceHeader.deserialize
  return if fdsh.isBookend then none else some fdsh

/-- Writes a record. The index counts what follows its header as the header says it. -/
def FileSetOutput.push (o : FileSetOutput) (f : MDBFileInfo) : Result FileSetOutput := do
  let materializedBytes ← f.segments.foldlM (fun n e => addUsize n e.unpackedSegmentBytes.toNat)
    o.materializedBytes
  let following ← f.metadata.numInfoEntryFollowing
  let numRecords ← addU32 1 following
  let currentIndex ← addU32 o.currentIndex numRecords
  return {
    bytes := o.bytes ++ f.serialize
    lookup := o.lookup ++ [(f.metadata.fileHash.truncateHash,o.currentIndex)]
    currentIndex
    materializedBytes }

def copyFile (fh : FileDataSequenceHeader) (o : FileSetOutput) :
    Reader Bytes CoreError FileSetOutput := do
  let segments ← readMany FileDataSequenceEntry.deserialize fh.numEntries.toNat
  let verification ← MDBFileInfo.deserializeVerification fh
  let metadataExt ← MDBFileInfo.deserializeMetadataExt fh
  liftM (o.push { metadata := fh, segments, verification, metadataExt })

def skipFile (fh : FileDataSequenceHeader) : Reader Bytes CoreError Unit := do
  let following ← liftM fh.numInfoEntryFollowing
  seekForward (following * mdbFileInfoEntrySize)

variable (fh0 fh1 : FileDataSequenceHeader)

/-- The verification of a merged file, which is read from the first shard that has it, and what
remains of both. -/
def mergeVerification (r : Bytes × Bytes) : Result (List FileVerificationEntry × Bytes × Bytes) :=
  if fh0.containsVerification then do
    let (entries,r0) ← (readMany FileVerificationEntry.deserialize fh0.numEntries.toNat).run r.1
    return (entries,r0,if fh1.containsVerification then r.2.drop
      (fh1.numEntries.toNat * mdbFileInfoEntrySize) else r.2)
  else if fh1.containsVerification then do
    let (entries,r1) ← (readMany FileVerificationEntry.deserialize fh1.numEntries.toNat).run r.2
    return (entries,r.1,r1)
  else return ([],r)

def mergeMetadataExt (r : Bytes × Bytes) : Result (Option FileMetadataExt × Bytes × Bytes) :=
  if fh0.containsMetadataExt then do
    let (entry,r0) ← FileMetadataExt.deserialize.run r.1
    return (some entry,r0,if fh1.containsMetadataExt then r.2.drop mdbFileInfoEntrySize else r.2)
  else if fh1.containsMetadataExt then do
    let (entry,r1) ← FileMetadataExt.deserialize.run r.2
    return (some entry,r.1,r1)
  else return (none,r)

/-- Writes one record with the parts of both. The segments are those of the first shard. -/
def mergeFile (s : Merging FileDataSequenceHeader FileSetOutput) :
    Result (Merging FileDataSequenceHeader FileSetOutput) := do
  let fh0 ← unwrap s.first.header
  let fh1 ← unwrap s.second.header
  let hasVerification := fh0.containsVerification || fh1.containsVerification
  let hasMetadataExt := fh0.containsMetadataExt || fh1.containsMetadataExt
  let header ← FileDataSequenceHeader.new fh0.fileHash fh0.numEntries.toNat hasVerification hasMetadataExt
  let (segments,r0) ← (readMany FileDataSequenceEntry.deserialize fh0.numEntries.toNat).run
    s.first.remaining
  let r1 := s.second.remaining.drop (fh1.numEntries.toNat * mdbFileInfoEntrySize)
  let (verification,r) ← mergeVerification fh0 fh1 (r0,r1)
  let (metadataExt,r) ← mergeMetadataExt fh0 fh1 r
  let output ← s.output.push { metadata := header, segments, verification, metadataExt }
  let (header0,r0) ← loadNextFile.run r.1
  let (header1,r1) ← loadNextFile.run r.2
  return ⟨⟨header0,r0⟩,⟨header1,r1⟩,output⟩

def fileSections : SectionReader FileDataSequenceHeader FileSetOutput where
  loadNext := loadNextFile
  nextActions := getNextActionsForFileInfo
  copyToOut := copyFile
  skipOver := skipFile
  merge := mergeFile

end Files

structure XorbSetOutput where
  bytes : Bytes := []
  lookup : List (ℕ × ℕ) := []
  chunkLookup : List (ℕ × ℕ × ℕ) := []
  currentIndex : ℕ := 0
  storedBytesOnDisk : ℕ := 0
  storedBytes : ℕ := 0
deriving DecidableEq, Repr

def loadNextXorb : Reader Bytes CoreError (Option XorbChunkSequenceHeader) := do
  let ccsh ← XorbChunkSequenceHeader.deserialize
  return if ccsh.isBookend then none else some ccsh

def XorbSetOutput.push (o : XorbSetOutput) (x : MDBXorbInfo) : Result XorbSetOutput := do
  let storedBytesOnDisk ← addUsize o.storedBytesOnDisk x.metadata.numBytesOnDisk.toNat
  let storedBytes ← addUsize o.storedBytes x.metadata.numBytesInXorb.toNat
  let numRecords ← addU32 1 x.metadata.numEntries.toNat
  let currentIndex ← addU32 o.currentIndex numRecords
  return {
    bytes := o.bytes ++ x.serialize
    lookup := o.lookup ++ [(x.metadata.xorbHash.truncateHash,o.currentIndex)]
    chunkLookup := o.chunkLookup ++ x.chunks.mapIdx fun j chunk =>
      (chunk.chunkHash.truncateHash,o.currentIndex,j)
    currentIndex
    storedBytesOnDisk
    storedBytes }

def copyXorb (fh : XorbChunkSequenceHeader) (o : XorbSetOutput) :
    Reader Bytes CoreError XorbSetOutput := do
  let chunks ← readMany XorbChunkSequenceEntry.deserialize fh.numEntries.toNat
  liftM (o.push { metadata := fh, chunks })

def skipXorb (fh : XorbChunkSequenceHeader) : Reader Bytes CoreError Unit :=
  seekForward (fh.numEntries.toNat * 48)

def xorbSections : SectionReader XorbChunkSequenceHeader XorbSetOutput where
  loadNext := loadNextXorb
  nextActions h1 h2 op :=
    getNextActions (h1.map XorbChunkSequenceHeader.xorbHash) (h2.map XorbChunkSequenceHeader.xorbHash) op
  copyToOut := copyXorb
  skipOver := skipXorb
  merge := pure

def setOperation (sorter : KeySort (ℕ × ℕ)) (op : MDBSetOperation) (s0 s1 : MDBShardInfo)
    (r0 r1 : Bytes) :
    Result (MDBShardInfo × Bytes) := do
  let files ← fileSections.run op (r0.drop s0.metadata.fileInfoOffset.toNat)
    (r1.drop s1.metadata.fileInfoOffset.toNat) {}
  let xorbs ← xorbSections.run op (r0.drop s0.metadata.xorbInfoOffset.toNat)
    (r1.drop s1.metadata.xorbInfoOffset.toNat) {}
  let parts : ShardParts := {
    fileSection := files.bytes ++ FileDataSequenceHeader.bookend.serialize
    xorbSection := xorbs.bytes ++ XorbChunkSequenceHeader.bookend.serialize
    fileLookup := files.lookup
    xorbLookup := xorbs.lookup
    chunkLookup := sorter.sort xorbs.chunkLookup }
  let footer ← parts.offsets {
    storedBytesOnDisk := UInt64.ofNat xorbs.storedBytesOnDisk
    materializedBytes := UInt64.ofNat files.materializedBytes
    storedBytes := UInt64.ofNat xorbs.storedBytes }
  let info : MDBShardInfo := { metadata := footer }
  return (info,info.bytesWith parts)

def shardSetUnion (sorter : KeySort (ℕ × ℕ)) (s1 : MDBShardInfo) (r1 : Bytes) (s2 : MDBShardInfo)
    (r2 : Bytes) :
    Result (MDBShardInfo × Bytes) := setOperation sorter .union s1 s2 r1 r2

end XetCore.Shard
