import Mathlib.Data.Nat.Bits
import XetCore.Lib.Bytes
import XetCore.Lib.MachineCut

/-! # The content-defined chunker

A rolling hash is fed with the bytes of the current chunk, except for the first ones that
can no longer be in its window. A match past the minimum ends the chunk, and so does the
maximum. Bytes that end no chunk wait in a buffer.
-/
namespace XetCore.Chunking

/-- The rolling hash. Matching over a split input behaves as over the joined input. -/
structure GearHasher where
  State : Type
  init : State
  nextMatch : State → Bytes → UInt64 → Option ℕ × State
  nextMatch_nil : ∀ h mask, nextMatch h [] mask = (none,h)
  nextMatch_bounds : ∀ {h data mask k}, (nextMatch h data mask).1 = some k → 0 < k ∧ k ≤ data.length
  nextMatch_append : ∀ h a b mask, nextMatch h (a ++ b) mask = if (nextMatch h a mask).1.isSome then
    nextMatch h a mask
    else ((nextMatch (nextMatch h a mask).2 b mask).1.map (· + a.length),
      (nextMatch (nextMatch h a mask).2 b mask).2)

/-- Constants of the deduplication that tests may set. -/
structure Constants where
  targetChunkSize : ℕ := 64 * 1024
  minimumChunkDivisor : ℕ := 8
  maximumChunkMultiplier : ℕ := 2
  maxXorbBytes : ℕ := 64 * 1024 * 1024
  maxXorbChunks : ℕ := 8 * 1024

structure Chunk (H : Type) where
  hash : H
  data : Bytes
deriving DecidableEq, Repr

def Chunk.new {H : Type} (computeDataHash : Bytes → H) (data : Bytes) : Chunk H :=
  ⟨computeDataHash data,data⟩

abbrev hashWindowSize : ℕ := 64

structure Chunker (G : GearHasher) where
  hash : G.State
  minimumChunk : ℕ
  maximumChunk : ℕ
  mask : UInt64
  chunkbuf : Bytes

namespace Chunker
variable {G : GearHasher} {H : Type} (computeDataHash : Bytes → H)

def shiftedMask (targetChunkSize : ℕ) : UInt64 :=
  .ofNat ((targetChunkSize - 1) <<< (64 - Nat.size (targetChunkSize - 1)))

def new (G : GearHasher) (C : Constants) (targetChunkSize : ℕ) : Option (Chunker G) :=
  if (Nat.bits targetChunkSize).count true ≠ 1 then none
  else if ¬64 < targetChunkSize then none
  else if ¬targetChunkSize < 2 ^ 32 - 1 then none
  else if C.minimumChunkDivisor = 0 then none
  else if ¬targetChunkSize / C.minimumChunkDivisor < targetChunkSize * C.maximumChunkMultiplier then none
  else some
    { hash := G.init
      minimumChunk := targetChunkSize / C.minimumChunkDivisor
      maximumChunk := targetChunkSize * C.maximumChunkMultiplier
      mask := shiftedMask targetChunkSize
      chunkbuf := [] }

/-- The search of `nextBoundary`: the index reached, whether a match ended it, and the hash. -/
def matchLoop (c : Chunker G) (data : Bytes) (readEnd : ℕ) : ℕ → ℕ → G.State → ℕ × Bool × G.State
  | 0, curIndex, hash => (curIndex,false,hash)
  | fuel + 1, curIndex, hash =>
    match G.nextMatch hash ((data.take readEnd).drop curIndex) c.mask with
    | (some nextMatch,hash') =>
      if curIndex + nextMatch + c.chunkbuf.length < c.minimumChunk then
        matchLoop c data readEnd fuel (curIndex + nextMatch) hash'
      else (curIndex + nextMatch,true,hash')
    | (none,hash') => (readEnd,false,hash')

variable (c : Chunker G) (data : Bytes)

def nextBoundary : Option ℕ × Chunker G :=
  if data.length = 0 then (none,c)
  else
    let previousLen := c.chunkbuf.length
    let skip :=
      if previousLen + hashWindowSize < c.minimumChunk then
        min (c.minimumChunk - previousLen - hashWindowSize - 1) data.length
      else 0
    let readEnd := min data.length (skip + c.maximumChunk - previousLen)
    let r := matchLoop c data readEnd (readEnd + 1) skip c.hash
    if r.1 + previousLen ≥ c.maximumChunk then
      (some (c.maximumChunk - previousLen),{ c with hash := G.init })
    else if r.2.1 then (some r.1,{ c with hash := G.init })
    else (none,{ c with hash := r.2.2 })

def resetState : Chunker G := { c with hash := G.init }

variable (isFinal : Bool)

/-- The next chunk, if there is one, with the number of bytes taken from the data. -/
def next : (Option (Chunk H) × ℕ) × Chunker G :=
  let emit (chunkData : Bytes) (consume : ℕ) : Option (Chunk H) × ℕ :=
    if chunkData.isEmpty then (none,0) else (some (.new computeDataHash chunkData),consume)
  match c.nextBoundary data with
  | (some nextBoundary,c) =>
    if c.chunkbuf.isEmpty then (emit (data.take nextBoundary) nextBoundary,c)
    else (emit (c.chunkbuf ++ data.take nextBoundary) nextBoundary,{ c with chunkbuf := [] })
  | (none,c) =>
    if isFinal then
      if c.chunkbuf.isEmpty then (emit data data.length,c.resetState)
      else (emit (c.chunkbuf ++ data) data.length,resetState { c with chunkbuf := [] })
    else ((none,data.length),{ c with chunkbuf := c.chunkbuf ++ data })

/-- The loop of `nextBlock` on the data that is left; every turn takes at least one byte. -/
def nextBlockLoop (isFinal : Bool) : ℕ → Chunker G → Bytes → List (Chunk H) × Chunker G
  | fuel, c, data =>
    if data.isEmpty then ([],if isFinal then c.resetState else c)
    else
      match fuel with
      | 0 => ([],c)
      | fuel + 1 =>
        let r := c.next computeDataHash data isFinal
        let rest := nextBlockLoop isFinal fuel r.2 (data.drop r.1.2)
        (r.1.1.toList ++ rest.1,rest.2)

def nextBlock : List (Chunk H) × Chunker G :=
  nextBlockLoop computeDataHash isFinal data.length c data

/-- The loop of `nextBlockBytes`, which cuts the data without copying it. -/
def sliceLoop (isFinal : Bool) : ℕ → Chunker G → Bytes → List (Chunk H) × Chunker G
  | 0, c, _ => ([],c)
  | fuel + 1, c, data =>
    if data.isEmpty then ([],c)
    else
      match c.nextBoundary data with
      | (some chunkSize,c) =>
        let rest := sliceLoop isFinal fuel c (data.drop chunkSize)
        (.new computeDataHash (data.take chunkSize) :: rest.1,rest.2)
      | (none,c) =>
        if isFinal then ([.new computeDataHash data],c)
        else ([],{ c with chunkbuf := c.chunkbuf ++ data })

def nextBlockBytes : List (Chunk H) × Chunker G :=
  let first : (Option (Chunk H) × ℕ) × Chunker G :=
    if c.chunkbuf.isEmpty then ((none,0),c) else c.next computeDataHash data isFinal
  let rest := sliceLoop computeDataHash isFinal (data.length + 1) first.2 (data.drop first.1.2)
  (first.1.1.toList ++ rest.1,if isFinal then rest.2.resetState else rest.2)

def finish : Option (Chunk H) × Chunker G :=
  ((c.next computeDataHash [] true).1.1,(c.next computeDataHash [] true).2)

end Chunker
end XetCore.Chunking
