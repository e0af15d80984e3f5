import XetCore.ChunkCache.CacheFile
import XetCore.Lib.Runs

/-! # The chunk cache on disk

The cache knows its files by the items that their names encode: the chunk range, the
length and the checksum. Lookups, file operations and changes of the state are separate
steps of the calls. An opened file keeps its bytes when its name is removed or reused.
The lock of the state is fair: behind a waiting writer readers wait, too.
-/
namespace XetCore.ChunkCache
open Runs

variable {K : Type}

structure CacheItem where
  range : ChunkRange
  len : ℕ
  checksum : ℕ
deriving DecidableEq, Repr

/-- The flag is shared by all copies of the cell. Cells are compared by their items. -/
structure VerificationCell where
  inner : CacheItem
  verification : ℕ
deriving Repr

structure CacheState (K : Type) where
  inner : K → List VerificationCell := fun _ => []
  numItems : ℕ := 0
  totalBytes : ℕ := 0

/-- The cache with its directory and the verification flags of the cells made so far. -/
structure DiskCache (K : Type) where
  capacity : ℕ
  state : CacheState K := {}
  files : K → CacheItem → Option Bytes := fun _ _ => none
  verified : ℕ → Bool := fun _ => false
  numCells : ℕ := 0
  /-- A put that has a read guard waits for the write lock. Nobody gets the lock any more. -/
  blocked : Bool := false

/-- Takes the last entry to the place of the removed one. -/
def swapRemove {α : Type} (items : List α) (idx : ℕ) : List α :=
  match items.getLast? with
  | none => []
  | some last => (items.set idx last).dropLast

def itemContains (item range : ChunkRange) : Bool := item.start ≤ range.start && range.stop ≤ item.stop

namespace CacheState
variable [DecidableEq K] (s : CacheState K)

def findMatch (key : K) (range : ChunkRange) : Option VerificationCell :=
  (s.inner key).find? fun item => itemContains item.inner.range range

def removeAt (key : K) (idx : ℕ) (item : CacheItem) : CacheState K :=
  { inner := Function.update s.inner key (swapRemove (s.inner key) idx)
    numItems := s.numItems - 1
    totalBytes := s.totalBytes - item.len }

/-- Evicts the chosen items while there are too many bytes. -/
def evictToCapacity (maxTotalBytes : ℕ) :
    List (K × ℕ) → CacheState K → List (K × VerificationCell) × CacheState K
  | [], s => ([],s)
  | (key,idx) :: choices, s =>
    if s.totalBytes ≤ maxTotalBytes then ([],s)
    else
      match (s.inner key)[idx]? with
      | none => ([],s)
      | some cell =>
        let (evicted,s) := evictToCapacity maxTotalBytes choices (s.removeAt key idx cell.inner)
        ((key,cell) :: evicted,s)

/-- The state without the item. There is none if the key has other items, but not this one. -/
def removeItem (key : K) (cell : VerificationCell) : Option (CacheState K) :=
  if s.inner key = [] then some s
  else ((s.inner key).findIdx? fun c => c.inner = cell.inner).map fun idx => s.removeAt key idx cell.inner

end CacheState

namespace DiskCache
variable [DecidableEq K]

def setFile (d : DiskCache K) (key : K) (item : CacheItem) (file : Option Bytes) : DiskCache K :=
  { d with files := Function.update d.files key (Function.update (d.files key) item file) }

def addCell (d : DiskCache K) (key : K) (item : CacheItem) (verified : Bool) : DiskCache K :=
  { d with
    state :=
      { inner := Function.update d.state.inner key (d.state.inner key ++ [⟨item,d.numCells⟩])
        numItems := d.state.numItems + 1
        totalBytes := d.state.totalBytes + item.len }
    verified := Function.update d.verified d.numCells verified
    numCells := d.numCells + 1 }

/-- A file of another length than its name says is removed, one that is too large for the cache is
not tracked. -/
def loadFile (key : K) (d : DiskCache K) (file : CacheItem × Bytes) : DiskCache K :=
  if d.capacity < file.2.length then d.setFile key file.1 (some file.2)
  else if file.2.length = file.1.len then (d.setFile key file.1 (some file.2)).addCell key file.1 false
  else d

/-- Stops to look at files when there are twice as many bytes as the cache may have. -/
def initializeState (sizeBytes : ℕ) (d : DiskCache K) :
    List (K × CacheItem × Bytes) → Except ChunkCacheError (DiskCache K)
  | [] => .ok d
  | (key,file) :: rest =>
    if 2 * d.capacity ≤ d.state.totalBytes then initializeState sizeBytes
      (d.setFile key file.1 (some file.2)) rest
    else if sizeBytes < file.2.length then .error .general
    else initializeState sizeBytes (d.loadFile key file) rest

/-- The cache for the directory that earlier runs have left. -/
def initializeCache (sizeBytes capacity : ℕ) (dir : List (K × CacheItem × Bytes)) :
    Except ChunkCacheError (DiskCache K) :=
  if capacity = 0 then .error .invalidArguments
    else initializeState sizeBytes { capacity := capacity } dir

end DiskCache

inductive GetPhase where
  | find
  | opening (cell : VerificationCell)
  /-- The file is open and the flag of the cell is looked at. -/
  | checking (cell : VerificationCell) (file : Bytes)
  | summing (cell : VerificationCell) (file : Bytes)
  | reading (cell : VerificationCell) (file : Bytes)
  | removing (cell : VerificationCell)
  | deleting (cell : VerificationCell)
  | returned (result : Except ChunkCacheError (Option CacheRange))

structure GetCall (K : Type) where
  key : K
  range : ChunkRange
  phase : GetPhase

namespace GetCall

def start (key : K) (range : ChunkRange) : GetCall K :=
  ⟨key,range,if range.stop ≤ range.start then .returned (.error .invalidArguments) else .find⟩

variable [DecidableEq K] (crc32 : Bytes → ℕ)

/-- The next phase of a call and what it does to the cache. -/
def advance (c : GetCall K) (d : DiskCache K) : GetPhase × DiskCache K :=
  match c.phase with
  | .find =>
    if d.blocked then (.find,d)
    else
      match d.state.findMatch c.key c.range with
      | none => (.returned (.ok none),d)
      | some cell => (.opening cell,d)
  | .opening cell =>
    match d.files c.key cell.inner with
    | none => (.removing cell,d)
    | some file => (.checking cell file,d)
  | .checking cell file =>
    (if d.verified cell.verification then .reading cell file else .summing cell file,d)
  | .summing cell file =>
    if crc32 file = cell.inner.checksum then
      (.reading cell file,
        { d with verified := Function.update d.verified cell.verification true })
    else (.removing cell,d)
  | .reading cell file =>
    match CacheFileHeader.deserialize file with
    | .error _ => (.removing cell,d)
    | .ok header =>
      (.returned
        ((getRangeFromCacheFile header file c.range cell.inner.range.start).map some),d)
  | .removing cell =>
    if d.blocked then (.removing cell,d)
    else
      match d.state.removeItem c.key cell with
      | none => (.find,d)
      | some state => (.deleting cell,{ d with state := state })
  | .deleting cell => (.find,d.setFile c.key cell.inner none)
  | .returned result => (.returned result,d)

def step (c : GetCall K) (d : DiskCache K) : GetCall K × DiskCache K :=
  let (phase,d) := c.advance crc32 d
  ({ c with phase := phase },d)

end GetCall

inductive PutPhase (K : Type) where
  | find
  /-- The call waits for the write lock and holds a read guard itself. -/
  | stuck
  | writing
  | committing
  | evicting (evicted : List (K × VerificationCell))
  | returned (result : Except ChunkCacheError Unit)

structure PutCall (K : Type) where
  key : K
  range : ChunkRange
  chunkByteIndices : List ℕ
  data : Bytes
  phase : PutPhase K

def putArguments (range : ChunkRange) (chunkByteIndices : List ℕ) (data : Bytes) :
    Except ChunkCacheError Unit :=
  if range.stop ≤ range.start then .error .invalidArguments
  else if 2 ^ 32 ≤ range.stop - range.start + 1 then .error .panicked
  else if chunkByteIndices.length ≠ range.stop - range.start + 1 ∨ chunkByteIndices.head? ≠ some 0 ∨
      chunkByteIndices.getLast? ≠ some data.length ∨ !strictlyIncreasing chunkByteIndices then
    .error .invalidArguments
  else .ok ()

/-- Compares the lengths of chunks, from index `i` of the stored and index `j` of the given
positions on. -/
def compareLengths (stored given : List ℕ) : ℕ → ℕ → ℕ → Except ChunkCacheError Unit
  | 0, _, _ => .ok ()
  | n + 1, i, j =>
    match stored[i]?, stored[i + 1]?, given[j]?, given[j + 1]? with
    | some s, some s', some g, some g' =>
      if s' < s ∨ g' < g then .error .panicked
      else if s' - s ≠ g' - g then .error .invalidArguments
      else compareLengths stored given n (i + 1) (j + 1)
    | _, _, _, _ => .error .panicked

/-- Compares what a put was given with the file of an item. The result is false if the item has to
be removed. -/
def validateMatch (crc32 : Bytes → ℕ) (file : Option Bytes) (range : ChunkRange)
    (chunkByteIndices : List ℕ) (data : Bytes) (item : CacheItem) : Except ChunkCacheError Bool :=
  if range.start < item.range.start ∨ item.range.stop < range.stop then .error .badRange
  else
    match file with
    | none => .ok false
    | some buf =>
      if buf.length ≠ item.len ∨ crc32 buf ≠ item.checksum then .ok false
      else
        match CacheFileHeader.deserialize buf with
        | .error _ => .ok false
        | .ok header => do
          compareLengths header.chunkByteIndices chunkByteIndices (range.stop - range.start)
            (range.start - item.range.start) 0
          let stored ← getRangeFromCacheFile header buf range item.range.start
          if data ≠ stored.data then .error .invalidArguments else .ok true

namespace PutCall

def start (key : K) (range : ChunkRange) (chunkByteIndices : List ℕ) (data : Bytes) : PutCall K :=
  ⟨key,range,chunkByteIndices,data,match putArguments range chunkByteIndices data with
    | .error e => .returned (.error e)
    | .ok () => .find⟩

variable (c : PutCall K)

def file : Bytes := (CacheFileHeader.mk c.chunkByteIndices).serialize ++ c.data

variable [DecidableEq K] (crc32 : Bytes → ℕ)

def item : CacheItem := ⟨c.range,c.file.length,crc32 c.file⟩

variable (choices : List (K × ℕ)) (d : DiskCache K)

/-- Under the write lock, the written file gets its name, and the cell is added to what the
evictions leave. Other calls may open or delete the file before the lock is released, which is
as if they did so afterwards. -/
def commit : List (K × VerificationCell) × DiskCache K :=
  let (evicted,state) := d.state.evictToCapacity (d.capacity - c.file.length) choices
  (evicted,({ d with state := state }.setFile c.key (c.item crc32) (some c.file)).addCell
    c.key (c.item crc32) true)

/-- The read guard of the lookup lives on while the match is validated, so no other call changes
the state between the two. A match that has to go is removed under the write lock, for which the
call then waits forever. -/
def advance : PutPhase K × DiskCache K :=
  match c.phase with
  | .find =>
    if d.blocked then (.find,d)
    else
      match d.state.findMatch c.key c.range with
      | none => (.writing,d)
      | some cell =>
        match validateMatch crc32 (d.files c.key cell.inner) c.range c.chunkByteIndices c.data
            cell.inner with
        | .error e => (.returned (.error e),d)
        | .ok true => (.returned (.ok ()),d)
        | .ok false => (.stuck,{ d with blocked := true })
  | .stuck => (.stuck,d)
  | .writing => (if d.capacity < c.file.length then .returned (.ok ()) else .committing,d)
  | .committing =>
    if d.blocked then (.committing,d)
    else
      match d.state.findMatch c.key c.range with
      | some _ => (.returned (.ok ()),d)
      | none =>
        let (evicted,d) := c.commit crc32 choices d
        (.evicting evicted,d)
  | .evicting [] => (.returned (.ok ()),d)
  | .evicting ((key,cell) :: evicted) => (.evicting evicted,d.setFile key cell.inner none)
  | .returned result => (.returned result,d)

def step : PutCall K × DiskCache K :=
  let (phase,d) := c.advance crc32 choices d
  ({ c with phase := phase },d)

end PutCall

/-- A cache and the calls on it, those that have returned included. -/
structure CacheSystem (K : Type) where
  cache : DiskCache K
  gets : List (GetCall K) := []
  puts : List (PutCall K) := []

inductive CacheEvent (K : Type) where
  | get (key : K) (range : ChunkRange)
  | put (key : K) (range : ChunkRange) (chunkByteIndices : List ℕ) (data : Bytes)
  | advanceGet (call : ℕ)
  | advancePut (call : ℕ) (choices : List (K × ℕ))
  /-- An item leaves the state. -/
  | evict (key : K) (idx : ℕ)
  /-- A file disappears. -/
  | vanish (key : K) (item : CacheItem)

namespace CacheSystem
variable [DecidableEq K] (crc32 : Bytes → ℕ)

def next (s : CacheSystem K) : CacheEvent K → CacheSystem K
  | .get key range => { s with gets := s.gets ++ [GetCall.start key range] }
  | .put key range chunkByteIndices data =>
    { s with puts := s.puts ++ [PutCall.start key range chunkByteIndices data] }
  | .advanceGet call =>
    match s.gets[call]? with
    | none => s
    | some c =>
      let (c,cache) := c.step crc32 s.cache
      { s with cache := cache, gets := s.gets.set call c }
  | .advancePut call choices =>
    match s.puts[call]? with
    | none => s
    | some c =>
      let (c,cache) := c.step crc32 choices s.cache
      { s with cache := cache, puts := s.puts.set call c }
  | .evict key idx =>
    if s.cache.blocked then s
    else
      match (s.cache.state.inner key)[idx]? with
      | none => s
      | some cell =>
        { s with cache :=
            { s.cache with state := s.cache.state.removeAt key idx cell.inner } }
  | .vanish key item => { s with cache := s.cache.setFile key item none }

end CacheSystem

end XetCore.ChunkCache
