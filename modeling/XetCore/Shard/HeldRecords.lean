import XetCore.Lib.Runs
import XetCore.Shard.FileLookup
import XetCore.Shard.ShardFileManager

/-! # Concurrent calls of the shard file manager

Calls that add records, flush, or look up a file run side by side. A shard that was written
under the lock is registered after the lock is given back. A lookup asks the shard in memory
first and the registered shards later.
-/
namespace XetCore.Shard
open ByteSources Serialization Runs
open Merkle (DataHash)

/-- A call that has written a shard and has still to register it. -/
structure Registration where
  shardHash : DataHash
  /-- The loaded shard, which was not registered when it was looked for. -/
  shard : Option MDBShardFile
  /-- The record that the call added. -/
  adding : List MDBFileInfo

/-- A lookup that did not find its file in memory, and the records whose calls had returned when it
began. -/
structure FileQuery where
  fileHash : DataHash
  known : List MDBFileInfo

structure FileAnswer extends FileQuery where
  result : Result (Option (MDBFileInfo × Option DataHash))

structure ManagerCalls where
  manager : ShardFileManager
  registering : List Registration := []
  queries : List FileQuery := []
  added : List MDBFileInfo := []
  returned : List MDBFileInfo := []
  answers : List FileAnswer := []

inductive CallStep where
  | addXorbBlock (xorb : MDBXorbInfo)
  | addFileReconstructionInfo (fileInfo : MDBFileInfo)
  | flush
  | loadShard (call : ℕ)
  | registerShard (call : ℕ)
  | queryMemory (fileHash : DataHash)
  | queryShards (call : ℕ)

namespace ManagerCalls
variable (cfg : ManagerConfig) (c : ManagerCalls)

/-- The call returns, or goes on to register the file that it wrote. -/
def written (manager : ShardFileManager) (adding : List MDBFileInfo) : Option DataHash → ManagerCalls
  | none => { c with manager, returned := adding ++ c.returned }
  | some shardHash => { c with manager, registering := c.registering ++ [⟨shardHash,none,adding⟩] }

variable (call : ℕ)

def returnCall (adding : List MDBFileInfo) : ManagerCalls :=
  { c with registering := c.registering.eraseIdx call, returned := adding ++ c.returned }

def answer (q : FileQuery) (result : Result (Option (MDBFileInfo × Option DataHash))) : ManagerCalls :=
  { c with answers := ⟨q,result⟩ :: c.answers }

def loadShard (r : Registration) : Result ManagerCalls := do
  let s ← c.manager.shardDirectory.loadFromFile r.shardHash
  if c.manager.isRegistered s.shardHash then return c.returnCall call r.adding
  else return { c with registering := c.registering.set call { r with shard := some s } }

def registerShard (r : Registration) : ManagerCalls :=
  match r.shard with
  | none => c
  | some s => { c.returnCall call r.adding with manager := c.manager.registerShard cfg s }

def queryMemory (q : FileQuery) : ManagerCalls :=
  if q.fileHash = default then c.answer q (.ok (some ({},none)))
  else
    match c.manager.currentState.getFileReconstructionInfo q.fileHash with
    | some fi => c.answer q (.ok (some (fi,none)))
    | none => { c with queries := c.queries ++ [q] }

def queryShards (q : FileQuery) : ManagerCalls :=
  { c with queries := c.queries.eraseIdx call }.answer q
    (c.manager.queryShards cfg q.fileHash c.manager.shardBookkeeper.shards)

def step : CallStep → Result ManagerCalls
  | .addXorbBlock xorb => do
    let (manager,newShard) ← c.manager.addXorbBlock cfg xorb
    return c.written manager [] newShard
  | .addFileReconstructionInfo fileInfo => do
    let (manager,newShard) ← c.manager.addFileReconstructionInfo cfg fileInfo
    return { c with added := fileInfo :: c.added }.written manager [fileInfo] newShard
  | .flush => do
    let (manager,newShard) ← c.manager.flush cfg
    return c.written manager [] newShard
  | .loadShard call =>
    match c.registering[call]? with
    | some r => c.loadShard call r
    | none => return c
  | .registerShard call =>
    match c.registering[call]? with
    | some r => return c.registerShard cfg call r
    | none => return c
  | .queryMemory fileHash => return c.queryMemory ⟨fileHash,c.returned⟩
  | .queryShards call =>
    match c.queries[call]? with
    | some q => return c.queryShards cfg call q
    | none => return c

def perform (steps : List CallStep) : ManagerCalls := run (attempt (step cfg)) c steps

end ManagerCalls

open List

namespace ShardFileManager
variable (cfg : ManagerConfig) (m : ShardFileManager)

def queryFile (shardHash fileHash : DataHash) : Result (Option MDBFileInfo) := do
  let s ← m.shardDirectory.loadFromFile shardHash
  m.queryShard cfg s fileHash

/-- Writing the shard in memory replaces no file by another one. -/
def WritesAnew : Prop := ∀ bytes old, m.currentState.toBytes cfg.sorter = .ok bytes →
  m.shardDirectory[cfg.computeDataHash bytes]? = some old → old = bytes

/-- The file is of a registered shard or of one that waits. -/
def Held (waiting : List DataHash) (shardHash : DataHash) : Prop :=
  shardHash ∈ waiting ∨ ∃ s ∈ m.shardBookkeeper.shards, s.shardHash = shardHash

/-- Where the added records are, and that whatever is found for one of their hashes has the same
segments. -/
structure Holds (waiting : List DataHash) (added : List MDBFileInfo) : Prop where
  files : ∀ f ∈ m.currentState.files, f.WellFormed ∧ 1 + f.metadata.numFollowing < 2 ^ 32
  files_added : ∀ f ∈ m.currentState.files, f ∈ added
  agree : ∀ f ∈ added, ∀ g ∈ added, f.metadata.fileHash = g.metadata.fileHash → f.segments = g.segments
  loaded : ∀ s ∈ m.shardBookkeeper.shards, m.shardDirectory.loadFromFile s.shardHash = .ok s
  present : ∀ h ∈ waiting, ∃ bytes, m.shardDirectory[h]? = some bytes
  waiting_added : ∀ h ∈ waiting, ∀ fileHash g, m.queryFile cfg h fileHash = .ok (some g) →
    ∃ f ∈ added, f.metadata.fileHash = fileHash ∧ f.segments = g.segments
  registered_agree : ∀ s ∈ m.shardBookkeeper.shards, ∀ f ∈ added, ∀ g,
    m.queryFile cfg s.shardHash f.metadata.fileHash = .ok (some g) → g.segments = f.segments
  kept : ∀ f ∈ added, (∃ g, m.currentState.getFileReconstructionInfo f.metadata.fileHash = some g) ∨
    ∃ h, m.Held waiting h ∧ m.queryFile cfg h f.metadata.fileHash ≠ .ok none

variable {cfg m} {m' : ShardFileManager} {waiting waiting' : List DataHash} {added : List MDBFileInfo}
variable {h : DataHash} {s : MDBShardFile} {newShard : Option DataHash} {mdb : MDBInMemoryShard}
  {fileHash : DataHash}

/-- The files that were there are still there, and what was held is still held. -/
structure Extends (m m' : ShardFileManager) (waiting waiting' : List DataHash) : Prop where
  directory : ∀ (h : DataHash) (bytes : Bytes), m.shardDirectory[h]? = some bytes →
    m'.shardDirectory[h]? = some bytes
  held : ∀ h, m.Held waiting h → m'.Held waiting' h

theorem queryFile_eq (h fileHash : DataHash) : m.queryFile cfg h fileHash = (do
    let bytes ← m.shardDirectory.read h
    let info ← MDBShardInfo.loadFromReader bytes
    info.getFileReconstructionInfo cfg.interpolate bytes fileHash) := by
  rw [queryFile,ShardDirectory.loadFromFile,ShardDirectory.read]
  cases hb : m.shardDirectory[h]? with
  | none => rfl
  | some bytes =>
    rw [ok_bind,ok_bind]
    cases MDBShardInfo.loadFromReader bytes with
    | error e => rfl
    | ok info =>
      change m.queryShard cfg ⟨h,info⟩ fileHash = _
      rw [queryShard,hb]
      rfl

theorem loadFromFile_eq_ok {d : ShardDirectory} :
    d.loadFromFile h = .ok s ↔ ∃ bytes, d[h]? = some bytes ∧
    MDBShardInfo.loadFromReader bytes = .ok s.shard ∧
      s.shardHash = h := by
  rw [ShardDirectory.loadFromFile,ShardDirectory.read]
  cases d[h]? with
  | none => simp [bind,Except.bind]
  | some bytes =>
    simp only [bind_eq_ok,Except.ok.injEq,exists_eq_left',Option.some.injEq]
    constructor
    · rintro ⟨info,hin,hs⟩
      cases hs
      exact ⟨hin,rfl⟩
    · rintro ⟨hin,rfl⟩
      exact ⟨s.shard,hin,rfl⟩

theorem cutShard_eq_ok : m.cutShard cfg = .ok (m',h) ↔
    ∃ bytes, m.currentState.toBytes cfg.sorter = .ok bytes ∧ h = cfg.computeDataHash bytes ∧
      m' = { m with currentState := .empty, shardDirectory := m.shardDirectory.insert h bytes } := by
  rw [cutShard,bind_eq_ok]
  constructor
  · rintro ⟨bytes,hb,hm⟩
    cases hm
    exact ⟨bytes,hb,rfl,rfl⟩
  · rintro ⟨bytes,hb,rfl,rfl⟩
    exact ⟨bytes,hb,rfl⟩

theorem toBytes_eq_ok {sorter : KeySort (ℕ × ℕ)} {bytes : Bytes} :
    mdb.toBytes sorter = .ok bytes ↔
      ∃ info, MDBShardInfo.serializeFrom sorter mdb none = .ok (info,bytes) := by
  rw [MDBInMemoryShard.toBytes,bind_eq_ok]
  constructor
  · rintro ⟨⟨info,out⟩,ho,hb⟩
    cases hb
    exact ⟨info,ho⟩
  · rintro ⟨info,ho⟩
    exact ⟨_,ho,rfl⟩

theorem queryFile_cut (hf : ∀ f ∈ m.currentState.files, f.WellFormed ∧
    1 + f.metadata.numFollowing < 2 ^ 32)
    (hc : m.cutShard cfg = .ok (m',h)) {result : Option MDBFileInfo}
    (hr : m'.queryFile cfg h fileHash = .ok result) :
    result = (m.currentState.getFileReconstructionInfo fileHash).map MDBFileInfo.stripped := by
  obtain ⟨bytes,hb,-,rfl⟩ := cutShard_eq_ok.mp hc
  obtain ⟨info,ho⟩ := toBytes_eq_ok.mp hb
  have hre : ShardDirectory.read (m.shardDirectory.insert h bytes) h = .ok bytes := by
    rw [ShardDirectory.read,Std.ExtTreeMap.getElem?_insert_self]
  rw [queryFile_eq,hre,ok_bind,MDBInMemoryShard.loadFromReader_written ho,ok_bind,
    MDBInMemoryShard.getFileReconstructionInfo_written hf ho] at hr
  split at hr
  · exact (Except.ok.inj hr).symm
  · cases hr

theorem getElem?_cut {h' : DataHash} (ha : m.WritesAnew cfg) (hc : m.cutShard cfg = .ok (m',h))
    {bytes : Bytes} (hb : m.shardDirectory[h']? = some bytes) : m'.shardDirectory[h']? = some bytes := by
  obtain ⟨out,ho,rfl,rfl⟩ := cutShard_eq_ok.mp hc
  rw [Std.ExtTreeMap.getElem?_insert]
  split_ifs with heq
  · obtain rfl := Std.LawfulEqCmp.eq_of_compare heq
    rw [ha out bytes ho hb]
  · exact hb

theorem Holds.getElem?_of_held (hm : m.Holds cfg waiting added) (hh : m.Held waiting h) :
    ∃ bytes, m.shardDirectory[h]? = some bytes := by
  rcases hh with hw | ⟨s,hs,rfl⟩
  · exact hm.present h hw
  · obtain ⟨bytes,hb,-⟩ := loadFromFile_eq_ok.mp (hm.loaded s hs)
    exact ⟨bytes,hb⟩

theorem Holds.queryFile_extends (hm : m.Holds cfg waiting added) (he : m.Extends m' waiting waiting')
    (hh : m.Held waiting h) (fileHash : DataHash) :
    m'.queryFile cfg h fileHash = m.queryFile cfg h fileHash := by
  obtain ⟨bytes,hb⟩ := hm.getElem?_of_held hh
  rw [queryFile_eq,queryFile_eq,ShardDirectory.read,ShardDirectory.read,he.directory h bytes hb,hb]

theorem extends_cut (ha : m.WritesAnew cfg) (hc : m.cutShard cfg = .ok (m',h)) :
    m.Extends m' waiting (waiting ++ [h]) := by
  refine ⟨fun h' bytes => getElem?_cut ha hc,fun h' hh => ?_⟩
  obtain ⟨out,-,-,rfl⟩ := cutShard_eq_ok.mp hc
  exact hh.imp_left fun hw => mem_append_left _ hw

theorem mem_files_of_get {f : MDBFileInfo}
    (h : mdb.getFileReconstructionInfo fileHash = some f) :
    f ∈ mdb.files ∧ f.metadata.fileHash = fileHash := by
  obtain rfl := mdb.file_keyed fileHash f h
  exact ⟨MDBInMemoryShard.mem_files.mpr h,rfl⟩

/-- A shard that is cut takes its records to the waiting ones. -/
theorem Holds.cut (hm : m.Holds cfg waiting added) (ha : m.WritesAnew cfg)
    (hc : m.cutShard cfg = .ok (m',h)) : m'.Holds cfg (waiting ++ [h]) added := by
  have hex : m.Extends m' waiting (waiting ++ [h]) := extends_cut ha hc
  obtain ⟨out,-,-,hm'⟩ := cutShard_eq_ok.mp hc
  have hsh : m'.shardBookkeeper.shards = m.shardBookkeeper.shards := by rw [hm']
  have he : m'.currentState = .empty := by rw [hm']
  have hn : ∀ f, f ∉ m'.currentState.files := by
    intro f hf
    rw [he,MDBInMemoryShard.mem_files] at hf
    simp [MDBInMemoryShard.empty] at hf
  refine ⟨fun f hf => absurd hf (hn f),fun f hf => absurd hf (hn f),hm.agree,?_,?_,?_,?_,?_⟩
  · intro s hs
    rw [hsh] at hs
    obtain ⟨bytes,hb,hl⟩ := loadFromFile_eq_ok.mp (hm.loaded s hs)
    exact loadFromFile_eq_ok.mpr ⟨bytes,hex.directory _ _ hb,hl⟩
  · intro h' hh'
    rcases mem_append.mp hh' with hw | hnw
    · obtain ⟨bytes,hb⟩ := hm.present h' hw
      exact ⟨bytes,hex.directory _ _ hb⟩
    · rw [mem_singleton.mp hnw,hm']
      exact ⟨out,Std.ExtTreeMap.getElem?_insert_self⟩
  · intro h' hh' fileHash g hg
    rcases mem_append.mp hh' with hw | hnw
    · rw [hm.queryFile_extends hex (.inl hw)] at hg
      exact hm.waiting_added h' hw fileHash g hg
    · rw [mem_singleton.mp hnw] at hg
      obtain ⟨f,hf,rfl⟩ := Option.map_eq_some_iff.mp (queryFile_cut hm.files hc hg).symm
      obtain ⟨hmem,hha⟩ := mem_files_of_get hf
      exact ⟨f,hm.files_added f hmem,hha,rfl⟩
  · intro s hs f hf g hg
    rw [hsh] at hs
    rw [hm.queryFile_extends hex (.inr ⟨s,hs,rfl⟩)] at hg
    exact hm.registered_agree s hs f hf g hg
  · intro f hf
    refine .inr ?_
    rcases hm.kept f hf with ⟨g,hg⟩ | ⟨h',hh,hne⟩
    · refine ⟨h,.inl (mem_append_right _ (mem_singleton_self h)),fun hno => ?_⟩
      have hr := queryFile_cut hm.files hc hno
      rw [hg] at hr
      cases hr
    · exact ⟨h',hex.held h' hh,by rwa [hm.queryFile_extends hex hh]⟩

/-- The record agrees with the records under its hash that were added and with those of the
registered shards. -/
def Agrees (cfg : ManagerConfig) (m : ShardFileManager) (added : List MDBFileInfo)
    (f : MDBFileInfo) : Prop :=
  (∀ g ∈ added, g.metadata.fileHash = f.metadata.fileHash → g.segments = f.segments) ∧
  ∀ s ∈ m.shardBookkeeper.shards, ∀ g, m.queryShard cfg s f.metadata.fileHash = .ok (some g) →
    g.segments = f.segments

theorem Holds.queryFile_registered (hm : m.Holds cfg waiting added)
    (hs : s ∈ m.shardBookkeeper.shards) (fileHash : DataHash) :
    m.queryFile cfg s.shardHash fileHash = m.queryShard cfg s fileHash := by
  rw [queryFile,hm.loaded s hs,ok_bind]

section Adding
variable {f : MDBFileInfo} {mdb' : MDBInMemoryShard}

theorem getFileReconstructionInfo_add (ha : mdb.addFileReconstructionInfo f = .ok mdb')
    (fileHash : DataHash) :
    mdb'.getFileReconstructionInfo fileHash =
      if f.metadata.fileHash = fileHash then some f else mdb.getFileReconstructionInfo fileHash := by
  obtain ⟨n,-,hm'⟩ := bind_eq_ok.mp ha
  cases hm'
  refine Std.ExtTreeMap.getElem?_insert.trans ?_
  simp only [Std.LawfulEqCmp.compare_eq_iff_eq]
  rfl

theorem mem_files_add (ha : mdb.addFileReconstructionInfo f = .ok mdb') {g : MDBFileInfo}
    (hg : g ∈ mdb'.files) :
    g = f ∨ g ∈ mdb.files := by
  have hge := (getFileReconstructionInfo_add ha g.metadata.fileHash).symm.trans
    (MDBInMemoryShard.mem_files.mp hg)
  split at hge
  · exact .inl (Option.some.inj hge).symm
  · exact .inr (MDBInMemoryShard.mem_files.mpr hge)

theorem Agrees.of_extends (ha : m.Agrees cfg added f) (hm : m.Holds cfg waiting added)
    (hm' : m'.Holds cfg waiting' added) (he : m.Extends m' waiting waiting')
    (hsa : m'.shardBookkeeper = m.shardBookkeeper) : m'.Agrees cfg added f := by
  refine ⟨ha.1,fun s hs g hg => ?_⟩
  rw [← hm'.queryFile_registered hs] at hg
  rw [hsa] at hs
  rw [hm.queryFile_extends he (.inr ⟨s,hs,rfl⟩),hm.queryFile_registered hs] at hg
  exact ha.2 s hs g hg

theorem Holds.addFile (hm : m.Holds cfg waiting added)
    (hf : f.WellFormed ∧ 1 + f.metadata.numFollowing < 2 ^ 32)
    (hag : m.Agrees cfg added f) (hadd : m.currentState.addFileReconstructionInfo f = .ok mdb) :
    { m with currentState := mdb : ShardFileManager }.Holds cfg waiting (f :: added) := by
  obtain ⟨ha,hsh⟩ := hag
  refine ⟨fun g hg => ?_,fun g hg => ?_,?_,hm.loaded,hm.present,fun h hh fileHash g hg =>
    ?_,fun s hs g hg g' hg' => ?_,fun g hg => ?_⟩
  · rcases mem_files_add hadd hg with rfl | hold
    · exact hf
    · exact hm.files g hold
  · rcases mem_files_add hadd hg with rfl | hold
    · exact mem_cons_self
    · exact mem_cons_of_mem f (hm.files_added g hold)
  · refine forall_mem_cons.mpr ⟨?_,fun g hg => ?_⟩
    · exact forall_mem_cons.mpr ⟨fun _ => rfl,fun g hg heq => (ha g hg heq.symm).symm⟩
    · exact forall_mem_cons.mpr ⟨ha g hg,hm.agree g hg⟩
  · obtain ⟨f',hf',hha⟩ := hm.waiting_added h hh fileHash g hg
    exact ⟨f',mem_cons_of_mem f hf',hha⟩
  · rcases mem_cons.mp hg with rfl | hg
    · exact hsh s hs g' ((hm.queryFile_registered hs _).symm.trans hg')
    · exact hm.registered_agree s hs g hg g' hg'
  · rw [getFileReconstructionInfo_add hadd]
    by_cases hha : f.metadata.fileHash = g.metadata.fileHash
    · exact .inl ⟨f,if_pos hha⟩
    · rw [if_neg hha]
      rcases mem_cons.mp hg with rfl | hg
      · exact absurd rfl hha
      · exact hm.kept g hg

end Adding

/-- A waiting shard may be given up when it is held otherwise. -/
theorem Holds.of_held (hm : m.Holds cfg waiting added) (hs : ∀ h ∈ waiting', h ∈ waiting)
    (hhe : ∀ h, m.Held waiting h → m.Held waiting' h) : m.Holds cfg waiting' added :=
  { hm with
    present := fun h hh => hm.present h (hs h hh)
    waiting_added := fun h hh => hm.waiting_added h (hs h hh)
    kept := fun f hf => (hm.kept f hf).imp_right fun ⟨h,hh,hne⟩ => ⟨h,hhe h hh,hne⟩ }

theorem held_of_isRegistered (hr : m.isRegistered h = true) :
    ∃ s ∈ m.shardBookkeeper.shards, s.shardHash = h := by
  obtain ⟨place,hp⟩ := Option.isSome_iff_exists.mp
    ((Std.ExtTreeMap.isSome_getElem?_eq_contains).trans hr)
  obtain ⟨c,s,hc,hs,hh⟩ := m.shardBookkeeper.listed h place hp
  exact ⟨s,ShardBookkeeper.mem_shards.mpr ⟨c,mem_of_getElem? hc,mem_of_getElem? hs⟩,hh⟩

theorem Holds.register (hm : m.Holds cfg waiting added) (hh : h ∈ waiting)
    (hl : m.shardDirectory.loadFromFile h = .ok s) : (m.registerShard cfg s).Holds cfg waiting added := by
  obtain ⟨-,-,-,rfl⟩ := loadFromFile_eq_ok.mp hl
  refine ⟨hm.files,hm.files_added,hm.agree,fun t ht => ?_,hm.present,hm.waiting_added,
    fun t ht f hf g hg => ?_,fun f hf => (hm.kept f hf).imp_right ?_⟩
  · rcases ShardBookkeeper.mem_shards_register.mp ht with hold | rfl
    · exact hm.loaded t hold
    · exact hl
  · rcases ShardBookkeeper.mem_shards_register.mp ht with hold | rfl
    · exact hm.registered_agree t hold f hf g hg
    · obtain ⟨f',hf',hha,hs⟩ := hm.waiting_added _ hh _ g hg
      exact hs.symm.trans (hm.agree f' hf' f hf hha)
  · rintro ⟨h',hhe,hne⟩
    exact ⟨h',hhe.imp_right fun ⟨t,ht,hha⟩ =>
      ⟨t,ShardBookkeeper.mem_shards_register.mpr (.inl ht),hha⟩,hne⟩

/-- So many more bytes are too many for the shard in memory. -/
def Full (cfg : ManagerConfig) (m : ShardFileManager) (numBytes : ℕ) : Prop :=
  cfg.targetShardMaxSize < m.currentState.shardFileSize + numBytes

theorem cutIfFull_eq_ok {numBytes : ℕ} (h : m.cutIfFull cfg numBytes = .ok (m',newShard)) :
    (m' = m ∧ newShard = none) ∨ ∃ shardHash, m.Full cfg numBytes ∧ m.cutShard cfg = .ok (m',shardHash) ∧
      newShard = some shardHash := by
  rw [cutIfFull] at h
  split_ifs at h with hf
  · obtain ⟨⟨n,shardHash⟩,hc,hn⟩ := bind_eq_ok.mp h
    cases hn
    exact .inr ⟨shardHash,hf,hc,rfl⟩
  · cases h
    exact .inl ⟨rfl,rfl⟩

theorem Holds.cutIfFull (hm : m.Holds cfg waiting added) {numBytes : ℕ}
    (ha : m.Full cfg numBytes → m.WritesAnew cfg) (h : m.cutIfFull cfg numBytes = .ok (m',newShard)) :
    m'.Holds cfg (waiting ++ newShard.toList) added ∧ m.Extends m' waiting (waiting ++ newShard.toList) ∧
      m'.shardBookkeeper = m.shardBookkeeper := by
  rcases cutIfFull_eq_ok h with ⟨rfl,rfl⟩ | ⟨shardHash,hf,hc,rfl⟩
  · rw [Option.toList_none,append_nil]
    exact ⟨hm,⟨fun _ _ h => h,fun _ h => h⟩,rfl⟩
  · refine ⟨hm.cut (ha hf) hc,extends_cut (ha hf) hc,?_⟩
    obtain ⟨out,-,-,rfl⟩ := cutShard_eq_ok.mp hc
    rfl

end ShardFileManager

end XetCore.Shard
