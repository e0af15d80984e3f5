import XetCore.Shard.ShardFileManager

/-! # Directories of shards

A directory is read file by file. A shard whose key has expired is left out, and it is deleted
once a further buffer of time has passed. If the shards that were read take more than a limit,
those that were created first are deleted too.
-/
namespace XetCore.Shard
open ByteSources Serialization List
open Merkle (DataHash)

/-- The sum, or the largest word where it does not fit. -/
def saturatingAdd (a b : UInt64) : UInt64 := UInt64.ofNat (min (a.toNat + b.toNat) (2 ^ 64 - 1))

def subUsize (a b : ℕ) : Result ℕ := if b ≤ a then .ok (a - b) else .error .panicked

def MDBShardInfo.numBytes (info : MDBShardInfo) : Result ℕ :=
  addUsize info.metadata.footerOffset.toNat mdbShardFooterSize

/-- How a directory is to be read. There is no limit where it is 0. -/
structure LoadOptions where
  skipOnError : Bool
  loadExpired : Bool
  pruneExpired : Bool
  pruneDirStorageToSize : ℕ

namespace ShardDirectory

/-- Loads the listed files one after the other. The callback may delete files. -/
def scanImpl {σ : Type} (skipOnError : Bool)
    (callback : MDBShardFile → σ × ShardDirectory → Result (σ × ShardDirectory)) :
    List DataHash → σ × ShardDirectory → Result (σ × ShardDirectory)
  | [], s => return s
  | name :: names, s =>
    match loadFromFile s.2 name with
    | .error e => if skipOnError then scanImpl skipOnError callback names s else .error e
    | .ok file => do
      let s' ← callback file s
      scanImpl skipOnError callback names s'

def manageShard (expirationBuffer currentTime : UInt64) (options : LoadOptions) (s : MDBShardFile) :
    (ℕ × List MDBShardFile) × ShardDirectory → Result ((ℕ × List MDBShardFile) × ShardDirectory)
  | ((totalSize,ret),directory) =>
    if options.loadExpired ∨ currentTime ≤ s.shard.metadata.shardKeyExpiry then do
      let numBytes ← s.shard.numBytes
      let totalSize ← addUsize totalSize numBytes
      return ((totalSize,ret ++ [s]),directory)
    else if options.pruneExpired ∧
        saturatingAdd s.shard.metadata.shardKeyExpiry expirationBuffer ≤ currentTime then
      return ((totalSize,ret),directory.erase s.shardHash)
    else return ((totalSize,ret),directory)

/-- Deletes from the front until the size is within the limit. -/
def pruneToSize (limit : ℕ) : ℕ → List MDBShardFile → ShardDirectory →
    Result (List MDBShardFile × ShardDirectory)
  | _, [], directory => return ([],directory)
  | totalSize, s :: rest, directory =>
    if limit < totalSize then do
      let numBytes ← s.shard.numBytes
      let totalSize ← subUsize totalSize numBytes
      pruneToSize limit totalSize rest (directory.erase s.shardHash)
    else return (s :: rest,directory)

/-- Reads the listed files of a directory. The heap gives the order of their creation. -/
def loadManagedDirectory (heap : KeySort MDBShardFile) (expirationBuffer currentTime : UInt64)
    (options : LoadOptions)
    (names : List DataHash) (directory : ShardDirectory) :
    Result (List MDBShardFile × ShardDirectory) := do
  let ((totalSize,ret),directory) ← scanImpl options.skipOnError
    (manageShard expirationBuffer currentTime options) names ((0,[]),directory)
  if options.pruneDirStorageToSize ≠ 0 ∧ options.pruneDirStorageToSize < totalSize then
    let heaped := heap.sort (ret.map fun s => (s.shard.metadata.shardCreationTimestamp.toNat,s))
    pruneToSize options.pruneDirStorageToSize totalSize (heaped.map Prod.snd) directory
  else return (ret,directory)

def loadAllValid (heap : KeySort MDBShardFile) (expirationBuffer currentTime : UInt64)
    (names : List DataHash)
    (directory : ShardDirectory) : Result (List MDBShardFile × ShardDirectory) :=
  loadManagedDirectory heap expirationBuffer currentTime ⟨true,false,false,0⟩ names directory

variable (expirationBufferSecs currentTime : UInt64)

def cleanShard (s : MDBShardFile) : Unit × ShardDirectory → Result (Unit × ShardDirectory)
  | ((),directory) =>
    if saturatingAdd s.shard.metadata.shardKeyExpiry expirationBufferSecs ≤ currentTime then
      return ((),directory.erase s.shardHash)
    else return ((),directory)

def cleanShardCache (names : List DataHash) (directory : ShardDirectory) :
    Result ShardDirectory := do
  let ((),directory) ← scanImpl true (cleanShard expirationBufferSecs currentTime) names ((),directory)
  return directory

section Scan
variable (directory : ShardDirectory) (names : List DataHash)

def loaded : List MDBShardFile :=
  names.filterMap fun name => (loadFromFile directory name).toOption

def eraseAll : ShardDirectory := names.foldl (fun d name => d.erase name) directory

/-- The listed files can be loaded, or those that cannot are passed over. -/
def Scannable (skipOnError : Bool) (names : List DataHash) : Prop :=
  skipOnError = true ∨ ∀ name ∈ names, ∃ s, loadFromFile directory name = .ok s

variable {directory} {names} {name : DataHash} {s : MDBShardFile} {skipOnError : Bool}
variable {deletes : MDBShardFile → Bool}

theorem loadFromFile_eq_ok : loadFromFile directory name = .ok s ↔
    s.shardHash = name ∧ ∃ bytes, directory[name]? = some bytes ∧
    MDBShardInfo.loadFromReader bytes = .ok s.shard := by
  obtain ⟨hash,shard⟩ := s
  rw [loadFromFile,read]
  cases directory[name]? with
  | none => simp [bind,Except.bind]
  | some bytes =>
    rw [ok_bind,bind_eq_ok]
    constructor
    · rintro ⟨info,hin,heq⟩
      cases heq
      exact ⟨rfl,bytes,rfl,hin⟩
    · rintro ⟨rfl,_,hb,hin⟩
      cases hb
      exact ⟨shard,hin,rfl⟩

theorem mem_loaded : s ∈ directory.loaded names ↔ s.shardHash ∈ names ∧
    loadFromFile directory s.shardHash = .ok s := by
  rw [loaded,mem_filterMap]
  constructor
  · rintro ⟨name,hn,hs⟩
    have hl := toOption_eq_some.mp hs
    obtain rfl := (loadFromFile_eq_ok.mp hl).1
    exact ⟨hn,hl⟩
  · rintro ⟨hn,hl⟩
    exact ⟨s.shardHash,hn,toOption_eq_some.mpr hl⟩

theorem loadFromFile_erase_of_ne {other : DataHash} (hne : other ≠ name) :
    loadFromFile (directory.erase name) other = loadFromFile directory other := by
  have hg : (directory.erase name)[other]? = directory[other]? := by
    rw [Std.ExtTreeMap.getElem?_erase,if_neg fun heq => hne (Std.LawfulEqCmp.eq_of_compare heq).symm]
  rw [loadFromFile,loadFromFile,read,read,hg]

theorem getElem?_eraseAll (directory : ShardDirectory) :
    (directory.eraseAll names)[name]? = if name ∈ names then none else directory[name]? := by
  induction names generalizing directory with
  | nil => rfl
  | cons other names ih =>
    have hs : directory.eraseAll (other :: names) = eraseAll (directory.erase other) names := rfl
    rw [hs,ih,Std.ExtTreeMap.getElem?_erase]
    by_cases hmem : name ∈ names
    · rw [if_pos hmem,if_pos (mem_cons_of_mem _ hmem)]
    · rw [if_neg hmem]
      by_cases heq : other = name
      · rw [if_pos (compare_eq_iff_eq.mpr heq),if_pos (heq ▸ mem_cons_self)]
      · rw [if_neg fun h => heq (compare_eq_iff_eq.mp h),
          if_neg fun h => (mem_cons.mp h).elim (fun h => heq h.symm) hmem]

theorem loaded_erase (hn : name ∉ names) :
    loaded (directory.erase name) names = directory.loaded names := by
  refine filterMap_congr fun other ho => ?_
  have hne : other ≠ name := fun heq => hn (heq ▸ ho)
  rw [loadFromFile_erase_of_ne hne]

theorem Scannable.erase (h : Scannable directory skipOnError names) (hn : name ∉ names) :
    Scannable (directory.erase name) skipOnError names := by
  refine h.imp_right fun ha other ho => ?_
  have hne : other ≠ name := fun heq => hn (heq ▸ ho)
  rw [loadFromFile_erase_of_ne hne]
  exact ha other ho

theorem Scannable.tail (h : Scannable directory skipOnError (name :: names)) :
    Scannable directory skipOnError names :=
  h.imp_right fun ha other ho => ha other (mem_cons_of_mem _ ho)

section
variable {σ : Type} {callback : MDBShardFile → σ × ShardDirectory → Result (σ × ShardDirectory)}
variable {step : σ → MDBShardFile → Result σ}
variable (hc : ∀ s a d, callback s (a,d) =
  (step a s).map fun a' => (a',if deletes s then d.erase s.shardHash else d)) (hno : names.Nodup)
include hc hno

theorem scanImpl_eq (hsc : Scannable directory skipOnError names) (a : σ) :
    scanImpl skipOnError callback names (a,directory) =
      ((directory.loaded names).foldlM step a).map fun a' =>
      (a',directory.eraseAll (((directory.loaded names).filter deletes).map MDBShardFile.shardHash)) := by
  induction names generalizing a directory with
  | nil => rfl
  | cons name names ih =>
    obtain ⟨hn,hr⟩ := nodup_cons.mp hno
    rw [scanImpl]
    cases hlo : loadFromFile directory name with
    | error e =>
      have hl : directory.loaded (name :: names) = directory.loaded names := by
        rw [loaded,filterMap_cons,hlo]
        rfl
      obtain rfl : skipOnError = true :=
        hsc.resolve_right fun ha => by
          obtain ⟨s,hs⟩ := ha name mem_cons_self
          rw [hlo] at hs
          cases hs
      rw [hl,← ih hr hsc.tail a]
      rfl
    | ok s =>
      have hl : directory.loaded (name :: names) = s :: directory.loaded names := by
        rw [loaded,filterMap_cons,hlo]
        rfl
      obtain rfl := (loadFromFile_eq_ok.mp hlo).1
      dsimp only
      rw [hc,hl,foldlM_cons]
      cases step a s with
      | error e => rfl
      | ok a' =>
        rw [ok_bind,Except.map,ok_bind,filter_cons]
        cases hd : deletes s with
        | true =>
          rw [if_pos rfl,if_pos rfl,ih hr (hsc.tail.erase hn),loaded_erase hn]
          rfl
        | false =>
          rw [if_neg Bool.false_ne_true,if_neg Bool.false_ne_true,ih hr hsc.tail]

/-- A scan that passes over no file and ends well has loaded every file. -/
theorem scannable_of_scanImpl {a : σ} {r : σ × ShardDirectory}
    (h : scanImpl skipOnError callback names (a,directory) = .ok r) :
    Scannable directory skipOnError names := by
  cases skipOnError with
  | true => exact .inl rfl
  | false =>
    refine .inr ?_
    induction names generalizing a directory with
    | nil => exact forall_mem_nil _
    | cons name names ih =>
      obtain ⟨hn,hr⟩ := nodup_cons.mp hno
      rw [scanImpl] at h
      cases hlo : loadFromFile directory name with
      | error e =>
        rw [hlo] at h
        cases h
      | ok s =>
        obtain rfl := (loadFromFile_eq_ok.mp hlo).1
        rw [hlo] at h
        obtain ⟨_,hs,h⟩ := bind_eq_ok.mp h
        rw [hc] at hs
        obtain ⟨a',-,rfl⟩ := map_eq_ok.mp hs
        refine forall_mem_cons.mpr ⟨⟨s,hlo⟩,fun other ho => ?_⟩
        obtain ⟨t,ht⟩ := ih hr h other ho
        have hne : other ≠ s.shardHash := fun heq => hn (heq ▸ ho)
        split at ht
        · rw [loadFromFile_erase_of_ne hne] at ht
          exact ⟨t,ht⟩
        · exact ⟨t,ht⟩

end

end Scan

section Managed
variable {currentTime} {expirationBuffer : UInt64} {options : LoadOptions} {a r : ℕ × List MDBShardFile}
variable {directory : ShardDirectory} {names : List DataHash}

def current (currentTime : UInt64) (options : LoadOptions) (s : MDBShardFile) : Bool :=
  options.loadExpired || currentTime ≤ s.shard.metadata.shardKeyExpiry

def outdated (buffer currentTime : UInt64) (s : MDBShardFile) : Bool :=
  saturatingAdd s.shard.metadata.shardKeyExpiry buffer ≤ currentTime

def keep (currentTime : UInt64) (options : LoadOptions) (a : ℕ × List MDBShardFile) (s : MDBShardFile) :
    Result (ℕ × List MDBShardFile) :=
  if current currentTime options s then do
    let numBytes ← s.shard.numBytes
    let totalSize ← addUsize a.1 numBytes
    return (totalSize,a.2 ++ [s])
  else return a

variable (s : MDBShardFile)

/-- The bytes of a shard, where they are not limited to 64 bits. -/
def bytesOf : ℕ := s.shard.metadata.footerOffset.toNat + mdbShardFooterSize

theorem manageShard_eq (a : ℕ × List MDBShardFile) (d : ShardDirectory) :
    manageShard expirationBuffer currentTime options s (a,d) =
      (keep currentTime options a s).map fun a' =>
      (a',if !current currentTime options s &&
          (options.pruneExpired && outdated expirationBuffer currentTime s)
        then d.erase s.shardHash else d) := by
  obtain ⟨totalSize,ret⟩ := a
  rw [manageShard,keep]
  by_cases hcu : options.loadExpired ∨ currentTime ≤ s.shard.metadata.shardKeyExpiry
  · have hc : current currentTime options s = true := by simpa [current] using hcu
    rw [if_pos hcu,if_pos hc,hc]
    cases s.shard.numBytes with
    | error e => rfl
    | ok n =>
      rw [ok_bind,ok_bind]
      cases addUsize totalSize n with
      | error e => rfl
      | ok m => rfl
  · have hc : ¬current currentTime options s = true := by simpa [current] using hcu
    rw [if_neg hcu,if_neg hc,Bool.not_eq_true _ |>.mp hc]
    by_cases hp : options.pruneExpired ∧
      saturatingAdd s.shard.metadata.shardKeyExpiry expirationBuffer ≤ currentTime
    · have hb : (!false && (options.pruneExpired && outdated expirationBuffer currentTime s)) = true := by
        simpa [outdated] using hp
      rw [if_pos hp,hb]
      rfl
    · have hb : (!false && (options.pruneExpired && outdated expirationBuffer currentTime s)) =
        false := by
        simpa [outdated] using hp
      rw [if_neg hp,hb]
      rfl

theorem cleanShard_eq (a : Unit) (d : ShardDirectory) :
    cleanShard expirationBuffer currentTime s (a,d) = (Except.ok () : Result Unit).map fun a' =>
      (a',if outdated expirationBuffer currentTime s then d.erase s.shardHash else d) := by
  rw [cleanShard]
  by_cases hou : saturatingAdd s.shard.metadata.shardKeyExpiry expirationBuffer ≤ currentTime
  · have ho : outdated expirationBuffer currentTime s = true := decide_eq_true hou
    rw [if_pos hou,ho]
    rfl
  · have ho : outdated expirationBuffer currentTime s = false := decide_eq_false hou
    rw [if_neg hou,ho]
    rfl

theorem keep_eq_ok {s : MDBShardFile} (ha : a.1 < 2 ^ 64) : keep currentTime options a s = .ok r ↔
    r = (a.1 + (([s].filter (current currentTime options)).map bytesOf).sum,
      a.2 ++ [s].filter (current currentTime options)) ∧ r.1 < 2 ^ 64 := by
  cases hc : current currentTime options s with
  | false =>
    simp only [keep,filter_cons,hc,Bool.false_eq_true,↓reduceIte,filter_nil,map_nil,sum_nil,append_nil]
    exact ⟨fun h => Except.ok.inj h ▸ ⟨rfl,ha⟩,fun h => congrArg Except.ok h.1.symm⟩
  | true =>
    simp only [keep,hc,↓reduceIte,bind_eq_ok,MDBShardInfo.numBytes,addUsize_eq_ok,filter_cons,
      filter_nil,map_cons,map_nil,sum_cons,sum_nil]
    constructor
    · rintro ⟨_,⟨rfl,-⟩,_,⟨rfl,hlt⟩,hr⟩
      exact Except.ok.inj hr ▸ ⟨rfl,hlt⟩
    · rintro ⟨rfl,hlt⟩
      exact ⟨_,⟨rfl,(Nat.le_add_left _ _).trans_lt hlt⟩,_,⟨rfl,hlt⟩,rfl⟩

theorem foldlM_keep {files : List MDBShardFile} (ha : a.1 < 2 ^ 64) :
    files.foldlM (keep currentTime options) a = .ok r ↔
      r = (a.1 + ((files.filter (current currentTime options)).map bytesOf).sum,
        a.2 ++ files.filter (current currentTime options)) ∧ r.1 < 2 ^ 64 := by
  refine foldlM_eq_ok_iff (fun a files =>
    (a.1 + ((files.filter (current currentTime options)).map bytesOf).sum,
    a.2 ++ files.filter (current currentTime options))) (·.1 < 2 ^ 64) (fun a => by simp)
      (fun a s files _ _ => ?_)
    (fun a r s _ => keep_eq_ok) (fun a files => (Nat.le_add_right _ _).trans_lt) (fun _ _ => trivial) ha
  cases hc : current currentTime options s <;> simp [hc,Nat.add_assoc]

/-- What is read and what is left, where there is no limit on the size. -/
theorem loadManagedDirectory_eq (heap : KeySort MDBShardFile)
    (hl : options.pruneDirStorageToSize = 0) (hn : names.Nodup)
    (hs : Scannable directory options.skipOnError names)
    (hfi : ((directory.loaded names).map bytesOf).sum < 2 ^ 64) :
    loadManagedDirectory heap expirationBuffer currentTime options names directory =
      .ok ((directory.loaded names).filter (current currentTime options),
        directory.eraseAll (((directory.loaded names).filter fun s => !current currentTime options s &&
          (options.pruneExpired && outdated expirationBuffer currentTime s)).map
            MDBShardFile.shardHash)) := by
  have hle := (((directory.loaded names).filter_sublist (p := current currentTime options)).map
    bytesOf).sum_le_sum
    fun _ _ => Nat.zero_le _
  have hf : (directory.loaded names).foldlM (keep currentTime options) (0,[]) = .ok (_,_) :=
    (foldlM_keep (by decide)).mpr ⟨rfl,by dsimp only; omega⟩
  rw [loadManagedDirectory,scanImpl_eq manageShard_eq hn hs,hf,Except.map,ok_bind]
  dsimp only
  rw [if_neg fun h => h.1 hl,nil_append]
  rfl

/-- What is left where the outdated files are deleted. -/
theorem cleanShardCache_eq (hn : names.Nodup) :
    cleanShardCache expirationBuffer currentTime names directory = .ok (directory.eraseAll
      (((directory.loaded names).filter (outdated expirationBuffer currentTime)).map
        MDBShardFile.shardHash)) := by
  have hf : ∀ files : List MDBShardFile, files.foldlM (fun _ _ => (Except.ok () : Result Unit))
    () = .ok () :=
    fun files => by
      induction files with
      | nil => rfl
      | cons s files ih => rw [foldlM_cons,ok_bind,ih]
  rw [cleanShardCache,scanImpl_eq cleanShard_eq hn (.inl rfl),hf]
  rfl

theorem pruneToSize_eq_ok {limit totalSize : ℕ} {files ret : List MDBShardFile} {left : ShardDirectory}
    (ht : totalSize = (files.map bytesOf).sum)
    (h : pruneToSize limit totalSize files directory = .ok (ret,left)) :
    ∃ removed, files = removed ++ ret ∧ left = directory.eraseAll (removed.map MDBShardFile.shardHash) ∧
      (ret.map bytesOf).sum ≤ limit ∧
      ∀ s ∈ removed.getLast?, limit < bytesOf s + (ret.map bytesOf).sum := by
  induction files generalizing totalSize directory with
  | nil =>
    cases h
    exact ⟨[],rfl,rfl,Nat.zero_le _,fun s hs => (nomatch hs)⟩
  | cons s files ih =>
    rw [map_cons,sum_cons] at ht
    rw [pruneToSize] at h
    split at h
    · obtain ⟨n,hn,h⟩ := bind_eq_ok.mp h
      obtain ⟨rfl,-⟩ := addUsize_eq_ok.mp hn
      obtain ⟨t,hs,h⟩ := bind_eq_ok.mp h
      rw [subUsize,if_pos (by rw [ht]; exact Nat.le_add_right _ _)] at hs
      obtain rfl := Except.ok.inj hs
      obtain ⟨removed,rfl,rfl,hle,hla⟩ := ih (by rw [ht]; exact Nat.add_sub_cancel_left _ _) h
      refine ⟨s :: removed,rfl,rfl,hle,fun l hl => ?_⟩
      cases removed with
      | nil =>
        obtain rfl : s = l := Option.some.inj hl
        rw [nil_append] at ht
        omega
      | cons s' removed => exact hla l (by rwa [getLast?_cons_cons] at hl)
    · cases h
      exact ⟨[],rfl,rfl,by rw [map_cons,sum_cons]; omega,fun s hs => (nomatch hs)⟩

/-- The shards in the order in which the heap gives them out. -/
def heaped (heap : KeySort MDBShardFile) (files : List MDBShardFile) : List MDBShardFile :=
  (heap.sort (files.map fun s => (s.shard.metadata.shardCreationTimestamp.toNat,s))).map Prod.snd

/-- The shards are in the order of their creation. -/
def Created (files : List MDBShardFile) : Prop :=
  files.Pairwise fun s r =>
    s.shard.metadata.shardCreationTimestamp ≤ r.shard.metadata.shardCreationTimestamp

theorem heaped_order (heap : KeySort MDBShardFile) (files : List MDBShardFile) :
    (heaped heap files).Perm files ∧ Created (heaped heap files) := by
  have hp := heap.perm (files.map fun s => (s.shard.metadata.shardCreationTimestamp.toNat,s))
  constructor
  · have hq := hp.map Prod.snd
    rwa [map_map,Function.comp_def,map_id'] at hq
  · refine pairwise_map.mpr ((heap.sorted _).imp_of_mem fun ha hb hab => ?_)
    obtain ⟨s,-,rfl⟩ := mem_map.mp (hp.mem_iff.mp ha)
    obtain ⟨r,-,rfl⟩ := mem_map.mp (hp.mem_iff.mp hb)
    exact UInt64.le_iff_toNat_le.mpr hab

/-- The shards that were read are put into the order of their creation and are deleted in this
order, as many as needed and no more. If none has to be deleted they stay as they were read. -/
theorem loadManagedDirectory_prunes (heap : KeySort MDBShardFile)
    (expirationBuffer currentTime : UInt64) {options : LoadOptions}
    (hl : options.pruneDirStorageToSize ≠ 0) {names : List DataHash} (hn : names.Nodup)
    {directory left : ShardDirectory} {ret read : List MDBShardFile}
    (hread : read = (directory.loaded names).filter (current currentTime options))
    (h : loadManagedDirectory heap expirationBuffer currentTime options names directory =
      .ok (ret,left)) :
    (heaped heap read).Perm read ∧ Created (heaped heap read) ∧
    ∃ removed, (heaped heap read = removed ++ ret ∨ removed = [] ∧ ret = read) ∧
      left = (directory.eraseAll (((directory.loaded names).filter fun s =>
          !current currentTime options s && (options.pruneExpired &&
            outdated expirationBuffer currentTime s)).map MDBShardFile.shardHash)).eraseAll
          (removed.map MDBShardFile.shardHash) ∧
      (ret.map bytesOf).sum ≤ options.pruneDirStorageToSize ∧
      (∀ s ∈ removed, ∀ r ∈ ret, s.shard.metadata.shardCreationTimestamp ≤
        r.shard.metadata.shardCreationTimestamp) ∧
      ∀ s ∈ removed.getLast?,
        options.pruneDirStorageToSize < bytesOf s + (ret.map bytesOf).sum := by
  obtain ⟨hp,ho⟩ := heaped_order heap read
  refine ⟨hp,ho,?_⟩
  rw [loadManagedDirectory] at h
  obtain ⟨⟨⟨totalSize,read'⟩,scanned⟩,hsc,h⟩ := bind_eq_ok.mp h
  rw [scanImpl_eq manageShard_eq hn (scannable_of_scanImpl manageShard_eq hn hsc)] at hsc
  obtain ⟨a,hf,ha⟩ := map_eq_ok.mp hsc
  obtain ⟨hk,-⟩ := (foldlM_keep (by decide)).mp hf
  cases ha
  cases hk
  simp only [Nat.zero_add,nil_append,← hread] at h
  split at h
  · obtain ⟨removed,hh,hle,hsum,hlast⟩ := pruneToSize_eq_ok (hp.map bytesOf).sum_eq.symm h
    have hold := pairwise_append.mp (hh ▸ ho)
    exact ⟨removed,.inl hh,hle,hsum,hold.2.2,hlast⟩
  · cases h
    exact ⟨[],.inr ⟨rfl,rfl⟩,rfl,by omega,fun s hs => absurd hs not_mem_nil,
      fun s hs => (nomatch hs)⟩

/-- A heap that gives out shards of the same time in the order in which they came. -/
def insertionHeap : KeySort MDBShardFile where
  sort l := l.insertionSort fun a b => a.1 ≤ b.1
  perm l := perm_insertionSort _ l
  sorted l :=
    have : Std.Total fun a b : ℕ × MDBShardFile => a.1 ≤ b.1 := ⟨fun a b => Nat.le_total a.1 b.1⟩
    have : IsTrans (ℕ × MDBShardFile) fun a b => a.1 ≤ b.1 := ⟨fun _ _ _ => Nat.le_trans⟩
    pairwise_insertionSort (fun a b : ℕ × MDBShardFile => a.1 ≤ b.1) l

/-- An empty shard that was created at this time. -/
def shardCreatedAt (time : UInt64) : Bytes :=
  match MDBShardInfo.serializeFrom (.stable _) .empty none with
  | .error _ => []
  | .ok (info,out) =>
    out.take (out.length - mdbShardFooterSize) ++
      { info.metadata with shardCreationTimestamp := time }.serialize

def threeNames : List DataHash := [⟨1,0,0,0⟩,⟨2,0,0,0⟩,⟨3,0,0,0⟩]

/-- The second of the three listed shards was created first. -/
def threeShards : ShardDirectory :=
  (((∅ : ShardDirectory).insert ⟨1,0,0,0⟩ (shardCreatedAt 30)).insert ⟨2,0,0,0⟩
    (shardCreatedAt 10)).insert ⟨3,0,0,0⟩ (shardCreatedAt 20)

def threeRead : List MDBShardFile :=
  (threeShards.loaded threeNames).filter (current 0 ⟨false,true,false,800⟩)

/-- There is room for two of the three shards. The oldest one is deleted, and it alone. -/
theorem loadManagedDirectory_prunes_three : ∃ ret left removed,
    loadManagedDirectory insertionHeap 0 0 ⟨false,true,false,800⟩ threeNames threeShards =
      .ok (ret,left) ∧ heaped insertionHeap threeRead = removed ++ ret ∧
    removed.map MDBShardFile.shardHash = [⟨2,0,0,0⟩] ∧ (ret.map bytesOf).sum ≤ 800 := by
  have hret : (loadManagedDirectory insertionHeap 0 0 ⟨false,true,false,800⟩ threeNames
      threeShards).toOption.map (fun r => r.1.map MDBShardFile.shardHash) =
        some [⟨3,0,0,0⟩,⟨1,0,0,0⟩] := by decide +kernel
  have hheap : (heaped insertionHeap threeRead).map MDBShardFile.shardHash =
      [⟨2,0,0,0⟩] ++ [⟨3,0,0,0⟩,⟨1,0,0,0⟩] := by decide +kernel
  cases h : loadManagedDirectory insertionHeap 0 0 ⟨false,true,false,800⟩ threeNames
      threeShards with
  | error e =>
    rw [h] at hret
    cases hret
  | ok r =>
    rw [h] at hret
    obtain ⟨hp,-,removed,hor,-,hsum,-⟩ :=
      loadManagedDirectory_prunes insertionHeap 0 0 (by decide) (by decide) rfl h
    have hr : r.1.map MDBShardFile.shardHash = [⟨3,0,0,0⟩,⟨1,0,0,0⟩] := Option.some.inj hret
    rcases hor with hh | ⟨-,hall⟩
    · refine ⟨r.1,r.2,removed,rfl,hh,?_,hsum⟩
      rw [threeRead,hh,map_append,hr] at hheap
      exact append_cancel_right hheap
    · -- three shards were read and two are returned
      have hlen := (congrArg length hheap).symm.trans (length_map ..)
      rw [threeRead,hp.length_eq,← hall,← length_map MDBShardFile.shardHash,hr] at hlen
      cases hlen

end Managed
end ShardDirectory
end XetCore.Shard
