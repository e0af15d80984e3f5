import XetCore.Shard.FileLookup
import XetCore.Shard.ManagedDirectory
import XetCore.Shard.MinimalWriter

/-! # Shards without an expiration

A shard is written in several ways, each with an optional expiration. The writer of shards in
memory puts the largest time where there is none, and the writers of minimal shards put the
time 0, at which every shard has expired.
-/
namespace XetCore.Shard
open ByteSources Serialization ShardDirectory List
open Merkle (DataHash)

inductive ShardWriter where
  | serializeFrom (mdb : MDBInMemoryShard) (expiry : Option UInt64)
  | serialize (m : MDBMinimalShard) (withVerification : Bool)
  | serializeXorbSubsetOnly (m : MDBMinimalShard) (xorbFilter : MDBXorbInfoView → Bool)
  | serializeXorbSubsetWithExpiry (m : MDBMinimalShard) (expiry : Option UInt64)
    (xorbFilter : MDBXorbInfoView → Bool)

namespace ShardWriter

def expiry : ShardWriter → Option UInt64
  | serializeFrom _ expiry => expiry
  | serialize _ _ => none
  | serializeXorbSubsetOnly _ _ => none
  | serializeXorbSubsetWithExpiry _ expiry _ => expiry

def isMinimal : ShardWriter → Bool
  | serializeFrom _ _ => false
  | _ => true

def write (sorter : KeySort (ℕ × ℕ)) (now : UInt64) : ShardWriter → Result Bytes
  | serializeFrom mdb expiry => do
    let written ← MDBShardInfo.serializeFrom sorter mdb expiry
    return written.2
  | serialize m withVerification => m.serialize withVerification now
  | serializeXorbSubsetOnly m xorbFilter => m.serializeXorbSubsetOnly now xorbFilter
  | serializeXorbSubsetWithExpiry m expiry xorbFilter =>
    m.serializeXorbSubsetWithExpiry expiry now xorbFilter

def writtenExpiry (w : ShardWriter) : UInt64 :=
  w.expiry.getD (if w.isMinimal then 0 else UInt64.ofNat (2 ^ 64 - 1))

end ShardWriter

theorem MDBMinimalShard.loadFromReader_writeSections {files xorbs out : Bytes}
    {footer : MDBShardFileFooter}
    (hv : footer.version = mdbShardFooterVersion) (ho : writeSections files xorbs footer = .ok out) :
    ∃ info, MDBShardInfo.loadFromReader out = .ok info ∧
    info.metadata.shardKeyExpiry = footer.shardKeyExpiry := by
  simp only [writeSections,bind_eq_ok,ShardParts.offsets_eq_ok] at ho
  obtain ⟨metadata,⟨rfl,hlt⟩,_,-,heq⟩ := ho
  cases heq
  have hd : MDBShardInfo.Describes ⟨{},ShardParts.placed _ footer⟩ _ :=
    MDBShardInfo.describes_placed hlt hv rfl
  exact ⟨_,hd.loadFromReader_eq,rfl⟩

theorem MDBMinimalShard.loadFromReader_serializeImpl {m : MDBMinimalShard}
    {withFileSection withVerification : Bool}
    {expiry : Option UInt64} {now : UInt64} {xorbFilter : MDBXorbInfoView → Bool} {out : Bytes}
    (ho : m.serializeImpl withFileSection withVerification expiry now xorbFilter = .ok out) :
    ∃ info, MDBShardInfo.loadFromReader out = .ok info ∧
    info.metadata.shardKeyExpiry = expiry.getD 0 := by
  simp only [serializeImpl,bind_eq_ok] at ho
  obtain ⟨_,-,_,-,_,-,_,-,_,-,_,-,_,-,ho⟩ := ho
  exact loadFromReader_writeSections rfl ho

theorem ShardWriter.loadFromReader_write {w : ShardWriter} {sorter : KeySort (ℕ × ℕ)} {now : UInt64}
    {out : Bytes} (ho : w.write sorter now = .ok out) :
    ∃ info, MDBShardInfo.loadFromReader out = .ok info ∧
    info.metadata.shardKeyExpiry = w.writtenExpiry := by
  cases w with
  | serializeFrom mdb expiry =>
    rw [write,bind_eq_ok] at ho
    obtain ⟨⟨info,bytes⟩,hw,heq⟩ := ho
    cases heq
    refine ⟨info,MDBInMemoryShard.loadFromReader_written hw,?_⟩
    rw [(MDBInMemoryShard.serializeFrom_eq_ok.mp hw).2.1]
    rfl
  | serialize m withVerification => exact MDBMinimalShard.loadFromReader_serializeImpl ho
  | serializeXorbSubsetOnly m xorbFilter => exact MDBMinimalShard.loadFromReader_serializeImpl ho
  | serializeXorbSubsetWithExpiry m expiry xorbFilter =>
    exact MDBMinimalShard.loadFromReader_serializeImpl ho

section Times

theorem saturatingAdd_le_iff {a b c : UInt64} :
    saturatingAdd a b ≤ c ↔ a.toNat + b.toNat ≤ c.toNat ∨ c.toNat = 2 ^ 64 - 1 := by
  have hc := c.toNat_lt
  rw [saturatingAdd,UInt64.le_iff_toNat_le,UInt64.toNat_ofNat_of_lt' (by change _ < 2 ^ 64; omega)]
  omega

variable {names : List DataHash} {directory : ShardDirectory} {hash : DataHash} {s : MDBShardFile}

theorem exists_mem_filter_loaded (hn : hash ∈ names) (hlo : loadFromFile directory hash = .ok s)
    {p : MDBShardFile → Bool} :
    (∃ t ∈ (directory.loaded names).filter p, t.shardHash = hash) ↔ p s = true := by
  obtain rfl := (loadFromFile_eq_ok.mp hlo).1
  constructor
  · rintro ⟨t,ht,hh⟩
    obtain ⟨hmem,hp⟩ := mem_filter.mp ht
    have hl := (mem_loaded.mp hmem).2
    rw [hh,hlo] at hl
    cases hl
    exact hp
  · exact fun hp => ⟨s,mem_filter.mpr ⟨mem_loaded.mpr ⟨hn,hlo⟩,hp⟩,rfl⟩

theorem notMem_eraseAll_filter (hn : hash ∈ names) (hl : loadFromFile directory hash = .ok s)
    (p : MDBShardFile → Bool) :
    hash ∉ directory.eraseAll (((directory.loaded names).filter p).map MDBShardFile.shardHash) ↔
      p s = true := by
  obtain ⟨-,bytes,hb,-⟩ := loadFromFile_eq_ok.mp hl
  rw [Std.ExtTreeMap.mem_iff_isSome_getElem?,getElem?_eraseAll,hb]
  rw [← exists_mem_filter_loaded hn hl,← mem_map]
  split <;> simp [*]

end Times

/-- What a directory with the shard is read and cleaned with. -/
structure ExpirySettings where
  heap : KeySort MDBShardFile
  /-- The time of the calls. -/
  currentTime : UInt64
  expirationBuffer : UInt64
  cleanBuffer : UInt64
  skipOnError : Bool
  pruneExpired : Bool
  names : List DataHash
  directory : ShardDirectory

namespace ExpirySettings
variable (e : ExpirySettings)

def load : Result (List MDBShardFile × ShardDirectory) :=
  loadManagedDirectory e.heap e.expirationBuffer e.currentTime
    ⟨e.skipOnError,false,e.pruneExpired,0⟩ e.names
    e.directory

def clean : Result ShardDirectory := cleanShardCache e.cleanBuffer e.currentTime e.names e.directory

/-- The files can be listed and read, and the sum of their sizes has 64 bits. -/
structure Readable : Prop where
  nodup : e.names.Nodup
  scannable : Scannable e.directory e.skipOnError e.names
  fits : ((e.directory.loaded e.names).map bytesOf).sum < 2 ^ 64

/-- Without an expiration the shard is read and kept. With one it is read up to that time and kept
up to the buffer behind it. -/
def Respects (hash : DataHash) (expiry : Option UInt64) (ret : List MDBShardFile)
    (pruned cleaned : ShardDirectory) : Prop :=
  match expiry with
  | none => (∃ s ∈ ret, s.shardHash = hash) ∧ hash ∈ pruned ∧ hash ∈ cleaned
  | some t => ((∃ s ∈ ret, s.shardHash = hash) ↔ e.currentTime ≤ t) ∧
      (hash ∉ pruned → t.toNat + e.expirationBuffer.toNat ≤ e.currentTime.toNat) ∧
      (hash ∉ cleaned → t.toNat + e.cleanBuffer.toNat ≤ e.currentTime.toNat)

/-- Reading and cleaning the directory return, and they respect the expiration of the shard. -/
def Honours (hash : DataHash) (expiry : Option UInt64) : Prop :=
  ∃ ret pruned cleaned, e.load = .ok (ret,pruned) ∧ e.clean = .ok cleaned ∧
    e.Respects hash expiry ret pruned cleaned

variable {e} {hash : DataHash} {s : MDBShardFile}

theorem load_clean (hr : e.Readable) (hn : hash ∈ e.names) (hl : loadFromFile e.directory hash = .ok s) :
    ∃ ret pruned cleaned, e.load = .ok (ret,pruned) ∧ e.clean = .ok cleaned ∧
      ((∃ t ∈ ret, t.shardHash = hash) ↔ e.currentTime ≤ s.shard.metadata.shardKeyExpiry) ∧
      (hash ∉ pruned ↔ ¬e.currentTime ≤ s.shard.metadata.shardKeyExpiry ∧ e.pruneExpired = true ∧
        saturatingAdd s.shard.metadata.shardKeyExpiry e.expirationBuffer ≤ e.currentTime) ∧
      (hash ∉ cleaned ↔ saturatingAdd s.shard.metadata.shardKeyExpiry e.cleanBuffer ≤ e.currentTime) := by
  refine ⟨_,_,_,loadManagedDirectory_eq e.heap rfl hr.nodup hr.scannable hr.fits,
    cleanShardCache_eq hr.nodup,?_,?_,?_⟩
  · rw [exists_mem_filter_loaded hn hl]
    simp [current]
  · rw [notMem_eraseAll_filter hn hl]
    simp [current,outdated]
  · rw [notMem_eraseAll_filter hn hl]
    simp [outdated]

end ExpirySettings

/-- The exact times at which the written shard is treated as its expiration says. -/
def ShardWriter.Timely (w : ShardWriter) (e : ExpirySettings) : Prop :=
  match w.expiry with
  | none =>
    if w.isMinimal then e.currentTime = 0 ∧ 0 < e.cleanBuffer
    else e.currentTime.toNat < 2 ^ 64 - 1
  | some t => e.currentTime.toNat < 2 ^ 64 - 1 ∨
      ((e.pruneExpired = true → t.toNat < 2 ^ 64 - 1 → t.toNat + e.expirationBuffer.toNat < 2 ^ 64) ∧
        t.toNat + e.cleanBuffer.toNat < 2 ^ 64)

variable {w : ShardWriter} {e : ExpirySettings}

theorem written_shard_honoured_iff {sorter : KeySort (ℕ × ℕ)} {written : UInt64} {bytes : Bytes}
    (hwrite : w.write sorter written = .ok bytes) (hreadable : e.Readable) {hash : DataHash}
    (hname : hash ∈ e.names)
    (hfile : e.directory[hash]? = some bytes) : e.Honours hash w.expiry ↔ w.Timely e := by
  obtain ⟨info,hinfo,hexpiry⟩ := ShardWriter.loadFromReader_write hwrite
  have hload : loadFromFile e.directory hash = .ok ⟨hash,info⟩ :=
    loadFromFile_eq_ok.mpr ⟨rfl,bytes,hfile,hinfo⟩
  obtain ⟨ret,pruned,cleaned,hret,hcleaned,hread,hpruned,hdeleted⟩ :=
    ExpirySettings.load_clean hreadable hname hload
  have hiff : e.Honours hash w.expiry ↔ e.Respects hash w.expiry ret pruned cleaned := by
    constructor
    · rintro ⟨ret',pruned',cleaned',hret',hcleaned',h⟩
      cases hret.symm.trans hret'
      cases hcleaned.symm.trans hcleaned'
      exact h
    · exact fun h => ⟨ret,pruned,cleaned,hret,hcleaned,h⟩
  rw [saturatingAdd_le_iff,UInt64.le_iff_toNat_le,hexpiry] at hpruned
  rw [saturatingAdd_le_iff,hexpiry] at hdeleted
  rw [UInt64.le_iff_toNat_le,hexpiry] at hread
  have hnow := e.currentTime.toNat_lt
  have hmax : (UInt64.ofNat (2 ^ 64 - 1)).toNat = 2 ^ 64 - 1 := by decide
  rw [hiff]
  rw [ShardWriter.writtenExpiry] at hread hpruned hdeleted
  cases hw : w.expiry with
  | none =>
    rw [hw,Option.getD_none] at hread hpruned hdeleted
    simp only [ExpirySettings.Respects,ShardWriter.Timely,hw,hread,(not_iff_comm.mp hpruned).symm,
      (not_iff_comm.mp hdeleted).symm]
    cases hminimal : w.isMinimal with
    | true =>
      rw [if_pos rfl,if_pos rfl,← UInt64.toNat_inj,UInt64.lt_iff_toNat_lt,UInt64.toNat_zero]
      omega
    | false =>
      rw [if_neg Bool.false_ne_true,if_neg Bool.false_ne_true,hmax]
      omega
  | some t =>
    rw [hw,Option.getD_some] at hread hpruned hdeleted
    simp only [ExpirySettings.Respects,ShardWriter.Timely,hw,hread,hpruned,hdeleted,
      UInt64.le_iff_toNat_le]
    cases e.pruneExpired with
    | true =>
      simp only [true_and,forall_const]
      omega
    | false =>
      simp only [Bool.false_eq_true,false_and,and_false,false_implies,true_and]
      omega

def oneShard (bytes : Bytes) (currentTime : UInt64) : ExpirySettings where
  heap := KeySort.stable _
  currentTime := currentTime
  expirationBuffer := 604800
  cleanBuffer := 604800
  skipOnError := true
  pruneExpired := true
  names := [default]
  directory := (∅ : ShardDirectory).insert default bytes

def writtenBytes (w : ShardWriter) : Bytes := (w.write (KeySort.stable _) 0).toOption.getD []

def emptyFull : ShardWriter := .serializeFrom .empty none

def emptyMinimal : ShardWriter := .serialize ⟨[],[]⟩ false

theorem write_emptyFull : emptyFull.write (KeySort.stable _) 0 = .ok (writtenBytes emptyFull) := by
  decide +kernel

theorem write_emptyMinimal : emptyMinimal.write (KeySort.stable _) 0 =
    .ok (writtenBytes emptyMinimal) := by decide +kernel

theorem readable_emptyFull : (oneShard (writtenBytes emptyFull) 1700000000).Readable :=
  ⟨nodup_singleton _,.inl rfl,by decide +kernel⟩

theorem readable_emptyMinimal : (oneShard (writtenBytes emptyMinimal) 1700000000).Readable :=
  ⟨nodup_singleton _,.inl rfl,by decide +kernel⟩

theorem written_shard_honoured_empty : emptyFull.expiry = none ∧
    (oneShard (writtenBytes emptyFull) 1700000000).Honours default emptyFull.expiry := by
  have htimely : emptyFull.Timely (oneShard (writtenBytes emptyFull) 1700000000) := by
    change (1700000000 : UInt64).toNat < 2 ^ 64 - 1
    decide
  exact ⟨rfl,(written_shard_honoured_iff write_emptyFull readable_emptyFull mem_cons_self
    Std.ExtTreeMap.getElem?_insert_self).mpr htimely⟩

/-- A minimal shard without an expiration is not read, and both calls delete it. -/
theorem minimal_shard_without_expiry_deleted :
    emptyMinimal.write (KeySort.stable _) 0 = .ok (writtenBytes emptyMinimal) ∧
    emptyMinimal.expiry = none ∧
      (oneShard (writtenBytes emptyMinimal) 1700000000).Readable ∧
      ∃ ret pruned cleaned, (oneShard (writtenBytes emptyMinimal) 1700000000).load = .ok (ret,pruned) ∧
        (oneShard (writtenBytes emptyMinimal) 1700000000).clean = .ok cleaned ∧
        (¬∃ s ∈ ret, s.shardHash = default) ∧ default ∉ pruned ∧ default ∉ cleaned := by
  obtain ⟨info,hinfo,hexpiry⟩ := ShardWriter.loadFromReader_write write_emptyMinimal
  have hload : loadFromFile (oneShard (writtenBytes emptyMinimal) 1700000000).directory default =
    .ok ⟨default,info⟩ :=
    loadFromFile_eq_ok.mpr ⟨rfl,_,Std.ExtTreeMap.getElem?_insert_self,hinfo⟩
  obtain ⟨ret,pruned,cleaned,hret,hcleaned,hread,hpruned,hdeleted⟩ :=
    ExpirySettings.load_clean readable_emptyMinimal mem_cons_self hload
  have hzero := hexpiry
  rw [hzero] at hread hpruned hdeleted
  exact ⟨write_emptyMinimal,rfl,readable_emptyMinimal,ret,pruned,cleaned,hret,hcleaned,
    fun h => absurd (hread.mp h) (by decide),hpruned.mpr (by decide),hdeleted.mpr (by decide)⟩

end XetCore.Shard
