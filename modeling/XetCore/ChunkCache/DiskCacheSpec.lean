import XetCore.ChunkCache.DiskCache

/-! # What the chunk cache returns

Each chunk of a key has one content. A get that reads from a file that a put wrote returns
the chunks that it was asked for. Files of earlier runs may hold something else, and it is
the checksum that tells.
-/
namespace XetCore.ChunkCache
open Extents Runs GetCall List

variable {K : Type} (content : K → ℕ → Bytes) (crc32 : Bytes → ℕ) {c : PutCall K} {key : K}
variable {d : DiskCache K} {item : CacheItem} {range : ChunkRange}
variable {Q : K → CacheItem → Bytes → Prop}

def contentChunks (key : K) (range : ChunkRange) : List Bytes :=
  (List.range' range.start (range.stop - range.start)).map (content key)

def rightRange (key : K) (range : ChunkRange) : CacheRange :=
  ⟨startOffsets 0 (contentChunks content key range),(contentChunks content key range).flatten,range⟩

/-- A file that a put of the chunks of its range has written. -/
structure Stored (key : K) (item : CacheItem) (file : Bytes) : Prop where
  range_lt : item.range.start < item.range.stop
  file_eq : file = cacheFile (contentChunks content key item.range)
  increasing : (startOffsets 0 (contentChunks content key item.range)).Pairwise (· < ·)
  bytes_lt : (contentChunks content key item.range).flatten.length < 2 ^ 32
  count_lt : (contentChunks content key item.range).length + 1 < 2 ^ 32
  len_eq : item.len = file.length
  checksum_eq : item.checksum = crc32 file

section Files
variable {content crc32} {file : Bytes}

theorem contentChunks_length :
    (contentChunks content key range).length = range.stop - range.start := by simp [contentChunks]

theorem slice_contentChunks {whole : ChunkRange} (hin : itemContains whole range = true)
    (hle : range.start ≤ range.stop) :
    slice (contentChunks content key whole) (range.start - whole.start) (range.stop - whole.start) =
      contentChunks content key range := by
  simp only [itemContains,Bool.and_eq_true,decide_eq_true_eq] at hin
  unfold contentChunks
  rw [slice_map,slice,drop_range',take_range'_of_length_ge (by omega)]
  congr 2 <;> omega

theorem Stored.deserialize (h : Stored content crc32 key item file) :
    CacheFileHeader.deserialize file = .ok ⟨startOffsets 0 (contentChunks content key item.range)⟩ := by
  rw [h.file_eq,cacheFile]
  refine CacheFileHeader.deserialize_serialize h.increasing ?_ (fun n hn => ?_) ?_ _
  · cases contentChunks content key item.range <;> rfl
  · have hle := (le_of_mem_startOffsets hn).2
    have := h.bytes_lt
    omega
  · rw [startOffsets_length]
    exact h.count_lt

theorem Stored.getRange (h : Stored content crc32 key item file)
    (hin : itemContains item.range range = true) (hlt : range.start < range.stop) :
    getRangeFromCacheFile ⟨startOffsets 0 (contentChunks content key item.range)⟩ file range
      item.range.start =
      .ok (rightRange content key range) := by
  have hb := hin
  simp only [itemContains,Bool.and_eq_true,decide_eq_true_eq] at hb
  rw [h.file_eq,getRangeFromCacheFile_cacheFile hb.1 hlt.le (by rw [contentChunks_length]; omega),
    slice_contentChunks hin hlt.le]
  rfl

end Files

section Puts
variable {content crc32}
variable {chunkByteIndices : List ℕ} {data : Bytes}

/-- Each chunk of a put has the content of its index. The positions are 32-bit numbers. -/
def Consistent (content : K → ℕ → Bytes) : CacheEvent K → Prop
  | .put key range chunkByteIndices data => putArguments range chunkByteIndices data = .ok () →
      (∀ n ∈ chunkByteIndices, n < 2 ^ 32) ∧
        chunkByteIndices = startOffsets 0 (contentChunks content key range) ∧
        data = (contentChunks content key range).flatten
  | _ => True

theorem putArguments_eq_ok (h : putArguments range chunkByteIndices data = .ok ()) :
    range.start < range.stop ∧
      range.stop - range.start + 1 < 2 ^ 32 ∧ chunkByteIndices.length = range.stop - range.start + 1 ∧
      chunkByteIndices.getLast? = some data.length ∧ strictlyIncreasing chunkByteIndices = true := by
  unfold putArguments at h
  split at h
  · simp at h
  · split at h
    · simp at h
    · split at h
      · simp at h
      · rename_i hlt hc hr
        simp only [not_or,not_not,Bool.not_eq_true',Bool.not_eq_false] at hr
        exact ⟨by omega,by omega,hr.1,hr.2.2⟩

section
variable (h : Consistent content (.put key range chunkByteIndices data))
include h

theorem stored_of_consistent
    (hok : putArguments range chunkByteIndices data = .ok ()) (hk : c.key = key) (hr : c.range = range)
    (hin : c.chunkByteIndices = chunkByteIndices) (hd : c.data = data) :
    Stored content crc32 c.key (c.item crc32) c.file := by
  obtain ⟨hlt,hc,-,hl,hic⟩ := putArguments_eq_ok hok
  obtain ⟨hw,rfl,rfl⟩ := h hok
  subst hk hr
  have hf : c.file = cacheFile (contentChunks content c.key c.range) := by
    rw [PutCall.file,hin,hd,cacheFile]
  refine ⟨hlt,hf,strictlyIncreasing_iff.mp hic,hw _ (mem_of_getLast? hl),?_,rfl,rfl⟩
  rw [PutCall.item,contentChunks_length]
  exact hc

/-- A put that does not fail at once writes a file of its chunks. -/
theorem putStart_stored (hc : c = PutCall.start key range chunkByteIndices data) :
    (∃ result, c.phase = .returned result) ∨ Stored content crc32 c.key (c.item crc32) c.file := by
  subst hc
  cases ha : putArguments range chunkByteIndices data with
  | error err => exact Or.inl ⟨.error err,by simp [PutCall.start,ha]⟩
  | ok u => exact Or.inr (stored_of_consistent h ha rfl rfl rfl rfl)

end

end Puts

section Steps
variable {content crc32} [DecidableEq K] {file : Bytes}

theorem files_of_setFile {key' : K} {item' : CacheItem} {file' : Option Bytes}
    (h : (d.setFile key' item' file').files key item = some file) :
    d.files key item = some file ∨ (key = key' ∧ item = item' ∧ file' = some file) := by
  unfold DiskCache.setFile at h
  by_cases hk : key = key'
  · subst hk
    simp only [Function.update_self] at h
    by_cases hi : item = item'
    · subst hi
      rw [Function.update_self] at h
      exact Or.inr ⟨rfl,rfl,h⟩
    · rw [Function.update_of_ne hi] at h
      exact Or.inl h
  · simp only [Function.update_of_ne hk] at h
    exact Or.inl h

theorem files_of_delete {key' : K} {item' : CacheItem}
    (h : (d.setFile key' item' none).files key item = some file) :
    d.files key item = some file :=
  (files_of_setFile h).resolve_right (by simp)

omit [DecidableEq K] in
theorem findMatch_contains {s : CacheState K} {range : ChunkRange} {cell : VerificationCell}
    (h : s.findMatch key range = some cell) : itemContains cell.inner.range range = true := by
  unfold CacheState.findMatch at h
  have hf := List.find?_some h
  exact hf

theorem GetCall.files_of_advance {c : GetCall K} (h : (c.advance crc32 d).2.files key item = some file) :
    d.files key item = some file := by
  unfold advance at h
  repeat' split at h
  all_goals first | exact h | exact files_of_delete h

theorem PutCall.files_of_advance {choices : List (K × ℕ)}
    (h : (c.advance crc32 choices d).2.files key item = some file) :
    d.files key item = some file ∨
    (c.phase = .committing ∧ key = c.key ∧ item = c.item crc32 ∧ file = c.file) := by
  unfold PutCall.advance at h
  split at h
  case h_4 hp =>
    split at h
    · exact Or.inl h
    split at h
    · exact Or.inl h
    · refine (files_of_setFile h).imp_right fun ⟨hk,hi,hf⟩ => ⟨hp,hk,hi,?_⟩
      simpa using hf.symm
  all_goals
    refine Or.inl ?_
    repeat' split at h
    all_goals first | exact h | exact files_of_delete h

end Steps

section Gets
variable [DecidableEq K] {c : GetCall K}

/-- What holds of a get in its phase, if each file that it can open satisfies `Q`. -/
def GetCall.Sound (Q : K → CacheItem → Bytes → Prop) (c : GetCall K) : Prop :=
  match c.phase with
  | .opening cell => c.range.start < c.range.stop ∧ itemContains cell.inner.range c.range = true
  | .checking cell file | .summing cell file =>
    c.range.start < c.range.stop ∧ itemContains cell.inner.range c.range = true ∧ Q c.key cell.inner file
  | .reading cell file =>
    c.range.start < c.range.stop ∧ itemContains cell.inner.range c.range = true ∧
      Stored content crc32 c.key cell.inner file
  | .returned (.ok (some r)) => r = rightRange content c.key c.range
  | .returned _ => True
  | _ => c.range.start < c.range.stop

/-- If the call is about to look at the flag of its cell and the flag is set, then the opened
file has the checksum of the item. -/
def GetCall.FlagRight (d : DiskCache K) (c : GetCall K) : Prop :=
  match c.phase with
  | .checking cell file =>
    d.verified cell.verification = true → crc32 file = cell.inner.checksum
  | _ => True

variable {content crc32}

omit [DecidableEq K] in
theorem GetCall.sound_start (key : K) (range : ChunkRange) : (start key range).Sound content crc32 Q := by
  unfold GetCall.Sound start
  by_cases h : range.stop ≤ range.start
  · simp [h]
  · simp only [h,if_false]
    omega

theorem GetCall.Sound.step (h : c.Sound content crc32 Q)
    (hf : ∀ key item file, d.files key item = some file → Q key item file)
    (hsu : ∀ key item file, Q key item file → crc32 file = item.checksum →
      Stored content crc32 key item file)
    (hfl : c.FlagRight crc32 d) : (c.step crc32 d).1.Sound content crc32 Q := by
  obtain ⟨key,range,phase⟩ := c
  cases phase with
  | find =>
    simp only [GetCall.step,advance]
    split
    · exact h
    cases hfn : d.state.findMatch key range with
    | none => trivial
    | some cell => exact ⟨h,findMatch_contains hfn⟩
  | opening cell =>
    simp only [GetCall.step,advance]
    cases hfi : d.files key cell.inner with
    | none => exact h.1
    | some file => exact ⟨h.1,h.2,hf _ _ _ hfi⟩
  | checking cell file =>
    simp only [GetCall.step,advance]
    cases hv : d.verified cell.verification with
    | true => exact ⟨h.1,h.2.1,hsu _ _ _ h.2.2 (hfl hv)⟩
    | false => exact h
  | summing cell file =>
    simp only [GetCall.step,advance]
    split_ifs with hc
    · exact ⟨h.1,h.2.1,hsu _ _ _ h.2.2 hc⟩
    · exact h.1
  | reading cell file =>
    obtain ⟨hlt,hin,hs⟩ := h
    simp only [GetCall.step,advance,hs.deserialize,hs.getRange hin hlt]
    rfl
  | removing cell =>
    simp only [GetCall.step,advance]
    split
    · exact h
    · cases d.state.removeItem key cell <;> exact h
  | deleting cell => exact h
  | returned result => exact h

end Gets

section System
variable [DecidableEq K]

/-- The files satisfy `Q`, the gets are sound, and the puts write what is stored. -/
structure SystemSound (Q : K → CacheItem → Bytes → Prop) (s : CacheSystem K) : Prop where
  files : ∀ key item file, s.cache.files key item = some file → Q key item file
  gets : ∀ c ∈ s.gets, c.Sound content crc32 Q
  puts : ∀ c ∈ s.puts, (∃ result, c.phase = .returned result) ∨
    Stored content crc32 c.key (c.item crc32) c.file

/-- Puts are consistent, and a get relies only on flags that are right for the file that it has
opened. -/
def EventRight (s : CacheSystem K) (e : CacheEvent K) : Prop :=
  Consistent content e ∧ match e with
    | .advanceGet call => ∀ c ∈ s.gets[call]?, c.FlagRight crc32 s.cache
    | _ => True

variable {content crc32} {s : CacheSystem K}

theorem forall_mem_set {α : Type} {P : α → Prop} {xs : List α} {a : α} (h : ∀ x ∈ xs, P x)
    (ha : P a) (i : ℕ) :
    ∀ x ∈ xs.set i a, P x := by
  intro x hx
  rcases List.mem_or_eq_of_mem_set hx with hx | rfl
  · exact h x hx
  · exact ha

theorem SystemSound.next (h : SystemSound content crc32 Q s)
    (hs : ∀ key item file, Stored content crc32 key item file → Q key item file)
    (hsu : ∀ key item file, Q key item file → crc32 file = item.checksum →
      Stored content crc32 key item file)
    {e : CacheEvent K} (he : EventRight content crc32 s e) :
    SystemSound content crc32 Q (s.next crc32 e) := by
  cases e with
  | get key range =>
    refine ⟨h.files,fun c hc => ?_,h.puts⟩
    rcases mem_append.mp hc with hc | hc
    · exact h.gets c hc
    · obtain rfl := mem_singleton.mp hc
      exact sound_start key range
  | put key range chunkByteIndices data =>
    refine ⟨h.files,h.gets,fun c hc => ?_⟩
    rcases mem_append.mp hc with hc | hc
    · exact h.puts c hc
    · exact putStart_stored he.1 (mem_singleton.mp hc)
  | advanceGet call =>
    simp only [CacheSystem.next]
    cases hc : s.gets[call]? with
    | none => exact h
    | some c =>
      have hmem := mem_of_getElem? hc
      exact ⟨fun key item file hf => h.files key item file (files_of_advance hf),
        forall_mem_set h.gets ((h.gets c hmem).step h.files hsu (he.2 c hc)) call,h.puts⟩
  | advancePut call choices =>
    simp only [CacheSystem.next]
    cases hc : s.puts[call]? with
    | none => exact h
    | some c =>
      have hpu := h.puts c (mem_of_getElem? hc)
      refine ⟨fun key item file hf => ?_,h.gets,forall_mem_set h.puts ?_ call⟩
      · rcases PutCall.files_of_advance hf with hold | ⟨hp,rfl,rfl,rfl⟩
        · exact h.files key item file hold
        · refine hs _ _ _ (hpu.resolve_left ?_)
          rintro ⟨result,hr⟩
          simp [hr] at hp
      · rcases hpu with ⟨result,hr⟩ | hpu
        · refine Or.inl ⟨result,?_⟩
          simp [PutCall.step,PutCall.advance,hr]
        · exact Or.inr hpu
  | evict key idx =>
    simp only [CacheSystem.next]
    split
    · exact h
    · cases (s.cache.state.inner key)[idx]? <;> exact { h with }
  | vanish key item =>
    exact ⟨fun key item file hf => h.files key item file (files_of_delete hf),h.gets,h.puts⟩

end System

section Runs
variable [DecidableEq K] {content crc32} {dir : List (K × CacheItem × Bytes)}

theorem files_of_initializeState {sizeBytes : ℕ} {d' : DiskCache K}
    (h : d.initializeState sizeBytes dir = .ok d')
    {item : CacheItem} {file : Bytes} (hf : d'.files key item = some file) :
    d.files key item = some file ∨ (key,item,file) ∈ dir := by
  induction dir generalizing d with
  | nil =>
    cases h
    exact Or.inl hf
  | cons entry dir ih =>
    obtain ⟨key',item',file'⟩ := entry
    have hs : ∀ {d₀ : DiskCache K}, (d₀.files key item = some file ∨ (key,item,file) ∈ dir) →
        (d₀.files key item = some file → (d.setFile key' item' (some file')).files key item = some file) →
        d.files key item = some file ∨ (key,item,file) ∈ (key',item',file') :: dir := by
      intro d₀ hor hsu
      rcases hor with hn | hmem
      · rcases files_of_setFile (hsu hn) with hold | ⟨rfl,rfl,hfi⟩
        · exact Or.inl hold
        · cases hfi
          exact Or.inr mem_cons_self
      · exact Or.inr (mem_cons_of_mem _ hmem)
    rw [DiskCache.initializeState] at h
    split at h
    · exact hs (ih h) id
    · split at h
      · simp at h
      · have hl := ih h
        unfold DiskCache.loadFile at hl
        split at hl
        · exact hs hl id
        · split at hl
          · exact hs hl id
          · exact hl.imp_right (mem_cons_of_mem _)

/-- A file of an earlier run is as a put has written it, or its checksum tells that it is not. -/
def Checked (content : K → ℕ → Bytes) (crc32 : Bytes → ℕ) (key : K) (item : CacheItem) (file : Bytes) :
    Prop :=
  crc32 file = item.checksum → Stored content crc32 key item file

/-- In every run on a directory of earlier runs, however its calls interleave, a get returns the
chunks that it was asked for, if no get relies on a flag that was set for another file than the one
it has opened. -/
theorem gets_right_of_flags {sizeBytes capacity : ℕ}
    (hdir : ∀ file ∈ dir, Checked content crc32 file.1 file.2.1 file.2.2)
    (hinit : DiskCache.initializeCache sizeBytes capacity dir = .ok d) {events : List (CacheEvent K)}
    (hright : Permitted (CacheSystem.next crc32) (EventRight content crc32) { cache := d } events)
    {c : GetCall K}
    (hc : c ∈ (run (CacheSystem.next crc32) { cache := d } events).gets) {r : CacheRange}
    (hr : c.phase = .returned (.ok (some r))) : r = rightRange content c.key c.range := by
  have hfiles : ∀ key item file, d.files key item = some file → Checked content crc32 key item file := by
    intro key item file hf
    unfold DiskCache.initializeCache at hinit
    split at hinit
    · simp at hinit
    · rcases files_of_initializeState hinit hf with hnone | hmem
      · simp at hnone
      · exact hdir _ hmem
  have hstart : SystemSound content crc32 (Checked content crc32) { cache := d } :=
    ⟨hfiles,by simp,by simp⟩
  have hkeep : ∀ s e, EventRight content crc32 s e → SystemSound content crc32 (Checked content crc32) s →
      SystemSound content crc32 (Checked content crc32) (CacheSystem.next crc32 s e) :=
    fun s e he hs => hs.next (fun _ _ _ h _ => h) (fun _ _ _ h => h) he
  have hget := (run_invariant hkeep hstart hright).gets c hc
  rwa [GetCall.Sound,hr] at hget

end Runs

/-- A key with one chunk of one byte, and the name of its file. -/
def oneChunk : Unit → ℕ → Bytes := fun _ _ => [7]

def byteSum (file : Bytes) : ℕ := (file.map UInt8.toNat).sum

def oneItem : CacheItem := ⟨⟨0,1⟩,13,10⟩

/-- A get opens the damaged file, and a second one has found the same cell. A third one removes
the item and the file, and a put stores a good file under the same name, for which the second get
sets the flag of the removed cell. The first get then finds the flag set. -/
def raceEvents : List (CacheEvent Unit) :=
  [.get () ⟨0,1⟩,.get () ⟨0,1⟩,.get () ⟨0,1⟩,.advanceGet 0,.advanceGet 0,.advanceGet 1] ++
    List.replicate 7 (.advanceGet 2) ++ .put () ⟨0,1⟩ [0,1] [7] ::
    List.replicate 4 (.advancePut 0 []) ++ List.replicate 3 (.advanceGet 1) ++
    List.replicate 2 (.advanceGet 0)

def damagedFile : Bytes := [2,0,0,0,0,0,0,0,1,0,0,0,8]

theorem get_relies_on_flag_of_other_file :
    (∀ file ∈ [((),oneItem,damagedFile)], Checked oneChunk byteSum file.1 file.2.1 file.2.2) ∧
      (∀ e ∈ raceEvents, Consistent oneChunk e) ∧
      ∃ d, DiskCache.initializeCache 100 100 [((),oneItem,damagedFile)] = .ok d ∧
        ∃ c ∈ (run (CacheSystem.next byteSum) { cache := d } raceEvents).gets,
          c.phase = .returned (.ok (some ⟨[0,1],[8],⟨0,1⟩⟩)) ∧
            rightRange oneChunk c.key c.range = ⟨[0,1],[7],⟨0,1⟩⟩ := by
  refine ⟨?_,?_,_,rfl,_,mem_cons_self,rfl,rfl⟩
  · intro file hfile
    obtain rfl := mem_singleton.mp hfile
    intro hsum
    exact absurd hsum (by decide)
  · simp [raceEvents,Consistent,startOffsets,contentChunks,oneChunk]

instance (d : DiskCache Unit) (c : GetCall Unit) : Decidable (c.FlagRight byteSum d) := by
  unfold GetCall.FlagRight
  cases c.phase <;> infer_instance

instance (e : CacheEvent Unit) : Decidable (Consistent oneChunk e) := by
  cases e <;> unfold Consistent <;> infer_instance

instance (s : CacheSystem Unit) (e : CacheEvent Unit) :
    Decidable (EventRight oneChunk byteSum s e) := by
  unfold EventRight
  cases e <;> infer_instance

def damagedCache : DiskCache Unit :=
  DiskCache.loadFile () { capacity := 100 } (oneItem,damagedFile)

/-- A get finds the damaged file and removes its item. Before it looks for another one, a put
stores the good file, on whose flag the get then relies. -/
def repairEvents : List (CacheEvent Unit) :=
  .get () ⟨0,1⟩ :: List.replicate 5 (.advanceGet 0) ++
    [.put () ⟨0,1⟩ [0,1] [7],.advancePut 0 [],.advanceGet 0,.advancePut 0 [],.advancePut 0 [],
      .advanceGet 0,.advancePut 0 []] ++ List.replicate 3 (.advanceGet 0)

theorem gets_right_of_flags_repaired :
    ∃ c ∈ (run (CacheSystem.next byteSum) { cache := damagedCache } repairEvents).gets, ∃ r,
      c.phase = .returned (.ok (some r)) ∧ r = rightRange oneChunk c.key c.range := by
  have hdir : ∀ file ∈ [((),oneItem,damagedFile)],
      Checked oneChunk byteSum file.1 file.2.1 file.2.2 := by
    intro file hfile hsum
    obtain rfl := mem_singleton.mp hfile
    exact absurd hsum (by decide)
  have hmem : ⟨(),⟨0,1⟩,.returned (.ok (some ⟨[0,1],[7],⟨0,1⟩⟩))⟩ ∈
      (run (CacheSystem.next byteSum) { cache := damagedCache } repairEvents).gets := mem_cons_self
  have hinit : DiskCache.initializeCache 100 100 [((),oneItem,damagedFile)] =
      .ok damagedCache := rfl
  exact ⟨_,hmem,_,rfl,gets_right_of_flags hdir hinit (by decide +kernel) hmem rfl⟩

end XetCore.ChunkCache
