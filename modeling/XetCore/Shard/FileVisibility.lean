import XetCore.Shard.HeldRecords

/-! # Finding a file that was added

A lookup asks the shard in memory and later the registered shards, and so it misses a
shard that waits to be registered. It finds what was added if no shard that holds the
hash waits at the time when the registered shards are asked.
-/
namespace XetCore.Shard
open ByteSources Serialization Runs ShardFileManager List
open Merkle (DataHash)

/-- For a record whose call had returned, the answer has its segments. -/
def FileAnswer.Right (a : FileAnswer) : Prop := ∀ f ∈ a.known, f.metadata.fileHash = a.fileHash →
  ∀ found, a.result = .ok found → ∃ g place, found = some (g,place) ∧ g.segments = f.segments

namespace ManagerCalls
variable (cfg : ManagerConfig) (c : ManagerCalls)

def waiting : List DataHash := c.registering.map Registration.shardHash

/-- No waiting shard has the file, or a registered one has it as well. -/
def Visible (fileHash : DataHash) : Prop :=
  (∀ h ∈ c.waiting, c.manager.queryFile cfg h fileHash = .ok none) ∨
  ∃ s ∈ c.manager.shardBookkeeper.shards, ∃ g, c.manager.queryShard cfg s fileHash = .ok (some g)

/-- Records are well formed and agree under their hash, no file is replaced by another one, and the
registered shards are asked for a file when it is visible. -/
def Permits : CallStep → Prop
  | .addXorbBlock xorb => c.manager.Full cfg xorb.numBytes → c.manager.WritesAnew cfg
  | .addFileReconstructionInfo f => (f.WellFormed ∧ 1 + f.metadata.numFollowing < 2 ^ 32) ∧
      (f.metadata.fileHash = default → f.segments = []) ∧ c.manager.Agrees cfg c.added f ∧
      ∀ numBytes, f.numBytes = .ok numBytes → c.manager.Full cfg numBytes → c.manager.WritesAnew cfg
  | .flush => c.manager.currentState.isEmpty = false → c.manager.WritesAnew cfg
  | .queryShards call => ∀ q, c.queries[call]? = some q → c.Visible cfg q.fileHash
  | _ => True

/-- The record is in a shard file that the manager knows. -/
def OnFile (f : MDBFileInfo) : Prop :=
  ∃ h, c.manager.Held c.waiting h ∧ c.manager.queryFile cfg h f.metadata.fileHash ≠ .ok none

structure Sound : Prop where
  holds : c.manager.Holds cfg c.waiting c.added
  default_empty : ∀ f ∈ c.added, f.metadata.fileHash = default → f.segments = []
  loaded : ∀ r ∈ c.registering, ∀ s, r.shard = some s →
    c.manager.shardDirectory.loadFromFile r.shardHash = .ok s
  adding : ∀ r ∈ c.registering, ∀ f ∈ r.adding, f ∈ c.added
  returned : ∀ f ∈ c.returned, f ∈ c.added
  known : ∀ q ∈ c.queries, ∀ f ∈ q.known, f ∈ c.added
  onFile : ∀ q ∈ c.queries, ∀ f ∈ q.known, f.metadata.fileHash = q.fileHash → c.OnFile cfg f
  answers : ∀ a ∈ c.answers, a.Right

variable {cfg c} {shards : List MDBShardFile} {m : ShardFileManager} {c' : ManagerCalls}

theorem Sound.onFile_extends (h : c.Sound cfg)
    (he : c.manager.Extends c'.manager c.waiting c'.waiting) {f : MDBFileInfo} (hf : c.OnFile cfg f) :
    c'.OnFile cfg f := by
  obtain ⟨shardHash,hh,hne⟩ := hf
  exact ⟨shardHash,he.held shardHash hh,by rwa [h.holds.queryFile_extends he hh]⟩

theorem Sound.written (h : c.Sound cfg) {m' : ShardFileManager} {newShard : Option DataHash}
    {adding added' : List MDBFileInfo} (hh : m'.Holds cfg (c.waiting ++ newShard.toList) added')
    (he : c.manager.Extends m' c.waiting (c.waiting ++ newShard.toList)) (ha : ∀ f ∈ c.added, f ∈ added')
    (han : ∀ f ∈ adding, f ∈ added') (hd : ∀ f ∈ added', f.metadata.fileHash = default →
      f.segments = []) :
    ({ c with added := added' }.written m' adding newShard).Sound cfg := by
  have hl : ∀ r ∈ c.registering, ∀ s, r.shard = some s →
    m'.shardDirectory.loadFromFile r.shardHash = .ok s := by
    intro r hr s hs
    obtain ⟨bytes,hb,hlo⟩ := loadFromFile_eq_ok.mp (h.loaded r hr s hs)
    exact loadFromFile_eq_ok.mpr ⟨bytes,he.directory _ _ hb,hlo⟩
  cases newShard with
  | none =>
    rw [Option.toList_none,append_nil] at hh he
    exact ⟨hh,hd,hl,fun r hr f hf => ha f (h.adding r hr f hf),
      forall_mem_append.mpr ⟨han,fun f hf => ha f (h.returned f hf)⟩,
      fun q hq f hf => ha f (h.known q hq f hf),
      fun q hq f hf hha => h.onFile_extends he (h.onFile q hq f hf hha),h.answers⟩
  | some shardHash =>
    have hw : ({ c with added := added' }.written m' adding (some shardHash)).waiting = c.waiting ++
      [shardHash] := by
      simp [waiting,ManagerCalls.written]
    refine ⟨by rw [hw]; exact hh,hd,?_,?_,fun f hf => ha f (h.returned f hf),fun q hq f hf =>
      ha f (h.known q hq f hf),
      fun q hq f hf hha => h.onFile_extends (by rw [hw]; exact he) (h.onFile q hq f hf hha),h.answers⟩
    · exact forall_mem_append.mpr ⟨hl,forall_mem_singleton.mpr nofun⟩
    · exact forall_mem_append.mpr
        ⟨fun r hr f hf => ha f (h.adding r hr f hf),forall_mem_singleton.mpr han⟩

section Registering
variable {call : ℕ} {r : Registration} {m' : ShardFileManager} {adding : List MDBFileInfo}

theorem mem_waiting {h : DataHash} : h ∈ c.waiting ↔ ∃ r ∈ c.registering, r.shardHash = h := mem_map

theorem mem_returnCall (hr : c.registering[call]? = some r) {h : DataHash}
    (hh : h ∈ c.waiting) : h ∈ (c.returnCall call adding).waiting ∨ h = r.shardHash := by
  obtain ⟨r',hr',rfl⟩ := mem_waiting.mp hh
  obtain ⟨i,hi⟩ := mem_iff_getElem?.mp hr'
  by_cases heq : i = call
  · rw [heq,hr] at hi
    exact .inr (congrArg Registration.shardHash (Option.some.inj hi)).symm
  · exact .inl (mem_waiting.mpr ⟨r',mem_eraseIdx_iff_getElem?.mpr ⟨i,heq,hi⟩,rfl⟩)

section
variable (h : c.Sound cfg) (hr : c.registering[call]? = some r)
include h hr

theorem Sound.returnCall (hho : m'.Holds cfg c.waiting c.added)
    (hd : m'.shardDirectory = c.manager.shardDirectory)
    (hsh : ∀ s ∈ c.manager.shardBookkeeper.shards, s ∈ m'.shardBookkeeper.shards)
    (hre : ∃ s ∈ m'.shardBookkeeper.shards, s.shardHash = r.shardHash) :
    { c.returnCall call r.adding with manager := m' }.Sound cfg := by
  have hhe : ∀ shardHash, m'.Held c.waiting shardHash →
    m'.Held (c.returnCall call r.adding).waiting shardHash := by
    rintro shardHash (hw | hs)
    · rcases mem_returnCall hr hw with hw | rfl
      · exact .inl hw
      · exact .inr hre
    · exact .inr hs
  have he : c.manager.Extends m' c.waiting (c.returnCall call r.adding).waiting := by
    refine ⟨fun _ _ hb => by rwa [hd],fun shardHash hh => hhe shardHash ?_⟩
    exact hh.imp_right fun ⟨s,hs,hha⟩ => ⟨s,hsh s hs,hha⟩
  have hsu : ∀ shardHash ∈ (c.returnCall call r.adding).waiting, shardHash ∈ c.waiting :=
    fun _ hh => mem_waiting.mpr ((mem_waiting.mp hh).imp fun _ => And.imp_left mem_of_mem_eraseIdx)
  refine ⟨hho.of_held hsu hhe,h.default_empty,?_,?_,?_,h.known,?_,h.answers⟩
  · intro r' hr' s hs
    rw [hd]
    exact h.loaded r' (mem_of_mem_eraseIdx hr') s hs
  · exact fun r' hr' => h.adding r' (mem_of_mem_eraseIdx hr')
  · exact forall_mem_append.mpr ⟨h.adding r (mem_of_getElem? hr),h.returned⟩
  · exact fun q hq f hf hha => h.onFile_extends he (h.onFile q hq f hf hha)

theorem Sound.loadShard (hl : c.loadShard call r = .ok c') : c'.Sound cfg := by
  obtain ⟨s,hs,hc'⟩ := bind_eq_ok.mp hl
  obtain ⟨-,-,-,hh⟩ := loadFromFile_eq_ok.mp hs
  split_ifs at hc' with hre
  · cases hc'
    refine h.returnCall hr h.holds rfl (fun _ hs => hs) ?_
    rw [← hh]
    exact held_of_isRegistered hre
  · cases hc'
    have hmem : ∀ r' ∈ c.registering.set call { r with shard := some s }, r' ∈ c.registering ∨
        r' = { r with shard := some s } := fun r' hr' => mem_or_eq_of_mem_set hr'
    have hw : (c.registering.set call { r with shard := some s }).map Registration.shardHash =
      c.waiting := by
      obtain ⟨hlt,rfl⟩ := List.getElem?_eq_some_iff.mp hr
      rw [map_set]
      exact (congrArg _ (getElem_map _).symm).trans (set_getElem_self (by simpa using hlt))
    refine ⟨?_,h.default_empty,?_,?_,h.returned,h.known,?_,h.answers⟩
    · rw [waiting,hw]
      exact h.holds
    · intro r' hr' s' hs'
      rcases hmem r' hr' with hold | rfl
      · exact h.loaded r' hold s' hs'
      · exact hs.trans (congrArg Except.ok (Option.some.inj hs'))
    · intro r' hr'
      rcases hmem r' hr' with hold | rfl
      · exact h.adding r' hold
      · exact h.adding r (mem_of_getElem? hr)
    · intro q hq f hf hh'
      rw [OnFile,waiting,hw]
      exact h.onFile q hq f hf hh'

theorem Sound.registerShard : (c.registerShard cfg call r).Sound cfg := by
  rw [ManagerCalls.registerShard]
  cases hs : r.shard with
  | none => exact h
  | some s =>
    have hl := h.loaded r (mem_of_getElem? hr) s hs
    obtain ⟨-,-,-,hh⟩ := loadFromFile_eq_ok.mp hl
    have hw := mem_waiting.mpr ⟨r,mem_of_getElem? hr,rfl⟩
    exact h.returnCall hr (h.holds.register hw hl) rfl
      (fun t ht => ShardBookkeeper.mem_shards_register.mpr (.inl ht))
      ⟨s,ShardBookkeeper.mem_shards_register.mpr (.inr rfl),hh⟩

end

end Registering

section Querying
variable {q : FileQuery}

theorem Sound.answer (h : c.Sound cfg) {result : Result (Option (MDBFileInfo × Option DataHash))}
    (hri : FileAnswer.Right ⟨q,result⟩) : (c.answer q result).Sound cfg :=
  { h with answers := forall_mem_cons.mpr ⟨hri,h.answers⟩ }

theorem Sound.queryMemory (h : c.Sound cfg) (hq : ∀ f ∈ q.known, f ∈ c.added) :
    (c.queryMemory q).Sound cfg := by
  rw [ManagerCalls.queryMemory]
  split_ifs with hd
  · refine h.answer fun f hf hh found hfo => ?_
    exact ⟨_,_,(Except.ok.inj hfo).symm,(h.default_empty f (hq f hf) (hh.trans hd)).symm⟩
  · cases hge : c.manager.currentState.getFileReconstructionInfo q.fileHash with
    | some g =>
      obtain ⟨hmem,hgh⟩ := mem_files_of_get hge
      refine h.answer fun f hf hh found hfo => ?_
      exact ⟨g,none,(Except.ok.inj hfo).symm,
        h.holds.agree g (h.holds.files_added g hmem) f (hq f hf) (hgh.trans hh.symm)⟩
    | none =>
      refine { h with
        known := forall_mem_append.mpr ⟨h.known,?_⟩
        onFile := forall_mem_append.mpr ⟨h.onFile,?_⟩ }
      · exact forall_mem_singleton.mpr hq
      · refine forall_mem_singleton.mpr fun f hf hh => ?_
        rcases h.holds.kept f (hq f hf) with ⟨g,hg⟩ | hfi
        · rw [hh,hge] at hg
          cases hg
        · exact hfi

theorem queryShards_eq_ok {fileHash : DataHash}
    {found : Option (MDBFileInfo × Option DataHash)}
    (hf : m.queryShards cfg fileHash shards = .ok found) :
    (found = none ∧ ∀ s ∈ shards, m.queryShard cfg s fileHash = .ok none) ∨
    ∃ s ∈ shards, ∃ g, found = some (g,some s.shardHash) ∧
    m.queryShard cfg s fileHash = .ok (some g) := by
  induction shards with
  | nil => exact .inl ⟨(Except.ok.inj hf).symm,nofun⟩
  | cons s shards ih =>
    obtain ⟨answer,ha,hre⟩ := bind_eq_ok.mp hf
    cases answer with
    | some g => exact .inr ⟨s,mem_cons_self,g,(Except.ok.inj hre).symm,ha⟩
    | none =>
      rcases ih hre with ⟨rfl,hn⟩ | ⟨t,ht,g,hg⟩
      · exact .inl ⟨rfl,forall_mem_cons.mpr ⟨ha,hn⟩⟩
      · exact .inr ⟨t,mem_cons_of_mem s ht,g,hg⟩

theorem Sound.queryShards (h : c.Sound cfg) {call : ℕ} (hq : c.queries[call]? = some q)
    (hv : c.Visible cfg q.fileHash) :
    (c.queryShards cfg call q).Sound cfg := by
  have hmem := mem_of_getElem? hq
  have hd : { c with queries := c.queries.eraseIdx call }.Sound cfg :=
    { h with
      known := fun q' hq' => h.known q' (mem_of_mem_eraseIdx hq')
      onFile := fun q' hq' => h.onFile q' (mem_of_mem_eraseIdx hq') }
  refine hd.answer fun f hf hh found hfo => ?_
  rcases queryShards_eq_ok hfo with ⟨rfl,hn⟩ | ⟨s,hs,g,rfl,hg⟩
  · -- Nothing was found, but the record is in a shard file.
    obtain ⟨shardHash,hhe,hne⟩ := h.onFile q hmem f hf hh
    rw [hh] at hne
    rcases hhe with hw | ⟨s,hs,rfl⟩
    · rcases hv with ha | ⟨s,hs,g,hg⟩
      · exact absurd (ha shardHash hw) hne
      · rw [hn s hs] at hg
        cases hg
    · rw [h.holds.queryFile_registered hs] at hne
      exact absurd (hn s hs) hne
  · rw [← h.holds.queryFile_registered hs,← hh] at hg
    exact ⟨g,_,rfl,h.holds.registered_agree s hs f (h.known q hmem f hf) g hg⟩

end Querying

theorem Sound.step (h : c.Sound cfg) {i : CallStep} (hi : c.Permits cfg i)
    (hc' : c.step cfg i = .ok c') : c'.Sound cfg := by
  cases i with
  | addXorbBlock xorb =>
    obtain ⟨⟨m,newShard⟩,hadd,hc'⟩ := bind_eq_ok.mp hc'
    obtain ⟨⟨m',newShard'⟩,hc,hm⟩ := bind_eq_ok.mp hadd
    cases hm
    cases hc'
    obtain ⟨hh,he,-⟩ := h.holds.cutIfFull hi hc
    exact h.written { hh with } ⟨he.directory,he.held⟩ (fun _ hf => hf) nofun h.default_empty
  | addFileReconstructionInfo f =>
    obtain ⟨hf,hd,ha,han⟩ := hi
    obtain ⟨⟨m,newShard⟩,hadd,hc'⟩ := bind_eq_ok.mp hc'
    obtain ⟨numBytes,hn,hadd⟩ := bind_eq_ok.mp hadd
    obtain ⟨⟨m',newShard'⟩,hc,hadd⟩ := bind_eq_ok.mp hadd
    obtain ⟨mdb,hmd,hm⟩ := bind_eq_ok.mp hadd
    cases hm
    cases hc'
    obtain ⟨hh,he,hs⟩ := h.holds.cutIfFull (han numBytes hn) hc
    have ha' := ha.of_extends h.holds hh he hs
    exact h.written (hh.addFile hf ha' hmd) ⟨he.directory,he.held⟩ (fun _ hg => mem_cons_of_mem f hg)
      (forall_mem_singleton.mpr mem_cons_self) (forall_mem_cons.mpr ⟨hd,h.default_empty⟩)
  | flush =>
    obtain ⟨⟨m,newShard⟩,hfl,hc'⟩ := bind_eq_ok.mp hc'
    cases hc'
    rw [ShardFileManager.flush] at hfl
    split_ifs at hfl with hne
    · cases hfl
      exact h
    · obtain ⟨⟨m',shardHash⟩,hc,hm⟩ := bind_eq_ok.mp hfl
      cases hm
      have han := hi (by simpa using hne)
      exact h.written (h.holds.cut han hc) (extends_cut han hc) (fun _ hf => hf) nofun h.default_empty
  | loadShard call =>
    rw [ManagerCalls.step] at hc'
    cases hr : c.registering[call]? with
    | some r =>
      rw [hr] at hc'
      exact h.loadShard hr hc'
    | none =>
      rw [hr] at hc'
      cases hc'
      exact h
  | registerShard call =>
    rw [ManagerCalls.step] at hc'
    cases hr : c.registering[call]? with
    | some r =>
      rw [hr] at hc'
      cases hc'
      exact h.registerShard hr
    | none =>
      rw [hr] at hc'
      cases hc'
      exact h
  | queryMemory fileHash =>
    cases hc'
    exact h.queryMemory h.returned
  | queryShards call =>
    rw [ManagerCalls.step] at hc'
    cases hq : c.queries[call]? with
    | some q =>
      rw [hq] at hc'
      cases hc'
      exact h.queryShards hq (hi q hq)
    | none =>
      rw [hq] at hc'
      cases hc'
      exact h

def start (cfg : ManagerConfig) (directory : ShardDirectory) (shards : List MDBShardFile) :
    ManagerCalls :=
  { manager := openDirectory cfg directory shards }

theorem registerShards_loaded (he : m.currentState = .empty)
    (hl : ∀ s ∈ m.shardBookkeeper.shards, m.shardDirectory.loadFromFile s.shardHash = .ok s)
    (hsh : ∀ s ∈ shards, m.shardDirectory.loadFromFile s.shardHash = .ok s) :
    (m.registerShards cfg shards).currentState = .empty ∧
    ∀ s ∈ (m.registerShards cfg shards).shardBookkeeper.shards,
      (m.registerShards cfg shards).shardDirectory.loadFromFile s.shardHash = .ok s := by
  induction shards generalizing m with
  | nil => exact ⟨he,hl⟩
  | cons s shards ih =>
    obtain ⟨hs,hsh⟩ := forall_mem_cons.mp hsh
    rw [registerShards,foldl_cons]
    split
    · exact ih he hl hsh
    · refine ih he (fun t ht => ?_) hsh
      rcases ShardBookkeeper.mem_shards_register.mp ht with hold | rfl
      · exact hl t hold
      · exact hs

theorem holds_openDirectory {directory : ShardDirectory}
    (hsh : ∀ s ∈ shards, directory.loadFromFile s.shardHash = .ok s) :
    (openDirectory cfg directory shards).Holds cfg [] [] := by
  have hne : ∀ s ∈ ShardBookkeeper.new.shards, directory.loadFromFile s.shardHash = .ok s := by
    intro s hs
    simp [ShardBookkeeper.new,ShardBookkeeper.shards] at hs
  obtain ⟨he,hl⟩ : (openDirectory cfg directory shards).currentState = .empty ∧ _ :=
    registerShards_loaded rfl hne hsh
  have hn : ∀ f, f ∉ (openDirectory cfg directory shards).currentState.files := by
    intro f hf
    rw [he,MDBInMemoryShard.mem_files] at hf
    simp [MDBInMemoryShard.empty] at hf
  exact ⟨fun f hf => absurd hf (hn f),fun f hf => absurd hf (hn f),by simp,
    hl,by simp,by simp,by simp,by simp⟩

/-- Whenever the steps of the calls are permitted, every lookup that succeeds finds a record that
was added before, with its segments. -/
theorem answers_right (cfg : ManagerConfig) {directory : ShardDirectory} {shards : List MDBShardFile}
    (hshards : ∀ s ∈ shards, directory.loadFromFile s.shardHash = .ok s) {steps : List CallStep}
    (hsteps : Permitted (attempt (step cfg)) (Permits cfg) (start cfg directory shards) steps) :
    ∀ a ∈ ((start cfg directory shards).perform cfg steps).answers, a.Right := by
  have hstart : (start cfg directory shards).Sound cfg :=
    ⟨holds_openDirectory hshards,nofun,nofun,nofun,nofun,nofun,nofun,nofun⟩
  have hkeep : ∀ c c' i, Permits cfg c i → step cfg c i = .ok c' → c.Sound cfg → c'.Sound cfg :=
    fun c c' i hi hc' h => h.step hi hc'
  exact (run_invariant (attempt_invariant hkeep) hstart hsteps).answers

/-- A small manager, which never cuts its shard of its own accord. -/
def smallConfig : ManagerConfig where
  targetShardMaxSize := 2 ^ 20
  chunkIndexTableMaxSize := 1024
  sorter := .stable _
  interpolate lo _ _ := lo
  computeDataHash bytes := ⟨UInt64.ofNat bytes.length,0,0,0⟩

def smallFile : MDBFileInfo where
  metadata := { fileHash := ⟨1,0,0,0⟩, numEntries := 1 }
  segments := [{ xorbHash := ⟨2,0,0,0⟩, unpackedSegmentBytes := 5, chunkIndexEnd := 1 }]

/-- A flush whose file is registered before the registered shards are asked. -/
def flushAndRegister : List CallStep :=
  [.addFileReconstructionInfo smallFile,.flush,.queryMemory ⟨1,0,0,0⟩,.loadShard 0,.registerShard 0,
    .queryShards 0]

theorem writesAnew_of_isEmpty (h : m.shardDirectory.isEmpty = true) : m.WritesAnew cfg := by
  intro bytes old _ hold
  rw [Std.ExtTreeMap.isEmpty_iff.mp h,Std.ExtTreeMap.getElem?_empty] at hold
  cases hold

theorem permitted_flushAndRegister :
    Permitted (attempt (step smallConfig)) (Permits smallConfig)
      (start smallConfig ∅ []) flushAndRegister := by
  refine ⟨⟨by decide +kernel,by decide +kernel,⟨nofun,nofun⟩,fun _ _ _ => ?_⟩,fun _ =>
    ?_,trivial,trivial,trivial,fun q _ => ?_,trivial⟩
  · exact writesAnew_of_isEmpty (by decide +kernel)
  · exact writesAnew_of_isEmpty (by decide +kernel)
  · refine .inl fun shardHash hh => ?_
    rw [show waiting _ = [] by decide +kernel] at hh
    cases hh

theorem answers_right_registered :
    ∃ a ∈ ((start smallConfig ∅ []).perform smallConfig flushAndRegister).answers,
    a.known = [smallFile] ∧ a.Right := by
  have hone : ((start smallConfig ∅ []).perform smallConfig flushAndRegister).answers.map
    (fun a => a.known) =
      [[smallFile]] := by decide +kernel
  obtain ⟨a,ha,hknown⟩ := map_eq_singleton_iff.mp hone
  have hmem : a ∈ ((start smallConfig ∅ []).perform smallConfig flushAndRegister).answers := by
    rw [ha]
    exact mem_singleton_self a
  have hshards : ∀ s ∈ ([] : List MDBShardFile), ShardDirectory.loadFromFile ∅ s.shardHash =
    .ok s := nofun
  exact ⟨a,hmem,hknown,answers_right smallConfig hshards permitted_flushAndRegister a hmem⟩

/-- The flush has emptied the shard in memory and has not registered the new file yet. -/
theorem answer_missed_while_flushing :
    smallFile.WellFormed ∧ ∃ a ∈ ((start smallConfig ∅ []).perform smallConfig
      [.addFileReconstructionInfo smallFile,.flush,.queryMemory ⟨1,0,0,0⟩,.queryShards 0]).answers,
    smallFile ∈ a.known ∧ smallFile.metadata.fileHash = a.fileHash ∧ a.result = .ok none ∧ ¬ a.Right := by
  have hone : ((start smallConfig ∅ []).perform smallConfig
      [.addFileReconstructionInfo smallFile,.flush,.queryMemory ⟨1,0,0,0⟩,.queryShards 0]).answers.map
        (fun a => (a.fileHash,a.known,a.result.toOption)) = [(⟨1,0,0,0⟩,[smallFile],some none)] := by
    decide +kernel
  obtain ⟨a,ha,hvalues⟩ := map_eq_singleton_iff.mp hone
  obtain ⟨hhash,hrest⟩ := Prod.mk.inj hvalues
  obtain ⟨hknown,hresult⟩ := Prod.mk.inj hrest
  have hok : a.result = .ok none := by
    cases hr : a.result with
    | error e =>
      rw [hr] at hresult
      cases hresult
    | ok found =>
      rw [hr] at hresult
      rw [Option.some.inj hresult]
  have hmem : smallFile ∈ a.known := by
    rw [hknown]
    exact mem_singleton_self smallFile
  refine ⟨by decide +kernel,a,by rw [ha]; exact mem_singleton_self a,hmem,hhash.symm,hok,fun hright => ?_⟩
  obtain ⟨g,place,hfound,-⟩ := hright smallFile hmem hhash.symm none hok
  cases hfound

end ManagerCalls
end XetCore.Shard
