import XetCore.Shard.ConsolidationSpec

/-! # What consolidation leaves

Of a directory of full shards, consolidation leaves the shards that it returns and those that
it skipped. While the sources are read, their files stay as they are, because what is written
has the name of a source only if it has the same bytes.
-/
namespace XetCore.Shard
open ByteSources Serialization ShardDirectory FullSource List
open Merkle (DataHash)

variable {cfg : ConsolidationConfig}

section Run
variable {sources done todo : List FullSource}
  {names : List DataHash} {directory : ShardDirectory} {s : FullSource} {m : MergeState}

/-- The directory holds the sources and the shards that were written. -/
structure Written (cfg : ConsolidationConfig) (sources : List FullSource) (m : MergeState) : Prop where
  kept : ∀ s ∈ sources, m.directory[s.shardHash]? = some s.bytes
  only : ∀ h ∈ m.directory, (∃ s ∈ sources, s.shardHash = h) ∨ ∃ d ∈ m.destShards, d.shardHash = h
  dest : ∀ d ∈ m.destShards, ∃ bytes, m.directory[d.shardHash]? = some bytes ∧ Bounded cfg sources bytes

structure Merged (cfg : ConsolidationConfig) (sources done todo : List FullSource)
    (m : MergeState) : Prop extends Written cfg sources m where
  ingested : m.ingestedShards = done.map file
  skipped : m.skippedShards = []
  building : (done = [] ∧ m.curData = [] ∧ UnitesInOrder cfg.targetMaxSize todo) ∨
    ∃ fs xs, Current cfg sources done m.curSi m.curData fs xs ∧
      UnitesAll cfg.targetMaxSize fs xs todo

theorem FullSource.loadFromFile_eq (hf : directory[s.shardHash]? = some s.bytes) :
    loadFromFile directory s.shardHash = .ok s.file :=
  loadFromFile_eq_ok.mpr ⟨rfl,s.bytes,hf,s.full.loadFromReader_eq⟩

theorem FullSource.numBytes_eq (hlt : s.bytes.length < 2 ^ 64) :
    s.info.numBytes = .ok s.bytes.length := by
  have hb : s.info.metadata.footerOffset.toNat + mdbShardFooterSize = s.bytes.length :=
    s.full.bytesOf_eq s.shardHash
  exact addUsize_eq_ok.mpr ⟨hb.symm,by rwa [hb]⟩

theorem FullSource.readIntoBuffer_eq (hf : directory[s.shardHash]? = some s.bytes) :
    readIntoBuffer directory s.shardHash s.bytes.length = .ok s.bytes := by
  have hr : ShardDirectory.read directory s.shardHash = .ok s.bytes := by
    unfold ShardDirectory.read
    rw [hf]
  rw [readIntoBuffer,hr,ok_bind,ensure,if_pos (Nat.le_refl _),ok_bind,take_length]
  rfl

theorem Written.flushShard (h : Written cfg sources m)
    (hin : SourcesIn cfg sources names directory) {fs xs}
    (hcu : Current cfg sources done m.curSi m.curData fs xs) : ∃ d directory',
      cfg.flushShard m = .ok { m with destShards := m.destShards ++ [d], directory := directory' } ∧
      Written cfg sources { m with destShards := m.destShards ++ [d], directory := directory' } := by
  obtain ⟨hash,hh⟩ : ∃ hash, hash = cfg.computeDataHash m.curData := ⟨_,rfl⟩
  obtain ⟨written,hw⟩ : ∃ written : ShardDirectory, written = m.directory.insert hash m.curData := ⟨_,rfl⟩
  have hg : ∀ h, written[h]? = if hash = h then some m.curData else m.directory[h]? := fun h => by
    rw [hw,Std.ExtTreeMap.getElem?_insert]
    exact if_congr compare_eq_iff_eq rfl rfl
  have hl : loadFromFile written hash = .ok ⟨hash,m.curSi⟩ :=
    loadFromFile_eq_ok.mpr ⟨rfl,m.curData,by rw [hg,if_pos rfl],hcu.full.loadFromReader_eq⟩
  refine ⟨⟨hash,m.curSi⟩,written,?_,?_,?_,?_⟩
  · rw [ConsolidationConfig.flushShard,writeOutFromReader]
    rw [← hh,← hw,hl]
    rfl
  · intro s hs
    rw [hg]
    split_ifs with heq
    · exact congrArg some (hin.noCollision m.curSi m.curData hcu.mergeable s hs (hh.symm.trans heq))
    · exact h.kept s hs
  · intro h' hmem
    by_cases heq : hash = h'
    · exact .inr ⟨_,mem_append_right _ mem_cons_self,heq⟩
    · rw [Std.ExtTreeMap.mem_iff_isSome_getElem?,hg,if_neg heq,
        ← Std.ExtTreeMap.mem_iff_isSome_getElem?] at hmem
      refine (h.only h' hmem).imp_right ?_
      rintro ⟨d,hd,hdh⟩
      exact ⟨d,mem_append_left _ hd,hdh⟩
  · intro e he
    by_cases heq : hash = e.shardHash
    · exact ⟨m.curData,by rw [hg,if_pos heq],hcu.bounded⟩
    · rw [hg,if_neg heq]
      rcases mem_append.mp he with he | he
      · exact h.dest e he
      · exact absurd (mem_singleton.mp he ▸ rfl) heq

theorem FullShard.not_isEmpty {info : MDBShardInfo} {bytes : Bytes} {fs : List MDBFileInfo}
    {xs : List MDBXorbInfo} (h : FullShard info bytes fs xs) : ¬bytes.isEmpty = true := by
  have hl := h.length_eq
  rw [shardLength] at hl
  intro he
  rw [isEmpty_iff.mp he,length_nil] at hl
  omega

section
variable (hin : SourcesIn cfg sources names directory)
include hin

theorem Merged.mergeStep (h : Merged cfg sources done (s :: todo) m) (hs : s ∈ sources)
    (hb : (done.map fun s => s.bytes.length).sum + s.bytes.length < 2 ^ 64) :
    ∃ m', cfg.mergeStep m s.file = .ok m' ∧ Merged cfg sources (done ++ [s]) todo m' := by
  have hnu : s.file.shard.numBytes = .ok s.bytes.length := numBytes_eq (by omega)
  have hr : readIntoBuffer m.directory s.file.shardHash s.bytes.length = .ok s.bytes :=
    readIntoBuffer_eq (h.kept s hs)
  have hig : m.ingestedShards ++ [s.file] = (done ++ [s]).map file := by
    rw [h.ingested,map_append]
    rfl
  rw [ConsolidationConfig.mergeStep,hnu,ok_bind,hr]
  dsimp only
  rw [ConsolidationConfig.ingest]
  rcases h.building with ⟨-,hem,hun⟩ | ⟨fs,xs,hcu,hun⟩
  · rw [hem,if_pos isEmpty_nil]
    exact ⟨_,rfl,{ h with },hig,h.skipped,.inr ⟨_,_,current_source hs,hun⟩⟩
  · have hl := hcu.full.length_eq
    have hle := hcu.bytes_le
    have hfo : 48 + mdbShardFooterSize = 248 := rfl
    have hes : ConsolidationConfig.estimatedSize m.curData s.bytes =
        .ok (m.curData.length + s.bytes.length - 248) := by
      rw [ConsolidationConfig.estimatedSize,addUsize_eq_ok.mpr ⟨rfl,by omega⟩,ok_bind,subUsize,hfo,
        if_pos (by rw [shardLength] at hl; omega)]
    rw [if_neg hcu.full.not_isEmpty,hes,ok_bind]
    rw [UnitesAll,← hl] at hun
    by_cases hf : m.curData.length + s.bytes.length ≤ cfg.targetMaxSize + 248
    · rw [if_pos hf] at hun
      obtain ⟨info',bytes',hu,hcu'⟩ := hcu.union hs hun.1 hf
      have hu' : shardSetUnion cfg.sorter m.curSi m.curData s.file.shard s.bytes =
        .ok (info',bytes') := hu
      rw [if_pos (by omega),hu',ok_bind]
      exact ⟨_,rfl,{ h with },hig,h.skipped,.inr ⟨_,_,hcu',hun.2⟩⟩
    · have hw : Written cfg sources { m with ingestedShards := m.ingestedShards ++ [s.file] } :=
        { h with }
      rw [if_neg hf] at hun
      obtain ⟨d,directory',hfl,hw'⟩ := hw.flushShard hin hcu
      rw [if_neg (by omega),hfl,ok_bind]
      exact ⟨_,rfl,{ hw' with },hig,h.skipped,.inr ⟨_,_,current_source hs,hun⟩⟩

theorem Merged.foldlM_mergeStep (hb : (sources.map fun s => s.bytes.length).sum < 2 ^ 64)
    (h : Merged cfg sources done todo m) (hp : (done ++ todo).Perm sources) :
    ∃ m', (todo.map file).foldlM cfg.mergeStep m = .ok m' ∧
      Merged cfg sources (done ++ todo) [] m' := by
  induction todo generalizing done m with
  | nil => exact ⟨m,rfl,by rwa [append_nil]⟩
  | cons s todo ih =>
    have hs : s ∈ sources := hp.subset (mem_append_right _ mem_cons_self)
    have hle : (done.map fun s => s.bytes.length).sum + s.bytes.length < 2 ^ 64 := by
      have hsu := (hp.map fun s => s.bytes.length).sum_eq
      rw [map_append,sum_append,map_cons,sum_cons] at hsu
      omega
    obtain ⟨m',hst,hm'⟩ := h.mergeStep hin hs hle
    obtain ⟨m'',hr,hm''⟩ := ih hm' (by rwa [append_assoc])
    rw [append_assoc] at hm''
    exact ⟨m'',by rw [map_cons,foldlM_cons,hst,ok_bind,hr],hm''⟩

end

theorem SourcesIn.loadAllValid_eq (hin : SourcesIn cfg sources names directory)
    (hc : Compatible cfg sources) :
    ∃ loaded, loadAllValid cfg.heap cfg.expirationBuffer cfg.currentTime names directory =
      .ok (loaded,directory) ∧
      loaded.Perm (sources.map file) := by
  have hfi : (sources.map shardHash).filterMap (fun name => (loadFromFile directory name).toOption) =
      sources.map file := by
    rw [filterMap_map]
    refine filterMap_eq_map_iff_forall_eq_some.mpr fun s hs => ?_
    rw [Function.comp_apply,loadFromFile_eq (hin.files s hs)]
    rfl
  have hl : (directory.loaded names).Perm (sources.map file) :=
    hfi ▸ hin.names_perm.filterMap _
  have hcu : ∀ f ∈ directory.loaded names,
    ShardDirectory.current cfg.currentTime ⟨true,false,false,0⟩ f = true := by
    intro f hf
    obtain ⟨s,hs,rfl⟩ := mem_map.mp (hl.subset hf)
    exact decide_eq_true (hin.current s hs)
  have hsu : ((directory.loaded names).map ShardDirectory.bytesOf).sum < 2 ^ 64 := by
    have hm : (sources.map file).map ShardDirectory.bytesOf = sources.map fun s => s.bytes.length := by
      rw [map_map]
      exact map_congr_left fun s _ => s.full.bytesOf_eq s.shardHash
    rw [(hl.map _).sum_eq,hm]
    exact hc.bytes_lt
  refine ⟨_,?_,hl⟩
  rw [loadAllValid,loadManagedDirectory_eq cfg.heap rfl (hin.names_perm.nodup_iff.mpr hin.nodup)
    (.inl rfl) hsu,filter_eq_self.mpr hcu,filter_eq_nil_iff.mpr (by simp)]
  rfl

theorem foldlM_removeObsolete {obsolete : List MDBShardFile}
    (hn : (obsolete.map MDBShardFile.shardHash).Nodup)
    (hmem : ∀ s ∈ obsolete, s.shardHash ∈ directory) :
    obsolete.foldlM cfg.removeObsolete directory =
      .ok (directory.eraseAll (obsolete.map MDBShardFile.shardHash)) := by
  induction obsolete generalizing directory with
  | nil => rfl
  | cons s obsolete ih =>
    obtain ⟨hs,hre⟩ := forall_mem_cons.mp hmem
    rw [map_cons,nodup_cons] at hn
    have hr : cfg.removeObsolete directory s = .ok (directory.erase s.shardHash) := by
      rw [ConsolidationConfig.removeObsolete,removeFile,if_pos hs]
      rfl
    rw [foldlM_cons,hr,ok_bind]
    refine ih hn.2 fun t ht => ?_
    have hne : s.shardHash ≠ t.shardHash := fun heq => hn.1 (heq ▸ mem_map_of_mem ht)
    exact Std.ExtTreeMap.mem_erase.mpr ⟨fun heq => hne (compare_eq_iff_eq.mp heq),hre t ht⟩

theorem SourcesIn.merged_nil (hin : SourcesIn cfg sources names directory)
    (hu : UnitesInOrder cfg.targetMaxSize todo) : Merged cfg sources [] todo { directory } where
  kept := hin.files
  only h hmem := .inl (hin.only h hmem)
  dest _ hd := absurd hd not_mem_nil
  ingested := rfl
  skipped := rfl
  building := .inl ⟨rfl,rfl,hu⟩

/-- The shards of the sources, in the order in which they are merged. -/
theorem exists_order (cfg : ConsolidationConfig) {loaded : List MDBShardFile}
    (hlo : loaded.Perm (sources.map file)) :
    ∃ order : List FullSource, order.Perm sources ∧
      (order.Pairwise fun s t =>
        cfg.lastModifiedTime s.shardHash ≤ cfg.lastModifiedTime t.shardHash) ∧
      (cfg.sortByTime.sort (loaded.map fun s => (cfg.lastModifiedTime s.shardHash,s))).map Prod.snd =
        order.map file := by
  obtain ⟨timed,ht⟩ : ∃ timed, timed =
    cfg.sortByTime.sort (loaded.map fun s => (cfg.lastModifiedTime s.shardHash,s)) := ⟨_,rfl⟩
  have hpt : timed.Perm (loaded.map fun s => (cfg.lastModifiedTime s.shardHash,s)) :=
    ht ▸ cfg.sortByTime.perm _
  have hp : (timed.map Prod.snd).Perm (sources.map file) := by
    have hsn := hpt.map Prod.snd
    rw [map_map] at hsn
    exact (hsn.trans (Perm.of_eq (map_id _))).trans hlo
  have hso : timed.Pairwise fun a b => a.1 ≤ b.1 := ht ▸ cfg.sortByTime.sorted _
  have hti : ∀ a ∈ timed, a.1 = cfg.lastModifiedTime a.2.shardHash := fun a ha => by
    obtain ⟨s,-,rfl⟩ := mem_map.mp (hpt.subset ha)
    rfl
  obtain ⟨order,ho,heq⟩ := SortedTables.exists_perm_map hp
  refine ⟨order,ho,?_,by rw [← ht,heq]⟩
  have hpw : (timed.map Prod.snd).Pairwise fun s t =>
      cfg.lastModifiedTime s.shardHash ≤ cfg.lastModifiedTime t.shardHash := by
    refine pairwise_map.mpr (hso.imp_of_mem fun {a b} ha hb hab => ?_)
    rwa [← hti a ha,← hti b hb]
  rw [heq] at hpw
  exact (pairwise_map (f := file)).mp hpw

theorem SourcesIn.mergeShards_eq (hin : SourcesIn cfg sources names directory)
    (hc : Compatible cfg sources) :
    ∃ m, cfg.mergeShards names directory = .ok (ConsolidationConfig.mergeResult m,m.directory) ∧
      Written cfg sources m ∧ m.ingestedShards.Perm (sources.map file) ∧ m.skippedShards = [] := by
  obtain ⟨loaded,hld,hlo⟩ := hin.loadAllValid_eq hc
  obtain ⟨order,ho,hso,heq⟩ := exists_order cfg hlo
  have hp : (order.map file).Perm (sources.map file) := ho.map file
  rw [ConsolidationConfig.mergeShards,hld,ok_bind]
  dsimp only
  rw [heq]
  have hun := hc.unites order ho hso
  cases order with
  | nil => exact ⟨{ directory },rfl,(hin.merged_nil hun).toWritten,hp,rfl⟩
  | cons s order =>
    obtain ⟨m,hm,hme⟩ := (hin.merged_nil hun).foldlM_mergeStep hin hc.bytes_lt ho
    have hn : ¬((s :: order).map file).isEmpty = true := by simp
    rw [if_neg hn,ensure,if_pos hc.target_lt,ok_bind,hm,ok_bind]
    obtain ⟨hni,-⟩ | ⟨fs,xs,hcr,-⟩ := hme.building
    · cases hni
    · obtain ⟨d,directory',hf,hw⟩ := hme.toWritten.flushShard hin hcr
      rw [if_neg hcr.full.not_isEmpty,hf,ok_bind]
      exact ⟨_,rfl,hw,by rw [hme.ingested]; exact hp,hme.skipped⟩

end Run

section Consolidation
variable {sources : List FullSource} {names : List DataHash} {directory : ShardDirectory}

section Obsolete
variable {m : MergeState}

theorem mem_obsolete (hig : m.ingestedShards.Perm (sources.map file)) {h : DataHash} :
    h ∈ (ConsolidationConfig.mergeResult m).obsoleteShards.map MDBShardFile.shardHash ↔
      h ∈ sources.map shardHash ∧ h ∉ m.destShards.map MDBShardFile.shardHash := by
  have hm : (sources.map file).map MDBShardFile.shardHash = sources.map shardHash := by
    rw [map_map]
    rfl
  rw [← hm,← (hig.map MDBShardFile.shardHash).mem_iff]
  change h ∈ (m.ingestedShards.filter fun sfi =>
    decide (sfi.shardHash ∉ m.destShards.map MDBShardFile.shardHash)).map MDBShardFile.shardHash ↔ _
  constructor
  · intro hmem
    obtain ⟨s,hs,rfl⟩ := mem_map.mp hmem
    obtain ⟨hs,hd⟩ := mem_filter.mp hs
    exact ⟨mem_map_of_mem hs,of_decide_eq_true hd⟩
  · rintro ⟨hmem,hd⟩
    obtain ⟨s,hs,rfl⟩ := mem_map.mp hmem
    exact mem_map_of_mem (mem_filter.mpr ⟨hs,decide_eq_true hd⟩)

theorem SourcesIn.nodup_obsolete (hin : SourcesIn cfg sources names directory)
    (hig : m.ingestedShards.Perm (sources.map file)) :
    ((ConsolidationConfig.mergeResult m).obsoleteShards.map MDBShardFile.shardHash).Nodup := by
  have hn : (m.ingestedShards.map MDBShardFile.shardHash).Nodup := by
    rw [(hig.map _).nodup_iff,map_map]
    exact hin.nodup
  exact hn.sublist (filter_sublist.map _)

theorem Written.mem_of_obsolete (hw : Written cfg sources m)
    (hig : m.ingestedShards.Perm (sources.map file)) :
    ∀ s ∈ (ConsolidationConfig.mergeResult m).obsoleteShards, s.shardHash ∈ m.directory := by
  intro s hs
  obtain ⟨t,ht,heq⟩ := mem_map.mp ((mem_obsolete hig).mp (mem_map_of_mem hs)).1
  rw [← heq,Std.ExtTreeMap.mem_iff_isSome_getElem?,hw.kept t ht]
  rfl

end Obsolete

theorem consolidation_leaves_returned (hin : SourcesIn cfg sources names directory)
    (hc : Compatible cfg sources) :
    ∃ result merged left, cfg.mergeShards names directory = .ok (result,merged) ∧
      cfg.consolidateShardsInDirectory names directory = .ok (result.mergedShards,left) ∧
      Consolidated cfg sources result.mergedShards result.skippedShards left := by
  obtain ⟨m,hmerge,hwritten,hingested,hskipped⟩ := hin.mergeShards_eq hc
  obtain ⟨left,hleft⟩ : ∃ left, left = m.directory.eraseAll
    ((ConsolidationConfig.mergeResult m).obsoleteShards.map MDBShardFile.shardHash) := ⟨_,rfl⟩
  have hremove : (ConsolidationConfig.mergeResult m).obsoleteShards.foldlM cfg.removeObsolete
    m.directory = .ok left :=
    hleft ▸ foldlM_removeObsolete (hin.nodup_obsolete hingested) (hwritten.mem_of_obsolete hingested)
  -- What is left is what was written.
  have hget : ∀ h, left[h]? = if h ∈ m.destShards.map MDBShardFile.shardHash then m.directory[h]?
    else none := by
    intro h
    rw [hleft,getElem?_eraseAll]
    by_cases hdest : h ∈ m.destShards.map MDBShardFile.shardHash
    · rw [if_pos hdest,if_neg fun hobs => (mem_obsolete hingested).mp hobs |>.2 hdest]
    · rw [if_neg hdest]
      by_cases hsource : h ∈ sources.map shardHash
      · rw [if_pos ((mem_obsolete hingested).mpr ⟨hsource,hdest⟩)]
      · rw [if_neg fun hobs => hsource ((mem_obsolete hingested).mp hobs).1]
        refine Std.ExtTreeMap.getElem?_eq_none fun hin' => ?_
        obtain ⟨s,hs,rfl⟩ | ⟨d,hd,rfl⟩ := hwritten.only h hin'
        · exact hsource (mem_map_of_mem hs)
        · exact hdest (mem_map_of_mem hd)
  refine ⟨_,_,left,hmerge,?_,?_,?_⟩
  · rw [ConsolidationConfig.consolidateShardsInDirectory,hmerge,ok_bind]
    dsimp only
    rw [hremove]
    rfl
  · intro h
    have hdest : (∃ s ∈ (ConsolidationConfig.mergeResult m).mergedShards, s.shardHash = h) ↔
        h ∈ m.destShards.map MDBShardFile.shardHash := mem_map.symm
    have hnone : ¬∃ s ∈ (ConsolidationConfig.mergeResult m).skippedShards, s.shardHash = h := by
      rintro ⟨s,hs,-⟩
      rw [show (ConsolidationConfig.mergeResult m).skippedShards = [] from hskipped] at hs
      cases hs
    rw [hdest,or_iff_left hnone,Std.ExtTreeMap.mem_iff_isSome_getElem?,hget]
    by_cases hmem : h ∈ m.destShards.map MDBShardFile.shardHash
    · obtain ⟨d,hd,hhash⟩ := mem_map.mp hmem
      obtain ⟨bytes,hbytes,-⟩ := hwritten.dest d hd
      rw [if_pos hmem,← hhash,hbytes]
      exact iff_of_true rfl (mem_map_of_mem hd)
    · rw [if_neg hmem]
      exact iff_of_false Bool.false_ne_true hmem
  · intro d hd
    have hmem : d.shardHash ∈ m.destShards.map MDBShardFile.shardHash := mem_map_of_mem hd
    obtain ⟨bytes,hbytes,hbounded⟩ := hwritten.dest d hd
    exact ⟨bytes,by rw [hget,if_pos hmem,hbytes],hbounded⟩

end Consolidation

section Example

/-- A sort that moves one entry after the other to its place. -/
def KeySort.insertion (ν : Type) : KeySort ν where
  sort l := l.insertionSort fun a b => a.1 ≤ b.1
  perm l := List.perm_insertionSort _ l
  sorted l := by
    have : Std.Total fun a b : ℕ × ν => a.1 ≤ b.1 := ⟨fun a b => Nat.le_total a.1 b.1⟩
    have : IsTrans (ℕ × ν) fun a b => a.1 ≤ b.1 := ⟨fun a b c => Nat.le_trans⟩
    exact List.pairwise_insertionSort _ l

variable (sources : List FullSource)

/-- Names for the sources, and one name for everything else. -/
def nameOf (other : DataHash) (bytes : Bytes) : DataHash :=
  ((sources.find? fun s => s.bytes = bytes).map shardHash).getD other

def directoryOf : ShardDirectory :=
  sources.foldl (fun d s => d.insert s.shardHash s.bytes) ∅

def exampleConfig (targetMaxSize : ℕ) : ConsolidationConfig where
  targetMaxSize := targetMaxSize
  skipOnError := true
  currentTime := 1700000000
  expirationBuffer := 604800
  lastModifiedTime h := h.w0.toNat
  sortByTime := KeySort.insertion _
  heap := KeySort.insertion _
  sorter := KeySort.insertion _
  computeDataHash := nameOf sources default

theorem sourcesIn_directoryOf {sources : List FullSource} {targetMaxSize : ℕ}
    (hn : (sources.map shardHash).Nodup) (ho : default ∉ sources.map shardHash)
    (hcu : ∀ s ∈ sources, (1700000000 : UInt64) ≤ s.info.metadata.shardKeyExpiry) :
    SourcesIn (exampleConfig sources targetMaxSize) sources (sources.map shardHash)
      (directoryOf sources) where
  nodup := hn
  names_perm := Perm.refl _
  files s hs := getElem?_foldl_insert_of_mem hn hs ∅
  only h hmem := by
    by_contra hnt
    have hno : (directoryOf sources)[h]? = (∅ : ShardDirectory)[h]? :=
      getElem?_foldl_insert_of_notMem (fun hm => hnt (mem_map.mp hm)) ∅
    rw [Std.ExtTreeMap.mem_iff_isSome_getElem?,hno] at hmem
    cases hmem
  current := hcu
  noCollision info bytes hme s hs heq := by
    change nameOf sources default bytes = s.shardHash at heq
    rw [nameOf] at heq
    cases hf : sources.find? fun s => s.bytes = bytes with
    | none =>
      rw [hf] at heq
      exact absurd (mem_map.mpr ⟨s,hs,heq.symm⟩) ho
    | some t =>
      rw [hf] at heq
      have hb := find?_some hf
      obtain rfl := inj_on_of_nodup_map hn (mem_of_find?_eq_some hf) hs heq
      exact (of_decide_eq_true hb).symm

def oneFile (name : UInt64) (f : MDBFileInfo) (h : ShardRecords [f] []) : FullSource where
  shardHash := ⟨name,0,0,0⟩
  info := (writtenShard (KeySort.insertion _) [f] []).1
  bytes := (writtenShard (KeySort.insertion _) [f] []).2
  files := [f]
  xorbs := []
  full := fullShard_writtenShard h

theorem shardRecords_singleton {f : MDBFileInfo} (hf : f.WellFormed)
    (hlt : 1 + f.metadata.numFollowing < 2 ^ 32) :
    ShardRecords [f] [] where
  files := forall_mem_singleton.mpr hf
  xorbs := by simp
  files_ordered := pairwise_singleton _ _
  xorbs_ordered := Pairwise.nil
  fileRecords_lt := by rwa [map_singleton,sum_singleton]
  xorbRecords_lt := by decide

def emptyWithExt : MDBFileInfo where
  metadata := { fileHash := ⟨7,0,0,0⟩, fileFlags :=
    FileDataSequenceHeader.flagsOf false true, numEntries := 0 }
  metadataExt := some {}

def nineVerified : MDBFileInfo where
  metadata := { fileHash := ⟨7,0,0,0⟩, fileFlags :=
    FileDataSequenceHeader.flagsOf true false, numEntries := 9 }
  segments := List.replicate 9 {}
  verification := List.replicate 9 {}

def elevenSegments : MDBFileInfo where
  metadata := { fileHash := ⟨8,0,0,0⟩, fileFlags := 0, numEntries := 11 }
  segments := List.replicate 11 {}

def firstShard : FullSource := oneFile 1 emptyWithExt (shardRecords_singleton (by decide) (by decide))

def secondShard : FullSource := oneFile 2 nineVerified (shardRecords_singleton (by decide) (by decide))

def thirdShard : FullSource := oneFile 3 elevenSegments (shardRecords_singleton (by decide) (by decide))

/-- The record with the verification comes first, so that the two records of its file are merged
into a well formed one. The last shard does not fit behind them. -/
def verifiedFirst : List FullSource :=
  [secondShard,oneFile 3 emptyWithExt (shardRecords_singleton (by decide) (by decide)),
    oneFile 4 elevenSegments (shardRecords_singleton (by decide) (by decide))]

theorem consolidation_leaves_returned_three : ∃ result merged left,
      (exampleConfig verifiedFirst 1568).mergeShards (verifiedFirst.map shardHash)
        (directoryOf verifiedFirst) = .ok (result,merged) ∧
      (exampleConfig verifiedFirst 1568).consolidateShardsInDirectory (verifiedFirst.map shardHash)
        (directoryOf verifiedFirst) = .ok (result.mergedShards,left) ∧
      Consolidated (exampleConfig verifiedFirst 1568) verifiedFirst result.mergedShards
        result.skippedShards left := by
  have hunites : ∀ order ∈ verifiedFirst.permutations',
      (order.Pairwise fun s t => s.shardHash.w0.toNat ≤ t.shardHash.w0.toNat) →
        UnitesInOrder 1568 order := by decide +kernel
  exact consolidation_leaves_returned
    (sourcesIn_directoryOf (by decide) (by decide) (by decide +kernel))
    { target_lt := by decide
      bytes_lt := by decide +kernel
      unites := fun order hperm => hunites order (mem_permutations'.mpr hperm) }

theorem merged_shard_exceeds_target :
    SourcesIn (exampleConfig [firstShard,secondShard,thirdShard] 1568) [firstShard,secondShard,thirdShard]
        [⟨1,0,0,0⟩,⟨2,0,0,0⟩,⟨3,0,0,0⟩] (directoryOf [firstShard,secondShard,thirdShard]) ∧
      ∃ returned left, (exampleConfig [firstShard,secondShard,thirdShard]
        1568).consolidateShardsInDirectory
          [⟨1,0,0,0⟩,⟨2,0,0,0⟩,⟨3,0,0,0⟩] (directoryOf [firstShard,secondShard,thirdShard]) =
            .ok (returned,left) ∧
        ∃ s ∈ returned, ∃ bytes, left[s.shardHash]? = some bytes ∧ bytes.length = 1580 ∧
          ¬ Bounded (exampleConfig [firstShard,secondShard,thirdShard] 1568)
            [firstShard,secondShard,thirdShard] bytes := by
  refine ⟨sourcesIn_directoryOf (by decide) (by decide) (by decide +kernel),?_⟩
  have hlengths : ((exampleConfig [firstShard,secondShard,thirdShard] 1568).consolidateShardsInDirectory
      [⟨1,0,0,0⟩,⟨2,0,0,0⟩,⟨3,0,0,0⟩] (directoryOf [firstShard,secondShard,thirdShard])).toOption.map
        (fun r => r.1.map fun s => (r.2[s.shardHash]?).map List.length) = some [some 1580] := by
          decide +kernel
  have hsources : ∀ s ∈ [firstShard,secondShard,thirdShard], s.bytes.length ≠ 1580 := by decide +kernel
  obtain ⟨⟨returned,left⟩,hok,hlengths⟩ := Option.map_eq_some_iff.mp hlengths
  obtain ⟨s,rest,rfl,hs,-⟩ := map_eq_cons_iff.mp hlengths
  obtain ⟨bytes,hbytes,hlength⟩ := Option.map_eq_some_iff.mp hs
  refine ⟨s :: rest,left,toOption_eq_some.mp hok,s,mem_cons_self,bytes,hbytes,hlength,?_⟩
  rintro (hle | ⟨t,ht,rfl⟩)
  · exact absurd (hlength ▸ hle) (by decide)
  · exact hsources t ht hlength

end Example

end XetCore.Shard
