import XetCore.Shard.MinimalRoundTrip

/-! # Chunks that are eligible for global deduplication

A chunk is eligible by its hash, by its flag or because a file starts with it. Writing only
some of the xorbs, without the files, keeps their eligible chunks.
-/
namespace XetCore.Shard
open ByteSources ByteSource Serialization List
open Merkle (DataHash)

theorem foldlM_insert {α β : Type} {step : Finset β → α → Result (Finset β)} {P : α → β → Prop}
    {l : List α}
    (hs : ∀ a ∈ l, ∀ ret, ∃ S, step ret a = .ok S ∧ ∀ b, b ∈ S ↔ b ∈ ret ∨ P a b) (ret : Finset β) :
    ∃ S, l.foldlM step ret = .ok S ∧ ∀ b, b ∈ S ↔ b ∈ ret ∨ ∃ a ∈ l, P a b := by
  induction l generalizing ret with
  | nil => exact ⟨ret,rfl,by simp⟩
  | cons a l ih =>
    obtain ⟨ha,hl⟩ := forall_mem_cons.mp hs
    obtain ⟨S₁,hf,hmem₁⟩ := ha ret
    obtain ⟨S,hr,hmem⟩ := ih hl S₁
    refine ⟨S,by rw [foldlM_cons,hf,ok_bind,hr],fun b => ?_⟩
    rw [hmem,hmem₁,or_assoc]
    simp

namespace MDBMinimalShard
variable {fs : List MDBFileInfo} {xs : List MDBXorbInfo} {x : MDBXorbInfo} {f : MDBFileInfo}

theorem insertFileStarts_view (h : x.WellFormed) (ret : Finset DataHash) (fse : List ℕ) :
    ∃ S, insertFileStarts h.view ret fse = .ok S ∧
      ∀ hash, hash ∈ S ↔ hash ∈ ret ∨ ∃ i ∈ fse, ∃ c, x.chunks[i]? = some c ∧ c.chunkHash = hash := by
  refine foldlM_insert (fun i _ ret => ?_) ret
  by_cases hi : i < x.chunks.length
  · refine ⟨_,by rw [h.numEntries_view,if_pos hi,h.chunk_view hi]; rfl,fun hash => ?_⟩
    rw [getElem?_eq_getElem hi,Finset.mem_insert,or_comm]
    simp [eq_comm]
  · refine ⟨ret,by rw [h.numEntries_view,if_neg hi]; rfl,fun hash => ?_⟩
    rw [getElem?_eq_none (Nat.le_of_not_lt hi)]
    simp

theorem insertEligible_view (h : x.WellFormed) (ret : Finset DataHash) :
    ∃ S, insertEligible h.view ret = .ok S ∧
      ∀ hash, hash ∈ S ↔ hash ∈ ret ∨ ∃ i ∈ List.range x.chunks.length, ∃ c, x.chunks[i]? = some c ∧
        c.isGlobalDedupEligible = true ∧ c.chunkHash = hash := by
  rw [insertEligible,h.numEntries_view]
  refine foldlM_insert (fun i hmem ret => ?_) ret
  have hi := mem_range.mp hmem
  refine ⟨_,by rw [h.chunk_view hi]; rfl,fun hash => ?_⟩
  rw [getElem?_eq_getElem hi]
  cases hc : x.chunks[i].isGlobalDedupEligible with
  | true =>
    rw [if_pos rfl,Finset.mem_insert,or_comm]
    refine or_congr_right ⟨fun heq => ⟨_,rfl,hc,heq.symm⟩,?_⟩
    rintro ⟨_,hs,-,heq⟩
    cases hs
    exact heq.symm
  | false => simp [hc]

/-- A chunk of a xorb that is eligible in view of these files. -/
def EligibleIn (fs : List MDBFileInfo) (x : MDBXorbInfo) (hash : DataHash) : Prop :=
  ∃ i c, x.chunks[i]? = some c ∧ c.chunkHash = hash ∧
    (i ∈ startIndices fs x.metadata.xorbHash ∨ c.isGlobalDedupEligible = true)

theorem eligible_views (hfs : ∀ f ∈ fs, f.WellFormed) (hxs : ∀ x ∈ xs, x.WellFormed) :
    ∃ S, (MDBMinimalShard.mk (fileViews fs hfs) (xorbViews xs hxs)).globalDedupEligibleChunks = .ok S ∧
      ∀ hash, hash ∈ S ↔ ∃ x ∈ xs, EligibleIn fs x hash := by
  obtain ⟨starts,hst,hmem⟩ := fileStartEntries_views hfs (xorbViews xs hxs)
  have hsp : ∀ x ∈ xs.attach, ∀ ret, ∃ S, (do
      let ret ← insertFileStarts (hxs x.1 x.2).view ret ((starts[(hxs x.1 x.2).view.xorbHash]?).getD [])
      insertEligible (hxs x.1 x.2).view ret) = .ok S ∧ ∀ hash, hash ∈ S ↔ hash ∈ ret ∨
        EligibleIn fs x.1 hash := by
    rintro ⟨x,hx⟩ - ret
    have h := hxs x hx
    obtain ⟨S₁,hfi,hmem₁⟩ := insertFileStarts_view h ret ((starts[x.metadata.xorbHash]?).getD [])
    obtain ⟨S,hs,hmem₂⟩ := insertEligible_view h S₁
    refine ⟨S,?_,fun hash => ?_⟩
    · change (insertFileStarts h.view ret ((starts[x.metadata.xorbHash]?).getD []) >>=
        insertEligible h.view) = .ok S
      rw [hfi,ok_bind,hs]
    · rw [hmem₂,hmem₁,or_assoc]
      refine or_congr_right ⟨?_,?_⟩
      · rintro (⟨i,hi,c,hc,hh⟩ | ⟨i,-,c,hc,hf,hh⟩)
        · exact ⟨i,c,hc,hh,.inl ((hmem _ i).mp hi)⟩
        · exact ⟨i,c,hc,hh,.inr hf⟩
      · rintro ⟨i,c,hc,hh,hi | hf⟩
        · exact .inl ⟨i,(hmem _ i).mpr hi,c,hc,hh⟩
        · obtain ⟨hlt,-⟩ := List.getElem?_eq_some_iff.mp hc
          exact .inr ⟨i,mem_range.mpr hlt,c,hc,hf,hh⟩
  obtain ⟨S,hS,ha⟩ := foldlM_insert hsp ∅
  refine ⟨S,?_,fun hash => ?_⟩
  · rw [globalDedupEligibleChunks,hst,ok_bind,← hS]
    rw [xorbViews,pmap_eq_map_attach,foldlM_map]
  · rw [ha]
    simp

theorem eligibleIn_flaggedAt {starts : DataHash → List ℕ} (hs : ∀ hash i, i ∈ starts hash ↔
    i ∈ startIndices fs hash)
    (x : MDBXorbInfo) (hash : DataHash) :
    EligibleIn [] (x.flaggedAt (starts x.metadata.xorbHash)) hash ↔ EligibleIn fs x hash := by
  unfold EligibleIn MDBXorbInfo.flaggedAt
  simp only [getElem?_mapIdx,Option.map_eq_some_iff]
  constructor
  · rintro ⟨i,_,⟨c,hc,rfl⟩,hh,hst | hf⟩
    · cases hst
    · rw [rewriteChunk_hash] at hh
      rw [rewriteChunk_eligible,hs] at hf
      exact ⟨i,c,hc,hh,hf⟩
  · rintro ⟨i,c,hc,hh,he⟩
    refine ⟨i,_,⟨c,hc,rfl⟩,(rewriteChunk_hash _ _ _).trans hh,.inr ?_⟩
    rw [rewriteChunk_eligible,hs]
    exact he

/-- The same file: its hash, its segments, its extension and, unless it is dropped, its
verification. -/
structure SameFile (withVerification : Bool) (v' v : MDBFileInfoView) : Prop where
  hash : v'.fileHash = v.fileHash
  segments : ∃ entries, v'.entries = .ok entries ∧ v.entries = .ok entries
  metadataExt : ∃ ext, v'.metadataExt = .ok ext ∧ v.metadataExt = .ok ext
  verification : ∃ entries, v.verifications = .ok entries ∧
    v'.verifications = .ok (if withVerification then entries else [])

/-- The same xorb up to the flags for global deduplication. -/
structure SameXorb (v' v : MDBXorbInfoView) : Prop where
  header : v'.header = v.header
  chunks : ∃ cs' cs, v'.chunks = .ok cs' ∧ v.chunks = .ok cs ∧ List.Forall₂ SameUpToFlag cs' cs

theorem sameFile_written (h : f.WellFormed) (withVerification : Bool) :
    SameFile withVerification (h.written withVerification).view h.view := by
  have hh : (f.written withVerification).metadata.fileHash = f.metadata.fileHash := by
    unfold MDBFileInfo.written
    split <;> rfl
  have hs : (f.written withVerification).segments = f.segments := by
    unfold MDBFileInfo.written
    split <;> rfl
  have he : (f.written withVerification).metadataExt = f.metadataExt := by
    unfold MDBFileInfo.written
    split <;> rfl
  have hve : (f.written withVerification).verification = if withVerification then f.verification
    else [] := by
    cases withVerification with
    | true => rfl
    | false =>
      unfold MDBFileInfo.written
      have hlen := h.verification_length
      cases hv : f.containsVerification with
      | true => rfl
      | false =>
        rw [hv] at hlen
        exact length_eq_zero_iff.mp hlen
  refine ⟨hh,⟨_,(h.written withVerification).entries_view,?_⟩,
    ⟨_,(h.written withVerification).metadataExt_view,?_⟩,⟨_,h.verifications_view,?_⟩⟩
  · rw [hs,h.entries_view]
  · rw [he,h.metadataExt_view]
  · rw [(h.written withVerification).verifications_view,hve]
    cases withVerification <;> rfl

theorem sameXorb_flaggedAt (h : x.WellFormed) (indices : List ℕ) :
    SameXorb (h.flaggedAt indices).view h.view := by
  refine ⟨rfl,_,_,(h.flaggedAt indices).chunks_view,h.chunks_view,?_⟩
  refine forall₂_iff_get.mpr ⟨by simp [MDBXorbInfo.flaggedAt],fun i h₁ h₂ => ?_⟩
  simp only [MDBXorbInfo.flaggedAt,get_eq_getElem,getElem_mapIdx]
  exact rewriteChunk_same indices i _

theorem forall₂_pmap {α β : Type} {P : α → Prop} {view : ∀ a, P a → β} {g : α → α}
    {R : β → β → Prop} {l : List α}
    (hP : ∀ a ∈ l, P a) (hPg : ∀ a ∈ l.map g, P a)
    (hR : ∀ a ∈ l, ∀ (ha : P a) (hg : P (g a)), R (view _ hg) (view a ha)) :
    List.Forall₂ R ((l.map g).pmap view hPg) (l.pmap view hP) := by
  induction l with
  | nil => exact .nil
  | cons a l ih =>
    obtain ⟨ha,hl⟩ := forall_mem_cons.mp hP
    obtain ⟨hg,hgl⟩ := forall_mem_cons.mp hPg
    obtain ⟨hRa,hRl⟩ := forall_mem_cons.mp hR
    exact .cons (hRa ha hg) (ih hl hgl hRl)

theorem numFollowing_written (f : MDBFileInfo) (withVerification : Bool) :
    (f.written withVerification).metadata.numFollowing = f.metadata.numEntries.toNat +
      (if withVerification && f.metadata.containsVerification then f.metadata.numEntries.toNat else 0) +
      (if f.metadata.containsMetadataExt then 1 else 0) := by
  unfold MDBFileInfo.written MDBFileInfo.containsVerification
  split
  · rename_i hd
    rw [FileDataSequenceHeader.numFollowing,containsVerification_flagsOf,containsMetadataExt_flagsOf]
    obtain ⟨hw,-⟩ := Bool.and_eq_true_iff.mp hd
    have hno : withVerification = false := by simpa using hw
    rw [hno]
    rfl
  · rename_i hk
    rw [FileDataSequenceHeader.numFollowing]
    cases withVerification with
    | true => rfl
    | false =>
      have hn : f.metadata.containsVerification = false := by simpa using hk
      rw [hn]
      rfl

theorem length_written (h : f.WellFormed) (withVerification : Bool) :
    (f.written withVerification).serialize.length = h.view.byteSize withVerification := by
  rw [(h.written withVerification).length_serialize,numFollowing_written,MDBFileInfoView.byteSize,
    Nat.mul_comm,← Nat.add_assoc,← Nat.add_assoc]
  rfl

section Parsed
variable {m : MDBMinimalShard} {withFileSection withVerification : Bool}
  {xorbFilter : MDBXorbInfoView → Bool}

/-- The number of bytes of a shard of these views, written without lookup tables. -/
def sizeOf (withVerification : Bool) (files : List MDBFileInfoView) (xorbs : List MDBXorbInfoView) : ℕ :=
  48 + ((files.map fun v => v.byteSize withVerification).sum + 48) +
    ((xorbs.map MDBXorbInfoView.byteSize).sum + 48) +
    mdbShardFooterSize

theorem sum_byteSize_files (hfs : ∀ f ∈ fs, f.WellFormed) (withVerification : Bool) :
    ((fileViews fs hfs).map fun v => v.byteSize withVerification).sum =
      ((fs.map (MDBFileInfo.written withVerification)).map fun f => f.serialize.length).sum := by
  rw [fileViews,map_pmap,map_map]
  congr 1
  exact (pmap_congr_left fs fun f _ h _ => (length_written h withVerification).symm).trans
    (pmap_eq_map hfs)

theorem sum_byteSize_xorbs (hxs : ∀ x ∈ xs, x.WellFormed) (starts : DataHash → List ℕ) :
    ((xorbViews xs hxs).map MDBXorbInfoView.byteSize).sum =
      ((xs.map fun x => x.flaggedAt (starts x.metadata.xorbHash)).map fun x =>
        x.serialize.length).sum := by
  rw [xorbViews,map_pmap,map_map]
  congr 1
  refine (pmap_congr_left xs fun x _ h _ => ?_).trans (pmap_eq_map hxs)
  change 48 + x.metadata.numEntries.toNat * 48 =
    (x.flaggedAt (starts x.metadata.xorbHash)).serialize.length
  rw [MDBXorbInfo.length_serialize,MDBXorbInfo.flaggedAt,length_mapIdx,h.numEntries_eq]
  ring

theorem nodup_written (hfs : ∀ f ∈ fs, f.WellFormed)
    (hn : ((fileViews fs hfs).map MDBFileInfoView.fileHash).Nodup)
    (hw : ∀ f ∈ (if withFileSection then fs else []).map (MDBFileInfo.written withVerification),
      f.WellFormed) :
    ((fileViews _ hw).map MDBFileInfoView.fileHash).Nodup := by
  have hh : ∀ f : MDBFileInfo, (f.written withVerification).metadata.fileHash =
    f.metadata.fileHash := fun f => by
    unfold MDBFileInfo.written
    split <;> rfl
  have hm : ∀ (rs : List MDBFileInfo) (h : ∀ f ∈ rs, f.WellFormed),
      (fileViews rs h).map MDBFileInfoView.fileHash = rs.map fun f => f.metadata.fileHash :=
    fun rs h => fileViews_map (fun header _ => header.fileHash) h
  rw [hm] at hn ⊢
  rw [map_map]
  cases withFileSection with
  | true =>
    have hs : (fun f : MDBFileInfo => f.metadata.fileHash) ∘ MDBFileInfo.written withVerification =
        fun f => f.metadata.fileHash := funext hh
    rw [if_pos rfl,hs]
    exact hn
  | false => exact nodup_nil

/-- What is written is read back, with the same files and xorbs. Without files, the eligible chunks
are those of all the files and the kept xorbs. -/
theorem serializeImpl_parsed (withFileSection withVerification : Bool)
    (xorbFilter : MDBXorbInfoView → Bool) (hm : m.Loaded)
    (hvr : withFileSection = true → withVerification = true →
      ∀ v ∈ m.fileInfoViews, v.containsVerification = true)
    (ht : TotalsFit (if withFileSection then m.fileInfoViews else []) (m.xorbInfoViews.filter xorbFilter))
    (hs : sizeOf withVerification (if withFileSection then m.fileInfoViews else [])
      (m.xorbInfoViews.filter xorbFilter) < 2 ^ 64) (expiry : Option UInt64) (now : UInt64) :
    ∃ out m', m.serializeImpl withFileSection withVerification expiry now xorbFilter = .ok out ∧
      out.length = sizeOf withVerification (if withFileSection then m.fileInfoViews else [])
        (m.xorbInfoViews.filter xorbFilter) ∧
      ((fromReader true true).run out).map Prod.fst = .ok m' ∧
      List.Forall₂ (SameFile withVerification) m'.fileInfoViews
        (if withFileSection then m.fileInfoViews else []) ∧
      List.Forall₂ SameXorb m'.xorbInfoViews (m.xorbInfoViews.filter xorbFilter) ∧
      (withFileSection = false → ∃ S, m'.globalDedupEligibleChunks = .ok S ∧
        (MDBMinimalShard.mk m.fileInfoViews
          (m.xorbInfoViews.filter xorbFilter)).globalDedupEligibleChunks = .ok S) := by
  obtain ⟨fs,hfs,hfi⟩ := exists_fileViews hm.exactFiles
  obtain ⟨ks,hks,hk⟩ := exists_xorbViews fun v hv => hm.exactXorbs v (mem_of_mem_filter hv)
  have hve := fun hw hv f hf => hvr hw hv (hfs f hf).view (hfi ▸ mem_pmap.mpr ⟨f,hf,rfl⟩)
  obtain ⟨starts,hst,hip⟩ := serializeImpl_ok hfi hk hve ht expiry now
  -- the records that are written
  have hr : ∀ f ∈ (if withFileSection then fs else []), f.WellFormed := by
    cases withFileSection with
    | true => exact hfs
    | false => simp
  have hvi : (if withFileSection then m.fileInfoViews else []) = fileViews _ hr := by
    cases withFileSection with
    | true => exact hfi
    | false => rfl
  have hwr : ∀ f ∈ (if withFileSection then fs else []).map (MDBFileInfo.written withVerification),
    f.WellFormed := by
    rw [forall_mem_map]
    exact fun f hf => (hr f hf).written withVerification
  have hfl : ∀ x ∈ ks.map fun x => x.flaggedAt (starts x.metadata.xorbHash), x.WellFormed := by
    rw [forall_mem_map]
    exact fun x hx => (hks x hx).flaggedAt _
  have hn : ((fileViews _ hwr).map MDBFileInfoView.fileHash).Nodup := by
    have ha := hm.nodup
    rw [hfi] at ha
    exact nodup_written hfs ha hwr
  have hlen : (sectionBytes ((if withFileSection then fs else []).map
    (MDBFileInfo.written withVerification))
      (ks.map fun x => x.flaggedAt (starts x.metadata.xorbHash))).length + mdbShardFooterSize =
        sizeOf withVerification (fileViews _ hr) (xorbViews ks hks) := by
    rw [sizeOf,sum_byteSize_files,sum_byteSize_xorbs hks starts]
    simp [sectionBytes,Nat.add_assoc]
  rw [hvi,hk] at hs ⊢
  obtain ⟨metadata,ho⟩ := hip (by rw [hlen]; exact hs)
  have hp := fromReader_sections true true (exact_fileViews hwr) (exact_xorbViews hfl) hn {}
    metadata.serialize
  rw [fileViews_data,xorbViews_data] at hp
  refine ⟨_,⟨fileViews _ hwr,xorbViews _ hfl⟩,ho,?_,?_,forall₂_pmap hr hwr fun f _ h _ =>
    sameFile_written h withVerification,
    forall₂_pmap hks hfl fun x _ h _ => sameXorb_flaggedAt h _,?_⟩
  · rw [length_append,MDBShardFileFooter.length_serialize,hlen]
  · rw [sectionBytes,append_assoc,append_assoc]
    exact hp
  · rintro rfl
    obtain ⟨S,hS,hmem⟩ := eligible_views hfs hks
    obtain ⟨S',hS',hmem'⟩ := eligible_views hwr hfl
    have heq : S' = S := by
      ext hash
      rw [hmem,hmem']
      simp only [mem_map,exists_exists_and_eq_and]
      exact exists_congr fun x => and_congr_right fun _ => eligibleIn_flaggedAt hst x hash
    exact ⟨S,heq ▸ hS',by rw [hfi]; exact hS⟩

theorem serializedSize_eq
    (hv : withVerification = true → m.fileInfoViews ≠ [] ∧
      ∀ v ∈ m.fileInfoViews, v.containsVerification = true) :
    m.serializedSize withVerification = sizeOf withVerification m.fileInfoViews m.xorbInfoViews := by
  have hh : (withVerification && !m.hasFileVerification) = false := by
    cases withVerification with
    | false => rfl
    | true =>
      obtain ⟨hne,ha⟩ := hv rfl
      obtain ⟨v,vs,hf⟩ := exists_cons_of_ne_nil hne
      rw [hasFileVerification,hf]
      dsimp only
      rw [ha v (hf ▸ mem_cons_self)]
      rfl
  rw [serializedSize,if_neg (by rw [hh]; decide),sizeOf]
  ring

/-- A loaded shard is written in its announced size and read back, with or without verification. A
subset of its xorbs is written so that it is read back with its eligible chunks. -/
theorem serialize_round_trip {σ : Type} [ByteSource σ] {includeFiles includeXorb : Bool} {s : σ}
    {m : MDBMinimalShard}
    (hm : ((fromReader includeFiles includeXorb).run s).map Prod.fst = .ok m) (now : UInt64) :
    (∀ withVerification : Bool,
      (withVerification = true → m.fileInfoViews ≠ [] ∧
        ∀ v ∈ m.fileInfoViews, v.containsVerification = true) →
      TotalsFit m.fileInfoViews m.xorbInfoViews → m.serializedSize withVerification < 2 ^ 64 →
      ∃ out m', m.serialize withVerification now = .ok out ∧
      out.length = m.serializedSize withVerification ∧
        ((fromReader true true).run out).map Prod.fst = .ok m' ∧
        List.Forall₂ (SameFile withVerification) m'.fileInfoViews m.fileInfoViews ∧
        List.Forall₂ SameXorb m'.xorbInfoViews m.xorbInfoViews) ∧
    (∀ xorbFilter : MDBXorbInfoView → Bool, TotalsFit [] (m.xorbInfoViews.filter xorbFilter) →
      sizeOf false [] (m.xorbInfoViews.filter xorbFilter) < 2 ^ 64 →
      ∃ out m', m.serializeXorbSubsetOnly now xorbFilter = .ok out ∧
        ((fromReader true true).run out).map Prod.fst = .ok m' ∧
        m'.fileInfoViews = [] ∧
        List.Forall₂ SameXorb m'.xorbInfoViews (m.xorbInfoViews.filter xorbFilter) ∧
        ∃ S, m'.globalDedupEligibleChunks = .ok S ∧
          (MDBMinimalShard.mk m.fileInfoViews
            (m.xorbInfoViews.filter xorbFilter)).globalDedupEligibleChunks =
            .ok S) := by
  rw [(follows_fromReader includeFiles includeXorb).result_eq,map_eq_ok] at hm
  obtain ⟨⟨m₀,t⟩,hrun,hm₀⟩ := hm
  obtain rfl : m₀ = m := hm₀
  have hloaded := loaded_of_fromReader hrun
  constructor
  · intro withVerification hver htotals hsize
    have hall : m₀.xorbInfoViews.filter (fun _ => true) = m₀.xorbInfoViews := filter_true _
    have hsizeOf := serializedSize_eq hver
    rw [hsizeOf] at hsize ⊢
    obtain ⟨out,m',hout,hlen,hparse,hfiles,hxorbs,-⟩ := serializeImpl_parsed true withVerification
      (fun _ => true) hloaded (fun _ hw => (hver hw).2) (by rwa [hall]) (by rwa [hall]) none now
    rw [hall] at hlen hxorbs
    exact ⟨out,m',hout,hlen,hparse,hfiles,hxorbs⟩
  · intro xorbFilter htotals hsize
    obtain ⟨out,m',hout,-,hparse,hfiles,hxorbs,heligible⟩ := serializeImpl_parsed false false xorbFilter
      hloaded (by simp) htotals hsize none now
    exact ⟨out,m',hout,hparse,forall₂_nil_right_iff.mp hfiles,hxorbs,heligible rfl⟩

/-- A file with verification that starts with the second chunk of a xorb. -/
theorem serialize_round_trip_one_file : let f : MDBFileInfo := {
      metadata := { fileFlags := FileDataSequenceHeader.flagsOf true false, numEntries := 1 }
      segments := [{ chunkIndexStart := 1, chunkIndexEnd := 2 }]
      verification := [{}] }
    let x : MDBXorbInfo := ⟨{ numEntries := 2 },[{},{}]⟩
    let m : MDBMinimalShard := ⟨fileViews [f] (by decide),xorbViews [x] (by decide)⟩
    ∃ out m', m.serialize true 0 = .ok out ∧ out.length = 632 ∧
      ((fromReader true true).run out).map Prod.fst = .ok m' ∧
      List.Forall₂ (SameFile true) m'.fileInfoViews m.fileInfoViews ∧
      List.Forall₂ SameXorb m'.xorbInfoViews m.xorbInfoViews := by
  intro f x m
  have hread : ((fromReader true true).run (sectionBytes [f] [x])).map Prod.fst = .ok m := by
    decide +kernel
  have hsize : m.serializedSize true = 632 := by decide +kernel
  have h := (serialize_round_trip hread 0).1 true (fun _ => ⟨by decide +kernel,by decide +kernel⟩)
    ⟨⟨[0],by decide +kernel,by decide⟩,by decide +kernel,by decide +kernel⟩ (by decide)
  rwa [hsize] at h

/-- Without files, the size with verification is given as 0, but 344 bytes are written. -/
theorem serialized_size_of_no_files : ∃ out,
    ((fromReader true true).run (sectionBytes [] [])).map Prod.fst = .ok ⟨[],[]⟩ ∧
    (MDBMinimalShard.mk [] []).serialize true 0 = .ok out ∧ out.length = 344 ∧
    (MDBMinimalShard.mk [] []).serializedSize true = 0 := by
  have h : (do
      let out ← (MDBMinimalShard.mk [] []).serialize true 0
      return decide (out.length = 344) : Result Bool) = .ok true := by decide +kernel
  simp only [bind_eq_ok] at h
  obtain ⟨out,hout,hlen⟩ := h
  exact ⟨out,by decide +kernel,hout,of_decide_eq_true (Except.ok.inj hlen),rfl⟩

end Parsed

end MDBMinimalShard
end XetCore.Shard
