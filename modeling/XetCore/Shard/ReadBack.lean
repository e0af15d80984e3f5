import XetCore.Shard.SerializeFrom

/-! # Reading a written shard

The views that are read from a written shard are those of its records, in their order.
-/
namespace XetCore.Shard
open ByteSources ByteSource Serialization List
open Merkle (DataHash)

section Views
variable {fs : List MDBFileInfo} {xs : List MDBXorbInfo}

def fileViews (fs : List MDBFileInfo) (h : ∀ f ∈ fs, f.WellFormed) : List MDBFileInfoView :=
  fs.pmap (fun _ hf => MDBFileInfo.WellFormed.view hf) h

def xorbViews (xs : List MDBXorbInfo) (h : ∀ x ∈ xs, x.WellFormed) : List MDBXorbInfoView :=
  xs.pmap (fun _ hx => MDBXorbInfo.WellFormed.view hx) h

theorem fileViews_map {α : Type} (g : FileDataSequenceHeader → Bytes → α) (h : ∀ f ∈ fs, f.WellFormed) :
    (fileViews fs h).map (fun v => g v.header v.data) = fs.map fun f => g f.metadata f.serialize := by
  rw [fileViews,map_pmap]
  exact pmap_eq_map (f := fun f : MDBFileInfo => g f.metadata f.serialize) h

theorem xorbViews_map {α : Type} (g : XorbChunkSequenceHeader → Bytes → α) (h : ∀ x ∈ xs, x.WellFormed) :
    (xorbViews xs h).map (fun v => g v.header v.data) = xs.map fun x => g x.metadata x.serialize := by
  rw [xorbViews,map_pmap]
  exact pmap_eq_map (f := fun x : MDBXorbInfo => g x.metadata x.serialize) h

theorem fileViews_data (h : ∀ f ∈ fs, f.WellFormed) :
    (fileViews fs h).flatMap MDBFileInfoView.data = fs.flatMap MDBFileInfo.serialize := by
  exact congrArg List.flatten (fileViews_map (fun _ data => data) h)

theorem xorbViews_data (h : ∀ x ∈ xs, x.WellFormed) :
    (xorbViews xs h).flatMap MDBXorbInfoView.data = xs.flatMap MDBXorbInfo.serialize := by
  exact congrArg List.flatten (xorbViews_map (fun _ data => data) h)

theorem exact_fileViews (h : ∀ f ∈ fs, f.WellFormed) : ∀ v ∈ fileViews fs h, fileInfoKind.Exact v := by
  intro v hv
  obtain ⟨f,hf,rfl⟩ := mem_pmap.mp hv
  exact (h f hf).exact_view

theorem exact_xorbViews (h : ∀ x ∈ xs, x.WellFormed) : ∀ v ∈ xorbViews xs h, xorbInfoKind.Exact v := by
  intro v hv
  obtain ⟨x,hx,rfl⟩ := mem_pmap.mp hv
  exact (h x hx).exact_view

theorem exists_fileViews {vs : List MDBFileInfoView} (h : ∀ v ∈ vs, fileInfoKind.Exact v) :
    ∃ (fs : List MDBFileInfo) (hfs : ∀ f ∈ fs, f.WellFormed), vs = fileViews fs hfs := by
  induction vs with
  | nil => exact ⟨[],by simp,rfl⟩
  | cons v vs ih =>
    obtain ⟨hv,hvs⟩ := forall_mem_cons.mp h
    obtain ⟨f,hf,rfl⟩ := exact_fileInfoView hv
    obtain ⟨fs,hfs,rfl⟩ := ih hvs
    exact ⟨f :: fs,forall_mem_cons.mpr ⟨hf,hfs⟩,rfl⟩

theorem exists_xorbViews {vs : List MDBXorbInfoView} (h : ∀ v ∈ vs, xorbInfoKind.Exact v) :
    ∃ (xs : List MDBXorbInfo) (hxs : ∀ x ∈ xs, x.WellFormed), vs = xorbViews xs hxs := by
  induction vs with
  | nil => exact ⟨[],by simp,rfl⟩
  | cons v vs ih =>
    obtain ⟨hv,hvs⟩ := forall_mem_cons.mp h
    obtain ⟨x,hx,rfl⟩ := exact_xorbInfoView hv
    obtain ⟨xs,hxs,rfl⟩ := ih hvs
    exact ⟨x :: xs,forall_mem_cons.mpr ⟨hx,hxs⟩,rfl⟩

end Views

namespace MDBMinimalShard
variable {sorter : KeySort (ℕ × ℕ)} {mdb : MDBInMemoryShard} {expiry : Option UInt64}
  {info : MDBShardInfo}
  {out : Bytes}

theorem fromReader_written (hm : mdb.WellFormed)
    (ho : MDBShardInfo.serializeFrom sorter mdb expiry = .ok (info,out))
    (includeFiles includeXorb : Bool) : ((fromReader includeFiles includeXorb).run out).map Prod.fst =
      .ok ⟨if includeFiles then fileViews mdb.files hm.files else [],
        if includeXorb then xorbViews mdb.xorbs hm.xorbs else []⟩ := by
  obtain ⟨rest,rfl⟩ := MDBInMemoryShard.serializeFrom_sections ho
  have hn : ((fileViews mdb.files hm.files).map MDBFileInfoView.fileHash).Nodup := by
    have hma := fileViews_map (fun header _ => header.fileHash) hm.files
    exact hma ▸ mdb.files_nodup
  have hr := fromReader_sections includeFiles includeXorb (exact_fileViews hm.files)
    (exact_xorbViews hm.xorbs)
    hn {} rest
  rwa [fileViews_data,xorbViews_data] at hr

/-- With the same bytes, the two readers return the same shard or both fail, except that the
asynchronous one refuses a shard where only some of the files have verification. From a written
shard of well-formed records, the files and xorbs are those written, in the same order. -/
theorem readers_agree (sorter : KeySort (ℕ × ℕ)) (includeFiles includeXorb : Bool) {σ τ : Type}
    [ByteSource σ]
    [ByteSource τ] {s : σ} {t : τ} (hbytes : bytes s = bytes t) :
    (((fromReaderAsync includeFiles includeXorb).run t).map Prod.fst).toOption =
      (((fromReader includeFiles includeXorb).run s).map Prod.fst).toOption.filter
        (fun m => m.VerificationUniform) ∧
    ∀ (mdb : MDBInMemoryShard) (expiry : Option UInt64) (info : MDBShardInfo), mdb.WellFormed →
      MDBShardInfo.serializeFrom sorter mdb expiry = .ok (info,bytes s) →
      ∃ m, ((fromReader includeFiles includeXorb).run s).map Prod.fst = .ok m ∧
        m.fileInfoViews.map (fun v => (v.header,v.data)) =
          (if includeFiles then mdb.files.map fun f => (f.metadata,f.serialize) else []) ∧
        m.xorbInfoViews.map (fun v => (v.header,v.data)) =
          (if includeXorb then mdb.xorbs.map fun x => (x.metadata,x.serialize) else []) := by
  refine ⟨async_result includeFiles includeXorb hbytes,fun mdb expiry info hmdb hout => ?_⟩
  have hread := (follows_fromReader includeFiles includeXorb).result_eq s
  rw [fromReader_written hmdb hout] at hread
  refine ⟨_,hread,?_,?_⟩
  · cases includeFiles with
    | true => exact fileViews_map Prod.mk hmdb.files
    | false => rfl
  · cases includeXorb with
    | true => exact xorbViews_map Prod.mk hmdb.xorbs
    | false => rfl

def smallXorb : MDBXorbInfo := ⟨{ numEntries := 1 },[{}]⟩

def smallFile : MDBFileInfo where
  metadata := { fileHash := ⟨1,0,0,0⟩, numEntries := 1 }
  segments := [{}]

theorem readers_agree_one_xorb :
    ∃ (mdb : MDBInMemoryShard) (written : MDBShardInfo × Bytes) (m : MDBMinimalShard),
    (MDBInMemoryShard.empty.addXorbBlock smallXorb).addFileReconstructionInfo smallFile = .ok mdb ∧
    MDBShardInfo.serializeFrom (.stable _) mdb none = .ok written ∧
    ((fromReader true true).run written.2).map Prod.fst = .ok m ∧
    ((fromReaderAsync true true).run written.2).map Prod.fst = .ok m ∧
    m.fileInfoViews.map (fun v => (v.header,v.data)) = [(smallFile.metadata,smallFile.serialize)] ∧
    m.xorbInfoViews.map (fun v => (v.header,v.data)) = [(smallXorb.metadata,smallXorb.serialize)] := by
  have h : (do
      let mdb ← (MDBInMemoryShard.empty.addXorbBlock smallXorb).addFileReconstructionInfo smallFile
      let written ← MDBShardInfo.serializeFrom (.stable _) mdb none
      let m ← ((fromReader true true).run written.2).map Prod.fst
      return decide (mdb.WellFormed ∧ mdb.files = [smallFile] ∧ mdb.xorbs = [smallXorb] ∧
        m.VerificationUniform) : Result Bool) = .ok true := by decide +kernel
  simp only [bind_eq_ok] at h
  obtain ⟨mdb,hmdb,written,hwritten,m,hm,hresult⟩ := h
  obtain ⟨hwell,hfiles,hxorbs,huniform⟩ := of_decide_eq_true (Except.ok.inj hresult)
  obtain ⟨hasync,hback⟩ := readers_agree (.stable _) true true (s := written.2) rfl
  obtain ⟨m',hm',hf,hx⟩ := hback mdb none written.1 hwell hwritten
  cases hm.symm.trans hm'
  rw [hm] at hasync
  rw [hfiles] at hf
  rw [hxorbs] at hx
  have hsame : (Except.ok m : Result _).toOption.filter (fun m => m.VerificationUniform) = some m :=
    Option.filter_some_pos (decide_eq_true huniform)
  exact ⟨mdb,written,m,hmdb,hwritten,hm,toOption_eq_some.mp (hasync.trans hsame),hf,hx⟩

/-- A header that counts no segments before a segment: the segment is read as a second file. -/
theorem readers_disagree_with_header :
    ∃ (mdb : MDBInMemoryShard) (written : MDBShardInfo × Bytes) (m : MDBMinimalShard),
    MDBInMemoryShard.empty.addFileReconstructionInfo
      { metadata := { fileHash := ⟨1,0,0,0⟩ }, segments := [{}] } =
      .ok mdb ∧
    MDBShardInfo.serializeFrom (.stable _) mdb none = .ok written ∧
    ((fromReader true true).run written.2).map Prod.fst = .ok m ∧
    ((fromReaderAsync true true).run written.2).map Prod.fst = .ok m ∧
    mdb.files.length = 1 ∧ m.fileInfoViews.length = 2 := by
  have h : (do
      let mdb ← MDBInMemoryShard.empty.addFileReconstructionInfo
        { metadata := { fileHash := ⟨1,0,0,0⟩ }, segments := [{}] }
      let written ← MDBShardInfo.serializeFrom (.stable _) mdb none
      let m ← ((fromReader true true).run written.2).map Prod.fst
      let n ← ((fromReaderAsync true true).run written.2).map Prod.fst
      return decide (n = m ∧ mdb.files.length = 1 ∧ m.fileInfoViews.length = 2) : Result Bool) =
        .ok true := by
    decide +kernel
  simp only [bind_eq_ok] at h
  obtain ⟨mdb,hmdb,written,hwritten,m,hm,n,hn,hresult⟩ := h
  obtain ⟨rfl,hfiles,hviews⟩ := of_decide_eq_true (Except.ok.inj hresult)
  exact ⟨mdb,written,n,hmdb,hwritten,hm,hn,hfiles,hviews⟩

end MDBMinimalShard

end XetCore.Shard
