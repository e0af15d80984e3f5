import XetCore.Shard.ReadBack

/-! # A written shard in memory again

Reading a shard into memory makes its records anew from their views. Header fields that a
new header does not have are lost on the way, and the rest comes back.
-/
namespace XetCore.Shard
open ByteSources ByteSource Serialization List
open Merkle (DataHash)

/-- Flags and words that a record keeps when it is made anew from its view, and a count of records
in 32 bits. -/
structure MDBFileInfo.Plain (f : MDBFileInfo) : Prop where
  flags : f.metadata.fileFlags = FileDataSequenceHeader.flagsOf f.containsVerification
    f.containsMetadataExt
  unused : f.metadata.unused = 0
  verification : ∀ v ∈ f.verification, v.unused = (0,0)
  metadataExt : ∀ m ∈ f.metadataExt, m.unused = (0,0)
  counted : f.metadata.numFollowing < 2 ^ 32

def lastEnd (chunks : List XorbChunkSequenceEntry) : ℕ :=
  (chunks.getLast?.map fun c => c.chunkByteRangeStart.toNat + c.unpackedSegmentBytes.toNat).getD 0

/-- A header without flags and size on disk, whose size is where the last chunk ends. -/
structure MDBXorbInfo.Plain (x : MDBXorbInfo) : Prop where
  flags : x.metadata.xorbFlags = 0
  onDisk : x.metadata.numBytesOnDisk = 0
  size : x.metadata.numBytesInXorb.toNat = lastEnd x.chunks

instance (x : MDBXorbInfo) : Decidable x.Plain :=
  decidable_of_iff (x.metadata.xorbFlags = 0 ∧ x.metadata.numBytesOnDisk = 0 ∧
      x.metadata.numBytesInXorb.toNat = lastEnd x.chunks)
    ⟨fun ⟨h1,h2,h3⟩ => ⟨h1,h2,h3⟩,fun ⟨h1,h2,h3⟩ => ⟨h1,h2,h3⟩⟩

instance (f : MDBFileInfo) : Decidable f.Plain :=
  decidable_of_iff (f.metadata.fileFlags =
      FileDataSequenceHeader.flagsOf f.containsVerification f.containsMetadataExt ∧
        f.metadata.unused = 0 ∧
      (∀ v ∈ f.verification, v.unused = (0,0)) ∧ (∀ m ∈ f.metadataExt, m.unused = (0,0)) ∧
      f.metadata.numFollowing < 2 ^ 32)
    ⟨fun ⟨h1,h2,h3,h4,h5⟩ => ⟨h1,h2,h3,h4,h5⟩,fun ⟨h1,h2,h3,h4,h5⟩ => ⟨h1,h2,h3,h4,h5⟩⟩

def MDBFileInfo.rebuilt (f : MDBFileInfo) : MDBFileInfo :=
  { f.stripped with
    metadata := {
      fileHash := f.metadata.fileHash
      fileFlags := FileDataSequenceHeader.flagsOf f.containsVerification f.containsMetadataExt
      numEntries := f.metadata.numEntries } }

def MDBXorbInfo.rebuilt (x : MDBXorbInfo) : MDBXorbInfo where
  metadata := {
    xorbHash := x.metadata.xorbHash
    numEntries := x.metadata.numEntries
    numBytesInXorb := UInt32.ofNat (lastEnd x.chunks) }
  chunks := x.chunks

theorem numInfoEntryFollowing_ok {h : FileDataSequenceHeader} {n : ℕ} :
    h.numInfoEntryFollowing = .ok n ↔ n = h.numFollowing ∧ h.numFollowing < 2 ^ 32 := by
  unfold FileDataSequenceHeader.numInfoEntryFollowing FileDataSequenceHeader.numFollowing
  cases h.containsVerification with
  | false => simp [addU32_eq_ok]
  | true =>
    simp only [if_pos,bind_eq_ok,addU32_eq_ok]
    constructor
    · rintro ⟨_,⟨rfl,-⟩,hn⟩
      exact hn
    · exact fun hn => ⟨_,⟨rfl,by omega⟩,hn⟩

theorem MDBFileInfo.rebuilt_eq_iff {f : MDBFileInfo} :
    f.rebuilt = f ∧ f.metadata.numFollowing < 2 ^ 32 ↔ f.Plain := by
  have hs : ∀ l : List FileVerificationEntry, l.map FileVerificationEntry.stripped = l ↔
    ∀ v ∈ l, v.unused = (0,0) := by
    intro l
    have hid := map_eq_map_iff (f := FileVerificationEntry.stripped) (g := id) (l := l)
    rw [map_id] at hid
    refine hid.trans (forall₂_congr fun v _ => ?_)
    constructor
    · intro h
      have hw := congrArg FileVerificationEntry.unused h
      exact hw.symm
    · intro h
      rw [FileVerificationEntry.stripped,← h]
      rfl
  have he : ∀ o : Option FileMetadataExt, o.map FileMetadataExt.stripped = o ↔
    ∀ m ∈ o, m.unused = (0,0) := by
    intro o
    cases o with
    | none => simp
    | some m =>
      rw [Option.map_some,Option.some_inj]
      refine ⟨fun h n hn => ?_,fun h => ?_⟩
      · obtain rfl := Option.mem_some_iff.mp hn
        rw [← h]
        rfl
      · rw [FileMetadataExt.stripped,← h m rfl]
  obtain ⟨⟨hash,flags,num,unused⟩,segments,verification,ext⟩ := f
  constructor
  · rintro ⟨heq,hc⟩
    simp only [rebuilt,MDBFileInfo.mk.injEq,FileDataSequenceHeader.mk.injEq] at heq
    obtain ⟨⟨-,hf,-,hu⟩,-,hv,hm⟩ := heq
    exact ⟨hf.symm,hu.symm,(hs _).mp hv,(he _).mp hm,hc⟩
  · rintro ⟨hf,hu,hv,hm,hc⟩
    refine ⟨?_,hc⟩
    simp only [rebuilt,stripped,MDBFileInfo.mk.injEq,FileDataSequenceHeader.mk.injEq]
    exact ⟨⟨trivial,hf.symm,trivial,hu.symm⟩,trivial,(hs _).mpr hv,(he _).mpr hm⟩

theorem MDBXorbInfo.rebuilt_eq_iff {x : MDBXorbInfo} :
    x.rebuilt = x ∧ lastEnd x.chunks < 2 ^ 32 ↔ x.Plain := by
  obtain ⟨⟨hash,flags,num,size,disk⟩,chunks⟩ := x
  constructor
  · rintro ⟨heq,hlt⟩
    simp only [rebuilt,MDBXorbInfo.mk.injEq,XorbChunkSequenceHeader.mk.injEq] at heq
    obtain ⟨⟨-,hf,-,hs,hd⟩,-⟩ := heq
    refine ⟨hf.symm,hd.symm,?_⟩
    rw [← hs,UInt32.toNat_ofNat_of_lt' hlt]
  · rintro ⟨hf,hd,hs⟩
    change size.toNat = lastEnd chunks at hs
    refine ⟨?_,by rw [← hs]; exact size.toNat_lt⟩
    simp only [rebuilt,MDBXorbInfo.mk.injEq,XorbChunkSequenceHeader.mk.injEq]
    exact ⟨⟨trivial,hf.symm,trivial,by rw [← hs,UInt32.ofNat_toNat],hd.symm⟩,trivial⟩

theorem totalBytes_ok {chunks : List XorbChunkSequenceEntry} {n : ℕ} :
    totalBytes chunks = .ok n ↔ n = lastEnd chunks ∧ lastEnd chunks < 2 ^ 32 := by
  unfold totalBytes lastEnd
  cases chunks.getLast? with
  | none => exact ⟨fun h => ⟨(Except.ok.inj h).symm,by decide⟩,fun h => by rw [h.1]; rfl⟩
  | some c => exact addU32_eq_ok

theorem MDBXorbInfo.ofView_ok {x x' : MDBXorbInfo} (h : x.WellFormed) :
    MDBXorbInfo.ofView h.view = .ok x' ↔ x' = x.rebuilt ∧ lastEnd x.chunks < 2 ^ 32 := by
  have hn : lastEnd x.chunks < 2 ^ 32 →
      XorbChunkSequenceHeader.new x.metadata.xorbHash x.metadata.numEntries.toNat (lastEnd x.chunks) =
        .ok x.rebuilt.metadata := by
    intro hlt
    rw [XorbChunkSequenceHeader.new,tryIntoU32_of_lt x.metadata.numEntries.toNat_lt,tryIntoU32_of_lt hlt,
      UInt32.ofNat_toNat]
    rfl
  rw [h.ofView_view]
  simp only [bind_eq_ok,totalBytes_ok]
  constructor
  · rintro ⟨_,⟨rfl,hlt⟩,_,hh,hx'⟩
    cases (hn hlt).symm.trans hh
    exact ⟨(Except.ok.inj hx').symm,hlt⟩
  · rintro ⟨rfl,hlt⟩
    exact ⟨_,⟨rfl,hlt⟩,_,hn hlt,rfl⟩

namespace MDBInMemoryShard
variable {fs : List MDBFileInfo} {xs : List MDBXorbInfo}
variable {acc acc' : MDBInMemoryShard}

theorem addFileView_ok {f : MDBFileInfo} (h : f.WellFormed) (acc : MDBInMemoryShard) :
    (∃ acc', acc.addFileView h.view = .ok acc') ↔ f.metadata.numFollowing < 2 ^ 32 := by
  rw [addFileView,h.ofView_view]
  change (∃ acc', acc.addFileReconstructionInfo f.rebuilt = .ok acc') ↔ _
  simp only [addFileReconstructionInfo,MDBFileInfo.numBytes,bind_eq_ok,numInfoEntryFollowing_ok,
    show f.rebuilt.metadata.numFollowing = f.metadata.numFollowing by
      rw [MDBFileInfo.rebuilt,FileDataSequenceHeader.numFollowing,containsVerification_flagsOf,
        containsMetadataExt_flagsOf]
      rfl]
  constructor
  · rintro ⟨_,_,⟨_,⟨-,hlt⟩,-⟩,-⟩
    exact hlt
  · exact fun hlt => ⟨_,_,⟨_,⟨rfl,hlt⟩,rfl⟩,rfl⟩

theorem addFileView_content {f : MDBFileInfo} (h : f.WellFormed)
    (ha : acc.addFileView h.view = .ok acc') :
    acc'.fileContent = acc.fileContent.insert f.metadata.fileHash f.rebuilt ∧
    acc'.xorbContent = acc.xorbContent := by
  rw [addFileView,h.ofView_view] at ha
  change acc.addFileReconstructionInfo f.rebuilt = .ok acc' at ha
  simp only [addFileReconstructionInfo,bind_eq_ok] at ha
  obtain ⟨_,-,hac⟩ := ha
  cases hac
  exact ⟨rfl,rfl⟩

theorem addXorbView_eq {x : MDBXorbInfo} (h : x.WellFormed) :
    acc.addXorbView h.view = .ok acc' ↔ acc' = acc.addXorbBlock x.rebuilt ∧
    lastEnd x.chunks < 2 ^ 32 := by
  simp only [addXorbView,bind_eq_ok,MDBXorbInfo.ofView_ok h]
  constructor
  · rintro ⟨_,⟨rfl,hlt⟩,ha⟩
    exact ⟨(Except.ok.inj ha).symm,hlt⟩
  · rintro ⟨rfl,hlt⟩
    exact ⟨_,⟨rfl,hlt⟩,rfl⟩

theorem foldlM_addFileView_ok (h : ∀ f ∈ fs, f.WellFormed) (acc : MDBInMemoryShard) :
    (∃ acc', (fileViews fs h).foldlM addFileView acc = .ok acc') ↔
      ∀ f ∈ fs, f.metadata.numFollowing < 2 ^ 32 := by
  induction fs generalizing acc with
  | nil => exact ⟨fun _ => by simp,fun _ => ⟨acc,rfl⟩⟩
  | cons f fs ih =>
    obtain ⟨hf,hfs⟩ := forall_mem_cons.mp h
    change (∃ acc', (hf.view :: fileViews fs hfs).foldlM addFileView acc = .ok acc') ↔ _
    simp only [foldlM_cons,bind_eq_ok,forall_mem_cons]
    rw [← addFileView_ok hf acc]
    constructor
    · rintro ⟨acc',acc₁,hfi,hr⟩
      exact ⟨⟨acc₁,hfi⟩,(ih hfs acc₁).mp ⟨acc',hr⟩⟩
    · rintro ⟨⟨acc₁,hfi⟩,hr⟩
      obtain ⟨acc',ha'⟩ := (ih hfs acc₁).mpr hr
      exact ⟨acc',acc₁,hfi,ha'⟩

theorem foldlM_addFileView_content (h : ∀ f ∈ fs, f.WellFormed)
    (hfo : (fileViews fs h).foldlM addFileView acc = .ok acc') :
    acc'.fileContent = fs.foldl (fun m f => m.insert f.metadata.fileHash f.rebuilt) acc.fileContent ∧
      acc'.xorbContent = acc.xorbContent := by
  induction fs generalizing acc with
  | nil =>
    cases hfo
    exact ⟨rfl,rfl⟩
  | cons f fs ih =>
    obtain ⟨hf,hfs⟩ := forall_mem_cons.mp h
    change (hf.view :: fileViews fs hfs).foldlM addFileView acc = .ok acc' at hfo
    rw [foldlM_cons,bind_eq_ok] at hfo
    obtain ⟨acc₁,hfr,hr⟩ := hfo
    obtain ⟨hfi,hx⟩ := addFileView_content hf hfr
    rw [foldl_cons,← hfi,← hx]
    exact ih hfs hr

theorem foldlM_addXorbView_ok (h : ∀ x ∈ xs, x.WellFormed) :
    (xorbViews xs h).foldlM addXorbView acc = .ok acc' ↔
      acc' = xs.foldl (fun acc x => acc.addXorbBlock x.rebuilt) acc ∧
      ∀ x ∈ xs, lastEnd x.chunks < 2 ^ 32 := by
  induction xs generalizing acc with
  | nil => exact ⟨fun hf => ⟨(Except.ok.inj hf).symm,by simp⟩,fun ha => by rw [ha.1]; rfl⟩
  | cons x xs ih =>
    obtain ⟨hx,hxs⟩ := forall_mem_cons.mp h
    change (hx.view :: xorbViews xs hxs).foldlM addXorbView acc = .ok acc' ↔ _
    simp only [foldlM_cons,bind_eq_ok,addXorbView_eq hx,forall_mem_cons,ih hxs]
    constructor
    · rintro ⟨_,⟨rfl,hlt⟩,ha,hr⟩
      exact ⟨ha,hlt,hr⟩
    · rintro ⟨ha,hlt,hr⟩
      exact ⟨_,⟨rfl,hlt⟩,ha,hr⟩

theorem foldl_addXorbBlock_content (xs : List MDBXorbInfo) (acc : MDBInMemoryShard) :
    (xs.foldl (fun acc x => acc.addXorbBlock x.rebuilt) acc).xorbContent =
      xs.foldl (fun m x => m.insert x.metadata.xorbHash x.rebuilt) acc.xorbContent ∧
    (xs.foldl (fun acc x => acc.addXorbBlock x.rebuilt) acc).fileContent = acc.fileContent := by
  induction xs generalizing acc with
  | nil => exact ⟨rfl,rfl⟩
  | cons x xs ih => exact ih (acc.addXorbBlock x.rebuilt)

variable {sorter : KeySort (ℕ × ℕ)} {s : MDBInMemoryShard} {out : Bytes}

theorem fromReader_written (hs : s.WellFormed) (ho : s.toBytes sorter = .ok out) :
    (fromReader.run out).map Prod.fst =
      (fileViews s.files hs.files).foldlM addFileView empty >>= (xorbViews s.xorbs hs.xorbs).foldlM
        addXorbView := by
  simp only [toBytes,bind_eq_ok] at ho
  obtain ⟨⟨info,_⟩,hw,hp⟩ := ho
  cases hp
  obtain ⟨rest,rfl⟩ := serializeFrom_sections hw
  have hf := run_fileInfoSection addFileView empty (exact_fileViews hs.files)
    FileDataSequenceHeader.bookend_isBookend (s.xorbSection ++ rest)
  rw [fileViews_data] at hf
  change (processShardFileInfoSection addFileView empty).run
    (s.fileSection ++ (s.xorbSection ++ rest)) = _ at hf
  rw [fromReader,run_bind_of_ok (MDBShardFileHeader.reads _ _)]
  cases hfo : (fileViews s.files hs.files).foldlM addFileView empty with
  | error e =>
    rw [hfo] at hf
    rw [run_bind_of_error hf]
    rfl
  | ok acc =>
    have hx := run_xorbInfoSection addXorbView acc (exact_xorbViews hs.xorbs)
      XorbChunkSequenceHeader.bookend_isBookend rest
    rw [xorbViews_data] at hx
    rw [hfo] at hf
    rw [run_bind_of_ok hf,ok_bind]
    change ((processShardXorbInfoSection addXorbView acc).run (s.xorbSection ++ rest)).map Prod.fst = _
    rw [xorbSection,hx]
    cases (xorbViews s.xorbs hs.xorbs).foldlM addXorbView acc <;> rfl

theorem restored_iff (hs : s.WellFormed) :
    (∃ s', ((fileViews s.files hs.files).foldlM addFileView empty >>=
      (xorbViews s.xorbs hs.xorbs).foldlM addXorbView) =
        .ok s' ∧ s'.fileContent = s.fileContent ∧ s'.xorbContent = s.xorbContent) ↔
      (∀ f ∈ s.files, f.Plain) ∧ ∀ x ∈ s.xorbs, x.Plain := by
  have hfl := foldl_insert_eq_iff (g := MDBFileInfo.rebuilt) s.file_keyed s.files_nodup
  have hxr := foldl_insert_eq_iff (g := MDBXorbInfo.rebuilt) s.xorb_keyed s.xorbs_nodup
  simp only [← MDBFileInfo.rebuilt_eq_iff,← MDBXorbInfo.rebuilt_eq_iff,bind_eq_ok]
  constructor
  · rintro ⟨s',⟨acc,ha,hs'⟩,hsa,hsm⟩
    obtain ⟨hc,he⟩ := foldlM_addFileView_content hs.files ha
    obtain ⟨rfl,hen⟩ := (foldlM_addXorbView_ok hs.xorbs).mp hs'
    obtain ⟨hxo,hfi⟩ := foldl_addXorbBlock_content s.xorbs acc
    have hco := (foldlM_addFileView_ok hs.files empty).mp ⟨acc,ha⟩
    have hse := hfl.mp (hc.symm.trans (hfi.symm.trans hsa))
    rw [he] at hxo
    have hsx := hxr.mp (hxo.symm.trans hsm)
    exact ⟨fun f hf => ⟨hse f hf,hco f hf⟩,fun x hx => ⟨hsx x hx,hen x hx⟩⟩
  · rintro ⟨hp,hpl⟩
    obtain ⟨acc,ha⟩ := (foldlM_addFileView_ok hs.files empty).mpr fun f hf => (hp f hf).2
    obtain ⟨hc,he⟩ := foldlM_addFileView_content hs.files ha
    obtain ⟨hxo,hfi⟩ := foldl_addXorbBlock_content s.xorbs acc
    refine ⟨_,⟨acc,ha,(foldlM_addXorbView_ok hs.xorbs).mpr ⟨rfl,fun x hx => (hpl x hx).2⟩⟩,?_,?_⟩
    · rw [hfi,hc]
      exact hfl.mpr fun f hf => (hp f hf).1
    · rw [hxo,he]
      exact hxr.mpr fun x hx => (hpl x hx).1

theorem toBytes_ok_iff (sorter : KeySort (ℕ × ℕ)) : (∃ out, s.toBytes sorter = .ok out) ↔ s.Fits := by
  simp only [toBytes,bind_eq_ok]
  constructor
  · rintro ⟨out,⟨info,_⟩,hw,-⟩
    exact (serializeFrom_eq_ok.mp hw).1
  · exact fun hf => ⟨_,⟨_,_⟩,serializeFrom_eq_ok.mpr ⟨hf,rfl,rfl⟩,rfl⟩

/-- A well-formed shard comes back record for record if and only if it can be written and its
records have nothing that a record made anew does not have. -/
theorem from_reader_restores_iff (sorter : KeySort (ℕ × ℕ)) (hs : s.WellFormed) :
    (∃ out s', s.toBytes sorter = .ok out ∧ (fromReader.run out).map Prod.fst = .ok s' ∧
        s'.fileContent = s.fileContent ∧ s'.xorbContent = s.xorbContent) ↔
      s.Fits ∧ (∀ f ∈ s.files, f.Plain) ∧ ∀ x ∈ s.xorbs, x.Plain := by
  rw [← toBytes_ok_iff sorter,← restored_iff hs]
  constructor
  · rintro ⟨out,s',hout,hread,hsame⟩
    rw [fromReader_written hs hout] at hread
    exact ⟨⟨out,hout⟩,s',hread,hsame⟩
  · rintro ⟨⟨out,hout⟩,s',hread,hsame⟩
    rw [← fromReader_written hs hout] at hread
    exact ⟨out,s',hout,hread,hsame⟩

theorem from_reader_restores_one_xorb : ∃ out s',
    (empty.addXorbBlock ⟨{ numEntries := 1, numBytesInXorb := 5 },
      [{ unpackedSegmentBytes := 5 }]⟩).toBytes (.stable _) =
      .ok out ∧
    (fromReader.run out).map Prod.fst = .ok s' ∧
    s'.fileContent = ∅ ∧
    s'.xorbContent = (∅ : MerkleMap MDBXorbInfo).insert default
      ⟨{ numEntries := 1, numBytesInXorb := 5 },[{ unpackedSegmentBytes := 5 }]⟩ :=
  (from_reader_restores_iff (.stable _) (by decide +kernel)).mpr
    ⟨⟨by decide +kernel,by decide +kernel,by decide +kernel,by decide +kernel,by decide +kernel,by
      decide +kernel⟩,by decide +kernel,by decide +kernel⟩

/-- The size on disk does not come back. -/
theorem from_reader_loses_size_on_disk : ∃ out s',
    (empty.addXorbBlock ⟨{ numBytesOnDisk := 7 },[]⟩).WellFormed ∧
    (empty.addXorbBlock ⟨{ numBytesOnDisk := 7 },[]⟩).toBytes (.stable _) = .ok out ∧
    (fromReader.run out).map Prod.fst = .ok s' ∧
    s'.xorbContent ≠ (empty.addXorbBlock ⟨{ numBytesOnDisk := 7 },[]⟩).xorbContent := by
  have h : (do
      let out ← (empty.addXorbBlock ⟨{ numBytesOnDisk := 7 },[]⟩).toBytes (.stable _)
      let s' ← (fromReader.run out).map Prod.fst
      return decide (s'.xorbContent[(default : DataHash)]? ≠
        (empty.addXorbBlock ⟨{ numBytesOnDisk := 7 },[]⟩).xorbContent[(default : DataHash)]?) :
          Result Bool) =
        .ok true := by
    decide +kernel
  simp only [bind_eq_ok] at h
  obtain ⟨out,hout,s',hs',hresult⟩ := h
  have hne := of_decide_eq_true (Except.ok.inj hresult)
  exact ⟨out,s',by decide +kernel,hout,hs',fun heq => hne (by rw [heq])⟩

end MDBInMemoryShard
end XetCore.Shard
