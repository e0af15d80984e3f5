import XetCore.Shard.Views

/-! # Views are views of records

A view of exactly the announced bytes is the view of a record that agrees with its header,
spare words included. Its accessors give the parts of the record.
-/
namespace XetCore.Shard
open ByteSources Serialization List

section Slices
variable {α β : Type} {p : Reader Bytes CoreError β} {enc : α → Bytes} {g : α → β} {as : List α}
  {front back : Bytes} {k i : ℕ}

theorem drop_records (hlen : ∀ a, (enc a).length = 48) (hf : front.length = k * 48) (hi : i ≤ as.length) :
    (front ++ (as.flatMap enc ++ back)).drop ((k + i) * 48) = (as.drop i).flatMap enc ++ back := by
  have hs : as.flatMap enc = (as.take i).flatMap enc ++ (as.drop i).flatMap enc := by
    rw [← flatMap_append,take_append_drop]
  have ht : (front ++ (as.take i).flatMap enc).length = (k + i) * 48 := by
    rw [length_append,hf,length_flatMap_eq hlen,length_take_of_le hi,Nat.add_mul]
  rw [hs,append_assoc,← append_assoc,← ht,drop_left]

theorem read_record (hp : ∀ a, Reads p (enc a) (g a)) (hlen : ∀ a, (enc a).length = 48)
    (hf : front.length = k * 48) (hi : i < as.length) :
    (sliceFrom (front ++ (as.flatMap enc ++ back)) ((k + i) * 48) >>= fun slice =>
      expect (ofBuffer p slice)) =
      .ok (g as[i]) := by
  have hle : (k + i) * 48 ≤ (front ++ (as.flatMap enc ++ back)).length := by
    rw [length_append,length_append,hf,length_flatMap_eq hlen]
    omega
  rw [sliceFrom,if_pos hle,ok_bind,drop_records hlen hf hi.le,drop_eq_getElem_cons hi,flatMap_cons,
    append_assoc,ofBuffer,hp]
  rfl

theorem mapM_range {n : ℕ} {f : ℕ → Result β} {bs : List β} (hlen : bs.length = n)
    (h : ∀ i (hi : i < bs.length), f i = .ok bs[i]) : (List.range n).mapM f = .ok bs := by
  subst hlen
  induction bs using List.reverseRecOn with
  | nil => rfl
  | append_singleton bs b ih =>
    have hin := ih fun i hi => by
      have hg := h i (by rw [length_append]; omega)
      rwa [getElem_append_left hi] at hg
    have hl := h bs.length (by simp)
    rw [getElem_append_right (Nat.le_refl _)] at hl
    simp only [Nat.sub_self] at hl
    rw [length_append,length_singleton,range_succ,mapM_append,hin,ok_bind]
    simp only [mapM_cons,hl]
    rfl

end Slices

theorem exists_split {s : Bytes} {m n : ℕ} (h : s.length = m + n) :
    ∃ a b, s = a ++ b ∧ a.length = m ∧ b.length = n :=
  ⟨s.take m,s.drop m,(take_append_drop m s).symm,length_take_of_le (by omega),by rw [length_drop]; omega⟩

/-- A header and as many bytes as it announces are a record. -/
theorem exists_fileInfo {header : FileDataSequenceHeader} {body : Bytes} (hn : header.isBookend = false)
    (hbo : body.length = header.numFollowing * 48) :
    ∃ f : MDBFileInfo, f.WellFormed ∧ f.metadata = header ∧ f.serialize = header.serialize ++ body := by
  rw [FileDataSequenceHeader.numFollowing,Nat.add_mul,Nat.add_mul,Nat.add_assoc] at hbo
  obtain ⟨a,rest,rfl,ha,hr⟩ := exists_split hbo
  obtain ⟨b,c,rfl,hb,hc⟩ := exists_split hr
  obtain ⟨segments,hs,rfl⟩ := FileDataSequenceEntry.takes_deserialize.exists_encodings
    FileDataSequenceEntry.parses_deserialize ha
  obtain ⟨hashes,hh,rfl⟩ := takes_spareHash.exists_encodings parses_spareHash hb
  obtain ⟨ext,he,rfl⟩ : ∃ ext : Option FileMetadataExt, ext.isSome = header.containsMetadataExt ∧
      c = ext.elim [] FileMetadataExt.serialize := by
    cases hf : header.containsMetadataExt with
    | true =>
      rw [hf,if_pos rfl,Nat.one_mul] at hc
      obtain ⟨p,rfl⟩ := takes_spareHash.exists_encoding parses_spareHash hc
      exact ⟨some ⟨p.1,p.2⟩,rfl,rfl⟩
    | false =>
      rw [hf] at hc
      exact ⟨none,rfl,length_eq_zero_iff.mp hc⟩
  refine ⟨⟨header,segments,hashes.map fun p => ⟨p.1,p.2⟩,ext⟩,⟨hs.symm,?_,he,hn⟩,rfl,?_⟩
  · rw [length_map,hh,hs]
    rfl
  · rw [MDBFileInfo.serialize,flatMap_map]
    change header.serialize ++ (_ ++ ((if header.containsVerification then _ else []) ++ _)) = _
    cases hf : header.containsVerification with
    | true => rfl
    | false =>
      rw [hf] at hh
      rw [length_eq_zero_iff.mp hh]
      rfl

theorem exists_xorbInfo {header : XorbChunkSequenceHeader} {body : Bytes} (hn : header.isBookend = false)
    (hb : body.length = header.numEntries.toNat * 48) :
    ∃ x : MDBXorbInfo, x.WellFormed ∧ x.metadata = header ∧ x.serialize = header.serialize ++ body := by
  obtain ⟨chunks,hc,rfl⟩ := XorbChunkSequenceEntry.takes_deserialize.exists_encodings
    XorbChunkSequenceEntry.parses_deserialize hb
  exact ⟨⟨header,chunks⟩,⟨hc.symm,hn⟩,rfl,rfl⟩

section FileViews
variable {f : MDBFileInfo}

theorem MDBFileInfo.WellFormed.enough (h : f.WellFormed) :
    (1 + f.metadata.numFollowing) * mdbFileInfoEntrySize ≤ f.serialize.length := by
  rw [h.length_serialize,Nat.mul_comm]

def MDBFileInfo.WellFormed.view (h : f.WellFormed) : MDBFileInfoView := ⟨f.metadata,f.serialize,h.enough⟩

namespace MDBFileInfo.WellFormed

theorem exists_front_ext {m : FileMetadataExt} (hm : f.metadataExt = some m) :
    ∃ front, f.serialize = front ++ m.serialize := by
  refine ⟨f.metadata.serialize ++ (f.segments.flatMap FileDataSequenceEntry.serialize ++
    (if f.containsVerification then f.verification.flatMap FileVerificationEntry.serialize else [])),?_⟩
  rw [MDBFileInfo.serialize,hm,append_assoc,append_assoc]
  rfl

section
variable (h : f.WellFormed)
include h

/-- The place of the extension in the bytes of a record, whatever follows. -/
theorem drop_ext {m : FileMetadataExt} (hm : f.metadataExt = some m) (rest : Bytes) :
    (f.serialize ++ rest).drop (f.metadata.numFollowing * 48) = m.serialize ++ rest := by
  have hlen := h.length_serialize
  obtain ⟨front,hs⟩ := exists_front_ext hm
  rw [hs,length_append,m.length_serialize] at hlen
  rw [hs,append_assoc,drop_left' (by omega)]

section
variable {v : MDBFileInfoView} {rest : Bytes} (hh : v.header = f.metadata)
  (hd : v.data = f.serialize ++ rest)
include hh hd

omit hd in
theorem numEntries_of_data : v.numEntries = f.segments.length := by
  rw [MDBFileInfoView.numEntries,hh,h.numEntries_eq]

omit h hh in
theorem entry_of_data {i : ℕ} (hi : i < f.segments.length) : v.entry i = .ok f.segments[i] := by
  rw [MDBFileInfoView.entry,hd,MDBFileInfo.serialize,List.append_assoc,List.append_assoc]
  exact read_record (g := id) (fun e => e.reads) (fun e => e.length_serialize)
    (by exact f.metadata.length_serialize) hi

theorem entries_of_data : v.entries = .ok f.segments :=
  mapM_range (h.numEntries_of_data hh).symm fun _ hi => entry_of_data hd hi

theorem verifications_of_data :
    v.verifications = .ok (f.verification.map FileVerificationEntry.stripped) := by
  have hlen := h.verification_length
  unfold MDBFileInfoView.verifications MDBFileInfoView.containsVerification
  rw [hh]
  cases hv : f.metadata.containsVerification with
  | true =>
    rw [MDBFileInfo.containsVerification,hv,if_pos rfl] at hlen
    rw [if_pos rfl]
    refine mapM_range (by rw [length_map,hlen,h.numEntries_of_data hh]) fun i hi => ?_
    have hi' : i < f.verification.length := by simpa using hi
    have hs : f.serialize ++ rest =
      (f.metadata.serialize ++ f.segments.flatMap FileDataSequenceEntry.serialize) ++
        (f.verification.flatMap FileVerificationEntry.serialize ++
          (f.metadataExt.elim [] FileMetadataExt.serialize ++ rest)) := by
      simp [MDBFileInfo.serialize,MDBFileInfo.containsVerification,hv]
    have hf : (f.metadata.serialize ++ f.segments.flatMap FileDataSequenceEntry.serialize).length =
        (1 + f.segments.length) * 48 := by
      rw [length_append,FileDataSequenceHeader.length_serialize,
        length_flatMap_eq FileDataSequenceEntry.length_serialize]
      ring
    rw [MDBFileInfoView.verification,hd,hs,h.numEntries_of_data hh,getElem_map]
    exact read_record (fun v => v.reads) (fun v => v.length_serialize) hf hi'
  | false =>
    rw [MDBFileInfo.containsVerification,hv] at hlen
    rw [if_neg Bool.false_ne_true,length_eq_zero_iff.mp hlen]
    rfl

/-- The extension is taken from the last bytes of the view. -/
theorem metadataExt_of_data : v.metadataExt = .ok (if f.containsMetadataExt then
    some { sha256 := .fromBytes ((v.data.drop (v.data.length - 48)).take 32) } else none) := by
  unfold MDBFileInfoView.metadataExt MDBFileInfoView.containsMetadataExt MDBFileInfo.containsMetadataExt
  rw [hh]
  cases f.metadata.containsMetadataExt with
  | false => rfl
  | true =>
    have hlen : 48 ≤ v.data.length := by
      rw [hd,length_append,h.length_serialize]
      omega
    obtain ⟨p,hp⟩ := takes_spareHash.exists_encoding parses_spareHash
      (show (v.data.drop (v.data.length - 48)).length = 48 by rw [length_drop]; omega)
    have hr := FileMetadataExt.reads ⟨p.1,p.2⟩ []
    rw [append_nil] at hr
    rw [if_pos rfl,if_pos rfl,sliceFrom,if_pos (Nat.sub_le _ _),ok_bind,hp,
      take_left' (length_writeHash _),ofBuffer]
    erw [hr]
    rw [writeHash,Merkle.DataHash.fromBytes_asBytes]
    rfl

/-- The record of a view has a new header, no spare words, and the extension from the last bytes. -/
theorem ofView_of_data : MDBFileInfo.ofView v = .ok {
    metadata := {
      fileHash := f.metadata.fileHash
      fileFlags := FileDataSequenceHeader.flagsOf f.containsVerification f.containsMetadataExt
      numEntries := f.metadata.numEntries }
    segments := f.segments
    verification := f.verification.map FileVerificationEntry.stripped
    metadataExt := if f.containsMetadataExt then
      some { sha256 := .fromBytes ((v.data.drop (v.data.length - 48)).take 32) } else none } := by
  have hn : tryIntoU32 f.segments.length = .ok f.metadata.numEntries := by
    rw [← h.numEntries_eq,tryIntoU32_of_lt f.metadata.numEntries.toNat_lt,UInt32.ofNat_toNat]
  rw [MDBFileInfo.ofView,h.entries_of_data hh hd,ok_bind,h.verifications_of_data hh hd,ok_bind,
    FileDataSequenceHeader.new,hn,ok_bind,pure_bind,h.metadataExt_of_data hh hd,MDBFileInfoView.fileHash,
    MDBFileInfoView.containsVerification,MDBFileInfoView.containsMetadataExt,hh]
  rfl

end

theorem data_view : h.view.data = f.serialize ++ [] := (append_nil _).symm

theorem entry_view {i : ℕ} (hi : i < f.segments.length) : h.view.entry i = .ok f.segments[i] :=
  entry_of_data h.data_view hi

theorem numEntries_view : h.view.numEntries = f.segments.length := h.numEntries_eq

theorem entries_view : h.view.entries = .ok f.segments := h.entries_of_data rfl h.data_view

theorem verifications_view : h.view.verifications =
    .ok (f.verification.map FileVerificationEntry.stripped) :=
  h.verifications_of_data rfl h.data_view

theorem ext_eq (rest : Bytes) : f.metadataExt.map FileMetadataExt.stripped = if f.containsMetadataExt then
      some { sha256 := .fromBytes (((f.serialize ++ rest).drop (f.metadata.numFollowing * 48)).take
        32) } else none := by
  rw [← h.metadataExt_isSome]
  cases hm : f.metadataExt with
  | none => rfl
  | some m =>
    rw [h.drop_ext hm,FileMetadataExt.serialize,append_assoc,take_left' (length_writeHash _),writeHash,
      Merkle.DataHash.fromBytes_asBytes]
    rfl

theorem ext_last : h.view.data.drop (h.view.data.length - 48) =
    (f.serialize ++ []).drop (f.metadata.numFollowing * 48) := by
  have hlen : h.view.data.length = 48 * (1 + f.metadata.numFollowing) := h.length_serialize
  rw [← h.data_view,hlen]
  congr 1
  omega

theorem metadataExt_view : h.view.metadataExt = .ok (f.metadataExt.map FileMetadataExt.stripped) := by
  rw [h.metadataExt_of_data rfl h.data_view,h.ext_last,h.ext_eq []]

theorem ofView_view : MDBFileInfo.ofView h.view = .ok { f.stripped with
      metadata := {
        fileHash := f.metadata.fileHash
        fileFlags := FileDataSequenceHeader.flagsOf f.containsVerification f.containsMetadataExt
        numEntries := f.metadata.numEntries } } := by
  rw [h.ofView_of_data rfl h.data_view,h.ext_last,← h.ext_eq []]
  rfl

end

end MDBFileInfo.WellFormed

theorem MDBFileInfoView.new_record (h : f.WellFormed) (rest : Bytes) :
    ∃ view, MDBFileInfoView.new (f.serialize ++ rest) = .ok view ∧ view.header = f.metadata ∧
      view.data = f.serialize ++ rest := by
  obtain ⟨body,hb⟩ : ∃ body, f.serialize ++ rest = f.metadata.serialize ++ body := ⟨_,append_assoc _ _ _⟩
  have he : (1 + f.metadata.numFollowing) * mdbFileInfoEntrySize ≤ (f.serialize ++ rest).length :=
    h.enough.trans (by rw [length_append]; omega)
  exact ⟨⟨f.metadata,f.serialize ++ rest,he⟩,
    bind_eq_ok.mpr ⟨(f.metadata,body),hb ▸ f.metadata.reads body,dif_pos he⟩,rfl,rfl⟩

/-- Bytes that both parsers accept begin with a record. -/
theorem MDBFileInfoView.exists_record {data rest : Bytes} {view : MDBFileInfoView}
    (hf : MDBFileInfo.deserialize.run data = .ok (some f,rest))
    (hv : MDBFileInfoView.new data = .ok view) :
    ∃ (g : MDBFileInfo) (back : Bytes), g.WellFormed ∧ view.header = g.metadata ∧
    data = g.serialize ++ back ∧
      view.data = data ∧ f = g.stripped := by
  obtain ⟨⟨header,body⟩,hr,hv⟩ := bind_eq_ok.mp hv
  rw [MDBFileInfoView.fromDataAndHeader] at hv
  split at hv
  case isFalse => cases hv
  case isTrue he =>
    cases hv
    obtain ⟨_,rfl,rfl⟩ := FileDataSequenceHeader.parses_deserialize _ _ _ hr
    have hn : header.isBookend = false := by
      have hd : (MDBFileInfo.deserializeEntries header).run body = .ok (some f,rest) := by
        rw [← hf,MDBFileInfo.deserialize,StateT.run_bind,hr,ok_bind]
      by_contra hb
      rw [MDBFileInfo.deserializeEntries,if_pos (Bool.eq_true_of_not_eq_false hb)] at hd
      cases hd
    have hlen : (body.take (header.numFollowing * 48)).length = header.numFollowing * 48 := by
      change (1 + header.numFollowing) * 48 ≤ _ at he
      rw [length_append,header.length_serialize] at he
      exact length_take_of_le (by omega)
    obtain ⟨g,hg,hm,hs⟩ := exists_fileInfo hn hlen
    have hd : header.serialize ++ body = g.serialize ++ body.drop (header.numFollowing * 48) := by
      rw [hs,append_assoc,take_append_drop]
    rw [hd,hg.reads] at hf
    exact ⟨g,_,hg,hm.symm,hd,rfl,(Option.some.inj (Prod.mk.inj (Except.ok.inj hf)).1).symm⟩

/-- The view gives the parsed record where the header holds nothing but the two flags and, with an
extension, the last bytes have the hash that stands behind the entries. -/
theorem MDBFileInfo.ofView_eq_deserialize_iff {data rest : Bytes} {view : MDBFileInfoView}
    (hf : MDBFileInfo.deserialize.run data = .ok (some f,rest))
    (hv : MDBFileInfoView.new data = .ok view) :
    MDBFileInfo.ofView view = .ok f ↔
      view.header.fileFlags = FileDataSequenceHeader.flagsOf view.containsVerification
        view.containsMetadataExt ∧
        view.header.unused = 0 ∧ (view.containsMetadataExt = true →
          (data.drop (data.length - 48)).take 32 =
            (data.drop (view.header.numFollowing * 48)).take 32) := by
  obtain ⟨g,back,hg,hh,hs,rfl,rfl⟩ := MDBFileInfoView.exists_record hf hv
  have hlen : 48 + view.header.numFollowing * 48 ≤ view.data.length := by
    rw [hs,hh,length_append,hg.length_serialize]
    omega
  rw [hg.ofView_of_data hh hs,MDBFileInfo.stripped,hg.ext_eq back,← hs,← hh,
    MDBFileInfoView.containsVerification,MDBFileInfoView.containsMetadataExt,
    MDBFileInfo.containsVerification,MDBFileInfo.containsMetadataExt,← hh]
  rw [Except.ok.injEq,MDBFileInfo.mk.injEq]
  constructor
  · rintro ⟨hm,-,-,hx⟩
    refine ⟨(congrArg FileDataSequenceHeader.fileFlags hm).symm,
      (congrArg FileDataSequenceHeader.unused hm).symm,fun hc => ?_⟩
    rw [hc,if_pos rfl,if_pos rfl,Option.some.injEq,FileMetadataExt.mk.injEq] at hx
    have hb := congrArg Merkle.DataHash.asBytes hx.1
    rwa [Merkle.DataHash.asBytes_fromBytes (by rw [length_take,length_drop]; omega),
      Merkle.DataHash.asBytes_fromBytes (by rw [length_take,length_drop]; omega)] at hb
  · rintro ⟨hl,hu,hx⟩
    refine ⟨?_,rfl,rfl,?_⟩
    · cases hv : view.header with
      | mk hash flags n unused =>
        rw [hv] at hl hu
        exact FileDataSequenceHeader.mk.injEq .. ▸ ⟨rfl,hl.symm,rfl,hu.symm⟩
    · split
      case isTrue hc => rw [hx hc]
      case isFalse => rfl

/-- A file with nothing but an extension. -/
abbrev bareFile : MDBFileInfo where
  metadata := { fileFlags := mdbFileFlagWithMetadataExt }
  segments := []
  verification := []
  metadataExt := some { sha256 := default }

theorem bareFile_wellFormed : bareFile.WellFormed := by decide

theorem MDBFileInfo.ofView_eq_deserialize_bare : ∃ data rest f view,
    MDBFileInfo.deserialize.run data = .ok (some f,rest) ∧ MDBFileInfoView.new data = .ok view ∧
      MDBFileInfo.ofView view = .ok f := by
  obtain ⟨view,hv,hh,hd⟩ := MDBFileInfoView.new_record bareFile_wellFormed []
  have hf := bareFile_wellFormed.reads []
  refine ⟨_,_,_,view,hf,hv,(MDBFileInfo.ofView_eq_deserialize_iff hf hv).mpr ?_⟩
  rw [MDBFileInfoView.containsVerification,MDBFileInfoView.containsMetadataExt,hh]
  exact ⟨by decide,rfl,fun _ => by decide⟩

/-- With the bookend of the file section behind the record, the view takes the extension from the
bookend. -/
theorem MDBFileInfo.ofView_reads_bookend : ∃ data rest f view,
    MDBFileInfo.deserialize.run data = .ok (some f,rest) ∧ MDBFileInfoView.new data = .ok view ∧
      MDBFileInfo.ofView view = .ok { f with metadataExt := some { sha256 := Merkle.DataHash.marker } } ∧
      f.metadataExt = some { sha256 := default } := by
  obtain ⟨view,hv,hh,hd⟩ := MDBFileInfoView.new_record bareFile_wellFormed
    FileDataSequenceHeader.bookend.serialize
  refine ⟨_,_,_,view,bareFile_wellFormed.reads _,hv,?_,rfl⟩
  rw [bareFile_wellFormed.ofView_of_data hh hd,hd]
  decide +kernel

end FileViews

section XorbViews
variable {x : MDBXorbInfo}

theorem MDBXorbInfo.WellFormed.enough (h : x.WellFormed) :
    48 + x.metadata.numEntries.toNat * 48 ≤ x.serialize.length := by
  rw [x.length_serialize,h.numEntries_eq,Nat.mul_add,Nat.mul_one,Nat.mul_comm]

def MDBXorbInfo.WellFormed.view (h : x.WellFormed) : MDBXorbInfoView := ⟨x.metadata,x.serialize,h.enough⟩

namespace MDBXorbInfo.WellFormed

theorem numEntries_view (h : x.WellFormed) : h.view.numEntries = x.chunks.length := h.numEntries_eq

theorem chunk_view (h : x.WellFormed) {i : ℕ} (hi : i < x.chunks.length) :
    h.view.chunk i = .ok x.chunks[i] := by
  have hd : h.view.data = x.metadata.serialize ++
    (x.chunks.flatMap XorbChunkSequenceEntry.serialize ++ []) := by
    rw [append_nil]
    rfl
  rw [MDBXorbInfoView.chunk,hd,show 48 + i * 48 = (1 + i) * 48 by ring]
  exact read_record (g := id) (fun c => c.reads) (fun c => c.length_serialize)
    (by exact x.metadata.length_serialize) hi

theorem chunks_view (h : x.WellFormed) : h.view.chunks = .ok x.chunks :=
  mapM_range h.numEntries_eq.symm fun _ hi => h.chunk_view hi

theorem ofView_view (h : x.WellFormed) : MDBXorbInfo.ofView h.view = do
    let total ← totalBytes x.chunks
    let metadata ← XorbChunkSequenceHeader.new x.metadata.xorbHash x.metadata.numEntries.toNat total
    return { metadata, chunks := x.chunks } := by
  have hlen : asU32 x.chunks.length = x.metadata.numEntries.toNat := by
    rw [← h.numEntries_eq,asU32_of_lt x.metadata.numEntries.toNat_lt]
  rw [MDBXorbInfo.ofView,h.chunks_view,ok_bind,hlen]
  rfl

end MDBXorbInfo.WellFormed
end XorbViews
end XetCore.Shard
