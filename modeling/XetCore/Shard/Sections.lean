import XetCore.Lib.ReaderLoop
import XetCore.Shard.ViewLaws

/-! # Sections of a shard

A section is a sequence of records up to a bookend. One loop copies each record and leaves
it to the view to find out that it is too short, the other reads it exactly. Both hand the
views to a callback, and both take the same records off.
-/
namespace XetCore.Shard
open ByteSources Serialization List

structure SectionKind (H V : Type) where
  deserialize : ∀ {σ : Type} [ByteSource σ], Reader σ CoreError H
  serialize : H → Bytes
  isBookend : H → Bool
  numBytes : H → ℕ
  fromDataAndHeader : H → Bytes → Result V
  header : V → H
  data : V → Bytes

def fileInfoKind : SectionKind FileDataSequenceHeader MDBFileInfoView where
  deserialize := FileDataSequenceHeader.deserialize
  serialize := FileDataSequenceHeader.serialize
  isBookend := FileDataSequenceHeader.isBookend
  numBytes h := h.numFollowing * mdbFileInfoEntrySize
  fromDataAndHeader := MDBFileInfoView.fromDataAndHeader
  header := MDBFileInfoView.header
  data := MDBFileInfoView.data

def xorbInfoKind : SectionKind XorbChunkSequenceHeader MDBXorbInfoView where
  deserialize := XorbChunkSequenceHeader.deserialize
  serialize := XorbChunkSequenceHeader.serialize
  isBookend := XorbChunkSequenceHeader.isBookend
  numBytes h := h.numEntries.toNat * 48
  fromDataAndHeader := MDBXorbInfoView.fromDataAndHeader
  header := MDBXorbInfoView.header
  data := MDBXorbInfoView.data

section Model
variable {H V β σ : Type} [ByteSource σ] (kind : SectionKind H V) (callback : β → V → Result β)

/-- One record, whose bytes are copied as far as there are any. -/
def processRecord (acc : β) : Reader σ CoreError (β ⊕ β) := do
  let header ← kind.deserialize
  if kind.isBookend header then return .inr acc
  else do
    let body ← readLimited (kind.numBytes header)
    let view ← kind.fromDataAndHeader header (kind.serialize header ++ body)
    let acc ← callback acc view
    return .inl acc

/-- One record, whose bytes are read exactly, the header into a buffer. -/
def processRecordAsync (acc : β) : Reader σ CoreError (β ⊕ β) := do
  let headerBuf ← readBytes 48
  let header ← ofBuffer kind.deserialize headerBuf
  if kind.isBookend header then return .inr acc
  else do
    let body ← readBytes (kind.numBytes header)
    let view ← kind.fromDataAndHeader header (headerBuf ++ body)
    let acc ← callback acc view
    return .inl acc

def processSection (acc : β) : Reader σ CoreError β :=
  readerLoop (.io .unexpectedEof) (processRecord kind callback) acc

def processSectionAsync (acc : β) : Reader σ CoreError β :=
  readerLoop (.io .unexpectedEof) (processRecordAsync kind callback) acc

end Model

section Members
variable {β σ : Type} [ByteSource σ] (fileCallback : β → MDBFileInfoView → Result β)

def processShardFileInfoSection (acc : β) :
    Reader σ CoreError β := processSection fileInfoKind fileCallback acc

variable (xorbCallback : β → MDBXorbInfoView → Result β)

def processShardXorbInfoSection (acc : β) :
    Reader σ CoreError β := processSection xorbInfoKind xorbCallback acc

def processShardFileInfoSectionAsync (acc : β) :
    Reader σ CoreError β := processSectionAsync fileInfoKind fileCallback acc

def processShardXorbInfoSectionAsync (acc : β) :
    Reader σ CoreError β := processSectionAsync xorbInfoKind xorbCallback acc

end Members

section Laws
variable {H V β : Type}

/-- A header takes 48 bytes, and a view is refused if and only if there are too few bytes. -/
structure SectionKind.Lawful (kind : SectionKind H V) : Prop where
  follows : ∀ {σ : Type} [ByteSource σ], Follows (σ := σ) kind.deserialize kind.deserialize
  takes : Takes (CoreError.io .unexpectedEof) 48 kind.deserialize
  parses : Parses kind.deserialize fun h e => e = kind.serialize h
  reads : ∀ h, Reads kind.deserialize (kind.serialize h) h
  length_serialize : ∀ h, (kind.serialize h).length = 48
  refused : ∀ {h body}, body.length < kind.numBytes h →
    kind.fromDataAndHeader h (kind.serialize h ++ body) = .error (.io .unexpectedEof)
  accepted : ∀ {h body}, body.length = kind.numBytes h →
    ∃ v, kind.fromDataAndHeader h (kind.serialize h ++ body) = .ok v ∧ kind.header v = h ∧
      kind.data v = kind.serialize h ++ body
  ext : ∀ {v w}, kind.header v = kind.header w → kind.data v = kind.data w → v = w

theorem fileInfoKind_lawful : fileInfoKind.Lawful where
  follows := FileDataSequenceHeader.follows_deserialize
  takes := FileDataSequenceHeader.takes_deserialize
  parses := FileDataSequenceHeader.parses_deserialize
  reads h := h.reads
  length_serialize h := h.length_serialize
  refused {h body} hlt := by
    refine dif_neg ?_
    change body.length < h.numFollowing * 48 at hlt
    change ¬(1 + h.numFollowing) * 48 ≤ (h.serialize ++ body).length
    rw [length_append,h.length_serialize]
    omega
  accepted {h body} heq := by
    change body.length = h.numFollowing * 48 at heq
    have he : (1 + h.numFollowing) * 48 ≤ (h.serialize ++ body).length := by
      rw [length_append,h.length_serialize,heq,Nat.add_mul]
    exact ⟨⟨h,h.serialize ++ body,he⟩,dif_pos he,rfl,rfl⟩
  ext {v w} hh hd := by
    cases v
    cases w
    cases hh
    cases hd
    rfl

theorem xorbInfoKind_lawful : xorbInfoKind.Lawful where
  follows := XorbChunkSequenceHeader.follows_deserialize
  takes := XorbChunkSequenceHeader.takes_deserialize
  parses := XorbChunkSequenceHeader.parses_deserialize
  reads h := h.reads
  length_serialize h := h.length_serialize
  refused {h body} hlt := by
    refine dif_neg ?_
    change body.length < h.numEntries.toNat * 48 at hlt
    change ¬48 + h.numEntries.toNat * 48 ≤ (h.serialize ++ body).length
    rw [length_append,h.length_serialize]
    omega
  accepted {h body} heq := by
    change body.length = h.numEntries.toNat * 48 at heq
    have he : 48 + h.numEntries.toNat * 48 ≤ (h.serialize ++ body).length := by
      rw [length_append,h.length_serialize,heq]
    exact ⟨⟨h,h.serialize ++ body,he⟩,dif_pos he,rfl,rfl⟩
  ext {v w} hh hd := by
    cases v
    cases w
    cases hh
    cases hd
    rfl

/-- The view has the bytes that its header announces and no others. -/
def SectionKind.Exact (kind : SectionKind H V) (v : V) : Prop :=
  kind.isBookend (kind.header v) = false ∧
    ∃ body, body.length = kind.numBytes (kind.header v) ∧
      kind.data v = kind.serialize (kind.header v) ++ body

variable {kind : SectionKind H V} {callback : β → V → Result β} {σ : Type} [ByteSource σ]

theorem follows_processRecordAsync (acc : β) :
    Follows (σ := σ) (processRecordAsync kind callback acc) (processRecordAsync kind callback acc) := by
  refine (follows_readExact _ _).bind fun _ => (follows_lift _).bind fun header => ?_
  split
  · exact follows_pure _
  · exact (follows_readExact _ _).bind fun _ => (follows_lift _).bind fun _ =>
      (follows_lift _).bind fun _ =>
      follows_pure _

variable (hkind : kind.Lawful) (acc : β)
include hkind

theorem follows_processRecord :
    Follows (σ := σ) (processRecord kind callback acc) (processRecord kind callback acc) := by
  refine hkind.follows.bind fun header => ?_
  split
  · exact follows_pure _
  · exact (follows_readLimited _).bind fun _ => (follows_lift _).bind fun _ =>
      (follows_lift _).bind fun _ =>
      follows_pure _

theorem processRecordAsync_eq :
    (processRecordAsync kind callback acc : Reader Bytes CoreError _) =
      processRecord kind callback acc := by
  funext s
  change (processRecordAsync kind callback acc).run s = (processRecord kind callback acc).run s
  obtain ⟨dec,hd⟩ := hkind.takes
  have hbu := readExact_cursor (CoreError.io .unexpectedEof) 48 s
  rw [processRecordAsync,processRecord]
  by_cases hs : 48 ≤ s.length
  · have hh := hd s
    rw [if_pos hs] at hbu hh
    have ht := length_take_of_le hs
    have hof : ofBuffer kind.deserialize (s.take 48) = .ok (dec (s.take 48)) := by
      rw [ofBuffer,hd,if_pos ht.ge,take_of_length_le ht.le]
      rfl
    have hse : s.take 48 = kind.serialize (dec (s.take 48)) := by
      obtain ⟨e,he,rfl⟩ := hkind.parses _ _ _ hh
      nth_rewrite 1 [he]
      rw [take_append_of_le_length (hkind.length_serialize _).ge,
        take_of_length_le (hkind.length_serialize _).le]
    rw [readBytes,run_bind_of_ok hbu,hof,run_bind_of_ok hh]
    change (if kind.isBookend (dec (s.take 48)) then _ else _ : Reader Bytes CoreError (β ⊕ β)).run _ = _
    split
    · rfl
    · have hb := readExact_cursor (CoreError.io .unexpectedEof)
        (kind.numBytes (dec (s.take 48))) (s.drop 48)
      rw [readBytes,run_bind_of_ok (readLimited_cursor _ _),← hse]
      split_ifs at hb with hn
      · rw [run_bind_of_ok hb]
      · have hsh : ((s.drop 48).take (kind.numBytes (dec (s.take 48)))).length <
          kind.numBytes (dec (s.take 48)) := by
          rw [length_take]
          omega
        have hr := hkind.refused hsh
        rw [← hse] at hr
        rw [run_bind_of_error hb,hr]
        rfl
  · have hh := hd s
    rw [if_neg hs] at hbu hh
    rw [readBytes,run_bind_of_error hbu,run_bind_of_error hh]

theorem processSectionAsync_eq :
    (processSectionAsync kind callback acc : Reader Bytes CoreError _) =
      processSection kind callback acc := by
  rw [processSectionAsync,processSection,funext (processRecordAsync_eq hkind)]

theorem parses_processRecord : Parses (processRecord kind callback acc) fun r e =>
    (∃ h, kind.isBookend h = true ∧ e = kind.serialize h ∧ r = .inr acc) ∨
    (∃ v acc', kind.Exact v ∧ e = kind.data v ∧ callback acc v = .ok acc' ∧ r = .inl acc') := by
  intro s r s' hr
  rw [processRecord,run_bind_eq_ok] at hr
  obtain ⟨header,t,hh,hr⟩ := hr
  obtain ⟨_,rfl,rfl⟩ := hkind.parses _ _ _ hh
  split_ifs at hr with he
  · obtain ⟨rfl,rfl⟩ := run_pure_eq_ok.mp hr
    exact ⟨_,rfl,.inl ⟨header,he,rfl,rfl⟩⟩
  · rw [run_bind_of_ok (readLimited_cursor _ _)] at hr
    simp only [run_bind_eq_ok,run_lift_eq_ok] at hr
    obtain ⟨view,_,⟨hvi,rfl⟩,acc',_,⟨hc,rfl⟩,rfl,rfl⟩ := hr
    by_cases hn : kind.numBytes header ≤ t.length
    · have hlen := length_take_of_le hn
      obtain ⟨v,hv,rfl,hd⟩ := hkind.accepted hlen
      obtain rfl : v = view := Except.ok.inj (hv.symm.trans hvi)
      refine ⟨kind.data v,?_,.inr ⟨v,acc',⟨by simpa using he,_,hlen,hd⟩,rfl,hc,rfl⟩⟩
      rw [hd,append_assoc,take_append_drop]
    · rw [hkind.refused (by rw [length_take]; omega)] at hvi
      cases hvi

theorem run_processRecord {v : V} (hv : kind.Exact v) (rest : Bytes) :
    (processRecord kind callback acc).run (kind.data v ++ rest) = (callback acc v).map fun acc' =>
      (.inl acc',rest) := by
  obtain ⟨he,body,hb,hd⟩ := hv
  obtain ⟨w,hw,hh,hd'⟩ := hkind.accepted hb
  obtain rfl : w = v := hkind.ext hh (hd'.trans hd.symm)
  rw [hd,append_assoc,processRecord,run_bind_of_ok (hkind.reads _ _),if_neg (by rw [he]; decide),← hb,
    run_bind_of_ok (readLimited_cursor _ _),take_left,drop_left,run_bind_of_ok
      (run_lift_eq_ok.mpr ⟨hw,rfl⟩)]
  cases callback acc w <;> rfl

theorem overRecords_processRecord :
    OverRecords (processRecord kind callback) kind.data kind.Exact callback kind.serialize
    (fun h => kind.isBookend h = true) fun acc _ => acc where
  run_record acc _ hv rest := run_processRecord hkind acc hv rest
  reads_end acc _ he rest := by
    rw [processRecord,run_bind_of_ok (hkind.reads _ _),if_pos he]
    rfl
  parses := parses_processRecord hkind
  length_pos v hv := by
    obtain ⟨-,body,-,hd⟩ := hv
    rw [hd,length_append,hkind.length_serialize]
    omega

/-- A section that is read is a sequence of exact views up to a bookend, and the callback ran
through them. -/
theorem parses_processSection : Parses (processSection kind callback acc) fun acc' e =>
    ∃ (vs : List V) (h : H), (∀ v ∈ vs, kind.Exact v) ∧ kind.isBookend h = true ∧
      e = vs.flatMap kind.data ++ kind.serialize h ∧ vs.foldlM callback acc = .ok acc' := by
  refine ((overRecords_processRecord hkind).parses_loop acc).mono fun acc' e => ?_
  rintro ⟨vs,h,_,hvs,he,rfl,hf,rfl⟩
  exact ⟨vs,h,hvs,he,rfl,hf⟩

theorem run_processSection {vs : List V} {h : H} (hvs : ∀ v ∈ vs, kind.Exact v)
    (he : kind.isBookend h = true) (rest : Bytes) :
    (processSection kind callback acc).run (vs.flatMap kind.data ++ kind.serialize h ++ rest) =
      (vs.foldlM callback acc).map fun acc' => (acc',rest) :=
  (overRecords_processRecord hkind).run_loop acc hvs he rest

end Laws

theorem run_fileInfoSection {β : Type} (fileCallback : β → MDBFileInfoView → Result β) (acc : β)
    {vs : List MDBFileInfoView} (hvs : ∀ v ∈ vs, fileInfoKind.Exact v) {h : FileDataSequenceHeader}
    (he : h.isBookend = true) (rest : Bytes) :
    (processShardFileInfoSection fileCallback acc).run
      (vs.flatMap MDBFileInfoView.data ++ h.serialize ++ rest) =
      (vs.foldlM fileCallback acc).map fun acc' => (acc',rest) :=
  run_processSection fileInfoKind_lawful acc hvs he rest

theorem run_xorbInfoSection {β : Type} (xorbCallback : β → MDBXorbInfoView → Result β) (acc : β)
    {xs : List MDBXorbInfoView} (hxs : ∀ v ∈ xs, xorbInfoKind.Exact v) {h : XorbChunkSequenceHeader}
    (he : h.isBookend = true) (rest : Bytes) :
    (processShardXorbInfoSection xorbCallback acc).run
      (xs.flatMap MDBXorbInfoView.data ++ h.serialize ++ rest) =
      (xs.foldlM xorbCallback acc).map fun acc' => (acc',rest) :=
  run_processSection xorbInfoKind_lawful acc hxs he rest

theorem exact_fileInfoView {v : MDBFileInfoView} (hv : fileInfoKind.Exact v) :
    ∃ (f : MDBFileInfo) (h : f.WellFormed), v = h.view := by
  obtain ⟨he,body,hb,hd⟩ := hv
  obtain ⟨f,hf,hh,hs⟩ := exists_fileInfo he hb
  exact ⟨f,hf,fileInfoKind_lawful.ext hh.symm (hd.trans hs.symm)⟩

theorem MDBFileInfo.WellFormed.exact_view {f : MDBFileInfo} (h : f.WellFormed) :
    fileInfoKind.Exact h.view := by
  refine ⟨h.not_bookend,_,?_,rfl⟩
  have hlen := h.length_serialize
  rw [MDBFileInfo.serialize,length_append,f.metadata.length_serialize] at hlen
  change _ = f.metadata.numFollowing * 48
  omega

theorem exact_xorbInfoView {v : MDBXorbInfoView} (hv : xorbInfoKind.Exact v) :
    ∃ (x : MDBXorbInfo) (h : x.WellFormed), v = h.view := by
  obtain ⟨he,body,hb,hd⟩ := hv
  obtain ⟨x,hx,hh,hs⟩ := exists_xorbInfo he hb
  exact ⟨x,hx,xorbInfoKind_lawful.ext hh.symm (hd.trans hs.symm)⟩

theorem MDBXorbInfo.WellFormed.exact_view {x : MDBXorbInfo} (h : x.WellFormed) :
    xorbInfoKind.Exact h.view := by
  refine ⟨h.not_bookend,_,?_,rfl⟩
  rw [length_flatMap_eq XorbChunkSequenceEntry.length_serialize]
  change _ = x.metadata.numEntries.toNat * 48
  rw [h.numEntries_eq]

end XetCore.Shard
