import XetCore.Shard.MergeRounds
import XetCore.Shard.Restored

/-! # What a set operation writes

The union of two shards has the files and xorbs of both. Of two records of one file the one
with more parts is kept, or a record with the parts of both. The difference has what only the
second shard has.
-/
namespace XetCore.Shard
open ByteSources Serialization SortedMerge List
open Merkle (DataHash)

section Files

def mergedFile (a b : MDBFileInfo) : MDBFileInfo where
  metadata := {
    fileHash := a.metadata.fileHash
    fileFlags := FileDataSequenceHeader.flagsOf
      (a.metadata.containsVerification || b.metadata.containsVerification)
      (a.metadata.containsMetadataExt || b.metadata.containsMetadataExt)
    numEntries := a.metadata.numEntries }
  segments := a.segments
  verification := if a.metadata.containsVerification then a.verification else b.verification
  metadataExt := if a.metadata.containsMetadataExt then a.metadataExt else b.metadataExt

def unionFile (a b : MDBFileInfo) : MDBFileInfo :=
  match FileDataSequenceHeader.compareFlagSuperset a.metadata b.metadata with
  | .superA => a
  | .equal => a
  | .superB => b
  | .neither => mergedFile a b

def bothOf {α : Type} (union : α → α → α) (op : MDBSetOperation) (a b : α) : Option α :=
  match op with
  | .union => some (union a b)
  | .difference => none

variable (op : MDBSetOperation)

def keepsFirst : Bool := op = .union

def mergedFiles (fs gs : List MDBFileInfo) : List MDBFileInfo :=
  mergeBy (fun f => f.metadata.fileHash) (keepsFirst op) (bothOf unionFile op) fs gs

def mergedXorbs (xs ys : List MDBXorbInfo) : List MDBXorbInfo :=
  mergeBy (fun x => x.metadata.xorbHash) (keepsFirst op) (bothOf (fun x _ => x) op) xs ys

def fileBody (f : MDBFileInfo) : Bytes :=
  f.segments.flatMap FileDataSequenceEntry.serialize ++
    ((if f.containsVerification then f.verification.flatMap FileVerificationEntry.serialize else []) ++
      (f.metadataExt.elim [] FileMetadataExt.serialize))

def fileKind : RecordKind FileDataSequenceHeader FileSetOutput MDBFileInfo where
  header := MDBFileInfo.metadata
  front f := f.metadata.serialize
  body := fileBody
  push o f := o.push f.stripped

/-- A record that agrees with its header, with an index of 32 bits. -/
structure Countable (f : MDBFileInfo) : Prop where
  wellFormed : f.WellFormed
  lt : f.metadata.numFollowing < 2 ^ 32

variable {f : MDBFileInfo}

theorem Countable.length_body (h : Countable f) : (fileBody f).length = f.metadata.numFollowing * 48 := by
  have hlen := h.wellFormed.length_serialize
  have hs : f.serialize = f.metadata.serialize ++ fileBody f := rfl
  rw [hs,length_append,FileDataSequenceHeader.length_serialize] at hlen
  omega

theorem reads_seekForward (e : Bytes) : Reads (seekForward e.length) e () := by
  intro rest
  change Except.ok ((),(e ++ rest).drop e.length) = _
  rw [drop_left]

theorem lawful_fileKind : fileKind.Lawful fileSections Countable where
  reads_front f hf := by
    have hso : Reads (pure (if f.metadata.isBookend then none else some f.metadata) : Reader Bytes
      CoreError _) []
        (some f.metadata) := by
      rw [hf.wellFormed.not_bookend]
      exact reads_pure _
    exact f.metadata.reads.bind_nil hso
  run_copyToOut f hf o rest := by
    change (copyFile f.metadata o).run (fileBody f ++ rest) = _
    rw [fileBody,append_assoc,append_assoc,copyFile,run_bind_of_ok (hf.wellFormed.reads_segments _),
      run_bind_of_ok (hf.wellFormed.reads_verification _),run_bind_of_ok
        (hf.wellFormed.reads_metadataExt _),run_lift]
    rfl
  reads_skipOver f hf := by
    have hfo := numInfoEntryFollowing_ok.mpr ⟨rfl,hf.lt⟩
    have hs := reads_seekForward (fileBody f)
    rw [hf.length_body] at hs
    exact (reads_lift hfo).bind hs

section Merge

def verificationBytes (f : MDBFileInfo) : Bytes :=
  if f.containsVerification then f.verification.flatMap FileVerificationEntry.serialize else []

def metadataExtBytes (f : MDBFileInfo) : Bytes := f.metadataExt.elim [] FileMetadataExt.serialize

theorem reads_verificationBytes (h : f.WellFormed) (hv : f.metadata.containsVerification = true) :
    Reads (readMany FileVerificationEntry.deserialize f.metadata.numEntries.toNat) (verificationBytes f)
      (f.verification.map FileVerificationEntry.stripped) := by
  have hr := h.reads_verification
  unfold MDBFileInfo.deserializeVerification at hr
  rwa [if_pos hv] at hr

theorem reads_metadataExtBytes (h : f.WellFormed) (he : f.metadata.containsMetadataExt = true) :
    ∃ m, f.metadataExt = some m ∧ Reads FileMetadataExt.deserialize (metadataExtBytes f) m.stripped := by
  have hs := h.metadataExt_isSome.trans he
  obtain ⟨m,hm⟩ := Option.isSome_iff_exists.mp hs
  refine ⟨m,hm,?_⟩
  rw [metadataExtBytes,hm]
  exact m.reads

theorem drop_verificationBytes (h : f.WellFormed) (rest : Bytes) :
    (if f.metadata.containsVerification then
      (verificationBytes f ++ rest).drop (f.metadata.numEntries.toNat * mdbFileInfoEntrySize)
      else verificationBytes f ++ rest) = rest := by
  have hlen := h.verification_length
  unfold MDBFileInfo.containsVerification at hlen
  unfold verificationBytes MDBFileInfo.containsVerification
  split_ifs with hv
  · rw [hv,if_pos rfl] at hlen
    exact drop_left' (by rw [length_flatMap_eq FileVerificationEntry.length_serialize,hlen,
      h.numEntries_eq])
  · rfl

theorem drop_metadataExtBytes (h : f.WellFormed) (rest : Bytes) :
    (if f.metadata.containsMetadataExt then (metadataExtBytes f ++ rest).drop mdbFileInfoEntrySize
      else metadataExtBytes f ++ rest) = rest := by
  have hs := h.metadataExt_isSome
  unfold MDBFileInfo.containsMetadataExt at hs
  rw [metadataExtBytes,← hs]
  cases f.metadataExt with
  | none => rfl
  | some m => exact drop_left' m.length_serialize

variable {a b : MDBFileInfo} (ha : a.WellFormed) (hb : b.WellFormed)
include ha hb

theorem mergeVerification_eq (r0 r1 : Bytes) :
    mergeVerification a.metadata b.metadata (verificationBytes a ++ r0,verificationBytes b ++ r1) =
      .ok ((if a.metadata.containsVerification then a.verification else b.verification).map
        FileVerificationEntry.stripped,r0,r1) := by
  have he : ∀ f : MDBFileInfo, ¬f.metadata.containsVerification = true → verificationBytes f = [] :=
    fun f hv => if_neg hv
  rw [mergeVerification]
  by_cases hva : a.metadata.containsVerification = true
  · rw [if_pos hva,if_pos hva,reads_verificationBytes ha hva,ok_bind]
    exact congrArg (fun r => Except.ok (_,r0,r)) (drop_verificationBytes hb r1)
  · rw [if_neg hva,if_neg hva,he a hva]
    by_cases hvb : b.metadata.containsVerification = true
    · rw [if_pos hvb,reads_verificationBytes hb hvb]
      rfl
    · have hlen := hb.verification_length.trans (if_neg hvb)
      rw [if_neg hvb,he b hvb,length_eq_zero_iff.mp hlen]
      rfl

theorem mergeMetadataExt_eq (r0 r1 : Bytes) :
    mergeMetadataExt a.metadata b.metadata (metadataExtBytes a ++ r0,metadataExtBytes b ++ r1) =
      .ok ((if a.metadata.containsMetadataExt then a.metadataExt else b.metadataExt).map
        FileMetadataExt.stripped,r0,r1) := by
  have hn : ∀ f : MDBFileInfo, f.WellFormed → ¬f.metadata.containsMetadataExt = true →
    f.metadataExt = none :=
    fun f hf he => Option.not_isSome_iff_eq_none.mp (by rw [hf.metadataExt_isSome]; exact he)
  rw [mergeMetadataExt]
  by_cases hea : a.metadata.containsMetadataExt = true
  · obtain ⟨m,hm,hr⟩ := reads_metadataExtBytes ha hea
    rw [if_pos hea,if_pos hea,hr,ok_bind,hm]
    exact congrArg (fun r => Except.ok (_,r0,r)) (drop_metadataExtBytes hb r1)
  · have hem : metadataExtBytes a = [] := by rw [metadataExtBytes,hn a ha hea]; rfl
    rw [if_neg hea,if_neg hea,hem]
    by_cases heb : b.metadata.containsMetadataExt = true
    · obtain ⟨m,hm,hr⟩ := reads_metadataExtBytes hb heb
      rw [if_pos heb,hr,hm]
      rfl
    · have hem' : metadataExtBytes b = [] := by rw [metadataExtBytes,hn b hb heb]; rfl
      rw [if_neg heb,hem',hn b hb heb]
      rfl

end Merge

section Rounds
variable {a b : MDBFileInfo} {as bs : List MDBFileInfo} {o : FileSetOutput}
  {tail0 ending0 tail1 ending1 : Bytes}

theorem mergeFile_eq (he0 : loadNextFile.run tail0 = .ok (none,ending0))
    (he1 : loadNextFile.run tail1 = .ok (none,ending1))
    (ha : Countable a) (hb : Countable b) (has : ∀ f ∈ as, Countable f) (hbs : ∀ f ∈ bs, Countable f) :
    mergeFile ⟨fileKind.sideOf tail0 ending0 (a :: as),fileKind.sideOf tail1 ending1 (b :: bs),o⟩ =
      (o.push (mergedFile a b).stripped).map fun o' =>
        ⟨fileKind.sideOf tail0 ending0 as,fileKind.sideOf tail1 ending1 bs,o'⟩ := by
  have hh : FileDataSequenceHeader.new a.metadata.fileHash a.metadata.numEntries.toNat
      (a.metadata.containsVerification || b.metadata.containsVerification)
      (a.metadata.containsMetadataExt || b.metadata.containsMetadataExt) =
        .ok (mergedFile a b).metadata := by
    rw [FileDataSequenceHeader.new,tryIntoU32_of_lt a.metadata.numEntries.toNat_lt,ok_bind,
      UInt32.ofNat_toNat]
    rfl
  have hs := ha.wellFormed.reads_segments
    (verificationBytes a ++ (metadataExtBytes a ++ fileKind.encode tail0 as))
  have hbo : ∀ (f : MDBFileInfo) (rest : Bytes), fileBody f ++ rest =
      f.segments.flatMap FileDataSequenceEntry.serialize ++
        (verificationBytes f ++ (metadataExtBytes f ++ rest)) :=
    fun f rest => by rw [fileBody,append_assoc,append_assoc]; rfl
  have hd : (fileBody b ++ fileKind.encode tail1 bs).drop
    (b.metadata.numEntries.toNat * mdbFileInfoEntrySize) =
      verificationBytes b ++ (metadataExtBytes b ++ fileKind.encode tail1 bs) := by
    rw [hbo]
    exact drop_left' (by rw [length_flatMap_eq FileDataSequenceEntry.length_serialize,
      hb.wellFormed.numEntries_eq])
  have hl0 := lawful_fileKind.run_loadNext he0 has
  have hl1 := lawful_fileKind.run_loadNext he1 hbs
  have hh0 : unwrap (fileKind.sideOf tail0 ending0 (a :: as)).header = .ok a.metadata := rfl
  have hh1 : unwrap (fileKind.sideOf tail1 ending1 (b :: bs)).header = .ok b.metadata := rfl
  have hr0 : (fileKind.sideOf tail0 ending0 (a :: as)).remaining = fileBody a ++
    fileKind.encode tail0 as := rfl
  have hr1 : (fileKind.sideOf tail1 ending1 (b :: bs)).remaining = fileBody b ++
    fileKind.encode tail1 bs := rfl
  rw [mergeFile]
  dsimp only
  rw [hh0,ok_bind,hh1,ok_bind,hh,ok_bind,hr0,hbo,hs,ok_bind,hr1,hd]
  rw [mergeVerification_eq ha.wellFormed hb.wellFormed,ok_bind]
  rw [mergeMetadataExt_eq ha.wellFormed hb.wellFormed,ok_bind]
  change (o.push (mergedFile a b).stripped >>= _) = _
  cases o.push (mergedFile a b).stripped with
  | error e => rfl
  | ok o' =>
    have hl0' : loadNextFile.run (fileKind.encode tail0 as) = _ := hl0
    have hl1' : loadNextFile.run (fileKind.encode tail1 bs) = _ := hl1
    rw [ok_bind,hl0',ok_bind]
    rw [hl1']
    rfl

theorem merges_files (op : MDBSetOperation) :
    RecordKind.Merges (fun f : MDBFileInfo => f.metadata.fileHash) (keepsFirst op)
    (bothOf unionFile op) op fileSections fileKind Countable where
  none_none := rfl
  some_none f := by cases op <;> rfl
  none_some f := rfl
  lt a b hlt := by
    have hc := compare_lt_iff_lt.mpr hlt
    change getNextActionsForFileInfo (some a.metadata) (some b.metadata) op = _
    simp only [getNextActionsForFileInfo,getNextActions,Option.map_some,hc]
    cases op <;> rfl
  gt a b hlt := by
    have hc := compare_gt_iff_gt.mpr hlt
    change getNextActionsForFileInfo (some a.metadata) (some b.metadata) op = _
    simp only [getNextActionsForFileInfo,getNextActions,Option.map_some,hc]
    cases op <;> rfl
  eq a b ha hb heq := by
    have hc := compare_eq_iff_eq.mpr heq
    have hac : getNextActionsForFileInfo (some a.metadata) (some b.metadata) op = some (match op with
        | .union => sameFileActions a.metadata b.metadata
        | .difference => (.skipOver,.skipOver)) := by
      simp only [getNextActionsForFileInfo,getNextActions,Option.map_some,hc]
      cases op <;> rfl
    refine ⟨_,hac,fun tail0 ending0 tail1 ending1 as bs o he0 he1 has hbs => ?_⟩
    cases op with
    | difference => exact lawful_fileKind.act_skip_skip he0 he1 ha has hb hbs
    | union =>
      rw [bothOf,unionFile,sameFileActions,RecordKind.foldlM_toList_some]
      cases FileDataSequenceHeader.compareFlagSuperset a.metadata b.metadata with
      | superA => exact lawful_fileKind.act_copy_skip he0 he1 ha has hb hbs
      | equal => exact lawful_fileKind.act_copy_skip he0 he1 ha has hb hbs
      | superB =>
        rw [lawful_fileKind.act_skipOver he0 ha has rfl,ok_bind,
          lawful_fileKind.act_copyToOut he1 hb hbs rfl]
        rfl
      | neither =>
        have hm : fileSections.act 0 .merge
            ⟨fileKind.sideOf tail0 ending0 (a :: as),fileKind.sideOf tail1 ending1 (b :: bs),o⟩ = _ :=
          mergeFile_eq he0 he1 ha hb has hbs
        rw [hm]
        change _ = Except.map _ (o.push (mergedFile a b).stripped)
        cases o.push (mergedFile a b).stripped <;> rfl

end Rounds

end Files

def xorbKind : RecordKind XorbChunkSequenceHeader XorbSetOutput MDBXorbInfo where
  header := MDBXorbInfo.metadata
  front x := x.metadata.serialize
  body x := x.chunks.flatMap XorbChunkSequenceEntry.serialize
  push := XorbSetOutput.push

theorem lawful_xorbKind : xorbKind.Lawful xorbSections MDBXorbInfo.WellFormed where
  reads_front x hx := by
    have hso : Reads (pure (if x.metadata.isBookend then none else some x.metadata) : Reader Bytes
      CoreError _) []
        (some x.metadata) := by
      rw [hx.not_bookend]
      exact reads_pure _
    exact x.metadata.reads.bind_nil hso
  run_copyToOut x hx o rest := by
    have hc : Reads (readMany XorbChunkSequenceEntry.deserialize x.metadata.numEntries.toNat)
        (x.chunks.flatMap XorbChunkSequenceEntry.serialize) x.chunks := by
      rw [hx.numEntries_eq]
      exact reads_many fun c _ => c.reads
    change (copyXorb x.metadata o).run (x.chunks.flatMap XorbChunkSequenceEntry.serialize ++ rest) = _
    rw [copyXorb,run_bind_of_ok (hc _),run_lift]
    rfl
  reads_skipOver x hx := by
    have hs := reads_seekForward (x.chunks.flatMap XorbChunkSequenceEntry.serialize)
    rwa [length_flatMap_eq XorbChunkSequenceEntry.length_serialize,← hx.numEntries_eq] at hs

theorem merges_xorbs (op : MDBSetOperation) :
    RecordKind.Merges (fun x : MDBXorbInfo => x.metadata.xorbHash) (keepsFirst op)
    (bothOf (fun x _ => x) op) op xorbSections xorbKind MDBXorbInfo.WellFormed where
  none_none := rfl
  some_none x := by cases op <;> rfl
  none_some x := rfl
  lt a b hlt := by
    change getNextActions (some a.metadata.xorbHash) (some b.metadata.xorbHash) op = _
    simp only [getNextActions,compare_lt_iff_lt.mpr hlt]
    cases op <;> rfl
  gt a b hlt := by
    change getNextActions (some a.metadata.xorbHash) (some b.metadata.xorbHash) op = _
    simp [getNextActions,compare_gt_iff_gt.mpr hlt]
  eq a b ha hb heq := by
    have hac : getNextActions (some a.metadata.xorbHash) (some b.metadata.xorbHash) op =
      some (match op with
        | .union => (.copyToOut,.skipOver)
        | .difference => (.skipOver,.skipOver)) := by
      simp only [getNextActions,compare_eq_iff_eq.mpr heq]
      cases op <;> rfl
    refine ⟨_,hac,fun tail0 ending0 tail1 ending1 as bs o he0 he1 has hbs => ?_⟩
    cases op with
    | difference => exact lawful_xorbKind.act_skip_skip he0 he1 ha has hb hbs
    | union =>
      rw [bothOf,RecordKind.foldlM_toList_some]
      exact lawful_xorbKind.act_copy_skip he0 he1 ha has hb hbs

end XetCore.Shard
