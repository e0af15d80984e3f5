import XetCore.Shard.Sections
import XetCore.Shard.ShardFormat

/-! # Minimal shards

A minimal shard keeps the views of the files and xorbs of a shard. It is read without the
lookup tables and the footer. The one reader takes any source, the other one an asynchronous
one, which refuses a shard where only some of the files have verification.
-/
namespace XetCore.Shard
open ByteSources ByteSource Serialization List
open Merkle (DataHash)

variable {vs : List MDBFileInfoView}

structure MDBMinimalShard where
  fileInfoViews : List MDBFileInfoView
  xorbInfoViews : List MDBXorbInfoView
deriving DecidableEq

/-- The hashes that were seen with the views that were kept. -/
abbrev SeenFiles := Finset DataHash × List MDBFileInfoView

def insertFile (includeFiles : Bool) (acc : SeenFiles) (fiv : MDBFileInfoView) : SeenFiles :=
  if includeFiles ∧ fiv.fileHash ∉ acc.1 then (insert fiv.fileHash acc.1,acc.2 ++ [fiv]) else acc

def allEqual : List Bool → Bool
  | [] => true
  | b :: bs => bs.all (· == b)

namespace MDBMinimalShard

section Read
variable {σ : Type} [ByteSource σ]

def readXorbs (includeXorb : Bool) : Reader σ CoreError (List MDBXorbInfoView) :=
  if includeXorb then processShardXorbInfoSection (fun views civ => .ok (views ++ [civ])) []
    else return []

def fromReader (includeFiles includeXorb : Bool) : Reader σ CoreError MDBMinimalShard := do
  let _ ← MDBShardFileHeader.deserialize
  let files ← processShardFileInfoSection (fun acc fiv => .ok (insertFile includeFiles acc fiv)) (∅,[])
  let xorbInfoViews ← readXorbs includeXorb
  return { fileInfoViews := files.2, xorbInfoViews }

variable (fileCallback : MDBFileInfoView → Result Unit) (xorbCallback : MDBXorbInfoView → Result Unit)

def insertFileWithCallback (includeFiles : Bool) (acc : SeenFiles) (fiv : MDBFileInfoView) :
    Result SeenFiles :=
  if includeFiles then do
    fileCallback fiv
    return insertFile true acc fiv
  else return acc

def insertXorbWithCallback (views : List MDBXorbInfoView) (civ : MDBXorbInfoView) :
    Result (List MDBXorbInfoView) := do
  xorbCallback civ
  return views ++ [civ]

def readXorbsAsync (includeXorb : Bool) : Reader σ CoreError (List MDBXorbInfoView) :=
  if includeXorb then processShardXorbInfoSectionAsync (insertXorbWithCallback xorbCallback) []
    else return []

def fromReaderAsyncWithCustomCallbacks (includeFiles includeXorb : Bool) :
    Reader σ CoreError MDBMinimalShard := do
  let buf ← readBytes 48
  let _ ← ofBuffer MDBShardFileHeader.deserialize buf
  let files ← processShardFileInfoSectionAsync (insertFileWithCallback fileCallback includeFiles) (∅,[])
  ensure (files.2 = [] ∨ allEqual (files.2.map MDBFileInfoView.containsVerification) = true)
    (.invalidShard "only some files contain verification")
  let xorbInfoViews ← readXorbsAsync xorbCallback includeXorb
  return { fileInfoViews := files.2, xorbInfoViews }

def fromReaderAsync (includeFiles includeXorb : Bool) : Reader σ CoreError MDBMinimalShard :=
  fromReaderAsyncWithCustomCallbacks (fun _ => .ok ()) (fun _ => .ok ()) includeFiles includeXorb

end Read

section Agreement
variable (includeFiles includeXorb : Bool) {σ : Type}

theorem follows_fromReader [ByteSource σ] :
    Follows (σ := σ) (fromReader includeFiles includeXorb) (fromReader includeFiles includeXorb) :=
  MDBShardFileHeader.follows_deserialize.bind fun _ =>
    (Follows.loop (follows_processRecord fileInfoKind_lawful) (∅,[])).bind fun _ =>
      .bind (by
        unfold readXorbs
        split
        · exact .loop (follows_processRecord xorbInfoKind_lawful) []
        · exact follows_pure []) fun _ => follows_pure _

theorem follows_fromReaderAsync [ByteSource σ] :
    Follows (σ := σ) (fromReaderAsync includeFiles includeXorb)
      (fromReaderAsync includeFiles includeXorb) := by
  refine (follows_readExact _ _).bind fun _ => (follows_lift _).bind fun _ =>
    (Follows.loop follows_processRecordAsync (∅,[])).bind fun _ => (follows_lift _).bind fun _ =>
      Follows.bind ?_ fun _ => follows_pure _
  unfold readXorbsAsync
  split
  · exact Follows.loop follows_processRecordAsync []
  · exact follows_pure []

theorem insertFileWithCallback_ok (includeFiles : Bool) :
    insertFileWithCallback (fun _ => .ok ()) includeFiles = fun acc fiv =>
      .ok (insertFile includeFiles acc fiv) := by
  funext acc fiv
  cases includeFiles with
  | true => rfl
  | false => rfl

theorem readXorbsAsync_ok (includeXorb : Bool) :
    (readXorbsAsync (fun _ => .ok ()) includeXorb : Reader Bytes CoreError _) =
      readXorbs includeXorb := by
  unfold readXorbsAsync readXorbs
  split
  · exact processSectionAsync_eq xorbInfoKind_lawful []
  · rfl

variable (m : MDBMinimalShard)

def VerificationUniform : Prop :=
  ∀ v ∈ m.fileInfoViews, ∀ w ∈ m.fileInfoViews, v.containsVerification = w.containsVerification

instance : Decidable m.VerificationUniform := by
  unfold VerificationUniform
  infer_instance

theorem allEqual_iff {bs : List Bool} : allEqual bs = true ↔ ∀ b ∈ bs, ∀ c ∈ bs, b = c := by
  cases bs with
  | nil => simp [allEqual]
  | cons b bs =>
    rw [allEqual,all_eq_true]
    constructor
    · intro h
      have hb : ∀ c ∈ b :: bs, c = b := fun c hc => (mem_cons.mp hc).elim id fun hc => by
        simpa using h c hc
      exact fun c hc d hd => (hb c hc).trans (hb d hd).symm
    · exact fun h c hc => by simpa using h c (mem_cons_of_mem _ hc) b mem_cons_self

theorem verificationUniform_iff : m.VerificationUniform ↔
      (m.fileInfoViews = [] ∨ allEqual (m.fileInfoViews.map MDBFileInfoView.containsVerification) =
        true) := by
  rw [allEqual_iff]
  simp only [forall_mem_map]
  refine ⟨Or.inr,?_⟩
  rintro (hn | h)
  · unfold VerificationUniform
    rw [hn]
    simp
  · exact h

theorem fromReaderAsync_toOption (s : Bytes) :
    ((fromReaderAsync includeFiles includeXorb).run s).toOption =
      ((fromReader includeFiles includeXorb).run s).toOption.filter fun r => r.1.VerificationUniform := by
  have hh : ((readBytes 48 >>= fun buf => liftM (ofBuffer MDBShardFileHeader.deserialize buf)).run
    s).toOption =
      (MDBShardFileHeader.deserialize.run s).toOption :=
    toOption_buffered MDBShardFileHeader.reads MDBShardFileHeader.parses_deserialize
      MDBShardFileHeader.length_serialize s
  have hf : (processShardFileInfoSectionAsync
    (insertFileWithCallback (fun _ => .ok ()) includeFiles) (∅,[]) :
      Reader Bytes CoreError _) =
        processShardFileInfoSection (fun acc fiv => .ok (insertFile includeFiles acc fiv)) (∅,[]) := by
    rw [insertFileWithCallback_ok]
    exact processSectionAsync_eq fileInfoKind_lawful _
  rw [fromReaderAsync,fromReaderAsyncWithCustomCallbacks,← bind_assoc,toOption_run_bind,hh,hf,
    readXorbsAsync_ok,fromReader,toOption_run_bind]
  cases MDBShardFileHeader.deserialize.run s with
  | error e => rfl
  | ok r =>
    change Except.toOption (StateT.run _ r.2) = (Except.toOption (StateT.run _ r.2)).filter _
    rw [toOption_run_bind,toOption_run_bind]
    cases (processShardFileInfoSection (fun acc fiv => .ok (insertFile includeFiles acc fiv))
      (∅,[])).run r.2 with
    | error e => rfl
    | ok q =>
      obtain ⟨files,t⟩ := q
      change Except.toOption (StateT.run _ t) = (Except.toOption (StateT.run _ t)).filter _
      rw [toOption_run_bind,toOption_run_bind,ensure,run_lift]
      have hu := fun xorbs => verificationUniform_iff ⟨files.2,xorbs⟩
      split_ifs with ha
      · change Except.toOption (StateT.run _ t) = _
        rw [toOption_run_bind]
        cases (readXorbs includeXorb).run t with
        | error e => rfl
        | ok x => exact (Option.filter_some_pos (by simpa using (hu x.1).mpr ha)).symm
      · cases (readXorbs includeXorb).run t with
        | error e => rfl
        | ok x => exact (Option.filter_some_neg (by simpa using mt (hu x.1).mp ha)).symm

/-- With the same bytes, the two readers return the same shard or both fail, except where only some
files have verification. -/
theorem async_result {τ : Type} [ByteSource σ] [ByteSource τ] {s : σ} {t : τ} (h : bytes s = bytes t) :
    (((fromReaderAsync includeFiles includeXorb).run t).map Prod.fst).toOption =
      (((fromReader includeFiles includeXorb).run s).map Prod.fst).toOption.filter fun m =>
        m.VerificationUniform := by
  have ht : ∀ x : Result (MDBMinimalShard × Bytes),
      (x.map Prod.fst).toOption = x.toOption.map Prod.fst := fun x => by cases x <;> rfl
  rw [(follows_fromReaderAsync includeFiles includeXorb).result_eq,
    (follows_fromReader includeFiles includeXorb).result_eq,
    h,ht,ht,fromReaderAsync_toOption,Option.filter_map]
  rfl

end Agreement

section Collected
variable {acc : SeenFiles}

theorem foldl_insertFile_true (hnodup : (vs.map MDBFileInfoView.fileHash).Nodup)
    (hn : ∀ v ∈ vs, v.fileHash ∉ acc.1) :
    (vs.foldl (insertFile true) acc).2 = acc.2 ++ vs := by
  induction vs generalizing acc with
  | nil => exact (append_nil _).symm
  | cons v vs ih =>
    obtain ⟨hv,hvs⟩ := forall_mem_cons.mp hn
    rw [map_cons,nodup_cons] at hnodup
    rw [foldl_cons,insertFile,if_pos ⟨rfl,hv⟩,ih hnodup.2,append_assoc,singleton_append]
    intro w hw
    rw [Finset.mem_insert,not_or]
    exact ⟨fun h => hnodup.1 (h ▸ mem_map_of_mem hw),hvs w hw⟩

/-- No two of the kept files have one hash, and all of these hashes were seen. -/
structure Collected (P : MDBFileInfoView → Prop) (acc : SeenFiles) : Prop where
  nodup : (acc.2.map MDBFileInfoView.fileHash).Nodup
  seen : ∀ v ∈ acc.2, v.fileHash ∈ acc.1
  holds : ∀ v ∈ acc.2, P v

variable {P : MDBFileInfoView → Prop}

theorem Collected.empty : Collected P (∅,[]) := ⟨nodup_nil,by simp,by simp⟩

theorem Collected.insertFile (h : Collected P acc) (includeFiles : Bool) {v : MDBFileInfoView}
    (hv : P v) : Collected P (insertFile includeFiles acc v) := by
  unfold Shard.insertFile
  split_ifs with hn
  · refine ⟨?_,?_,?_⟩
    · rw [map_append,nodup_append]
      refine ⟨h.nodup,by simp,fun a ha b hb => ?_⟩
      obtain ⟨w,hw,rfl⟩ := mem_map.mp ha
      obtain rfl := mem_singleton.mp hb
      exact fun heq => hn.2 (heq ▸ h.seen w hw)
    · intro w hw
      rcases mem_append.mp hw with hw | hw
      · exact Finset.mem_insert_of_mem (h.seen w hw)
      · obtain rfl := mem_singleton.mp hw
        exact Finset.mem_insert_self _ _
    · intro w hw
      rcases mem_append.mp hw with hw | hw
      · exact h.holds w hw
      · obtain rfl := mem_singleton.mp hw
        exact hv
  · exact h

theorem Collected.foldl (h : Collected P acc) (includeFiles : Bool)
    (hvs : ∀ v ∈ vs, P v) : Collected P (vs.foldl (Shard.insertFile includeFiles) acc) := by
  induction vs generalizing acc with
  | nil => exact h
  | cons v vs ih =>
    obtain ⟨hv,hvs⟩ := forall_mem_cons.mp hvs
    exact ih (h.insertFile includeFiles hv) hvs

theorem foldlM_ok {α β : Type} (f : β → α → β) (b : β) (l : List α) :
    l.foldlM (fun b a => (.ok (f b a) : Result β)) b = .ok (l.foldl f b) := foldlM_pure

theorem foldl_push {α : Type} (l acc : List α) :
    l.foldl (fun views v => views ++ [v]) acc = acc ++ l := by
  induction l generalizing acc with
  | nil => exact (append_nil _).symm
  | cons a l ih => rw [foldl_cons,ih,append_assoc,singleton_append]

end Collected

section Loaded
variable (includeFiles includeXorb : Bool)

/-- What reading a shard gives: exact views, and a file for each hash. -/
structure Loaded (m : MDBMinimalShard) : Prop where
  exactFiles : ∀ v ∈ m.fileInfoViews, fileInfoKind.Exact v
  exactXorbs : ∀ v ∈ m.xorbInfoViews, xorbInfoKind.Exact v
  nodup : (m.fileInfoViews.map MDBFileInfoView.fileHash).Nodup

theorem loaded_of_fromReader {includeFiles includeXorb : Bool} {s s' : Bytes} {m : MDBMinimalShard}
    (h : (fromReader includeFiles includeXorb).run s = .ok (m,s')) : m.Loaded := by
  simp only [fromReader,run_bind_eq_ok] at h
  obtain ⟨_,_,-,files,t,hfi,xorbs,_,hx,rfl,-⟩ := h
  obtain ⟨_,-,vs,_,hvs,-,-,hf⟩ := parses_processSection fileInfoKind_lawful _ _ _ _ hfi
  have hc : Collected fileInfoKind.Exact files := by
    rw [foldlM_ok] at hf
    rw [← Except.ok.inj hf]
    exact Collected.empty.foldl includeFiles hvs
  refine ⟨hc.holds,?_,hc.nodup⟩
  unfold readXorbs at hx
  split at hx
  · obtain ⟨_,-,xs,_,hxs,-,-,hf⟩ := parses_processSection xorbInfoKind_lawful _ _ _ _ hx
    rw [foldlM_ok,foldl_push] at hf
    rw [← Except.ok.inj hf]
    exact hxs
  · obtain ⟨rfl,-⟩ := run_pure_eq_ok.mp hx
    simp

section
variable {xs : List MDBXorbInfoView} (hvs : ∀ v ∈ vs, fileInfoKind.Exact v)
  (hxs : ∀ v ∈ xs, xorbInfoKind.Exact v) (hnodup : (vs.map MDBFileInfoView.fileHash).Nodup)
  (header : MDBShardFileHeader)
include hvs hxs hnodup header

/-- A shard whose files have hashes of their own is read back, whatever its bookends are. -/
theorem fromReader_bookends {f : FileDataSequenceHeader}
    {x : XorbChunkSequenceHeader} (hf : f.isBookend = true) (hx : x.isBookend = true) (rest : Bytes) :
    ((fromReader includeFiles includeXorb).run
      (header.serialize ++ ((vs.flatMap MDBFileInfoView.data ++ f.serialize) ++
      ((xs.flatMap MDBXorbInfoView.data ++ x.serialize) ++ rest)))).map Prod.fst =
      .ok ⟨if includeFiles then vs else [],if includeXorb then xs else []⟩ := by
  have hfi := run_fileInfoSection (fun acc fiv => .ok (insertFile includeFiles acc fiv)) (∅,[]) hvs hf
  have hxo := run_xorbInfoSection (fun views civ => .ok (views ++ [civ])) [] hxs hx
  have hk : (vs.foldl (insertFile includeFiles) (∅,[])).2 = if includeFiles then vs else [] := by
    cases includeFiles with
    | true => exact foldl_insertFile_true hnodup (by simp)
    | false =>
      rw [foldl_fixed' fun v => by rw [insertFile,if_neg (by simp)]]
      rfl
  simp only [foldlM_ok] at hfi hxo
  rw [foldl_push] at hxo
  rw [fromReader,run_bind_of_ok (header.reads _),run_bind_of_ok (hfi _),readXorbs,← hk]
  cases includeXorb with
  | true =>
    rw [if_pos rfl,run_bind_of_ok (hxo rest)]
    rfl
  | false => rfl

theorem fromReader_sections (rest : Bytes) :
    ((fromReader includeFiles includeXorb).run (header.serialize ++ ((vs.flatMap MDBFileInfoView.data ++
      FileDataSequenceHeader.bookend.serialize) ++ ((xs.flatMap MDBXorbInfoView.data ++
        XorbChunkSequenceHeader.bookend.serialize) ++ rest)))).map Prod.fst =
      .ok ⟨if includeFiles then vs else [],if includeXorb then xs else []⟩ :=
  fromReader_bookends includeFiles includeXorb hvs hxs hnodup header
    FileDataSequenceHeader.bookend_isBookend
    XorbChunkSequenceHeader.bookend_isBookend rest

end

end Loaded

end MDBMinimalShard
end XetCore.Shard
