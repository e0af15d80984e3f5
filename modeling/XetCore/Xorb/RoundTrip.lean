import XetCore.Xorb.ObjectWriter
import XetCore.Xorb.StoredObject

/-! # Written objects are read back

What the writer puts out for some data are stored chunks that hold the data, whatever
schemes are chosen on the way. The index behind a block is a machine word. A retest interval
near the largest word makes it overflow, unless there is only one file.
-/
namespace XetCore.Xorb
open ByteSources Serialization Chunking Extents Shard List
open Merkle (xorbHash)

variable {E : XorbEnv} {Z : Compressor} {w : WrittenChunks} {ds data : List Bytes}
  {scheme : CompressionScheme}
variable {interval endIdx fuel s : ℕ} {rest : List ℕ}

theorem serializeChunk_stored (hz : Z.Inverts) (scheme : CompressionScheme) {d : Bytes}
    (hlen : d.length ≤ maxChunkSize) : ∃ c :
    StoredChunk Z, serializeChunk Z d scheme = .ok (c.bytes,c.bytes.length) ∧
      c.chunk = d ∧ c.unread = [] ∧ c.bytes.length ≤ d.length + 8 := by
  obtain ⟨f,hf,hh,hle⟩ := serializeChunk_frame hz scheme hlen
  refine ⟨⟨f,d,f.payload.length,hh.decode_eq,hh.length_eq⟩,hf,rfl,drop_length,?_⟩
  exact Nat.add_le_add_right hle 8

/-- The written bytes are those of stored chunks that hold these data. -/
def Wrote (Z : Compressor) (w : WrittenChunks) (ds : List Bytes) : Prop :=
  ∃ cs : List (StoredChunk Z), cs.map StoredChunk.chunk = ds ∧
    (∀ c ∈ cs, c.unread = [] ∧ c.bytes.length ≤ c.chunk.length + 8) ∧
    w = { data := cs.flatMap StoredChunk.bytes
          boundaryOffsets := (boundariesFrom 0 (cs.map fun c => c.bytes.length)).map asU32 }

theorem wrote_nil : Wrote Z {} [] := ⟨[],rfl,nofun,rfl⟩

theorem Wrote.writeChunk (h : Wrote Z w ds) (hz : Z.Inverts) (scheme : CompressionScheme) {d : Bytes}
    (hlen : d.length ≤ maxChunkSize) :
    ∃ w', writeChunk Z scheme w d = .ok w' ∧ Wrote Z w' (ds ++ [d]) := by
  obtain ⟨cs,rfl,ha,rfl⟩ := h
  obtain ⟨c,hc,rfl,hu,hle⟩ := serializeChunk_stored hz scheme hlen
  refine ⟨_,by rw [Xorb.writeChunk,hc]; rfl,cs ++ [c],by simp,?_,?_⟩
  · intro c' hc'
    rcases mem_append.mp hc' with hc' | hc'
    · exact ha c' hc'
    · rw [mem_singleton.mp hc']
      exact ⟨hu,hle⟩
  · have hs : (cs.map fun c => c.bytes.length).sum = (cs.flatMap StoredChunk.bytes).length :=
      length_flatMap.symm
    rw [map_append,boundariesFrom_append,map_append,flatMap_append,Nat.zero_add,hs]
    simp [boundariesFrom]

theorem Wrote.writeChunks (h : Wrote Z w ds) (hz : Z.Inverts) (scheme : CompressionScheme)
    {block : List Bytes} (hlen : ∀ d ∈ block, d.length ≤ maxChunkSize) :
    ∃ w', block.foldlM (Xorb.writeChunk Z scheme) w = .ok w' ∧ Wrote Z w' (ds ++ block) := by
  induction block generalizing w ds with
  | nil => exact ⟨w,rfl,by rwa [append_nil]⟩
  | cons d block ih =>
    obtain ⟨hd,hb⟩ := forall_mem_cons.mp hlen
    obtain ⟨w₁,hw₁,h₁⟩ := h.writeChunk hz scheme hd
    obtain ⟨w₂,hw₂,h₂⟩ := ih h₁ hb
    refine ⟨w₂,?_,?_⟩
    · rw [foldlM_cons,hw₁]
      exact hw₂
    · rwa [append_assoc,singleton_append] at h₂

theorem Wrote.writeBlocks (hz : Z.Inverts) (hlen : ∀ d ∈ data, d.length ≤ maxChunkSize)
    (hda : data.length < 2 ^ 63) (hi : 0 < interval) (he : endIdx ≤ data.length) (hs : s ≤ endIdx)
    (hfu : endIdx ≤ fuel + s) (hf : s < endIdx → s + interval < 2 ^ 64) (h : Wrote Z w (data.take s)) :
    ∃ w', writeBlocks Z data interval endIdx fuel s w = .ok w' ∧ Wrote Z w' (data.take endIdx) := by
  induction fuel generalizing s w with
  | zero =>
    obtain rfl : s = endIdx := by omega
    exact ⟨w,rfl,h⟩
  | succ fuel ih =>
    rw [Xorb.writeBlocks]
    rcases Nat.eq_or_lt_of_le hs with rfl | hlt
    · rw [if_neg (Nat.lt_irrefl s)]
      exact ⟨w,rfl,h⟩
    · have hg : data[s]? = some data[s] := getElem?_eq_getElem (by omega)
      have hsl : sliceAt data s (min (s + interval) endIdx) =
        .ok (slice data s (min (s + interval) endIdx)) :=
        if_pos ⟨by omega,by omega⟩
      have hb : ∀ d ∈ slice data s (min (s + interval) endIdx), d.length ≤ maxChunkSize := fun d hd =>
        hlen d (mem_of_mem_slice hd)
      obtain ⟨w₁,hw₁,h₁⟩ := h.writeChunks hz (Z.chooseFromData data[s]) hb
      rw [take_append_slice data (by omega)] at h₁
      obtain ⟨w₂,hw₂,h₂⟩ := ih (by omega) (by omega) (by omega) h₁
      refine ⟨w₂,?_,h₂⟩
      rw [if_pos hlt,addUsize,if_pos (hf hlt),ok_bind,hg,unwrap,ok_bind,hsl,ok_bind,hw₁]
      exact hw₂

theorem Wrote.writeFiles (hz : Z.Inverts) (hlen : ∀ d ∈ data, d.length ≤ maxChunkSize)
    (hd : data.length < 2 ^ 63)
    {start : ℕ} {rest : List ℕ} (hi : 0 < interval) (hso : (start :: rest).Pairwise (· ≤ ·))
    (hlt : ∀ b ∈ start :: rest, b < data.length) (hf : ∀ b ∈ start :: rest, b + interval < 2 ^ 64)
    (h : Wrote Z w (data.take start)) :
    ∃ w', Xorb.writeFiles Z data interval (start :: rest) w = .ok w' ∧ Wrote Z w' data := by
  induction rest generalizing start w with
  | nil =>
    have hs := hlt start mem_cons_self
    obtain ⟨w₁,hw₁,h₁⟩ := h.writeBlocks hz hlen hd hi le_rfl hs.le (Nat.le_add_right _ _)
      fun _ => hf start mem_cons_self
    rw [take_length] at h₁
    refine ⟨w₁,?_,h₁⟩
    exact bind_eq_ok.mpr ⟨w₁,hw₁,rfl⟩
  | cons b bs ih =>
    obtain ⟨hle,hr⟩ := pairwise_cons.mp hso
    obtain ⟨hs,hbs⟩ := forall_mem_cons.mp hlt
    obtain ⟨hsf,hb⟩ := forall_mem_cons.mp hf
    obtain ⟨w₁,hw₁,h₁⟩ := h.writeBlocks hz hlen hd hi (hbs b mem_cons_self).le (hle b mem_cons_self)
      (Nat.le_add_right _ _) fun _ => hsf
    obtain ⟨w₂,hw₂,h₂⟩ := ih hr hbs hb h₁
    refine ⟨w₂,?_,h₂⟩
    exact bind_eq_ok.mpr ⟨w₁,hw₁,hw₂⟩

theorem writeBlocks_fits {w' : WrittenChunks} (hf : fuel ≠ 0) (hlt : s < endIdx)
    (h : writeBlocks Z data interval endIdx fuel s w = .ok w') : s + interval < 2 ^ 64 := by
  obtain ⟨n,rfl⟩ := Nat.exists_eq_succ_of_ne_zero hf
  rw [writeBlocks,if_pos hlt] at h
  obtain ⟨next,hn,-⟩ := bind_eq_ok.mp h
  by_contra ho
  rw [addUsize,if_neg ho] at hn
  cases hn

theorem writeFiles_fits {start : ℕ} {rest : List ℕ} {w' : WrittenChunks}
    (hlt : ∀ b ∈ start :: rest, b < data.length)
    (h : writeFiles Z data interval (start :: rest) w = .ok w') :
    (start :: rest).getLast (List.cons_ne_nil _ _) + interval < 2 ^ 64 := by
  induction rest generalizing start w with
  | nil =>
    have hs := hlt start mem_cons_self
    obtain ⟨w₁,hw₁,-⟩ := bind_eq_ok.mp h
    exact writeBlocks_fits (Nat.ne_zero_of_lt hs) hs hw₁
  | cons b bs ih =>
    obtain ⟨w₁,-,hr⟩ := bind_eq_ok.mp h
    exact ih (forall_mem_cons.mp hlt).2 hr

theorem entriesFrom_spec {pos : ℕ} {cs : List Chunk}
    (h : pos + (cs.map fun c => c.data.length).sum < 2 ^ 32) :
    ∃ entries, RawXorbData.entriesFrom pos cs = .ok (entries,pos + (cs.map fun c => c.data.length).sum) ∧
      ∀ metadata, (MDBXorbInfo.mk metadata entries).chunksAndBoundaries =
        .ok ((cs.map Chunk.hash).zip (boundariesFrom pos (cs.map fun c => c.data.length))) := by
  induction cs generalizing pos with
  | nil => exact ⟨[],rfl,fun _ => rfl⟩
  | cons c cs ih =>
    rw [map_cons,sum_cons] at h
    have hn : pos + c.data.length + (cs.map fun c => c.data.length).sum < 2 ^ 32 := by omega
    obtain ⟨entries,he,hen⟩ := ih hn
    have hs : UInt32.size = 2 ^ 32 := rfl
    have hlen : (UInt32.ofNat c.data.length).toNat = c.data.length := UInt32.toNat_ofNat_of_lt' (by omega)
    have hp : (UInt32.ofNat pos).toNat = pos := UInt32.toNat_ofNat_of_lt' (by omega)
    refine ⟨⟨c.hash,UInt32.ofNat pos,UInt32.ofNat c.data.length,0,0⟩ :: entries,?_,fun metadata => ?_⟩
    · rw [RawXorbData.entriesFrom,XorbChunkSequenceEntry.new,tryIntoU32_of_lt (by omega),ok_bind,
        tryIntoU32_of_lt (by omega),ok_bind,pure_bind,he,ok_bind,map_cons,sum_cons,Nat.add_assoc]
      rfl
    · have hr := hen metadata
      rw [MDBXorbInfo.chunksAndBoundaries] at hr ⊢
      rw [mapM_cons,hr,hlen,hp,addU32_of_lt (by omega)]
      rfl

theorem fromChunks_spec {ds : List Bytes} (hlen : ds.length < 2 ^ 32) (ht : ds.flatten.length < 2 ^ 32)
    (fileBoundaries : List ℕ) :
    ∃ raw, RawXorbData.fromChunks E (ds.map (Chunk.new E)) fileBoundaries = .ok raw ∧
      raw.data = ds ∧ raw.hash = xorbHash E.hasher (ds.map fun d => (E.dataHash d,d.length)) ∧
      raw.fileBoundaries = fileBoundaries ∧
      raw.xorbInfo.chunksAndBoundaries =
        .ok ((ds.map E.dataHash).zip (boundariesFrom 0 (ds.map List.length))) := by
  have hs : ((ds.map (Chunk.new E)).map fun c => c.data.length).sum = ds.flatten.length := by
    rw [length_flatten,map_map]
    rfl
  have hd : (ds.map (Chunk.new E)).map Chunk.data = ds := by
    rw [map_map]
    exact map_id ds
  have hha : (ds.map (Chunk.new E)).map (fun c => (c.hash,c.data.length)) = ds.map fun d =>
    (E.dataHash d,d.length) :=
    map_map
  have ht' : 0 + ((ds.map (Chunk.new E)).map fun c => c.data.length).sum < 2 ^ 32 := by omega
  obtain ⟨entries,he,hen⟩ := entriesFrom_spec ht'
  rw [hs,Nat.zero_add] at he
  rw [map_map,map_map] at hen
  let hash := xorbHash E.hasher (ds.map fun d => (E.dataHash d,d.length))
  let metadata : XorbChunkSequenceHeader :=
    ⟨hash,mdbDefaultXorbFlag,UInt32.ofNat ds.length,UInt32.ofNat ds.flatten.length,0⟩
  have hh : XorbChunkSequenceHeader.new hash ds.length ds.flatten.length = .ok metadata := by
    rw [XorbChunkSequenceHeader.new,tryIntoU32_of_lt hlen,tryIntoU32_of_lt ht]
    rfl
  refine ⟨⟨ds,⟨metadata,entries⟩,fileBoundaries⟩,
    bind_eq_ok.mpr ⟨_,he,bind_eq_ok.mpr ⟨metadata,?_,?_⟩⟩,rfl,rfl,rfl,hen metadata⟩
  · rw [length_map,hha]
    exact hh
  · rw [hd]
    rfl

section Object
variable {raw : RawXorbData}

theorem writeData_wrote (hz : Z.Inverts) (hlen : ∀ d ∈ ds, d.length ≤ maxChunkSize)
    (hc : ds.length < 2 ^ 63) (hs : (0 :: rest).Pairwise (· ≤ ·)) (hlt : ∀ b ∈ 0 :: rest, b < ds.length)
    (hd : raw.data = ds) (hf : raw.fileBoundaries = 0 :: rest)
    (hfi : scheme = .auto → (0 :: rest).getLast (List.cons_ne_nil _ _) + retestInterval ds.length
      interval < 2 ^ 64) :
    ∃ w, writeData Z raw scheme interval = .ok w ∧ Wrote Z w ds := by
  rw [writeData,hd,hf]
  by_cases ha : scheme = .auto ∧ ds.length ≠ 0
  · have hbo := hfi ha.1
    rw [if_pos ha]
    refine wrote_nil.writeFiles hz hlen hc ?_ hs hlt ?_
    · unfold retestInterval
      split <;> omega
    · intro b hb
      have hle := Pairwise.rel_getLast hs hb
      exact lt_of_le_of_lt (Nat.add_le_add_right hle _) hbo
  · rw [if_neg ha]
    exact wrote_nil.writeChunks hz scheme hlen

open XorbObject in
theorem fromXorbWithCompression_spec {cs : List (StoredChunk E.lz4)} (hds : cs.map StoredChunk.chunk = ds)
    (hhash : raw.hash = xorbHash E.hasher (ds.map fun d => (E.dataHash d,d.length)))
    (hends : raw.xorbInfo.chunksAndBoundaries =
      .ok ((ds.map E.dataHash).zip (boundariesFrom 0 (ds.map List.length))))
    (hw : writeData E.lz4 raw scheme interval = .ok w)
    (hwrote : w = { data := cs.flatMap StoredChunk.bytes
                    boundaryOffsets := (boundariesFrom 0 (cs.map fun c => c.bytes.length)).map asU32 })
    (hlen : (objectOf E cs).length < 2 ^ 32) :
    ∃ ser, SerializedXorbObject.fromXorbWithCompression E raw scheme true interval = .ok ser ∧
      ser.serializedData = objectOf E cs := by
  subst hds hwrote
  rw [length_objectOf] at hlen
  have hbounds : (boundariesFrom 0 (cs.map fun c => c.bytes.length)).map asU32 =
      boundariesFrom 0 (cs.map fun c => c.bytes.length) := by
    refine (List.map_congr_left fun o ho => asU32_of_lt ?_).trans (List.map_id _)
    exact (le_length_flatMap StoredChunk.bytes ho).trans_lt (by omega)
  have hzip : ((cs.map StoredChunk.chunk).map E.dataHash).length =
      (boundariesFrom 0 ((cs.map StoredChunk.chunk).map List.length)).length := by simp
  have hinfo : ({ xorbHash := raw.hash
                  numChunks := asU32 (((cs.map StoredChunk.chunk).map E.dataHash).zip
                    (boundariesFrom 0 ((cs.map StoredChunk.chunk).map List.length))).length
                  chunkHashes := (((cs.map StoredChunk.chunk).map E.dataHash).zip
                    (boundariesFrom 0 ((cs.map StoredChunk.chunk).map List.length))).map Prod.fst
                  unpackedChunkOffsets := (((cs.map StoredChunk.chunk).map E.dataHash).zip
                    (boundariesFrom 0 ((cs.map StoredChunk.chunk).map List.length))).map Prod.snd
                  chunkBoundaryOffsets :=
                    (boundariesFrom 0 (cs.map fun c => c.bytes.length)).map asU32 } :
        XorbObjectInfoV1) = infoOf E cs := by
    rw [hbounds,hhash,List.map_fst_zip hzip.le,List.map_snd_zip hzip.ge,List.length_zip,← hzip,min_self]
    simp only [List.map_map,List.length_map,asU32_of_lt (show cs.length < 2 ^ 32 by omega)]
    rfl
  have hcount : 92 + 40 * cs.length < 2 ^ 32 := by omega
  have hfill := fillIn_infoOf hcount
  rw [← hinfo] at hfill
  have hfooter : footerBytesIf true (filledInfo E cs) = .ok ((filledInfo E cs).footerBytes ++
      writeU32 (asU32 (filledInfo E cs).footerBytes.length)) := by
    rw [footerBytesIf,if_pos rfl,serializeGivenInfo_filledInfo]
    rfl
  exact ⟨_,bind_eq_ok.mpr ⟨_,hends,
    bind_eq_ok.mpr ⟨_,hw,bind_eq_ok.mpr ⟨_,hfill,bind_eq_ok.mpr ⟨_,hfooter,rfl⟩⟩⟩⟩,rfl⟩

end Object

section ReadsBack

/-- The object that is written for some data is accepted, and its ranges are those of the data. -/
def ReadsBack (E : XorbEnv) (ds : List Bytes) (fileBoundaries : List ℕ) (scheme : CompressionScheme)
    (interval : ℕ) : Prop :=
  ∃ raw ser xorb, RawXorbData.fromChunks E (ds.map (Chunk.new E)) fileBoundaries = .ok raw ∧
    SerializedXorbObject.fromXorbWithCompression E raw scheme true interval = .ok ser ∧
    (XorbObject.validateXorbObject E ser.serializedData raw.hash).run = .ok (some xorb) ∧
    xorb.getAllBytes E ser.serializedData = .ok ds.flatten ∧
    ∀ i j, i < j → j ≤ ds.length →
      xorb.getBytesByChunkRange E ser.serializedData i j = .ok (slice ds i j).flatten ∧
      xorb.uncompressedRangeLength i j = .ok (slice ds i j).flatten.length

theorem length_le_flatten (h : ∀ d ∈ ds, d ≠ []) : ds.length ≤ ds.flatten.length := by
  induction ds with
  | nil => exact le_rfl
  | cons d ds ih =>
    obtain ⟨hd,hds⟩ := forall_mem_cons.mp h
    have hp := length_pos_iff.mpr hd
    have hr := ih hds
    rw [flatten_cons,length_append,length_cons]
    omega

theorem stored_length_le {cs : List (StoredChunk Z)} (h : ∀ c ∈ cs, c.bytes.length ≤ c.chunk.length + 8) :
    (cs.flatMap StoredChunk.bytes).length ≤ (cs.flatMap StoredChunk.chunk).length + 8 * cs.length := by
  induction cs with
  | nil => exact le_rfl
  | cons c cs ih =>
    obtain ⟨hc,hcs⟩ := forall_mem_cons.mp h
    have hr := ih hcs
    rw [flatMap_cons,flatMap_cons,length_append,length_append,length_cons]
    omega

open XorbObject in
theorem objectOf_reads {cs : List (StoredChunk E.lz4)} (hne : cs ≠ []) (hw : ∀ c ∈ cs, c.unread = [])
    (hch : (cs.flatMap StoredChunk.chunk).length < 2 ^ 32) (hlen : (objectOf E cs).length < 2 ^ 32)
    (hh : (infoOf E cs).xorbHash ≠ default) :
    ∃ xorb, (validateXorbObject E (objectOf E cs) (infoOf E cs).xorbHash).run = .ok (some xorb) ∧
      xorb.getAllBytes E (objectOf E cs) = .ok (cs.flatMap StoredChunk.chunk) ∧
      ∀ i j, i < j → j ≤ cs.length →
        xorb.getBytesByChunkRange E (objectOf E cs) i j = .ok ((slice cs i j).flatMap StoredChunk.chunk) ∧
        xorb.uncompressedRangeLength i j = .ok ((slice cs i j).flatMap StoredChunk.chunk).length := by
  have hp := List.length_pos_iff.mpr hne
  have ha := accepts_objectOf hch hlen fun c hc => hw c (List.mem_of_getLast? hc)
  have hn : cs.length ≠ 0 := by omega
  have ht := ha.tabled
  have hin := ht.validateXorbObjectInfo_eq hn
  rw [ha.info_hash,if_pos hh] at hin
  have hr (i j : ℕ) (hij : i < j) (hj : j ≤ cs.length) := ht.getBytesByChunkRange_eq ha.chunks hin hij hj
  have hco (i j : ℕ) : getChunkContents E ((slice cs i j).flatMap StoredChunk.bytes) =
      .ok ((slice cs i j).flatMap StoredChunk.chunk) :=
    getChunkContents_whole fun c hc => blank_of_eq_nil (hw c (mem_of_mem_slice hc))
  refine ⟨_,(validateXorbObject_eq_ok hn).mpr ⟨cs,ha⟩,?_,fun i j hij hj => ⟨?_,?_⟩⟩
  · have hal := hco 0 cs.length
    rw [slice_zero_length] at hal
    rw [ht.getAllBytes_eq ha.chunks hne,hr 0 cs.length hp le_rfl,slice_zero_length,hal]
  · rw [hr i j hij hj,hco i j]
  · exact ht.uncompressedRangeLength_eq rfl hin hij hj

/-- Data that fit into a xorb read back exactly when their hash is not the default hash and, with
automatic compression, the index behind the first block of the last file does not overflow. -/
theorem readsBack_iff (hz : E.lz4.Inverts) (hne : ds ≠ [])
    (hlen : ∀ d ∈ ds, d ≠ [] ∧ d.length ≤ maxChunkSize)
    (htotal : ds.flatten.length ≤ maxXorbBytes) (hsorted : (0 :: rest).Pairwise (· ≤ ·))
    (hlt : ∀ b ∈ 0 :: rest, b < ds.length) : ReadsBack E ds (0 :: rest) scheme interval ↔
      xorbHash E.hasher (ds.map fun d => (E.dataHash d,d.length)) ≠ default ∧
      (scheme = .auto → (0 :: rest).getLast (List.cons_ne_nil _ _) + retestInterval ds.length
        interval < 2 ^ 64) := by
  have hcount := length_le_flatten fun d hd => (hlen d hd).1
  have hmax : maxXorbBytes = 2 ^ 26 := rfl
  have hcount' : ds.length < 2 ^ 32 := by omega
  obtain ⟨raw,hraw,hdata,hhash,hfiles,hends⟩ := fromChunks_spec hcount' (by omega) (0 :: rest)
  constructor
  · rintro ⟨raw',ser,xorb,hraw',hser,hvalid,hall,-⟩
    cases hraw.symm.trans hraw'
    obtain ⟨_,hinfo,-⟩ := bind_eq_ok.mp hall
    simp only [XorbObject.validateXorbObjectInfo,bind_eq_ok,ensure_eq_ok] at hinfo
    obtain ⟨_,hn,_,-,hdefault⟩ := hinfo
    obtain ⟨cs,ha⟩ := (XorbObject.validateXorbObject_eq_ok hn).mp hvalid
    refine ⟨by rw [← hhash,← ha.info_hash]; exact hdefault,?_⟩
    rintro rfl
    obtain ⟨_,-,hser⟩ := bind_eq_ok.mp hser
    obtain ⟨w,hw,-⟩ := bind_eq_ok.mp hser
    have hp := length_pos_iff.mpr hne
    rw [writeData,hdata,hfiles,if_pos ⟨rfl,by omega⟩] at hw
    exact writeFiles_fits hlt hw
  · rintro ⟨hdefault,hfits⟩
    obtain ⟨w,hw,cs,hds,hwhole,hwrote⟩ :=
      writeData_wrote hz (fun d hd => (hlen d hd).2) (by omega) hsorted hlt
      hdata hfiles hfits
    have hflat : cs.flatMap StoredChunk.chunk = ds.flatten := by rw [← hds,flatMap_def]
    have hcs : cs.length = ds.length := by rw [← hds,length_map]
    have hslice (i j : ℕ) : (slice cs i j).flatMap StoredChunk.chunk = (slice ds i j).flatten := by
      rw [← hds,slice_map,flatMap_def]
    have hstored := stored_length_le fun c hc => (hwhole c hc).2
    have hsize : (XorbObject.objectOf E cs).length < 2 ^ 32 := by
      rw [XorbObject.length_objectOf]
      rw [hflat] at hstored
      omega
    have hhash' : (XorbObject.infoOf E cs).xorbHash = raw.hash := by
      rw [hhash,← hds,map_map]
      rfl
    obtain ⟨ser,hser,hbytes⟩ := fromXorbWithCompression_spec hds hhash hends hw hwrote hsize
    obtain ⟨xorb,hvalid,hall,hranges⟩ :=
      objectOf_reads (ne_nil_of_length_pos (by rw [hcs]; exact length_pos_iff.mpr hne))
      (fun c hc => (hwhole c hc).1) (by rw [hflat]; omega) hsize (by rw [hhash',hhash]; exact hdefault)
    rw [hhash',← hbytes] at hvalid
    rw [← hbytes,hflat] at hall
    refine ⟨raw,ser,xorb,hraw,hser,hvalid,hall,fun i j hij hj => ?_⟩
    rw [← hslice i j,hbytes]
    exact hranges i j hij (by omega)

theorem readsBack_iff_small : ReadsBack plainEnv [[0,0],[7],[8,8,8]] [0,1] .auto 0 := by
  have hlen : ∀ d ∈ [[0,0],[7],[8,8,(8 : UInt8)]], d ≠ [] ∧ d.length ≤ maxChunkSize := by decide
  refine (readsBack_iff zeroRuns_inverts (by decide) hlen (by decide) (by decide) (by decide)).mpr
    ⟨?_,fun _ => ?_⟩
  · decide +kernel
  · decide

/-- A retest interval of the largest word, which means never. The second file starts at index one.
-/
theorem readsBack_fails : ¬ReadsBack plainEnv [[7],[8]] [0,1] .auto (2 ^ 64 - 1) ∧
    (RawXorbData.fromChunks plainEnv ([[7],[8]].map (Chunk.new plainEnv)) [0,1] >>= fun raw =>
      SerializedXorbObject.fromXorbWithCompression plainEnv raw .auto true (2 ^ 64 - 1)) =
        .error .panicked := by
  have hpanic : (RawXorbData.fromChunks plainEnv ([[7],[8]].map (Chunk.new plainEnv)) [0,1] >>= fun raw =>
      SerializedXorbObject.fromXorbWithCompression plainEnv raw .auto true (2 ^ 64 - 1)) =
        .error .panicked := by
    decide +kernel
  refine ⟨fun h => ?_,hpanic⟩
  obtain ⟨raw,ser,-,hraw,hser,-⟩ := h
  rw [bind_eq_ok.mpr ⟨raw,hraw,hser⟩] at hpanic
  cases hpanic

end ReadsBack
end XetCore.Xorb
