import XetCore.Xorb.Frame

/-! # Streams of chunks

The chunks that were written one after the other are read back by each of the decoders,
whatever pieces the source hands out, with the offsets at which the chunks start. The
offsets have 32 bits.
-/
namespace XetCore.Xorb
open ByteSources Serialization Chunking List

variable {Z : Compressor} {chunks : List Bytes} {frames : List Frame}

def serializeChunks (Z : Compressor) : List (Bytes × CompressionScheme) → Result Bytes
  | [] => return []
  | c :: cs => do
    let written ← serializeChunk Z c.1 c.2
    let rest ← serializeChunks Z cs
    return written.1 ++ rest

/-- The start of each chunk in the decoded data, and the end of the last one. -/
def chunkOffsets (chunks : List Bytes) : List ℕ := 0 :: boundariesFrom 0 (chunks.map List.length)

def joinSegments (segments : List (Bytes × List ℕ)) : Result (Bytes × List ℕ) :=
  segments.foldlM appendChunkSegment ([],[])

theorem serializeChunks_frames (hz : Z.Inverts) {chunks : List (Bytes × CompressionScheme)}
    (hs : ∀ c ∈ chunks, c.1.length ≤ maxChunkSize) :
    ∃ frames, serializeChunks Z chunks = .ok (frames.flatMap Frame.bytes) ∧
      List.Forall₂ (Frame.Holds Z) frames (chunks.map Prod.fst) := by
  induction chunks with
  | nil => exact ⟨[],rfl,Forall₂.nil⟩
  | cons c cs ih =>
    obtain ⟨frames,hr,ha⟩ := ih fun c hc => hs c (mem_cons_of_mem _ hc)
    obtain ⟨f,hf,hh,-⟩ := serializeChunk_frame hz c.2 (hs c mem_cons_self)
    refine ⟨f :: frames,?_,Forall₂.cons hh ha⟩
    rw [serializeChunks,hf,hr]
    rfl

section Loop
variable {decodeChunk : XorbChunkHeader → Reader Bytes CoreError (Bytes × ℕ × ℕ)}

theorem deserializeChunksLoop_end (fuel : ℕ) (d : DecodedChunks) :
    (deserializeChunksLoop decodeChunk (fuel + 1) d).run [] = .ok (d,[]) := by
  rfl

theorem deserializeChunksLoop_header {header : XorbChunkHeader} (hv : header.validate = .ok ())
    (fuel : ℕ) (d : DecodedChunks) (body : Bytes) :
    (deserializeChunksLoop decodeChunk (fuel + 1) d).run (writeChunkHeader header ++ body) =
      ((decodeChunk header).run body).bind fun chunk =>
        (addU32 d.numUncompressedWritten chunk.1.2.2).bind fun total =>
          (deserializeChunksLoop decodeChunk fuel (d.push chunk.1 total)).run chunk.2 := by
  rw [deserializeChunksLoop,run_bind_of_ok (reads_tryReadChunkHeader hv body)]
  cases hr : (decodeChunk header).run body with
  | error e => exact run_bind_of_error hr
  | ok chunk =>
    refine (run_bind_of_ok hr).trans ?_
    have hl := run_lift (addU32 d.numUncompressedWritten chunk.1.2.2) chunk.2
    cases ha : addU32 d.numUncompressedWritten chunk.1.2.2 with
    | error e =>
      rw [ha] at hl
      rw [Except.bind,ha]
      exact run_bind_of_error hl
    | ok total =>
      rw [ha] at hl
      rw [Except.bind,ha]
      exact run_bind_of_ok hl

theorem deserializeChunksLoop_frame {f : Frame} {chunk : Bytes × ℕ × ℕ}
    (hr : Reads (decodeChunk f.header) f.payload chunk) (fuel : ℕ) (d : DecodedChunks)
    (rest : Bytes) : (deserializeChunksLoop decodeChunk (fuel + 1) d).run (f.bytes ++ rest) =
      (addU32 d.numUncompressedWritten chunk.2.2).bind fun total =>
        (deserializeChunksLoop decodeChunk fuel (d.push chunk total)).run rest := by
  rw [Frame.bytes,append_assoc,deserializeChunksLoop_header f.valid,hr rest]
  rfl

theorem deserializeChunksLoop_frames (hde : ∀ f chunk, Frame.Holds Z f chunk →
    Reads (decodeChunk f.header) f.payload
      (chunk,f.header.compressedLength + chunkHeaderLength,chunk.length))
    (h : List.Forall₂ (Frame.Holds Z) frames chunks) {fuel : ℕ}
    (hfu : frames.length < fuel) (d : DecodedChunks) (hd : d.numUncompressedWritten < 2 ^ 32) :
    ((deserializeChunksLoop decodeChunk fuel d).run (frames.flatMap Frame.bytes)).map
        (fun r => (r.1.data,r.1.chunkByteIndices)) =
      if d.numUncompressedWritten + chunks.flatten.length < 2 ^ 32 then
        .ok (d.data ++ chunks.flatten,
          d.chunkByteIndices ++ boundariesFrom d.numUncompressedWritten (chunks.map List.length))
      else .error .panicked := by
  induction h generalizing fuel d with
  | nil =>
    obtain ⟨fuel,rfl⟩ := Nat.exists_eq_succ_of_ne_zero (Nat.ne_of_gt (Nat.zero_lt_of_lt hfu))
    rw [flatMap_nil,deserializeChunksLoop_end,flatten_nil,length_nil,Nat.add_zero,if_pos hd]
    simp [Except.map,boundariesFrom]
  | @cons f chunk frames chunks hf ha ih =>
    obtain ⟨fuel,rfl⟩ := Nat.exists_eq_succ_of_ne_zero (Nat.ne_of_gt (Nat.zero_lt_of_lt hfu))
    rw [flatMap_cons,deserializeChunksLoop_frame (hde f chunk hf),flatten_cons,length_append,
      map_cons,boundariesFrom]
    by_cases hs : d.numUncompressedWritten + chunk.length < 2 ^ 32
    · rw [addU32_of_lt hs,Except.bind,ih (by simpa using hfu) _ hs]
      simp [DecodedChunks.push,Nat.add_assoc,append_assoc]
    · rw [if_neg (by omega),addU32,if_neg hs]
      rfl

theorem length_le_flatMap_bytes (frames : List Frame) :
    frames.length ≤ (frames.flatMap Frame.bytes).length := by
  induction frames with
  | nil => exact Nat.le_refl 0
  | cons f frames ih =>
    rw [flatMap_cons,length_append,length_cons,f.bytes_length]
    omega

theorem deserializeChunksWith_frames (hd : ∀ f chunk, Frame.Holds Z f chunk →
    Reads (decodeChunk f.header) f.payload
      (chunk,f.header.compressedLength + chunkHeaderLength,chunk.length))
    (h : List.Forall₂ (Frame.Holds Z) frames chunks) :
    ((deserializeChunksWith decodeChunk).run (frames.flatMap Frame.bytes)).map Prod.fst =
      if chunks.flatten.length < 2 ^ 32 then .ok (chunks.flatten,chunkOffsets chunks)
        else .error .panicked := by
  have hl := deserializeChunksLoop_frames hd h (Nat.lt_succ_of_le (length_le_flatMap_bytes frames))
    {} (by decide)
  have hp : (peek : Reader Bytes CoreError Bytes).run (frames.flatMap Frame.bytes) =
    .ok (frames.flatMap Frame.bytes,frames.flatMap Frame.bytes) := rfl
  rw [Nat.zero_add] at hl
  rw [deserializeChunksWith,run_bind_of_ok hp,StateT.run_bind]
  refine Eq.trans ?_ hl
  cases (deserializeChunksLoop decodeChunk ((frames.flatMap Frame.bytes).length + 1) {}).run
    (frames.flatMap Frame.bytes) <;> rfl

end Loop

section Sources
variable {σ : Type} [ByteSource σ]

theorem follows_tryReadChunkHeader : Follows (σ := σ) tryReadChunkHeader tryReadChunkHeader := by
  refine (follows_readOrEnd _ (by decide)).bind fun buf => ?_
  cases buf with
  | none => exact follows_pure none
  | some bs => exact (follows_lift (parseChunkHeader bs)).map some

theorem follows_deserializeChunkWithHeader (h : XorbChunkHeader) : Follows (σ := σ)
    (deserializeChunkWithHeaderToWriter Z h) (deserializeChunkWithHeaderToWriter Z h) :=
  (follows_lift _).bind fun _ => (Compressor.follows_decompressFromReader _).bind fun _ =>
    (follows_lift _).bind fun _ => follows_pure _

theorem follows_deserializeChunkWithHeaderAsync (h : XorbChunkHeader) : Follows (σ := σ)
    (deserializeChunkWithHeaderToWriterAsync Z h) (deserializeChunkWithHeaderToWriterAsync Z h) :=
  (follows_readExact _ _).bind fun _ => (follows_lift _).bind fun _ => (follows_lift _).bind fun _ =>
    (follows_lift _).bind fun _ => follows_pure _

theorem follows_deserializeChunksWith {p : XorbChunkHeader → Reader σ CoreError (Bytes × ℕ × ℕ)}
    {q : XorbChunkHeader → Reader Bytes CoreError (Bytes × ℕ × ℕ)}
    (h : ∀ header, Follows (p header) (q header)) :
    Follows (deserializeChunksWith p) (deserializeChunksWith q) := by
  have hl : ∀ fuel d, Follows (deserializeChunksLoop p fuel d) (deserializeChunksLoop q fuel d) := by
    intro fuel
    induction fuel with
    | zero => exact fun d => follows_pure d
    | succ fuel ih =>
      intro d
      refine follows_tryReadChunkHeader.bind fun header => ?_
      cases header with
      | none => exact follows_pure d
      | some header => exact (h header).bind fun chunk => (follows_lift _).bind fun total => ih _
  exact follows_peek.bind fun available => (hl _ {}).bind fun d => follows_pure _

/-- The decoders give the same for all sources of the same bytes, as long as the frames hold chunks.
-/
theorem decoders_frames
    (h : List.Forall₂ (Frame.Holds Z) frames chunks) {s : σ}
    (hs : ByteSource.bytes s = frames.flatMap Frame.bytes) :
    deserializeChunks Z s =
      (if chunks.flatten.length < 2 ^ 32 then .ok (chunks.flatten,chunkOffsets chunks)
        else .error .panicked) ∧
    deserializeChunksFromAsyncRead Z s =
      (if chunks.flatten.length < 2 ^ 32 then .ok (chunks.flatten,chunkOffsets chunks)
        else .error .panicked) := by
  constructor
  · rw [deserializeChunks,(follows_deserializeChunksWith follows_deserializeChunkWithHeader).result_eq,hs]
    exact deserializeChunksWith_frames (fun f chunk hf => hf.reads) h
  · rw [deserializeChunksFromAsyncRead,
      (follows_deserializeChunksWith follows_deserializeChunkWithHeaderAsync).result_eq,hs]
    exact deserializeChunksWith_frames (fun f chunk hf => hf.reads_async) h

end Sources

section Segments

theorem mapM_addU32 {base : ℕ} {offsets : List ℕ} (h : ∀ o ∈ offsets, o + base < 2 ^ 32) :
    offsets.mapM (fun o => addU32 o base) = .ok (offsets.map (· + base)) := by
  induction offsets with
  | nil => rfl
  | cons o os ih =>
    rw [mapM_cons,addU32_of_lt (h o mem_cons_self),ih fun o' ho => h o' (mem_cons_of_mem o ho)]
    rfl

theorem appendChunkSegment_chunks {front more : List Bytes}
    (h : (front ++ more).flatten.length < 2 ^ 32) :
    appendChunkSegment (front.flatten,chunkOffsets front) (more.flatten,chunkOffsets more) =
      .ok ((front ++ more).flatten,chunkOffsets (front ++ more)) := by
  rw [flatten_append,length_append] at h
  have hb : asU32 front.flatten.length = front.flatten.length := asU32_of_lt (by omega)
  have hr : ∀ o ∈ boundariesFrom 0 (more.map List.length), o + front.flatten.length < 2 ^ 32 := by
    intro o ho
    have hle := boundariesFrom_le ho
    rw [Nat.zero_add,← length_flatten] at hle
    omega
  have hof : chunkOffsets (front ++ more) =
      chunkOffsets front ++ (boundariesFrom 0 (more.map List.length)).map (· + front.flatten.length) := by
    rw [chunkOffsets,map_append,boundariesFrom_append,← boundariesFrom_shift,← length_flatten]
    rfl
  have hs : (chunkOffsets front).isEmpty = false := rfl
  have hd : (chunkOffsets more).drop 1 = boundariesFrom 0 (more.map List.length) := rfl
  simp only [appendChunkSegment,hb,hd,mapM_addU32 hr]
  rw [hof,flatten_append]
  rfl

variable {runs : List (List Bytes)}

theorem foldlM_appendChunkSegment {front : List Bytes}
    (h : (front ++ runs.flatten).flatten.length < 2 ^ 32) :
    (runs.map fun r => (r.flatten,chunkOffsets r)).foldlM appendChunkSegment
      (front.flatten,chunkOffsets front) =
      .ok ((front ++ runs.flatten).flatten,chunkOffsets (front ++ runs.flatten)) := by
  induction runs generalizing front with
  | nil =>
    rw [flatten_nil,append_nil]
    rfl
  | cons r rs ih =>
    rw [flatten_cons,← append_assoc] at h ⊢
    have hf : (front ++ r).flatten.length < 2 ^ 32 := by
      rw [flatten_append,length_append] at h
      omega
    rw [map_cons,foldlM_cons,appendChunkSegment_chunks hf]
    exact ih h

end Segments

def decodeRun (Z : Compressor) (run : List (Bytes × CompressionScheme)) :
    Result (Bytes × List ℕ) := do
  let written ← serializeChunks Z run
  deserializeChunks Z written

theorem mapM_decodeRun (hz : Z.Inverts) {runs : List (List (Bytes × CompressionScheme))}
    (hs : ∀ c ∈ runs.flatten, c.1.length ≤ maxChunkSize)
    (ht : (runs.flatten.map Prod.fst).flatten.length < 2 ^ 32) :
    runs.mapM (decodeRun Z) = .ok ((runs.map fun r => r.map Prod.fst).map fun r =>
      (r.flatten,chunkOffsets r)) := by
  induction runs with
  | nil => rfl
  | cons r rs ih =>
    rw [flatten_cons,map_append,flatten_append,length_append] at ht
    rw [flatten_cons,forall_mem_append] at hs
    obtain ⟨frames,hse,ha⟩ := serializeChunks_frames hz hs.1
    have hf := (decoders_frames ha (s := frames.flatMap Frame.bytes) rfl).1
    rw [if_pos (by omega)] at hf
    rw [mapM_cons,decodeRun,hse,ih hs.2 (by omega)]
    simp only [bind,Except.bind,hf]
    rfl

/-- Chunks of less than 4 GiB in all are read back, with their offsets, by each decoder and from
every source, and so are they in runs of any lengths. -/
theorem chunks_round_trip (hz : Z.Inverts) {chunks : List (Bytes × CompressionScheme)}
    (hsize : ∀ c ∈ chunks, c.1.length ≤ maxChunkSize)
    (htotal : (chunks.map Prod.fst).flatten.length < 2 ^ 32) :
    ∃ written, serializeChunks Z chunks = .ok written ∧
      (∀ (σ : Type) [ByteSource σ] (reader : σ), ByteSource.bytes reader = written →
        deserializeChunks Z reader =
          .ok ((chunks.map Prod.fst).flatten,chunkOffsets (chunks.map Prod.fst)) ∧
        deserializeChunksFromAsyncRead Z reader =
          .ok ((chunks.map Prod.fst).flatten,chunkOffsets (chunks.map Prod.fst))) ∧
      (∀ items : List Bytes, items.flatten = written → deserializeChunksFromStream Z items =
        .ok ((chunks.map Prod.fst).flatten,chunkOffsets (chunks.map Prod.fst))) ∧
      ∀ runs : List (List (Bytes × CompressionScheme)), runs ≠ [] → runs.flatten = chunks →
        runs.mapM (decodeRun Z) >>= joinSegments =
          .ok ((chunks.map Prod.fst).flatten,chunkOffsets (chunks.map Prod.fst)) := by
  obtain ⟨frames,hser,hall⟩ := serializeChunks_frames hz hsize
  refine ⟨frames.flatMap Frame.bytes,hser,fun σ _ reader hs => ?_,fun items hitems =>
    ?_,fun runs hne hruns => ?_⟩
  · have hdec := decoders_frames hall hs
    rwa [if_pos htotal] at hdec
  · have hdec := (decoders_frames hall (s := ItemStream.mk items) hitems).2
    rwa [if_pos htotal] at hdec
  · subst hruns
    have hflat : (runs.map fun r => r.map Prod.fst).flatten = runs.flatten.map Prod.fst :=
      map_flatten.symm
    rw [mapM_decodeRun hz hsize htotal,← hflat]
    cases runs with
    | nil => exact absurd rfl hne
    | cons r rs =>
      rw [← hflat] at htotal
      exact foldlM_appendChunkSegment htotal

/-- Three chunks of three kinds, in three items that cut a header and a payload. -/
theorem chunks_round_trip_items : deserializeChunksFromStream zeroRuns
    [[0,1,0,0,1,5],[0,0,5,0,2,0,0,0,2],[0,0,7,9,0,0,0,0,0,0,0,0]] =
      .ok ([0,0,0,0,0,7,9],[0,5,7,7]) := by
  let chunks : List (Bytes × CompressionScheme) :=
    [([0,0,0,0,0],.lz4),([7,9],.byteGrouping4LZ4),([],.none)]
  have hsize : ∀ c ∈ chunks, c.1.length ≤ maxChunkSize := by decide
  obtain ⟨written,hser,-,hitems,-⟩ := chunks_round_trip zeroRuns_inverts hsize (by decide)
  refine hitems _ (Except.ok.inj (Eq.trans ?_ hser))
  decide +kernel

/-- 32768 zero chunks of the largest size are 4 GiB, and the last offset has no 32 bits. And no
segments at all do not join to what no chunks decode to. -/
theorem chunks_round_trip_fails :
    (∃ written, serializeChunks zeroRuns
      (List.replicate 32768 (List.replicate maxChunkSize 0,.none)) = .ok written ∧
      deserializeChunks zeroRuns written = .error .panicked) ∧
    deserializeChunks zeroRuns ([] : Bytes) = .ok ([],[0]) ∧ joinSegments [] = .ok ([],[]) := by
  refine ⟨?_,rfl,rfl⟩
  have hsize : ∀ c ∈ List.replicate 32768
    (List.replicate maxChunkSize (0 : UInt8),CompressionScheme.none),
      c.1.length ≤ maxChunkSize := fun c hc => by
    rw [eq_of_mem_replicate hc,length_replicate]
  obtain ⟨frames,hser,hall⟩ := serializeChunks_frames zeroRuns_inverts hsize
  refine ⟨_,hser,?_⟩
  rw [(decoders_frames hall rfl).1,if_neg]
  rw [map_replicate,length_flatten,map_replicate,sum_replicate,length_replicate]
  decide

end XetCore.Xorb
