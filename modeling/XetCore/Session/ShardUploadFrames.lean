import XetCore.Lib.Bytes
import XetCore.Lib.StreamCut

/-! # The frames of a shard upload response

The server answers an upload with a stream of lines, one event in each. What the reader
reports and how it ends depends on the bytes of the body alone, and not on its chunks.
-/
namespace XetCore.Session
open StreamCut List

inductive CommitStage where
  | uploading
  | syncing
deriving DecidableEq, Repr

inductive ShardUploadEvent where
  | validating (verified total : ℕ)
  | committing (stage : CommitStage)
  | result
  | error (message : String) (retryable : Bool)
  | unknown
deriving DecidableEq, Repr

inductive UploadClientError where
  | invalidResponse (message : String)
  | other (message : String)
deriving DecidableEq, Repr

inductive RetryableReqwestError where
  | fatalError (e : UploadClientError)
  | retryableError (e : UploadClientError)
deriving DecidableEq, Repr

abbrev maxNdjsonLineBytes : ℕ := 1048576

def oversizedNdjsonFrameError (len : ℕ) : RetryableReqwestError :=
  .fatalError (.invalidResponse
    s!"shard upload progress frame exceeds {maxNdjsonLineBytes} byte limit (got {len} bytes)")

/-- Whether a terminal frame of success was received. -/
def handleShardUploadEvent : ShardUploadEvent → Except RetryableReqwestError Bool
  | .validating _ _ | .committing _ | .unknown => .ok false
  | .result => .ok true
  | .error message retryable =>
    .error (if retryable then .retryableError (.other message) else .fatalError (.other message))

/-- The events that were passed to the callback, and the outcome once there is one. -/
structure Reading where
  events : List ShardUploadEvent := []
  outcome : Option (Except RetryableReqwestError Unit) := none

namespace Reading

def stop (e : RetryableReqwestError) : Reading := { outcome := some (.error e) }

/-- Reading goes on unless there is an outcome. -/
def next (p q : Reading) : Reading := if p.outcome.isSome then p else ⟨p.events ++ q.events,q.outcome⟩

theorem next_of_isSome {p : Reading} (h : p.outcome.isSome) (q : Reading) : p.next q = p := if_pos h

theorem next_assoc (p q r : Reading) : (p.next q).next r = p.next (q.next r) := by
  by_cases hp : p.outcome.isSome <;> by_cases hq : q.outcome.isSome <;> simp [next,hp,hq]

end Reading

/-- How a line is decoded, how its bytes and the error are shown, and whether there is a callback.
-/
structure FrameReader where
  decode : Bytes → Except String ShardUploadEvent
  lossy : Bytes → String
  callback : Bool

namespace FrameReader
variable (R : FrameReader)

def readEvent (event : ShardUploadEvent) : Reading where
  events := if R.callback then [event] else []
  outcome :=
    match handleShardUploadEvent event with
    | .ok true => some (.ok ())
    | .ok false => none
    | .error e => some (.error e)

/-- The turn of the loop for a line without its newline. -/
def readLine (line : Bytes) : Reading :=
  if maxNdjsonLineBytes < line.length then .stop (oversizedNdjsonFrameError line.length)
  else if line.isEmpty then {}
  else
    match R.decode line with
    | .ok event => R.readEvent event
    | .error err =>
      let shown := R.lossy line
      .stop (.fatalError (.invalidResponse
        s!"failed to parse shard upload progress frame: {err}; line={shown}"))

/-- What follows the end of the stream. -/
def readRest (buffer : Bytes) : Reading :=
  let ended := Reading.stop (.fatalError (.invalidResponse
    "shard upload stream ended without a terminal done or error frame"))
  if buffer.isEmpty then ended
  else if maxNdjsonLineBytes < buffer.length then .stop (oversizedNdjsonFrameError buffer.length)
  else
    match R.decode buffer with
    | .ok event => (R.readEvent event).next ended
    | .error err =>
      let shown := R.lossy buffer
      .stop (.fatalError (.invalidResponse
        s!"failed to parse trailing shard upload progress frame: {err}; line={shown}"))

/-- The lines of the buffer, with what is left behind the last newline; `fuel` bounds their number.
-/
def readLines : ℕ → Bytes → Reading × Bytes
  | 0, buffer => ({},buffer)
  | fuel + 1, buffer =>
    match buffer.findIdx? (· == 10) with
    | none => ({},buffer)
    | some i =>
      let p := R.readLine (buffer.take i)
      let r := readLines fuel (buffer.drop (i + 1))
      if p.outcome.isSome then (p,buffer.drop (i + 1)) else (p.next r.1,r.2)

/-- The chunks of the stream. -/
def readChunks : Bytes → List Bytes → Reading
  | buffer, [] => R.readRest buffer
  | buffer, chunk :: chunks =>
    let (p,rest) := R.readLines (buffer ++ chunk).length (buffer ++ chunk)
    p.next (if maxNdjsonLineBytes < rest.length then .stop (oversizedNdjsonFrameError rest.length)
      else readChunks rest chunks)

def readShardUploadNdjson (chunks : List Bytes) : Reading := R.readChunks [] chunks

/-- Cuts behind a newline. -/
def lineRule : CutRule UInt8 where
  cut l := (l.findIdx? (· == 10)).map (· + 1)
  pos h := by
    obtain ⟨i,-,rfl⟩ := Option.map_eq_some_iff.mp h
    exact i.succ_pos
  le_length h := by
    obtain ⟨i,hi,rfl⟩ := Option.map_eq_some_iff.mp h
    exact (findIdx?_eq_some_iff_getElem.mp hi).1
  extend h t := by
    obtain ⟨i,hi,rfl⟩ := Option.map_eq_some_iff.mp h
    rw [findIdx?_append,hi]
    rfl
  restrict h := by
    obtain ⟨i,hi,rfl⟩ := Option.map_eq_some_iff.mp h
    rw [findIdx?_take,hi]
    simp

/-- The lines of a body one after the other, then what follows the last newline. -/
def readFrames (body : Bytes) : Reading :=
  ((split lineRule body).1.map fun line => R.readLine line.dropLast).foldr Reading.next
    (R.readRest (split lineRule body).2)

/-- The same, or two frames over the limit, behind the same events. -/
def Agree (p q : Reading) : Prop :=
  p = q ∨ ∃ es m n, p = ⟨es,some (.error (oversizedNdjsonFrameError m))⟩ ∧
    q = ⟨es,some (.error (oversizedNdjsonFrameError n))⟩

variable {R} {p q : Reading} {rest : Bytes}

theorem Agree.next (h : Agree p q) (o : Reading) : Agree (o.next p) (o.next q) := by
  by_cases ho : o.outcome.isSome
  · simp [Agree,Reading.next,ho]
  · refine h.imp (congrArg _) ?_
    rintro ⟨es,m,n,rfl,rfl⟩
    exact ⟨o.events ++ es,m,n,by simp [Reading.next,ho],by simp [Reading.next,ho]⟩

theorem readFrames_of_some {body : Bytes} {i : ℕ} (h : body.findIdx? (· == 10) = some i) :
    R.readFrames body = (R.readLine (body.take i)).next (R.readFrames (body.drop (i + 1))) := by
  have hc : lineRule.cut body = some (i + 1) := congrArg (Option.map (· + 1)) h
  have hl := lineRule.le_length hc
  have hd : (body.take (i + 1)).dropLast = body.take i := by
    rw [dropLast_eq_take,length_take,take_take]
    exact congrArg (body.take ·) (by omega)
  rw [readFrames,split_of_some _ hc,map_cons,foldr_cons,hd]
  rfl

section
variable {fuel : ℕ} {buffer : Bytes} (hf : buffer.length ≤ fuel)
include hf

/-- Whatever follows, the frames begin with the lines of the buffer. -/
theorem readFrames_append (t : Bytes) : R.readFrames (buffer ++ t) =
    (R.readLines fuel buffer).1.next (R.readFrames ((R.readLines fuel buffer).2 ++ t)) := by
  induction fuel generalizing buffer with
  | zero => rfl
  | succ fuel ih =>
    rw [readLines]
    cases h : buffer.findIdx? (· == 10) with
    | none => rfl
    | some i =>
      have hl := (findIdx?_eq_some_iff_getElem.mp h).1
      rw [readFrames_of_some (i := i) (by rw [findIdx?_append,h]; rfl),take_append_of_le_length hl.le,
        drop_append_of_le_length hl,ih (by rw [length_drop]; omega)]
      by_cases hp : (R.readLine (buffer.take i)).outcome.isSome
      · simp [Reading.next,hp]
      · simp [hp,Reading.next_assoc]

theorem readLines_rest (hn : (R.readLines fuel buffer).1.outcome = none) :
    lineRule.cut (R.readLines fuel buffer).2 = none := by
  induction fuel generalizing buffer with
  | zero => rw [length_eq_zero_iff.mp (Nat.le_zero.mp hf)]; rfl
  | succ fuel ih =>
    rw [readLines] at hn ⊢
    cases h : buffer.findIdx? (· == 10) with
    | none => exact congrArg (Option.map (· + 1)) h
    | some i =>
      have hl := (findIdx?_eq_some_iff_getElem.mp h).1
      rw [h] at hn
      by_cases hp : (R.readLine (buffer.take i)).outcome.isSome
      · simp [hp] at hn
        simp [hn] at hp
      · simp only [hp,Reading.next] at hn ⊢
        exact ih (by rw [length_drop]; omega) hn

end

/-- The line that begins here is over the limit, wherever it ends. -/
theorem readFrames_oversized (hc : lineRule.cut rest = none) (hl : maxNdjsonLineBytes < rest.length)
    (t : Bytes) :
    ∃ n, R.readFrames (rest ++ t) = .stop (oversizedNdjsonFrameError n) := by
  have hlen : rest.length ≤ (rest ++ t).length := by simp
  cases h : (rest ++ t).findIdx? (· == 10) with
  | none =>
    have hn : lineRule.cut (rest ++ t) = none := congrArg (Option.map (· + 1)) h
    refine ⟨(rest ++ t).length,?_⟩
    rw [readFrames,split_of_none _ hn]
    change R.readRest (rest ++ t) = _
    rw [readRest,if_neg (by rw [isEmpty_iff_length_eq_zero]; omega),if_pos (hl.trans_le hlen)]
  | some i =>
    have hlt : rest.length < i + 1 := lineRule.lt_of_none hc (congrArg (Option.map (· + 1)) h)
    have hi := (findIdx?_eq_some_iff_getElem.mp h).1
    refine ⟨((rest ++ t).take i).length,?_⟩
    rw [readFrames_of_some h,readLine,if_pos (by rw [length_take]; omega)]
    rfl

theorem readChunks_agrees {buffer : Bytes} (chunks : List Bytes) (hc : lineRule.cut buffer = none) :
    Agree (R.readChunks buffer chunks) (R.readFrames (buffer ++ chunks.flatten)) := by
  induction chunks generalizing buffer with
  | nil =>
    left
    rw [flatten_nil,append_nil,readFrames,split_of_none _ hc]
    rfl
  | cons chunk chunks ih =>
    rw [flatten_cons,← append_assoc,readFrames_append le_rfl,readChunks]
    by_cases hn : (R.readLines (buffer ++ chunk).length (buffer ++ chunk)).1.outcome = none
    · refine Agree.next ?_ _
      have hr := readLines_rest le_rfl hn
      split
      · obtain ⟨n,h⟩ := readFrames_oversized hr ‹_› chunks.flatten
        exact .inr ⟨[],_,n,rfl,h⟩
      · exact ih hr
    · have hs := Option.isSome_iff_ne_none.mpr hn
      left
      dsimp only
      rw [Reading.next_of_isSome hs,Reading.next_of_isSome hs]

/-- The chunks of a body do not matter. Its frames are handled in their order up to the first one
that ends it. -/
theorem readShardUploadNdjson_eq_frames (R : FrameReader) (chunks : List Bytes) :
    Agree (R.readShardUploadNdjson chunks) (R.readFrames chunks.flatten) := readChunks_agrees chunks rfl

end FrameReader
end XetCore.Session
