import Mathlib.Tactic

/-! # Progress of an upload and of its retries

The streams over one body share a reporter. A report moves the high-water mark first and calls
back afterwards, and other streams may step in between.
-/
namespace XetCore.Session
open List

/-- The arguments of one progress callback. -/
structure Report where
  delta : ℕ
  completed : ℕ
  total : ℕ

def deltas (reports : List Report) : ℕ := (reports.map Report.delta).sum

/-- `positions` and `calls` keep what the streams have reported and what was called back. -/
structure StreamProgressReporter where
  totalIfKnown : ℕ
  bytesReported : ℕ := 0
  positions : List ℕ := []
  calls : List Report := []

/-- The state change of `report_progress`. -/
def StreamProgressReporter.reportProgress (r : StreamProgressReporter) (newCompleted : ℕ) :
    StreamProgressReporter :=
  { r with bytesReported := max r.bytesReported newCompleted, positions := newCompleted :: r.positions }

/-- The callback that `report_progress` makes after it. -/
def StreamProgressReporter.owed (r : StreamProgressReporter) (newCompleted : ℕ) : List Report :=
  if newCompleted ≤ r.bytesReported then []
  else [⟨newCompleted - r.bytesReported,newCompleted,max r.totalIfKnown newCompleted⟩]

inductive Phase where
  | ready
  | polling
  | dropping
  | dropped

/-- A stream, with the callbacks that its report in progress has not made. -/
structure UploadProgressStream where
  bytesSent : ℕ := 0
  phase : Phase := .ready
  owed : List Report := []

inductive Verb where
  | pollNext
  | drop
  | resume

structure UploadAttempts where
  reporter : StreamProgressReporter
  streams : List UploadProgressStream := []

inductive AttemptStep where
  | wrapBytesAsStream
  | stream (i : ℕ) (verb : Verb)

section Stream
variable (len blockSize : ℕ)

/-- The end of the slice at `bytesSent`. An addition that overflows panics and moves nothing. -/
def sliceEnd (bytesSent : ℕ) : ℕ :=
  if bytesSent + blockSize < 2 ^ 64 then min (bytesSent + blockSize) len else bytesSent

def UploadProgressStream.step (u : UploadProgressStream) (r : StreamProgressReporter) (verb : Verb) :
    UploadProgressStream × StreamProgressReporter :=
  match verb, u.phase with
  | .pollNext, .ready =>
    if u.bytesSent = len then (u,r)
    else if u.bytesSent ≠ 0 then (⟨u.bytesSent,.polling,r.owed u.bytesSent⟩,r.reportProgress u.bytesSent)
    else ({ u with bytesSent := sliceEnd len blockSize 0 },r)
  | .drop, .ready => (⟨u.bytesSent,.dropping,r.owed u.bytesSent⟩,r.reportProgress u.bytesSent)
  | .resume, .polling =>
    (⟨sliceEnd len blockSize u.bytesSent,.ready,[]⟩,{ r with calls := r.calls ++ u.owed })
  | .resume, .dropping => (⟨u.bytesSent,.dropped,[]⟩,{ r with calls := r.calls ++ u.owed })
  | _, _ => (u,r)

def UploadAttempts.step (s : UploadAttempts) : AttemptStep → UploadAttempts
  | .wrapBytesAsStream => { s with streams := s.streams ++ [{}] }
  | .stream i verb =>
    match s.streams[i]? with
    | none => s
    | some u => ⟨(u.step len blockSize s.reporter verb).2,
        s.streams.set i (u.step len blockSize s.reporter verb).1⟩

def UploadAttempts.run (steps : List AttemptStep) : UploadAttempts :=
  steps.foldl (UploadAttempts.step len blockSize) ⟨{ totalIfKnown := len },[]⟩

end Stream

/-- What the callback of `register_new_xorb` registers; a quotient by zero counts as zero. -/
def rawDeltas (rawNumBytes : ℕ) (calls : List Report) : List ℕ :=
  (calls.map fun c => c.delta * rawNumBytes / c.total).filter (0 < ·)

variable {len blockSize : ℕ} {r : StreamProgressReporter} {u : UploadProgressStream} {s : UploadAttempts}

def Proper (len : ℕ) (reports : List Report) : Prop := ∀ c ∈ reports, 0 < c.delta ∧ c.total = len

structure StreamProgressReporter.Sound (len : ℕ) (r : StreamProgressReporter) : Prop where
  total : r.totalIfKnown = len
  mark : r.bytesReported = r.positions.foldr max 0
  le : r.bytesReported ≤ len
  calls : Proper len r.calls

structure UploadProgressStream.Sound (len : ℕ) (u : UploadProgressStream) : Prop where
  le : u.bytesSent ≤ len
  owed : Proper len u.owed
  ready : u.phase = .ready → u.owed = []

/-- The step calls back or owes exactly what it adds to the high-water mark. -/
def Accounts (len : ℕ) (u : UploadProgressStream) (r : StreamProgressReporter)
    (p : UploadProgressStream × StreamProgressReporter) : Prop :=
  p.1.Sound len ∧ p.2.Sound len ∧
    deltas p.2.calls + deltas p.1.owed + r.bytesReported = deltas r.calls + deltas u.owed +
      p.2.bytesReported

theorem sliceEnd_le {n : ℕ} (hn : n ≤ len) : sliceEnd len blockSize n ≤ len := by
  rw [sliceEnd]
  split <;> omega

theorem accounts_report (hu : u.Sound len) (hr : r.Sound len) (hp : u.phase = .ready) {phase : Phase}
    (hn : phase ≠ .ready) :
    Accounts len u r (⟨u.bytesSent,phase,r.owed u.bytesSent⟩,r.reportProgress u.bytesSent) := by
  have hl := hu.le
  have hz := hu.ready hp
  have hm : (r.reportProgress u.bytesSent).Sound len :=
    ⟨hr.total,by simp [StreamProgressReporter.reportProgress,hr.mark,max_comm],max_le hr.le hl,hr.calls⟩
  by_cases h : u.bytesSent ≤ r.bytesReported
  · refine ⟨⟨hl,?_,fun h => absurd h hn⟩,hm,?_⟩ <;>
      simp [StreamProgressReporter.owed,h,Proper,hz,StreamProgressReporter.reportProgress]
  · refine ⟨⟨hl,?_,fun h => absurd h hn⟩,hm,?_⟩ <;>
      simp [StreamProgressReporter.owed,h,Proper,hz,StreamProgressReporter.reportProgress,hr.total,
        deltas] <;> omega

theorem accounts_call (hu : u.Sound len) (hr : r.Sound len) {n : ℕ} (hn : n ≤ len) (phase : Phase) :
    Accounts len u r (⟨n,phase,[]⟩,{ r with calls := r.calls ++ u.owed }) :=
  ⟨⟨hn,by simp [Proper],fun _ => rfl⟩,
    ⟨hr.total,hr.mark,hr.le,forall_mem_append.mpr ⟨hr.calls,hu.owed⟩⟩,by simp [deltas]⟩

theorem UploadProgressStream.Sound.step (hu : u.Sound len) (hr : r.Sound len) (verb : Verb) :
    Accounts len u r (u.step len blockSize r verb) := by
  unfold UploadProgressStream.step
  split
  · split_ifs
    · exact ⟨hu,hr,rfl⟩
    · exact accounts_report hu hr ‹_› (by simp)
    · exact ⟨⟨sliceEnd_le (Nat.zero_le len),hu.owed,hu.ready⟩,hr,rfl⟩
  · exact accounts_report hu hr ‹_› (by simp)
  · exact accounts_call hu hr (sliceEnd_le hu.le) _
  · exact accounts_call hu hr hu.le _
  · exact ⟨hu,hr,rfl⟩

structure UploadAttempts.Accounted (len : ℕ) (s : UploadAttempts) : Prop where
  reporter : s.reporter.Sound len
  streams : ∀ u ∈ s.streams, u.Sound len
  sum : deltas s.reporter.calls + (s.streams.map fun u => deltas u.owed).sum = s.reporter.bytesReported

theorem UploadAttempts.Accounted.step (h : s.Accounted len) (a : AttemptStep) :
    (s.step len blockSize a).Accounted len := by
  cases a with
  | wrapBytesAsStream =>
    refine ⟨h.reporter,?_,by simpa [UploadAttempts.step,deltas] using h.sum⟩
    exact forall_mem_append.mpr
      ⟨h.streams,forall_mem_singleton.mpr ⟨Nat.zero_le len,by simp [Proper],fun _ => rfl⟩⟩
  | stream i verb =>
    rw [UploadAttempts.step]
    split
    · exact h
    rename_i u hu
    obtain ⟨hi,rfl⟩ := List.getElem?_eq_some_iff.mp hu
    obtain ⟨hu,hr,he⟩ := (h.streams _ (getElem_mem hi)).step h.reporter verb
    have hs := h.sum
    rw [← ((getElem_cons_eraseIdx_perm hi).map _).sum_eq] at hs
    refine ⟨hr,fun v hv => ?_,?_⟩
    · obtain hv | rfl := mem_or_eq_of_mem_set hv
      · exact h.streams v hv
      · exact hu
    · dsimp only
      rw [((set_perm_cons_eraseIdx hi _).map _).sum_eq]
      simp only [map_cons,sum_cons] at hs ⊢
      omega

theorem sum_rawDeltas_le (raw : ℕ) {calls : List Report} (h : Proper len calls) :
    (rawDeltas raw calls).sum ≤ deltas calls * raw / len := by
  refine (filter_sublist.sum_le_sum fun _ _ => Nat.zero_le _).trans ?_
  induction calls with
  | nil => simp
  | cons c calls ih =>
    obtain ⟨hc,h⟩ := forall_mem_cons.mp h
    simp only [deltas,map_cons,sum_cons,add_mul,hc.2]
    exact (Nat.add_le_add_left (ih h) _).trans Nat.div_add_div_le_add_div

/-- However polls, drops and retries interleave, each byte is called back once. -/
theorem run_progress (len blockSize rawNumBytes : ℕ) (steps : List AttemptStep) :
    let s := UploadAttempts.run len blockSize steps
    (∀ c ∈ s.reporter.calls, 0 < c.delta) ∧
      ((∀ u ∈ s.streams, u.owed = []) →
        (s.reporter.calls.map Report.delta).sum = s.reporter.positions.foldr max 0) ∧
      (rawDeltas rawNumBytes s.reporter.calls).sum ≤ rawNumBytes := by
  intro s
  have h : s.Accounted len := foldlRecOn steps _
    ⟨⟨rfl,rfl,Nat.zero_le len,by simp [Proper]⟩,by simp,rfl⟩ fun _ hs a _ => hs.step a
  refine ⟨fun c hc => (h.reporter.calls c hc).1,fun hq => ?_,?_⟩
  · rw [← h.reporter.mark,← h.sum,map_congr_left fun u hu => congrArg deltas (hq u hu)]
    simp [deltas]
  · refine (sum_rawDeltas_le rawNumBytes h.reporter.calls).trans (Nat.div_le_of_le_mul ?_)
    exact Nat.mul_le_mul_right _ ((Nat.le.intro h.sum).trans h.reporter.le)

end XetCore.Session
