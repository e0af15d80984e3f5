import Mathlib.Algebra.Order.Floor.Semifield
import Mathlib.Data.Rat.Floor
import XetCore.Session.TrackerAccounts

/-! # The totals of the completion tracker

The completed bytes of the tracker are those of its files. The estimate of a part is its
share of the uploaded bytes, rounded down: it only grows, also when a part grows after
some progress.
-/
namespace XetCore.Session
open Dedup CompletionTracker List

variable {H : Type}

/-- The uploaded part of a xorb as an exact ratio, rounded down. -/
def exactShare : Share := fun nBytes completedBytes xorbSize =>
  ⌊(nBytes : ℚ) * ((completedBytes : ℚ) / xorbSize)⌋₊

theorem exactShare_eq (n c size : ℕ) : exactShare n c size = n * c / size := by
  rw [exactShare,← mul_div_assoc,← Nat.cast_mul,Nat.floor_div_eq_div]

theorem exactShare_mono {n m c d : ℕ} (hn : n ≤ m) (hc : c ≤ d) (size : ℕ) :
    exactShare n c size ≤ exactShare m d size := by
  rw [exactShare_eq,exactShare_eq]
  exact Nat.div_le_div_right (Nat.mul_le_mul hn hc)

theorem exactShare_le (n c size : ℕ) (hc : c ≤ size) : exactShare n c size ≤ n := by
  rw [exactShare_eq]
  exact Nat.div_le_of_le_mul (by rw [Nat.mul_comm size]; exact Nat.mul_le_mul_left n hc)

section Sums
variable {change : FileDependency H → FileDependency H}

def filesCompleted (files : List (FileDependency H)) : ℕ := (files.map (·.completedBytes)).sum

theorem filesCompleted_concat (files : List (FileDependency H)) (f : FileDependency H) :
    filesCompleted (files ++ [f]) = filesCompleted files + f.completedBytes := by
  simp [filesCompleted]

theorem filesCompleted_modify {n : ℕ}
    (hc : ∀ f, (change f).completedBytes = f.completedBytes + n) {files : List (FileDependency H)} {i : ℕ}
    (hi : i < files.length) : filesCompleted (files.modify i change) = filesCompleted files + n := by
  induction files generalizing i with
  | nil => simp at hi
  | cons f files ih =>
    cases i with
    | zero =>
      simp only [filesCompleted,modify_zero_cons,map_cons,sum_cons,hc]
      omega
    | succ i =>
      have hr := ih (by simpa using hi)
      simp only [filesCompleted,modify_succ_cons,map_cons,sum_cons] at hr ⊢
      omega

theorem filesCompleted_modify_same
    (hc : ∀ f, (change f).completedBytes = f.completedBytes) (files : List (FileDependency H)) (i : ℕ) :
    filesCompleted (files.modify i change) = filesCompleted files := by
  by_cases hi : i < files.length
  · exact filesCompleted_modify (n := 0) (by simpa using hc) hi
  · rw [modify_eq_self (Nat.le_of_not_lt hi)]

theorem filesCompleted_modifyFiles {indices : Finset ℕ}
    {bytes : FileDependency H → ℕ} (hc : ∀ f, (change f).completedBytes = f.completedBytes + bytes f)
    (files : List (FileDependency H)) :
    filesCompleted (modifyFiles indices change files) = filesCompleted files +
      sumFiles indices bytes files := by
  induction files using List.reverseRecOn with
  | nil => rfl
  | append_singleton files f ih =>
    simp only [modifyFiles,sumFiles,mapIdx_concat,sum_append,sum_singleton] at ih ⊢
    rw [filesCompleted_concat,filesCompleted_concat,ih]
    split
    · rw [hc]
      omega
    · omega

end Sums

section Balance
variable [DecidableEq H] {t : CompletionTracker H} {i : ℕ} {f : FileDependency H}
variable {X : Finset H} {deps : List (FileXorbDependency H)}

/-- The estimates of a file are at most the shares of what is uploaded. -/
def Estimates (xorbs : H → XorbDependency) (f : FileDependency H) : Prop :=
  ∀ x p, f.remainingXorbsParts x = some p →
    p.completedBytes ≤ exactShare p.nBytes (xorbs x).completedBytes (xorbs x).xorbSize

omit [DecidableEq H] in
theorem Estimates.mono {xorbs xorbs' : H → XorbDependency} (h : Estimates xorbs f)
    (hle : ∀ x n, exactShare n (xorbs x).completedBytes (xorbs x).xorbSize ≤
      exactShare n (xorbs' x).completedBytes (xorbs' x).xorbSize) : Estimates xorbs' f :=
  fun x p hp => (h x p hp).trans (hle x _)

structure InBalance (t : CompletionTracker H) : Prop where
  total : t.totalBytesCompleted = filesCompleted t.files
  uploaded : ∀ x, (t.xorbs x).completedBytes ≤ (t.xorbs x).xorbSize
  estimates : ∀ (i : ℕ) f, t.files[i]? = some f → Estimates t.xorbs f

namespace InBalance

omit [DecidableEq H] in
theorem newFile (h : InBalance t) (nBytes : Option ℕ) : InBalance (t.registerNewFile nBytes).2 := by
  refine ⟨?_,h.uploaded,fun i f hf => ?_⟩
  · simp only [registerNewFile,filesCompleted_concat,Nat.add_zero]
    exact h.total
  · simp only [registerNewFile] at hf
    rcases List.mem_append.mp (List.mem_of_getElem? hf) with hold | hn
    · obtain ⟨j,hj⟩ := List.mem_iff_getElem?.mp hold
      exact h.estimates j f hj
    · obtain rfl := List.mem_singleton.mp hn
      intro x p hp
      simp at hp

omit [DecidableEq H] in
theorem fileSize (h : InBalance t) (fileId n : ℕ) : InBalance (t.incrementFileSize fileId n) := by
  unfold incrementFileSize
  split
  · exact h
  · refine ⟨?_,h.uploaded,fun i f hf => ?_⟩
    · refine h.total.trans (Eq.symm ?_)
      apply filesCompleted_modify_same
      exact fun _ => rfl
    · obtain ⟨g,hg,rfl⟩ := exists_of_modify hf
      have he := h.estimates i g hg
      split <;> exact he

theorem dependency (h : InBalance t) {dep : FileXorbDependency H} (hlt : dep.fileId < t.files.length) :
    InBalance (t.registerDependency dep) := by
  have hc : InBalance { t with
      files := t.files.modify dep.fileId fun f =>
        { f with completedBytes := f.completedBytes + dep.nBytes }
      totalBytesCompleted := t.totalBytesCompleted + dep.nBytes } := by
    refine ⟨?_,h.uploaded,fun i f hf => ?_⟩
    · rw [filesCompleted_modify (fun _ => rfl) hlt,h.total]
    · obtain ⟨g,hg,rfl⟩ := exists_of_modify hf
      have he := h.estimates i g hg
      split <;> exact he
  unfold registerDependency
  split
  · exact hc
  · split
    · exact hc
    · refine ⟨?_,fun x => ?_,fun i f hf => ?_⟩
      · refine h.total.trans (Eq.symm ?_)
        apply filesCompleted_modify_same
        exact fun _ => rfl
      · by_cases hx : x = dep.xorbHash
        · subst hx
          simpa using h.uploaded dep.xorbHash
        · simpa [hx] using h.uploaded x
      · obtain ⟨g,hg,rfl⟩ := exists_of_modify hf
        have hs : Estimates (Function.update t.xorbs dep.xorbHash { t.xorbs dep.xorbHash with
            fileIndices := insert dep.fileId (t.xorbs dep.xorbHash).fileIndices }) g := by
          refine (h.estimates i g hg).mono fun x n => ?_
          by_cases hx : x = dep.xorbHash
          · subst hx
            simp
          · simp [hx]
        split
        · intro x p hp
          by_cases hx : x = dep.xorbHash
          · -- the part has grown, its estimate has not
            subst hx
            obtain rfl : _ = p := by simpa using hp
            cases hg' : g.remainingXorbsParts dep.xorbHash with
            | none => simp [FileDependency.part,hg']
            | some q =>
              have hq := hs _ q hg'
              simp only [FileDependency.part,hg']
              exact hq.trans (exactShare_mono (Nat.le_add_right _ _) le_rfl _)
          · simp only [Function.update_of_ne hx] at hp
            exact hs x p hp
        · exact hs

theorem dependencies (h : InBalance t)
    (hlt : ∀ dep ∈ deps, dep.fileId < t.files.length) : InBalance (t.registerDependencies deps) := by
  induction deps generalizing t with
  | nil => exact h
  | cons dep deps ih =>
    have hn := h.dependency (hlt dep mem_cons_self)
    have hlen : (t.registerDependency dep).files.length = t.files.length := by
      simp only [registerDependency]
      split
      · simp
      · split <;> simp
    exact ih hn fun d hd => by rw [hlen]; exact hlt d (mem_cons_of_mem _ hd)

theorem newXorb (h : InBalance t) (x : H) (size : ℕ) : InBalance (t.registerNewXorb x size).2 := by
  unfold registerNewXorb
  simp only
  split
  · have hn : (t.xorbs x).completedBytes = 0 := by
      have := h.uploaded x
      omega
    refine ⟨h.total,fun y => ?_,fun i f hf => (h.estimates i f hf).mono fun y n => ?_⟩
    · by_cases hy : y = x
      · subst hy
        simp [hn]
      · simpa [hy] using h.uploaded y
    · by_cases hy : y = x
      · subst hy
        simp [hn,exactShare_eq]
      · simp [hy]
  · exact h

theorem completion (h : InBalance t) (x : H) : InBalance (t.registerXorbUploadCompletion x) := by
  unfold registerXorbUploadCompletion
  simp only
  split
  · exact h
  · refine ⟨?_,fun y => ?_,fun i f hf => ?_⟩
    · rw [filesCompleted_modifyFiles (fun _ => rfl),h.total]
    · by_cases hy : y = x
      · subst hy
        simpa using h.uploaded y
      · simpa [hy] using h.uploaded y
    · obtain ⟨g,hg,rfl⟩ := exists_of_modifyFiles hf
      have hs : Estimates (Function.update t.xorbs x
        { t.xorbs x with isCompleted := true, fileIndices := ∅ }) g := by
        refine (h.estimates i g hg).mono fun y n => ?_
        by_cases hy : y = x
        · subst hy
          simp
        · simp [hy]
      split
      · intro y p hp
        by_cases hy : y = x
        · subst hy
          simp [completePart] at hp
        · simp only [completePart,Function.update_of_ne hy] at hp
          exact hs y p hp
      · exact hs

theorem progress (h : InBalance t) {x : H} {n : ℕ}
    (hn : (t.xorbs x).completedBytes + n ≤ (t.xorbs x).xorbSize)
    (checkOrdering : Bool) : InBalance (t.registerXorbUploadProgress exactShare x n checkOrdering) := by
  unfold registerXorbUploadProgress
  simp only
  split
  · exact h
  · refine ⟨?_,fun y => ?_,fun i f hf => ?_⟩
    · rw [filesCompleted_modifyFiles (fun _ => rfl),h.total]
    · by_cases hy : y = x
      · subst hy
        simpa using hn
      · simpa [hy] using h.uploaded y
    · obtain ⟨g,hg,rfl⟩ := exists_of_modifyFiles hf
      have hs : Estimates (Function.update t.xorbs x
          { t.xorbs x with completedBytes := (t.xorbs x).completedBytes + n }) g := by
        refine (h.estimates i g hg).mono fun y m => ?_
        by_cases hy : y = x
        · subst hy
          simp only [Function.update_self]
          exact exactShare_mono le_rfl (Nat.le_add_right _ _) _
        · simp [hy]
      split
      · intro y p hp
        by_cases hy : y = x
        · -- the estimate rises to the new share
          subst hy
          simp only [advancePart,Function.update_self,Option.map_eq_some_iff] at hp
          obtain ⟨q,hq,rfl⟩ := hp
          have hold := hs y q hq
          rw [FileTracked.incrementalUpdate_of_some hq]
          simp only [Function.update_self] at hold ⊢
          omega
        · simp only [advancePart,Function.update_of_ne hy] at hp
          exact hs y p hp
      · exact hs

theorem apply (h : InBalance t) {e : TrackerEvent H} (he : t.EventOk e) :
    InBalance (CompletionTracker.apply exactShare t e) := by
  cases e with
  | newFile nBytes => exact h.newFile nBytes
  | fileSize fileId n => exact h.fileSize fileId n
  | dependencies deps => exact h.dependencies he
  | newXorb x size => exact h.newXorb x size
  | progress x n checkOrdering => exact h.progress he checkOrdering
  | completion x => exact h.completion x

theorem applyAll (h : InBalance t) {events : List (TrackerEvent H)} (hok : EventsOk exactShare t events) :
    InBalance (CompletionTracker.applyAll exactShare t events) := by
  induction events generalizing t with
  | nil => exact h
  | cons e es ih => exact ih (h.apply hok.1) hok.2

end InBalance

theorem sum_waits (xorbs : H → XorbDependency) (i : ℕ) (hX : ∀ d ∈ deps, d.xorbHash ∈ X) :
    (∑ x ∈ X, if (xorbs x).isCompleted then 0 else fileDepBytes i (waitsFor x) deps) +
      fileDepBytes i (isDone xorbs) deps =
      fileDepBytes i (fun _ => true) deps := by
  induction deps using List.reverseRecOn with
  | nil => simp [fileDepBytes,depBytes]
  | append_singleton deps d ih =>
    have hd : d.xorbHash ∈ X := hX d (by simp)
    have hw : ∀ x, (if (xorbs x).isCompleted then 0 else fileDepBytes i (waitsFor x) (deps ++ [d])) =
        (if (xorbs x).isCompleted then 0 else fileDepBytes i (waitsFor x) deps) +
          if d.xorbHash = x then (if d.fileId = i ∧ isDone xorbs d = false then d.nBytes else 0)
            else 0 := by
      intro x
      rw [fileDepBytes_concat]
      by_cases hx : d.xorbHash = x
      · subst hx
        cases hc : (xorbs d.xorbHash).isCompleted <;> cases he : d.isExternal <;>
          simp [waitsFor,isDone,hc]
      · simp [waitsFor,hx]
    have hr := ih fun e he => hX e (mem_append_left _ he)
    rw [Finset.sum_congr rfl fun x _ => hw x,Finset.sum_add_distrib,Finset.sum_ite_eq,if_pos hd,
      fileDepBytes_concat,fileDepBytes_concat]
    cases isDone xorbs d <;> by_cases hi : d.fileId = i <;> simp <;> omega

section Completions
variable {share : Share} {x : H}

theorem isCompleted_registerDependencies (h : (t.xorbs x).isCompleted = true) :
    ((t.registerDependencies deps).xorbs x).isCompleted = true := by
  induction deps generalizing t with
  | nil => exact h
  | cons dep deps ih =>
    refine ih ?_
    unfold registerDependency
    split
    · exact h
    split
    · exact h
    by_cases hx : x = dep.xorbHash
    · subst hx
      simpa using h
    · simpa [hx] using h

theorem isCompleted_apply (h : (t.xorbs x).isCompleted = true) (e : TrackerEvent H) :
    ((CompletionTracker.apply share t e).xorbs x).isCompleted = true := by
  -- no report takes the mark of a completed xorb back
  have hup : ∀ (y : H) (entry : XorbDependency),
      ((t.xorbs y).isCompleted = true → entry.isCompleted = true) →
      (Function.update t.xorbs y entry x).isCompleted = true := by
    intro y entry he
    by_cases hx : x = y
    · subst hx
      simpa using he h
    · simpa [hx] using h
  cases e with
  | newFile nBytes => exact h
  | fileSize fileId n =>
    simp only [CompletionTracker.apply,incrementFileSize]
    split <;> exact h
  | dependencies deps => exact isCompleted_registerDependencies h
  | newXorb y size =>
    simp only [CompletionTracker.apply,registerNewXorb]
    split
    · exact hup y _ id
    · exact h
  | progress y n checkOrdering =>
    simp only [CompletionTracker.apply,registerXorbUploadProgress]
    split
    · exact h
    · exact hup y _ id
  | completion y =>
    simp only [CompletionTracker.apply,registerXorbUploadCompletion]
    split
    · exact h
    · exact hup y _ fun _ => rfl

theorem isCompleted_completion (share : Share) (t : CompletionTracker H) (x : H) :
    ((CompletionTracker.apply share t (.completion x)).xorbs x).isCompleted = true := by
  simp only [CompletionTracker.apply,registerXorbUploadCompletion]
  split
  · assumption
  · simp

theorem isCompleted_applyAll {events : List (TrackerEvent H)}
    (h : (t.xorbs x).isCompleted = true ∨ TrackerEvent.completion x ∈ events) :
    ((CompletionTracker.applyAll share t events).xorbs x).isCompleted = true := by
  induction events generalizing t with
  | nil => exact h.resolve_right (by simp)
  | cons e events ih =>
    refine ih ?_
    rcases h with h | h
    · exact .inl (isCompleted_apply h e)
    · rcases mem_cons.mp h with rfl | h
      · exact .inl (isCompleted_completion share t x)
      · exact .inr h

end Completions

/-- What the tracker keeps after these reports. -/
structure Accounted (t : CompletionTracker H) (events : List (TrackerEvent H)) : Prop where
  total : t.totalBytesCompleted = filesCompleted t.files
  conserved : ∀ i f, t.files[i]? = some f →
    ∃ parts : Finset H, (∀ x, x ∈ parts ↔ f.remainingXorbsParts x ≠ none) ∧
      f.completedBytes + ∑ x ∈ parts, remainingBytes x f =
        fileDepBytes i (fun _ => true) (events.flatMap TrackerEvent.deps)
  part_le : ∀ (i : ℕ) f, t.files[i]? = some f → ∀ x part, f.remainingXorbsParts x = some part →
    part.completedBytes ≤ part.nBytes
  -- the subtractions of a completion and of a report of progress
  uploaded_le : ∀ x, (t.xorbs x).completedBytes ≤ (t.xorbs x).xorbSize
  estimate_le : ∀ (i : ℕ) f, t.files[i]? = some f →
    ∀ x part, f.remainingXorbsParts x = some part → ∀ n, part.completedBytes ≤
      exactShare part.nBytes ((t.xorbs x).completedBytes + n) (t.xorbs x).xorbSize
  finished : (∀ d ∈ events.flatMap TrackerEvent.deps, d.isExternal = false →
      TrackerEvent.completion d.xorbHash ∈ events) →
    ∀ (i : ℕ) f, t.files[i]? = some f → ∀ x, f.remainingXorbsParts x = none

theorem FileTracked.conserved {xorbs : H → XorbDependency}
    (h : FileTracked X xorbs deps i f) (hX : ∀ d ∈ deps, d.xorbHash ∈ X) :
    f.completedBytes + ∑ x ∈ X, remainingBytes x f = fileDepBytes i (fun _ => true) deps := by
  have hp : ∑ x ∈ X, remainingBytes x f + ∑ x ∈ X, (f.part x).completedBytes = ∑ x ∈ X,
    (f.part x).nBytes := by
    rw [← Finset.sum_add_distrib]
    refine Finset.sum_congr rfl fun x _ => ?_
    have hle := h.le x
    unfold remainingBytes
    omega
  have hw := sum_waits xorbs i hX
  rw [← Finset.sum_congr rfl fun x _ => h.part x] at hw
  have hc := h.completed
  omega

theorem accounted {events : List (TrackerEvent H)}
    (ht : Tracked X t (events.flatMap TrackerEvent.deps)) (hb : InBalance t)
    (hX : ∀ d ∈ events.flatMap TrackerEvent.deps, d.xorbHash ∈ X)
    (hc : ∀ x, TrackerEvent.completion x ∈ events → (t.xorbs x).isCompleted = true) :
    Accounted t events := by
  have hmem : ∀ {i : ℕ} {f x}, t.files[i]? = some f → f.remainingXorbsParts x ≠ none →
      (t.xorbs x).isCompleted = false ∧
        ∃ d ∈ events.flatMap TrackerEvent.deps, waitsFor x d = true :=
    fun hf hx => ((ht.files _ _ hf).index _ hx).2
  refine ⟨hb.total,fun i f hf => ?_,fun i f hf x part hp => ?_,hb.uploaded,fun i f hf x part hp n => ?_,
    fun ha i f hf x => ?_⟩
  · have hfi := ht.files i f hf
    refine ⟨X.filter fun x => (f.remainingXorbsParts x).isSome,fun x => ?_,?_⟩
    · rw [Finset.mem_filter,Option.isSome_iff_ne_none]
      refine and_iff_right_of_imp fun hx => ?_
      obtain ⟨_,d,hd,hw⟩ := hmem hf hx
      simp only [waitsFor,Bool.and_eq_true,decide_eq_true_eq] at hw
      exact hw.2 ▸ hX d hd
    · rw [← hfi.conserved hX,Finset.sum_filter_of_ne fun x _ hne => ?_]
      by_contra hn
      simp only [Option.isSome_iff_ne_none,not_not] at hn
      exact hne (by simp [remainingBytes,FileDependency.part,hn])
  · have hle := (ht.files i f hf).le x
    rwa [FileDependency.part,hp,Option.getD_some] at hle
  · exact (hb.estimates i f hf x part hp).trans (exactShare_mono le_rfl (Nat.le_add_right _ _) _)
  · by_contra hx
    obtain ⟨ho,d,hd,hw⟩ := hmem hf hx
    simp only [waitsFor,Bool.and_eq_true,Bool.not_eq_eq_eq_not,decide_eq_true_eq] at hw
    have hdo := hc d.xorbHash (ha d hd hw.1)
    rw [hw.2,ho] at hdo
    exact Bool.noConfusion hdo

/-- Whatever is reported in which order, the tracker keeps its accounts. -/
theorem tracker_accounted {events : List (TrackerEvent H)} (hok : EventsOk exactShare {} events) :
    Accounted (CompletionTracker.applyAll exactShare {} events) events := by
  set hashes := ((events.flatMap TrackerEvent.deps).map (·.xorbHash)).toFinset with hhashes
  have hstart : Tracked hashes ({} : CompletionTracker H) [] := ⟨by simp,by simp⟩
  have hX : ∀ d ∈ events.flatMap TrackerEvent.deps, d.xorbHash ∈ hashes := by
    intro d hd
    rw [hhashes]
    exact mem_toFinset.mpr (mem_map.mpr ⟨d,hd,rfl⟩)
  have htracked := hstart.applyAll (fun n c size hc => exactShare_le n c size hc) hok hX
  have hbalance : InBalance ({} : CompletionTracker H) := ⟨rfl,fun _ => le_rfl,by simp⟩
  exact accounted htracked (hbalance.applyAll hok) hX fun x hx => isCompleted_applyAll (.inr hx)

/-- A part that grows between two reports of progress, and reports after the completion. -/
def lateReports : List (TrackerEvent ℕ) :=
  [.newFile none,.dependencies [⟨0,7,5,false⟩,⟨0,8,2,true⟩],.newXorb 7 10,.progress 7 4 true,
    .dependencies [⟨0,7,3,false⟩],.progress 7 2 true,.completion 7,.progress 7 4 false,
    .dependencies [⟨0,7,6,false⟩]]

/-- After the completion no part of the file remains. -/
theorem tracker_accounted_late : EventsOk exactShare {} lateReports ∧
    Accounted (CompletionTracker.applyAll exactShare {} lateReports) lateReports ∧
    ∀ f, (CompletionTracker.applyAll exactShare {} lateReports).files[0]? = some f →
      ∀ x, f.remainingXorbsParts x = none := by
  have hok : EventsOk exactShare {} lateReports := by
    simp [lateReports,EventsOk,EventOk,CompletionTracker.apply,registerNewFile,
      registerDependencies,registerDependency,registerNewXorb,registerXorbUploadProgress,
      registerXorbUploadCompletion,modifyFiles]
  refine ⟨hok,tracker_accounted hok,(tracker_accounted hok).finished ?_ 0⟩
  simp [lateReports,TrackerEvent.deps]

end Balance
end XetCore.Session
