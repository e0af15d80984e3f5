import XetCore.Reconstruction.TermManager

/-! # The blocks that are handed out

Whatever the estimator says and whenever the tasks finish, the planned ranges follow each
other, and the position that is taken for the end of the file is never before its end. So
the blocks that are handed out follow each other up to the end, and nothing comes behind it.
-/
namespace XetCore.Reconstruction
open Intervals List
variable {H F : Type} {position : ℕ}

/-- The answers give the part of a range that is inside the file, and nothing past its end. -/
structure Truthful (size : ℕ) (retrieve : FileRange → Option (FileRange × List (FileTerm H))) : Prop where
  within : ∀ r : FileRange, r.start < r.stop → r.start < size → ∃ fileTerms,
    retrieve r = some (⟨r.start,min r.stop size⟩,fileTerms) ∧
      Tiles r.start (min r.stop size) (fileTerms.map FileTerm.byteRange)
  past : ∀ r : FileRange, r.start < r.stop → size ≤ r.start → retrieve r = none

variable {retrieve : FileRange → Option (FileRange × List (FileTerm H))} {ops : FloatOps F}
  {config : ReconstructionConfig F} {size : ℕ} {range : FileRange}

/-- A task of a range that is not empty and inside the requested one. -/
structure PrefetchTask.Sound (retrieve : FileRange → Option (FileRange × List (FileTerm H)))
    (range : FileRange) (t : PrefetchTask H) : Prop where
  start_lt : t.range.start < t.range.stop
  stop_le : t.range.stop ≤ range.stop
  result_eq : ∀ r, t.result = some r → r = (retrieve t.range).map Prod.snd

/-- The position is inside the requested range and not before the end of the file. -/
structure FinalPosition (size : ℕ) (range : FileRange) (position : ℕ) : Prop where
  le_stop : position ≤ range.stop
  ge : min range.stop size ≤ position

section Finish
variable {t : PrefetchTask H}

theorem PrefetchTask.finish_range (retrieve : FileRange → Option (FileRange × List (FileTerm H)))
    (position : ℕ) (t : PrefetchTask H) : (t.finish retrieve position).2.range = t.range := by
  rw [finish]
  split
  · rfl
  · split
    · rfl
    · rfl

theorem PrefetchTask.Sound.finish_result (h : t.Sound retrieve range) (position : ℕ) :
    (t.finish retrieve position).2.result = some ((retrieve t.range).map Prod.snd) := by
  rw [finish]
  cases hr : t.result with
  | some r => exact hr.trans (congrArg some (h.result_eq r hr))
  | none =>
    cases hre : retrieve t.range with
    | none => rfl
    | some answer => rfl

theorem PrefetchTask.Sound.finish (h : t.Sound retrieve range) (position : ℕ) :
    (t.finish retrieve position).2.Sound retrieve range := by
  have hra := t.finish_range retrieve position
  refine ⟨by rw [hra]; exact h.start_lt,by rw [hra]; exact h.stop_le,fun r hr => ?_⟩
  rw [hra]
  exact (Option.some.inj ((h.finish_result position).symm.trans hr)).symm

theorem FinalPosition.finish (hp : FinalPosition size range position) (htruthful : Truthful size retrieve)
    (h : t.Sound retrieve range) : FinalPosition size range (t.finish retrieve position).1 := by
  have hlt := h.start_lt
  have hle := h.stop_le
  obtain ⟨hs,hge⟩ := hp
  rw [PrefetchTask.finish]
  cases hre : t.result with
  | some r => exact ⟨hs,hge⟩
  | none =>
    by_cases hin : t.range.start < size
    · obtain ⟨fileTerms,hr,-⟩ := htruthful.within t.range hlt hin
      simp only [hr]
      split
      · exact ⟨by omega,by omega⟩
      · exact ⟨hs,hge⟩
    · simp only [htruthful.past t.range hlt (by omega)]
      exact ⟨by omega,by omega⟩

end Finish

namespace TermManager

/-- The queue holds the tasks of the ranges from a position to the end of what is planned. -/
structure Planned (size : ℕ) (retrieve : FileRange → Option (FileRange × List (FileTerm H)))
    (range : FileRange) (m : TermManager H) (position : ℕ) : Prop where
  requested_eq : m.requestedByteRange = range
  queue : Tiles position m.prefetchedBytePosition (m.prefetchQueue.map PrefetchTask.range)
  tasks : ∀ t ∈ m.prefetchQueue, t.Sound retrieve range
  final : FinalPosition size range m.knownFinalBytePosition
  start_le : range.start ≤ position
  prefetched_le : m.prefetchedBytePosition ≤ range.stop ∨ m.prefetchedBytePosition = range.start
  active_le : m.currentActiveBytePosition ≤ m.prefetchedBytePosition

variable {m : TermManager H}

section
variable (h : m.Planned size retrieve range position)
include h

theorem Planned.finishTask (htruthful : Truthful size retrieve) (i : ℕ) :
    (m.finishTask retrieve i).Planned size retrieve range position := by
  rw [TermManager.finishTask]
  cases ht : m.prefetchQueue[i]? with
  | none => exact h
  | some t =>
    have hs := h.tasks t (mem_of_getElem? ht)
    refine ⟨h.requested_eq,?_,fun t' ht' => ?_,h.final.finish htruthful hs,h.start_le,
      h.prefetched_le,h.active_le⟩
    · obtain ⟨hlt,rfl⟩ := List.getElem?_eq_some_iff.mp ht
      have hsa : (m.prefetchQueue.map PrefetchTask.range).set i m.prefetchQueue[i].range =
          m.prefetchQueue.map PrefetchTask.range :=
        (congrArg _ (getElem_map _).symm).trans (set_getElem_self (by simpa using hlt))
      rw [map_set,PrefetchTask.finish_range,hsa]
      exact h.queue
    · rcases mem_or_eq_of_mem_set ht' with hold | rfl
      · exact h.tasks t' hold
      · exact hs.finish _

theorem Planned.finishTasks (htruthful : Truthful size retrieve)
    (tasks : List ℕ) : (m.finishTasks retrieve tasks).Planned size retrieve range position := by
  induction tasks generalizing m with
  | nil => exact h
  | cons i tasks ih => exact ih (h.finishTask htruthful i)

theorem Planned.prefetchBlock (blockSize : ℕ) :
    (m.prefetchBlock config blockSize).Planned size retrieve range position := by
  have hle : m.blockEnd config blockSize ≤ m.requestedByteRange.stop := by
    simp only [blockEnd]
    split <;> split <;> omega
  rw [h.requested_eq] at hle
  rw [TermManager.prefetchBlock]
  split_ifs with hlt
  · exact h
  · refine ⟨h.requested_eq,?_,?_,h.final,h.start_le,.inl hle,h.active_le.trans (Nat.le_of_not_le hlt)⟩
    · dsimp only
      rw [map_append]
      exact h.queue.append (tiles_singleton (by omega))
    · refine forall_mem_append.mpr ⟨h.tasks,forall_mem_singleton.mpr ⟨by dsimp only; omega,hle,nofun⟩⟩

theorem Planned.checkPrefetchBuffer (htruthful : Truthful size retrieve) (call : CallSchedule F) :
    (m.checkPrefetchBuffer retrieve ops config call).Planned size retrieve range position := by
  rw [TermManager.checkPrefetchBuffer]
  split
  · exact h
  · split
    · exact h
    · exact (h.finishTasks htruthful call.beforePlan).prefetchBlock _

end

theorem length_finishTasks (m : TermManager H) (tasks : List ℕ) :
    (m.finishTasks retrieve tasks).prefetchQueue.length = m.prefetchQueue.length := by
  induction tasks generalizing m with
  | nil => rfl
  | cons i tasks ih =>
    refine (ih (m.finishTask retrieve i)).trans ?_
    rw [finishTask]
    split
    · rfl
    · exact length_set

theorem finishTasks_of_queue_nil (hq : m.prefetchQueue = []) (tasks : List ℕ) :
    m.finishTasks retrieve tasks = m := by
  induction tasks with
  | nil => rfl
  | cons i tasks ih =>
    have hn : m.finishTask retrieve i = m := by
      rw [finishTask,hq]
      rfl
    refine (congrArg (fun n => finishTasks retrieve n tasks) hn).trans ih

theorem lt_blockEnd (hmin : 1 ≤ config.minReconstructionFetchSize)
    (hmax : config.minReconstructionFetchSize ≤ config.maxReconstructionFetchSize)
    (hlt : m.prefetchedBytePosition < m.knownFinalBytePosition)
    (hle : m.knownFinalBytePosition ≤ m.requestedByteRange.stop) (blockSize : ℕ) :
    m.prefetchedBytePosition < m.blockEnd config blockSize := by
  have hc : 1 ≤ clamp blockSize config.minReconstructionFetchSize config.maxReconstructionFetchSize := by
    rw [clamp]
    split
    · exact hmin
    · split <;> omega
  simp only [blockEnd]
  split <;> split <;> omega

/-- Nothing of the file is left from this position on. -/
def Ended (size : ℕ) (range : FileRange) (position : ℕ) : Prop := range.stop ≤ position ∨ size ≤ position

section
variable (h : m.Planned size retrieve range position)
include h

theorem Planned.ended_of_done (hq : m.prefetchQueue = [])
    (hd : m.isDoneFetching = true) : Ended size range position := by
  have hp := h.queue
  rw [hq] at hp
  obtain rfl : position = m.prefetchedBytePosition := hp
  have hge := h.final.ge
  have hle := of_decide_eq_true hd
  rw [Ended]
  omega

theorem Planned.ended_of_queue_nil (hmin : 1 ≤ config.minReconstructionFetchSize)
    (hmax : config.minReconstructionFetchSize ≤ config.maxReconstructionFetchSize) (call : CallSchedule F)
    (hq : (m.checkPrefetchBuffer retrieve ops config call).prefetchQueue = []) :
    Ended size range position := by
  rw [TermManager.checkPrefetchBuffer] at hq
  split_ifs at hq with hd
  · exact h.ended_of_done hq hd
  · exfalso
    have hlt : m.prefetchedBytePosition < m.knownFinalBytePosition := by simpa [isDoneFetching] using hd
    have hle := h.final.le_stop
    rw [← h.requested_eq] at hle
    cases hs : m.nextBlockSize ops config call.completionRate with
    | none =>
      -- Only with something in the queue is no block planned.
      rw [hs] at hq
      simp [nextBlockSize,hq] at hs
    | some blockSize =>
      rw [hs] at hq
      dsimp only at hq
      have hn : m.prefetchQueue = [] := by
        rw [TermManager.prefetchBlock] at hq
        split at hq
        · rwa [← length_eq_zero_iff,length_finishTasks,length_eq_zero_iff] at hq
        · simp at hq
      rw [finishTasks_of_queue_nil hn,TermManager.prefetchBlock,
        if_neg (not_le.mpr (lt_blockEnd hmin hmax hlt hle blockSize))] at hq
      simp at hq

theorem Planned.takeNext (htruthful : Truthful size retrieve)
    (he : m.prefetchQueue = [] → Ended size range position) :
    (∃ fileTerms position', (m.takeNext retrieve).2 = some fileTerms ∧ position < size ∧
      position < position' ∧
      position' ≤ range.stop ∧ Tiles position (min position' size) (fileTerms.map FileTerm.byteRange) ∧
      (m.takeNext retrieve).1.Planned size retrieve range position') ∨
    ((m.takeNext retrieve).2 = none ∧ Ended size range position ∧
      ∃ position', position ≤ position' ∧
      (m.takeNext retrieve).1.Planned size retrieve range position') := by
  rw [TermManager.takeNext]
  cases hq : m.prefetchQueue with
  | nil => exact .inr ⟨rfl,he hq,position,le_rfl,h⟩
  | cons t rest =>
    have hti := h.queue
    have hta := h.tasks
    rw [hq] at hti hta
    obtain ⟨rfl,-,hre⟩ := hti
    obtain ⟨ht,hta⟩ := forall_mem_cons.mp hta
    have hlt := ht.start_lt
    have hle := hre.le
    have hr := ht.finish_result m.knownFinalBytePosition
    by_cases hin : t.range.start < size
    · left
      obtain ⟨fileTerms,hrt,hte⟩ := htruthful.within t.range hlt hin
      rw [hrt] at hr
      rw [Option.map_some] at hr
      simp only [hr]
      refine ⟨fileTerms,t.range.stop,rfl,hin,hlt,ht.stop_le,hte,h.requested_eq,hre,hta,
        h.final.finish htruthful ht,h.start_le.trans hlt.le,h.prefetched_le,?_⟩
      dsimp only
      cases hl : fileTerms.getLast? with
      | none => exact Nat.zero_le _
      | some last =>
        have hmem := mem_map_of_mem (f := FileTerm.byteRange) (mem_of_getLast? hl)
        have hst := hte.stop_le hmem
        rw [Option.map_some,Option.getD_some]
        omega
    · right
      rw [htruthful.past t.range hlt (by omega)] at hr
      rw [Option.map_none] at hr
      simp only [hr]
      refine ⟨trivial,.inr (by omega),t.range.stop,hlt.le,h.requested_eq,hre,hta,⟨?_,?_⟩,
        h.start_le.trans hlt.le,h.prefetched_le,h.active_le⟩
      · have hs := h.start_le
        have hor := h.prefetched_le
        dsimp only
        omega
      · dsimp only
        omega

end

section Calls
variable (retrieve ops config) (m) (calls : ℕ → CallSchedule F)

theorem afterCalls_succ (n : ℕ) : m.afterCalls retrieve ops config calls (n + 1) =
    (m.nextFileTerms retrieve ops config (calls 0)).1.afterCalls retrieve ops config
      (fun k => calls (k + 1)) n := by
  induction n with
  | zero => rfl
  | succ n ih => exact congrArg (fun k => (k.nextFileTerms retrieve ops config (calls (n + 1))).1) ih

theorem returned_succ (n : ℕ) : m.returned retrieve ops config calls (n + 1) =
    (m.nextFileTerms retrieve ops config (calls 0)).1.returned retrieve ops config
      (fun k => calls (k + 1)) n := by
  rw [returned,afterCalls_succ,returned]

end Calls

section Runs
variable (htruthful : Truthful size retrieve) (hmin : 1 ≤ config.minReconstructionFetchSize)
  (hmax : config.minReconstructionFetchSize ≤ config.maxReconstructionFetchSize)
include htruthful hmin hmax

section
variable (h : m.Planned size retrieve range position)
include h

variable (ops : FloatOps F)

theorem Planned.nextFileTerms (call : CallSchedule F) :
    (∃ fileTerms position', (m.nextFileTerms retrieve ops config call).2 = some fileTerms ∧
      position < size ∧
      position < position' ∧ position' ≤ range.stop ∧
      Tiles position (min position' size) (fileTerms.map FileTerm.byteRange) ∧
      (m.nextFileTerms retrieve ops config call).1.Planned size retrieve range position') ∨
    ((m.nextFileTerms retrieve ops config call).2 = none ∧ Ended size range position ∧
      ∃ position', position ≤ position' ∧
        (m.nextFileTerms retrieve ops config call).1.Planned size retrieve range position') := by
  have hb := h.finishTasks htruthful call.beforeCheck
  have hc : ((m.finishTasks retrieve call.beforeCheck).checkPrefetchBuffer retrieve ops config
    call).Planned size
      retrieve range position := hb.checkPrefetchBuffer htruthful call
  refine (hc.finishTasks htruthful call.beforeResult).takeNext htruthful fun hq => ?_
  rw [← length_eq_zero_iff,length_finishTasks,length_eq_zero_iff] at hq
  exact hb.ended_of_queue_nil hmin hmax call hq

theorem Planned.returned_of_ended (he : Ended size range position)
    (ops : FloatOps F) (calls : ℕ → CallSchedule F) (n : ℕ) :
    m.returned retrieve ops config calls n = none := by
  induction n generalizing m position calls with
  | zero =>
    rcases h.nextFileTerms htruthful hmin hmax ops (calls 0) with ⟨_,_,_,hlt,hlt',hle,-⟩ | ⟨hno,-⟩
    · rw [Ended] at he
      omega
    · exact hno
  | succ n ih =>
    rcases h.nextFileTerms htruthful hmin hmax ops (calls 0) with ⟨_,_,_,hlt,hlt',hle,-⟩ | ⟨-,-,
      position',hle,hn⟩
    · rw [Ended] at he
      omega
    · rw [returned_succ]
      exact ih hn (he.imp (fun hst => hst.trans hle) fun hs => hs.trans hle) _

theorem Planned.blocks (calls : ℕ → CallSchedule F) :
    ∃ blocks : List (List (FileTerm H)), (∀ n, m.returned retrieve ops config calls n = blocks[n]?) ∧
      Tiles position (max position (min range.stop size)) (blocks.flatten.map FileTerm.byteRange) := by
  -- The part of the file that is left gets shorter with every block.
  induction hl : min range.stop size - position using Nat.strong_induction_on generalizing m
    position calls with
  | _ left ih =>
    rcases h.nextFileTerms htruthful hmin hmax ops (calls 0) with
      ⟨fileTerms,position',hs,hin,hlt,hle,ht,hn⟩ | ⟨-,he,-⟩
    · obtain ⟨blocks,hb,hr⟩ := ih _ (by omega) hn (fun k => calls (k + 1)) rfl
      refine ⟨fileTerms :: blocks,fun n => ?_,?_⟩
      · cases n with
        | zero => exact hs
        | succ n => rw [returned_succ,getElem?_cons_succ,hb]
      · rw [flatten_cons,map_append]
        by_cases hen : position' ≤ size
        · rw [min_eq_left hen] at ht
          rw [max_eq_right (by omega)] at hr ⊢
          exact ht.append hr
        · -- The file ends inside the block, and no block comes behind it.
          have hni : blocks = [] := by
            have hno := hn.returned_of_ended htruthful hmin hmax (.inr (by omega)) ops
              (fun k => calls (k + 1)) 0
            rw [hb] at hno
            exact length_eq_zero_iff.mp (Nat.le_zero.mp (getElem?_eq_none_iff.mp hno))
          rw [hni,flatten_nil,map_nil,append_nil]
          have heq : max position (min range.stop size) = min position' size := by omega
          rwa [heq]
    · refine ⟨[],fun n => h.returned_of_ended htruthful hmin hmax he ops calls n,?_⟩
      rw [Ended] at he
      have heq : max position (min range.stop size) = position := by omega
      rw [heq]
      rfl

/-- A block that is handed out is the answer for some range. -/
theorem Planned.returned_eq (calls : ℕ → CallSchedule F) {n : ℕ} {fileTerms : List (FileTerm H)}
    (hr : m.returned retrieve ops config calls n = some fileTerms) :
    ∃ r : FileRange, r.start < r.stop ∧ (retrieve r).map Prod.snd = some fileTerms := by
  induction n generalizing m position calls with
  | zero =>
    have hb : (TermManager.checkPrefetchBuffer retrieve ops config _ (calls 0)).Planned size
      retrieve range position :=
      (h.finishTasks htruthful (calls 0).beforeCheck).checkPrefetchBuffer htruthful (calls 0)
    change (TermManager.takeNext retrieve _).2 = _ at hr
    rw [TermManager.takeNext] at hr
    split at hr
    · cases hr
    · rename_i t rest hq
      have ht := (hb.finishTasks htruthful _).tasks t (hq ▸ mem_cons_self)
      split at hr
      · rename_i hs
        exact ⟨t.range,ht.start_lt,(Option.some.inj ((ht.finish_result _).symm.trans hs)).trans hr⟩
      · cases hr
  | succ n ih =>
    rw [returned_succ] at hr
    rcases h.nextFileTerms htruthful hmin hmax ops (calls 0) with ⟨_,_,-,-,-,-,-,hn⟩ | ⟨-,-,_,-,hn⟩
    · exact ih hn _ hr
    · exact ih hn _ hr

end

end Runs

theorem planned_new (range : FileRange) (htruthful : Truthful size retrieve)
    (config : ReconstructionConfig F)
    (between : List ℕ) : (new retrieve config range between).Planned size retrieve range range.start := by
  have hs : Planned size retrieve range (TermManager.mk range range.stop range.start range.start [])
    range.start :=
    ⟨rfl,rfl,nofun,⟨le_rfl,min_le_left _ _⟩,le_rfl,.inr rfl,le_rfl⟩
  exact ((hs.prefetchBlock _).finishTasks htruthful between).prefetchBlock _

/-- The blocks that successive calls return follow each other from the start of the requested range
to its end or that of the file, and then nothing is returned, whatever the estimator says and
whenever the tasks finish. -/
theorem returned_blocks (retrieve : FileRange → Option (FileRange × List (FileTerm H))) (size : ℕ)
    (htruthful : Truthful size retrieve) (ops : FloatOps F) (config : ReconstructionConfig F)
    (hmin : 1 ≤ config.minReconstructionFetchSize)
    (hmax : config.minReconstructionFetchSize ≤ config.maxReconstructionFetchSize) (range : FileRange)
    (between : List ℕ) (calls : ℕ → CallSchedule F) : ∃ blocks : List (List (FileTerm H)),
      (∀ n, (new retrieve config range between).returned retrieve ops config calls n = blocks[n]?) ∧
      Tiles range.start (max range.start (min range.stop size)) (blocks.flatten.map FileTerm.byteRange) :=
  (planned_new range htruthful config between).blocks htruthful hmin hmax ops calls

def wholeTerms (size : ℕ) (r : FileRange) : Option (FileRange × List (FileTerm ℕ)) :=
  if r.start < size then
    some (⟨r.start,min r.stop size⟩,[⟨⟨r.start,min r.stop size⟩,⟨0,1⟩,0,0,⟨0,[⟨0,1⟩],0,[]⟩⟩])
  else none

theorem truthful_wholeTerms (size : ℕ) : Truthful size (wholeTerms size) where
  within r hlt hin := by
    rw [wholeTerms,if_pos hin]
    exact ⟨_,rfl,tiles_singleton (by omega)⟩
  past r _ hle := if_neg (by omega)

/-- A file of ten bytes that is read to its end, with tasks that finish as late as they can. -/
theorem returned_blocks_of_ten_bytes : ∃ blocks : List (List (FileTerm ℕ)),
    (∀ n, (new (wholeTerms 10) (ReconstructionConfig.mk 2 4 3 1) ⟨3,2 ^ 64 - 1⟩ []).returned
      (wholeTerms 10)
      (FloatOps.mk (· * ·) (· - ·) max (fun a b => decide (a ≤ b)) id id)
      (ReconstructionConfig.mk 2 4 3 1)
      (fun _ => CallSchedule.mk 7 [] [] []) n = blocks[n]?) ∧
    Tiles 3 10 (blocks.flatten.map FileTerm.byteRange) :=
  returned_blocks (wholeTerms 10) 10 (truthful_wholeTerms 10) _ _ (by decide) (by decide)
    ⟨3,2 ^ 64 - 1⟩ [] _

end TermManager
end XetCore.Reconstruction
