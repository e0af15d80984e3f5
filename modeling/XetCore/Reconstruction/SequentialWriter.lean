import XetCore.Lib.Bytes
import XetCore.Lib.Fuel

/-! # Writing the data of a file in order

The writer thread takes the data items from a channel in their order. One loop writes an
item after the other, the other one hands several items to the output at once, as many as
are ready, and cuts off what was taken.
-/
namespace XetCore.Reconstruction

abbrev writevMaxSlice : ℕ := 24

inductive SequentialRetrievalItem where
  | data (bytes : Bytes)
  | finish
deriving DecidableEq, Repr

inductive WriterError where
  | writeZero
deriving DecidableEq, Repr

/-- For each poll that does not wait, whether the next item has been sent and whether its data is
ready. -/
structure Timing where
  sent : ℕ → Bool
  ready : ℕ → Bool

/-- An output. A call may be interrupted, but not forever, and otherwise takes some of the bytes
that it is given. -/
structure Output where
  interrupts : ℕ → Bool
  accepts : ℕ → ℕ → ℕ
  accepts_le : ∀ call n, accepts call n ≤ n
  accepts_pos : ∀ call n, 0 < n → 0 < accepts call n
  fair : ∀ call, ∃ later, call ≤ later ∧ interrupts later = false

structure SyncWriterThread where
  rx : List SequentialRetrievalItem
  pending : Option SequentialRetrievalItem := none
  finished : Bool := false
  /-- The polls so far, and the calls of the output. -/
  polls : ℕ := 0
  calls : ℕ := 0
  output : Bytes := []
  bytesWritten : ℕ := 0
  releasedPermits : ℕ := 0

namespace SyncWriterThread
variable (timing : Timing) (out : Output)

/-- Takes the next item from the channel if there is none from before. -/
def receive (t : SyncWriterThread) (shouldBlock : Bool) : SyncWriterThread :=
  match t.pending with
  | some _ => t
  | none => if shouldBlock || timing.sent t.polls then { t with pending := t.rx.head?, rx :=
      t.rx.tail } else t

/-- The data of the item, or nothing if it has to be waited for or nothing comes any more. -/
def takePending (t : SyncWriterThread) (shouldBlock : Bool) : Option Bytes × SyncWriterThread :=
  match t.pending with
  | some (.data bytes) =>
    if shouldBlock || timing.ready t.polls then (some bytes,{ t with pending := none }) else (none,t)
  | some .finish => (none,{ t with pending := none, finished := true })
  | none => (none,t)

def nextWrite (t : SyncWriterThread) (shouldBlock : Bool) : Option Bytes × SyncWriterThread :=
  let next := (t.receive timing shouldBlock).takePending timing shouldBlock
  (next.1,{ next.2 with polls := if shouldBlock then t.polls else t.polls + 1 })

/-- One call of the output, which is interrupted or takes a number of bytes. -/
def write (t : SyncWriterThread) (bytes : Bytes) : Option ℕ × SyncWriterThread :=
  if out.interrupts t.calls then (none,{ t with calls := t.calls + 1 })
  else
    (some (out.accepts t.calls bytes.length),
      { t with calls := t.calls + 1, output :=
        t.output ++ bytes.take (out.accepts t.calls bytes.length) })

def writeAll : ℕ → SyncWriterThread → Bytes → Option (Except WriterError SyncWriterThread)
  | 0, _, _ => none
  | fuel + 1, t, bytes =>
    if bytes = [] then some (.ok t)
    else
      match t.write out bytes with
      | (none,t) => writeAll fuel t bytes
      | (some 0,_) => some (.error .writeZero)
      | (some written,t) => writeAll fuel t (bytes.drop written)

def run : ℕ → SyncWriterThread → Option (Except WriterError SyncWriterThread)
  | 0, _ => none
  | fuel + 1, t =>
    match t.nextWrite timing true with
    | (none,t) => some (.ok t)
    | (some data,t) => (writeAll out fuel t data).bind fun
      | .error e => some (.error e)
      | .ok t =>
        let t := { t with bytesWritten := t.bytesWritten + data.length, releasedPermits :=
          t.releasedPermits + 1 }
        if t.finished then some (.ok t) else run fuel t

def pollMore : ℕ → SyncWriterThread → List Bytes → SyncWriterThread × List Bytes
  | 0, t, pendingWrites => (t,pendingWrites)
  | fuel + 1, t, pendingWrites =>
    match t.nextWrite timing false with
    | (some data,t) => pollMore fuel t (pendingWrites ++ [data])
    | (none,t) => (t,pendingWrites)

/-- Waits for an item if there are no pending writes, and nothing is left to write if none comes. -/
def gather (t : SyncWriterThread) (pendingWrites : List Bytes) :
    SyncWriterThread × Option (List Bytes) :=
  if pendingWrites = [] then
    match t.nextWrite timing true with
    | (none,t) => (t,none)
    | (some data,t) => (pollMore timing (t.rx.length + 2) t [data]).map id some
  else (pollMore timing (t.rx.length + 2) t pendingWrites).map id some

/-- Removes what was written, and cuts the item that was written in part. -/
def popWritten : ℕ → List Bytes → List Bytes
  | _, [] => []
  | remaining, front :: rest =>
    if remaining = 0 then front :: rest
    else if front.length ≤ remaining then popWritten (remaining - front.length) rest
    else front.drop remaining :: rest

def writeVectored (t : SyncWriterThread) (pendingWrites : List Bytes) :
    Except WriterError (SyncWriterThread × List Bytes) :=
  match t.write out (pendingWrites.take writevMaxSlice).flatten with
  | (none,t) => .ok (t,pendingWrites)
  | (some written,t) =>
    if written = 0 ∧ pendingWrites.take writevMaxSlice ≠ [] then .error .writeZero
    else
      let rest := popWritten written pendingWrites
      .ok ({ t with
        bytesWritten := t.bytesWritten + written
        releasedPermits := t.releasedPermits + (pendingWrites.length - rest.length) },rest)

def runVectorized : ℕ → SyncWriterThread → List Bytes → Option (Except WriterError SyncWriterThread)
  | 0, _, _ => none
  | fuel + 1, t, pendingWrites =>
    if t.finished = true ∧ pendingWrites = [] then some (.ok t)
    else
      match t.gather timing pendingWrites with
      | (t,none) => some (.ok t)
      | (t,some pendingWrites) =>
        match t.writeVectored out pendingWrites with
        | .error e => some (.error e)
        | .ok (t,pendingWrites) => runVectorized fuel t pendingWrites

/-- The thread whose channel holds these items and then the end. -/
def new (items : List Bytes) : SyncWriterThread := { rx := items.map .data ++ [.finish] }

variable {ds : List Bytes} {t : SyncWriterThread}

inductive Remaining (t : SyncWriterThread) : List Bytes → Prop where
  | waiting {ds : List Bytes} (running : t.finished = false)
      (items : t.pending.toList ++ t.rx = ds.map .data ++ [.finish]) : Remaining t ds
  | done (finished : t.finished = true) (pending : t.pending = none) (rx : t.rx = []) : Remaining t []

def account (t : SyncWriterThread) : Bytes × ℕ × ℕ × ℕ :=
  (t.output,t.bytesWritten,t.releasedPermits,t.calls)

theorem receive_account (shouldBlock : Bool) : (t.receive timing shouldBlock).account = t.account := by
  unfold receive
  split
  · rfl
  · split <;> rfl

theorem Remaining.receive (h : Remaining t ds) (shouldBlock : Bool) :
    Remaining (t.receive timing shouldBlock) ds := by
  unfold SyncWriterThread.receive
  split
  · exact h
  · rename_i hn
    split
    · cases h with
      | waiting running items =>
        refine .waiting running ?_
        rw [hn] at items
        cases hrx : t.rx with
        | nil => simp [hrx] at items
        | cons item rx => simpa [hrx] using items
      | done finished pending rx => exact .done finished (by simp [rx]) (by simp [rx])
    · exact h

theorem Remaining.pending_receive (h : Remaining t ds) (hr : t.finished = false) :
    (t.receive timing true).pending =
      (ds.map .data ++ [.finish] : List SequentialRetrievalItem).head? := by
  cases h with
  | waiting _ items =>
    rw [← items]
    unfold SyncWriterThread.receive
    cases hp : t.pending <;> simp [hp]
  | done finished => simp [hr] at finished

/-- The data of a poll is the next item; otherwise all items are still to come. -/
structure Polled (t : SyncWriterThread) (ds : List Bytes) (next : Option Bytes × SyncWriterThread) :
    Prop where
  account : next.2.account = t.account
  some : ∀ data, next.1 = some data → ∃ rest, ds = data :: rest ∧ Remaining next.2 rest
  none : next.1 = none → Remaining next.2 ds

section
variable (h : Remaining t ds)
include h

theorem Remaining.takePending (shouldBlock : Bool) : Polled t ds (t.takePending timing shouldBlock) := by
  unfold SyncWriterThread.takePending
  split
  · rename_i bytes hp
    split
    · refine ⟨rfl,?_,nofun⟩
      intro data hd
      cases h with
      | waiting running items =>
        cases ds with
        | nil => simp [hp] at items
        | cons d rest =>
          rw [hp] at items
          obtain ⟨rfl,hrx⟩ : bytes = d ∧ t.rx = rest.map .data ++ [.finish] := by simpa using items
          exact ⟨rest,by simpa using hd,.waiting running (by simpa using hrx)⟩
      | done _ pending => simp [pending] at hp
    · exact ⟨rfl,nofun,fun _ => h⟩
  · rename_i hp
    refine ⟨rfl,nofun,fun _ => ?_⟩
    cases h with
    | waiting running items =>
      cases ds with
      | nil => exact .done rfl rfl (by simpa [hp] using items)
      | cons d rest => simp [hp] at items
    | done _ pending => simp [pending] at hp
  · exact ⟨rfl,nofun,fun _ => h⟩

theorem Remaining.polls (polls : ℕ) : Remaining { t with polls := polls } ds := by
  cases h with
  | waiting running items => exact .waiting running items
  | done finished pending rx => exact .done finished pending rx

theorem Remaining.nextWrite (shouldBlock : Bool) : Polled t ds (t.nextWrite timing shouldBlock) := by
  have hn := (h.receive timing shouldBlock).takePending timing shouldBlock
  refine ⟨hn.account.trans (receive_account timing shouldBlock),?_,?_⟩
  · intro data hd
    obtain ⟨rest,hds,hr⟩ := hn.some data hd
    exact ⟨rest,hds,hr.polls _⟩
  · intro hno
    exact (hn.none hno).polls _

theorem Remaining.nextWrite_block (hr : t.finished = false) : (t.nextWrite timing true).1 = ds.head? := by
  have hp := h.pending_receive timing hr
  cases ds with
  | nil =>
    simp [SyncWriterThread.nextWrite,SyncWriterThread.takePending,hp]
  | cons d rest =>
    simp [SyncWriterThread.nextWrite,SyncWriterThread.takePending,hp]

end

/-! ### Gathering the pending writes -/

theorem pollMore_spec (fuel : ℕ) (h : Remaining t ds) (pendingWrites : List Bytes) :
    ∃ more rest, (pollMore timing fuel t pendingWrites).2 = pendingWrites ++ more ∧ ds = more ++ rest ∧
      Remaining (pollMore timing fuel t pendingWrites).1 rest ∧
      (pollMore timing fuel t pendingWrites).1.account = t.account := by
  induction fuel generalizing t ds pendingWrites with
  | zero => exact ⟨[],ds,by simp [pollMore],rfl,h,rfl⟩
  | succ fuel ih =>
    have hp := h.nextWrite timing false
    unfold pollMore
    cases hn : t.nextWrite timing false with
    | mk data t' =>
      rw [hn] at hp
      cases data with
      | none => exact ⟨[],ds,by simp,rfl,hp.none rfl,hp.account⟩
      | some data =>
        obtain ⟨rest,rfl,hr⟩ := hp.some data rfl
        obtain ⟨more,rest',hm,rfl,hre,ha⟩ := ih hr (pendingWrites ++ [data])
        exact ⟨data :: more,rest',by simp [hm],rfl,hre,ha.trans hp.account⟩

/-- The pending writes and the items to come stay the same. If there is nothing to write, everything
was written. -/
theorem gather_spec (h : Remaining t ds) {pendingWrites : List Bytes}
    (hm : ¬(t.finished = true ∧ pendingWrites = [])) :
    (t.gather timing pendingWrites).1.account = t.account ∧ match (t.gather timing pendingWrites).2 with
      | none => pendingWrites ++ ds = []
      | some writes => writes ≠ [] ∧
          ∃ rest, writes ++ rest = pendingWrites ++ ds ∧
          Remaining (t.gather timing pendingWrites).1 rest := by
  unfold gather
  split_ifs with he
  · have hru : t.finished = false := by simpa [he] using hm
    have hp := h.nextWrite timing true
    have hb := h.nextWrite_block timing hru
    cases hn : t.nextWrite timing true with
    | mk data t' =>
      rw [hn] at hp hb
      cases data with
      | none => exact ⟨hp.account,by simp [he,List.head?_eq_none_iff.mp hb.symm]⟩
      | some data =>
        obtain ⟨rest,rfl,hr⟩ := hp.some data rfl
        obtain ⟨more,rest',hw,rfl,hre,ha⟩ := pollMore_spec timing (t'.rx.length + 2) hr [data]
        dsimp only at hw hre ha ⊢
        generalize pollMore timing (t'.rx.length + 2) t' [data] = polled at hw hre ha ⊢
        exact ⟨ha.trans hp.account,by simp [hw],rest',by simp [hw,he],hre⟩
  · obtain ⟨more,rest,hw,rfl,hre,ha⟩ := pollMore_spec timing (t.rx.length + 2) h pendingWrites
    generalize pollMore timing (t.rx.length + 2) t pendingWrites = polled at hw hre ha ⊢
    exact ⟨ha,by simp [hw,he],rest,by simp [hw],hre⟩

end SyncWriterThread

end XetCore.Reconstruction
