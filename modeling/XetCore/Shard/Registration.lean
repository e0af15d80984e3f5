import XetCore.Runtime.RwTaskLock
import XetCore.Shard.BookkeeperPlaces

/-! # Concurrent registrations

A call registers its shards one after the other. For each it reads the bookkeeper, goes on if the
hash is registered, and otherwise chains an update behind the pending ones. Other calls run
between the read and the update.
-/
namespace XetCore.Shard
open Serialization Runs XetCore.Runtime
open Merkle (DataHash)

/-- Where a call of `registerShards` stands, with the shards that are left. -/
inductive RegisterCall where
  /-- Before the read for the first of them, or before the last read of the call. -/
  | next (rest : List MDBShardFile)
  /-- The read waits for the write lock. -/
  | waiting (rest : List MDBShardFile)
  /-- The read waits for the pending updates. -/
  | awaiting (rest : List MDBShardFile)
  /-- The shard was not registered when it was looked up. -/
  | checked (s : MDBShardFile) (rest : List MDBShardFile)
  | returned
  | failed
deriving DecidableEq, Repr

inductive RegisterStep where
  | call (newShards : List MDBShardFile)
  | read (c : ℕ)
  | lockForWriting (c : ℕ)
  | taskDone (c : ℕ)
  /-- The update is scheduled; the chunk hashes are those that it reads when it runs. -/
  | update (c : ℕ) (truncatedHashes : Result (List (ℕ × ℕ × ℕ)))
  | cancel (c : ℕ)

structure Registrations where
  bookkeeper : RwTaskLock ShardBookkeeper CoreError := .fromValue .new
  calls : List RegisterCall := []

/-- What a call does with the bookkeeper that it has read. -/
def RegisterCall.afterRead (b : ShardBookkeeper) : List MDBShardFile → RegisterCall
  | [] => .returned
  | s :: rest => if b.shardLookupByShardHash.contains s.shardHash then .next rest else .checked s rest

namespace Registrations
variable (chunkIndexTableMaxSize : ℕ) (r : Registrations)

def advance (c : ℕ) (call : RegisterCall) (steps : List (LockStep ShardBookkeeper CoreError)) :
    Registrations where
  bookkeeper := run RwTaskLock.step r.bookkeeper steps
  calls := r.calls.set c call

def registering (s : MDBShardFile) (truncatedHashes : Result (List (ℕ × ℕ × ℕ))) :
    Updater ShardBookkeeper CoreError :=
  fun b => .ok (b.register chunkIndexTableMaxSize s truncatedHashes)

/-- A step of a call that is not at this point, or that has to wait for the lock, changes nothing.
-/
def step : RegisterStep → Registrations
  | .call newShards =>
    { r with calls := r.calls ++ [if newShards.isEmpty then .returned else .next newShards] }
  | .read c =>
    match r.calls[c]? with
    | some (.next rest) =>
      if r.bookkeeper.awaiting.isSome then r
      else match r.bookkeeper.state with
        | .ready b => r.advance c (.afterRead b rest) [.read,.dropGuard]
        | .error => r.advance c .failed [.read]
        | .pending _ => r.advance c (.waiting rest) [.read]
    | _ => r
  | .lockForWriting c =>
    match r.calls[c]? with
    | some (.waiting rest) =>
      if r.bookkeeper.awaiting.isSome ∨ r.bookkeeper.guards ≠ 0 then r
      else match r.bookkeeper.state with
        | .ready b => r.advance c (.afterRead b rest) [.lockForWriting,.dropGuard]
        | .error => r.advance c .failed [.lockForWriting]
        | .pending _ => r.advance c (.awaiting rest) [.lockForWriting]
    | _ => r
  | .taskDone c =>
    match r.calls[c]?, r.bookkeeper.awaiting with
    | some (.awaiting rest), some (.ok b) => r.advance c (.afterRead b rest) [.taskDone,.dropGuard]
    | some (.awaiting _), some (.error _) => r.advance c .failed [.taskDone]
    | _, _ => r
  | .update c truncatedHashes =>
    match r.calls[c]? with
    | some (.checked s rest) =>
      if r.bookkeeper.awaiting.isSome ∨ r.bookkeeper.guards ≠ 0 then r
      else match r.bookkeeper.state with
        | .error => r.advance c .failed []
        | _ => r.advance c (.next rest) [.update (registering chunkIndexTableMaxSize s truncatedHashes)]
    | _ => r
  | .cancel c =>
    match r.calls[c]? with
    | some (.waiting _) => r.advance c .failed [.dropWaiting]
    | some (.awaiting _) => r.advance c .failed [.dropAwaiting]
    | some (.next _) => r.advance c .failed []
    | some (.checked _ _) => r.advance c .failed []
    | _ => r

/-- The shard that a step registers and the bookkeeper that the update finds. -/
inductive Updates : RegisterStep → MDBShardFile → Result (List (ℕ × ℕ × ℕ)) → ShardBookkeeper → Prop where
  | mk {c : ℕ} {s : MDBShardFile} {rest : List MDBShardFile} {truncatedHashes : Result (List (ℕ × ℕ × ℕ))}
      {b : ShardBookkeeper} (hcall : r.calls[c]? = some (.checked s rest))
        (hfree : r.bookkeeper.awaiting = none)
      (hguards : r.bookkeeper.guards = 0) (hb : r.bookkeeper.Offers b) :
      Updates (.update c truncatedHashes) s truncatedHashes b

/-- The bookkeeper that an update finds does not have the shard, and the chunk hashes are read. -/
def RegistersNew (i : RegisterStep) : Prop :=
  ∀ s truncatedHashes b, r.Updates i s truncatedHashes b →
    truncatedHashes.isOk = true ∧ s.shardHash ∉ b.shards.map fun t => t.shardHash

def Consistent : Prop := ∀ b, r.bookkeeper.Carries b → b.Consistent

variable {chunkIndexTableMaxSize r}
variable {steps : List (LockStep ShardBookkeeper CoreError)} {b : ShardBookkeeper} {i : RegisterStep}

def Reads : LockStep ShardBookkeeper CoreError → Prop
  | .update _ => False
  | _ => True

theorem carries_of_run {l : RwTaskLock ShardBookkeeper CoreError}
    (hs : ∀ i ∈ steps, Reads i) (h : (run RwTaskLock.step l steps).Carries b) : l.Carries b := by
  induction steps generalizing l with
  | nil => exact h
  | cons i steps ih =>
    obtain ⟨hi,hr⟩ := List.forall_mem_cons.mp hs
    rcases RwTaskLock.carries_of_step (ih hr h) with h | ⟨updater,old,rfl,-⟩
    · exact h
    · exact hi.elim

theorem carries_of_step {b' : ShardBookkeeper}
    (h : (r.step chunkIndexTableMaxSize i).bookkeeper.Carries b') : r.bookkeeper.Carries b' ∨
      ∃ s truncatedHashes b, r.Updates i s truncatedHashes b ∧
        b' = b.register chunkIndexTableMaxSize s truncatedHashes := by
  cases i with
  | call newShards => exact .inl h
  | read c =>
    left
    rw [step] at h
    split at h
    · split at h
      · exact h
      · split at h <;> exact carries_of_run (by simp [Reads]) h
    · exact h
  | lockForWriting c =>
    left
    rw [step] at h
    split at h
    · split at h
      · exact h
      · split at h <;> exact carries_of_run (by simp [Reads]) h
    · exact h
  | taskDone c =>
    left
    rw [step] at h
    split at h
    · exact carries_of_run (by simp [Reads]) h
    · exact carries_of_run (by simp [Reads]) h
    · exact h
  | cancel c =>
    left
    rw [step] at h
    split at h
    · exact carries_of_run (by simp [Reads]) h
    · exact carries_of_run (by simp [Reads]) h
    · exact carries_of_run (by simp) h
    · exact carries_of_run (by simp) h
    · exact h
  | update c truncatedHashes =>
    rw [step] at h
    split at h
    · rename_i s rest hcall
      split at h
      · exact .inl h
      · split at h
        · exact .inl (carries_of_run (by simp) h)
        · have hl : (r.bookkeeper.step
            (.update (registering chunkIndexTableMaxSize s truncatedHashes))).Carries b' := h
          rcases RwTaskLock.carries_of_step hl with h | ⟨updater,old,hu,hfree,hguards,hold,hv⟩
          · exact .inl h
          · cases hu
            exact .inr ⟨s,truncatedHashes,old,.mk hcall hfree hguards hold,(Except.ok.inj hv).symm⟩
    · exact .inl h

theorem carries_update {s : MDBShardFile} {truncatedHashes : Result (List (ℕ × ℕ × ℕ))}
    (h : r.Updates i s truncatedHashes b) :
    (r.step chunkIndexTableMaxSize i).bookkeeper.Carries
      (b.register chunkIndexTableMaxSize s truncatedHashes) := by
  cases h with
  | @mk c s rest truncatedHashes b hcall hfree hguards hb =>
    have hl : (r.bookkeeper.step (.update (registering chunkIndexTableMaxSize s truncatedHashes))).Carries
        (b.register chunkIndexTableMaxSize s truncatedHashes) := by
      rw [RwTaskLock.step,if_neg (by simp [hfree,hguards])]
      exact .inl (RwTaskLock.offers_update hb rfl)
    rw [step,hcall]
    dsimp only
    rw [if_neg (by simp [hfree,hguards])]
    rcases hb with hb | hb
    · rw [hb]
      exact hl
    · rw [hb]
      exact hl

theorem consistent_step_iff (hr : r.Consistent) (i : RegisterStep) :
    (r.step chunkIndexTableMaxSize i).Consistent ↔ r.RegistersNew i := by
  have hold : ∀ {s truncatedHashes b}, r.Updates i s truncatedHashes b → b.Consistent := by
    intro s truncatedHashes b hu
    cases hu with
    | mk hcall hfree hguards hb => exact hr b (.inl hb)
  constructor
  · intro h s truncatedHashes b hu
    exact (ShardBookkeeper.consistent_register_iff (hold hu)).mp (h _ (carries_update hu))
  · intro hn b' hb'
    rcases carries_of_step hb' with hb' | ⟨s,truncatedHashes,b,hu,rfl⟩
    · exact hr b' hb'
    · exact (ShardBookkeeper.consistent_register_iff (hold hu)).mpr (hn s truncatedHashes b hu)

theorem consistent_start : ({} : Registrations).Consistent := by
  intro b hb
  rcases hb with (hb | hb) | hb
  · cases hb
    exact ShardBookkeeper.consistent_new
  · cases hb
  · cases hb

/-- Every bookkeeper of a run is consistent if and only if every update registers a new shard whose
chunk hashes are read. -/
theorem registrations_consistent_iff (chunkIndexTableMaxSize : ℕ) (steps : List RegisterStep) :
    Permitted (step chunkIndexTableMaxSize)
      (fun r i => (r.step chunkIndexTableMaxSize i).Consistent) {} steps ↔
      Permitted (step chunkIndexTableMaxSize) RegistersNew {} steps :=
  permitted_iff Consistent (fun _ i hr => consistent_step_iff hr i)
    (fun _ i hi hr => (consistent_step_iff hr i).mpr hi) consistent_start steps

/-- Two calls look a shard up before one of them has registered it. -/
theorem shard_registered_twice :
    ∃ b, (run (step 0) {} [.call [⟨⟨1,0,0,0⟩,{}⟩],.call [⟨⟨1,0,0,0⟩,{}⟩],.read 0,
      .read 1,.update 0 (.ok []),.update 1 (.ok [])]).bookkeeper.Carries b ∧
    (b.shards.map fun s => s.shardHash) = [⟨1,0,0,0⟩,⟨1,0,0,0⟩] ∧ ¬ b.Consistent := by
  have htwice : (((ShardBookkeeper.new.register 0 ⟨⟨1,0,0,0⟩,{}⟩ (.ok [])).register 0 ⟨⟨1,0,0,0⟩,{}⟩
      (.ok [])).shards.map fun s => s.shardHash) = [⟨1,0,0,0⟩,⟨1,0,0,0⟩] := by decide +kernel
  refine ⟨_,.inl (.inr rfl),htwice,fun hb => ?_⟩
  have hnodup := hb.nodup
  exact absurd hnodup (by decide)

end Registrations
end XetCore.Shard
