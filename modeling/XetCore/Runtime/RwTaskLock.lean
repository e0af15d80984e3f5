import XetCore.Lib.Runs

/-! # A lock whose value is made by a task

The value of the lock is computed by a spawned task, and an update chains another task behind
it. A read takes the handle of the task, leaves an error in its place and waits for the
result. If the read is cancelled there, the error stays.
-/
namespace XetCore.Runtime
open Runs List

variable {T E : Type}

/-- A task is given by the result that it has in the end. -/
inductive RwTaskLockState (T E : Type) where
  | pending (task : Except E T)
  | ready (value : T)
  | error

inductive RwTaskLockError (E : Type) where
  | calledAfterError
  | task (e : E)
deriving DecidableEq, Repr

abbrev Updater (T E : Type) := T → Except E T

/-- A read that has run to completion, with the updates that were scheduled before it. -/
structure CompletedRead (T E : Type) where
  result : Except (RwTaskLockError E) T
  scheduled : List (Updater T E)

/-- The lock with the calls on it: the reads that wait for the write lock, the read that holds it
and waits for the task that it took, and the guards that readers hold. -/
structure RwTaskLock (T E : Type) where
  state : RwTaskLockState T E
  waiting : ℕ := 0
  awaiting : Option (Except E T) := none
  guards : ℕ := 0
  scheduled : List (Updater T E) := []
  completed : List (CompletedRead T E) := []

inductive LockStep (T E : Type) where
  /-- A read takes the read lock for the first look at the state. -/
  | read
  /-- A waiting read takes the write lock. -/
  | lockForWriting
  /-- The task that a read waits for is done. -/
  | taskDone
  /-- A read is dropped while it waits for the write lock. -/
  | dropWaiting
  /-- A read is dropped while it waits for the task. -/
  | dropAwaiting
  | dropGuard
  | update (updater : Updater T E)

namespace RwTaskLock

def fromValue (value : T) : RwTaskLock T E := { state := .ready value }

def fromTask (task : Except E T) : RwTaskLock T E := { state := .pending task }

variable (l : RwTaskLock T E)

/-- A read returns, and holds a guard if it has a value. -/
def complete (result : Except (RwTaskLockError E) T) : RwTaskLock T E :=
  { l with
    guards := match result with
      | .ok _ => l.guards + 1
      | .error _ => l.guards
    completed := ⟨result,l.scheduled⟩ :: l.completed }

def read : RwTaskLock T E :=
  match l.state with
  | .ready value => l.complete (.ok value)
  | .error => l.complete (.error .calledAfterError)
  | .pending _ => { l with waiting := l.waiting + 1 }

/-- The state is replaced by the error before it is looked at. -/
def lockForWriting : RwTaskLock T E :=
  match l.state with
  | .ready value => { l with waiting := l.waiting - 1 }.complete (.ok value)
  | .error => { l with waiting := l.waiting - 1 }.complete (.error .calledAfterError)
  | .pending task => { l with state := .error, waiting := l.waiting - 1, awaiting := some task }

def taskDone : Except E T → RwTaskLock T E
  | .ok value => { l with state := .ready value, awaiting := none }.complete (.ok value)
  | .error e => { l with state := .error, awaiting := none }.complete (.error (.task e))

def update (updater : Updater T E) : RwTaskLock T E :=
  match l.state with
  | .pending task =>
    { l with state := .pending (task >>= updater), scheduled := l.scheduled ++ [updater] }
  | .ready value => { l with state := .pending (updater value), scheduled := l.scheduled ++ [updater] }
  | .error => l

/-- A step that has to wait for the lock or for a call that there is not changes nothing. -/
def step : LockStep T E → RwTaskLock T E
  | .read => if l.awaiting.isSome then l else l.read
  | .lockForWriting => if l.awaiting.isSome ∨ l.guards ≠ 0 ∨ l.waiting = 0 then l else l.lockForWriting
  | .taskDone =>
    match l.awaiting with
    | some task => l.taskDone task
    | none => l
  | .dropWaiting => { l with waiting := l.waiting - 1 }
  | .dropAwaiting => { l with awaiting := none }
  | .dropGuard => { l with guards := l.guards - 1 }
  | .update updater => if l.awaiting.isSome ∨ l.guards ≠ 0 then l else l.update updater

def Permits : LockStep T E → Prop
  | .dropAwaiting => l.awaiting = none
  | _ => True

end RwTaskLock

/-- The result of the task and of the updates behind it. -/
def valueAfter (task : Except E T) (updaters : List (Updater T E)) : Except E T :=
  updaters.foldl (· >>= ·) task

/-- The read has the value of the updates that were scheduled before it. -/
def CompletedRead.Right (task : Except E T) (r : CompletedRead T E) : Prop :=
  ∃ value, valueAfter task r.scheduled = .ok value ∧ r.result = .ok value

def LockStep.Succeeds : LockStep T E → Prop
  | .update updater => ∀ value, ∃ value', updater value = .ok value'
  | _ => True

namespace RwTaskLock

/-- What the state is, and what the read that waits for a task waits for. -/
inductive Holds (value : T) : RwTaskLockState T E → Option (Except E T) → Prop where
  | pending : Holds value (.pending (.ok value)) none
  | ready : Holds value (.ready value) none
  | awaited : Holds value .error (some (.ok value))

/-- The state holds the value of all updates, or one read waits for it. -/
structure Sound (task : Except E T) (l : RwTaskLock T E) : Prop where
  holds : ∃ value, valueAfter task l.scheduled = .ok value ∧ Holds value l.state l.awaiting
  completed : ∀ r ∈ l.completed, r.Right task

structure Poisoned (l : RwTaskLock T E) : Prop where
  state_eq : l.state = .error
  awaiting_eq : l.awaiting = none

variable {task : Except E T} {l : RwTaskLock T E}
variable {value : T} {updater : Updater T E} {i : LockStep T E} {result : Except E T}

theorem forall_completed {scheduled : List (Updater T E)} {completed : List (CompletedRead T E)}
    (hv : valueAfter task scheduled = .ok value) (hc : ∀ r ∈ completed, r.Right task) :
    ∀ r ∈ ⟨.ok value,scheduled⟩ :: completed, r.Right task :=
  forall_mem_cons.mpr ⟨⟨value,hv,rfl⟩,hc⟩

section
variable (h : l.Sound task)
include h

theorem Sound.read (hf : l.awaiting = none) : l.read.Sound task := by
  obtain ⟨⟨value,hv,hh⟩,hc⟩ := h
  obtain ⟨state,waiting,awaiting,guards,scheduled,completed⟩ := l
  cases hh with
  | pending => exact ⟨⟨value,hv,.pending⟩,hc⟩
  | ready => exact ⟨⟨value,hv,.ready⟩,forall_completed hv hc⟩
  | awaited => cases hf

theorem Sound.lockForWriting (hf : l.awaiting = none) : l.lockForWriting.Sound task := by
  obtain ⟨⟨value,hv,hh⟩,hc⟩ := h
  obtain ⟨state,waiting,awaiting,guards,scheduled,completed⟩ := l
  cases hh with
  | pending => exact ⟨⟨value,hv,.awaited⟩,hc⟩
  | ready => exact ⟨⟨value,hv,.ready⟩,forall_completed hv hc⟩
  | awaited => cases hf

theorem Sound.taskDone (hr : l.awaiting = some result) : (l.taskDone result).Sound task := by
  obtain ⟨⟨value,hv,hh⟩,hc⟩ := h
  obtain ⟨state,waiting,awaiting,guards,scheduled,completed⟩ := l
  cases hh with
  | pending => cases hr
  | ready => cases hr
  | awaited =>
    cases hr
    exact ⟨⟨value,hv,.ready⟩,forall_completed hv hc⟩

theorem Sound.update (hf : l.awaiting = none)
    (hs : ∀ value, ∃ value', updater value = .ok value') : (l.update updater).Sound task := by
  obtain ⟨⟨value,hv,hh⟩,hc⟩ := h
  obtain ⟨state,waiting,awaiting,guards,scheduled,completed⟩ := l
  obtain ⟨value',hv'⟩ := hs value
  have hpu : valueAfter task (scheduled ++ [updater]) = .ok value' := by
    rw [valueAfter,foldl_append]
    change valueAfter task scheduled >>= updater = _
    rw [hv]
    exact hv'
  have hp : Holds value' (.pending (updater value)) none := by
    rw [hv']
    exact .pending
  cases hh with
  | pending => exact ⟨⟨value',hpu,hp⟩,hc⟩
  | ready => exact ⟨⟨value',hpu,hp⟩,hc⟩
  | awaited => cases hf

theorem Sound.step (hi : l.Permits i) (hs : i.Succeeds) : (l.step i).Sound task := by
  cases i with
  | read =>
    rw [RwTaskLock.step]
    split_ifs with hf
    · exact h
    · exact h.read (by simpa using hf)
  | lockForWriting =>
    rw [RwTaskLock.step]
    split_ifs with hf
    · exact h
    · exact h.lockForWriting (by simpa using (not_or.mp hf).1)
  | taskDone =>
    rw [RwTaskLock.step]
    cases ha : l.awaiting with
    | none => exact h
    | some result => exact h.taskDone ha
  | dropWaiting => exact ⟨h.holds,h.completed⟩
  | dropAwaiting =>
    have hn : l.awaiting = none := hi
    rw [RwTaskLock.step,← hn]
    exact h
  | dropGuard => exact ⟨h.holds,h.completed⟩
  | update updater =>
    rw [RwTaskLock.step]
    split_ifs with hf
    · exact h
    · exact h.update (by simpa using (not_or.mp hf).1) hs

end

theorem Poisoned.step (h : l.Poisoned) (i : LockStep T E) : (l.step i).Poisoned := by
  obtain ⟨state,waiting,awaiting,guards,scheduled,completed⟩ := l
  obtain ⟨rfl,rfl⟩ := h
  cases i with
  | lockForWriting =>
    rw [RwTaskLock.step]
    split
    · exact ⟨rfl,rfl⟩
    · exact ⟨rfl,rfl⟩
  | update updater =>
    rw [RwTaskLock.step]
    split
    · exact ⟨rfl,rfl⟩
    · exact ⟨rfl,rfl⟩
  | read => exact ⟨rfl,rfl⟩
  | taskDone => exact ⟨rfl,rfl⟩
  | dropWaiting => exact ⟨rfl,rfl⟩
  | dropAwaiting => exact ⟨rfl,rfl⟩
  | dropGuard => exact ⟨rfl,rfl⟩

def Offers (l : RwTaskLock T E) (value : T) : Prop :=
  l.state = .ready value ∨ l.state = .pending (.ok value)

/-- A value that is in the lock or with the read that waits for it. -/
def Carries (l : RwTaskLock T E) (value : T) : Prop := l.Offers value ∨ l.awaiting = some (.ok value)

theorem carries_read (h : l.read.Carries value) : l.Carries value := by
  obtain ⟨state,waiting,awaiting,guards,scheduled,completed⟩ := l
  cases state <;> exact h

theorem carries_lockForWriting (h : l.lockForWriting.Carries value) : l.Carries value := by
  obtain ⟨state,waiting,awaiting,guards,scheduled,completed⟩ := l
  cases state with
  | pending task =>
    rcases h with (h | h) | h
    · cases h
    · cases h
    · exact .inl (.inr (congrArg _ (Option.some.inj h)))
  | ready value => exact h
  | error => exact h

theorem carries_taskDone (hr : l.awaiting = some result) (h : (l.taskDone result).Carries value) :
    l.Carries value := by
  cases result with
  | ok value' =>
    rcases h with (h | h) | h
    · cases h
      exact .inr hr
    · cases h
    · cases h
  | error e =>
    rcases h with (h | h) | h
    · cases h
    · cases h
    · cases h

theorem carries_update (hf : l.awaiting = none)
    (h : (l.update updater).Carries value) : ∃ old, l.Offers old ∧ updater old = .ok value := by
  obtain ⟨state,waiting,awaiting,guards,scheduled,completed⟩ := l
  obtain rfl : awaiting = none := hf
  cases state with
  | pending task =>
    rcases h with (h | h) | h
    · cases h
    · cases task with
      | error e => cases h
      | ok old =>
        have heq := RwTaskLockState.pending.inj h
        exact ⟨old,.inr rfl,heq⟩
    · cases h
  | ready old =>
    rcases h with (h | h) | h
    · cases h
    · exact ⟨old,.inl rfl,RwTaskLockState.pending.inj h⟩
    · cases h
  | error =>
    rcases h with (h | h) | h
    · cases h
    · cases h
    · cases h

theorem offers_update {old : T} (hold : l.Offers old) (hv : updater old = .ok value) :
    (l.update updater).Offers value := by
  obtain ⟨state,waiting,awaiting,guards,scheduled,completed⟩ := l
  rcases hold with rfl | rfl
  · exact .inr (congrArg _ hv)
  · exact .inr (congrArg _ hv)

/-- Only an update brings a new value, made from the one that it finds. -/
theorem carries_of_step (h : (l.step i).Carries value) :
    l.Carries value ∨ ∃ updater old, i = .update updater ∧ l.awaiting = none ∧ l.guards = 0 ∧
    l.Offers old ∧
      updater old = .ok value := by
  cases i with
  | read =>
    rw [RwTaskLock.step] at h
    split at h
    · exact .inl h
    · exact .inl (carries_read h)
  | lockForWriting =>
    rw [RwTaskLock.step] at h
    split at h
    · exact .inl h
    · exact .inl (carries_lockForWriting h)
  | taskDone =>
    rw [RwTaskLock.step] at h
    cases ha : l.awaiting with
    | none =>
      rw [ha] at h
      exact .inl h
    | some result =>
      rw [ha] at h
      exact .inl (carries_taskDone ha h)
  | dropWaiting => exact .inl h
  | dropAwaiting =>
    rcases h with h | h
    · exact .inl (.inl h)
    · cases h
  | dropGuard => exact .inl h
  | update updater =>
    rw [RwTaskLock.step] at h
    split_ifs at h with hf
    · exact .inl h
    · obtain ⟨ha,hg⟩ := not_or.mp hf
      have hn : l.awaiting = none := by simpa using ha
      obtain ⟨old,hold,hv⟩ := carries_update hn h
      exact .inr ⟨updater,old,rfl,hn,not_not.mp hg,hold,hv⟩

theorem Sound.poisoned (h : l.Sound task) (hi : ¬ l.Permits i) : (l.step i).Poisoned := by
  obtain ⟨⟨value,-,hh⟩,-⟩ := h
  cases i with
  | dropAwaiting =>
    obtain ⟨state,waiting,awaiting,guards,scheduled,completed⟩ := l
    cases hh with
    | pending => exact absurd rfl hi
    | ready => exact absurd rfl hi
    | awaited => exact ⟨rfl,rfl⟩
  | read => exact absurd trivial hi
  | lockForWriting => exact absurd trivial hi
  | taskDone => exact absurd trivial hi
  | dropWaiting => exact absurd trivial hi
  | dropGuard => exact absurd trivial hi
  | update updater => exact absurd trivial hi

theorem Poisoned.read_fails (h : l.Poisoned) (task : Except E T) :
    ∃ r ∈ (l.step .read).completed, ¬ r.Right task := by
  refine ⟨⟨.error .calledAfterError,l.scheduled⟩,?_,?_⟩
  · rw [RwTaskLock.step,h.awaiting_eq,RwTaskLock.read,h.state_eq]
    exact mem_cons_self
  · rintro ⟨value,-,hr⟩
    cases hr

/-- After every run, the reads that have completed and those that complete while no read is dropped
any more have the value of the updates before them if and only if no read was dropped while it
waited for the task. -/
theorem reads_right_iff (value : T) (steps : List (LockStep T E)) (hsteps : ∀ i ∈ steps, i.Succeeds) :
    (∀ more : List (LockStep T E), (∀ i ∈ more, i.Succeeds) →
      Permitted step Permits (run step (fromTask (.ok value)) steps) more →
      ∀ r ∈ (run step (fromTask (.ok value)) (steps ++ more)).completed, r.Right (.ok value)) ↔
    Permitted step Permits (fromTask (.ok value)) steps := by
  have hstart : (fromTask (.ok value) : RwTaskLock T E).Sound (.ok value) := ⟨⟨value,rfl,.pending⟩,nofun⟩
  have hkeep : ∀ (l : RwTaskLock T E) i, l.Permits i ∧ i.Succeeds → l.Sound (.ok value) →
    (l.step i).Sound (.ok value) :=
    fun l i hi h => h.step hi.1 hi.2
  constructor
  · intro hright
    by_contra hnot
    have hpoisoned := run_broken hkeep (fun l i hi h => h.poisoned hi) (fun l i h => h.step i)
      hstart hsteps hnot
    obtain ⟨r,hr,hwrong⟩ := hpoisoned.read_fails (.ok value)
    refine hwrong (hright [.read] (forall_mem_singleton.mpr trivial) ⟨trivial,trivial⟩ r ?_)
    rw [run,foldl_append]
    exact hr
  · intro hpermitted more hmore hrest r hr
    have hsound := run_invariant hkeep hstart (hpermitted.and_forall hsteps)
    rw [run,foldl_append] at hr
    exact (run_invariant hkeep hsound (hrest.and_forall hmore)).completed r hr

/-- The second read waits for the task to its end, with an update between it and the first read,
which is dropped before. -/
theorem reads_right_with_update : Permitted step Permits (fromTask (.ok 5) : RwTaskLock ℕ Unit)
      [.read,.dropWaiting,.update (fun n => .ok (n + 1)),.read,.lockForWriting,.taskDone] ∧
    ∀ more : List (LockStep ℕ Unit), (∀ i ∈ more, i.Succeeds) →
      Permitted step Permits (run step (fromTask (.ok 5))
        [.read,.dropWaiting,.update (fun n => .ok (n + 1)),.read,.lockForWriting,.taskDone]) more →
      ∀ r ∈ (run step (fromTask (.ok 5))
        ([.read,.dropWaiting,.update (fun n => .ok (n + 1)),.read,.lockForWriting,
        .taskDone] ++ more)).completed, r.Right (.ok 5) := by
  have hsteps : ∀ i ∈ [.read,.dropWaiting,.update (fun n => .ok (n + 1)),.read,.lockForWriting,.taskDone],
      LockStep.Succeeds (E := Unit) i := by
    simp [LockStep.Succeeds]
  have hpermitted : Permitted step Permits (fromTask (.ok 5) : RwTaskLock ℕ Unit)
      [.read,.dropWaiting,.update (fun n => .ok (n + 1)),.read,.lockForWriting,.taskDone] :=
    ⟨trivial,trivial,trivial,trivial,trivial,trivial,trivial⟩
  exact ⟨hpermitted,(reads_right_iff 5 _ hsteps).mpr hpermitted⟩

/-- A read is dropped while it waits for the task, and the next one fails although the task
succeeds. -/
theorem read_after_cancelled_read : ∃ r ∈ (run step (fromTask (.ok 5) : RwTaskLock ℕ Unit)
      [.read,.lockForWriting,.dropAwaiting,.read]).completed,
    r.result = .error .calledAfterError ∧ ¬ r.Right (.ok 5) := by
  refine ⟨⟨.error .calledAfterError,[]⟩,mem_cons_self,rfl,?_⟩
  rintro ⟨value,-,hresult⟩
  cases hresult

end RwTaskLock
end XetCore.Runtime
