import XetCore.Lib.Runs

/-! # Calls with one key that share their work

The first caller registers a call and spawns the task that owns it; its guard takes the
registration away when the caller returns or is dropped. The task runs on without it.
-/
namespace XetCore.Runtime
open Runs List
variable {R : Type}

inductive CallerState (R : Type) where
  | waiting
  | returned (result : R)
  | dropped

/-- A caller with its call. `before` is what had become of the tasks when it came. -/
structure Caller (R : Type) where
  call : ℕ
  owned : Bool
  before : List (Option R)
  state : CallerState R := .waiting

/-- The calls of one key, each with the result of its task once the task has ended. -/
structure Group (R : Type) where
  registered : Option ℕ := none
  calls : List (Option R) := []
  callers : List (Caller R) := []

inductive GroupStep (R : Type) where
  | work
  /-- The task of a call returns or panics. -/
  | complete (call : ℕ) (result : R)
  /-- A caller whose call is complete is polled. -/
  | poll (caller : ℕ)
  | drop (caller : ℕ)

namespace Group
variable (g : Group R)

/-- The result of the call, if its task has ended. -/
def result? (call : ℕ) : Option R := g.calls[call]?.join

def work : Group R :=
  match g.registered with
  | some call =>
    let state := match g.result? call with
      | some result => .returned result
      | none => .waiting
    { g with callers := g.callers ++ [⟨call,false,g.calls,state⟩] }
  | none =>
    { registered := some g.calls.length
      calls := g.calls ++ [none]
      callers := g.callers ++ [⟨g.calls.length,true,g.calls,.waiting⟩] }

/-- A waiting caller ends; its guard removes the call if it is the owner. -/
def leave (i : ℕ) (next : Caller R → Option (CallerState R)) : Group R :=
  match g.callers[i]? with
  | none => g
  | some c =>
    match c.state, next c with
    | .waiting, some state =>
      { g with
        registered := if c.owned then none else g.registered
        callers := g.callers.set i { c with state := state } }
    | _, _ => g

def step : GroupStep R → Group R
  | .work => g.work
  | .complete call result =>
    match g.calls[call]? with
    | some none => { g with calls := g.calls.set call (some result) }
    | _ => g
  | .poll i => g.leave i fun c => (g.result? c.call).map .returned
  | .drop i => g.leave i fun _ => some .dropped

/-- One task runs at most, and what was returned is the result of a task that had not ended before.
-/
structure Sound (g : Group R) : Prop where
  exclusive : g.calls.countP Option.isNone ≤ 1
  fresh : ∀ c ∈ g.callers, ∀ r, c.state = .returned r → g.result? c.call = some r ∧
    c.before[c.call]?.join = none

/-- A caller comes when the task of the registered call is running, or when none is registered and
none runs. -/
def Permits : GroupStep R → Prop
  | .work =>
    match g.registered with
    | some call => g.result? call = none
    | none => none ∉ g.calls
  | _ => True

structure Kept (g : Group R) : Prop where
  exclusive : g.calls.countP Option.isNone ≤ 1
  before : ∀ c ∈ g.callers, c.before[c.call]?.join = none
  returned : ∀ c ∈ g.callers, ∀ r, c.state = .returned r → g.result? c.call = some r

variable {g} {i : ℕ}

theorem Kept.leave (h : g.Kept) {next : Caller R → Option (CallerState R)}
    (hn : ∀ c r, next c = some (.returned r) → g.result? c.call = some r) : (g.leave i next).Kept := by
  unfold Group.leave
  split
  · exact h
  rename_i c hc
  split
  · rename_i state hw hs
    refine ⟨h.exclusive,fun d hd => ?_,fun d hd r hr => ?_⟩
    all_goals obtain hd | rfl := mem_or_eq_of_mem_set hd
    · exact h.before d hd
    · exact h.before c (mem_of_getElem? hc)
    · exact h.returned d hd r hr
    · exact hn c r (hs.trans (congrArg some hr))
  · exact h

theorem Kept.step (g : Group R) (s : GroupStep R) (hp : g.Permits s) (h : g.Kept) : (g.step s).Kept := by
  cases s with
  | work =>
    cases hc : g.registered with
    | some call =>
      simp only [Permits,hc] at hp
      simp only [Group.step,work,hc,hp]
      exact ⟨h.exclusive,forall_mem_append.mpr ⟨h.before,forall_mem_singleton.mpr hp⟩,
        forall_mem_append.mpr ⟨h.returned,by simp⟩⟩
    | none =>
      simp only [Permits,hc] at hp
      simp only [Group.step,work,hc]
      refine ⟨?_,forall_mem_append.mpr ⟨h.before,by simp⟩,
        forall_mem_append.mpr ⟨fun c hc r hr => ?_,by simp⟩⟩
      · have hz : g.calls.countP Option.isNone = 0 := countP_eq_zero.mpr fun o ho hn =>
          hp (Option.isNone_iff_eq_none.mp hn ▸ ho)
        simp [hz]
      · have hs := h.returned c hc r hr
        rw [result?,Option.join_eq_some_iff] at hs ⊢
        exact (getElem?_append_left (List.getElem?_eq_some_iff.mp hs).1).trans hs
  | complete call result =>
    simp only [Group.step]
    split
    · rename_i hc
      refine ⟨?_,h.before,fun c hm r hr => ?_⟩
      · obtain ⟨hl,-⟩ := List.getElem?_eq_some_iff.mp hc
        rw [countP_set hl]
        exact (Nat.sub_le _ _).trans h.exclusive
      · have hs := h.returned c hm r hr
        rw [result?] at hs ⊢
        rw [getElem?_set_ne,hs]
        rintro rfl
        rw [hc] at hs
        cases hs
    · exact h
  | poll i => exact h.leave fun c r hr => by simpa using hr
  | drop i => exact h.leave fun c r hr => by simp at hr

theorem not_sound_work (g : Group R) (s : GroupStep R) (hp : ¬g.Permits s) : ¬(g.step s).Sound := by
  cases s with
  | work =>
    intro h
    simp only [Permits] at hp
    split at hp
    · rename_i call hc
      obtain ⟨r,hr⟩ := Option.ne_none_iff_exists'.mp hp
      have hf := h.fresh ⟨call,false,g.calls,.returned r⟩ (by simp [Group.step,work,hc,hr]) r rfl
      rw [← result?,hr] at hf
      cases hf.2
    · rename_i hc
      have he : (g.calls ++ [none]).countP Option.isNone ≤ 1 := by
        simpa only [Group.step,work,hc] using h.exclusive
      rw [countP_append] at he
      exact Nat.not_lt_of_le he (Nat.add_lt_add_right (countP_pos_iff.mpr ⟨none,not_not.mp hp,rfl⟩) 1)
  | _ => exact absurd trivial hp

/-- The calls keep to one task at a time exactly if every caller comes at a permitted moment. -/
theorem run_sound_iff (steps : List (GroupStep R)) :
    (∀ n, (run step ({} : Group R) (steps.take n)).Sound) ↔ Permitted step Permits {} steps :=
  forall_take_iff_permitted (fun g h =>
    ⟨h.exclusive,fun c hc r hr => ⟨h.returned c hc r hr,h.before c hc⟩⟩) Kept.step
    (fun g s hp _ => not_sound_work g s hp) ⟨Nat.zero_le 1,by simp,by simp⟩

/-- The owner is dropped, its task runs on, and the next caller spawns a second one. -/
theorem run_two_tasks : ¬(run step ({} : Group ℕ) [.work,.drop 0,.work]).Sound := fun h =>
  absurd h.exclusive (by decide)

end Group
end XetCore.Runtime
