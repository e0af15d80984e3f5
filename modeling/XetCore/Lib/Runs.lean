import Mathlib.Tactic

/-! # Runs of a state machine

A machine takes a step for each input. A step may fail, which leaves the state as it was. A
property that every permitted step keeps holds after every run of permitted steps.
-/
namespace XetCore.Runs
open List
variable {σ ι ε : Type*} {step : σ → ι → Except ε σ}

def attempt (step : σ → ι → Except ε σ) (s : σ) (i : ι) : σ :=
  match step s i with
  | .ok s' => s'
  | .error _ => s

theorem attempt_of_ok {s s' : σ} {i : ι} (h : step s i = .ok s') : attempt step s i = s' := by
  rw [attempt,h]

def run (next : σ → ι → σ) (s : σ) (inputs : List ι) : σ := inputs.foldl next s

/-- Every input is permitted in the state that it finds. -/
def Permitted (next : σ → ι → σ) (permit : σ → ι → Prop) : σ → List ι → Prop
  | _, [] => True
  | s, i :: inputs => permit s i ∧ Permitted next permit (next s i) inputs

instance decidablePermitted (next : σ → ι → σ) (permit : σ → ι → Prop)
    [∀ s i, Decidable (permit s i)] : ∀ s inputs, Decidable (Permitted next permit s inputs)
  | _, [] => .isTrue trivial
  | s, i :: inputs =>
    have := decidablePermitted next permit (next s i) inputs
    inferInstanceAs (Decidable (permit s i ∧ Permitted next permit (next s i) inputs))

section Invariant
variable {next : σ → ι → σ} {permit : σ → ι → Prop} {Inv : σ → Prop}
variable {s : σ} {inputs : List ι} {grant : ι → Prop}

theorem run_invariant (hk : ∀ s i, permit s i → Inv s → Inv (next s i)) (hs : Inv s)
    (hin : Permitted next permit s inputs) : Inv (run next s inputs) := by
  induction inputs generalizing s with
  | nil => exact hs
  | cons i inputs ih =>
    obtain ⟨hi,hr⟩ := hin
    exact ih (hk s i hi hs) hr

theorem permitted_of_forall (h : ∀ i ∈ inputs, grant i) :
    Permitted next (fun _ i => grant i) s inputs := by
  induction inputs generalizing s with
  | nil => trivial
  | cons i inputs ih =>
    obtain ⟨hi,hr⟩ := forall_mem_cons.mp h
    exact ⟨hi,ih hr⟩

theorem Permitted.and_forall (h : Permitted next permit s inputs)
    (hg : ∀ i ∈ inputs, grant i) : Permitted next (fun s i => permit s i ∧ grant i) s inputs := by
  induction inputs generalizing s with
  | nil => trivial
  | cons i inputs ih =>
    obtain ⟨hi,hr⟩ := h
    obtain ⟨hg,hgr⟩ := forall_mem_cons.mp hg
    exact ⟨⟨hi,hg⟩,ih hr hgr⟩

/-- A permission that implies another one wherever it has kept an invariant permits no other
runs. -/
theorem Permitted.imp {other : σ → ι → Prop} (Inv : σ → Prop)
    (himp : ∀ s i, Inv s → permit s i → other s i)
    (hk : ∀ s i, permit s i → Inv s → Inv (next s i)) (hs : Inv s)
    (h : Permitted next permit s inputs) : Permitted next other s inputs := by
  induction inputs generalizing s with
  | nil => trivial
  | cons i inputs ih =>
    obtain ⟨hi,hr⟩ := h
    exact ⟨himp s i hs hi,ih (hk s i hi hs) hr⟩

/-- Two permissions that agree wherever the second has kept an invariant permit the same runs. -/
theorem permitted_iff (Inv : σ → Prop) {other : σ → ι → Prop}
    (hif : ∀ s i, Inv s → (permit s i ↔ other s i))
    (hk : ∀ s i, other s i → Inv s → Inv (next s i)) (hs : Inv s) (inputs : List ι) :
    Permitted next permit s inputs ↔ Permitted next other s inputs :=
  ⟨fun h => h.imp Inv (fun s i hs => (hif s i hs).mp)
    (fun s i hi hs => hk s i ((hif s i hs).mp hi) hs) hs,
    fun h => h.imp Inv (fun s i hs => (hif s i hs).mpr) hk hs⟩

/-- If a step that is not permitted spoils the state at once, the runs of permitted steps are those
without a spoiled state on the way. -/
theorem forall_take_iff_permitted {Good : σ → Prop} (hg : ∀ s, Inv s → Good s)
    (hk : ∀ s i, permit s i → Inv s → Inv (next s i)) (hbr : ∀ s i, ¬ permit s i → Inv s →
      ¬Good (next s i)) (hs : Inv s) :
    (∀ n, Good (run next s (inputs.take n))) ↔ Permitted next permit s inputs := by
  induction inputs generalizing s with
  | nil => simpa [run,Permitted] using hg s hs
  | cons i inputs ih =>
    constructor
    · intro h
      have hi : permit s i := by_contra fun hn => hbr s i hn hs (h 1)
      exact ⟨hi,(ih (hk s i hi hs)).mp fun n => h (n + 1)⟩
    · rintro ⟨hi,hr⟩ n
      cases n with
      | zero => exact hg s hs
      | succ n => exact (ih (hk s i hi hs)).mpr hr n

/-- What the first step that is not permitted breaks stays broken. -/
theorem run_broken {Broken : σ → Prop} (hk : ∀ s i, permit s i ∧ grant i → Inv s → Inv (next s i))
    (hbr : ∀ s i, ¬ permit s i → Inv s → Broken (next s i)) (hst : ∀ s i, Broken s → Broken (next s i))
    (hs : Inv s) (hg : ∀ i ∈ inputs, grant i) (hin : ¬ Permitted next permit s inputs) :
    Broken (run next s inputs) := by
  have hb : ∀ (inputs : List ι) s, Broken s → Broken (run next s inputs) := by
    intro inputs
    induction inputs with
    | nil => exact fun _ h => h
    | cons i inputs ih => exact fun s h => ih (next s i) (hst s i h)
  induction inputs generalizing s with
  | nil => exact absurd trivial hin
  | cons i inputs ih =>
    obtain ⟨hi,hg⟩ := forall_mem_cons.mp hg
    by_cases hp : permit s i
    · exact ih (hk s i ⟨hp,hi⟩ hs) hg fun hr => hin ⟨hp,hr⟩
    · exact hb inputs (next s i) (hbr s i hp hs)

theorem attempt_invariant
    (hk : ∀ s s' i, permit s i → step s i = .ok s' → Inv s → Inv s') (s : σ) (i : ι)
    (hi : permit s i) (hs : Inv s) :
    Inv (attempt step s i) := by
  cases hst : step s i with
  | ok s' =>
    rw [attempt_of_ok hst]
    exact hk s s' i hi hst hs
  | error e =>
    rw [attempt,hst]
    exact hs

end Invariant
end XetCore.Runs
