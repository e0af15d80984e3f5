import Mathlib.Tactic

/-! # Bounded while loops

A loop runs for at most a given number of rounds. An invariant that every round
keeps holds at the end; when a measure falls in every round and starts within the
bound, the loop ends because its guard is false and not because the bound is used up.
-/
namespace XetCore.WhileLoop
variable {σ : Type*} (guard : σ → Bool) (body : σ → σ)

def run : ℕ → σ → σ
  | 0, s => s
  | fuel + 1, s => if guard s then run fuel (body s) else s

/-- Every state at which a round starts satisfies `Q`. -/
def Always (Q : σ → Prop) : ℕ → σ → Prop
  | 0, _ => True
  | fuel + 1, s => guard s = true → Q s ∧ Always Q fuel (body s)

instance Always.decidable (Q : σ → Prop) [DecidablePred Q] :
    ∀ fuel s, Decidable (Always guard body Q fuel s)
  | 0, _ => inferInstanceAs (Decidable True)
  | fuel + 1, s =>
    haveI := Always.decidable Q fuel (body s)
    inferInstanceAs (Decidable (guard s = true → Q s ∧ Always guard body Q fuel (body s)))

variable {guard body} {P : σ → Prop}
variable {fuel : ℕ} {s : σ} (m : σ → ℕ)

theorem run_succ_of_guard (hg : guard s = true) :
    run guard body (fuel + 1) s = run guard body fuel (body s) := by
  simp [run,hg]

theorem run_of_not_guard (hg : guard s = false) : run guard body fuel s = s := by
  cases fuel with
  | zero => rfl
  | succ fuel => simp [run,hg]

theorem run_invariant (step : ∀ s, guard s = true → P s → P (body s)) (h : P s) :
    P (run guard body fuel s) := by
  induction fuel generalizing s with
  | zero => exact h
  | succ fuel ih =>
    cases hg : guard s with
    | true =>
      rw [run_succ_of_guard hg]
      exact ih (step s hg h)
    | false =>
      rw [run_of_not_guard hg]
      exact h

theorem run_exits (step : ∀ s, guard s = true → P s → P (body s))
    (dec : ∀ s, guard s = true → P s → m (body s) < m s) (h : P s) (hf : m s ≤ fuel) :
    guard (run guard body fuel s) = false := by
  induction fuel generalizing s with
  | zero =>
    cases hg : guard s with
    | true =>
      have := dec s hg h
      omega
    | false => exact hg
  | succ fuel ih =>
    cases hg : guard s with
    | true =>
      rw [run_succ_of_guard hg]
      have := dec s hg h
      exact ih (step s hg h) (by omega)
    | false => rw [run_of_not_guard hg,hg]

theorem run_back {R : σ → Prop} (back : ∀ s, guard s = true → R (body s) → R s)
    (h : R (run guard body fuel s)) : R s := by
  induction fuel generalizing s with
  | zero => exact h
  | succ fuel ih =>
    cases hg : guard s with
    | true =>
      rw [run_succ_of_guard hg] at h
      exact back s hg (ih h)
    | false =>
      rwa [run_of_not_guard hg] at h

/-- A counter that stays in the rounds that satisfy `Q` and grows in the others tells
whether every round satisfied it. What holds at the end of the run and goes back through the
rounds may be used. -/
theorem always_iff_counter_of_end {Q R : σ → Prop} (back : ∀ s, guard s = true → R (body s) → R s)
    (step : ∀ s, guard s = true → P s → R (body s) → P (body s))
    (stays : ∀ s, guard s = true → P s → R (body s) → Q s → m (body s) = m s)
    (grows : ∀ s, guard s = true → P s → R (body s) → ¬Q s → m s < m (body s)) (h : P s)
    (he : R (run guard body fuel s)) : P (run guard body fuel s) ∧ m s ≤ m (run guard body fuel s) ∧
      (Always guard body Q fuel s ↔ m (run guard body fuel s) = m s) := by
  induction fuel generalizing s with
  | zero => simpa [Always,run] using h
  | succ fuel ih =>
    cases hg : guard s with
    | false => simpa [Always,hg,run_of_not_guard hg] using h
    | true =>
      rw [run_succ_of_guard hg] at he ⊢
      have hb := run_back back he
      obtain ⟨hp,hle,hif⟩ := ih (step s hg h hb) he
      simp only [Always,hg,true_implies,hif]
      by_cases hq : Q s
      · have hm := stays s hg h hb hq
        rw [← hm]
        exact ⟨hp,hle,and_iff_right hq⟩
      · have hm := grows s hg h hb hq
        exact ⟨hp,hm.le.trans hle,fun hc => absurd hc.1 hq,fun hc => by omega⟩

theorem always_iff_counter {Q : σ → Prop} (step : ∀ s, guard s = true → P s → P (body s))
    (stays : ∀ s, guard s = true → P s → Q s → m (body s) = m s)
    (grows : ∀ s, guard s = true → P s → ¬Q s → m s < m (body s)) (h : P s) :
    Always guard body Q fuel s ↔ m (run guard body fuel s) = m s :=
  (always_iff_counter_of_end m (fun _ _ _ => trivial) (fun s hg hp _ => step s hg hp)
    (fun s hg hp _ => stays s hg hp) (fun s hg hp _ => grows s hg hp) h trivial).2.2

end XetCore.WhileLoop
