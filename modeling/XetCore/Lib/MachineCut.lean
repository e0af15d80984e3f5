import XetCore.Lib.StreamCut

/-! # Cutting by a machine

A machine reads a piece element by element and stops at its last element. It is
restarted for the next piece. Reading can be interrupted anywhere and taken up
again from the state that was reached.
-/
namespace XetCore.MachineCut
open StreamCut List
variable {α σ : Type*} (next : σ → α → σ) (stop : σ → α → Bool) {l : List α} {s : σ}

def scan : σ → List α → Option ℕ
  | _, [] => none
  | s, x :: xs => if stop s x then some 1 else (scan (next s x) xs).map (· + 1)

theorem scan_append (s : σ) (l t : List α) : scan next stop s (l ++ t) =
    (scan next stop s l).or ((scan next stop (l.foldl next s) t).map (· + l.length)) := by
  induction l generalizing s with
  | nil => simp [scan]
  | cons x xs ih =>
    simp only [cons_append,scan,foldl_cons]
    split
    · simp
    · rw [ih]
      cases scan next stop (next s x) xs <;> simp

theorem scan_bounds {n : ℕ} (h : scan next stop s l = some n) : 0 < n ∧ n ≤ l.length := by
  induction l generalizing s n with
  | nil => simp [scan] at h
  | cons x xs ih =>
    simp only [scan] at h
    split at h
    · cases h
      simp
    · obtain ⟨m,hm,rfl⟩ := Option.map_eq_some_iff.mp h
      have := ih hm
      simp only [length_cons]
      omega

theorem scan_take {n : ℕ} (h : scan next stop s l = some n) : scan next stop s (l.take n) = some n := by
  induction l generalizing s n with
  | nil => simp [scan] at h
  | cons x xs ih =>
    simp only [scan] at h
    split_ifs at h with hs
    · cases h
      simp [scan,hs]
    · obtain ⟨m,hm,rfl⟩ := Option.map_eq_some_iff.mp h
      simp [scan,hs,ih hm]

/-- The rule that restarts the machine at the beginning of every piece. -/
def rule (init : σ) : CutRule α where
  cut := scan next stop init
  pos := fun h => (scan_bounds next stop h).1
  le_length := fun h => (scan_bounds next stop h).2
  extend := fun h t => by rw [scan_append,h,Option.some_or]
  restrict := scan_take next stop

@[simp] theorem rule_cut (init : σ) (l : List α) :
    (rule next stop init).cut l = scan next stop init l := rfl

end XetCore.MachineCut
