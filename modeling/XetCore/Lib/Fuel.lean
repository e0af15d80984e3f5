import Mathlib.Tactic

/-! # Computations with fuel

A loop without a bound of its own is given fuel, and has no result when the fuel runs out. It
returns a value if that is its result from some amount of fuel on.
-/
namespace XetCore.Fuel
variable {α β : Type*} {f g : ℕ → Option α} {a : α}

def Returns (f : ℕ → Option α) (a : α) : Prop := ∃ n, ∀ fuel, n ≤ fuel → f fuel = some a

theorem returns_of_eq (h : ∀ fuel, f (fuel + 1) = some a) : Returns f a := by
  refine ⟨1,fun fuel hf => ?_⟩
  obtain ⟨k,rfl⟩ := Nat.exists_eq_add_of_le' hf
  exact h k

theorem Returns.step (h : Returns g a) (hs : ∀ fuel, f (fuel + 1) = g fuel) : Returns f a := by
  obtain ⟨n,hn⟩ := h
  refine ⟨n + 1,fun fuel hf => ?_⟩
  obtain ⟨k,rfl⟩ := Nat.exists_eq_add_of_le' (show 1 ≤ fuel by omega)
  rw [hs,hn k (by omega)]

theorem Returns.bind {f : ℕ → Option β} {g : β → ℕ → Option α} {b : β} (hf : Returns f b)
    (hg : Returns (g b) a) :
    Returns (fun fuel => (f fuel).bind fun b => g b fuel) a := by
  obtain ⟨n,hn⟩ := hf
  obtain ⟨k,hk⟩ := hg
  refine ⟨max n k,fun fuel hfu => ?_⟩
  change (f fuel).bind _ = _
  rw [hn fuel (by omega),Option.bind_some,hk fuel (by omega)]

theorem Returns.map {f : ℕ → Option β} {b : β} (hf : Returns f b) (g : β → α) :
    Returns (fun fuel => (f fuel).map g) (g b) := by
  obtain ⟨n,hn⟩ := hf
  refine ⟨n,fun fuel hfu => ?_⟩
  change (f fuel).map g = _
  rw [hn fuel hfu,Option.map_some]

theorem Returns.unique {b : α} (ha : Returns f a) (hb : Returns f b) : a = b := by
  obtain ⟨n,hn⟩ := ha
  obtain ⟨k,hk⟩ := hb
  exact Option.some.inj ((hn (max n k) (by omega)).symm.trans (hk (max n k) (by omega)))

theorem Returns.exists_and_iff (h : Returns f a) {P : α → Prop} : (∃ b, Returns f b ∧ P b) ↔ P a :=
  ⟨fun ⟨_,hb,hp⟩ => h.unique hb ▸ hp,fun hp => ⟨a,h,hp⟩⟩

/-- Induction over the rounds of a loop that calls something which may hold it up, but not
forever: a round is held up and leaves the measure as it is, or it makes the measure smaller. -/
theorem fair_induction {σ : Type*} {he : ℕ → Bool}
    (fair : ∀ call, ∃ later, call ≤ later ∧ he later = false) (calls left : σ → ℕ) {P : σ → Prop}
    (round : ∀ s, (∀ s', (he (calls s) = true ∧ calls s' = calls s + 1 ∧ left s' = left s) ∨
      left s' < left s →
      P s') → P s) (s : σ) : P s := by
  generalize hl : left s = n
  induction n using Nat.strong_induction_on generalizing s with
  | h n ihLeft =>
    obtain ⟨later,hla,hf⟩ := fair (calls s)
    obtain ⟨gap,rfl⟩ := Nat.exists_eq_add_of_le hla
    clear hla
    induction gap generalizing s with
    | zero =>
      refine round s fun s' hs' => ?_
      obtain ⟨hh,-,-⟩ | hlt := hs'
      · exact absurd (hh.symm.trans hf) (by decide)
      · exact ihLeft _ (hl ▸ hlt) s' rfl
    | succ gap ihGap =>
      refine round s fun s' hs' => ?_
      obtain ⟨-,hc,hs⟩ | hlt := hs'
      · refine ihGap s' (hs.trans hl) ?_
        rwa [hc,Nat.add_assoc,Nat.add_comm 1 gap]
      · exact ihLeft _ (hl ▸ hlt) s' rfl

end XetCore.Fuel
