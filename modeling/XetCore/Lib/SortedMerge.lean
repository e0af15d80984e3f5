import Mathlib.Tactic

/-! # Merging sorted lists

Two lists in the order of their keys are merged. Of two elements with the same key a
combination is kept, or none of them, and the elements that only the first list has are kept
or dropped. What only the second list has is always kept.
-/
namespace XetCore.SortedMerge
open List
variable {α κ : Type*} [LinearOrder κ] (key : α → κ) (keepFirst : Bool) (both : α → α → Option α)

def onlyFirst (x : α) : List α := if keepFirst then [x] else []

def mergeBy : List α → List α → List α
  | [], [] => []
  | [], y :: ys => y :: mergeBy [] ys
  | x :: xs, [] => onlyFirst keepFirst x ++ mergeBy xs []
  | x :: xs, y :: ys =>
    if key x < key y then onlyFirst keepFirst x ++ mergeBy xs (y :: ys)
    else if key y < key x then y :: mergeBy (x :: xs) ys
    else (both x y).toList ++ mergeBy xs ys
termination_by xs ys => xs.length + ys.length

abbrev Ordered (xs : List α) : Prop := xs.Pairwise fun a b => key a < key b

variable {key keepFirst both} {xs ys : List α}

theorem mem_onlyFirst {x z : α} : z ∈ onlyFirst keepFirst x ↔ keepFirst = true ∧ z = x := by
  cases keepFirst <;> simp [onlyFirst]

theorem of_mem_mergeBy {z : α} (hz : z ∈ mergeBy key keepFirst both xs ys) :
    z ∈ xs ∨ z ∈ ys ∨ ∃ x ∈ xs, ∃ y ∈ ys, key x = key y ∧ both x y = some z := by
  fun_induction mergeBy key keepFirst both xs ys with
  | case1 => exact absurd hz not_mem_nil
  | case2 y ys ih =>
    rcases mem_cons.mp hz with rfl | hz
    · exact .inr (.inl mem_cons_self)
    · rcases ih hz with hx | hy | ⟨x,hx,-⟩
      · exact absurd hx not_mem_nil
      · exact .inr (.inl (mem_cons_of_mem _ hy))
      · exact absurd hx not_mem_nil
  | case3 x xs ih =>
    rcases mem_append.mp hz with hz | hz
    · exact .inl ((mem_onlyFirst.mp hz).2 ▸ mem_cons_self)
    · rcases ih hz with hx | hy | ⟨_,_,y,hy,-⟩
      · exact .inl (mem_cons_of_mem _ hx)
      · exact absurd hy not_mem_nil
      · exact absurd hy not_mem_nil
  | case4 x xs y ys hlt ih =>
    rcases mem_append.mp hz with hz | hz
    · exact .inl ((mem_onlyFirst.mp hz).2 ▸ mem_cons_self)
    · rcases ih hz with hx | hy | ⟨a,ha,hb⟩
      · exact .inl (mem_cons_of_mem _ hx)
      · exact .inr (.inl hy)
      · exact .inr (.inr ⟨a,mem_cons_of_mem _ ha,hb⟩)
  | case5 x xs y ys hn hlt ih =>
    rcases mem_cons.mp hz with rfl | hz
    · exact .inr (.inl mem_cons_self)
    · rcases ih hz with hx | hy | ⟨a,ha,b,hb,hab⟩
      · exact .inl hx
      · exact .inr (.inl (mem_cons_of_mem _ hy))
      · exact .inr (.inr ⟨a,ha,b,mem_cons_of_mem _ hb,hab⟩)
  | case6 x xs y ys hn hn' ih =>
    rcases mem_append.mp hz with hz | hz
    · exact .inr (.inr ⟨x,mem_cons_self,y,mem_cons_self,
        le_antisymm (not_lt.mp hn') (not_lt.mp hn),Option.mem_toList.mp hz⟩)
    · rcases ih hz with hx | hy | ⟨a,ha,b,hb,hab⟩
      · exact .inl (mem_cons_of_mem _ hx)
      · exact .inr (.inl (mem_cons_of_mem _ hy))
      · exact .inr (.inr ⟨a,mem_cons_of_mem _ ha,b,mem_cons_of_mem _ hb,hab⟩)

theorem forall_mem_mergeBy {P : α → Prop} (hxs : ∀ x ∈ xs, P x) (hys : ∀ y ∈ ys, P y)
    (hb : ∀ x ∈ xs, ∀ y ∈ ys, key x = key y → ∀ z, both x y = some z → P z) :
    ∀ z ∈ mergeBy key keepFirst both xs ys, P z := by
  intro z hz
  rcases of_mem_mergeBy hz with hx | hy | ⟨x,hx,y,hy,hkey,heq⟩
  · exact hxs z hx
  · exact hys z hy
  · exact hb x hx y hy hkey z heq

/-- A combination is no larger than its two parts, so the result is no larger than the two lists. -/
theorem sum_mergeBy_le {size : α → ℕ}
    (hbo : ∀ x ∈ xs, ∀ y ∈ ys, key x = key y → ∀ z, both x y = some z → size z ≤ size x + size y) :
    ((mergeBy key keepFirst both xs ys).map size).sum ≤ (xs.map size).sum + (ys.map size).sum := by
  have ho : ∀ x, ((onlyFirst keepFirst x).map size).sum ≤ size x := fun x => by
    cases keepFirst <;> simp [onlyFirst]
  fun_induction mergeBy key keepFirst both xs ys with
  | case1 => exact Nat.zero_le _
  | case2 y ys ih =>
    have hr := ih fun x hx => absurd hx not_mem_nil
    simp only [map_cons,sum_cons] at hr ⊢
    omega
  | case3 x xs ih =>
    have hr := ih fun a ha b hb => absurd hb not_mem_nil
    have hx := ho x
    simp only [map_append,sum_append,map_cons,sum_cons] at hr ⊢
    omega
  | case4 x xs y ys hlt ih =>
    have hr := ih fun a ha b hb => hbo a (mem_cons_of_mem _ ha) b hb
    have hx := ho x
    simp only [map_append,sum_append,map_cons,sum_cons] at hr ⊢
    omega
  | case5 x xs y ys hn hlt ih =>
    have hr := ih fun a ha b hb => hbo a ha b (mem_cons_of_mem _ hb)
    simp only [map_cons,sum_cons] at hr ⊢
    omega
  | case6 x xs y ys hn hn' ih =>
    have hr := ih fun a ha b hb => hbo a (mem_cons_of_mem _ ha) b (mem_cons_of_mem _ hb)
    have hxy := hbo x mem_cons_self y mem_cons_self (le_antisymm (not_lt.mp hn') (not_lt.mp hn))
    simp only [map_append,sum_append,map_cons,sum_cons]
    cases hz : both x y with
    | none => simp only [Option.toList_none,map_nil,sum_nil]; omega
    | some z =>
      have hle := hxy z hz
      simp only [Option.toList_some,map_cons,map_nil,sum_cons,sum_nil]
      omega

section Ordered
variable (hkey : ∀ x ∈ xs, ∀ y ∈ ys, key x = key y → ∀ z, both x y = some z → key z = key x)
include hkey

theorem lt_of_mem_mergeBy {k : κ} (hxs : ∀ x ∈ xs, k < key x) (hys : ∀ y ∈ ys, k < key y) :
    ∀ z ∈ mergeBy key keepFirst both xs ys, k < key z :=
  forall_mem_mergeBy hxs hys fun x hx y hy hxy z hz => by
    rw [hkey x hx y hy hxy z hz]
    exact hxs x hx

theorem ordered_mergeBy (hxs : Ordered key xs) (hys : Ordered key ys) :
    Ordered key (mergeBy key keepFirst both xs ys) := by
  fun_induction mergeBy key keepFirst both xs ys with
  | case1 => exact Pairwise.nil
  | case2 y ys ih =>
    obtain ⟨hy,hys⟩ := pairwise_cons.mp hys
    have he : ∀ x ∈ ([] : List α), ∀ b ∈ ys, key x = key b → ∀ z, both x b = some z → key z = key x :=
      fun x hx => absurd hx not_mem_nil
    exact pairwise_cons.mpr ⟨lt_of_mem_mergeBy he (fun x hx => absurd hx not_mem_nil) hy,ih he hxs hys⟩
  | case3 x xs ih =>
    obtain ⟨hx,hxs⟩ := pairwise_cons.mp hxs
    have he : ∀ a ∈ xs, ∀ b ∈ ([] : List α), key a = key b → ∀ z, both a b = some z → key z = key a :=
      fun a ha b hb => absurd hb not_mem_nil
    refine pairwise_append.mpr ⟨?_,ih he hxs hys,fun a ha b hb => ?_⟩
    · cases keepFirst <;> simp [onlyFirst]
    · rw [(mem_onlyFirst.mp ha).2]
      exact lt_of_mem_mergeBy he hx (fun y hy => absurd hy not_mem_nil) b hb
  | case4 x xs y ys hlt ih =>
    obtain ⟨hx,hxs⟩ := pairwise_cons.mp hxs
    have ht := fun a (ha : a ∈ xs) => hkey a (mem_cons_of_mem _ ha)
    refine pairwise_append.mpr ⟨?_,ih ht hxs hys,fun a ha b hb => ?_⟩
    · cases keepFirst <;> simp [onlyFirst]
    · rw [(mem_onlyFirst.mp ha).2]
      refine lt_of_mem_mergeBy ht hx (fun c hc => ?_) b hb
      rcases mem_cons.mp hc with rfl | hc
      · exact hlt
      · exact hlt.trans ((pairwise_cons.mp hys).1 c hc)
  | case5 x xs y ys hn hlt ih =>
    obtain ⟨hy,hys⟩ := pairwise_cons.mp hys
    have ht := fun a (ha : a ∈ x :: xs) b (hb : b ∈ ys) => hkey a ha b (mem_cons_of_mem _ hb)
    refine pairwise_cons.mpr ⟨lt_of_mem_mergeBy ht (fun c hc => ?_) hy,ih ht hxs hys⟩
    rcases mem_cons.mp hc with rfl | hc
    · exact hlt
    · exact hlt.trans ((pairwise_cons.mp hxs).1 c hc)
  | case6 x xs y ys hn hn' ih =>
    obtain ⟨hx,hxs⟩ := pairwise_cons.mp hxs
    obtain ⟨hy,hys⟩ := pairwise_cons.mp hys
    have heq : key x = key y := le_antisymm (not_lt.mp hn') (not_lt.mp hn)
    have ht := fun a (ha : a ∈ xs) b (hb : b ∈ ys) =>
      hkey a (mem_cons_of_mem _ ha) b (mem_cons_of_mem _ hb)
    refine pairwise_append.mpr ⟨?_,ih ht hxs hys,fun a ha b hb => ?_⟩
    · cases both x y <;> simp
    · rw [hkey x mem_cons_self y mem_cons_self heq a (Option.mem_toList.mp ha)]
      exact lt_of_mem_mergeBy ht hx (fun c hc => heq ▸ hy c hc) b hb

end Ordered
end XetCore.SortedMerge
