import Mathlib.Data.UInt
import XetCore.Chunking.Machine

/-! # The gear hash

A rolling hash with a table of random words. Every byte shifts the state by one bit,
so the state only depends on the last bytes that the word has room for.
-/
namespace XetCore.Chunking
open List
variable (table : UInt8 → UInt64)

def gearStep (h : UInt64) (b : UInt8) : UInt64 := h <<< 1 + table b

def gearLoop (mask : UInt64) : UInt64 → Bytes → Option ℕ × UInt64
  | h, [] => (none,h)
  | h, b :: bs =>
    if gearStep table h b &&& mask = 0 then (some 1,gearStep table h b)
    else ((gearLoop mask (gearStep table h b) bs).1.map (· + 1),(gearLoop mask (gearStep table h b) bs).2)

variable {table}

theorem gearLoop_bounds {mask h : UInt64} {data : Bytes} {k : ℕ}
    (hk : (gearLoop table mask h data).1 = some k) : 0 < k ∧ k ≤ data.length := by
  induction data generalizing h k with
  | nil => simp [gearLoop] at hk
  | cons b bs ih =>
    simp only [gearLoop] at hk
    split at hk
    · cases hk
      simp
    · obtain ⟨m,hm,rfl⟩ := Option.map_eq_some_iff.mp hk
      have := ih hm
      simp only [length_cons]
      omega

theorem gearLoop_append (mask h : UInt64) (a b : Bytes) : gearLoop table mask h (a ++ b) =
    if (gearLoop table mask h a).1.isSome then gearLoop table mask h a
    else ((gearLoop table mask (gearLoop table mask h a).2 b).1.map (· + a.length),
      (gearLoop table mask (gearLoop table mask h a).2 b).2) := by
  induction a generalizing h with
  | nil => simp [gearLoop]
  | cons x xs ih =>
    simp only [cons_append,gearLoop]
    split
    · rfl
    · rw [ih]
      cases hx : (gearLoop table mask (gearStep table h x) xs).1 <;> simp [hx]

variable (table)

def gearHasher : GearHasher where
  State := UInt64
  init := 0
  nextMatch h data mask := gearLoop table mask h data
  nextMatch_nil _ _ := rfl
  nextMatch_bounds := gearLoop_bounds
  nextMatch_append h a b mask := gearLoop_append mask h a b

theorem gearHasher_step (mask : UInt64) : (gearHasher table).step mask = gearStep table := by
  funext h b
  change (gearLoop table mask h [b]).2 = _
  simp only [gearLoop]
  split <;> rfl

open scoped UInt64.CommRing in
theorem foldl_gearStep (w : Bytes) (h : UInt64) :
    w.foldl (gearStep table) h = 2 ^ w.length * h + w.foldl (gearStep table) 0 := by
  induction w generalizing h with
  | nil => simp
  | cons b bs ih =>
    have hs : ∀ x : UInt64, gearStep table x b = 2 * x + table b := fun _ => rfl
    rw [List.foldl_cons,List.foldl_cons,ih,ih (gearStep table 0 b),hs,hs,List.length_cons]
    ring

open scoped UInt64.CommRing in
/-- After a full window nothing of the old state is left. -/
theorem foldl_gearStep_window {w : Bytes} (hw : w.length = hashWindowSize) (h h' : UInt64) :
    w.foldl (gearStep table) h = w.foldl (gearStep table) h' := by
  have hz : (2 : UInt64) ^ 64 = 0 := by
    have hh : (2 : UInt64) ^ 32 = 4294967296 := by decide +kernel
    rw [show 64 = 32 + 32 from rfl,pow_add,hh]
    decide
  rw [foldl_gearStep,foldl_gearStep table w h',hw,hz]
  ring

end XetCore.Chunking
