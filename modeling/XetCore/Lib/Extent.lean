import Mathlib.Tactic

/-! # Extents over named sources

An extent names a source and a range of positions in it. A list of extents is read by
joining what its members read. Sources can grow at their ends or be placed behind others.
-/
namespace XetCore.Extents
open List
variable {κ α : Type*} {xs : List α} {a b : ℕ}

def slice (xs : List α) (a b : ℕ) : List α := (xs.drop a).take (b - a)

theorem slice_length (hb : b ≤ xs.length) : (slice xs a b).length = b - a := by
  simp only [slice,length_take,length_drop]
  omega

theorem slice_append_slice (xs : List α) {c : ℕ} (hab : a ≤ b) (hbc : b ≤ c) :
    slice xs a b ++ slice xs b c = slice xs a c := by
  have hd : xs.drop b = (xs.drop a).drop (b - a) := by
    rw [drop_drop]
    congr 1
    omega
  unfold slice
  rw [hd,show c - a = (b - a) + (c - b) by omega,take_add]

theorem slice_append_left (ys : List α) (hb : b ≤ xs.length) : slice (xs ++ ys) a b = slice xs a b := by
  by_cases hab : a ≤ b
  · unfold slice
    rw [drop_append_of_le_length (by omega),take_append_of_le_length]
    simp only [length_drop]
    omega
  · simp [slice,show b - a = 0 by omega]

theorem slice_append_right (xs ys : List α) (a b : ℕ) :
    slice (xs ++ ys) (xs.length + a) (xs.length + b) = slice ys a b := by
  unfold slice
  rw [drop_length_add_append,show xs.length + b - (xs.length + a) = b - a by omega]

@[simp] theorem slice_self (xs : List α) (a : ℕ) : slice xs a a = [] := by simp [slice]

@[simp] theorem slice_zero_length (xs : List α) : slice xs 0 xs.length = xs := by simp [slice]

theorem slice_succ {i : ℕ} (hi : i < xs.length) : slice xs i (i + 1) = [xs[i]] := by
  unfold slice
  rw [drop_eq_getElem_cons hi,Nat.add_sub_cancel_left]
  rfl

theorem slice_map {β : Type*} (f : α → β) (xs : List α) (a b : ℕ) :
    slice (xs.map f) a b = (slice xs a b).map f := by
  simp [slice]

theorem mem_of_mem_slice {x : α} (h : x ∈ slice xs a b) : x ∈ xs :=
  mem_of_mem_drop (mem_of_mem_take h)

theorem slice_zero_eq_take (xs : List α) (b : ℕ) : slice xs 0 b = xs.take b := by simp [slice]

theorem slice_length_eq_drop (xs : List α) (a : ℕ) : slice xs a xs.length = xs.drop a := by
  exact take_of_length_le (by rw [length_drop])

theorem take_append_slice (xs : List α) {i j : ℕ} (h : i ≤ j) :
    xs.take i ++ slice xs i j = xs.take j := by
  have := slice_append_slice xs (Nat.zero_le i) h
  rwa [slice_zero_eq_take,slice_zero_eq_take] at this

/-- The part of a joined list that a slice of the lists makes up. -/
theorem slice_flatMap {β : Type*} (f : α → List β) (xs : List α) {i j : ℕ} (h : i ≤ j) :
    slice (xs.flatMap f) ((xs.take i).flatMap f).length
      (((xs.take i).flatMap f).length + ((slice xs i j).flatMap f).length) =
      (slice xs i j).flatMap f := by
  have hx : xs.flatMap f = (xs.take i).flatMap f ++
    ((slice xs i j).flatMap f ++ (xs.drop j).flatMap f) := by
    rw [← flatMap_append,← flatMap_append,← append_assoc,take_append_slice xs h,take_append_drop]
  have hs := slice_append_right ((xs.take i).flatMap f)
    ((slice xs i j).flatMap f ++ (xs.drop j).flatMap f) 0
    ((slice xs i j).flatMap f).length
  rw [hx]
  rw [Nat.add_zero] at hs
  rw [hs,slice_append_left _ le_rfl,slice_zero_length]

structure Extent (κ : Type*) where
  key : κ
  start : ℕ
  stop : ℕ

namespace Extent

def read (source : κ → List α) (e : Extent κ) : List α := slice (source e.key) e.start e.stop

structure Within (source : κ → List α) (e : Extent κ) : Prop where
  start_le : e.start ≤ e.stop
  stop_le : e.stop ≤ (source e.key).length

variable {source source' : κ → List α} {e : Extent κ}

theorem Within.read_length (h : e.Within source) : (e.read source).length = e.stop - e.start :=
  slice_length h.stop_le

theorem Within.grow (h : e.Within source) (hg : source e.key <+: source' e.key) : e.Within source' :=
  ⟨h.start_le,h.stop_le.trans hg.length_le⟩

end Extent
end XetCore.Extents
