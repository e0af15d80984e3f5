import Mathlib.Data.List.Sort
import Mathlib.Tactic

/-! # Merging ranges, and ranges that follow each other

Ranges in order of their starts are joined where they overlap or touch. The results
are apart from each other, cover what was joined, and begin and end where some of
the given ranges do.
-/
namespace XetCore.Intervals
open List

structure Range where
  start : ℕ
  stop : ℕ
deriving DecidableEq, Repr

/-- Joins the ranges that overlap or touch `cur`, for ranges in order of their starts. -/
def coalesceFrom (cur : Range) : List Range → List Range
  | [] => [cur]
  | next :: rest =>
    if next.start ≤ cur.stop then coalesceFrom ⟨cur.start,max cur.stop next.stop⟩ rest
    else cur :: coalesceFrom next rest

/-- Ranges in ascending order that are not empty, with a gap between them, and end before `n`. -/
structure Apart (n : ℕ) (rs : List Range) : Prop where
  separated : rs.Pairwise fun a b => a.stop < b.start
  lt : ∀ r ∈ rs, r.start < r.stop
  stop_le : ∀ r ∈ rs, r.stop ≤ n

def Covered (r : Range) (rs : List Range) : Prop := ∃ s ∈ rs, s.start ≤ r.start ∧ r.stop ≤ s.stop

abbrev StartsBefore (a b : Range) : Prop := a.start ≤ b.start

variable {n : ℕ} {cur : Range} {rs rs' rest : List Range} {P : ℕ → Prop}

theorem Apart.sublist (h : Apart n rs) (hs : rs'.Sublist rs) : Apart n rs' :=
  ⟨h.separated.sublist hs,fun r hr => h.lt r (hs.subset hr),fun r hr => h.stop_le r (hs.subset hr)⟩

theorem coalesceFrom_apart (hs : (cur :: rest).Pairwise StartsBefore)
    (hlt : ∀ r ∈ cur :: rest, r.start < r.stop) (hn : ∀ r ∈ cur :: rest, r.stop ≤ n) :
    Apart n (coalesceFrom cur rest) ∧ ∀ r ∈ coalesceFrom cur rest, StartsBefore cur r := by
  induction rest generalizing cur with
  | nil =>
    rw [coalesceFrom]
    exact ⟨⟨pairwise_singleton _ _,hlt,hn⟩,by simp⟩
  | cons next rest ih =>
    obtain ⟨hc,hre⟩ := pairwise_cons.mp hs
    rw [coalesceFrom]
    split_ifs with hg
    · refine ih (pairwise_cons.mpr ⟨fun r hr => hc r (by simp [hr]),hre.of_cons⟩) ?_ ?_
      · intro r hr
        rcases mem_cons.mp hr with rfl | hr
        · exact lt_max_of_lt_left (hlt cur (by simp))
        · exact hlt r (by simp [hr])
      · intro r hr
        rcases mem_cons.mp hr with rfl | hr
        · exact max_le (hn cur (by simp)) (hn next (by simp))
        · exact hn r (by simp [hr])
    · obtain ⟨ha,hst⟩ := ih hre (fun r hr => hlt r (by simp [hr])) fun r hr => hn r (by simp [hr])
      have hse : ∀ r ∈ coalesceFrom next rest, cur.stop < r.start :=
        fun r hr => (not_le.mp hg).trans_le (hst r hr)
      refine ⟨⟨pairwise_cons.mpr ⟨hse,ha.separated⟩,?_,?_⟩,?_⟩
      · exact forall_mem_cons.mpr ⟨hlt cur (by simp),ha.lt⟩
      · exact forall_mem_cons.mpr ⟨hn cur (by simp),ha.stop_le⟩
      · exact forall_mem_cons.mpr ⟨le_rfl,fun r hr => le_trans (hc next (by simp)) (hst r hr)⟩

theorem coalesceFrom_covers {r : Range} (hs : (cur :: rest).Pairwise StartsBefore)
    (hr : r ∈ cur :: rest) :
    Covered r (coalesceFrom cur rest) := by
  induction rest generalizing cur r with
  | nil =>
    obtain rfl := mem_singleton.mp hr
    exact ⟨r,by simp [coalesceFrom],le_rfl,le_rfl⟩
  | cons next rest ih =>
    obtain ⟨hc,hre⟩ := pairwise_cons.mp hs
    rw [coalesceFrom]
    split
    · have hs' : (⟨cur.start,max cur.stop next.stop⟩ :: rest : List Range).Pairwise StartsBefore :=
        pairwise_cons.mpr ⟨fun r hr => hc r (by simp [hr]),hre.of_cons⟩
      obtain ⟨s,hs,hle,hst⟩ := ih hs' mem_cons_self
      rcases mem_cons.mp hr with rfl | hr
      · exact ⟨s,hs,hle,(le_max_left _ _).trans hst⟩
      rcases mem_cons.mp hr with rfl | hr
      · exact ⟨s,hs,hle.trans (hc r (by simp)),(le_max_right _ _).trans hst⟩
      · exact ih hs' (by simp [hr])
    · rcases mem_cons.mp hr with rfl | hr
      · exact ⟨r,by simp,le_rfl,le_rfl⟩
      · obtain ⟨s,hs,h⟩ := ih hre hr
        exact ⟨s,by simp [hs],h⟩

theorem coalesceFrom_ends (h : ∀ r ∈ cur :: rest, P r.start ∧ P r.stop) :
    ∀ r ∈ coalesceFrom cur rest, P r.start ∧ P r.stop := by
  induction rest generalizing cur with
  | nil => simpa [coalesceFrom] using h
  | cons next rest ih =>
    have hc := h cur (by simp)
    rw [coalesceFrom]
    split
    · refine ih fun r hr => ?_
      rcases mem_cons.mp hr with rfl | hr
      · have hm : P (max cur.stop next.stop) := by
          rcases max_choice cur.stop next.stop with hm | hm <;> rw [hm]
          · exact hc.2
          · exact (h next (by simp)).2
        exact ⟨hc.1,hm⟩
      · exact h r (by simp [hr])
    · exact forall_mem_cons.mpr ⟨hc,ih fun r hr => h r (by simp [hr])⟩

def coalesce (rs : List Range) : List Range :=
  match rs.insertionSort StartsBefore with
  | [] => []
  | cur :: rest => coalesceFrom cur rest

theorem coalesce_cases (rs : List Range) : (rs = [] ∧ coalesce rs = []) ∨
    ∃ cur rest, (∀ r, r ∈ cur :: rest ↔ r ∈ rs) ∧ (cur :: rest).Pairwise StartsBefore ∧
      coalesce rs = coalesceFrom cur rest := by
  have hs := pairwise_insertionSort StartsBefore rs
  have hp := perm_insertionSort StartsBefore rs
  unfold coalesce
  cases h : rs.insertionSort StartsBefore with
  | nil =>
    rw [h] at hp
    exact Or.inl ⟨hp.symm.eq_nil,rfl⟩
  | cons cur rest =>
    rw [h] at hs hp
    exact Or.inr ⟨cur,rest,fun r => hp.mem_iff,hs,rfl⟩

theorem coalesce_apart (hlt : ∀ r ∈ rs, r.start < r.stop) (hn : ∀ r ∈ rs, r.stop ≤ n) :
    Apart n (coalesce rs) := by
  rcases coalesce_cases rs with ⟨-,hni⟩ | ⟨cur,rest,hmem,hs,heq⟩
  · rw [hni]
    exact ⟨Pairwise.nil,by simp,by simp⟩
  · rw [heq]
    exact (coalesceFrom_apart hs (fun r hr => hlt r ((hmem r).mp hr)) fun r hr => hn r ((hmem r).mp hr)).1

theorem coalesce_covers {r : Range} (hr : r ∈ rs) : Covered r (coalesce rs) := by
  rcases coalesce_cases rs with ⟨rfl,-⟩ | ⟨cur,rest,hmem,hs,heq⟩
  · simp at hr
  · rw [heq]
    exact coalesceFrom_covers hs ((hmem r).mpr hr)

theorem coalesce_ends (h : ∀ r ∈ rs, P r.start ∧ P r.stop) : ∀ r ∈ coalesce rs, P r.start ∧ P r.stop := by
  rcases coalesce_cases rs with ⟨-,hn⟩ | ⟨cur,rest,hmem,-,heq⟩
  · simp [hn]
  · rw [heq]
    exact coalesceFrom_ends fun r hr => h r ((hmem r).mp hr)

def Tiles : ℕ → ℕ → List Range → Prop
  | a, b, [] => a = b
  | a, b, r :: rs => r.start = a ∧ r.start ≤ r.stop ∧ Tiles r.stop b rs

variable {a b c : ℕ} {ss : List Range}

theorem Tiles.le (h : Tiles a b rs) : a ≤ b := by
  induction rs generalizing a with
  | nil => exact h.le
  | cons r rs ih =>
    obtain ⟨rfl,hle,hr⟩ := h
    exact hle.trans (ih hr)

theorem Tiles.append (h : Tiles a b rs) (h' : Tiles b c ss) : Tiles a c (rs ++ ss) := by
  induction rs generalizing a with
  | nil =>
    obtain rfl : a = b := h
    exact h'
  | cons r rs ih =>
    obtain ⟨hs,hle,hr⟩ := h
    exact ⟨hs,hle,ih hr⟩

theorem tiles_singleton (h : a ≤ b) : Tiles a b [⟨a,b⟩] := ⟨rfl,h,rfl⟩

theorem Tiles.stop_le (h : Tiles a b rs) {r : Range} (hr : r ∈ rs) : r.stop ≤ b := by
  induction rs generalizing a with
  | nil => cases hr
  | cons r' rs ih =>
    obtain ⟨-,-,hre⟩ := h
    rcases List.mem_cons.mp hr with rfl | hr
    · exact hre.le
    · exact ih hre hr

theorem Tiles.of_append {p : ℕ} (h : Tiles a c (rs ++ ss)) (h' : Tiles p b rs) (hlt : p < b) :
    a = p ∧ Tiles b c ss := by
  cases rs with
  | nil => exact absurd h' hlt.ne
  | cons r rs =>
    obtain ⟨rfl,-,h⟩ := h
    obtain ⟨rfl,-,h'⟩ := h'
    refine ⟨rfl,?_⟩
    clear hlt
    induction rs generalizing r with
    | nil => exact (h' : r.stop = b) ▸ h
    | cons s rs ih => exact ih s h.2.2 h'.2.2

end XetCore.Intervals
