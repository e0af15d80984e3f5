import Mathlib.Tactic

/-! # Searching sorted tables

A table is a list of keys with values, sorted by the keys, where a key may occur several
times. A search keeps a window of places that are still open, and each comparison moves
one end of the window.
-/
namespace XetCore.SortedTables
open List
variable {κ ν : Type} [LinearOrder κ] {k : κ} {e : κ × ν} {t : List (κ × ν)}

def SortedKeys (t : List (κ × ν)) : Prop := t.Pairwise fun a b => a.1 ≤ b.1

def hits (k : κ) (t : List (κ × ν)) : List ν := (t.filter fun e => e.1 = k).map Prod.snd

def run (k : κ) (t : List (κ × ν)) : List ν := (t.takeWhile fun e => e.1 = k).map Prod.snd

@[simp] theorem hits_nil : hits k ([] : List (κ × ν)) = [] := rfl

theorem hits_append (t u : List (κ × ν)) : hits k (t ++ u) = hits k t ++ hits k u := by
  rw [hits,filter_append,map_append]
  rfl

theorem hits_eq_nil (h : ∀ e ∈ t, e.1 ≠ k) : hits k t = [] := by
  rw [hits,filter_eq_nil_iff.mpr fun e he => by simpa using h e he,map_nil]

theorem hits_cons_self (h : e.1 = k) : hits k (e :: t) = e.2 :: hits k t := by
  simp [hits,h]

theorem hits_cons_ne (h : e.1 ≠ k) : hits k (e :: t) = hits k t := by
  simp [hits,h]

theorem run_cons_self (h : e.1 = k) : run k (e :: t) = e.2 :: run k t := by
  simp [run,h]

theorem run_cons_ne (h : e.1 ≠ k) : run k (e :: t) = [] := by
  simp [run,h]

section
variable (hs : SortedKeys t)
include hs

theorem hits_eq_run (h : ∀ e ∈ t, k ≤ e.1) : hits k t = run k t := by
  induction t with
  | nil => rfl
  | cons e t ih =>
    obtain ⟨he,ht⟩ := pairwise_cons.mp hs
    by_cases hk : e.1 = k
    · rw [hits_cons_self hk,run_cons_self hk,ih ht fun e' he' => h e' (mem_cons_of_mem e he')]
    · have hlt : k < e.1 := lt_of_le_of_ne (h e mem_cons_self) (Ne.symm hk)
      rw [hits_cons_ne hk,run_cons_ne hk,hits_eq_nil fun e' he' => (hlt.trans_le (he e' he')).ne']

theorem SortedKeys.drop (n : ℕ) : SortedKeys (t.drop n) := hs.sublist (drop_sublist n t)

theorem SortedKeys.take (n : ℕ) : SortedKeys (t.take n) := hs.sublist (take_sublist n t)

theorem SortedKeys.le_of_mem_drop {i : ℕ} {e' : κ × ν} (h : t[i]? = some e) (h' : e' ∈ t.drop i) :
    e.1 ≤ e'.1 := by
  obtain ⟨hlt,he⟩ := List.getElem?_eq_some_iff.mp h
  rw [drop_eq_getElem_cons hlt,he] at h'
  rcases mem_cons.mp h' with rfl | h'
  · exact le_rfl
  · have hp := hs.drop i
    rw [drop_eq_getElem_cons hlt,he] at hp
    exact (pairwise_cons.mp hp).1 e' h'

theorem SortedKeys.le_of_mem_take {i : ℕ} {e' : κ × ν} (h : t[i]? = some e)
    (h' : e' ∈ t.take (i + 1)) : e'.1 ≤ e.1 := by
  obtain ⟨hlt,he⟩ := List.getElem?_eq_some_iff.mp h
  rw [take_succ_eq_append_getElem hlt,he] at h'
  rcases mem_append.mp h' with h' | h'
  · have hp := hs
    rw [← take_append_drop i t,drop_eq_getElem_cons hlt,he] at hp
    exact (pairwise_append.mp hp).2.2 e' h' e mem_cons_self
  · rw [mem_singleton.mp h']

end

/-- A reordering of a list that was mapped is the map of a reordering. -/
theorem exists_perm_map {α β : Type} {g : α → β} {l : List β} {as : List α} (h : l.Perm (as.map g)) :
    ∃ bs : List α, bs.Perm as ∧ l = bs.map g := by
  induction l generalizing as with
  | nil =>
    have hn := map_eq_nil_iff.mp (nil_perm.mp h)
    exact ⟨[],by rw [hn],rfl⟩
  | cons b l ih =>
    obtain ⟨a,ha,rfl⟩ := mem_map.mp (h.subset mem_cons_self)
    obtain ⟨as₁,as₂,rfl⟩ := append_of_mem ha
    rw [map_append,map_cons] at h
    have hr := (h.trans perm_middle).cons_inv
    rw [← map_append] at hr
    obtain ⟨bs,hp,rfl⟩ := ih hr
    exact ⟨a :: bs,(hp.cons a).trans perm_middle.symm,rfl⟩

theorem hits_eq_places (k : κ) (t : List (κ × ν)) :
    hits k t = (t.zipIdx.filter fun p => p.1.1 = k).map fun p => p.1.2 := by
  have hf : t = t.zipIdx.map Prod.fst := by rw [zipIdx_map_fst]
  conv_lhs => rw [hits,hf,filter_map,map_map]
  rfl

/-- Some values of a key, in some order, stand at different places of the table. -/
theorem places_of_perm {values : List ν} (h : values.Perm (hits k t)) (room : ℕ) : ∃ places :
    List ℕ, places.Nodup ∧
      places.map (fun i => t[i]?) = (values.take room).map (fun v => some (k,v)) ∧
      (values.length ≤ room → ∀ i v, t[i]? = some (k,v) → i ∈ places) := by
  rw [hits_eq_places] at h
  obtain ⟨ps,hps,rfl⟩ := exists_perm_map h
  have hn : (ps.map Prod.snd).Nodup := by
    have ha : (t.zipIdx.map Prod.snd).Nodup := by
      rw [zipIdx_map_snd]
      exact nodup_range'
    exact (hps.map Prod.snd).nodup_iff.mpr (ha.sublist (filter_sublist.map Prod.snd))
  have he : ∀ p ∈ ps, t[p.2]? = some (k,p.1.2) := by
    intro p hp
    obtain ⟨hmem,hk⟩ := mem_filter.mp (hps.subset hp)
    rw [mem_zipIdx_iff_getElem?.mp hmem,← of_decide_eq_true hk]
  refine ⟨(ps.map Prod.snd).take room,hn.sublist (take_sublist _ _),?_,fun hr i v hi => ?_⟩
  · rw [← map_take,← map_take,map_map,map_map]
    exact map_congr_left fun p hp => he p (mem_of_mem_take hp)
  · rw [length_map] at hr
    rw [take_of_length_le (by rwa [length_map]),mem_map]
    refine ⟨((k,v),i),hps.symm.subset (mem_filter.mpr ⟨mem_zipIdx_iff_getElem?.mpr hi,?_⟩),rfl⟩
    exact decide_eq_true rfl

/-- The open places are those from `lo` to `hi - 2`, and the others are settled. -/
structure Searched (k : κ) (t : List (κ × ν)) (lo hi : ℕ) (found : List ν) : Prop where
  lo_lt : lo < hi
  hi_le : hi ≤ t.length + 1
  below : hits k (t.take lo) = []
  above : found.Perm (hits k (t.drop (hi - 1)))

namespace Searched
variable {lo hi p : ℕ} {found : List ν}

theorem hits_drop (hp : 1 ≤ p) (hle : p ≤ hi) :
    hits k (t.drop (p - 1)) = hits k ((t.drop (p - 1)).take (hi - p)) ++ hits k (t.drop (hi - 1)) := by
  conv_lhs => rw [← take_append_drop (hi - p) (t.drop (p - 1)),hits_append]
  rw [drop_drop,show p - 1 + (hi - p) = hi - 1 by omega]

section
variable (h : Searched k t lo hi found)
include h

theorem less (hs : SortedKeys t) (hlo : lo < p) (hhi : p < hi)
    (he : t[p - 1]? = some e) (hk : k < e.1) : Searched k t lo p found where
  lo_lt := hlo
  hi_le := hhi.le.trans h.hi_le
  below := h.below
  above := by
    have hn := hits_eq_nil fun e' he' => (hk.trans_le (hs.le_of_mem_drop he he')).ne'
    have hsp := hits_drop (k := k) (t := t) (show 1 ≤ p by omega) hhi.le
    rw [hn,eq_comm,append_eq_nil_iff] at hsp
    have hf := h.above
    rw [hsp.2] at hf
    rwa [hn]

theorem greater (hs : SortedKeys t) (hlo : lo < p) (hhi : p < hi)
    (he : t[p - 1]? = some e) (hk : e.1 < k) : Searched k t p hi found where
  lo_lt := hhi
  hi_le := h.hi_le
  below := by
    rw [show p = p - 1 + 1 by omega]
    exact hits_eq_nil fun e' he' => ((hs.le_of_mem_take he he').trans_lt hk).ne
  above := h.above

theorem equal (hs : SortedKeys t) (hlo : lo < p) (hhi : p < hi) (he : t[p - 1]? = some e) (hk : e.1 = k) :
    Searched k t lo p (found ++ run k ((t.drop (p - 1)).take (hi - p))) where
  lo_lt := hlo
  hi_le := hhi.le.trans h.hi_le
  below := h.below
  above := by
    have hge : ∀ e' ∈ (t.drop (p - 1)).take (hi - p), k ≤ e'.1 := fun e' he' =>
      hk ▸ hs.le_of_mem_drop he (mem_of_mem_take he')
    rw [hits_drop (show 1 ≤ p by omega) hhi.le,hits_eq_run ((hs.drop _).take _) hge]
    exact perm_append_comm.trans (h.above.append_left _)

theorem finish : (found ++ hits k ((t.drop lo).take (hi - 1 - lo))).Perm (hits k t) := by
  have hlt := h.lo_lt
  have hs : hits k t = hits k ((t.drop lo).take (hi - 1 - lo)) ++ hits k (t.drop (hi - 1)) := by
    conv_lhs => rw [← take_append_drop lo t,hits_append,h.below,nil_append,
      ← take_append_drop (hi - 1 - lo) (t.drop lo),hits_append]
    rw [drop_drop,show lo + (hi - 1 - lo) = hi - 1 by omega]
  rw [hs]
  exact perm_append_comm.trans (h.above.append_left _)

end

end Searched
end XetCore.SortedTables
