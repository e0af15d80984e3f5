import Mathlib.Data.List.Basic
import Mathlib.Tactic

/-! # The first uses of keys

Entries that are added in order, where one whose key is known already is dropped. An entry
keeps its position when others are added.
-/
namespace XetCore.FirstUse
open List
variable {κ α : Type*} [BEq κ]
variable (ps : List (κ × α))
variable (seen : List (κ × α)) (p : κ × α)

def addFirst : List (κ × α) :=
  if (seen.lookup p.1).isSome then seen else seen ++ [p]

def firstUses (ps : List (κ × α)) : List (κ × α) := ps.foldl addFirst []

theorem firstUses_concat : firstUses (ps ++ [p]) = addFirst (firstUses ps) p := by
  rw [firstUses,foldl_concat]
  rfl

variable [LawfulBEq κ]

theorem lookup_addFirst (k : κ) : (addFirst seen p).lookup k = (seen ++ [p]).lookup k := by
  unfold addFirst
  split_ifs with hkn
  · rw [lookup_append]
    by_cases hk : k = p.1
    · obtain ⟨a,ha⟩ := Option.isSome_iff_exists.mp hkn
      rw [hk,ha]
      rfl
    · have hn : [p].lookup k = none := by simp [hk]
      rw [hn,Option.or_none]
  · rfl

theorem lookup_firstUses (k : κ) : (firstUses ps).lookup k = ps.lookup k := by
  induction ps using List.reverseRecOn with
  | nil => rfl
  | append_singleton ps p ih => rw [firstUses_concat,lookup_addFirst,lookup_append,lookup_append,ih]

omit [LawfulBEq κ] in
theorem prefix_addFirst : seen <+: addFirst seen p := by
  unfold addFirst
  split
  · exact List.prefix_refl _
  · exact List.prefix_append _ _

omit [LawfulBEq κ] in
theorem mem_of_mem_firstUses {ps : List (κ × α)} {p : κ × α} (h : p ∈ firstUses ps) : p ∈ ps := by
  induction ps using List.reverseRecOn with
  | nil => exact h
  | append_singleton ps q ih =>
    rw [firstUses_concat,addFirst] at h
    split at h
    · exact List.mem_append_left _ (ih h)
    · rw [List.mem_append] at h ⊢
      exact h.imp_left ih

theorem lookup_eq_none_iff_keys (k : κ) : ps.lookup k = none ↔ k ∉ ps.map (·.1) := by
  simp only [lookup_eq_none_iff,bne_iff_ne,mem_map,not_exists,not_and]
  exact forall₂_congr fun p _ => ne_comm

theorem nodup_keys_firstUses : ((firstUses ps).map (·.1)).Nodup := by
  induction ps using List.reverseRecOn with
  | nil => exact nodup_nil
  | append_singleton ps p ih =>
    rw [firstUses_concat,addFirst]
    split
    · exact ih
    · have hn : p.1 ∉ (firstUses ps).map (·.1) := by
        rwa [← lookup_eq_none_iff_keys,← Option.not_isSome_iff_eq_none]
      rw [map_append,map_singleton]
      exact nodup_append.mpr ⟨ih,nodup_singleton _,fun a ha b hb hab => hn (by simp_all)⟩

theorem lookup_of_getElem? {ps : List (κ × α)} {i : ℕ} {k : κ} {a : α}
    (h : (firstUses ps)[i]? = some (k,a)) :
    ps.lookup k = some a := by
  rw [← lookup_firstUses]
  have hn := nodup_keys_firstUses ps
  have hmem := mem_of_getElem? h
  generalize firstUses ps = seen at hn hmem
  induction seen with
  | nil => exact absurd hmem not_mem_nil
  | cons p seen ih =>
    rw [map_cons,nodup_cons] at hn
    obtain rfl | hmem := mem_cons.mp hmem
    · simp
    · have hne : k ≠ p.1 := fun heq => hn.1 (heq ▸ mem_map_of_mem hmem)
      rw [lookup_cons]
      simp only [beq_eq_false_iff_ne.mpr hne]
      exact ih hn.2 hmem

end XetCore.FirstUse
