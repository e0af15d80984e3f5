import XetCore.Merkle.StableCut

/-! # The flat layout of a hump

The array and the counts are one way to store a list of levels, each with a left
and a right part. The slices taken out again are these parts, so building and
merging can be read as functions on lists of levels.
-/
namespace XetCore.Merkle
open List
variable {H : Type}

abbrev Part (H : Type) := List (Node H) × List (Node H)

def partCounts (p : Part H) : ℕ × ℕ := (p.1.length,p.2.length)
variable (parts : List (Part H))

def lefts : List (Node H) := (parts.map Prod.fst).flatten
def rights : List (Node H) := (parts.map Prod.snd).flatten
def rightsDescending : List (Node H) := (parts.map Prod.snd).reverse.flatten
def levelNodes : List (List (Node H)) := parts.map (fun p => p.1 ++ p.2)

def layout (atStart atEnd : Bool) : MerkleHashSubtree H :=
  .ofNodes (lefts parts ++ rightsDescending parts) (parts.map partCounts) atStart atEnd

@[simp] theorem lefts_append (ps qs : List (Part H)) :
    lefts (ps ++ qs) = lefts ps ++ lefts qs := by simp [lefts]
@[simp] theorem rightsDescending_append (ps qs : List (Part H)) :
    rightsDescending (ps ++ qs) = rightsDescending qs ++ rightsDescending ps := by simp [rightsDescending]
@[simp] theorem lefts_cons (p : Part H) (ps : List (Part H)) :
    lefts (p :: ps) = p.1 ++ lefts ps := by simp [lefts]
@[simp] theorem rightsDescending_cons (p : Part H) (ps : List (Part H)) :
    rightsDescending (p :: ps) = rightsDescending ps ++ p.2 := by simp [rightsDescending]

theorem lefts_length (ps : List (Part H)) :
    (lefts ps).length = ((ps.map partCounts).map Prod.fst).sum := by
  induction ps with
  | nil => rfl
  | cons p ps ih => simp [partCounts,ih]

theorem rightsDescending_length (ps : List (Part H)) :
    (rightsDescending ps).length = ((ps.map partCounts).map Prod.snd).sum := by
  induction ps with
  | nil => rfl
  | cons p ps ih =>
    simp only [rightsDescending_cons,length_append,map_cons,sum_cons,partCounts]
    omega

theorem leftOffsetsFrom_getD (c : ℕ) (as bs : List (ℕ × ℕ)) (x : ℕ × ℕ) :
    (leftOffsetsFrom c (as ++ x :: bs)).getD as.length 0 = c + (as.map Prod.fst).sum := by
  induction as generalizing c with
  | nil => simp [leftOffsetsFrom]
  | cons a as ih =>
    have h := ih (c + a.1)
    simp only [cons_append,leftOffsetsFrom,length_cons,getD_cons_succ,map_cons,sum_cons]
    omega

theorem rightOffsetsFrom_getD (total c : ℕ) (as bs : List (ℕ × ℕ)) (x : ℕ × ℕ) :
    (rightOffsetsFrom total c (as ++ x :: bs)).getD as.length 0 = total +
      (c - (as.map Prod.snd).sum - x.2) := by
  induction as generalizing c with
  | nil => simp [rightOffsetsFrom]
  | cons a as ih =>
    have h := ih (c - a.2)
    simp only [cons_append,rightOffsetsFrom,length_cons,getD_cons_succ,map_cons,sum_cons]
    omega

section Slices
variable (ps qs : List (Part H)) (p : Part H) (s e : Bool)

theorem layout_counts_getD : (layout (ps ++ p :: qs) s e).levels.getD ps.length (0,0) = partCounts p := by
  simp [layout,MerkleHashSubtree.ofNodes]

theorem layout_leftOffset : (layout (ps ++ p :: qs) s e).leftOffsets.getD ps.length 0 =
    (lefts ps).length := by
  have h := leftOffsetsFrom_getD 0 (ps.map partCounts) (qs.map partCounts) (partCounts p)
  rwa [length_map,Nat.zero_add,← lefts_length,← map_cons,← map_append] at h

theorem layout_rightOffset : (layout (ps ++ p :: qs) s e).rightOffsets.getD ps.length 0 =
    (lefts (ps ++ p :: qs)).length + (rightsDescending qs).length := by
  have h := rightOffsetsFrom_getD (lefts (ps ++ p :: qs)).length (rightsDescending (ps ++ p :: qs)).length
    (ps.map partCounts) (qs.map partCounts) (partCounts p)
  rw [length_map,← rightsDescending_length,← map_cons,← map_append] at h
  have hs : (rightsDescending (ps ++ p :: qs)).length - (rightsDescending ps).length - (partCounts p).2 =
      (rightsDescending qs).length := by
    simp only [rightsDescending_append,rightsDescending_cons,length_append,partCounts]
    omega
  rw [hs,lefts_length,rightsDescending_length] at h
  rw [lefts_length]
  exact h

theorem layout_leftAt : (layout (ps ++ p :: qs) s e).leftAt ps.length = p.1 := by
  unfold MerkleHashSubtree.leftAt
  rw [layout_leftOffset,layout_counts_getD]
  simp [layout,MerkleHashSubtree.ofNodes,partCounts]

theorem layout_rightAt : (layout (ps ++ p :: qs) s e).rightAt ps.length = p.2 := by
  unfold MerkleHashSubtree.rightAt
  rw [layout_rightOffset,layout_counts_getD]
  simp only [layout,MerkleHashSubtree.ofNodes,partCounts]
  rw [← drop_drop,drop_left]
  simp

/-- The slices of a level, put together, are the level's nodes. -/
theorem layout_level (parts : List (Part H)) (i : ℕ) :
    (if i < (layout parts s e).numLevels then (layout parts s e).leftAt i else []) ++
      (if i < (layout parts s e).numLevels then (layout parts s e).rightAt i else []) =
      (levelNodes parts).getD i [] := by
  have hlen : (layout parts s e).numLevels = parts.length := by
    simp [MerkleHashSubtree.numLevels,layout,MerkleHashSubtree.ofNodes]
  rw [hlen]
  by_cases hi : i < parts.length
  · obtain ⟨ps,p,qs,rfl,rfl⟩ : ∃ ps p qs, parts = ps ++ p :: qs ∧ ps.length = i := by
      refine ⟨parts.take i,parts[i],parts.drop (i + 1),?_,?_⟩
      · rw [← drop_eq_getElem_cons,take_append_drop]
      · rw [length_take]
        omega
    rw [if_pos hi,if_pos hi,layout_leftAt,layout_rightAt]
    simp [levelNodes]
  · simp [levelNodes,show parts.length ≤ i by omega]

end Slices
end XetCore.Merkle
