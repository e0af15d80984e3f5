import XetCore.Merkle.SubtreeLayout

/-! # Building and merging on lists of levels

The buffers of the source are refined by two recursive functions. `mergeLevels`
runs through the levels that both humps have, `climb` adds levels while something
is carried. Building is merging a carry into two empty levels.
-/
namespace XetCore.Merkle
open StreamCut List
variable {H : Type} (K : NodeHasher H)
variable (nodes : List (Node H)) (s e : Bool) {b : MergeBuffers H} {parts : List (Part H)}

def levelPart (nodes : List (Node H)) (s e : Bool) : Part H :=
  (nodes.take (splitAndPromote K nodes s e).1,
    nodes.drop (nodes.length - (splitAndPromote K nodes s e).2.1))

def promoted (nodes : List (Node H)) (s e : Bool) : List (Node H) := (splitAndPromote K nodes s e).2.2

def climb (s e : Bool) : ℕ → List (Node H) → List (Part H)
  | 0, _ => []
  | fuel + 1, carry =>
    if carry.isEmpty then []
    else levelPart K carry s e ::
      climb (s && (levelPart K carry s e).1.isEmpty) (e && (levelPart K carry s e).2.isEmpty) fuel
        (promoted K carry s e)

def mergeLevels (s e : Bool) : List (Part H) → List (Node H) → List (Part H)
  | [], carry => climb K s e carry.length carry
  | (x,y) :: rest, carry =>
    levelPart K (x ++ carry ++ y) s e ::
      mergeLevels (s && (levelPart K (x ++ carry ++ y) s e).1.isEmpty)
        (e && (levelPart K (x ++ carry ++ y) s e).2.isEmpty) rest (promoted K (x ++ carry ++ y) s e)

theorem splitAndPromote_bounds :
    (splitAndPromote K nodes s e).1 ≤ nodes.length ∧
    (splitAndPromote K nodes s e).2.1 ≤ nodes.length := by
  unfold splitAndPromote
  split
  · exact ⟨le_rfl,Nat.zero_le _⟩
  · split
    · exact ⟨le_rfl,Nat.zero_le _⟩
    · rename_i m hm
      split
      · exact ⟨le_rfl,Nat.zero_le _⟩
      · split
        · exact ⟨le_rfl,Nat.zero_le _⟩
        · refine ⟨?_,Nat.sub_le _ _⟩
          cases s with
          | true =>
            simp only [↓reduceIte,Option.some.injEq] at hm
            omega
          | false =>
            obtain ⟨d,rfl,⟨c,e',ht⟩,_⟩ := findStableStart_some hm
            exact ht.hit_mid.lt_length

theorem promoted_length_lt {nodes : List (Node H)} (h : nodes ≠ []) (s e : Bool) :
    (promoted K nodes s e).length < nodes.length := by
  have hp := length_pos_iff.mpr h
  unfold promoted splitAndPromote
  split
  · simpa using hp
  · split
    · simpa using hp
    · split
      · simpa using hp
      · rename_i m _ _ k _
        split
        · simpa using hp
        · set mid := (nodes.drop m).take (k - m)
          have hm : mid.length ≤ nodes.length := by
            simp only [mid,length_take,length_drop]
            omega
          by_cases hl : 1 < mid.length
          · exact (collapse_length_lt K hl).trans_le hm
          · have hle : (collapse K mid).length ≤ 1 := by
              match mid, hl with
              | [], _ => simp
              | [x], _ => simp [collapse,mergePass]
              | x :: y :: zs, hl => simp at hl
            dsimp only
            omega

@[simp] theorem levelPart_fst_length :
    (levelPart K nodes s e).1.length = (splitAndPromote K nodes s e).1 := by
  have h := splitAndPromote_bounds K nodes s e
  simp only [levelPart,length_take]
  omega

@[simp] theorem levelPart_snd_length :
    (levelPart K nodes s e).2.length = (splitAndPromote K nodes s e).2.1 := by
  have h := splitAndPromote_bounds K nodes s e
  simp only [levelPart,length_drop]
  omega

@[simp] theorem climb_nil (fuel : ℕ) : climb K s e fuel [] = [] := by
  cases fuel <;> simp [climb]

theorem climb_stable {s e : Bool} {k m : ℕ} {carry : List (Node H)} (hk : carry.length ≤ k)
    (hm : carry.length ≤ m) : climb K s e k carry = climb K s e m carry := by
  induction k generalizing s e m carry with
  | zero =>
    have hc : carry = [] := length_eq_zero_iff.mp (by omega)
    simp [hc]
  | succ k ih =>
    by_cases hc : carry = []
    · simp [hc]
    · have hlt := promoted_length_lt K hc s e
      cases m with
      | zero => omega
      | succ m =>
        simp only [climb]
        rw [ih (m := m) (by omega) (by omega)]

structure Holds (b : MergeBuffers H) (parts : List (Part H)) : Prop where
  left_eq : b.outLeftNodes = lefts parts
  right_eq : b.outRightNodes = rights parts
  levels_eq : b.levels = parts.map partCounts

theorem holds_empty (carry : List (Node H)) :
    Holds { carry := carry } ([] : List (Part H)) := ⟨rfl,rfl,rfl⟩

variable {K}

theorem Holds.pushLevel (h : Holds b parts) (s e : Bool) (nodes : List (Node H)) :
    Holds (b.pushLevel K s e nodes)
      (parts ++ [levelPart K nodes (s && b.allLeftsEmpty) (e && b.allRightsEmpty)]) := by
  refine ⟨?_,?_,?_⟩
  · simp [MergeBuffers.pushLevel,h.left_eq,levelPart,lefts]
  · simp [MergeBuffers.pushLevel,h.right_eq,levelPart,rights]
  · simp [MergeBuffers.pushLevel,h.levels_eq,partCounts]

theorem Holds.pushTop (h : Holds b parts) : Holds b.pushTop (parts ++ [(b.carry,[])]) := by
  refine ⟨?_,?_,?_⟩
  · simp [MergeBuffers.pushTop,h.left_eq,lefts]
  · simp [MergeBuffers.pushTop,h.right_eq,rights]
  · simp [MergeBuffers.pushTop,h.levels_eq,partCounts]

theorem pushLevel_flags (nodes : List (Node H)) (b : MergeBuffers H) :
    (s && (b.pushLevel K s e nodes).allLeftsEmpty) = (s && b.allLeftsEmpty &&
      (levelPart K nodes (s && b.allLeftsEmpty) (e && b.allRightsEmpty)).1.isEmpty) ∧
    (e && (b.pushLevel K s e nodes).allRightsEmpty) = (e && b.allRightsEmpty &&
      (levelPart K nodes (s && b.allLeftsEmpty) (e && b.allRightsEmpty)).2.isEmpty) := by
  have he : ∀ l : List (Node H), l.isEmpty = (l.length == 0) := by
    intro l
    cases l <;> rfl
  simp [MergeBuffers.pushLevel,he,Bool.and_assoc]

theorem splitAndPromote_singleton (x : Node H) (s e : Bool) : splitAndPromote K [x] s e = (1,0,[]) := by
  simp [splitAndPromote]

theorem Holds.mergeCarryLoop (h : Holds b parts) (s e : Bool)
    (fuel : ℕ) : Holds (MerkleHashSubtree.mergeCarryLoop K s e fuel b)
      (parts ++ climb K (s && b.allLeftsEmpty) (e && b.allRightsEmpty) fuel b.carry) := by
  induction fuel generalizing b parts with
  | zero => simpa [MerkleHashSubtree.mergeCarryLoop,climb] using h
  | succ fuel ih =>
    unfold MerkleHashSubtree.mergeCarryLoop climb
    split
    · simpa using h
    · split_ifs with ho
      · obtain ⟨x,hx⟩ := length_eq_one_iff.mp ho
        have ht := ih h.pushTop
        simpa [levelPart,promoted,splitAndPromote_singleton,MergeBuffers.pushTop,hx] using ht
      · have ht := ih (h.pushLevel (K := K) s e b.carry)
        rwa [(pushLevel_flags s e b.carry b).1,(pushLevel_flags s e b.carry b).2,append_assoc] at ht

theorem buildHumpLoop_eq {fuel : ℕ}
    (hf : (b.pushLevel K s e b.carry).carry.length ≤ fuel) : buildHumpLoop K s e (fuel + 1) b =
      MerkleHashSubtree.mergeCarryLoop K s e fuel (b.pushLevel K s e b.carry) := by
  induction fuel generalizing b with
  | zero =>
    have hn := length_eq_zero_iff.mp (Nat.le_zero.mp hf)
    simp [buildHumpLoop,MerkleHashSubtree.mergeCarryLoop,hn]
  | succ fuel ih =>
    set b' := b.pushLevel K s e b.carry with hb
    have hu : buildHumpLoop K s e (fuel + 1 + 1) b = if b'.carry.isEmpty then b'
        else if b'.carry.length = 1 then b'.pushTop else buildHumpLoop K s e (fuel + 1) b' := rfl
    rw [hu,MerkleHashSubtree.mergeCarryLoop]
    by_cases hn : b'.carry = []
    · simp [hn]
    · simp only [List.isEmpty_iff,hn,↓reduceIte]
      split
      · cases fuel <;> simp [MerkleHashSubtree.mergeCarryLoop,MergeBuffers.pushTop]
      · refine ih (Nat.le_of_lt_succ ?_)
        exact (promoted_length_lt K hn _ _).trans_le hf

theorem collectRights_eq (parts : List (Part H)) (tail : List (Node H)) :
    collectRights (rights parts ++ tail) (rights parts).length (parts.map partCounts).reverse =
      rightsDescending parts := by
  induction parts using List.reverseRecOn generalizing tail with
  | nil => rfl
  | append_singleton ps p ih =>
    have hlen : (rights (ps ++ [p])).length - p.2.length = (rights ps).length := by
      simp [rights]
    have hr : rights (ps ++ [p]) = rights ps ++ p.2 := by simp [rights]
    simp only [map_append,map_cons,map_nil,reverse_append,reverse_cons,
      reverse_nil,nil_append,singleton_append,collectRights,partCounts,hlen]
    rw [hr,append_assoc,drop_left,take_left]
    rw [ih (p.2 ++ tail)]
    simp [rightsDescending]

theorem Holds.ofNodes_eq (h : Holds b parts) (s e : Bool) :
    MerkleHashSubtree.ofNodes b.flatNodes b.levels s e = layout parts s e := by
  have hr := collectRights_eq parts []
  rw [append_nil] at hr
  unfold MergeBuffers.flatNodes layout
  rw [h.left_eq,h.right_eq,h.levels_eq,hr]

theorem mergeLevels_eq (pairs : List (Part H)) (b : MergeBuffers H) (h : Holds b parts) :
    let b' := pairs.foldl (fun b p => b.pushLevel K s e (p.1 ++ b.carry ++ p.2)) b
    Holds (MerkleHashSubtree.mergeCarryLoop K s e b'.carry.length b')
      (parts ++ mergeLevels K (s && b.allLeftsEmpty) (e && b.allRightsEmpty) pairs b.carry) := by
  induction pairs generalizing b parts with
  | nil => exact h.mergeCarryLoop s e b.carry.length
  | cons p pairs ih =>
    obtain ⟨x,y⟩ := p
    have hi := ih _ (h.pushLevel (K := K) s e (x ++ b.carry ++ y))
    rwa [(pushLevel_flags s e _ b).1,(pushLevel_flags s e _ b).2,append_assoc parts] at hi

theorem promoted_length_le : (promoted K nodes s e).length ≤ nodes.length := by
  by_cases h : nodes = []
  · simp [h,promoted,splitAndPromote]
  · exact (promoted_length_lt K h s e).le

/-- Building a hump is merging the chunks into one empty level. -/
theorem fromChunks_eq (chunks : List (Node H)) :
    MerkleHashSubtree.fromChunks K s chunks e = layout (mergeLevels K s e [([],[])] chunks) s e := by
  have hlen : (MergeBuffers.pushLevel K s e chunks { carry := chunks }).carry.length ≤ chunks.length :=
    promoted_length_le _ _ _
  have hl := ((holds_empty chunks).pushLevel (K := K) s e chunks).mergeCarryLoop (K := K) s e
    chunks.length
  rw [(pushLevel_flags s e chunks _).1,(pushLevel_flags s e chunks _).2,climb_stable K hlen le_rfl] at hl
  have hb : Holds (buildHumpLoop K s e (chunks.length + 1) { carry := chunks })
      (mergeLevels K s e [([],[])] chunks) := by
    rw [buildHumpLoop_eq s e hlen]
    simpa [mergeLevels,MergeBuffers.pushLevel,promoted] using hl
  exact hb.ofNodes_eq s e

def zipLevels (xs ys : List (List (Node H))) : List (Part H) :=
  List.zipWithAll (fun x y => (x.getD [],y.getD [])) xs ys

theorem zipLevels_eq (xs ys : List (List (Node H))) : zipLevels xs ys =
    (List.range (max xs.length ys.length)).map (fun i => (xs.getD i [],ys.getD i [])) := by
  apply ext_getElem?
  intro i
  unfold zipLevels
  rw [getElem?_zipWithAll,getElem?_map]
  by_cases hx : i < xs.length
  · simp [hx]
  · by_cases hy : i < ys.length
    · simp [hy]
    · simp [Nat.le_of_not_lt hx,Nat.le_of_not_lt hy]

open MerkleHashSubtree

theorem trimLevels_eq (fuel : ℕ) (parts : List (Part H)) (hf : parts.length ≤ fuel) : ∃ kept k,
    parts = kept ++ List.replicate k ([],[]) ∧
    trimLevels fuel (parts.map partCounts) = kept.map partCounts ∧
      (1 < kept.length → kept.getLast? ≠ some ([],[])) ∧ (parts ≠ [] → kept ≠ []) := by
  induction fuel generalizing parts with
  | zero =>
    have hn := length_eq_zero_iff.mp (Nat.le_zero.mp hf)
    exact ⟨[],0,by simp [hn],by simp [hn,trimLevels],by simp,fun h => absurd hn h⟩
  | succ fuel ih =>
    by_cases ht : 1 < parts.length ∧ parts.getLast? = some ([],[])
    · obtain ⟨hlen,hla⟩ := ht
      obtain ⟨ps,rfl⟩ := getLast?_eq_some_iff.mp hla
      rw [length_append,length_singleton] at hlen hf
      obtain ⟨kept,k,hps,hk,hto,hne⟩ := ih ps (by omega)
      have hps' : ps ≠ [] := ne_nil_of_length_pos (by omega)
      refine ⟨kept,k + 1,?_,?_,hto,fun _ => hne hps'⟩
      · rw [replicate_succ',← append_assoc,← hps]
      · rw [← hk,trimLevels,if_pos]
        · simp
        · simpa [partCounts] using length_pos_iff.mpr hps'
    · refine ⟨parts,0,by simp,?_,fun h hl => ht ⟨h,hl⟩,id⟩
      rw [trimLevels,if_neg]
      rintro ⟨hlen,hla⟩
      rw [length_map] at hlen
      rw [getLast?_map,Option.map_eq_some_iff] at hla
      obtain ⟨⟨x,y⟩,hxy,hc⟩ := hla
      simp only [partCounts,Prod.mk.injEq,length_eq_zero_iff] at hc
      rw [hc.1,hc.2] at hxy
      exact ht ⟨hlen,hxy⟩

theorem Holds.trim (h : Holds b parts) : ∃ kept k, parts = kept ++ List.replicate k ([],[]) ∧
      Holds { b with levels := trimLevels b.levels.length b.levels } kept ∧
      (1 < kept.length → kept.getLast? ≠ some ([],[])) ∧ (parts ≠ [] → kept ≠ []) := by
  obtain ⟨kept,k,rfl,ht,hto,hne⟩ := trimLevels_eq parts.length parts le_rfl
  refine ⟨kept,k,rfl,⟨?_,?_,?_⟩,hto,hne⟩
  · simpa [lefts] using h.left_eq
  · simpa [rights] using h.right_eq
  · simpa [h.levels_eq] using ht

theorem mergeLevelStep_eq (ps qs : List (Part H)) (s e : Bool) (b : MergeBuffers H) (i : ℕ) :
    mergeLevelStep K (layout ps s false) (layout qs false e) b i =
      b.pushLevel K s e ((levelNodes ps).getD i [] ++ b.carry ++ (levelNodes qs).getD i []) := by
  have hp := layout_level s false ps i
  have hq := layout_level false e qs i
  unfold mergeLevelStep
  simp only [append_assoc,hq]
  rw [← append_assoc,hp]
  rfl

/-- Merging two humps is merging their levels and dropping the empty ones on top. -/
theorem mergeIntoImpl_eq (ps qs : List (Part H)) (s e : Bool) : ∃ kept k,
    mergeLevels K s e (zipLevels (levelNodes ps) (levelNodes qs)) [] = kept ++ List.replicate k ([],[]) ∧
      mergeIntoImpl K (layout ps s false) (layout qs false e) = .ok (layout kept s e) ∧
      (1 < kept.length → kept.getLast? ≠ some ([],[])) := by
  set pairs := zipLevels (levelNodes ps) (levelNodes qs) with hp
  have hf : (List.range (max (layout ps s false).numLevels (layout qs false e).numLevels)).foldl
      (mergeLevelStep K (layout ps s false) (layout qs false e)) {} =
      pairs.foldl (fun b p => b.pushLevel K s e (p.1 ++ b.carry ++ p.2)) {} := by
    have hlen : ∀ (parts : List (Part H)) (s e : Bool), (layout parts s e).numLevels =
      (levelNodes parts).length := by
      intro parts s e
      simp [numLevels,layout,ofNodes,levelNodes]
    rw [hp,zipLevels_eq,foldl_map,hlen,hlen]
    congr 1
    funext b i
    exact mergeLevelStep_eq ps qs s e b i
  have hm := mergeLevels_eq (K := K) s e pairs {} (holds_empty [])
  simp only [Bool.and_true,← hf] at hm
  obtain ⟨kept,k,hk,ht,hto,_⟩ := hm.trim
  refine ⟨kept,k,hk,?_,hto⟩
  rw [← ht.ofNodes_eq]
  rfl

end XetCore.Merkle
