import XetCore.Merkle.MergePieces

/-! # Merging in any order

Adjacent subtrees can be merged along any tree. The result represents all chunks as long as the
seams of the operands that are open on both sides are found: in a left operand by the search from
the start, in a right one by the search from the end.
-/
namespace XetCore.Merkle
open StreamCut MerkleHashSubtree List
variable {H : Type} {K : NodeHasher H} {W : List (Node H)} {s e : Bool} {t : MerkleHashSubtree H}

inductive MergeTree (H : Type) where
  | leaf (chunks : List (Node H))
  | node (left right : MergeTree H)

namespace MergeTree

def chunks : MergeTree H → List (Node H)
  | leaf c => c
  | node l r => l.chunks ++ r.chunks

def eval (K : NodeHasher H) : Bool → Bool → MergeTree H → Except CoreError (MerkleHashSubtree H)
  | s, e, leaf c => .ok (fromChunks K s c e)
  | s, e, node l r => do
    let a ← eval K s false l
    let b ← eval K false e r
    mergeInto K a b

end MergeTree

def levelsOf (t : MerkleHashSubtree H) : List (List (Node H)) :=
  (List.range t.numLevels).map fun i => t.leftAt i ++ t.rightAt i

/-- Where the promoted nodes of a merged level belong, if the left one of the merged parts has
these levels above it. -/
def seamOf (K : NodeHasher H) (above : List (List (Node H))) (X : List (Node H)) : Option ℕ :=
  if Occupied above then findStableStart K X else findStableEnd K X

/-- The search finds the seam of every level that has promoted nodes. -/
def SeamsFound (K : NodeHasher H) (find : List (Node H) → Option ℕ) :
    List (List (Node H)) → List (List (Node H)) → Prop
  | _, [] => True
  | As, X :: Xs => (Occupied Xs → find X = seamOf K As.tail X) ∧ SeamsFound K find As.tail Xs

/-- The search finds the seams of an operand that is open on both sides. In a hump that was built of
chunks both searches find them. -/
def SeamsShown (K : NodeHasher H) (find : List (Node H) → Option ℕ) : MergeTree H → Prop
  | .leaf _ => True
  | .node l r => ∀ a, l.eval K false false = .ok a → ∀ t, (l.node r).eval K false false = .ok t →
    SeamsFound K find (levelsOf a) (levelsOf t)

def OperandsShown (K : NodeHasher H) : Bool → Bool → MergeTree H → Prop
  | _, _, .leaf _ => True
  | s, e, .node l r => OperandsShown K s false l ∧ OperandsShown K false e r ∧
    (s = false → SeamsShown K (findStableStart K) l) ∧ (e = false → SeamsShown K (findStableEnd K) r)

section Decidable
variable [DecidableEq H] (find : List (Node H) → Option ℕ)

instance decidableSeamsFound : ∀ As Xs, Decidable (SeamsFound K find As Xs)
  | _, [] => isTrue trivial
  | As, _ :: Xs =>
    have := decidableSeamsFound As.tail Xs
    inferInstanceAs (Decidable (_ ∧ _))

instance decidableForallOk {ε α : Type} (x : Except ε α) (P : α → Prop) [DecidablePred P] :
    Decidable (∀ a, x = .ok a → P a) :=
  match x with
  | .error _ => isTrue nofun
  | .ok a => decidable_of_iff (P a) ⟨fun h _ heq => Except.ok.inj heq ▸ h,fun h => h a rfl⟩

instance : ∀ tree, Decidable (SeamsShown K find tree)
  | .leaf _ => isTrue trivial
  | .node l r => inferInstanceAs (Decidable (∀ a, l.eval K false false = .ok a → ∀ t,
      (l.node r).eval K false false = .ok t → SeamsFound K find (levelsOf a) (levelsOf t)))

instance decidableOperandsShown : (s e : Bool) → (tree : MergeTree H) →
    Decidable (OperandsShown K s e tree)
  | _, _, .leaf _ => isTrue trivial
  | s, e, .node l r =>
    have := decidableOperandsShown s false l
    have := decidableOperandsShown false e r
    inferInstanceAs (Decidable (_ ∧ _ ∧ _ ∧ _))

end Decidable

theorem levelsOf_layout (parts : List (Part H)) (s e : Bool) :
    levelsOf (layout parts s e) = levelNodes parts := by
  have hlen : (layout parts s e).numLevels = (levelNodes parts).length := by
    simp [numLevels,layout,ofNodes,levelNodes]
  apply ext_getElem?
  intro i
  unfold levelsOf
  rw [getElem?_map]
  by_cases hi : i < (levelNodes parts).length
  · have hl := layout_level s e parts i
    rw [if_pos (hlen ▸ hi),if_pos (hlen ▸ hi),getD_eq_getElem?_getD,getElem?_eq_getElem hi] at hl
    rw [getElem?_range (hlen ▸ hi),Option.map_some,hl,getElem?_eq_getElem hi]
    rfl
  · rw [getElem?_eq_none (by simpa [hlen] using hi),getElem?_eq_none (by simpa using hi)]
    rfl

theorem TowerOver.shown {find : List (Node H) → Option ℕ} {As Xs : List (List (Node H))}
    (h : TowerOver K (OpenLevel K) As W Xs) (hX : SeamsFound K find As Xs) :
    Tower K (ShownLevel K find) W Xs := by
  induction h with
  | nil => exact .nil
  | @level L G R As Xs hp ht ih =>
    have hto : Tower K (fun _ _ _ => True) (collapse K G) Xs := ht.tower fun _ _ _ _ _ => trivial
    refine .level ⟨hp.closed,fun hG => ?_⟩ (ih hX.2)
    rw [hX.1 (hto.exists_ne_nil (collapse_ne_nil K hG)),seamOf]
    split_ifs with hl
    · exact hp.start_eq hl
    · exact hp.end_eq hl hG

/-- What the result of merging along a tree can be used for. -/
def Fits (K : NodeHasher H) (s e : Bool) (tree : MergeTree H) (t : MerkleHashSubtree H) : Prop :=
  match s, e with
  | true, true => Represents K WholeLevel true true t tree.chunks
  | true, false => Represents K (StartLevel K) true false t tree.chunks
  | false, true => Represents K (EndLevel K) false true t tree.chunks
  | false, false =>
    (SeamsShown K (findStableStart K) tree →
      Represents K (ShownLevel K (findStableStart K)) false false t tree.chunks) ∧
    (SeamsShown K (findStableEnd K) tree →
      Represents K (ShownLevel K (findStableEnd K)) false false t tree.chunks)

theorem fits_leaf (s e : Bool) (c : List (Node H)) : Fits K s e (.leaf c) (fromChunks K s c e) := by
  have hc := represents_fromChunks (K := K) s e c
  cases s <;> cases e
  · exact ⟨fun _ => hc.mono fun _ _ _ h => ⟨h.closed,h.start_eq⟩,
      fun _ => hc.mono fun _ _ _ h => ⟨h.closed,h.end_eq⟩⟩
  all_goals exact hc

theorem fits_node {l r : MergeTree H} {a b : MerkleHashSubtree H}
    (hl : l.eval K s false = .ok a) (hr : r.eval K false e = .ok b)
    (ha : Fits K s false l a) (hb : Fits K false e r b)
    (hsl : s = false → SeamsShown K (findStableStart K) l)
    (hsr : e = false → SeamsShown K (findStableEnd K) r) :
    ∃ t, (l.node r).eval K s e = .ok t ∧ Fits K s e (l.node r) t := by
  have hev : (l.node r).eval K s e = mergeIntoImpl K a b := by
    simp only [MergeTree.eval,hl,hr]
    rfl
  cases s <;> cases e
  · obtain ⟨ps,rfl,hps⟩ := ha.1 (hsl rfl)
    obtain ⟨qs,rfl,hqs⟩ := hb.2 (hsr rfl)
    obtain ⟨parts,hok,ht,hrep⟩ := RepresentedBy.mergeIntoImpl_eq open_levelMerge ⟨rfl,rfl⟩ hps hqs
    have hfound : ∀ {find}, SeamsShown K find (l.node r) →
        SeamsFound K find (levelNodes ps) (levelNodes parts) := fun h => by
      have hf := h _ hl _ (hev.trans hok)
      rwa [levelsOf_layout,levelsOf_layout] at hf
    exact ⟨_,hev.trans hok,fun h => ⟨parts,rfl,hrep _ (ht.shown (hfound h))⟩,
      fun h => ⟨parts,rfl,hrep _ (ht.shown (hfound h))⟩⟩
  · rw [hev]
    exact Represents.merge end_levelMerge ⟨rfl,rfl⟩ (ha.1 (hsl rfl)) hb
  · rw [hev]
    exact Represents.merge start_levelMerge ⟨rfl,.inl rfl⟩ ha (hb.2 (hsr rfl))
  · rw [hev]
    exact Represents.merge whole_levelMerge (.inl ⟨rfl,rfl⟩) ha hb

theorem MergeTree.eval_fits {tree : MergeTree H} (h : OperandsShown K s e tree) :
    ∃ t, tree.eval K s e = .ok t ∧ Fits K s e tree t := by
  induction tree generalizing s e with
  | leaf c => exact ⟨_,rfl,fits_leaf s e c⟩
  | node l r ihl ihr =>
    obtain ⟨hl,hr,hsl,hsr⟩ := h
    obtain ⟨a,hla,ha⟩ := ihl hl
    obtain ⟨b,hrb,hb⟩ := ihr hr
    exact fits_node hla hrb ha hb hsl hsr

/-- Merging in any order gives the hash of the whole file, as long as the seams of the operands that
are open on both sides are found. -/
theorem eval_finalHash (K : NodeHasher H) (tree : MergeTree H) (h : OperandsShown K true true tree) :
    ∃ t, tree.eval K true true = .ok t ∧
      finalHash K t = some (aggregatedNodeHash K tree.chunks) := by
  obtain ⟨t,hok,ht⟩ := MergeTree.eval_fits h
  exact ⟨t,hok,Represents.finalHash ht⟩

/-- Hashes that are natural cuts when four divides them, combined in order. -/
def orderedHasher : NodeHasher ℕ where
  isNaturalCut h := h % 4 == 0
  internalNodeHash nodes := nodes.foldl (fun acc n => 5 * acc + n.1) 1
  hmac _ h := h
  default := 0

def periodicChunks (first count : ℕ) : List (Node ℕ) :=
  (List.range count).map fun i =>
    (if (first + i) % 3 = 0 then 4 * (first + i) else 4 * (first + i) + 1,1)

/-- Two middle pieces merged first, as the left operand of the next merge or as the right one. The
search from the end does not find the seam of the first two. -/
theorem eval_finalHash_periodic : (∃ t, MergeTree.eval orderedHasher true true (.node (.leaf [])
        (.node (.node (.leaf (periodicChunks 0 13)) (.leaf (periodicChunks 13 3))) (.leaf []))) =
          .ok t ∧
      finalHash orderedHasher t = some (aggregatedNodeHash orderedHasher
        ([] ++ (periodicChunks 0 13 ++ periodicChunks 13 3 ++ [])))) ∧
    ∃ t, MergeTree.eval orderedHasher true true (.node (.node (.leaf (periodicChunks 0 2))
        (.node (.leaf (periodicChunks 0 13)) (.leaf (periodicChunks 13 15)))) (.leaf [(1,1)])) =
          .ok t ∧
      finalHash orderedHasher t = some (aggregatedNodeHash orderedHasher
        (periodicChunks 0 2 ++ (periodicChunks 0 13 ++ periodicChunks 13 15) ++ [(1,1)])) :=
  ⟨eval_finalHash orderedHasher _ (by decide +kernel),
    eval_finalHash orderedHasher _ (by decide +kernel)⟩

/-- Two middle pieces merged first: the second one moves the seam that is found from the right, and
the nodes promoted before end up behind nodes that follow them in the file. -/
theorem eval_finalHash_fails : ¬∃ t, MergeTree.eval orderedHasher true true (.node (.node (.leaf [])
      (.node (.leaf (periodicChunks 0 13)) (.leaf (periodicChunks 13 3)))) (.leaf [])) = .ok t ∧
    finalHash orderedHasher t = some (aggregatedNodeHash orderedHasher
      ([] ++ (periodicChunks 0 13 ++ periodicChunks 13 3) ++ [])) := by
  rintro ⟨t,hok,hhash⟩
  have hbind : (MergeTree.eval orderedHasher true true (.node (.node (.leaf [])
      (.node (.leaf (periodicChunks 0 13)) (.leaf (periodicChunks 13 3)))) (.leaf []))).toOption.bind
      (finalHash orderedHasher) = some 627560 := by
    rw [hok]
    exact hhash.trans (by decide +kernel)
  revert hbind
  decide +kernel

end XetCore.Merkle
