import XetCore.Lib.Seam

/-! # Aggregated node hashes

A list of chunk nodes is collapsed pass by pass. Each pass replaces the groups of the list
by parent nodes, until a single node is left. The walk is the gated cutting of the library,
with the hashes that are natural cuts as its hits.
-/
namespace XetCore.Merkle
open StreamCut GatedCut List

abbrev Node (H : Type) := H × ℕ
abbrev minGroupSize : ℕ := 2
abbrev meanTreeBranchingFactor : ℕ := 4
abbrev maxGroupSize : ℕ := 2 * meanTreeBranchingFactor + 1

/-- The hash functions that the tree is built over. Natural cuts are the hashes
divisible by the branching factor; nothing below depends on which ones they are. -/
structure NodeHasher (H : Type) where
  isNaturalCut : H → Bool
  internalNodeHash : List (Node H) → H
  hmac : H → H → H
  default : H

variable {H : Type} (K : NodeHasher H)
variable {nodes : List (Node H)}

/-- The loop of `nextMergeCut` at index `i`, with the nodes from `i` on. -/
def nextMergeCutFrom (stop : ℕ) : ℕ → List (Node H) → ℕ
  | _, [] => stop
  | i, x :: xs =>
    if i < stop then if K.isNaturalCut x.1 then i + 1 else nextMergeCutFrom stop (i + 1) xs else stop

def nextMergeCut (nodes : List (Node H)) : ℕ :=
  if nodes.length ≤ 2 then nodes.length
  else nextMergeCutFrom K (min maxGroupSize nodes.length) 2 (nodes.drop 2)

def mergedHashOfSequence (nodes : List (Node H)) : Node H :=
  (K.internalNodeHash nodes,(nodes.map Prod.snd).sum)

/-- One pass over the nodes; `fuel` bounds the number of groups. -/
def mergePass : ℕ → List (Node H) → List (Node H)
  | 0, _ => []
  | fuel + 1, nodes =>
    if nodes.isEmpty then []
    else mergedHashOfSequence K (nodes.take (nextMergeCut K nodes)) ::
      mergePass fuel (nodes.drop (nextMergeCut K nodes))

def collapse (nodes : List (Node H)) : List (Node H) := mergePass K nodes.length nodes

/-- The passes of `aggregatedNodeHash`; `fuel` bounds their number. -/
def collapseAll : ℕ → List (Node H) → List (Node H)
  | 0, nodes => nodes
  | fuel + 1, nodes => if nodes.length > 1 then collapseAll fuel (collapse K nodes) else nodes

def aggregatedNodeHash (nodes : List (Node H)) : H :=
  if nodes.isEmpty then K.default
  else ((collapseAll K nodes.length nodes).head?.map Prod.fst).getD K.default

def xorbHash (nodes : List (Node H)) : H :=
  if nodes.isEmpty then K.default else aggregatedNodeHash K nodes

def fileHashWithSalt (nodes : List (Node H)) (salt : H) : H :=
  if nodes.isEmpty then K.default else K.hmac (aggregatedNodeHash K nodes) salt

/-- The zero salt is the all-zero hash, which is also the default hash. -/
def fileHash (nodes : List (Node H)) : H := fileHashWithSalt K nodes K.default

/-- Groups have at least three nodes when a natural cut ends them, and at most nine. -/
def groupGate : Gate where
  lo := minGroupSize + 1
  hi := maxGroupSize
  lo_pos := by decide
  lo_le := by decide

def naturalHit (n : Node H) : Bool := K.isNaturalCut n.1

abbrev groupRule : CutRule (Node H) := rule groupGate (naturalHit K)

@[simp] theorem groupGate_lo : groupGate.lo = 3 := rfl
@[simp] theorem groupGate_hi : groupGate.hi = 9 := rfl

theorem nextMergeCutFrom_eq_scan {i : ℕ} (hi : 2 ≤ i) (hlt : i < 9) (xs : List (Node H)) :
    nextMergeCutFrom K (min 9 (i + xs.length)) i xs = (scan groupGate (naturalHit K) i xs).getD
      (i + xs.length) := by
  induction xs generalizing i with
  | nil =>
    simp only [nextMergeCutFrom,scan,length_nil,Option.getD_none]
    omega
  | cons x xs ih =>
    have hs : i < min 9 (i + (x :: xs).length) := by
      simp only [length_cons]
      omega
    simp only [nextMergeCutFrom,if_pos hs,scan,groupGate_hi]
    cases hx : K.isNaturalCut x.1 with
    | true => simp [naturalHit,hx,show 3 ≤ i + 1 by omega]
    | false =>
      by_cases hm : i + 1 = 9
      · cases xs with
        | nil => simp [nextMergeCutFrom,hm]
        | cons y ys =>
          simp only [hm,nextMergeCutFrom,or_true,↓reduceIte,Bool.false_eq_true,Option.getD_some]
          rw [if_neg (by omega)]
          omega
      · have h := ih (i := i + 1) (by omega) (by omega)
        simp only [naturalHit,hx,hm,Bool.false_eq_true,and_false,length_cons]
        rw [show i + (xs.length + 1) = i + 1 + xs.length by omega]
        exact h

theorem nextMergeCut_eq (nodes : List (Node H)) :
    nextMergeCut K nodes = ((groupRule K).cut nodes).getD nodes.length := by
  unfold nextMergeCut
  split_ifs with hlen
  · cases h : (groupRule K).cut nodes with
    | none => rfl
    | some n =>
      have hb := scan_some_bounds groupGate (naturalHit K) h
      rw [groupGate_lo] at hb
      omega
  · match nodes, hlen with
    | [], hlen => simp at hlen
    | [a], hlen => simp at hlen
    | a :: b :: xs, _ =>
      have hs : scan groupGate (naturalHit K) 0 (a :: b :: xs) = scan groupGate (naturalHit K) 2 xs := by
        simp [scan]
      have h := nextMergeCutFrom_eq_scan K le_rfl (by decide) xs
      rw [rule_cut,hs,length_cons,length_cons,drop_succ_cons,drop_succ_cons,
        drop_zero,show xs.length + 1 + 1 = 2 + xs.length by omega]
      exact h

theorem mergePass_eq {fuel : ℕ} (hf : nodes.length ≤ fuel) :
    mergePass K fuel nodes = (pieces (groupRule K) nodes).map (mergedHashOfSequence K) := by
  induction fuel generalizing nodes with
  | zero =>
    have hn : nodes = [] := length_eq_zero_iff.mp (by omega)
    simp [hn,mergePass]
  | succ fuel ih =>
    cases hn : nodes with
    | nil => simp [mergePass]
    | cons x xs =>
      rw [← hn]
      have hne : nodes.isEmpty = false := by simp [hn]
      simp only [mergePass,hne,Bool.false_eq_true,↓reduceIte,nextMergeCut_eq]
      cases hc : (groupRule K).cut nodes with
      | none =>
        rw [pieces_of_none _ hc]
        rw [ih (by simp)]
        simp [hn]
      | some n =>
        have hp := (groupRule K).pos hc
        rw [pieces_of_some _ hc]
        simp only [Option.getD_some,map_cons]
        rw [ih (by rw [length_drop]; omega)]

theorem collapse_eq (nodes : List (Node H)) :
    collapse K nodes = (pieces (groupRule K) nodes).map (mergedHashOfSequence K) := mergePass_eq K le_rfl

@[simp] theorem collapse_nil : collapse K [] = [] := by simp [collapse_eq]

theorem collapse_append {xs : List (Node H)} (h : Closed (groupRule K) xs) (ys : List (Node H)) :
    collapse K (xs ++ ys) = collapse K xs ++ collapse K ys := by
  simp [collapse_eq,h.pieces_append]

theorem collapse_ne_nil (h : nodes ≠ []) : collapse K nodes ≠ [] := by
  intro he
  rw [collapse_eq,map_eq_nil_iff] at he
  have hf := pieces_flatten (groupRule K) nodes
  rw [he] at hf
  exact h (by simpa using hf.symm)

/-- Every group but the last has at least three nodes, so a pass halves the list. -/
theorem collapse_length_lt (h : 1 < nodes.length) : (collapse K nodes).length < nodes.length := by
  have hle : ∀ l : List (Node H), (collapse K l).length ≤ l.length := by
    intro l
    rw [collapse_eq,length_map]
    induction l using split_induction (groupRule K) with
    | stop l hc =>
      rw [pieces_of_none _ hc]
      split_ifs with hne
      · simp
      · have := length_pos_iff.mpr hne
        simp only [length_singleton]
        omega
    | step l n hc ih =>
      have hp := (groupRule K).pos hc
      have hl := (groupRule K).le_length hc
      rw [pieces_of_some _ hc,length_cons]
      rw [length_drop] at ih
      omega
  cases hc : (groupRule K).cut nodes with
  | none =>
    rw [collapse_eq,pieces_of_none _ hc,if_neg (by rintro rfl; simp at h)]
    simpa using h
  | some n =>
    have hb := (scan_some_bounds groupGate (naturalHit K) hc).2.2
    have hd := hle (nodes.drop n)
    rw [collapse_eq,pieces_of_some _ hc,map_cons,length_cons,← collapse_eq]
    rw [length_drop] at hd
    rw [groupGate_lo] at hb
    omega

theorem collapseAll_stable {k m : ℕ} (hk : nodes.length ≤ k) (hm : nodes.length ≤ m) :
    collapseAll K k nodes = collapseAll K m nodes := by
  induction k generalizing m nodes with
  | zero =>
    cases m with
    | zero => rfl
    | succ m => rw [collapseAll,collapseAll,if_neg (by omega)]
  | succ k ih =>
    by_cases h : nodes.length > 1
    · cases m with
      | zero => omega
      | succ m =>
        have hlt := collapse_length_lt K h
        simp only [collapseAll,if_pos h]
        exact ih (by omega) (by omega)
    · cases m with
      | zero => rw [collapseAll,collapseAll,if_neg h]
      | succ m => rw [collapseAll,collapseAll,if_neg h,if_neg h]

/-- A further pass does not change the aggregated hash. -/
theorem aggregatedNodeHash_collapse (h : 1 < nodes.length) :
    aggregatedNodeHash K (collapse K nodes) = aggregatedNodeHash K nodes := by
  have hne : nodes ≠ [] := by
    rintro rfl
    simp at h
  have hlt := collapse_length_lt K h
  obtain ⟨k,hk⟩ : ∃ k, nodes.length = k + 1 := ⟨nodes.length - 1,by omega⟩
  have hc : collapseAll K nodes.length nodes = collapseAll K (collapse K nodes).length
    (collapse K nodes) := by
    rw [hk,collapseAll,if_pos h]
    exact collapseAll_stable K (by omega) le_rfl
  unfold aggregatedNodeHash
  rw [if_neg (by simpa using collapse_ne_nil K hne),if_neg (by simpa using hne),hc]

@[simp] theorem aggregatedNodeHash_singleton (x : Node H) : aggregatedNodeHash K [x] = x.1 := by
  simp [aggregatedNodeHash,collapseAll]

end XetCore.Merkle
