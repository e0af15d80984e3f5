import XetCore.Merkle.AggregatedHash

/-! # Merkle hash subtrees

A contiguous range of chunk hashes is kept as a hump: at each level the nodes before the
first stable group boundary and those after the last complete group, in one flat array.
Two adjacent humps are merged level by level.
-/
namespace XetCore.Merkle
variable {H : Type} (K : NodeHasher H) (nodes : List (Node H))

def nextCutUnbounded : Option ℕ :=
  nodes.findIdx? (fun n => K.isNaturalCut n.1)

def prevCutUnbounded : Option ℕ :=
  (List.range nodes.length).reverse.find? (fun i => (nodes[i]?).any (fun n => K.isNaturalCut n.1))

def validGap (gap : ℕ) : Bool := decide (gap > minGroupSize) && decide (gap < maxGroupSize - 1)

def findStableStartLoop (nodes : List (Node H)) : ℕ → Option ℕ → Option ℕ → ℕ → Option ℕ
  | 0, _, _, _ => none
  | fuel + 1, prevPrevCut, prevCut, pos =>
    if pos < nodes.length then
      match nextCutUnbounded K (nodes.drop pos) with
      | none => none
      | some offset =>
        let cutPos := pos + offset
        match prevCut, prevPrevCut with
        | some pc, some ppc =>
          if validGap (cutPos - pc) && validGap (pc - ppc) then some (pc + 1)
          else findStableStartLoop nodes fuel prevCut (some cutPos) (cutPos + 1)
        | _, _ => findStableStartLoop nodes fuel prevCut (some cutPos) (cutPos + 1)
    else none

def findStableStart : Option ℕ :=
  if nodes.length < minGroupSize + 1 then none
  else findStableStartLoop K nodes nodes.length none none 0

def findStableEndLoop (nodes : List (Node H)) : ℕ → Option ℕ → Option ℕ → ℕ → Option ℕ
  | 0, _, _, _ => none
  | fuel + 1, nextNextCut, nextCut, pos =>
    if pos > 0 then
      match prevCutUnbounded K (nodes.take pos) with
      | none => none
      | some cutPos =>
        match nextCut, nextNextCut with
        | some nc, some nnc =>
          if validGap (nc - cutPos) && validGap (nnc - nc) then some (nc + 1)
          else findStableEndLoop nodes fuel nextCut (some cutPos) cutPos
        | _, _ => findStableEndLoop nodes fuel nextCut (some cutPos) cutPos
    else none

def findStableEnd : Option ℕ :=
  if nodes.length < minGroupSize + 1 then none
  else findStableEndLoop K nodes nodes.length none none nodes.length

/-- The number of prefix and suffix nodes that stay at this level, and the parents
of the groups between them. -/
def splitAndPromote (atStart atEnd : Bool) : ℕ × ℕ × List (Node H) :=
  if nodes.length ≤ 1 then (nodes.length,0,[])
  else
    match if atStart then some 0 else findStableStart K nodes with
    | none => (nodes.length,0,[])
    | some stableStart =>
      match if atEnd then some nodes.length
        else (findStableEnd K (nodes.drop stableStart)).map (stableStart + ·) with
      | none => (nodes.length,0,[])
      | some stableEnd =>
        if stableStart ≥ stableEnd then (nodes.length,0,[])
        else (stableStart,nodes.length - stableEnd,
          collapse K ((nodes.drop stableStart).take (stableEnd - stableStart)))

/-- The working buffers of building and merging; `carry` is what the last level promoted. -/
structure MergeBuffers (H : Type) where
  outLeftNodes : List (Node H) := []
  outRightNodes : List (Node H) := []
  levels : List (ℕ × ℕ) := []
  carry : List (Node H) := []
  allLeftsEmpty : Bool := true
  allRightsEmpty : Bool := true

def MergeBuffers.pushLevel (atStart atEnd : Bool) (full : List (Node H)) (b : MergeBuffers H) :
    MergeBuffers H :=
  let p := splitAndPromote K full (atStart && b.allLeftsEmpty) (atEnd && b.allRightsEmpty)
  { outLeftNodes := b.outLeftNodes ++ full.take p.1
    outRightNodes := b.outRightNodes ++ full.drop (full.length - p.2.1)
    levels := b.levels ++ [(p.1,p.2.1)]
    carry := p.2.2
    allLeftsEmpty := b.allLeftsEmpty && p.1 == 0
    allRightsEmpty := b.allRightsEmpty && p.2.1 == 0 }

def MergeBuffers.pushTop (b : MergeBuffers H) : MergeBuffers H :=
  { b with
    outLeftNodes := b.outLeftNodes ++ b.carry
    levels := b.levels ++ [(b.carry.length,0)]
    carry := [] }

/-- The rights leave the buffer in descending level order. -/
def collectRights (outRight : List (Node H)) : ℕ → List (ℕ × ℕ) → List (Node H)
  | _, [] => []
  | stop, (_,rc) :: ls => (outRight.drop (stop - rc)).take rc ++ collectRights outRight (stop - rc) ls

def MergeBuffers.flatNodes (b : MergeBuffers H) : List (Node H) :=
  b.outLeftNodes ++ collectRights b.outRightNodes b.outRightNodes.length b.levels.reverse

def buildHumpLoop (atStart atEnd : Bool) : ℕ → MergeBuffers H → MergeBuffers H
  | 0, b => b
  | fuel + 1, b =>
    let b := b.pushLevel K atStart atEnd b.carry
    if b.carry.isEmpty then b
    else if b.carry.length = 1 then b.pushTop
    else buildHumpLoop atStart atEnd fuel b

def buildHump (chunks : List (Node H)) (atStart atEnd : Bool) : List (Node H) × List (ℕ × ℕ) :=
  let b := buildHumpLoop K atStart atEnd (chunks.length + 1) { carry := chunks }
  (b.flatNodes,b.levels)

def leftOffsetsFrom : ℕ → List (ℕ × ℕ) → List ℕ
  | _, [] => []
  | cumulativeLeft, (lc,_) :: ls => cumulativeLeft :: leftOffsetsFrom (cumulativeLeft + lc) ls

def rightOffsetsFrom (totalLeft : ℕ) : ℕ → List (ℕ × ℕ) → List ℕ
  | _, [] => []
  | cumulativeRightAfter, (_,rc) :: ls =>
    (totalLeft + (cumulativeRightAfter - rc)) :: rightOffsetsFrom totalLeft (cumulativeRightAfter - rc) ls

def computeOffsets (levels : List (ℕ × ℕ)) : List ℕ × List ℕ :=
  (leftOffsetsFrom 0 levels,rightOffsetsFrom (levels.map Prod.fst).sum (levels.map Prod.snd).sum levels)

structure MerkleHashSubtree (H : Type) where
  nodes : List (Node H)
  levels : List (ℕ × ℕ)
  leftOffsets : List ℕ
  rightOffsets : List ℕ
  atStart : Bool
  atEnd : Bool

inductive CoreError where
  | invalidArguments
deriving Repr, DecidableEq

namespace MerkleHashSubtree

def ofNodes (nodes : List (Node H)) (levels : List (ℕ × ℕ)) (atStart atEnd : Bool) :
    MerkleHashSubtree H where
  nodes := nodes
  levels := levels
  leftOffsets := (computeOffsets levels).1
  rightOffsets := (computeOffsets levels).2
  atStart := atStart
  atEnd := atEnd

def fromChunks (atStart : Bool) (chunks : List (Node H)) (atEnd : Bool) : MerkleHashSubtree H :=
  ofNodes (buildHump K chunks atStart atEnd).1 (buildHump K chunks atStart atEnd).2 atStart atEnd

variable (t : MerkleHashSubtree H)

def numLevels : ℕ := t.levels.length
def isEmpty : Bool := t.nodes.isEmpty

def leftAt (level : ℕ) : List (Node H) :=
  (t.nodes.drop (t.leftOffsets.getD level 0)).take (t.levels.getD level (0,0)).1

def rightAt (level : ℕ) : List (Node H) :=
  (t.nodes.drop (t.rightOffsets.getD level 0)).take (t.levels.getD level (0,0)).2

variable (self other : MerkleHashSubtree H)

/-- The nodes of one level in both humps, with the carry between them. -/
def mergeLevelStep (b : MergeBuffers H) (level : ℕ) : MergeBuffers H :=
  let lrLeft := if level < self.numLevels then self.leftAt level else []
  let lrRight := if level < self.numLevels then self.rightAt level else []
  let rrLeft := if level < other.numLevels then other.leftAt level else []
  let rrRight := if level < other.numLevels then other.rightAt level else []
  b.pushLevel K self.atStart other.atEnd (lrLeft ++ lrRight ++ b.carry ++ rrLeft ++ rrRight)

def mergeCarryLoop (atStart atEnd : Bool) : ℕ → MergeBuffers H → MergeBuffers H
  | 0, b => b
  | fuel + 1, b =>
    if b.carry.isEmpty then b
    else if b.carry.length = 1 then mergeCarryLoop atStart atEnd fuel b.pushTop
    else mergeCarryLoop atStart atEnd fuel (b.pushLevel K atStart atEnd b.carry)

def trimLevels : ℕ → List (ℕ × ℕ) → List (ℕ × ℕ)
  | 0, levels => levels
  | fuel + 1, levels =>
    if levels.length > 1 ∧ levels.getLast? = some (0,0) then trimLevels fuel levels.dropLast else levels

def mergeIntoImpl : Except CoreError (MerkleHashSubtree H) :=
  if self.atEnd then .error .invalidArguments
  else if other.atStart then .error .invalidArguments
  else
    let maxLevels := max self.numLevels other.numLevels
    let b := (List.range maxLevels).foldl (mergeLevelStep K self other) {}
    let b := mergeCarryLoop K self.atStart other.atEnd b.carry.length b
    let b := { b with levels := trimLevels b.levels.length b.levels }
    .ok (ofNodes b.flatNodes b.levels self.atStart other.atEnd)

def mergeInto : Except CoreError (MerkleHashSubtree H) :=
  mergeIntoImpl K self other

def merge (ranges : List (MerkleHashSubtree H)) : Except CoreError (MerkleHashSubtree H) :=
  match ranges with
  | [] => .ok (fromChunks K true [] true)
  | [r] => .ok r
  | r :: rs => rs.foldlM (mergeIntoImpl K) r

def finalHash : Option H :=
  if !t.atStart || !t.atEnd then none
  else if t.nodes.isEmpty then some K.default
  else ((t.leftAt (t.levels.length - 1)).head?).map Prod.fst

end MerkleHashSubtree
end XetCore.Merkle
