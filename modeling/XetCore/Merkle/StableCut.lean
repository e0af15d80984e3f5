import XetCore.Merkle.Subtree

/-! # The stable cut searches find the first and the last seam

Both searches visit the natural cuts one after another and keep the last two.
The loop invariant says which cuts were visited and that no three of them gave a
seam so far.
-/
namespace XetCore.Merkle
open StreamCut GatedCut Seam List
variable {H : Type} (K : NodeHasher H) {nodes : List (Node H)}

abbrev CutAt (nodes : List (Node H)) (i : ℕ) : Prop := HitAt (naturalHit K) nodes i
abbrev SeamTriple (nodes : List (Node H)) (c d e : ℕ) : Prop :=
  Triple groupGate (naturalHit K) nodes c d e
abbrev SeamFree (nodes : List (Node H)) : Prop := NoTriple groupGate (naturalHit K) nodes

theorem validGap_iff (d : ℕ) : validGap d = true ↔ ValidGap groupGate d := by
  simp only [validGap,ValidGap,groupGate_lo,groupGate_hi,Bool.and_eq_true,decide_eq_true_eq,minGroupSize,
    maxGroupSize,meanTreeBranchingFactor]
  omega

theorem nextCutUnbounded_some {pos offset : ℕ} (h : nextCutUnbounded K (nodes.drop pos) = some offset) :
    CutAt K nodes (pos + offset) ∧ ∀ i, pos ≤ i → i < pos + offset → ¬CutAt K nodes i := by
  obtain ⟨hlt,hh,hno⟩ := findIdx?_eq_some_iff_getElem.mp h
  constructor
  · rw [CutAt,← hitAt_drop]
    exact ⟨_,getElem?_eq_getElem hlt,hh⟩
  · intro i hi hj hc
    obtain ⟨k,rfl⟩ : ∃ k, i = pos + k := ⟨i - pos,by omega⟩
    rw [CutAt,← hitAt_drop] at hc
    obtain ⟨x,hx,hxh⟩ := hc
    obtain ⟨hk,rfl⟩ := List.getElem?_eq_some_iff.mp hx
    exact hno k (by omega) hxh

theorem nextCutUnbounded_none {pos : ℕ}
    (h : nextCutUnbounded K (nodes.drop pos) = none) : ∀ i, pos ≤ i → ¬CutAt K nodes i := by
  intro i hi hc
  obtain ⟨k,rfl⟩ : ∃ k, i = pos + k := ⟨i - pos,by omega⟩
  rw [CutAt,← hitAt_drop] at hc
  obtain ⟨x,hx,hxh⟩ := hc
  have hno := findIdx?_eq_none_iff.mp h x (mem_of_getElem? hx)
  simp only [naturalHit] at hxh
  simp [hxh] at hno

theorem any_cut_iff {pos i : ℕ} (hi : i < (nodes.take pos).length) :
    (nodes.take pos)[i]?.any (fun n => K.isNaturalCut n.1) = true ↔ CutAt K nodes i := by
  have hip : i < pos := by
    rw [length_take] at hi
    omega
  rw [CutAt,← hitAt_take (naturalHit K) hip,HitAt]
  cases h : (nodes.take pos)[i]? with
  | none => simp
  | some x => simp [naturalHit]

theorem lt_length_take {i pos : ℕ} (hc : CutAt K nodes i) (hi : i < pos) :
    i < (nodes.take pos).length := by
  have := hc.lt_length
  rw [length_take]
  omega

theorem prevCutUnbounded_some {pos cutPos : ℕ} (h : prevCutUnbounded K (nodes.take pos) = some cutPos) :
    CutAt K nodes cutPos ∧ cutPos < pos ∧ ∀ i, cutPos < i → i < pos → ¬CutAt K nodes i := by
  obtain ⟨ha,j,hj,hp,hno⟩ := find?_eq_some_iff_getElem.mp h
  simp only [length_reverse,length_range,getElem_reverse,getElem_range] at hj hp hno
  have hlen := length_take_le pos nodes
  refine ⟨(any_cut_iff K (by omega)).mp ha,by omega,fun i hi hlt hc => ?_⟩
  have hil := lt_length_take K hc hlt
  -- the range runs downwards, so everything above the reported index was rejected
  have hn := hno ((nodes.take pos).length - 1 - i) (by omega)
  rw [Nat.sub_sub_self (by omega),(any_cut_iff K hil).mpr hc] at hn
  cases hn

theorem prevCutUnbounded_none {pos : ℕ}
    (h : prevCutUnbounded K (nodes.take pos) = none) : ∀ i < pos, ¬CutAt K nodes i := by
  intro i hi hc
  have hil := lt_length_take K hc hi
  have hno := find?_eq_none.mp h i (by simpa using hil)
  exact hno ((any_cut_iff K hil).mpr hc)

variable {K} {m : ℕ} {M R : List (Node H)} {fuel pos : ℕ} {v : List ℕ} {c d e : ℕ}

abbrev GoodGaps (c d e : ℕ) : Prop := ValidGap groupGate (d - c) ∧ ValidGap groupGate (e - d)

theorem seamTriple_iff : SeamTriple K nodes c d e ↔ Successive (· < ·) (CutAt K nodes) c d e ∧
    GoodGaps c d e :=
  ⟨fun h => ⟨⟨h.hit_left,h.hit_mid,h.hit_right,h.lt_left,h.lt_right,h.quiet_left,h.quiet_right⟩,
    h.gap_left,h.gap_right⟩,
    fun ⟨h,hl,hr⟩ => ⟨h.hit_first,h.hit_mid,h.hit_last,h.lt_first,h.lt_last,h.quiet_first,
      h.quiet_last,hl,hr⟩⟩

theorem seamTriple_iff_flip : SeamTriple K nodes c d e ↔ Successive (· > ·) (CutAt K nodes) e d c ∧
    GoodGaps c d e :=
  seamTriple_iff.trans (and_congr_left' ⟨Successive.flip,Successive.flip⟩)

/-- The search ends behind the middle of a seam, or there is none. -/
def Finds (K : NodeHasher H) (nodes : List (Node H)) (P : ℕ → Prop) : Option ℕ → Prop
  | none => SeamFree K nodes
  | some m => ∃ d, m = d + 1 ∧ P d

theorem findStableStartLoop_spec (hfu : nodes.length ≤ pos + fuel)
    (h : Searching (· < ·) (CutAt K nodes) GoodGaps v (· < pos)) :
    Finds K nodes (IsFirst groupGate (naturalHit K) nodes)
      (findStableStartLoop K nodes fuel v[1]? v[0]? pos) := by
  have hf (hno : ∀ i, pos ≤ i → ¬CutAt K nodes i) : SeamFree K nodes := fun c d e ht =>
    h.free c d e (seamTriple_iff.mp ht).1 (seamTriple_iff.mp ht).2
      (not_le.mp fun hle => hno e hle ht.hit_right)
  induction fuel generalizing v pos with
  | zero => exact hf fun i hi hc => by have := hc.lt_length; omega
  | succ fuel ih =>
    unfold findStableStartLoop
    split
    · cases hn : nextCutUnbounded K (nodes.drop pos) with
      | none => exact hf (nextCutUnbounded_none K hn)
      | some offset =>
        obtain ⟨hcu,hno⟩ := nextCutUnbounded_some K hn
        have hse : ∀ i, CutAt K nodes i → (i < pos ↔ i < pos + offset) := fun i hi =>
          ⟨fun hlt => by omega,fun hlt => not_le.mp fun hle => hno i hle hlt hi⟩
        have hne (hb : ∀ d c ws, v = d :: c :: ws → ¬GoodGaps c d (pos + offset)) :
            Finds K nodes (IsFirst groupGate (naturalHit K) nodes)
              (findStableStartLoop K nodes fuel v[0]? (some (pos + offset)) (pos + offset + 1)) := by
          have hin := h.next hse hcu (fun i => Nat.lt_succ_iff_lt_or_eq) hb
          exact ih (by omega) hin fun hno' c d e ht =>
            hin.free c d e (seamTriple_iff.mp ht).1 (seamTriple_iff.mp ht).2
            (not_le.mp fun hle => hno' e hle ht.hit_right)
        rcases v with _ | ⟨d,_ | ⟨c,ws⟩⟩
        · exact hne nofun
        · exact hne nofun
        · dsimp only [getElem?_cons_zero,getElem?_cons_succ]
          split_ifs with hga
          · simp only [Bool.and_eq_true,validGap_iff] at hga
            obtain ⟨hs,hfi⟩ := h.found hse rfl hcu
            refine ⟨d,rfl,⟨c,_,seamTriple_iff.mpr ⟨hs,hga.symm⟩⟩,fun c' d' e' ht => ?_⟩
            have := hfi c' d' e' (seamTriple_iff.mp ht).1 (seamTriple_iff.mp ht).2
            omega
          · simp only [Bool.and_eq_true,validGap_iff] at hga
            refine hne fun d' c' ws' hvs hg => hga ?_
            cases hvs
            exact hg.symm
    · exact hf fun i hi hc => by have := hc.lt_length; omega

theorem findStableStart_spec (nodes : List (Node H)) :
    Finds K nodes (IsFirst groupGate (naturalHit K) nodes) (findStableStart K nodes) := by
  unfold findStableStart
  split_ifs with hlen
  · exact noTriple_of_length_le (Nat.lt_succ_iff.mp hlen)
  · exact findStableStartLoop_spec (v := []) (by omega)
      ⟨fun i hi => absurd hi (Nat.not_lt_zero i),fun _ _ e _ _ => by omega⟩

theorem findStableEndLoop_spec (hfu : pos ≤ fuel)
    (h : Searching (· > ·) (CutAt K nodes) (fun e d c => GoodGaps c d e) v (pos ≤ ·)) :
    Finds K nodes (IsLast groupGate (naturalHit K) nodes)
      (findStableEndLoop K nodes fuel v[1]? v[0]? pos) := by
  have hf (hno : ∀ i < pos, ¬CutAt K nodes i) : SeamFree K nodes := fun c d e ht =>
    h.free e d c (seamTriple_iff_flip.mp ht).1 (seamTriple_iff_flip.mp ht).2
      (not_lt.mp fun hlt => hno c hlt ht.hit_left)
  induction fuel generalizing v pos with
  | zero => exact hf fun i hi => by omega
  | succ fuel ih =>
    unfold findStableEndLoop
    split
    · cases hn : prevCutUnbounded K (nodes.take pos) with
      | none => exact hf (prevCutUnbounded_none K hn)
      | some cutPos =>
        obtain ⟨hc,hlt,hno⟩ := prevCutUnbounded_some K hn
        have hse : ∀ i, CutAt K nodes i → (pos ≤ i ↔ i > cutPos) := fun i hi =>
          ⟨fun hle => by omega,fun hgt => not_lt.mp fun hlt' => hno i hgt hlt' hi⟩
        have hne (hb : ∀ d e ws, v = d :: e :: ws → ¬GoodGaps cutPos d e) :
            Finds K nodes (IsLast groupGate (naturalHit K) nodes)
              (findStableEndLoop K nodes fuel v[0]? (some cutPos) cutPos) := by
          have hin : Searching (· > ·) (CutAt K nodes) (fun e d c => GoodGaps c d e) (cutPos :: v)
            (cutPos ≤ ·) :=
            h.next hse hc (fun i => by omega) hb
          exact ih (by omega) hin fun hno' c d e ht => hin.free e d c (seamTriple_iff_flip.mp ht).1
            (seamTriple_iff_flip.mp ht).2 (not_lt.mp fun hlt => hno' c hlt ht.hit_left)
        rcases v with _ | ⟨d,_ | ⟨e,ws⟩⟩
        · exact hne nofun
        · exact hne nofun
        · dsimp only [getElem?_cons_zero,getElem?_cons_succ]
          split_ifs with hga
          · simp only [Bool.and_eq_true,validGap_iff] at hga
            obtain ⟨hs,hl⟩ := h.found hse rfl hc
            refine ⟨d,rfl,⟨_,e,seamTriple_iff_flip.mpr ⟨hs,hga⟩⟩,fun c' d' e' ht => ?_⟩
            have := hl e' d' c' (seamTriple_iff_flip.mp ht).1 (seamTriple_iff_flip.mp ht).2
            omega
          · simp only [Bool.and_eq_true,validGap_iff] at hga
            refine hne fun d' e' ws' hvs hg => hga ?_
            cases hvs
            exact hg
    · exact hf fun i hi => by omega

theorem findStableEnd_spec (nodes : List (Node H)) :
    Finds K nodes (IsLast groupGate (naturalHit K) nodes) (findStableEnd K nodes) := by
  unfold findStableEnd
  split_ifs with hlen
  · exact noTriple_of_length_le (Nat.lt_succ_iff.mp hlen)
  · exact findStableEndLoop_spec (v := []) le_rfl ⟨fun i hi hc => absurd hc.lt_length (not_lt.mpr hi),
      fun _ _ c ht _ => not_le.mpr ht.hit_last.lt_length⟩

section Results
variable {P : ℕ → Prop} {f : Option ℕ}

theorem Finds.eq_none_iff (h : Finds K nodes P f) (hP : ∀ d, P d → ∃ c e, SeamTriple K nodes c d e) :
    f = none ↔ SeamFree K nodes := by
  cases f with
  | none => exact ⟨fun _ => h,fun _ => rfl⟩
  | some m =>
    obtain ⟨d,-,hd⟩ := h
    obtain ⟨c,e,ht⟩ := hP d hd
    exact ⟨fun hm => (nomatch hm),fun hf => absurd ht (hf c d e)⟩

theorem findStableStart_eq_none_iff : findStableStart K nodes = none ↔ SeamFree K nodes :=
  (findStableStart_spec nodes).eq_none_iff fun _ h => h.triple

theorem findStableEnd_eq_none_iff : findStableEnd K nodes = none ↔ SeamFree K nodes :=
  (findStableEnd_spec nodes).eq_none_iff fun _ h => h.triple

theorem findStableStart_some (h : findStableStart K nodes = some m) :
    ∃ d, m = d + 1 ∧ IsFirst groupGate (naturalHit K) nodes d := by
  have hs := findStableStart_spec (K := K) nodes
  rwa [h] at hs

theorem findStableEnd_some (h : findStableEnd K nodes = some m) :
    ∃ d, m = d + 1 ∧ IsLast groupGate (naturalHit K) nodes d := by
  have hs := findStableEnd_spec (K := K) nodes
  rwa [h] at hs

theorem Finds.eq_some (h : Finds K nodes P f) (hd : ∃ c e, SeamTriple K nodes c d e)
    (hu : ∀ d', P d' → d' = d) : f = some (d + 1) := by
  cases f with
  | none =>
    obtain ⟨c,e,ht⟩ := hd
    exact absurd ht (h c d e)
  | some m =>
    obtain ⟨d',rfl,hd'⟩ := h
    rw [hu d' hd']

theorem findStableStart_eq (h : IsFirst groupGate (naturalHit K) nodes d) :
    findStableStart K nodes = some (d + 1) := by
  obtain ⟨c,e,ht⟩ := h.triple
  refine (findStableStart_spec nodes).eq_some h.triple fun d' hd' => ?_
  obtain ⟨c',e',ht'⟩ := hd'.triple
  exact le_antisymm (hd'.least c d e ht) (h.least c' d' e' ht')

theorem findStableEnd_eq (h : IsLast groupGate (naturalHit K) nodes d) :
    findStableEnd K nodes = some (d + 1) := by
  obtain ⟨c,e,ht⟩ := h.triple
  refine (findStableEnd_spec nodes).eq_some h.triple fun d' hd' => ?_
  obtain ⟨c',e',ht'⟩ := hd'.triple
  exact le_antisymm (h.greatest c' d' e' ht') (hd'.greatest c d e ht)

end Results

theorem findStableStart_append (h : findStableStart K nodes = some m)
    (more : List (Node H)) : findStableStart K (nodes ++ more) = some m := by
  obtain ⟨d,rfl,hd⟩ := findStableStart_some h
  exact findStableStart_eq (hd.append more)

theorem findStableEnd_append (h : findStableEnd K nodes = some m)
    (before : List (Node H)) : findStableEnd K (before ++ nodes) = some (before.length + m) := by
  obtain ⟨d,rfl,hd⟩ := findStableEnd_some h
  exact findStableEnd_eq (hd.append before)

/-- What is left on both sides of the promoted nodes meets in a seam that both searches find. -/
theorem findStable_join {L N : List (Node H)} (hs : findStableStart K (L ++ N) = some L.length)
    (he : findStableEnd K (M ++ R) = some M.length) :
    findStableStart K (L ++ R) = some L.length ∧ findStableEnd K (L ++ R) = some L.length := by
  obtain ⟨d,hd,hfi⟩ := findStableStart_some hs
  obtain ⟨d',hd',hla⟩ := findStableEnd_some he
  rw [show d = L.length - 1 by omega] at hfi
  rw [show d' = M.length - 1 by omega] at hla
  obtain ⟨hf,hl⟩ := isFirst_isLast_join (ne_nil_of_length_pos (by omega))
    (ne_nil_of_length_pos (by omega)) hfi hla
  rw [findStableStart_eq hf,findStableEnd_eq hl,show L.length - 1 + 1 = L.length by omega]
  exact ⟨rfl,rfl⟩

theorem closed_of_findStableStart {L N : List (Node H)} (h : findStableStart K (L ++ N) = some L.length)
    (A : List (Node H)) : Closed (groupRule K) (A ++ L) := by
  obtain ⟨d,hd,⟨c,e,ht⟩,_⟩ := findStableStart_some h
  have hc := ht.closed_take A
  rwa [← hd,take_left] at hc

theorem closed_of_findStableEnd (h : findStableEnd K (M ++ R) = some M.length) :
    Closed (groupRule K) M := by
  obtain ⟨d,hd,⟨c,e,ht⟩,_⟩ := findStableEnd_some h
  have hc := ht.closed_take []
  rwa [← hd,take_left] at hc

theorem seamFree_of_findStableEnd (h : findStableEnd K (M ++ R) = some M.length) : SeamFree K R := by
  obtain ⟨d,hd,hl⟩ := findStableEnd_some h
  have hno := hl.noTriple_drop
  rw [drop_append_of_le_length (by omega)] at hno
  exact hno.of_append_left

theorem findStableStart_lt_length (h : findStableStart K nodes = some m) : 2 ≤ m ∧ m < nodes.length := by
  obtain ⟨d,rfl,⟨c,e,ht⟩,_⟩ := findStableStart_some h
  have := ht.lt_left
  have := ht.lt_right
  have := ht.hit_right.lt_length
  omega

theorem findStableEnd_lt_length (h : findStableEnd K nodes = some m) : 2 ≤ m ∧ m + 2 ≤ nodes.length := by
  obtain ⟨d,rfl,⟨c,e,ht⟩,_⟩ := findStableEnd_some h
  have := ht.lt_left
  have hg := ht.gap_right.1
  have := ht.hit_right.lt_length
  rw [groupGate_lo] at hg
  omega

/-- The groups that repeated `nextMergeCut` makes; `fuel` bounds their number. -/
def groupsFrom (K : NodeHasher H) : ℕ → List (Node H) → List (List (Node H))
  | 0, _ => []
  | fuel + 1, nodes =>
    if nodes.isEmpty then []
    else nodes.take (nextMergeCut K nodes) :: groupsFrom K fuel (nodes.drop (nextMergeCut K nodes))

def groups (K : NodeHasher H) (nodes : List (Node H)) : List (List (Node H)) :=
  groupsFrom K nodes.length nodes

theorem groupsFrom_eq (hf : nodes.length ≤ fuel) :
    groupsFrom K fuel nodes = pieces (groupRule K) nodes := by
  induction fuel generalizing nodes with
  | zero => rw [length_eq_zero_iff.mp (Nat.le_zero.mp hf),pieces_nil,groupsFrom]
  | succ fuel ih =>
    rw [groupsFrom,nextMergeCut_eq]
    split_ifs with he
    · rw [isEmpty_iff.mp he,pieces_nil]
    · cases hc : (groupRule K).cut nodes with
      | none =>
        rw [pieces_of_none _ hc,if_neg (by simpa using ‹¬nodes.isEmpty›),Option.getD_none,
          take_length,drop_length,ih (Nat.zero_le _),pieces_nil]
      | some n =>
        have hp := (groupRule K).pos hc
        rw [pieces_of_some _ hc,Option.getD_some,ih (by rw [length_drop]; omega)]

theorem groups_append {L : List (Node H)} (h : Closed (groupRule K) L) (N : List (Node H)) :
    groups K (L ++ N) = groups K L ++ groups K N := by
  simp only [groups,groupsFrom_eq le_rfl]
  exact Closed.pieces_append _ h N

theorem groups_flatten (L : List (Node H)) : (groups K L).flatten = L := by
  rw [groups,groupsFrom_eq le_rfl,pieces_flatten]

/-- At a stable start the groups end whatever stands in front, and so the groups behind it are
always the same. At a stable end they end as well, and what follows does not change the groups in
front of it. -/
theorem groups_at_stable_cuts (K : NodeHasher H) (s : List (Node H)) :
    (∀ i, findStableStart K s = some i → ∃ after, ∀ p, ∃ before,
      before.flatten.length = p.length + i ∧ groups K (p ++ s) = before ++ after) ∧
    ∀ j, findStableEnd K s = some j → ∀ p, ∃ before, before.flatten.length = p.length + j ∧
      ∀ q, ∃ after, groups K (p ++ s ++ q) = before ++ after := by
  constructor
  · intro i hi
    obtain ⟨-,hlt⟩ := findStableStart_lt_length hi
    have hlen : (s.take i).length = i := length_take_of_le hlt.le
    refine ⟨groups K (s.drop i),fun p => ⟨groups K (p ++ s.take i),?_,?_⟩⟩
    · rw [groups_flatten,length_append,hlen]
    · rw [← groups_append (closed_of_findStableStart (N := s.drop i)
        (by rw [take_append_drop,hlen,hi]) p),append_assoc,take_append_drop]
  · intro j hj p
    obtain ⟨-,hlt⟩ := findStableEnd_lt_length hj
    have hlen : (s.take j).length = j := length_take_of_le (by omega)
    refine ⟨groups K (p ++ s.take j),?_,fun q => ⟨groups K (s.drop j ++ q),?_⟩⟩
    · rw [groups_flatten,length_append,hlen]
    · have he := findStableEnd_append hj p
      have hc : Closed (groupRule K) (p ++ s.take j) := closed_of_findStableEnd (R := s.drop j) (by
        rw [append_assoc,take_append_drop,he,length_append,hlen])
      rw [← groups_append hc,append_assoc,append_assoc,← append_assoc (s.take j),take_append_drop]

abbrev quartersHasher : NodeHasher ℕ := ⟨fun n => n % 4 == 0,fun _ => 0,fun a _ => a,0⟩

theorem groups_at_stable_cuts_seven :
    (∃ after, ∀ p, ∃ before, before.flatten.length = p.length + 4 ∧
      groups quartersHasher (p ++ [4,1,1,4,1,1,4].map fun n => (n,1)) = before ++ after) ∧
    ∀ p, ∃ before, before.flatten.length = p.length + 4 ∧ ∀ q, ∃ after,
      groups quartersHasher (p ++ ([4,1,1,4,1,1,4].map fun n => (n,1)) ++ q) = before ++ after :=
  (groups_at_stable_cuts quartersHasher ([4,1,1,4,1,1,4].map fun n => (n,1))).imp
    (fun h => h 4 (by decide)) (fun h => h 4 (by decide))

end XetCore.Merkle
