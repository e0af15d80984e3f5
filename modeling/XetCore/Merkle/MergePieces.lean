import XetCore.Merkle.SubtreeMerge

/-! # The hash of merged subtrees

A subtree represents a list of chunks when its levels are those of a tower over
the chunks. Building represents the chunks, merging represents the concatenation,
and the final hash of a represented file is its aggregated node hash.
-/
namespace XetCore.Merkle
open StreamCut MerkleHashSubtree List
variable {H : Type} {K : NodeHasher H}
variable {C : List (Node H)} {P : LevelProp H} {W : List (Node H)}
  {Xs : List (List (Node H))} {s e : Bool} {t : MerkleHashSubtree H} {chunks : List (Node H)}

/-- The levels of a hump that was built of chunks. -/
def levelInv (K : NodeHasher H) : Bool → Bool → LevelProp H
  | false, false => VisibleLevel K
  | true, false => StartLevel K
  | false, true => EndLevel K
  | true, true => WholeLevel

structure RepresentedBy (K : NodeHasher H) (P : LevelProp H)
    (e : Bool) (chunks : List (Node H)) (parts : List (Part H)) : Prop where
  tower : Tower K P chunks (levelNodes parts)
  rights_nil : e = true → ∀ p ∈ parts, p.2 = []
  top : 1 < parts.length → parts.getLast? ≠ some ([],[])

def Represents (K : NodeHasher H) (P : LevelProp H)
    (s e : Bool) (t : MerkleHashSubtree H) (chunks : List (Node H)) : Prop :=
  ∃ parts, t = layout parts s e ∧ RepresentedBy K P e chunks parts

theorem Represents.mono {Q : LevelProp H}
    (hPQ : ∀ L G R, P L G R → Q L G R) (h : Represents K P s e t chunks) :
    Represents K Q s e t chunks := by
  obtain ⟨parts,ht,h⟩ := h
  exact ⟨parts,ht,h.tower.mono hPQ,h.rights_nil,h.top⟩

theorem levelPart_right_nil (nodes : List (Node H)) (s : Bool) : (levelPart K nodes s true).2 = [] := by
  rcases split_cases s true nodes with ⟨L,M,R,hp⟩ | hk
  · rw [hp.part_eq]
    exact hp.right_nil rfl
  · rw [hk.part_eq]

theorem climb_rights_nil {fuel : ℕ} : ∀ p ∈ climb K s true fuel C, p.2 = [] := by
  induction fuel generalizing s C with
  | zero => simp [climb]
  | succ fuel ih =>
    unfold climb
    split
    · simp
    · intro p hp
      rcases mem_cons.mp hp with rfl | hp
      · exact levelPart_right_nil C s
      · rw [levelPart_right_nil] at hp
        exact ih p hp

theorem mergeLevels_rights_nil {pairs : List (Part H)} :
    ∀ p ∈ mergeLevels K s true pairs C, p.2 = [] := by
  induction pairs generalizing s C with
  | nil => exact climb_rights_nil
  | cons q pairs ih =>
    intro p hp
    rcases mem_cons.mp hp with rfl | hp
    · exact levelPart_right_nil _ s
    · rw [levelPart_right_nil] at hp
      exact ih p hp

theorem climb_getLast {fuel : ℕ} (hf : C.length ≤ fuel) :
    (climb K s e fuel C).getLast? ≠ some ([],[]) := by
  induction fuel generalizing s e C with
  | zero => simp [climb]
  | succ fuel ih =>
    unfold climb
    split_ifs with hC
    · simp
    · have hne : C ≠ [] := by simpa using hC
      have hlt := promoted_length_lt K hne s e
      rcases split_cases (K := K) s e C with ⟨L,M,R,hp⟩ | hk
      · have hpn := collapse_ne_nil K hp.ne_nil
        rw [← hp.promoted_eq] at hpn
        have hi := ih (s := s && (levelPart K C s e).1.isEmpty) (e := e && (levelPart K C s e).2.isEmpty)
          (show (promoted K C s e).length ≤ fuel by omega)
        have hcl : climb K (s && (levelPart K C s e).1.isEmpty) (e && (levelPart K C s e).2.isEmpty) fuel
            (promoted K C s e) ≠ [] := by
          cases fuel with
          | zero =>
            have := length_pos_iff.mpr hpn
            omega
          | succ fuel => simp [climb,hpn]
        rwa [getLast?_cons_of_ne_nil hcl]
      · rw [hk.promoted_eq,climb_nil,hk.part_eq]
        simpa using hne

theorem represents_fromChunks (s e : Bool) (chunks : List (Node H)) :
    Represents K (levelInv K s e) s e (fromChunks K s chunks e) chunks := by
  refine ⟨_,fromChunks_eq s e chunks,?_,?_,?_⟩
  · have hb : ∀ P : LevelProp H, P [] [] [] →
        Tower K P [] [[]] := fun P hP => Tower.blank hP 1
    have hc : chunks = [] ++ chunks ++ [] := by simp
    nth_rewrite 1 [hc]
    cases s <;> cases e
    · exact (Tower.merge blank_levelMerge ⟨rfl,rfl⟩ (hb _ ⟨rfl,rfl,rfl⟩) (hb _ ⟨rfl,rfl,rfl⟩)).forget
    · exact (Tower.merge end_levelMerge ⟨rfl,rfl⟩ (hb _ .blank) (hb _ .blank)).forget
    · exact (Tower.merge start_levelMerge ⟨rfl,.inl rfl⟩ (hb _ .blank) (hb _ .blank)).forget
    · exact (Tower.merge whole_levelMerge (.inl ⟨rfl,rfl⟩) (hb _ .blank) (hb _ .blank)).forget
  · rintro rfl
    exact mergeLevels_rights_nil
  · intro hlen
    rw [show mergeLevels K s e [([],[])] chunks = _ :: climb K _ _ _ _ from rfl] at hlen ⊢
    rw [length_cons] at hlen
    rw [getLast?_cons_of_ne_nil (ne_nil_of_length_pos (by omega))]
    exact climb_getLast le_rfl

section Merge
variable {Pa Pb : LevelProp H}
  {Live : Bool → Bool → LevelProp H} {Wa Wb : List (Node H)}

/-- Merging lays out a tower over the levels of the left operand. -/
theorem RepresentedBy.mergeIntoImpl_eq {P : Prop → LevelProp H} (h : LevelMerge K Pa Pb P Live)
    {ps qs : List (Part H)} (hli : Live s e Wa [] Wb) (ha : RepresentedBy K Pa false Wa ps)
    (hb : RepresentedBy K Pb e Wb qs) :
    ∃ parts, mergeIntoImpl K (layout ps s false) (layout qs false e) = .ok (layout parts s e) ∧
      TowerOver K P (levelNodes ps) (Wa ++ Wb) (levelNodes parts) ∧
      ∀ Q, Tower K Q (Wa ++ Wb) (levelNodes parts) → RepresentedBy K Q e (Wa ++ Wb) parts := by
  obtain ⟨kept,k,hk,hok,hto⟩ := Merkle.mergeIntoImpl_eq ps qs s e
  have ht := Tower.merge h hli ha.tower hb.tower
  have hl : levelNodes (kept ++ List.replicate k ([],[])) =
      levelNodes kept ++ List.replicate k [] := by simp [levelNodes]
  rw [hk,hl,append_nil] at ht
  refine ⟨kept,hok,ht.of_append_replicate,fun Q hQ => ⟨hQ,?_,hto⟩⟩
  rintro rfl p hp
  exact mergeLevels_rights_nil p (hk ▸ mem_append_left _ hp)

theorem Represents.merge (h : LevelMerge K Pa Pb (fun _ => P) Live) {a b : MerkleHashSubtree H}
    (hli : Live s e Wa [] Wb) (ha : Represents K Pa s false a Wa) (hb : Represents K Pb false e b Wb) :
    ∃ t, mergeIntoImpl K a b = .ok t ∧ Represents K P s e t (Wa ++ Wb) := by
  obtain ⟨ps,rfl,ha⟩ := ha
  obtain ⟨qs,rfl,hb⟩ := hb
  obtain ⟨parts,hok,ht,hr⟩ := RepresentedBy.mergeIntoImpl_eq h hli ha hb
  exact ⟨_,hok,parts,rfl,hr P ht.forget⟩

end Merge

theorem Tower.eq_nil (h : Tower K P W Xs) (hX : ∀ X ∈ Xs, X = []) : W = [] := by
  induction h with
  | nil => rfl
  | @level L G R Xs _ _ ih =>
    obtain ⟨rfl,rfl⟩ := append_eq_nil_iff.mp (hX (L ++ R) (by simp))
    have hG : G = [] := by
      by_contra hne
      exact collapse_ne_nil K hne (ih fun X hX' => hX X (by simp [hX']))
    simp [hG]

theorem layout_nodes_eq_nil {parts : List (Part H)} (s e : Bool) :
    (layout parts s e).nodes = [] ↔ ∀ X ∈ levelNodes parts, X = [] := by
  simp only [layout,ofNodes,lefts,rightsDescending,levelNodes,append_eq_nil_iff,flatten_eq_nil_iff,
    mem_map,mem_reverse,forall_exists_index,and_imp,forall_apply_eq_imp_iff₂]
  exact forall₂_and.symm

theorem Represents.isEmpty_iff (h : Represents K P s e t chunks) : t.isEmpty = true ↔ chunks = [] := by
  obtain ⟨parts,rfl,h⟩ := h
  rw [MerkleHashSubtree.isEmpty,List.isEmpty_iff,layout_nodes_eq_nil]
  exact ⟨h.tower.eq_nil,h.tower.all_nil⟩

theorem Tower.root (h : Tower K WholeLevel W Xs) (hW : W ≠ []) :
    ∃ root below above, Xs = below ++ [root] :: above ∧ (∀ X ∈ above, X = []) ∧
    root.1 = aggregatedNodeHash K W := by
  induction h with
  | nil => exact absurd rfl hW
  | @level L G R Xs hp ht ih =>
    rcases hp with ⟨hLR,hG⟩ | ⟨rfl,hLR⟩
    · obtain ⟨rfl,rfl⟩ := append_eq_nil_iff.mp hLR
      have hne : collapse K G ≠ [] := collapse_ne_nil K (ne_nil_of_length_pos (by omega))
      obtain ⟨root,below,above,rfl,ha,hr⟩ := ih hne
      refine ⟨root,[] :: below,above,rfl,ha,?_⟩
      rw [hr,aggregatedNodeHash_collapse K hG]
      simp
    · have ho : (L ++ R).length = 1 := by
        have := length_pos_iff.mpr (show L ++ R ≠ [] by simpa using hW)
        omega
      obtain ⟨root,hr⟩ := length_eq_one_iff.mp ho
      refine ⟨root,[],Xs,by simp [hr],ht.all_nil (collapse_nil K),?_⟩
      simp [hr]

/-- The final hash of a subtree that represents a whole file. -/
theorem Represents.finalHash (h : Represents K WholeLevel true true t chunks) :
    finalHash K t = some (aggregatedNodeHash K chunks) := by
  obtain ⟨parts,rfl,h⟩ := h
  have hr := h.rights_nil rfl
  by_cases hW : chunks = []
  · have hn := (layout_nodes_eq_nil true true).mpr (h.tower.all_nil hW)
    unfold MerkleHashSubtree.finalHash
    rw [hn,hW]
    rfl
  · obtain ⟨root,below,above,hXs,ha,hro⟩ := h.tower.root hW
    -- trimming leaves no empty level above the root
    have ha' : above = [] := by
      by_contra hne
      obtain ⟨ys,Y,rfl⟩ := (eq_nil_or_concat' above).resolve_left hne
      have hY := ha Y (by simp)
      subst hY
      obtain ⟨ps,p,rfl⟩ := (eq_nil_or_concat' parts).resolve_left
        (by rintro rfl; simp [levelNodes] at hXs)
      have hs : levelNodes ps ++ [p.1 ++ p.2] = (below ++ [root] :: ys) ++ [[]] := by
        simpa [levelNodes] using hXs
      obtain ⟨hlo,hl⟩ := append_inj' hs rfl
      have hpa : p.1 ++ p.2 = [] := (cons.inj hl).1
      have hlen := congrArg List.length hlo
      simp only [levelNodes,length_append,length_map,length_cons] at hlen
      refine h.top (by rw [length_append,length_singleton]; omega) ?_
      rw [getLast?_concat]
      exact congrArg some (Prod.ext (append_eq_nil_iff.mp hpa).1 (append_eq_nil_iff.mp hpa).2)
    subst ha'
    obtain ⟨ps,qs,rfl,_,hl⟩ := map_eq_append_iff.mp hXs
    obtain ⟨p,rs,rfl,hp,hrs⟩ := map_eq_cons_iff.mp hl
    obtain rfl := map_eq_nil_iff.mp hrs
    have hp2 := hr p (by simp)
    rw [hp2,append_nil] at hp
    have hlf := layout_leftAt ps [] p true true
    have hn : (layout (ps ++ [p]) true true).nodes.isEmpty = false := by
      simp [layout,ofNodes,hp]
    have hle : (layout (ps ++ [p]) true true).levels.length - 1 = ps.length := by
      simp [layout,ofNodes]
    unfold MerkleHashSubtree.finalHash
    rw [hn,hle,hlf,hp,← hro]
    rfl

def pieceSubtrees (K : NodeHasher H) : Bool → List (List (Node H)) → List (MerkleHashSubtree H)
  | _, [] => []
  | s, [c] => [fromChunks K s c true]
  | s, c :: d :: cs => fromChunks K s c false :: pieceSubtrees K false (d :: cs)

theorem foldlM_pieceSubtrees {acc : MerkleHashSubtree H}
    (ha : Represents K (StartLevel K) true false acc W) (c : List (Node H)) (cs : List (List (Node H))) :
    ∃ t, (pieceSubtrees K false (c :: cs)).foldlM (mergeIntoImpl K) acc = .ok t ∧
      Represents K WholeLevel true true t (W ++ (c :: cs).flatten) := by
  induction cs generalizing acc W c with
  | nil =>
    obtain ⟨t,hok,ht⟩ := Represents.merge whole_levelMerge (.inl ⟨rfl,rfl⟩) ha
      (represents_fromChunks false true c)
    refine ⟨t,?_,by simpa using ht⟩
    simp [pieceSubtrees,hok]
  | cons d cs ih =>
    have hc : Represents K (ShownLevel K (findStableEnd K)) false false _ c :=
      (represents_fromChunks false false c).mono fun _ _ _ h => ⟨h.closed,h.end_eq⟩
    obtain ⟨acc',hok,ha'⟩ := Represents.merge start_levelMerge ⟨rfl,.inl rfl⟩ ha hc
    obtain ⟨t,hf,ht⟩ := ih ha' d
    refine ⟨t,?_,by simpa using ht⟩
    simp only [pieceSubtrees,foldlM_cons,hok]
    exact hf

theorem merge_represents (K : NodeHasher H) (pieces : List (List (Node H))) :
    ∃ t, merge K (pieceSubtrees K true pieces) = .ok t ∧
    Represents K WholeLevel true true t pieces.flatten := by
  match pieces with
  | [] => exact ⟨_,rfl,represents_fromChunks true true []⟩
  | [c] =>
    rw [flatten_singleton]
    exact ⟨_,rfl,represents_fromChunks true true c⟩
  | c :: d :: cs =>
    obtain ⟨t,hf,ht⟩ := foldlM_pieceSubtrees (represents_fromChunks true false c) d cs
    refine ⟨t,?_,ht⟩
    rw [← hf]
    cases cs <;> rfl

/-- Merging the subtrees of the pieces from left to right gives the hash of the whole file. -/
theorem merge_pieceSubtrees (K : NodeHasher H) (pieces : List (List (Node H))) :
    ∃ t, merge K (pieceSubtrees K true pieces) = .ok t ∧
      finalHash K t = some (aggregatedNodeHash K pieces.flatten) := by
  obtain ⟨t,hok,ht⟩ := merge_represents K pieces
  exact ⟨t,hok,ht.finalHash⟩

end XetCore.Merkle
