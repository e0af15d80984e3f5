import XetCore.Merkle.SubtreeLevels

/-! # Towers of levels

A hump forgets the nodes it has promoted. A tower puts them back: at each level the nodes
are those kept on the left, the promoted ones, and those kept on the right. Merging acts
on towers level by level.
-/
namespace XetCore.Merkle
open StreamCut List
variable {H : Type} {K : NodeHasher H}
variable {s e : Bool} {Xs Ys : List (List (Node H))} {nodes : List (Node H)} {C : List (Node H)}

/-- A level that promotes: the kept ends and the promoted middle. -/
structure Promotes (K : NodeHasher H) (s e : Bool) (nodes L M R : List (Node H)) : Prop where
  nodes_eq : nodes = L ++ M ++ R
  ne_nil : M ≠ []
  lt_length : 1 < nodes.length
  part_eq : levelPart K nodes s e = (L,R)
  promoted_eq : promoted K nodes s e = collapse K M
  left_nil : s = true → L = []
  left_found : s = false → findStableStart K nodes = some L.length
  right_nil : e = true → R = []
  right_found : e = false → findStableEnd K (M ++ R) = some M.length

structure Keeps (K : NodeHasher H) (s e : Bool) (nodes : List (Node H)) : Prop where
  part_eq : levelPart K nodes s e = (nodes,[])
  promoted_eq : promoted K nodes s e = []
  start_none : 1 < nodes.length → s = true → e = false ∧ findStableEnd K nodes = none
  open_none : 1 < nodes.length → s = false → findStableStart K nodes = none ∨
    e = false ∧ ∃ m, findStableStart K nodes = some m ∧ findStableEnd K (nodes.drop m) = none

theorem keeps_of_eq (h : splitAndPromote K nodes s e = (nodes.length,0,[]))
    (hs : 1 < nodes.length → s = true → e = false ∧ findStableEnd K nodes = none)
    (ho : 1 < nodes.length → s = false → findStableStart K nodes = none ∨
      e = false ∧ ∃ m, findStableStart K nodes = some m ∧ findStableEnd K (nodes.drop m) = none) :
    Keeps K s e nodes :=
  ⟨by simp [levelPart,h],by simp [promoted,h],hs,ho⟩

theorem promotes_of_eq {m n : ℕ} (hlen : 1 < nodes.length)
    (hm : (if s then some 0 else findStableStart K nodes) = some m)
    (hn : (if e then some nodes.length else (findStableEnd K (nodes.drop m)).map (m + ·)) = some n) :
    ∃ L M R, Promotes K s e nodes L M R := by
  have hmt : m < nodes.length := by
    cases s with
    | true => simp only [↓reduceIte,Option.some.injEq] at hm; omega
    | false => exact (findStableStart_lt_length hm).2
  have hmn : m < n ∧ n ≤ nodes.length := by
    cases e with
    | true => simp only [↓reduceIte,Option.some.injEq] at hn; omega
    | false =>
      obtain ⟨k,hk,rfl⟩ := Option.map_eq_some_iff.mp hn
      have hlt := findStableEnd_lt_length hk
      rw [length_drop] at hlt
      omega
  have heq : splitAndPromote K nodes s e =
    (m,nodes.length - n,collapse K ((nodes.drop m).take (n - m))) := by
    simp [splitAndPromote,hm,hn,show ¬nodes.length ≤ 1 by omega,show ¬n ≤ m by omega]
  have hd : nodes.drop n = (nodes.drop m).drop (n - m) := by
    rw [drop_drop]
    congr 1
    omega
  have hml : ((nodes.drop m).take (n - m)).length = n - m := by
    rw [length_take,length_drop]
    omega
  have hMR : (nodes.drop m).take (n - m) ++ nodes.drop n = nodes.drop m := by
    rw [hd,take_append_drop]
  refine ⟨nodes.take m,(nodes.drop m).take (n - m),nodes.drop n,?_,?_,hlen,?_,?_,?_,?_,?_,?_⟩
  · rw [append_assoc,hMR,take_append_drop]
  · exact ne_nil_of_length_pos (by omega)
  · rw [levelPart,heq,show nodes.length - (nodes.length - n) = n by omega]
  · rw [promoted,heq]
  · rintro rfl
    simp only [↓reduceIte,Option.some.injEq] at hm
    simp [← hm]
  · rintro rfl
    rw [length_take,Nat.min_eq_left hmt.le]
    exact hm
  · rintro rfl
    simp only [↓reduceIte,Option.some.injEq] at hn
    simp [← hn]
  · rintro rfl
    obtain ⟨k,hk,rfl⟩ := Option.map_eq_some_iff.mp hn
    rw [hMR,hml,hk]
    congr 1
    omega

theorem split_cases (s e : Bool) (nodes : List (Node H)) :
    (∃ L M R, Promotes K s e nodes L M R) ∨ Keeps K s e nodes := by
  by_cases hlen : 1 < nodes.length
  · cases hm : (if s then some 0 else findStableStart K nodes) with
    | none =>
      cases s with
      | true => simp at hm
      | false =>
        refine .inr (keeps_of_eq ?_ (by simp) fun _ _ => .inl hm)
        simp [splitAndPromote,show findStableStart K nodes = none from hm]
    | some m =>
      cases hn : (if e then some nodes.length else (findStableEnd K (nodes.drop m)).map (m + ·)) with
      | some n => exact .inl (promotes_of_eq hlen hm hn)
      | none =>
        cases e with
        | true => simp at hn
        | false =>
          have he := Option.map_eq_none_iff.mp hn
          refine .inr (keeps_of_eq ?_ ?_ ?_)
          · simp [splitAndPromote,hm,he]
          · rintro _ rfl
            simp only [↓reduceIte,Option.some.injEq] at hm
            subst hm
            exact ⟨rfl,he⟩
          · rintro _ rfl
            exact .inr ⟨rfl,m,hm,he⟩
  · refine .inr (keeps_of_eq ?_ (fun h => absurd h hlen) (fun h => absurd h hlen))
    simp [splitAndPromote,show nodes.length ≤ 1 by omega]

/-- A property of the nodes kept on the left, the promoted ones and those kept on the right. -/
abbrev LevelProp (H : Type) := List (Node H) → List (Node H) → List (Node H) → Prop

/-- The levels of a hump together with what each of them has promoted. -/
inductive Tower (K : NodeHasher H) (P : LevelProp H) : List (Node H) → List (List (Node H)) → Prop
  | nil : Tower K P [] []
  | level {L G R : List (Node H)} {Xs : List (List (Node H))} : P L G R → Tower K P (collapse K G) Xs →
      Tower K P (L ++ G ++ R) ((L ++ R) :: Xs)

section Tower
variable {P Q : LevelProp H} {W : List (Node H)}
  {Xs : List (List (Node H))}

theorem Tower.uncons (hP : P [] [] []) (h : Tower K P W Xs) : ∃ L G R, W = L ++ G ++ R ∧
    Xs.headD [] = L ++ R ∧ P L G R ∧ Tower K P (collapse K G) Xs.tail := by
  cases h with
  | nil => exact ⟨[],[],[],rfl,rfl,hP,by simpa using Tower.nil⟩
  | level hp ht => exact ⟨_,_,_,rfl,rfl,hp,ht⟩

theorem Tower.mono (hPQ : ∀ L G R, P L G R → Q L G R) (h : Tower K P W Xs) : Tower K Q W Xs := by
  induction h with
  | nil => exact .nil
  | level hp _ ih => exact .level (hPQ _ _ _ hp) ih

theorem Tower.blank (hP : P [] [] []) (k : ℕ) : Tower K P [] (List.replicate k []) := by
  induction k with
  | zero => exact .nil
  | succ k ih =>
    exact Tower.level hP (by simpa using ih)

theorem Tower.exists_ne_nil (h : Tower K P W Xs) (hW : W ≠ []) : ∃ Y ∈ Xs, Y ≠ [] := by
  induction h with
  | nil => exact absurd rfl hW
  | @level L G R Xs _ _ ih =>
    by_cases hG : G = []
    · exact ⟨L ++ R,by simp,by simpa [hG] using hW⟩
    · obtain ⟨Y,hY,hne⟩ := ih (collapse_ne_nil K hG)
      exact ⟨Y,mem_cons_of_mem _ hY,hne⟩

theorem Tower.all_nil (h : Tower K P W Xs) (hW : W = []) : ∀ X ∈ Xs, X = [] := by
  induction h with
  | nil => simp
  | @level L G R Xs _ _ ih =>
    obtain ⟨rfl,rfl,rfl⟩ : L = [] ∧ G = [] ∧ R = [] := by simpa using hW
    intro X hX
    rcases mem_cons.mp hX with rfl | hX
    · rfl
    · exact ih (collapse_nil K) X hX

end Tower

/-- There is a level with nodes. -/
abbrev Occupied (Xs : List (List (Node H))) : Prop := ∃ X ∈ Xs, X ≠ []

theorem Tower.occupied_iff {P : LevelProp H}
    {W : List (Node H)} (h : Tower K P W Xs) : Occupied Xs ↔ W ≠ [] := by
  refine ⟨?_,h.exists_ne_nil⟩
  rintro ⟨X,hX,hne⟩ hW
  exact hne (h.all_nil hW X hX)

/-- A tower that was merged of two parts. At each level the invariant may depend on whether the
left part, which had the levels `As`, has promoted nodes there. -/
inductive TowerOver (K : NodeHasher H) (P : Prop → LevelProp H) :
    List (List (Node H)) → List (Node H) → List (List (Node H)) → Prop
  | nil {As : List (List (Node H))} : TowerOver K P As [] []
  | level {L G R : List (Node H)} {As Xs : List (List (Node H))} : P (Occupied As.tail) L G R →
      TowerOver K P As.tail (collapse K G) Xs → TowerOver K P As (L ++ G ++ R) ((L ++ R) :: Xs)

section TowerOver
variable {P : Prop → LevelProp H}
  {Q : LevelProp H} {W : List (Node H)}
  {As : List (List (Node H))}

theorem TowerOver.tower (hPQ : ∀ left L G R, P left L G R → Q L G R) (h : TowerOver K P As W Xs) :
    Tower K Q W Xs := by
  induction h with
  | nil => exact .nil
  | level hp _ ih => exact .level (hPQ _ _ _ _ hp) ih

theorem TowerOver.forget (h : TowerOver K (fun _ => Q) As W Xs) : Tower K Q W Xs :=
  h.tower fun _ _ _ _ => id

theorem TowerOver.of_append_replicate {k : ℕ}
    (h : TowerOver K P As W (Xs ++ List.replicate k [])) : TowerOver K P As W Xs := by
  induction Xs generalizing As W with
  | nil =>
    have hW : W = [] := by
      by_contra hne
      have ht : Tower K (fun _ _ _ => True) W _ := h.tower fun _ _ _ _ _ => trivial
      obtain ⟨Y,hY,hy⟩ := ht.exists_ne_nil hne
      exact hy (eq_of_mem_replicate (by simpa using hY))
    exact hW ▸ .nil
  | cons X Xs ih =>
    cases h with
    | level hp ht => exact .level hp (ih ht)

end TowerOver

/-- What merging does at one level: the new level satisfies the invariant, its promoted
nodes have the parents that the next level finds, and the flags stay usable. -/
def MergedLevel (K : NodeHasher H) (P : Prop → LevelProp H)
    (Live : Bool → Bool → LevelProp H) (s e : Bool) (La Ga Ra C Lb Gb Rb : List (Node H)) : Prop :=
  ∃ L G R, P (Ga ≠ []) L G R ∧ La ++ Ga ++ Ra ++ C ++ (Lb ++ Gb ++ Rb) = L ++ G ++ R ∧
    (levelPart K (La ++ Ra ++ C ++ (Lb ++ Rb)) s e).1 ++
      (levelPart K (La ++ Ra ++ C ++ (Lb ++ Rb)) s e).2 = L ++ R ∧
    collapse K G = collapse K Ga ++ promoted K (La ++ Ra ++ C ++ (Lb ++ Rb)) s e ++ collapse K Gb ∧
    Live (s && (levelPart K (La ++ Ra ++ C ++ (Lb ++ Rb)) s e).1.isEmpty)
      (e && (levelPart K (La ++ Ra ++ C ++ (Lb ++ Rb)) s e).2.isEmpty)
      (collapse K Ga) (promoted K (La ++ Ra ++ C ++ (Lb ++ Rb)) s e) (collapse K Gb)

structure LevelMerge (K : NodeHasher H) (Pa Pb : LevelProp H) (P : Prop → LevelProp H)
    (Live : Bool → Bool → LevelProp H) : Prop where
  blank_left : Pa [] [] []
  blank_right : Pb [] [] []
  step : ∀ {s e : Bool} {La Ga Ra C Lb Gb Rb : List (Node H)},
    Live s e (La ++ Ga ++ Ra) C (Lb ++ Gb ++ Rb) → Pa La Ga Ra → Pb Lb Gb Rb →
      MergedLevel K P Live s e La Ga Ra C Lb Gb Rb

theorem zipLevels_cons (h : Xs ≠ [] ∨ Ys ≠ []) :
    zipLevels Xs Ys = (Xs.headD [],Ys.headD []) :: zipLevels Xs.tail Ys.tail := by
  cases Xs with
  | nil =>
    cases Ys with
    | nil => simp at h
    | cons Y Ys => cases Ys <;> rfl
  | cons X Xs =>
    cases Ys with
    | nil => cases Xs <;> rfl
    | cons Y Ys => rfl

theorem mergeLevels_top (hC : C ≠ []) : mergeLevels K s e [] C = mergeLevels K s e [([],[])] C := by
  have hlt := promoted_length_lt K hC s e
  obtain ⟨n,hn⟩ := Nat.exists_eq_succ_of_ne_zero (length_pos_iff.mpr hC).ne'
  simp only [mergeLevels,nil_append,append_nil]
  rw [hn,climb,if_neg (by simpa using hC)]
  rw [climb_stable K (by omega) le_rfl]

def pairNodes (pairs : List (Part H)) : ℕ := (pairs.map fun p => p.1.length + p.2.length + 1).sum

theorem mergeLevels_next (h : ¬(Xs = [] ∧ Ys = [] ∧ C = [])) : mergeLevels K s e (zipLevels Xs Ys) C =
      levelPart K (Xs.headD [] ++ C ++ Ys.headD []) s e ::
        mergeLevels K (s && (levelPart K (Xs.headD [] ++ C ++ Ys.headD []) s e).1.isEmpty)
          (e && (levelPart K (Xs.headD [] ++ C ++ Ys.headD []) s e).2.isEmpty) (zipLevels Xs.tail Ys.tail)
          (promoted K (Xs.headD [] ++ C ++ Ys.headD []) s e) ∧
      pairNodes (zipLevels Xs.tail Ys.tail) + (promoted K (Xs.headD [] ++ C ++ Ys.headD []) s e).length <
        pairNodes (zipLevels Xs Ys) + C.length := by
  by_cases hz : Xs = [] ∧ Ys = []
  · obtain ⟨rfl,rfl⟩ := hz
    have hC : C ≠ [] := by simpa using h
    refine ⟨mergeLevels_top hC,?_⟩
    simpa using promoted_length_lt K hC s e
  · rw [zipLevels_cons (by tauto)]
    refine ⟨rfl,?_⟩
    have hle := promoted_length_le (K := K) (Xs.headD [] ++ C ++ Ys.headD []) s e
    simp only [length_append] at hle
    simp only [pairNodes,map_cons,sum_cons]
    omega

theorem Tower.merge {Pa Pb : LevelProp H} {P : Prop → LevelProp H}
    {Live : Bool → Bool → LevelProp H} (h : LevelMerge K Pa Pb P Live) {Wa Wb : List (Node H)}
    (hl : Live s e Wa C Wb) (ha : Tower K Pa Wa Xs) (hb : Tower K Pb Wb Ys) :
    TowerOver K P Xs (Wa ++ C ++ Wb) (levelNodes (mergeLevels K s e (zipLevels Xs Ys) C)) := by
  induction hn : pairNodes (zipLevels Xs Ys) + C.length using Nat.strong_induction_on
    generalizing s e Wa Wb C Xs Ys with
  | _ n ih =>
    by_cases hd : Xs = [] ∧ Ys = [] ∧ C = []
    · obtain ⟨rfl,rfl,rfl⟩ := hd
      cases ha
      cases hb
      exact .nil
    · have hne := mergeLevels_next (K := K) (s := s) (e := e) hd
      obtain ⟨La,Ga,Ra,rfl,hX,hpa,hta⟩ := ha.uncons h.blank_left
      obtain ⟨Lb,Gb,Rb,rfl,hY,hpb,htb⟩ := hb.uncons h.blank_right
      rw [hX,hY] at hne
      obtain ⟨L,G,R,hp,hW,hpr,hc,hl'⟩ := h.step hl hpa hpb
      have ht := ih _ (hn ▸ hne.2) hl' hta htb rfl
      have hGa : (Ga ≠ []) = Occupied Xs.tail := propext
        ⟨fun hne => hta.occupied_iff.mpr (collapse_ne_nil K hne),
          fun ho hnil => hta.occupied_iff.mp ho (by rw [hnil,collapse_nil])⟩
      rw [← hc] at ht
      rw [hW,hne.1,levelNodes,map_cons,hpr]
      exact .level (hGa ▸ hp) ht

end XetCore.Merkle
