import XetCore.Merkle.Tower

/-! # Invariants of merged humps

A hump that is open on both sides can be merged further when the search that is run on it finds
the seam between its left and its right part: that from the start in the left operand, that from
the end in the right one. A whole file is promoted up to a single root.
-/
namespace XetCore.Merkle
open StreamCut Seam List
variable {H : Type} {K : NodeHasher H} {L G R La Ga Ra C Lb Gb Rb : List (Node H)}
variable {M : List (Node H)}

/-- A level of a hump that was merged of two parts: the seam is found from the start where the
left part has promoted nodes, and from the end where only the right one has. -/
structure OpenLevel (K : NodeHasher H) (left : Prop) (L G R : List (Node H)) : Prop where
  closed : Closed (groupRule K) G
  start_eq : left → findStableStart K (L ++ R) = some L.length
  end_eq : ¬left → G ≠ [] → findStableEnd K (L ++ R) = some L.length

/-- An open level whose seam this search finds. -/
structure ShownLevel (K : NodeHasher H) (find : List (Node H) → Option ℕ)
    (L G R : List (Node H)) : Prop where
  closed : Closed (groupRule K) G
  found : G ≠ [] → find (L ++ R) = some L.length

/-- An open level whose seam is found from both sides. -/
structure VisibleLevel (K : NodeHasher H) (L G R : List (Node H)) : Prop where
  closed : Closed (groupRule K) G
  start_eq : G ≠ [] → findStableStart K (L ++ R) = some L.length
  end_eq : G ≠ [] → findStableEnd K (L ++ R) = some L.length

structure StartLevel (K : NodeHasher H) (L G R : List (Node H)) : Prop where
  left_nil : L = []
  closed : Closed (groupRule K) G
  free : SeamFree K R
  length : G ≠ [] → 2 ≤ R.length

structure EndLevel (K : NodeHasher H) (L G R : List (Node H)) : Prop where
  right_nil : R = []
  length : G ≠ [] → 2 ≤ L.length
  closed : G ≠ [] → ∀ A, Closed (groupRule K) (A ++ L)

def WholeLevel (L G R : List (Node H)) : Prop := L ++ R = [] ∧ 1 < G.length ∨ G = [] ∧ (L ++ R).length ≤ 1

def BlankLevel (L G R : List (Node H)) : Prop := L = [] ∧ G = [] ∧ R = []

theorem ShownLevel.blank {find : List (Node H) → Option ℕ} : ShownLevel K find [] [] [] :=
  ⟨closed_nil _,by simp⟩
theorem StartLevel.blank : StartLevel K [] [] [] :=
  ⟨rfl,closed_nil _,noTriple_of_length_le (by simp),by simp⟩
theorem EndLevel.blank : EndLevel K [] [] [] := ⟨rfl,by simp,by simp⟩

theorem regroup (h : La ++ Ra ++ C ++ (Lb ++ Rb) = L ++ M ++ R) (ha : Ga ≠ [] → L = La)
    (hb : Gb ≠ [] → R = Rb) :
    La ++ Ga ++ Ra ++ C ++ (Lb ++ Gb ++ Rb) = L ++ (Ga ++ M ++ Gb) ++ R := by
  by_cases hGa : Ga = []
  · by_cases hGb : Gb = []
    · simpa [hGa,hGb] using h
    · have hR := hb hGb
      subst hR
      have hLM : La ++ Ra ++ C ++ Lb = L ++ M := append_cancel_right (by simpa using h)
      calc La ++ Ga ++ Ra ++ C ++ (Lb ++ Gb ++ R) = (La ++ Ra ++ C ++ Lb) ++ (Gb ++ R) := by simp [hGa]
        _ = L ++ (Ga ++ M ++ Gb) ++ R := by rw [hLM]; simp [hGa]
  · have hL := ha hGa
    subst hL
    have hMR : Ra ++ C ++ (Lb ++ Rb) = M ++ R := by simpa using h
    by_cases hGb : Gb = []
    · calc L ++ Ga ++ Ra ++ C ++ (Lb ++ Gb ++ Rb) = L ++ Ga ++ (Ra ++ C ++ (Lb ++ Rb)) := by simp [hGb]
        _ = L ++ (Ga ++ M ++ Gb) ++ R := by simp [hMR,hGb]
    · have hR := hb hGb
      subst hR
      have hM : Ra ++ C ++ Lb = M := append_cancel_right (by simpa using hMR)
      simp [← hM]

theorem collapse_regroup (ha : Closed (groupRule K) Ga) (hM : Gb ≠ [] → Closed (groupRule K) M) :
    collapse K (Ga ++ M ++ Gb) = collapse K Ga ++ collapse K M ++ collapse K Gb := by
  rw [append_assoc,collapse_append K ha,append_assoc]
  by_cases hGb : Gb = []
  · simp [hGb]
  · rw [collapse_append K (hM hGb)]

section Steps
variable {P : Prop → LevelProp H}
  {Live : Bool → Bool → LevelProp H} {s e : Bool} {M : List (Node H)}

theorem mergedLevel_of_promotes (hp : Promotes K s e (La ++ Ra ++ C ++ (Lb ++ Rb)) L M R)
    (ha : Closed (groupRule K) Ga) (hM : Gb ≠ [] → Closed (groupRule K) M) (hL : Ga ≠ [] → L = La)
    (hR : Gb ≠ [] → R = Rb) (hP : P (Ga ≠ []) L (Ga ++ M ++ Gb) R)
    (hl : Live (s && L.isEmpty) (e && R.isEmpty) (collapse K Ga) (collapse K M) (collapse K Gb)) :
    MergedLevel K P Live s e La Ga Ra C Lb Gb Rb := by
  refine ⟨L,Ga ++ M ++ Gb,R,hP,regroup hp.nodes_eq hL hR,?_,?_,?_⟩
  · rw [hp.part_eq]
  · rw [hp.promoted_eq,collapse_regroup ha hM]
  · rwa [hp.part_eq,hp.promoted_eq]

theorem mergedLevel_of_keeps (hk : Keeps K s e (La ++ Ra ++ C ++ (Lb ++ Rb)))
    (hP : P (Ga ≠ []) L G R)
    (hW : La ++ Ga ++ Ra ++ C ++ (Lb ++ Gb ++ Rb) = L ++ G ++ R)
    (hX : La ++ Ra ++ C ++ (Lb ++ Rb) = L ++ R) (hG : collapse K G = collapse K Ga ++ collapse K Gb)
    (hl : Live (s && (L ++ R).isEmpty) e (collapse K Ga) [] (collapse K Gb)) :
    MergedLevel K P Live s e La Ga Ra C Lb Gb Rb := by
  refine ⟨L,G,R,hP,hW,?_,?_,?_⟩
  · rw [hk.part_eq,append_nil,hX]
  · rw [hk.promoted_eq,hG,append_nil]
  · rw [hk.part_eq,hk.promoted_eq,hX]
    simpa using hl

end Steps

theorem left_eq_of_start (h : La ++ Ra ++ C ++ (Lb ++ Rb) = L ++ M ++ R)
    (ha : findStableStart K (La ++ Ra) = some La.length)
    (hL : findStableStart K (La ++ Ra ++ C ++ (Lb ++ Rb)) = some L.length) : L = La := by
  have hs := findStableStart_append (findStableStart_append ha C) (Lb ++ Rb)
  have hlen : L.length = La.length := Option.some.inj (hL.symm.trans hs)
  rw [append_assoc,append_assoc,append_assoc] at h
  exact (append_inj h hlen.symm).1.symm

theorem right_eq_of_end (h : La ++ Ra ++ C ++ (Lb ++ Rb) = L ++ M ++ R)
    (hb : findStableEnd K (Lb ++ Rb) = some Lb.length) (hM : findStableEnd K (M ++ R) = some M.length) :
    R = Rb := by
  have he := findStableEnd_append hb (La ++ Ra ++ C)
  have he' := findStableEnd_append hM L
  rw [← append_assoc,← h,he] at he'
  have hlen := Option.some.inj he'
  rw [← append_assoc] at h
  exact (append_inj' h (by
    have := congrArg List.length h
    simp only [length_append] at this hlen
    omega)).2.symm

/-- Building an open hump leaves only seams that are found from both sides. -/
theorem blank_levelMerge : LevelMerge K BlankLevel BlankLevel (fun _ => VisibleLevel K)
    (fun s e _ _ _ => s = false ∧ e = false) where
  blank_left := ⟨rfl,rfl,rfl⟩
  blank_right := ⟨rfl,rfl,rfl⟩
  step := by
    rintro s e La Ga Ra C Lb Gb Rb ⟨rfl,rfl⟩ ⟨rfl,rfl,rfl⟩ ⟨rfl,rfl,rfl⟩
    rcases split_cases (K := K) false false ([] ++ [] ++ C ++ ([] ++ [])) with ⟨L,M,R,hp⟩ | hk
    · have hf := hp.left_found rfl
      rw [hp.nodes_eq,append_assoc] at hf
      have hj := findStable_join hf (hp.right_found rfl)
      have hc := closed_of_findStableEnd (hp.right_found rfl)
      exact mergedLevel_of_promotes hp (closed_nil _) (by simp) (by simp) (by simp)
        ⟨by simpa using hc,fun _ => hj.1,fun _ => hj.2⟩ (by simp)
    · exact mergedLevel_of_keeps (L := C) (R := []) hk ⟨closed_nil _,by simp,by simp⟩ (by simp) (by simp)
        (by simp) (by simp)

theorem open_levelMerge : LevelMerge K (ShownLevel K (findStableStart K))
    (ShownLevel K (findStableEnd K)) (OpenLevel K) (fun s e _ _ _ => s = false ∧ e = false) where
  blank_left := .blank
  blank_right := .blank
  step := by
    rintro s e La Ga Ra C Lb Gb Rb ⟨rfl,rfl⟩ ha hb
    rcases split_cases (K := K) false false (La ++ Ra ++ C ++ (Lb ++ Rb)) with ⟨L,M,R,hp⟩ | hk
    · have hf := hp.left_found rfl
      have hc := closed_of_findStableEnd (hp.right_found rfl)
      have hj := hf
      rw [hp.nodes_eq,append_assoc] at hj
      -- What is promoted at this level leaves a seam that is found from both sides.
      have hj := findStable_join hj (hp.right_found rfl)
      exact mergedLevel_of_promotes hp ha.closed (fun _ => hc)
        (fun h => left_eq_of_start hp.nodes_eq (ha.found h) hf)
        (fun h => right_eq_of_end hp.nodes_eq (hb.found h) (hp.right_found rfl))
        ⟨(ha.closed.append _ hc).append _ hb.closed,fun _ => hj.1,fun _ _ => hj.2⟩ (by simp)
    · by_cases hGa : Ga = []
      · subst hGa
        refine mergedLevel_of_keeps (L := La ++ Ra ++ C ++ Lb) (R := Rb) hk
          ⟨hb.closed,fun h => absurd rfl h,fun _ h => ?_⟩ (by simp) (by simp) (by simp) (by simp)
        simpa [Nat.add_assoc] using findStableEnd_append (hb.found h) (La ++ Ra ++ C)
      · have hf := findStableStart_append (findStableStart_append (ha.found hGa) C) (Lb ++ Rb)
        have hGb : Gb = [] := by
          by_contra hGb
          have hlt := findStableStart_lt_length hf
          rcases hk.open_none (by omega) rfl with hn | ⟨_,m,hm,hn⟩
          · rw [hn] at hf
            cases hf
          · cases hm.symm.trans hf
            have he := findStableEnd_append (hb.found hGb) (Ra ++ C)
            rw [append_assoc La,append_assoc La,drop_left,he] at hn
            simp at hn
        subst hGb
        exact mergedLevel_of_keeps hk
          ⟨ha.closed,fun _ => by simpa using hf,fun h => absurd hGa h⟩ (by simp) (by simp) (by simp)
          (by simp)

theorem start_levelMerge : LevelMerge K (StartLevel K) (ShownLevel K (findStableEnd K))
    (fun _ => StartLevel K)
    (fun s e _ C Wb => e = false ∧ (s = true ∨ C = [] ∧ Wb = [])) where
  blank_left := .blank
  blank_right := .blank
  step := by
    rintro s e La Ga Ra C Lb Gb Rb ⟨rfl,hs⟩ ha hb
    obtain rfl := ha.left_nil
    have keep : Gb = [] → SeamFree K (Ra ++ C ++ (Lb ++ Rb)) →
        Keeps K s false ([] ++ Ra ++ C ++ (Lb ++ Rb)) →
        MergedLevel K (fun _ => StartLevel K)
          (fun s e _ C Wb => e = false ∧ (s = true ∨ C = [] ∧ Wb = [])) s false
          [] Ga Ra C Lb Gb Rb := by
      rintro rfl hf hk
      refine mergedLevel_of_keeps hk
        ⟨rfl,ha.closed,hf,fun h => ?_⟩ (by simp) (by simp) (by simp) (by simp)
      have := ha.length h
      simp only [length_append]
      omega
    cases s with
    | true =>
      rcases split_cases (K := K) true false ([] ++ Ra ++ C ++ (Lb ++ Rb)) with ⟨L,M,R,hp⟩ | hk
      · obtain rfl := hp.left_nil rfl
        have he := hp.right_found rfl
        have hc := closed_of_findStableEnd he
        refine mergedLevel_of_promotes hp ha.closed (fun _ => hc) (fun _ => rfl)
          (fun h => right_eq_of_end hp.nodes_eq (hb.found h) he)
          ⟨rfl,(ha.closed.append _ hc).append _ hb.closed,seamFree_of_findStableEnd he,fun _ =>
            ?_⟩ (by simp)
        have hlt := findStableEnd_lt_length he
        rw [length_append] at hlt
        omega
      · have hf : SeamFree K (Ra ++ C ++ (Lb ++ Rb)) := by
          by_cases hlen : 1 < ([] ++ Ra ++ C ++ (Lb ++ Rb)).length
          · exact findStableEnd_eq_none_iff.mp (hk.start_none hlen rfl).2
          · exact noTriple_of_length_le (by simp only [length_append] at hlen ⊢; omega)
        refine keep ?_ hf hk
        by_contra hGb
        have he := findStableEnd_append (hb.found hGb) (Ra ++ C)
        rw [findStableEnd_eq_none_iff.mpr hf] at he
        cases he
    | false =>
      obtain ⟨rfl,hWb⟩ : C = [] ∧ Lb ++ Gb ++ Rb = [] := by simpa using hs
      simp only [append_eq_nil_iff] at hWb
      obtain ⟨⟨rfl,rfl⟩,rfl⟩ := hWb
      rcases split_cases (K := K) false false ([] ++ Ra ++ [] ++ ([] ++ [])) with ⟨L,M,R,hp⟩ | hk
      · have hfo := hp.left_found rfl
        simp [findStableStart_eq_none_iff.mpr ha.free] at hfo
      · exact keep rfl (by simpa using ha.free) hk

theorem end_levelMerge : LevelMerge K (ShownLevel K (findStableStart K)) (EndLevel K)
    (fun _ => EndLevel K)
    (fun s e _ _ _ => s = false ∧ e = true) where
  blank_left := .blank
  blank_right := .blank
  step := by
    rintro s e La Ga Ra C Lb Gb Rb ⟨rfl,rfl⟩ ha hb
    obtain rfl := hb.right_nil
    rcases split_cases (K := K) false true (La ++ Ra ++ C ++ (Lb ++ [])) with ⟨L,M,R,hp⟩ | hk
    · obtain rfl := hp.right_nil rfl
      have hf := hp.left_found rfl
      have hL := hf
      rw [hp.nodes_eq,append_assoc] at hL
      have hM : Gb ≠ [] → Closed (groupRule K) M := by
        intro h
        have hal := hb.closed h (La ++ Ra ++ C)
        have heq := hp.nodes_eq
        rw [append_nil,append_nil] at heq
        rw [heq] at hal
        exact ((closed_of_findStableStart hL []).append_iff _).mp hal
      refine mergedLevel_of_promotes hp ha.closed hM
        (fun h => left_eq_of_start hp.nodes_eq (ha.found h) hf)
        (fun _ => rfl) ⟨rfl,fun _ => (findStableStart_lt_length hL).1,fun _ =>
          closed_of_findStableStart hL⟩ (by simp)
    · have hGa : Ga = [] := by
        by_contra hGa
        have hf := findStableStart_append (findStableStart_append (ha.found hGa) C) (Lb ++ [])
        have hlt := findStableStart_lt_length hf
        rcases hk.open_none (by omega) rfl with hn | ⟨hfa,_⟩
        · rw [hn] at hf
          cases hf
        · cases hfa
      subst hGa
      refine mergedLevel_of_keeps (L := La ++ Ra ++ C ++ Lb) (G := Gb) hk
        ⟨rfl,fun h => ?_,fun h A => ?_⟩ (by simp) (by simp) (by simp) (by simp)
      · have := hb.length h
        simp only [length_append]
        omega
      · simpa using hb.closed h (A ++ La ++ Ra ++ C)

/-- Merging a start with an end promotes every level up to the root. -/
theorem whole_levelMerge : LevelMerge K (StartLevel K) (EndLevel K) (fun _ => WholeLevel)
    (fun s e Wa C Wb => s = true ∧ e = true ∨ Wa = [] ∧ C = [] ∧ Wb = []) where
  blank_left := .blank
  blank_right := .blank
  step := by
    intro s e La Ga Ra C Lb Gb Rb hl ha hb
    obtain rfl := ha.left_nil
    obtain rfl := hb.right_nil
    rcases split_cases (K := K) s e ([] ++ Ra ++ C ++ (Lb ++ [])) with ⟨L,M,R,hp⟩ | hk
    · have hlt := hp.lt_length
      obtain ⟨rfl,rfl⟩ : s = true ∧ e = true := by
        rcases hl with h | ⟨hWa,rfl,hWb⟩
        · exact h
        · simp_all
      obtain rfl := hp.left_nil rfl
      obtain rfl := hp.right_nil rfl
      have heq := hp.nodes_eq
      simp only [nil_append,append_nil] at heq
      have hM : Gb ≠ [] → Closed (groupRule K) M := fun h => heq ▸ hb.closed h (Ra ++ C)
      refine mergedLevel_of_promotes hp ha.closed hM (fun _ => rfl) (fun _ => rfl) (.inl ⟨rfl,?_⟩)
        (.inl (by simp))
      rw [hp.nodes_eq] at hlt
      simp only [nil_append,append_nil,length_append] at hlt ⊢
      omega
    · have hlen : (Ra ++ C ++ Lb).length ≤ 1 := by
        by_contra hgt
        rcases hl with ⟨rfl,rfl⟩ | ⟨hWa,rfl,hWb⟩
        · have := (hk.start_none (by simpa using hgt) rfl).1
          cases this
        · simp_all
      simp only [length_append] at hlen
      have hGa : Ga = [] := by
        by_contra h
        have := ha.length h
        omega
      have hGb : Gb = [] := by
        by_contra h
        have := hb.length h
        omega
      subst hGa hGb
      refine mergedLevel_of_keeps (L := Ra ++ C ++ Lb) (R := []) hk (.inr ⟨rfl,?_⟩) (by simp) (by simp)
        (by simp) (.inr (by simp))
      simpa [Nat.add_assoc] using hlen

end XetCore.Merkle
