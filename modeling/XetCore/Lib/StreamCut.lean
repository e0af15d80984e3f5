import Mathlib.Data.List.Basic
import Mathlib.Tactic

/-! # Cutting a stream into pieces by a prefix-determined rule

A cut rule looks at a list from the start of a piece and reports where that piece ends, as
soon as enough of the list is present to know. So a list may be cut in one go or as it
arrives.
-/
namespace XetCore.StreamCut
open List
variable {α : Type*}

/-- A rule reporting the length of the first complete piece of a list. -/
structure CutRule (α : Type*) where
  cut : List α → Option ℕ
  pos : ∀ {l n}, cut l = some n → 0 < n
  le_length : ∀ {l n}, cut l = some n → n ≤ l.length
  extend : ∀ {l n}, cut l = some n → ∀ t, cut (l ++ t) = some n
  restrict : ∀ {l n}, cut l = some n → cut (l.take n) = some n

variable (r : CutRule α)
variable {l t : List α} {n : ℕ} {q : List α}

/-- A piece that is reported only after more elements arrive ends among them. -/
theorem CutRule.lt_of_none (hl : r.cut l = none) (ht : r.cut (l ++ t) = some n) : l.length < n := by
  by_contra hn
  have hle : n ≤ l.length := by omega
  have hr := r.extend (r.restrict ht) (l.drop n)
  rw [take_append_of_le_length hle,take_append_drop] at hr
  simp [hl] at hr

theorem CutRule.cut_nil : r.cut [] = none := by
  cases h : r.cut [] with
  | none => rfl
  | some n =>
    have hp := r.pos h
    have hl := r.le_length h
    simp only [length_nil] at hl
    omega

/-- Peel at most `k` complete pieces off a list; what is left comes second. -/
def peel : ℕ → List α → List (List α) × List α
  | 0, l => ([],l)
  | k + 1, l =>
    match r.cut l with
    | none => ([],l)
    | some n => (l.take n :: (peel k (l.drop n)).1,(peel k (l.drop n)).2)

theorem peel_of_none {k : ℕ} (h : r.cut l = none) : peel r k l = ([],l) := by
  cases k with
  | zero => rfl
  | succ k => simp [peel,h]

theorem peel_stable {k m : ℕ} (hk : l.length ≤ k) (hm : l.length ≤ m) : peel r k l = peel r m l := by
  induction k generalizing m l with
  | zero =>
    have hl : l = [] := length_eq_zero_iff.mp (by omega)
    subst hl
    rw [peel_of_none r r.cut_nil,peel_of_none r r.cut_nil]
  | succ k ih =>
    cases h : r.cut l with
    | none => rw [peel_of_none r h,peel_of_none r h]
    | some n =>
      have hp := r.pos h
      have hl := r.le_length h
      cases m with
      | zero => omega
      | succ m =>
        have hd : peel r k (l.drop n) = peel r m (l.drop n) := by
          apply ih <;> rw [length_drop] <;> omega
        simp [peel,h,hd]

/-- All complete pieces of a list, with the unfinished rest. -/
def split (l : List α) : List (List α) × List α := peel r l.length l

theorem split_of_none (h : r.cut l = none) : split r l = ([],l) := peel_of_none r h

@[simp] theorem split_nil : split r [] = ([],[]) := split_of_none r r.cut_nil

theorem split_of_some (h : r.cut l = some n) :
    split r l = (l.take n :: (split r (l.drop n)).1,(split r (l.drop n)).2) := by
  have hp := r.pos h
  have hl := r.le_length h
  obtain ⟨k,hk⟩ : ∃ k, l.length = k + 1 := ⟨l.length - 1,by omega⟩
  have hd : peel r k (l.drop n) = split r (l.drop n) := by
    apply peel_stable
    · rw [length_drop]
      omega
    · exact le_rfl
  rw [split,hk]
  simp [peel,h,hd]

theorem split_induction {motive : List α → Prop} (stop : ∀ l, r.cut l = none → motive l)
    (step : ∀ l n, r.cut l = some n → motive (l.drop n) → motive l) (l : List α) : motive l := by
  induction hk : l.length using Nat.strong_induction_on generalizing l with
  | _ k ih =>
    cases h : r.cut l with
    | none => exact stop l h
    | some n =>
      have hp := r.pos h
      have hl := r.le_length h
      exact step l n h (ih (l.drop n).length (by rw [length_drop]; omega) (l.drop n) rfl)

theorem split_flatten (l : List α) : (split r l).1.flatten ++ (split r l).2 = l := by
  induction l using split_induction r with
  | stop l h => simp [split_of_none r h]
  | step l n h ih =>
    rw [split_of_some r h]
    simp [ih]

theorem split_rest_cut (l : List α) : r.cut (split r l).2 = none := by
  induction l using split_induction r with
  | stop l h => simpa [split_of_none r h] using h
  | step l n h ih => simpa [split_of_some r h] using ih

/-- Elements that arrive later only continue the unfinished rest. -/
theorem split_append (l t : List α) : split r (l ++ t) =
      ((split r l).1 ++ (split r ((split r l).2 ++ t)).1,(split r ((split r l).2 ++ t)).2) := by
  induction l using split_induction r with
  | stop l h => simp [split_of_none r h]
  | step l n h ih =>
    have hl := r.le_length h
    rw [split_of_some r (r.extend h t),split_of_some r h,take_append_of_le_length hl,
      drop_append_of_le_length hl,ih]
    simp

theorem length_split_eq_one_iff (l : List α) :
    (split r l).1.length = 1 ↔ ∃ n, r.cut l = some n ∧ r.cut (l.drop n) = none := by
  cases h : r.cut l with
  | none => simp [split_of_none r h]
  | some n =>
    cases h' : r.cut (l.drop n) with
    | none => simp [split_of_some r h,split_of_none r h',h']
    | some k => simp [split_of_some r h,split_of_some r h',h']

/-- Every complete piece is exactly what the rule reports for itself. -/
theorem split_piece_cut (l : List α) : ∀ p ∈ (split r l).1, r.cut p = some p.length := by
  induction l using split_induction r with
  | stop l h => simp [split_of_none r h]
  | step l n h ih =>
    intro p hp
    rw [split_of_some r h] at hp
    rcases mem_cons.mp hp with rfl | hp
    · rw [length_take,Nat.min_eq_left (r.le_length h)]
      exact r.restrict h
    · exact ih p hp

/-- The pieces of a finished list: an unfinished rest becomes the last piece. -/
def pieces (l : List α) : List (List α) :=
  (split r l).1 ++ if (split r l).2 = [] then [] else [(split r l).2]

@[simp] theorem pieces_nil : pieces r [] = [] := by simp [pieces]

theorem pieces_of_none (h : r.cut l = none) : pieces r l = if l = [] then [] else [l] := by
  simp [pieces,split_of_none r h]

theorem pieces_of_some (h : r.cut l = some n) : pieces r l = l.take n :: pieces r (l.drop n) := by
  simp [pieces,split_of_some r h]

theorem pieces_flatten (l : List α) : (pieces r l).flatten = l := by
  have h := split_flatten r l
  unfold pieces
  split_ifs with hr
  · simpa [hr] using h
  · simpa using h

theorem pieces_ne_nil (l : List α) : ∀ p ∈ pieces r l, p ≠ [] := by
  intro p hp
  rcases mem_append.mp hp with hp | hp
  · rintro rfl
    have h := split_piece_cut r l [] hp
    simp [r.cut_nil] at h
  · split_ifs at hp with hr
    · simp at hp
    · exact (mem_singleton.mp hp) ▸ hr

theorem cut_of_mem_dropLast_pieces {p : List α} (hp : p ∈ (pieces r l).dropLast) :
    r.cut p = some p.length := by
  apply split_piece_cut r l
  unfold pieces at hp
  split at hp
  · rw [append_nil] at hp
    exact dropLast_subset _ hp
  · rwa [dropLast_concat] at hp

theorem cut_of_mem_pieces {p : List α} (hp : p ∈ pieces r l) :
    r.cut p = some p.length ∨ r.cut p = none := by
  rcases mem_append.mp hp with hp | hp
  · exact .inl (split_piece_cut r l p hp)
  · split at hp
    · simp at hp
    · rw [mem_singleton.mp hp]
      exact .inr (split_rest_cut r l)

def Closed (l : List α) : Prop := (split r l).2 = []

@[simp] theorem closed_nil : Closed r [] := by simp [Closed]

theorem Closed.pieces_eq (h : Closed r l) : pieces r l = (split r l).1 := by
  simp [pieces,show (split r l).2 = [] from h]

theorem Closed.split_append (h : Closed r l) (t : List α) :
    split r (l ++ t) = ((split r l).1 ++ (split r t).1,(split r t).2) := by
  rw [StreamCut.split_append,show (split r l).2 = [] from h,nil_append]

theorem Closed.pieces_append (h : Closed r l) (t : List α) :
    pieces r (l ++ t) = pieces r l ++ pieces r t := by
  rw [h.pieces_eq,pieces,h.split_append]
  simp [pieces]

theorem Closed.append (hl : Closed r l) (ht : Closed r t) : Closed r (l ++ t) := by
  unfold Closed
  rw [hl.split_append]
  exact ht

theorem Closed.of_cut (h : r.cut l = some n) (ht : Closed r (l.drop n)) : Closed r l := by
  unfold Closed
  rw [split_of_some r h]
  exact ht

/-- Whether a list with a closed start is closed depends on the end only. -/
theorem Closed.append_iff (hl : Closed r l) : Closed r (l ++ t) ↔ Closed r t := by
  unfold Closed
  rw [hl.split_append]

/-- What comes before a piece is closed, and the pieces from there on are those of the rest. -/
theorem pieces_eq_append {ps qs : List (List α)} (h : pieces r l = ps ++ q :: qs) :
    Closed r ps.flatten ∧ pieces r (q :: qs).flatten = q :: qs := by
  induction ps generalizing l with
  | nil =>
    have hl := pieces_flatten r l
    rw [h] at hl
    refine ⟨closed_nil r,?_⟩
    rw [nil_append] at h hl
    rw [hl,h]
  | cons p ps ih =>
    cases hn : r.cut l with
    | none =>
      rw [pieces_of_none r hn] at h
      split at h
      · cases h
      · have := congrArg List.length h
        simp at this
    | some n =>
      rw [pieces_of_some r hn,cons_append] at h
      obtain ⟨hp,hr⟩ := cons.inj h
      obtain ⟨hc,hpi⟩ := ih hr
      refine ⟨?_,hpi⟩
      have hlen : p.length = n := by
        rw [← hp,length_take]
        exact Nat.min_eq_left (r.le_length hn)
      have hcu : r.cut p = some n := hp ▸ r.restrict hn
      exact Closed.append r (Closed.of_cut r hcu (by simp [← hlen])) hc

/-- Pieces in the middle are cut again where they were. -/
theorem pieces_infix {as ps bs : List (List α)} (h : pieces r l = as ++ (ps ++ q :: bs)) :
    Closed r ps.flatten ∧ pieces r ps.flatten = ps := by
  cases ps with
  | nil => simp
  | cons p ps =>
    have hf := (pieces_eq_append r (show pieces r l = as ++ p :: (ps ++ q :: bs) from h)).2
    obtain ⟨hc,hr⟩ := pieces_eq_append r (show pieces r _ = (p :: ps) ++ q :: bs from hf)
    refine ⟨hc,?_⟩
    have ha := hc.pieces_append r (q :: bs).flatten
    rw [hr,← flatten_append] at ha
    exact append_cancel_right (ha.symm.trans hf)

/-- Pieces that are kept, with other parts between them that end at a cut. -/
theorem pieces_blocks {blocks : List (List (List α) × List α)} {tail : List (List α)}
    (hk : ∀ b ∈ blocks, Closed r b.1.flatten ∧ pieces r b.1.flatten = b.1)
    (ht : pieces r tail.flatten = tail)
    (hcl : ∀ front b back, blocks = front ++ b :: back → Closed r b.2 ∨ (back = [] ∧ tail = [])) :
    pieces r (blocks.flatMap (fun b => b.1.flatten ++ b.2) ++ tail.flatten) =
      blocks.flatMap (fun b => b.1 ++ pieces r b.2) ++ tail := by
  induction blocks with
  | nil => exact ht
  | cons b blocks ih =>
    obtain ⟨⟨hc,hp⟩,hr⟩ := forall_mem_cons.mp hk
    have hn := ih hr fun front b' back heq => hcl (b :: front) b' back (by rw [heq]; rfl)
    simp only [flatMap_cons,append_assoc]
    rw [hc.pieces_append,hp]
    rcases hcl [] b blocks rfl with hb | ⟨rfl,rfl⟩
    · rw [hb.pieces_append,hn]
    · simp

/-- The parts of a list between increasing positions, from a position on where the list starts. -/
def sections : ℕ → List ℕ → List α → List (List α)
  | _, [], l => [l]
  | a, q :: qs, l => l.take (q - a) :: sections q qs (l.drop (q - a))

theorem sections_flatten (a : ℕ) (qs : List ℕ) (l : List α) : (sections a qs l).flatten = l := by
  induction qs generalizing a l with
  | nil => simp [sections]
  | cons q qs ih => rw [sections,flatten_cons,ih,take_append_drop]

/-- The pieces of the parts are those of the list exactly when the parts are separated at cuts. -/
theorem sections_pieces_iff {a : ℕ} {qs : List ℕ} (hin : (a :: qs).Pairwise (· < ·))
    (hlt : ∀ q ∈ qs, q - a < l.length) :
    (sections a qs l).flatMap (pieces r) = pieces r l ↔ ∀ q ∈ qs, Closed r (l.take (q - a)) := by
  induction qs generalizing a l with
  | nil => simp [sections]
  | cons q qs ih =>
    obtain ⟨hfi,hr⟩ := pairwise_cons.mp hin
    have haq := hfi q mem_cons_self
    have hq := hlt q mem_cons_self
    have hqs : ∀ p ∈ qs, q < p := (pairwise_cons.mp hr).1
    have hih := ih (l := l.drop (q - a)) hr (fun p hp => by
      have hpl := hlt p (mem_cons_of_mem _ hp)
      rw [length_drop]
      omega)
    have ht : ∀ p ∈ qs, l.take (p - a) = l.take (q - a) ++ (l.drop (q - a)).take (p - q) := by
      intro p hp
      have hqp := hqs p hp
      rw [← take_add]
      congr 1
      omega
    rw [sections,flatMap_cons,forall_mem_cons]
    constructor
    · intro h
      have hc : Closed r (l.take (q - a)) := by
        cases hb : (sections q qs (l.drop (q - a))).flatMap (pieces r) with
        | nil =>
          have hf : ((sections q qs (l.drop (q - a))).flatMap (pieces r)).flatten = l.drop (q - a) := by
            rw [flatMap_def,flatten_flatten,map_map]
            have hid : List.flatten ∘ pieces r = id := funext (pieces_flatten r)
            rw [hid,map_id,sections_flatten]
          rw [hb,flatten_nil] at hf
          have hlen := congrArg List.length hf
          rw [length_nil,length_drop] at hlen
          omega
        | cons y ys =>
          rw [hb] at h
          have hfr := (pieces_eq_append r h.symm).1
          rwa [pieces_flatten] at hfr
      have hs := hc.pieces_append r (l.drop (q - a))
      rw [take_append_drop] at hs
      rw [hs] at h
      refine ⟨hc,fun p hp => ?_⟩
      rw [ht p hp]
      exact (hc.append_iff r).mpr (hih.mp (append_cancel_left h) p hp)
    · rintro ⟨hc,ha⟩
      have hs := hc.pieces_append r (l.drop (q - a))
      rw [take_append_drop] at hs
      rw [hs,hih.mpr fun p hp => (hc.append_iff r).mp (by rw [← ht p hp]; exact ha p hp)]

end XetCore.StreamCut
