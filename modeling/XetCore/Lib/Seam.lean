import XetCore.Lib.GatedCut

/-! # Seams: cuts that can be found again from either side

Three successive hits whose distances leave room for the gate make the middle hit a cut in
every run. Such a seam can be found from the left or from the right, also when the elements
on its far side are taken away.
-/
namespace XetCore.Seam
open StreamCut GatedCut List
variable {α : Type*} (g : Gate) (hit : α → Bool)
variable {l : List α} {c d e : ℕ} {i : ℕ}

def HitAt (l : List α) (i : ℕ) : Prop := ∃ x, l[i]? = some x ∧ hit x = true

theorem HitAt.lt_length (h : HitAt hit l i) : i < l.length := by
  obtain ⟨x,hx,_⟩ := h
  exact (List.getElem?_eq_some_iff.mp hx).1

variable {t : List α}

theorem hitAt_append_left (h : i < l.length) : HitAt hit (l ++ t) i ↔ HitAt hit l i := by
  unfold HitAt
  rw [getElem?_append_left h]

theorem hitAt_append_right (h : l.length ≤ i) : HitAt hit (l ++ t) i ↔ HitAt hit t (i - l.length) := by
  unfold HitAt
  rw [getElem?_append_right h]

theorem hitAt_take {n : ℕ} (h : i < n) : HitAt hit (l.take n) i ↔ HitAt hit l i := by
  unfold HitAt
  rw [getElem?_take_of_lt h]

theorem hitAt_drop {n : ℕ} : HitAt hit (l.drop n) i ↔ HitAt hit l (n + i) := by
  unfold HitAt
  rw [getElem?_drop]

/-- A distance between two hits that forces a cut at the second one. -/
def ValidGap (d : ℕ) : Prop := g.lo ≤ d ∧ d + g.lo ≤ g.hi + 1

structure Triple (l : List α) (c d e : ℕ) : Prop where
  hit_left : HitAt hit l c
  hit_mid : HitAt hit l d
  hit_right : HitAt hit l e
  lt_left : c < d
  lt_right : d < e
  quiet_left : ∀ i, c < i → i < d → ¬HitAt hit l i
  quiet_right : ∀ i, d < i → i < e → ¬HitAt hit l i
  gap_left : ValidGap g (d - c)
  gap_right : ValidGap g (e - d)

def NoTriple (l : List α) : Prop := ∀ c d e, ¬Triple g hit l c d e

structure IsFirst (l : List α) (d : ℕ) : Prop where
  triple : ∃ c e, Triple g hit l c d e
  least : ∀ c' d' e', Triple g hit l c' d' e' → d ≤ d'

structure IsLast (l : List α) (d : ℕ) : Prop where
  triple : ∃ c e, Triple g hit l c d e
  greatest : ∀ c' d' e', Triple g hit l c' d' e' → d' ≤ d

variable {g hit}

theorem noTriple_of_length_le (h : l.length ≤ 2) : NoTriple g hit l := by
  intro c d e ht
  have := ht.hit_right.lt_length
  have := ht.lt_left
  have := ht.lt_right
  omega

theorem Triple.append_left (h : Triple g hit l c d e) (A : List α) :
    Triple g hit (A ++ l) (A.length + c) (A.length + d) (A.length + e) := by
  have shift : ∀ i, A.length ≤ i → (HitAt hit (A ++ l) i ↔ HitAt hit l (i - A.length)) :=
    fun i hi => hitAt_append_right hit hi
  have hl := h.lt_left
  have hr := h.lt_right
  refine ⟨?_,?_,?_,by omega,by omega,?_,?_,?_,?_⟩
  · rw [shift _ (by omega),Nat.add_sub_cancel_left]
    exact h.hit_left
  · rw [shift _ (by omega),Nat.add_sub_cancel_left]
    exact h.hit_mid
  · rw [shift _ (by omega),Nat.add_sub_cancel_left]
    exact h.hit_right
  · intro i hi hj
    rw [shift _ (by omega)]
    exact h.quiet_left _ (by omega) (by omega)
  · intro i hi hj
    rw [shift _ (by omega)]
    exact h.quiet_right _ (by omega) (by omega)
  · rw [Nat.add_sub_add_left]
    exact h.gap_left
  · rw [Nat.add_sub_add_left]
    exact h.gap_right

theorem Triple.of_append_left {A : List α} (h : Triple g hit (A ++ l) c d e)
    (hc : A.length ≤ c) : Triple g hit l (c - A.length) (d - A.length) (e - A.length) := by
  have shift : ∀ i, A.length ≤ i → (HitAt hit (A ++ l) i ↔ HitAt hit l (i - A.length)) :=
    fun i hi => hitAt_append_right hit hi
  have hl := h.lt_left
  have hr := h.lt_right
  refine ⟨(shift _ hc).mp h.hit_left,(shift _ (by omega)).mp h.hit_mid,
    (shift _ (by omega)).mp h.hit_right,by omega,by omega,?_,?_,?_,?_⟩
  · intro i hi hj hh
    refine h.quiet_left (i + A.length) (by omega) (by omega) ((shift _ (by omega)).mpr ?_)
    rwa [Nat.add_sub_cancel]
  · intro i hi hj hh
    refine h.quiet_right (i + A.length) (by omega) (by omega) ((shift _ (by omega)).mpr ?_)
    rwa [Nat.add_sub_cancel]
  · rw [show d - A.length - (c - A.length) = d - c by omega]
    exact h.gap_left
  · rw [show e - A.length - (d - A.length) = e - d by omega]
    exact h.gap_right

theorem triple_congr (hlt : ∀ i ≤ e, HitAt hit l i ↔ HitAt hit t i) :
    Triple g hit l c d e ↔ Triple g hit t c d e := by
  constructor
  · intro h
    have hl := h.lt_left
    have hr := h.lt_right
    exact ⟨(hlt _ (by omega)).mp h.hit_left,(hlt _ (by omega)).mp h.hit_mid,
      (hlt _ le_rfl).mp h.hit_right,hl,hr,
      fun i hi hj hh => h.quiet_left i hi hj ((hlt i (by omega)).mpr hh),
      fun i hi hj hh => h.quiet_right i hi hj ((hlt i (by omega)).mpr hh),h.gap_left,h.gap_right⟩
  · intro h
    have hl := h.lt_left
    have hr := h.lt_right
    exact ⟨(hlt _ (by omega)).mpr h.hit_left,(hlt _ (by omega)).mpr h.hit_mid,
      (hlt _ le_rfl).mpr h.hit_right,hl,hr,
      fun i hi hj hh => h.quiet_left i hi hj ((hlt i (by omega)).mp hh),
      fun i hi hj hh => h.quiet_right i hi hj ((hlt i (by omega)).mp hh),h.gap_left,h.gap_right⟩

theorem Triple.append_right (h : Triple g hit l c d e) (t : List α) : Triple g hit (l ++ t) c d e :=
  (triple_congr fun _ hi => hitAt_append_left hit (hi.trans_lt h.hit_right.lt_length)).mpr h

theorem Triple.of_append_right (h : Triple g hit (l ++ t) c d e)
    (he : e < l.length) : Triple g hit l c d e :=
  (triple_congr fun _ hi => hitAt_append_left hit (hi.trans_lt he)).mp h

theorem NoTriple.of_append_left {A : List α} (h : NoTriple g hit (A ++ l)) : NoTriple g hit l :=
  fun _ _ _ ht => h _ _ _ (ht.append_left A)

theorem IsFirst.noTriple_take (h : IsFirst g hit l d) : NoTriple g hit (l.take (d + 1)) := by
  intro c' d' e' ht
  have he := ht.hit_right.lt_length
  have hlt := ht.lt_right
  rw [length_take] at he
  have hle := h.least c' d' e' (by
    have := ht.append_right (l.drop (d + 1))
    rwa [take_append_drop] at this)
  omega

/-- After the last seam there is no triple, even with the seam's own hit. -/
theorem IsLast.noTriple_drop (h : IsLast g hit l d) : NoTriple g hit (l.drop d) := by
  obtain ⟨c,e,ht⟩ := h.triple
  intro c' d' e' ht'
  have hd := ht.hit_mid.lt_length
  have hlt := ht'.lt_left
  have hle := h.greatest _ _ _ (by
    have := ht'.append_left (l.take d)
    rwa [take_append_drop] at this)
  rw [length_take,Nat.min_eq_left (by omega)] at hle
  omega

/-- A list ending with two successive hits at a valid distance. -/
structure EndsPair (g : Gate) (hit : α → Bool) (l : List α) (c : ℕ) : Prop where
  hit_left : HitAt hit l c
  hit_last : HitAt hit l (l.length - 1)
  lt : c + 1 < l.length
  quiet : ∀ i, c < i → i < l.length - 1 → ¬HitAt hit l i
  gap : ValidGap g (l.length - 1 - c)

/-- A list whose first hit lies at a valid distance from a hit right before it. -/
structure StartsGap (g : Gate) (hit : α → Bool) (l : List α) (e : ℕ) : Prop where
  hit_first : HitAt hit l e
  quiet : ∀ i < e, ¬HitAt hit l i
  gap : ValidGap g (e + 1)

theorem Triple.endsPair (h : Triple g hit l c d e) : EndsPair g hit (l.take (d + 1)) c := by
  have hd := h.hit_mid.lt_length
  have hlt := h.lt_left
  have hlen : (l.take (d + 1)).length = d + 1 := by rw [length_take]; omega
  refine ⟨(hitAt_take hit (by omega)).mpr h.hit_left,?_,by omega,?_,?_⟩
  · rw [hlen,hitAt_take hit (by omega)]
    exact h.hit_mid
  · intro i hi hj
    rw [hitAt_take hit (by omega)]
    exact h.quiet_left i hi (by omega)
  · rw [hlen]
    exact h.gap_left

theorem Triple.startsGap (h : Triple g hit l c d e) : StartsGap g hit (l.drop (d + 1)) (e - (d + 1)) := by
  have hlt := h.lt_right
  refine ⟨?_,?_,?_⟩
  · rw [hitAt_drop,show d + 1 + (e - (d + 1)) = e by omega]
    exact h.hit_right
  · intro i hi
    rw [hitAt_drop]
    exact h.quiet_right _ (by omega) (by omega)
  · rw [show e - (d + 1) + 1 = e - d by omega]
    exact h.gap_right

theorem EndsPair.triple (hl : EndsPair g hit l c) (ht : StartsGap g hit t e) :
    Triple g hit (l ++ t) c (l.length - 1) (l.length + e) := by
  have hlt := hl.lt
  refine ⟨?_,?_,?_,by omega,by omega,?_,?_,hl.gap,?_⟩
  · rw [hitAt_append_left hit (by omega)]
    exact hl.hit_left
  · rw [hitAt_append_left hit (by omega)]
    exact hl.hit_last
  · rw [hitAt_append_right hit (by omega),Nat.add_sub_cancel_left]
    exact ht.hit_first
  · intro i hi hj
    rw [hitAt_append_left hit (by omega)]
    exact hl.quiet i hi hj
  · intro i hi hj
    rw [hitAt_append_right hit (by omega)]
    exact ht.quiet _ (by omega)
  · rw [show l.length + e - (l.length - 1) = e + 1 by omega]
    exact ht.gap

theorem EndsPair.closed (h : EndsPair g hit l c) (A : List α) : Closed (rule g hit) (A ++ l) := by
  have hlt := h.lt
  obtain ⟨x,hx,hxh⟩ := h.hit_left
  obtain ⟨y,hy,hyh⟩ := h.hit_last
  set q := (l.drop (c + 1)).take (l.length - 1 - (c + 1)) with hq
  have hql : q.length = l.length - 1 - (c + 1) := by
    rw [hq,length_take,length_drop]
    omega
  have hqu : ∀ z ∈ q, hit z = false := by
    intro z hz
    obtain ⟨i,hi,hiz⟩ := mem_iff_getElem.mp hz
    have hz' : l[c + 1 + i]? = some z := by
      rw [← getElem?_drop,← getElem?_take_of_lt (show i < l.length - 1 - (c + 1) by omega)]
      exact List.getElem?_eq_some_iff.mpr ⟨hi,hiz⟩
    have hn := h.quiet (c + 1 + i) (by omega) (by omega)
    cases hh : hit z with
    | false => rfl
    | true => exact absurd ⟨z,hz',hh⟩ hn
  have hl : l = l.take c ++ [x] ++ q ++ [y] := by
    have hxd : l.drop c = x :: l.drop (c + 1) := by
      rw [drop_eq_getElem_cons (by omega)]
      congr
      exact Option.some.inj ((getElem?_eq_getElem (by omega)).symm.trans hx)
    have hyd : l.drop (l.length - 1) = [y] := by
      rw [drop_eq_getElem_cons (by omega),drop_eq_nil_of_le (by omega)]
      congr
      exact Option.some.inj ((getElem?_eq_getElem (by omega)).symm.trans hy)
    have hsp : l.drop (c + 1) = q ++ [y] := by
      rw [hq,← hyd]
      conv_lhs => rw [← take_append_drop (l.length - 1 - (c + 1)) (l.drop (c + 1))]
      rw [drop_drop]
      congr 2
      omega
    rw [append_assoc,append_assoc,← hsp,singleton_append,← hxd,take_append_drop]
  have hg := h.gap
  unfold ValidGap at hg
  have hc := closed_of_hit_pair g hit (A ++ l.take c) hxh hyh hqu (by omega) (by omega)
  rw [hl]
  simpa only [append_assoc] using hc

/-- Everything up to a seam is closed behind whatever may precede it. -/
theorem Triple.closed_take (h : Triple g hit l c d e) (A : List α) :
    Closed (rule g hit) (A ++ l.take (d + 1)) := h.endsPair.closed A

theorem EndsPair.isFirst (hl : EndsPair g hit l c) (ht : StartsGap g hit t e)
    (hno : NoTriple g hit l) : IsFirst g hit (l ++ t) (l.length - 1) := by
  refine ⟨⟨_,_,hl.triple ht⟩,?_⟩
  intro c' d' e' h'
  by_contra hlt
  -- a triple with an earlier middle hit lies before the join: its right hit cannot pass the pair's
  -- last hit
  have hm := hl.hit_last
  have he : e' ≤ l.length - 1 := by
    by_contra hgt
    exact h'.quiet_right (l.length - 1) (by omega) (by omega) ((hitAt_append_left hit (by omega)).mpr hm)
  exact hno _ _ _ (h'.of_append_right (by omega))

theorem EndsPair.isLast (hl : EndsPair g hit l c) (ht : StartsGap g hit t e)
    (hno : NoTriple g hit ((l ++ t).drop (l.length - 1))) : IsLast g hit (l ++ t) (l.length - 1) := by
  refine ⟨⟨_,_,hl.triple ht⟩,?_⟩
  intro c' d' e' h'
  by_contra hlt
  have hc : l.length - 1 ≤ c' := by
    by_contra hgt
    exact h'.quiet_left (l.length - 1) (by omega) (by omega)
      ((hitAt_append_left hit (by omega)).mpr hl.hit_last)
  have hsp := take_append_drop (l.length - 1) (l ++ t)
  have hlen : ((l ++ t).take (l.length - 1)).length = l.length - 1 := by
    rw [length_take,length_append]
    omega
  rw [← hsp] at h'
  exact hno _ _ _ (h'.of_append_left (by omega))

/-- The first seam is still the first one when elements are appended. -/
theorem IsFirst.append (h : IsFirst g hit l d) (t : List α) : IsFirst g hit (l ++ t) d := by
  obtain ⟨c,e,ht⟩ := h.triple
  refine ⟨⟨c,e,ht.append_right t⟩,?_⟩
  intro c' d' e' h'
  by_contra hlt
  have hd := ht.hit_mid.lt_length
  have he : e' ≤ d := by
    by_contra hgt
    exact h'.quiet_right d (by omega) (by omega) ((hitAt_append_left hit hd).mpr ht.hit_mid)
  exact hlt (h.least _ _ _ (h'.of_append_right (by omega)))

/-- The last seam is still the last one when elements are put in front. -/
theorem IsLast.append (h : IsLast g hit l d) (A : List α) : IsLast g hit (A ++ l) (A.length + d) := by
  obtain ⟨c,e,ht⟩ := h.triple
  refine ⟨⟨_,_,ht.append_left A⟩,?_⟩
  intro c' d' e' h'
  by_contra hlt
  have hc : A.length + d ≤ c' := by
    by_contra hgt
    exact h'.quiet_left (A.length + d) (by omega) (by omega) (ht.append_left A).hit_mid
  have hle := h.greatest _ _ _ (h'.of_append_left (by omega))
  omega

theorem noTriple_cons_congr {x y : α} (hxy : hit x = hit y) (h : NoTriple g hit (x :: l)) :
    NoTriple g hit (y :: l) := by
  intro c d e ht
  refine h c d e ((triple_congr fun i _ => ?_).mp ht)
  cases i with
  | zero => simp [HitAt,hxy]
  | succ i => simp [HitAt]

theorem EndsPair.drop_last (h : EndsPair g hit l c) (t : List α) :
    ∃ x, hit x = true ∧ (l ++ t).drop (l.length - 1) = x :: t := by
  have hlt := h.lt
  obtain ⟨x,hx,hxh⟩ := h.hit_last
  refine ⟨x,hxh,?_⟩
  have hd : l.drop (l.length - 1) = [x] := by
    rw [drop_eq_getElem_cons (by omega),drop_eq_nil_of_le (by omega)]
    congr
    exact Option.some.inj ((getElem?_eq_getElem (by omega)).symm.trans hx)
  rw [drop_append_of_le_length (by omega),hd,singleton_append]

/-- Taking out what lies between the first and the last seam joins both into one that is
found from either side. -/
theorem isFirst_isLast_join {L N M R : List α} (hL : L ≠ []) (hM : M ≠ [])
    (hf : IsFirst g hit (L ++ N) (L.length - 1)) (hl : IsLast g hit (M ++ R) (M.length - 1)) :
    IsFirst g hit (L ++ R) (L.length - 1) ∧ IsLast g hit (L ++ R) (L.length - 1) := by
  have hlp := length_pos_iff.mpr hL
  have hm := length_pos_iff.mpr hM
  obtain ⟨c,_,hc⟩ := hf.triple
  obtain ⟨c',e,he⟩ := hl.triple
  have hp := hc.endsPair
  rw [show L.length - 1 + 1 = L.length by omega,take_left] at hp
  have hp' := he.endsPair
  have hg := he.startsGap
  rw [show M.length - 1 + 1 = M.length by omega] at hp' hg
  rw [take_left] at hp'
  rw [drop_left] at hg
  have hno := hf.noTriple_take
  rw [show L.length - 1 + 1 = L.length by omega,take_left] at hno
  obtain ⟨x,hx,hxR⟩ := hp.drop_last R
  obtain ⟨y,hy,hyR⟩ := hp'.drop_last R
  have hno' := hl.noTriple_drop
  rw [hyR] at hno'
  refine ⟨hp.isFirst hg hno,hp.isLast hg ?_⟩
  rw [hxR]
  exact noTriple_cons_congr (hy.trans hx.symm) hno'

section Visits
variable {β : Type*} (r : β → β → Prop) (hits : β → Prop) (good : β → β → β → Prop)

/-- Three hits in the order of the visits, with no hit between them. -/
structure Successive (a b c : β) : Prop where
  hit_first : hits a
  hit_mid : hits b
  hit_last : hits c
  lt_first : r a b
  lt_last : r b c
  quiet_first : ∀ i, r a i → r i b → ¬hits i
  quiet_last : ∀ i, r b i → r i c → ¬hits i

/-- The hits among the places that were seen, the last one first. -/
def Visited : List β → (β → Prop) → Prop
  | [], seen => ∀ i, seen i → ¬hits i
  | b :: vs, seen => hits b ∧ seen b ∧ (∀ i, r b i → seen i → ¬hits i) ∧ Visited vs (r · b)

structure Searching (vs : List β) (seen : β → Prop) : Prop where
  visited : Visited r hits vs seen
  free : ∀ a b c, Successive r hits a b c → good a b c → ¬seen c

variable {r hits good} {vs : List β} {seen seen' : β → Prop} {a b c x : β}

theorem Successive.flip (h : Successive r hits a b c) : Successive (fun a b => r b a) hits c b a :=
  ⟨h.hit_last,h.hit_mid,h.hit_first,h.lt_last,h.lt_first,fun i hi hj => h.quiet_last i hj hi,
    fun i hi hj => h.quiet_first i hj hi⟩

theorem Visited.congr (h : Visited r hits vs seen) (hs : ∀ i, hits i → (seen i ↔ seen' i)) :
    Visited r hits vs seen' := by
  cases vs with
  | nil => exact fun i hi hh => h i ((hs i hh).mpr hi) hh
  | cons b vs =>
    obtain ⟨hb,hse,hq,hr⟩ := h
    exact ⟨hb,(hs b hb).mp hse,fun i hi hj hh => hq i hi ((hs i hh).mpr hj) hh,hr⟩

variable [IsStrictTotalOrder β r]

theorem Visited.eq_cons (h : Visited r hits vs (r · c)) (hb : hits b) (hlt : r b c)
    (hno : ∀ i, r b i → r i c → ¬hits i) : ∃ ws, vs = b :: ws ∧ Visited r hits ws (r · b) := by
  cases vs with
  | nil => exact absurd hb (h b hlt)
  | cons v vs =>
    obtain ⟨hv,hvc,hq,hr⟩ := h
    rcases trichotomous_of r v b with hvb | rfl | hbv
    · exact absurd hb (hq b hvb hlt)
    · exact ⟨vs,rfl,hr⟩
    · exact absurd hv (hno v hbv hvc)

namespace Searching
variable (h : Searching r hits good vs seen) (hs : ∀ i, hits i → (seen i ↔ r i x))
include h hs

/-- Hits right before the next one are the last two that were visited. -/
theorem eq_cons_cons (ht : Successive r hits a b x) : ∃ ws, vs = b :: a :: ws := by
  obtain ⟨ws,rfl,hws⟩ := (h.visited.congr hs).eq_cons ht.hit_mid ht.lt_last ht.quiet_last
  obtain ⟨us,rfl,-⟩ := hws.eq_cons ht.hit_first ht.lt_first ht.quiet_first
  exact ⟨us,rfl⟩

theorem next (hx : hits x) (hs' : ∀ i, seen' i ↔ r i x ∨ i = x)
    (hb : ∀ b a ws, vs = b :: a :: ws → ¬good a b x) : Searching r hits good (x :: vs) seen' where
  visited := by
    refine ⟨hx,(hs' x).mpr (.inr rfl),fun i hi hse _ => ?_,h.visited.congr hs⟩
    rcases (hs' i).mp hse with hlt | rfl
    · exact asymm hi hlt
    · exact irrefl i hi
  free a b c ht hg hse := by
    rcases (hs' c).mp hse with hlt | rfl
    · exact h.free a b c ht hg ((hs c ht.hit_last).mpr hlt)
    · obtain ⟨ws,hvs⟩ := h.eq_cons_cons hs ht
      exact hb b a ws hvs hg

/-- The three hits that are found first have the first middle. -/
theorem found {ws : List β} (hvs : vs = b :: a :: ws) (hx : hits x) :
    Successive r hits a b x ∧ ∀ a' b' c', Successive r hits a' b' c' → good a' b' c' →
      b = b' ∨ r b b' := by
  have hv := h.visited.congr hs
  rw [hvs] at hv
  obtain ⟨hb,hbx,hq,ha,hab,hq',-⟩ := hv
  refine ⟨⟨ha,hb,hx,hab,hbx,hq',hq⟩,fun a' b' c' ht hg => ?_⟩
  rcases trichotomous_of r c' x with hlt | rfl | hgt
  · exact absurd ((hs c' ht.hit_last).mpr hlt) (h.free a' b' c' ht hg)
  · obtain ⟨us,hus⟩ := h.eq_cons_cons hs ht
    exact .inl (cons.inj (hvs.symm.trans hus)).1
  · rcases trichotomous_of r x b' with hlt | rfl | hgt'
    · exact .inr (IsTrans.trans _ _ _ hbx hlt)
    · exact .inr hbx
    · exact absurd hx (ht.quiet_last x hgt' hgt)

end Searching
end Visits

end XetCore.Seam
