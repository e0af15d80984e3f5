import XetCore.RangeUpload.WindowSpec

/-! # Where the windows lie

The windows are in order, hold every dirty range, and start where a dirty range starts when
dirty ranges start at chunks. A window that does not reach the end of the file ends with two
stable chunks behind its dirty ranges.
-/
namespace XetCore.RangeUpload
open Merkle Chunking Intervals Reconstruction WindowScan List

variable {H : Type}
variable (pos : ℕ) {x : Placed H}

def nodeBytes (cs : List (Node H)) : ℕ := (cs.map (·.2)).sum

@[simp] theorem nodeBytes_nil : nodeBytes ([] : List (Node H)) = 0 := rfl
@[simp] theorem nodeBytes_cons (c : Node H) (cs : List (Node H)) :
    nodeBytes (c :: cs) = c.2 + nodeBytes cs := by
  simp [nodeBytes]
@[simp] theorem nodeBytes_append (as bs : List (Node H)) :
    nodeBytes (as ++ bs) = nodeBytes as + nodeBytes bs := by
  simp [nodeBytes]

section Place
variable {pos} {cs : List (Node H)}

theorem place_append (pos : ℕ) (as bs : List (Node H)) :
    place pos (as ++ bs) = place pos as ++ place (pos + nodeBytes as) bs := by
  induction as generalizing pos with
  | nil => rfl
  | cons a as ih => simp [place,ih,Nat.add_assoc]

theorem place_map_snd (pos : ℕ) (cs : List (Node H)) : (place pos cs).map (·.2) = cs := by
  induction cs generalizing pos with
  | nil => rfl
  | cons c cs ih => rw [place,map_cons,ih]

theorem place_eq_append {xs ys : List (Placed H)} (h : place pos cs = xs ++ ys) :
    ∃ as bs, cs = as ++ bs ∧ xs = place pos as ∧ ys = place (pos + nodeBytes as) bs := by
  induction xs generalizing pos cs with
  | nil => exact ⟨[],cs,rfl,rfl,h.symm⟩
  | cons x xs ih =>
    cases cs with
    | nil => simp [place] at h
    | cons c cs =>
      obtain ⟨rfl,hr⟩ := cons.inj h
      obtain ⟨as,bs,rfl,rfl,rfl⟩ := ih hr
      exact ⟨c :: as,bs,rfl,rfl,by rw [nodeBytes_cons,Nat.add_assoc]⟩

theorem mem_place (hx : x ∈ place pos cs) :
    pos ≤ x.1.start ∧ x.1.start ≤ x.1.stop ∧ x.1.stop ≤ pos + nodeBytes cs := by
  induction cs generalizing pos with
  | nil => simp [place] at hx
  | cons c cs ih =>
    rw [nodeBytes_cons]
    rcases mem_cons.mp hx with rfl | hx
    · exact ⟨le_rfl,by simp,by simp⟩
    · obtain ⟨h1,h2,h3⟩ := ih hx
      omega

theorem extent_place (hcs : cs ≠ []) : extent (place pos cs) = ⟨pos,pos + nodeBytes cs⟩ := by
  rcases eq_nil_or_concat cs with rfl | ⟨as,c,rfl⟩
  · exact absurd rfl hcs
  · have hl : (place pos (as ++ [c])).getLast? =
        some (⟨pos + nodeBytes as,pos + nodeBytes as + c.2⟩,c) := by simp [place_append,place]
    have hf : ((place pos (as ++ [c])).head?.map (·.1.start)).getD 0 = pos := by cases as <;> rfl
    rw [concat_eq_append,extent,hf,hl]
    simp [Nat.add_assoc]

theorem exists_mem_place {b : ℕ} (hle : pos ≤ b) (hlt : b < pos + nodeBytes cs) :
    ∃ x ∈ place pos cs, x.1.start ≤ b ∧ b < x.1.stop := by
  induction cs generalizing pos with
  | nil =>
    rw [nodeBytes_nil] at hlt
    omega
  | cons c cs ih =>
    rw [nodeBytes_cons] at hlt
    by_cases hc : b < pos + c.2
    · exact ⟨_,mem_cons_self,hle,hc⟩
    · have hle' : pos + c.2 ≤ b := by omega
      obtain ⟨x,hx,h⟩ := ih hle' (by omega)
      exact ⟨x,mem_cons_of_mem _ hx,h⟩

end Place

abbrev Pairs (H : Type) := List (List (Node H) × List (Node H))

def placePairs : ℕ → Pairs H → List (List (Placed H) × List (Placed H))
  | _, [] => []
  | pos, (g,w) :: qs =>
    (place pos g,place (pos + nodeBytes g) w) :: placePairs (pos + nodeBytes g + nodeBytes w) qs

def windowRanges : ℕ → Pairs H → List FileRange
  | _, [] => []
  | pos, (g,w) :: qs =>
    ⟨pos + nodeBytes g,pos + nodeBytes g + nodeBytes w⟩ ::
      windowRanges (pos + nodeBytes g + nodeBytes w) qs

theorem nodeBytes_joined_cons (q : List (Node H) × List (Node H)) (qs : Pairs H) :
    nodeBytes (joined (q :: qs)) = nodeBytes q.1 + nodeBytes q.2 + nodeBytes (joined qs) := by
  rw [joined_cons,nodeBytes_append,nodeBytes_append]

theorem placePairs_append (as bs : Pairs H) :
    placePairs pos (as ++ bs) = placePairs pos as ++ placePairs (pos + nodeBytes (joined as)) bs := by
  induction as generalizing pos with
  | nil => rfl
  | cons a as ih =>
    simp [placePairs,ih,Nat.add_assoc]

theorem windowRanges_append (as bs : Pairs H) :
    windowRanges pos (as ++ bs) = windowRanges pos as ++
      windowRanges (pos + nodeBytes (joined as)) bs := by
  induction as generalizing pos with
  | nil => rfl
  | cons a as ih =>
    simp [windowRanges,ih,Nat.add_assoc]

theorem joined_placePairs (qs : Pairs H) : joined (placePairs pos qs) = place pos (joined qs) := by
  induction qs generalizing pos with
  | nil => rfl
  | cons q qs ih =>
    simp [placePairs,ih,place_append]

theorem extent_placePairs {qs : Pairs H} (hne : ∀ q ∈ qs, q.2 ≠ []) :
    (placePairs pos qs).map (fun p => extent p.2) = windowRanges pos qs := by
  induction qs generalizing pos with
  | nil => rfl
  | cons q qs ih =>
    obtain ⟨g,w⟩ := q
    rw [placePairs,map_cons,extent_place (hne (g,w) (by simp)),ih _ fun q hq =>
      hne q (by simp [hq]),windowRanges]

theorem exists_pairs {pos : ℕ} {cs : List (Node H)} {ps : List (List (Placed H) × List (Placed H))}
    {tail : List (Placed H)} (h : place pos cs = joined ps ++ tail) :
    ∃ qs tl, cs = joined qs ++ tl ∧ ps = placePairs pos qs ∧
    tail = place (pos + nodeBytes (joined qs)) tl := by
  induction ps generalizing pos cs with
  | nil => exact ⟨[],cs,rfl,rfl,h.symm⟩
  | cons p ps ih =>
    rw [joined_cons,append_assoc,append_assoc] at h
    obtain ⟨g,rest,rfl,hg,hr⟩ := place_eq_append h
    obtain ⟨w,rest,rfl,hw,hr⟩ := place_eq_append hr.symm
    obtain ⟨qs,tl,rfl,rfl,rfl⟩ := ih hr.symm
    refine ⟨(g,w) :: qs,tl,by simp,?_,by simp [Nat.add_assoc]⟩
    rw [placePairs,← hg,← hw]

/-- The gaps and windows of a file, with what lies behind the last window. -/
structure Layout (C : Constants) (ranges : List FileRange) (chunks : List (Node H)) (qs : Pairs H)
    (tl : List (Node H)) : Prop where
  ordered : Ordered ranges
  chunks_eq : joined qs ++ tl = chunks
  split : IsSplit (dirty ranges) (stable C) (place 0 chunks) (placePairs 0 qs)
    (place (nodeBytes (joined qs)) tl)

/-- Besides, no window goes on behind two stable chunks. -/
structure TightLayout (C : Constants) (ranges : List FileRange) (chunks : List (Node H)) (qs : Pairs H)
    (tl : List (Node H)) : Prop extends Layout C ranges chunks qs tl where
  tight : ∀ p ∈ placePairs 0 qs, Tight (dirty ranges) (stable C) p.2

theorem placePairs_ne_nil {hot : Placed H → Bool} {pos : ℕ} {qs : Pairs H}
    (h : ∀ p ∈ placePairs pos qs, Opens hot p.2) : ∀ q ∈ qs, q.2 ≠ [] := by
  induction qs generalizing pos with
  | nil => simp
  | cons q qs ih =>
    obtain ⟨g,w⟩ := q
    refine forall_mem_cons.mpr ⟨?_,ih fun p hp => h p (mem_cons_of_mem _ hp)⟩
    obtain ⟨x,rest,hw,-⟩ := h _ mem_cons_self
    rintro rfl
    simp [place] at hw

theorem exists_layout (K : NodeHasher H) (C : Constants) {ranges : List FileRange} (ho : Ordered ranges)
    (chunks : List (Node H)) : ∃ qs tl, TightLayout C ranges chunks qs tl ∧
      ((ChunkWindowBuilder.processAll K C ranges chunks {}).finish K).1 = windowRanges 0 qs ∧
      ((ChunkWindowBuilder.processAll K C ranges chunks {}).finish K).2 =
        gapRanges K true (placePairs 0 qs) ++
        [ChunkWindowBuilder.toOption (MerkleHashSubtree.fromChunks K qs.isEmpty tl true)] := by
  obtain ⟨ps,tail,hs,ht,hw,hr⟩ := finish_processAll K C ho chunks
  obtain ⟨qs,tl,rfl,rfl,rfl⟩ := exists_pairs hs.joined_eq.symm
  rw [Nat.zero_add] at hs
  refine ⟨qs,tl,⟨⟨ho,rfl,hs⟩,ht⟩,hw.trans (extent_placePairs 0 (placePairs_ne_nil hs.opens)),?_⟩
  rw [hr,place_map_snd]
  cases qs <;> rfl

section Facts
variable {C : Constants} {ranges : List FileRange} {chunks : List (Node H)} {qs : Pairs H}
  {tl : List (Node H)}
variable {front back : Pairs H} {g w : List (Node H)} {r : FileRange}

theorem windowRanges_bounds {pos : ℕ} : (windowRanges pos qs).Pairwise (fun a b => a.stop ≤ b.start) ∧
    ∀ w ∈ windowRanges pos qs, pos ≤ w.start ∧ w.start ≤ w.stop ∧
    w.stop ≤ pos + nodeBytes (joined qs) := by
  induction qs generalizing pos with
  | nil => simp [windowRanges]
  | cons q qs ih =>
    obtain ⟨g,w⟩ := q
    have hre := @ih (pos + nodeBytes g + nodeBytes w)
    rw [nodeBytes_joined_cons,windowRanges]
    refine ⟨pairwise_cons.mpr ⟨fun r hr => (hre.2 r hr).1,hre.1⟩,?_⟩
    refine forall_mem_cons.mpr ⟨⟨by simp,by simp,by simp; omega⟩,fun r hr => ?_⟩
    obtain ⟨h1,h2,h3⟩ := hre.2 r hr
    simp only at h3 ⊢
    omega

theorem Layout.windows_ne_nil (h : Layout C ranges chunks qs tl) : ∀ q ∈ qs, q.2 ≠ [] :=
  placePairs_ne_nil h.split.opens

theorem mem_windowRanges {pos : ℕ} {w : FileRange} (hw : w ∈ windowRanges pos qs) :
    ∃ front q back, qs = front ++ q :: back ∧
      w = ⟨pos + nodeBytes (joined front) + nodeBytes q.1,pos + nodeBytes (joined front) +
        nodeBytes q.1 + nodeBytes q.2⟩ := by
  induction qs generalizing pos with
  | nil => simp [windowRanges] at hw
  | cons q qs ih =>
    obtain ⟨g,v⟩ := q
    rcases mem_cons.mp hw with rfl | hw
    · exact ⟨[],(g,v),qs,rfl,by simp⟩
    · obtain ⟨front,q,back,rfl,rfl⟩ := ih hw
      exact ⟨(g,v) :: front,q,back,rfl,by rw [nodeBytes_joined_cons]; simp [Nat.add_assoc]⟩

theorem placePairs_pair (heq : qs = front ++ (g,w) :: back) : placePairs 0 qs = placePairs 0 front ++
      (place (nodeBytes (joined front)) g,place (nodeBytes (joined front) + nodeBytes g) w) ::
      placePairs (nodeBytes (joined front) + nodeBytes g + nodeBytes w) back := by
  rw [heq,placePairs_append,placePairs,Nat.zero_add]

theorem not_dirty (h : dirty ranges x = false) (hr : r ∈ ranges) :
    x.1.stop ≤ r.start ∨ r.stop ≤ x.1.start := by
  have ho := any_eq_false.mp h r hr
  simp only [overlaps,Bool.and_eq_true,decide_eq_true_eq] at ho
  omega

/-- Every window that does not reach the end of the file ends with two stable chunks, and every
dirty range that starts before its end lies before them. -/
theorem Layout.closes (h : Layout C ranges chunks qs tl) (heq : qs = front ++ (g,w) :: back) :
    (∃ body x y, w = body ++ [x,y] ∧ isStableChunkSize C x.2 = true ∧ isStableChunkSize C y.2 = true ∧
      ∀ r ∈ ranges, r.start < nodeBytes (joined front) + nodeBytes g + nodeBytes w →
        r.stop ≤ nodeBytes (joined front) + nodeBytes g + nodeBytes body) ∨ (back = [] ∧ tl = []) := by
  rcases h.split.closes _ _ _ (placePairs_pair heq) with hcl | ⟨hb,htl⟩
  · obtain ⟨body,x,y,hw,hc,hx,hy⟩ := hcl.ends
    obtain ⟨body,rest,rfl,-,hre⟩ := place_eq_append hw
    obtain ⟨c,d,rfl⟩ : ∃ c d, rest = [c,d] := by
      match rest, hre with
      | [c,d], _ => exact ⟨c,d,rfl⟩
    obtain ⟨rfl,rfl⟩ := hre
    refine Or.inl ⟨body,c,d,rfl,hx,hy,fun r hr hlt => ?_⟩
    -- the range is not empty, so it cannot lie between the two chunks
    have hx' := not_dirty (hc _ mem_cons_self) hr
    have hy' := not_dirty (hc _ (mem_cons_of_mem _ mem_cons_self)) hr
    have hne := h.ordered.lt r hr
    simp only [nodeBytes_append,nodeBytes_cons,nodeBytes_nil] at hlt hx' hy' ⊢
    omega
  · refine Or.inr ⟨?_,?_⟩
    · cases back <;> simp_all [placePairs]
    · cases tl <;> simp_all [place]

theorem mem_placePairs {pos : ℕ} {p : List (Placed H) × List (Placed H)} (hp : p ∈ placePairs pos qs) :
    ∃ front g w back, qs = front ++ (g,w) :: back ∧
    p.2 = place (pos + nodeBytes (joined front) + nodeBytes g) w := by
  induction qs generalizing pos with
  | nil => simp [placePairs] at hp
  | cons q qs ih =>
    obtain ⟨g,v⟩ := q
    rcases mem_cons.mp hp with rfl | hp
    · exact ⟨[],g,v,qs,rfl,rfl⟩
    · obtain ⟨front,g',w,back,rfl,hw⟩ := ih hp
      refine ⟨(g,v) :: front,g',w,back,rfl,?_⟩
      rw [hw,nodeBytes_joined_cons]
      simp [Nat.add_assoc]

theorem windowRange_mem (heq : qs = front ++ (g,w) :: back) :
    (⟨nodeBytes (joined front) + nodeBytes g,nodeBytes (joined front) + nodeBytes g + nodeBytes w⟩ :
      FileRange) ∈
      windowRanges 0 qs := by
  rw [heq,windowRanges_append,windowRanges,Nat.zero_add]
  simp

theorem Layout.covered (h : Layout C ranges chunks qs tl) (hr : r ∈ ranges)
    (hs : r.stop ≤ nodeBytes chunks) : ∃ w ∈ windowRanges 0 qs, w.start ≤ r.start ∧ r.stop ≤ w.stop := by
  have hne := h.ordered.lt r hr
  have hby : r.start < 0 + nodeBytes chunks := by omega
  obtain ⟨x,hx,hle,hlt⟩ := exists_mem_place (Nat.zero_le r.start) hby
  have hd : dirty ranges x = true := any_eq_true.mpr ⟨r,hr,by simp [overlaps]; omega⟩
  obtain ⟨p,hp,hxp⟩ := h.split.hot_in_window hx hd
  obtain ⟨front,g,w,back,heq,hw⟩ := mem_placePairs hp
  rw [hw,Nat.zero_add] at hxp
  obtain ⟨hlo,-,hhi⟩ := mem_place hxp
  refine ⟨_,windowRange_mem heq,by simp only; omega,?_⟩
  rcases h.closes heq with ⟨body,y,z,rfl,-,-,hb⟩ | ⟨rfl,rfl⟩
  · have := hb r hr (by omega)
    simp only [nodeBytes_append]
    omega
  · have hc := h.chunks_eq
    rw [← hc,heq] at hs
    simp only [joined_append,joined_cons,joined_nil,append_nil,nodeBytes_append] at hs ⊢
    omega

theorem nodeBytes_le_of_lt {pre as bs rest : List (Node H)} {c : Node H}
    (heq : pre ++ c :: rest = as ++ bs)
    (hlt : nodeBytes as < nodeBytes pre + c.2) : nodeBytes as ≤ nodeBytes pre := by
  rcases append_eq_append_iff.mp heq with ⟨ms,rfl,hms⟩ | ⟨ms,rfl,-⟩
  · cases ms with
    | nil => simp
    | cons m ms =>
      cases hms
      simp only [nodeBytes_append,nodeBytes_cons] at hlt
      omega
  · simp

/-- A window starts where a dirty range does, when these start at chunks. -/
theorem Layout.start_mem (h : Layout C ranges chunks qs tl)
    (hb : ∀ r ∈ ranges, ∃ as bs, chunks = as ++ bs ∧ r.start = nodeBytes as) {w : FileRange}
    (hw : w ∈ windowRanges 0 qs) : ∃ r ∈ ranges, r.start = w.start := by
  obtain ⟨front,⟨g,v⟩,back,heq,rfl⟩ := mem_windowRanges hw
  rw [Nat.zero_add]
  have hp := placePairs_pair heq
  obtain ⟨x,items,hx,hd⟩ := h.split.opens _ (hp ▸ mem_append_right _ mem_cons_self)
  obtain ⟨r,hr,ho⟩ := any_eq_true.mp hd
  refine ⟨r,hr,?_⟩
  cases v with
  | nil => simp [place] at hx
  | cons c v =>
    cases hx
    simp only [overlaps,Bool.and_eq_true,decide_eq_true_eq] at ho
    obtain ⟨as,bs,hs,hst⟩ := hb r hr
    have hc : (joined front ++ g) ++ c :: (v ++ joined back ++ tl) = as ++ bs := by
      rw [← hs,← h.chunks_eq,heq]
      simp
    have hle := nodeBytes_le_of_lt hc (by rw [nodeBytes_append]; omega)
    rw [nodeBytes_append,← hst] at hle
    refine hle.antisymm (le_of_not_gt fun hlt => ?_)
    -- otherwise the chunk before the window meets the range as well
    have hpl : joined (placePairs 0 front) ++ place (nodeBytes (joined front)) g =
        place 0 (joined front ++ g) := by rw [joined_placePairs,place_append,Nat.zero_add]
    have hbe := h.split.before_window hp
    simp only [hpl] at hbe
    rcases hbe with hn | ⟨ys,z,hl,hco⟩
    · have := congrArg (fun xs => nodeBytes (xs.map Prod.snd)) hn
      simp only [place_map_snd,nodeBytes_append,map_nil,nodeBytes_nil] at this
      omega
    · obtain ⟨cs,ds,hcs,-,hz⟩ := place_eq_append hl
      obtain ⟨d,rfl⟩ : ∃ d, ds = [d] := by
        have hsn := congrArg (List.map Prod.snd) hz
        rw [place_map_snd] at hsn
        exact ⟨z.2,hsn.symm⟩
      obtain rfl := (cons.inj hz).1
      have hby := congrArg nodeBytes hcs
      have hz' := not_dirty hco hr
      simp only [nodeBytes_append,nodeBytes_cons,nodeBytes_nil] at hby hz'
      omega

end Facts
end XetCore.RangeUpload
