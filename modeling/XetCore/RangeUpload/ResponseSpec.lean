import XetCore.RangeUpload.CombinedHash

/-! # What the server answers

Each window of the answer starts with the chunk in which its first dirty range starts,
and ends at the stable boundary that is searched for from the end of its last dirty range.
-/
namespace XetCore.RangeUpload
open Merkle MerkleHashSubtree Chunking Dedup Intervals Reconstruction WindowScan List

variable {H : Type} {C : Constants}

/-- The end of the first two stable sizes in a row, from a position on. -/
def stablePair (C : Constants) : ℕ → List ℕ → Option ℕ
  | pos, x :: y :: rest =>
    if isStableChunkSize C x && isStableChunkSize C y then some (pos + x + y)
      else stablePair C (pos + x) (y :: rest)
  | _, _ => none

theorem boundariesFrom_getD_length (as : List ℕ) (b : ℕ) (bs : List ℕ) :
    (boundariesFrom 0 (as ++ b :: bs)).getD as.length 0 = as.sum + b := by
  rw [boundariesFrom_getD (by simp)]
  simp

theorem nextStableChunkBoundary_eq {as vs : List ℕ} {z start : ℕ} (hlt : as.sum < start)
    (hle : start ≤ as.sum + z) :
    nextStableChunkBoundary C start (boundariesFrom 0 (as ++ z :: vs)) =
      stablePair C (as.sum + z) vs := by
  have hid : (boundariesFrom 0 (as ++ z :: vs)).takeWhile (· < start) = boundariesFrom 0 as := by
    have hf : ∀ b ∈ boundariesFrom 0 as, decide (b < start) = true := by
      intro b hb
      have := boundariesFrom_le hb
      exact decide_eq_true (by omega)
    rw [boundariesFrom_append,takeWhile_append_of_pos hf,boundariesFrom,takeWhile_cons_of_neg]
    · simp
    · simpa using hle
  unfold nextStableChunkBoundary
  simp only [hid,boundariesFrom_length]
  have hc : (as ++ z :: vs).length - 2 - as.length = vs.length - 1 := by
    simp only [length_append,length_cons]
    omega
  rw [hc]
  clear hid hc hlt hle
  induction vs generalizing as z with
  | nil => rfl
  | cons x vs ih =>
    cases vs with
    | nil => rfl
    | cons y vs =>
      have hn := @ih (as ++ [z]) x
      have hz := boundariesFrom_getD_length as z (x :: y :: vs)
      have hx := boundariesFrom_getD_length (as ++ [z]) x (y :: vs)
      have hy := boundariesFrom_getD_length (as ++ [z,x]) y vs
      simp only [append_assoc,cons_append,nil_append,length_append,length_cons,length_nil,
        sum_append,sum_cons,sum_nil,Nat.reduceAdd,Nat.add_sub_cancel] at hx hy hn
      rw [length_cons,length_cons,Nat.add_sub_cancel,range'_succ,findSome?_cons]
      have hs : (boundariesFrom 0 (as ++ z :: x :: y :: vs)).getD (as.length + 1) 0 -
          (boundariesFrom 0 (as ++ z :: x :: y :: vs)).getD as.length 0 = x := by omega
      have hsi : (boundariesFrom 0 (as ++ z :: x :: y :: vs)).getD (as.length + 2) 0 -
          (boundariesFrom 0 (as ++ z :: x :: y :: vs)).getD (as.length + 1) 0 = y := by omega
      have he : (boundariesFrom 0 (as ++ z :: x :: y :: vs)).getD (as.length + 2) 0 = as.sum + z +
        x + y := by omega
      rw [hs,hsi,he,hn,stablePair]
      cases isStableChunkSize C x && isStableChunkSize C y <;> rfl

abbrev NotBothStable (C : Constants) (x y : ℕ) : Prop :=
  ¬(isStableChunkSize C x = true ∧ isStableChunkSize C y = true)

theorem stablePair_cons {x y : ℕ} (h : NotBothStable C x y) (pos : ℕ) (rest : List ℕ) :
    stablePair C pos (x :: y :: rest) = stablePair C (pos + x) (y :: rest) := by
  rw [stablePair,if_neg (by simpa using h)]

theorem stablePair_tight {vs : List ℕ} (h : vs.dropLast.IsChain (NotBothStable C)) (pos : ℕ) :
    stablePair C pos vs = none ∨ stablePair C pos vs = some (pos + vs.sum) := by
  induction vs generalizing pos with
  | nil => exact Or.inl rfl
  | cons x vs ih =>
    match vs, ih, h with
    | [], _, _ => exact Or.inl rfl
    | [y], _, _ =>
      rw [stablePair]
      split
      · exact Or.inr (by simp [Nat.add_assoc])
      · exact Or.inl rfl
    | y :: z :: vs, ih, h =>
      rw [dropLast_cons_cons,dropLast_cons_cons,isChain_cons_cons] at h
      rw [stablePair_cons h.1,sum_cons,← Nat.add_assoc]
      exact ih (by exact h.2) _

theorem stablePair_first {us : List ℕ} {x y : ℕ} (h : (us ++ [x]).IsChain (NotBothStable C))
    (hx : isStableChunkSize C x = true) (hy : isStableChunkSize C y = true) (pos : ℕ) (rest : List ℕ) :
    stablePair C pos (us ++ x :: y :: rest) = some (pos + us.sum + x + y) := by
  induction us generalizing pos with
  | nil => simp [stablePair,hx,hy]
  | cons u us ih =>
    match us, ih, h with
    | [], ih, h =>
      have hp : NotBothStable C u x := by simpa using h
      simpa [stablePair_cons hp] using ih (by simp) (pos + u)
    | v :: us, ih, h =>
      rw [cons_append,cons_append,isChain_cons_cons] at h
      rw [cons_append,cons_append,stablePair_cons h.1,← cons_append,ih h.2]
      simp [Nat.add_assoc]

section Windows
variable {ranges : List FileRange} {chunks : List (Node H)} {qs : Pairs H} {tl : List (Node H)}
variable {r : FileRange} {before : List FileRange} {w : FileRange} {x : Placed H}

def inside (w r : FileRange) : Bool := decide (w.start ≤ r.start) && decide (r.stop ≤ w.stop)

theorem inside_iff : inside w r = true ↔ w.start ≤ r.start ∧ r.stop ≤ w.stop := by
  simp [inside]

theorem windowRanges_unique {v : FileRange} (hv : v ∈ windowRanges 0 qs)
    (hw : w ∈ windowRanges 0 qs) {b : ℕ}
    (hbv : v.start ≤ b ∧ b < v.stop) (hbw : w.start ≤ b ∧ b < w.stop) : v = w := by
  have hs := (@windowRanges_bounds H qs 0).1
  rw [pairwise_iff_getElem] at hs
  obtain ⟨i,hi,rfl⟩ := getElem_of_mem hv
  obtain ⟨j,hj,rfl⟩ := getElem_of_mem hw
  rcases lt_trichotomy i j with hlt | rfl | hlt
  · have := hs i j hi hj hlt
    omega
  · rfl
  · have := hs j i hj hi hlt
    omega

theorem Layout.inside_window (h : Layout C ranges chunks qs tl)
    (hs : ∀ r ∈ ranges, r.stop ≤ nodeBytes chunks)
    (hr : r ∈ ranges) (hw : w ∈ windowRanges 0 qs) {b : ℕ} (hbr : r.start ≤ b ∧ b < r.stop)
    (hbw : w.start ≤ b ∧ b < w.stop) : inside w r = true := by
  obtain ⟨v,hv,hlo,hhi⟩ := h.covered hr (hs r hr)
  obtain rfl := windowRanges_unique hv hw (show v.start ≤ b ∧ b < v.stop by omega) hbw
  exact inside_iff.mpr ⟨hlo,hhi⟩

theorem mem_of_filter_concat {p : FileRange → Bool}
    (h : ranges.filter p = before ++ [r]) : r ∈ ranges ∧ p r = true := by
  have hmem : r ∈ ranges.filter p := by simp [h]
  exact mem_filter.mp hmem

theorem mem_place_size {pos : ℕ} {cs : List (Node H)} (hx : x ∈ place pos cs) :
    x.2 ∈ cs ∧ x.1.stop = x.1.start + x.2.2 := by
  induction cs generalizing pos with
  | nil => simp [place] at hx
  | cons c cs ih =>
    rcases mem_cons.mp hx with rfl | hx
    · simp
    · obtain ⟨hmem,hs⟩ := ih hx
      exact ⟨mem_cons_of_mem _ hmem,hs⟩

section
variable (h : Layout C ranges chunks qs tl) (hpos : ∀ c ∈ chunks, 0 < c.2) {front back : Pairs H}
include h hpos

theorem Layout.inside_of_overlaps (hs : ∀ r ∈ ranges, r.stop ≤ nodeBytes chunks) {g v : List (Node H)}
    (heq : qs = front ++ (g,v) :: back)
    (hx : x ∈ place (nodeBytes (joined front) + nodeBytes g) v) (hr : r ∈ ranges)
    (ho : overlaps x.1 r = true) :
    inside ⟨nodeBytes (joined front) + nodeBytes g,nodeBytes (joined front) + nodeBytes g +
      nodeBytes v⟩ r = true := by
  obtain ⟨hmem,hsi⟩ := mem_place_size hx
  obtain ⟨hlo,-,hhi⟩ := mem_place hx
  have hc : 0 < x.2.2 := hpos _ (by rw [← h.chunks_eq,heq]; simp [hmem])
  have hlt := h.ordered.lt r hr
  simp only [overlaps,Bool.and_eq_true,decide_eq_true_eq] at ho
  -- a byte of both
  have hb : r.start ≤ max x.1.start r.start ∧ max x.1.start r.start < r.stop := by omega
  refine h.inside_window hs hr (windowRange_mem heq) hb ⟨?_,?_⟩
  · simp only
    omega
  · simp only
    omega

theorem Layout.starts (hst : ∀ r ∈ ranges, r.stop ≤ nodeBytes chunks) (hw : w ∈ windowRanges 0 qs) :
    ∃ r ∈ (ranges.filter (inside w)).head?, ∃ x ∈ place 0 chunks,
      x.1.start = w.start ∧ x.1.start ≤ r.start ∧ r.start < x.1.stop := by
  obtain ⟨front,⟨g,v⟩,back,heq,rfl⟩ := mem_windowRanges hw
  rw [Nat.zero_add]
  obtain ⟨x,items,hx,hd⟩ := h.split.opens _ (placePairs_pair heq ▸ mem_append_right _ mem_cons_self)
  obtain ⟨q,hq,ho⟩ := any_eq_true.mp hd
  have hmem : x ∈ place (nodeBytes (joined front) + nodeBytes g) v := by
    simp only at hx
    simp [hx]
  have hin := h.inside_of_overlaps hpos hst heq hmem hq ho
  have hfi : x.1.start = nodeBytes (joined front) + nodeBytes g := by
    cases v with
    | nil => simp [place] at hx
    | cons c v => exact congrArg (fun x : Placed H => x.1.start) (cons.inj hx).1.symm
  set w : FileRange := ⟨nodeBytes (joined front) + nodeBytes g,nodeBytes (joined front) +
    nodeBytes g + nodeBytes v⟩
  have hqw := mem_filter.mpr ⟨hq,hin⟩
  obtain ⟨r,rest,hf⟩ := exists_cons_of_ne_nil (ne_nil_of_mem hqw)
  have hr : r ∈ ranges.filter (inside w) := by simp [hf]
  have hs := h.ordered.sorted.filter (inside w)
  rw [hf] at hqw hs
  have hle : r.start ≤ q.start := by
    rcases mem_cons.mp hqw with rfl | hqw
    · exact le_rfl
    · have hlt := h.ordered.lt r (mem_filter.mp hr).1
      have := (pairwise_cons.mp hs).1 q hqw
      omega
  have hlo := (inside_iff.mp (mem_filter.mp hr).2).1
  simp only [overlaps,Bool.and_eq_true,decide_eq_true_eq] at ho
  refine ⟨r,by simp [hf],x,?_,hfi,hfi.le.trans hlo,by omega⟩
  rw [← h.chunks_eq,heq]
  simp [place_append,hmem]

theorem Layout.cold_behind (hst : ∀ r ∈ ranges, r.stop ≤ nodeBytes chunks) {g A B : List (Node H)}
    {d : Node H} (heq : qs = front ++ (g,A ++ d :: B) :: back)
    (hl : ranges.filter (inside ⟨nodeBytes (joined front) + nodeBytes g,
      nodeBytes (joined front) + nodeBytes g + nodeBytes (A ++ d :: B)⟩) = before ++ [r])
    (hle : r.stop ≤ nodeBytes (joined front) + nodeBytes g + nodeBytes A + d.2) :
    Cold (dirty ranges) (place (nodeBytes (joined front) + nodeBytes g + nodeBytes A + d.2) B) := by
  intro x hx
  by_contra hd
  obtain ⟨q,hq,ho⟩ := any_eq_true.mp (Bool.not_eq_false _ ▸ hd)
  have hmem : x ∈ place (nodeBytes (joined front) + nodeBytes g) (A ++ d :: B) := by
    rw [place_append,place]
    exact mem_append_right _ (mem_cons_of_mem _ hx)
  have hin : q ∈ before ++ [r] := hl ▸ mem_filter.mpr ⟨hq,h.inside_of_overlaps hpos hst heq hmem hq ho⟩
  have hs := h.ordered.sorted.filter (inside ⟨nodeBytes (joined front) + nodeBytes g,
    nodeBytes (joined front) + nodeBytes g + nodeBytes (A ++ d :: B)⟩)
  have hr := (mem_of_filter_concat hl).1
  rw [hl] at hs
  have hsp : q.stop ≤ r.stop := by
    rcases mem_append.mp hin with hin | hin
    · have hlt := h.ordered.lt r hr
      have := (pairwise_append.mp hs).2.2 q hin r (by simp)
      omega
    · rw [mem_singleton.mp hin]
  have hlo := (mem_place hx).1
  simp only [overlaps,Bool.and_eq_true,decide_eq_true_eq] at ho
  omega

end

/-- The search from a position in a chunk, when behind it only the last two chunks of the window can
both be stable. -/
theorem stop_eq_boundary {X A B Y : List (Node H)} {d : Node H} {start : ℕ}
    (hlt : nodeBytes X + nodeBytes A < start) (hle : start ≤ nodeBytes X + nodeBytes A + d.2)
    (hc : (B.map (·.2)).dropLast.IsChain (NotBothStable C))
    (he : Y = [] ∨ ∃ us x y, B = us ++ [x,y] ∧ isStableChunkSize C x.2 = true ∧
      isStableChunkSize C y.2 = true) :
    nodeBytes X + nodeBytes (A ++ d :: B) = (nextStableChunkBoundary C start
      (boundariesFrom 0 ((X ++ (A ++ d :: B) ++ Y).map (·.2)))).getD
        (nodeBytes (X ++ (A ++ d :: B) ++ Y)) := by
  have hs : (X ++ (A ++ d :: B) ++ Y).map (·.2) = (X ++ A).map (·.2) ++ d.2 ::
    (B ++ Y).map (·.2) := by simp
  have hsu : ((X ++ A).map (·.2)).sum = nodeBytes X + nodeBytes A := nodeBytes_append ..
  rw [hs,nextStableChunkBoundary_eq (hsu ▸ hlt) (hsu ▸ hle),hsu]
  rcases he with rfl | ⟨us,x,y,rfl,hx,hy⟩
  · rw [append_nil]
    rcases stablePair_tight hc (nodeBytes X + nodeBytes A + d.2) with hn | hso
    · simp [hn]
    · rw [hso,← nodeBytes]
      simp [Nat.add_assoc]
  · have hp : (us.map (·.2) ++ [x.2]).IsChain (NotBothStable C) := by simpa using hc
    have hf := stablePair_first hp hx hy (nodeBytes X + nodeBytes A + d.2) (Y.map (·.2))
    rw [← nodeBytes] at hf
    simp only [map_append,map_cons,append_assoc,cons_append,nil_append]
    rw [hf]
    simp [Nat.add_assoc]

theorem TightLayout.ends (h : TightLayout C ranges chunks qs tl) (hpos : ∀ c ∈ chunks, 0 < c.2)
    (hst : ∀ r ∈ ranges, r.stop ≤ nodeBytes chunks) (hw : w ∈ windowRanges 0 qs) :
    ∃ r ∈ (ranges.filter (inside w)).getLast?,
      w.stop = (nextStableChunkBoundary C r.stop (boundariesFrom 0 (chunks.map (·.2)))).getD
        (nodeBytes chunks) := by
  obtain ⟨first,hf,-⟩ := h.starts hpos hst hw
  obtain ⟨front,⟨g,v⟩,back,heq,rfl⟩ := mem_windowRanges hw
  rw [Nat.zero_add] at hf ⊢
  set P := nodeBytes (joined front) + nodeBytes g with hP
  rcases eq_nil_or_concat (ranges.filter (inside ⟨P,P + nodeBytes v⟩)) with hn | ⟨before,r,hl⟩
  · simp [hn] at hf
  rw [concat_eq_append] at hl
  refine ⟨r,by simp [hl],?_⟩
  obtain ⟨hr,hin⟩ := mem_of_filter_concat hl
  obtain ⟨hlo,hhi⟩ : P ≤ r.start ∧ r.stop ≤ P + nodeBytes v := inside_iff.mp hin
  have hlt := h.ordered.lt r hr
  -- the chunk in which the last dirty range ends
  have hb : P ≤ r.stop - 1 ∧ r.stop - 1 < P + nodeBytes v := by omega
  obtain ⟨z,hz,hzl,hzh⟩ := exists_mem_place hb.1 hb.2
  obtain ⟨zs,ws,hs⟩ := append_of_mem hz
  obtain ⟨A,B,rfl,-,hB⟩ := place_eq_append hs
  cases B with
  | nil => simp [place] at hB
  | cons d B =>
    cases hB
    simp only at hzl hzh
    have hco := h.cold_behind hpos hst heq hl (by omega)
    have ht := h.tight _ (placePairs_pair heq ▸ mem_append_right _ mem_cons_self)
    rw [← hP,hs] at ht
    have hch : (B.map (·.2)).dropLast.IsChain (NotBothStable C) := by
      rw [← place_map_snd (P + nodeBytes A + d.2) B,map_map,← map_dropLast,isChain_map]
      exact ht.calm_chain hco
    have hc : chunks = (joined front ++ g) ++ (A ++ d :: B) ++ (joined back ++ tl) := by
      rw [← h.chunks_eq,heq]
      simp
    have hX : nodeBytes (joined front ++ g) = P := nodeBytes_append ..
    rw [← hX,hc]
    refine stop_eq_boundary (by omega) (by omega) hch ?_
    rcases h.closes heq with ⟨body,x,y,hv,hx,hy,hbe⟩ | ⟨rfl,rfl⟩
    · have hbo := hbe r hr (by omega)
      rcases append_eq_append_iff.mp hv with ⟨ms,rfl,hms⟩ | ⟨ms,rfl,-⟩
      · cases ms with
        | nil =>
          rw [append_nil] at hbo
          omega
        | cons m ms => exact Or.inr ⟨ms,x,y,(cons.inj hms).2,hx,hy⟩
      · rw [nodeBytes_append] at hzl
        omega
    · exact Or.inl rfl

end Windows

section Gaps
variable {ws : List FileRange} {pos : ℕ}

/-- A segment that ends before or starts behind each of the windows. -/
def outside (ws : List FileRange) (seg : FileRange) : Bool :=
  ws.all fun w => decide (seg.stop ≤ w.start) || decide (w.stop ≤ seg.start)

theorem outside_dropWhile {seg : FileRange} (h : pos ≤ seg.start) :
    outside (ws.dropWhile fun w => w.stop ≤ pos) seg = outside ws seg := by
  have hp : outside (ws.takeWhile fun w => w.stop ≤ pos) seg = true := by
    refine all_eq_true.mpr fun w hw => ?_
    have hle : w.stop ≤ pos := by simpa using mem_takeWhile_imp hw
    simp [hle.trans h]
  conv_rhs => rw [← takeWhile_append_dropWhile (p :=
    fun w : FileRange => decide (w.stop ≤ pos)) (l := ws)]
  rw [outside,outside,all_append]
  unfold outside at hp
  rw [hp,Bool.true_and]

theorem outside_head (hs : ws.Pairwise fun a b => a.stop ≤ b.start) (hle : ∀ w ∈ ws, w.start ≤ w.stop)
    (hh : ∀ w ∈ ws.head?, pos < w.stop) (stop : ℕ) :
    outside ws ⟨pos,stop⟩ = !ws.head?.any fun w => w.start < stop := by
  cases ws with
  | nil => rfl
  | cons w ws =>
    have hw : pos < w.stop := hh w rfl
    by_cases hlt : w.start < stop
    · simp [outside,hlt,hw]
    · have hl : ∀ v ∈ ws, stop ≤ v.start := by
        intro v hv
        have h1 := (pairwise_cons.mp hs).1 v hv
        have h2 := hle w mem_cons_self
        omega
      simp only [outside,all_cons,head?_cons,Option.any_some,hlt,decide_false,Bool.not_false,
        Bool.and_eq_true,all_eq_true]
      refine ⟨by simp [not_lt.mp hlt],fun v hv => by simp [hl v hv]⟩

theorem le_of_mem_segmentRanges {segments : List (FileDataSequenceEntry H)}
    {p : FileRange × FileDataSequenceEntry H}
    (hp : p ∈ segmentRanges pos segments) : pos ≤ p.1.start := by
  induction segments generalizing pos with
  | nil => simp [segmentRanges] at hp
  | cons e es ih =>
    rcases mem_cons.mp hp with rfl | hp
    · exact le_rfl
    · exact (Nat.le_add_right _ _).trans (ih hp)

theorem gapVerificationLoop_filter (hs : ws.Pairwise fun a b => a.stop ≤ b.start)
    (hle : ∀ w ∈ ws, w.start ≤ w.stop) (segments : List (FileDataSequenceEntry H)) (hashes : List H) :
    gapVerificationLoop pos ws (segments.zip hashes) =
      (((segmentRanges pos segments).zip hashes).filter fun p => outside ws p.1.1).map (·.2) := by
  induction segments generalizing pos ws hashes with
  | nil => rfl
  | cons e es ih =>
    cases hashes with
    | nil => rfl
    | cons hash hashes =>
      have hd := dropWhile_sublist (l := ws) fun w => decide (w.stop ≤ pos)
      have hs' := hs.sublist hd
      have hle' : ∀ w ∈ ws.dropWhile fun w => decide (w.stop ≤ pos), w.start ≤ w.stop :=
        fun w hw => hle w (hd.mem hw)
      have hh : ∀ w ∈ (ws.dropWhile fun w => decide (w.stop ≤ pos)).head?, pos < w.stop := by
        intro w hw
        have hn := head?_dropWhile_not (fun w : FileRange => decide (w.stop ≤ pos)) ws
        rw [Option.mem_def.mp hw] at hn
        simpa using hn
      have hr : ((segmentRanges (pos + e.unpackedSegmentBytes) es).zip hashes).filter
          (fun p => outside (ws.dropWhile fun w => decide (w.stop ≤ pos)) p.1.1) =
          ((segmentRanges (pos + e.unpackedSegmentBytes) es).zip hashes).filter fun p =>
            outside ws p.1.1 := by
        refine filter_congr fun p hp => outside_dropWhile ?_
        have := le_of_mem_segmentRanges (of_mem_zip hp).1
        omega
      rw [zip_cons_cons,gapVerificationLoop,segmentRanges,zip_cons_cons,filter_cons,
        ← outside_dropWhile (le_refl pos),outside_head hs' hle' hh]
      simp only [ih hs' hle',hr]
      split <;> rfl

variable (K : NodeHasher H)

/-- The subtree of the chunks of a gap, when there are any. -/
def gapSubtree (atStart : Bool) (gap : List (Node H)) (atEnd : Bool) :
    Option (MerkleHashSubtree H) :=
  if gap.isEmpty then none else some (fromChunks K atStart gap atEnd)

theorem gapSubtrees_eq (atStart : Bool) (qs : Pairs H) :
    gapSubtrees K atStart qs = (qs.map Prod.fst).mapIdx fun i gap =>
      gapSubtree K (atStart && i == 0) gap false := by
  induction qs generalizing atStart with
  | nil => rfl
  | cons q qs ih =>
    rw [gapSubtrees,ih,toOption_fromChunks,map_cons,mapIdx_cons]
    simp [gapSubtree]

theorem hashRanges_eq (qs : Pairs H) (tl : List (Node H)) :
    gapSubtrees K true qs ++ [ChunkWindowBuilder.toOption (fromChunks K qs.isEmpty tl true)] =
      (qs.map Prod.fst ++ [tl]).mapIdx fun i gap => gapSubtree K (i == 0) gap (i == qs.length) := by
  rw [gapSubtrees_eq,toOption_fromChunks,mapIdx_append]
  congr 1
  · refine ext_getElem (by simp) fun i hi _ => ?_
    have hne : i ≠ qs.length := by
      rw [length_mapIdx,length_map] at hi
      omega
    simp [beq_false_of_ne hne]
  · cases qs <;> simp [gapSubtree]

end Gaps

/-- What an answer says about the windows around the dirty ranges. -/
structure DescribesWindows (K : NodeHasher H) (C : Constants) (mdb : MDBFileInfo H)
    (ranges : List FileRange)
    (chunks : List (Node H)) (response : FileChunkHashesResponse H) : Prop where
  sorted : response.windows.Pairwise fun a b => a.stop ≤ b.start
  lt : ∀ w ∈ response.windows, w.start < w.stop
  covers : ∀ r ∈ ranges, ∃ w ∈ response.windows, inside w r = true
  starts : ∀ w ∈ response.windows, ∃ r ∈ (ranges.filter (inside w)).head?, ∃ x ∈ place 0 chunks,
    x.1.start = w.start ∧ x.1.start ≤ r.start ∧ r.start < x.1.stop
  ends : ∀ w ∈ response.windows, ∃ r ∈ (ranges.filter (inside w)).getLast?, w.stop =
    (nextStableChunkBoundary C r.stop (boundariesFrom 0 (chunks.map (·.2)))).getD mdb.fileSize
  -- the chunks are those of the gaps and of the windows, in turn
  aligned : ∃ qs tl, joined qs ++ tl = chunks ∧ response.windows = windowRanges 0 qs ∧
    response.hashRanges =
    (qs.map Prod.fst ++ [tl]).mapIdx fun i gap => gapSubtree K (i == 0) gap (i == qs.length)
  hashRanges_length : response.hashRanges.length = response.windows.length + 1
  gapVerification : response.gapVerification =
    (((segmentRanges 0 mdb.segments).zip mdb.verification).filter fun p =>
      outside response.windows p.1.1).map (·.2)

/-- Without dirty ranges there is no answer, and otherwise there is one. -/
theorem buildFileChunkHashesResponse_windows (K : NodeHasher H) (C : Constants) {mdb : MDBFileInfo H}
    {ranges : List FileRange} {chunks : List (Node H)} (hpos : ∀ c ∈ chunks, 0 < c.2)
    (hsize : mdb.fileSize = nodeBytes chunks)
    (hverification : mdb.verification.length = mdb.segments.length)
    (hsorted : ranges.Pairwise fun a b => a.stop ≤ b.start) (hlt : ∀ r ∈ ranges, r.start < r.stop)
    (hstop : ∀ r ∈ ranges, r.stop ≤ mdb.fileSize) :
    (ranges = [] ∧ buildFileChunkHashesResponse K C mdb ranges chunks =
      .error (.other "no valid dirty ranges")) ∨
    (ranges ≠ [] ∧ ∃ response, buildFileChunkHashesResponse K C mdb ranges chunks = .ok response ∧
      DescribesWindows K C mdb ranges chunks response) := by
  by_cases hne : ranges = []
  · subst hne
    exact Or.inl ⟨rfl,rfl⟩
  have ho : Ordered ranges := ⟨hsorted,hlt⟩
  obtain ⟨qs,tl,h,-,hanswer,hok⟩ := buildFileChunkHashesResponse_spec K C ho hstop hne hsize.symm
  obtain ⟨response,hrun⟩ := hok hverification
  obtain ⟨hwindows,hranges,hgap⟩ := hanswer response hrun
  rw [gapRanges_placePairs,hashRanges_eq] at hranges
  have hgap' := hgap hverification
  rw [hsize] at hstop
  obtain ⟨hpairwise,hbounds⟩ := @windowRanges_bounds H qs 0
  rw [← hwindows] at hpairwise hbounds
  refine Or.inr ⟨hne,response,hrun,hpairwise,?_,?_,?_,?_,⟨qs,tl,h.chunks_eq,hwindows,hranges⟩,?_,?_⟩
  · intro w hw
    obtain ⟨r,hr,-⟩ := h.starts hpos hstop (hwindows ▸ hw)
    obtain ⟨hmem,hin⟩ := mem_filter.mp (mem_of_mem_head? hr)
    exact ((inside_iff.mp hin).1.trans_lt (hlt r hmem)).trans_le (inside_iff.mp hin).2
  · intro r hr
    obtain ⟨w,hw,hin⟩ := h.covered hr (hstop r hr)
    exact ⟨w,hwindows ▸ hw,inside_iff.mpr hin⟩
  · intro w hw
    exact h.starts hpos hstop (hwindows ▸ hw)
  · intro w hw
    rw [hsize]
    exact h.ends hpos hstop (hwindows ▸ hw)
  · rw [hranges,hwindows,windowRanges_length]
    simp
  · rw [hgap',← hwindows]
    exact gapVerificationLoop_filter hpairwise (fun w hw => (hbounds w hw).2.1) _ _

def sixChunks : List (Node Bytes) := [([1],100),([2],300),([3],300),([4],350),([5],10),([6],10)]

def sixInfo : MDBFileInfo Bytes where
  metadata := ⟨[],3,true,false⟩
  segments := [⟨[1],700,0,3⟩,⟨[2],350,0,1⟩,⟨[3],20,0,2⟩]
  verification := [[1],[2],[3]]
  metadataExt := none

theorem buildFileChunkHashesResponse_windows_six : ∃ response,
    buildFileChunkHashesResponse plainHasher wideConstants sixInfo [⟨10,20⟩,⟨1060,1070⟩] sixChunks =
      .ok response ∧
      DescribesWindows plainHasher wideConstants sixInfo [⟨10,20⟩,⟨1060,1070⟩] sixChunks response :=
  ((buildFileChunkHashesResponse_windows plainHasher wideConstants (by decide) (by decide)
    (by decide) (by decide)
    (by decide) (by decide)).resolve_left (by simp)).2

end XetCore.RangeUpload
