import XetCore.Lib.GatedCut
import XetCore.Chunking.Streaming

/-! # Stable chunk boundaries

With a minimum above the hash window, every match that counts depends on the bytes
of the window alone. Cutting bytes is then gated cutting of marked bytes, and two
chunks of stable sizes force every run to cut at the end of the second one.
-/
namespace XetCore.Chunking
open StreamCut List
variable {G : GearHasher} {H : Type}
variable {mask : UInt64} {h h' : G.State} {ns : List ℕ} {C : Constants} {c : Chunker G} {lo pos : ℕ}

/-- The hash only depends on the bytes of a full window. -/
def Windowed (G : GearHasher) (mask : UInt64) : Prop :=
  ∀ (h h' : G.State) (w : Bytes), w.length = hashWindowSize →
    w.foldl (G.step mask) h = w.foldl (G.step mask) h'

theorem gearHasher_windowed (table : UInt8 → UInt64) (mask : UInt64) :
    Windowed (gearHasher table) mask := by
  intro h h' w hw
  rw [gearHasher_step]
  exact foldl_gearStep_window table hw h h'

theorem Windowed.foldl_eq (hG : Windowed G mask) {w : Bytes} (hw : hashWindowSize ≤ w.length)
    (h h' : G.State) : w.foldl (G.step mask) h = w.foldl (G.step mask) h' := by
  have hlen : (w.drop (w.length - hashWindowSize)).length = hashWindowSize := by
    rw [length_drop]
    omega
  rw [← take_append_drop (w.length - hashWindowSize) w,foldl_append,foldl_append]
  exact hG _ _ _ hlen

/-- The bytes with the matches of a hash that is never reset. -/
def marked (G : GearHasher) (mask : UInt64) : G.State → Bytes → List (UInt8 × Bool)
  | _, [] => []
  | h, b :: bs => (b,G.fires mask h b) :: marked G mask (G.step mask h b) bs

theorem marked_append (mask : UInt64) (h : G.State) (a b : Bytes) :
    marked G mask h (a ++ b) = marked G mask h a ++ marked G mask (a.foldl (G.step mask) h) b := by
  induction a generalizing h with
  | nil => rfl
  | cons x xs ih => simp [marked,ih]

@[simp] theorem marked_length (mask : UInt64) (h : G.State) (data : Bytes) :
    (marked G mask h data).length = data.length := by
  induction data generalizing h with
  | nil => rfl
  | cons x xs ih => simp [marked,ih]

def chunkGate {lo hi : ℕ} (hlo : 0 < lo) (hlt : lo < hi) : GatedCut.Gate where
  lo := lo
  hi := hi
  lo_pos := hlo
  lo_le := hlt.le

/-- Both hashes have seen the same bytes since the bytes to skip. -/
def Trailing (G : GearHasher) (mask : UInt64) (lo pos : ℕ) (h h' : G.State) : Prop :=
  ∃ (w : Bytes) (a a' : G.State), w.length = pos - skipped lo ∧ h = w.foldl (G.step mask) a ∧
    h' = w.foldl (G.step mask) a'

theorem Trailing.next (ht : Trailing G mask lo pos h h') (b : UInt8) :
    Trailing G mask lo (pos + 1) (byteNext G lo mask (pos,h) b).2 (G.step mask h' b) := by
  obtain ⟨w,a,a',hw,rfl,rfl⟩ := ht
  by_cases hp : pos < skipped lo
  · exact ⟨[],_,_,by simp; omega,by rfl,rfl⟩
  · refine ⟨w ++ [b],a,a',?_,?_,?_⟩
    · rw [length_append,length_singleton]
      omega
    · rw [byteNext_hashed (by omega),foldl_append]
      rfl
    · rw [foldl_append]
      rfl

theorem Trailing.eq (hG : Windowed G mask)
    (ht : Trailing G mask lo pos h h') (hlo : hashWindowSize < lo) (hp : lo ≤ pos + 1) : h = h' := by
  obtain ⟨w,a,a',hw,rfl,rfl⟩ := ht
  apply hG.foldl_eq
  unfold skipped at hw
  omega

theorem byteScan_eq_scan {hi : ℕ} (hG : Windowed G mask) (hwin : hashWindowSize < lo)
    (hlt : lo < hi) (ht : Trailing G mask lo pos h h') (hp : pos < hi) (data : Bytes) :
    (byteScan G lo hi mask (pos,h) data).map (· + pos) =
      GatedCut.scan (chunkGate (by omega) hlt) Prod.snd pos (marked G mask h' data) := by
  induction data generalizing pos h h' with
  | nil => rfl
  | cons b bs ih =>
    have hst : byteStop G lo hi mask (pos,h) b = true ↔ lo ≤ pos + 1 ∧ G.fires mask h' b = true ∨
      pos + 1 = hi := by
      simp only [byteStop,Bool.or_eq_true,Bool.and_eq_true,decide_eq_true_eq]
      constructor
      · rintro (⟨hlo,hf⟩ | hhi)
        · exact .inl ⟨hlo,ht.eq hG hwin hlo ▸ hf⟩
        · exact .inr (by omega)
      · rintro (⟨hlo,hf⟩ | hhi)
        · exact .inl ⟨hlo,(ht.eq hG hwin hlo).symm ▸ hf⟩
        · exact .inr (by omega)
    rw [byteScan_cons]
    simp only [marked,GatedCut.scan,chunkGate]
    by_cases hs : byteStop G lo hi mask (pos,h) b = true
    · rw [if_pos hs,if_pos (hst.mp hs)]
      simp [Nat.add_comm]
    · rw [if_neg hs,if_neg (fun hc => hs (hst.mpr hc))]
      have hm : pos + 1 < hi := by
        by_contra hge
        exact hs (hst.mpr (.inr (by omega)))
      have hr := ih (ht.next b) hm
      rw [chunkGate] at hr
      rw [← hr]
      rw [Option.map_map]
      congr 1
      funext n
      dsimp only [Function.comp]
      omega

namespace Chunker

def gate (c : Chunker G) (hlt : c.minimumChunk < c.maximumChunk)
    (hwin : hashWindowSize < c.minimumChunk) :
    GatedCut.Gate := chunkGate (by omega) hlt

section Gated
variable (hlt : c.minimumChunk < c.maximumChunk) (hwin : hashWindowSize < c.minimumChunk)
  (hG : Windowed G c.mask)
include hlt hwin hG

theorem cut_eq_gated (h : G.State) (data : Bytes) :
    c.rule.cut data = (GatedCut.rule (c.gate hlt hwin) Prod.snd).cut (marked G c.mask h data) := by
  have ht : Trailing G c.mask c.minimumChunk 0 G.init h := ⟨[],_,_,by simp,rfl,rfl⟩
  have hs := byteScan_eq_scan hG hwin hlt ht (by omega) data
  simp only [Nat.add_zero,Option.map_id'] at hs
  exact hs

theorem split_length_eq (h : G.State) (data : Bytes) : (split c.rule data).2.length =
      (split (GatedCut.rule (c.gate hlt hwin) Prod.snd) (marked G c.mask h data)).2.length := by
  induction data using split_induction c.rule generalizing h with
  | stop data hn =>
    have hn' := cut_eq_gated hlt hwin hG h data
    rw [hn] at hn'
    rw [split_of_none _ hn,split_of_none _ hn'.symm,marked_length]
  | step data n hn ih =>
    have hn' := cut_eq_gated hlt hwin hG h data
    rw [hn] at hn'
    have hle := c.rule.le_length hn
    have hd : (marked G c.mask h data).drop n =
        marked G c.mask ((data.take n).foldl (G.step c.mask) h) (data.drop n) := by
      conv_lhs => rw [← take_append_drop n data,marked_append]
      exact drop_left' (by rw [marked_length,length_take]; omega)
    rw [split_of_some _ hn,split_of_some _ hn'.symm,hd]
    exact ih _

theorem closed_iff_gated (h : G.State) (data : Bytes) :
    Closed c.rule data ↔ Closed (GatedCut.rule (c.gate hlt hwin) Prod.snd) (marked G c.mask h data) := by
  have hl := split_length_eq hlt hwin hG h data
  rw [Closed,Closed,← length_eq_zero_iff,← length_eq_zero_iff,hl]

/-- After a complete chunk below the maximum, a complete chunk of stable size ends at a cut of every
run, whatever bytes come before. -/
theorem closed_of_stable {x y : Bytes} (hx : c.rule.cut x = some x.length)
    (hxl : x.length < c.maximumChunk)
    (hy : c.rule.cut y = some y.length) (hyl : 2 * c.minimumChunk ≤ y.length)
    (hyh : y.length + c.minimumChunk < c.maximumChunk) (A : Bytes) : Closed c.rule (A ++ x ++ y) := by
  rw [closed_iff_gated hlt hwin hG G.init,marked_append,marked_append]
  set hA := A.foldl (G.step c.mask) G.init
  set hx' := (A ++ x).foldl (G.step c.mask) G.init
  rw [cut_eq_gated hlt hwin hG hA,← marked_length c.mask hA x] at hx
  rw [cut_eq_gated hlt hwin hG hx',← marked_length c.mask hx' y] at hy
  obtain ⟨p,d,hp,hd,_⟩ := GatedCut.hit_of_cut _ _ hx (by rw [marked_length]; exact hxl)
  rw [hp,← append_assoc]
  exact GatedCut.closed_of_hit_body _ _ _ hd
    (GatedCut.Body.of_cut _ _ hy (by rw [marked_length]; exact hyl)
    (by rw [marked_length]; exact hyh))

end Gated
end Chunker

def boundariesFrom : ℕ → List ℕ → List ℕ
  | _, [] => []
  | pos, n :: ns => (pos + n) :: boundariesFrom (pos + n) ns

def chunkBoundaries (chunks : List (Chunk H)) : List ℕ :=
  boundariesFrom 0 (chunks.map fun x => x.data.length)

def isStableChunkSize (C : Constants) (size : ℕ) : Bool :=
  let minimumChunk := C.targetChunkSize / C.minimumChunkDivisor
  let maximumChunk := C.targetChunkSize * C.maximumChunkMultiplier
  decide (size ≥ 2 * minimumChunk) && decide (size < maximumChunk - minimumChunk)

/-- The search for two stable chunks in a row. The partition point of an ordered list is
the number of leading elements below the position. -/
def nextStableChunkBoundary (C : Constants) (startingPosition : ℕ) (boundaries : List ℕ) : Option ℕ :=
  let startIdx := (boundaries.takeWhile (· < startingPosition)).length
  (List.range' startIdx (boundaries.length - 2 - startIdx)).findSome? fun i =>
    let sizeA := boundaries.getD (i + 1) 0 - boundaries.getD i 0
    let sizeB := boundaries.getD (i + 2) 0 - boundaries.getD (i + 1) 0
    if isStableChunkSize C sizeA && isStableChunkSize C sizeB then some (boundaries.getD (i + 2) 0)
      else none

theorem boundariesFrom_append (pos : ℕ) (ns ms : List ℕ) :
    boundariesFrom pos (ns ++ ms) = boundariesFrom pos ns ++ boundariesFrom (pos + ns.sum) ms := by
  induction ns generalizing pos with
  | nil => simp [boundariesFrom]
  | cons n ns ih => simp [boundariesFrom,ih,Nat.add_assoc]

@[simp] theorem boundariesFrom_length (pos : ℕ) (ns : List ℕ) :
    (boundariesFrom pos ns).length = ns.length := by
  induction ns generalizing pos with
  | nil => rfl
  | cons n ns ih => simp [boundariesFrom,ih]

theorem boundariesFrom_mem {x : ℕ} (hns : ∀ n ∈ ns, 0 < n) (hx : x ∈ boundariesFrom pos ns) :
    pos < x ∧ x ≤ pos + ns.sum := by
  induction ns generalizing pos with
  | nil => simp [boundariesFrom] at hx
  | cons n ns ih =>
    have hn := hns n mem_cons_self
    rw [sum_cons]
    rcases mem_cons.mp hx with rfl | hx
    · omega
    · have := ih (fun m hm => hns m (mem_cons_of_mem _ hm)) hx
      omega

theorem boundariesFrom_le {b : ℕ} (hb : b ∈ boundariesFrom pos ns) : b ≤ pos + ns.sum := by
  induction ns generalizing pos with
  | nil => simp [boundariesFrom] at hb
  | cons n ns ih =>
    rw [sum_cons]
    rcases mem_cons.mp hb with rfl | hb
    · omega
    · have := ih hb
      omega

theorem boundariesFrom_shift (pos shift : ℕ) (ns : List ℕ) :
    boundariesFrom (pos + shift) ns = (boundariesFrom pos ns).map (· + shift) := by
  induction ns generalizing pos with
  | nil => rfl
  | cons n ns ih =>
    simp only [boundariesFrom,map_cons]
    rw [← ih,show pos + shift + n = pos + n + shift by omega]

theorem boundariesFrom_filter (ns ms : List ℕ) (hns : ns ≠ []) (hp : ∀ n ∈ ns ++ ms, 0 < n) :
    (boundariesFrom 0 (ns ++ ms)).filter (ns.sum ≤ ·) = ns.sum :: boundariesFrom ns.sum ms := by
  obtain ⟨front,last,rfl⟩ := (eq_nil_or_concat' ns).resolve_left hns
  have hf : (boundariesFrom 0 front).filter ((front ++ [last]).sum ≤ ·) = [] := by
    rw [filter_eq_nil_iff]
    intro x hx
    have hb := boundariesFrom_mem (fun n hn => hp n (by simp [hn])) hx
    have hl := hp last (by simp)
    simp only [sum_append,sum_singleton,decide_eq_true_eq]
    omega
  have hr : (boundariesFrom (front ++ [last]).sum ms).filter ((front ++ [last]).sum ≤ ·) =
      boundariesFrom (front ++ [last]).sum ms := by
    rw [filter_eq_self]
    intro x hx
    have hb := boundariesFrom_mem (fun n hn => hp n (by simp [hn])) hx
    simpa using hb.1.le
  rw [boundariesFrom_append,Nat.zero_add,filter_append,hr,boundariesFrom_append,filter_append,hf]
  simp [boundariesFrom]

theorem boundariesFrom_getD {i : ℕ} (hi : i < ns.length) (pos : ℕ) :
    (boundariesFrom pos ns).getD i 0 = pos + (ns.take (i + 1)).sum := by
  induction ns generalizing i pos with
  | nil => simp at hi
  | cons n ns ih =>
    cases i with
    | zero => simp [boundariesFrom]
    | succ i =>
      have := ih (by simpa using hi) (pos + n)
      simp only [boundariesFrom,getD_cons_succ,take_succ_cons,sum_cons]
      omega

theorem le_getD_of_takeWhile {start i : ℕ} (hi : i < ns.length) (pos : ℕ)
    (hle : ((boundariesFrom pos ns).takeWhile (· < start)).length ≤ i) :
    start ≤ (boundariesFrom pos ns).getD i 0 := by
  induction ns generalizing i pos with
  | nil => simp at hi
  | cons n ns ih =>
    by_cases hn : pos + n < start
    · cases i with
      | zero => simp [boundariesFrom,hn] at hle
      | succ i =>
        simp only [boundariesFrom,hn,decide_true,takeWhile_cons_of_pos,length_cons] at hle
        exact ih (by simpa using hi) _ (by omega)
    · rw [boundariesFrom_getD hi,take_succ_cons,sum_cons]
      omega

theorem nextStableChunkBoundary_some {start b : ℕ}
    (h : nextStableChunkBoundary C start (boundariesFrom 0 ns) = some b) : ∃ as x y bs,
    ns = as ++ x :: y :: bs ∧ as ≠ [] ∧ start ≤ as.sum ∧ isStableChunkSize C x = true ∧
      isStableChunkSize C y = true ∧ b = as.sum + x + y := by
  obtain ⟨i,hi,hb⟩ := exists_of_findSome?_eq_some h
  rw [mem_range'_1,boundariesFrom_length] at hi
  have hlen : i + 2 < ns.length := by omega
  have hx : ns.drop (i + 1) = ns[i + 1] :: ns[i + 2] :: ns.drop (i + 3) := by
    rw [drop_eq_getElem_cons (by omega),drop_eq_getElem_cons (by omega)]
  have hst := le_getD_of_takeWhile (by omega) 0 hi.1
  rw [boundariesFrom_getD (by omega)] at hst
  simp only [boundariesFrom_getD (show i < ns.length by omega),
    boundariesFrom_getD (show i + 1 < ns.length by omega),
    boundariesFrom_getD hlen,take_add_one (i := i + 2),take_add_one (i := i + 1)] at hb
  refine ⟨ns.take (i + 1),ns[i + 1],ns[i + 2],ns.drop (i + 3),?_,?_,by simpa using hst,?_⟩
  · rw [← hx,take_append_drop]
  · exact ne_nil_of_length_pos (by rw [length_take]; omega)
  · have h1 : ns[i + 1]? = some ns[i + 1] := getElem?_eq_getElem (by omega)
    have h2 := getElem?_eq_getElem (by omega)
    simp only [h1,h2,sum_append,Nat.zero_add] at hb
    rw [Nat.add_sub_cancel_left,Nat.add_sub_cancel_left] at hb
    split at hb
    · rename_i hs
      rw [Bool.and_eq_true] at hs
      exact ⟨hs.1,hs.2,(Option.some.inj hb).symm⟩
    · cases hb

def fileBoundaries (c : Chunker G) (data : Bytes) : List ℕ :=
  chunkBoundaries (c.nextBlock id data true).1

theorem fileBoundaries_eq (hs : c.Synced) (hb : c.chunkbuf = []) (data : Bytes) :
    fileBoundaries c data = boundariesFrom 0 ((pieces c.rule data).map List.length) := by
  unfold fileBoundaries chunkBoundaries
  rw [hs.nextBlock_pieces hb,map_map]
  rfl

theorem sum_map_length (ps : List Bytes) : (ps.map List.length).sum = ps.flatten.length :=
  length_flatten.symm

theorem isStableChunkSize_iff (hc : Chunker.new G C C.targetChunkSize = some c)
    {size : ℕ} : isStableChunkSize C size = true ↔
      2 * c.minimumChunk ≤ size ∧ size + c.minimumChunk < c.maximumChunk := by
  obtain ⟨hlt,rfl⟩ := Chunker.new_eq hc
  simp only [isStableChunkSize,Bool.and_eq_true,decide_eq_true_eq]
  omega

/-- After two stable chunks the remaining chunks stay, whatever the bytes before them are replaced
by. -/
theorem pieces_after_stable (hc : Chunker.new G C C.targetChunkSize = some c)
    (hwin : hashWindowSize < c.minimumChunk) (hG : Windowed G c.mask) {data x y : Bytes}
    {ps qs : List Bytes} (hp : pieces c.rule data = ps ++ x :: y :: qs)
    (hx : isStableChunkSize C x.length = true) (hy : isStableChunkSize C y.length = true) {start : ℕ}
    (hs : start ≤ ps.flatten.length) (replacement : Bytes) :
    ∃ ps', pieces c.rule (replacement ++ data.drop start) = ps' ++ qs ∧
      ps'.flatten = replacement ++ ps.flatten.drop start ++ x ++ y ∧ ps' ≠ [] := by
  obtain ⟨hsy,_⟩ := Chunker.new_synced hc
  rw [isStableChunkSize_iff hc] at hx hy
  have hd : data = ps.flatten ++ (x ++ y ++ qs.flatten) := by
    rw [← pieces_flatten c.rule data,hp]
    simp
  have hn : replacement ++ data.drop start = replacement ++ ps.flatten.drop start ++ x ++ y ++
    qs.flatten := by
    rw [hd,drop_append_of_le_length hs]
    simp
  rw [hn]
  have hne : ∀ qs' : List Bytes, qs'.flatten = replacement ++ ps.flatten.drop start ++ x ++ y →
    qs' ≠ [] := by
    rintro _ hf rfl
    have := congrArg List.length hf
    simp only [flatten_nil,length_nil,length_append] at this
    omega
  cases qs with
  | nil =>
    have hf := pieces_flatten c.rule (replacement ++ ps.flatten.drop start ++ x ++ y ++ [].flatten)
    exact ⟨_,(append_nil _).symm,by simpa using hf,hne _ (by simpa using hf)⟩
  | cons q qs =>
    have hmem : ∀ z ∈ [x,y], c.rule.cut z = some z.length := by
      intro z hz
      apply cut_of_mem_dropLast_pieces c.rule
      rw [hp,show ps ++ x :: y :: q :: qs = (ps ++ [x,y]) ++ q :: qs by simp,
        dropLast_append_of_ne_nil (by simp)]
      exact mem_append_left _ (mem_append_right _ hz)
    have hr := (pieces_eq_append c.rule
      (show pieces c.rule data = (ps ++ [x,y]) ++ q :: qs by rw [hp]; simp)).2
    have hcl := Chunker.closed_of_stable hsy.lt hwin hG (hmem x (by simp)) (by omega)
      (hmem y (by simp)) hy.1
      hy.2 (replacement ++ ps.flatten.drop start)
    refine ⟨pieces c.rule (replacement ++ ps.flatten.drop start ++ x ++ y),?_,pieces_flatten _ _,
      hne _ (pieces_flatten _ _)⟩
    rw [hcl.pieces_append,hr]

/-- Replacing the bytes before a position keeps every boundary from the next stable one on. -/
theorem stable_boundaries_kept {C : Constants} {c : Chunker G}
    (hc : Chunker.new G C C.targetChunkSize = some c)
    (hwin : hashWindowSize < c.minimumChunk) (hG : Windowed G c.mask) (data replacement : Bytes)
    {startingPosition b : ℕ}
    (hb : nextStableChunkBoundary C startingPosition (fileBoundaries c data) = some b) :
    (fileBoundaries c (replacement ++ data.drop startingPosition)).filter
        (b - startingPosition + replacement.length ≤ ·) =
      ((fileBoundaries c data).filter (b ≤ ·)).map
        (fun x => x - startingPosition + replacement.length) := by
  obtain ⟨hsync,hbuf⟩ := Chunker.new_synced hc
  rw [fileBoundaries_eq hsync hbuf] at hb ⊢
  rw [fileBoundaries_eq hsync hbuf]
  obtain ⟨as,m,n,bs,hsplit,has,hstart,hm,hn,rfl⟩ := nextStableChunkBoundary_some hb
  obtain ⟨ps,rest,hpieces,rfl,hrest⟩ := map_eq_append_iff.mp hsplit
  obtain ⟨x,rest',rfl,rfl,hrest'⟩ := map_eq_cons_iff.mp hrest
  obtain ⟨y,qs,rfl,rfl,rfl⟩ := map_eq_cons_iff.mp hrest'
  rw [sum_map_length] at hstart ⊢
  obtain ⟨ps',hnew,hflat,hne⟩ := pieces_after_stable hc hwin hG hpieces hm hn hstart replacement
  have hpos : ∀ l : Bytes, ∀ k ∈ (pieces c.rule l).map List.length, 0 < k := by
    intro l k hk
    obtain ⟨p,hp,rfl⟩ := mem_map.mp hk
    exact length_pos_iff.mpr (pieces_ne_nil c.rule l p hp)
  have hold := boundariesFrom_filter ((ps ++ [x,y]).map List.length) (qs.map List.length) (by simp)
    (by rw [← map_append,append_assoc]; exact hpieces ▸ hpos data)
  have hnew' := boundariesFrom_filter (ps'.map List.length) (qs.map List.length) (by simpa using hne)
    (by rw [← map_append,← hnew]; exact hpos _)
  -- both files go on from their stable boundary with the same chunks
  obtain ⟨k,hk⟩ : ∃ k, ps.flatten.length + x.length + y.length = k + startingPosition :=
    ⟨_,(Nat.sub_add_cancel (by omega)).symm⟩
  have holdsum : ((ps ++ [x,y]).map List.length).sum = k + startingPosition := by
    rw [sum_map_length,← hk]
    simp [Nat.add_assoc]
  have hnewsum : (ps'.map List.length).sum = k + replacement.length := by
    rw [sum_map_length,hflat]
    simp only [length_append,length_drop]
    omega
  rw [holdsum,← map_append,append_assoc] at hold
  rw [hnewsum,← map_append,← hnew] at hnew'
  rw [hk,hpieces,Nat.add_sub_cancel,hnew']
  refine Eq.trans ?_ (congrArg _ hold.symm)
  rw [boundariesFrom_shift k startingPosition,boundariesFrom_shift k replacement.length]
  simp

def wideConstants : Constants :=
  { targetChunkSize := 128, minimumChunkDivisor := 1, maximumChunkMultiplier := 4 }

def wideChunker : Chunker (gearHasher UInt8.toUInt64) where
  hash := (0 : UInt64)
  minimumChunk := 128
  maximumChunk := 512
  mask := Chunker.shiftedMask 128
  chunkbuf := []

theorem new_wide : Chunker.new (gearHasher UInt8.toUInt64) wideConstants 128 = some wideChunker := by
  simp [Chunker.new,Chunker.bits_small,wideChunker,wideConstants,gearHasher]

def clearedBlock (ones : ℕ) : Bytes := List.replicate ones 1 ++ List.replicate 66 0

theorem stable_boundaries_kept_cleared :
    (fileBoundaries wideChunker ([7] ++ (clearedBlock 200 ++ clearedBlock 200 ++ clearedBlock 230 ++
      clearedBlock 200).drop 3)).filter (826 - 3 + [7].length ≤ ·) =
    ((fileBoundaries wideChunker (clearedBlock 200 ++ clearedBlock 200 ++ clearedBlock 230 ++
      clearedBlock 200)).filter (826 ≤ ·)).map (fun x => x - 3 + [7].length) :=
  stable_boundaries_kept new_wide (by decide) (gearHasher_windowed _ _) _ [7]
    (by decide +kernel)

end XetCore.Chunking
