import XetCore.RangeUpload.ComposedFile

/-! # The hash of the edited file

The edited file is cut into the chunks of the gaps, which stay, and the chunks of the
edited windows, because a window ends with two stable chunks or at the end of the file.
Merging the subtrees of the gaps and the windows gives the hash of this chunk list.
-/
namespace XetCore.RangeUpload
open Merkle MerkleHashSubtree Chunking Dedup Intervals Reconstruction Session Extents Patches
  StreamCut WindowScan List

variable {H : Type} {G : GearHasher} {D : Bytes → H} {c : Chunker G} {tl : List (Node H)}

def pieceNode (D : Bytes → H) (p : Bytes) : Node H := chunkNode (.new D p)

theorem cdcNodes_eq (hs : c.Synced) (hb : c.chunkbuf = []) (D : Bytes → H) (data : Bytes) :
    cdcNodes D c data = (pieces c.rule data).map (pieceNode D) := by
  rw [cdcNodes,cdcChunks_eq hs hb,map_map]
  rfl

theorem nodeBytes_pieceNode (ps : List Bytes) : nodeBytes (ps.map (pieceNode D)) = ps.flatten.length := by
  rw [nodeBytes,map_map,← sum_map_length]
  rfl

abbrev PiecePairs := List (List Bytes × List Bytes)

def nodePairs (D : Bytes → H) (Qs : PiecePairs) : Pairs H :=
  Qs.map fun q => (q.1.map (pieceNode D),q.2.map (pieceNode D))

theorem nodePairs_append (Q₁ Q₂ : PiecePairs) :
    nodePairs D (Q₁ ++ Q₂) = nodePairs D Q₁ ++ nodePairs D Q₂ :=
  map_append ..

theorem nodePairs_cons (g w : List Bytes) (Qs : PiecePairs) :
    nodePairs D ((g,w) :: Qs) = (g.map (pieceNode D),w.map (pieceNode D)) :: nodePairs D Qs := rfl

theorem windowRanges_length (pos : ℕ) (qs : Pairs H) : (windowRanges pos qs).length = qs.length := by
  induction qs generalizing pos with
  | nil => rfl
  | cons q qs ih => rw [windowRanges,length_cons,ih,length_cons]

theorem exists_piecePairs {ps : List Bytes} {qs : Pairs H} (h : joined qs ++ tl = ps.map (pieceNode D)) :
    ∃ Qs T, ps = joined Qs ++ T ∧ qs = nodePairs D Qs ∧ tl = T.map (pieceNode D) := by
  induction qs generalizing ps with
  | nil => exact ⟨[],ps,rfl,rfl,h⟩
  | cons q qs ih =>
    obtain ⟨g,w⟩ := q
    rw [joined_cons,append_assoc,append_assoc] at h
    obtain ⟨ps₁,rest,rfl,rfl,hr⟩ := map_eq_append_iff.mp h.symm
    obtain ⟨ps₂,rest',rfl,rfl,hr'⟩ := map_eq_append_iff.mp hr
    obtain ⟨Qs,T,rfl,rfl,rfl⟩ := ih hr'.symm
    exact ⟨(ps₁,ps₂) :: Qs,T,by simp,rfl,rfl⟩

theorem joined_nodePairs (Qs : PiecePairs) : joined (nodePairs D Qs) = (joined Qs).map (pieceNode D) := by
  induction Qs with
  | nil => rfl
  | cons q Qs ih =>
    rw [nodePairs,map_cons,joined_cons,joined_cons,map_append,map_append,← ih]
    rfl

section Blocks
variable {file : Bytes} {Qs : PiecePairs} {T : List Bytes} {ps : List (FileRange × List DirtyInput)}
variable {front back : List (List Bytes × Bytes)} {b : List Bytes × Bytes}

/-- The pieces of each gap with the edited bytes of the window behind it. -/
def blocks (file : Bytes) (Qs : PiecePairs) (ps : List (FileRange × List DirtyInput)) :
    List (List Bytes × Bytes) :=
  List.zipWith (fun q p => (q.1,((group p).outer file).content)) Qs ps

theorem patch_blocks {pos : ℕ} (hfs : ps.map (·.1) = windowRanges pos (nodePairs D Qs))
    (hf : file.drop pos = (joined Qs ++ T).flatten) :
    patch file file.length pos (ps.map fun p => (group p).outer file) =
      (blocks file Qs ps).flatMap (fun b => b.1.flatten ++ b.2) ++ T.flatten := by
  induction Qs generalizing ps pos with
  | nil =>
    obtain rfl : ps = [] := map_eq_nil_iff.mp hfs
    rw [map_nil,patch,slice_length_eq_drop,hf]
    rfl
  | cons q Qs ih =>
    obtain ⟨g,w⟩ := q
    obtain ⟨p,ps,rfl,hp,hps⟩ := map_eq_cons_iff.mp hfs
    have hg : nodeBytes (g.map (pieceNode D)) = g.flatten.length := nodeBytes_pieceNode g
    have hw : nodeBytes (w.map (pieceNode D)) = w.flatten.length := nodeBytes_pieceNode w
    rw [hg,hw] at hp hps
    rw [joined_cons,append_assoc,append_assoc,flatten_append,flatten_append] at hf
    have hga : slice file pos (pos + g.flatten.length) = g.flatten := by
      rw [slice,hf,Nat.add_sub_cancel_left,take_left]
    have hr : file.drop (pos + g.flatten.length + w.flatten.length) = (joined Qs ++ T).flatten := by
      rw [← drop_drop,← drop_drop,hf,drop_left,drop_left]
    have hn := ih hps hr
    rw [map_cons,patch]
    simp only [PatchGroup.outer,group,hp,hga] at hn ⊢
    rw [hn,blocks,blocks,zipWith_cons_cons,flatMap_cons]
    simp [PatchGroup.outer,group,hp]

theorem blocks_eq_append (hf : ps.map (·.1) = windowRanges 0 (nodePairs D Qs))
    (h : blocks file Qs ps = front ++ b :: back) :
    ∃ Q₁ g w Q₂, ∃ p ∈ ps, Qs = Q₁ ++ (g,w) :: Q₂ ∧ b = (g,((group p).outer file).content) ∧
      p.1 = ⟨(joined Q₁).flatten.length + g.flatten.length,
        (joined Q₁).flatten.length + g.flatten.length + w.flatten.length⟩ ∧ (Q₂ = [] → back = []) := by
  obtain ⟨Q₁,rest,p₁,rest',hlen,rfl,rfl,rfl,ht⟩ := zipWith_eq_append_iff.mp h
  obtain ⟨⟨g,w⟩,Q₂,p,p₂,rfl,rfl,rfl,rfl⟩ := zipWith_eq_cons_iff.mp ht.symm
  refine ⟨Q₁,g,w,Q₂,p,by simp,rfl,rfl,?_,?_⟩
  · rw [map_append,nodePairs_append,windowRanges_append,nodePairs_cons,windowRanges] at hf
    have hl : (p₁.map (·.1)).length = (windowRanges 0 (nodePairs D Q₁)).length := by
      rw [windowRanges_length,nodePairs,length_map,length_map,hlen]
    have hw : p.1 = _ := (cons.inj (append_inj hf hl).2).1
    rw [hw,joined_nodePairs]
    simp [nodeBytes_pieceNode]
  · rintro rfl
    rfl

variable {mdb : MDBFileInfo H} {C : Constants} {ranges : List FileRange}
  {ds : List DirtyInput}

theorem edits_before {w : FileRange} {d : DirtyInput} {m : ℕ}
    (hq : Query (segByteStarts mdb) file.length ds ranges)
    (hcl : ∀ r ∈ ranges, r.start < w.stop → r.stop ≤ m) (hd : d ∈ ds) (hle : d.start ≤ d.stop)
    (hold : Holds file.length w d) : d.stop ≤ m := by
  obtain ⟨r,hr,hst,hs,-⟩ := hq.holds d hd
  have hlt := hq.apart.lt r hr
  have hsi := hq.apart.stop_le r hr
  have hle' := hold.le_stop
  refine hs.trans (hcl r hr ?_)
  by_cases hin : d.start = d.stop
  · have := hold.insert_lt hin
    omega
  · omega

section
variable (hc : Chunker.new G C C.targetChunkSize = some c) (hwin : hashWindowSize < c.minimumChunk)
  (hG : Windowed G c.mask)
include hc hwin hG

theorem window_closed {Q₁ Q₂ : PiecePairs} {g body : List Bytes} {x y : Bytes}
    {p : FileRange × List DirtyInput}
    (hpieces : pieces c.rule file = joined (Q₁ ++ (g,body ++ [x,y]) :: Q₂) ++ T)
    (he : joined Q₂ ++ T ≠ []) (hw : p.1 = ⟨(joined Q₁).flatten.length + g.flatten.length,
      (joined Q₁).flatten.length + g.flatten.length + (body ++ [x,y]).flatten.length⟩)
    (hx : isStableChunkSize C x.length = true) (hy : isStableChunkSize C y.length = true)
    (hfi : Fits p.1.stop p.1.start (p.2.map DirtyInput.patch))
    (hb : ∀ d ∈ p.2, d.stop ≤ (joined Q₁).flatten.length + g.flatten.length + body.flatten.length) :
    Closed c.rule ((group p).outer file).content := by
  set start := (joined Q₁).flatten.length + g.flatten.length
  set m := start + body.flatten.length
  have hp : pieces c.rule file = (joined Q₁ ++ g ++ body) ++ ([x,y] ++ (joined Q₂ ++ T)) := by
    rw [hpieces]
    simp
  have hf : file = (joined Q₁ ++ g ++ body).flatten ++ ((x ++ y) ++ (joined Q₂ ++ T).flatten) := by
    rw [← pieces_flatten c.rule file,hp]
    simp
  have hcu : ∀ z ∈ [x,y], c.rule.cut z = some z.length := by
    intro z hz
    apply cut_of_mem_dropLast_pieces c.rule
    rw [hp,← append_assoc,dropLast_append_of_ne_nil he]
    exact mem_append_left _ (mem_append_right _ hz)
  have hlen : (joined Q₁ ++ g ++ body).flatten.length = m := by simp [m,start,Nat.add_assoc]
  have hs : p.1.stop = m + (x ++ y).length := by
    rw [hw]
    simp [m,Nat.add_assoc]
  have hl : slice file m p.1.stop = x ++ y := by
    have h := slice_append_right (joined Q₁ ++ g ++ body).flatten
      ((x ++ y) ++ (joined Q₂ ++ T).flatten) 0 (x ++ y).length
    rwa [← hf,hlen,Nat.add_zero,slice_append_left _ le_rfl,slice_zero_length,← hs] at h
  have hm := hfi.shrink (by rw [hw]; exact Nat.le_add_right _ _) (forall_mem_map.mpr hb)
  have hco : patch file p.1.stop p.1.start (p.2.map DirtyInput.patch ++ []) = _ :=
    patch_append hm (show m ≤ p.1.stop by omega)
  rw [append_nil,patch,hl,← append_assoc] at hco
  rw [isStableChunkSize_iff hc] at hx hy
  change Closed c.rule (patch file p.1.stop p.1.start (p.2.map DirtyInput.patch))
  rw [hco]
  exact Chunker.closed_of_stable (Chunker.new_synced hc).1.lt hwin hG (hcu x (by simp)) (by omega)
    (hcu y (by simp))
    hy.1 hy.2 _

section
variable (hpieces : pieces c.rule file = joined Qs ++ T)
  (hlayout : Layout C ranges ((pieces c.rule file).map (pieceNode D)) (nodePairs D Qs)
    (T.map (pieceNode D)))
  (hq : Query (segByteStarts mdb) file.length ds ranges)
  (ha : Assignable file.length (windowRanges 0 (nodePairs D Qs)) ds)
include hpieces hlayout hq ha

theorem blocks_closed
    (h : blocks file Qs (assign file.length (windowRanges 0 (nodePairs D Qs)) ds) = front ++ b :: back) :
    Closed c.rule b.2 ∨ (back = [] ∧ T = []) := by
  obtain ⟨Q₁,g,w,Q₂,p,hp,rfl,rfl,hwi,hba⟩ := blocks_eq_append (assign_map_fst ..) h
  by_cases he : joined Q₂ ++ T = []
  · obtain ⟨hQ,rfl⟩ := append_eq_nil_iff.mp he
    refine Or.inr ⟨hba ?_,rfl⟩
    -- windows are not empty, so there is none
    cases Q₂ with
    | nil => rfl
    | cons q Q₂ =>
      have hne := hlayout.windows_ne_nil (q.1.map (pieceNode D),q.2.map (pieceNode D))
        (by simp [nodePairs])
      simp_all
  · have hs : nodePairs D (Q₁ ++ (g,w) :: Q₂) =
        nodePairs D Q₁ ++ (g.map (pieceNode D),w.map (pieceNode D)) :: nodePairs D Q₂ := by
      rw [nodePairs_append,nodePairs_cons]
    rcases hlayout.closes hs with ⟨body,x,y,hw,hx,hy,hb⟩ | ⟨hQ,hT⟩
    · obtain ⟨body,rest,rfl,rfl,hxy⟩ := map_eq_append_iff.mp hw
      obtain ⟨x,rest,rfl,rfl,hre⟩ := map_eq_cons_iff.mp hxy
      obtain ⟨y,rest,rfl,rfl,hn⟩ := map_eq_cons_iff.mp hre
      obtain rfl := map_eq_nil_iff.mp hn
      simp only [joined_nodePairs,nodeBytes_pieceNode] at hb
      exact Or.inl (window_closed hc hwin hG hpieces he hwi hx hy (ha.fits p hp) fun d hd => by
        have hmem : d ∈ ds := ha.flatMap_assign ▸ mem_flatMap.mpr ⟨p,hp,hd⟩
        refine edits_before hq (fun r hr hlt => hb r hr ?_) hmem (ha.start_le d hmem) (ha.holds p hp d hd)
        rwa [hwi] at hlt)
    · have hQ₂ : Q₂ = [] := map_eq_nil_iff.mp hQ
      have hT' : T = [] := map_eq_nil_iff.mp hT
      exact absurd (by rw [hQ₂,hT']; rfl) he

/-- The chunks of the edited file: those of the gaps, and those of the edited windows. -/
theorem pieces_edited : pieces c.rule (edited file ds) =
      (blocks file Qs (assign file.length (windowRanges 0 (nodePairs D Qs)) ds)).flatMap
        (fun b => b.1 ++ pieces c.rule b.2) ++ T := by
  have hf : file.drop 0 = (joined Qs ++ T).flatten := by rw [drop_zero,← hpieces,pieces_flatten]
  rw [edited_eq ha,patch_blocks (assign_map_fst ..) hf]
  refine pieces_blocks c.rule (fun b hb => ?_) ?_ fun front b back heq =>
    blocks_closed hc hwin hG hpieces hlayout hq ha heq
  · obtain ⟨front,back,heq⟩ := append_of_mem hb
    obtain ⟨Q₁,g,w,Q₂,p,-,rfl,rfl,-⟩ := blocks_eq_append (assign_map_fst ..) heq
    obtain ⟨x,w,rfl⟩ : ∃ x w', w = x :: w' := by
      refine exists_cons_of_ne_nil fun hw => ?_
      exact hlayout.windows_ne_nil (g.map (pieceNode D),w.map (pieceNode D)) (by simp [nodePairs])
        (by simp [hw])
    have hs : pieces c.rule file = joined Q₁ ++ (g ++ x :: (w ++ (joined Q₂ ++ T))) := by
      rw [hpieces]; simp
    exact pieces_infix c.rule hs
  · cases T with
    | nil => simp
    | cons t T => exact (pieces_eq_append c.rule hpieces).2

end

end

end Blocks

section Merge
variable {K : NodeHasher H}
variable {qs : Pairs H} {us : List (UploadedWindow H)}

theorem pieceSubtrees_cons (s : Bool) (cs : List (Node H)) (rest : List (List (Node H))) :
    pieceSubtrees K s (cs :: rest) = fromChunks K s cs rest.isEmpty :: pieceSubtrees K false rest := by
  cases rest <;> rfl

def gapSubtrees (K : NodeHasher H) (atStart : Bool) (qs : Pairs H) :
    List (Option (MerkleHashSubtree H)) :=
  match qs with
  | [] => []
  | q :: qs => ChunkWindowBuilder.toOption (fromChunks K atStart q.1 false) :: gapSubtrees K false qs

theorem gapRanges_placePairs (atStart : Bool) (pos : ℕ) (qs : Pairs H) :
    gapRanges K atStart (placePairs pos qs) = gapSubtrees K atStart qs := by
  induction qs generalizing atStart pos with
  | nil => rfl
  | cons q qs ih =>
    rw [placePairs,gapRanges,gapSubtrees,place_map_snd,ih]

def nonemptyPart (cs : List (Node H)) : List (List (Node H)) := if cs.isEmpty then [] else [cs]

/-- The chunk lists in the order in which they are merged. -/
def mergeParts : Pairs H → List (UploadedWindow H) → List (Node H) → List (List (Node H))
  | q :: qs, u :: us, tl => nonemptyPart q.1 ++ u.chunks :: mergeParts qs us tl
  | _, _, tl => nonemptyPart tl

theorem mergeParts_isEmpty
    (hlen : us.length = qs.length) : (mergeParts qs us tl).isEmpty = (us.isEmpty && tl.isEmpty) := by
  cases qs with
  | nil =>
    obtain rfl := length_eq_zero_iff.mp hlen
    cases tl <;> rfl
  | cons q qs =>
    cases us with
    | nil => simp at hlen
    | cons u us => simp [mergeParts]

theorem mergeSequence_tail (tl : List (Node H)) (first : Bool)
    {k last : ℕ} (hlen : us.length = qs.length) (hk : 0 < k) (hl : last + 1 = k + us.length) :
    (((us.zip (gapSubtrees K false qs)).zipIdx k).flatMap fun p => p.1.2.toList ++
        [fromChunks K (p.2 == 0 && first) p.1.1.chunks (p.2 == last && tl.isEmpty)]) ++
      (ChunkWindowBuilder.toOption (fromChunks K false tl true)).toList =
        pieceSubtrees K false (mergeParts qs us tl) := by
  induction qs generalizing us k with
  | nil =>
    obtain rfl := length_eq_zero_iff.mp hlen
    rw [toOption_fromChunks]
    cases tl <;> rfl
  | cons q qs ih =>
    cases us with
    | nil => simp at hlen
    | cons u us =>
      have hlen' := Nat.succ.inj hlen
      have hr := ih hlen' (Nat.succ_pos k) (by simp only [length_cons] at hl; omega)
      have hz : (k == 0) = false := beq_false_of_ne (by omega)
      have hla : (k == last && tl.isEmpty) = (mergeParts qs us tl).isEmpty := by
        rw [mergeParts_isEmpty hlen']
        cases us with
        | nil => simp [show k = last by simpa using hl.symm]
        | cons v us =>
          simp only [length_cons] at hl
          simp [show ¬k = last by omega]
      rw [gapSubtrees,zip_cons_cons,zipIdx_cons,flatMap_cons,append_assoc,hr,mergeParts,
        toOption_fromChunks,hz,hla]
      cases hq : q.1 with
      | nil => simp [nonemptyPart,pieceSubtrees_cons]
      | cons n ns => simp [nonemptyPart,pieceSubtrees_cons]

/-- The merge sequence is made of the subtrees of the parts of the file. -/
theorem mergeSequence_eq (hlen : us.length = qs.length) (hne : qs ≠ []) :
    mergeSequence K (gapSubtrees K true qs ++
      [ChunkWindowBuilder.toOption (fromChunks K false tl true)]) us =
      pieceSubtrees K true (mergeParts qs us tl) := by
  obtain ⟨q,qs,rfl⟩ := exists_cons_of_ne_nil hne
  cases us with
  | nil => simp at hlen
  | cons u us =>
    have hlen' := Nat.succ.inj hlen
    have ht : (ChunkWindowBuilder.toOption (fromChunks K false tl true)).isNone = tl.isEmpty := by
      rw [toOption_fromChunks]
      cases tl <;> rfl
    have hr := mergeSequence_tail (K := K) tl
      (ChunkWindowBuilder.toOption (fromChunks K true q.1 false)).isNone hlen'
      Nat.one_pos (show us.length + 1 = 1 + us.length by omega)
    have hl : ((0 : ℕ) == us.length && tl.isEmpty) = (mergeParts qs us tl).isEmpty := by
      rw [mergeParts_isEmpty hlen']
      cases us <;> simp
    unfold mergeSequence
    simp only [getLast?_concat,dropLast_concat,Option.join_some,ht,gapSubtrees,head?_cons,
      Option.any_some,length_cons,Nat.add_sub_cancel]
    rw [zip_cons_cons,zipIdx_cons,flatMap_cons,append_assoc,hr,mergeParts,hl,toOption_fromChunks]
    cases hq : q.1 with
    | nil => simp [nonemptyPart,pieceSubtrees_cons]
    | cons n ns => simp [nonemptyPart,pieceSubtrees_cons]

end Merge
end XetCore.RangeUpload
