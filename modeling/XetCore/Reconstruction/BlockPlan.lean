import XetCore.Reconstruction.FetchRanges
import XetCore.Reconstruction.FileTerms

/-! # The blocks of a plan

A block is identified by its xorb and its first chunk. As the fetch ranges of a xorb
are apart, that names one group of ranges, so a block that is found again holds the
ranges that the term needs.
-/
namespace XetCore.Reconstruction
open Dedup Chunking Extents Intervals List

variable {H : Type}
variable {fetches : List XorbMultiRangeFetch} {term : ChunkRange} {g : XorbMultiRangeFetch}
  {b : Bool} {n : ℕ}

/-- The fetches that can become blocks: whole entries, or single ranges of them. -/
def groups (enableMultirange : Bool) (fetches : List XorbMultiRangeFetch) : List XorbMultiRangeFetch :=
  if enableMultirange then fetches else fetches.flatMap fun f => f.ranges.map fun r => ⟨f.url,[r]⟩

theorem groups_flatten (b : Bool) (fetches : List XorbMultiRangeFetch) :
    (groups b fetches).flatMap (·.ranges) = fetches.flatMap (·.ranges) := by
  cases b
  · rw [groups,if_neg Bool.false_ne_true,flatMap_assoc]
    refine flatMap_congr fun f _ => ?_
    rw [flatMap_map,flatMap_singleton']
  · rw [groups,if_pos rfl]

theorem groups_unique (h : Apart n (fetchedRanges fetches))
    {g' : XorbMultiRangeFetch} (hg : g ∈ groups b fetches) (hg' : g' ∈ groups b fetches)
    {r r' : XorbRangeDescriptor} (hr : r ∈ g.ranges) (hr' : r' ∈ g'.ranges)
    (heq : r.chunks.start = r'.chunks.start) :
    g = g' := by
  have hf : ((groups b fetches).flatMap (·.ranges)).Pairwise fun r r' =>
    r.chunks.start ≠ r'.chunks.start := by
    rw [groups_flatten]
    have hs := pairwise_map.mp h.separated
    refine hs.imp_of_mem fun {r r'} hr _ hlt => ?_
    have := h.lt r.chunks (mem_map_of_mem hr)
    omega
  have hp := (pairwise_flatMap.mp hf).2
  have : Std.Symm fun g g' : XorbMultiRangeFetch => ∀ r ∈ g.ranges, ∀ r' ∈ g'.ranges,
    r.chunks.start ≠ r'.chunks.start :=
    ⟨fun _ _ hR r hr r' hr' => (hR r' hr' r hr).symm⟩
  by_contra hne
  exact hp.forall hg hg' hne r hr r' hr' heq

theorem apart_group (h : Apart n (fetchedRanges fetches))
    (hg : g ∈ groups b fetches) : Apart n (g.ranges.map (·.chunks)) := by
  refine h.sublist ?_
  rw [fetchedRanges,← groups_flatten b,flatMap_def]
  exact (sublist_flatten_of_mem (mem_map_of_mem hg)).map _

theorem getElem?_grow {α : Type} {xs ys : List α} (h : xs <+: ys) {i : ℕ} {x : α} (hx : xs[i]? = some x) :
    ys[i]? = some x := by
  obtain ⟨hi,rfl⟩ := List.getElem?_eq_some_iff.mp hx
  exact prefix_iff_getElem?.mp h i hi

theorem covered_iff_contains {rs : List XorbRangeDescriptor} :
    Covered term (rs.map (·.chunks)) ↔ ∃ r ∈ rs, rangeContains r.chunks term = true := by
  simp [Covered,rangeContains]

variable [DecidableEq H] {t : XorbReconstructionTerm H}

theorem findXorbBlock_spec (b : Bool) (xorbHash : H) (hc : Covered term (fetchedRanges fetches))
    (s : BlockState H) :
    ∃ g ∈ groups b fetches, ∃ r, g.ranges.head? = some r ∧ Covered term (g.ranges.map (·.chunks)) ∧
      findXorbBlock b xorbHash term fetches s = some (blockOf xorbHash r.chunks.start g s) := by
  induction fetches with
  | nil =>
    obtain ⟨r,hr,-⟩ := hc
    simp [fetchedRanges] at hr
  | cons fetch rest ih =>
    by_cases hh : Covered term (fetch.ranges.map (·.chunks))
    · have hex := covered_iff_contains.mp hh
      cases b with
      | true =>
        rw [findXorbBlock,if_pos rfl,if_pos (any_eq_true.mpr hex)]
        cases hrs : fetch.ranges with
        | nil => simp [hrs] at hex
        | cons r₀ rs => exact ⟨fetch,by simp [groups],r₀,by simp [hrs],hh,rfl⟩
      | false =>
        obtain ⟨r,hr⟩ := Option.isSome_iff_exists.mp (find?_isSome.mpr hex)
        have hin := find?_some hr
        rw [findXorbBlock,if_neg Bool.false_ne_true,hr]
        exact ⟨⟨fetch.url,[r]⟩,by simp [groups,mem_of_find?_eq_some hr],r,rfl,
          covered_iff_contains.mpr ⟨r,by simp,hin⟩,rfl⟩
    · have hn := fun r hr hin => hh (covered_iff_contains.mpr ⟨r,hr,hin⟩)
      have hre : Covered term (fetchedRanges rest) := by
        obtain ⟨r,hr,hc⟩ := hc
        rw [fetchedRanges,flatMap_cons,map_append,mem_append] at hr
        exact ⟨r,hr.resolve_left fun hr => hh ⟨r,hr,hc⟩,hc⟩
      obtain ⟨g,hg,r,hhe,hg',hf⟩ := ih hre
      refine ⟨g,?_,r,hhe,hg',?_⟩
      · cases b <;> simp [groups] at hg ⊢ <;> tauto
      · rw [← hf,findXorbBlock]
        cases b with
        | true => rw [if_pos rfl,if_neg (by simpa using hn)]
        | false => rw [if_neg Bool.false_ne_true,find?_eq_none.mpr hn]

/-- What a block keeps while references are added to it. -/
def XorbBlock.shape (b : XorbBlock H) : H × List ChunkRange := (b.xorbHash,b.chunkRanges)

def shapes (s : BlockState H) : List (H × List ChunkRange) := s.xorbBlocks.map XorbBlock.shape

theorem map_modify_of_eq {α β : Type} (f : α → α) (g : α → β) (h : ∀ x, g (f x) = g x)
    (xs : List α) (i : ℕ) :
    (xs.modify i f).map g = xs.map g := by
  refine List.ext_getElem? fun j => ?_
  rw [List.getElem?_map,List.getElem?_map,List.getElem?_modify]
  cases xs[j]? with
  | none => rfl
  | some x =>
    simp only [Option.map_eq_map,Option.map_some,Option.some.injEq]
    split
    · exact h x
    · rfl

/-- Every known key names a block that holds the group of ranges with this key. -/
def TableOk (b : Bool) (response : QueryReconstructionResponseV2 H) (s : BlockState H) : Prop :=
  ∀ h k i, s.xorbIndexLookup.lookup (h,k) = some i →
    ∃ fetches g r, response.xorbs.lookup h = some fetches ∧
    g ∈ groups b fetches ∧ g.ranges.head? = some r ∧ r.chunks.start = k ∧
    (shapes s)[i]? = some (h,g.ranges.map (·.chunks))

theorem blockOf_spec {response : QueryReconstructionResponseV2 H} {s : BlockState H}
    (hs : TableOk b response s) {h : H}
    (hf : response.xorbs.lookup h = some fetches) (ha : Apart n (fetchedRanges fetches))
    (hg : g ∈ groups b fetches) {r : XorbRangeDescriptor} (hr : g.ranges.head? = some r) :
    ∃ i s', blockOf h r.chunks.start g s = (i,s') ∧ TableOk b response s' ∧ shapes s <+: shapes s' ∧
      (shapes s')[i]? = some (h,g.ranges.map (·.chunks)) ∧ s'.fileTermData = s.fileTermData ∧
      s'.curFileByteOffset = s.curFileByteOffset := by
  unfold blockOf
  split
  · rename_i i hi
    obtain ⟨fetches',g',r',hf',hg',hr',hk,hsp⟩ := hs h r.chunks.start i hi
    cases hf.symm.trans hf'
    obtain rfl := groups_unique ha hg hg' (mem_of_mem_head? hr) (mem_of_mem_head? hr') hk.symm
    exact ⟨i,s,rfl,hs,prefix_refl _,hsp,rfl,rfl⟩
  · let s' : BlockState H :=
      { s with
        xorbBlocks := s.xorbBlocks ++ [⟨h,g.ranges.map (·.chunks),s.xorbBlocks.length,[]⟩]
        xorbBlockRetrievalUrls := s.xorbBlockRetrievalUrls ++ [(g.url,g.ranges.map (·.bytes))]
        xorbIndexLookup := ((h,r.chunks.start),s.xorbBlocks.length) :: s.xorbIndexLookup }
    have hsh : shapes s' = shapes s ++ [(h,g.ranges.map (·.chunks))] := by
      simp [shapes,s',XorbBlock.shape]
    have hn : (shapes s')[s.xorbBlocks.length]? = some (h,g.ranges.map (·.chunks)) := by
      rw [hsh]
      simp [shapes]
    refine ⟨_,s',rfl,?_,hsh ▸ prefix_append _ _,hn,rfl,rfl⟩
    intro h' k i hi
    rw [lookup_cons_ite] at hi
    split_ifs at hi with hk
    · cases hk
      cases hi
      exact ⟨fetches,g,r,hf,hg,hr,rfl,hn⟩
    · obtain ⟨fetches',g',r',hf',hg',hr',hk,hsp⟩ := hs h' k i hi
      exact ⟨fetches',g',r',hf',hg',hr',hk,getElem?_grow (hsh ▸ prefix_append _ _) hsp⟩

def rangeChunks (cs : List (Chunk H)) (rs : List ChunkRange) : List (Chunk H) :=
  rs.flatMap fun r => slice cs r.start r.stop

omit [DecidableEq H] in
theorem flattenedIndex_spec {cs : List (Chunk H)} {rs : List ChunkRange} (ha : Apart cs.length rs)
    (hlt : term.start < term.stop) (hco : Covered term rs) (idx : ℕ) :
    ∃ pre post, flattenedIndex (H := H) term.start idx rs = .ok (some (idx + pre.length)) ∧
      rangeChunks cs rs = pre ++ slice cs term.start term.stop ++ post := by
  induction rs generalizing idx with
  | nil =>
    obtain ⟨r,hr,-⟩ := hco
    simp at hr
  | cons r rs ih =>
    have hf := (List.pairwise_cons.mp ha.separated).1
    have hs := ha.stop_le r (by simp)
    have hch : rangeChunks cs (r :: rs) = slice cs r.start r.stop ++ rangeChunks cs rs := rfl
    rw [flattenedIndex,hch]
    obtain ⟨c,hc,hle,hs'⟩ := hco
    split
    · rename_i hin
      obtain rfl : c = r := by
        rcases List.mem_cons.mp hc with rfl | hc
        · rfl
        · have := hf c hc
          omega
      refine ⟨slice cs c.start term.start,slice cs term.stop c.stop ++ rangeChunks cs rs,?_,?_⟩
      · rw [slice_length (by omega)]
      · rw [← List.append_assoc,slice_append_slice cs hle hlt.le,
          slice_append_slice cs (hle.trans hlt.le) hs']
    · rename_i ho
      rw [if_neg (ha.lt r (by simp)).not_gt]
      have hc' : c ∈ rs := by
        rcases List.mem_cons.mp hc with rfl | hc
        · omega
        · exact hc
      obtain ⟨pre,post,hid,heq⟩ := ih (ha.sublist (List.sublist_cons_self r rs)) ⟨c,hc',hle,hs'⟩
        (idx + (r.stop - r.start))
      refine ⟨slice cs r.start r.stop ++ pre,post,?_,?_⟩
      · rw [hid,List.length_append,slice_length hs,Nat.add_assoc]
      · rw [heq]
        simp only [List.append_assoc]

/-- The term's chunks stand in its block, from the start index on. -/
structure Placed (store : H → List (Chunk H)) (blocks : List (H × List ChunkRange))
    (t : XorbReconstructionTerm H) (e : FileTermEntry) : Prop where
  in_block : ∃ rs pre post, blocks[e.xorbBlockIndex]? = some (t.hash,rs) ∧
    (∀ r ∈ rs, r.stop ≤ (store t.hash).length) ∧ e.xorbBlockStartIndex = pre.length ∧
    rangeChunks (store t.hash) rs = pre ++ slice (store t.hash) t.range.start t.range.stop ++ post

/-- Entries for consecutive terms from file position `pos` on, where the first one starts inside its
term. -/
inductive Laid (store : H → List (Chunk H)) (blocks : List (H × List ChunkRange)) :
    ℕ → ℕ → List (XorbReconstructionTerm H) → List FileTermEntry → Prop
  | nil (pos offset : ℕ) : Laid store blocks pos offset [] []
  | cons {pos offset : ℕ} {t : XorbReconstructionTerm H} {ts : List (XorbReconstructionTerm H)}
    {e : FileTermEntry}
      {es : List FileTermEntry} (range : e.byteRange = ⟨pos,pos + (t.unpackedLength - offset)⟩)
      (start : e.offsetIntoFirstRange = offset) (placed : Placed store blocks t e)
      (rest : Laid store blocks (pos + (t.unpackedLength - offset)) 0 ts es) :
      Laid store blocks pos offset (t :: ts) (e :: es)

section Loop
variable {store : H → List (Chunk H)} {response : QueryReconstructionResponseV2 H} {s : BlockState H}
variable {terms : List (XorbReconstructionTerm H)}

section
variable (hf : Fetchable store terms (response.xorbs.map fun p => (p.1,fetchedRanges p.2)))
include hf

theorem blockStep_spec (ht : t ∈ terms) (hok : TermOk store t) (hs : TableOk b response s) (i : ℕ)
    (hfi : (if i = 0 then response.offsetIntoFirstRange else 0) ≤ t.unpackedLength) :
    let offset := if i = 0 then response.offsetIntoFirstRange else 0
    ∃ s' e, blockStep b response i t s = .ok s' ∧ TableOk b response s' ∧ shapes s <+: shapes s' ∧
      s'.fileTermData = s.fileTermData ++ [e] ∧
      s'.curFileByteOffset = s.curFileByteOffset + (t.unpackedLength - offset) ∧
      e.byteRange = ⟨s.curFileByteOffset,s.curFileByteOffset + (t.unpackedLength - offset)⟩ ∧
      e.offsetIntoFirstRange = offset ∧ Placed store (shapes s') t e := by
  intro offset
  obtain ⟨rs,hrs,hcv⟩ := hf.term t ht
  have ha := hf.apart t.hash rs hrs
  rw [lookup_map_snd] at hrs
  obtain ⟨fetches,hfe,rfl⟩ := Option.map_eq_some_iff.mp hrs
  obtain ⟨g,hg,r,hh,hco,hfn⟩ := findXorbBlock_spec b t.hash hcv s
  obtain ⟨j,s₁,hb,hta,hgr,hsh,hd,hcu⟩ := blockOf_spec hs hfe ha hg hh
  obtain ⟨pre,post,hid,hc⟩ := flattenedIndex_spec (apart_group ha hg) hok.lt hco 0
  rw [Nat.zero_add] at hid
  have hr : (s₁.xorbBlocks[j]?.map (·.chunkRanges)).getD [] = g.ranges.map (·.chunks) := by
    rw [shapes,getElem?_map] at hsh
    obtain ⟨block,hge,heq⟩ := Option.map_eq_some_iff.mp hsh
    rw [hge]
    exact congrArg Prod.snd heq
  let e : FileTermEntry :=
    ⟨⟨s.curFileByteOffset,s.curFileByteOffset + (t.unpackedLength - offset)⟩,t.range,offset,j,pre.length⟩
  let s' : BlockState H :=
    { s₁ with
      xorbBlocks := s₁.xorbBlocks.modify j (addReference ⟨t.range,t.unpackedLength⟩)
      fileTermData := s₁.fileTermData ++ [e]
      curFileByteOffset := s.curFileByteOffset + (t.unpackedLength - offset) }
  have hk : shapes s' = shapes s₁ :=
    map_modify_of_eq (addReference _) XorbBlock.shape (fun _ => rfl) s₁.xorbBlocks j
  refine ⟨s',e,?_,?_,hk ▸ hgr,by rw [← hd],rfl,rfl,rfl,?_⟩
  · simp [blockStep,hfe,hfn,hb,hr,hid,hcu,hfi.not_gt,s',e,offset]
  · intro h k i hi
    rw [hk]
    exact hta h k i hi
  · exact ⟨_,pre,post,hk ▸ hsh,(apart_group ha hg).stop_le,rfl,hc⟩

/-- Every term gets its entry; the blocks so far stay where they are. -/
theorem blockLoop_spec
    (hok : ∀ t ∈ terms, TermOk store t) {ts : List (XorbReconstructionTerm H)} (hts : ∀ t ∈ ts, t ∈ terms)
    (hs : TableOk b response s) (i : ℕ)
    (hfi : ∀ t ∈ ts.head?, (if i = 0 then response.offsetIntoFirstRange else 0) ≤ t.unpackedLength) :
    ∃ s' es, blockLoop b response i ts s = .ok s' ∧ shapes s <+: shapes s' ∧
    s'.fileTermData = s.fileTermData ++ es ∧
      s'.curFileByteOffset = (es.getLast?.map (·.byteRange.stop)).getD s.curFileByteOffset ∧
      Laid store (shapes s') s.curFileByteOffset (if i = 0 then response.offsetIntoFirstRange
        else 0) ts es := by
  induction ts generalizing s i with
  | nil => exact ⟨s,[],rfl,prefix_refl _,by simp,rfl,.nil _ _⟩
  | cons t ts ih =>
    have ht := hts t (by simp)
    obtain ⟨s₁,e,hru,hta,hg,hd,hc,hr,ho,hp⟩ := blockStep_spec hf ht (hok t ht) hs i (hfi t (by simp))
    obtain ⟨s₂,es,hru',hg',hd',hc',hl⟩ := ih (fun u hu => hts u (by simp [hu])) hta (i + 1)
      fun u _ => Nat.zero_le _
    refine ⟨s₂,e :: es,?_,hg.trans hg',by rw [hd',hd,append_assoc]; rfl,?_,?_⟩
    · rw [blockLoop,hru]
      exact hru'
    · rw [hc',hc,getLast?_cons]
      cases es.getLast? with
      | none => simp [hr]
      | some d => rfl
    · rw [if_neg (by omega),hc] at hl
      obtain ⟨rs,pre,post,hgr,hin⟩ := hp.in_block
      exact .cons hr ho ⟨rs,pre,post,getElem?_grow hg' hgr,hin⟩ hl

end

end Loop
end XetCore.Reconstruction
