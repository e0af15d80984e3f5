import XetCore.Lib.ByteSource
import XetCore.Lib.FirstUse
import XetCore.Reconstruction.RoundTrip

/-! # The blocks that terms share

Whatever a response says, each term chooses the first fetch that holds its chunks, and the
blocks of the plan are the first uses of the keys of these fetches: the xorb and the first
chunk. A term gets the block of its key, which may be another fetch than the one it chose.
-/
namespace XetCore.Reconstruction
open Intervals FirstUse ByteSources List

variable {H : Type} [DecidableEq H] {b : Bool} {response : QueryReconstructionResponseV2 H}
  {s s' : BlockState H} {t : XorbReconstructionTerm H}
variable {i : ℕ} {uses : List ((H × ℕ) × XorbMultiRangeFetch)} {plan : TermBlock H}
  {e : FileTermEntry} {α β : Type}

def XorbMultiRangeFetch.firstChunk (g : XorbMultiRangeFetch) : ℕ :=
  (g.ranges.head?.map (·.chunks.start)).getD 0

def XorbMultiRangeFetch.holds (g : XorbMultiRangeFetch) (term : ChunkRange) : Bool :=
  g.ranges.any fun r => rangeContains r.chunks term

def choice (b : Bool) (response : QueryReconstructionResponseV2 H) (t : XorbReconstructionTerm H) :
    Option ((H × ℕ) × XorbMultiRangeFetch) :=
  (response.xorbs.lookup t.hash).bind fun fetches =>
    ((groups b fetches).find? (·.holds t.range)).map fun g => ((t.hash,g.firstChunk),g)

def choices (b : Bool) (response : QueryReconstructionResponseV2 H)
    (terms : List (XorbReconstructionTerm H)) :
    List ((H × ℕ) × XorbMultiRangeFetch) := terms.filterMap (choice b response)

theorem findXorbBlock_eq (b : Bool) (xorbHash : H) (term : ChunkRange)
    (fetches : List XorbMultiRangeFetch)
    (s : BlockState H) : findXorbBlock b xorbHash term fetches s =
      ((groups b fetches).find? (·.holds term)).map fun g => blockOf xorbHash g.firstChunk g s := by
  induction fetches with
  | nil => cases b <;> rfl
  | cons fetch rest ih =>
    rw [findXorbBlock,ih]
    cases b with
    | true =>
      have ha : (fetch.ranges.any fun r => rangeContains r.chunks term) = fetch.holds term := rfl
      rw [groups,groups,if_pos rfl,if_pos rfl,if_pos rfl,find?_cons,ha]
      cases fetch.holds term with
      | true => rfl
      | false => rfl
    | false =>
      have hs : ∀ r, XorbMultiRangeFetch.holds ⟨fetch.url,[r]⟩ term = rangeContains r.chunks term :=
        fun r => by
        simp [XorbMultiRangeFetch.holds]
      have hc : (fun g => XorbMultiRangeFetch.holds g term) ∘ (fun r => ⟨fetch.url,[r]⟩) =
          fun r : XorbRangeDescriptor => rangeContains r.chunks term := funext hs
      simp only [groups,Bool.false_eq_true,if_false,flatMap_cons,find?_append,find?_map,hc]
      cases fetch.ranges.find? fun r => rangeContains r.chunks term with
      | none => rfl
      | some r => rfl

theorem blockStep_ok (h : blockStep b response i t s = .ok s') :
    ∃ g index s₁ start, choice b response t = some ((t.hash,g.firstChunk),g) ∧
      blockOf t.hash g.firstChunk g s = (index,s₁) ∧
      (if i = 0 then response.offsetIntoFirstRange else 0) ≤ t.unpackedLength ∧
      flattenedIndex (H := H) t.range.start 0
        ((s₁.xorbBlocks[index]?.map (·.chunkRanges)).getD []) = .ok (some start) ∧
      s' = { s₁ with
        xorbBlocks := s₁.xorbBlocks.modify index (addReference ⟨t.range,t.unpackedLength⟩)
        fileTermData := s₁.fileTermData ++ [⟨⟨s₁.curFileByteOffset,s₁.curFileByteOffset +
              (t.unpackedLength - if i = 0 then response.offsetIntoFirstRange else 0)⟩,t.range,
            if i = 0 then response.offsetIntoFirstRange else 0,index,start⟩]
        curFileByteOffset := s₁.curFileByteOffset +
          (t.unpackedLength - if i = 0 then response.offsetIntoFirstRange else 0) } := by
  unfold blockStep at h
  generalize (if i = 0 then response.offsetIntoFirstRange else 0) = offset at h ⊢
  cases hx : response.xorbs.lookup t.hash with
  | none => simp [hx] at h
  | some fetches =>
    simp only [hx,findXorbBlock_eq] at h
    cases hg : (groups b fetches).find? (·.holds t.range) with
    | none => simp [hg] at h
    | some g =>
      simp only [hg,Option.map_some] at h
      split at h
      · cases h
      · rename_i hle
        split at h
        · cases h
        · cases h
        · rename_i start hs
          refine ⟨g,_,_,start,?_,rfl,Nat.le_of_not_lt hle,hs,(Except.ok.inj h).symm⟩
          rw [choice,hx,Option.bind_some,hg]
          rfl

variable (p : (H × ℕ) × XorbMultiRangeFetch)

/-- The xorb and the chunk ranges of a block that is made for a fetch. -/
def fetchShape : H × List ChunkRange := (p.1.1,p.2.ranges.map (·.chunks))

def fetchUrl : String × List HttpRange := (p.2.url,p.2.ranges.map (·.bytes))

/-- The blocks are the first uses of the keys, each at the position that the table has for its key.
-/
structure Follows (uses : List ((H × ℕ) × XorbMultiRangeFetch)) (s : BlockState H) : Prop where
  blocks : shapes s = (firstUses uses).map fetchShape
  urls : s.xorbBlockRetrievalUrls = (firstUses uses).map fetchUrl
  indices : s.xorbBlocks.map (·.xorbBlockIndex) = List.range s.xorbBlocks.length
  known : ∀ key i, s.xorbIndexLookup.lookup key = some i → ∃ g, (firstUses uses)[i]? = some (key,g)
  unknown : ∀ key, s.xorbIndexLookup.lookup key = none → (firstUses uses).lookup key = none

omit [DecidableEq H] in
theorem shapes_length (s : BlockState H) : (shapes s).length = s.xorbBlocks.length := List.length_map _

theorem Follows.length (h : Follows uses s) : s.xorbBlocks.length = (firstUses uses).length := by
  rw [← shapes_length,h.blocks,length_map]

theorem Follows.index_eq (h : Follows uses s) {block : XorbBlock H}
    (hb : s.xorbBlocks[i]? = some block) : block.xorbBlockIndex = i := by
  have hg : (s.xorbBlocks.map (·.xorbBlockIndex))[i]? = some block.xorbBlockIndex := by
    rw [getElem?_map,hb]
    rfl
  rw [h.indices] at hg
  obtain ⟨hi,heq⟩ := List.getElem?_eq_some_iff.mp hg
  rw [getElem_range] at heq
  exact heq.symm

theorem Follows.blockOf (h : Follows uses s) {hash : H} {k index : ℕ}
    {g : XorbMultiRangeFetch} {s₁ : BlockState H} (hb : blockOf hash k g s = (index,s₁)) :
    Follows (uses ++ [((hash,k),g)]) s₁ ∧
    (∃ g₀, (firstUses (uses ++ [((hash,k),g)]))[index]? = some ((hash,k),g₀)) ∧
      s₁.fileTermData = s.fileTermData ∧ s₁.curFileByteOffset = s.curFileByteOffset := by
  unfold Reconstruction.blockOf at hb
  split at hb
  · rename_i i hi
    cases hb
    obtain ⟨g₀,hg₀⟩ := h.known _ _ hi
    have hs : firstUses (uses ++ [((hash,k),g)]) = firstUses uses := by
      rw [firstUses_concat,addFirst,if_pos]
      rw [lookup_firstUses,lookup_of_getElem? hg₀]
      rfl
    rw [hs]
    exact ⟨⟨hs ▸ h.blocks,hs ▸ h.urls,h.indices,hs ▸ h.known,hs ▸ h.unknown⟩,⟨g₀,hg₀⟩,rfl,rfl⟩
  · rename_i hn
    cases hb
    have hnw : firstUses (uses ++ [((hash,k),g)]) = firstUses uses ++ [((hash,k),g)] := by
      rw [firstUses_concat,addFirst,h.unknown _ hn]
      rfl
    have hg : (firstUses uses ++ [((hash,k),g)])[s.xorbBlocks.length]? = some ((hash,k),g) := by
      rw [h.length,getElem?_concat_length]
    refine ⟨⟨?_,?_,?_,?_,?_⟩,⟨g,hnw ▸ hg⟩,rfl,rfl⟩
    · rw [hnw,map_append,← h.blocks]
      simp [shapes,XorbBlock.shape,fetchShape]
    · rw [hnw,map_append,← h.urls]
      rfl
    · simp [h.indices,range_succ]
    · intro key i hi
      rw [hnw]
      rw [lookup_cons_ite] at hi
      split_ifs at hi with hk
      · cases hi
        exact ⟨g,hk ▸ hg⟩
      · obtain ⟨g₀,hg₀⟩ := h.known key i hi
        exact ⟨g₀,getElem?_grow (prefix_append _ _) hg₀⟩
    · intro key hk
      rw [lookup_cons_ite] at hk
      split at hk
      · cases hk
      · rename_i hne
        rw [hnw,lookup_append,h.unknown key hk]
        simp [hne]

/-- The entry of a term: it points at the block of the term's key. -/
structure EntryFor (b : Bool) (response : QueryReconstructionResponseV2 H)
    (blocks : List ((H × ℕ) × XorbMultiRangeFetch)) (t : XorbReconstructionTerm H)
    (e : FileTermEntry) : Prop where
  range : e.xorbChunkRange = t.range
  block : ∃ key g g₀, choice b response t = some (key,g) ∧ blocks[e.xorbBlockIndex]? = some (key,g₀) ∧
    flattenedIndex (H := H) t.range.start 0 (g₀.ranges.map (·.chunks)) = .ok (some e.xorbBlockStartIndex)

structure PlanState (b : Bool) (response : QueryReconstructionResponseV2 H)
    (done : List (XorbReconstructionTerm H)) (s : BlockState H) : Prop where
  follows : Follows (choices b response done) s
  entries : List.Forall₂ (EntryFor b response (firstUses (choices b response done))) done s.fileTermData

theorem PlanState.step {done : List (XorbReconstructionTerm H)} (h : PlanState b response done s)
    (hst : blockStep b response i t s = .ok s') : PlanState b response (done ++ [t]) s' := by
  obtain ⟨g,index,s₁,start,hch,hb,-,hid,rfl⟩ := blockStep_ok hst
  obtain ⟨hf,⟨g₀,hg⟩,hd,-⟩ := h.follows.blockOf hb
  have hc : choices b response (done ++ [t]) = choices b response done ++
    [((t.hash,g.firstChunk),g)] := by
    rw [choices,filterMap_append,filterMap_cons_some hch]
    rfl
  rw [← hc] at hf hg
  have hs : (shapes s₁)[index]? = some (t.hash,g₀.ranges.map (·.chunks)) := by
    rw [hf.blocks,getElem?_map,hg]
    rfl
  have hr : (s₁.xorbBlocks[index]?.map (·.chunkRanges)).getD [] = g₀.ranges.map (·.chunks) := by
    rw [shapes,getElem?_map] at hs
    obtain ⟨block,hb,heq⟩ := Option.map_eq_some_iff.mp hs
    rw [hb]
    exact congrArg Prod.snd heq
  rw [hr] at hid
  refine ⟨⟨?_,hf.urls,?_,hf.known,hf.unknown⟩,?_⟩
  · rw [← hf.blocks]
    exact map_modify_of_eq (addReference _) XorbBlock.shape (fun _ => rfl) s₁.xorbBlocks index
  · rw [length_modify,← hf.indices]
    exact map_modify_of_eq (addReference _) (·.xorbBlockIndex) (fun _ => rfl) s₁.xorbBlocks index
  · rw [hd]
    refine rel_append ?_ (.cons ⟨rfl,_,g,g₀,hch,hg,hid⟩ .nil)
    refine h.entries.imp fun t e he => ?_
    obtain ⟨key,g,g₀,hk,hg,hid⟩ := he.block
    refine ⟨he.range,key,g,g₀,hk,getElem?_grow ?_ hg,hid⟩
    rw [hc,firstUses_concat]
    exact prefix_addFirst _ _

theorem PlanState.loop {done ts : List (XorbReconstructionTerm H)} (h : PlanState b response done s)
    (hl : blockLoop b response i ts s = .ok s') : PlanState b response (done ++ ts) s' := by
  induction ts generalizing done s i with
  | nil =>
    cases hl
    rwa [append_nil]
  | cons t ts ih =>
    obtain ⟨s₁,hs,hr⟩ := bind_eq_ok.mp hl
    rw [append_cons]
    exact ih (h.step hs) hr

/-! ### The terms of a plan -/

variable {R : α → β → Prop}

theorem forall₂_modifyLast {f : β → β} (hf : ∀ a b, R a b → R a (f b)) {as : List α}
    {bs : List β} (h : List.Forall₂ R as bs) : List.Forall₂ R as (bs.modifyLast f) := by
  induction h with
  | nil => exact .nil
  | @cons a b as bs hab hr ih =>
    cases hr with
    | nil =>
      rw [modifyLast_singleton]
      exact .cons (hf a b hab) .nil
    | cons hab' hr' =>
      rw [modifyLast_cons_cons]
      exact .cons hab ih

theorem forall₂_filterMap {γ : Type} {Q : α → γ → Prop} {f : β → Option γ}
    (hf : ∀ a b, R a b → ∃ c, f b = some c ∧ Q a c) {as : List α} {bs : List β}
    (h : List.Forall₂ R as bs) :
    List.Forall₂ Q as (bs.filterMap f) := by
  induction h with
  | nil => exact .nil
  | @cons a b as bs hab _ ih =>
    obtain ⟨c,hc,hac⟩ := hf a b hab
    rw [List.filterMap_cons_some hc]
    exact .cons hac ih

theorem forall₂_forall_iff {p : α → Prop} {q : β → Prop}
    (hR : ∀ a b, R a b → (q b ↔ p a)) {as : List α} {bs : List β} (h : List.Forall₂ R as bs) :
    (∀ b ∈ bs, q b) ↔ ∀ a ∈ as, p a := by
  induction h with
  | nil => simp
  | @cons a b as bs hab _ ih => rw [List.forall_mem_cons,List.forall_mem_cons,hR a b hab,ih]

/-- A term of the plan: its block is the one that the first choice of the key stands for. -/
structure TermFor (b : Bool) (response : QueryReconstructionResponseV2 H) (t : XorbReconstructionTerm H)
    (f : FileTerm H) : Prop where
  range : f.xorbChunkRange = t.range
  block : ∃ key g g₀, choice b response t = some (key,g) ∧
    (firstUses (choices b response response.terms))[f.xorbBlock.xorbBlockIndex]? = some (key,g₀) ∧
    f.xorbBlock.shape = fetchShape (key,g₀) ∧
    flattenedIndex (H := H) t.range.start 0 f.xorbBlock.chunkRanges = .ok (some f.xorbBlockStartIndex)

theorem EntryFor.fileTerm (h : PlanState b response response.terms s)
    (he : EntryFor b response (firstUses (choices b response response.terms)) t e) :
    ∃ f, fileTerm (s.xorbBlocks.map sortReferences) e = some f ∧ TermFor b response t f := by
  obtain ⟨key,g,g₀,hc,hg,hid⟩ := he.block
  have hs : (shapes s)[e.xorbBlockIndex]? = some (fetchShape (key,g₀)) := by
    rw [h.follows.blocks,getElem?_map,hg]
    rfl
  rw [shapes,getElem?_map] at hs
  obtain ⟨block,hb,heq⟩ := Option.map_eq_some_iff.mp hs
  have hr : block.chunkRanges = g₀.ranges.map (·.chunks) := congrArg Prod.snd heq
  have hin := h.follows.index_eq hb
  refine ⟨_,by rw [Reconstruction.fileTerm,getElem?_map,hb]; rfl,he.range,key,g,g₀,hc,hin ▸ hg,heq,?_⟩
  change flattenedIndex t.range.start 0 block.chunkRanges = _
  rw [hr,hid]

section
variable {query : FileRange} (h : planTermBlock b query response = .ok plan)
include h

/-- A plan follows from the state in which all terms have been seen. -/
theorem planTermBlock_ok : ∃ s, PlanState b response response.terms s ∧
    plan = termBlock query.stop s := by
  obtain ⟨s,hl,rfl⟩ := map_eq_ok.mp h
  have hp : PlanState b response [] { curFileByteOffset := query.start } :=
    ⟨⟨rfl,rfl,rfl,fun _ _ hi => absurd hi (by simp),fun _ _ => rfl⟩,.nil⟩
  exact ⟨s,hp.loop hl,rfl⟩

/-- The terms of a plan are those of the response, one for one. -/
theorem planTermBlock_terms : List.Forall₂ (TermFor b response) response.terms plan.fileTerms := by
  obtain ⟨s,hp,rfl⟩ := planTermBlock_ok h
  have ht : List.Forall₂ (EntryFor b response (firstUses (choices b response response.terms)))
    response.terms
      (trimLast query.stop s) := by
    rw [trimLast_eq]
    exact forall₂_modifyLast (fun t e he => ⟨he.range,he.block⟩) hp.entries
  exact forall₂_filterMap (fun t e he => he.fileTerm hp) ht

end

/-! ### Where a term stands in its block -/

def chunkIndices (ranges : List ChunkRange) : List ℕ :=
  ranges.flatMap fun r => List.range' r.start (r.stop - r.start)

theorem idxOf_range' {start n c : ℕ} (hle : start ≤ c) (hlt : c < start + n) :
    (List.range' start n).idxOf c = c - start := by
  have hb : c - start < (List.range' start n).length := by
    rw [length_range']
    omega
  have hg : (List.range' start n)[c - start] = c := by
    rw [getElem_range']
    omega
  have hn : (List.range' start n).Nodup := nodup_range'
  have hid := hn.idxOf_getElem (c - start) hb
  rwa [hg] at hid

omit [DecidableEq H] in
theorem flattenedIndex_eq_idxOf {c idx : ℕ} {ranges : List ChunkRange}
    (h : flattenedIndex (H := H) c idx ranges = .ok (some i)) :
    c ∈ chunkIndices ranges ∧ i = idx + (chunkIndices ranges).idxOf c := by
  induction ranges generalizing idx with
  | nil => cases h
  | cons r ranges ih =>
    rw [chunkIndices,List.flatMap_cons]
    unfold flattenedIndex at h
    split at h
    · rename_i hin
      have hmem : c ∈ List.range' r.start (r.stop - r.start) := List.mem_range'_1.mpr ⟨hin.1,by omega⟩
      obtain rfl : idx + (c - r.start) = i := by simpa using h
      rw [List.idxOf_append_of_mem hmem,idxOf_range' hin.1 (by omega)]
      exact ⟨List.mem_append_left _ hmem,rfl⟩
    · rename_i ho
      split at h
      · cases h
      · obtain ⟨hmem,hi⟩ := ih h
        have hn : c ∉ List.range' r.start (r.stop - r.start) := by
          rw [List.mem_range'_1]
          omega
        rw [List.idxOf_append_of_notMem hn,List.length_range']
        refine ⟨List.mem_append_right _ hmem,?_⟩
        change i = idx + ((r.stop - r.start) + (chunkIndices ranges).idxOf c)
        omega

/-- The term's chunks lie in one range of its block, and the index is the position of the first one.
-/
structure FileTerm.InBlock (f : FileTerm H) : Prop where
  contained : ∃ r ∈ f.xorbBlock.chunkRanges, rangeContains r f.xorbChunkRange = true
  first_mem : f.xorbChunkRange.start ∈ chunkIndices f.xorbBlock.chunkRanges
  first_index : f.xorbBlockStartIndex = (chunkIndices f.xorbBlock.chunkRanges).idxOf
    f.xorbChunkRange.start

/-- Every term lies in the first fetch that some term chooses with the same xorb and first chunk. -/
def SharesBlocks (b : Bool) (response : QueryReconstructionResponseV2 H) : Prop :=
  ∀ t ∈ response.terms, ∀ key g g₀, choice b response t = some (key,g) →
    (choices b response response.terms).lookup key = some g₀ → g₀.holds t.range = true

theorem TermFor.inBlock_iff {f : FileTerm H} (h : TermFor b response t f) :
    f.InBlock ↔ ∀ key g g₀, choice b response t = some (key,g) →
      (choices b response response.terms).lookup key = some g₀ → g₀.holds t.range = true := by
  obtain ⟨key,g,g₀,hc,hg,hs,hix⟩ := h.block
  have hl := lookup_of_getElem? hg
  have hr : f.xorbBlock.chunkRanges = g₀.ranges.map (·.chunks) := congrArg Prod.snd hs
  have hh : (∃ r ∈ f.xorbBlock.chunkRanges, rangeContains r f.xorbChunkRange = true) ↔
    g₀.holds t.range = true := by
    rw [hr,h.range,XorbMultiRangeFetch.holds,any_eq_true]
    simp
  constructor
  · intro hin key' g' g₀' hc' hl'
    cases hc.symm.trans hc'
    cases hl.symm.trans hl'
    exact hh.mp hin.contained
  · intro ha
    obtain ⟨hmem,hid⟩ := flattenedIndex_eq_idxOf hix
    rw [← h.range] at hmem hid
    exact ⟨hh.mpr (ha key g g₀ hc hl),hmem,by rw [hid,Nat.zero_add]⟩

theorem terms_in_blocks_iff {query actualRange : FileRange} {transfer : ℕ} {fileTerms : List (FileTerm H)}
    (h : retrieveFileTermBlock b query (some response) = .ok (some (actualRange,transfer,fileTerms))) :
    (∀ f ∈ fileTerms, f.InBlock) ↔ SharesBlocks b response := by
  obtain ⟨plan,hplan,heq⟩ := map_eq_ok.mp h
  obtain ⟨rfl,rfl,rfl⟩ : plan.actualRange = actualRange ∧ plan.totalTransferBytes = transfer ∧
    plan.fileTerms = fileTerms := by simpa using heq
  exact forall₂_forall_iff (fun t f hf => hf.inBlock_iff) (planTermBlock_terms hplan)

def oneRange : QueryReconstructionResponseV2 ℕ where
  offsetIntoFirstRange := 0
  terms := [⟨7,20,⟨0,2⟩⟩,⟨7,40,⟨1,5⟩⟩]
  xorbs := [(7,[⟨"all",[⟨⟨0,5⟩,⟨0,29⟩⟩]⟩])]

theorem terms_in_blocks_one_range : ∃ actualRange transfer fileTerms,
      retrieveFileTermBlock false ⟨0,60⟩ (some oneRange) = .ok (some (actualRange,transfer,fileTerms)) ∧
      ∀ f ∈ fileTerms, f.InBlock := by
  obtain ⟨actualRange,transfer,fileTerms,hplan⟩ : ∃ actualRange transfer fileTerms,
    retrieveFileTermBlock false ⟨0,60⟩ (some oneRange) =
      .ok (some (actualRange,transfer,fileTerms)) := ⟨_,_,_,rfl⟩
  refine ⟨actualRange,transfer,fileTerms,hplan,(terms_in_blocks_iff hplan).mpr ?_⟩
  intro t ht key g g₀ hchoice hlookup
  simp only [oneRange,mem_cons,not_mem_nil,or_false] at ht
  rcases ht with rfl | rfl
  all_goals
    cases hchoice
    cases hlookup
    rfl

def nestedRanges : QueryReconstructionResponseV2 ℕ where
  offsetIntoFirstRange := 0
  terms := [⟨7,20,⟨0,2⟩⟩,⟨7,50,⟨0,5⟩⟩]
  xorbs := [(7,[⟨"short",[⟨⟨0,2⟩,⟨0,9⟩⟩]⟩,⟨"long",[⟨⟨0,5⟩,⟨0,29⟩⟩]⟩])]

/-- The second term gets the block of the first, which ends before it. -/
theorem term_outside_of_its_block : ∃ actualRange transfer fileTerms,
      retrieveFileTermBlock false ⟨0,70⟩ (some nestedRanges) =
        .ok (some (actualRange,transfer,fileTerms)) ∧
      fileTerms.map (fun f => (f.xorbChunkRange,f.xorbBlock.chunkRanges)) =
        [(⟨0,2⟩,[⟨0,2⟩]),(⟨0,5⟩,[⟨0,2⟩])] ∧
      ¬∀ f ∈ fileTerms, f.InBlock := by
  obtain ⟨actualRange,transfer,fileTerms,hplan,hview⟩ : ∃ actualRange transfer fileTerms,
      retrieveFileTermBlock false ⟨0,70⟩ (some nestedRanges) =
        .ok (some (actualRange,transfer,fileTerms)) ∧
      fileTerms.map (fun f => (f.xorbChunkRange,f.xorbBlock.chunkRanges)) =
        [(⟨0,2⟩,[⟨0,2⟩]),(⟨0,5⟩,[⟨0,2⟩])] := ⟨_,_,_,rfl,rfl⟩
  refine ⟨actualRange,transfer,fileTerms,hplan,hview,fun hall => ?_⟩
  have hmem : ((⟨0,5⟩,[⟨0,2⟩]) : ChunkRange × List ChunkRange) ∈
      fileTerms.map fun f => (f.xorbChunkRange,f.xorbBlock.chunkRanges) := by
    rw [hview]
    simp
  obtain ⟨f,hf,heq⟩ := mem_map.mp hmem
  obtain ⟨hrange,hblock⟩ := Prod.mk.inj heq
  have hin := (hall f hf).contained
  rw [hrange,hblock] at hin
  simp [rangeContains] at hin

end XetCore.Reconstruction
