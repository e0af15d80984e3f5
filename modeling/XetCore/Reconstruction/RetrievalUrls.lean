import XetCore.Lib.Runs
import XetCore.Reconstruction.SharedBlocks

/-! # Refreshing the urls of a plan

The blocks of a plan find their urls by position. A refresh takes over the urls of a new
answer after it has compared the byte range and nothing else. So the urls stay right as
long as each answer has the same blocks in the same order.
-/
namespace XetCore.Reconstruction
open Intervals FirstUse ByteSources Runs List

variable {H : Type} [DecidableEq H]

structure TermBlockRetrievalUrls where
  byteRange : FileRange
  acquisitionId : ℕ
  xorbBlockRetrievalUrls : List (String × List HttpRange)

def TermBlockRetrievalUrls.getRetrievalUrl (u : TermBlockRetrievalUrls) (xorbBlockIndex : ℕ) :
    Option (ℕ × String × List HttpRange) :=
  u.xorbBlockRetrievalUrls[xorbBlockIndex]?.map fun (url,urlRanges) => (u.acquisitionId,url,urlRanges)

/-- A call for a refresh, with what the server would answer and the id of the new urls. -/
structure RefreshCall (H : Type) where
  acquisitionId : ℕ
  answer : Except (ClientError H) (Option (QueryReconstructionResponseV2 H))
  newId : ℕ

def TermBlockRetrievalUrls.takeOver (u : TermBlockRetrievalUrls) (newId : ℕ) (block : TermBlock H) :
    Except (FileReconstructionError H) TermBlockRetrievalUrls :=
  if block.actualRange ≠ u.byteRange then
    .error (.corruptedReconstruction
      "On URL refresh, the returned reconstruction range differs from expected.")
  else if block.fileTerms.isEmpty then
    .error (.corruptedReconstruction "On URL refresh, the returned reconstruction had no terms.")
  else .ok { u with acquisitionId := newId, xorbBlockRetrievalUrls := block.retrievalUrls }

variable (enableMultirange : Bool)

/-- A call with another id than the current one comes late: the urls have been refreshed already. -/
def refreshRetrievalUrls (u : TermBlockRetrievalUrls) (call : RefreshCall H) :
    Except (FileReconstructionError H) TermBlockRetrievalUrls :=
  if u.acquisitionId ≠ call.acquisitionId then .ok u
  else
    match call.answer with
    | .error e => .error (.clientError e)
    | .ok none =>
      .error (.corruptedReconstruction "On URL refresh, the returned reconstruction was None.")
    | .ok (some response) => planTermBlock enableMultirange u.byteRange response >>= u.takeOver call.newId

structure TrackedUrls (H : Type) where
  urls : TermBlockRetrievalUrls
  response : QueryReconstructionResponseV2 H

def takenOver (u : TermBlockRetrievalUrls) (call : RefreshCall H) :
    Option (QueryReconstructionResponseV2 H) :=
  if u.acquisitionId ≠ call.acquisitionId then none
  else
    match call.answer with
    | .ok (some response) =>
      match planTermBlock enableMultirange u.byteRange response >>= u.takeOver call.newId with
      | .ok _ => some response
      | .error _ => none
    | _ => none

def nextUrls (s : TrackedUrls H) (call : RefreshCall H) : TrackedUrls H :=
  { urls := attempt (refreshRetrievalUrls enableMultirange) s.urls call
    response := (takenOver enableMultirange s.urls call).getD s.response }

/-- The blocks of a response, in the order in which the terms use them. -/
def blockStructure (b : Bool) (response : QueryReconstructionResponseV2 H) : List (H × List ChunkRange) :=
  (firstUses (choices b response response.terms)).map fetchShape

/-- The urls are those that the response gives for the block. -/
def UrlOf (b : Bool) (response : QueryReconstructionResponseV2 H) (u : TermBlockRetrievalUrls)
    (block : XorbBlock H) :
    Prop :=
  ∃ fetches g, response.xorbs.lookup block.xorbHash = some fetches ∧ g ∈ groups b fetches ∧
    g.ranges.map (·.chunks) = block.chunkRanges ∧
    u.getRetrievalUrl block.xorbBlockIndex = some (u.acquisitionId,g.url,g.ranges.map (·.bytes))

/-- What a call is to do: the blocks of the plan have their urls if it succeeds, and an answer with
other blocks makes it fail. -/
structure RefreshRight (b : Bool) (plan : TermBlock H) (planned : QueryReconstructionResponseV2 H)
    (s : TrackedUrls H) (call : RefreshCall H) : Prop where
  urls : ∀ u, refreshRetrievalUrls b s.urls call = .ok u →
    ∀ f ∈ plan.fileTerms, UrlOf b (nextUrls b s call).response u f.xorbBlock
  refused : ∀ response, s.urls.acquisitionId = call.acquisitionId → call.answer = .ok (some response) →
    blockStructure b response ≠ blockStructure b planned →
      ∃ e, refreshRetrievalUrls b s.urls call = .error e

/-- An answer to a call with the current id has the blocks of the plan. -/
def SameBlocks (b : Bool) (planned : QueryReconstructionResponseV2 H) (s : TrackedUrls H)
    (call : RefreshCall H) : Prop :=
  ∀ response, s.urls.acquisitionId = call.acquisitionId → call.answer = .ok (some response) →
    blockStructure b response = blockStructure b planned

variable {b : Bool} {planned : QueryReconstructionResponseV2 H} {s : TrackedUrls H} {call : RefreshCall H}
variable {response : QueryReconstructionResponseV2 H} {plan : TermBlock H} {query : FileRange}

theorem refresh_cases (b : Bool) (u : TermBlockRetrievalUrls) (call : RefreshCall H) :
    (u.acquisitionId ≠ call.acquisitionId ∧ refreshRetrievalUrls b u call = .ok u ∧
      takenOver b u call = none) ∨
    (∃ e, refreshRetrievalUrls b u call = .error e ∧ takenOver b u call = none) ∨
    ∃ response block, u.acquisitionId = call.acquisitionId ∧ call.answer = .ok (some response) ∧
      planTermBlock b u.byteRange response = .ok block ∧ takenOver b u call = some response ∧
      refreshRetrievalUrls b u call =
        .ok { u with acquisitionId := call.newId, xorbBlockRetrievalUrls := block.retrievalUrls } := by
  unfold refreshRetrievalUrls takenOver
  by_cases hid : u.acquisitionId = call.acquisitionId
  · rw [if_neg (not_not.mpr hid),if_neg (not_not.mpr hid)]
    cases ha : call.answer with
    | error e => exact .inr (.inl ⟨_,rfl,rfl⟩)
    | ok response =>
      cases response with
      | none => exact .inr (.inl ⟨_,rfl,rfl⟩)
      | some response =>
        cases ht : planTermBlock b u.byteRange response >>= u.takeOver call.newId with
        | error e => exact .inr (.inl ⟨e,by simp [ht],by simp [ht]⟩)
        | ok u' =>
          obtain ⟨block,hp,hu⟩ := bind_eq_ok.mp ht
          refine .inr (.inr ⟨response,block,hid,rfl,hp,by simp [ht],?_⟩)
          simp only [ht]
          unfold TermBlockRetrievalUrls.takeOver at hu
          split at hu
          · cases hu
          · split at hu
            · cases hu
            · exact hu.symm
  · rw [if_pos hid,if_pos hid]
    exact .inl ⟨hid,rfl,rfl⟩

/-- The urls are those of the blocks of the response they come from, which are the blocks of the
plan. -/
structure UrlsOf (b : Bool) (planned : QueryReconstructionResponseV2 H) (s : TrackedUrls H) : Prop where
  urls : s.urls.xorbBlockRetrievalUrls = (firstUses (choices b s.response s.response.terms)).map fetchUrl
  structure_eq : blockStructure b s.response = blockStructure b planned

theorem planTermBlock_urls (h : planTermBlock b query response = .ok plan) :
    plan.retrievalUrls = (firstUses (choices b response response.terms)).map fetchUrl := by
  obtain ⟨s,hp,rfl⟩ := planTermBlock_ok h
  exact hp.follows.urls

theorem UrlsOf.next (hk : SameBlocks b planned s call) (h : UrlsOf b planned s) :
    UrlsOf b planned (nextUrls b s call) := by
  obtain ⟨-,hr,ht⟩ | ⟨e,hr,ht⟩ | ⟨response,block,hid,ha,hp,ht,hr⟩ := refresh_cases b s.urls call
  · rwa [nextUrls,attempt_of_ok hr,ht]
  · rwa [nextUrls,attempt,hr,ht]
  · rw [nextUrls,attempt_of_ok hr,ht]
    exact ⟨planTermBlock_urls hp,hk response hid ha⟩

theorem exists_fetch_of_choice {p : (H × ℕ) × XorbMultiRangeFetch}
    (h : p ∈ choices b response response.terms) :
    ∃ fetches, response.xorbs.lookup p.1.1 = some fetches ∧ p.2 ∈ groups b fetches := by
  obtain ⟨t,-,hc⟩ := mem_filterMap.mp h
  obtain ⟨fetches,hf,hfi⟩ := Option.bind_eq_some_iff.mp hc
  obtain ⟨g,hg,rfl⟩ := Option.map_eq_some_iff.mp hfi
  exact ⟨fetches,hf,mem_of_find?_eq_some hg⟩

theorem UrlsOf.urlOf (h : UrlsOf b planned s) {t : XorbReconstructionTerm H} {f : FileTerm H}
    (hf : TermFor b planned t f) : UrlOf b s.response s.urls f.xorbBlock := by
  obtain ⟨key,g,g₀,-,hge,hs,-⟩ := hf.block
  -- the block at the position of the plan's block has the same xorb and ranges
  have hpl : (blockStructure b planned)[f.xorbBlock.xorbBlockIndex]? = some f.xorbBlock.shape := by
    rw [blockStructure,getElem?_map,hge,hs]
    rfl
  rw [← h.structure_eq,blockStructure,getElem?_map] at hpl
  obtain ⟨p,hp,hps⟩ := Option.map_eq_some_iff.mp hpl
  obtain ⟨hh,hr⟩ := Prod.mk.inj hps
  obtain ⟨fetches,hfe,hg⟩ := exists_fetch_of_choice (mem_of_mem_firstUses (mem_of_getElem? hp))
  refine ⟨fetches,p.2,hh ▸ hfe,hg,hr,?_⟩
  rw [TermBlockRetrievalUrls.getRetrievalUrl,h.urls,getElem?_map,hp]
  rfl

theorem refreshRight (hp : planTermBlock b query planned = .ok plan) (hs : UrlsOf b planned s)
    (hk : SameBlocks b planned s call) : RefreshRight b plan planned s call := by
  refine ⟨fun u hu f hf => ?_,fun response hid ha hne => absurd (hk response hid ha) hne⟩
  obtain ⟨t,hte⟩ : ∃ t, TermFor b planned t f :=
    (forall₂_forall_iff (q := fun f => ∃ t, TermFor b planned t f)
      (fun t f hte => ⟨fun _ => trivial,fun _ => ⟨t,hte⟩⟩)
      (planTermBlock_terms hp)).mpr (fun _ _ => trivial) f hf
  have hu' := attempt_of_ok hu
  exact hu' ▸ (hs.next hk).urlOf hte

def plannedUrls (plan : TermBlock H) (planned : QueryReconstructionResponseV2 H)
    (acquisitionId : ℕ) : TrackedUrls H :=
  ⟨⟨plan.actualRange,acquisitionId,plan.retrievalUrls⟩,planned⟩

/-- Over any run of calls in which the answers have the blocks of the plan, each call does what it
is to do. -/
theorem refreshes_right {query : FileRange} {plan : TermBlock H}
    (hplan : planTermBlock b query planned = .ok plan) (acquisitionId : ℕ)
    {calls : List (RefreshCall H)} (hcalls : Permitted (nextUrls b) (SameBlocks b planned)
      (plannedUrls plan planned acquisitionId) calls) :
    Permitted (nextUrls b) (RefreshRight b plan planned)
      (plannedUrls plan planned acquisitionId) calls := by
  have hstart : UrlsOf b planned (plannedUrls plan planned acquisitionId) :=
    ⟨planTermBlock_urls hplan,rfl⟩
  exact hcalls.imp (UrlsOf b planned) (fun s call hs hk => refreshRight hplan hs hk)
    (fun s call hk hs => hs.next hk) hstart

def twoXorbs (signature : String) : QueryReconstructionResponseV2 ℕ where
  offsetIntoFirstRange := 0
  terms := [⟨1,10,⟨0,1⟩⟩,⟨2,10,⟨4,5⟩⟩]
  xorbs := [(1,[⟨"one" ++ signature,[⟨⟨0,1⟩,⟨0,9⟩⟩]⟩]),
    (2,[⟨"two" ++ signature,[⟨⟨4,5⟩,⟨40,49⟩⟩]⟩])]

def thirdXorb : QueryReconstructionResponseV2 ℕ where
  offsetIntoFirstRange := 0
  terms := [⟨3,20,⟨0,2⟩⟩]
  xorbs := [(3,[⟨"three",[⟨⟨0,2⟩,⟨0,19⟩⟩]⟩])]

/-- The urls are refreshed twice. In between, a late call is not even looked at, and a call fails
without an answer. -/
def refreshCalls : List (RefreshCall ℕ) :=
  [⟨5,.ok (some (twoXorbs "?b")),6⟩,⟨5,.ok (some thirdXorb),7⟩,⟨6,.ok none,8⟩,
    ⟨6,.ok (some (twoXorbs "?c")),9⟩]

theorem refreshes_right_two_xorbs : ∃ plan, planTermBlock false ⟨0,20⟩ (twoXorbs "?a") = .ok plan ∧
      Permitted (nextUrls false) (RefreshRight false plan (twoXorbs "?a"))
        (plannedUrls plan (twoXorbs "?a") 5) refreshCalls ∧
      (run (nextUrls false) (plannedUrls plan (twoXorbs "?a") 5)
        refreshCalls).urls.getRetrievalUrl 1 = some (9,"two?c",[⟨40,49⟩]) := by
  refine ⟨_,rfl,refreshes_right rfl 5 ⟨?_,?_,?_,?_,trivial⟩,rfl⟩
  · rintro response - hanswer
    obtain rfl : twoXorbs "?b" = response := by simpa using hanswer
    rfl
  · rintro response hid
    exact absurd hid (by decide)
  · rintro response - hanswer
    simp at hanswer
  · rintro response - hanswer
    obtain rfl : twoXorbs "?c" = response := by simpa using hanswer
    rfl

/-- The refresh succeeds, and the second block of the plan has no url any more. -/
theorem refresh_takes_over_other_blocks :
    ∃ plan u, planTermBlock false ⟨0,20⟩ (twoXorbs "?a") = .ok plan ∧
      refreshRetrievalUrls false (plannedUrls plan (twoXorbs "?a") 5).urls
        ⟨5,.ok (some thirdXorb),6⟩ = .ok u ∧
      plan.fileTerms.map (fun f => u.getRetrievalUrl f.xorbBlock.xorbBlockIndex) =
        [some (6,"three",[⟨0,19⟩]),none] ∧
      ¬RefreshRight false plan (twoXorbs "?a")
        (plannedUrls plan (twoXorbs "?a") 5) ⟨5,.ok (some thirdXorb),6⟩ := by
  obtain ⟨plan,u,hplan,hrefresh,hurls⟩ : ∃ plan u, planTermBlock false ⟨0,20⟩ (twoXorbs "?a") = .ok plan ∧
      refreshRetrievalUrls false (plannedUrls plan (twoXorbs "?a") 5).urls
        ⟨5,.ok (some thirdXorb),6⟩ = .ok u ∧
      plan.fileTerms.map (fun f => u.getRetrievalUrl f.xorbBlock.xorbBlockIndex) =
        [some (6,"three",[⟨0,19⟩]),none] := ⟨_,_,rfl,rfl,rfl⟩
  refine ⟨plan,u,hplan,hrefresh,hurls,fun hright => ?_⟩
  obtain ⟨e,herror⟩ := hright.refused thirdXorb rfl rfl (by decide)
  exact absurd (herror.symm.trans hrefresh) nofun

end XetCore.Reconstruction
