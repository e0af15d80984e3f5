import XetCore.ChunkCache.DiskCacheSpec
import XetCore.Lib.Fuel

/-! # A get that runs alone

A get that is not interrupted drops the items without a file until it comes to one that
has a file, or to the end of the items. If all files are as puts have written them, it
returns the chunks exactly if an item with a file contains its range. Behind a put that
waits for itself no get returns.
-/
namespace XetCore.ChunkCache
open Fuel List

variable {K : Type}

section Remove
variable {α : Type} {items : List α} {idx : ℕ}

theorem swapRemove_perm (h : idx < items.length) : (items[idx] :: swapRemove items idx).Perm items := by
  rcases eq_nil_or_concat' items with rfl | ⟨front,last,rfl⟩
  · simp at h
  · have hr : swapRemove (front ++ [last]) idx = ((front ++ [last]).set idx last).dropLast := by
      simp [swapRemove]
    rw [hr]
    by_cases hi : idx < front.length
    · rw [set_append_left _ _ hi,dropLast_concat,getElem_append_left hi]
      calc (front[idx] :: front.set idx last).Perm (front[idx] :: last :: front.eraseIdx idx) :=
            (set_perm_cons_eraseIdx hi last).cons _
        _ |>.Perm (last :: front[idx] :: front.eraseIdx idx) := Perm.swap _ _ _
        _ |>.Perm (last :: front) := (getElem_cons_eraseIdx_perm hi).cons _
        _ |>.Perm (front ++ [last]) := (perm_append_singleton _ _).symm
    · obtain rfl : idx = front.length := by
        simp only [length_append,length_singleton] at h
        omega
      rw [set_append_right _ _ le_rfl,Nat.sub_self,set_cons_zero,dropLast_concat,
        getElem_concat_length rfl]
      exact (perm_append_singleton _ _).symm

end Remove

section Alone
variable [DecidableEq K] (crc32 : Bytes → ℕ)

/-- The result of a get that runs alone, and the cache that it leaves. -/
def getAlone : ℕ → GetCall K → DiskCache K →
    Option (Except ChunkCacheError (Option CacheRange) × DiskCache K)
  | 0, _, _ => none
  | fuel + 1, c, d =>
    match c.phase with
    | .returned result => some (result,d)
    | _ => getAlone fuel (c.step crc32 d).1 (c.step crc32 d).2

def DiskCache.get (d : DiskCache K) (key : K) (range : ChunkRange) (fuel : ℕ) :
    Option (Except ChunkCacheError (Option CacheRange) × DiskCache K) :=
  getAlone crc32 fuel (GetCall.start key range) d

def DiskCache.holds (d : DiskCache K) (key : K) (range : ChunkRange) : Bool :=
  (d.state.inner key).any fun cell =>
    itemContains cell.inner.range range && (d.files key cell.inner).isSome

variable {crc32} {content : K → ℕ → Bytes} {d : DiskCache K} {key : K} {range : ChunkRange}
variable {cell : VerificationCell} {file : Bytes} {d' : DiskCache K}

theorem getAlone_returned (key : K) (range : ChunkRange)
    (result : Except ChunkCacheError (Option CacheRange)) :
    Returns (fun fuel => getAlone crc32 fuel ⟨key,range,.returned result⟩ d) (result,d) :=
  returns_of_eq fun _ => rfl

theorem getAlone_files {fuel : ℕ} {c : GetCall K} {result : Except ChunkCacheError (Option CacheRange)}
    (h : getAlone crc32 fuel c d = some (result,d')) {item : CacheItem}
    (hf : d'.files key item = some file) : d.files key item = some file := by
  induction fuel generalizing c d with
  | zero => simp [getAlone] at h
  | succ fuel ih =>
    rw [getAlone] at h
    split at h
    · cases h
      exact hf
    · exact GetCall.files_of_advance (ih h)

theorem getAlone_of_step {c c' : GetCall K} {a : Except ChunkCacheError (Option CacheRange) × DiskCache K}
    (hp : ∀ result, c.phase ≠ .returned result) (hs : c.step crc32 d = (c',d'))
    (h : Returns (fun fuel => getAlone crc32 fuel c' d') a) :
    Returns (fun fuel => getAlone crc32 fuel c d) a := by
  refine h.step fun fuel => ?_
  rw [getAlone,hs]
  split
  · rename_i hr
    exact absurd hr (hp _)
  · rfl

theorem getAlone_checking (hs : Stored content crc32 key cell.inner file)
    (hin : itemContains cell.inner.range range = true) (hlt : range.start < range.stop) :
    ∃ d', Returns (fun fuel => getAlone crc32 fuel ⟨key,range,.checking cell file⟩ d)
      (.ok (some (rightRange content key range)),d') := by
  have hr : ∀ d₀ : DiskCache K,
    Returns (fun fuel => getAlone crc32 fuel ⟨key,range,.reading cell file⟩ d₀)
      (.ok (some (rightRange content key range)),d₀) := by
    intro d₀
    refine getAlone_of_step (by simp) ?_
      (getAlone_returned key range (.ok (some (rightRange content key range))))
    simp only [GetCall.step,GetCall.advance,hs.deserialize,hs.getRange hin hlt]
    rfl
  cases hv : d.verified cell.verification with
  | true =>
    refine ⟨d,getAlone_of_step (by simp) ?_ (hr d)⟩
    simp [GetCall.step,GetCall.advance,hv]
  | false =>
    have hsu : Returns (fun fuel => getAlone crc32 fuel ⟨key,range,.summing cell file⟩ d)
        (.ok (some (rightRange content key range)),
          { d with verified := Function.update d.verified cell.verification true }) := by
      refine getAlone_of_step (by simp) ?_ (hr _)
      simp [GetCall.step,GetCall.advance,hs.checksum_eq]
    refine ⟨_,getAlone_of_step (by simp) ?_ hsu⟩
    simp [GetCall.step,GetCall.advance,hv,Bool.false_eq_true]

theorem removeItem_missing (range : ChunkRange) (hc : cell ∈ d.state.inner key)
    (hm : d.files key cell.inner = none) : ∃ state, d.state.removeItem key cell = some state ∧
      (state.inner key).length < (d.state.inner key).length ∧
      DiskCache.holds ({ d with state := state }.setFile key cell.inner none) key range =
        d.holds key range := by
  have hne := ne_nil_of_mem hc
  obtain ⟨idx,hid⟩ : ∃ idx, (d.state.inner key).findIdx? (fun c => c.inner = cell.inner) = some idx := by
    refine Option.isSome_iff_exists.mp ?_
    rw [findIdx?_isSome]
    exact any_eq_true.mpr ⟨cell,hc,by simp⟩
  obtain ⟨hlt,hie,-⟩ := findIdx?_eq_some_iff_getElem.mp hid
  have hp := swapRemove_perm hlt
  refine ⟨d.state.removeAt key idx cell.inner,?_,?_,?_⟩
  · rw [CacheState.removeItem,if_neg hne,hid]
    rfl
  · have hlen := hp.length_eq
    simp only [CacheState.removeAt,Function.update_self]
    rw [length_cons] at hlen
    omega
  · have hf : ∀ item, (DiskCache.setFile { d with state := d.state.removeAt key idx cell.inner }
      key cell.inner
        none).files key item = d.files key item := by
      intro item
      by_cases hi : item = cell.inner
      · subst hi
        simp [DiskCache.setFile,hm]
      · simp [DiskCache.setFile,hi]
    have hs := hie
    rw [decide_eq_true_eq] at hs
    unfold DiskCache.holds
    simp only [hf]
    rw [← hp.any_eq,any_cons,hs,hm]
    simp [DiskCache.setFile,CacheState.removeAt]

theorem getAlone_blocked (hb : d.blocked = true) (fuel : ℕ) :
    getAlone crc32 fuel ⟨key,range,.find⟩ d = none := by
  induction fuel with
  | zero => rfl
  | succ fuel ih =>
    have hs : GetCall.step crc32 ⟨key,range,.find⟩ d = (⟨key,range,.find⟩,d) := by
      simp [GetCall.step,GetCall.advance,hb]
    rw [getAlone,hs]
    exact ih

theorem getAlone_find (hb : d.blocked = false)
    (hfl : ∀ item file, d.files key item = some file → Stored content crc32 key item file)
    (hlt : range.start < range.stop) :
    ∃ d', Returns (fun fuel => getAlone crc32 fuel ⟨key,range,.find⟩ d)
      (.ok (if d.holds key range then some (rightRange content key range) else none),d') := by
  generalize hn : (d.state.inner key).length = n
  induction n using Nat.strong_induction_on generalizing d with
  | h n ih =>
    cases hfn : d.state.findMatch key range with
    | none =>
      have hh : d.holds key range = false := by
        refine any_eq_false.mpr fun cell hc => ?_
        have hno := find?_eq_none.mp hfn cell hc
        simp [hno]
      rw [hh]
      refine ⟨d,getAlone_of_step (by simp) ?_ (getAlone_returned key range (.ok none))⟩
      simp [GetCall.step,GetCall.advance,hfn,hb]
    | some cell =>
      have hin := findMatch_contains hfn
      have hc := mem_of_find?_eq_some hfn
      have ho : ∀ {a}, Returns (fun fuel => getAlone crc32 fuel ⟨key,range,.opening cell⟩ d) a →
          Returns (fun fuel => getAlone crc32 fuel ⟨key,range,.find⟩ d) a := by
        intro a ha
        refine getAlone_of_step (by simp) ?_ ha
        simp [GetCall.step,GetCall.advance,hfn,hb]
      cases hfi : d.files key cell.inner with
      | some file =>
        have hh : d.holds key range = true := any_eq_true.mpr ⟨cell,hc,by simp [hin,hfi]⟩
        rw [hh]
        obtain ⟨d',hd'⟩ := getAlone_checking (d := d) (hfl _ _ hfi) hin hlt
        refine ⟨d',ho (getAlone_of_step (by simp) ?_ hd')⟩
        simp [GetCall.step,GetCall.advance,hfi]
      | none =>
        obtain ⟨state,hre,hl,hh⟩ := removeItem_missing range hc hfi
        obtain ⟨d',hd'⟩ := ih _ (hn ▸ hl)
          (d := { d with state := state }.setFile key cell.inner none) hb
          (fun item file hf => hfl item file (files_of_delete hf)) rfl
        rw [hh] at hd'
        have hd := getAlone_of_step (c := ⟨key,range,.deleting cell⟩) (by simp) rfl hd'
        have hr := getAlone_of_step (c := ⟨key,range,.removing cell⟩) (d := d) (by simp)
          (by simp [GetCall.step,GetCall.advance,hre,hb]) hd
        refine ⟨d',ho (getAlone_of_step (by simp) ?_ hr)⟩
        simp [GetCall.step,GetCall.advance,hfi]

/-- A get that runs alone over files that puts have written, while no put is stuck. -/
theorem get_returns (hb : range.start < range.stop → d.blocked = false)
    (hf : ∀ item file, d.files key item = some file → Stored content crc32 key item file) :
    ∃ d', Returns (d.get crc32 key range) (if range.stop ≤ range.start then
      .error .invalidArguments
      else .ok (if d.holds key range then some (rightRange content key range) else none),d') := by
  unfold DiskCache.get GetCall.start
  by_cases hlt : range.stop ≤ range.start
  · rw [if_pos hlt,if_pos hlt]
    exact ⟨d,getAlone_returned key range _⟩
  · rw [if_neg hlt,if_neg hlt]
    exact getAlone_find (hb (Nat.lt_of_not_le hlt)) hf (Nat.lt_of_not_le hlt)

theorem get_blocked (hlt : range.start < range.stop) (hb : d.blocked = true) (fuel : ℕ) :
    d.get crc32 key range fuel = none := by
  rw [DiskCache.get,GetCall.start,if_neg (Nat.not_le_of_lt hlt)]
  exact getAlone_blocked hb fuel

end Alone

end XetCore.ChunkCache
