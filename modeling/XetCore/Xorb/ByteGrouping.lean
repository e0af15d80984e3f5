import XetCore.Lib.Scatter
import XetCore.Xorb.CompressionScheme

/-! # Grouping bytes by their position modulo four

The functions move single bytes between buffers, four at a time and with the rest at the
end. Some of them write four or eight bytes at once. A place outside of its buffer makes
them fail, which never happens.
-/
namespace XetCore.Xorb
open Scatter List

variable {i : ℕ} {k : Fin 4}

abbrev Groups := Fin 4 → Bytes

section Loops
variable {σ : Type} (copy : σ → Fin 4 → ℕ → Option σ)

def copyRow (s : σ) (i : ℕ) : Option σ := do
  let s ← copy s 0 i
  let s ← copy s 1 i
  let s ← copy s 2 i
  copy s 3 i

def copyTail (split rem : ℕ) (s : σ) : Option σ :=
  match rem with
  | 1 => copy s 0 split
  | 2 => do
    let s ← copy s 0 split
    copy s 1 split
  | 3 => do
    let s ← copy s 0 split
    let s ← copy s 1 split
    copy s 2 split
  | _ => some s

def copyGroups (n : ℕ) (s : σ) : Option σ := do
  let s ← (List.range (n / 4)).foldlM (copyRow copy) s
  copyTail copy (n / 4) (n % 4) s

end Loops

def groupSize (n : ℕ) : Fin 4 → ℕ
  | 0 => n / 4 + min 1 (n % 4)
  | 1 => n / 4 + min 1 (n % 4 - 1)
  | 2 => n / 4 + min 1 (n % 4 - 2)
  | 3 => n / 4

def groupPtr (n : ℕ) : Fin 4 → ℕ
  | 0 => 0
  | 1 => groupSize n 0
  | 2 => groupSize n 0 + groupSize n 1
  | 3 => groupSize n 0 + groupSize n 1 + groupSize n 2

def zeroed (n : ℕ) : Bytes := List.replicate n 0

def bg4SplitSeparate (data : Bytes) : Option Groups :=
  copyGroups (fun d k i => do
    let b ← data[4 * i + k]?
    writeTo d k i b) data.length fun k => zeroed (groupSize data.length k)

def bg4SplitTogether (data : Bytes) : Option Bytes :=
  copyGroups (fun d k i => do
    let b ← data[4 * i + k]?
    write d (groupPtr data.length k + i) b) data.length (zeroed data.length)

def bg4RegroupSeparate (groups : Groups) : Option Bytes :=
  let n := (groups 0).length + (groups 1).length + (groups 2).length + (groups 3).length
  copyGroups (fun d k i => do
    let b ← (groups k)[i]?
    write d (4 * i + k) b) n (zeroed n)

def regroupByte (g d : Bytes) (k : Fin 4) (i : ℕ) : Option Bytes := do
  let b ← g[groupPtr g.length k + i]?
  write d (4 * i + k) b

variable (g : Bytes)

def bg4RegroupTogether : Option Bytes :=
  copyGroups (regroupByte g) g.length (zeroed g.length)

def fourBytes (i : ℕ) : Option Bytes := do
  let b₀ ← g[groupPtr g.length 0 + i]?
  let b₁ ← g[groupPtr g.length 1 + i]?
  let b₂ ← g[groupPtr g.length 2 + i]?
  let b₃ ← g[groupPtr g.length 3 + i]?
  return [b₀,b₁,b₂,b₃]

def bg4RegroupTogetherCombinedWrite4 : Option Bytes := do
  let split := g.length / 4
  let d ← (List.range split).foldlM (fun d i => do
    let fourbytes ← fourBytes g i
    writeSlice d (4 * i) fourbytes) (zeroed g.length)
  copyTail (regroupByte g) split (g.length % 4) d

def bg4RegroupTogetherCombinedWrite8 : Option Bytes := do
  let split := g.length / 4
  let d ← (List.range (split / 2)).foldlM (fun d i => do
    let first ← fourBytes g (i * 2)
    let second ← fourBytes g (i * 2 + 1)
    writeSlice d (8 * i) (first ++ second)) (zeroed g.length)
  let d ← if split % 2 ≠ 0 then do
      let fourbytes ← fourBytes g (split - 1)
      writeSlice d (4 * (split - 1)) fourbytes
    else some d
  copyTail (regroupByte g) split (g.length % 4) d

section Places
variable {n : ℕ}

theorem groupSize_eq (n : ℕ) (k : Fin 4) : groupSize n k = groupLen n k := by
  fin_cases k <;> simp only [groupSize,groupLen] <;> omega

theorem groupPtr_eq (n : ℕ) (k : Fin 4) : groupPtr n k = groupStart n k := by
  fin_cases k <;> simp [groupPtr,groupStart,groupSize_eq,range_succ,Nat.add_assoc]

theorem lt_groupSize_iff : i < groupSize n k ↔ i < n / 4 ∨ i = n / 4 ∧ k.val < n % 4 := by
  rw [groupSize_eq,groupLen]
  omega

theorem groupPtr_add_lt (h : i < groupSize n k) : groupPtr n k + i < n ∧ 4 * i + k < n := by
  fin_cases k <;> simp only [groupPtr,groupSize] at h ⊢ <;> omega

theorem exists_groupPtr_add {p : ℕ} (hp : p < n) : ∃ k i, i < groupSize n k ∧ p = groupPtr n k + i := by
  have hs : groupSize n 0 + groupSize n 1 + groupSize n 2 + groupSize n 3 = n := by
    simp only [groupSize]
    omega
  by_cases h0 : p < groupSize n 0
  · exact ⟨0,p,h0,(Nat.zero_add p).symm⟩
  by_cases h1 : p < groupSize n 0 + groupSize n 1
  · exact ⟨1,p - groupSize n 0,by omega,by simp only [groupPtr]; omega⟩
  by_cases h2 : p < groupSize n 0 + groupSize n 1 + groupSize n 2
  · exact ⟨2,p - (groupSize n 0 + groupSize n 1),by omega,by simp only [groupPtr]; omega⟩
  · exact ⟨3,p - (groupSize n 0 + groupSize n 1 + groupSize n 2),by omega,by simp only [groupPtr]; omega⟩

theorem exists_row_add {p : ℕ} (hp : p < n) :
    ∃ (k : Fin 4) (i : ℕ), i < groupSize n k ∧ p = 4 * i + k := by
  refine ⟨⟨p % 4,Nat.mod_lt p (by decide)⟩,p / 4,?_,(Nat.div_add_mod p 4).symm⟩
  rw [lt_groupSize_iff]
  dsimp only
  omega

end Places

section Copies
variable {σ ι : Type} {get : σ → ι → Option UInt8} {t : σ} {copy : σ → Fin 4 → ℕ → Option σ}
  {p : Fin 4 → ℕ → ι}
  {n : ℕ}

theorem fills_copyTail {split rem : ℕ} (hr : rem < 4)
    (h : ∀ k : Fin 4, k.val < rem → Fills get t (copy · k split) {p k split}) :
    Fills get t (copyTail copy split rem) {x | ∃ k : Fin 4, k.val < rem ∧ x = p k split} := by
  match rem, hr with
  | 0, _ => exact fills_some.mono fun x ⟨k,hk,_⟩ => absurd hk (Nat.not_lt_zero _)
  | 1, _ =>
    refine (h 0 (by decide)).mono ?_
    rintro x ⟨k,hk,rfl⟩
    fin_cases k <;> simp_all
  | 2, _ =>
    refine ((h 0 (by decide)).bind (h 1 (by decide))).mono ?_
    rintro x ⟨k,hk,rfl⟩
    fin_cases k <;> simp_all
  | 3, _ =>
    refine ((h 0 (by decide)).bind ((h 1 (by decide)).bind (h 2 (by decide)))).mono ?_
    rintro x ⟨k,hk,rfl⟩
    fin_cases k <;> simp_all

theorem fills_copyGroups (h : ∀ k i, i < groupSize n k → Fills get t (copy · k i) {p k i}) :
    Fills get t (copyGroups copy n) {x | ∃ k i, i < groupSize n k ∧ x = p k i} := by
  have hr := fills_foldlM fun i hi => by
    have h k := h k i (lt_groupSize_iff.mpr (.inl (mem_range.mp hi)))
    refine ((h 0).bind ((h 1).bind ((h 2).bind (h 3)))).mono (show {x | ∃ k, x = p k i} ⊆ _ from ?_)
    rintro x ⟨k,rfl⟩
    fin_cases k <;> simp
  have ht := fills_copyTail (Nat.mod_lt n (by decide)) fun k hk =>
    h k (n / 4) (lt_groupSize_iff.mpr (.inr ⟨rfl,hk⟩))
  refine (hr.bind ht).mono ?_
  rintro x ⟨k,i,hi,rfl⟩
  rcases lt_groupSize_iff.mp hi with hlt | ⟨rfl,hk⟩
  · exact .inl ⟨i,mem_range.mpr hlt,k,rfl⟩
  · exact .inr ⟨k,hk,rfl⟩

theorem fills_buffer {t : Bytes} {step : Bytes → Option Bytes} {A : Set ℕ} (h : Fills cell t step A)
    (hn : t.length = n) (ha : ∀ p < n, p ∈ A) : step (zeroed n) = some t := by
  refine h.reaches (fun s hs => ext_getElem? hs) (fun p hp => ha p ?_) (sameCells_iff.mpr ?_)
  · rw [ne_eq,getElem?_eq_none_iff] at hp
    omega
  · rw [zeroed,length_replicate,hn]

end Copies

section Split
variable (data : Bytes)

theorem getElem?_bg4Group (h : i < groupSize data.length k) :
    (bg4Group data k)[i]? = data[4 * i + k]? := by
  have hlt := (groupPtr_add_lt h).2
  rw [groupSize_eq] at h
  rw [bg4Group,getElem?_map,getElem?_range h,Option.map_some,getD_eq_getElem?_getD,
    getElem?_eq_getElem hlt]
  rfl

theorem getElem?_bg4Split (h : i < groupSize data.length k) :
    (bg4Split data)[groupPtr data.length k + i]? = data[4 * i + k]? := by
  have hp := getElem?_flatMap_range (bg4Group data) k.isLt
    (show i < (bg4Group data k).length by rwa [bg4Group_length,← groupSize_eq])
  simp only [bg4Group_length] at hp
  rw [groupPtr_eq,groupStart,← getElem?_bg4Group data h,← hp,bg4Split]

theorem bg4SplitSeparate_eq : bg4SplitSeparate data = some fun k : Fin 4 => bg4Group data k := by
  have hsi : ∀ k : Fin 4, (bg4Group data k).length = groupSize data.length k :=
    fun k => by rw [bg4Group_length,groupSize_eq]
  refine (fills_copyGroups (p := Prod.mk) fun k i hi => fills_writeTo (by rwa [hsi])
    (getElem?_bg4Group data hi).symm).reaches ?_ ?_ ?_
  · exact fun s hs => funext fun k => ext_getElem? fun i => hs (k,i)
  · rintro ⟨k,i⟩ hx
    rw [ne_eq,getElem?_eq_none_iff,hsi,Nat.not_le] at hx
    exact ⟨k,i,hx,rfl⟩
  · rintro ⟨k,i⟩
    simp [zeroed,hsi]

theorem bg4SplitTogether_eq : bg4SplitTogether data = some (bg4Split data) := by
  have hlen := bg4Split_length data
  exact fills_buffer (fills_copyGroups fun _ _ hi =>
    fills_write (by rw [hlen]; exact (groupPtr_add_lt hi).1) (getElem?_bg4Split data hi).symm) hlen
    fun _ hp => exists_groupPtr_add hp

end Split

def cutGroups : Groups := fun k => (g.drop (groupPtr g.length k)).take (groupSize g.length k)

theorem length_cutGroups (k : Fin 4) : (cutGroups g k).length = groupSize g.length k := by
  rw [cutGroups,length_take,length_drop]
  fin_cases k <;> simp only [groupPtr,groupSize] <;> omega

theorem length_bg4Regroup : (bg4Regroup g).length = g.length := by
  rw [bg4Regroup,length_map,length_range]

section
variable (h : i < groupSize g.length k)
include h

theorem getElem?_bg4Regroup : (bg4Regroup g)[4 * i + k]? = g[groupPtr g.length k + i]? := by
  obtain ⟨hp,hr⟩ := groupPtr_add_lt h
  rw [bg4Regroup,getElem?_map,getElem?_range hr,Option.map_some,show (4 * i + k) % 4 = k by omega,
    show (4 * i + k) / 4 = i by omega,← groupPtr_eq,getD_eq_getElem?_getD,getElem?_eq_getElem hp]
  rfl

theorem lt_length_bg4Regroup : 4 * i + k < (bg4Regroup g).length := by
  rw [length_bg4Regroup]
  exact (groupPtr_add_lt h).2

theorem fills_regroupByte : Fills cell (bg4Regroup g) (regroupByte g · k i) {4 * i + k.val} :=
  fills_write (lt_length_bg4Regroup g h) (getElem?_bg4Regroup g h).symm

end

theorem bg4RegroupTogether_eq : bg4RegroupTogether g = some (bg4Regroup g) :=
  fills_buffer (fills_copyGroups fun _ _ hi => fills_regroupByte g hi)
    (length_bg4Regroup g) fun _ hp => exists_row_add hp

theorem bg4RegroupSeparate_eq : bg4RegroupSeparate (cutGroups g) = some (bg4Regroup g) := by
  have hs : (cutGroups g 0).length + (cutGroups g 1).length + (cutGroups g 2).length +
    (cutGroups g 3).length =
      g.length := by
    simp only [length_cutGroups,groupSize]
    omega
  rw [bg4RegroupSeparate,hs]
  refine fills_buffer (fills_copyGroups fun k i hi =>
    fills_write (lt_length_bg4Regroup g hi) ?_) (length_bg4Regroup g) fun _ hp => exists_row_add hp
  rw [cutGroups,getElem?_take_of_lt hi,getElem?_drop,getElem?_bg4Regroup g hi]

theorem bg4Split_bg4Regroup : bg4Split (bg4Regroup g) = g := by
  refine ext_getElem? fun p => ?_
  by_cases hp : p < g.length
  · obtain ⟨k,i,hi,rfl⟩ := exists_groupPtr_add hp
    have hg := getElem?_bg4Split (bg4Regroup g) (by rwa [length_bg4Regroup])
    rw [length_bg4Regroup] at hg
    rw [hg,getElem?_bg4Regroup g hi]
  · rw [getElem?_eq_none (by rw [bg4Split_length,length_bg4Regroup]; omega),getElem?_eq_none (by omega)]

/-- The four bytes from index `i` of the groups stand in a row. -/
theorem fourBytes_eq (hi : i < g.length / 4) :
    fourBytes g i = some (((bg4Regroup g).drop (4 * i)).take 4) := by
  have hlen := length_bg4Regroup g
  have hb : ∀ k : Fin 4, ∀ h : 4 * i + k.val < (bg4Regroup g).length,
      g[groupPtr g.length k + i]? = some (bg4Regroup g)[4 * i + k.val] := by
    intro k h
    rw [← getElem?_bg4Regroup g (lt_groupSize_iff.mpr (.inl hi)),getElem?_eq_getElem h]
  rw [fourBytes,hb 0 (by simp; omega),hb 1 (by simp; omega),hb 2 (by simp; omega),
    hb 3 (by simp; omega),drop_eq_getElem_cons (by omega),drop_eq_getElem_cons (by omega),
    drop_eq_getElem_cons (by omega),drop_eq_getElem_cons (by omega)]
  rfl

theorem fills_row (hi : i < g.length / 4) : Fills cell (bg4Regroup g) (fun d => (fourBytes g i).bind
    (writeSlice d (4 * i))) {p | 4 * i ≤ p ∧ p < 4 * i + 4} := by
  rw [fourBytes_eq g hi]
  refine fills_writeSlice ?_
  rw [length_bg4Regroup]
  omega

theorem fills_twoRows (hi : i * 2 + 1 < g.length / 4) :
    Fills cell (bg4Regroup g) (fun d => (fourBytes g (i * 2)).bind
    fun first => (fourBytes g (i * 2 + 1)).bind fun second => writeSlice d (8 * i) (first ++ second))
    {p | 8 * i ≤ p ∧ p < 8 * i + 8} := by
  have ha : ((bg4Regroup g).drop (4 * (i * 2))).take 4 ++ ((bg4Regroup g).drop (4 * (i * 2 + 1))).take 4 =
      ((bg4Regroup g).drop (8 * i)).take 8 := by
    rw [show 4 * (i * 2 + 1) = 8 * i + 4 by omega,show 4 * (i * 2) = 8 * i by omega,
      ← drop_drop,← take_add]
  rw [fourBytes_eq g (show i * 2 < g.length / 4 by omega),fourBytes_eq g hi]
  simp only [Option.bind_some,ha]
  refine fills_writeSlice ?_
  rw [length_bg4Regroup]
  omega

theorem fills_tail : Fills cell (bg4Regroup g) (copyTail (regroupByte g) (g.length / 4) (g.length % 4))
    {p | 4 * (g.length / 4) ≤ p ∧ p < g.length} := by
  have hlt := Nat.mod_lt g.length (show 0 < 4 by decide)
  refine (fills_copyTail (p := fun k i => 4 * i + k) hlt fun k hk =>
    fills_regroupByte g (lt_groupSize_iff.mpr (.inr ⟨rfl,hk⟩))).mono ?_
  rintro p ⟨hle,hp⟩
  exact ⟨⟨p % 4,Nat.mod_lt p (by decide)⟩,by dsimp only; omega,by dsimp only; omega⟩

theorem bg4RegroupTogetherCombinedWrite4_eq :
    bg4RegroupTogetherCombinedWrite4 g = some (bg4Regroup g) := by
  refine fills_buffer ((fills_foldlM fun i hi => fills_row g (mem_range.mp hi)).bind (fills_tail g))
    (length_bg4Regroup g) fun p hp => ?_
  by_cases hlt : p < 4 * (g.length / 4)
  · exact .inl ⟨p / 4,mem_range.mpr (by omega),by omega,by omega⟩
  · exact .inr ⟨by omega,hp⟩

/-- The row that the pairs leave over, and the bytes behind it. -/
theorem fills_rest : Fills cell (bg4Regroup g) (fun d => if g.length / 4 % 2 ≠ 0 then
      (fourBytes g (g.length / 4 - 1)).bind fun row => (writeSlice d (4 * (g.length / 4 - 1)) row).bind
        (copyTail (regroupByte g) (g.length / 4) (g.length % 4))
      else copyTail (regroupByte g) (g.length / 4) (g.length % 4) d)
    {p | 8 * (g.length / 4 / 2) ≤ p ∧ p < g.length} := by
  by_cases ho : g.length / 4 % 2 = 0
  · simp only [ho]
    exact (fills_tail g).mono fun p ⟨hle,hp⟩ => ⟨by omega,hp⟩
  · have hr := fills_row g (show g.length / 4 - 1 < g.length / 4 by omega)
    simp only [ho,ne_eq,not_false_eq_true]
    rw [fourBytes_eq g (by omega)] at hr ⊢
    refine (hr.bind (fills_tail g)).mono fun p ⟨hle,hp⟩ => ?_
    by_cases hlt : p < 4 * (g.length / 4)
    · exact .inl ⟨by omega,by omega⟩
    · exact .inr ⟨by omega,hp⟩

theorem bg4RegroupTogetherCombinedWrite8_eq :
    bg4RegroupTogetherCombinedWrite8 g = some (bg4Regroup g) := by
  have hpa : ∀ i ∈ List.range (g.length / 4 / 2), i * 2 + 1 < g.length / 4 := by
    intro i hi
    rw [mem_range] at hi
    omega
  refine fills_buffer ((fills_foldlM fun i hi => fills_twoRows g (hpa i hi)).bind (fills_rest g))
    (length_bg4Regroup g) fun p hp => ?_
  by_cases hpr : p < 8 * (g.length / 4 / 2)
  · exact .inl ⟨p / 8,mem_range.mpr (by omega),by omega,by omega⟩
  · exact .inr ⟨by omega,hp⟩

/-- Splitting and regrouping undo each other, in all the ways in which they are written. -/
theorem bg4_split_regroup (data g : Bytes) : (bg4SplitTogether data).bind bg4RegroupTogether = some data ∧
      bg4SplitTogether data = (bg4SplitSeparate data).map (fun d => d 0 ++ d 1 ++ d 2 ++ d 3) ∧
      ∃ out, bg4RegroupTogether g = some out ∧ bg4RegroupTogetherCombinedWrite4 g = some out ∧
        bg4RegroupTogetherCombinedWrite8 g = some out ∧ bg4RegroupSeparate (cutGroups g) = some out ∧
        bg4SplitTogether out = some g := by
  refine ⟨?_,?_,bg4Regroup g,bg4RegroupTogether_eq g,bg4RegroupTogetherCombinedWrite4_eq g,
    bg4RegroupTogetherCombinedWrite8_eq g,bg4RegroupSeparate_eq g,?_⟩
  · rw [bg4SplitTogether_eq,Option.bind_some,bg4RegroupTogether_eq,bg4Regroup_bg4Split]
  · rw [bg4SplitTogether_eq,bg4SplitSeparate_eq,Option.map_some,bg4Split]
    simp [range_succ]
  · rw [bg4SplitTogether_eq,bg4Split_bg4Regroup]

end XetCore.Xorb
