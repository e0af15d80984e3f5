import Mathlib.Tactic

/-! # Filling memory piece by piece

Memory is a set of cells that can be read. A step works towards a target if it gives some
cells their contents there and leaves right cells right. Such steps compose in any order.
-/
namespace XetCore.Scatter
open List
variable {σ ι α β κ : Type*}

section Fills
variable (get : σ → ι → Option α)

def SameCells (s t : σ) : Prop := ∀ x, get s x = none ↔ get t x = none

/-- The step gives the cells in `A` their contents in `t`, and keeps what is right already. -/
def Fills (t : σ) (step : σ → Option σ) (A : Set ι) : Prop :=
  ∀ s, SameCells get s t → ∃ s', step s = some s' ∧ SameCells get s' t ∧
    ∀ x, x ∈ A ∨ get s x = get t x → get s' x = get t x

variable {get} {t : σ} {a b : σ → Option σ} {A B : Set ι}

theorem fills_some : Fills get t some ∅ :=
  fun s hs => ⟨s,rfl,hs,fun x hx => hx.resolve_left (Set.notMem_empty x)⟩

theorem Fills.mono (h : Fills get t a A) (hBA : B ⊆ A) : Fills get t a B := by
  intro s hs
  obtain ⟨s',hru,hc,hr⟩ := h s hs
  exact ⟨s',hru,hc,fun x hx => hr x (hx.imp_left (@hBA x))⟩

theorem Fills.bind (ha : Fills get t a A) (hb : Fills get t b B) :
    Fills get t (fun s => (a s).bind b) (A ∪ B) := by
  intro s hs
  obtain ⟨s₁,h₁,hs₁,hA⟩ := ha s hs
  obtain ⟨s₂,h₂,hs₂,hB⟩ := hb s₁ hs₁
  refine ⟨s₂,Option.bind_eq_some_iff.mpr ⟨s₁,h₁,h₂⟩,hs₂,?_⟩
  rintro x ((hx | hx) | hx)
  · exact hB x (.inr (hA x (.inl hx)))
  · exact hB x (.inl hx)
  · exact hB x (.inr (hA x (.inr hx)))

theorem fills_foldlM {step : σ → β → Option σ} {A : β → Set ι} {l : List β}
    (h : ∀ b ∈ l, Fills get t (step · b) (A b)) :
    Fills get t (l.foldlM step ·) {x | ∃ b ∈ l, x ∈ A b} := by
  induction l with
  | nil => exact fills_some.mono fun x ⟨b,hb,_⟩ => absurd hb not_mem_nil
  | cons b l ih =>
    obtain ⟨hb,hl⟩ := forall_mem_cons.mp h
    refine (hb.bind (ih hl)).mono fun x ⟨c,hc,hx⟩ => ?_
    rcases mem_cons.mp hc with rfl | hc
    · exact .inl hx
    · exact .inr ⟨c,hc,hx⟩

theorem Fills.reaches (h : Fills get t a A) (he : ∀ s, (∀ x, get s x = get t x) → s = t)
    (ha : ∀ x, get t x ≠ none → x ∈ A) {s : σ} (hs : SameCells get s t) : a s = some t := by
  obtain ⟨s',hru,hc,hr⟩ := h s hs
  rw [hru,he s' fun x => ?_]
  by_cases hx : get t x = none
  · rw [hx,(hc x).mpr hx]
  · exact hr x (.inl (ha x hx))

end Fills

section Buffers

abbrev cell (buf : List α) (i : ℕ) : Option α := buf[i]?

abbrev cellOf (bufs : κ → List α) (x : κ × ℕ) : Option α := (bufs x.1)[x.2]?

def write (buf : List α) (i : ℕ) (a : α) : Option (List α) :=
  if i < buf.length then some (buf.set i a) else none

def writeTo [DecidableEq κ] (bufs : κ → List α) (k : κ) (i : ℕ) (a : α) : Option (κ → List α) :=
  (write (bufs k) i a).map (Function.update bufs k)

def writeSlice (buf : List α) (start : ℕ) (values : List α) : Option (List α) :=
  if start + values.length ≤ buf.length then some
    (buf.take start ++ values ++ buf.drop (start + values.length))
  else none

variable {s t : List α} {r : Option α}

theorem sameCells_iff : SameCells cell s t ↔ s.length = t.length := by
  simp only [SameCells,getElem?_eq_none_iff]
  constructor
  · intro h
    exact le_antisymm ((h t.length).mpr le_rfl) ((h s.length).mp le_rfl)
  · intro h i
    rw [h]

theorem fills_write {p : ℕ} (hp : p < t.length) (hr : r = t[p]?) :
    Fills cell t (fun s => r.bind (write s p)) {p} := by
  intro s hs
  have hlen := sameCells_iff.mp hs
  refine ⟨s.set p t[p],?_,sameCells_iff.mpr (by rw [length_set,hlen]),?_⟩
  · exact Option.bind_eq_some_iff.mpr ⟨t[p],by rw [hr,getElem?_eq_getElem hp],if_pos (by omega)⟩
  · intro x hx
    by_cases heq : p = x
    · subst heq
      rw [cell,getElem?_set_self (by omega),cell,getElem?_eq_getElem hp]
    · rw [cell,getElem?_set_ne heq]
      exact hx.resolve_left (Ne.symm heq)

theorem fills_writeTo [DecidableEq κ] {t : κ → List α} {k : κ} {i : ℕ} (hi : i < (t k).length)
    (hr : r = (t k)[i]?) : Fills cellOf t (fun s => r.bind (writeTo s k i)) {(k,i)} := by
  intro s hs
  obtain ⟨buf,hb,hc,hri⟩ := fills_write hi hr (s k) fun j => hs (k,j)
  refine ⟨Function.update s k buf,?_,?_,?_⟩
  · obtain ⟨a,ha,hp⟩ := Option.bind_eq_some_iff.mp hb
    exact Option.bind_eq_some_iff.mpr ⟨a,ha,by rw [writeTo,hp,Option.map_some]⟩
  · rintro ⟨l,j⟩
    by_cases hl : l = k
    · subst hl
      rw [cellOf,Function.update_self]
      exact hc j
    · rw [cellOf,Function.update_of_ne hl]
      exact hs (l,j)
  · rintro ⟨l,j⟩ hx
    by_cases hl : l = k
    · subst hl
      rw [cellOf,Function.update_self]
      exact hri j (hx.imp_left fun heq => Set.mem_singleton_iff.mpr (congrArg Prod.snd heq))
    · rw [cellOf,Function.update_of_ne hl]
      exact hx.resolve_left fun heq => hl (congrArg Prod.fst heq)

theorem fills_writeSlice {start n : ℕ} (hr : start + n ≤ t.length) :
    Fills cell t (writeSlice · start ((t.drop start).take n)) {p | start ≤ p ∧ p < start + n} := by
  intro s hs
  have hlen := sameCells_iff.mp hs
  have hn : ((t.drop start).take n).length = n := by
    rw [length_take,length_drop]
    omega
  refine ⟨_,if_pos (by omega),sameCells_iff.mpr ?_,?_⟩
  · simp only [length_append,length_take,length_drop]
    omega
  · intro x hx
    simp only [getElem?_append,length_append,hn,length_take,getElem?_take,getElem?_drop] at hx ⊢
    rw [Nat.min_eq_left (by omega)]
    split_ifs with h1 h2 h3
    · exact hx.resolve_left fun h => absurd h.1 (by omega)
    · rw [show start + (x - start) = x by omega]
    · omega
    · rw [show start + n + (x - (start + n)) = x by omega]
      exact hx.resolve_left fun h => absurd h.2 (by omega)

end Buffers
end XetCore.Scatter
