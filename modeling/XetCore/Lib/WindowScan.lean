import Mathlib.Tactic

/-! # Windows around hot items

A scan over a list opens a window at a hot item and closes it behind two calm items
in a row that are not hot. What lies between the windows are the gaps. The result is
a partition of the list whose gaps hold no hot item.
-/
namespace XetCore.WindowScan
open List
variable {α : Type*} (hot calm : α → Bool)

/-- The closed gaps and windows, the gap behind them, and the open window, with its last item when
that is not hot. -/
structure Split (α : Type*) where
  closed : List (List α × List α) := []
  gap : List α := []
  window : Option (List α × Option α) := none

def step (s : Split α) (x : α) : Split α :=
  match s.window with
  | none => if hot x then { s with window := some ([x],none) } else { s with gap := s.gap ++ [x] }
  | some (w,prev) =>
    if hot x then { s with window := some (w ++ [x],none) }
    else if prev.any calm && calm x then { closed := s.closed ++ [(s.gap,w ++ [x])] }
    else { s with window := some (w ++ [x],some x) }

def scan (xs : List α) : Split α := xs.foldl (step hot calm) {}

namespace Split

def pairs (s : Split α) : List (List α × List α) := s.closed ++ s.window.toList.map fun p => (s.gap,p.1)

def tail (s : Split α) : List α := if s.window.isSome then [] else s.gap

end Split

def joined (ps : List (List α × List α)) : List α := ps.flatMap fun p => p.1 ++ p.2

@[simp] theorem joined_nil : joined ([] : List (List α × List α)) = [] := rfl
@[simp] theorem joined_cons (p : List α × List α) (ps : List (List α × List α)) :
    joined (p :: ps) = p.1 ++ p.2 ++ joined ps := rfl
@[simp] theorem joined_append (ps qs : List (List α × List α)) :
    joined (ps ++ qs) = joined ps ++ joined qs := by
  simp [joined]

def Cold (xs : List α) : Prop := ∀ x ∈ xs, hot x = false

def Opens (w : List α) : Prop := ∃ x rest, w = x :: rest ∧ hot x = true

structure Closes (w : List α) : Prop where
  ends : ∃ body x y, w = body ++ [x,y] ∧ Cold hot [x,y] ∧ calm x = true ∧ calm y = true

/-- A partition into gaps and windows. A window that does not close reaches the end of the list. -/
structure IsSplit (xs : List α) (ps : List (List α × List α)) (tail : List α) : Prop where
  joined_eq : joined ps ++ tail = xs
  gap_cold : ∀ p ∈ ps, Cold hot p.1
  tail_cold : Cold hot tail
  opens : ∀ p ∈ ps, Opens hot p.2
  closes : ∀ front p back, ps = front ++ p :: back → Closes hot calm p.2 ∨ (back = [] ∧ tail = [])

structure ScanInv (xs : List α) (s : Split α) : Prop where
  joined_eq : joined s.pairs ++ s.tail = xs
  gap_cold : ∀ p ∈ s.closed, Cold hot p.1
  cold : Cold hot s.gap
  opens : ∀ p ∈ s.pairs, Opens hot p.2
  closes : ∀ p ∈ s.closed, Closes hot calm p.2
  prev : ∀ w x, s.window = some (w,some x) → hot x = false ∧ ∃ body, w = body ++ [x]

variable {hot calm} {xs : List α} {s : Split α} {w : List α}

theorem scanInv_nil : ScanInv hot calm [] ({} : Split α) :=
  ⟨rfl,by simp,by simp [Cold],by simp [Split.pairs],by simp,by simp⟩

theorem Opens.append (h : Opens hot w) (ys : List α) : Opens hot (w ++ ys) := by
  obtain ⟨x,rest,rfl,hx⟩ := h
  exact ⟨x,rest ++ ys,rfl,hx⟩

theorem forall_mem_concat {β : Type*} {P : β → Prop} {bs : List β} {b : β} (hbs : ∀ c ∈ bs, P c)
    (hb : P b) :
    ∀ c ∈ bs ++ [b], P c := forall_mem_append.mpr ⟨hbs,forall_mem_singleton.mpr hb⟩

theorem ScanInv.step (h : ScanInv hot calm xs s) (x : α) :
    ScanInv hot calm (xs ++ [x]) (step hot calm s x) := by
  obtain ⟨closed,gap,window⟩ := s
  obtain ⟨hj,hg,hco,ho,hc,hpr⟩ := h
  rw [← hj,WindowScan.step]
  cases window with
  | none =>
    simp only [Split.pairs,Option.toList_none,map_nil,append_nil] at ho
    cases hx : hot x with
    | true =>
      exact ⟨by simp [Split.pairs,Split.tail],hg,hco,forall_mem_concat ho ⟨x,[],rfl,hx⟩,hc,by simp⟩
    | false =>
      exact ⟨by simp [Split.pairs,Split.tail],hg,
        forall_mem_concat hco hx,by simpa [Split.pairs] using ho,hc,by simp⟩
  | some p =>
    obtain ⟨w,prev⟩ := p
    have hw : Opens hot w := ho (gap,w) (by simp [Split.pairs])
    have ho' : ∀ p ∈ closed ++ [(gap,w ++ [x])], Opens hot p.2 :=
      forall_mem_concat (fun p hp => ho p (by simp [Split.pairs,hp])) (hw.append [x])
    cases hx : hot x with
    | true =>
      exact ⟨by simp [Split.pairs,Split.tail],hg,hco,ho',hc,by simp⟩
    | false =>
      simp only [Bool.false_eq_true,↓reduceIte]
      split_ifs with hca
      · simp only [Bool.and_eq_true,Option.any_eq_true] at hca
        obtain ⟨⟨y,rfl,hy⟩,hxc⟩ := hca
        obtain ⟨hyc,body,rfl⟩ := hpr w y rfl
        have hcl : Closes hot calm (body ++ [y] ++ [x]) :=
          ⟨body,y,x,by simp,by simpa [Cold] using ⟨hyc,hx⟩,hy,hxc⟩
        exact ⟨by simp [Split.pairs,Split.tail],forall_mem_concat hg hco,by simp [Cold],
          by simpa [Split.pairs] using ho',forall_mem_concat hc hcl,by simp⟩
      · refine ⟨by simp [Split.pairs,Split.tail],hg,hco,ho',hc,?_⟩
        intro w' y heq
        have hpa := Prod.mk.inj (Option.some.inj heq)
        obtain rfl := Option.some.inj hpa.2
        exact ⟨hx,w,hpa.1.symm⟩

theorem scan_inv (xs : List α) : ScanInv hot calm xs (scan hot calm xs) := by
  induction xs using List.reverseRecOn with
  | nil => exact scanInv_nil
  | append_singleton xs x ih =>
    rw [scan,foldl_append]
    exact ih.step x

theorem scan_isSplit (hot calm : α → Bool) (xs : List α) :
    IsSplit hot calm xs (scan hot calm xs).pairs (scan hot calm xs).tail := by
  obtain ⟨hj,hg,hco,ho,hc,-⟩ : ScanInv hot calm xs (scan hot calm xs) := scan_inv xs
  revert hj hg hco ho hc
  obtain ⟨closed,gap,window⟩ := scan hot calm xs
  intro hj hg hco ho hc
  cases window with
  | none =>
    refine ⟨hj,by simpa [Split.pairs] using hg,hco,ho,fun front p back heq => Or.inl (hc p ?_)⟩
    simp only [Split.pairs,Option.toList_none,map_nil,append_nil] at heq
    simp [heq]
  | some p =>
    refine ⟨hj,forall_mem_concat hg hco,by simp [Split.tail,Cold],ho,fun front q back heq => ?_⟩
    rcases eq_nil_or_concat back with rfl | ⟨back,r,rfl⟩
    · exact Or.inr ⟨rfl,rfl⟩
    · refine Or.inl (hc q ?_)
      have hcl : closed = front ++ q :: back := by
        refine (append_inj' (?_ : closed ++ [(gap,p.1)] = (front ++ q :: back) ++ [r]) rfl).1
        simpa [Split.pairs] using heq
      simp [hcl]

section Tight
variable (hot calm)

def Unsettled (x y : α) : Prop := ¬(hot x = false ∧ hot y = false ∧ calm x = true ∧ calm y = true)

def Tight (w : List α) : Prop := w.dropLast.IsChain (Unsettled hot calm)

structure TightInv (s : Split α) : Prop where
  closed : ∀ p ∈ s.closed, Tight hot calm p.2
  chain : ∀ p ∈ s.window, p.1.IsChain (Unsettled hot calm)
  last : ∀ p ∈ s.window, ∀ y ∈ p.1.getLast?, hot y = true ∨ p.2 = some y

variable {hot calm}

theorem TightInv.step (h : TightInv hot calm s) (x : α) : TightInv hot calm (step hot calm s x) := by
  obtain ⟨closed,gap,window⟩ := s
  obtain ⟨hc,hch,hl⟩ := h
  rw [WindowScan.step]
  cases window with
  | none =>
    cases hx : hot x with
    | true => exact ⟨hc,by simp,by simp [hx]⟩
    | false => exact ⟨hc,by simp,by simp⟩
  | some p =>
    obtain ⟨w,prev⟩ := p
    have hw := hch (w,prev) rfl
    have he := hl (w,prev) rfl
    cases hx : hot x with
    | true =>
      have hn : (w ++ [x]).IsChain (Unsettled hot calm) := by
        refine isChain_append.mpr ⟨hw,by simp,?_⟩
        intro y _ z hz hp
        obtain rfl : x = z := by simpa using hz
        simp [hx] at hp
      exact ⟨hc,by simpa using hn,by simp [hx]⟩
    | false =>
      simp only [Bool.false_eq_true,↓reduceIte]
      split_ifs with hca
      · refine ⟨forall_mem_concat hc ?_,by simp,by simp⟩
        simpa [Tight] using hw
      · have hn : (w ++ [x]).IsChain (Unsettled hot calm) := by
          refine isChain_append.mpr ⟨hw,by simp,?_⟩
          intro y hy z hz hp
          obtain rfl : x = z := by simpa using hz
          rcases he y hy with hh | rfl
          · simp [hh] at hp
          · simp [hp.2.2.1,hp.2.2.2] at hca
        exact ⟨hc,by simpa using hn,by simp⟩

theorem scan_tight (xs : List α) : ∀ p ∈ (scan hot calm xs).pairs, Tight hot calm p.2 := by
  have hin : TightInv hot calm (scan hot calm xs) := by
    induction xs using List.reverseRecOn with
    | nil => exact ⟨by simp [scan],by simp [scan],by simp [scan]⟩
    | append_singleton xs x ih =>
      rw [scan,foldl_append]
      exact ih.step x
  obtain ⟨hc,hch,-⟩ := hin
  intro p hp
  rcases mem_append.mp hp with hp | hp
  · exact hc p hp
  · obtain ⟨q,hq,rfl⟩ := mem_map.mp hp
    exact (hch q (Option.mem_toList.mp hq)).dropLast

/-- Behind the last hot item of a window only the last two items can both be calm. -/
theorem Tight.calm_chain {front back : List α} {x : α} (h : Tight hot calm (front ++ x :: back))
    (hc : Cold hot back) :
    back.dropLast.IsChain fun y z => ¬(calm y = true ∧ calm z = true) := by
  cases back with
  | nil => simp
  | cons y back =>
    have hba : (y :: back).dropLast.IsChain (Unsettled hot calm) :=
      IsChain.suffix h ⟨front ++ [x],by simp⟩
    refine hba.imp_of_mem_imp ?_
    intro a b ha hb hp hca
    exact hp ⟨hc a (mem_of_mem_dropLast ha),hc b (mem_of_mem_dropLast hb),hca⟩

end Tight

section Split
variable {ps : List (List α × List α)} {tail : List α}

theorem IsSplit.hot_in_window (h : IsSplit hot calm xs ps tail) {x : α} (hx : x ∈ xs)
    (hh : hot x = true) :
    ∃ p ∈ ps, x ∈ p.2 := by
  rw [← h.joined_eq,mem_append,joined,mem_flatMap] at hx
  rcases hx with ⟨p,hp,hx⟩ | hx
  · rcases mem_append.mp hx with hx | hx
    · exact absurd hh (by simp [h.gap_cold p hp x hx])
    · exact ⟨p,hp,hx⟩
  · exact absurd hh (by simp [h.tail_cold x hx])

theorem Closes.last (h : Closes hot calm w) : ∃ body y, w = body ++ [y] ∧ hot y = false := by
  obtain ⟨body,x,y,rfl,hc,-⟩ := h.ends
  exact ⟨body ++ [x],y,by simp,hc y (by simp)⟩

theorem IsSplit.before_window (h : IsSplit hot calm xs ps tail) {front back : List (List α × List α)}
    {p : List α × List α} (heq : ps = front ++ p :: back) :
    joined front ++ p.1 = [] ∨ ∃ ys z, joined front ++ p.1 = ys ++ [z] ∧ hot z = false := by
  rcases eq_nil_or_concat p.1 with hg | ⟨ys,z,hg⟩
  · rcases eq_nil_or_concat front with hf | ⟨front,q,hf⟩
    · exact Or.inl (by simp [hg,hf])
    · have hq := (h.closes front q (p :: back) (by simp [heq,hf])).resolve_right (by simp)
      obtain ⟨body,y,hw,hy⟩ := hq.last
      exact Or.inr ⟨joined front ++ q.1 ++ body,y,by simp [hf,hg,hw],hy⟩
  · exact Or.inr ⟨joined front ++ ys,z,by simp [hg],h.gap_cold p (by simp [heq]) z (by simp [hg])⟩

end Split
end XetCore.WindowScan
