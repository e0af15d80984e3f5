import Mathlib.Tactic

/-! # Trees of operations

Values are made from a first value by operations of one and of two arguments, which may fail. A
tree says in which order. A property holds throughout a tree if all values made on the way have it.
-/
namespace XetCore.OperationTrees
variable {υ β σ ε : Type*}

inductive Tree (υ β : Type*) where
  | leaf
  | unary (op : υ) (t : Tree υ β)
  | binary (op : β) (l r : Tree υ β)

structure Operations (υ β σ ε : Type*) where
  first : σ
  one : υ → σ → Except ε σ
  two : β → σ → σ → Except ε σ

namespace Tree
variable (ops : Operations υ β σ ε)

def eval : Tree υ β → Except ε σ
  | .leaf => .ok ops.first
  | .unary op t => do
    let s ← t.eval
    ops.one op s
  | .binary op l r => do
    let x ← l.eval
    let y ← r.eval
    ops.two op x y

def Throughout (P : σ → Prop) : Tree υ β → Prop
  | .leaf => P ops.first
  | .unary op t => t.Throughout P ∧ ∀ s s', t.eval ops = .ok s → ops.one op s = .ok s' → P s'
  | .binary op l r => l.Throughout P ∧ r.Throughout P ∧
      ∀ x y s', l.eval ops = .ok x → r.eval ops = .ok y → ops.two op x y = .ok s' → P s'

/-- Every operation that succeeds is permitted for its arguments. -/
def Permitted (one : υ → σ → Prop) (two : β → σ → σ → Prop) : Tree υ β → Prop
  | .leaf => True
  | .unary op t => t.Permitted one two ∧ ∀ s s', t.eval ops = .ok s → ops.one op s = .ok s' → one op s
  | .binary op l r => l.Permitted one two ∧ r.Permitted one two ∧
      ∀ x y s', l.eval ops = .ok x → r.eval ops = .ok y → ops.two op x y = .ok s' → two op x y

variable {ops} {P Q : σ → Prop} {one : υ → σ → Prop} {two : β → σ → σ → Prop} {t : Tree υ β}

theorem eval_unary {op : υ} {s' : σ} (h : (unary op t).eval ops = .ok s') :
    ∃ s, t.eval ops = .ok s ∧ ops.one op s = .ok s' := by
  rw [eval] at h
  cases hs : t.eval ops with
  | error e =>
    rw [hs] at h
    cases h
  | ok s =>
    rw [hs] at h
    exact ⟨s,rfl,h⟩

theorem eval_binary {op : β} {l r : Tree υ β} {s' : σ} (h : (binary op l r).eval ops = .ok s') :
    ∃ x y, l.eval ops = .ok x ∧ r.eval ops = .ok y ∧ ops.two op x y = .ok s' := by
  rw [eval] at h
  cases hx : l.eval ops with
  | error e =>
    rw [hx] at h
    cases h
  | ok x =>
    cases hy : r.eval ops with
    | error e =>
      rw [hx,hy] at h
      cases h
    | ok y =>
      rw [hx,hy] at h
      exact ⟨x,y,rfl,rfl,h⟩

theorem Throughout.eval (h : t.Throughout ops P) {s : σ} (hs : t.eval ops = .ok s) : P s := by
  cases t with
  | leaf =>
    cases hs
    exact h
  | unary op t =>
    obtain ⟨x,hx,hop⟩ := eval_unary hs
    exact h.2 x s hx hop
  | binary op l r =>
    obtain ⟨x,y,hx,hy,hop⟩ := eval_binary hs
    exact h.2.2 x y s hx hy hop

theorem Throughout.mono (hPQ : ∀ s, P s → Q s) (h : t.Throughout ops P) : t.Throughout ops Q := by
  induction t with
  | leaf => exact hPQ _ h
  | unary op t ih => exact ⟨ih h.1,fun s s' hs hop => hPQ s' (h.2 s s' hs hop)⟩
  | binary op l r ihl ihr =>
    exact ⟨ihl h.1,ihr h.2.1,fun x y s' hx hy hop => hPQ s' (h.2.2 x y s' hx hy hop)⟩

/-- If the permitted operations are those that keep the property, it holds throughout the trees of
permitted operations. -/
theorem throughout_iff (hf : P ops.first) (ho : ∀ op s s', P s → ops.one op s = .ok s' →
    (P s' ↔ one op s))
    (htw : ∀ op x y s', P x → P y → ops.two op x y = .ok s' → (P s' ↔ two op x y)) (t : Tree υ β) :
    t.Throughout ops P ↔ t.Permitted ops one two := by
  induction t with
  | leaf => exact iff_of_true hf trivial
  | unary op t ih =>
    rw [Throughout,Permitted,← ih]
    refine and_congr_right fun ht => ?_
    refine forall₄_congr fun s s' hs hop => ho op s s' (ht.eval hs) hop
  | binary op l r ihl ihr =>
    rw [Throughout,Permitted,← ihl,← ihr]
    refine and_congr_right fun hl => and_congr_right fun hr => ?_
    refine forall₃_congr fun x y s' => forall₃_congr fun hx hy hop => ?_
    exact htw op x y s' (hl.eval hx) (hr.eval hy) hop

end Tree
end XetCore.OperationTrees
