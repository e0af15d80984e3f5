import XetCore.Lib.StreamCut

/-! # Gated cutting: minimum length, first hit, maximum length

A piece ends at the first hit once it has the minimum length, and at the maximum length
when no hit came before. Cutting is a counter running over the list, and two runs over a
common tail agree as soon as both counters are at zero.
-/
namespace XetCore.GatedCut
open StreamCut List
variable {α : Type*}

structure Gate where
  lo : ℕ
  hi : ℕ
  lo_pos : 0 < lo
  lo_le : lo ≤ hi

variable (g : Gate) (hit : α → Bool)
variable (n : ℕ) {l : List α} {q : List α}

/-- Scan with `n` elements of the current piece already seen. -/
def scan : ℕ → List α → Option ℕ
  | _, [] => none
  | n, x :: xs => if (g.lo ≤ n + 1 ∧ hit x) ∨ n + 1 = g.hi then some (n + 1) else scan (n + 1) xs

theorem scan_append (l t : List α) :
    scan g hit n (l ++ t) = (scan g hit n l).or (scan g hit (n + l.length) t) := by
  induction l generalizing n with
  | nil => simp [scan]
  | cons x xs ih =>
    simp only [cons_append,scan]
    split
    · simp
    · rw [ih,length_cons]
      congr 2
      omega

theorem scan_some_bounds {n m : ℕ} (h : scan g hit n l = some m) :
    n < m ∧ m ≤ n + l.length ∧ g.lo ≤ m := by
  induction l generalizing n with
  | nil => simp [scan] at h
  | cons x xs ih =>
    simp only [scan] at h
    split_ifs at h with hc
    · have hlo := g.lo_le
      simp only [Option.some.injEq] at h
      subst h
      refine ⟨by omega,by simp only [length_cons]; omega,?_⟩
      rcases hc with hc | hc
      · exact hc.1
      · omega
    · have hb := ih h
      simp only [length_cons]
      omega

theorem scan_take {n m : ℕ} (h : scan g hit n l = some m) : scan g hit n (l.take (m - n)) = some m := by
  induction l generalizing n with
  | nil => simp [scan] at h
  | cons x xs ih =>
    have hb := scan_some_bounds g hit h
    obtain ⟨k,hk⟩ : ∃ k, m - n = k + 1 := ⟨m - n - 1,by omega⟩
    rw [hk,take_succ_cons]
    simp only [scan] at h ⊢
    split_ifs at h with hc
    · rw [if_pos hc]
      exact h
    · rw [if_neg hc]
      have ht := ih h
      rwa [show m - (n + 1) = k by omega] at ht

def rule : CutRule α where
  cut := scan g hit 0
  pos h := (scan_some_bounds g hit h).1
  le_length h := by simpa using (scan_some_bounds g hit h).2.1
  extend h t := by rw [scan_append,h,Option.some_or]
  restrict h := scan_take g hit h

@[simp] theorem rule_cut (l : List α) : (rule g hit).cut l = scan g hit 0 l := rfl

/-- The length of the unfinished piece after one more element. -/
def step (n : ℕ) (x : α) : ℕ := if (g.lo ≤ n + 1 ∧ hit x) ∨ n + 1 = g.hi then 0 else n + 1

/-- The length of the unfinished piece after a list, from `n` pending elements. -/
def pending (n : ℕ) (l : List α) : ℕ := l.foldl (step g hit) n

@[simp] theorem pending_nil : pending g hit n [] = n := rfl

@[simp] theorem pending_cons (x : α) (l : List α) :
    pending g hit n (x :: l) = pending g hit (step g hit n x) l := rfl

theorem pending_append (l t : List α) :
    pending g hit n (l ++ t) = pending g hit (pending g hit n l) t := foldl_append ..

theorem pending_le (l : List α) : pending g hit n l ≤ n + l.length := by
  induction l generalizing n with
  | nil => simp
  | cons x xs ih =>
    have h := ih (step g hit n x)
    have hs : step g hit n x ≤ n + 1 := by unfold step; split <;> omega
    simp only [pending_cons,length_cons]
    omega

variable {n}

theorem scan_eq_none_iff : scan g hit n l = none ↔ pending g hit n l = n + l.length := by
  induction l generalizing n with
  | nil => simp [scan]
  | cons x xs ih =>
    simp only [scan,pending_cons,step,length_cons]
    split
    · have h := pending_le g hit 0 xs
      simp only [reduceCtorEq,false_iff]
      omega
    · rw [ih]
      omega

theorem split_rest_length (l : List α) : (split (rule g hit) l).2.length = pending g hit 0 l := by
  induction l using List.reverseRecOn with
  | nil => simp
  | append_singleton l x ih =>
    have hr := split_rest_cut (rule g hit) l
    rw [rule_cut,scan_eq_none_iff,Nat.zero_add] at hr
    rw [StreamCut.split_append,pending_append,← ih]
    set ρ := (split (rule g hit) l).2
    have hn : scan g hit 0 ρ = none := (scan_eq_none_iff g hit).mpr (by rw [hr,Nat.zero_add])
    have hs := scan_append g hit 0 ρ [x]
    rw [hn,Option.none_or,Nat.zero_add] at hs
    simp only [scan] at hs
    simp only [pending_cons,step]
    split_ifs at hs with hc
    · rw [if_pos hc,split_of_some (rule g hit)
        (show (rule g hit).cut (ρ ++ [x]) = some (ρ.length + 1) from hs)]
      simp
    · rw [if_neg hc,split_of_none (rule g hit) (show (rule g hit).cut (ρ ++ [x]) = none from hs)]
      simp

theorem closed_iff_pending (l : List α) : Closed (rule g hit) l ↔ pending g hit 0 l = 0 := by
  rw [← split_rest_length,Closed,length_eq_zero_iff]

theorem pending_quiet (hq : ∀ x ∈ q, hit x = false) (hn : n + q.length < g.hi) :
    pending g hit n q = n + q.length := by
  induction q generalizing n with
  | nil => rfl
  | cons x xs ih =>
    simp only [length_cons] at hn
    have hx := hq x mem_cons_self
    have hs : step g hit n x = n + 1 := by
      unfold step
      rw [if_neg]
      rintro (h | h)
      · simp [hx] at h
      · omega
    rw [pending_cons,hs,ih (fun y hy => hq y (mem_cons_of_mem x hy)) (by omega),length_cons]
    omega

variable {c : α}

theorem pending_hit (hq : ∀ x ∈ q, hit x = false) (hc : hit c = true)
    (hlo : g.lo ≤ n + q.length + 1) (hhi : n + q.length + 1 ≤ g.hi) :
    pending g hit n (q ++ [c]) = 0 := by
  rw [pending_append,pending_quiet g hit hq (by omega)]
  simp only [pending_cons,pending_nil,step]
  rw [if_pos]
  exact Or.inl ⟨hlo,hc⟩

/-- A hit leaves at most a piece shorter than the minimum. -/
theorem pending_after_hit (hc : hit c = true) : step g hit n c < g.lo := by
  have hp := g.lo_pos
  unfold step
  split_ifs with h
  · exact hp
  · by_contra hlt
    exact h (Or.inl ⟨by omega,hc⟩)

theorem pending_short (hl : n + l.length < g.lo) : pending g hit n l = n + l.length := by
  have hlo := g.lo_le
  induction l generalizing n with
  | nil => rfl
  | cons x xs ih =>
    rw [length_cons] at hl ⊢
    have hs : step g hit n x = n + 1 := by
      unfold step
      rw [if_neg]
      omega
    rw [pending_cons,hs,ih (by omega)]
    omega

/-- A hit after a start with unknown hits and a quiet stretch ends the piece, unless the start has a
cut to which it is too close. -/
theorem pending_eq_zero_iff {z : List α} (hq : ∀ x ∈ q, hit x = false) (hc : hit c = true)
    (hlo : g.lo ≤ n + z.length + q.length + 1) (hhi : n + z.length + q.length + 1 ≤ g.hi) :
    pending g hit n (z ++ (q ++ [c])) = 0 ↔
      ∀ k, 0 < k → k ≤ z.length → pending g hit n (z.take k) = 0 →
        k + g.lo ≤ z.length + q.length + 1 := by
  induction z generalizing n with
  | nil =>
    rw [nil_append,pending_hit g hit hq hc (by simpa using hlo) (by simpa using hhi)]
    refine ⟨fun _ k hp hk => ?_,fun _ => rfl⟩
    rw [length_nil] at hk
    omega
  | cons x z ih =>
    rw [length_cons] at hlo hhi ⊢
    rw [cons_append,pending_cons]
    have hst : step g hit n x = 0 ∨ step g hit n x = n + 1 := by
      unfold step
      split
      · exact .inl rfl
      · exact .inr rfl
    rcases hst with hs | hs
    · -- the piece before ends here, and the rest may be too short
      rw [hs]
      by_cases hr : g.lo ≤ z.length + q.length + 1
      · rw [ih (by omega) (by omega)]
        constructor
        · intro h k hp hk hcu
          cases k with
          | zero => omega
          | succ k =>
            rcases Nat.eq_zero_or_pos k with rfl | hk'
            · omega
            · rw [take_succ_cons,pending_cons,hs] at hcu
              have := h k hk' (by omega) hcu
              omega
        · intro h k hp hk hcu
          have := h (k + 1) (by omega) (by omega) (by rwa [take_succ_cons,pending_cons,hs])
          omega
      · have hsh : pending g hit 0 (z ++ (q ++ [c])) = z.length + q.length + 1 := by
          rw [pending_short g hit]
          · simp only [length_append,length_singleton]
            omega
          · simp only [length_append,length_singleton]
            omega
        refine ⟨fun h => by omega,fun h => ?_⟩
        have := h 1 (by omega) (by omega) (by rw [take_succ_cons,take_zero,pending_cons,hs,pending_nil])
        omega
    · rw [hs,ih (by omega) (by omega)]
      constructor
      · intro h k hp hk hcu
        cases k with
        | zero => omega
        | succ k =>
          rw [take_succ_cons,pending_cons,hs] at hcu
          rcases Nat.eq_zero_or_pos k with rfl | hk'
          · rw [take_zero,pending_nil] at hcu
            omega
          · have := h k hk' (by omega) hcu
            omega
      · intro h k hp hk hcu
        have := h (k + 1) (by omega) (by omega) (by rwa [take_succ_cons,pending_cons,hs])
        omega

/-- Two successive hits whose distance is at least the minimum and leaves room
for a short pending piece close every list that ends with them. -/
theorem closed_of_hit_pair (A : List α) {d : α} (hc : hit c = true) (hd : hit d = true)
    (hq : ∀ x ∈ q, hit x = false) (hlo : g.lo ≤ q.length + 1) (hhi : q.length + g.lo ≤ g.hi) :
    Closed (rule g hit) (A ++ [c] ++ q ++ [d]) := by
  have h := pending_after_hit g hit (n := pending g hit 0 A) hc
  rw [closed_iff_pending,append_assoc,pending_append,pending_append g hit 0 A]
  apply pending_hit g hit hq hd <;> rw [pending_cons,pending_nil] <;> omega

/-- A piece body: a start of just less than the minimum length whose hits do not
count, a stretch without hits, and the closing hit. -/
structure Body (g : Gate) (hit : α → Bool) (l : List α) : Prop where
  quiet : ∀ x ∈ (l.drop (g.lo - 1)).dropLast, hit x = false
  hit_last : ∀ x ∈ l.getLast?, hit x = true
  lo_le : 2 * g.lo ≤ l.length
  lt_hi : l.length + g.lo < g.hi

theorem Body.decompose (h : Body g hit l) :
    ∃ p q c, l = p ++ (q ++ [c]) ∧ p.length = g.lo - 1 ∧ (∀ x ∈ q, hit x = false) ∧ hit c = true := by
  have hlo := h.lo_le
  have hp := g.lo_pos
  have hne : l.drop (g.lo - 1) ≠ [] := by
    intro he
    have hl := congrArg List.length he
    rw [length_drop,length_nil] at hl
    omega
  refine ⟨l.take (g.lo - 1),(l.drop (g.lo - 1)).dropLast,(l.drop (g.lo - 1)).getLast hne,?_,?_,h.quiet,?_⟩
  · rw [dropLast_append_getLast hne,take_append_drop]
  · rw [length_take]
    omega
  · apply h.hit_last
    have hl : l ≠ [] := by
      rintro rfl
      simp at hne
    rw [getLast_drop hne,getLast?_eq_getLast_of_ne_nil hl]
    exact rfl

theorem hit_false_of_scan_none (h : scan g hit n l = none) {i : ℕ} {x : α}
    (hx : l[i]? = some x) (hlo : g.lo ≤ n + i + 1) : hit x = false := by
  induction l generalizing n i with
  | nil => simp at hx
  | cons y ys ih =>
    simp only [scan] at h
    split at h
    · cases h
    · rename_i hs
      cases i with
      | zero =>
        obtain rfl : y = x := by simpa using hx
        by_contra hh
        exact hs (.inl ⟨by omega,by simpa using hh⟩)
      | succ i => exact ih h (by simpa using hx) (by omega)

/-- A complete piece below the maximum ends with a hit and has none before it that counts. -/
theorem hit_of_cut (h : (rule g hit).cut l = some l.length) (hhi : l.length < g.hi) :
    ∃ p c, l = p ++ [c] ∧ hit c = true ∧ scan g hit 0 p = none := by
  have hpo := (rule g hit).pos h
  obtain ⟨p,c,rfl⟩ := (eq_nil_or_concat' l).resolve_left (ne_nil_of_length_pos hpo)
  rw [length_append,length_singleton] at hhi
  have hn : scan g hit 0 p = none := by
    cases hp : scan g hit 0 p with
    | none => rfl
    | some m =>
      have hb := scan_some_bounds g hit hp
      rw [rule_cut,scan_append,hp,Option.some_or,length_append,length_singleton] at h
      have := Option.some.inj h
      omega
  refine ⟨p,c,rfl,?_,hn⟩
  rw [rule_cut,scan_append,hn,Option.none_or] at h
  simp only [scan] at h
  split at h
  · rename_i hs
    rcases hs with hs | hs
    · exact hs.2
    · omega
  · cases h

theorem Body.of_cut (h : (rule g hit).cut l = some l.length) (hlo : 2 * g.lo ≤ l.length)
    (hhi : l.length + g.lo < g.hi) : Body g hit l := by
  obtain ⟨p,c,rfl,hc,hn⟩ := hit_of_cut g hit h (by omega)
  rw [length_append,length_singleton] at hlo hhi
  refine ⟨?_,by simpa using hc,by simpa using hlo,by simpa using hhi⟩
  intro x hx
  rw [drop_append_of_le_length (by omega),dropLast_concat] at hx
  obtain ⟨i,hi⟩ := mem_iff_getElem?.mp hx
  rw [getElem?_drop] at hi
  exact hit_false_of_scan_none g hit hn hi (by omega)

/-- Resynchronisation: a hit followed by a body brings every run to a cut at the
end of the body, whatever stands before the hit. -/
theorem closed_of_hit_body (A : List α) {y : List α} (hc : hit c = true) (hy : Body g hit y) :
    Closed (rule g hit) (A ++ [c] ++ y) := by
  obtain ⟨p,q,d,hye,hp,hq,hd⟩ := hy.decompose
  have hyl : y.length = p.length + q.length + 1 := by
    rw [hye]
    simp only [length_append,length_singleton]
    omega
  have hlo := hy.lo_le
  have hhi := hy.lt_hi
  have hc := pending_after_hit g hit (n := pending g hit 0 A) hc
  have hpl := pending_le g hit (step g hit (pending g hit 0 A) c) p
  rw [closed_iff_pending,pending_append,pending_append,hye,pending_append,pending_cons,pending_nil]
  apply pending_hit g hit hq hd <;> omega

end XetCore.GatedCut
