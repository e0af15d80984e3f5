import Mathlib.Tactic
import XetCore.Lib.Bytes

/-! # Sources of bytes

A source hands out its bytes in pieces of its own choice. A reader is a computation over a
source that can fail. What a reader built from exact reads does depends on the bytes of the
source alone, and it composes along the encodings that it reads.
-/
namespace XetCore.ByteSources
open List

class ByteSource (σ : Type) where
  bytes : σ → Bytes
  read : σ → ℕ → Bytes × σ
  read_append : ∀ s n, (read s n).1 ++ bytes (read s n).2 = bytes s
  read_le : ∀ s n, (read s n).1.length ≤ n
  read_ne_nil : ∀ s n, 0 < n → bytes s ≠ [] → (read s n).1 ≠ []

open ByteSource

abbrev Reader (σ ε α : Type) := StateT σ (Except ε) α

variable {σ ε α β : Type}
variable {p : Reader σ ε α} {f : α → Reader σ ε β} (x : Except ε α) {enc : α → Bytes} {n : ℕ} {s s' : σ}

theorem run_bind_of_ok {a : α} (h : p.run s = .ok (a,s')) : (p >>= f).run s = (f a).run s' := by
  rw [StateT.run_bind,h]
  rfl

theorem run_bind_of_error {e : ε} (h : p.run s = .error e) : (p >>= f).run s = .error e := by
  rw [StateT.run_bind,h]
  rfl

theorem toOption_eq_some {x : Except ε α} {a : α} : x.toOption = some a ↔ x = .ok a := by
  cases x <;> simp [Except.toOption]

theorem toOption_bind (x : Except ε α) (f : α → Except ε β) :
    (x.bind f).toOption = x.toOption.bind fun a => (f a).toOption := by
  cases x <;> rfl

theorem bind_eq_ok {x : Except ε α} {f : α → Except ε β} {b : β} :
    (x >>= f) = .ok b ↔ ∃ a, x = .ok a ∧ f a = .ok b := by
  cases x with
  | error e => exact ⟨fun h => (nomatch h),fun ⟨_,h,_⟩ => (nomatch h)⟩
  | ok a => exact ⟨fun h => ⟨a,rfl,h⟩,fun ⟨_,ha,h⟩ => Except.ok.inj ha ▸ h⟩

/-- A fold of steps that fail where the numbers of the state no longer fit. `after s l` is the state
behind `l`. -/
theorem foldlM_eq_ok_iff (after : σ → List α → σ) (fits : σ → Prop) {P : α → Prop}
    {step : σ → α → Except ε σ}
    {l : List α} (hn : ∀ s, after s [] = s) (hc : ∀ s a as, P a → fits (after (after s [a]) as) ∨
      fits (after s (a :: as)) →
      after (after s [a]) as = after s (a :: as))
    (hst : ∀ s t a, P a → fits s → (step s a = .ok t ↔ t = after s [a] ∧ fits t))
    (hf : ∀ s as, fits (after s as) → fits s) (hl : ∀ a ∈ l, P a) (hs : fits s) :
    l.foldlM step s = .ok s' ↔ s' = after s l ∧ fits s' := by
  induction l generalizing s with
  | nil =>
    rw [hn]
    exact ⟨fun h => Except.ok.inj h ▸ ⟨rfl,hs⟩,fun h => congrArg Except.ok h.1.symm⟩
  | cons a l ih =>
    obtain ⟨ha,hl⟩ := forall_mem_cons.mp hl
    simp only [foldlM_cons,bind_eq_ok,hst s _ a ha hs]
    constructor
    · rintro ⟨_,⟨rfl,ht⟩,hr⟩
      obtain ⟨rfl,h⟩ := (ih hl ht).mp hr
      exact ⟨hc s a l ha (.inl h),h⟩
    · rintro ⟨he,h⟩
      have hb := hc s a l ha (.inr (he ▸ h))
      have ht := hf _ l (hb ▸ he ▸ h)
      exact ⟨_,⟨rfl,ht⟩,(ih hl ht).mpr ⟨he.trans hb.symm,h⟩⟩

theorem map_eq_ok {x : Except ε α} {f : α → β} {b : β} : x.map f = .ok b ↔ ∃ a, x = .ok a ∧ f a = b := by
  cases x with
  | error e => simp [Except.map]
  | ok a => simp [Except.map]

theorem mapError_eq_ok {ε' : Type} {x : Except ε α} {f : ε → ε'} {a : α} :
    x.mapError f = .ok a ↔ x = .ok a := by
  cases x with
  | error e => simp [Except.mapError]
  | ok b => simp [Except.mapError]

theorem ok_bind (a : α) (f : α → Except ε β) : (Except.ok a >>= f) = f a := rfl

theorem run_bind_eq_ok {s'' : σ} {b : β} :
    (p >>= f).run s = .ok (b,s'') ↔ ∃ a s', p.run s = .ok (a,s') ∧ (f a).run s' = .ok (b,s'') := by
  rw [StateT.run_bind,bind_eq_ok]
  exact Prod.exists

theorem run_pure_eq_ok {a b : α} : (pure a : Reader σ ε α).run s = .ok (b,s') ↔ b = a ∧ s' = s := by
  exact ⟨fun h => ⟨(Prod.mk.inj (Except.ok.inj h)).1.symm,(Prod.mk.inj (Except.ok.inj h)).2.symm⟩,
    fun ⟨ha,hs⟩ => by rw [ha,hs]; rfl⟩

theorem run_lift_eq_ok {x : Except ε α} {a : α} :
    (liftM x : Reader σ ε α).run s = .ok (a,s') ↔ x = .ok a ∧ s' = s := by
  cases x with
  | error e => exact ⟨fun h => (nomatch h),fun h => (nomatch h.1)⟩
  | ok b =>
    exact ⟨fun h => ⟨congrArg Except.ok (Prod.mk.inj (Except.ok.inj h)).1,
      (Prod.mk.inj (Except.ok.inj h)).2.symm⟩,fun ⟨ha,hs⟩ => by rw [hs,Except.ok.inj ha]; rfl⟩

theorem run_lift_bind (f : α → Reader σ ε β) (s : σ) :
    ((liftM x : Reader σ ε α) >>= f).run s = x >>= fun a => (f a).run s := by
  cases x <;> rfl

theorem map_bind_eq {γ : Type} (f : α → Except ε β) (g : β → γ) :
    (x >>= f).map g = x >>= fun a => (f a).map g := by
  cases x <;> rfl

theorem run_lift (s : σ) : (liftM x : Reader σ ε α).run s = x.map fun a => (a,s) := by
  cases x <;> rfl

section Sources
variable (items : List Bytes)

instance cursor : ByteSource Bytes where
  bytes s := s
  read s n := (s.take n,s.drop n)
  read_append s n := List.take_append_drop n s
  read_le s n := List.length_take_le n s
  read_ne_nil s n hn hs := by simpa [List.take_eq_nil_iff,Nat.pos_iff_ne_zero.mp hn] using hs

@[simp] theorem bytes_cursor (s : Bytes) : bytes s = s := rfl

/-- A stream of items. A read takes from the first item that is not empty. -/
structure ItemStream where
  items : List Bytes

def readItems : List Bytes → ℕ → Bytes × List Bytes
  | [], _ => ([],[])
  | [] :: items, n => readItems items n
  | (b :: bs) :: items, n => ((b :: bs).take n,(b :: bs).drop n :: items)

theorem readItems_append (n : ℕ) :
    (readItems items n).1 ++ (readItems items n).2.flatten = items.flatten := by
  induction items with
  | nil => rfl
  | cons item items ih =>
    cases item with
    | nil => simpa [readItems] using ih
    | cons b bs => rw [readItems,flatten_cons,flatten_cons,← append_assoc,take_append_drop]

theorem readItems_le (n : ℕ) : (readItems items n).1.length ≤ n := by
  induction items with
  | nil => exact Nat.zero_le n
  | cons item items ih =>
    cases item with
    | nil => exact ih
    | cons b bs => exact length_take_le n _

theorem readItems_ne_nil {items : List Bytes} (hn : 0 < n) (h : items.flatten ≠ []) :
    (readItems items n).1 ≠ [] := by
  induction items with
  | nil => exact absurd rfl h
  | cons item items ih =>
    cases item with
    | nil => exact ih (by simpa using h)
    | cons b bs => simp [readItems,Nat.pos_iff_ne_zero.mp hn]

instance itemStream : ByteSource ItemStream where
  bytes s := s.items.flatten
  read s n := ((readItems s.items n).1,⟨(readItems s.items n).2⟩)
  read_append s n := readItems_append s.items n
  read_le s n := readItems_le s.items n
  read_ne_nil _ _ hn hs := readItems_ne_nil hn hs

end Sources

section Exact
variable [ByteSource σ]

/-- Reads until there are `n` bytes or the source ends; `fuel` bounds the number of reads. -/
def readUpTo : ℕ → ℕ → σ → Bytes × σ
  | 0, _, s => ([],s)
  | fuel + 1, n, s =>
    let r := read s n
    if r.1.isEmpty then r
    else
      let more := readUpTo fuel (n - r.1.length) r.2
      (r.1 ++ more.1,more.2)

theorem readUpTo_spec {fuel : ℕ} (hf : n ≤ fuel) (s : σ) :
    (readUpTo fuel n s).1 = (bytes s).take n ∧ bytes (readUpTo fuel n s).2 = (bytes s).drop n := by
  induction fuel generalizing n s with
  | zero =>
    obtain rfl := Nat.le_zero.mp hf
    exact ⟨rfl,rfl⟩
  | succ fuel ih =>
    have ha := read_append s n
    have hle := read_le s n
    rw [readUpTo]
    split
    · -- nothing was read, so nothing was asked for or nothing is left
      rename_i hni
      have hr := isEmpty_iff.mp hni
      rw [hr,nil_append] at ha
      rw [hr,ha]
      rcases Nat.eq_zero_or_pos n with rfl | hn
      · exact ⟨rfl,rfl⟩
      · have hs : bytes s = [] := by
          by_contra hne
          exact read_ne_nil s n hn hne hr
        rw [hs]
        exact ⟨take_nil.symm,drop_nil.symm⟩
    · rename_i hne
      have hp := length_pos_iff.mpr fun h => hne (isEmpty_iff.mpr h)
      obtain ⟨ht,hd⟩ := ih (n := n - (read s n).1.length) (by omega) (read s n).2
      dsimp only
      constructor
      · rw [ht,← ha,take_append,take_of_length_le hle]
      · rw [hd,← ha,drop_append,drop_of_length_le hle,nil_append]

/-- Reads exactly `n` bytes, or fails at the end of the source. -/
def readExact (eof : ε) (n : ℕ) : Reader σ ε Bytes := fun s =>
  let r := readUpTo n n s
  if r.1.length = n then .ok r else .error eof

def readLimited (n : ℕ) : Reader σ ε Bytes := fun s => .ok (readUpTo n n s)

/-- A single read, of whatever length the source chooses. -/
def readOnce (n : ℕ) : Reader σ ε Bytes := fun s => .ok (read s n)

/-- Reads `n` bytes, unless the source is at its end. The end is found by a single read, and what
that read leaves open is read exactly. -/
def readOrEnd (eof : ε) (n : ℕ) : Reader σ ε (Option Bytes) := do
  let first ← readOnce n
  if first.isEmpty then return none
  let rest ← readExact eof (n - first.length)
  return some (first ++ rest)

def outcome (p : Reader σ ε α) (s : σ) : Except ε (α × Bytes) := (p.run s).map fun r => (r.1,bytes r.2)

theorem outcome_readExact (eof : ε) (n : ℕ) (s : σ) : outcome (readExact eof n) s =
    if n ≤ (bytes s).length then .ok ((bytes s).take n,(bytes s).drop n) else .error eof := by
  obtain ⟨ht,hd⟩ := readUpTo_spec (Nat.le_refl n) s
  have hlen : (readUpTo n n s).1.length = min n (bytes s).length := by rw [ht,length_take]
  rw [outcome,← ht,← hd]
  split_ifs with hle
  · rw [StateT.run,readExact,if_pos (by omega)]
    rfl
  · rw [StateT.run,readExact,if_neg (by omega)]
    rfl

theorem outcome_readLimited (n : ℕ) (s : σ) :
    outcome (ε := ε) (readLimited n) s = .ok ((bytes s).take n,(bytes s).drop n) := by
  obtain ⟨ht,hd⟩ := readUpTo_spec (Nat.le_refl n) s
  rw [← ht,← hd]
  rfl

theorem outcome_readOrEnd (eof : ε) (hn : 0 < n) (s : σ) : outcome (readOrEnd eof n) s =
    if bytes s = [] then .ok (none,[])
    else if n ≤ (bytes s).length then .ok (some ((bytes s).take n),(bytes s).drop n) else .error eof := by
  have ha := read_append s n
  have hle := read_le s n
  have hf : (readOnce (ε := ε) n).run s = .ok ((read s n).1,(read s n).2) := rfl
  rw [outcome,readOrEnd,run_bind_of_ok hf]
  by_cases hs : bytes s = []
  · rw [hs] at ha
    obtain ⟨hni,hre⟩ := append_eq_nil_iff.mp ha
    rw [if_pos hs,hni]
    exact congrArg (fun t => Except.ok (none,t)) hre
  · have hre := outcome_readExact eof (n - (read s n).1.length) (read s n).2
    rw [outcome] at hre
    have hlen := congrArg List.length ha
    rw [length_append] at hlen
    rw [if_neg hs,if_neg (by simpa using read_ne_nil s n hn hs),StateT.run_bind]
    generalize (readExact eof _).run (read s n).2 = r at hre ⊢
    by_cases hl : n ≤ (bytes s).length
    · rw [if_pos (by omega),map_eq_ok] at hre
      obtain ⟨r,rfl,hr⟩ := hre
      obtain ⟨ht,hd⟩ := Prod.mk.inj hr
      rw [if_pos hl,← ha,take_append,take_of_length_le hle,drop_append,drop_of_length_le hle,
        nil_append,← ht,← hd]
      rfl
    · rw [if_neg (by omega)] at hre
      rw [if_neg hl]
      cases r with
      | error e => exact congrArg Except.error (Except.error.inj hre)
      | ok r => cases hre

end Exact

theorem run_cursor (p : Reader Bytes ε α) (s : Bytes) : p.run s = outcome p s := by
  rw [outcome]
  cases p.run s <;> rfl

@[simp] theorem readExact_cursor (eof : ε) (n : ℕ) (s : Bytes) :
    (readExact eof n).run s = if n ≤ s.length then .ok (s.take n,s.drop n) else .error eof := by
  rw [run_cursor,outcome_readExact,bytes_cursor]

@[simp] theorem readLimited_cursor (n : ℕ) (s : Bytes) :
    (readLimited (ε := ε) n).run s = .ok (s.take n,s.drop n) := by
  rw [run_cursor,outcome_readLimited,bytes_cursor]

theorem readOrEnd_cursor (eof : ε) (hn : 0 < n) (s : Bytes) : (readOrEnd eof n).run s =
      if s = [] then .ok (none,[]) else if n ≤ s.length then .ok (some (s.take n),s.drop n)
        else .error eof := by
  rw [run_cursor,outcome_readOrEnd eof hn,bytes_cursor]

section Follows
variable [ByteSource σ]
variable {p : Reader σ ε α} {q : Reader Bytes ε α}

/-- A reader over some source does what the other one does over a cursor. -/
def Follows (p : Reader σ ε α) (q : Reader Bytes ε α) : Prop :=
  ∀ s, (p.run s).map (fun r => (r.1,bytes r.2)) = q.run (bytes s)

theorem follows_readExact (eof : ε) (n : ℕ) : Follows (σ := σ) (readExact eof n) (readExact eof n) := by
  intro s
  rw [readExact_cursor]
  exact outcome_readExact eof n s

theorem follows_readLimited (n : ℕ) : Follows (σ := σ) (ε := ε) (readLimited n) (readLimited n) := by
  intro s
  rw [readLimited_cursor]
  exact outcome_readLimited n s

theorem follows_readOrEnd (eof : ε) (hn : 0 < n) :
    Follows (σ := σ) (readOrEnd eof n) (readOrEnd eof n) := by
  intro s
  rw [readOrEnd_cursor eof hn]
  exact outcome_readOrEnd eof hn s

theorem follows_pure (a : α) : Follows (σ := σ) (ε := ε) (pure a) (pure a) := fun _ => rfl

theorem follows_throw (e : ε) : Follows (throw e : Reader σ ε α) (throw e) := fun _ => rfl

theorem Follows.bind {g : α → Reader Bytes ε β} (hp : Follows p q) (hf : ∀ a, Follows (f a) (g a)) :
    Follows (p >>= f) (q >>= g) := by
  intro s
  rw [StateT.run_bind,StateT.run_bind,← hp s]
  cases p.run s with
  | error e => rfl
  | ok r => exact hf r.1 r.2

theorem Follows.map (hp : Follows p q) (f : α → β) : Follows (f <$> p) (f <$> q) := by
  intro s
  rw [StateT.run_map,StateT.run_map,← hp s]
  cases p.run s <;> rfl

theorem follows_lift (x : Except ε α) : Follows (liftM x : Reader σ ε α) (liftM x) := by
  intro s
  cases x <;> rfl

def peek : Reader σ ε Bytes := bytes <$> get

theorem follows_peek : Follows (peek : Reader σ ε Bytes) peek := fun _ => rfl

/-- The reader with the number of bytes that it took off. -/
def counted (p : Reader σ ε α) : Reader σ ε (α × ℕ) := do
  let before ← peek
  let a ← p
  let after ← peek
  return (a,before.length - after.length)

theorem Follows.counted (h : Follows p q) : Follows (counted p) (counted q) :=
  follows_peek.bind fun _ => h.bind fun _ => follows_peek.bind fun _ => follows_pure _

def readMany (p : Reader σ ε α) : ℕ → Reader σ ε (List α)
  | 0 => pure []
  | n + 1 => do
    let a ← p
    let rest ← readMany p n
    pure (a :: rest)

theorem Follows.many (h : Follows p q) (n : ℕ) : Follows (readMany p n) (readMany q n) := by
  induction n with
  | zero => exact follows_pure []
  | succ n ih => exact h.bind fun _ => ih.bind fun _ => follows_pure _

/-- With the same bytes, a source and a cursor give the same result. -/
theorem Follows.result_eq (h : Follows p q) (s : σ) :
    (p.run s).map Prod.fst = (q.run (bytes s)).map Prod.fst := by
  rw [← h s]
  cases p.run s <;> rfl

end Follows

section Reads
variable {e : Bytes} {p : Reader Bytes ε α} {f : α → Reader Bytes ε β} {a : α} {as : List α}

/-- Over a cursor, the reader takes this encoding off and returns its value. -/
def Reads (p : Reader Bytes ε α) (e : Bytes) (a : α) : Prop := ∀ rest, p.run (e ++ rest) = .ok (a,rest)

theorem reads_pure (a : α) : Reads (ε := ε) (pure a) [] a := fun _ => rfl

theorem reads_readExact (eof : ε) (e : Bytes) : Reads (readExact eof e.length) e e := by
  intro rest
  rw [readExact_cursor,if_pos (by simp),take_left,drop_left]

theorem reads_readLimited (h : e.length = n) : Reads (ε := ε) (readLimited n) e e := by
  intro rest
  rw [readLimited_cursor,← h,take_left,drop_left]

theorem Reads.bind {e' : Bytes} {b : β} (hp : Reads p e a) (hf : Reads (f a) e' b) :
    Reads (p >>= f) (e ++ e') b := by
  intro rest
  rw [StateT.run_bind,append_assoc,hp]
  exact hf rest

theorem Reads.map (hp : Reads p e a) (f : α → β) : Reads (f <$> p) e (f a) := by
  intro rest
  rw [StateT.run_map,hp]
  rfl

theorem Reads.bind_nil {b : β} (hp : Reads p e a) (hf : Reads (f a) [] b) : Reads (p >>= f) e b := by
  have h := hp.bind hf
  rwa [append_nil] at h

theorem Reads.bind_pure (hp : Reads p e a) (f : α → β) : Reads (p >>= fun a => pure (f a)) e (f a) :=
  hp.bind_nil (reads_pure (f a))

theorem reads_lift {x : Except ε α} (h : x = .ok a) : Reads (ε := ε) (liftM x) [] a := by
  intro rest
  rw [h]
  rfl

theorem Reads.counted (hp : Reads p e a) : Reads (counted p) e (a,e.length) := by
  intro rest
  have hpe : ∀ s : Bytes, (peek : Reader Bytes ε Bytes).run s = .ok (s,s) := fun _ => rfl
  rw [ByteSources.counted,run_bind_of_ok (hpe _),run_bind_of_ok (hp rest),run_bind_of_ok (hpe _),
    length_append,Nat.add_sub_cancel]
  rfl

/-- Each encoding is read as some value of what was encoded. -/
theorem reads_many_map {p : Reader Bytes ε β} {g : α → β}
    (h : ∀ a ∈ as, Reads p (enc a) (g a)) : Reads (readMany p as.length) (as.flatMap enc) (as.map g) := by
  induction as with
  | nil => exact reads_pure []
  | cons a as ih =>
    have hr := (ih fun b hb => h b (mem_cons_of_mem a hb)).map (g a :: ·)
    exact (h a mem_cons_self).bind hr

theorem reads_many (h : ∀ a ∈ as, Reads p (enc a) a) :
    Reads (readMany p as.length) (as.flatMap enc) as := by
  have hr := reads_many_map (g := id) h
  rwa [map_id] at hr

end Reads

section Parses
variable {p : Reader Bytes ε α} {P : α → Bytes → Prop}

/-- What a reader took off stands in a relation to the value that it returned. -/
def Parses (p : Reader Bytes ε α) (P : α → Bytes → Prop) : Prop :=
  ∀ s a s', p.run s = .ok (a,s') → ∃ e, s = e ++ s' ∧ P a e

theorem parses_pure (a : α) : Parses (ε := ε) (pure a) fun b e => b = a ∧ e = [] := by
  intro s b s' h
  cases h
  exact ⟨[],rfl,rfl,rfl⟩

theorem parses_readExact (eof : ε) (n : ℕ) :
    Parses (readExact eof n) fun b e => b = e ∧ e.length = n := by
  intro s b s' h
  rw [readExact_cursor] at h
  split at h
  · rename_i hle
    cases h
    exact ⟨s.take n,(take_append_drop n s).symm,rfl,length_take_of_le hle⟩
  · cases h

theorem parses_readLimited (n : ℕ) : Parses (ε := ε) (readLimited n) fun b e => b = e := by
  intro s b s' h
  rw [readLimited_cursor] at h
  cases h
  exact ⟨s.take n,(take_append_drop n s).symm,rfl⟩

theorem Parses.bind {f : α → Reader Bytes ε β}
    {Q : α → β → Bytes → Prop} (hp : Parses p P) (hf : ∀ a, Parses (f a) (Q a)) :
    Parses (p >>= f) fun b e => ∃ a e₁ e₂, e = e₁ ++ e₂ ∧ P a e₁ ∧ Q a b e₂ := by
  intro s b s' h
  rw [StateT.run_bind] at h
  cases hr : p.run s with
  | error err =>
    rw [hr] at h
    cases h
  | ok r =>
    rw [hr] at h
    obtain ⟨e₁,hs,hP⟩ := hp s r.1 r.2 hr
    obtain ⟨e₂,hs',hQ⟩ := hf r.1 r.2 b s' h
    exact ⟨e₁ ++ e₂,by rw [hs,hs',append_assoc],r.1,e₁,e₂,rfl,hP,hQ⟩

theorem Parses.map (hp : Parses p P) (f : α → β) : Parses (f <$> p) fun b e => ∃ a, P a e ∧ b = f a := by
  intro s b s' h
  rw [StateT.run_map] at h
  cases hr : p.run s with
  | error err =>
    rw [hr] at h
    cases h
  | ok r =>
    rw [hr] at h
    cases h
    obtain ⟨e,hs,hP⟩ := hp s r.1 r.2 hr
    exact ⟨e,hs,r.1,hP,rfl⟩

theorem Parses.mono {Q : α → Bytes → Prop} (hp : Parses p P) (h : ∀ a e, P a e → Q a e) : Parses p Q := by
  intro s a s' hr
  obtain ⟨e,hs,hP⟩ := hp s a s' hr
  exact ⟨e,hs,h a e hP⟩

theorem parses_lift (x : Except ε α) : Parses (ε := ε) (liftM x) fun a e => x = .ok a ∧ e = [] := by
  intro s a s' h
  obtain ⟨hx,rfl⟩ := run_lift_eq_ok.mp h
  exact ⟨[],rfl,hx,rfl⟩

theorem Parses.counted (hp : Parses p P) : Parses (counted p) fun r e => P r.1 e ∧ r.2 = e.length := by
  intro s r s' h
  have hpe : ∀ s t : Bytes, ∀ u, (peek : Reader Bytes ε Bytes).run s = .ok (t,u) → t = s ∧ u = s :=
    fun _ _ _ h => ⟨(Prod.mk.inj (Except.ok.inj h)).1.symm,(Prod.mk.inj (Except.ok.inj h)).2.symm⟩
  simp only [ByteSources.counted,run_bind_eq_ok] at h
  obtain ⟨t,s₁,h₁,a,s₂,h₂,u,s₃,h₃,rfl,rfl⟩ := h
  obtain ⟨rfl,rfl⟩ := hpe _ _ _ h₁
  obtain ⟨rfl,rfl⟩ := hpe _ _ _ h₃
  obtain ⟨e,rfl,hP⟩ := hp _ _ _ h₂
  exact ⟨e,rfl,hP,by rw [length_append,Nat.add_sub_cancel]⟩

theorem parses_many {Q : α → Prop} (h : Parses p fun a e => Q a ∧ e = enc a) (n : ℕ) :
    Parses (readMany p n) fun as e => as.length = n ∧ (∀ a ∈ as, Q a) ∧ e = as.flatMap enc := by
  induction n with
  | zero =>
    refine (parses_pure []).mono fun as e => ?_
    rintro ⟨rfl,rfl⟩
    exact ⟨rfl,nofun,rfl⟩
  | succ n ih =>
    refine (h.bind fun a => ih.bind fun as => parses_pure (a :: as)).mono fun bs e => ?_
    rintro ⟨a,e₁,e₂,rfl,⟨hQ,rfl⟩,as,e₃,e₄,rfl,⟨hlen,hQs,rfl⟩,rfl,rfl⟩
    exact ⟨by rw [length_cons,hlen],forall_mem_cons.mpr ⟨hQ,hQs⟩,by rw [append_nil,flatMap_cons]⟩

end Parses
end XetCore.ByteSources
