import XetCore.Lib.ByteSource

/-! # Loops of readers

A step of a loop goes on with a new state or ends with a result. As long as every step that
goes on takes something off, the loop is its first step followed by the loop, and it can be
read back and inverted step by step.
-/
namespace XetCore.ByteSources
open ByteSource List
variable {σ ε β γ : Type} {eof : ε} {step : β → Reader Bytes ε (β ⊕ γ)}

section Model
variable [ByteSource σ] (eof : ε) (step : β → Reader σ ε (β ⊕ γ))

def readerLoopFor : ℕ → β → Reader σ ε γ
  | 0, _ => throw eof
  | fuel + 1, b => do
    match ← step b with
    | .inl b' => readerLoopFor fuel b'
    | .inr c => return c

/-- The number of steps is bounded by the number of bytes. -/
def readerLoop (b : β) : Reader σ ε γ := do
  let available ← peek
  readerLoopFor eof step (available.length + 1) b

end Model

theorem Follows.loop [ByteSource σ] {eof : ε} {p : β → Reader σ ε (β ⊕ γ)}
    {q : β → Reader Bytes ε (β ⊕ γ)}
    (h : ∀ b, Follows (p b) (q b)) (b : β) : Follows (readerLoop eof p b) (readerLoop eof q b) := by
  have hf : ∀ fuel b, Follows (readerLoopFor eof p fuel b) (readerLoopFor eof q fuel b) := by
    intro fuel
    induction fuel with
    | zero => exact fun _ => follows_throw eof
    | succ fuel ih =>
      intro b
      refine (h b).bind fun r => ?_
      cases r with
      | inl b' => exact ih b'
      | inr c => exact follows_pure c
  exact follows_peek.bind fun _ => hf _ b

section Laws
variable {P : β → β ⊕ γ → Bytes → Prop} {s s' : Bytes}

def Consumes (step : β → Reader Bytes ε (β ⊕ γ)) : Prop :=
  ∀ b s b' s', (step b).run s = .ok (.inl b',s') → s'.length < s.length

theorem Consumes.of_parses (h : ∀ b, Parses (step b) (P b))
    (hp : ∀ b b' e, P b (.inl b') e → 0 < e.length) : Consumes step := by
  intro b s b' s' hr
  obtain ⟨e,rfl,hP⟩ := h b _ _ _ hr
  have hlt := hp b b' e hP
  rw [length_append]
  omega

/-- The step begins with something that takes bytes off. -/
theorem Consumes.of_bind {α : Type} {p : Reader Bytes ε α} {P : α → Bytes → Prop}
    {f : β → α → Reader Bytes ε (β ⊕ γ)} (hp : Parses p P) (hpo : ∀ a e, P a e → 0 < e.length)
    (hf : ∀ b a, Parses (f b a) fun _ _ => True) : Consumes fun b => p >>= f b := by
  refine Consumes.of_parses (fun b => hp.bind (hf b)) ?_
  rintro b b' e ⟨a,e₁,e₂,rfl,hP,-⟩
  have hlt := hpo a e₁ hP
  rw [length_append]
  omega

theorem readerLoopFor_fuel (hs : Consumes step) {m n : ℕ} (hm : s.length < m) (hn : s.length < n)
    (b : β) : (readerLoopFor eof step m b).run s = (readerLoopFor eof step n b).run s := by
  induction m generalizing n s b with
  | zero => omega
  | succ m ih =>
    obtain ⟨n,rfl⟩ := Nat.exists_eq_succ_of_ne_zero (Nat.ne_of_gt (Nat.zero_lt_of_lt hn))
    rw [readerLoopFor,readerLoopFor]
    cases hr : (step b).run s with
    | error e => rw [run_bind_of_error hr,run_bind_of_error hr]
    | ok r =>
      obtain ⟨r,s'⟩ := r
      rw [run_bind_of_ok hr,run_bind_of_ok hr]
      cases r with
      | inl b' =>
        have hlt := hs b s b' s' hr
        exact ih (by omega) (by omega) b'
      | inr c => rfl

theorem readerLoop_run (b : β) (s : Bytes) :
    (readerLoop eof step b).run s = (readerLoopFor eof step (s.length + 1) b).run s := rfl

theorem readerLoop_next (hs : Consumes step) {b b' : β}
    (h : (step b).run s = .ok (.inl b',s')) :
    (readerLoop eof step b).run s = (readerLoop eof step b').run s' := by
  have hlt := hs b s b' s' h
  rw [readerLoop_run,readerLoop_run,readerLoopFor,run_bind_of_ok h]
  exact readerLoopFor_fuel hs (by omega) (by omega) b'

theorem readerLoop_stop {b : β} {c : γ} (h : (step b).run s = .ok (.inr c,s')) :
    (readerLoop eof step b).run s = .ok (c,s') := by
  rw [readerLoop_run,readerLoopFor,run_bind_of_ok h]
  rfl

theorem readerLoop_error {b : β} {e : ε} (h : (step b).run s = .error e) :
    (readerLoop eof step b).run s = .error e := by
  rw [readerLoop_run,readerLoopFor,run_bind_of_error h]

/-- The bytes are taken off step by step, each with its relation. -/
inductive Taken (P : β → β ⊕ γ → Bytes → Prop) : β → γ → Bytes → Prop
  | stop {b : β} {c : γ} {e : Bytes} (h : P b (.inr c) e) : Taken P b c e
  | next {b b' : β} {c : γ} {e e' : Bytes} (h : P b (.inl b') e) (rest : Taken P b' c e') : Taken P
    b c (e ++ e')

theorem parses_loop (h : ∀ b, Parses (step b) (P b)) (hs : Consumes step) (b : β) :
    Parses (readerLoop eof step b) (Taken P b) := by
  intro s c s' hru
  induction hlen : s.length using Nat.strong_induction_on generalizing b s with
  | _ len ih =>
    cases hr : (step b).run s with
    | error e =>
      rw [readerLoop_error hr] at hru
      cases hru
    | ok r =>
      obtain ⟨r,t⟩ := r
      obtain ⟨e,rfl,hP⟩ := h b _ _ _ hr
      cases r with
      | inl b' =>
        have hlt := hs _ _ _ _ hr
        rw [readerLoop_next hs hr] at hru
        obtain ⟨e',rfl,hre⟩ := ih t.length (by omega) b' t hru rfl
        exact ⟨e ++ e',(append_assoc _ _ _).symm,.next hP hre⟩
      | inr c' =>
        rw [readerLoop_stop hr] at hru
        cases hru
        exact ⟨e,rfl,.stop hP⟩

/-- The loop over records and an end mark, whatever comes of the function that the records are
handed to. -/
theorem readerLoop_records {α : Type} {enc : α → Bytes} {next : β → α → Except ε β} {finish : β → γ}
    {as : List α} {e : Bytes} (hs : Consumes step)
    (hr : ∀ b, ∀ a ∈ as, ∀ rest, (step b).run (enc a ++ rest) = (next b a).map fun b' => (.inl b',rest))
    (he : ∀ b, Reads (step b) e (.inr (finish b))) (b : β) (rest : Bytes) :
    (readerLoop eof step b).run (as.flatMap enc ++ e ++ rest) = (as.foldlM next b).map fun b' =>
      (finish b',rest) := by
  induction as generalizing b with
  | nil => exact readerLoop_stop (he b rest)
  | cons a as ih =>
    have hru := hr b a mem_cons_self (as.flatMap enc ++ e ++ rest)
    have ht := ih fun b a' ha' => hr b a' (mem_cons_of_mem a ha')
    rw [flatMap_cons,append_assoc,append_assoc,← append_assoc (as.flatMap enc),foldlM_cons]
    cases hn : next b a with
    | error e =>
      rw [hn] at hru
      exact readerLoop_error hru
    | ok b' =>
      rw [hn] at hru
      rw [readerLoop_next hs hru,ht b']
      rfl

end Laws

section OverRecords
variable {α τ : Type}

/-- A loop over records: each record is handed to a function, and an end mark stops the loop. -/
structure OverRecords (step : β → Reader Bytes ε (β ⊕ γ)) (enc : α → Bytes) (valid : α → Prop)
    (next : β → α → Except ε β) (encEnd : τ → Bytes) (validEnd : τ → Prop) (finish : β → τ → γ) :
    Prop where
  run_record : ∀ b a, valid a → ∀ rest, (step b).run (enc a ++ rest) = (next b a).map fun b' =>
    (.inl b',rest)
  reads_end : ∀ b t, validEnd t → Reads (step b) (encEnd t) (.inr (finish b t))
  parses : ∀ b, Parses (step b) fun r e => (∃ t, validEnd t ∧ e = encEnd t ∧ r = .inr (finish b t)) ∨
    ∃ a b', valid a ∧ e = enc a ∧ next b a = .ok b' ∧ r = .inl b'
  length_pos : ∀ a, valid a → 0 < (enc a).length

variable {enc : α → Bytes} {valid : α → Prop}
  {next : β → α → Except ε β} {encEnd : τ → Bytes} {validEnd : τ → Prop} {finish : β → τ → γ}

namespace OverRecords

section
variable (h : OverRecords step enc valid next encEnd validEnd finish)
include h

theorem consumes : Consumes step := by
  refine Consumes.of_parses h.parses ?_
  rintro b b' e (⟨_,_,_,hr⟩ | ⟨a,_,ha,rfl,-⟩)
  · cases hr
  · exact h.length_pos a ha

theorem run_loop (b : β) {as : List α} {t : τ} (has : ∀ a ∈ as, valid a) (ht : validEnd t)
    (rest : Bytes) :
    (readerLoop eof step b).run (as.flatMap enc ++ encEnd t ++ rest) =
      (as.foldlM next b).map fun b' => (finish b' t,rest) :=
  readerLoop_records h.consumes (fun b a ha => h.run_record b a (has a ha))
    (fun b => h.reads_end b t ht) b rest

theorem parses_loop (b : β) :
    Parses (readerLoop eof step b) fun c e => ∃ (as : List α) (t : τ)
      (b' : β), (∀ a ∈ as, valid a) ∧ validEnd t ∧
      e = as.flatMap enc ++ encEnd t ∧ as.foldlM next b = .ok b' ∧ c = finish b' t := by
  refine (ByteSources.parses_loop h.parses h.consumes b).mono fun c e hta => ?_
  induction hta with
  | @stop b c e hP =>
    obtain ⟨t,ht,rfl,hr⟩ | ⟨_,_,-,-,-,hr⟩ := hP
    · cases hr
      exact ⟨[],t,b,by simp,ht,rfl,rfl,rfl⟩
    · cases hr
  | next hP _ ih =>
    obtain ⟨_,_,_,hr⟩ | ⟨a,b',ha,rfl,hn,hr⟩ := hP
    · cases hr
    · cases hr
      obtain ⟨as,t,b'',has,ht,rfl,hf,rfl⟩ := ih
      refine ⟨a :: as,t,b'',forall_mem_cons.mpr ⟨ha,has⟩,ht,?_,?_,rfl⟩
      · rw [flatMap_cons,append_assoc]
      · rw [foldlM_cons,hn]
        exact hf

end

end OverRecords
end OverRecords
end XetCore.ByteSources
