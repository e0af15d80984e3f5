import XetCore.Lib.ByteSource

/-! # Readers of a fixed size

A reader of a fixed size takes that many bytes, whatever they are, and fails only if there
are fewer. It may as well read a buffer that was filled before.
-/
namespace XetCore.ByteSources
open List
variable {ε α β : Type} {eof : ε}
variable {n : ℕ} {p : Reader Bytes ε α} {s : Bytes} {enc : α → Bytes}

def Takes (eof : ε) (n : ℕ) (p : Reader Bytes ε α) : Prop :=
  ∃ dec : Bytes → α, ∀ s, p.run s = if n ≤ s.length then .ok (dec (s.take n),s.drop n) else .error eof

theorem takes_readExact (eof : ε) (n : ℕ) : Takes eof n (readExact eof n) :=
  ⟨id,fun s => readExact_cursor eof n s⟩

section
variable (h : Takes eof n p)
include h

theorem Takes.map (f : α → β) : Takes eof n (f <$> p) := by
  obtain ⟨dec,hd⟩ := h
  refine ⟨f ∘ dec,fun s => ?_⟩
  rw [StateT.run_map,hd s]
  split <;> rfl

theorem Takes.bind {m : ℕ} {f : α → Reader Bytes ε β} (hf : ∀ a, Takes eof m (f a)) :
    Takes eof (n + m) (p >>= f) := by
  obtain ⟨dec,hd⟩ := h
  choose g hg using hf
  refine ⟨fun bs => g (dec (bs.take n)) (bs.drop n),fun s => ?_⟩
  have hp := hd s
  split_ifs at hp with hn
  · rw [run_bind_of_ok hp,hg,length_drop,drop_drop]
    dsimp only
    rw [take_take,Nat.min_eq_left (Nat.le_add_right n m),drop_take,Nat.add_sub_cancel_left]
    by_cases hm : n + m ≤ s.length
    · rw [if_pos (by omega),if_pos hm]
    · rw [if_neg (by omega),if_neg hm]
  · rw [run_bind_of_error hp,if_neg (by omega)]

theorem Takes.bind_pure (f : α → β) : Takes eof n (p >>= fun a => pure (f a)) := by
  have hm := h.map f
  rwa [map_eq_pure_bind] at hm

theorem Takes.many (k : ℕ) : Takes eof (k * n) (readMany p k) := by
  induction k with
  | zero =>
    rw [Nat.zero_mul]
    exact ⟨fun _ => [],fun s => by rfl⟩
  | succ k ih =>
    rw [Nat.succ_mul,Nat.add_comm]
    exact h.bind fun _ => ih.bind_pure _

theorem Takes.run_of_length (hs : s.length = n) : ∃ a, p.run s = .ok (a,[]) := by
  obtain ⟨dec,hd⟩ := h
  exact ⟨dec s,by rw [hd,if_pos hs.ge,take_of_length_le hs.le,drop_of_length_le hs.le]⟩

/-- Bytes of the right number are an encoding, if reading gives the encoded value back. -/
theorem Takes.exists_encoding (hp : Parses p fun a e => e = enc a) (hs : s.length = n) :
    ∃ a, s = enc a := by
  obtain ⟨a,ha⟩ := h.run_of_length hs
  obtain ⟨e,he,rfl⟩ := hp _ _ _ ha
  exact ⟨a,by rw [he,append_nil]⟩

theorem Takes.exists_encodings (hp : Parses p fun a e => e = enc a) {k : ℕ} (hs : s.length = k * n) :
    ∃ as : List α, as.length = k ∧ s = as.flatMap enc := by
  obtain ⟨as,has⟩ := (h.many k).run_of_length hs
  obtain ⟨e,he,hlen,-,rfl⟩ := parses_many (hp.mono fun _ _ h => ⟨trivial,h⟩) k _ _ _ has
  exact ⟨as,hlen,by rw [he,append_nil]⟩

end

def ofBuffer (p : Reader Bytes ε α) (buf : Bytes) : Except ε α := (p.run buf).map Prod.fst

theorem toOption_run_bind (p : Reader Bytes ε α) (f : α → Reader Bytes ε β) (s : Bytes) :
    ((p >>= f).run s).toOption = (p.run s).toOption.bind fun r => ((f r.1).run r.2).toOption := by
  cases h : p.run s with
  | error e =>
    rw [run_bind_of_error h]
    rfl
  | ok r =>
    rw [run_bind_of_ok h]
    rfl

/-- A reader of encodings of a fixed size may fail earlier than on a buffer, but it succeeds alike.
-/
theorem toOption_buffered (hr : ∀ a, Reads p (enc a) a)
    (hp : Parses p fun a e => e = enc a) (hn : ∀ a, (enc a).length = n) (s : Bytes) :
    ((readExact eof n >>= fun buf => liftM (ofBuffer p buf)).run s).toOption = (p.run s).toOption := by
  have hru : ∀ s a t, p.run s = .ok (a,t) ↔ s = enc a ++ t := by
    intro s a t
    refine ⟨fun h => ?_,fun h => by rw [h,hr]⟩
    obtain ⟨e,rfl,rfl⟩ := hp _ _ _ h
    rfl
  refine Option.ext fun r => ?_
  obtain ⟨a,t⟩ := r
  rw [toOption_eq_some,toOption_eq_some,hru]
  simp only [run_bind_eq_ok,run_lift_eq_ok,ofBuffer,map_eq_ok,readExact_cursor]
  constructor
  · rintro ⟨buf,_,hre,⟨⟨b,u⟩,hb,rfl⟩,rfl⟩
    split at hre
    · rename_i hle
      cases hre
      rw [hru] at hb
      have hlen := congrArg List.length hb
      rw [length_take_of_le hle,length_append,hn] at hlen
      rw [length_eq_zero_iff.mp (show u.length = 0 by omega),append_nil] at hb
      rw [← hb,take_append_drop]
    · cases hre
  · rintro rfl
    refine ⟨enc a,t,?_,⟨(a,[]),(hru _ _ _).mpr (append_nil _).symm,rfl⟩,rfl⟩
    rw [if_pos (by rw [length_append,hn]; omega),← hn a,take_left,drop_left]

end XetCore.ByteSources
