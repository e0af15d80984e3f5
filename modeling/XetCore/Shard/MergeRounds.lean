import XetCore.Lib.SortedMerge
import XetCore.Shard.SetOperations

/-! # Set operations merge lists of records

Where both shards hold the records of a list, the rounds of a set operation write the merge of
the two lists, one record after the other.
-/
namespace XetCore.Shard
open ByteSources Serialization SortedMerge List

/-- Records as they stand in a section: a header that is loaded first, and a body behind it. -/
structure RecordKind (η ω α : Type) where
  header : α → η
  front : α → Bytes
  body : α → Bytes
  push : ω → α → Result ω

namespace RecordKind
variable {η ω α κ : Type} (kind : RecordKind η ω α) (k : SectionReader η ω)

def encode (tail : Bytes) (as : List α) : Bytes :=
  as.flatMap (fun a => kind.front a ++ kind.body a) ++ tail

/-- A shard whose next header was loaded. Behind the last record there is what `ending` leaves. -/
def sideOf (tail ending : Bytes) : List α → Side η
  | [] => ⟨none,ending⟩
  | a :: as => ⟨some (kind.header a),kind.body a ++ kind.encode tail as⟩

structure Lawful (P : α → Prop) : Prop where
  reads_front : ∀ a, P a → Reads k.loadNext (kind.front a) (some (kind.header a))
  run_copyToOut : ∀ a, P a → ∀ o rest,
    (k.copyToOut (kind.header a) o).run (kind.body a ++ rest) = (kind.push o a).map fun o' => (o',rest)
  reads_skipOver : ∀ a, P a → Reads (k.skipOver (kind.header a)) (kind.body a) ()

variable {kind k} {P : α → Prop} {tail ending : Bytes} {as : List α} {a : α} {o : ω}

theorem encode_cons : kind.encode tail (a :: as) = kind.front a ++
    (kind.body a ++ kind.encode tail as) := by
  simp [encode,flatMap_cons]

section
variable (h : kind.Lawful k P) (hend : k.loadNext.run tail = .ok (none,ending))
include h hend

theorem Lawful.run_loadNext (has : ∀ a ∈ as, P a) : k.loadNext.run (kind.encode tail as) =
      .ok ((kind.sideOf tail ending as).header,(kind.sideOf tail ending as).remaining) := by
  cases as with
  | nil => exact hend
  | cons a as =>
    rw [encode_cons]
    exact h.reads_front a (has a mem_cons_self) _

theorem Lawful.advance_copyToOut (ha : P a)
    (has : ∀ a ∈ as, P a) : k.advance (k.copyToOut (kind.header a) o)
      (kind.body a ++ kind.encode tail as) =
      (kind.push o a).map fun o' => (o',kind.sideOf tail ending as) := by
  rw [SectionReader.advance,h.run_copyToOut a ha]
  cases kind.push o a with
  | error e => rfl
  | ok o' =>
    rw [Except.map,ok_bind]
    dsimp only
    rw [h.run_loadNext hend has]
    rfl

end

section Act
variable {s : Merging η ω} {i : Fin 2} (h : kind.Lawful k P)
  (hend : k.loadNext.run tail = .ok (none,ending)) (ha : P a)
  (has : ∀ a ∈ as, P a) (hside : s.side i = kind.sideOf tail ending (a :: as))
include h hend ha has hside

theorem Lawful.act_copyToOut : k.act i .copyToOut s =
    (kind.push s.output a).map fun o' =>
      { s.setSide (kind.sideOf tail ending as) i with output := o' } := by
  have hav : k.advance (k.copyToOut (kind.header a) s.output)
    (kind.sideOf tail ending (a :: as)).remaining = _ :=
    h.advance_copyToOut hend ha has
  have hh : unwrap (kind.sideOf tail ending (a :: as)).header = .ok (kind.header a) := rfl
  rw [SectionReader.act]
  rw [hside,hh,ok_bind,hav]
  cases kind.push s.output a <;> rfl

theorem Lawful.act_skipOver : k.act i .skipOver s = .ok (s.setSide (kind.sideOf tail ending as) i) := by
  have hav : k.advance (k.skipOver (kind.header a)) (kind.sideOf tail ending (a :: as)).remaining =
      .ok ((),kind.sideOf tail ending as) := by
    change k.advance _ (kind.body a ++ kind.encode tail as) = _
    rw [SectionReader.advance,h.reads_skipOver a ha,ok_bind]
    dsimp only
    rw [h.run_loadNext hend has]
    rfl
  have hh : unwrap (kind.sideOf tail ending (a :: as)).header = .ok (kind.header a) := rfl
  rw [SectionReader.act]
  rw [hside,hh,ok_bind,hav]
  rfl

end Act

section Rounds
variable [LinearOrder κ] (key : α → κ) (keepFirst : Bool) (both : α → α → Option α) (op : MDBSetOperation)

def firstAction : NextAction := if keepFirst then .copyToOut else .skipOver

/-- The actions follow the order of the keys, and those for equal keys write what is kept of the two
records. -/
structure Merges (k : SectionReader η ω) (kind : RecordKind η ω α) (P : α → Prop) : Prop where
  none_none : k.nextActions none none op = none
  some_none : ∀ a, k.nextActions (some (kind.header a)) none op = some (firstAction keepFirst,.nothing)
  none_some : ∀ b, k.nextActions none (some (kind.header b)) op = some (.nothing,.copyToOut)
  lt : ∀ a b, key a < key b →
    k.nextActions (some (kind.header a)) (some (kind.header b)) op = some (firstAction keepFirst,.nothing)
  gt : ∀ a b, key b < key a → k.nextActions (some (kind.header a)) (some (kind.header b)) op =
    some (.nothing,.copyToOut)
  eq : ∀ a b, P a → P b → key a = key b → ∃ action,
    k.nextActions (some (kind.header a)) (some (kind.header b)) op = some action ∧
    ∀ tail0 ending0 tail1 ending1 as bs o, k.loadNext.run tail0 = .ok (none,ending0) →
      k.loadNext.run tail1 = .ok (none,ending1) → (∀ a ∈ as, P a) → (∀ b ∈ bs, P b) →
      (k.act 0 action.1 ⟨kind.sideOf tail0 ending0 (a :: as),kind.sideOf tail1 ending1 (b :: bs),o⟩ >>=
        k.act 1 action.2) = ((both a b).toList.foldlM kind.push o).map fun o' =>
          ⟨kind.sideOf tail0 ending0 as,kind.sideOf tail1 ending1 bs,o'⟩

variable {key keepFirst both op} {tail0 ending0 tail1 ending1 : Bytes} {xs ys : List α} {fuel : ℕ}

theorem Lawful.act_firstAction (h : kind.Lawful k P)
    (hend : k.loadNext.run tail0 = .ok (none,ending0)) (ha : P a)
    (has : ∀ a ∈ as, P a) (second : Side η) :
    (k.act 0 (firstAction keepFirst) ⟨kind.sideOf tail0 ending0 (a :: as),second,o⟩ >>=
      k.act 1 .nothing) =
      ((onlyFirst keepFirst a).foldlM kind.push o).map fun o' =>
        ⟨kind.sideOf tail0 ending0 as,second,o'⟩ := by
  cases keepFirst with
  | true =>
    rw [firstAction,if_pos rfl,h.act_copyToOut hend ha has rfl,onlyFirst,if_pos rfl,foldlM_cons]
    cases kind.push o a <;> rfl
  | false =>
    rw [firstAction,if_neg Bool.false_ne_true,h.act_skipOver hend ha has rfl]
    rfl

theorem Lawful.act_secondCopied (h : kind.Lawful k P)
    (hend : k.loadNext.run tail1 = .ok (none,ending1)) (ha : P a)
    (has : ∀ a ∈ as, P a) (first : Side η) :
    (k.act 0 .nothing ⟨first,kind.sideOf tail1 ending1 (a :: as),o⟩ >>= k.act 1 .copyToOut) =
      (kind.push o a).map fun o' => ⟨first,kind.sideOf tail1 ending1 as,o'⟩ := by
  have hn : k.act 0 .nothing ⟨first,kind.sideOf tail1 ending1 (a :: as),o⟩ = .ok _ := rfl
  rw [hn,ok_bind,h.act_copyToOut hend ha has rfl]
  rfl

section Pairs
variable {b : α} {bs : List α} (h : kind.Lawful k P) (hend0 : k.loadNext.run tail0 = .ok (none,ending0))
  (hend1 : k.loadNext.run tail1 = .ok (none,ending1)) (ha : P a) (has : ∀ a ∈ as, P a) (hb : P b)
    (hbs : ∀ b ∈ bs, P b)
include h hend0 hend1 ha has hb hbs

theorem Lawful.act_copy_skip :
    (k.act 0 .copyToOut ⟨kind.sideOf tail0 ending0 (a :: as),kind.sideOf tail1 ending1 (b :: bs),o⟩ >>=
      k.act 1 .skipOver) = (kind.push o a).map fun o' =>
        ⟨kind.sideOf tail0 ending0 as,kind.sideOf tail1 ending1 bs,o'⟩ := by
  rw [h.act_copyToOut hend0 ha has rfl]
  cases kind.push o a with
  | error e => rfl
  | ok o' =>
    rw [Except.map,ok_bind,h.act_skipOver hend1 hb hbs rfl]
    rfl

theorem Lawful.act_skip_skip :
    (k.act 0 .skipOver ⟨kind.sideOf tail0 ending0 (a :: as),kind.sideOf tail1 ending1 (b :: bs),o⟩ >>=
      k.act 1 .skipOver) = .ok ⟨kind.sideOf tail0 ending0 as,kind.sideOf tail1 ending1 bs,o⟩ := by
  rw [h.act_skipOver hend0 ha has rfl,ok_bind,h.act_skipOver hend1 hb hbs rfl]
  rfl

end Pairs

theorem foldlM_toList_some (o : ω) : (some a).toList.foldlM kind.push o = kind.push o a := by
  rw [Option.toList_some,foldlM_cons]
  cases kind.push o a <;> rfl

theorem rounds_succ {s : Merging η ω} {action : NextAction × NextAction}
    (hac : k.nextActions s.first.header s.second.header op = some action) :
    k.rounds op (fuel + 1) s = (k.act 0 action.1 s >>= k.act 1 action.2) >>= k.rounds op fuel := by
  rw [SectionReader.rounds,hac]
  dsimp only
  cases k.act 0 action.1 s <;> rfl

theorem map_bind_rounds {out : Result ω} {f : ω → Merging η ω} {l : List α} {final : ω → Merging η ω}
    (hr : ∀ o', k.rounds op fuel (f o') = (l.foldlM kind.push o').map final) :
    (out.map f >>= k.rounds op fuel) = (out >>= fun o' => l.foldlM kind.push o').map final := by
  cases out with
  | error e => rfl
  | ok o' => exact hr o'

section
variable (hm : Merges key keepFirst both op k kind P) (h : kind.Lawful k P)
  (hend0 : k.loadNext.run tail0 = .ok (none,ending0)) (hend1 : k.loadNext.run tail1 = .ok (none,ending1))
  (hxs : ∀ a ∈ xs, P a) (hys : ∀ b ∈ ys, P b)
include hm h hend0 hend1 hxs hys

theorem Merges.rounds_eq (hf : xs.length + ys.length < fuel) (o : ω) :
    k.rounds op fuel ⟨kind.sideOf tail0 ending0 xs,kind.sideOf tail1 ending1 ys,o⟩ =
      ((mergeBy key keepFirst both xs ys).foldlM kind.push o).map fun o' =>
        ⟨⟨none,ending0⟩,⟨none,ending1⟩,o'⟩ := by
  obtain ⟨fuel,rfl⟩ := Nat.exists_eq_succ_of_ne_zero (show fuel ≠ 0 by omega)
  fun_induction mergeBy key keepFirst both xs ys generalizing fuel o with
  | case1 =>
    rw [SectionReader.rounds]
    dsimp only [sideOf]
    rw [hm.none_none]
    rfl
  | case2 y ys ih =>
    obtain ⟨hy,hys⟩ := forall_mem_cons.mp hys
    obtain ⟨fuel,rfl⟩ := Nat.exists_eq_succ_of_ne_zero (show fuel ≠ 0 by simp at hf; omega)
    rw [rounds_succ (hm.none_some y),h.act_secondCopied hend1 hy hys,foldlM_cons]
    exact map_bind_rounds fun o' => ih hxs hys o' fuel (by simpa using hf)
  | case3 x xs ih =>
    obtain ⟨hx,hxs⟩ := forall_mem_cons.mp hxs
    obtain ⟨fuel,rfl⟩ := Nat.exists_eq_succ_of_ne_zero (show fuel ≠ 0 by simp at hf; omega)
    rw [rounds_succ (hm.some_none x),h.act_firstAction hend0 hx hxs,foldlM_append]
    exact map_bind_rounds fun o' => ih hxs hys o' fuel (by simpa using hf)
  | case4 x xs y ys hlt ih =>
    obtain ⟨hx,hxs⟩ := forall_mem_cons.mp hxs
    obtain ⟨fuel,rfl⟩ := Nat.exists_eq_succ_of_ne_zero (show fuel ≠ 0 by simp at hf; omega)
    rw [rounds_succ (hm.lt x y hlt),h.act_firstAction hend0 hx hxs,foldlM_append]
    exact map_bind_rounds fun o' => ih hxs hys o' fuel
      (by simp only [length_cons] at hf ⊢; omega)
  | case5 x xs y ys hn hlt ih =>
    obtain ⟨hy,hys⟩ := forall_mem_cons.mp hys
    obtain ⟨fuel,rfl⟩ := Nat.exists_eq_succ_of_ne_zero (show fuel ≠ 0 by simp at hf; omega)
    rw [rounds_succ (hm.gt x y hlt),h.act_secondCopied hend1 hy hys,foldlM_cons]
    exact map_bind_rounds fun o' => ih hxs hys o' fuel
      (by simp only [length_cons] at hf ⊢; omega)
  | case6 x xs y ys hn hn' ih =>
    have heq : key x = key y := le_antisymm (not_lt.mp hn') (not_lt.mp hn)
    obtain ⟨hx,hxs⟩ := forall_mem_cons.mp hxs
    obtain ⟨hy,hys⟩ := forall_mem_cons.mp hys
    obtain ⟨fuel,rfl⟩ := Nat.exists_eq_succ_of_ne_zero (show fuel ≠ 0 by simp at hf; omega)
    obtain ⟨action,hac,hr⟩ := hm.eq x y hx hy heq
    rw [rounds_succ hac,hr _ _ _ _ xs ys o hend0 hend1 hxs hys,foldlM_append]
    exact map_bind_rounds fun o' => ih hxs hys o' fuel
      (by simp only [length_cons] at hf ⊢; omega)

/-- A section is run by merging the records of the two shards. -/
theorem Merges.run_eq (hp : ∀ a, 0 < (kind.front a).length) (ht : 0 < tail0.length) (o : ω) :
    k.run op (kind.encode tail0 xs)
      (kind.encode tail1 ys) o = (mergeBy key keepFirst both xs ys).foldlM kind.push o := by
  have hl : ∀ (tail : Bytes) (as : List α), as.length + tail.length ≤ (kind.encode tail as).length :=
    fun tail as => by
      rw [encode,length_append,length_flatMap]
      have hle := length_le_sum_of_one_le (as.map fun a => (kind.front a ++ kind.body a).length)
        (forall_mem_map.mpr fun a _ => by rw [length_append]; have := hp a; omega)
      rw [length_map] at hle
      omega
  have hf : xs.length + ys.length < (kind.encode tail0 xs).length + (kind.encode tail1 ys).length := by
    have h0 := hl tail0 xs
    have h1 := hl tail1 ys
    omega
  rw [SectionReader.run,h.run_loadNext hend0 hxs,ok_bind]
  dsimp only
  rw [h.run_loadNext hend1 hys,ok_bind]
  have hr := hm.rounds_eq h hend0 hend1 hxs hys hf o
  rw [hr]
  cases (mergeBy key keepFirst both xs ys).foldlM kind.push o <;> rfl

end

end Rounds
end RecordKind
end XetCore.Shard
