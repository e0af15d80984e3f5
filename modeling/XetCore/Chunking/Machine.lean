import XetCore.Chunking.Chunker

/-! # The chunker as a machine

The chunker is a machine over the bytes of the current chunk. Its state between two
calls is the machine's state after the buffered bytes, and the boundary it finds is
where the machine stops.
-/
namespace XetCore.Chunking
open StreamCut MachineCut List
variable {G : GearHasher} {n : ℕ}

namespace GearHasher

def step (G : GearHasher) (mask : UInt64) (h : G.State) (b : UInt8) : G.State :=
  (G.nextMatch h [b] mask).2
def fires (G : GearHasher) (mask : UInt64) (h : G.State) (b : UInt8) : Bool :=
  (G.nextMatch h [b] mask).1.isSome

theorem nextMatch_cons (mask : UInt64) (h : G.State) (b : UInt8) (bs : Bytes) :
    G.nextMatch h (b :: bs) mask = if G.fires mask h b then (some 1,G.step mask h b)
      else ((G.nextMatch (G.step mask h b) bs mask).1.map (· + 1),
        (G.nextMatch (G.step mask h b) bs mask).2) := by
  have ha := G.nextMatch_append h [b] bs mask
  unfold fires step
  rw [← singleton_append,ha]
  cases hb : G.nextMatch h [b] mask with
  | mk r h' =>
    cases r with
    | none => simp
    | some k =>
      have hk := G.nextMatch_bounds (show (G.nextMatch h [b] mask).1 = some k by rw [hb])
      simp only [length_singleton] at hk
      obtain rfl : k = 1 := by omega
      simp

end GearHasher

section Machine
variable (G) (lo hi : ℕ) (mask : UInt64)

/-- The bytes that are not hashed at the start of a chunk. -/
def skipped : ℕ := lo - hashWindowSize - 1

variable (s : ℕ × G.State) (b : UInt8)

def byteNext : ℕ × G.State :=
  (s.1 + 1,if s.1 < skipped lo then s.2 else G.step mask s.2 b)

def byteStop : Bool :=
  decide (lo ≤ s.1 + 1) && G.fires mask s.2 b || decide (hi ≤ s.1 + 1)

def byteScan (data : Bytes) : Option ℕ :=
  scan (byteNext G lo mask) (byteStop G lo hi mask) s data

def byteAfter (data : Bytes) : ℕ × G.State := data.foldl (byteNext G lo mask) s

def byteRule : CutRule UInt8 := rule (byteNext G lo mask) (byteStop G lo hi mask) (0,G.init)

variable {G lo hi mask}
variable {data : Bytes} {pos : ℕ} {h : G.State} {a : Bytes}

theorem byteScan_cons (bs : Bytes) :
    byteScan G lo hi mask s (b :: bs) = if byteStop G lo hi mask s b then some 1
      else (byteScan G lo hi mask (byteNext G lo mask s b) bs).map (· + 1) := rfl

theorem byteScan_append_of_none {s : ℕ × G.State} (h : byteScan G lo hi mask s a = none)
    (b : Bytes) : byteScan G lo hi mask s (a ++ b) =
      (byteScan G lo hi mask (byteAfter G lo mask s a) b).map (· + a.length) := by
  rw [byteScan,scan_append,show scan _ _ s a = none from h,Option.none_or]
  rfl

theorem byteScan_append_of_some {s : ℕ × G.State} (h : byteScan G lo hi mask s a = some n)
    (b : Bytes) : byteScan G lo hi mask s (a ++ b) = some n := by
  unfold byteScan at h ⊢
  rw [scan_append,h,Option.some_or]

theorem byteAfter_cons (bs : Bytes) :
    byteAfter G lo mask s (b :: bs) = byteAfter G lo mask (byteNext G lo mask s b) bs := rfl

@[simp] theorem byteAfter_nil : byteAfter G lo mask s [] = s := rfl

theorem byteAfter_append (a b : Bytes) :
    byteAfter G lo mask s (a ++ b) = byteAfter G lo mask (byteAfter G lo mask s a) b := foldl_append ..

@[simp] theorem byteAfter_fst (data : Bytes) : (byteAfter G lo mask s data).1 = s.1 + data.length := by
  induction data generalizing s with
  | nil => rfl
  | cons b bs ih =>
    rw [byteAfter_cons,ih]
    simp only [byteNext,length_cons]
    omega

theorem byteScan_of_lt {s : ℕ × G.State} (hlo : lo < hi) (hlen : s.1 + data.length < lo) :
    byteScan G lo hi mask s data = none := by
  induction data generalizing s with
  | nil => rfl
  | cons b bs ih =>
    rw [length_cons] at hlen
    have hs : byteStop G lo hi mask s b = false := by
      simp [byteStop,show ¬lo ≤ s.1 + 1 by omega,show ¬hi ≤ s.1 + 1 by omega]
    have hr := ih (s := byteNext G lo mask s b) (by simp only [byteNext]; omega)
    simp [byteScan_cons,hs,hr]

theorem byteScan_length {s : ℕ × G.State} (hs : s.1 < hi) :
    (byteScan G lo hi mask s data = none → s.1 + data.length < hi) ∧
      ∀ n, byteScan G lo hi mask s data = some n → s.1 + n ≤ hi ∧ (lo ≤ hi → lo ≤ s.1 + n) := by
  induction data generalizing s with
  | nil => exact ⟨fun _ => hs,by simp [byteScan,scan]⟩
  | cons b bs ih =>
    rw [byteScan_cons]
    by_cases hst : byteStop G lo hi mask s b = true
    · simp only [hst,↓reduceIte,Option.some.injEq,reduceCtorEq,false_implies,true_and]
      rintro _ rfl
      simp only [byteStop,Bool.or_eq_true,Bool.and_eq_true,decide_eq_true_eq] at hst
      omega
    · have hm : s.1 + 1 < hi := by
        simp only [byteStop,Bool.or_eq_true,decide_eq_true_eq] at hst
        omega
      obtain ⟨hn,hso⟩ := ih (s := byteNext G lo mask s b) hm
      simp only [hst,Bool.false_eq_true,↓reduceIte,Option.map_eq_none_iff,Option.map_eq_some_iff,
        length_cons,forall_exists_index,and_imp]
      simp only [byteNext] at hn hso
      refine ⟨fun h => ?_,?_⟩
      · have := hn h
        omega
      · rintro _ k hk rfl
        have := hso k hk
        omega

theorem byteAfter_skip (hlen : pos + data.length ≤ skipped lo) :
    byteAfter G lo mask (pos,h) data = (pos + data.length,h) := by
  induction data generalizing pos with
  | nil => rfl
  | cons b bs ih =>
    rw [length_cons] at hlen
    have hn : byteNext G lo mask (pos,h) b = (pos + 1,h) := by
      simp [byteNext,show pos < skipped lo by omega]
    rw [byteAfter_cons,hn,ih (by omega),length_cons]
    congr 1
    omega

section
variable (hp : skipped lo ≤ pos)
include hp

theorem byteNext_hashed (h : G.State) (b : UInt8) :
    byteNext G lo mask (pos,h) b = (pos + 1,G.step mask h b) := by
  simp [byteNext,show ¬pos < skipped lo by omega]

theorem byteAfter_nextMatch (mask : UInt64) (h : G.State) (data : Bytes) :
    byteAfter G lo mask (pos,h) (data.take ((G.nextMatch h data mask).1.getD data.length)) =
      (pos + (G.nextMatch h data mask).1.getD data.length,(G.nextMatch h data mask).2) := by
  induction data generalizing pos h with
  | nil => simp [G.nextMatch_nil]
  | cons b bs ih =>
    have hi' := ih (show skipped lo ≤ pos + 1 by omega) (G.step mask h b)
    rw [G.nextMatch_cons]
    split
    · simp [byteAfter_cons,byteNext_hashed hp]
    · cases hm : G.nextMatch (G.step mask h b) bs mask with
      | mk r h' =>
        rw [hm] at hi'
        cases r with
        | none =>
          simp only [Option.getD_none,Option.map_none,take_succ_cons,byteAfter_cons,
            byteNext_hashed hp,length_cons] at hi' ⊢
          rw [hi']
          congr 1
          omega
        | some k =>
          simp only [Option.getD_some,Option.map_some,take_succ_cons,byteAfter_cons,
            byteNext_hashed hp] at hi' ⊢
          rw [hi']
          congr 1
          omega

theorem byteScan_take_nextMatch
    (hhi : pos < hi) (hm : ∀ k, (G.nextMatch h data mask).1 = some k → n < k) (hn : n ≤ data.length) :
    byteScan G lo hi mask (pos,h) (data.take n) = if hi ≤ pos + n then some (hi - pos) else none := by
  induction data generalizing pos h n with
  | nil =>
    obtain rfl : n = 0 := by simpa using hn
    simp [byteScan,scan,show ¬hi ≤ pos by omega]
  | cons b bs ih =>
    cases n with
    | zero => simp [byteScan,scan,show ¬hi ≤ pos by omega]
    | succ n =>
      have hfi : G.fires mask h b = false := by
        by_contra hf
        have := hm 1 (by simp [G.nextMatch_cons,hf])
        omega
      rw [take_succ_cons,byteScan_cons,byteNext_hashed hp]
      by_cases hma : hi ≤ pos + 1
      · obtain rfl : hi = pos + 1 := by omega
        simp [byteStop]
      · have hs : byteStop G lo hi mask (pos,h) b = false := by simp [byteStop,hfi,hma]
        have hm' : ∀ k, (G.nextMatch (G.step mask h b) bs mask).1 = some k → n < k := by
          intro k hk
          have := hm (k + 1) (by simp [G.nextMatch_cons,hfi,hk])
          omega
        have hr := ih (show skipped lo ≤ pos + 1 by omega) (by omega) hm' (by simpa using hn)
        rw [hr,hs]
        by_cases he : hi ≤ pos + 1 + n
        · simp only [he,show hi ≤ pos + (n + 1) by omega,↓reduceIte,Bool.false_eq_true,Option.map_some]
          congr 1
          omega
        · simp [he,show ¬hi ≤ pos + (n + 1) by omega]

theorem byteScan_of_nextMatch {m : ℕ}
    (hm : (G.nextMatch h data mask).1 = some m) (hlo : lo ≤ pos + m) (hhi : pos + m ≤ hi) :
    byteScan G lo hi mask (pos,h) data = some m := by
  induction data generalizing pos h m with
  | nil => simp [G.nextMatch_nil] at hm
  | cons b bs ih =>
    rw [byteScan_cons,byteNext_hashed hp]
    rw [G.nextMatch_cons] at hm
    split_ifs at hm with hf
    · obtain rfl : 1 = m := by simpa using hm
      simp [byteStop,hlo,hf]
    · obtain ⟨k,hk,rfl⟩ := Option.map_eq_some_iff.mp hm
      have hp' := (G.nextMatch_bounds hk).1
      have hs : byteStop G lo hi mask (pos,h) b = false := by
        simp [byteStop,hf,show ¬hi ≤ pos + 1 by omega]
      rw [hs,ih (by omega) hk (by omega) (by omega)]
      rfl

end

end Machine

namespace Chunker
variable (c : Chunker G) {data : Bytes}

def rule : CutRule UInt8 := byteRule G c.minimumChunk c.maximumChunk c.mask

/-- Where the machine stops when it goes on from the buffered bytes. -/
abbrev stopsAt (data : Bytes) : Option ℕ :=
  byteScan G c.minimumChunk c.maximumChunk c.mask (c.chunkbuf.length,c.hash) data

abbrev stateAfter (data : Bytes) : ℕ × G.State :=
  byteAfter G c.minimumChunk c.mask (c.chunkbuf.length,c.hash) data

/-- What the search finds, compared with the machine on the part of the data that may be read. -/
def MatchFound (readEnd curIndex : ℕ) (s : ℕ × G.State) (segment : Bytes)
    (r : ℕ × Bool × G.State) : Prop :=
  match byteScan G c.minimumChunk c.maximumChunk c.mask s segment with
  | some n => if c.maximumChunk ≤ r.1 + c.chunkbuf.length then curIndex + n + c.chunkbuf.length =
      c.maximumChunk
    else r.2.1 = true ∧ r.1 = curIndex + n
  | none => r = (readEnd,false,(byteAfter G c.minimumChunk c.mask s segment).2) ∧
    readEnd + c.chunkbuf.length < c.maximumChunk

theorem matchLoop_spec (data : Bytes) {readEnd fuel curIndex : ℕ} (hash : G.State)
    (hfu : readEnd < curIndex + fuel) (he : readEnd ≤ data.length) (hc : curIndex ≤ readEnd)
    (hsk : skipped c.minimumChunk ≤ c.chunkbuf.length + curIndex)
    (hmx : c.chunkbuf.length + curIndex < c.maximumChunk) (hlt : c.minimumChunk < c.maximumChunk) :
    MatchFound c readEnd curIndex (c.chunkbuf.length + curIndex,hash) ((data.take readEnd).drop curIndex)
      (matchLoop c data readEnd fuel curIndex hash) := by
  induction fuel generalizing curIndex hash with
  | zero => omega
  | succ fuel ih =>
    set segment := (data.take readEnd).drop curIndex with hse
    have hsg : segment.length = readEnd - curIndex := by
      rw [hse,length_drop,length_take]
      omega
    have ha := byteAfter_nextMatch hsk c.mask hash segment
    unfold matchLoop
    cases hm : G.nextMatch hash segment c.mask with
    | mk r hash' =>
      rw [hm] at ha
      cases r with
      | none =>
        have hne : ∀ k, (G.nextMatch hash segment c.mask).1 = some k → segment.length < k := by
          rw [hm]
          simp
        have hs := byteScan_take_nextMatch hsk hmx hne le_rfl
        simp only [Option.getD_none,take_length] at ha hs
        unfold MatchFound
        rw [hs,ha]
        by_cases hr : c.maximumChunk ≤ c.chunkbuf.length + curIndex + segment.length
        · simp only [hr,↓reduceIte,show c.maximumChunk ≤ readEnd + c.chunkbuf.length by omega]
          omega
        · simp only [hr]
          exact ⟨trivial,by omega⟩
      | some m =>
        have hma : (G.nextMatch hash segment c.mask).1 = some m := by rw [hm]
        have hb := G.nextMatch_bounds hma
        simp only [Option.getD_some] at ha
        dsimp only
        split
        · -- a match before the minimum is passed over
          have hn : MatchFound c readEnd (curIndex + m) (c.chunkbuf.length + (curIndex + m),hash')
              ((data.take readEnd).drop (curIndex + m))
                (matchLoop c data readEnd fuel (curIndex + m) hash') :=
            ih hash' (by omega) (by omega) (by omega) (by omega)
          have hno : byteScan G c.minimumChunk c.maximumChunk c.mask (c.chunkbuf.length + curIndex,hash)
              (segment.take m) = none := by
            apply byteScan_of_lt hlt
            rw [length_take]
            omega
          have hs := byteScan_append_of_none hno (segment.drop m)
          have hal : byteAfter G c.minimumChunk c.mask (c.chunkbuf.length + curIndex,hash)
              (segment.take m ++ segment.drop m) = _ := byteAfter_append _ _ _
          rw [ha,take_append_drop,Nat.add_assoc] at hs hal
          rw [length_take,Nat.min_eq_left hb.2] at hs
          rw [← drop_drop,← hse] at hn
          unfold MatchFound at hn ⊢
          rw [hs,hal]
          cases hre : byteScan G c.minimumChunk c.maximumChunk c.mask
              (c.chunkbuf.length + (curIndex + m),hash') (segment.drop m) with
          | none => rwa [hre] at hn
          | some n =>
            rw [hre] at hn
            simpa [Nat.add_assoc,Nat.add_comm m n] using hn
        · unfold MatchFound
          by_cases hr : c.maximumChunk < c.chunkbuf.length + curIndex + m
          · have hfi : ∀ k, (G.nextMatch hash segment c.mask).1 = some k → m - 1 < k := by
              rw [hm]
              simp
              omega
            have hs := byteScan_take_nextMatch hsk hmx hfi (by omega)
            rw [if_pos (by omega)] at hs
            have hf := byteScan_append_of_some hs (segment.drop (m - 1))
            rw [take_append_drop] at hf
            simp only [hf,show c.maximumChunk ≤ curIndex + m + c.chunkbuf.length by omega,↓reduceIte]
            omega
          · rw [byteScan_of_nextMatch hsk hma (by omega) (show _ ≤ c.maximumChunk by omega)]
            dsimp only
            split
            · omega
            · exact ⟨rfl,rfl⟩

/-- The buffer leaves room for a byte. -/
structure Bounded (c : Chunker G) : Prop where
  lt : c.minimumChunk < c.maximumChunk
  length_lt : c.chunkbuf.length < c.maximumChunk

/-- Between two calls the chunker is where the machine is after the buffered bytes. -/
structure Synced (c : Chunker G) : Prop where
  lt : c.minimumChunk < c.maximumChunk
  hash_eq : c.hash = (byteAfter G c.minimumChunk c.mask (0,G.init) c.chunkbuf).2
  cut_eq : c.rule.cut c.chunkbuf = none

section
variable {c} (h : Synced c)
include h

theorem Synced.length_lt : c.chunkbuf.length < c.maximumChunk := by
  have hlt := h.lt
  have := (byteScan_length (show 0 < c.maximumChunk by omega)).1 h.cut_eq
  simpa using this

theorem Synced.bounded : Bounded c := ⟨h.lt,h.length_lt⟩

theorem Synced.after_eq : byteAfter G c.minimumChunk c.mask (0,G.init) c.chunkbuf =
    (c.chunkbuf.length,c.hash) := by
  rw [h.hash_eq]
  exact Prod.ext (by simp) rfl

theorem Synced.cut_append (data : Bytes) : c.rule.cut (c.chunkbuf ++ data) =
      (c.stopsAt data).map
        (· + c.chunkbuf.length) := by
  have hs := byteScan_append_of_none (h.cut_eq : byteScan G _ _ _ _ _ = none) data
  rwa [h.after_eq] at hs

end

def skip (c : Chunker G) (data : Bytes) : ℕ :=
  if c.chunkbuf.length + hashWindowSize < c.minimumChunk then
    min (c.minimumChunk - c.chunkbuf.length - hashWindowSize - 1) data.length
  else 0

def readEnd (c : Chunker G) (data : Bytes) : ℕ :=
  min data.length (c.skip data + c.maximumChunk - c.chunkbuf.length)

theorem skip_le (data : Bytes) : c.skip data ≤ data.length ∧
      (c.skip data = 0 ∨ c.chunkbuf.length + c.skip data ≤ skipped c.minimumChunk ∧ 64 < c.minimumChunk) ∧
      (c.skip data = data.length ∨ skipped c.minimumChunk ≤ c.chunkbuf.length + c.skip data) := by
  unfold skip skipped hashWindowSize
  split <;> omega

theorem Bounded.search {c : Chunker G} (h : Bounded c) (data : Bytes) :
    MatchFound c (c.readEnd data) (c.skip data) (c.chunkbuf.length + c.skip data,c.hash)
      (data.drop (c.skip data))
      (matchLoop c data (c.readEnd data) (c.readEnd data + 1) (c.skip data) c.hash) := by
  have hlt := h.lt
  have hlen := h.length_lt
  obtain ⟨hle,hz,hd⟩ := c.skip_le data
  have hsk : c.chunkbuf.length + c.skip data < c.maximumChunk := by
    unfold skipped at hz
    omega
  have he : c.readEnd data ≤ data.length ∧ c.skip data ≤ c.readEnd data := by
    unfold readEnd
    omega
  rcases hd with hd | hd
  · -- the data ends among the skipped bytes
    have hR : c.readEnd data = data.length := by
      omega
    have hn : (data.take (c.readEnd data)).drop (c.skip data) = [] := by
      rw [hR,take_length,hd,drop_length]
    have hl : matchLoop c data (c.readEnd data) (c.readEnd data + 1) (c.skip data) c.hash =
        (c.readEnd data,false,c.hash) := by
      rw [matchLoop,hn,G.nextMatch_nil]
    rw [hl,drop_of_length_le (by omega)]
    exact ⟨rfl,by omega⟩
  · have hs := matchLoop_spec c data c.hash
      (show c.readEnd data < c.skip data + (c.readEnd data + 1) by omega)
      he.1 he.2 hd hsk hlt
    by_cases hR : c.readEnd data = data.length
    · rwa [hR,take_length,← hR] at hs
    · -- the search stops at the maximum, whatever follows
      have hse : (data.take (c.readEnd data)).drop (c.skip data) =
          (data.drop (c.skip data)).take (c.maximumChunk - c.chunkbuf.length) := by
        rw [drop_take]
        congr 1
        unfold readEnd at hR ⊢
        omega
      rw [hse] at hs
      set front := (data.drop (c.skip data)).take (c.maximumChunk - c.chunkbuf.length) with hf
      have hfr : front.length = c.maximumChunk - c.chunkbuf.length := by
        rw [hf,length_take,length_drop]
        unfold readEnd at hR
        omega
      cases hsc : byteScan G c.minimumChunk c.maximumChunk c.mask (c.chunkbuf.length + c.skip data,c.hash)
          front with
      | none =>
        have := (byteScan_length hsk).1 hsc
        omega
      | some n =>
        have hfu := byteScan_append_of_some hsc
          ((data.drop (c.skip data)).drop (c.maximumChunk - c.chunkbuf.length))
        rw [hf,take_append_drop] at hfu
        unfold MatchFound at hs ⊢
        rw [hsc] at hs
        rw [hfu]
        exact hs

theorem Bounded.scan_eq {c : Chunker G} (h : Bounded c) (data : Bytes) : c.stopsAt data =
        (byteScan G c.minimumChunk c.maximumChunk c.mask (c.chunkbuf.length + c.skip data,c.hash)
          (data.drop (c.skip data))).map (· + c.skip data) ∧
      c.stateAfter data =
        byteAfter G c.minimumChunk c.mask (c.chunkbuf.length + c.skip data,c.hash)
          (data.drop (c.skip data)) := by
  obtain ⟨hle,hz,_⟩ := c.skip_le data
  rcases hz with hz | ⟨hsk,hm⟩
  · simp [hz]
  · have hlen : (data.take (c.skip data)).length = c.skip data := by
      rw [length_take]
      omega
    have haf : byteAfter G _ c.mask (_,c.hash) (data.take (c.skip data)) = _ :=
      byteAfter_skip (by rwa [hlen])
    have hn : c.stopsAt (data.take (c.skip data)) = none := by
      apply byteScan_of_lt h.lt
      unfold skipped at hsk
      omega
    have hs := byteScan_append_of_none hn (data.drop (c.skip data))
    have ha : c.stateAfter (data.take (c.skip data) ++ data.drop (c.skip data)) = _ :=
      byteAfter_append _ _ _
    rw [take_append_drop,haf,hlen] at hs ha
    exact ⟨hs,ha⟩

theorem nextBoundary_eq (hd : data ≠ []) : c.nextBoundary data =
    let r := matchLoop c data (c.readEnd data) (c.readEnd data + 1) (c.skip data) c.hash
    if r.1 + c.chunkbuf.length ≥ c.maximumChunk then
      (some (c.maximumChunk - c.chunkbuf.length),{ c with hash := G.init })
    else if r.2.1 then (some r.1,{ c with hash := G.init })
    else (none,{ c with hash := r.2.2 }) := by
  unfold nextBoundary
  rw [if_neg (by simpa using hd)]
  rfl

section
variable {c}

/-- The boundary is found where the machine stops. -/
theorem Bounded.nextBoundary_some (h : Bounded c) (hn : c.stopsAt data = some n) :
    c.nextBoundary data = (some n,{ c with hash := G.init }) := by
  have hd : data ≠ [] := ne_nil_of_length_pos (by have := scan_bounds _ _ hn; omega)
  have hs := h.search data
  rw [(h.scan_eq data).1] at hn
  obtain ⟨k,hk,rfl⟩ := Option.map_eq_some_iff.mp hn
  unfold MatchFound at hs
  rw [hk] at hs
  rw [nextBoundary_eq c hd]
  dsimp only at hs ⊢
  split_ifs at hs with hm
  · rw [if_pos hm]
    congr 2
    omega
  · rw [if_neg hm,if_pos hs.1,hs.2,Nat.add_comm]

theorem Bounded.nextBoundary_none (h : Bounded c) (hn : c.stopsAt data = none) :
    c.nextBoundary data =
      (none,{ c with hash := (c.stateAfter data).2 }) := by
  by_cases hd : data = []
  · simp [hd,nextBoundary]
  · have hs := h.search data
    rw [(h.scan_eq data).1,Option.map_eq_none_iff] at hn
    unfold MatchFound at hs
    rw [hn] at hs
    obtain ⟨hr,hm⟩ := hs
    rw [nextBoundary_eq c hd,(h.scan_eq data).2,hr]
    simp [show ¬c.maximumChunk ≤ c.readEnd data + c.chunkbuf.length by omega]

end

end Chunker
end XetCore.Chunking
