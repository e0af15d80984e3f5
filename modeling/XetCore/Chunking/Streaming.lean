import XetCore.Chunking.Gear

/-! # Chunking a stream

Every call that does not end the file cuts what is complete and buffers the rest, so
pieces of any size, handed over in any way, give the chunks of the whole.
-/
namespace XetCore.Chunking
open StreamCut List
variable {G : GearHasher} {H : Type} {D : Bytes → H}

namespace Chunker
variable (c : Chunker G) {data : Bytes} {r : List (Chunk H) × Chunker G} {fuel : ℕ}

def restart (c : Chunker G) : Chunker G := { c with hash := G.init, chunkbuf := [] }

@[simp] theorem restart_rule : c.restart.rule = c.rule := rfl
@[simp] theorem restart_chunkbuf : c.restart.chunkbuf = [] := rfl
@[simp] theorem restart_resetState : c.restart.resetState = c.restart := rfl

theorem Synced.restart {c : Chunker G} (h : Synced c) : Synced c.restart := ⟨h.lt,rfl,c.rule.cut_nil⟩

def buffered (c : Chunker G) (buffer : Bytes) : Chunker G :=
  { c with hash := (byteAfter G c.minimumChunk c.mask (0,G.init) buffer).2, chunkbuf := buffer }

@[simp] theorem buffered_rule (buffer : Bytes) : (c.buffered buffer).rule = c.rule := rfl
@[simp] theorem buffered_chunkbuf (buffer : Bytes) : (c.buffered buffer).chunkbuf = buffer := rfl

section Next
variable {c}

theorem Bounded.next_some (h : Bounded c) {n : ℕ} (isFinal : Bool) (hn : c.stopsAt data = some n) :
    c.next D data isFinal = ((some (.new D (c.chunkbuf ++ data.take n)),n),c.restart) := by
  have hb := MachineCut.scan_bounds _ _ hn
  have hd : data ≠ [] := ne_nil_of_length_pos (by omega)
  unfold next
  rw [h.nextBoundary_some hn]
  by_cases hbu : c.chunkbuf = []
  · simp [hbu,Chunker.restart,hd,show n ≠ 0 by omega]
  · simp [hbu,Chunker.restart]

theorem Bounded.next_none (h : Bounded c) (hn : c.stopsAt data = none) :
    c.next D data false = ((none,data.length),{ c with
      hash := (c.stateAfter data).2
      chunkbuf := c.chunkbuf ++ data }) := by
  unfold next
  rw [h.nextBoundary_none hn]
  rfl

theorem Bounded.next_final (h : Bounded c) (hn : c.stopsAt data = none) :
    c.next D data true = ((if c.chunkbuf ++ data = [] then (none,0)
      else (some (.new D (c.chunkbuf ++ data)),data.length)),c.restart) := by
  unfold next
  rw [h.nextBoundary_none hn]
  by_cases hb : c.chunkbuf = []
  · by_cases hd : data = [] <;> simp [hb,resetState,Chunker.restart]
  · simp [hb,resetState,Chunker.restart]

end Next

/-- The chunks of the buffered bytes and the data, with the rest of them in the end or in the
buffer. -/
def cutAll (D : Bytes → H) (c : Chunker G) (isFinal : Bool) (all : Bytes) : List (Chunk H) × Chunker G :=
  if isFinal then ((pieces c.rule all).map (.new D),c.restart)
  else ((split c.rule all).1.map (.new D),c.buffered (split c.rule all).2)

variable {c : Chunker G} {isFinal : Bool} {all : Bytes} {n : ℕ} {C : Constants} {target : ℕ}

theorem cutAll_of_some (hn : c.rule.cut all = some n) : c.cutAll D isFinal all =
    (.new D (all.take n) :: (c.restart.cutAll D isFinal (all.drop n)).1,
      (c.restart.cutAll D isFinal (all.drop n)).2) := by
  cases isFinal
  · simp only [cutAll,split_of_some _ hn]
    rfl
  · simp only [cutAll,pieces_of_some _ hn]
    rfl

theorem cutAll_of_none (hn : c.rule.cut all = none) : c.cutAll D isFinal all =
    (if isFinal ∧ all ≠ [] then [.new D all] else [],if isFinal then c.restart else c.buffered all) := by
  cases isFinal
  · simp [cutAll,split_of_none _ hn]
  · by_cases ha : all = [] <;> simp [cutAll,pieces_of_none _ hn,ha]

section
variable (h : Synced c)
include h

theorem Synced.eq_buffered : c = c.buffered c.chunkbuf := by
  cases c
  simp only [Chunker.buffered,Chunker.mk.injEq,and_true]
  exact h.hash_eq

theorem Synced.buffered_append : ({ c with
      hash := (c.stateAfter data).2
      chunkbuf := c.chunkbuf ++ data } : Chunker G) = c.buffered (c.chunkbuf ++ data) := by
  rw [Chunker.buffered,byteAfter_append,h.after_eq]

/-- A boundary is the end of the first chunk of the buffered bytes and the data. -/
theorem Synced.scan_cases (data : Bytes) : (c.stopsAt data = none ∧
      c.rule.cut (c.chunkbuf ++ data) = none) ∨
    ∃ n, c.stopsAt data = some n ∧
      ∀ isFinal, c.cutAll D isFinal (c.chunkbuf ++ data) =
        (.new D (c.chunkbuf ++ data.take n) :: (c.restart.cutAll D isFinal (data.drop n)).1,
          (c.restart.cutAll D isFinal (data.drop n)).2) := by
  have hc := h.cut_append data
  cases hn : c.stopsAt data with
  | none => exact .inl ⟨rfl,by rw [hc,hn]; rfl⟩
  | some n =>
    rw [hn] at hc
    refine .inr ⟨n,rfl,fun isFinal => ?_⟩
    rw [cutAll_of_some hc]
    dsimp only
    rw [Nat.add_comm,take_length_add_append,drop_length_add_append]

theorem Synced.cutAll_nil (he : isFinal = true → c.chunkbuf = []) :
    c.cutAll D isFinal (c.chunkbuf ++ []) = ([],if isFinal then c.resetState else c) := by
  rw [append_nil,cutAll_of_none h.cut_eq,← h.eq_buffered]
  cases isFinal with
  | false => rfl
  | true => simp [he rfl,resetState,Chunker.restart]

omit h in
@[simp] theorem nextBlockLoop_nil (isFinal : Bool) (fuel : ℕ) (c : Chunker G) :
    nextBlockLoop D isFinal fuel c [] = ([],if isFinal then c.resetState else c) := by
  cases fuel <;> simp [nextBlockLoop]

theorem Synced.nextBlockLoop_eq (isFinal : Bool) (hf : data.length ≤ fuel)
    (he : isFinal = true → data = [] → c.chunkbuf = []) :
    nextBlockLoop D isFinal fuel c data = c.cutAll D isFinal (c.chunkbuf ++ data) := by
  induction fuel generalizing c data with
  | zero =>
    obtain rfl := length_eq_zero_iff.mp (Nat.le_zero.mp hf)
    rw [h.cutAll_nil fun hl => he hl rfl,nextBlockLoop_nil]
  | succ fuel ih =>
    unfold nextBlockLoop
    by_cases hd : data = []
    · subst hd
      rw [h.cutAll_nil fun hl => he hl rfl]
      rfl
    · rw [if_neg (by simpa using hd)]
      rcases h.scan_cases (D := D) data with ⟨hn,hc⟩ | ⟨n,hn,hc⟩
      · rw [cutAll_of_none hc]
        cases isFinal with
        | false =>
          rw [h.bounded.next_none hn,h.buffered_append]
          simp
        | true =>
          rw [h.bounded.next_final hn,if_neg (by simp [hd])]
          simp [hd,resetState,Chunker.restart]
      · have hb := MachineCut.scan_bounds _ _ hn
        have hr := ih h.restart (show (data.drop n).length ≤ fuel by rw [length_drop]; omega)
          fun _ _ => rfl
        dsimp only
        rw [h.bounded.next_some isFinal hn,hc,hr]
        rfl

theorem Synced.sliceLoop_eq (isFinal : Bool) (hbu : c.chunkbuf = []) (hf : data.length < fuel) :
    ((sliceLoop D isFinal fuel c data).1,if isFinal then (sliceLoop D isFinal fuel c data).2.resetState
      else (sliceLoop D isFinal fuel c data).2) = c.cutAll D isFinal (c.chunkbuf ++ data) := by
  induction fuel generalizing c data with
  | zero => omega
  | succ fuel ih =>
    unfold sliceLoop
    by_cases hd : data = []
    · subst hd
      rw [h.cutAll_nil fun _ => hbu]
      rfl
    · rw [if_neg (by simpa using hd)]
      rcases h.scan_cases (D := D) data with ⟨hn,hc⟩ | ⟨n,hn,hc⟩
      · rw [cutAll_of_none hc,← h.buffered_append,h.bounded.nextBoundary_none hn]
        cases isFinal with
        | false => rfl
        | true => simp [hd,hbu,resetState,Chunker.restart]
      · have hb := MachineCut.scan_bounds _ _ hn
        have hr : ({ c with hash := G.init } : Chunker G) = c.restart := by rw [Chunker.restart,← hbu]
        have hre := ih h.restart rfl (show (data.drop n).length < fuel by rw [length_drop]; omega)
        rw [h.bounded.nextBoundary_some hn,hc,hr,hbu,nil_append,← nil_append (data.drop n)]
        rw [restart_chunkbuf,nil_append] at hre
        rw [nil_append,← hre]

theorem Synced.nextBlock_eq (data : Bytes) (he : isFinal = true → data = [] → c.chunkbuf = []) :
    c.nextBlock D data isFinal = c.cutAll D isFinal (c.chunkbuf ++ data) :=
  h.nextBlockLoop_eq isFinal le_rfl he

theorem Synced.nextBlock_pieces (hb : c.chunkbuf = []) (data : Bytes) :
    (c.nextBlock D data true).1 = (pieces c.rule data).map (.new D) := by
  rw [h.nextBlock_eq data fun _ _ => hb,hb]
  rfl

theorem Synced.finish_eq : (c.finish D).1.toList = (if c.chunkbuf = [] then []
    else [c.chunkbuf]).map (.new D) := by
  unfold finish
  have hn := h.bounded.next_final (D := D)
    (show byteScan G _ _ _ (c.chunkbuf.length,c.hash) [] = none from rfl)
  rw [hn,append_nil]
  split <;> rfl

end

theorem Synced.cutAll (h : Synced c) (D : Bytes → H) (isFinal : Bool) (all : Bytes) :
    Synced (c.cutAll D isFinal all).2 := by
  cases isFinal with
  | false => exact ⟨h.lt,rfl,split_rest_cut _ _⟩
  | true => exact h.restart

/-- The hash belongs to the buffered bytes if there are none. -/
structure Steady (c : Chunker G) : Prop extends Bounded c where
  hash_eq : c.chunkbuf = [] → c.hash = G.init

theorem Synced.steady (h : Synced c) : Steady c where
  toBounded := h.bounded
  hash_eq hb := by
    rw [h.hash_eq,hb]
    rfl

namespace Steady

theorem restart (h : Steady c) : Synced c.restart := ⟨h.lt,rfl,CutRule.cut_nil _⟩

theorem of_none (h : Steady c) (hd : data ≠ []) (hn : c.stopsAt data = none) (s : G.State) :
    Steady { c with hash := s, chunkbuf := c.chunkbuf ++ data } where
  lt := h.lt
  length_lt := by
    rw [length_append]
    exact (byteScan_length h.length_lt).1 hn
  hash_eq he := absurd (append_eq_nil_iff.mp he).2 hd

/-- Both calls give the same, and in the end all bytes, whether or not the hash belongs to the
buffered bytes. -/
theorem calls (h : Steady c) (data : Bytes) (he : isFinal = true → data = [] → c.chunkbuf = []) :
    c.nextBlockBytes D data isFinal = c.nextBlock D data isFinal ∧ Steady (c.nextBlock D data isFinal).2 ∧
      (isFinal = true → ((c.nextBlock D data isFinal).1.map Chunk.data).flatten =
        c.chunkbuf ++ data) := by
  have hf (all : Bytes) : ((pieces c.rule all).map (Chunk.data ∘ Chunk.new D)).flatten = all := by
    rw [show Chunk.data ∘ Chunk.new D = id from rfl,map_id,pieces_flatten]
  by_cases hbu : c.chunkbuf = []
  · have hs : Synced c := by
      rw [show c = c.restart by rw [Chunker.restart,← h.hash_eq hbu,← hbu]]
      exact h.restart
    have hsl := hs.sliceLoop_eq (D := D) isFinal hbu (Nat.lt_succ_self data.length)
    rw [hs.nextBlock_eq data he,← hsl]
    refine ⟨by simp [nextBlockBytes,hbu],hsl ▸ (hs.cutAll D isFinal _).steady,?_⟩
    rintro rfl
    rw [hsl,Chunker.cutAll,if_pos rfl,map_map,hf]
  · by_cases hd : data = []
    · subst hd
      cases isFinal with
      | true => exact absurd (he rfl rfl) hbu
      | false => exact ⟨by simp [nextBlockBytes,nextBlock,sliceLoop,Chunker.next,nextBoundary],h,nofun⟩
    · obtain ⟨k,hk⟩ : ∃ k, data.length = k + 1 :=
        ⟨data.length - 1,by have := length_pos_iff.mpr hd; omega⟩
      rw [nextBlockBytes,if_neg (by simpa using hbu),nextBlock,hk,nextBlockLoop,
        if_neg (show ¬data.isEmpty by simpa using hd)]
      dsimp only
      cases hn : c.stopsAt data with
      | none =>
        cases isFinal with
        | false =>
          rw [h.next_none hn]
          exact ⟨by simp [sliceLoop],by simpa using h.of_none hd hn _,nofun⟩
        | true =>
          rw [h.next_final hn,if_neg (by simp [hd])]
          exact ⟨by simp [sliceLoop],by simpa using h.restart.steady,fun _ => by simp [Chunk.new]⟩
      | some n =>
        have hb := MachineCut.scan_bounds _ _ hn
        have hl := h.restart.nextBlockLoop_eq (D := D) isFinal
          (show (data.drop n).length ≤ k by rw [length_drop]; omega)
          fun _ _ => rfl
        have hsl := h.restart.sliceLoop_eq (D := D) isFinal rfl
          (show (data.drop n).length < k + 1 + 1 by rw [length_drop]; omega)
        rw [h.next_some isFinal hn,hl,← hsl]
        refine ⟨rfl,hsl ▸ (h.restart.cutAll D isFinal _).steady,?_⟩
        rintro rfl
        rw [hsl,Chunker.cutAll,if_pos rfl,map_append,flatten_append,map_map]
        have hr : ((pieces c.rule (data.drop n)).map (Chunk.data ∘ Chunk.new D)).flatten =
          data.drop n := hf _
        simp [hr,Chunk.new]

theorem next (h : Steady c) (data : Bytes) (isFinal : Bool) : Steady (c.next D data isFinal).2 := by
  cases hn : c.stopsAt data with
  | some n =>
    rw [h.next_some isFinal hn]
    exact h.restart.steady
  | none =>
    cases isFinal with
    | true =>
      rw [h.next_final hn]
      exact h.restart.steady
    | false =>
      rw [h.next_none hn]
      by_cases hd : data = []
      · subst hd
        simpa using h
      · exact h.of_none hd hn _

end Steady

theorem Synced.nextBlockBytes_eq (h : Synced c) (data : Bytes) (he : isFinal = true → data = [] →
    c.chunkbuf = []) :
    c.nextBlockBytes D data isFinal = c.cutAll D isFinal (c.chunkbuf ++ data) :=
  (h.steady.calls data he).1.trans (h.nextBlock_eq data he)

/-- The ways in which a caller hands over a piece of the data. -/
inductive FeedMode where
  | next
  | nextBlock
  | nextBlockBytes
deriving DecidableEq, Repr

/-- A caller of `next` hands over what is left of the piece until nothing is left. -/
def feed (D : Bytes → H) (c : Chunker G) : FeedMode → Bytes → List (Chunk H) × Chunker G
  | .next, data => nextBlockLoop D false data.length c data
  | .nextBlock, data => c.nextBlock D data false
  | .nextBlockBytes, data => c.nextBlockBytes D data false

def feedAll (D : Bytes → H) (c : Chunker G) : List (FeedMode × Bytes) → List (Chunk H) × Chunker G
  | [] => ([],c)
  | (mode,data) :: rest =>
    let r := c.feed D mode data
    (r.1 ++ (feedAll D r.2 rest).1,(feedAll D r.2 rest).2)

theorem Synced.feed_eq (h : Synced c) (mode : FeedMode) (data : Bytes) :
    c.feed D mode data = c.cutAll D false (c.chunkbuf ++ data) := by
  cases mode with
  | next => exact h.nextBlockLoop_eq false le_rfl nofun
  | nextBlock => exact h.nextBlock_eq data nofun
  | nextBlockBytes => exact h.nextBlockBytes_eq data nofun

def joined (feeds : List (FeedMode × Bytes)) : Bytes := (feeds.map Prod.snd).flatten

theorem Synced.feedAll_eq (h : Synced c) (feeds : List (FeedMode × Bytes)) :
    c.feedAll D feeds = c.cutAll D false (c.chunkbuf ++ joined feeds) := by
  induction feeds generalizing c with
  | nil => exact (h.cutAll_nil (fun hf => absurd hf Bool.false_ne_true)).symm
  | cons feed rest ih =>
    obtain ⟨mode,data⟩ := feed
    have hj : c.chunkbuf ++ joined ((mode,data) :: rest) = c.chunkbuf ++ data ++ joined rest := by
      simp [joined]
    have hr := ih (h.cutAll D false (c.chunkbuf ++ data))
    rw [feedAll,h.feed_eq mode data,hr,hj,Chunker.cutAll,Chunker.cutAll,Chunker.cutAll]
    simp only [split_append c.rule (c.chunkbuf ++ data) (joined rest),map_append]
    rfl

def run (D : Bytes → H) (c : Chunker G) (feeds : List (FeedMode × Bytes)) : List (Chunk H) :=
  (c.feedAll D feeds).1 ++ ((c.feedAll D feeds).2.finish D).1.toList

theorem new_eq (hc : new G C target = some c) :
    target / C.minimumChunkDivisor < target * C.maximumChunkMultiplier ∧
      c = { hash := G.init
            minimumChunk := target / C.minimumChunkDivisor
            maximumChunk := target * C.maximumChunkMultiplier
            mask := shiftedMask target
            chunkbuf := [] } := by
  unfold new at hc
  split at hc
  · cases hc
  split at hc
  · cases hc
  split at hc
  · cases hc
  split at hc
  · cases hc
  split at hc
  · cases hc
  · rename_i hlt
    exact ⟨not_not.mp hlt,(Option.some.inj hc).symm⟩

theorem new_synced (hc : new G C target = some c) : Synced c ∧ c.chunkbuf = [] := by
  obtain ⟨hlt,rfl⟩ := new_eq hc
  exact ⟨⟨hlt,rfl,CutRule.cut_nil _⟩,rfl⟩

theorem cut_length_bounds (hlt : c.minimumChunk < c.maximumChunk)
    (h : c.rule.cut data = some n) : c.minimumChunk ≤ n ∧ n ≤ c.maximumChunk := by
  have hb := (byteScan_length (show 0 < c.maximumChunk by omega)).2 n h
  simp only [Nat.zero_add] at hb
  exact ⟨hb.2 hlt.le,hb.1⟩

/-- However the data is handed over, the chunks are those of the whole; they make up the data,
their sizes keep the bounds, and the buffer stays below the maximum. -/
theorem run_eq_whole (D : Bytes → H) {C : Constants} {target : ℕ} {c : Chunker G}
    (hc : new G C target = some c) (feeds : List (FeedMode × Bytes)) :
    c.run D feeds = (c.nextBlock D (joined feeds) true).1 ∧
      c.run D feeds = (c.nextBlockBytes D (joined feeds) true).1 ∧
      ((c.run D feeds).map Chunk.data).flatten = joined feeds ∧
      (∀ x ∈ (c.run D feeds).dropLast, c.minimumChunk ≤ x.data.length ∧ x.data.length ≤ c.maximumChunk) ∧
      (∀ x ∈ (c.run D feeds).getLast?, 1 ≤ x.data.length ∧ x.data.length ≤ c.maximumChunk) ∧
      ∀ k, (c.feedAll D (feeds.take k)).2.chunkbuf.length < c.maximumChunk := by
  obtain ⟨hsync,hbuf⟩ := new_synced hc
  have hrun : c.run D feeds = (pieces c.rule (c.chunkbuf ++ joined feeds)).map (.new D) := by
    rw [run,hsync.feedAll_eq,(hsync.cutAll D false _).finish_eq,pieces,map_append]
    rfl
  have hwhole : c.cutAll D true (c.chunkbuf ++ joined feeds) = (c.run D feeds,c.restart) := by
    rw [hrun]; rfl
  rw [hsync.nextBlock_eq _ fun _ _ => hbuf,hsync.nextBlockBytes_eq _ fun _ _ => hbuf,hwhole]
  rw [hbuf,nil_append] at hrun
  refine ⟨rfl,rfl,?_,?_,?_,?_⟩
  · have hdata : Chunk.data ∘ Chunk.new D = id := rfl
    rw [hrun,map_map,hdata,map_id,pieces_flatten]
  · intro x hx
    rw [hrun,← map_dropLast] at hx
    obtain ⟨p,hp,rfl⟩ := mem_map.mp hx
    exact cut_length_bounds hsync.lt (cut_of_mem_dropLast_pieces _ hp)
  · intro x hx
    rw [hrun,getLast?_map] at hx
    obtain ⟨p,hp,rfl⟩ := Option.map_eq_some_iff.mp hx
    have hmem := mem_of_getLast? hp
    refine ⟨length_pos_iff.mpr (pieces_ne_nil _ _ p hmem),?_⟩
    rcases cut_of_mem_pieces _ hmem with hcut | hcut
    · exact (cut_length_bounds hsync.lt hcut).2
    · have hlt := hsync.lt
      have := (byteScan_length (show 0 < c.maximumChunk by omega)).1 hcut
      simp only [Nat.zero_add] at this
      exact this.le
  · intro k
    rw [hsync.feedAll_eq]
    exact (hsync.cutAll D false (c.chunkbuf ++ joined (feeds.take k))).length_lt

/-- The states that a chunker reaches by calls in any order, with and without the end of the file.
-/
inductive Reachable (D : Bytes → H) (C : Constants) : Chunker G → Prop
  | new {target : ℕ} {c : Chunker G} : new G C target = some c → Reachable D C c
  | next {c : Chunker G} (data : Bytes) (isFinal : Bool) : Reachable D C c →
    Reachable D C (c.next D data isFinal).2
  | nextBlock {c : Chunker G} (data : Bytes) (isFinal : Bool) :
    Reachable D C c → Reachable D C (c.nextBlock D data isFinal).2
  | nextBlockBytes {c : Chunker G} (data : Bytes) (isFinal : Bool) :
    Reachable D C c → Reachable D C (c.nextBlockBytes D data isFinal).2

theorem Steady.nextBlock_end (h : Steady c) (hb : c.chunkbuf ≠ []) :
    c.nextBlock D [] true = ([],c.resetState) ∧
    c.nextBlockBytes D [] true = ([.new D c.chunkbuf],c.restart) := by
  have hn := h.next_final (D := D) (show byteScan G _ _ _ _ [] = none from rfl)
  rw [append_nil,if_neg hb] at hn
  refine ⟨nextBlockLoop_nil true 0 c,?_⟩
  rw [nextBlockBytes,if_neg (by simpa using hb),hn]
  rfl

theorem Reachable.steady (h : Reachable D C c) : Steady c := by
  induction h with
  | new hc => exact (new_synced hc).1.steady
  | next data isFinal _ ih => exact ih.next data isFinal
  | @nextBlock c data isFinal _ ih =>
    by_cases he : isFinal = true ∧ data = [] ∧ c.chunkbuf ≠ []
    · obtain ⟨rfl,rfl,hb⟩ := he
      rw [(ih.nextBlock_end hb).1]
      exact ⟨⟨ih.lt,ih.length_lt⟩,fun _ => rfl⟩
    · exact (ih.calls data fun hf hd => not_not.mp fun hb => he ⟨hf,hd,hb⟩).2.1
  | @nextBlockBytes c data isFinal _ ih =>
    by_cases he : isFinal = true ∧ data = [] ∧ c.chunkbuf ≠ []
    · obtain ⟨rfl,rfl,hb⟩ := he
      rw [(ih.nextBlock_end hb).2]
      exact ih.restart.steady
    · obtain ⟨heq,hs,-⟩ := ih.calls (D := D) data fun hf hd => not_not.mp fun hb => he ⟨hf,hd,hb⟩
      rwa [heq]

/-- From every reachable state both calls give the same chunks and the same state, and in the end
all buffered bytes, unless the end comes without data while bytes are buffered. -/
theorem nextBlock_agrees_iff {C : Constants} (h : Reachable D C c) (data : Bytes) (isFinal : Bool) :
    (c.nextBlock D data isFinal = c.nextBlockBytes D data isFinal ∧
      (isFinal = true → ((c.nextBlock D data isFinal).1.map Chunk.data).flatten = c.chunkbuf ++ data)) ↔
    ¬(isFinal = true ∧ data = [] ∧ c.chunkbuf ≠ []) := by
  constructor
  · rintro ⟨heq,-⟩ ⟨rfl,rfl,hbuf⟩
    obtain ⟨hblock,hbytes⟩ := h.steady.nextBlock_end (D := D) hbuf
    rw [hblock,hbytes] at heq
    exact cons_ne_nil _ _ (Prod.mk.inj heq).1.symm
  · intro he
    obtain ⟨heq,-,hall⟩ := h.steady.calls (D := D) data fun hf hd => not_not.mp fun hbuf =>
      he ⟨hf,hd,hbuf⟩
    exact ⟨heq.symm,hall⟩

/-- A chunker for the smallest target size, over a gear table that is the identity. -/
def smallChunker : Chunker (gearHasher UInt8.toUInt64) where
  hash := (0 : UInt64)
  minimumChunk := 16
  maximumChunk := 256
  mask := shiftedMask 128
  chunkbuf := []

theorem bits_small : (Nat.bits 128).count true = 1 := by simp [Nat.bits,Nat.binaryRec]

theorem new_small : new (gearHasher UInt8.toUInt64) {} 128 = some smallChunker := by
  simp [new,bits_small,smallChunker,gearHasher]

def smallFeeds : List (FeedMode × Bytes) :=
  [(.next,replicate 20 1),(.nextBlock,[]),(.nextBlockBytes,replicate 20 2)]

theorem run_eq_whole_small :
    ((smallChunker.run id smallFeeds).map fun x => x.data.length) = [16,16,8] ∧
      smallChunker.run id smallFeeds = (smallChunker.nextBlock id (joined smallFeeds) true).1 :=
  ⟨by decide +kernel,(run_eq_whole id new_small smallFeeds).1⟩

theorem nextBlock_agrees_buffered : ∃ c : Chunker (gearHasher UInt8.toUInt64), c.chunkbuf = [1,2] ∧
    c.nextBlock id [3] true = c.nextBlockBytes id [3] true := by
  have h : Reachable id {} (smallChunker.nextBlock id [1,2] false).2 :=
    .nextBlock [1,2] false (.new new_small)
  exact ⟨_,by decide,((nextBlock_agrees_iff h [3] true).mpr (by simp)).1⟩

/-- Two bytes are buffered, and the end of the file comes without data: only one of the calls
returns them. -/
theorem nextBlock_keeps_buffer : ∃ c : Chunker (gearHasher UInt8.toUInt64), Reachable id {} c ∧
    (c.nextBlock id [] true).1 = [] ∧ (c.nextBlock id [] true).2.chunkbuf = [1,2] ∧
    (c.nextBlockBytes id [] true).1 = [⟨[1,2],[1,2]⟩] ∧ (c.nextBlockBytes id [] true).2.chunkbuf = [] :=
  ⟨_,.nextBlock [1,2] false (.new new_small),by decide,by decide,by decide,by decide⟩

end Chunker
end XetCore.Chunking
