import XetCore.Chunking.StableBoundary

/-! # Partition points of a file

To chunk a file in parallel it is scanned for positions where the sequential chunker
cuts. At every multiple of the partition size some bytes are chunked without a
minimum, and the end of the second of two chunks of middle size is taken.
-/
namespace XetCore.Chunking
open StreamCut
variable {H : Type}

inductive PartitionError where
  | unexpectedEof
  | panicked
deriving DecidableEq, Repr

/-- A sum or product of sizes. Where it leaves the machine's range the call panics. -/
def usize (n : ℕ) : Except PartitionError ℕ := if n < 2 ^ 64 then .ok n else .error .panicked

def readExactAt (reader : Bytes) (pos n : ℕ) : Except PartitionError Bytes :=
  if ((reader.drop pos).take n).length < n then .error .unexpectedEof else .ok ((reader.drop pos).take n)

section Scan
variable (minimumChunk maximumChunk : ℕ)

/-- The loop over the chunks from the third one on, with the end and the size of the chunk before.
-/
def acceptLoop : ℕ → ℕ → List ℕ → Option ℕ
  | _, _, [] => none
  | offset, cprev, c :: rest =>
    if minimumChunk < cprev ∧ cprev < maximumChunk - minimumChunk ∧ minimumChunk < c ∧
        c < maximumChunk - minimumChunk then
      some (offset + c)
    else acceptLoop (offset + c) c rest

/-- The partition offset among chunks of these sizes. A single chunk has no second one to skip to.
-/
def acceptedOffset : List ℕ → Except PartitionError (Option ℕ)
  | [] => .ok none
  | [_] => .error .panicked
  | c₀ :: c₁ :: rest => .ok (acceptLoop minimumChunk maximumChunk (c₀ + c₁) c₁ rest)

end Scan

section Partitions
variable (G : GearHasher) (C : Constants) (computeDataHash : Bytes → H)

def Chunker.newWithMin (targetChunkSize minChunkSize : ℕ) : Option (Chunker G) :=
  (Chunker.new G C targetChunkSize).map fun chunker => { chunker with minimumChunk := minChunkSize }

/-- The turns of the loop; the position grows in each of them. -/
def partitionLoop (reader : Bytes)
    (fileSize targetChunkSize minPartitionSize partitionScanBytes : ℕ) :
    ℕ → ℕ → List ℕ → Except PartitionError (List ℕ)
  | 0, _, partitions => .ok partitions
  | fuel + 1, curpos, partitions =>
    if curpos < fileSize then do
      let curpos ← usize (curpos + minPartitionSize)
      let partitionEnd ← usize (curpos + minPartitionSize)
      if partitionEnd ≥ fileSize then return partitions
      let scanEnd ← usize (curpos + partitionScanBytes)
      if scanEnd ≥ fileSize then return partitions
      let buf ← readExactAt reader curpos partitionScanBytes
      match Chunker.newWithMin G C targetChunkSize 0 with
      | none => .error .panicked
      | some chunker =>
        let chunks := (chunker.nextBlock computeDataHash buf false).1
        let found ← acceptedOffset (targetChunkSize / C.minimumChunkDivisor)
          (targetChunkSize * C.maximumChunkMultiplier) (chunks.map fun x => x.data.length)
        partitionLoop reader fileSize targetChunkSize minPartitionSize partitionScanBytes fuel
          curpos (partitions ++ (found.map (curpos + ·)).toList)
    else .ok partitions

def findPartitions (reader : Bytes)
    (fileSize targetChunkSize minPartitionSize partitionScanBytes : ℕ) :
    Except PartitionError (List ℕ) :=
  if ¬0 < minPartitionSize then .error .panicked
  else if C.minimumChunkDivisor = 0 then .error .panicked
  else do
    let maximumChunk ← usize (targetChunkSize * C.maximumChunkMultiplier)
    if ¬64 < targetChunkSize / C.minimumChunkDivisor then .error .panicked
    else if maximumChunk ≥ minPartitionSize then .ok [0]
    -- the buffer of the scanned bytes is too large to allocate
    else if 2 ^ 63 ≤ partitionScanBytes then .error .panicked
    else
      partitionLoop G C computeDataHash reader fileSize targetChunkSize minPartitionSize
        partitionScanBytes fileSize 0 [0]

end Partitions

/-- The bytes between consecutive partition points, the last of them up to the end of the file. -/
def partitionPieces (data : Bytes) : List ℕ → List Bytes
  | [] => []
  | p :: ps => sections p ps (data.drop p)

/-- Partition points at which a file can be chunked in parallel. -/
structure PartitionedAt {G : GearHasher} (computeDataHash : Bytes → H) (c : Chunker G) (data : Bytes)
    (partitions : List ℕ) : Prop where
  head_eq : partitions.head? = some 0
  increasing : partitions.Pairwise (· < ·)
  below : ∀ p ∈ partitions, p < data.length
  chunks_eq : (partitionPieces data partitions).flatMap
    (fun piece => (c.nextBlock computeDataHash piece true).1) =
    (c.nextBlock computeDataHash data true).1

open List
variable {G : GearHasher} {mask : UInt64}

theorem marked_of_byteScan {hi pos : ℕ} {h : G.State} {data : Bytes}
    (hs : byteScan G 0 hi mask (pos,h) data = some data.length) (hlt : pos + data.length < hi) :
    ∃ q m, marked G mask h data = q ++ [m] ∧ (∀ x ∈ q, x.2 = false) ∧ m.2 = true := by
  induction data generalizing pos h with
  | nil => cases hs
  | cons b bs ih =>
    rw [length_cons] at hs hlt
    have hst : byteStop G 0 hi mask (pos,h) b = G.fires mask h b := by
      simp [byteStop,show ¬hi ≤ pos + 1 by omega]
    rw [byteScan_cons,hst,byteNext_hashed (Nat.zero_le _)] at hs
    rw [marked]
    cases hf : G.fires mask h b with
    | true =>
      rw [hf,if_pos rfl] at hs
      have hlen := Option.some.inj hs
      obtain rfl : bs = [] := length_eq_zero_iff.mp (by omega)
      exact ⟨[],(b,true),rfl,by simp,rfl⟩
    | false =>
      rw [hf,if_neg Bool.false_ne_true] at hs
      obtain ⟨n,hn,hlen⟩ := Option.map_eq_some_iff.mp hs
      obtain rfl : n = bs.length := by omega
      obtain ⟨q,m,hma,hq,hm⟩ := ih hn (by omega)
      refine ⟨(b,false) :: q,m,by rw [hma,cons_append],?_,hm⟩
      exact forall_mem_cons.mpr ⟨rfl,hq⟩

theorem byteAfter_zero (data : Bytes) (s : ℕ × G.State) :
    (byteAfter G 0 mask s data).2 = data.foldl (G.step mask) s.2 := by
  induction data generalizing s with
  | nil => rfl
  | cons b bs ih =>
    rw [byteAfter_cons,ih,byteNext_hashed (Nat.zero_le _),foldl_cons]

theorem marked_of_cut {hi : ℕ} {x : Bytes} (hG : Windowed G mask)
    (hc : (byteRule G 0 hi mask).cut x = some x.length) (hwi : hashWindowSize < x.length)
    (hlt : x.length < hi)
    (h : G.State) : ∃ z q m, marked G mask h x = z ++ (q ++ [m]) ∧ z.length = hashWindowSize ∧
      (∀ y ∈ q, y.2 = false) ∧ m.2 = true := by
  set w := x.take hashWindowSize with hw
  have hwl : w.length = hashWindowSize := by
    rw [hw,length_take]
    omega
  have hno : byteScan G 0 hi mask (0,G.init) w = none := by
    cases hs : byteScan G 0 hi mask (0,G.init) w with
    | none => rfl
    | some n =>
      have hf := byteScan_append_of_some hs (x.drop hashWindowSize)
      rw [hw,take_append_drop] at hf
      have hn := (byteRule G 0 hi mask).le_length hs
      have hlen := Option.some.inj (hf.symm.trans hc)
      omega
  have hr := byteScan_append_of_none hno (x.drop hashWindowSize)
  rw [hw,take_append_drop,← hw] at hr
  obtain ⟨n,hn,hlen⟩ := Option.map_eq_some_iff.mp (hr.symm.trans hc)
  obtain rfl : n = (x.drop hashWindowSize).length := by
    rw [length_drop]
    omega
  have ha : byteAfter G 0 mask (0,G.init) w = (hashWindowSize,w.foldl (G.step mask) h) := by
    refine Prod.ext ?_ ?_
    · rw [byteAfter_fst,hwl,Nat.zero_add]
    · rw [byteAfter_zero,hG _ h w hwl]
  rw [ha] at hn
  obtain ⟨q,m,hma,hq,hm⟩ := marked_of_byteScan hn (by omega)
  refine ⟨marked G mask h w,q,m,?_,by rw [marked_length,hwl],hq,hm⟩
  rw [← hma,← marked_append,hw,take_append_drop]

theorem mem_boundariesFrom_iff {pos x : ℕ} {ns : List ℕ} :
    x ∈ boundariesFrom pos ns ↔ ∃ as bs, as ≠ [] ∧ ns = as ++ bs ∧ x = pos + as.sum := by
  induction ns generalizing pos with
  | nil => simp [boundariesFrom]
  | cons n ns ih =>
    rw [boundariesFrom,mem_cons,ih]
    constructor
    · rintro (rfl | ⟨as,bs,-,rfl,rfl⟩)
      · exact ⟨[n],ns,by simp,rfl,by simp⟩
      · exact ⟨n :: as,bs,by simp,rfl,by rw [sum_cons]; omega⟩
    · rintro ⟨as,bs,hne,heq,rfl⟩
      cases as with
      | nil => exact absurd rfl hne
      | cons a as =>
        cases heq
        cases as with
        | nil => exact .inl (by simp)
        | cons b as => exact .inr ⟨b :: as,bs,by simp,rfl,by rw [sum_cons]; omega⟩

section Boundaries
variable {c : Chunker G} {data : Bytes}

/-- The boundaries inside a file are the lengths of its closed beginnings. -/
theorem mem_fileBoundaries_iff (hs : c.Synced) (hb : c.chunkbuf = []) {t : ℕ} (ht : t < data.length) :
    t ∈ fileBoundaries c data ↔ 0 < t ∧ Closed c.rule (data.take t) := by
  rw [fileBoundaries_eq hs hb,mem_boundariesFrom_iff]
  have hf := pieces_flatten c.rule data
  constructor
  · rintro ⟨as,bs,hne,heq,rfl⟩
    obtain ⟨front,back,hpi,rfl,rfl⟩ := map_eq_append_iff.mp heq
    rw [Nat.zero_add,sum_map_length] at ht ⊢
    rw [hpi,flatten_append] at hf
    have hta : data.take front.flatten.length = front.flatten := by
      rw [← hf,take_left]
    cases back with
    | nil =>
      rw [flatten_nil,append_nil] at hf
      rw [hf] at ht
      omega
    | cons q qs =>
      refine ⟨?_,hta.symm ▸ (pieces_eq_append c.rule hpi).1⟩
      obtain ⟨p,ps,rfl⟩ := exists_cons_of_ne_nil (by simpa using hne)
      have hp := length_pos_iff.mpr (pieces_ne_nil c.rule data p (by rw [hpi]; simp))
      rw [flatten_cons,length_append]
      omega
  · rintro ⟨hpo,hc⟩
    have hsp := hc.pieces_append c.rule (data.drop t)
    rw [take_append_drop] at hsp
    have hlen : ((pieces c.rule (data.take t)).map List.length).sum = t := by
      rw [sum_map_length,pieces_flatten,length_take]
      omega
    refine ⟨(pieces c.rule (data.take t)).map List.length,
      (pieces c.rule (data.drop t)).map List.length,?_,?_,?_⟩
    · intro hn
      rw [hn,sum_nil] at hlen
      omega
    · rw [hsp,map_append]
    · rw [hlen,Nat.zero_add]

/-- The end of two chunks of middle size that the scan found is a boundary unless the chunker cuts
in the window after the first of them and too close to that end. -/
theorem closed_iff_window (hs : c.Synced) (hw : hashWindowSize < c.minimumChunk) (hG : Windowed G c.mask)
    {A x y : Bytes} (hx : (byteRule G 0 c.maximumChunk c.mask).cut x = some x.length)
    (hxl : c.minimumChunk < x.length) (hxh : x.length < c.maximumChunk)
    (hy : (byteRule G 0 c.maximumChunk c.mask).cut y = some y.length) (hyl : c.minimumChunk < y.length)
    (hyh : y.length + c.minimumChunk < c.maximumChunk) :
    Closed c.rule (A ++ x ++ y) ↔ ∀ k, 0 < k → k ≤ hashWindowSize → Closed c.rule (A ++ x ++ y.take k) →
      k + c.minimumChunk ≤ y.length := by
  have hlt := hs.lt
  have hc : ∀ l, Closed c.rule (A ++ x ++ l) ↔ GatedCut.pending (c.gate hlt hw) Prod.snd
      (GatedCut.pending (c.gate hlt hw) Prod.snd 0 (marked G c.mask G.init (A ++ x)))
      (marked G c.mask ((A ++ x).foldl (G.step c.mask) G.init) l) = 0 := by
    intro l
    rw [Chunker.closed_iff_gated hlt hw hG G.init,GatedCut.closed_iff_pending,marked_append,
      GatedCut.pending_append]
  obtain ⟨z,q,m,hma,hz,hq,hm⟩ := marked_of_cut hG hy (by omega) (by omega)
    ((A ++ x).foldl (G.step c.mask) G.init)
  obtain ⟨zx,qx,d,hmr,-,-,hd⟩ := marked_of_cut hG hx (by omega) hxh (A.foldl (G.step c.mask) G.init)
  -- the first of the two ends with a match, so less than the minimum is pending there
  have hn : GatedCut.pending (c.gate hlt hw) Prod.snd 0 (marked G c.mask G.init (A ++ x)) <
    c.minimumChunk := by
    rw [marked_append,hmr,← append_assoc,← append_assoc,GatedCut.pending_append]
    exact GatedCut.pending_after_hit _ _ hd
  have hlen : y.length = z.length + q.length + 1 := by
    rw [← marked_length c.mask ((A ++ x).foldl (G.step c.mask) G.init) y,hma]
    simp only [length_append,length_singleton]
    omega
  rw [hc,hma,GatedCut.pending_eq_zero_iff (c.gate hlt hw) Prod.snd hq hm
    (show c.minimumChunk ≤ _ by omega) (show _ ≤ c.maximumChunk by omega),hz,← hz,← hlen]
  have ht : ∀ k ≤ z.length, marked G c.mask ((A ++ x).foldl (G.step c.mask) G.init) (y.take k) =
    z.take k := by
    intro k hk
    have hsp := marked_append c.mask ((A ++ x).foldl (G.step c.mask) G.init) (y.take k) (y.drop k)
    rw [take_append_drop,hma] at hsp
    have hf := congrArg (List.take k) hsp
    rw [take_append_of_le_length hk,take_left' (by rw [marked_length,length_take]; omega)] at hf
    exact hf.symm
  constructor
  · intro h k hp hk hcu
    rw [hc,ht k hk] at hcu
    exact h k hp hk hcu
  · intro h k hp hk hcu
    refine h k hp hk ?_
    rw [hc,ht k hk]
    exact hcu

end Boundaries

end XetCore.Chunking
