import XetCore.Chunking.PartitionWindows

/-! # When partition points are boundaries

The loop finds, at the multiples of the partition size, the ends that its scans accept.
Each of them is a boundary of the file unless the sequential chunker cuts in the window
after the start of the accepted chunk and too close to its end.
-/
namespace XetCore.Chunking
open StreamCut List
variable {G : GearHasher} {H : Type} {sizes : List ℕ} {C : Constants} {D : Bytes → H}

section Scan
variable {lo hi : ℕ}

def Middle (lo hi n : ℕ) : Prop := lo < n ∧ n < hi - lo

theorem acceptLoop_eq_some {offset cprev off : ℕ} {rest : List ℕ}
    (h : acceptLoop lo hi offset cprev rest = some off) :
    ∃ as x y bs, cprev :: rest = as ++ x :: y :: bs ∧
      off + cprev = offset + (as.sum + x + y) ∧ Middle lo hi x ∧ Middle lo hi y := by
  induction rest generalizing offset cprev with
  | nil => cases h
  | cons c rest ih =>
    rw [acceptLoop] at h
    split_ifs at h with hsi
    · cases h
      refine ⟨[],cprev,c,rest,rfl,?_,⟨hsi.1,hsi.2.1⟩,hsi.2.2⟩
      rw [sum_nil]
      omega
    · obtain ⟨as,x,y,bs,heq,ho,hx,hy⟩ := ih h
      refine ⟨cprev :: as,x,y,bs,by rw [heq,cons_append],?_,hx,hy⟩
      rw [sum_cons]
      omega

theorem acceptedOffset_eq_some {off : ℕ} (h : acceptedOffset lo hi sizes = .ok (some off)) :
    ∃ as x y bs, sizes = as ++ x :: y :: bs ∧ off = as.sum + x + y ∧ Middle lo hi x ∧ Middle lo hi y := by
  cases sizes with
  | nil => cases h
  | cons c₀ sizes =>
    cases sizes with
    | nil => cases h
    | cons c₁ rest =>
      obtain ⟨as,x,y,bs,heq,ho,hx,hy⟩ := acceptLoop_eq_some (Except.ok.inj h)
      refine ⟨c₀ :: as,x,y,bs,by rw [heq,cons_append],?_,hx,hy⟩
      rw [sum_cons]
      omega

variable (c : Chunker G) (data : Bytes) (m s : ℕ)

def Chunker.withoutMin : Chunker G := { c with minimumChunk := 0 }

variable (pos : ℕ)

def scanWindow : Bytes := (data.drop pos).take s

/-- The sizes of the chunks of the scanned bytes, cut without a minimum. -/
def scanSizes : List ℕ :=
  (c.withoutMin.nextBlock id (scanWindow data s pos) false).1.map fun x => x.data.length

/-- A scan ends at `e`, where the second of two chunks of middle size ends that starts at `b`. -/
structure Accepted (pos b e : ℕ) : Prop where
  found : acceptedOffset c.minimumChunk c.maximumChunk (scanSizes c data s pos) = .ok (some (e - pos))
  pair : ∃ as x y bs, scanSizes c data s pos = as ++ x :: y :: bs ∧ b = pos + as.sum + x ∧ e = b + y ∧
    Middle c.minimumChunk c.maximumChunk x ∧ Middle c.minimumChunk c.maximumChunk y

/-- The positions at which a file of this size is scanned. -/
def Scanned : Prop :=
  (∃ k, 0 < k ∧ pos = k * m) ∧ pos + m < data.length ∧ pos + s < data.length

/-- The sequential chunker cuts in the window after the start of the accepted chunk, too close to
the end of it. -/
def HiddenBoundary : Prop :=
  ∃ b e t, Accepted c data s pos b e ∧ t ∈ fileBoundaries c data ∧ b < t ∧ t ≤ b + hashWindowSize ∧
    e < t + c.minimumChunk

variable {c data m s} {pos} {b e : ℕ}

theorem accepted_of_found {off : ℕ}
    (h : acceptedOffset c.minimumChunk c.maximumChunk (scanSizes c data s pos) = .ok (some off)) :
    ∃ b, Accepted c data s pos b (pos + off) := by
  obtain ⟨as,x,y,bs,hsi,rfl,hx,hy⟩ := acceptedOffset_eq_some h
  refine ⟨pos + as.sum + x,?_,as,x,y,bs,hsi,rfl,by omega,hx,hy⟩
  rwa [Nat.add_sub_cancel_left]

theorem nextBlock_withoutMin (hs : c.Synced) (hbuf : c.chunkbuf = []) (D : Bytes → H) :
    (c.withoutMin.nextBlock D (scanWindow data s pos) false).1.map (fun x => x.data.length) =
      (split (byteRule G 0 c.maximumChunk c.mask) (scanWindow data s pos)).1.map List.length := by
  have hsy : c.withoutMin.Synced := by
    have hlt := hs.lt
    refine ⟨show 0 < c.maximumChunk by omega,?_,?_⟩
    · have hh := hs.hash_eq
      rw [hbuf] at hh
      rw [show c.withoutMin.chunkbuf = [] from hbuf]
      exact hh
    · rw [show c.withoutMin.chunkbuf = [] from hbuf]
      exact CutRule.cut_nil _
  rw [hsy.nextBlock_eq _ (fun hf => absurd hf Bool.false_ne_true),show c.withoutMin.chunkbuf =
    [] from hbuf,Chunker.cutAll,if_neg Bool.false_ne_true,map_map]
  rfl

theorem scanSizes_eq (hs : c.Synced) (hbuf : c.chunkbuf = []) : scanSizes c data s pos =
    (split (byteRule G 0 c.maximumChunk c.mask) (scanWindow data s pos)).1.map List.length :=
  nextBlock_withoutMin hs hbuf id

section
variable (h : Accepted c data s pos b e) (hs : c.Synced) (hbuf : c.chunkbuf = [])
include h hs hbuf

theorem Accepted.take_eq
    (hpo : pos ≤ data.length) : ∃ A x y : Bytes, data.take e = A ++ x ++ y ∧ A.length + x.length = b ∧
      b + y.length = e ∧ e ≤ pos + (scanWindow data s pos).length ∧
      (byteRule G 0 c.maximumChunk c.mask).cut x = some x.length ∧
      (byteRule G 0 c.maximumChunk c.mask).cut y = some y.length ∧
      Middle c.minimumChunk c.maximumChunk x.length ∧ Middle c.minimumChunk c.maximumChunk y.length := by
  obtain ⟨as,_,_,bs,hsi,rfl,rfl,hx,hy⟩ := h.pair
  rw [scanSizes_eq hs hbuf] at hsi
  obtain ⟨ps,rest,hp,rfl,hr⟩ := map_eq_append_iff.mp hsi
  obtain ⟨x,rest',rfl,rfl,hr'⟩ := map_eq_cons_iff.mp hr
  obtain ⟨y,qs,rfl,rfl,rfl⟩ := map_eq_cons_iff.mp hr'
  have hfl := split_flatten (byteRule G 0 c.maximumChunk c.mask) (scanWindow data s pos)
  have hcu := split_piece_cut (byteRule G 0 c.maximumChunk c.mask) (scanWindow data s pos)
  rw [hp] at hfl hcu
  obtain ⟨tail,ht⟩ : ∃ tail, scanWindow data s pos = (ps.flatten ++ x ++ y) ++ tail :=
    ⟨qs.flatten ++ (split (byteRule G 0 c.maximumChunk c.mask) (scanWindow data s pos)).2,
      hfl.symm.trans (by simp)⟩
  have hlen : (ps.flatten ++ x ++ y).length ≤ (scanWindow data s pos).length := by
    have hsu := congrArg List.length ht
    rw [length_append] at hsu
    omega
  have hle : (scanWindow data s pos).length ≤ s := by
    rw [scanWindow,length_take]
    omega
  have he : pos + (ps.map List.length).sum + x.length + y.length = pos +
    (ps.flatten ++ x ++ y).length := by
    rw [sum_map_length,length_append,length_append]
    omega
  refine ⟨data.take pos ++ ps.flatten,x,y,?_,?_,rfl,by omega,hcu x (by simp),hcu y (by simp),hx,hy⟩
  · have hta : (data.drop pos).take (ps.flatten ++ x ++ y).length = ps.flatten ++ x ++ y := by
      have hf := congrArg (List.take (ps.flatten ++ x ++ y).length) ht
      rwa [scanWindow,take_take,Nat.min_eq_left (hlen.trans hle),take_left] at hf
    rw [he,take_add,hta,append_assoc,append_assoc,append_assoc]
  · rw [sum_map_length,length_append,length_take,Nat.min_eq_left hpo]

theorem Accepted.bounds (hp : pos ≤ data.length) : pos < e ∧ e ≤ pos + s := by
  obtain ⟨as,x,y,bs,-,hb,he,-,hy⟩ := h.pair
  obtain ⟨-,-,-,-,-,-,hen,-⟩ := h.take_eq hs hbuf hp
  have hw : (scanWindow data s pos).length ≤ s := by
    rw [scanWindow,length_take]
    omega
  have hyl := hy.1
  omega

theorem Accepted.closed_iff
    (hwi : hashWindowSize < c.minimumChunk) (hG : Windowed G c.mask) (hlt : pos + s < data.length) :
    Closed c.rule (data.take e) ↔ ∀ t ∈ fileBoundaries c data, b < t → t ≤ b + hashWindowSize →
      t + c.minimumChunk ≤ e := by
  obtain ⟨A,x,y,hta,hb,he,hle,hxc,hyc,hx,hy⟩ := h.take_eq hs hbuf (by omega)
  have hw : (scanWindow data s pos).length ≤ s := by
    rw [scanWindow,length_take]
    omega
  obtain ⟨hxl,hxh⟩ := hx
  obtain ⟨hyl,hyh⟩ := hy
  have hf : ∀ k ≤ y.length, data.take (b + k) = A ++ x ++ y.take k := by
    intro k hk
    have hcu := congrArg (List.take (b + k)) hta
    rw [take_take,Nat.min_eq_left (by omega),← hb,← length_append,take_length_add_append] at hcu
    rwa [length_append,hb] at hcu
  rw [hta,closed_iff_window hs hwi hG hxc hxl (by omega) hyc hyl (by omega)]
  constructor
  · intro ha t ht hbt htb
    have hcl := ((mem_fileBoundaries_iff hs hbuf (by omega)).mp ht).2
    obtain ⟨k,rfl⟩ := Nat.exists_eq_add_of_lt hbt
    rw [show b + k + 1 = b + (k + 1) by omega,hf (k + 1) (by omega)] at hcl
    have := ha (k + 1) (by omega) (by omega) hcl
    omega
  · intro ha k hp hk hcl
    rw [← hf k (by omega)] at hcl
    have hmem := (mem_fileBoundaries_iff hs hbuf (show b + k < data.length by omega)).mpr ⟨by omega,hcl⟩
    have := ha (b + k) hmem (by omega) (by omega)
    omega

end

end Scan

section Run
variable {target m s curpos : ℕ} {c : Chunker G} {data : Bytes}

/-- The partition points that are found from a position on. -/
structure FoundFrom (c : Chunker G) (data : Bytes) (m s curpos : ℕ) (qs : List ℕ) : Prop where
  increasing : qs.Pairwise (· < ·)
  beyond : ∀ q ∈ qs, curpos + m < q
  sound : ∀ q ∈ qs, ∃ k b, 0 < k ∧ curpos + k * m + m < data.length ∧ curpos + k * m + s < data.length ∧
    Accepted c data s (curpos + k * m) b q
  complete : ∀ k b e, 0 < k → curpos + k * m + m < data.length → curpos + k * m + s < data.length →
    Accepted c data s (curpos + k * m) b e → e ∈ qs

theorem foundFrom_nil (he : data.length ≤ curpos + m + m ∨ data.length ≤ curpos + m + s) :
    FoundFrom c data m s curpos [] := by
  refine ⟨Pairwise.nil,by simp,by simp,?_⟩
  intro k b e hk hm hs
  have hmu : m ≤ k * m := Nat.le_mul_of_pos_left m hk
  omega

theorem FoundFrom.step {qs : List ℕ} {found : Option ℕ} (hs : c.Synced) (hbuf : c.chunkbuf = [])
    (hle : s ≤ m) (hr : curpos + m + m < data.length ∧ curpos + m + s < data.length)
    (hf : acceptedOffset c.minimumChunk c.maximumChunk (scanSizes c data s (curpos + m)) = .ok found)
    (h : FoundFrom c data m s (curpos + m) qs) :
    FoundFrom c data m s curpos ((found.map (curpos + m + ·)).toList ++ qs) := by
  have hh : ∀ q ∈ (found.map (curpos + m + ·)).toList, ∃ b, Accepted c data s (curpos + m) b q := by
    intro q hq
    cases found with
    | none => simp at hq
    | some off =>
      obtain rfl : q = curpos + m + off := by simpa using hq
      exact accepted_of_found hf
  have hw : ∀ q ∈ (found.map (curpos + m + ·)).toList, curpos + m < q ∧ q ≤ curpos + m + s := by
    intro q hq
    obtain ⟨b,ha⟩ := hh q hq
    exact ha.bounds hs hbuf (by omega)
  have hn : ∀ k, curpos + m + k * m = curpos + (k + 1) * m := by
    intro k
    rw [Nat.add_mul,Nat.one_mul]
    omega
  refine ⟨pairwise_append.mpr ⟨?_,h.increasing,?_⟩,?_,?_,?_⟩
  · cases found with
    | none => exact Pairwise.nil
    | some off => exact pairwise_singleton _ _
  · intro p hp q hq
    have hl := (hw p hp).2
    have hbe := h.beyond q hq
    omega
  · intro q hq
    rcases mem_append.mp hq with hq | hq
    · exact (hw q hq).1
    · have hbe := h.beyond q hq
      omega
  · intro q hq
    rcases mem_append.mp hq with hq | hq
    · obtain ⟨b,ha⟩ := hh q hq
      refine ⟨1,b,Nat.one_pos,?_⟩
      rw [Nat.one_mul]
      exact ⟨hr.1,hr.2,ha⟩
    · obtain ⟨k,b,-,hre⟩ := h.sound q hq
      refine ⟨k + 1,b,Nat.succ_pos k,?_⟩
      rwa [hn] at hre
  · intro k b e hk hm hsc ha
    rw [mem_append]
    obtain ⟨k,rfl⟩ := Nat.exists_eq_add_of_lt hk
    rw [Nat.zero_add,← hn] at hm hsc ha
    rcases Nat.eq_zero_or_pos k with rfl | hk'
    · rw [Nat.zero_mul,Nat.add_zero] at ha
      have hb := ha.bounds hs hbuf (by omega)
      rw [Except.ok.inj (hf.symm.trans ha.found)]
      left
      rw [Option.map_some,Option.toList_some,mem_singleton]
      omega
    · exact .inr (h.complete k b e hk' hm hsc ha)

section Turns
variable {fuel fileSize : ℕ} {reader : Bytes} {partitions ps : List ℕ}

/-- The sums of the turn that starts at this position stay in the machine's range. -/
def SumsFit (fileSize m s curpos : ℕ) : Prop :=
  curpos + m + m < 2 ^ 64 ∧ (curpos + m + m < fileSize → curpos + m + s < 2 ^ 64)

theorem usize_of_lt {n : ℕ} (h : n < 2 ^ 64) : usize n = .ok n := if_pos h

theorem usize_of_le {n : ℕ} (h : 2 ^ 64 ≤ n) : usize n = .error .panicked := if_neg (by omega)

theorem partitionLoop_overflow (hlt : curpos < fileSize) (hf : ¬SumsFit fileSize m s curpos) :
    partitionLoop G C D reader fileSize target m s (fuel + 1) curpos partitions =
      .error .panicked := by
  rw [partitionLoop,if_pos hlt]
  by_cases h₁ : curpos + m < 2 ^ 64
  · rw [usize_of_lt h₁]
    by_cases h₂ : curpos + m + m < 2 ^ 64
    · have h₃ : curpos + m + m < fileSize ∧ 2 ^ 64 ≤ curpos + m + s := by
        unfold SumsFit at hf
        omega
      dsimp only [bind,Except.bind]
      rw [usize_of_lt h₂]
      dsimp only
      rw [if_neg (by omega),usize_of_le h₃.2]
    · dsimp only [bind,Except.bind]
      rw [usize_of_le (by omega)]
  · rw [usize_of_le (by omega)]
    rfl

theorem partitionLoop_stop (hf : curpos < fileSize → SumsFit fileSize m s curpos)
    (hr : ¬(curpos + m + m < fileSize ∧ curpos + m + s < fileSize)) :
    partitionLoop G C D reader fileSize target m s (fuel + 1) curpos partitions =
      .ok partitions := by
  rw [partitionLoop]
  split
  · obtain ⟨h₂,h₃⟩ := hf ‹_›
    rw [usize_of_lt (by omega)]
    dsimp only [bind,Except.bind]
    rw [usize_of_lt h₂]
    dsimp only
    split
    · rfl
    · rw [usize_of_lt (h₃ (by omega))]
      exact if_pos (by omega)
  · rfl

/-- A turn that scans reads the bytes and goes on behind the point that they give. -/
theorem partitionLoop_scan (hf : SumsFit fileSize m s curpos)
    (hr : curpos + m + m < fileSize ∧ curpos + m + s < fileSize) :
    partitionLoop G C D reader fileSize target m s (fuel + 1) curpos partitions =
      readExactAt reader (curpos + m) s >>= fun buf =>
        match Chunker.newWithMin G C target 0 with
        | none => .error .panicked
        | some chunker =>
          acceptedOffset (target / C.minimumChunkDivisor) (target * C.maximumChunkMultiplier)
            ((chunker.nextBlock D buf false).1.map fun x => x.data.length) >>= fun found =>
          partitionLoop G C D reader fileSize target m s fuel (curpos + m)
            (partitions ++ (found.map (curpos + m + ·)).toList) := by
  rw [partitionLoop,if_pos (by omega),usize_of_lt (by have := hf.1; omega)]
  dsimp only [bind,Except.bind]
  rw [usize_of_lt hf.1]
  dsimp only
  rw [if_neg (by omega),usize_of_lt (hf.2 hr.1)]
  exact if_neg (by omega)

theorem readExactAt_of_le {pos : ℕ} (h : s ≤ reader.length - pos) :
    readExactAt reader pos s = .ok (scanWindow reader s pos) := by
  rw [readExactAt,if_neg]
  · rfl
  · rw [length_take,length_drop]
    omega

section
variable (hc : Chunker.new G C target = some c)
include hc

theorem newWithMin_eq : Chunker.newWithMin G C target 0 = some c.withoutMin := by
  rw [Chunker.newWithMin,hc]
  rfl

theorem partitionLoop_succ (hf : SumsFit fileSize m s curpos)
    (hr : curpos + m + m < fileSize ∧ curpos + m + s < fileSize)
    (hle : s ≤ data.length - (curpos + m)) :
    partitionLoop G C D data fileSize target m s (fuel + 1) curpos partitions =
      acceptedOffset c.minimumChunk c.maximumChunk (scanSizes c data s (curpos + m)) >>=
        fun found => partitionLoop G C D data fileSize target m s fuel (curpos + m)
          (partitions ++ (found.map (curpos + m + ·)).toList) := by
  obtain ⟨hsy,hbuf⟩ := Chunker.new_synced hc
  have hb : target / C.minimumChunkDivisor = c.minimumChunk ∧
      target * C.maximumChunkMultiplier = c.maximumChunk := by
    obtain ⟨-,rfl⟩ := Chunker.new_eq hc
    exact ⟨rfl,rfl⟩
  rw [partitionLoop_scan hf hr,readExactAt_of_le hle,newWithMin_eq hc,hb.1,hb.2]
  dsimp only [bind,Except.bind]
  rw [nextBlock_withoutMin hsy hbuf,scanSizes_eq hsy hbuf]

theorem foundFrom_of_partitionLoop (hm : 0 < m) (hle : s ≤ m) (hfu : data.length ≤ curpos + fuel)
    (h : partitionLoop G C D data data.length target m s fuel curpos partitions = .ok ps) :
    ∃ qs, ps = partitions ++ qs ∧ FoundFrom c data m s curpos qs := by
  obtain ⟨hsy,hbuf⟩ := Chunker.new_synced hc
  induction fuel generalizing curpos partitions with
  | zero =>
    cases h
    exact ⟨[],(append_nil _).symm,foundFrom_nil (by omega)⟩
  | succ fuel ih =>
    have hf : curpos < data.length → SumsFit data.length m s curpos := by
      intro hlt
      by_contra hov
      rw [partitionLoop_overflow hlt hov] at h
      cases h
    by_cases hr : curpos + m + m < data.length ∧ curpos + m + s < data.length
    · rw [partitionLoop_succ hc (hf (by omega)) hr (by omega)] at h
      cases ha : acceptedOffset c.minimumChunk c.maximumChunk
          (scanSizes c data s (curpos + m)) with
      | error err =>
        rw [ha] at h
        cases h
      | ok found =>
        rw [ha] at h
        obtain ⟨qs,rfl,hqs⟩ := ih (by omega) h
        exact ⟨_,append_assoc _ _ _,hqs.step hsy hbuf hle hr ha⟩
    · rw [partitionLoop_stop hf hr] at h
      cases h
      exact ⟨[],(append_nil _).symm,foundFrom_nil (by omega)⟩

theorem findPartitions_eq_ok (hle : s ≤ m)
    (h : findPartitions G C D data data.length target m s = .ok ps) :
    ps = [0] ∧ m ≤ c.maximumChunk ∨
      ∃ qs, ps = 0 :: qs ∧ c.maximumChunk < m ∧ FoundFrom c data m s 0 qs := by
  have hhi : target * C.maximumChunkMultiplier = c.maximumChunk := by
    obtain ⟨-,rfl⟩ := Chunker.new_eq hc
    rfl
  unfold findPartitions at h
  rw [hhi] at h
  split at h
  · cases h
  split at h
  · cases h
  by_cases hmax : c.maximumChunk < 2 ^ 64
  swap
  · rw [usize_of_le (by omega)] at h
    cases h
  rw [usize_of_lt hmax] at h
  dsimp only [bind,Except.bind] at h
  split at h
  · cases h
  split at h
  · rename_i hb
    exact .inl ⟨(Except.ok.inj h).symm,hb⟩
  split at h
  · cases h
  · obtain ⟨qs,rfl,hqs⟩ := foundFrom_of_partitionLoop hc (by omega) hle (by omega) h
    exact .inr ⟨qs,rfl,by omega,hqs⟩

end

end Turns

theorem partitionPieces_chunks_iff (hs : c.Synced) (hbuf : c.chunkbuf = []) {qs : List ℕ}
    (hin : (0 :: qs).Pairwise (· < ·)) (hlt : ∀ q ∈ qs, q < data.length) :
    (partitionPieces data (0 :: qs)).flatMap (fun piece => (c.nextBlock D piece true).1) =
      (c.nextBlock D data true).1 ↔ ∀ q ∈ qs, Closed c.rule (data.take q) := by
  have hij : Function.Injective (Chunk.new D) := fun a b hab => congrArg Chunk.data hab
  have hse := sections_pieces_iff c.rule hin (fun q hq => hlt q hq)
  simp only [Nat.sub_zero] at hse
  rw [← hse,partitionPieces,drop_zero]
  simp only [hs.nextBlock_pieces hbuf]
  rw [← map_flatMap]
  exact (map_injective_iff.mpr hij).eq_iff

end Run

/-- The partition points of a file are what parallel chunking needs, unless the file is empty or a
boundary is hidden from one of the scans. -/
theorem findPartitions_partitionedAt_iff (table : UInt8 → UInt64) (computeDataHash : Bytes → H)
    {C : Constants}
    {targetChunkSize minPartitionSize partitionScanBytes : ℕ} {c : Chunker (gearHasher table)}
    (hc : Chunker.new (gearHasher table) C targetChunkSize = some c)
    (hwin : hashWindowSize < c.minimumChunk)
    (hle : partitionScanBytes ≤ minPartitionSize) (data : Bytes) {ps : List ℕ}
    (hps : findPartitions (gearHasher table) C computeDataHash data data.length targetChunkSize
      minPartitionSize
      partitionScanBytes = .ok ps) :
    PartitionedAt computeDataHash c data ps ↔ data ≠ [] ∧ (c.maximumChunk < minPartitionSize → ∀ pos,
        Scanned data minPartitionSize partitionScanBytes pos →
          ¬HiddenBoundary c data partitionScanBytes pos) := by
  obtain ⟨hsync,hbuf⟩ := Chunker.new_synced hc
  have hG := gearHasher_windowed table c.mask
  rcases findPartitions_eq_ok hc hle hps with ⟨rfl,hbig⟩ | ⟨qs,rfl,hsmall,hqs⟩
  · constructor
    · intro h
      have hpos := h.below 0 mem_cons_self
      exact ⟨ne_nil_of_length_pos hpos,fun hlt => by omega⟩
    · rintro ⟨hne,-⟩
      refine ⟨rfl,pairwise_singleton _ _,?_,?_⟩
      · simpa using length_pos_iff.mpr hne
      · exact (partitionPieces_chunks_iff hsync hbuf (pairwise_singleton _ _) (by simp)).mpr (by simp)
  · have hinc := pairwise_cons.mpr ⟨fun q hq => Nat.zero_lt_of_lt (hqs.beyond q hq),hqs.increasing⟩
    have hbelow : ∀ q ∈ qs, q < data.length := by
      intro q hq
      obtain ⟨k,b,-,-,hroom,hacc⟩ := hqs.sound q hq
      have hb := hacc.bounds hsync hbuf (by omega)
      omega
    have hchunks := partitionPieces_chunks_iff (D := computeDataHash) hsync hbuf hinc hbelow
    constructor
    · intro h
      refine ⟨ne_nil_of_length_pos (h.below 0 mem_cons_self),?_⟩
      rintro - pos ⟨⟨k,hk,rfl⟩,hm,hs⟩ ⟨b,e,t,hacc,ht,hbt,htb,het⟩
      have hmem : e ∈ qs := hqs.complete k b e hk (by omega) (by omega) (by rwa [Nat.zero_add])
      have hfits := (hacc.closed_iff hsync hbuf hwin hG hs).mp (hchunks.mp h.chunks_eq e hmem)
        t ht hbt htb
      omega
    · rintro ⟨hne,hhidden⟩
      refine ⟨rfl,hinc,forall_mem_cons.mpr ⟨length_pos_iff.mpr hne,hbelow⟩,hchunks.mpr ?_⟩
      intro q hq
      obtain ⟨k,b,hk,hm,hs,hacc⟩ := hqs.sound q hq
      rw [Nat.zero_add] at hm hs hacc
      rw [hacc.closed_iff hsync hbuf hwin hG hs]
      intro t ht hbt htb
      by_contra hclose
      exact hhidden hsmall (k * minPartitionSize) ⟨⟨k,hk,rfl⟩,hm,hs⟩ ⟨b,q,t,hacc,ht,hbt,htb,by omega⟩

section Panics
variable {target m s curpos fileSize : ℕ} {reader : Bytes}

/-- Cut without a minimum, one chunk ends in these bytes and no second one. -/
def OneChunk (c : Chunker G) (bytes : Bytes) : Prop :=
  ∃ n, (byteRule G 0 c.maximumChunk c.mask).cut bytes = some n ∧
    (byteRule G 0 c.maximumChunk c.mask).cut (bytes.drop n) = none

/-- If there is a scan at this position, then it has a chunker, does not find just one chunk,
and the sums of the turn behind it stay in range. -/
def ScanSafe (G : GearHasher) (C : Constants) (reader : Bytes) (fileSize target m s pos : ℕ) :
    Prop :=
  pos + m < fileSize → pos + s < fileSize → s ≤ reader.length - pos →
    (∃ c, Chunker.new G C target = some c ∧ ¬OneChunk c (scanWindow reader s pos)) ∧
      SumsFit fileSize m s pos

theorem acceptedOffset_eq_error_iff {lo hi : ℕ} {e : PartitionError} :
    acceptedOffset lo hi sizes = .error e ↔ e = .panicked ∧ sizes.length = 1 := by
  rcases sizes with _ | ⟨a,_ | ⟨b,rest⟩⟩
  · simp [acceptedOffset]
  · simp [acceptedOffset,eq_comm]
  · simp [acceptedOffset]

theorem forall_pos_mul_iff {P : ℕ → Prop} :
    (∀ k, 0 < k → P (curpos + k * m)) ↔ P (curpos + m) ∧ ∀ k, 0 < k → P (curpos + m + k * m) := by
  have hn (k : ℕ) : curpos + m + k * m = curpos + (k + 1) * m := by rw [Nat.add_mul,Nat.one_mul]; omega
  constructor
  · intro h
    have h₁ := h 1 Nat.one_pos
    rw [Nat.one_mul] at h₁
    exact ⟨h₁,fun k _ => hn k ▸ h (k + 1) k.succ_pos⟩
  · rintro ⟨h₁,h⟩ (_ | _ | k) hk
    · exact absurd hk (Nat.lt_irrefl 0)
    · rwa [Nat.zero_add,Nat.one_mul]
    · exact hn (k + 1) ▸ h (k + 1) k.succ_pos

/-- The loop panics at the first turn whose sums leave the range or whose scan is not safe. -/
theorem partitionLoop_ne_panicked_iff (hm : 0 < m) {fuel : ℕ} (hfu : fileSize ≤ curpos + fuel)
    (partitions : List ℕ) :
    partitionLoop G C D reader fileSize target m s fuel curpos partitions ≠ .error .panicked ↔
      (curpos < fileSize → SumsFit fileSize m s curpos) ∧
        ∀ k, 0 < k → ScanSafe G C reader fileSize target m s (curpos + k * m) := by
  have hk {k : ℕ} (h : 0 < k) : m ≤ k * m := Nat.le_mul_of_pos_left m h
  induction fuel generalizing curpos partitions with
  | zero =>
    exact iff_of_true (fun h => (nomatch h))
      ⟨fun h => by omega,fun k h hl => by have := hk h; omega⟩
  | succ fuel ih =>
    by_cases hf : curpos < fileSize → SumsFit fileSize m s curpos
    · rw [and_iff_right hf]
      by_cases hr : curpos + m + m < fileSize ∧ curpos + m + s < fileSize
      · rw [partitionLoop_scan (hf (by omega)) hr]
        by_cases hle : s ≤ reader.length - (curpos + m)
        · rw [forall_pos_mul_iff]
          cases hc : Chunker.new G C target with
          | none =>
            rw [readExactAt_of_le hle,Chunker.newWithMin,hc]
            refine iff_of_false (not_not.mpr rfl) fun h => ?_
            obtain ⟨c,hn,-⟩ := (h.1 hr.1 hr.2 hle).1
            exact absurd (hc.symm.trans hn) (Option.some_ne_none c).symm
          | some c =>
            obtain ⟨hsy,hbuf⟩ := Chunker.new_synced hc
            have hl : (scanSizes c reader s (curpos + m)).length = 1 ↔
                OneChunk c (scanWindow reader s (curpos + m)) := by
              rw [scanSizes_eq hsy hbuf,length_map]
              exact length_split_eq_one_iff _ _
            have hs : ScanSafe G C reader fileSize target m s (curpos + m) ↔
                ¬OneChunk c (scanWindow reader s (curpos + m)) ∧
                  SumsFit fileSize m s (curpos + m) := by
              constructor
              · intro h
                obtain ⟨⟨c',hc',ho⟩,hsu⟩ := h hr.1 hr.2 hle
                cases hc.symm.trans hc'
                exact ⟨ho,hsu⟩
              · exact fun h _ _ _ => ⟨⟨c,hc,h.1⟩,h.2⟩
            rw [← partitionLoop_scan (hf (by omega)) hr,
              partitionLoop_succ hc (hf (by omega)) hr hle,hs,← hl,and_assoc]
            cases ha : acceptedOffset c.minimumChunk c.maximumChunk
                (scanSizes c reader s (curpos + m)) with
            | error e =>
              obtain ⟨rfl,hone⟩ := acceptedOffset_eq_error_iff.mp ha
              exact iff_of_false (not_not.mpr rfl) fun h => h.1 hone
            | ok found =>
              have hone : (scanSizes c reader s (curpos + m)).length ≠ 1 := fun h =>
                absurd (ha.symm.trans (acceptedOffset_eq_error_iff.mpr ⟨rfl,h⟩)) (by simp)
              rw [and_iff_right hone]
              refine (ih (by omega) _).trans ?_
              rw [forall_prop_of_true (by omega)]
        · refine iff_of_true ?_ fun k h _ _ hl => by have := hk h; omega
          rw [readExactAt,if_pos (by simp; omega)]
          exact fun h => (nomatch h)
      · rw [partitionLoop_stop hf hr]
        exact iff_of_true (fun h => (nomatch h)) fun k h hl hl' => by have := hk h; omega
    · rw [Classical.not_imp] at hf
      rw [partitionLoop_overflow hf.1 hf.2]
      exact iff_of_false (not_not.mpr rfl) fun h => hf.2 (h.1 hf.1)

end Panics

/-- With its own assertions met, the search panics unless the largest chunk size is in range
and it returns at once, or the sums of its turns are in range too and every scan is safe. -/
theorem findPartitions_ne_panicked_iff (G : GearHasher) (C : Constants)
    (computeDataHash : Bytes → H) (reader : Bytes) (fileSize : ℕ)
    {targetChunkSize minPartitionSize : ℕ} (partitionScanBytes : ℕ) (hm : 0 < minPartitionSize)
    (hmin : 64 < targetChunkSize / C.minimumChunkDivisor) :
    findPartitions G C computeDataHash reader fileSize targetChunkSize minPartitionSize
        partitionScanBytes ≠ .error .panicked ↔
      targetChunkSize * C.maximumChunkMultiplier < 2 ^ 64 ∧
        (minPartitionSize ≤ targetChunkSize * C.maximumChunkMultiplier ∨
          partitionScanBytes < 2 ^ 63 ∧
          (0 < fileSize → SumsFit fileSize minPartitionSize partitionScanBytes 0) ∧
          ∀ k, 0 < k → ScanSafe G C reader fileSize targetChunkSize minPartitionSize
            partitionScanBytes (k * minPartitionSize)) := by
  have hd : C.minimumChunkDivisor ≠ 0 := fun h => by simp [h] at hmin
  rw [findPartitions,if_neg (not_not.mpr hm),if_neg hd]
  by_cases hmax : targetChunkSize * C.maximumChunkMultiplier < 2 ^ 64
  · rw [usize_of_lt hmax,and_iff_right hmax]
    dsimp only [bind,Except.bind]
    rw [if_neg (not_not.mpr hmin)]
    split
    · exact iff_of_true (fun h => (nomatch h)) (.inl ‹_›)
    rename_i hb
    rw [or_iff_right hb]
    split
    · exact iff_of_false (not_not.mpr rfl) (by omega)
    · rw [partitionLoop_ne_panicked_iff hm (by omega)]
      simp only [Nat.zero_add]
      exact (and_iff_right (by omega)).symm
  · rw [usize_of_le (by omega)]
    exact iff_of_false (not_not.mpr rfl) fun h => hmax h.1

/-- Runs of zeros never match. After enough of them a one matches, and a zero and a two after that
match once more, but not if the hash was reset in between. A three only matches at the start. -/
def hiddenTable (b : UInt8) : UInt64 :=
  (if b = 1 then 11 else if b = 2 then 2034 else if b = 3 then 1 else (5 : UInt64)) <<< 53

def hiddenChunker : Chunker (gearHasher hiddenTable) where
  hash := (0 : UInt64)
  minimumChunk := 128
  maximumChunk := 2048
  mask := Chunker.shiftedMask 1024
  chunkbuf := []

theorem new_hidden : Chunker.new (gearHasher hiddenTable) {} 1024 = some hiddenChunker := by
  have hb : (Nat.bits 1024).count true = 1 := by simp [Nat.bits,Nat.binaryRec]
  simp [Chunker.new,hb,hiddenChunker,gearHasher]

def zeros (n : ℕ) : Bytes := List.replicate n 0

/-- The match after 4225 bytes is hidden from the scan at 3000, which takes the match after 4352
bytes. -/
def hiddenFile : Bytes :=
  zeros 3000 ++ [3] ++ zeros 1221 ++ [1,0,2] ++ zeros 126 ++ [1] ++ zeros 1649

def plainFile : Bytes :=
  zeros 3000 ++ [3] ++ zeros 1221 ++ [1,0,0] ++ zeros 126 ++ [1] ++ zeros 1649

theorem findPartitions_partitionedAt_plain : PartitionedAt id hiddenChunker plainFile [0,4352] ↔
      plainFile ≠ [] ∧ (hiddenChunker.maximumChunk < 3000 → ∀ pos,
        Scanned plainFile 3000 1400 pos → ¬HiddenBoundary hiddenChunker plainFile 1400 pos) :=
  findPartitions_partitionedAt_iff hiddenTable id new_hidden (by decide) (by decide) plainFile
    (by decide +kernel)

theorem hidden_boundary_missed :
    findPartitions (gearHasher hiddenTable) {} id hiddenFile hiddenFile.length 1024 3000 1400 =
      .ok [0,4352] ∧
      ¬PartitionedAt id hiddenChunker hiddenFile [0,4352] := by
  refine ⟨by decide +kernel,fun h => ?_⟩
  have hsizes := congrArg (List.map fun x => x.data.length) h.chunks_eq
  revert hsizes
  decide +kernel

/-- A scan over fewer bytes than a largest chunk finds none. -/
theorem findPartitions_ne_panicked_zeros : 0 < 3000 ∧
    findPartitions (gearHasher hiddenTable) {} id (zeros 7000) 7000 1024 3000 100 ≠
      .error .panicked := by
  refine ⟨by decide,(findPartitions_ne_panicked_iff (gearHasher hiddenTable) {} id (zeros 7000)
    7000 100 (by decide) (by decide)).mpr
    ⟨by decide,.inr ⟨by decide,fun _ => ⟨by decide,fun _ => by decide⟩,fun k hk hl _ _ => ?_⟩⟩⟩
  obtain rfl : k = 1 := by omega
  refine ⟨⟨hiddenChunker,new_hidden,?_⟩,by decide,fun _ => by decide⟩
  rintro ⟨n,hn,-⟩
  revert n
  decide +kernel

/-- A scan over zeros finds one chunk, and the search indexes the second one. -/
theorem findPartitions_panics :
    findPartitions (gearHasher hiddenTable) {} id (zeros 7000) 7000 1024 3000 2100 =
      .error .panicked := by
  decide +kernel

end XetCore.Chunking
