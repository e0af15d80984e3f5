import XetCore.Serialization.Primitives

/-! # Compression of chunks

A chunk is stored as it is, as an LZ4 frame, or as an LZ4 frame of its bytes grouped by
their position modulo four. The frame codec is a parameter. Its decoder may leave bytes
of what it is given unread.
-/
namespace XetCore.Xorb
open ByteSources Serialization List

inductive CompressionScheme where
  | none
  | lz4
  | byteGrouping4LZ4
  | auto
deriving DecidableEq, Repr

namespace CompressionScheme

def toU8 : CompressionScheme → UInt8
  | .none => 0
  | .lz4 => 1
  | .byteGrouping4LZ4 => 2
  | .auto => 99

def ofU8 (value : UInt8) : Result CompressionScheme :=
  if value = 0 then .ok .none
  else if value = 1 then .ok .lz4
  else if value = 2 then .ok .byteGrouping4LZ4
  else if value = 99 then .ok .auto
  else .error (.malformedData s!"cannot convert value {value} to CompressionScheme")

theorem ofU8_toU8 (scheme : CompressionScheme) : ofU8 scheme.toU8 = .ok scheme := by cases scheme <;> rfl

end CompressionScheme

section ByteGrouping
variable (data : Bytes)

/-- The number of positions below `n` that are `k` modulo four. -/
def groupLen (n k : ℕ) : ℕ := n / 4 + min 1 (n % 4 - k)

def groupStart (n k : ℕ) : ℕ := ((List.range k).map (groupLen n)).sum

def bg4Group (data : Bytes) (k : ℕ) : Bytes :=
  (List.range (groupLen data.length k)).map fun i => data.getD (4 * i + k) 0

def bg4Split (data : Bytes) : Bytes := (List.range 4).flatMap (bg4Group data)

def bg4Regroup (g : Bytes) : Bytes :=
  (List.range g.length).map fun p => g.getD (groupStart g.length (p % 4) + p / 4) 0

theorem bg4Group_length (k : ℕ) : (bg4Group data k).length = groupLen data.length k := by
  simp [bg4Group]

theorem bg4Split_length : (bg4Split data).length = data.length := by
  have h : (bg4Split data).length = ((List.range 4).map (groupLen data.length)).sum := by
    simp [bg4Split,bg4Group_length]
  rw [h]
  simp only [range_succ,range_zero,map_append,map_nil,map_cons,sum_append,sum_cons,sum_nil,groupLen]
  omega

theorem getElem?_flatMap_range {α : Type} (part : ℕ → List α) {m k i : ℕ} (hk : k < m)
    (hi : i < (part k).length) :
    ((List.range m).flatMap part)[((List.range k).map fun j => (part j).length).sum + i]? =
      (part k)[i]? := by
  induction m with
  | zero => cases hk
  | succ m ih =>
    rw [range_succ,flatMap_append,flatMap_singleton]
    rcases Nat.lt_succ_iff_lt_or_eq.mp hk with hlt | rfl
    · have hf := ih hlt
      rw [getElem?_eq_getElem hi] at hf
      obtain ⟨hin,-⟩ := List.getElem?_eq_some_iff.mp hf
      rw [getElem?_append_left hin,hf,getElem?_eq_getElem hi]
    · rw [← length_flatMap,getElem?_append_right (Nat.le_add_right _ _),Nat.add_sub_cancel_left]

theorem bg4Regroup_bg4Split : bg4Regroup (bg4Split data) = data := by
  refine ext_getElem (by simp [bg4Regroup,bg4Split_length]) fun p hp hp' => ?_
  have hpo : p / 4 < (bg4Group data (p % 4)).length := by
    rw [bg4Group_length,groupLen]
    omega
  have hg := getElem?_flatMap_range (bg4Group data) (Nat.mod_lt p (by decide : 0 < 4)) hpo
  have hin := Nat.div_add_mod p 4
  simp only [bg4Group_length] at hg
  rw [bg4Group,getElem?_map,getElem?_range (by simpa [bg4Group] using hpo),Option.map_some,hin] at hg
  simp only [bg4Regroup,getElem_map,getElem_range,bg4Split_length,getD_eq_getElem?_getD]
  rw [bg4Split,groupStart,hg,Option.getD_some,getD_eq_getElem?_getD,getElem?_eq_getElem hp',
    Option.getD_some]

end ByteGrouping

/-- The frame codec, and the estimate by which grouping is recommended. Decoding gives the decoded
bytes and how many of the given bytes were read. -/
structure Compressor where
  compressFrame : Bytes → Bytes
  decodeFrame : Bytes → Option (Bytes × ℕ)
  consumed_le : ∀ bs out n, decodeFrame bs = some (out,n) → n ≤ bs.length
  bg4Recommended : Bytes → Bool

namespace Compressor
variable (Z : Compressor)
variable (scheme : CompressionScheme)

/-- Decoding gives back what was encoded, and reads the frame to its end. -/
def Inverts : Prop := ∀ data, Z.decodeFrame (Z.compressFrame data) =
    some (data,(Z.compressFrame data).length)

def chooseFromData (data : Bytes) : CompressionScheme :=
  if Z.bg4Recommended data then .byteGrouping4LZ4 else .lz4

variable (data : Bytes)

def resolveForData : CompressionScheme :=
  if scheme = .auto then Z.chooseFromData data else scheme

theorem chooseFromData_ne_auto : Z.chooseFromData data ≠ .auto := by
  unfold chooseFromData
  split <;> nofun

theorem resolveForData_ne_auto : Z.resolveForData scheme data ≠ .auto := by
  unfold resolveForData
  split
  · exact Z.chooseFromData_ne_auto data
  · assumption

def compressFromSlice : Bytes :=
  match scheme with
  | .none => data
  | .lz4 => Z.compressFrame data
  | .byteGrouping4LZ4 => Z.compressFrame (bg4Split data)
  | .auto => if Z.bg4Recommended data then Z.compressFrame (bg4Split data) else Z.compressFrame data

def decodeLz4 : Result (Bytes × ℕ) :=
  match Z.decodeFrame data with
  | some r => .ok r
  | none => .error (.io .other)

def decode : Result (Bytes × ℕ) :=
  match scheme with
  | .auto => .error (.malformedData "Cannot decompress with Auto scheme")
  | .none => .ok (data,data.length)
  | .lz4 => Z.decodeLz4 data
  | .byteGrouping4LZ4 => (Z.decodeLz4 data).map fun r => (bg4Regroup r.1,r.2)

def decompressFromSlice : Result Bytes :=
  (Z.decode scheme data).map Prod.fst

/-- Decodes the next `limit` bytes of a source. What the decoder does not read stays in the source.
-/
def decompressFromReader {σ : Type} [ByteSource σ] (limit : ℕ) : Reader σ CoreError Bytes := do
  let available ← peek
  let r ← Z.decode scheme (available.take limit)
  let _ ← readLimited r.2
  return r.1

variable {Z} {data} {out : Bytes}

theorem Inverts.decodeLz4 (hz : Z.Inverts) (data : Bytes) :
    Z.decodeLz4 (Z.compressFrame data) = .ok (data,(Z.compressFrame data).length) := by
  rw [Compressor.decodeLz4,hz data]

variable {scheme}

theorem decode_compressFromSlice (hz : Z.Inverts) (hs : scheme ≠ .auto)
    (data : Bytes) : Z.decode scheme (Z.compressFromSlice scheme data) =
      .ok (data,(Z.compressFromSlice scheme data).length) := by
  cases scheme with
  | none => rfl
  | lz4 => exact hz.decodeLz4 data
  | byteGrouping4LZ4 =>
    rw [compressFromSlice,decode,hz.decodeLz4 (bg4Split data),Except.map,bg4Regroup_bg4Split]
  | auto => exact absurd rfl hs

theorem decodeLz4_consumed_le {n : ℕ} (h : Z.decodeLz4 data = .ok (out,n)) : n ≤ data.length := by
  unfold decodeLz4 at h
  split at h
  · rename_i r hr
    cases h
    exact Z.consumed_le data out n hr
  · cases h

theorem decode_consumed_le {n : ℕ} (h : Z.decode scheme data = .ok (out,n)) : n ≤ data.length := by
  cases scheme with
  | none => exact (Prod.mk.inj (Except.ok.inj h)).2.symm.le
  | lz4 => exact decodeLz4_consumed_le h
  | byteGrouping4LZ4 =>
    rw [decode] at h
    cases hd : Z.decodeLz4 data with
    | error e =>
      rw [hd] at h
      cases h
    | ok r =>
      rw [hd] at h
      cases h
      exact decodeLz4_consumed_le hd
  | auto => cases h

theorem decompressFromReader_cursor (limit : ℕ) (s : Bytes) :
    (Z.decompressFromReader scheme limit).run s =
      (Z.decode scheme (s.take limit)).map fun r => (r.1,s.drop r.2) := by
  have hp : (peek : Reader Bytes CoreError Bytes).run s = .ok (s,s) := rfl
  have hl := run_lift (Z.decode scheme (s.take limit)) s
  rw [decompressFromReader,run_bind_of_ok hp]
  cases hd : Z.decode scheme (s.take limit) with
  | error e => rw [hd] at hl; exact run_bind_of_error hl
  | ok r =>
    rw [hd] at hl
    rw [run_bind_of_ok hl,run_bind_of_ok (readLimited_cursor r.2 s)]
    rfl

theorem decompressFromReader_eq_ok {limit : ℕ} {s s' : Bytes} :
    (Z.decompressFromReader scheme limit).run s = .ok (out,s') ↔
      ∃ k, Z.decode scheme (s.take limit) = .ok (out,k) ∧ s' = s.drop k := by
  rw [decompressFromReader_cursor]
  cases Z.decode scheme (s.take limit) with
  | error e => exact ⟨fun h => (nomatch h),fun ⟨_,h,_⟩ => (nomatch h)⟩
  | ok r =>
    constructor
    · intro h
      cases h
      exact ⟨r.2,rfl,rfl⟩
    · rintro ⟨k,hk,rfl⟩
      cases hk
      rfl

theorem follows_decompressFromReader {σ : Type} [ByteSource σ] (limit : ℕ) :
    Follows (σ := σ) (Z.decompressFromReader scheme limit) (Z.decompressFromReader scheme limit) :=
  follows_peek.bind fun available => (follows_lift (Z.decode scheme (available.take limit))).bind fun r =>
    (follows_readLimited r.2).bind fun _ => follows_pure r.1

end Compressor

/-- A small codec: a run of less than 255 zeros is one byte, and other data follows a byte 255. -/
def zeroRuns : Compressor where
  compressFrame data :=
    if data = List.replicate data.length 0 ∧ data.length < 255 then [UInt8.ofNat data.length]
      else 255 :: data
  decodeFrame
    | [] => some ([],0)
    | b :: bs => if b = 255 then some (bs,bs.length + 1) else some (List.replicate b.toNat 0,1)
  consumed_le bs out n h := by
    cases bs with
    | nil => simp_all
    | cons b bs =>
      dsimp only at h
      split at h <;> simp only [Option.some.injEq,Prod.mk.injEq] at h <;> simp [← h.2]
  bg4Recommended data := data.length % 8 = 0

theorem zeroRuns_inverts : zeroRuns.Inverts := by
  intro data
  by_cases hz : data = List.replicate data.length 0 ∧ data.length < 255
  · have hb : (UInt8.ofNat data.length).toNat = data.length := by
      rw [UInt8.toNat_ofNat']
      omega
    have hne : UInt8.ofNat data.length ≠ 255 := fun h => by
      have h255 : (UInt8.ofNat data.length).toNat = 255 := congrArg UInt8.toNat h
      omega
    have hf : zeroRuns.compressFrame data = [UInt8.ofNat data.length] := if_pos hz
    have hd : zeroRuns.decodeFrame [UInt8.ofNat data.length] =
        some (List.replicate (UInt8.ofNat data.length).toNat 0,1) := if_neg hne
    rw [hf,hd,hb,← hz.1]
    rfl
  · have hf : zeroRuns.compressFrame data = 255 :: data := if_neg hz
    rw [hf]
    rfl

end XetCore.Xorb
