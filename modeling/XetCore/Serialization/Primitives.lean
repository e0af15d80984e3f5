import XetCore.Lib.ByteSource
import XetCore.Merkle.DataHash

/-! # Writing and reading numbers and hashes

The errors of the formats, machine arithmetic, and the fixed-width fields that the
formats are made of. A sum that leaves its type stops the call, a cast cuts it off.
-/
namespace XetCore.Serialization
open ByteSources LittleEndian Merkle

inductive IoErrorKind where
  | unexpectedEof
  | invalidInput
  | other
deriving DecidableEq, Repr

inductive CoreError where
  | io (kind : IoErrorKind)
  | malformedData (message : String)
  | chunkHeaderParse
  | invalidRange
  | invalidArguments
  | internalError (message : String)
  | truncatedHashCollision (hash : ℕ)
  | shardVersion (message : String)
  | invalidShard (message : String)
  /-- The call panics: an arithmetic overflow or an index out of bounds. -/
  | panicked
deriving DecidableEq, Repr

abbrev Result := Except CoreError

def ensure (c : Prop) [Decidable c] (e : CoreError) : Result Unit := if c then .ok () else .error e

@[simp] theorem ensure_eq_ok {c : Prop} [Decidable c] {e : CoreError} {u : Unit} :
    ensure c e = .ok u ↔ c := by
  unfold ensure
  split <;> simp [*]

def asU32 (n : ℕ) : ℕ := n % 2 ^ 32

def addU32 (a b : ℕ) : Result ℕ := if a + b < 2 ^ 32 then .ok (a + b) else .error .panicked

def subU32 (a b : ℕ) : Result ℕ := if b ≤ a then .ok (a - b) else .error .panicked

def addUsize (a b : ℕ) : Result ℕ := if a + b < 2 ^ 64 then .ok (a + b) else .error .panicked

/-- A conversion that stops the call when the number is too large. -/
def tryIntoU32 (n : ℕ) : Result UInt32 := if n < 2 ^ 32 then .ok (UInt32.ofNat n) else .error .panicked

def unwrap {α : Type} : Option α → Result α
  | some a => .ok a
  | none => .error .panicked

@[simp] theorem unwrap_eq_ok {α : Type} {o : Option α} {a : α} : unwrap o = .ok a ↔ o = some a := by
  cases o <;> simp [unwrap]

variable {n : ℕ} {a b c : ℕ}

theorem tryIntoU32_of_lt (h : n < 2 ^ 32) : tryIntoU32 n = .ok (UInt32.ofNat n) := if_pos h

theorem asU32_of_lt (h : n < 2 ^ 32) : asU32 n = n := Nat.mod_eq_of_lt h

theorem addU32_of_lt (h : a + b < 2 ^ 32) : addU32 a b = .ok (a + b) := if_pos h

theorem checked_eq_ok {p : Prop} [Decidable p] :
    (if p then Except.ok a else .error CoreError.panicked) = .ok c ↔ c = a ∧ p := by
  split <;> simp [*,eq_comm]

theorem addU32_eq_ok : addU32 a b = .ok c ↔ c = a + b ∧ a + b < 2 ^ 32 := checked_eq_ok

theorem subU32_of_le (h : b ≤ a) : subU32 a b = .ok (a - b) := if_pos h

theorem subU32_eq_ok : subU32 a b = .ok c ↔ c = a - b ∧ b ≤ a := checked_eq_ok

theorem addUsize_eq_ok : addUsize a b = .ok c ↔ c = a + b ∧ a + b < 2 ^ 64 := checked_eq_ok

def writeU8 (v : UInt8) : Bytes := [v]
def writeU32 (v : ℕ) : Bytes := toLE 4 v
def writeU64 (v : ℕ) : Bytes := toLE 8 v
def writeHash (h : DataHash) : Bytes := h.asBytes

def writeWord32 (v : UInt32) : Bytes := writeU32 v.toNat
def writeWord64 (v : UInt64) : Bytes := writeU64 v.toNat

@[simp] theorem length_writeU8 (v : UInt8) : (writeU8 v).length = 1 := rfl
@[simp] theorem length_writeU32 (v : ℕ) : (writeU32 v).length = 4 := toLE_length 4 v
@[simp] theorem length_writeU64 (v : ℕ) : (writeU64 v).length = 8 := toLE_length 8 v
@[simp] theorem length_writeHash (h : DataHash) : (writeHash h).length = 32 := h.asBytes_length

@[simp] theorem length_writeWord32 (v : UInt32) : (writeWord32 v).length = 4 := length_writeU32 _
@[simp] theorem length_writeWord64 (v : UInt64) : (writeWord64 v).length = 8 := length_writeU64 _

theorem length_flatMap_eq {α : Type} {enc : α → Bytes} (h : ∀ a, (enc a).length = n) (as : List α) :
    (as.flatMap enc).length = as.length * n := by
  simp [h]

section Read
variable {σ : Type} [ByteSource σ]

def readBytes (n : ℕ) : Reader σ CoreError Bytes := readExact (.io .unexpectedEof) n
def readU8 : Reader σ CoreError UInt8 := (·.headD 0) <$> readBytes 1
def readU32 : Reader σ CoreError ℕ := ofLE <$> readBytes 4
def readU64 : Reader σ CoreError ℕ := ofLE <$> readBytes 8
def readWord32 : Reader σ CoreError UInt32 := UInt32.ofNat <$> readU32
def readWord64 : Reader σ CoreError UInt64 := UInt64.ofNat <$> readU64
def readHash : Reader σ CoreError DataHash := DataHash.fromBytes <$> readBytes 32

end Read

theorem reads_bytes (e : Bytes) : Reads (readBytes e.length) e e := reads_readExact _ e

theorem reads_bytes_of_length {e : Bytes} (h : e.length = n) :
    Reads (readBytes n) e e := h ▸ reads_bytes e

theorem reads_ensure {c : Prop} [Decidable c] {err : CoreError} (h : c) :
    Reads (ε := CoreError) (liftM (ensure c err)) [] () :=
  reads_lift (ensure_eq_ok.mpr h)

theorem reads_u8 (v : UInt8) : Reads readU8 (writeU8 v) v := (reads_bytes [v]).map _

theorem reads_toLE {v : ℕ} (h : v < 256 ^ n) : Reads (ofLE <$> readBytes n) (toLE n v) v := by
  have hr := (reads_bytes (toLE n v)).map ofLE
  rwa [ofLE_toLE h,toLE_length] at hr

theorem reads_u32 {v : ℕ} (h : v < 2 ^ 32) : Reads readU32 (writeU32 v) v := reads_toLE h

theorem reads_u64 {v : ℕ} (h : v < 2 ^ 64) : Reads readU64 (writeU64 v) v := reads_toLE h

theorem reads_word32 (v : UInt32) : Reads readWord32 (writeWord32 v) v := by
  have hr := (reads_u32 v.toNat_lt).map UInt32.ofNat
  rwa [UInt32.ofNat_toNat] at hr

theorem reads_word64 (v : UInt64) : Reads readWord64 (writeWord64 v) v := by
  have hr := (reads_u64 v.toNat_lt).map UInt64.ofNat
  rwa [UInt64.ofNat_toNat] at hr

theorem reads_hash (h : DataHash) : Reads readHash (writeHash h) h := by
  have hr := (reads_bytes h.asBytes).map DataHash.fromBytes
  rwa [DataHash.fromBytes_asBytes,DataHash.asBytes_length] at hr

theorem parses_bytes (n : ℕ) :
    Parses (readBytes n) fun b e => b = e ∧ e.length = n := parses_readExact _ n

theorem parses_ensure (c : Prop) [Decidable c] (err : CoreError) :
    Parses (ε := CoreError) (liftM (ensure c err)) fun _ e => c ∧ e = [] :=
  (parses_lift _).mono fun _ _ h => ⟨ensure_eq_ok.mp h.1,h.2⟩

theorem parses_ensure_bind {α : Type} {c : Prop} [Decidable c] {err : CoreError}
    {f : Unit → Reader Bytes CoreError α} {P : α → Bytes → Prop} (hf : c → Parses (f ()) P) :
    Parses (liftM (ensure c err) >>= f) fun a e => c ∧ P a e := by
  intro s a s' h
  simp only [run_bind_eq_ok,run_lift_eq_ok,ensure_eq_ok] at h
  obtain ⟨_,_,⟨hc,rfl⟩,h⟩ := h
  obtain ⟨e,hs,hP⟩ := hf hc _ _ _ h
  exact ⟨e,hs,hc,hP⟩

theorem parses_u8 : Parses readU8 fun v e => e = writeU8 v := by
  refine ((parses_bytes 1).map _).mono fun v e => ?_
  rintro ⟨b,⟨rfl,hlen⟩,rfl⟩
  obtain ⟨c,rfl⟩ := List.length_eq_one_iff.mp hlen
  rfl

theorem parses_toLE (n : ℕ) : Parses (ofLE <$> readBytes n) fun v e => v < 256 ^ n ∧ e = toLE n v := by
  refine ((parses_bytes n).map _).mono fun v e => ?_
  rintro ⟨b,⟨rfl,rfl⟩,rfl⟩
  exact ⟨ofLE_lt b,(toLE_ofLE b).symm⟩

theorem parses_u32 : Parses readU32 fun v e => v < 2 ^ 32 ∧ e = writeU32 v := parses_toLE 4

theorem parses_u64 : Parses readU64 fun v e => v < 2 ^ 64 ∧ e = writeU64 v := parses_toLE 8

theorem parses_word32 : Parses readWord32 fun v e => e = writeWord32 v := by
  refine (parses_u32.map _).mono fun v e => ?_
  rintro ⟨n,⟨hlt,rfl⟩,rfl⟩
  rw [writeWord32,UInt32.toNat_ofNat_of_lt' hlt]

theorem parses_word64 : Parses readWord64 fun v e => e = writeWord64 v := by
  refine (parses_u64.map _).mono fun v e => ?_
  rintro ⟨n,⟨hlt,rfl⟩,rfl⟩
  rw [writeWord64,UInt64.toNat_ofNat_of_lt' hlt]

theorem parses_hash : Parses readHash fun h e => e = writeHash h := by
  refine ((parses_bytes 32).map _).mono fun h e => ?_
  rintro ⟨b,⟨rfl,hlen⟩,rfl⟩
  exact (DataHash.asBytes_fromBytes hlen).symm

end XetCore.Serialization
