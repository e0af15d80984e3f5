import Mathlib.Tactic

/-! # Bytes and little-endian numbers

A number is written as a fixed count of bytes, the lowest byte first. Reading what was
written gives the number back when it fits, and writing what was read gives the bytes back.
-/
abbrev XetCore.Bytes := List UInt8

namespace XetCore.LittleEndian

def toLE : ℕ → ℕ → Bytes
  | 0, _ => []
  | k + 1, n => UInt8.ofNat n :: toLE k (n / 256)

def ofLE : Bytes → ℕ
  | [] => 0
  | b :: bs => b.toNat + 256 * ofLE bs

@[simp] theorem toLE_length (k n : ℕ) : (toLE k n).length = k := by
  induction k generalizing n with
  | zero => rfl
  | succ k ih => rw [toLE,List.length_cons,ih]

theorem ofLE_lt (bs : Bytes) : ofLE bs < 256 ^ bs.length := by
  induction bs with
  | nil => exact Nat.one_pos
  | cons b bs ih =>
    have hb : b.toNat < 256 := UInt8.toNat_lt b
    rw [ofLE,List.length_cons,Nat.pow_succ]
    omega

theorem ofLE_toLE {k n : ℕ} (h : n < 256 ^ k) : ofLE (toLE k n) = n := by
  induction k generalizing n with
  | zero =>
    rw [toLE,ofLE]
    omega
  | succ k ih =>
    have hd : n / 256 < 256 ^ k := by
      omega
    rw [toLE,ofLE,ih hd,UInt8.toNat_ofNat']
    omega

theorem toLE_ofLE (bs : Bytes) : toLE bs.length (ofLE bs) = bs := by
  induction bs with
  | nil => rfl
  | cons b bs ih =>
    have hb : b.toNat < 256 := UInt8.toNat_lt b
    have hd : (b.toNat + 256 * ofLE bs) / 256 = ofLE bs := by omega
    have hl : UInt8.ofNat (b.toNat + 256 * ofLE bs) = b := by
      apply UInt8.toNat_inj.mp
      rw [UInt8.toNat_ofNat']
      omega
    rw [ofLE,List.length_cons,toLE,hd,ih,hl]

end XetCore.LittleEndian
