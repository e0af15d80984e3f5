import XetCore.Lib.Bytes

/-! # Data hashes

A hash is four 64-bit words. Its bytes are those of the words, one after the other. Hashes
are ordered by their words.
-/
namespace XetCore.Merkle
open LittleEndian List

structure DataHash where
  w0 : UInt64
  w1 : UInt64
  w2 : UInt64
  w3 : UInt64
deriving DecidableEq, Repr

namespace DataHash

instance : Inhabited DataHash := ⟨⟨0,0,0,0⟩⟩

def marker : DataHash := ⟨-1,-1,-1,-1⟩

def asBytes (h : DataHash) : Bytes :=
  toLE 8 h.w0.toNat ++ (toLE 8 h.w1.toNat ++ (toLE 8 h.w2.toNat ++ toLE 8 h.w3.toNat))

def fromBytes (bs : Bytes) : DataHash where
  w0 := UInt64.ofNat (ofLE (bs.take 8))
  w1 := UInt64.ofNat (ofLE ((bs.drop 8).take 8))
  w2 := UInt64.ofNat (ofLE ((bs.drop 16).take 8))
  w3 := UInt64.ofNat (ofLE ((bs.drop 24).take 8))

@[simp] theorem asBytes_length (h : DataHash) : h.asBytes.length = 32 := by simp [asBytes]

theorem ofNat_ofLE_toLE (w : UInt64) : UInt64.ofNat (ofLE (toLE 8 w.toNat)) = w := by
  rw [ofLE_toLE (by simpa using UInt64.toNat_lt w),UInt64.ofNat_toNat]

theorem fromBytes_asBytes (h : DataHash) : fromBytes h.asBytes = h := by
  simp [fromBytes,asBytes,drop_append,take_of_length_le,drop_of_length_le,ofNat_ofLE_toLE]

theorem toLE_ofNat_ofLE {bs : Bytes} (h : bs.length = 8) :
    toLE 8 (UInt64.ofNat (ofLE bs)).toNat = bs := by
  have hlt := ofLE_lt bs
  rw [h] at hlt
  rw [UInt64.toNat_ofNat_of_lt' (by simpa using hlt)]
  nth_rewrite 1 [← h]
  exact toLE_ofLE bs

theorem asBytes_fromBytes {bs : Bytes} (h : bs.length = 32) : (fromBytes bs).asBytes = bs := by
  have hlen : ∀ k, k ≤ 24 → ((bs.drop k).take 8).length = 8 := fun k hk => by
    rw [length_take,length_drop]
    omega
  have hl : (bs.drop 24).take 8 = bs.drop 24 := take_of_length_le (by simp [h])
  have ht := take_append_drop 8 (bs.drop 16)
  have hm := take_append_drop 8 (bs.drop 8)
  rw [drop_drop] at ht hm
  have hf : (bs.take 8).length = 8 := hlen 0 (by omega)
  simp only [asBytes,fromBytes]
  rw [toLE_ofNat_ofLE hf,toLE_ofNat_ofLE (hlen 8 (by omega)),toLE_ofNat_ofLE (hlen 16 (by omega)),
    toLE_ofNat_ofLE (hlen 24 (by omega)),hl,ht,hm,take_append_drop]

/-- The words in the order in which they are compared. -/
def words (h : DataHash) : ℕ ×ₗ ℕ ×ₗ ℕ ×ₗ ℕ :=
  toLex (h.w0.toNat,toLex (h.w1.toNat,toLex (h.w2.toNat,h.w3.toNat)))

theorem words_injective : Function.Injective words := by
  rintro ⟨a,b,c,d⟩ ⟨a',b',c',d'⟩ h
  simp only [words,EmbeddingLike.apply_eq_iff_eq,Prod.mk.injEq,UInt64.toNat_inj] at h
  obtain ⟨rfl,rfl,rfl,rfl⟩ := h
  rfl

instance : LinearOrder DataHash := LinearOrder.lift' words words_injective

instance : Std.TransOrd DataHash := inferInstance

instance : Std.LawfulEqOrd DataHash where
  eq_of_compare := compare_eq_iff_eq.mp

/-- The first word, by which the lookup tables are sorted. -/
def truncateHash (h : DataHash) : ℕ := h.w0.toNat

theorem truncateHash_lt (h : DataHash) : h.truncateHash < 2 ^ 64 := h.w0.toNat_lt

theorem truncateHash_mono {a b : DataHash} (h : a ≤ b) : a.truncateHash ≤ b.truncateHash := by
  have hw : a.words ≤ b.words := h
  rcases Prod.Lex.le_iff.mp hw with hlt | ⟨heq,-⟩
  · exact hlt.le
  · exact heq.le

end DataHash
end XetCore.Merkle
