import Ciabatta.CiaMem.Arena
import Ciabatta.CiaMem.Pool
import Ciabatta.Lib.Layout

/-!
The alignment functions of `util.c`, which the pools, the arenas and the placement of a
TCB rest on: each of the masks is a rounding to a multiple of the alignment.
-/

namespace Ciabatta.CiaMem

open ByteMemory Layout

def ciaPtrAlignb (ptr alignment : Word) : Word :=
  ptr &&& ~~~(alignment - 1)

def ciaSizeAlignb (size alignment : Word) : Word :=
  size &&& ~~~(alignment - 1)

/-- Some multiple of the alignment that is not below the size is in 64 bits. -/
def HasMultiple (size alignment : Word) : Prop :=
  ∃ m, alignment.toNat ∣ m ∧ size.toNat ≤ m ∧ m < 2 ^ 64

/-- What the four functions do with an alignment. -/
structure Aligns (alignment : Word) : Prop where
  greatest : ∀ size, IsGreatest {m | alignment.toNat ∣ m ∧ m ≤ size.toNat}
    (ciaSizeAlignb size alignment).toNat
  least : ∀ size, HasMultiple size alignment →
    IsLeast {m | alignment.toNat ∣ m ∧ size.toNat ≤ m} (ciaSizeAlignf size alignment).toNat
  idempotent : ∀ size, HasMultiple size alignment →
    ciaSizeAlignf (ciaSizeAlignf size alignment) alignment = ciaSizeAlignf size alignment
  monotone : ∀ size size', HasMultiple size alignment → HasMultiple size' alignment →
    size ≤ size' → ciaSizeAlignf size alignment ≤ ciaSizeAlignf size' alignment
  backward : ∀ size, HasMultiple size alignment →
    ciaSizeAlignf size alignment = ciaSizeAlignb (size + alignment - 1) alignment
  le_iff : ∀ size m, HasMultiple size alignment → alignment.toNat ∣ m →
    ((ciaSizeAlignf size alignment).toNat ≤ m ↔ size.toNat ≤ m)
  pointers : ∀ ptr, ciaPtrAlignf ptr alignment = ciaSizeAlignf ptr alignment ∧
    ciaPtrAlignb ptr alignment = ciaSizeAlignb ptr alignment

variable {size alignment : Word}

theorem toNat_ciaSizeAlignb (h : alignment.toNat.isPowerOfTwo) (size : Word) :
    (ciaSizeAlignb size alignment).toNat = size.toNat / alignment.toNat * alignment.toNat := by
  obtain ⟨k, hk⟩ := h
  exact toNat_and_not_pred hk

theorem HasMultiple.alignUp_lt (h : HasMultiple size alignment)
    (hpow : alignment.toNat.isPowerOfTwo) : alignUp size.toNat alignment.toNat < 2 ^ 64 := by
  obtain ⟨m, hdvd, hle, hlt⟩ := h
  exact (alignUp_le (Nat.pos_of_isPowerOfTwo hpow) hle hdvd).trans_lt hlt

/-- As long as it does not turn around, `cia_size_alignf` rounds up. -/
theorem toNat_ciaSizeAlignf (hpow : alignment.toNat.isPowerOfTwo)
    (h : HasMultiple size alignment) :
    (ciaSizeAlignf size alignment).toNat = alignUp size.toNat alignment.toNat := by
  have hlt := h.alignUp_lt hpow
  obtain ⟨k, hk⟩ := hpow
  rw [ciaSizeAlignf, toNat_alignUp_mod hk, Nat.mod_eq_of_lt hlt]

/-- A rounded size is its own multiple. -/
theorem hasMultiple_ciaSizeAlignf (hpow : alignment.toNat.isPowerOfTwo)
    (h : HasMultiple size alignment) : HasMultiple (ciaSizeAlignf size alignment) alignment := by
  refine ⟨alignUp size.toNat alignment.toNat, dvd_alignUp _ _, ?_, h.alignUp_lt hpow⟩
  rw [toNat_ciaSizeAlignf hpow h]

/-- Every power of two aligns, from 1 to `2 ^ 63`. -/
theorem aligns_of_isPowerOfTwo (alignment : Word) (hpow : alignment.toNat.isPowerOfTwo) :
    Aligns alignment where
  greatest size := by
    rw [toNat_ciaSizeAlignb hpow]
    exact isGreatest_div_mul (Nat.pos_of_isPowerOfTwo hpow)
  least size h := by
    rw [toNat_ciaSizeAlignf hpow h]
    exact isLeast_alignUp (Nat.pos_of_isPowerOfTwo hpow)
  idempotent size h := by
    apply BitVec.eq_of_toNat_eq
    rw [toNat_ciaSizeAlignf hpow (hasMultiple_ciaSizeAlignf hpow h), toNat_ciaSizeAlignf hpow h,
      alignUp_eq_self_iff (Nat.pos_of_isPowerOfTwo hpow)]
    exact dvd_alignUp _ _
  monotone size size' h h' hle := by
    rw [BitVec.le_def, toNat_ciaSizeAlignf hpow h, toNat_ciaSizeAlignf hpow h']
    exact alignUp_mono (Nat.pos_of_isPowerOfTwo hpow) hle
  backward size _ := rfl
  le_iff size m h hdvd := by
    rw [toNat_ciaSizeAlignf hpow h]
    exact alignUp_le_iff (Nat.pos_of_isPowerOfTwo hpow) hdvd
  pointers ptr := ⟨rfl, rfl⟩

theorem aligns_sixteen : Aligns 16 :=
  aligns_of_isPowerOfTwo 16 ⟨4, rfl⟩

end Ciabatta.CiaMem
