import Ciabatta.Lib.Counted
import Ciabatta.Lib.Frame
import Ciabatta.World

/-!
`memset` of the Windows layer (`os/windows/cia-init.c`), to which the compiler turns
for the arrays that it clears. Its counter is an `int`, its length a `size_t`.
-/

namespace Ciabatta.Os

open ByteMemory Exec

/-- The test `i != length` extends the sign of `i`, which is not negative. -/
def memsetRound (bytes : Word) (ch : BitVec 32) (length : Word) (i : ℕ) : Exec Call (ℕ ⊕ Unit) :=
  if BitVec.ofNat 64 i ≠ length then do
    storeByte (bytes + BitVec.ofNat 64 i) (ch.setWidth 8)
    let i ← incrementInt i
    return .inl i
  else
    return .inr ()

def memset (fuel : ℕ) (dest : Word) (ch : BitVec 32) (length : Word) : Exec Call Unit :=
  loop (memsetRound dest ch length) fuel 0

/-- The memory with `n` bytes filled. -/
def filled (m : Mem) (dest : Word) (ch : BitVec 32) (n : ℕ) : Mem := fun x =>
  if (x - dest).toNat < n then ch.setWidth 8 else m x

/-- The call returns and has filled the bytes, and nothing else. -/
def Fills (dest : Word) (ch : BitVec 32) (length : Word) (s : Machine Call) : Prop :=
  ∃ n, ∀ fuel, n ≤ fuel → Yields (memset fuel dest ch length) s fun _ t =>
    (∀ i < length.toNat, t.mem (dest + BitVec.ofNat 64 i) = ch.setWidth 8) ∧
      SameOff (region dest length.toNat) s.mem t.mem

variable {dest length : Word} {ch : BitVec 32} {m : Mem} {n : ℕ} {s : Machine Call}

theorem update_filled (hn : n < 2 ^ 64) :
    Function.update (filled m dest ch n) (dest + BitVec.ofNat 64 n) (ch.setWidth 8)
      = filled m dest ch (n + 1) := by
  funext x
  rcases eq_or_ne x (dest + BitVec.ofNat 64 n) with rfl | hne
  · rw [Function.update_self, filled, (toNat_sub_eq_iff hn).mpr rfl, if_pos (Nat.lt_succ_self n)]
  · have hx : (x - dest).toNat ≠ n := mt (toNat_sub_eq_iff hn).mp hne
    have hiff : (x - dest).toNat < n + 1 ↔ (x - dest).toNat < n := by omega
    rw [Function.update_of_ne hne, filled, filled]
    simp only [hiff]

theorem ofNat_ne_length {i : ℕ} (hi : i < length.toNat) : BitVec.ofNat 64 i ≠ length := by
  rintro rfl
  rw [BitVec.toNat_ofNat] at hi
  omega

theorem counts_memset : Counts (2 ^ 31) length.toNat
    (fun i b t => b = i ∧ t.mem = filled m dest ch i)
    (fun _ t => t.mem = filled m dest ch length.toNat) (memsetRound dest ch length) where
  next := by
    rintro i _ t ⟨rfl, ht⟩ hlt hnext
    refine .ite_pos (ofNat_ne_length hlt) ?_
    rw [incrementInt_of_lt hnext]
    refine ⟨_, _, rfl, _, rfl, rfl, ?_⟩
    rw [← update_filled (by omega), ← ht]
  overflow := by
    rintro i _ t ⟨rfl, ht⟩ hlt hnext
    rw [memsetRound, if_pos (ofNat_ne_length hlt), incrementInt_of_not_lt hnext]
    exact ⟨_, rfl⟩
  last := by
    rintro _ t ⟨rfl, ht⟩
    have hlast : ¬ BitVec.ofNat 64 length.toNat ≠ length := by
      rw [BitVec.ofNat_toNat, BitVec.setWidth_eq]
      exact not_not.mpr rfl
    exact .ite_neg hlast (yields_pure ⟨(), rfl, ht⟩)

/-- A length that an `int` can count to, and no other. -/
theorem memset_fills_iff : Fills dest ch length s ↔ length.toNat < 2 ^ 31 := by
  have hstart : 0 = 0 ∧ s.mem = filled s.mem dest ch 0 :=
    ⟨rfl, funext fun _ => (if_neg (Nat.not_lt_zero _)).symm⟩
  constructor
  · rintro ⟨fuel, hn⟩
    obtain ⟨_, t, hrun, -⟩ := hn fuel le_rfl
    exact counts_memset.lt_of_ok hstart (Nat.zero_le _) (by decide) hrun
  · intro hlength
    refine ⟨length.toNat + 1, fun fuel hfuel => ?_⟩
    refine (counts_memset.yields hlength hstart (Nat.zero_le _) (by omega)).mono fun _ t ht => ?_
    rw [ht]
    refine ⟨fun i hi => ?_, fun x hx => if_neg hx⟩
    rw [filled, (toNat_sub_eq_iff (by omega)).mpr rfl, if_pos hi]

end Ciabatta.Os
