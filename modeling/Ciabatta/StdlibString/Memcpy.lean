import Ciabatta.StdlibString.Mem

/-!
`src/stdlib-string/mem.c`: `memcpy`. The source promises the caller's ranges to be
apart and copies from below whatever they are. On any two ranges, also on some that
run over the end of the address space, the bytes between the two starts are repeated.
-/

namespace Ciabatta.StdlibString

open ByteMemory Exec

variable {κ : Type}

/-- The loop is the one of `memmove` for `dst < src`. -/
def memcpy (dst src count : Word) : Exec κ Word := do
  loop (memmoveUpRound dst src count) (2 ^ 64) 0
  return dst

/-- How far the destination is behind the source. -/
def distance (dst src : Word) : ℕ :=
  (dst - src).toNat

/-- The first `n` bytes at `dst` repeat those between `src` and `dst`. -/
def repeated (m : Mem) (dst src : Word) (n : ℕ) : Mem := fun x =>
  if (x - dst).toNat < n then m (src + BitVec.ofNat 64 ((x - dst).toNat % distance dst src))
  else m x

/-- What a call of `memcpy` does. -/
structure Repeats (dst src : Word) (n : ℕ) (s : Machine κ) (r : Word) (t : Machine κ) : Prop where
  result : r = dst
  bytes : ∀ i < n, t.mem (dst + BitVec.ofNat 64 i)
    = s.mem (src + BitVec.ofNat 64 (i % distance dst src))
  frame : ∀ x ∉ region dst n, t.mem x = s.mem x
  accesses : Since (fun e => e.footprint ⊆ region dst n ∪ region src n) s t

variable {dst src count : Word} {m : Mem} {n i : ℕ} {s t : Machine κ}

theorem repeated_of_notMem {x : Word} (h : x ∉ region dst n) : repeated m dst src n x = m x :=
  if_neg h

theorem repeated_add (hi : i < n) (hn : n ≤ 2 ^ 64) : repeated m dst src n
    (dst + BitVec.ofNat 64 i) = m (src + BitVec.ofNat 64 (i % distance dst src)) := by
  have hoffset : dst + BitVec.ofNat 64 i - dst = BitVec.ofNat 64 i := add_sub_cancel_left _ _
  rw [repeated, hoffset, BitVec.toNat_ofNat, Nat.mod_eq_of_lt (by omega), if_pos hi]

/-- The next byte to copy is one that has been copied, or it is still the old one. -/
theorem repeated_source (hn : n < 2 ^ 64) : repeated m dst src n (src + BitVec.ofNat 64 n)
    = m (src + BitVec.ofNat 64 (n % distance dst src)) := by
  have hplace : (src + BitVec.ofNat 64 n - dst).toNat
      = (n + (2 ^ 64 - distance dst src)) % 2 ^ 64 := by
    have hdistance : src + BitVec.ofNat 64 n - dst = BitVec.ofNat 64 n - (dst - src) := by
      rw [sub_sub_eq_add_sub, add_comm]
    rw [hdistance, BitVec.toNat_sub, BitVec.toNat_ofNat, distance]
    omega
  have hlt : distance dst src < 2 ^ 64 := (dst - src).isLt
  rcases Nat.lt_or_ge n (distance dst src) with hbefore | hbehind
  · rw [repeated_of_notMem, Nat.mod_eq_of_lt hbefore]
    rw [mem_region, hplace]
    omega
  · rcases Nat.eq_zero_or_pos (distance dst src) with hzero | hpos
    -- the two ranges are one
    · rw [repeated_of_notMem, hzero, Nat.mod_zero]
      rw [mem_region, hplace, hzero]
      omega
    · have hearlier : (src + BitVec.ofNat 64 n - dst).toNat = n - distance dst src := by
        omega
      rw [repeated, hearlier, if_pos (by omega), ← Nat.mod_eq_sub_mod hbehind]

theorem update_repeated (hn : n < 2 ^ 64) :
    Function.update (repeated m dst src n) (dst + BitVec.ofNat 64 n)
      (repeated m dst src n (src + BitVec.ofNat 64 n)) = repeated m dst src (n + 1) := by
  rw [repeated_source hn]
  funext x
  rcases eq_or_ne x (dst + BitVec.ofNat 64 n) with rfl | hne
  · rw [Function.update_self, repeated_add (Nat.lt_succ_self n) hn]
  · have hx : (x - dst).toNat ≠ n := mt (toNat_sub_eq_iff hn).mp hne
    have hiff : (x - dst).toNat < n + 1 ↔ (x - dst).toNat < n := by omega
    rw [Function.update_of_ne hne, repeated, repeated]
    simp only [hiff]

theorem yields_copyUp :
    Yields (loop (memmoveUpRound dst src count) (2 ^ 64) 0) s fun _ t =>
      t.mem = repeated s.mem dst src count.toNat ∧
        Since (fun e => e.footprint ⊆ region dst count.toNat ∪ region src count.toNat) s t := by
  refine yields_loop
    (fun i t => i ≤ count ∧ t.mem = repeated s.mem dst src i.toNat ∧
      Since (fun e => e.footprint ⊆ region dst count.toNat ∪ region src count.toNat) s t)
    (fun i => count.toNat - i.toNat) ?_ ⟨Nat.zero_le _, ?_, since_refl s⟩ ?_
  · rintro i t ⟨hle, hmem, hsince⟩
    rw [memmoveUpRound]
    by_cases hi : i < count
    · have hi' : i.toNat < count.toNat := hi
      have hnext := toNat_add_one (i := i) (lt_of_le_of_lt hi' count.isLt)
      refine .ite_pos hi (yields_copyByte.bind ?_)
      rintro _ u ⟨humem, hulog⟩
      rw [← ofNat_toNat_add src, ← ofNat_toNat_add dst] at hulog
      refine yields_pure ⟨⟨?_, ?_, since_copyByte count.isLt.le hi' hsince hulog⟩, by omega⟩
      · rw [BitVec.le_def, hnext]
        exact hi'
      · rw [humem, hmem, ← ofNat_toNat_add src, ← ofNat_toNat_add dst, update_repeated i.isLt,
          hnext]
    · have heq : i = count := BitVec.le_antisymm hle (BitVec.not_lt.mp hi)
      exact .ite_neg hi (yields_pure ⟨heq ▸ hmem, hsince⟩)
  · funext x
    exact (repeated_of_notMem (Nat.not_lt_zero _)).symm
  · rw [show (0 : Word).toNat = 0 from rfl, Nat.sub_zero]
    exact count.isLt

/-- On ranges that are apart this is the contract of `memmove`. -/
theorem Repeats.moved {r : Word} (h : Repeats dst src n s r t)
    (hapart : Disjoint (region dst n) (region src n)) : Moved dst src n s r t := by
  refine ⟨h.result, fun i hi => ?_, h.frame, h.accesses⟩
  rw [h.bytes i hi]
  by_cases hbehind : distance dst src ≤ i
  · -- the destination would start in the source
    have hstart : dst ∉ region src n :=
      Set.disjoint_left.mp hapart (self_mem_region (Nat.zero_lt_of_lt hi))
    rw [mem_region] at hstart
    exact absurd (Nat.lt_of_le_of_lt hbehind hi) hstart
  · rw [Nat.mod_eq_of_lt (Nat.lt_of_not_le hbehind)]

/-- For all ranges and every overlap of them. -/
theorem memcpy_repeats (dst src count : Word) (s : Machine κ) :
    Yields (memcpy dst src count) s (Repeats dst src count.toNat s) := by
  refine yields_copyUp.bind ?_
  rintro _ t ⟨hmem, hsince⟩
  refine yields_pure ⟨rfl, fun i hi => ?_, fun x hx => ?_, hsince⟩
  · rw [hmem, repeated_add hi count.isLt.le]
  · rw [hmem, repeated_of_notMem hx]

end Ciabatta.StdlibString
