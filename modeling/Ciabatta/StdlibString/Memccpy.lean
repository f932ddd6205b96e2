import Ciabatta.Lib.Counted
import Ciabatta.StdlibString.Mem

/-!
`src/stdlib-string/mem.c`: `memccpy`. The byte that ends the copy is compared with `c`
as an `int`, and the address returned for it is one in the source.
-/

namespace Ciabatta.StdlibString

open ByteMemory Exec

variable {κ : Type}

def memccpyRound (dst src : Word) (c : BitVec 32) (count i : Word) : Exec κ (Word ⊕ Word) := do
  if i < count then do
    copyByte dst src i
    let b ← loadByte (src + i)
    if b.setWidth 32 = c then
      return .inr (src + (i + 1))
    else
      return .inl (i + 1)
  else
    return .inr 0

def memccpy (dst src : Word) (c : BitVec 32) (count : Word) : Exec κ Word :=
  loop (memccpyRound dst src c count) (2 ^ 64) 0

/-- The first of the `n` bytes from `src` on that is `b`. -/
def firstMatch (m : Mem) (src : Word) (b : Byte) (n : ℕ) : Option ℕ :=
  (List.range n).find? fun i => m (src + BitVec.ofNat 64 i) = b

/-- How many bytes there are to copy, up to and with the match. -/
def matchLength (found : Option ℕ) (n : ℕ) : ℕ :=
  match found with
  | some k => k + 1
  | none => n

/-- The address behind the copy of the match. -/
def matchEnd (dst : Word) (found : Option ℕ) : Word :=
  match found with
  | some k => dst + BitVec.ofNat 64 (k + 1)
  | none => 0

/-- What a call of `memccpy` should do, for the byte `c` and at most `n` bytes. -/
structure MemccpyCopies (dst src : Word) (c : Byte) (n : ℕ) (s : Machine κ) (r : Word)
    (t : Machine κ) : Prop where
  bytes : ∀ i < matchLength (firstMatch s.mem src c n) n,
    t.mem (dst + BitVec.ofNat 64 i) = s.mem (src + BitVec.ofNat 64 i)
  frame : ∀ x ∉ region dst (matchLength (firstMatch s.mem src c n) n), t.mem x = s.mem x
  result : r = matchEnd dst (firstMatch s.mem src c n)

variable {dst src count : Word} {c : BitVec 32} {i k n : ℕ} {s t : Machine κ}

/-! ### The loop -/

/-- The next byte is copied, and ends the copy or not. -/
theorem yields_memccpyRound (hdisj : Disjoint (region src n) (region dst n))
    (hn : n ≤ count.toNat) (hi : i < n) (ht : t.mem = copied s.mem dst src i) :
    Yields (memccpyRound dst src c count (BitVec.ofNat 64 i)) t fun r u =>
      u.mem = copied s.mem dst src (i + 1) ∧
        r = if (s.mem (src + BitVec.ofNat 64 i)).setWidth 32 = c then
          .inr (src + BitVec.ofNat 64 (i + 1)) else .inl (BitVec.ofNat 64 (i + 1)) := by
  have hcount := count.isLt
  have hnext : BitVec.ofNat 64 i + 1 = BitVec.ofNat 64 (i + 1) := (BitVec.ofNat_add i 1).symm
  refine .ite_pos ((ofNat_lt_iff (by omega)).mpr (by omega)) (yields_copyByte.bind ?_)
  rintro _ u ⟨hmem, -⟩
  rw [ht, copied_source hdisj (by omega) hi hi.le, update_copied_end (by omega)] at hmem
  refine (yields_loadByte rfl).bind ?_
  rintro _ v ⟨rfl, hv⟩
  rw [hmem, copied_source hdisj (by omega) hi hi, hnext]
  by_cases hstop : (s.mem (src + BitVec.ofNat 64 i)).setWidth 32 = c
  · exact .ite_pos hstop (yields_pure ⟨hv.trans hmem, (if_pos hstop).symm⟩)
  · exact .ite_neg hstop (yields_pure ⟨hv.trans hmem, (if_neg hstop).symm⟩)

/-- Without a byte that is `c` as an `int`, everything is copied. -/
theorem yields_memccpy_none (hdisj : Disjoint (region src count.toNat) (region dst count.toNat))
    (hno : ∀ i < count.toNat, (s.mem (src + BitVec.ofNat 64 i)).setWidth 32 ≠ c) :
    Yields (memccpy dst src c count) s fun r t =>
      r = 0 ∧ t.mem = copied s.mem dst src count.toNat := by
  have hcount := count.isLt
  have hcounts : Counts (2 ^ 64) count.toNat
      (fun i b t => b = BitVec.ofNat 64 i ∧ t.mem = copied s.mem dst src i)
      (fun r t => r = 0 ∧ t.mem = copied s.mem dst src count.toNat)
      (memccpyRound (κ := κ) dst src c count) := by
    refine ⟨?_, fun i b t _ hlt hnext => absurd (by omega) hnext, ?_⟩
    · rintro i _ t ⟨rfl, ht⟩ hlt -
      refine (yields_memccpyRound hdisj le_rfl hlt ht).mono ?_
      rintro _ u ⟨hu, rfl⟩
      exact ⟨_, if_neg (hno i hlt), rfl, hu⟩
    · rintro _ t ⟨rfl, ht⟩
      have hend : ¬ BitVec.ofNat 64 count.toNat < count := by
        rw [BitVec.ofNat_toNat, BitVec.setWidth_eq]
        exact BitVec.lt_irrefl count
      exact .ite_neg hend (yields_pure ⟨0, rfl, rfl, ht⟩)
  exact hcounts.yields hcount ⟨rfl, rfl⟩ (Nat.zero_le _) hcount

/-- The first byte that is `c` as an `int` ends the copy. -/
theorem yields_memccpy_some (hdisj : Disjoint (region src (k + 1)) (region dst (k + 1)))
    (hk : k < count.toNat) (hstop : (s.mem (src + BitVec.ofNat 64 k)).setWidth 32 = c)
    (hbefore : ∀ i < k, (s.mem (src + BitVec.ofNat 64 i)).setWidth 32 ≠ c) :
    Yields (memccpy dst src c count) s fun r _ => r = src + BitVec.ofNat 64 (k + 1) := by
  have hcount := count.isLt
  have hcounts : Counts (2 ^ 64) k
      (fun i b t => b = BitVec.ofNat 64 i ∧ t.mem = copied s.mem dst src i)
      (fun r _ => r = src + BitVec.ofNat 64 (k + 1))
      (memccpyRound (κ := κ) dst src c count) := by
    refine ⟨?_, fun i b t _ hlt hnext => absurd (by omega) hnext, ?_⟩
    · rintro i _ t ⟨rfl, ht⟩ hlt -
      refine (yields_memccpyRound hdisj hk (by omega) ht).mono ?_
      rintro _ u ⟨hu, rfl⟩
      exact ⟨_, if_neg (hbefore i hlt), rfl, hu⟩
    · rintro _ t ⟨rfl, ht⟩
      refine (yields_memccpyRound hdisj hk (Nat.lt_succ_self k) ht).mono ?_
      rintro _ u ⟨-, rfl⟩
      exact ⟨_, if_pos hstop, rfl⟩
  exact hcounts.yields (by omega) ⟨rfl, rfl⟩ (Nat.zero_le _) (by omega)

/-- A number that no byte has as its value is never met. -/
theorem yields_memccpy_wide (hwide : ∀ b : Byte, b.setWidth 32 ≠ c) :
    Yields (memccpy dst src c count) s fun r _ => r = 0 := by
  have hcount := count.isLt
  have hcounts : Counts (2 ^ 64) count.toNat (fun i b _ => b = BitVec.ofNat 64 i)
      (fun r _ => r = 0) (memccpyRound (κ := κ) dst src c count) := by
    refine ⟨?_, fun i b t _ hlt hnext => absurd (by omega) hnext, ?_⟩
    · rintro i _ t rfl hlt -
      refine .ite_pos ((ofNat_lt_iff (by omega)).mpr hlt) (yields_copyByte.bind fun _ u _ => ?_)
      refine (yields_loadByte rfl).bind fun b v _ => .ite_neg (hwide b) (yields_pure ?_)
      exact ⟨_, rfl, (BitVec.ofNat_add i 1).symm⟩
    · rintro _ t rfl
      have hend : ¬ BitVec.ofNat 64 count.toNat < count := by
        rw [BitVec.ofNat_toNat, BitVec.setWidth_eq]
        exact BitVec.lt_irrefl count
      exact .ite_neg hend (yields_pure ⟨0, rfl, rfl⟩)
  exact hcounts.yields hcount rfl (Nat.zero_le _) hcount

/-! ### Main result -/

theorem firstMatch_eq_some {m : Mem} {b : Byte} (h : firstMatch m src b n = some k) :
    k < n ∧ m (src + BitVec.ofNat 64 k) = b ∧ ∀ i < k, m (src + BitVec.ofNat 64 i) ≠ b := by
  rw [firstMatch, List.find?_range_eq_some] at h
  simpa [and_left_comm] using h

theorem firstMatch_eq_none_iff {m : Mem} {b : Byte} :
    firstMatch m src b n = none ↔ ∀ i < n, m (src + BitVec.ofNat 64 i) ≠ b := by
  rw [firstMatch, List.find?_range_eq_none]
  simp

/-- As an `int`, a byte is `c` only if it is `c` as an `unsigned char`. -/
theorem eq_setWidth_of_setWidth_eq {b : Byte} (h : b.setWidth 32 = c) : b = c.setWidth 8 := by
  rw [← h, BitVec.setWidth_setWidth_of_le _ (by decide), BitVec.setWidth_eq]

/-- The address of a match is not what the code returns. -/
theorem not_memccpy_some (hsome : firstMatch s.mem src (c.setWidth 8) count.toNat = some k)
    (hdisj : Disjoint (region src (k + 1)) (region dst (k + 1)))
    (hdst : dst.toNat + (k + 1) < 2 ^ 64) :
    ¬ Yields (memccpy dst src c count) s
      (MemccpyCopies dst src (c.setWidth 8) count.toNat s) := by
  obtain ⟨hk, hmatch, hbefore⟩ := firstMatch_eq_some hsome
  rintro ⟨r, t, hrun, hcopies⟩
  have hresult := hcopies.result
  rw [hsome, matchEnd] at hresult
  by_cases hc : (s.mem (src + BitVec.ofNat 64 k)).setWidth 32 = c
  · -- the address returned is the one in the source
    have hsrc := (yields_memccpy_some hdisj hk hc fun i hi heq =>
      hbefore i hi (eq_setWidth_of_setWidth_eq heq)).of_eq hrun
    rw [hresult, add_right_cancel_iff] at hsrc
    rw [hsrc] at hdisj
    exact Set.disjoint_left.mp hdisj (self_mem_region (Nat.succ_pos k))
      (self_mem_region (Nat.succ_pos k))
  · -- no byte is `c` as an `int`
    have hwide : ∀ b : Byte, b.setWidth 32 ≠ c := by
      rintro b rfl
      apply hc
      rw [hmatch, ← eq_setWidth_of_setWidth_eq (b := b) rfl]
    have hnull := (yields_memccpy_wide hwide).of_eq hrun
    rw [hresult, ← BitVec.toNat_inj, BitVec.toNat_add, BitVec.toNat_ofNat] at hnull
    have hzero : (0 : Word).toNat = 0 := rfl
    omega

/-- `memccpy` does what it should if and only if none of the first `count` bytes of the
source is `c` as an `unsigned char`. -/
theorem memccpy_copies_iff
    (hdisj : Disjoint
      (region src (matchLength (firstMatch s.mem src (c.setWidth 8) count.toNat) count.toNat))
      (region dst (matchLength (firstMatch s.mem src (c.setWidth 8) count.toNat) count.toNat)))
    (hdst : dst.toNat + matchLength (firstMatch s.mem src (c.setWidth 8) count.toNat) count.toNat
      < 2 ^ 64) :
    Yields (memccpy dst src c count) s (MemccpyCopies dst src (c.setWidth 8) count.toNat s) ↔
      ∀ i < count.toNat, s.mem (src + BitVec.ofNat 64 i) ≠ c.setWidth 8 := by
  rw [← firstMatch_eq_none_iff]
  cases hfound : firstMatch s.mem src (c.setWidth 8) count.toNat with
  | some k =>
      rw [hfound] at hdisj hdst
      exact iff_of_false (not_memccpy_some hfound hdisj hdst) nofun
  | none =>
      rw [hfound] at hdisj
      have hno := firstMatch_eq_none_iff.mp hfound
      refine iff_of_true ((yields_memccpy_none hdisj fun i hi heq =>
        hno i hi (eq_setWidth_of_setWidth_eq heq)).mono ?_) rfl
      rintro _ t ⟨rfl, ht⟩
      refine ⟨?_, ?_, ?_⟩
      · rw [hfound, ht]
        exact fun i hi => copied_add hi count.isLt.le
      · rw [hfound, ht]
        exact fun x hx => copied_of_notMem hx
      · rw [hfound]
        rfl

theorem memccpy_copies_absent : Yields (memccpy 4096 8192 7 3) addressMemory
    (MemccpyCopies 4096 8192 7 3 addressMemory) := by
  have hdisj : Disjoint (region (8192 : Word) 3) (region (4096 : Word) 3) :=
    (disjoint_region_of_le (by decide) (by decide)).symm
  exact (@memccpy_copies_iff _ 4096 8192 3 7 addressMemory hdisj (by decide)).mpr (by decide)

/-- The third byte is the one that ends the copy. -/
theorem memccpy_copies_fails : ¬ ∀ (dst src : Word) (c : BitVec 32) (count : Word)
    (s : Machine Empty),
    Disjoint
      (region src (matchLength (firstMatch s.mem src (c.setWidth 8) count.toNat) count.toNat))
      (region dst (matchLength (firstMatch s.mem src (c.setWidth 8) count.toNat) count.toNat)) →
    dst.toNat + matchLength (firstMatch s.mem src (c.setWidth 8) count.toNat) count.toNat
      < 2 ^ 64 →
    Yields (memccpy dst src c count) s (MemccpyCopies dst src (c.setWidth 8) count.toNat s) := by
  intro h
  have hdisj : Disjoint (region (8192 : Word) 3) (region (4096 : Word) 3) :=
    (disjoint_region_of_le (by decide) (by decide)).symm
  have hfound : firstMatch addressMemory.mem 8192 2 5 = some 2 := by decide
  exact @not_memccpy_some _ 4096 8192 5 2 _ _ hfound hdisj (by decide)
    (h 4096 8192 2 5 addressMemory hdisj (by decide))

end Ciabatta.StdlibString
