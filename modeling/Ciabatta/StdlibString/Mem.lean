import Ciabatta.Lib.Footprint

/-!
`src/stdlib-string/mem.c`: `memmove`. The copy from below is right. The copy from
above starts one byte too low, since its counter is decremented once before the
loop and once more by the test; without any bytes to move it starts at the far end
of the address space.
-/

namespace Ciabatta.StdlibString

open ByteMemory Exec

variable {κ : Type}

/-- `dst_bytes[i] = src_bytes[i]` -/
def copyByte (dst src i : Word) : Exec κ Unit := do
  let b ← loadByte (src + i)
  storeByte (dst + i) b

/-- A round of the loop for `dst < src`. -/
def memmoveUpRound (dst src count i : Word) : Exec κ (Word ⊕ Unit) := do
  if i < count then do
    copyByte dst src i
    return .inl (i + 1)
  else
    return .inr ()

/-- A round of the other loop, whose test is `i-- != 0`. -/
def memmoveDownRound (dst src i : Word) : Exec κ (Word ⊕ Unit) := do
  if i ≠ 0 then do
    let i := i - 1
    copyByte dst src i
    return .inl i
  else
    return .inr ()

/-- The counter runs through different values, so `2 ^ 64` rounds are enough. -/
def memmove (dst src count : Word) : Exec κ Word := do
  if dst = src then
    return dst
  else if dst < src then do
    loop (memmoveUpRound dst src count) (2 ^ 64) 0
    return dst
  else do
    loop (memmoveDownRound dst src) (2 ^ 64) (count - 1)
    return dst

/-- What a call of `memmove` should do. -/
structure Moved (dst src : Word) (n : ℕ) (s : Machine κ) (r : Word) (t : Machine κ) : Prop where
  result : r = dst
  bytes : ∀ i < n, t.mem (dst + BitVec.ofNat 64 i) = s.mem (src + BitVec.ofNat 64 i)
  frame : ∀ x ∉ region dst n, t.mem x = s.mem x
  accesses : Since (fun e => e.footprint ⊆ region dst n ∪ region src n) s t

variable {dst src count : Word} {n k : ℕ} {s t : Machine κ}

theorem yields_copyByte {i : Word} :
    Yields (copyByte dst src i) s fun _ t =>
      t.mem = Function.update s.mem (dst + i) (s.mem (src + i)) ∧
        t.log = s.log ++ [.load (src + i) 1] ++ [.store (dst + i) 1] :=
  ⟨_, _, rfl, rfl, rfl⟩

/-- Copying the `i`-th byte stays in the two ranges. -/
theorem since_copyByte {i : ℕ} {u : Machine κ} (hn : n ≤ 2 ^ 64) (hi : i < n)
    (h : Since (fun e => e.footprint ⊆ region dst n ∪ region src n) s t)
    (hlog : u.log = t.log ++ [.load (src + BitVec.ofNat 64 i) 1]
      ++ [.store (dst + BitVec.ofNat 64 i) 1]) :
    Since (fun e => e.footprint ⊆ region dst n ∪ region src n) s u := by
  have hload : Since (fun e => e.footprint ⊆ region dst n ∪ region src n) s
      (t.record (.load (src + BitVec.ofNat 64 i) 1)) := by
    refine h.snoc (e := .load (src + BitVec.ofNat 64 i) 1) ?_ rfl
    exact (region_one_subset_of_mem (add_ofNat_mem_region hi hn)).trans Set.subset_union_right
  refine hload.snoc (e := .store (dst + BitVec.ofNat 64 i) 1) ?_ hlog
  exact (region_one_subset_of_mem (add_ofNat_mem_region hi hn)).trans Set.subset_union_left

/-! ### The two loops -/

/-- Behind the bytes copied so far, the source is as it was. -/
theorem copied_source_above {m : Mem} {i : ℕ} (hlt : dst < src)
    (hsrc : src.toNat + n ≤ 2 ^ 64) (hi : i < n) :
    copied m dst src i (src + BitVec.ofNat 64 i) = m (src + BitVec.ofNat 64 i) := by
  apply copied_of_notMem
  rw [BitVec.lt_def] at hlt
  rw [mem_region_iff (by omega), BitVec.toNat_add, BitVec.toNat_ofNat]
  omega

/-- In front of the bytes copied so far, the source is as it was. -/
theorem copied_source_below {m : Mem} {i k : ℕ} (hlt : src < dst)
    (hdst : dst.toNat + n ≤ 2 ^ 64) (hi : i + 1 + k ≤ n) :
    copied m (dst + BitVec.ofNat 64 i + 1) (src + BitVec.ofNat 64 i + 1) k
      (src + BitVec.ofNat 64 i) = m (src + BitVec.ofNat 64 i) := by
  apply copied_of_notMem
  rw [BitVec.lt_def] at hlt
  rw [mem_region, BitVec.toNat_sub, BitVec.toNat_add, BitVec.toNat_add, BitVec.toNat_add,
    BitVec.toNat_ofNat, show (1 : Word).toNat = 1 from rfl]
  omega

theorem ofNat_toNat_add (a i : Word) : a + BitVec.ofNat 64 i.toNat = a + i := by
  rw [BitVec.ofNat_toNat, BitVec.setWidth_eq]

theorem toNat_add_one {i : Word} (h : i.toNat + 1 < 2 ^ 64) : (i + 1).toNat = i.toNat + 1 := by
  rw [BitVec.toNat_add, show (1 : Word).toNat = 1 from rfl, Nat.mod_eq_of_lt h]

theorem toNat_sub_one {i : Word} (h : i ≠ 0) : (i - 1).toNat = i.toNat - 1 := by
  have hpos := toNat_pos h
  rw [BitVec.toNat_sub, show (1 : Word).toNat = 1 from rfl]
  omega

theorem yields_memmoveUp (hlt : dst < src) (hsrc : src.toNat + count.toNat ≤ 2 ^ 64) :
    Yields (loop (memmoveUpRound dst src count) (2 ^ 64) 0) s fun _ t =>
      t.mem = copied s.mem dst src count.toNat ∧
        Since (fun e => e.footprint ⊆ region dst count.toNat ∪ region src count.toNat) s t := by
  refine yields_loop
    (fun i t => i ≤ count ∧ t.mem = copied s.mem dst src i.toNat ∧
      Since (fun e => e.footprint ⊆ region dst count.toNat ∪ region src count.toNat) s t)
    (fun i => count.toNat - i.toNat) ?_ ⟨Nat.zero_le _, rfl, since_refl s⟩ ?_
  · rintro i t ⟨hle, hmem, hsince⟩
    rw [memmoveUpRound]
    by_cases hi : i < count
    · have hi' : i.toNat < count.toNat := hi
      have hnext := toNat_add_one (i := i) (lt_of_le_of_lt hi' count.isLt)
      refine .ite_pos hi (yields_copyByte.bind ?_)
      rintro _ u ⟨humem, hulog⟩
      rw [← ofNat_toNat_add src, ← ofNat_toNat_add dst] at hulog
      refine yields_pure ⟨⟨?_, ?_, since_copyByte count.isLt.le hi' hsince hulog⟩, by omega⟩
      · rw [BitVec.le_def, hnext]
        exact hi'
      · rw [humem, hmem, ← ofNat_toNat_add src, ← ofNat_toNat_add dst,
          copied_source_above hlt hsrc hi', update_copied_end i.isLt, hnext]
    · have heq : i = count := BitVec.le_antisymm hle (BitVec.not_lt.mp hi)
      exact .ite_neg hi (yields_pure ⟨heq ▸ hmem, hsince⟩)
  · rw [show (0 : Word).toNat = 0 from rfl, Nat.sub_zero]
    exact count.isLt

/-- The loop from the `i`-th byte down copies the bytes below it. -/
theorem yields_memmoveDown (last : Word) (hlt : src < dst) (hdst : dst.toNat + n ≤ 2 ^ 64)
    (hlast : last.toNat ≤ n) (hn : n < 2 ^ 64) :
    Yields (loop (memmoveDownRound dst src) (2 ^ 64) last) s fun _ t =>
      t.mem = copied s.mem dst src last.toNat ∧
        Since (fun e => e.footprint ⊆ region dst n ∪ region src n) s t := by
  refine yields_loop
    (fun i t => i ≤ last ∧
      t.mem = copied s.mem (dst + i) (src + i) (last.toNat - i.toNat) ∧
      Since (fun e => e.footprint ⊆ region dst n ∪ region src n) s t)
    (fun i => i.toNat) ?_ ⟨BitVec.le_refl _, ?_, since_refl s⟩ last.isLt
  · rintro i t ⟨hle, hmem, hsince⟩
    rw [BitVec.le_def] at hle
    rw [memmoveDownRound]
    by_cases hi : i ≠ 0
    · have hpos := toNat_pos hi
      have hprev := toNat_sub_one hi
      refine .ite_pos hi (yields_copyByte.bind ?_)
      rintro _ u ⟨humem, hulog⟩
      -- the bytes from `i` on are copied, and now the one below them
      have hup : ∀ a : Word, a + i = a + BitVec.ofNat 64 (i - 1).toNat + 1 := by
        intro a
        rw [ofNat_toNat_add, add_assoc, sub_add_cancel]
      rw [← ofNat_toNat_add src, ← ofNat_toNat_add dst] at hulog
      refine yields_pure ⟨⟨?_, ?_, since_copyByte hn.le (by omega) hsince hulog⟩, by omega⟩
      · rw [BitVec.le_def]
        omega
      · rw [humem, hmem, hup, hup, ← ofNat_toNat_add src (i - 1), ← ofNat_toNat_add dst (i - 1),
          copied_source_below (n := n) hlt hdst (by omega), update_copied_start (by omega)]
        congr 1
        omega
    · have hzero : i = 0 := not_not.mp hi
      refine .ite_neg hi (yields_pure ⟨?_, hsince⟩)
      rw [hmem, hzero, add_zero, add_zero]
      rfl
  · rw [Nat.sub_self, copied_zero]

/-- From a counter that is not 0, the loop begins by reading the byte below it. -/
theorem yields_memmoveDown_log {last : Word} (hlast : last ≠ 0) :
    Yields (loop (memmoveDownRound dst src) (2 ^ 64) last) s fun _ t =>
      s.log ++ [.load (src + (last - 1)) 1] <+: t.log := by
  refine yields_loop
    (fun i t => s = t ∧ last = i ∨ s.log ++ [.load (src + (last - 1)) 1] <+: t.log)
    (fun i => i.toNat) ?_ (.inl ⟨rfl, rfl⟩) last.isLt
  intro i t h
  rw [memmoveDownRound]
  by_cases hi : i ≠ 0
  · have hpos := toNat_pos hi
    have hprev := toNat_sub_one hi
    refine .ite_pos hi (yields_copyByte.bind ?_)
    rintro _ u ⟨-, hulog⟩
    refine yields_pure ⟨.inr ?_, by omega⟩
    rw [hulog]
    rcases h with ⟨rfl, rfl⟩ | hread
    · exact List.prefix_append _ _
    · exact (hread.trans (List.prefix_append _ _)).trans (List.prefix_append _ _)
  · refine .ite_neg hi (yields_pure (h.resolve_left ?_))
    rintro ⟨-, rfl⟩
    exact hi hlast

/-! ### Main result -/

theorem moved_of_eq_copied {u : Machine κ} (hn : n ≤ 2 ^ 64)
    (hmem : u.mem = copied s.mem dst src n)
    (hsince : Since (fun e => e.footprint ⊆ region dst n ∪ region src n) s u) :
    Moved dst src n s dst u where
  result := rfl
  bytes i hi := by rw [hmem, copied_add hi hn]
  frame x hx := by rw [hmem, copied_of_notMem hx]
  accesses := hsince

theorem memmove_of_le (hsrc : src.toNat + count.toNat ≤ 2 ^ 64) (hle : dst ≤ src) :
    Yields (memmove dst src count) s (Moved dst src count.toNat s) := by
  rw [memmove]
  by_cases heq : dst = src
  · refine .ite_pos heq (yields_pure ⟨rfl, ?_, fun _ _ => rfl, since_refl s⟩)
    intro i _
    rw [heq]
  · have hlt : dst < src := BitVec.lt_of_le_ne hle heq
    refine .ite_neg heq (.ite_pos hlt ((yields_memmoveUp hlt hsrc).bind ?_))
    rintro _ u ⟨hmem, hsince⟩
    exact yields_pure (moved_of_eq_copied count.isLt.le hmem hsince)

theorem memmove_of_gt (h : src < dst) : memmove dst src count =
    (do
      loop (memmoveDownRound dst src) (2 ^ 64) (count - 1)
      return dst : Exec κ Word) := by
  have hne : dst ≠ src := by
    rintro rfl
    exact BitVec.lt_irrefl _ h
  rw [memmove, if_neg hne, if_neg (BitVec.lt_asymm h)]

/-- From above, the last byte of the destination keeps its value. -/
theorem memmove_down_iff (hlt : src < dst) (hdst : dst.toNat + count.toNat ≤ 2 ^ 64)
    (hcount : count ≠ 0) :
    Yields (memmove dst src count) s (Moved dst src count.toNat s) ↔
      s.mem (src + (count - 1)) = s.mem (dst + (count - 1)) := by
  have hpos := toNat_pos hcount
  have hlast := toNat_sub_one hcount
  have hcall := yields_memmoveDown (s := s) (count - 1) hlt hdst (by omega) count.isLt
  obtain ⟨u, hloop, hmem, hsince⟩ : ∃ u, loop (memmoveDownRound dst src) (2 ^ 64) (count - 1) s
      = .ok () u ∧ u.mem = copied s.mem dst src (count - 1).toNat ∧
      Since (fun e => e.footprint ⊆ region dst count.toNat ∪ region src count.toNat) s u := by
    obtain ⟨_, u, hloop, hu⟩ := hcall
    exact ⟨u, hloop, hu⟩
  have hrun : memmove dst src count s = .ok dst u := by
    rw [memmove_of_gt hlt, bind_of_ok hloop]
    rfl
  have hkept : u.mem (dst + (count - 1)) = s.mem (dst + (count - 1)) := by
    rw [hmem, copied_of_notMem]
    rw [mem_region, add_sub_cancel_left]
    exact Nat.lt_irrefl _
  constructor
  · intro h
    have hbyte := (h.of_eq hrun).bytes (count - 1).toNat (by omega)
    rw [ofNat_toNat_add, ofNat_toNat_add, hkept] at hbyte
    exact hbyte.symm
  · intro hsame
    -- with that byte already in place, the memory is as after a full copy
    have hfull : u.mem = copied s.mem dst src count.toNat := by
      rw [show count.toNat = (count - 1).toNat + 1 by omega,
        ← update_copied_end (by omega), ofNat_toNat_add, ofNat_toNat_add, hsame, ← hkept, hmem,
        Function.update_eq_self]
    exact ⟨dst, u, hrun, moved_of_eq_copied count.isLt.le hfull hsince⟩

/-- Nothing to move from above, and bytes are touched nevertheless. -/
theorem not_memmove_down_zero (hlt : src < dst) :
    ¬ Yields (memmove dst src 0) s (Moved dst src 0 s) := by
  rintro ⟨r, u, hrun, hmoved⟩
  rw [memmove_of_gt hlt] at hrun
  obtain ⟨_, v, hloop, hend⟩ := exists_of_bind_ok hrun
  obtain ⟨es, hread⟩ := (yields_memmoveDown_log (by decide)).of_eq hloop
  obtain ⟨es', hlog, hes⟩ := hmoved.accesses
  rw [(eq_of_pure_ok hend).2, ← hread, List.append_assoc] at hlog
  rw [← List.append_cancel_left hlog] at hes
  have hempty := hes _ List.mem_cons_self
  rw [region_zero, region_zero, Set.union_empty] at hempty
  exact hempty (self_mem_region Nat.one_pos)

/-- `memmove` moves its bytes, touches nothing else and returns `dst` if and only if
the destination does not start above the source, or there is at least one byte to move
and the last one is in place already. -/
theorem memmove_moves_iff (hdst : dst.toNat + count.toNat ≤ 2 ^ 64)
    (hsrc : src.toNat + count.toNat ≤ 2 ^ 64) :
    Yields (memmove dst src count) s (Moved dst src count.toNat s) ↔
      dst ≤ src ∨
        count ≠ 0 ∧ s.mem (src + (count - 1)) = s.mem (dst + (count - 1)) := by
  by_cases hle : dst ≤ src
  · exact iff_of_true (memmove_of_le hsrc hle) (.inl hle)
  · have hlt : src < dst := BitVec.not_le.mp hle
    by_cases hcount : count = 0
    · subst hcount
      refine iff_of_false (not_memmove_down_zero hlt) ?_
      rintro (h | ⟨h, -⟩)
      · exact hle h
      · exact h rfl
    · rw [memmove_down_iff hlt hdst hcount, or_iff_right hle, and_iff_right hcount]

/-- Every byte holds the low byte of its address. -/
def addressMemory : Machine Empty :=
  ⟨fun x => x.setWidth 8, []⟩

theorem memmove_moves_overlapping : Yields (memmove 4096 4098 4) addressMemory
    (Moved 4096 4098 (4 : Word).toNat addressMemory) :=
  (memmove_moves_iff (by decide) (by decide)).mpr (.inl (by decide))

/-- A single byte is not moved up. -/
theorem memmove_moves_fails : (4097 : Word).toNat + (1 : Word).toNat ≤ 2 ^ 64 ∧
    (4096 : Word).toNat + (1 : Word).toNat ≤ 2 ^ 64 ∧
    ¬ Yields (memmove 4097 4096 1) addressMemory
      (Moved 4097 4096 (1 : Word).toNat addressMemory) := by
  refine ⟨by decide, by decide, fun h => ?_⟩
  have hsame := (memmove_down_iff (by decide) (by decide) (by decide)).mp h
  exact absurd hsame (by decide)

end Ciabatta.StdlibString
