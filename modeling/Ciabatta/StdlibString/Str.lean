import Ciabatta.Lib.Counted
import Ciabatta.Lib.CString
import Ciabatta.StdlibString.Mem

/-!
`src/stdlib-string/str.c`: `strcpy` and `strncpy`. Their counters are of type `i64`;
`2 ^ 63` rounds are as many as such a counter allows.
-/

namespace Ciabatta.StdlibString

open ByteMemory Exec

variable {κ : Type}

/-- A round on `i` and `str_len`. -/
def strcpyRound (dst src : Word) : ℕ × ℕ → Exec κ ((ℕ × ℕ) ⊕ ℕ)
  | (i, strLen) => do
      let c ← loadByte (src + BitVec.ofNat 64 i)
      if c ≠ 0 then do
        copyByte dst src (BitVec.ofNat 64 i)
        let strLen ← incrementLong strLen
        let i ← incrementLong i
        return .inl (i, strLen)
      else
        return .inr strLen

def strcpy (dst src : Word) : Exec κ Word := do
  let strLen ← loop (strcpyRound dst src) (2 ^ 63) (0, 0)
  storeByte (dst + BitVec.ofNat 64 strLen) 0
  return dst

def strncpyRound (dst src count : Word) : ℕ × ℕ → Exec κ ((ℕ × ℕ) ⊕ ℕ)
  | (i, strLen) =>
      if BitVec.ofNat 64 i < count then do
        let c ← loadByte (src + BitVec.ofNat 64 i)
        if c = 0 then
          return .inr strLen
        else do
          copyByte dst src (BitVec.ofNat 64 i)
          let strLen ← incrementLong strLen
          let i ← incrementLong i
          return .inl (i, strLen)
      else
        return .inr strLen

def padRound (dst count : Word) (i : ℕ) : Exec κ (ℕ ⊕ Unit) :=
  if BitVec.ofNat 64 i < count then do
    storeByte (dst + BitVec.ofNat 64 i) 0
    return .inl (← incrementLong i)
  else
    return .inr ()

def strncpy (dst src count : Word) : Exec κ Word := do
  let strLen ← loop (strncpyRound dst src count) (2 ^ 63) (0, 0)
  loop (padRound dst count) (2 ^ 63) strLen
  return dst

/-- What a call of `strncpy` should do with a string of `len` bytes and the count `n`. -/
structure StrncpyCopies (dst src : Word) (len n : ℕ) (s : Machine κ) (r : Word)
    (t : Machine κ) : Prop where
  result : r = dst
  bytes : ∀ i < min len n, t.mem (dst + BitVec.ofNat 64 i) = s.mem (src + BitVec.ofNat 64 i)
  padding : ∀ i, min len n ≤ i → i < n → t.mem (dst + BitVec.ofNat 64 i) = 0
  frame : ∀ x ∉ region dst n, t.mem x = s.mem x
  accesses : Since (Event.Within (region src (min (len + 1) n)) (region dst n)) s t

/-- The first bytes of the destination are those that `strcpy` produces. -/
def StrcpyAgrees (dst src : Word) (len : ℕ) (s t : Machine κ) : Prop :=
  Yields (strcpy dst src) s fun _ u =>
    ∀ i ≤ len, t.mem (dst + BitVec.ofNat 64 i) = u.mem (dst + BitVec.ofNat 64 i)

variable {dst src count : Word} {str : List Byte} {i k n : ℕ} {A B : Set Word}
  {s t : Machine κ}

/-! ### Single bytes -/

theorem since_within_load {a : Word} (h : Since (Event.Within A B) s t) (ha : a ∈ A) :
    Since (Event.Within A B) s (t.record (.load a 1)) :=
  h.snoc (e := .load a 1) (region_one_subset_of_mem ha) rfl

theorem since_within_store {a : Word} {u : Machine κ} (h : Since (Event.Within A B) s t)
    (ha : a ∈ B) (hlog : u.log = t.log ++ [.store a 1]) : Since (Event.Within A B) s u :=
  h.snoc (e := .store a 1) (region_one_subset_of_mem ha) hlog

theorem since_within_copyByte {u : Machine κ} (h : Since (Event.Within A B) s t)
    (hsrc : src + BitVec.ofNat 64 i ∈ A) (hdst : dst + BitVec.ofNat 64 i ∈ B)
    (hlog : u.log = t.log ++ [.load (src + BitVec.ofNat 64 i) 1]
      ++ [.store (dst + BitVec.ofNat 64 i) 1]) : Since (Event.Within A B) s u :=
  since_within_store (since_within_load h hsrc) hdst hlog

/-- The next byte of a string is copied, where the ranges do not overlap. -/
theorem copied_succ {m : Mem} {u : Machine κ} (hdisj : Disjoint (region src k) (region dst n))
    (hk : k ≤ 2 ^ 64) (hi : i < k) (hin : i ≤ n)
    (hmem : u.mem = Function.update (copied m dst src i) (dst + BitVec.ofNat 64 i)
      (copied m dst src i (src + BitVec.ofNat 64 i))) : u.mem = copied m dst src (i + 1) := by
  rw [hmem, copied_source hdisj hk hi hin, update_copied_end (by omega)]

/-! ### `strcpy` -/

section

variable (hstr : StringAt s.mem src str)
  (hdisj : Disjoint (region src (str.length + 1)) (region dst (str.length + 1)))
include hstr hdisj

/-- The byte of the string up to the counter is still the one it was. -/
theorem yields_strcpy_byte (hi : i ≤ str.length) (ht : t.mem = copied s.mem dst src i) :
    Yields (loadByte (src + BitVec.ofNat 64 i)) t fun c u =>
      c = s.mem (src + BitVec.ofNat 64 i) ∧ u.mem = copied s.mem dst src i := by
  refine ⟨_, _, rfl, ?_, ht⟩
  rw [ht, copied_source hdisj hstr.length_lt (by omega) (by omega)]

theorem counts_strcpy : Counts (2 ^ 63) str.length
    (fun i b t => b = (i, i) ∧ t.mem = copied s.mem dst src i)
    (fun strLen t => strLen = str.length ∧ t.mem = copied s.mem dst src str.length)
    (strcpyRound (κ := κ) dst src) where
  next := by
    rintro i _ t ⟨rfl, ht⟩ hlt hnext
    refine (yields_strcpy_byte hstr hdisj hlt.le ht).bind ?_
    rintro _ u ⟨rfl, hu⟩
    refine .ite_pos (hstr.ne_zero hlt) (yields_copyByte.bind ?_)
    rintro _ v ⟨hv, -⟩
    rw [incrementLong_of_lt hnext]
    rw [hu] at hv
    exact yields_pure ⟨_, rfl, rfl, copied_succ hdisj hstr.length_lt (by omega) (by omega) hv⟩
  overflow := by
    rintro i _ t ⟨rfl, ht⟩ hlt hnext
    refine (yields_strcpy_byte hstr hdisj hlt.le ht).bind_stops ?_
    rintro _ u ⟨rfl, hu⟩
    rw [if_pos (hstr.ne_zero hlt)]
    refine yields_copyByte.bind_stops fun _ v _ => ?_
    rw [incrementLong_of_not_lt hnext]
    exact stops_throw.bind _
  last := by
    rintro _ t ⟨rfl, ht⟩
    refine (yields_strcpy_byte hstr hdisj le_rfl ht).bind ?_
    rintro _ u ⟨rfl, hu⟩
    exact .ite_neg (not_not.mpr hstr.nul) (yields_pure ⟨_, rfl, rfl, hu⟩)

/-- `strcpy` copies the string with its NUL. -/
theorem yields_strcpy (hlength : str.length < 2 ^ 63) :
    Yields (strcpy dst src) s fun r t =>
      r = dst ∧ t.mem = copied s.mem dst src (str.length + 1) := by
  refine ((counts_strcpy hstr hdisj).yields hlength ⟨rfl, rfl⟩ (Nat.zero_le _) hlength).bind ?_
  rintro _ t ⟨rfl, ht⟩
  refine ⟨dst, _, rfl, rfl, copied_succ hdisj hstr.length_lt (Nat.lt_succ_self _)
    (Nat.le_succ _) ?_⟩
  rw [copied_source hdisj hstr.length_lt (Nat.lt_succ_self _) (Nat.le_succ _), hstr.nul, ← ht]

end

/-! ### `strncpy` -/

/-- The first bytes are those of the string, zeros follow up to the counter, and nothing
else has changed. -/
structure PaddedTo (dst src : Word) (k n : ℕ) (A : Set Word) (s : Machine κ) (i : ℕ)
    (t : Machine κ) : Prop where
  bytes : ∀ j < k, t.mem (dst + BitVec.ofNat 64 j) = s.mem (src + BitVec.ofNat 64 j)
  padding : ∀ j, k ≤ j → j < i → t.mem (dst + BitVec.ofNat 64 j) = 0
  frame : ∀ x ∉ region dst n, t.mem x = s.mem x
  accesses : Since (Event.Within A (region dst n)) s t

theorem paddedTo_copied (hk : k ≤ n) (hn : n ≤ 2 ^ 64) (hmem : t.mem = copied s.mem dst src k)
    (hsince : Since (Event.Within A (region dst n)) s t) : PaddedTo dst src k n A s k t where
  bytes j hj := by rw [hmem, copied_add hj (by omega)]
  padding j hle hlt := absurd hlt hle.not_gt
  frame x hx := by rw [hmem, copied_of_notMem fun h => hx (region_mono hk h)]
  accesses := hsince

/-- One zero more. -/
theorem PaddedTo.succ {u : Machine κ} (h : PaddedTo dst src k n A s i t) (hk : k ≤ i)
    (hi : i < n) (hn : n ≤ 2 ^ 64)
    (hmem : u.mem = Function.update t.mem (dst + BitVec.ofNat 64 i) 0)
    (hlog : u.log = t.log ++ [.store (dst + BitVec.ofNat 64 i) 1]) :
    PaddedTo dst src k n A s (i + 1) u where
  bytes j hj := by
    rw [hmem, Function.update_of_ne (add_ofNat_ne (by omega) (by omega) (by omega)), h.bytes j hj]
  padding j hle hlt := by
    rcases (Nat.le_of_lt_succ hlt).lt_or_eq with hlt | rfl
    · rw [hmem, Function.update_of_ne (add_ofNat_ne (by omega) (by omega) (by omega)),
        h.padding j hle hlt]
    · rw [hmem, Function.update_self]
  frame x hx := by
    have hne : x ≠ dst + BitVec.ofNat 64 i := by
      rintro rfl
      exact hx (add_ofNat_mem_region hi hn)
    rw [hmem, Function.update_of_ne hne, h.frame x hx]
  accesses := since_within_store h.accesses (add_ofNat_mem_region hi hn) hlog

theorem counts_pad (hcount : count.toNat < 2 ^ 63) : Counts (2 ^ 63) count.toNat
    (fun i b t => b = i ∧ k ≤ i ∧ PaddedTo dst src k count.toNat A s i t)
    (fun _ t => PaddedTo dst src k count.toNat A s count.toNat t)
    (padRound (κ := κ) dst count) where
  next := by
    rintro _ i t ⟨rfl, hk, ht⟩ hlt hnext
    refine .ite_pos ((ofNat_lt_iff (by omega)).mpr hlt) ?_
    rw [incrementLong_of_lt hnext]
    exact ⟨_, _, rfl, i + 1, rfl, rfl, by omega, ht.succ hk hlt count.isLt.le rfl rfl⟩
  overflow := by
    rintro i b t - hlt hnext
    omega
  last := by
    rintro _ t ⟨rfl, -, ht⟩
    exact .ite_neg (mt (ofNat_lt_iff (by omega)).mp (lt_irrefl _))
      (yields_pure ⟨(), rfl, ht⟩)

section

variable (hstr : StringAt s.mem src str) (hcount : count.toNat < 2 ^ 63)
  (hdisj : Disjoint (region src (str.length + 1)) (region dst count.toNat))
include hstr hcount hdisj

/-- The byte up to the counter is read, in the string and within the count. -/
theorem yields_strncpy_byte (hi : i ≤ str.length) (hlt : i < count.toNat)
    (ht : t.mem = copied s.mem dst src i)
    (hsince : Since (Event.Within (region src (min (str.length + 1) count.toNat))
      (region dst count.toNat)) s t) :
    Yields (loadByte (src + BitVec.ofNat 64 i)) t fun c u =>
      c = s.mem (src + BitVec.ofNat 64 i) ∧ u.mem = copied s.mem dst src i ∧
        Since (Event.Within (region src (min (str.length + 1) count.toNat))
          (region dst count.toNat)) s u := by
  have hmem : src + BitVec.ofNat 64 i ∈ region src (min (str.length + 1) count.toNat) :=
    add_ofNat_mem_region (by omega) (by omega)
  refine ⟨_, _, rfl, ?_, ht, since_within_load hsince hmem⟩
  rw [ht, copied_source hdisj hstr.length_lt (by omega) hlt.le]

theorem counts_strncpy : Counts (2 ^ 63) (min str.length count.toNat)
    (fun i b t => b = (i, i) ∧ t.mem = copied s.mem dst src i ∧
      Since (Event.Within (region src (min (str.length + 1) count.toNat))
        (region dst count.toNat)) s t)
    (fun strLen t => strLen = min str.length count.toNat ∧
      PaddedTo dst src (min str.length count.toNat) count.toNat
        (region src (min (str.length + 1) count.toNat)) s strLen t)
    (strncpyRound (κ := κ) dst src count) where
  next := by
    rintro i _ t ⟨rfl, ht, hsince⟩ hmin hnext
    obtain ⟨hlt, hin⟩ := lt_min_iff.mp hmin
    refine .ite_pos ((ofNat_lt_iff (by omega)).mpr hin) ?_
    refine (yields_strncpy_byte hstr hcount hdisj hlt.le hin ht hsince).bind ?_
    rintro _ u ⟨rfl, hu, husince⟩
    refine .ite_neg (hstr.ne_zero hlt) (yields_copyByte.bind ?_)
    rintro _ v ⟨hv, hlog⟩
    rw [incrementLong_of_lt hnext]
    rw [hu] at hv
    refine yields_pure ⟨_, rfl, rfl, copied_succ hdisj hstr.length_lt (by omega) hin.le hv, ?_⟩
    exact since_within_copyByte husince (add_ofNat_mem_region (by omega) (by omega))
      (add_ofNat_mem_region hin (by omega)) hlog
  overflow := by
    rintro i b t - hlt hnext
    omega
  last := by
    rintro _ t ⟨rfl, ht, hsince⟩
    have hpadded {u : Machine κ} (hu : u.mem = t.mem)
        (husince : Since (Event.Within (region src (min (str.length + 1) count.toNat))
          (region dst count.toNat)) s u) :
        PaddedTo dst src (min str.length count.toNat) count.toNat
          (region src (min (str.length + 1) count.toNat)) s (min str.length count.toNat) u :=
      paddedTo_copied (min_le_right _ _) count.isLt.le (hu.trans ht) husince
    by_cases hlt : str.length < count.toNat
    · -- the NUL ends the loop
      have hmin : min str.length count.toNat = str.length := min_eq_left hlt.le
      rw [hmin] at ht hpadded ⊢
      refine .ite_pos ((ofNat_lt_iff (by omega)).mpr hlt) ?_
      refine (yields_strncpy_byte hstr hcount hdisj le_rfl hlt ht hsince).bind ?_
      rintro _ u ⟨rfl, hu, husince⟩
      exact .ite_pos hstr.nul (yields_pure ⟨_, rfl, rfl, hpadded (hu.trans ht.symm) husince⟩)
    · have hmin : min str.length count.toNat = count.toNat := min_eq_right (not_lt.mp hlt)
      rw [hmin] at ht hpadded ⊢
      exact .ite_neg (mt (ofNat_lt_iff (by omega)).mp (lt_irrefl _))
        (yields_pure ⟨_, rfl, rfl, hpadded rfl hsince⟩)

theorem yields_strncpy : Yields (strncpy dst src count) s
    (StrncpyCopies dst src str.length count.toNat s) := by
  refine ((counts_strncpy hstr hcount hdisj).yields (by omega) ⟨rfl, rfl, since_refl s⟩
    (Nat.zero_le _) (by omega)).bind ?_
  rintro _ t ⟨rfl, ht⟩
  refine ((counts_pad hcount).yields hcount ⟨rfl, le_rfl, ht⟩ (min_le_right _ _) (by omega)).bind ?_
  rintro _ u hu
  exact yields_pure ⟨rfl, hu.bytes, hu.padding, hu.frame, hu.accesses⟩

/-- With room for the NUL, both functions produce the same string. -/
theorem strcpyAgrees_of_lt (hlt : str.length < count.toNat) {r : Word}
    (ht : StrncpyCopies dst src str.length count.toNat s r t) :
    StrcpyAgrees dst src str.length s t := by
  have hsub : Disjoint (region src (str.length + 1)) (region dst (str.length + 1)) :=
    hdisj.mono_right (region_mono hlt)
  refine (yields_strcpy hstr hsub (by omega)).mono ?_
  rintro _ u ⟨-, hu⟩ i hi
  rw [hu, copied_add (by omega) (by omega)]
  rcases hi.lt_or_eq with hi | rfl
  · exact ht.bytes i (by omega)
  · rw [hstr.nul]
    exact ht.padding _ (by omega) hlt

/-- `strncpy` copies a string as it should, and as `strcpy` does where the count leaves room
for the NUL. -/
theorem strncpy_copies : Yields (strncpy dst src count) s fun r t =>
    StrncpyCopies dst src str.length count.toNat s r t ∧
      (str.length < count.toNat → StrcpyAgrees dst src str.length s t) :=
  (yields_strncpy hstr hcount hdisj).mono fun _ _ ht =>
    ⟨ht, fun hlt => strcpyAgrees_of_lt hstr hcount hdisj hlt ht⟩

end

/-- The string "ab", at address 4096. -/
def stringMemory : Machine Empty :=
  ⟨ofString 4096 [97, 98], []⟩

theorem strncpy_copies_ab : Yields (strncpy 8192 4096 5) stringMemory fun r t =>
    StrncpyCopies 8192 4096 [(97 : Byte), 98].length (5 : Word).toNat stringMemory r t ∧
      ([(97 : Byte), 98].length < (5 : Word).toNat →
        StrcpyAgrees 8192 4096 [(97 : Byte), 98].length stringMemory t) :=
  strncpy_copies (stringAt_ofString (by decide) (by decide)) (by decide)
    (disjoint_region_of_le (by decide) (by decide))

end Ciabatta.StdlibString
