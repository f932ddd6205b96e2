import Ciabatta.Lib.Counted

/-!
NUL-terminated strings in memory, and the loops that take one byte after the other into
an accumulator.
-/

namespace ByteMemory

/-- The string `str` stands in memory from `p` up, with its NUL. -/
structure StringAt (m : Mem) (p : Word) (str : List Byte) : Prop where
  byte : ∀ i c, str[i]? = some c → m (p + BitVec.ofNat 64 i) = c
  nul : m (p + BitVec.ofNat 64 str.length) = 0
  ne : ∀ c ∈ str, c ≠ 0

/-- A memory that holds `str` from `p` up and nothing else. -/
def ofString (p : Word) (str : List Byte) : Mem :=
  fun x => str.getD (x - p).toNat 0

variable {m : Mem} {p : Word} {str : List Byte} {i : ℕ}

theorem StringAt.byte_of_lt (h : StringAt m p str) (hi : i < str.length) :
    m (p + BitVec.ofNat 64 i) = str[i] :=
  h.byte i _ (List.getElem?_eq_getElem hi)

theorem StringAt.ne_zero (h : StringAt m p str) (hi : i < str.length) :
    m (p + BitVec.ofNat 64 i) ≠ 0 := by
  rw [h.byte_of_lt hi]
  exact h.ne _ (List.getElem_mem hi)

/-- A string fits into the address space. -/
theorem StringAt.length_lt (h : StringAt m p str) : str.length < 2 ^ 64 := by
  by_contra hlength
  -- the NUL would stand where a byte of the string does
  have hmod : str.length % 2 ^ 64 < str.length :=
    (Nat.mod_lt _ (by norm_num)).trans_le (not_lt.mp hlength)
  have hsame : BitVec.ofNat 64 (str.length % 2 ^ 64) = BitVec.ofNat 64 str.length := by
    rw [← BitVec.toNat_inj, BitVec.toNat_ofNat, BitVec.toNat_ofNat, Nat.mod_mod]
  have hbyte := h.ne_zero hmod
  rw [hsame] at hbyte
  exact hbyte h.nul

theorem stringAt_ofString (hlength : str.length < 2 ^ 64) (hne : ∀ c ∈ str, c ≠ 0) :
    StringAt (ofString p str) p str where
  byte i c hi := by
    have hlt : i < str.length := (List.getElem?_eq_some_iff.mp hi).1
    rw [ofString, add_sub_cancel_left, BitVec.toNat_ofNat, Nat.mod_eq_of_lt (by omega),
      List.getD_eq_getElem?_getD, hi]
    rfl
  nul := by
    rw [ofString, add_sub_cancel_left, BitVec.toNat_ofNat, Nat.mod_eq_of_lt hlength,
      List.getD_eq_getElem?_getD, List.getElem?_eq_none le_rfl]
    rfl
  ne := hne

/-! ### Loops along a string -/

section Fold

open Exec

variable {κ α : Type} {step : α → Byte → α} {init : α}
  {round : ℕ × α → Exec κ ((ℕ × α) ⊕ α)} {s : Machine κ}
  (hround : ∀ i a, round (i, a) = (do
    let b ← loadByte (p + BitVec.ofNat 64 i)
    if b ≠ 0 then do
      let c ← loadByte (p + BitVec.ofNat 64 i)
      let i ← incrementInt i
      return .inl (i, step a c)
    else
      return .inr a))

include hround

/-- The bytes up to the counter are in the accumulator. -/
theorem StringAt.counts_fold (h : StringAt s.mem p str) (init : α) :
    Counts (2 ^ 31) str.length
      (fun i b t => b = (i, (str.take i).foldl step init) ∧ t.mem = s.mem)
      (fun a _ => a = str.foldl step init) round where
  next := by
    rintro i _ t ⟨rfl, ht⟩ hlt hnext
    rw [hround]
    refine (yields_loadByte ht).bind ?_
    rintro _ u ⟨rfl, hu⟩
    refine .ite_pos (h.ne_zero hlt) ((yields_loadByte hu).bind ?_)
    rintro _ v ⟨rfl, hv⟩
    rw [incrementInt_of_lt hnext, h.byte_of_lt hlt, ← List.take_concat_get' _ _ hlt,
      List.foldl_append]
    exact yields_pure ⟨_, rfl, rfl, hv⟩
  overflow := by
    rintro i _ t ⟨rfl, ht⟩ hlt hnext
    rw [hround]
    refine (yields_loadByte ht).bind_stops ?_
    rintro _ u ⟨rfl, hu⟩
    rw [if_pos (h.ne_zero hlt)]
    refine (yields_loadByte hu).bind_stops fun _ v _ => ?_
    rw [incrementInt_of_not_lt hnext]
    exact stops_throw.bind _
  last := by
    rintro _ t ⟨rfl, ht⟩
    rw [hround]
    refine (yields_loadByte ht).bind ?_
    rintro _ u ⟨rfl, -⟩
    refine .ite_neg (not_not.mpr h.nul) (yields_pure ⟨_, rfl, ?_⟩)
    rw [List.take_length]

/-- The loop returns if and only if an `int` can count the bytes. -/
theorem StringAt.yields_fold_iff (h : StringAt s.mem p str) (P : α → Prop) :
    Yields (loop round (2 ^ 31) (0, init)) s (fun a _ => P a) ↔
      str.length < 2 ^ 31 ∧ P (str.foldl step init) := by
  have hcounts := h.counts_fold hround init
  constructor
  · rintro ⟨a, t, hrun, ha⟩
    have hfold := hcounts.of_ok ⟨rfl, rfl⟩ (Nat.zero_le _) (by norm_num) hrun
    exact ⟨hcounts.lt_of_ok ⟨rfl, rfl⟩ (Nat.zero_le _) (by norm_num) hrun, hfold ▸ ha⟩
  · rintro ⟨hlength, hP⟩
    refine (hcounts.yields hlength ⟨rfl, rfl⟩ (Nat.zero_le _) hlength).mono ?_
    rintro _ t rfl
    exact hP

end Fold

end ByteMemory
