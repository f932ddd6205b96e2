import Ciabatta.Lib.ByteMemory

/-!
Arrays of words in memory, one word behind the other from a start address up.
-/

namespace ByteMemory

/-- `&p[i]`, in an array of words. -/
def wordSlot (p : Word) (i : ℕ) : Word := p + BitVec.ofNat 64 (8 * i)

/-- The words `ws` stand in memory from `p` up. -/
structure HoldsWords (m : Mem) (p : Word) (ws : List Word) : Prop where
  fits : p.toNat + 8 * ws.length ≤ 2 ^ 64
  word : ∀ i w, ws[i]? = some w → load64 m (wordSlot p i) = w

/-- A memory that holds `ws` from `p` up and nothing else. -/
def ofWords (p : Word) (ws : List Word) : Mem :=
  fun x => BitVec.ofNat 8
    ((ws.getD ((x - p).toNat / 8) 0).toNat / 256 ^ ((x - p).toNat % 8))

variable {m : Mem} {p : Word} {ws vs : List Word} {i j : ℕ}

@[simp] theorem wordSlot_zero (p : Word) : wordSlot p 0 = p := by
  rw [wordSlot, Nat.mul_zero]
  exact add_zero p

theorem wordSlot_add (p : Word) (i j : ℕ) : wordSlot (wordSlot p i) j = wordSlot p (i + j) := by
  rw [wordSlot, wordSlot, wordSlot, add_assoc, ← BitVec.ofNat_add, Nat.mul_add]

/-- The part of an array behind its first words. -/
theorem HoldsWords.suffix (h : HoldsWords m p (vs ++ ws)) :
    HoldsWords m (wordSlot p vs.length) ws := by
  have hfits := h.fits
  rw [List.length_append] at hfits
  constructor
  · have hstart : (wordSlot p vs.length).toNat ≤ p.toNat + 8 * vs.length := by
      rw [wordSlot, BitVec.toNat_add, BitVec.toNat_ofNat]
      exact (Nat.mod_le _ _).trans (Nat.add_le_add_left (Nat.mod_le _ _) _)
    omega
  · intro i w hi
    rw [wordSlot_add]
    refine h.word _ w ?_
    rw [List.getElem?_append_right (Nat.le_add_right _ _), Nat.add_sub_cancel_left]
    exact hi

/-- The low half of a word. -/
theorem load32_eq_setWidth (m : Mem) (a : Word) : load32 m a = (load64 m a).setWidth 32 := by
  apply BitVec.eq_of_toNat_eq
  rw [load32, load64, BitVec.toNat_setWidth, BitVec.toNat_ofNat, BitVec.toNat_ofNat]
  simp only [read]
  omega

theorem holdsWords_ofWords (h : p.toNat + 8 * ws.length ≤ 2 ^ 64) :
    HoldsWords (ofWords p ws) p ws where
  fits := h
  word i w hi := by
    have hlt : i < ws.length := (List.getElem?_eq_some_iff.mp hi).1
    rw [← load64_store64 (ofWords p ws) (wordSlot p i) w]
    refine load64_congr fun x hx => ?_
    rw [mem_region] at hx
    -- the bytes of the `i`-th word are those at the distances from `8 * i` on
    have hdistance : (x - p).toNat = 8 * i + (x - wordSlot p i).toNat := by
      have hsum : x - p = BitVec.ofNat 64 (8 * i) + (x - wordSlot p i) := by
        rw [wordSlot, sub_add_eq_sub_sub, add_sub_cancel]
      rw [hsum, BitVec.toNat_add, BitVec.toNat_ofNat, Nat.mod_eq_of_lt (a := 8 * i) (by omega),
        Nat.mod_eq_of_lt (by omega)]
    have hindex : (x - p).toNat / 8 = i := by omega
    have hbyte : (x - p).toNat % 8 = (x - wordSlot p i).toNat := by omega
    rw [ofWords, hindex, hbyte, List.getD_eq_getElem?_getD, hi, store64, write, if_pos hx]
    rfl

end ByteMemory
