import Ciabatta.Lib.CString

/-!
`elf_sym_hash` (`loader.c`), which computes the hash of the System V ABI in 64 bits. A sum
may carry into bit 32; the mask at the end of the round takes the carry away.
-/

namespace Ciabatta.Loader

open ByteMemory Exec

variable {κ : Type}

/-- What a round makes of `h` with the byte `c`. -/
def elfSymHashStep (h : Word) (c : Byte) : Word :=
  let h := (h <<< 4) + c.setWidth 64
  let g := h &&& 0xf0000000
  let h := if g ≠ 0 then h ^^^ (g >>> 24) else h
  h &&& 0x0fffffff

/-- A round on `i` and `h`. -/
def elfSymHashRound (s : Word) : ℕ × Word → Exec κ ((ℕ × Word) ⊕ Word)
  | (i, h) => do
      let b ← loadByte (s + BitVec.ofNat 64 i)
      if b ≠ 0 then do
        let c ← loadByte (s + BitVec.ofNat 64 i)
        let h := elfSymHashStep h c
        let i ← incrementInt i
        return .inl (i, h)
      else
        return .inr h

/-- The counter allows no more than `2 ^ 31` rounds. -/
def elfSymHash (name : Word) : Exec κ Word :=
  loop (elfSymHashRound name) (2 ^ 31) (0, 0)

/-- A step of the hash as the ABI has it, in 32 bits. -/
def sysvStep (h : BitVec 32) (b : Byte) : BitVec 32 :=
  let h := (h <<< 4) + b.setWidth 32
  let g := h &&& 0xf0000000
  let h := h ^^^ (g >>> 24)
  h &&& ~~~g

/-- The hash in a `.hash` section. -/
def sysvHash (bytes : List Byte) : BitVec 32 :=
  bytes.foldl sysvStep 0

variable {name : Word} {bytes : List Byte} {s : Machine κ}

/-! ### A step in 64 and in 32 bits -/

/-- The test of `g` makes no difference. -/
theorem elfSymHashStep_eq (h : Word) (c : Byte) : elfSymHashStep h c =
    (((h <<< 4) + c.setWidth 64) ^^^ ((((h <<< 4) + c.setWidth 64) &&& 0xf0000000#64) >>> 24))
      &&& 0x0fffffff#64 := by
  rw [elfSymHashStep]
  split_ifs with hg
  · rfl
  · rw [show ((h <<< 4) + c.setWidth 64) &&& 0xf0000000#64 = 0 from not_not.mp hg]
    simp

/-- The low half of the sum is the sum of the low halves. -/
theorem setWidth_sum (h : Word) (c : Byte) : ((h <<< 4) + c.setWidth 64).setWidth 32 =
    (h.setWidth 32 <<< 4) + c.setWidth 32 := by
  apply BitVec.eq_of_toNat_eq
  simp [BitVec.toNat_shiftLeft, Nat.shiftLeft_eq]

/-- The four bits that are moved down come from the low half. -/
theorem setWidth_high (x : Word) : ((x &&& 0xf0000000#64) >>> 24).setWidth 32 =
    (x.setWidth 32 &&& 0xf0000000#32) >>> 24 := by
  have hmask : ∀ j < 64, (0xf0000000#64).getLsbD j = (0xf0000000#32).getLsbD j := by decide
  apply BitVec.eq_of_getLsbD_eq
  intro i hi
  rw [BitVec.getLsbD_setWidth, BitVec.getLsbD_ushiftRight, BitVec.getLsbD_ushiftRight,
    BitVec.getLsbD_and, BitVec.getLsbD_and, BitVec.getLsbD_setWidth, hmask _ (by omega)]
  by_cases hlow : 24 + i < 32
  · simp [hlow, hi]
  · simp [BitVec.getLsbD_of_ge _ _ (not_lt.mp hlow)]

/-- Of the four highest bits the code clears all, the ABI those that are set. The others
are clear already, as what was moved down is not among them. -/
theorem and_mask (x : BitVec 32) : (x ^^^ ((x &&& 0xf0000000#32) >>> 24)) &&& 0x0fffffff#32 =
    (x ^^^ ((x &&& 0xf0000000#32) >>> 24)) &&& ~~~(x &&& 0xf0000000#32) := by
  have hmask : ∀ j < 32, (0x0fffffff#32).getLsbD j = !(0xf0000000#32).getLsbD j := by decide
  have hhigh : ∀ j < 32, (0xf0000000#32).getLsbD j = true → 28 ≤ j := by decide
  apply BitVec.eq_of_getLsbD_eq
  intro i hi
  rw [BitVec.getLsbD_and, BitVec.getLsbD_and, BitVec.getLsbD_not, BitVec.getLsbD_and, hmask i hi]
  cases hbit : (0xf0000000#32).getLsbD i with
  | false => simp [hi]
  | true =>
      have hge : 28 ≤ i := hhigh i hi hbit
      have hmoved : (x &&& 0xf0000000#32).getLsbD (24 + i) = false :=
        BitVec.getLsbD_of_ge _ _ (by omega)
      simp [hmoved, hi]

/-- From any start: what the sum carries out of the low half is masked away. -/
theorem setWidth_elfSymHashStep (h : Word) (c : Byte) :
    (elfSymHashStep h c).setWidth 32 = sysvStep (h.setWidth 32) c := by
  rw [elfSymHashStep_eq, BitVec.setWidth_and, BitVec.setWidth_xor, setWidth_high, setWidth_sum,
    show (0x0fffffff#64).setWidth 32 = 0x0fffffff#32 from rfl, and_mask]
  rfl

theorem elfSymHashStep_lt (h : Word) (c : Byte) : (elfSymHashStep h c).toNat < 2 ^ 28 := by
  rw [elfSymHashStep_eq, BitVec.toNat_and]
  exact Nat.and_lt_two_pow _ (by decide)

/-! ### The hash of a name -/

theorem foldl_elfSymHashStep_lt (bytes : List Byte) :
    (bytes.foldl elfSymHashStep 0).toNat < 2 ^ 28 := by
  induction bytes using List.reverseRecOn with
  | nil => decide
  | append_singleton bytes c _ =>
      rw [List.foldl_concat]
      exact elfSymHashStep_lt _ c

theorem setWidth_foldl (bytes : List Byte) (h : Word) :
    (bytes.foldl elfSymHashStep h).setWidth 32 = bytes.foldl sysvStep (h.setWidth 32) := by
  induction bytes generalizing h with
  | nil => rfl
  | cons c bytes ih => rw [List.foldl_cons, List.foldl_cons, ih, setWidth_elfSymHashStep]

/-- The hash in 64 bits is the one in 32 bits. -/
theorem foldl_elfSymHashStep (bytes : List Byte) :
    bytes.foldl elfSymHashStep 0 = (sysvHash bytes).setWidth 64 := by
  have hlow := setWidth_foldl bytes 0
  have hlt := foldl_elfSymHashStep_lt bytes
  rw [show (0 : Word).setWidth 32 = 0 from rfl, ← sysvHash] at hlow
  apply BitVec.eq_of_toNat_eq
  rw [← hlow, BitVec.toNat_setWidth, BitVec.toNat_setWidth]
  omega

/-- What the hash is compared with. -/
def IsSysvHash (bytes : List Byte) (h : Word) : Prop :=
  h = (sysvHash bytes).setWidth 64 ∧ h.toNat < 2 ^ 28

theorem isSysvHash_foldl (bytes : List Byte) : IsSysvHash bytes (bytes.foldl elfSymHashStep 0) :=
  ⟨foldl_elfSymHashStep bytes, foldl_elfSymHashStep_lt bytes⟩

theorem elfSymHash_yields_iff (hname : StringAt s.mem name bytes) (P : Word → Prop) :
    Yields (elfSymHash name) s (fun h _ => P h) ↔
      bytes.length < 2 ^ 31 ∧ P (bytes.foldl elfSymHashStep 0) :=
  hname.yields_fold_iff (fun _ _ => rfl) P

/-- The code computes the hash of a name if and only if an `int` can count the bytes. -/
theorem elfSymHash_iff (hname : StringAt s.mem name bytes) :
    Yields (elfSymHash name) s (fun h _ => IsSysvHash bytes h) ↔ bytes.length < 2 ^ 31 := by
  rw [elfSymHash_yields_iff hname]
  exact and_iff_left (isSysvHash_foldl bytes)

theorem elfSymHash_exit : Yields (elfSymHash 4096)
    (⟨ofString 4096 [101, 120, 105, 116], []⟩ : Machine Empty)
    fun h _ => IsSysvHash [101, 120, 105, 116] h := by
  have hname : StringAt (ofString 4096 [101, 120, 105, 116]) 4096 [101, 120, 105, 116] :=
    stringAt_ofString (by decide) (by decide)
  exact (elfSymHash_iff (s := ⟨_, []⟩) hname).mpr (by decide)

/-- A name of `2 ^ 31` letters. -/
theorem elfSymHash_fails : ¬ ∀ (name : Word) (bytes : List Byte) (s : Machine Empty),
    StringAt s.mem name bytes → Yields (elfSymHash name) s fun h _ => IsSysvHash bytes h := by
  intro h
  have hletter : ∀ c ∈ List.replicate (2 ^ 31) (byteOf 'a'), c ≠ 0 := by
    intro c hc
    rw [List.eq_of_mem_replicate hc]
    decide
  have hname : StringAt (ofString 4096 (List.replicate (2 ^ 31) (byteOf 'a'))) 4096
      (List.replicate (2 ^ 31) (byteOf 'a')) :=
    stringAt_ofString (by rw [List.length_replicate]; norm_num) hletter
  have hhash := (elfSymHash_yields_iff (s := ⟨_, []⟩) hname _).mp (h 4096 _ ⟨_, []⟩ hname)
  rw [List.length_replicate] at hhash
  exact absurd hhash.1 (lt_irrefl _)

end Ciabatta.Loader
