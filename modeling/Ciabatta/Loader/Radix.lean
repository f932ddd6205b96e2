import Mathlib.Data.BitVec
import Ciabatta.Lib.Horner
import Ciabatta.Loader.MapsGrammar

/-!
The digits of `read_hex` and `read_dec` (`stack.c`). `char_is_hex` takes letters of either
case, but `char_to_hex` counts all of them from `a` on, so that a capital one comes out 32
too small.
-/

namespace Ciabatta.Loader

open ByteMemory Exec MapsGrammar

/-- The two readers. -/
inductive Radix
  | hex
  | dec

/-! ### Numbers -/

/-- What a digit is worth. -/
def digitValue (c : Byte) : ℕ :=
  if c ≤ byteOf '9' then c.toNat - 48
  else if c ≤ byteOf 'F' then c.toNat - 65 + 10
  else c.toNat - 97 + 10

def IsCapital (c : Byte) : Prop := byteOf 'A' ≤ c ∧ c ≤ byteOf 'F'

instance : DecidablePred IsCapital := fun _ => inferInstanceAs (Decidable (_ ∧ _))

namespace Radix

def base : Radix → ℕ
  | .hex => 16
  | .dec => 10

def IsDigit : Radix → ℤ → Prop
  | .hex => IsHex
  | .dec => IsDec

instance : (radix : Radix) → DecidablePred radix.IsDigit
  | .hex => inferInstanceAs (DecidablePred IsHex)
  | .dec => inferInstanceAs (DecidablePred IsDec)

def read : Radix → ℕ → MapsM (ℤ × Word)
  | .hex => readHex
  | .dec => readDec

/-- The number that the digits denote, the highest one first. -/
def number (radix : Radix) (digits : List Byte) : ℕ :=
  Nat.ofDigits radix.base (digits.reverse.map digitValue)

/-- The number with 1 for each capital letter and 0 for the other digits. -/
def capitals (radix : Radix) (digits : List Byte) : ℕ :=
  Nat.ofDigits radix.base (digits.reverse.map fun c => if IsCapital c then 1 else 0)

/-! ### What the code makes of them -/

/-- A round on `result`. -/
def step : Radix → Word → ℤ → Word
  | .hex, result, ch => result * 16 + BitVec.ofInt 64 (charToHex ch)
  | .dec, result, ch => result * 10 + BitVec.ofInt 64 (ch - chr '0')

variable {radix : Radix} {c : Byte} {digits : List Byte}

theorem charToHex_eq (h : IsHex c.toInt) : BitVec.ofInt 64 (charToHex c.toInt) =
    BitVec.ofNat 64 (digitValue c) - 32 * BitVec.ofNat 64 (if IsCapital c then 1 else 0) := by
  revert c
  decide

theorem sub_zero_eq (h : IsDec c.toInt) : BitVec.ofInt 64 (c.toInt - chr '0') =
    BitVec.ofNat 64 (digitValue c) - 32 * BitVec.ofNat 64 (if IsCapital c then 1 else 0) := by
  revert c
  decide

/-- A digit is worth what it should be, less 32 for a capital letter. -/
theorem step_eq (h : radix.IsDigit c.toInt) (v : Word) :
    radix.step v c.toInt = v * (radix.base : Word) +
      ((digitValue c : Word) - 32 * ((if IsCapital c then 1 else 0 : ℕ) : Word)) := by
  cases radix with
  | hex => exact congrArg (v * 16 + ·) (charToHex_eq h)
  | dec => exact congrArg (v * 10 + ·) (sub_zero_eq h)

theorem foldl_step (h : ∀ c ∈ digits, radix.IsDigit c.toInt) :
    (digits.map BitVec.toInt).foldl radix.step 0 =
      (radix.number digits : Word) - 32 * (radix.capitals digits : Word) := by
  rw [List.foldl_map, List.foldl_ext _ _ 0 fun v c hc => step_eq (h c hc) v, Horner.foldl_sub,
    number, capitals, Nat.coe_ofDigits, Nat.coe_ofDigits]

/-- The two numbers are the same modulo `2 ^ 64`. -/
theorem foldl_step_eq_iff (h : ∀ c ∈ digits, radix.IsDigit c.toInt) :
    (digits.map BitVec.toInt).foldl radix.step 0 = BitVec.ofNat 64 (radix.number digits) ↔
      2 ^ 59 ∣ radix.capitals digits := by
  have hshift : 32 * (radix.capitals digits : Word) =
      BitVec.ofNat 64 (32 * radix.capitals digits) := by
    rw [← BitVec.natCast_eq_ofNat, Nat.cast_mul]
    rfl
  have hpow : 2 ^ 64 = 32 * 2 ^ 59 := by norm_num
  have hzero : (0 : Word).toNat = 0 := rfl
  rw [foldl_step h, ← BitVec.natCast_eq_ofNat, sub_eq_self, hshift, ← BitVec.toNat_inj,
    BitVec.toNat_ofNat, hzero, ← Nat.dvd_iff_mod_eq_zero, hpow]
  exact Nat.mul_dvd_mul_iff_left (by decide)

/-- In front of the last fifteen digits a capital letter makes no difference: `32 * 16 ^ 15`
is a multiple of `2 ^ 64`. -/
theorem dvd_capitals_iff (h : ∀ c ∈ digits, radix.IsDigit c.toInt) :
    2 ^ 59 ∣ radix.capitals digits ↔ ∀ c ∈ digits.reverse.take 15, ¬ IsCapital c := by
  cases radix with
  | hex =>
      rw [capitals, base, Horner.dvd_ofDigits_iff (k := 15) (by decide) ?_ (by decide) (by decide),
        ← List.map_take, List.forall_mem_map]
      · simp
      · intro x hx
        obtain ⟨c, -, rfl⟩ := List.mem_map.mp hx
        split_ifs
        · exact le_rfl
        · exact Nat.zero_le 1
  | dec =>
      have hsmall (c : Byte) : IsDec c.toInt → ¬ IsCapital c := by
        revert c
        decide
      have hnone : ∀ c ∈ digits, ¬ IsCapital c := fun c hc => hsmall c (h c hc)
      have hzero : Radix.dec.capitals digits = 0 := by
        rw [capitals, base, Horner.ofDigits_eq_zero_iff (by decide), List.forall_mem_map]
        intro c hc
        exact if_neg (hnone c (List.mem_reverse.mp hc))
      rw [hzero]
      refine iff_of_true (Nat.dvd_zero _) fun c hc => hnone c ?_
      exact List.mem_reverse.mp (List.mem_of_mem_take hc)

end Radix

end Ciabatta.Loader
