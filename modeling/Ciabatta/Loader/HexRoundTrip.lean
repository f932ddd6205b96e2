import Ciabatta.Loader.NumberScanning
import Ciabatta.Loader.Print
import Ciabatta.StdlibFile.Pieces

/-!
The digits of `print_hex`, in `loader.h` and in `fmt.c`, and `read_hex` (`stack.c`). The
printers go from the lowest four bits to the highest and fill a buffer from its end,
`read_hex` goes the other way.
-/

namespace Ciabatta.Loader

open ByteMemory Exec MapsGrammar

variable {number : Word}

/-! ### What the printers write -/

/-- `print_hex` of `loader.h` writes `0x` and then the digits. -/
def LoaderWrites (number : Word) (digits : List Byte) : Prop :=
  ∀ chunks, printHex number chunks = .ok () (chunks ++ [[byteOf '0', byteOf 'x'], digits])

/-- `print_hex` of `fmt.c` writes `0x`, the digits and the terminator in one call. -/
def FmtWrites (number : Word) (digits : List Byte) : Prop :=
  ∀ s, Yields (StdlibFile.printHex number) s fun _ t => ∃ result,
    t.log = s.log ++ [.write (byteOf '0' :: byteOf 'x' :: digits ++ [0]) result]

theorem length_hexadecimalDigits (number : Word) : (hexadecimalDigits number).length = 16 := by
  rw [hexadecimalDigits, List.length_map, List.length_range]

theorem loaderWrites_hexadecimalDigits (number : Word) :
    LoaderWrites number (hexadecimalDigits number) := by
  intro chunks
  have hprefix : printString [byteOf '0', byteOf 'x', 0] chunks =
      .ok () (chunks ++ [[byteOf '0', byteOf 'x']]) :=
    @printString_eq [byteOf '0', byteOf 'x'] (by decide) (by decide) chunks
  have hlength : (hexadecimalDigits number).length < 2 ^ 31 := by
    rw [length_hexadecimalDigits]
    decide
  rw [printHex, bind_of_ok hprefix, hexDigitLoop_eq, pure_bind,
    printString_eq (zero_not_mem_hexadecimalDigits number) hlength, List.append_assoc]
  rfl

theorem fmtWrites_hexadecimalDigits (number : Word) :
    FmtWrites number (hexadecimalDigits number) := by
  intro s
  obtain ⟨status, hwrite, -⟩ := StdlibFile.rtFileWrite_run (StdlibFile.hexText number ++ [0]) s
  rw [StdlibFile.printHex_eq, StdlibFile.writeBuf, Yields, bind_of_ok hwrite]
  split_ifs
  · exact yields_pure ⟨_, rfl⟩
  · exact yields_pure ⟨_, rfl⟩

/-! ### What `read_hex` makes of the digits -/

theorem toNat_nibble (number : Word) (i : ℕ) :
    ((number >>> (4 * i)) &&& 0x0f).toNat = number.toNat / 16 ^ i % 16 := by
  have hmask : (0x0f : Word).toNat = 2 ^ 4 - 1 := rfl
  have hpow : 2 ^ (4 * i) = 16 ^ i := by rw [pow_mul]; rfl
  rw [BitVec.toNat_and, hmask, Nat.and_two_pow_sub_one_eq_mod, BitVec.toNat_ushiftRight,
    Nat.shiftRight_eq_div_pow, hpow]

/-- The digits from the lowest one on. -/
theorem reverse_hexadecimalDigits (number : Word) : (hexadecimalDigits number).reverse =
    (List.range 16).map fun i => hexDigits.getD (number.toNat / 16 ^ i % 16) 0 := by
  have hrange : (List.range 16).reverse = (List.range 16).map (15 - ·) := by decide
  rw [hexadecimalDigits, ← List.map_reverse, hrange, List.map_map]
  refine List.map_congr_left fun i hi => ?_
  have hshift : 60 - 4 * (15 - i) = 4 * i := by
    have hlt := List.mem_range.mp hi
    omega
  rw [Function.comp_apply, hshift, toNat_nibble]

theorem digitValue_hexDigits : ∀ k < 16, digitValue (hexDigits.getD k 0) = k := by decide

theorem number_hexadecimalDigits (number : Word) :
    Radix.hex.number (hexadecimalDigits number) = number.toNat := by
  have hdigit (i : ℕ) : digitValue (hexDigits.getD (number.toNat / 16 ^ i % 16) 0) =
      number.toNat / 16 ^ i % 16 := digitValue_hexDigits _ (Nat.mod_lt _ (by decide))
  rw [Radix.number, reverse_hexadecimalDigits, List.map_map]
  simp only [Function.comp_def, hdigit]
  exact (Horner.ofDigits_range 16 number.toNat 16).trans (Nat.mod_eq_of_lt number.isLt)

theorem hex_of_mem_hexadecimalDigits {c : Byte} (hc : c ∈ hexadecimalDigits number) :
    IsHex c.toInt ∧ ¬ IsCapital c := by
  have hall : ∀ k < 16, IsHex (hexDigits.getD k 0).toInt ∧ ¬ IsCapital (hexDigits.getD k 0) := by
    decide
  rw [← List.mem_reverse, reverse_hexadecimalDigits] at hc
  obtain ⟨i, -, rfl⟩ := List.mem_map.mp hc
  exact hall _ (Nat.mod_lt _ (by decide))

/-! ### The round trip -/

/-- Wherever the calls of `read_char` bring the digits, and no other digit behind them,
`read_hex` stores the number. -/
def ReadsBack (digits : List Byte) (number : Word) : Prop :=
  ∀ s next, Brings (pending s) (numberText digits next) s → ¬ IsHex (behind next).returned →
    ∃ fuel t, readHex fuel s = .ok (0, number) t ∧ t.buffer.lastChar = (behind next).returned

theorem readsBack_hexadecimalDigits (number : Word) :
    ReadsBack (hexadecimalDigits number) number := by
  intro s next h hnext
  have hdigits : ∀ c ∈ hexadecimalDigits number, Radix.hex.IsDigit c.toInt :=
    fun c hc => (hex_of_mem_hexadecimalDigits hc).1
  have hlength : (hexadecimalDigits number).length < 2 ^ 31 := by
    rw [length_hexadecimalDigits]
    decide
  have hvalue : ((hexadecimalDigits number).map BitVec.toInt).foldl Radix.hex.step 0 =
      BitVec.ofNat 64 (Radix.hex.number (hexadecimalDigits number)) := by
    rw [Radix.foldl_step_eq_iff hdigits, Radix.dvd_capitals_iff hdigits]
    intro c hc
    exact (hex_of_mem_hexadecimalDigits (List.mem_reverse.mp (List.mem_of_mem_take hc))).2
  obtain ⟨fuel, t, hread, hchar, -⟩ :=
    (scans_iff_foldl .hex h (agreesInside_refl _) hdigits hnext).mpr
      ⟨hlength, roomFor_of_brings h, hvalue⟩
  have hnotNil : hexadecimalDigits number ≠ [] := by
    rw [← List.length_pos_iff, length_hexadecimalDigits]
    decide
  rw [if_neg hnotNil, number_hexadecimalDigits, BitVec.ofNat_toNat, BitVec.setWidth_eq] at hread
  exact ⟨fuel, t, hread, hchar⟩

/-- Both printers write the same sixteen digits of a number, and `read_hex` makes the number
of them again. -/
theorem hexRoundTrip (number : Word) : ∃ digits, digits.length = 16 ∧
    LoaderWrites number digits ∧ FmtWrites number digits ∧ ReadsBack digits number :=
  ⟨hexadecimalDigits number, length_hexadecimalDigits number,
    loaderWrites_hexadecimalDigits number, fmtWrites_hexadecimalDigits number,
    readsBack_hexadecimalDigits number⟩

/-- The buffer has the characters, and the first of them was read. -/
def fedWith (d : Byte) (ds : List Byte) (c : Byte) : MapsState :=
  { lastCharFile c with buffer := ⟨3, d :: ds ++ [c], lineBufSize, ds.length + 2, 1, d.toInt⟩ }

theorem brings_fedWith (d : Byte) (ds : List Byte) (c : Byte) :
    Brings (pending (fedWith d ds c)) (numberText (d :: ds) (some c)) (fedWith d ds c) := by
  refine ⟨?_, rfl, rfl, tape (fedWith d ds c), ?_⟩
  · simp [fedWith]
  · simp [pending, fedWith, numberText, behind]

theorem hexRoundTrip_address : ∃ digits s, LoaderWrites 0x7ffd5b1c2000 digits ∧
    Brings (pending s) (numberText digits (some (byteOf '-'))) s ∧
    ∃ fuel t, readHex fuel s = .ok (0, 0x7ffd5b1c2000) t := by
  obtain ⟨digits, hlength, hwrites, -, hreads⟩ := hexRoundTrip 0x7ffd5b1c2000
  obtain ⟨d, ds, rfl⟩ := List.exists_cons_of_length_eq_add_one hlength
  have hbrings := brings_fedWith d ds (byteOf '-')
  obtain ⟨fuel, t, hread, -⟩ := hreads _ _ hbrings (by decide)
  exact ⟨d :: ds, _, hwrites, hbrings, fuel, t, hread⟩

end Ciabatta.Loader
