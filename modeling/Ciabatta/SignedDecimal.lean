import Ciabatta.NumberPrinters

/-!
`print_int` of `fmt.c` and of `loader.h` as a conversion to decimal. With room enough in
the buffer both write the same characters, and they denote the number, unless its
negation does not exist.
-/

namespace Ciabatta

open ByteMemory Exec

variable {n : ℕ} {digits text : List Byte} {size : ℕ} {number : Word}

/-! ### Decimal numerals -/

/-- Decimal digits without leading zeros that denote `n`. -/
structure DecimalDigits (digits : List Byte) (n : ℕ) : Prop where
  isDigit : ∀ d ∈ digits, byteOf '0' ≤ d ∧ d ≤ byteOf '9'
  ne_nil : digits ≠ []
  noLeadingZero : digits.head? = some (byteOf '0') → digits = [byteOf '0']
  value : digits.foldl (fun v d => 10 * v + (d.toNat - (byteOf '0').toNat)) 0 = n

/-- The same with an optional minus sign in front. -/
def SignedDecimal (text : List Byte) (number : ℤ) : Prop :=
  ∃ digits n, DecimalDigits digits n ∧
    (text = digits ∧ number = n ∨ text = byteOf '-' :: digits ∧ number = -n)

theorem toNat_digitByte (h : n < 10) : (BitVec.ofNat 8 (n + 48)).toNat = n + 48 := by
  rw [BitVec.toNat_ofNat, Nat.mod_eq_of_lt (by omega)]

theorem isDigit_digitByte (h : n < 10) :
    byteOf '0' ≤ BitVec.ofNat 8 (n + 48) ∧ BitVec.ofNat 8 (n + 48) ≤ byteOf '9' := by
  have hzero : (byteOf '0').toNat = 48 := rfl
  have hnine : (byteOf '9').toNat = 57 := rfl
  rw [BitVec.le_def, BitVec.le_def, toNat_digitByte h, hzero, hnine]
  omega

theorem decimalDigits_singleton (h : n < 10) : DecimalDigits [BitVec.ofNat 8 (n + 48)] n where
  isDigit d hd := List.mem_singleton.1 hd ▸ isDigit_digitByte h
  ne_nil := List.cons_ne_nil _ _
  noLeadingZero hhead := congrArg (fun d => [d]) (Option.some.inj hhead)
  value := by
    have hzero : (byteOf '0').toNat = 48 := rfl
    rw [List.foldl_cons, List.foldl_nil, toNat_digitByte h, hzero]
    omega

/-- A digit behind a number other than 0. -/
theorem DecimalDigits.snoc {d : ℕ} (h : DecimalDigits digits n) (hpos : 0 < n) (hd : d < 10) :
    DecimalDigits (digits ++ [BitVec.ofNat 8 (d + 48)]) (10 * n + d) where
  isDigit e he := by
    rcases List.mem_append.1 he with hmem | hmem
    · exact h.isDigit e hmem
    · exact List.mem_singleton.1 hmem ▸ isDigit_digitByte hd
  ne_nil := List.append_ne_nil_of_left_ne_nil h.ne_nil _
  noLeadingZero hhead := by
    -- a leading zero would be the only digit of `n`
    rw [List.head?_append_of_ne_nil _ h.ne_nil] at hhead
    have hvalue := h.value
    rw [h.noLeadingZero hhead] at hvalue
    exact absurd hvalue hpos.ne
  value := by
    have hzero : (byteOf '0').toNat = 48 := rfl
    rw [List.foldl_append, h.value, List.foldl_cons, List.foldl_nil, toNat_digitByte hd, hzero]
    omega

theorem decimalDigits_toDigits (n : ℕ) : DecimalDigits ((Nat.toDigits 10 n).map byteOf) n := by
  induction n using Nat.strong_induction_on with
  | _ n ih =>
      by_cases hmore : 10 ≤ n
      · have hdigits := (ih (n / 10) (Nat.div_lt_self (by omega) (by decide))).snoc
          (Nat.div_pos hmore (by decide)) (Nat.mod_lt n (by decide))
        rw [toDigits_of_le hmore]
        rwa [Nat.div_add_mod] at hdigits
      · rw [toDigits_of_lt (Nat.lt_of_not_le hmore)]
        exact decimalDigits_singleton (Nat.lt_of_not_le hmore)

/-- A character that is neither a sign nor a digit. -/
theorem not_signedDecimal_of_mem {d : Byte} (hmem : d ∈ text) (hsign : d ≠ byteOf '-')
    (hdigit : ¬ (byteOf '0' ≤ d ∧ d ≤ byteOf '9')) (number : ℤ) :
    ¬ SignedDecimal text number := by
  rintro ⟨digits, n, hdigits, ⟨rfl, -⟩ | ⟨rfl, -⟩⟩
  · exact hdigit (hdigits.isDigit d hmem)
  · exact hdigit (hdigits.isDigit d ((List.mem_cons.1 hmem).resolve_left hsign))

/-! ### The two functions -/

namespace StdlibFile

/-- `print_int` of `fmt.c` with a buffer of `size` bytes, up to the write. -/
def printIntCharsIn (size : ℕ) (number : Word) : StdioM (List Byte) := do
  let p ← intDigitsIn size (if number.toInt < 0 then -number else number)
  if number.toInt < 0 then pushCharIn size (byteOf '-') p else pure p

theorem printInt_eq_printIntCharsIn (number : Word) :
    printInt number = printIntCharsIn digitBufSize number >>= writeBuf := by
  rw [printIntCharsIn, bind_assoc]
  rfl

theorem printIntCharsIn_eq (hsize : 0 < size) (number : Word) :
    printIntCharsIn size number = fillIn size (intText number) [0] := by
  rw [printIntCharsIn, intDigitsIn_magnitude hsize, intText]
  split_ifs
  · have hsign : byteOf '-' :: magnitudeText number = [byteOf '-'] ++ magnitudeText number := rfl
    rw [hsign, ← fillIn_bind_fillIn]
    simp only [pushCharIn_eq]
  · exact bind_pure _

end StdlibFile

namespace Loader

/-- `print_int` of `loader.h` with a buffer of `size` bytes. -/
def printIntIn (size : ℕ) (number : Word) : PrintM Unit := do
  (if number.toInt < 0 then printChar (byteOf '-') else pure ())
  let p ← intDigitsIn size (if number.toInt < 0 then -number else number)
  printString p

theorem printIntIn_digitBufSize (number : Word) :
    printIntIn digitBufSize number = printInt number :=
  rfl

theorem printIntIn_eq (hsize : 20 ≤ size) (number : Word) :
    Yields (printIntIn size number) [] fun _ chunks =>
      chunks.flatten = StdlibFile.intText number := by
  have hlen := length_magnitudeText_le number
  have hfits : (magnitudeText number).length + [(0 : Byte)].length ≤ size := by
    rw [List.length_singleton]
    omega
  rw [printIntIn, StdlibFile.intText, intDigitsIn_magnitude (by omega), fillIn, if_pos hfits]
  have hdigits := printString_eq (zero_not_mem_magnitudeText number) (by omega)
  split_ifs
  · exact ⟨(), _, (hdigits [[byteOf '-']]), by simp⟩
  · exact ⟨(), _, (hdigits []), by simp⟩

end Loader

/-! ### Main result -/

/-- With `size` bytes for their buffers, `print_int` of `fmt.c` has `text` in front of the
terminator when it comes to write it, and `print_int` of `loader.h` prints `text`. -/
structure WritesInt (size : ℕ) (number : Word) (text : List Byte) : Prop where
  fmt : ∀ s, StdlibFile.printIntCharsIn size number s = .ok (text ++ [0]) s
  loader : Yields (Loader.printIntIn size number) [] fun _ chunks => chunks.flatten = text

/-- Room for 20 characters and the terminator is enough for each number. -/
def ConvertsInt (number : Word) : Prop :=
  ∀ size, 21 ≤ size → ∃ text, WritesInt size number text ∧ SignedDecimal text number.toInt

theorem length_intText_le (number : Word) : (StdlibFile.intText number).length ≤ 20 := by
  have hlen := length_magnitudeText_le number
  rw [StdlibFile.intText]
  split_ifs
  · exact Nat.succ_le_succ hlen
  · omega

/-- The two functions write the same characters, for each number. -/
theorem writesInt (hsize : 21 ≤ size) (number : Word) :
    WritesInt size number (StdlibFile.intText number) where
  fmt s := by
    have hlen := length_intText_le number
    rw [StdlibFile.printIntCharsIn_eq (by omega), fillIn, if_pos]
    · rfl
    · rw [List.length_singleton]
      omega
  loader := Loader.printIntIn_eq (by omega) number

theorem WritesInt.text_eq (h : WritesInt size number text) (hsize : 21 ≤ size) :
    text = StdlibFile.intText number := by
  have hfmt := h.fmt ⟨fun _ _ => 0, fun _ => 0, [], []⟩
  rw [(writesInt hsize number).fmt] at hfmt
  exact List.append_cancel_right (eq_of_ok hfmt).1

theorem signedDecimal_intText (hmin : number ≠ BitVec.intMin 64) :
    SignedDecimal (StdlibFile.intText number) number.toInt := by
  refine ⟨magnitudeText number, number.toInt.natAbs, ?_, ?_⟩
  · rw [magnitudeText, if_neg hmin]
    exact decimalDigits_toDigits _
  · rw [StdlibFile.intText]
    split_ifs with hneg
    · exact .inr ⟨rfl, by omega⟩
    · exact .inl ⟨rfl, by omega⟩

theorem not_convertsInt_intMin : ¬ ConvertsInt (BitVec.intMin 64) := by
  intro h
  obtain ⟨text, hwrites, hdecimal⟩ := h 21 le_rfl
  rw [hwrites.text_eq le_rfl] at hdecimal
  -- the character eight below `0`
  have hmem : byteOf '(' ∈ StdlibFile.intText (BitVec.intMin 64) := by decide
  exact not_signedDecimal_of_mem hmem (by decide) (by decide) _ hdecimal

/-- Every number but the least one is converted. -/
theorem convertsInt_iff (number : Word) : ConvertsInt number ↔ number ≠ BitVec.intMin 64 := by
  constructor
  · rintro h rfl
    exact not_convertsInt_intMin h
  · intro hmin size hsize
    exact ⟨_, writesInt hsize number, signedDecimal_intText hmin⟩

theorem convertsInt_fails : ¬ ∀ number : Word, ConvertsInt number :=
  fun h => not_convertsInt_intMin (h _)

end Ciabatta
