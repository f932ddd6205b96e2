import Ciabatta.Digits

/-!
What the digit loops leave in their buffers, and when they run over the start of it: a
buffer of 20 bytes has room for 19 characters and the terminator.
-/

namespace Ciabatta

open ByteMemory Exec

variable {σ : Type}

/-! ### Decimal digits -/

theorem byteOf_digitChar {n : ℕ} (h : n < 10) : byteOf n.digitChar = BitVec.ofNat 8 (n + 48) := by
  have hall : ∀ k < 10, byteOf (Nat.digitChar k) = BitVec.ofNat 8 (k + 48) := by decide
  exact hall n h

theorem toDigits_of_lt {n : ℕ} (h : n < 10) :
    (Nat.toDigits 10 n).map byteOf = [BitVec.ofNat 8 (n + 48)] := by
  rw [Nat.toDigits_of_lt_base h, List.map_singleton, byteOf_digitChar h]

theorem toDigits_of_le {n : ℕ} (h : 10 ≤ n) :
    (Nat.toDigits 10 n).map byteOf =
      (Nat.toDigits 10 (n / 10)).map byteOf ++ [BitVec.ofNat 8 (n % 10 + 48)] := by
  rw [Nat.toDigits_of_base_le (by decide) h, List.map_append, List.map_singleton,
    byteOf_digitChar (Nat.mod_lt _ (by decide))]

theorem zero_not_mem_digits (n : ℕ) : 0 ∉ (Nat.toDigits 10 n).map byteOf := by
  intro h
  obtain ⟨c, hc, h0⟩ := List.mem_map.mp h
  have hdigit := Nat.isDigit_of_mem_toDigits (by decide) (by decide) hc
  rw [Char.isDigit_iff_toNat] at hdigit
  have hnat := congrArg BitVec.toNat h0
  rw [byteOf, BitVec.toNat_ofNat] at hnat
  change c.toNat % 256 = 0 at hnat
  have h48 : '0'.toNat = 48 := rfl
  have h57 : '9'.toNat = 57 := rfl
  omega

/-! ### The unsigned loop -/

/-- `p` in front of what is in the buffer already, as far as there is room. -/
def fill (text p : List Byte) : EStateM Stop σ (List Byte) :=
  if text.length + p.length ≤ digitBufSize then pure (text ++ p) else throw .outOfBounds

/-- The same in a buffer of `size` bytes. -/
def fillIn (size : ℕ) (text p : List Byte) : EStateM Stop σ (List Byte) :=
  if text.length + p.length ≤ size then pure (text ++ p) else throw .outOfBounds

theorem fillIn_digitBufSize (text p : List Byte) :
    (fillIn digitBufSize text p : EStateM Stop σ (List Byte)) = fill text p :=
  rfl

theorem pushCharIn_eq (size : ℕ) (c : Byte) (p : List Byte) :
    (pushCharIn size c p : EStateM Stop σ (List Byte)) = fillIn size [c] p := by
  rw [pushCharIn, fillIn, List.length_singleton, Nat.add_comm]
  rfl

theorem pushChar_eq (c : Byte) (p : List Byte) :
    (pushChar c p : EStateM Stop σ (List Byte)) = fill [c] p :=
  pushCharIn_eq digitBufSize c p

/-- Two texts, one in front of the other. -/
theorem fillIn_bind_fillIn (size : ℕ) (text text' p : List Byte) :
    (fillIn size text p >>= fillIn size text' : EStateM Stop σ (List Byte)) =
      fillIn size (text' ++ text) p := by
  rw [fillIn, fillIn, List.length_append]
  by_cases hfits : text.length + p.length ≤ size
  · rw [if_pos hfits, pure_bind, fillIn, List.length_append, List.append_assoc, Nat.add_assoc]
  · rw [if_neg hfits, if_neg (by omega)]
    rfl

theorem fill_bind_fill (text text' p : List Byte) :
    (fill text p >>= fill text' : EStateM Stop σ (List Byte)) = fill (text' ++ text) p :=
  fillIn_bind_fillIn digitBufSize text text' p

theorem fillIn_bind_congr {size : ℕ} {text p : List Byte}
    {f g : List Byte → EStateM Stop σ (List Byte)}
    (h : text.length + p.length ≤ size → f (text ++ p) = g (text ++ p)) :
    fillIn size text p >>= f = fillIn size text p >>= g := by
  rw [fillIn]
  split_ifs with hfits
  · rw [pure_bind, pure_bind, h hfits]
  · rfl

theorem toNat_digit (number : Word) :
    (number % 10 + 48).setWidth 8 = BitVec.ofNat 8 (number.toNat % 10 + 48) := by
  apply BitVec.eq_of_toNat_eq
  have hmod : (number % 10).toNat = number.toNat % 10 := BitVec.toNat_umod
  have h48 : (48 : Word).toNat = 48 := rfl
  rw [BitVec.toNat_setWidth, BitVec.toNat_add, hmod, h48, BitVec.toNat_ofNat]
  omega

theorem toNat_div_ten (number : Word) : (number / 10).toNat = number.toNat / 10 :=
  BitVec.toNat_udiv

theorem div_ten_pos_iff (number : Word) : number / 10 > 0 ↔ 10 ≤ number.toNat := by
  have hzero : (0 : Word).toNat = 0 := rfl
  rw [gt_iff_lt, BitVec.lt_def, toNat_div_ten, hzero]
  omega

/-- A loop that writes the last digit of its number in front of what is there, and goes
on with the others, writes all of them. -/
theorem digitLoop_eq {size fuel : ℕ} {P : Word → Prop}
    {round : Word × List Byte → EStateM Stop σ ((Word × List Byte) ⊕ List Byte)}
    (hround : ∀ number p, P number → round (number, p) = (do
      let p ← fillIn size [BitVec.ofNat 8 (number.toNat % 10 + 48)] p
      if 10 ≤ number.toNat then return .inl (number / 10, p) else return .inr p))
    (hnext : ∀ number, P number → P (number / 10)) {number : Word} (hnumber : P number)
    {p : List Byte} (hp : p.length ≤ size) (hfuel : size < fuel + p.length) :
    loop round fuel (number, p) = fillIn size ((Nat.toDigits 10 number.toNat).map byteOf) p := by
  induction fuel generalizing number p with
  | zero => omega
  | succ fuel ih =>
      rw [loop, hround number p hnumber, bind_assoc]
      by_cases hmore : 10 ≤ number.toNat
      · rw [toDigits_of_le hmore, ← fillIn_bind_fillIn, ← toNat_div_ten]
        refine fillIn_bind_congr fun hfits => ?_
        rw [if_pos hmore, pure_bind]
        refine ih (hnext number hnumber) ?_ ?_ <;> rw [List.length_append]
        · exact hfits
        · rw [List.length_singleton]
          omega
      · rw [toDigits_of_lt (Nat.lt_of_not_le hmore),
          Nat.mod_eq_of_lt (Nat.lt_of_not_le hmore)]
        refine Eq.trans (fillIn_bind_congr fun _ => ?_) (bind_pure _)
        -- the first digit is the last one
        rw [if_neg hmore, pure_bind]

/-- The loop writes the digits of the number in front of what is there. -/
theorem uintDigitLoop_eq {fuel : ℕ} {number : Word} {p : List Byte}
    (hp : p.length ≤ digitBufSize) (hfuel : digitBufSize < fuel + p.length) :
    (loop uintDigitRound fuel (number, p) : EStateM Stop σ (List Byte)) =
      fill ((Nat.toDigits 10 number.toNat).map byteOf) p := by
  refine digitLoop_eq (P := fun _ => True) (fun number p _ => ?_) (fun _ _ => trivial) trivial hp
    hfuel
  rw [uintDigitRound, pushChar_eq, toNat_digit, fillIn_digitBufSize]
  simp only [div_ten_pos_iff]

theorem uintDigits_eq (number : Word) :
    (uintDigits number : EStateM Stop σ (List Byte)) =
      fill ((Nat.toDigits 10 number.toNat).map byteOf) [0] :=
  uintDigitLoop_eq (by decide) (by decide)

/-! ### The signed loop -/

theorem toInt_div_ten (number : Word) : (number / 10).toInt = number.toNat / 10 := by
  have hdiv := toNat_div_ten number
  have hbound := number.isLt
  rw [BitVec.toInt_eq_toNat_of_lt (by omega), hdiv, Int.natCast_ediv]
  rfl

/-- A number that is not negative has the same digits signed and unsigned. -/
theorem intDigitRoundIn_eq {number : Word} (h : 0 ≤ number.toInt) (size : ℕ) (p : List Byte) :
    (intDigitRoundIn size (number, p) : EStateM Stop σ _) = (do
      let p ← fillIn size [BitVec.ofNat 8 (number.toNat % 10 + 48)] p
      if 10 ≤ number.toNat then return .inl (number / 10, p) else return .inr p) := by
  have hmsb := msb_eq_false h
  have hten : (10 : Word).msb = false := rfl
  have hrem : number.srem 10 = number % 10 := by
    rw [BitVec.srem_eq, hmsb, hten]
  have hdiv : number.sdiv 10 = number / 10 := by
    rw [BitVec.sdiv_eq, hmsb, hten]
    rfl
  have hmore : (number / 10).toInt > 0 ↔ 10 ≤ number.toNat := by
    rw [toInt_div_ten]
    omega
  rw [intDigitRoundIn, hrem, hdiv, toNat_digit, pushCharIn_eq]
  simp only [hmore]

theorem intDigitsIn_eq {size : ℕ} {number : Word} (hsize : 0 < size) (h : 0 ≤ number.toInt) :
    (intDigitsIn size number : EStateM Stop σ (List Byte)) =
      fillIn size ((Nat.toDigits 10 number.toNat).map byteOf) [0] := by
  refine digitLoop_eq (P := fun number => 0 ≤ number.toInt)
    (fun number p hnumber => intDigitRoundIn_eq hnumber size p) (fun number _ => ?_) h hsize
    (Nat.lt_succ_self size)
  rw [toInt_div_ten]
  omega

/-- What the loop of `print_int` leaves of a number, without its sign. The one number
that stays negative when it is negated has one digit, eight below `0`. -/
def magnitudeText (number : Word) : List Byte :=
  if number = BitVec.intMin 64 then [byteOf '(']
  else (Nat.toDigits 10 number.toInt.natAbs).map byteOf

theorem zero_not_mem_magnitudeText (number : Word) : 0 ∉ magnitudeText number := by
  rw [magnitudeText]
  split_ifs
  · decide
  · exact zero_not_mem_digits _

theorem intDigitsIn_intMin {size : ℕ} (hsize : 0 < size) :
    (intDigitsIn size (BitVec.intMin 64) : EStateM Stop σ (List Byte)) =
      fillIn size [byteOf '('] [0] := by
  have hdigit : ((BitVec.intMin 64).srem 10 + 48).setWidth 8 = byteOf '(' := by decide
  have hlast : ¬ ((BitVec.intMin 64).sdiv 10).toInt > 0 := by decide
  cases size with
  | zero => exact absurd hsize (Nat.lt_irrefl 0)
  | succ fuel =>
      rw [intDigitsIn, loop, intDigitRoundIn, hdigit, pushCharIn_eq, bind_assoc]
      refine Eq.trans (fillIn_bind_congr fun _ => ?_) (bind_pure _)
      rw [if_neg hlast, pure_bind]

theorem intDigitsIn_magnitude {size : ℕ} (hsize : 0 < size) (number : Word) :
    (intDigitsIn size (if number.toInt < 0 then -number else number) :
        EStateM Stop σ (List Byte)) =
      fillIn size (magnitudeText number) [0] := by
  rw [magnitudeText]
  split_ifs with hneg hmin hmin
  · rw [hmin]
    exact intDigitsIn_intMin hsize
  · have hint : (-number).toInt = -number.toInt := BitVec.toInt_neg_of_ne_intMin hmin
    have hpos : 0 ≤ (-number).toInt := by omega
    have habs : (-number).toNat = number.toInt.natAbs := by
      have hnat := toInt_eq_toNat hpos
      omega
    rw [intDigitsIn_eq hsize hpos, habs]
  · exact absurd (hmin ▸ hneg) (by decide)
  · have hpos : 0 ≤ number.toInt := by omega
    have habs : number.toNat = number.toInt.natAbs := by
      have hnat := toInt_eq_toNat hpos
      omega
    rw [intDigitsIn_eq hsize hpos, habs]

theorem intDigits_magnitude (number : Word) :
    (intDigits (if number.toInt < 0 then -number else number) : EStateM Stop σ (List Byte)) =
      fill (magnitudeText number) [0] :=
  intDigitsIn_magnitude (by decide) number

theorem length_toDigits_le_iff {n k : ℕ} (hk : 0 < k) :
    ((Nat.toDigits 10 n).map byteOf).length ≤ k ↔ n < 10 ^ k := by
  rw [List.length_map]
  exact Nat.length_toDigits_le_iff (by decide) hk

theorem length_magnitudeText_le_iff {number : Word} {k : ℕ} (hk : 0 < k) :
    (magnitudeText number).length ≤ k ↔
      number = BitVec.intMin 64 ∨ number.toInt.natAbs < 10 ^ k := by
  rw [magnitudeText]
  split_ifs with hmin
  · exact iff_of_true hk (.inl hmin)
  · rw [length_toDigits_le_iff hk, or_iff_right hmin]

theorem length_magnitudeText_le (number : Word) : (magnitudeText number).length ≤ 19 := by
  rw [length_magnitudeText_le_iff (by decide)]
  have hle : -2 ^ 63 ≤ number.toInt := BitVec.le_toInt number
  have hlt : number.toInt < 2 ^ 63 := BitVec.toInt_lt
  omega

/-! ### The hexadecimal loop -/

def hexadecimalDigits (number : Word) : List Byte :=
  (List.range 16).map fun i => hexDigits.getD ((number >>> (60 - 4 * i)) &&& 0x0f).toNat 0

theorem hexDigit_ne (bits : Word) : hexDigits.getD (bits &&& 0x0f).toNat 0 ≠ 0 := by
  have hlt : (bits &&& 0x0f).toNat < 16 := by
    rw [BitVec.toNat_and]
    exact Nat.and_lt_two_pow _ (by decide : (0x0f : Word).toNat < 2 ^ 4)
  have hdigit : ∀ k < 16, hexDigits.getD k 0 ≠ 0 := by decide
  exact hdigit _ hlt

theorem zero_not_mem_hexadecimalDigits (number : Word) : 0 ∉ hexadecimalDigits number := by
  intro h
  obtain ⟨i, -, h0⟩ := List.mem_map.mp h
  exact hexDigit_ne _ h0

theorem hexDigitLoop_eq (number : Word) :
    (hexDigitLoop number : EStateM Stop σ (List Byte)) =
      pure (hexadecimalDigits number ++ [0]) :=
  rfl

end Ciabatta
