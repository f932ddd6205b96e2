import Ciabatta.Lib.Exec

/-!
The digit loops, which `fmt.c` and `loader.h` both have. A number is written into
a buffer from its end; the loops work on the part of the buffer that is filled.
-/

namespace Ciabatta

open ByteMemory Exec

variable {σ : Type}

/-- `sizeof buf` -/
def digitBufSize : ℕ := 20

/-- `*--p = c` -/
def pushChar (c : Byte) (p : List Byte) : EStateM Stop σ (List Byte) :=
  if p.length < digitBufSize then pure (c :: p) else throw .outOfBounds

/-- A round of the loop in `print_int`. -/
def intDigitRound : Word × List Byte → EStateM Stop σ ((Word × List Byte) ⊕ List Byte)
  | (number, p) => do
      let p ← pushChar ((number.srem 10 + 48).setWidth 8) p
      let number := number.sdiv 10
      if number.toInt > 0 then
        return .inl (number, p)
      else
        return .inr p

/-- A round of the loop in `print_uint`. -/
def uintDigitRound : Word × List Byte → EStateM Stop σ ((Word × List Byte) ⊕ List Byte)
  | (number, p) => do
      let p ← pushChar ((number % 10 + 48).setWidth 8) p
      let number := number / 10
      if number > 0 then
        return .inl (number, p)
      else
        return .inr p

def hexDigits : List Byte := "0123456789abcdef".toList.map byteOf

/-- A round of the loop in `print_hex`, with the shift `i`. -/
def hexDigitRound (number : Word) : ℕ × List Byte → EStateM Stop σ ((ℕ × List Byte) ⊕ List Byte)
  | (i, p) =>
      if i < 64 then do
        let bits := (number >>> i) &&& 0x0f
        let p ← pushChar (hexDigits.getD bits.toNat 0) p
        return .inl (i + 4, p)
      else
        return .inr p

/-- The digits of a signed number that is not negative. -/
def intDigits (number : Word) : EStateM Stop σ (List Byte) :=
  loop intDigitRound digitBufSize (number, [0])

def uintDigits (number : Word) : EStateM Stop σ (List Byte) :=
  loop uintDigitRound digitBufSize (number, [0])

def hexDigitLoop (number : Word) : EStateM Stop σ (List Byte) :=
  loop (hexDigitRound number) 17 (0, [0])

/-! ### Buffers of any size -/

def pushCharIn (size : ℕ) (c : Byte) (p : List Byte) : EStateM Stop σ (List Byte) :=
  if p.length < size then pure (c :: p) else throw .outOfBounds

def intDigitRoundIn (size : ℕ) :
    Word × List Byte → EStateM Stop σ ((Word × List Byte) ⊕ List Byte)
  | (number, p) => do
      let p ← pushCharIn size ((number.srem 10 + 48).setWidth 8) p
      let number := number.sdiv 10
      if number.toInt > 0 then
        return .inl (number, p)
      else
        return .inr p

/-- The digits that the loop of `print_int` writes into a buffer of `size` bytes. -/
def intDigitsIn (size : ℕ) (number : Word) : EStateM Stop σ (List Byte) :=
  loop (intDigitRoundIn size) size (number, [0])

theorem pushCharIn_digitBufSize (c : Byte) (p : List Byte) :
    (pushCharIn digitBufSize c p : EStateM Stop σ (List Byte)) = pushChar c p :=
  rfl

theorem intDigitRoundIn_digitBufSize (b : Word × List Byte) :
    (intDigitRoundIn digitBufSize b : EStateM Stop σ _) = intDigitRound b :=
  rfl

theorem intDigitsIn_digitBufSize (number : Word) :
    (intDigitsIn digitBufSize number : EStateM Stop σ (List Byte)) = intDigits number :=
  rfl

end Ciabatta
