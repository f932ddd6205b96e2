import Ciabatta.Loader.Print
import Ciabatta.StdlibFile.Pieces

/-!
The six functions that print a number, three of `fmt.c` and three of `loader.h`: for
which numbers their stores stay inside the 20 bytes of the buffer.
-/

namespace Ciabatta

open ByteMemory Exec

variable {σ α β : Type}

/-- No run from any state comes to a store outside the buffer. -/
def StoresInside (x : EStateM Stop σ α) : Prop := StopsOnly (· ≠ .outOfBounds) x

theorem not_storesInside_throw [Nonempty σ] (f : β → EStateM Stop σ α) :
    ¬ StoresInside ((throw .outOfBounds : EStateM Stop σ β) >>= f) := fun h =>
  h Classical.ofNonempty .outOfBounds _ rfl rfl

theorem storesInside_fill_bind_iff [Nonempty σ] {text p : List Byte}
    {f : List Byte → EStateM Stop σ α} (hf : ∀ q, StoresInside (f q)) :
    StoresInside (fill text p >>= f) ↔ text.length + p.length ≤ digitBufSize := by
  rw [fill]
  split_ifs with hfits
  · rw [pure_bind]
    exact iff_of_true (hf _) hfits
  · exact iff_of_false (not_storesInside_throw f) hfits

/-- The digits and the terminator. -/
theorem storesInside_uintDigits_bind_iff [Nonempty σ] {number : Word}
    {f : List Byte → EStateM Stop σ α} (hf : ∀ q, StoresInside (f q)) :
    StoresInside (uintDigits number >>= f) ↔ number.toNat < 10 ^ 19 := by
  rw [uintDigits_eq, storesInside_fill_bind_iff hf, ← length_toDigits_le_iff (by decide),
    List.length_singleton, digitBufSize]
  exact Nat.add_le_add_iff_right

/-! ### `fmt.c` -/

namespace StdlibFile

instance : Nonempty Stdio := ⟨⟨fun _ _ => 0, fun _ => 0, [], []⟩⟩

theorem storesInside_printInt_iff (number : Word) : StoresInside (printInt number) ↔
    ¬ (-2 ^ 63 < number.toInt ∧ number.toInt ≤ -10 ^ 18) := by
  have hmin : number = BitVec.intMin 64 ↔ number.toInt = -2 ^ 63 := BitVec.toInt_inj.symm
  have hle : -2 ^ 63 ≤ number.toInt := BitVec.le_toInt number
  rw [printInt_eq, storesInside_fill_bind_iff stopsOnly_writeBuf, intText, digitBufSize,
    List.length_singleton]
  split_ifs with hneg
  · -- the sign takes the place of a digit
    rw [List.length_cons, Nat.add_assoc, Nat.add_le_add_iff_right (k := 18),
      length_magnitudeText_le_iff (by decide), hmin]
    omega
  · have hlen := length_magnitudeText_le number
    exact iff_of_true (by omega) (by omega)

theorem storesInside_printUint_iff (number : Word) :
    StoresInside (printUint number) ↔ number.toNat < 10 ^ 19 :=
  storesInside_uintDigits_bind_iff stopsOnly_writeBuf

theorem storesInside_printHex (number : Word) : StoresInside (printHex number) := by
  rw [printHex_eq]
  exact stopsOnly_writeBuf _

end StdlibFile

/-! ### `loader.h` -/

namespace Loader

variable {P : Stop → Prop}

theorem stopsOnly_printStringN (str : List Byte) (len : ℕ) : StopsOnly P (printStringN str len) :=
  stopsOnly_of_ok fun _ => ⟨_, _, rfl⟩

theorem storesInside_printString (str : List Byte) : StoresInside (printString str) := by
  refine StopsOnly.bind ?_ fun _ => stopsOnly_printStringN str _
  refine stopsOnly_loop nofun (fun strLen => ?_) _ _
  refine StopsOnly.bind ?_ fun c => .ite (fun _ => ?_) fun _ => stopsOnly_pure _
  · by_cases hlt : strLen < str.length
    · rw [dif_pos hlt]
      exact stopsOnly_pure _
    · rw [dif_neg hlt]
      exact stopsOnly_throw nofun
  · exact StopsOnly.bind (.ite (fun _ => stopsOnly_pure _) fun _ => stopsOnly_throw nofun)
      fun _ => stopsOnly_pure _

/-- The sign is written before the loop, so that the digits have the buffer for
themselves. -/
theorem storesInside_printInt (number : Word) : StoresInside (printInt number) := by
  refine StopsOnly.bind ?_ fun _ => ?_
  · exact .ite (fun _ => stopsOnly_printStringN _ _) fun _ => stopsOnly_pure _
  · have hlen := length_magnitudeText_le number
    rw [intDigits_magnitude]
    exact (storesInside_fill_bind_iff storesInside_printString).2 (Nat.succ_le_succ hlen)

theorem storesInside_printUint_iff (number : Word) :
    StoresInside (printUint number) ↔ number.toNat < 10 ^ 19 :=
  storesInside_uintDigits_bind_iff storesInside_printString

theorem storesInside_printHex (number : Word) : StoresInside (printHex number) := by
  refine (storesInside_printString _).bind fun _ => ?_
  rw [hexDigitLoop_eq, pure_bind]
  exact storesInside_printString _

end Loader

/-! ### The six functions -/

inductive NumberPrinter
  | fmtInt
  | fmtUint
  | fmtHex
  | loaderInt
  | loaderUint
  | loaderHex

namespace NumberPrinter

/-- The function stores nothing outside its buffer when it prints `number`. -/
def KeepsInside (f : NumberPrinter) (number : Word) : Prop :=
  match f with
  | fmtInt => StoresInside (StdlibFile.printInt number)
  | fmtUint => StoresInside (StdlibFile.printUint number)
  | fmtHex => StoresInside (StdlibFile.printHex number)
  | loaderInt => StoresInside (Loader.printInt number)
  | loaderUint => StoresInside (Loader.printUint number)
  | loaderHex => StoresInside (Loader.printHex number)

/-- Unsigned, a number may have 19 digits. Signed, `fmt.c` also needs a place for
the sign, except for the least number, of which it writes one digit only. -/
def HasRoom (f : NumberPrinter) (number : Word) : Prop :=
  match f with
  | fmtInt => ¬ (-2 ^ 63 < number.toInt ∧ number.toInt ≤ -10 ^ 18)
  | fmtUint => number.toNat < 10 ^ 19
  | loaderUint => number.toNat < 10 ^ 19
  | _ => True

theorem keepsInside_iff (f : NumberPrinter) (number : Word) :
    f.KeepsInside number ↔ f.HasRoom number := by
  cases f with
  | fmtInt => exact StdlibFile.storesInside_printInt_iff number
  | fmtUint => exact StdlibFile.storesInside_printUint_iff number
  | fmtHex => exact iff_of_true (StdlibFile.storesInside_printHex number) trivial
  | loaderInt => exact iff_of_true (Loader.storesInside_printInt number) trivial
  | loaderUint => exact Loader.storesInside_printUint_iff number
  | loaderHex => exact iff_of_true (Loader.storesInside_printHex number) trivial

/-- Twenty digits and the terminator do not fit. -/
theorem keepsInside_fails :
    ¬ ∀ (f : NumberPrinter) (number : Word), f.KeepsInside number := by
  intro h
  have hlt : (10 ^ 19 : Word).toNat < 10 ^ 19 :=
    (StdlibFile.storesInside_printUint_iff _).1 (h fmtUint (10 ^ 19))
  exact absurd hlt (by decide)

end NumberPrinter

end Ciabatta
