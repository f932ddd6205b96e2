import Ciabatta.Loader.HexRoundTrip
import Ciabatta.SignedDecimal

/-!
`print_uint`, in `loader.h` and in `fmt.c`, and `read_dec` (`stack.c`). The buffer of the
printers holds nineteen digits, and `read_dec` takes any number of them: what the printers
can write, it reads.
-/

namespace Ciabatta.Loader

open ByteMemory Exec MapsGrammar

/-- `print_uint` of `loader.h` writes the digits in one call. -/
def LoaderWritesDec (number : Word) (digits : List Byte) : Prop :=
  ∀ chunks, printUint number chunks = .ok () (chunks ++ [digits])

/-- `print_uint` of `fmt.c` writes the digits and the terminator in one call. -/
def FmtWritesDec (number : Word) (digits : List Byte) : Prop :=
  ∀ s, Yields (StdlibFile.printUint number) s fun _ t => ∃ result,
    t.log = s.log ++ [.write (digits ++ [0]) result]

/-- Wherever the calls of `read_char` bring the digits, and no other digit behind them,
`read_dec` stores the number. -/
def ReadsBackDec (digits : List Byte) (number : Word) : Prop :=
  ∀ s next, Brings (pending s) (numberText digits next) s → ¬ IsDec (behind next).returned →
    ∃ fuel t, readDec fuel s = .ok (0, number) t ∧ t.buffer.lastChar = (behind next).returned

/-- The digits that stand for a number. -/
def decimalDigits (n : ℕ) : List Byte :=
  (Nat.toDigits 10 n).map byteOf

variable {number : Word} {n : ℕ} {c : Byte}

/-! ### What the printers write -/

/-- The digits and the terminator fit. -/
theorem uintDigits_of_lt {σ : Type} (h : number.toNat < 10 ^ 19) :
    (uintDigits number : EStateM Stop σ (List Byte)) =
      pure (decimalDigits number.toNat ++ [0]) := by
  rw [← length_toDigits_le_iff (by decide)] at h
  rw [uintDigits_eq, fill]
  exact if_pos (Nat.succ_le_succ h)

theorem uintDigits_of_le {σ : Type} (h : 10 ^ 19 ≤ number.toNat) :
    (uintDigits number : EStateM Stop σ (List Byte)) = throw .outOfBounds := by
  rw [← Nat.not_lt, ← length_toDigits_le_iff (by decide)] at h
  rw [uintDigits_eq, fill]
  exact if_neg fun hfits => h (Nat.le_of_succ_le_succ hfits)

theorem loaderWritesDec_of_lt (h : number.toNat < 10 ^ 19) :
    LoaderWritesDec number (decimalDigits number.toNat) := by
  intro chunks
  have hlength : (decimalDigits number.toNat).length ≤ 19 :=
    (length_toDigits_le_iff (by decide)).mpr h
  rw [printUint, uintDigits_of_lt h, pure_bind]
  exact printString_eq (zero_not_mem_digits _) (Nat.lt_of_le_of_lt hlength (by decide)) chunks

theorem fmtWritesDec_of_lt (h : number.toNat < 10 ^ 19) :
    FmtWritesDec number (decimalDigits number.toNat) := by
  intro s
  obtain ⟨status, hwrite, -⟩ :=
    StdlibFile.rtFileWrite_run (decimalDigits number.toNat ++ [0]) s
  rw [StdlibFile.printUint, uintDigits_of_lt h, pure_bind, StdlibFile.writeBuf, Yields,
    bind_of_ok hwrite]
  split_ifs
  · exact yields_pure ⟨_, rfl⟩
  · exact yields_pure ⟨_, rfl⟩

/-! ### What `read_dec` makes of the digits -/

theorem number_append_digit (digits : List Byte) {d : ℕ} (hd : d < 10) :
    Radix.dec.number (digits ++ [BitVec.ofNat 8 (d + 48)]) = 10 * Radix.dec.number digits + d := by
  have hvalue : ∀ k < 10, digitValue (BitVec.ofNat 8 (k + 48)) = k := by decide
  rw [Radix.number, List.reverse_append, List.reverse_singleton, List.singleton_append,
    List.map_cons, hvalue d hd, Nat.ofDigits_cons, Nat.add_comm]
  rfl

theorem number_decimalDigits (n : ℕ) : Radix.dec.number (decimalDigits n) = n := by
  induction n using Nat.strong_induction_on with
  | _ n ih =>
      rcases Nat.lt_or_ge n 10 with hless | hmore
      · rw [decimalDigits, toDigits_of_lt hless]
        exact (number_append_digit [] hless).trans (zero_add n)
      · have hdiv := ih (n / 10) (Nat.div_lt_self (by omega) (by decide))
        rw [decimalDigits] at hdiv
        rw [decimalDigits, toDigits_of_le hmore, number_append_digit _ (Nat.mod_lt n (by decide)),
          hdiv, Nat.div_add_mod]

theorem isDec_of_mem_decimalDigits (hc : c ∈ decimalDigits n) : IsDec c.toInt := by
  have hdigit : ∀ d : Byte, byteOf '0' ≤ d ∧ d ≤ byteOf '9' → IsDec d.toInt := by decide
  exact hdigit c ((decimalDigits_toDigits n).isDigit c hc)

theorem readsBackDec_decimalDigits (h : number.toNat < 10 ^ 19) :
    ReadsBackDec (decimalDigits number.toNat) number := by
  intro s next hbrings hnext
  have hdigits : ∀ c ∈ decimalDigits number.toNat, Radix.dec.IsDigit c.toInt :=
    fun c hc => isDec_of_mem_decimalDigits hc
  have hlength : (decimalDigits number.toNat).length < 2 ^ 31 :=
    Nat.lt_of_le_of_lt ((length_toDigits_le_iff (by decide)).mpr h) (by decide)
  have hsmall : ∀ c : Byte, IsDec c.toInt → ¬ IsCapital c := by decide
  have hvalue : ((decimalDigits number.toNat).map BitVec.toInt).foldl Radix.dec.step 0 =
      BitVec.ofNat 64 (Radix.dec.number (decimalDigits number.toNat)) := by
    rw [Radix.foldl_step_eq_iff hdigits, Radix.dvd_capitals_iff hdigits]
    intro c hc
    exact hsmall c (hdigits c (List.mem_reverse.mp (List.mem_of_mem_take hc)))
  obtain ⟨fuel, t, hread, hchar, -⟩ :=
    (scans_iff_foldl .dec hbrings (agreesInside_refl _) hdigits hnext).mpr
      ⟨hlength, roomFor_of_brings hbrings, hvalue⟩
  have hnotNil : decimalDigits number.toNat ≠ [] := (decimalDigits_toDigits number.toNat).ne_nil
  rw [if_neg hnotNil, number_decimalDigits, BitVec.ofNat_toNat, BitVec.setWidth_eq] at hread
  exact ⟨fuel, t, hread, hchar⟩

/-! ### The round trip -/

/-- Both printers write the same digits of a number and `read_dec` makes the number of them
again, up to nineteen digits; beyond them no digits are written. -/
theorem decRoundTrip_iff (number : Word) :
    (∃ digits, LoaderWritesDec number digits ∧ FmtWritesDec number digits ∧
      ReadsBackDec digits number) ↔ number.toNat < 10 ^ 19 := by
  constructor
  · rintro ⟨digits, hwrites, -, -⟩
    by_contra hge
    have hrun := hwrites []
    rw [printUint, uintDigits_of_le (Nat.le_of_not_lt hge)] at hrun
    cases hrun
  · intro h
    exact ⟨_, loaderWritesDec_of_lt h, fmtWritesDec_of_lt h, readsBackDec_decimalDigits h⟩

end Ciabatta.Loader
