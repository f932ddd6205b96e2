import Ciabatta.Loader.Chunking
import Ciabatta.Loader.HexRoundTrip
import Ciabatta.StdlibFile.PrintfOutput

/-!
`printf` of `loader.h` on messages that `printf` of `fmt.c` could be given as well. It
knows no size prefix and takes 64 bits for each number, but it puts no NUL behind them:
of the directives that both have, it prints what they stand for.
-/

namespace Ciabatta.Loader.Printf

open ByteMemory Exec StdlibFile

/-- The directives that the loader prints as what they stand for: those without a size
prefix whose number is the same in 32 and in 64 bits, strings that an `int` counts, and
characters. -/
def Printed : Directive → Prop
  | .int .plain .d w => w.toInt = (w.setWidth 32).toInt
  | .int .plain _ w => w.toNat < 2 ^ 32
  | .int _ _ _ => False
  | .p _ => False
  | .s str => str.bytes.length < 2 ^ 31
  | .c _ => True

variable {directive : Directive} {parts : List (Literal × Directive)} {last : Literal}
  {args : List Arg} {number : Word} {text text' rest : List Byte} {s t u : List (List Byte)}

/-- The output grows by `text`. -/
def Prints (text : List Byte) (s t : List (List Byte)) : Prop :=
  t.flatten = s.flatten ++ text

theorem Prints.trans (h : Prints text s t) (h' : Prints text' t u) :
    Prints (text ++ text') s u := by
  rw [Prints, h', h, List.append_assoc]

theorem prints_append (text : List Byte) (s : List (List Byte)) : Prints text s (s ++ [text]) := by
  simp [Prints]

/-! ### Arguments -/

theorem yields_printText (hnul : 0 ∉ text) (hlength : text.length < 2 ^ 31) :
    Yields (printString (text ++ [0])) s fun _ t => Prints text s t :=
  ⟨(), _, printString_eq hnul hlength s, prints_append text s⟩

theorem yields_printDigits (hnul : 0 ∉ text) (hlength : text.length ≤ 19) :
    Yields (fill text [0] >>= printString) s fun _ t => Prints text s t := by
  have hfits : text.length + [(0 : Byte)].length ≤ digitBufSize := Nat.succ_le_succ hlength
  rw [fill, if_pos hfits, pure_bind]
  exact yields_printText hnul (by omega)

theorem yields_printInt (number : Word) :
    Yields (printInt number) s fun _ t => Prints (intText number) s t := by
  have hdigits (s : List (List Byte)) : Yields (fill (magnitudeText number) [0] >>= printString) s
      fun _ t => Prints (magnitudeText number) s t :=
    yields_printDigits (zero_not_mem_magnitudeText number) (length_magnitudeText_le number)
  rw [printInt, intDigits_magnitude, intText]
  split_ifs
  · have hsign : Yields (printChar (byteOf '-')) s fun _ t => Prints [byteOf '-'] s t :=
      ⟨(), _, rfl, prints_append _ s⟩
    exact hsign.bind fun _ t ht => (hdigits t).mono fun _ u hu => ht.trans hu
  · rw [pure_bind]
    exact hdigits s

theorem yields_printUint (h : number.toNat < 10 ^ 19) :
    Yields (printUint number) s fun _ t => Prints (decimal number.toNat) s t := by
  rw [printUint, uintDigits_eq]
  exact yields_printDigits (zero_not_mem_digits _) ((length_toDigits_le_iff (by decide)).mpr h)

theorem hexadecimal_eq (number : Word) :
    hexadecimal number.toNat = [byteOf '0', byteOf 'x'] ++ hexadecimalDigits number := by
  have hdigit : ∀ k < 16, byteOf (Nat.digitChar k) = hexDigits.getD k 0 := by decide
  rw [hexadecimal, hexadecimalDigits, List.cons_append, List.singleton_append]
  congr 2
  refine List.map_congr_left fun i hi => ?_
  have hshift : 60 - 4 * i = 4 * (15 - i) := by
    have hlt := List.mem_range.mp hi
    omega
  rw [hdigit _ (Nat.mod_lt _ (by decide)), hshift, toNat_nibble]

theorem yields_printHex (number : Word) :
    Yields (printHex number) s fun _ t => Prints (hexadecimal number.toNat) s t := by
  have hprefix : Yields (printString [byteOf '0', byteOf 'x', 0]) s
      fun _ t => Prints [byteOf '0', byteOf 'x'] s t :=
    @yields_printText [byteOf '0', byteOf 'x'] s (by decide) (by decide)
  rw [hexadecimal_eq, printHex, hexDigitLoop_eq]
  refine hprefix.bind fun _ t ht => ?_
  rw [pure_bind]
  refine (yields_printText (zero_not_mem_hexadecimalDigits number) ?_).mono
    fun _ u hu => ht.trans hu
  rw [length_hexadecimalDigits]
  decide

theorem intText_eq (hmin : number ≠ BitVec.intMin 64) :
    intText number = signedDecimal number.toInt := by
  rw [intText, signedDecimal, magnitudeText, if_neg hmin]
  rfl

theorem output_of_yields {call : PrintM Unit} (h : Yields call [] fun _ t => Prints text [] t) :
    output call = ⟨text, none⟩ := by
  obtain ⟨_, t, hrun, ht⟩ := h
  rw [output, hrun]
  exact congrArg (Output.mk · none) ht

theorem andThen_of_yields {call : PrintM Unit} (h : Yields call [] fun _ t => Prints text [] t)
    (o : Output) : (output call).andThen o = o.behind text := by
  rw [output_of_yields h, Output.andThen_of_returns]

/-- A directive is carried out. -/
theorem prescribed_directive (h : Printed directive) (rest : List Byte) (args : List Arg) :
    prescribed (byteOf '%' :: directive.letter :: rest) (directive.arg :: args) =
      (prescribed rest args).behind directive.formatted := by
  cases directive with
  | int size letter w =>
      cases size with
      | i32 => exact h.elim
      | i64 => exact h.elim
      | plain =>
          cases letter with
          | d =>
              have hint : w.toInt = (w.setWidth 32).toInt := h
              have hmin : w ≠ BitVec.intMin 64 := by
                rintro rfl
                exact absurd hint (by decide)
              have htext : Directive.formatted (.int .plain .d w) = intText w := by
                rw [intText_eq hmin, hint]
                rfl
              rw [htext]
              exact andThen_of_yields (yields_printInt w) _
          | u =>
              have hlt : w.toNat < 2 ^ 32 := h
              have htext : Directive.formatted (.int .plain .u w) = decimal w.toNat := by
                change decimal (w.setWidth 32).toNat = _
                rw [BitVec.toNat_setWidth, Nat.mod_eq_of_lt hlt]
              rw [htext]
              exact andThen_of_yields (yields_printUint (by omega)) _
          | x =>
              have hlt : w.toNat < 2 ^ 32 := h
              have htext : Directive.formatted (.int .plain .x w) = hexadecimal w.toNat := by
                change hexadecimal (w.setWidth 32).toNat = _
                rw [BitVec.toNat_setWidth, Nat.mod_eq_of_lt hlt]
              rw [htext]
              exact andThen_of_yields (yields_printHex w) _
  | p w => exact h.elim
  | s str => exact andThen_of_yields (yields_printText str.noNul h) _
  | c w =>
      have hchar : Yields (printChar (w.setWidth 8)) [] fun _ t => Prints [w.setWidth 8] [] t :=
        ⟨(), _, rfl, prints_append _ []⟩
      exact andThen_of_yields hchar _

/-! ### Messages -/

/-- A directive without a size prefix is its `%` and its letter. -/
theorem text_of_printed (h : Printed directive) :
    directive.text = [byteOf '%', directive.letter] := by
  cases directive with
  | int size letter w =>
      cases size with
      | i32 => exact h.elim
      | i64 => exact h.elim
      | plain => rfl
  | p w => exact h.elim
  | s str => rfl
  | c w => rfl

theorem percent_notMem (literal : Literal) : byteOf '%' ∉ literal.bytes :=
  fun h => (literal.plain _ h).1 rfl

/-- The text of a message is what its format prescribes. -/
theorem prescribed_parts (h : ∀ part ∈ parts, Printed part.2) :
    prescribed (partsText parts last) (parts.map fun part => part.2.arg) =
      ⟨partsFormatted parts last, none⟩ := by
  induction parts with
  | nil =>
      have hlast : prescribed (last.bytes ++ []) [] = (prescribed [] []).behind last.bytes :=
        prescribed_append [] (percent_notMem last)
      rw [List.append_nil] at hlast
      rw [partsText, List.map_nil, hlast, prescribed, Output.behind, List.append_nil]
      rfl
  | cons part parts ih =>
      obtain ⟨literal, directive⟩ := part
      have hprinted : Printed directive := h (literal, directive) List.mem_cons_self
      have hparts := ih fun part hpart => h part (List.mem_cons_of_mem _ hpart)
      rw [partsText, text_of_printed hprinted, List.map_cons, partsFormatted,
        prescribed_append _ (percent_notMem literal), List.cons_append, List.singleton_append,
        prescribed_directive hprinted, hparts, Output.behind, Output.behind]

theorem letter_ne_percent (directive : Directive) : directive.letter ≠ byteOf '%' := by
  cases directive with
  | int size letter w =>
      have hletter : ∀ letter : IntLetter, letter.byte ≠ byteOf '%' := by
        intro letter
        cases letter <;> decide
      exact hletter letter
  | p w => exact (by decide : byteOf 'p' ≠ byteOf '%')
  | s str => exact (by decide : byteOf 's' ≠ byteOf '%')
  | c w => exact (by decide : byteOf 'c' ≠ byteOf '%')

theorem getLast?_partsText (parts : List (Literal × Directive)) (last : Literal) :
    (partsText parts last).getLast? ≠ some (byteOf '%') := by
  induction parts with
  | nil => exact fun h => percent_notMem last (List.mem_of_getLast? h)
  | cons part parts ih =>
      obtain ⟨literal, directive⟩ := part
      rw [partsText, ← List.append_assoc]
      by_cases hnil : partsText parts last = []
      · rw [hnil, List.append_nil, Directive.text, ← List.cons_append, ← List.append_assoc,
          List.getLast?_concat]
        exact fun h => letter_ne_percent directive (Option.some.inj h)
      · rw [List.getLast?_append_of_ne_nil _ hnil]
        exact ih

theorem percentsFollowed (message : Message) : PercentsFollowed message.fmt := by
  rintro pre post hbytes rfl
  apply getLast?_partsText message.parts message.last
  change message.fmt.bytes.getLast? = _
  rw [hbytes, List.getLast?_concat]

/-- `printf` prints what the message says, without a byte more. -/
theorem loader_prints (message : Message) (h : ∀ part ∈ message.parts, Printed part.2) :
    Yields (printf message.fmt message.args) [] fun _ t => t.flatten = message.formatted := by
  have hprinted : outputOf (printf message.fmt message.args []) = ⟨message.formatted, none⟩ := by
    have hparts : prescribed message.fmt.bytes message.args = ⟨message.formatted, none⟩ :=
      prescribed_parts h
    rw [outputOf_printf (percentsFollowed message), hparts]
    rfl
  cases hprintf : printf message.fmt message.args [] with
  | ok r t =>
      rw [hprintf] at hprinted
      exact ⟨r, t, hprintf, congrArg Output.text hprinted⟩
  | error e t =>
      rw [hprintf] at hprinted
      cases congrArg Output.stop hprinted

/-- The message of `hello.c`, behind the number of which `printf` of `fmt.c` puts a NUL. -/
theorem loader_prints_helloMessage :
    Yields (printf helloMessage.fmt helloMessage.args) [] fun _ t =>
      t.flatten = "Hello, world! 4\n".toList.map byteOf := by
  refine loader_prints helloMessage fun part hpart => ?_
  obtain rfl := List.mem_singleton.mp hpart
  exact (by decide : (4 : Word).toInt = ((4 : Word).setWidth 32).toInt)

end Ciabatta.Loader.Printf
