import Ciabatta.StdlibFile.Format

/-!
Messages: formats of literal bytes and directives, each directive with the
argument that matches it. The scanner of `printf` takes the format of a message
apart again, so that `printf` runs through the parts of the message.
-/

namespace Ciabatta.StdlibFile

open ByteMemory Exec

inductive IntLetter
  | d
  | u
  | x
  deriving DecidableEq

/-- A directive with its argument. -/
inductive Directive
  | int (size : IntSize) (letter : IntLetter) (arg : Word)
  | p (arg : Word)
  | s (arg : CString)
  | c (arg : Word)

/-- A run of bytes that a format can have between two directives. -/
structure Literal where
  bytes : List Byte
  plain : ∀ b ∈ bytes, b ≠ byteOf '%' ∧ b ≠ 0

structure Message where
  parts : List (Literal × Directive)
  last : Literal

/-! ### The format -/

def IntLetter.byte : IntLetter → Byte
  | .d => byteOf 'd'
  | .u => byteOf 'u'
  | .x => byteOf 'x'

def Directive.size : Directive → IntSize
  | .int size _ _ => size
  | _ => .plain

def Directive.letter : Directive → Byte
  | .int _ letter _ => letter.byte
  | .p _ => byteOf 'p'
  | .s _ => byteOf 's'
  | .c _ => byteOf 'c'

def Directive.arg : Directive → Arg
  | .int _ _ w => .word w
  | .p w => .word w
  | .s str => .string str
  | .c w => .word w

def Directive.text (directive : Directive) : List Byte :=
  byteOf '%' :: (directive.size.bytes ++ [directive.letter])

def partsText (parts : List (Literal × Directive)) (last : Literal) : List Byte :=
  match parts with
  | [] => last.bytes
  | (literal, directive) :: parts =>
      literal.bytes ++ (directive.text ++ partsText parts last)

theorem Directive.letter_ne (directive : Directive) :
    directive.letter ≠ 0 ∧ directive.letter ≠ byteOf 'I' := by
  cases directive with
  | int size letter arg =>
      have hletter : ∀ letter : IntLetter, letter.byte ≠ 0 ∧ letter.byte ≠ byteOf 'I' := by
        intro letter
        cases letter <;> decide
      exact hletter letter
  | p arg => exact (by decide : byteOf 'p' ≠ 0 ∧ byteOf 'p' ≠ byteOf 'I')
  | s arg => exact (by decide : byteOf 's' ≠ 0 ∧ byteOf 's' ≠ byteOf 'I')
  | c arg => exact (by decide : byteOf 'c' ≠ 0 ∧ byteOf 'c' ≠ byteOf 'I')

theorem Directive.zero_not_mem_text (directive : Directive) : 0 ∉ directive.text := by
  have hsize : ∀ size : IntSize, 0 ∉ byteOf '%' :: size.bytes := by
    intro size
    cases size <;> decide
  rw [Directive.text, ← List.cons_append, List.mem_append, List.mem_singleton, not_or]
  exact ⟨hsize directive.size, directive.letter_ne.1.symm⟩

theorem Literal.zero_not_mem (literal : Literal) : 0 ∉ literal.bytes := fun h =>
  (literal.plain 0 h).2 rfl

theorem zero_not_mem_partsText (parts : List (Literal × Directive)) (last : Literal) :
    0 ∉ partsText parts last := by
  induction parts with
  | nil => exact last.zero_not_mem
  | cons part parts ih =>
      obtain ⟨literal, directive⟩ := part
      rw [partsText, List.mem_append, List.mem_append, not_or, not_or]
      exact ⟨literal.zero_not_mem, directive.zero_not_mem_text, ih⟩

def Message.fmt (message : Message) : CString :=
  ⟨partsText message.parts message.last, zero_not_mem_partsText _ _⟩

def Message.args (message : Message) : List Arg := message.parts.map fun part => part.2.arg

/-! ### What a message says -/

def decimal (n : ℕ) : List Byte := (Nat.toDigits 10 n).map byteOf

def signedDecimal (n : ℤ) : List Byte :=
  if n < 0 then byteOf '-' :: decimal n.natAbs else decimal n.natAbs

/-- `0x` and sixteen digits. -/
def hexadecimal (n : ℕ) : List Byte :=
  byteOf '0' :: byteOf 'x' :: (List.range 16).map fun i => byteOf (n / 16 ^ (15 - i) % 16).digitChar

/-- The number that an integer directive takes from its argument. -/
def IntSize.signed (size : IntSize) (w : Word) : ℤ :=
  if size = .i64 then w.toInt else (w.setWidth 32).toInt

def IntSize.unsigned (size : IntSize) (w : Word) : ℕ :=
  if size = .i64 then w.toNat else (w.setWidth 32).toNat

def Directive.formatted : Directive → List Byte
  | .int size .d w => signedDecimal (size.signed w)
  | .int size .u w => decimal (size.unsigned w)
  | .int size .x w => hexadecimal (size.unsigned w)
  | .p w => hexadecimal w.toNat
  | .s str => str.bytes
  | .c w => [w.setWidth 8]

def partsFormatted (parts : List (Literal × Directive)) (last : Literal) : List Byte :=
  match parts with
  | [] => last.bytes
  | (literal, directive) :: parts =>
      literal.bytes ++ (directive.formatted ++ partsFormatted parts last)

/-- The literal runs and the renderings of the arguments, in order. -/
def Message.formatted (message : Message) : List Byte :=
  partsFormatted message.parts message.last

/-! ### `printf` on a message -/

def putLiteral (literal : Literal) (retPrinted : ℤ) : StdioM (Option ℤ) :=
  if literal.bytes.length ≠ 0 then do
    let status ← rtFileWrite literal.bytes
    if status ≠ rtStatusOk then
      return none
    else
      return some (retPrinted + literal.bytes.length)
  else
    return some retPrinted

def putDirective (directive : Directive) (retPrinted : ℤ) : StdioM (Option ℤ) := do
  match ← convert directive.letter directive.size.bits with
  | none => return none
  | some argChars => do
      let argChars ← readArgChars argChars
      if argChars < 0 then
        return none
      else
        return some (retPrinted + argChars)

/-- The loop of `printf` as it goes through the parts of a message. -/
def putParts (parts : List (Literal × Directive)) (last : Literal) (retPrinted : ℤ) :
    StdioM (Option ℤ) :=
  match parts with
  | [] => putLiteral last retPrinted
  | (literal, directive) :: parts => do
      match ← putLiteral literal retPrinted with
      | none => return none
      | some retPrinted => do
          match ← putDirective directive retPrinted with
          | none => return none
          | some retPrinted => putParts parts last retPrinted

/-! ### The tokens of a message -/

def partsTokens (parts : List (Literal × Directive)) (last : Literal) : List Token :=
  match parts with
  | [] => [.literal last.bytes]
  | (literal, directive) :: parts =>
      .literal literal.bytes :: .directive directive.size directive.letter :: partsTokens parts last

theorem Literal.takeWhile_append (literal : Literal) (rest : List Byte) :
    (literal.bytes ++ rest).takeWhile (· ≠ byteOf '%') =
      literal.bytes ++ rest.takeWhile (· ≠ byteOf '%') :=
  List.takeWhile_append_of_pos fun b hb => decide_eq_true (literal.plain b hb).1

theorem Literal.dropWhile_append (literal : Literal) (rest : List Byte) :
    (literal.bytes ++ rest).dropWhile (· ≠ byteOf '%') = rest.dropWhile (· ≠ byteOf '%') :=
  List.dropWhile_append_of_pos fun b hb => decide_eq_true (literal.plain b hb).1

theorem scanSize_append (size : IntSize) {letter : Byte} (hletter : letter ≠ byteOf 'I')
    (rest : List Byte) :
    scanSize (size.bytes ++ letter :: rest) = some (size, letter :: rest) := by
  cases size with
  | plain => exact if_neg hletter
  | i32 => rfl
  | i64 => rfl

theorem scan_partsText {parts : List (Literal × Directive)} {last : Literal} {fuel : ℕ}
    (hfuel : (partsText parts last).length < fuel) :
    scan fuel (partsText parts last) = partsTokens parts last := by
  induction parts generalizing fuel with
  | nil =>
      obtain ⟨fuel, rfl⟩ := Nat.exists_eq_succ_of_ne_zero (Nat.ne_of_gt (by omega : 0 < fuel))
      have htake := last.takeWhile_append []
      have hdrop := last.dropWhile_append []
      rw [List.append_nil] at htake hdrop
      rw [partsText, scan, hdrop, htake, List.takeWhile_nil, List.append_nil]
      rfl
  | cons part parts ih =>
      obtain ⟨literal, directive⟩ := part
      rw [partsText, List.length_append, List.length_append] at hfuel
      have htext : 0 < directive.text.length := Nat.succ_pos _
      obtain ⟨fuel, rfl⟩ := Nat.exists_eq_succ_of_ne_zero (Nat.ne_of_gt (by omega : 0 < fuel))
      have hdirective : directive.text ++ partsText parts last =
          byteOf '%' :: (directive.size.bytes ++ directive.letter :: partsText parts last) := by
        rw [Directive.text, List.cons_append, List.append_assoc]
        rfl
      rw [partsText, scan, literal.takeWhile_append, literal.dropWhile_append, hdirective,
        List.takeWhile_cons_of_neg (by simp), List.dropWhile_cons_of_neg (by simp),
        List.append_nil]
      dsimp only
      rw [scanSize_append _ directive.letter_ne.2]
      exact congrArg (_ :: _ :: ·) (ih (by omega))

theorem putTokens_partsTokens (parts : List (Literal × Directive)) (last : Literal)
    (retPrinted : ℤ) :
    putTokens (partsTokens parts last) retPrinted = putParts parts last retPrinted := by
  induction parts generalizing retPrinted with
  | nil =>
      refine Eq.trans ?_ (bind_pure (putLiteral last retPrinted))
      rw [partsTokens, putTokens]
      congr 1
      funext r
      cases r <;> rfl
  | cons part parts ih =>
      rw [partsTokens, putTokens, putParts]
      refine bind_option_congr rfl fun retPrinted => ?_
      dsimp only
      rw [putTokens]
      exact bind_option_congr rfl fun retPrinted => ih retPrinted

/-- `printf` on a message. -/
theorem printf_eq (message : Message) : printf message.fmt message.args = (do
    vaStart message.args
    lock
    let result ← putParts message.parts message.last 0
    finish result) := by
  have htokens : message.fmt.tokens = partsTokens message.parts message.last :=
    scan_partsText (Nat.lt_succ_self _)
  rw [printf_eq_putTokens, htokens, putTokens_partsTokens]

end Ciabatta.StdlibFile
