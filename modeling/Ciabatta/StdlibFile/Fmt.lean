import Ciabatta.Digits

/-!
`fmt.c`: `printf` on `stdout`. The results of the write calls are a parameter of
the state, and so is what an `int` holds that was never assigned. A `goto _error`
is the result `none`.
-/

namespace Ciabatta.StdlibFile

open ByteMemory Exec

/-- A NUL-terminated string. -/
structure CString where
  /-- The bytes before the NUL. -/
  bytes : List Byte
  noNul : 0 ∉ bytes

/-- An element of a `va_list`: a register or stack slot, or the string that a
pointer points to. -/
inductive Arg
  | word (w : Word)
  | string (str : CString)

inductive StdioEvent
  | lock
  | unlock
  /-- The bytes passed to a write call on `stdout`, and what the call returned. -/
  | write (data : List Byte) (result : ℤ)
  /-- A variable was read that had not been assigned. -/
  | unassigned
  deriving DecidableEq

structure Stdio where
  /-- What a write call returns, by what has happened before. -/
  kernel : List StdioEvent → List Byte → ℤ
  /-- What an unassigned `int` holds. -/
  garbage : List StdioEvent → BitVec 32
  args : List Arg
  /-- Oldest event first. -/
  log : List StdioEvent

abbrev StdioM := EStateM Stop Stdio

def Stdio.record (s : Stdio) (e : StdioEvent) : Stdio :=
  { s with log := s.log ++ [e] }

/-- `str[i]`. What stands behind the NUL is not part of the string. -/
def CString.get (str : CString) (i : ℕ) : StdioM Byte :=
  if i ≤ str.bytes.length then pure (str.bytes.getD i 0) else throw .overread

/-! ### Writing -/

def eio : ℤ := 5
def ebadf : ℤ := 9

def rtStatusOk : ℤ := 0
def rtErrorBadParam : ℤ := -2
def rtStatusFileIoError : ℤ := 12

/-- `sys_write` returns an `i32`. -/
def sysWrite (data : List Byte) : StdioM ℤ := fun s =>
  let result := s.kernel s.log data
  .ok (BitVec.ofInt 32 result).toInt (s.record (.write data result))

def rtFileWrite (data : List Byte) : StdioM ℤ := do
  let status ← sysWrite data
  if -status = ebadf then
    return rtErrorBadParam
  else if -status = eio then
    return rtStatusFileIoError
  else if -status > 0 then
    return rtStatusFileIoError
  else
    return rtStatusOk

def lock : StdioM Unit := fun s => .ok () (s.record .lock)

def unlock : StdioM Unit := fun s => .ok () (s.record .unlock)

/-! ### The arguments -/

def vaStart (args : List Arg) : StdioM Unit := fun s =>
  .ok () { s with args := args }

def vaWord : StdioM Word := fun s =>
  match s.args with
  | .word w :: args => .ok w { s with args := args }
  | _ => .error .badArgument s

def vaString : StdioM CString := fun s =>
  match s.args with
  | .string str :: args => .ok str { s with args := args }
  | _ => .error .badArgument s

/-- `va_arg(args, i32)`, extended to an `i64`. -/
def vaInt32 : StdioM Word := do
  let w ← vaWord
  return (w.setWidth 32).signExtend 64

/-- `va_arg(args, u32)`, extended to a `u64`. -/
def vaUint32 : StdioM Word := do
  let w ← vaWord
  return (w.setWidth 32).setWidth 64

/-! ### The conversions -/

def printStringRound (str : CString) (strLen : ℕ) : StdioM (ℕ ⊕ ℕ) := do
  let c ← str.get strLen
  if c ≠ 0 then do
    let strLen ← incrementInt strLen
    return .inl strLen
  else
    return .inr strLen

def printString (str : CString) : StdioM ℤ := do
  let strLen ← loop (printStringRound str) (str.bytes.length + 1) 0
  let status ← rtFileWrite (str.bytes.take strLen)
  if status ≠ rtStatusOk then
    return -1
  else
    return strLen

/-- The end of `print_int`, `print_uint` and `print_hex`: what is written reaches
up to the end of `buf`. -/
def writeBuf (p : List Byte) : StdioM ℤ := do
  let status ← rtFileWrite p
  if status ≠ rtStatusOk then
    return -1
  else
    return p.length

/-- The negation is modulo `2 ^ 64`. -/
def printInt (number : Word) : StdioM ℤ := do
  let p ← intDigits (if number.toInt < 0 then -number else number)
  let p ← (if number.toInt < 0 then pushChar (byteOf '-') p else pure p)
  writeBuf p

def printUint (number : Word) : StdioM ℤ := do
  let p ← uintDigits number
  writeBuf p

def printHex (number : Word) : StdioM ℤ := do
  let p ← hexDigitLoop number
  let p ← pushChar (byteOf 'x') p
  let p ← pushChar (byteOf '0') p
  writeBuf p

/-! ### `printf` -/

/-- A round of the loop over the literal bytes. -/
def literalRound (fmt : CString) (i : ℕ) : StdioM (ℕ ⊕ ℕ) := do
  let c ← fmt.get i
  if c ≠ byteOf '%' ∧ c ≠ 0 then
    return .inl (i + 1)
  else
    return .inr i

/-- The literal bytes from `i` on: where they end, and the new `ret_printed`. -/
def printLiteral (fmt : CString) (i : ℕ) (retPrinted : ℤ) : StdioM (Option (ℕ × ℤ)) := do
  let bufEndIdx ← loop (literalRound fmt) (fmt.bytes.length + 1) i
  let bufSize := bufEndIdx - i
  if bufSize ≠ 0 then do
    let status ← rtFileWrite ((fmt.bytes.drop i).take bufSize)
    if status ≠ rtStatusOk then
      return none
    else
      return some (bufEndIdx, retPrinted + bufSize)
  else
    return some (bufEndIdx, retPrinted)

/-- `fmt[i] == a && fmt[i+1] == b` -/
def CString.holds (fmt : CString) (i : ℕ) (a b : Char) : StdioM Bool := do
  let c ← fmt.get i
  if c = byteOf a then do
    let c ← fmt.get (i + 1)
    return c = byteOf b
  else
    return false

/-- The index behind the size prefix at `i`, and `int_arg_size`. -/
def readIntArgSize (fmt : CString) (i : ℕ) : StdioM (Option (ℕ × ℕ)) := do
  let c ← fmt.get i
  if c = byteOf 'I' then do
    if ← fmt.holds (i + 1) '3' '2' then
      return some (i + 3, 32)
    else do
      if ← fmt.holds (i + 1) '6' '4' then
        return some (i + 3, 64)
      else
        return none
  else
    return some (i, 32)

/-- The conversion for the letter `c`. The result is `arg_chars`, which not every
branch assigns. -/
def convert (c : Byte) (intArgSize : ℕ) : StdioM (Option (Option ℤ)) := do
  if c = byteOf 'd' then do
    let arg ← (if intArgSize = 32 then vaInt32 else vaWord)
    let argChars ← printInt arg
    return some (some argChars)
  else if c = byteOf 'u' then do
    let arg ← (if intArgSize = 32 then vaUint32 else vaWord)
    let argChars ← printUint arg
    return some (some argChars)
  else if c = byteOf 'x' then do
    let arg ← (if intArgSize = 32 then vaUint32 else vaWord)
    let _ ← printHex arg
    return some none
  else if c = byteOf 'p' then do
    let arg ← vaWord
    let argChars ← printHex arg
    return some (some argChars)
  else if c = byteOf 's' then do
    let str ← vaString
    let argChars ← printString str
    return some (some argChars)
  else if c = byteOf 'c' then do
    let ch ← vaWord
    let status ← rtFileWrite [ch.setWidth 8]
    if status ≠ rtStatusOk then
      return none
    else
      return some (some 1)
  else
    return some none

/-- Reading `arg_chars`. -/
def readArgChars : Option ℤ → StdioM ℤ
  | some argChars => pure argChars
  | none => fun s => .ok (s.garbage s.log).toInt (s.record .unassigned)

/-- The directive whose `%` is at `i`: where it ends, and the new `ret_printed`. -/
def printDirective (fmt : CString) (i : ℕ) (retPrinted : ℤ) : StdioM (Option (ℕ × ℤ)) := do
  match ← readIntArgSize fmt (i + 1) with
  | none => return none
  | some (i, intArgSize) => do
      let c ← fmt.get i
      match ← convert c intArgSize with
      | none => return none
      | some argChars => do
          let argChars ← readArgChars argChars
          if argChars < 0 then
            return none
          else
            return some (i + 1, retPrinted + argChars)

/-- A round of the loop over the format, on `i` and `ret_printed`. -/
def printfRound (fmt : CString) : ℕ × ℤ → StdioM ((ℕ × ℤ) ⊕ Option ℤ)
  | (i, retPrinted) => do
      let c ← fmt.get i
      if c = 0 then
        return .inr (some retPrinted)
      else do
        match ← printLiteral fmt i retPrinted with
        | none => return .inr none
        | some (i, retPrinted) => do
            let c ← fmt.get i
            if c = 0 then
              return .inr (some retPrinted)
            else do
              match ← printDirective fmt i retPrinted with
              | none => return .inr none
              | some (i, retPrinted) => return .inl (i, retPrinted)

/-- The end of `printf`, or the code at `_error`. -/
def finish : Option ℤ → StdioM ℤ
  | some retPrinted => do
      unlock
      return (BitVec.ofInt 32 retPrinted).toInt
  | none => do
      unlock
      return -1

/-- Every round moves on in the format, which bounds their number. -/
def printf (fmt : CString) (args : List Arg) : StdioM ℤ := do
  vaStart args
  lock
  let result ← loop (printfRound fmt) (fmt.bytes.length + 1) (0, 0)
  finish result

end Ciabatta.StdlibFile
