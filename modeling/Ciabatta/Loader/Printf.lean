import Ciabatta.Loader.Print
import Ciabatta.StdlibFile.Fmt

/-!
`printf` of `loader.h`, which collects the literal bytes of its format in a buffer and
prints the buffer before each directive, at the end, and whenever it is full. The calls
for the directives are a parameter of the loops.
-/

namespace Ciabatta.Loader.Printf

open ByteMemory Exec StdlibFile

/-- `sizeof str_buf` -/
def strBufSize : ℕ := 256

/-- `*fmt`, for a pointer `i` bytes into the format. What stands behind the NUL is not part
of the string. -/
def fmtChar (fmt : CString) (i : ℕ) : PrintM Byte :=
  if i ≤ fmt.bytes.length then pure (fmt.bytes.getD i 0) else throw .overread

/-- `str_buf[buf_i] = c`, where `buf_i` bytes have been stored. -/
def storeChar (c : Byte) (strBuf : List Byte) : PrintM (List Byte) :=
  if strBuf.length < strBufSize then pure (strBuf ++ [c]) else throw .outOfBounds

/-- A round of the loop over the literal bytes, on `fmt` and the filled part of
`str_buf`. -/
def literalRound (fmt : CString) :
    ℕ × List Byte → PrintM ((ℕ × List Byte) ⊕ (ℕ × List Byte))
  | (i, strBuf) => do
      let c ← fmtChar fmt i
      if c ≠ byteOf '%' ∧ c ≠ 0 ∧ strBuf.length ≠ strBufSize - 1 then do
        let strBuf ← storeChar c strBuf
        return .inl (i + 1, strBuf)
      else
        return .inr (i, strBuf)

def vaWord : List Arg → PrintM (Word × List Arg)
  | .word w :: args => pure (w, args)
  | _ => throw .badArgument

def vaString : List Arg → PrintM (CString × List Arg)
  | .string str :: args => pure (str, args)
  | _ => throw .badArgument

/-- The call for the letter of a directive. -/
def printArg (letter : Byte) (args : List Arg) : PrintM (List Arg) := do
  if letter = byteOf 'd' then do
    let (number, args) ← vaWord args
    printInt number
    return args
  else if letter = byteOf 'u' then do
    let (number, args) ← vaWord args
    printUint number
    return args
  else if letter = byteOf 'x' then do
    let (number, args) ← vaWord args
    printHex number
    return args
  else if letter = byteOf 's' then do
    let (str, args) ← vaString args
    printString (str.bytes ++ [0])
    return args
  else if letter = byteOf 'c' then do
    let (c, args) ← vaWord args
    printChar (c.setWidth 8)
    return args
  else
    return args

/-- A round of the loop over the format, on `fmt` and the arguments that are left. -/
def printfRound (call : Byte → List Arg → PrintM (List Arg)) (fmt : CString) :
    ℕ × List Arg → PrintM ((ℕ × List Arg) ⊕ Unit)
  | (i, args) => do
      let c ← fmtChar fmt i
      if c ≠ 0 then do
        let (i, strBuf) ← loop (literalRound fmt) strBufSize (i, [])
        let _ ← storeChar 0 strBuf
        printStringN strBuf strBuf.length
        let c ← fmtChar fmt i
        if c = byteOf '%' then do
          let letter ← fmtChar fmt (i + 1)
          let args ← call letter args
          return .inl (i + 2, args)
        else
          return .inl (i, args)
      else
        return .inr ()

/-- Every round moves on in the format, which bounds their number. -/
def printfWith (call : Byte → List Arg → PrintM (List Arg)) (fmt : CString) (args : List Arg) :
    PrintM Unit :=
  loop (printfRound call fmt) (fmt.bytes.length + 1) (0, args)

def printf (fmt : CString) (args : List Arg) : PrintM Unit :=
  printfWith printArg fmt args

/-! ### What `printf` is for -/

/-- What was printed, and why the run has stopped if it does not return. -/
structure Output where
  text : List Byte
  stop : Option Stop
  deriving DecidableEq

def Output.behind (o : Output) (text : List Byte) : Output :=
  { o with text := text ++ o.text }

/-- A run that has stopped prints nothing more. -/
def Output.andThen (o next : Output) : Output :=
  if o.stop = none then next.behind o.text else o

def outputOf {α : Type} : EStateM.Result Stop (List (List Byte)) α → Output
  | .ok _ chunks => ⟨chunks.flatten, none⟩
  | .error e chunks => ⟨chunks.flatten, some e⟩

/-- What a call prints. -/
def output (call : PrintM Unit) : Output := outputOf (call [])

/-- The bytes of the format, and in the place of each directive what the call for its letter
prints. A directive with an argument of another type has no meaning. -/
def prescribed : List Byte → List Arg → Output
  | [], _ => ⟨[], none⟩
  | [c], _ => ⟨if c = byteOf '%' then [] else [c], none⟩
  | c :: letter :: rest, args =>
      if c ≠ byteOf '%' then
        (prescribed (letter :: rest) args).behind [c]
      else if letter = byteOf 'd' then
        match args with
        | .word number :: args => (output (printInt number)).andThen (prescribed rest args)
        | _ => ⟨[], some .badArgument⟩
      else if letter = byteOf 'u' then
        match args with
        | .word number :: args => (output (printUint number)).andThen (prescribed rest args)
        | _ => ⟨[], some .badArgument⟩
      else if letter = byteOf 'x' then
        match args with
        | .word number :: args => (output (printHex number)).andThen (prescribed rest args)
        | _ => ⟨[], some .badArgument⟩
      else if letter = byteOf 's' then
        match args with
        | .string str :: args =>
            (output (printString (str.bytes ++ [0]))).andThen (prescribed rest args)
        | _ => ⟨[], some .badArgument⟩
      else if letter = byteOf 'c' then
        match args with
        | .word c :: args => (output (printChar (c.setWidth 8))).andThen (prescribed rest args)
        | _ => ⟨[], some .badArgument⟩
      else
        prescribed rest args

end Ciabatta.Loader.Printf
