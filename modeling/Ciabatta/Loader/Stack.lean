import Ciabatta.Lib.Exec

/-!
`stack.c`: the loader finds the stack of the process in `/proc/self/maps`, which
it reads character by character. The results of the reads to come are part of
the state. Every loop whose length depends on the file gets `fuel` rounds.
-/

namespace Ciabatta.Loader

open ByteMemory Exec

def vmRead : BitVec 32 := 1
def vmWrite : BitVec 32 := 2
def vmExec : BitVec 32 := 4
def vmShared : BitVec 32 := 8

/-- `sizeof line_buf` and `sizeof name_buf`. -/
def lineBufSize : ℕ := 1024
def nameBufSize : ℕ := 256

structure StackInfo where
  stackFound : Bool
  startAddr : Word
  endAddr : Word
  flags : BitVec 32
  deriving DecidableEq

/-- `data` has the bytes of the last read; those behind them are never used. -/
structure FileBuffer where
  fd : ℤ
  data : List Byte
  dataSize : ℕ
  lastReadSize : ℕ
  offset : ℕ
  lastChar : ℤ

/-- What a read gives; no bytes mean the end of the file. -/
inductive ReadResult
  | data (bytes : List Byte)
  | error

structure MapsState where
  /-- The descriptor or error that `sys_open` returns. -/
  openResult : ℤ
  /-- The results of the next reads, and the one of every read after these. -/
  reads : List ReadResult
  after : ReadResult
  /-- The descriptors closed so far. -/
  closed : List ℤ
  buffer : FileBuffer
  stackInfo : StackInfo

abbrev MapsM := EStateM Stop MapsState

/-- The value of a character constant. -/
def chr (c : Char) : ℤ := c.toNat

def sysOpen : MapsM ℤ := fun s => .ok s.openResult s

def sysRead : MapsM ReadResult := fun s =>
  match s.reads with
  | [] => .ok s.after s
  | result :: reads => .ok result { s with reads := reads }

def sysClose : MapsM Unit := fun s =>
  .ok () { s with closed := s.buffer.fd :: s.closed }

def getBuffer : MapsM FileBuffer := fun s => .ok s.buffer s

def lastChar : MapsM ℤ := fun s => .ok s.buffer.lastChar s

def setBuffer (f : FileBuffer → FileBuffer) : MapsM Unit := fun s =>
  .ok () { s with buffer := f s.buffer }

/-- `return buffer->last_char = ch` -/
def setLastChar (ch : ℤ) : MapsM ℤ := fun s =>
  .ok ch { s with buffer := { s.buffer with lastChar := ch } }

/-- The end of `read_char`: the character at the offset, as a signed `char`. -/
def takeChar : MapsM ℤ := fun s =>
  let ch := (s.buffer.data.getD s.buffer.offset 0).toInt
  .ok ch { s with buffer := { s.buffer with offset := s.buffer.offset + 1, lastChar := ch } }

def readChar : MapsM ℤ := do
  let buffer ← getBuffer
  if buffer.offset ≥ buffer.lastReadSize then do
    match ← sysRead with
    | .error => return -1
    | .data [] => setLastChar (-1)
    | .data bytes => do
        -- `buffer->data[read_size] = 0`
        (if bytes.length < buffer.dataSize then pure () else throw .outOfBounds)
        setBuffer fun b => { b with data := bytes, lastReadSize := bytes.length, offset := 0 }
        takeChar
  else
    takeChar

def charIsHex (ch : ℤ) : Bool :=
  (chr '0' ≤ ch && ch ≤ chr '9') || (chr 'a' ≤ ch && ch ≤ chr 'f') ||
    (chr 'A' ≤ ch && ch ≤ chr 'F')

def charToHex (ch : ℤ) : ℤ :=
  if ch ≤ chr '9' then ch - chr '0' else ch - chr 'a' + 10

/-- A round of the loop in `read_hex`, on `result` and `n_digits`. -/
def readHexRound : Word × ℕ → MapsM ((Word × ℕ) ⊕ (Word × ℕ))
  | (result, nDigits) => do
      let ch ← lastChar
      if charIsHex ch then do
        let result := result * 16 + BitVec.ofInt 64 (charToHex ch)
        let _ ← readChar
        let nDigits ← incrementInt nDigits
        return .inl (result, nDigits)
      else
        return .inr (result, nDigits)

/-- The status that `read_hex` returns, and `*out_result`. -/
def readHex (fuel : ℕ) : MapsM (ℤ × Word) := do
  let (result, nDigits) ← loop readHexRound fuel (0, 0)
  return (if nDigits = 0 then -1 else 0, result)

def readDecRound : Word × ℕ → MapsM ((Word × ℕ) ⊕ (Word × ℕ))
  | (result, nDigits) => do
      let ch ← lastChar
      if chr '0' ≤ ch ∧ ch ≤ chr '9' then do
        let result := result * 10 + BitVec.ofInt 64 (ch - chr '0')
        let _ ← readChar
        let nDigits ← incrementInt nDigits
        return .inl (result, nDigits)
      else
        return .inr (result, nDigits)

def readDec (fuel : ℕ) : MapsM (ℤ × Word) := do
  let (result, nDigits) ← loop readDecRound fuel (0, 0)
  return (if nDigits = 0 then -1 else 0, result)

/-! ### `linux_read_stack_info`

The function in pieces, each one a stretch of its loop body. -/

/-- The two addresses, or nothing where the source returns -1. -/
def readAddrs (fuel : ℕ) : MapsM (Option (Word × Word)) := do
  let (status, startAddr) ← readHex fuel
  if status ≠ 0 then
    return none
  else do
    let ch ← lastChar
    if ch ≠ chr '-' then
      return none
    else do
      let ch ← readChar
      if ch < 0 then
        return none
      else do
        let (status, endAddr) ← readHex fuel
        if status < 0 then
          return none
        else do
          -- skip the whitespace
          let ch ← readChar
          if ch < 0 then
            return none
          else
            return some (startAddr, endAddr)

/-- One of the four permission characters. -/
def readFlag (c : Char) (bit flags : BitVec 32) : MapsM (BitVec 32) := do
  let ch ← lastChar
  let flags := if ch = chr c then flags ||| bit else flags
  let _ ← readChar
  return flags

def readFlags : MapsM (BitVec 32) := do
  let flags ← readFlag 'r' vmRead 0
  let flags ← readFlag 'w' vmWrite flags
  let flags ← readFlag 'x' vmExec flags
  readFlag 's' vmShared flags

/-- `for(int i = 0; i != 16; ++i)` over the fields `offset` and `device`. -/
def skipRound (i : ℕ) : MapsM (ℕ ⊕ Unit) :=
  if i ≠ 16 then do
    let _ ← readChar
    return .inl (i + 1)
  else
    return .inr ()

def skipFields : MapsM Unit := loop skipRound 17 0

def skipSpacesRound (_ : Unit) : MapsM (Unit ⊕ Unit) := do
  let ch ← lastChar
  if ch = chr ' ' then do
    let _ ← readChar
    return .inl ()
  else
    return .inr ()

/-- A round of the loop that copies the name, on the part of `name_buf` that is
filled. -/
def readNameRound (nameBuf : List Byte) : MapsM (List Byte ⊕ List Byte) := do
  let ch ← lastChar
  if nameBuf.length < nameBufSize ∧ ch ≠ chr '\n' ∧ ch ≠ -1 then do
    let _ ← readChar
    return .inl (nameBuf ++ [BitVec.ofInt 8 ch])
  else
    return .inr nameBuf

def readName (fuel : ℕ) : MapsM (List Byte) := do
  let nameBuf ← loop readNameRound fuel []
  -- `name_buf[name_len] = 0`
  if nameBuf.length < nameBufSize then
    return nameBuf
  else
    throw .outOfBounds

def desiredName : List Byte := "[stack]".toList.map byteOf

/-- The `continue` in here continues the loop over `i`, not the one over the
lines. -/
def compareRound (nameBuf : List Byte) (i : ℕ) : MapsM (ℕ ⊕ Unit) :=
  if i < 7 then
    if nameBuf.getD i 0 ≠ desiredName.getD i 0 then
      return .inl (i + 1)
    else
      return .inl (i + 1)
  else
    return .inr ()

def foundStack (startAddr endAddr : Word) (flags : BitVec 32) : MapsM Unit := fun s =>
  .ok () { s with stackInfo := ⟨true, startAddr, endAddr, flags⟩ }

/-- The start of a line: the newline of the line before it. -/
def skipNewline : MapsM Unit := do
  let ch ← lastChar
  if ch = chr '\n' then do
    let _ ← readChar
    return ()
  else
    return ()

/-- The addresses and flags of a line, which is read up to its inode; nothing
where the source returns -1. -/
def readMapping (fuel : ℕ) : MapsM (Option (Word × Word × BitVec 32)) := do
  match ← readAddrs fuel with
  | none => return none
  | some (startAddr, endAddr) => do
      let flags ← readFlags
      skipFields
      let (status, _inode) ← readDec fuel
      if status ≠ 0 then
        return none
      else
        return some (startAddr, endAddr, flags)

/-- The name of the mapping. One that `name_len` lets pass is taken for the
stack. -/
def takeName (fuel : ℕ) (startAddr endAddr : Word) (flags : BitVec 32) :
    MapsM (Unit ⊕ ℤ) := do
  let nameBuf ← readName fuel
  if nameBuf.length ≠ 7 then
    return .inl ()
  else do
    loop (compareRound nameBuf) 8 0
    foundStack startAddr endAddr flags
    sysClose
    return .inr 0

/-- The end of a line, from behind its inode. -/
def matchName (fuel : ℕ) (startAddr endAddr : Word) (flags : BitVec 32) :
    MapsM (Unit ⊕ ℤ) := do
  let ch ← lastChar
  if ch = chr '\n' ∨ ch = -1 then
    return .inl ()
  else do
    loop skipSpacesRound fuel ()
    takeName fuel startAddr endAddr flags

/-- A round of the loop over the lines: `continue`, or the result that
`linux_read_stack_info` returns. -/
def lineRound (fuel : ℕ) (_ : Unit) : MapsM (Unit ⊕ ℤ) := do
  let ch ← lastChar
  if ch = -1 then do
    sysClose
    return .inr 1
  else do
    skipNewline
    match ← readMapping fuel with
    | none => return .inr (-1)
    | some (startAddr, endAddr, flags) => matchName fuel startAddr endAddr flags

def linuxReadStackInfo (fuel : ℕ) : MapsM ℤ := do
  let fd ← sysOpen
  setBuffer fun b =>
    { b with fd := fd, data := [], dataSize := lineBufSize, lastReadSize := 0, offset := 0 }
  if fd < 0 then
    return -1
  else do
    let ch ← readChar
    if ch < 0 then
      return -1
    else
      loop (lineRound fuel) fuel ()

end Ciabatta.Loader
