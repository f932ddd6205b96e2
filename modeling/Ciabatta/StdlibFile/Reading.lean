import Ciabatta.StdlibFile.Fmt

/-!
`fgetc` and `fread` of `file.c`, over `_rt_file_read` of the Linux and of the
Windows layer. A stream holds what is left of its file, and what each read call
on it will return.
-/

namespace Ciabatta.StdlibFile

open ByteMemory Exec

inductive ReadEvent
  | lock
  | unlock
  | read (request : Word) (result : ℤ)
  deriving DecidableEq

structure ReadStream where
  /-- The bytes of the file that have not been read. -/
  rest : List Byte
  /-- The results of the read calls to come: how many bytes, or an error. -/
  results : List ℤ
  /-- What an unassigned `u64` holds. -/
  garbage : Word
  /-- Oldest event first. -/
  log : List ReadEvent

abbrev ReadM := EStateM Stop ReadStream

def ReadStream.record (s : ReadStream) (e : ReadEvent) : ReadStream :=
  { s with log := s.log ++ [e] }

def lockRead : ReadM Unit := fun s => .ok () (s.record .lock)

def unlockRead : ReadM Unit := fun s => .ok () (s.record .unlock)

/-- A read call of the system: its result, and the bytes it stores. -/
def kernelRead (request : Word) : ReadM (ℤ × List Byte) := fun s =>
  let result := s.results.headD 0
  .ok (result, s.rest.take result.toNat)
    { s.record (.read request result) with
      rest := s.rest.drop result.toNat
      results := s.results.tail }

/-- What `_rt_file_read` leaves behind: its status, `*out_bytes_read`, and the
bytes stored in the buffer. -/
structure FileRead where
  status : ℤ
  outBytesRead : Word
  data : List Byte

def rtStatusFileEof : ℤ := 14

/-- A layer below `stdio`: its `_rt_file_read`, on the size and on what
`*out_bytes_read` holds before the call. -/
abbrev ReadLayer := Word → Word → ReadM FileRead

/-- `os/linux/tinyrt.c`. The wrapper of the system call returns an `i32`. -/
def linuxRtFileRead : ReadLayer := fun size outBytesRead => do
  let (result, data) ← kernelRead size
  let bytesRead := (BitVec.ofInt 32 result).toInt
  if bytesRead = 0 then
    return ⟨rtStatusFileEof, outBytesRead, data⟩
  else if bytesRead < 0 then
    return ⟨rtStatusFileIoError, outBytesRead, data⟩
  else
    return ⟨rtStatusOk, BitVec.ofInt 64 bytesRead, data⟩

/-- `os/windows/tinyrt.c`. `ReadFile` takes a 32-bit size and stores the 32-bit
number of bytes; it fails where the read call returns an error. -/
def windowsRtFileRead : ReadLayer := fun size _ => do
  let (result, data) ← kernelRead ((size.setWidth 32).setWidth 64)
  if result < 0 then
    return ⟨rtStatusFileIoError, 0, data⟩
  else
    return ⟨rtStatusOk, (BitVec.ofInt 32 result).setWidth 64, data⟩

def eof : ℤ := -1

/-- The `int` at `&c` after bytes were stored from `&c` on. -/
def storeLowByte (c : BitVec 32) : List Byte → BitVec 32
  | [] => c
  | b :: _ => c &&& ~~~0xff ||| b.setWidth 32

def fgetc (layer : ReadLayer) : ReadM ℤ := do
  let s ← get
  lockRead
  let out ← layer 1 s.garbage
  unlockRead
  if out.status = rtStatusFileEof then
    return eof
  else if out.status ≠ rtStatusOk then
    return eof
  else
    return (storeLowByte 0 out.data).toInt

/-- `fread`: the result, and the bytes stored at `buf`. -/
def fread (layer : ReadLayer) (size count : Word) : ReadM (Word × List Byte) := do
  let s ← get
  lockRead
  let out ← layer (size * count) s.garbage
  unlockRead
  if out.status ≠ rtStatusOk then
    return (0, out.data)
  else if size = 0 then
    throw .divisionByZero
  else
    return (out.outBytesRead / size, out.data)

end Ciabatta.StdlibFile
