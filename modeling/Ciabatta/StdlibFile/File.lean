import Ciabatta.StdlibFile.Reading

/-!
`fputc` and `fwrite` of `file.c`, which with `printf` of `fmt.c` are the calls that
write to a `FILE`.
-/

namespace Ciabatta.StdlibFile

open ByteMemory Exec

/-- `_rt_file_write` as the callers see it that read `*out_bytes_written`: a status
other than `_RT_STATUS_OK`, or that number. -/
def rtFileWriteOut (data : List Byte) : StdioM (Except ℤ Word) := do
  let status ← sysWrite data
  if -status = ebadf then
    return .error rtErrorBadParam
  else if -status = eio then
    return .error rtStatusFileIoError
  else if -status > 0 then
    return .error rtStatusFileIoError
  else
    return .ok (BitVec.ofInt 64 status)

/-- The byte at the address of the `int` is its lowest one. -/
def fputc (c : BitVec 32) : StdioM ℤ := do
  lock
  let status ← rtFileWrite [c.setWidth 8]
  unlock
  if status ≠ rtStatusOk then
    return eof
  else
    return c.toInt

/-- The bytes from `buf` on are given as a function of their index. -/
def fwrite (buf : ℕ → Byte) (size count : Word) : StdioM Word := do
  lock
  let written ← rtFileWriteOut ((List.range (size * count).toNat).map buf)
  unlock
  match written with
  | .error _ => return 0
  | .ok bytesWritten =>
      if size = 0 then throw .divisionByZero else return bytesWritten / size

/-- A call that writes to the `FILE`, which is `stdout` for `printf`. -/
inductive WriteCall
  | printf (fmt : CString) (args : List Arg)
  | fputc (c : BitVec 32)
  | fwrite (buf : ℕ → Byte) (size count : Word)

def WriteCall.run : WriteCall → StdioM ℤ
  | .printf fmt args => StdlibFile.printf fmt args
  | .fputc c => StdlibFile.fputc c
  | .fwrite buf size count => do
      let items ← StdlibFile.fwrite buf size count
      return items.toNat

/-- The two views of `_rt_file_write`. -/
theorem rtFileWrite_eq (data : List Byte) : rtFileWrite data = do
    match ← rtFileWriteOut data with
    | .error status => return status
    | .ok _ => return rtStatusOk := by
  simp only [rtFileWrite, rtFileWriteOut, bind_assoc]
  congr 1
  ext status : 1
  split
  · rfl
  · split
    · rfl
    · split <;> rfl

end Ciabatta.StdlibFile
