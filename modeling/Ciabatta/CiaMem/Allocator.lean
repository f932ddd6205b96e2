import Ciabatta.World

/-!
`src/cia-mem/allocator.c`, with the memory calls of the runtime under it. What the
calls run on is a parameter: the byte memory of the other models, or the kernel's
table of what is mapped.
-/

namespace Ciabatta

open Exec

/-- States that keep a record of the calls to an allocator, or none. -/
class LogsCalls (σ : Type) where
  logCall : Call → EStateM Stop σ Unit

instance : LogsCalls (Machine Call) where
  logCall := call

namespace CiaMem

open ByteMemory LogsCalls

variable {σ : Type}

/-- The system calls `mmap`, on its first two arguments, and `munmap`. -/
structure PageCalls (σ : Type) where
  mmap : Word → Word → EStateM Stop σ Word
  munmap : Word → Word → EStateM Stop σ Word

/-- `_RT_STATUS_OK` and `_RT_ERROR_GENERIC` -/
def rtStatusOk : ℤ := 0
def rtErrorGeneric : ℤ := -3

/-- A status other than `_RT_STATUS_OK`, or `*out_addr`. -/
def rtMemAlloc (sys : PageCalls σ) (optionalDesiredAddr size : Word) :
    EStateM Stop σ (Except ℤ Word) := do
  let addr ← sys.mmap optionalDesiredAddr size
  if addr = 0 then return .error rtErrorGeneric else return .ok addr

def rtMemFree (sys : PageCalls σ) (ptr len : Word) : EStateM Stop σ ℤ := do
  let result ← sys.munmap ptr len
  if result = -1 then return rtErrorGeneric else return rtStatusOk

def ciaMemOpAlloc : BitVec 32 := 1
def ciaMemOpFree : BitVec 32 := 2
def ciaMemOpFreeAll : BitVec 32 := 3

structure CiaAllocator (σ : Type) where
  ctx : Word
  /-- The arguments after the context: `optype`, `old_ptr`, `old_size`, `size`
  and `alignment`. -/
  proc : Word → BitVec 32 → Word → Word → Word → Word → EStateM Stop σ Word

/-- `cia_allocator_null()`: no request is ever met. -/
def ciaAllocatorNull : CiaAllocator σ where
  ctx := 0
  proc := fun _ _ _ _ _ _ => return 0

def pageAllocatorProc (sys : PageCalls σ) (_ctx : Word) (optype : BitVec 32)
    (oldPtr oldSize size alignment : Word) : EStateM Stop σ Word :=
  if optype = ciaMemOpAlloc then
    if alignment > 0x1000 then
      return 0
    else do
      match ← rtMemAlloc sys 0 size with
      | .error _ => return 0
      | .ok addr => return addr
  else if optype = ciaMemOpFree then do
    let _ ← rtMemFree sys oldPtr oldSize
    return 0
  else
    return 0

def ciaAllocatorPages (sys : PageCalls σ) : CiaAllocator σ where
  ctx := 0
  proc := pageAllocatorProc sys

def ciaAllocatorAlloc [LogsCalls σ] (alloc : CiaAllocator σ) (size alignment : Word) :
    EStateM Stop σ Word := do
  let ptr ← alloc.proc alloc.ctx ciaMemOpAlloc 0 0 size alignment
  logCall (.allocator ciaMemOpAlloc 0 0 size alignment ptr)
  return ptr

def ciaAllocatorFreeSize [LogsCalls σ] (alloc : CiaAllocator σ) (regionPtr regionSize : Word) :
    EStateM Stop σ Unit := do
  let result ← alloc.proc alloc.ctx ciaMemOpFree regionPtr regionSize 0 1
  logCall (.allocator ciaMemOpFree regionPtr regionSize 0 1 result)

def ciaAllocatorFree [LogsCalls σ] (alloc : CiaAllocator σ) (regionPtr : Word) :
    EStateM Stop σ Unit := do
  let result ← alloc.proc alloc.ctx ciaMemOpFree regionPtr 0 0 1
  logCall (.allocator ciaMemOpFree regionPtr 0 0 1 result)

def ciaAllocatorFreeAll [LogsCalls σ] (alloc : CiaAllocator σ) : EStateM Stop σ Unit := do
  let result ← alloc.proc alloc.ctx ciaMemOpFreeAll 0 0 0 1
  logCall (.allocator ciaMemOpFreeAll 0 0 0 1 result)

end CiaMem

end Ciabatta
