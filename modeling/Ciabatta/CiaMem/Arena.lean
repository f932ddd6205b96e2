import Ciabatta.CiaMem.Allocator

/-!
`src/cia-mem/arena.c`, with `cia_ptr_alignf` of `util.c`. Past its creation an
arena works on its own record only; the buffer belongs to the client.
-/

namespace Ciabatta.CiaMem

open ByteMemory Exec

variable {σ : Type}

structure CiaArena (σ : Type) where
  allocator : CiaAllocator σ
  bufferSize : Word
  used : Word
  buffer : Word

def ciaPtrAlignf (ptr alignment : Word) : Word :=
  (ptr + alignment - 1) &&& ~~~(alignment - 1)

def ciaArenaCreate [LogsCalls σ] (backingAllocator : CiaAllocator σ) (bufferSize : Word) :
    EStateM Stop σ (CiaArena σ) := do
  let buffer ← ciaAllocatorAlloc backingAllocator bufferSize 16
  return { allocator := backingAllocator, bufferSize := bufferSize, used := 0, buffer := buffer }

/-- The cursor advances by the size of the buffer, whatever was asked for. -/
def ciaArenaAlloc (arena : CiaArena σ) (size : Word) : Word × CiaArena σ :=
  if arena.used + size > arena.bufferSize then
    (0, arena)
  else
    (arena.buffer + arena.used, { arena with used := arena.used + arena.bufferSize })

/-- The cursor stays at the start of the region handed out. -/
def ciaArenaAllocAligned (arena : CiaArena σ) (size align : Word) : Word × CiaArena σ :=
  let bufferEnd := arena.buffer + arena.bufferSize
  let regionPtr := ciaPtrAlignf (arena.buffer + arena.used) align
  let regionEnd := regionPtr + size
  if regionEnd > bufferEnd then
    (0, arena)
  else
    (regionPtr, { arena with used := regionPtr - arena.buffer })

def ciaArenaFreeAll (arena : CiaArena σ) : CiaArena σ :=
  { arena with used := 0 }

def ciaArenaDestroy [LogsCalls σ] (arena : CiaArena σ) : EStateM Stop σ Unit :=
  ciaAllocatorFreeSize arena.allocator arena.buffer arena.bufferSize

end Ciabatta.CiaMem
