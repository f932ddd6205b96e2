import Ciabatta.CiaMem.Allocator

/-!
`src/cia-mem/pool.c`, with `cia_size_alignf` of `util.c`.
The pool record belongs to the caller and is passed along; the buffers and the
free list threaded through them are in the byte memory.
-/

namespace Ciabatta.CiaMem

open ByteMemory Exec

def ciaSizeAlignf (size alignment : Word) : Word :=
  (size + alignment - 1) &&& ~~~(alignment - 1)

structure CiaPool where
  allocator : CiaAllocator (Machine Call)
  first : Word
  freelistHead : Word
  bufferSize : Word
  bucketSize : Word
  alignment : Word

def sizeofCiaPoolBucket : Word := 8

def sizeofCiaPoolBufferHeader : Word := 8

/-- A round of the loop in `_pool_buffer_freelist_add`, on `bucket_offset` and
`next_bucket`. -/
def poolCarveBucket (pool : CiaPool) (buffer headerSizeAligned : Word) :
    Word × Word → Exec Call ((Word × Word) ⊕ Word)
  | (bucketOffset, nextBucket) => do
      let bucketOffset := bucketOffset - pool.bucketSize
      let bucket := buffer + bucketOffset
      storeWord bucket nextBucket
      if bucketOffset > headerSizeAligned then
        return .inl (bucketOffset, bucket)
      else
        return .inr bucket

/-- The offsets of the loop are pairwise different, so `2 ^ 64` rounds are
enough for it. -/
def poolBufferFreelistAdd (pool : CiaPool) (buffer : Word) : Exec Call CiaPool := do
  let headerSizeAligned := ciaSizeAlignf sizeofCiaPoolBufferHeader pool.alignment
  let remainingSize := pool.bufferSize - headerSizeAligned
  let bucketsCount ← divide remainingSize pool.bucketSize
  let bucketsSize := bucketsCount * pool.bucketSize
  let head ← loop (poolCarveBucket pool buffer headerSizeAligned) (2 ^ 64)
    (headerSizeAligned + bucketsSize, pool.freelistHead)
  return { pool with freelistHead := head }

/-- The bucket size of a pool of elements of the given size: room for a link,
and a multiple of the alignment. -/
def poolBucketSize (elementSize alignment : Word) : Word :=
  ciaSizeAlignf (if elementSize < sizeofCiaPoolBucket then sizeofCiaPoolBucket else elementSize)
    alignment

def ciaPoolCreate (backingAllocator : CiaAllocator (Machine Call))
    (bufferSize bucketSize alignment : Word) : Exec Call CiaPool := do
  let first ← ciaAllocatorAlloc backingAllocator bufferSize alignment
  poolBufferFreelistAdd
    { allocator := backingAllocator
      first := first
      freelistHead := 0
      bufferSize := bufferSize
      bucketSize := poolBucketSize bucketSize alignment
      alignment := alignment } first

def ciaPoolAlloc (pool : CiaPool) : Exec Call (Word × CiaPool) := do
  let pool ← (if pool.freelistHead = 0 then do
      let buffer ← ciaAllocatorAlloc pool.allocator pool.bufferSize pool.alignment
      poolBufferFreelistAdd pool buffer
    else
      pure pool)
  let addr := pool.freelistHead
  let next ← loadWord pool.freelistHead
  return (addr, { pool with freelistHead := next })

def ciaPoolFree (pool : CiaPool) (ptr : Word) : Exec Call CiaPool := do
  storeWord ptr pool.freelistHead
  return { pool with freelistHead := ptr }

/-- A round of the loops in `cia_pool_free_all` and `cia_pool_destroy`. The link of
a buffer is read after the buffer was released. -/
def poolReleaseRound (pool : CiaPool) (buffer : Word) : Exec Call (Word ⊕ Unit) := do
  if buffer ≠ 0 then do
    ciaAllocatorFreeSize pool.allocator buffer pool.bufferSize
    let next ← loadWord buffer
    return .inl next
  else
    return .inr ()

/-- The links may lead in a circle, so no number of rounds bounds the loop. -/
def ciaPoolFreeAll (fuel : ℕ) (pool : CiaPool) : Exec Call CiaPool := do
  let next ← loadWord pool.first
  loop (poolReleaseRound pool) fuel next
  poolBufferFreelistAdd { pool with freelistHead := 0 } pool.first

def ciaPoolDestroy (fuel : ℕ) (pool : CiaPool) : Exec Call Unit :=
  loop (poolReleaseRound pool) fuel pool.first

end Ciabatta.CiaMem
