import Ciabatta.CiaMem.Allocator

/-!
What `cia_allocator_pages` of `allocator.c` answers, which hands out what `mmap` maps.
-/

namespace Ciabatta.CiaMem

open ByteMemory Exec

/-- What the kernel returns for an error. -/
def IsErrorCode (r : Word) : Prop :=
  -4095 ≤ r.toInt ∧ r.toInt ≤ -1

instance (r : Word) : Decidable (IsErrorCode r) :=
  inferInstanceAs (Decidable (_ ∧ _))

theorem IsErrorCode.ne_zero {r : Word} (h : IsErrorCode r) : r ≠ 0 := by
  rintro rfl
  exact absurd h (by decide)

variable {size alignment addr : Word}

section Procedure

variable {σ : Type} {sys : PageCalls σ} {s t : σ}

/-- The result of the system call is the address, also where it is an error code. -/
theorem pageAllocatorProc_alloc (halignment : ¬ alignment > 0x1000)
    (hmmap : sys.mmap 0 size s = .ok addr t) :
    pageAllocatorProc sys 0 ciaMemOpAlloc 0 0 size alignment s = .ok addr t := by
  rw [pageAllocatorProc, if_pos rfl, if_neg halignment, rtMemAlloc, bind_assoc, bind_of_ok hmmap]
  by_cases hnull : addr = 0
  · rw [if_pos hnull, hnull]
    rfl
  · rw [if_neg hnull]
    rfl

/-- Blocks that a page is not aligned for are refused. -/
theorem pageAllocatorProc_refused (halignment : alignment > 0x1000) :
    pageAllocatorProc sys 0 ciaMemOpAlloc 0 0 size alignment s = .ok 0 s := by
  rw [pageAllocatorProc, if_pos rfl, if_pos halignment]
  rfl

/-- What `munmap` answers is not read. -/
theorem pageAllocatorProc_free {ptr result : Word}
    (hmunmap : sys.munmap ptr size s = .ok result t) :
    pageAllocatorProc sys 0 ciaMemOpFree ptr size 0 1 s = .ok 0 t := by
  rw [pageAllocatorProc, if_neg (by decide), if_pos rfl, rtMemFree, bind_assoc,
    bind_of_ok hmunmap]
  split <;> rfl

end Procedure

variable {sys : PageCalls (Machine Call)} {s t : Machine Call}

theorem ciaAllocatorAlloc_pages (halignment : ¬ alignment > 0x1000)
    (hmmap : sys.mmap 0 size s = .ok addr t) :
    ciaAllocatorAlloc (ciaAllocatorPages sys) size alignment s =
      .ok addr (t.record (.call (.allocator ciaMemOpAlloc 0 0 size alignment addr))) := by
  have hproc : (ciaAllocatorPages sys).proc (ciaAllocatorPages sys).ctx ciaMemOpAlloc 0 0 size
      alignment s = .ok addr t := pageAllocatorProc_alloc halignment hmmap
  rw [ciaAllocatorAlloc, bind_of_ok hproc]
  rfl

theorem ciaAllocatorAlloc_pages_refused (halignment : alignment > 0x1000) :
    ciaAllocatorAlloc (ciaAllocatorPages sys) size alignment s =
      .ok 0 (s.record (.call (.allocator ciaMemOpAlloc 0 0 size alignment 0))) := by
  have hproc : (ciaAllocatorPages sys).proc (ciaAllocatorPages sys).ctx ciaMemOpAlloc 0 0 size
      alignment s = .ok 0 s := pageAllocatorProc_refused halignment
  rw [ciaAllocatorAlloc, bind_of_ok hproc]
  rfl

end Ciabatta.CiaMem
