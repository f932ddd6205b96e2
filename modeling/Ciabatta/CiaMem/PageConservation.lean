import Ciabatta.CiaMem.PageAllocator
import Ciabatta.Lib.Transition
import Mathlib.Data.List.Perm.Basic

/-!
What is mapped after the calls of a client on `cia_allocator_pages`. The allocator keeps no
sizes, so that only `cia_allocator_free_size` gives anything back to the kernel.
-/

namespace Ciabatta.CiaMem.Pages

open ByteMemory Exec Transition System

/-- A region at an address, of a size. -/
abbrev Region := Word × Word

def einval : Word := 22

/-- A kernel that answers `mmap` with `answer`. It unmaps what it is asked to, but not a
length of zero. -/
def mapping (answer : Word) : PageCalls (List Region) where
  mmap _ size := fun mapped =>
    .ok answer (if IsErrorCode answer then mapped else (answer, size) :: mapped)
  munmap ptr len := fun mapped =>
    if len = 0 then .ok (-einval) mapped else .ok 0 (mapped.erase (ptr, len))

/-- `cia_allocator_pages` on that kernel. -/
abbrev pages (answer : Word) : CiaAllocator (List Region) :=
  ciaAllocatorPages (mapping answer)

/-- The table has no room for a record of the calls. -/
instance : LogsCalls (List Region) where
  logCall _ := pure ()

/-- What `mmap` can answer: an error, or the address of a region away from those that are
mapped. -/
def MmapAnswers (mapped : List Region) (size answer : Word) : Prop :=
  IsErrorCode answer ∨ answer ≠ 0 ∧ size ≠ 0 ∧
    ∀ r ∈ mapped, Disjoint (region r.1 r.2.toNat) (region answer size.toNat)

theorem MmapAnswers.ne_zero {mapped : List Region} {size answer : Word}
    (h : MmapAnswers mapped size answer) : answer ≠ 0 :=
  h.elim IsErrorCode.ne_zero And.left

structure State where
  mapped : List Region
  /-- The regions that the client got and has not given back. -/
  held : List Region

inductive Act
  | alloc (size alignment answer : Word)
  | free (r : Region)
  | freeSize (r : Region)
  /-- With the regions that the client holds. -/
  | freeAll (held : List Region)

/-- The client gives back what it holds, once, and with the size of the allocation. -/
inductive Step : State → Act → State → Prop
  | alloc {s : State} {size alignment answer ptr : Word} {mapped : List Region}
      (hanswer : MmapAnswers s.mapped size answer)
      (hcall : ciaAllocatorAlloc (pages answer) size alignment s.mapped = .ok ptr mapped) :
      Step s (.alloc size alignment answer)
        { mapped := mapped, held := if ptr = 0 then s.held else (ptr, size) :: s.held }
  | free {s : State} {r : Region} {answer : Word} {mapped : List Region} (hheld : r ∈ s.held)
      (hcall : ciaAllocatorFree (pages answer) r.1 s.mapped = .ok () mapped) :
      Step s (.free r) { mapped := mapped, held := s.held.erase r }
  | freeSize {s : State} {r : Region} {answer : Word} {mapped : List Region}
      (hheld : r ∈ s.held)
      (hcall : ciaAllocatorFreeSize (pages answer) r.1 r.2 s.mapped = .ok () mapped) :
      Step s (.freeSize r) { mapped := mapped, held := s.held.erase r }
  | freeAll {s : State} {answer : Word} {mapped : List Region}
      (hcall : ciaAllocatorFreeAll (pages answer) s.mapped = .ok () mapped) :
      Step s (.freeAll s.held) { mapped := mapped, held := [] }

def client : System State Act where
  init s := s.mapped = [] ∧ s.held = []
  step := Step

/-- What was allocated with success. An address that is an error code has no region. -/
def owed (held : List Region) : List Region :=
  held.filter fun r => ¬ IsErrorCode r.1

/-- Mapped is what was allocated with success and has not been given back. -/
def State.Conserved (s : State) : Prop :=
  ∀ r, r ∈ s.mapped ↔ r ∈ owed s.held

/-- A call that gives back a region without its size. -/
def Act.Leaks : Act → Prop
  | .free r => ¬ IsErrorCode r.1
  | .freeAll held => ∃ r ∈ held, ¬ IsErrorCode r.1
  | _ => False

variable {s t : State} {a : Act} {tr : List Act} {leaked mapped held : List Region} {r : Region}
  {size alignment answer ptr : Word}

/-! ### The calls -/

theorem ciaAllocatorAlloc_eq (answer size alignment : Word) (mapped : List Region) :
    ciaAllocatorAlloc (pages answer) size alignment mapped =
      if alignment > 0x1000 then .ok 0 mapped
      else .ok answer (if IsErrorCode answer then mapped else (answer, size) :: mapped) := by
  by_cases halignment : alignment > 0x1000
  · rw [if_pos halignment, ciaAllocatorAlloc]
    exact bind_of_ok (pageAllocatorProc_refused halignment)
  · rw [if_neg halignment, ciaAllocatorAlloc]
    exact bind_of_ok (pageAllocatorProc_alloc halignment rfl)

theorem ciaAllocatorFreeSize_eq (answer ptr size : Word) (mapped : List Region) :
    ciaAllocatorFreeSize (pages answer) ptr size mapped =
      .ok () (if size = 0 then mapped else mapped.erase (ptr, size)) := by
  rw [ciaAllocatorFreeSize]
  by_cases hzero : size = 0
  · rw [if_pos hzero]
    exact bind_of_ok (pageAllocatorProc_free (if_pos hzero))
  · rw [if_neg hzero]
    exact bind_of_ok (pageAllocatorProc_free (if_neg hzero))

theorem ciaAllocatorFree_eq (answer ptr : Word) (mapped : List Region) :
    ciaAllocatorFree (pages answer) ptr mapped = .ok () mapped := rfl

theorem ciaAllocatorFreeAll_eq (answer : Word) (mapped : List Region) :
    ciaAllocatorFreeAll (pages answer) mapped = .ok () mapped := rfl

/-! ### The accounts -/

/-- Mapped is what the client is owed, and what has leaked; and nothing has as long as no
call leaks. -/
structure Accounted (tr : List Act) (s : State) (leaked : List Region) : Prop where
  mapped : s.mapped.Perm (owed s.held ++ leaked)
  nodup : s.mapped.Nodup
  region : ∀ r ∈ s.mapped, ¬ IsErrorCode r.1 ∧ r.2 ≠ 0
  leaked : leaked = [] ↔ ∀ a ∈ tr, ¬ a.Leaks

theorem owed_cons (held : List Region) (h : ¬ IsErrorCode r.1) :
    owed (r :: held) = r :: owed held :=
  List.filter_cons_of_pos (by simpa using h)

theorem owed_cons_errorCode (held : List Region) (h : IsErrorCode r.1) :
    owed (r :: held) = owed held :=
  List.filter_cons_of_neg (by simpa using h)

theorem mem_owed (hheld : r ∈ held) (h : ¬ IsErrorCode r.1) : r ∈ owed held :=
  List.mem_filter.mpr ⟨hheld, by simpa using h⟩

theorem owed_perm (hheld : r ∈ held) : (owed held).Perm (owed (r :: held.erase r)) :=
  (List.perm_cons_erase hheld).filter _

/-- A call that does not leak adds nothing to what has leaked. -/
theorem Accounted.leaked_snoc (h : Accounted tr s leaked) (ha : ¬ a.Leaks) :
    leaked = [] ↔ ∀ b ∈ tr ++ [a], ¬ b.Leaks := by
  rw [List.forall_mem_append, List.forall_mem_singleton, h.leaked, and_iff_left ha]

theorem Accounted.alloc (h : Accounted tr s leaked) (hanswer : MmapAnswers s.mapped size answer)
    (hcall : ciaAllocatorAlloc (pages answer) size alignment s.mapped = .ok ptr mapped) :
    Accounted (tr ++ [.alloc size alignment answer])
      ⟨mapped, if ptr = 0 then s.held else (ptr, size) :: s.held⟩ leaked := by
  have hleaked := h.leaked_snoc (a := .alloc size alignment answer) id
  rw [ciaAllocatorAlloc_eq] at hcall
  by_cases halignment : alignment > 0x1000
  · rw [if_pos halignment] at hcall
    cases hcall
    exact ⟨h.mapped, h.nodup, h.region, hleaked⟩
  · rw [if_neg halignment] at hcall
    cases hcall
    by_cases hcode : IsErrorCode answer
    · rw [if_pos hcode, if_neg hcode.ne_zero]
      refine ⟨?_, h.nodup, h.region, hleaked⟩
      rw [owed_cons_errorCode _ hcode]
      exact h.mapped
    · obtain ⟨hne, hsize, hfresh⟩ := hanswer.resolve_left hcode
      have hnotMem : (answer, size) ∉ s.mapped := by
        intro hmem
        have hself : answer ∈ ByteMemory.region answer size.toNat :=
          self_mem_region (toNat_pos hsize)
        exact Set.disjoint_left.mp (hfresh _ hmem) hself hself
      rw [if_neg hcode, if_neg hne]
      refine ⟨?_, List.nodup_cons.mpr ⟨hnotMem, h.nodup⟩, ?_, hleaked⟩
      · rw [owed_cons _ hcode]
        exact h.mapped.cons _
      · exact List.forall_mem_cons.mpr ⟨⟨hcode, hsize⟩, h.region⟩

theorem Accounted.free (h : Accounted tr s leaked) (hheld : r ∈ s.held) :
    ∃ leaked', Accounted (tr ++ [.free r]) ⟨s.mapped, s.held.erase r⟩ leaked' := by
  by_cases hcode : IsErrorCode r.1
  · have howed := owed_perm hheld
    rw [owed_cons_errorCode _ hcode] at howed
    have hkeeps : ¬ (Act.free r).Leaks := fun hleaks => hleaks hcode
    exact ⟨leaked, h.mapped.trans (howed.append_right _), h.nodup, h.region, h.leaked_snoc hkeeps⟩
  · have howed := owed_perm hheld
    rw [owed_cons _ hcode] at howed
    refine ⟨r :: leaked, ?_, h.nodup, h.region, ?_⟩
    · refine h.mapped.trans ((howed.append_right _).trans ?_)
      exact List.perm_middle.symm
    · rw [List.forall_mem_append, List.forall_mem_singleton]
      exact iff_of_false (List.cons_ne_nil _ _) fun hall => hall.2 hcode

theorem Accounted.freeSize (h : Accounted tr s leaked) (hheld : r ∈ s.held) :
    Accounted (tr ++ [.freeSize r])
      ⟨if r.2 = 0 then s.mapped else s.mapped.erase (r.1, r.2), s.held.erase r⟩ leaked := by
  have hleaked := h.leaked_snoc (a := .freeSize r) id
  have howed := owed_perm hheld
  by_cases hcode : IsErrorCode r.1
  · -- there is no region at an error code, so nothing is unmapped
    have hsame : (if r.2 = 0 then s.mapped else s.mapped.erase (r.1, r.2)) = s.mapped := by
      rw [List.erase_of_not_mem fun hmem => (h.region _ hmem).1 hcode, ite_self]
    rw [owed_cons_errorCode _ hcode] at howed
    rw [hsame]
    exact ⟨h.mapped.trans (howed.append_right _), h.nodup, h.region, hleaked⟩
  · have hmem : r ∈ s.mapped :=
      h.mapped.mem_iff.mpr (List.mem_append_left _ (mem_owed hheld hcode))
    rw [if_neg (h.region r hmem).2]
    refine ⟨?_, h.nodup.erase _, fun q hq => h.region q (List.mem_of_mem_erase hq), hleaked⟩
    have hperm := (h.mapped.trans (howed.append_right leaked)).erase r
    rw [owed_cons _ hcode, List.cons_append, List.erase_cons_head] at hperm
    exact hperm

theorem Accounted.freeAll (h : Accounted tr s leaked) :
    Accounted (tr ++ [.freeAll s.held]) ⟨s.mapped, []⟩ (owed s.held ++ leaked) := by
  refine ⟨h.mapped, h.nodup, h.region, ?_⟩
  have howed : owed s.held = [] ↔ ¬ (Act.freeAll s.held).Leaks := by
    rw [owed, List.filter_eq_nil_iff]
    simp [Act.Leaks]
  rw [List.forall_mem_append, List.forall_mem_singleton, List.append_eq_nil_iff, h.leaked,
    and_comm, howed]

theorem accounted_of_reaches (h : client.Reaches tr s) : ∃ leaked, Accounted tr s leaked := by
  refine h.history (I := fun tr s => ∃ leaked, Accounted tr s leaked) ?_ ?_
  · rintro ⟨mapped, held⟩ ⟨rfl, rfl⟩
    exact ⟨[], List.Perm.nil, List.nodup_nil, nofun, by simp⟩
  · rintro tr s a t ⟨leaked, h⟩ hstep
    cases hstep with
    | alloc hanswer hcall => exact ⟨leaked, h.alloc hanswer hcall⟩
    | free hheld hcall =>
        rw [ciaAllocatorFree_eq] at hcall
        cases hcall
        exact h.free hheld
    | freeSize hheld hcall =>
        rw [ciaAllocatorFreeSize_eq] at hcall
        cases hcall
        exact ⟨leaked, h.freeSize hheld⟩
    | freeAll hcall =>
        rw [ciaAllocatorFreeAll_eq] at hcall
        cases hcall
        exact ⟨_, h.freeAll⟩

/-! ### Main result -/

/-- The accounts balance at the end of a run if and only if no call of it leaks. -/
theorem conserved_iff (h : client.Reaches tr s) : s.Conserved ↔ ∀ a ∈ tr, ¬ a.Leaks := by
  obtain ⟨leaked, hacc⟩ := accounted_of_reaches h
  rw [← hacc.leaked]
  constructor
  · intro hconserved
    by_contra hne
    obtain ⟨r, rest, rfl⟩ := List.exists_cons_of_ne_nil hne
    have hmapped : r ∈ s.mapped := hacc.mapped.mem_iff.mpr (by simp)
    have hnodup := hacc.mapped.nodup hacc.nodup
    exact List.disjoint_of_nodup_append hnodup ((hconserved r).mp hmapped) List.mem_cons_self
  · rintro rfl r
    rw [hacc.mapped.mem_iff, List.append_nil]

def page : Region := (0x10000, 4096)

/-- A page is mapped and given to the client. -/
theorem reaches_alloc : client.Reaches [.alloc 4096 16 0x10000] ⟨[page], [page]⟩ := by
  refine ⟨⟨[], []⟩, ⟨rfl, rfl⟩, .single ?_⟩
  have hanswer : MmapAnswers [] 4096 0x10000 := .inr ⟨by decide, by decide, nofun⟩
  have hcall : ciaAllocatorAlloc (pages 0x10000) 4096 16 [] = .ok 0x10000 [page] := by
    rw [ciaAllocatorAlloc_eq]
    rfl
  exact Step.alloc (s := ⟨[], []⟩) hanswer hcall

theorem reaches_alloc_freeSize :
    client.Reaches [.alloc 4096 16 0x10000, .freeSize page] ⟨[], []⟩ := by
  refine reaches_alloc.trans (.single ?_)
  have hcall : ciaAllocatorFreeSize (pages 0) page.1 page.2 [page] = .ok () [] := by
    rw [ciaAllocatorFreeSize_eq]
    rfl
  exact Step.freeSize (s := ⟨[page], [page]⟩) List.mem_cons_self hcall

theorem reaches_alloc_free :
    client.Reaches [.alloc 4096 16 0x10000, .free page] ⟨[page], []⟩ := by
  refine reaches_alloc.trans (.single ?_)
  have hcall : ciaAllocatorFree (pages 0) page.1 [page] = .ok () [page] :=
    ciaAllocatorFree_eq _ _ _
  exact Step.free (s := ⟨[page], [page]⟩) List.mem_cons_self hcall

theorem conserved_iff_freeSize :
    (⟨[], []⟩ : State).Conserved ↔
      ∀ a ∈ [.alloc 4096 16 0x10000, .freeSize page], ¬ Act.Leaks a :=
  conserved_iff reaches_alloc_freeSize

/-- The size of the region is not known to `munmap`, which fails, and nobody reads that. -/
theorem conserved_fails : ∃ tr s, client.Reaches tr s ∧ ¬ s.Conserved := by
  refine ⟨_, _, reaches_alloc_free, ?_⟩
  intro hconserved
  exact List.not_mem_nil ((hconserved page).mp List.mem_cons_self)

end Ciabatta.CiaMem.Pages
