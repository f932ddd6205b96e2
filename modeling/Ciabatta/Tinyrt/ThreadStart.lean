import Ciabatta.Lib.X64
import Ciabatta.Tinyrt.ThreadLayout

/-!
`_rt_thread_start` (`thread-entry.asm`), the only place where a thread begins. It
puts the thread function and its argument on the stack of the child and makes the
`clone` system call, which comes back twice: the parent returns to the caller, and
the child calls the function through `_rt_thread_setup` and ends in
`_rt_thread_finish`.
-/

namespace Ciabatta.Tinyrt.ThreadStart

open ByteMemory X64
open ThreadLayout (sizeofStartData)

inductive Symbol
  | rtThreadSetup
  | rtThreadFinish
  deriving DecidableEq

def sysClone : Word := 56

/-- `_rt_thread_start`. The label `.exit` is position 18. -/
def rtThreadStart : List (Instr Symbol) :=
  [.mov .r10 (.reg .rcx),
    .sub .rsi (.imm 24),
    .load .rax .rsp 0,
    .store .rsi 16 .rax,
    .load .rax .rsp 8,
    .store .rsi 8 .rax,
    .store .rsi 0 .r9,
    .mov .rax (.imm sysClone),
    .syscall,
    .testLow32 .rax .rax,
    .jnz 18,
    .pop .rdi,
    .pop .rsi,
    .and .rsp (.imm 0xfffffffffffffff0),
    .call .rtThreadSetup,
    .mov .rdi (.reg .rax),
    .call .rtThreadFinish,
    .hlt,
    -- .exit:
    .ret]

/-- The registers that a function gives back as it found them. -/
def calleeSaved : List Reg :=
  [.rbx, .rbp, .rsp, .r12, .r13, .r14, .r15]

/-- The system call keeps these, too. -/
theorem notMem_of_calleeSaved {q : Reg} (hq : q ∈ calleeSaved) : q ∉ [Reg.rax, .rcx, .r11] := by
  cases q <;> first | decide | exact absurd hq (by decide)

/-! ### The two sides of `clone` -/

/-- What the parent finds after the system call with the result `r`. The memory is
shared, and anything can have happened to it. -/
structure ParentResumes (sys t : X64.State) (r : Word) : Prop where
  pc : t.pc = sys.pc + 1
  rax : t.regs .rax = r
  kept : ∀ q, q ∉ [Reg.rax, .rcx, .r11] → t.regs q = sys.regs q

/-- What the child finds: its stack is the one that it was given, with the words that
the parent has left there. -/
structure ChildBegins (sys t : X64.State) : Prop where
  pc : t.pc = sys.pc + 1
  rax : t.regs .rax = 0
  rsp : t.regs .rsp = sys.regs .rsi
  kept : ∀ q, q ∉ [Reg.rax, .rcx, .r11, .rsp] → t.regs q = sys.regs q
  mem : ∀ x ∈ region (sys.regs .rsi) sizeofStartData, t.mem x = sys.mem x

/-- A function that was called at `u` has returned `v`. -/
structure HasReturned (u t : X64.State) (v : Word) : Prop where
  pc : t.pc = u.pc + 1
  rax : t.regs .rax = v
  rsp : t.regs .rsp = u.regs .rsp

/-! ### What is to be shown -/

/-- The stack pointer of the child, from the end of its stack. -/
def childStack (s : X64.State) : Word :=
  s.regs .rsi - BitVec.ofNat 64 sizeofStartData

/-- The seventh argument, above the return address. -/
def ctx (s : X64.State) : Word :=
  load64 s.mem (s.regs .rsp + 8)

/-- The machine stands before the system call that the arguments ask for. -/
structure AsksForThread (s sys : X64.State) : Prop where
  pc : sys.pc = 8
  syscall : At rtThreadStart sys .syscall
  number : sys.regs .rax = sysClone
  flags : sys.regs .rdi = s.regs .rdi
  stack : sys.regs .rsi = childStack s
  parentTid : sys.regs .rdx = s.regs .rdx
  childTid : sys.regs .r10 = s.regs .rcx
  tls : sys.regs .r8 = s.regs .r8
  saved : ∀ q ∈ calleeSaved, sys.regs q = s.regs q
  threadFn : load64 sys.mem (childStack s) = s.regs .r9
  ctx : load64 sys.mem (childStack s + 8) = ctx s
  frame : ∀ x, x ∉ region (childStack s) sizeofStartData → sys.mem x = s.mem x

/-- The parent is about to return `r`. -/
structure ReturnsToParent (s t u : X64.State) (r : Word) : Prop where
  ret : At rtThreadStart u .ret
  rax : u.regs .rax = r
  saved : ∀ q ∈ calleeSaved, u.regs q = s.regs q
  mem : u.mem = t.mem

/-- The child is about to call `_rt_thread_setup` with the function and its argument. -/
structure CallsSetup (s u : X64.State) : Prop where
  pc : u.pc = 14
  call : At rtThreadStart u (.call .rtThreadSetup)
  threadFn : u.regs .rdi = s.regs .r9
  ctx : u.regs .rsi = ctx s
  aligned : 16 ∣ (u.regs .rsp).toNat

/-- The child is about to call `_rt_thread_finish` with the exit code. -/
structure CallsFinish (u : X64.State) (code : Word) : Prop where
  call : At rtThreadStart u (.call .rtThreadFinish)
  code : u.regs .rdi = code
  aligned : 16 ∣ (u.regs .rsp).toNat

variable {s sys t u : X64.State} {r v : Word}

/-! ### The child's stack -/

theorem dvd_and_neg_sixteen (a : Word) : 16 ∣ (a &&& 0xfffffffffffffff0).toNat := by
  have hsixteen : (16 : Word).toNat = 2 ^ 4 := rfl
  have hand : (a &&& 0xfffffffffffffff0).toNat = a.toNat / 16 * 16 :=
    Layout.toNat_and_not_pred hsixteen
  exact hand ▸ Nat.dvd_mul_left _ _

/-- The memory with the words for the child at `b`, which the parent has loaded from its
own stack at `a`. -/
def childMem (m : Mem) (a b threadFn : Word) : Mem :=
  store64 (store64 (store64 m (b + 16) (load64 m (a + 0))) (b + 8)
    (load64 (store64 m (b + 16) (load64 m (a + 0))) (a + 8))) (b + 0) threadFn

section ChildMem

variable {m : Mem} {a b threadFn x : Word}

theorem region_add_subset_startData {k : ℕ} (hk : k + 8 ≤ 24) :
    region (b + BitVec.ofNat 64 k) 8 ⊆ region b sizeofStartData :=
  region_add_subset hk (by norm_num [sizeofStartData])

theorem load64_childMem : load64 (childMem m a b threadFn) b = threadFn := by
  rw [childMem, add_zero b, load64_store64]

theorem load64_childMem_add (happart : Disjoint (region b sizeofStartData) (region a 16)) :
    load64 (childMem m a b threadFn) (b + 8) = load64 m (a + 8) := by
  have hsecond : Disjoint (region (b + 8) 8) (region (b + 0) 8) := by
    rw [add_zero]
    exact disjoint_region_add (k := 8) (by norm_num)
  have hargument : Disjoint (region (a + 8) 8) (region (b + 16) 8) :=
    (happart.mono (region_add_subset_startData (k := 16) (by norm_num))
      (region_add_subset (k := 8) (by norm_num) (by norm_num))).symm
  rw [childMem, load64_store64_of_disjoint hsecond, load64_store64,
    load64_store64_of_disjoint hargument]

theorem childMem_of_notMem (hx : x ∉ region b sizeofStartData) :
    childMem m a b threadFn x = m x := by
  have hword {k : ℕ} (hk : k + 8 ≤ 24) : x ∉ region (b + BitVec.ofNat 64 k) 8 :=
    fun hmem => hx (region_add_subset_startData hk hmem)
  have hfirst : x ∉ region (b + 0) 8 := hword (k := 0) (by norm_num)
  have hsecond : x ∉ region (b + 8) 8 := hword (k := 8) (by norm_num)
  have hthird : x ∉ region (b + 16) 8 := hword (k := 16) (by norm_num)
  rw [childMem, store64_of_notMem hfirst, store64_of_notMem hsecond, store64_of_notMem hthird]

end ChildMem

/-! ### The run -/

theorem leads_asksForThread (hpc : s.pc = 0)
    (happart : Disjoint (region (childStack s) sizeofStartData) (region (s.regs .rsp) 16)) :
    Leads rtThreadStart (AsksForThread s) s := by
  obtain ⟨pc, regs, below, zero, gsBase, mem, stored⟩ := s
  obtain rfl : pc = 0 := hpc
  refine .of_steps (n := 8) rfl (.here ?_)
  exact {
    pc := rfl
    syscall := rfl
    number := rfl
    flags := rfl
    stack := rfl
    parentTid := rfl
    childTid := rfl
    tls := rfl
    saved := fun q hq => by cases q <;> first | rfl | exact absurd hq (by decide)
    threadFn := load64_childMem
    ctx := load64_childMem_add happart
    frame := fun x hx => childMem_of_notMem hx }

/-- Any result but 0 in `eax` leads to the `ret` of the parent. -/
theorem leads_returnsToParent (hsys : AsksForThread s sys) (ht : ParentResumes sys t r)
    (hr : r.setWidth 32 ≠ 0) : Leads rtThreadStart (fun u => ReturnsToParent s t u r) t := by
  obtain ⟨pc, regs, below, zero, gsBase, mem, stored⟩ := t
  obtain rfl : pc = 9 := ht.pc.trans (by rw [hsys.pc])
  obtain rfl : regs .rax = r := ht.rax
  have hzero : ((regs .rax &&& regs .rax).setWidth 32 == 0) = false := by
    rw [BitVec.and_self, beq_eq_false_iff_ne]
    exact hr
  refine .step rfl (.step (congrArg (fun z => some (State.jump _ (!z) 18)) hzero) (.here ?_))
  exact ⟨rfl, rfl, fun q hq => (ht.kept q (notMem_of_calleeSaved hq)).trans (hsys.saved q hq), rfl⟩

/-- A zero leads to the call of `_rt_thread_setup`. -/
theorem leads_callsSetup (hsys : AsksForThread s sys) (ht : ChildBegins sys t) :
    Leads rtThreadStart (CallsSetup s) t := by
  have hrsp : t.regs .rsp = childStack s := ht.rsp.trans hsys.stack
  have hword {k : ℕ} (hk : k + 8 ≤ 24) : load64 t.mem (childStack s + BitVec.ofNat 64 k)
      = load64 sys.mem (childStack s + BitVec.ofNat 64 k) := by
    refine load64_congr fun x hx => ht.mem x ?_
    rw [hsys.stack]
    exact region_add_subset_startData hk hx
  have hfirst : load64 t.mem (childStack s + 0) = load64 sys.mem (childStack s + 0) :=
    hword (k := 0) (by norm_num)
  have hsecond : load64 t.mem (childStack s + 8) = load64 sys.mem (childStack s + 8) :=
    hword (k := 8) (by norm_num)
  rw [add_zero, hsys.threadFn, ← hrsp] at hfirst
  rw [hsys.ctx, ← hrsp] at hsecond
  obtain ⟨pc, regs, below, zero, gsBase, mem, stored⟩ := t
  obtain rfl : pc = 9 := ht.pc.trans (by rw [hsys.pc])
  have hzero : ((regs .rax &&& regs .rax).setWidth 32 == 0) = true := by
    rw [show regs .rax = 0 from ht.rax]
    rfl
  refine .step rfl (.step (congrArg (fun z => some (State.jump _ (!z) 18)) hzero) ?_)
  exact .of_steps (n := 3) rfl (.here ⟨rfl, rfl, hfirst, hsecond, dvd_and_neg_sixteen _⟩)

/-- What `_rt_thread_setup` returns becomes the exit code. -/
theorem leads_callsFinish (hu : CallsSetup s u) (ht : HasReturned u t v) :
    Leads rtThreadStart (fun w => CallsFinish w v) t := by
  have haligned : 16 ∣ (t.regs .rsp).toNat := ht.rsp ▸ hu.aligned
  obtain ⟨pc, regs, below, zero, gsBase, mem, stored⟩ := t
  obtain rfl : pc = 15 := ht.pc.trans (by rw [hu.pc])
  exact .step rfl (.here ⟨rfl, ht.rax, haligned⟩)

/-! ### Main result -/

/-- `_rt_thread_start` makes the system call that its arguments ask for. The parent then
returns what the call has returned, and the child runs the thread function on its argument
and finishes with what this returns. -/
structure StartsThread (s : X64.State) : Prop where
  asks : Leads rtThreadStart (AsksForThread s) s
  parent : ∀ sys t r, AsksForThread s sys → ParentResumes sys t r → r.setWidth 32 ≠ 0 →
    Leads rtThreadStart (fun u => ReturnsToParent s t u r) t
  child : ∀ sys t, AsksForThread s sys → ChildBegins sys t →
    Leads rtThreadStart (CallsSetup s) t
  finish : ∀ u t v, CallsSetup s u → HasReturned u t v →
    Leads rtThreadStart (fun w => CallsFinish w v) t

theorem startsThread (hpc : s.pc = 0)
    (happart : Disjoint (region (childStack s) sizeofStartData) (region (s.regs .rsp) 16)) :
    StartsThread s where
  asks := leads_asksForThread hpc happart
  parent _ _ _ hsys ht hr := leads_returnsToParent hsys ht hr
  child _ _ hsys ht := leads_callsSetup hsys ht
  finish _ _ _ hu ht := leads_callsFinish hu ht

/-- A caller with its stack at `0x7ffe00000000`, which gives the child one that ends at
`0x7f0000200000`. -/
def callerState : X64.State where
  pc := 0
  regs r := if r = .rsp then 0x7ffe00000000 else if r = .rsi then 0x7f0000200000 else 0
  below := false
  zero := false
  gsBase := 0
  mem := fun _ => 0
  stored := []

theorem startsThread_callerState : StartsThread callerState := by
  refine startsThread rfl ((disjoint_region_iff ?_ ?_ ?_ ?_).mpr ?_) <;> decide

end Ciabatta.Tinyrt.ThreadStart
