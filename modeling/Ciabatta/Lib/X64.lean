import Ciabatta.Lib.ByteMemory

/-!
x86-64 code with loops and calls, on all sixteen general registers. A program is a
list of instructions, and a jump goes to a position in it. Calls, returns and system
calls leave the program: the machine stands before them, and what they come back
with is up to the one who goes on from there. Of the flags there are the two that
the conditional instructions here read. The machine notes the address of each store.
-/

namespace X64

open ByteMemory

inductive Reg
  | rax
  | rbx
  | rcx
  | rdx
  | rsi
  | rdi
  | rbp
  | rsp
  | r8
  | r9
  | r10
  | r11
  | r12
  | r13
  | r14
  | r15
  deriving DecidableEq

inductive Operand
  | reg (r : Reg)
  | imm (v : Word)
  deriving DecidableEq

/-- The instructions; a call names its target by a symbol. -/
inductive Instr (κ : Type)
  | mov (dst : Reg) (src : Operand)
  | load (dst base : Reg) (disp : Word)
  | loadGs (dst : Reg) (disp : Word)
  | store (base : Reg) (disp : Word) (src : Reg)
  | storeByte (base : Reg) (disp : Word) (v : Byte)
  | lea (dst base : Reg) (disp : Word)
  | add (dst : Reg) (src : Operand)
  | sub (dst : Reg) (src : Operand)
  | and (dst : Reg) (src : Operand)
  | andLow16 (dst : Reg) (mask : BitVec 16)
  | xor (dst : Reg) (src : Operand)
  | cmp (left right : Reg)
  | testLow32 (left right : Reg)
  | cmovb (dst src : Reg)
  | jnb (target : ℕ)
  | jnz (target : ℕ)
  | pop (dst : Reg)
  | call (target : κ)
  | syscall
  | hlt
  | ret
  deriving DecidableEq

structure State where
  pc : ℕ
  regs : Reg → Word
  /-- `CF` -/
  below : Bool
  /-- `ZF` -/
  zero : Bool
  gsBase : Word
  mem : Mem
  /-- Where the machine has stored, oldest address first. -/
  stored : List Word

namespace State

def get (s : State) : Operand → Word
  | .reg r => s.regs r
  | .imm v => v

def set (s : State) (r : Reg) (v : Word) : State :=
  { s with regs := Function.update s.regs r v }

def flags (s : State) (below zero : Bool) : State :=
  { s with below := below, zero := zero }

def next (s : State) : State :=
  { s with pc := s.pc + 1 }

def jump (s : State) (taken : Bool) (target : ℕ) : State :=
  if taken then { s with pc := target } else s.next

def storeTo (s : State) (a : Word) (mem : Mem) : State :=
  { s with mem := mem, stored := s.stored ++ [a] }

/-- A result, with the flags of a logical instruction. -/
def logical (s : State) (r : Reg) (v : Word) : State :=
  ((s.set r v).flags false (v == 0)).next

end State

variable {κ : Type}

/-- The state after the instruction; none where the program is left. -/
def Instr.exec (s : State) : Instr κ → Option State
  | .mov dst src => some (s.set dst (s.get src)).next
  | .load dst base disp => some (s.set dst (load64 s.mem (s.regs base + disp))).next
  | .loadGs dst disp => some (s.set dst (load64 s.mem (s.gsBase + disp))).next
  | .store base disp src =>
      some (s.storeTo (s.regs base + disp)
        (store64 s.mem (s.regs base + disp) (s.regs src))).next
  | .storeByte base disp v =>
      some (s.storeTo (s.regs base + disp)
        (Function.update s.mem (s.regs base + disp) v)).next
  | .lea dst base disp => some (s.set dst (s.regs base + disp)).next
  | .add dst src =>
      let v := s.regs dst + s.get src
      some ((s.set dst v).flags (decide (v < s.regs dst)) (v == 0)).next
  | .sub dst src =>
      let v := s.regs dst - s.get src
      some ((s.set dst v).flags (decide (s.regs dst < s.get src)) (v == 0)).next
  | .and dst src => some (s.logical dst (s.regs dst &&& s.get src))
  | .andLow16 dst mask =>
      let low := (s.regs dst).setWidth 16 &&& mask
      let v := (s.regs dst &&& 0xffffffffffff0000) ||| low.setWidth 64
      some ((s.set dst v).flags false (low == 0)).next
  | .xor dst src => some (s.logical dst (s.regs dst ^^^ s.get src))
  | .cmp left right =>
      some (s.flags (decide (s.regs left < s.regs right)) (s.regs left == s.regs right)).next
  | .testLow32 left right =>
      some (s.flags false ((s.regs left &&& s.regs right).setWidth 32 == 0)).next
  | .cmovb dst src => some (if s.below then s.set dst (s.regs src) else s).next
  | .jnb target => some (s.jump (!s.below) target)
  | .jnz target => some (s.jump (!s.zero) target)
  | .pop dst =>
      some ((s.set .rsp (s.regs .rsp + 8)).set dst (load64 s.mem (s.regs .rsp))).next
  | .call _ => none
  | .syscall => none
  | .hlt => none
  | .ret => none

def step (code : List (Instr κ)) (s : State) : Option State :=
  code[s.pc]?.bind (Instr.exec s)

/-- `n` instructions, if the program goes as far. -/
def steps (code : List (Instr κ)) : ℕ → State → Option State
  | 0, s => some s
  | n + 1, s => (step code s).bind (steps code n)

/-- The machine stands before the instruction `i`. -/
def At (code : List (Instr κ)) (s : State) (i : Instr κ) : Prop :=
  code[s.pc]? = some i

/-- A run of the program comes from `s` to a state with `P`. -/
inductive Leads (code : List (Instr κ)) (P : State → Prop) : State → Prop
  | here {s : State} (h : P s) : Leads code P s
  | step {s t : State} (h : step code s = some t) (ht : Leads code P t) : Leads code P s

variable {code : List (Instr κ)} {P Q : State → Prop} {s t : State} {n : ℕ}

theorem Leads.of_steps (h : steps code n s = some t) (ht : Leads code P t) : Leads code P s := by
  induction n generalizing s with
  | zero =>
      cases h
      exact ht
  | succ n ih =>
      obtain ⟨u, hu, hrest⟩ := Option.bind_eq_some_iff.mp h
      exact .step hu (ih hrest)

theorem Leads.trans (h : Leads code Q s) (hQ : ∀ t, Q t → Leads code P t) : Leads code P s := by
  induction h with
  | here h => exact hQ _ h
  | step hstep _ ih => exact .step hstep ih

end X64
