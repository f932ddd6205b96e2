import Ciabatta.Lib.ByteMemory

/-!
A part of the x86-64 instructions, for straight code with forward jumps. A
program is a list of instructions, and a jump goes to a position in it. A call
leaves the program: the machine halts before it. Of the flags there is only what
`jl` reads, and only `cmp` sets it.
-/

namespace X86

open ByteMemory

inductive Reg
  | rax
  | rcx
  | rdx
  | rsi
  | rdi
  | rsp
  | r8
  | r9
  deriving DecidableEq

@[ext] structure Regs where
  rax : Word
  rcx : Word
  rdx : Word
  rsi : Word
  rdi : Word
  rsp : Word
  r8 : Word
  r9 : Word

def Regs.get (r : Regs) : Reg → Word
  | .rax => r.rax
  | .rcx => r.rcx
  | .rdx => r.rdx
  | .rsi => r.rsi
  | .rdi => r.rdi
  | .rsp => r.rsp
  | .r8 => r.r8
  | .r9 => r.r9

def Regs.set (r : Regs) (v : Word) : Reg → Regs
  | .rax => { r with rax := v }
  | .rcx => { r with rcx := v }
  | .rdx => { r with rdx := v }
  | .rsi => { r with rsi := v }
  | .rdi => { r with rdi := v }
  | .rsp => { r with rsp := v }
  | .r8 => { r with r8 := v }
  | .r9 => { r with r9 := v }

inductive Operand
  | reg (r : Reg)
  | imm (v : Word)
  deriving DecidableEq

inductive Instr
  | mov (dst : Reg) (src : Operand)
  | add (dst : Reg) (src : Operand)
  | sub (dst : Reg) (src : Operand)
  | and (dst : Reg) (src : Operand)
  | xor (dst : Reg) (src : Operand)
  | shr (dst : Reg) (count : ℕ)
  | cmp (left : Reg) (right : Operand)
  | jl (target : ℕ)
  | push (src : Reg)
  | pop (dst : Reg)
  | repMovsq
  | call (target : Reg)
  deriving DecidableEq

structure State where
  pc : ℕ
  regs : Regs
  /-- `SF ≠ OF` -/
  less : Bool
  mem : Mem

namespace State

def get (s : State) : Operand → Word
  | .reg r => s.regs.get r
  | .imm v => v

def set (s : State) (r : Reg) (v : Word) : State :=
  { s with regs := s.regs.set v r }

def next (s : State) : State :=
  { s with pc := s.pc + 1 }

/-- One round of `rep movsq`, with the direction flag clear. -/
def movsq (s : State) : State :=
  { s with
    regs := { s.regs with
      rsi := s.regs.rsi + 8
      rdi := s.regs.rdi + 8
      rcx := s.regs.rcx - 1 }
    mem := store64 s.mem s.regs.rdi (load64 s.mem s.regs.rsi) }

end State

/-- The state after the instruction; none where the program is left. -/
def Instr.exec (s : State) : Instr → Option State
  | .mov dst src => some (s.set dst (s.get src)).next
  | .add dst src => some (s.set dst (s.regs.get dst + s.get src)).next
  | .sub dst src => some (s.set dst (s.regs.get dst - s.get src)).next
  | .and dst src => some (s.set dst (s.regs.get dst &&& s.get src)).next
  | .xor dst src => some (s.set dst (s.regs.get dst ^^^ s.get src)).next
  | .shr dst count => some (s.set dst (s.regs.get dst >>> count)).next
  | .cmp left right => some { s.next with less := (s.regs.get left).slt (s.get right) }
  | .jl target => some (if s.less then { s with pc := target } else s.next)
  | .push src =>
      let top := s.regs.rsp - 8
      some { (s.set .rsp top).next with mem := store64 s.mem top (s.regs.get src) }
  | .pop dst =>
      some ((s.set .rsp (s.regs.rsp + 8)).set dst (load64 s.mem s.regs.rsp)).next
  | .repMovsq => some (State.movsq^[s.regs.rcx.toNat] s).next
  | .call _ => none

def step (code : List Instr) (s : State) : Option State :=
  code[s.pc]?.bind (Instr.exec s)

/-- At most `k` instructions, as far as the program goes. -/
def run (code : List Instr) : ℕ → State → State
  | 0, s => s
  | k + 1, s =>
      match step code s with
      | some t => run code k t
      | none => s

/-- The machine stands before a call of `target`. -/
def AtCall (code : List Instr) (target : Word) (s : State) : Prop :=
  ∃ r, code[s.pc]? = some (.call r) ∧ s.regs.get r = target

variable {code : List Instr} {s t : State} {target target' : Word} {n k : ℕ}

theorem AtCall.step_eq_none (h : AtCall code target s) : step code s = none := by
  obtain ⟨r, hcode, -⟩ := h
  rw [step, hcode]
  rfl

theorem run_of_step_eq_none (h : step code s = none) (k : ℕ) : run code k s = s := by
  cases k with
  | zero => rfl
  | succ k => rw [run, h]

theorem run_add (k n : ℕ) (s : State) : run code (k + n) s = run code n (run code k s) := by
  induction k generalizing s with
  | zero => rw [Nat.zero_add, run]
  | succ k ih =>
      rw [Nat.succ_add, run, run]
      cases hstep : step code s with
      | some t => exact ih t
      | none => exact (run_of_step_eq_none hstep n).symm

/-- There is one call that the program comes to. -/
theorem AtCall.run_eq (h : AtCall code target (run code k s))
    (h' : AtCall code target' (run code n s)) : run code k s = run code n s := by
  rcases Nat.le_total k n with hle | hle
  · obtain ⟨d, rfl⟩ := Nat.exists_eq_add_of_le hle
    rw [run_add, run_of_step_eq_none h.step_eq_none]
  · obtain ⟨d, rfl⟩ := Nat.exists_eq_add_of_le hle
    rw [run_add, run_of_step_eq_none h'.step_eq_none]

/-! ### The string move -/

/-- Where the two ranges are apart, `rep movsq` copies its words. -/
theorem movsq_iterate (hn : 8 * n ≤ 2 ^ 64)
    (hdisj : Disjoint (region s.regs.rsi (8 * n)) (region s.regs.rdi (8 * n))) :
    State.movsq^[n] s =
      { s with
        regs := { s.regs with
          rsi := s.regs.rsi + BitVec.ofNat 64 (8 * n)
          rdi := s.regs.rdi + BitVec.ofNat 64 (8 * n)
          rcx := s.regs.rcx - BitVec.ofNat 64 n }
        mem := copied s.mem s.regs.rdi s.regs.rsi (8 * n) } := by
  induction n with
  | zero => simp
  | succ n ih =>
      have hle : 8 * n ≤ 8 * (n + 1) := by omega
      have hrest := ih (by omega) (hdisj.mono (region_mono hle) (region_mono hle))
      have hword := store64_copied (m := s.mem) (n := 8 * n) (by omega) hdisj
      have hstep (a : Word) :
          a + BitVec.ofNat 64 (8 * n) + 8 = a + BitVec.ofNat 64 (8 * (n + 1)) := by
        rw [add_assoc, show (8 : Word) = BitVec.ofNat 64 8 from rfl, ← BitVec.ofNat_add,
          Nat.mul_succ]
      have hcount : s.regs.rcx - BitVec.ofNat 64 n - 1 = s.regs.rcx - BitVec.ofNat 64 (n + 1) := by
        rw [sub_sub, show (1 : Word) = BitVec.ofNat 64 1 from rfl, ← BitVec.ofNat_add]
      rw [Function.iterate_succ_apply', hrest, State.movsq]
      simp only [hword, hstep, hcount, Nat.mul_succ]

end X86
