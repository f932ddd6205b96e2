import Ciabatta.Lib.Exec

/-!
`src/stdlib-program/program.c`, and `_start` of `os/linux/entry.c`. The two
tables of exit handlers are static variables. What the rest of the library does
for `_start` is recorded in the log, and so is each handler that is called.
-/

namespace Ciabatta.StdlibProgram

open ByteMemory Exec

/-- The two tables, each with a registration function and an exit of its own. -/
inductive Registry
  | atexit
  | atQuickExit
  deriving DecidableEq

def maxAtexitHandlers : ℕ := 32

def maxAtQuickExitHandlers : ℕ := 32

def Registry.capacity : Registry → ℕ
  | .atexit => maxAtexitHandlers
  | .atQuickExit => maxAtQuickExitHandlers

/-- An array of function pointers with the number of its entries in use. -/
structure HandlerTable (capacity : ℕ) where
  handlers : Vector Word capacity
  count : Word
  count_le : count.toNat ≤ capacity

def sysExitNumber : ℕ := 60

inductive ProgramEvent
  | fileapiInit
  | threadsSetup
  | cancellAllRunning
  /-- A call through a pointer of a table. -/
  | handler (func : Word)
  | syscall (number : ℕ) (arg : BitVec 32)
  deriving DecidableEq

/-- `_LD_CRT_Params`, as far as `_start` reads it. -/
structure LdCrtParams where
  stackSize : Word
  tlsImageSize : Word
  tlsImageBase : Word

structure Program where
  tables : (r : Registry) → HandlerTable r.capacity
  /-- `cia_stack_size`, `cia_tls_image_size` and `cia_tls_image_base`. -/
  params : LdCrtParams
  /-- Oldest event first. -/
  log : List ProgramEvent

abbrev ProgramM := EStateM Stop Program

def Program.record (s : Program) (e : ProgramEvent) : Program :=
  { s with log := s.log ++ [e] }

def recordEvent (e : ProgramEvent) : ProgramM Unit := fun s => .ok () (s.record e)

/-! ### Registration -/

/-- `atexit` and `at_quick_exit` on their table: the result, and the table. -/
def HandlerTable.add {capacity : ℕ} (table : HandlerTable capacity) (func : Word) :
    ℤ × HandlerTable capacity :=
  if h : table.count.toNat = capacity then
    (capacity, table)
  else
    have hlt : table.count.toNat < capacity := lt_of_le_of_ne table.count_le h
    (0,
      { handlers := table.handlers.set table.count.toNat func hlt
        count := table.count + 1
        count_le := by
          rw [BitVec.toNat_add, show (1 : Word).toNat = 1 from rfl]
          omega })

def register (r : Registry) (func : Word) : ProgramM ℤ := fun s =>
  let added := (s.tables r).add func
  .ok added.1 { s with tables := Function.update s.tables r added.2 }

def atexit (func : Word) : ProgramM ℤ :=
  register .atexit func

def atQuickExit (func : Word) : ProgramM ℤ :=
  register .atQuickExit func

/-! ### The exits -/

/-- The call does not return: it ends the thread. -/
def sysExit {α : Type} (code : BitVec 32) : ProgramM α := do
  recordEvent (.syscall sysExitNumber code)
  throw (.exit code)

def rtProgramExit {α : Type} (code : BitVec 32) : ProgramM α :=
  sysExit code

/-- `i--` on an `i64`. -/
def decrementInt64 {σ : Type} (i : ℤ) : EStateM Stop σ ℤ :=
  if -2 ^ 63 < i then pure (i - 1) else throw .signedOverflow

def HandlerTable.get {capacity : ℕ} (table : HandlerTable capacity) (i : ℤ) : ProgramM Word :=
  if h : 0 ≤ i ∧ i.toNat < capacity then
    pure (table.handlers.get ⟨i.toNat, h.2⟩)
  else
    throw .outOfBounds

/-- A round of the loop in `exit` and `quick_exit`. The condition compares `i` as
it was before the decrement. -/
def callHandlersRound (r : Registry) (i : ℤ) : ProgramM (ℤ ⊕ Unit) := do
  let next ← decrementInt64 i
  if i > 0 then do
    let s ← get
    let handler ← (s.tables r).get next
    recordEvent (.handler handler)
    return .inl next
  else
    return .inr ()

/-- The first value of `i` is a `u64` difference. Each round lowers `i`, which
bounds their number. -/
def callHandlers (r : Registry) : ProgramM Unit := do
  let s ← get
  let i := ((s.tables r).count - 1).toInt
  loop (callHandlersRound r) (i.toNat + 1) i

def exit {α : Type} (code : BitVec 32) : ProgramM α := do
  callHandlers .atexit
  rtProgramExit code

def quickExit {α : Type} (code : BitVec 32) : ProgramM α := do
  callHandlers .atQuickExit
  rtProgramExit code

/-- `_Exit` -/
def exitNow {α : Type} (code : BitVec 32) : ProgramM α :=
  rtProgramExit code

def abort {α : Type} : ProgramM α :=
  rtProgramExit 1

/-! ### The entry point -/

/-- `_start` up to the call of `main`. -/
def startup (params : LdCrtParams) : ProgramM Unit := do
  modify fun s => { s with params := params }
  recordEvent .fileapiInit
  recordEvent .threadsSetup

/-- `_start`, with a program for its `main`. -/
def start {α : Type} (params : LdCrtParams) (main : ProgramM (BitVec 32)) : ProgramM α := do
  startup params
  let code ← main
  recordEvent .cancellAllRunning
  sysExit code

/-- The static variables before the program starts. -/
def Program.initial : Program where
  tables _ := ⟨.replicate _ 0, 0, Nat.zero_le _⟩
  params := ⟨0, 0, 0⟩
  log := []

end Ciabatta.StdlibProgram
