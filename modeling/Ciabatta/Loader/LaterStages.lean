import Ciabatta.Loader.SelfLoading
import Ciabatta.Loader.Stack
import Ciabatta.Loader.Trampoline
import Ciabatta.Tinyrt.ThreadLayout

/-!
The loader from `ld_stage2_entry` (`loader.c`) to the call of the program. It looks
for the program in the headers that the kernel has mapped, relocates it, changes the
stack and sets up the thread block; with its own data in locals and in structures of
its pools it deals as with values here. A loader that is run as a command stops: it
cannot load a file.
-/

namespace Ciabatta.Loader

open ByteMemory Exec StdlibProgram Tinyrt

def atExecfn : Fin 32 := Fin.last 31

def ptPhdr : BitVec 32 := 6

/-- The member of `Elf64_Ehdr`, by its address. -/
def eEntry (eh : Word) : Word := eh + 24

/-- The members of `_LD_Thread_Block`, by their address. -/
def threadId (tcb : Word) : Word := tcb
def stackCanary (tcb : Word) : Word := tcb + 0x28

/-- What the loader gets from outside: the results of its calls, the registers that
it has at the call of the trampoline, and what its structures hold before it writes
to them. -/
structure Surroundings where
  /-- `sys_open` on the name of the program -/
  execFd : ℤ
  /-- `/proc/self/maps` -/
  maps : MapsState
  /-- `sys_mmap`; the source does not check it. -/
  newStack : Word
  archPrctl : BitVec 32
  rax : Word
  rsp : Word
  /-- `&ld_stage3_entry` and `stage3` -/
  stage3Entry : Word
  stage3 : Word
  appBase : Word
  tlsImage : Word

/-- The call of the program. -/
structure Handover where
  entry : Word
  params : LdCrtParams
  /-- What `%fs` points to. -/
  threadPointer : Word
  /-- `rsp` at the call of `ld_stage3_entry` -/
  rsp : Word

/-! ### `ld_stage2_entry` -/

/-- A round of a loop over `u64 i` that visits the headers. -/
def headersRound {α : Type} (visit : Word → α → Exec Call α) (phdr phEnt phNum : Word) :
    Word × α → Exec Call ((Word × α) ⊕ α)
  | (i, a) =>
      if i < phNum then do
        let phOff := i * phEnt
        let a ← visit (phdr + phOff) a
        return .inl (i + 1, a)
      else
        return .inr a

/-- All headers that the auxiliary vector tells of. -/
def visitHeaders {α : Type} (visit : Word → α → Exec Call α) (fuel : ℕ) (aux : AuxTable) (a : α) :
    Exec Call α :=
  loop (headersRound visit (aux atPhdr) (aux atPhent) (aux atPhnum)) fuel (0, a)

def visitPhdr (aux : AuxTable) (ph base : Word) : Exec Call Word := do
  let type ← loadInt (pType ph)
  if type = ptPhdr then do
    let vaddr ← loadWord (pVaddr ph)
    return aux atPhdr - vaddr
  else
    return base

def visitDynamic (ph phDynamic : Word) : Exec Call Word := do
  let type ← loadInt (pType ph)
  if type = ptDynamic then
    return ph
  else
    return phDynamic

/-- The program that the kernel has mapped. -/
def mappedApp (fuel : ℕ) (aux : AuxTable) (appBase : Word) : Exec Call ElfImage := do
  let base ← visitHeaders (visitPhdr aux) fuel aux appBase
  return ⟨base, aux atPhdr, aux atPhnum, aux atPhent⟩

def elfLoad : Exec Call ElfImage := do
  printf "ERROR: image loading from file not implemented\n" []
  sysExit 1

/-- The program that the loader is to load itself. -/
def openedApp (fd : ℤ) (filename : Word) : Exec Call ElfImage :=
  if filename = 0 then do
    printf "ERROR: no data about the executable to load dynamically\n" []
    sysExit 1
  else if fd < 0 then do
    printf "ERROR: cannot open file %s\n" [filename]
    sysExit 1
  else
    elfLoad

/-- The `.dynamic` section of the program. Without its header the source reads the
address from a `NULL` header. -/
def appDynv (fuel : ℕ) (aux : AuxTable) (app : ElfImage) : Exec Call Word := do
  let phDynamic ← visitHeaders visitDynamic fuel aux 0
  let vaddr ← loadWord (pVaddr phDynamic)
  return elfAddr app.base vaddr

/-- `linux_read_stack_info`, which does not touch the memory that is modelled. -/
def readStackInfo (fuel : ℕ) (maps : MapsState) : Exec Call (ℤ × StackInfo) := fun s =>
  match linuxReadStackInfo fuel maps with
  | .ok status maps' => .ok (status, maps'.stackInfo) s
  | .error e _ => .error e s

/-- The registers at the call of the trampoline. -/
def trampolineRegs (w : Surroundings) (stack : StackInfo) : X86.Regs where
  rax := w.rax
  rdi := w.newStack
  rsi := stack.startAddr
  rdx := 0x200000
  rcx := stack.endAddr - stack.startAddr
  rsp := w.rsp
  r8 := w.stage3Entry
  r9 := w.stage3

/-- The memory and the registers of the trampoline, if it stands before a call. -/
def leaveTrampoline (t : X86.State) : Exec Call X86.Regs := fun s =>
  match Trampoline.ldStackTrampoline[t.pc]? with
  | some (.call _) => .ok t.regs { s with mem := t.mem }
  | _ => .error .outOfFuel s

/-- The trampoline on the memory, up to its call. -/
def callTrampoline (fuel : ℕ) (regs : X86.Regs) : Exec Call X86.Regs := do
  let s ← get
  leaveTrampoline (X86.run Trampoline.ldStackTrampoline fuel ⟨0, regs, false, s.mem⟩)

/-! ### `ld_stage3_entry` -/

def storeInt (a : Word) (v : BitVec 32) : Exec Call Unit := fun s =>
  .ok () { s.record (.store a 4) with mem := store32 s.mem a v }

def storeBlock (tcb : Word) : Exec Call Unit := do
  storeInt (threadId tcb) 0
  storeWord (stackCanary tcb) 0x12345678fedcba98

/-- The end of `ld_stage3_entry`, from `sys_arch_prctl` on. -/
def enterProgram (archPrctl : BitVec 32) (info : Stage3Info) (tcb rsp : Word)
    (params : LdCrtParams) : Exec Call Handover :=
  if archPrctl.slt 0 then do
    printf "ERROR: failed to set up the thread pointer\n" []
    sysExit 1
  else do
    let entry ← loadWord (eEntry info.app.base)
    return ⟨elfAddr info.app.base entry, params, tcb, rsp⟩

def ldStage3Entry (fuel : ℕ) (hasNewStack rsp : Word) (archPrctl : BitVec 32)
    (info : Stage3Info) : Exec Call Handover :=
  if hasNewStack = 0 then do
    printf "ERROR: failed to switch the stack\n" []
    sysExit 1
  else do
    let tcb := ThreadLayout.ldStage3Tcb info.stackBase info.stackSize info.tlsSize
    storeBlock tcb
    let params ← ldStage3Tls fuel info tcb
    enterProgram archPrctl info tcb rsp params

/-- From the relocation of the program on. -/
def switchAndEnter (fuel : ℕ) (w : Surroundings) (app : ElfImage) : Exec Call Handover := do
  let s ← get
  let (status, stack) ← readStackInfo fuel w.maps
  if status ≠ 0 then do
    printf "ERROR: failed to read /proc/self/maps to get the stack info\n" []
    sysExit 1
  else do
    let stage3 := ldStage2Info s.mem app w.newStack w.tlsImage
    let regs ← callTrampoline fuel (trampolineRegs w stack)
    ldStage3Entry fuel regs.rdi regs.rsp w.archPrctl stage3

/-- `dyn` holds anything at first. -/
def ldStage2Entry (fuel : ℕ) (w : Surroundings) (info : LoaderInfo) (dyn : DynTable) :
    Exec Call Handover := do
  let aux := info.aux
  let app ← (if aux atPhdr ≠ info.ldsoBase then mappedApp fuel aux w.appBase
    else openedApp w.execFd (aux atExecfn))
  let dynv ← appDynv fuel aux app
  let dyn ← decodeDynv Stage2.storeEntry fuel dynv dyn
  ldStage2Relocate fuel app.base dyn
  switchAndEnter fuel w app

/-- The loader from its first instruction in C to the call of the program. -/
def ldEntry (fuel : ℕ) (w : Surroundings) (sp dynv : Word) (aux : AuxTable)
    (dyn dyn' : DynTable) : Exec Call Handover := do
  let info ← ldStage1Entry fuel sp dynv aux dyn
  ldStage2Entry fuel w info dyn'

/-! ### The headers of the program -/

/-- The last header of a type. -/
def lastHeader (m : Mem) (aux : AuxTable) (type : BitVec 32) : Option Word :=
  ((List.range (aux atPhnum).toNat).map (phdrsEntry aux)).reverse.find? fun ph =>
    load32 m (pType ph) = type

variable {α : Type} {m : Mem} {aux : AuxTable} {type : BitVec 32} {base ph : Word} {fuel : ℕ}
  {s : Machine Call}

/-- A loop that keeps the value of the last element with `p`. -/
theorem foldl_eq_of_last {β : Type} (p : β → Prop) [DecidablePred p] (f : β → α) (l : List β)
    (a : α) : l.foldl (fun a b => if p b then f b else a) a
      = ((l.reverse.find? fun b => p b).map f).getD a := by
  induction l using List.reverseRecOn with
  | nil => rfl
  | append_singleton l b ih =>
      rw [List.foldl_append, List.reverse_concat, List.find?_cons, List.foldl_cons, List.foldl_nil]
      by_cases hb : p b
      · simp [hb]
      · simp [hb, ih]

theorem yields_visitHeaders {visit : Word → α → Exec Call α} {f : Word → α → α}
    (hvisit : ∀ ph a t, t.mem = m → Yields (visit ph a) t fun b u => b = f ph a ∧ u.mem = m)
    (a : α) (hs : s.mem = m) (hfuel : (aux atPhnum).toNat < fuel) :
    Yields (visitHeaders visit fuel aux a) s fun b t =>
      b = ((List.range (aux atPhnum).toNat).map (phdrsEntry aux)).foldl (fun a ph => f ph a) a ∧
        t.mem = m := by
  have hnum := (aux atPhnum).isLt
  have hcounts : Counts (2 ^ 64) (aux atPhnum).toNat
      (fun i b t => b = (BitVec.ofNat 64 i,
        ((List.range i).map (phdrsEntry aux)).foldl (fun a ph => f ph a) a) ∧ t.mem = m)
      (fun b t => b = ((List.range (aux atPhnum).toNat).map (phdrsEntry aux)).foldl
        (fun a ph => f ph a) a ∧ t.mem = m)
      (headersRound visit (aux atPhdr) (aux atPhent) (aux atPhnum)) := by
    constructor
    · rintro i _ t ⟨rfl, ht⟩ hlt hnext
      refine .ite_pos ((ofNat_lt_iff (by omega)).mpr hlt) ((hvisit _ _ t ht).bind ?_)
      rintro _ u ⟨rfl, hu⟩
      refine yields_pure ⟨_, rfl, ?_, hu⟩
      rw [List.range_succ, List.map_append, List.foldl_append, BitVec.ofNat_add]
      rfl
    -- a 64-bit number counts them all
    · rintro i b t - hlt hnext
      exact absurd (Nat.lt_of_le_of_lt hlt hnum) hnext
    · rintro _ t ⟨rfl, ht⟩
      refine .ite_neg ?_ (yields_pure ⟨_, rfl, rfl, ht⟩)
      rw [ofNat_lt_iff hnum]
      exact lt_irrefl _
  exact hcounts.yields hnum ⟨rfl, hs⟩ (Nat.zero_le _) (by omega)

theorem yields_pType (hs : s.mem = m) : Yields (loadInt (pType ph) : Exec Call (BitVec 32)) s
    fun type t => type = load32 m (pType ph) ∧ t.mem = m :=
  ⟨_, _, rfl, by rw [hs], hs⟩

theorem yields_visitPhdr (hs : s.mem = m) : Yields (visitPhdr aux ph base) s fun b t =>
    b = (if load32 m (pType ph) = ptPhdr then aux atPhdr - load64 m (pVaddr ph) else base) ∧
      t.mem = m := by
  refine (yields_pType hs).bind ?_
  rintro _ t ⟨rfl, ht⟩
  by_cases htype : load32 m (pType ph) = ptPhdr
  · refine .ite_pos htype (.loadWord_bind (yields_pure ⟨?_, ht⟩))
    rw [if_pos htype, ht]
  · refine .ite_neg htype (yields_pure ⟨?_, ht⟩)
    rw [if_neg htype]

theorem yields_visitDynamic {phDynamic : Word} (hs : s.mem = m) :
    Yields (visitDynamic ph phDynamic) s fun b t =>
      b = (if load32 m (pType ph) = ptDynamic then ph else phDynamic) ∧ t.mem = m := by
  refine (yields_pType hs).bind ?_
  rintro _ t ⟨rfl, ht⟩
  by_cases htype : load32 m (pType ph) = ptDynamic
  · refine .ite_pos htype (yields_pure ⟨?_, ht⟩)
    rw [if_pos htype]
  · refine .ite_neg htype (yields_pure ⟨?_, ht⟩)
    rw [if_neg htype]

/-- The base comes from the last `PT_PHDR` header. -/
theorem yields_mappedApp {appBase : Word} (hph : lastHeader m aux ptPhdr = some ph)
    (hs : s.mem = m) (hfuel : (aux atPhnum).toNat < fuel) :
    Yields (mappedApp fuel aux appBase) s fun app t =>
      app = ⟨aux atPhdr - load64 m (pVaddr ph), aux atPhdr, aux atPhnum, aux atPhent⟩ ∧
        t.mem = m := by
  refine (yields_visitHeaders (fun _ _ _ => yields_visitPhdr) appBase hs hfuel).bind ?_
  rintro _ t ⟨rfl, ht⟩
  rw [foldl_eq_of_last (fun ph => load32 m (pType ph) = ptPhdr)
    (fun ph => aux atPhdr - load64 m (pVaddr ph))]
  rw [lastHeader] at hph
  rw [hph]
  exact yields_pure ⟨rfl, ht⟩

theorem yields_appDynv {app : ElfImage} (hph : lastHeader m aux ptDynamic = some ph)
    (hs : s.mem = m) (hfuel : (aux atPhnum).toNat < fuel) :
    Yields (appDynv fuel aux app) s fun dynv t =>
      dynv = app.base + load64 m (pVaddr ph) ∧ t.mem = m := by
  refine (yields_visitHeaders (fun _ _ _ => yields_visitDynamic) 0 hs hfuel).bind ?_
  rintro _ t ⟨rfl, ht⟩
  rw [foldl_eq_of_last (fun ph => load32 m (pType ph) = ptDynamic) (fun ph => ph)]
  rw [lastHeader] at hph
  rw [hph]
  refine .loadWord_bind (yields_pure ⟨?_, ht⟩)
  rw [ht]
  rfl

/-- A loader that finds its own headers in the auxiliary vector has been run as a
command; it ends in the error exit. -/
theorem stops_openedApp (fd : ℤ) (filename : Word) : Stops (openedApp fd filename) s (.exit 1) := by
  rw [openedApp]
  by_cases hname : filename = 0
  · rw [if_pos hname]
    exact ⟨_, rfl⟩
  · rw [if_neg hname]
    by_cases hfd : fd < 0
    · rw [if_pos hfd]
      exact ⟨_, rfl⟩
    · rw [if_neg hfd]
      exact ⟨_, rfl⟩

end Ciabatta.Loader
