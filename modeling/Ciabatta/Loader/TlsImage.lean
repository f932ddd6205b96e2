import Ciabatta.Lib.Layout
import Ciabatta.Loader.Relocation
import Ciabatta.StdlibProgram.Program
import Ciabatta.Tinyrt.ThreadLocal

/-!
The TLS image of a program on its way into the TLS block of each thread. The
loader finds it in the program headers, copies it for the main thread and passes
it on to the runtime, which copies it for the others. The thread block stands at
`tcb` in a mapping of its own; the headers are not written to in between.
-/

namespace Ciabatta.Loader

open ByteMemory Exec Layout StdlibProgram
open Tinyrt.ThreadLocal (copyImage copyImage_of_notMem)

/-- The members of `Elf_Image` that lead to the program headers. -/
structure ElfImage where
  base : Word
  phdr : Word
  phNum : Word
  phEnt : Word

def ptTls : BitVec 32 := 7

/-- The members of `Elf64_Phdr`, by their address. -/
def pType (ph : Word) : Word := ph
def pVaddr (ph : Word) : Word := ph + 16
def pFilesz (ph : Word) : Word := ph + 32
def pMemsz (ph : Word) : Word := ph + 40
def pAlign (ph : Word) : Word := ph + 48

/-- The loop that looks for the first `PT_TLS` header. -/
def phTls (m : Mem) (app : ElfImage) : Option Word :=
  ((List.range app.phNum.toNat).map fun i => app.phdr + BitVec.ofNat 64 i * app.phEnt).find?
    fun ph => load32 m (pType ph) = ptTls

/-- `tls_size` of `ld_stage2_entry` -/
def ldStage2TlsSize (m : Mem) (app : ElfImage) : Word :=
  match phTls m app with
  | none => 0
  | some ph => load64 m (pMemsz ph)

/-- `Stage3_Info_Struct` -/
structure Stage3Info where
  app : ElfImage
  stackBase : Word
  stackSize : Word
  tlsImage : Word
  tlsSize : Word

/-- What `ld_stage2_entry` passes on. It leaves `tls_image` as it is. -/
def ldStage2Info (m : Mem) (app : ElfImage) (stackBase tlsImage : Word) : Stage3Info where
  app := app
  stackBase := stackBase
  stackSize := 0x200000
  tlsImage := tlsImage
  tlsSize := ldStage2TlsSize m app

def copyRound (dst src size : Word) (i : ℕ) : Exec Call (ℕ ⊕ Unit) :=
  if BitVec.ofNat 64 i < size then do
    let byte ← loadByte (src + BitVec.ofNat 64 i)
    storeByte (dst + BitVec.ofNat 64 i) byte
    return .inl (← incrementInt i)
  else
    return .inr ()

/-- The loop over `int i` that copies the image, in the loader and in the runtime
alike. -/
def copyTls (fuel : ℕ) (dst src size : Word) : Exec Call Unit :=
  loop (copyRound dst src size) fuel 0

/-- The copy in `ld_stage3_entry`, with the header that it has found. It returns
`info->tls_image`. -/
def ldStage3CopyTls (fuel : ℕ) (info : Stage3Info) (tcb : Word) : Option Word → Exec Call Word
  | none => pure info.tlsImage
  | some ph => do
      let tlsImageBase := elfAddr info.app.base (← loadWord (pVaddr ph))
      let tlsImageSize ← loadWord (pMemsz ph)
      copyTls fuel (tcb - tlsImageSize) tlsImageBase tlsImageSize
      return tlsImageBase

/-- `ld_stage3_entry` from the copy of the image on. -/
def ldStage3Tls (fuel : ℕ) (info : Stage3Info) (tcb : Word) : Exec Call LdCrtParams := do
  let s ← get
  let tlsImage ← ldStage3CopyTls fuel info tcb (phTls s.mem info.app)
  return ⟨info.stackSize / 2, info.tlsSize, tlsImage⟩

/-- The copy in `_rt_thread_create`. `_start` has kept the parameters. -/
def rtThreadCreateTls (fuel : ℕ) (params : LdCrtParams) (tcb : Word) : Exec Call Unit :=
  copyTls fuel (tcb - params.tlsImageSize) params.tlsImageBase params.tlsImageSize

variable {m : Mem} {app : ElfImage} {ph dst src size tcb : Word} {n : ℕ} {s : Machine Call}

/-! ### The copy -/

/-- The bytes that the copy moves, one after the other. -/
def copyLog (dst src : Word) (ks : List ℕ) : List (Event Call) :=
  ks.flatMap fun k => [.load (src + BitVec.ofNat 64 k) 1, .store (dst + BitVec.ofNat 64 k) 1]

def copiedMachine (s : Machine Call) (dst src : Word) (n : ℕ) : Machine Call where
  mem := copyImage s.mem dst src n
  log := s.log ++ copyLog dst src (List.range n)

@[simp] theorem copiedMachine_mem :
    (copiedMachine s dst src n).mem = copyImage s.mem dst src n := rfl

theorem copiedMachine_succ :
    copiedMachine s dst src (n + 1)
      = { ((copiedMachine s dst src n).record (.load (src + BitVec.ofNat 64 n) 1)).record
            (.store (dst + BitVec.ofNat 64 n) 1) with
          mem := Function.update (copiedMachine s dst src n).mem (dst + BitVec.ofNat 64 n)
            ((copiedMachine s dst src n).mem (src + BitVec.ofNat 64 n)) } := by
  simp [copiedMachine, copyImage, copyLog, List.range_succ, Machine.record]

theorem yields_copyTls (hsize : size.toNat < 2 ^ 31) {fuel : ℕ} (hfuel : size.toNat < fuel) :
    Yields (copyTls fuel dst src size) s fun _ t => t = copiedMachine s dst src size.toNat := by
  apply yields_loop (fun i t => i ≤ size.toNat ∧ t = copiedMachine s dst src i)
    (fun i => size.toNat - i)
  · rintro i t ⟨hi, rfl⟩
    have hiff : BitVec.ofNat 64 i < size ↔ i < size.toNat := ofNat_lt_iff (by omega)
    by_cases hlt : i < size.toNat
    · refine .ite_pos (hiff.mpr hlt) ?_
      refine ⟨.inl (i + 1), copiedMachine s dst src (i + 1), ?_, ⟨hlt, rfl⟩, by omega⟩
      have hincrement : incrementInt (σ := Machine Call) i = pure (i + 1) := if_pos (by omega)
      rw [copiedMachine_succ, hincrement]
      rfl
    · refine .ite_neg (mt hiff.mp hlt) (yields_pure ?_)
      rw [show i = size.toNat by omega]
  · exact ⟨Nat.zero_le _, by simp [copiedMachine, copyImage, copyLog]⟩
  · omega

/-- The counter overflows before it reaches a size of 2 GB or more. -/
theorem size_lt_of_copyLoop {fuel i : ℕ} {t : Machine Call} (hi : i < 2 ^ 31)
    (h : loop (copyRound dst src size) fuel i s = .ok () t) : size.toNat < 2 ^ 31 := by
  induction fuel generalizing i s with
  | zero => cases h
  | succ fuel ih =>
      obtain ⟨k, r, u, hfuel, hround, hrest⟩ := exists_of_loop_ok h
      obtain rfl := Nat.succ.inj hfuel
      have hiff : BitVec.ofNat 64 i < size ↔ i < size.toNat := ofNat_lt_iff (by omega)
      rw [copyRound] at hround
      by_cases hlt : BitVec.ofNat 64 i < size
      · rw [if_pos hlt] at hround
        obtain ⟨byte, v, -, hstore⟩ := exists_of_bind_ok hround
        obtain ⟨_, w, -, hcount⟩ := exists_of_bind_ok hstore
        obtain ⟨j, x, hincrement, hend⟩ := exists_of_bind_ok hcount
        rw [incrementInt] at hincrement
        by_cases hnext : i + 1 < 2 ^ 31
        · rw [if_pos hnext] at hincrement
          obtain ⟨rfl, rfl⟩ := eq_of_pure_ok hincrement
          obtain ⟨rfl, rfl⟩ := eq_of_pure_ok hend
          exact ih hnext hrest
        · rw [if_neg hnext] at hincrement
          cases hincrement
      · rw [hiff] at hlt
        omega

/-- The programs that the two copies are part of. -/
structure Creation where
  mem : Mem
  tcb : Word

/-- The copies for the main thread and for the later ones satisfy `P`, a
condition on the memory before, on the thread block and on the machine after. -/
def CopiesTls (m : Mem) (app : ElfImage) (stackBase tlsImage tcb : Word) (later : List Creation)
    (P : Mem → Word → Machine Call → Prop) : Prop :=
  ∃ fuel, Yields (ldStage3Tls fuel (ldStage2Info m app stackBase tlsImage) tcb) ⟨m, []⟩
    fun params t => P m tcb t ∧ ∀ c ∈ later, ∃ fuel,
      Yields (rtThreadCreateTls fuel params c.tcb) ⟨c.mem, []⟩ fun _ u => P c.mem c.tcb u

/-- The address and the size of the image, from its program header. -/
def tlsImageBase (m : Mem) (app : ElfImage) (ph : Word) : Word :=
  elfAddr app.base (load64 m (pVaddr ph))

def tlsImageSize (m : Mem) (ph : Word) : Word :=
  load64 m (pMemsz ph)

/-- The machine after the two reads of the program header. -/
def headerRead (m : Mem) (ph : Word) : Machine Call :=
  (Machine.record ⟨m, []⟩ (.load (pVaddr ph) 8)).record (.load (pMemsz ph) 8)

variable {stackBase tlsImage : Word} {later : List Creation}
  {P : Mem → Word → Machine Call → Prop}

theorem ldStage2TlsSize_eq (hph : phTls m app = some ph) :
    ldStage2TlsSize m app = tlsImageSize m ph := by
  rw [ldStage2TlsSize, hph]
  rfl

theorem ldStage3Tls_eq (hph : phTls m app = some ph) (fuel : ℕ) :
    ldStage3Tls fuel (ldStage2Info m app stackBase tlsImage) tcb ⟨m, []⟩
      = (do
          copyTls fuel (tcb - tlsImageSize m ph) (tlsImageBase m app ph) (tlsImageSize m ph)
          return ⟨0x200000 / 2, tlsImageSize m ph, tlsImageBase m app ph⟩ :
            Exec Call LdCrtParams) (headerRead m ph) := by
  change (ldStage3CopyTls fuel (ldStage2Info m app stackBase tlsImage) tcb (phTls m app) >>=
    fun tlsImage => (pure ⟨0x200000 / 2, ldStage2TlsSize m app, tlsImage⟩ :
      Exec Call LdCrtParams)) ⟨m, []⟩ = _
  rw [hph, ldStage2TlsSize_eq hph, ldStage3CopyTls]
  simp only [bind_assoc, loadWord_bind, pure_bind]
  rfl

/-- A copy that returns has made `copiedMachine`. -/
theorem eq_of_copyTls_ok {fuel : ℕ} {t : Machine Call}
    (h : copyTls fuel dst src size s = .ok () t) :
    size.toNat < 2 ^ 31 ∧ t = copiedMachine s dst src size.toNat := by
  have hsize := size_lt_of_copyLoop (by decide) h
  refine ⟨hsize, ?_⟩
  have hmore : copyTls (fuel + size.toNat + 1) dst src size s = .ok () t :=
    loop_fuel_mono h (by omega)
  exact (yields_copyTls hsize (by omega)).of_eq hmore

/-- Both copies are what the loop makes of the first `PT_TLS` header. -/
theorem copiesTls_iff (hph : phTls m app = some ph) :
    CopiesTls m app stackBase tlsImage tcb later P ↔
      (tlsImageSize m ph).toNat < 2 ^ 31 ∧
      P m tcb (copiedMachine (headerRead m ph) (tcb - tlsImageSize m ph)
        (tlsImageBase m app ph) (tlsImageSize m ph).toNat) ∧
      ∀ c ∈ later, P c.mem c.tcb (copiedMachine ⟨c.mem, []⟩ (c.tcb - tlsImageSize m ph)
        (tlsImageBase m app ph) (tlsImageSize m ph).toNat) := by
  constructor
  · rintro ⟨fuel, params, t, hrun, hmain, hlater⟩
    rw [ldStage3Tls_eq hph] at hrun
    obtain ⟨_, u, hcopy, hend⟩ := exists_of_bind_ok hrun
    obtain ⟨rfl, rfl⟩ := eq_of_pure_ok hend
    obtain ⟨hsize, rfl⟩ := eq_of_copyTls_ok hcopy
    refine ⟨hsize, hmain, fun c hc => ?_⟩
    obtain ⟨fuel', _, v, hrun', hthread⟩ := hlater c hc
    obtain ⟨-, rfl⟩ := eq_of_copyTls_ok hrun'
    exact hthread
  · rintro ⟨hsize, hmain, hlater⟩
    refine ⟨(tlsImageSize m ph).toNat + 1, ?_⟩
    rw [Yields, ldStage3Tls_eq hph]
    refine (yields_copyTls hsize (Nat.lt_succ_self _)).bind ?_
    rintro _ _ rfl
    refine yields_pure ⟨hmain, fun c hc => ?_⟩
    refine ⟨(tlsImageSize m ph).toNat + 1, ?_⟩
    apply (yields_copyTls hsize (Nat.lt_succ_self _)).mono
    rintro _ _ rfl
    exact hlater c hc

end Ciabatta.Loader
