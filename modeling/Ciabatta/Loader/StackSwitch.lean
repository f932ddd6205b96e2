import Ciabatta.Lib.Frame
import Ciabatta.Loader.LaterStages
import Ciabatta.Loader.StackDiscovery
import Mathlib.Data.List.Find

/-!
The last two steps of the loader: it reads where its stack is, copies it into a
mapping of its own and enters `ld_stage3_entry` there, which sets up the thread block
and calls the program. Apart from that mapping and from three words below `rsp` it
keeps the memory.
-/

namespace Ciabatta.Loader

open ByteMemory Exec StdlibProgram Tinyrt Trampoline
open Tinyrt.ThreadLocal (copyImage copyImage_of_notMem copyImage_apply)

/-- The machine at the call of the trampoline. -/
def trampolineState (w : Surroundings) (old : StackInfo) (m : Mem) : X86.State where
  pc := 0
  regs := trampolineRegs w old
  less := false
  mem := m

/-- What the change of the stack may write to. -/
def switchArea (w : Surroundings) : Set Word :=
  region (w.rsp - 8 - 8 - 8) 24 ∪ region w.newStack 0x200000

/-- The kernel tells of the stack `old`, and has mapped a new one for the loader. -/
structure StackSwitchable (w : Surroundings) (lines : List MapsLine) (old : StackInfo)
    (tlsSize : Word) (m : Mem) : Prop where
  delivers : Delivers w.maps (text lines)
  straight : Straight lines
  found : (lines.find? MapsLine.isStack).map (·.stackInfo) = some old
  entry : Trampoline.Entry (trampolineState w old m)
  room : used (trampolineState w old m) < 0x200000
  saved : SavedApart (trampolineState w old m)
  mapped : ThreadLayout.MainMapped w.newStack 0x200000 tlsSize

/-- The thread block of the main thread. -/
def mainTcb (w : Surroundings) (tlsSize : Word) : Word :=
  ThreadLayout.ldStage3Tcb w.newStack 0x200000 tlsSize

variable {w : Surroundings} {lines : List MapsLine} {old : StackInfo} {tlsSize tcb ph : Word}
  {m m' : Mem} {app : ElfImage} {s : Machine Call} {fuel : ℕ}

/-! ### The stack of the process -/

theorem StackSwitchable.outcome (h : StackSwitchable w lines old tlsSize m) :
    outcome lines = .found old := by
  rw [← (wanted_eq_outcome_iff lines).mpr h.straight, wanted]
  have hfound := h.found
  cases hline : lines.find? MapsLine.isStack with
  | none =>
      rw [hline] at hfound
      cases hfound
  | some line =>
      rw [hline] at hfound
      cases hfound
      rfl

theorem StackSwitchable.yields_readStackInfo (h : StackSwitchable w lines old tlsSize m)
    (hfuel : (text lines).length < fuel) :
    Yields (readStackInfo fuel w.maps) s fun r t => r = (0, old) ∧ t = s := by
  have hends := endsAs_linuxReadStackInfo h.delivers hfuel
  rw [h.outcome] at hends
  obtain ⟨r, t, hrun, rfl, hinfo⟩ := hends
  refine ⟨(0, t.stackInfo), s, ?_, by rw [hinfo], rfl⟩
  rw [readStackInfo, hrun]

/-! ### The trampoline -/

/-- The new stack has room, so the trampoline copies the old one. -/
theorem StackSwitchable.less (h : StackSwitchable w lines old tlsSize m) :
    (usedWord (trampolineState w old m)).slt (0x200000 : Word) = true := by
  have hroom : used (trampolineState w old m)
      < (trampolineState w old m).regs.rdx.toNat := h.room
  refine (h.entry.compare_iff.mpr ?_).mpr hroom
  exact iff_of_true (h.entry.used_lt hroom) (show (0x200000 : Word).toNat < 2 ^ 63 by decide)

theorem sameOff_switchedMem (h : StackSwitchable w lines old tlsSize m) :
    SameOff (switchArea w) m (switchedMem (trampolineState w old m)) := by
  have hroom := h.room
  have hwords := Nat.mul_div_le (used (trampolineState w old m)) 8
  have hsaved : SameOff (switchArea w) m (savedMem (trampolineState w old m)) := by
    apply sameOff_storeAll
    intro word hword
    exact (savedWords_subset hword).trans Set.subset_union_left
  apply hsaved.trans
  apply sameOff_copied
  exact (region_mono (by omega)).trans Set.subset_union_right

/-- The trampoline comes to the call of `ld_stage3_entry` on the new stack. -/
theorem StackSwitchable.yields_callTrampoline (h : StackSwitchable w lines old tlsSize m)
    (hs : s.mem = m) (hfuel : 21 ≤ fuel) :
    Yields (callTrampoline fuel (trampolineRegs w old)) s fun regs t =>
      regs.rdi = 1 ∧ regs.rsp = roundDown16 (newTop (trampolineState w old m)) ∧
        SameOff (switchArea w) m t.mem := by
  subst hs
  have hrun : X86.run ldStackTrampoline fuel (trampolineState w old s.mem)
      = accepted (trampolineState w old s.mem) := by
    obtain ⟨k, rfl⟩ := Nat.exists_eq_add_of_le hfuel
    rw [X86.run_add, run_accepted h.entry h.room h.less]
    exact X86.run_of_step_eq_none (atCall_accepted _).step_eq_none k
  refine ⟨(accepted (trampolineState w old s.mem)).regs,
    { s with mem := switchedMem (trampolineState w old s.mem) }, ?_, rfl,
    switchedRsp_of_apart h.entry h.room h.saved, sameOff_switchedMem h⟩
  change leaveTrampoline (X86.run ldStackTrampoline fuel (trampolineState w old s.mem)) s = _
  rw [hrun]
  rfl

/-! ### The thread block -/

/-- The thread block and the TLS block are in the new stack. -/
theorem mainTcb_subset (h : ThreadLayout.MainMapped w.newStack 0x200000 tlsSize) :
    region (mainTcb w tlsSize) 72 ⊆ region w.newStack 0x200000 ∧
      region (mainTcb w tlsSize - tlsSize) tlsSize.toNat ⊆ region w.newStack 0x200000 := by
  have hcases := h.toNat_ldStage3Tcb_cases
  have hpage := h.page_le_mod
  have hwrap := h.no_wrap
  have htls := h.tls_le
  have hhalf : (ThreadLayout.paramsStackSize 0x200000).toNat = 0x100000 := by decide
  have hsize : (0x200000 : Word).toNat = 0x200000 := rfl
  rw [hhalf] at hcases hpage htls
  rw [hsize] at hwrap
  rw [mainTcb]
  generalize ThreadLayout.ldStage3Tcb w.newStack 0x200000 tlsSize = tcb at hcases ⊢
  have hplace : (tcb - tlsSize).toNat = tcb.toNat - tlsSize.toNat := by
    rw [BitVec.toNat_sub]
    omega
  constructor
  · apply subset_region <;> omega
  · apply subset_region <;> omega

/-- The memory with the fields of the thread block. -/
def blockMem (m : Mem) (tcb : Word) : Mem :=
  store64 (store32 m (threadId tcb) 0) (stackCanary tcb) 0x12345678fedcba98

theorem yields_storeBlock (s : Machine Call) (tcb : Word) :
    Yields (storeBlock tcb) s fun _ t => t.mem = blockMem s.mem tcb :=
  ⟨(), _, rfl, rfl⟩

theorem threadId_subset (tcb : Word) : region (threadId tcb) 4 ⊆ region tcb 72 :=
  region_mono (by decide)

theorem stackCanary_subset (tcb : Word) : region (stackCanary tcb) 8 ⊆ region tcb 72 :=
  region_add_subset (k := 40) (by decide) (by decide)

theorem sameOff_blockMem (m : Mem) (tcb : Word) : SameOff (region tcb 72) m (blockMem m tcb) :=
  (sameOff_store32 (threadId_subset tcb)).trans (sameOff_store64 (stackCanary_subset tcb))

/-- The fields of the thread block have their first values. -/
structure BlockReady (tcb : Word) (t : Mem) : Prop where
  threadId : load32 t (threadId tcb) = 0
  canary : load64 t (stackCanary tcb) = 0x12345678fedcba98

theorem blockReady_blockMem (m : Mem) (tcb : Word) : BlockReady tcb (blockMem m tcb) := by
  have hbehind : Disjoint (region (stackCanary tcb) 8) (region tcb 40) :=
    disjoint_region_add (k := 40) (by decide)
  have hapart : Disjoint (region (threadId tcb) 4) (region (stackCanary tcb) 8) :=
    hbehind.symm.mono_left (region_mono (by decide))
  constructor
  · rw [blockMem, (sameOff_store64 (le_refl _)).load32 hapart]
    exact load32_store32 _ _ _
  · exact load64_store64 _ _ _

/-- The TLS block ends where the thread block begins. -/
theorem disjoint_tcb (h : ThreadLayout.MainMapped w.newStack 0x200000 tlsSize) :
    Disjoint (region tcb 72) (region (tcb - tlsSize) tlsSize.toNat) := by
  have htls := h.tls_le
  have hhalf : (ThreadLayout.paramsStackSize 0x200000).toNat = 0x100000 := by decide
  rw [hhalf] at htls
  have hdisj := disjoint_region_add (a := tcb - tlsSize) (k := tlsSize.toNat) (n := 72) (by omega)
  rw [BitVec.ofNat_toNat, BitVec.setWidth_eq, sub_add_cancel] at hdisj
  exact hdisj

theorem BlockReady.of_sameOff {A : Set Word} (h : BlockReady tcb m) (hsame : SameOff A m m')
    (hdisj : Disjoint (region tcb 72) A) : BlockReady tcb m' := by
  constructor
  · rw [hsame.load32 (hdisj.mono_left (threadId_subset tcb))]
    exact h.threadId
  · rw [hsame.load64 (hdisj.mono_left (stackCanary_subset tcb))]
    exact h.canary

/-! ### The program in the memory that is left -/

/-- What the last stage reads of the program is off the old and the new stack, and an
`int` can count the bytes of its TLS image. -/
structure ProgramApart (w : Surroundings) (app : ElfImage) (m : Mem) : Prop where
  headers : ∀ i < app.phNum.toNat,
    Disjoint (region (app.phdr + BitVec.ofNat 64 i * app.phEnt) 56) (switchArea w)
  entry : Disjoint (region (eEntry app.base) 8) (switchArea w)
  image : ∀ ph, phTls m app = some ph → (tlsImageSize m ph).toNat < 2 ^ 31 ∧
    Disjoint (region (tlsImageBase m app ph) (tlsImageSize m ph).toNat) (switchArea w)

theorem ProgramApart.disjoint_header (h : ProgramApart w app m) (hph : phTls m app = some ph) :
    Disjoint (region ph 56) (switchArea w) := by
  rw [phTls] at hph
  obtain ⟨i, hi, rfl⟩ := List.mem_map.mp (List.mem_of_find?_eq_some hph)
  exact h.headers i (List.mem_range.mp hi)

theorem ProgramApart.phTls_eq (h : ProgramApart w app m) (hsame : SameOff (switchArea w) m m') :
    phTls m' app = phTls m app := by
  rw [phTls, phTls]
  apply List.find?_congr
  intro ph hph
  obtain ⟨i, hi, rfl⟩ := List.mem_map.mp hph
  have hheader := h.headers i (List.mem_range.mp hi)
  rw [pType, hsame.load32 (hheader.mono_left (region_mono (by decide)))]

/-- The image that the last stage finds is the one of the program. -/
theorem ProgramApart.tls_eq (h : ProgramApart w app m) (hsame : SameOff (switchArea w) m m')
    (hph : phTls m app = some ph) :
    tlsImageBase m' app ph = tlsImageBase m app ph ∧ tlsImageSize m' ph = tlsImageSize m ph := by
  have hheader := h.disjoint_header hph
  have hvaddr : Disjoint (region (pVaddr ph) 8) (switchArea w) :=
    hheader.mono_left (region_add_subset (k := 16) (by decide) (by decide))
  have hmemsz : Disjoint (region (pMemsz ph) 8) (switchArea w) :=
    hheader.mono_left (region_add_subset (k := 40) (by decide) (by decide))
  rw [tlsImageBase, tlsImageBase, tlsImageSize, tlsImageSize, hsame.load64 hvaddr,
    hsame.load64 hmemsz]
  exact ⟨rfl, rfl⟩

/-- The TLS block of the main thread is the image, and the runtime is told of it. -/
structure TlsReady (m : Mem) (app : ElfImage) (tcb : Word) (params : LdCrtParams) (t : Mem) :
    Prop where
  size : params.tlsImageSize = ldStage2TlsSize m app
  base : ∀ ph, phTls m app = some ph → params.tlsImageBase = tlsImageBase m app ph
  block : ∀ ph, phTls m app = some ph → ∀ k < (tlsImageSize m ph).toNat,
    t (tcb - tlsImageSize m ph + BitVec.ofNat 64 k) = m (tlsImageBase m app ph + BitVec.ofNat 64 k)

/-- What the last stage has set up when it comes to `sys_arch_prctl`. -/
structure ThreadReady (w : Surroundings) (app : ElfImage) (m : Mem) (params : LdCrtParams)
    (t : Machine Call) : Prop where
  stackSize : params.stackSize = 0x100000
  tls : TlsReady m app (mainTcb w (ldStage2TlsSize m app)) params t.mem
  block : BlockReady (mainTcb w (ldStage2TlsSize m app)) t.mem
  kept : SameOff (switchArea w) m t.mem

section

variable {info : Stage3Info}

theorem sameOff_copyImage {dst src : Word} {n : ℕ} (hn : n < 2 ^ 64) :
    SameOff (region dst n) m (copyImage m dst src n) :=
  fun _ hx => copyImage_of_notMem le_rfl hn hx

theorem yields_ldStage3Tls_none (h : phTls s.mem info.app = none) :
    Yields (ldStage3Tls fuel info tcb) s fun params t =>
      params = ⟨info.stackSize / 2, info.tlsSize, info.tlsImage⟩ ∧ t.mem = s.mem := by
  refine .get_bind ?_
  rw [h]
  exact yields_pure ⟨rfl, rfl⟩

theorem yields_ldStage3Tls_some (h : phTls s.mem info.app = some ph)
    (hsize : (tlsImageSize s.mem ph).toNat < 2 ^ 31)
    (hfuel : (tlsImageSize s.mem ph).toNat < fuel) :
    Yields (ldStage3Tls fuel info tcb) s fun params t =>
      params = ⟨info.stackSize / 2, info.tlsSize, tlsImageBase s.mem info.app ph⟩ ∧
        t.mem = copyImage s.mem (tcb - tlsImageSize s.mem ph) (tlsImageBase s.mem info.app ph)
          (tlsImageSize s.mem ph).toNat := by
  refine .get_bind ?_
  rw [h]
  refine .bind (R := fun base t => base = tlsImageBase s.mem info.app ph ∧
    t.mem = copyImage s.mem (tcb - tlsImageSize s.mem ph) (tlsImageBase s.mem info.app ph)
      (tlsImageSize s.mem ph).toNat) ?_ ?_
  · refine .loadWord_bind (.loadWord_bind ((yields_copyTls hsize hfuel).bind ?_))
    rintro _ _ rfl
    refine yields_pure ⟨rfl, ?_⟩
    rw [copiedMachine_mem, Machine.record_mem, Machine.record_mem]
    rfl
  · rintro _ t ⟨rfl, ht⟩
    exact yields_pure ⟨rfl, ht⟩

theorem half_stackSize (stackBase tlsImage : Word) :
    (ldStage2Info m app stackBase tlsImage).stackSize / 2 = 0x100000 :=
  show (0x200000 : Word) / 2 = 0x100000 by decide

/-- The rounds that the copy of the TLS image needs. -/
def tlsRounds (m : Mem) (app : ElfImage) : ℕ :=
  (ldStage2TlsSize m app).toNat

/-- The TLS image goes below the thread block, whose memory `m'` is that of the
program but for the change of the stack. -/
theorem ProgramApart.yields_ldStage3Tls (h : ProgramApart w app m)
    (hmapped : ThreadLayout.MainMapped w.newStack 0x200000 (ldStage2TlsSize m app))
    (hsame : SameOff (switchArea w) m s.mem)
    (hready : BlockReady (mainTcb w (ldStage2TlsSize m app)) s.mem)
    (hfuel : tlsRounds m app < fuel) :
    Yields (ldStage3Tls fuel (ldStage2Info m app w.newStack w.tlsImage)
        (mainTcb w (ldStage2TlsSize m app))) s (ThreadReady w app m) := by
  have hphTls := h.phTls_eq hsame
  cases hph : phTls m app with
  | none =>
      refine (yields_ldStage3Tls_none (hphTls.trans hph)).mono ?_
      rintro _ t ⟨rfl, ht⟩
      refine ⟨half_stackSize _ _, ⟨rfl, by simp [hph], by simp [hph]⟩, ?_, ?_⟩
      · rwa [ht]
      · rwa [ht]
  | some ph =>
      obtain ⟨hbase, hsize⟩ : tlsImageBase s.mem (ldStage2Info m app w.newStack w.tlsImage).app ph
        = tlsImageBase m app ph ∧ tlsImageSize s.mem ph = tlsImageSize m ph := h.tls_eq hsame hph
      obtain ⟨hsmall, himage⟩ := h.image ph hph
      have htlsSize : ldStage2TlsSize m app = tlsImageSize m ph := ldStage2TlsSize_eq hph
      rw [tlsRounds] at hfuel
      rw [htlsSize] at hmapped hready hfuel
      have hsubset : region (mainTcb w (tlsImageSize m ph) - tlsImageSize m ph)
          (tlsImageSize m ph).toNat ⊆ switchArea w :=
        (mainTcb_subset hmapped).2.trans Set.subset_union_right
      refine (yields_ldStage3Tls_some (hphTls.trans hph) (by rwa [hsize])
        (by rwa [hsize])).mono ?_
      rintro _ t ⟨rfl, ht⟩
      rw [hsize, hbase, htlsSize] at ht
      have hcopy : SameOff (region (mainTcb w (tlsImageSize m ph) - tlsImageSize m ph)
          (tlsImageSize m ph).toNat) s.mem t.mem := by
        rw [ht]
        exact sameOff_copyImage (tlsImageSize m ph).isLt
      refine ⟨half_stackSize _ _, ⟨rfl, ?_, ?_⟩, ?_, hsame.trans (hcopy.mono hsubset)⟩
      · intro ph' hph'
        obtain rfl : ph = ph' := Option.some.inj (hph.symm.trans hph')
        exact hbase
      · intro ph' hph' k hk
        obtain rfl : ph = ph' := Option.some.inj (hph.symm.trans hph')
        rw [htlsSize, ht, copyImage_apply hk le_rfl (tlsImageSize m ph).isLt
          (himage.mono_right hsubset)]
        exact hsame.apply himage (add_ofNat_mem_region hk (tlsImageSize m ph).isLt.le)
      · rw [htlsSize]
        exact hready.of_sameOff hcopy (disjoint_tcb hmapped)

end

/-! ### The last stage -/

/-- The program is called as its runtime expects it, and the memory is that of the
program but for the change of the stack. -/
structure ProgramCalled (w : Surroundings) (app : ElfImage) (m : Mem) (rsp : Word) (r : Handover)
    (t : Mem) : Prop where
  entry : r.entry = app.base + load64 m (eEntry app.base)
  rsp : r.rsp = rsp
  threadPointer : r.threadPointer = mainTcb w (ldStage2TlsSize m app)
  stackSize : r.params.stackSize = 0x100000
  tls : TlsReady m app (mainTcb w (ldStage2TlsSize m app)) r.params t
  block : BlockReady (mainTcb w (ldStage2TlsSize m app)) t
  kept : SameOff (switchArea w) m t

theorem ldStage3Entry_eq (fuel : ℕ) (rsp : Word) : ldStage3Entry fuel 1 rsp w.archPrctl
    (ldStage2Info m app w.newStack w.tlsImage) = (do
      storeBlock (mainTcb w (ldStage2TlsSize m app))
      let params ← ldStage3Tls fuel (ldStage2Info m app w.newStack w.tlsImage)
        (mainTcb w (ldStage2TlsSize m app))
      enterProgram w.archPrctl (ldStage2Info m app w.newStack w.tlsImage)
        (mainTcb w (ldStage2TlsSize m app)) rsp params) := by
  have hstack : (1 : Word) ≠ 0 := by decide
  rw [ldStage3Entry, if_neg hstack, mainTcb]
  rfl

theorem ProgramApart.ldStage3Entry_leads {rsp : Word} (h : ProgramApart w app m)
    (hmapped : ThreadLayout.MainMapped w.newStack 0x200000 (ldStage2TlsSize m app))
    (hsame : SameOff (switchArea w) m s.mem) (hfuel : tlsRounds m app < fuel) :
    ∃ params, Leads
      (ldStage3Entry fuel 1 rsp w.archPrctl (ldStage2Info m app w.newStack w.tlsImage)) s
      (enterProgram w.archPrctl (ldStage2Info m app w.newStack w.tlsImage)
        (mainTcb w (ldStage2TlsSize m app)) rsp params) (ThreadReady w app m params) := by
  have hblock : SameOff (switchArea w) m (blockMem s.mem (mainTcb w (ldStage2TlsSize m app))) :=
    hsame.trans ((sameOff_blockMem _ _).mono
      ((mainTcb_subset hmapped).1.trans Set.subset_union_right))
  obtain ⟨_, t, hstore, ht⟩ := yields_storeBlock s (mainTcb w (ldStage2TlsSize m app))
  rw [← ht] at hblock
  have hready : BlockReady (mainTcb w (ldStage2TlsSize m app)) t.mem := by
    rw [ht]
    exact blockReady_blockMem _ _
  obtain ⟨params, u, htls, hthread⟩ := h.yields_ldStage3Tls hmapped hblock hready hfuel
  refine ⟨params, u, hthread, ?_⟩
  rw [ldStage3Entry_eq, bind_of_ok hstore, bind_of_ok htls]

/-- From the search for the stack to the last stage. -/
theorem StackSwitchable.switchAndEnter_leads
    (h : StackSwitchable w lines old (ldStage2TlsSize m app) m) (hs : s.mem = m)
    (hfuel : (text lines).length + 21 < fuel) :
    Leads (switchAndEnter fuel w app) s
      (ldStage3Entry fuel 1 (roundDown16 (newTop (trampolineState w old m))) w.archPrctl
        (ldStage2Info m app w.newStack w.tlsImage)) fun t => SameOff (switchArea w) m t.mem := by
  refine Yields.bind_leads (S := fun t u => t = s ∧ u = s) ⟨s, s, rfl, rfl, rfl⟩ ?_
  rintro _ _ ⟨rfl, rfl⟩
  rw [hs]
  refine (h.yields_readStackInfo (by omega)).bind_leads ?_
  rintro _ _ ⟨rfl, rfl⟩
  refine .ite_neg (by decide) ((h.yields_callTrampoline hs (by omega)).bind_leads ?_)
  rintro regs t ⟨hrdi, hrsp, hsame⟩
  rw [hrdi, hrsp]
  exact leads_self hsame

theorem yields_enterProgram {rsp : Word} {params : LdCrtParams} (h : ProgramApart w app m)
    (hready : ThreadReady w app m params s) (hprctl : w.archPrctl.slt 0 = false) :
    Yields (enterProgram w.archPrctl (ldStage2Info m app w.newStack w.tlsImage)
      (mainTcb w (ldStage2TlsSize m app)) rsp params) s
      fun r t => ProgramCalled w app m rsp r t.mem := by
  refine .ite_neg (by rw [hprctl]; decide) (.loadWord_bind (yields_pure ?_))
  refine ⟨?_, rfl, rfl, hready.stackSize, hready.tls, hready.block, hready.kept⟩
  exact congrArg (app.base + ·) (hready.kept.load64 h.entry)

theorem stops_enterProgram {rsp : Word} {params : LdCrtParams} {info : Stage3Info}
    (hprctl : w.archPrctl.slt 0 = true) :
    Stops (enterProgram w.archPrctl info tcb rsp params) s (.exit 1) := by
  rw [enterProgram, if_pos hprctl]
  exact ⟨_, rfl⟩

/-- A list of mappings without a stack ends the loader. -/
theorem stops_switchAndEnter (hmaps : Delivers w.maps (text lines)) (hstraight : Straight lines)
    (hmissing : lines.find? MapsLine.isStack = none) (hfuel : (text lines).length < fuel) :
    Stops (switchAndEnter fuel w app) s (.exit 1) := by
  have hends := endsAs_linuxReadStackInfo hmaps hfuel
  rw [← (wanted_eq_outcome_iff lines).mpr hstraight, wanted, hmissing] at hends
  obtain ⟨status, t, hrun, hstatus, -⟩ := hends
  have hread : Yields (readStackInfo fuel w.maps) s fun r _ => r = (status, t.stackInfo) :=
    ⟨_, s, by rw [readStackInfo, hrun], rfl⟩
  refine Yields.bind_stops (R := fun t u => t = s ∧ u = s) ⟨s, s, rfl, rfl, rfl⟩ ?_
  rintro _ _ ⟨rfl, rfl⟩
  refine hread.bind_stops ?_
  rintro _ u rfl
  exact ⟨_, (congrFun (if_pos hstatus) u).trans rfl⟩

end Ciabatta.Loader
