import Ciabatta.Lib.Layout
import Ciabatta.Lib.X86
import Mathlib.Tactic.Ring

/-!
The stack trampoline, on which the loader leaves the stack of the kernel for one
of its own. In the old stack the words below `rsp` are free, and the new one is
fresh memory.
-/

namespace Ciabatta.Loader.Trampoline

open ByteMemory X86

/-- `ld_stack_trampoline`. The label `.continue` is position 9. -/
def ldStackTrampoline : List Instr :=
  [.add .rcx (.reg .rsi),
    .sub .rcx (.reg .rsp),
    .mov .rsi (.reg .rsp),
    .cmp .rcx (.reg .rdx),
    .jl 9,
    .xor .rdi (.reg .rdi),
    .mov .rsi (.reg .r9),
    .mov .rax (.reg .r8),
    .call .rax,
    -- .continue:
    .push .rsi,
    .push .rdi,
    .push .rcx,
    .shr .rcx 3,
    .repMovsq,
    .pop .rcx,
    .pop .rdi,
    .pop .rsi,
    .add .rsp (.reg .rdi),
    .sub .rsp (.reg .rsi),
    .add .rsp (.reg .rdx),
    .sub .rsp (.reg .rcx),
    .and .rsp (.imm 0xfffffffffffffff0),
    .mov .rdi (.imm 1),
    .mov .rsi (.reg .r9),
    .mov .rax (.reg .r8),
    .call .rax]

/-- What `ld_stage2_entry` passes: the new stack in `rdi` and `rdx`, the old one
in `rsi` and `rcx`. -/
structure Entry (s : State) : Prop where
  pc : s.pc = 0
  old_fits : s.regs.rsi.toNat + s.regs.rcx.toNat ≤ 2 ^ 64
  rsp_mem : s.regs.rsp ∈ region s.regs.rsi s.regs.rcx.toNat
  rsp_aligned : 8 ∣ s.regs.rsp.toNat
  new_fits : s.regs.rdi.toNat + s.regs.rdx.toNat ≤ 2 ^ 64
  apart : Disjoint (region s.regs.rsi s.regs.rcx.toNat) (region s.regs.rdi s.regs.rdx.toNat)

/-- The bytes of the old stack from `rsp` to its top. -/
def used (s : State) : ℕ :=
  s.regs.rsi.toNat + s.regs.rcx.toNat - s.regs.rsp.toNat

/-- The place for them at the top of the new stack. -/
def newTop (s : State) : Word :=
  s.regs.rdi + s.regs.rdx - BitVec.ofNat 64 (used s)

def roundDown16 (a : Word) : Word :=
  a &&& 0xfffffffffffffff0

/-- Before the call the new stack is a copy of the old one if it has the room. -/
structure SwitchesStack (s t : State) : Prop where
  ctx : t.regs.rsi = s.regs.r9
  has_new_stack : used s < s.regs.rdx.toNat → t.regs.rdi = 1
  rsp : used s < s.regs.rdx.toNat → t.regs.rsp = roundDown16 (newTop s)
  copied : used s < s.regs.rdx.toNat → ∀ i < used s,
    t.mem (newTop s + BitVec.ofNat 64 i) = s.mem (s.regs.rsp + BitVec.ofNat 64 i)
  refused : s.regs.rdx.toNat ≤ used s → t.regs.rdi = 0

/-- The trampoline comes to the call of its function, with the stack switched. -/
def Arrives (s : State) : Prop :=
  ∃ k, AtCall ldStackTrampoline s.regs.r8 (run ldStackTrampoline k s) ∧
    SwitchesStack s (run ldStackTrampoline k s)

variable {s t : State}

/-! ### The run -/

/-- `rcx` as it is compared. -/
def usedWord (s : State) : Word :=
  s.regs.rcx + s.regs.rsi - s.regs.rsp

/-- The words that the trampoline saves below `rsp`, in order. -/
def savedWords (s : State) : List (Word × Word) :=
  [(s.regs.rsp - 8, s.regs.rsp), (s.regs.rsp - 8 - 8, s.regs.rdi),
    (s.regs.rsp - 8 - 8 - 8, usedWord s)]

def savedMem (s : State) : Mem :=
  storeAll s.mem (savedWords s)

/-- The memory at the call. The copy starts at the low end of the new stack. -/
def switchedMem (s : State) : Mem :=
  copied (savedMem s) s.regs.rdi s.regs.rsp (8 * (used s / 8))

/-- `rsp` at the call, from the words that the trampoline pops. -/
def switchedRsp (s : State) : Word :=
  roundDown16 (s.regs.rsp + load64 (switchedMem s) (s.regs.rsp - 8 - 8)
    - load64 (switchedMem s) (s.regs.rsp - 8) + s.regs.rdx
    - load64 (switchedMem s) (s.regs.rsp - 8 - 8 - 8))

/-- The state at the call with 1. -/
def accepted (s : State) : State where
  pc := 25
  regs := { s.regs with
    rax := s.regs.r8
    rcx := load64 (switchedMem s) (s.regs.rsp - 8 - 8 - 8)
    rsi := s.regs.r9
    rdi := 1
    rsp := switchedRsp s }
  less := true
  mem := switchedMem s

/-- The state at the call with 0. -/
def refused (s : State) : State where
  pc := 8
  regs := { s.regs with rax := s.regs.r8, rcx := usedWord s, rsi := s.regs.r9, rdi := 0 }
  less := false
  mem := s.mem

section Stretches

variable (rax rcx rdx rsi rdi rsp r8 r9 : Word) (less : Bool) (m : Mem)

theorem run_compare :
    run ldStackTrampoline 4 ⟨0, ⟨rax, rcx, rdx, rsi, rdi, rsp, r8, r9⟩, less, m⟩
      = ⟨4, ⟨rax, rcx + rsi - rsp, rdx, rsp, rdi, rsp, r8, r9⟩,
          (rcx + rsi - rsp).slt rdx, m⟩ := rfl

theorem run_refuse :
    run ldStackTrampoline 4 ⟨4, ⟨rax, rcx, rdx, rsi, rdi, rsp, r8, r9⟩, false, m⟩
      = ⟨8, ⟨r8, rcx, rdx, r9, rdi ^^^ rdi, rsp, r8, r9⟩, false, m⟩ := rfl

theorem run_save :
    run ldStackTrampoline 5 ⟨4, ⟨rax, rcx, rdx, rsi, rdi, rsp, r8, r9⟩, true, m⟩
      = ⟨13, ⟨rax, rcx >>> 3, rdx, rsi, rdi, rsp - 8 - 8 - 8, r8, r9⟩, true,
          storeAll m [(rsp - 8, rsi), (rsp - 8 - 8, rdi), (rsp - 8 - 8 - 8, rcx)]⟩ := rfl

theorem run_repMovsq :
    run ldStackTrampoline 1 ⟨13, ⟨rax, rcx, rdx, rsi, rdi, rsp, r8, r9⟩, less, m⟩
      = (State.movsq^[rcx.toNat]
          ⟨13, ⟨rax, rcx, rdx, rsi, rdi, rsp, r8, r9⟩, less, m⟩).next := rfl

theorem run_repMovsq_apart {n : ℕ} (hcount : rcx.toNat = n) (hn : 8 * n ≤ 2 ^ 64)
    (hdisj : Disjoint (region rsi (8 * n)) (region rdi (8 * n))) :
    run ldStackTrampoline 1 ⟨13, ⟨rax, rcx, rdx, rsi, rdi, rsp, r8, r9⟩, less, m⟩
      = ⟨14, ⟨rax, rcx - BitVec.ofNat 64 n, rdx, rsi + BitVec.ofNat 64 (8 * n),
          rdi + BitVec.ofNat 64 (8 * n), rsp, r8, r9⟩, less, copied m rdi rsi (8 * n)⟩ := by
  rw [run_repMovsq, hcount,
    movsq_iterate (s := ⟨13, ⟨rax, rcx, rdx, rsi, rdi, rsp, r8, r9⟩, less, m⟩) hn hdisj]
  rfl

theorem run_restore :
    run ldStackTrampoline 3 ⟨14, ⟨rax, rcx, rdx, rsi, rdi, rsp, r8, r9⟩, less, m⟩
      = ⟨17, ⟨rax, load64 m rsp, rdx, load64 m (rsp + 8 + 8), load64 m (rsp + 8),
          rsp + 8 + 8 + 8, r8, r9⟩, less, m⟩ := by
  simp only [run, step, ldStackTrampoline, List.getElem?_cons_succ, List.getElem?_cons_zero,
    Option.bind_some, Instr.exec, State.set, State.next, Regs.set]

theorem run_switch :
    run ldStackTrampoline 5 ⟨17, ⟨rax, rcx, rdx, rsi, rdi, rsp, r8, r9⟩, less, m⟩
      = ⟨22, ⟨rax, rcx, rdx, rsi, rdi, roundDown16 (rsp + rdi - rsi + rdx - rcx), r8, r9⟩,
          less, m⟩ := rfl

theorem run_arguments :
    run ldStackTrampoline 3 ⟨22, ⟨rax, rcx, rdx, rsi, rdi, rsp, r8, r9⟩, less, m⟩
      = ⟨25, ⟨r8, rcx, rdx, r9, 1, rsp, r8, r9⟩, less, m⟩ := rfl

/-- After the string move. -/
theorem run_finish :
    run ldStackTrampoline 11 ⟨14, ⟨rax, rcx, rdx, rsi, rdi, rsp, r8, r9⟩, less, m⟩
      = ⟨25, ⟨r8, load64 m rsp, rdx, r9, 1,
          roundDown16 (rsp + 8 + 8 + 8 + load64 m (rsp + 8) - load64 m (rsp + 8 + 8) + rdx
            - load64 m rsp), r8, r9⟩, less, m⟩ := by
  rw [run_add 3 8, run_restore, run_add 5 3, run_switch, run_arguments]

end Stretches

namespace Entry

theorem used_le (h : Entry s) : used s ≤ s.regs.rcx.toNat := by
  have hmem := (mem_region_iff h.old_fits).mp h.rsp_mem
  unfold used
  omega

theorem toNat_usedWord (h : Entry s) : (usedWord s).toNat = used s := by
  have hmem := (mem_region_iff h.old_fits).mp h.rsp_mem
  have hold := h.old_fits
  have hrcx := s.regs.rcx.isLt
  have hrsp := s.regs.rsp.isLt
  rw [usedWord, used, BitVec.toNat_sub, BitVec.toNat_add]
  omega

/-- The used part of the old stack, down to `rsp`. -/
theorem used_subset (h : Entry s) :
    region s.regs.rsp (used s) ⊆ region s.regs.rsi s.regs.rcx.toNat := by
  have hmem := (mem_region_iff h.old_fits).mp h.rsp_mem
  have hend : s.regs.rsp.toNat + used s = s.regs.rsi.toNat + s.regs.rcx.toNat := by
    unfold used
    omega
  have hold := h.old_fits
  intro x hx
  rw [mem_region_iff (by omega)] at hx
  rw [mem_region_iff h.old_fits]
  omega

theorem words_apart (h : Entry s) (hroom : used s < s.regs.rdx.toNat) :
    Disjoint (region s.regs.rsp (8 * (used s / 8)))
      (region s.regs.rdi (8 * (used s / 8))) := by
  have hwords : 8 * (used s / 8) ≤ used s := Nat.mul_div_le _ _
  exact h.apart.mono ((region_mono hwords).trans h.used_subset)
    (region_mono (by omega))

end Entry

theorem run_accepted (h : Entry s) (hroom : used s < s.regs.rdx.toNat)
    (hless : (usedWord s).slt s.regs.rdx = true) :
    run ldStackTrampoline 21 s = accepted s := by
  have hcount : (usedWord s >>> 3).toNat = used s / 8 := by
    rw [BitVec.toNat_ushiftRight, h.toNat_usedWord, Nat.shiftRight_eq_div_pow]
  have hbound := h.used_le
  have hrcx := s.regs.rcx.isLt
  have hapart := h.words_apart hroom
  have hpc := h.pc
  obtain ⟨pc, ⟨rax, rcx, rdx, rsi, rdi, rsp, r8, r9⟩, less, m⟩ := s
  obtain rfl : pc = 0 := hpc
  have hless' : (rcx + rsi - rsp).slt rdx = true := hless
  have hmove := run_repMovsq_apart rax ((rcx + rsi - rsp) >>> 3) rdx rsp rdi (rsp - 8 - 8 - 8)
    r8 r9 true (storeAll m [(rsp - 8, rsp), (rsp - 8 - 8, rdi), (rsp - 8 - 8 - 8, rcx + rsi - rsp)])
    hcount (by omega) hapart
  rw [run_add 10 11, run_add 9 1, run_add 4 5, run_compare, hless', run_save, hmove, run_finish]
  simp only [sub_add_cancel]
  rfl

theorem run_refused (h : Entry s) (hless : (usedWord s).slt s.regs.rdx = false) :
    run ldStackTrampoline 8 s = refused s := by
  have hpc := h.pc
  obtain ⟨pc, ⟨rax, rcx, rdx, rsi, rdi, rsp, r8, r9⟩, less, m⟩ := s
  obtain rfl : pc = 0 := hpc
  rw [usedWord] at hless
  simp only at hless
  rw [run_add 4 4, run_compare, hless, run_refuse, BitVec.xor_self]
  rfl

/-- Once the compare has let it go on, the trampoline calls with 1. -/
theorem run_less (hpc : s.pc = 0) (hless : (usedWord s).slt s.regs.rdx = true) :
    AtCall ldStackTrampoline s.regs.r8 (run ldStackTrampoline 21 s) ∧
      (run ldStackTrampoline 21 s).regs.rdi = 1 := by
  obtain ⟨pc, ⟨rax, rcx, rdx, rsi, rdi, rsp, r8, r9⟩, less, m⟩ := s
  obtain rfl : pc = 0 := hpc
  have hless' : (rcx + rsi - rsp).slt rdx = true := hless
  have hkept (n : ℕ) (u : State) :
      (State.movsq^[n] u).pc = u.pc ∧ (State.movsq^[n] u).regs.r8 = u.regs.r8 := by
    induction n generalizing u with
    | zero => exact ⟨rfl, rfl⟩
    | succ n ih => exact ih u.movsq
  rw [run_add 10 11, run_add 9 1, run_add 4 5, run_compare, hless', run_save, run_repMovsq]
  obtain ⟨hpc, hr8⟩ := hkept ((rcx + rsi - rsp) >>> 3).toNat ⟨13,
    ⟨rax, (rcx + rsi - rsp) >>> 3, rdx, rsp, rdi, rsp - 8 - 8 - 8, r8, r9⟩, true,
    storeAll m [(rsp - 8, rsp), (rsp - 8 - 8, rdi), (rsp - 8 - 8 - 8, rcx + rsi - rsp)]⟩
  generalize State.movsq^[((rcx + rsi - rsp) >>> 3).toNat] _ = u at hpc hr8 ⊢
  obtain ⟨pc, ⟨rax', rcx', rdx', rsi', rdi', rsp', r8', r9'⟩, less', m'⟩ := u
  obtain rfl : pc = 13 := hpc
  obtain rfl : r8' = r8 := hr8
  rw [State.next, run_finish]
  exact ⟨⟨.rax, rfl, rfl⟩, rfl⟩

/-! ### What the new stack holds -/

namespace Entry

/-- Two stacks that are apart and the smaller of them used: in half of the
address space. -/
theorem used_lt (h : Entry s) (hroom : used s < s.regs.rdx.toNat) : used s < 2 ^ 63 := by
  have hmem := (mem_region_iff h.old_fits).mp h.rsp_mem
  have hapart := (disjoint_region_iff h.old_fits h.new_fits (by omega) (by omega)).mp h.apart
  have hold := h.old_fits
  have hnew := h.new_fits
  unfold used at *
  omega

/-- The compare is signed. -/
theorem compare_iff (h : Entry s) :
    ((usedWord s).slt s.regs.rdx = true ↔ used s < s.regs.rdx.toNat) ↔
      (used s < 2 ^ 63 ↔ s.regs.rdx.toNat < 2 ^ 63) := by
  have hsize := s.regs.rdx.isLt
  have hused := (usedWord s).isLt
  rw [h.toNat_usedWord] at hused
  rw [BitVec.slt_iff_toInt_lt, BitVec.toInt_eq_toNat_cond, BitVec.toInt_eq_toNat_cond,
    h.toNat_usedWord]
  omega

end Entry

/-- The saved words are not in the new stack. They may be for an `rsp` at the
base of the old one. -/
def SavedApart (s : State) : Prop :=
  Disjoint (region (s.regs.rsp - 8 - 8 - 8) 24) (region s.regs.rdi s.regs.rdx.toNat)

theorem savedWords_subset {w : Word × Word} (hw : w ∈ savedWords s) :
    region w.1 8 ⊆ region (s.regs.rsp - 8 - 8 - 8) 24 := by
  have hpart {a : Word} {k : ℕ} (ha : a = s.regs.rsp - 8 - 8 - 8 + BitVec.ofNat 64 k)
      (hk : k + 8 ≤ 24) : region a 8 ⊆ region (s.regs.rsp - 8 - 8 - 8) 24 := by
    rw [ha]
    exact region_add_subset hk (by decide)
  simp only [savedWords, List.mem_cons, List.not_mem_nil, or_false] at hw
  rcases hw with rfl | rfl | rfl
  · refine hpart (k := 16) ?_ (by decide)
    rw [show BitVec.ofNat 64 16 = (8 : Word) + 8 from rfl, ← add_assoc, sub_add_cancel,
      sub_add_cancel]
  · exact hpart (k := 8) (sub_add_cancel _ _).symm (by decide)
  · exact region_mono (by decide)

theorem savedWords_pairwise (s : State) :
    (savedWords s).Pairwise fun u w => Disjoint (region u.1 8) (region w.1 8) := by
  have hnext (a : Word) : Disjoint (region a 8) (region (a - 8) 8) := by
    have hdisj := disjoint_region_add (a := a - 8) (k := 8) (n := 8) (by decide)
    rwa [show BitVec.ofNat 64 8 = (8 : Word) from rfl, sub_add_cancel] at hdisj
  have hsecond (a : Word) : Disjoint (region a 8) (region (a - 8 - 8) 8) := by
    have hdisj := disjoint_region_add (a := a - 8 - 8) (k := 16) (n := 8) (by decide)
    rw [show BitVec.ofNat 64 16 = (8 : Word) + 8 from rfl, ← add_assoc, sub_add_cancel,
      sub_add_cancel] at hdisj
    exact hdisj.mono_right (region_mono (by decide))
  simp only [savedWords, List.pairwise_cons, List.mem_cons, List.not_mem_nil, or_false,
    forall_eq_or_imp, forall_eq, false_imp_iff, implies_true, List.Pairwise.nil, and_true]
  exact ⟨⟨hnext _, hsecond _⟩, hnext _⟩

/-- Nothing above `rsp` is saved over. -/
theorem savedMem_above {k : ℕ} (hk : k < 2 ^ 63) :
    savedMem s (s.regs.rsp + BitVec.ofNat 64 k) = s.mem (s.regs.rsp + BitVec.ofNat 64 k) := by
  apply storeAll_of_notMem
  intro w hw hmem
  have hbelow := savedWords_subset hw hmem
  have hoffset : s.regs.rsp + BitVec.ofNat 64 k - (s.regs.rsp - 8 - 8 - 8)
      = BitVec.ofNat 64 (k + 24) := by
    rw [BitVec.ofNat_add, show BitVec.ofNat 64 24 = (8 : Word) + 8 + 8 from rfl]
    ring
  rw [mem_region, hoffset, BitVec.toNat_ofNat] at hbelow
  omega

/-- Byte `k` of the new stack at the call. -/
def newStackByte (s : State) (k : ℕ) : Byte :=
  if k < 8 * (used s / 8) then s.mem (s.regs.rsp + BitVec.ofNat 64 k)
  else savedMem s (s.regs.rdi + BitVec.ofNat 64 k)

/-- Outside the new stack too, where nothing is copied. -/
theorem switchedMem_eq (h : Entry s) (hroom : used s < s.regs.rdx.toNat) (x : Word) :
    switchedMem s x = newStackByte s (x - s.regs.rdi).toNat := by
  have hused := h.used_lt hroom
  have hoffset : BitVec.ofNat 64 (x - s.regs.rdi).toNat = x - s.regs.rdi := by
    rw [BitVec.ofNat_toNat, BitVec.setWidth_eq]
  rw [switchedMem, copied, newStackByte, hoffset]
  by_cases hcopied : (x - s.regs.rdi).toNat < 8 * (used s / 8)
  · have habove := savedMem_above (s := s) (k := (x - s.regs.rdi).toNat) (by omega)
    rw [hoffset] at habove
    rw [if_pos hcopied, if_pos hcopied, habove]
  · rw [if_neg hcopied, if_neg hcopied, add_sub_cancel]

theorem switchedMem_apply (h : Entry s) (hroom : used s < s.regs.rdx.toNat) {k : ℕ}
    (hk : k < s.regs.rdx.toNat) :
    switchedMem s (s.regs.rdi + BitVec.ofNat 64 k) = newStackByte s k := by
  have hsize := s.regs.rdx.isLt
  rw [switchedMem_eq h hroom, add_sub_cancel_left, BitVec.toNat_ofNat, Nat.mod_eq_of_lt (by omega)]

/-- The word at `a` when the trampoline pops it. The copy may have come over it. -/
def foundWord (s : State) (a : Word) : Word :=
  load64 (fun x => newStackByte s (x - s.regs.rdi).toNat) a

/-- By how much the saved words are off, taken together, when they are popped. -/
def drift (s : State) : Word :=
  (foundWord s (s.regs.rsp - 8 - 8) - s.regs.rdi) - (foundWord s (s.regs.rsp - 8) - s.regs.rsp)
    - (foundWord s (s.regs.rsp - 8 - 8 - 8) - usedWord s)

theorem Entry.usedWord_eq (h : Entry s) : usedWord s = BitVec.ofNat 64 (used s) := by
  rw [← h.toNat_usedWord, BitVec.ofNat_toNat, BitVec.setWidth_eq]

theorem switchedRsp_eq (h : Entry s) (hroom : used s < s.regs.rdx.toNat) :
    switchedRsp s = roundDown16 (newTop s + drift s) := by
  have hfound (a : Word) : load64 (switchedMem s) a = foundWord s a :=
    load64_congr fun x _ => switchedMem_eq h hroom x
  rw [switchedRsp, hfound, hfound, hfound, newTop, drift, h.usedWord_eq]
  exact congrArg roundDown16 (by ring)

theorem toNat_roundDown16 (a : Word) : (roundDown16 a).toNat = a.toNat / 16 * 16 := by
  have hsixteen : (16 : Word).toNat = 2 ^ 4 := rfl
  exact Layout.toNat_and_not_pred hsixteen

theorem roundDown16_add_eq_iff (a e : Word) :
    roundDown16 (a + e) = roundDown16 a ↔ ((a &&& 15) + e).toNat < 16 := by
  have hlow : (a &&& 15).toNat = a.toNat % 16 := Nat.and_two_pow_sub_one_eq_mod a.toNat 4
  have ha := a.isLt
  have he := e.isLt
  rw [← BitVec.toNat_inj, toNat_roundDown16, toNat_roundDown16, BitVec.toNat_add,
    BitVec.toNat_add, hlow]
  omega

/-- The bytes at the top of the new stack, by their distance from its base. -/
theorem newTop_add (hroom : used s < s.regs.rdx.toNat) (i : ℕ) :
    newTop s + BitVec.ofNat 64 i
      = s.regs.rdi + BitVec.ofNat 64 (s.regs.rdx.toNat - used s + i) := by
  have hsize : s.regs.rdx = BitVec.ofNat 64 (s.regs.rdx.toNat - used s)
      + BitVec.ofNat 64 (used s) := by
    rw [← BitVec.ofNat_add, Nat.sub_add_cancel hroom.le, BitVec.ofNat_toNat, BitVec.setWidth_eq]
  rw [newTop, BitVec.ofNat_add]
  nth_rewrite 1 [hsize]
  ring

theorem switchedRsp_of_apart (h : Entry s) (hroom : used s < s.regs.rdx.toNat)
    (hapart : SavedApart s) : switchedRsp s = roundDown16 (newTop s) := by
  have hwords : 8 * (used s / 8) ≤ s.regs.rdx.toNat :=
    (Nat.mul_div_le _ _).trans hroom.le
  have hload (a v : Word) (hw : (a, v) ∈ savedWords s) : load64 (switchedMem s) a = v := by
    have hsaved := load64_storeAll (m := s.mem) (savedWords_pairwise s) hw
    have hkept : load64 (switchedMem s) a = load64 (storeAll s.mem (savedWords s)) a := by
      apply load64_congr
      intro x hx
      apply copied_of_notMem
      intro hmem
      exact Set.disjoint_left.mp hapart (savedWords_subset hw hx) (region_mono hwords hmem)
    exact hkept.trans hsaved
  have hrsp : load64 (switchedMem s) (s.regs.rsp - 8) = s.regs.rsp :=
    hload _ _ List.mem_cons_self
  have hrdi : load64 (switchedMem s) (s.regs.rsp - 8 - 8) = s.regs.rdi :=
    hload _ _ (List.mem_cons_of_mem _ List.mem_cons_self)
  have hrcx : load64 (switchedMem s) (s.regs.rsp - 8 - 8 - 8) = usedWord s :=
    hload _ _ (List.mem_cons_of_mem _ (List.mem_cons_of_mem _ List.mem_cons_self))
  rw [switchedRsp, hrsp, hrdi, hrcx, add_sub_cancel_left, h.usedWord_eq, newTop]

/-! ### Main result -/

/-- The compare is not misled by a stack of 2^63 bytes, the bytes that the call
finds at the top of the new stack happen to be those of the old one, and what
has come over the saved words cancels out up to the alignment. -/
structure StackKept (s : State) : Prop where
  compare : used s < 2 ^ 63 ↔ s.regs.rdx.toNat < 2 ^ 63
  bytes : used s < s.regs.rdx.toNat → ∀ i < used s,
    newStackByte s (s.regs.rdx.toNat - used s + i) = s.mem (s.regs.rsp + BitVec.ofNat 64 i)
  saved : used s < s.regs.rdx.toNat → ¬ SavedApart s → ((newTop s &&& 15) + drift s).toNat < 16

theorem arrives_iff_run {k : ℕ}
    (hcall : AtCall ldStackTrampoline s.regs.r8 (run ldStackTrampoline k s)) :
    Arrives s ↔ SwitchesStack s (run ldStackTrampoline k s) := by
  constructor
  · rintro ⟨n, hcall', hswitch⟩
    rwa [hcall.run_eq hcall']
  · intro hswitch
    exact ⟨k, hcall, hswitch⟩

theorem switches_accepted_iff (h : Entry s) (hroom : used s < s.regs.rdx.toNat) :
    SwitchesStack s (accepted s) ↔
      switchedRsp s = roundDown16 (newTop s) ∧ ∀ i < used s,
        newStackByte s (s.regs.rdx.toNat - used s + i)
          = s.mem (s.regs.rsp + BitVec.ofNat 64 i) := by
  have hbyte (i : ℕ) (hi : i < used s) : (accepted s).mem (newTop s + BitVec.ofNat 64 i)
      = newStackByte s (s.regs.rdx.toNat - used s + i) := by
    rw [newTop_add hroom]
    exact switchedMem_apply h hroom (by omega)
  constructor
  · intro hswitch
    refine ⟨hswitch.rsp hroom, fun i hi => ?_⟩
    rw [← hbyte i hi]
    exact hswitch.copied hroom i hi
  · rintro ⟨hrsp, hbytes⟩
    refine ⟨rfl, fun _ => rfl, fun _ => hrsp, fun _ i hi => ?_, ?_⟩
    · rw [hbyte i hi]
      exact hbytes i hi
    · intro hfull
      exact absurd hroom (Nat.not_lt.mpr hfull)

theorem atCall_accepted (s : State) : AtCall ldStackTrampoline s.regs.r8 (accepted s) :=
  ⟨.rax, rfl, rfl⟩

theorem atCall_refused (s : State) : AtCall ldStackTrampoline s.regs.r8 (refused s) :=
  ⟨.rax, rfl, rfl⟩

theorem arrives_iff_of_accepted (h : Entry s) (hroom : used s < s.regs.rdx.toNat)
    (hless : (usedWord s).slt s.regs.rdx = true) : Arrives s ↔ StackKept s := by
  have hrun := run_accepted h hroom hless
  have hdrift : switchedRsp s = roundDown16 (newTop s) ↔
      ((newTop s &&& 15) + drift s).toNat < 16 := by
    rw [switchedRsp_eq h hroom, roundDown16_add_eq_iff]
  rw [arrives_iff_run (hrun ▸ atCall_accepted s), hrun, switches_accepted_iff h hroom]
  constructor
  · rintro ⟨hrsp, hbytes⟩
    exact ⟨h.compare_iff.mp (iff_of_true hless hroom), fun _ => hbytes,
      fun _ _ => hdrift.mp hrsp⟩
  · intro hkept
    refine ⟨?_, hkept.bytes hroom⟩
    by_cases hapart : SavedApart s
    · exact switchedRsp_of_apart h hroom hapart
    · exact hdrift.mpr (hkept.saved hroom hapart)

theorem arrives_iff_of_refused (h : Entry s) (hfull : s.regs.rdx.toNat ≤ used s)
    (hless : (usedWord s).slt s.regs.rdx = false) : Arrives s ↔ StackKept s := by
  have hrun := run_refused h hless
  have hroom : ¬ used s < s.regs.rdx.toNat := Nat.not_lt.mpr hfull
  rw [arrives_iff_run (hrun ▸ atCall_refused s), hrun]
  refine iff_of_true ⟨rfl, ?_, ?_, ?_, fun _ => rfl⟩ ⟨?_, ?_, ?_⟩
  · exact fun hlt => absurd hlt hroom
  · exact fun hlt => absurd hlt hroom
  · exact fun hlt => absurd hlt hroom
  · exact h.compare_iff.mp (iff_of_false (Bool.eq_false_iff.mp hless) hroom)
  · exact fun hlt => absurd hlt hroom
  · exact fun hlt => absurd hlt hroom

/-- The trampoline does what its comment says on exactly those stacks. -/
theorem arrives_iff (h : Entry s) : Arrives s ↔ StackKept s := by
  by_cases hroom : used s < s.regs.rdx.toNat
  · cases hless : (usedWord s).slt s.regs.rdx with
    | true => exact arrives_iff_of_accepted h hroom hless
    | false =>
        have hrun := run_refused h hless
        rw [arrives_iff_run (hrun ▸ atCall_refused s), hrun]
        refine iff_of_false ?_ ?_
        · intro hswitch
          exact absurd (hswitch.has_new_stack hroom) (show (0 : Word) ≠ 1 by decide)
        · intro hkept
          have hyes := (h.compare_iff.mpr hkept.compare).mpr hroom
          rw [hless] at hyes
          cases hyes
  · have hfull := Nat.le_of_not_lt hroom
    cases hless : (usedWord s).slt s.regs.rdx with
    | false => exact arrives_iff_of_refused h hfull hless
    | true =>
        obtain ⟨hcall, hrdi⟩ := run_less h.pc hless
        rw [arrives_iff_run hcall]
        refine iff_of_false ?_ ?_
        · intro hswitch
          have hzero := hswitch.refused hfull
          rw [hrdi] at hzero
          exact absurd hzero (by decide)
        · intro hkept
          exact hroom ((h.compare_iff.mpr hkept.compare).mp hless)

/-- An old stack of 32 bytes with one word in use, and a page for the new one. -/
def oneWordRegs : Regs :=
  ⟨0, 0x20, 0x1000, 0x7000, 0x2000, 0x7018, 0x401000, 0x5000⟩

def oneWord (word : Byte) : State where
  pc := 0
  regs := oneWordRegs
  less := false
  mem a := if a = 0x7018 then word else 0

theorem entry_oneWord (word : Byte) : Entry (oneWord word) where
  pc := rfl
  old_fits := show oneWordRegs.rsi.toNat + oneWordRegs.rcx.toNat ≤ 2 ^ 64 by decide
  rsp_mem := show (oneWordRegs.rsp - oneWordRegs.rsi).toNat < oneWordRegs.rcx.toNat by decide
  rsp_aligned := show 8 ∣ oneWordRegs.rsp.toNat by decide
  new_fits := show oneWordRegs.rdi.toNat + oneWordRegs.rdx.toNat ≤ 2 ^ 64 by decide
  apart := by
    change Disjoint (region oneWordRegs.rsi oneWordRegs.rcx.toNat)
      (region oneWordRegs.rdi oneWordRegs.rdx.toNat)
    rw [disjoint_region_iff] <;> decide

theorem arrives_iff_oneWord : Arrives (oneWord 0) ↔ StackKept (oneWord 0) :=
  arrives_iff (entry_oneWord 0)

/-- The word arrives at the base of the new stack and not at its top. -/
theorem arrives_fails : ¬ ∀ s, Entry s → Arrives s := by
  intro h
  have hroom : used (oneWord 1) < (oneWord 1).regs.rdx.toNat := by decide
  have hrun := run_accepted (entry_oneWord 1) hroom (by decide)
  have hswitch := (arrives_iff_run (hrun ▸ atCall_accepted (oneWord 1))).mp (h _ (entry_oneWord 1))
  have hbyte := hswitch.copied hroom 0 (by decide)
  rw [hrun] at hbyte
  exact absurd hbyte (by decide)

end Ciabatta.Loader.Trampoline
