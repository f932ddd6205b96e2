import Ciabatta.CiaMem.Arena
import Ciabatta.Lib.Layout
import Ciabatta.Tinyrt.ThreadLocal

/-!
Where the parts of a thread lie in the mapping of its stack: the TLS block, the
thread block above it, and the stack, which grows down from the end. The thread
finds its block by clearing the low bits of a frame address. `s` is
`cia_stack_size`, and a mapping has twice that length.
-/

namespace Ciabatta.Tinyrt.ThreadLayout

open ByteMemory Layout CiaMem

/-- `sizeof(_LD_Thread_Block)` -/
def sizeofLdThreadBlock : ℕ := 72

/-- The bytes that `_rt_thread_start` stores at the top of the stack: the thread
function, its argument and a return address. -/
def sizeofStartData : ℕ := 24

/-! ### `_rt_thread_create` -/

/-- `stack` of `_rt_thread_create` -/
def stackTop (s stackBase : Word) : Word :=
  stackBase + 2 * s

/-- `tcb` of `_rt_thread_create` -/
def threadTcb (s stackBase : Word) : Word :=
  (stackTop s stackBase - 1) &&& ~~~(s - 1)

/-- `tls_base` of `_rt_thread_create` -/
def threadTls (s stackBase tlsSize : Word) : Word :=
  threadTcb s stackBase - tlsSize

/-- The stack pointer that `_rt_thread_start` gives to the child. -/
def startData (s stackBase : Word) : Word :=
  stackTop s stackBase - BitVec.ofNat 64 sizeofStartData

/-- The handle that `_rt_thread_current` makes from its frame address. The same
formula is in `_rt_thread_finish` and in the handler of `SIGCANCEL`. -/
def rtThreadCurrent (s frame : Word) : Word :=
  frame &&& ~~~(s - 1)

/-- What `sys_mmap` returns for `2 * cia_stack_size` bytes. -/
structure Mapped (s stackBase : Word) : Prop where
  power : ∃ k, s.toNat = 2 ^ k
  page_le : 4096 ≤ s.toNat
  page_dvd : 4096 ∣ stackBase.toNat
  no_wrap : stackBase.toNat + 2 * s.toNat ≤ 2 ^ 64

/-- The loader sets `cia_stack_size` to 1 MB. -/
theorem rtThreadTcb_eq (stackBase : Word) :
    ThreadLocal.rtThreadTcb stackBase = threadTcb ThreadLocal.ciaStackSize stackBase :=
  rfl

variable {s stackBase tlsSize stackSize a : Word}

theorem toNat_rtThreadCurrent (hs : ∃ k, s.toNat = 2 ^ k) (a : Word) :
    (rtThreadCurrent s a).toNat = a.toNat / s.toNat * s.toNat := by
  obtain ⟨k, hk⟩ := hs
  exact toNat_and_not_pred hk

/-- Every address of a block of `s` bytes leads to the start of the block. -/
theorem rtThreadCurrent_eq_iff {tcb : Word} (hs : ∃ k, s.toNat = 2 ^ k)
    (hdvd : s.toNat ∣ tcb.toNat) (hle : tcb.toNat ≤ a.toNat) :
    rtThreadCurrent s a = tcb ↔ a.toNat < tcb.toNat + s.toNat := by
  have hpos : 0 < s.toNat := by
    obtain ⟨k, hk⟩ := hs
    rw [hk]
    positivity
  have hdiv := Nat.div_add_mod a.toNat s.toNat
  have hmod := Nat.mod_lt a.toNat hpos
  rw [← BitVec.toNat_inj, toNat_rtThreadCurrent hs, Nat.mul_comm]
  constructor
  · intro heq
    omega
  · intro hlt
    obtain ⟨q, hq⟩ := hdvd
    have hquot : a.toNat / s.toNat = q := by
      apply Nat.div_eq_of_lt_le
      · rw [Nat.mul_comm, ← hq]
        exact hle
      · rw [Nat.succ_mul, Nat.mul_comm, ← hq]
        exact hlt
    rw [hquot, hq]

namespace Mapped

theorem toNat_pos (h : Mapped s stackBase) : 0 < s.toNat :=
  lt_of_lt_of_le (by decide) h.page_le

theorem page_dvd_size (h : Mapped s stackBase) : 4096 ∣ s.toNat := by
  obtain ⟨k, hk⟩ := h.power
  have hle := h.page_le
  rw [hk] at hle ⊢
  rw [show 4096 = 2 ^ 12 from rfl] at hle ⊢
  exact pow_dvd_pow 2 ((Nat.pow_le_pow_iff_right (by decide)).mp hle)

theorem toNat_stackTop_sub (h : Mapped s stackBase) (hpos : 0 < a.toNat)
    (hle : a.toNat ≤ stackBase.toNat + 2 * s.toNat) :
    (stackTop s stackBase - a).toNat = stackBase.toNat + 2 * s.toNat - a.toNat := by
  have hwrap := h.no_wrap
  rw [stackTop, BitVec.toNat_sub, BitVec.toNat_add, BitVec.toNat_mul,
    show (2 : Word).toNat = 2 from rfl]
  omega

/-- The last byte of the mapping. -/
theorem toNat_stackTop_pred (h : Mapped s stackBase) :
    (stackTop s stackBase - 1).toNat = stackBase.toNat + 2 * s.toNat - 1 := by
  have hpos := h.toNat_pos
  exact h.toNat_stackTop_sub (by decide) (by rw [show (1 : Word).toNat = 1 from rfl]; omega)

theorem toNat_threadTcb (h : Mapped s stackBase) :
    (threadTcb s stackBase).toNat
      = (stackBase.toNat + 2 * s.toNat - 1) / s.toNat * s.toNat := by
  rw [← h.toNat_stackTop_pred]
  exact toNat_rtThreadCurrent h.power _

theorem dvd_threadTcb (h : Mapped s stackBase) : s.toNat ∣ (threadTcb s stackBase).toNat := by
  rw [h.toNat_threadTcb]
  exact Nat.dvd_mul_left _ _

/-- The thread block is in the upper half of the mapping. -/
theorem threadTcb_bounds (h : Mapped s stackBase) :
    stackBase.toNat + s.toNat ≤ (threadTcb s stackBase).toNat ∧
      (threadTcb s stackBase).toNat < stackBase.toNat + 2 * s.toNat := by
  have hpos := h.toNat_pos
  have hdiv := Nat.div_add_mod (stackBase.toNat + 2 * s.toNat - 1) s.toNat
  have hmod := Nat.mod_lt (stackBase.toNat + 2 * s.toNat - 1) hpos
  rw [Nat.mul_comm] at hdiv
  rw [h.toNat_threadTcb]
  omega

/-- Both the thread block and the end of the mapping are on page borders. -/
theorem threadTcb_add_page_le (h : Mapped s stackBase) :
    (threadTcb s stackBase).toNat + 4096 ≤ stackBase.toNat + 2 * s.toNat := by
  have hlt := h.threadTcb_bounds.2
  have htop := Nat.dvd_add h.page_dvd (h.page_dvd_size.mul_left 2)
  have htcb := h.page_dvd_size.trans h.dvd_threadTcb
  omega

/-- All of the upper half is left to the stack on a base that `s` divides. -/
theorem threadTcb_eq_iff (h : Mapped s stackBase) :
    (threadTcb s stackBase).toNat = stackBase.toNat + s.toNat ↔ s.toNat ∣ stackBase.toNat := by
  have hpos := h.toNat_pos
  constructor
  · intro heq
    rw [← Nat.dvd_add_left (dvd_refl s.toNat), ← heq]
    exact h.dvd_threadTcb
  · rintro ⟨q, hq⟩
    have hlast : stackBase.toNat + 2 * s.toNat - 1 = s.toNat - 1 + s.toNat * (q + 1) := by
      rw [hq, Nat.mul_succ]
      omega
    rw [h.toNat_threadTcb, hlast, Nat.add_mul_div_left _ _ hpos, Nat.div_eq_of_lt (by omega), hq,
      Nat.zero_add, Nat.succ_mul, Nat.mul_comm]

end Mapped

/-! ### The layout of a created thread -/

/-- The TLS block, the thread block and the start data are in the mapping, each
in a place of its own, and the thread finds its block from every address up to
the top of the stack. -/
structure LaidOut (s stackBase tlsSize : Word) : Prop where
  tls_subset : region (threadTls s stackBase tlsSize) tlsSize.toNat
    ⊆ region stackBase (2 * s.toNat)
  tcb_subset : region (threadTcb s stackBase) sizeofLdThreadBlock
    ⊆ region stackBase (2 * s.toNat)
  tls_tcb : Disjoint (region (threadTls s stackBase tlsSize) tlsSize.toNat)
    (region (threadTcb s stackBase) sizeofLdThreadBlock)
  tls_start : Disjoint (region (threadTls s stackBase tlsSize) tlsSize.toNat)
    (region (startData s stackBase) sizeofStartData)
  tcb_start : Disjoint (region (threadTcb s stackBase) sizeofLdThreadBlock)
    (region (startData s stackBase) sizeofStartData)
  aligned : s.toNat ∣ (threadTcb s stackBase).toNat
  current : ∀ a : Word, (threadTcb s stackBase).toNat ≤ a.toNat →
    a.toNat < stackBase.toNat + 2 * s.toNat → rtThreadCurrent s a = threadTcb s stackBase

theorem Mapped.toNat_threadTls (h : Mapped s stackBase) (htls : tlsSize.toNat ≤ s.toNat) :
    (threadTls s stackBase tlsSize).toNat = (threadTcb s stackBase).toNat - tlsSize.toNat := by
  have hlow := h.threadTcb_bounds.1
  rw [threadTls, BitVec.toNat_sub]
  omega

theorem Mapped.toNat_startData (h : Mapped s stackBase) :
    (startData s stackBase).toNat = stackBase.toNat + 2 * s.toNat - 24 := by
  have hle := h.page_le
  have hsize : (BitVec.ofNat 64 sizeofStartData).toNat = 24 := rfl
  rw [startData, h.toNat_stackTop_sub (by decide) (by omega), hsize]

theorem laidOut (h : Mapped s stackBase) (htls : tlsSize.toNat ≤ s.toNat) :
    LaidOut s stackBase tlsSize := by
  have hbounds := h.threadTcb_bounds
  have hpage := h.threadTcb_add_page_le
  have hwrap := h.no_wrap
  have htlsPlace := h.toNat_threadTls htls
  have hstartPlace := h.toNat_startData
  have hblock : sizeofLdThreadBlock = 72 := rfl
  have hstart : sizeofStartData = 24 := rfl
  refine ⟨?_, ?_, ?_, ?_, ?_, h.dvd_threadTcb, ?_⟩
  · apply subset_region <;> omega
  · apply subset_region <;> omega
  · apply disjoint_region_of_le <;> omega
  · apply disjoint_region_of_le <;> omega
  · apply disjoint_region_of_le <;> omega
  · intro a hlow hhigh
    rw [rtThreadCurrent_eq_iff h.power h.dvd_threadTcb hlow]
    omega

/-- An odd number of pages as the base, and a TLS image of 24 bytes. -/
theorem laidOut_0x7f0000001000 : LaidOut 0x100000 0x7f0000001000 24 :=
  laidOut ⟨⟨20, rfl⟩, by decide, by decide, by decide⟩ (by decide)

/-! ### The room for the stack -/

/-- The bytes between the end of the thread block and the initial top of the
stack. -/
def stackRoom (s stackBase : Word) : ℕ :=
  (stackTop s stackBase - (threadTcb s stackBase + BitVec.ofNat 64 sizeofLdThreadBlock)).toNat

theorem Mapped.stackRoom_eq (h : Mapped s stackBase) :
    stackRoom s stackBase
      = stackBase.toNat + 2 * s.toNat - ((threadTcb s stackBase).toNat + 72) := by
  have hpage := h.threadTcb_add_page_le
  have hwrap := h.no_wrap
  have hend : (threadTcb s stackBase + BitVec.ofNat 64 sizeofLdThreadBlock).toNat
      = (threadTcb s stackBase).toNat + 72 := by
    rw [BitVec.toNat_add, show (BitVec.ofNat 64 sizeofLdThreadBlock).toNat = 72 from rfl]
    omega
  rw [stackRoom, h.toNat_stackTop_sub (by omega) (by omega), hend]

/-- The stack has all its room if and only if the mapping happens to start on a
multiple of its size. -/
theorem le_stackRoom_iff (h : Mapped s stackBase) :
    s.toNat - sizeofLdThreadBlock ≤ stackRoom s stackBase ↔ s.toNat ∣ stackBase.toNat := by
  have hbounds := h.threadTcb_bounds
  have hpage := h.page_le
  rw [h.stackRoom_eq, ← h.threadTcb_eq_iff]
  unfold sizeofLdThreadBlock
  omega

theorem le_stackRoom_iff_0x7f0000100000 :
    (0x100000 : Word).toNat - sizeofLdThreadBlock ≤ stackRoom 0x100000 0x7f0000100000 ↔
      (0x100000 : Word).toNat ∣ (0x7f0000100000 : Word).toNat :=
  le_stackRoom_iff ⟨⟨20, rfl⟩, by decide, by decide, by decide⟩

/-- One page into a block of 1 MB there is only one page for the stack. -/
theorem le_stackRoom_fails : ¬ ∀ s stackBase : Word, Mapped s stackBase →
    s.toNat - sizeofLdThreadBlock ≤ stackRoom s stackBase := by
  intro h
  have hroom := h 0x100000 0x7f0000001000 ⟨⟨20, rfl⟩, by decide, by decide, by decide⟩
  have hpage : stackRoom 0x100000 0x7f0000001000 = 4096 - 72 := by decide
  rw [hpage] at hroom
  exact absurd hroom (by decide)

/-! ### The main thread -/

/-- `tcb` of `ld_stage3_entry` -/
def ldStage3Tcb (stackBase stackSize tlsSize : Word) : Word :=
  ciaPtrAlignf (stackBase + tlsSize) (stackSize / 2)

/-- `params.stack_size`, which becomes `cia_stack_size` -/
def paramsStackSize (stackSize : Word) : Word :=
  stackSize / 2

/-- The thread block of the main thread and the TLS block below it are in the
mapping, and `_rt_thread_current` finds the block from every address of the
stack above. -/
structure MainLaidOut (stackBase stackSize tlsSize : Word) : Prop where
  tls_subset : region (ldStage3Tcb stackBase stackSize tlsSize - tlsSize) tlsSize.toNat
    ⊆ region stackBase stackSize.toNat
  tcb_subset : region (ldStage3Tcb stackBase stackSize tlsSize) sizeofLdThreadBlock
    ⊆ region stackBase stackSize.toNat
  current : ∀ a : Word, (ldStage3Tcb stackBase stackSize tlsSize).toNat ≤ a.toNat →
    a.toNat < stackBase.toNat + stackSize.toNat →
      rtThreadCurrent (paramsStackSize stackSize) a = ldStage3Tcb stackBase stackSize tlsSize

/-- The loader maps 2 MB. -/
theorem ldStage3Tcb_eq (stackBase : Word) (tlsSize : ℕ) :
    ThreadLocal.ldStage3Tcb stackBase tlsSize
      = ldStage3Tcb stackBase 0x200000 (BitVec.ofNat 64 tlsSize) :=
  rfl

/-- What `sys_mmap` returns to `ld_stage2_entry`. The runtime's stack size is a
power of two, and the TLS image fills at most half of it. -/
structure MainMapped (stackBase stackSize tlsSize : Word) : Prop where
  power : ∃ k, stackSize.toNat = 2 * 2 ^ k
  page_dvd : 4096 ∣ stackBase.toNat
  no_wrap : stackBase.toNat + stackSize.toNat ≤ 2 ^ 64
  tls_le : tlsSize.toNat ≤ (paramsStackSize stackSize).toNat / 2

namespace MainMapped

theorem toNat_paramsStackSize (h : MainMapped stackBase stackSize tlsSize) :
    ∃ k, (paramsStackSize stackSize).toNat = 2 ^ k ∧
      stackSize.toNat = 2 * (paramsStackSize stackSize).toNat := by
  obtain ⟨k, hk⟩ := h.power
  refine ⟨k, ?_⟩
  rw [paramsStackSize, BitVec.toNat_udiv, show (2 : Word).toNat = 2 from rfl, hk]
  omega

theorem toNat_ldStage3Tcb (h : MainMapped stackBase stackSize tlsSize) :
    (ldStage3Tcb stackBase stackSize tlsSize).toNat
      = alignUp (stackBase.toNat + tlsSize.toNat) (paramsStackSize stackSize).toNat := by
  obtain ⟨k, hk, hdouble⟩ := h.toNat_paramsStackSize
  have hpos : 0 < 2 ^ k := by positivity
  have hwrap := h.no_wrap
  have htls := h.tls_le
  have hsum : (stackBase + tlsSize).toNat = stackBase.toNat + tlsSize.toNat := by
    rw [BitVec.toNat_add]
    omega
  rw [ldStage3Tcb, ciaPtrAlignf, ← paramsStackSize, toNat_alignUp hk (by omega), hsum]

theorem dvd_ldStage3Tcb (h : MainMapped stackBase stackSize tlsSize) :
    (paramsStackSize stackSize).toNat ∣ (ldStage3Tcb stackBase stackSize tlsSize).toNat := by
  rw [h.toNat_ldStage3Tcb]
  exact dvd_alignUp _ _

/-- By the place of the base in its block: the TLS image ends in this block, or
it runs over into the next one. -/
theorem toNat_ldStage3Tcb_cases (h : MainMapped stackBase stackSize tlsSize) :
    (stackBase.toNat % (paramsStackSize stackSize).toNat = 0 ∧ tlsSize.toNat = 0 ∧
      (ldStage3Tcb stackBase stackSize tlsSize).toNat = stackBase.toNat) ∨
    (0 < stackBase.toNat % (paramsStackSize stackSize).toNat + tlsSize.toNat ∧
      stackBase.toNat % (paramsStackSize stackSize).toNat + tlsSize.toNat
        ≤ (paramsStackSize stackSize).toNat ∧
      (ldStage3Tcb stackBase stackSize tlsSize).toNat
        = stackBase.toNat - stackBase.toNat % (paramsStackSize stackSize).toNat
          + (paramsStackSize stackSize).toNat) ∨
    ((paramsStackSize stackSize).toNat
        < stackBase.toNat % (paramsStackSize stackSize).toNat + tlsSize.toNat ∧
      (ldStage3Tcb stackBase stackSize tlsSize).toNat
        = stackBase.toNat - stackBase.toNat % (paramsStackSize stackSize).toNat
          + 2 * (paramsStackSize stackSize).toNat) := by
  obtain ⟨k, hk, hdouble⟩ := h.toNat_paramsStackSize
  have hpos : 0 < 2 ^ k := by positivity
  have htls := h.tls_le
  rw [h.toNat_ldStage3Tcb]
  generalize (paramsStackSize stackSize).toNat = n at *
  have hdiv := Nat.div_add_mod stackBase.toNat n
  have hmod := Nat.mod_lt stackBase.toNat (by omega : 0 < n)
  generalize stackBase.toNat / n = q at *
  generalize stackBase.toNat % n = r at *
  -- how many whole blocks lie between the start of the base's block and the round-up
  have hblocks (i j : ℕ) (hj : j < n) (hsum : r + tlsSize.toNat + n - 1 = n * i + j) :
      alignUp (stackBase.toNat + tlsSize.toNat) n = n * q + n * i := by
    have hsplit : stackBase.toNat + tlsSize.toNat + n - 1 = j + n * (q + i) := by
      rw [Nat.mul_add]
      omega
    rw [alignUp, hsplit, Nat.add_mul_div_left _ _ (by omega), Nat.div_eq_of_lt hj, Nat.zero_add,
      Nat.mul_comm, Nat.mul_add]
  rcases Nat.eq_zero_or_pos (r + tlsSize.toNat) with hzero | hsome
  · left
    have halign := hblocks 0 (n - 1) (by omega) (by omega)
    omega
  · right
    rcases Nat.lt_or_ge n (r + tlsSize.toNat) with hover | hwithin
    · right
      have halign := hblocks 2 (r + tlsSize.toNat - n - 1) (by omega) (by omega)
      omega
    · left
      have halign := hblocks 1 (r + tlsSize.toNat - 1) (by omega) (by omega)
      omega

/-- The lookup needs the thread block in the upper half. -/
theorem current_iff (h : MainMapped stackBase stackSize tlsSize)
    (hlt : (ldStage3Tcb stackBase stackSize tlsSize).toNat
      < stackBase.toNat + stackSize.toNat) :
    (∀ a : Word, (ldStage3Tcb stackBase stackSize tlsSize).toNat ≤ a.toNat →
      a.toNat < stackBase.toNat + stackSize.toNat →
        rtThreadCurrent (paramsStackSize stackSize) a
          = ldStage3Tcb stackBase stackSize tlsSize) ↔
      stackBase.toNat + (paramsStackSize stackSize).toNat
        ≤ (ldStage3Tcb stackBase stackSize tlsSize).toNat := by
  obtain ⟨k, hk, hdouble⟩ := h.toNat_paramsStackSize
  have hwrap := h.no_wrap
  constructor
  · intro hall
    have hlast : (BitVec.ofNat 64 (stackBase.toNat + stackSize.toNat - 1)).toNat
        = stackBase.toNat + stackSize.toNat - 1 := by
      rw [BitVec.toNat_ofNat]
      omega
    have hlow : (ldStage3Tcb stackBase stackSize tlsSize).toNat
        ≤ (BitVec.ofNat 64 (stackBase.toNat + stackSize.toNat - 1)).toNat := by
      omega
    have hfound := hall _ hlow (by omega)
    rw [rtThreadCurrent_eq_iff ⟨k, hk⟩ h.dvd_ldStage3Tcb hlow] at hfound
    omega
  · intro hhalf a hlow hhigh
    rw [rtThreadCurrent_eq_iff ⟨k, hk⟩ h.dvd_ldStage3Tcb hlow]
    omega

/-- A base that is not on a multiple of the stack size is a whole page behind
it. -/
theorem page_le_mod (h : MainMapped stackBase stackSize tlsSize)
    (hne : stackBase.toNat % (paramsStackSize stackSize).toNat ≠ 0) :
    4096 ≤ stackBase.toNat % (paramsStackSize stackSize).toNat := by
  obtain ⟨k, hk, -⟩ := h.toNat_paramsStackSize
  rw [hk] at hne ⊢
  rcases Nat.le_total k 12 with hsmall | hlarge
  · have hdvd : 2 ^ k ∣ stackBase.toNat :=
      (pow_dvd_pow 2 hsmall).trans (show 2 ^ 12 ∣ stackBase.toNat from h.page_dvd)
    exact absurd (Nat.mod_eq_zero_of_dvd hdvd) hne
  · have hpage : 4096 ∣ stackBase.toNat % 2 ^ k :=
      (Nat.dvd_mod_iff (show 2 ^ 12 ∣ 2 ^ k from pow_dvd_pow 2 hlarge)).mpr h.page_dvd
    exact Nat.le_of_dvd (Nat.pos_of_ne_zero hne) hpage

theorem mainLaidOut_of_bounds (h : MainMapped stackBase stackSize tlsSize)
    (hlow : stackBase.toNat + (paramsStackSize stackSize).toNat
      ≤ (ldStage3Tcb stackBase stackSize tlsSize).toNat)
    (hhigh : (ldStage3Tcb stackBase stackSize tlsSize).toNat + sizeofLdThreadBlock
      ≤ stackBase.toNat + stackSize.toNat) :
    MainLaidOut stackBase stackSize tlsSize := by
  have hwrap := h.no_wrap
  have htls := h.tls_le
  have hblock : sizeofLdThreadBlock = 72 := rfl
  have hplace : (ldStage3Tcb stackBase stackSize tlsSize - tlsSize).toNat
      = (ldStage3Tcb stackBase stackSize tlsSize).toNat - tlsSize.toNat := by
    rw [BitVec.toNat_sub]
    omega
  refine ⟨?_, ?_, ?_⟩
  · apply subset_region <;> omega
  · apply subset_region <;> omega
  · rw [h.current_iff (by omega)]
    exact hlow

theorem size_le_of_subset (h : MainMapped stackBase stackSize tlsSize)
    (htcb : (ldStage3Tcb stackBase stackSize tlsSize).toNat
      = stackBase.toNat + (paramsStackSize stackSize).toNat)
    (hsubset : region (ldStage3Tcb stackBase stackSize tlsSize) sizeofLdThreadBlock
      ⊆ region stackBase stackSize.toNat) :
    sizeofLdThreadBlock ≤ (paramsStackSize stackSize).toNat := by
  obtain ⟨k, hk, hdouble⟩ := h.toNat_paramsStackSize
  have hpos : 0 < 2 ^ k := by positivity
  have hlt := stackSize.isLt
  by_contra hsmall
  -- the first byte behind the mapping would be in the block
  have hmem : ldStage3Tcb stackBase stackSize tlsSize + paramsStackSize stackSize
      ∈ region (ldStage3Tcb stackBase stackSize tlsSize) sizeofLdThreadBlock := by
    rw [mem_region, add_sub_cancel_left]
    exact Nat.lt_of_not_le hsmall
  have hbehind := hsubset hmem
  rw [mem_region, BitVec.toNat_sub, BitVec.toNat_add, htcb] at hbehind
  omega

end MainMapped

/-- The base is a multiple of the runtime's stack size and there is a TLS image,
or the image runs over into the next multiple. -/
theorem mainLaidOut_iff (h : MainMapped stackBase stackSize tlsSize) :
    MainLaidOut stackBase stackSize tlsSize ↔
      ((paramsStackSize stackSize).toNat ∣ stackBase.toNat ∧ 0 < tlsSize.toNat ∧
        sizeofLdThreadBlock ≤ (paramsStackSize stackSize).toNat) ∨
      (paramsStackSize stackSize).toNat
        < stackBase.toNat % (paramsStackSize stackSize).toNat + tlsSize.toNat := by
  obtain ⟨k, hk, hdouble⟩ := h.toNat_paramsStackSize
  have hpos : 0 < 2 ^ k := by positivity
  have hmod := Nat.mod_le stackBase.toNat (paramsStackSize stackSize).toNat
  have htls := h.tls_le
  have hplace := h.toNat_ldStage3Tcb_cases
  constructor
  · intro hlaid
    have hhalf : stackBase.toNat + (paramsStackSize stackSize).toNat
        ≤ (ldStage3Tcb stackBase stackSize tlsSize).toNat :=
      (h.current_iff (by omega)).mp hlaid.current
    rcases hplace with ⟨-, -, htcb⟩ | ⟨hsome, -, htcb⟩ | ⟨hover, -⟩
    · omega
    · have haligned : stackBase.toNat % (paramsStackSize stackSize).toNat = 0 := by omega
      left
      refine ⟨Nat.dvd_of_mod_eq_zero haligned, by omega, ?_⟩
      exact h.size_le_of_subset (by omega) hlaid.tcb_subset
    · exact .inr hover
  · rintro (⟨hdvd, himage, hsize⟩ | hover)
    · rw [Nat.mod_eq_zero_of_dvd hdvd] at hplace
      apply h.mainLaidOut_of_bounds <;> omega
    · have hpage := h.page_le_mod (by omega)
      have hlt : stackBase.toNat % (paramsStackSize stackSize).toNat
          < (paramsStackSize stackSize).toNat := Nat.mod_lt _ (by omega)
      have hblock : sizeofLdThreadBlock = 72 := rfl
      apply h.mainLaidOut_of_bounds <;> omega

theorem mainLaidOut_iff_0x7f0000000000 :
    MainLaidOut 0x7f0000000000 0x200000 24 ↔
      ((paramsStackSize 0x200000).toNat ∣ (0x7f0000000000 : Word).toNat ∧
        0 < (24 : Word).toNat ∧ sizeofLdThreadBlock ≤ (paramsStackSize 0x200000).toNat) ∨
      (paramsStackSize 0x200000).toNat
        < (0x7f0000000000 : Word).toNat % (paramsStackSize 0x200000).toNat + (24 : Word).toNat :=
  mainLaidOut_iff ⟨⟨20, rfl⟩, by decide, by decide, by decide⟩

/-- Without a TLS image the thread block lies at the base of an aligned mapping,
and the upper half of the stack leads elsewhere. -/
theorem mainLaidOut_fails : ¬ ∀ stackBase stackSize tlsSize : Word,
    MainMapped stackBase stackSize tlsSize → MainLaidOut stackBase stackSize tlsSize := by
  intro h
  have hlaid := h 0x7f0000000000 0x200000 0 ⟨⟨20, rfl⟩, by decide, by decide, by decide⟩
  have hcurrent := hlaid.current 0x7f0000100000 (by decide) (by decide)
  exact absurd hcurrent (by decide)

end Ciabatta.Tinyrt.ThreadLayout
