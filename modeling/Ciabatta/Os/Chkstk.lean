import Ciabatta.Lib.Layout
import Ciabatta.Lib.X64

/-!
`__chkstk` (`chkstk.asm`), which the compiler calls on Windows before it makes a stack
frame of `rax` bytes. The pages of a stack are committed one by one, each when its
guard page is touched, so the pages of the new frame are touched in order, from the
stack limit in the thread environment block down.
-/

namespace Ciabatta.Os.Chkstk

open ByteMemory X64

/-- `__chkstk`. The labels `.loop` and `.end` are positions 11 and 15. -/
def chkstk : List (Instr Empty) :=
  [.sub .rsp (.imm 0x10),
    .store .rsp 0 .r10,
    .store .rsp 8 .r11,
    .xor .r11 (.reg .r11),
    .lea .r10 .rsp 0x18,
    .sub .r10 (.reg .rax),
    .cmovb .r10 .r11,
    .loadGs .r11 0x10,
    .cmp .r10 .r11,
    .jnb 15,
    .andLow16 .r10 0xf000,
    -- .loop:
    .lea .r11 .r11 (-0x1000),
    .storeByte .r11 0 0,
    .cmp .r10 .r11,
    .jnz 11,
    -- .end:
    .load .r10 .rsp 0,
    .load .r11 .rsp 8,
    .add .rsp (.imm 0x10),
    .ret]

/-- Where the new frame ends: `rax` bytes below the stack pointer of the caller, or at 0
if there are not that many. -/
def target (s : State) : Word :=
  if s.regs .rsp + 8 < s.regs .rax then 0 else s.regs .rsp + 8 - s.regs .rax

/-- `StackLimit` in the thread environment block. -/
def stackLimit (s : State) : Word :=
  load64 s.mem (s.gsBase + 0x10)

/-- The page of an address, as the code computes it. -/
def page (a : Word) : Word :=
  a &&& 0xffffffffffff0000 ||| (a.setWidth 16 &&& 0xf000).setWidth 64

/-- `n` pages below `limit`, from the top. -/
def pagesBelow (limit : Word) (n : ℕ) : List Word :=
  (List.range n).map fun k => limit - BitVec.ofNat 64 (4096 * (k + 1))

def newPageCount (s : State) : ℕ :=
  ((stackLimit s).toNat - (page (target s)).toNat) / 4096

/-- The pages of the new frame below the stack limit. -/
def newPages (s : State) : List Word :=
  pagesBelow (stackLimit s) (newPageCount s)

/-- A call of `__chkstk` on the stack of a thread: what it saves lies above the stack
limit. -/
structure Entry (s : State) : Prop where
  pc : s.pc = 0
  limit_dvd : 4096 ∣ (stackLimit s).toNat
  limit_le : (stackLimit s).toNat + 16 ≤ (s.regs .rsp).toNat
  fits : (s.regs .rsp).toNat + 8 < 2 ^ 64
  teb : Disjoint (region (s.gsBase + 0x10) 8) (region (s.regs .rsp - 16) 16)

/-- Every register is as before, and the new pages have been touched in order. -/
structure Returns (s t : State) : Prop where
  ret : At chkstk t .ret
  regs : t.regs = s.regs
  stored : t.stored = s.stored ++ [s.regs .rsp - 16, s.regs .rsp - 8] ++ newPages s
  touched : ∀ p ∈ newPages s, t.mem p = 0
  frame : ∀ x, x ∉ newPages s → x ∉ region (s.regs .rsp - 16) 16 → t.mem x = s.mem x

variable {s t : State} {a x limit : Word} {n k : ℕ} {ps : List Word}

/-! ### The pages -/

theorem toNat_page (a : Word) : (page a).toNat = a.toNat / 4096 * 4096 := by
  have hlow : (a.setWidth 16 &&& 0xf000).setWidth 64 = a &&& 0xf000 := by
    apply BitVec.eq_of_toNat_eq
    rw [BitVec.toNat_setWidth, BitVec.toNat_and, BitVec.toNat_and, BitVec.toNat_setWidth,
      ← Nat.and_two_pow_sub_one_eq_mod a.toNat 16, Nat.and_assoc,
      Nat.mod_eq_of_lt (Nat.and_le_right.trans_lt (by decide))]
    rfl
  have hpage : page a = a &&& ~~~(4096 - 1) := by
    rw [page, hlow, ← BitVec.and_or_distrib_left]
    rfl
  rw [hpage, Layout.toNat_and_not_pred (k := 12) rfl]
  rfl

theorem toNat_sub_ofNat (h : n ≤ a.toNat) : (a - BitVec.ofNat 64 n).toNat = a.toNat - n := by
  have ha := a.isLt
  rw [BitVec.toNat_sub, BitVec.toNat_ofNat]
  omega

theorem mem_pagesBelow (hn : 4096 * n ≤ limit.toNat) : x ∈ pagesBelow limit n ↔
    ∃ k < n, x.toNat + 4096 * (k + 1) = limit.toNat := by
  rw [pagesBelow, List.mem_map]
  simp only [List.mem_range]
  refine exists_congr fun k => and_congr_right fun hk => ?_
  have hpage := toNat_sub_ofNat (a := limit) (n := 4096 * (k + 1)) (by omega)
  constructor
  · rintro rfl
    omega
  · intro hx
    apply BitVec.eq_of_toNat_eq
    omega

theorem pagesBelow_succ (limit : Word) (n : ℕ) :
    pagesBelow limit (n + 1) =
      pagesBelow limit n ++ [limit - BitVec.ofNat 64 (4096 * (n + 1))] := by
  rw [pagesBelow, pagesBelow, List.range_succ, List.map_append]
  rfl

/-! ### The memory -/

/-- The memory with a zero at each of the addresses. -/
def touch (m : Mem) (ps : List Word) : Mem :=
  ps.foldl (fun m p => Function.update m p 0) m

theorem touch_concat (m : Mem) (ps : List Word) (p : Word) :
    touch m (ps ++ [p]) = Function.update (touch m ps) p 0 := by
  rw [touch, List.foldl_append]
  rfl

theorem touch_eq (m : Mem) (ps : List Word) (x : Word) :
    touch m ps x = if x ∈ ps then 0 else m x := by
  induction ps using List.reverseRecOn with
  | nil => rfl
  | append_singleton ps p ih =>
      rw [touch_concat]
      by_cases hx : x = p
      · simp [hx]
      · simp [ih, hx]

/-- The memory after the two stores. -/
def savedMem (s : State) : Mem :=
  store64 (store64 s.mem (s.regs .rsp - 16 + 0) (s.regs .r10)) (s.regs .rsp - 16 + 8) (s.regs .r11)

/-! ### The run -/

section Stretches

variable (regs : Reg → Word) (below zero : Bool) (gsBase : Word) (mem : Mem) (stored : List Word)

theorem steps_round :
    steps chkstk 3 ⟨11, regs, below, zero, gsBase, mem, stored⟩
      = some ⟨14, Function.update regs .r11 (regs .r11 + -0x1000),
          decide (regs .r10 < regs .r11 + -0x1000), regs .r10 == regs .r11 + -0x1000, gsBase,
          Function.update mem (regs .r11 + -0x1000) 0, stored ++ [regs .r11 + -0x1000]⟩ := by
  simp [steps, step, chkstk, Instr.exec, State.set, State.next, State.flags, State.storeTo]

theorem steps_compare :
    steps chkstk 1 ⟨8, regs, below, zero, gsBase, mem, stored⟩
      = some ⟨9, regs, decide (regs .r10 < regs .r11), regs .r10 == regs .r11, gsBase, mem,
          stored⟩ := by
  simp [steps, step, chkstk, Instr.exec, State.next, State.flags]

theorem steps_page :
    steps chkstk 1 ⟨10, regs, below, zero, gsBase, mem, stored⟩
      = some ⟨11, Function.update regs .r10 (page (regs .r10)), false,
          (regs .r10).setWidth 16 &&& 0xf000 == 0, gsBase, mem, stored⟩ := by
  simp [steps, step, chkstk, Instr.exec, State.set, State.next, State.flags, page]

theorem steps_restore :
    ∃ below' zero', steps chkstk 3 ⟨15, regs, below, zero, gsBase, mem, stored⟩
      = some ⟨18, Function.update (Function.update (Function.update regs .r10
          (load64 mem (regs .rsp))) .r11 (load64 mem (regs .rsp + 8))) .rsp (regs .rsp + 16),
          below', zero', gsBase, mem, stored⟩ := by
  simp [steps, step, chkstk, Instr.exec, State.set, State.next, State.flags, State.get]

end Stretches

/-- Between the stores and the loads at the end, with the pages `ps` touched. -/
structure Inside (s : State) (ps : List Word) (t : State) : Prop where
  rsp : t.regs .rsp = s.regs .rsp - 16
  kept : ∀ q, q ∉ [Reg.r10, .r11, .rsp] → t.regs q = s.regs q
  mem : t.mem = touch (savedMem s) ps
  stored : t.stored = s.stored ++ [s.regs .rsp - 16, s.regs .rsp - 8] ++ ps
  gsBase : t.gsBase = s.gsBase

/-- In front of `cmovb`. -/
structure Aimed (s t : State) : Prop where
  pc : t.pc = 6
  r10 : t.regs .r10 = s.regs .rsp - 16 + 0x18 - s.regs .rax
  r11 : t.regs .r11 = 0
  below : t.below = decide (s.regs .rsp - 16 + 0x18 < s.regs .rax)
  inside : Inside s [] t

theorem leads_aimed (hpc : s.pc = 0) : Leads chkstk (Aimed s) s := by
  obtain ⟨pc, regs, below, zero, gsBase, mem, stored⟩ := s
  obtain rfl : pc = 0 := hpc
  have hsecond : regs .rsp - 16 + 8 = regs .rsp - 8 := by
    rw [sub_add]
    rfl
  have hstored : stored ++ [regs .rsp - 16 + 0] ++ [regs .rsp - 16 + 8]
      = stored ++ [regs .rsp - 16, regs .rsp - 8] ++ [] := by
    rw [add_zero, hsecond]
    simp
  refine .of_steps (n := 6) rfl (.here ⟨rfl, rfl, BitVec.xor_self, rfl, ?_⟩)
  exact ⟨rfl, fun q hq => by cases q <;> first | rfl | exact absurd (by decide) hq, rfl, hstored,
    rfl⟩

/-- In front of the comparison with the stack limit. -/
structure Checked (s t : State) : Prop where
  pc : t.pc = 8
  r10 : t.regs .r10 = target s
  r11 : t.regs .r11 = stackLimit s
  inside : Inside s [] t

theorem savedMem_of_notMem (hx : x ∉ region (s.regs .rsp - 16) 16) : savedMem s x = s.mem x := by
  have hfirst : x ∉ region (s.regs .rsp - 16 + 0) 8 := fun hmem =>
    hx (region_add_subset (k := 0) (by norm_num) (by norm_num) hmem)
  have hsecond : x ∉ region (s.regs .rsp - 16 + 8) 8 := fun hmem =>
    hx (region_add_subset (k := 8) (by norm_num) (by norm_num) hmem)
  rw [savedMem, store64_of_notMem hsecond, store64_of_notMem hfirst]

/-- A step that sets one of the two registers that are saved. -/
theorem Inside.set (h : Inside s ps t) {r : Reg} (hr : r = .r10 ∨ r = .r11) (v : Word)
    (below zero : Bool) (pc : ℕ) :
    Inside s ps ⟨pc, Function.update t.regs r v, below, zero, t.gsBase, t.mem, t.stored⟩ where
  rsp := by
    have hne : Reg.rsp ≠ r := by
      rcases hr with rfl | rfl <;> decide
    exact (Function.update_of_ne hne v t.regs).trans h.rsp
  kept q hq := by
    have hne : q ≠ r := by
      rintro rfl
      rcases hr with rfl | rfl <;> exact hq (by decide)
    exact (Function.update_of_ne hne v t.regs).trans (h.kept q hq)
  mem := h.mem
  stored := h.stored
  gsBase := h.gsBase

theorem Entry.leads_checked (h : Entry s) (ht : Aimed s t) : Leads chkstk (Checked s) t := by
  have hlimit : load64 t.mem (t.gsBase + 0x10) = stackLimit s := by
    rw [ht.inside.mem, ht.inside.gsBase]
    exact load64_congr fun x hx => savedMem_of_notMem (Set.disjoint_left.mp h.teb hx)
  have haddr : s.regs .rsp - 16 + 0x18 = s.regs .rsp + 8 := by
    rw [sub_add_eq_add_sub, add_sub_assoc]
    rfl
  obtain ⟨hpc, hr10, hr11, hbelow, hinside⟩ := ht
  rw [haddr] at hbelow hr10
  obtain ⟨pc, regs, below, zero, gsBase, mem, stored⟩ := t
  obtain rfl : pc = 6 := hpc
  -- `cmovb` looks at whether the subtraction has borrowed
  by_cases hlt : s.regs .rsp + 8 < s.regs .rax
  · obtain rfl : below = true := hbelow.trans (decide_eq_true hlt)
    have htarget : regs .r11 = target s := by
      rw [target, if_pos hlt]
      exact hr11
    have hfirst := hinside.set (.inl rfl) (regs .r11) true zero 7
    refine .step rfl (.step rfl (.here ⟨rfl, htarget, hlimit, ?_⟩))
    exact hfirst.set (.inr rfl) _ _ _ _
  · obtain rfl : below = false := hbelow.trans (decide_eq_false hlt)
    have htarget : regs .r10 = target s := by
      rw [target, if_neg hlt]
      exact hr10
    refine .step rfl (.step rfl (.here ⟨rfl, htarget, hlimit, ?_⟩))
    exact hinside.set (.inr rfl) _ _ _ _

theorem Inside.touch (h : Inside s ps t) (p : Word) (below zero : Bool) (pc : ℕ) :
    Inside s (ps ++ [p])
      ⟨pc, t.regs, below, zero, t.gsBase, Function.update t.mem p 0, t.stored ++ [p]⟩ where
  rsp := h.rsp
  kept := h.kept
  mem := by rw [touch_concat, ← h.mem]
  stored := by rw [← List.append_assoc, ← h.stored]
  gsBase := h.gsBase

/-- In front of `.loop`, with `n` of `k` pages touched. -/
structure Looping (s : State) (n k : ℕ) (t : State) : Prop where
  pc : t.pc = 11
  lt : n < k
  r10 : (t.regs .r10).toNat + 4096 * k = (stackLimit s).toNat
  r11 : t.regs .r11 = stackLimit s - BitVec.ofNat 64 (4096 * n)
  inside : Inside s (pagesBelow (stackLimit s) n) t

/-- In front of `.end`, with `k` pages touched. -/
structure Leaving (s : State) (k : ℕ) (t : State) : Prop where
  pc : t.pc = 15
  inside : Inside s (pagesBelow (stackLimit s) k) t

/-- The page that the next round touches; it is that of the target in the last round. -/
theorem Looping.next_page (h : Looping s n k t) :
    t.regs .r11 + -0x1000 = stackLimit s - BitVec.ofNat 64 (4096 * (n + 1)) ∧
      ((t.regs .r10 == t.regs .r11 + -0x1000) = true ↔ n + 1 = k) := by
  have hlt := h.lt
  have hr10 := h.r10
  have hnext : t.regs .r11 + -0x1000 = stackLimit s - BitVec.ofNat 64 (4096 * (n + 1)) := by
    rw [h.r11, ← sub_eq_add_neg, sub_sub, Nat.mul_succ, BitVec.ofNat_add]
    rfl
  have hpage := toNat_sub_ofNat (a := stackLimit s) (n := 4096 * (n + 1)) (by omega)
  refine ⟨hnext, ?_⟩
  rw [beq_iff_eq, hnext, ← BitVec.toNat_inj, hpage]
  omega

theorem Looping.round (h : Looping s n k t) :
    Leads chkstk (fun u => Looping s (n + 1) k u ∨ n + 1 = k ∧ Leaving s k u) t := by
  obtain ⟨hnext, hlast⟩ := h.next_page
  obtain ⟨hpc, hlt, hr10, -, hinside⟩ := h
  obtain ⟨pc, regs, below, zero, gsBase, mem, stored⟩ := t
  obtain rfl : pc = 11 := hpc
  have hmoved := hinside.set (.inr rfl) (regs .r11 + -0x1000) below zero 12
  have htouched (below zero : Bool) (pc : ℕ) := hmoved.touch (regs .r11 + -0x1000) below zero pc
  refine .of_steps (steps_round regs below zero gsBase mem stored) ?_
  change regs .r11 + -0x1000 = _ at hnext
  change (regs .r10 == regs .r11 + -0x1000) = true ↔ _ at hlast
  change (regs .r10).toNat + _ = _ at hr10
  generalize regs .r11 + -0x1000 = p at hnext hlast htouched ⊢
  subst hnext
  simp only [← pagesBelow_succ] at htouched
  by_cases hend : n + 1 = k
  · refine .step (congrArg (fun z => some (State.jump _ (!z) 11)) (hlast.mpr hend)) (.here ?_)
    subst hend
    exact .inr ⟨rfl, rfl, htouched _ _ _⟩
  · have hzero := Bool.eq_false_of_not_eq_true (mt hlast.mp hend)
    refine .step (congrArg (fun z => some (State.jump _ (!z) 11)) hzero) (.here (.inl ?_))
    exact ⟨rfl, by omega, hr10, Function.update_self Reg.r11 _ regs, htouched _ _ _⟩

/-- From `.loop` on the rest of the pages is touched. -/
theorem Looping.leads_leaving (h : Looping s n k t) : Leads chkstk (Leaving s k) t := by
  obtain ⟨d, hd⟩ := Nat.exists_eq_add_of_lt h.lt
  induction d generalizing n t with
  | zero =>
      refine h.round.trans ?_
      rintro u (hu | ⟨-, hu⟩)
      · exact absurd hu.lt (by omega)
      · exact .here hu
  | succ d ih =>
      refine h.round.trans ?_
      rintro u (hu | ⟨hend, -⟩)
      · exact ih hu (by omega)
      · omega

theorem mul_newPageCount_le (s : State) : 4096 * newPageCount s ≤ (stackLimit s).toNat :=
  (Nat.mul_div_le _ _).trans (Nat.sub_le _ _)

/-- The number of pages, if the target lies below the stack limit. -/
theorem Entry.newPageCount_eq (h : Entry s) (hlt : target s < stackLimit s) :
    0 < newPageCount s ∧
      (page (target s)).toNat + 4096 * newPageCount s = (stackLimit s).toNat := by
  obtain ⟨c, hc⟩ := h.limit_dvd
  have hpage := toNat_page (target s)
  have htarget : (target s).toNat < (stackLimit s).toNat := BitVec.lt_def.mp hlt
  rw [newPageCount]
  omega

theorem Entry.newPageCount_eq_zero (h : Entry s) (hle : ¬ target s < stackLimit s) :
    newPageCount s = 0 := by
  obtain ⟨c, hc⟩ := h.limit_dvd
  have hpage := toNat_page (target s)
  have htarget : ¬ (target s).toNat < (stackLimit s).toNat := fun hlt => hle (BitVec.lt_def.mpr hlt)
  rw [newPageCount]
  omega

theorem Entry.leads_leaving (h : Entry s) (ht : Checked s t) :
    Leads chkstk (Leaving s (newPageCount s)) t := by
  obtain ⟨hpc, hr10, hr11, hinside⟩ := ht
  obtain ⟨pc, regs, below, zero, gsBase, mem, stored⟩ := t
  obtain rfl : pc = 8 := hpc
  change regs .r10 = _ at hr10
  change regs .r11 = _ at hr11
  refine .of_steps (steps_compare regs below zero gsBase mem stored) ?_
  by_cases hlt : target s < stackLimit s
  · obtain ⟨hpos, hcount⟩ := h.newPageCount_eq hlt
    have hbelow : decide (regs .r10 < regs .r11) = true := by
      rw [hr10, hr11]
      exact decide_eq_true hlt
    refine .step (congrArg (fun b => some (State.jump _ (!b) 15)) hbelow) ?_
    refine .of_steps (steps_page regs _ _ gsBase mem stored) (Looping.leads_leaving (n := 0) ?_)
    refine ⟨rfl, hpos, ?_, ?_, hinside.set (.inl rfl) _ _ _ _⟩
    · change (page (regs .r10)).toNat + _ = _
      rw [hr10]
      exact hcount
    · change regs .r11 = _
      rw [hr11, Nat.mul_zero]
      exact (BitVec.sub_zero _).symm
  · have hbelow : decide (regs .r10 < regs .r11) = false := by
      rw [hr10, hr11]
      exact decide_eq_false hlt
    refine .step (congrArg (fun b => some (State.jump _ (!b) 15)) hbelow) (.here ?_)
    rw [h.newPageCount_eq_zero hlt]
    exact ⟨rfl, ⟨hinside.rsp, hinside.kept, hinside.mem, hinside.stored, hinside.gsBase⟩⟩

/-- The pages lie below what has been saved. -/
theorem Entry.notMem_newPages (h : Entry s) (hx : x ∈ region (s.regs .rsp - 16) 16) :
    x ∉ newPages s := by
  intro hpage
  have hle := h.limit_le
  obtain ⟨k, hk, hxk⟩ := (mem_pagesBelow (mul_newPageCount_le s)).mp hpage
  have hbase := toNat_sub_ofNat (a := s.regs .rsp) (n := 16) (by omega)
  have hrsp := (s.regs .rsp).isLt
  change (s.regs .rsp - 16).toNat = _ at hbase
  rw [mem_region_iff (by omega)] at hx
  omega

/-- What has been saved is still there. -/
theorem Entry.load64_saved (h : Entry s) :
    load64 (touch (savedMem s) (newPages s)) (s.regs .rsp - 16) = s.regs .r10 ∧
      load64 (touch (savedMem s) (newPages s)) (s.regs .rsp - 16 + 8) = s.regs .r11 := by
  have hkept {d : ℕ} (hd : d + 8 ≤ 16) :
      load64 (touch (savedMem s) (newPages s)) (s.regs .rsp - 16 + BitVec.ofNat 64 d)
        = load64 (savedMem s) (s.regs .rsp - 16 + BitVec.ofNat 64 d) := by
    refine load64_congr fun x hx => ?_
    rw [touch_eq, if_neg (h.notMem_newPages (region_add_subset hd (by norm_num) hx))]
  have hapart : Disjoint (region (s.regs .rsp - 16) 8) (region (s.regs .rsp - 16 + 8) 8) :=
    (disjoint_region_add (k := 8) (by norm_num)).symm
  have hfirst := hkept (d := 0) (by norm_num)
  have hsecond := hkept (d := 8) (by norm_num)
  rw [BitVec.add_zero] at hfirst
  constructor
  · rw [hfirst, savedMem, load64_store64_of_disjoint hapart, add_zero, load64_store64]
  · exact hsecond.trans (load64_store64 _ _ _)

theorem Entry.leads_returns (h : Entry s) (ht : Leaving s (newPageCount s) t) :
    Leads chkstk (Returns s) t := by
  obtain ⟨hpc, hrsp, hkept, hmem, hstored, -⟩ := ht
  obtain ⟨hr10, hr11⟩ := h.load64_saved
  obtain ⟨pc, regs, below, zero, gsBase, mem, stored⟩ := t
  obtain rfl : pc = 15 := hpc
  obtain rfl : mem = touch (savedMem s) (newPages s) := hmem
  change regs .rsp = _ at hrsp
  obtain ⟨_, _, hsteps⟩ :=
    steps_restore regs below zero gsBase (touch (savedMem s) (newPages s)) stored
  rw [hrsp, hr10, hr11] at hsteps
  refine .of_steps hsteps (.here ⟨rfl, ?_, hstored, fun p hp => ?_, fun x hx hout => ?_⟩)
  · funext q
    by_cases hq : q ∈ [Reg.r10, .r11, .rsp]
    · cases q <;> first | exact absurd hq (by decide) | simp
    · have hne : q ≠ .r10 ∧ q ≠ .r11 ∧ q ≠ .rsp := by simpa using hq
      simpa [Function.update_apply, hne] using hkept q hq
  · change touch (savedMem s) (newPages s) p = 0
    rw [touch_eq, if_pos hp]
  · change touch (savedMem s) (newPages s) x = s.mem x
    rw [touch_eq, if_neg hx, savedMem_of_notMem hout]

/-! ### Main result -/

/-- The new pages are those from that of the target up to the stack limit. -/
theorem Entry.mem_newPages_iff (h : Entry s) : x ∈ newPages s ↔ 4096 ∣ x.toNat ∧
    (target s).toNat < x.toNat + 4096 ∧ x.toNat < (stackLimit s).toNat := by
  obtain ⟨c, hc⟩ := h.limit_dvd
  have hpage := toNat_page (target s)
  rw [newPages, mem_pagesBelow (mul_newPageCount_le s)]
  by_cases hlt : target s < stackLimit s
  · obtain ⟨-, hcount⟩ := h.newPageCount_eq hlt
    constructor
    · rintro ⟨k, hk, hx⟩
      omega
    · rintro ⟨⟨d, hd⟩, hlow, hhigh⟩
      exact ⟨c - d - 1, by omega, by omega⟩
  · have htarget : ¬ (target s).toNat < (stackLimit s).toNat := fun hlt' =>
      hlt (BitVec.lt_def.mpr hlt')
    rw [h.newPageCount_eq_zero hlt]
    constructor
    · rintro ⟨k, hk, -⟩
      exact absurd hk (Nat.not_lt_zero k)
    · rintro ⟨⟨d, hd⟩, hlow, hhigh⟩
      omega

/-- From the top down, each once. -/
theorem newPages_pairwise (s : State) : (newPages s).Pairwise fun p q => q < p := by
  have hcount := mul_newPageCount_le s
  rw [newPages, pagesBelow, List.pairwise_map]
  refine List.Pairwise.imp_of_mem ?_ List.pairwise_lt_range
  intro i j hi hj hij
  rw [List.mem_range] at hi hj
  rw [BitVec.lt_def, toNat_sub_ofNat (by omega), toNat_sub_ofNat (by omega)]
  omega

/-- `__chkstk` comes back with every register as it was, after it has touched the pages
between the end of the new frame and the stack limit, from the top down and each once. -/
theorem chkstk_touches (h : Entry s) :
    Leads chkstk (Returns s) s ∧
      (∀ x, x ∈ newPages s ↔ 4096 ∣ x.toNat ∧ (target s).toNat < x.toNat + 4096 ∧
        x.toNat < (stackLimit s).toNat) ∧
      (newPages s).Pairwise fun p q => q < p := by
  refine ⟨?_, fun x => h.mem_newPages_iff, newPages_pairwise s⟩
  refine (leads_aimed h.pc).trans fun t ht => (h.leads_checked ht).trans fun u hu => ?_
  exact (h.leads_leaving hu).trans fun v hv => h.leads_returns hv

/-- A stack committed down to `0x20000`, and a frame of three pages. -/
def threePages : State where
  pc := 0
  regs r := if r = .rsp then 0x20ff0 else if r = .rax then 0x3000 else 0
  below := false
  zero := false
  gsBase := 0x50000
  mem := store64 (fun _ => 0) 0x50010 0x20000
  stored := []

theorem chkstk_touches_threePages : Leads chkstk (Returns threePages) threePages := by
  have hlimit : stackLimit threePages = 0x20000 := load64_store64 _ _ _
  refine (chkstk_touches ⟨rfl, ?_, ?_, by decide, ?_⟩).1
  · rw [hlimit]
    decide
  · rw [hlimit]
    decide
  · exact (disjoint_region_iff (by decide) (by decide) (by decide) (by decide)).mpr (by decide)

end Ciabatta.Os.Chkstk
