import Ciabatta.CiaMem.Arena
import Ciabatta.Lib.Layout

/-!
The fit checks of an arena. Both requests add first and compare afterwards, modulo
`2 ^ 64`, so a size close to `2 ^ 64` looks small. The second half is about lists of
requests: the first one that is granted takes the whole buffer.
-/

namespace Ciabatta.CiaMem

open ByteMemory Exec Layout

namespace CiaArena

variable (arena : CiaArena (Machine Call))

/-- The address `buffer + used`. -/
def next : ℕ :=
  arena.buffer.toNat + arena.used.toNat

/-- The address `buffer + buffer_size`. -/
def limit : ℕ :=
  arena.buffer.toNat + arena.bufferSize.toNat

/-- The address where an aligned request of the given size would end. -/
def alignedEnd (size align : Word) : ℕ :=
  alignUp arena.next align.toNat + size.toNat

end CiaArena

/-- A request comes back with a pointer exactly if it fits, and otherwise leaves the
arena as it was. -/
def Decides (arena : CiaArena (Machine Call)) (out : Word × CiaArena (Machine Call))
    (fits : Prop) : Prop :=
  (out.1 ≠ 0 ↔ fits) ∧ (out.1 = 0 → out.2 = arena)

variable {arena : CiaArena (Machine Call)} {size align : Word}

theorem decides_refused {fits : Prop} (h : ¬ fits) : Decides arena (0, arena) fits :=
  ⟨iff_of_false (fun hne => hne rfl) h, fun _ => rfl⟩

theorem decides_granted {p : Word} {arena' : CiaArena (Machine Call)} {fits : Prop} (hp : p ≠ 0)
    (h : fits) : Decides arena (p, arena') fits :=
  ⟨iff_of_true hp h, fun hzero => absurd hzero hp⟩

theorem next_le_limit (hused : arena.used ≤ arena.bufferSize) : arena.next ≤ arena.limit :=
  Nat.add_le_add_left hused _

theorem toNat_next (hused : arena.used ≤ arena.bufferSize) (hend : arena.limit < 2 ^ 64) :
    (arena.buffer + arena.used).toNat = arena.next := by
  rw [BitVec.toNat_add]
  exact Nat.mod_eq_of_lt (lt_of_le_of_lt (next_le_limit hused) hend)

theorem toNat_limit (hend : arena.limit < 2 ^ 64) :
    (arena.buffer + arena.bufferSize).toNat = arena.limit := by
  rw [BitVec.toNat_add]
  exact Nat.mod_eq_of_lt hend

theorem eq_zero_iff_next (hused : arena.used ≤ arena.bufferSize) (hend : arena.limit < 2 ^ 64) :
    arena.buffer + arena.used = 0 ↔ arena.next = 0 := by
  rw [← toNat_next hused hend, ← BitVec.toNat_inj]
  rfl

/-! ### `cia_arena_alloc` -/

theorem alloc_decides_iff (hused : arena.used ≤ arena.bufferSize) (hend : arena.limit < 2 ^ 64) :
    Decides arena (ciaArenaAlloc arena size)
        (arena.used.toNat + size.toNat ≤ arena.bufferSize.toNat) ↔
      arena.used.toNat + size.toNat < 2 ^ 64 ∧
        (arena.next = 0 → arena.bufferSize.toNat < size.toNat) := by
  have hlt := size.isLt
  have hsize := arena.bufferSize.isLt
  have hnull := eq_zero_iff_next hused hend
  have hnext : arena.next = arena.buffer.toNat + arena.used.toNat := rfl
  rw [BitVec.le_def] at hused
  -- the comparison that the code makes, on integers
  have hcompare : arena.used + size > arena.bufferSize ↔
      arena.bufferSize.toNat < (arena.used.toNat + size.toNat) % 2 ^ 64 := by
    rw [gt_iff_lt, BitVec.lt_def, BitVec.toNat_add]
  rw [ciaArenaAlloc]
  by_cases hrefused : arena.used + size > arena.bufferSize
  · rw [if_pos hrefused]
    rw [hcompare] at hrefused
    exact iff_of_true (decides_refused (by omega)) ⟨by omega, by omega⟩
  · rw [if_neg hrefused]
    rw [hcompare] at hrefused
    constructor
    · rintro ⟨hptr, -⟩
      dsimp only at hptr
      rw [Ne, hnull] at hptr
      omega
    · rintro ⟨hwrap, hzero⟩
      refine decides_granted ?_ (by omega)
      rw [Ne, hnull]
      omega

/-! ### `cia_arena_alloc_aligned` -/

theorem toNat_regionPtr (hused : arena.used ≤ arena.bufferSize) (hend : arena.limit < 2 ^ 64)
    {k : ℕ} (hpow : align.toNat = 2 ^ k) :
    (ciaPtrAlignf (arena.buffer + arena.used) align).toNat
      = alignUp arena.next align.toNat % 2 ^ 64 := by
  rw [ciaPtrAlignf, toNat_alignUp_mod hpow, toNat_next hused hend]

theorem regionEnd_gt_limit_iff (size : Word) (hused : arena.used ≤ arena.bufferSize)
    (hend : arena.limit < 2 ^ 64) {k : ℕ} (hpow : align.toNat = 2 ^ k) :
    ciaPtrAlignf (arena.buffer + arena.used) align + size > arena.buffer + arena.bufferSize ↔
      arena.limit < arena.alignedEnd size align % 2 ^ 64 := by
  rw [gt_iff_lt, BitVec.lt_def, toNat_limit hend, BitVec.toNat_add, toNat_regionPtr hused hend hpow,
    Nat.mod_add_mod]
  rfl

/-- Where rounding up turns around the address space, the cursor is moved to NULL. -/
theorem used_ne_of_wrap (hused : arena.used ≤ arena.bufferSize) (hend : arena.limit < 2 ^ 64)
    (hnext : arena.next ≠ 0) : (0 : Word) - arena.buffer ≠ arena.used := by
  intro heq
  have hzero : arena.buffer + arena.used = 0 := by
    rw [← heq, add_sub_cancel]
  exact hnext ((eq_zero_iff_next hused hend).mp hzero)

theorem allocAligned_decides_iff (hused : arena.used ≤ arena.bufferSize)
    (hend : arena.limit < 2 ^ 64) (hpow : ∃ k, align.toNat = 2 ^ k) :
    Decides arena (ciaArenaAllocAligned arena size align)
        (arena.alignedEnd size align ≤ arena.limit) ↔
      (arena.alignedEnd size align < 2 ^ 64 ∨
          arena.limit < arena.alignedEnd size align - 2 ^ 64) ∧
        (arena.next = 0 → arena.limit < size.toNat) := by
  obtain ⟨k, hk⟩ := hpow
  have hpos : 0 < align.toNat := by
    rw [hk]
    positivity
  have hlt := size.isLt
  have hle : arena.next ≤ alignUp arena.next align.toNat := le_alignUp hpos
  have hptr := toNat_regionPtr hused hend hk
  have hround : alignUp arena.next align.toNat ≤ 2 ^ 64 := by
    rw [← toNat_next hused hend]
    exact alignUp_le_two_pow _ hk
  have hzero : arena.next = 0 → alignUp arena.next align.toNat = 0 := by
    intro hnext
    rw [hnext]
    exact Nat.le_zero.mp (alignUp_le hpos le_rfl (Nat.dvd_zero _))
  have hcompare := regionEnd_gt_limit_iff size hused hend hk
  have hdef : arena.alignedEnd size align = alignUp arena.next align.toNat + size.toNat := rfl
  rw [ciaArenaAllocAligned]
  by_cases hrefused :
      ciaPtrAlignf (arena.buffer + arena.used) align + size > arena.buffer + arena.bufferSize
  · rw [if_pos hrefused]
    rw [hcompare] at hrefused
    exact iff_of_true (decides_refused (by omega)) ⟨by omega, by omega⟩
  · rw [if_neg hrefused]
    rw [hcompare] at hrefused
    constructor
    · rintro ⟨hfits, hkeep⟩
      by_cases hnull : ciaPtrAlignf (arena.buffer + arena.used) align = 0
      · -- a pointer that came out as NULL: the cursor has moved, unless it was NULL already
        have hused' := congrArg CiaArena.used (hkeep hnull)
        rw [hnull] at hused' hptr
        have hnext : arena.next = 0 := by
          by_contra hne
          exact used_ne_of_wrap hused hend hne hused'
        have hstart := hzero hnext
        exact absurd (hfits.mpr (by omega)) (not_not_intro hnull)
      · have hle' := hfits.mp hnull
        refine ⟨.inl (by omega), fun hnext => ?_⟩
        rw [hzero hnext] at hptr
        exact absurd (BitVec.eq_of_toNat_eq hptr) hnull
    · rintro ⟨hwrap, hnext⟩
      refine decides_granted (fun hnull => ?_) (by omega)
      rw [hnull, show (0 : Word).toNat = 0 from rfl] at hptr
      omega

/-! ### The two checks -/

/-- The checks decide as integers would exactly if the end of the region does not turn
around the address space (the end of an aligned one may, if it comes to lie behind the
buffer all the same) and no region is handed out at NULL. -/
theorem arena_decides_iff (hused : arena.used ≤ arena.bufferSize) (hend : arena.limit < 2 ^ 64)
    (hpow : ∃ k, align.toNat = 2 ^ k) :
    (Decides arena (ciaArenaAlloc arena size)
        (arena.used.toNat + size.toNat ≤ arena.bufferSize.toNat) ↔
      arena.used.toNat + size.toNat < 2 ^ 64 ∧
        (arena.next = 0 → arena.bufferSize.toNat < size.toNat)) ∧
    (Decides arena (ciaArenaAllocAligned arena size align)
        (arena.alignedEnd size align ≤ arena.limit) ↔
      (arena.alignedEnd size align < 2 ^ 64 ∨
          arena.limit < arena.alignedEnd size align - 2 ^ 64) ∧
        (arena.next = 0 → arena.limit < size.toNat)) :=
  ⟨alloc_decides_iff hused hend, allocAligned_decides_iff hused hend hpow⟩

/-- 64 bytes at 4096, of which 16 are used. -/
def usedArena : CiaArena (Machine Call) where
  allocator := ciaAllocatorNull
  bufferSize := 64
  used := 16
  buffer := 4096

theorem arena_decides_usedArena :
    Decides usedArena (ciaArenaAlloc usedArena 48)
        (usedArena.used.toNat + (48 : Word).toNat ≤ usedArena.bufferSize.toNat) ∧
      Decides usedArena (ciaArenaAllocAligned usedArena 48 16)
        (usedArena.alignedEnd 48 16 ≤ usedArena.limit) := by
  have h := @arena_decides_iff usedArena 48 16 (by decide) (by decide) ⟨4, rfl⟩
  exact ⟨h.1.mpr (by decide), h.2.mpr (by decide)⟩

/-- A request for all bytes but one of the address space is granted. -/
theorem arena_decides_fails : usedArena.used ≤ usedArena.bufferSize ∧ usedArena.limit < 2 ^ 64 ∧
    (ciaArenaAlloc usedArena (-1)).1 ≠ 0 ∧
      ¬ usedArena.used.toNat + (-1 : Word).toNat ≤ usedArena.bufferSize.toNat ∧
    (ciaArenaAllocAligned usedArena (-1) 16).1 ≠ 0 ∧
      ¬ usedArena.alignedEnd (-1) 16 ≤ usedArena.limit := by
  decide

/-! ### Lists of requests -/

/-- An arena that `cia_arena_create` or `cia_arena_free_all` has just left. -/
inductive Fresh : CiaArena (Machine Call) → Prop
  | created {allocator : CiaAllocator (Machine Call)} {bufferSize : Word} {m t : Machine Call}
      {arena : CiaArena (Machine Call)}
      (h : ciaArenaCreate allocator bufferSize m = .ok arena t) : Fresh arena
  | reset (arena : CiaArena (Machine Call)) : Fresh (ciaArenaFreeAll arena)

/-- `cia_arena_alloc` on each of the sizes: the pointers, and the arena afterwards. -/
def allocEach (arena : CiaArena (Machine Call)) : List Word → List Word × CiaArena (Machine Call)
  | [] => ([], arena)
  | size :: sizes =>
      let out := ciaArenaAlloc arena size
      let rest := allocEach out.2 sizes
      (out.1 :: rest.1, rest.2)

def totalSize (sizes : List Word) : ℕ :=
  (sizes.map BitVec.toNat).sum

/-- The requests are all met, the first one `offset` bytes into the buffer and each of
the others where the one before it ends. -/
structure Packed (arena : CiaArena (Machine Call)) (offset : ℕ) (sizes : List Word) : Prop where
  pointers : ∀ k < sizes.length, ∃ p, (allocEach arena sizes).1[k]? = some p ∧ p ≠ 0 ∧
    p.toNat = arena.buffer.toNat + (offset + totalSize (sizes.take k))
  used : (allocEach arena sizes).2.used.toNat = offset + totalSize sizes

variable {offset : ℕ} {sizes : List Word}

@[simp] theorem totalSize_nil : totalSize [] = 0 := rfl

@[simp] theorem totalSize_cons (size : Word) (sizes : List Word) :
    totalSize (size :: sizes) = size.toNat + totalSize sizes := rfl

theorem Fresh.used_eq (h : Fresh arena) : arena.used = 0 := by
  cases h with
  | created hcreate =>
      obtain ⟨buffer, u, -, hrecord⟩ := exists_of_bind_ok hcreate
      rw [(eq_of_pure_ok hrecord).1]
  | reset => rfl

/-- A request that is met takes the whole buffer. -/
theorem alloc_of_ne_zero (h : (ciaArenaAlloc arena size).1 ≠ 0) :
    ciaArenaAlloc arena size = (arena.buffer + arena.used,
      { arena with used := arena.used + arena.bufferSize }) := by
  rw [ciaArenaAlloc] at h ⊢
  split_ifs with hrefused
  · rw [if_pos hrefused] at h
    exact absurd rfl h
  · rfl

theorem packed_nil (h : arena.used.toNat = offset) : Packed arena offset [] :=
  ⟨by simp, h⟩

/-- A request met at the offset, and the others behind it. -/
theorem Packed.cons {arena' : CiaArena (Machine Call)} {p : Word}
    (hcall : ciaArenaAlloc arena size = (p, arena')) (hp : p ≠ 0)
    (hplace : p.toNat = arena.buffer.toNat + offset) (hbuffer : arena'.buffer = arena.buffer)
    (h : Packed arena' (offset + size.toNat) sizes) :
    Packed arena offset (size :: sizes) := by
  have heach : allocEach arena (size :: sizes)
      = (p :: (allocEach arena' sizes).1, (allocEach arena' sizes).2) := by
    rw [allocEach, hcall]
  constructor
  · intro k hk
    rw [heach]
    cases k with
    | zero => exact ⟨p, rfl, hp, hplace⟩
    | succ k =>
        have hnext := h.pointers k (Nat.lt_of_succ_lt_succ hk)
        rw [hbuffer, Nat.add_assoc offset] at hnext
        exact hnext
  · rw [heach, h.used, totalSize_cons, Nat.add_assoc]

theorem Packed.head (h : Packed arena offset (size :: sizes)) :
    (ciaArenaAlloc arena size).1 ≠ 0 ∧
      (ciaArenaAlloc arena size).1.toNat = arena.buffer.toNat + offset := by
  obtain ⟨p, hp, hne, hplace⟩ := h.pointers 0 (Nat.succ_pos _)
  obtain rfl : (ciaArenaAlloc arena size).1 = p := Option.some.inj hp
  exact ⟨hne, hplace⟩

theorem Packed.tail (h : Packed arena offset (size :: sizes)) :
    Packed { arena with used := arena.used + arena.bufferSize } (offset + size.toNat) sizes := by
  have hcall := alloc_of_ne_zero h.head.1
  obtain ⟨hpointers, hused⟩ := h
  rw [allocEach, hcall] at hpointers hused
  constructor
  · intro k hk
    have hnext := hpointers (k + 1) (Nat.succ_lt_succ hk)
    rw [List.take_succ_cons, totalSize_cons, ← Nat.add_assoc offset] at hnext
    exact hnext
  · rw [totalSize_cons, ← Nat.add_assoc offset] at hused
    exact hused

/-- The cursor is where the next request is to be met. -/
theorem Packed.used_eq (h : Packed arena offset sizes)
    (hsum : offset + totalSize sizes < 2 ^ 64) : arena.used.toNat = offset := by
  cases sizes with
  | nil => exact h.used
  | cons size sizes =>
      obtain ⟨hne, hplace⟩ := h.head
      rw [alloc_of_ne_zero hne, BitVec.toNat_add] at hplace
      have hused := arena.used.isLt
      omega

theorem ciaArenaAlloc_start (hused : arena.used = 0) (hsize : size ≤ arena.bufferSize) :
    ciaArenaAlloc arena size = (arena.buffer, { arena with used := arena.bufferSize }) := by
  rw [ciaArenaAlloc, hused, zero_add, zero_add, add_zero, if_neg (BitVec.not_lt.mpr hsize)]

/-- One request for the whole buffer. -/
theorem packed_whole (hused : arena.used = 0) (hbuffer : arena.buffer ≠ 0) :
    Packed arena 0 [arena.bufferSize] :=
  .cons (ciaArenaAlloc_start hused (BitVec.le_refl _)) hbuffer rfl rfl
    (packed_nil (Nat.zero_add _).symm)

/-- Requests for no bytes, in a buffer of no bytes. -/
theorem packed_of_empty (hused : arena.used = 0) (hbuffer : arena.buffer ≠ 0)
    (hempty : arena.bufferSize = 0) (hsizes : totalSize sizes = 0) : Packed arena 0 sizes := by
  induction sizes with
  | nil => exact packed_nil (by rw [hused]; rfl)
  | cons size sizes ih =>
      rw [totalSize_cons, Nat.add_eq_zero_iff] at hsizes
      obtain ⟨hsize, hrest⟩ := hsizes
      have hle : size ≤ arena.bufferSize := by
        rw [BitVec.le_def, hsize]
        exact Nat.zero_le _
      -- the cursor moves by nothing
      have hsame : { arena with used := arena.bufferSize } = arena :=
        congrArg (fun used => { arena with used := used }) (hempty.trans hused.symm)
      have hcall := ciaArenaAlloc_start hused hle
      rw [hsame] at hcall
      refine .cons hcall hbuffer rfl rfl ?_
      rw [hsize]
      exact ih hrest

/-- With a second request to meet, the first one must have left the buffer as empty as
it was. -/
theorem bufferSize_eq_zero_of_packed {size' : Word} (hused : arena.used = 0)
    (hsum : totalSize (size :: size' :: sizes) ≤ arena.bufferSize.toNat)
    (h : Packed arena 0 (size :: size' :: sizes)) : arena.bufferSize = 0 := by
  have hlt := arena.bufferSize.isLt
  rw [totalSize_cons, totalSize_cons] at hsum
  have hfirst := h.tail.used_eq (by rw [totalSize_cons]; omega)
  have hsecond := h.tail.tail.used_eq (by omega)
  dsimp only at hfirst hsecond
  rw [hused, zero_add] at hfirst hsecond
  rw [BitVec.toNat_add] at hsecond
  exact BitVec.eq_of_toNat_eq (by rw [show (0 : Word).toNat = 0 from rfl]; omega)

/-- A fresh arena meets all requests whose sum is within the buffer, one behind the
other, exactly if there are none, or it has a buffer and that is either taken whole by
the only request or empty. -/
theorem arena_packs_iff (hfresh : Fresh arena)
    (hsum : totalSize sizes ≤ arena.bufferSize.toNat) :
    Packed arena 0 sizes ↔
      sizes = [] ∨ arena.buffer ≠ 0 ∧ (arena.bufferSize = 0 ∨ sizes = [arena.bufferSize]) := by
  have hused := hfresh.used_eq
  have hused' : arena.used.toNat = 0 := by rw [hused]; rfl
  have hlt := arena.bufferSize.isLt
  constructor
  · intro h
    cases sizes with
    | nil => exact .inl rfl
    | cons size sizes =>
        right
        have hbuffer : arena.buffer ≠ 0 := by
          have hfirst := h.head.1
          rw [alloc_of_ne_zero hfirst, hused, add_zero] at hfirst
          exact hfirst
        refine ⟨hbuffer, ?_⟩
        cases sizes with
        | nil =>
            right
            have hend := h.tail.used
            dsimp only [allocEach] at hend
            rw [hused, zero_add, totalSize_nil, Nat.zero_add, Nat.add_zero] at hend
            rw [BitVec.eq_of_toNat_eq hend]
        | cons size' sizes => exact .inl (bufferSize_eq_zero_of_packed hused hsum h)
  · rintro (rfl | ⟨hbuffer, hempty | rfl⟩)
    · exact packed_nil hused'
    · rw [hempty] at hsum
      exact packed_of_empty hused hbuffer hempty (Nat.le_zero.mp hsum)
    · exact packed_whole hused hbuffer

theorem arena_packs_usedArena : Packed (ciaArenaFreeAll usedArena) 0 [64] :=
  (arena_packs_iff (.reset usedArena) (by decide)).mpr (.inr ⟨by decide, .inr rfl⟩)

/-- Of two requests for eight bytes each, the second one is refused. -/
theorem arena_packs_fails : Fresh (ciaArenaFreeAll usedArena) ∧
    totalSize [8, 8] ≤ (ciaArenaFreeAll usedArena).bufferSize.toNat ∧
    (allocEach (ciaArenaFreeAll usedArena) [8, 8]).1 = [4096, 0] ∧
    ¬ Packed (ciaArenaFreeAll usedArena) 0 [8, 8] := by
  refine ⟨.reset _, by decide, by decide, fun h => ?_⟩
  exact absurd (bufferSize_eq_zero_of_packed rfl (by decide) h) (by decide)

end Ciabatta.CiaMem
