import Ciabatta.CiaMem.Arena
import Ciabatta.Lib.Layout
import Ciabatta.Lib.Transition

/-!
An arena in the hands of a client: any mixture of `cia_arena_alloc`,
`cia_arena_alloc_aligned` and `cia_arena_free_all` after a creation that obtained
a buffer. Neither of the two formulas that advance the cursor takes the size of
the region into account, so the regions are kept apart only where the requests
are spaced.
-/

namespace Ciabatta.CiaMem

open ByteMemory Exec Layout Transition System

variable {σ : Type}

/-- A region handed out, with the alignment asked for. -/
structure ArenaRegion where
  ptr : Word
  size : Word
  align : Word
  deriving DecidableEq

structure ArenaRun (σ : Type) where
  arena : CiaArena σ
  /-- The regions since creation or the last reset, newest first. -/
  regions : List ArenaRegion

inductive ArenaAct
  | alloc (size : Word)
  | allocAligned (size align : Word)
  | freeAll

namespace ArenaRun

variable (s : ArenaRun σ)

/-- A request has come back with a pointer, or with none. -/
def hand (out : Word × CiaArena σ) (size align : Word) : ArenaRun σ where
  arena := out.2
  regions := if out.1 = 0 then s.regions else ⟨out.1, size, align⟩ :: s.regions

/-- The least multiple of `align` at or above `buffer + used`. -/
def cursor (align : Word) : ℕ :=
  alignUp (s.arena.buffer.toNat + s.arena.used.toNat) align.toNat

def bufferEnd : ℕ :=
  s.arena.buffer.toNat + s.arena.bufferSize.toNat

def Fits (size align : Word) : Prop :=
  s.cursor align + size.toNat ≤ s.bufferEnd

/-- The alignment takes the cursor past all bytes handed out. -/
def Beyond (size align : Word) : Prop :=
  size ≠ 0 → ∀ r ∈ s.regions, r.size ≠ 0 → r.ptr.toNat + r.size.toNat ≤ s.cursor align

end ArenaRun

/-- The requested end address is below `2 ^ 64`, and the alignment a power of
two; `cia_arena_alloc` asks for none. -/
inductive ArenaStep : ArenaRun σ → ArenaAct → ArenaRun σ → Prop
  | alloc {s : ArenaRun σ} {size : Word} (hend : s.cursor 1 + size.toNat < 2 ^ 64) :
      ArenaStep s (.alloc size) (s.hand (ciaArenaAlloc s.arena size) size 1)
  | allocAligned {s : ArenaRun σ} {size align : Word} (hpow : ∃ k, align.toNat = 2 ^ k)
      (hend : s.cursor align + size.toNat < 2 ^ 64) :
      ArenaStep s (.allocAligned size align)
        (s.hand (ciaArenaAllocAligned s.arena size align) size align)
  | freeAll {s : ArenaRun σ} :
      ArenaStep s .freeAll { arena := ciaArenaFreeAll s.arena, regions := [] }

def arenaService : System (ArenaRun (Machine Call)) ArenaAct where
  init s := ∃ allocator bufferSize m t,
    ciaArenaCreate allocator bufferSize m = .ok s.arena t ∧ s.arena.buffer ≠ 0 ∧
      s.bufferEnd < 2 ^ 64 ∧ s.regions = []
  step := ArenaStep

/-- What a client relies on. -/
structure Separated (s : ArenaRun σ) : Prop where
  disjoint : s.regions.Pairwise fun r r' =>
    Disjoint (region r.ptr r.size.toNat) (region r'.ptr r'.size.toNat)
  inside : ∀ r ∈ s.regions,
    s.arena.buffer.toNat ≤ r.ptr.toNat ∧ r.ptr.toNat + r.size.toNat ≤ s.bufferEnd
  aligned : ∀ r ∈ s.regions, r.align.toNat ∣ r.ptr.toNat
  used_le : s.arena.used ≤ s.arena.bufferSize

/-- A request that fits comes to bytes that are free, and for `cia_arena_alloc` the
arena is at its start. -/
def Spaced (s : ArenaRun σ) : ArenaAct → Prop
  | .alloc size => s.Fits size 1 → s.arena.used = 0 ∧ s.Beyond size 1
  | .allocAligned size align => s.Fits size align → s.Beyond size align
  | .freeAll => True

/-- The buffer is not the null pointer and ends below `2 ^ 64`. -/
structure Framed (s : ArenaRun σ) : Prop where
  ne_null : s.arena.buffer ≠ 0
  end_lt : s.bufferEnd < 2 ^ 64

variable {s t : ArenaRun σ} {size align : Word} {a : ArenaAct}

/-! ### The two requests -/

theorem ArenaRun.cursor_one (s : ArenaRun σ) :
    s.cursor 1 = s.arena.buffer.toNat + s.arena.used.toNat :=
  alignUp_one _

theorem alloc_refused (hend : s.cursor 1 + size.toNat < 2 ^ 64) (h : ¬ s.Fits size 1) :
    ciaArenaAlloc s.arena size = (0, s.arena) := by
  rw [ArenaRun.Fits, ArenaRun.bufferEnd, ArenaRun.cursor_one] at h
  rw [ArenaRun.cursor_one] at hend
  rw [ciaArenaAlloc, if_pos]
  rw [gt_iff_lt, BitVec.lt_def, BitVec.toNat_add]
  omega

theorem alloc_granted (hframed : Framed s) (h : s.Fits size 1) :
    ciaArenaAlloc s.arena size = (s.arena.buffer + s.arena.used,
        { s.arena with used := s.arena.used + s.arena.bufferSize }) ∧
      (s.arena.buffer + s.arena.used).toNat = s.cursor 1 := by
  have hend := hframed.end_lt
  rw [ArenaRun.Fits, ArenaRun.bufferEnd, ArenaRun.cursor_one] at h
  rw [ArenaRun.bufferEnd] at hend
  constructor
  · rw [ciaArenaAlloc, if_neg]
    rw [gt_iff_lt, BitVec.lt_def, BitVec.toNat_add]
    omega
  · rw [ArenaRun.cursor_one, BitVec.toNat_add]
    omega

theorem Framed.sum_lt (hframed : Framed s) (hused : s.arena.used ≤ s.arena.bufferSize) :
    s.arena.buffer.toNat + s.arena.used.toNat < 2 ^ 64 := by
  have hend := hframed.end_lt
  rw [BitVec.le_def] at hused
  rw [ArenaRun.bufferEnd] at hend
  omega

theorem toNat_add_sub {a b : Word} (h : b.toNat ≤ a.toNat) :
    b.toNat + (a - b).toNat = a.toNat := by
  rw [BitVec.toNat_sub]
  omega

theorem toNat_ciaPtrAlignf (hsum : s.arena.buffer.toNat + s.arena.used.toNat < 2 ^ 64)
    (hpow : ∃ k, align.toNat = 2 ^ k) (hcursor : s.cursor align < 2 ^ 64) :
    (ciaPtrAlignf (s.arena.buffer + s.arena.used) align).toNat = s.cursor align := by
  obtain ⟨k, hk⟩ := hpow
  have hle : k ≤ 64 := by
    have hlt := align.isLt
    rw [hk] at hlt
    exact Nat.le_of_lt ((Nat.pow_lt_pow_iff_right (by decide)).mp hlt)
  have hptr : (s.arena.buffer + s.arena.used).toNat
      = s.arena.buffer.toNat + s.arena.used.toNat := by
    rw [BitVec.toNat_add, Nat.mod_eq_of_lt hsum]
  rw [ArenaRun.cursor, hk] at hcursor
  rw [ciaPtrAlignf, toNat_alignUp hk, hptr, ArenaRun.cursor]
  rw [hptr, hk]
  exact add_lt_of_alignUp_lt hle hcursor

/-- The comparison in `cia_arena_alloc_aligned` is that of the integers. -/
theorem regionEnd_gt_iff (hframed : Framed s) (hused : s.arena.used ≤ s.arena.bufferSize)
    (hpow : ∃ k, align.toNat = 2 ^ k) (hend : s.cursor align + size.toNat < 2 ^ 64) :
    ciaPtrAlignf (s.arena.buffer + s.arena.used) align + size
      > s.arena.buffer + s.arena.bufferSize ↔ ¬ s.Fits size align := by
  have hbuffer : (s.arena.buffer + s.arena.bufferSize).toNat = s.bufferEnd := by
    rw [BitVec.toNat_add]
    exact Nat.mod_eq_of_lt hframed.end_lt
  have hptr := toNat_ciaPtrAlignf (hframed.sum_lt hused) hpow (by omega)
  rw [gt_iff_lt, BitVec.lt_def, hbuffer, BitVec.toNat_add, hptr, Nat.mod_eq_of_lt hend,
    ArenaRun.Fits, Nat.not_le]

/-! ### What one call does -/

/-- A region handed out at the cursor. -/
structure Handed (s : ArenaRun σ) (size align : Word) (t : ArenaRun σ) : Prop where
  fits : s.Fits size align
  region : ∃ p : Word, p.toNat = s.cursor align ∧ t.regions = ⟨p, size, align⟩ :: s.regions
  buffer : t.arena.buffer = s.arena.buffer
  bufferSize : t.arena.bufferSize = s.arena.bufferSize

theorem ArenaRun.hand_null (s : ArenaRun σ) (size align : Word) :
    s.hand (0, s.arena) size align = s := by
  simp [hand]

theorem ArenaRun.le_cursor (s : ArenaRun σ) (hpow : ∃ k, align.toNat = 2 ^ k) :
    s.arena.buffer.toNat + s.arena.used.toNat ≤ s.cursor align := by
  obtain ⟨k, hk⟩ := hpow
  exact le_alignUp (by rw [hk]; positivity)

/-- A cursor in the buffer is not the null pointer. -/
theorem Framed.ne_zero (hframed : Framed s) (hpow : ∃ k, align.toNat = 2 ^ k) {p : Word}
    (hp : p.toNat = s.cursor align) : p ≠ 0 := by
  have hle := s.le_cursor hpow
  have hpos := toNat_pos hframed.ne_null
  rintro rfl
  rw [show (0 : Word).toNat = 0 from rfl] at hp
  omega

/-- `cia_arena_alloc` refuses, or hands out and advances by the buffer size. -/
theorem hand_ciaArenaAlloc (hframed : Framed s) (hend : s.cursor 1 + size.toNat < 2 ^ 64) :
    let t := s.hand (ciaArenaAlloc s.arena size) size 1
    (¬ s.Fits size 1 ∧ t = s) ∨
      Handed s size 1 t ∧ t.arena.used = s.arena.used + s.arena.bufferSize := by
  by_cases hfits : s.Fits size 1
  · obtain ⟨hcall, hptr⟩ := alloc_granted hframed hfits
    have hne := hframed.ne_zero ⟨0, rfl⟩ hptr
    rw [hcall]
    exact .inr ⟨⟨hfits, ⟨_, hptr, if_neg hne⟩, rfl, rfl⟩, rfl⟩
  · rw [alloc_refused hend hfits, s.hand_null]
    exact .inl ⟨hfits, rfl⟩

/-- `cia_arena_alloc_aligned` refuses, or hands out and stays at the region. -/
theorem hand_ciaArenaAllocAligned (hframed : Framed s)
    (hused : s.arena.used ≤ s.arena.bufferSize) (hpow : ∃ k, align.toNat = 2 ^ k)
    (hend : s.cursor align + size.toNat < 2 ^ 64) :
    let t := s.hand (ciaArenaAllocAligned s.arena size align) size align
    (¬ s.Fits size align ∧ t = s) ∨
      Handed s size align t ∧
        t.arena.buffer.toNat + t.arena.used.toNat = s.cursor align := by
  have hgt := regionEnd_gt_iff hframed hused hpow hend
  by_cases hfits : s.Fits size align
  · have hptr := toNat_ciaPtrAlignf (hframed.sum_lt hused) hpow (by omega)
    have hne := hframed.ne_zero hpow hptr
    rw [ciaArenaAllocAligned, if_neg (fun h => hgt.mp h hfits)]
    refine .inr ⟨⟨hfits, ⟨_, hptr, if_neg hne⟩, rfl, rfl⟩, ?_⟩
    have hle := s.le_cursor hpow
    have hsub : s.arena.buffer.toNat + (ciaPtrAlignf (s.arena.buffer + s.arena.used) align
        - s.arena.buffer).toNat = s.cursor align := by
      rw [toNat_add_sub (by omega), hptr]
    exact hsub
  · rw [ciaArenaAllocAligned, if_pos (hgt.mpr hfits), s.hand_null]
    exact .inl ⟨hfits, rfl⟩

/-! ### Runs -/

theorem disjoint_of_beyond {r r' : ArenaRegion} (hr : r.ptr.toNat + r.size.toNat ≤ 2 ^ 64)
    (hr' : r'.ptr.toNat + r'.size.toNat ≤ 2 ^ 64)
    (h : r.size ≠ 0 → r'.size ≠ 0 → r'.ptr.toNat + r'.size.toNat ≤ r.ptr.toNat) :
    Disjoint (region r.ptr r.size.toNat) (region r'.ptr r'.size.toNat) := by
  by_cases hzero : r.size = 0
  · simp [hzero]
  by_cases hzero' : r'.size = 0
  · simp [hzero']
  rw [disjoint_region_iff hr hr' (toNat_pos hzero) (toNat_pos hzero')]
  exact .inr (h hzero hzero')

/-- Handing out bytes past all others keeps the regions apart. -/
theorem Separated.handed (h : Separated s) (hframed : Framed s) (hhanded : Handed s size align t)
    (hpow : ∃ k, align.toNat = 2 ^ k) (hbeyond : s.Beyond size align)
    (hused : t.arena.used ≤ t.arena.bufferSize) : Separated t := by
  obtain ⟨p, hp, hregions⟩ := hhanded.region
  have hend : t.bufferEnd = s.bufferEnd := by
    rw [ArenaRun.bufferEnd, hhanded.buffer, hhanded.bufferSize, ArenaRun.bufferEnd]
  have hfits : p.toNat + size.toNat ≤ s.bufferEnd := hp ▸ hhanded.fits
  have hlt := hframed.end_lt
  refine ⟨?_, ?_, ?_, hused⟩
  · rw [hregions, List.pairwise_cons]
    refine ⟨fun r hr => ?_, h.disjoint⟩
    have hinside := (h.inside r hr).2
    apply disjoint_of_beyond (by dsimp only; omega) (by omega)
    intro hsize hsize'
    exact hp ▸ hbeyond hsize r hr hsize'
  · rw [hregions, hhanded.buffer, hend]
    have hle := s.le_cursor hpow
    exact List.forall_mem_cons.mpr ⟨⟨by dsimp only; omega, hfits⟩, h.inside⟩
  · rw [hregions]
    refine List.forall_mem_cons.mpr ⟨?_, h.aligned⟩
    rw [hp]
    exact dvd_alignUp _ _

theorem Framed.of_same (h : Framed s) (hbuffer : t.arena.buffer = s.arena.buffer)
    (hsize : t.arena.bufferSize = s.arena.bufferSize) : Framed t where
  ne_null := by
    rw [hbuffer]
    exact h.ne_null
  end_lt := by
    rw [ArenaRun.bufferEnd, hbuffer, hsize]
    exact h.end_lt

/-- No call moves the buffer. -/
theorem ArenaStep.frame (h : ArenaStep s a t) :
    t.arena.buffer = s.arena.buffer ∧ t.arena.bufferSize = s.arena.bufferSize := by
  cases h with
  | alloc =>
      simp only [ArenaRun.hand, ciaArenaAlloc]
      split <;> exact ⟨rfl, rfl⟩
  | allocAligned =>
      simp only [ArenaRun.hand, ciaArenaAllocAligned]
      split <;> exact ⟨rfl, rfl⟩
  | freeAll => exact ⟨rfl, rfl⟩

theorem Separated.step (h : Separated s) (hframed : Framed s) (hstep : ArenaStep s a t)
    (hspaced : Spaced s a) : Separated t := by
  cases hstep with
  | alloc hend =>
      rcases hand_ciaArenaAlloc hframed hend with ⟨-, heq⟩ | ⟨hhanded, hused⟩
      · rw [heq]
        exact h
      · obtain ⟨hzero, hbeyond⟩ := hspaced hhanded.fits
        apply h.handed hframed hhanded ⟨0, rfl⟩ hbeyond
        rw [hused, hhanded.bufferSize, hzero]
        simp
  | allocAligned hpow hend =>
      rcases hand_ciaArenaAllocAligned hframed h.used_le hpow hend with
        ⟨-, heq⟩ | ⟨hhanded, hused⟩
      · rw [heq]
        exact h
      · apply h.handed hframed hhanded hpow (hspaced hhanded.fits)
        have hfits := hhanded.fits
        rw [ArenaRun.Fits, ArenaRun.bufferEnd, ← hhanded.buffer, ← hhanded.bufferSize] at hfits
        rw [BitVec.le_def]
        omega
  | freeAll => exact ⟨.nil, nofun, nofun, Nat.zero_le _⟩

theorem framed_init {s : ArenaRun (Machine Call)} (h : arenaService.init s) : Framed s := by
  obtain ⟨_, _, _, _, _, hne, hend, _⟩ := h
  exact ⟨hne, hend⟩

theorem separated_init {s : ArenaRun (Machine Call)} (h : arenaService.init s) : Separated s := by
  obtain ⟨allocator, bufferSize, m, t, hcreate, -, -, hregions⟩ := h
  obtain ⟨buffer, u, -, hrecord⟩ := exists_of_bind_ok hcreate
  have hused : s.arena.used = 0 := by
    injection hrecord with hrecord
    rw [← hrecord]
  refine ⟨?_, ?_, ?_, hused ▸ Nat.zero_le _⟩ <;> simp [hregions]

/-- The regions start at or below the cursor. -/
def Started (s : ArenaRun σ) : Prop :=
  ∀ r ∈ s.regions, r.ptr.toNat ≤ s.arena.buffer.toNat + s.arena.used.toNat

theorem Started.step (h : Started s) (hframed : Framed s) (hseparated : Separated s)
    (hstep : ArenaStep s a t) (hspaced : Spaced s a) : Started t := by
  cases hstep with
  | alloc hend =>
      rcases hand_ciaArenaAlloc hframed hend with ⟨-, heq⟩ | ⟨hhanded, hused⟩
      · rw [heq]
        exact h
      -- with the cursor at 0 the regions before, which start below it, all start at the buffer
      · obtain ⟨hzero, -⟩ := hspaced hhanded.fits
        obtain ⟨p, hp, hregions⟩ := hhanded.region
        rw [Started, hregions, hhanded.buffer]
        rw [ArenaRun.cursor_one, hzero] at hp
        refine List.forall_mem_cons.mpr ⟨le_of_eq_of_le hp (by simp), fun r hr => ?_⟩
        have hr' := h r hr
        rw [hzero] at hr'
        exact le_trans hr' (by simp)
  | allocAligned hpow hend =>
      rcases hand_ciaArenaAllocAligned hframed hseparated.used_le hpow hend with
        ⟨-, heq⟩ | ⟨hhanded, hused⟩
      · rw [heq]
        exact h
      · obtain ⟨p, hp, hregions⟩ := hhanded.region
        rw [Started, hregions, hused]
        exact List.forall_mem_cons.mpr
          ⟨hp.le, fun r hr => le_trans (h r hr) (s.le_cursor hpow)⟩
  | freeAll => exact nofun

/-- Where a region reaches over the cursor, the next one comes to lie in it. -/
theorem Started.beyond (h : Started s) (hframed : Framed s) (hhanded : Handed s size align t)
    (hpow : ∃ k, align.toNat = 2 ^ k) (hinside : ∀ r ∈ s.regions,
      r.ptr.toNat + r.size.toNat ≤ s.bufferEnd) (ht : Separated t) : s.Beyond size align := by
  intro hsize r hr hrsize
  obtain ⟨p, hp, hregions⟩ := hhanded.region
  have hdisj := ht.disjoint
  rw [hregions, List.pairwise_cons] at hdisj
  have hover := hdisj.1 r hr
  have hlt := hframed.end_lt
  have hfits : p.toNat + size.toNat ≤ s.bufferEnd := hp ▸ hhanded.fits
  have hend := hinside r hr
  have hpos := toNat_pos hsize
  rw [disjoint_region_iff (by dsimp only; omega) (by omega) hpos (toNat_pos hrsize)] at hover
  have hstart := le_trans (h r hr) (s.le_cursor hpow)
  dsimp only at hover
  omega

/-- The condition is exact: as long as the cursor does not turn around the address
space, the first request that is not spaced breaks the separation. -/
theorem Started.spaced (h : Started s) (hframed : Framed s) (hseparated : Separated s)
    (hsum : s.arena.used.toNat + s.arena.bufferSize.toNat < 2 ^ 64) (hstep : ArenaStep s a t)
    (ht : Separated t) : Spaced s a := by
  have hinside := fun r hr => (hseparated.inside r hr).2
  cases hstep with
  | alloc hend =>
      intro hfits
      rcases hand_ciaArenaAlloc hframed hend with ⟨hnot, -⟩ | ⟨hhanded, hused⟩
      · exact absurd hfits hnot
      · refine ⟨?_, h.beyond hframed hhanded ⟨0, rfl⟩ hinside ht⟩
        have hle := ht.used_le
        rw [hused, hhanded.bufferSize, BitVec.le_def, BitVec.toNat_add,
          Nat.mod_eq_of_lt hsum] at hle
        exact BitVec.eq_of_toNat_eq (Nat.eq_zero_of_le_zero (by omega))
  | allocAligned hpow hend =>
      intro hfits
      rcases hand_ciaArenaAllocAligned hframed hseparated.used_le hpow hend with
        ⟨hnot, -⟩ | ⟨hhanded, -⟩
      · exact absurd hfits hnot
      · exact h.beyond hframed hhanded hpow hinside ht
  | freeAll => trivial

variable {s t : ArenaRun (Machine Call)} {tr : List ArenaAct}

theorem arena_invariant (h : (arenaService.restrict Spaced).Reaches tr s) :
    Framed s ∧ Separated s ∧ Started s := by
  refine h.invariant (I := fun s => Framed s ∧ Separated s ∧ Started s) ?_ ?_
  · rintro s hinit
    refine ⟨framed_init hinit, separated_init hinit, ?_⟩
    obtain ⟨-, -, -, -, -, -, -, hregions⟩ := hinit
    simp [Started, hregions]
  · rintro s a t ⟨hframed, hseparated, hstarted⟩ ⟨hstep, hspaced⟩
    obtain ⟨hbuffer, hsize⟩ := hstep.frame
    exact ⟨hframed.of_same hbuffer hsize, hseparated.step hframed hstep hspaced,
      hstarted.step hframed hseparated hstep hspaced⟩

/-- In every run whose requests are spaced, the regions handed out since creation
or the last reset are apart, inside the buffer and aligned, and the cursor stays
in the buffer. -/
theorem arena_separated (h : (arenaService.restrict Spaced).Reaches tr s) :
    Separated s :=
  (arena_invariant h).2.1

/-- After such a run, one more call keeps the separation if and only if it is
spaced. -/
theorem separated_step_iff (h : (arenaService.restrict Spaced).Reaches tr s)
    (hsum : s.arena.used.toNat + s.arena.bufferSize.toNat < 2 ^ 64) (hstep : ArenaStep s a t) :
    Separated t ↔ Spaced s a := by
  obtain ⟨hframed, hseparated, hstarted⟩ := arena_invariant h
  exact ⟨hstarted.spaced hframed hseparated hsum hstep, hseparated.step hframed hstep⟩

/-- The arena of 64 bytes at 4104. -/
def smallArena : CiaArena (Machine Call) where
  allocator := ⟨0, fun _ _ _ _ _ _ => pure 4104⟩
  bufferSize := 64
  used := 0
  buffer := 4104

theorem smallArena_init : arenaService.init ⟨smallArena, []⟩ :=
  ⟨smallArena.allocator, 64, ⟨fun _ => 0, []⟩, _, rfl, by decide, by decide, rfl⟩

/-- A reset, and then two regions at the same time. -/
theorem arena_separated_smallArena : ∃ s, (arenaService.restrict Spaced).Reaches
      [.alloc 64, .freeAll, .allocAligned 8 8, .allocAligned 8 16] s ∧
    s.regions = [⟨4112, 8, 16⟩, ⟨4104, 8, 8⟩] ∧ Separated s := by
  obtain ⟨s, hs, hregions⟩ : ∃ s, (arenaService.restrict Spaced).Reaches
      [.alloc 64, .freeAll, .allocAligned 8 8, .allocAligned 8 16] s ∧
        s.regions = [⟨4112, 8, 16⟩, ⟨4104, 8, 8⟩] := by
    have hbeyond : ∀ r ∈ [(⟨4104, 8, 8⟩ : ArenaRegion)], r.ptr.toNat + r.size.toNat ≤
        alignUp 4104 16 := by
      decide
    refine exists_reaches smallArena_init ?_
    refine exists_run_cons ⟨.alloc (by decide), fun _ => ⟨rfl, fun _ => nofun⟩⟩ ?_
    refine exists_run_cons ⟨.freeAll, trivial⟩ ?_
    refine exists_run_cons ⟨.allocAligned ⟨3, rfl⟩ (by decide), fun _ _ => nofun⟩ ?_
    refine exists_run_cons ⟨.allocAligned ⟨4, rfl⟩ (by decide),
      fun _ _ r hr _ => hbeyond r hr⟩ ?_
    exact exists_run_nil (by decide)
  exact ⟨s, hs, hregions, arena_separated hs⟩

/-- Two aligned requests of eight bytes get the same region. -/
theorem arena_separated_fails : ∃ s,
    arenaService.Reaches [.allocAligned 8 8, .allocAligned 8 8] s ∧ ¬ Separated s := by
  obtain ⟨s, hs, hregions⟩ : ∃ s, arenaService.Reaches [.allocAligned 8 8, .allocAligned 8 8] s ∧
      s.regions = [⟨4104, 8, 8⟩, ⟨4104, 8, 8⟩] := by
    refine exists_reaches smallArena_init ?_
    refine exists_run_cons (.allocAligned ⟨3, rfl⟩ (by decide)) ?_
    refine exists_run_cons (.allocAligned ⟨3, rfl⟩ (by decide)) ?_
    exact exists_run_nil (by decide)
  refine ⟨s, hs, fun h => ?_⟩
  have hdisj := h.disjoint
  rw [hregions, List.pairwise_cons] at hdisj
  have hmem : (4104 : Word) ∈ region 4104 8 := self_mem_region (by decide)
  exact Set.disjoint_left.mp (hdisj.1 _ List.mem_cons_self) hmem hmem

end Ciabatta.CiaMem
