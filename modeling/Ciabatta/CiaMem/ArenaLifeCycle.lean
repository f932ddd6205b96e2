import Ciabatta.CiaMem.ArenaRuns
import Ciabatta.CiaMem.PageConservation

/-!
Any number of arenas over `cia_allocator_pages`, created, used and destroyed in any
order. To the page allocator they are a client that gives back each buffer with its
size, so that the accounts balance; and an arena hands out bytes of its own buffer only.
-/

namespace Ciabatta.CiaMem

open ByteMemory Exec

variable {σ : Type}

namespace ArenaRun

/-- What the arena got from its allocator. -/
def block (run : ArenaRun σ) : Pages.Region :=
  (run.arena.buffer, run.arena.bufferSize)

/-- The address is not an error code. -/
def Got (run : ArenaRun σ) : Prop :=
  ¬ IsErrorCode run.arena.buffer

/-- The call has answered. -/
def after (run : ArenaRun σ) : ArenaAct → ArenaRun σ
  | .alloc size => run.hand (ciaArenaAlloc run.arena size) size 1
  | .allocAligned size align => run.hand (ciaArenaAllocAligned run.arena size align) size align
  | .freeAll => { arena := ciaArenaFreeAll run.arena, regions := [] }

end ArenaRun

/-- A size below `2 ^ 63`, and an alignment that is a power of two below it. -/
def ArenaAct.Modest : ArenaAct → Prop
  | .alloc size => size.toNat < 2 ^ 63
  | .allocAligned size align => size.toNat < 2 ^ 63 ∧ ∃ k < 63, align.toNat = 2 ^ k
  | .freeAll => True

namespace Pages.Arenas

open Transition System

structure State where
  mapped : List Region
  /-- The arenas that have been created and not destroyed. -/
  live : List (ArenaRun (List Region))

inductive Act
  | create (bufferSize answer : Word)
  | request (i : ℕ) (a : ArenaAct)
  | destroy (r : Region)

/-- The kernel maps in the lower half of the address space, as it does on x86-64 unless
it is asked for an address above. The clients destroy an arena once. -/
inductive Step : State → Act → State → Prop
  | create {s : State} {bufferSize answer : Word} {arena : CiaArena (List Region)}
      {mapped : List Region} (hanswer : MmapAnswers s.mapped bufferSize answer)
      (hlow : ¬ IsErrorCode answer → answer.toNat + bufferSize.toNat ≤ 2 ^ 47)
      (hcall : ciaArenaCreate (pages answer) bufferSize s.mapped = .ok arena mapped) :
      Step s (.create bufferSize answer) { mapped := mapped, live := ⟨arena, []⟩ :: s.live }
  | request {s : State} {pre post : List (ArenaRun (List Region))} {run : ArenaRun (List Region)}
      {a : ArenaAct} (hlive : s.live = pre ++ run :: post) (hmodest : a.Modest) :
      Step s (.request pre.length a) { s with live := pre ++ run.after a :: post }
  | destroy {s : State} {pre post : List (ArenaRun (List Region))} {run : ArenaRun (List Region)}
      {mapped : List Region} (hlive : s.live = pre ++ run :: post)
      (hcall : ciaArenaDestroy run.arena s.mapped = .ok () mapped) :
      Step s (.destroy run.block) { mapped := mapped, live := pre ++ post }

def clients : System State Act where
  init s := s.mapped = [] ∧ s.live = []
  step := Step

variable {s s' : State} {t : Pages.State} {a : Act} {tr : List Act} {run run' : ArenaRun σ}
  {size align answer bufferSize : Word} {mapped : List Region}

/-! ### The calls -/

/-- The arena was created with `cia_allocator_pages`. -/
def OnPages (run : ArenaRun (List Region)) : Prop :=
  ∃ answer, run.arena.allocator = pages answer

theorem ciaArenaCreate_eq (answer bufferSize : Word) (mapped : List Region) :
    ciaArenaCreate (pages answer) bufferSize mapped =
      .ok ⟨pages answer, bufferSize, 0, answer⟩
        (if IsErrorCode answer then mapped else (answer, bufferSize) :: mapped) := by
  rw [ciaArenaCreate, bind_of_ok (ciaAllocatorAlloc_eq answer bufferSize 16 mapped)]
  rfl

theorem OnPages.destroy {run : ArenaRun (List Region)} (h : OnPages run) (mapped : List Region) :
    ∃ answer, ciaArenaDestroy run.arena mapped =
      ciaAllocatorFreeSize (pages answer) run.block.1 run.block.2 mapped := by
  obtain ⟨answer, hallocator⟩ := h
  exact ⟨answer, by rw [ciaArenaDestroy, hallocator, ArenaRun.block]⟩

/-- `cia_arena_destroy` maps nothing. -/
theorem OnPages.destroy_sublist {run : ArenaRun (List Region)} (h : OnPages run)
    {mapped mapped' : List Region} (hcall : ciaArenaDestroy run.arena mapped = .ok () mapped') :
    mapped'.Sublist mapped := by
  obtain ⟨answer, hdestroy⟩ := h.destroy mapped
  rw [hdestroy, ciaAllocatorFreeSize_eq] at hcall
  cases hcall
  split
  · exact List.Sublist.refl _
  · exact List.erase_sublist

/-- Once it is created, an arena only moves its cursor. -/
theorem after_arena (run : ArenaRun σ) (a : ArenaAct) :
    (run.after a).arena = { run.arena with used := (run.after a).arena.used } := by
  cases a with
  | alloc size =>
      simp only [ArenaRun.after, ArenaRun.hand, ciaArenaAlloc]
      split <;> rfl
  | allocAligned size align =>
      simp only [ArenaRun.after, ArenaRun.hand, ciaArenaAllocAligned]
      split <;> rfl
  | freeAll => rfl

theorem after_block (run : ArenaRun σ) (a : ArenaAct) : (run.after a).block = run.block := by
  rw [ArenaRun.block, after_arena]
  rfl

theorem OnPages.after {run : ArenaRun (List Region)} (h : OnPages run) (a : ArenaAct) :
    OnPages (run.after a) := by
  rw [OnPages, after_arena]
  exact h

/-! ### Inside of one arena -/

/-- An arena with a buffer keeps to it. The cursor may be past the end. -/
structure Kept (run : ArenaRun σ) : Prop where
  ne_null : run.arena.buffer ≠ 0
  end_le : run.bufferEnd ≤ 2 ^ 47
  used_le : run.arena.used.toNat ≤ 2 * run.arena.bufferSize.toNat
  inside : ∀ r ∈ run.regions,
    run.arena.buffer.toNat ≤ r.ptr.toNat ∧ r.ptr.toNat + r.size.toNat ≤ run.bufferEnd

theorem Kept.framed (h : Kept run) : Framed run where
  ne_null := h.ne_null
  end_lt := by
    have hend := h.end_le
    omega

theorem Kept.cursor_lt (h : Kept run) {k : ℕ} (hk : k < 63) (halign : align.toNat = 2 ^ k)
    (hsize : size.toNat < 2 ^ 63) : run.cursor align + size.toNat < 2 ^ 64 := by
  have hend := h.end_le
  have hused := h.used_le
  have hpow : 2 ^ k ≤ 2 ^ 62 := Nat.pow_le_pow_right (by norm_num) (by omega)
  have hcursor : run.cursor align ≤
      run.arena.buffer.toNat + run.arena.used.toNat + align.toNat - 1 := Nat.div_mul_le_self _ _
  rw [ArenaRun.bufferEnd] at hend
  omega

/-- A region that fits is one of the buffer. -/
theorem Kept.handed (h : Kept run) (hhanded : Handed run size align run')
    (hpow : ∃ k, align.toNat = 2 ^ k)
    (hused : run'.arena.used.toNat ≤ 2 * run'.arena.bufferSize.toNat) : Kept run' := by
  obtain ⟨p, hp, hregions⟩ := hhanded.region
  have hend : run'.bufferEnd = run.bufferEnd := by
    rw [ArenaRun.bufferEnd, hhanded.buffer, hhanded.bufferSize, ArenaRun.bufferEnd]
  refine ⟨?_, hend ▸ h.end_le, hused, ?_⟩
  · rw [hhanded.buffer]
    exact h.ne_null
  · have hle := run.le_cursor hpow
    have hfits : run.cursor align + size.toNat ≤ run.bufferEnd := hhanded.fits
    rw [hregions, hhanded.buffer, hend]
    refine List.forall_mem_cons.mpr ⟨?_, h.inside⟩
    dsimp only
    omega

theorem Kept.alloc (h : Kept run) (hsize : size.toNat < 2 ^ 63) :
    Kept (run.after (.alloc size)) := by
  have hend : run.cursor 1 + size.toNat < 2 ^ 64 := h.cursor_lt (k := 0) (by norm_num) rfl hsize
  rcases hand_ciaArenaAlloc h.framed hend with ⟨-, heq⟩ | ⟨hhanded, hused⟩
  · rw [ArenaRun.after, heq]
    exact h
  · refine h.handed hhanded ⟨0, rfl⟩ ?_
    -- a request that fits comes before the cursor has passed the end
    have hfits := hhanded.fits
    rw [ArenaRun.Fits, ArenaRun.cursor_one, ArenaRun.bufferEnd] at hfits
    change (run.hand _ size 1).arena.used.toNat ≤ 2 * (run.hand _ size 1).arena.bufferSize.toNat
    rw [hused, hhanded.bufferSize, BitVec.toNat_add]
    omega

/-- With the cursor past the end no region fits. -/
theorem Kept.refused (h : Kept run) (hpast : ¬ run.arena.used ≤ run.arena.bufferSize)
    (hpow : ∃ k, align.toNat = 2 ^ k) (hend : run.cursor align + size.toNat < 2 ^ 64) :
    ciaArenaAllocAligned run.arena size align = (0, run.arena) := by
  have hcursor := run.le_cursor hpow
  have hptr := toNat_ciaPtrAlignf (by omega) hpow (Nat.lt_of_le_of_lt (Nat.le_add_right _ _) hend)
  have hbuffer : (run.arena.buffer + run.arena.bufferSize).toNat = run.bufferEnd := by
    rw [BitVec.toNat_add]
    exact Nat.mod_eq_of_lt h.framed.end_lt
  rw [BitVec.le_def] at hpast
  rw [ciaArenaAllocAligned, if_pos]
  rw [gt_iff_lt, BitVec.lt_def, hbuffer, BitVec.toNat_add, hptr, Nat.mod_eq_of_lt hend,
    ArenaRun.bufferEnd]
  omega

theorem Kept.allocAligned (h : Kept run) (hsize : size.toNat < 2 ^ 63) {k : ℕ} (hk : k < 63)
    (halign : align.toNat = 2 ^ k) : Kept (run.after (.allocAligned size align)) := by
  have hend := h.cursor_lt hk halign hsize
  have hpow : ∃ k, align.toNat = 2 ^ k := ⟨k, halign⟩
  by_cases hused : run.arena.used ≤ run.arena.bufferSize
  · rcases hand_ciaArenaAllocAligned h.framed hused hpow hend with ⟨-, heq⟩ | ⟨hhanded, hcursor⟩
    · rw [ArenaRun.after, heq]
      exact h
    · refine h.handed hhanded hpow ?_
      have hfits := hhanded.fits
      rw [ArenaRun.Fits, ← hcursor, hhanded.buffer, ArenaRun.bufferEnd] at hfits
      change (run.hand _ size align).arena.used.toNat ≤
        2 * (run.hand _ size align).arena.bufferSize.toNat
      rw [hhanded.bufferSize]
      omega
  · rw [ArenaRun.after, h.refused hused hpow hend, run.hand_null]
    exact h

theorem Kept.after {a : ArenaAct} (h : Kept run) (ha : a.Modest) : Kept (run.after a) := by
  cases a with
  | alloc size => exact h.alloc ha
  | allocAligned size align =>
      obtain ⟨hsize, k, hk, halign⟩ := ha
      exact h.allocAligned hsize hk halign
  | freeAll => exact ⟨h.ne_null, h.end_le, Nat.zero_le _, nofun⟩

/-! ### Runs -/

/-- The mapped regions are apart, and an arena that has got one keeps to it. -/
structure Inv (s : State) : Prop where
  apart : s.mapped.Pairwise fun r q => Disjoint (region r.1 r.2.toNat) (region q.1 q.2.toNat)
  onPages : ∀ run ∈ s.live, OnPages run
  kept : ∀ run ∈ s.live, run.Got → Kept run

/-- A new arena, whose block is apart from the mapped ones. -/
theorem Inv.create (h : Inv s) (hanswer : MmapAnswers s.mapped bufferSize answer)
    (hlow : ¬ IsErrorCode answer → answer.toNat + bufferSize.toNat ≤ 2 ^ 47) :
    Inv ⟨if IsErrorCode answer then s.mapped else (answer, bufferSize) :: s.mapped,
      ⟨⟨pages answer, bufferSize, 0, answer⟩, []⟩ :: s.live⟩ where
  apart := by
    by_cases hcode : IsErrorCode answer
    · rw [if_pos hcode]
      exact h.apart
    · obtain ⟨-, -, hfresh⟩ := hanswer.resolve_left hcode
      rw [if_neg hcode]
      exact List.pairwise_cons.mpr ⟨fun q hq => (hfresh q hq).symm, h.apart⟩
  onPages := List.forall_mem_cons.mpr ⟨⟨answer, rfl⟩, h.onPages⟩
  kept := by
    refine List.forall_mem_cons.mpr ⟨fun hcode => ?_, h.kept⟩
    obtain ⟨hne, -⟩ := hanswer.resolve_left hcode
    exact ⟨hne, hlow hcode, Nat.zero_le _, nofun⟩

/-- One of the arenas is asked for a region. -/
theorem Inv.request (h : Inv s) {pre post : List (ArenaRun (List Region))}
    {run : ArenaRun (List Region)} {a : ArenaAct} (hlive : s.live = pre ++ run :: post)
    (hmodest : a.Modest) : Inv { s with live := pre ++ run.after a :: post } := by
  have hrun : run ∈ s.live := by simp [hlive]
  have hmem : ∀ r ∈ pre ++ run.after a :: post, r = run.after a ∨ r ∈ s.live := by
    intro r hr
    rw [List.mem_append, List.mem_cons] at hr
    rw [hlive, List.mem_append, List.mem_cons]
    tauto
  refine ⟨h.apart, fun r hr => ?_, fun r hr hcode => ?_⟩
  · rcases hmem r hr with rfl | hr
    · exact (h.onPages run hrun).after a
    · exact h.onPages r hr
  · rcases hmem r hr with rfl | hr
    · have hbuffer : (run.after a).arena.buffer = run.arena.buffer :=
        congrArg Prod.fst (after_block run a)
      rw [ArenaRun.Got, hbuffer] at hcode
      exact (h.kept run hrun hcode).after hmodest
    · exact h.kept r hr hcode

/-- Fewer mappings and fewer arenas. -/
theorem Inv.sublist (h : Inv s) {live : List (ArenaRun (List Region))}
    (hmapped : mapped.Sublist s.mapped) (hlive : live.Sublist s.live) : Inv ⟨mapped, live⟩ where
  apart := h.apart.sublist hmapped
  onPages r hr := h.onPages r (hlive.mem hr)
  kept r hr := h.kept r (hlive.mem hr)

theorem inv_step (h : Inv s) (hstep : Step s a s') : Inv s' := by
  cases hstep with
  | create hanswer hlow hcall =>
      rw [ciaArenaCreate_eq] at hcall
      cases hcall
      exact h.create hanswer hlow
  | request hlive hmodest => exact h.request hlive hmodest
  | @destroy pre post run mapped hlive hcall =>
      refine h.sublist ((h.onPages run (by simp [hlive])).destroy_sublist hcall) ?_
      rw [hlive]
      exact (List.append_sublist_append_left pre).mpr (List.sublist_cons_self _ _)

theorem inv_init (h : clients.init s) : Inv s := by
  obtain ⟨mapped, live⟩ := s
  obtain ⟨rfl, rfl⟩ := h
  exact ⟨List.Pairwise.nil, nofun, nofun⟩

/-! ### The page allocator's view -/

/-- What the page allocator is asked for. -/
def Act.onPages : Act → List Pages.Act
  | .create bufferSize answer => [.alloc bufferSize 16 answer]
  | .request _ _ => []
  | .destroy r => [.freeSize r]

/-- Its client holds the blocks of the live arenas. -/
structure Holds (s : State) (t : Pages.State) : Prop where
  inv : Inv s
  mapped : t.mapped = s.mapped
  held : t.held.Perm (s.live.map ArenaRun.block)

theorem clients_simulate : Simulation clients client Act.onPages Holds where
  init := by
    intro s hinit
    have hinv := inv_init hinit
    obtain ⟨mapped, live⟩ := s
    obtain ⟨rfl, rfl⟩ := hinit
    exact ⟨⟨[], []⟩, ⟨rfl, rfl⟩, hinv, rfl, .nil⟩
  step := by
    rintro s a s' ⟨mapped, held⟩ ⟨hinv, rfl, hheld⟩ hstep
    have hinv' := inv_step hinv hstep
    cases hstep with
    | @create bufferSize answer arena mapped' hanswer hlow hcall =>
        rw [ciaArenaCreate_eq] at hcall
        cases hcall
        refine ⟨_, .single (.alloc hanswer (ciaAllocatorAlloc_eq _ _ _ _)), hinv', rfl, ?_⟩
        change (if answer = 0 then held else (answer, bufferSize) :: held).Perm _
        rw [if_neg hanswer.ne_zero]
        exact hheld.cons _
    | @request pre post run a hlive hmodest =>
        refine ⟨_, .refl _, hinv', rfl, ?_⟩
        rw [hlive] at hheld
        simpa [after_block] using hheld
    | @destroy pre post run mapped' hlive hcall =>
        obtain ⟨answer, hdestroy⟩ := (hinv.onPages run (by simp [hlive])).destroy s.mapped
        rw [hdestroy] at hcall
        have hmem : run.block ∈ held := hheld.mem_iff.mpr (by simp [hlive])
        refine ⟨_, .single (.freeSize hmem hcall), hinv', rfl, ?_⟩
        rw [hlive, List.map_append, List.map_cons] at hheld
        have herased := (hheld.trans List.perm_middle).erase run.block
        rw [List.erase_cons_head] at herased
        simpa using herased

/-- No request of the clients of arenas leaks. -/
theorem not_leaks_onPages {b : Pages.Act} (h : b ∈ tr.flatMap Act.onPages) : ¬ b.Leaks := by
  obtain ⟨a, -, hb⟩ := List.mem_flatMap.mp h
  cases a with
  | create bufferSize answer =>
      rw [List.mem_singleton.mp hb]
      exact id
  | request i a => exact absurd hb List.not_mem_nil
  | destroy r =>
      rw [List.mem_singleton.mp hb]
      exact id

/-- What is mapped are the blocks of the live arenas. -/
theorem mapped_perm (h : clients.Reaches tr s) :
    s.mapped.Perm (owed (s.live.map ArenaRun.block)) := by
  obtain ⟨t, ht, -, hmapped, hheld⟩ := clients_simulate.reaches h
  obtain ⟨leaked, hacc⟩ := accounted_of_reaches ht
  have hnone : leaked = [] := hacc.leaked.mpr fun b hb => not_leaks_onPages hb
  have hperm := hacc.mapped
  rw [hnone, List.append_nil, hmapped] at hperm
  exact hperm.trans (hheld.filter _)

/-! ### Main result -/

/-- The memory of one arena is its own. -/
structure Isolated (s : State) : Prop where
  /-- Mapped are the blocks of the live arenas that got one, and nothing else. -/
  mapped : s.mapped.Perm (owed (s.live.map ArenaRun.block))
  inside : ∀ run ∈ s.live, run.Got → ∀ r ∈ run.regions,
    region r.ptr r.size.toNat ⊆ region run.arena.buffer run.arena.bufferSize.toNat
  apart : s.live.Pairwise fun run run' => run.Got → run'.Got →
    ∀ r ∈ run.regions, ∀ r' ∈ run'.regions,
      Disjoint (region r.ptr r.size.toNat) (region r'.ptr r'.size.toNat)

theorem Kept.region_subset (h : Kept run) {r : ArenaRegion} (hr : r ∈ run.regions) :
    region r.ptr r.size.toNat ⊆ region run.arena.buffer run.arena.bufferSize.toNat := by
  obtain ⟨hstart, hstop⟩ := h.inside r hr
  have hend : run.arena.buffer.toNat + run.arena.bufferSize.toNat ≤ 2 ^ 47 := h.end_le
  have hregion : r.ptr.toNat + r.size.toNat ≤
      run.arena.buffer.toNat + run.arena.bufferSize.toNat := hstop
  exact subset_region (by omega) (by omega) hstart hregion

theorem Inv.blocks_apart (h : Inv s) (hmapped : s.mapped.Perm (owed (s.live.map ArenaRun.block))) :
    s.live.Pairwise fun run run' => run.Got → run'.Got →
      Disjoint (region run.arena.buffer run.arena.bufferSize.toNat)
        (region run'.arena.buffer run'.arena.bufferSize.toNat) := by
  have howed := (hmapped.pairwise_iff fun hdisjoint => hdisjoint.symm).mp h.apart
  rw [owed, List.filter_map, List.pairwise_map, List.pairwise_filter] at howed
  exact howed.imp fun hdisjoint hgot hgot' =>
    hdisjoint (decide_eq_true hgot) (decide_eq_true hgot')

/-- An arena of 64 bytes is created at an address that is free. -/
theorem step_create_small (hcode : ¬ IsErrorCode answer) (hlow : answer.toNat + 64 ≤ 2 ^ 47)
    (hne : answer ≠ 0)
    (hfresh : ∀ r ∈ s.mapped, Disjoint (region r.1 r.2.toNat) (region answer 64)) :
    Step s (.create 64 answer)
      ⟨(answer, 64) :: s.mapped, ⟨⟨pages answer, 64, 0, answer⟩, []⟩ :: s.live⟩ := by
  refine .create (.inr ⟨hne, by decide, hfresh⟩) (fun _ => hlow) ?_
  rw [ciaArenaCreate_eq, if_neg hcode]

/-- The arena at `0x20000` goes, and the one at `0x10000` stays. -/
theorem step_destroy_small {run run' : ArenaRun (List Region)} (hpages : OnPages run)
    (hrun : run.block = (0x20000, 64)) :
    Step ⟨[(0x20000, 64), (0x10000, 64)], [run, run']⟩ (.destroy (0x20000, 64))
      ⟨[(0x10000, 64)], [run']⟩ := by
  have hcall : ciaArenaDestroy run.arena [(0x20000, 64), (0x10000, 64)] =
      .ok () [(0x10000, 64)] := by
    obtain ⟨answer, hdestroy⟩ := hpages.destroy [(0x20000, 64), (0x10000, 64)]
    rw [hdestroy, ciaAllocatorFreeSize_eq, hrun]
    rfl
  have hstep : Step ⟨[(0x20000, 64), (0x10000, 64)], [run, run']⟩ (.destroy run.block)
      ⟨[(0x10000, 64)], [run']⟩ := @Step.destroy _ [] _ _ _ rfl hcall
  rwa [hrun] at hstep

end Pages.Arenas

end Ciabatta.CiaMem
