import Ciabatta.CiaMem.ArenaRuns
import Ciabatta.CiaMem.PoolBuckets

/-!
A backing allocator that returns NULL. No function of the pool or the arena looks
at the answer: the pool cuts the missing block into buckets, and the arena keeps
it as its buffer, from which requests are served once its cursor has moved.
-/

namespace Ciabatta.CiaMem

open ByteMemory Exec

variable {pool : CiaPool} {m t u : Machine Call} {base : Word}

/-! ### The pool -/

/-- No more than `n` events so far. -/
def LogAtMost (n : ℕ) (m : Machine Call) : Prop :=
  m.log.length ≤ n

theorem log_loadWord {a w : Word} (h : loadWord a t = .ok w u) :
    u.log = t.log ++ [.load a 8] := by
  have hu : u = t.record (.load a 8) := (eq_of_ok h).2
  rw [hu]
  rfl

theorem log_storeWord {a v : Word} {r : Unit} (h : storeWord a v t = .ok r u) :
    u.log = t.log ++ [.store a 8] := by
  have hu : u = { t.record (.store a 8) with mem := store64 t.mem a v } := (eq_of_ok h).2
  rw [hu]
  rfl

theorem accessReflects_logAtMost (n : ℕ) : AccessReflects (LogAtMost n) := by
  intro s m e _ h
  rw [LogAtMost, List.length_append] at h
  exact Nat.le_of_add_right_le h

/-- Cutting a block begins with a store into it. -/
theorem log_lt_of_poolBufferFreelistAdd {pool' : CiaPool}
    (h : poolBufferFreelistAdd pool base t = .ok pool' u) : t.log.length < u.log.length := by
  by_contra hle
  have hreflects := accessReflects_logAtMost t.log.length
  have hu : LogAtMost t.log.length u := Nat.le_of_not_lt hle
  obtain ⟨n, v, hdivide, hrest⟩ := exists_of_bind_ok h
  obtain ⟨head, w, hloop, hrecord⟩ := exists_of_bind_ok hrest
  obtain ⟨-, -, rfl⟩ := of_divide_ok hdivide
  obtain ⟨-, rfl⟩ := eq_of_pure_ok hrecord
  obtain ⟨fuel, next, x, -, hround, hgo⟩ := exists_of_loop_ok hloop
  have hx : LogAtMost v.log.length x := by
    cases next with
    | inl b =>
        exact (reflects_loop (reflects_poolCarveBucket hreflects _ _ _) fuel b).of_ok hgo hu
    | inr a => exact hgo.2 ▸ hu
  -- the store is the first thing that the round does
  obtain ⟨_, y, hstore, hend⟩ := exists_of_bind_ok hround
  have hy : LogAtMost v.log.length y :=
    Reflects.of_ok ((reflects_pure _).ite (reflects_pure _)) hend hx
  rw [LogAtMost, log_storeWord hstore, List.length_append] at hy
  exact absurd hy (Nat.not_succ_le_self _)

/-- What `cia_pool_create` owes to its caller when the backing allocator has no
block for it: it touches no memory, all of which would be in the missing block,
and the pool hands out nothing. -/
def CreatePropagates (allocator : CiaAllocator (Machine Call))
    (bufferSize elementSize alignment : Word) (m : Machine Call) : Prop :=
  ∀ t, ciaAllocatorAlloc allocator bufferSize alignment m = .ok 0 t →
    ∃ pool u, ciaPoolCreate allocator bufferSize elementSize alignment m = .ok pool u ∧
      u.mem = t.mem ∧ u.log = t.log ∧
      ∀ v p pool' w, ciaPoolAlloc pool v = .ok (p, pool') w → p = 0

/-- The same for `cia_pool_alloc` with an empty free list: it returns NULL and
leaves the pool as it was. -/
def AllocPropagates (pool : CiaPool) (m : Machine Call) : Prop :=
  ∀ t, pool.freelistHead = 0 →
    ciaAllocatorAlloc pool.allocator pool.bufferSize pool.alignment m = .ok 0 t →
    ∃ u, ciaPoolAlloc pool m = .ok (0, pool) u ∧ u.mem = t.mem ∧ u.log = t.log

theorem createPropagates_iff (allocator : CiaAllocator (Machine Call))
    (bufferSize elementSize alignment : Word) (m : Machine Call) :
    CreatePropagates allocator bufferSize elementSize alignment m ↔
      ∀ t, ciaAllocatorAlloc allocator bufferSize alignment m ≠ .ok 0 t := by
  constructor
  · intro h t hnull
    obtain ⟨pool, u, hcreate, -, hlog, -⟩ := h t hnull
    rw [ciaPoolCreate, bind_of_ok hnull] at hcreate
    exact absurd (log_lt_of_poolBufferFreelistAdd hcreate) (by rw [hlog]; exact Nat.lt_irrefl _)
  · intro h t hnull
    exact absurd hnull (h t)

theorem allocPropagates_iff (pool : CiaPool) (m : Machine Call) :
    AllocPropagates pool m ↔ (pool.freelistHead = 0 →
      ∀ t, ciaAllocatorAlloc pool.allocator pool.bufferSize pool.alignment m ≠ .ok 0 t) := by
  constructor
  · intro h hhead t hnull
    obtain ⟨u, halloc, -, hlog⟩ := h t hhead hnull
    rw [ciaPoolAlloc, if_pos hhead, bind_assoc, bind_of_ok hnull] at halloc
    obtain ⟨pool', v, hadd, hrest⟩ := exists_of_bind_ok halloc
    obtain ⟨next, w, hload, hend⟩ := exists_of_bind_ok hrest
    have hlt := log_lt_of_poolBufferFreelistAdd hadd
    rw [← hlog, (eq_of_pure_ok hend).2, log_loadWord hload, List.length_append] at hlt
    exact absurd hlt (by omega)
  · intro h t hhead hnull
    exact absurd hnull (h hhead t)

/-! ### The arena -/

def ArenaAct.call (arena : CiaArena (Machine Call)) : ArenaAct → Word × CiaArena (Machine Call)
  | .alloc size => ciaArenaAlloc arena size
  | .allocAligned size align => ciaArenaAllocAligned arena size align
  | .freeAll => (0, ciaArenaFreeAll arena)

/-- What a sequence of calls on an arena returns. -/
def answers (arena : CiaArena (Machine Call)) : List ArenaAct → List Word
  | [] => []
  | a :: acts => (a.call arena).1 :: answers (a.call arena).2 acts

/-- The request is refused, or the cursor of the missing buffer is at NULL. -/
def Harmless (arena : CiaArena (Machine Call)) : ArenaAct → Prop
  | .alloc size => arena.used + size > arena.bufferSize ∨ arena.used = 0
  | .allocAligned size align =>
      ciaPtrAlignf arena.used align + size > arena.bufferSize ∨ ciaPtrAlignf arena.used align = 0
  | .freeAll => True

def AllHarmless (arena : CiaArena (Machine Call)) : List ArenaAct → Prop
  | [] => True
  | a :: acts => Harmless arena a ∧ AllHarmless (a.call arena).2 acts

/-- What `cia_arena_create` owes to its caller when the backing allocator has no
buffer for it: the arena hands out nothing. -/
def ArenaPropagates (allocator : CiaAllocator (Machine Call)) (bufferSize : Word) (m : Machine Call)
    (acts : List ArenaAct) : Prop :=
  ∀ arena t, ciaArenaCreate allocator bufferSize m = .ok arena t → arena.buffer = 0 →
    ∀ p ∈ answers arena acts, p = 0

theorem call_null_iff {arena : CiaArena (Machine Call)} (h : arena.buffer = 0) (a : ArenaAct) :
    (a.call arena).1 = 0 ↔ Harmless arena a := by
  cases a with
  | alloc size =>
      rw [ArenaAct.call, ciaArenaAlloc, Harmless, h]
      split
      · simp [*]
      · simp [*]
  | allocAligned size align =>
      simp only [ArenaAct.call, ciaArenaAllocAligned, Harmless, h, zero_add]
      split
      · simp [*]
      · simp [*]
  | freeAll => simp [ArenaAct.call, Harmless]

theorem buffer_call (arena : CiaArena (Machine Call)) (a : ArenaAct) :
    (a.call arena).2.buffer = arena.buffer := by
  cases a with
  | alloc size =>
      rw [ArenaAct.call, ciaArenaAlloc]
      split <;> rfl
  | allocAligned size align =>
      simp only [ArenaAct.call, ciaArenaAllocAligned]
      split <;> rfl
  | freeAll => rfl

theorem answers_null_iff {arena : CiaArena (Machine Call)} (h : arena.buffer = 0)
    (acts : List ArenaAct) : (∀ p ∈ answers arena acts, p = 0) ↔ AllHarmless arena acts := by
  induction acts generalizing arena with
  | nil => simp [answers, AllHarmless]
  | cons a acts ih =>
      rw [answers, AllHarmless, List.forall_mem_cons, call_null_iff h,
        ih ((buffer_call arena a).trans h)]

theorem arenaPropagates_iff (allocator : CiaAllocator (Machine Call)) (bufferSize : Word)
    (m : Machine Call) (acts : List ArenaAct) :
    ArenaPropagates allocator bufferSize m acts ↔
      ∀ arena t, ciaArenaCreate allocator bufferSize m = .ok arena t → arena.buffer = 0 →
        AllHarmless arena acts := by
  constructor
  · intro h arena t hcreate hnull
    exact (answers_null_iff hnull acts).mp (h arena t hcreate hnull)
  · intro h arena t hcreate hnull
    exact (answers_null_iff hnull acts).mpr (h arena t hcreate hnull)

/-! ### Main result -/

/-- A missing block is noticed by the pool never, and by the arena exactly as long
as the requests are harmless. -/
theorem backing_failure_iff (allocator : CiaAllocator (Machine Call))
    (bufferSize elementSize alignment : Word) (pool : CiaPool) (acts : List ArenaAct)
    (m : Machine Call) :
    (CreatePropagates allocator bufferSize elementSize alignment m ↔
      ∀ t, ciaAllocatorAlloc allocator bufferSize alignment m ≠ .ok 0 t) ∧
    (AllocPropagates pool m ↔ (pool.freelistHead = 0 →
      ∀ t, ciaAllocatorAlloc pool.allocator pool.bufferSize pool.alignment m ≠ .ok 0 t)) ∧
    (ArenaPropagates allocator bufferSize m acts ↔
      ∀ arena t, ciaArenaCreate allocator bufferSize m = .ok arena t → arena.buffer = 0 →
        AllHarmless arena acts) :=
  ⟨createPropagates_iff allocator bufferSize elementSize alignment m, allocPropagates_iff pool m,
    arenaPropagates_iff allocator bufferSize m acts⟩

/-- A pool over `cia_allocator_null()`, and an arena over it that serves the second
of two requests. -/
theorem backing_failure_fails :
    ¬ CreatePropagates ciaAllocatorNull 64 8 8 ⟨fun _ => 0, []⟩ ∧
      ¬ ArenaPropagates ciaAllocatorNull 64 ⟨fun _ => 0, []⟩ [.alloc 8, .alloc 0] := by
  constructor
  · rw [createPropagates_iff]
    exact fun h => h _ rfl
  · intro h
    have hserved := h _ _ rfl rfl 64 (by decide)
    revert hserved
    decide

end Ciabatta.CiaMem
