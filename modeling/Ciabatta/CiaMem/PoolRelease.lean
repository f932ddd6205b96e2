import Ciabatta.CiaMem.PoolRuns
import Ciabatta.Lib.Footprint

/-!
The whole life of a pool, from `cia_pool_create` to `cia_pool_destroy`, and what
it gives back to the backing allocator. The headers of the buffers are there to
link them, but no function of the pool ever writes one: what `cia_pool_free_all`
and `cia_pool_destroy` release is whatever the blocks came with.
-/

namespace Ciabatta.CiaMem

open ByteMemory Exec FreeList Layout Transition System

/-- The buffer that an event releases. -/
def releasedBy : Event Call → Option Word
  | .call (.allocator optype oldPtr _ _ _ _) => if optype = ciaMemOpFree then some oldPtr else none
  | _ => none

/-- The buffers released between two points of a run, in order. -/
def releasedSince (m t : Machine Call) : List Word :=
  (t.log.drop m.log.length).filterMap releasedBy

structure PoolLife where
  run : PoolRun
  /-- All buffers obtained so far, and all released. -/
  obtained : List Word
  released : List Word
  destroyed : Bool

inductive LifeAct
  | call (a : PoolAct)
  | freeAll
  | destroy

/-- The buffers that a call obtained. -/
def PoolAct.obtained : PoolAct → List Word
  | .alloc _ obtained => obtained
  | _ => []

variable (params : PoolParams)

/-- The buffers of the pool are from now on those that it should have kept: the
first one after `cia_pool_free_all`, and none after `cia_pool_destroy`. -/
inductive LifeStep : PoolLife → LifeAct → PoolLife → Prop
  | call {s : PoolLife} {a : PoolAct} {run : PoolRun} (h : s.destroyed = false)
      (hstep : PoolStep params s.run a run) :
      LifeStep s (.call a) { s with run := run, obtained := a.obtained ++ s.obtained }
  | freeAll {s : PoolLife} {fuel : ℕ} {pool : CiaPool} {t : Machine Call}
      (h : s.destroyed = false)
      (hcall : ciaPoolFreeAll fuel s.run.pool s.run.machine = .ok pool t) :
      LifeStep s .freeAll
        { s with
          run := { pool := pool, machine := t, buffers := [s.run.pool.first], live := [] }
          released := releasedSince s.run.machine t ++ s.released }
  | destroy {s : PoolLife} {fuel : ℕ} {t : Machine Call} (h : s.destroyed = false)
      (hcall : ciaPoolDestroy fuel s.run.pool s.run.machine = .ok () t) :
      LifeStep s .destroy
        { s with
          run := { s.run with machine := t, buffers := [], live := [] }
          released := releasedSince s.run.machine t ++ s.released
          destroyed := true }

def poolLife : System PoolLife LifeAct where
  init s := (poolService params).init s.run ∧ s.obtained = s.run.buffers ∧ s.released = [] ∧
    s.destroyed = false
  step := LifeStep params

/-- Each buffer obtained was released once or is still the pool's, and nothing else
was released. -/
def Conserved (s : PoolLife) : Prop :=
  s.obtained.Perm (s.released ++ s.run.buffers)

/-- The pool has not grown, and its one buffer has a header of zeros; the release of
the buffer leaves the header as it is. -/
def Intact (s : PoolLife) : LifeAct → Prop
  | .call _ => True
  | .freeAll => s.run.buffers = [s.run.pool.first] ∧
      load64 s.run.machine.mem s.run.pool.first = 0
  | .destroy => s.run.buffers = [s.run.pool.first] ∧
      load64 s.run.machine.mem s.run.pool.first = 0 ∧
      ∀ t, ciaAllocatorFreeSize s.run.pool.allocator s.run.pool.first s.run.pool.bufferSize
        s.run.machine = .ok () t → load64 t.mem s.run.pool.first = 0

/-- What the allocator itself does is not in the log. -/
def CiaAllocator.Unlogged (alloc : CiaAllocator (Machine Call)) : Prop :=
  ∀ ctx optype oldPtr oldSize size alignment s,
    (final (alloc.proc ctx optype oldPtr oldSize size alignment s)).log = s.log

variable {params} {s t : PoolLife} {m u : Machine Call} {pool : CiaPool} {fuel : ℕ}

/-! ### What the two functions release -/

/-- From here to the end of the run nothing is released. -/
def NoRelease (log : List (Event Call)) (m : Machine Call) : Prop :=
  ∃ es, log = m.log ++ es ∧ es.filterMap releasedBy = []

theorem accessReflects_noRelease (log : List (Event Call)) :
    AccessReflects (NoRelease log) := by
  rintro m _ e he ⟨es, hlog, hes⟩
  have hnone : releasedBy e = none := by
    cases e with
    | load => rfl
    | store => rfl
    | call c => exact absurd rfl (he c)
  refine ⟨e :: es, by simpa using hlog, ?_⟩
  rw [List.filterMap_cons_none hnone, hes]

theorem releasedSince_append {es : List (Event Call)} (h : u.log = m.log ++ es) :
    releasedSince m u = es.filterMap releasedBy := by
  rw [releasedSince, h, List.drop_left]

theorem ciaPoolFreeAll_intact (hheader : load64 m.mem pool.first = 0) {pool' : CiaPool}
    (h : ciaPoolFreeAll fuel pool m = .ok pool' u) :
    poolBufferFreelistAdd { pool with freelistHead := 0 } pool.first
        (m.record (.load pool.first 8)) = .ok pool' u ∧
      releasedSince m u = [] := by
  rw [ciaPoolFreeAll, loadWord_bind, hheader] at h
  obtain ⟨_, v, hloop, hadd⟩ := exists_of_bind_ok h
  obtain ⟨k, r, w, -, hround, hrest⟩ := exists_of_loop_ok hloop
  rw [poolReleaseRound, if_neg (by simp)] at hround
  obtain ⟨rfl, rfl⟩ := eq_of_pure_ok hround
  obtain ⟨-, rfl⟩ := hrest
  refine ⟨hadd, ?_⟩
  have hquiet : NoRelease u.log m := by
    apply (accessReflects_noRelease u.log).loadWord pool.first
    exact (reflects_poolBufferFreelistAdd (accessReflects_noRelease u.log) _ _).of_ok hadd
      ⟨[], by simp, rfl⟩
  obtain ⟨es, hlog, hes⟩ := hquiet
  rw [releasedSince_append hlog, hes]

theorem log_ciaAllocatorFreeSize {alloc : CiaAllocator (Machine Call)} {p n : Word} {r : Unit}
    (hquiet : alloc.Unlogged) (h : ciaAllocatorFreeSize alloc p n m = .ok r u) :
    ∃ result, u.log = m.log ++ [.call (.allocator ciaMemOpFree p n 0 1 result)] := by
  obtain ⟨result, x, hproc, hcall⟩ := exists_of_bind_ok h
  have hx := hquiet alloc.ctx ciaMemOpFree p n 0 1 m
  rw [hproc] at hx
  refine ⟨result, ?_⟩
  rw [← hx]
  exact congrArg Machine.log (eq_of_ok hcall).2

theorem ciaPoolDestroy_intact (hquiet : pool.allocator.Unlogged) (hfirst : pool.first ≠ 0)
    (hheader : ∀ t, ciaAllocatorFreeSize pool.allocator pool.first pool.bufferSize m = .ok () t →
      load64 t.mem pool.first = 0)
    (h : ciaPoolDestroy fuel pool m = .ok () u) : releasedSince m u = [pool.first] := by
  obtain ⟨k, r, v, -, hround, hrest⟩ := exists_of_loop_ok h
  rw [poolReleaseRound, if_pos hfirst] at hround
  obtain ⟨_, w, hfree, hround⟩ := exists_of_bind_ok hround
  rw [loadWord_bind, hheader w hfree] at hround
  obtain ⟨rfl, rfl⟩ := eq_of_pure_ok hround
  obtain ⟨k, r, v, -, hround, hrest⟩ := exists_of_loop_ok hrest
  rw [poolReleaseRound, if_neg (by simp)] at hround
  obtain ⟨rfl, rfl⟩ := eq_of_pure_ok hround
  obtain ⟨-, rfl⟩ := hrest
  obtain ⟨result, hlog⟩ := log_ciaAllocatorFreeSize hquiet hfree
  have hend : (w.record (.load pool.first 8)).log = m.log
      ++ [.call (.allocator ciaMemOpFree pool.first pool.bufferSize 0 1 result),
        .load pool.first 8] := by
    simp [Machine.record, hlog]
  rw [releasedSince_append hend]
  simp [releasedBy]

theorem reflects_ciaAllocatorFreeSize {alloc : CiaAllocator (Machine Call)} {P : Event Call → Prop}
    {A : Machine Call → Prop} {p n : Word} (h : LogReflects P A) (hquiet : alloc.Unlogged)
    (hcall : ∀ result, P (.call (.allocator ciaMemOpFree p n 0 1 result))) :
    Reflects A (ciaAllocatorFreeSize alloc p n) := by
  refine Reflects.bind (fun m hA => ?_) fun result m hA => ?_
  · exact h.of_log m _ (hquiet alloc.ctx ciaMemOpFree p n 0 1 m) hA
  · exact h.of_event m _ _ (hcall result) rfl hA

theorem reflects_poolReleaseRound {P : Event Call → Prop} {A : Machine Call → Prop}
    (h : LogReflects P A) (hquiet : pool.allocator.Unlogged) (hP : Lenient P)
    (hcall : ∀ p result, P (.call (.allocator ciaMemOpFree p pool.bufferSize 0 1 result)))
    (buffer : Word) : Reflects A (poolReleaseRound pool buffer) := by
  have hfree := reflects_ciaAllocatorFreeSize h hquiet (hcall buffer)
  refine Reflects.ite (hfree.bind fun _ => ?_) (reflects_pure _)
  exact ((h.access hP).loadWord buffer).bind fun _ => reflects_pure _

/-- What the header of the first buffer holds is released. -/
theorem mem_releasedSince (hquiet : pool.allocator.Unlogged)
    (hheader : load64 m.mem pool.first ≠ 0) {pool' : CiaPool}
    (h : ciaPoolFreeAll fuel pool m = .ok pool' u) :
    load64 m.mem pool.first ∈ releasedSince m u := by
  rw [ciaPoolFreeAll, loadWord_bind] at h
  obtain ⟨_, v, hloop, hadd⟩ := exists_of_bind_ok h
  obtain ⟨k, r, w, -, hround, hrest⟩ := exists_of_loop_ok hloop
  have hlogs := logReflects_extends u.log
  have hreflects := hlogs.access fun _ _ => trivial
  have hv : Extends u.log v :=
    (reflects_poolBufferFreelistAdd hreflects _ _).of_ok hadd ⟨[], by simp⟩
  have hw : Extends u.log w := by
    cases r with
    | inl next =>
        have hround := reflects_poolReleaseRound hlogs hquiet (fun _ _ => trivial)
          fun _ _ => trivial
        exact (reflects_loop hround k next).of_ok hrest hv
    | inr _ => exact hrest.2 ▸ hv
  rw [poolReleaseRound, if_pos hheader] at hround
  obtain ⟨_, x, hfree, hread⟩ := exists_of_bind_ok hround
  obtain ⟨es, hlog⟩ : Extends u.log x :=
    ((hreflects.loadWord _).bind fun _ => reflects_pure _).of_ok hread hw
  obtain ⟨result, hx⟩ := log_ciaAllocatorFreeSize hquiet hfree
  rw [hx] at hlog
  rw [releasedSince, hlog]
  simp [Machine.record, releasedBy]

/-! ### Runs -/

theorem PoolStep.buffers {s t : PoolRun} {a : PoolAct} (h : PoolStep params s a t) :
    t.buffers = a.obtained ++ s.buffers := by
  cases h <;> rfl

/-- Until it is destroyed, the pool is a depot of buckets. -/
structure LifeInv (params : PoolParams) (s : PoolLife) : Prop where
  conserved : Conserved s
  represents : s.destroyed = false → ∃ d, Represents params s.run d

theorem lifeInv_freeAll (h : LifeInv params s) (hdestroyed : s.destroyed = false)
    (hintact : Intact s .freeAll) {pool : CiaPool}
    (hcall : ciaPoolFreeAll fuel s.run.pool s.run.machine = .ok pool u) :
    LifeInv params
      { s with
        run := { pool := pool, machine := u, buffers := [s.run.pool.first], live := [] }
        released := releasedSince s.run.machine u ++ s.released } := by
  obtain ⟨hbuffers, hheader⟩ := hintact
  obtain ⟨hadd, hreleased⟩ := ciaPoolFreeAll_intact hheader hcall
  obtain ⟨d, hrep⟩ := h.represents hdestroyed
  have hmem : s.run.pool.first ∈ s.run.buffers := by simp [hbuffers]
  have hblocks : params.carving.Blocks [s.run.pool.first] := hbuffers ▸ hrep.blocks
  have hempty : Chain (s.run.machine.record (.load s.run.pool.first 8)).mem 0 [] := rfl
  have hsizes : params.Sizes { s.run.pool with freelistHead := 0 } :=
    ⟨hrep.sizes.allocator, hrep.sizes.bufferSize, hrep.sizes.bucketSize, hrep.sizes.alignment⟩
  obtain ⟨hsizes', hchain, -⟩ :=
    (yields_poolBufferFreelistAdd (l := []) hsizes hblocks nofun hempty).of_eq hadd
  rw [List.append_nil] at hchain
  constructor
  · have hconserved := h.conserved
    rw [Conserved, hbuffers] at hconserved
    rw [Conserved, hreleased]
    exact hconserved
  · intro _
    obtain ⟨d', -, hrep'⟩ := represents_fresh hsizes' (hrep.blocks.placed _ hmem)
      (hrep.aligned _ hmem) hchain
    exact ⟨d', hrep'⟩

theorem lifeInv_destroy (hquiet : params.allocator.Unlogged) (h : LifeInv params s)
    (hdestroyed : s.destroyed = false) (hintact : Intact s .destroy)
    (hcall : ciaPoolDestroy fuel s.run.pool s.run.machine = .ok () u) :
    LifeInv params
      { s with
        run := { s.run with machine := u, buffers := [], live := [] }
        released := releasedSince s.run.machine u ++ s.released
        destroyed := true } := by
  obtain ⟨hbuffers, -, hheader⟩ := hintact
  obtain ⟨d, hrep⟩ := h.represents hdestroyed
  have hmem : s.run.pool.first ∈ s.run.buffers := by simp [hbuffers]
  have hquiet' : s.run.pool.allocator.Unlogged := hrep.sizes.allocator ▸ hquiet
  have hreleased := ciaPoolDestroy_intact hquiet' (hrep.blocks.placed _ hmem).ne_null hheader hcall
  refine ⟨?_, nofun⟩
  have hconserved := h.conserved
  rw [Conserved, hbuffers] at hconserved
  rw [Conserved, hreleased, List.append_nil]
  exact hconserved.trans (List.perm_append_singleton _ _)

theorem lifeInv_reaches (hquiet : params.allocator.Unlogged) {tr : List LifeAct}
    (h : ((poolLife params).restrict Intact).Reaches tr s) : LifeInv params s := by
  refine h.invariant (I := LifeInv params) ?_ ?_
  · rintro s ⟨hinit, hobtained, hreleased, hdestroyed⟩
    refine ⟨?_, fun _ => ?_⟩
    · rw [Conserved, hobtained, hreleased, List.nil_append]
    · obtain ⟨d, -, hrep⟩ := represents_init hinit
      exact ⟨d, hrep⟩
  · rintro s a t hinv ⟨hstep, hintact⟩
    cases hstep with
    | call hdestroyed hcall =>
        obtain ⟨d, hrep⟩ := hinv.represents hdestroyed
        obtain ⟨d', -, hrep'⟩ := pool_simulates_depot.step _ _ _ _ hrep hcall
        refine ⟨?_, fun _ => ⟨d', hrep'⟩⟩
        rw [Conserved, hcall.buffers]
        exact (hinv.conserved.append_left _).trans (List.perm_append_comm_assoc _ _ _)
    | freeAll hdestroyed hcall => exact lifeInv_freeAll hinv hdestroyed hintact hcall
    | destroy hdestroyed hcall => exact lifeInv_destroy hquiet hinv hdestroyed hintact hcall

/-- After a reset the ledger is not balanced any more if the pool had grown or the
header did not hold zeros. Only both together may cancel out, when the blocks
happen to come with links to each other. -/
theorem intact_of_conserved (hquiet : s.run.pool.allocator.Unlogged) (h : Conserved s)
    (hone : s.run.buffers.length = 1 ∨ load64 s.run.machine.mem s.run.pool.first = 0)
    {pool : CiaPool} (hcall : ciaPoolFreeAll fuel s.run.pool s.run.machine = .ok pool u)
    (hafter : Conserved
      { s with
        run := { pool := pool, machine := u, buffers := [s.run.pool.first], live := [] }
        released := releasedSince s.run.machine u ++ s.released }) :
    s.run.buffers.length = 1 ∧ load64 s.run.machine.mem s.run.pool.first = 0 := by
  have hbefore := h.length_eq
  have hlength := hafter.length_eq
  simp only [List.length_append, List.length_singleton] at hbefore hlength
  by_cases hheader : load64 s.run.machine.mem s.run.pool.first = 0
  · rw [(ciaPoolFreeAll_intact hheader hcall).2, List.length_nil] at hlength
    exact ⟨by omega, hheader⟩
  · have hpos := List.length_pos_of_mem (mem_releasedSince hquiet hheader hcall)
    have hlen := hone.resolve_right hheader
    omega

/-! ### The calls go through -/

theorem yields_poolReleaseRound_null (m : Machine Call) :
    Yields (poolReleaseRound pool 0) m fun r t => r = .inr () ∧ t = m :=
  yields_pure ⟨rfl, rfl⟩

theorem yields_ciaPoolFreeAll (h : LifeInv params s) (hdestroyed : s.destroyed = false)
    (hintact : Intact s .freeAll) :
    Yields (ciaPoolFreeAll 1 s.run.pool) s.run.machine fun _ _ => True := by
  obtain ⟨hbuffers, hheader⟩ := hintact
  obtain ⟨d, hrep⟩ := h.represents hdestroyed
  have hblocks : params.carving.Blocks [s.run.pool.first] := hbuffers ▸ hrep.blocks
  have hsizes : params.Sizes { s.run.pool with freelistHead := 0 } :=
    ⟨hrep.sizes.allocator, hrep.sizes.bufferSize, hrep.sizes.bucketSize, hrep.sizes.alignment⟩
  refine Yields.loadWord_bind ?_
  rw [hheader]
  refine Yields.bind (R := fun _ _ => True)
    ((yields_poolReleaseRound_null _).mono fun r t hr => ⟨hr.1, trivial⟩).loop_end ?_
  intro _ t _
  have hempty : Chain t.mem 0 [] := rfl
  exact (yields_poolBufferFreelistAdd (l := []) hsizes hblocks nofun hempty).mono
    fun _ _ _ => trivial

theorem yields_ciaPoolDestroy (h : LifeInv params s) (hdestroyed : s.destroyed = false)
    (hintact : Intact s .destroy)
    (hfree : Yields (ciaAllocatorFreeSize s.run.pool.allocator s.run.pool.first
      s.run.pool.bufferSize) s.run.machine fun _ _ => True) :
    Yields (ciaPoolDestroy 2 s.run.pool) s.run.machine fun _ _ => True := by
  obtain ⟨hbuffers, -, hheader⟩ := hintact
  obtain ⟨d, hrep⟩ := h.represents hdestroyed
  have hfirst := (hrep.blocks.placed s.run.pool.first (by simp [hbuffers])).ne_null
  obtain ⟨_, t, hcall, -⟩ := hfree
  have hround : Yields (poolReleaseRound s.run.pool s.run.pool.first) s.run.machine
      fun r u => r = .inl 0 ∧ u = t.record (.load s.run.pool.first 8) := by
    rw [poolReleaseRound, if_pos hfirst, Yields, bind_of_ok hcall, loadWord_bind, hheader t hcall]
    exact ⟨_, _, rfl, rfl, rfl⟩
  refine hround.loop_next fun u _ => ?_
  exact ((yields_poolReleaseRound_null u).mono fun r t hr => ⟨hr.1, trivial⟩).loop_end

/-! ### Main result -/

theorem smallPool_life : Yields (ciaPoolCreate smallPool.allocator 24 8 8) ⟨fun _ => 0, []⟩
    fun pool t => returns (ciaPoolAlloc pool) t (fun r u =>
      pool.freelistHead != 0 && r.1 == 4104 && r.2.first == 4096 && load64 u.mem 4096 == 0 &&
        returns (ciaPoolFreeAll 1 r.2) u fun pool' v =>
          pool'.first == 4096 && load64 v.mem 4096 == 0 &&
            returns (ciaPoolDestroy 2 pool') v fun _ _ => true) = true :=
  yields_of_returns (by decide +kernel)

theorem smallPool_unlogged : smallPool.allocator.Unlogged := fun _ _ _ _ _ _ _ => rfl

/-- The allocator of the small pool leaves the memory alone. -/
theorem smallPool_release_mem {p n : Word}
    (h : ciaAllocatorFreeSize smallPool.allocator p n m = .ok () u) : u.mem = m.mem := by
  obtain ⟨_, hu⟩ := eq_of_ok h
  rw [hu]
  rfl

/-- An allocator with two blocks. -/
def twoBlocks : Exec Call Word := fun s =>
  .ok (if s.log.isEmpty then 4096 else 8192) s

theorem twoBlocks_second (h : m.log.isEmpty = false) : twoBlocks m = .ok 8192 m := by
  rw [twoBlocks, h]
  rfl

/-- A pool with one bucket a buffer. -/
def leakyPool : PoolParams :=
  { smallPool with
    allocator := ⟨0, fun _ _ _ _ _ _ => twoBlocks⟩
    bufferSize := 16
    bucket_fits := by decide }

theorem leakyPool_supplies : Supplies leakyPool ⟨fun _ => 0, []⟩ [] 4096
    ⟨fun _ => 0, [.call (.allocator 1 0 0 16 8 4096)]⟩ where
  answer := rfl
  placed := ⟨by decide, by decide⟩
  aligned := by decide
  disjoint := nofun
  frame := nofun

theorem leakyPool_supplies_second (h : m.log.isEmpty = false) :
    Supplies leakyPool m [4096] 8192 (m.record (.call (.allocator 1 0 0 16 8 8192))) where
  answer := bind_of_ok (twoBlocks_second h)
  placed := ⟨by decide, by decide⟩
  aligned := by decide
  disjoint b hb := by
    rw [List.mem_singleton.mp hb, disjoint_region_iff] <;> decide
  frame _ _ _ _ := rfl

theorem leakyPool_life : Yields (ciaPoolCreate leakyPool.allocator 16 8 8) ⟨fun _ => 0, []⟩
    fun pool t => returns (ciaPoolAlloc pool) t (fun r u =>
      pool.freelistHead != 0 && r.1 == 4104 && r.2.freelistHead == 0 && !u.log.isEmpty &&
        returns (ciaPoolAlloc r.2) u fun r' v =>
          r'.1 == 8200 && r'.2.first == 4096 && load64 v.mem 4096 == 0 &&
            returns (ciaPoolFreeAll 1 r'.2) v fun _ _ => true) = true :=
  yields_of_returns (by decide +kernel)

/-- The second of two allocations grows the pool, which can then be reset. -/
theorem leakyPool_grows : ∃ s₀ s₁ s₂, (poolService leakyPool).init s₀ ∧ s₀.buffers = [4096] ∧
    PoolStep leakyPool s₀ (.alloc 4104 []) s₁ ∧ PoolStep leakyPool s₁ (.alloc 8200 [8192]) s₂ ∧
    load64 s₂.machine.mem s₂.pool.first = 0 ∧
    ∃ pool t, ciaPoolFreeAll 1 s₂.pool s₂.machine = .ok pool t := by
  obtain ⟨pool, t, hcreate, hlife⟩ := leakyPool_life
  obtain ⟨⟨p, pool₁⟩, u, halloc, hlife⟩ := yields_of_returns hlife
  simp only [Bool.and_eq_true, beq_iff_eq, bne_iff_ne, Bool.not_eq_true'] at hlife
  obtain ⟨⟨⟨⟨hhead, rfl⟩, hhead₁⟩, hlog⟩, hlife⟩ := hlife
  obtain ⟨⟨q, pool₂⟩, v, hgrow, hlife⟩ := yields_of_returns hlife
  simp only [Bool.and_eq_true, beq_iff_eq] at hlife
  obtain ⟨⟨⟨rfl, hfirst⟩, hheader⟩, hlife⟩ := hlife
  obtain ⟨pool₃, w, hfreeAll, -⟩ := yields_of_returns hlife
  have hgrows : Obtains leakyPool ⟨pool₁, u, [4096], [4104]⟩ [8192] :=
    .grow hhead₁ (leakyPool_supplies_second hlog)
  have hzero : load64 v.mem pool₂.first = 0 := (congrArg (load64 v.mem) hfirst).trans hheader
  exact ⟨⟨pool, t, [4096], []⟩, _, _, ⟨_, _, _, leakyPool_supplies, hcreate, rfl, rfl⟩, rfl,
    .alloc (.none hhead) halloc, .alloc hgrows hgrow, hzero, pool₃, w, hfreeAll⟩

end Ciabatta.CiaMem
