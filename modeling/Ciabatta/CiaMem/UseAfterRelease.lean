import Ciabatta.CiaMem.PoolRelease
import Ciabatta.Lib.Footprint

/-!
The order of reads and releases in `cia_pool_free_all` and `cia_pool_destroy`. The link
to the next buffer is read from a buffer after that was released, in every round of
their loops, so only a call that releases nothing is safe.
-/

namespace Ciabatta.CiaMem

open ByteMemory Exec

/-- The bytes that an event gives back to the allocator. -/
def freedBytes : Event Call → Set Word
  | .call (.allocator optype oldPtr oldSize _ _ _) =>
      if optype = ciaMemOpFree then region oldPtr oldSize.toNat else ∅
  | _ => ∅

/-- From `m` to `t` no byte was read or written after it was released. -/
def NoUseAfterRelease (m t : Machine Call) : Prop :=
  (t.log.drop m.log.length).Pairwise fun e e' => Disjoint e'.footprint (freedBytes e)

/-- The states of a pool after any history of calls, returning ones, with whatever
happens to the memory in between. -/
inductive PoolHistory (allocator : CiaAllocator (Machine Call)) (bufferSize : Word) :
    CiaPool → Machine Call → Prop
  | create {elementSize alignment : Word} {pool : CiaPool} {m t : Machine Call}
      (h : ciaPoolCreate allocator bufferSize elementSize alignment m = .ok pool t)
      (hfirst : pool.first ≠ 0) : PoolHistory allocator bufferSize pool t
  | alloc {pool pool' : CiaPool} {m t : Machine Call} {p : Word}
      (h : PoolHistory allocator bufferSize pool m)
      (hcall : ciaPoolAlloc pool m = .ok (p, pool') t) : PoolHistory allocator bufferSize pool' t
  | free {pool pool' : CiaPool} {m t : Machine Call} {p : Word}
      (h : PoolHistory allocator bufferSize pool m)
      (hcall : ciaPoolFree pool p m = .ok pool' t) : PoolHistory allocator bufferSize pool' t
  | freeAll {pool pool' : CiaPool} {m t : Machine Call} {fuel : ℕ}
      (h : PoolHistory allocator bufferSize pool m)
      (hcall : ciaPoolFreeAll fuel pool m = .ok pool' t) : PoolHistory allocator bufferSize pool' t
  | write {pool : CiaPool} {m : Machine Call} (t : Machine Call)
      (h : PoolHistory allocator bufferSize pool m) : PoolHistory allocator bufferSize pool t

variable {allocator : CiaAllocator (Machine Call)} {bufferSize : Word} {pool pool' : CiaPool}
  {base : Word} {m t u : Machine Call} {fuel : ℕ}

/-! ### What stays the same over a history -/

/-- The head of the free list is all that has changed. -/
def OnlyHead (pool pool' : CiaPool) : Prop :=
  ∃ head, pool' = { pool with freelistHead := head }

theorem onlyHead_of_freelistAdd (h : poolBufferFreelistAdd pool base m = .ok pool' t) :
    OnlyHead pool pool' := by
  obtain ⟨q, v, -, hrest⟩ := exists_of_bind_ok h
  obtain ⟨head, w, -, hend⟩ := exists_of_bind_ok hrest
  exact ⟨head, (eq_of_pure_ok hend).1⟩

theorem onlyHead_of_alloc {p : Word} (h : ciaPoolAlloc pool m = .ok (p, pool') t) :
    OnlyHead pool pool' := by
  obtain ⟨pool₁, v, hgrow, hrest⟩ := exists_of_bind_ok h
  obtain ⟨next, w, -, hend⟩ := exists_of_bind_ok hrest
  have hpool' : pool' = { pool₁ with freelistHead := next } :=
    congrArg Prod.snd (eq_of_pure_ok hend).1
  have hpool₁ : OnlyHead pool pool₁ := by
    split at hgrow
    · obtain ⟨base, x, -, hadd⟩ := exists_of_bind_ok hgrow
      exact onlyHead_of_freelistAdd hadd
    · exact ⟨pool.freelistHead, (eq_of_pure_ok hgrow).1⟩
  obtain ⟨head, rfl⟩ := hpool₁
  exact ⟨next, hpool'⟩

theorem onlyHead_of_free {p : Word} (h : ciaPoolFree pool p m = .ok pool' t) :
    OnlyHead pool pool' := by
  obtain ⟨_, v, -, hend⟩ := exists_of_bind_ok h
  exact ⟨p, (eq_of_pure_ok hend).1⟩

theorem onlyHead_of_freeAll (h : ciaPoolFreeAll fuel pool m = .ok pool' t) :
    OnlyHead pool pool' := by
  rw [ciaPoolFreeAll, loadWord_bind] at h
  obtain ⟨_, v, -, hadd⟩ := exists_of_bind_ok h
  obtain ⟨head, rfl⟩ := onlyHead_of_freelistAdd hadd
  exact ⟨head, rfl⟩

/-- A pool of any history has its first buffer and the arguments of its creation. -/
theorem PoolHistory.frame (h : PoolHistory allocator bufferSize pool m) :
    pool.allocator = allocator ∧ pool.bufferSize = bufferSize ∧ pool.first ≠ 0 := by
  induction h with
  | create hcreate hfirst =>
      obtain ⟨first, v, -, hadd⟩ := exists_of_bind_ok hcreate
      obtain ⟨head, rfl⟩ := onlyHead_of_freelistAdd hadd
      exact ⟨rfl, rfl, hfirst⟩
  | alloc _ hcall ih =>
      obtain ⟨head, rfl⟩ := onlyHead_of_alloc hcall
      exact ih
  | free _ hcall ih =>
      obtain ⟨head, rfl⟩ := onlyHead_of_free hcall
      exact ih
  | freeAll _ hcall ih =>
      obtain ⟨head, rfl⟩ := onlyHead_of_freeAll hcall
      exact ih
  | write _ _ ih => exact ih

/-! ### Calls that release nothing -/

theorem noUseAfterRelease_of_since (h : Since (fun e => freedBytes e = ∅) m t) :
    NoUseAfterRelease m t := by
  have hafter := h.after
  refine List.Pairwise.imp_of_mem (fun he _ _ => ?_)
    (List.pairwise_of_forall (R := fun _ _ => True) fun _ _ => trivial)
  rw [hafter _ he]
  exact Set.disjoint_empty _

theorem lenient_freedBytes : Lenient fun e => freedBytes e = ∅ := by
  intro e he
  cases e with
  | load => rfl
  | store => rfl
  | call c => exact absurd rfl (he c)

theorem freedBytes_free (p result : Word) :
    freedBytes (.call (.allocator ciaMemOpFree p bufferSize 0 1 result))
      = region p bufferSize.toNat := by
  rw [freedBytes, if_pos rfl]

/-- With a header of zeros, `cia_pool_free_all` only reads it and cuts the first buffer. -/
theorem noUseAfterRelease_freeAll (hheader : load64 m.mem pool.first = 0) (fuel : ℕ) :
    NoUseAfterRelease m (final (ciaPoolFreeAll fuel pool m)) := by
  apply noUseAfterRelease_of_since
  have hload : Since (fun e => freedBytes e = ∅) m (m.record (.load pool.first 8)) :=
    (since_refl m).snoc (e := .load pool.first 8) rfl rfl
  rw [ciaPoolFreeAll, loadWord_bind, hheader]
  cases fuel with
  | zero => exact hload
  | succ fuel =>
      have hloop : loop (poolReleaseRound pool) (fuel + 1) 0 (m.record (.load pool.first 8))
          = .ok () (m.record (.load pool.first 8)) := rfl
      rw [bind_of_ok hloop]
      exact (reflects_poolBufferFreelistAdd
        ((logReflects_not_since _ m).access lenient_freedBytes) _ _).keeps hload

/-- Buffers of no bytes have none to be used. -/
theorem noUseAfterRelease_of_empty (hquiet : pool.allocator.Unlogged) (hsize : pool.bufferSize = 0)
    (fuel : ℕ) : NoUseAfterRelease m (final (ciaPoolFreeAll fuel pool m)) ∧
      NoUseAfterRelease m (final (ciaPoolDestroy fuel pool m)) := by
  have hlogs := logReflects_not_since (fun e => freedBytes e = ∅) m
  have haccess := hlogs.access lenient_freedBytes
  have hround := reflects_poolReleaseRound hlogs hquiet lenient_freedBytes fun p result => by
    rw [hsize, freedBytes_free]
    exact region_zero p
  have hfreeAll : Reflects (fun t => ¬ Since (fun e => freedBytes e = ∅) m t)
      (ciaPoolFreeAll fuel pool) :=
    (haccess.loadWord _).bind fun next => (reflects_loop hround fuel next).bind fun _ =>
      reflects_poolBufferFreelistAdd haccess _ _
  exact ⟨noUseAfterRelease_of_since (hfreeAll.keeps (since_refl m)),
    noUseAfterRelease_of_since ((reflects_loop hround fuel _).keeps (since_refl m))⟩

/-! ### Calls that release a buffer -/

/-- A round releases a buffer and then reads it. -/
theorem poolReleaseRound_reads (hquiet : pool.allocator.Unlogged)
    (hreleases : ∃ t, ciaAllocatorFreeSize pool.allocator base pool.bufferSize m = .ok () t)
    (hbase : base ≠ 0) : ∃ next t result, poolReleaseRound pool base m = .ok (.inl next) t ∧
      t.log = m.log ++ [.call (.allocator ciaMemOpFree base pool.bufferSize 0 1 result)]
        ++ [.load base 8] := by
  obtain ⟨u, hfree⟩ := hreleases
  obtain ⟨result, hlog⟩ := log_ciaAllocatorFreeSize hquiet hfree
  refine ⟨load64 u.mem base, u.record (.load base 8), result, ?_, ?_⟩
  · rw [poolReleaseRound, if_pos hbase, bind_of_ok hfree]
    rfl
  · rw [← hlog]
    rfl

/-- The rest of the run only adds to the log. -/
theorem extends_releaseLoop {α : Type} {f : Unit → Exec Call α} {log : List (Event Call)}
    (hquiet : pool.allocator.Unlogged) (hf : ∀ r, Reflects (Extends log) (f r)) (fuel : ℕ)
    (next : Word) (hlog : log = (final ((loop (poolReleaseRound pool) fuel next >>= f) m)).log) :
    Extends log m := by
  have hround := reflects_poolReleaseRound (logReflects_extends log) hquiet (fun _ _ => trivial)
    fun _ _ => trivial
  exact (reflects_loop hround fuel next).bind hf m ⟨[], by rw [hlog, List.append_nil]⟩

theorem not_noUseAfterRelease {es : List (Event Call)} (base result : Word)
    (hsize : bufferSize ≠ 0) (hm : t.log = m.log ++ es)
    (hlog : Extends u.log
      ((t.record (.call (.allocator ciaMemOpFree base bufferSize 0 1 result))).record
        (.load base 8))) : ¬ NoUseAfterRelease m u := by
  intro h
  obtain ⟨es', hes'⟩ := hlog
  have hu : u.log = m.log ++ (es ++ ([.call (.allocator ciaMemOpFree base bufferSize 0 1 result),
      .load base 8] ++ es')) := by
    rw [hes', Machine.record, Machine.record]
    simp [hm]
  rw [NoUseAfterRelease, hu, List.drop_left, List.pairwise_append, List.pairwise_append,
    List.pairwise_pair, freedBytes_free] at h
  have hdisj := h.2.1.1
  exact Set.disjoint_left.mp hdisj (self_mem_region (by decide))
    (self_mem_region (toNat_pos hsize))

/-- In the first round of a release loop a buffer is read after its release. -/
theorem not_noUseAfterRelease_loop {α : Type} {f : Unit → Exec Call α}
    {es : List (Event Call)} (hquiet : pool.allocator.Unlogged)
    (hf : ∀ log r, Reflects (Extends log) (f r))
    (hreleases : ∃ u, ciaAllocatorFreeSize pool.allocator base pool.bufferSize t = .ok () u)
    (hbase : base ≠ 0) (hsize : pool.bufferSize ≠ 0) (hm : t.log = m.log ++ es) (fuel : ℕ) :
    ¬ NoUseAfterRelease m (final ((loop (poolReleaseRound pool) (fuel + 1) base >>= f) t)) := by
  obtain ⟨next, u, result, hround, hlog⟩ := poolReleaseRound_reads hquiet hreleases hbase
  have hrest : (loop (poolReleaseRound pool) (fuel + 1) base >>= f) t
      = (loop (poolReleaseRound pool) fuel next >>= f) u := by
    rw [loop, bind_assoc, bind_of_ok hround]
  have hextends := extends_releaseLoop hquiet (hf _) fuel next
    (congrArg (fun r => (final r).log) hrest)
  refine not_noUseAfterRelease base result hsize hm ?_
  obtain ⟨es', hes'⟩ := hextends
  exact ⟨es', by rw [hes', hlog]; rfl⟩

theorem ciaPoolDestroy_eq (fuel : ℕ) (pool : CiaPool) :
    ciaPoolDestroy fuel pool = loop (poolReleaseRound pool) fuel pool.first >>= pure :=
  (bind_pure _).symm

/-! ### Main result -/

/-- Whatever the history of the pool, `cia_pool_free_all` reads and writes no released
buffer exactly if the header of the first buffer holds zeros, and `cia_pool_destroy`
always reads one; buffers of no bytes apart. -/
theorem pool_noUseAfterRelease_iff (hquiet : allocator.Unlogged)
    (hreleases : ∀ p m, ∃ t, ciaAllocatorFreeSize allocator p bufferSize m = .ok () t)
    (h : PoolHistory allocator bufferSize pool m) (fuel : ℕ) :
    (NoUseAfterRelease m (final (ciaPoolFreeAll (fuel + 1) pool m)) ↔
      load64 m.mem pool.first = 0 ∨ bufferSize = 0) ∧
    (NoUseAfterRelease m (final (ciaPoolDestroy (fuel + 1) pool m)) ↔ bufferSize = 0) := by
  obtain ⟨rfl, rfl, hfirst⟩ := h.frame
  constructor
  · constructor
    · intro hclean
      by_contra hnot
      rw [not_or] at hnot
      have hadd : ∀ log (r : Unit), Reflects (Extends log)
          (poolBufferFreelistAdd { pool with freelistHead := 0 } pool.first) := fun log _ =>
        reflects_poolBufferFreelistAdd ((logReflects_extends log).access fun _ _ => trivial) _ _
      rw [ciaPoolFreeAll, loadWord_bind] at hclean
      exact not_noUseAfterRelease_loop hquiet hadd (hreleases _ _) hnot.1 hnot.2
        (t := m.record (.load pool.first 8)) rfl fuel hclean
    · rintro (hheader | hsize)
      · exact noUseAfterRelease_freeAll hheader _
      · exact (noUseAfterRelease_of_empty hquiet hsize _).1
  · constructor
    · intro hclean
      by_contra hsize
      rw [ciaPoolDestroy_eq] at hclean
      exact not_noUseAfterRelease_loop hquiet (fun log => reflects_pure) (hreleases _ _) hfirst
        hsize (List.append_nil _).symm fuel hclean
    · intro hsize
      exact (noUseAfterRelease_of_empty hquiet hsize _).2

/-- The history of `smallPool` up to its first allocation. -/
theorem smallPool_history : ∃ pool m, PoolHistory smallPool.allocator 24 pool m ∧
    load64 m.mem pool.first = 0 := by
  obtain ⟨pool, t, hcreate, hlife⟩ := smallPool_life
  obtain ⟨⟨p, pool₁⟩, u, halloc, hlife⟩ := yields_of_returns hlife
  simp only [Bool.and_eq_true, beq_iff_eq] at hlife
  obtain ⟨⟨⟨⟨-, -⟩, hfirst⟩, hheader⟩, -⟩ := hlife
  obtain ⟨head, hsame⟩ := onlyHead_of_alloc halloc
  have hne : pool.first ≠ 0 := by
    rw [hsame] at hfirst
    exact hfirst ▸ (by decide)
  exact ⟨pool₁, u, .alloc (.create hcreate hne) halloc, hfirst ▸ hheader⟩

theorem smallPool_releases (p : Word) (m : Machine Call) :
    ∃ t, ciaAllocatorFreeSize smallPool.allocator p 24 m = .ok () t :=
  ⟨_, rfl⟩

theorem pool_noUseAfterRelease_smallPool : ∃ pool m,
    PoolHistory smallPool.allocator 24 pool m ∧
      NoUseAfterRelease m (final (ciaPoolFreeAll 1 pool m)) := by
  obtain ⟨pool, m, h, hheader⟩ := smallPool_history
  exact ⟨pool, m, h, (pool_noUseAfterRelease_iff smallPool_unlogged smallPool_releases h 0).1.mpr
    (.inl hheader)⟩

/-- Destroying the pool reads its only buffer after the release. -/
theorem pool_noUseAfterRelease_fails : ∃ pool m,
    PoolHistory smallPool.allocator 24 pool m ∧
      ¬ NoUseAfterRelease m (final (ciaPoolDestroy 1 pool m)) := by
  obtain ⟨pool, m, h, -⟩ := smallPool_history
  obtain ⟨hallocator, hsize, hfirst⟩ := h.frame
  refine ⟨pool, m, h, fun hclean => ?_⟩
  rw [ciaPoolDestroy_eq] at hclean
  refine not_noUseAfterRelease_loop (hallocator ▸ smallPool_unlogged) (fun log => reflects_pure) ?_
    hfirst (hsize ▸ by decide) (List.append_nil _).symm 0 hclean
  rw [hallocator, hsize]
  exact smallPool_releases _ _

end Ciabatta.CiaMem
