import Ciabatta.CiaMem.PoolBuckets
import Ciabatta.Lib.Footprint

/-!
Cutting a buffer whose sizes nobody has checked. If the header and one bucket fit, all
links come to lie behind the header and inside the buffer. Otherwise the first round
of the loop, which has no test in front of it, links a bucket that is not there.
-/

namespace Ciabatta.CiaMem

open ByteMemory Exec Layout

/-- The sizes that `cia_pool_create` sets for its arguments. -/
structure Sized (bufferSize elementSize alignment : Word) (pool : CiaPool) : Prop where
  bufferSize : pool.bufferSize = bufferSize
  bucketSize : pool.bucketSize = poolBucketSize elementSize alignment
  alignment : pool.alignment = alignment

/-- The header and one bucket, both rounded up to the alignment, fit into a buffer. -/
def BucketFits (bufferSize elementSize alignment : Word) : Prop :=
  alignUp 8 alignment.toNat + alignUp (max 8 elementSize.toNat) alignment.toNat
    ≤ bufferSize.toNat

/-- The bytes of a buffer behind the header. -/
def afterHeader (bufferSize alignment base : Word) : Set Word :=
  region (base + ciaSizeAlignf sizeofCiaPoolBufferHeader alignment)
    (bufferSize.toNat - (ciaSizeAlignf sizeofCiaPoolBufferHeader alignment).toNat)

/-- From `s` to `t` words were written behind the header of the buffer only. -/
def WritesBuckets (bufferSize alignment base : Word) (s t : Machine Call) : Prop :=
  Since (fun e => e.written ⊆ afterHeader bufferSize alignment base) s t

/-- `_pool_buffer_freelist_add` divides by a number, comes to an end and stays in the
buffer, and where not even one bucket fits it adds none. -/
def Carves (bufferSize elementSize alignment : Word) (pool : CiaPool) (base : Word)
    (s : Machine Call) : Prop :=
  Yields (poolBufferFreelistAdd pool base) s fun pool' t =>
    WritesBuckets bufferSize alignment base s t ∧
      (¬ BucketFits bufferSize elementSize alignment → pool'.freelistHead = pool.freelistHead)

variable {bufferSize elementSize alignment : Word} {pool : CiaPool} {base header : Word}
  {s t u : Machine Call} {k n : ℕ}

theorem eight_le_poolBucketSize (hpow : alignment.toNat = 2 ^ k)
    (hne : poolBucketSize elementSize alignment ≠ 0) :
    8 ≤ (poolBucketSize elementSize alignment).toNat ∧
      (poolBucketSize elementSize alignment).toNat
        = alignUp (max 8 elementSize.toNat) alignment.toNat := by
  have hpos : 0 < alignment.toNat := by
    rw [hpow]
    positivity
  have hbucket := toNat_poolBucketSize elementSize hpow
  have hge : max 8 elementSize.toNat ≤ alignUp (max 8 elementSize.toNat) alignment.toNat :=
    le_alignUp hpos
  have hle : alignUp (max 8 elementSize.toNat) alignment.toNat ≤ 2 ^ 64 :=
    alignUp_le hpos (max_le (by decide) elementSize.isLt.le) (two_pow_dvd hpow)
  have hbucketPos := toNat_pos hne
  have hmax : 8 ≤ max 8 elementSize.toNat := le_max_left _ _
  omega

theorem bucketFits_iff (hpow : alignment.toNat = 2 ^ k) :
    BucketFits bufferSize elementSize alignment ↔
      poolBucketSize elementSize alignment ≠ 0 ∧
        (ciaSizeAlignf sizeofCiaPoolBufferHeader alignment).toNat
          + (poolBucketSize elementSize alignment).toNat ≤ bufferSize.toNat := by
  rw [BucketFits, toNat_headerSize hpow]
  constructor
  · intro hfits
    have hlt := bufferSize.isLt
    have hround : alignUp (max 8 elementSize.toNat) alignment.toNat < 2 ^ 64 := by omega
    have hbucket := toNat_poolBucketSize elementSize hpow
    rw [Nat.mod_eq_of_lt hround] at hbucket
    refine ⟨?_, by rw [hbucket]; exact hfits⟩
    intro hzero
    rw [hzero, show (0 : Word).toNat = 0 from rfl] at hbucket
    have hmax : 8 ≤ max 8 elementSize.toNat := le_max_left _ _
    have hge : max 8 elementSize.toNat ≤ alignUp (max 8 elementSize.toNat) alignment.toNat :=
      le_alignUp (by rw [hpow]; positivity)
    omega
  · rintro ⟨hne, hfits⟩
    rw [← (eight_le_poolBucketSize hpow hne).2]
    exact hfits

/-! ### Where a bucket fits -/

/-- A round of the loop links the bucket below the offset. -/
theorem poolCarveBucket_writes {b : Word × Word} {count : ℕ}
    (hwidth : 8 ≤ pool.bucketSize.toNat) (hk : k < count)
    (hfits : header.toNat + count * pool.bucketSize.toNat ≤ n) (hn : n < 2 ^ 64)
    (hoffset : b.1.toNat = header.toNat + (k + 1) * pool.bucketSize.toNat) :
    Yields (poolCarveBucket pool base header b) s fun r t =>
      Since (fun e => e.written ⊆ region (base + header) (n - header.toNat)) s t ∧
        match r with
        | .inl b' => 0 < k ∧ b'.1.toNat = header.toNat + k * pool.bucketSize.toNat
        | .inr _ => True := by
  obtain ⟨offset, next⟩ := b
  dsimp only at hoffset
  have hle : (k + 1) * pool.bucketSize.toNat ≤ count * pool.bucketSize.toNat :=
    Nat.mul_le_mul_right _ hk
  rw [Nat.succ_mul] at hle
  have hnext := toNat_bucketOffset_sub hoffset
  have hplace : base + (offset - pool.bucketSize)
      = base + header + BitVec.ofNat 64 (k * pool.bucketSize.toNat) := by
    rw [add_assoc]
    congr 1
    apply BitVec.eq_of_toNat_eq
    rw [hnext, BitVec.toNat_add, BitVec.toNat_ofNat]
    omega
  have hinside : region (base + (offset - pool.bucketSize)) 8
      ⊆ region (base + header) (n - header.toNat) := by
    rw [hplace]
    exact region_add_subset (by omega) (by omega)
  refine Yields.bind (R := fun _ t =>
    Since (fun e => e.written ⊆ region (base + header) (n - header.toNat)) s t)
    (yields_storeWord ((since_refl s).snoc (e := .store (base + (offset - pool.bucketSize)) 8)
      hinside rfl)) ?_
  intro _ t hsince
  by_cases hgo : offset - pool.bucketSize > header
  · refine .ite_pos hgo (yields_pure ⟨hsince, ?_, hnext⟩)
    rw [gt_iff_lt, BitVec.lt_def, hnext] at hgo
    exact Nat.pos_of_ne_zero fun hzero => by simp [hzero] at hgo
  · exact .ite_neg hgo (yields_pure ⟨hsince, trivial⟩)

theorem writesBuckets_of_fits (hsized : Sized bufferSize elementSize alignment pool)
    (hpow : alignment.toNat = 2 ^ k) (hfits : BucketFits bufferSize elementSize alignment) :
    Yields (poolBufferFreelistAdd pool base) s fun _ t =>
      WritesBuckets bufferSize alignment base s t := by
  obtain ⟨hne, hbucket⟩ := (bucketFits_iff hpow).mp hfits
  have hwidth := (eight_le_poolBucketSize hpow hne).1
  rw [← hsized.bucketSize] at hne hbucket hwidth
  rw [poolBufferFreelistAdd, hsized.bufferSize, hsized.alignment]
  simp only [WritesBuckets, afterHeader]
  set header := ciaSizeAlignf sizeofCiaPoolBufferHeader alignment
  have hlt := bufferSize.isLt
  -- how many buckets there are, and where the last one ends
  have hend := Nat.div_mul_le_self (bufferSize.toNat - header.toNat) pool.bucketSize.toNat
  have hpos : 0 < (bufferSize.toNat - header.toNat) / pool.bucketSize.toNat :=
    Nat.div_pos (by omega) (by omega)
  refine Yields.bind (yields_divide hne (Q := fun q v =>
    q = (bufferSize - header) / pool.bucketSize ∧ s = v) ⟨rfl, rfl⟩) ?_
  rintro _ _ ⟨rfl, rfl⟩
  refine Yields.bind (R := fun _ v =>
    Since (fun e => e.written ⊆ region (base + header) (bufferSize.toNat - header.toNat)) s v)
    ?_ fun _ _ hsince => yields_pure hsince
  refine yields_loop
    (fun b v => (∃ i < (bufferSize.toNat - header.toNat) / pool.bucketSize.toNat,
      b.1.toNat = header.toNat + (i + 1) * pool.bucketSize.toNat) ∧
      Since (fun e => e.written ⊆ region (base + header) (bufferSize.toNat - header.toNat)) s v)
    (fun b => b.1.toNat) ?_ ⟨⟨_, Nat.sub_lt hpos Nat.one_pos, ?_⟩, since_refl s⟩
    (BitVec.isLt _)
  · rintro b v ⟨⟨i, hi, hoffset⟩, hsince⟩
    refine (poolCarveBucket_writes hwidth hi (by omega) hlt hoffset).mono fun r w hr => ?_
    obtain ⟨hround, hr⟩ := hr
    cases r with
    | inl b' =>
        obtain ⟨hipos, hb'⟩ := hr
        rw [Nat.succ_mul] at hoffset
        refine ⟨⟨⟨i - 1, by omega, ?_⟩, hsince.trans hround⟩, by omega⟩
        rw [Nat.sub_add_cancel hipos]
        exact hb'
    | inr head => exact hsince.trans hround
  · rw [Nat.sub_add_cancel hpos]
    exact toNat_bucketOffset _ (by omega)

/-! ### Where none fits -/

/-- An offset behind the header and in front of the end. -/
theorem offset_mem {o : Word} (hn : n < 2 ^ 64)
    (h : region (base + o) 8 ⊆ region (base + header) (n - header.toNat)) :
    header.toNat ≤ o.toNat ∧ o.toNat < n := by
  have hmem := h (self_mem_region (by decide))
  have hsub : base + o - (base + header) = o - header := add_sub_add_left_eq_sub o header base
  rw [mem_region, hsub, BitVec.toNat_sub] at hmem
  have hlt := o.isLt
  omega

/-- A link inside the buffer that is not right behind the header. The loop does not end
with it, and the next one is not right behind the header either. -/
theorem done_poolCarveBucket_misfit {b : Word × Word} {size : ℕ} (hsize : size < 2 ^ 64)
    (hne : pool.bucketSize ≠ 0) (hmisfit : size < header.toNat + pool.bucketSize.toNat)
    (hb : header.toNat ≤ size → b.1 ≠ header + pool.bucketSize) (hn : n ≤ s.log.length) :
    Done (After (fun e => e.written ⊆ region (base + header) (size - header.toNat)) n)
      (poolCarveBucket pool base header b) s fun r t => n ≤ t.log.length ∧
        match r with
        | .inl b' => b'.1 ≠ header + pool.bucketSize
        | .inr _ => False := by
  obtain ⟨offset, next⟩ := b
  refine Done.bind (R := fun _ t => n ≤ t.log.length ∧
    header.toNat ≤ (offset - pool.bucketSize).toNat ∧ (offset - pool.bucketSize).toNat < size)
    ?_ (fun _ => (reflects_pure _).ite (reflects_pure _)) ?_
  · intro _ t hstore hafter
    obtain ⟨-, rfl⟩ := eq_of_ok hstore
    have hinside : region (base + (offset - pool.bucketSize)) 8
        ⊆ region (base + header) (size - header.toNat) :=
      hafter.of_snoc (e := .store (base + (offset - pool.bucketSize)) 8) rfl hn
    refine ⟨?_, offset_mem hsize hinside⟩
    change n ≤ (s.log ++ [_]).length
    rw [List.length_append]
    exact Nat.le_add_right_of_le hn
  · rintro _ t ⟨hlog, hlow, hhigh⟩
    have hgo : offset - pool.bucketSize > header := by
      rw [gt_iff_lt, BitVec.lt_def]
      refine lt_of_le_of_ne hlow fun heq => hb (hlow.trans hhigh.le) ?_
      rw [BitVec.eq_of_toNat_eq heq, sub_add_cancel]
    refine .ite (fun _ => done_pure ⟨hlog, ?_⟩) fun hstop => absurd hgo hstop
    -- a bucket above the header would end behind the buffer
    intro heq
    have hnat := congrArg BitVec.toNat heq
    have hpos := toNat_pos hne
    rw [BitVec.toNat_add] at hnat
    dsimp only at hnat
    omega

theorem bucketFits_of_writesBuckets (hsized : Sized bufferSize elementSize alignment pool)
    (hpow : alignment.toNat = 2 ^ k)
    (h : Yields (poolBufferFreelistAdd pool base) s fun _ t =>
      WritesBuckets bufferSize alignment base s t) :
    BucketFits bufferSize elementSize alignment := by
  obtain ⟨pool', t, hrun, hwrites⟩ := h
  rw [poolBufferFreelistAdd, hsized.bufferSize, hsized.alignment] at hrun
  obtain ⟨q, v, hdivide, hrest⟩ := exists_of_bind_ok hrun
  obtain ⟨hne, rfl, rfl⟩ := of_divide_ok hdivide
  obtain ⟨head, w, hloop, hend⟩ := exists_of_bind_ok hrest
  obtain ⟨-, rfl⟩ := eq_of_pure_ok hend
  rw [bucketFits_iff hpow, ← hsized.bucketSize]
  refine ⟨hne, ?_⟩
  by_contra hmisfit
  have hmisfit' := Nat.lt_of_not_le hmisfit
  set header := ciaSizeAlignf sizeofCiaPoolBufferHeader alignment
  have hafter : After (fun e => e.written ⊆ region (base + header)
      (bufferSize.toNat - header.toNat)) v.log.length t := hwrites.after
  have hreflects := accessReflects_after (κ := Call) (fun e => e.written ⊆ region (base + header)
    (bufferSize.toNat - header.toNat)) v.log.length
  refine Done.of_eq (done_loop (Q := fun _ _ => False)
    (fun b x => v.log.length ≤ x.log.length ∧
      (header.toNat ≤ bufferSize.toNat → b.1 ≠ header + pool.bucketSize))
    (reflects_poolCarveBucket hreflects _ _ _) ?_ ⟨le_rfl, ?_⟩) hloop hafter
  · rintro b x ⟨hlog, hb⟩
    refine (done_poolCarveBucket_misfit bufferSize.isLt hne hmisfit' hb hlog).mono ?_
    rintro r y ⟨hylog, hr⟩
    cases r with
    | inl b' => exact ⟨hylog, fun _ => hr⟩
    | inr a => exact hr
  · -- where the header fits, the division leaves nothing and the loop starts at the header
    intro hheader heq
    have hcount : ((bufferSize - header) / pool.bucketSize).toNat = 0 := by
      rw [BitVec.toNat_udiv, BitVec.toNat_sub]
      have hlt := bufferSize.isLt
      exact Nat.div_eq_of_lt (by omega)
    rw [BitVec.eq_of_toNat_eq (y := 0) hcount, zero_mul, add_zero] at heq
    exact hne (left_eq_add.mp heq)

/-! ### Main result -/

theorem carves_iff (hsized : Sized bufferSize elementSize alignment pool)
    (hpow : ∃ k, alignment.toNat = 2 ^ k) :
    Carves bufferSize elementSize alignment pool base s ↔
      BucketFits bufferSize elementSize alignment := by
  obtain ⟨k, hk⟩ := hpow
  constructor
  · intro h
    exact bucketFits_of_writesBuckets hsized hk (h.mono fun _ _ hr => hr.1)
  · intro hfits
    exact (writesBuckets_of_fits hsized hk hfits).mono fun _ _ hr => ⟨hr, fun h => absurd hfits h⟩

/-- The pool that `cia_pool_create` cuts its first buffer for. -/
def createdPool (allocator : CiaAllocator (Machine Call))
    (bufferSize elementSize alignment first : Word) : CiaPool where
  allocator := allocator
  first := first
  freelistHead := 0
  bufferSize := bufferSize
  bucketSize := poolBucketSize elementSize alignment
  alignment := alignment

theorem ciaPoolCreate_of_alloc {allocator : CiaAllocator (Machine Call)}
    (halloc : ciaAllocatorAlloc allocator bufferSize alignment s = .ok base t) :
    ciaPoolCreate allocator bufferSize elementSize alignment s =
      poolBufferFreelistAdd (createdPool allocator bufferSize elementSize alignment base)
        base t :=
  bind_of_ok halloc

/-- Cutting a buffer, the first one or a later one, stays within it exactly if the header
and one bucket fit. -/
theorem pool_carves_iff (hpow : ∃ k, alignment.toNat = 2 ^ k) :
    (∀ allocator base s t, ciaAllocatorAlloc allocator bufferSize alignment s = .ok base t →
      (Yields (ciaPoolCreate allocator bufferSize elementSize alignment) s (fun pool u =>
          WritesBuckets bufferSize alignment base t u ∧
            (¬ BucketFits bufferSize elementSize alignment → pool.freelistHead = 0)) ↔
        BucketFits bufferSize elementSize alignment)) ∧
    ∀ pool base s, Sized bufferSize elementSize alignment pool →
      (Carves bufferSize elementSize alignment pool base s ↔
        BucketFits bufferSize elementSize alignment) := by
  refine ⟨fun allocator base s t halloc => ?_, fun pool base s hsized => carves_iff hsized hpow⟩
  rw [Yields, ciaPoolCreate_of_alloc halloc]
  have hsized : Sized bufferSize elementSize alignment
      (createdPool allocator bufferSize elementSize alignment base) := ⟨rfl, rfl, rfl⟩
  exact carves_iff hsized hpow

/-- An allocator with a block at 4096. -/
def blockAllocator : CiaAllocator (Machine Call) :=
  ⟨0, fun _ _ _ _ _ _ => pure 4096⟩

theorem pool_carves_twoBuckets : Carves 24 8 8 (createdPool blockAllocator 24 8 8 4096) 4096
    ⟨fun _ => 0, []⟩ :=
  ((pool_carves_iff ⟨3, rfl⟩).2 _ _ _ ⟨rfl, rfl, rfl⟩).mpr (by unfold BucketFits; decide)

/-- With room for the header and half a bucket, the first link goes in front of the
buffer. -/
theorem pool_carves_fails : (∃ k, (8 : Word).toNat = 2 ^ k) ∧
    ¬ Carves 16 16 8 (createdPool blockAllocator 16 16 8 4096) 4096 ⟨fun _ => 0, []⟩ := by
  refine ⟨⟨3, rfl⟩, fun h => ?_⟩
  have hfits := bucketFits_of_writesBuckets (k := 3) ⟨rfl, rfl, rfl⟩ rfl
    (h.mono fun _ _ hr => hr.1)
  exact absurd hfits (by unfold BucketFits; decide)

end Ciabatta.CiaMem
