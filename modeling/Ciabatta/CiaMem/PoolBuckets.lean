import Ciabatta.CiaMem.Pool
import Ciabatta.Lib.FreeList
import Ciabatta.Lib.Layout
import Ciabatta.Lib.WholeRun

/-!
What each function of the pool does to the free list: `_pool_buffer_freelist_add`
puts the buckets of a buffer in front of it, `cia_pool_alloc` takes the first one
off and `cia_pool_free` links one in front.
-/

namespace Ciabatta.CiaMem

open ByteMemory Exec FreeList Layout

section Sizes

variable {alignment : Word} {k : ℕ}

theorem toNat_headerSize (hpow : alignment.toNat = 2 ^ k) :
    (ciaSizeAlignf sizeofCiaPoolBufferHeader alignment).toNat = alignUp 8 alignment.toNat := by
  have hlt := alignment.isLt
  have hle : alignment.toNat ≤ 2 ^ 63 := by
    rw [hpow] at hlt ⊢
    exact Nat.pow_le_pow_right (by decide) (Nat.lt_succ_iff.mp
      ((Nat.pow_lt_pow_iff_right (by decide)).mp hlt))
  have hheader : sizeofCiaPoolBufferHeader.toNat = 8 := rfl
  rw [ciaSizeAlignf, toNat_alignUp hpow, hheader]
  omega

/-- A bucket size that does not fit a word comes out as 0. -/
theorem toNat_poolBucketSize (elementSize : Word) (hpow : alignment.toNat = 2 ^ k) :
    (poolBucketSize elementSize alignment).toNat
      = alignUp (max 8 elementSize.toNat) alignment.toNat % 2 ^ 64 := by
  have hmax : (if elementSize < sizeofCiaPoolBucket then sizeofCiaPoolBucket
      else elementSize).toNat = max 8 elementSize.toNat := by
    by_cases hlt : elementSize < sizeofCiaPoolBucket
    · have hlt' : elementSize.toNat < 8 := hlt
      rw [if_pos hlt, max_eq_left hlt'.le]
      rfl
    · have hle' : 8 ≤ elementSize.toNat := Nat.le_of_not_lt hlt
      rw [if_neg hlt, max_eq_right hle']
  rw [poolBucketSize, ciaSizeAlignf, toNat_alignUp_mod hpow, hmax]

/-- The counter of the carving loop starts right behind the last bucket. -/
theorem toNat_bucketOffset {size header : Word} (width : Word)
    (hheader : header.toNat ≤ size.toNat) :
    (header + (size - header) / width * width).toNat
      = header.toNat + (size.toNat - header.toNat) / width.toNat * width.toNat := by
  have hlt := size.isLt
  have hdiv := Nat.div_mul_le_self (size.toNat - header.toNat) width.toNat
  have hremaining : (size - header).toNat = size.toNat - header.toNat := by
    rw [BitVec.toNat_sub]
    omega
  rw [BitVec.toNat_add, BitVec.toNat_mul, BitVec.toNat_udiv, hremaining,
    Nat.mod_eq_of_lt (by omega), Nat.mod_eq_of_lt (by omega)]

/-- Counting down by a bucket. -/
theorem toNat_bucketOffset_sub {offset width : Word} {header : ℕ}
    (hoffset : offset.toNat = header + (k + 1) * width.toNat) :
    (offset - width).toNat = header + k * width.toNat := by
  have hlt := offset.isLt
  rw [hoffset, Nat.succ_mul] at hlt
  rw [BitVec.toNat_sub, hoffset, Nat.succ_mul]
  omega

end Sizes

/-- The arguments of `cia_pool_create`, as far as a bucket fits into a buffer. -/
structure PoolParams where
  allocator : CiaAllocator (Machine Call)
  bufferSize : Word
  elementSize : Word
  alignment : Word
  alignment_pow : ∃ k, alignment.toNat = 2 ^ k
  element_fits : elementSize.toNat + alignment.toNat - 1 < 2 ^ 64
  bucket_fits : (ciaSizeAlignf sizeofCiaPoolBufferHeader alignment).toNat
    + (poolBucketSize elementSize alignment).toNat ≤ bufferSize.toNat

namespace PoolParams

variable (params : PoolParams)

def headerSize : Word :=
  ciaSizeAlignf sizeofCiaPoolBufferHeader params.alignment

def bucketSize : Word :=
  poolBucketSize params.elementSize params.alignment

theorem alignment_pos : 0 < params.alignment.toNat := by
  obtain ⟨k, hk⟩ := params.alignment_pow
  rw [hk]
  positivity

theorem headerSize_toNat : params.headerSize.toNat = alignUp 8 params.alignment.toNat := by
  obtain ⟨k, hk⟩ := params.alignment_pow
  exact toNat_headerSize hk

theorem bucketSize_toNat :
    params.bucketSize.toNat = alignUp (max 8 params.elementSize.toNat) params.alignment.toNat := by
  obtain ⟨k, hk⟩ := params.alignment_pow
  have hfits := params.element_fits
  have hheader := params.headerSize_toNat
  have hlt := params.headerSize.isLt
  -- the sum to be rounded stays below `2 ^ 64`, and so does the multiple below it
  have hround : alignUp (max 8 params.elementSize.toNat) params.alignment.toNat < 2 ^ 64 := by
    rcases max_choice 8 params.elementSize.toNat with hmax | hmax
    · rw [hmax, ← hheader]
      exact hlt
    · rw [hmax]
      exact lt_of_le_of_lt (Nat.div_mul_le_self _ _) hfits
  rw [bucketSize, toNat_poolBucketSize _ hk, Nat.mod_eq_of_lt hround]

theorem eight_le_bucketSize : 8 ≤ params.bucketSize.toNat := by
  rw [params.bucketSize_toNat]
  exact le_trans (le_max_left _ _) (le_alignUp params.alignment_pos)

/-- How `_pool_buffer_freelist_add` cuts a buffer. -/
def carving : Carving where
  size := params.bufferSize.toNat
  header := params.headerSize.toNat
  width := params.bucketSize.toNat
  count := (params.bufferSize.toNat - params.headerSize.toNat) / params.bucketSize.toNat
  width_pos := lt_of_lt_of_le (by decide) params.eight_le_bucketSize
  fits := by
    have hfits : params.headerSize.toNat + params.bucketSize.toNat ≤ params.bufferSize.toNat :=
      params.bucket_fits
    have hdiv := Nat.div_mul_le_self (params.bufferSize.toNat - params.headerSize.toNat)
      params.bucketSize.toNat
    omega

theorem count_pos : 0 < params.carving.count := by
  have hfits : params.headerSize.toNat + params.bucketSize.toNat ≤ params.bufferSize.toNat :=
    params.bucket_fits
  exact Nat.div_pos (by omega) params.carving.width_pos

theorem dvd_headerSize : params.alignment.toNat ∣ params.headerSize.toNat :=
  params.headerSize_toNat ▸ dvd_alignUp _ _

theorem dvd_bucketSize : params.alignment.toNat ∣ params.bucketSize.toNat :=
  params.bucketSize_toNat ▸ dvd_alignUp _ _

/-- The pool has the parameters of its creation. -/
structure Sizes (pool : CiaPool) : Prop where
  allocator : pool.allocator = params.allocator
  bufferSize : pool.bufferSize = params.bufferSize
  bucketSize : pool.bucketSize = params.bucketSize
  alignment : pool.alignment = params.alignment

/-- The buckets of the buffer at `base` from the `k`-th on. -/
theorem drop_buckets (base : Word) {k : ℕ} (hk : k < params.carving.count) :
    (params.carving.buckets base).drop k
      = params.carving.bucket base k :: (params.carving.buckets base).drop (k + 1) := by
  have hlength : k < (params.carving.buckets base).length := by
    simpa [Carving.buckets] using hk
  rw [List.drop_eq_getElem_cons hlength]
  simp [Carving.buckets]

end PoolParams

variable {params : PoolParams} {pool : CiaPool} {base : Word} {bases l : List Word}
  {s : Machine Call}

/-- Linking a bucket in front of a chain of others. -/
theorem chain_push_bucket {m : Mem} {head p : Word}
    (hblocks : params.carving.Blocks bases) (h : Chain m head l)
    (hp : p ∈ params.carving.stock bases) (hl : ∀ q ∈ l, q ∈ params.carving.stock bases)
    (hfresh : p ∉ l) : Chain (store64 m p head) p (p :: l) := by
  refine h.push (hblocks.ne_null hp) fun q hq => ?_
  have hdisj := hblocks.bucket_disjoint (hl q hq) hp fun heq => hfresh (heq ▸ hq)
  exact hdisj.mono (region_mono params.eight_le_bucketSize)
    (region_mono params.eight_le_bucketSize)

/-- Between two rounds of the carving loop: the buckets from the `k`-th on are
linked in front of the old chain `l`, and only links of the new buffer have changed. -/
structure Carved (params : PoolParams) (base : Word) (l : List Word) (m : Mem) (k : ℕ)
    (b : Word × Word) (t : Machine Call) : Prop where
  offset : b.1.toNat = params.carving.header + k * params.carving.width
  chain : Chain t.mem b.2 ((params.carving.buckets base).drop k ++ l)
  frame : ∀ x ∉ params.carving.links base, t.mem x = m x

theorem Carved.offset_sub {m : Mem} {k : ℕ} {b : Word × Word} (hpool : params.Sizes pool)
    (h : Carved params base l m (k + 1) b s) :
    (b.1 - pool.bucketSize).toNat = params.carving.header + k * params.carving.width := by
  have hwidth : params.carving.width = pool.bucketSize.toNat := by
    rw [hpool.bucketSize]
    rfl
  rw [hwidth]
  exact toNat_bucketOffset_sub (hwidth ▸ h.offset)

/-- A bucket in front of the later ones of its buffer and of the old chain. -/
theorem Carved.push {m : Mem} {k : ℕ} {b : Word × Word}
    (hblocks : params.carving.Blocks (base :: bases))
    (hl : ∀ p ∈ l, p ∈ params.carving.stock bases) (hk : k < params.carving.count)
    (h : Carved params base l m (k + 1) b s) :
    Chain (store64 s.mem (params.carving.bucket base k) b.2)
      (params.carving.bucket base k) ((params.carving.buckets base).drop k ++ l) := by
  have hmem : params.carving.bucket base k ∈ params.carving.stock (base :: bases) :=
    Carving.mem_stock.mpr ⟨base, List.mem_cons_self, k, hk, rfl⟩
  have hnodup := hblocks.nodup_stock
  rw [Carving.stock, List.flatMap_cons, List.nodup_append] at hnodup
  rw [params.drop_buckets base hk, List.cons_append]
  apply chain_push_bucket hblocks h.chain hmem
  · intro q hq
    rw [Carving.stock, List.flatMap_cons, List.mem_append]
    rcases List.mem_append.mp hq with hq | hq
    · exact .inl (List.mem_of_mem_drop hq)
    · exact .inr (hl q hq)
  · -- the bucket is neither a later one of its buffer nor in an older buffer
    intro hq
    rcases List.mem_append.mp hq with hq | hq
    · have hdrop := hnodup.1.sublist (List.drop_sublist k _)
      rw [params.drop_buckets base hk] at hdrop
      exact (List.nodup_cons.mp hdrop).1 hq
    · exact hnodup.2.2 _ (Carving.mem_buckets.mpr ⟨k, hk, rfl⟩) _ (hl _ hq) rfl

/-- Linking a bucket writes its first word only. -/
theorem Carved.frame_store {m : Mem} {k : ℕ} {b : Word × Word} (hk : k < params.carving.count)
    (h : Carved params base l m (k + 1) b s) (v : Word) :
    ∀ x ∉ params.carving.links base,
      store64 s.mem (params.carving.bucket base k) v x = m x := by
  intro x hx
  have hout : x ∉ region (params.carving.bucket base k) 8 :=
    fun hin => hx ⟨_, Carving.mem_buckets.mpr ⟨k, hk, rfl⟩, hin⟩
  rw [store64_of_notMem hout, h.frame x hx]

theorem poolCarveBucket_round {m : Mem} {k : ℕ} {b : Word × Word} (hpool : params.Sizes pool)
    (hblocks : params.carving.Blocks (base :: bases))
    (hl : ∀ p ∈ l, p ∈ params.carving.stock bases) (hk : k < params.carving.count)
    (h : Carved params base l m (k + 1) b s) :
    Yields (poolCarveBucket pool base params.headerSize b) s fun r t =>
      match r with
      | .inl b' => 0 < k ∧ Carved params base l m k b' t
      | .inr head => k = 0 ∧ Chain t.mem head (params.carving.buckets base ++ l) ∧
          ∀ x ∉ params.carving.links base, t.mem x = m x := by
  have hoffset := h.offset_sub hpool
  have hpush := h.push hblocks hl hk
  have hframe := h.frame_store hk b.2
  obtain ⟨offset, next⟩ := b
  have hbucket : base + (offset - pool.bucketSize) = params.carving.bucket base k := by
    rw [Carving.bucket, ← hoffset, BitVec.ofNat_toNat, BitVec.setWidth_eq]
  -- the loop goes on while a bucket lies between this one and the header
  have hlast : (offset - pool.bucketSize > params.headerSize) ↔ 0 < k := by
    rw [gt_iff_lt, BitVec.lt_def, hoffset]
    change params.carving.header < _ ↔ _
    have hpos := params.carving.width_pos
    rw [Nat.lt_add_right_iff_pos, Nat.mul_pos_iff_of_pos_right hpos]
  rw [poolCarveBucket, hbucket]
  refine Yields.bind (R := fun _ t =>
    t.mem = store64 s.mem (params.carving.bucket base k) next) (yields_storeWord rfl) ?_
  intro _ t ht
  by_cases hpos : 0 < k
  · rw [if_pos (hlast.mpr hpos)]
    exact yields_pure ⟨hpos, hoffset, by rwa [ht], by rwa [ht]⟩
  · rw [if_neg (mt hlast.mp hpos)]
    have hzero : k = 0 := Nat.eq_zero_of_not_pos hpos
    rw [hzero, List.drop_zero] at hpush
    rw [hzero] at hframe ht ⊢
    exact yields_pure ⟨rfl, by rwa [ht], by rwa [ht]⟩

theorem yields_poolBufferFreelistAdd (hpool : params.Sizes pool)
    (hblocks : params.carving.Blocks (base :: bases))
    (hl : ∀ p ∈ l, p ∈ params.carving.stock bases) (hchain : Chain s.mem pool.freelistHead l) :
    Yields (poolBufferFreelistAdd pool base) s fun pool' t =>
      params.Sizes pool' ∧ Chain t.mem pool'.freelistHead (params.carving.buckets base ++ l) ∧
        ∀ x ∉ params.carving.links base, t.mem x = s.mem x := by
  have hwidth : pool.bucketSize ≠ 0 := by
    intro hzero
    have hle := params.eight_le_bucketSize
    rw [← hpool.bucketSize, hzero] at hle
    exact absurd hle (by decide)
  have hheader : ciaSizeAlignf sizeofCiaPoolBufferHeader pool.alignment = params.headerSize := by
    rw [hpool.alignment]
    rfl
  have hcount := params.count_pos
  rw [poolBufferFreelistAdd, hheader]
  refine Yields.bind (yields_divide hwidth (Q := fun n t =>
    n = (pool.bufferSize - params.headerSize) / pool.bucketSize ∧ s = t) ⟨rfl, rfl⟩) ?_
  rintro _ _ ⟨rfl, rfl⟩
  refine Yields.bind (R := fun head t => Chain t.mem head (params.carving.buckets base ++ l) ∧
    ∀ x ∉ params.carving.links base, t.mem x = s.mem x) ?_ ?_
  -- each round lowers the offset by a bucket, down to the header
  · refine yields_loop (fun b t => ∃ k < params.carving.count,
      Carved params base l s.mem (k + 1) b t) (fun b => b.1.toNat) ?_ ?_ (BitVec.isLt _)
    · rintro b t ⟨k, hk, hcarved⟩
      refine (poolCarveBucket_round hpool hblocks hl hk hcarved).mono fun r u hr => ?_
      cases r with
      | inl b' =>
          obtain ⟨hpos, hnext⟩ := hr
          refine ⟨⟨k - 1, by omega, ?_⟩, ?_⟩
          · rwa [Nat.sub_add_cancel hpos]
          · have hpos' := params.carving.width_pos
            rw [hcarved.offset, hnext.offset, Nat.succ_mul]
            omega
      | inr head => exact hr.2
    · refine ⟨params.carving.count - 1, by omega, ?_⟩
      rw [Nat.sub_add_cancel hcount]
      refine ⟨?_, ?_, fun _ _ => rfl⟩
      · have hfits : params.headerSize.toNat + params.bucketSize.toNat ≤ params.bufferSize.toNat :=
          params.bucket_fits
        rw [hpool.bufferSize, hpool.bucketSize]
        exact toNat_bucketOffset _ (by omega)
      · rw [List.drop_eq_nil_of_le (by simp [Carving.buckets])]
        exact hchain
  · intro head t hhead
    exact yields_pure ⟨⟨hpool.allocator, hpool.bufferSize, hpool.bucketSize, hpool.alignment⟩,
      hhead⟩

theorem reflects_poolCarveBucket {A : Machine Call → Prop} (h : AccessReflects A)
    (pool : CiaPool) (buffer header : Word) (b : Word × Word) :
    Reflects A (poolCarveBucket pool buffer header b) :=
  (h.storeWord _ _).bind fun _ => (reflects_pure _).ite (reflects_pure _)

/-- Cutting a buffer makes no calls. -/
theorem reflects_poolBufferFreelistAdd {A : Machine Call → Prop} (h : AccessReflects A)
    (pool : CiaPool) (buffer : Word) : Reflects A (poolBufferFreelistAdd pool buffer) := by
  refine (reflects_divide _ _).bind fun n => ?_
  exact (reflects_loop (reflects_poolCarveBucket h _ _ _) _ _).bind fun head => reflects_pure _

/-- What the pool relies on when it asks for a buffer: the answer is a block in
its place, aligned and away from the buffers obtained before, and the allocator
leaves those alone. -/
structure Supplies (params : PoolParams) (s : Machine Call) (buffers : List Word) (base : Word)
    (t : Machine Call) : Prop where
  answer : ciaAllocatorAlloc params.allocator params.bufferSize params.alignment s = .ok base t
  placed : params.carving.Placed base
  aligned : params.alignment.toNat ∣ base.toNat
  disjoint : ∀ b ∈ buffers, Disjoint (region base params.carving.size)
    (region b params.carving.size)
  frame : ∀ b ∈ buffers, ∀ x ∈ region b params.carving.size, t.mem x = s.mem x

variable {t : Machine Call}

theorem yields_ciaPoolCreate (h : Supplies params s [] base t) :
    Yields (ciaPoolCreate params.allocator params.bufferSize params.elementSize params.alignment)
      s fun pool u => params.Sizes pool ∧
        Chain u.mem pool.freelistHead (params.carving.buckets base) ∧
        ∀ x ∉ params.carving.links base, u.mem x = t.mem x := by
  have hblocks : params.carving.Blocks [base] := Carving.blocks_singleton h.placed
  refine Yields.bind (R := fun b u => base = b ∧ t = u) ⟨base, t, h.answer, rfl, rfl⟩ ?_
  rintro _ _ ⟨rfl, rfl⟩
  have hempty : Chain t.mem 0 [] := rfl
  refine (yields_poolBufferFreelistAdd (l := []) ⟨rfl, rfl, rfl, rfl⟩ hblocks nofun hempty).mono ?_
  intro pool u hu
  rw [List.append_nil] at hu
  exact hu

/-- With a free bucket, `cia_pool_alloc` takes the first one off the list and
writes nothing. -/
theorem yields_ciaPoolAlloc {p : Word} (hpool : params.Sizes pool)
    (hchain : Chain s.mem pool.freelistHead (p :: l)) :
    Yields (ciaPoolAlloc pool) s fun r t =>
      r.1 = p ∧ params.Sizes r.2 ∧ Chain t.mem r.2.freelistHead l ∧ t.mem = s.mem := by
  obtain ⟨hhead, hne, htail⟩ := hchain
  rw [ciaPoolAlloc, if_neg (hhead ▸ hne)]
  refine Yields.bind (R := fun pool' t => pool = pool' ∧ s = t) (yields_pure ⟨rfl, rfl⟩) ?_
  rintro _ _ ⟨rfl, rfl⟩
  refine Yields.bind (R := fun next t => next = load64 s.mem p ∧ t.mem = s.mem)
    (yields_loadWord ⟨by rw [hhead], rfl⟩) ?_
  rintro _ t ⟨rfl, hmem⟩
  refine yields_pure ⟨hhead, ⟨hpool.allocator, hpool.bufferSize, hpool.bucketSize,
    hpool.alignment⟩, ?_, hmem⟩
  rw [hmem]
  exact htail

/-- Without one, it first obtains a buffer and takes the lowest of its buckets. -/
theorem yields_ciaPoolAlloc_grow (hpool : params.Sizes pool) (hempty : pool.freelistHead = 0)
    (hblocks : params.carving.Blocks bases) (h : Supplies params s bases base t) :
    Yields (ciaPoolAlloc pool) s fun r u =>
      r.1 = params.carving.bucket base 0 ∧ params.Sizes r.2 ∧
        Chain u.mem r.2.freelistHead ((params.carving.buckets base).drop 1) ∧
        ∀ x ∉ params.carving.links base, u.mem x = t.mem x := by
  have hcons := hblocks.cons h.placed h.disjoint
  have hbuckets := params.drop_buckets base params.count_pos
  rw [List.drop_zero] at hbuckets
  have hanswer : ciaAllocatorAlloc pool.allocator pool.bufferSize pool.alignment s
      = .ok base t := by
    rw [hpool.allocator, hpool.bufferSize, hpool.alignment]
    exact h.answer
  rw [ciaPoolAlloc, if_pos hempty]
  refine Yields.bind (R := fun pool' u => params.Sizes pool' ∧
    Chain u.mem pool'.freelistHead (params.carving.buckets base) ∧
    ∀ x ∉ params.carving.links base, u.mem x = t.mem x) ?_ ?_
  · refine Yields.bind (R := fun b u => base = b ∧ t = u) ⟨base, t, hanswer, rfl, rfl⟩ ?_
    rintro _ _ ⟨rfl, rfl⟩
    refine (yields_poolBufferFreelistAdd (l := []) hpool hcons nofun hempty).mono ?_
    intro pool' u hu
    rw [List.append_nil] at hu
    exact hu
  · rintro pool' u ⟨hsizes, hchain, hframe⟩
    rw [hbuckets] at hchain
    obtain ⟨hhead, hne, htail⟩ := hchain
    refine Yields.bind (R := fun next v => next = load64 u.mem (params.carving.bucket base 0) ∧
      v.mem = u.mem) (yields_loadWord ⟨by rw [hhead], rfl⟩) ?_
    rintro _ v ⟨rfl, hmem⟩
    refine yields_pure ⟨hhead, ⟨hsizes.allocator, hsizes.bufferSize, hsizes.bucketSize,
      hsizes.alignment⟩, ?_, ?_⟩
    · rw [hmem]
      exact htail
    · rw [hmem]
      exact hframe

theorem yields_ciaPoolFree {p : Word} (hpool : params.Sizes pool)
    (hblocks : params.carving.Blocks bases) (hchain : Chain s.mem pool.freelistHead l)
    (hp : p ∈ params.carving.stock bases) (hl : ∀ q ∈ l, q ∈ params.carving.stock bases)
    (hfresh : p ∉ l) :
    Yields (ciaPoolFree pool p) s fun pool' t =>
      params.Sizes pool' ∧ Chain t.mem pool'.freelistHead (p :: l) ∧
        ∀ x ∉ region p 8, t.mem x = s.mem x := by
  refine Yields.bind (R := fun _ t => t.mem = store64 s.mem p pool.freelistHead)
    (yields_storeWord rfl) ?_
  intro _ t hmem
  refine yields_pure ⟨⟨hpool.allocator, hpool.bufferSize, hpool.bucketSize, hpool.alignment⟩,
    ?_, ?_⟩
  · rw [hmem]
    exact chain_push_bucket hblocks hchain hp hl hfresh
  · intro x hx
    rw [hmem, store64_of_notMem hx]

end Ciabatta.CiaMem
