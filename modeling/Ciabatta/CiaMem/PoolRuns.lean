import Ciabatta.CiaMem.PoolBuckets

/-!
A pool in the hands of a client: any sequence of `cia_pool_alloc` and
`cia_pool_free` after `cia_pool_create`, with the client writing what it likes
into its live buckets in between. The free list runs through the same memory as
the client's data, and the pool is nevertheless a depot of buckets.
-/

namespace Ciabatta.CiaMem

open ByteMemory Exec FreeList Layout Transition System

structure PoolRun where
  pool : CiaPool
  machine : Machine Call
  /-- The buffers obtained so far. -/
  buffers : List Word
  /-- The pointers that the client holds. -/
  live : List Word

inductive PoolAct
  | alloc (p : Word) (obtained : List Word)
  | free (p : Word)
  | write

variable (params : PoolParams)

/-- The buffers that `cia_pool_alloc` asks for in a state, none if there is a
free bucket. -/
inductive Obtains (s : PoolRun) : List Word → Prop
  | none (h : s.pool.freelistHead ≠ 0) : Obtains s []
  | grow {base : Word} {t : Machine Call} (h : s.pool.freelistHead = 0)
      (hsupplies : Supplies params s.machine s.buffers base t) : Obtains s [base]

/-- The bytes that the client may write: those of its live buckets, and all
outside the buffers. -/
def PoolRun.Writable (s : PoolRun) (x : Word) : Prop :=
  (∃ p ∈ s.live, x ∈ region p params.bucketSize.toNat) ∨
    ∀ b ∈ s.buffers, x ∉ region b params.bufferSize.toNat

inductive PoolStep : PoolRun → PoolAct → PoolRun → Prop
  | alloc {s : PoolRun} {obtained : List Word} {p : Word} {pool : CiaPool} {t : Machine Call}
      (hobtains : Obtains params s obtained)
      (hcall : ciaPoolAlloc s.pool s.machine = .ok (p, pool) t) :
      PoolStep s (.alloc p obtained)
        { pool := pool, machine := t, buffers := obtained ++ s.buffers, live := p :: s.live }
  | free {s : PoolRun} {p : Word} {pool : CiaPool} {t : Machine Call} (hlive : p ∈ s.live)
      (hcall : ciaPoolFree s.pool p s.machine = .ok pool t) :
      PoolStep s (.free p) { s with pool := pool, machine := t, live := s.live.erase p }
  | write {s : PoolRun} {t : Machine Call}
      (hwritable : ∀ x, t.mem x ≠ s.machine.mem x → s.Writable params x) :
      PoolStep s .write { s with machine := t }

def poolService : System PoolRun PoolAct where
  init s := ∃ m base t, Supplies params m [] base t ∧
    ciaPoolCreate params.allocator params.bufferSize params.elementSize params.alignment m
      = .ok s.pool s.machine ∧ s.buffers = [base] ∧ s.live = []
  step := PoolStep params

/-! ### The pool is a depot of buckets -/

/-- The state of the pool stands for the depot `d`. -/
structure Represents (s : PoolRun) (d : Depot Word) : Prop where
  sizes : params.Sizes s.pool
  blocks : params.carving.Blocks s.buffers
  aligned : ∀ b ∈ s.buffers, params.alignment.toNat ∣ b.toNat
  stock : d.stock = params.carving.stock s.buffers
  live : d.live = s.live
  chain : ∃ l : List Word, d.free = l ∧ Chain s.machine.mem s.pool.freelistHead l

/-- What a step of the pool is for the depot. -/
def observe : PoolAct → List (Depot.Act Word)
  | .alloc p obtained => obtained.map (fun b => .extend (params.carving.buckets b)) ++ [.take p]
  | .free p => [.giveBack p]
  | .write => []

variable {params} {s : PoolRun} {d : Depot Word}

theorem Represents.mem_stock (h : Represents params s d) {p : Word} :
    p ∈ d.stock ↔ p ∈ params.carving.stock s.buffers := by
  rw [h.stock, Multiset.mem_coe]

theorem Represents.free_mem_stock (h : Represents params s d) {l : List Word}
    (hl : d.free = l) {p : Word} (hp : p ∈ l) : p ∈ params.carving.stock s.buffers := by
  rw [← h.mem_stock, d.mem_stock_iff, hl]
  exact .inl hp

theorem Represents.live_mem_stock (h : Represents params s d) {p : Word} (hp : p ∈ s.live) :
    p ∈ params.carving.stock s.buffers := by
  rw [← h.mem_stock, d.mem_stock_iff, h.live]
  exact .inr hp

/-- No byte that the client may write belongs to a free bucket. -/
theorem Represents.not_writable (h : Represents params s d) {p x : Word} (hp : p ∈ d.free)
    (hx : x ∈ region p params.bucketSize.toNat) : ¬ s.Writable params x := by
  have hstock : p ∈ params.carving.stock s.buffers := by
    rw [← h.mem_stock, d.mem_stock_iff]
    exact .inl hp
  rintro (⟨q, hq, hxq⟩ | hout)
  · have hlive : q ∈ d.live := by rw [h.live]; exact hq
    have hqstock := h.live_mem_stock hq
    have hpq : p ≠ q := fun heq => d.notMem_live hp (heq ▸ hlive)
    exact Set.disjoint_left.mp (h.blocks.bucket_disjoint hstock hqstock hpq) hx hxq
  · obtain ⟨b, hb, hsub⟩ := h.blocks.region_subset hstock
    exact hout b hb (hsub hx)

/-- A pool whose buckets have all just been cut. -/
theorem represents_fresh {pool : CiaPool} {base : Word} {u : Machine Call}
    (hsizes : params.Sizes pool) (hplaced : params.carving.Placed base)
    (haligned : params.alignment.toNat ∣ base.toNat)
    (hchain : Chain u.mem pool.freelistHead (params.carving.buckets base)) :
    ∃ d, (Depot.service Word).init d ∧
      Represents params { pool := pool, machine := u, buffers := [base], live := [] } d := by
  have hblocks : params.carving.Blocks [base] := Carving.blocks_singleton hplaced
  have hstock : params.carving.stock [base] = params.carving.buckets base := by
    simp [Carving.stock]
  have hnodup : (params.carving.buckets base).Nodup := hstock ▸ hblocks.nodup_stock
  refine ⟨⟨params.carving.buckets base, 0, params.carving.buckets base, hnodup,
    Multiset.add_zero _⟩, rfl, hsizes, hblocks, ?_, ?_, rfl, ⟨_, rfl, hchain⟩⟩
  · simpa using haligned
  · rw [hstock]

theorem represents_init (h : (poolService params).init s) :
    ∃ d, (Depot.service Word).init d ∧ Represents params s d := by
  obtain ⟨m, base, t, hsupplies, hcreate, hbuffers, hlive⟩ := h
  obtain ⟨hsizes, hchain, -⟩ := (yields_ciaPoolCreate hsupplies).of_eq hcreate
  obtain ⟨d, hd, hrep⟩ := represents_fresh hsizes hsupplies.placed hsupplies.aligned hchain
  refine ⟨d, hd, ?_⟩
  rw [show s = ⟨s.pool, s.machine, s.buffers, s.live⟩ from rfl, hbuffers, hlive]
  exact hrep

/-- `cia_pool_alloc` with a free bucket. -/
theorem represents_alloc {p : Word} {pool : CiaPool} {t : Machine Call}
    (h : Represents params s d) (hhead : s.pool.freelistHead ≠ 0)
    (hcall : ciaPoolAlloc s.pool s.machine = .ok (p, pool) t) :
    ∃ hfree : p ∈ d.free, Represents params
      { pool := pool, machine := t, buffers := s.buffers, live := p :: s.live }
      (d.take p hfree) := by
  obtain ⟨l, hl, hchain⟩ := h.chain
  obtain ⟨l', rfl, -⟩ := hchain.exists_cons hhead
  obtain ⟨rfl, hsizes, hchain', -⟩ := (yields_ciaPoolAlloc h.sizes hchain).of_eq hcall
  have hfree : s.pool.freelistHead ∈ d.free := by
    rw [hl]
    exact List.mem_cons_self
  refine ⟨hfree, hsizes, h.blocks, h.aligned, h.stock, ?_, l', ?_, hchain'⟩
  · rw [Depot.take_live, h.live, Multiset.cons_coe]
  · rw [Depot.take_free, hl, Multiset.coe_erase, List.erase_cons_head]

/-- `cia_pool_alloc` without one: the buckets of a new buffer come into the
stock first. -/
theorem represents_alloc_grow {p base : Word} {pool : CiaPool} {t u : Machine Call}
    (h : Represents params s d) (hhead : s.pool.freelistHead = 0)
    (hsupplies : Supplies params s.machine s.buffers base u)
    (hcall : ciaPoolAlloc s.pool s.machine = .ok (p, pool) t) :
    ∃ (hnodup : (↑(params.carving.buckets base) + d.stock).Nodup)
      (hfree : p ∈ (d.extend (params.carving.buckets base) hnodup).free), Represents params
        { pool := pool, machine := t, buffers := base :: s.buffers, live := p :: s.live }
        ((d.extend (params.carving.buckets base) hnodup).take p hfree) := by
  obtain ⟨l, hl, hchain⟩ := h.chain
  obtain rfl : l = [] := hchain.eq_nil_iff.mpr hhead
  obtain ⟨rfl, hsizes, hchain', -⟩ :=
    (yields_ciaPoolAlloc_grow h.sizes hhead h.blocks hsupplies).of_eq hcall
  -- the new buffer lies away from the others, so its buckets are new
  have hblocks := h.blocks.cons hsupplies.placed hsupplies.disjoint
  have hstock : ↑(params.carving.buckets base) + d.stock
      = (params.carving.stock (base :: s.buffers) : Multiset Word) := by
    rw [h.stock, Multiset.coe_add, Carving.stock, Carving.stock, List.flatMap_cons]
  have hnodup : (↑(params.carving.buckets base) + d.stock).Nodup := by
    rw [hstock, Multiset.coe_nodup]
    exact hblocks.nodup_stock
  have hbuckets := params.drop_buckets base params.count_pos
  rw [List.drop_zero] at hbuckets
  have hfree : params.carving.bucket base 0
      ∈ (d.extend (params.carving.buckets base) hnodup).free := by
    refine Multiset.mem_add.mpr (.inl ?_)
    rw [hbuckets]
    exact List.mem_cons_self
  refine ⟨hnodup, hfree, hsizes, hblocks, ?_, hstock, ?_, _, ?_, hchain'⟩
  · exact List.forall_mem_cons.mpr ⟨hsupplies.aligned, h.aligned⟩
  · rw [Depot.take_live, Depot.extend_live, h.live, Multiset.cons_coe]
  · rw [Depot.take_free, Depot.extend_free, hl, Multiset.coe_nil, Multiset.add_zero,
      Multiset.coe_erase, hbuckets, List.erase_cons_head]
    rfl

theorem represents_free {p : Word} {pool : CiaPool} {t : Machine Call}
    (h : Represents params s d) (hp : p ∈ s.live)
    (hcall : ciaPoolFree s.pool p s.machine = .ok pool t) :
    ∃ hlive : p ∈ d.live, Represents params
      { s with pool := pool, machine := t, live := s.live.erase p } (d.giveBack p hlive) := by
  have hlive : p ∈ d.live := by rw [h.live]; exact hp
  obtain ⟨l, hl, hchain⟩ := h.chain
  have hstock := h.live_mem_stock hp
  have hfresh : p ∉ l := by
    intro hmem
    exact d.notMem_live (a := p) (by rw [hl]; exact hmem) hlive
  obtain ⟨hsizes, hchain', -⟩ := (yields_ciaPoolFree h.sizes h.blocks hchain hstock
    (fun q hq => h.free_mem_stock hl hq) hfresh).of_eq hcall
  refine ⟨hlive, hsizes, h.blocks, h.aligned, h.stock, ?_, p :: l, ?_, hchain'⟩
  · rw [Depot.giveBack_live, h.live, Multiset.coe_erase]
  · rw [Depot.giveBack_free, hl, Multiset.cons_coe]

/-- What the client writes does not touch the chain. -/
theorem represents_write {t : Machine Call} (h : Represents params s d)
    (hwritable : ∀ x, t.mem x ≠ s.machine.mem x → s.Writable params x) :
    Represents params { s with machine := t } d := by
  obtain ⟨l, hl, hchain⟩ := h.chain
  refine ⟨h.sizes, h.blocks, h.aligned, h.stock, h.live, l, hl, hchain.congr ?_⟩
  intro p hp x hx
  by_contra hne
  have hfree : p ∈ d.free := by rw [hl]; exact hp
  exact h.not_writable hfree (region_mono params.eight_le_bucketSize hx) (hwritable x hne)

theorem pool_simulates_depot : Simulation (poolService params) (Depot.service Word)
    (observe params) (Represents params) where
  init _ hinit := represents_init hinit
  step := by
    intro s a s' d h hstep
    cases hstep with
    | alloc hobtains hcall =>
        cases hobtains with
        | none hhead =>
            obtain ⟨hfree, hrep⟩ := represents_alloc h hhead hcall
            exact ⟨_, .single (.take hfree), hrep⟩
        | grow hhead hsupplies =>
            obtain ⟨hnodup, hfree, hrep⟩ := represents_alloc_grow h hhead hsupplies hcall
            exact ⟨_, (Run.single (Depot.Step.extend hnodup)).snoc (.take hfree), hrep⟩
    | free hp hcall =>
        obtain ⟨hlive, hrep⟩ := represents_free h hp hcall
        exact ⟨_, .single (.giveBack hlive), hrep⟩
    | write hwritable => exact ⟨d, .refl d, represents_write h hwritable⟩

/-! ### Main results -/

theorem Represents.alloc_returns {obtained : List Word} (h : Represents params s d)
    (hobtains : Obtains params s obtained) :
    ∃ r t, ciaPoolAlloc s.pool s.machine = .ok r t := by
  obtain ⟨l, hl, hchain⟩ := h.chain
  cases hobtains with
  | none hhead =>
      obtain ⟨l', rfl, -⟩ := hchain.exists_cons hhead
      obtain ⟨r, t, hcall, -⟩ := yields_ciaPoolAlloc h.sizes hchain
      exact ⟨r, t, hcall⟩
  | grow hhead hsupplies =>
      obtain ⟨r, t, hcall, -⟩ := yields_ciaPoolAlloc_grow h.sizes hhead h.blocks hsupplies
      exact ⟨r, t, hcall⟩

/-- The calls go through: in a reachable state, and with a supply from the
backing allocator where one is needed, `cia_pool_alloc` returns, and
`cia_pool_free` of a live pointer does. -/
theorem pool_calls_return {tr : List PoolAct} (h : (poolService params).Reaches tr s) :
    (∀ obtained, Obtains params s obtained →
      ∃ r t, ciaPoolAlloc s.pool s.machine = .ok r t) ∧
    ∀ p ∈ s.live, ∃ pool t, ciaPoolFree s.pool p s.machine = .ok pool t := by
  obtain ⟨d, -, hrep⟩ := pool_simulates_depot.reaches h
  exact ⟨fun obtained hobtains => hrep.alloc_returns hobtains, fun p hp => ⟨_, _, rfl⟩⟩

/-- In every reachable state the free list is a chain without repetition, its
buckets and the live pointers are together the buckets of all the buffers, each
once, and whatever was handed out lies in its buffer, aligned and away from all
other live buckets. -/
theorem pool_partition {tr : List PoolAct} (h : (poolService params).Reaches tr s) :
    ∃ free : List Word, Chain s.machine.mem s.pool.freelistHead free ∧ free.Nodup ∧
      (free ++ s.live).Perm (params.carving.stock s.buffers) ∧ (free ++ s.live).Nodup ∧
      (∀ p obtained, .alloc p obtained ∈ tr → params.alignment.toNat ∣ p.toNat ∧
        ∃ b ∈ s.buffers, b.toNat + params.headerSize.toNat ≤ p.toNat ∧
          p.toNat + params.bucketSize.toNat ≤ b.toNat + params.bufferSize.toNat) ∧
      s.live.Pairwise fun p q =>
        Disjoint (region p params.bucketSize.toNat) (region q params.bucketSize.toNat) := by
  obtain ⟨d, hd, hrep⟩ := pool_simulates_depot.reaches h
  obtain ⟨free, hfree, hchain⟩ := hrep.chain
  have hsplit : (↑(free ++ s.live) : Multiset Word) = d.stock := by
    rw [← Multiset.coe_add, ← hfree, ← hrep.live, d.split]
  have hnodup : (free ++ s.live).Nodup := by
    rw [← Multiset.coe_nodup, hsplit]
    exact d.nodup
  refine ⟨free, hchain, (List.nodup_append.mp hnodup).1, ?_, hnodup, ?_, ?_⟩
  · rw [← Multiset.coe_eq_coe, hsplit, hrep.stock]
  · intro p obtained hp
    have htake : .take p ∈ tr.flatMap (observe params) :=
      List.mem_flatMap.mpr ⟨_, hp, List.mem_append_right _ (List.mem_singleton.mpr rfl)⟩
    have hstock := hrep.mem_stock.mp (Depot.mem_stock_of_take hd htake)
    exact ⟨hrep.blocks.dvd_bucket hstock hrep.aligned params.dvd_headerSize
      params.dvd_bucketSize, hrep.blocks.place hstock⟩
  · refine (List.nodup_append.mp hnodup).2.1.imp_of_mem ?_
    intro p q hp hq hpq
    exact hrep.blocks.bucket_disjoint (hrep.live_mem_stock hp) (hrep.live_mem_stock hq) hpq

/-- A pool with two buckets of eight bytes in its one buffer, at 4096. -/
def smallPool : PoolParams where
  allocator := ⟨0, fun _ _ _ _ _ _ => pure 4096⟩
  bufferSize := 24
  elementSize := 8
  alignment := 8
  alignment_pow := ⟨3, rfl⟩
  element_fits := by decide
  bucket_fits := by decide

theorem smallPool_supplies : Supplies smallPool ⟨fun _ => 0, []⟩ [] 4096
    ⟨fun _ => 0, [.call (.allocator 1 0 0 24 8 4096)]⟩ where
  answer := rfl
  placed := ⟨by decide, by decide⟩
  aligned := by decide
  disjoint := nofun
  frame := nofun

/-- Both buckets are taken, and one is given back and taken again. -/
theorem smallPool_reuse : Yields (ciaPoolCreate smallPool.allocator 24 8 8) ⟨fun _ => 0, []⟩
    fun pool t => returns (ciaPoolAlloc pool) t (fun r u =>
      pool.freelistHead != 0 && r.1 == 4104 && r.2.freelistHead != 0 &&
        returns (ciaPoolAlloc r.2) u fun r' v => r'.1 == 4112 &&
          returns (ciaPoolFree r'.2 4104) v fun pool' w => pool'.freelistHead != 0 &&
            returns (ciaPoolAlloc pool') w fun r'' _ => r''.1 == 4104) = true :=
  yields_of_returns (by decide +kernel)

theorem pool_partition_smallPool : ∃ s, (poolService smallPool).Reaches
      [.alloc 4104 [], .alloc 4112 [], .free 4104, .alloc 4104 []] s ∧ s.live = [4104, 4112] ∧
    s.live.Pairwise fun p q => Disjoint (region p 8) (region q 8) := by
  obtain ⟨pool, t, hcreate, hlife⟩ := smallPool_reuse
  obtain ⟨⟨p, pool₁⟩, u, halloc, hlife⟩ := yields_of_returns hlife
  simp only [Bool.and_eq_true, beq_iff_eq, bne_iff_ne] at hlife
  obtain ⟨⟨⟨hhead, rfl⟩, hhead₁⟩, hlife⟩ := hlife
  obtain ⟨⟨q, pool₂⟩, v, halloc₁, hlife⟩ := yields_of_returns hlife
  simp only [Bool.and_eq_true, beq_iff_eq] at hlife
  obtain ⟨rfl, hlife⟩ := hlife
  obtain ⟨pool₃, w, hfree, hlife⟩ := yields_of_returns hlife
  simp only [Bool.and_eq_true, bne_iff_ne] at hlife
  obtain ⟨hhead₃, hlife⟩ := hlife
  obtain ⟨⟨p', pool₄⟩, x, halloc₃, hlast⟩ := yields_of_returns hlife
  obtain rfl : p' = 4104 := beq_iff_eq.mp hlast
  have hinit : (poolService smallPool).init ⟨pool, t, [4096], []⟩ :=
    ⟨_, _, _, smallPool_supplies, hcreate, rfl, rfl⟩
  have hreaches : (poolService smallPool).Reaches
      [.alloc 4104 [], .alloc 4112 [], .free 4104, .alloc 4104 []]
      ⟨pool₄, x, [4096], [4104, 4112]⟩ :=
    ⟨_, hinit, .cons (.alloc (.none hhead) halloc) (.cons (.alloc (.none hhead₁) halloc₁)
      (.cons (.free (by simp) hfree) (.single (.alloc (.none hhead₃) halloc₃))))⟩
  obtain ⟨free, -, -, -, -, -, hdisjoint⟩ := pool_partition hreaches
  exact ⟨_, hreaches, rfl, hdisjoint⟩

end Ciabatta.CiaMem
