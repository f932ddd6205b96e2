import Ciabatta.CiaSync.MutexSafety
import Ciabatta.StdlibFile.FileApi

/-!
The identity of streams. A bucket of `_file_pool` that no thread is working with
has a free mutex: fresh pages are zero, the links of the free list end before the
mutex begins, and a stream is closed when no operation on it is pending. So `fopen`
need not initialise the mutex, and what it returns is nobody else's.
-/

namespace Ciabatta.StdlibFile.FileApi

open Transition System ByteMemory Exec FreeList Layout CiaMem CiaSync

variable {sys : PageCalls (Machine Call)} {buffers : List Word} {p q base : Word} {m m' : Mem}

/-! ### Where the mutex of a `FILE` lies -/

theorem filePool_bucketSize (sys : PageCalls (Machine Call)) : (filePool sys).bucketSize = 32 := by
  change poolBucketSize sizeofFile 16 = 32
  decide

theorem filePool_headerSize (sys : PageCalls (Machine Call)) : (filePool sys).headerSize = 16 := by
  change ciaSizeAlignf sizeofCiaPoolBufferHeader 16 = 16
  decide

theorem filePool_width (sys : PageCalls (Machine Call)) : (filePool sys).carving.width = 32 := by
  change (filePool sys).bucketSize.toNat = 32
  rw [filePool_bucketSize]
  rfl

theorem filePool_count (sys : PageCalls (Machine Call)) : (filePool sys).carving.count = 127 := by
  change ((0x1000 : Word).toNat - (filePool sys).headerSize.toNat)
    / (filePool sys).bucketSize.toNat = 127
  rw [filePool_headerSize, filePool_bucketSize]
  rfl

theorem region_handle_subset (sys : PageCalls (Machine Call)) (p : Word) :
    region p 16 ⊆ region p (filePool sys).carving.width := by
  rw [filePool_width]
  exact region_mono (by norm_num)

theorem region_mutex_subset (sys : PageCalls (Machine Call)) (p : Word) :
    region (p + 16) 4 ⊆ region p (filePool sys).carving.width := by
  rw [filePool_width]
  exact region_add_subset (k := 16) (by norm_num) (by norm_num)

/-- Neither a link of the free list nor a handle reaches into a mutex, in the same
bucket or in another. -/
theorem disjoint_mutex (hblocks : (filePool sys).carving.Blocks buffers)
    (hp : p ∈ (filePool sys).carving.stock buffers)
    (hq : q ∈ (filePool sys).carving.stock buffers) :
    Disjoint (region (p + 16) 4) (region q 16) := by
  rcases eq_or_ne p q with rfl | hpq
  · exact disjoint_region_add (k := 16) (by norm_num)
  · have hdisj := hblocks.bucket_disjoint hp hq hpq
    exact hdisj.mono (region_mutex_subset sys p) (region_handle_subset sys q)

theorem disjoint_mutexes (hblocks : (filePool sys).carving.Blocks buffers)
    (hp : p ∈ (filePool sys).carving.stock buffers)
    (hq : q ∈ (filePool sys).carving.stock buffers) (hpq : p ≠ q) :
    Disjoint (region (p + 16) 4) (region (q + 16) 4) := by
  have hdisj := hblocks.bucket_disjoint hp hq hpq
  exact hdisj.mono (region_mutex_subset sys p) (region_mutex_subset sys q)

theorem notMem_links (hblocks : (filePool sys).carving.Blocks buffers) (hbase : base ∈ buffers)
    (hp : p ∈ (filePool sys).carving.stock buffers) {x : Word} (hx : x ∈ region (p + 16) 4) :
    x ∉ (filePool sys).carving.links base := by
  rintro ⟨q, hq, hxq⟩
  have hq' : q ∈ (filePool sys).carving.stock buffers :=
    List.mem_flatMap.mpr ⟨base, hbase, hq⟩
  exact Set.disjoint_left.mp (disjoint_mutex hblocks hp hq') hx (region_mono (by norm_num) hxq)

theorem mutexAt_congr (h : ∀ x ∈ region (p + 16) 4, m' x = m x) : mutexAt m' p = mutexAt m p := by
  rw [mutexAt, mutexAt, load32_congr h]

theorem mutexAt_blank (h : ∀ x ∈ region (p + 16) 4, m x = 0) :
    (mutexAt m p).tag = mutexFree :=
  load32_eq_zero h

@[simp] theorem mutexAt_setMutex (m : Mem) (p : Word) (mutex : CiaMutex) :
    mutexAt (setMutex m p mutex) p = mutex := by
  rw [mutexAt, setMutex, load32_store32]

theorem setMutex_of_notMem {mutex : CiaMutex} {x : Word} (h : x ∉ region (p + 16) 4) :
    setMutex m p mutex x = m x :=
  store32_of_notMem h

/-- Setting the mutex of one bucket does not show in that of another. -/
theorem mutexAt_setMutex_of_ne (hblocks : (filePool sys).carving.Blocks buffers)
    (hp : p ∈ (filePool sys).carving.stock buffers)
    (hq : q ∈ (filePool sys).carving.stock buffers) (hpq : p ≠ q) (mutex : CiaMutex) :
    mutexAt (setMutex m q mutex) p = mutexAt m p := by
  apply mutexAt_congr
  intro x hx
  exact setMutex_of_notMem (Set.disjoint_left.mp (disjoint_mutexes hblocks hp hq hpq) hx)

theorem yields_storeRtFile {s : Machine Call} {rtFile : RtFile} {padding : BitVec 32} :
    Yields (storeRtFile p rtFile padding) s fun _ t => ∀ x ∉ region p 16, t.mem x = s.mem x := by
  have hfd : region p 8 ⊆ region p 16 := region_mono (by norm_num)
  have hflags : region (p + 8) 8 ⊆ region p 16 :=
    region_add_subset (k := 8) (by norm_num) (by norm_num)
  refine Yields.bind (R := fun _ t => t.mem = store64 s.mem p rtFile.fd) (yields_storeWord rfl) ?_
  intro _ t ht
  refine yields_storeWord fun x hx => ?_
  dsimp only
  rw [store64_of_notMem fun hin => hx (hflags hin), ht,
    store64_of_notMem fun hin => hx (hfd hin)]

/-! ### The pool with its mutexes -/

variable {run : PoolRun} {d : Depot Word}

/-- The bytes of a live `FILE` may be written. -/
theorem represents_store {t : Machine Call} (h : Represents (filePool sys) run d)
    (hp : p ∈ run.live)
    (hframe : ∀ x ∉ region p (filePool sys).carving.width, t.mem x = run.machine.mem x) :
    Represents (filePool sys) { run with machine := t } d := by
  refine represents_write h fun x hx => .inl ⟨p, hp, ?_⟩
  by_contra hout
  exact hx (hframe x hout)

/-- Obtaining a bucket leaves the mutexes alone, and those of new pages are zero. -/
theorem represents_alloc_pages {obtained : List Word} {file : Word} {pool : CiaPool}
    {t : Machine Call} (h : Represents (filePool sys) run d)
    (hobtains : ObtainsPages (filePool sys) run obtained)
    (hcall : ciaPoolAlloc run.pool run.machine = .ok (file, pool) t) :
    (∃ d', Represents (filePool sys)
      ⟨pool, t, obtained ++ run.buffers, file :: run.live⟩ d') ∧
      file ∉ run.live ∧
      (∀ p ∈ (filePool sys).carving.stock run.buffers, ∀ x ∈ region (p + 16) 4,
        t.mem x = run.machine.mem x) ∧
      ∀ p ∈ (filePool sys).carving.stock obtained, ∀ x ∈ region (p + 16) 4, t.mem x = 0 := by
  obtain ⟨l, hl, hchain⟩ := h.chain
  cases hobtains with
  | none hhead =>
      obtain ⟨hfree, hrep⟩ := represents_alloc h hhead hcall
      obtain ⟨l', rfl, -⟩ := hchain.exists_cons hhead
      obtain ⟨-, -, -, hmem⟩ := (yields_ciaPoolAlloc h.sizes hchain).of_eq hcall
      refine ⟨⟨_, hrep⟩, ?_, fun p _ x _ => by rw [hmem], fun p hp => absurd hp List.not_mem_nil⟩
      have hnot := d.notMem_live hfree
      rwa [h.live] at hnot
  | @grow base u hhead hsupplies hzero =>
      obtain ⟨hnodup, hfree, hrep⟩ := represents_alloc_grow h hhead hsupplies hcall
      obtain ⟨-, -, -, hframe⟩ :=
        (yields_ciaPoolAlloc_grow h.sizes hhead h.blocks hsupplies).of_eq hcall
      have hblocks := h.blocks.cons hsupplies.placed hsupplies.disjoint
      -- once the pages are there, only links are written
      have hold : ∀ {p x}, p ∈ (filePool sys).carving.stock (base :: run.buffers) →
          x ∈ region (p + 16) 4 → t.mem x = u.mem x :=
        fun hp hx => hframe _ (notMem_links hblocks List.mem_cons_self hp hx)
      refine ⟨⟨_, hrep⟩, ?_, fun p hp x hx => ?_, fun p hp x hx => ?_⟩
      · have hnot := Depot.notMem_live _ hfree
        rwa [Depot.extend_live, h.live] at hnot
      · have hp' : p ∈ (filePool sys).carving.stock (base :: run.buffers) :=
          List.mem_append_right _ hp
        obtain ⟨b, hb, hsub⟩ := h.blocks.region_subset hp
        rw [hold hp' hx, hsupplies.frame b hb x (hsub (region_mutex_subset sys p hx))]
      · have hp' : p ∈ (filePool sys).carving.stock (base :: run.buffers) := by
          rw [Carving.stock, List.flatMap_singleton] at hp
          exact List.mem_append_left _ hp
        obtain ⟨b, hb, hsub⟩ := (Carving.blocks_singleton hsupplies.placed).region_subset hp
        rw [List.mem_singleton] at hb
        subst hb
        rw [hold hp' hx, hzero x (hsub (region_mutex_subset sys p hx))]

/-- Freeing a bucket writes its link only. -/
theorem represents_free_pages {file : Word} {pool : CiaPool} {t : Machine Call}
    (h : Represents (filePool sys) run d) (hlive : file ∈ run.live)
    (hcall : ciaPoolFree run.pool file run.machine = .ok pool t) :
    (∃ d', Represents (filePool sys)
      { run with pool := pool, machine := t, live := run.live.erase file } d') ∧
      ∀ p ∈ (filePool sys).carving.stock run.buffers, ∀ x ∈ region (p + 16) 4,
        t.mem x = run.machine.mem x := by
  obtain ⟨_, hrep⟩ := represents_free h hlive hcall
  refine ⟨⟨_, hrep⟩, fun p hp x hx => ?_⟩
  have hmem : t.mem = store64 run.machine.mem file run.pool.freelistHead := by
    rw [(eq_of_ok hcall).2]
  have hdisj := disjoint_mutex h.blocks hp (h.live_mem_stock hlive)
  rw [hmem]
  exact store64_of_notMem fun hin =>
    Set.disjoint_left.mp hdisj hx (region_mono (by norm_num) hin)

/-! ### What `_fileapi_init` leaves -/

/-- All mutexes of the pool are free. -/
structure Idle (sys : PageCalls (Machine Call)) (run : PoolRun) : Prop where
  represents : ∃ d, Represents (filePool sys) run d
  free : ∀ p ∈ (filePool sys).carving.stock run.buffers,
    (mutexAt run.machine.mem p).tag = mutexFree

theorem idle_create {s t : Machine Call} (hsupplies : Supplies (filePool sys) s [] base t)
    (hzero : ∀ x ∈ region base (filePool sys).carving.size, t.mem x = 0) :
    Yields (ciaPoolCreate (ciaAllocatorPages sys) 0x1000 sizeofFile 16) s fun pool u =>
      Idle sys { pool := pool, machine := u, buffers := [base], live := [] } := by
  refine (yields_ciaPoolCreate hsupplies).mono fun pool u hu => ?_
  obtain ⟨hsizes, hchain, hframe⟩ := hu
  obtain ⟨d, -, hrep⟩ := represents_fresh hsizes hsupplies.placed hsupplies.aligned hchain
  refine ⟨⟨d, hrep⟩, fun p hp => mutexAt_blank fun x hx => ?_⟩
  obtain ⟨b, hb, hsub⟩ := hrep.blocks.region_subset hp
  rw [List.mem_singleton] at hb
  subst hb
  dsimp only
  rw [hframe x (notMem_links hrep.blocks List.mem_cons_self hp hx),
    hzero x (hsub (region_mutex_subset sys p hx))]

/-- A bucket from a pool that need not grow. -/
theorem Idle.alloc (h : Idle sys run)
    (hroom : run.live.length < ((filePool sys).carving.stock run.buffers).length) :
    Yields (ciaPoolAlloc run.pool) run.machine fun r t =>
      Idle sys { pool := r.2, machine := t, buffers := run.buffers, live := r.1 :: run.live } := by
  obtain ⟨d, hrep⟩ := h.represents
  obtain ⟨l, hl, hchain⟩ := hrep.chain
  have hne : l ≠ [] := by
    rintro rfl
    have hsplit := congrArg Multiset.card d.split
    rw [hl, hrep.live, hrep.stock] at hsplit
    simp at hsplit
    omega
  have hhead : run.pool.freelistHead ≠ 0 := fun hzero => hne (hchain.eq_nil_iff.mpr hzero)
  obtain ⟨p, l', rfl⟩ := List.exists_cons_of_ne_nil hne
  obtain ⟨r, t, hcall, -, -, -, hmem⟩ := yields_ciaPoolAlloc hrep.sizes hchain
  obtain ⟨_, hrep'⟩ := represents_alloc hrep hhead hcall
  refine ⟨r, t, hcall, ⟨_, hrep'⟩, ?_⟩
  rw [hmem]
  exact h.free

theorem Idle.storeRtFile (h : Idle sys run) (hp : p ∈ run.live) {rtFile : RtFile}
    {padding : BitVec 32} :
    Yields (storeRtFile p rtFile padding) run.machine fun _ t =>
      Idle sys { run with machine := t } := by
  obtain ⟨d, hrep⟩ := h.represents
  refine yields_storeRtFile.mono fun _ t hframe => ⟨⟨d, ?_⟩, fun q hq => ?_⟩
  · exact represents_store hrep hp fun x hx =>
      hframe x fun hin => hx (region_handle_subset sys p hin)
  · have hdisj := disjoint_mutex hrep.blocks hq (hrep.live_mem_stock hp)
    rw [← h.free q hq]
    exact congrArg CiaMutex.tag (mutexAt_congr fun x hx =>
      hframe x (Set.disjoint_left.mp hdisj hx))

theorem Idle.initMutex (h : Idle sys run) (hp : p ∈ run.live) :
    Yields (initMutex p) run.machine fun _ t => Idle sys { run with machine := t } := by
  obtain ⟨d, hrep⟩ := h.represents
  refine ⟨(), _, rfl, ⟨d, ?_⟩, fun q hq => ?_⟩
  · exact represents_store hrep hp fun x hx =>
      setMutex_of_notMem fun hin => hx (region_mutex_subset sys p hin)
  · dsimp only
    rcases eq_or_ne q p with rfl | hqp
    · rw [mutexAt_setMutex]
      rfl
    · rw [mutexAt_setMutex_of_ne hrep.blocks hq (hrep.live_mem_stock hp) hqp]
      exact h.free q hq

theorem yields_fileapiInit {s t : Machine Call} (hsupplies : Supplies (filePool sys) s [] base t)
    (hzero : ∀ x ∈ region base (filePool sys).carving.size, t.mem x = 0) :
    Yields (fileapiInit sys) s fun r u =>
      Idle sys ⟨r.1, u, [base], [r.2.stderr, r.2.stdout, r.2.stdin]⟩ := by
  have hroom : ((filePool sys).carving.stock [base]).length = 127 := by
    rw [Carving.stock, List.flatMap_singleton, Carving.buckets, List.length_map,
      List.length_range, filePool_count]
  refine (idle_create hsupplies hzero).bind fun pool u h => ?_
  refine (h.alloc (by simp [hroom])).bind ?_
  rintro ⟨stdin, pool⟩ u h
  refine (h.alloc (by simp [hroom])).bind ?_
  rintro ⟨stdout, pool⟩ u h
  refine (h.alloc (by simp [hroom])).bind ?_
  rintro ⟨stderr, pool⟩ u h
  refine (h.storeRtFile (p := stdin) (by simp)).bind fun _ u h => ?_
  refine (h.storeRtFile (p := stdout) (by simp)).bind fun _ u h => ?_
  refine (h.storeRtFile (p := stderr) (by simp)).bind fun _ u h => ?_
  refine (h.initMutex (p := stdin) (by simp)).bind fun _ u h => ?_
  refine (h.initMutex (p := stdout) (by simp)).bind fun _ u h => ?_
  refine (h.initMutex (p := stderr) (by simp)).bind fun _ u h => ?_
  exact yields_pure h

/-! ### Whose a bucket is -/

variable {ι : Type*}

/-- A bucket that is handed out is an open stream or belongs to one thread, and only
open streams are used. -/
structure Owned (live opened : List Word) (pc : ι → Pc) : Prop where
  opened_live : ∀ p ∈ opened, p ∈ live
  opened_nodup : opened.Nodup
  held_live : ∀ i p, (pc i).held = some p → p ∈ live
  held_notMem : ∀ i p, (pc i).held = some p → p ∉ opened
  held_inj : ∀ i j p, (pc i).held = some p → (pc j).held = some p → i = j
  uses_opened : ∀ i p, (pc i).uses = some p → p ∈ opened

section Owned

variable {live opened : List Word} {pc : ι → Pc} {i : ι} {v : Pc}

theorem Owned.mono_live (h : Owned live opened pc) {live' : List Word} (hsub : live ⊆ live') :
    Owned live' opened pc :=
  { h with
    opened_live := fun q hq => hsub (h.opened_live q hq)
    held_live := fun j q hq => hsub (h.held_live j q hq) }

theorem Owned.erase_live (h : Owned live opened pc) (hclosed : p ∉ opened)
    (hfree : ∀ j, (pc j).held ≠ some p) : Owned (live.erase p) opened pc :=
  { h with
    opened_live := fun q hq =>
      (List.mem_erase_of_ne fun heq : q = p => hclosed (heq ▸ hq)).mpr (h.opened_live q hq)
    held_live := fun j q hq =>
      (List.mem_erase_of_ne fun heq : q = p => hfree j (heq ▸ hq)).mpr (h.held_live j q hq) }

theorem Owned.open (h : Owned live opened pc) (hlive : p ∈ live) (hclosed : p ∉ opened)
    (hfree : ∀ j, (pc j).held ≠ some p) : Owned live (p :: opened) pc where
  opened_live := List.forall_mem_cons.mpr ⟨hlive, h.opened_live⟩
  opened_nodup := List.nodup_cons.mpr ⟨hclosed, h.opened_nodup⟩
  held_live := h.held_live
  held_notMem j q hq hmem := by
    rcases List.mem_cons.mp hmem with rfl | hmem
    · exact hfree j hq
    · exact h.held_notMem j q hq hmem
  held_inj := h.held_inj
  uses_opened j q hq := List.mem_cons_of_mem p (h.uses_opened j q hq)

theorem Owned.close (h : Owned live opened pc) (hidle : ∀ j, (pc j).uses ≠ some p) :
    Owned live (opened.erase p) pc where
  opened_live q hq := h.opened_live q (List.mem_of_mem_erase hq)
  opened_nodup := h.opened_nodup.erase p
  held_live := h.held_live
  held_notMem j q hq hmem := h.held_notMem j q hq (List.mem_of_mem_erase hmem)
  held_inj := h.held_inj
  uses_opened j q hq :=
    (List.mem_erase_of_ne fun heq : q = p => hidle j (heq ▸ hq)).mpr (h.uses_opened j q hq)

variable [DecidableEq ι]

/-- A thread that holds what it held. -/
theorem Owned.goto (h : Owned live opened pc) (hheld : v.held = (pc i).held)
    (huses : ∀ p, v.uses = some p → p ∈ opened) :
    Owned live opened (Function.update pc i v) := by
  have hsame (j : ι) : (Function.update pc i v j).held = (pc j).held := by
    rcases eq_or_ne j i with rfl | hj
    · rw [Function.update_self, hheld]
    · rw [Function.update_of_ne hj]
  refine ⟨h.opened_live, h.opened_nodup, fun j p hp => ?_, fun j p hp => ?_,
    fun j k p hj hk => ?_, fun j p hp => ?_⟩
  · exact h.held_live j p (hsame j ▸ hp)
  · exact h.held_notMem j p (hsame j ▸ hp)
  · exact h.held_inj j k p (hsame j ▸ hj) (hsame k ▸ hk)
  · rcases eq_or_ne j i with rfl | hj
    · exact huses p (by rwa [Function.update_self] at hp)
    · exact h.uses_opened j p (by rwa [Function.update_of_ne hj] at hp)

/-- A thread that comes to hold a bucket, which was neither open nor held by
another. -/
theorem Owned.take (h : Owned live opened pc) (hheld : v.held = some p) (huses : v.uses = none)
    (hlive : p ∈ live) (hclosed : p ∉ opened) (hfree : ∀ j, (pc j).held ≠ some p) :
    Owned live opened (Function.update pc i v) := by
  refine ⟨h.opened_live, h.opened_nodup, fun j q hq => ?_, fun j q hq => ?_,
    fun j k q hj hk => ?_, fun j q hq => ?_⟩
  · rcases eq_or_ne j i with rfl | hji
    · rw [Function.update_self, hheld] at hq
      cases hq
      exact hlive
    · exact h.held_live j q (by rwa [Function.update_of_ne hji] at hq)
  · rcases eq_or_ne j i with rfl | hji
    · rw [Function.update_self, hheld] at hq
      cases hq
      exact hclosed
    · exact h.held_notMem j q (by rwa [Function.update_of_ne hji] at hq)
  · -- of two holders of one bucket at least one held it before
    rcases eq_or_ne j i with rfl | hji
    · rw [Function.update_self, hheld] at hj
      cases hj
      by_contra hne
      exact hfree k (by rwa [Function.update_of_ne (Ne.symm hne)] at hk)
    · rw [Function.update_of_ne hji] at hj
      rcases eq_or_ne k i with rfl | hki
      · rw [Function.update_self, hheld] at hk
        cases hk
        exact absurd hj (hfree j)
      · exact h.held_inj j k q hj (by rwa [Function.update_of_ne hki] at hk)
  · rcases eq_or_ne j i with rfl | hji
    · rw [Function.update_self, huses] at hq
      cases hq
    · exact h.uses_opened j q (by rwa [Function.update_of_ne hji] at hq)

/-- A thread that lets go of the bucket it held. -/
theorem Owned.release (h : Owned live opened pc) (hheld : v.held = none) (huses : v.uses = none) :
    Owned live opened (Function.update pc i v) := by
  have hother {j : ι} {q : Word} (hq : (Function.update pc i v j).held = some q) :
      (pc j).held = some q := by
    rcases eq_or_ne j i with rfl | hj
    · rw [Function.update_self, hheld] at hq
      cases hq
    · rwa [Function.update_of_ne hj] at hq
  refine ⟨h.opened_live, h.opened_nodup, fun j q hq => h.held_live j q (hother hq),
    fun j q hq => h.held_notMem j q (hother hq),
    fun j k q hj hk => h.held_inj j k q (hother hj) (hother hk), fun j q hq => ?_⟩
  rcases eq_or_ne j i with rfl | hj
  · rw [Function.update_self, huses] at hq
    cases hq
  · exact h.uses_opened j q (by rwa [Function.update_of_ne hj] at hq)

theorem Owned.held_ne (h : Owned live opened pc) (hold : (pc i).held = some p)
    (hheld : v.held = none) (j : ι) : (Function.update pc i v j).held ≠ some p := by
  rcases eq_or_ne j i with rfl | hj
  · rw [Function.update_self, hheld]
    nofun
  · rw [Function.update_of_ne hj]
    exact fun hp => hj (h.held_inj j i p hp hold)

end Owned

/-! ### The mutexes of the streams -/

/-- The mutex of each bucket, also of a free one, guards the operations on it. -/
def FileGuards (sys : PageCalls (Machine Call)) (buffers : List Word) (m : Mem) (pc : ι → Pc) :
    Prop :=
  ∀ p ∈ (filePool sys).carving.stock buffers,
    Guards (mutexAt m p) fun i => pc i = .fileUnlock p

section FileGuards

variable {pc : ι → Pc} {i : ι} {v : Pc}

theorem FileGuards.congr (h : FileGuards sys buffers m pc)
    (hframe : ∀ p ∈ (filePool sys).carving.stock buffers, ∀ x ∈ region (p + 16) 4,
      m' x = m x) : FileGuards sys buffers m' pc := by
  intro p hp
  rw [mutexAt_congr (hframe p hp)]
  exact h p hp

/-- The buckets of new pages come with free mutexes. -/
theorem FileGuards.extend (h : FileGuards sys buffers m pc) {obtained : List Word}
    (hzero : ∀ p ∈ (filePool sys).carving.stock obtained, ∀ x ∈ region (p + 16) 4, m x = 0)
    (hnone : ∀ p ∈ (filePool sys).carving.stock obtained, ∀ i, pc i ≠ .fileUnlock p) :
    FileGuards sys (obtained ++ buffers) m pc := by
  intro p hp
  rw [Carving.stock, List.flatMap_append] at hp
  rcases List.mem_append.mp hp with hp | hp
  · exact guards_of_free (mutexAt_blank (hzero p hp)) (hnone p hp)
  · exact h p hp

variable [DecidableEq ι]

/-- A thread that comes from no operation and goes to none. -/
theorem FileGuards.goto (h : FileGuards sys buffers m pc) (hold : ∀ p, pc i ≠ .fileUnlock p)
    (hnew : ∀ p, v ≠ .fileUnlock p) : FileGuards sys buffers m (Function.update pc i v) :=
  fun p hp => (h p hp).update (P := (· = Pc.fileUnlock p)) (by simp [hold, hnew])

theorem FileGuards.lock (h : FileGuards sys buffers m pc)
    (hblocks : (filePool sys).carving.Blocks buffers)
    (hq : q ∈ (filePool sys).carving.stock buffers) (hfree : (mutexAt m q).tag = mutexFree)
    (hpc : pc i = .fileLock q) :
    FileGuards sys buffers (setMutex m q (ciaMutexLockTry (mutexAt m q)).1)
      (Function.update pc i (.fileUnlock q)) := by
  intro p hp
  rcases eq_or_ne p q with rfl | hpq
  · rw [mutexAt_setMutex]
    exact (h p hp).acquire (P := (· = Pc.fileUnlock p)) hfree rfl
  · rw [mutexAt_setMutex_of_ne hblocks hp hq hpq]
    exact (h p hp).update (P := (· = Pc.fileUnlock p)) (by simp [hpc, Ne.symm hpq])

theorem FileGuards.unlock (h : FileGuards sys buffers m pc)
    (hblocks : (filePool sys).carving.Blocks buffers)
    (hq : q ∈ (filePool sys).carving.stock buffers) (hpc : pc i = .fileUnlock q) :
    FileGuards sys buffers (setMutex m q (ciaMutexUnlockStore (mutexAt m q)))
      (Function.update pc i .outside) := by
  intro p hp
  rcases eq_or_ne p q with rfl | hpq
  · rw [mutexAt_setMutex]
    exact (h p hp).release (P := (· = Pc.fileUnlock p)) hpc (by simp)
  · rw [mutexAt_setMutex_of_ne hblocks hp hq hpq]
    exact (h p hp).update (P := (· = Pc.fileUnlock p)) (by simp [hpc, Ne.symm hpq])

end FileGuards

/-! ### The invariant -/

structure Inv (sys : PageCalls (Machine Call)) (s : State ι) : Prop where
  represents : ∃ d, Represents (filePool sys) s.run d
  poolGuard : Guards s.gPoolMutex fun i => (s.pc i).InPool
  seen : ∀ i c pool, s.pc i = .poolUpdate c pool → pool = s.run.pool
  fileGuards : FileGuards sys s.run.buffers s.run.machine.mem s.pc
  owned : Owned s.run.live s.opened s.pc

section Inv

variable {s : State ι} {i : ι} {v : Pc}

theorem Inv.mem_stock (h : Inv sys s) (hp : p ∈ s.run.live) :
    p ∈ (filePool sys).carving.stock s.run.buffers := by
  obtain ⟨d, hrep⟩ := h.represents
  exact hrep.live_mem_stock hp

/-- A change of the memory that is none to the free list and to the mutexes. -/
theorem Inv.machine (h : Inv sys s) {t : Machine Call}
    (hrep : ∀ d, Represents (filePool sys) s.run d →
      Represents (filePool sys) { s.run with machine := t } d)
    (hframe : ∀ p ∈ (filePool sys).carving.stock s.run.buffers, ∀ x ∈ region (p + 16) 4,
      t.mem x = s.run.machine.mem x) :
    Inv sys { s with run := { s.run with machine := t } } := by
  obtain ⟨d, hd⟩ := h.represents
  exact ⟨⟨d, hrep d hd⟩, h.poolGuard, h.seen, h.fileGuards.congr hframe, h.owned⟩

theorem Inv.write (h : Inv sys s) {m : Mem} (hclient : ∀ x, m x ≠ s.run.machine.mem x →
      ∀ b ∈ s.run.buffers, x ∉ region b (filePool sys).bufferSize.toNat) :
    Inv sys (s.withMem m) := by
  obtain ⟨d, hd⟩ := h.represents
  refine h.machine (fun d hrep => represents_write hrep fun x hx => .inr (hclient x hx)) ?_
  intro p hp x hx
  obtain ⟨b, hb, hsub⟩ := hd.blocks.region_subset hp
  by_contra hne
  exact hclient x hne b hb (hsub (region_mutex_subset sys p hx))

variable [DecidableEq ι]

theorem Inv.seen_goto (h : Inv sys s) (hv : ∀ c pool, v = .poolUpdate c pool → pool = s.run.pool)
    (j : ι) (c : PoolCall) (pool : CiaPool)
    (hj : Function.update s.pc i v j = .poolUpdate c pool) : pool = s.run.pool := by
  rcases eq_or_ne j i with rfl | hji
  · exact hv c pool (by simpa using hj)
  · exact h.seen j c pool (by simpa [Function.update_of_ne hji] using hj)

/-- A thread that goes on to `v` with what it holds, outside the operations on
streams. -/
structure Moves (s : State ι) (i : ι) (v : Pc) : Prop where
  seen : ∀ c pool, v = .poolUpdate c pool → pool = s.run.pool
  not_inside : ∀ p, s.pc i ≠ .fileUnlock p
  not_enters : ∀ p, v ≠ .fileUnlock p
  held : v.held = (s.pc i).held
  uses : ∀ p, v.uses = some p → p ∈ s.opened

theorem Inv.goto (h : Inv sys s) (hmoves : Moves s i v) {mutex : CiaMutex}
    (hguard : Guards mutex fun j => (Function.update s.pc i v j).InPool) :
    Inv sys { s.goto i v with gPoolMutex := mutex } where
  represents := h.represents
  poolGuard := hguard
  seen := h.seen_goto hmoves.seen
  fileGuards := h.fileGuards.goto hmoves.not_inside hmoves.not_enters
  owned := h.owned.goto hmoves.held hmoves.uses

theorem Inv.move (h : Inv sys s) (hmoves : Moves s i v) (hpool : v.InPool ↔ (s.pc i).InPool) :
    Inv sys (s.goto i v) :=
  h.goto hmoves (h.poolGuard.update hpool)

/-- While a thread is between the lock and the unlock of the pool, no other has a
record of it. -/
theorem Inv.seen_update (h : Inv sys s) (hin : (s.pc i).InPool)
    (hv : ∀ c pool, v ≠ .poolUpdate c pool) (j : ι) (c : PoolCall) (pool pool' : CiaPool)
    (hj : Function.update s.pc i v j = .poolUpdate c pool) : pool = pool' := by
  rcases eq_or_ne j i with rfl | hji
  · rw [Function.update_self] at hj
    exact absurd hj (hv c pool)
  · rw [Function.update_of_ne hji] at hj
    have hin' : (s.pc j).InPool := by simp [hj]
    exact absurd (h.poolGuard.eq hin' hin) hji

theorem Inv.alloc (h : Inv sys s) {rtFile : RtFile} {pool : CiaPool} {file : Word}
    {obtained : List Word} {t : Machine Call}
    (hpc : s.pc i = .poolUpdate (.alloc rtFile) s.run.pool)
    (hobtains : ObtainsPages (filePool sys) s.run obtained)
    (hcall : ciaPoolAlloc s.run.pool s.run.machine = .ok (file, pool) t) :
    Inv sys { s.goto i (.openUnlock rtFile file) with
      run := ⟨pool, t, obtained ++ s.run.buffers, file :: s.run.live⟩ } := by
  have hin : (s.pc i).InPool := by simp [hpc]
  obtain ⟨d, hrep⟩ := h.represents
  obtain ⟨⟨d', hrep'⟩, hfresh, hframe, hzero⟩ := represents_alloc_pages hrep hobtains hcall
  have hnew : ∀ p ∈ (filePool sys).carving.stock obtained, ∀ j, s.pc j ≠ .fileUnlock p := by
    -- an operation is on an open stream, and so on a bucket of the older buffers
    intro p hp j hj
    have hopened : p ∈ s.opened := h.owned.uses_opened j p (by simp [hj])
    have hold := h.mem_stock (h.owned.opened_live p hopened)
    have hnodup := hrep'.blocks.nodup_stock
    rw [Carving.stock, List.flatMap_append] at hnodup
    exact (List.nodup_append.mp hnodup).2.2 p hp p hold rfl
  refine ⟨⟨d', hrep'⟩, h.poolGuard.update (P := Pc.InPool) (by simp [hpc]),
    fun j c seen hj => h.seen_update hin (by simp) j c seen pool hj, ?_, ?_⟩
  · exact ((h.fileGuards.congr hframe).extend hzero hnew).goto (by simp [hpc]) (by simp)
  · refine (h.owned.mono_live (List.subset_cons_self file _)).take rfl rfl List.mem_cons_self ?_ ?_
    · exact fun hopened => hfresh (h.owned.opened_live file hopened)
    · exact fun j hheld => hfresh (h.owned.held_live j file hheld)

theorem Inv.free (h : Inv sys s) {pool : CiaPool} {file : Word} {t : Machine Call}
    (hpc : s.pc i = .poolUpdate (.free file) s.run.pool)
    (hcall : ciaPoolFree s.run.pool file s.run.machine = .ok pool t) :
    Inv sys { s.goto i .closeUnlock with
      run := { s.run with pool := pool, machine := t, live := s.run.live.erase file } } := by
  have hin : (s.pc i).InPool := by simp [hpc]
  have hheld : (s.pc i).held = some file := by simp [hpc]
  obtain ⟨d, hrep⟩ := h.represents
  obtain ⟨hrep', hframe⟩ := represents_free_pages hrep (h.owned.held_live i file hheld) hcall
  refine ⟨hrep', h.poolGuard.update (P := Pc.InPool) (by simp [hpc]),
    fun j c seen hj => h.seen_update hin (by simp) j c seen pool hj,
    (h.fileGuards.congr hframe).goto (by simp [hpc]) (by simp), ?_⟩
  exact (h.owned.release rfl rfl).erase_live (h.owned.held_notMem i file hheld)
    (h.owned.held_ne hheld rfl)

theorem Inv.fopenReturn (h : Inv sys s) {file : Word} (hpc : s.pc i = .openReturn file) :
    Inv sys { s.goto i .outside with opened := file :: s.opened } := by
  have hheld : (s.pc i).held = some file := by simp [hpc]
  refine ⟨h.represents, h.poolGuard.update (P := Pc.InPool) (by simp [hpc]),
    h.seen_goto (by simp), h.fileGuards.goto (by simp [hpc]) (by simp), ?_⟩
  exact (h.owned.release rfl rfl).open (h.owned.held_live i file hheld)
    (h.owned.held_notMem i file hheld) (h.owned.held_ne hheld rfl)

theorem Inv.fclose (h : Inv sys s) {file : Word} (hpc : s.pc i = .outside)
    (hopened : file ∈ s.opened) (hidle : ∀ j, (s.pc j).uses ≠ some file) :
    Inv sys { s.goto i (.poolLock (.free file)) with opened := s.opened.erase file } := by
  refine ⟨h.represents, h.poolGuard.update (P := Pc.InPool) (by simp [hpc]),
    h.seen_goto (by simp), h.fileGuards.goto (by simp [hpc]) (by simp), ?_⟩
  refine (h.owned.close hidle).take rfl rfl (h.owned.opened_live file hopened) ?_ ?_
  · exact h.owned.opened_nodup.not_mem_erase
  · exact fun j hheld => h.owned.held_notMem j file hheld hopened

theorem Inv.openStore (h : Inv sys s) {rtFile : RtFile} {file : Word} {padding : BitVec 32}
    {t : Machine Call} (hpc : s.pc i = .openStore rtFile file)
    (hcall : storeRtFile file rtFile padding s.run.machine = .ok () t) :
    Inv sys { s.goto i (.openReturn file) with run := { s.run with machine := t } } := by
  have hlive : file ∈ s.run.live := h.owned.held_live i file (by simp [hpc])
  have hframe := yields_storeRtFile.of_eq hcall
  obtain ⟨d, hd⟩ := h.represents
  have hstored : Inv sys { s with run := { s.run with machine := t } } := by
    refine h.machine (fun d hrep => ?_) fun p hp x hx => ?_
    · exact represents_store hrep hlive fun x hx =>
        hframe x fun hin => hx (region_handle_subset sys file hin)
    · have hdisj := disjoint_mutex hd.blocks hp (h.mem_stock hlive)
      exact hframe x (Set.disjoint_left.mp hdisj hx)
  exact hstored.move (by constructor <;> simp [hpc]) (by simp [hpc])

/-- Setting the mutex of a stream. -/
theorem Inv.setMutex (h : Inv sys s) {file : Word} {mutex : CiaMutex} (hopened : file ∈ s.opened)
    (hguards : FileGuards sys s.run.buffers (setMutex s.run.machine.mem file mutex)
      (Function.update s.pc i v)) (hpool : v.InPool ↔ (s.pc i).InPool)
    (hv : ∀ c pool, v ≠ .poolUpdate c pool) (hheld : v.held = (s.pc i).held)
    (huses : ∀ p, v.uses = some p → p ∈ s.opened) :
    Inv sys ((s.withMem (setMutex s.run.machine.mem file mutex)).goto i v) := by
  obtain ⟨d, hrep⟩ := h.represents
  refine ⟨⟨d, ?_⟩, h.poolGuard.update (P := Pc.InPool) hpool,
    h.seen_goto fun c pool heq => absurd heq (hv c pool), hguards, h.owned.goto hheld huses⟩
  exact represents_store hrep (h.owned.opened_live file hopened) fun x hx =>
    setMutex_of_notMem fun hin => hx (region_mutex_subset sys file hin)

theorem Inv.step {a : ι × Act} {t : State ι} (h : Inv sys s) (hstep : Step sys s a t) :
    Inv sys t := by
  cases hstep with
  | fopen hpc => exact h.move (by constructor <;> simp [hpc]) (by simp [hpc])
  | fopenNull => exact h
  | @poolLock i c hpc =>
      -- a try that fails leaves all as it is, and the thread tries again
      by_cases hfree : s.gPoolMutex.tag = mutexFree
      · rw [if_pos (by rw [ciaMutexLockTry_free hfree])]
        refine h.goto (by constructor <;> cases c <;> simp [hpc]) ?_
        exact h.poolGuard.acquire (P := Pc.InPool) hfree trivial
      · rw [ciaMutexLockTry_taken hfree]
        exact h.move (by constructor <;> cases c <;> simp [hpc]) (by simp [hpc])
  | @poolRead i c hpc =>
      exact h.move (by constructor <;> cases c <;> simp [hpc]) (by simp [hpc])
  | alloc hpc hobtains hcall =>
      -- between the lock and the unlock the record has not changed since it was read
      obtain rfl := h.seen _ _ _ hpc
      exact h.alloc hpc hobtains hcall
  | free hpc hcall =>
      obtain rfl := h.seen _ _ _ hpc
      exact h.free hpc hcall
  | openUnlock hpc =>
      exact h.goto (by constructor <;> simp [hpc])
        (h.poolGuard.release (P := Pc.InPool) (by simp [hpc]) id)
  | closeUnlock hpc =>
      exact h.goto (by constructor <;> simp [hpc])
        (h.poolGuard.release (P := Pc.InPool) (by simp [hpc]) id)
  | openStore hpc hcall => exact h.openStore hpc hcall
  | fopenReturn hpc => exact h.fopenReturn hpc
  | operate hpc hopened =>
      exact h.move (by constructor <;> simp [hpc, hopened]) (by simp [hpc])
  | @fileLock i file hpc =>
      have hopened : file ∈ s.opened := h.owned.uses_opened i file (by simp [hpc])
      obtain ⟨d, hrep⟩ := h.represents
      have hstock := h.mem_stock (h.owned.opened_live file hopened)
      by_cases hfree : (mutexAt s.run.machine.mem file).tag = mutexFree
      · rw [if_pos (by rw [ciaMutexLockTry_free hfree])]
        exact h.setMutex hopened (h.fileGuards.lock hrep.blocks hstock hfree hpc)
          (by simp [hpc]) (by simp) (by simp [hpc]) (by simp [hopened])
      · rw [if_neg (by simp [ciaMutexLockTry_taken hfree])]
        exact h
  | @fileUnlock i file hpc =>
      have hopened : file ∈ s.opened := h.owned.uses_opened i file (by simp [hpc])
      obtain ⟨d, hrep⟩ := h.represents
      have hstock := h.mem_stock (h.owned.opened_live file hopened)
      exact h.setMutex hopened (h.fileGuards.unlock hrep.blocks hstock hpc)
        (by simp [hpc]) (by simp) (by simp [hpc]) (by simp)
  | fclose hpc hopened hidle => exact h.fclose hpc hopened hidle
  | fcloseEof => exact h
  | write hclient => exact h.write hclient

end Inv

variable [DecidableEq ι] {s t : State ι} {i : ι} {tr : List (ι × Act)}

theorem inv_init (h : (streams sys ι).init s) : Inv sys s := by
  obtain ⟨m, base, t, hsupplies, hzero, hcall, hbuffers, hlive, hmutex, hopened, hpc⟩ := h
  have hidle : Idle sys s.run := by
    have hinit := (yields_fileapiInit hsupplies hzero).of_eq hcall
    rwa [← hbuffers, ← hlive] at hinit
  obtain ⟨d, hrep⟩ := hidle.represents
  have hnodup : s.run.live.Nodup := by
    have hd := (Multiset.nodup_add.mp d.nodup_add).2.1
    rwa [hrep.live, Multiset.coe_nodup] at hd
  refine ⟨⟨d, hrep⟩, guards_of_free (by rw [hmutex]; rfl) (by simp [hpc]),
    by simp [hpc], fun p hp => guards_of_free (hidle.free p hp) (by simp [hpc]), ?_⟩
  have hperm : s.opened.Perm s.run.live := by
    rw [hopened, hlive]
    exact (List.reverse_perm _).symm
  exact ⟨fun p hp => hperm.subset hp, hperm.nodup_iff.mpr hnodup, by simp [hpc],
    by simp [hpc], by simp [hpc], by simp [hpc]⟩

theorem inv_reaches (h : (streams sys ι).Reaches tr s) : Inv sys s :=
  h.invariant (fun _ => inv_init) fun _ _ _ => Inv.step

/-! ### Main results -/

theorem ObtainsPages.obtains {obtained : List Word}
    (h : ObtainsPages (filePool sys) run obtained) : Obtains (filePool sys) run obtained := by
  cases h with
  | none hhead => exact .none hhead
  | grow hhead hsupplies _ => exact .grow hhead hsupplies

/-- With pages where they are needed, `fopen` gets its bucket. -/
theorem alloc_returns {rtFile : RtFile} {seen : CiaPool} {obtained : List Word}
    (h : (streams sys ι).Reaches tr s) (hpc : s.pc i = .poolUpdate (.alloc rtFile) seen)
    (hobtains : ObtainsPages (filePool sys) { s.run with pool := seen } obtained) :
    ∃ r u, ciaPoolAlloc seen s.run.machine = .ok r u := by
  have hinv := inv_reaches h
  obtain rfl := hinv.seen _ _ _ hpc
  obtain ⟨d, hrep⟩ := hinv.represents
  exact hrep.alloc_returns hobtains.obtains

theorem Step.std_eq {a : ι × Act} (h : Step sys s a t) : t.std = s.std := by
  cases h with
  | fileLock => split <;> rfl
  | _ => rfl

/-- An open stream stays open until its `fclose`. -/
theorem Step.mem_opened {a : ι × Act} (h : Step sys s a t) (hp : p ∈ s.opened)
    (ha : ∀ i, a ≠ (i, .fclose p)) : p ∈ t.opened := by
  cases h with
  | fopenReturn => exact List.mem_cons_of_mem _ hp
  | @fclose i file =>
      have hne : p ≠ file := by
        rintro rfl
        exact ha i rfl
      exact (List.mem_erase_of_ne hne).mpr hp
  | fileLock => split <;> exact hp
  | _ => exact hp

/-- A standard stream that nobody has closed is open. -/
theorem mem_opened_of_std (h : (streams sys ι).Reaches tr s) :
    ∀ p ∈ s.std.all, (∀ i, (i, .fclose p) ∉ tr) → p ∈ s.opened := by
  refine h.history (I := fun tr s => ∀ p ∈ s.std.all, (∀ i, (i, .fclose p) ∉ tr) → p ∈ s.opened)
    ?_ ?_
  · rintro s ⟨_, _, _, -, -, -, -, -, -, hopened, -⟩ p hp -
    rwa [hopened]
  · intro tr s a t ih hstep p hp hkept
    rw [hstep.std_eq] at hp
    refine hstep.mem_opened (ih p hp fun i hi => ?_) ?_
    · exact hkept i (List.mem_append_left _ hi)
    · rintro i rfl
      exact hkept i (List.mem_append_right _ (List.mem_singleton_self _))

/-- What `fopen` returns is none of the open streams, and so none of the standard
streams that are still open, and its mutex is free. -/
theorem fopen_fresh {file : Word} (h : (streams sys ι).Reaches tr s)
    (hreturn : Step sys s (i, .fopenReturn file) t) :
    file ∉ s.opened ∧ (∀ p ∈ s.std.all, (∀ j, (j, .fclose p) ∉ tr) → file ≠ p) ∧
      (mutexAt t.run.machine.mem file).tag = mutexFree := by
  have hinv := inv_reaches h
  cases hreturn with
  | fopenReturn hpc =>
      have hheld : (s.pc i).held = some file := by simp [hpc]
      have hclosed : file ∉ s.opened := hinv.owned.held_notMem i file hheld
      refine ⟨hclosed, ?_, ?_⟩
      · rintro p hp hkept rfl
        exact hclosed (mem_opened_of_std h file hp hkept)
      · refine (hinv.fileGuards file ?_).tag_eq_free fun j hj => hclosed ?_
        · exact hinv.mem_stock (hinv.owned.held_live i file hheld)
        · exact hinv.owned.uses_opened j file (by simp [hj])

/-- A kernel whose pages begin at 65536. -/
def firstPages : PageCalls (Machine Call) where
  mmap := fun _ _ => pure 65536
  munmap := fun _ _ => pure 0

theorem firstPages_supplies : Supplies (filePool firstPages) ⟨fun _ => 0, []⟩ [] 65536
    ⟨fun _ => 0, [.call (.allocator 1 0 0 0x1000 16 65536)]⟩ where
  answer := rfl
  placed := ⟨by decide, by decide⟩
  aligned := by decide
  disjoint := nofun
  frame := nofun

/-- The thread closes `stdin` and opens another stream. -/
def reopenStdin (stdin : Word) : List (Fin 1 × Act) :=
  [(0, .fclose stdin), (0, .poolLock true), (0, .poolRead), (0, .free stdin), (0, .poolUnlock),
    (0, .fopen [byteOf 'r']), (0, .poolLock true), (0, .poolRead), (0, .alloc stdin []),
    (0, .poolUnlock), (0, .openStore)]

theorem ciaPoolAlloc_of_ne {pool : CiaPool} {m : Machine Call} (h : pool.freelistHead ≠ 0) :
    ciaPoolAlloc pool m = .ok (pool.freelistHead,
      { pool with freelistHead := load64 m.mem pool.freelistHead })
      (m.record (.load pool.freelistHead 8)) := by
  rw [ciaPoolAlloc, if_neg h]
  rfl

/-- The bucket of `stdin` was the last one freed, so it is the next one used. -/
theorem reopenStdin_reaches : ∃ s, (streams firstPages (Fin 1)).Reaches
    (reopenStdin s.std.stdin) s ∧ s.pc 0 = .openReturn s.std.stdin := by
  obtain ⟨⟨pool, std⟩, m, hcall, -⟩ :=
    yields_fileapiInit firstPages_supplies fun _ _ => rfl
  let start : State (Fin 1) :=
    { run := ⟨pool, m, [65536], [std.stderr, std.stdout, std.stdin]⟩
      gPoolMutex := ⟨0⟩
      std := std
      opened := std.all
      pc := fun _ => .outside }
  have hinit : (streams firstPages (Fin 1)).init start :=
    ⟨_, _, _, firstPages_supplies, fun _ _ => rfl, hcall, rfl, rfl, rfl, rfl, fun _ => rfl⟩
  have hne : std.stdin ≠ 0 := by
    obtain ⟨d, hrep⟩ := (inv_init hinit).represents
    exact hrep.blocks.ne_null (hrep.live_mem_stock (by simp [start]))
  have hrun : ∃ s, (streams firstPages (Fin 1)).Reaches (reopenStdin std.stdin) s ∧
      (s.std = std ∧ s.pc 0 = .openReturn std.stdin) := by
    refine exists_reaches hinit ?_
    refine exists_run_cons (.fclose rfl List.mem_cons_self nofun
      (rfl : rtFileClose (fun _ => 0) _ = rtStatusOk)) ?_
    refine exists_run_cons (.poolLock rfl) (exists_run_cons (.poolRead rfl) ?_)
    refine exists_run_cons (.free rfl rfl) (exists_run_cons (.closeUnlock rfl) ?_)
    refine exists_run_cons (.fopen rfl
      (rfl : rtFileOpen (m := Id) (fun _ _ => 3) (fopenFlags [byteOf 'r']) = .ok ⟨3, 1⟩)) ?_
    refine exists_run_cons (.poolLock rfl) (exists_run_cons (.poolRead rfl) ?_)
    refine exists_run_cons (.alloc rfl (.none hne) (ciaPoolAlloc_of_ne hne)) ?_
    refine exists_run_cons (.openUnlock rfl) (exists_run_cons (.openStore rfl
      (rfl : storeRtFile _ _ 0 _ = .ok () _)) ?_)
    exact exists_run_nil ⟨rfl, rfl⟩
  obtain ⟨s, hs, rfl, hpc⟩ := hrun
  exact ⟨s, hs, hpc⟩

theorem fopen_fresh_reopenStdin : ∃ file, ∃ s t : State (Fin 1),
    Step firstPages s (0, .fopenReturn file) t ∧ file ∉ s.opened ∧
      (mutexAt t.run.machine.mem file).tag = mutexFree := by
  obtain ⟨s, hs, hpc⟩ := reopenStdin_reaches
  have hreturn : Step firstPages s (0, .fopenReturn s.std.stdin) _ := .fopenReturn hpc
  obtain ⟨hclosed, -, htag⟩ := fopen_fresh hs hreturn
  exact ⟨s.std.stdin, s, _, hreturn, hclosed, htag⟩

/-- A stream that takes the place of a standard one. -/
theorem fopen_fresh_fails : ¬ ∀ (tr : List (Fin 1 × Act)) (s t : State (Fin 1)) (file : Word),
    (streams firstPages (Fin 1)).Reaches tr s → Step firstPages s (0, .fopenReturn file) t →
      file ∉ s.std.all := by
  intro hdistinct
  obtain ⟨s, hs, hpc⟩ := reopenStdin_reaches
  exact hdistinct _ s _ _ hs (.fopenReturn hpc) List.mem_cons_self

end Ciabatta.StdlibFile.FileApi
