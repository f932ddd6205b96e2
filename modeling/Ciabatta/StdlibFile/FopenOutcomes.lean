import Ciabatta.CiaMem.PageAllocator
import Ciabatta.StdlibFile.Fopen
import Ciabatta.StdlibFile.StreamIdentity
import Ciabatta.StdlibFile.Transfers

/-!
What `fopen` of `file.c` leaves behind. It opens the file first and then takes a bucket of
`_file_pool`, of which it does not ask whether it got one.
-/

namespace Ciabatta.StdlibFile.Fopen

open ByteMemory Exec FreeList Layout CiaMem CiaSync FileApi

/-- The kernel has no page for the allocation: the call returns `NULL` or an error code. -/
def MapFails (sys : PageCalls (Machine Call)) (m : Machine Call) : Prop :=
  ∃ code t, sys.mmap 0 0x1000 m = .ok code t ∧
    (code = 0 ∨ -4095 ≤ code.toInt ∧ code.toInt < 0)

/-- The pages that `cia_pool_alloc` obtains in a state: none where a bucket is free, and
none where the allocation fails. -/
inductive Pages (sys : PageCalls (Machine Call)) (run : PoolRun) : List Word → Prop
  | notNeeded (h : run.pool.freelistHead ≠ 0) : Pages sys run []
  | supplied {base : Word} {t : Machine Call} (h : run.pool.freelistHead = 0)
      (hsupplies : Supplies (filePool sys) run.machine run.buffers base t) : Pages sys run [base]
  | failed (h : run.pool.freelistHead = 0) (hfails : MapFails sys run.machine) : Pages sys run []

/-- What the open call can return: an error, or a descriptor, which is an `int`. -/
def OpenResult (result : ℤ) : Prop :=
  -4095 ≤ result ∧ result < 2 ^ 31

/-- A state of `fopen`, with the buffers of the pool and the `FILE`s in use. -/
def State.run (s : State) (buffers live : List Word) : PoolRun where
  pool := s.filePool
  machine := s.machine
  buffers := buffers
  live := live

/-- `file` is a bucket of the pool that nobody used, and holds the descriptor that was
opened. -/
structure Opened (sys : PageCalls (Machine Call)) (buffers live : List Word) (s t : State)
    (file : Word) : Prop where
  file_mem : file ∈ (filePool sys).carving.stock buffers
  file_new : file ∉ live
  descriptor : ∃ fd, t.descriptors = fd :: s.descriptors ∧
    load64 t.machine.mem file = BitVec.ofInt 64 fd

/-- No descriptor is left open, the pool is as it was, its mutex is free, and the memory has
not been accessed. -/
structure Untouched (s t : State) : Prop where
  descriptors : t.descriptors = s.descriptors
  filePool : t.filePool = s.filePool
  mem : t.machine.mem = s.machine.mem
  gPoolMutex : t.gPoolMutex.tag = mutexFree
  log : ∃ calls : List Call, t.machine.log = s.machine.log ++ calls.map .call

/-- `fopen` returns a `FILE` for the file, or `NULL` as if it had not been called. `buffers`
are those of the pool at the end. -/
def AllOrNothing (sys : PageCalls (Machine Call)) (kernel : BitVec 32 → BitVec 32 → ℤ)
    (padding : BitVec 32) (mode : CString) (s : State) (buffers live : List Word) : Prop :=
  Yields (fopen kernel padding mode) s fun file t =>
    Opened sys buffers live s t file ∨ file = 0 ∧ Untouched s t

/-- The mode has one of its letters, and the kernel opens the file. -/
def Opens (kernel : BitVec 32 → BitVec 32 → ℤ) (mode : CString) : Prop :=
  (byteOf 'r' ∈ mode.bytes ∨ byteOf 'w' ∈ mode.bytes) ∧
    0 ≤ kernel 0 (accessMode mode)

variable {sys : PageCalls (Machine Call)} {kernel : BitVec 32 → BitVec 32 → ℤ} {padding : BitVec 32}
  {mode : CString} {s : State} {buffers live obtained : List Word} {d : Depot Word}

/-! ### The allocation -/

/-- An error code is no place for a buffer. -/
theorem not_mapFails {m t : Machine Call} {base : Word}
    (h : Supplies (filePool sys) m buffers base t) : ¬ MapFails sys m := by
  rintro ⟨code, u, hmmap, hcode⟩
  have hanswer : ciaAllocatorAlloc (ciaAllocatorPages sys) 0x1000 16 m = .ok base t := h.answer
  rw [ciaAllocatorAlloc_pages (by decide) hmmap] at hanswer
  obtain ⟨rfl, -⟩ := eq_of_ok hanswer
  obtain hnull | ⟨hge, hneg⟩ := hcode
  · exact h.placed.ne_null hnull
  · have hend : base.toNat + 4096 ≤ 2 ^ 64 := h.placed.no_wrap
    have hlt := base.isLt
    rw [BitVec.toInt_eq_toNat_cond] at hge hneg
    split at hge <;> omega

theorem yields_ciaPoolAlloc_notMem {run : PoolRun} (h : Represents (filePool sys) run d)
    (hpages : Pages sys run obtained)
    (hmap : ¬ (run.pool.freelistHead = 0 ∧ MapFails sys run.machine)) :
    Yields (ciaPoolAlloc run.pool) run.machine fun r _ =>
      r.1 ∈ (filePool sys).carving.stock (obtained ++ run.buffers) ∧ r.1 ∉ run.live := by
  obtain ⟨l, hl, hchain⟩ := h.chain
  cases hpages with
  | notNeeded hhead =>
      obtain ⟨l', rfl, -⟩ := hchain.exists_cons hhead
      obtain ⟨r, t, hcall, -⟩ := yields_ciaPoolAlloc h.sizes hchain
      obtain ⟨hfree, hrep⟩ := represents_alloc h hhead hcall
      refine ⟨r, t, hcall, hrep.live_mem_stock List.mem_cons_self, fun hmem => ?_⟩
      rw [← Multiset.mem_coe, ← h.live] at hmem
      exact d.notMem_live hfree hmem
  | supplied hhead hsupplies =>
      obtain ⟨r, t, hcall, -⟩ := yields_ciaPoolAlloc_grow h.sizes hhead h.blocks hsupplies
      obtain ⟨hnodup, hfree, hrep⟩ := represents_alloc_grow h hhead hsupplies hcall
      refine ⟨r, t, hcall, hrep.live_mem_stock List.mem_cons_self, fun hmem => ?_⟩
      rw [← Multiset.mem_coe, ← h.live] at hmem
      exact Depot.notMem_live _ hfree hmem
  | failed hhead hfails => exact absurd ⟨hhead, hfails⟩ hmap

/-- In a full pool every bucket is in use. -/
theorem mem_live_of_full {run : PoolRun} (h : Represents (filePool sys) run d)
    (hhead : run.pool.freelistHead = 0) {p : Word}
    (hp : p ∈ (filePool sys).carving.stock run.buffers) : p ∈ run.live := by
  obtain ⟨l, hl, hchain⟩ := h.chain
  obtain rfl : l = [] := hchain.eq_nil_iff.mpr hhead
  rw [← h.mem_stock, d.mem_stock_iff, hl, h.live] at hp
  exact hp.resolve_left List.not_mem_nil

/-! ### The descriptor -/

theorem load64_storeRtFile {p : Word} {rtFile : RtFile} {m : Machine Call} :
    Yields (storeRtFile p rtFile padding) m fun _ t => load64 t.mem p = rtFile.fd := by
  refine Yields.bind (R := fun _ t => t.mem = store64 m.mem p rtFile.fd) (yields_storeWord rfl) ?_
  intro _ t ht
  refine yields_storeWord ?_
  have hdisj : Disjoint (region (p + 8) 8) (region p 8) :=
    disjoint_region_add (k := 8) (by norm_num)
  dsimp only
  rw [load64_store64_of_disjoint hdisj.symm, ht, load64_store64]

/-! ### The run -/

theorem yields_allocFile {Q : Word × CiaPool → Machine Call → Prop}
    (h : Yields (ciaPoolAlloc s.filePool) s.machine Q) :
    Yields allocFile s fun file t => ∃ pool m, Q (file, pool) m ∧
      t = { s with filePool := pool, machine := m } := by
  obtain ⟨r, m, hrun, hQ⟩ := h
  refine ⟨r.1, { s with filePool := r.2, machine := m }, ?_, r.2, m, hQ, rfl⟩
  have hmachine : onMachine (ciaPoolAlloc s.filePool) s = .ok r { s with machine := m } := by
    rw [onMachine, hrun]
  exact bind_of_ok hmachine

theorem yields_fopenFile {rtFile : RtFile}
    (halloc : Yields (ciaPoolAlloc s.filePool) s.machine fun r _ =>
      r.1 ∈ (filePool sys).carving.stock buffers ∧ r.1 ∉ live)
    (hmutex : s.gPoolMutex.tag = mutexFree) :
    Yields (fopenFile padding rtFile) s fun file t =>
      file ∈ (filePool sys).carving.stock buffers ∧ file ∉ live ∧
        t.descriptors = s.descriptors ∧ load64 t.machine.mem file = rtFile.fd := by
  have hlock : lockPool s = .ok () { s with gPoolMutex := ⟨mutexLock⟩ } := by
    rw [lockPool, ciaMutexLockTry_free hmutex]
  rw [fopenFile, Yields, bind_of_ok hlock]
  refine Yields.bind (yields_allocFile (s := { s with gPoolMutex := ⟨mutexLock⟩ }) halloc) ?_
  rintro file _ ⟨pool, m, ⟨hmem, hnew⟩, rfl⟩
  have hstored : Yields (storeRtFile file rtFile padding) m fun _ t =>
      load64 t.mem file = rtFile.fd := load64_storeRtFile
  obtain ⟨_, u, hstore, hfd⟩ := hstored
  refine ⟨file, { s with
    filePool := pool, machine := u, gPoolMutex := ⟨mutexFree⟩ }, ?_, hmem, hnew, rfl, hfd⟩
  have hmachine : onMachine (storeRtFile file rtFile padding)
      { s with filePool := pool, machine := m, gPoolMutex := ⟨mutexFree⟩ } =
        .ok () { s with filePool := pool, machine := u, gPoolMutex := ⟨mutexFree⟩ } := by
    rw [onMachine, hstore]
  have hunlock : ∀ t : State, unlockPool t = .ok () { t with gPoolMutex := ⟨mutexFree⟩ } :=
    fun _ => rfl
  rw [bind_of_ok (hunlock _), bind_of_ok hmachine]
  rfl

theorem fopen_untouched (hopens : ¬ Opens kernel mode)
    (hopen : ∀ flags mode, OpenResult (kernel flags mode))
    (hmutex : s.gPoolMutex.tag = mutexFree) :
    Yields (fopen kernel padding mode) s fun file t => file = 0 ∧ Untouched s t := by
  by_cases hmode : byteOf 'r' ∈ mode.bytes ∨ byteOf 'w' ∈ mode.bytes
  · have hneg : kernel 0 (accessMode mode) < 0 := not_le.mp fun hpos => hopens ⟨hmode, hpos⟩
    obtain ⟨hge, -⟩ := hopen 0 (accessMode mode)
    have hfd : (BitVec.ofInt 32 (kernel 0 (accessMode mode))).toInt < 0 := by
      rwa [show (BitVec.ofInt 32 (kernel 0 (accessMode mode))).toInt = _ from
        wrapped_eq (by omega) (by omega)]
    obtain ⟨status, -, hstatus⟩ := openStatus_error hfd (fopenFlags mode.bytes)
    refine ⟨0, s.called kernel mode, ?_, rfl, ?_, rfl, rfl, hmutex, [], by simp [State.called]⟩
    · rw [fopen_called hmode, hstatus]
      rfl
    · rw [State.called, if_neg (not_le.mpr hneg)]
  · obtain ⟨hr, hw⟩ := not_or.mp hmode
    exact ⟨0, s, fopen_refused hr hw, rfl, rfl, rfl, rfl, hmutex, [], by simp⟩

theorem fopen_opened (hopens : Opens kernel mode)
    (hopen : ∀ flags mode, OpenResult (kernel flags mode)) :
    fopen kernel padding mode s =
      fopenFile padding ⟨BitVec.ofInt 64 (kernel 0 (accessMode mode)), fopenFlags mode.bytes⟩
        (s.called kernel mode) := by
  obtain ⟨hmode, hpos⟩ := hopens
  obtain ⟨hge, hlt⟩ := hopen 0 (accessMode mode)
  have hfd : (BitVec.ofInt 32 (kernel 0 (accessMode mode))).toInt = kernel 0 (accessMode mode) :=
    wrapped_eq (by omega) hlt
  rw [fopen_called hmode, hfd, openStatus_ok hpos]

theorem called_descriptors (hopens : Opens kernel mode) :
    (s.called kernel mode).descriptors = kernel 0 (accessMode mode) :: s.descriptors :=
  if_pos hopens.2

/-- A file that was opened stays open, so that `fopen` must return a bucket, of which a full
pool has none. -/
theorem not_allOrNothing (hopens : Opens kernel mode)
    (hopen : ∀ flags mode, OpenResult (kernel flags mode))
    (hrep : Represents (filePool sys) (s.run buffers live) d)
    (hhead : s.filePool.freelistHead = 0) :
    ¬ AllOrNothing sys kernel padding mode s buffers live := by
  rintro ⟨file, t, hrun, hopened | ⟨-, huntouched⟩⟩
  · exact hopened.file_new (mem_live_of_full hrep hhead hopened.file_mem)
  · have hcalls := (sameCalls_fopenFile padding
      ⟨BitVec.ofInt 64 (kernel 0 (accessMode mode)), fopenFlags mode.bytes⟩
      (s.called kernel mode)).2
    rw [← fopen_opened hopens hopen, hrun, called_descriptors hopens] at hcalls
    have hlength := congrArg List.length (hcalls.symm.trans huntouched.descriptors)
    rw [List.length_cons] at hlength
    omega

/-! ### Main result -/

/-- `fopen` is all or nothing, unless the file is opened, the pool is full and there is no
page for it. -/
theorem allOrNothing_iff (hopen : ∀ flags mode, OpenResult (kernel flags mode))
    (hrep : Represents (filePool sys) (s.run buffers live) d)
    (hmutex : s.gPoolMutex.tag = mutexFree)
    (hpages : Pages sys (s.run buffers live) obtained) :
    AllOrNothing sys kernel padding mode s (obtained ++ buffers) live ↔
      ¬ (Opens kernel mode ∧ s.filePool.freelistHead = 0 ∧ MapFails sys s.machine) := by
  constructor
  · rintro hall ⟨hopens, hhead, hfails⟩
    cases hpages with
    | notNeeded hne => exact hne hhead
    | supplied _ hsupplies => exact not_mapFails hsupplies hfails
    | failed => exact not_allOrNothing hopens hopen hrep hhead hall
  · intro hcond
    by_cases hopens : Opens kernel mode
    · have halloc := yields_ciaPoolAlloc_notMem hrep hpages fun hmap => hcond ⟨hopens, hmap⟩
      rw [AllOrNothing, Yields, fopen_opened hopens hopen]
      refine Yields.mono (yields_fopenFile (s := s.called kernel mode) halloc hmutex) ?_
      rintro file t ⟨hmem, hnew, hdescriptors, hfd⟩
      exact .inl ⟨hmem, hnew, _, hdescriptors.trans (called_descriptors hopens), hfd⟩
    · exact (fopen_untouched hopens hopen hmutex).mono fun _ _ h => .inr h

/-! ### A pool with one buffer -/

/-- A kernel without memory. -/
def noPages : PageCalls (Machine Call) where
  mmap _ _ := fun s => .ok (-12) s
  munmap _ _ := fun s => .ok 0 s

theorem mapFails_noPages (m : Machine Call) : MapFails noPages m :=
  ⟨-12, m, rfl, .inr (by decide)⟩

/-- The pool has the buffer at `0x1000` and the free bucket `head`, if any. -/
def oneBuffer (head : Word) : State where
  filePool := ⟨ciaAllocatorPages noPages, 0x1000, head, 0x1000, 32, 16⟩
  gPoolMutex := ⟨mutexFree⟩
  machine := ⟨fun _ => 0, []⟩
  opens := []
  descriptors := []

theorem placed_oneBuffer : (filePool noPages).carving.Placed 0x1000 :=
  ⟨by decide, by decide⟩

/-- All buckets of the buffer. -/
def allFiles : List Word := (filePool noPages).carving.buckets 0x1000

theorem represents_oneBuffer {head : Word} {free live : List Word}
    (hsplit : free ++ live = allFiles) (hchain : Chain (fun _ => 0) head free) :
    ∃ d, Represents (filePool noPages) ((oneBuffer head).run [0x1000] live) d := by
  have hstock : (filePool noPages).carving.stock [0x1000] = allFiles := by
    rw [Carving.stock, List.flatMap_singleton, allFiles]
  have hnodup : (allFiles : Multiset Word).Nodup := Carving.nodup_buckets placed_oneBuffer
  have hsum : (free : Multiset Word) + (live : Multiset Word) = allFiles := by
    rw [Multiset.coe_add, hsplit]
  refine ⟨⟨free, live, allFiles, hnodup, hsum⟩, ⟨rfl, rfl, ?_, rfl⟩,
    Carving.blocks_singleton placed_oneBuffer, ?_, ?_, rfl, free, rfl, hchain⟩
  · exact (filePool_bucketSize noPages).symm
  · intro b hb
    rw [List.mem_singleton.mp hb]
    decide
  · rw [State.run, hstock]

theorem openResult_three (_ _ : BitVec 32) : OpenResult 3 := ⟨by decide, by decide⟩

/-- The first bucket is free, and the others are in use. -/
theorem allOrNothing_freeBucket :
    AllOrNothing noPages (fun _ _ => 3) 0 ⟨[byteOf 'r'], by decide⟩ (oneBuffer 0x1010) [0x1000]
      allFiles.tail := by
  have hchain : Chain (fun _ => 0) 0x1010 [0x1010] := ⟨rfl, by decide, rfl⟩
  have hsplit : [0x1010] ++ allFiles.tail = allFiles := rfl
  obtain ⟨d, hrep⟩ := represents_oneBuffer hsplit hchain
  refine (allOrNothing_iff openResult_three hrep rfl (.notNeeded (by decide))).mpr ?_
  rintro ⟨-, hhead, -⟩
  exact absurd hhead (by decide)

/-- All buckets are in use, and the kernel opens the file but has no page. -/
theorem allOrNothing_fails :
    (∃ d, Represents (filePool noPages) ((oneBuffer 0).run [0x1000] allFiles) d) ∧
      Pages noPages ((oneBuffer 0).run [0x1000] allFiles) [] ∧
      ¬ AllOrNothing noPages (fun _ _ => 3) 0 ⟨[byteOf 'r'], by decide⟩ (oneBuffer 0) [0x1000]
        allFiles := by
  have hchain : Chain (fun _ => 0) 0 [] := rfl
  obtain ⟨d, hrep⟩ := represents_oneBuffer (List.nil_append allFiles) hchain
  refine ⟨⟨d, hrep⟩, .failed rfl (mapFails_noPages _), ?_⟩
  have hopens : Opens (fun _ _ => 3) ⟨[byteOf 'r'], by decide⟩ :=
    ⟨.inl List.mem_cons_self, by decide⟩
  exact not_allOrNothing hopens openResult_three hrep rfl

end Ciabatta.StdlibFile.Fopen
