import Ciabatta.Lib.Lease
import Ciabatta.StdlibFile.FopenOutcomes

/-!
The threads of `FileApi` beside the kernel's table of open files, into which the
descriptors of the `FILE`s point. The client knows a stream as the file that it had
`fopen` open. What it knows stays true, and the table has nothing else in it.
-/

namespace Ciabatta.StdlibFile.FileApi.Descriptors

open Transition System ByteMemory Exec Layout Lease CiaMem CiaSync Function

variable {ι F : Type*}

structure State (ι F : Type*) where
  api : FileApi.State ι
  /-- The file behind each descriptor that is open. -/
  table : Word → Option F
  /-- The streams of the client, each with the file that it was opened for. -/
  streams : Word → Option F
  /-- The files that calls of `fopen` have opened and not returned yet. -/
  opening : ι → Option F

/-- The descriptor that a thread in `fopen` is about to return. -/
def fdOf (m : Mem) : Pc → Word
  | .poolLock (.alloc rtFile) | .poolRead (.alloc rtFile) | .poolUpdate (.alloc rtFile) _
  | .openUnlock rtFile _ | .openStore rtFile _ => rtFile.fd
  | .openReturn file => load64 m file
  | _ => 0

/-- Between the open call and the return of `fopen`. -/
@[simp] def Opening : Pc → Prop
  | .poolLock (.alloc _) | .poolRead (.alloc _) | .poolUpdate (.alloc _) _ | .openUnlock _ _
  | .openStore _ _ | .openReturn _ => True
  | _ => False

/-- The owners of descriptors are streams and threads. -/
def fdAt (api : FileApi.State ι) : Word ⊕ ι → Word :=
  Sum.elim (load64 api.run.machine.mem) fun i => fdOf api.run.machine.mem (api.pc i)

def State.file (s : State ι F) : Word ⊕ ι → Option F := Sum.elim s.streams s.opening

/-- The actions that open, close or start to use no stream. -/
@[simp] def Inner : Act → Prop
  | .fopen _ | .fopenReturn _ | .operate _ | .fclose _ | .fcloseEof _ => False
  | _ => True

/-- The stream that is gone with a call of `fclose`, whatever it returns. -/
@[simp] def closed : Act → Option Word
  | .fclose file | .fcloseEof file => some file
  | _ => none

variable [DecidableEq ι] {sys : PageCalls (Machine Call)}

/-- The kernel opens a file under a descriptor that is not open, and releases the
descriptor also where it reports an error of the close call. The client uses and closes
only the streams that it has. -/
inductive Step (sys : PageCalls (Machine Call)) : State ι F → ι × Act → State ι F → Prop
  | fopen {s : State ι F} {i : ι} {mode : List Byte} {rtFile : RtFile} {x : F}
      {api : FileApi.State ι} (hcall : FileApi.Step sys s.api (i, .fopen mode) api)
      (hpc : api.pc i = .poolLock (.alloc rtFile)) (hfree : s.table rtFile.fd = none) :
      Step sys s (i, .fopen mode)
        { s with
          api := api
          table := update s.table rtFile.fd (some x)
          opening := update s.opening i (some x) }
  | fopenReturn {s : State ι F} {i : ι} {file : Word} {api : FileApi.State ι}
      (hcall : FileApi.Step sys s.api (i, .fopenReturn file) api) :
      Step sys s (i, .fopenReturn file)
        { s with
          api := api
          streams := update s.streams file (s.opening i)
          opening := update s.opening i none }
  | operate {s : State ι F} {i : ι} {file : Word} {api : FileApi.State ι}
      (hcall : FileApi.Step sys s.api (i, .operate file) api)
      (hstream : s.streams file ≠ none) :
      Step sys s (i, .operate file) { s with api := api }
  | fclose {s : State ι F} {i : ι} {a : Act} {file : Word} {api : FileApi.State ι}
      (hcall : FileApi.Step sys s.api (i, a) api) (hclosed : closed a = some file)
      (hstream : s.streams file ≠ none) :
      Step sys s (i, a)
        { s with
          api := api
          table := update s.table (load64 s.api.run.machine.mem file) none
          streams := update s.streams file none }
  | inner {s : State ι F} {i : ι} {a : Act} {api : FileApi.State ι}
      (hcall : FileApi.Step sys s.api (i, a) api) (hinner : Inner a) :
      Step sys s (i, a) { s with api := api }

/-- The kernel starts the program with three descriptors open. -/
def kernelStreams (sys : PageCalls (Machine Call)) (stdin stdout stderr : F) (ι : Type*)
    [DecidableEq ι] : System (State ι F) (ι × Act) where
  init s := (FileApi.streams sys ι).init s.api ∧
    s.table = update (update (update (fun _ => none) 0 (some stdin)) 1 (some stdout)) 2
      (some stderr) ∧
    s.streams = update (update (update (fun _ => none) s.api.std.stdin (some stdin))
      s.api.std.stdout (some stdout)) s.api.std.stderr (some stderr) ∧
    s.opening = fun _ => none
  step := Step sys

/-! ### The descriptor in a `FILE` -/

variable {p q : Word} {buffers : List Word}

theorem region_fd_subset (sys : PageCalls (Machine Call)) (p : Word) :
    region p 8 ⊆ region p (filePool sys).carving.width :=
  (region_mono (by norm_num)).trans (region_handle_subset sys p)

/-- A write into another bucket, or into none, does not show in the descriptor. -/
theorem load64_bucket {m m' : Mem} (hblocks : (filePool sys).carving.Blocks buffers)
    (hp : p ∈ (filePool sys).carving.stock buffers)
    (hq : q ∈ (filePool sys).carving.stock buffers) (hpq : p ≠ q)
    (hframe : ∀ x ∉ region q (filePool sys).carving.width, m' x = m x) :
    load64 m' p = load64 m p := by
  have hdisj := hblocks.bucket_disjoint hp hq hpq
  exact load64_congr fun x hx =>
    hframe x (Set.disjoint_left.mp hdisj (region_fd_subset sys p hx))

theorem load64_setMutex {m : Mem} {mutex : CiaMutex}
    (hblocks : (filePool sys).carving.Blocks buffers)
    (hp : p ∈ (filePool sys).carving.stock buffers)
    (hq : q ∈ (filePool sys).carving.stock buffers) :
    load64 (setMutex m q mutex) p = load64 m p := by
  have hdisj := disjoint_mutex hblocks hq hp
  refine load64_congr fun x hx => setMutex_of_notMem ?_
  exact Set.disjoint_right.mp hdisj (region_mono (by norm_num) hx)

/-- Obtaining a bucket writes only links, in free buckets and in new pages. -/
theorem load64_alloc {run : PoolRun} {d : Depot Word} {obtained : List Word} {file : Word}
    {pool : CiaPool} {t : Machine Call} (h : Represents (filePool sys) run d)
    (hobtains : ObtainsPages (filePool sys) run obtained)
    (hcall : ciaPoolAlloc run.pool run.machine = .ok (file, pool) t)
    (hp : p ∈ (filePool sys).carving.stock run.buffers) :
    load64 t.mem p = load64 run.machine.mem p := by
  obtain ⟨l, -, hchain⟩ := h.chain
  cases hobtains with
  | none hhead =>
      obtain ⟨l', rfl, -⟩ := hchain.exists_cons hhead
      obtain ⟨-, -, -, hmem⟩ := (yields_ciaPoolAlloc h.sizes hchain).of_eq hcall
      rw [hmem]
  | @grow base u hhead hsupplies hzero =>
      obtain ⟨-, -, -, hframe⟩ :=
        (yields_ciaPoolAlloc_grow h.sizes hhead h.blocks hsupplies).of_eq hcall
      have hblocks := h.blocks.cons hsupplies.placed hsupplies.disjoint
      obtain ⟨b, hb, hsub⟩ := h.blocks.region_subset hp
      refine load64_congr fun x hx => ?_
      have hbucket : x ∈ region p (filePool sys).carving.width := region_fd_subset sys p hx
      rw [hframe x, hsupplies.frame b hb x (hsub hbucket)]
      -- the links of the new pages are in their buckets, of which this is none
      rintro ⟨q, hq, hxq⟩
      have hqnew : q ∈ (filePool sys).carving.stock (base :: run.buffers) :=
        List.mem_append_left _ hq
      have hpold : p ∈ (filePool sys).carving.stock (base :: run.buffers) :=
        List.mem_append_right _ hp
      have hne : p ≠ q := by
        rintro rfl
        exact (List.nodup_append.mp hblocks.nodup_stock).2.2 p hq p hp rfl
      exact Set.disjoint_left.mp (hblocks.bucket_disjoint hpold hqnew hne) hbucket
        (region_fd_subset sys q hxq)

/-- What is in use keeps its descriptor, unless `fopen` is about to fill it or `fclose` to
free it. -/
theorem load64_step {s t : FileApi.State ι} {a : ι × Act} (h : FileApi.Inv sys s)
    (hstep : FileApi.Step sys s a t) (hp : p ∈ s.run.live)
    (hstore : ∀ i rtFile, s.pc i ≠ .openStore rtFile p)
    (hfree : ∀ i seen, s.pc i ≠ .poolUpdate (.free p) seen) :
    load64 t.run.machine.mem p = load64 s.run.machine.mem p := by
  obtain ⟨d, hrep⟩ := h.represents
  have hstock := h.mem_stock hp
  cases hstep with
  | alloc hpc hobtains hcall =>
      obtain rfl := h.seen _ _ _ hpc
      exact load64_alloc hrep hobtains hcall hstock
  | @free i seen pool file t hpc hcall =>
      have hlive : file ∈ s.run.live := h.owned.held_live i file (by simp [hpc])
      have hne : p ≠ file := by
        rintro rfl
        exact hfree i seen hpc
      refine load64_bucket hrep.blocks hstock (h.mem_stock hlive) hne fun x hx => ?_
      have hmem : t.mem = store64 s.run.machine.mem file seen.freelistHead := by
        rw [(eq_of_ok hcall).2]
      change t.mem x = _
      rw [hmem, store64_of_notMem fun hin => hx (region_fd_subset sys file hin)]
  | @openStore i rtFile file padding t hpc hcall =>
      have hlive : file ∈ s.run.live := h.owned.held_live i file (by simp [hpc])
      have hne : p ≠ file := by
        rintro rfl
        exact hstore i rtFile hpc
      refine load64_bucket hrep.blocks hstock (h.mem_stock hlive) hne fun x hx => ?_
      exact yields_storeRtFile.of_eq hcall x fun hin => hx (region_handle_subset sys file hin)
  | @fileLock i file hpc =>
      have hopened : file ∈ s.opened := h.owned.uses_opened i file (by simp [hpc])
      split
      · exact load64_setMutex hrep.blocks hstock (h.mem_stock (h.owned.opened_live file hopened))
      · rfl
  | @fileUnlock i file hpc =>
      have hopened : file ∈ s.opened := h.owned.uses_opened i file (by simp [hpc])
      exact load64_setMutex hrep.blocks hstock (h.mem_stock (h.owned.opened_live file hopened))
  | write hclient =>
      obtain ⟨b, hb, hsub⟩ := hrep.blocks.region_subset hstock
      refine load64_congr fun x hx => ?_
      by_contra hne
      exact hclient x hne b hb (hsub (region_fd_subset sys p hx))
  | _ => rfl

/-! ### What `_fileapi_init` leaves -/

/-- The pool is idle, and the `FILE`s of the list hold their descriptors. -/
structure Filled (sys : PageCalls (Machine Call)) (run : PoolRun) (fds : List (Word × Word)) :
    Prop where
  idle : Idle sys run
  live : ∀ f ∈ fds, f.1 ∈ run.live
  fd : ∀ f ∈ fds, load64 run.machine.mem f.1 = f.2

section Filled

variable {run : PoolRun} {fds : List (Word × Word)}

theorem Filled.storeRtFile (h : Filled sys run fds) (hp : p ∈ run.live)
    (hnew : ∀ f ∈ fds, f.1 ≠ p) {rtFile : RtFile} {padding : BitVec 32} :
    Yields (storeRtFile p rtFile padding) run.machine fun _ t =>
      Filled sys { run with machine := t } ((p, rtFile.fd) :: fds) := by
  have hyields : Yields (FileApi.storeRtFile p rtFile padding) run.machine _ :=
    h.idle.storeRtFile hp
  obtain ⟨_, t, hcall, hidle⟩ := hyields
  obtain ⟨d, hrep⟩ := h.idle.represents
  refine ⟨_, t, hcall, hidle, List.forall_mem_cons.mpr ⟨hp, h.live⟩,
    List.forall_mem_cons.mpr ⟨Fopen.load64_storeRtFile.of_eq hcall, fun f hf => ?_⟩⟩
  rw [← h.fd f hf]
  refine load64_bucket hrep.blocks (hrep.live_mem_stock (h.live f hf)) (hrep.live_mem_stock hp)
    (hnew f hf) fun x hx => ?_
  exact yields_storeRtFile.of_eq hcall x fun hin => hx (region_handle_subset sys p hin)

theorem Filled.initMutex (h : Filled sys run fds) (hp : p ∈ run.live) :
    Yields (initMutex p) run.machine fun _ t => Filled sys { run with machine := t } fds := by
  obtain ⟨_, t, hcall, hidle⟩ := h.idle.initMutex hp
  obtain ⟨d, hrep⟩ := h.idle.represents
  obtain ⟨-, rfl⟩ := eq_of_ok hcall
  refine ⟨_, _, hcall, hidle, h.live, fun f hf => ?_⟩
  rw [← h.fd f hf]
  exact load64_setMutex hrep.blocks (hrep.live_mem_stock (h.live f hf)) (hrep.live_mem_stock hp)

theorem nodup_live (h : Idle sys run) : run.live.Nodup := by
  obtain ⟨d, hrep⟩ := h.represents
  have hd := (Multiset.nodup_add.mp d.nodup_add).2.1
  rwa [hrep.live, Multiset.coe_nodup] at hd

end Filled

theorem filled_fileapiInit {base : Word} {s t : Machine Call}
    (hsupplies : Supplies (filePool sys) s [] base t)
    (hzero : ∀ x ∈ region base (filePool sys).carving.size, t.mem x = 0) :
    Yields (fileapiInit sys) s fun r u =>
      Filled sys ⟨r.1, u, [base], [r.2.stderr, r.2.stdout, r.2.stdin]⟩
        [(r.2.stderr, 2), (r.2.stdout, 1), (r.2.stdin, 0)] := by
  have hroom : ((filePool sys).carving.stock [base]).length = 127 := by
    rw [Carving.stock, List.flatMap_singleton, Carving.buckets, List.length_map,
      List.length_range, filePool_count]
  refine (idle_create hsupplies hzero).bind fun pool u h => ?_
  refine (h.alloc (by simp [hroom])).bind ?_
  rintro ⟨stdin, pool⟩ u h
  refine (h.alloc (by simp [hroom])).bind ?_
  rintro ⟨stdout, pool⟩ u h
  refine (h.alloc (by simp [hroom])).bind ?_
  rintro ⟨stderr, pool⟩ u h
  have hnodup := nodup_live h
  simp only [List.nodup_cons, List.mem_cons, List.not_mem_nil, not_or, or_false] at hnodup
  obtain ⟨⟨herrout, herrin⟩, houtin, -⟩ := hnodup
  have hempty : Filled sys _ [] := ⟨h, List.forall_mem_nil _, List.forall_mem_nil _⟩
  refine (hempty.storeRtFile (p := stdin) (by simp) (by simp)).bind fun _ u h => ?_
  refine (h.storeRtFile (p := stdout) (by simp) ?_).bind fun _ u h => ?_
  · simpa using Ne.symm houtin
  refine (h.storeRtFile (p := stderr) (by simp) ?_).bind fun _ u h => ?_
  · simpa using ⟨Ne.symm herrout, Ne.symm herrin⟩
  refine (h.initMutex (p := stdin) (by simp)).bind fun _ u h => ?_
  refine (h.initMutex (p := stdout) (by simp)).bind fun _ u h => ?_
  refine (h.initMutex (p := stderr) (by simp)).bind fun _ u h => ?_
  exact yields_pure h

/-! ### The invariant -/

structure Inv (sys : PageCalls (Machine Call)) (s : State ι F) : Prop where
  api : FileApi.Inv sys s.api
  opened : ∀ p x, s.streams p = some x → p ∈ s.api.opened
  uses : ∀ i p, (s.api.pc i).uses = some p → ∃ x, s.streams p = some x
  opening : ∀ i, s.opening i ≠ none ↔ Opening (s.api.pc i)
  backs : Backs s.table (fdAt s.api) s.file

section Inv

variable {s : State ι F} {api : FileApi.State ι} {i j : ι} {a : Act} {x : F} {v : Pc}

theorem pc_eq {t t' : FileApi.State ι} (hcall : FileApi.Step sys t (i, a) t') (hj : j ≠ i) :
    t'.pc j = t.pc j := by
  cases hcall with
  | fileLock =>
      split
      · exact update_of_ne hj _ _
      · rfl
  | fopenNull | fcloseEof | write => rfl
  | _ => exact update_of_ne hj _ _

/-- Only of the `FILE` that `fopen` has filled is the memory asked. -/
theorem fdOf_congr {m m' : Mem} (h : ∀ p, v = .openReturn p → load64 m' p = load64 m p) :
    fdOf m' v = fdOf m v := by
  cases v with
  | poolLock c | poolRead c | poolUpdate c => cases c <;> rfl
  | openReturn p => exact h p rfl
  | _ => rfl

theorem Inv.stream_eq (h : Inv sys s) (hcall : FileApi.Step sys s.api (i, a) api)
    (hp : s.streams p = some x) : fdAt api (.inl p) = fdAt s.api (.inl p) := by
  have hopened := h.opened p x hp
  refine load64_step h.api hcall (h.api.owned.opened_live p hopened) ?_ ?_
  · intro k rtFile hk
    exact h.api.owned.held_notMem k p (by simp [hk]) hopened
  · intro k seen hk
    exact h.api.owned.held_notMem k p (by simp [hk]) hopened

/-- A thread that stays where it is keeps its descriptor. -/
theorem Inv.thread_eq (h : Inv sys s) (hcall : FileApi.Step sys s.api (i, a) api)
    (hstays : api.pc j = s.api.pc j) : fdAt api (.inr j) = fdAt s.api (.inr j) := by
  change fdOf api.run.machine.mem (api.pc j) = fdOf s.api.run.machine.mem (s.api.pc j)
  rw [hstays]
  refine fdOf_congr fun p hp => ?_
  have hheld : (s.api.pc j).held = some p := by simp [hp]
  refine load64_step h.api hcall (h.api.owned.held_live j p hheld) ?_ ?_
  · intro k rtFile hk
    obtain rfl := h.api.owned.held_inj k j p (by simp [hk]) hheld
    cases hk.symm.trans hp
  · intro k seen hk
    obtain rfl := h.api.owned.held_inj k j p (by simp [hk]) hheld
    cases hk.symm.trans hp

/-- Where the thread that goes on is no owner, or its descriptor stays the same. -/
theorem Inv.backs_congr (h : Inv sys s) (hcall : FileApi.Step sys s.api (i, a) api)
    (hi : Opening (s.api.pc i) → fdAt api (.inr i) = fdAt s.api (.inr i)) :
    Backs s.table (fdAt api) s.file := by
  refine h.backs.congr fun o x ho => ?_
  cases o with
  | inl p => exact h.stream_eq hcall ho
  | inr j =>
      rcases eq_or_ne j i with rfl | hj
      · have hne : s.opening j ≠ none := Option.ne_none_iff_exists'.mpr ⟨x, ho⟩
        exact hi ((h.opening j).mp hne)
      · exact h.thread_eq hcall (pc_eq hcall hj)

omit [DecidableEq ι] in
theorem Inv.opening_eq_none (h : Inv sys s) (hpc : ¬ Opening (s.api.pc i)) :
    s.opening i = none := by
  by_contra hne
  exact hpc ((h.opening i).mp hne)

/-- What an inner step of a thread leaves as it is. -/
structure Keeps (s t : FileApi.State ι) (i : ι) : Prop where
  opened : t.opened = s.opened
  uses : ∀ p, (t.pc i).uses = some p → (s.pc i).uses = some p
  opening : Opening (t.pc i) ↔ Opening (s.pc i)
  fd : Opening (s.pc i) → fdAt t (.inr i) = fdAt s (.inr i)

theorem Inv.keeps (h : Inv sys s) (hcall : FileApi.Step sys s.api (i, a) api) (ha : Inner a) :
    Keeps s.api api i := by
  have hstays := h.thread_eq (j := i) hcall
  cases hcall with
  | fopen | fopenReturn | operate | fclose | fcloseEof => cases ha
  | fopenNull => exact ⟨rfl, fun _ => id, .rfl, fun _ => rfl⟩
  | @poolLock i c hpc =>
      cases c <;> split <;> constructor <;> simp [fdAt, fdOf, FileApi.State.goto, hpc]
  | @poolRead i c hpc =>
      cases c <;> constructor <;> simp [fdAt, fdOf, FileApi.State.goto, hpc]
  | @openStore i rtFile file padding t hpc hstore =>
      have hfd : load64 t.mem file = rtFile.fd := Fopen.load64_storeRtFile.of_eq hstore
      constructor <;> simp [fdAt, fdOf, FileApi.State.goto, hpc, hfd]
  | alloc hpc | free hpc | openUnlock hpc | closeUnlock hpc | fileUnlock hpc =>
      constructor <;> simp [fdAt, fdOf, FileApi.State.goto, FileApi.State.withMem, hpc]
  | fileLock hpc =>
      split <;> constructor <;> simp [fdAt, fdOf, FileApi.State.goto, FileApi.State.withMem, hpc]
  | write => exact ⟨rfl, fun _ => id, .rfl, fun _ => hstays rfl⟩

theorem Inv.inner (h : Inv sys s) (hcall : FileApi.Step sys s.api (i, a) api) (ha : Inner a) :
    Inv sys { s with api := api } := by
  have hkeeps := h.keeps hcall ha
  refine ⟨h.api.step hcall, fun p x hp => ?_, fun j p hp => ?_, fun j => ?_,
    h.backs_congr hcall hkeeps.fd⟩
  · rw [hkeeps.opened]
    exact h.opened p x hp
  · rcases eq_or_ne j i with rfl | hj
    · exact h.uses j p (hkeeps.uses p hp)
    · exact h.uses j p (pc_eq hcall hj ▸ hp)
  · rcases eq_or_ne j i with rfl | hj
    · exact (h.opening j).trans hkeeps.opening.symm
    · rw [pc_eq hcall hj]
      exact h.opening j

theorem Inv.operate (h : Inv sys s) {file : Word}
    (hcall : FileApi.Step sys s.api (i, .operate file) api) (hstream : s.streams file ≠ none) :
    Inv sys { s with api := api } := by
  have hapi := h.api.step hcall
  have hbacks := h.backs_congr hcall
  cases hcall with
  | operate hpc hopened =>
      refine ⟨hapi, h.opened, fun j p hp => ?_, fun j => ?_, hbacks (by simp [hpc])⟩
      · rcases eq_or_ne j i with rfl | hj
        · have heq : file = p := by simpa [FileApi.State.goto] using hp
          exact heq ▸ Option.ne_none_iff_exists'.mp hstream
        · exact h.uses j p (by simpa [FileApi.State.goto, hj] using hp)
      · rw [h.opening j]
        rcases eq_or_ne j i with rfl | hj
        · simp [FileApi.State.goto, hpc]
        · simp [FileApi.State.goto, hj]

theorem Inv.fopen (h : Inv sys s) {mode : List Byte} {rtFile : RtFile}
    (hcall : FileApi.Step sys s.api (i, .fopen mode) api)
    (hgone : api.pc i = .poolLock (.alloc rtFile)) (hfree : s.table rtFile.fd = none) (x : F) :
    Inv sys { s with
      api := api
      table := update s.table rtFile.fd (some x)
      opening := update s.opening i (some x) } := by
  have hapi := h.api.step hcall
  have hbacks := h.backs_congr hcall
  have hkey : fdAt api (.inr i) = rtFile.fd := by simp [fdAt, fdOf, hgone]
  cases hcall with
  | fopen hpc hopen =>
      have hnone : s.file (.inr i) = none := h.opening_eq_none (by simp [hpc])
      refine ⟨hapi, h.opened, fun j p hp => ?_, fun j => ?_, ?_⟩
      · rcases eq_or_ne j i with rfl | hj
        · simp [hgone] at hp
        · exact h.uses j p (by simpa [FileApi.State.goto, hj] using hp)
      · rcases eq_or_ne j i with rfl | hj
        · simp [FileApi.State.goto]
        · simpa [FileApi.State.goto, hj] using h.opening j
      · have hacquired := (hbacks (by simp [hpc])).acquire (o := .inr i) (by rwa [hkey]) hnone x
        rwa [hkey, State.file, Sum.update_elim_inr] at hacquired

omit [DecidableEq ι] in
theorem Inv.streams_eq_none (h : Inv sys s) (hp : p ∉ s.api.opened) : s.streams p = none := by
  by_contra hne
  obtain ⟨x, hx⟩ := Option.ne_none_iff_exists'.mp hne
  exact hp (h.opened p x hx)

/-- The descriptor passes from the thread to the stream. -/
theorem Inv.backs_fopenReturn (h : Inv sys s) (hpc : s.api.pc i = .openReturn p)
    (hx : s.opening i = some x) :
    Backs s.table (fdAt s.api) (Sum.elim (update s.streams p (some x))
      (update s.opening i none)) := by
  have hheld : s.file (.inr i) = some x := hx
  have hnone : s.file (.inl p) = none :=
    h.streams_eq_none (h.api.owned.held_notMem i p (by simp [hpc]))
  have hkey : fdAt s.api (.inl p) = fdAt s.api (.inr i) := by simp [fdAt, fdOf, hpc]
  have hgiven := h.backs.handOver hheld hnone hkey
  rwa [State.file, Sum.update_elim_inr, Sum.update_elim_inl] at hgiven

theorem Inv.fopenReturn (h : Inv sys s) {file : Word}
    (hcall : FileApi.Step sys s.api (i, .fopenReturn file) api) :
    Inv sys { s with
      api := api
      streams := update s.streams file (s.opening i)
      opening := update s.opening i none } := by
  have hapi := h.api.step hcall
  cases hcall with
  | fopenReturn hpc =>
      have hnone : s.streams file = none :=
        h.streams_eq_none (h.api.owned.held_notMem i file (by simp [hpc]))
      obtain ⟨x, hx⟩ := Option.ne_none_iff_exists'.mp ((h.opening i).mpr (by simp [hpc]))
      rw [hx]
      refine ⟨hapi, fun p y hp => ?_, fun j p hp => ?_, fun j => ?_, ?_⟩
      · change update s.streams file (some x) p = some y at hp
        rcases eq_or_ne p file with rfl | hne
        · exact List.mem_cons_self
        · rw [update_of_ne hne] at hp
          exact List.mem_cons_of_mem _ (h.opened p y hp)
      · rcases eq_or_ne j i with rfl | hj
        · simp [FileApi.State.goto] at hp
        · obtain ⟨y, hy⟩ := h.uses j p (by simpa [FileApi.State.goto, hj] using hp)
          have hne : p ≠ file := by
            rintro rfl
            cases hnone.symm.trans hy
          exact ⟨y, (update_of_ne hne _ _).trans hy⟩
      · rcases eq_or_ne j i with rfl | hj
        · simp [FileApi.State.goto]
        · simpa [FileApi.State.goto, hj] using h.opening j
      · refine (h.backs_fopenReturn hpc hx).congr fun o y ho => ?_
        cases o with
        | inl p => rfl
        | inr j =>
            have hj : j ≠ i := by
              rintro rfl
              simp at ho
            simp [fdAt, FileApi.State.goto, hj]

theorem Inv.backs_fclose (h : Inv sys s) (hx : s.streams p = some x) :
    Backs (update s.table (load64 s.api.run.machine.mem p) none) (fdAt s.api)
      (Sum.elim (update s.streams p none) s.opening) := by
  have hheld : s.file (.inl p) = some x := hx
  have hreleased := h.backs.release hheld
  rwa [State.file, Sum.update_elim_inl] at hreleased

/-- What a call of `fclose` does to the streams, whatever it returns. -/
theorem Inv.fclose (h : Inv sys s) {file : Word}
    (hcall : FileApi.Step sys s.api (i, a) api) (hclosed : closed a = some file)
    (hstream : s.streams file ≠ none) :
    Inv sys { s with
      api := api
      table := update s.table (load64 s.api.run.machine.mem file) none
      streams := update s.streams file none } := by
  have hapi := h.api.step hcall
  obtain ⟨x, hx⟩ := Option.ne_none_iff_exists'.mp hstream
  have hbacks := h.backs_fclose hx
  have hother {p : Word} {y : F} (hp : update s.streams file none p = some y) :
      p ≠ file ∧ s.streams p = some y := by
    rcases eq_or_ne p file with rfl | hne
    · rw [update_self] at hp
      cases hp
    · exact ⟨hne, by rwa [update_of_ne hne] at hp⟩
  cases hcall with
  | @fclose i p sysClose hpc hopened hidle hclose =>
      obtain rfl : p = file := Option.some.inj hclosed
      refine ⟨hapi, fun q y hq => ?_, fun j q hq => ?_, fun j => ?_, ?_⟩
      · obtain ⟨hne, hq⟩ := hother hq
        exact (List.mem_erase_of_ne hne).mpr (h.opened q y hq)
      · rcases eq_or_ne j i with rfl | hj
        · simp [FileApi.State.goto] at hq
        · have huses : (s.api.pc j).uses = some q := by simpa [FileApi.State.goto, hj] using hq
          obtain ⟨y, hy⟩ := h.uses j q huses
          have hne : q ≠ p := by
            rintro rfl
            exact hidle j huses
          exact ⟨y, (update_of_ne hne _ _).trans hy⟩
      · rw [h.opening j]
        rcases eq_or_ne j i with rfl | hj
        · simp [FileApi.State.goto, hpc]
        · simp [FileApi.State.goto, hj]
      · refine hbacks.congr fun o y ho => ?_
        cases o with
        | inl q => rfl
        | inr j =>
            have hj : j ≠ i := by
              rintro rfl
              have hopening : s.opening j = some y := ho
              rw [h.opening_eq_none (by simp [hpc])] at hopening
              cases hopening
            simp [fdAt, FileApi.State.goto, hj]
  | @fcloseEof i p sysClose hpc hopened hidle hclose =>
      obtain rfl : p = file := Option.some.inj hclosed
      refine ⟨hapi, fun q y hq => h.opened q y (hother hq).2, fun j q hq => ?_, h.opening, hbacks⟩
      obtain ⟨y, hy⟩ := h.uses j q hq
      have hne : q ≠ p := by
        rintro rfl
        exact hidle j hq
      exact ⟨y, (update_of_ne hne _ _).trans hy⟩
  | _ => cases hclosed

theorem Inv.step {a : ι × Act} {t : State ι F} (h : Inv sys s) (hstep : Step sys s a t) :
    Inv sys t := by
  cases hstep with
  | fopen hcall hpc hfree => exact h.fopen hcall hpc hfree _
  | fopenReturn hcall => exact h.fopenReturn hcall
  | operate hcall hstream => exact h.operate hcall hstream
  | fclose hcall hclosed hstream => exact h.fclose hcall hclosed hstream
  | inner hcall hinner => exact h.inner hcall hinner

end Inv

variable {s : State ι F} {tr : List (ι × Act)} {stdin stdout stderr : F}

theorem backs_stream {api : FileApi.State ι} {table streams : Word → Option F}
    {opening : ι → Option F} {fd : Word}
    (h : Backs table (fdAt api) (Sum.elim streams opening))
    (hfd : load64 api.run.machine.mem p = fd) (hfree : table fd = none)
    (hnone : streams p = none) (x : F) :
    Backs (update table fd (some x)) (fdAt api) (Sum.elim (update streams p (some x)) opening) := by
  have hkey : fdAt api (.inl p) = fd := hfd
  have hfreeKey : table (fdAt api (.inl p)) = none := hkey ▸ hfree
  have hholds : Sum.elim streams opening (.inl p) = none := hnone
  have hacquired := h.acquire hfreeKey hholds x
  rwa [hkey, Sum.update_elim_inl] at hacquired

theorem inv_init (h : (kernelStreams sys stdin stdout stderr ι).init s) : Inv sys s := by
  obtain ⟨hinit, htable, hstreams, hopening⟩ := h
  have hapi := FileApi.inv_init hinit
  obtain ⟨m, base, t, hsupplies, hzero, hcall, -, -, -, hopened, hpc⟩ := hinit
  have hfd := ((filled_fileapiInit hsupplies hzero).of_eq hcall).fd
  simp only [List.forall_mem_cons, List.not_mem_nil, false_imp_iff, implies_true,
    and_true] at hfd
  obtain ⟨hfderr, hfdout, hfdin⟩ := hfd
  have hnodup := hapi.owned.opened_nodup
  rw [hopened] at hnodup
  simp only [StdStreams.all, List.nodup_cons, List.mem_cons, List.not_mem_nil, not_or,
    or_false] at hnodup
  obtain ⟨⟨hinout, hinerr⟩, houterr, -⟩ := hnodup
  refine ⟨hapi, fun p x hp => ?_, by simp [hpc], by simp [hopening, hpc], ?_⟩
  · rw [hopened, StdStreams.all]
    by_contra hp'
    simp only [List.mem_cons, List.not_mem_nil, not_or, or_false] at hp'
    obtain ⟨hin, hout, herr⟩ := hp'
    rw [hstreams, update_of_ne herr, update_of_ne hout, update_of_ne hin] at hp
    cases hp
  · rw [State.file, htable, hstreams, hopening]
    have hempty : Backs (fun _ => none : Word → Option F) (fdAt s.api)
        (Sum.elim (fun _ => none) fun _ => none) := by
      rw [Sum.elim_lam_const_lam_const]
      exact backs_empty _
    have hin := backs_stream hempty hfdin rfl rfl stdin
    have hout := backs_stream hin hfdout (by simp) (by simp [Ne.symm hinout]) stdout
    exact backs_stream hout hfderr (by simp)
      (by simp [Ne.symm hinerr, Ne.symm houterr]) stderr

/-! ### Main result -/

/-- The client's streams are open, those in use among them, and the kernel has open their
files and those of the calls of `fopen` under way, each under the descriptor that its
owner has for it. -/
structure Served (s : State ι F) : Prop where
  opened : ∀ p x, s.streams p = some x → p ∈ s.api.opened
  uses : ∀ i p, (s.api.pc i).uses = some p → ∃ x, s.streams p = some x
  opening : ∀ i, s.opening i ≠ none ↔ Opening (s.api.pc i)
  backs : Backs s.table (fdAt s.api) s.file

theorem served_reaches (h : (kernelStreams sys stdin stdout stderr ι).Reaches tr s) :
    Served s := by
  have hinv : Inv sys s := h.invariant (fun _ => inv_init) fun _ _ _ => Inv.step
  exact ⟨hinv.opened, hinv.uses, hinv.opening, hinv.backs⟩

omit [DecidableEq ι] in
/-- Where no thread is in a call, the files that are open are those of the streams. -/
theorem Served.table_iff (h : Served s) (hrest : ∀ i, s.api.pc i = .outside) {fd : Word} {x : F} :
    s.table fd = some x ↔ ∃ p, s.streams p = some x ∧ load64 s.api.run.machine.mem p = fd := by
  constructor
  · intro hx
    obtain ⟨o, ho, rfl⟩ := h.backs.owner fd x hx
    cases o with
    | inl p => exact ⟨p, ho, rfl⟩
    | inr i =>
        have hopening : s.opening i ≠ none := Option.ne_none_iff_exists'.mpr ⟨x, ho⟩
        rw [h.opening, hrest] at hopening
        exact hopening.elim
  · rintro ⟨p, hp, rfl⟩
    exact h.backs.entry (.inl p) x hp

/-- While one thread closes `stdin`, another opens a file under its descriptor. -/
theorem served_reusedDescriptor : ∃ s : State Bool ℕ,
    (kernelStreams firstPages 10 11 12 Bool).Reaches
      [(false, .fclose s.api.std.stdin), (true, .fopen [byteOf 'r'])] s ∧ Served s := by
  obtain ⟨⟨pool, std⟩, m, hcall, hfilled⟩ :=
    filled_fileapiInit firstPages_supplies fun _ _ => rfl
  let api : FileApi.State Bool :=
    { run := ⟨pool, m, [65536], [std.stderr, std.stdout, std.stdin]⟩
      gPoolMutex := ⟨0⟩
      std := std
      opened := std.all
      pc := fun _ => .outside }
  let start : State Bool ℕ :=
    { api := api
      table := update (update (update (fun _ => none) 0 (some 10)) 1 (some 11)) 2 (some 12)
      streams := update (update (update (fun _ => none) std.stdin (some 10)) std.stdout (some 11))
        std.stderr (some 12)
      opening := fun _ => none }
  have hinit : (kernelStreams firstPages 10 11 12 Bool).init start :=
    ⟨⟨_, _, _, firstPages_supplies, fun _ _ => rfl, hcall, rfl, rfl, rfl, rfl, fun _ => rfl⟩,
      rfl, rfl, rfl⟩
  have hfd : load64 start.api.run.machine.mem std.stdin = 0 := hfilled.fd (std.stdin, 0) (by simp)
  have hstream : start.streams std.stdin ≠ none := by
    simp only [start, update_apply]
    split_ifs <;> simp
  have hclose : rtFileClose (fun _ => 0) (load64 m.mem std.stdin) = rtStatusOk := rfl
  have hidle : ∀ j, (start.api.pc j).uses ≠ some std.stdin := fun _ => (Option.some_ne_none _).symm
  have hcloses : FileApi.Step firstPages start.api (false, .fclose std.stdin) _ :=
    .fclose rfl List.mem_cons_self hidle hclose
  have hclosed : Step firstPages start _ _ := .fclose hcloses rfl hstream
  rw [hfd] at hclosed
  have hopen : rtFileOpen (m := Id) (fun _ _ => 0) (fopenFlags [byteOf 'r']) = .ok ⟨0, 1⟩ := rfl
  have hrun : ∃ s, (kernelStreams firstPages 10 11 12 Bool).Reaches
      [(false, .fclose std.stdin), (true, .fopen [byteOf 'r'])] s ∧ s.api.std = std := by
    refine exists_reaches hinit (exists_run_cons hclosed ?_)
    refine exists_run_cons (.fopen (x := 13) (.fopen rfl hopen) rfl ?_) (exists_run_nil rfl)
    exact update_self (0 : Word) none start.table
  obtain ⟨s, hs, rfl⟩ := hrun
  exact ⟨s, hs, served_reaches hs⟩

end Ciabatta.StdlibFile.FileApi.Descriptors
