import Ciabatta.CiaSync.MutexBuffered

/-!
`tests/threaded.c` on x86-64: `main` and the thread it creates each increment the
counter in a loop, under the mutex. `main` then prints the counter, for which it does
not take the mutex, while the other thread may be anywhere in its loop. What the two
print otherwise is left out, as is what `main` does when it has printed the counter.
-/

namespace Ciabatta.Programs.Threaded

open Transition System StoreBuffer CiaSync Function

inductive Thread
  | main
  | child
  deriving DecidableEq

/-- Where `main` stands; `counting` reaches from the return of `thrd_create` to the
print. -/
inductive Stage
  | creating
  | failed
  | counting
  | printed (counter : ℕ)

/-- The threads that run. -/
def Stage.Runs : Stage → Thread → Prop
  | .counting, _ | .printed _, .child => True
  | _, _ => False

structure State where
  /-- The mutex, the counter, and the threads in the bodies of their loops. -/
  sync : BufferedState Thread
  /-- The rounds that a thread has not begun. -/
  left : Thread → ℕ
  stage : Stage

inductive Act
  | create (created : Bool)
  | round (i : Thread)
  | body (i : Thread) (a : BufferedAct Thread)
  | print

inductive Step : State → Act → State → Prop
  | create {s : State} (h : s.stage = .creating) :
      Step s (.create true) { s with stage := .counting }
  | createFails {s : State} (h : s.stage = .creating) :
      Step s (.create false) { s with stage := .failed }
  | round {s : State} {i : Thread} {n : ℕ} {sync : BufferedState Thread} (h : s.stage.Runs i)
      (hleft : s.left i = n + 1) (hcall : BufferedStep s.sync (i, .act .call) sync) :
      Step s (.round i) { s with sync := sync, left := update s.left i n }
  | body {s : State} {i : Thread} {a : BufferedAct Thread} {sync : BufferedState Thread}
      (h : s.stage.Runs i) (hcall : a ≠ .act .call) (hstep : BufferedStep s.sync (i, a) sync) :
      Step s (.body i a) { s with sync := sync }
  | print {s : State} (h : s.stage = .counting) (hleft : s.left .main = 0)
      (hpc : s.sync.pc .main = .outside) :
      Step s .print { s with stage := .printed (s.sync.mem.view .main .counter) }

/-- The program with `n` for the 100000 rounds of each loop. -/
def program (n : ℕ) : System State Act where
  init s := (bufferedThreads Thread).init s.sync ∧ s.left = (fun _ => n) ∧ s.stage = .creating
  step := Step

def Prints (n v : ℕ) : Prop :=
  ∃ tr s, (program n).Reaches tr s ∧ s.stage = .printed v

variable {n v : ℕ} {s t : State} {tr : List Act} {i j : Thread}

/-! ### The counter in the memory -/

/-- The values that the stores of a buffer are about to give the counter. -/
def counters (es : List (Store CellVal)) : List ℕ :=
  es.filterMap fun
    | ⟨.counter, v⟩ => some v
    | ⟨.tag, _⟩ => none

@[simp] theorem counters_nil : counters [] = [] := rfl

@[simp] theorem counters_append (es es' : List (Store CellVal)) :
    counters (es ++ es') = counters es ++ counters es' :=
  List.filterMap_append ..

@[simp] theorem counters_counter (v : ℕ) (es : List (Store CellVal)) :
    counters (⟨.counter, v⟩ :: es) = v :: counters es := rfl

@[simp] theorem counters_tag (v : BitVec 32) (es : List (Store CellVal)) :
    counters (⟨.tag, v⟩ :: es) = counters es := rfl

/-- The counter as it stands in the memory. -/
def counterIn (m : Memory Thread CellVal) : ℕ := m.main .counter

section counterIn

variable {m : Memory Thread CellVal} {es : List (Store CellVal)}

@[simp] theorem counterIn_store {c : Cell} {v : CellVal c} :
    counterIn (m.store i c v) = counterIn m := rfl

@[simp] theorem counterIn_write (v : BitVec 32) : counterIn (m.write .tag v) = counterIn m := by
  simp [counterIn]

@[simp] theorem counterIn_drain (v : ℕ) : counterIn (m.drain i ⟨.counter, v⟩ es) = v := by
  simp [counterIn]

@[simp] theorem counterIn_drain_tag (v : BitVec 32) :
    counterIn (m.drain i ⟨.tag, v⟩ es) = counterIn m := by
  simp [counterIn]

end counterIn

/-- A round that has begun and not stored the counter yet. -/
def pending : Pc → ℕ
  | .compareExchange | .syncWait | .asleep | .readCounter | .writeCounter _ => 1
  | .outside | .store | .syncWake => 0

/-- What the threads have stored, in rounds. The memory may be behind by the stores that
are in buffers. -/
structure Counts (n : ℕ) (sync : BufferedState Thread) (left written : Thread → ℕ) : Prop where
  rounds : ∀ i, left i + pending (sync.pc i) + written i = n
  next : ∀ i, ∀ v ∈ counters (sync.mem.buffer i), v = counterIn sync.mem + 1
  stored : ∀ i, written i ≤ counterIn sync.mem + (counters (sync.mem.buffer i)).length
  total : counterIn sync.mem + (counters (sync.mem.buffer .main)).length +
    (counters (sync.mem.buffer .child)).length ≤ written .main + written .child

section Counts

variable {sync sync' : BufferedState Thread} {left left' written : Thread → ℕ}

/-- A step that stores no counter. -/
theorem Counts.congr (h : Counts n sync left written)
    (hrounds : ∀ i, left' i + pending (sync'.pc i) = left i + pending (sync.pc i))
    (hmain : counterIn sync'.mem = counterIn sync.mem)
    (hbuffer : ∀ i, counters (sync'.mem.buffer i) = counters (sync.mem.buffer i)) :
    Counts n sync' left' written := by
  refine ⟨fun i => ?_, fun i => ?_, fun i => ?_, ?_⟩
  · rw [hrounds]
    exact h.rounds i
  · rw [hbuffer, hmain]
    exact h.next i
  · rw [hbuffer, hmain]
    exact h.stored i
  · rw [hbuffer, hbuffer, hmain]
    exact h.total

theorem pending_update {pc : Thread → Pc} {v : Pc} (h : pending v = pending (pc i)) (j : Thread) :
    pending (update pc i v j) = pending (pc j) := by
  rcases eq_or_ne j i with rfl | hj
  · rw [update_self, h]
  · rw [update_of_ne hj]

theorem Counts.writeCounter (h : Counts n sync left written) {seen : ℕ}
    (hpc : sync.pc i = .writeCounter seen) (hseen : seen = counterIn sync.mem)
    (hempty : sync.mem.buffer i = []) :
    Counts n { sync.goto i .store with mem := sync.mem.store i .counter (seen + 1) } left
      (update written i (written i + 1)) := by
  have hself : counters ((sync.mem.store i .counter (seen + 1)).buffer i) = [seen + 1] := by
    simp [hempty]
  have hother {j : Thread} (hj : j ≠ i) : counters
      ((sync.mem.store i .counter (seen + 1)).buffer j) = counters (sync.mem.buffer j) := by
    rw [Memory.store_buffer_of_ne hj]
  refine ⟨fun j => ?_, fun j => ?_, fun j => ?_, ?_⟩
  · have hrounds := h.rounds j
    rcases eq_or_ne j i with rfl | hj
    · simp only [hpc, pending] at hrounds
      simp only [BufferedState.goto, update_self, pending]
      omega
    · simpa [BufferedState.goto, hj] using hrounds
  · rcases eq_or_ne j i with rfl | hj
    · rw [hself]
      simp [hseen]
    · rw [hother hj]
      exact h.next j
  · have hstored := h.stored j
    change _ ≤ _ + (counters _).length
    rcases eq_or_ne j i with rfl | hj
    · rw [hself]
      simpa [hempty] using hstored
    · rw [hother hj]
      simpa [hj] using hstored
  · have htotal := h.total
    change _ + (counters _).length + (counters _).length ≤ _
    cases i with
    | main =>
        rw [hempty] at htotal
        rw [hself, hother (by decide), update_self, update_of_ne (by decide), counterIn_store]
        simp only [List.length_singleton, counters_nil, List.length_nil] at htotal ⊢
        omega
    | child =>
        rw [hempty] at htotal
        rw [hself, hother (by decide), update_self, update_of_ne (by decide), counterIn_store]
        simp only [List.length_singleton, counters_nil, List.length_nil] at htotal ⊢
        omega

theorem Counts.drain (h : Counts n sync left written) {v : ℕ} {es : List (Store CellVal)}
    (hbuffer : sync.mem.buffer i = ⟨.counter, v⟩ :: es) (hes : counters es = [])
    (hothers : ∀ j, j ≠ i → sync.mem.buffer j = []) :
    Counts n { sync with mem := sync.mem.drain i ⟨.counter, v⟩ es } left written := by
  have hv : v = counterIn sync.mem + 1 := h.next i v (by simp [hbuffer])
  have hempty (j : Thread) : counters ((sync.mem.drain i ⟨.counter, v⟩ es).buffer j) = [] := by
    rcases eq_or_ne j i with rfl | hj
    · rw [Memory.drain_buffer_self, hes]
    · rw [Memory.drain_buffer_of_ne hj, hothers j hj, counters_nil]
  refine ⟨h.rounds, fun j => ?_, fun j => ?_, ?_⟩
  · simp [hempty]
  · have hstored := h.stored j
    change _ ≤ _ + (counters _).length
    rw [hempty, counterIn_drain, hv]
    rcases eq_or_ne j i with rfl | hj
    · simpa [hbuffer, hes] using hstored
    · rw [hothers j hj] at hstored
      exact hstored.trans (by simp)
  · have htotal := h.total
    change _ + (counters _).length + (counters _).length ≤ _
    rw [hempty, hempty, counterIn_drain, hv]
    cases i with
    | main =>
        rw [hbuffer, hothers .child (by decide)] at htotal
        simpa [hes] using htotal
    | child =>
        rw [hbuffer, hothers .main (by decide)] at htotal
        simpa [hes] using htotal

end Counts

section Unbuffered

variable {sync sync' : BufferedState Thread} {left written : Thread → ℕ}
  {u : CiaSync.State Thread}

/-- What a thread has read under the mutex is still in the memory. -/
theorem seen_eq (h : Unbuffered sync u) {seen : ℕ} (hpc : sync.pc i = .writeCounter seen) :
    seen = counterIn sync.mem ∧ sync.mem.Drained i := by
  have hi : sync.mem.Drained i := h.drained hpc (by simp) (by simp)
  obtain ⟨g, hg⟩ := h.owner
  have hseen : seen = u.counter := hg.seen i seen ((h.pc_eq hi).trans hpc)
  have hview := h.view_counter hi (by simp [hpc])
  rw [Memory.view_of_drained hi] at hview
  exact ⟨hseen.trans hview.symm, hi⟩

/-- The only stores in buffers are those of the thread that has the mutex. -/
theorem drained_of_ne (h : Unbuffered sync u) (hi : sync.mem.buffer i ≠ []) (hj : j ≠ i) :
    sync.mem.buffer j = [] := by
  by_contra hne
  exact h.not_hasLock ((h.pending i).hasLock_of_ne_nil hi) hj
    ((h.pending j).hasLock_of_ne_nil hne)

theorem counters_tail (h : Unbuffered sync u) {v : ℕ} {es : List (Store CellVal)}
    (hbuffer : sync.mem.buffer i = ⟨.counter, v⟩ :: es) : counters es = [] := by
  have hpending := h.pending i
  rw [hbuffer] at hpending
  generalize sync.pc i = pc, u.pc i = pc' at hpending
  cases hpending <;> simp

theorem counts_step (h : Unbuffered sync u) (hc : Counts n sync left written)
    {a : BufferedAct Thread} (hcall : a ≠ .act .call) (hstep : BufferedStep sync (i, a) sync') :
    ∃ written', Counts n sync' left written' := by
  cases hstep with
  | call => exact absurd rfl hcall
  | compareExchange hpc hdrained =>
      refine ⟨written, hc.congr (fun j => ?_) ?_ fun j => rfl⟩
      · refine congrArg _ (pending_update ?_ j)
        split <;> simp [pending, hpc]
      · simp
  | syncWait hpc hdrained =>
      refine ⟨written, hc.congr (fun j => congrArg _ (pending_update ?_ j)) rfl fun j => rfl⟩
      split <;> simp [pending, hpc]
  | interrupted hpc | readCounter hpc =>
      refine ⟨written, hc.congr (fun j => congrArg _ (pending_update ?_ j)) rfl fun j => rfl⟩
      simp [pending, hpc]
  | writeCounter hpc =>
      obtain ⟨hseen, hi⟩ := seen_eq h hpc
      exact ⟨_, hc.writeCounter hpc hseen hi⟩
  | store hpc =>
      refine ⟨written, hc.congr (fun j => congrArg _ (pending_update ?_ j)) rfl fun j => ?_⟩
      · simp [pending, hpc]
      · rcases eq_or_ne j i with rfl | hj
        · simp
        · simp [Memory.store_buffer_of_ne hj]
  | @syncWake i woken hpc hdrained hwakes =>
      refine ⟨written, hc.congr (fun j => congrArg _ ?_) rfl fun j => rfl⟩
      by_cases hj : j ∈ woken
      · have hasleep : sync.pc j = .asleep := hwakes.asleep_of_mem j hj
        simp [hj, hasleep, pending]
      · simp only [hj, if_false]
        exact pending_update (by simp [pending, hpc]) j
  | @drain i e es hbuffer =>
      obtain ⟨loc, v⟩ := e
      cases loc with
      | counter =>
          have hne : sync.mem.buffer i ≠ [] := by simp [hbuffer]
          exact ⟨written, hc.drain hbuffer (counters_tail h hbuffer) fun j => drained_of_ne h hne⟩
      | tag =>
          refine ⟨written, hc.congr (fun j => rfl) (by simp) fun j => ?_⟩
          rcases eq_or_ne j i with rfl | hj
          · simp [hbuffer]
          · simp [Memory.drain_buffer_of_ne hj]

end Unbuffered

/-! ### What is printed -/

structure Inv (n : ℕ) (s : State) : Prop where
  sync : ∃ u, Unbuffered s.sync u
  counts : ∃ written, Counts n s.sync s.left written
  printed : ∀ v, s.stage = .printed v → n ≤ v ∧ v ≤ 2 * n

/-- `main` has stored all its rounds, and sees of the other thread's what has reached the
memory. -/
theorem Inv.bounds (h : Inv n s) (hleft : s.left .main = 0)
    (hpc : s.sync.pc .main = .outside) {v : ℕ} (hv : s.sync.mem.view .main .counter = v) :
    n ≤ v ∧ v ≤ 2 * n := by
  obtain ⟨u, hu⟩ := h.sync
  obtain ⟨written, hc⟩ := h.counts
  have hdrained : s.sync.mem.Drained .main := hu.drained hpc (by simp) (by simp)
  have hmemory : v = counterIn s.sync.mem := by
    rw [← hv, Memory.view_of_drained hdrained, counterIn]
  have hbuffer : s.sync.mem.buffer .main = [] := hdrained
  have hmain := hc.rounds .main
  have hchild := hc.rounds .child
  have hstored := hc.stored .main
  have htotal := hc.total
  rw [hleft, hpc, pending] at hmain
  rw [hbuffer, counters_nil, List.length_nil] at hstored htotal
  omega

theorem Inv.step {a : Act} (h : Inv n s) (hstep : Step s a t) : Inv n t := by
  cases hstep with
  | create | createFails => exact ⟨h.sync, h.counts, nofun⟩
  | @round i k sync hruns hleft hcall =>
      obtain ⟨u, hu⟩ := h.sync
      obtain ⟨u', -, hu'⟩ := unbuffered_step hu hcall
      obtain ⟨written, hc⟩ := h.counts
      refine ⟨⟨u', hu'⟩, ⟨written, ?_⟩, h.printed⟩
      cases hcall with
      | call hpc =>
          refine hc.congr (fun j => ?_) rfl fun j => rfl
          rcases eq_or_ne j i with rfl | hj
          · simp [BufferedState.goto, hpc, hleft, pending]
          · simp [BufferedState.goto, hj]
  | body hruns hcall hone =>
      obtain ⟨u, hu⟩ := h.sync
      obtain ⟨u', -, hu'⟩ := unbuffered_step hu hone
      obtain ⟨written, hc⟩ := h.counts
      exact ⟨⟨u', hu'⟩, counts_step hu hc hcall hone, h.printed⟩
  | print hstage hleft hpc =>
      refine ⟨h.sync, h.counts, fun v hv => ?_⟩
      exact h.bounds hleft hpc (Stage.printed.inj hv)

theorem inv_init (h : (program n).init s) : Inv n s := by
  obtain ⟨hinit, hleft, hstage⟩ := h
  obtain ⟨u, -, hu⟩ := bufferedThreads_simulate.init s.sync hinit
  obtain ⟨-, hcounter, hdrained, hpc⟩ := hinit
  have hbuffer (i : Thread) : s.sync.mem.buffer i = [] := hdrained i
  refine ⟨⟨u, hu⟩, ⟨fun _ => 0, ?_⟩, fun v hv => ?_⟩
  · refine ⟨fun i => ?_, fun i => ?_, fun i => ?_, ?_⟩
    · simp [hleft, hpc, pending]
    · simp [hbuffer]
    · exact Nat.zero_le _
    · simp [hbuffer, counterIn, hcounter]
  · rw [hstage] at hv
    cases hv

/-! ### Runs without contention -/

/-- Both threads are between two rounds, and the counter is `c`. -/
structure Quiet (c : ℕ) (s : State) : Prop where
  pc : ∀ i, s.sync.pc i = .outside
  drained : ∀ i, s.sync.mem.buffer i = []
  tag : s.sync.mem.main .tag = mutexFree
  counter : s.sync.mem.main .counter = c
  stage : s.stage = .counting

/-- A thread on its way through a round, alone. -/
def alone (s : State) (i : Thread) (m : Memory Thread CellVal) (pc : Pc) : BufferedState Thread :=
  ⟨m, update s.sync.pc i pc⟩

@[simp] theorem goto_alone (m : Memory Thread CellVal) (pc pc' : Pc) :
    (alone s i m pc).goto i pc' = alone s i m pc' := by
  simp [alone, BufferedState.goto]

theorem alone_pc (m : Memory Thread CellVal) (pc : Pc) : (alone s i m pc).pc i = pc :=
  update_self ..

/-- One round of a thread, from its call of `cia_mutex_lock` on. -/
theorem exists_body {c : ℕ} (h : Quiet c s) :
    ∃ tr sync, (∀ a ∈ tr, a.1 = i ∧ a.2 ≠ .act .call) ∧
      (bufferedThreads Thread).Run (s.sync.goto i .compareExchange) tr sync ∧
      (∀ j, sync.pc j = .outside) ∧ (∀ j, sync.mem.buffer j = []) ∧
      sync.mem.main .tag = mutexFree ∧ sync.mem.main .counter = c + 1 := by
  have hfree : s.sync.mutex.tag = mutexFree := h.tag
  have hdrained : s.sync.mem.Drained i := h.drained i
  let m₁ := s.sync.mem.write .tag mutexLock
  let m₂ := m₁.store i .counter (c + 1)
  let m₃ := m₂.store i .tag mutexFree
  let m₄ := m₃.drain i ⟨.counter, c + 1⟩ [⟨.tag, mutexFree⟩]
  let m₅ := m₄.drain i ⟨.tag, mutexFree⟩ []
  have hlock : BufferedStep (s.sync.goto i .compareExchange)
      (i, .act (.compareExchange true)) (alone s i m₁ .readCounter) := by
    have hstep := BufferedStep.compareExchange (s := s.sync.goto i .compareExchange) (i := i)
      (by simp [BufferedState.goto]) hdrained
    have htry : ciaMutexLockTry (s.sync.goto i .compareExchange).mutex = (⟨mutexLock⟩, true) :=
      ciaMutexLockTry_free hfree
    rw [htry] at hstep
    simpa [BufferedState.goto, alone] using hstep
  have hread : BufferedStep (alone s i m₁ .readCounter) (i, .act .readCounter)
      (alone s i m₁ (.writeCounter c)) := by
    have hview : (alone s i m₁ .readCounter).mem.view i .counter = c := by
      have hempty : (alone s i m₁ .readCounter).mem.Drained i := hdrained
      rw [Memory.view_of_drained hempty]
      simpa [alone, m₁] using h.counter
    have hstep := BufferedStep.readCounter (alone_pc (s := s) (i := i) m₁ .readCounter)
    rwa [hview, goto_alone] at hstep
  have hwrite : BufferedStep (alone s i m₁ (.writeCounter c)) (i, .act .writeCounter)
      (alone s i m₂ .store) := by
    have hstep := BufferedStep.writeCounter (alone_pc (s := s) (i := i) m₁ (.writeCounter c))
    rwa [goto_alone] at hstep
  have hrelease : BufferedStep (alone s i m₂ .store) (i, .act .store)
      (alone s i m₃ .syncWake) := by
    have hstep := BufferedStep.store (alone_pc (s := s) (i := i) m₂ .store)
    rwa [goto_alone] at hstep
  have hempty : m₁.buffer i = [] := hdrained
  have hcounter : BufferedStep (alone s i m₃ .syncWake) (i, .drain .counter)
      (alone s i m₄ .syncWake) :=
    .drain (e := ⟨.counter, c + 1⟩) (by simp [alone, m₃, m₂, hempty])
  have htag : BufferedStep (alone s i m₄ .syncWake) (i, .drain .tag)
      (alone s i m₅ .syncWake) :=
    .drain (e := ⟨.tag, mutexFree⟩) (by simp [alone, m₄])
  have hawake (j : Thread) : ¬ (alone s i m₅ .syncWake).Asleep j := by
    rcases eq_or_ne j i with rfl | hj
    · simp [BufferedState.Asleep, alone]
    · simp [BufferedState.Asleep, alone, hj, h.pc]
  have hwake : BufferedStep (alone s i m₅ .syncWake) (i, .act (.syncWake ∅))
      (alone s i m₅ .outside) := by
    have hstep := BufferedStep.syncWake (alone_pc (s := s) (i := i) m₅ .syncWake)
      (by simp [Memory.Drained, alone, m₅]) (Futex.wakes_none 1 hawake)
    simpa [alone, BufferedState.goto] using hstep
  refine ⟨_, _, ?_, .cons hlock (.cons hread (.cons hwrite (.cons hrelease (.cons hcounter
    (.cons htag (.single hwake)))))), fun j => ?_, fun j => ?_, ?_, ?_⟩
  · simp
  · rcases eq_or_ne j i with rfl | hj
    · exact alone_pc ..
    · simp [alone, hj, h.pc]
  · rcases eq_or_ne j i with rfl | hj
    · simp [alone, m₅]
    · simp [alone, m₅, m₄, m₃, m₂, m₁, hj, h.drained]
  · simp [alone, m₅]
  · simp [alone, m₅, m₄]

theorem run_body {m : ℕ} {tr : List (Thread × BufferedAct Thread)}
    {sync sync' : BufferedState Thread} (hruns : s.stage.Runs i)
    (htr : ∀ a ∈ tr, a.1 = i ∧ a.2 ≠ .act .call)
    (h : (bufferedThreads Thread).Run sync tr sync') :
    (program m).Run { s with sync := sync } (tr.map fun a => .body a.1 a.2)
      { s with sync := sync' } := by
  induction h with
  | refl => exact .refl _
  | @snoc t u tr a hrun hstep ih =>
      obtain ⟨hi, hcall⟩ := htr a (by simp)
      rw [List.map_append]
      refine (ih fun b hb => htr b (List.mem_append_left _ hb)).snoc (.body ?_ hcall hstep)
      rwa [hi]

theorem exists_round {c k m : ℕ} (h : Quiet c s) (hleft : s.left i = k + 1) :
    ∃ tr t, (program m).Run s tr t ∧ Quiet (c + 1) t ∧ t.left = update s.left i k := by
  have hruns : s.stage.Runs i := by
    rw [h.stage]
    trivial
  obtain ⟨tr, sync, htr, hrun, hpc, hdrained, htag, hcounter⟩ := exists_body (i := i) h
  let begun : State := { s with left := update s.left i k }
  have hround : Step s (.round i) { begun with sync := s.sync.goto i .compareExchange } :=
    .round hruns hleft (.call (h.pc i))
  have hbody := run_body (s := begun) (m := m) hruns htr hrun
  exact ⟨_, _, .cons hround hbody, ⟨hpc, hdrained, htag, hcounter, h.stage⟩, rfl⟩

theorem exists_rounds {c m : ℕ} (k l : ℕ) (h : Quiet c s) (hleft : s.left i = k + l) :
    ∃ tr t, (program m).Run s tr t ∧ Quiet (c + k) t ∧ t.left = update s.left i l := by
  induction k generalizing s c with
  | zero => exact ⟨[], s, .refl s, h, by rw [← Nat.zero_add l, ← hleft, update_eq_self]⟩
  | succ k ih =>
      obtain ⟨tr, t, hrun, ht, htleft⟩ := exists_round h (hleft.trans (Nat.add_right_comm k 1 l))
      obtain ⟨tr', u, hrun', hu, huleft⟩ := ih ht (by rw [htleft, update_self])
      refine ⟨_, u, hrun.trans hrun', ?_, ?_⟩
      · rwa [Nat.add_assoc, Nat.add_comm 1 k] at hu
      · rw [huleft, htleft, update_idem]

/-! ### Main result -/

/-- `main` can print each number of rounds from its own to those of both, and no other. -/
theorem printsCounter_iff (n v : ℕ) : Prints n v ↔ n ≤ v ∧ v ≤ 2 * n := by
  constructor
  · rintro ⟨tr, s, hs, hstage⟩
    have hinv : Inv n s := hs.invariant (fun _ => inv_init) fun _ _ _ => Inv.step
    exact hinv.printed v hstage
  · rintro ⟨hge, hle⟩
    obtain ⟨k, rfl⟩ := Nat.exists_eq_add_of_le hge
    let cells : ∀ loc, CellVal loc := @Cell.rec CellVal mutexFree (0 : ℕ)
    let start : State := ⟨⟨⟨cells, fun _ => []⟩, fun _ => .outside⟩, fun _ => n, .creating⟩
    have hinit : (program n).init start :=
      ⟨⟨⟨⟨mutexCont⟩, rfl⟩, rfl, fun _ => rfl, fun _ => rfl⟩, rfl, rfl⟩
    have hquiet : Quiet 0 { start with stage := .counting } :=
      ⟨fun _ => rfl, fun _ => rfl, rfl, rfl, rfl⟩
    -- the other thread gets ahead by `k` rounds, and `main` then makes all its own
    obtain ⟨tr, t, hrun, ht, htleft⟩ := exists_rounds (i := .child) (m := n) k (n - k) hquiet
      (by simp [start]; omega)
    obtain ⟨tr', u, hrun', hu, huleft⟩ := exists_rounds (i := .main) (m := n) n 0 ht
      (by simp [htleft, start])
    have hdone : u.left .main = 0 := by rw [huleft, update_self]
    have hprint := Step.print hu.stage hdone (hu.pc .main)
    have hdrained : u.sync.mem.Drained .main := hu.drained .main
    rw [Memory.view_of_drained hdrained, hu.counter] at hprint
    refine ⟨_, _, ⟨start, hinit, .cons (.create rfl) (hrun.trans (hrun'.snoc hprint))⟩, ?_⟩
    simp [Nat.add_comm]

end Ciabatta.Programs.Threaded
