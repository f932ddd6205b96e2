import Ciabatta.CiaSync.MutexWakeups
import Ciabatta.Lib.StoreBuffer
import Mathlib.Data.Fin.Basic

/-!
`Cia_Mutex` on x86-64. The releasing store of `cia_mutex_unlock` and the store to
the counter are plain `mov` instructions there, which stay in the store buffer of
their core for a while. The compare-exchange is a locked instruction, and the
kernel's part of a futex call begins with a full barrier. The threads then
simulate those of `Ciabatta.CiaSync.Mutex`, where each store is there at once: the
mutex is released not when the store is executed but when it reaches the memory.
-/

namespace Ciabatta.CiaSync

open Transition System StoreBuffer

inductive Cell
  | tag
  | counter
  deriving DecidableEq

abbrev CellVal : Cell → Type
  | .tag => BitVec 32
  | .counter => ℕ

structure BufferedState (ι : Type*) where
  mem : Memory ι CellVal
  pc : ι → Pc

/-- The steps of the threads, and one of the hardware: a store reaches its place. -/
inductive BufferedAct (ι : Type*)
  | act (a : Act ι)
  | drain (loc : Cell)

variable {ι : Type*}

namespace BufferedState

/-- The mutex as it stands in the memory. -/
def mutex (s : BufferedState ι) : CiaMutex := ⟨s.mem.main .tag⟩

def Asleep (s : BufferedState ι) (i : ι) : Prop := s.pc i = .asleep

variable [DecidableEq ι]

def goto (s : BufferedState ι) (i : ι) (pc : Pc) : BufferedState ι :=
  { s with pc := Function.update s.pc i pc }

end BufferedState

variable [DecidableEq ι]

inductive BufferedStep : BufferedState ι → ι × BufferedAct ι → BufferedState ι → Prop
  | call {s : BufferedState ι} {i : ι} (h : s.pc i = .outside) :
      BufferedStep s (i, .act .call) (s.goto i .compareExchange)
  | compareExchange {s : BufferedState ι} {i : ι} (h : s.pc i = .compareExchange)
      (hdrained : s.mem.Drained i) :
      BufferedStep s (i, .act (.compareExchange (ciaMutexLockTry s.mutex).2))
        { s.goto i (if (ciaMutexLockTry s.mutex).2 then .readCounter else .syncWait) with
          mem := s.mem.write .tag (ciaMutexLockTry s.mutex).1.tag }
  | syncWait {s : BufferedState ι} {i : ι} (h : s.pc i = .syncWait)
      (hdrained : s.mem.Drained i) :
      BufferedStep s (i, .act .syncWait)
        (s.goto i (if Futex.waitSleeps s.mutex.tag mutexLock then .asleep
          else .compareExchange))
  | interrupted {s : BufferedState ι} {i : ι} (h : s.pc i = .asleep) :
      BufferedStep s (i, .act .interrupted) (s.goto i .compareExchange)
  | readCounter {s : BufferedState ι} {i : ι} (h : s.pc i = .readCounter) :
      BufferedStep s (i, .act .readCounter)
        (s.goto i (.writeCounter (s.mem.view i .counter)))
  | writeCounter {s : BufferedState ι} {i : ι} {seen : ℕ} (h : s.pc i = .writeCounter seen) :
      BufferedStep s (i, .act .writeCounter)
        { s.goto i .store with mem := s.mem.store i .counter (seen + 1) }
  | store {s : BufferedState ι} {i : ι} (h : s.pc i = .store) :
      BufferedStep s (i, .act .store)
        { s.goto i .syncWake with mem := s.mem.store i .tag mutexFree }
  | syncWake {s : BufferedState ι} {i : ι} {woken : Finset ι} (h : s.pc i = .syncWake)
      (hdrained : s.mem.Drained i) (hwakes : Futex.Wakes 1 s.Asleep woken) :
      BufferedStep s (i, .act (.syncWake woken))
        { s.goto i .outside with
          pc := fun j => if j ∈ woken then .compareExchange
            else Function.update s.pc i .outside j }
  | drain {s : BufferedState ι} {i : ι} {e : Store CellVal} {es : List (Store CellVal)}
      (h : s.mem.buffer i = e :: es) :
      BufferedStep s (i, .drain e.loc) { s with mem := s.mem.drain i e es }

/-- The threads start outside, with the stores of `cia_mutex_init` in the memory. -/
def bufferedThreads (ι : Type*) [DecidableEq ι] :
    System (BufferedState ι) (ι × BufferedAct ι) where
  init s := (∃ mutex, s.mutex = ciaMutexInit mutex) ∧ s.mem.main .counter = 0 ∧
    (∀ i, s.mem.Drained i) ∧ ∀ i, s.pc i = .outside
  step := BufferedStep

/-! ### The simulation -/

/-- The steps of the threads without buffers that a step amounts to. -/
def unbuffer : ι × BufferedAct ι → List (ι × Act ι)
  | (_, .act .store) => []
  | (i, .act a) => [(i, a)]
  | (i, .drain .tag) => [(i, .store)]
  | (_, .drain .counter) => []

/-- A thread with its buffer, and where it stands without one, when the counter is
`n` there: it has not released the mutex as long as the store is buffered. -/
inductive Pending (n : ℕ) : Pc → List (Store CellVal) → Pc → Prop
  | drained (pc : Pc) : Pending n pc [] pc
  | counter : Pending n .store [⟨.counter, n⟩] .store
  | both : Pending n .syncWake [⟨.counter, n⟩, ⟨.tag, mutexFree⟩] .store
  | tag : Pending n .syncWake [⟨.tag, mutexFree⟩] .store

/-- The simulation relation. The memory is behind with the counter only as long as
its new value is in a buffer. -/
structure Unbuffered (s : BufferedState ι) (t : State ι) : Prop where
  mutex : t.mutex = s.mutex
  pending : ∀ i, Pending t.counter (s.pc i) (s.mem.buffer i) (t.pc i)
  counter : s.mem.main .counter = t.counter ∨ ∃ i, (⟨.counter, t.counter⟩ : Store CellVal)
    ∈ s.mem.buffer i
  owner : ∃ g, Refines t g

section Pending

variable {n n' : ℕ} {pc pc' : Pc} {es : List (Store CellVal)}

theorem Pending.eq_of_drained (h : Pending n pc [] pc') : pc' = pc := by
  cases h
  rfl

theorem Pending.hasLock_of_ne_nil (h : Pending n pc es pc') (hes : es ≠ []) : pc'.HasLock := by
  cases h with
  | drained => exact absurd rfl hes
  | counter | both | tag => exact hasLock_store

/-- Only a thread that has stored has a buffer that is not empty. -/
theorem Pending.drained_of_pc (h : Pending n pc es pc') (hstore : pc ≠ .store)
    (hwake : pc ≠ .syncWake) : es = [] ∧ pc' = pc := by
  cases h with
  | drained => exact ⟨rfl, rfl⟩
  | counter => exact absurd rfl hstore
  | both | tag => exact absurd rfl hwake

theorem Pending.hasLock (h : Pending n pc es pc') (hpc : pc.HasLock) : pc'.HasLock := by
  cases h with
  | drained => exact hpc
  | counter | both | tag => exact hasLock_store

/-- The buffers of the threads that do not have the lock are empty, whatever the
counter is. -/
theorem Pending.of_not_hasLock (h : Pending n pc es pc') (hpc : ¬ pc'.HasLock) :
    Pending n' pc es pc' := by
  cases h with
  | drained => exact .drained pc
  | counter | both | tag => exact absurd hasLock_store hpc

end Pending

variable {s s' : BufferedState ι} {t t' : State ι} {i j : ι}

/-- A thread that moves on with its buffer. -/
theorem pending_update {n : ℕ} {pc pc' : ι → Pc} {buffer : ι → List (Store CellVal)}
    {v v' : Pc} {es : List (Store CellVal)} (hi : Pending n v es v')
    (hothers : ∀ j, j ≠ i → Pending n (pc j) (buffer j) (pc' j)) (j : ι) :
    Pending n (Function.update pc i v j) (Function.update buffer i es j)
      (Function.update pc' i v' j) := by
  rcases eq_or_ne j i with rfl | hj
  · simpa using hi
  · simpa [Function.update_of_ne hj] using hothers j hj

namespace Unbuffered

omit [DecidableEq ι] in
/-- The other threads, once one has the lock. -/
theorem not_hasLock (h : Unbuffered s t) (hi : (t.pc i).HasLock) (hj : j ≠ i) :
    ¬ (t.pc j).HasLock := by
  obtain ⟨g, hg⟩ := h.owner
  exact hg.not_hasLock ((hg.hasLock i).mp hi) hj

theorem owner_of_step (h : Unbuffered s t) {a : ι × Act ι} (hstep : Step t a t') :
    ∃ g, Refines t' g := by
  obtain ⟨g, hg⟩ := h.owner
  obtain ⟨g', -, hg'⟩ := refines_step hg hstep
  exact ⟨g', hg'⟩

omit [DecidableEq ι] in
/-- A thread with nothing to drain stands at the same place in both. -/
theorem pc_eq (h : Unbuffered s t) (hi : s.mem.Drained i) : t.pc i = s.pc i := by
  have hpending := h.pending i
  rw [hi] at hpending
  exact hpending.eq_of_drained

omit [DecidableEq ι] in
theorem drained (h : Unbuffered s t) {pc : Pc} (hpc : s.pc i = pc) (hstore : pc ≠ .store)
    (hwake : pc ≠ .syncWake) : s.mem.Drained i := by
  subst hpc
  exact ((h.pending i).drained_of_pc hstore hwake).1

omit [DecidableEq ι] in
/-- The owner of the lock sees the counter, and so does everybody when it has been drained. -/
theorem view_counter (h : Unbuffered s t) (hi : s.mem.Drained i) (hlock : (s.pc i).HasLock) :
    s.mem.view i .counter = t.counter := by
  rw [Memory.view_of_drained hi]
  rcases h.counter with hmain | ⟨j, hj⟩
  · exact hmain
  · have hne : s.mem.buffer j ≠ [] := List.ne_nil_of_mem hj
    have hji : j ≠ i := by
      rintro rfl
      exact hne hi
    have hown : (t.pc i).HasLock := by
      rw [h.pc_eq hi]
      exact hlock
    exact absurd ((h.pending j).hasLock_of_ne_nil hne) (h.not_hasLock hown hji)

/-- A thread with nothing to drain may go anywhere, as long as it does so in both. -/
theorem pending_goto (h : Unbuffered s t) (hi : s.mem.Drained i) (pc : Pc) (j : ι) :
    Pending t.counter (Function.update s.pc i pc j) (s.mem.buffer j)
      (Function.update t.pc i pc j) := by
  have hbuffer : s.mem.buffer = Function.update s.mem.buffer i [] := by
    rw [← hi, Function.update_eq_self]
  rw [hbuffer]
  exact pending_update (.drained pc) (fun j _ => h.pending j) j

theorem goto (h : Unbuffered s t) (hi : s.mem.Drained i) {pc : Pc} {a : ι × Act ι}
    (hstep : Step t a (t.goto i pc)) : Unbuffered (s.goto i pc) (t.goto i pc) where
  mutex := h.mutex
  counter := h.counter
  owner := h.owner_of_step hstep
  pending := h.pending_goto hi pc

theorem compareExchange (h : Unbuffered s t) (hpc : s.pc i = .compareExchange)
    (hi : s.mem.Drained i) :
    ∃ t', Step t (i, .compareExchange (ciaMutexLockTry s.mutex).2) t' ∧
      Unbuffered { s.goto i (if (ciaMutexLockTry s.mutex).2 then .readCounter else .syncWait) with
        mem := s.mem.write .tag (ciaMutexLockTry s.mutex).1.tag } t' := by
  have hstep := Step.compareExchange (s := t) ((h.pc_eq hi).trans hpc)
  have howner := h.owner_of_step hstep
  rw [h.mutex] at hstep howner
  refine ⟨_, hstep, ⟨?_, h.pending_goto hi _, ?_, howner⟩⟩
  · simp [BufferedState.mutex]
  · simpa [State.goto] using h.counter

theorem writeCounter (h : Unbuffered s t) {seen : ℕ} (hpc : s.pc i = .writeCounter seen) :
    ∃ t', Step t (i, .writeCounter) t' ∧
      Unbuffered { s.goto i .store with mem := s.mem.store i .counter (seen + 1) } t' := by
  have hi : s.mem.Drained i := h.drained hpc (by simp) (by simp)
  have hpct : t.pc i = .writeCounter seen := (h.pc_eq hi).trans hpc
  have hstep := Step.writeCounter (s := t) hpct
  refine ⟨_, hstep, ⟨h.mutex, ?_, .inr ⟨i, ?_⟩, h.owner_of_step hstep⟩⟩
  · intro j
    change Pending (seen + 1) (Function.update s.pc i _ j)
      (Function.update s.mem.buffer i (s.mem.buffer i ++ _) j) (Function.update t.pc i _ j)
    rw [show s.mem.buffer i = [] from hi]
    refine pending_update .counter (fun j hj => ?_) j
    exact (h.pending j).of_not_hasLock (h.not_hasLock (by simp [hpct]) hj)
  · simp

theorem store (h : Unbuffered s t) (hpc : s.pc i = .store) :
    Unbuffered { s.goto i .syncWake with mem := s.mem.store i .tag mutexFree } t := by
  have hpending := h.pending i
  rw [hpc] at hpending
  have hnew : Pending t.counter .syncWake (s.mem.buffer i ++ [⟨.tag, mutexFree⟩]) (t.pc i) := by
    generalize s.mem.buffer i = es, t.pc i = pc at hpending
    cases hpending with
    | drained => exact .tag
    | counter => exact .both
  refine ⟨h.mutex, fun j => ?_, ?_, h.owner⟩
  · have hpcs : t.pc = Function.update t.pc i (t.pc i) := by simp
    change Pending t.counter (Function.update s.pc i _ j)
      (Function.update s.mem.buffer i (s.mem.buffer i ++ _) j) (t.pc j)
    rw [hpcs]
    exact pending_update hnew (fun j _ => h.pending j) j
  · refine h.counter.imp_right fun ⟨j, hj⟩ => ⟨j, ?_⟩
    rcases eq_or_ne j i with rfl | hji
    · simp [hj]
    · simpa [Memory.store_buffer_of_ne hji] using hj

omit [DecidableEq ι] in
theorem asleep_iff (h : Unbuffered s t) : t.Asleep j ↔ s.Asleep j := by
  have hpending := h.pending j
  rw [State.Asleep, BufferedState.Asleep]
  generalize s.pc j = pc, s.mem.buffer j = es, t.pc j = pc' at hpending
  cases hpending <;> simp

theorem syncWake (h : Unbuffered s t) {woken : Finset ι} (hpc : s.pc i = .syncWake)
    (hi : s.mem.Drained i) (hwakes : Futex.Wakes 1 s.Asleep woken) :
    ∃ t', Step t (i, .syncWake woken) t' ∧
      Unbuffered { s.goto i .outside with
        pc := fun j => if j ∈ woken then .compareExchange
          else Function.update s.pc i .outside j } t' := by
  have hasleep : t.Asleep = s.Asleep := funext fun j => propext h.asleep_iff
  have hstep := Step.syncWake (s := t) ((h.pc_eq hi).trans hpc) (hasleep ▸ hwakes)
  refine ⟨_, hstep, ⟨h.mutex, fun j => ?_, h.counter, h.owner_of_step hstep⟩⟩
  change Pending t.counter (if j ∈ woken then _ else Function.update s.pc i _ j)
    (s.mem.buffer j) (if j ∈ woken then _ else Function.update t.pc i _ j)
  by_cases hj : j ∈ woken
  · have hjpc : s.pc j = .asleep := hwakes.asleep_of_mem j hj
    have hdrained : s.mem.buffer j = [] := h.drained hjpc (by simp) (by simp)
    rw [if_pos hj, if_pos hj, hdrained]
    exact .drained _
  · rw [if_neg hj, if_neg hj]
    exact h.pending_goto hi _ j

/-- A drained store to the counter changes nothing without buffers; that to the tag is
the one that releases the mutex. -/
theorem drain (h : Unbuffered s t) {e : Store CellVal} {es : List (Store CellVal)}
    (he : s.mem.buffer i = e :: es) :
    ∃ t', (threads ι).Run t (unbuffer (i, .drain e.loc)) t' ∧
      Unbuffered { s with mem := s.mem.drain i e es } t' := by
  have hpending := h.pending i
  have hpcs : s.pc = Function.update s.pc i (s.pc i) := by simp
  have hpct : t.pc = Function.update t.pc i (t.pc i) := by simp
  rw [he] at hpending
  generalize hpc : s.pc i = pc, hpc' : t.pc i = pc' at hpending
  cases hpending with
  | counter =>
      refine ⟨t, .refl t, ⟨h.mutex, fun j => ?_, .inl (by simp), h.owner⟩⟩
      change Pending t.counter (s.pc j) (Function.update s.mem.buffer i [] j) (t.pc j)
      rw [hpcs, hpct, hpc, hpc']
      exact pending_update (.drained _) (fun j _ => h.pending j) j
  | both =>
      refine ⟨t, .refl t, ⟨h.mutex, fun j => ?_, .inl (by simp), h.owner⟩⟩
      change Pending t.counter (s.pc j) (Function.update s.mem.buffer i _ j) (t.pc j)
      rw [hpcs, hpct, hpc, hpc']
      exact pending_update .tag (fun j _ => h.pending j) j
  | tag =>
      have hstep := Step.store (s := t) hpc'
      refine ⟨_, .single hstep, ⟨?_, fun j => ?_, ?_, h.owner_of_step hstep⟩⟩
      · simp [BufferedState.mutex, ciaMutexUnlockStore]
      · change Pending t.counter (s.pc j) (Function.update s.mem.buffer i [] j)
          (Function.update t.pc i .syncWake j)
        rw [hpcs, hpc]
        exact pending_update (.drained _) (fun j _ => h.pending j) j
      · refine h.counter.imp (fun hmain => by simpa [State.goto] using hmain) fun ⟨j, hj⟩ => ⟨j, ?_⟩
        have hji : j ≠ i := by
          rintro rfl
          simp [he] at hj
        simpa [State.goto, Memory.drain_buffer_of_ne hji] using hj

end Unbuffered

theorem unbuffered_step {a : ι × BufferedAct ι} (h : Unbuffered s t)
    (hstep : BufferedStep s a s') :
    ∃ t', (threads ι).Run t (unbuffer a) t' ∧ Unbuffered s' t' := by
  cases hstep with
  | call hpc =>
      have hi := h.drained hpc (by simp) (by simp)
      have hone := Step.call (s := t) ((h.pc_eq hi).trans hpc)
      exact ⟨_, .single hone, h.goto hi hone⟩
  | compareExchange hpc hi =>
      obtain ⟨t', hone, ht'⟩ := h.compareExchange hpc hi
      exact ⟨t', .single hone, ht'⟩
  | syncWait hpc hi =>
      have hone := Step.syncWait (s := t) ((h.pc_eq hi).trans hpc)
      rw [h.mutex] at hone
      exact ⟨_, .single hone, h.goto hi hone⟩
  | interrupted hpc =>
      have hi := h.drained hpc (by simp) (by simp)
      have hone := Step.interrupted (s := t) ((h.pc_eq hi).trans hpc)
      exact ⟨_, .single hone, h.goto hi hone⟩
  | readCounter hpc =>
      have hi := h.drained hpc (by simp) (by simp)
      have hone := Step.readCounter (s := t) ((h.pc_eq hi).trans hpc)
      rw [h.view_counter hi (by simp [hpc])]
      exact ⟨_, .single hone, h.goto hi hone⟩
  | writeCounter hpc =>
      obtain ⟨t', hone, ht'⟩ := h.writeCounter hpc
      exact ⟨t', .single hone, ht'⟩
  | store hpc => exact ⟨t, .refl t, h.store hpc⟩
  | syncWake hpc hi hwakes =>
      obtain ⟨t', hone, ht'⟩ := h.syncWake hpc hi hwakes
      exact ⟨t', .single hone, ht'⟩
  | drain he => exact h.drain he

/-- The threads on x86-64 do what those without store buffers can do. -/
theorem bufferedThreads_simulate :
    Simulation (bufferedThreads ι) (threads ι) unbuffer Unbuffered where
  init := by
    rintro s ⟨hmutex, hcounter, hdrained, hpc⟩
    let t : State ι := ⟨s.mutex, 0, s.pc⟩
    have ht : (threads ι).init t := ⟨hmutex, rfl, hpc⟩
    obtain ⟨g, -, hg⟩ := threads_simulate.init t ht
    refine ⟨t, ht, ⟨rfl, fun i => ?_, .inl hcounter, g, hg⟩⟩
    rw [hdrained i]
    exact .drained _
  step := fun _ _ _ _ h hstep => unbuffered_step h hstep

/-! ### What the mutex keeps on x86-64 -/

/-- The steps that execute the store of an incremented counter. -/
def isBufferedIncrement : ι × BufferedAct ι → Bool
  | (_, .act .writeCounter) => true
  | _ => false

omit [DecidableEq ι] in
theorem countP_flatMap_unbuffer (tr : List (ι × BufferedAct ι)) :
    (tr.flatMap unbuffer).countP isIncrement = tr.countP isBufferedIncrement := by
  have hone (a : ι × BufferedAct ι) :
      (unbuffer a).countP isIncrement = (isBufferedIncrement a).toNat := by
    rcases a with ⟨i, a | loc⟩
    · cases a <;> rfl
    · cases loc <;> rfl
  induction tr with
  | nil => rfl
  | cons a tr ih =>
      rw [List.flatMap_cons, List.countP_append, ih, hone, List.countP_cons]
      cases isBufferedIncrement a <;> simp [Nat.add_comm]

variable {tr : List (ι × BufferedAct ι)}

theorem exists_unbuffered (h : (bufferedThreads ι).Reaches tr s) :
    ∃ t g, Unbuffered s t ∧ Refines t g ∧ WakeInv t ∧
      t.counter = tr.countP isBufferedIncrement := by
  obtain ⟨t, ht, hst⟩ := bufferedThreads_simulate.reaches h
  obtain ⟨g, hg, htg⟩ := threads_simulate.reaches ht
  refine ⟨t, g, hst, htg, ?_, ?_⟩
  · refine ht.invariant (I := WakeInv) ?_ fun s a t hI hstep => wakeInv_step hI hstep
    rintro s ⟨-, -, hpc⟩ - ⟨i, hi⟩
    simp [State.Asleep, hpc] at hi
  · rw [htg.counter, guarded_count hg, countP_flatMap_observe, countP_flatMap_unbuffer]

/-- Mutual exclusion with store buffers, and no update lost: who is about to read the
counter sees all increments, and once all is drained they are in the memory. -/
theorem buffered_exclusion (h : (bufferedThreads ι).Reaches tr s) :
    (∀ i j, (s.pc i).HasLock → (s.pc j).HasLock → i = j) ∧
      (∀ i, (s.pc i).HasLock → s.mem.main .tag = mutexLock) ∧
      (∀ i, s.pc i = .readCounter →
        s.mem.view i .counter = tr.countP isBufferedIncrement) ∧
      ((∀ i, s.mem.Drained i) → s.mem.main .counter = tr.countP isBufferedIncrement) := by
  obtain ⟨t, g, hst, htg, -, hcount⟩ := exists_unbuffered h
  have hown {i : ι} (hi : (s.pc i).HasLock) : g.owner = some i :=
    (htg.hasLock i).mp ((hst.pending i).hasLock hi)
  refine ⟨fun i j hi hj => ?_, fun i hi => ?_, fun i hi => ?_, fun hdrained => ?_⟩
  · exact Option.some.inj ((hown hi).symm.trans (hown hj))
  · have htag : t.mutex.tag = mutexLock := by
      rw [htg.tag, hown hi]
      rfl
    rw [hst.mutex] at htag
    exact htag
  · rw [hst.view_counter (hst.drained hi (by simp) (by simp)) (by simp [hi]), hcount]
  · rcases hst.counter with hmain | ⟨i, hi⟩
    · rw [hmain, hcount]
    · rw [show s.mem.buffer i = [] from hdrained i] at hi
      exact absurd hi List.not_mem_nil

/-- The run of `handover`; the stores of thread `i` reach the memory in front of its wake. -/
def bufferedHandover (i j : ι) : List (ι × BufferedAct ι) :=
  [(i, .act .call), (i, .act (.compareExchange true)), (j, .act .call),
    (j, .act (.compareExchange false)), (j, .act .syncWait), (i, .act .readCounter),
    (i, .act .writeCounter), (i, .act .store), (i, .drain .counter), (i, .drain .tag),
    (i, .act (.syncWake {j}))]

theorem bufferedHandover_reaches :
    ∃ s, (bufferedThreads (Fin 2)).Reaches (bufferedHandover 0 1) s ∧ ∀ i, s.mem.Drained i := by
  let main : ∀ loc, CellVal loc
    | .tag => mutexFree
    | .counter => 0
  let start : BufferedState (Fin 2) := ⟨⟨main, fun _ => []⟩, fun _ => .outside⟩
  have hinit : (bufferedThreads (Fin 2)).init start :=
    ⟨⟨⟨mutexCont⟩, rfl⟩, rfl, fun _ => rfl, fun _ => rfl⟩
  refine exists_reaches hinit (exists_run_cons (.call rfl) ?_)
  refine exists_run_cons (.compareExchange rfl rfl) (exists_run_cons (.call rfl) ?_)
  refine exists_run_cons (.compareExchange rfl rfl) (exists_run_cons (.syncWait rfl rfl) ?_)
  refine exists_run_cons (.readCounter rfl) (exists_run_cons (.writeCounter rfl) ?_)
  refine exists_run_cons (.store rfl) ?_
  refine exists_run_cons (BufferedStep.drain (e := ⟨.counter, 1⟩) rfl) ?_
  refine exists_run_cons (BufferedStep.drain (e := ⟨.tag, mutexFree⟩) rfl) ?_
  refine exists_run_cons (.syncWake rfl rfl ?_) ?_
  · exact Futex.wakes_one rfl
  · exact exists_run_nil (Fin.forall_fin_two.mpr ⟨rfl, rfl⟩)

theorem buffered_exclusion_handover : ∃ s,
    (bufferedThreads (Fin 2)).Reaches (bufferedHandover 0 1) s ∧ s.mem.main .counter = 1 := by
  obtain ⟨s, hs, hdrained⟩ := bufferedHandover_reaches
  exact ⟨s, hs, (buffered_exclusion hs).2.2.2 hdrained⟩

/-- No lost wake-up with store buffers: a mutex that is free in the memory never has a
sleeper while nobody is awake in the lock loop and nobody has a wake to perform. -/
theorem buffered_no_lost_wakeup (h : (bufferedThreads ι).Reaches tr s) :
    ¬ (s.mem.main .tag = mutexFree ∧ (∃ i, s.Asleep i) ∧
      (∀ i, ¬ (s.pc i).AwakeInLock) ∧ ∀ i, s.pc i ≠ .syncWake) := by
  obtain ⟨t, -, hst, -, hwake, -⟩ := exists_unbuffered h
  rintro ⟨hfree, ⟨i, hi⟩, hawake, hnone⟩
  have hpc (j : ι) (hj : s.pc j ≠ .store) : t.pc j = s.pc j :=
    ((hst.pending j).drained_of_pc hj (hnone j)).2
  have htag : t.mutex.tag = mutexFree := by
    rw [hst.mutex]
    exact hfree
  obtain ⟨j, hj⟩ := hwake htag ⟨i, hst.asleep_iff.mpr hi⟩
  have hattends : (s.pc j).Attends := by
    by_cases hstore : s.pc j = .store
    · have hlock : (t.pc j).HasLock := (hst.pending j).hasLock (by simp [hstore])
      rcases hj with hawake | hsync
      · generalize t.pc j = pc at hlock hawake
        cases pc <;> simp [Pc.HasLock, Pc.AwakeInLock] at hlock hawake
      · simp [hsync] at hlock
    · rw [← hpc j hstore]
      exact hj
  exact hattends.elim (hawake j) (hnone j)

theorem buffered_no_lost_wakeup_handover : ∃ s,
    (bufferedThreads (Fin 2)).Reaches (bufferedHandover 0 1) s ∧
      ¬ (s.mem.main .tag = mutexFree ∧ (∃ i, s.Asleep i) ∧
        (∀ i, ¬ (s.pc i).AwakeInLock) ∧ ∀ i, s.pc i ≠ .syncWake) := by
  obtain ⟨s, hs, -⟩ := bufferedHandover_reaches
  exact ⟨s, hs, buffered_no_lost_wakeup hs⟩

end Ciabatta.CiaSync
