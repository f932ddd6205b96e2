import Ciabatta.CiaSync.MutexSafety

/-!
No lost wake-up in `Cia_Mutex`. The lock never records contention, and unlock
wakes one sleeper in a step of its own after the store; what saves it is that
a thread only falls asleep while the tag is LOCK, so that a later store and
its wake are still to come.
-/

namespace Ciabatta.CiaSync

open Transition System

variable {ι : Type*}

/-- A thread that will look at the tag again, or wake a sleeper. -/
def Pc.Attends (pc : Pc) : Prop := pc.AwakeInLock ∨ pc = .syncWake

/-- Without an attending thread a sleeper on a free mutex would sleep on for
ever; this is what never happens. -/
def WakeInv (s : State ι) : Prop :=
  s.mutex.tag = mutexFree → (∃ i, s.Asleep i) → ∃ i, (s.pc i).Attends

theorem WakeInv.of_attends {s : State ι} {i : ι} (h : (s.pc i).Attends) : WakeInv s :=
  fun _ _ => ⟨i, h⟩

theorem WakeInv.of_taken {s : State ι} (h : s.mutex.tag = mutexLock) : WakeInv s :=
  fun hfree => absurd (h.symm.trans hfree) mutexLock_ne_free

variable [DecidableEq ι]

theorem attends_goto (s : State ι) (i : ι) {pc : Pc} (h : pc.Attends) :
    ((s.goto i pc).pc i).Attends := by
  simpa [State.goto] using h

/-- A thread that neither attended nor goes to sleep does not matter. -/
theorem WakeInv.goto {s : State ι} (h : WakeInv s) {i : ι} {pc : Pc}
    (hold : ¬ (s.pc i).Attends) (hnew : pc ≠ .asleep) : WakeInv (s.goto i pc) := by
  rintro hfree ⟨j, hj⟩
  have hji : j ≠ i := by
    rintro rfl
    exact hnew (by simpa [State.Asleep, State.goto] using hj)
  have hasleep : s.Asleep j := by
    simpa [State.Asleep, State.goto, Function.update_of_ne hji] using hj
  obtain ⟨k, hk⟩ := h hfree ⟨j, hasleep⟩
  have hki : k ≠ i := by
    rintro rfl
    exact hold hk
  exact ⟨k, by simpa [State.goto, Function.update_of_ne hki] using hk⟩

theorem wakeInv_step {s s' : State ι} {a : ι × Act ι} (h : WakeInv s)
    (hstep : Step s a s') : WakeInv s' := by
  cases hstep with
  | @call i _ =>
      exact .of_attends (attends_goto s i (.inl trivial))
  | @compareExchange i _ =>
      by_cases hfree : s.mutex.tag = mutexFree
      · rw [ciaMutexLockTry_free hfree]
        exact .of_taken rfl
      · rw [ciaMutexLockTry_taken hfree]
        exact .of_attends (i := i) (attends_goto s i (.inl trivial))
  | @syncWait i _ =>
      -- the thread sleeps only if the tag is still LOCK at that instant
      by_cases htag : s.mutex.tag = mutexLock
      · exact .of_taken htag
      · rw [if_neg (by simpa using htag)]
        exact .of_attends (attends_goto s i (.inl trivial))
  | @interrupted i _ =>
      exact .of_attends (attends_goto s i (.inl trivial))
  | readCounter hpc =>
      exact h.goto (by simp [hpc, Pc.Attends, Pc.AwakeInLock]) (by simp)
  | @writeCounter i seen hpc =>
      have hgoto : WakeInv (s.goto i .store) :=
        h.goto (by simp [hpc, Pc.Attends, Pc.AwakeInLock]) (by simp)
      exact hgoto
  | @store i _ =>
      exact .of_attends (i := i) (attends_goto s i (.inr rfl))
  | @syncWake i woken hpc hwakes =>
      rintro _ ⟨j, hj⟩
      have hasleep : s.Asleep j := by
        by_cases hjw : j ∈ woken
        · exact hwakes.asleep_of_mem j hjw
        · by_cases hji : j = i
          · subst j
            simp [State.Asleep, hjw] at hj
          · simpa [State.Asleep, hjw, Function.update_of_ne hji] using hj
      obtain ⟨k, hk⟩ := hwakes.exists_mem hasleep
      exact ⟨k, .inl (by simp [hk, Pc.AwakeInLock])⟩

/-- No lost wake-up: a free mutex never has a sleeper while nobody is awake in
the lock loop and nobody has a wake to perform. -/
theorem mutex_no_lost_wakeup {tr : List (ι × Act ι)} {s : State ι}
    (h : (threads ι).Reaches tr s) :
    ¬ (s.mutex.tag = mutexFree ∧ (∃ i, s.Asleep i) ∧
      (∀ i, ¬ (s.pc i).AwakeInLock) ∧ ∀ i, s.pc i ≠ .syncWake) := by
  rintro ⟨hfree, hasleep, hawake, hwake⟩
  have hinv : WakeInv s := by
    refine h.invariant (I := WakeInv) ?_ (fun s a t hI hstep => wakeInv_step hI hstep)
    rintro s ⟨-, -, hpc⟩ - ⟨i, hi⟩
    simp [State.Asleep, hpc] at hi
  obtain ⟨i, hi | hi⟩ := hinv hfree hasleep
  · exact hawake i hi
  · exact hwake i hi

/-- At the end of `handover` the mutex is free again and thread 1 awake. -/
theorem mutex_no_lost_wakeup_handover : ∃ s, (threads (Fin 2)).Reaches handover s ∧
    ¬ (s.mutex.tag = mutexFree ∧ (∃ i, s.Asleep i) ∧
      (∀ i, ¬ (s.pc i).AwakeInLock) ∧ ∀ i, s.pc i ≠ .syncWake) := by
  obtain ⟨s, hs, -⟩ := handover_reaches
  exact ⟨s, hs, mutex_no_lost_wakeup hs⟩

end Ciabatta.CiaSync
