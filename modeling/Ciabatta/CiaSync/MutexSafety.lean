import Ciabatta.CiaSync.Mutex

/-!
Safety of `Cia_Mutex`. The threads simulate a guarded counter, whose owner is
part of its state and whose increments are single steps: the tag of the mutex
then says whether there is an owner, and the thread between its
compare-exchange and its releasing store is the owner.
-/

namespace Ciabatta.CiaSync

open Transition System

/-- What the mutex is for: a counter that only the owner of the lock touches,
one increment at a time. -/
structure Guarded (ι : Type*) where
  owner : Option ι
  count : ℕ

inductive GuardedEvent (ι : Type*)
  | acquire (i : ι)
  | increment (i : ι)
  | release (i : ι)
  deriving DecidableEq

variable {ι : Type*}

inductive GuardedStep : Guarded ι → GuardedEvent ι → Guarded ι → Prop
  | acquire {n : ℕ} {i : ι} : GuardedStep ⟨none, n⟩ (.acquire i) ⟨some i, n⟩
  | increment {n : ℕ} {i : ι} :
      GuardedStep ⟨some i, n⟩ (.increment i) ⟨some i, n + 1⟩
  | release {n : ℕ} {i : ι} : GuardedStep ⟨some i, n⟩ (.release i) ⟨none, n⟩

def guarded (ι : Type*) : System (Guarded ι) (GuardedEvent ι) where
  init g := g = ⟨none, 0⟩
  step := GuardedStep

def GuardedEvent.isIncrement : GuardedEvent ι → Bool
  | .increment _ => true
  | _ => false

theorem guarded_count {tr : List (GuardedEvent ι)} {g : Guarded ι}
    (h : (guarded ι).Reaches tr g) : g.count = tr.countP GuardedEvent.isIncrement := by
  refine h.history (I := fun tr g => g.count = tr.countP GuardedEvent.isIncrement) ?_ ?_
  · rintro g rfl
    rfl
  · intro tr g a g' hcount hstep
    cases hstep <;> simp_all [GuardedEvent.isIncrement]

/-- The step of the guarded counter that a step of a thread performs. -/
def observe : ι × Act ι → List (GuardedEvent ι)
  | (i, .compareExchange true) => [.acquire i]
  | (i, .writeCounter) => [.increment i]
  | (i, .store) => [.release i]
  | _ => []

/-- The steps that complete an increment of the counter. -/
def isIncrement : ι × Act ι → Bool
  | (_, .writeCounter) => true
  | _ => false

theorem countP_flatMap_observe (tr : List (ι × Act ι)) :
    (tr.flatMap observe).countP GuardedEvent.isIncrement = tr.countP isIncrement := by
  have hone (a : ι × Act ι) :
      (observe a).countP GuardedEvent.isIncrement = (isIncrement a).toNat := by
    rcases a with ⟨i, a⟩
    cases a with
    | compareExchange got => cases got <;> rfl
    | _ => rfl
  induction tr with
  | nil => rfl
  | cons a tr ih =>
      rw [List.flatMap_cons, List.countP_append, ih, hone, List.countP_cons]
      cases isIncrement a <;> simp [Nat.add_comm]

def ownerTag : Option ι → BitVec 32
  | none => mutexFree
  | some _ => mutexLock

@[simp] theorem ownerTag_eq_free {o : Option ι} : ownerTag o = mutexFree ↔ o = none := by
  cases o <;> simp [ownerTag, mutexLock_ne_free]

@[simp] theorem ownerTag_eq_lock {o : Option ι} : ownerTag o = mutexLock ↔ o.isSome := by
  cases o <;> simp [ownerTag, mutexLock_ne_free.symm]

/-- The mutex of any system: it is locked exactly while a thread is inside, and then
only one is. -/
def Guards (mutex : CiaMutex) (inside : ι → Prop) : Prop :=
  ∃ owner : Option ι, mutex.tag = ownerTag owner ∧ ∀ i, inside i ↔ owner = some i

section Guards

variable {mutex : CiaMutex} {inside : ι → Prop} {i j : ι}

theorem guards_of_free (hfree : mutex.tag = mutexFree) (hnone : ∀ i, ¬ inside i) :
    Guards mutex inside :=
  ⟨none, hfree, by simpa using hnone⟩

theorem Guards.tag_eq_free (h : Guards mutex inside) (hnone : ∀ i, ¬ inside i) :
    mutex.tag = mutexFree := by
  obtain ⟨owner, htag, hinside⟩ := h
  cases owner with
  | none => exact htag
  | some i => exact absurd ((hinside i).mpr rfl) (hnone i)

theorem Guards.not_inside (h : Guards mutex inside) (hfree : mutex.tag = mutexFree) (i : ι) :
    ¬ inside i := by
  obtain ⟨owner, htag, hinside⟩ := h
  rw [hinside i, ownerTag_eq_free.mp (htag.symm.trans hfree)]
  nofun

theorem Guards.eq (h : Guards mutex inside) (hi : inside i) (hj : inside j) : i = j := by
  obtain ⟨owner, -, hinside⟩ := h
  exact Option.some.inj (((hinside i).mp hi).symm.trans ((hinside j).mp hj))

variable [DecidableEq ι] {β : Type*} {P : β → Prop} {pc : ι → β} {v : β}

/-- A thread moves on, on its side of the lock. -/
theorem Guards.update (h : Guards mutex fun j => P (pc j)) (hiff : P v ↔ P (pc i)) :
    Guards mutex fun j => P (Function.update pc i v j) := by
  obtain ⟨owner, htag, hinside⟩ := h
  refine ⟨owner, htag, fun j => ?_⟩
  rcases eq_or_ne j i with rfl | hj
  · simpa [hiff] using hinside j
  · simpa [Function.update_of_ne hj] using hinside j

theorem Guards.acquire (h : Guards mutex fun j => P (pc j)) (hfree : mutex.tag = mutexFree)
    (hnew : P v) :
    Guards (ciaMutexLockTry mutex).1 fun j => P (Function.update pc i v j) := by
  rw [ciaMutexLockTry_free hfree]
  refine ⟨some i, rfl, fun j => ?_⟩
  rcases eq_or_ne j i with rfl | hj
  · simp [hnew]
  · simpa [Function.update_of_ne hj, Ne.symm hj] using h.not_inside hfree j

theorem Guards.release (h : Guards mutex fun j => P (pc j)) (hold : P (pc i)) (hnew : ¬ P v) :
    Guards (ciaMutexUnlockStore mutex) fun j => P (Function.update pc i v j) := by
  refine guards_of_free rfl fun j => ?_
  rcases eq_or_ne j i with rfl | hj
  · simpa using hnew
  · simpa [Function.update_of_ne hj] using fun hin => hj (h.eq hin hold)

end Guards

/-- The simulation relation: the owner is read off the program counters. -/
structure Refines (s : State ι) (g : Guarded ι) : Prop where
  tag : s.mutex.tag = ownerTag g.owner
  hasLock : ∀ i, (s.pc i).HasLock ↔ g.owner = some i
  counter : s.counter = g.count
  seen : ∀ i n, s.pc i = .writeCounter n → n = s.counter

theorem Refines.not_hasLock {s : State ι} {g : Guarded ι} (h : Refines s g) {i j : ι}
    (hi : g.owner = some i) (hne : j ≠ i) : ¬ (s.pc j).HasLock := by
  rw [h.hasLock j, hi]
  simpa using Ne.symm hne

/-- Threads that move outside the span of the lock do not matter: the relation
only reads the program counters inside it. -/
theorem Refines.of_pc {s : State ι} {g : Guarded ι} (h : Refines s g) (pc : ι → Pc)
    (hpc : ∀ j, pc j = s.pc j ∨ ¬ (s.pc j).HasLock ∧ ¬ (pc j).HasLock) :
    Refines { s with pc := pc } g where
  tag := h.tag
  counter := h.counter
  hasLock j := by
    rcases hpc j with hsame | ⟨hold, hnew⟩
    · simpa [hsame] using h.hasLock j
    · simpa [hnew, hold] using h.hasLock j
  seen j n hj := by
    rcases hpc j with hsame | ⟨_, hnew⟩
    · exact h.seen j n (hsame ▸ hj)
    · change pc j = .writeCounter n at hj
      simp [hj] at hnew

variable [DecidableEq ι]

theorem Refines.goto_outside {s : State ι} {g : Guarded ι} (h : Refines s g) {i : ι}
    {pc : Pc} (hold : ¬ (s.pc i).HasLock) (hnew : ¬ pc.HasLock) :
    Refines (s.goto i pc) g := by
  apply h.of_pc
  intro j
  by_cases hj : j = i
  · subst j
    exact .inr ⟨hold, by simpa using hnew⟩
  · exact .inl (Function.update_of_ne hj _ _)

/-- The owner moves on inside its span. -/
theorem Refines.goto_inside {s : State ι} {g : Guarded ι} (h : Refines s g) {i : ι}
    {pc : Pc} (hold : (s.pc i).HasLock) (hnew : pc.HasLock) (counter : ℕ)
    (hseen : ∀ n, pc = .writeCounter n → n = counter) :
    Refines { s.goto i pc with counter := counter } { g with count := counter } where
  tag := h.tag
  counter := rfl
  hasLock j := by
    by_cases hj : j = i
    · subst j
      simpa [State.goto, hnew] using (h.hasLock i).mp hold
    · simpa [State.goto, Function.update_of_ne hj] using h.hasLock j
  seen j n hj := by
    by_cases hji : j = i
    · subst j
      exact hseen n (by simpa [State.goto] using hj)
    · have hpc : s.pc j = .writeCounter n := by
        simpa [State.goto, Function.update_of_ne hji] using hj
      exact absurd (by simp [hpc]) (h.not_hasLock ((h.hasLock i).mp hold) hji)

/-- The owner changes together with the tag. -/
theorem Refines.goto_owner {s : State ι} {g : Guarded ι} (h : Refines s g) {i : ι}
    {pc : Pc} (owner : Option ι) (hpc : ∀ n, pc ≠ .writeCounter n)
    (hothers : ∀ j, j ≠ i → ¬ (s.pc j).HasLock ∧ owner ≠ some j)
    (hnew : pc.HasLock ↔ owner = some i) :
    Refines { s.goto i pc with mutex := ⟨ownerTag owner⟩ } { g with owner := owner } where
  tag := rfl
  counter := h.counter
  hasLock j := by
    by_cases hj : j = i
    · subst j
      simpa [State.goto] using hnew
    · simp [State.goto, Function.update_of_ne hj, hothers j hj]
  seen j n hj := by
    by_cases hji : j = i
    · subst j
      exact absurd (by simpa [State.goto] using hj) (hpc n)
    · exact h.seen j n (by simpa [State.goto, Function.update_of_ne hji] using hj)

theorem refines_step {s s' : State ι} {a : ι × Act ι} {g : Guarded ι}
    (h : Refines s g) (hstep : Step s a s') :
    ∃ g', (guarded ι).Run g (observe a) g' ∧ Refines s' g' := by
  cases hstep with
  | call hpc =>
      exact ⟨g, .refl g, h.goto_outside (by simp [hpc]) (by simp)⟩
  | @compareExchange i hpc =>
      by_cases hfree : s.mutex.tag = mutexFree
      · -- the mutex had no owner, and the thread becomes it
        have hnone : g.owner = none := ownerTag_eq_free.mp (h.tag.symm.trans hfree)
        rw [ciaMutexLockTry_free hfree]
        refine ⟨⟨some i, g.count⟩, .single ?_, ?_⟩
        · obtain ⟨o, n⟩ := g
          subst hnone
          exact .acquire
        · refine h.goto_owner (some i) (by simp) (fun j hj => ⟨?_, ?_⟩)
            (by simp)
          · simp [h.hasLock j, hnone]
          · simpa using Ne.symm hj
      · rw [ciaMutexLockTry_taken hfree]
        exact ⟨g, .refl g,
          h.goto_outside (by simp [hpc]) (by simp)⟩
  | syncWait hpc =>
      refine ⟨g, .refl g, h.goto_outside (by simp [hpc]) ?_⟩
      split <;> simp
  | interrupted hpc =>
      exact ⟨g, .refl g, h.goto_outside (by simp [hpc]) (by simp)⟩
  | readCounter hpc =>
      obtain ⟨o, n⟩ := g
      obtain rfl : n = s.counter := h.counter.symm
      exact ⟨_, .refl _, h.goto_inside (by simp [hpc]) (by simp) _ (by simp)⟩
  | @writeCounter i seen hpc =>
      have hseen : seen = g.count := (h.seen i seen hpc).trans h.counter
      have hown : g.owner = some i := (h.hasLock i).mp (by simp [hpc])
      refine ⟨⟨g.owner, g.count + 1⟩, .single ?_, ?_⟩
      · obtain ⟨o, n⟩ := g
        subst hown
        exact .increment
      · rw [hseen]
        exact h.goto_inside (by simp [hpc]) (by simp) _ (by simp)
  | @store i hpc =>
      have hown : g.owner = some i := (h.hasLock i).mp (by simp [hpc])
      refine ⟨⟨none, g.count⟩, .single ?_, ?_⟩
      · obtain ⟨o, n⟩ := g
        subst hown
        exact .release
      · exact h.goto_owner none (by simp)
          (fun j hj => ⟨h.not_hasLock hown hj, by simp⟩) (by simp)
  | @syncWake i woken hpc hwakes =>
      refine ⟨g, .refl g, h.of_pc _ fun j => ?_⟩
      -- besides the caller the woken threads move, all of them outside the lock
      by_cases hj : j ∈ woken
      · have hasleep : s.pc j = .asleep := hwakes.asleep_of_mem j hj
        exact .inr (by simp [hj, hasleep])
      · by_cases hji : j = i
        · subst j
          exact .inr (by simp [hj, hpc])
        · exact .inl (by simp [hj, Function.update_of_ne hji])

theorem threads_simulate : Simulation (threads ι) (guarded ι) observe Refines where
  init := by
    rintro s ⟨⟨mutex, hmutex⟩, hcounter, hpc⟩
    refine ⟨⟨none, 0⟩, rfl, ⟨?_, ?_, hcounter, ?_⟩⟩
    · simp [hmutex, ciaMutexInit, ownerTag]
    · simp [hpc]
    · simp [hpc]
  step := fun _ _ _ _ hR hstep => refines_step hR hstep

/-- Mutual exclusion, with the tag as its witness, and no update lost. -/
theorem mutex_exclusion {tr : List (ι × Act ι)} {s : State ι}
    (h : (threads ι).Reaches tr s) :
    (s.mutex.tag = mutexFree ∨ s.mutex.tag = mutexLock) ∧
      (s.mutex.tag = mutexLock ↔ ∃! i, (s.pc i).HasLock) ∧
      (∀ i j, (s.pc i).HasLock → (s.pc j).HasLock → i = j) ∧
      s.counter = tr.countP isIncrement := by
  obtain ⟨g, hg, hR⟩ := threads_simulate.reaches h
  refine ⟨?_, ?_, ?_, ?_⟩
  · rw [hR.tag]
    cases g.owner <;> simp [ownerTag]
  · rw [hR.tag, ownerTag_eq_lock, Option.isSome_iff_exists]
    constructor
    · rintro ⟨i, hi⟩
      refine ⟨i, (hR.hasLock i).mpr hi, fun j hj => ?_⟩
      exact Option.some.inj (((hR.hasLock j).mp hj).symm.trans hi)
    · rintro ⟨i, hi, -⟩
      exact ⟨i, (hR.hasLock i).mp hi⟩
  · intro i j hi hj
    exact Option.some.inj (((hR.hasLock i).mp hi).symm.trans ((hR.hasLock j).mp hj))
  · rw [hR.counter, guarded_count hg, countP_flatMap_observe]

/-- Thread 0 takes the mutex, thread 1 tries it and falls asleep, thread 0
increments the counter, releases the mutex and wakes thread 1. -/
def handover : List (Fin 2 × Act (Fin 2)) :=
  [(0, .call), (0, .compareExchange true), (1, .call), (1, .compareExchange false),
    (1, .syncWait), (0, .readCounter), (0, .writeCounter), (0, .store), (0, .syncWake {1})]

theorem handover_reaches :
    ∃ s, (threads (Fin 2)).Reaches handover s ∧ s.pc 1 = .compareExchange := by
  let start : State (Fin 2) := ⟨ciaMutexInit ⟨mutexCont⟩, 0, fun _ => .outside⟩
  have hinit : (threads (Fin 2)).init start :=
    ⟨⟨⟨mutexCont⟩, rfl⟩, rfl, fun _ => rfl⟩
  refine exists_reaches hinit (exists_run_cons (.call rfl) ?_)
  refine exists_run_cons (.compareExchange rfl) (exists_run_cons (.call rfl) ?_)
  refine exists_run_cons (.compareExchange rfl) (exists_run_cons (.syncWait rfl) ?_)
  refine exists_run_cons (.readCounter rfl) (exists_run_cons (.writeCounter rfl) ?_)
  refine exists_run_cons (.store rfl) (exists_run_cons (.syncWake rfl ?_)
    (exists_run_nil rfl))
  exact Futex.wakes_one rfl

theorem mutex_exclusion_handover : ∃ s, (threads (Fin 2)).Reaches handover s ∧
    s.counter = handover.countP isIncrement := by
  obtain ⟨s, hs, -⟩ := handover_reaches
  exact ⟨s, hs, (mutex_exclusion hs).2.2.2⟩

end Ciabatta.CiaSync
