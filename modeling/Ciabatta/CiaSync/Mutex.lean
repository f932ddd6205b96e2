import Ciabatta.Lib.Transition
import Ciabatta.Lib.Futex
import Mathlib.Data.List.Count

/-!
`Cia_Mutex`: the lock loop of `cia_mutex_lock`, the two steps of
`cia_mutex_unlock`, and the system of any number of threads that take the
mutex around a critical section. The critical section is the one of the
threading test: it reads a shared counter and writes it back incremented, in
two steps, so that a failure of mutual exclusion shows as a lost update.
-/

namespace Ciabatta.CiaSync

open Transition

/-- `_CIA_MUTEX_FREE` -/
def mutexFree : BitVec 32 := 0

/-- `_CIA_MUTEX_LOCK` -/
def mutexLock : BitVec 32 := 1

/-- `_CIA_MUTEX_CONT`, which only the disabled branch of the lock loop uses. -/
def mutexCont : BitVec 32 := 2

structure CiaMutex where
  tag : BitVec 32
  deriving DecidableEq

def ciaMutexInit (mutex : CiaMutex) : CiaMutex :=
  { mutex with tag := mutexFree }

/-- `atomic_compare_exchange_strong_explicit`: the new value of the object and
the value left in the expected variable. -/
def atomicCompareExchangeStrong (object expected desired : BitVec 32) :
    BitVec 32 × BitVec 32 :=
  if object = expected then (desired, expected) else (object, object)

/-- The compare-exchange that opens a pass of the loop of `cia_mutex_lock`,
with the test `p_tag == _CIA_MUTEX_FREE` that decides whether to leave it. -/
def ciaMutexLockTry (mutex : CiaMutex) : CiaMutex × Bool :=
  let pTag := mutexFree
  let (tag, pTag) := atomicCompareExchangeStrong mutex.tag pTag mutexLock
  ({ mutex with tag := tag }, pTag == mutexFree)

/-- The releasing store of `cia_mutex_unlock`. -/
def ciaMutexUnlockStore (mutex : CiaMutex) : CiaMutex :=
  { mutex with tag := mutexFree }

theorem ciaMutexLockTry_free {mutex : CiaMutex} (h : mutex.tag = mutexFree) :
    ciaMutexLockTry mutex = (⟨mutexLock⟩, true) := by
  simp [ciaMutexLockTry, atomicCompareExchangeStrong, h]

theorem ciaMutexLockTry_taken {mutex : CiaMutex} (h : mutex.tag ≠ mutexFree) :
    ciaMutexLockTry mutex = (mutex, false) := by
  simp [ciaMutexLockTry, atomicCompareExchangeStrong, h]

theorem mutexLock_ne_free : mutexLock ≠ mutexFree := by decide

/-- Where a thread stands. A constructor names the step the thread takes next;
`writeCounter` holds the value its critical section has read. -/
inductive Pc
  | outside
  | compareExchange
  | syncWait
  | asleep
  | readCounter
  | writeCounter (seen : ℕ)
  | store
  | syncWake
  deriving DecidableEq

/-- Between the successful compare-exchange and the releasing store. -/
def Pc.HasLock : Pc → Prop
  | .readCounter | .writeCounter _ | .store => True
  | _ => False

/-- Inside the loop of `cia_mutex_lock` and not asleep. -/
def Pc.AwakeInLock : Pc → Prop
  | .compareExchange | .syncWait => True
  | _ => False

@[simp] theorem hasLock_readCounter : Pc.readCounter.HasLock := trivial
@[simp] theorem hasLock_writeCounter (n : ℕ) : (Pc.writeCounter n).HasLock := trivial
@[simp] theorem hasLock_store : Pc.store.HasLock := trivial
@[simp] theorem not_hasLock_outside : ¬ Pc.outside.HasLock := id
@[simp] theorem not_hasLock_compareExchange : ¬ Pc.compareExchange.HasLock := id
@[simp] theorem not_hasLock_syncWait : ¬ Pc.syncWait.HasLock := id
@[simp] theorem not_hasLock_asleep : ¬ Pc.asleep.HasLock := id
@[simp] theorem not_hasLock_syncWake : ¬ Pc.syncWake.HasLock := id

/-- The steps. `compareExchange` records whether the thread got the mutex,
`syncWake` the threads that its `FUTEX_WAKE` woke; `interrupted` is a futex
wait that returns without a wake. -/
inductive Act (ι : Type*)
  | call
  | compareExchange (got : Bool)
  | syncWait
  | interrupted
  | readCounter
  | writeCounter
  | store
  | syncWake (woken : Finset ι)

structure State (ι : Type*) where
  mutex : CiaMutex
  counter : ℕ
  pc : ι → Pc

variable {ι : Type*} [DecidableEq ι]

def State.goto (s : State ι) (i : ι) (pc : Pc) : State ι :=
  { s with pc := Function.update s.pc i pc }

/-- The threads asleep on the futex of the mutex. -/
def State.Asleep (s : State ι) (i : ι) : Prop := s.pc i = .asleep

/-- Both futex calls return a status, which `cia_mutex_lock` and
`cia_mutex_unlock` ignore: a wait that did not sleep, was woken or was
interrupted goes round the loop again. -/
inductive Step : State ι → ι × Act ι → State ι → Prop
  | call {s : State ι} {i : ι} (h : s.pc i = .outside) :
      Step s (i, .call) (s.goto i .compareExchange)
  | compareExchange {s : State ι} {i : ι} (h : s.pc i = .compareExchange) :
      Step s (i, .compareExchange (ciaMutexLockTry s.mutex).2)
        { s.goto i (if (ciaMutexLockTry s.mutex).2 then .readCounter else .syncWait) with
          mutex := (ciaMutexLockTry s.mutex).1 }
  | syncWait {s : State ι} {i : ι} (h : s.pc i = .syncWait) :
      Step s (i, .syncWait)
        (s.goto i (if Futex.waitSleeps s.mutex.tag mutexLock then .asleep
          else .compareExchange))
  | interrupted {s : State ι} {i : ι} (h : s.pc i = .asleep) :
      Step s (i, .interrupted) (s.goto i .compareExchange)
  | readCounter {s : State ι} {i : ι} (h : s.pc i = .readCounter) :
      Step s (i, .readCounter) (s.goto i (.writeCounter s.counter))
  | writeCounter {s : State ι} {i : ι} {seen : ℕ} (h : s.pc i = .writeCounter seen) :
      Step s (i, .writeCounter) { s.goto i .store with counter := seen + 1 }
  | store {s : State ι} {i : ι} (h : s.pc i = .store) :
      Step s (i, .store)
        { s.goto i .syncWake with mutex := ciaMutexUnlockStore s.mutex }
  | syncWake {s : State ι} {i : ι} {woken : Finset ι} (h : s.pc i = .syncWake)
      (hwakes : Futex.Wakes 1 s.Asleep woken) :
      Step s (i, .syncWake woken)
        { s.goto i .outside with
          pc := fun j => if j ∈ woken then .compareExchange
            else Function.update s.pc i .outside j }

/-- The threads start outside, on a mutex that `cia_mutex_init` has set up. -/
def threads (ι : Type*) [DecidableEq ι] : System (State ι) (ι × Act ι) where
  init s := (∃ mutex, s.mutex = ciaMutexInit mutex) ∧ s.counter = 0 ∧
    ∀ i, s.pc i = .outside
  step := Step

end Ciabatta.CiaSync
