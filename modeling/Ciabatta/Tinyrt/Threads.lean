import Ciabatta.Lib.Transition
import Ciabatta.Lib.Futex

/-!
A created thread and the one call of `thrd_join` or `thrd_detach` on it. The
parties share the words `state_detach`, `exit_code` and `state_finish` of the
thread block; the third party is the kernel, which clears `state_finish` after
the exit of the thread and then wakes a waiter on it. Every load, store and
futex call is a step of its own.
-/

namespace Ciabatta.Tinyrt

open Transition

/-- `_LD_THREAD_STATE_NOT_YET` -/
def threadStateNotYet : BitVec 32 := 0

/-- `_LD_THREAD_STATE_DETACHED` -/
def threadStateDetached : BitVec 32 := 1

/-- `_LD_THREAD_STATE_JOINED` -/
def threadStateJoined : BitVec 32 := 2

/-- `_LD_Thread_Block` -/
structure LdThreadBlock where
  threadId : BitVec 32
  stateFinish : BitVec 32
  stateDetach : BitVec 32
  exitCode : BitVec 32
  stackCanary : BitVec 64
  nextTcb : BitVec 64
  prevTcb : BitVec 64
  isCancelled : BitVec 32
  deriving DecidableEq

/-- The thread block in a zero-filled mapping. -/
def LdThreadBlock.zero : LdThreadBlock := ⟨0, 0, 0, 0, 0, 0, 0, 0⟩

/-- The stores of `_rt_thread_create` into the thread block, before the clone.
The block keeps what the mapping held in the fields that it leaves alone,
`state_detach` and `exit_code` among them. -/
def rtThreadCreateTcb (tcb : LdThreadBlock) (threadBlocksHead : BitVec 64) :
    LdThreadBlock :=
  { tcb with
    stackCanary := 0x12345678deadbeef
    nextTcb := 0
    prevTcb := threadBlocksHead
    isCancelled := 0
    stateFinish := 1 }

def cloneVm : BitVec 64 := 0x00000100
def cloneFs : BitVec 64 := 0x00000200
def cloneFiles : BitVec 64 := 0x00000400
def cloneSighand : BitVec 64 := 0x00000800
def cloneThread : BitVec 64 := 0x00010000
def cloneSysvsem : BitVec 64 := 0x00040000
def cloneParentSettid : BitVec 64 := 0x00100000
def cloneChildCleartid : BitVec 64 := 0x00200000

/-- The flags that `_rt_thread_create` passes to `clone`. -/
def rtThreadCreateFlags : BitVec 64 :=
  cloneChildCleartid ||| cloneParentSettid ||| cloneFs ||| cloneFiles |||
    cloneSighand ||| cloneThread ||| cloneVm ||| cloneSysvsem

/-- The kernel's side of `clone`: with `CLONE_PARENT_SETTID` it stores the
thread id through `parent_tid`, which is `&tcb->thread_id`. -/
def cloneSetTid (flags : BitVec 64) (tcb : LdThreadBlock) (tid : BitVec 32) :
    LdThreadBlock :=
  if flags &&& cloneParentSettid ≠ 0 then { tcb with threadId := tid } else tcb

/-- The kernel's side of the exit: with `CLONE_CHILD_CLEARTID` it stores 0
through `child_tid`, which is `&tcb->state_finish`. -/
def exitClearTid (flags : BitVec 64) (tcb : LdThreadBlock) : LdThreadBlock :=
  if flags &&& cloneChildCleartid ≠ 0 then { tcb with stateFinish := 0 } else tcb

theorem exitClearTid_create (tcb : LdThreadBlock) :
    exitClearTid rtThreadCreateFlags tcb = { tcb with stateFinish := 0 } :=
  if_pos (by decide)

/-- `_RT_STATUS_OK` -/
def rtStatusOk : BitVec 32 := 0

def thrdSuccess : BitVec 32 := 0
def thrdError : BitVec 32 := -4

/-- The end of `thrd_join` and `thrd_detach`: the status of the `_rt_thread_*`
function as a `thrd_*` result. -/
def thrdStatus (status : BitVec 32) : BitVec 32 :=
  if status = rtStatusOk then thrdSuccess else thrdError

/-- A thread function with its argument: any states, any steps, and the states
in which it returns an `int`. -/
structure ThreadFn where
  State : Type
  entry : State
  step : State → State → Prop
  ret : State → BitVec 32 → Prop

/-- Where the created thread stands. From `loadDetach` to `exit` it is in
`_rt_thread_finish`, called with `code`. -/
inductive ThreadPc (fn : ThreadFn)
  | running (s : fn.State)
  | loadDetach (code : BitVec 32)
  | waitDetach (code : BitVec 32)
  | asleep (code : BitVec 32)
  | storeExitCode (code : BitVec 32)
  | exit (code : BitVec 32)
  | exited

/-- What the kernel still has to do for the exit of the thread. -/
inductive KernelPc
  | idle
  | clearTid
  | exitWake
  | done
  deriving DecidableEq

/-- Where the caller of `thrd_join` or `thrd_detach` stands. -/
inductive CallerPc
  | storeDetach
  | wakeDetach
  | checkFinish
  | waitFinish
  | asleep
  | readExitCode
  | returned (result outExitCode : BitVec 32)
  deriving DecidableEq

inductive Call
  | join
  | detach
  deriving DecidableEq

inductive Party
  | thread
  | caller
  deriving DecidableEq

inductive ThreadAct
  | compute
  | return (code : BitVec 32)
  | loadDetach
  | waitDetach
  | interrupted
  | storeExitCode
  | exit
  deriving DecidableEq

inductive Act
  | thread (a : ThreadAct)
  | clearTid
  | exitWake (woken : Finset Party)
  | storeDetach
  | wakeDetach (woken : Finset Party)
  | checkFinish
  | waitFinish
  | interrupted
  | readExitCode
  deriving DecidableEq

structure State (fn : ThreadFn) where
  tcb : LdThreadBlock
  thread : ThreadPc fn
  kernel : KernelPc
  caller : CallerPc

variable {fn : ThreadFn}

/-- Asleep in `FUTEX_WAIT` on `state_detach`; only the thread waits there. -/
def State.AsleepOnDetach (s : State fn) (p : Party) : Prop :=
  p = .thread ∧ ∃ code, s.thread = .asleep code

/-- Asleep in `FUTEX_WAIT` on `state_finish`; only the caller waits there. -/
def State.AsleepOnFinish (s : State fn) (p : Party) : Prop :=
  p = .caller ∧ s.caller = .asleep

/-- A wake sends the thread back to the load in the loop. -/
def ThreadPc.wake : ThreadPc fn → Finset Party → ThreadPc fn
  | .asleep code, woken => if .thread ∈ woken then .loadDetach code else .asleep code
  | pc, _ => pc

def CallerPc.wake : CallerPc → Finset Party → CallerPc
  | .asleep, woken => if .caller ∈ woken then .checkFinish else .asleep
  | pc, _ => pc

/-- The steps of `_rt_thread_start` and `_rt_thread_finish` in the created
thread. -/
inductive ThreadStep : LdThreadBlock → ThreadPc fn → ThreadAct → LdThreadBlock → ThreadPc fn → Prop
  | compute {tcb : LdThreadBlock} {s s' : fn.State} (h : fn.step s s') :
      ThreadStep tcb (.running s) .compute tcb (.running s')
  | return {tcb : LdThreadBlock} {s : fn.State} {code : BitVec 32} (h : fn.ret s code) :
      ThreadStep tcb (.running s) (.return code) tcb (.loadDetach code)
  | loadDetach {tcb : LdThreadBlock} {code : BitVec 32} :
      ThreadStep tcb (.loadDetach code) .loadDetach tcb
        (if tcb.stateDetach = threadStateNotYet then .waitDetach code else .storeExitCode code)
  | waitDetach {tcb : LdThreadBlock} {code : BitVec 32} :
      ThreadStep tcb (.waitDetach code) .waitDetach tcb
        (if Futex.waitSleeps tcb.stateDetach threadStateNotYet then .asleep code
          else .loadDetach code)
  | interrupted {tcb : LdThreadBlock} {code : BitVec 32} :
      ThreadStep tcb (.asleep code) .interrupted tcb (.loadDetach code)
  | storeExitCode {tcb : LdThreadBlock} {code : BitVec 32} :
      ThreadStep tcb (.storeExitCode code) .storeExitCode { tcb with exitCode := code }
        (.exit code)
  | exit {tcb : LdThreadBlock} {code : BitVec 32} :
      ThreadStep tcb (.exit code) .exit tcb .exited

def Call.decision : Call → BitVec 32
  | .join => threadStateJoined
  | .detach => threadStateDetached

/-- After the store `_rt_thread_join` goes on to its wake, while
`_rt_thread_detach` returns; it has no exit code to hand out. -/
def Call.afterStore : Call → CallerPc
  | .join => .wakeDetach
  | .detach => .returned (thrdStatus rtStatusOk) 0

inductive Step (call : Call) : State fn → Act → State fn → Prop
  | thread {s : State fn} {a : ThreadAct} {tcb : LdThreadBlock} {pc : ThreadPc fn}
      (h : ThreadStep s.tcb s.thread a tcb pc) :
      Step call s (.thread a)
        { s with tcb := tcb, thread := pc, kernel := if a = .exit then .clearTid else s.kernel }
  | clearTid {s : State fn} (h : s.kernel = .clearTid) :
      Step call s .clearTid
        { s with tcb := exitClearTid rtThreadCreateFlags s.tcb, kernel := .exitWake }
  | exitWake {s : State fn} {woken : Finset Party} (h : s.kernel = .exitWake)
      (hwakes : Futex.Wakes 1 s.AsleepOnFinish woken) :
      Step call s (.exitWake woken) { s with kernel := .done, caller := s.caller.wake woken }
  | storeDetach {s : State fn} (h : s.caller = .storeDetach) :
      Step call s .storeDetach
        { s with tcb := { s.tcb with stateDetach := call.decision }, caller := call.afterStore }
  | wakeDetach {s : State fn} {woken : Finset Party} (h : s.caller = .wakeDetach)
      (hwakes : Futex.Wakes 0 s.AsleepOnDetach woken) :
      Step call s (.wakeDetach woken)
        { s with thread := s.thread.wake woken, caller := .checkFinish }
  | checkFinish {s : State fn} (h : s.caller = .checkFinish) :
      Step call s .checkFinish
        { s with caller := if s.tcb.stateFinish ≠ 0 then .waitFinish else .readExitCode }
  | waitFinish {s : State fn} (h : s.caller = .waitFinish) :
      Step call s .waitFinish
        { s with caller := if Futex.waitSleeps s.tcb.stateFinish 0 then .asleep
            else .checkFinish }
  | interrupted {s : State fn} (h : s.caller = .asleep) :
      Step call s .interrupted { s with caller := .checkFinish }
  | readExitCode {s : State fn} (h : s.caller = .readExitCode) :
      Step call s .readExitCode
        { s with caller := .returned (thrdStatus rtStatusOk) s.tcb.exitCode }

/-- The thread and the call on it, from the moment `_rt_thread_create` has
cloned the thread in a zero-filled mapping. -/
def handshake (fn : ThreadFn) (call : Call) : System (State fn) Act where
  init s := ∃ head tid, s =
    { tcb := cloneSetTid rtThreadCreateFlags (rtThreadCreateTcb .zero head) tid
      thread := .running fn.entry
      kernel := .idle
      caller := .storeDetach }
  step := Step call

theorem ThreadPc.wake_empty (pc : ThreadPc fn) : pc.wake ∅ = pc := by
  cases pc <;> simp [ThreadPc.wake]

end Ciabatta.Tinyrt
