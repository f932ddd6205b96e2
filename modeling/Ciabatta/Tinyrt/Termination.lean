import Ciabatta.Lib.Transition
import Ciabatta.StdlibProgram.ExitHandlers
import Ciabatta.Tinyrt.Threads
import Mathlib.Data.Finset.Insert

/-!
The end of a program that has several threads. A thread is named by the address
of its thread block, and its own computations are steps without an effect here:
what counts is who can still take one. The exits come down to the last system
call that they record, and which threads this ends is for the kernel to say.
The cancel flags and `SIGCANCEL` are the library's own means to end a thread.
-/

namespace Ciabatta.Tinyrt.Termination

open Transition ByteMemory StdlibProgram

/-! ### The final system call -/

/-- The calls that end the program, and the return from `main` to `_start`. -/
inductive FinalCall
  | exit (code : BitVec 32)
  | quickExit (code : BitVec 32)
  | exitNow (code : BitVec 32)
  | abort
  | returnFromMain (params : LdCrtParams) (code : BitVec 32)

def FinalCall.run : FinalCall → ProgramM Unit
  | .exit code => StdlibProgram.exit code
  | .quickExit code => StdlibProgram.quickExit code
  | .exitNow code => StdlibProgram.exitNow code
  | .abort => StdlibProgram.abort
  | .returnFromMain params code => start params (pure code)

def FinalCall.code : FinalCall → BitVec 32
  | .exit code => code
  | .quickExit code => code
  | .exitNow code => code
  | .abort => 1
  | .returnFromMain _ code => code

/-- The last thing that the call does is system call `number`. -/
def FinalCall.EndsWith (c : FinalCall) (number : ℕ) : Prop :=
  ∃ s stop t arg, c.run s = .error stop t ∧ t.log.getLast? = some (.syscall number arg)

theorem FinalCall.run_eq (c : FinalCall) (s : Program) :
    ∃ t, c.run s = .error (.exit c.code) t ∧
      t.log.getLast? = some (.syscall sysExitNumber c.code) := by
  have hlast (t : Program) (code : BitVec 32) :
      (t.record (.syscall sysExitNumber code)).log.getLast?
        = some (.syscall sysExitNumber code) := by
    simp [Program.record]
  cases c with
  | exit code =>
      obtain ⟨_, t, hcalls, -⟩ := yields_callHandlers .atexit s
      exact ⟨_, Exec.bind_of_ok hcalls, hlast t code⟩
  | quickExit code =>
      obtain ⟨_, t, hcalls, -⟩ := yields_callHandlers .atQuickExit s
      exact ⟨_, Exec.bind_of_ok hcalls, hlast t code⟩
  | exitNow code => exact ⟨_, rfl, hlast s code⟩
  | abort => exact ⟨_, rfl, hlast s 1⟩
  | returnFromMain params code => exact ⟨_, rfl, hlast _ code⟩

/-- All five come down to `SYS_exit`. -/
theorem FinalCall.endsWith_iff {c : FinalCall} {number : ℕ} :
    c.EndsWith number ↔ number = sysExitNumber := by
  constructor
  · rintro ⟨s, stop, t, arg, hrun, hlast⟩
    obtain ⟨t', hrun', hlast'⟩ := c.run_eq s
    rw [hrun] at hrun'
    cases hrun'
    rw [hlast] at hlast'
    simp only [Option.some.injEq, ProgramEvent.syscall.injEq] at hlast'
    exact hlast'.1
  · rintro rfl
    obtain ⟨t, hrun, hlast⟩ := c.run_eq .initial
    exact ⟨_, _, t, _, hrun, hlast⟩

/-- `SYS_exit_group` -/
def sysExitGroupNumber : ℕ := 231

/-- The threads that are left after `thread` has made system call `number`. -/
def leftBySyscall (number : ℕ) (thread : Word) (live : Finset Word) : Finset Word :=
  if number = sysExitNumber then live.erase thread
  else if number = sysExitGroupNumber then ∅
  else live

@[simp] theorem leftBySyscall_sysExit (thread : Word) (live : Finset Word) :
    leftBySyscall sysExitNumber thread live = live.erase thread :=
  if_pos rfl

/-! ### The threads -/

/-- Where a thread stands: in code of the program, before the `clone` of
`_rt_thread_create`, before the `tkill` of `_rt_thread_terminate`, or in the
loop of `_rt_thread_cancell_all_running` with its `tcb_cur`. -/
inductive Pc
  | running
  | cloning (child : Word)
  | killing (target : Word)
  | cancelling (tcbCur : Word)
  deriving DecidableEq

structure State where
  /-- The threads that have neither ended nor been ended. -/
  live : Finset Word
  pc : Word → Pc
  blocks : Word → Option LdThreadBlock
  threadBlocksHead : Word
  /-- The threads with a `SIGCANCEL` that they have not handled. -/
  pending : Finset Word

inductive Act
  | work (thread : Word)
  | create (thread child : Word)
  | clone (thread child : Word) (tid : BitVec 32)
  | cloneFails (thread : Word)
  | terminate (thread target : Word)
  | tkill (thread target : Word)
  | handler (thread : Word)
  /-- Any other end of a thread: the return from its function, or a failed stack
  check. -/
  | finish (thread : Word)
  | leaveMain
  | cancelNext
  | final (thread : Word) (c : FinalCall)

def Act.thread (main : Word) : Act → Word
  | .work thread => thread
  | .create thread _ => thread
  | .clone thread _ _ => thread
  | .cloneFails thread => thread
  | .terminate thread _ => thread
  | .tkill thread _ => thread
  | .handler thread => thread
  | .finish thread => thread
  | .leaveMain => main
  | .cancelNext => main
  | .final thread _ => thread

def Act.IsFinal (a : Act) : Prop :=
  ∃ thread c, a = .final thread c

def State.setPc (s : State) (thread : Word) (pc : Pc) : State :=
  { s with pc := Function.update s.pc thread pc }

def State.modifyBlock (s : State) (tcb : Word) (f : LdThreadBlock → LdThreadBlock) : State :=
  { s with blocks := Function.update s.blocks tcb ((s.blocks tcb).map f) }

/-- `_rt_thread_create` up to the clone, with the new block at `tcb` in a
zero-filled mapping. -/
def State.addBlock (s : State) (tcb : Word) : State :=
  let linked :=
    if s.threadBlocksHead ≠ 0 then
      s.modifyBlock s.threadBlocksHead fun block => { block with nextTcb := tcb }
    else
      s
  { linked with
    blocks := Function.update linked.blocks tcb
      (some (rtThreadCreateTcb .zero s.threadBlocksHead))
    threadBlocksHead := tcb }

/-- The thread id of `target`, as `_rt_thread_terminate` reads it. The loader
gives the main thread the id 0, which no signal reaches. -/
def State.signalled (s : State) (target : Word) : Finset Word :=
  match s.blocks target with
  | some block => if block.threadId ≠ 0 then insert target s.pending else s.pending
  | none => s.pending

/-- `thread_sigcancel_handler` -/
def State.handleSigcancel (s : State) (thread : Word) : State :=
  { s with
    pending := s.pending.erase thread
    live := match s.blocks thread with
      | some block =>
          if block.isCancelled ≠ 0 then leftBySyscall sysExitNumber thread s.live else s.live
      | none => s.live }

/-- The steps of a program whose `main` runs in the thread `main`. -/
inductive Step (main : Word) : State → Act → State → Prop
  | work {s : State} {thread : Word} (hlive : thread ∈ s.live) (hpc : s.pc thread = .running) :
      Step main s (.work thread) s
  | create {s : State} {thread child : Word} (hlive : thread ∈ s.live)
      (hpc : s.pc thread = .running) (hnew : s.blocks child = none) (hnull : child ≠ 0) :
      Step main s (.create thread child) ((s.addBlock child).setPc thread (.cloning child))
  | clone {s : State} {thread child : Word} {tid : BitVec 32} (hlive : thread ∈ s.live)
      (hpc : s.pc thread = .cloning child) :
      Step main s (.clone thread child tid)
        { ((s.modifyBlock child fun block => cloneSetTid rtThreadCreateFlags block tid).setPc
            thread .running).setPc child .running with live := insert child s.live }
  | cloneFails {s : State} {thread child : Word} (hlive : thread ∈ s.live)
      (hpc : s.pc thread = .cloning child) :
      Step main s (.cloneFails thread) (s.setPc thread .running)
  | terminate {s : State} {thread target : Word} (hlive : thread ∈ s.live)
      (hpc : s.pc thread = .running) :
      Step main s (.terminate thread target)
        ((s.modifyBlock target fun block => { block with isCancelled := 1 }).setPc thread
          (.killing target))
  | tkill {s : State} {thread target : Word} (hlive : thread ∈ s.live)
      (hpc : s.pc thread = .killing target) :
      Step main s (.tkill thread target)
        { s.setPc thread .running with pending := s.signalled target }
  | handler {s : State} {thread : Word} (hlive : thread ∈ s.live) (hsignal : thread ∈ s.pending) :
      Step main s (.handler thread) (s.handleSigcancel thread)
  | finish {s : State} {thread : Word} (hlive : thread ∈ s.live)
      (hpc : s.pc thread = .running) :
      Step main s (.finish thread)
        { s with live := leftBySyscall sysExitNumber thread s.live }
  | leaveMain {s : State} (hlive : main ∈ s.live) (hpc : s.pc main = .running) :
      Step main s .leaveMain (s.setPc main (.cancelling s.threadBlocksHead))
  | cancelNext {s : State} {tcbCur : Word} {block : LdThreadBlock} (hlive : main ∈ s.live)
      (hpc : s.pc main = .cancelling tcbCur) (hblock : s.blocks tcbCur = some block)
      (hcur : tcbCur ≠ 0) :
      Step main s .cancelNext
        ((s.modifyBlock tcbCur fun block => { block with isCancelled := 1 }).setPc main
          (.cancelling block.nextTcb))
  | final {s : State} {thread : Word} {c : FinalCall} {number : ℕ} (hlive : thread ∈ s.live)
      (hpc : s.pc thread = .running) (hcall : ∀ params code, c ≠ .returnFromMain params code)
      (hnumber : c.EndsWith number) :
      Step main s (.final thread c) { s with live := leftBySyscall number thread s.live }
  | finalStart {s : State} {params : LdCrtParams} {code : BitVec 32} {number : ℕ}
      (hlive : main ∈ s.live) (hpc : s.pc main = .cancelling 0)
      (hnumber : (FinalCall.returnFromMain params code).EndsWith number) :
      Step main s (.final main (.returnFromMain params code))
        { s with live := leftBySyscall number main s.live }

/-- The main thread alone, as `_start` calls `main`. -/
def State.initial (main : Word) : State where
  live := {main}
  pc _ := .running
  blocks := Function.update (fun _ => none) main (some .zero)
  threadBlocksHead := 0
  pending := ∅

/-- Any program: each thread makes whatever calls it likes at any time. -/
def threads (main : Word) : System State Act where
  init s := s = .initial main
  step := Step main

/-- Every other thread has ended when the final system call is made. -/
def LastThread (s : State) (a : Act) : Prop :=
  ∀ thread c, a = .final thread c → ∀ other ∈ s.live, other = thread

variable {main : Word} {s t : State} {a : Act} {tr : List Act}

theorem Step.thread_live (h : Step main s a t) : a.thread main ∈ s.live := by
  cases h <;> assumption

/-- The final system call ends the thread that makes it, and no other. -/
theorem Step.final_live {thread : Word} {c : FinalCall} (h : Step main s (.final thread c) t) :
    t.live = s.live.erase thread ∧ t.pc = s.pc := by
  cases h with
  | final _ _ _ hnumber =>
      rw [FinalCall.endsWith_iff] at hnumber
      simp [hnumber]
  | finalStart _ _ hnumber =>
      rw [FinalCall.endsWith_iff] at hnumber
      simp [hnumber]

theorem no_step_of_live_empty (h : s.live = ∅) : ¬ Step main s a t := by
  intro hstep
  simpa [h] using hstep.thread_live

/-- A thread that was in code of the program when another one made its final
system call runs on. -/
theorem Step.work_after_final {thread other : Word} {c : FinalCall}
    (h : Step main s (.final thread c) t) (hlive : other ∈ s.live) (hother : other ≠ thread)
    (hpc : s.pc other = .running) : Step main t (.work other) t := by
  apply Step.work
  · rw [h.final_live.1]
    exact Finset.mem_erase.mpr ⟨hother, hlive⟩
  · rw [h.final_live.2, hpc]

/-- The program ends as a whole in every run in which each final system call is
made by a thread that is the last one. -/
theorem no_step_after_final (h : ((threads main).restrict LastThread).Reaches tr s)
    {pre post : List Act} (htr : tr = pre ++ a :: post) (hfinal : a.IsFinal) : post = [] := by
  rw [htr] at h
  obtain ⟨t, t', -, ⟨hstep, hlast⟩, hrun⟩ := h.exists_of_append
  obtain ⟨thread, c, rfl⟩ := hfinal
  have hlive : t'.live = ∅ := by
    rw [hstep.final_live.1, Finset.eq_empty_iff_forall_notMem]
    intro other hother
    obtain ⟨hne, hmem⟩ := Finset.mem_erase.mp hother
    exact hne (hlast thread c rfl other hmem)
  cases post with
  | nil => rfl
  | cons b post =>
      obtain ⟨u, ⟨hnext, -⟩, -⟩ := hrun.exists_of_cons
      exact absurd hnext (no_step_of_live_empty hlive)

/-- A thread is created and returns, then `main` calls `exit`. -/
def orderlyRun : List Act :=
  [.create 4096 8192, .clone 4096 8192 7, .finish 8192, .final 4096 (.exit 0)]

theorem no_step_after_final_orderlyRun :
    ∃ s, ((threads 4096).restrict LastThread).Reaches orderlyRun s ∧
      ∀ pre a post, orderlyRun = pre ++ a :: post → a.IsFinal → post = [] := by
  have hrun : ∃ s, ((threads 4096).restrict LastThread).Reaches orderlyRun s ∧ s.live = ∅ := by
    refine System.exists_reaches rfl ?_
    refine System.exists_run_cons ⟨.create (by decide) rfl rfl (by decide), by simp [LastThread]⟩ ?_
    refine System.exists_run_cons ⟨.clone (by decide) rfl, by simp [LastThread]⟩ ?_
    refine System.exists_run_cons ⟨.finish (by decide) rfl, by simp [LastThread]⟩ ?_
    refine System.exists_run_cons ⟨.final (by decide) rfl (by simp)
      (FinalCall.endsWith_iff.mpr rfl), ?_⟩ (System.exists_run_nil rfl)
    intro thread c hact other hother
    cases hact
    have hlive : other ∈ ({8192, 4096} : Finset Word).erase 8192 := hother
    simpa using hlive
  obtain ⟨s, hs, -⟩ := hrun
  exact ⟨s, hs, fun pre a post htr hfinal => no_step_after_final hs htr hfinal⟩

/-- The created thread is still there when `main` calls `exit`. -/
def orphanRun : List Act :=
  [.create 4096 8192, .clone 4096 8192 7, .final 4096 (.exit 0), .work 8192]

theorem no_step_after_final_fails : ¬ ∀ tr s, (threads 4096).Reaches tr s →
    ∀ pre a post, tr = pre ++ a :: post → a.IsFinal → post = [] := by
  intro h
  have hrun : ∃ s, (threads 4096).Reaches orphanRun s ∧ 8192 ∈ s.live := by
    refine System.exists_reaches rfl ?_
    refine System.exists_run_cons (.create (by decide) rfl rfl (by decide)) ?_
    refine System.exists_run_cons (.clone (by decide) rfl) ?_
    refine System.exists_run_cons
      (.final (by decide) rfl (by simp) (FinalCall.endsWith_iff.mpr rfl)) ?_
    exact System.exists_run_cons (.work (by decide) rfl) (System.exists_run_nil (by decide))
  obtain ⟨s, hs, -⟩ := hrun
  have hover := h _ s hs [.create 4096 8192, .clone 4096 8192 7] _ [.work 8192] rfl
    ⟨4096, .exit 0, rfl⟩
  cases hover

end Ciabatta.Tinyrt.Termination
