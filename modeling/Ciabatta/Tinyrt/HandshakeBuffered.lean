import Ciabatta.Lib.StoreBuffer
import Ciabatta.Tinyrt.JoinAgreement

/-!
The thread handshake on x86-64. The relaxed stores of the decision and the plain store
of the exit code are `mov` instructions, which stay in the store buffer of their core for
a while; the kernel's part of a futex call or of an exit begins with a full barrier. The
parties then simulate those of `Ciabatta.Tinyrt.Threads`, where each store is there at
once.
-/

namespace Ciabatta.Tinyrt

open Transition System StoreBuffer

/-- The words of the thread block that the parties share. -/
inductive Cell
  | stateDetach
  | stateFinish
  | exitCode
  deriving DecidableEq

abbrev CellVal (_ : Cell) : Type := BitVec 32

def LdThreadBlock.cells (tcb : LdThreadBlock) : ∀ c, CellVal c
  | .stateDetach => tcb.stateDetach
  | .stateFinish => tcb.stateFinish
  | .exitCode => tcb.exitCode

/-- The thread block with the shared words as a party sees them. -/
def LdThreadBlock.seen (tcb : LdThreadBlock) (m : ∀ c, CellVal c) : LdThreadBlock :=
  { tcb with
    stateDetach := m .stateDetach
    stateFinish := m .stateFinish
    exitCode := m .exitCode }

structure BufferedState (fn : ThreadFn) where
  /-- The words that are not shared. -/
  tcb : LdThreadBlock
  mem : Memory Party CellVal
  thread : ThreadPc fn
  kernel : KernelPc
  caller : CallerPc

/-- The steps of the parties, and one of the hardware: a store reaches its place. -/
inductive BufferedAct
  | act (a : Act)
  | drain (p : Party)

variable {fn : ThreadFn} {call : Call}

namespace BufferedState

def AsleepOnDetach (s : BufferedState fn) (p : Party) : Prop :=
  p = .thread ∧ ∃ code, s.thread = .asleep code

def AsleepOnFinish (s : BufferedState fn) (p : Party) : Prop :=
  p = .caller ∧ s.caller = .asleep

end BufferedState

inductive BufferedStep (call : Call) : BufferedState fn → BufferedAct → BufferedState fn → Prop
  | thread {s : BufferedState fn} {a : ThreadAct} {tcb : LdThreadBlock} {pc : ThreadPc fn}
      (h : ThreadStep (s.tcb.seen (s.mem.view .thread)) s.thread a tcb pc)
      (hload : a ≠ .storeExitCode)
      (hdrained : a = .waitDetach ∨ a = .exit → s.mem.Drained .thread) :
      BufferedStep call s (.act (.thread a))
        { s with thread := pc, kernel := if a = .exit then .clearTid else s.kernel }
  | storeExitCode {s : BufferedState fn} {code : BitVec 32} (h : s.thread = .storeExitCode code) :
      BufferedStep call s (.act (.thread .storeExitCode))
        { s with thread := .exit code, mem := s.mem.store .thread .exitCode code }
  | clearTid {s : BufferedState fn} (h : s.kernel = .clearTid) :
      BufferedStep call s (.act .clearTid)
        { s with
          mem := if rtThreadCreateFlags &&& cloneChildCleartid ≠ 0
            then s.mem.write .stateFinish 0 else s.mem
          kernel := .exitWake }
  | exitWake {s : BufferedState fn} {woken : Finset Party} (h : s.kernel = .exitWake)
      (hwakes : Futex.Wakes 1 s.AsleepOnFinish woken) :
      BufferedStep call s (.act (.exitWake woken))
        { s with kernel := .done, caller := s.caller.wake woken }
  | storeDetach {s : BufferedState fn} (h : s.caller = .storeDetach) :
      BufferedStep call s (.act .storeDetach)
        { s with
          mem := s.mem.store .caller .stateDetach call.decision
          caller := call.afterStore }
  | wakeDetach {s : BufferedState fn} {woken : Finset Party} (h : s.caller = .wakeDetach)
      (hdrained : s.mem.Drained .caller) (hwakes : Futex.Wakes 0 s.AsleepOnDetach woken) :
      BufferedStep call s (.act (.wakeDetach woken))
        { s with thread := s.thread.wake woken, caller := .checkFinish }
  | checkFinish {s : BufferedState fn} (h : s.caller = .checkFinish) :
      BufferedStep call s (.act .checkFinish)
        { s with
          caller := if s.mem.view .caller .stateFinish ≠ 0 then .waitFinish else .readExitCode }
  | waitFinish {s : BufferedState fn} (h : s.caller = .waitFinish)
      (hdrained : s.mem.Drained .caller) :
      BufferedStep call s (.act .waitFinish)
        { s with
          caller := if Futex.waitSleeps (s.mem.main .stateFinish) 0 then .asleep
            else .checkFinish }
  | interrupted {s : BufferedState fn} (h : s.caller = .asleep) :
      BufferedStep call s (.act .interrupted) { s with caller := .checkFinish }
  | readExitCode {s : BufferedState fn} (h : s.caller = .readExitCode) :
      BufferedStep call s (.act .readExitCode)
        { s with caller := .returned (thrdStatus rtStatusOk) (s.mem.view .caller .exitCode) }
  | drain {s : BufferedState fn} {p : Party} {e : Store CellVal} {es : List (Store CellVal)}
      (h : s.mem.buffer p = e :: es) :
      BufferedStep call s (.drain p) { s with mem := s.mem.drain p e es }

/-- The clone that starts the thread leaves no store of the creator in a buffer. -/
def bufferedHandshake (fn : ThreadFn) (call : Call) : System (BufferedState fn) BufferedAct where
  init s := ∃ head tid, s =
    { tcb := cloneSetTid rtThreadCreateFlags (rtThreadCreateTcb .zero head) tid
      mem := ⟨(cloneSetTid rtThreadCreateFlags (rtThreadCreateTcb .zero head) tid).cells,
        fun _ => []⟩
      thread := .running fn.entry
      kernel := .idle
      caller := .storeDetach }
  step := BufferedStep call

/-! ### The simulation -/

/-- The steps without buffers that a step amounts to. -/
def unbuffer : BufferedAct → List Act
  | .act .storeDetach | .act (.thread .storeExitCode) => []
  | .act a => [a]
  | .drain .thread => [.thread .storeExitCode]
  | .drain .caller => [.storeDetach]

/-- The thread with its buffer, and where it stands without one. -/
inductive ThreadPending : ThreadPc fn → List (Store CellVal) → ThreadPc fn → Prop
  | drained (pc : ThreadPc fn) : ThreadPending pc [] pc
  | exitCode (code : BitVec 32) :
      ThreadPending (.exit code) [⟨.exitCode, code⟩] (.storeExitCode code)

/-- The caller with its buffer, and where it stands without one. -/
inductive CallerPending (call : Call) : CallerPc → List (Store CellVal) → CallerPc → Prop
  | drained (pc : CallerPc) : CallerPending call pc [] pc
  | decision : CallerPending call call.afterStore [⟨.stateDetach, call.decision⟩] .storeDetach

/-- The simulation relation. -/
structure Unbuffered (call : Call) (s : BufferedState fn) (t : State fn) : Prop where
  cells : ∀ c, t.tcb.cells c = s.mem.main c
  thread : ThreadPending s.thread (s.mem.buffer .thread) t.thread
  caller : CallerPending call s.caller (s.mem.buffer .caller) t.caller
  kernel : t.kernel = s.kernel

variable {s s' : BufferedState fn} {t : State fn}

theorem ThreadPending.eq_of_drained {pc pc' : ThreadPc fn} (h : ThreadPending pc [] pc') :
    pc' = pc := by
  cases h
  rfl

theorem ThreadPending.drained_of_ne {pc pc' : ThreadPc fn} {es : List (Store CellVal)}
    (h : ThreadPending pc es pc') (hpc : ∀ code, pc ≠ .exit code) : es = [] ∧ pc' = pc := by
  cases h with
  | drained => exact ⟨rfl, rfl⟩
  | exitCode code => exact absurd rfl (hpc code)

theorem CallerPending.eq_of_drained {pc pc' : CallerPc} (h : CallerPending call pc [] pc') :
    pc' = pc := by
  cases h
  rfl

theorem CallerPending.drained_of_ne {pc pc' : CallerPc} {es : List (Store CellVal)}
    (h : CallerPending call pc es pc') (hpc : pc ≠ call.afterStore) : es = [] ∧ pc' = pc := by
  cases h with
  | drained => exact ⟨rfl, rfl⟩
  | decision => exact absurd rfl hpc

/-- Of the thread block a step of the thread reads only the decision. -/
theorem ThreadStep.congr {tcb tcb' u : LdThreadBlock} {pc pc' : ThreadPc fn} {a : ThreadAct}
    (h : ThreadStep tcb pc a tcb' pc') (ha : a ≠ .storeExitCode)
    (hdetach : u.stateDetach = tcb.stateDetach) : ThreadStep u pc a u pc' := by
  cases h with
  | compute h => exact .compute h
  | «return» h => exact .return h
  | loadDetach =>
      rw [← hdetach]
      exact .loadDetach
  | waitDetach =>
      rw [← hdetach]
      exact .waitDetach
  | interrupted => exact .interrupted
  | storeExitCode => exact absurd rfl ha
  | exit => exact .exit

namespace Unbuffered

theorem detach_eq (h : Unbuffered call s t) : t.tcb.stateDetach = s.mem.main .stateDetach :=
  h.cells .stateDetach

theorem finish_eq (h : Unbuffered call s t) : t.tcb.stateFinish = s.mem.main .stateFinish :=
  h.cells .stateFinish

theorem code_eq (h : Unbuffered call s t) : t.tcb.exitCode = s.mem.main .exitCode :=
  h.cells .exitCode

/-- Only before its exit call, which waits for it, does the thread have a store in its
buffer. -/
theorem thread_drained (h : Unbuffered call s t) {tcb tcb' : LdThreadBlock} {pc : ThreadPc fn}
    {a : ThreadAct} (hstep : ThreadStep tcb s.thread a tcb' pc)
    (hdrained : a = .waitDetach ∨ a = .exit → s.mem.Drained .thread) :
    s.mem.buffer .thread = [] ∧ t.thread = s.thread := by
  have hpending := h.thread
  by_cases hexit : ∃ code, s.thread = .exit code
  · obtain ⟨code, hcode⟩ := hexit
    have ha : a = .exit := by
      rw [hcode] at hstep
      cases hstep
      rfl
    have hempty : s.mem.buffer .thread = [] := hdrained (.inr ha)
    rw [hempty] at hpending
    exact ⟨hempty, hpending.eq_of_drained⟩
  · exact hpending.drained_of_ne fun code hcode => hexit ⟨code, hcode⟩

theorem threadStep (h : Unbuffered call s t) {tcb : LdThreadBlock} {pc : ThreadPc fn}
    {a : ThreadAct} (hstep : ThreadStep (s.tcb.seen (s.mem.view .thread)) s.thread a tcb pc)
    (hload : a ≠ .storeExitCode)
    (hdrained : a = .waitDetach ∨ a = .exit → s.mem.Drained .thread) :
    ThreadStep t.tcb t.thread a t.tcb pc := by
  obtain ⟨hempty, hpc⟩ := h.thread_drained hstep hdrained
  rw [hpc]
  refine hstep.congr hload ?_
  rw [h.detach_eq, Memory.view_of_drained hempty, LdThreadBlock.seen]

/-- What the caller reads is in the memory. -/
theorem caller_drained (h : Unbuffered call s t) {pc : CallerPc} (hpc : s.caller = pc)
    (hne : pc ≠ call.afterStore) : s.mem.Drained .caller ∧ t.caller = pc := by
  obtain ⟨hempty, hcaller⟩ := h.caller.drained_of_ne (hpc ▸ hne)
  exact ⟨hempty, hcaller.trans hpc⟩

theorem move_caller (h : Unbuffered call s t) (hdrained : s.mem.Drained .caller) (pc : CallerPc) :
    Unbuffered call { s with caller := pc } { t with caller := pc } := by
  refine ⟨h.cells, h.thread, ?_, h.kernel⟩
  change CallerPending call pc (s.mem.buffer .caller) pc
  rw [show s.mem.buffer .caller = [] from hdrained]
  exact .drained pc

theorem asleepOnFinish_eq (h : Unbuffered call s t) : t.AsleepOnFinish = s.AsleepOnFinish := by
  funext p
  rw [State.AsleepOnFinish, BufferedState.AsleepOnFinish]
  have hcaller := h.caller
  generalize s.caller = pc, s.mem.buffer .caller = es, t.caller = pc' at hcaller
  cases hcaller with
  | drained => rfl
  | decision => cases call <;> simp [Call.afterStore]

theorem asleepOnDetach_eq (h : Unbuffered call s t) : t.AsleepOnDetach = s.AsleepOnDetach := by
  funext p
  rw [State.AsleepOnDetach, BufferedState.AsleepOnDetach]
  have hthread := h.thread
  generalize s.thread = pc, s.mem.buffer .thread = es, t.thread = pc' at hthread
  cases hthread <;> simp

end Unbuffered

theorem afterStore_ne {pc : CallerPc} (h : pc ≠ .wakeDetach)
    (hreturned : ∀ result code, pc ≠ .returned result code) : pc ≠ call.afterStore := by
  cases call with
  | join => exact h
  | detach => exact hreturned _ _

namespace Unbuffered

theorem storeExitCode (h : Unbuffered call s t) {code : BitVec 32}
    (hpc : s.thread = .storeExitCode code) :
    Unbuffered call { s with
      thread := .exit code, mem := s.mem.store .thread .exitCode code } t := by
  obtain ⟨hempty, hthread⟩ := h.thread.drained_of_ne (by simp [hpc])
  refine ⟨h.cells, ?_, ?_, h.kernel⟩
  · change ThreadPending _ ((s.mem.store _ _ _).buffer _) _
    rw [Memory.store_buffer_self, hempty, hthread, hpc]
    exact .exitCode code
  · change CallerPending _ _ ((s.mem.store _ _ _).buffer _) _
    rw [Memory.store_buffer_of_ne (by decide)]
    exact h.caller

theorem storeDetach (h : Unbuffered call s t) (hpc : s.caller = .storeDetach) :
    Unbuffered call { s with
      mem := s.mem.store .caller .stateDetach call.decision, caller := call.afterStore } t := by
  obtain ⟨hempty, hcaller⟩ := h.caller_drained hpc (afterStore_ne (by simp) (by simp))
  refine ⟨h.cells, ?_, ?_, h.kernel⟩
  · change ThreadPending _ ((s.mem.store _ _ _).buffer _) _
    rw [Memory.store_buffer_of_ne (by decide)]
    exact h.thread
  · change CallerPending _ _ ((s.mem.store _ _ _).buffer _) _
    rw [Memory.store_buffer_self, hempty, hcaller]
    exact .decision

theorem clearTid (h : Unbuffered call s t) :
    Unbuffered call { s with
      mem := if rtThreadCreateFlags &&& cloneChildCleartid ≠ 0
        then s.mem.write .stateFinish 0 else s.mem
      kernel := .exitWake }
      { t with tcb := exitClearTid rtThreadCreateFlags t.tcb, kernel := .exitWake } := by
  rw [exitClearTid_create, if_pos (by decide)]
  refine ⟨fun c => ?_, h.thread, h.caller, rfl⟩
  cases c with
  | stateFinish => simp [LdThreadBlock.cells]
  | stateDetach => simpa [LdThreadBlock.cells] using h.detach_eq
  | exitCode => simpa [LdThreadBlock.cells] using h.code_eq

theorem exitWake (h : Unbuffered call s t) (woken : Finset Party) :
    Unbuffered call { s with kernel := .done, caller := s.caller.wake woken }
      { t with kernel := .done, caller := t.caller.wake woken } := by
  refine ⟨h.cells, h.thread, ?_, rfl⟩
  have hcaller := h.caller
  change CallerPending _ (s.caller.wake woken) (s.mem.buffer .caller) (t.caller.wake woken)
  generalize s.caller = pc, s.mem.buffer .caller = es, t.caller = pc' at hcaller
  cases hcaller with
  | drained => exact .drained _
  | decision =>
      have hawake : call.afterStore.wake woken = call.afterStore := by cases call <;> rfl
      rw [hawake]
      exact .decision

/-- The store of a party reaches its place: without buffers it happens now. -/
theorem drain (h : Unbuffered call s t) {p : Party} {e : Store CellVal} {es : List (Store CellVal)}
    (he : s.mem.buffer p = e :: es) :
    ∃ t', (handshake fn call).Run t (unbuffer (.drain p)) t' ∧
      Unbuffered call { s with mem := s.mem.drain p e es } t' := by
  cases p with
  | thread =>
      have hpending := h.thread
      rw [he] at hpending
      generalize hpc : s.thread = pc, hpc' : t.thread = pc' at hpending
      cases hpending with
      | exitCode code =>
          have hstore : ThreadStep t.tcb t.thread .storeExitCode { t.tcb with exitCode := code }
              (.exit code) := by
            rw [hpc']
            exact .storeExitCode
          refine ⟨_, .single (Step.thread hstore), ⟨fun c => ?_, ?_, ?_, h.kernel⟩⟩
          · cases c with
            | exitCode => simp [LdThreadBlock.cells]
            | stateDetach => simpa [LdThreadBlock.cells] using h.detach_eq
            | stateFinish => simpa [LdThreadBlock.cells] using h.finish_eq
          · change ThreadPending _ ((s.mem.drain _ _ _).buffer _) _
            rw [Memory.drain_buffer_self]
            exact .drained _
          · change CallerPending _ _ ((s.mem.drain _ _ _).buffer _) _
            rw [Memory.drain_buffer_of_ne (by decide)]
            exact h.caller
  | caller =>
      have hpending := h.caller
      rw [he] at hpending
      generalize hpc : s.caller = pc, hpc' : t.caller = pc' at hpending
      cases hpending with
      | decision =>
          refine ⟨_, .single (Step.storeDetach hpc'), ⟨fun c => ?_, ?_, ?_, h.kernel⟩⟩
          · cases c with
            | exitCode => simpa [LdThreadBlock.cells] using h.code_eq
            | stateDetach => simp [LdThreadBlock.cells]
            | stateFinish => simpa [LdThreadBlock.cells] using h.finish_eq
          · change ThreadPending _ ((s.mem.drain _ _ _).buffer _) _
            rw [Memory.drain_buffer_of_ne (by decide)]
            exact h.thread
          · change CallerPending _ _ ((s.mem.drain _ _ _).buffer _) _
            rw [Memory.drain_buffer_self]
            exact .drained _

end Unbuffered

theorem unbuffer_thread {a : ThreadAct} (h : a ≠ .storeExitCode) :
    unbuffer (.act (.thread a)) = [.thread a] := by
  cases a with
  | storeExitCode => exact absurd rfl h
  | _ => rfl

theorem unbuffered_step {a : BufferedAct} (h : Unbuffered call s t)
    (hstep : BufferedStep call s a s') :
    ∃ t', (handshake fn call).Run t (unbuffer a) t' ∧ Unbuffered call s' t' := by
  cases hstep with
  | @thread a tcb pc hthread hload hdrained =>
      have hone : Step call t (.thread a) _ := .thread (h.threadStep hthread hload hdrained)
      obtain ⟨hempty, -⟩ := h.thread_drained hthread hdrained
      rw [unbuffer_thread hload]
      refine ⟨_, .single hone, ⟨h.cells, ?_, h.caller, ?_⟩⟩
      · change ThreadPending pc (s.mem.buffer .thread) pc
        rw [hempty]
        exact .drained pc
      · rw [h.kernel]
  | storeExitCode hpc => exact ⟨t, .refl t, h.storeExitCode hpc⟩
  | storeDetach hpc => exact ⟨t, .refl t, h.storeDetach hpc⟩
  | clearTid hk => exact ⟨_, .single (.clearTid (h.kernel.trans hk)), h.clearTid⟩
  | @exitWake woken hk hwakes =>
      rw [← h.asleepOnFinish_eq] at hwakes
      exact ⟨_, .single (.exitWake (h.kernel.trans hk) hwakes), h.exitWake woken⟩
  | @wakeDetach woken hpc hdrained hwakes =>
      have hcaller := h.caller
      rw [show s.mem.buffer .caller = [] from hdrained] at hcaller
      have hpct : t.caller = .wakeDetach := hcaller.eq_of_drained.trans hpc
      rw [← h.asleepOnDetach_eq] at hwakes
      have hone : Step call t (.wakeDetach woken) _ := .wakeDetach hpct hwakes
      rw [hwakes.eq_empty, ThreadPc.wake_empty] at hone ⊢
      exact ⟨_, .single hone, h.move_caller hdrained _⟩
  | checkFinish hpc =>
      obtain ⟨hdrained, hpct⟩ := h.caller_drained hpc (afterStore_ne (by simp) (by simp))
      have hone : Step call t .checkFinish _ := .checkFinish hpct
      rw [Memory.view_of_drained hdrained, ← h.finish_eq]
      exact ⟨_, .single hone, h.move_caller hdrained _⟩
  | waitFinish hpc hdrained =>
      obtain ⟨-, hpct⟩ := h.caller_drained hpc (afterStore_ne (by simp) (by simp))
      have hone : Step call t .waitFinish _ := .waitFinish hpct
      rw [← h.finish_eq]
      exact ⟨_, .single hone, h.move_caller hdrained _⟩
  | interrupted hpc =>
      obtain ⟨hdrained, hpct⟩ := h.caller_drained hpc (afterStore_ne (by simp) (by simp))
      exact ⟨_, .single (.interrupted hpct), h.move_caller hdrained _⟩
  | readExitCode hpc =>
      obtain ⟨hdrained, hpct⟩ := h.caller_drained hpc (afterStore_ne (by simp) (by simp))
      have hone : Step call t .readExitCode _ := .readExitCode hpct
      rw [Memory.view_of_drained hdrained, ← h.code_eq]
      exact ⟨_, .single hone, h.move_caller hdrained _⟩
  | drain he => exact h.drain he

/-- The parties on x86-64 do what those without store buffers can do. -/
theorem bufferedHandshake_simulates :
    Simulation (bufferedHandshake fn call) (handshake fn call) unbuffer (Unbuffered call) where
  init := by
    rintro s ⟨head, tid, rfl⟩
    exact ⟨_, ⟨head, tid, rfl⟩, fun _ => rfl, .drained _, .drained _, rfl⟩
  step := fun _ _ _ _ h hstep => unbuffered_step h hstep

/-! ### Main result -/

/-- The value that the thread function returns in a step, if it does. -/
def BufferedAct.returnCode : BufferedAct → Option (BitVec 32)
  | .act a => a.returnCode
  | .drain _ => none

theorem filterMap_unbuffer (tr : List BufferedAct) :
    (tr.flatMap unbuffer).filterMap Act.returnCode = tr.filterMap BufferedAct.returnCode := by
  have hone (a : BufferedAct) :
      (unbuffer a).filterMap Act.returnCode = a.returnCode.toList := by
    rcases a with a | p
    · cases a with
      | thread a => cases a <;> rfl
      | _ => rfl
    · cases p <;> rfl
  induction tr with
  | nil => rfl
  | cons a tr ih =>
      rw [List.flatMap_cons, List.filterMap_append, ih, hone, List.filterMap_cons]
      cases a.returnCode <;> rfl

/-- After its exit the thread is stuck, and nothing is left in its buffer. -/
theorem no_thread_act {tr : List BufferedAct} {u : BufferedState fn} (h : s.thread = .exited)
    (hrun : (bufferedHandshake fn call).Run s tr u) (a : ThreadAct) : .act (.thread a) ∉ tr := by
  have hall : u.thread = .exited ∧ .act (.thread a) ∉ tr := by
    induction hrun with
    | refl => exact ⟨h, List.not_mem_nil⟩
    | snoc _ hstep ih =>
        obtain ⟨hexited, hmem⟩ := ih
        cases hstep with
        | thread hthread => exact absurd hexited hthread.not_exited
        | storeExitCode hpc => cases hexited.symm.trans hpc
        | wakeDetach => exact ⟨(ThreadPc.wake_exited_iff _ _).mpr hexited, by simpa using hmem⟩
        | _ => exact ⟨hexited, by simpa using hmem⟩
  exact hall.2

theorem buffered_join_agreement {tr : List BufferedAct} {code : BitVec 32}
    (h : (bufferedHandshake fn .join).Reaches tr s)
    (hreturned : s.caller = .returned thrdSuccess code) :
    tr.filterMap BufferedAct.returnCode = [code] ∧ s.mem.Drained .thread ∧
      ∀ tr' u, (bufferedHandshake fn .join).Run s tr' u → ∀ a, .act (.thread a) ∉ tr' := by
  obtain ⟨t, ht, hst⟩ := bufferedHandshake_simulates.reaches h
  obtain ⟨-, hcaller⟩ := hst.caller_drained hreturned nofun
  obtain ⟨hexited, -, hcode⟩ := (joinInv_reaches ht).result _ _ hcaller
  have hthread := hst.thread
  rw [hexited] at hthread
  have hdone : s.mem.buffer .thread = [] ∧ s.thread = .exited := by
    generalize s.thread = pc, s.mem.buffer .thread = es at hthread
    cases hthread
    exact ⟨rfl, rfl⟩
  refine ⟨?_, hdone.1, fun tr' u hrun a => no_thread_act hdone.2 hrun a⟩
  rw [← filterMap_unbuffer, (codeInv_reaches ht).returns, hcode, State.code, hexited]
  rfl

/-- The decision reaches the memory before the wake, and the exit code before the exit. -/
def bufferedJoinedRun : List BufferedAct :=
  [.act (.thread (.return 7)), .act .storeDetach, .drain .caller, .act (.wakeDetach ∅),
    .act (.thread .loadDetach), .act (.thread .storeExitCode), .act .checkFinish,
    .drain .thread, .act (.thread .exit), .act .clearTid, .act .waitFinish,
    .act (.exitWake {.caller}), .act .checkFinish, .act .readExitCode]

theorem bufferedJoinedRun_reaches :
    ∃ s, (bufferedHandshake returnsSeven .join).Reaches bufferedJoinedRun s ∧
      s.caller = .returned thrdSuccess 7 := by
  have hinit : (bufferedHandshake returnsSeven .join).init _ := ⟨0, 42, rfl⟩
  refine exists_reaches hinit (exists_run_cons (.thread (.return rfl) nofun nofun) ?_)
  refine exists_run_cons (.storeDetach rfl) ?_
  refine exists_run_cons (BufferedStep.drain (e := ⟨.stateDetach, 2⟩) rfl) ?_
  refine exists_run_cons (.wakeDetach rfl rfl (Futex.wakes_zero _)) ?_
  refine exists_run_cons (.thread .loadDetach nofun nofun) ?_
  refine exists_run_cons (.storeExitCode rfl) (exists_run_cons (.checkFinish rfl) ?_)
  refine exists_run_cons (BufferedStep.drain (e := ⟨.exitCode, 7⟩) rfl) ?_
  refine exists_run_cons (.thread .exit nofun fun _ => rfl) (exists_run_cons (.clearTid rfl) ?_)
  refine exists_run_cons (.waitFinish rfl rfl) ?_
  refine exists_run_cons (.exitWake rfl (Futex.wakes_one ⟨rfl, rfl⟩)) ?_
  exact exists_run_cons (.checkFinish rfl) (exists_run_cons (.readExitCode rfl)
    (exists_run_nil rfl))

theorem buffered_join_agreement_joinedRun : ∃ s,
    (bufferedHandshake returnsSeven .join).Reaches bufferedJoinedRun s ∧
      bufferedJoinedRun.filterMap BufferedAct.returnCode = [7] := by
  obtain ⟨s, hs, hreturned⟩ := bufferedJoinedRun_reaches
  exact ⟨s, hs, (buffered_join_agreement hs hreturned).1⟩

end Ciabatta.Tinyrt
