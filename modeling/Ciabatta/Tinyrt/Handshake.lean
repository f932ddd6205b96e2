import Ciabatta.Tinyrt.Threads

/-!
The two futex waits of the thread handshake. Each of them can lose its wake:
the joiner waits with compare value 0, the very value that the exit stores, and
the wake of the decision wakes no waiter (`thrd_join` asks for 0 of them,
`thrd_detach` does not ask at all). For each side this file has a run into the
stranded state and the condition on the order of steps that excludes it.
-/

namespace Ciabatta.Tinyrt

open Transition System

variable {fn : ThreadFn} {call : Call}

/-- The word `state_finish` and the place of the kernel say the same. -/
structure ExitInv (s : State fn) : Prop where
  exited : s.kernel ≠ .idle ↔ s.thread = .exited
  finish : s.tcb.stateFinish = if s.kernel = .exitWake ∨ s.kernel = .done then 0 else 1

theorem ThreadStep.frame {tcb tcb' : LdThreadBlock} {pc pc' : ThreadPc fn}
    {a : ThreadAct} (h : ThreadStep tcb pc a tcb' pc') :
    tcb'.stateFinish = tcb.stateFinish ∧ tcb'.stateDetach = tcb.stateDetach := by
  cases h <;> exact ⟨rfl, rfl⟩

theorem ThreadStep.not_exited {tcb tcb' : LdThreadBlock} {pc pc' : ThreadPc fn}
    {a : ThreadAct} (h : ThreadStep tcb pc a tcb' pc') : pc ≠ .exited := by
  cases h <;> simp

/-- Only the exit call leads to the end of the thread. -/
theorem ThreadStep.exited_iff {tcb tcb' : LdThreadBlock} {pc pc' : ThreadPc fn}
    {a : ThreadAct} (h : ThreadStep tcb pc a tcb' pc') : pc' = .exited ↔ a = .exit := by
  cases h with
  | loadDetach => split <;> simp
  | waitDetach => split <;> simp
  | _ => simp

theorem exitInv_init {s : State fn} (h : (handshake fn call).init s) : ExitInv s := by
  obtain ⟨head, tid, rfl⟩ := h
  constructor
  · simp
  · simp only [cloneSetTid]
    split <;> rfl

theorem ExitInv.of_same {s s' : State fn} (h : ExitInv s)
    (hkernel : s'.kernel = s.kernel) (hthread : s'.thread = .exited ↔ s.thread = .exited)
    (hfinish : s'.tcb.stateFinish = s.tcb.stateFinish) : ExitInv s' where
  exited := by rw [hkernel, hthread, h.exited]
  finish := by rw [hkernel, hfinish, h.finish]

theorem ThreadPc.wake_exited_iff (pc : ThreadPc fn) (woken : Finset Party) :
    pc.wake woken = .exited ↔ pc = .exited := by
  cases pc with
  | asleep code =>
      simp only [ThreadPc.wake]
      split <;> simp
  | _ => rfl

theorem exitInv_step {s s' : State fn} {a : Act} (h : ExitInv s)
    (hstep : Step call s a s') : ExitInv s' := by
  cases hstep with
  | @thread a tcb pc ht =>
      have hidle : s.kernel = .idle := by
        by_contra hne
        exact ht.not_exited (h.exited.mp hne)
      by_cases ha : a = .exit
      · subst ha
        refine ⟨by simp [ht.exited_iff], ?_⟩
        simp [ht.frame.1, h.finish, hidle]
      · refine h.of_same (by simp [ha]) ?_ ht.frame.1
        simp [ht.exited_iff, ha, ht.not_exited]
  | clearTid hk =>
      refine ⟨?_, by simp [exitClearTid_create]⟩
      simpa using h.exited.mp (by simp [hk])
  | exitWake hk _ =>
      refine ⟨?_, ?_⟩
      · simpa using h.exited.mp (by simp [hk])
      · simpa [hk] using h.finish
  | wakeDetach => exact h.of_same rfl (s.thread.wake_exited_iff _) rfl
  | _ => exact h.of_same rfl Iff.rfl rfl

theorem exitInv_reaches {tr : List Act} {s : State fn}
    (h : (handshake fn call).Reaches tr s) : ExitInv s :=
  h.invariant (fun _ hi => exitInv_init hi) (fun _ _ _ hI hstep => exitInv_step hI hstep)

/-! ### The order of the steps

The condition of each side, and a run that keeps both. -/

/-- The exit wake does not fall between the joiner's load of `state_finish`,
which has seen it set, and the futex wait that follows. -/
def ExitWakeOutsideWindow (s : State fn) (a : Act) : Prop :=
  ∀ woken, a = .exitWake woken → s.caller ≠ .waitFinish

/-- The decision is not stored while the finishing thread is asleep. -/
def DecisionWhileAwake (s : State fn) (a : Act) : Prop :=
  a = .storeDetach → ∀ code, s.thread ≠ .asleep code

/-- Both conditions of this file at once. -/
def InOrder (s : State fn) (a : Act) : Prop :=
  ExitWakeOutsideWindow s a ∧ DecisionWhileAwake s a

/-- The thread of the fixed runs below: it returns 7 at once. -/
def returnsSeven : ThreadFn where
  State := Unit
  entry := ()
  step _ _ := False
  ret _ code := code = 7

def sevenStart : State returnsSeven where
  tcb := cloneSetTid rtThreadCreateFlags (rtThreadCreateTcb .zero 0) 42
  thread := .running ()
  kernel := .idle
  caller := .storeDetach

theorem sevenStart_init (call : Call) : (handshake returnsSeven call).init sevenStart :=
  ⟨0, 42, rfl⟩

/-- A join that goes well: the futex wait comes while `state_finish` is still 1
and returns at once, and the exit falls before the next check. -/
def joinedRun : List Act :=
  [.storeDetach, .wakeDetach ∅, .checkFinish, .waitFinish, .thread (.return 7),
    .thread .loadDetach, .thread .storeExitCode, .thread .exit, .clearTid, .exitWake ∅,
    .checkFinish, .readExitCode]

theorem joinedRun_reaches :
    ∃ s, ((handshake returnsSeven .join).restrict InOrder).Reaches joinedRun s ∧
      s.caller = .returned thrdSuccess 7 := by
  have hquiet (s : State returnsSeven) {a : Act} (hwake : ∀ woken, a ≠ .exitWake woken)
      (hstore : a ≠ .storeDetach) : InOrder s a :=
    ⟨fun woken h => absurd h (hwake woken), fun h => absurd h hstore⟩
  refine exists_reaches (sevenStart_init .join)
    (exists_run_cons ⟨.storeDetach rfl, nofun, nofun⟩ ?_)
  refine exists_run_cons ⟨.wakeDetach rfl (Futex.wakes_zero _), hquiet _ nofun nofun⟩ ?_
  refine exists_run_cons ⟨.checkFinish rfl, hquiet _ nofun nofun⟩ ?_
  refine exists_run_cons ⟨.waitFinish rfl, hquiet _ nofun nofun⟩ ?_
  refine exists_run_cons ⟨.thread (.return rfl), hquiet _ nofun nofun⟩ ?_
  refine exists_run_cons ⟨.thread .loadDetach, hquiet _ nofun nofun⟩ ?_
  refine exists_run_cons ⟨.thread .storeExitCode, hquiet _ nofun nofun⟩ ?_
  refine exists_run_cons ⟨.thread .exit, hquiet _ nofun nofun⟩ ?_
  refine exists_run_cons ⟨.clearTid rfl, hquiet _ nofun nofun⟩ ?_
  refine exists_run_cons ⟨.exitWake rfl (Futex.wakes_none 1 ?_), ?_, nofun⟩ ?_
  · rintro p ⟨-, hasleep⟩
    exact absurd hasleep (by decide)
  · exact fun _ _ => by decide
  · exact exists_run_cons ⟨.checkFinish rfl, hquiet _ nofun nofun⟩
      (exists_run_cons ⟨.readExitCode rfl, hquiet _ nofun nofun⟩ (exists_run_nil rfl))

/-! ### The joiner's side -/

/-- The exit is over and has been announced, and the joiner sleeps on. -/
def JoinerStranded (s : State fn) : Prop :=
  s.tcb.stateFinish = 0 ∧ s.kernel = .done ∧ s.caller = .asleep

theorem CallerPc.wake_ne_waitFinish {pc : CallerPc} {woken : Finset Party}
    (h : pc ≠ .waitFinish) : pc.wake woken ≠ .waitFinish := by
  cases pc with
  | asleep =>
      simp only [CallerPc.wake]
      split <;> simp
  | _ => exact h

/-- A sleeping joiner is the one waiter that the exit wakes. -/
theorem exitWake_wakes {s : State fn} {woken : Finset Party}
    (h : Futex.Wakes 1 s.AsleepOnFinish woken) : s.caller.wake woken ≠ .asleep := by
  cases hc : s.caller with
  | asleep =>
      obtain ⟨p, hp⟩ := h.exists_mem (i := .caller) ⟨rfl, hc⟩
      obtain ⟨rfl, -⟩ := h.asleep_of_mem p hp
      simp [CallerPc.wake, hp]
  | _ => simp [CallerPc.wake]

/-- After the exit wake the joiner neither sleeps nor is about to. -/
def JoinerFree (s : State fn) : Prop :=
  s.kernel = .done → s.caller ≠ .waitFinish ∧ s.caller ≠ .asleep

theorem joinerFree_step {s s' : State fn} {a : Act} (hexit : ExitInv s)
    (h : JoinerFree s) (hstep : Step call s a s') (hP : ExitWakeOutsideWindow s a) :
    JoinerFree s' := by
  cases hstep with
  | @thread a tcb pc ht =>
      intro hdone
      by_cases ha : a = .exit
      · simp [ha] at hdone
      · exact h (by simpa [ha] using hdone)
  | clearTid => exact fun hdone => by simp at hdone
  | exitWake _ hwakes =>
      exact fun _ => ⟨CallerPc.wake_ne_waitFinish (hP _ rfl), exitWake_wakes hwakes⟩
  | storeDetach =>
      intro _
      cases call <;> simp [Call.afterStore]
  | wakeDetach => exact fun _ => by simp
  | checkFinish =>
      intro hdone
      have hzero : s.tcb.stateFinish = 0 := by
        simpa [show s.kernel = .done from hdone] using hexit.finish
      simp [hzero]
  | waitFinish hc => exact fun hdone => absurd hc (h hdone).1
  | interrupted => exact fun _ => by simp
  | readExitCode => exact fun _ => by simp

/-- As long as the exit wake stays out of the joiner's window between check and
wait, the joiner is never stranded. -/
theorem joiner_not_stranded {tr : List Act} {s : State fn}
    (h : ((handshake fn .join).restrict ExitWakeOutsideWindow).Reaches tr s) :
    ¬ JoinerStranded s := by
  have hinv : ExitInv s ∧ JoinerFree s := by
    refine h.invariant (I := fun s => ExitInv s ∧ JoinerFree s) ?_ ?_
    · intro s hi
      have hstart : (handshake fn .join).init s := hi
      refine ⟨exitInv_init hstart, ?_⟩
      obtain ⟨head, tid, rfl⟩ := hi
      simp [JoinerFree]
    · rintro s a t ⟨hexit, hfree⟩ ⟨hstep, hP⟩
      exact ⟨exitInv_step hexit hstep, joinerFree_step hexit hfree hstep hP⟩
  rintro ⟨-, hdone, hasleep⟩
  exact (hinv.2 hdone).2 hasleep

theorem joiner_not_stranded_joinedRun :
    ∃ s, ((handshake returnsSeven .join).restrict InOrder).Reaches joinedRun s ∧
      ¬ JoinerStranded s := by
  obtain ⟨s, hs, -⟩ := joinedRun_reaches
  exact ⟨s, hs, joiner_not_stranded (hs.restrict_mono fun _ _ h => h.1)⟩

/-- The exit of the thread, wake included, falls between the joiner's check and
its futex wait. -/
def lostExitWake : List Act :=
  [.storeDetach, .wakeDetach ∅, .checkFinish, .thread (.return 7), .thread .loadDetach,
    .thread .storeExitCode, .thread .exit, .clearTid, .exitWake ∅, .waitFinish]

theorem lostExitWake_strands :
    ∃ s, (handshake returnsSeven .join).Reaches lostExitWake s ∧ JoinerStranded s := by
  refine exists_reaches (sevenStart_init .join) (exists_run_cons (.storeDetach rfl) ?_)
  refine exists_run_cons (.wakeDetach rfl (Futex.wakes_zero _)) ?_
  refine exists_run_cons (.checkFinish rfl) (exists_run_cons (.thread (.return rfl)) ?_)
  refine exists_run_cons (.thread .loadDetach) (exists_run_cons (.thread .storeExitCode) ?_)
  refine exists_run_cons (.thread .exit) (exists_run_cons (.clearTid rfl) ?_)
  refine exists_run_cons (.exitWake rfl (Futex.wakes_none 1 ?_)) ?_
  · rintro p ⟨-, hasleep⟩
    exact absurd hasleep (by decide)
  · exact exists_run_cons (.waitFinish rfl) (exists_run_nil ⟨rfl, rfl, rfl⟩)

/-- The joiner can be stranded. -/
theorem joiner_stranded : ¬ ∀ (tr : List Act) (s : State returnsSeven),
    (handshake returnsSeven .join).Reaches tr s → ¬ JoinerStranded s := by
  intro hclaim
  obtain ⟨s, hs, hbad⟩ := lostExitWake_strands
  exact hclaim _ s hs hbad

/-- The condition is the exact one: an exit wake inside the window leaves the
joiner one step, its futex wait, and that step strands it. -/
theorem stranded_of_exitWake_in_window {tr : List Act} {s t : State fn}
    {woken : Finset Party} (h : (handshake fn call).Reaches tr s)
    (hwindow : s.caller = .waitFinish) (hstep : Step call s (.exitWake woken) t) :
    ∃ u, Step call t .waitFinish u ∧ JoinerStranded u := by
  cases hstep with
  | exitWake hk _ =>
      have hzero : s.tcb.stateFinish = 0 := by
        simpa [hk] using (exitInv_reaches h).finish
      refine ⟨_, .waitFinish (by simp [hwindow, CallerPc.wake]), hzero, rfl, ?_⟩
      simp [hzero]

/-! ### The finisher's side -/

/-- The decision is stored, the call has no wake left to perform, and the
finishing thread sleeps on. -/
def FinisherStranded (s : State fn) : Prop :=
  s.tcb.stateDetach ≠ threadStateNotYet ∧
    s.caller ≠ .storeDetach ∧ s.caller ≠ .wakeDetach ∧ ∃ code, s.thread = .asleep code

theorem Call.decision_ne_notYet (call : Call) : call.decision ≠ threadStateNotYet := by
  cases call <;> decide

/-- Once the decision is there, the finishing thread is awake. -/
def FinisherFree (s : State fn) : Prop :=
  s.caller ≠ .storeDetach →
    s.tcb.stateDetach ≠ threadStateNotYet ∧ ∀ code, s.thread ≠ .asleep code

theorem FinisherFree.of_same {s s' : State fn} (h : FinisherFree s)
    (hcaller : s'.caller ≠ .storeDetach → s.caller ≠ .storeDetach)
    (hdetach : s'.tcb.stateDetach = s.tcb.stateDetach)
    (hthread : s'.thread = s.thread) : FinisherFree s' := by
  intro hc
  rw [hdetach, hthread]
  exact h (hcaller hc)

/-- With a decision stored the futex wait returns at once, so no step of the
thread puts it to sleep. -/
theorem ThreadStep.not_asleep {tcb tcb' : LdThreadBlock} {pc pc' : ThreadPc fn}
    {a : ThreadAct} (h : ThreadStep tcb pc a tcb' pc')
    (hdetach : tcb.stateDetach ≠ threadStateNotYet) (code : BitVec 32) :
    pc' ≠ .asleep code := by
  cases h with
  | loadDetach => split <;> simp
  | waitDetach => simp [hdetach]
  | _ => simp

theorem finisherFree_step {s s' : State fn} {a : Act} (h : FinisherFree s)
    (hstep : Step call s a s') (hP : DecisionWhileAwake s a) : FinisherFree s' := by
  cases hstep with
  | thread ht =>
      intro hc
      have hdetach := (h hc).1
      exact ⟨by simpa [ht.frame.2] using hdetach, ht.not_asleep hdetach⟩
  | clearTid =>
      exact h.of_same id (by simp [exitClearTid_create]) rfl
  | @exitWake woken _ _ =>
      refine h.of_same (fun hc hstore => hc ?_) rfl rfl
      simp [hstore, CallerPc.wake]
  | storeDetach => exact fun _ => ⟨call.decision_ne_notYet, hP rfl⟩
  | wakeDetach hc hwakes =>
      refine h.of_same (fun _ => by simp [hc]) rfl ?_
      simp [hwakes.eq_empty, ThreadPc.wake_empty]
  | checkFinish hc => exact h.of_same (fun _ => by simp [hc]) rfl rfl
  | waitFinish hc => exact h.of_same (fun _ => by simp [hc]) rfl rfl
  | interrupted hc => exact h.of_same (fun _ => by simp [hc]) rfl rfl
  | readExitCode hc => exact h.of_same (fun _ => by simp [hc]) rfl rfl

/-- As long as the decision is stored while the thread is awake, neither call
leaves the finishing thread stranded. -/
theorem finisher_not_stranded {tr : List Act} {s : State fn}
    (h : ((handshake fn call).restrict DecisionWhileAwake).Reaches tr s) :
    ¬ FinisherStranded s := by
  have hinv : FinisherFree s := by
    refine h.invariant (I := FinisherFree) ?_ ?_
    · rintro s ⟨head, tid, rfl⟩ hc
      exact absurd rfl hc
    · rintro s a t hfree ⟨hstep, hP⟩
      exact finisherFree_step hfree hstep hP
  rintro ⟨-, hc, -, code, hasleep⟩
  exact (hinv hc).2 code hasleep

theorem finisher_not_stranded_joinedRun :
    ∃ s, ((handshake returnsSeven .join).restrict InOrder).Reaches joinedRun s ∧
      ¬ FinisherStranded s := by
  obtain ⟨s, hs, -⟩ := joinedRun_reaches
  exact ⟨s, hs, finisher_not_stranded (hs.restrict_mono fun _ _ h => h.2)⟩

/-- The thread finishes first and sleeps; the decision comes after. -/
def lateDecision : Call → List Act
  | .join => [.thread (.return 7), .thread .loadDetach, .thread .waitDetach, .storeDetach,
      .wakeDetach ∅]
  | .detach => [.thread (.return 7), .thread .loadDetach, .thread .waitDetach, .storeDetach]

theorem lateDecision_strands (call : Call) :
    ∃ s, (handshake returnsSeven call).Reaches (lateDecision call) s ∧ FinisherStranded s := by
  have hdecided : threadStateJoined ≠ threadStateNotYet := by decide
  have hdetached : threadStateDetached ≠ threadStateNotYet := by decide
  cases call with
  | join =>
      refine exists_reaches (sevenStart_init .join) (exists_run_cons (.thread (.return rfl)) ?_)
      refine exists_run_cons (.thread .loadDetach) (exists_run_cons (.thread .waitDetach) ?_)
      exact exists_run_cons (.storeDetach rfl) (exists_run_cons
        (.wakeDetach rfl (Futex.wakes_zero _)) (exists_run_nil ⟨hdecided, nofun, nofun, 7, rfl⟩))
  | detach =>
      refine exists_reaches (sevenStart_init .detach)
        (exists_run_cons (.thread (.return rfl)) ?_)
      refine exists_run_cons (.thread .loadDetach) (exists_run_cons (.thread .waitDetach) ?_)
      exact exists_run_cons (.storeDetach rfl)
        (exists_run_nil ⟨hdetached, nofun, nofun, 7, rfl⟩)

/-- Either call can strand the finishing thread. -/
theorem finisher_stranded :
    (¬ ∀ (tr : List Act) (s : State returnsSeven),
      (handshake returnsSeven .join).Reaches tr s → ¬ FinisherStranded s) ∧
    ¬ ∀ (tr : List Act) (s : State returnsSeven),
      (handshake returnsSeven .detach).Reaches tr s → ¬ FinisherStranded s := by
  constructor
  · intro hclaim
    obtain ⟨s, hs, hbad⟩ := lateDecision_strands .join
    exact hclaim _ s hs hbad
  · intro hclaim
    obtain ⟨s, hs, hbad⟩ := lateDecision_strands .detach
    exact hclaim _ s hs hbad

/-- Here too the condition is the exact one: a decision stored while the thread
is asleep strands it once the call has performed its wake. -/
theorem stranded_of_decision_asleep {s t : State fn} {code : BitVec 32}
    (hasleep : s.thread = .asleep code) (hstep : Step call s .storeDetach t) :
    ∃ u tr, (handshake fn call).Run t tr u ∧ FinisherStranded u := by
  cases hstep with
  | storeDetach hc =>
      have hdecision := call.decision_ne_notYet
      cases call with
      | join =>
          refine ⟨_, _, .single (.wakeDetach rfl (Futex.wakes_zero _)), hdecision, nofun,
            nofun, code, ?_⟩
          simpa [ThreadPc.wake_empty] using hasleep
      | detach => exact ⟨_, [], .refl _, hdecision, nofun, nofun, code, hasleep⟩

end Ciabatta.Tinyrt
