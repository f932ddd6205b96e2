import Ciabatta.Tinyrt.Handshake

/-!
Join agreement. Whichever way the thread and the joiner interleave, and whether
or not a wait is lost on the way, a join that does return reports the value
that the thread function returned, and reports it after the thread is gone.
-/

namespace Ciabatta.Tinyrt

open Transition System

variable {fn : ThreadFn} {call : Call}

/-- The value that the thread function returns in a step, if it does. -/
def Act.returnCode : Act → Option (BitVec 32)
  | .thread (.return code) => some code
  | _ => none

/-- The value on its way from the thread function to the joiner: in the call of
`_rt_thread_finish`, and after the exit in the thread block. -/
def State.code (s : State fn) : Option (BitVec 32) :=
  match s.thread with
  | .running _ => none
  | .loadDetach code | .waitDetach code | .asleep code | .storeExitCode code => some code
  | .exit code => some code
  | .exited => some s.tcb.exitCode

/-- The history of returns and the value under way agree. -/
structure CodeInv (tr : List Act) (s : State fn) : Prop where
  returns : tr.filterMap Act.returnCode = s.code.toList
  stored : ∀ code, s.thread = .exit code → s.tcb.exitCode = code

theorem CodeInv.snoc {tr : List Act} {s s' : State fn} {a : Act} (h : CodeInv tr s)
    (hcode : s'.code.toList = s.code.toList ++ a.returnCode.toList)
    (hstored : ∀ code, s'.thread = .exit code → s'.tcb.exitCode = code) :
    CodeInv (tr ++ [a]) s' where
  returns := by
    rw [List.filterMap_append, h.returns, hcode]
    cases ha : a.returnCode <;> simp [ha]
  stored := hstored

/-- A step of another party leaves the value alone. -/
theorem CodeInv.of_same {tr : List Act} {s s' : State fn} {a : Act} (h : CodeInv tr s)
    (ha : a.returnCode = none) (hthread : s'.thread = s.thread)
    (hcode : s'.tcb.exitCode = s.tcb.exitCode) : CodeInv (tr ++ [a]) s' := by
  apply h.snoc
  · simp [State.code, ha, hthread, hcode]
  · intro code hexit
    rw [hcode]
    exact h.stored code (hthread ▸ hexit)

theorem codeInv_step {tr : List Act} {s s' : State fn} {a : Act} (h : CodeInv tr s)
    (hstep : Step call s a s') : CodeInv (tr ++ [a]) s' := by
  obtain ⟨tcb, thread, kernel, caller⟩ := s
  cases hstep with
  | thread ht =>
      cases ht with
      | compute => exact h.snoc rfl nofun
      | «return» => exact h.snoc rfl nofun
      | loadDetach =>
          by_cases hyet : tcb.stateDetach = threadStateNotYet
          · rw [if_pos hyet]
            exact h.snoc rfl nofun
          · rw [if_neg hyet]
            exact h.snoc rfl nofun
      | waitDetach =>
          by_cases hsleeps : Futex.waitSleeps tcb.stateDetach threadStateNotYet = true
          · rw [if_pos hsleeps]
            exact h.snoc rfl nofun
          · rw [if_neg hsleeps]
            exact h.snoc rfl nofun
      | interrupted => exact h.snoc rfl nofun
      | storeExitCode =>
          refine h.snoc rfl fun code hexit => ?_
          cases hexit
          rfl
      | exit =>
          have hstored := h.stored _ rfl
          refine h.snoc ?_ nofun
          simpa [State.code, Act.returnCode] using hstored
  | clearTid => exact h.of_same rfl rfl (by rw [exitClearTid_create])
  | wakeDetach _ hwakes =>
      refine h.of_same rfl ?_ rfl
      simp [hwakes.eq_empty, ThreadPc.wake_empty]
  | _ => exact h.of_same rfl rfl rfl

theorem codeInv_reaches {tr : List Act} {s : State fn}
    (h : (handshake fn call).Reaches tr s) : CodeInv tr s := by
  refine h.history (I := CodeInv) ?_ (fun _ _ _ _ hI hstep => codeInv_step hI hstep)
  rintro s ⟨head, tid, rfl⟩
  exact ⟨rfl, nofun⟩

/-- The joiner gets past its check only after the exit, and then holds the
stored exit code. -/
structure JoinInv (s : State fn) : Prop where
  past : s.caller = .readExitCode → s.thread = .exited
  result : ∀ result code, s.caller = .returned result code →
    s.thread = .exited ∧ result = thrdSuccess ∧ code = s.tcb.exitCode

/-- After its exit the thread is stuck. -/
theorem Step.exited {s s' : State fn} {a : Act} (h : s.thread = .exited)
    (hstep : Step call s a s') :
    (∀ b, a ≠ .thread b) ∧ s'.thread = .exited ∧ s'.tcb.exitCode = s.tcb.exitCode := by
  cases hstep with
  | thread ht => exact absurd h ht.not_exited
  | clearTid => exact ⟨nofun, h, by rw [exitClearTid_create]⟩
  | wakeDetach => exact ⟨nofun, (s.thread.wake_exited_iff _).mpr h, rfl⟩
  | _ => exact ⟨nofun, h, rfl⟩

theorem JoinInv.of_returned {s s' : State fn} {a : Act} (h : JoinInv s)
    (hcaller : s'.caller = s.caller) (hstep : Step .join s a s') : JoinInv s' where
  past hc := (hstep.exited (h.past (hcaller ▸ hc))).2.1
  result result code hc := by
    obtain ⟨hexited, hresult, hcode⟩ := h.result result code (hcaller ▸ hc)
    obtain ⟨-, hexited', hsame⟩ := hstep.exited hexited
    exact ⟨hexited', hresult, hcode.trans hsame.symm⟩

theorem JoinInv.of_waiting {s : State fn} (hpast : s.caller ≠ .readExitCode)
    (hreturned : ∀ result code, s.caller ≠ .returned result code) : JoinInv s :=
  ⟨fun hc => absurd hc hpast, fun result code hc => absurd hc (hreturned result code)⟩

theorem joinInv_step {s s' : State fn} {a : Act} (hexit : ExitInv s) (h : JoinInv s)
    (hstep : Step .join s a s') : JoinInv s' := by
  cases hstep with
  | thread ht => exact h.of_returned rfl (.thread ht)
  | clearTid hk => exact h.of_returned rfl (.clearTid hk)
  | @exitWake woken hk hwakes =>
      by_cases hc : s.caller = .asleep
      · refine .of_waiting ?_ ?_ <;> simp only [hc, CallerPc.wake] <;> split <;> simp
      -- a caller that is not asleep stays where it is
      · refine h.of_returned ?_ (.exitWake hk hwakes)
        simp [CallerPc.wake]
  | storeDetach => exact .of_waiting (by simp [Call.afterStore]) (by simp [Call.afterStore])
  | wakeDetach => exact .of_waiting (by simp) (by simp)
  | checkFinish =>
      by_cases hzero : s.tcb.stateFinish = 0
      · -- the word is clear, so the kernel has begun with the exit
        have hkernel : s.kernel ≠ .idle := by
          intro hidle
          simp [hexit.finish, hidle] at hzero
        refine ⟨fun _ => hexit.exited.mp hkernel, fun result code hc => ?_⟩
        rw [if_neg (not_not.mpr hzero)] at hc
        cases hc
      · rw [if_pos hzero]
        exact .of_waiting (by simp) (by simp)
  | waitFinish => refine .of_waiting ?_ ?_ <;> dsimp only <;> split <;> simp
  | interrupted => exact .of_waiting (by simp) (by simp)
  | readExitCode hc =>
      refine ⟨by simp, fun result code hr => ?_⟩
      cases hr
      exact ⟨h.past hc, rfl, rfl⟩

theorem joinInv_reaches {tr : List Act} {s : State fn}
    (h : (handshake fn .join).Reaches tr s) : JoinInv s := by
  have hinv : ExitInv s ∧ JoinInv s := by
    refine h.invariant (I := fun s => ExitInv s ∧ JoinInv s) ?_ ?_
    · intro s hi
      refine ⟨exitInv_init hi, ?_⟩
      obtain ⟨head, tid, rfl⟩ := hi
      exact .of_waiting nofun nofun
    · rintro s a t ⟨hexit, hjoin⟩ hstep
      exact ⟨exitInv_step hexit hstep, joinInv_step hexit hjoin hstep⟩
  exact hinv.2

theorem no_step_after_exit {s t : State fn} {tr : List Act} (h : s.thread = .exited)
    (hrun : (handshake fn call).Run s tr t) (a : ThreadAct) : .thread a ∉ tr := by
  have hall : t.thread = .exited ∧ .thread a ∉ tr := by
    induction hrun with
    | refl => exact ⟨h, by simp⟩
    | snoc _ hstep ih =>
        obtain ⟨hexited, hmem⟩ := ih
        obtain ⟨hother, hexited', -⟩ := Step.exited hexited hstep
        exact ⟨hexited', by simpa using ⟨hmem, (hother a).symm⟩⟩
  exact hall.2

/-- When `thrd_join` has returned `thrd_success`, the thread function has
returned, once; the code handed out is its value; and the thread takes no step
any more. -/
theorem join_agreement {tr : List Act} {s : State fn} {code : BitVec 32}
    (h : (handshake fn .join).Reaches tr s)
    (hreturned : s.caller = .returned thrdSuccess code) :
    tr.filterMap Act.returnCode = [code] ∧
      ∀ tr' t, (handshake fn .join).Run s tr' t → ∀ a, .thread a ∉ tr' := by
  obtain ⟨hexited, -, hcode⟩ := (joinInv_reaches h).result _ _ hreturned
  refine ⟨?_, fun tr' t hrun a => no_step_after_exit hexited hrun a⟩
  rw [(codeInv_reaches h).returns, hcode]
  simp [State.code, hexited]

theorem join_agreement_joinedRun : ∃ s, (handshake returnsSeven .join).Reaches joinedRun s ∧
    s.caller = .returned thrdSuccess 7 ∧ joinedRun.filterMap Act.returnCode = [7] := by
  obtain ⟨s, hs, hcaller⟩ := joinedRun_reaches
  exact ⟨s, hs.of_restrict, hcaller, (join_agreement hs.of_restrict hcaller).1⟩

end Ciabatta.Tinyrt
