import Ciabatta.CiaSync.MutexSafety
import Ciabatta.StdlibFile.StreamCalls

/-!
Any number of threads that call `printf`, `fputc` and `fwrite` on one `FILE`. A
call goes through the events that its program records, one step each; the lock
and the unlock among them are the loops and futex calls of `Cia_Mutex`. The
threads simulate those of the mutex on its own, which gives the mutual exclusion.
-/

namespace Ciabatta.StdlibFile.Stream

open Transition ByteMemory Exec CiaSync

/-! ### The events of a call -/

/-- A run of the call can begin with the events `es`. -/
def CallTrace (c : WriteCall) (es : List StdioEvent) : Prop :=
  ∃ s, s.log = [] ∧ es <+: (final (c.run s)).log

/-- A run of the call returns `result` after the events `es`. -/
def CallReturns (c : WriteCall) (es : List StdioEvent) (result : ℤ) : Prop :=
  ∃ s t, s.log = [] ∧ c.run s = .ok result t ∧ t.log = es

variable {c : WriteCall} {e : StdioEvent} {past : List StdioEvent} {result : ℤ}

theorem not_inner_lock : ¬ StdioEvent.lock.Inner := id

theorem not_inner_unlock : ¬ StdioEvent.unlock.Inner := id

theorem callTrace_nil (c : WriteCall) : CallTrace c [] :=
  ⟨⟨fun _ _ => 0, fun _ => 0, [], []⟩, rfl, List.nil_prefix⟩

/-- How far a call has come when a given event is its next one. -/
theorem CallTrace.next (h : CallTrace c (past ++ [e])) :
    e = .lock ∧ past = [] ∨ e ≠ .lock ∧ Open past := by
  obtain ⟨s, hs, hprefix⟩ := h
  -- also a call that stops early has come some way along one that returns
  have hfull : ∃ es, (∀ e ∈ es, e.Inner) ∧ past ++ [e] <+: .lock :: es ++ [.unlock] := by
    rcases (c.bracketed hs).log with ⟨es, hlog, hes⟩ | ⟨es, hlog, hes⟩
    · rw [hlog] at hprefix
      exact ⟨es, hes, hprefix.trans (List.prefix_append _ _)⟩
    · rw [hlog] at hprefix
      exact ⟨es, hes, hprefix⟩
  obtain ⟨es, hes, hfull⟩ := hfull
  cases past with
  | nil =>
      have he := (List.cons_prefix_cons.mp hfull).1
      exact .inl ⟨he, rfl⟩
  | cons e₀ past =>
      obtain ⟨rfl, htail⟩ := List.cons_prefix_cons.mp hfull
      change past ++ [e] <+: es ++ [.unlock] at htail
      refine .inr ?_
      rcases List.prefix_concat_iff.mp htail with heq | hinner
      · obtain ⟨rfl, he⟩ := List.append_inj' heq rfl
        cases he
        exact ⟨nofun, past, rfl, hes⟩
      · have hmem := hinner.subset (List.mem_append_right past (List.mem_singleton_self e))
        refine ⟨?_, past, rfl, fun e' he' => ?_⟩
        · rintro rfl
          exact not_inner_lock (hes _ hmem)
        · exact hes e' (hinner.subset (List.mem_append_left [e] he'))

theorem CallReturns.closed (h : CallReturns c past result) : Closed past := by
  obtain ⟨s, t, hs, hrun, rfl⟩ := h
  exact (c.bracketed hs).returned _ t hrun

/-! ### The threads -/

/-- Where a thread stands: in no call, between the events of one, or in the
functions of the mutex. `past` has the events of the call so far. -/
inductive Pc
  | outside
  | running (c : WriteCall) (past : List StdioEvent)
  | compareExchange (c : WriteCall) (past : List StdioEvent)
  | syncWait (c : WriteCall) (past : List StdioEvent)
  | asleep (c : WriteCall) (past : List StdioEvent)
  | syncWake (c : WriteCall) (past : List StdioEvent)

inductive Act (ι : Type*)
  | call (c : WriteCall)
  | enterLock
  | compareExchange (got : Bool)
  | syncWait
  | interrupted
  | inner (e : StdioEvent)
  | store
  | syncWake (woken : Finset ι)
  | ret (result : ℤ)

structure State (ι : Type*) where
  mutex : CiaMutex
  /-- The bytes accepted for the `FILE`. -/
  output : List Byte
  pc : ι → Pc

variable {ι : Type*} [DecidableEq ι]

def State.goto (s : State ι) (i : ι) (pc : Pc) : State ι :=
  { s with pc := Function.update s.pc i pc }

def State.Asleep (s : State ι) (i : ι) : Prop :=
  ∃ c past, s.pc i = .asleep c past

/-- A wake sends the thread back to its compare-exchange. -/
def Pc.wake : Pc → Pc
  | .asleep c past => .compareExchange c past
  | pc => pc

inductive Step : State ι → ι × Act ι → State ι → Prop
  | call {s : State ι} {i : ι} {c : WriteCall} (h : s.pc i = .outside) :
      Step s (i, .call c) (s.goto i (.running c []))
  | enterLock {s : State ι} {i : ι} {c : WriteCall} {past : List StdioEvent}
      (h : s.pc i = .running c past) (hnext : CallTrace c (past ++ [.lock])) :
      Step s (i, .enterLock) (s.goto i (.compareExchange c past))
  | compareExchange {s : State ι} {i : ι} {c : WriteCall} {past : List StdioEvent}
      (h : s.pc i = .compareExchange c past) :
      Step s (i, .compareExchange (ciaMutexLockTry s.mutex).2)
        { s.goto i (if (ciaMutexLockTry s.mutex).2 then .running c (past ++ [.lock])
            else .syncWait c past) with mutex := (ciaMutexLockTry s.mutex).1 }
  | syncWait {s : State ι} {i : ι} {c : WriteCall} {past : List StdioEvent}
      (h : s.pc i = .syncWait c past) :
      Step s (i, .syncWait)
        (s.goto i (if Futex.waitSleeps s.mutex.tag mutexLock then .asleep c past
          else .compareExchange c past))
  | interrupted {s : State ι} {i : ι} {c : WriteCall} {past : List StdioEvent}
      (h : s.pc i = .asleep c past) :
      Step s (i, .interrupted) (s.goto i (.compareExchange c past))
  | inner {s : State ι} {i : ι} {c : WriteCall} {past : List StdioEvent} {e : StdioEvent}
      (h : s.pc i = .running c past) (hinner : e.Inner) (hnext : CallTrace c (past ++ [e])) :
      Step s (i, .inner e)
        { s.goto i (.running c (past ++ [e])) with output := s.output ++ e.transferred }
  | store {s : State ι} {i : ι} {c : WriteCall} {past : List StdioEvent}
      (h : s.pc i = .running c past) (hnext : CallTrace c (past ++ [.unlock])) :
      Step s (i, .store)
        { s.goto i (.syncWake c (past ++ [.unlock])) with mutex := ciaMutexUnlockStore s.mutex }
  | syncWake {s : State ι} {i : ι} {c : WriteCall} {past : List StdioEvent} {woken : Finset ι}
      (h : s.pc i = .syncWake c past) (hwakes : Futex.Wakes 1 s.Asleep woken) :
      Step s (i, .syncWake woken)
        { s with
          pc := fun j => if j ∈ woken then (s.pc j).wake
            else Function.update s.pc i (.running c past) j }
  | ret {s : State ι} {i : ι} {c : WriteCall} {past : List StdioEvent} {result : ℤ}
      (h : s.pc i = .running c past) (hreturn : CallReturns c past result) :
      Step s (i, .ret result) (s.goto i .outside)

/-- The threads start outside, on a `FILE` whose mutex is initialised. -/
def stream (ι : Type*) [DecidableEq ι] : System (State ι) (ι × Act ι) where
  init s := (∃ mutex, s.mutex = ciaMutexInit mutex) ∧ s.output = [] ∧ ∀ i, s.pc i = .outside
  step := Step

/-! ### Mutual exclusion -/

/-- Between the lock and the unlock of a call. -/
def Pc.Holds : Pc → Prop
  | .running _ past => .lock ∈ past ∧ .unlock ∉ past
  | _ => False

instance (pc : Pc) : Decidable pc.Holds := by
  unfold Pc.Holds
  split <;> infer_instance

/-- The thread as the mutex sees it. The whole span of the lock is the moment
before the counter is read. -/
def Pc.toMutex : Pc → CiaSync.Pc
  | .outside => .outside
  | .running c past => if (Pc.running c past).Holds then .readCounter else .outside
  | .compareExchange _ _ => .compareExchange
  | .syncWait _ _ => .syncWait
  | .asleep _ _ => .asleep
  | .syncWake _ _ => .syncWake

/-- The events of the call so far, with the one that the thread is busy with, are
those of a run. -/
def Pc.Valid : Pc → Prop
  | .outside => True
  | .running c past => CallTrace c past
  | .compareExchange c past => CallTrace c (past ++ [.lock])
  | .syncWait c past => CallTrace c (past ++ [.lock])
  | .asleep c past => CallTrace c (past ++ [.lock])
  | .syncWake c past => CallTrace c past ∧ .unlock ∈ past

theorem Pc.hasLock_toMutex (pc : Pc) : pc.toMutex.HasLock ↔ pc.Holds := by
  cases pc with
  | running c past =>
      rw [toMutex]
      split
      case isTrue h => simp [h]
      case isFalse h => simp [h]
  | _ => simp [toMutex, Holds]

theorem holds_of_open (h : Open past) : (Pc.running c past).Holds := by
  obtain ⟨es, rfl, hes⟩ := h
  refine ⟨by simp, fun hmem => ?_⟩
  rcases List.mem_cons.mp hmem with heq | hmem
  · cases heq
  · exact not_inner_unlock (hes _ hmem)

theorem CallTrace.lock_next (h : CallTrace c (past ++ [.lock])) : past = [] := by
  rcases h.next with ⟨-, hnil⟩ | ⟨hne, -⟩
  · exact hnil
  · exact absurd rfl hne

theorem CallTrace.open_of_next (h : CallTrace c (past ++ [e])) (he : e ≠ .lock) : Open past := by
  rcases h.next with ⟨rfl, -⟩ | ⟨-, hopen⟩
  · exact absurd rfl he
  · exact hopen

theorem not_holds_of_unlock (h : .unlock ∈ past) : ¬ (Pc.running c past).Holds :=
  fun hholds => hholds.2 h

theorem not_holds_of_closed (h : Closed past) : ¬ (Pc.running c past).Holds := by
  obtain ⟨es, rfl, -⟩ := h
  exact not_holds_of_unlock (by simp)

/-- The steps of the mutex in a step of a call. -/
def observe : ι × Act ι → List (ι × CiaSync.Act ι)
  | (i, .enterLock) => [(i, .call)]
  | (i, .compareExchange got) => [(i, .compareExchange got)]
  | (i, .syncWait) => [(i, .syncWait)]
  | (i, .interrupted) => [(i, .interrupted)]
  | (i, .store) => [(i, .readCounter), (i, .writeCounter), (i, .store)]
  | (i, .syncWake woken) => [(i, .syncWake woken)]
  | _ => []

structure Simulates (s : State ι) (t : CiaSync.State ι) : Prop where
  mutex : t.mutex = s.mutex
  pc : ∀ i, t.pc i = (s.pc i).toMutex
  valid : ∀ i, (s.pc i).Valid

variable {s s' : State ι} {t : CiaSync.State ι} {a : ι × Act ι} {i j : ι} {pc : Pc}

/-- One thread moves, here and in the mutex. -/
theorem Simulates.move {t' : CiaSync.State ι} (h : Simulates s t) (pc : Pc) (hvalid : pc.Valid)
    (hmutex : t'.mutex = s'.mutex) (hs : s'.pc = Function.update s.pc i pc)
    (ht : t'.pc = Function.update t.pc i pc.toMutex) : Simulates s' t' where
  mutex := hmutex
  pc j := by
    rw [hs, ht]
    by_cases hj : j = i
    · subst hj
      simp
    · simpa [Function.update_of_ne hj] using h.pc j
  valid j := by
    rw [hs]
    by_cases hj : j = i
    · subst hj
      simpa using hvalid
    · simpa [Function.update_of_ne hj] using h.valid j

/-- A step that the mutex does not notice. -/
theorem Simulates.stay (h : Simulates s t) (pc : Pc) (hvalid : pc.Valid)
    (hpc : pc.toMutex = (s.pc i).toMutex) (hmutex : s'.mutex = s.mutex)
    (hs : s'.pc = Function.update s.pc i pc) : Simulates s' t := by
  refine h.move pc hvalid (h.mutex.trans hmutex.symm) hs ?_
  rw [hpc, ← h.pc i, Function.update_eq_self]

omit [DecidableEq ι] in
theorem Simulates.asleep_iff (h : Simulates s t) : t.Asleep i ↔ s.Asleep i := by
  rw [CiaSync.State.Asleep, h.pc i, State.Asleep]
  cases s.pc i with
  | running c past => simp [Pc.toMutex, ite_eq_iff]
  | _ => simp [Pc.toMutex]

theorem toMutex_running_of_holds (h : (Pc.running c past).Holds) :
    (Pc.running c past).toMutex = .readCounter :=
  if_pos h

theorem toMutex_running_of_not_holds (h : ¬ (Pc.running c past).Holds) :
    (Pc.running c past).toMutex = .outside :=
  if_neg h

theorem Simulates.syncWake {woken : Finset ι} (h : Simulates s t) (hpc : s.pc i = .syncWake c past)
    (hwakes : Futex.Wakes 1 s.Asleep woken) :
    ∃ t', CiaSync.Step t (i, .syncWake woken) t' ∧
      Simulates { s with pc := fun j => if j ∈ woken then (s.pc j).wake
        else Function.update s.pc i (.running c past) j } t' := by
  have hasleep : t.Asleep = s.Asleep := by
    ext j
    exact h.asleep_iff
  have hwake : t.pc i = .syncWake := by
    rw [h.pc i, hpc, Pc.toMutex]
  obtain ⟨htrace, hunlock⟩ : CallTrace c past ∧ .unlock ∈ past := by
    simpa [hpc, Pc.Valid] using h.valid i
  refine ⟨_, .syncWake hwake (hasleep ▸ hwakes), h.mutex, fun j => ?_, fun j => ?_⟩
  · by_cases hj : j ∈ woken
    · obtain ⟨c', past', hsleeper⟩ := hwakes.asleep_of_mem j hj
      simp [hj, hsleeper, Pc.wake, Pc.toMutex]
    · by_cases hji : j = i
      · subst hji
        simp [hj, toMutex_running_of_not_holds (not_holds_of_unlock hunlock)]
      · simpa [hj, Function.update_of_ne hji] using h.pc j
  · by_cases hj : j ∈ woken
    · obtain ⟨c', past', hsleeper⟩ := hwakes.asleep_of_mem j hj
      have hvalid := h.valid j
      rw [hsleeper] at hvalid
      simpa [hj, hsleeper, Pc.wake, Pc.Valid] using hvalid
    · by_cases hji : j = i
      · subst hji
        simpa [hj, Pc.Valid] using htrace
      · simpa [hj, Function.update_of_ne hji] using h.valid j

theorem simulates_step (h : Simulates s t) (hstep : Step s a s') :
    ∃ t', (threads ι).Run t (observe a) t' ∧ Simulates s' t' := by
  cases hstep with
  | @call i c hpc =>
      refine ⟨t, .refl t, h.stay (.running c []) (callTrace_nil c) ?_ rfl rfl⟩
      rw [hpc, toMutex_running_of_not_holds (by simp [Pc.Holds]), Pc.toMutex]
  | @enterLock i c past hpc hnext =>
      have houtside : t.pc i = .outside := by
        rw [h.pc i, hpc, toMutex_running_of_not_holds (by simp [hnext.lock_next, Pc.Holds])]
      exact ⟨_, .single (.call houtside), h.move (.compareExchange c past) hnext h.mutex rfl rfl⟩
  | @compareExchange i c past hpc =>
      have hvalid : CallTrace c (past ++ [.lock]) := by
        simpa [hpc, Pc.Valid] using h.valid i
      have hcompare : t.pc i = .compareExchange := by
        rw [h.pc i, hpc, Pc.toMutex]
      have hstep := CiaSync.Step.compareExchange hcompare
      rw [h.mutex] at hstep
      refine ⟨_, .single hstep, h.move _ ?_ rfl rfl ?_⟩
      · split <;> exact hvalid
      · dsimp only [CiaSync.State.goto]
        congr 1
        split
        -- with the mutex the thread is inside, which in the other system is `readCounter`
        · have hlocked : (Pc.running c (past ++ [.lock])).Holds := by
            simp [hvalid.lock_next, Pc.Holds]
          exact (toMutex_running_of_holds hlocked).symm
        · rfl
  | @syncWait i c past hpc =>
      have hvalid : CallTrace c (past ++ [.lock]) := by
        simpa [hpc, Pc.Valid] using h.valid i
      have hwait : t.pc i = .syncWait := by
        rw [h.pc i, hpc, Pc.toMutex]
      refine ⟨_, .single (.syncWait hwait), h.move _ ?_ h.mutex rfl ?_⟩
      · split <;> exact hvalid
      · dsimp only [CiaSync.State.goto]
        rw [h.mutex]
        congr 1
        split <;> rfl
  | @interrupted i c past hpc =>
      have hvalid : CallTrace c (past ++ [.lock]) := by
        simpa [hpc, Pc.Valid] using h.valid i
      have hasleep : t.pc i = .asleep := by
        rw [h.pc i, hpc, Pc.toMutex]
      exact ⟨_, .single (.interrupted hasleep),
        h.move (.compareExchange c past) hvalid h.mutex rfl rfl⟩
  | @inner i c past e hpc hinner hnext =>
      have hopen : Open past := hnext.open_of_next (by rintro rfl; exact not_inner_lock hinner)
      refine ⟨t, .refl t, h.stay (.running c (past ++ [e])) hnext ?_ rfl rfl⟩
      rw [hpc, toMutex_running_of_holds (holds_of_open hopen),
        toMutex_running_of_holds (holds_of_open (hopen.snoc hinner))]
  | @store i c past hpc hnext =>
      have hopen : Open past := hnext.open_of_next nofun
      have hread : t.pc i = .readCounter := by
        rw [h.pc i, hpc, toMutex_running_of_holds (holds_of_open hopen)]
      -- the critical section of the other system has two steps of its own before the store
      refine ⟨_, .cons (.readCounter hread) (.cons (.writeCounter (Function.update_self ..))
        (.single (.store (Function.update_self ..)))), h.move (.syncWake c (past ++ [.unlock]))
        ⟨hnext, by simp⟩ ?_ rfl ?_⟩
      · exact congrArg ciaMutexUnlockStore h.mutex
      · simp only [CiaSync.State.goto, Function.update_idem]
        rfl
  | @syncWake i c past woken hpc hwakes =>
      obtain ⟨t', hstep, hsim⟩ := h.syncWake hpc hwakes
      exact ⟨t', .single hstep, hsim⟩
  | @ret i c past result hpc hreturn =>
      refine ⟨t, .refl t, h.stay .outside trivial ?_ rfl rfl⟩
      rw [hpc, toMutex_running_of_not_holds (not_holds_of_closed hreturn.closed), Pc.toMutex]

theorem stream_simulates : System.Simulation (stream ι) (threads ι) observe Simulates where
  init := by
    rintro s ⟨hmutex, -, hpc⟩
    refine ⟨⟨s.mutex, 0, fun _ => .outside⟩, ⟨hmutex, rfl, fun _ => rfl⟩, rfl, fun i => ?_,
      fun i => ?_⟩
    · rw [hpc, Pc.toMutex]
    · rw [hpc]
      trivial
  step := fun _ _ _ _ h hstep => simulates_step h hstep

/-- At most one call is between its lock and its unlock. -/
theorem holds_unique {tr : List (ι × Act ι)} (h : (stream ι).Reaches tr s)
    (hi : (s.pc i).Holds) (hj : (s.pc j).Holds) : i = j := by
  obtain ⟨t, ht, hsim⟩ := stream_simulates.reaches h
  obtain ⟨g, -, hrefines⟩ := threads_simulate.reaches ht
  have howner : ∀ k, (s.pc k).Holds → g.owner = some k := by
    intro k hk
    apply (hrefines.hasLock k).mp
    rw [hsim.pc k, Pc.hasLock_toMutex]
    exact hk
  exact Option.some.inj ((howner i hi).symm.trans (howner j hj))

/-! ### Blocks -/

/-- What the step adds to the record of its call. -/
def Act.event : Act ι → Option StdioEvent
  | .compareExchange true => some .lock
  | .inner e => some e
  | .store => some .unlock
  | _ => none

def addEvent (i : ι) (past : List StdioEvent) : ι × Act ι → List StdioEvent
  | (j, .call _) => if j = i then [] else past
  | (j, a) => if j = i then past ++ a.event.toList else past

/-- The record of the last call of thread `i`. -/
def record (i : ι) (tr : List (ι × Act ι)) : List StdioEvent :=
  tr.foldl (addEvent i) []

/-- Bytes for the newest block of thread `i`. -/
def extend (i : ι) (data : List Byte) : List (ι × List Byte) → List (ι × List Byte)
  | [] => []
  | (j, bytes) :: rest =>
      if j = i then (j, bytes ++ data) :: rest else (j, bytes) :: extend i data rest

def addBlock (bs : List (ι × List Byte)) : ι × Act ι → List (ι × List Byte)
  | (i, .compareExchange true) => (i, []) :: bs
  | (i, .inner e) => extend i e.transferred bs
  | _ => bs

/-- A block for each acquisition of the mutex, the newest first: the thread whose
call it was, and the bytes that its write calls have transferred since. -/
def blocks (tr : List (ι × Act ι)) : List (ι × List Byte) :=
  tr.foldl addBlock []

/-- The newest block of thread `i`. -/
def newest (i : ι) (bs : List (ι × List Byte)) : Option (List Byte) :=
  (bs.find? (·.1 = i)).map Prod.snd

variable {tr : List (ι × Act ι)} {act : Act ι}

theorem newest_cons_self (i : ι) (data : List Byte) (bs : List (ι × List Byte)) :
    newest i ((i, data) :: bs) = some data := by
  simp [newest]

theorem newest_cons_of_ne (h : i ≠ j) (data : List Byte) (bs : List (ι × List Byte)) :
    newest j ((i, data) :: bs) = newest j bs := by
  simp [newest, h]

theorem record_snoc (i : ι) (a : ι × Act ι) :
    record i (tr ++ [a]) = addEvent i (record i tr) a := by
  simp [record]

theorem blocks_snoc (a : ι × Act ι) : blocks (tr ++ [a]) = addBlock (blocks tr) a := by
  simp [blocks]

theorem record_of_ne (h : i ≠ j) : record j (tr ++ [(i, act)]) = record j tr := by
  rw [record_snoc]
  cases act <;> simp [addEvent, h]

theorem record_self (h : ∀ c, act ≠ .call c) :
    record i (tr ++ [(i, act)]) = record i tr ++ act.event.toList := by
  rw [record_snoc]
  cases act with
  | call c => exact absurd rfl (h c)
  | _ => simp [addEvent]

/-- The events so far of the call that the thread is in. -/
def Pc.recorded : Pc → Option (List StdioEvent)
  | .outside => none
  | .running _ past => some past
  | .compareExchange _ past => some past
  | .syncWait _ past => some past
  | .asleep _ past => some past
  | .syncWake _ past => some past

theorem Pc.recorded_wake (pc : Pc) : pc.wake.recorded = pc.recorded := by
  cases pc <;> rfl

/-- The blocks of the steps `tr` make up the output, the newest one belongs to
the holder of the mutex, and each thread has recorded the call that it is in; once
this has taken the mutex, the newest block of the thread has the bytes of the
call. -/
structure Written (tr : List (ι × Act ι)) (s : State ι) : Prop where
  output : s.output = (blocks tr).reverse.flatMap Prod.snd
  owner : ∀ i, (s.pc i).Holds → ∃ data rest, blocks tr = (i, data) :: rest
  recorded : ∀ i past, (s.pc i).recorded = some past → past = record i tr
  own : ∀ i past, (s.pc i).recorded = some past → .lock ∈ past →
    newest i (blocks tr) = some (past.flatMap StdioEvent.transferred)

theorem Written.recorded_update (h : Written tr s) (hpc : s'.pc = Function.update s.pc i pc)
    (hnew : ∀ past, pc.recorded = some past → past = record i (tr ++ [(i, act)])) (j : ι)
    (past : List StdioEvent) (hpast : (s'.pc j).recorded = some past) :
    past = record j (tr ++ [(i, act)]) := by
  rw [hpc] at hpast
  by_cases hj : j = i
  · subst hj
    rw [Function.update_self] at hpast
    exact hnew past hpast
  · rw [Function.update_of_ne hj] at hpast
    rw [record_of_ne (Ne.symm hj)]
    exact h.recorded j past hpast

theorem Written.recorded_next (h : Written tr s) (act : Act ι)
    (hpast : (s.pc i).recorded = some past) (hcall : ∀ c, act ≠ .call c) :
    past ++ act.event.toList = record i (tr ++ [(i, act)]) := by
  rw [record_self hcall, h.recorded i past hpast]

theorem Written.own_update (h : Written tr s) (hpc : s'.pc = Function.update s.pc i pc)
    (hothers : ∀ j, i ≠ j → newest j (blocks (tr ++ [(i, act)])) = newest j (blocks tr))
    (hnew : ∀ past, pc.recorded = some past → .lock ∈ past →
      newest i (blocks (tr ++ [(i, act)])) = some (past.flatMap StdioEvent.transferred)) (j : ι)
    (past : List StdioEvent) (hpast : (s'.pc j).recorded = some past) (hlock : .lock ∈ past) :
    newest j (blocks (tr ++ [(i, act)])) = some (past.flatMap StdioEvent.transferred) := by
  rw [hpc] at hpast
  by_cases hj : j = i
  · subst hj
    rw [Function.update_self] at hpast
    exact hnew past hpast hlock
  · rw [Function.update_of_ne hj] at hpast
    rw [hothers j (Ne.symm hj)]
    exact h.own j past hpast hlock

/-- A step that writes nothing and acquires nothing. -/
theorem Written.quiet (h : Written tr s) (pc : Pc) (hpc : s'.pc = Function.update s.pc i pc)
    (houtput : s'.output = s.output) (hblocks : blocks (tr ++ [(i, act)]) = blocks tr)
    (hholds : ¬ pc.Holds)
    (hnew : ∀ past, pc.recorded = some past → past = record i (tr ++ [(i, act)]) ∧
      (.lock ∈ past → newest i (blocks tr) = some (past.flatMap StdioEvent.transferred))) :
    Written (tr ++ [(i, act)]) s' where
  output := by rw [houtput, hblocks, h.output]
  owner j hj := by
    rw [hblocks]
    rw [hpc] at hj
    by_cases hji : j = i
    · subst hji
      rw [Function.update_self] at hj
      exact absurd hj hholds
    · rw [Function.update_of_ne hji] at hj
      exact h.owner j hj
  recorded := h.recorded_update hpc fun past hpast => (hnew past hpast).1
  own := h.own_update hpc (fun _ _ => by rw [hblocks]) fun past hpast hlock => by
    rw [hblocks]
    exact (hnew past hpast).2 hlock

/-- Such a step in the middle of a call. -/
theorem Written.quiet_next (h : Written tr s) (pc : Pc) (hpast : (s.pc i).recorded = some past)
    (hpc : s'.pc = Function.update s.pc i pc) (houtput : s'.output = s.output)
    (hblocks : blocks (tr ++ [(i, act)]) = blocks tr) (hholds : ¬ pc.Holds)
    (hcall : ∀ c, act ≠ .call c) (hevent : act.event = none ∨ act.event = some .unlock)
    (hnew : ∀ past', pc.recorded = some past' → past' = past ++ act.event.toList) :
    Written (tr ++ [(i, act)]) s' := by
  refine h.quiet pc hpc houtput hblocks hholds fun past' hpast' => ?_
  obtain rfl := hnew past' hpast'
  refine ⟨h.recorded_next act hpast hcall, fun hlock => ?_⟩
  have hold : .lock ∈ past := by
    rcases hevent with hevent | hevent <;> simpa [hevent] using hlock
  rw [h.own i past hpast hold]
  rcases hevent with hevent | hevent <;> simp [hevent, StdioEvent.transferred]

theorem Pc.holds_wake (pc : Pc) : pc.wake.Holds ↔ pc.Holds := by
  cases pc <;> rfl

/-- Waking threads changes nothing of what they have recorded. -/
theorem Written.wake (h : Written tr s) (hpc : ∀ j, s'.pc j = s.pc j ∨ s'.pc j = (s.pc j).wake)
    (houtput : s'.output = s.output) : Written tr s' where
  output := houtput.trans h.output
  owner j hj := by
    apply h.owner j
    rcases hpc j with heq | heq
    · rwa [heq] at hj
    · rwa [heq, Pc.holds_wake] at hj
  recorded j past hpast := by
    apply h.recorded j past
    rcases hpc j with heq | heq
    · rwa [heq] at hpast
    · rwa [heq, Pc.recorded_wake] at hpast
  own j past hpast := by
    apply h.own j past
    rcases hpc j with heq | heq
    · rwa [heq] at hpast
    · rwa [heq, Pc.recorded_wake] at hpast

theorem valid_of_reaches (h : (stream ι).Reaches tr s) (i : ι) : (s.pc i).Valid := by
  obtain ⟨t, -, hsim⟩ := stream_simulates.reaches h
  exact hsim.valid i

/-- The step that takes the mutex begins a block. -/
theorem Written.acquire (h : Written tr s) (hs' : (stream ι).Reaches (tr ++ [(i, act)]) s')
    (hact : act = .compareExchange true) (hpc : s'.pc = Function.update s.pc i (.running c past))
    (houtput : s'.output = s.output) (hpast : past = [.lock])
    (hnew : past = record i (tr ++ [(i, act)])) : Written (tr ++ [(i, act)]) s' where
  output := by
    rw [houtput, h.output, blocks_snoc, hact]
    simp [addBlock]
  owner j hj := by
    have hi : (s'.pc i).Holds := by
      rw [hpc, Function.update_self, hpast]
      simp [Pc.Holds]
    rw [blocks_snoc, hact, holds_unique hs' hj hi]
    exact ⟨[], blocks tr, rfl⟩
  recorded := by
    refine h.recorded_update hpc fun past' hpast => ?_
    cases hpast
    exact hnew
  own := by
    rw [hact] at hnew ⊢
    refine h.own_update hpc (fun j hj => ?_) fun past' hpast' _ => ?_
    · rw [blocks_snoc]
      exact newest_cons_of_ne hj [] _
    · cases hpast'
      rw [blocks_snoc, hpast]
      exact newest_cons_self i [] _

/-- A write adds to the newest block, which is that of the thread. -/
theorem Written.write (hs : (stream ι).Reaches tr s) (h : Written tr s)
    (hpc : s.pc i = .running c past) (hopen : Open past)
    (hs'pc : s'.pc = Function.update s.pc i (.running c (past ++ [e])))
    (houtput : s'.output = s.output ++ e.transferred) :
    Written (tr ++ [(i, .inner e)]) s' := by
  have hi : (s.pc i).Holds := by
    rw [hpc]
    exact holds_of_open hopen
  obtain ⟨data, rest, hblocks⟩ := h.owner i hi
  have hnext : blocks (tr ++ [(i, .inner e)]) = (i, data ++ e.transferred) :: rest := by
    rw [blocks_snoc, addBlock, hblocks, extend, if_pos rfl]
  constructor
  case output =>
    rw [houtput, h.output, hnext, hblocks]
    simp
  -- only the thread that writes is inside, and its block is the newest
  case owner =>
    intro j hj
    have hji : j = i := by
      by_contra hne
      rw [hs'pc, Function.update_of_ne hne] at hj
      exact hne (holds_unique hs hj hi)
    rw [hnext, hji]
    exact ⟨_, rest, rfl⟩
  case recorded =>
    refine h.recorded_update hs'pc fun past' hpast => ?_
    cases hpast
    exact h.recorded_next (.inner e) (by rw [hpc]; rfl) nofun
  case own =>
    refine h.own_update hs'pc (fun j hj => ?_) fun past' hpast _ => ?_
    · rw [hnext, hblocks, newest_cons_of_ne hj, newest_cons_of_ne hj]
    · cases hpast
      have hlock : .lock ∈ past := by
        obtain ⟨es, rfl, -⟩ := hopen
        exact List.mem_cons_self
      -- so far the block has what the thread has transferred, and now both grow by `e`
      have hown := h.own i past (by rw [hpc]; rfl) hlock
      rw [hblocks, newest_cons_self, Option.some.injEq] at hown
      rw [hnext, newest_cons_self, hown]
      simp

theorem written_step (hs : (stream ι).Reaches tr s) (h : Written tr s) (hstep : Step s a s') :
    Written (tr ++ [a]) s' := by
  have hs' : (stream ι).Reaches (tr ++ [a]) s' := hs.trans (.single hstep)
  cases hstep with
  | @call i c hpc =>
      refine h.quiet (.running c []) rfl rfl (blocks_snoc _) (by simp [Pc.Holds]) ?_
      rintro _ ⟨⟩
      simp [record_snoc, addEvent]
  | @enterLock i c past hpc hnext =>
      have hpast : (s.pc i).recorded = some past := by rw [hpc, Pc.recorded]
      exact h.quiet_next (.compareExchange c past) hpast rfl rfl (blocks_snoc _) id nofun (.inl rfl)
        (by simp [Pc.recorded, Act.event])
  | @compareExchange i c past hpc =>
      have hpast : (s.pc i).recorded = some past := by rw [hpc, Pc.recorded]
      have hvalid : CallTrace c (past ++ [.lock]) := by
        simpa [hpc, Pc.Valid] using valid_of_reaches hs i
      by_cases hfree : s.mutex.tag = mutexFree
      · rw [ciaMutexLockTry_free hfree] at hs' ⊢
        refine h.acquire hs' rfl rfl rfl (by simp [hvalid.lock_next]) ?_
        exact h.recorded_next (.compareExchange true) hpast nofun
      · rw [ciaMutexLockTry_taken hfree] at hs' ⊢
        exact h.quiet_next (.syncWait c past) hpast rfl rfl (blocks_snoc _) id nofun
          (.inl rfl) (by simp [Pc.recorded, Act.event])
  | @syncWait i c past hpc =>
      have hpast : (s.pc i).recorded = some past := by rw [hpc, Pc.recorded]
      refine h.quiet_next _ hpast rfl rfl (blocks_snoc _) ?_ nofun (.inl rfl) ?_
      · split <;> exact id
      · split <;> simp [Pc.recorded, Act.event]
  | @interrupted i c past hpc =>
      have hpast : (s.pc i).recorded = some past := by rw [hpc, Pc.recorded]
      exact h.quiet_next (.compareExchange c past) hpast rfl rfl (blocks_snoc _) id nofun (.inl rfl)
        (by simp [Pc.recorded, Act.event])
  | @inner i c past e hpc hinner hnext =>
      refine h.write hs hpc (hnext.open_of_next ?_) rfl rfl
      rintro rfl
      exact not_inner_lock hinner
  | @store i c past hpc hnext =>
      have hpast : (s.pc i).recorded = some past := by rw [hpc, Pc.recorded]
      exact h.quiet_next (.syncWake c (past ++ [.unlock])) hpast rfl rfl (blocks_snoc _) id nofun
        (.inr rfl) (by simp [Pc.recorded, Act.event])
  | @syncWake i c past woken hpc hwakes =>
      have hpast : (s.pc i).recorded = some past := by rw [hpc, Pc.recorded]
      obtain ⟨-, hunlock⟩ : CallTrace c past ∧ .unlock ∈ past := by
        simpa [hpc, Pc.Valid] using valid_of_reaches hs i
      have hown : Written (tr ++ [(i, .syncWake woken)]) (s.goto i (.running c past)) :=
        h.quiet_next (.running c past) hpast rfl rfl (blocks_snoc _) (not_holds_of_unlock hunlock)
          nofun (.inl rfl) (by simp [Pc.recorded, Act.event])
      -- the woken threads only go back to their compare-exchange
      refine hown.wake (fun j => ?_) rfl
      by_cases hj : j ∈ woken
      · obtain ⟨c', past', hsleeper⟩ := hwakes.asleep_of_mem j hj
        have hji : j ≠ i := by
          rintro rfl
          rw [hpc] at hsleeper
          cases hsleeper
        exact .inr (by simp [hj, State.goto, Function.update_of_ne hji])
      · exact .inl (by simp [hj, State.goto])
  | @ret i c past result hpc hreturn =>
      have hpast : (s.pc i).recorded = some past := by rw [hpc, Pc.recorded]
      exact h.quiet_next .outside hpast rfl rfl (blocks_snoc _) id nofun (.inl rfl)
        nofun

theorem written_reaches (h : (stream ι).Reaches tr s) : Written tr s := by
  have hboth : (stream ι).Reaches tr s ∧ Written tr s := by
    refine h.history (I := fun tr s => (stream ι).Reaches tr s ∧ Written tr s) ?_ ?_
    · intro s hinit
      obtain ⟨-, houtput, hpc⟩ := id hinit
      refine ⟨⟨s, hinit, .refl s⟩, houtput, fun i hi => ?_, fun i past hpast => ?_,
        fun i past hpast => ?_⟩
      · rw [hpc i] at hi
        cases hi
      · rw [hpc i] at hpast
        cases hpast
      · rw [hpc i] at hpast
        cases hpast
    · rintro tr s a s' ⟨hs, hwritten⟩ hstep
      exact ⟨hs.trans (.single hstep), written_step hs hwritten hstep⟩
  exact hboth.2

theorem counts_of_closed (h : Closed past) : past.count .lock = 1 ∧ past.count .unlock = 1 := by
  obtain ⟨es, rfl, hes⟩ := h
  have hlock : es.count .lock = 0 := List.count_eq_zero.mpr fun hmem => not_inner_lock (hes _ hmem)
  have hunlock : es.count .unlock = 0 :=
    List.count_eq_zero.mpr fun hmem => not_inner_unlock (hes _ hmem)
  simp [hlock, hunlock]

/-- What is to hold of thread `i` as its call returns after the steps `tr`: the call
has taken the mutex once and released it once, and its bytes are one block. -/
structure Delivered (i : ι) (tr : List (ι × Act ι)) : Prop where
  acquired : (record i tr).count .lock = 1
  released : (record i tr).count .unlock = 1
  block : newest i (blocks tr) = some ((record i tr).flatMap StdioEvent.transferred)

theorem delivered_of_ret (hs : (stream ι).Reaches tr s) (hstep : Step s (i, .ret result) s') :
    Delivered i tr := by
  have hwritten := written_reaches hs
  cases hstep with
  | @ret i c past result hpc hreturn =>
      have hpast : (s.pc i).recorded = some past := by rw [hpc, Pc.recorded]
      obtain rfl := hwritten.recorded i past hpast
      obtain ⟨hacquired, hreleased⟩ := counts_of_closed hreturn.closed
      refine ⟨hacquired, hreleased, hwritten.own i _ hpast ?_⟩
      apply List.count_pos_iff.mp
      rw [hacquired]
      exact Nat.one_pos

/-- The bytes accepted for the `FILE` are one block for each call that has taken
its mutex, in that order, whatever the calls and their write calls do; and each
call that returns has released the mutex once. -/
theorem stream_atomic (h : (stream ι).Reaches tr s) :
    s.output = (blocks tr).reverse.flatMap Prod.snd ∧
      ∀ pre i result post, tr = pre ++ (i, .ret result) :: post → Delivered i pre := by
  refine ⟨(written_reaches h).output, ?_⟩
  rintro pre i result post rfl
  obtain ⟨t, t', hpre, hstep, -⟩ := h.exists_of_append
  exact delivered_of_ret hpre hstep

/-- A kernel whose write calls transfer one byte. -/
def oneByte : Stdio := ⟨fun _ _ => 1, fun _ => 0, [], []⟩

/-- Thread 0 writes a byte with `fputc`, while thread 1 tries the mutex. -/
def putRun : List (ℕ × Act ℕ) :=
  [(0, .call (.fputc 65)), (0, .enterLock), (0, .compareExchange true), (1, .call (.fputc 66)),
    (1, .enterLock), (1, .compareExchange false), (0, .inner (.write [65] 1)), (0, .store),
    (0, .syncWake ∅), (0, .ret 65), (1, .syncWait), (1, .compareExchange true)]

theorem putRun_reaches : ∃ s, (stream ℕ).Reaches putRun s ∧ s.output = [65] := by
  have hlock (c : BitVec 32) : CallTrace (.fputc c) [.lock] :=
    ⟨oneByte, rfl, [.write [c.setWidth 8] 1, .unlock], rfl⟩
  have hwrite : CallTrace (.fputc 65) [.lock, .write [65] 1] :=
    ⟨oneByte, rfl, [.unlock], rfl⟩
  have hunlock : CallTrace (.fputc 65) [.lock, .write [65] 1, .unlock] :=
    ⟨oneByte, rfl, [], rfl⟩
  refine System.exists_reaches
    (s := ⟨ciaMutexInit ⟨mutexFree⟩, [], fun _ => .outside⟩)
    ⟨⟨⟨mutexFree⟩, rfl⟩, rfl, fun _ => rfl⟩ ?_
  refine System.exists_run_cons (.call rfl) ?_
  refine System.exists_run_cons (.enterLock rfl (hlock 65)) ?_
  refine System.exists_run_cons (.compareExchange rfl) ?_
  refine System.exists_run_cons (.call rfl) ?_
  refine System.exists_run_cons (.enterLock rfl (hlock 66)) ?_
  refine System.exists_run_cons (.compareExchange rfl) ?_
  refine System.exists_run_cons (.inner rfl trivial hwrite) ?_
  refine System.exists_run_cons (.store rfl hunlock) ?_
  refine System.exists_run_cons (.syncWake rfl (Futex.wakes_none 1 ?_)) ?_
  · rintro i ⟨c, past, hasleep⟩
    rcases i with _ | _ | i <;> cases hasleep
  refine System.exists_run_cons (.ret rfl ⟨oneByte, _, rfl, rfl, rfl⟩) ?_
  refine System.exists_run_cons (.syncWait rfl) ?_
  exact System.exists_run_cons (.compareExchange rfl) (System.exists_run_nil rfl)

theorem stream_atomic_putRun : ∃ s, (stream ℕ).Reaches putRun s ∧
    s.output = (blocks putRun).reverse.flatMap Prod.snd ∧ Delivered 0 (putRun.take 9) := by
  obtain ⟨s, hs, -⟩ := putRun_reaches
  obtain ⟨houtput, hreturned⟩ := stream_atomic hs
  exact ⟨s, hs, houtput, hreturned (putRun.take 9) 0 65 (putRun.drop 10) rfl⟩

end Ciabatta.StdlibFile.Stream
