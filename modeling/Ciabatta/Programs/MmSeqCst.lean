import Ciabatta.Lib.StoreBuffer
import Ciabatta.Lib.Transition

/-!
`tests/mm_seq_cst.c` on x86-64: two threads set a flag each, two wait for one flag
and then look at the other one, and the program prints how many of these have found
it set. Sequentially consistent accesses never give 0, and the program is to find
out whether releasing stores and acquiring loads do. On x86-64 both are plain `mov`
instructions, and the addition to `cnt` is a locked one. The delays and the prints
of the threads are left out; they only keep some of the runs from happening.
-/

namespace Ciabatta.Programs.MmSeqCst

open Transition System StoreBuffer

inductive Flag
  | x
  | y
  deriving DecidableEq

def Flag.other : Flag → Flag
  | .x => .y
  | .y => .x

/-- The members of `Shared_State`. -/
inductive Cell
  | flag (f : Flag)
  | cnt
  deriving DecidableEq

abbrev CellVal (_ : Cell) : Type := BitVec 32

inductive Thread
  | setter (f : Flag)
  | watcher (f : Flag)
  deriving DecidableEq

/-! The functions of the threads, by what makes them differ. -/

abbrev tx : Thread := .setter .x
abbrev ty : Thread := .setter .y
abbrev t1 : Thread := .watcher .x
abbrev t2 : Thread := .watcher .y

/-- Where a thread stands; `returned` tells whether it has added 1 to `cnt`. -/
inductive Pc
  | store
  | spin
  | load
  | fetchAdd
  | returned (counted : Bool)
  deriving DecidableEq

inductive Act
  | store
  | spin
  | load
  | fetchAdd
  | drain
  deriving DecidableEq

structure State where
  mem : Memory Thread CellVal
  pc : Thread → Pc

def State.goto (s : State) (i : Thread) (pc : Pc) : State :=
  { s with pc := Function.update s.pc i pc }

inductive Step : State → Thread × Act → State → Prop
  | store {s : State} {f : Flag} (h : s.pc (.setter f) = .store) :
      Step s (.setter f, .store)
        { s.goto (.setter f) (.returned false) with
          mem := s.mem.store (.setter f) (.flag f) 1 }
  | spin {s : State} {f : Flag} (h : s.pc (.watcher f) = .spin) :
      Step s (.watcher f, .spin)
        (s.goto (.watcher f)
          (if s.mem.view (.watcher f) (.flag f) = 0 then .spin else .load))
  | load {s : State} {f : Flag} (h : s.pc (.watcher f) = .load) :
      Step s (.watcher f, .load)
        (s.goto (.watcher f)
          (if s.mem.view (.watcher f) (.flag f.other) = 1 then .fetchAdd else .returned false))
  | fetchAdd {s : State} {f : Flag} (h : s.pc (.watcher f) = .fetchAdd)
      (hdrained : s.mem.Drained (.watcher f)) :
      Step s (.watcher f, .fetchAdd)
        { s.goto (.watcher f) (.returned true) with
          mem := s.mem.write .cnt (s.mem.main .cnt + 1) }
  | drain {s : State} {i : Thread} {e : Store CellVal} {es : List (Store CellVal)}
      (h : s.mem.buffer i = e :: es) :
      Step s (i, .drain) { s with mem := s.mem.drain i e es }

def startPc : Thread → Pc
  | .setter _ => .store
  | .watcher _ => .spin

/-- The state in which `main` has created the threads. -/
def start : State := ⟨⟨fun _ => 0, fun _ => []⟩, startPc⟩

def program : System State (Thread × Act) where
  init s := s = start
  step := Step

/-- `main` has joined all threads, and prints `r`. A thread that has exited has nothing
left in a buffer. -/
def Prints (s : State) (r : BitVec 32) : Prop :=
  (∀ i, ∃ counted, s.pc i = .returned counted) ∧ (∀ i, s.mem.Drained i) ∧ s.mem.main .cnt = r

/-! ### The order of the flags -/

/-- A thread that sets `f`, with its buffer and the flag in the memory. -/
inductive Setting (f : Flag) : Pc → List (Store CellVal) → BitVec 32 → Prop
  | before : Setting f .store [] 0
  | buffered : Setting f (.returned false) [⟨.flag f, 1⟩] 0
  | done : Setting f (.returned false) [] 1

def Pc.counted : Pc → BitVec 32
  | .returned true => 1
  | _ => 0

@[simp] theorem counted_spin : Pc.spin.counted = 0 := rfl
@[simp] theorem counted_load : Pc.load.counted = 0 := rfl
@[simp] theorem counted_fetchAdd : Pc.fetchAdd.counted = 0 := rfl
@[simp] theorem counted_returned_false : (Pc.returned false).counted = 0 := rfl
@[simp] theorem counted_returned_true : (Pc.returned true).counted = 1 := rfl

/-- The two that watch do not both miss the other flag: when one of them does, the
other one is still waiting. -/
structure Ordered (s : State) : Prop where
  setter : ∀ f, Setting f (s.pc (.setter f)) (s.mem.buffer (.setter f)) (s.mem.main (.flag f))
  watcher : ∀ f, s.mem.Drained (.watcher f)
  seen : ∀ f, s.pc (.watcher f) ≠ .spin → s.mem.main (.flag f) = 1
  one : ∀ f, s.pc (.watcher f) = .returned false → s.pc (.watcher f.other) ≠ .returned false
  cnt : s.mem.main .cnt = (s.pc t1).counted + (s.pc t2).counted

theorem ordered_start : Ordered start where
  setter f := .before
  watcher f := rfl
  seen f h := absurd rfl h
  one f h := by cases h
  cnt := rfl

variable {s s' : State} {f g : Flag}

@[simp] theorem Flag.other_ne (f : Flag) : f.other ≠ f := by
  cases f <;> decide

@[simp] theorem Flag.other_other (f : Flag) : f.other.other = f := by
  cases f <;> rfl

theorem Flag.eq_or_eq_other (f g : Flag) : g = f ∨ g = f.other := by
  cases f <;> cases g <;> decide

namespace Ordered

theorem view_eq (h : Ordered s) (f : Flag) : s.mem.view (.watcher f) = s.mem.main :=
  Memory.view_of_drained (h.watcher f)

/-- A flag is 0 or 1. -/
theorem flag_eq_one (h : Ordered s) (f : Flag) (hne : s.mem.main (.flag f) ≠ 0) :
    s.mem.main (.flag f) = 1 := by
  have hset := h.setter f
  generalize s.mem.main (.flag f) = v, s.pc (.setter f) = pc, s.mem.buffer (.setter f) = es
    at hset hne ⊢
  cases hset with
  | before | buffered => exact absurd rfl hne
  | done => rfl

/-- The other watcher waits as long as its flag is not set. -/
theorem spin_of_zero (h : Ordered s) {f : Flag} (hne : s.mem.main (.flag f) ≠ 1) :
    s.pc (.watcher f) = .spin := by
  by_contra hspin
  exact hne (h.seen f hspin)

/-- A watcher moves on without a store. -/
theorem goto_watcher (h : Ordered s) {f : Flag} {pc : Pc}
    (hseen : pc ≠ .spin → s.mem.main (.flag f) = 1)
    (hone : pc = .returned false → s.pc (.watcher f.other) ≠ .returned false)
    (hcount : pc.counted = (s.pc (.watcher f)).counted) :
    Ordered (s.goto (.watcher f) pc) where
  setter g := h.setter g
  watcher g := h.watcher g
  seen g hg := by
    rcases Flag.eq_or_eq_other f g with rfl | rfl
    · exact hseen (by simpa [State.goto] using hg)
    · exact h.seen f.other (by simpa [State.goto] using hg)
  one g hg := by
    rcases Flag.eq_or_eq_other f g with rfl | rfl
    · simpa [State.goto] using hone (by simpa [State.goto] using hg)
    · have hother : s.pc (.watcher f.other) = .returned false := by
        simpa [State.goto] using hg
      have hpc : pc ≠ .returned false := fun hpc => hone hpc hother
      simpa [State.goto] using hpc
  cnt := by
    have hsum := h.cnt
    cases f <;> simpa [State.goto, Function.update_apply, hcount] using hsum

theorem fetchAdd (h : Ordered s) {f : Flag} (hpc : s.pc (.watcher f) = .fetchAdd) :
    Ordered { s.goto (.watcher f) (.returned true) with
      mem := s.mem.write .cnt (s.mem.main .cnt + 1) } where
  setter g := by simpa [State.goto] using h.setter g
  watcher g := h.watcher g
  seen g hg := by
    rcases Flag.eq_or_eq_other f g with rfl | rfl
    · simpa using h.seen g (by simp [hpc])
    · simpa using h.seen f.other (by simpa [State.goto] using hg)
  one g hg := by
    rcases Flag.eq_or_eq_other f g with rfl | rfl
    · simp [State.goto] at hg
    · simp [State.goto]
  cnt := by
    have hsum := h.cnt
    cases f <;> simp_all [State.goto, BitVec.add_comm]

theorem store (h : Ordered s) {f : Flag} (hpc : s.pc (.setter f) = .store) :
    Ordered { s.goto (.setter f) (.returned false) with
      mem := s.mem.store (.setter f) (.flag f) 1 } where
  setter g := by
    rcases eq_or_ne g f with rfl | hg
    · have hset := h.setter g
      rw [hpc] at hset
      generalize hbuffer : s.mem.buffer (.setter g) = es at hset
      generalize hflag : s.mem.main (.flag g) = v at hset
      cases hset
      simpa [State.goto, hbuffer, hflag] using Setting.buffered
    · simpa [State.goto, hg] using h.setter g
  watcher g := by
    rw [Memory.Drained, Memory.store_buffer_of_ne (by simp)]
    exact h.watcher g
  seen g hg := h.seen g (by simpa [State.goto] using hg)
  one g hg := by simpa [State.goto] using h.one g (by simpa [State.goto] using hg)
  cnt := by simpa [State.goto] using h.cnt

theorem drain (h : Ordered s) {i : Thread} {e : Store CellVal} {es : List (Store CellVal)}
    (he : s.mem.buffer i = e :: es) : Ordered { s with mem := s.mem.drain i e es } := by
  cases i with
  | watcher f =>
      rw [h.watcher f] at he
      cases he
  | setter f =>
      have hset := h.setter f
      rw [he] at hset
      generalize hflag : s.mem.main (.flag f) = v, hpc : s.pc (.setter f) = pc at hset
      cases hset
      refine ⟨fun g => ?_, fun g => ?_, fun g hg => ?_, h.one, by simpa using h.cnt⟩
      · rcases eq_or_ne g f with rfl | hg
        · simpa [hpc] using Setting.done
        · simpa [hg] using h.setter g
      · rw [Memory.Drained, Memory.drain_buffer_of_ne (by simp)]
        exact h.watcher g
      · rcases eq_or_ne g f with rfl | hgf
        · simp
        · simpa [hgf] using h.seen g hg

end Ordered

theorem ordered_step {a : Thread × Act} (h : Ordered s) (hstep : Step s a s') : Ordered s' := by
  cases hstep with
  | store hpc => exact h.store hpc
  | @spin f hpc =>
      rw [h.view_eq]
      split
      · exact h.goto_watcher (fun hspin => absurd rfl hspin) nofun (by simp [hpc])
      · exact h.goto_watcher (fun _ => h.flag_eq_one f ‹_›) nofun (by simp [hpc])
  | @load f hpc =>
      have hseen : s.mem.main (.flag f) = 1 := h.seen f (by simp [hpc])
      rw [h.view_eq]
      split
      · exact h.goto_watcher (fun _ => hseen) nofun (by simp [hpc])
      · -- the flag is not set yet, so that the one who waits for it is still waiting
        refine h.goto_watcher (fun _ => hseen) (fun _ => ?_) (by simp [hpc])
        rw [h.spin_of_zero ‹_›]
        nofun
  | fetchAdd hpc => exact h.fetchAdd hpc
  | drain he => exact h.drain he

theorem ordered_of_reaches {tr : List (Thread × Act)} (h : program.Reaches tr s) : Ordered s := by
  refine h.invariant (I := Ordered) ?_ fun s a t hs hstep => ordered_step hs hstep
  rintro s rfl
  exact ordered_start

/-! ### The runs -/

/-- The first watcher is done before the other flag is set. -/
def runOne : List (Thread × Act) :=
  [(tx, .store), (tx, .drain), (t1, .spin), (t1, .load), (ty, .store), (ty, .drain),
    (t2, .spin), (t2, .load), (t2, .fetchAdd)]

/-- Both flags are set before a watcher looks. -/
def runTwo : List (Thread × Act) :=
  [(tx, .store), (ty, .store), (tx, .drain), (ty, .drain), (t1, .spin), (t2, .spin),
    (t1, .load), (t2, .load), (t1, .fetchAdd), (t2, .fetchAdd)]

theorem forall_thread {P : Thread → Prop} (hx : P tx) (hy : P ty) (h1 : P t1) (h2 : P t2)
    (i : Thread) : P i := by
  rcases i with f | f <;> cases f
  exacts [hx, hy, h1, h2]

theorem runOne_prints : ∃ s, program.Reaches runOne s ∧ Prints s 1 := by
  refine exists_reaches (show program.init start from rfl) ?_
  refine exists_run_cons (.store rfl) ?_
  refine exists_run_cons (Step.drain (e := ⟨.flag .x, 1⟩) rfl) ?_
  refine exists_run_cons (.spin rfl) (exists_run_cons (.load rfl) ?_)
  refine exists_run_cons (.store rfl) ?_
  refine exists_run_cons (Step.drain (e := ⟨.flag .y, 1⟩) rfl) ?_
  refine exists_run_cons (.spin rfl) (exists_run_cons (.load rfl) ?_)
  refine exists_run_cons (.fetchAdd rfl rfl) (exists_run_nil ⟨?_, ?_, rfl⟩)
  · exact forall_thread ⟨_, rfl⟩ ⟨_, rfl⟩ ⟨_, rfl⟩ ⟨_, rfl⟩
  · exact forall_thread rfl rfl rfl rfl

theorem runTwo_prints : ∃ s, program.Reaches runTwo s ∧ Prints s 2 := by
  refine exists_reaches (show program.init start from rfl) ?_
  refine exists_run_cons (.store rfl) (exists_run_cons (.store rfl) ?_)
  refine exists_run_cons (Step.drain (e := ⟨.flag .x, 1⟩) rfl) ?_
  refine exists_run_cons (Step.drain (e := ⟨.flag .y, 1⟩) rfl) ?_
  refine exists_run_cons (.spin rfl) (exists_run_cons (.spin rfl) ?_)
  refine exists_run_cons (.load rfl) (exists_run_cons (.load rfl) ?_)
  refine exists_run_cons (.fetchAdd rfl rfl) ?_
  refine exists_run_cons (.fetchAdd rfl rfl) (exists_run_nil ⟨?_, ?_, rfl⟩)
  · exact forall_thread ⟨_, rfl⟩ ⟨_, rfl⟩ ⟨_, rfl⟩ ⟨_, rfl⟩
  · exact forall_thread rfl rfl rfl rfl

/-- What the program can print on x86-64: also with releasing stores and acquiring loads
the result 0 does not occur, so that it does not tell them from sequentially consistent ones. -/
theorem prints_iff (r : BitVec 32) :
    (∃ tr s, program.Reaches tr s ∧ Prints s r) ↔ r = 1 ∨ r = 2 := by
  constructor
  · rintro ⟨tr, s, hs, hreturned, -, rfl⟩
    have hordered := ordered_of_reaches hs
    obtain ⟨c1, h1⟩ := hreturned t1
    obtain ⟨c2, h2⟩ := hreturned t2
    rw [hordered.cnt, h1, h2]
    cases c1 with
    | false =>
        cases c2 with
        | false => exact absurd h2 (hordered.one .x h1)
        | true => exact .inl rfl
    | true =>
        cases c2 with
        | false => exact .inl rfl
        | true => exact .inr rfl
  · rintro (rfl | rfl)
    · obtain ⟨s, hs⟩ := runOne_prints
      exact ⟨runOne, s, hs⟩
    · obtain ⟨s, hs⟩ := runTwo_prints
      exact ⟨runTwo, s, hs⟩

end Ciabatta.Programs.MmSeqCst
