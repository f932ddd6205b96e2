import Ciabatta.StdlibProgram.Program

/-!
Which handlers the exits call. The loop starts at one less than the number of
handlers and lowers its index once more before the first call, so the handler
that was registered last is left out. `_start` calls none at all.
-/

namespace Ciabatta.StdlibProgram

open ByteMemory Exec

variable {r : Registry} {s t : Program} {func : Word}

/-! ### Registration -/

/-- The handlers in use, in order of their registration. -/
def HandlerTable.registered {capacity : ℕ} (table : HandlerTable capacity) : List Word :=
  table.handlers.toList.take table.count.toNat

theorem HandlerTable.length_registered {capacity : ℕ} (table : HandlerTable capacity) :
    table.registered.length = table.count.toNat := by
  rw [registered, List.length_take, Vector.length_toList, min_eq_left table.count_le]

theorem Registry.capacity_lt (r : Registry) : r.capacity < 2 ^ 63 := by
  cases r <;> decide

theorem Registry.capacity_pos (r : Registry) : 0 < r.capacity := by
  cases r <;> decide

theorem HandlerTable.add_full {capacity : ℕ} {table : HandlerTable capacity}
    (h : table.registered.length = capacity) : table.add func = ((capacity : ℤ), table) := by
  rw [length_registered] at h
  rw [add, dif_pos h]

theorem HandlerTable.add_free {capacity : ℕ} {table : HandlerTable capacity} (func : Word)
    (h : table.registered.length < capacity) (hcapacity : capacity < 2 ^ 63) :
    (table.add func).1 = 0 ∧
      (table.add func).2.registered = table.registered ++ [func] := by
  rw [length_registered] at h
  rw [add, dif_neg h.ne]
  refine ⟨rfl, ?_⟩
  have hcount : (table.count + 1).toNat = table.count.toNat + 1 := by
    rw [BitVec.toNat_add, show (1 : Word).toNat = 1 from rfl]
    omega
  simp only [registered, hcount, Vector.toList_set]
  rw [List.take_add_one, List.take_set_of_le (Nat.le_refl _)]
  simp [h]

structure Registration where
  registry : Registry
  func : Word

def Registration.call (c : Registration) : ProgramM ℤ :=
  match c.registry with
  | .atexit => atexit c.func
  | .atQuickExit => atQuickExit c.func

theorem Registration.call_eq (c : Registration) : c.call = register c.registry c.func := by
  obtain ⟨registry, func⟩ := c
  cases registry <;> rfl

/-- A sequence of registrations, each with its result. -/
def registerAll : List Registration → ProgramM (List (Registration × ℤ))
  | [] => return []
  | c :: calls => do
      let status ← c.call
      let rest ← registerAll calls
      return (c, status) :: rest

/-- The handlers that the calls on `r` with result 0 passed, in order. -/
def accepted (r : Registry) (record : List (Registration × ℤ)) : List Word :=
  record.filterMap fun c => if c.1.registry = r ∧ c.2 = 0 then some c.1.func else none

theorem accepted_cons (r : Registry) (c : Registration × ℤ) (record : List (Registration × ℤ)) :
    accepted r (c :: record) = accepted r [c] ++ accepted r record := by
  simp only [accepted, List.filterMap_cons, List.filterMap_nil]
  split <;> simp

/-- What one registration does to the tables. -/
structure Registered (c : Registration) (s : Program) (status : ℤ) (t : Program) : Prop where
  log : t.log = s.log
  refused : status ≠ 0 → t.tables = s.tables
  registered : ∀ r, (t.tables r).registered = (s.tables r).registered ++ accepted r [(c, status)]
  free : (s.tables c.registry).registered.length < c.registry.capacity → status = 0

theorem HandlerTable.length_registered_le {capacity : ℕ} (table : HandlerTable capacity) :
    table.registered.length ≤ capacity := by
  rw [table.length_registered]
  exact table.count_le

theorem registered_call (c : Registration) (s : Program) : Yields c.call s (Registered c s) := by
  rw [c.call_eq]
  refine ⟨_, _, rfl, ?_⟩
  by_cases hfull : (s.tables c.registry).registered.length = c.registry.capacity
  · have hpos := c.registry.capacity_pos
    have hnone : ∀ r, accepted r [(c, (c.registry.capacity : ℤ))] = [] := by
      simp [accepted, hpos.ne']
    rw [HandlerTable.add_full hfull, Function.update_eq_self]
    exact ⟨rfl, fun _ => rfl, fun r => by rw [hnone, List.append_nil], by omega⟩
  · have hlt := lt_of_le_of_ne (s.tables c.registry).length_registered_le hfull
    obtain ⟨hstatus, hadd⟩ := HandlerTable.add_free c.func hlt c.registry.capacity_lt
    refine ⟨rfl, fun hne => absurd hstatus hne, fun r => ?_, fun _ => hstatus⟩
    by_cases hr : r = c.registry
    · subst hr
      simp [accepted, hstatus, hadd]
    · simp [accepted, Function.update_of_ne hr, Ne.symm hr]

/-- What a sequence of registrations does to the tables. -/
structure RegisteredAll (calls : List Registration) (s : Program)
    (record : List (Registration × ℤ)) (t : Program) : Prop where
  log : t.log = s.log
  registered : ∀ r, (t.tables r).registered = (s.tables r).registered ++ accepted r record
  accepted_nil : ∀ r, (s.tables r).registered = [] →
    (accepted r record = [] ↔ ∀ c ∈ calls, c.registry ≠ r)

theorem registeredAll_cons {c : Registration} {calls : List Registration} {u : Program} {status : ℤ}
    {record : List (Registration × ℤ)} (h : Registered c s status t)
    (hrest : RegisteredAll calls t record u) :
    RegisteredAll (c :: calls) s ((c, status) :: record) u where
  log := hrest.log.trans h.log
  registered r := by
    rw [accepted_cons, ← List.append_assoc, ← h.registered, hrest.registered]
  accepted_nil r hnil := by
    rw [accepted_cons, List.append_eq_nil_iff, List.forall_mem_cons]
    by_cases hr : c.registry = r
    · subst hr
      have hstatus := h.free (by rw [hnil]; exact c.registry.capacity_pos)
      simp [accepted, hstatus]
    · have hskip : accepted r [(c, status)] = [] := by simp [accepted, hr]
      have hnil' : (t.tables r).registered = [] := by rw [h.registered, hskip, hnil]; rfl
      rw [hrest.accepted_nil r hnil']
      simp [hskip, hr]

theorem registeredAll_registerAll (calls : List Registration) (s : Program) :
    Yields (registerAll calls) s (RegisteredAll calls s) := by
  induction calls generalizing s with
  | nil => exact yields_pure ⟨rfl, by simp [accepted], by simp [accepted]⟩
  | cons c calls ih =>
      refine (registered_call c s).bind fun status t hcall => ?_
      refine (ih t).bind fun record u hrest => ?_
      exact yields_pure (registeredAll_cons hcall hrest)

/-! ### The loop of the exits -/

/-- The calls of the first `n` handlers of a table, last one first. -/
def Program.afterCalls (s : Program) (r : Registry) (n : ℕ) : Program :=
  { s with log := s.log ++ ((s.tables r).registered.take n).reverse.map .handler }

theorem HandlerTable.get_of_registered {capacity n : ℕ} {table : HandlerTable capacity}
    (h : table.registered[n]? = some func) : table.get (n : ℤ) = pure func := by
  have hlt : n < table.registered.length := (List.getElem?_eq_some_iff.mp h).1
  have hcapacity : n < capacity := lt_of_lt_of_le hlt table.length_registered_le
  have hentry : table.handlers[n] = func := by
    rw [registered, List.getElem?_take_of_lt (table.length_registered ▸ hlt)] at h
    simpa [hcapacity] using h
  rw [get, dif_pos ⟨Int.natCast_nonneg n, by simpa using hcapacity⟩]
  exact congrArg pure hentry

theorem decrementInt64_of_lt {σ : Type} {i : ℤ} (h : -2 ^ 63 < i) :
    (decrementInt64 i : EStateM Stop σ ℤ) = pure (i - 1) :=
  if_pos h

/-- The round at index `n + 1` calls the handler at `n`. -/
theorem callHandlersRound_succ {n : ℕ} (h : (s.tables r).registered[n]? = some func) :
    Yields (callHandlersRound r (n + 1 : ℕ)) s fun next t =>
      next = .inl (n : ℤ) ∧ t = s.record (.handler func) := by
  have hnext : ((n + 1 : ℕ) : ℤ) - 1 = n := by omega
  rw [callHandlersRound, decrementInt64_of_lt (by omega), pure_bind, if_pos (by omega), hnext]
  refine Yields.get_bind ?_
  rw [HandlerTable.get_of_registered h, pure_bind]
  exact ⟨_, _, rfl, rfl, rfl⟩

/-- The round that ends the loop. -/
theorem callHandlersRound_last {i : ℤ} (h : i ≤ 0) (hmin : -2 ^ 63 < i) :
    Yields (callHandlersRound r i) s fun next t => next = .inr () ∧ t = s := by
  rw [callHandlersRound, decrementInt64_of_lt hmin, pure_bind, if_neg (by omega)]
  exact yields_pure ⟨rfl, rfl⟩

theorem Program.afterCalls_zero (s : Program) (r : Registry) : s.afterCalls r 0 = s := by
  simp [afterCalls]

theorem Program.afterCalls_succ {n : ℕ} (h : (s.tables r).registered[n]? = some func) :
    (s.record (.handler func)).afterCalls r n = s.afterCalls r (n + 1) := by
  have hlast : (s.tables r).registered.take (n + 1)
      = (s.tables r).registered.take n ++ [func] := by
    rw [List.take_add_one, h]
    rfl
  simp [afterCalls, record, hlast]

theorem callHandlers_loop {n fuel : ℕ} (hn : n ≤ (s.tables r).registered.length)
    (hfuel : n < fuel) :
    Yields (loop (callHandlersRound r) fuel (n : ℤ)) s fun _ t => t = s.afterCalls r n := by
  induction n generalizing s fuel with
  | zero =>
      obtain ⟨fuel, rfl⟩ := Nat.exists_eq_succ_of_ne_zero hfuel.ne'
      rw [s.afterCalls_zero]
      exact (callHandlersRound_last (by simp) (by simp)).loop_end
  | succ n ih =>
      obtain ⟨fuel, rfl⟩ := Nat.exists_eq_succ_of_ne_zero (Nat.zero_lt_of_lt hfuel).ne'
      have hfunc := List.getElem?_eq_getElem (Nat.lt_of_succ_le hn)
      refine (callHandlersRound_succ hfunc).loop_next fun t ht => ?_
      subst ht
      rw [← Program.afterCalls_succ hfunc]
      exact ih (Nat.le_of_succ_le hn) (Nat.lt_of_succ_lt_succ hfuel)

/-- The loop starts at one less than the number of handlers and decrements
before it calls. -/
theorem yields_callHandlers (r : Registry) (s : Program) :
    Yields (callHandlers r) s fun _ t =>
      t = s.afterCalls r ((s.tables r).registered.length - 1) := by
  rw [callHandlers]
  refine Yields.get_bind ?_
  have hlength := (s.tables r).length_registered
  have hle := (s.tables r).length_registered_le
  have hcapacity := r.capacity_lt
  by_cases hempty : (s.tables r).registered.length = 0
  · have hcount : (s.tables r).count = 0 := by
      apply BitVec.eq_of_toNat_eq
      rw [← hlength, hempty]
      rfl
    rw [hcount, hempty, s.afterCalls_zero]
    exact (callHandlersRound_last (by decide) (by decide)).loop_end
  · have hstart : ((s.tables r).count - 1).toInt
        = ((s.tables r).registered.length - 1 : ℕ) := by
      rw [BitVec.toInt_eq_toNat_of_lt, BitVec.toNat_sub, show (1 : Word).toNat = 1 from rfl]
      · omega
      · rw [BitVec.toNat_sub, show (1 : Word).toNat = 1 from rfl]
        omega
    rw [hstart]
    exact callHandlers_loop (Nat.sub_le _ _) (by simp)

/-! ### Which handlers an exit calls -/

/-- An exit with handlers, and its code. -/
inductive Ending
  | exit (code : BitVec 32)
  | quickExit (code : BitVec 32)

def Ending.registry : Ending → Registry
  | .exit _ => .atexit
  | .quickExit _ => .atQuickExit

def Ending.code : Ending → BitVec 32
  | .exit code => code
  | .quickExit code => code

def Ending.run : Ending → ProgramM Unit
  | .exit code => StdlibProgram.exit code
  | .quickExit code => StdlibProgram.quickExit code

def ProgramEvent.handlerCall : ProgramEvent → Option Word
  | .handler func => some func
  | _ => none

/-- The handlers called so far, in order. -/
def Program.handlerCalls (s : Program) : List Word :=
  s.log.filterMap ProgramEvent.handlerCall

@[simp] theorem Program.handlerCalls_record (s : Program) (e : ProgramEvent) :
    (s.record e).handlerCalls = s.handlerCalls ++ e.handlerCall.toList := by
  cases e <;> simp [handlerCalls, record, ProgramEvent.handlerCall]

@[simp] theorem Program.handlerCalls_afterCalls (s : Program) (r : Registry) (n : ℕ) :
    (s.afterCalls r n).handlerCalls
      = s.handlerCalls ++ ((s.tables r).registered.take n).reverse := by
  have hcalls (l : List Word) :
      (l.map ProgramEvent.handler).filterMap ProgramEvent.handlerCall = l := by
    simp [List.filterMap_map, Function.comp_def, ProgramEvent.handlerCall]
  rw [handlerCalls, afterCalls, List.filterMap_append, hcalls]
  rfl

/-- An exit calls all handlers of its table but the last one, in reverse order,
and ends with its code. -/
theorem Ending.run_eq (e : Ending) (s : Program) :
    ∃ t, e.run s = .error (.exit e.code) t ∧ t.handlerCalls
      = s.handlerCalls ++ (s.tables e.registry).registered.dropLast.reverse := by
  obtain ⟨_, t, hcalls, ht⟩ := yields_callHandlers e.registry s
  refine ⟨t.record (.syscall sysExitNumber e.code), ?_, ?_⟩
  · cases e <;> exact bind_of_ok hcalls
  · rw [ht, List.dropLast_eq_take]
    simp [ProgramEvent.handlerCall]

/-- What the registrations promise of an exit after them: it calls the accepted
handlers of its own table in reverse order and ends with its code, and no
refusal has changed a table. -/
structure HandlersHonoured (calls : List Registration) (e : Ending) : Prop where
  called : ∃ record s t, registerAll calls .initial = .ok record s ∧
    e.run s = .error (.exit e.code) t ∧ t.handlerCalls = (accepted e.registry record).reverse
  refused : ∀ earlier c, earlier ++ [c] <+: calls → ∀ record s status t,
    registerAll earlier .initial = .ok record s → c.call s = .ok status t → status ≠ 0 →
      t.tables = s.tables

theorem registered_initial (r : Registry) : (Program.initial.tables r).registered = [] :=
  rfl

theorem dropLast_eq_self_iff {α : Type} {l : List α} : l.dropLast = l ↔ l = [] := by
  constructor
  · intro h
    have hlength := congrArg List.length h
    rw [List.length_dropLast] at hlength
    exact List.length_eq_zero_iff.mp (by omega)
  · rintro rfl
    rfl

/-- An exit does what the registrations promise if and only if there was none on
its table. -/
theorem handlersHonoured_iff (calls : List Registration) (e : Ending) :
    HandlersHonoured calls e ↔ ∀ c ∈ calls, c.registry ≠ e.registry := by
  obtain ⟨record, s, hcalls, hall⟩ := registeredAll_registerAll calls .initial
  obtain ⟨t, hrun, hhandlers⟩ := e.run_eq s
  have hregistered : (s.tables e.registry).registered = accepted e.registry record := by
    rw [hall.registered, registered_initial, List.nil_append]
  have hlog : s.handlerCalls = [] := by
    rw [Program.handlerCalls, hall.log]
    rfl
  rw [hlog, List.nil_append, hregistered] at hhandlers
  rw [← hall.accepted_nil e.registry (registered_initial _), ← dropLast_eq_self_iff,
    ← List.reverse_inj, ← hhandlers]
  constructor
  · intro h
    obtain ⟨record', s', t', hcalls', hrun', hhandlers'⟩ := h.called
    rw [hcalls] at hcalls'
    cases hcalls'
    rw [hrun] at hrun'
    cases hrun'
    exact hhandlers'
  · intro h
    refine ⟨⟨record, s, t, hcalls, hrun, h⟩, ?_⟩
    intro earlier c _ record' s' status t' _ hcall
    exact ((registered_call c s').of_eq hcall).refused

/-- One handler, registered and then not called. -/
theorem handlersHonoured_fails : ¬ HandlersHonoured [⟨.atexit, 4096⟩] (.exit 0) := by
  rintro ⟨⟨record, s, t, hcalls, hrun, hhandlers⟩, -⟩
  cases hcalls
  cases hrun
  revert hhandlers
  decide

/-! ### Returning from `main` -/

section Main

variable {α : Type} {params : LdCrtParams} {main : ProgramM (BitVec 32)} {code : BitVec 32}

/-- Both runs end with the same exit status, after the same calls of handlers. -/
def SameEnd (x y : EStateM.Result Stop Program α) : Prop :=
  ∃ code t u, x = .error (.exit code) t ∧ y = .error (.exit code) u ∧
    t.handlerCalls = u.handlerCalls

/-- A return from `main` calls no handler. -/
theorem start_of_return (hmain : (startup params >>= fun _ => main) s = .ok code t) :
    ∃ u, (start params main : ProgramM α) s = .error (.exit code) u ∧
      u.handlerCalls = t.handlerCalls := by
  refine ⟨(t.record .cancellAllRunning).record (.syscall sysExitNumber code), ?_, ?_⟩
  · rw [start, ← bind_assoc, bind_of_ok hmain]
    rfl
  · simp [ProgramEvent.handlerCall]

theorem start_of_exit (hmain : (startup params >>= fun _ => main) s = .ok code t) :
    ∃ u, (start params (main >>= exit) : ProgramM α) s = .error (.exit code) u ∧
      u.handlerCalls = t.handlerCalls ++ (t.tables .atexit).registered.dropLast.reverse := by
  obtain ⟨_, v, hcalls, hv⟩ := yields_callHandlers .atexit t
  refine ⟨v.record (.syscall sysExitNumber code), ?_, ?_⟩
  · have hexit : (exit code : ProgramM (BitVec 32)) t
        = .error (.exit code) (v.record (.syscall sysExitNumber code)) := bind_of_ok hcalls
    rw [start, ← bind_assoc]
    apply bind_of_error
    rw [← bind_assoc, bind_of_ok hmain, hexit]
  · rw [hv, List.dropLast_eq_take]
    simp [ProgramEvent.handlerCall]

/-- Whatever `main` does, returning from it and calling `exit` instead are the
same if and only if it leaves at most one handler registered. -/
theorem return_sameEnd_exit_iff (hmain : (startup params >>= fun _ => main) s = .ok code t) :
    SameEnd ((start params main : ProgramM α) s) ((start params (main >>= exit) : ProgramM α) s) ↔
      (t.tables .atexit).registered.length ≤ 1 := by
  obtain ⟨u, hreturn, hu⟩ := start_of_return (α := α) hmain
  obtain ⟨v, hexit, hv⟩ := start_of_exit (α := α) hmain
  have hsame : u.handlerCalls = v.handlerCalls ↔
      (t.tables .atexit).registered.dropLast = [] := by
    rw [hu, hv, List.self_eq_append_right, List.reverse_eq_nil_iff]
  have hshort : (t.tables .atexit).registered.dropLast = [] ↔
      (t.tables .atexit).registered.length ≤ 1 := by
    rw [← List.length_eq_zero_iff, List.length_dropLast]
    omega
  rw [← hshort, ← hsame]
  constructor
  · rintro ⟨_, u', v', hreturn', hexit', hcalls⟩
    rw [hreturn] at hreturn'
    rw [hexit] at hexit'
    cases hreturn'
    cases hexit'
    exact hcalls
  · exact fun hcalls => ⟨code, u, v, hreturn, hexit, hcalls⟩

end Main

/-- A `main` that registers its two handlers and returns 0. -/
def twoHandlersMain : ProgramM (BitVec 32) := do
  let _ ← atexit 4096
  let _ ← atexit 8192
  return 0

theorem return_sameEnd_exit_twoHandlers : ∃ t,
    (startup ⟨0, 0, 0⟩ >>= fun _ => twoHandlersMain) .initial = .ok 0 t ∧
      ¬ (t.tables .atexit).registered.length ≤ 1 ∧
      ¬ SameEnd ((start ⟨0, 0, 0⟩ twoHandlersMain : ProgramM Unit) .initial)
        ((start ⟨0, 0, 0⟩ (twoHandlersMain >>= exit) : ProgramM Unit) .initial) := by
  refine ⟨_, rfl, by decide, ?_⟩
  have hmain : (startup ⟨0, 0, 0⟩ >>= fun _ => twoHandlersMain) .initial = .ok 0 _ := rfl
  rw [return_sameEnd_exit_iff hmain]
  decide

theorem return_sameEnd_exit_fails :
    ¬ SameEnd ((start ⟨0, 0, 0⟩ twoHandlersMain : ProgramM Unit) .initial)
      ((start ⟨0, 0, 0⟩ (twoHandlersMain >>= exit) : ProgramM Unit) .initial) := by
  rintro ⟨_, t, u, hreturn, hexit, hcalls⟩
  cases hreturn
  cases hexit
  revert hcalls
  decide

end Ciabatta.StdlibProgram
