import Ciabatta.Lib.Footprint
import Ciabatta.Lib.WordArray

/-!
`os/linux/crt-ctors.c`: the functions of `.init_array` and `.fini_array`. The linker
gives the two ends of either array. The code subtracts them as integers, so that what
it counts to is the number of bytes, not the number of pointers.
-/

namespace Ciabatta.Os

open ByteMemory Exec

/-- A call through a pointer of one of the arrays. -/
inductive CtorCall
  | init (func : Word) (argc : BitVec 32) (argv envp : Word)
  | fini (func : Word)
  deriving DecidableEq

/-- What a call does with the memory, by what has happened before; or it does not return. -/
abbrev Callee := List (Event CtorCall) → CtorCall → Mem → Except Stop Mem

def callThrough (callee : Callee) (c : CtorCall) : Exec CtorCall Unit := fun s =>
  match callee s.log c s.mem with
  | .ok mem => .ok () { s.record (.call c) with mem := mem }
  | .error e => .error e (s.record (.call c))

/-- `for(u64 i = 0; i != size; ++i)` -/
def libcGlobalInitRound (callee : Callee) (initArrayStart size : Word) (argc : BitVec 32)
    (argv envp : Word) (i : Word) : Exec CtorCall (Word ⊕ Unit) :=
  if i ≠ size then do
    let func ← loadWord (initArrayStart + i * 8)
    callThrough callee (.init func argc argv envp)
    return .inl (i + 1)
  else
    return .inr ()

def libcGlobalInit (callee : Callee) (initArrayStart initArrayEnd : Word) (argc : BitVec 32)
    (argv envp : Word) : Exec CtorCall Unit :=
  let size := initArrayEnd - initArrayStart
  loop (libcGlobalInitRound callee initArrayStart size argc argv envp) (size.toNat + 1) 0

/-- `while(i-- > 0)` -/
def libcGlobalFiniRound (callee : Callee) (finiArrayStart : Word) (i : Word) :
    Exec CtorCall (Word ⊕ Unit) :=
  if i > 0 then do
    let i := i - 1
    let func ← loadWord (finiArrayStart + i * 8)
    callThrough callee (.fini func)
    return .inl i
  else
    return .inr ()

def libcGlobalFini (callee : Callee) (finiArrayStart finiArrayEnd : Word) : Exec CtorCall Unit :=
  let size := finiArrayEnd - finiArrayStart
  loop (libcGlobalFiniRound callee finiArrayStart) (size.toNat + 1) size

/-! ### The arrays -/

/-- The pointers stand in memory from the first of the two ends up to the other. -/
structure ArrayAt (m : Mem) (arrayStart arrayEnd : Word) (entries : List Word) : Prop where
  toNat_end : arrayEnd.toNat = arrayStart.toNat + 8 * entries.length
  word : ∀ i w, entries[i]? = some w → load64 m (wordSlot arrayStart i) = w

/-- Each of the calls returns, from any state. -/
def Return (callee : Callee) (calls : List CtorCall) : Prop :=
  ∀ c ∈ calls, ∀ log m, ∃ m', callee log c m = .ok m'

/-- Whether it returns or not, the program makes these calls and no others, and reads
nothing but the array. -/
def CallsJust (x : Exec CtorCall Unit) (s : Machine CtorCall) (array : Set Word)
    (calls : List CtorCall) : Prop :=
  ∃ es, (final (x s)).log = s.log ++ es ∧ es.filterMap Event.called = calls ∧
    ∀ e ∈ es, e.Within array ∅

def initCall (argc : BitVec 32) (argv envp : Word) (func : Word) : CtorCall :=
  .init func argc argv envp

variable {callee : Callee} {s : Machine CtorCall} {array : Set Word} {calls : List CtorCall}

/-! ### Rounds that call -/

/-- From `b` on the loop makes at least `n` rounds, each with a call, unless a call does
not return. -/
def MakesCalls (callee : Callee) (body : Word → Exec CtorCall (Word ⊕ Unit)) : ℕ → Word → Prop
  | 0, _ => True
  | n + 1, b => ∃ (a c : Word) (call : Word → CtorCall),
      body b = (do
        let func ← loadWord a
        callThrough callee (call func)
        return .inl c) ∧ MakesCalls callee body n c

/-- The log only grows. -/
def LogGrows {α : Type} (x : Exec CtorCall α) : Prop :=
  ∀ s, Reflects (fun t => ¬ Since (fun _ => True) s t) x

theorem logGrows_callThrough (callee : Callee) (c : CtorCall) :
    LogGrows (callThrough callee c) := by
  intro s t h
  refine (logReflects_not_since _ s).of_event t _ (.call c) trivial ?_ h
  rw [callThrough]
  cases callee t.log c t.mem with
  | ok mem => rfl
  | error e => rfl

theorem logGrows_call {α : Type} (callee : Callee) (a : Word) (call : Word → CtorCall)
    (b : α) : LogGrows (do
      let func ← loadWord a
      callThrough callee (call func)
      return b) := by
  intro s
  refine Reflects.bind (((logReflects_not_since _ s).access fun _ _ => trivial).loadWord a) ?_
  intro func
  exact (logGrows_callThrough callee (call func) s).bind fun _ => reflects_pure b

variable {body : Word → Exec CtorCall (Word ⊕ Unit)} {n fuel : ℕ} {b : Word}

theorem exists_log_loop (hgrows : ∀ b, LogGrows (body b)) (fuel : ℕ) (b : Word)
    (s : Machine CtorCall) : ∃ es, (final (loop body fuel b s)).log = s.log ++ es := by
  have hreflects := reflects_loop (fun b => hgrows b s) fuel b
  obtain ⟨es, hes, -⟩ := hreflects.keeps (since_refl s)
  exact ⟨es, hes⟩

/-- A round with a call: the call is in the log, and the loop goes on if it returns. -/
theorem exists_of_callRound {α : Type} (callee : Callee) (a : Word) (call : Word → CtorCall)
    (c : α) (s : Machine CtorCall) : ∃ ct t, t.log = s.log ++ [.load a 8, .call ct] ∧
      ((∃ log m e, callee log ct m = .error e ∧ (do
          let func ← loadWord a
          callThrough callee (call func)
          return c : Exec CtorCall α) s = .error e t) ∨
        (do
          let func ← loadWord a
          callThrough callee (call func)
          return c : Exec CtorCall α) s = .ok c t) := by
  refine ⟨call (load64 s.mem a), ?_⟩
  have hlog : s.log ++ [.load a 8, .call (call (load64 s.mem a))] =
      ((s.record (.load a 8)).record (.call (call (load64 s.mem a)))).log := by
    rw [Machine.record, Machine.record, List.append_assoc]
    rfl
  rw [loadWord_bind]
  cases hcallee : callee (s.record (.load a 8)).log (call (load64 s.mem a)) s.mem with
  | error e =>
      refine ⟨_, hlog.symm, .inl ⟨_, _, e, hcallee, bind_of_error ?_⟩⟩
      simp only [callThrough, Machine.record_mem, hcallee]
  | ok mem =>
      refine ⟨{ (s.record (.load a 8)).record (.call (call (load64 s.mem a))) with mem := mem },
        hlog.symm, .inr ?_⟩
      rw [bind_of_ok (b := ()) (t := { (s.record (.load a 8)).record
        (.call (call (load64 s.mem a))) with mem := mem })]
      · rfl
      · simp only [callThrough, Machine.record_mem, hcallee]

/-- The first of several calls, and what comes after it if it returns. -/
theorem MakesCalls.exists_called (h : MakesCalls callee body (n + 1) b)
    (hgrows : ∀ b, LogGrows (body b)) {es : List (Event CtorCall)}
    (hes : (final (loop body (fuel + 1) b s)).log = s.log ++ es) :
    ∃ ct es', es.filterMap Event.called = ct :: es'.filterMap Event.called ∧
      ((∃ log m e, callee log ct m = .error e) ∨
        ∃ c t, MakesCalls callee body n c ∧ (final (loop body fuel c t)).log = t.log ++ es') := by
  obtain ⟨a, c, call, hbody, hrest⟩ := h
  obtain ⟨ct, t, htlog, hround⟩ := exists_of_callRound callee a call (Sum.inl c : Word ⊕ Unit) s
  rw [← hbody] at hround
  rcases hround with ⟨log, m, e, herror, hround⟩ | hround
  · rw [loop, bind_of_error hround, final, htlog, List.append_cancel_left_eq] at hes
    exact ⟨ct, [], by rw [← hes]; rfl, .inl ⟨log, m, e, herror⟩⟩
  · rw [loop, bind_of_ok hround] at hes
    obtain ⟨es', hes'⟩ := exists_log_loop hgrows fuel c t
    have hsplit : es = [.load a 8, .call ct] ++ es' := by
      rw [← List.append_cancel_left_eq s.log, ← hes, ← List.append_assoc, ← htlog]
      exact hes'
    exact ⟨ct, es', by rw [hsplit]; rfl, .inr ⟨c, t, hrest, hes'⟩⟩

/-- A loop with more rounds than there are calls to make does not make just these. -/
theorem MakesCalls.called_ne (h : MakesCalls callee body n b) (hgrows : ∀ b, LogGrows (body b))
    (hreturn : Return callee calls) (hn : calls.length < n) (hfuel : n ≤ fuel)
    {es : List (Event CtorCall)} (hes : (final (loop body fuel b s)).log = s.log ++ es) :
    es.filterMap Event.called ≠ calls := by
  induction calls generalizing n b fuel s es with
  | nil =>
      obtain ⟨n, rfl⟩ := Nat.exists_eq_succ_of_ne_zero hn.ne'
      obtain ⟨fuel, rfl⟩ := Nat.exists_eq_add_of_le' (Nat.succ_pos n |>.trans_le hfuel)
      obtain ⟨ct, es', hcalled, -⟩ := h.exists_called hgrows hes
      rw [hcalled]
      exact List.cons_ne_nil _ _
  | cons d calls ih =>
      rw [List.length_cons] at hn
      obtain ⟨n, rfl⟩ := Nat.exists_eq_succ_of_ne_zero (Nat.ne_zero_of_lt hn)
      obtain ⟨fuel, rfl⟩ := Nat.exists_eq_add_of_le' (Nat.succ_pos n |>.trans_le hfuel)
      obtain ⟨ct, es', hcalled, hrest⟩ := h.exists_called hgrows hes
      rw [hcalled]
      intro heq
      obtain ⟨rfl, hcalls⟩ := List.cons.inj heq
      rcases hrest with ⟨log, m, e, herror⟩ | ⟨c, t, hmakes, hes'⟩
      · obtain ⟨m', hok⟩ := hreturn ct List.mem_cons_self log m
        rw [herror] at hok
        cases hok
      · exact ih hmakes (fun d hd => hreturn d (List.mem_cons_of_mem _ hd))
          (Nat.lt_of_succ_lt_succ hn) (Nat.le_of_succ_le_succ hfuel) hes' hcalls

/-! ### The two loops -/

section Init

variable {initArrayStart size argv envp : Word} {argc : BitVec 32}

theorem logGrows_initRound (b : Word) :
    LogGrows (libcGlobalInitRound callee initArrayStart size argc argv envp b) := by
  intro s
  exact (logGrows_call callee _ (fun func => .init func argc argv envp) _ s).ite
    (reflects_pure _)

theorem makesCalls_init (hb : b.toNat + n = size.toNat) :
    MakesCalls callee (libcGlobalInitRound callee initArrayStart size argc argv envp) n b := by
  induction n generalizing b with
  | zero => trivial
  | succ n ih =>
      have hlt := size.isLt
      have hne : b ≠ size := by
        rintro rfl
        omega
      refine ⟨initArrayStart + b * 8, b + 1, fun func => .init func argc argv envp, if_pos hne, ?_⟩
      apply ih
      rw [BitVec.toNat_add, show (1 : Word).toNat = 1 from rfl]
      omega

end Init

section Fini

variable {finiArrayStart : Word}

theorem logGrows_finiRound (b : Word) :
    LogGrows (libcGlobalFiniRound callee finiArrayStart b) := by
  intro s
  exact (logGrows_call callee _ .fini _ s).ite (reflects_pure _)

theorem makesCalls_fini (hb : b.toNat = n) :
    MakesCalls callee (libcGlobalFiniRound callee finiArrayStart) n b := by
  induction n generalizing b with
  | zero => trivial
  | succ n ih =>
      have hpos : b > 0 := by
        rw [gt_iff_lt, BitVec.lt_def, hb]
        exact Nat.succ_pos n
      refine ⟨finiArrayStart + (b - 1) * 8, b - 1, .fini, if_pos hpos, ih ?_⟩
      rw [BitVec.toNat_sub, show (1 : Word).toNat = 1 from rfl]
      omega

end Fini

/-! ### Main result -/

variable {arrayStart arrayEnd : Word} {entries : List Word} {m : Mem}

/-- The code counts to the number of bytes. -/
theorem ArrayAt.toNat_sub (h : ArrayAt m arrayStart arrayEnd entries) :
    (arrayEnd - arrayStart).toNat = 8 * entries.length := by
  have hend := h.toNat_end
  have hlt := arrayEnd.isLt
  rw [BitVec.toNat_sub]
  omega

/-- With no pointers there are no bytes. -/
theorem ArrayAt.sub_eq_zero (h : ArrayAt m arrayStart arrayEnd []) : arrayEnd - arrayStart = 0 :=
  BitVec.eq_of_toNat_eq h.toNat_sub

theorem libcGlobalInit_iff {argc : BitVec 32} {argv envp : Word}
    (h : ArrayAt s.mem arrayStart arrayEnd entries)
    (hreturn : Return callee (entries.map (initCall argc argv envp))) :
    CallsJust (libcGlobalInit callee arrayStart arrayEnd argc argv envp) s
      (region arrayStart (8 * entries.length)) (entries.map (initCall argc argv envp)) ↔
      entries = [] := by
  constructor
  · rintro ⟨es, hes, hcalled, -⟩
    by_contra hne
    have hpos : 0 < entries.length := List.length_pos_iff.mpr hne
    have hmakes : MakesCalls callee (libcGlobalInitRound callee arrayStart (arrayEnd - arrayStart)
        argc argv envp) (8 * entries.length) 0 :=
      makesCalls_init (by rw [h.toNat_sub]; exact Nat.zero_add _)
    refine hmakes.called_ne logGrows_initRound hreturn ?_ ?_ hes hcalled
    · rw [List.length_map]
      omega
    · rw [h.toNat_sub]
      exact Nat.le_succ _
  · rintro rfl
    refine ⟨[], ?_, rfl, by simp⟩
    rw [libcGlobalInit, h.sub_eq_zero, List.append_nil]
    rfl

theorem libcGlobalFini_iff (h : ArrayAt s.mem arrayStart arrayEnd entries)
    (hreturn : Return callee (entries.reverse.map .fini)) :
    CallsJust (libcGlobalFini callee arrayStart arrayEnd) s
      (region arrayStart (8 * entries.length)) (entries.reverse.map .fini) ↔ entries = [] := by
  constructor
  · rintro ⟨es, hes, hcalled, -⟩
    by_contra hne
    have hpos : 0 < entries.length := List.length_pos_iff.mpr hne
    have hmakes : MakesCalls callee (libcGlobalFiniRound callee arrayStart) (8 * entries.length)
        (arrayEnd - arrayStart) := makesCalls_fini h.toNat_sub
    refine hmakes.called_ne logGrows_finiRound hreturn ?_ ?_ hes hcalled
    · rw [List.length_map, List.length_reverse]
      omega
    · rw [h.toNat_sub]
      exact Nat.le_succ _
  · rintro rfl
    refine ⟨[], ?_, rfl, by simp⟩
    rw [libcGlobalFini, h.sub_eq_zero, List.append_nil]
    rfl

/-- What the linker and the functions in the arrays are to keep to. -/
structure Linked (callee : Callee) (s u : Machine CtorCall) (initArrayStart initArrayEnd
    finiArrayStart finiArrayEnd : Word) (argc : BitVec 32) (argv envp : Word)
    (init fini : List Word) : Prop where
  initArray : ArrayAt s.mem initArrayStart initArrayEnd init
  finiArray : ArrayAt u.mem finiArrayStart finiArrayEnd fini
  initReturn : Return callee (init.map (initCall argc argv envp))
  finiReturn : Return callee (fini.reverse.map .fini)

/-- Either function does as it should if and only if its array is empty. -/
theorem libcGlobal_iff {u : Machine CtorCall}
    {initArrayStart initArrayEnd finiArrayStart finiArrayEnd argv envp : Word} {argc : BitVec 32}
    {init fini : List Word} (h : Linked callee s u initArrayStart initArrayEnd finiArrayStart
      finiArrayEnd argc argv envp init fini) :
    (CallsJust (libcGlobalInit callee initArrayStart initArrayEnd argc argv envp) s
      (region initArrayStart (8 * init.length)) (init.map (initCall argc argv envp)) ↔
      init = []) ∧
    (CallsJust (libcGlobalFini callee finiArrayStart finiArrayEnd) u
      (region finiArrayStart (8 * fini.length)) (fini.reverse.map .fini) ↔ fini = []) :=
  ⟨libcGlobalInit_iff h.initArray h.initReturn, libcGlobalFini_iff h.finiArray h.finiReturn⟩

/-! ### A program with one constructor -/

/-- Each call returns and leaves the memory as it is. -/
def quiet : Callee := fun _ _ m => .ok m

theorem return_quiet (calls : List CtorCall) : Return quiet calls :=
  fun _ _ _ m => ⟨m, rfl⟩

/-- One pointer in `.init_array` and none in `.fini_array`. -/
theorem linked_oneConstructor : Linked quiet ⟨ofWords 4096 [0x401000], []⟩
    ⟨ofWords 4096 [0x401000], []⟩ 4096 4104 4104 4104 1 0 0 [0x401000] [] where
  initArray := ⟨rfl, (holdsWords_ofWords (by decide)).word⟩
  finiArray := ⟨rfl, nofun⟩
  initReturn := return_quiet _
  finiReturn := return_quiet _

theorem libcGlobal_oneConstructor :
    (CallsJust (libcGlobalInit quiet 4096 4104 1 0 0) ⟨ofWords 4096 [0x401000], []⟩
      (region 4096 8) [.init 0x401000 1 0 0] ↔ [(0x401000 : Word)] = []) ∧
    (CallsJust (libcGlobalFini quiet 4104 4104) ⟨ofWords 4096 [0x401000], []⟩
      (region 4104 0) [] ↔ ([] : List Word) = []) :=
  libcGlobal_iff linked_oneConstructor

theorem libcGlobal_fails : ¬ ∀ (callee : Callee) (s u : Machine CtorCall) (initArrayStart
    initArrayEnd finiArrayStart finiArrayEnd : Word) (argc : BitVec 32) (argv envp : Word)
    (init fini : List Word), Linked callee s u initArrayStart initArrayEnd finiArrayStart
      finiArrayEnd argc argv envp init fini →
    CallsJust (libcGlobalInit callee initArrayStart initArrayEnd argc argv envp) s
      (region initArrayStart (8 * init.length)) (init.map (initCall argc argv envp)) ∧
    CallsJust (libcGlobalFini callee finiArrayStart finiArrayEnd) u
      (region finiArrayStart (8 * fini.length)) (fini.reverse.map .fini) := by
  intro h
  have hlinked := linked_oneConstructor
  have hinit := (h _ _ _ _ _ _ _ _ _ _ _ _ hlinked).1
  exact List.cons_ne_nil _ _ ((libcGlobalInit_iff hlinked.initArray hlinked.initReturn).mp hinit)

end Ciabatta.Os
