import Ciabatta.StdlibFile.File
import Ciabatta.StdlibFile.Plays

/-!
What a call on a `FILE` records: it locks the mutex, writes, and unlocks it, and
nothing comes after the unlock. A call that does not return stops on its way, and
never because the fuel of its loops is used up.
-/

namespace Ciabatta.StdlibFile

open ByteMemory Exec

variable {s t : Stdio} {fmt : CString} {i j : ℕ} {retPrinted : ℤ} {log : List StdioEvent}

/-! ### The functions of `printf` -/

section Reflection

variable {A : Stdio → Prop}

theorem reflects_literalRound (fmt : CString) (i : ℕ) : Reflects A (literalRound fmt i) :=
  (reflects_get _ _).bind fun _ => (reflects_pure _).ite (reflects_pure _)

theorem reflects_holds (fmt : CString) (i : ℕ) (a b : Char) : Reflects A (fmt.holds i a b) :=
  (reflects_get _ _).bind fun _ =>
    ((reflects_get _ _).bind fun _ => reflects_pure _).ite (reflects_pure _)

theorem reflects_readIntArgSize (fmt : CString) (i : ℕ) : Reflects A (readIntArgSize fmt i) := by
  refine (reflects_get _ _).bind fun _ => Reflects.ite ?_ (reflects_pure _)
  refine (reflects_holds _ _ _ _).bind fun _ => (reflects_pure _).ite ?_
  exact (reflects_holds _ _ _ _).bind fun _ => (reflects_pure _).ite (reflects_pure _)

variable [PrintReflects A]

theorem reflects_printLiteral (fmt : CString) (i : ℕ) (retPrinted : ℤ) :
    Reflects A (printLiteral fmt i retPrinted) := by
  refine (reflects_loop (reflects_literalRound fmt) _ _).bind fun _ => ?_
  refine Reflects.ite ?_ (reflects_pure _)
  exact (reflects_rtFileWrite _).bind fun _ => (reflects_pure _).ite (reflects_pure _)

theorem reflects_printDirective (fmt : CString) (i : ℕ) (retPrinted : ℤ) :
    Reflects A (printDirective fmt i retPrinted) := by
  refine (reflects_readIntArgSize _ _).bind fun r => ?_
  cases r with
  | none => exact reflects_pure _
  | some r =>
      refine (reflects_get _ _).bind fun c => (reflects_convert _ _).bind fun argChars => ?_
      cases argChars with
      | none => exact reflects_pure _
      | some argChars =>
          exact (reflects_readArgChars _).bind fun _ => (reflects_pure _).ite (reflects_pure _)

theorem reflects_printfRound (fmt : CString) (b : ℕ × ℤ) : Reflects A (printfRound fmt b) := by
  refine (reflects_get _ _).bind fun _ => (reflects_pure _).ite ?_
  refine (reflects_printLiteral _ _ _).bind fun r => ?_
  cases r with
  | none => exact reflects_pure _
  | some r =>
      refine (reflects_get _ _).bind fun _ => (reflects_pure _).ite ?_
      refine (reflects_printDirective _ _ _).bind fun r => ?_
      cases r <;> exact reflects_pure _

end Reflection

/-! ### What a call records -/

/-- The events after `log` are those between a lock and an unlock. -/
def Within (log : List StdioEvent) (t : Stdio) : Prop :=
  ∃ es, t.log = log ++ es ∧ ∀ e ∈ es, e.Inner

/-- A call that holds the mutex. -/
def Open (log : List StdioEvent) : Prop :=
  ∃ es, log = .lock :: es ∧ ∀ e ∈ es, e.Inner

/-- A call that has released it. -/
def Closed (log : List StdioEvent) : Prop :=
  ∃ es, log = .lock :: es ++ [.unlock] ∧ ∀ e ∈ es, e.Inner

theorem Open.snoc {e : StdioEvent} (h : Open log) (he : e.Inner) : Open (log ++ [e]) := by
  obtain ⟨es, rfl, hes⟩ := h
  refine ⟨es ++ [e], rfl, fun e' he' => ?_⟩
  rcases List.mem_append.mp he' with hmem | hmem
  · exact hes e' hmem
  · exact List.mem_singleton.mp hmem ▸ he

theorem within_self (t : Stdio) : Within t.log t :=
  ⟨[], by simp, by simp⟩

theorem Within.record {e : StdioEvent} (h : Within log t) (he : e.Inner) :
    Within log (t.record e) := by
  obtain ⟨es, hlog, hes⟩ := h
  refine ⟨es ++ [e], ?_, ?_⟩
  · rw [Stdio.record, hlog, List.append_assoc]
  · intro e' he'
    rcases List.mem_append.mp he' with hmem | hmem
    · exact hes e' hmem
    · exact List.mem_singleton.mp hmem ▸ he

instance (log : List StdioEvent) : PrintReflects fun t => ¬ Within log t where
  of_args _ _ h hs := h hs
  of_record _ _ he h hs := h (hs.record he)

theorem reflects_rtFileWriteOut {A : Stdio → Prop} [PrintReflects A] (data : List Byte) :
    Reflects A (rtFileWriteOut data) := by
  have hwrite : Reflects A (sysWrite data) := fun s h =>
    PrintReflects.of_record s (.write data _) trivial h
  exact hwrite.bind fun status => (reflects_pure _).ite ((reflects_pure _).ite
    ((reflects_pure _).ite (reflects_pure _)))

/-- What a call leaves on a log that was empty: it holds the mutex or has released
it, and if it returns it has released it. -/
structure Bracketed {α : Type} (r : EStateM.Result Stop Stdio α) : Prop where
  log : Open (final r).log ∨ Closed (final r).log
  returned : ∀ a t, r = .ok a t → Closed t.log

theorem bracketed_of_parts {α β : Type} {body : StdioM β} {rest : β → StdioM α}
    (hbody : ∀ s, Within s.log (final (body s))) (hrest : ∀ b s, final (rest b s) = s)
    (hs : s.log = []) :
    Bracketed ((do
      lock
      let b ← body
      unlock
      rest b) s) := by
  have hlocked : (s.record .lock).log = [.lock] := by
    rw [Stdio.record, hs]
    rfl
  obtain ⟨es, hlog, hes⟩ := hbody (s.record .lock)
  rw [hlocked] at hlog
  rw [bind_of_ok (show lock s = .ok () (s.record .lock) from rfl)]
  cases hrun : body (s.record .lock) with
  | error e t =>
      rw [bind_of_error hrun]
      rw [hrun] at hlog
      exact ⟨.inl ⟨es, hlog, hes⟩, fun _ _ h => by cases h⟩
  | ok b t =>
      rw [bind_of_ok hrun, bind_of_ok (show unlock t = .ok () (t.record .unlock) from rfl)]
      rw [hrun] at hlog
      have hclosed : Closed (final (rest b (t.record .unlock))).log := by
        refine ⟨es, ?_, hes⟩
        rw [hrest, Stdio.record, show t.log = [.lock] ++ es from hlog]
        rfl
      refine ⟨.inr hclosed, fun a u hu => ?_⟩
      rw [hu] at hclosed
      exact hclosed

theorem finish_eq (r : Option ℤ) :
    finish r = (do
      unlock
      return match r with
        | some retPrinted => (BitVec.ofInt 32 retPrinted).toInt
        | none => -1) := by
  cases r <;> rfl

theorem bracketed_printf (fmt : CString) (args : List Arg) (hs : s.log = []) :
    Bracketed (printf fmt args s) := by
  have hstart : ({ s with args := args } : Stdio).log = [] := hs
  rw [printf, bind_of_ok (show vaStart args s = .ok () { s with args := args } from rfl)]
  simp only [finish_eq]
  apply bracketed_of_parts _ (fun _ _ => rfl) hstart
  intro s
  exact (reflects_loop (reflects_printfRound fmt) _ _).keeps (within_self s)

theorem bracketed_fputc (c : BitVec 32) (hs : s.log = []) : Bracketed (fputc c s) := by
  apply bracketed_of_parts _ _ hs
  · intro s
    exact (reflects_rtFileWrite _).keeps (within_self s)
  · intro status s
    split <;> rfl

theorem bracketed_fwrite (buf : ℕ → Byte) (size count : Word) (hs : s.log = []) :
    Bracketed (fwrite buf size count s) := by
  apply bracketed_of_parts _ _ hs
  · intro s
    exact (reflects_rtFileWriteOut _).keeps (within_self s)
  · intro written s
    cases written with
    | error status => rfl
    | ok bytesWritten => dsimp only; split <;> rfl

theorem Bracketed.map {α β : Type} {x : StdioM α} (f : α → β) (h : Bracketed (x s)) :
    Bracketed ((do
      let a ← x
      return f a) s) := by
  cases hrun : x s with
  | error e t =>
      rw [bind_of_error hrun]
      rw [hrun] at h
      exact ⟨h.log, fun _ _ h => by cases h⟩
  | ok a t =>
      rw [bind_of_ok hrun]
      have hclosed := h.returned a t hrun
      refine ⟨.inr hclosed, fun b u hu => ?_⟩
      obtain ⟨-, rfl⟩ := eq_of_pure_ok hu
      exact hclosed

theorem WriteCall.bracketed (c : WriteCall) (hs : s.log = []) : Bracketed (c.run s) := by
  cases c with
  | printf fmt args => exact bracketed_printf fmt args hs
  | fputc c => exact bracketed_fputc c hs
  | fwrite buf size count => exact (bracketed_fwrite buf size count hs).map _

/-! ### The fuel -/

theorem enoughFuel_rtFileWriteOut (data : List Byte) : EnoughFuel (rtFileWriteOut data) := by
  apply stopsOnly_of_ok
  intro s
  rw [rtFileWriteOut, bind_of_ok (show sysWrite data s = .ok _ _ from rfl)]
  split
  · exact ⟨_, _, rfl⟩
  · split
    · exact ⟨_, _, rfl⟩
    · split <;> exact ⟨_, _, rfl⟩

/-- No call runs out of fuel: one that does not return has met an undefined
behaviour of the source, or an argument that does not fit its directive. -/
theorem WriteCall.enoughFuel (c : WriteCall) : EnoughFuel c.run := by
  have hlock : EnoughFuel lock := stopsOnly_of_ok fun _ => ⟨_, _, rfl⟩
  have hunlock : EnoughFuel unlock := stopsOnly_of_ok fun _ => ⟨_, _, rfl⟩
  cases c with
  | printf fmt args => exact enoughFuel_printf fmt args
  | fputc c =>
      exact hlock.bind fun _ => (stopsOnly_rtFileWrite _).bind fun _ => hunlock.bind fun _ =>
        .ite (fun _ => stopsOnly_pure _) fun _ => stopsOnly_pure _
  | fwrite buf size count =>
      refine StopsOnly.bind ?_ fun _ => stopsOnly_pure _
      refine hlock.bind fun _ => (enoughFuel_rtFileWriteOut _).bind fun written =>
        hunlock.bind fun _ => ?_
      cases written with
      | error status => exact stopsOnly_pure _
      | ok bytesWritten => exact .ite (fun _ => stopsOnly_throw nofun) fun _ => stopsOnly_pure _

end Ciabatta.StdlibFile
