import Ciabatta.Lib.Alike
import Ciabatta.Loader.Printf

/-!
The buffer in `printf` of `loader.h` does not show: where the literal bytes are cut, and
how often, makes no difference to what is printed.
-/

namespace Ciabatta.Loader.Printf

open ByteMemory Exec StdlibFile

/-- Each `%` has a character behind it, which in a string is not NUL. -/
def PercentsFollowed (fmt : CString) : Prop :=
  ∀ pre post, fmt.bytes = pre ++ byteOf '%' :: post → post ≠ []

/-- `printf` prints the bytes of its format and makes the calls for its directives, all in
their order, behind what was printed before. With calls that return it returns, so it neither
stores outside `str_buf` nor reads behind the NUL. -/
structure PrintsFormat (fmt : CString) (args : List Arg) : Prop where
  output : ∀ chunks,
    outputOf (printf fmt args chunks) = (prescribed fmt.bytes args).behind chunks.flatten
  inside : ∀ call : Byte → List Arg → PrintM (List Arg),
    (∀ letter args s, ∃ args' t, call letter args s = .ok args' t) →
    ∀ s, ∃ t, printfWith call fmt args s = .ok () t

variable {fmt : CString} {args : List Arg} {call : Byte → List Arg → PrintM (List Arg)}
  {fuel : ℕ} {strBuf pre text run rest : List Byte}

/-! ### Outputs -/

theorem Output.behind_behind (o : Output) (text text' : List Byte) :
    (o.behind text).behind text' = o.behind (text' ++ text) := by
  rw [behind, behind, behind, List.append_assoc]

theorem Output.andThen_of_returns (text : List Byte) (o : Output) :
    Output.andThen ⟨text, none⟩ o = o.behind text :=
  if_pos rfl

theorem Output.andThen_of_stops (text : List Byte) (e : Stop) (o : Output) :
    Output.andThen ⟨text, some e⟩ o = ⟨text, some e⟩ :=
  if_neg (Option.some_ne_none e)

/-! ### The print functions append to the output -/

/-- The second output is the first one behind `front`. -/
def Behind (front : List Byte) (chunks chunks' : List (List Byte)) : Prop :=
  chunks'.flatten = front ++ chunks.flatten

/-- What a program does and prints does not depend on what was printed before. -/
def Appends {α : Type} (x : PrintM α) : Prop :=
  ∀ front, Alike (Behind front) x x

theorem appends_printStringN (str : List Byte) (len : ℕ) : Appends (printStringN str len) := by
  intro front s t hbehind
  refine ⟨rfl, ?_⟩
  rw [Behind, List.flatten_append, List.flatten_append, hbehind, List.append_assoc]

theorem appends_printChar (c : Byte) : Appends (printChar c) :=
  appends_printStringN [c] 1

theorem appends_printString (str : List Byte) : Appends (printString str) := by
  intro front
  refine (alike_loop (fun strLen => ?_) _ _).bind fun _ => appends_printStringN _ _ front
  refine Alike.bind ?_ fun c => Alike.ite ?_ (alike_pure _)
  · by_cases hlt : strLen < str.length
    · rw [dif_pos hlt]
      exact alike_pure _
    · rw [dif_neg hlt]
      exact alike_throw _
  · exact (alike_incrementInt _).bind fun _ => alike_pure _

theorem appends_pushChar (c : Byte) (p : List Byte) : Appends (pushChar c p) :=
  fun _ => (alike_pure _).ite (alike_throw _)

theorem appends_printInt (number : Word) : Appends (printInt number) := by
  intro front
  refine ((appends_printChar _ front).ite (alike_pure _)).bind fun _ => ?_
  refine (alike_loop (fun b => ?_) _ _).bind fun _ => appends_printString _ front
  exact (appends_pushChar _ _ front).bind fun _ => (alike_pure _).ite (alike_pure _)

theorem appends_printUint (number : Word) : Appends (printUint number) := by
  intro front
  refine (alike_loop (fun b => ?_) _ _).bind fun _ => appends_printString _ front
  exact (appends_pushChar _ _ front).bind fun _ => (alike_pure _).ite (alike_pure _)

theorem appends_printHex (number : Word) : Appends (printHex number) := by
  intro front
  refine (appends_printString _ front).bind fun _ => ?_
  refine (alike_loop (fun b => ?_) _ _).bind fun _ => appends_printString _ front
  exact ((appends_pushChar _ _ front).bind fun _ => alike_pure _).ite (alike_pure _)

/-! ### Directives -/

/-- A call and what follows it. -/
theorem outputOf_call {x : PrintM Unit} {k : List Arg → PrintM Unit} {o : Output}
    (hx : Appends x) (args : List Arg) (chunks : List (List Byte))
    (hk : ∀ chunks, outputOf (k args chunks) = o.behind chunks.flatten) :
    outputOf (((do x; return args) >>= k) chunks) =
      ((output x).andThen o).behind chunks.flatten := by
  have hends := hx chunks.flatten [] chunks (List.append_nil _).symm
  rw [bind_assoc, output]
  cases halone : x [] with
  | ok r t =>
      cases hrun : x chunks with
      | ok r' t' =>
          rw [halone, hrun] at hends
          have hbehind : t'.flatten = chunks.flatten ++ t.flatten := hends.2
          rw [bind_of_ok hrun, pure_bind, hk t', outputOf, Output.andThen_of_returns,
            Output.behind_behind, hbehind]
      | error e' t' =>
          rw [halone, hrun] at hends
          exact hends.elim
  | error e t =>
      cases hrun : x chunks with
      | ok r' t' =>
          rw [halone, hrun] at hends
          exact hends.elim
      | error e' t' =>
          rw [halone, hrun] at hends
          obtain ⟨rfl, hbehind⟩ := hends
          rw [bind_of_error hrun, outputOf, outputOf, Output.andThen_of_stops, hbehind]
          rfl

/-- A directive and what follows it. -/
theorem outputOf_printArg {k : List Arg → PrintM Unit} (letter : Byte) (args : List Arg)
    (chunks : List (List Byte))
    (hk : ∀ args chunks, outputOf (k args chunks) = (prescribed rest args).behind chunks.flatten) :
    outputOf ((printArg letter args >>= k) chunks) =
      (prescribed (byteOf '%' :: letter :: rest) args).behind chunks.flatten := by
  have hmissing : (⟨chunks.flatten, some .badArgument⟩ : Output) =
      Output.behind ⟨[], some .badArgument⟩ chunks.flatten := by
    rw [Output.behind, List.append_nil]
  rw [prescribed.eq_def]
  dsimp only
  rw [if_neg (not_not_intro rfl), printArg]
  split_ifs
  · rcases args with _ | ⟨number | str, args⟩
    · exact hmissing
    · exact outputOf_call (appends_printInt number) args chunks (hk args)
    · exact hmissing
  · rcases args with _ | ⟨number | str, args⟩
    · exact hmissing
    · exact outputOf_call (appends_printUint number) args chunks (hk args)
    · exact hmissing
  · rcases args with _ | ⟨number | str, args⟩
    · exact hmissing
    · exact outputOf_call (appends_printHex number) args chunks (hk args)
    · exact hmissing
  · rcases args with _ | ⟨number | str, args⟩
    · exact hmissing
    · exact hmissing
    · exact outputOf_call (appends_printString _) args chunks (hk args)
  · rcases args with _ | ⟨c | str, args⟩
    · exact hmissing
    · exact outputOf_call (appends_printChar _) args chunks (hk args)
    · exact hmissing
  · exact hk args chunks

/-! ### The loop over the literal bytes -/

/-- Where the buffer is full, a directive begins, or the format ends. -/
def CutsRun (n : ℕ) (run rest : List Byte) : Prop :=
  byteOf '%' ∉ run ∧ run.length ≤ n ∧ (run.length = n ∨ rest = [] ∨ rest.head? = some (byteOf '%'))

theorem exists_cutsRun (n : ℕ) (text : List Byte) :
    ∃ run rest, text = run ++ rest ∧ CutsRun n run rest := by
  induction text generalizing n with
  | nil => exact ⟨[], [], rfl, List.not_mem_nil, Nat.zero_le _, .inr (.inl rfl)⟩
  | cons c text ih =>
      by_cases hpercent : c = byteOf '%'
      · exact ⟨[], _, rfl, List.not_mem_nil, Nat.zero_le _, .inr (.inr (congrArg some hpercent))⟩
      · cases n with
        | zero => exact ⟨[], _, rfl, List.not_mem_nil, le_rfl, .inl rfl⟩
        | succ n =>
            obtain ⟨run, rest, rfl, hrun, hlen, hcut⟩ := ih n
            refine ⟨c :: run, rest, rfl, ?_, Nat.succ_le_succ hlen, hcut.imp_left (congrArg _)⟩
            rw [List.mem_cons, not_or]
            exact ⟨Ne.symm hpercent, hrun⟩

theorem fmtChar_eq (h : fmt.bytes = pre ++ text) :
    fmtChar fmt pre.length = pure (text.headD 0) := by
  rw [fmtChar, h, if_pos (by simp), List.getD_eq_getElem?_getD, List.getElem?_append_right le_rfl,
    Nat.sub_self, ← List.head?_eq_getElem?, List.headD_eq_head?_getD]

/-- A character of a string is not its NUL. -/
theorem ne_zero_of_bytes {c : Byte} (h : fmt.bytes = pre ++ c :: text) : c ≠ 0 := by
  rintro rfl
  exact fmt.noNul (h ▸ List.mem_append_right _ List.mem_cons_self)

theorem literalLoop_eq (h : fmt.bytes = pre ++ (run ++ rest)) (hfuel : run.length < fuel)
    (hcuts : CutsRun (strBufSize - 1 - strBuf.length) run rest)
    (hbuf : strBuf.length < strBufSize) :
    loop (literalRound fmt) fuel (pre.length, strBuf) =
      pure (pre.length + run.length, strBuf ++ run) := by
  obtain ⟨hrun, hlen, hcut⟩ := hcuts
  induction run generalizing pre strBuf fuel with
  | nil =>
      obtain ⟨fuel, rfl⟩ := Nat.exists_eq_succ_of_ne_zero (Nat.ne_of_gt hfuel)
      have hstop : ¬ (rest.headD 0 ≠ byteOf '%' ∧ rest.headD 0 ≠ 0 ∧
          strBuf.length ≠ strBufSize - 1) := by
        rintro ⟨hpercent, hnul, hfull⟩
        rcases hcut with hlength | rfl | hhead
        · rw [List.length_nil] at hlength
          omega
        · exact hnul rfl
        · rw [List.headD_eq_head?_getD, hhead] at hpercent
          exact hpercent rfl
      rw [loop, literalRound, fmtChar_eq h, pure_bind, List.nil_append, if_neg hstop, pure_bind,
        List.length_nil, List.append_nil]
      rfl
  | cons c run ih =>
      obtain ⟨fuel, rfl⟩ := Nat.exists_eq_succ_of_ne_zero (Nat.ne_of_gt (Nat.zero_lt_of_lt hfuel))
      rw [List.mem_cons, not_or] at hrun
      rw [List.length_cons] at hlen hcut hfuel
      have hgo : c ≠ byteOf '%' ∧ c ≠ 0 ∧ strBuf.length ≠ strBufSize - 1 :=
        ⟨Ne.symm hrun.1, ne_zero_of_bytes h, by omega⟩
      have hnext : fmt.bytes = (pre ++ [c]) ++ (run ++ rest) := by
        rw [h, List.append_assoc]
        rfl
      have hlength : (strBuf ++ [c]).length = strBuf.length + 1 := List.length_append
      have hsize : strBufSize = 256 := rfl
      have hloop := @ih fuel (strBuf ++ [c]) (pre ++ [c]) hnext (by omega) (by omega) hrun.2
        (by omega) (hcut.imp_left fun hcut => by omega)
      rw [List.length_append, List.length_singleton, Nat.add_assoc, Nat.add_comm 1,
        List.append_assoc] at hloop
      have hhead : (c :: run ++ rest).headD 0 = c := rfl
      rw [loop, literalRound, fmtChar_eq h, pure_bind, hhead, if_pos hgo, storeChar,
        if_pos hbuf, pure_bind, pure_bind]
      exact hloop

/-! ### The loop over the format -/

/-- A round that begins with `run`, behind which `str_buf` is printed. -/
theorem printfRound_eq (call : Byte → List Arg → PrintM (List Arg)) (args : List Arg)
    (h : fmt.bytes = pre ++ (run ++ rest)) (hne : run ++ rest ≠ [])
    (hcuts : CutsRun (strBufSize - 1) run rest) :
    printfRound call fmt (pre.length, args) = (do
      printStringN run run.length
      if rest.headD 0 = byteOf '%' then do
        let letter ← fmtChar fmt (pre.length + run.length + 1)
        let args ← call letter args
        return .inl (pre.length + run.length + 2, args)
      else
        return .inl (pre.length + run.length, args)) := by
  have hchar : (run ++ rest).headD 0 ≠ 0 := by
    cases hsplit : run ++ rest with
    | nil => exact absurd hsplit hne
    | cons c text => exact ne_zero_of_bytes (hsplit ▸ h)
  have hsize : strBufSize = 256 := rfl
  have hlen := hcuts.2.1
  have hloop := @literalLoop_eq fmt strBufSize [] pre run rest h (by omega) hcuts (by decide)
  have hbehind : fmt.bytes = (pre ++ run) ++ rest := by
    rw [h, List.append_assoc]
  have hnext := fmtChar_eq hbehind
  rw [List.length_append] at hnext
  have hroom : storeChar 0 run = pure (run ++ [0]) := if_pos (by omega)
  rw [printfRound, fmtChar_eq h, pure_bind, if_pos hchar, hloop, pure_bind, List.nil_append]
  simp only [hroom, hnext, pure_bind]

theorem printfRound_end (call : Byte → List Arg → PrintM (List Arg)) (args : List Arg)
    (h : fmt.bytes = pre) :
    printfRound call fmt (pre.length, args) = pure (.inr ()) := by
  have hend : fmt.bytes = pre ++ [] := by
    rw [h, List.append_nil]
  rw [printfRound, fmtChar_eq hend, pure_bind, List.headD_nil, if_neg (not_not_intro rfl)]

/-- What a round does before the end of the format: it prints `run` and goes on behind it, or
behind the directive that follows it. -/
theorem printfRound_cases (hfollowed : PercentsFollowed fmt)
    (call : Byte → List Arg → PrintM (List Arg)) (args : List Arg) (h : fmt.bytes = pre ++ text)
    (hne : text ≠ []) : ∃ run rest, text = run ++ rest ∧ byteOf '%' ∉ run ∧
      (run ≠ [] ∧ printfRound call fmt (pre.length, args) = (do
          printStringN run run.length
          return .inl ((pre ++ run).length, args)) ∨
        ∃ letter rest', rest = byteOf '%' :: letter :: rest' ∧
          printfRound call fmt (pre.length, args) = (do
            printStringN run run.length
            let args ← call letter args
            return .inl ((pre ++ run ++ [byteOf '%', letter]).length, args))) := by
  obtain ⟨run, rest, rfl, hcuts⟩ := exists_cutsRun (strBufSize - 1) text
  have hbehind : fmt.bytes = (pre ++ run) ++ rest := by
    rw [h, List.append_assoc]
  have hlength : (pre ++ run).length = pre.length + run.length := List.length_append
  refine ⟨run, rest, rfl, hcuts.1, ?_⟩
  rw [printfRound_eq call args h hne hcuts]
  cases rest with
  | nil =>
      refine .inl ⟨by simpa using hne, ?_⟩
      rw [List.headD_nil, if_neg (by decide), hlength]
  | cons c rest =>
      by_cases hpercent : c = byteOf '%'
      · subst hpercent
        cases rest with
        | nil => exact absurd rfl (hfollowed _ _ hbehind)
        | cons letter rest =>
            have hletter : fmt.bytes = (pre ++ run ++ [byteOf '%']) ++ letter :: rest := by
              rw [hbehind, List.append_assoc (pre ++ run)]
              rfl
            have hchar := fmtChar_eq hletter
            rw [List.length_append, hlength, List.length_singleton] at hchar
            refine .inr ⟨letter, rest, rfl, ?_⟩
            rw [List.headD_cons, if_pos rfl, hchar, pure_bind, List.length_append, hlength]
            rfl
      · -- the buffer was full, so that the round has moved on
        have hfull : run.length = strBufSize - 1 := by
          rcases hcuts.2.2 with hfull | hnil | hhead
          · exact hfull
          · cases hnil
          · exact absurd (Option.some.inj hhead) hpercent
        refine .inl ⟨fun hnil => ?_, ?_⟩
        · rw [hnil] at hfull
          cases hfull
        · rw [List.headD_cons, if_neg hpercent, hlength]

/-! ### Main result -/

theorem prescribed_literal {c : Byte} (args : List Arg) (h : c ≠ byteOf '%') (text : List Byte) :
    prescribed (c :: text) args = (prescribed text args).behind [c] := by
  rw [prescribed.eq_def]
  cases text with
  | nil => exact congrArg (Output.mk · none) (if_neg h)
  | cons letter rest => exact if_pos h

theorem prescribed_append (args : List Arg) (hrun : byteOf '%' ∉ run) :
    prescribed (run ++ rest) args = (prescribed rest args).behind run := by
  induction run with
  | nil => rfl
  | cons c run ih =>
      rw [List.mem_cons, not_or] at hrun
      rw [List.cons_append, prescribed_literal args (Ne.symm hrun.1), ih hrun.2,
        Output.behind_behind]
      rfl

theorem outputOf_printfLoop (hfollowed : PercentsFollowed fmt) (h : fmt.bytes = pre ++ text)
    (hfuel : text.length < fuel) (args : List Arg) (chunks : List (List Byte)) :
    outputOf (loop (printfRound printArg fmt) fuel (pre.length, args) chunks) =
      (prescribed text args).behind chunks.flatten := by
  induction fuel generalizing pre text args chunks with
  | zero => exact absurd hfuel (Nat.not_lt_zero _)
  | succ fuel ih =>
      by_cases hne : text = []
      · subst hne
        rw [List.append_nil] at h
        rw [loop, printfRound_end printArg args h, pure_bind, prescribed, Output.behind,
          List.append_nil]
        rfl
      · obtain ⟨run, rest, rfl, hrun, hround⟩ := printfRound_cases hfollowed printArg args h hne
        have hprint : printStringN run run.length chunks = .ok () (chunks ++ [run]) := by
          rw [printStringN, List.take_length]
        have hflatten : (chunks ++ [run]).flatten = chunks.flatten ++ run := by
          rw [List.flatten_append, List.flatten_singleton]
        rw [loop, prescribed_append args hrun, Output.behind_behind, ← hflatten]
        rcases hround with ⟨hpos, hround⟩ | ⟨letter, rest, rfl, hround⟩
        · have hlength := List.length_pos_of_ne_nil hpos
          rw [List.length_append] at hfuel
          rw [hround, bind_assoc, bind_of_ok hprint, pure_bind]
          exact ih (by rw [h, List.append_assoc]) (by omega) args _
        · rw [List.length_append, List.length_cons, List.length_cons] at hfuel
          rw [hround, bind_assoc, bind_of_ok hprint, bind_assoc]
          refine outputOf_printArg letter args _ fun args' chunks' => ?_
          rw [pure_bind]
          exact ih (by rw [h]; simp) (by omega) args' chunks'

/-- What `printf` prints. -/
theorem outputOf_printf (hfollowed : PercentsFollowed fmt) (args : List Arg)
    (chunks : List (List Byte)) :
    outputOf (printf fmt args chunks) = (prescribed fmt.bytes args).behind chunks.flatten := by
  have hstart : fmt.bytes = [] ++ fmt.bytes := rfl
  exact outputOf_printfLoop hfollowed hstart (Nat.lt_succ_self _) args chunks

theorem yields_printfLoop (hfollowed : PercentsFollowed fmt)
    (hcall : ∀ letter args s, ∃ args' t, call letter args s = .ok args' t)
    (args : List Arg) (s : List (List Byte)) :
    Yields (printfWith call fmt args) s fun _ _ => True := by
  refine yields_loop (fun b _ => ∃ pre text, b.1 = pre.length ∧ fmt.bytes = pre ++ text)
    (fun b => fmt.bytes.length - b.1) ?_ ⟨[], _, rfl, rfl⟩ (by omega)
  rintro ⟨i, args⟩ s ⟨pre, text, rfl, h⟩
  dsimp only
  by_cases hne : text = []
  · rw [hne, List.append_nil] at h
    rw [printfRound_end call args h]
    exact yields_pure trivial
  · have hlength := congrArg List.length h
    rw [List.length_append] at hlength
    have hpos := List.length_pos_of_ne_nil hne
    obtain ⟨run, rest, rfl, -, ⟨hrun, hround⟩ | ⟨letter, rest, rfl, hround⟩⟩ :=
      printfRound_cases hfollowed call args h hne
    · have hrunPos := List.length_pos_of_ne_nil hrun
      rw [hround]
      refine ⟨.inl ((pre ++ run).length, args), _, rfl, ?_⟩
      refine ⟨⟨pre ++ run, rest, rfl, by rw [h, List.append_assoc]⟩, ?_⟩
      dsimp only
      rw [List.length_append]
      omega
    · obtain ⟨args', t, hargs⟩ := hcall letter args (s ++ [run.take run.length])
      rw [hround]
      refine ⟨.inl ((pre ++ run ++ [byteOf '%', letter]).length, args'), t, ?_, ?_⟩
      · rw [bind_of_ok (show printStringN run run.length s = .ok () _ from rfl),
          bind_of_ok hargs]
        rfl
      · refine ⟨⟨pre ++ run ++ [byteOf '%', letter], rest, rfl, by rw [h]; simp⟩, ?_⟩
        dsimp only
        rw [List.length_append, List.length_append, List.length_cons, List.length_singleton]
        omega

/-- `printf` prints its format, if no `%` stands at its end. -/
theorem printf_printsFormat (fmt : CString) (args : List Arg) (h : PercentsFollowed fmt) :
    PrintsFormat fmt args where
  output := outputOf_printf h args
  inside call hcall s := by
    obtain ⟨_, t, hrun, -⟩ := yields_printfLoop h hcall args s
    exact ⟨t, hrun⟩

/-- A character and a negative number, with bytes around them. -/
theorem printf_printsFormat_char :
    PrintsFormat ⟨"a%c, %d".toList.map byteOf, by decide⟩ [.word 65, .word (-7)] ∧
      prescribed ("a%c, %d".toList.map byteOf) [.word 65, .word (-7)] =
        ⟨"aA, -7".toList.map byteOf, none⟩ := by
  refine ⟨printf_printsFormat _ _ fun pre post h hnil => ?_, by decide⟩
  rw [hnil] at h
  have hlast := congrArg List.getLast? h
  rw [List.getLast?_concat] at hlast
  revert hlast
  decide

end Ciabatta.Loader.Printf
