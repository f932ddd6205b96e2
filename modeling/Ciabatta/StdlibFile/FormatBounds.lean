import Ciabatta.StdlibFile.Plays

/-!
Where `printf` reads its format. It goes behind the NUL exactly when the format ends
inside of a directive, and it makes no more rounds than the format has bytes.
-/

namespace Ciabatta.StdlibFile

open ByteMemory Exec

/-- `printf` reads nothing behind the NUL of the format, and its loop ends with at most
as many rounds as there are bytes before it. -/
structure StaysInFormat (fmt : CString) : Prop where
  inside : ∀ args s, ¬ Stops (printf fmt args) s .overread
  ends : ∀ args s, ¬ Stops (printf fmt args) s .outOfFuel
  /-- After `n` rounds another one is begun only if the format has more bytes. -/
  rounds : ∀ s n b t c, Rounds (printfRound fmt) (0, 0) s n b t → fmt.get b.1 t = .ok c t →
    c ≠ 0 → n < fmt.bytes.length

/-- The format ends where the letter of a directive should stand. -/
def EndsInDirective (fmt : CString) : Prop := .cut ∈ fmt.tokens

instance (fmt : CString) : Decidable (EndsInDirective fmt) :=
  inferInstanceAs (Decidable (_ ∈ _))

variable {fmt : CString} {s t : Stdio} {i j : ℕ} {retPrinted : ℤ}

/-! ### The rounds of the loop -/

/-- A byte that is not NUL stands before the end of its string. -/
theorem get_ok_lt {str : CString} {c : Byte} (h : str.get i s = .ok c t) (hc : c ≠ 0) :
    i < str.bytes.length := by
  rw [CString.get] at h
  split at h
  case isTrue hle =>
    refine lt_of_le_of_ne hle fun heq => hc ?_
    rw [(eq_of_pure_ok h).1, heq, List.getD_eq_default _ _ le_rfl]
  case isFalse => cases h

theorem literalRound_ok {r : ℕ ⊕ ℕ} (h : literalRound fmt i s = .ok r t) :
    r = .inl (i + 1) ∧ i < fmt.bytes.length ∨ r = .inr i := by
  obtain ⟨c, u, hget, hrest⟩ := exists_of_bind_ok h
  split at hrest
  case isTrue hc => exact .inl ⟨(eq_of_pure_ok hrest).1, get_ok_lt hget hc.2⟩
  case isFalse => exact .inr (eq_of_pure_ok hrest).1

theorem literalLoop_ok {fuel : ℕ} (h : loop (literalRound fmt) fuel i s = .ok j t) : i ≤ j := by
  induction fuel generalizing i s with
  | zero => cases h
  | succ fuel ih =>
      obtain ⟨_, r, u, hfuel, hround, hrest⟩ := exists_of_loop_ok h
      cases hfuel
      rcases literalRound_ok hround with ⟨rfl, -⟩ | rfl
      · exact Nat.le_of_succ_le (ih hrest)
      · exact hrest.1.le

theorem printLiteral_ok {r : ℕ × ℤ} (h : printLiteral fmt i retPrinted s = .ok (some r) t) :
    i ≤ r.1 := by
  obtain ⟨j, u, hloop, hrest⟩ := exists_of_bind_ok h
  have hle := literalLoop_ok hloop
  dsimp only at hrest
  split at hrest
  · obtain ⟨status, v, -, hrest⟩ := exists_of_bind_ok hrest
    split at hrest
    · cases hrest
    · cases hrest
      exact hle
  · cases hrest
    exact hle

theorem readIntArgSize_ok {r : ℕ × ℕ} (h : readIntArgSize fmt i s = .ok (some r) t) : i ≤ r.1 := by
  obtain ⟨c, u, -, hrest⟩ := exists_of_bind_ok h
  split at hrest
  · obtain ⟨holds, v, -, hrest⟩ := exists_of_bind_ok hrest
    split at hrest
    · cases hrest
      simp
    · obtain ⟨holds, w, -, hrest⟩ := exists_of_bind_ok hrest
      split at hrest
      · cases hrest
        simp
      · cases hrest
  · cases hrest
    simp

theorem printDirective_ok {r : ℕ × ℤ} (h : printDirective fmt i retPrinted s = .ok (some r) t) :
    i < r.1 := by
  obtain ⟨size, u, hsize, hrest⟩ := exists_of_bind_ok h
  cases size with
  | none => cases hrest
  | some size =>
      have hle := readIntArgSize_ok hsize
      obtain ⟨c, v, -, hrest⟩ := exists_of_bind_ok hrest
      obtain ⟨argChars, w, -, hrest⟩ := exists_of_bind_ok hrest
      cases argChars with
      | none => cases hrest
      | some argChars =>
          obtain ⟨n, x, -, hrest⟩ := exists_of_bind_ok hrest
          split at hrest
          · cases hrest
          · cases hrest
            dsimp only
            omega

/-- A round that is not the last one starts before the end of the format and
leaves off further on. -/
theorem printfRound_ok {b c : ℕ × ℤ} (h : printfRound fmt b s = .ok (.inl c) t) :
    b.1 < fmt.bytes.length ∧ b.1 < c.1 := by
  obtain ⟨ch, u, hget, hrest⟩ := exists_of_bind_ok h
  split at hrest
  · cases hrest
  case isFalse hch =>
    obtain ⟨r, v, hliteral, hrest⟩ := exists_of_bind_ok hrest
    cases r with
    | none => cases hrest
    | some r =>
        have hle := printLiteral_ok hliteral
        obtain ⟨ch', w, -, hrest⟩ := exists_of_bind_ok hrest
        split at hrest
        · cases hrest
        · obtain ⟨r', x, hdirective, hrest⟩ := exists_of_bind_ok hrest
          cases r' with
          | none => cases hrest
          | some r' =>
              have hlt := printDirective_ok hdirective
              cases hrest
              exact ⟨get_ok_lt hget hch, lt_of_le_of_lt hle hlt⟩

theorem rounds_lt {n : ℕ} {b : ℕ × ℤ} {c : Byte}
    (h : Rounds (printfRound fmt) (0, 0) s n b t) (hget : fmt.get b.1 t = .ok c t) (hc : c ≠ 0) :
    n < fmt.bytes.length := by
  have hn : 0 + n ≤ b.1 := h.add_le (fun b => b.1) fun _ _ _ _ hround => (printfRound_ok hround).2
  have hlt := get_ok_lt hget hc
  omega

/-! ### Formats that end in a directive -/

/-- The scanner goes on behind the token. -/
def Token.Goes : Token → Prop
  | .literal _ => True
  | .directive _ _ => True
  | _ => False

theorem scan_cases (fuel : ℕ) (bytes : List Byte) : ∃ literal,
    scan (fuel + 1) bytes = [.literal literal] ∨
    scan (fuel + 1) bytes = [.literal literal, .malformed] ∨
    scan (fuel + 1) bytes = [.literal literal, .cut] ∨
    ∃ size letter rest, scan (fuel + 1) bytes =
      .literal literal :: .directive size letter :: scan fuel rest := by
  refine ⟨bytes.takeWhile (· ≠ byteOf '%'), ?_⟩
  rw [scan]
  cases bytes.dropWhile (· ≠ byteOf '%') with
  | nil => exact .inl rfl
  | cons percent rest =>
      dsimp only
      rcases scanSize rest with _ | ⟨size, _ | ⟨letter, rest⟩⟩
      · exact .inr (.inl rfl)
      · exact .inr (.inr (.inl rfl))
      · exact .inr (.inr (.inr ⟨size, letter, rest, rfl⟩))

theorem scan_cut {fuel : ℕ} {bytes : List Byte} (h : .cut ∈ scan fuel bytes) :
    ∃ front, scan fuel bytes = front ++ [.cut] ∧ ∀ token ∈ front, token.Goes := by
  induction fuel generalizing bytes with
  | zero => cases h
  | succ fuel ih =>
      obtain ⟨literal, heq | heq | heq | ⟨size, letter, rest, heq⟩⟩ := scan_cases fuel bytes <;>
        rw [heq] at h ⊢
      · simp at h
      · simp at h
      · exact ⟨[.literal literal], rfl, by simp [Token.Goes]⟩
      · obtain ⟨front, hfront, hgoes⟩ := ih (by simpa using h)
        refine ⟨.literal literal :: .directive size letter :: front, by rw [hfront]; rfl, ?_⟩
        exact List.forall_mem_cons.2 ⟨trivial, List.forall_mem_cons.2 ⟨trivial, hgoes⟩⟩

/-- Every directive has an argument that it can print. -/
theorem exists_arg (size : IntSize) (letter : Byte) (args : List Arg) : ∃ args',
    (directivePiece size letter args').1.Goes ∧ (directivePiece size letter args').2 = args := by
  have hint : numberPiece (intText (size.int 0)) = .text [byteOf '0', 0] := by
    cases size <;> decide
  have huint : numberPiece (uintText (size.uint 0)) = .text [byteOf '0', 0] := by
    cases size <;> decide
  have hword : (wordPiece size letter 0).Goes := by
    rw [wordPiece, hint, huint]
    split_ifs <;> exact trivial
  by_cases hletter : letter ∈ wordLetters
  · refine ⟨.word 0 :: args, ?_⟩
    rw [directivePiece, if_pos hletter]
    exact ⟨hword, rfl⟩
  by_cases hs : letter = byteOf 's'
  · refine ⟨.string ⟨[], List.not_mem_nil⟩ :: args, ?_⟩
    rw [directivePiece, if_neg hletter, if_pos hs]
    exact ⟨trivial, rfl⟩
  · refine ⟨args, ?_⟩
    rw [directivePiece, if_neg hletter, if_neg hs]
    exact ⟨trivial, rfl⟩

/-- Arguments with which `printf` gets to the end of the format. -/
theorem exists_args {front : List Token} (hgoes : ∀ token ∈ front, token.Goes) :
    ∃ args ps, pieces (front ++ [.cut]) args = ps ++ [.unknown, .stuck .overread] ∧
      ∀ piece ∈ ps, piece.Goes := by
  induction front with
  | nil => exact ⟨[], [], rfl, by simp⟩
  | cons token front ih =>
      rw [List.forall_mem_cons] at hgoes
      obtain ⟨args, ps, heq, hps⟩ := ih hgoes.2
      cases token with
      | literal bytes =>
          refine ⟨args, ?_⟩
          rw [List.cons_append, pieces, heq]
          split_ifs
          · exact ⟨.text bytes :: ps, rfl, List.forall_mem_cons.2 ⟨trivial, hps⟩⟩
          · exact ⟨ps, rfl, hps⟩
      | directive size letter =>
          obtain ⟨args', hpiece, hargs⟩ := exists_arg size letter args
          refine ⟨args', ?_⟩
          rcases pieces_directive size letter (front ++ [.cut]) args' with
            ⟨e, he, -⟩ | ⟨-, hpieces⟩
          · rw [he] at hpiece
            exact hpiece.elim
          · rw [List.cons_append, hpieces, hargs, heq]
            exact ⟨_ :: ps, rfl, List.forall_mem_cons.2 ⟨hpiece, hps⟩⟩
      | cut => exact hgoes.1.elim
      | malformed => exact hgoes.1.elim

theorem stops_of_endsInDirective (h : EndsInDirective fmt) :
    ∃ args s, Stops (printf fmt args) s .overread := by
  obtain ⟨front, hfront, hgoes⟩ := scan_cut h
  obtain ⟨args, ps, hpieces, hps⟩ := exists_args hgoes
  obtain ⟨s, hkernel, hgarbage⟩ : ∃ s : Stdio, (∀ log data, s.kernel log data = 0) ∧
      ∀ log, s.garbage log = 0 := ⟨⟨fun _ _ => 0, fun _ => 0, [], []⟩, fun _ _ => rfl, fun _ => rfl⟩
  have hgo : ∀ piece ∈ ps ++ [Piece.unknown], piece.Goes :=
    List.forall_mem_append.2 ⟨hps, by simp [Piece.Goes]⟩
  have hok : ∀ log data, ¬ Failed (s.kernel log data) := by
    intro log data
    rw [hkernel]
    decide
  obtain ⟨log, hplay, -⟩ := play_goes 0 (s.log ++ [.lock]) hgo (fun data _ log _ => hok log data)
    fun log _ _ => hgarbage log
  have hall : pieces fmt.tokens args = (ps ++ [.unknown]) ++ [.stuck .overread] := by
    rw [CString.tokens, hfront, hpieces, List.append_assoc]
    rfl
  obtain ⟨args', hrun⟩ := printf_run fmt args s
  rw [hall, play_append_of_ok hplay] at hrun
  exact ⟨args, s, _, hrun⟩

theorem endsInDirective_of_stops {args : List Arg}
    (h : Stops (printf fmt args) s .overread) : EndsInDirective fmt := by
  rcases stuck_cases (stuck_mem_of_stops h) with hstop | hstop | hstop | ⟨-, hcut⟩
  · cases hstop
  · cases hstop
  · cases hstop
  · exact hcut

/-- `printf` stays inside of its format exactly when the format does not end in a
directive. -/
theorem staysInFormat_iff (fmt : CString) : StaysInFormat fmt ↔ ¬ EndsInDirective fmt := by
  constructor
  · intro h hends
    obtain ⟨args, s, hstops⟩ := stops_of_endsInDirective hends
    exact h.inside args s hstops
  · intro h
    exact
      { inside := fun args s hstops => h (endsInDirective_of_stops hstops)
        ends := by
          rintro args s ⟨t, ht⟩
          exact enoughFuel_printf fmt args s _ t ht rfl
        rounds := fun s n b t c hrounds hget hc => rounds_lt hrounds hget hc }

/-- A lone percent sign: the NUL behind it is taken for its letter. -/
theorem staysInFormat_fails : ¬ ∀ fmt : CString, StaysInFormat fmt := by
  intro h
  have hends : EndsInDirective ⟨[byteOf '%'], by decide⟩ := by decide
  obtain ⟨args, s, hstops⟩ := stops_of_endsInDirective hends
  exact (h _).inside args s hstops

end Ciabatta.StdlibFile
