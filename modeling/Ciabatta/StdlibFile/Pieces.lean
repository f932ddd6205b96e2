import Ciabatta.StdlibFile.Format
import Ciabatta.StdlibFile.Writes

/-!
What `printf` makes of a format and its arguments, told apart from what the write
calls and the unassigned variable make of `printf`: a list of pieces, which is then
played against the kernel. `printf` does what the play of its pieces does.
-/

namespace Ciabatta.StdlibFile

open ByteMemory Exec

inductive Piece
  /-- The bytes of a write call whose status counts. -/
  | text (data : List Byte)
  /-- `%x` ignores the status of its write call, and assigns no `arg_chars`. -/
  | hex (data : List Byte)
  /-- A letter that is no conversion assigns no `arg_chars` either. -/
  | unknown
  /-- A size prefix other than `I32` and `I64`. -/
  | malformed
  /-- From here `printf` does not go on. -/
  | stuck (e : Stop)
  deriving DecidableEq

/-! ### The conversions -/

/-- The integer argument as the directive takes it. -/
def IntSize.int (size : IntSize) (w : Word) : Word :=
  if size.bits = 32 then (w.setWidth 32).signExtend 64 else w

def IntSize.uint (size : IntSize) (w : Word) : Word :=
  if size.bits = 32 then (w.setWidth 32).setWidth 64 else w

/-- A number is written with its terminator, if the buffer has room for both. -/
def numberPiece (text : List Byte) : Piece :=
  if text.length + 1 ≤ digitBufSize then .text (text ++ [0]) else .stuck .outOfBounds

def wordLetters : List Byte := [byteOf 'd', byteOf 'u', byteOf 'x', byteOf 'p', byteOf 'c']

def wordPiece (size : IntSize) (letter : Byte) (w : Word) : Piece :=
  if letter = byteOf 'd' then numberPiece (intText (size.int w))
  else if letter = byteOf 'u' then numberPiece (uintText (size.uint w))
  else if letter = byteOf 'x' then .hex (hexText (size.uint w) ++ [0])
  else if letter = byteOf 'p' then .text (hexText w ++ [0])
  else .text [w.setWidth 8]

/-- The length of the string has to be an `int`. -/
def stringPiece (str : CString) : Piece :=
  if str.bytes.length < 2 ^ 31 then .text str.bytes else .stuck .signedOverflow

/-- The piece made of the next argument, and the arguments behind it. -/
def takeWord (piece : Word → Piece) (args : List Arg) : Piece × List Arg :=
  match args with
  | .word w :: args => (piece w, args)
  | _ => (.stuck .badArgument, args)

def takeString (piece : CString → Piece) (args : List Arg) : Piece × List Arg :=
  match args with
  | .string str :: args => (piece str, args)
  | _ => (.stuck .badArgument, args)

def directivePiece (size : IntSize) (letter : Byte) (args : List Arg) : Piece × List Arg :=
  if letter ∈ wordLetters then takeWord (wordPiece size letter) args
  else if letter = byteOf 's' then takeString stringPiece args
  else (.unknown, args)

def pieces (tokens : List Token) (args : List Arg) : List Piece :=
  match tokens with
  | [] => []
  | .literal bytes :: tokens =>
      if bytes.length ≠ 0 then .text bytes :: pieces tokens args else pieces tokens args
  | .directive size letter :: tokens =>
      match directivePiece size letter args with
      | (.stuck e, _) => [.stuck e]
      | (piece, args) => piece :: pieces tokens args
  | .cut :: _ => [.unknown, .stuck .overread]
  | .malformed :: _ => [.malformed]

/-! ### The play -/

/-- The write call reports a failure. -/
def Failed (result : ℤ) : Prop := (BitVec.ofInt 32 result).toInt < 0

instance (result : ℤ) : Decidable (Failed result) := inferInstanceAs (Decidable (_ < _))

section Play

variable (kernel : List StdioEvent → List Byte → ℤ) (garbage : List StdioEvent → BitVec 32)

/-- What a piece of `printf` leaves: the new `ret_printed` or the way to `_error`, or
why it does not go on; and the log. -/
abbrev Played := Except Stop (Option ℤ) × List StdioEvent

/-- Reading the unassigned `arg_chars`. -/
def guess (retPrinted : ℤ) (log : List StdioEvent) : Played :=
  (.ok (if (garbage log).toInt < 0 then none else some (retPrinted + (garbage log).toInt)),
    log ++ [.unassigned])

def playPiece (piece : Piece) (retPrinted : ℤ) (log : List StdioEvent) : Played :=
  match piece with
  | .text data =>
      (.ok (if Failed (kernel log data) then none else some (retPrinted + data.length)),
        log ++ [.write data (kernel log data)])
  | .hex data => guess garbage retPrinted (log ++ [.write data (kernel log data)])
  | .unknown => guess garbage retPrinted log
  | .malformed => (.ok none, log)
  | .stuck e => (.error e, log)

def play (pieces : List Piece) (retPrinted : ℤ) (log : List StdioEvent) : Played :=
  match pieces with
  | [] => (.ok (some retPrinted), log)
  | piece :: pieces =>
      match playPiece kernel garbage piece retPrinted log with
      | (.ok (some retPrinted), log) => play pieces retPrinted log
      | stopped => stopped

end Play

/-! ### `printf` does what its pieces do -/

/-- The end of a run from `s` that comes out as `played`. -/
def resume {α : Type} (s : Stdio) (args : List Arg)
    (played : Except Stop α × List StdioEvent) : EStateM.Result Stop Stdio α :=
  match played with
  | (.ok a, log) => .ok a { s with args := args, log := log }
  | (.error e, log) => .error e { s with args := args, log := log }

variable {s : Stdio} {retPrinted : ℤ}

theorem rtFileWrite_run (data : List Byte) (s : Stdio) : ∃ status,
    rtFileWrite data s = .ok status (s.record (.write data (s.kernel s.log data))) ∧
      (status ≠ rtStatusOk ↔ Failed (s.kernel s.log data)) := by
  have hsys : sysWrite data s = .ok (BitVec.ofInt 32 (s.kernel s.log data)).toInt
      (s.record (.write data (s.kernel s.log data))) := rfl
  rw [rtFileWrite, bind_of_ok hsys, Failed]
  generalize (BitVec.ofInt 32 (s.kernel s.log data)).toInt = status
  by_cases hebadf : -status = ebadf
  · rw [if_pos hebadf]
    exact ⟨_, rfl, iff_of_true (by decide) (by rw [ebadf] at hebadf; omega)⟩
  · rw [if_neg hebadf]
    by_cases heio : -status = eio
    · rw [if_pos heio]
      exact ⟨_, rfl, iff_of_true (by decide) (by rw [eio] at heio; omega)⟩
    · rw [if_neg heio]
      by_cases hpos : -status > 0
      · rw [if_pos hpos]
        exact ⟨_, rfl, iff_of_true (by decide) (by omega)⟩
      · rw [if_neg hpos]
        exact ⟨_, rfl, iff_of_false (not_not_intro rfl) (by omega)⟩

theorem putLiteralBytes_run (bytes : List Byte) (retPrinted : ℤ) (s : Stdio) :
    putLiteralBytes bytes retPrinted s =
      resume s s.args (if bytes.length ≠ 0 then
        playPiece s.kernel s.garbage (.text bytes) retPrinted s.log
      else (.ok (some retPrinted), s.log)) := by
  rw [putLiteralBytes]
  split_ifs with hlen
  · obtain ⟨status, hrun, hstatus⟩ := rtFileWrite_run bytes s
    rw [bind_of_ok hrun, playPiece]
    by_cases hfailed : Failed (s.kernel s.log bytes)
    · rw [if_pos (hstatus.2 hfailed), if_pos hfailed]
      rfl
    · rw [if_neg (mt hstatus.1 hfailed), if_neg hfailed]
      rfl
  · rfl

/-- What `printf` does with the result of a conversion. -/
def settle (retPrinted : ℤ) : Option (Option ℤ) → StdioM (Option ℤ)
  | none => return none
  | some argChars => do
      let argChars ← readArgChars argChars
      if argChars < 0 then
        return none
      else
        return some (retPrinted + argChars)

theorem putConversion_eq (size : IntSize) (letter : Byte) (retPrinted : ℤ) :
    putConversion size letter retPrinted = convert letter size.bits >>= settle retPrinted := by
  rw [putConversion]
  congr 1

theorem settle_writeBuf (p : List Byte) :
    (writeBuf p >>= fun argChars => settle retPrinted (some (some argChars))) s =
      resume s s.args (playPiece s.kernel s.garbage (.text p) retPrinted s.log) := by
  obtain ⟨status, hrun, hstatus⟩ := rtFileWrite_run p s
  rw [writeBuf, bind_assoc, bind_of_ok hrun, playPiece]
  by_cases hfailed : Failed (s.kernel s.log p)
  · rw [if_pos (hstatus.2 hfailed), if_pos hfailed]
    rfl
  · rw [if_neg (mt hstatus.1 hfailed), if_neg hfailed, pure_bind, settle, readArgChars, pure_bind,
      if_neg (Int.not_lt.2 (Int.natCast_nonneg _))]
    rfl

theorem settle_char (c : Byte) :
    ((do
      let status ← rtFileWrite [c]
      if status ≠ rtStatusOk then return none else return some (some 1)) >>= settle retPrinted) s =
      resume s s.args (playPiece s.kernel s.garbage (.text [c]) retPrinted s.log) := by
  obtain ⟨status, hrun, hstatus⟩ := rtFileWrite_run [c] s
  rw [bind_assoc, bind_of_ok hrun, playPiece]
  by_cases hfailed : Failed (s.kernel s.log [c])
  · rw [if_pos (hstatus.2 hfailed), if_pos hfailed]
    rfl
  · rw [if_neg (mt hstatus.1 hfailed), if_neg hfailed]
    rfl

theorem settle_guess : settle retPrinted (some none) s =
    resume s s.args (guess s.garbage retPrinted s.log) := by
  rw [settle, bind_of_ok (rfl : readArgChars none s = .ok (s.garbage s.log).toInt _), guess]
  split_ifs <;> rfl

theorem settle_hex (p : List Byte) :
    (writeBuf p >>= fun _ => settle retPrinted (some none)) s =
      resume s s.args (playPiece s.kernel s.garbage (.hex p) retPrinted s.log) := by
  obtain ⟨status, hrun, -⟩ := rtFileWrite_run p s
  rw [writeBuf, bind_assoc, bind_of_ok hrun, playPiece]
  split_ifs <;> rw [pure_bind] <;> exact settle_guess

theorem settle_number (text : List Byte) :
    ((fill text [0] >>= writeBuf) >>= fun argChars => settle retPrinted (some (some argChars))) s =
      resume s s.args (playPiece s.kernel s.garbage (numberPiece text) retPrinted s.log) := by
  rw [fill, numberPiece, List.length_singleton]
  split_ifs
  · rw [pure_bind]
    exact settle_writeBuf _
  · rfl

theorem settle_string (str : CString) :
    (printString str >>= fun argChars => settle retPrinted (some (some argChars))) s =
      resume s s.args (playPiece s.kernel s.garbage (stringPiece str) retPrinted s.log) := by
  rw [printString, stringLoop_eq, stringPiece]
  split_ifs
  · rw [pure_bind, List.take_length]
    exact settle_writeBuf _
  · rfl

/-! ### The arguments -/

/-- A conversion that first takes a word, as `arg` of it. -/
theorem takeWord_run {va : StdioM Word} {arg : Word → Word}
    {conversion : Word → StdioM (Option (Option ℤ))} {piece : Word → Piece}
    (hva : va = vaWord >>= fun w => pure (arg w))
    (hconversion : ∀ w (t : Stdio), (conversion (arg w) >>= settle retPrinted) t =
      resume t t.args (playPiece t.kernel t.garbage (piece w) retPrinted t.log)) :
    ((va >>= conversion) >>= settle retPrinted) s =
      resume s (takeWord piece s.args).2
        (playPiece s.kernel s.garbage (takeWord piece s.args).1 retPrinted s.log) := by
  rw [bind_assoc, hva, bind_assoc]
  obtain ⟨kernel, garbage, args, log⟩ := s
  rcases args with _ | ⟨w | str, args⟩
  · rfl
  · have hword : vaWord ⟨kernel, garbage, .word w :: args, log⟩ =
        .ok w ⟨kernel, garbage, args, log⟩ := rfl
    rw [bind_of_ok hword, pure_bind]
    exact hconversion w _
  · rfl

theorem takeString_run :
    ((vaString >>= fun str => printString str >>= fun argChars => pure (some (some argChars))) >>=
      settle retPrinted) s =
      resume s (takeString stringPiece s.args).2
        (playPiece s.kernel s.garbage (takeString stringPiece s.args).1 retPrinted s.log) := by
  rw [bind_assoc]
  obtain ⟨kernel, garbage, args, log⟩ := s
  rcases args with _ | ⟨w | str, args⟩
  · rfl
  · rfl
  · have hstring : vaString ⟨kernel, garbage, .string str :: args, log⟩ =
        .ok str ⟨kernel, garbage, args, log⟩ := rfl
    rw [bind_of_ok hstring, bind_assoc]
    exact settle_string str

theorem IntSize.vaInt_eq (size : IntSize) : (if size.bits = 32 then vaInt32 else vaWord) =
    vaWord >>= fun w => pure (size.int w) := by
  unfold IntSize.int
  split_ifs
  · rfl
  · exact (bind_pure vaWord).symm

theorem IntSize.vaUint_eq (size : IntSize) : (if size.bits = 32 then vaUint32 else vaWord) =
    vaWord >>= fun w => pure (size.uint w) := by
  unfold IntSize.uint
  split_ifs
  · rfl
  · exact (bind_pure vaWord).symm

theorem putConversion_run (size : IntSize) (letter : Byte) (retPrinted : ℤ) (s : Stdio) :
    putConversion size letter retPrinted s =
      resume s (directivePiece size letter s.args).2
        (playPiece s.kernel s.garbage (directivePiece size letter s.args).1 retPrinted s.log) := by
  rw [putConversion_eq, convert, directivePiece]
  by_cases hd : letter = byteOf 'd'
  · have hword : letter ∈ wordLetters := by
      rw [hd]
      decide
    rw [if_pos hd, if_pos hword]
    refine takeWord_run size.vaInt_eq fun w t => ?_
    rw [wordPiece, if_pos hd, printInt_eq, bind_assoc]
    exact settle_number _
  rw [if_neg hd]
  by_cases hu : letter = byteOf 'u'
  · have hword : letter ∈ wordLetters := by
      rw [hu]
      decide
    rw [if_pos hu, if_pos hword]
    refine takeWord_run size.vaUint_eq fun w t => ?_
    rw [wordPiece, if_neg hd, if_pos hu, printUint_eq, bind_assoc]
    exact settle_number _
  rw [if_neg hu]
  by_cases hx : letter = byteOf 'x'
  · have hword : letter ∈ wordLetters := by
      rw [hx]
      decide
    rw [if_pos hx, if_pos hword]
    refine takeWord_run size.vaUint_eq fun w t => ?_
    rw [wordPiece, if_neg hd, if_neg hu, if_pos hx, printHex_eq, bind_assoc]
    exact settle_hex _
  rw [if_neg hx]
  by_cases hp : letter = byteOf 'p'
  · have hword : letter ∈ wordLetters := by
      rw [hp]
      decide
    rw [if_pos hp, if_pos hword]
    refine takeWord_run (bind_pure vaWord).symm fun w t => ?_
    rw [wordPiece, if_neg hd, if_neg hu, if_neg hx, if_pos hp, printHex_eq, bind_assoc]
    exact settle_writeBuf _
  rw [if_neg hp]
  by_cases hs : letter = byteOf 's'
  · have hword : letter ∉ wordLetters := by
      rw [hs]
      decide
    rw [if_pos hs, if_neg hword, if_pos hs]
    exact takeString_run
  rw [if_neg hs]
  by_cases hc : letter = byteOf 'c'
  · have hword : letter ∈ wordLetters := by
      rw [hc]
      decide
    rw [if_pos hc, if_pos hword]
    refine takeWord_run (bind_pure vaWord).symm fun w t => ?_
    rw [wordPiece, if_neg hd, if_neg hu, if_neg hx, if_neg hp]
    exact settle_char _
  have hword : letter ∉ wordLetters := by
    simp [wordLetters, hd, hu, hx, hp, hc]
  rw [if_neg hc, if_neg hword, if_neg hs]
  exact settle_guess

/-! ### The whole format -/

/-- Where a program does what a piece does, and what follows it the rest. -/
theorem piece_bind {x : StdioM (Option ℤ)} {f : ℤ → StdioM (Option ℤ)} {piece : Piece}
    {rest : List Piece} {args : List Arg}
    (hx : x s = resume s args (playPiece s.kernel s.garbage piece retPrinted s.log))
    (hf : ∀ retPrinted log, ∃ args', f retPrinted { s with args := args, log := log } =
      resume s args' (play s.kernel s.garbage rest retPrinted log)) :
    ∃ args', (do
      match ← x with
      | none => return none
      | some retPrinted => f retPrinted : StdioM (Option ℤ)) s =
      resume s args' (play s.kernel s.garbage (piece :: rest) retPrinted s.log) := by
  rw [play]
  generalize playPiece s.kernel s.garbage piece retPrinted s.log = played at hx
  obtain ⟨r, log⟩ := played
  cases r with
  | error e =>
      rw [bind_of_error hx]
      exact ⟨args, rfl⟩
  | ok r =>
      rw [bind_of_ok hx]
      cases r with
      | none => exact ⟨args, rfl⟩
      | some retPrinted => exact hf retPrinted log

theorem putTokens_run (tokens : List Token) (retPrinted : ℤ) (s : Stdio) :
    ∃ args, putTokens tokens retPrinted s =
      resume s args (play s.kernel s.garbage (pieces tokens s.args) retPrinted s.log) := by
  induction tokens generalizing s retPrinted with
  | nil => exact ⟨s.args, rfl⟩
  | cons token tokens ih =>
      cases token with
      | literal bytes =>
          have hrun := putLiteralBytes_run bytes retPrinted s
          rw [pieces]
          split_ifs at hrun ⊢ with hlen
          · exact piece_bind hrun fun retPrinted log => ih retPrinted _
          · rw [putTokens, bind_of_ok hrun]
            exact ih retPrinted _
      | directive size letter =>
          have hrun := putConversion_run size letter retPrinted s
          rw [pieces]
          generalize directivePiece size letter s.args = taken at hrun
          obtain ⟨piece, args⟩ := taken
          cases piece with
          | stuck e =>
              rw [putTokens, bind_of_error hrun]
              exact ⟨args, rfl⟩
          | text data => exact piece_bind hrun fun retPrinted log => ih retPrinted _
          | hex data => exact piece_bind hrun fun retPrinted log => ih retPrinted _
          | unknown => exact piece_bind hrun fun retPrinted log => ih retPrinted _
          | malformed => exact piece_bind hrun fun retPrinted log => ih retPrinted _
      | cut =>
          have hrun : putConversion .plain 0 retPrinted s =
              resume s s.args (playPiece s.kernel s.garbage .unknown retPrinted s.log) :=
            putConversion_run .plain 0 retPrinted s
          exact piece_bind hrun fun retPrinted log => ⟨s.args, rfl⟩
      | malformed => exact ⟨s.args, rfl⟩

/-- The end of `printf` on what its pieces left. -/
def finishPlay (played : Played) : Except Stop ℤ × List StdioEvent :=
  match played with
  | (.ok (some retPrinted), log) => (.ok (BitVec.ofInt 32 retPrinted).toInt, log ++ [.unlock])
  | (.ok none, log) => (.ok (-1), log ++ [.unlock])
  | (.error e, log) => (.error e, log)

/-- `printf` does what its pieces do. -/
theorem printf_run (fmt : CString) (args : List Arg) (s : Stdio) : ∃ args', printf fmt args s =
    resume s args' (finishPlay
      (play s.kernel s.garbage (pieces fmt.tokens args) 0 (s.log ++ [.lock]))) := by
  have hstart : vaStart args s = .ok () { s with args := args } := rfl
  have hlock : lock { s with args := args } =
      .ok () { s with args := args, log := s.log ++ [.lock] } := rfl
  obtain ⟨args', hrun⟩ := putTokens_run fmt.tokens 0
    { s with args := args, log := s.log ++ [.lock] }
  rw [printf_eq_putTokens, bind_of_ok hstart, bind_of_ok hlock]
  refine ⟨args', ?_⟩
  dsimp only at hrun
  generalize play s.kernel s.garbage (pieces fmt.tokens args) 0 (s.log ++ [.lock]) = played at hrun
  obtain ⟨r, log⟩ := played
  cases r with
  | error e => exact bind_of_error hrun
  | ok r =>
      rw [bind_of_ok hrun]
      cases r <;> rfl

end Ciabatta.StdlibFile
