import Mathlib.Data.List.GetD
import Ciabatta.DigitBuffers
import Ciabatta.Lib.WholeRun
import Ciabatta.StdlibFile.Fmt

/-!
What the functions of `fmt.c` write, on the assumption that the write calls of
the run transfer all their bytes. A number is written together with the
terminator of its digit buffer.
-/

namespace Ciabatta.StdlibFile

open ByteMemory Exec

/-- The most that the kernel transfers in one call. -/
def maxRwCount : ℕ := 0x7ffff000

/-- A write call has transferred all its bytes, of which there are then at most
`maxRwCount`. -/
def StdioEvent.Complete : StdioEvent → Prop
  | .write data result => result = data.length ∧ data.length ≤ maxRwCount
  | _ => True

instance (e : StdioEvent) : Decidable e.Complete := by
  unfold StdioEvent.Complete
  split <;> infer_instance

/-- Every write call so far has transferred all its bytes. -/
def AllTransferred (s : Stdio) : Prop := ∀ e ∈ s.log, e.Complete

def StdioEvent.transferred : StdioEvent → List Byte
  | .write data result => data.take result.toNat
  | _ => []

/-- The bytes written to `stdout`. -/
def Stdio.output (s : Stdio) : List Byte := s.log.flatMap StdioEvent.transferred

/-- From `s` to `t` the bytes `data` were written and the arguments up to `args`
taken. -/
structure Wrote (s : Stdio) (data : List Byte) (args : List Arg) (t : Stdio) : Prop where
  garbage : t.garbage = s.garbage
  args : t.args = args
  output : t.output = s.output ++ data

variable {s t u : Stdio} {data more : List Byte} {args args' : List Arg}

theorem Wrote.trans (h : Wrote s data args t) (h' : Wrote t more args' u) :
    Wrote s (data ++ more) args' u :=
  ⟨h'.garbage.trans h.garbage, h'.args, by rw [h'.output, h.output, List.append_assoc]⟩

theorem wrote_nil : Wrote s [] s.args s := ⟨rfl, rfl, (List.append_nil _).symm⟩

theorem output_record (e : StdioEvent) : (s.record e).output = s.output ++ e.transferred := by
  rw [Stdio.output, Stdio.record, List.flatMap_append, List.flatMap_singleton]
  rfl

/-! ### What every run reflects -/

/-- What happens between the lock and the unlock of a call. -/
def StdioEvent.Inner : StdioEvent → Prop
  | .lock => False
  | .unlock => False
  | _ => True

/-- An assumption that survives taking back what a print function does: it takes
arguments, and it records events. -/
class PrintReflects (A : Stdio → Prop) : Prop where
  of_args : ∀ s args, A { s with args := args } → A s
  of_record : ∀ s (e : StdioEvent), e.Inner → A (s.record e) → A s

theorem AllTransferred.of_record {e : StdioEvent} (h : AllTransferred (s.record e)) :
    AllTransferred s := fun e hmem => h e (List.mem_append_left _ hmem)

instance : PrintReflects AllTransferred where
  of_args _ _ h := h
  of_record _ _ _ h := h.of_record

section Reflection

variable {A : Stdio → Prop}

theorem reflects_get (str : CString) (i : ℕ) : Reflects A (str.get i) :=
  (reflects_pure _).ite (reflects_throw _)

theorem reflects_pushChar (c : Byte) (p : List Byte) :
    Reflects A (pushChar c p : StdioM (List Byte)) :=
  (reflects_pure _).ite (reflects_throw _)

theorem reflects_printStringRound (str : CString) (strLen : ℕ) :
    Reflects A (printStringRound str strLen) :=
  (reflects_get str strLen).bind fun _ =>
    ((reflects_incrementInt _).bind fun _ => reflects_pure _).ite (reflects_pure _)

theorem reflects_intDigits (number : Word) :
    Reflects A (intDigits number : StdioM (List Byte)) :=
  reflects_loop (fun _ => (reflects_pushChar _ _).bind fun _ =>
    (reflects_pure _).ite (reflects_pure _)) _ _

theorem reflects_uintDigits (number : Word) :
    Reflects A (uintDigits number : StdioM (List Byte)) :=
  reflects_loop (fun _ => (reflects_pushChar _ _).bind fun _ =>
    (reflects_pure _).ite (reflects_pure _)) _ _

theorem reflects_hexDigitLoop (number : Word) :
    Reflects A (hexDigitLoop number : StdioM (List Byte)) :=
  reflects_loop (fun _ => ((reflects_pushChar _ _).bind fun _ => reflects_pure _).ite
    (reflects_pure _)) _ _

variable [PrintReflects A]

theorem reflects_rtFileWrite (data : List Byte) : Reflects A (rtFileWrite data) := by
  have hwrite : Reflects A (sysWrite data) :=
    fun s h => PrintReflects.of_record s (.write data _) trivial h
  exact hwrite.bind fun status => (reflects_pure _).ite ((reflects_pure _).ite
    ((reflects_pure _).ite (reflects_pure _)))

theorem reflects_vaWord : Reflects A vaWord := by
  intro s h
  rw [vaWord] at h
  split at h
  · exact PrintReflects.of_args s _ h
  · exact h

theorem reflects_vaString : Reflects A vaString := by
  intro s h
  rw [vaString] at h
  split at h
  · exact PrintReflects.of_args s _ h
  · exact h

theorem reflects_readArgChars (argChars : Option ℤ) :
    Reflects A (readArgChars argChars) := by
  cases argChars with
  | none => exact fun s h => PrintReflects.of_record s .unassigned trivial h
  | some argChars => exact reflects_pure _

theorem reflects_writeBuf (p : List Byte) : Reflects A (writeBuf p) :=
  (reflects_rtFileWrite p).bind fun _ => (reflects_pure _).ite (reflects_pure _)

theorem reflects_printString (str : CString) : Reflects A (printString str) :=
  (reflects_loop (reflects_printStringRound str) _ _).bind fun _ =>
    (reflects_rtFileWrite _).bind fun _ => (reflects_pure _).ite (reflects_pure _)

theorem reflects_printInt (number : Word) : Reflects A (printInt number) :=
  (reflects_intDigits _).bind fun _ =>
    ((reflects_pushChar _ _).ite (reflects_pure _)).bind fun _ => reflects_writeBuf _

theorem reflects_printUint (number : Word) : Reflects A (printUint number) :=
  (reflects_uintDigits _).bind fun _ => reflects_writeBuf _

theorem reflects_printHex (number : Word) : Reflects A (printHex number) :=
  (reflects_hexDigitLoop _).bind fun _ => (reflects_pushChar _ _).bind fun _ =>
    (reflects_pushChar _ _).bind fun _ => reflects_writeBuf _

theorem reflects_vaInt32 : Reflects A vaInt32 :=
  reflects_vaWord.bind fun _ => reflects_pure _

theorem reflects_vaUint32 : Reflects A vaUint32 :=
  reflects_vaWord.bind fun _ => reflects_pure _

theorem reflects_convert (c : Byte) (intArgSize : ℕ) :
    Reflects A (convert c intArgSize) := by
  refine Reflects.ite ?_ (.ite ?_ (.ite ?_ (.ite ?_ (.ite ?_ (.ite ?_ (reflects_pure _))))))
  · exact (reflects_vaInt32.ite reflects_vaWord).bind fun _ =>
      (reflects_printInt _).bind fun _ => reflects_pure _
  · exact (reflects_vaUint32.ite reflects_vaWord).bind fun _ =>
      (reflects_printUint _).bind fun _ => reflects_pure _
  · exact (reflects_vaUint32.ite reflects_vaWord).bind fun _ =>
      (reflects_printHex _).bind fun _ => reflects_pure _
  · exact reflects_vaWord.bind fun _ => (reflects_printHex _).bind fun _ => reflects_pure _
  · exact reflects_vaString.bind fun _ => (reflects_printString _).bind fun _ => reflects_pure _
  · exact reflects_vaWord.bind fun _ => (reflects_rtFileWrite _).bind fun _ =>
      (reflects_pure _).ite (reflects_pure _)

end Reflection

/-! ### Writing -/

theorem stopsOnly_rtFileWrite {P : Stop → Prop} (data : List Byte) :
    StopsOnly P (rtFileWrite data) := by
  have hwrite : StopsOnly P (sysWrite data) := stopsOnly_of_ok fun _ => ⟨_, _, rfl⟩
  exact hwrite.bind fun _ => .ite (fun _ => stopsOnly_pure _) fun _ =>
    .ite (fun _ => stopsOnly_pure _) fun _ =>
    .ite (fun _ => stopsOnly_pure _) fun _ => stopsOnly_pure _

theorem stopsOnly_writeBuf {P : Stop → Prop} (p : List Byte) : StopsOnly P (writeBuf p) :=
  (stopsOnly_rtFileWrite p).bind fun _ =>
    .ite (fun _ => stopsOnly_pure _) fun _ => stopsOnly_pure _

theorem toInt_ofInt_transferred {result : ℤ} (hresult : result = data.length)
    (hdata : data.length ≤ maxRwCount) : (BitVec.ofInt 32 result).toInt = result := by
  rw [maxRwCount] at hdata
  rw [BitVec.toInt_ofInt, Int.bmod_eq_of_le (by omega) (by omega)]

theorem sure_rtFileWrite (data : List Byte) : Sure AllTransferred (rtFileWrite data) s
    fun r t => r = rtStatusOk ∧ Wrote s data s.args t := by
  have hsys : Sure AllTransferred (sysWrite data) s fun r t =>
      r = data.length ∧ Wrote s data s.args t := by
    intro hA
    obtain ⟨hresult, hdata⟩ := hA (.write data (s.kernel s.log data))
      (List.mem_append_right _ (List.mem_singleton_self _))
    refine ⟨_, _, rfl, ?_, rfl, rfl, ?_⟩
    · rw [toInt_ofInt_transferred hresult hdata, hresult]
    · rw [output_record, StdioEvent.transferred, hresult, Int.toNat_natCast, List.take_length]
  refine hsys.bind (fun status => (reflects_pure _).ite ((reflects_pure _).ite
    ((reflects_pure _).ite (reflects_pure _)))) fun status t h => ?_
  obtain ⟨rfl, hwrote⟩ := h
  have hebadf : ¬ -(data.length : ℤ) = ebadf := by
    rw [ebadf]
    omega
  have heio : ¬ -(data.length : ℤ) = eio := by
    rw [eio]
    omega
  exact .ite_neg hebadf (.ite_neg heio (.ite_neg (by omega) (yields_pure ⟨rfl, hwrote⟩).sure))

theorem sure_writeBuf (p : List Byte) : Sure AllTransferred (writeBuf p) s
    fun r t => r = p.length ∧ Wrote s p s.args t := by
  refine (sure_rtFileWrite p).bind (fun _ => (reflects_pure _).ite (reflects_pure _))
    fun status t h => ?_
  obtain ⟨rfl, hwrote⟩ := h
  exact .ite_neg (not_not_intro rfl) (yields_pure ⟨rfl, hwrote⟩).sure

/-! ### Strings -/

theorem printStringRound_of_lt {str : CString} {strLen : ℕ} (h : strLen < str.bytes.length) :
    printStringRound str strLen = do
      let strLen ← incrementInt strLen
      return .inl strLen := by
  have hget : str.get strLen = pure str.bytes[strLen] := by
    rw [CString.get, if_pos h.le, List.getD_eq_getElem _ _ h]
  have hne : str.bytes[strLen] ≠ 0 := fun h0 => str.noNul (h0 ▸ List.getElem_mem h)
  rw [printStringRound, hget, pure_bind, if_pos hne]

theorem printStringRound_length (str : CString) :
    printStringRound str str.bytes.length = pure (.inr str.bytes.length) := by
  have hget : str.get str.bytes.length = pure 0 := by
    rw [CString.get, if_pos le_rfl, List.getD_eq_default _ _ le_rfl]
  rw [printStringRound, hget, pure_bind, if_neg (not_not_intro rfl)]

theorem stringLoop_from {str : CString} {strLen fuel : ℕ} (hle : strLen ≤ str.bytes.length)
    (hint : strLen < 2 ^ 31) (hfuel : str.bytes.length - strLen < fuel) :
    loop (printStringRound str) fuel strLen =
      if str.bytes.length < 2 ^ 31 then pure str.bytes.length else throw .signedOverflow := by
  induction fuel generalizing strLen with
  | zero => omega
  | succ fuel ih =>
      rcases hle.lt_or_eq with hlt | rfl
      · rw [loop, printStringRound_of_lt hlt, bind_assoc, incrementInt]
        by_cases hnext : strLen + 1 < 2 ^ 31
        · rw [if_pos hnext, pure_bind, pure_bind]
          exact ih hlt hnext (by omega)
        · rw [if_neg hnext, if_neg (by omega)]
          rfl
      · rw [loop, printStringRound_length, pure_bind, if_pos hint]

/-- The loop finds the NUL as long as an `int` can count the bytes before it. -/
theorem stringLoop_eq (str : CString) :
    loop (printStringRound str) (str.bytes.length + 1) 0 =
      if str.bytes.length < 2 ^ 31 then pure str.bytes.length else throw .signedOverflow :=
  stringLoop_from (Nat.zero_le _) (by decide) (Nat.lt_succ_self _)

theorem yields_stringLoop {str : CString} (hstr : str.bytes.length < 2 ^ 31) :
    Yields (loop (printStringRound str) (str.bytes.length + 1) 0) s fun r t =>
      r = str.bytes.length ∧ s = t := by
  rw [stringLoop_eq, if_pos hstr]
  exact yields_pure ⟨rfl, rfl⟩

/-- If the loop ends, then at the NUL, with a count that is an `int`. -/
theorem done_stringLoop (str : CString) :
    Done AllTransferred (loop (printStringRound str) (str.bytes.length + 1) 0) s fun r t =>
      (r = str.bytes.length ∧ str.bytes.length < 2 ^ 31) ∧ s = t := by
  rw [stringLoop_eq]
  exact .ite (fun hstr => done_pure ⟨⟨rfl, hstr⟩, rfl⟩) fun _ => done_throw

theorem reflects_printString_end (str : CString) (strLen : ℕ) :
    Reflects AllTransferred (do
      let status ← rtFileWrite (str.bytes.take strLen)
      if status ≠ rtStatusOk then return -1 else return (strLen : ℤ) : StdioM ℤ) :=
  (reflects_rtFileWrite _).bind fun _ => (reflects_pure _).ite (reflects_pure _)

/-- The end of `print_string`. -/
theorem sure_printString_end (str : CString) :
    Sure AllTransferred (do
      let status ← rtFileWrite (str.bytes.take str.bytes.length)
      if status ≠ rtStatusOk then return -1 else return (str.bytes.length : ℤ) : StdioM ℤ) s
      fun r t => 0 ≤ r ∧ Wrote s str.bytes s.args t := by
  rw [List.take_length]
  refine (sure_rtFileWrite str.bytes).bind (fun _ => (reflects_pure _).ite (reflects_pure _))
    fun status t h => ?_
  obtain ⟨rfl, hwrote⟩ := h
  exact .ite_neg (not_not_intro rfl) (yields_pure ⟨Int.natCast_nonneg _, hwrote⟩).sure

theorem sure_printString {str : CString} (hstr : str.bytes.length < 2 ^ 31) :
    Sure AllTransferred (printString str) s fun r t => 0 ≤ r ∧ Wrote s str.bytes s.args t := by
  refine (yields_stringLoop hstr).sure.bind (reflects_printString_end str) fun r t h => ?_
  obtain ⟨rfl, rfl⟩ := h
  exact sure_printString_end str

theorem done_printString (str : CString) :
    Done AllTransferred (printString str) s fun r t =>
      0 ≤ r ∧ str.bytes.length < 2 ^ 31 ∧ Wrote s str.bytes s.args t := by
  refine (done_stringLoop str).bind (reflects_printString_end str) fun r t h => ?_
  obtain ⟨⟨rfl, hstr⟩, rfl⟩ := h
  exact (sure_printString_end str).done.mono fun r t hr => ⟨hr.1, hstr, hr.2⟩

/-! ### Numbers -/

/-- What a digit loop leaves in the buffer: bytes that are not NUL, and the
terminator. -/
def OneNul (p : List Byte) : Prop := p.count 0 = 1

theorem oneNul_append {text : List Byte} (h : 0 ∉ text) : OneNul (text ++ [0]) := by
  rw [OneNul, List.count_append, List.count_eq_zero.mpr h, List.count_singleton_self]

def intText (number : Word) : List Byte :=
  if number.toInt < 0 then byteOf '-' :: magnitudeText number else magnitudeText number

def uintText (number : Word) : List Byte :=
  (Nat.toDigits 10 number.toNat).map byteOf

def hexText (number : Word) : List Byte :=
  byteOf '0' :: byteOf 'x' :: hexadecimalDigits number

theorem printInt_eq (number : Word) :
    printInt number = fill (intText number) [0] >>= writeBuf := by
  rw [printInt, intDigits_magnitude, intText]
  split_ifs
  · have hsign : byteOf '-' :: magnitudeText number = [byteOf '-'] ++ magnitudeText number := rfl
    rw [hsign, ← fill_bind_fill, bind_assoc]
    simp only [pushChar_eq]
  · simp only [pure_bind]

theorem printUint_eq (number : Word) :
    printUint number = fill (uintText number) [0] >>= writeBuf := by
  rw [printUint, uintDigits_eq, uintText]

theorem printHex_eq (number : Word) : printHex number = writeBuf (hexText number ++ [0]) := by
  rw [printHex, hexDigitLoop_eq, pure_bind]
  rfl

theorem oneNul_intText (number : Word) : OneNul (intText number ++ [0]) := by
  apply oneNul_append
  rw [intText]
  split_ifs
  · rw [List.mem_cons, not_or]
    exact ⟨by decide, zero_not_mem_magnitudeText number⟩
  · exact zero_not_mem_magnitudeText number

theorem oneNul_uintText (number : Word) : OneNul (uintText number ++ [0]) :=
  oneNul_append (zero_not_mem_digits _)

theorem oneNul_hexText (number : Word) : OneNul (hexText number ++ [0]) := by
  apply oneNul_append
  rw [hexText, List.mem_cons, List.mem_cons, not_or, not_or]
  exact ⟨by decide, by decide, zero_not_mem_hexadecimalDigits number⟩

/-- A number is written together with one NUL. -/
def WroteNumber (s : Stdio) (r : ℤ) (t : Stdio) : Prop :=
  0 ≤ r ∧ ∃ data, OneNul data ∧ Wrote s data s.args t

theorem done_writeBuf {p : List Byte} (hp : OneNul p) :
    Done AllTransferred (writeBuf p) s (WroteNumber s) :=
  (sure_writeBuf p).done.mono fun _ _ hr => ⟨by rw [hr.1]; omega, p, hp, hr.2⟩

/-- A text that is put in front of the terminator of its buffer, and written. -/
theorem done_fill_writeBuf {text : List Byte} (h : OneNul (text ++ [0])) :
    Done AllTransferred (fill text [0] >>= writeBuf) s (WroteNumber s) := by
  have hfill : Done AllTransferred (fill text [0]) s fun p t => p = text ++ [0] ∧ s = t :=
    .ite (fun _ => done_pure ⟨rfl, rfl⟩) fun _ => done_throw
  refine hfill.bind reflects_writeBuf ?_
  rintro p t ⟨rfl, rfl⟩
  exact done_writeBuf h

theorem done_printInt (number : Word) :
    Done AllTransferred (printInt number) s (WroteNumber s) := by
  rw [printInt_eq]
  exact done_fill_writeBuf (oneNul_intText number)

theorem done_printUint (number : Word) :
    Done AllTransferred (printUint number) s (WroteNumber s) := by
  rw [printUint_eq]
  exact done_fill_writeBuf (oneNul_uintText number)

theorem done_printHex (number : Word) :
    Done AllTransferred (printHex number) s (WroteNumber s) := by
  rw [printHex_eq]
  exact done_writeBuf (oneNul_hexText number)

end Ciabatta.StdlibFile
