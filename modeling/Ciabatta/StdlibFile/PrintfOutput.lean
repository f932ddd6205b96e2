import Ciabatta.StdlibFile.Messages
import Ciabatta.StdlibFile.Writes

/-!
The output of `printf`. It is the text of the message exactly if there is no
directive for a number, and no string too long for an `int`.
-/

namespace Ciabatta.StdlibFile

open ByteMemory Exec

variable {s t u : Stdio} {args : List Arg}

/-! ### Directives -/

/-- The directives that write what they should. -/
def Directive.faithful : Directive → Bool
  | .int _ _ _ => false
  | .p _ => false
  | .s str => str.bytes.length < 2 ^ 31
  | .c _ => true

theorem zero_not_mem_signedDecimal (n : ℤ) : 0 ∉ signedDecimal n := by
  rw [signedDecimal]
  split
  · rw [List.mem_cons, not_or]
    exact ⟨by decide, zero_not_mem_digits _⟩
  · exact zero_not_mem_digits _

theorem zero_not_mem_hexadecimal (n : ℕ) : 0 ∉ hexadecimal n := by
  have hdigit : ∀ k < 16, byteOf (Nat.digitChar k) ≠ 0 := by decide
  rw [hexadecimal, List.mem_cons, List.mem_cons, not_or, not_or]
  refine ⟨by decide, by decide, fun h => ?_⟩
  obtain ⟨i, -, h0⟩ := List.mem_map.mp h
  exact hdigit _ (Nat.mod_lt _ (by decide)) h0

/-- The directives for numbers. -/
def Directive.numeric : Directive → Bool
  | .int _ _ _ => true
  | .p _ => true
  | .s _ => false
  | .c _ => false

theorem count_formatted_of_numeric {directive : Directive} (h : directive.numeric = true) :
    directive.formatted.count 0 = 0 := by
  rw [List.count_eq_zero]
  cases directive with
  | int size letter w =>
      cases letter with
      | d => exact zero_not_mem_signedDecimal _
      | u => exact zero_not_mem_digits _
      | x => exact zero_not_mem_hexadecimal _
  | p w => exact zero_not_mem_hexadecimal _
  | s str => cases h
  | c w => cases h

/-- What a directive adds to the number of NULs in its text. -/
def Directive.extraNuls (directive : Directive) : ℕ :=
  if directive.faithful then 0 else 1

/-- A directive has been carried out, perhaps with one NUL too many. -/
def Converted (s : Stdio) (directive : Directive) (args : List Arg) (r : Option (Option ℤ))
    (t : Stdio) : Prop :=
  ∃ argChars data, r = some argChars ∧ (∀ n, argChars = some n → 0 ≤ n) ∧
    data.count 0 = directive.formatted.count 0 + directive.extraNuls ∧ Wrote s data args t

theorem wrote_args (s : Stdio) (args : List Arg) : Wrote s [] args { s with args := args } :=
  ⟨rfl, rfl, (List.append_nil _).symm⟩

theorem yields_vaWord {w : Word} (h : s.args = .word w :: args) :
    Yields vaWord s fun r t => r = w ∧ Wrote s [] args t := by
  refine ⟨w, { s with args := args }, ?_, rfl, wrote_args s args⟩
  rw [vaWord, h]

theorem yields_vaString {str : CString} (h : s.args = .string str :: args) :
    Yields vaString s fun r t => r = str ∧ Wrote s [] args t := by
  refine ⟨str, { s with args := args }, ?_, rfl, wrote_args s args⟩
  rw [vaString, h]

theorem yields_vaInt {w : Word} (c : Prop) [Decidable c] (h : s.args = .word w :: args) :
    Yields (if c then vaInt32 else vaWord) s fun _ t => Wrote s [] args t := by
  split
  · exact (yields_vaWord h).bind fun _ _ hr => yields_pure hr.2
  · exact (yields_vaWord h).mono fun _ _ hr => hr.2

theorem yields_vaUint {w : Word} (c : Prop) [Decidable c] (h : s.args = .word w :: args) :
    Yields (if c then vaUint32 else vaWord) s fun _ t => Wrote s [] args t := by
  split
  · exact (yields_vaWord h).bind fun _ _ hr => yields_pure hr.2
  · exact (yields_vaWord h).mono fun _ _ hr => hr.2

theorem Directive.extraNuls_of_numeric {directive : Directive} (h : directive.numeric = true) :
    directive.extraNuls = 1 := by
  cases directive with
  | int size letter w => rfl
  | p w => rfl
  | s str => cases h
  | c w => cases h

theorem WroteNumber.converted {directive : Directive} {r : ℤ} (hwrote : Wrote s [] args t)
    (h : WroteNumber t r u) (hnumeric : directive.numeric = true) (argChars : Option ℤ)
    (hargChars : ∀ n, argChars = some n → n = r) :
    Converted s directive args (some argChars) u := by
  obtain ⟨hr, data, hdata, hu⟩ := h
  refine ⟨argChars, data, rfl, fun n hn => ?_, ?_, ?_⟩
  · rw [hargChars n hn]
    exact hr
  · rw [count_formatted_of_numeric hnumeric, Directive.extraNuls_of_numeric hnumeric, hdata]
  · rw [hwrote.args] at hu
    exact hwrote.trans hu

theorem sure_convert_c {w : Word} (h : s.args = .word w :: args) :
    Sure AllTransferred (convert (byteOf 'c') 32) s fun r t =>
      r = some (some 1) ∧ Wrote s [w.setWidth 8] args t := by
  refine (yields_vaWord h).sure.bind (fun _ => (reflects_rtFileWrite _).bind fun _ =>
    (reflects_pure _).ite (reflects_pure _)) fun ch t ht => ?_
  obtain ⟨rfl, ht⟩ := ht
  refine (sure_rtFileWrite _).bind (fun _ => (reflects_pure _).ite (reflects_pure _))
    fun status u hu => ?_
  obtain ⟨rfl, hu⟩ := hu
  rw [ht.args] at hu
  exact .ite_neg (not_not_intro rfl) (yields_pure ⟨rfl, ht.trans hu⟩).sure

theorem done_convert (directive : Directive) (h : s.args = directive.arg :: args) :
    Done AllTransferred (convert directive.letter directive.size.bits) s
      (Converted s directive args) := by
  cases directive with
  | int size letter w =>
      cases letter with
      | d =>
          refine (yields_vaInt _ h).sure.done.bind (fun _ => (reflects_printInt _).bind fun _ =>
            reflects_pure _) fun arg t ht => ?_
          refine (done_printInt arg).bind (fun _ => reflects_pure _) fun r u hu => ?_
          exact done_pure (hu.converted ht rfl _ fun n hn => (Option.some.inj hn).symm)
      | u =>
          refine (yields_vaUint _ h).sure.done.bind (fun _ => (reflects_printUint _).bind fun _ =>
            reflects_pure _) fun arg t ht => ?_
          refine (done_printUint arg).bind (fun _ => reflects_pure _) fun r u hu => ?_
          exact done_pure (hu.converted ht rfl _ fun n hn => (Option.some.inj hn).symm)
      | x =>
          refine (yields_vaUint _ h).sure.done.bind (fun _ => (reflects_printHex _).bind fun _ =>
            reflects_pure _) fun arg t ht => ?_
          refine (done_printHex arg).bind (fun _ => reflects_pure _) fun r u hu => ?_
          exact done_pure (hu.converted ht rfl _ nofun)
  | p w =>
      refine (yields_vaWord h).sure.done.bind (fun _ => (reflects_printHex _).bind fun _ =>
        reflects_pure _) fun arg t ht => ?_
      refine (done_printHex arg).bind (fun _ => reflects_pure _) fun r u hu => ?_
      exact done_pure (hu.converted ht.2 rfl _ fun n hn => (Option.some.inj hn).symm)
  | s str =>
      refine (yields_vaString h).sure.done.bind (fun _ => (reflects_printString _).bind fun _ =>
        reflects_pure _) fun arg t ht => ?_
      obtain ⟨rfl, ht⟩ := ht
      refine (done_printString arg).bind (fun _ => reflects_pure _) fun r u hu => ?_
      -- the call has returned, so an `int` could count the string
      obtain ⟨hr, hlength, hu⟩ := hu
      have hfaithful : (Directive.s arg).faithful = true := decide_eq_true hlength
      refine done_pure ⟨some r, arg.bytes, rfl, fun n hn => Option.some.inj hn ▸ hr, ?_, ?_⟩
      · rw [Directive.extraNuls, if_pos hfaithful]
        rfl
      · rw [ht.args] at hu
        exact ht.trans hu
  | c w =>
      refine (sure_convert_c h).done.mono fun r t hr => ?_
      exact ⟨some 1, [w.setWidth 8], hr.1, fun n hn => Option.some.inj hn ▸ by decide, rfl, hr.2⟩

theorem sure_convert {directive : Directive} (hfaithful : directive.faithful = true)
    (h : s.args = directive.arg :: args) :
    Sure AllTransferred (convert directive.letter directive.size.bits) s fun r t =>
      (∃ n : ℤ, r = some (some n) ∧ 0 ≤ n) ∧ Wrote s directive.formatted args t := by
  cases directive with
  | int size letter w => cases hfaithful
  | p w => cases hfaithful
  | s str =>
      have hlength : str.bytes.length < 2 ^ 31 := of_decide_eq_true hfaithful
      refine (yields_vaString h).sure.bind (fun _ => (reflects_printString _).bind fun _ =>
        reflects_pure _) fun arg t ht => ?_
      obtain ⟨rfl, ht⟩ := ht
      refine (sure_printString hlength).bind (fun _ => reflects_pure _) fun r u hu => ?_
      obtain ⟨hr, hu⟩ := hu
      rw [ht.args] at hu
      exact (yields_pure ⟨⟨r, rfl, hr⟩, ht.trans hu⟩).sure
  | c w => exact (sure_convert_c h).mono fun r t hr => ⟨⟨1, hr.1, by decide⟩, hr.2⟩

/-! ### The parts of a message -/

theorem sure_putLiteral (literal : Literal) (retPrinted : ℤ) :
    Sure AllTransferred (putLiteral literal retPrinted) s fun r t =>
      r ≠ none ∧ Wrote s literal.bytes s.args t := by
  by_cases hlen : literal.bytes.length ≠ 0
  · refine .ite_pos hlen ((sure_rtFileWrite literal.bytes).bind
      (fun _ => (reflects_pure _).ite (reflects_pure _)) fun status t h => ?_)
    obtain ⟨rfl, hwrote⟩ := h
    exact .ite_neg (not_not_intro rfl) (yields_pure ⟨nofun, hwrote⟩).sure
  · have hnil : literal.bytes = [] := List.length_eq_zero_iff.mp (not_not.mp hlen)
    rw [hnil]
    exact .ite_neg hlen (yields_pure ⟨nofun, wrote_nil⟩).sure

theorem reflects_putLiteral (literal : Literal) (retPrinted : ℤ) :
    Reflects AllTransferred (putLiteral literal retPrinted) :=
  ((reflects_rtFileWrite _).bind fun _ => (reflects_pure _).ite (reflects_pure _)).ite
    (reflects_pure _)

theorem reflects_putDirective (directive : Directive) (retPrinted : ℤ) :
    Reflects AllTransferred (putDirective directive retPrinted) := by
  refine (reflects_convert _ _).bind fun r => ?_
  cases r with
  | none => exact reflects_pure _
  | some argChars =>
      exact (reflects_readArgChars argChars).bind fun _ =>
        (reflects_pure _).ite (reflects_pure _)

/-- What follows a directive of a message. -/
theorem reflects_putParts_directive {parts : List (Literal × Directive)} {last : Literal}
    (hparts : ∀ retPrinted, Reflects AllTransferred (putParts parts last retPrinted))
    (r : Option ℤ) :
    Reflects AllTransferred (match r with
      | none => return none
      | some retPrinted => putParts parts last retPrinted : StdioM (Option ℤ)) := by
  cases r with
  | none => exact reflects_pure _
  | some retPrinted => exact hparts retPrinted

/-- What follows a literal of a message. -/
theorem reflects_putParts_literal {parts : List (Literal × Directive)} {last : Literal}
    (hparts : ∀ retPrinted, Reflects AllTransferred (putParts parts last retPrinted))
    (directive : Directive) (r : Option ℤ) :
    Reflects AllTransferred (match r with
      | none => return none
      | some retPrinted => do
          match ← putDirective directive retPrinted with
          | none => return none
          | some retPrinted => putParts parts last retPrinted : StdioM (Option ℤ)) := by
  cases r with
  | none => exact reflects_pure _
  | some retPrinted =>
      exact (reflects_putDirective directive retPrinted).bind (reflects_putParts_directive hparts)

theorem reflects_putParts (parts : List (Literal × Directive)) (last : Literal) (retPrinted : ℤ) :
    Reflects AllTransferred (putParts parts last retPrinted) := by
  induction parts generalizing retPrinted with
  | nil => exact reflects_putLiteral last retPrinted
  | cons part parts ih =>
      exact (reflects_putLiteral part.1 retPrinted).bind (reflects_putParts_literal ih part.2)

theorem reflects_putDirective_end (r : Option (Option ℤ)) (retPrinted : ℤ) :
    Reflects AllTransferred (match r with
      | none => return none
      | some argChars => do
          let argChars ← readArgChars argChars
          if argChars < 0 then return none else return some (retPrinted + argChars) :
      StdioM (Option ℤ)) := by
  cases r with
  | none => exact reflects_pure _
  | some argChars =>
      exact (reflects_readArgChars argChars).bind fun _ => (reflects_pure _).ite (reflects_pure _)

theorem sure_putDirective {directive : Directive} (retPrinted : ℤ)
    (hfaithful : directive.faithful = true) (h : s.args = directive.arg :: args) :
    Sure AllTransferred (putDirective directive retPrinted) s fun r t =>
      r ≠ none ∧ Wrote s directive.formatted args t := by
  refine (sure_convert hfaithful h).bind (fun r => reflects_putDirective_end r retPrinted)
    fun r t hr => ?_
  obtain ⟨⟨n, rfl, hn⟩, ht⟩ := hr
  exact .ite_neg (not_lt.mpr hn) (yields_pure ⟨nofun, ht⟩).sure

/-- Reading `arg_chars`, where it is not assigned and holds a zero. -/
theorem yields_readArgChars {argChars : Option ℤ} (hgarbage : s.garbage = fun _ => 0)
    (hnonneg : ∀ n, argChars = some n → 0 ≤ n) :
    Yields (readArgChars argChars) s fun r t => 0 ≤ r ∧ Wrote s [] s.args t := by
  cases argChars with
  | some n => exact yields_pure ⟨hnonneg n rfl, wrote_nil⟩
  | none =>
      refine ⟨_, _, rfl, ?_, rfl, rfl, output_record _⟩
      rw [hgarbage]
      exact (by decide : 0 ≤ (0 : BitVec 32).toInt)

theorem done_putDirective {directive : Directive} (retPrinted : ℤ)
    (hgarbage : s.garbage = fun _ => 0) (h : s.args = directive.arg :: args) :
    Done AllTransferred (putDirective directive retPrinted) s fun r t =>
      r ≠ none ∧ ∃ data, data.count 0 = directive.formatted.count 0 + directive.extraNuls ∧
        Wrote s data args t := by
  refine (done_convert directive h).bind (fun r => reflects_putDirective_end r retPrinted)
    fun r t hr => ?_
  obtain ⟨argChars, data, rfl, hnonneg, hcount, ht⟩ := hr
  refine (yields_readArgChars (ht.garbage.trans hgarbage) hnonneg).sure.done.bind
    (fun _ => (reflects_pure _).ite (reflects_pure _)) fun n u hn => ?_
  obtain ⟨hn, hu⟩ := hn
  rw [ht.args] at hu
  have hwrote := ht.trans hu
  rw [List.append_nil] at hwrote
  exact .ite (fun hneg => absurd hn (not_le.mpr hneg)) fun _ =>
    done_pure ⟨nofun, data, hcount, hwrote⟩

def extraNuls (parts : List (Literal × Directive)) : ℕ :=
  (parts.map fun part => part.2.extraNuls).sum

theorem sure_putParts {parts : List (Literal × Directive)} {last : Literal} (retPrinted : ℤ)
    (hfaithful : ∀ part ∈ parts, part.2.faithful = true)
    (h : s.args = parts.map fun part => part.2.arg) :
    Sure AllTransferred (putParts parts last retPrinted) s fun _ t =>
      Wrote s (partsFormatted parts last) [] t := by
  induction parts generalizing s retPrinted with
  | nil =>
      rw [List.map_nil] at h
      exact (sure_putLiteral last retPrinted).mono fun r t hr => h ▸ hr.2
  | cons part parts ih =>
      have hparts := reflects_putParts parts last
      rw [List.map_cons] at h
      refine (sure_putLiteral part.1 retPrinted).bind (reflects_putParts_literal hparts part.2)
        fun r t hr => ?_
      obtain ⟨hr, ht⟩ := hr
      obtain ⟨retPrinted, rfl⟩ := Option.ne_none_iff_exists'.mp hr
      refine (sure_putDirective retPrinted (hfaithful part List.mem_cons_self)
        (ht.args.trans h)).bind (reflects_putParts_directive hparts) fun r u hr => ?_
      obtain ⟨hr, hu⟩ := hr
      obtain ⟨retPrinted, rfl⟩ := Option.ne_none_iff_exists'.mp hr
      refine (ih retPrinted (fun part hpart => hfaithful part (List.mem_cons_of_mem _ hpart))
        hu.args).mono fun r v hv => ?_
      exact ht.trans (hu.trans hv)

theorem done_putParts {parts : List (Literal × Directive)} {last : Literal} (retPrinted : ℤ)
    (hgarbage : s.garbage = fun _ => 0) (h : s.args = parts.map fun part => part.2.arg) :
    Done AllTransferred (putParts parts last retPrinted) s fun _ t =>
      ∃ data, data.count 0 = (partsFormatted parts last).count 0 + extraNuls parts ∧
        Wrote s data [] t := by
  induction parts generalizing s retPrinted with
  | nil =>
      rw [List.map_nil] at h
      exact (sure_putLiteral last retPrinted).done.mono fun r t hr => ⟨last.bytes, rfl, h ▸ hr.2⟩
  | cons part parts ih =>
      have hparts := reflects_putParts parts last
      rw [List.map_cons] at h
      refine (sure_putLiteral part.1 retPrinted).done.bind (reflects_putParts_literal hparts part.2)
        fun r t hr => ?_
      obtain ⟨hr, ht⟩ := hr
      obtain ⟨retPrinted, rfl⟩ := Option.ne_none_iff_exists'.mp hr
      refine (done_putDirective retPrinted (ht.garbage.trans hgarbage)
        (ht.args.trans h)).bind (reflects_putParts_directive hparts) fun r u hr => ?_
      obtain ⟨hr, data, hcount, hu⟩ := hr
      obtain ⟨retPrinted, rfl⟩ := Option.ne_none_iff_exists'.mp hr
      refine (ih retPrinted (hu.garbage.trans (ht.garbage.trans hgarbage)) hu.args).mono
        fun r v hv => ?_
      obtain ⟨rest, hrest, hv⟩ := hv
      refine ⟨part.1.bytes ++ (data ++ rest), ?_, ht.trans (hu.trans hv)⟩
      have hextra : extraNuls (part :: parts) = part.2.extraNuls + extraNuls parts := by
        rw [extraNuls, List.map_cons, List.sum_cons, extraNuls]
      rw [partsFormatted, hextra]
      simp only [List.count_append, hcount, hrest]
      omega

/-! ### The output of `printf` -/

/-- Before a call of `printf`. -/
def start (kernel : List StdioEvent → List Byte → ℤ) (garbage : List StdioEvent → BitVec 32) :
    Stdio :=
  ⟨kernel, garbage, [], []⟩

/-- The assumption that every write call of a run of `printf` transfers all its
bytes, whatever an unassigned variable holds. -/
def WritesTransfer (message : Message) (kernel : List StdioEvent → List Byte → ℤ) : Prop :=
  ∀ garbage, AllTransferred (final (printf message.fmt message.args (start kernel garbage)))

/-- `printf` writes the text of the message and nothing else. -/
def Prints (message : Message) (kernel : List StdioEvent → List Byte → ℤ) : Prop :=
  ∀ garbage, Yields (printf message.fmt message.args) (start kernel garbage) fun _ t =>
    t.output = message.formatted

theorem reflects_finish (r : Option ℤ) : Reflects AllTransferred (finish r) := by
  have hunlock : Reflects AllTransferred unlock := fun s h => AllTransferred.of_record h
  cases r with
  | none => exact hunlock.bind fun _ => reflects_pure _
  | some retPrinted => exact hunlock.bind fun _ => reflects_pure _

theorem yields_finish (r : Option ℤ) :
    Yields (finish r) s fun _ t => t.output = s.output := by
  have houtput : (s.record .unlock).output = s.output :=
    (output_record _).trans (List.append_nil _)
  cases r with
  | none => exact ⟨_, _, rfl, houtput⟩
  | some retPrinted => exact ⟨_, _, rfl, houtput⟩

theorem yields_vaStart (args : List Arg) :
    Yields (vaStart args) s fun _ t => Wrote s [] args t :=
  ⟨_, _, rfl, wrote_args s args⟩

theorem yields_lock : Yields lock s fun _ t => Wrote s [] s.args t :=
  ⟨_, _, rfl, rfl, rfl, output_record _⟩

theorem reflects_lock : Reflects AllTransferred lock := fun _ h => h.of_record

theorem reflects_printf_parts (message : Message) :
    Reflects AllTransferred (do
      let result ← putParts message.parts message.last 0
      finish result) :=
  (reflects_putParts _ _ _).bind reflects_finish

theorem sure_printf {message : Message}
    (hfaithful : ∀ part ∈ message.parts, part.2.faithful = true) :
    Sure AllTransferred (printf message.fmt message.args) s fun _ t =>
      t.output = s.output ++ message.formatted := by
  rw [printf_eq]
  refine (yields_vaStart message.args).sure.bind
    (fun _ => reflects_lock.bind fun _ => reflects_printf_parts message) fun _ t ht => ?_
  refine yields_lock.sure.bind (fun _ => reflects_printf_parts message) fun _ u hu => ?_
  refine (sure_putParts 0 hfaithful (hu.args.trans ht.args)).bind reflects_finish
    fun r v hv => ?_
  refine (yields_finish r).sure.mono fun _ w hw => ?_
  rw [hw, (ht.trans (hu.trans hv)).output]
  rfl

theorem done_printf (message : Message) (hgarbage : s.garbage = fun _ => 0) :
    Done AllTransferred (printf message.fmt message.args) s fun _ t =>
      ∃ data, data.count 0 = message.formatted.count 0 + extraNuls message.parts ∧
        t.output = s.output ++ data := by
  rw [printf_eq]
  refine (yields_vaStart message.args).sure.done.bind
    (fun _ => reflects_lock.bind fun _ => reflects_printf_parts message) fun _ t ht => ?_
  refine yields_lock.sure.done.bind (fun _ => reflects_printf_parts message) fun _ u hu => ?_
  refine (done_putParts 0 (hu.garbage.trans (ht.garbage.trans hgarbage))
    (hu.args.trans ht.args)).bind reflects_finish fun r v hv => ?_
  obtain ⟨data, hcount, hv⟩ := hv
  refine (yields_finish r).sure.done.mono fun _ w hw => ⟨data, hcount, ?_⟩
  rw [hw, (ht.trans (hu.trans hv)).output]
  rfl

theorem faithful_of_extraNuls {parts : List (Literal × Directive)} (h : extraNuls parts = 0) :
    ∀ part ∈ parts, part.2.faithful = true := by
  rw [extraNuls, List.sum_eq_zero_iff_forall_eq_nat] at h
  intro part hpart
  have hzero := h part.2.extraNuls (List.mem_map.mpr ⟨part, hpart, rfl⟩)
  by_contra hne
  rw [Directive.extraNuls, if_neg hne] at hzero
  cases hzero

/-- A kernel that always transfers everything. -/
def transferAll (_ : List StdioEvent) (data : List Byte) : ℤ := data.length

/-- `printf("Hello, world! %d\n", 4)` -/
def helloMessage : Message where
  parts := [(⟨"Hello, world! ".toList.map byteOf, by decide⟩, .int .plain .d 4)]
  last := ⟨"\n".toList.map byteOf, by decide⟩

/-- `printf("%s, %c\n", "Hello", 'A')` -/
def stringMessage : Message where
  parts := [(⟨[], by decide⟩, .s ⟨"Hello".toList.map byteOf, by decide⟩),
    (⟨", ".toList.map byteOf, by decide⟩, .c 65)]
  last := ⟨"\n".toList.map byteOf, by decide⟩

theorem writesTransfer_helloMessage : WritesTransfer helloMessage transferAll := by
  intro garbage
  have hlog : (final (printf helloMessage.fmt helloMessage.args (start transferAll garbage))).log =
      [.lock, .write ("Hello, world! ".toList.map byteOf) 14, .write [byteOf '4', 0] 2,
        .write [byteOf '\n'] 1, .unlock] := rfl
  rw [AllTransferred, hlog]
  decide

theorem writesTransfer_stringMessage : WritesTransfer stringMessage transferAll := by
  intro garbage
  have hlog : (final (printf stringMessage.fmt stringMessage.args
      (start transferAll garbage))).log =
      [.lock, .write ("Hello".toList.map byteOf) 5, .write (", ".toList.map byteOf) 2,
        .write [byteOf 'A'] 1, .write [byteOf '\n'] 1, .unlock] := rfl
  rw [AllTransferred, hlog]
  decide

/-- `printf` writes the text of a message exactly if all its directives are
faithful. -/
theorem printf_output (message : Message) (kernel : List StdioEvent → List Byte → ℤ)
    (htransfer : WritesTransfer message kernel) :
    Prints message kernel ↔ ∀ part ∈ message.parts, part.2.faithful = true := by
  constructor
  · -- with zeros in the unassigned variables the run goes on behind a `%x`, so that
    -- all the NULs of the message are in the output and can be counted
    intro hprints
    obtain ⟨r, t, hrun, houtput⟩ := hprints fun _ => 0
    have hall : AllTransferred t := by
      have h := htransfer fun _ => 0
      rw [hrun] at h
      exact h
    obtain ⟨data, hcount, hdata⟩ := (done_printf message rfl).of_eq hrun hall
    have hsame : data = message.formatted := by
      rw [← houtput, hdata]
      rfl
    rw [hsame] at hcount
    exact faithful_of_extraNuls (by omega)
  · intro hfaithful garbage
    exact (sure_printf hfaithful) (htransfer garbage)

theorem printf_output_stringMessage : Prints stringMessage transferAll :=
  (printf_output stringMessage transferAll writesTransfer_stringMessage).mpr (by decide)

/-- The output of the program in `hello.c` has a NUL in it. -/
theorem printf_hello_nul :
    WritesTransfer helloMessage transferAll ∧ ¬ Prints helloMessage transferAll := by
  refine ⟨writesTransfer_helloMessage, fun hprints => ?_⟩
  have hrun : ∃ t, printf helloMessage.fmt helloMessage.args (start transferAll fun _ => 0) =
      .ok 17 t ∧ t.output = "Hello, world! 4\x00\n".toList.map byteOf := ⟨_, rfl, rfl⟩
  obtain ⟨t, hrun, houtput⟩ := hrun
  have hsame := (hprints fun _ => 0).of_eq hrun
  rw [houtput] at hsame
  exact absurd hsame (by decide)

end Ciabatta.StdlibFile
