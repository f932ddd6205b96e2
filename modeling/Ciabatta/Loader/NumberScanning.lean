import Ciabatta.Loader.MapsReading
import Ciabatta.Loader.Radix

/-!
`read_hex` and `read_dec` (`stack.c`) on any stream that brings a run of digits.
-/

namespace Ciabatta.Loader

open ByteMemory Exec MapsGrammar

/-! ### Streams -/

/-- The events of a read, whether it leaves room for the NUL or not. -/
def ReadResult.delivered : ReadResult → List ReadEvent
  | .error => [.error]
  | .data [] => [.eof]
  | .data bytes => bytes.map .char

theorem ReadResult.delivered_ne_nil (result : ReadResult) : result.delivered ≠ [] := by
  cases result with
  | error => simp [delivered]
  | data bytes => cases bytes <;> simp [delivered]

/-- What is left in the buffer and what the reads will bring. -/
def incoming (s : MapsState) : Stream' ReadEvent :=
  Stream'.appendStream' ((s.buffer.data.drop s.buffer.offset).map .char)
    (Stream'.appendStream' (s.reads.flatMap ReadResult.delivered)
      (Stream'.cycle s.after.delivered s.after.delivered_ne_nil))

/-- As far as `A` has no read that fills the buffer, it is `B`. -/
def AgreesInside (A B : Stream' ReadEvent) : Prop :=
  ∀ m, (∀ i ≤ m, A.get i ≠ .full) → A.get m = B.get m

theorem agreesInside_refl (A : Stream' ReadEvent) : AgreesInside A A :=
  fun _ _ => rfl

theorem agreesInside_full (A B : Stream' ReadEvent) (h : A.get 0 = .full) : AgreesInside A B :=
  fun m hm => absurd h (hm 0 (Nat.zero_le m))

theorem AgreesInside.append {A B : Stream' ReadEvent} (h : AgreesInside A B)
    (es : List ReadEvent) :
    AgreesInside (Stream'.appendStream' es A) (Stream'.appendStream' es B) := by
  intro m hm
  rcases lt_or_ge m es.length with hlt | hge
  · rw [Stream'.get_append_left _ _ _ hlt, Stream'.get_append_left _ _ _ hlt]
  · obtain ⟨k, rfl⟩ := Nat.exists_eq_add_of_le hge
    rw [Stream'.get_append_right, Stream'.get_append_right]
    refine h k fun i hi => ?_
    rw [← Stream'.get_append_right i es A]
    exact hm _ (Nat.add_le_add_left hi _)

theorem ReadResult.events_eq (result : ReadResult) :
    result.events = result.delivered ∨ result.events = [.full] := by
  cases result with
  | error => exact .inl rfl
  | data bytes =>
      cases bytes with
      | nil => exact .inl rfl
      | cons c bytes =>
          by_cases hroom : (c :: bytes).length < lineBufSize
          · exact .inl (if_pos hroom)
          · exact .inr (if_neg hroom)

theorem agreesInside_reads {A B : Stream' ReadEvent} (h : AgreesInside A B)
    (reads : List ReadResult) :
    AgreesInside (Stream'.appendStream' (reads.flatMap ReadResult.events) A)
      (Stream'.appendStream' (reads.flatMap ReadResult.delivered) B) := by
  induction reads with
  | nil => exact h
  | cons result reads ih =>
      rw [List.flatMap_cons, List.flatMap_cons, Stream'.append_append_stream,
        Stream'.append_append_stream]
      rcases result.events_eq with heq | hfull
      · rw [heq]
        exact ih.append _
      · rw [hfull]
        exact agreesInside_full _ _ rfl

theorem agreesInside_cycle {es fs : List ReadEvent} (hes : es ≠ []) (hfs : fs ≠ [])
    (h : es = fs ∨ es = [.full]) :
    AgreesInside (Stream'.cycle es hes) (Stream'.cycle fs hfs) := by
  rcases h with rfl | rfl
  · exact agreesInside_refl _
  · refine agreesInside_full _ _ ?_
    rw [Stream'.cycle_singleton, Stream'.get_const]

/-- The calls of `read_char` meet what comes in, up to a read that fills the buffer. -/
theorem agreesInside_pending (s : MapsState) : AgreesInside (pending s) (incoming s) :=
  (agreesInside_reads (agreesInside_cycle _ _ s.after.events_eq) s.reads).append _

/-! ### A run of digits -/

/-- What comes behind the digits: another character, or the end of the file. -/
def behind : Option Byte → ReadEvent
  | some c => .char c
  | none => .eof

/-- A run of digits, with what comes behind it. -/
def numberText (digits : List Byte) (next : Option Byte) : List ReadEvent :=
  digits.map .char ++ [behind next]

/-- From `last_char` on come these events, those behind the first one along `A`. -/
structure Brings (A : Stream' ReadEvent) (es : List ReadEvent) (s : MapsState) : Prop where
  size : s.buffer.lastReadSize = s.buffer.data.length
  dataSize : s.buffer.dataSize = lineBufSize
  char : s.buffer.lastChar = (es.headD .eof).returned
  rest : ∃ U, A = Stream'.appendStream' es.tail U

/-- None of the next `n` calls of `read_char` meets a read that fills the buffer. -/
def RoomFor (s : MapsState) (n : ℕ) : Prop :=
  ∀ m < n, (pending s).get m ≠ .full

/-- The tape on which `last_char` is the first position. -/
def tapeFrom (es : List ReadEvent) (s : MapsState) : Stream' ReadEvent :=
  Stream'.cons (es.headD .eof) (pending s)

variable {A : Stream' ReadEvent} {s : MapsState} {digits : List Byte} {next : Option Byte} {n m : ℕ}

theorem length_numberText (digits : List Byte) (next : Option Byte) :
    (numberText digits next).length = digits.length + 1 := by
  simp [numberText]

/-- A text has no errors and no reads that fill the buffer. -/
theorem of_mem_numberText {e : ReadEvent} (he : e ∈ numberText digits next) :
    e ≠ .full ∧ ∀ ch, e.leaves ch = e.returned := by
  rcases List.mem_append.mp he with hmem | hmem
  · obtain ⟨c, -, rfl⟩ := List.mem_map.mp hmem
    exact ⟨nofun, fun _ => rfl⟩
  · rw [List.mem_singleton.mp hmem]
    cases next with
    | some c => exact ⟨nofun, fun _ => rfl⟩
    | none => exact ⟨nofun, fun _ => rfl⟩

theorem on_of_brings (h : Brings A (numberText digits next) s) :
    On (tapeFrom (numberText digits next) s) s.buffer.fd s.closed 1 s := by
  have hfirst : (numberText digits next).headD .eof ∈ numberText digits next := by
    cases digits with
    | nil => exact List.mem_singleton_self _
    | cons c digits => exact List.mem_cons_self
  refine ⟨⟨rfl, h.size, h.dataSize, rfl, rfl⟩, ?_⟩
  rw [h.char]
  exact ((of_mem_numberText hfirst).2 0).symm

/-- The events of the tape, as far as the reads leave room. -/
theorem get_tapeFrom {es : List ReadEvent} {e : ReadEvent} (h : Brings A es s)
    (hagrees : AgreesInside (pending s) A) (hroom : RoomFor s m) (he : es[m]? = some e) :
    (tapeFrom es s).get m = e := by
  obtain ⟨U, hU⟩ := h.rest
  cases es with
  | nil => simp at he
  | cons e' es =>
      cases m with
      | zero => exact Option.some.inj he
      | succ m =>
          obtain ⟨hm, rfl⟩ := List.getElem?_eq_some_iff.mp he
          have htail : m < es.length := Nat.lt_of_succ_lt_succ hm
          change (pending s).get m = es[m]
          rw [hagrees m fun i hi => hroom i (Nat.lt_succ_of_le hi), hU]
          exact Stream'.get_append_left _ _ _ htail

theorem charAt_tapeFrom {e : ReadEvent} (h : Brings A (numberText digits next) s)
    (hagrees : AgreesInside (pending s) A) (hroom : RoomFor s m)
    (he : (numberText digits next)[m]? = some e) :
    charAt (tapeFrom (numberText digits next) s) (1 + m) = e.returned := by
  rw [Nat.add_comm, charAt, get_tapeFrom h hagrees hroom he]
  exact (of_mem_numberText (List.mem_of_getElem? he)).2 _

/-- A digit of the run. -/
theorem charAt_digit (h : Brings A (numberText digits next) s)
    (hagrees : AgreesInside (pending s) A) (hroom : RoomFor s m) (hm : m < digits.length) :
    charAt (tapeFrom (numberText digits next) s) (1 + m) = (digits[m]).toInt := by
  refine charAt_tapeFrom h hagrees hroom (e := .char digits[m]) ?_
  rw [numberText, List.getElem?_append_left (by rwa [List.length_map]), List.getElem?_map,
    List.getElem?_eq_getElem hm]
  rfl

/-- The character behind it. -/
theorem charAt_behind (h : Brings A (numberText digits next) s)
    (hagrees : AgreesInside (pending s) A) (hroom : RoomFor s digits.length) :
    charAt (tapeFrom (numberText digits next) s) (1 + digits.length) = (behind next).returned := by
  refine charAt_tapeFrom h hagrees hroom ?_
  rw [numberText, List.getElem?_append_right (by rw [List.length_map]), List.length_map,
    Nat.sub_self]
  rfl

theorem RoomFor.mono {k : ℕ} (h : RoomFor s n) (hk : k ≤ n) : RoomFor s k :=
  fun m hm => h m (hm.trans_le hk)

/-- What the calls of `read_char` bring has no such read. -/
theorem roomFor_of_brings (h : Brings (pending s) (numberText digits next) s) :
    RoomFor s digits.length := by
  obtain ⟨U, hU⟩ := h.rest
  intro m hm
  have htail : m < (numberText digits next).tail.length := by
    rwa [List.length_tail, length_numberText, Nat.add_sub_cancel]
  rw [hU, Stream'.get_append_left _ _ _ htail]
  exact (of_mem_numberText (List.mem_of_mem_tail (List.getElem_mem htail))).1

/-! ### The scan -/

section Scan

variable {p : ℤ → Prop} (h : Brings A (numberText digits next) s)
  (hagrees : AgreesInside (pending s) A) (hdigits : ∀ c ∈ digits, p c.toInt)
  (hnext : ¬ p (behind next).returned)

include h hagrees hdigits hnext

/-- The run on the tape is the run of the digits. -/
theorem eq_length_of_goesOn (hgo : ∀ m < n, GoesOn (tapeFrom (numberText digits next) s) p (1 + m))
    (hend : ¬ p (charAt (tapeFrom (numberText digits next) s) (1 + n))) :
    n = digits.length ∧ RoomFor s n := by
  have hroom : RoomFor s n := by
    intro m hm
    have hfull := (hgo m hm).2
    rwa [Nat.add_comm] at hfull
  refine ⟨?_, hroom⟩
  rcases lt_trichotomy n digits.length with hlt | heq | hgt
  · rw [charAt_digit h hagrees hroom hlt] at hend
    exact absurd (hdigits _ (List.getElem_mem hlt)) hend
  · exact heq
  · have hgoes := (hgo digits.length hgt).1
    rw [charAt_behind h hagrees (hroom.mono hgt.le)] at hgoes
    exact absurd hgoes hnext

theorem run_eq_ok_iff {r : ℕ × ℕ} :
    MapsGrammar.run (tapeFrom (numberText digits next) s) p (2 ^ 31 : ℕ) .manyDigits 1 = .ok r ↔
      r = (digits.length, 1 + digits.length) ∧ digits.length < 2 ^ 31 ∧
        RoomFor s digits.length := by
  have hbehind : RoomFor s digits.length →
      ¬ p (charAt (tapeFrom (numberText digits next) s) (1 + digits.length)) := by
    intro hroom
    rwa [charAt_behind h hagrees hroom]
  rcases run_cases (tapeFrom (numberText digits next) s) p (2 ^ 31 : ℕ) .manyDigits 1 with
    ⟨n, hn, hgo, ⟨hp, heq⟩ | ⟨hp, hfull, heq⟩⟩ | ⟨hgo, heq⟩
  · obtain ⟨rfl, hroom⟩ := eq_length_of_goesOn h hagrees hdigits hnext hgo hp
    rw [heq, Except.ok.injEq]
    exact ⟨fun hr => ⟨hr.symm, Nat.cast_lt.mp hn, hroom⟩, fun hr => hr.1.symm⟩
  · rw [heq]
    refine iff_of_false nofun ?_
    rintro ⟨-, -, hroom⟩
    rcases lt_trichotomy n digits.length with hlt | rfl | hgt
    · rw [Nat.add_comm] at hfull
      exact hroom n hlt hfull
    · exact hbehind hroom hp
    · exact hbehind hroom (hgo digits.length hgt).1
  · rw [heq]
    refine iff_of_false nofun ?_
    rintro ⟨-, hlength, hroom⟩
    exact hbehind hroom (hgo digits.length (Nat.cast_lt.mpr hlength)).1

omit hdigits hnext in
/-- The number that the loop makes of the digits. -/
theorem scanned_tapeFrom (f : Word → ℤ → Word) (hroom : RoomFor s digits.length) :
    scanned (tapeFrom (numberText digits next) s) f 1 digits.length =
      (digits.map BitVec.toInt).foldl f 0 := by
  rw [scanned]
  congr 1
  apply List.ext_getElem
  · simp
  · intro m hm _
    rw [List.length_map, List.length_range] at hm
    rw [List.getElem_map, List.getElem_range, List.getElem_map]
    exact charAt_digit h hagrees (hroom.mono hm.le) hm

variable [DecidablePred p] {f : Word → ℤ → Word} {v : Word}
  {round : Word × ℕ → MapsM ((Word × ℕ) ⊕ (Word × ℕ))} (hround : IsDigitRound p f round)

include hround

/-- Where the run ends, the reader returns. -/
theorem gives_scan (hlength : digits.length < 2 ^ 31) (hroom : RoomFor s digits.length) :
    ∃ t, Gives (scanNumber round) s
        (if digits = [] then -1 else 0, (digits.map BitVec.toInt).foldl f 0) t ∧
      t.buffer.lastChar = (behind next).returned := by
  have hreads := reads_scan hround (on_of_brings h)
  rw [(run_eq_ok_iff h hagrees hdigits hnext).mpr ⟨rfl, hlength, hroom⟩] at hreads
  obtain ⟨_, t, hgives, rfl, ht⟩ := hreads
  rw [scanned_tapeFrom h hagrees f hroom] at hgives
  refine ⟨t, ?_, ht.char.trans (charAt_behind h hagrees hroom)⟩
  simpa only [List.length_eq_zero_iff] using hgives

omit hagrees hdigits in
/-- An empty run takes one round, which consumes nothing. -/
theorem scan_nil (hnil : digits = []) : scanNumber round 1 s = .ok (-1, 0) s := by
  subst hnil
  have hon := on_of_brings h
  have hend : ¬ p (charAt (tapeFrom (numberText [] next) s) 1) := by rwa [← hon.char, h.char]
  have hlast : round (0, 0) s = .ok (.inr (0, 0)) s := by
    rw [hround, hon.lastChar_bind, if_neg hend]
    rfl
  rw [scanNumber, loop, bind_assoc, bind_of_ok hlast]
  rfl

/-- The reader returns `v` for the run if and only if it comes to its end, and makes `v`
of the digits. -/
theorem scan_iff :
    (∃ fuel t, scanNumber round fuel s = .ok (if digits = [] then -1 else 0, v) t ∧
      t.buffer.lastChar = (behind next).returned ∧ (digits = [] → t = s)) ↔
    digits.length < 2 ^ 31 ∧ RoomFor s digits.length ∧
      (digits.map BitVec.toInt).foldl f 0 = v := by
  constructor
  · rintro ⟨fuel, t, hok, -, -⟩
    have hreads := reads_scan hround (on_of_brings h)
    cases hrun : run (tapeFrom (numberText digits next) s) p (2 ^ 31 : ℕ) .manyDigits 1 with
    | error trouble =>
        rw [hrun] at hreads
        exact absurd hok (Halts.ne_ok hreads fuel)
    | ok r =>
        obtain ⟨rfl, hlength, hroom⟩ := (run_eq_ok_iff h hagrees hdigits hnext).mp hrun
        obtain ⟨u, hgives, -⟩ := gives_scan h hagrees hdigits hnext hround hlength hroom
        exact ⟨hlength, hroom, congrArg Prod.snd (eq_of_ok (hgives.of_ok hok)).1⟩
  · rintro ⟨hlength, hroom, rfl⟩
    obtain ⟨t, hgives, hchar⟩ := gives_scan h hagrees hdigits hnext hround hlength hroom
    obtain ⟨fuel, hok⟩ := hgives.exists_ok
    refine ⟨fuel, t, hok, hchar, fun hnil => ?_⟩
    exact (eq_of_ok (hgives.of_ok (scan_nil h hnext hround hnil))).2

end Scan

/-! ### The readers -/

/-- The reader stores the number of the run and stops behind it; an empty run it does not
touch. -/
def Scans (radix : Radix) (digits : List Byte) (next : Option Byte) (s : MapsState) : Prop :=
  ∃ fuel t, radix.read fuel s =
      .ok (if digits = [] then -1 else 0, BitVec.ofNat 64 (radix.number digits)) t ∧
    t.buffer.lastChar = (behind next).returned ∧ (digits = [] → t = s)

theorem scans_iff_foldl (radix : Radix) (h : Brings A (numberText digits next) s)
    (hagrees : AgreesInside (pending s) A) (hdigits : ∀ c ∈ digits, radix.IsDigit c.toInt)
    (hnext : ¬ radix.IsDigit (behind next).returned) :
    Scans radix digits next s ↔ digits.length < 2 ^ 31 ∧ RoomFor s digits.length ∧
      (digits.map BitVec.toInt).foldl radix.step 0 = BitVec.ofNat 64 (radix.number digits) := by
  cases radix with
  | hex => exact scan_iff (p := IsHex) h hagrees hdigits hnext fun _ _ => rfl
  | dec => exact scan_iff (p := IsDec) h hagrees hdigits hnext fun _ _ => rfl

/-- The readers take a run of digits if and only if an `int` counts them, no read on the
way fills the buffer, and none of the last fifteen is a capital letter. -/
theorem scans_iff (radix : Radix) (h : Brings (incoming s) (numberText digits next) s)
    (hdigits : ∀ c ∈ digits, radix.IsDigit c.toInt)
    (hnext : ¬ radix.IsDigit (behind next).returned) :
    Scans radix digits next s ↔ digits.length < 2 ^ 31 ∧ RoomFor s digits.length ∧
      ∀ c ∈ digits.reverse.take 15, ¬ IsCapital c := by
  rw [scans_iff_foldl radix h (agreesInside_pending s) hdigits hnext,
    Radix.foldl_step_eq_iff hdigits, Radix.dvd_capitals_iff hdigits]

/-- A file whose last character is `c`. -/
def lastCharFile (c : Byte) : MapsState :=
  { mapsFile [] with reads := [], buffer := ⟨3, [c], lineBufSize, 1, 1, c.toInt⟩ }

theorem brings_lastCharFile (c : Byte) :
    Brings (incoming (lastCharFile c)) (numberText [c] none) (lastCharFile c) := by
  have hincoming : incoming (lastCharFile c) = Stream'.const .eof := Stream'.cycle_singleton _
  refine ⟨rfl, rfl, rfl, Stream'.const .eof, ?_⟩
  rw [hincoming]
  exact Stream'.const_eq _

/-- The number 7f0 in front of a `-`, cut between two reads. The first character was read. -/
def cutNumber : MapsState :=
  { mapsFile [] with
    reads := [.data [byteOf '0', byteOf '-']]
    buffer := ⟨3, [byteOf '7', byteOf 'f'], lineBufSize, 2, 1, (byteOf '7').toInt⟩ }

theorem scans_cutNumber :
    Scans .hex [byteOf '7', byteOf 'f', byteOf '0'] (some (byteOf '-')) cutNumber := by
  have hbrings : Brings (incoming cutNumber)
      (numberText [byteOf '7', byteOf 'f', byteOf '0'] (some (byteOf '-'))) cutNumber :=
    ⟨rfl, rfl, rfl, _, rfl⟩
  have hroom : RoomFor cutNumber 3 := by
    unfold RoomFor
    decide
  exact (scans_iff .hex hbrings (by decide) (by decide)).mpr ⟨by decide, hroom, by decide⟩

/-- The letter `A` comes out as -22. -/
theorem scans_fails : ¬ ∀ radix digits next s, Brings (incoming s) (numberText digits next) s →
    (∀ c ∈ digits, radix.IsDigit c.toInt) → ¬ radix.IsDigit (behind next).returned →
    Scans radix digits next s := by
  intro hscans
  have hbrings := brings_lastCharFile (byteOf 'A')
  have hdigits : ∀ c ∈ [byteOf 'A'], Radix.hex.IsDigit c.toInt := by decide
  have hnext : ¬ Radix.hex.IsDigit (behind none).returned := by decide
  have hscan := hscans .hex _ _ _ hbrings hdigits hnext
  rw [scans_iff_foldl _ hbrings (agreesInside_pending _) hdigits hnext] at hscan
  exact absurd hscan.2.2 (by decide)

end Ciabatta.Loader
