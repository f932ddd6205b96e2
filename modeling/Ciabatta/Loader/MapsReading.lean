import Ciabatta.Loader.MapsGrammar
import Ciabatta.Loader.StackDiscovery

/-!
The parser of `stack.c` follows the grammar: from any position of any tape each of its
functions comes, with enough fuel, to where the grammar says, or stops in the trouble
that the grammar names.
-/

namespace Ciabatta.Loader.MapsGrammar

open ByteMemory Exec

/-- In `s` the program comes to the position `w`, with results related by `R`. -/
def Reads {α β : Type} (T : Stream' ReadEvent) (fd : ℤ) (closed : List ℤ) (R : α → β → Prop)
    (x : ℕ → MapsM α) (s : MapsState) (w : Except Trouble (β × ℕ)) : Prop :=
  Meets Trouble.stop (fun a b k t => R a b ∧ On T fd closed k t) x s w

variable {T : Stream' ReadEvent} {fd : ℤ} {closed : List ℤ} {k : ℕ} {s : MapsState}
  {p : ℤ → Prop}

theorem reads_lastChar (h : On T fd closed k s) :
    Reads T fd closed (· = ·) (fun _ => lastChar) s (here T k) :=
  ⟨charAt T k, s, settles_const (by rw [lastChar, h.char]), rfl, h⟩

/-! ### A call of `read_char` -/

theorem reads_readChar (h : On T fd closed k s) :
    Reads T fd closed (· = ·) (fun _ => readChar) s (next T k) := by
  by_cases hfull : T.get k = .full
  · rw [next, if_pos hfull]
    exact (h.stops hfull).halts
  · rw [next, if_neg hfull]
    exact (h.yields hfull).gives

/-! ### Runs of characters -/

/-- What `n` characters make of 0. -/
def scanned (T : Stream' ReadEvent) (f : Word → ℤ → Word) (k n : ℕ) : Word :=
  ((List.range n).map fun m => charAt T (k + m)).foldl f 0

theorem scanned_succ (T : Stream' ReadEvent) (f : Word → ℤ → Word) (k n : ℕ) :
    scanned T f k (n + 1) = f (scanned T f k n) (charAt T (k + n)) := by
  rw [scanned, List.range_succ, List.map_append, List.foldl_append]
  rfl

/-- A round of `read_hex` or `read_dec`, on `result` and `n_digits`. -/
def IsDigitRound (p : ℤ → Prop) [DecidablePred p] (f : Word → ℤ → Word)
    (round : Word × ℕ → MapsM ((Word × ℕ) ⊕ (Word × ℕ))) : Prop :=
  ∀ result nDigits, round (result, nDigits) = (do
    let ch ← lastChar
    if p ch then do
      let _ ← readChar
      let nDigits ← incrementInt nDigits
      return .inl (f result ch, nDigits)
    else
      return .inr (result, nDigits))

/-- The loop, and what is returned behind it. -/
def scanNumber (round : Word × ℕ → MapsM ((Word × ℕ) ⊕ (Word × ℕ))) (fuel : ℕ) :
    MapsM (ℤ × Word) := do
  let (result, nDigits) ← loop round fuel (0, 0)
  return (if nDigits = 0 then -1 else 0, result)

section Digits

variable [DecidablePred p] {f : Word → ℤ → Word}
  {round : Word × ℕ → MapsM ((Word × ℕ) ⊕ (Word × ℕ))} (hround : IsDigitRound p f round)

include hround

theorem yields_digitRound {v : Word} {n : ℕ} (h : On T fd closed k s) (hgo : GoesOn T p k)
    (hn : n + 1 < 2 ^ 31) : Yields (round (v, n)) s fun r t =>
      r = .inl (f v (charAt T k), n + 1) ∧ On T fd closed (k + 1) t := by
  rw [hround, Yields, h.lastChar_bind, if_pos hgo.1]
  refine (h.yields hgo.2).bind fun _ t ht => ?_
  rw [incrementInt, if_pos hn]
  exact yields_pure ⟨rfl, ht.2⟩

/-- The loop over the digits comes to any digit of the run. -/
theorem digits_lead {n : ℕ} (h : On T fd closed k s) (hn : n < 2 ^ 31)
    (hgo : ∀ m < n, GoesOn T p (k + m)) : ∃ t, On T fd closed (k + n) t ∧
      ∀ O, LoopSettles (fun _ => round) (scanned T f k n, n) t O →
        LoopSettles (fun _ => round) (0, 0) s O := by
  obtain ⟨_, t, ⟨rfl, ht⟩, hloop⟩ := exists_after_rounds (n := n)
    (fun n (b : Word × ℕ) s => b = (scanned T f k n, n) ∧ On T fd closed (k + n) s) (by
      rintro m hm _ t ⟨rfl, ht⟩
      refine (yields_digitRound hround ht (hgo m hm) (by omega)).mono ?_
      rintro _ u ⟨rfl, hu⟩
      exact ⟨_, rfl, by rw [scanned_succ], hu⟩) ⟨rfl, h⟩
  exact ⟨t, ht, hloop⟩

/-- The digits of `read_hex` and `read_dec`. -/
theorem reads_digits (h : On T fd closed k s) :
    Reads T fd closed (fun b n => b = (scanned T f k n, n)) (fun fuel => loop round fuel (0, 0)) s
      (run T p (2 ^ 31 : ℕ) .manyDigits k) := by
  rcases run_cases T p (2 ^ 31 : ℕ) .manyDigits k with
    ⟨n, hn, hgo, ⟨hp, heq⟩ | ⟨hp, hfull, heq⟩⟩ | ⟨hgo, heq⟩
  · obtain ⟨t, ht, hloop⟩ := digits_lead hround h (Nat.cast_lt.mp hn) hgo
    rw [heq]
    refine ⟨_, t, (hloop _ (LoopSettles.last (settles_const ?_))).settles, rfl, ht⟩
    rw [hround, ht.lastChar_bind, if_neg hp]
    rfl
  · obtain ⟨t, ht, hloop⟩ := digits_lead hround h (Nat.cast_lt.mp hn) hgo
    rw [heq]
    refine (hloop _ (LoopSettles.halts (Stops.halts ?_))).settles
    rw [hround, Stops, ht.lastChar_bind, if_pos hp]
    exact (ht.stops hfull).bind _
  · have hgo' (n : ℕ) (hn : n < 2 ^ 31) : GoesOn T p (k + n) := hgo n (Nat.cast_lt.mpr hn)
    obtain ⟨t, ht, hloop⟩ :=
      digits_lead hround h (n := 2 ^ 31 - 1) (by norm_num) fun m hm => hgo' m (by omega)
    have hlast := hgo' (2 ^ 31 - 1) (by norm_num)
    rw [heq]
    refine (hloop _ (LoopSettles.halts (Stops.halts ?_))).settles
    rw [hround, Stops, ht.lastChar_bind, if_pos hlast.1]
    exact (ht.yields hlast.2).bind_stops fun _ u _ => stops_throw.bind _

/-- With the number that they make. -/
theorem reads_scan (h : On T fd closed k s) :
    Reads T fd closed (fun r n => r = (if n = 0 then -1 else 0, scanned T f k n))
      (scanNumber round) s (run T p (2 ^ 31 : ℕ) .manyDigits k) := by
  rw [← bind_pure (run T p (2 ^ 31 : ℕ) .manyDigits)]
  refine (reads_digits hround h).bind ?_
  rintro _ n j t ⟨rfl, ht⟩
  exact meets_pure ⟨rfl, ht⟩

theorem reads_number (h : On T fd closed k s) :
    Reads T fd closed (fun r b => r.1 = if b then 0 else -1) (scanNumber round) s
      (number T p k) := by
  refine (reads_digits hround h).bind ?_
  rintro _ n j t ⟨rfl, ht⟩
  refine meets_pure ⟨?_, ht⟩
  by_cases hzero : n = 0
  · simp [hzero]
  · simp [hzero]

end Digits

theorem reads_readHex (h : On T fd closed k s) :
    Reads T fd closed (fun r b => r.1 = if b then 0 else -1) readHex s (number T IsHex k) :=
  reads_number (p := fun ch => charIsHex ch = true)
    (f := fun result ch => result * 16 + BitVec.ofInt 64 (charToHex ch)) (fun _ _ => rfl) h

theorem reads_readDec (h : On T fd closed k s) :
    Reads T fd closed (fun r b => r.1 = if b then 0 else -1) readDec s (number T IsDec k) :=
  reads_number (p := fun ch => chr '0' ≤ ch ∧ ch ≤ chr '9')
    (f := fun result ch => result * 10 + BitVec.ofInt 64 (ch - chr '0')) (fun _ _ => rfl) h

/-- A round that skips a space. -/
theorem yields_spaceRound (h : On T fd closed k s) (hgo : GoesOn T IsSpace k) :
    Yields (skipSpacesRound ()) s fun r t => ∃ c, r = .inl c ∧ On T fd closed (k + 1) t := by
  have hspace : charAt T k = chr ' ' := hgo.1
  rw [skipSpacesRound, Yields, h.lastChar_bind, if_pos hspace]
  exact (h.yields hgo.2).bind fun _ t ht => yields_pure ⟨(), rfl, ht.2⟩

theorem reads_skipSpaces (h : On T fd closed k s) :
    Reads T fd closed (fun _ _ => True) (fun fuel => loop skipSpacesRound fuel ()) s
      (run T IsSpace ⊤ .endlessSpaces k) := by
  rcases run_cases T IsSpace ⊤ .endlessSpaces k with ⟨n, -, hgo, hend⟩ | ⟨hgo, heq⟩
  · obtain ⟨_, t, ht, hloop⟩ := exists_after_rounds (fun n (_ : Unit) s => On T fd closed (k + n) s)
      (fun m hm _ t ht => yields_spaceRound ht (hgo m hm)) h
    rcases hend with ⟨hp, heq⟩ | ⟨hp, hfull, heq⟩
    · rw [heq]
      refine ⟨(), t, (hloop _ (LoopSettles.last (settles_const ?_))).settles, trivial, ht⟩
      have hother : charAt T (k + n) ≠ chr ' ' := hp
      rw [skipSpacesRound, ht.lastChar_bind, if_neg hother]
      rfl
    · rw [heq]
      refine (hloop _ (LoopSettles.halts (Stops.halts ?_))).settles
      have hspace : charAt T (k + n) = chr ' ' := hp
      rw [skipSpacesRound, Stops, ht.lastChar_bind, if_pos hspace]
      exact (ht.stops hfull).bind _
  · rw [heq]
    refine halts_of_stops (stops_endless (fun _ s => ∃ n : ℕ, On T fd closed (k + n) s) ?_ ⟨0, h⟩)
    rintro - t ⟨n, ht⟩
    refine (yields_spaceRound ht (hgo n (ENat.natCast_lt_top n))).mono ?_
    rintro _ u ⟨c, rfl, hu⟩
    exact ⟨c, rfl, n + 1, hu⟩

/-- A round that copies a character of the name. -/
theorem yields_nameRound {nameBuf : List Byte} (h : On T fd closed k s)
    (hgo : GoesOn T (¬ EndsLine ·) k) (hroom : nameBuf.length < nameBufSize) :
    Yields (readNameRound nameBuf) s fun r t => ∃ c, r = .inl c ∧
      c.length = nameBuf.length + 1 ∧ On T fd closed (k + 1) t := by
  rw [readNameRound, Yields, h.lastChar_bind, if_pos ⟨hroom, not_or.mp hgo.1⟩]
  refine (h.yields hgo.2).bind fun _ t ht => yields_pure ⟨_, rfl, ?_, ht.2⟩
  rw [List.length_append, List.length_singleton]

theorem name_lead {n : ℕ} (h : On T fd closed k s) (hn : n ≤ nameBufSize)
    (hgo : ∀ m < n, GoesOn T (¬ EndsLine ·) (k + m)) :
    ∃ nameBuf t, (nameBuf.length = n ∧ On T fd closed (k + n) t) ∧
      ∀ O, LoopSettles (fun _ => readNameRound) nameBuf t O →
        LoopSettles (fun _ => readNameRound) [] s O := by
  refine exists_after_rounds
    (fun n (nameBuf : List Byte) s => nameBuf.length = n ∧ On T fd closed (k + n) s) ?_ ⟨rfl, h⟩
  rintro m hm nameBuf t ⟨rfl, ht⟩
  exact yields_nameRound ht (hgo _ hm) (by omega)

theorem reads_readName (h : On T fd closed k s) :
    Reads T fd closed (fun nameBuf n => nameBuf.length = n) readName s
      (run T (¬ EndsLine ·) nameBufSize .longName k) := by
  rcases run_cases T (¬ EndsLine ·) nameBufSize .longName k with
    ⟨n, hn, hgo, hend⟩ | ⟨hgo, heq⟩
  · have hroom : n < nameBufSize := Nat.cast_lt.mp hn
    obtain ⟨nameBuf, t, ⟨rfl, ht⟩, hloop⟩ := name_lead h hroom.le hgo
    rcases hend with ⟨hp, heq⟩ | ⟨hp, hfull, heq⟩
    · rw [heq]
      have hcopied : Gives (fun fuel => loop readNameRound fuel []) s nameBuf t := by
        refine (hloop _ (LoopSettles.last (settles_const ?_))).settles
        rw [readNameRound, ht.lastChar_bind, if_neg fun hin => hp (not_or.mpr hin.2)]
        rfl
      refine ⟨nameBuf, t, hcopied.bind (settles_const ?_), rfl, ht⟩
      rw [if_pos hroom]
      rfl
    · rw [heq]
      refine Halts.bind (hloop _ (LoopSettles.halts (Stops.halts ?_))).settles _
      rw [readNameRound, Stops, ht.lastChar_bind, if_pos ⟨hroom, not_or.mp hp⟩]
      exact (ht.stops hfull).bind _
  · obtain ⟨nameBuf, t, ⟨hlength, ht⟩, hloop⟩ :=
      name_lead h le_rfl fun m hm => hgo m (Nat.cast_lt.mpr hm)
    have hcopied : Gives (fun fuel => loop readNameRound fuel []) s nameBuf t := by
      refine (hloop _ (LoopSettles.last (settles_const ?_))).settles
      rw [readNameRound, ht.lastChar_bind, if_neg fun hin => hin.1.ne hlength]
      rfl
    rw [heq]
    change Halts (fun fuel => loop readNameRound fuel [] >>= fun nameBuf =>
      if nameBuf.length < nameBufSize then pure nameBuf else throw .outOfBounds) s .outOfBounds
    refine hcopied.bind (Stops.halts ?_)
    rw [if_neg hlength.not_lt]
    exact stops_throw

/-! ### The parts of a line -/

theorem reads_sees {c : Char} (h : On T fd closed k s) :
    Reads T fd closed (fun ch b => ch = chr c ↔ b = true) (fun _ => lastChar) s (sees T c k) := by
  refine (reads_lastChar h).returning ?_
  rintro ch _ j t ⟨rfl, ht⟩
  exact ⟨by simp, ht⟩

theorem reads_present (h : On T fd closed k s) :
    Reads T fd closed (fun ch b => ch < 0 ↔ b = false) (fun _ => readChar) s (present T k) := by
  refine (reads_readChar h).returning ?_
  rintro ch _ j t ⟨rfl, ht⟩
  exact ⟨by simp, ht⟩

theorem reads_readAddrs (h : On T fd closed k s) :
    Reads T fd closed (fun r b => r.isSome = b) readAddrs s (addrs T k) := by
  refine (reads_readHex h).and ?_ ?_
  · rintro ⟨_, startAddr⟩ j t ⟨rfl, ht⟩
    refine (reads_sees ht).and ?_ ?_
    · rintro ch j t ⟨hdash, ht⟩
      simp only [ne_eq, hdash.mpr rfl, not_true_eq_false, if_false]
      refine (reads_present ht).and ?_ ?_
      · rintro ch j t ⟨hneg, ht⟩
        have hthere : ¬ ch < 0 := by simp [hneg]
        simp only [if_neg hthere]
        refine (reads_readHex ht).and ?_ ?_
        · rintro ⟨_, endAddr⟩ j t ⟨rfl, ht⟩
          refine (reads_present ht).map ?_
          rintro ch b j t ⟨hneg, ht⟩
          cases b with
          | true => exact ⟨some _, fun _ => if_neg (by simp [hneg]), rfl, ht⟩
          | false => exact ⟨none, fun _ => if_pos (hneg.mpr rfl), rfl, ht⟩
        · rintro ⟨_, endAddr⟩ j t ⟨rfl, ht⟩
          exact ⟨none, fun _ => rfl, rfl, ht⟩
      · rintro ch j t ⟨hneg, ht⟩
        exact ⟨none, fun _ => if_pos (hneg.mpr rfl), rfl, ht⟩
    · rintro ch j t ⟨hdash, ht⟩
      exact ⟨none, fun _ => if_pos (mt hdash.mp Bool.false_ne_true), rfl, ht⟩
  · rintro ⟨_, startAddr⟩ j t ⟨rfl, ht⟩
    exact ⟨none, fun _ => rfl, rfl, ht⟩

/-- The flags count as skipped: no grammar depends on them. -/
theorem reads_readFlag {c : Char} {bit flags : BitVec 32} (h : On T fd closed k s) :
    Reads T fd closed (fun _ _ => True) (fun _ => readFlag c bit flags) s (next T k) := by
  change Reads T fd closed _ _ s ((here T >>= fun _ => next T) k)
  refine (reads_lastChar h).bind fun ch _ j t ht => (reads_readChar ht.2).map ?_
  exact fun _ _ _ _ hu => ⟨_, fun _ => rfl, trivial, hu.2⟩

theorem reads_readFlags (h : On T fd closed k s) :
    Reads T fd closed (fun _ _ => True) (fun _ => readFlags) s (skip T 4 k) := by
  refine (reads_readFlag h).bind fun _ _ _ t ht => (reads_readFlag ht.2).bind fun _ _ _ u hu => ?_
  refine (reads_readFlag hu.2).bind fun _ _ _ v hv => (reads_readFlag hv.2).returning ?_
  exact fun _ _ _ _ hw => hw

theorem loop_skipRound_succ {i rounds : ℕ} (hi : i < 16) :
    loop skipRound (rounds + 1) i = readChar >>= fun _ => loop skipRound rounds (i + 1) := by
  rw [loop, skipRound, if_pos hi.ne, bind_assoc]
  rfl

theorem reads_skipRounds {i n rounds : ℕ} (hn : i + n = 16) (hrounds : n < rounds)
    (h : On T fd closed k s) :
    Reads T fd closed (fun _ _ => True) (fun _ => loop skipRound rounds i) s (skip T n k) := by
  induction n generalizing i k rounds s with
  | zero =>
      obtain ⟨rounds, rfl⟩ := Nat.exists_eq_add_of_lt hrounds
      obtain rfl : i = 16 := hn
      refine ⟨(), s, settles_const ?_, trivial, h⟩
      rw [Nat.zero_add, loop]
      rfl
  | succ n ih =>
      obtain ⟨rounds, rfl⟩ := Nat.exists_eq_add_of_le' (Nat.one_le_of_lt hrounds)
      simp only [@loop_skipRound_succ i rounds (by omega)]
      exact (reads_readChar h).bind fun _ _ _ t ht => ih (by omega) (by omega) ht.2

theorem reads_readMapping (h : On T fd closed k s) :
    Reads T fd closed (fun r b => r.isSome = b) readMapping s (mapping T k) := by
  refine (reads_readAddrs h).and ?_ ?_
  · rintro r j t ⟨hsome, ht⟩
    obtain ⟨⟨startAddr, endAddr⟩, rfl⟩ := Option.isSome_iff_exists.mp hsome
    refine (reads_readFlags ht).bind fun flags _ _ u hu => ?_
    refine (reads_skipRounds (i := 0) rfl (by decide) hu.2).bind fun _ _ _ v hv => ?_
    refine (reads_readDec hv.2).map ?_
    rintro ⟨_, inode⟩ b j t ⟨rfl, ht⟩
    cases b with
    | true => exact ⟨some _, fun _ => rfl, rfl, ht⟩
    | false => exact ⟨none, fun _ => rfl, rfl, ht⟩
  · rintro r j t ⟨hnone, ht⟩
    obtain rfl := Option.isNone_iff_eq_none.mp (Option.isSome_eq_false_iff.mp hnone)
    exact ⟨none, fun _ => rfl, rfl, ht⟩

theorem reads_skipNewline (h : On T fd closed k s) :
    Reads T fd closed (fun _ _ => True) (fun _ => skipNewline) s (newline T k) := by
  refine (reads_lastChar h).bind ?_
  rintro ch _ j t ⟨rfl, ht⟩
  refine Meets.ite Iff.rfl (fun _ => ?_) fun _ => meets_pure ⟨trivial, ht⟩
  exact (reads_readChar ht).bind fun _ _ _ u hu => meets_pure ⟨trivial, hu.2⟩

/-- The file is closed at every return but at that from a malformed line. -/
def ClosedAt (fd : ℤ) (closed : List ℤ) (verdict : Verdict) (t : MapsState) : Prop :=
  t.closed = if verdict = .malformed then closed else fd :: closed

/-- Where a line leaves the parser: at the next line or at a return. -/
def Leaves (T : Stream' ReadEvent) (fd : ℤ) (closed : List ℤ) (r : Unit ⊕ ℤ)
    (o : Option Verdict) (k : ℕ) (t : MapsState) : Prop :=
  match o with
  | none => r = .inl () ∧ On T fd closed k t
  | some verdict => r = .inr verdict.result ∧ ClosedAt fd closed verdict t

theorem yields_sysClose (h : On T fd closed k s) :
    Yields sysClose s fun _ t => t.closed = fd :: closed :=
  ⟨(), _, rfl, by rw [← h.started.fd, ← h.started.closed]⟩

theorem yields_found {nameBuf : List Byte} {startAddr endAddr : Word} {flags : BitVec 32}
    (h : On T fd closed k s) :
    Yields (do
      loop (compareRound nameBuf) 8 0
      foundStack startAddr endAddr flags
      sysClose
      return .inr 0) s fun r t => Leaves T fd closed r (some .stack) k t := by
  refine (yields_compare nameBuf).bind ?_
  rintro _ t rfl
  exact ⟨.inr 0, _, rfl, rfl, by rw [← h.started.fd, ← h.started.closed]; rfl⟩

theorem meets_matchName {startAddr endAddr : Word} {flags : BitVec 32}
    (h : On T fd closed k s) :
    Meets Trouble.stop (Leaves T fd closed) (fun fuel => matchName fuel startAddr endAddr flags) s
      (name T k) := by
  refine (reads_lastChar h).bind ?_
  rintro ch _ j t ⟨rfl, ht⟩
  refine Meets.ite Iff.rfl (fun _ => meets_pure ⟨rfl, ht⟩) fun _ => ?_
  refine (reads_skipSpaces ht).bind fun _ _ _ u hu => ?_
  refine (reads_readName hu.2).bind ?_
  rintro nameBuf _ j v ⟨rfl, hv⟩
  by_cases hseven : nameBuf.length = 7
  · simp only [hseven, ne_eq, not_true_eq_false, if_false]
    exact (yields_found hv).gives
  · simp only [ne_eq, hseven, not_false_eq_true, if_true]
    exact meets_pure ⟨rfl, hv⟩

theorem meets_lineRound (h : On T fd closed k s) :
    Meets Trouble.stop (Leaves T fd closed) (fun fuel => lineRound fuel ()) s (line T k) := by
  refine (reads_lastChar h).bind ?_
  rintro ch _ j t ⟨rfl, ht⟩
  refine Meets.ite Iff.rfl (fun _ => ?_) fun _ => ?_
  · exact (Yields.bind (yields_sysClose ht) fun _ u hu => yields_pure ⟨rfl, hu⟩).gives
  refine (reads_skipNewline ht).bind fun _ _ _ u hu => ?_
  refine (reads_readMapping hu.2).bind ?_
  rintro r b j v ⟨rfl, hv⟩
  cases r with
  | none => exact meets_pure ⟨rfl, hv.started.closed⟩
  | some mapping => exact meets_matchName hv

end Ciabatta.Loader.MapsGrammar
