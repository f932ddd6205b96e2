import Ciabatta.Loader.MapsRuns

/-!
The parser of `stack.c` returns if no line that a run comes to holds it up: each line
takes it on along the tape, and behind the last successful read no line begins.
-/

namespace Ciabatta.Loader

open ByteMemory Exec MapsGrammar

namespace MapsGrammar

variable {α β : Type} {T : Stream' ReadEvent} {p : ℤ → Prop} {k j : ℕ}

/-! ### Progress -/

/-- The reading never goes back. -/
def Forward (m : Reading α) : Prop := ∀ k a j, m k = .ok (a, j) → k ≤ j

theorem exists_of_bind_eq {m : Reading α} {f : α → Reading β} {b : β}
    (h : (m >>= f) k = .ok (b, j)) : ∃ a i, m k = .ok (a, i) ∧ f a i = .ok (b, j) := by
  change (m k >>= fun r => f r.1 r.2) = _ at h
  cases hm : m k with
  | error trouble =>
      rw [hm] at h
      cases h
  | ok r =>
      rw [hm] at h
      exact ⟨r.1, r.2, rfl, h⟩

theorem exists_of_and_eq {m m' : Reading Bool} (h : (m <&&> m') k = .ok (true, j)) :
    ∃ i, m k = .ok (true, i) ∧ m' i = .ok (true, j) := by
  obtain ⟨b, i, hm, hrest⟩ := exists_of_bind_eq h
  cases b with
  | true => exact ⟨i, hm, hrest⟩
  | false => cases hrest

theorem forward_pure (a : α) : Forward (pure a) := by
  rintro k _ _ ⟨⟩
  exact le_rfl

theorem Forward.bind {m : Reading α} {f : α → Reading β} (hm : Forward m)
    (hf : ∀ a, Forward (f a)) : Forward (m >>= f) := by
  intro k b j h
  obtain ⟨a, i, hfirst, hrest⟩ := exists_of_bind_eq h
  exact (hm k a i hfirst).trans (hf a i b j hrest)

theorem Forward.ite {c : Prop} [Decidable c] {m m' : Reading α} (hm : Forward m)
    (hm' : Forward m') : Forward (if c then m else m') := by
  split
  · exact hm
  · exact hm'

theorem Forward.and {m m' : Reading Bool} (hm : Forward m) (hm' : Forward m') :
    Forward (m <&&> m') := by
  refine hm.bind fun b => ?_
  cases b with
  | true => exact hm'
  | false => exact forward_pure _

theorem forward_here : Forward (here T) := by
  rintro k _ _ ⟨⟩
  exact le_rfl

theorem forward_next : Forward (next T) := by
  intro k a j h
  rw [next] at h
  split at h
  · cases h
  · cases h
    exact k.le_succ

theorem exists_of_run_eq {limit : ℕ∞} {trouble : Trouble} {n : ℕ}
    (h : run T p limit trouble k = .ok (n, j)) :
    j = k + n ∧ (∀ m < n, p (charAt T (k + m))) ∧ ¬ p (charAt T (k + n)) := by
  rcases run_cases T p limit trouble k with
    ⟨n', -, hgo, ⟨hp, heq⟩ | ⟨-, -, heq⟩⟩ | ⟨-, heq⟩
  · rw [heq] at h
    cases h
    exact ⟨rfl, fun m hm => (hgo m hm).1, hp⟩
  · rw [heq] at h
    cases h
  · rw [heq] at h
    cases h

theorem forward_run {limit : ℕ∞} {trouble : Trouble} : Forward (run T p limit trouble) := by
  intro k n j h
  rw [(exists_of_run_eq h).1]
  exact Nat.le_add_right k n

theorem forward_number : Forward (number T p) := forward_run.bind fun _ => forward_pure _

theorem forward_present : Forward (present T) := forward_next.bind fun _ => forward_pure _

theorem forward_sees {c : Char} : Forward (sees T c) := forward_here.bind fun _ => forward_pure _

theorem forward_skip (n : ℕ) : Forward (skip T n) := by
  induction n with
  | zero => exact forward_pure ()
  | succ n ih => exact forward_next.bind fun _ => ih

theorem forward_newline : Forward (newline T) :=
  forward_here.bind fun _ => (forward_next.bind fun _ => forward_pure _).ite (forward_pure _)

theorem forward_name : Forward (name T) := by
  refine forward_here.bind fun _ => (forward_pure _).ite ?_
  exact forward_run.bind fun _ => forward_run.bind fun _ => forward_pure _

/-- A mapping begins with a hexadecimal digit, and has characters of other kinds. -/
theorem exists_of_mapping_eq (h : mapping T k = .ok (true, j)) :
    ∃ n, n ≠ 0 ∧ k + n ≤ j ∧ IsHex (charAt T k) ∧ ¬ IsHex (charAt T (k + n)) := by
  obtain ⟨i, haddrs, hrest⟩ := exists_of_and_eq h
  obtain ⟨i', hnumber, hrest'⟩ := exists_of_and_eq haddrs
  obtain ⟨n, _, hrun, hdigits⟩ := exists_of_bind_eq hnumber
  obtain ⟨rfl, hhex, hend⟩ := exists_of_run_eq hrun
  have hne : n ≠ 0 := by
    rintro rfl
    cases hdigits
  have hlast : i' = k + n := (congrArg Prod.snd (Except.ok.inj hdigits)).symm
  have haddrsEnd : i' ≤ i := Forward.and forward_sees
    (forward_present.and (forward_number.and forward_present)) _ _ _ hrest'
  have hfieldsEnd : i ≤ j := Forward.bind (forward_skip 4)
    (fun _ => (forward_skip 16).bind fun _ => forward_number) _ _ _ hrest
  exact ⟨n, hne, by omega, by simpa using hhex 0 (Nat.pos_of_ne_zero hne), hend⟩

/-- So does a line that leads to another one. -/
theorem exists_of_line_eq (h : line T k = .ok (none, j)) :
    ∃ i n, k ≤ i ∧ n ≠ 0 ∧ i + n ≤ j ∧ IsHex (charAt T i) ∧ ¬ IsHex (charAt T (i + n)) := by
  obtain ⟨ch, _, hhere, hline⟩ := exists_of_bind_eq h
  cases hhere
  by_cases hend : charAt T k = -1
  · rw [if_pos hend] at hline
    cases hline
  · rw [if_neg hend] at hline
    obtain ⟨_, i, hnewline, hrest⟩ := exists_of_bind_eq hline
    obtain ⟨b, i', hmapping, hname⟩ := exists_of_bind_eq hrest
    cases b with
    | false => cases hname
    | true =>
        obtain ⟨n, hn, hle, hhex, hother⟩ := exists_of_mapping_eq hmapping
        exact ⟨i, n, forward_newline _ _ _ hnewline, hn, hle.trans (forward_name _ _ _ hname),
          hhex, hother⟩

/-! ### The end of the tape -/

/-- From `N` on the calls leave the same character. -/
def Settled (T : Stream' ReadEvent) (N : ℕ) : Prop := ∀ m ≥ N, charAt T m = charAt T N

theorem Settled.lt (h : Settled T k) {i : ℕ} (hline : line T i = .ok (none, j)) : i < k := by
  by_contra hge
  obtain ⟨i', n, hle, -, -, hhex, hother⟩ := exists_of_line_eq hline
  rw [h i' (by omega)] at hhex
  rw [h (i' + n) (by omega)] at hother
  exact hother hhex

/-- Without a trouble the lines end in a return. -/
theorem exists_ends {N : ℕ} (hsettled : Settled T N)
    (hno : ∀ k trouble, Reached T k → line T k ≠ .error trouble) (hk : Reached T k) :
    ∃ verdict, Ends T k (.ok verdict) := by
  induction hleft : N - k using Nat.strong_induction_on generalizing k with
  | _ left ih =>
      cases hline : line T k with
      | error trouble => exact absurd hline (hno k trouble hk)
      | ok r =>
          obtain ⟨o, j⟩ := r
          cases o with
          | some verdict => exact ⟨verdict, .returns hline⟩
          | none =>
              have hlt := hsettled.lt hline
              obtain ⟨i, n, hle, hn, hij, -⟩ := exists_of_line_eq hline
              obtain ⟨verdict, hends⟩ := ih (N - j) (by omega) (.next hk hline) rfl
              exact ⟨verdict, .next hline hends⟩

end MapsGrammar

/-! ### The runs -/

variable {s : MapsState}

/-- With enough rounds a run returns. -/
def Terminates (s : MapsState) : Prop :=
  ∃ fuel r t, linuxReadStackInfo fuel s = .ok r t

/-- The reads come to the end of the file, or to an error that stays. -/
def ReadsEnd (s : MapsState) : Prop :=
  s.after = .data [] ∨ s.after = .error

theorem cycle_eq_const {l : List ReadEvent} {e : ReadEvent} (hl : l = [e]) (hne : l ≠ []) :
    Stream'.cycle l hne = Stream'.const e := by
  subst hl
  exact Stream'.cycle_singleton e

theorem ReadsEnd.exists_tape (h : ReadsEnd s) : ∃ e, (e = .eof ∨ e = .error) ∧
    tape s = Stream'.appendStream' (s.reads.flatMap ReadResult.events) (Stream'.const e) := by
  rcases h with hafter | hafter
  · exact ⟨.eof, .inl rfl, by rw [tape, cycle_eq_const (by rw [hafter]; rfl)]⟩
  · exact ⟨.error, .inr rfl, by rw [tape, cycle_eq_const (by rw [hafter]; rfl)]⟩

theorem get_append_const (l : List ReadEvent) (e : ReadEvent) (n : ℕ) :
    (Stream'.appendStream' l (Stream'.const e)).get (l.length + n) = e := by
  rw [← Stream'.get_drop, Stream'.drop_append_stream, Stream'.get_const]

/-- Neither the end of the file nor an error makes a difference the second time. -/
theorem charAt_append_const (l : List ReadEvent) {e : ReadEvent} (he : e = .eof ∨ e = .error)
    (n : ℕ) : charAt (Stream'.appendStream' l (Stream'.const e)) (l.length + n + 1) =
      e.leaves (charAt (Stream'.appendStream' l (Stream'.const e)) l.length) := by
  have hidem (ch : ℤ) : e.leaves (e.leaves ch) = e.leaves ch := by
    rcases he with rfl | rfl
    · rfl
    · rfl
  induction n with
  | zero => exact congrArg (ReadEvent.leaves _) (get_append_const l e 0)
  | succ n ih => rw [charAt, get_append_const, ← Nat.add_assoc, ih, hidem]

theorem ReadsEnd.settled (h : ReadsEnd s) : ∃ N, Settled (tape s) N := by
  obtain ⟨e, he, htape⟩ := h.exists_tape
  rw [htape]
  refine ⟨(s.reads.flatMap ReadResult.events).length + 1, fun m hm => ?_⟩
  obtain ⟨n, rfl⟩ := Nat.exists_eq_add_of_le hm
  rw [Nat.add_right_comm, charAt_append_const _ he, charAt_append_const _ he 0]

/-- A run returns exactly if the open fails, or the first read leaves room in `line_buf` and no
line that is reached meets a trouble. -/
theorem terminates_iff (h : ReadsEnd s) : Terminates s ↔
    s.openResult < 0 ∨ (tape s).get 0 ≠ .full ∧
      ∀ k trouble, Reached (tape s) k → line (tape s) k ≠ .error trouble := by
  by_cases hopen : s.openResult < 0
  · exact iff_of_true ⟨0, _, _, linuxReadStackInfo_unopened hopen 0⟩ (.inl hopen)
  rw [or_iff_right hopen]
  constructor
  · rintro ⟨fuel, r, t, hrun⟩
    constructor
    · exact fun hfull => (stops_of_full hopen hfull fuel).ne_ok r t hrun
    · intro k trouble hk hline
      have hhalts := (settles_of_reached hopen hk (.breaks hline)).2 trouble rfl
      exact hhalts.ne_ok fuel hrun
  · rintro ⟨hroom, hno⟩
    rcases lt_or_ge ((tape s).get 0).returned 0 with hneg | hget
    · obtain ⟨t, -, hrun⟩ := exists_of_returned_neg hopen hroom hneg
      exact ⟨0, _, t, hrun 0⟩
    · obtain ⟨N, hsettled⟩ := h.settled
      obtain ⟨verdict, hends⟩ := exists_ends hsettled hno (.first hget)
      obtain ⟨t, hgives, -⟩ := (settles_of_reached hopen (.first hget) hends).1 verdict rfl
      obtain ⟨fuel, hrun⟩ := hgives.exists_ok
      exact ⟨fuel, _, t, hrun⟩

/-- A file with two lines. -/
theorem terminates_behindHeap : Terminates (mapsFile (text [heapLine, stackLine])) ∧
    ∀ k trouble, Reached (tape (mapsFile (text [heapLine, stackLine]))) k →
      line (tape (mapsFile (text [heapLine, stackLine]))) k ≠ .error trouble := by
  have hfound : outcome [heapLine, stackLine] = .found stackLine.stackInfo := by decide
  have hends : EndsAs (linuxReadStackInfo 100) (mapsFile (text [heapLine, stackLine]))
      ⟨false, 0, 0, 0⟩ (outcome [heapLine, stackLine]) :=
    endsAs_linuxReadStackInfo (delivers_mapsFile (by decide) (by decide)) (by decide)
  rw [hfound] at hends
  obtain ⟨r, t, hrun, -⟩ := hends
  have hreturns : Terminates (mapsFile (text [heapLine, stackLine])) := ⟨100, r, t, hrun⟩
  rcases (terminates_iff (.inl rfl)).mp hreturns with hopen | ⟨-, hlines⟩
  · exact absurd hopen (by decide)
  · exact ⟨hreturns, hlines⟩

/-! ### A line that breaks off -/

/-- Every read behind this line fails. -/
def brokenFile : MapsState :=
  { mapsFile [] with
    reads := [.data ("1-2 r-xp 00000000 00:00 1 ".toList.map byteOf)], after := .error }

theorem bind_of_eq {α β : Type} {m : Reading α} {f : α → Reading β} {a : α} {k i : ℕ}
    (h : m k = .ok (a, i)) : (m >>= f) k = f a i := by
  change (m k >>= fun r => f r.1 r.2) = _
  rw [h]
  rfl

theorem and_of_eq {m m' : Reading Bool} {k i : ℕ} (h : m k = .ok (true, i)) :
    (m <&&> m') k = m' i :=
  bind_of_eq h

/-- A number of one digit. -/
theorem number_eq {T : Stream' ReadEvent} {p : ℤ → Prop} {k : ℕ} (h : p (charAt T k))
    (hroom : T.get k ≠ .full) (hend : ¬ p (charAt T (k + 1))) :
    number T p k = .ok (true, k + 1) := by
  have hrun : run T p (2 ^ 31 : ℕ) .manyDigits k = .ok (1, k + 1) := by
    rcases run_cases T p (2 ^ 31 : ℕ) .manyDigits k with
      ⟨n, -, hgo, hlast⟩ | ⟨hgo, -⟩
    · have hle : n ≤ 1 := not_lt.mp fun hlt => hend (hgo 1 hlt).1
      obtain rfl | rfl := Nat.le_one_iff_eq_zero_or_eq_one.mp hle
      · rcases hlast with ⟨hp, -⟩ | ⟨-, hfull, -⟩
        · exact absurd h hp
        · exact absurd hfull hroom
      · rcases hlast with ⟨-, heq⟩ | ⟨hp, -⟩
        · exact heq
        · exact absurd hp hend
    · exact absurd (hgo 1 (by norm_cast)).1 hend
  rw [number, bind_of_eq hrun]
  rfl

theorem goesOn_brokenFile (n : ℕ) : GoesOn (tape brokenFile) IsSpace (26 + n) := by
  have htape : tape brokenFile = Stream'.appendStream'
      (brokenFile.reads.flatMap ReadResult.events) (Stream'.const .error) := by
    rw [tape, cycle_eq_const (l := brokenFile.after.events) (e := .error) rfl]
  have hlength : (brokenFile.reads.flatMap ReadResult.events).length = 26 := by decide
  have hspace : charAt (tape brokenFile) 26 = chr ' ' := by decide
  constructor
  · cases n with
    | zero => exact hspace
    | succ n =>
        have hchar := charAt_append_const (brokenFile.reads.flatMap ReadResult.events)
          (.inr rfl) n
        rw [← htape, hlength] at hchar
        exact hchar.trans hspace
  · rw [htape, ← hlength, get_append_const]
    decide

theorem run_brokenFile :
    run (tape brokenFile) IsSpace ⊤ .endlessSpaces 26 = .error .endlessSpaces := by
  rcases run_cases (tape brokenFile) IsSpace ⊤ .endlessSpaces 26 with
    ⟨n, -, -, ⟨hp, -⟩ | ⟨-, hfull, -⟩⟩ | ⟨-, heq⟩
  · exact absurd (goesOn_brokenFile n).1 hp
  · exact absurd hfull (goesOn_brokenFile n).2
  · exact heq

theorem line_brokenFile : line (tape brokenFile) 1 = .error .endlessSpaces := by
  have haddrs : addrs (tape brokenFile) 1 = .ok (true, 5) := by
    rw [addrs, and_of_eq (number_eq (by decide) (by decide) (by decide)),
      and_of_eq (i := 2) rfl, and_of_eq (i := 3) rfl,
      and_of_eq (number_eq (by decide) (by decide) (by decide))]
    rfl
  have hmapping : mapping (tape brokenFile) 1 = .ok (true, 26) := by
    rw [mapping, and_of_eq haddrs, bind_of_eq (a := ()) (i := 9) rfl,
      bind_of_eq (a := ()) (i := 25) rfl]
    exact number_eq (by decide) (by decide) (by decide)
  have hname : name (tape brokenFile) 26 = .error .endlessSpaces := by
    rw [name, bind_of_eq (a := chr ' ') (i := 26) rfl, if_neg (by decide)]
    change (run (tape brokenFile) IsSpace ⊤ .endlessSpaces 26 >>= _) = _
    rw [run_brokenFile]
    rfl
  rw [line, bind_of_eq (a := chr '1') (i := 1) rfl, if_neg (by decide),
    bind_of_eq (a := ()) (i := 1) rfl, bind_of_eq hmapping]
  exact hname

theorem terminates_fails : ¬ ∀ s : MapsState, ReadsData s → ReadsEnd s → Terminates s := by
  intro h
  have hdata : ReadsData brokenFile := by
    intro r hr
    obtain rfl := List.mem_singleton.mp hr
    exact ⟨_, rfl, by decide, by decide⟩
  obtain ⟨fuel, r, t, hrun⟩ := h brokenFile hdata (.inr rfl)
  have hhalts := (settles_of_reached (s := brokenFile) (by decide)
    (.first (by decide)) (.breaks line_brokenFile)).2 _ rfl
  exact hhalts.ne_ok fuel hrun

end Ciabatta.Loader
