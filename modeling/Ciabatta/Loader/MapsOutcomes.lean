import Ciabatta.Loader.MapsRuns

/-!
What `linux_read_stack_info` owes its caller for any file and any results of the reads:
that it stores inside its buffers and closes the file. Either holds exactly where no line
that a run comes to breaks it.
-/

namespace Ciabatta.Loader

open ByteMemory Exec MapsGrammar

/-! ### The buffers -/

/-- No store of a run is outside `line_buf` or `name_buf`. -/
def StaysInBuffers (s : MapsState) : Prop :=
  ∀ fuel, ¬ Stops (linuxReadStackInfo fuel) s .outOfBounds

/-- The trouble is one with a buffer. -/
def MapsGrammar.Trouble.Overflows (trouble : Trouble) : Prop :=
  trouble = .fullRead ∨ trouble = .longName

theorem MapsGrammar.Trouble.overflows_iff (trouble : Trouble) :
    trouble.Overflows ↔ trouble.stop = .outOfBounds := by
  cases trouble <;> simp [Overflows, stop]

/-- A run stores inside its buffers exactly if the open fails, or the first read leaves room
in `line_buf` and no line that is reached fills `line_buf` or `name_buf`. -/
theorem staysInBuffers_iff (s : MapsState) : StaysInBuffers s ↔
    s.openResult < 0 ∨ (tape s).get 0 ≠ .full ∧
      ∀ k trouble, Reached (tape s) k → line (tape s) k = .error trouble →
        ¬ trouble.Overflows := by
  by_cases hopen : s.openResult < 0
  · refine iff_of_true (fun fuel => ?_) (.inl hopen)
    rintro ⟨t, hstop⟩
    rw [linuxReadStackInfo_unopened hopen] at hstop
    cases hstop
  rw [or_iff_right hopen]
  constructor
  · intro hinside
    constructor
    · exact fun hfull => hinside 0 (stops_of_full hopen hfull 0)
    · intro k trouble hk hline hover
      have hhalts := (settles_of_reached hopen hk (.breaks hline)).2 trouble rfl
      rw [trouble.overflows_iff.mp hover] at hhalts
      obtain ⟨fuel, hstop⟩ := hhalts.exists_stops
      exact hinside fuel hstop
  · rintro ⟨hroom, hlines⟩ fuel ⟨u, hstop⟩
    rcases lt_or_ge ((tape s).get 0).returned 0 with hneg | hget
    · obtain ⟨t, -, hrun⟩ := exists_of_returned_neg hopen hroom hneg
      rw [hrun] at hstop
      cases hstop
    · have hfrom := @comesFromLine_run s fuel hopen hget
      rw [hstop] at hfrom
      rcases hfrom with hfuel | ⟨k, trouble, hk, hline, heq⟩
      · cases hfuel
      · exact hlines k trouble hk hline (trouble.overflows_iff.mpr heq.symm)

/-- A file whose first read gives just `sizeof line_buf` bytes. -/
def fullFile : MapsState :=
  { mapsFile [] with reads := [.data (List.replicate lineBufSize newline)] }

theorem get_fullFile : (tape fullFile).get 0 = .full := by
  have hevents : (ReadResult.data (List.replicate lineBufSize newline)).events = [.full] := by
    rw [ReadResult.events, if_neg (by rw [List.length_replicate]; exact lt_irrefl _)]
    exact List.cons_ne_nil newline _
  rw [tape, fullFile, List.flatMap_cons, hevents]
  rfl

theorem staysInBuffers_fails :
    ¬ ∀ s : MapsState, ReadsData s → s.after = .data [] → StaysInBuffers s := by
  intro h
  have hinside : StaysInBuffers fullFile := by
    refine h fullFile (fun r hr => ?_) rfl
    obtain rfl := List.mem_singleton.mp hr
    exact ⟨_, rfl, by rw [List.length_replicate]; decide, by rw [List.length_replicate]⟩
  exact hinside 0 (stops_of_full (by decide) get_fullFile 0)

/-! ### The descriptor -/

/-- How a run ends that has opened the file: it returns with the file closed once, or has not
come to an end. One that breaks off at a store outside its buffers or an overflow has not closed
the file. -/
def EndsClosed (s : MapsState) : EStateM.Result Stop MapsState ℤ → Prop
  | .ok _ t => t.closed = s.openResult :: s.closed
  | .error e _ => e = .outOfFuel

/-- No run that has opened the file ends without having closed it once. -/
def ClosesOnce (s : MapsState) : Prop :=
  0 ≤ s.openResult → ∀ fuel, EndsClosed s (linuxReadStackInfo fuel s)

/-- The line at `k` goes on to the next one, or ends a run that has closed the file, or has
spaces without an end. -/
def MapsGrammar.LineCloses (T : Stream' ReadEvent) (k : ℕ) : Prop :=
  (∀ j, line T k ≠ .ok (some .malformed, j)) ∧
    ∀ trouble, line T k = .error trouble → trouble = .endlessSpaces

theorem MapsGrammar.Trouble.stop_eq_outOfFuel_iff (trouble : Trouble) :
    trouble.stop = .outOfFuel ↔ trouble = .endlessSpaces := by
  cases trouble <;> simp [stop]

/-- What is left behind by a line that closes the file. -/
theorem endsClosed_of_comesFromLine {s : MapsState} {r : EStateM.Result Stop MapsState ℤ}
    (h : ComesFromLine (tape s) s.openResult s.closed r)
    (hlines : ∀ k, Reached (tape s) k → LineCloses (tape s) k) : EndsClosed s r := by
  cases r with
  | ok r t =>
      obtain ⟨k, j, verdict, hk, hline, -, hclosed⟩ := h
      have hformed : verdict ≠ .malformed := by
        rintro rfl
        exact (hlines k hk).1 j hline
      rwa [ClosedAt, if_neg hformed] at hclosed
  | error e t =>
      rcases h with hfuel | ⟨k, trouble, hk, hline, rfl⟩
      · exact hfuel
      · exact trouble.stop_eq_outOfFuel_iff.mpr ((hlines k hk).2 trouble hline)

/-- The file is closed exactly if the open fails, or the first call of `read_char` does not
return -1 and neither a malformed line is reached nor one that stops the run. -/
theorem closesOnce_iff (s : MapsState) : ClosesOnce s ↔
    s.openResult < 0 ∨ 0 ≤ ((tape s).get 0).returned ∧
      ∀ k, Reached (tape s) k → LineCloses (tape s) k := by
  by_cases hopen : s.openResult < 0
  · exact iff_of_true (fun hnonneg => absurd hopen (not_lt.mpr hnonneg)) (.inl hopen)
  rw [or_iff_right hopen]
  constructor
  · intro hcloses
    have hends (fuel : ℕ) : EndsClosed s (linuxReadStackInfo fuel s) :=
      hcloses (not_lt.mp hopen) fuel
    have hunclosed {fuel : ℕ} {r : ℤ} {t : MapsState} (ht : t.closed = s.closed)
        (hrun : linuxReadStackInfo fuel s = .ok r t) : False := by
      have hclosed := hends fuel
      rw [hrun, EndsClosed, ht] at hclosed
      exact List.cons_ne_self _ _ hclosed.symm
    have hstops {fuel : ℕ} {e : Stop} (hstop : Stops (linuxReadStackInfo fuel) s e) :
        e = .outOfFuel := by
      obtain ⟨t, hrun⟩ := hstop
      have hfuel := hends fuel
      rwa [hrun] at hfuel
    constructor
    · by_contra hneg
      by_cases hfull : (tape s).get 0 = .full
      · cases hstops (stops_of_full hopen hfull 0)
      · obtain ⟨t, ht, hrun⟩ := exists_of_returned_neg hopen hfull (not_le.mp hneg)
        exact hunclosed ht (hrun 0)
    · intro k hk
      refine ⟨fun j hline => ?_, fun trouble hline => ?_⟩
      · obtain ⟨t, hgives, hclosed⟩ := (settles_of_reached hopen hk (.returns hline)).1 _ rfl
        obtain ⟨fuel, hrun⟩ := hgives.exists_ok
        rw [ClosedAt, if_pos rfl] at hclosed
        exact hunclosed hclosed hrun
      · have hhalts := (settles_of_reached hopen hk (.breaks hline)).2 trouble rfl
        obtain ⟨fuel, hstop⟩ := hhalts.exists_stops
        exact trouble.stop_eq_outOfFuel_iff.mp (hstops hstop)
  · rintro ⟨hget, hlines⟩ - fuel
    exact endsClosed_of_comesFromLine (comesFromLine_run hopen hget) hlines

theorem closesOnce_fails : ¬ ∀ s : MapsState, ClosesOnce s := by
  intro h
  have hclosed := h { mapsFile [] with reads := [.data [byteOf 'x']] } (by decide) 1
  cases hclosed

end Ciabatta.Loader
