import Ciabatta.Loader.MapsReading

/-!
Whole runs of `linux_read_stack_info` on the tape: the lines that a run comes to, and
what it comes to with each of the ways in which a line can end.
-/

namespace Ciabatta.Loader.MapsGrammar

open ByteMemory Exec

variable {T : Stream' ReadEvent} {fd : ℤ} {closed : List ℤ} {k : ℕ} {s : MapsState}

/-- The lines from `k` on end in a return or in a trouble. -/
inductive Ends (T : Stream' ReadEvent) : ℕ → Except Trouble Verdict → Prop
  | returns {k j : ℕ} {verdict : Verdict} : line T k = .ok (some verdict, j) →
      Ends T k (.ok verdict)
  | breaks {k : ℕ} {trouble : Trouble} : line T k = .error trouble → Ends T k (.error trouble)
  | next {k j : ℕ} {w : Except Trouble Verdict} : line T k = .ok (none, j) → Ends T j w → Ends T k w

theorem Reached.ends (h : Reached T k) {w : Except Trouble Verdict} (hk : Ends T k w) :
    Ends T 1 w := by
  induction h with
  | first _ => exact hk
  | next _ hline ih => exact ih (.next hline hk)

theorem Reached.returned_nonneg (h : Reached T k) : 0 ≤ (T.get 0).returned := by
  induction h with
  | first hget => exact hget
  | next _ _ ih => exact ih

/-- Where the lines end in a return, the loop over them returns. -/
theorem loop_returns {w : Except Trouble Verdict} (hends : Ends T k w) (h : On T fd closed k s) :
    (∀ verdict, w = .ok verdict →
      ∃ t, LoopSettles lineRound () s (· = .ok verdict.result t) ∧ ClosedAt fd closed verdict t) ∧
    ∀ trouble, w = .error trouble →
      LoopSettles lineRound () s fun q => ∃ t, q = .error trouble.stop t := by
  induction hends generalizing s with
  | returns hline =>
      have hmeets := meets_lineRound h
      rw [hline] at hmeets
      obtain ⟨_, t, hgives, rfl, hclosed⟩ := hmeets
      refine ⟨?_, nofun⟩
      rintro _ ⟨⟩
      exact ⟨t, LoopSettles.last hgives, hclosed⟩
  | breaks hline =>
      have hmeets := meets_lineRound h
      rw [hline] at hmeets
      refine ⟨nofun, ?_⟩
      rintro _ ⟨⟩
      exact LoopSettles.halts hmeets
  | next hline _ ih =>
      have hmeets := meets_lineRound h
      rw [hline] at hmeets
      obtain ⟨_, t, hgives, rfl, ht⟩ := hmeets
      obtain ⟨hreturns, hbreaks⟩ := ih ht
      refine ⟨fun verdict hv => ?_, fun trouble htrouble => (hbreaks trouble htrouble).next hgives⟩
      obtain ⟨u, hu, hclosed⟩ := hreturns verdict hv
      exact ⟨u, hu.next hgives, hclosed⟩

/-- And the other way round: what the loop comes to comes from a line that is reached. -/
def ComesFromLine (T : Stream' ReadEvent) (fd : ℤ) (closed : List ℤ) :
    EStateM.Result Stop MapsState ℤ → Prop
  | .ok r t => ∃ k j verdict, Reached T k ∧ line T k = .ok (some verdict, j) ∧
      r = verdict.result ∧ ClosedAt fd closed verdict t
  | .error e _ => e = .outOfFuel ∨
      ∃ k trouble, Reached T k ∧ line T k = .error trouble ∧ e = trouble.stop

theorem comesFromLine_of_stops {x : EStateM.Result Stop MapsState ℤ}
    (h : ∃ t, x = .error .outOfFuel t) : ComesFromLine T fd closed x := by
  obtain ⟨t, rfl⟩ := h
  exact .inl rfl

theorem comesFromLine_loop {fuel rounds : ℕ} (hk : Reached T k) (h : On T fd closed k s) :
    ComesFromLine T fd closed (loop (lineRound fuel) rounds () s) := by
  induction rounds generalizing k s with
  | zero => exact .inl rfl
  | succ rounds ih =>
      have hmeets := meets_lineRound h
      cases hline : line T k with
      | error trouble =>
          rw [hline] at hmeets
          rcases hmeets.1 fuel with hout | ⟨t, hstop⟩
          · exact comesFromLine_of_stops (hout.bind _)
          · rw [loop, bind_of_error hstop]
            exact .inr ⟨k, trouble, hk, hline, rfl⟩
      | ok p =>
          obtain ⟨o, j⟩ := p
          rw [hline] at hmeets
          obtain ⟨r, t, hgives, hleaves⟩ := hmeets
          rcases hgives.1 fuel with hout | hround
          · exact comesFromLine_of_stops (hout.bind _)
          · rw [loop, bind_of_ok hround]
            cases o with
            | none =>
                obtain ⟨rfl, ht⟩ := hleaves
                exact ih (.next hk hline) ht
            | some verdict =>
                obtain ⟨rfl, hclosed⟩ := hleaves
                exact ⟨k, j, verdict, hk, hline, rfl, hclosed⟩

/-! ### The start of a run -/

/-- Each read that is not the last one gives some bytes. -/
def ReadsData (s : MapsState) : Prop :=
  ∀ r ∈ s.reads, ∃ bytes, r = .data bytes ∧ 1 ≤ bytes.length ∧ bytes.length ≤ lineBufSize

/-- The state in which the first call of `read_char` finds the buffer. -/
def opened (s : MapsState) : MapsState :=
  { s with buffer := ⟨s.openResult, [], lineBufSize, 0, 0, s.buffer.lastChar⟩ }

theorem linuxReadStackInfo_eq (fuel : ℕ) (s : MapsState) :
    linuxReadStackInfo fuel s = (if s.openResult < 0 then
      return -1
    else do
      let ch ← readChar
      if ch < 0 then
        return -1
      else
        loop (lineRound fuel) fuel () : MapsM ℤ) (opened s) := rfl

theorem started_opened (s : MapsState) :
    Started (tape s) s.openResult s.closed 0 (opened s) :=
  ⟨rfl, rfl, rfl, rfl, rfl⟩

theorem linuxReadStackInfo_unopened (hopen : s.openResult < 0) (fuel : ℕ) :
    linuxReadStackInfo fuel s = .ok (-1) (opened s) := by
  rw [linuxReadStackInfo_eq, if_pos hopen]
  rfl

theorem linuxReadStackInfo_opened (hopen : ¬ s.openResult < 0) (fuel : ℕ) :
    linuxReadStackInfo fuel s = (readChar >>= fun ch =>
      if ch < 0 then return -1 else loop (lineRound fuel) fuel () : MapsM ℤ) (opened s) := by
  rw [linuxReadStackInfo_eq, if_neg hopen]

/-- A first read that fills the buffer. -/
theorem stops_of_full (hopen : ¬ s.openResult < 0) (hfull : (tape s).get 0 = .full) (fuel : ℕ) :
    Stops (linuxReadStackInfo fuel) s .outOfBounds := by
  have hmeets := meetsEvent_readChar (started_opened s)
  rw [MeetsEvent, if_pos hfull] at hmeets
  rw [Stops, linuxReadStackInfo_opened hopen]
  exact hmeets.bind _

/-- A first call that returns -1. -/
theorem exists_of_returned_neg (hopen : ¬ s.openResult < 0) (hroom : (tape s).get 0 ≠ .full)
    (hneg : ((tape s).get 0).returned < 0) :
    ∃ t, t.closed = s.closed ∧ ∀ fuel, linuxReadStackInfo fuel s = .ok (-1) t := by
  have hmeets := meetsEvent_readChar (started_opened s)
  rw [MeetsEvent, if_neg hroom] at hmeets
  obtain ⟨t, hread, ht, -⟩ := hmeets
  refine ⟨t, ht.closed, fun fuel => ?_⟩
  rw [linuxReadStackInfo_opened hopen, bind_of_ok hread, if_pos hneg]
  rfl

/-- A first call that returns a character. -/
theorem exists_of_returned_nonneg (hopen : ¬ s.openResult < 0)
    (hget : 0 ≤ ((tape s).get 0).returned) :
    ∃ t, On (tape s) s.openResult s.closed 1 t ∧
      ∀ fuel, linuxReadStackInfo fuel s = loop (lineRound fuel) fuel () t := by
  obtain ⟨c, hchar⟩ := ReadEvent.exists_char_of_returned hget
  have hroom : (tape s).get 0 ≠ .full := by
    rw [hchar]
    exact nofun
  have hmeets := meetsEvent_readChar (started_opened s)
  rw [MeetsEvent, if_neg hroom] at hmeets
  obtain ⟨t, hread, ht, hlast⟩ := hmeets
  refine ⟨t, ⟨ht, ?_⟩, fun fuel => ?_⟩
  · rw [hlast, charAt, hchar]
    rfl
  · rw [linuxReadStackInfo_opened hopen, bind_of_ok hread, if_neg (not_lt.mpr hget)]

/-- A line that is reached and does not lead on ends the run. -/
theorem settles_of_reached {w : Except Trouble Verdict} (hopen : ¬ s.openResult < 0)
    (hk : Reached (tape s) k) (hends : Ends (tape s) k w) :
    (∀ verdict, w = .ok verdict → ∃ t, Gives linuxReadStackInfo s verdict.result t ∧
      ClosedAt s.openResult s.closed verdict t) ∧
    ∀ trouble, w = .error trouble → Halts linuxReadStackInfo s trouble.stop := by
  obtain ⟨t, ht, hrun⟩ := exists_of_returned_nonneg hopen hk.returned_nonneg
  obtain ⟨hreturns, hbreaks⟩ := loop_returns (hk.ends hends) ht
  have hsettles {O : EStateM.Result Stop MapsState ℤ → Prop}
      (hloop : LoopSettles lineRound () t O) : Settles linuxReadStackInfo s O := by
    obtain ⟨hany, n, hn⟩ := hloop.settles
    exact ⟨fun fuel => by rw [Stops, hrun]; exact hany fuel, n,
      fun fuel hfuel => by rw [hrun]; exact hn fuel hfuel⟩
  refine ⟨fun verdict hv => ?_, fun trouble htrouble => hsettles (hbreaks trouble htrouble)⟩
  obtain ⟨u, hu, hclosed⟩ := hreturns verdict hv
  exact ⟨u, hsettles hu, hclosed⟩

theorem comesFromLine_run {fuel : ℕ} (hopen : ¬ s.openResult < 0)
    (hget : 0 ≤ ((tape s).get 0).returned) :
    ComesFromLine (tape s) s.openResult s.closed (linuxReadStackInfo fuel s) := by
  obtain ⟨t, ht, hrun⟩ := exists_of_returned_nonneg hopen hget
  rw [hrun]
  exact comesFromLine_loop (.first hget) ht

end Ciabatta.Loader.MapsGrammar
