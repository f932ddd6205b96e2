import Ciabatta.StdlibFile.Plays

/-!
What `printf` does when a write call reports a failure. Only `%x` does not look at the
status, and only what is sure to end at a malformed directive makes up for it. A run that
C gives no meaning does nothing that could be relied on.
-/

namespace Ciabatta.StdlibFile

open ByteMemory Exec

/-- A write call that reported a failure. -/
def StdioEvent.Fails : StdioEvent → Prop
  | .write _ result => Failed result
  | _ => False

def StdioEvent.IsWrite : StdioEvent → Prop
  | .write _ _ => True
  | _ => False

/-- Every run returns, no write call comes after one that reported a failure, and the
result is -1 then. -/
def ReportsFailures (fmt : CString) (args : List Arg) : Prop :=
  ∀ s events, (final (printf fmt args s)).log = s.log ++ events →
    events.Pairwise (fun e later => e.Fails → ¬ later.IsWrite) ∧
      ∃ r t, printf fmt args s = .ok r t ∧ ((∃ e ∈ events, e.Fails) → r = -1)

/-- Without a write call `printf` gets to a malformed directive. -/
def Silent (ps : List Piece) : Prop := ∃ n, ps = List.replicate n .unknown ++ [.malformed]

/-- Every directive is carried out up to a malformed one, and after each `%x` `printf` is
sure to return -1 without another write call. -/
def ChecksWrites (fmt : CString) (args : List Arg) : Prop :=
  (∀ e, .stuck e ∉ pieces fmt.tokens args) ∧
    ∀ pre data post, pieces fmt.tokens args = pre ++ .hex data :: post → Silent post

variable {kernel : List StdioEvent → List Byte → ℤ} {garbage : List StdioEvent → BitVec 32}
  {ps rest : List Piece} {retPrinted : ℤ} {log : List StdioEvent}

/-! ### Formats without an unchecked write -/

theorem Silent.unknown (h : Silent ps) : Silent (.unknown :: ps) := by
  obtain ⟨n, rfl⟩ := h
  exact ⟨n + 1, rfl⟩

theorem play_silent (h : Silent ps) (retPrinted : ℤ) (log : List StdioEvent) : ∃ events,
    play kernel garbage ps retPrinted log = (.ok none, log ++ events) ∧
      ∀ e ∈ events, e = .unassigned := by
  obtain ⟨n, rfl⟩ := h
  induction n generalizing retPrinted log with
  | zero => exact ⟨[], by rw [List.append_nil]; rfl, by simp⟩
  | succ n ih =>
      rw [List.replicate_succ, List.cons_append, play, playPiece, guess]
      split_ifs
      · exact ⟨[.unassigned], rfl, by simp⟩
      · obtain ⟨events, hplay, hevents⟩ := ih (retPrinted + (garbage log).toInt)
          (log ++ [.unassigned])
        refine ⟨.unassigned :: events, ?_, List.forall_mem_cons.2 ⟨rfl, hevents⟩⟩
        dsimp only
        rw [hplay, List.append_assoc]
        rfl

/-- Failures come last among the events, and lead to `_error`. -/
def Reported (played : Played) (events : List StdioEvent) : Prop :=
  events.Pairwise (fun e later => e.Fails → ¬ later.IsWrite) ∧
    ((∃ e ∈ events, e.Fails) → played.1 = .ok none)

/-- An event in front that is no failure. -/
theorem Reported.cons {played : Played} {events : List StdioEvent} {e : StdioEvent}
    (h : Reported played events) (he : ¬ e.Fails) : Reported played (e :: events) := by
  obtain ⟨hpairwise, hnone⟩ := h
  refine ⟨List.pairwise_cons.2 ⟨fun _ _ hfails => absurd hfails he, hpairwise⟩, ?_⟩
  rintro ⟨e', hmem, hfails⟩
  rcases List.mem_cons.1 hmem with rfl | hmem
  · exact absurd hfails he
  · exact hnone ⟨e', hmem, hfails⟩

theorem play_reports (h : ∀ pre data post, ps = pre ++ .hex data :: post → Silent post)
    (retPrinted : ℤ) (log : List StdioEvent) :
    ∃ events, (play kernel garbage ps retPrinted log).2 = log ++ events ∧
      Reported (play kernel garbage ps retPrinted log) events := by
  induction ps generalizing retPrinted log with
  | nil => exact ⟨[], (List.append_nil _).symm, List.Pairwise.nil, by simp⟩
  | cons piece ps ih =>
      have hnext : ∀ pre data post, ps = pre ++ .hex data :: post → Silent post :=
        fun pre data post heq => h (piece :: pre) data post (by rw [heq]; rfl)
      -- a piece that records one event which is no failure
      have hcons : ∀ (e : StdioEvent) (retPrinted : ℤ), ¬ e.Fails →
          ∃ events, (play kernel garbage ps retPrinted (log ++ [e])).2 = log ++ events ∧
            Reported (play kernel garbage ps retPrinted (log ++ [e])) events := by
        intro e retPrinted he
        obtain ⟨events, hlog, hreported⟩ := ih hnext retPrinted (log ++ [e])
        exact ⟨e :: events, hlog.trans (List.append_assoc _ _ _), hreported.cons he⟩
      cases piece with
      | text data =>
          rw [play, playPiece]
          split_ifs with hfailed
          · exact ⟨[.write data (kernel log data)], rfl, List.pairwise_singleton _ _, fun _ => rfl⟩
          · exact hcons _ _ hfailed
      | hex data =>
          obtain ⟨events, hplay, hevents⟩ := play_silent (h [] data ps rfl).unknown retPrinted
            (log ++ [.write data (kernel log data)])
          rw [play_hex, hplay]
          refine ⟨.write data (kernel log data) :: events, by rw [List.append_assoc]; rfl,
            List.pairwise_cons.2 ⟨?_, ?_⟩, fun _ => rfl⟩
          · intro e he _
            rw [hevents e he]
            exact id
          · refine List.pairwise_of_forall_mem_list fun e he later _ hfails => ?_
            rw [hevents e he] at hfails
            exact hfails.elim
      | unknown =>
          rw [play, playPiece, guess]
          split_ifs
          · exact ⟨[.unassigned], rfl, List.pairwise_singleton _ _, fun _ => rfl⟩
          · exact hcons _ _ id
      | malformed => exact ⟨[], (List.append_nil _).symm, List.Pairwise.nil, by simp⟩
      | stuck e => exact ⟨[], (List.append_nil _).symm, List.Pairwise.nil, by simp⟩

theorem reports_of_checks {fmt : CString} {args : List Arg} (h : ChecksWrites fmt args) :
    ReportsFailures fmt args := by
  intro s events hlog
  obtain ⟨inner, after, rfl, hafter, hplay⟩ := printf_events hlog
  obtain ⟨r, t, hr⟩ := exists_printf_ok h.1 s
  obtain ⟨inner', hinner', hpairwise, hnone⟩ :=
    @play_reports s.kernel s.garbage _ h.2 0 (s.log ++ [.lock])
  obtain rfl : inner = inner' := List.append_cancel_left (hplay.symm.trans hinner')
  constructor
  · refine List.pairwise_cons.2 ⟨fun _ _ hfails => hfails.elim,
      List.pairwise_append.2 ⟨hpairwise, ?_, ?_⟩⟩
    · refine List.pairwise_of_forall_mem_list fun _ _ later hlater _ => ?_
      rw [hafter later hlater]
      exact id
    · intro _ _ later hlater _
      rw [hafter later hlater]
      exact id
  · refine ⟨r, t, hr, ?_⟩
    rintro ⟨e, he, hfails⟩
    -- neither the lock nor the unlock fails
    have hmem : e ∈ inner := by
      rcases List.mem_cons.1 he with rfl | he
      · exact hfails.elim
      · refine (List.mem_append.1 he).resolve_right fun he => ?_
        rw [hafter e he] at hfails
        exact hfails
    have hresult := printf_ok_iff.1 ⟨t, hr⟩
    have hplayed := hnone ⟨e, hmem, hfails⟩
    generalize play s.kernel s.garbage (pieces fmt.tokens args) 0 (s.log ++ [.lock]) = played
      at hplayed hresult
    obtain ⟨_, log⟩ := played
    cases hplayed
    exact (Except.ok.inj hresult).symm

/-! ### Formats with an unchecked write -/

/-- A play that ends in -1 without a write call, where no total does, has come to a
malformed directive. -/
theorem silent_of_play {events : List StdioEvent} (hgoes : ∀ piece ∈ ps, piece.Goes)
    (hends : Ends rest) (hgarbage : ∀ log', log.length ≤ log'.length → garbage log' = 0)
    (hlog : (play kernel garbage (ps ++ rest) retPrinted log).2 = log ++ events)
    (hquiet : ∀ e ∈ events, ¬ e.IsWrite)
    (hresult : (finishPlay (play kernel garbage (ps ++ rest) retPrinted log)).1 = .ok (-1))
    (hne : (BitVec.ofInt 32 retPrinted).toInt ≠ -1) : Silent (ps ++ rest) := by
  induction ps generalizing log events with
  | nil =>
      rcases hends with rfl | rfl | ⟨e, rfl⟩
      · exact absurd (Except.ok.inj hresult) hne
      · exact ⟨0, rfl⟩
      · cases hresult
  | cons piece ps ih =>
      rw [List.forall_mem_cons] at hgoes
      -- a piece that writes has its call among the events
      have hwrite : ∀ (e : StdioEvent) (more : List StdioEvent),
          (playPiece kernel garbage piece retPrinted log).2 = log ++ e :: more → ¬ e.IsWrite := by
        intro e more he
        have hgrows := prefix_play_cons kernel garbage piece (ps ++ rest) retPrinted log
        rw [← List.cons_append, hlog, he, List.prefix_append_right_inj] at hgrows
        exact hquiet e (hgrows.subset List.mem_cons_self)
      cases piece with
      | text data => exact absurd trivial (hwrite _ [] rfl)
      | hex data => exact absurd trivial (hwrite _ [.unassigned] (List.append_assoc _ _ _))
      | unknown =>
          have hstep : play kernel garbage (.unknown :: ps ++ rest) retPrinted log =
              play kernel garbage (ps ++ rest) retPrinted (log ++ [.unassigned]) := by
            have hzero : (garbage log).toInt = (0 : ℕ) := by
              rw [hgarbage log le_rfl]
              rfl
            rw [List.cons_append, play_unknown hzero, Nat.cast_zero, Int.add_zero]
          rw [hstep] at hlog hresult
          obtain ⟨events', hevents⟩ := prefix_play kernel garbage (ps ++ rest) retPrinted
            (log ++ [.unassigned])
          have hcons : events = .unassigned :: events' := by
            rw [← hevents, List.append_assoc] at hlog
            exact (List.append_cancel_left hlog).symm
          rw [hcons, List.forall_mem_cons] at hquiet
          refine Silent.unknown
            (ih hgoes.2 (fun log' hle => hgarbage log' ?_) hevents.symm hquiet.2 hresult)
          rw [List.length_append] at hle
          omega
      | malformed => exact hgoes.1.elim
      | stuck e => exact hgoes.1.elim

/-- The write call of the first directive behind `pre` fails, and no other one does; and
what is read from the unassigned variable then is `g`. -/
def failingAt (pre : List Piece) (g : ℕ) : Stdio where
  kernel log _ := if log.length = eventCount pre + 1 then -5 else 0
  garbage log := if log.length = eventCount pre + 2 then BitVec.ofNat 32 g else 0
  args := []
  log := []

theorem play_failingAt {pre going : List Piece} {data : List Byte} {g : ℕ}
    (hgoes : ∀ piece ∈ pre, piece.Goes) (hg : g < 2) : ∃ before,
    play (failingAt pre g).kernel (failingAt pre g).garbage (pre ++ .hex data :: going) 0 [.lock] =
      play (failingAt pre g).kernel (failingAt pre g).garbage going (counted pre + g)
        ([.lock] ++ before ++ [.write data (-5), .unassigned]) ∧
    before.length = eventCount pre := by
  have hkernel : ∀ log data, (failingAt pre g).kernel log data =
      if log.length = eventCount pre + 1 then -5 else 0 := fun _ _ => rfl
  have hgarbage : ∀ log, (failingAt pre g).garbage log =
      if log.length = eventCount pre + 2 then BitVec.ofNat 32 g else 0 := fun _ => rfl
  generalize (failingAt pre g).kernel = kernel at hkernel
  generalize (failingAt pre g).garbage = garbage at hgarbage
  obtain ⟨log, hpre, hlen⟩ : ∃ log,
      play kernel garbage pre 0 [.lock] = (.ok (some (0 + counted pre)), log) ∧
        log.length = [StdioEvent.lock].length + eventCount pre := by
    refine play_goes 0 [.lock] hgoes (fun _ _ log hlt => ?_) fun log _ hlt => ?_
    · rw [List.length_singleton] at hlt
      rw [hkernel, if_neg (by omega)]
      decide
    · rw [List.length_singleton] at hlt
      rw [hgarbage, if_neg (by omega)]
  obtain ⟨before, hbefore⟩ := prefix_play kernel garbage pre 0 [.lock]
  rw [hpre] at hbefore
  dsimp only at hbefore
  subst hbefore
  rw [List.length_append, Nat.add_left_cancel_iff] at hlen
  have hwrite : kernel ([.lock] ++ before) data = -5 := by
    rw [hkernel, List.length_append, hlen, List.length_singleton, if_pos (Nat.add_comm 1 _)]
  have hguess : (garbage ([.lock] ++ before ++ [.write data (-5)])).toInt = g := by
    have hlen' : ([StdioEvent.lock] ++ before ++ [StdioEvent.write data (-5)]).length =
        eventCount pre + 2 := by
      rw [List.length_append, List.length_append, hlen, List.length_singleton,
        List.length_singleton]
      omega
    rw [hgarbage, if_pos hlen']
    obtain rfl | rfl : g = 0 ∨ g = 1 := by omega
    · rfl
    · rfl
  refine ⟨before, ?_, hlen⟩
  rw [play_append_of_ok hpre, play_hex, hwrite, play_unknown hguess, Int.zero_add,
    List.append_assoc _ [StdioEvent.write data (-5)]]
  rfl

theorem silent_of_reports {fmt : CString} {args : List Arg} (h : ReportsFailures fmt args)
    {pre post : List Piece} {data : List Byte}
    (heq : pieces fmt.tokens args = pre ++ .hex data :: post) : Silent post := by
  obtain ⟨going, rest, hpieces, hgoes, hends⟩ := exists_ends fmt.tokens args
  have hhex : (Piece.hex data).Goes := trivial
  obtain ⟨mid, rfl, rfl⟩ := hends.split hhex (heq.symm.trans hpieces)
  rw [List.forall_mem_append, List.forall_mem_cons] at hgoes
  obtain ⟨hpre, -, hmid⟩ := hgoes
  obtain ⟨g, hg, hne⟩ := exists_ne_neg_one (counted pre)
  obtain ⟨before, hplay, hlen⟩ := @play_failingAt pre (mid ++ rest) data g hpre hg
  obtain ⟨events, hlog⟩ := prefix_printf fmt args (failingAt pre g)
  obtain ⟨inner, after, rfl, hafter, hinner⟩ := printf_events hlog.symm
  obtain ⟨hpairwise, r, t, hr, hresult⟩ := h _ _ hlog.symm
  obtain ⟨later, hlater⟩ := prefix_play (failingAt pre g).kernel (failingAt pre g).garbage
    (mid ++ rest) (counted pre + g) ([.lock] ++ before ++ [.write data (-5), .unassigned])
  have hevents : inner = before ++ (.write data (-5) :: .unassigned :: later) := by
    change (play _ _ _ 0 [.lock]).2 = [.lock] ++ inner at hinner
    rw [heq, hplay, ← hlater, List.append_assoc, List.append_assoc] at hinner
    exact (List.append_cancel_left hinner).symm
  have hfails : (StdioEvent.write data (-5)).Fails := by
    change Failed (-5)
    decide
  rw [hevents, List.append_assoc] at hpairwise
  have hquiet := (List.pairwise_cons.1 (List.pairwise_append.1
    (List.pairwise_cons.1 hpairwise).2).2.1).1
  refine silent_of_play hmid hends ?_ hlater.symm ?_ ?_ hne
  · intro log hle
    refine if_neg ?_
    simp only [List.length_append, List.length_cons, List.length_nil, hlen] at hle
    omega
  · exact fun e he => hquiet e (List.mem_cons_of_mem _ (List.mem_append_left _ he)) hfails
  · have hmem : StdioEvent.write data (-5) ∈ StdioEvent.lock :: (inner ++ after) := by
      rw [hevents]
      simp
    have hok := printf_ok_iff.1 ⟨t, hresult ⟨_, hmem, hfails⟩ ▸ hr⟩
    change (finishPlay (play _ _ _ 0 [.lock])).1 = _ at hok
    rw [heq, hplay] at hok
    exact hok

/-! ### Formats that are not carried out -/

/-- No write call fails, and the unassigned variable holds zero. -/
def unfailing : Stdio where
  kernel _ _ := 0
  garbage _ := 0
  args := []
  log := []

theorem not_stuck_of_reports {fmt : CString} {args : List Arg} (h : ReportsFailures fmt args)
    (e : Stop) : .stuck e ∉ pieces fmt.tokens args := by
  intro hmem
  obtain ⟨going, rest, hpieces, hgoes, hends⟩ := exists_ends fmt.tokens args
  rw [hpieces] at hmem
  have hrest := (List.mem_append.1 hmem).resolve_left fun hmem => hgoes _ hmem
  obtain ⟨events, hlog⟩ := prefix_printf fmt args unfailing
  obtain ⟨-, r, t, hr, -⟩ := h _ _ hlog.symm
  rcases hends with rfl | rfl | ⟨e', rfl⟩
  · cases hrest
  · cases List.mem_singleton.1 hrest
  · have hkernel : ∀ log data, ¬ Failed (unfailing.kernel log data) := by
      intro log data
      change ¬ Failed 0
      decide
    have hgarbage : ∀ log, unfailing.garbage log = 0 := fun _ => rfl
    exact printf_ne_ok_of_stuck hpieces hgoes (fun data _ log => hkernel log data) hgarbage r t hr

/-- `printf` stops at the first failure and reports it exactly when all directives are
carried out and none of them is a `%x`, or what follows that is sure to return -1 without
another write call. -/
theorem reportsFailures_iff (fmt : CString) (args : List Arg) :
    ReportsFailures fmt args ↔ ChecksWrites fmt args :=
  ⟨fun h => ⟨not_stuck_of_reports h, fun _ _ _ heq => silent_of_reports h heq⟩, reports_of_checks⟩

/-- `%x` goes on when its write call fails. -/
theorem reportsFailures_fails :
    ¬ ∀ (fmt : CString) (args : List Arg), ReportsFailures fmt args := by
  intro h
  have hpieces : pieces (CString.tokens ⟨[byteOf '%', byteOf 'x'], by decide⟩) [.word 0] =
      [] ++ .hex (hexText 0 ++ [0]) :: [] := by decide
  obtain ⟨n, hn⟩ := silent_of_reports (h _ _) hpieces
  simp at hn

end Ciabatta.StdlibFile
