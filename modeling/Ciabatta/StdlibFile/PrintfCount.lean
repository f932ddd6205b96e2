import Ciabatta.StdlibFile.Plays

/-!
The result of `printf` as the number of the bytes that it passed to the write calls.
It is right exactly when every directive is carried out and assigns its variable, and
the number is an `int`. What happens behind a store outside of `buf`, an overflow or an
argument that is missing is left open by C, so that a run that gets there is not right.
-/

namespace Ciabatta.StdlibFile

open ByteMemory Exec

/-- A write call has transferred all its bytes. -/
def StdioEvent.Transfers : StdioEvent → Prop
  | .write data result => result = data.length
  | _ => True

/-- How many bytes were passed to a write call. -/
def StdioEvent.passed : StdioEvent → ℕ
  | .write data _ => data.length
  | _ => 0

def passed (events : List StdioEvent) : ℕ := (events.map StdioEvent.passed).sum

/-- Every run whose write calls transfer all their bytes returns; and unless it returns -1,
the result is the number of the bytes, and nothing was read that was not assigned. -/
def CountsOutput (fmt : CString) (args : List Arg) : Prop :=
  ∀ s events, (final (printf fmt args s)).log = s.log ++ events →
    (∀ e ∈ events, e.Transfers) →
    ∃ r t, printf fmt args s = .ok r t ∧ (r ≠ -1 → r = passed events ∧ .unassigned ∉ events)

/-- A directive that assigns no `arg_chars`. -/
def Piece.Guesses : Piece → Prop
  | .hex _ => True
  | .unknown => True
  | _ => False

/-- `printf` is sure to return -1, or each directive is carried out and assigns
`arg_chars`, and the number of the bytes is an `int` or is taken for -1. A literal run
whose length is negative as an `int` is taken for a failure. -/
def AssignsAll (ps : List Piece) : Prop :=
  (∃ data, .text data ∈ ps ∧ Failed data.length) ∨ .malformed ∈ ps ∨
    (∀ piece ∈ ps, piece.Goes ∧ ¬ piece.Guesses) ∧
      (counted ps < 2 ^ 31 ∨ counted ps % 2 ^ 32 = 2 ^ 32 - 1)

variable {kernel : List StdioEvent → List Byte → ℤ} {garbage : List StdioEvent → BitVec 32}
  {ps rest : List Piece} {retPrinted : ℤ} {log events : List StdioEvent}

/-! ### Totals -/

theorem toInt_total_eq_iff (n : ℕ) :
    (BitVec.ofInt 32 (n : ℤ)).toInt = n ↔ n < 2 ^ 31 := by
  rw [BitVec.toInt_ofInt, Int.bmod_def]
  omega

theorem toInt_total_eq_neg_one_iff (n : ℕ) :
    (BitVec.ofInt 32 (n : ℤ)).toInt = -1 ↔ n % 2 ^ 32 = 2 ^ 32 - 1 := by
  rw [BitVec.toInt_ofInt, Int.bmod_def]
  omega

theorem passed_append (events more : List StdioEvent) :
    passed (events ++ more) = passed events + passed more := by
  rw [passed, List.map_append, List.sum_append]
  rfl

/-! ### Plays in which all bytes are transferred -/

/-- What a play of pieces that let it go on leaves, unless it ends at `_error`. -/
structure Counted (ps : List Piece) (retPrinted : ℤ) (played : Played)
    (events : List StdioEvent) : Prop where
  texts : ∀ data, .text data ∈ ps → ¬ Failed data.length
  goes : ∃ retPrinted', played.1 = .ok (some retPrinted')
  assigned : (∀ piece ∈ ps, ¬ piece.Guesses) →
    played.1 = .ok (some (retPrinted + counted ps)) ∧ passed events = counted ps ∧
      .unassigned ∉ events

/-- A play counts what it writes, if all of it is transferred. -/
def PlayCounts (kernel : List StdioEvent → List Byte → ℤ)
    (garbage : List StdioEvent → BitVec 32) (ps : List Piece) (retPrinted : ℤ)
    (log : List StdioEvent) : Prop :=
  ∃ events, (play kernel garbage ps retPrinted log).2 = log ++ events ∧
    ((∀ e ∈ events, e.Transfers) → (play kernel garbage ps retPrinted log).1 ≠ .ok none →
      Counted ps retPrinted (play kernel garbage ps retPrinted log) events)

theorem counted_nil (retPrinted : ℤ) (log : List StdioEvent) :
    Counted [] retPrinted (play kernel garbage [] retPrinted log) [] where
  texts := by simp
  goes := ⟨retPrinted, rfl⟩
  assigned := by
    intro _
    refine ⟨?_, rfl, by simp⟩
    rw [play, counted, List.map_nil, List.sum_nil, Nat.cast_zero, Int.add_zero]

variable {played : Played} {data : List Byte}

/-- A literal run in front. -/
theorem Counted.text {result : ℤ} (h : Counted ps (retPrinted + data.length) played events)
    (hok : ¬ Failed data.length) :
    Counted (.text data :: ps) retPrinted played (.write data result :: events) where
  texts := by
    intro data' hmem
    rcases List.mem_cons.1 hmem with heq | hmem
    · cases heq
      exact hok
    · exact h.texts data' hmem
  goes := h.goes
  assigned := by
    intro hassigned
    obtain ⟨hret, hpassed, hevents⟩ := h.assigned (List.forall_mem_cons.1 hassigned).2
    have hcount : counted (.text data :: ps) = data.length + counted ps := rfl
    refine ⟨?_, ?_, by simpa using hevents⟩
    · rw [hret, hcount, Nat.cast_add, Int.add_assoc]
    · rw [hcount, ← hpassed]
      rfl

/-- A directive in front that assigns nothing. -/
theorem Counted.guess {piece : Piece} {retPrinted' : ℤ} {events' : List StdioEvent}
    (h : Counted ps retPrinted played events) (hguesses : piece.Guesses) :
    Counted (piece :: ps) retPrinted' played events' where
  texts := by
    intro data hmem
    rcases List.mem_cons.1 hmem with rfl | hmem
    · exact hguesses.elim
    · exact h.texts data hmem
  goes := h.goes
  assigned := fun hassigned => absurd hguesses (hassigned _ List.mem_cons_self)

theorem playCounts_text (h : ∀ retPrinted log, PlayCounts kernel garbage ps retPrinted log)
    (retPrinted : ℤ) (log : List StdioEvent) :
    PlayCounts kernel garbage (.text data :: ps) retPrinted log := by
  rw [PlayCounts, play, playPiece]
  split_ifs with hfailed
  · exact ⟨[.write data (kernel log data)], rfl, fun _ hnone => absurd rfl hnone⟩
  · obtain ⟨events, hlog, hcounted⟩ := h (retPrinted + data.length)
      (log ++ [.write data (kernel log data)])
    refine ⟨.write data (kernel log data) :: events, hlog.trans (List.append_assoc _ _ _),
      fun htransfers hnone => ?_⟩
    rw [List.forall_mem_cons] at htransfers
    have hresult : kernel log data = data.length := htransfers.1
    rw [hresult] at hfailed
    exact (hcounted htransfers.2 hnone).text hfailed

/-- A directive without `arg_chars` reads what is in the variable. -/
theorem exists_counts_guess {p : Piece}
    (h : ∀ retPrinted log, PlayCounts kernel garbage ps retPrinted log)
    (hguesses : p.Guesses) (retPrinted : ℤ) (log : List StdioEvent) : ∃ events,
    (play kernel garbage (.unknown :: ps) retPrinted log).2 = log ++ events ∧
      ((∀ e ∈ events, e.Transfers) →
        (play kernel garbage (.unknown :: ps) retPrinted log).1 ≠ .ok none → ∀ events',
          Counted (p :: ps) retPrinted (play kernel garbage (.unknown :: ps) retPrinted log)
            events') := by
  rw [play, playPiece, guess]
  split_ifs
  · exact ⟨[.unassigned], rfl, fun _ hnone => absurd rfl hnone⟩
  · obtain ⟨events, hlog, hcounted⟩ := h (retPrinted + (garbage log).toInt) (log ++ [.unassigned])
    refine ⟨.unassigned :: events, hlog.trans (List.append_assoc _ _ _),
      fun htransfers hnone events' => ?_⟩
    exact (hcounted (List.forall_mem_cons.1 htransfers).2 hnone).guess hguesses

theorem play_counts (hgoes : ∀ piece ∈ ps, piece.Goes) (retPrinted : ℤ) (log : List StdioEvent) :
    PlayCounts kernel garbage ps retPrinted log := by
  induction ps generalizing retPrinted log with
  | nil => exact ⟨[], (List.append_nil _).symm, fun _ _ => counted_nil retPrinted log⟩
  | cons piece ps ih =>
      rw [List.forall_mem_cons] at hgoes
      have hrest := ih hgoes.2
      cases piece with
      | text data => exact playCounts_text hrest retPrinted log
      | hex data =>
          obtain ⟨events, hlog, hcounted⟩ := exists_counts_guess (p := .hex data) hrest trivial
            retPrinted (log ++ [.write data (kernel log data)])
          rw [PlayCounts, play_hex]
          refine ⟨.write data (kernel log data) :: events, hlog.trans (List.append_assoc _ _ _),
            fun htransfers hnone => ?_⟩
          exact hcounted (List.forall_mem_cons.1 htransfers).2 hnone _
      | unknown =>
          obtain ⟨events, hlog, hcounted⟩ := exists_counts_guess (p := .unknown) hrest trivial
            retPrinted log
          exact ⟨events, hlog, fun htransfers hnone => hcounted htransfers hnone _⟩
      | malformed => exact hgoes.1.elim
      | stuck e => exact hgoes.1.elim

/-! ### Formats that assign -/

theorem passed_bracket {after : List StdioEvent} (hafter : ∀ e ∈ after, e = .unlock) :
    passed (.lock :: (events ++ after)) = passed events := by
  have hzero : passed after = 0 := by
    rw [List.eq_replicate_of_mem hafter, passed, List.map_replicate]
    simp [StdioEvent.passed]
  have hcons : passed (.lock :: (events ++ after)) = 0 + passed (events ++ after) := rfl
  rw [hcons, passed_append, hzero, Nat.zero_add, Nat.add_zero]

theorem unassigned_mem_bracket {after : List StdioEvent} (hafter : ∀ e ∈ after, e = .unlock)
    (h : .unassigned ∈ StdioEvent.lock :: (events ++ after)) : .unassigned ∈ events := by
  have hmem := (List.mem_cons.1 h).resolve_left (by simp)
  refine (List.mem_append.1 hmem).resolve_right fun hmem => ?_
  cases hafter _ hmem

/-- A play that does not end at `_error` comes to what ends it, and has counted until then. -/
theorem exists_counted_front (hgoes : ∀ piece ∈ ps, piece.Goes)
    (hlog : (play kernel garbage (ps ++ rest) retPrinted log).2 = log ++ events)
    (htransfers : ∀ e ∈ events, e.Transfers)
    (hnone : (play kernel garbage (ps ++ rest) retPrinted log).1 ≠ .ok none) :
    ∃ front retPrinted', play kernel garbage (ps ++ rest) retPrinted log =
        play kernel garbage rest retPrinted' (log ++ front) ∧
      Counted ps retPrinted (.ok (some retPrinted'), log ++ front) front := by
  obtain ⟨front, hfront, hcounted⟩ := @play_counts kernel garbage _ hgoes retPrinted log
  have hfrontTransfers : ∀ e ∈ front, e.Transfers := by
    have hgrows := prefix_play_append kernel garbage ps rest retPrinted log
    rw [hfront, hlog, List.prefix_append_right_inj] at hgrows
    exact fun e he => htransfers e (hgrows.subset he)
  have hc := hcounted hfrontTransfers (play_ne_none_of_append hnone)
  obtain ⟨retPrinted', hret⟩ := hc.goes
  have hplay : play kernel garbage ps retPrinted log = (.ok (some retPrinted'), log ++ front) :=
    Prod.ext hret hfront
  rw [hplay] at hc
  exact ⟨front, retPrinted', play_append_of_ok hplay, hc⟩

/-- A play that does not end at `_error` comes to its end, it has guessed nothing, and its
total is right. -/
theorem play_assigns (hgoes : ∀ piece ∈ ps, piece.Goes) (hends : Ends rest)
    (h : AssignsAll (ps ++ rest))
    (hlog : (play kernel garbage (ps ++ rest) 0 log).2 = log ++ events)
    (htransfers : ∀ e ∈ events, e.Transfers)
    (hnone : (play kernel garbage (ps ++ rest) 0 log).1 ≠ .ok none) :
    .unassigned ∉ events ∧
      (play kernel garbage (ps ++ rest) 0 log).1 = .ok (some (passed events : ℤ)) ∧
      ((BitVec.ofInt 32 (passed events : ℤ)).toInt = passed events ∨
        (BitVec.ofInt 32 (passed events : ℤ)).toInt = -1) := by
  obtain ⟨front, retPrinted, happend, hc⟩ := exists_counted_front hgoes hlog htransfers hnone
  rw [happend] at hlog hnone ⊢
  rcases h with ⟨data, hmem, hfailed⟩ | hmalformed | ⟨hassigned, hfits⟩
  · rcases List.mem_append.1 hmem with hmem | hmem
    · exact absurd hfailed (hc.texts data hmem)
    · exact absurd trivial (hends.not_goes _ hmem)
  · have hmem := (List.mem_append.1 hmalformed).resolve_left fun hmem => hgoes _ hmem
    rcases hends with rfl | rfl | ⟨e, rfl⟩
    · cases hmem
    · exact absurd rfl hnone
    · cases List.mem_singleton.1 hmem
  · obtain ⟨htotal, hpassed, hunassigned⟩ :=
      hc.assigned fun piece hmem => (hassigned piece (List.mem_append_left _ hmem)).2
    rcases hends with rfl | rfl | ⟨e, rfl⟩
    · obtain rfl : front = events := List.append_cancel_left hlog
      rw [List.append_nil] at hfits
      rw [Int.zero_add] at htotal
      rw [hpassed, toInt_total_eq_iff, toInt_total_eq_neg_one_iff]
      exact ⟨hunassigned, htotal, hfits⟩
    · exact absurd rfl hnone
    · exact (hassigned (.stuck e) (List.mem_append_right _ List.mem_cons_self)).1.elim

theorem counts_of_assigns {fmt : CString} {args : List Arg}
    (h : AssignsAll (pieces fmt.tokens args)) : CountsOutput fmt args := by
  intro s events hlog htransfers
  obtain ⟨inner, after, rfl, hafter, hplay⟩ := printf_events hlog
  obtain ⟨going, rest, hpieces, hgoes, hends⟩ := exists_ends fmt.tokens args
  have hiff : ∀ r, (∃ t, printf fmt args s = .ok r t) ↔ _ := fun r => printf_ok_iff
  rw [hpieces] at h hplay hiff
  have hinner : ∀ e ∈ inner, e.Transfers := fun e he =>
    htransfers e (List.mem_cons_of_mem _ (List.mem_append_left _ he))
  have hassigns := play_assigns hgoes hends h hplay hinner
  generalize play s.kernel s.garbage (going ++ rest) 0 (s.log ++ [.lock]) = played
    at hiff hassigns
  obtain ⟨r, log⟩ := played
  by_cases hnone : r = .ok none
  · subst hnone
    obtain ⟨t, ht⟩ := (hiff (-1)).2 rfl
    exact ⟨-1, t, ht, fun hne => absurd rfl hne⟩
  · obtain ⟨hunassigned, htotal, htrunc⟩ := hassigns hnone
    obtain rfl : r = .ok (some (passed inner : ℤ)) := htotal
    obtain ⟨t, ht⟩ := (hiff _).2 rfl
    refine ⟨_, t, ht, fun hne => ⟨?_, mt (unassigned_mem_bracket hafter) hunassigned⟩⟩
    rw [passed_bracket hafter]
    exact htrunc.resolve_right hne

/-! ### Formats that do not -/

theorem transfers_playPiece (hkernel : ∀ log data, kernel log data = (data.length : ℤ))
    (piece : Piece) (hlog : ∀ e ∈ log, e.Transfers) :
    ∀ e ∈ (playPiece kernel garbage piece retPrinted log).2, e.Transfers := by
  have hwrite : ∀ data, ∀ e ∈ log ++ [.write data (kernel log data)], e.Transfers :=
    fun data => List.forall_mem_append.2 ⟨hlog, by
      rw [List.forall_mem_singleton]
      exact hkernel log data⟩
  cases piece with
  | text data => exact hwrite data
  | hex data => exact List.forall_mem_append.2 ⟨hwrite data, by simp [StdioEvent.Transfers]⟩
  | unknown => exact List.forall_mem_append.2 ⟨hlog, by simp [StdioEvent.Transfers]⟩
  | malformed => exact hlog
  | stuck e => exact hlog

theorem transfers_play (hkernel : ∀ log data, kernel log data = (data.length : ℤ))
    (ps : List Piece) (hlog : ∀ e ∈ log, e.Transfers) :
    ∀ e ∈ (play kernel garbage ps retPrinted log).2, e.Transfers := by
  induction ps generalizing retPrinted log with
  | nil => exact hlog
  | cons piece ps ih =>
      have hpiece := @transfers_playPiece kernel garbage retPrinted log hkernel piece hlog
      rw [play]
      generalize playPiece kernel garbage piece retPrinted log = played at hpiece
      obtain ⟨e | _ | retPrinted, log'⟩ := played
      · exact hpiece
      · exact hpiece
      · exact ih hpiece

/-- All write calls transfer their bytes, and what is read from the unassigned variable
is `g` when the record has the length `m`, else zero. -/
def transferring (m g : ℕ) : Stdio where
  kernel _ data := data.length
  garbage log := if log.length = m then BitVec.ofNat 32 g else 0
  args := []
  log := []

theorem exists_run_transferring (fmt : CString) (args : List Arg) (m g : ℕ) :
    ∃ inner after, (final (printf fmt args (transferring m g))).log =
        [] ++ StdioEvent.lock :: (inner ++ after) ∧
      (∀ e ∈ after, e = .unlock) ∧ (∀ e ∈ StdioEvent.lock :: (inner ++ after), e.Transfers) ∧
      (play (transferring m g).kernel (transferring m g).garbage
        (pieces fmt.tokens args) 0 [.lock]).2 = [.lock] ++ inner := by
  obtain ⟨events, hlog⟩ := prefix_printf fmt args (transferring m g)
  obtain ⟨inner, after, rfl, hafter, hplay⟩ := printf_events hlog.symm
  refine ⟨inner, after, hlog.symm, hafter, ?_, hplay⟩
  have htransfers := @transfers_play (transferring m g).kernel (transferring m g).garbage 0
    [.lock] (fun _ _ => rfl) (pieces fmt.tokens args) (by simp [StdioEvent.Transfers])
  change (play _ _ _ 0 [.lock]).2 = [.lock] ++ inner at hplay
  rw [hplay] at htransfers
  refine List.forall_mem_cons.2 ⟨trivial, List.forall_mem_append.2 ⟨fun e he =>
    htransfers e (List.mem_append_right _ he), fun e he => ?_⟩⟩
  rw [hafter e he]
  exact trivial

/-- A play that guesses `g` at one piece and otherwise zero. -/
theorem play_transferring {pre mid : List Piece} {piece : Piece} {g : ℕ} (hg : g < 2)
    (hguesses : piece.Guesses) (hgoes : ∀ p ∈ pre ++ piece :: mid, p.Goes)
    (htexts : ∀ data, .text data ∈ pre ++ piece :: mid → ¬ Failed data.length) : ∃ log,
    play (transferring (eventCount pre + piece.eventCount) g).kernel
      (transferring (eventCount pre + piece.eventCount) g).garbage (pre ++ piece :: mid) 0 [.lock] =
        (.ok (some (counted pre + g + counted mid)), log) ∧ .unassigned ∈ log := by
  have hkernel : ∀ log data, (transferring (eventCount pre + piece.eventCount) g).kernel log data =
      data.length := fun _ _ => rfl
  have hgarbage : ∀ log, (transferring (eventCount pre + piece.eventCount) g).garbage log =
      if log.length = eventCount pre + piece.eventCount then BitVec.ofNat 32 g else 0 :=
    fun _ => rfl
  generalize (transferring (eventCount pre + piece.eventCount) g).kernel = kernel at hkernel
  generalize (transferring (eventCount pre + piece.eventCount) g).garbage = garbage at hgarbage
  have hok : ∀ data, .text data ∈ pre ++ piece :: mid → ∀ log, ¬ Failed (kernel log data) := by
    intro data hmem log
    rw [hkernel]
    exact htexts data hmem
  obtain ⟨hgoesPre, hgoesRest⟩ := List.forall_mem_append.1 hgoes
  obtain ⟨hgoesPiece, hgoesMid⟩ := List.forall_mem_cons.1 hgoesRest
  have hpos := hgoesPiece.eventCount_pos
  obtain ⟨log, hpre, hlen⟩ : ∃ log,
      play kernel garbage pre 0 [.lock] = (.ok (some (0 + counted pre)), log) ∧
        log.length = [StdioEvent.lock].length + eventCount pre := by
    refine play_goes 0 [.lock] hgoesPre
      (fun data hdata log _ => hok data (List.mem_append_left _ hdata) log) fun log _ hlt => ?_
    rw [List.length_singleton] at hlt
    rw [hgarbage, if_neg (by omega)]
  rw [List.length_singleton] at hlen
  have hguess : ∀ log', log'.length = eventCount pre + piece.eventCount → ∃ log'',
      play kernel garbage (.unknown :: mid) (0 + counted pre) log' =
        (.ok (some (counted pre + g + counted mid)), log'') ∧ .unassigned ∈ log'' := by
    intro log' hlen'
    have hread : (garbage log').toInt = g := by
      rw [hgarbage, if_pos hlen']
      obtain rfl | rfl : g = 0 ∨ g = 1 := by omega
      · rfl
      · rfl
    obtain ⟨log'', hmid, -⟩ := @play_goes kernel garbage mid (0 + counted pre + g)
      (log' ++ [.unassigned]) hgoesMid (fun data hdata log _ =>
        hok data (List.mem_append_right _ (List.mem_cons_of_mem _ hdata)) log) fun log hle _ => by
          rw [List.length_append, List.length_singleton] at hle
          rw [hgarbage, if_neg (by omega)]
    have hgrows := prefix_play kernel garbage mid (0 + counted pre + g) (log' ++ [.unassigned])
    rw [hmid] at hgrows
    refine ⟨log'', ?_, hgrows.subset (List.mem_append_right _ (List.mem_singleton_self _))⟩
    rw [play_unknown hread, hmid, Int.zero_add]
  rw [play_append_of_ok hpre]
  cases piece with
  | hex data =>
      rw [play_hex]
      refine hguess _ ?_
      rw [List.length_append, hlen, List.length_singleton, Piece.eventCount]
      omega
  | unknown => exact hguess log (by rw [hlen, Piece.eventCount, Nat.add_comm])
  | text data => exact hguesses.elim
  | malformed => exact hguesses.elim
  | stuck e => exact hguesses.elim

/-- Without guesses the result is the total, as far as it is an `int`. -/
theorem result_of_counts {fmt : CString} {args : List Arg} (h : CountsOutput fmt args)
    (hgoes : ∀ piece ∈ pieces fmt.tokens args, piece.Goes)
    (hassigned : ∀ piece ∈ pieces fmt.tokens args, ¬ piece.Guesses)
    (htexts : ∀ data, .text data ∈ pieces fmt.tokens args → ¬ Failed data.length)
    (hne : counted (pieces fmt.tokens args) % 2 ^ 32 ≠ 2 ^ 32 - 1) :
    counted (pieces fmt.tokens args) < 2 ^ 31 := by
  obtain ⟨inner, after, hlog, hafter, htransfers, hinner⟩ := exists_run_transferring fmt args 0 0
  obtain ⟨log, hplay, -⟩ := @play_goes (transferring 0 0).kernel (transferring 0 0).garbage
    (pieces fmt.tokens args) 0 [.lock] hgoes (fun data hdata _ _ => htexts data hdata)
    fun log _ _ => ite_self _
  obtain ⟨t, ht⟩ : ∃ t, printf fmt args (transferring 0 0) =
      .ok (BitVec.ofInt 32 (counted (pieces fmt.tokens args))).toInt t := by
    rw [printf_ok_iff]
    change (finishPlay (play _ _ _ 0 [.lock])).1 = _
    rw [hplay, Int.zero_add]
    rfl
  obtain ⟨r, u, hr, hcounts⟩ := h _ _ hlog htransfers
  obtain rfl := (eq_of_ok (ht.symm.trans hr)).1
  obtain ⟨hresult, -⟩ := hcounts (mt (toInt_total_eq_neg_one_iff _).1 hne)
  obtain ⟨events, hevents, hcounted⟩ := @play_counts (transferring 0 0).kernel
    (transferring 0 0).garbage _ hgoes 0 [.lock]
  obtain rfl : inner = events := List.append_cancel_left (hinner.symm.trans hevents)
  have hpassed := ((hcounted (fun e he => htransfers e
    (List.mem_cons_of_mem _ (List.mem_append_left _ he))) (by rw [hplay]; nofun)).assigned
      hassigned).2.1
  rw [passed_bracket hafter, hpassed] at hresult
  exact (toInt_total_eq_iff _).1 hresult

/-- A guess is read in a run that does not return -1. -/
theorem not_counts_of_guesses {fmt : CString} {args : List Arg} {going rest : List Piece}
    {piece : Piece} (hpieces : pieces fmt.tokens args = going ++ rest)
    (hgoes : ∀ p ∈ going, p.Goes) (hends : Ends rest) (hmalformed : rest ≠ [.malformed])
    (htexts : ∀ data, .text data ∈ going → ¬ Failed data.length) (hmem : piece ∈ going)
    (hguesses : piece.Guesses) : ¬ CountsOutput fmt args := by
  intro h
  obtain ⟨pre, mid, rfl⟩ := List.append_of_mem hmem
  obtain ⟨g, hg, hne⟩ := exists_ne_neg_one (counted pre + counted mid)
  obtain ⟨log, hplay, hunassigned⟩ := play_transferring hg hguesses hgoes htexts
  obtain ⟨inner, after, hlog, hafter, htransfers, hinner⟩ :=
    exists_run_transferring fmt args (eventCount pre + piece.eventCount) g
  obtain ⟨r, t, hr, hassigned⟩ := h _ _ hlog htransfers
  have happend : play _ _ ((pre ++ piece :: mid) ++ rest) 0 [.lock] = _ := play_append_of_ok hplay
  rw [hpieces, happend] at hinner
  refine (hassigned ?_).2 ?_
  · rintro rfl
    have hresult := printf_ok_iff.1 ⟨t, hr⟩
    rw [hpieces] at hresult
    change (finishPlay (play _ _ _ 0 [.lock])).1 = _ at hresult
    rw [happend] at hresult
    rcases hends with rfl | rfl | ⟨e, rfl⟩
    · refine hne (Eq.trans ?_ (Except.ok.inj hresult))
      rw [Int.add_right_comm]
    · exact hmalformed rfl
    · cases hresult
  · have hgrows := prefix_play (transferring (eventCount pre + piece.eventCount) g).kernel
      (transferring (eventCount pre + piece.eventCount) g).garbage rest
      (counted pre + g + counted mid) log
    rw [hinner] at hgrows
    have hmem' := (List.mem_cons.1 (hgrows.subset hunassigned)).resolve_left (by simp)
    exact List.mem_cons_of_mem _ (List.mem_append_left _ hmem')

/-- A run that gets stuck does not return. -/
theorem not_counts_of_stuck {fmt : CString} {args : List Arg} {going : List Piece} {e : Stop}
    (hpieces : pieces fmt.tokens args = going ++ [.stuck e]) (hgoes : ∀ p ∈ going, p.Goes)
    (htexts : ∀ data, .text data ∈ going → ¬ Failed data.length) : ¬ CountsOutput fmt args := by
  intro h
  obtain ⟨inner, after, hlog, -, htransfers, -⟩ := exists_run_transferring fmt args 0 0
  obtain ⟨r, t, hr, -⟩ := h _ _ hlog htransfers
  have hkernel : ∀ data, .text data ∈ going → ∀ log,
      ¬ Failed ((transferring 0 0).kernel log data) := fun data hdata _ => htexts data hdata
  have hgarbage : ∀ log, (transferring 0 0).garbage log = 0 := fun _ => ite_self _
  exact printf_ne_ok_of_stuck hpieces hgoes hkernel hgarbage r t hr

theorem assigns_of_counts {fmt : CString} {args : List Arg} (h : CountsOutput fmt args) :
    AssignsAll (pieces fmt.tokens args) := by
  by_contra hnot
  rw [AssignsAll, not_or, not_or] at hnot
  obtain ⟨htexts, hmalformed, hrest⟩ := hnot
  obtain ⟨going, rest, hpieces, hgoes, hends⟩ := exists_ends fmt.tokens args
  rw [hpieces] at htexts hmalformed hrest
  have hshort : ∀ data, .text data ∈ going → ¬ Failed data.length :=
    fun data hmem hfailed => htexts ⟨data, List.mem_append_left _ hmem, hfailed⟩
  have hnotMalformed : rest ≠ [.malformed] := by
    rintro rfl
    exact hmalformed (List.mem_append_right _ List.mem_cons_self)
  have hguesses : ∀ piece ∈ going, ¬ piece.Guesses := fun piece hmem hguesses =>
    not_counts_of_guesses hpieces hgoes hends hnotMalformed hshort hmem hguesses h
  rcases hends with rfl | rfl | ⟨e, rfl⟩
  · rw [List.append_nil] at hpieces hrest
    have hfits := not_and.1 hrest fun piece hmem => ⟨hgoes piece hmem, hguesses piece hmem⟩
    rw [not_or] at hfits
    rw [← hpieces] at hgoes hguesses hshort hfits
    exact hfits.1 (result_of_counts h hgoes hguesses hshort hfits.2)
  · exact hnotMalformed rfl
  · exact not_counts_of_stuck hpieces hgoes hshort h

/-- The result of `printf` is right exactly when all directives are carried out and assign
their variable and the number of the bytes is an `int`, or when it is sure to be -1. -/
theorem countsOutput_iff (fmt : CString) (args : List Arg) :
    CountsOutput fmt args ↔ AssignsAll (pieces fmt.tokens args) :=
  ⟨assigns_of_counts, counts_of_assigns⟩

/-- `%x` adds what the variable happens to hold. -/
theorem countsOutput_fails : ¬ ∀ (fmt : CString) (args : List Arg), CountsOutput fmt args := by
  intro h
  have hpieces : pieces (CString.tokens ⟨[byteOf '%', byteOf 'x'], by decide⟩) [.word 0] =
      [.hex (hexText 0 ++ [0])] := by decide
  rcases hpieces ▸ assigns_of_counts (h _ [.word 0]) with ⟨data, hmem, -⟩ | hmem | ⟨hguesses, -⟩
  · cases List.mem_singleton.1 hmem
  · cases List.mem_singleton.1 hmem
  · exact (hguesses _ List.mem_cons_self).2 trivial

end Ciabatta.StdlibFile
