import Ciabatta.StdlibFile.Pieces

/-!
How the play of a list of pieces goes. All pieces but the last one let it go on, and
it goes through them as long as no write call fails and nothing negative is read from
the unassigned variable.
-/

namespace Ciabatta.StdlibFile

open ByteMemory Exec

variable {kernel : List StdioEvent → List Byte → ℤ} {garbage : List StdioEvent → BitVec 32}
  {piece : Piece} {ps rest : List Piece} {retPrinted : ℤ} {log : List StdioEvent}

/-! ### Pieces -/

/-- The play may go on behind the piece. -/
def Piece.Goes : Piece → Prop
  | .malformed => False
  | .stuck _ => False
  | _ => True

/-- What the piece adds to `ret_printed`, apart from what it reads from the
unassigned variable. -/
def Piece.counted : Piece → ℕ
  | .text data => data.length
  | _ => 0

/-- The length of the record of the piece. -/
def Piece.eventCount : Piece → ℕ
  | .text _ => 1
  | .hex _ => 2
  | .unknown => 1
  | _ => 0

def counted (ps : List Piece) : ℕ := (ps.map Piece.counted).sum

def eventCount (ps : List Piece) : ℕ := (ps.map Piece.eventCount).sum

/-- What stands behind the pieces that let the play go on. -/
def Ends (rest : List Piece) : Prop :=
  rest = [] ∨ rest = [.malformed] ∨ ∃ e, rest = [.stuck e]

theorem directivePiece_ne_malformed (size : IntSize) (letter : Byte) (args : List Arg) :
    (directivePiece size letter args).1 ≠ .malformed := by
  have hnumber : ∀ text, numberPiece text ≠ .malformed := by
    intro text
    rw [numberPiece]
    split_ifs <;> simp
  have hword : ∀ w, wordPiece size letter w ≠ .malformed := by
    intro w
    rw [wordPiece]
    split_ifs
    · exact hnumber _
    · exact hnumber _
    all_goals simp
  have hstring : ∀ str, stringPiece str ≠ .malformed := by
    intro str
    rw [stringPiece]
    split_ifs <;> simp
  rw [directivePiece]
  split_ifs
  · rcases args with _ | ⟨w | str, args⟩
    · simp [takeWord]
    · exact hword w
    · simp [takeWord]
  · rcases args with _ | ⟨w | str, args⟩
    · simp [takeString]
    · simp [takeString]
    · exact hstring str
  · simp

theorem Ends.not_goes (h : Ends rest) : ∀ piece ∈ rest, ¬ piece.Goes := by
  rcases h with rfl | rfl | ⟨e, rfl⟩ <;> simp [Piece.Goes]

/-- A piece that lets the play go on does not stand at the end. -/
theorem Ends.split {pre post going : List Piece} (h : Ends rest) (hgoes : piece.Goes)
    (heq : pre ++ piece :: post = going ++ rest) :
    ∃ mid, going = pre ++ piece :: mid ∧ post = mid ++ rest := by
  rcases List.append_eq_append_iff.1 heq with ⟨mid, hgoing, hmid⟩ | ⟨mid, -, hrest⟩
  · cases mid with
    | nil =>
        have hmem : piece ∈ rest := by
          rw [← List.nil_append rest, ← hmid]
          exact List.mem_cons_self
        exact absurd hgoes (h.not_goes piece hmem)
    | cons piece' mid =>
        obtain ⟨rfl, rfl⟩ := List.cons_eq_cons.1 hmid
        exact ⟨mid, hgoing, rfl⟩
  · have hmem : piece ∈ rest := by
      rw [hrest]
      exact List.mem_append_right _ List.mem_cons_self
    exact absurd hgoes (h.not_goes piece hmem)

/-- A directive is stuck, or the tokens behind it follow. -/
theorem pieces_directive (size : IntSize) (letter : Byte) (tokens : List Token) (args : List Arg) :
    (∃ e, (directivePiece size letter args).1 = .stuck e ∧
      pieces (.directive size letter :: tokens) args = [.stuck e]) ∨
    (directivePiece size letter args).1.Goes ∧
      pieces (.directive size letter :: tokens) args = (directivePiece size letter args).1 ::
        pieces tokens (directivePiece size letter args).2 := by
  have hne := directivePiece_ne_malformed size letter args
  rw [pieces]
  generalize directivePiece size letter args = taken at hne
  obtain ⟨piece, args'⟩ := taken
  cases piece with
  | stuck e => exact .inl ⟨e, rfl, rfl⟩
  | malformed => exact absurd rfl hne
  | text data => exact .inr ⟨trivial, rfl⟩
  | hex data => exact .inr ⟨trivial, rfl⟩
  | unknown => exact .inr ⟨trivial, rfl⟩

theorem exists_ends (tokens : List Token) (args : List Arg) : ∃ going rest,
    pieces tokens args = going ++ rest ∧ (∀ piece ∈ going, piece.Goes) ∧ Ends rest := by
  induction tokens generalizing args with
  | nil => exact ⟨[], [], rfl, by simp, .inl rfl⟩
  | cons token tokens ih =>
      have hcons : ∀ (piece : Piece) (args : List Arg), piece.Goes → ∃ going rest,
          piece :: pieces tokens args = going ++ rest ∧
            (∀ piece ∈ going, piece.Goes) ∧ Ends rest := by
        intro piece args hpiece
        obtain ⟨going, rest, heq, hgoing, hrest⟩ := ih args
        exact ⟨piece :: going, rest, by rw [heq]; rfl, List.forall_mem_cons.2 ⟨hpiece, hgoing⟩,
          hrest⟩
      cases token with
      | literal bytes =>
          rw [pieces]
          split_ifs
          · exact hcons (.text bytes) args trivial
          · exact ih args
      | directive size letter =>
          rcases pieces_directive size letter tokens args with ⟨e, -, heq⟩ | ⟨hgoes, heq⟩ <;>
            rw [heq]
          · exact ⟨[], [.stuck e], rfl, by simp, .inr (.inr ⟨e, rfl⟩)⟩
          · exact hcons _ _ hgoes
      | cut =>
          exact ⟨[.unknown], [.stuck .overread], rfl, by simp [Piece.Goes], .inr (.inr ⟨_, rfl⟩)⟩
      | malformed => exact ⟨[], [.malformed], rfl, by simp, .inr (.inl rfl)⟩

/-! ### Plays -/

theorem play_append : play kernel garbage (ps ++ rest) retPrinted log =
    match play kernel garbage ps retPrinted log with
    | (.ok (some retPrinted), log) => play kernel garbage rest retPrinted log
    | stopped => stopped := by
  induction ps generalizing retPrinted log with
  | nil => rfl
  | cons piece ps ih =>
      rw [List.cons_append, play, play]
      obtain ⟨r, log'⟩ := playPiece kernel garbage piece retPrinted log
      rcases r with e | _ | retPrinted
      · rfl
      · rfl
      · exact ih

theorem play_append_of_ok {retPrinted' : ℤ} {log' : List StdioEvent}
    (h : play kernel garbage ps retPrinted log = (.ok (some retPrinted'), log')) :
    play kernel garbage (ps ++ rest) retPrinted log =
      play kernel garbage rest retPrinted' log' := by
  rw [play_append, h]

/-- A play that has ended at `_error` goes no further. -/
theorem play_ne_none_of_append
    (h : (play kernel garbage (ps ++ rest) retPrinted log).1 ≠ .ok none) :
    (play kernel garbage ps retPrinted log).1 ≠ .ok none := by
  intro hnone
  rw [play_append] at h
  generalize play kernel garbage ps retPrinted log = played at h hnone
  obtain ⟨r, log'⟩ := played
  cases hnone
  exact h rfl

/-- But for its write call, `%x` is like a letter that is no conversion. -/
theorem play_hex (data : List Byte) : play kernel garbage (.hex data :: ps) retPrinted log =
    play kernel garbage (.unknown :: ps) retPrinted (log ++ [.write data (kernel log data)]) :=
  rfl

theorem play_unknown {g : ℕ} (hg : (garbage log).toInt = g) :
    play kernel garbage (.unknown :: ps) retPrinted log =
      play kernel garbage ps (retPrinted + g) (log ++ [.unassigned]) := by
  rw [play, playPiece, guess, hg, if_neg (Int.not_lt.2 (Int.natCast_nonneg g))]

theorem prefix_playPiece (kernel : List StdioEvent → List Byte → ℤ)
    (garbage : List StdioEvent → BitVec 32) (piece : Piece) (retPrinted : ℤ)
    (log : List StdioEvent) : log <+: (playPiece kernel garbage piece retPrinted log).2 := by
  cases piece with
  | text data => exact List.prefix_append _ _
  | hex data =>
      rw [playPiece, guess, List.append_assoc]
      exact List.prefix_append _ _
  | unknown => exact List.prefix_append _ _
  | malformed => exact List.prefix_rfl
  | stuck e => exact List.prefix_rfl

theorem prefix_play (kernel : List StdioEvent → List Byte → ℤ)
    (garbage : List StdioEvent → BitVec 32) (ps : List Piece) (retPrinted : ℤ)
    (log : List StdioEvent) : log <+: (play kernel garbage ps retPrinted log).2 := by
  induction ps generalizing retPrinted log with
  | nil => exact List.prefix_rfl
  | cons piece ps ih =>
      have hpiece := prefix_playPiece kernel garbage piece retPrinted log
      rw [play]
      generalize playPiece kernel garbage piece retPrinted log = played at hpiece
      obtain ⟨e | _ | retPrinted, log'⟩ := played
      · exact hpiece
      · exact hpiece
      · exact hpiece.trans (ih retPrinted log')

theorem prefix_play_append (kernel : List StdioEvent → List Byte → ℤ)
    (garbage : List StdioEvent → BitVec 32) (ps rest : List Piece) (retPrinted : ℤ)
    (log : List StdioEvent) : (play kernel garbage ps retPrinted log).2 <+:
      (play kernel garbage (ps ++ rest) retPrinted log).2 := by
  rw [play_append]
  generalize play kernel garbage ps retPrinted log = played
  obtain ⟨e | _ | retPrinted, log'⟩ := played
  · exact List.prefix_rfl
  · exact List.prefix_rfl
  · exact prefix_play kernel garbage rest retPrinted log'

theorem prefix_play_cons (kernel : List StdioEvent → List Byte → ℤ)
    (garbage : List StdioEvent → BitVec 32) (piece : Piece) (ps : List Piece) (retPrinted : ℤ)
    (log : List StdioEvent) : (playPiece kernel garbage piece retPrinted log).2 <+:
      (play kernel garbage (piece :: ps) retPrinted log).2 := by
  rw [play]
  generalize playPiece kernel garbage piece retPrinted log = played
  obtain ⟨e | _ | retPrinted, log'⟩ := played
  · exact List.prefix_rfl
  · exact List.prefix_rfl
  · exact prefix_play kernel garbage ps retPrinted log'

theorem Piece.Goes.eventCount_pos (h : piece.Goes) : 0 < piece.eventCount := by
  cases piece with
  | text data => exact Nat.one_pos
  | hex data => exact Nat.two_pos
  | unknown => exact Nat.one_pos
  | malformed => exact h.elim
  | stuck e => exact h.elim

/-- A piece that lets the play go on, with a kernel that reports no failure and a
variable that holds zero. -/
theorem playPiece_goes (retPrinted : ℤ) (hgoes : piece.Goes)
    (hkernel : ∀ data, piece = .text data → ¬ Failed (kernel log data))
    (hgarbage : ∀ log', log.length ≤ log'.length → log'.length < log.length + piece.eventCount →
      garbage log' = 0) :
    ∃ log', playPiece kernel garbage piece retPrinted log =
      (.ok (some (retPrinted + piece.counted)), log') ∧
        log'.length = log.length + piece.eventCount := by
  have hguess : ∀ log', log.length ≤ log'.length → log'.length < log.length + piece.eventCount →
      guess garbage retPrinted log' =
        (.ok (some (retPrinted + (0 : ℕ))), log' ++ [.unassigned]) := by
    intro log' hle hlt
    rw [guess, hgarbage log' hle hlt]
    rfl
  cases piece with
  | text data =>
      have hok := hkernel data rfl
      refine ⟨log ++ [.write data (kernel log data)], ?_, List.length_append⟩
      rw [playPiece, if_neg hok]
      rfl
  | hex data =>
      have hlen : (log ++ [StdioEvent.write data (kernel log data)]).length = log.length + 1 :=
        List.length_append
      refine ⟨log ++ [.write data (kernel log data)] ++ [.unassigned], ?_, ?_⟩
      · rw [playPiece, hguess _ (by rw [hlen]; omega) (by rw [hlen, Piece.eventCount]; omega)]
        rfl
      · rw [List.length_append, hlen]
        rfl
  | unknown =>
      refine ⟨log ++ [.unassigned], ?_, List.length_append⟩
      rw [playPiece, hguess log le_rfl (Nat.lt_succ_self _)]
      rfl
  | malformed => exact hgoes.elim
  | stuck e => exact hgoes.elim

theorem play_goes (retPrinted : ℤ) (log : List StdioEvent) (hgoes : ∀ piece ∈ ps, piece.Goes)
    (hkernel : ∀ data, .text data ∈ ps → ∀ log', log'.length < log.length + eventCount ps →
      ¬ Failed (kernel log' data))
    (hgarbage : ∀ log', log.length ≤ log'.length → log'.length < log.length + eventCount ps →
      garbage log' = 0) :
    ∃ log', play kernel garbage ps retPrinted log =
      (.ok (some (retPrinted + counted ps)), log') ∧ log'.length = log.length + eventCount ps := by
  induction ps generalizing retPrinted log with
  | nil => exact ⟨log, by rw [play, counted, List.map_nil, List.sum_nil]; simp, rfl⟩
  | cons piece ps ih =>
      rw [List.forall_mem_cons] at hgoes
      have hevents : eventCount (piece :: ps) = piece.eventCount + eventCount ps := rfl
      have hcounted : counted (piece :: ps) = piece.counted + counted ps := rfl
      have hpos := hgoes.1.eventCount_pos
      rw [hevents] at hgarbage hkernel ⊢
      obtain ⟨log₁, hpiece, hlen₁⟩ := playPiece_goes retPrinted hgoes.1
        (fun data hdata => hkernel data (hdata ▸ List.mem_cons_self) log (by omega))
        fun log' hle hlt => hgarbage log' hle (by omega)
      obtain ⟨log₂, hplay, hlen₂⟩ := ih (retPrinted + piece.counted) log₁ hgoes.2
        (fun data hdata log' hlt => hkernel data (List.mem_cons_of_mem _ hdata) log' (by omega))
        fun log' hle hlt => hgarbage log' (by omega) (by omega)
      refine ⟨log₂, ?_, by omega⟩
      rw [play, hpiece]
      dsimp only
      rw [hplay, hcounted, Nat.cast_add, Int.add_assoc]

/-! ### The whole of `printf` -/

/-- Of two totals that follow one another, one is not reported as -1. -/
theorem exists_ne_neg_one (n : ℤ) : ∃ g : ℕ, g < 2 ∧ (BitVec.ofInt 32 (n + g)).toInt ≠ -1 := by
  by_cases hn : (BitVec.ofInt 32 n).toInt = -1
  · refine ⟨1, by decide, fun hnext => ?_⟩
    rw [BitVec.toInt_ofInt, Int.bmod_def] at hn hnext
    omega
  · exact ⟨0, by decide, by rwa [Nat.cast_zero, Int.add_zero]⟩

theorem log_final_resume {α : Type} (s : Stdio) (args : List Arg)
    (played : Except Stop α × List StdioEvent) : (final (resume s args played)).log = played.2 := by
  obtain ⟨r, log⟩ := played
  cases r <;> rfl

theorem log_finishPlay (played : Played) : ∃ after, (∀ e ∈ after, e = .unlock) ∧
    (finishPlay played).2 = played.2 ++ after := by
  obtain ⟨e | _ | retPrinted, log⟩ := played
  · exact ⟨[], by simp, (List.append_nil _).symm⟩
  · exact ⟨[.unlock], by simp, rfl⟩
  · exact ⟨[.unlock], by simp, rfl⟩

theorem prefix_printf (fmt : CString) (args : List Arg) (s : Stdio) :
    s.log <+: (final (printf fmt args s)).log := by
  obtain ⟨args', hrun⟩ := printf_run fmt args s
  obtain ⟨after, -, hlog⟩ := log_finishPlay
    (play s.kernel s.garbage (pieces fmt.tokens args) 0 (s.log ++ [.lock]))
  rw [hrun, log_final_resume, hlog]
  exact ((List.prefix_append _ _).trans (prefix_play _ _ _ _ _)).trans (List.prefix_append _ _)

/-- The events of a run are the lock, those of the play, and the unlock if it returns. -/
theorem printf_events {fmt : CString} {args : List Arg} {s : Stdio} {events : List StdioEvent}
    (h : (final (printf fmt args s)).log = s.log ++ events) : ∃ inner after,
    events = .lock :: (inner ++ after) ∧ (∀ e ∈ after, e = .unlock) ∧
      (play s.kernel s.garbage (pieces fmt.tokens args) 0 (s.log ++ [.lock])).2 =
        s.log ++ [.lock] ++ inner := by
  obtain ⟨args', hrun⟩ := printf_run fmt args s
  obtain ⟨inner, hinner⟩ :=
    prefix_play s.kernel s.garbage (pieces fmt.tokens args) 0 (s.log ++ [.lock])
  obtain ⟨after, hafter, hlog⟩ := log_finishPlay
    (play s.kernel s.garbage (pieces fmt.tokens args) 0 (s.log ++ [.lock]))
  refine ⟨inner, after, ?_, hafter, hinner.symm⟩
  rw [hrun, log_final_resume, hlog, ← hinner, List.append_assoc, List.append_assoc] at h
  exact (List.append_cancel_left h).symm

theorem printf_ok_iff {fmt : CString} {args : List Arg} {s : Stdio} {r : ℤ} :
    (∃ t, printf fmt args s = .ok r t) ↔ (finishPlay
      (play s.kernel s.garbage (pieces fmt.tokens args) 0 (s.log ++ [.lock]))).1 = .ok r := by
  obtain ⟨args', hrun⟩ := printf_run fmt args s
  rw [hrun]
  generalize finishPlay _ = played
  obtain ⟨e | r', log⟩ := played
  · exact iff_of_false (by rintro ⟨t, ht⟩; cases ht) (by rintro ⟨⟩)
  · constructor
    · rintro ⟨t, ht⟩
      rw [(eq_of_ok ht).1]
    · intro h
      cases h
      exact ⟨_, rfl⟩

/-! ### Runs that stop -/

theorem eq_stuck_of_playPiece {e : Stop}
    (h : (playPiece kernel garbage piece retPrinted log).1 = .error e) : piece = .stuck e := by
  cases piece with
  | stuck e' =>
      cases h
      rfl
  | malformed => cases h
  | text data => cases h
  | hex data => cases h
  | unknown => cases h

theorem stuck_mem_of_play {e : Stop} (h : (play kernel garbage ps retPrinted log).1 = .error e) :
    .stuck e ∈ ps := by
  induction ps generalizing retPrinted log with
  | nil => cases h
  | cons piece ps ih =>
      cases hpiece : playPiece kernel garbage piece retPrinted log with
      | mk r log' =>
          rw [play, hpiece] at h
          rcases r with e' | _ | retPrinted
          · cases h
            rw [eq_stuck_of_playPiece (congrArg Prod.fst hpiece)]
            exact List.mem_cons_self
          · cases h
          · exact List.mem_cons_of_mem _ (ih h)

/-- A run that does not return is stuck at a piece. -/
theorem stuck_mem_of_stops {fmt : CString} {args : List Arg} {s : Stdio} {e : Stop}
    (h : Stops (printf fmt args) s e) : .stuck e ∈ pieces fmt.tokens args := by
  obtain ⟨t, ht⟩ := h
  obtain ⟨args', hrun⟩ := printf_run fmt args s
  rw [hrun] at ht
  have hplay : (play s.kernel s.garbage (pieces fmt.tokens args) 0 (s.log ++ [.lock])).1 =
      .error e := by
    generalize play s.kernel s.garbage (pieces fmt.tokens args) 0 (s.log ++ [.lock]) = played at ht
    obtain ⟨e' | _ | retPrinted, log⟩ := played
    · cases ht
      rfl
    · cases ht
    · cases ht
  exact stuck_mem_of_play hplay

/-- Where all directives are carried out, `printf` returns. -/
theorem exists_printf_ok {fmt : CString} {args : List Arg}
    (h : ∀ e, .stuck e ∉ pieces fmt.tokens args) (s : Stdio) :
    ∃ r t, printf fmt args s = .ok r t := by
  cases hrun : printf fmt args s with
  | ok r t => exact ⟨r, t, rfl⟩
  | error e t => exact absurd (stuck_mem_of_stops ⟨t, hrun⟩) (h e)

/-- It does not get past a piece that it is stuck at, where nothing makes it return
before. -/
theorem printf_ne_ok_of_stuck {fmt : CString} {args : List Arg} {s : Stdio} {going : List Piece}
    {e : Stop} (hpieces : pieces fmt.tokens args = going ++ [.stuck e])
    (hgoes : ∀ piece ∈ going, piece.Goes)
    (hkernel : ∀ data, .text data ∈ going → ∀ log, ¬ Failed (s.kernel log data))
    (hgarbage : ∀ log, s.garbage log = 0) (r : ℤ) (t : Stdio) :
    printf fmt args s ≠ .ok r t := by
  intro hrun
  obtain ⟨log, hplay, -⟩ := @play_goes s.kernel s.garbage going 0 (s.log ++ [.lock]) hgoes
    (fun data hdata log _ => hkernel data hdata log) fun log _ _ => hgarbage log
  have hresult := printf_ok_iff.1 ⟨t, hrun⟩
  rw [hpieces, play_append_of_ok hplay] at hresult
  cases hresult

/-- Why a directive is not carried out. -/
theorem stuck_of_directivePiece {size : IntSize} {letter : Byte} {args : List Arg} {e : Stop}
    (h : (directivePiece size letter args).1 = .stuck e) :
    e = .badArgument ∨ e = .outOfBounds ∨ e = .signedOverflow := by
  have hnumber : ∀ text, numberPiece text = .stuck e → e = .outOfBounds := by
    intro text h
    rw [numberPiece] at h
    split_ifs at h
    cases h
    rfl
  rw [directivePiece] at h
  split_ifs at h
  · rcases args with _ | ⟨w | str, args⟩
    · cases h
      exact .inl rfl
    · change wordPiece size letter w = .stuck e at h
      rw [wordPiece] at h
      split_ifs at h
      · exact .inr (.inl (hnumber _ h))
      · exact .inr (.inl (hnumber _ h))
    · cases h
      exact .inl rfl
  · rcases args with _ | ⟨w | str, args⟩
    · cases h
      exact .inl rfl
    · cases h
      exact .inl rfl
    · change stringPiece str = .stuck e at h
      rw [stringPiece] at h
      split_ifs at h
      cases h
      exact .inr (.inr rfl)

/-- The format itself is to blame only if it ends in a directive. -/
theorem stuck_cases {tokens : List Token} {args : List Arg} {e : Stop}
    (h : .stuck e ∈ pieces tokens args) : e = .badArgument ∨ e = .outOfBounds ∨
      e = .signedOverflow ∨ e = .overread ∧ .cut ∈ tokens := by
  induction tokens generalizing args with
  | nil => cases h
  | cons token tokens ih =>
      -- what is said of the tokens behind the first one
      have hmore : ∀ {args}, .stuck e ∈ pieces tokens args → e = .badArgument ∨ e = .outOfBounds ∨
          e = .signedOverflow ∨ e = .overread ∧ .cut ∈ token :: tokens :=
        fun h => (ih h).imp_right (.imp_right (.imp_right (.imp_right (List.mem_cons_of_mem _))))
      cases token with
      | literal bytes =>
          rw [pieces] at h
          split_ifs at h
          · exact hmore ((List.mem_cons.1 h).resolve_left (by simp))
          · exact hmore h
      | directive size letter =>
          rcases pieces_directive size letter tokens args with ⟨e', he, heq⟩ | ⟨hgoes, heq⟩ <;>
            rw [heq] at h
          · cases List.mem_singleton.1 h
            exact (stuck_of_directivePiece he).imp_right (.imp_right .inl)
          · refine hmore ((List.mem_cons.1 h).resolve_left fun hstuck => ?_)
            rw [← hstuck] at hgoes
            exact hgoes
      | cut =>
          have hmem := (List.mem_cons.1 h).resolve_left (by simp)
          cases List.mem_singleton.1 hmem
          exact .inr (.inr (.inr ⟨rfl, List.mem_cons_self⟩))
      | malformed =>
          rw [pieces, List.mem_singleton] at h
          cases h

/-- The loops of the program end before their fuel does. -/
abbrev EnoughFuel {σ α : Type} (x : EStateM Stop σ α) : Prop :=
  StopsOnly (· ≠ .outOfFuel) x

theorem enoughFuel_printf (fmt : CString) (args : List Arg) : EnoughFuel (printf fmt args) := by
  intro s e t hstop
  rcases stuck_cases (stuck_mem_of_stops ⟨t, hstop⟩) with rfl | rfl | rfl | ⟨rfl, -⟩ <;> decide

end Ciabatta.StdlibFile
