import Mathlib.Data.List.TakeWhile
import Ciabatta.Loader.StackLines

/-!
What `linux_read_stack_info` finds. The loop over the lines stops at the first
line whose name has seven bytes, whatever they are; a name that fills the name
buffer, or that has a byte which looks like the end of the file, ends it as well.
-/

namespace Ciabatta.Loader

open ByteMemory Exec

/-! ### What a line does to the loop -/

/-- How `linux_read_stack_info` ends. -/
inductive Outcome
  | found (info : StackInfo)
  | missing
  | overflow
  deriving DecidableEq

/-- The line ends the loop. -/
def KernelLine.Decides (line : KernelLine) : Prop :=
  line.cut.length = 7 ∨ nameBufSize ≤ line.cut.length ∨ eofByte ∈ line.name

instance (line : KernelLine) : Decidable line.Decides :=
  inferInstanceAs (Decidable (_ ∨ _ ∨ _))

def KernelLine.outcome (line : KernelLine) : Outcome :=
  if line.cut.length = 7 then .found line.stackInfo
  else if line.cut.length < nameBufSize then .missing
  else .overflow

def deciding (lines : List MapsLine) : Option MapsLine :=
  lines.find? fun line => decide line.Decides

def outcome (lines : List MapsLine) : Outcome :=
  match deciding lines with
  | none => .missing
  | some line => line.outcome

/-- A run that ends as the outcome says; without a find `stack_info` stays as it
was. -/
def EndsAs (x : MapsM ℤ) (s : MapsState) (info : StackInfo) : Outcome → Prop
  | .found i => Yields x s fun r t => r = 0 ∧ t.stackInfo = i
  | .missing => Yields x s fun r t => r ≠ 0 ∧ t.stackInfo = info
  | .overflow => Stops x s .outOfBounds

/-! ### A round over a line -/

variable {s : MapsState} {rest : List Byte} {info : StackInfo} {line : KernelLine} {fuel : ℕ}

namespace KernelLine

/-- What is left of the name behind the cut. -/
def cutRest (line : KernelLine) : List Byte := line.name.dropWhile (· ≠ eofByte)

theorem cut_append (line : KernelLine) : line.cut ++ line.cutRest = line.name :=
  List.takeWhile_append_dropWhile

theorem mem_cut {c : Byte} (hc : c ∈ line.cut) : c ≠ newline ∧ c ≠ eofByte := by
  have hmem : c ∈ line.name := List.takeWhile_subset _ hc
  refine ⟨ne_of_mem_of_not_mem hmem line.name_line, ?_⟩
  simpa using List.mem_takeWhile_imp hc

theorem cutRest_eq (line : KernelLine) :
    (eofByte ∉ line.name ∧ line.cutRest = []) ∨
      (eofByte ∈ line.name ∧ ∃ l, line.cutRest = eofByte :: l) := by
  by_cases h : eofByte ∈ line.name
  · refine .inr ⟨h, ?_⟩
    cases hrest : line.cutRest with
    | nil =>
        rw [cutRest, List.dropWhile_eq_nil_iff] at hrest
        exact absurd (hrest eofByte h) (by simp)
    | cons c l =>
        have hhead := List.head?_dropWhile_not (fun c : Byte => decide (c ≠ eofByte)) line.name
        rw [cutRest] at hrest
        rw [hrest] at hhead
        exact ⟨l, by simp_all⟩
  · refine .inl ⟨h, ?_⟩
    rw [cutRest, List.dropWhile_eq_nil_iff]
    intro c hc
    simpa using ne_of_mem_of_not_mem hc h

theorem endsName_cutRest (line : KernelLine) : EndsName (line.cutRest ++ newline :: rest) := by
  obtain ⟨-, h⟩ | ⟨-, l, h⟩ := line.cutRest_eq
  · exact .inl (by rw [h]; rfl)
  · exact .inr (by rw [h]; rfl)

theorem spaces_cases (line : KernelLine) :
    (∃ k, line.spaces = k + 1) ∨ (line.spaces = 0 ∧ line.name = []) := by
  cases h : line.spaces with
  | zero => exact .inr ⟨rfl, by_contra fun hne => (line.spaces_pos hne).ne' h⟩
  | succ k => exact .inl ⟨k, rfl⟩

/-- Behind the inode comes a space, or the line ends. -/
theorem cur_tail (line : KernelLine) (rest : List Byte) :
    cur (line.tail rest) = chr ' ' ∨ cur (line.tail rest) = chr '\n' := by
  obtain ⟨k, hk⟩ | ⟨hspaces, hname⟩ := line.spaces_cases
  · exact .inl (by rw [tail, hk]; rfl)
  · exact .inr (by rw [tail, hspaces, hname]; rfl)

theorem cur_tail_notDigit (line : KernelLine) (rest : List Byte) :
    ¬ (chr '0' ≤ cur (line.tail rest) ∧ cur (line.tail rest) ≤ chr '9') := by
  obtain h | h := line.cur_tail rest
  · rw [h]
    decide
  · rw [h]
    decide

/-- A line begins with a digit of an address. -/
theorem cur_render (line : KernelLine) (rest : List Byte) :
    cur (line.render ++ rest) ≠ chr '\n' ∧ 0 ≤ cur (line.render ++ rest) := by
  obtain ⟨d, ds, hds⟩ := List.exists_cons_of_ne_nil line.start_ne
  have hd : ∀ d : Fin 16, (hexDigit d).toInt ≠ chr '\n' ∧ 0 ≤ (hexDigit d).toInt := by
    decide
  rw [line.render_append, hds]
  exact hd d

/-- Nor is the newline in front of it the end of the file. -/
theorem cur_pre_render {pre : List Byte} (hpre : pre = [newline] ∨ pre = []) :
    ¬ cur (pre ++ (line.render ++ rest)) = -1 := by
  obtain rfl | rfl := hpre
  · exact (by decide : newline.toInt ≠ -1)
  · exact fun heq => absurd (heq ▸ (line.cur_render rest).2) (by decide)

/-- The fuel is enough for each loop over a part of the line. -/
structure Fueled (line : KernelLine) (fuel : ℕ) : Prop where
  start : line.startDigits.length < fuel
  stop : line.endDigits.length < fuel
  inode : line.inode.length < fuel
  spaces : line.spaces < fuel
  name : line.cut.length < fuel

theorem fueled_of_lt (h : line.render.length < fuel) : line.Fueled fuel := by
  have hlen := congrArg List.length (line.render_append [])
  have hcut := congrArg List.length line.cut_append
  simp only [tail, List.append_nil, List.length_append, List.length_map, List.length_cons,
    List.length_replicate] at hlen hcut
  constructor <;> omega

end KernelLine

theorem yields_skipNewline (pre : List Byte) (h : At (pre ++ rest) info s)
    (hpre : pre = [newline] ∨ pre = [] ∧ cur rest ≠ chr '\n') :
    Yields skipNewline s fun _ t => At rest info t := by
  obtain rfl | ⟨rfl, hrest⟩ := hpre
  · exact h.lastChar_bind (.ite_pos rfl (h.readChar_bind fun t ht => yields_pure ht))
  · exact h.lastChar_bind (.ite_neg hrest (yields_pure h))

section

variable {pre : List Byte} (h : At (pre ++ (line.render ++ rest)) info s)
  (hpre : pre = [newline] ∨ pre = [])
include h hpre

theorem yields_lineStart : Yields skipNewline s fun _ t => At (line.render ++ rest) info t :=
  yields_skipNewline pre h (hpre.imp_right fun hnil => ⟨hnil, (line.cur_render rest).1⟩)

end

theorem yields_readMapping (h : At (line.render ++ rest) info s) (hfuel : line.Fueled fuel)
    (hnarrow : line.Narrow) :
    Yields (readMapping fuel) s fun r t =>
      r = some (hexValue line.startDigits, hexValue line.endDigits, line.flags) ∧
        At (line.tail rest) info t := by
  rw [line.render_append] at h
  refine (yields_readAddrs h hfuel.start hfuel.stop).bind fun r t hr => ?_
  obtain ⟨rfl, ht⟩ := hr
  refine (yields_readFlags ht).bind fun r t hr => ?_
  obtain ⟨rfl, ht⟩ := hr
  refine (yields_skipFields ht).bind fun _ t ht => ?_
  rw [List.drop_left' (line.narrow_iff.mp hnarrow)] at ht
  refine (yields_readDec ht (line.cur_tail_notDigit rest) line.inode_ne line.inode_lt
    hfuel.inode).bind fun r t hr => ?_
  obtain ⟨rfl, ht⟩ := hr
  exact .ite_neg (by decide) (yields_pure ⟨rfl, ht⟩)

theorem yields_compare (nameBuf : List Byte) :
    Yields (loop (compareRound nameBuf) 8 0) s fun _ t => t = s := by
  refine yields_loop (fun i t => i ≤ 7 ∧ t = s) (fun i => 7 - i) ?_ ⟨by decide, rfl⟩ (by decide)
  intro i t ⟨hi, ht⟩
  by_cases hlt : i < 7
  · refine .ite_pos hlt ?_
    split <;> exact yields_pure ⟨⟨by omega, ht⟩, by omega⟩
  · exact .ite_neg hlt (yields_pure ht)

/-- A line up to its inode is skipped, with its addresses and flags kept. -/
theorem lineRound_leads {pre : List Byte} (h : At (pre ++ (line.render ++ rest)) info s)
    (hpre : pre = [newline] ∨ pre = []) (hfuel : line.Fueled fuel) (hnarrow : line.Narrow) :
    Leads (lineRound fuel ()) s
      (matchName fuel (hexValue line.startDigits) (hexValue line.endDigits) line.flags)
      (At (line.tail rest) info) := by
  refine h.lastChar_leads (.ite_neg (KernelLine.cur_pre_render hpre) ?_)
  refine (yields_lineStart h hpre).bind_leads fun _ t ht => ?_
  refine (yields_readMapping ht hfuel hnarrow).bind_leads fun r t hr => ?_
  obtain ⟨rfl, ht⟩ := hr
  exact leads_self ht

/-- Behind the spaces the name begins. -/
theorem matchName_leads {startAddr endAddr : Word} {flags : BitVec 32}
    (h : At (line.tail rest) info s)
    (hspaces : line.spaces ≠ 0) (hfuel : line.spaces < fuel) :
    Leads (matchName fuel startAddr endAddr flags) s (takeName fuel startAddr endAddr flags)
      (At (line.cut ++ (line.cutRest ++ newline :: rest)) info) := by
  have hcur : ¬ (cur (line.tail rest) = chr '\n' ∨ cur (line.tail rest) = -1) := by
    obtain ⟨k, hk⟩ := Nat.exists_eq_succ_of_ne_zero hspaces
    rw [KernelLine.tail, hk]
    exact (by decide : ¬ (space.toInt = chr '\n' ∨ space.toInt = -1))
  have hname : cur (line.name ++ newline :: rest) ≠ chr ' ' := by
    have hhead := line.name_head
    cases hline : line.name with
    | nil => exact (by decide : newline.toInt ≠ chr ' ')
    | cons c name =>
        rw [hline, List.head?_cons, ne_eq, Option.some_inj] at hhead
        exact mt (chr_eq_iff ' ' c (by decide)).mp hhead
  refine h.lastChar_leads (.ite_neg hcur ?_)
  refine (yields_skipSpaces h hname hfuel).bind_leads fun _ t ht => ?_
  rw [← line.cut_append, List.append_assoc] at ht
  exact leads_self ht

/-- The end of a line that does not decide anything, or that ends at a byte which
looks like the end of the file. -/
theorem yields_matchName_next {startAddr endAddr : Word} {flags : BitVec 32}
    (h : At (line.tail rest) info s)
    (hseven : line.cut.length ≠ 7) (hsize : line.cut.length < nameBufSize)
    (hfuel : line.Fueled fuel) :
    Yields (matchName fuel startAddr endAddr flags) s fun r t =>
      r = .inl () ∧ At (line.cutRest ++ newline :: rest) info t := by
  by_cases hspaces : line.spaces = 0
  · have hname : line.name = [] := by_contra fun hne => (line.spaces_pos hne).ne' hspaces
    have hcutRest : line.cutRest = [] := by rw [KernelLine.cutRest, hname]; rfl
    rw [KernelLine.tail, hspaces, hname] at h
    rw [hcutRest]
    exact h.lastChar_bind (.ite_pos (.inl rfl) (yields_pure ⟨rfl, h⟩))
  · refine (matchName_leads h hspaces hfuel.spaces).yields fun t ht => ?_
    refine (yields_readName ht (fun c => KernelLine.mem_cut) hsize line.endsName_cutRest
      hfuel.name).bind fun r t hr => ?_
    obtain ⟨rfl, ht⟩ := hr
    exact .ite_pos hseven (yields_pure ⟨rfl, ht⟩)

theorem KernelLine.spaces_ne_zero_of_cut (h : line.cut ≠ []) : line.spaces ≠ 0 := by
  refine (line.spaces_pos fun hname => h ?_).ne'
  rw [KernelLine.cut, hname]
  rfl

theorem yields_matchName_found {startAddr endAddr : Word} {flags : BitVec 32}
    (h : At (line.tail rest) info s)
    (hseven : line.cut.length = 7) (hfuel : line.Fueled fuel) :
    Yields (matchName fuel startAddr endAddr flags) s fun r t =>
      r = .inr 0 ∧ t.stackInfo = ⟨true, startAddr, endAddr, flags⟩ := by
  have hne : line.cut ≠ [] := List.ne_nil_of_length_pos (by omega)
  refine (matchName_leads h (line.spaces_ne_zero_of_cut hne) hfuel.spaces).yields fun t ht => ?_
  refine (yields_readName ht (fun c => KernelLine.mem_cut) (by rw [hseven]; decide)
    line.endsName_cutRest hfuel.name).bind fun r t hr => ?_
  obtain ⟨rfl, ht⟩ := hr
  refine .ite_neg (not_not_intro hseven) ((yields_compare line.cut).bind fun _ u _ => ?_)
  exact ⟨_, _, rfl, rfl, rfl⟩

theorem stops_matchName {startAddr endAddr : Word} {flags : BitVec 32}
    (h : At (line.tail rest) info s)
    (hsize : nameBufSize ≤ line.cut.length) (hfuel : line.Fueled fuel) :
    Stops (matchName fuel startAddr endAddr flags) s .outOfBounds := by
  have hne : line.cut ≠ [] := List.ne_nil_of_length_pos (lt_of_lt_of_le (by decide) hsize)
  refine (matchName_leads h (line.spaces_ne_zero_of_cut hne) hfuel.spaces).stops fun t ht => ?_
  exact (stops_readName ht (fun c => KernelLine.mem_cut) hsize hfuel.name).bind _

/-! ### The loop over the lines -/

def text (lines : List MapsLine) : List Byte := lines.flatMap fun line => line.render

theorem EndsAs.of_leads {x y : MapsM ℤ} {R : MapsState → Prop} {o : Outcome}
    (h : Leads x s y R) (hy : ∀ t, R t → EndsAs y t info o) : EndsAs x s info o := by
  cases o with
  | found i => exact h.yields hy
  | missing => exact h.yields hy
  | overflow => exact h.stops hy

/-- Behind the last line the parser fails to read an address. -/
theorem yields_lineRound_end {fuel : ℕ} (h : At [newline] info s) (hfuel : 0 < fuel) :
    Yields (lineRound fuel ()) s fun r t => r = .inr (-1) ∧ t.stackInfo = info := by
  obtain ⟨fuel, rfl⟩ := Nat.exists_eq_succ_of_ne_zero hfuel.ne'
  refine h.lastChar_bind (.ite_neg (by decide) ?_)
  refine (yields_skipNewline [newline] h (.inl rfl)).bind fun _ t ht => ?_
  have hdigits : Yields (loop readHexRound (fuel + 1) (0, 0)) t fun r u =>
      r = (0, 0) ∧ At [] info u :=
    Yields.loop_end (ht.lastChar_bind (.ite_neg (by decide) (yields_pure ⟨rfl, rfl, ht⟩)))
  have hhex : Yields (readHex (fuel + 1)) t fun r u => r.1 ≠ 0 ∧ At [] info u := by
    refine hdigits.bind fun r u hr => ?_
    obtain ⟨rfl, hu⟩ := hr
    exact yields_pure ⟨by decide, hu⟩
  have haddrs : Yields (readAddrs (fuel + 1)) t fun r u => r = none ∧ At [] info u :=
    hhex.bind fun r u hr => .ite_pos hr.1 (yields_pure ⟨rfl, hr.2⟩)
  have hmapping : Yields (readMapping (fuel + 1)) t fun r u => r = none ∧ At [] info u := by
    refine haddrs.bind fun r u hr => ?_
    obtain ⟨rfl, hu⟩ := hr
    exact yields_pure ⟨rfl, hu⟩
  refine hmapping.bind fun r u hr => ?_
  obtain ⟨rfl, hu⟩ := hr
  exact yields_pure ⟨rfl, hu.info⟩

/-- A line that decides ends the loop as its outcome says. -/
theorem endsAs_line {pre : List Byte} {rounds : ℕ}
    (h : At (pre ++ (line.render ++ rest)) info s) (hpre : pre = [newline] ∨ pre = [])
    (hfuel : line.Fueled fuel) (hnarrow : line.Narrow) (hrounds : 2 ≤ rounds)
    (hdecides : line.Decides) :
    EndsAs (loop (lineRound fuel) rounds ()) s info line.outcome := by
  obtain ⟨rounds, rfl⟩ : ∃ n, rounds = n + 2 := ⟨rounds - 2, by omega⟩
  have hleads := lineRound_leads h hpre hfuel hnarrow
  rw [KernelLine.outcome]
  split_ifs with hseven hsize
  · refine Yields.loop_end (a := 0) (hleads.yields fun t ht => ?_)
    refine (yields_matchName_found ht hseven hfuel).mono fun r u hr => ?_
    exact ⟨hr.1, rfl, hr.2⟩
  -- the line does not end the loop by its length, so by the byte in its name
  · have heof : eofByte ∈ line.name := by
      obtain h7 | h256 | hmem := hdecides
      · exact absurd h7 hseven
      · omega
      · exact hmem
    have hend : ∃ l, line.cutRest = eofByte :: l := by
      obtain ⟨hnot, -⟩ | ⟨-, hl⟩ := line.cutRest_eq
      · exact absurd heof hnot
      · exact hl
    obtain ⟨l, hl⟩ := hend
    -- the round after this one takes the byte 0xff for the end of the file
    refine Yields.loop_next (hleads.yields fun t ht =>
      yields_matchName_next ht hseven hsize hfuel) fun t ht => ?_
    rw [hl] at ht
    refine Yields.loop_end (a := 1) (ht.lastChar_bind (.ite_pos rfl ?_))
    exact ⟨_, _, rfl, rfl, by decide, ht.info⟩
  · exact Stops.bind (hleads.stops fun t ht => stops_matchName ht (by omega) hfuel) _

/-- A line that decides nothing is passed over. -/
theorem yields_lineRound_pass {pre : List Byte}
    (h : At (pre ++ (line.render ++ rest)) info s) (hpre : pre = [newline] ∨ pre = [])
    (hfuel : line.Fueled fuel) (hnarrow : line.Narrow) (hdecides : ¬ line.Decides) :
    Yields (lineRound fuel ()) s fun r t => r = .inl () ∧ At (newline :: rest) info t := by
  obtain ⟨hseven, hsize, heof⟩ : line.cut.length ≠ 7 ∧ ¬ nameBufSize ≤ line.cut.length ∧
      eofByte ∉ line.name := by
    rwa [KernelLine.Decides, not_or, not_or] at hdecides
  have hcutRest : line.cutRest = [] := by
    obtain ⟨-, hnil⟩ | ⟨hmem, -⟩ := line.cutRest_eq
    · exact hnil
    · exact absurd hmem heof
  refine (lineRound_leads h hpre hfuel hnarrow).yields fun t ht => ?_
  refine (yields_matchName_next ht hseven (by omega) hfuel).mono fun r u hr => ?_
  rwa [hcutRest] at hr

theorem endsAs_lines {lines : List MapsLine} (pre : List Byte) {rounds : ℕ}
    (h : At (pre ++ text lines) info s) (hpre : pre = [newline] ∨ pre = [] ∧ lines ≠ [])
    (hfuel : (text lines).length < fuel) (hrounds : lines.length < rounds) :
    EndsAs (loop (lineRound fuel) rounds ()) s info (outcome lines) := by
  induction lines generalizing s pre rounds with
  | nil =>
      obtain ⟨rounds, rfl⟩ := Nat.exists_eq_succ_of_ne_zero (Nat.ne_of_gt hrounds)
      obtain rfl | ⟨-, hne⟩ := hpre
      -- no line is left, and the round meets the end of the file
      · refine Yields.loop_end (a := -1) ((yields_lineRound_end h (by omega)).mono fun r t hr => ?_)
        exact ⟨hr.1, by decide, hr.2⟩
      · exact absurd rfl hne
  | cons line lines ih =>
      rw [text, List.flatMap_cons, List.length_append] at hfuel
      rw [text, List.flatMap_cons] at h
      rw [List.length_cons] at hrounds
      have hpre : pre = [newline] ∨ pre = [] := hpre.imp_right And.left
      have hline : line.Fueled fuel := KernelLine.fueled_of_lt (by omega)
      by_cases hdecides : line.Decides
      · have hout : outcome (line :: lines) = line.outcome := by
          rw [outcome, deciding, List.find?_cons_of_pos (by simpa using hdecides)]
        rw [hout]
        exact endsAs_line h hpre hline line.narrow (by omega) hdecides
      · have hout : outcome (line :: lines) = outcome lines := by
          rw [outcome, deciding, List.find?_cons_of_neg (by simpa using hdecides)]
          rfl
        rw [hout]
        obtain ⟨rounds, rfl⟩ := Nat.exists_eq_succ_of_ne_zero (Nat.ne_of_gt (by omega : 0 < rounds))
        have hpass := yields_lineRound_pass h hpre hline line.narrow hdecides
        refine EndsAs.of_leads (Yields.loop_leads hpass) fun t ht => ?_
        exact ih [newline] ht (.inl rfl) (by rw [text]; omega) (by omega)

/-! ### The whole function -/

/-- The file can be opened, its contents are `l`, and each read delivers some
bytes of them that fit into the buffer with room for the terminator. -/
structure Delivers (s : MapsState) (l : List Byte) : Prop where
  opened : 0 ≤ s.openResult
  after : s.after = .data []
  reads : ∃ chunks : List (List Byte), s.reads = chunks.map .data ∧
    (∀ c ∈ chunks, c ≠ [] ∧ c.length < lineBufSize) ∧ chunks.flatten = l

theorem length_le_text (lines : List MapsLine) : lines.length ≤ (text lines).length := by
  induction lines with
  | nil => exact le_rfl
  | cons line lines ih =>
      have hrender : 0 < line.render.length := by
        simp [KernelLine.render]
      rw [text] at ih ⊢
      rw [List.flatMap_cons, List.length_append, List.length_cons]
      omega

theorem linuxReadStackInfo_leads {l : List Byte} {fuel : ℕ} (h : Delivers s l) :
    Leads (linuxReadStackInfo fuel) s
      (do
        let ch ← readChar
        if ch < 0 then return -1 else loop (lineRound fuel) fuel ())
      (fun t => Feeds t l ∧ t.stackInfo = s.stackInfo) := by
  obtain ⟨hopened, hafter, chunks, hreads, hchunks, rfl⟩ := h
  refine Yields.bind_leads (S := fun fd t => fd = s.openResult ∧ s = t) ⟨_, _, rfl, rfl, rfl⟩ ?_
  rintro _ _ ⟨rfl, rfl⟩
  refine Yields.bind_leads (S := fun _ t => Feeds t chunks.flatten ∧ t.stackInfo = s.stackInfo)
    ⟨_, _, rfl, ⟨rfl, rfl, hafter, chunks, hreads, hchunks, rfl⟩, rfl⟩ fun _ t ht => ?_
  exact .ite_neg (not_lt.mpr hopened) (leads_self ht)

/-- `linux_read_stack_info` ends as the first line that decides says. -/
theorem endsAs_linuxReadStackInfo {lines : List MapsLine} {fuel : ℕ}
    (h : Delivers s (text lines)) (hfuel : (text lines).length < fuel) :
    EndsAs (linuxReadStackInfo fuel) s s.stackInfo (outcome lines) := by
  refine .of_leads (linuxReadStackInfo_leads h) fun t ⟨hfeeds, hinfo⟩ => ?_
  have hread := yields_readChar hfeeds hinfo
  have hcount := length_le_text lines
  cases lines with
  | nil =>
      refine hread.bind fun r u hr => ?_
      obtain ⟨rfl, hu⟩ := hr
      exact .ite_pos (by decide) (yields_pure ⟨by decide, hu.info⟩)
  | cons line lines =>
      have hcur : ¬ cur (text (line :: lines)) < 0 := by
        rw [text, List.flatMap_cons]
        exact not_lt.mpr (line.cur_render _).2
      have hloop : Leads (do
          let ch ← readChar
          if ch < 0 then return -1 else loop (lineRound fuel) fuel ()) t
          (loop (lineRound fuel) fuel ()) (At (text (line :: lines)) s.stackInfo) := by
        refine hread.bind_leads fun r u hr => ?_
        obtain ⟨rfl, hu⟩ := hr
        exact .ite_neg hcur (leads_self hu)
      have hrounds : (line :: lines).length < fuel := by omega
      exact .of_leads hloop fun u hu =>
        endsAs_lines [] hu (.inr ⟨rfl, List.cons_ne_nil _ _⟩) hfuel hrounds

/-! ### The stack of the process -/

def MapsLine.isStack (line : MapsLine) : Bool := line.name = desiredName

/-- What is asked of the result and of `stack_info`: the first line with the name
`[stack]`, if there is one. -/
def Discovers (lines : List MapsLine) (info : StackInfo) (r : ℤ) (info' : StackInfo) : Prop :=
  match lines.find? MapsLine.isStack with
  | some line => r = 0 ∧ info' = line.stackInfo
  | none => r ≠ 0 ∧ info' = info

/-- `linux_read_stack_info` returns, and finds the stack. -/
def FindsStack (s : MapsState) (lines : List MapsLine) : Prop :=
  ∃ enough, ∀ fuel ≥ enough, Yields (linuxReadStackInfo fuel) s fun r t =>
    Discovers lines s.stackInfo r t.stackInfo

/-- The lines do not mislead: the first one that decides, if there is one, has
the information of the first `[stack]` line, or it ends the search where there is
no such line. -/
def Straight (lines : List MapsLine) : Prop :=
  match deciding lines with
  | none => True
  | some line =>
      line.cut.length < nameBufSize ∧
        if line.cut.length = 7 then
          (lines.find? MapsLine.isStack).map (·.stackInfo) = some line.stackInfo
        else lines.find? MapsLine.isStack = none

instance (lines : List MapsLine) : Decidable (Straight lines) := by
  unfold Straight
  split <;> infer_instance

theorem find?_isStack_eq_none {lines : List MapsLine} (h : deciding lines = none) :
    lines.find? MapsLine.isStack = none := by
  rw [deciding, List.find?_eq_none] at h
  rw [List.find?_eq_none]
  intro line hline hstack
  have hname : line.name = desiredName := by simpa [MapsLine.isStack] using hstack
  refine h line hline (decide_eq_true (.inl ?_))
  rw [KernelLine.cut, hname]
  decide

/-- The outcome that `Discovers` asks for. -/
def wanted (lines : List MapsLine) : Outcome :=
  match lines.find? MapsLine.isStack with
  | some line => .found line.stackInfo
  | none => .missing

theorem discovers_iff_of_found {lines : List MapsLine} {info' : StackInfo} {r : ℤ} (hr : r = 0) :
    Discovers lines info r info' ↔ wanted lines = .found info' := by
  rw [Discovers, wanted]
  cases lines.find? MapsLine.isStack with
  | some line => simp [hr, eq_comm]
  | none => simp [hr]

theorem discovers_iff_of_missing {lines : List MapsLine} {r : ℤ} (hr : r ≠ 0) :
    Discovers lines info r info ↔ wanted lines = .missing := by
  rw [Discovers, wanted]
  cases lines.find? MapsLine.isStack with
  | some line => simp [hr]
  | none => simp [hr]

/-- The run finds the stack exactly when its outcome is the one asked for. -/
theorem findsStack_iff_outcome {lines : List MapsLine} (h : Delivers s (text lines)) :
    FindsStack s lines ↔ wanted lines = outcome lines := by
  have hends := fun fuel (hfuel : (text lines).length < fuel) => endsAs_linuxReadStackInfo h hfuel
  constructor
  · -- with enough fuel for both, they speak of the same run
    intro ⟨enough, hrun⟩
    have hend := hends (max enough ((text lines).length + 1)) (by omega)
    obtain ⟨r, t, heq, hdiscovers⟩ := hrun _ (le_max_left _ _)
    cases hout : outcome lines with
    | found i =>
        rw [hout] at hend
        obtain ⟨hr, rfl⟩ := hend.of_eq heq
        exact (discovers_iff_of_found hr).mp hdiscovers
    | missing =>
        rw [hout] at hend
        obtain ⟨hr, hinfo⟩ := hend.of_eq heq
        rw [hinfo] at hdiscovers
        exact (discovers_iff_of_missing hr).mp hdiscovers
    | overflow =>
        rw [hout] at hend
        exact absurd heq (hend.ne_ok r t)
  · intro hwanted
    refine ⟨(text lines).length + 1, fun fuel hfuel => ?_⟩
    have hend := hends fuel hfuel
    rw [← hwanted] at hend
    cases hout : wanted lines with
    | found i =>
        rw [hout] at hend
        refine hend.mono fun r t hr => (discovers_iff_of_found hr.1).mpr ?_
        rw [hout, hr.2]
    | missing =>
        rw [hout] at hend
        refine hend.mono fun r t hr => ?_
        rw [hr.2]
        exact (discovers_iff_of_missing hr.1).mpr hout
    | overflow =>
        rw [wanted] at hout
        split at hout <;> cases hout

theorem wanted_eq_outcome_iff (lines : List MapsLine) :
    wanted lines = outcome lines ↔ Straight lines := by
  rw [outcome, Straight]
  cases hline : deciding lines with
  | none => simp [wanted, find?_isStack_eq_none hline]
  | some line =>
      have hseven : line.cut.length = 7 → line.cut.length < nameBufSize := by
        rw [nameBufSize]
        omega
      simp only [KernelLine.outcome, wanted]
      cases lines.find? MapsLine.isStack with
      | none => split_ifs <;> simp_all
      | some stack => split_ifs <;> simp_all

/-- `5-6 r-xp 00000000 00:00 1 ` and a name. -/
def namedLine (name : List Byte) (hhead : name.head? ≠ some space) (hline : newline ∉ name)
    (startDigit endDigit : Fin 16) : MapsLine where
  startDigits := [startDigit]
  endDigits := [endDigit]
  readable := true
  writable := false
  executable := true
  shared := false
  offset := List.replicate 8 0
  major := [0, 0]
  minor := [0, 0]
  inode := [1]
  spaces := 1
  name := name
  start_ne := List.cons_ne_nil _ _
  start_lt := by rw [List.length_singleton]; decide
  end_ne := List.cons_ne_nil _ _
  end_lt := by rw [List.length_singleton]; decide
  offset_length := by decide
  major_length := le_rfl
  minor_length := le_rfl
  inode_ne := by decide
  inode_lt := by decide
  spaces_pos := fun _ => Nat.one_pos
  name_head := hhead
  name_line := hline
  narrow := ⟨rfl, rfl, rfl⟩

def stackLine : MapsLine := namedLine desiredName (by decide) (by decide) 7 8

def heapLine : MapsLine := namedLine ("[heap]".toList.map byteOf) (by decide) (by decide) 6 7

/-- The mapping of a program with the seven-byte path `/bin/ls`. -/
def lsLine : MapsLine :=
  namedLine ("/bin/ls".toList.map byteOf) (by decide) (by decide) 5 6

/-- A file of which the first read brings nine bytes and the second one the
rest. -/
def mapsFile (l : List Byte) : MapsState where
  openResult := 3
  reads := [l.take 9, l.drop 9].map .data
  after := .data []
  closed := []
  buffer := ⟨0, [], 0, 0, 0, 0⟩
  stackInfo := ⟨false, 0, 0, 0⟩

theorem delivers_mapsFile {l : List Byte} (hmore : 9 < l.length) (hless : l.length < 1000) :
    Delivers (mapsFile l) l := by
  refine ⟨(by decide : (0 : ℤ) ≤ 3), rfl, [l.take 9, l.drop 9], rfl, ?_, ?_⟩
  · intro c hc
    rw [List.mem_pair] at hc
    obtain rfl | rfl := hc
    · exact ⟨List.ne_nil_of_length_pos (by rw [List.length_take]; omega), by
        rw [List.length_take, lineBufSize]; omega⟩
    · exact ⟨List.ne_nil_of_length_pos (by rw [List.length_drop]; omega), by
        rw [List.length_drop, lineBufSize]; omega⟩
  · rw [List.flatten_cons, List.flatten_singleton, List.take_append_drop]

/-- The stack is found exactly where the lines do not mislead. -/
theorem stack_discovery {lines : List MapsLine} (h : Delivers s (text lines)) :
    FindsStack s lines ↔ Straight lines :=
  (findsStack_iff_outcome h).trans (wanted_eq_outcome_iff lines)

theorem stack_discovery_behindHeap :
    FindsStack (mapsFile (text [heapLine, stackLine])) [heapLine, stackLine] :=
  (stack_discovery (delivers_mapsFile (by decide) (by decide))).mpr (by decide)

/-- The first name with seven bytes is taken for the stack. -/
theorem stack_missed :
    Delivers (mapsFile (text [lsLine, stackLine])) (text [lsLine, stackLine]) ∧
      ¬ FindsStack (mapsFile (text [lsLine, stackLine])) [lsLine, stackLine] := by
  have hfile : Delivers (mapsFile (text [lsLine, stackLine])) (text [lsLine, stackLine]) :=
    delivers_mapsFile (by decide) (by decide)
  refine ⟨hfile, ?_⟩
  rw [findsStack_iff_outcome hfile, wanted_eq_outcome_iff]
  decide

end Ciabatta.Loader
