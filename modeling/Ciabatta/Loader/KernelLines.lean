import Ciabatta.Loader.StackDiscovery

/-!
The lines of `/proc/self/maps` as the kernel prints them: the file offset with eight
digits or more, the numbers of the device with two or more each. The parser of
`stack.c` skips sixteen characters over these fields, however long they are.
-/

namespace Ciabatta.Loader

open ByteMemory Exec

/-! ### Up to the inode -/

/-- The part of `readMapping` in front of the inode. -/
def toInode (fuel : ℕ) : MapsM (Option (Word × Word × BitVec 32)) := do
  match ← readAddrs fuel with
  | none => return none
  | some (startAddr, endAddr) => do
      let flags ← readFlags
      skipFields
      return some (startAddr, endAddr, flags)

/-- The part of `readMapping` that reads the inode. -/
def readInode (fuel : ℕ) :
    Option (Word × Word × BitVec 32) → MapsM (Option (Word × Word × BitVec 32))
  | none => return none
  | some mapping => do
      let (status, _inode) ← readDec fuel
      if status ≠ 0 then
        return none
      else
        return some mapping

/-- The parser runs the two parts one after the other. -/
theorem readMapping_eq (fuel : ℕ) : readMapping fuel = toInode fuel >>= readInode fuel := by
  rw [readMapping, toInode, bind_assoc]
  refine bind_congr fun addrs => ?_
  cases addrs with
  | none => rfl
  | some addrs =>
      rw [bind_assoc]
      refine bind_congr fun flags => ?_
      rw [bind_assoc]
      rfl

/-- The text of some lines. -/
def kernelText (lines : List KernelLine) : List Byte := lines.flatMap KernelLine.render

/-! ### What the parser should do with a line -/

/-- From `s`, at the start of the line, the cursor comes to the inode, and `read_dec` reads it. -/
structure ReadsInode (line : KernelLine) (rest : List Byte) (info : StackInfo) (fuel : ℕ)
    (s : MapsState) : Prop where
  inode : Yields (do skipNewline; toInode fuel) s fun r t =>
    r = some (hexValue line.startDigits, hexValue line.endDigits, line.flags) ∧
      At (line.inode.map decDigit ++ line.tail rest) info t ∧
      Yields (readDec fuel) t fun r _ => r = (0, decValue line.inode)

/-- And the parsing goes on with the next line. -/
structure Passes (line : KernelLine) (rest : List Byte) (info : StackInfo) (fuel : ℕ)
    (s : MapsState) : Prop extends ReadsInode line rest info fuel s where
  next : Yields (lineRound fuel ()) s fun r t => r = .inl () ∧ At (newline :: rest) info t

/-- With enough fuel the run over a file comes to the line in front of `rest`, in a state with
`P`. -/
def ComesTo (s : MapsState) (line : KernelLine) (rest : List Byte)
    (P : ℕ → MapsState → Prop) : Prop :=
  ∃ enough, ∀ fuel ≥ enough, ∃ rounds, Leads (linuxReadStackInfo fuel) s
    (loop (lineRound fuel) rounds ()) fun t => ∃ pre, (pre = [newline] ∨ pre = []) ∧
      At (pre ++ (line.render ++ rest)) s.stackInfo t ∧ P fuel t

variable {s t : MapsState} {l l' rest : List Byte} {info : StackInfo} {line : KernelLine}
  {fuel : ℕ}

/-! ### A line -/

/-- A state is at one place of a text only. -/
theorem Feeds.unique (h : Feeds s l) (h' : Feeds s l') : l = l' := by
  obtain ⟨chunks, hreads, -, rfl⟩ := h.reads
  obtain ⟨chunks', hreads', -, rfl⟩ := h'.reads
  have hinjective : Function.Injective ReadResult.data := fun _ _ heq => by
    injection heq
  rw [hreads] at hreads'
  rw [List.map_injective_iff.mpr hinjective hreads']

theorem yields_toInode (h : At (line.render ++ rest) info s) (hfuel : line.Fueled fuel) :
    Yields (toInode fuel) s fun r t =>
      r = some (hexValue line.startDigits, hexValue line.endDigits, line.flags) ∧
        At ((line.fields ++ (line.inode.map decDigit ++ line.tail rest)).drop 16) info t := by
  rw [line.render_append] at h
  refine (yields_readAddrs h hfuel.start hfuel.stop).bind fun r t hr => ?_
  obtain ⟨rfl, ht⟩ := hr
  refine (yields_readFlags ht).bind fun r t hr => ?_
  obtain ⟨rfl, ht⟩ := hr
  exact (yields_skipFields ht).bind fun _ t ht => yields_pure ⟨rfl, ht⟩

section

variable {pre : List Byte} (h : At (pre ++ (line.render ++ rest)) info s)
  (hpre : pre = [newline] ∨ pre = []) (hfuel : line.Fueled fuel)
include h hpre hfuel

theorem narrow_of_readsInode (hreads : ReadsInode line rest info fuel s) : line.Narrow := by
  obtain ⟨r, t, hrun, -, ht, -⟩ := hreads.inode
  have hskip : Yields (do skipNewline; toInode fuel) s _ :=
    (yields_lineStart h hpre).bind fun _ _ ht => yields_toInode ht hfuel
  have hdrop := (hskip.of_eq hrun).2
  -- the cursor is at one place only, and so the two rests have the same length
  have hlength := congrArg List.length (hdrop.feeds.unique ht.feeds)
  have hinode := List.length_pos_of_ne_nil line.inode_ne
  have htail : 0 < (line.tail rest).length := by
    simp only [KernelLine.tail, List.length_append, List.length_cons]
    omega
  simp only [List.length_tail, List.length_drop, List.length_append, List.length_map] at hlength
  rw [line.narrow_iff]
  omega

theorem readsInode_of_narrow (hnarrow : line.Narrow) : ReadsInode line rest info fuel s where
  inode := by
    refine (yields_lineStart h hpre).bind fun _ t ht => ?_
    refine (yields_toInode ht hfuel).mono fun r u hr => ?_
    rw [List.drop_left' (line.narrow_iff.mp hnarrow)] at hr
    have hinode := yields_readDec hr.2 (line.cur_tail_notDigit rest) line.inode_ne line.inode_lt
      hfuel.inode
    exact ⟨hr.1, hr.2, hinode.mono fun _ _ hr => hr.1⟩

theorem passes_of_narrow (hnarrow : line.Narrow) (hdecides : ¬ line.Decides) :
    Passes line rest info fuel s where
  toReadsInode := readsInode_of_narrow h hpre hfuel hnarrow
  next := yields_lineRound_pass h hpre hfuel hnarrow hdecides

/-- Behind a line that ends the loop the parsing does not go on. -/
theorem not_decides_of_passes (hpasses : Passes line rest info fuel s) : ¬ line.Decides := by
  intro hdecides
  have hleads :=
    lineRound_leads h hpre hfuel (narrow_of_readsInode h hpre hfuel hpasses.toReadsInode)
  obtain ⟨r, t, hrun, rfl, ht⟩ := hpasses.next
  by_cases hseven : line.cut.length = 7
  · have hfound := hleads.yields fun u hu => yields_matchName_found hu hseven hfuel
    cases (hfound.of_eq hrun).1
  by_cases hsize : line.cut.length < nameBufSize
  · have hnext := hleads.yields fun u hu => yields_matchName_next hu hseven hsize hfuel
    have hlength := congrArg List.length ((hnext.of_eq hrun).2.feeds.unique ht.feeds)
    obtain ⟨hnot, -⟩ | ⟨-, l, hrest⟩ := line.cutRest_eq
    · obtain h7 | h256 | hmem := hdecides
      · exact hseven h7
      · omega
      · exact hnot hmem
    · simp only [hrest, List.cons_append, List.tail_cons, List.length_append,
        List.length_cons] at hlength
      omega
  · have hstops := hleads.stops fun u hu => stops_matchName hu (by omega) hfuel
    exact hstops.ne_ok _ _ hrun

end

/-! ### The run over a file -/

theorem kernelText_append (before behind : List KernelLine) (line : KernelLine)
    (rest : List Byte) : kernelText (before ++ line :: behind) ++ rest
      = kernelText before ++ (line.render ++ (kernelText behind ++ rest)) := by
  simp [kernelText]

theorem length_le_kernelText (lines : List KernelLine) :
    lines.length ≤ (kernelText lines).length := by
  induction lines with
  | nil => exact Nat.zero_le _
  | cons line lines ih =>
      have hrender : 0 < line.render.length := by
        simp [KernelLine.render]
      rw [kernelText] at ih ⊢
      rw [List.flatMap_cons, List.length_append, List.length_cons]
      omega

/-- The lines `before` are passed one after the other. -/
theorem lines_lead {before : List KernelLine} (rounds : ℕ) (pre : List Byte)
    (h : At (pre ++ (kernelText before ++ (line.render ++ rest))) info s)
    (hpre : pre = [newline] ∨ pre = []) (hfuel : (kernelText before).length < fuel)
    (hbefore : ∀ l ∈ before, l.Narrow ∧ ¬ l.Decides) :
    Leads (loop (lineRound fuel) (before.length + rounds) ()) s
      (loop (lineRound fuel) rounds ()) fun t => ∃ pre, (pre = [newline] ∨ pre = []) ∧
        At (pre ++ (line.render ++ rest)) info t := by
  induction before generalizing s pre with
  | nil =>
      rw [List.length_nil, Nat.zero_add]
      exact leads_self ⟨pre, hpre, h⟩
  | cons first before ih =>
      obtain ⟨hnarrow, hdecides⟩ := hbefore first List.mem_cons_self
      have htext : kernelText (first :: before) = first.render ++ kernelText before :=
        List.flatMap_cons
      rw [htext, List.append_assoc] at h
      rw [htext, List.length_append] at hfuel
      have hfueled : first.Fueled fuel := KernelLine.fueled_of_lt (by omega)
      have hpass := yields_lineRound_pass h hpre hfueled hnarrow hdecides
      rw [List.length_cons, Nat.add_right_comm]
      refine (Yields.loop_leads hpass).trans fun t ht => ?_
      exact ih [newline] ht (.inl rfl) (by omega) fun l hl =>
        hbefore l (List.mem_cons_of_mem _ hl)

/-- The text of a file with a line does not start like the end of the file. -/
theorem cur_kernelText_nonneg (before : List KernelLine) :
    0 ≤ cur (kernelText before ++ (line.render ++ rest)) := by
  cases before with
  | nil => exact (line.cur_render rest).2
  | cons first before =>
      rw [kernelText, List.flatMap_cons, List.append_assoc]
      exact (first.cur_render _).2

/-- The run over a file comes to each line behind lines that it passes. -/
theorem run_leads {before : List KernelLine}
    (h : Delivers s (kernelText before ++ (line.render ++ rest)))
    (hfuel : (kernelText before).length < fuel)
    (hbefore : ∀ l ∈ before, l.Narrow ∧ ¬ l.Decides) :
    Leads (linuxReadStackInfo fuel) s (loop (lineRound fuel) (fuel - before.length) ())
      fun t => ∃ pre, (pre = [newline] ∨ pre = []) ∧
        At (pre ++ (line.render ++ rest)) s.stackInfo t := by
  have hcount := length_le_kernelText before
  have hrounds : before.length + (fuel - before.length) = fuel := by omega
  refine (linuxReadStackInfo_leads h).trans fun t ⟨hfeeds, hinfo⟩ => ?_
  refine (yields_readChar hfeeds hinfo).bind_leads fun r u hr => ?_
  obtain ⟨rfl, hu⟩ := hr
  refine .ite_neg (not_lt.mpr (cur_kernelText_nonneg before)) ?_
  have hlines := lines_lead (fuel - before.length) [] hu (.inr rfl) hfuel hbefore
  rwa [hrounds] at hlines

/-- What holds at the start of the line holds where the run comes to it. -/
theorem comesTo {before : List KernelLine} {P : ℕ → MapsState → Prop}
    (h : Delivers s (kernelText before ++ (line.render ++ rest)))
    (hbefore : ∀ l ∈ before, l.Narrow ∧ ¬ l.Decides)
    (hline : ∀ pre fuel t, At (pre ++ (line.render ++ rest)) s.stackInfo t →
      (pre = [newline] ∨ pre = []) → line.Fueled fuel → P fuel t) : ComesTo s line rest P := by
  refine ⟨(kernelText before).length + line.render.length + 1,
    fun fuel hfuel => ⟨fuel - before.length, ?_⟩⟩
  have hbeforeFuel : (kernelText before).length < fuel := by omega
  obtain ⟨t, ⟨pre, hpre, ht⟩, hrun⟩ := run_leads h hbeforeFuel hbefore
  have hfueled : line.Fueled fuel := KernelLine.fueled_of_lt (by omega)
  exact ⟨t, ⟨pre, hpre, ht, hline pre fuel t ht hpre hfueled⟩, hrun⟩

/-- And the other way round. -/
theorem ComesTo.exists_at {P : ℕ → MapsState → Prop} (h : ComesTo s line rest P) :
    ∃ pre fuel t, At (pre ++ (line.render ++ rest)) s.stackInfo t ∧
      (pre = [newline] ∨ pre = []) ∧ line.Fueled fuel ∧ P fuel t := by
  obtain ⟨enough, henough⟩ := h
  obtain ⟨rounds, t, ⟨pre, hpre, ht, hP⟩, -⟩ :=
    henough (max enough (line.render.length + 1)) (le_max_left _ _)
  have hfueled : line.Fueled (max enough (line.render.length + 1)) :=
    KernelLine.fueled_of_lt (by omega)
  exact ⟨pre, _, t, ht, hpre, hfueled, hP⟩

/-- In the run over a file, the inode of each line that the parser comes to is read if and
only if each of these lines has the least widths: eight digits for the offset and two for each
number of the device. The parser comes to the lines up to the first whose name ends its loop. -/
theorem inodes_read_iff {lines : List KernelLine} (h : Delivers s (kernelText lines ++ rest)) :
    (∀ before line behind, lines = before ++ line :: behind → (∀ l ∈ before, ¬ l.Decides) →
      ComesTo s line (kernelText behind ++ rest)
        (ReadsInode line (kernelText behind ++ rest) s.stackInfo)) ↔
    ∀ before line behind, lines = before ++ line :: behind → (∀ l ∈ before, ¬ l.Decides) →
      line.Narrow := by
  constructor
  · intro hread before line behind hlines hbefore
    obtain ⟨pre, fuel, t, ht, hpre, hfuel, hinode⟩ :=
      (hread before line behind hlines hbefore).exists_at
    exact narrow_of_readsInode ht hpre hfuel hinode
  · intro hnarrow before line behind hlines hbefore
    have hall : ∀ l ∈ before, l.Narrow ∧ ¬ l.Decides := by
      intro l hl
      obtain ⟨first, second, rfl⟩ := List.append_of_mem hl
      refine ⟨hnarrow first l (second ++ line :: behind) ?_ fun l' hl' => ?_, hbefore l hl⟩
      · rw [hlines, List.append_assoc]
        rfl
      · exact hbefore l' (List.mem_append_left _ hl')
    rw [hlines, kernelText_append] at h
    exact comesTo h hall fun pre fuel t ht hpre hfuel =>
      readsInode_of_narrow ht hpre hfuel (hnarrow before line behind hlines hbefore)

/-- The lines in front of `rest` are all passed if and only if each has the least widths and a
name that does not end the loop over the lines. -/
theorem maps_lines_pass_iff {lines : List KernelLine} (h : Delivers s (kernelText lines ++ rest)) :
    (∀ before line behind, lines = before ++ line :: behind →
      ComesTo s line (kernelText behind ++ rest)
        (Passes line (kernelText behind ++ rest) s.stackInfo)) ↔
    ∀ line ∈ lines, line.Narrow ∧ ¬ line.Decides := by
  constructor
  · intro hpass line hline
    obtain ⟨before, behind, hlines⟩ := List.append_of_mem hline
    obtain ⟨pre, fuel, t, ht, hpre, hfuel, hpasses⟩ := (hpass before line behind hlines).exists_at
    exact ⟨narrow_of_readsInode ht hpre hfuel hpasses.toReadsInode,
      not_decides_of_passes ht hpre hfuel hpasses⟩
  · rintro hall before line behind rfl
    rw [kernelText_append] at h
    obtain ⟨hnarrow, hdecides⟩ := hall line (List.mem_append_right _ List.mem_cons_self)
    exact comesTo h (fun l hl => hall l (List.mem_append_left _ hl)) fun pre fuel t ht hpre hfuel =>
      passes_of_narrow ht hpre hfuel hnarrow hdecides

/-! ### Two files -/

/-- `5-6 r-xp 00000000 00:00 1 /b`, with the major number of a device. -/
def deviceLine (major : List (Fin 16)) (hmajor : 2 ≤ major.length) : KernelLine :=
  { lsLine.toKernelLine with
    major := major
    major_length := hmajor
    name := lsLine.name.take 2
    spaces_pos := fun _ => Nat.one_pos
    name_head := by decide
    name_line := by decide }

/-- A major number of two digits, and one of three. -/
def shortLine : KernelLine := deviceLine lsLine.major (by decide)

def wideLine : KernelLine := deviceLine (lsLine.startDigits ++ lsLine.major) (by decide)

/-- Two lines in front of the stack's. -/
def shortFile : MapsState :=
  mapsFile (kernelText [shortLine, heapLine.toKernelLine] ++ stackLine.render)

theorem maps_lines_pass_short :
    ComesTo shortFile shortLine (kernelText [heapLine.toKernelLine] ++ stackLine.render)
        (Passes shortLine (kernelText [heapLine.toKernelLine] ++ stackLine.render)
          ⟨false, 0, 0, 0⟩) ∧
      ComesTo shortFile heapLine.toKernelLine (kernelText [] ++ stackLine.render)
        (Passes heapLine.toKernelLine (kernelText [] ++ stackLine.render) ⟨false, 0, 0, 0⟩) := by
  have hfile : Delivers shortFile
      (kernelText [shortLine, heapLine.toKernelLine] ++ stackLine.render) :=
    delivers_mapsFile (by decide) (by decide)
  have hpass := (maps_lines_pass_iff hfile).mpr (by decide)
  exact ⟨hpass [] _ _ rfl, hpass [shortLine] _ _ rfl⟩

theorem maps_lines_pass_fails : ¬ ∀ (lines : List KernelLine) (rest : List Byte)
    (s : MapsState), Delivers s (kernelText lines ++ rest) →
      (∀ line ∈ lines, line.name ≠ desiredName) → ∀ before line behind,
        lines = before ++ line :: behind → ComesTo s line (kernelText behind ++ rest)
          (Passes line (kernelText behind ++ rest) s.stackInfo) := by
  intro h
  have hfile : Delivers (mapsFile (kernelText [wideLine] ++ stackLine.render))
      (kernelText [wideLine] ++ stackLine.render) :=
    delivers_mapsFile (by decide) (by decide)
  have hpass := h [wideLine] stackLine.render _ hfile (by decide) [] wideLine [] rfl
  obtain ⟨pre, fuel, t, ht, hpre, hfuel, hpasses⟩ := hpass.exists_at
  exact absurd (narrow_of_readsInode ht hpre hfuel hpasses.toReadsInode) (by decide)

end Ciabatta.Loader
