import Ciabatta.Loader.Stack

/-!
Reading along a text. Behind the buffer the parser of `stack.c` is a cursor on
the bytes of the file, whatever the reads deliver at a time; this file says for
each piece of the parser how it moves the cursor over its part of a line.
-/

namespace Ciabatta.Loader

open ByteMemory Exec

/-! ### The cursor -/

/-- What `last_char` is on the first byte of the rest of the text. -/
def cur : List Byte → ℤ
  | [] => -1
  | c :: _ => c.toInt

/-- What is left in the buffer and what the reads will bring is `l`, and then
the file ends. -/
structure Feeds (s : MapsState) (l : List Byte) : Prop where
  size : s.buffer.lastReadSize = s.buffer.data.length
  dataSize : s.buffer.dataSize = lineBufSize
  after : s.after = .data []
  reads : ∃ chunks : List (List Byte), s.reads = chunks.map .data ∧
    (∀ c ∈ chunks, c ≠ [] ∧ c.length < lineBufSize) ∧
    s.buffer.data.drop s.buffer.offset ++ chunks.flatten = l

/-- The cursor is on the first byte of `l`; the second argument is the stack
information as it stands. -/
structure At (l : List Byte) (info : StackInfo) (s : MapsState) : Prop where
  char : s.buffer.lastChar = cur l
  feeds : Feeds s l.tail
  info : s.stackInfo = info

variable {s : MapsState} {l rest : List Byte} {info : StackInfo}

/-! ### The cases of `read_char` -/

section

variable {c : Byte} {d : List Byte} (hdrop : s.buffer.data.drop s.buffer.offset = c :: d)

include hdrop

theorem takeChar_eq : takeChar s = .ok c.toInt { s with buffer :=
    { s.buffer with offset := s.buffer.offset + 1, lastChar := c.toInt } } := by
  have hchar : s.buffer.data.getD s.buffer.offset 0 = c := by
    have hget := congrArg (fun l : List Byte => l[0]?) hdrop
    rw [List.getElem?_drop] at hget
    rw [List.getD_eq_getElem?_getD]
    simpa using congrArg (fun o : Option Byte => o.getD 0) hget
  rw [takeChar, hchar]

theorem drop_succ_of_drop : s.buffer.data.drop (s.buffer.offset + 1) = d := by
  rw [← List.tail_drop, hdrop]
  rfl

theorem readChar_inside (hsize : s.buffer.lastReadSize = s.buffer.data.length) :
    readChar s = takeChar s := by
  have hinside : ¬ s.buffer.offset ≥ s.buffer.lastReadSize := by
    intro hge
    rw [List.drop_eq_nil_of_le (hsize ▸ hge)] at hdrop
    cases hdrop
  change (if s.buffer.offset ≥ s.buffer.lastReadSize then _ else takeChar) s = _
  rw [if_neg hinside]

end

section

variable {t : MapsState} (hempty : s.buffer.offset ≥ s.buffer.lastReadSize)

include hempty

theorem readChar_error (hread : sysRead s = .ok .error t) : readChar s = .ok (-1) t := by
  change (if s.buffer.offset ≥ s.buffer.lastReadSize then sysRead >>= _ else takeChar) s = _
  rw [if_pos hempty, bind_of_ok hread]
  rfl

theorem readChar_eof (hread : sysRead s = .ok (.data []) t) :
    readChar s = .ok (-1) { t with buffer := { t.buffer with lastChar := -1 } } := by
  change (if s.buffer.offset ≥ s.buffer.lastReadSize then sysRead >>= _ else takeChar) s = _
  rw [if_pos hempty, bind_of_ok hread]
  rfl

theorem readChar_full {c : Byte} {d : List Byte} (hread : sysRead s = .ok (.data (c :: d)) t)
    (hfull : ¬ (c :: d).length < s.buffer.dataSize) : Stops readChar s .outOfBounds := by
  refine ⟨t, ?_⟩
  change (if s.buffer.offset ≥ s.buffer.lastReadSize then sysRead >>= _ else takeChar) s = _
  rw [if_pos hempty, bind_of_ok hread]
  change ((if (c :: d).length < s.buffer.dataSize then pure () else throw .outOfBounds :
    MapsM Unit) >>= _) t = _
  rw [if_neg hfull]
  rfl

theorem readChar_data {c : Byte} {d : List Byte} (hread : sysRead s = .ok (.data (c :: d)) t)
    (hroom : (c :: d).length < s.buffer.dataSize) :
    readChar s = takeChar { t with buffer := { t.buffer with
      data := c :: d, lastReadSize := (c :: d).length, offset := 0 } } := by
  change (if s.buffer.offset ≥ s.buffer.lastReadSize then sysRead >>= _ else takeChar) s = _
  rw [if_pos hempty, bind_of_ok hread]
  change ((if (c :: d).length < s.buffer.dataSize then pure () else throw .outOfBounds :
    MapsM Unit) >>= _) t = _
  rw [if_pos hroom]
  rfl

end

/-! ### Along the text -/

theorem yields_takeChar {c : Byte} {d : List Byte} {chunks : List (List Byte)}
    (hsize : s.buffer.lastReadSize = s.buffer.data.length)
    (hdataSize : s.buffer.dataSize = lineBufSize) (hafter : s.after = .data [])
    (hreads : s.reads = chunks.map .data)
    (hchunks : ∀ c ∈ chunks, c ≠ [] ∧ c.length < lineBufSize)
    (hdrop : s.buffer.data.drop s.buffer.offset = c :: d) (hinfo : s.stackInfo = info) :
    Yields takeChar s fun r t => r = c.toInt ∧ At (c :: (d ++ chunks.flatten)) info t := by
  refine ⟨_, _, takeChar_eq hdrop, rfl, rfl, ?_, hinfo⟩
  exact ⟨hsize, hdataSize, hafter, chunks, hreads, hchunks, by
    rw [drop_succ_of_drop hdrop]
    rfl⟩

/-- `read_char` does not show where a read ends. -/
theorem yields_readChar (h : Feeds s l) (hinfo : s.stackInfo = info) :
    Yields readChar s fun r t => r = cur l ∧ At l info t := by
  obtain ⟨hsize, hdataSize, hafter, chunks, hreads, hchunks, rfl⟩ := h
  cases hdrop : s.buffer.data.drop s.buffer.offset with
  | cons c d =>
      rw [Yields, readChar_inside hdrop hsize]
      exact yields_takeChar hsize hdataSize hafter hreads hchunks hdrop hinfo
  | nil =>
      have hempty : s.buffer.offset ≥ s.buffer.lastReadSize :=
        hsize ▸ List.drop_eq_nil_iff.mp hdrop
      cases chunks with
      | nil =>
          -- the file ends here, and so will every later read
          have hread : sysRead s = .ok (.data []) s := by
            rw [sysRead, hreads, ← hafter]
            rfl
          exact ⟨_, _, readChar_eof hempty hread, rfl, rfl,
            ⟨hsize, hdataSize, hafter, [], hreads, hchunks, by simpa using hdrop⟩, hinfo⟩
      | cons bytes chunks =>
          obtain ⟨hne, hlt⟩ := hchunks bytes List.mem_cons_self
          obtain ⟨c, d, rfl⟩ := List.exists_cons_of_ne_nil hne
          have hread : sysRead s
              = .ok (.data (c :: d)) { s with reads := chunks.map .data } := by
            rw [sysRead, hreads]
            rfl
          rw [Yields, readChar_data hempty hread (hdataSize ▸ hlt)]
          exact yields_takeChar rfl hdataSize hafter rfl
            (fun b hb => hchunks b (List.mem_cons_of_mem _ hb)) rfl hinfo

theorem At.lastChar_bind {α : Type} {f : ℤ → MapsM α} {Q : α → MapsState → Prop}
    (h : At l info s) (hf : Yields (f (cur l)) s Q) : Yields (lastChar >>= f) s Q := by
  refine Yields.bind (R := fun r t => r = cur l ∧ s = t) ⟨_, _, rfl, h.char, rfl⟩ ?_
  rintro _ _ ⟨rfl, rfl⟩
  exact hf

theorem At.lastChar_leads {α : Type} {f : ℤ → MapsM α} {y : MapsM α} {R : MapsState → Prop}
    (h : At l info s) (hf : Leads (f (cur l)) s y R) : Leads (lastChar >>= f) s y R := by
  refine Yields.bind_leads (S := fun r t => r = cur l ∧ s = t) ⟨_, _, rfl, h.char, rfl⟩ ?_
  rintro _ _ ⟨rfl, rfl⟩
  exact hf

/-- Going on by one byte. -/
theorem At.readChar_bind {α : Type} {f : ℤ → MapsM α} {Q : α → MapsState → Prop}
    (h : At l info s) (hf : ∀ t, At l.tail info t → Yields (f (cur l.tail)) t Q) :
    Yields (readChar >>= f) s Q := by
  refine (yields_readChar h.feeds h.info).bind fun r t hr => ?_
  obtain ⟨rfl, ht⟩ := hr
  exact hf t ht

/-! ### Numbers -/

def hexDigit (d : Fin 16) : Byte :=
  if d.val < 10 then BitVec.ofNat 8 (48 + d.val) else BitVec.ofNat 8 (87 + d.val)

def decDigit (d : Fin 10) : Byte := BitVec.ofNat 8 (48 + d.val)

def hexStep (v : Word) (d : Fin 16) : Word := v * 16 + BitVec.ofNat 64 d.val

def decStep (v : Word) (d : Fin 10) : Word := v * 10 + BitVec.ofNat 64 d.val

/-- The number that a run of hexadecimal digits denotes, modulo `2 ^ 64`. -/
def hexValue (ds : List (Fin 16)) : Word := ds.foldl hexStep 0

def decValue (ds : List (Fin 10)) : Word := ds.foldl decStep 0

theorem hexDigit_spec (d : Fin 16) : charIsHex (hexDigit d).toInt = true ∧
    BitVec.ofInt 64 (charToHex (hexDigit d).toInt) = BitVec.ofNat 64 d.val := by
  revert d
  decide

theorem decDigit_spec (d : Fin 10) :
    (chr '0' ≤ (decDigit d).toInt ∧ (decDigit d).toInt ≤ chr '9') ∧
      BitVec.ofInt 64 ((decDigit d).toInt - chr '0') = BitVec.ofNat 64 d.val := by
  revert d
  decide

/-- The scanning loop of `read_hex` and `read_dec`: along a run of digits, up to
what stops the rounds. -/
theorem yields_scan {δ : Type} {digit : δ → Byte} {step : Word → δ → Word}
    {round : Word × ℕ → MapsM ((Word × ℕ) ⊕ (Word × ℕ))} {fuel : ℕ}
    (hdigit : ∀ d v n l t, At (digit d :: l) info t → n + 1 < 2 ^ 31 →
      Yields (round (v, n)) t fun r u => r = .inl (step v d, n + 1) ∧ At l info u)
    (hrest : ∀ v n t, At rest info t → Yields (round (v, n)) t fun r u =>
      r = .inr (v, n) ∧ At rest info u)
    {ds : List δ} {v : Word} {n : ℕ} (h : At (ds.map digit ++ rest) info s)
    (hfew : n + ds.length < 2 ^ 31) (hfuel : ds.length < fuel) :
    Yields (loop round fuel (v, n)) s fun r t =>
      r = (ds.foldl step v, n + ds.length) ∧ At rest info t := by
  induction ds generalizing s v n fuel with
  | nil =>
      obtain ⟨fuel, rfl⟩ := Nat.exists_eq_succ_of_ne_zero (Nat.ne_of_gt hfuel)
      refine Yields.loop_end (a := (v, n)) ((hrest v n s h).mono fun r t hr => ?_)
      exact ⟨hr.1, rfl, hr.2⟩
  | cons d ds ih =>
      rw [List.length_cons] at hfew hfuel
      obtain ⟨fuel, rfl⟩ := Nat.exists_eq_succ_of_ne_zero (Nat.ne_of_gt (by omega : 0 < fuel))
      refine Yields.loop_next (hdigit d v n _ s h (by omega)) fun t ht => ?_
      refine (ih ht (by omega) (by omega)).mono fun r u hr => ?_
      obtain ⟨rfl, hu⟩ := hr
      refine ⟨?_, hu⟩
      rw [List.foldl_cons, List.length_cons, Nat.add_assoc, Nat.add_comm 1]

theorem incrementInt_bind {α : Type} {f : ℕ → MapsM α} {Q : α → MapsState → Prop} {n : ℕ}
    (hn : n + 1 < 2 ^ 31) (hf : Yields (f (n + 1)) s Q) :
    Yields (incrementInt n >>= f) s Q := by
  rw [incrementInt, if_pos hn, pure_bind]
  exact hf

theorem yields_readHexRound {d : Fin 16} {v : Word} {n : ℕ} (h : At (hexDigit d :: l) info s)
    (hn : n + 1 < 2 ^ 31) : Yields (readHexRound (v, n)) s fun r t =>
      r = .inl (hexStep v d, n + 1) ∧ At l info t := by
  obtain ⟨hhex, hvalue⟩ := hexDigit_spec d
  refine h.lastChar_bind (.ite_pos hhex (h.readChar_bind fun t ht => ?_))
  refine incrementInt_bind hn (yields_pure ⟨?_, ht⟩)
  rw [cur, hvalue, hexStep]

theorem yields_readDecRound {d : Fin 10} {v : Word} {n : ℕ} (h : At (decDigit d :: l) info s)
    (hn : n + 1 < 2 ^ 31) : Yields (readDecRound (v, n)) s fun r t =>
      r = .inl (decStep v d, n + 1) ∧ At l info t := by
  obtain ⟨hdec, hvalue⟩ := decDigit_spec d
  refine h.lastChar_bind (.ite_pos hdec (h.readChar_bind fun t ht => ?_))
  refine incrementInt_bind hn (yields_pure ⟨?_, ht⟩)
  rw [cur, hvalue, decStep]

/-- `read_hex` and `read_dec`, with the round and the digits of either. -/
theorem yields_number {δ : Type} {digit : δ → Byte} {step : Word → δ → Word}
    {round : Word × ℕ → MapsM ((Word × ℕ) ⊕ (Word × ℕ))} {fuel : ℕ}
    (hdigit : ∀ d v n l t, At (digit d :: l) info t → n + 1 < 2 ^ 31 →
      Yields (round (v, n)) t fun r u => r = .inl (step v d, n + 1) ∧ At l info u)
    (hrest : ∀ v n t, At rest info t → Yields (round (v, n)) t fun r u =>
      r = .inr (v, n) ∧ At rest info u)
    {ds : List δ} (h : At (ds.map digit ++ rest) info s) (hne : ds ≠ [])
    (hfew : ds.length < 2 ^ 31) (hfuel : ds.length < fuel) :
    Yields (do
      let (result, nDigits) ← loop round fuel ((0 : Word), 0)
      return ((if nDigits = 0 then -1 else 0 : ℤ), result)) s fun r t =>
      r = (0, ds.foldl step 0) ∧ At rest info t := by
  have hpos : 0 + ds.length ≠ 0 := by
    rw [Nat.zero_add]
    exact mt List.length_eq_zero_iff.mp hne
  refine (yields_scan hdigit hrest h (by omega) hfuel).bind fun r t hr => ?_
  obtain ⟨rfl, ht⟩ := hr
  refine yields_pure ⟨?_, ht⟩
  rw [if_neg hpos]

theorem yields_readHex {ds : List (Fin 16)} {fuel : ℕ}
    (h : At (ds.map hexDigit ++ rest) info s) (hrest : ¬ charIsHex (cur rest) = true)
    (hne : ds ≠ []) (hfew : ds.length < 2 ^ 31) (hfuel : ds.length < fuel) :
    Yields (readHex fuel) s fun r t => r = (0, hexValue ds) ∧ At rest info t :=
  yields_number (fun _ _ _ _ _ => yields_readHexRound)
    (fun _ _ _ ht => ht.lastChar_bind (.ite_neg hrest (yields_pure ⟨rfl, ht⟩)))
    h hne hfew hfuel

theorem yields_readDec {ds : List (Fin 10)} {fuel : ℕ}
    (h : At (ds.map decDigit ++ rest) info s)
    (hrest : ¬ (chr '0' ≤ cur rest ∧ cur rest ≤ chr '9'))
    (hne : ds ≠ []) (hfew : ds.length < 2 ^ 31) (hfuel : ds.length < fuel) :
    Yields (readDec fuel) s fun r t => r = (0, decValue ds) ∧ At rest info t :=
  yields_number (fun _ _ _ _ _ => yields_readDecRound)
    (fun _ _ _ ht => ht.lastChar_bind (.ite_neg hrest (yields_pure ⟨rfl, ht⟩)))
    h hne hfew hfuel

/-! ### A line -/

def space : Byte := byteOf ' '

def newline : Byte := byteOf '\n'

/-- The byte that a signed `char` cannot tell from the end of the file. -/
def eofByte : Byte := 0xff

/-- A line of `/proc/self/maps` as the kernel prints it, with a file offset of eight digits or
more and two or more for each number of the device. The other bounds on the digits say that
an `int` can count them; an address has no more than sixteen. -/
structure KernelLine where
  startDigits : List (Fin 16)
  endDigits : List (Fin 16)
  readable : Bool
  writable : Bool
  executable : Bool
  shared : Bool
  offset : List (Fin 16)
  major : List (Fin 16)
  minor : List (Fin 16)
  inode : List (Fin 10)
  spaces : ℕ
  name : List Byte
  start_ne : startDigits ≠ []
  start_lt : startDigits.length < 2 ^ 31
  end_ne : endDigits ≠ []
  end_lt : endDigits.length < 2 ^ 31
  offset_length : 8 ≤ offset.length
  major_length : 2 ≤ major.length
  minor_length : 2 ≤ minor.length
  inode_ne : inode ≠ []
  inode_lt : inode.length < 2 ^ 31
  spaces_pos : name ≠ [] → 0 < spaces
  name_head : name.head? ≠ some space
  name_line : newline ∉ name

namespace KernelLine

/-- The widths of the fields are the least ones. -/
def Narrow (line : KernelLine) : Prop :=
  line.offset.length = 8 ∧ line.major.length = 2 ∧ line.minor.length = 2

instance (line : KernelLine) : Decidable line.Narrow :=
  inferInstanceAs (Decidable (_ ∧ _ ∧ _))

def perms (line : KernelLine) : List Byte :=
  [byteOf (if line.readable then 'r' else '-'), byteOf (if line.writable then 'w' else '-'),
    byteOf (if line.executable then 'x' else '-'), byteOf (if line.shared then 's' else 'p')]

/-- What stands between the permissions and the inode. -/
def fields (line : KernelLine) : List Byte :=
  space :: line.offset.map hexDigit ++ space :: line.major.map hexDigit ++
    byteOf ':' :: line.minor.map hexDigit ++ [space]

def render (line : KernelLine) : List Byte :=
  line.startDigits.map hexDigit ++ byteOf '-' :: line.endDigits.map hexDigit ++
    space :: line.perms ++ line.fields ++ line.inode.map decDigit ++
      List.replicate line.spaces space ++ line.name ++ [newline]

def flags (line : KernelLine) : BitVec 32 :=
  (if line.readable then vmRead else 0) ||| (if line.writable then vmWrite else 0) |||
    (if line.executable then vmExec else 0) ||| (if line.shared then vmShared else 0)

def stackInfo (line : KernelLine) : StackInfo :=
  ⟨true, hexValue line.startDigits, hexValue line.endDigits, line.flags⟩

/-- What stands behind the inode, up to the next line. -/
def tail (line : KernelLine) (rest : List Byte) : List Byte :=
  List.replicate line.spaces space ++ (line.name ++ newline :: rest)

theorem fields_length (line : KernelLine) :
    line.fields.length = line.offset.length + line.major.length + line.minor.length + 4 := by
  simp only [fields, List.length_append, List.length_cons, List.length_map, List.length_nil]
  omega

theorem narrow_iff (line : KernelLine) : line.Narrow ↔ line.fields.length = 16 := by
  have hoffset := line.offset_length
  have hmajor := line.major_length
  have hminor := line.minor_length
  rw [Narrow, fields_length]
  omega

/-- A line that stands before `rest`, as the parser takes it. -/
theorem render_append (line : KernelLine) (rest : List Byte) :
    line.render ++ rest = line.startDigits.map hexDigit ++
      (byteOf '-' :: (line.endDigits.map hexDigit ++ (space :: (line.perms ++
        (line.fields ++ (line.inode.map decDigit ++ line.tail rest)))))) := by
  simp [render, tail]

end KernelLine

/-- A line with an offset of eight digits and a device of two numbers with two digits each. -/
structure MapsLine extends KernelLine where
  narrow : toKernelLine.Narrow

theorem chr_eq_iff (c : Char) (b : Byte) (h : c.toNat < 128) : b.toInt = chr c ↔ b = byteOf c := by
  have hc : (byteOf c).toInt = chr c := by
    rw [byteOf, chr, BitVec.toInt_ofNat', Int.bmod_eq_of_le (by omega) (by omega)]
  rw [← hc, BitVec.toInt_inj]

theorem toInt_eq_neg_one_iff (b : Byte) : b.toInt = -1 ↔ b = eofByte := by
  have heof : eofByte.toInt = -1 := by decide
  rw [← heof, BitVec.toInt_inj]

theorem yields_readAddrs {line : KernelLine} {fuel : ℕ}
    (h : At (line.startDigits.map hexDigit ++ (byteOf '-' :: (line.endDigits.map hexDigit ++
      (space :: (line.perms ++ rest))))) info s)
    (hstart : line.startDigits.length < fuel) (hend : line.endDigits.length < fuel) :
    Yields (readAddrs fuel) s fun r t =>
      r = some (hexValue line.startDigits, hexValue line.endDigits) ∧
        At (line.perms ++ rest) info t := by
  have hperms : ¬ cur (line.perms ++ rest) < 0 := by
    rw [KernelLine.perms, List.cons_append, cur]
    cases line.readable <;> decide
  have hendCur : ¬ cur (line.endDigits.map hexDigit ++ (space :: (line.perms ++ rest))) < 0 := by
    obtain ⟨d, ds, hds⟩ := List.exists_cons_of_ne_nil line.end_ne
    have hd : ∀ d : Fin 16, ¬ (hexDigit d).toInt < 0 := by decide
    rw [hds, List.map_cons, List.cons_append, cur]
    exact hd d
  have hdash : ¬ charIsHex (cur (byteOf '-' :: (line.endDigits.map hexDigit ++
      (space :: (line.perms ++ rest))))) = true := by
    rw [cur]
    decide
  refine (yields_readHex h hdash line.start_ne line.start_lt hstart).bind fun r t hr => ?_
  obtain ⟨rfl, ht⟩ := hr
  refine .ite_neg (by decide) (ht.lastChar_bind (.ite_neg (not_not_intro rfl) ?_))
  refine ht.readChar_bind fun t ht => .ite_neg hendCur ?_
  have hspace : ¬ charIsHex (cur (space :: (line.perms ++ rest))) = true := by
    rw [cur]
    decide
  refine (yields_readHex ht hspace line.end_ne line.end_lt hend).bind fun r t hr => ?_
  obtain ⟨rfl, ht⟩ := hr
  refine .ite_neg (by decide) (ht.readChar_bind fun t ht => .ite_neg hperms ?_)
  exact yields_pure ⟨rfl, ht⟩

theorem yields_readFlag {b : Bool} {c d : Char} {bit flags : BitVec 32}
    (h : At (byteOf (if b then c else d) :: l) info s)
    (hc : (byteOf c).toInt = chr c) (hd : (byteOf d).toInt ≠ chr c) :
    Yields (readFlag c bit flags) s fun r t =>
      r = flags ||| (if b then bit else 0) ∧ At l info t := by
  refine h.lastChar_bind (h.readChar_bind fun t ht => yields_pure ⟨?_, ht⟩)
  cases b with
  | true => exact if_pos hc
  | false => simp [cur, hd]

theorem yields_readFlags {line : KernelLine} (h : At (line.perms ++ rest) info s) :
    Yields readFlags s fun r t => r = line.flags ∧ At rest info t := by
  refine (yields_readFlag h (by decide) (by decide)).bind fun _ t hr => ?_
  obtain ⟨rfl, ht⟩ := hr
  refine (yields_readFlag ht (by decide) (by decide)).bind fun _ t hr => ?_
  obtain ⟨rfl, ht⟩ := hr
  refine (yields_readFlag ht (by decide) (by decide)).bind fun _ t hr => ?_
  obtain ⟨rfl, ht⟩ := hr
  refine (yields_readFlag ht (by decide) (by decide)).mono fun _ t hr => ?_
  obtain ⟨rfl, ht⟩ := hr
  refine ⟨?_, ht⟩
  simp only [KernelLine.flags, BitVec.ofNat_eq_ofNat, BitVec.zero_or]

/-- Whatever the widths of the fields, sixteen characters are skipped. -/
theorem yields_skipRounds {i rounds : ℕ} (h : At l info s) (hi : i ≤ 16)
    (hrounds : 16 - i < rounds) :
    Yields (loop skipRound rounds i) s fun _ t => At (l.drop (16 - i)) info t := by
  induction rounds generalizing s l i with
  | zero => exact absurd hrounds (Nat.not_lt_zero _)
  | succ rounds ih =>
      rcases hi.lt_or_eq with hlt | rfl
      · refine Yields.loop_next (c := i + 1) (R := At l.tail info) ?_ fun t ht => ?_
        · exact .ite_pos (by omega) (h.readChar_bind fun t ht => yields_pure ⟨rfl, ht⟩)
        · refine (ih ht (by omega) (by omega)).mono fun _ u hu => ?_
          rwa [← List.drop_one, List.drop_drop, show 1 + (16 - (i + 1)) = 16 - i by omega] at hu
      · exact Yields.loop_end (a := ()) (.ite_neg (by omega) (yields_pure ⟨rfl, h⟩))

theorem yields_skipFields (h : At l info s) :
    Yields skipFields s fun _ t => At (l.drop 16) info t :=
  yields_skipRounds h (Nat.zero_le _) (by decide)

theorem yields_skipSpaces {k fuel : ℕ} (h : At (List.replicate k space ++ rest) info s)
    (hrest : cur rest ≠ chr ' ') (hfuel : k < fuel) :
    Yields (loop skipSpacesRound fuel ()) s fun _ t => At rest info t := by
  induction k generalizing s fuel with
  | zero =>
      obtain ⟨fuel, rfl⟩ := Nat.exists_eq_succ_of_ne_zero (Nat.ne_of_gt hfuel)
      exact Yields.loop_end (a := ())
        (h.lastChar_bind (.ite_neg hrest (yields_pure ⟨rfl, h⟩)))
  | succ k ih =>
      obtain ⟨fuel, rfl⟩ := Nat.exists_eq_succ_of_ne_zero (Nat.ne_of_gt (by omega : 0 < fuel))
      refine Yields.loop_next (c := ()) (R := At (List.replicate k space ++ rest) info) ?_ ?_
      · exact h.lastChar_bind (.ite_pos rfl (h.readChar_bind fun t ht => yields_pure ⟨rfl, ht⟩))
      · intro t ht
        exact ih ht (by omega)

/-! ### The name -/

/-- What ends the copying of a name. -/
def EndsName (rest : List Byte) : Prop := cur rest = chr '\n' ∨ cur rest = -1

/-- The name as far as it is read: up to the first byte that looks like the end
of the file. -/
def KernelLine.cut (line : KernelLine) : List Byte := line.name.takeWhile (· ≠ eofByte)

theorem yields_readNameRounds (nameBuf : List Byte) {name : List Byte} {fuel : ℕ}
    (h : At (name ++ rest) info s) (hname : ∀ c ∈ name, c ≠ newline ∧ c ≠ eofByte)
    (hsize : nameBuf.length + name.length ≤ nameBufSize)
    (hrest : nameBuf.length + name.length < nameBufSize → EndsName rest)
    (hfuel : name.length < fuel) :
    Yields (loop readNameRound fuel nameBuf) s fun r t =>
      r = nameBuf ++ name ∧ At rest info t := by
  induction name generalizing s nameBuf fuel with
  | nil =>
      obtain ⟨fuel, rfl⟩ := Nat.exists_eq_succ_of_ne_zero (Nat.ne_of_gt hfuel)
      -- either `name_buf` is full or the next character ends the name
      refine Yields.loop_end (a := nameBuf) (h.lastChar_bind (.ite_neg ?_ ?_))
      · rintro ⟨hlt, hnewline, heof⟩
        exact (hrest hlt).elim hnewline heof
      · exact yields_pure ⟨rfl, (List.append_nil _).symm, h⟩
  | cons c name ih =>
      rw [List.length_cons] at hsize hrest hfuel
      obtain ⟨fuel, rfl⟩ := Nat.exists_eq_succ_of_ne_zero (Nat.ne_of_gt (by omega : 0 < fuel))
      obtain ⟨hnewline, heof⟩ := hname c List.mem_cons_self
      refine Yields.loop_next (c := nameBuf ++ [c]) (R := At (name ++ rest) info) ?_ ?_
      · refine h.lastChar_bind (.ite_pos ⟨by omega, ?_, ?_⟩ ?_)
        · exact mt (chr_eq_iff '\n' c (by decide)).mp hnewline
        · exact mt (toInt_eq_neg_one_iff c).mp heof
        · refine h.readChar_bind fun t ht => yields_pure ⟨?_, ht⟩
          rw [List.cons_append, cur, BitVec.ofInt_toInt]
      · intro t ht
        have hlen : (nameBuf ++ [c]).length = nameBuf.length + 1 := List.length_append
        refine (ih _ ht (fun b hb => hname b (List.mem_cons_of_mem _ hb)) (by omega)
          (fun hlt => hrest (by omega)) (by omega)).mono fun r u hr => ?_
        rwa [List.append_assoc] at hr

theorem yields_readName {name : List Byte} {fuel : ℕ} (h : At (name ++ rest) info s)
    (hname : ∀ c ∈ name, c ≠ newline ∧ c ≠ eofByte) (hsize : name.length < nameBufSize)
    (hrest : EndsName rest) (hfuel : name.length < fuel) :
    Yields (readName fuel) s fun r t => r = name ∧ At rest info t := by
  refine (yields_readNameRounds [] h hname (by simpa using hsize.le) (fun _ => hrest) hfuel).bind
    fun r t hr => ?_
  obtain ⟨rfl, ht⟩ := hr
  exact .ite_pos hsize (yields_pure ⟨rfl, ht⟩)

/-- A name that fills `name_buf` leaves no place for the terminator. -/
theorem stops_readName {name : List Byte} {fuel : ℕ} (h : At (name ++ rest) info s)
    (hname : ∀ c ∈ name, c ≠ newline ∧ c ≠ eofByte) (hsize : nameBufSize ≤ name.length)
    (hfuel : name.length < fuel) : Stops (readName fuel) s .outOfBounds := by
  -- the loop copies exactly the first 256 bytes
  have hlen : (name.take nameBufSize).length = nameBufSize := List.length_take_of_le hsize
  rw [← List.take_append_drop nameBufSize name, List.append_assoc] at h
  refine (yields_readNameRounds [] h
    (fun c hc => hname c (List.mem_of_mem_take hc)) (by simp)
    (fun hlt => absurd hlen (by simpa using hlt.ne)) (by omega)).bind_stops fun r t hr => ?_
  obtain ⟨rfl, -⟩ := hr
  exact Stops.ite_neg (by rw [List.nil_append]; omega) stops_throw

end Ciabatta.Loader
