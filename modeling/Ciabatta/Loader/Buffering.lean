import Ciabatta.Lib.Alike
import Ciabatta.Loader.StackDiscovery

/-!
The buffer of the parser of `stack.c` does not show: on the same text two runs do the
same, however the reads cut it.
-/

namespace Ciabatta.Loader

open ByteMemory Exec

/-- Both cursors are on the same byte of the same text. -/
def SamePlace (s t : MapsState) : Prop :=
  ∃ l info, At l info s ∧ At l info t

/-- What the parser leaves behind. -/
def SameInfo (s t : MapsState) : Prop :=
  s.stackInfo = t.stackInfo

/-- The start of `linux_read_stack_info`. -/
def openMaps : MapsM ℤ := do
  let fd ← sysOpen
  setBuffer fun b =>
    { b with fd := fd, data := [], dataSize := lineBufSize, lastReadSize := 0, offset := 0 }
  return fd

/-- What the next calls of `read_char` leave in `last_char`. -/
def lastChars : ℕ → MapsM (List ℤ)
  | 0 => return []
  | n + 1 => do
      let _ ← readChar
      let ch ← lastChar
      let chs ← lastChars n
      return ch :: chs

/-- The same from the start on. -/
def charsSeen (n : ℕ) : MapsM (List ℤ) := do
  let _ ← openMaps
  lastChars n

variable {s t : MapsState} {l : List Byte}

/-! ### The pieces of the parser -/

theorem SamePlace.info (h : SamePlace s t) : SameInfo s t := by
  obtain ⟨l, info, hs, ht⟩ := h
  exact hs.info.trans ht.info.symm

theorem alike_lastChar : Alike SamePlace lastChar lastChar := by
  rintro s t ⟨l, info, hs, ht⟩
  exact ⟨hs.char.trans ht.char.symm, l, info, hs, ht⟩

/-- The first call, before which `last_char` may be anything. -/
theorem endsAlike_readChar {info : StackInfo} (hs : Feeds s l) (ht : Feeds t l)
    (hsinfo : s.stackInfo = info) (htinfo : t.stackInfo = info) :
    EndsAlike SamePlace (readChar s) (readChar t) := by
  obtain ⟨a, s', hrun, rfl, hs'⟩ := yields_readChar hs hsinfo
  obtain ⟨b, t', hrun', rfl, ht'⟩ := yields_readChar ht htinfo
  rw [hrun, hrun']
  exact ⟨rfl, l, info, hs', ht'⟩

theorem alike_readChar : Alike SamePlace readChar readChar := by
  rintro s t ⟨l, info, hs, ht⟩
  exact endsAlike_readChar hs.feeds ht.feeds hs.info ht.info

theorem alike_sysClose : Alike SamePlace sysClose sysClose := by
  rintro s t ⟨l, info, hs, ht⟩
  exact ⟨rfl, l, info, ⟨hs.char, ⟨hs.feeds.size, hs.feeds.dataSize, hs.feeds.after, hs.feeds.reads⟩,
    hs.info⟩, ht.char, ⟨ht.feeds.size, ht.feeds.dataSize, ht.feeds.after, ht.feeds.reads⟩, ht.info⟩

theorem alike_foundStack (startAddr endAddr : Word) (flags : BitVec 32) :
    Alike SamePlace (foundStack startAddr endAddr flags) (foundStack startAddr endAddr flags) := by
  rintro s t ⟨l, info, hs, ht⟩
  exact ⟨rfl, l, _, ⟨hs.char, ⟨hs.feeds.size, hs.feeds.dataSize, hs.feeds.after, hs.feeds.reads⟩,
    rfl⟩, ht.char, ⟨ht.feeds.size, ht.feeds.dataSize, ht.feeds.after, ht.feeds.reads⟩, rfl⟩

theorem alike_readHex (fuel : ℕ) : Alike SamePlace (readHex fuel) (readHex fuel) := by
  refine (alike_loop (fun b => ?_) _ _).bind fun _ => alike_pure _
  refine alike_lastChar.bind fun ch => Alike.ite ?_ (alike_pure _)
  exact alike_readChar.bind fun _ => (alike_incrementInt _).bind fun _ => alike_pure _

theorem alike_readDec (fuel : ℕ) : Alike SamePlace (readDec fuel) (readDec fuel) := by
  refine (alike_loop (fun b => ?_) _ _).bind fun _ => alike_pure _
  refine alike_lastChar.bind fun ch => Alike.ite ?_ (alike_pure _)
  exact alike_readChar.bind fun _ => (alike_incrementInt _).bind fun _ => alike_pure _

theorem alike_readAddrs (fuel : ℕ) : Alike SamePlace (readAddrs fuel) (readAddrs fuel) := by
  refine (alike_readHex fuel).bind fun r => (alike_pure _).ite ?_
  refine alike_lastChar.bind fun ch => (alike_pure _).ite ?_
  refine alike_readChar.bind fun ch => (alike_pure _).ite ?_
  refine (alike_readHex fuel).bind fun r => (alike_pure _).ite ?_
  exact alike_readChar.bind fun ch => (alike_pure _).ite (alike_pure _)

theorem alike_readFlag (c : Char) (bit flags : BitVec 32) :
    Alike SamePlace (readFlag c bit flags) (readFlag c bit flags) :=
  alike_lastChar.bind fun _ => alike_readChar.bind fun _ => alike_pure _

theorem alike_readFlags : Alike SamePlace readFlags readFlags := by
  refine (alike_readFlag _ _ _).bind fun _ => (alike_readFlag _ _ _).bind fun _ => ?_
  exact (alike_readFlag _ _ _).bind fun _ => alike_readFlag _ _ _

theorem alike_skipFields : Alike SamePlace skipFields skipFields :=
  alike_loop (fun _ => (alike_readChar.bind fun _ => alike_pure _).ite (alike_pure _)) _ _

theorem alike_skipSpaces (fuel : ℕ) :
    Alike SamePlace (loop skipSpacesRound fuel ()) (loop skipSpacesRound fuel ()) :=
  alike_loop (fun _ => alike_lastChar.bind fun _ =>
    (alike_readChar.bind fun _ => alike_pure _).ite (alike_pure _)) _ _

theorem alike_readName (fuel : ℕ) : Alike SamePlace (readName fuel) (readName fuel) := by
  refine (alike_loop (fun nameBuf => ?_) _ _).bind fun nameBuf => (alike_pure _).ite (alike_throw _)
  exact alike_lastChar.bind fun _ => (alike_readChar.bind fun _ => alike_pure _).ite (alike_pure _)

theorem alike_compare (nameBuf : List Byte) :
    Alike SamePlace (loop (compareRound nameBuf) 8 0) (loop (compareRound nameBuf) 8 0) :=
  alike_loop (fun _ => ((alike_pure _).ite (alike_pure _)).ite (alike_pure _)) _ _

theorem alike_skipNewline : Alike SamePlace skipNewline skipNewline :=
  alike_lastChar.bind fun _ => (alike_readChar.bind fun _ => alike_pure _).ite (alike_pure _)

theorem alike_readMapping (fuel : ℕ) : Alike SamePlace (readMapping fuel) (readMapping fuel) := by
  refine (alike_readAddrs fuel).bind fun addrs => ?_
  cases addrs with
  | none => exact alike_pure _
  | some addrs =>
      refine alike_readFlags.bind fun _ => alike_skipFields.bind fun _ => ?_
      exact (alike_readDec fuel).bind fun r => (alike_pure _).ite (alike_pure _)

theorem alike_matchName (fuel : ℕ) (startAddr endAddr : Word) (flags : BitVec 32) :
    Alike SamePlace (matchName fuel startAddr endAddr flags)
      (matchName fuel startAddr endAddr flags) := by
  refine alike_lastChar.bind fun ch => (alike_pure _).ite ?_
  refine (alike_skipSpaces fuel).bind fun _ => ?_
  refine (alike_readName fuel).bind fun nameBuf => (alike_pure _).ite ?_
  refine (alike_compare nameBuf).bind fun _ => (alike_foundStack _ _ _).bind fun _ => ?_
  exact alike_sysClose.bind fun _ => alike_pure _

theorem alike_lineRound (fuel : ℕ) (b : Unit) :
    Alike SamePlace (lineRound fuel b) (lineRound fuel b) := by
  refine alike_lastChar.bind fun ch => (alike_sysClose.bind fun _ => alike_pure _).ite ?_
  refine alike_skipNewline.bind fun _ => (alike_readMapping fuel).bind fun mapping => ?_
  cases mapping with
  | none => exact alike_pure _
  | some mapping => exact alike_matchName fuel _ _ _

/-! ### The runs -/

/-- The first characters of a text, with the end of the file behind it. -/
def textChars (l : List Byte) (n : ℕ) : List ℤ :=
  (List.range n).map fun i => cur (l.drop i)

theorem textChars_succ (l : List Byte) (n : ℕ) :
    textChars l (n + 1) = cur l :: textChars l.tail n := by
  rw [textChars, List.range_succ_eq_map, List.map_cons, List.map_map, textChars]
  refine congrArg (cur l :: ·) (List.map_congr_left fun i _ => ?_)
  rw [← List.drop_one, List.drop_drop, Function.comp_apply, Nat.succ_eq_add_one, Nat.add_comm]

/-- The buffered reader is a cursor that goes on by one byte with each call. -/
theorem yields_lastChars {n : ℕ} (h : Feeds s l) :
    Yields (lastChars n) s fun chs _ => chs = textChars l n := by
  induction n generalizing s l with
  | zero => exact yields_pure rfl
  | succ n ih =>
      refine (yields_readChar h rfl).bind fun r t hr => ?_
      obtain ⟨rfl, ht⟩ := hr
      refine ht.lastChar_bind ((ih ht.feeds).bind fun chs u hchs => yields_pure ?_)
      rw [hchs, textChars_succ]

theorem yields_openMaps (h : Delivers s l) : Yields openMaps s fun _ t => Feeds t l := by
  obtain ⟨-, hafter, chunks, hreads, hchunks, rfl⟩ := h
  exact ⟨_, _, rfl, rfl, rfl, hafter, chunks, hreads, hchunks, rfl⟩

theorem yields_charsSeen {n : ℕ} (h : Delivers s l) :
    Yields (charsSeen n) s fun chs _ => chs = textChars l n :=
  (yields_openMaps h).bind fun _ _ ht => yields_lastChars ht

theorem endsAlike_linuxReadStackInfo (hs : Delivers s l) (ht : Delivers t l)
    (hinfo : SameInfo s t) (fuel : ℕ) :
    EndsAlike SameInfo (linuxReadStackInfo fuel s) (linuxReadStackInfo fuel t) := by
  obtain ⟨u, ⟨hu, huinfo⟩, hsu⟩ := @linuxReadStackInfo_leads s l fuel hs
  obtain ⟨v, ⟨hv, hvinfo⟩, htv⟩ := @linuxReadStackInfo_leads t l fuel ht
  rw [hsu, htv]
  have hread := endsAlike_readChar hu hv huinfo (hvinfo.trans hinfo.symm)
  refine (hread.bind fun ch => (alike_pure _).ite ?_).mono fun _ _ => SamePlace.info
  exact alike_loop (alike_lineRound fuel) fuel ()

/-- Buffering is transparent: two runs over the same text, cut into reads in two ways, see
the same characters, return the same and leave the same `stack_info`. -/
theorem buffering_transparent (hs : Delivers s l) (ht : Delivers t l) (hinfo : SameInfo s t) :
    (∀ n, Yields (charsSeen n) s (fun chs _ => chs = textChars l n) ∧
      Yields (charsSeen n) t fun chs _ => chs = textChars l n) ∧
    ∀ fuel, EndsAlike SameInfo (linuxReadStackInfo fuel s) (linuxReadStackInfo fuel t) :=
  ⟨fun _ => ⟨yields_charsSeen hs, yields_charsSeen ht⟩, endsAlike_linuxReadStackInfo hs ht hinfo⟩

/-- The same file in one read. -/
def wholeFile (l : List Byte) : MapsState :=
  { mapsFile l with reads := [.data l] }

theorem buffering_transparent_stackLine :
    (∀ n, Yields (charsSeen n) (mapsFile stackLine.render)
        (fun chs _ => chs = textChars stackLine.render n) ∧
      Yields (charsSeen n) (wholeFile stackLine.render)
        fun chs _ => chs = textChars stackLine.render n) ∧
    ∀ fuel, EndsAlike SameInfo (linuxReadStackInfo fuel (mapsFile stackLine.render))
      (linuxReadStackInfo fuel (wholeFile stackLine.render)) := by
  refine buffering_transparent (delivers_mapsFile (by decide) (by decide))
    ⟨by decide, rfl, [stackLine.render], rfl, ?_, List.flatten_singleton⟩ rfl
  intro c hc
  rw [List.mem_singleton] at hc
  rw [hc]
  decide

end Ciabatta.Loader
