import Ciabatta.StdlibFile.Transfers

/-!
Characters through a file. `fputc` writes the low byte of its argument and returns the
argument, where `fgetc` returns the byte.
-/

namespace Ciabatta.StdlibFile

open ByteMemory Exec

/-- A call of `fputc`, and what its write call returns. -/
structure Put where
  c : BitVec 32
  outcome : ℤ

/-- One byte, no byte, or an error. -/
def Put.Possible (p : Put) : Prop :=
  -4095 ≤ p.outcome ∧ p.outcome ≤ 1

/-- The byte is in the file. -/
def Put.written (p : Put) : Bool :=
  p.outcome = 1

/-- The character that was put, in `0..255`. -/
def Put.char (p : Put) : ℤ := (p.c.toNat % 256 : ℕ)

/-- What `fputc` is to return. -/
def Put.expected (p : Put) : ℤ :=
  if p.written then p.char else eof

def StdioEvent.isWrite : StdioEvent → Bool
  | .write _ _ => true
  | _ => false

/-- The kernel gives its answers in their order. -/
def answersOf (puts : List Put) (log : List StdioEvent) (_ : List Byte) : ℤ :=
  ((puts.map Put.outcome)[log.countP StdioEvent.isWrite]?).getD 0

def putChars : List (BitVec 32) → StdioM (List ℤ)
  | [] => return []
  | c :: cs => do
      let result ← fputc c
      let results ← putChars cs
      return result :: results

def getChars (layer : ReadLayer) : ℕ → ReadM (List ℤ)
  | 0 => return []
  | n + 1 => do
      let c ← fgetc layer
      let cs ← getChars layer n
      return c :: cs

/-- A file opened for reading, with `n` read calls behind its last byte. -/
def opened (file : List Byte) (n : ℕ) (garbage : Word) : ReadStream where
  rest := file
  results := List.replicate file.length 1 ++ List.replicate n 0
  garbage := garbage
  log := []

/-- `fputc` tells which bytes were written, and `fgetc` reads these, and then `EOF` for
ever. -/
structure RoundTrip (puts : List Put) (s t : Stdio) (results : List ℤ) : Prop where
  run : putChars (puts.map Put.c) s = .ok results t
  returned : results = puts.map Put.expected
  read : ∀ n garbage, Yields (getChars linuxRtFileRead (t.output.length + n))
    (opened t.output n garbage) fun cs _ =>
      cs = (puts.filter Put.written).map Put.char ++ List.replicate n eof

/-- A byte that was written came from an `int` in `0..255`, and where no byte was written
and there was no error either, the `int` is itself `EOF`. -/
def Put.Faithful (p : Put) : Prop :=
  (p.outcome = 1 → p.c.toNat < 256) ∧ (p.outcome = 0 → p.c.toInt = eof)

instance (p : Put) : Decidable p.Possible :=
  inferInstanceAs (Decidable (_ ∧ _))

instance (p : Put) : Decidable p.Faithful :=
  inferInstanceAs (Decidable (_ ∧ _))

variable {s : Stdio} {t : ReadStream} {puts rest : List Put} {p : Put}

/-! ### `fputc` -/

/-- What `fputc` does return. -/
def Put.returned (p : Put) : ℤ :=
  if p.outcome < 0 then eof else p.c.toInt

theorem Put.returned_eq_iff (hp : p.Possible) : p.returned = p.expected ↔ p.Faithful := by
  have hbound := p.c.isLt
  rw [Put.returned, Put.expected, Put.written, Put.char, Put.Faithful]
  by_cases hneg : p.outcome < 0
  · have hone : p.outcome ≠ 1 := by omega
    rw [if_pos hneg, if_neg (by simpa using hone)]
    exact ⟨fun _ => ⟨fun h => absurd h hone, fun h => by omega⟩, fun _ => rfl⟩
  · rw [if_neg hneg]
    by_cases hone : p.outcome = 1
    · rw [if_pos (by simpa using hone), BitVec.toInt_eq_toNat_cond]
      split <;> omega
    · have hzero : p.outcome = 0 := by
        have hle := hp.2
        omega
      rw [if_neg (by simpa using hone)]
      exact ⟨fun h => ⟨fun h' => absurd h' hone, fun _ => h⟩, fun h => h.2 hzero⟩

/-- The state before the `fputc` calls `rest`. -/
structure Before (puts rest : List Put) (s : Stdio) : Prop where
  kernel : s.kernel = answersOf puts
  rest : puts.drop (s.log.countP StdioEvent.isWrite) = rest

theorem yields_fputc_afterWrite (c : BitVec 32) (s : Stdio) :
    Yields (fputc c) s fun r t => t = s.afterWrite [c.setWidth 8] ∧
      r = if wrapped (s.kernel (s.record .lock).log [c.setWidth 8]) < 0 then eof else c.toInt := by
  rw [fputc, rtFileWrite_eq]
  refine Yields.bind (R := fun _ t => t = s.record .lock) ⟨_, _, rfl, rfl⟩ ?_
  rintro _ _ rfl
  rw [bind_assoc]
  refine (yields_rtFileWriteOut [c.setWidth 8] _).bind fun written t h => ?_
  obtain ⟨rfl, h⟩ := h
  have hunlock : ∀ status : ℤ, Yields (do
      unlock
      if status ≠ rtStatusOk then return eof else return c.toInt)
      ((s.record .lock).record
        (.write [c.setWidth 8] (s.kernel (s.record .lock).log [c.setWidth 8])))
      fun r t => t = s.afterWrite [c.setWidth 8] ∧
        r = if status ≠ rtStatusOk then eof else c.toInt := by
    intro status
    refine Yields.bind (R := fun _ u => u = s.afterWrite [c.setWidth 8]) ⟨_, _, rfl, rfl⟩ ?_
    rintro _ _ rfl
    by_cases hok : status ≠ rtStatusOk
    · rw [if_pos hok, if_pos hok]
      exact yields_pure ⟨rfl, rfl⟩
    · rw [if_neg hok, if_neg hok]
      exact yields_pure ⟨rfl, rfl⟩
  obtain ⟨hpos, rfl⟩ | ⟨hneg, status, hstatus, rfl⟩ := h
  · refine (hunlock rtStatusOk).mono fun r t hr => ⟨hr.1, ?_⟩
    rw [hr.2, if_neg (not_not.mpr rfl)]
    exact (if_neg (not_lt.mpr hpos)).symm
  · refine (hunlock status).mono fun r t hr => ⟨hr.1, ?_⟩
    rw [hr.2, if_pos hstatus]
    exact (if_pos hneg).symm

theorem yields_fputc (hbefore : Before puts (p :: rest) s) (hp : p.Possible) :
    Yields (fputc p.c) s fun r t => r = p.returned ∧ Before puts rest t ∧
      t.output = s.output ++ if p.written then [p.c.setWidth 8] else [] := by
  have hhead : puts[s.log.countP StdioEvent.isWrite]? = some p := by
    rw [← List.head?_drop, hbefore.rest, List.head?_cons]
  have hcount : (s.record .lock).log.countP StdioEvent.isWrite =
      s.log.countP StdioEvent.isWrite := List.countP_append
  have houtcome : s.kernel (s.record .lock).log [p.c.setWidth 8] = p.outcome := by
    rw [hbefore.kernel, answersOf, hcount, List.getElem?_map, hhead]
    rfl
  refine (yields_fputc_afterWrite p.c s).mono fun r t h => ?_
  obtain ⟨rfl, rfl⟩ := h
  have hwrapped : wrapped p.outcome = p.outcome := by
    obtain ⟨hge, hle⟩ := hp
    exact wrapped_eq (by omega) (by omega)
  rw [houtcome, hwrapped, output_afterWrite, houtcome]
  refine ⟨rfl, ⟨hbefore.kernel, ?_⟩, ?_⟩
  · have hnext : (s.afterWrite [p.c.setWidth 8]).log.countP StdioEvent.isWrite =
        s.log.countP StdioEvent.isWrite + 1 := by
      simp [Stdio.afterWrite, Stdio.record, StdioEvent.isWrite, List.countP_cons]
    rw [hnext, ← List.tail_drop, hbefore.rest, List.tail_cons]
  · rw [Put.written]
    obtain ⟨-, hle⟩ := hp
    by_cases hone : p.outcome = 1
    · simp [hone]
    · have hnone : p.outcome.toNat = 0 := by omega
      simp [hone, hnone]

theorem yields_putChars (hbefore : Before puts rest s) (h : ∀ p ∈ rest, p.Possible) :
    Yields (putChars (rest.map Put.c)) s fun rs t => rs = rest.map Put.returned ∧
      t.output = s.output ++ (rest.filter Put.written).map fun p => p.c.setWidth 8 := by
  induction rest generalizing s with
  | nil => exact yields_pure ⟨rfl, (List.append_nil _).symm⟩
  | cons p rest ih =>
      have hp := h p List.mem_cons_self
      refine (yields_fputc hbefore hp).bind fun r t hr => ?_
      obtain ⟨rfl, hafter, hout⟩ := hr
      refine (ih hafter fun q hq => h q (List.mem_cons_of_mem _ hq)).bind fun rs u hrs => ?_
      obtain ⟨rfl, hout'⟩ := hrs
      refine yields_pure ⟨rfl, ?_⟩
      rw [hout', hout, List.append_assoc, List.filter_cons]
      cases p.written <;> rfl

/-! ### `fgetc` -/

/-- One call, and the calls after it on what it leaves. -/
theorem yields_getChars_succ {n : ℕ} {result c : ℤ} {results cs : List ℤ}
    (hdeliver : Deliverable 1 t.rest result) (hresults : t.results = result :: results)
    (hchar : ∀ d, .char d = callResult (endChar rtStatusFileEof) t.rest result .fgetc → d = c)
    (hrest : ∀ u : ReadStream, u.rest = t.rest.drop result.toNat → u.results = results →
      Yields (getChars linuxRtFileRead n) u fun ds _ => ds = cs) :
    Yields (getChars linuxRtFileRead (n + 1)) t fun ds _ => ds = c :: cs := by
  refine (yields_fgetc layered_linuxRtFileRead hdeliver hresults).bind fun d u hd => ?_
  obtain ⟨hd, hmoved⟩ := hd
  have hresults' : u.results = results := by
    rw [hmoved.results, hresults, List.tail_cons]
  refine (hrest u hmoved.rest hresults').bind fun ds v hds => ?_
  rw [hchar d hd, hds]
  exact yields_pure rfl

theorem yields_getChars_end (n : ℕ) (hrest : t.rest = [])
    (hresults : t.results = List.replicate n 0) :
    Yields (getChars linuxRtFileRead n) t fun cs _ => cs = List.replicate n eof := by
  induction n generalizing t with
  | zero => exact yields_pure rfl
  | succ n ih =>
      apply yields_getChars_succ _ hresults
      · intro d hd
        rw [hrest] at hd
        cases hd
        rfl
      · intro u hu hresults'
        exact ih (hu.trans (by rw [hrest]; rfl)) hresults'
      · rw [hrest]
        constructor <;> decide

theorem yields_getChars (file : List Byte) (n : ℕ) (hrest : t.rest = file)
    (hresults : t.results = List.replicate file.length 1 ++ List.replicate n 0) :
    Yields (getChars linuxRtFileRead (file.length + n)) t fun cs _ =>
      cs = (file.map fun b => (b.toNat : ℤ)) ++ List.replicate n eof := by
  induction file generalizing t with
  | nil =>
      rw [List.length_nil, Nat.zero_add]
      exact yields_getChars_end n hrest hresults
  | cons b file ih =>
      rw [List.length_cons, Nat.succ_add]
      apply yields_getChars_succ _ hresults
      · intro d hd
        rw [hrest] at hd
        cases hd
        rfl
      · intro u hu hresults'
        exact ih (hu.trans (by rw [hrest]; rfl)) hresults'
      · rw [hrest]
        exact ⟨by decide, by simp, by decide, by decide, by decide, nofun⟩

/-! ### Main result -/

theorem map_returned_eq_iff (h : ∀ p ∈ puts, p.Possible) :
    puts.map Put.returned = puts.map Put.expected ↔ ∀ p ∈ puts, p.Faithful := by
  rw [List.map_inj_left]
  exact forall₂_congr fun p hp => Put.returned_eq_iff (h p hp)

/-- The bytes written are read back in every case; the results of `fputc` tell which
they are only if every call is faithful. -/
theorem roundTrip_iff (puts : List Put) (garbage : List StdioEvent → BitVec 32)
    (h : ∀ p ∈ puts, p.Possible) :
    (∃ t results, RoundTrip puts ⟨answersOf puts, garbage, [], []⟩ t results) ↔
      ∀ p ∈ puts, p.Faithful := by
  have hbefore : Before puts puts ⟨answersOf puts, garbage, [], []⟩ := ⟨rfl, rfl⟩
  obtain ⟨rs, t, hrun, hrs, hout⟩ := yields_putChars hbefore h
  have hfile : t.output = (puts.filter Put.written).map fun p => p.c.setWidth 8 := hout
  rw [← map_returned_eq_iff h]
  constructor
  · rintro ⟨t', results, htrip⟩
    have heq := htrip.run
    rw [hrun] at heq
    cases heq
    rw [← hrs, htrip.returned]
  · intro hreturned
    refine ⟨t, rs, hrun, hrs.trans hreturned, fun n g => ?_⟩
    refine (yields_getChars t.output n rfl rfl).mono fun cs u hcs => ?_
    rw [hcs, hfile, List.map_map]
    congr 1

/-- Two characters of which one is written. -/
theorem roundTrip_written :
    ∃ t results, RoundTrip [⟨65, 1⟩, ⟨66, -5⟩]
      ⟨answersOf [⟨65, 1⟩, ⟨66, -5⟩], fun _ => 0, [], []⟩ t results :=
  (roundTrip_iff _ _ (by decide)).mpr (by decide)

/-- A byte that was not written. -/
theorem roundTrip_fails :
    Put.Possible ⟨65, 0⟩ ∧
      ¬ ∃ t results, RoundTrip [⟨65, 0⟩] ⟨answersOf [⟨65, 0⟩], fun _ => 0, [], []⟩ t results := by
  refine ⟨⟨by decide, by decide⟩, ?_⟩
  rintro ⟨t, results, hrun, hreturned, -⟩
  cases hrun
  revert hreturned
  decide

end Ciabatta.StdlibFile
