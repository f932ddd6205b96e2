import Ciabatta.StdlibFile.Reading

/-!
`fgetc` and `fread` over the two platform layers, on one stream and with the
same bytes delivered. `_rt_file_read` of the Windows layer has no status for the
end of the file, which makes `fgetc` return 0 there for ever.
-/

namespace Ciabatta.StdlibFile

open ByteMemory Exec

inductive ReadCall
  | fgetc
  | fread (size count : Word)
  deriving DecidableEq

inductive ReadResult
  | char (c : ℤ)
  | items (n : Word) (data : List Byte)
  deriving DecidableEq

def ReadCall.run (layer : ReadLayer) : ReadCall → ReadM ReadResult
  | .fgetc => do
      let c ← StdlibFile.fgetc layer
      return .char c
  | .fread size count => do
      let (n, data) ← StdlibFile.fread layer size count
      return .items n data

def runCalls (layer : ReadLayer) : List ReadCall → ReadM (List ReadResult)
  | [] => return []
  | c :: calls => do
      let result ← c.run layer
      let results ← runCalls layer calls
      return result :: results

/-- The size that the call passes to `_rt_file_read`. -/
def ReadCall.request : ReadCall → Word
  | .fgetc => 1
  | .fread size count => size * count

/-- What `read` and `ReadFile` may both deliver of the rest of a file: `read` no
more than `0x7ffff000` bytes, `ReadFile` no more than the low half of the
request, and both of them nothing only at the end of the file or when they are
asked for nothing. -/
structure Deliverable (request : Word) (rest : List Byte) (result : ℤ) : Prop where
  nonneg : 0 ≤ result
  le_rest : result ≤ rest.length
  le_request : result ≤ request.toNat
  le_read : result ≤ 0x7ffff000
  le_readFile : result ≤ request.toNat % 2 ^ 32
  eq_zero : result = 0 → request = 0 ∨ rest = []

/-- The results of the read calls suit the calls of a client, whose sizes are
not zero. -/
def Delivered : List Byte → List ReadCall → List ℤ → Prop
  | _, [], results => results = []
  | _, _ :: _, [] => False
  | rest, c :: calls, result :: results =>
      (∀ size count, c = .fread size count → size ≠ 0) ∧ Deliverable c.request rest result ∧
        Delivered (rest.drop result.toNat) calls results

/-- The result of a call before the bytes `rest`, of which `result` are delivered.
Behind the last byte `fgetc` returns `endChar`. -/
def callResult (endChar : ℤ) (rest : List Byte) (result : ℤ) : ReadCall → ReadResult
  | .fgetc => .char ((rest.head?.map fun b => (b.toNat : ℤ)).getD endChar)
  | .fread size _ => .items (BitVec.ofInt 64 result / size) (rest.take result.toNat)

def callResults (endChar : ℤ) : List Byte → List ReadCall → List ℤ → List ReadResult
  | rest, c :: calls, result :: results =>
      callResult endChar rest result c ::
        callResults endChar (rest.drop result.toNat) calls results
  | _, _, _ => []

/-- What the calls are for: `fgetc` returns the next byte, and `EOF` behind the
last one. -/
def streamResults : List Byte → List ReadCall → List ℤ → List ReadResult :=
  callResults eof

/-- No `fgetc` comes to the end of the file. -/
def CharsLeft : List Byte → List ReadCall → List ℤ → Prop
  | rest, c :: calls, result :: results =>
      (c = .fgetc → rest ≠ []) ∧ CharsLeft (rest.drop result.toNat) calls results
  | _, _, _ => True

variable {s : ReadStream} {request garbage : Word} {result : ℤ} {results : List ℤ}

/-! ### The layers -/

/-- A read call of a layer whose status at the end of the file is `endStatus`. -/
structure Reads (endStatus result : ℤ) (s : ReadStream) (out : FileRead) (t : ReadStream) :
    Prop where
  status : out.status = if result = 0 then endStatus else rtStatusOk
  count : out.status = rtStatusOk → out.outBytesRead = BitVec.ofInt 64 result
  data : out.data = s.rest.take result.toNat
  rest : t.rest = s.rest.drop result.toNat
  results : t.results = s.results.tail

theorem Deliverable.lt {rest : List Byte} (h : Deliverable request rest result) :
    result < 2 ^ 31 := by
  have hle := h.le_read
  omega

theorem toInt_ofInt32 (hnonneg : 0 ≤ result) (hlt : result < 2 ^ 31) :
    (BitVec.ofInt 32 result).toInt = result := by
  rw [BitVec.toInt_ofInt]
  exact Int.bmod_eq_of_le (by omega) (by omega)

/-- A number of bytes in the low half of a word whose high half is zero. -/
theorem setWidth_ofInt32 (hnonneg : 0 ≤ result) (hlt : result < 2 ^ 31) :
    (BitVec.ofInt 32 result).setWidth 64 = BitVec.ofInt 64 result := by
  apply BitVec.eq_of_toNat_eq
  rw [BitVec.toNat_setWidth, BitVec.toNat_ofInt, BitVec.toNat_ofInt]
  omega

theorem yields_kernelRead (request : Word) (h : s.results = result :: results) :
    Yields (kernelRead request) s fun r t => r = (result, s.rest.take result.toNat) ∧
      t.rest = s.rest.drop result.toNat ∧ t.results = s.results.tail := by
  refine ⟨_, _, rfl, ?_⟩
  simp [h]

/-- The layer does what its read calls deliver, and its status at the end of the
file is `endStatus`. -/
def Layered (layer : ReadLayer) (endStatus : ℤ) : Prop :=
  ∀ s result results request garbage, Deliverable request s.rest result →
    s.results = result :: results →
    Yields (layer request garbage) s (Reads endStatus result s)

theorem layered_linuxRtFileRead : Layered linuxRtFileRead rtStatusFileEof := by
  intro s result results request garbage h hresults
  refine (yields_kernelRead request hresults).bind ?_
  rintro _ t ⟨rfl, hrest, hresults'⟩
  dsimp only
  rw [toInt_ofInt32 h.nonneg h.lt]
  by_cases hzero : result = 0
  · rw [if_pos hzero]
    have hstatus : rtStatusFileEof ≠ rtStatusOk := by decide
    exact yields_pure ⟨(if_pos hzero).symm, fun hok => absurd hok hstatus, rfl, hrest, hresults'⟩
  · have hnonneg := h.nonneg
    rw [if_neg hzero, if_neg (by omega)]
    exact yields_pure ⟨(if_neg hzero).symm, fun _ => rfl, rfl, hrest, hresults'⟩

theorem layered_windowsRtFileRead : Layered windowsRtFileRead rtStatusOk := by
  intro s result results request garbage h hresults
  refine (yields_kernelRead _ hresults).bind ?_
  rintro _ t ⟨rfl, hrest, hresults'⟩
  dsimp only
  rw [if_neg (not_lt.mpr h.nonneg), setWidth_ofInt32 h.nonneg h.lt]
  exact yields_pure ⟨(ite_self _).symm, fun _ => rfl, rfl, hrest, hresults'⟩

/-! ### The calls -/

/-- What `fgetc` returns where `_rt_file_read` has the status `endStatus`. -/
def endChar (endStatus : ℤ) : ℤ :=
  if endStatus = rtStatusOk then 0 else eof

variable {layer : ReadLayer} {endStatus : ℤ} {c : ReadCall}

/-- After a call the stream has moved on by one read call. -/
structure Moved (s : ReadStream) (result : ℤ) (t : ReadStream) : Prop where
  rest : t.rest = s.rest.drop result.toNat
  results : t.results = s.results.tail

/-- The stretch between the lock and the unlock, the same in every call. -/
theorem Layered.bind_read {α : Type} (h : Layered layer endStatus)
    (hdeliver : Deliverable request s.rest result) (hresults : s.results = result :: results)
    {f : FileRead → ReadM α} {Q : α → ReadStream → Prop}
    (hf : ∀ out t, out.status = (if result = 0 then endStatus else rtStatusOk) →
      (out.status = rtStatusOk → out.outBytesRead = BitVec.ofInt 64 result) →
      out.data = s.rest.take result.toNat → Moved s result t → Yields (f out) t Q) :
    Yields (do
      lockRead
      let out ← layer request garbage
      unlockRead
      f out) s Q := by
  have hlocked : Deliverable request (s.record .lock).rest result := hdeliver
  obtain ⟨out, t, hrun, hout⟩ := h (s.record .lock) result results request garbage hlocked hresults
  change Yields (layer request garbage >>= fun out => unlockRead >>= fun _ => f out)
    (s.record .lock) Q
  rw [Yields, bind_of_ok hrun]
  exact hf out (t.record .unlock) hout.status hout.count hout.data ⟨hout.rest, hout.results⟩

theorem storeLowByte_zero (b : Byte) (data : List Byte) :
    (storeLowByte 0 (b :: data)).toInt = b.toNat := by
  have hb := b.isLt
  have hbyte : (storeLowByte 0 (b :: data)).toNat = b.toNat := by
    have hzero : (0 : BitVec 32) &&& ~~~0xff = 0 := rfl
    rw [storeLowByte, hzero, show (0 : BitVec 32) = 0#32 from rfl, BitVec.zero_or,
      BitVec.toNat_setWidth]
    omega
  rw [BitVec.toInt_eq_toNat_of_lt (by omega), hbyte]

theorem Deliverable.one {rest : List Byte} (h : Deliverable 1 rest result) :
    (result = 0 ∧ rest = []) ∨ ∃ b tail, result = 1 ∧ rest = b :: tail := by
  have hle : result ≤ 1 := h.le_request
  have hnonneg := h.nonneg
  by_cases hzero : result = 0
  · exact .inl ⟨hzero, (h.eq_zero hzero).resolve_left (by decide)⟩
  · cases rest with
    | nil =>
        have hrest : result ≤ 0 := h.le_rest
        omega
    | cons b tail => exact .inr ⟨b, tail, by omega, rfl⟩

theorem yields_fgetc (h : Layered layer endStatus) (hdeliver : Deliverable 1 s.rest result)
    (hresults : s.results = result :: results) :
    Yields (fgetc layer) s fun c t =>
      .char c = callResult (endChar endStatus) s.rest result .fgetc ∧ Moved s result t := by
  refine Yields.get_bind ?_
  refine h.bind_read hdeliver hresults fun out t hstatus _ hdata hmoved => ?_
  rw [callResult, hstatus, hdata]
  rcases hdeliver.one with ⟨rfl, hrest⟩ | ⟨b, tail, rfl, hrest⟩
  · rw [if_pos rfl, hrest]
    by_cases hok : endStatus = rtStatusOk
    · rw [hok, if_neg (by decide), if_neg (by simp)]
      exact yields_pure ⟨rfl, hmoved⟩
    · by_cases hend : endStatus = rtStatusFileEof
      · rw [if_pos hend]
        exact yields_pure ⟨by simp [endChar, hok], hmoved⟩
      · rw [if_neg hend, if_pos hok]
        exact yields_pure ⟨by simp [endChar, hok], hmoved⟩
  · rw [if_neg one_ne_zero, if_neg (by decide), if_neg (by simp), hrest]
    exact yields_pure ⟨congrArg _ (storeLowByte_zero b _), hmoved⟩

theorem yields_fread {size count : Word} (h : Layered layer endStatus)
    (hdeliver : Deliverable (size * count) s.rest result)
    (hresults : s.results = result :: results) (hsize : size ≠ 0) :
    Yields (fread layer size count) s fun r t =>
      .items r.1 r.2 = callResult (endChar endStatus) s.rest result (.fread size count) ∧
        Moved s result t := by
  refine Yields.get_bind ?_
  refine h.bind_read hdeliver hresults fun out t hstatus hcount hdata hmoved => ?_
  rw [callResult, hdata]
  by_cases hok : out.status = rtStatusOk
  · rw [if_neg (not_not.mpr hok), if_neg hsize, hcount hok]
    exact yields_pure ⟨rfl, hmoved⟩
  · -- only a read of nothing has another status
    have hzero : result = 0 := by
      by_contra hne
      exact hok (by rw [hstatus, if_neg hne])
    rw [if_pos hok, hzero]
    refine yields_pure ⟨?_, hzero ▸ hmoved⟩
    have hnone : BitVec.ofInt 64 0 / size = 0 := BitVec.zero_udiv
    rw [hnone]

theorem yields_run (h : Layered layer endStatus) (hdeliver : Deliverable c.request s.rest result)
    (hresults : s.results = result :: results)
    (hsize : ∀ size count, c = .fread size count → size ≠ 0) :
    Yields (c.run layer) s fun r t =>
      r = callResult (endChar endStatus) s.rest result c ∧ Moved s result t := by
  cases c with
  | fgetc =>
      refine (yields_fgetc h hdeliver hresults).bind fun char t hchar => ?_
      exact yields_pure hchar
  | fread size count =>
      refine (yields_fread h hdeliver hresults (hsize size count rfl)).bind fun items t hitems => ?_
      exact yields_pure hitems

theorem yields_runCalls {calls : List ReadCall} (h : Layered layer endStatus)
    (hdelivered : Delivered s.rest calls s.results) :
    Yields (runCalls layer calls) s fun rs _ =>
      rs = callResults (endChar endStatus) s.rest calls s.results := by
  induction calls generalizing s with
  | nil => exact yields_pure (by simp [callResults])
  | cons c calls ih =>
      cases hresults : s.results with
      | nil =>
          rw [hresults] at hdelivered
          exact hdelivered.elim
      | cons result results =>
          rw [hresults] at hdelivered
          obtain ⟨hsize, hdeliver, hrest⟩ := hdelivered
          refine (yields_run h hdeliver hresults hsize).bind fun r t hr => ?_
          obtain ⟨hr, hmoved⟩ := hr
          have hnext : t.results = results := by rw [hmoved.results, hresults, List.tail_cons]
          have htail : Delivered t.rest calls t.results := by
            rw [hmoved.rest, hnext]
            exact hrest
          refine (ih htail).bind fun rs u hrs => yields_pure ?_
          rw [hr, hrs, hmoved.rest, hnext, callResults]

theorem callResult_eq_iff (rest : List Byte) (result : ℤ) (c : ReadCall) :
    callResult 0 rest result c = callResult eof rest result c ↔ (c = .fgetc → rest ≠ []) := by
  cases c with
  | fgetc =>
      cases rest with
      | nil => simp [callResult, eof]
      | cons b tail => simp [callResult]
  | fread size count => simp [callResult]

theorem callResults_eq_iff {rest : List Byte} {calls : List ReadCall} {results : List ℤ}
    (h : Delivered rest calls results) :
    callResults 0 rest calls results = callResults eof rest calls results ↔
      CharsLeft rest calls results := by
  induction calls generalizing rest results with
  | nil => simp [callResults, CharsLeft]
  | cons c calls ih =>
      cases results with
      | nil => exact h.elim
      | cons result results =>
          rw [callResults, callResults, CharsLeft, List.cons.injEq, callResult_eq_iff,
            ih h.2.2]

/-! ### Main result -/

/-- Both layers return the results of the stream. -/
def LayersAgree (s : ReadStream) (calls : List ReadCall) : Prop :=
  ∃ rs, (∃ t, runCalls linuxRtFileRead calls s = .ok rs t) ∧
    (∃ t, runCalls windowsRtFileRead calls s = .ok rs t) ∧ rs = streamResults s.rest calls s.results

/-- The Linux layer always does. -/
theorem linux_runCalls {calls : List ReadCall} (h : Delivered s.rest calls s.results) :
    Yields (runCalls linuxRtFileRead calls) s fun rs _ =>
      rs = streamResults s.rest calls s.results :=
  yields_runCalls layered_linuxRtFileRead h

/-- With the same bytes delivered, the layers agree if and only if no `fgetc` comes
to the end of the file. -/
theorem layersAgree_iff {calls : List ReadCall} (h : Delivered s.rest calls s.results) :
    LayersAgree s calls ↔ CharsLeft s.rest calls s.results := by
  obtain ⟨_, t, hlinux, rfl⟩ := linux_runCalls h
  obtain ⟨_, u, hwindows, rfl⟩ := yields_runCalls layered_windowsRtFileRead h
  rw [← callResults_eq_iff h]
  constructor
  · rintro ⟨rs, -, ⟨u', hwindows'⟩, hrs⟩
    rw [hwindows] at hwindows'
    cases hwindows'
    exact hrs
  · intro heq
    refine ⟨_, ⟨t, hlinux⟩, ⟨u, ?_⟩, rfl⟩
    rw [hwindows]
    exact congrArg (EStateM.Result.ok · u) heq

/-- A file of one byte, with an `fread` of more behind it. -/
theorem layersAgree_oneByte : LayersAgree ⟨[65], [1, 0], 0, []⟩ [.fgetc, .fread 1 4] := by
  have hdelivered : Delivered [65] [.fgetc, .fread 1 4] [1, 0] := by
    refine ⟨nofun, ?_, by simp, ?_, rfl⟩ <;> constructor <;> decide
  rw [layersAgree_iff (s := ⟨[65], [1, 0], 0, []⟩) hdelivered]
  simp [CharsLeft]

/-- An empty file, with one `fgetc`. -/
theorem layersAgree_fails :
    Delivered [] [.fgetc] [0] ∧ ¬ LayersAgree ⟨[], [0], 0, []⟩ [.fgetc] := by
  refine ⟨⟨nofun, ⟨?_, ?_, ?_, ?_, ?_, ?_⟩, rfl⟩, ?_⟩
  all_goals try decide
  rintro ⟨rs, -, ⟨t, hwindows⟩, hrs⟩
  cases hwindows
  revert hrs
  decide

end Ciabatta.StdlibFile
