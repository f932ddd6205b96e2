import Ciabatta.StdlibFile.File
import Ciabatta.StdlibFile.ReadLayers
import Ciabatta.StdlibFile.Writes

/-!
The numbers of items that `fread` and `fwrite` of `file.c` return on Linux. Both make one
call of the system, for `size * count` bytes as the product comes out in 64 bits, and divide
by `size` what it returns.
-/

namespace Ciabatta.StdlibFile

open ByteMemory Exec

/-- `fread` from a stream, or `fwrite` of the bytes from `buf` on. -/
inductive ItemCall
  | fread (s : ReadStream)
  | fwrite (s : Stdio) (buf : ℕ → Byte)

def itemBytes (buf : ℕ → Byte) (size count : Word) : List Byte :=
  (List.range (size * count).toNat).map buf

/-- What the read or write call returns that is made. -/
def ItemCall.result (size count : Word) : ItemCall → ℤ
  | .fread s => s.results.headD 0
  | .fwrite s buf => s.kernel (s.record .lock).log (itemBytes buf size count)

/-- The function returns, with a number of items that satisfies `P`. -/
def ItemCall.Returns (size count : Word) (P : Word → Prop) : ItemCall → Prop
  | .fread s => Yields (StdlibFile.fread linuxRtFileRead size count) s fun r _ => P r.1
  | .fwrite s buf => Yields (StdlibFile.fwrite buf size count) s fun r _ => P r

/-- A result of a call for `request` bytes: an error, or a transfer of no more than these. -/
def CallResult (request : Word) (result : ℤ) : Prop :=
  -4095 ≤ result ∧ result ≤ request.toNat

/-- `r` counts the items of `size` bytes in a transfer, in numbers without a bound. -/
structure ItemsCounted (size count : Word) (result : ℤ) (r : Word) : Prop where
  le_count : r.toNat ≤ count.toNat
  le_transferred : r.toNat * size.toNat ≤ result.toNat
  transferred_lt : 0 < size.toNat → 0 ≤ result → result.toNat < (r.toNat + 1) * size.toNat
  eq_zero : result ≤ 0 → r = 0

/-- The function returns, with the number of items transferred. -/
def ItemCall.CountsItems (size count : Word) (call : ItemCall) : Prop :=
  call.Returns size count (ItemsCounted size count (call.result size count))

/-- The number of bytes comes through `sys_read` and `sys_write`, or all the bytes are less
than an item. -/
def CountPasses (size : Word) (result : ℤ) : Prop :=
  result < 2 ^ 31 ∨ result < size.toNat

/-- `fread` has returned at the end of the file, where `fwrite` goes on to divide by zero. -/
def ItemCall.NoDivision (size count : Word) : ItemCall → Prop
  | .fread _ => True
  | .fwrite s buf => size = 0 → (ItemCall.fwrite s buf).result size count < 0

variable {size count : Word} {result : ℤ} {r : Word} {call : ItemCall} {P : Word → Prop}

/-! ### The two functions -/

/-- An `i32` in an `i64`. -/
def wrapped (result : ℤ) : ℤ := (BitVec.ofInt 32 result).toInt

/-- What `_rt_file_read` makes of the result of the read call. -/
def linuxFileRead (bytesRead : ℤ) (outBytesRead : Word) (data : List Byte) : FileRead :=
  if bytesRead = 0 then ⟨rtStatusFileEof, outBytesRead, data⟩
  else if bytesRead < 0 then ⟨rtStatusFileIoError, outBytesRead, data⟩
  else ⟨rtStatusOk, BitVec.ofInt 64 bytesRead, data⟩

section LinuxFileRead

variable {bytesRead : ℤ} {outBytesRead : Word} {data : List Byte}

theorem linuxFileRead_zero :
    linuxFileRead 0 outBytesRead data = ⟨rtStatusFileEof, outBytesRead, data⟩ := rfl

theorem linuxFileRead_neg (h : bytesRead < 0) :
    linuxFileRead bytesRead outBytesRead data = ⟨rtStatusFileIoError, outBytesRead, data⟩ := by
  rw [linuxFileRead, if_neg h.ne, if_pos h]

theorem linuxFileRead_pos (h : 0 < bytesRead) :
    linuxFileRead bytesRead outBytesRead data =
      ⟨rtStatusOk, BitVec.ofInt 64 bytesRead, data⟩ := by
  rw [linuxFileRead, if_neg h.ne', if_neg h.not_gt]

end LinuxFileRead

theorem yields_linuxRtFileRead (size outBytesRead : Word) (s : ReadStream) :
    Yields (linuxRtFileRead size outBytesRead) s fun out _ =>
      out = linuxFileRead (wrapped (s.results.headD 0)) outBytesRead
        (s.rest.take (s.results.headD 0).toNat) := by
  have hread : Yields (kernelRead size) s fun r _ =>
      r = (s.results.headD 0, s.rest.take (s.results.headD 0).toNat) := ⟨_, _, rfl, rfl⟩
  refine hread.bind fun r t hr => ?_
  subst hr
  rw [linuxFileRead, wrapped]
  dsimp only
  split
  · exact yields_pure rfl
  · split <;> exact yields_pure rfl

theorem yields_rtFileWriteOut (data : List Byte) (s : Stdio) :
    Yields (rtFileWriteOut data) s fun written t =>
      t = s.record (.write data (s.kernel s.log data)) ∧
        (0 ≤ wrapped (s.kernel s.log data) ∧
          written = .ok (BitVec.ofInt 64 (wrapped (s.kernel s.log data))) ∨
        wrapped (s.kernel s.log data) < 0 ∧
          ∃ status, status ≠ rtStatusOk ∧ written = .error status) := by
  rw [wrapped]
  have hwrite : Yields (sysWrite data) s fun status t =>
      status = (BitVec.ofInt 32 (s.kernel s.log data)).toInt ∧
        t = s.record (.write data (s.kernel s.log data)) := ⟨_, _, rfl, rfl, rfl⟩
  refine hwrite.bind fun status t h => ?_
  obtain ⟨rfl, hrecord⟩ := h
  by_cases hebadf : -(BitVec.ofInt 32 (s.kernel s.log data)).toInt = ebadf
  · rw [if_pos hebadf]
    rw [ebadf] at hebadf
    exact yields_pure ⟨hrecord, .inr ⟨by omega, rtErrorBadParam, by decide, rfl⟩⟩
  · rw [if_neg hebadf]
    by_cases heio : -(BitVec.ofInt 32 (s.kernel s.log data)).toInt = eio
    · rw [if_pos heio]
      rw [eio] at heio
      exact yields_pure ⟨hrecord, .inr ⟨by omega, rtStatusFileIoError, by decide, rfl⟩⟩
    · rw [if_neg heio]
      by_cases hneg : -(BitVec.ofInt 32 (s.kernel s.log data)).toInt > 0
      · rw [if_pos hneg]
        exact yields_pure ⟨hrecord, .inr ⟨by omega, rtStatusFileIoError, by decide, rfl⟩⟩
      · rw [if_neg hneg]
        exact yields_pure ⟨hrecord, .inl ⟨by omega, rfl⟩⟩

/-- What `fread` makes of the bytes that `_rt_file_read` reports. -/
theorem yields_fread_linux (size count : Word) (s : ReadStream) {Q : Word × List Byte → Prop}
    (hnone : wrapped (s.results.headD 0) ≤ 0 → Q (0, s.rest.take (s.results.headD 0).toNat))
    (hsome : 0 < wrapped (s.results.headD 0) → size ≠ 0 ∧
      Q (BitVec.ofInt 64 (wrapped (s.results.headD 0)) / size,
        s.rest.take (s.results.headD 0).toNat)) :
    Yields (fread linuxRtFileRead size count) s fun r _ => Q r := by
  refine Yields.get_bind (Yields.bind (R := fun _ t => t = s.record .lock) ⟨_, _, rfl, rfl⟩ ?_)
  rintro _ _ rfl
  refine (yields_linuxRtFileRead (size * count) s.garbage _).bind fun out t hout => ?_
  refine Yields.bind (R := fun _ _ => True) ⟨_, _, rfl, trivial⟩ fun _ u _ => ?_
  have hread : out = linuxFileRead (wrapped (s.results.headD 0)) s.garbage
      (s.rest.take (s.results.headD 0).toNat) := hout
  rw [hread]
  rcases lt_trichotomy (wrapped (s.results.headD 0)) 0 with hneg | hzero | hpos
  · rw [linuxFileRead_neg hneg]
    exact yields_pure (hnone hneg.le)
  · rw [hzero, linuxFileRead_zero]
    exact yields_pure (hnone hzero.le)
  · obtain ⟨hsize, hQ⟩ := hsome hpos
    rw [linuxFileRead_pos hpos, if_neg (not_not.mpr rfl), if_neg hsize]
    exact yields_pure hQ

/-- The state after a call that makes one write call. -/
def Stdio.afterWrite (s : Stdio) (data : List Byte) : Stdio :=
  ((s.record .lock).record
    (.write data (s.kernel (s.record .lock).log data))).record .unlock

theorem output_afterWrite (s : Stdio) (data : List Byte) :
    (s.afterWrite data).output =
      s.output ++ data.take (s.kernel (s.record .lock).log data).toNat := by
  rw [Stdio.afterWrite, output_record, output_record, output_record]
  simp only [StdioEvent.transferred, List.append_nil]

/-- What `fwrite` makes of the bytes that `_rt_file_write` reports, and where it stops. -/
theorem yields_fwrite (buf : ℕ → Byte) (size count : Word) (s : Stdio)
    {Q : Word → List Byte → Prop} (hresult : (ItemCall.fwrite s buf).result size count = result)
    (hfailed : wrapped result < 0 →
      Q 0 (s.output ++ (itemBytes buf size count).take result.toNat))
    (hwritten : 0 ≤ wrapped result → size ≠ 0 ∧
      Q (BitVec.ofInt 64 (wrapped result) / size)
        (s.output ++ (itemBytes buf size count).take result.toNat)) :
    Yields (fwrite buf size count) s fun r t => Q r t.output := by
  refine Yields.bind (R := fun _ t => t = s.record .lock) ⟨_, _, rfl, rfl⟩ ?_
  rintro _ _ rfl
  refine (yields_rtFileWriteOut (itemBytes buf size count) _).bind fun written t h => ?_
  obtain ⟨rfl, h⟩ := h
  refine Yields.bind (R := fun _ u => u = s.afterWrite (itemBytes buf size count))
    ⟨_, _, rfl, rfl⟩ ?_
  rintro _ _ rfl
  have hkernel : s.kernel (s.record .lock).log (itemBytes buf size count) = result := hresult
  have houtput := output_afterWrite s (itemBytes buf size count)
  rw [hkernel] at houtput
  obtain ⟨hpos, rfl⟩ | ⟨hneg, status, -, rfl⟩ := h
  · have hpos' : 0 ≤ wrapped result := hresult ▸ hpos
    obtain ⟨hsize, hQ⟩ := hwritten hpos'
    dsimp only
    rw [if_neg hsize]
    refine yields_pure ?_
    rw [houtput]
    exact hresult ▸ hQ
  · refine yields_pure ?_
    rw [houtput]
    exact hfailed (hresult ▸ hneg)

theorem stops_fwrite (buf : ℕ → Byte) (count : Word) (s : Stdio)
    (h : 0 ≤ wrapped ((ItemCall.fwrite s buf).result 0 count)) :
    Stops (fwrite buf 0 count) s .divisionByZero := by
  have hlock : Yields lock s fun _ t => t = s.record .lock := ⟨_, _, rfl, rfl⟩
  refine hlock.bind_stops ?_
  rintro _ _ rfl
  refine (yields_rtFileWriteOut (itemBytes buf 0 count) _).bind_stops fun written t hwritten => ?_
  have hunlock : Yields unlock t fun _ _ => True := ⟨_, _, rfl, trivial⟩
  refine hunlock.bind_stops fun _ u _ => ?_
  obtain ⟨-, ⟨-, rfl⟩ | ⟨hneg, -⟩⟩ := hwritten
  · exact stops_throw
  · exact absurd h (not_le.mpr hneg)

/-! ### The count in an `i32` -/

theorem exists_wrapped (result : ℤ) :
    ∃ k, result = wrapped result + 2 ^ 32 * k ∧ -2 ^ 31 ≤ wrapped result ∧
      wrapped result < 2 ^ 31 := by
  refine ⟨(result - wrapped result) / 2 ^ 32, ?_, ?_, ?_⟩
  all_goals
    rw [wrapped, BitVec.toInt_ofInt, Int.bmod_def]
    split <;> omega

theorem wrapped_eq (hge : -2 ^ 31 ≤ result) (hlt : result < 2 ^ 31) :
    wrapped result = result := by
  obtain ⟨k, hk⟩ := exists_wrapped result
  omega

theorem toNat_wrapped_le (result : ℤ) (h : 0 ≤ result) :
    (wrapped result).toNat ≤ result.toNat := by
  obtain ⟨k, hk⟩ := exists_wrapped result
  omega

theorem toNat_ofInt_wrapped_div (size : Word) (h : 0 ≤ wrapped result) :
    (BitVec.ofInt 64 (wrapped result) / size).toNat = (wrapped result).toNat / size.toNat := by
  obtain ⟨k, hk⟩ := exists_wrapped result
  have hbytes : (BitVec.ofInt 64 (wrapped result)).toNat = (wrapped result).toNat := by
    rw [BitVec.toNat_ofInt]
    omega
  rw [BitVec.toNat_udiv, hbytes]

theorem toNat_mul_le (size count : Word) :
    (size * count).toNat ≤ size.toNat * count.toNat := by
  rw [BitVec.toNat_mul]
  exact Nat.mod_le _ _

/-- A count that comes through is the right one, and only such a count is. -/
theorem lt_div_wrapped_iff {z : ℕ} (hz : 0 < z) (hpos : 0 ≤ result) :
    result.toNat < ((wrapped result).toNat / z + 1) * z ↔ result < 2 ^ 31 ∨ result < z := by
  obtain ⟨k, hk, hge, hlt⟩ := exists_wrapped result
  rw [Nat.succ_mul]
  constructor
  · intro hitems
    have hdiv := Nat.div_mul_le_self (wrapped result).toNat z
    by_cases hless : (wrapped result).toNat < z
    · rw [Nat.div_eq_of_lt hless] at hitems
      omega
    · omega
  · rintro (hsmall | hless)
    · have heq : wrapped result = result := wrapped_eq (by omega) hsmall
      rw [heq]
      exact Nat.lt_div_mul_add hz
    · omega

theorem toNat_pos (hsize : size ≠ 0) : 0 < size.toNat :=
  Nat.pos_of_ne_zero fun h => hsize (BitVec.eq_of_toNat_eq h)

theorem itemsCounted_iff (hsize : size ≠ 0) (hcall : CallResult (size * count) result)
    (hpos : 0 ≤ result) (hr : r.toNat = (wrapped result).toNat / size.toNat) :
    ItemsCounted size count result r ↔ CountPasses size result := by
  have hz := toNat_pos hsize
  have hle := toNat_wrapped_le result hpos
  rw [CountPasses, ← lt_div_wrapped_iff hz hpos]
  constructor
  · intro h
    rw [← hr]
    exact h.transferred_lt hz hpos
  · intro h
    refine ⟨?_, ?_, fun _ _ => by rwa [hr], fun hzero => ?_⟩
    · have hbytes : result.toNat ≤ size.toNat * count.toNat := by
        have hrequest := hcall.2
        have hmul := toNat_mul_le size count
        omega
      rw [hr]
      exact Nat.div_le_of_le_mul (hle.trans hbytes)
    · rw [hr]
      exact (Nat.div_mul_le_self _ _).trans hle
    · have hnone : (wrapped result).toNat = 0 := by omega
      rw [hnone, Nat.zero_div] at hr
      exact BitVec.eq_of_toNat_eq hr

/-- A call that fails has transferred no items. -/
theorem itemsCounted_failed (hneg : result < 0) : ItemsCounted size count result 0 where
  le_count := Nat.zero_le _
  le_transferred := by simp
  transferred_lt _ h := absurd h (not_le.mpr hneg)
  eq_zero _ := rfl

/-! ### Both functions -/

/-- A function that returns has one result. -/
theorem ItemCall.Returns.exists_items {Q : Word → Prop} (h : call.Returns size count Q) :
    ∃ r, Q r ∧ ∀ P, call.Returns size count P ↔ P r := by
  cases call with
  | fread s =>
      obtain ⟨r, t, hrun, hr⟩ := h
      exact ⟨r.1, hr, fun P => ⟨fun hP => hP.of_eq hrun, fun hP => ⟨r, t, hrun, hP⟩⟩⟩
  | fwrite s buf =>
      obtain ⟨r, t, hrun, hr⟩ := h
      exact ⟨r, hr, fun P => ⟨fun hP => hP.of_eq hrun, fun hP => ⟨r, t, hrun, hP⟩⟩⟩

theorem zero_toNat_eq_div {bytes : ℤ} (h : bytes ≤ 0) (size : Word) :
    (0 : Word).toNat = bytes.toNat / size.toNat := by
  rw [Int.toNat_of_nonpos h, Nat.zero_div]
  rfl

/-- With a size other than zero `fread` returns the bytes reported, divided by it. -/
theorem yields_fread_div (count : Word) (s : ReadStream) (hsize : size ≠ 0) :
    Yields (fread linuxRtFileRead size count) s fun r _ =>
      r.1.toNat = (wrapped (s.results.headD 0)).toNat / size.toNat ∧
        r.2 = s.rest.take (s.results.headD 0).toNat :=
  yields_fread_linux size count s (Q := fun r => r.1.toNat = _ ∧ r.2 = _)
    (fun hneg => ⟨zero_toNat_eq_div hneg size, rfl⟩)
    fun hpos => ⟨hsize, toNat_ofInt_wrapped_div size hpos.le, rfl⟩

theorem yields_fwrite_div (buf : ℕ → Byte) (count : Word) (s : Stdio) (hsize : size ≠ 0)
    (hresult : (ItemCall.fwrite s buf).result size count = result) :
    Yields (fwrite buf size count) s fun r t =>
      r.toNat = (wrapped result).toNat / size.toNat ∧
        t.output = s.output ++ (itemBytes buf size count).take result.toNat :=
  yields_fwrite buf size count s (Q := fun r out => r.toNat = _ ∧ out = _) hresult
    (fun hneg => ⟨zero_toNat_eq_div hneg.le size, rfl⟩)
    fun hpos => ⟨hsize, toNat_ofInt_wrapped_div size hpos, rfl⟩

theorem ItemCall.returns_div (call : ItemCall) (count : Word) (hsize : size ≠ 0) :
    call.Returns size count fun r =>
      r.toNat = (wrapped (call.result size count)).toNat / size.toNat := by
  cases call with
  | fread s => exact (yields_fread_div count s hsize).mono fun _ _ hr => hr.1
  | fwrite s buf => exact (yields_fwrite_div buf count s hsize rfl).mono fun _ _ hr => hr.1

theorem ItemCall.noDivision (call : ItemCall) (count : Word) (hsize : size ≠ 0) :
    call.NoDivision size count := by
  cases call with
  | fread s => trivial
  | fwrite s buf => exact fun h => absurd h hsize

/-- With a size of zero nothing is asked for. -/
theorem CallResult.le_zero {count : Word} (h : CallResult (0 * count) result) : result ≤ 0 := by
  have hle := h.2
  have hzero : 0 * count = 0 := BitVec.zero_mul
  rw [hzero] at hle
  exact hle

theorem CallResult.wrapped_eq {request : Word} (h : CallResult request result)
    (hlt : result < 2 ^ 31) : wrapped result = result :=
  StdlibFile.wrapped_eq (le_trans (by decide) h.1) hlt

theorem itemsCounted_zero : ItemsCounted 0 count result 0 where
  le_count := Nat.zero_le _
  le_transferred := Nat.zero_le _
  transferred_lt hsize := absurd hsize (Nat.lt_irrefl 0)
  eq_zero _ := rfl

theorem countsItems_fread_zero (s : ReadStream) (count : Word)
    (h : CallResult (0 * count) ((ItemCall.fread s).result 0 count)) :
    (ItemCall.fread s).CountsItems 0 count := by
  have hle : s.results.headD 0 ≤ 0 := h.le_zero
  have hwrapped := h.wrapped_eq (lt_of_le_of_lt hle (by decide))
  refine yields_fread_linux 0 count s (Q := fun r => ItemsCounted 0 count _ r.1) ?_ ?_
  · exact fun _ => itemsCounted_zero
  · intro hpos
    exact absurd (hwrapped ▸ hle) (not_le.mpr hpos)

theorem countsItems_fwrite_zero (s : Stdio) (buf : ℕ → Byte) (count : Word)
    (h : CallResult (0 * count) ((ItemCall.fwrite s buf).result 0 count)) :
    (ItemCall.fwrite s buf).CountsItems 0 count ↔
      (ItemCall.fwrite s buf).result 0 count < 0 := by
  have hle := h.le_zero
  have hwrapped := h.wrapped_eq (lt_of_le_of_lt hle (by decide))
  constructor
  · rintro ⟨r, t, hrun, -⟩
    by_contra hpos
    refine (stops_fwrite buf count s ?_).ne_ok r t hrun
    rw [hwrapped]
    exact not_lt.mp hpos
  · intro hneg
    refine yields_fwrite buf 0 count s (Q := fun r _ => ItemsCounted 0 count _ r) rfl ?_ ?_
    · exact fun _ => itemsCounted_zero
    · intro hpos
      rw [hwrapped] at hpos
      exact absurd hneg (not_lt.mpr hpos)

/-! ### Main result -/

/-- The functions count the items transferred, except those that a cut count hides, and
except that `fwrite` divides by a size of zero. -/
theorem ItemCall.countsItems_iff (call : ItemCall) (size count : Word)
    (h : CallResult (size * count) (call.result size count)) :
    call.CountsItems size count ↔
      CountPasses size (call.result size count) ∧ call.NoDivision size count := by
  by_cases hsize : size = 0
  · subst hsize
    have hpasses : CountPasses 0 (call.result 0 count) :=
      .inl (lt_of_le_of_lt h.le_zero (by decide))
    cases call with
    | fread s => exact ⟨fun _ => ⟨hpasses, trivial⟩, fun _ => countsItems_fread_zero s count h⟩
    | fwrite s buf =>
        rw [countsItems_fwrite_zero s buf count h]
        exact ⟨fun hneg => ⟨hpasses, fun _ => hneg⟩, fun hcond => hcond.2 rfl⟩
  · obtain ⟨r, hr, hreturns⟩ := (call.returns_div count hsize).exists_items
    have hiff : ItemsCounted size count (call.result size count) r ↔
        CountPasses size (call.result size count) := by
      by_cases hneg : call.result size count < 0
      · have hlt : call.result size count < 2 ^ 31 := hneg.trans (by decide)
        have hzero : r = 0 := by
          rw [h.wrapped_eq hlt, Int.toNat_of_nonpos hneg.le, Nat.zero_div] at hr
          exact BitVec.eq_of_toNat_eq hr
        rw [hzero]
        exact ⟨fun _ => .inl hlt, fun _ => itemsCounted_failed hneg⟩
      · exact itemsCounted_iff hsize h (not_lt.mp hneg) hr
    rw [CountsItems, hreturns, hiff]
    exact ⟨fun hpasses => ⟨hpasses, call.noDivision count hsize⟩, And.left⟩

/-- Five bytes that arrive when three items of two bytes are read. -/
theorem ItemCall.countsItems_twoByteItems :
    (ItemCall.fread ⟨[1, 2, 3, 4, 5], [5], 0, []⟩).CountsItems 2 3 := by
  refine (ItemCall.countsItems_iff _ 2 3 ?_).mpr ⟨.inl ?_, trivial⟩
  · exact ⟨by decide, by decide⟩
  · decide

/-- `fwrite` of items of no bytes. -/
theorem ItemCall.countsItems_fails :
    CallResult (0 * 7)
        ((ItemCall.fwrite ⟨fun _ _ => 0, fun _ => 0, [], []⟩ fun _ => 65).result 0 7) ∧
      ¬ (ItemCall.fwrite ⟨fun _ _ => 0, fun _ => 0, [], []⟩ fun _ => 65).CountsItems 0 7 := by
  refine ⟨⟨by decide, by decide⟩, ?_⟩
  rintro ⟨r, t, hrun, -⟩
  cases hrun

end Ciabatta.StdlibFile
