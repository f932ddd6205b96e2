import Ciabatta.StdlibFile.Transfers

/-!
Short transfers. `fread` and `fwrite` make one call and take what it transfers for all
there is, so that they are complete only where the kernel does not split the transfer.
-/

namespace Ciabatta.StdlibFile

open ByteMemory Exec

variable {size count : Word} {result : ℤ} {call : ItemCall}

/-- How many bytes the function can transfer before it comes to the end of the file. -/
def ItemCall.available (size count : Word) : ItemCall → ℕ
  | .fread s => min (size.toNat * count.toNat) s.rest.length
  | .fwrite _ _ => size.toNat * count.toNat

/-- The first part into which the kernel splits the transfer. -/
structure ItemCall.PartialCount (size count : Word) (call : ItemCall) : Prop where
  nonneg : 0 ≤ call.result size count
  le_available : call.result size count ≤ call.available size count
  eq_zero : call.result size count = 0 → call.available size count = 0

/-- The function moves all the bytes and returns the number of their items. -/
def ItemCall.LosesNothing (size count : Word) : ItemCall → Prop
  | .fread s => Yields (StdlibFile.fread linuxRtFileRead size count) s fun r _ =>
      r.2 = s.rest.take (size.toNat * count.toNat) ∧
        r.1.toNat = min (size.toNat * count.toNat) s.rest.length / size.toNat
  | .fwrite s buf => Yields (StdlibFile.fwrite buf size count) s fun r t =>
      t.output = s.output ++ (List.range (size.toNat * count.toNat)).map buf ∧ r = count

/-! ### The two functions -/

theorem div_wrapped_eq_iff {z : ℕ} (hz : 0 < z) (hpos : 0 ≤ result) :
    (wrapped result).toNat / z = result.toNat / z ↔ result < 2 ^ 31 ∨ result < z := by
  rw [← lt_div_wrapped_iff hz hpos, ← Nat.div_lt_iff_lt_mul hz]
  have hle : (wrapped result).toNat / z ≤ result.toNat / z :=
    Nat.div_le_div_right (toNat_wrapped_le result hpos)
  omega

theorem losesNothing_fread_iff (s : ReadStream) (hsize : size ≠ 0)
    (hcount : (ItemCall.fread s).PartialCount size count) :
    (ItemCall.fread s).LosesNothing size count ↔
      (ItemCall.fread s).result size count = (ItemCall.fread s).available size count ∧
        CountPasses size ((ItemCall.fread s).result size count) := by
  obtain ⟨hpos, hle, -⟩ := hcount
  obtain ⟨r, t, hrun, hr, hdata⟩ := yields_fread_div count s hsize
  have hz := toNat_pos hsize
  rw [ItemCall.result] at hpos hle ⊢
  rw [ItemCall.available] at hle ⊢
  rw [CountPasses, ← div_wrapped_eq_iff hz hpos]
  constructor
  · intro h
    obtain ⟨hall, hitems⟩ := h.of_eq hrun
    rw [hdata] at hall
    have hlength := congrArg List.length hall
    rw [List.length_take, List.length_take] at hlength
    have heq : s.results.headD 0 = ↑(min (size.toNat * count.toNat) s.rest.length) := by omega
    rw [← hr, hitems, heq, Int.toNat_natCast]
    exact ⟨rfl, rfl⟩
  · rintro ⟨heq, hitems⟩
    refine ⟨r, t, hrun, ?_, ?_⟩
    · rw [hdata, heq, Int.toNat_natCast, ← List.take_eq_take_min]
    · rw [hr, hitems, heq, Int.toNat_natCast]

theorem losesNothing_fwrite_iff (s : Stdio) (buf : ℕ → Byte) (hsize : size ≠ 0)
    (hproduct : size.toNat * count.toNat < 2 ^ 64)
    (hcount : (ItemCall.fwrite s buf).PartialCount size count) :
    (ItemCall.fwrite s buf).LosesNothing size count ↔
      (ItemCall.fwrite s buf).result size count = (ItemCall.fwrite s buf).available size count ∧
        CountPasses size ((ItemCall.fwrite s buf).result size count) := by
  obtain ⟨hpos, hle, -⟩ := hcount
  obtain ⟨r, t, hrun, hr, hout⟩ := yields_fwrite_div buf count s hsize rfl
  have hz := toNat_pos hsize
  rw [ItemCall.available] at hle ⊢
  rw [CountPasses, ← div_wrapped_eq_iff hz hpos]
  have hbytes : itemBytes buf size count =
      (List.range (size.toNat * count.toNat)).map buf := by
    rw [itemBytes, BitVec.toNat_mul, Nat.mod_eq_of_lt hproduct]
  rw [hbytes] at hout
  constructor
  · intro h
    obtain ⟨hall, rfl⟩ := h.of_eq hrun
    have hlength := congrArg List.length (List.append_cancel_left (hout.symm.trans hall))
    rw [List.length_take, List.length_map, List.length_range] at hlength
    have heq : (ItemCall.fwrite s buf).result size r = ↑(size.toNat * r.toNat) := by omega
    rw [← hr, heq, Int.toNat_natCast, Nat.mul_div_cancel_left _ hz]
    exact ⟨rfl, rfl⟩
  · rintro ⟨heq, hitems⟩
    refine ⟨r, t, hrun, ?_, ?_⟩
    · rw [hout, heq, Int.toNat_natCast, List.take_of_length_le (by simp)]
    · apply BitVec.eq_of_toNat_eq
      rw [hr, hitems, heq, Int.toNat_natCast, Nat.mul_div_cancel_left _ hz]

/-! ### Main result -/

/-- Nothing is lost if and only if the first call of the system transfers all there is, and
their number comes through. -/
theorem ItemCall.losesNothing_iff (call : ItemCall) (hsize : size ≠ 0)
    (hproduct : size.toNat * count.toNat < 2 ^ 64) (hcount : call.PartialCount size count) :
    call.LosesNothing size count ↔
      call.result size count = call.available size count ∧
        CountPasses size (call.result size count) := by
  cases call with
  | fread s => exact losesNothing_fread_iff s hsize hcount
  | fwrite s buf => exact losesNothing_fwrite_iff s buf hsize hproduct hcount

/-- A pipe that takes all four bytes at once. -/
theorem ItemCall.losesNothing_atOnce :
    (ItemCall.fwrite ⟨fun _ _ => 4, fun _ => 0, [], []⟩ fun _ => 65).LosesNothing 2 2 := by
  refine (ItemCall.losesNothing_iff _ (by decide) (by decide) ?_).mpr ⟨by decide, .inl (by decide)⟩
  exact ⟨by decide, by decide, by decide⟩

/-- A pipe that takes three bytes of four. -/
theorem ItemCall.losesNothing_fails :
    (ItemCall.fwrite ⟨fun _ _ => 3, fun _ => 0, [], []⟩ fun _ => 65).PartialCount 2 2 ∧
      ¬ (ItemCall.fwrite ⟨fun _ _ => 3, fun _ => 0, [], []⟩ fun _ => 65).LosesNothing 2 2 := by
  refine ⟨⟨by decide, by decide, by decide⟩, ?_⟩
  rintro ⟨r, t, hrun, -, hcount⟩
  cases hrun
  revert hcount
  decide

end Ciabatta.StdlibFile
