import Ciabatta.Lib.CString
import Mathlib.Algebra.Order.Ring.Nat
import Mathlib.Tactic.Ring

/-!
`elf_sym_gnu_hash` (`loader.c`). Each byte goes through a variable of type `char`,
so that those from 128 on count as negative numbers.
-/

namespace Ciabatta.Loader

open ByteMemory Exec

variable {κ : Type}

/-- A round on `i` and `h`. -/
def elfSymGnuHashRound (s : Word) : ℕ × BitVec 32 → Exec κ ((ℕ × BitVec 32) ⊕ BitVec 32)
  | (i, h) => do
      let b ← loadByte (s + BitVec.ofNat 64 i)
      if b ≠ 0 then do
        let c ← loadByte (s + BitVec.ofNat 64 i)
        let h := ((h <<< 5) + h) + c.signExtend 32
        let i ← incrementInt i
        return .inl (i, h)
      else
        return .inr h

/-- The counter allows no more than `2 ^ 31` rounds. -/
def elfSymGnuHash (name : Word) : Exec κ (BitVec 32) :=
  loop (elfSymGnuHashRound name) (2 ^ 31) (0, 5381)

/-- The hash in a `.gnu.hash` section. -/
def gnuHash (bytes : List Byte) : BitVec 32 :=
  bytes.foldl (fun h b => h * 33 + b.setWidth 32) 5381

/-- The hash that the code computes. -/
def signedHash (bytes : List Byte) : BitVec 32 :=
  bytes.foldl (fun h b => h * 33 + b.signExtend 32) 5381

/-- For each byte from 128 on, 33 to the power of the number of bytes behind it. -/
def highWeight : List Byte → ℕ
  | [] => 0
  | b :: bytes => (if b.msb then 33 ^ bytes.length else 0) + highWeight bytes

variable {name : Word} {bytes : List Byte} {s : Machine κ}

/-! ### The loop -/

theorem shift_add (h : BitVec 32) : (h <<< 5) + h = h * 33 := by
  rw [BitVec.shiftLeft_eq_mul_twoPow, show (33 : BitVec 32) = BitVec.twoPow 32 5 + 1 from rfl,
    mul_add, mul_one]

/-- The code returns if and only if an `int` can count the bytes, and returns the signed
hash. -/
theorem elfSymGnuHash_yields_iff (hname : StringAt s.mem name bytes) (h : BitVec 32) :
    Yields (elfSymGnuHash name) s (fun r _ => r = h) ↔
      bytes.length < 2 ^ 31 ∧ signedHash bytes = h := by
  refine hname.yields_fold_iff (fun i a => ?_) (· = h)
  rw [elfSymGnuHashRound]
  simp only [shift_add]

/-! ### The two hashes -/

/-- A byte as a signed number is 256 less, if it is not below 128. -/
theorem setWidth_eq_signExtend_add (b : Byte) :
    b.setWidth 32 = b.signExtend 32 + if b.msb then 256 else 0 := by
  revert b
  decide

/-- The hash of the same bytes from a start that is `256 * e` higher. -/
theorem foldl_setWidth_eq (bytes : List Byte) (h e : BitVec 32) :
    bytes.foldl (fun h b => h * 33 + b.setWidth 32) (h + 256 * e)
      = bytes.foldl (fun h b => h * 33 + b.signExtend 32) h
        + 256 * (e * 33 ^ bytes.length + (highWeight bytes : BitVec 32)) := by
  induction bytes generalizing h e with
  | nil => simp [highWeight]
  | cons b bytes ih =>
      -- the start for the bytes behind the first
      have hstart : (h + 256 * e) * 33 + b.setWidth 32
          = h * 33 + b.signExtend 32 + 256 * (e * 33 + if b.msb then 1 else 0) := by
        rw [setWidth_eq_signExtend_add]
        split <;> ring
      have hweight : ((if b.msb then 33 ^ bytes.length else 0 : ℕ) : BitVec 32)
          = (if b.msb then 1 else 0) * 33 ^ bytes.length := by
        split <;> simp
      rw [List.foldl_cons, List.foldl_cons, hstart, ih, highWeight, Nat.cast_add, hweight,
        List.length_cons]
      ring

theorem gnuHash_eq (bytes : List Byte) :
    gnuHash bytes = signedHash bytes + 256 * (highWeight bytes : BitVec 32) := by
  have hstart := foldl_setWidth_eq bytes 5381 0
  rw [mul_zero, add_zero, zero_mul, zero_add] at hstart
  exact hstart

/-- Both hashes are the same if and only if `2 ^ 24` divides the weight of the bytes from
128 on. -/
theorem signedHash_eq_gnuHash_iff (bytes : List Byte) :
    signedHash bytes = gnuHash bytes ↔ 2 ^ 24 ∣ highWeight bytes := by
  have hcast : (256 * (highWeight bytes : BitVec 32)).toNat = 256 * highWeight bytes % 2 ^ 32 := by
    rw [BitVec.toNat_mul, BitVec.natCast_eq_ofNat, BitVec.toNat_ofNat,
      show (256 : BitVec 32).toNat = 256 from rfl]
    omega
  rw [gnuHash_eq, left_eq_add, ← BitVec.toNat_inj, hcast, show (0 : BitVec 32).toNat = 0 from rfl]
  omega

/-! ### Main result -/

/-- The code computes the GNU hash of a name if and only if an `int` can count the bytes and
`2 ^ 24` divides the weight of those from 128 on. -/
theorem elfSymGnuHash_iff (hname : StringAt s.mem name bytes) :
    Yields (elfSymGnuHash name) s (fun h _ => h = gnuHash bytes) ↔
      bytes.length < 2 ^ 31 ∧ 2 ^ 24 ∣ highWeight bytes := by
  rw [elfSymGnuHash_yields_iff hname, signedHash_eq_gnuHash_iff]

theorem elfSymGnuHash_exit : Yields (elfSymGnuHash 4096)
    (⟨ofString 4096 [101, 120, 105, 116], []⟩ : Machine Empty)
    fun h _ => h = gnuHash [101, 120, 105, 116] := by
  have hname : StringAt (ofString 4096 [101, 120, 105, 116]) 4096 [101, 120, 105, 116] :=
    stringAt_ofString (by decide) (by decide)
  exact (elfSymGnuHash_iff (s := ⟨_, []⟩) hname).mpr ⟨by decide, by decide⟩

/-- The name "é" in UTF-8. -/
theorem elfSymGnuHash_fails : ¬ ∀ (name : Word) (bytes : List Byte) (s : Machine Empty),
    StringAt s.mem name bytes → Yields (elfSymGnuHash name) s fun h _ => h = gnuHash bytes := by
  intro h
  have hname : StringAt (ofString 4096 [0xc3, 0xa9]) 4096 [0xc3, 0xa9] :=
    stringAt_ofString (by decide) (by decide)
  have hhash := (elfSymGnuHash_yields_iff (s := ⟨_, []⟩) hname _).mp
    (h 4096 [0xc3, 0xa9] ⟨_, []⟩ hname)
  exact absurd hhash.2 (by decide)

end Ciabatta.Loader
