import Ciabatta.Lib.Exec
import Mathlib.Data.Int.GCD

/-!
Loops that step through a table. The offset goes up by the same stride in each
round, and wraps; the loop ends once it is not below the size. The offsets that
it comes to are the multiples of the greatest common divisor of the stride and
the number of words, so the last of them decides whether the loop ends.
-/

namespace Exec

variable {σ α : Type} {w : ℕ}

/-- With enough fuel the program returns, or exits. -/
def Ends (x : ℕ → EStateM Stop σ α) (s : σ) : Prop :=
  ∃ fuel, (∃ a t, x fuel s = .ok a t) ∨ ∃ code, Stops (x fuel) s (.exit code)

/-- From `offs` on the stride comes to an offset that is not below the size. -/
inductive Passes (size stride : BitVec w) : BitVec w → Prop
  | now {offs : BitVec w} (h : ¬ offs < size) : Passes size stride offs
  | next {offs : BitVec w} (hrest : Passes size stride (offs + stride)) :
      Passes size stride offs

/-- The last multiple of the greatest common divisor is not below the size. -/
def Clears (stride size : BitVec w) : Prop :=
  size.toNat + Nat.gcd stride.toNat (2 ^ w) ≤ 2 ^ w

instance (stride size : BitVec w) : Decidable (Clears stride size) :=
  inferInstanceAs (Decidable (_ ≤ _))

/-- A round steps on while the offset is below the size, and keeps `I`. -/
structure StepsThrough (I : BitVec w → σ → Prop)
    (round : BitVec w → EStateM Stop σ (BitVec w ⊕ α)) (size stride : BitVec w) : Prop where
  next : ∀ offs s, I offs s → offs < size → Yields (round offs) s fun r t =>
    r = .inl (offs + stride) ∧ I (offs + stride) t
  last : ∀ offs s, ¬ offs < size → Yields (round offs) s fun r _ => ∃ a, r = .inr a

variable {I : BitVec w → σ → Prop} {s : σ} {size stride offs : BitVec w}
  {round : BitVec w → EStateM Stop σ (BitVec w ⊕ α)}

/-! ### The offsets -/

theorem exists_le_mul_mod_iff {a n size : ℕ} (hn : 0 < n) :
    (∃ k, size ≤ a * k % n) ↔ size + Nat.gcd a n ≤ n := by
  have hdvd : Nat.gcd a n ∣ n := Nat.gcd_dvd_right a n
  constructor
  · rintro ⟨k, hk⟩
    have hlt : a * k % n < n := Nat.mod_lt _ hn
    have hmultiple : Nat.gcd a n ∣ a * k % n :=
      (Nat.dvd_mod_iff hdvd).mpr ((Nat.gcd_dvd_left a n).mul_right k)
    have hle : Nat.gcd a n ≤ n - a * k % n :=
      Nat.le_of_dvd (Nat.sub_pos_of_lt hlt) (Nat.dvd_sub hdvd hmultiple)
    omega
  · intro hsize
    rcases (Nat.le_of_dvd hn hdvd).lt_or_eq with hlt | heq
    · -- one stride less than none brings the offset to the last multiple
      obtain ⟨k, -, hk⟩ := Nat.exists_mul_mod_eq_gcd hlt
      obtain ⟨q, hq⟩ := hdvd
      have hlast : Nat.gcd a n * (q - 1) = n - Nat.gcd a n := by
        rw [Nat.mul_sub_one, ← hq]
      have hpos : 0 < Nat.gcd a n := Nat.gcd_pos_of_pos_right a hn
      refine ⟨k * (q - 1), ?_⟩
      rw [← Nat.mul_assoc, Nat.mul_mod, hk, Nat.mul_mod_mod, hlast, Nat.mod_eq_of_lt (by omega)]
      omega
    · exact ⟨0, by omega⟩

theorem add_stride_add (offs stride : BitVec w) (k : ℕ) :
    offs + stride + BitVec.ofNat w k * stride = offs + BitVec.ofNat w (k + 1) * stride := by
  rw [BitVec.ofNat_add, BitVec.add_mul, BitVec.one_mul, BitVec.add_assoc, BitVec.add_comm stride]

theorem passes_iff : Passes size stride offs ↔
    ∃ k : ℕ, ¬ offs + BitVec.ofNat w k * stride < size := by
  constructor
  · intro h
    induction h with
    | now h => exact ⟨0, by simpa using h⟩
    | next _ ih =>
        obtain ⟨k, hk⟩ := ih
        rw [add_stride_add] at hk
        exact ⟨k + 1, hk⟩
  · rintro ⟨k, hk⟩
    induction k generalizing offs with
    | zero => exact .now (by simpa using hk)
    | succ k ih =>
        rw [← add_stride_add] at hk
        exact .next (ih hk)

theorem passes_zero_iff : Passes size stride 0 ↔ Clears stride size := by
  rw [passes_iff, Clears, ← exists_le_mul_mod_iff (Nat.two_pow_pos w)]
  apply exists_congr
  intro k
  rw [show (0 : BitVec w) + BitVec.ofNat w k * stride = BitVec.ofNat w k * stride from
    BitVec.zero_add _, BitVec.lt_def, Nat.not_lt, BitVec.toNat_mul, BitVec.toNat_ofNat,
    Nat.mod_mul_mod, Nat.mul_comm]

/-! ### The loops -/

theorem StepsThrough.passes_of_loop (h : StepsThrough I round size stride) (hI : I offs s)
    {fuel : ℕ} (hloop : (∃ a t, loop round fuel offs s = .ok a t) ∨
      ∃ code, Stops (loop round fuel offs) s (.exit code)) : Passes size stride offs := by
  induction fuel generalizing offs s with
  | zero =>
      rcases hloop with ⟨_, _, hrun⟩ | ⟨_, _, hrun⟩
      · cases hrun
      · cases hrun
  | succ fuel ih =>
      by_cases hlt : offs < size
      · obtain ⟨_, t, hround, rfl, ht⟩ := h.next offs s hI hlt
        refine .next (ih ht ?_)
        simp only [Stops, loop, bind_of_ok hround] at hloop
        exact hloop
      · exact .now hlt

theorem StepsThrough.returns_of_passes (h : StepsThrough I round size stride)
    (hpasses : Passes size stride offs) (hI : I offs s) :
    ∃ fuel a t, loop round fuel offs s = .ok a t := by
  have hlast (offs : BitVec w) (s : σ) (hend : ¬ offs < size) :
      ∃ fuel a t, loop round fuel offs s = .ok a t := by
    obtain ⟨_, t, hround, a, rfl⟩ := h.last offs s hend
    exact ⟨1, a, t, bind_of_ok hround⟩
  induction hpasses generalizing s with
  | now hend => exact hlast _ s hend
  | @next offs _ ih =>
      by_cases hlt : offs < size
      · obtain ⟨_, u, hround, rfl, hu⟩ := h.next offs s hI hlt
        obtain ⟨fuel, a, t, hrun⟩ := ih hu
        exact ⟨fuel + 1, a, t, (bind_of_ok hround).trans hrun⟩
      · exact hlast offs s hlt

/-- A loop through a table ends if and only if its stride clears the size. -/
theorem StepsThrough.ends_iff (h : StepsThrough I round size stride) (hI : I 0 s) :
    Ends (fun fuel => loop round fuel 0) s ↔ Clears stride size := by
  rw [← passes_zero_iff]
  constructor
  · rintro ⟨fuel, hloop⟩
    exact h.passes_of_loop hI hloop
  · intro hpasses
    obtain ⟨fuel, hrun⟩ := h.returns_of_passes hpasses hI
    exact ⟨fuel, .inl hrun⟩

end Exec
