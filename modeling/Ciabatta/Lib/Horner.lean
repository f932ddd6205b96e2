import Mathlib.Data.List.Induction
import Mathlib.Data.Nat.Digits.Defs
import Mathlib.Tactic.Ring

/-!
Numbers and their digits. A loop takes the digits with the highest first, `Nat.ofDigits`
with the lowest first.
-/

namespace Horner

variable {α β : Type*} [CommRing α]

/-- A loop that goes by digits which are off by `k` where `y` is not 0. -/
theorem foldl_sub (b k : α) (x y : β → ℕ) (l : List β) :
    l.foldl (fun v c => v * b + (x c - k * y c)) 0 =
      Nat.ofDigits b (l.reverse.map x) - k * Nat.ofDigits b (l.reverse.map y) := by
  induction l using List.reverseRecOn with
  | nil => simp [Nat.ofDigits]
  | append_singleton l c ih =>
      rw [List.foldl_append, List.foldl_cons, List.foldl_nil, ih, List.reverse_append,
        List.reverse_singleton, List.singleton_append, List.map_cons, List.map_cons]
      simp only [Nat.ofDigits]
      ring

/-- The digits of a number, as it is divided again and again. -/
theorem ofDigits_range (b n k : ℕ) :
    Nat.ofDigits b ((List.range k).map fun i => n / b ^ i % b) = n % b ^ k := by
  induction k with
  | zero => simp [Nat.mod_one]
  | succ k ih =>
      calc Nat.ofDigits b ((List.range (k + 1)).map fun i => n / b ^ i % b)
          = n % b ^ k + b ^ k * (n / b ^ k % b) := by
            rw [List.range_succ, List.map_append, Nat.ofDigits_append, ih]
            simp
        _ = n % b ^ (k + 1) := Nat.mod_pow_succ.symm

theorem ofDigits_eq_zero_iff {b : ℕ} {l : List ℕ} (hb : b ≠ 0) :
    Nat.ofDigits b l = 0 ↔ ∀ x ∈ l, x = 0 := by
  refine ⟨fun h x hx => Nat.digits_zero_of_eq_zero hb h x hx, fun h => ?_⟩
  rw [List.eq_replicate_of_mem h]
  exact Nat.ofDigits_replicate_zero

/-- Digits 0 and 1 alone make less than `1 / (b - 1)` of what the length allows. -/
theorem mul_ofDigits_lt {b : ℕ} {l : List ℕ} (hb : 1 < b) (hl : ∀ x ∈ l, x ≤ 1) :
    (b - 1) * Nat.ofDigits b l < b ^ l.length := by
  have hdigits : ∀ x ∈ l.map ((b - 1) * ·), x < b := by
    intro x hx
    obtain ⟨y, hy, rfl⟩ := List.mem_map.mp hx
    calc (b - 1) * y ≤ (b - 1) * 1 := Nat.mul_le_mul_left _ (hl y hy)
      _ < b := by omega
  have hlt := Nat.ofDigits_lt_base_pow_length hb hdigits
  rwa [List.length_map, ← Nat.mul_ofDigits] at hlt

/-- Whether a number of digits 0 and 1 is divisible shows in its last digits. -/
theorem dvd_ofDigits_iff {b d k : ℕ} {l : List ℕ} (hb : 1 < b) (hl : ∀ x ∈ l, x ≤ 1)
    (hd : d ∣ b ^ k) (hk : b ^ k ≤ (b - 1) * d) :
    d ∣ Nat.ofDigits b l ↔ ∀ x ∈ l.take k, x = 0 := by
  have hone : ∀ x ∈ l.take k, x ≤ 1 := fun x hx => hl x (List.mem_of_mem_take hx)
  have hlt : Nat.ofDigits b (l.take k) < d := by
    refine Nat.lt_of_mul_lt_mul_left (a := b - 1) ((mul_ofDigits_lt hb hone).trans_le ?_)
    exact (Nat.pow_le_pow_right (by omega) (List.length_take_le k l)).trans hk
  have hbase : ∀ x ∈ l, x < b := fun x hx => (hl x hx).trans_lt hb
  rw [← (Nat.dvd_mod_iff hd), Nat.ofDigits_mod_pow_eq_ofDigits_take k (by omega) l hbase,
    ← ofDigits_eq_zero_iff (b := b) (by omega)]
  refine ⟨fun h => Nat.eq_zero_of_dvd_of_lt h hlt, fun h => ?_⟩
  rw [h]
  exact Nat.dvd_zero d

end Horner
