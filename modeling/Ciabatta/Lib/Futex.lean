import Mathlib.Data.Finset.Card

/-!
The futex calls, on one word and the set of threads asleep on it. The check
of `FUTEX_WAIT` against its compare value and the falling asleep are one
atomic step; `FUTEX_WAKE` wakes at most the number of sleepers it is given,
and only leaves a sleeper behind when that number is used up.
-/

namespace Futex

variable {ι : Type*}

/-- What `FUTEX_WAIT` does with the calling thread: it sleeps exactly when the
word still equals the compare value, and returns `EAGAIN` otherwise. -/
def waitSleeps {w : ℕ} (word compareWith : BitVec w) : Bool :=
  word == compareWith

@[simp] theorem waitSleeps_eq_true {w : ℕ} {word compareWith : BitVec w} :
    waitSleeps word compareWith = true ↔ word = compareWith := by
  simp [waitSleeps]

/-- `FUTEX_WAKE` with count `n` wakes the threads `woken` of those `asleep`. -/
structure Wakes (n : ℕ) (asleep : ι → Prop) (woken : Finset ι) : Prop where
  asleep_of_mem : ∀ i ∈ woken, asleep i
  card_le : woken.card ≤ n
  all_of_lt : woken.card < n → ∀ i, asleep i → i ∈ woken

theorem Wakes.eq_empty {asleep : ι → Prop} {woken : Finset ι}
    (h : Wakes 0 asleep woken) : woken = ∅ :=
  Finset.card_eq_zero.mp (Nat.le_zero.mp h.card_le)

/-- Waking one of the sleepers leaves none unnoticed: somebody was woken, or
nobody was asleep. -/
theorem Wakes.exists_mem {asleep : ι → Prop} {woken : Finset ι} {i : ι}
    (h : Wakes 1 asleep woken) (hi : asleep i) : ∃ j, j ∈ woken := by
  by_cases hempty : woken.card < 1
  · exact ⟨i, h.all_of_lt hempty i hi⟩
  · exact Finset.card_pos.mp (by omega)

theorem wakes_zero (asleep : ι → Prop) : Wakes 0 asleep ∅ :=
  ⟨by simp, by simp, by simp⟩

theorem wakes_one {asleep : ι → Prop} {i : ι} (hi : asleep i) :
    Wakes 1 asleep {i} :=
  ⟨by simpa using hi, by simp, by simp⟩

theorem wakes_none {asleep : ι → Prop} (n : ℕ) (h : ∀ i, ¬ asleep i) :
    Wakes n asleep ∅ :=
  ⟨by simp, by simp, fun _ i hi => absurd hi (h i)⟩

end Futex
