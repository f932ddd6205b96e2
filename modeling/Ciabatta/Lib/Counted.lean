import Ciabatta.Lib.Exec

/-!
Loops that count. The counter goes up by one in each round until the test of the
loop fails, or until the next number does not fit into its type.
-/

namespace Exec

variable {σ α β : Type}

/-- `n + 1` on an `i64` that counts up from zero. -/
def incrementLong (n : ℕ) : EStateM Stop σ ℕ :=
  if n + 1 < 2 ^ 63 then pure (n + 1) else throw .signedOverflow

theorem incrementInt_of_lt {n : ℕ} (h : n + 1 < 2 ^ 31) :
    (incrementInt n : EStateM Stop σ ℕ) = pure (n + 1) :=
  if_pos h

theorem incrementInt_of_not_lt {n : ℕ} (h : ¬ n + 1 < 2 ^ 31) :
    (incrementInt n : EStateM Stop σ ℕ) = throw .signedOverflow :=
  if_neg h

theorem incrementLong_of_lt {n : ℕ} (h : n + 1 < 2 ^ 63) :
    (incrementLong n : EStateM Stop σ ℕ) = pure (n + 1) :=
  if_pos h

theorem incrementLong_of_not_lt {n : ℕ} (h : ¬ n + 1 < 2 ^ 63) :
    (incrementLong n : EStateM Stop σ ℕ) = throw .signedOverflow :=
  if_neg h

/-- A loop whose test fails first at `n`. `I i` says what holds with the counter at `i`: in
front of `n` a round goes on with the next number, if this is below the limit of the
counter. -/
structure Counts (limit n : ℕ) (I : ℕ → β → σ → Prop) (Q : α → σ → Prop)
    (round : β → EStateM Stop σ (β ⊕ α)) : Prop where
  next : ∀ i b s, I i b s → i < n → i + 1 < limit → Yields (round b) s fun r t =>
    ∃ c, r = .inl c ∧ I (i + 1) c t
  overflow : ∀ i b s, I i b s → i < n → ¬ i + 1 < limit → Stops (round b) s .signedOverflow
  last : ∀ b s, I n b s → Yields (round b) s fun r t => ∃ a, r = .inr a ∧ Q a t

variable {limit n fuel i : ℕ} {I : ℕ → β → σ → Prop} {Q : α → σ → Prop}
  {round : β → EStateM Stop σ (β ⊕ α)} {b : β} {s : σ}

theorem Counts.yields (h : Counts limit n I Q round) (hn : n < limit) (hI : I i b s)
    (hi : i ≤ n) (hfuel : n - i < fuel) : Yields (loop round fuel b) s Q := by
  induction fuel generalizing i b s with
  | zero => exact absurd hfuel (Nat.not_lt_zero _)
  | succ fuel ih =>
      rcases hi.lt_or_eq with hlt | rfl
      · refine (h.next i b s hI hlt (by omega)).bind ?_
        rintro _ t ⟨c, rfl, hc⟩
        exact ih hc hlt (by omega)
      · refine (h.last b s hI).bind ?_
        rintro _ t ⟨a, rfl, ha⟩
        exact yields_pure ha

/-- A loop that returns has not come to the limit. -/
theorem Counts.lt_of_ok (h : Counts limit n I Q round) (hI : I i b s) (hi : i ≤ n)
    (hlimit : i < limit) {a : α} {t : σ} (hloop : loop round fuel b s = .ok a t) :
    n < limit := by
  induction fuel generalizing i b s with
  | zero => cases hloop
  | succ fuel ih =>
      obtain ⟨k, r, u, hfuel, hround, hrest⟩ := exists_of_loop_ok hloop
      obtain rfl := Nat.succ.inj hfuel
      rcases hi.lt_or_eq with hlt | rfl
      · by_cases hnext : i + 1 < limit
        · obtain ⟨c, rfl, hc⟩ := (h.next i b s hI hlt hnext).of_eq hround
          exact ih hc hlt hnext hrest
        · exact absurd hround ((h.overflow i b s hI hlt hnext).ne_ok r u)
      · exact hlimit

/-- A loop that returns has counted to `n`, whatever its fuel. -/
theorem Counts.of_ok (h : Counts limit n I Q round) (hI : I i b s) (hi : i ≤ n)
    (hlimit : i < limit) {a : α} {t : σ} (hloop : loop round fuel b s = .ok a t) : Q a t := by
  have hn := h.lt_of_ok hI hi hlimit hloop
  have hmore : loop round (fuel + n + 1) b s = .ok a t := loop_fuel_mono hloop (by omega)
  exact (h.yields hn hI hi (by omega)).of_eq hmore

end Exec
