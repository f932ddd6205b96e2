import Ciabatta.Lib.Transition
import Mathlib.Data.List.Infix

/-!
A stock that is bought in lots. Items are taken out and given back, and a further lot is
bought when one more is wanted while all are out. How many lots there are then depends
on one number of the history only, the most items that were out at the same time.
-/

namespace Lots

open Transition System

inductive Act
  | take
  | giveBack
  deriving DecidableEq

structure Stock where
  out : ℕ
  lots : ℕ

/-- What happens to a stock that comes in lots of `n`. -/
inductive Step (n : ℕ) : Stock → Act → Stock → Prop
  | take {s : Stock} (h : s.out < n * s.lots) : Step n s .take ⟨s.out + 1, s.lots⟩
  | buy {s : Stock} (h : s.out = n * s.lots) : Step n s .take ⟨s.out + 1, s.lots + 1⟩
  | giveBack {s : Stock} {k : ℕ} (h : s.out = k + 1) : Step n s .giveBack ⟨k, s.lots⟩

/-- A stock that begins with one lot. -/
def service (n : ℕ) : System Stock Act where
  init s := s.out = 0 ∧ s.lots = 1
  step := Step n

/-- The number of items that are out after a history. -/
def outAfter (acts : List Act) : ℕ :=
  acts.count .take - acts.count .giveBack

/-- The most items that were out at the same time. -/
def peak (acts : List Act) : ℕ :=
  (acts.inits.map outAfter).foldl max 0

theorem peak_snoc (acts : List Act) (a : Act) :
    peak (acts ++ [a]) = max (peak acts) (outAfter (acts ++ [a])) := by
  rw [peak, List.inits_append, List.map_append, List.foldl_append]
  rfl

theorem le_peak_snoc (acts : List Act) (a : Act) : peak acts ≤ peak (acts ++ [a]) := by
  rw [peak_snoc]
  exact le_max_left _ _

theorem outAfter_take {acts : List Act} (h : acts.count .giveBack ≤ acts.count .take) :
    outAfter (acts ++ [.take]) = outAfter acts + 1 := by
  have htake : (acts ++ [Act.take]).count .take = acts.count .take + 1 := by simp
  have hgive : (acts ++ [Act.take]).count .giveBack = acts.count .giveBack := by simp
  rw [outAfter, outAfter, htake, hgive]
  omega

theorem outAfter_giveBack (acts : List Act) :
    outAfter (acts ++ [.giveBack]) = outAfter acts - 1 := by
  have htake : (acts ++ [Act.giveBack]).count .take = acts.count .take := by simp
  have hgive : (acts ++ [Act.giveBack]).count .giveBack = acts.count .giveBack + 1 := by simp
  rw [outAfter, outAfter, htake, hgive]
  omega

/-- Between two steps: the lots do for the peak, and the lots but one would not. -/
structure Bought (n : ℕ) (acts : List Act) (s : Stock) : Prop where
  given : acts.count .giveBack ≤ acts.count .take
  out : s.out = outAfter acts
  out_le : s.out ≤ peak acts
  peak_le : peak acts ≤ n * s.lots
  needed : s.lots = 1 ∨ ∃ k, s.lots = k + 1 ∧ n * k < peak acts

variable {n : ℕ} {acts : List Act} {s t : Stock} {a : Act}

theorem bought_init (h : (service n).init s) : Bought n [] s := by
  obtain ⟨hout, hlots⟩ := h
  exact ⟨le_rfl, hout, hout.le, Nat.zero_le _, .inl hlots⟩

theorem Bought.needed_snoc (h : Bought n acts s) (a : Act) :
    s.lots = 1 ∨ ∃ k, s.lots = k + 1 ∧ n * k < peak (acts ++ [a]) := by
  refine h.needed.imp_right ?_
  rintro ⟨k, hk, hlt⟩
  exact ⟨k, hk, lt_of_lt_of_le hlt (le_peak_snoc acts a)⟩

theorem given_snoc_take (h : acts.count .giveBack ≤ acts.count .take) :
    (acts ++ [Act.take]).count .giveBack ≤ (acts ++ [Act.take]).count .take := by
  simpa using Nat.le_succ_of_le h

theorem Bought.step (h : Bought n acts s) (hn : 0 < n) (hstep : Step n s a t) :
    Bought n (acts ++ [a]) t := by
  have hout := h.out
  have hpeak := h.peak_le
  cases hstep with
  | take hfree =>
      have hafter : outAfter (acts ++ [.take]) = s.out + 1 := by
        rw [outAfter_take h.given, hout]
      refine ⟨given_snoc_take h.given, hafter.symm, ?_, ?_, h.needed_snoc _⟩
      · rw [peak_snoc, hafter]
        exact le_max_right _ _
      · rw [peak_snoc, hafter]
        exact max_le hpeak hfree
  | buy hfull =>
      have hafter : outAfter (acts ++ [.take]) = s.out + 1 := by
        rw [outAfter_take h.given, hout]
      have hmore : n * (s.lots + 1) = n * s.lots + n := Nat.mul_succ n s.lots
      refine ⟨given_snoc_take h.given, hafter.symm, ?_, ?_, .inr ⟨s.lots, rfl, ?_⟩⟩
      · rw [peak_snoc, hafter]
        exact le_max_right _ _
      · rw [peak_snoc, hafter, hmore]
        exact max_le (by omega) (by omega)
      · rw [peak_snoc, hafter]
        exact lt_of_lt_of_le (by omega) (le_max_right _ _)
  | @giveBack k hsome =>
      have hafter : outAfter (acts ++ [.giveBack]) = k := by
        rw [outAfter_giveBack, ← hout, hsome, Nat.add_sub_cancel]
      have hle := h.out_le
      refine ⟨?_, hafter.symm, ?_, ?_, h.needed_snoc _⟩
      · have hsub : acts.count .take - acts.count .giveBack = k + 1 := by
          rw [← hsome, hout, outAfter]
        have htake : (acts ++ [Act.giveBack]).count .take = acts.count .take := by simp
        have hgive : (acts ++ [Act.giveBack]).count .giveBack = acts.count .giveBack + 1 := by
          simp
        omega
      · rw [peak_snoc, hafter]
        exact le_max_right _ _
      · rw [peak_snoc, hafter]
        exact max_le hpeak (by dsimp only; omega)

/-- As many lots as the peak takes, and no more. -/
theorem lots_eq (hn : 0 < n) (h : (service n).Reaches acts s) :
    s.lots = max 1 ((peak acts + n - 1) / n) ∧ s.out = outAfter acts := by
  have hbought : Bought n acts s := by
    refine h.history (I := Bought n) (fun _ hinit => bought_init hinit) ?_
    intro acts s a t hinv hstep
    exact hinv.step hn hstep
  refine ⟨?_, hbought.out⟩
  have hpeak := hbought.peak_le
  have hupper : (peak acts + n - 1) / n < s.lots + 1 := by
    rw [Nat.div_lt_iff_lt_mul hn, Nat.succ_mul, Nat.mul_comm s.lots]
    omega
  rcases hbought.needed with hone | ⟨k, hk, hlt⟩
  · rw [hone] at hupper ⊢
    exact (max_eq_left (Nat.le_of_lt_succ hupper)).symm
  · have hlower : k + 1 ≤ (peak acts + n - 1) / n := by
      rw [Nat.le_div_iff_mul_le hn, Nat.succ_mul, Nat.mul_comm k]
      omega
    rw [hk] at hupper ⊢
    omega

end Lots
