import Mathlib.Data.List.Basic

/-!
Labelled transition systems and their runs. A run carries the list of its
labels, oldest first, so that a property can speak about the history as well
as about the state reached. The rules are the two inductions every safety
proof needs: an invariant of the states, and an invariant that also reads the
history.
-/

namespace Transition

structure System (σ α : Type*) where
  init : σ → Prop
  step : σ → α → σ → Prop

namespace System

variable {σ α : Type*} {S : System σ α}

/-- `Run S s tr t`: the labels `tr` lead from `s` to `t`. -/
inductive Run (S : System σ α) : σ → List α → σ → Prop
  | refl (s : σ) : Run S s [] s
  | snoc {s t u : σ} {tr : List α} {a : α} :
      Run S s tr t → S.step t a u → Run S s (tr ++ [a]) u

/-- The states that a run from an initial state reaches, with its labels. -/
def Reaches (S : System σ α) (tr : List α) (s : σ) : Prop :=
  ∃ s₀, S.init s₀ ∧ S.Run s₀ tr s

theorem Run.single {s t : σ} {a : α} (h : S.step s a t) : S.Run s [a] t :=
  .snoc (.refl s) h

theorem Run.trans {s t u : σ} {tr tr' : List α} (h : S.Run s tr t)
    (h' : S.Run t tr' u) : S.Run s (tr ++ tr') u := by
  induction h' with
  | refl => simpa using h
  | snoc _ hstep ih =>
      rw [← List.append_assoc]
      exact ih.snoc hstep

theorem Run.cons {s t u : σ} {a : α} {tr : List α} (h : S.step s a t)
    (h' : S.Run t tr u) : S.Run s (a :: tr) u :=
  (Run.single h).trans h'

/-- A concrete run is built from its first step on, each state read off the
step before it; `P` is what is to be shown of the last one. -/
theorem exists_run_cons {P : σ → Prop} {s t : σ} {a : α} {tr : List α}
    (h : S.step s a t) (h' : ∃ u, S.Run t tr u ∧ P u) :
    ∃ u, S.Run s (a :: tr) u ∧ P u := by
  obtain ⟨u, hu, hP⟩ := h'
  exact ⟨u, .cons h hu, hP⟩

theorem exists_run_nil {P : σ → Prop} {s : σ} (h : P s) : ∃ u, S.Run s [] u ∧ P u :=
  ⟨s, .refl s, h⟩

theorem exists_reaches {P : σ → Prop} {s : σ} {tr : List α} (h : S.init s)
    (h' : ∃ u, S.Run s tr u ∧ P u) : ∃ u, S.Reaches tr u ∧ P u := by
  obtain ⟨u, hu, hP⟩ := h'
  exact ⟨u, ⟨s, h, hu⟩, hP⟩

theorem Reaches.trans {tr tr' : List α} {s t : σ} (h : S.Reaches tr s)
    (h' : S.Run s tr' t) : S.Reaches (tr ++ tr') t := by
  obtain ⟨s₀, hinit, hrun⟩ := h
  exact ⟨s₀, hinit, hrun.trans h'⟩

/-- A run taken apart at one of its steps. -/
theorem Run.exists_of_append {pre post : List α} {a : α} {s u : σ}
    (h : S.Run s (pre ++ a :: post) u) :
    ∃ t t', S.Run s pre t ∧ S.step t a t' ∧ S.Run t' post u := by
  generalize htr : pre ++ a :: post = tr at h
  induction h generalizing post with
  | refl => simp at htr
  | @snoc t v tr b hrun hstep ih =>
      rcases List.eq_nil_or_concat post with rfl | ⟨post, c, rfl⟩
      · obtain ⟨rfl, hb⟩ := List.append_inj' htr rfl
        cases hb
        exact ⟨t, v, hrun, hstep, .refl v⟩
      · rw [List.concat_eq_append, ← List.cons_append, ← List.append_assoc] at htr
        obtain ⟨rfl, hc⟩ := List.append_inj' htr rfl
        cases hc
        obtain ⟨x, y, hpre, ha, hpost⟩ := ih rfl
        rw [List.concat_eq_append]
        exact ⟨x, y, hpre, ha, hpost.snoc hstep⟩

theorem Run.eq_of_nil {s t : σ} (h : S.Run s [] t) : s = t := by
  generalize htr : ([] : List α) = tr at h
  cases h with
  | refl => rfl
  | snoc => simp at htr

/-- A run taken apart at its first step. -/
theorem Run.exists_of_cons {s u : σ} {a : α} {tr : List α} (h : S.Run s (a :: tr) u) :
    ∃ t, S.step s a t ∧ S.Run t tr u := by
  have happend : S.Run s ([] ++ a :: tr) u := h
  obtain ⟨s', t, hnil, hstep, hrun⟩ := happend.exists_of_append
  exact ⟨t, hnil.eq_of_nil ▸ hstep, hrun⟩

theorem Reaches.exists_of_append {pre post : List α} {a : α} {s : σ}
    (h : S.Reaches (pre ++ a :: post) s) :
    ∃ t t', S.Reaches pre t ∧ S.step t a t' ∧ S.Run t' post s := by
  obtain ⟨s₀, hinit, hrun⟩ := h
  obtain ⟨t, t', hpre, hstep, hpost⟩ := hrun.exists_of_append
  exact ⟨t, t', ⟨s₀, hinit, hpre⟩, hstep, hpost⟩

/-- What every step keeps, every run keeps. -/
theorem Run.invariant {I : σ → Prop}
    (hstep : ∀ s a t, I s → S.step s a t → I t) {s t : σ} {tr : List α}
    (hrun : S.Run s tr t) (hs : I s) : I t := by
  induction hrun with
  | refl => exact hs
  | snoc _ h ih => exact hstep _ _ _ ih h

/-- The invariant rule with the history: `I` relates the labels so far to the
state they lead to. -/
theorem Reaches.history {I : List α → σ → Prop} (hinit : ∀ s, S.init s → I [] s)
    (hstep : ∀ tr s a t, I tr s → S.step s a t → I (tr ++ [a]) t)
    {tr : List α} {s : σ} (h : S.Reaches tr s) : I tr s := by
  obtain ⟨s₀, h₀, hrun⟩ := h
  induction hrun with
  | refl => exact hinit _ h₀
  | snoc _ h ih => exact hstep _ _ _ _ ih h

theorem Reaches.invariant {I : σ → Prop} (hinit : ∀ s, S.init s → I s)
    (hstep : ∀ s a t, I s → S.step s a t → I t) {tr : List α} {s : σ}
    (h : S.Reaches tr s) : I s := by
  obtain ⟨s₀, h₀, hrun⟩ := h
  exact hrun.invariant hstep (hinit s₀ h₀)

/-- The runs of `S` whose steps all meet `P`, a condition on the state before
the step and on its label. -/
def restrict (S : System σ α) (P : σ → α → Prop) : System σ α where
  init := S.init
  step s a t := S.step s a t ∧ P s a

@[simp] theorem restrict_init (P : σ → α → Prop) (s : σ) :
    (S.restrict P).init s ↔ S.init s := Iff.rfl

@[simp] theorem restrict_step (P : σ → α → Prop) (s t : σ) (a : α) :
    (S.restrict P).step s a t ↔ S.step s a t ∧ P s a := Iff.rfl

theorem Run.restrict_mono {P Q : σ → α → Prop} (hPQ : ∀ s a, P s a → Q s a)
    {s t : σ} {tr : List α} (h : (S.restrict P).Run s tr t) : (S.restrict Q).Run s tr t := by
  induction h with
  | refl => exact .refl _
  | snoc _ hstep ih => exact ih.snoc ⟨hstep.1, hPQ _ _ hstep.2⟩

theorem Reaches.restrict_mono {P Q : σ → α → Prop} (hPQ : ∀ s a, P s a → Q s a)
    {tr : List α} {s : σ} (h : (S.restrict P).Reaches tr s) :
    (S.restrict Q).Reaches tr s := by
  obtain ⟨s₀, h₀, hrun⟩ := h
  exact ⟨s₀, h₀, hrun.restrict_mono hPQ⟩

theorem Run.of_restrict {P : σ → α → Prop} {s t : σ} {tr : List α}
    (h : (S.restrict P).Run s tr t) : S.Run s tr t := by
  induction h with
  | refl => exact .refl _
  | snoc _ hstep ih => exact ih.snoc hstep.1

theorem Reaches.of_restrict {P : σ → α → Prop} {tr : List α} {s : σ}
    (h : (S.restrict P).Reaches tr s) : S.Reaches tr s := by
  obtain ⟨s₀, h₀, hrun⟩ := h
  exact ⟨s₀, h₀, hrun.of_restrict⟩

/-- A forward simulation: `R` relates the states of `S` to those of `A`, and
each step of `S` is matched by the labels of `A` that `obs` sees in it, none
for a step that `A` does not distinguish. -/
structure Simulation {τ β : Type*} (S : System σ α) (A : System τ β)
    (obs : α → List β) (R : σ → τ → Prop) : Prop where
  init : ∀ s, S.init s → ∃ t, A.init t ∧ R s t
  step : ∀ s a s' t, R s t → S.step s a s' → ∃ t', A.Run t (obs a) t' ∧ R s' t'

theorem Simulation.reaches {τ β : Type*} {A : System τ β} {obs : α → List β}
    {R : σ → τ → Prop} (h : Simulation S A obs R) {tr : List α} {s : σ}
    (hs : S.Reaches tr s) : ∃ t, A.Reaches (tr.flatMap obs) t ∧ R s t := by
  refine hs.history (I := fun tr s => ∃ t, A.Reaches (tr.flatMap obs) t ∧ R s t) ?_ ?_
  · intro s hinit
    obtain ⟨t, ht, hR⟩ := h.init s hinit
    exact ⟨t, ⟨t, ht, .refl t⟩, hR⟩
  · rintro tr s a s' ⟨t, ht, hR⟩ hstep
    obtain ⟨t', hrun, hR'⟩ := h.step s a s' t hR hstep
    refine ⟨t', ?_, hR'⟩
    simpa using ht.trans hrun

end System

end Transition
