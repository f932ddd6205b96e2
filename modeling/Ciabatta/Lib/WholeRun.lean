import Ciabatta.Lib.Exec

/-!
Assumptions on a whole run. What is assumed of the environment of a program can
often be read off the state in which a run ends, such as a log of the calls and
their results. If each step of the program reflects the assumption back to the
state before it, the assumption can be used along the run.
-/

namespace Exec

open ByteMemory

variable {σ ε α β : Type}

/-- The state in which a run ends. -/
def final : EStateM.Result ε σ α → σ
  | .ok _ t => t
  | .error _ t => t

/-- An assumption that holds at the end of a run held at its start. -/
def Reflects (A : σ → Prop) (x : EStateM ε σ α) : Prop :=
  ∀ s, A (final (x s)) → A s

/-- Under the assumption the program returns, with a result and in a state that
satisfy `Q`. -/
def Sure (A : σ → Prop) (x : EStateM ε σ α) (s : σ) (Q : α → σ → Prop) : Prop :=
  A (final (x s)) → Yields x s Q

/-- If the program returns, and under the assumption, `Q` holds. -/
def Done (A : σ → Prop) (x : EStateM ε σ α) (s : σ) (Q : α → σ → Prop) : Prop :=
  ∀ a t, x s = .ok a t → A t → Q a t

variable {A : σ → Prop} {s : σ} {Q : α → σ → Prop}

/-! ### Reflection -/

theorem Reflects.of_ok {x : EStateM ε σ α} {a : α} {t : σ} (h : Reflects A x)
    (hrun : x s = .ok a t) (hA : A t) : A s := by
  apply h s
  rw [hrun]
  exact hA

/-- To reflect the negation of `I` is to keep `I`. -/
theorem Reflects.keeps {I : σ → Prop} {x : EStateM ε σ α} (h : Reflects (fun t => ¬ I t) x)
    (hs : I s) : I (final (x s)) :=
  by_contra fun hfinal => h s hfinal hs

theorem reflects_pure (a : α) : Reflects A (pure a : EStateM ε σ α) := fun _ h => h

theorem reflects_throw (e : ε) : Reflects A (throw e : EStateM ε σ α) := fun _ h => h

theorem Reflects.bind {x : EStateM ε σ β} {f : β → EStateM ε σ α} (hx : Reflects A x)
    (hf : ∀ b, Reflects A (f b)) : Reflects A (x >>= f) := by
  intro s h
  have hs := hx s
  cases hrun : x s with
  | ok b t =>
      rw [bind_of_ok hrun] at h
      rw [hrun] at hs
      exact hs (hf b t h)
  | error e t =>
      rw [bind_of_error hrun] at h
      rw [hrun] at hs
      exact hs h

theorem Reflects.ite {c : Prop} [Decidable c] {x y : EStateM ε σ α} (hx : Reflects A x)
    (hy : Reflects A y) : Reflects A (if c then x else y) := by
  split
  · exact hx
  · exact hy

theorem reflects_loop {body : β → EStateM Stop σ (β ⊕ α)} (hbody : ∀ b, Reflects A (body b))
    (fuel : ℕ) (b : β) : Reflects A (loop body fuel b) := by
  induction fuel generalizing b with
  | zero => exact reflects_throw _
  | succ fuel ih =>
      refine (hbody b).bind fun r => ?_
      cases r with
      | inl b' => exact ih b'
      | inr a => exact reflects_pure a

theorem reflects_incrementInt (n : ℕ) : Reflects A (incrementInt n) :=
  (reflects_pure _).ite (reflects_throw _)

/-- An assumption about the log that survives taking back an access to the memory. -/
def AccessReflects {κ : Type} (A : Machine κ → Prop) : Prop :=
  ∀ s m e, (∀ c, e ≠ .call c) → A { mem := m, log := s.log ++ [e] } → A s

theorem AccessReflects.loadWord {κ : Type} {A : Machine κ → Prop} (h : AccessReflects A)
    (a : Word) : Reflects A (loadWord a) :=
  fun s hA => h s _ (.load a 8) (by simp) hA

theorem AccessReflects.storeWord {κ : Type} {A : Machine κ → Prop} (h : AccessReflects A)
    (a v : Word) : Reflects A (storeWord a v) :=
  fun s hA => h s _ (.store a 8) (by simp) hA

theorem reflects_divide {κ : Type} {A : Machine κ → Prop} (n d : Word) :
    Reflects A (divide n d) :=
  (reflects_throw _).ite (reflects_pure _)

/-! ### Runs that return -/

theorem Yields.sure {x : EStateM ε σ α} (h : Yields x s Q) : Sure A x s Q := fun _ => h

theorem Sure.mono {x : EStateM ε σ α} {Q' : α → σ → Prop} (h : Sure A x s Q)
    (hQ : ∀ a t, Q a t → Q' a t) : Sure A x s Q' := fun hA => (h hA).mono hQ

theorem Sure.bind {x : EStateM ε σ β} {f : β → EStateM ε σ α} {R : β → σ → Prop}
    (h : Sure A x s R) (hreflects : ∀ b, Reflects A (f b))
    (hf : ∀ b t, R b t → Sure A (f b) t Q) : Sure A (x >>= f) s Q := by
  intro hA
  rw [Sure] at h
  cases hrun : x s with
  | ok b t =>
      rw [bind_of_ok hrun] at hA
      rw [hrun] at h
      obtain ⟨b', t', heq, hb⟩ := h (hreflects b t hA)
      rw [hrun] at heq
      cases heq
      obtain ⟨a, u, hfu, ha⟩ := hf b t hb hA
      refine ⟨a, u, ?_, ha⟩
      rw [bind_of_ok hrun]
      exact hfu
  | error e t =>
      rw [bind_of_error hrun] at hA
      rw [hrun] at h
      obtain ⟨b', t', heq, -⟩ := h hA
      rw [hrun] at heq
      cases heq

theorem Sure.ite_pos {c : Prop} [Decidable c] {x y : EStateM ε σ α} (hc : c)
    (h : Sure A x s Q) : Sure A (if c then x else y) s Q := by
  rw [if_pos hc]
  exact h

theorem Sure.ite_neg {c : Prop} [Decidable c] {x y : EStateM ε σ α} (hc : ¬ c)
    (h : Sure A y s Q) : Sure A (if c then x else y) s Q := by
  rw [if_neg hc]
  exact h

/-! ### Runs as far as they return -/

theorem Sure.done {x : EStateM ε σ α} (h : Sure A x s Q) : Done A x s Q := by
  intro a t hrun hA
  rw [Sure, hrun] at h
  exact (h hA).of_eq hrun

theorem done_pure {a : α} (h : Q a s) : Done A (pure a : EStateM ε σ α) s Q :=
  (yields_pure h).sure.done

theorem done_throw {e : ε} : Done A (throw e : EStateM ε σ α) s Q := by
  intro a t hrun
  cases hrun

theorem Done.mono {x : EStateM ε σ α} {Q' : α → σ → Prop} (h : Done A x s Q)
    (hQ : ∀ a t, Q a t → Q' a t) : Done A x s Q' := fun a t hrun hA => hQ a t (h a t hrun hA)

theorem Done.bind {x : EStateM ε σ β} {f : β → EStateM ε σ α} {R : β → σ → Prop}
    (h : Done A x s R) (hreflects : ∀ b, Reflects A (f b))
    (hf : ∀ b t, R b t → Done A (f b) t Q) : Done A (x >>= f) s Q := by
  intro a u hrun hA
  cases hx : x s with
  | ok b t =>
      rw [bind_of_ok hx] at hrun
      have ht : A t := hreflects b t (by rw [show f b t = .ok a u from hrun]; exact hA)
      exact hf b t (h b t hx ht) a u hrun hA
  | error e t =>
      rw [bind_of_error hx] at hrun
      cases hrun

theorem Done.ite {c : Prop} [Decidable c] {x y : EStateM ε σ α} (hx : c → Done A x s Q)
    (hy : ¬ c → Done A y s Q) : Done A (if c then x else y) s Q := by
  split
  · exact hx ‹_›
  · exact hy ‹_›

theorem Done.of_eq {x : EStateM ε σ α} {a : α} {t : σ} (h : Done A x s Q)
    (hrun : x s = .ok a t) (hA : A t) : Q a t :=
  h a t hrun hA

/-- The invariant rule for loops that need not end. -/
theorem done_loop {body : β → EStateM Stop σ (β ⊕ α)} (I : β → σ → Prop)
    (hreflects : ∀ b, Reflects A (body b))
    (hbody : ∀ b t, I b t → Done A (body b) t fun r u =>
      match r with
      | .inl b' => I b' u
      | .inr a => Q a u)
    {fuel : ℕ} {b : β} (hI : I b s) : Done A (loop body fuel b) s Q := by
  -- a run that uses the fuel up does not return, so no variant is needed
  induction fuel generalizing b s with
  | zero => exact done_throw
  | succ fuel ih =>
      refine (hbody b s hI).bind (fun r => ?_) fun r t hr => ?_
      · cases r with
        | inl b' => exact reflects_loop hreflects fuel b'
        | inr a => exact reflects_pure a
      · cases r with
        | inl b' => exact ih hr
        | inr a => exact done_pure hr

end Exec
