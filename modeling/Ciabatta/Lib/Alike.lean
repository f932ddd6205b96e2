import Ciabatta.Lib.Exec

/-!
Programs that do alike. Up to a relation of the states they return the same results and
stop for the same reasons, so that one can stand for the other in a larger program.
-/

namespace Exec

variable {σ ε α β : Type} {R : σ → σ → Prop} {s t : σ}

/-- The runs end in the same way, in related states. -/
def EndsAlike (R : σ → σ → Prop) : EStateM.Result ε σ α → EStateM.Result ε σ α → Prop
  | .ok a s, .ok b t => a = b ∧ R s t
  | .error e s, .error f t => e = f ∧ R s t
  | _, _ => False

/-- From related states the programs do the same. -/
def Alike (R : σ → σ → Prop) (x y : EStateM ε σ α) : Prop :=
  ∀ s t, R s t → EndsAlike R (x s) (y t)

theorem alike_pure (a : α) : Alike R (pure a : EStateM ε σ α) (pure a) :=
  fun _ _ h => ⟨rfl, h⟩

theorem alike_throw (e : ε) : Alike R (throw e : EStateM ε σ α) (throw e) :=
  fun _ _ h => ⟨rfl, h⟩

theorem EndsAlike.mono {S : σ → σ → Prop} {a b : EStateM.Result ε σ α} (h : EndsAlike R a b)
    (hRS : ∀ s t, R s t → S s t) : EndsAlike S a b := by
  cases a <;> cases b
  · exact ⟨h.1, hRS _ _ h.2⟩
  · exact h
  · exact h
  · exact ⟨h.1, hRS _ _ h.2⟩

/-- Programs that do the same go on from runs that end in the same way. -/
theorem EndsAlike.bind {x y : EStateM ε σ β} {f g : β → EStateM ε σ α}
    (hends : EndsAlike R (x s) (y t)) (hf : ∀ b, Alike R (f b) (g b)) :
    EndsAlike R ((x >>= f) s) ((y >>= g) t) := by
  cases hs : x s with
  | ok b s' =>
      cases ht : y t with
      | ok c t' =>
          rw [hs, ht] at hends
          obtain ⟨rfl, hR⟩ := hends
          rw [bind_of_ok hs, bind_of_ok ht]
          exact hf b s' t' hR
      | error e t' =>
          rw [hs, ht] at hends
          exact hends.elim
  | error e s' =>
      cases ht : y t with
      | ok c t' =>
          rw [hs, ht] at hends
          exact hends.elim
      | error e' t' =>
          rw [hs, ht] at hends
          rw [bind_of_error hs, bind_of_error ht]
          exact hends

theorem Alike.bind {x y : EStateM ε σ β} {f g : β → EStateM ε σ α} (hx : Alike R x y)
    (hf : ∀ b, Alike R (f b) (g b)) : Alike R (x >>= f) (y >>= g) :=
  fun s t h => (hx s t h).bind hf

theorem Alike.ite {c : Prop} [Decidable c] {x x' y y' : EStateM ε σ α} (hx : Alike R x x')
    (hy : Alike R y y') : Alike R (if c then x else y) (if c then x' else y') := by
  split
  · exact hx
  · exact hy

theorem alike_loop {body : β → EStateM Stop σ (β ⊕ α)} (hbody : ∀ b, Alike R (body b) (body b))
    (fuel : ℕ) (b : β) : Alike R (loop body fuel b) (loop body fuel b) := by
  induction fuel generalizing b with
  | zero => exact alike_throw _
  | succ fuel ih =>
      refine (hbody b).bind fun r => ?_
      cases r with
      | inl b' => exact ih b'
      | inr a => exact alike_pure a

theorem alike_incrementInt (n : ℕ) : Alike R (incrementInt n) (incrementInt n) :=
  (alike_pure _).ite (alike_throw _)

end Exec
