import Ciabatta.Lib.Exec

/-!
Programs that pass the state of another one along in a variable. Such a host runs on a
state of its own, of which it keeps an invariant, and what is known of the guest holds
of it too.
-/

namespace Exec

open ByteMemory

variable {σ τ ε α α' β β' : Type} {J : τ → Prop} {s : σ}

/-- The host `y` stops where `x` stops, and otherwise returns what `pack` makes of the
result and the state that `x` leaves. -/
structure Hosts (J : τ → Prop) (x : EStateM ε σ α) (s : σ) (y : EStateM ε τ α')
    (pack : α → σ → α') : Prop where
  ok : ∀ {a s' t}, x s = .ok a s' → J t → Yields y t fun a' t' => a' = pack a s' ∧ J t'
  error : ∀ {e s' t}, x s = .error e s' → J t → Stops y t e

theorem hosts_pure (a : α) (pack : α → σ → α') :
    Hosts J (pure a : EStateM ε σ α) s (pure (pack a s)) pack where
  ok h ht := by
    obtain ⟨rfl, rfl⟩ := eq_of_pure_ok h
    exact yields_pure ⟨rfl, ht⟩
  error h _ := by cases h

theorem hosts_throw (e : Stop) (pack : α → σ → α') :
    Hosts J (throw e : EStateM Stop σ α) s (throw e) pack where
  ok h _ := by cases h
  error h _ := by
    cases h
    exact stops_throw

theorem Hosts.bind {x : EStateM ε σ β} {f : β → EStateM ε σ α} {y : EStateM ε τ β'}
    {g : β' → EStateM ε τ α'} {packed : β → σ → β'} {pack : α → σ → α'}
    (hx : Hosts J x s y packed) (hf : ∀ b s', x s = .ok b s' →
      Hosts J (f b) s' (g (packed b s')) pack) : Hosts J (x >>= f) s (y >>= g) pack := by
  cases hrun : x s with
  | ok b s' =>
      constructor
      · intro a u t h ht
        rw [bind_of_ok hrun] at h
        refine (hx.ok hrun ht).bind ?_
        rintro _ t' ⟨rfl, ht'⟩
        exact (hf b s' hrun).ok h ht'
      · intro e u t h ht
        rw [bind_of_ok hrun] at h
        refine (hx.ok hrun ht).bind_stops ?_
        rintro _ t' ⟨rfl, ht'⟩
        exact (hf b s' hrun).error h ht'
  | error e s' =>
      constructor
      · intro a u t h
        rw [bind_of_error hrun] at h
        cases h
      · intro e' u t h ht
        rw [bind_of_error hrun] at h
        cases h
        exact (hx.error hrun ht).bind g

theorem Hosts.ite {c : Prop} [Decidable c] {x x' : EStateM ε σ α} {y y' : EStateM ε τ α'}
    {pack : α → σ → α'} (hx : Hosts J x s y pack) (hx' : Hosts J x' s y' pack) :
    Hosts J (if c then x else x') s (if c then y else y') pack := by
  split
  · exact hx
  · exact hx'

/-- The host may read its memory on the way. -/
theorem Hosts.loadWord_bind {κ : Type} {m : Mem} {x : EStateM Stop σ α} {a : Word}
    {g : Word → Exec κ α'} {pack : α → σ → α'}
    (h : Hosts (fun t : Machine κ => t.mem = m) x s (g (load64 m a)) pack) :
    Hosts (fun t : Machine κ => t.mem = m) x s (loadWord a >>= g) pack where
  ok hx ht := by
    subst ht
    exact .loadWord_bind (h.ok hx rfl)
  error hx ht := by
    subst ht
    rw [Stops, Exec.loadWord_bind]
    exact h.error hx rfl

/-- Both count. -/
theorem Hosts.incrementInt_bind {n : ℕ} {f : ℕ → EStateM Stop σ α} {g : ℕ → EStateM Stop τ α'}
    {pack : α → σ → α'} (h : Hosts J (f (n + 1)) s (g (n + 1)) pack) :
    Hosts J (incrementInt n >>= f) s (incrementInt n >>= g) pack := by
  by_cases hn : n + 1 < 2 ^ 31
  · rw [incrementInt, incrementInt, if_pos hn, if_pos hn, pure_bind, pure_bind]
    exact h
  · have hthrow : Hosts J (throw .signedOverflow : EStateM Stop σ ℕ) s
        (throw .signedOverflow : EStateM Stop τ ℕ) fun n' _ => n' := hosts_throw _ _
    rw [incrementInt, incrementInt, if_neg hn, if_neg hn]
    refine hthrow.bind fun n' s' h => ?_
    cases h

/-- Round by round. The invariant is on the variables of the guest's loop. -/
theorem Hosts.loop {body : β → EStateM Stop σ (β ⊕ α)} {body' : β' → EStateM Stop τ (β' ⊕ α')}
    {packed : β → σ → β'} {pack : α → σ → α'} (I : β → Prop)
    (hbody : ∀ b s, I b → Hosts J (body b) s (body' (packed b s)) fun r s' =>
      r.map (packed · s') (pack · s'))
    (hkeep : ∀ b s b' s', I b → body b s = .ok (.inl b') s' → I b') (fuel : ℕ) {b : β}
    (hb : I b) : Hosts J (loop body fuel b) s (loop body' fuel (packed b s)) pack := by
  induction fuel generalizing b s with
  | zero => exact hosts_throw _ _
  | succ fuel ih =>
      refine (hbody b s hb).bind fun r s' hround => ?_
      cases r with
      | inl b' => exact ih (hkeep b s b' s' hb hround)
      | inr a => exact hosts_pure a pack

theorem Hosts.yields {x : EStateM ε σ α} {y : EStateM ε τ α'} {pack : α → σ → α'} {t : τ}
    {Q : α → σ → Prop} (h : Hosts J x s y pack) (hx : Yields x s Q) (ht : J t) :
    Yields y t fun a' t' => ∃ a s', a' = pack a s' ∧ Q a s' ∧ J t' := by
  obtain ⟨a, s', hrun, hQ⟩ := hx
  refine (h.ok hrun ht).mono ?_
  rintro _ t' ⟨rfl, ht'⟩
  exact ⟨a, s', rfl, hQ, ht'⟩

end Exec
