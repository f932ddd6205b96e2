import Ciabatta.Lib.Exec

/-!
What a program with loops comes to when there is fuel enough. With less it comes to
the same or runs out of fuel. An abstract computation, which has no fuel, can stand
for such a program.
-/

namespace Exec

variable {σ α β γ ρ τ : Type}

/-- With enough fuel the program ends as `O` says, and with less it does too or runs out
of fuel. -/
def Settles (x : ℕ → EStateM Stop σ α) (s : σ) (O : EStateM.Result Stop σ α → Prop) : Prop :=
  (∀ fuel, Stops (x fuel) s .outOfFuel ∨ O (x fuel s)) ∧ ∃ n, ∀ fuel ≥ n, O (x fuel s)

/-- It returns `a` in the state `t`. -/
def Gives (x : ℕ → EStateM Stop σ α) (s : σ) (a : α) (t : σ) : Prop :=
  Settles x s (· = .ok a t)

/-- It stops with `e`. -/
def Halts (x : ℕ → EStateM Stop σ α) (s : σ) (e : Stop) : Prop :=
  Settles x s fun r => ∃ t, r = .error e t

variable {x y : ℕ → EStateM Stop σ α} {s t : σ} {a : α} {e : Stop}
  {O : EStateM.Result Stop σ α → Prop}

theorem settles_const {y : EStateM Stop σ α} (h : O (y s)) : Settles (fun _ => y) s O :=
  ⟨fun _ => .inr h, 0, fun _ _ => h⟩

theorem Yields.gives {y : EStateM Stop σ α} {Q : α → σ → Prop} (h : Yields y s Q) :
    ∃ a t, Gives (fun _ => y) s a t ∧ Q a t := by
  obtain ⟨a, t, hy, ha⟩ := h
  exact ⟨a, t, settles_const hy, ha⟩

theorem Stops.halts {y : EStateM Stop σ α} (h : Stops y s e) : Halts (fun _ => y) s e :=
  settles_const h

theorem halts_of_stops (h : ∀ fuel, Stops (x fuel) s e) : Halts x s e :=
  ⟨fun fuel => .inr (h fuel), 0, fun fuel _ => h fuel⟩

theorem Gives.bind {f : ℕ → β → EStateM Stop σ α} {x : ℕ → EStateM Stop σ β} {b : β}
    (h : Gives x s b t) (hf : Settles (fun fuel => f fuel b) t O) :
    Settles (fun fuel => x fuel >>= f fuel) s O := by
  obtain ⟨hany, n, hn⟩ := h
  obtain ⟨hfany, m, hm⟩ := hf
  refine ⟨fun fuel => ?_, max n m, fun fuel hfuel => ?_⟩
  · rcases hany fuel with hout | hb
    · exact .inl (hout.bind _)
    · simp only [Stops, bind_of_ok hb]
      exact hfany fuel
  · change O ((x fuel >>= f fuel) s)
    rw [bind_of_ok (hn fuel ((le_max_left n m).trans hfuel))]
    exact hm fuel ((le_max_right n m).trans hfuel)

theorem Halts.bind {x : ℕ → EStateM Stop σ β} (h : Halts x s e)
    (f : ℕ → β → EStateM Stop σ α) : Halts (fun fuel => x fuel >>= f fuel) s e := by
  obtain ⟨hany, n, hn⟩ := h
  exact ⟨fun fuel => (hany fuel).imp (·.bind _) fun he => Stops.bind he _, n,
    fun fuel hfuel => Stops.bind (hn fuel hfuel) _⟩

/-- A program that returns with some fuel does not settle on anything else. -/
theorem Settles.of_ok (h : Settles x s O) {fuel : ℕ} (hok : x fuel s = .ok a t) :
    O (.ok a t) := by
  rcases h.1 fuel with hout | ho
  · exact absurd hok (hout.ne_ok a t)
  · rwa [hok] at ho

theorem Halts.ne_ok (h : Halts x s e) (fuel : ℕ) : x fuel s ≠ .ok a t := by
  intro hok
  obtain ⟨u, hu⟩ := h.of_ok hok
  cases hu

theorem Halts.exists_stops (h : Halts x s e) : ∃ fuel, Stops (x fuel) s e := by
  obtain ⟨-, n, hn⟩ := h
  exact ⟨n, hn n le_rfl⟩

theorem Gives.exists_ok (h : Gives x s a t) : ∃ fuel, x fuel s = .ok a t := by
  obtain ⟨-, n, hn⟩ := h
  exact ⟨n, hn n le_rfl⟩

/-! ### Loops -/

variable {body : ℕ → β → EStateM Stop σ (β ⊕ α)} {b c : β}

/-- The same for a loop, whose rounds get fuel of their own. -/
def LoopSettles (body : ℕ → β → EStateM Stop σ (β ⊕ α)) (b : β) (s : σ)
    (O : EStateM.Result Stop σ α → Prop) : Prop :=
  (∀ fuel rounds, Stops (loop (body fuel) rounds b) s .outOfFuel ∨
    O (loop (body fuel) rounds b s)) ∧
  ∃ n, ∀ fuel ≥ n, ∀ rounds ≥ n, O (loop (body fuel) rounds b s)

theorem LoopSettles.settles (h : LoopSettles body b s O) :
    Settles (fun fuel => loop (body fuel) fuel b) s O := by
  obtain ⟨hany, n, hn⟩ := h
  exact ⟨fun fuel => hany fuel fuel, n, fun fuel hfuel => hn fuel hfuel fuel hfuel⟩

/-- A round that goes on. -/
theorem LoopSettles.next (hround : Gives (fun fuel => body fuel b) s (.inl c) t)
    (h : LoopSettles body c t O) : LoopSettles body b s O := by
  obtain ⟨hany, n, hn⟩ := hround
  obtain ⟨hrest, m, hm⟩ := h
  refine ⟨fun fuel rounds => ?_, max n m + 1, fun fuel hfuel rounds hrounds => ?_⟩
  · cases rounds with
    | zero => exact .inl stops_throw
    | succ rounds =>
        rcases hany fuel with hout | hb
        · exact .inl (hout.bind _)
        · simp only [Stops, loop, bind_of_ok hb]
          exact hrest fuel rounds
  · obtain ⟨rounds, rfl⟩ := Nat.exists_eq_add_of_le' ((Nat.le_add_left 1 _).trans hrounds)
    simp only [loop, bind_of_ok (hn fuel (by omega))]
    exact hm fuel (by omega) rounds (by omega)

/-- The round that ends the loop. -/
theorem LoopSettles.last (hround : Gives (fun fuel => body fuel b) s (.inr a) t) :
    LoopSettles body b s (· = .ok a t) := by
  obtain ⟨hany, n, hn⟩ := hround
  refine ⟨fun fuel rounds => ?_, n + 1, fun fuel hfuel rounds hrounds => ?_⟩
  · cases rounds with
    | zero => exact .inl stops_throw
    | succ rounds =>
        refine (hany fuel).imp (·.bind _) fun hb => ?_
        simp only [loop, bind_of_ok hb]
        rfl
  · obtain ⟨rounds, rfl⟩ := Nat.exists_eq_add_of_le' ((Nat.le_add_left 1 _).trans hrounds)
    simp only [loop, bind_of_ok (hn fuel (by omega))]
    rfl

/-- A round that stops. -/
theorem LoopSettles.halts (hround : Halts (fun fuel => body fuel b) s e) :
    LoopSettles body b s fun r => ∃ t, r = .error e t := by
  obtain ⟨hany, n, hn⟩ := hround
  refine ⟨fun fuel rounds => ?_, n + 1, fun fuel hfuel rounds hrounds => ?_⟩
  · cases rounds with
    | zero => exact .inl stops_throw
    | succ rounds => exact (hany fuel).imp (·.bind _) fun he => Stops.bind he _
  · obtain ⟨rounds, rfl⟩ := Nat.exists_eq_add_of_le' ((Nat.le_add_left 1 _).trans hrounds)
    exact Stops.bind (hn fuel (by omega)) _

/-- A loop whose next `n` rounds all go on comes to its round `n`. -/
theorem exists_after_rounds {body : β → EStateM Stop σ (β ⊕ α)} (I : ℕ → β → σ → Prop) {n : ℕ}
    (hround : ∀ i < n, ∀ b s, I i b s → Yields (body b) s fun r t => ∃ c, r = .inl c ∧
      I (i + 1) c t) (h : I 0 b s) :
    ∃ c t, I n c t ∧
      ∀ O, LoopSettles (fun _ => body) c t O → LoopSettles (fun _ => body) b s O := by
  induction n with
  | zero => exact ⟨b, s, h, fun _ hO => hO⟩
  | succ n ih =>
      obtain ⟨c, t, hI, hlead⟩ := ih fun i hi => hround i (hi.trans n.lt_succ_self)
      obtain ⟨_, u, hstep, d, rfl, hd⟩ := hround n n.lt_succ_self c t hI
      exact ⟨d, u, hd, fun O hO => hlead O (LoopSettles.next (settles_const hstep) hO)⟩

/-- A loop whose rounds all go on does not end. -/
theorem stops_endless {body : β → EStateM Stop σ (β ⊕ α)} (I : β → σ → Prop)
    (hround : ∀ b s, I b s → Yields (body b) s fun r t => ∃ c, r = .inl c ∧ I c t)
    (h : I b s) (fuel : ℕ) : Stops (loop body fuel b) s .outOfFuel := by
  induction fuel generalizing b s with
  | zero => exact stops_throw
  | succ fuel ih =>
      refine (hround b s h).bind_stops fun r t hr => ?_
      obtain ⟨c, rfl, hc⟩ := hr
      exact ih hc

/-! ### Abstract computations

An abstract computation goes from one abstract state to the next or meets a trouble,
which stands for one of the ways to stop. -/

variable {stop : τ → Stop} {Q : α → β → ρ → σ → Prop} {r : ρ}

/-- The program does in `s` what the abstract computation came to. -/
def Meets (stop : τ → Stop) (Q : α → β → ρ → σ → Prop) (x : ℕ → EStateM Stop σ α) (s : σ) :
    Except τ (β × ρ) → Prop
  | .ok (b, r) => ∃ a t, Gives x s a t ∧ Q a b r t
  | .error e => Halts x s (stop e)

theorem meets_pure {b : β} (h : Q a b r s) :
    Meets stop Q (fun _ => pure a) s ((pure b : StateT ρ (Except τ) β) r) :=
  ⟨a, s, settles_const rfl, h⟩

theorem Meets.bind {δ : Type} {x : ℕ → EStateM Stop σ γ} {f : ℕ → γ → EStateM Stop σ α}
    {m : StateT ρ (Except τ) δ} {g : δ → StateT ρ (Except τ) β} {R : γ → δ → ρ → σ → Prop}
    (h : Meets stop R x s (m r))
    (hf : ∀ c d r' t, R c d r' t → Meets stop Q (fun fuel => f fuel c) t (g d r')) :
    Meets stop Q (fun fuel => x fuel >>= f fuel) s ((m >>= g) r) := by
  change Meets stop Q _ s (m r >>= fun p => g p.1 p.2)
  cases hm : m r with
  | error e =>
      rw [hm] at h
      exact Halts.bind h f
  | ok p =>
      rw [hm] at h
      obtain ⟨c, t, hc, hR⟩ := h
      have hrest := hf c p.1 p.2 t hR
      change Meets stop Q _ s (g p.1 p.2)
      cases hg : g p.1 p.2 with
      | error e =>
          rw [hg] at hrest
          have hstops : Halts (fun fuel => f fuel c) t (stop e) := hrest
          exact Gives.bind (f := f) hc hstops
      | ok q =>
          rw [hg] at hrest
          obtain ⟨a, u, ha, hQ⟩ := hrest
          exact ⟨a, u, Gives.bind (f := f) hc ha, hQ⟩

theorem Meets.ite {c d : Prop} [Decidable c] [Decidable d] {m m' : StateT ρ (Except τ) β}
    (hcd : c ↔ d) (hx : c → Meets stop Q x s (m r)) (hy : ¬ c → Meets stop Q y s (m' r)) :
    Meets stop Q (fun fuel => if c then x fuel else y fuel) s ((if d then m else m') r) := by
  by_cases hc : c
  · simp only [if_pos hc, if_pos (hcd.mp hc)]
    exact hx hc
  · simp only [if_neg hc, if_neg (mt hcd.mpr hc)]
    exact hy hc

/-- A test in front of `m'`, which ends the program where it fails. -/
theorem Meets.and {x : ℕ → EStateM Stop σ γ} {f : ℕ → γ → EStateM Stop σ α}
    {m m' : StateT ρ (Except τ) Bool} {R : γ → Bool → ρ → σ → Prop}
    {Q : α → Bool → ρ → σ → Prop} (h : Meets stop R x s (m r))
    (hpass : ∀ c r' t, R c true r' t → Meets stop Q (fun fuel => f fuel c) t (m' r'))
    (hfail : ∀ c r' t, R c false r' t → ∃ a, (∀ fuel, f fuel c = pure a) ∧ Q a false r' t) :
    Meets stop Q (fun fuel => x fuel >>= f fuel) s ((m <&&> m') r) := by
  refine h.bind fun c b r' t hR => ?_
  cases b with
  | true => exact hpass c r' t hR
  | false =>
      obtain ⟨a, ha, hQ⟩ := hfail c r' t hR
      simp only [ha]
      exact meets_pure hQ

/-- The program only makes its result of what it came to. -/
theorem Meets.map {x : ℕ → EStateM Stop σ γ} {f : ℕ → γ → EStateM Stop σ α}
    {w : Except τ (β × ρ)} {R : γ → β → ρ → σ → Prop} (h : Meets stop R x s w)
    (hf : ∀ c b r' t, R c b r' t → ∃ a, (∀ fuel, f fuel c = pure a) ∧ Q a b r' t) :
    Meets stop Q (fun fuel => x fuel >>= f fuel) s w := by
  cases w with
  | error e => exact Halts.bind h f
  | ok p =>
      obtain ⟨c, t, hc, hR⟩ := h
      obtain ⟨a, ha, hQ⟩ := hf c p.1 p.2 t hR
      refine ⟨a, t, Gives.bind (f := f) hc ?_, hQ⟩
      simp only [ha]
      exact settles_const rfl

/-- The abstract computation only makes its result of what it came to. -/
theorem Meets.returning {δ : Type} {m : StateT ρ (Except τ) δ} {g : δ → β}
    {R : α → δ → ρ → σ → Prop} (h : Meets stop R x s (m r))
    (hg : ∀ a d r' t, R a d r' t → Q a (g d) r' t) :
    Meets stop Q x s ((m >>= fun d => pure (g d)) r) := by
  change Meets stop Q x s (m r >>= fun p => .ok (g p.1, p.2))
  cases hm : m r with
  | error e =>
      rw [hm] at h
      exact h
  | ok p =>
      rw [hm] at h
      obtain ⟨a, t, ha, hR⟩ := h
      exact ⟨a, t, ha, hg a p.1 p.2 t hR⟩

end Exec
