import Ciabatta.Lib.ByteMemory

/-!
Programs over a byte memory. A program is a state transformer that either
returns or stops for good; either way the machine is left as the program made
it, with the record of what it accessed and called. Loops run on fuel, and the
rule for them shows that the fuel suffices.
-/

namespace Exec

open ByteMemory

/-- What a program did to the world outside its local variables. -/
inductive Event (κ : Type)
  | load (a : Word) (n : ℕ)
  | store (a : Word) (n : ℕ)
  | call (c : κ)

structure Machine (κ : Type) where
  mem : Mem
  /-- Oldest event first. -/
  log : List (Event κ)

/-- Why a program does not return. -/
inductive Stop
  | exit (code : BitVec 32)
  | divisionByZero
  | signedOverflow
  | outOfBounds
  | overread
  | badArgument
  | outOfFuel
  deriving DecidableEq

end Exec

/-- Programs that call the world outside by `κ`. -/
abbrev Exec (κ : Type) := EStateM Exec.Stop (Exec.Machine κ)

namespace Exec

open ByteMemory

variable {κ σ ε α β : Type}

def Machine.record (s : Machine κ) (e : Event κ) : Machine κ :=
  { s with log := s.log ++ [e] }

def loadWord (a : Word) : Exec κ Word := fun s =>
  .ok (load64 s.mem a) (s.record (.load a 8))

def storeWord (a v : Word) : Exec κ Unit := fun s =>
  .ok () { s.record (.store a 8) with mem := store64 s.mem a v }

/-- The four bytes of an `int`. -/
def loadInt (a : Word) : Exec κ (BitVec 32) := fun s =>
  .ok (load32 s.mem a) (s.record (.load a 4))

/-- The two bytes of a `uint16_t`. -/
def loadShort (a : Word) : Exec κ (BitVec 16) := fun s =>
  .ok (load16 s.mem a) (s.record (.load a 2))

def loadByte (a : Word) : Exec κ Byte := fun s =>
  .ok (s.mem a) (s.record (.load a 1))

def storeByte (a : Word) (v : Byte) : Exec κ Unit := fun s =>
  .ok () { s.record (.store a 1) with mem := Function.update s.mem a v }

def call (c : κ) : Exec κ Unit := fun s =>
  .ok () (s.record (.call c))

def divide (n d : Word) : Exec κ Word :=
  if d = 0 then throw .divisionByZero else pure (n / d)

/-- `n + 1` on an `int` that counts up from zero. -/
def incrementInt (n : ℕ) : EStateM Stop σ ℕ :=
  if n + 1 < 2 ^ 31 then pure (n + 1) else throw .signedOverflow

/-- The loop of `body`: another round at `.inl`, the end at `.inr`. -/
def loop (body : β → EStateM Stop σ (β ⊕ α)) : ℕ → β → EStateM Stop σ α
  | 0, _ => throw .outOfFuel
  | fuel + 1, b => do
      match ← body b with
      | .inl b' => loop body fuel b'
      | .inr a => pure a

def Event.stored : Event κ → Option (Word × ℕ)
  | .store a n => some (a, n)
  | _ => none

/-- What the machine has stored: where, and how many bytes. -/
def Machine.stored (s : Machine κ) : List (Word × ℕ) :=
  s.log.filterMap Event.stored

@[simp] theorem Machine.record_mem (s : Machine κ) (e : Event κ) : (s.record e).mem = s.mem :=
  rfl

@[simp] theorem Machine.stored_record_load (s : Machine κ) (a : Word) (n : ℕ) :
    (s.record (.load a n)).stored = s.stored := by
  simp [stored, record, Event.stored]

@[simp] theorem Machine.stored_record_call (s : Machine κ) (c : κ) :
    (s.record (.call c)).stored = s.stored := by
  simp [stored, record, Event.stored]

@[simp] theorem Machine.stored_record_store (s : Machine κ) (a : Word) (n : ℕ) :
    (s.record (.store a n)).stored = s.stored ++ [(a, n)] := by
  simp [stored, record, Event.stored]

theorem bind_of_ok {x : EStateM ε σ β} {f : β → EStateM ε σ α} {b : β} {s t : σ}
    (h : x s = .ok b t) : (x >>= f) s = f b t := by
  change EStateM.bind x f s = f b t
  rw [EStateM.bind, h]

theorem bind_of_error {x : EStateM ε σ β} {f : β → EStateM ε σ α} {e : ε} {s t : σ}
    (h : x s = .error e t) : (x >>= f) s = .error e t := by
  change EStateM.bind x f s = .error e t
  rw [EStateM.bind, h]

theorem bind_option_congr {γ : Type} {x : EStateM ε σ (Option γ)}
    {f g : Option γ → EStateM ε σ α} (hnone : f none = g none)
    (hsome : ∀ c, f (some c) = g (some c)) : x >>= f = x >>= g := by
  congr 1
  funext r
  cases r with
  | none => exact hnone
  | some c => exact hsome c

/-- A sequence that returns has returned from both its parts. -/
theorem exists_of_bind_ok {x : EStateM ε σ β} {f : β → EStateM ε σ α} {a : α} {s u : σ}
    (h : (x >>= f) s = .ok a u) : ∃ b t, x s = .ok b t ∧ f b t = .ok a u := by
  cases hx : x s with
  | ok b t => exact ⟨b, t, rfl, by rwa [bind_of_ok hx] at h⟩
  | error e t =>
      rw [bind_of_error hx] at h
      cases h

theorem eq_of_ok {a b : α} {s t : σ} (h : (.ok a s : EStateM.Result ε σ α) = .ok b t) :
    b = a ∧ t = s := by
  injection h with ha hs
  exact ⟨ha.symm, hs.symm⟩

theorem eq_of_pure_ok {a b : α} {s t : σ} (h : (pure a : EStateM ε σ α) s = .ok b t) :
    b = a ∧ t = s :=
  eq_of_ok h

theorem of_divide_ok {n d q : Word} {s t : Machine κ}
    (h : (divide n d : Exec κ Word) s = .ok q t) : d ≠ 0 ∧ q = n / d ∧ t = s := by
  rw [divide] at h
  split at h
  · cases h
  · exact ⟨‹_›, eq_of_pure_ok h⟩

theorem of_incrementInt_ok {n n' : ℕ} {s t : σ} (h : incrementInt n s = .ok n' t) :
    n + 1 < 2 ^ 31 ∧ n' = n + 1 ∧ t = s := by
  rw [incrementInt] at h
  split_ifs at h with hn
  · exact ⟨hn, eq_of_pure_ok h⟩
  · cases h

theorem exists_of_loop_ok {body : β → EStateM Stop σ (β ⊕ α)} {fuel : ℕ} {b : β} {a : α}
    {s u : σ} (h : loop body fuel b s = .ok a u) : ∃ k r t, fuel = k + 1 ∧ body b s = .ok r t ∧
      match r with
      | .inl c => loop body k c t = .ok a u
      | .inr c => c = a ∧ t = u := by
  cases fuel with
  | zero => cases h
  | succ k =>
      obtain ⟨r, t, hround, hrest⟩ := exists_of_bind_ok h
      refine ⟨k, r, t, rfl, hround, ?_⟩
      cases r with
      | inl c => exact hrest
      | inr c => exact ⟨(eq_of_pure_ok hrest).1.symm, (eq_of_pure_ok hrest).2.symm⟩

/-- More fuel than a loop needs does not change its end. -/
theorem loop_fuel_mono {body : β → EStateM Stop σ (β ⊕ α)} {fuel fuel' : ℕ} {b : β} {a : α}
    {s u : σ} (h : loop body fuel b s = .ok a u) (hle : fuel ≤ fuel') :
    loop body fuel' b s = .ok a u := by
  induction fuel generalizing fuel' b s with
  | zero => cases h
  | succ fuel ih =>
      obtain ⟨k, r, t, hfuel, hround, hrest⟩ := exists_of_loop_ok h
      obtain rfl := Nat.succ.inj hfuel
      obtain ⟨k', rfl⟩ := Nat.exists_eq_add_of_le' hle
      rw [← Nat.add_assoc, loop, bind_of_ok hround]
      cases r with
      | inl c => exact ih hrest (Nat.le_add_left _ _)
      | inr c => rw [hrest.1, hrest.2]; rfl

/-! ### Programs that return -/

/-- From `s` the program returns, with a result and in a state that satisfy
`Q`. -/
def Yields (x : EStateM ε σ α) (s : σ) (Q : α → σ → Prop) : Prop :=
  ∃ a t, x s = .ok a t ∧ Q a t

/-- The same as a test, for concrete runs. -/
def returns (x : EStateM ε σ α) (s : σ) (Q : α → σ → Bool) : Bool :=
  match x s with
  | .ok a t => Q a t
  | .error _ _ => false

theorem yields_of_returns {x : EStateM ε σ α} {s : σ} {Q : α → σ → Bool}
    (h : returns x s Q = true) : Yields x s fun a t => Q a t = true := by
  rw [returns] at h
  cases hx : x s with
  | ok a t =>
      rw [hx] at h
      exact ⟨a, t, hx, h⟩
  | error e t =>
      rw [hx] at h
      cases h

variable {s : σ} {Q : α → σ → Prop}

theorem Yields.mono {x : EStateM ε σ α} {Q' : α → σ → Prop} (h : Yields x s Q)
    (hQ : ∀ a t, Q a t → Q' a t) : Yields x s Q' := by
  obtain ⟨a, t, hx, ha⟩ := h
  exact ⟨a, t, hx, hQ a t ha⟩

theorem yields_pure {a : α} (h : Q a s) : Yields (pure a : EStateM ε σ α) s Q :=
  ⟨a, s, rfl, h⟩

theorem Yields.bind {x : EStateM ε σ β} {f : β → EStateM ε σ α} {R : β → σ → Prop}
    (h : Yields x s R) (hf : ∀ b t, R b t → Yields (f b) t Q) : Yields (x >>= f) s Q := by
  obtain ⟨b, t, hx, hb⟩ := h
  obtain ⟨a, u, hfu, ha⟩ := hf b t hb
  refine ⟨a, u, ?_, ha⟩
  rw [bind_of_ok hx]
  exact hfu

theorem Yields.get_bind {f : σ → EStateM ε σ α} (h : Yields (f s) s Q) :
    Yields (get >>= f) s Q :=
  h

theorem Yields.ite_pos {c : Prop} [Decidable c] {x y : EStateM ε σ α} (hc : c)
    (h : Yields x s Q) : Yields (if c then x else y) s Q := by
  rw [if_pos hc]
  exact h

theorem Yields.ite_neg {c : Prop} [Decidable c] {x y : EStateM ε σ α} (hc : ¬ c)
    (h : Yields y s Q) : Yields (if c then x else y) s Q := by
  rw [if_neg hc]
  exact h

theorem Yields.of_eq {x : EStateM ε σ α} {a : α} {t : σ} (h : Yields x s Q)
    (heq : x s = .ok a t) : Q a t := by
  obtain ⟨a', t', hx, ha⟩ := h
  rw [heq] at hx
  cases hx
  exact ha

theorem yields_loadWord {m : Machine κ} {a : Word} {Q : Word → Machine κ → Prop}
    (h : Q (load64 m.mem a) (m.record (.load a 8))) : Yields (loadWord a) m Q :=
  ⟨_, _, rfl, h⟩

theorem yields_storeWord {m : Machine κ} {a v : Word} {Q : Unit → Machine κ → Prop}
    (h : Q () { m.record (.store a 8) with mem := store64 m.mem a v }) :
    Yields (storeWord a v) m Q :=
  ⟨_, _, rfl, h⟩

theorem yields_loadByte {m : Machine κ} {mem : Mem} {a : Word} (h : m.mem = mem) :
    Yields (loadByte a) m fun b t => b = mem a ∧ t.mem = mem :=
  ⟨_, _, rfl, by rw [h], h⟩

theorem loadWord_bind (a : Word) (f : Word → Exec κ α) (m : Machine κ) :
    (loadWord a >>= f) m = f (load64 m.mem a) (m.record (.load a 8)) := rfl

theorem Yields.loadWord_bind {m : Machine κ} {a : Word} {f : Word → Exec κ α}
    {Q : α → Machine κ → Prop} (h : Yields (f (load64 m.mem a)) (m.record (.load a 8)) Q) :
    Yields (loadWord a >>= f) m Q :=
  .bind (yields_loadWord (Q := fun v t => v = load64 m.mem a ∧ t = m.record (.load a 8)) ⟨rfl, rfl⟩)
    (by rintro _ _ ⟨rfl, rfl⟩; exact h)

theorem yields_divide {m : Machine κ} {n d : Word} {Q : Word → Machine κ → Prop}
    (hd : d ≠ 0) (h : Q (n / d) m) : Yields (divide n d) m Q := by
  rw [divide, if_neg hd]
  exact yields_pure h

/-- The rule for loops: a round keeps the invariant and lowers the variant, or
ends the loop with the postcondition. -/
theorem yields_loop {body : β → EStateM Stop σ (β ⊕ α)} (I : β → σ → Prop) (variant : β → ℕ)
    (hbody : ∀ b t, I b t → Yields (body b) t fun r u =>
      match r with
      | .inl b' => I b' u ∧ variant b' < variant b
      | .inr a => Q a u)
    {fuel : ℕ} {b : β} (hI : I b s) (hfuel : variant b < fuel) :
    Yields (loop body fuel b) s Q := by
  induction fuel generalizing b s with
  | zero => exact absurd hfuel (Nat.not_lt_zero _)
  | succ fuel ih =>
      refine (hbody b s hI).bind fun r t hr => ?_
      cases r with
      | inl b' => exact ih hr.1 (by omega)
      | inr a => exact yields_pure hr

/-- A round of a loop that goes on. -/
theorem Yields.loop_next {body : β → EStateM Stop σ (β ⊕ α)} {fuel : ℕ} {b c : β}
    {R : σ → Prop} (h : Yields (body b) s fun r t => r = .inl c ∧ R t)
    (hnext : ∀ t, R t → Yields (loop body fuel c) t Q) :
    Yields (loop body (fuel + 1) b) s Q := by
  refine h.bind fun r t hr => ?_
  obtain ⟨rfl, ht⟩ := hr
  exact hnext t ht

/-- The round that ends a loop. -/
theorem Yields.loop_end {body : β → EStateM Stop σ (β ⊕ α)} {fuel : ℕ} {b : β} {a : α}
    (h : Yields (body b) s fun r t => r = .inr a ∧ Q a t) :
    Yields (loop body (fuel + 1) b) s Q := by
  refine h.bind fun r t hr => ?_
  obtain ⟨rfl, ht⟩ := hr
  exact yields_pure ht

/-! ### Programs that stop -/

/-- If the program does not return, then for a reason in `P`. -/
def StopsOnly (P : Stop → Prop) (x : EStateM Stop σ α) : Prop :=
  ∀ s e t, x s = .error e t → P e

variable {P : Stop → Prop}

theorem stopsOnly_of_ok {x : EStateM Stop σ α} (h : ∀ s, ∃ a t, x s = .ok a t) :
    StopsOnly P x := by
  intro s e t hstop
  obtain ⟨a, u, hok⟩ := h s
  rw [hok] at hstop
  cases hstop

theorem stopsOnly_pure (a : α) : StopsOnly P (pure a : EStateM Stop σ α) :=
  stopsOnly_of_ok fun s => ⟨a, s, rfl⟩

theorem stopsOnly_loadWord (a : Word) : StopsOnly P (loadWord a : Exec κ Word) :=
  stopsOnly_of_ok fun _ => ⟨_, _, rfl⟩

theorem stopsOnly_storeWord (a v : Word) : StopsOnly P (storeWord a v : Exec κ Unit) :=
  stopsOnly_of_ok fun _ => ⟨_, _, rfl⟩

theorem stopsOnly_call (c : κ) : StopsOnly P (call c) :=
  stopsOnly_of_ok fun _ => ⟨_, _, rfl⟩

theorem stopsOnly_throw {e : Stop} (h : P e) : StopsOnly P (throw e : EStateM Stop σ α) := by
  intro s e' t hstop
  cases hstop
  exact h

theorem StopsOnly.bind {x : EStateM Stop σ β} {f : β → EStateM Stop σ α}
    (hx : StopsOnly P x) (hf : ∀ b, StopsOnly P (f b)) : StopsOnly P (x >>= f) := by
  intro s e t hstop
  cases hxs : x s with
  | ok b u =>
      rw [bind_of_ok hxs] at hstop
      exact hf b u e t hstop
  | error e' u =>
      rw [bind_of_error hxs] at hstop
      cases hstop
      exact hx s e t hxs

theorem StopsOnly.ite {c : Prop} [Decidable c] {x y : EStateM Stop σ α}
    (hx : c → StopsOnly P x) (hy : ¬ c → StopsOnly P y) :
    StopsOnly P (if c then x else y) := by
  by_cases hc : c
  · rw [if_pos hc]
    exact hx hc
  · rw [if_neg hc]
    exact hy hc

theorem stopsOnly_loop {body : β → EStateM Stop σ (β ⊕ α)} (hfuel : P .outOfFuel)
    (hbody : ∀ b, StopsOnly P (body b)) (fuel : ℕ) (b : β) : StopsOnly P (loop body fuel b) := by
  induction fuel generalizing b with
  | zero => exact stopsOnly_throw hfuel
  | succ fuel ih =>
      refine (hbody b).bind fun r => ?_
      cases r with
      | inl b' => exact ih b'
      | inr a => exact stopsOnly_pure a

/-- From `s` the program stops with `e`. -/
def Stops (x : EStateM ε σ α) (s : σ) (e : ε) : Prop :=
  ∃ t, x s = .error e t

theorem stops_throw {e : Stop} : Stops (throw e : EStateM Stop σ α) s e :=
  ⟨s, rfl⟩

theorem Stops.bind {x : EStateM ε σ β} {e : ε} (h : Stops x s e) (f : β → EStateM ε σ α) :
    Stops (x >>= f) s e := by
  obtain ⟨t, hx⟩ := h
  exact ⟨t, bind_of_error hx⟩

theorem Yields.bind_stops {x : EStateM ε σ β} {f : β → EStateM ε σ α} {e : ε}
    {R : β → σ → Prop} (h : Yields x s R) (hf : ∀ b t, R b t → Stops (f b) t e) :
    Stops (x >>= f) s e := by
  obtain ⟨b, t, hx, hb⟩ := h
  obtain ⟨u, hu⟩ := hf b t hb
  refine ⟨u, ?_⟩
  rw [bind_of_ok hx]
  exact hu

theorem Stops.ite_neg {c : Prop} [Decidable c] {x y : EStateM ε σ α} {e : ε} (hc : ¬ c)
    (h : Stops y s e) : Stops (if c then x else y) s e := by
  rw [if_neg hc]
  exact h

theorem Stops.ne_ok {x : EStateM ε σ α} {e : ε} (h : Stops x s e) (a : α) (t : σ) :
    x s ≠ .ok a t := by
  obtain ⟨u, hx⟩ := h
  rw [hx]
  nofun

/-- From `b` in `s` the loop comes to `c` in `t` in `n` rounds. -/
inductive Rounds (body : β → EStateM Stop σ (β ⊕ α)) (b : β) (s : σ) : ℕ → β → σ → Prop
  | start : Rounds body b s 0 b s
  | next {n : ℕ} {c d : β} {t u : σ} : Rounds body b s n c t → body c t = .ok (.inl d) u →
      Rounds body b s (n + 1) d u

/-- A measure that rises with each round counts the rounds. -/
theorem Rounds.add_le {body : β → EStateM Stop σ (β ⊕ α)} (measure : β → ℕ)
    (hnext : ∀ c t d u, body c t = .ok (.inl d) u → measure c < measure d) {n : ℕ} {b c : β}
    {s t : σ} (h : Rounds body b s n c t) : measure b + n ≤ measure c := by
  induction h with
  | start => exact le_rfl
  | next _ hround ih => exact Nat.succ_le_of_lt (ih.trans_lt (hnext _ _ _ _ hround))

/-! ### Stretches of a program -/

/-- From `s` the program `x` comes to where `y` begins, in a state that satisfies
`R`. -/
def Leads (x : EStateM ε σ α) (s : σ) (y : EStateM ε σ α) (R : σ → Prop) : Prop :=
  ∃ t, R t ∧ x s = y t

theorem leads_self {x : EStateM ε σ α} {R : σ → Prop} (h : R s) : Leads x s x R :=
  ⟨s, h, rfl⟩

theorem Yields.bind_leads {x : EStateM ε σ β} {f : β → EStateM ε σ α} {y : EStateM ε σ α}
    {S : β → σ → Prop} {R : σ → Prop} (h : Yields x s S)
    (hf : ∀ b t, S b t → Leads (f b) t y R) : Leads (x >>= f) s y R := by
  obtain ⟨b, t, hx, hb⟩ := h
  obtain ⟨u, hu, hfu⟩ := hf b t hb
  refine ⟨u, hu, ?_⟩
  rw [bind_of_ok hx]
  exact hfu

theorem Yields.loop_leads {body : β → EStateM Stop σ (β ⊕ α)} {fuel : ℕ} {b b' : β}
    {R : σ → Prop} (h : Yields (body b) s fun r t => r = .inl b' ∧ R t) :
    Leads (loop body (fuel + 1) b) s (loop body fuel b') R := by
  refine h.bind_leads fun r t hr => ?_
  obtain ⟨rfl, ht⟩ := hr
  exact leads_self ht

theorem Leads.trans {x y z : EStateM ε σ α} {R S : σ → Prop} (h : Leads x s y R)
    (hy : ∀ t, R t → Leads y t z S) : Leads x s z S := by
  obtain ⟨t, ht, heq⟩ := h
  obtain ⟨u, hu, heq'⟩ := hy t ht
  exact ⟨u, hu, heq.trans heq'⟩

theorem Leads.ite_neg {c : Prop} [Decidable c] {x y z : EStateM ε σ α} {R : σ → Prop}
    (hc : ¬ c) (h : Leads y s z R) : Leads (if c then x else y) s z R := by
  rw [if_neg hc]
  exact h

theorem Leads.yields {x y : EStateM ε σ α} {R : σ → Prop} (h : Leads x s y R)
    (hy : ∀ t, R t → Yields y t Q) : Yields x s Q := by
  obtain ⟨t, ht, heq⟩ := h
  rw [Yields, heq]
  exact hy t ht

theorem Leads.stops {x y : EStateM ε σ α} {R : σ → Prop} {e : ε} (h : Leads x s y R)
    (hy : ∀ t, R t → Stops y t e) : Stops x s e := by
  obtain ⟨t, ht, heq⟩ := h
  rw [Stops, heq]
  exact hy t ht

end Exec
