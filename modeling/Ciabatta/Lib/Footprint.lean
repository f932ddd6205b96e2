import Ciabatta.Lib.WholeRun

/-!
What a program touches. The log of a run only grows, so what happened between two
points of it is the part of the log that was added, and a bound on the accesses is
a property of each event in that part.
-/

namespace Exec

open ByteMemory

variable {κ α : Type}

/-- The addresses that an event reads or writes. -/
def Event.footprint : Event κ → Set Word
  | .load a n => region a n
  | .store a n => region a n
  | .call _ => ∅

/-- The addresses that an event writes. -/
def Event.written : Event κ → Set Word
  | .store a n => region a n
  | _ => ∅

/-- The call that the event is. -/
def Event.called : Event κ → Option κ
  | .call c => some c
  | _ => none

/-- From `s` to `t` only events with `P` happened. -/
def Since (P : Event κ → Prop) (s t : Machine κ) : Prop :=
  ∃ es, t.log = s.log ++ es ∧ ∀ e ∈ es, P e

variable {P : Event κ → Prop} {s t u : Machine κ}

theorem since_refl (s : Machine κ) : Since P s s :=
  ⟨[], (List.append_nil _).symm, by simp⟩

theorem Since.trans (h : Since P s t) (h' : Since P t u) : Since P s u := by
  obtain ⟨es, hlog, hes⟩ := h
  obtain ⟨es', hlog', hes'⟩ := h'
  refine ⟨es ++ es', ?_, ?_⟩
  · rw [hlog', hlog, List.append_assoc]
  · intro e he
    rcases List.mem_append.mp he with he | he
    · exact hes e he
    · exact hes' e he

/-- One more event. -/
theorem Since.snoc {e : Event κ} (h : Since P s t) (he : P e) (hlog : u.log = t.log ++ [e]) :
    Since P s u :=
  h.trans ⟨[e], hlog, by simpa using he⟩

theorem Since.mono {P' : Event κ → Prop} (h : Since P s t) (hP : ∀ e, P e → P' e) :
    Since P' s t := by
  obtain ⟨es, hlog, hes⟩ := h
  exact ⟨es, hlog, fun e he => hP e (hes e he)⟩

/-- The event reads only in `A` and writes only in `B`. -/
def Event.Within (A B : Set Word) : Event κ → Prop
  | .load a n => region a n ⊆ A
  | .store a n => region a n ⊆ B
  | .call _ => True

theorem region_one_subset_of_mem {A : Set Word} {a : Word} (ha : a ∈ A) : region a 1 ⊆ A := by
  intro x hx
  rw [mem_region, Nat.lt_one_iff] at hx
  have hself : x - a = 0 := BitVec.eq_of_toNat_eq hx
  rwa [sub_eq_zero.mp hself]

/-! ### Programs that only read -/

/-- The event reads, and only in `A`. -/
def Event.ReadsIn (A : Set Word) : Event κ → Prop
  | .load a n => region a n ⊆ A
  | _ => False

/-- From `s` to `t` nothing happened but reads in `A`. -/
structure OnlyReads (A : Set Word) (s t : Machine κ) : Prop where
  mem : t.mem = s.mem
  reads : Since (Event.ReadsIn A) s t

variable {A : Set Word} {a : Word}

theorem onlyReads_refl (A : Set Word) (s : Machine κ) : OnlyReads A s s :=
  ⟨rfl, since_refl s⟩

theorem OnlyReads.load {n : ℕ} (h : OnlyReads A s t) (ha : region a n ⊆ A) :
    OnlyReads A s (t.record (.load a n)) :=
  ⟨h.mem, h.reads.snoc (e := .load a n) ha rfl⟩

theorem OnlyReads.loadWord (h : OnlyReads A s t) (ha : region a 8 ⊆ A) :
    Yields (loadWord a) t fun v u => v = load64 s.mem a ∧ OnlyReads A s u :=
  yields_loadWord ⟨by rw [h.mem], h.load ha⟩

theorem OnlyReads.loadInt (h : OnlyReads A s t) (ha : region a 4 ⊆ A) :
    Yields (loadInt a) t fun v u => v = load32 s.mem a ∧ OnlyReads A s u :=
  ⟨_, _, rfl, by rw [h.mem], h.load ha⟩

theorem OnlyReads.loadShort (h : OnlyReads A s t) (ha : region a 2 ⊆ A) :
    Yields (loadShort a) t fun v u => v = load16 s.mem a ∧ OnlyReads A s u :=
  ⟨_, _, rfl, by rw [h.mem], h.load ha⟩

theorem OnlyReads.loadByte (h : OnlyReads A s t) (ha : a ∈ A) :
    Yields (loadByte a) t fun v u => v = s.mem a ∧ OnlyReads A s u :=
  ⟨_, _, rfl, by rw [h.mem], h.load (region_one_subset_of_mem ha)⟩

/-! ### What a whole run keeps -/

/-- An assumption about the log that survives taking back an event with `P`. -/
structure LogReflects (P : Event κ → Prop) (A : Machine κ → Prop) : Prop where
  of_log : ∀ s t : Machine κ, t.log = s.log → A t → A s
  of_event : ∀ (s t : Machine κ) (e : Event κ), P e → t.log = s.log ++ [e] → A t → A s

/-- `P` does not look at accesses to the memory. -/
def Lenient (P : Event κ → Prop) : Prop :=
  ∀ e : Event κ, (∀ c, e ≠ .call c) → P e

theorem LogReflects.access {A : Machine κ → Prop} (h : LogReflects P A) (hP : Lenient P) :
    AccessReflects A :=
  fun s _ e he hA => h.of_event s _ e (hP e he) rfl hA

/-- A run whose events have `P` keeps `Since P`, whether it returns or not. -/
theorem logReflects_not_since (P : Event κ → Prop) (s : Machine κ) :
    LogReflects P fun t => ¬ Since P s t where
  of_log t u hlog hnot := by
    rintro ⟨es, hes, hP⟩
    exact hnot ⟨es, hlog.trans hes, hP⟩
  of_event _ _ _ he hlog hnot := fun hsince => hnot (hsince.snoc he hlog)

/-- The log of the end, as an extension of the log here. -/
def Extends (log : List (Event κ)) (s : Machine κ) : Prop :=
  ∃ es, log = s.log ++ es

theorem logReflects_extends (log : List (Event κ)) :
    LogReflects (fun _ => True) (Extends log) where
  of_log s t hlog := by
    rintro ⟨es, hes⟩
    exact ⟨es, hlog ▸ hes⟩
  of_event s t e _ hlog := by
    rintro ⟨es, hes⟩
    exact ⟨e :: es, by rw [hes, hlog, List.append_assoc]; rfl⟩

/-! ### Assuming a bound at the end of a run -/

/-- All events after the first `n` have `P`. -/
def After (P : Event κ → Prop) (n : ℕ) (t : Machine κ) : Prop :=
  ∀ e ∈ t.log.drop n, P e

theorem Since.after (h : Since P s t) : After P s.log.length t := by
  obtain ⟨es, hlog, hes⟩ := h
  rw [After, hlog, List.drop_left]
  exact hes

theorem accessReflects_after (P : Event κ → Prop) (n : ℕ) : AccessReflects (After P n) := by
  intro s m e _ h f hf
  refine h f ?_
  rw [List.drop_append]
  exact List.mem_append_left _ hf

theorem After.of_snoc {e : Event κ} {n : ℕ} (h : After P n t) (hlog : t.log = s.log ++ [e])
    (hn : n ≤ s.log.length) : P e := by
  refine h e ?_
  rw [hlog, List.drop_append_of_le_length hn]
  exact List.mem_append_right _ (List.mem_singleton.mpr rfl)

end Exec
