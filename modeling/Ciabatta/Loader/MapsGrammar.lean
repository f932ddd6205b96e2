import Mathlib.Data.ENat.Basic
import Ciabatta.Loader.ReadEvents

/-!
The lines of a maps file on the tape, as the parser of `stack.c` takes them. A position
is a number of calls of `read_char`; the grammar has no buffer, no counter of rounds and
no fuel.
-/

namespace Ciabatta.Loader.MapsGrammar

open ByteMemory Exec

/-- What keeps a line from its end. -/
inductive Trouble
  | fullRead
  /-- A name that fills `name_buf`. -/
  | longName
  /-- More digits than an `int` counts. -/
  | manyDigits
  | endlessSpaces
  deriving DecidableEq

def Trouble.stop : Trouble → Stop
  | .fullRead => .outOfBounds
  | .longName => .outOfBounds
  | .manyDigits => .signedOverflow
  | .endlessSpaces => .outOfFuel

/-- What a line is that ends the reading. -/
inductive Verdict
  | stack
  | fileEnd
  | malformed
  deriving DecidableEq

/-- What the parser returns there. -/
def Verdict.result : Verdict → ℤ
  | .stack => 0
  | .fileEnd => 1
  | .malformed => -1

abbrev Reading (α : Type) := StateT ℕ (Except Trouble) α

def IsHex (ch : ℤ) : Prop := charIsHex ch = true

def IsDec (ch : ℤ) : Prop := chr '0' ≤ ch ∧ ch ≤ chr '9'

def IsSpace (ch : ℤ) : Prop := ch = chr ' '

def EndsLine (ch : ℤ) : Prop := ch = chr '\n' ∨ ch = -1

instance : DecidablePred IsHex := fun ch => inferInstanceAs (Decidable (charIsHex ch = true))

instance : DecidablePred IsDec := fun _ => inferInstanceAs (Decidable (_ ∧ _))

instance : DecidablePred EndsLine := fun _ => inferInstanceAs (Decidable (_ ∨ _))

variable (T : Stream' ReadEvent)

/-- The character at the position. -/
def here : Reading ℤ := fun k => .ok (charAt T k, k)

/-- The next position, with what the call that goes there returns. -/
def next : Reading ℤ := fun k =>
  if T.get k = .full then .error .fullRead else .ok ((T.get k).returned, k + 1)

/-- At the position a run of characters with `p` goes on. -/
def GoesOn (p : ℤ → Prop) (k : ℕ) : Prop := p (charAt T k) ∧ T.get k ≠ .full

open Classical in
/-- The longest run of characters with `p`, and its length, which is less than `limit`. -/
noncomputable def run (p : ℤ → Prop) (limit : ℕ∞) (trouble : Trouble) : Reading ℕ := fun k =>
  if h : ∃ n : ℕ, n < limit ∧ ¬ GoesOn T p (k + n) then
    if p (charAt T (k + Nat.find h)) then .error .fullRead
    else .ok (Nat.find h, k + Nat.find h)
  else .error trouble

/-- At least one character with `p`. -/
noncomputable def number (p : ℤ → Prop) : Reading Bool := do
  let digits ← run T p (2 ^ 31 : ℕ) .manyDigits
  return digits ≠ 0

def sees (c : Char) : Reading Bool := do
  let ch ← here T
  return ch = chr c

/-- The next character is there. -/
def present : Reading Bool := do
  let ch ← next T
  return 0 ≤ ch

def skip : ℕ → Reading Unit
  | 0 => return ()
  | n + 1 => do
      let _ ← next T
      skip n

/-- Whether the two addresses are there. -/
noncomputable def addrs : Reading Bool :=
  number T IsHex <&&> sees T '-' <&&> present T <&&> number T IsHex <&&> present T

/-- With the flags, the offset, the device and the inode. -/
noncomputable def mapping : Reading Bool :=
  addrs T <&&> do
    skip T 4
    skip T 16
    number T IsDec

/-- The name; one of seven bytes is taken for the stack. -/
noncomputable def name : Reading (Option Verdict) := do
  let ch ← here T
  if EndsLine ch then
    return none
  else do
    let _ ← run T IsSpace ⊤ .endlessSpaces
    let length ← run T (¬ EndsLine ·) nameBufSize .longName
    return if length = 7 then some .stack else none

/-- The newline of the line before. -/
def newline : Reading Unit := do
  let ch ← here T
  if ch = chr '\n' then do
    let _ ← next T
    return ()
  else
    return ()

/-- A line, up to the next one if it does not end the reading. -/
noncomputable def line : Reading (Option Verdict) := do
  let ch ← here T
  if ch = -1 then
    return some .fileEnd
  else do
    newline T
    if ← mapping T then name T else return some .malformed

/-- The positions where the lines begin that the parser comes to. -/
inductive Reached : ℕ → Prop
  | first : 0 ≤ (T.get 0).returned → Reached 1
  | next {k j : ℕ} : Reached k → line T k = .ok (none, j) → Reached j

variable {T} {p : ℤ → Prop} {limit : ℕ∞} {trouble : Trouble} {k : ℕ}

/-- A run ends before its limit, or at a read that fills the buffer, or comes to the
limit. -/
theorem run_cases (T : Stream' ReadEvent) (p : ℤ → Prop) (limit : ℕ∞) (trouble : Trouble)
    (k : ℕ) :
    (∃ n : ℕ, n < limit ∧ (∀ m < n, GoesOn T p (k + m)) ∧
      (¬ p (charAt T (k + n)) ∧ run T p limit trouble k = .ok (n, k + n) ∨
      p (charAt T (k + n)) ∧ T.get (k + n) = .full ∧
        run T p limit trouble k = .error .fullRead)) ∨
    (∀ n : ℕ, n < limit → GoesOn T p (k + n)) ∧ run T p limit trouble k = .error trouble := by
  classical
  by_cases h : ∃ n : ℕ, n < limit ∧ ¬ GoesOn T p (k + n)
  · obtain ⟨hlimit, hends⟩ := Nat.find_spec h
    refine .inl ⟨Nat.find h, hlimit, fun m hm => ?_, ?_⟩
    · have hmlimit : (m : ℕ∞) < limit := (Nat.cast_lt.mpr hm).trans hlimit
      exact not_not.mp fun hnot => Nat.find_min h hm ⟨hmlimit, hnot⟩
    · by_cases hp : p (charAt T (k + Nat.find h))
      · refine .inr ⟨hp, not_not.mp fun hfull => hends ⟨hp, hfull⟩, ?_⟩
        rw [run, dif_pos h, if_pos hp]
      · refine .inl ⟨hp, ?_⟩
        rw [run, dif_pos h, if_neg hp]
  · refine .inr ⟨fun n hn => not_not.mp fun hnot => h ⟨n, hn, hnot⟩, ?_⟩
    rw [run, dif_neg h]

end Ciabatta.Loader.MapsGrammar
