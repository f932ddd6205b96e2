import Ciabatta.Digits

/-!
The print functions of `loader.h`. The state is what was passed to the write calls,
oldest first; their results are not looked at. A string is given by the bytes from
its pointer to the end of the object that it is in.
-/

namespace Ciabatta.Loader

open ByteMemory Exec

abbrev PrintM := EStateM Stop (List (List Byte))

/-- `sys_write(STDOUT_FILENO, str, len)` -/
def printStringN (str : List Byte) (len : ℕ) : PrintM Unit := fun chunks =>
  .ok () (chunks ++ [str.take len])

def printChar (c : Byte) : PrintM Unit :=
  printStringN [c] 1

def printStringRound (str : List Byte) (strLen : ℕ) : PrintM (ℕ ⊕ ℕ) := do
  let c ← (if h : strLen < str.length then pure (str.get ⟨strLen, h⟩) else throw .overread)
  if c ≠ 0 then do
    let strLen ← incrementInt strLen
    return .inl strLen
  else
    return .inr strLen

def printString (str : List Byte) : PrintM Unit := do
  let strLen ← loop (printStringRound str) (str.length + 1) 0
  printStringN str strLen

/-- The negation is modulo `2 ^ 64`. -/
def printInt (number : Word) : PrintM Unit := do
  (if number.toInt < 0 then printChar (byteOf '-') else pure ())
  let p ← intDigits (if number.toInt < 0 then -number else number)
  printString p

def printUint (number : Word) : PrintM Unit := do
  let p ← uintDigits number
  printString p

def printHex (number : Word) : PrintM Unit := do
  printString [byteOf '0', byteOf 'x', 0]
  let p ← hexDigitLoop number
  printString p

/-! ### Strings -/

variable {text : List Byte} {strLen : ℕ}

/-- A round of the loop that counts the characters. -/
theorem yields_printStringRound (hnul : 0 ∉ text) (hlen : text.length < 2 ^ 31)
    (hle : strLen ≤ text.length) (chunks : List (List Byte)) :
    Yields (printStringRound (text ++ [0]) strLen) chunks fun r t => t = chunks ∧
      r = if strLen < text.length then .inl (strLen + 1) else .inr text.length := by
  have hlt : strLen < (text ++ [0]).length := by
    rw [List.length_append]
    exact Nat.lt_succ_of_le hle
  rw [printStringRound, dif_pos hlt, pure_bind, List.get_eq_getElem]
  rcases hle.lt_or_eq with hinside | rfl
  · have hne : text[strLen] ≠ 0 := ne_of_mem_of_not_mem (List.getElem_mem hinside) hnul
    rw [List.getElem_append_left hinside, if_pos hne, if_pos hinside, incrementInt,
      if_pos (by omega)]
    exact yields_pure ⟨rfl, rfl⟩
  · rw [List.getElem_concat_length rfl, if_neg (not_not_intro rfl), if_neg (lt_irrefl _)]
    exact yields_pure ⟨rfl, rfl⟩

/-- A string is printed up to its terminator. -/
theorem printString_eq (hnul : 0 ∉ text) (hlen : text.length < 2 ^ 31) (chunks : List (List Byte)) :
    printString (text ++ [0]) chunks = .ok () (chunks ++ [text]) := by
  have hcount : Yields (loop (printStringRound (text ++ [0])) ((text ++ [0]).length + 1) 0) chunks
      fun strLen t => strLen = text.length ∧ t = chunks := by
    refine yields_loop (fun strLen t => strLen ≤ text.length ∧ t = chunks)
      (fun strLen => text.length - strLen) ?_ ⟨Nat.zero_le _, rfl⟩ ?_
    · rintro strLen t ⟨hle, rfl⟩
      refine (yields_printStringRound hnul hlen hle t).mono ?_
      rintro r u ⟨rfl, rfl⟩
      split_ifs with hlt
      · exact ⟨⟨hlt, rfl⟩, by omega⟩
      · exact ⟨rfl, rfl⟩
    · rw [List.length_append]
      omega
  obtain ⟨_, _, hloop, rfl, rfl⟩ := hcount
  rw [printString, bind_of_ok hloop, printStringN, List.take_left]

end Ciabatta.Loader
