import Mathlib.Data.List.TakeWhile
import Ciabatta.StdlibFile.Fmt

/-!
Formats as a list of tokens. Every string is scanned into literal runs and
directives, and the loop of `printf` goes through these tokens, whether the format
is well formed or not.
-/

namespace Ciabatta.StdlibFile

open ByteMemory Exec

inductive IntSize
  | plain
  | i32
  | i64
  deriving DecidableEq

def IntSize.bytes : IntSize → List Byte
  | .plain => []
  | .i32 => [byteOf 'I', byteOf '3', byteOf '2']
  | .i64 => [byteOf 'I', byteOf '6', byteOf '4']

def IntSize.bits : IntSize → ℕ
  | .i64 => 64
  | _ => 32

inductive Token
  | literal (bytes : List Byte)
  | directive (size : IntSize) (letter : Byte)
  /-- The format ends where the letter of the directive should stand. -/
  | cut
  /-- An `I` that is not followed by `32` or `64`. -/
  | malformed
  deriving DecidableEq

/-! ### The scanner -/

/-- The size prefix at the start of `bytes`, and what follows it. -/
def scanSize (bytes : List Byte) : Option (IntSize × List Byte) :=
  if bytes.headD 0 = byteOf 'I' then
    if bytes.take 3 = IntSize.i32.bytes then some (.i32, bytes.drop 3)
    else if bytes.take 3 = IntSize.i64.bytes then some (.i64, bytes.drop 3)
    else none
  else some (.plain, bytes)

/-- The tokens of `bytes`; the fuel is more than its length. -/
def scan : ℕ → List Byte → List Token
  | 0, _ => []
  | fuel + 1, bytes =>
      .literal (bytes.takeWhile (· ≠ byteOf '%')) ::
        match bytes.dropWhile (· ≠ byteOf '%') with
        | [] => []
        | _ :: bytes =>
            match scanSize bytes with
            | none => [.malformed]
            | some (_, []) => [.cut]
            | some (size, letter :: bytes) => .directive size letter :: scan fuel bytes

def CString.tokens (fmt : CString) : List Token := scan (fmt.bytes.length + 1) fmt.bytes

/-! ### `printf` on tokens -/

def putLiteralBytes (bytes : List Byte) (retPrinted : ℤ) : StdioM (Option ℤ) :=
  if bytes.length ≠ 0 then do
    let status ← rtFileWrite bytes
    if status ≠ rtStatusOk then
      return none
    else
      return some (retPrinted + bytes.length)
  else
    return some retPrinted

def putConversion (size : IntSize) (letter : Byte) (retPrinted : ℤ) : StdioM (Option ℤ) := do
  match ← convert letter size.bits with
  | none => return none
  | some argChars => do
      let argChars ← readArgChars argChars
      if argChars < 0 then
        return none
      else
        return some (retPrinted + argChars)

/-- The loop of `printf` as it goes through the tokens of the format. Behind a
directive that is cut off, the index is behind the NUL. -/
def putTokens (tokens : List Token) (retPrinted : ℤ) : StdioM (Option ℤ) :=
  match tokens with
  | [] => return some retPrinted
  | .literal bytes :: tokens => do
      match ← putLiteralBytes bytes retPrinted with
      | none => return none
      | some retPrinted => putTokens tokens retPrinted
  | .directive size letter :: tokens => do
      match ← putConversion size letter retPrinted with
      | none => return none
      | some retPrinted => putTokens tokens retPrinted
  | .cut :: _ => do
      match ← putConversion .plain 0 retPrinted with
      | none => return none
      | some _ => throw .overread
  | .malformed :: _ => return none

variable {fmt : CString} {pre bytes rest : List Byte} {i : ℕ} {retPrinted : ℤ}

/-! ### The bytes of the format -/

theorem CString.get_append (h : fmt.bytes = pre ++ rest) (hi : i = pre.length) :
    fmt.get i = pure (rest.headD 0) := by
  rw [CString.get, h, hi, if_pos (by rw [List.length_append]; omega)]
  cases rest <;> simp

theorem CString.get_cons {c : Byte} (h : fmt.bytes = pre ++ c :: rest) (hi : i = pre.length) :
    fmt.get i = pure c ∧ fmt.bytes = (pre ++ [c]) ++ rest ∧ i + 1 = (pre ++ [c]).length :=
  ⟨CString.get_append h hi, by rw [h, List.append_assoc]; rfl,
    by rw [hi, List.length_append, List.length_singleton]⟩

/-- A NUL is neither of the two bytes, so that the end of the format stops the
comparison. -/
theorem CString.holds_eq {a b : Char} (ha : byteOf a ≠ 0) (hb : byteOf b ≠ 0)
    (h : fmt.bytes = pre ++ rest) (hi : i = pre.length) :
    fmt.holds i a b = pure (decide (rest.take 2 = [byteOf a, byteOf b])) := by
  rw [CString.holds, CString.get_append h hi, pure_bind]
  cases rest with
  | nil =>
      rw [List.headD_nil, if_neg ha.symm]
      rfl
  | cons c rest =>
      obtain ⟨-, hnext, hi'⟩ := CString.get_cons h hi
      rw [List.headD_cons, CString.get_append hnext hi', pure_bind]
      by_cases hc : c = byteOf a
      · cases rest with
        | nil =>
            have hshort : [c].take 2 ≠ [byteOf a, byteOf b] := by simp
            rw [if_pos hc, List.headD_nil, decide_eq_false hb.symm, decide_eq_false hshort]
        | cons d rest => simp [hc]
      · simp [hc]

theorem readIntArgSize_eq (h : fmt.bytes = pre ++ rest) (hi : i = pre.length) :
    readIntArgSize fmt i =
      pure ((scanSize rest).map fun r => (i + r.1.bytes.length, r.1.bits)) := by
  rw [readIntArgSize, CString.get_append h hi, pure_bind, scanSize]
  by_cases hI : rest.headD 0 = byteOf 'I'
  · cases rest with
    | nil => exact absurd hI (by decide)
    | cons c rest =>
        have hc : c = byteOf 'I' := hI
        obtain ⟨-, hnext, hi'⟩ := CString.get_cons h hi
        have htake : ∀ two, (c :: rest).take 3 = byteOf 'I' :: two ↔ rest.take 2 = two := by
          intro two
          rw [List.take_succ_cons, hc, List.cons_eq_cons, and_iff_right rfl]
        have htake32 : (c :: rest).take 3 = IntSize.i32.bytes ↔ _ := htake _
        have htake64 : (c :: rest).take 3 = IntSize.i64.bytes ↔ _ := htake _
        rw [if_pos hI, if_pos hI, CString.holds_eq (by decide) (by decide) hnext hi', pure_bind]
        by_cases h32 : rest.take 2 = [byteOf '3', byteOf '2']
        · rw [if_pos (decide_eq_true h32), if_pos (htake32.2 h32)]
          rfl
        · rw [if_neg (by simpa using h32), if_neg (mt htake32.1 h32),
            CString.holds_eq (by decide) (by decide) hnext hi', pure_bind]
          by_cases h64 : rest.take 2 = [byteOf '6', byteOf '4']
          · rw [if_pos (decide_eq_true h64), if_pos (htake64.2 h64)]
            rfl
          · rw [if_neg (by simpa using h64), if_neg (mt htake64.1 h64)]
            rfl
  · rw [if_neg hI, if_neg hI]
    rfl

theorem eq_of_scanSize {size : IntSize} (h : scanSize bytes = some (size, rest)) :
    bytes = size.bytes ++ rest := by
  rw [scanSize] at h
  split_ifs at h with hI h32 h64 <;> cases h
  · rw [← h32, List.take_append_drop]
  · rw [← h64, List.take_append_drop]
  · rfl

/-! ### Literal runs -/

theorem literalLoop_eq {literal : List Byte} {fuel : ℕ}
    (hplain : ∀ b ∈ literal, b ≠ byteOf '%' ∧ b ≠ 0)
    (h : fmt.bytes = pre ++ (literal ++ rest))
    (hrest : rest.headD 0 = byteOf '%' ∨ rest.headD 0 = 0) (hfuel : literal.length < fuel) :
    loop (literalRound fmt) fuel pre.length = pure (pre.length + literal.length) := by
  induction literal generalizing pre fuel with
  | nil =>
      obtain ⟨fuel, rfl⟩ := Nat.exists_eq_succ_of_ne_zero (Nat.ne_of_gt hfuel)
      -- behind the literal stands a percent sign or the end of the format
      have hstop : ¬ (rest.headD 0 ≠ byteOf '%' ∧ rest.headD 0 ≠ 0) := by tauto
      rw [loop, literalRound, CString.get_append h rfl, pure_bind, List.nil_append, if_neg hstop,
        pure_bind]
      rfl
  | cons b literal ih =>
      rw [List.length_cons] at hfuel
      obtain ⟨fuel, rfl⟩ := Nat.exists_eq_succ_of_ne_zero (Nat.ne_of_gt (by omega : 0 < fuel))
      have hgo : b ≠ byteOf '%' ∧ b ≠ 0 := hplain b List.mem_cons_self
      obtain ⟨hget, hnext, hlen⟩ := CString.get_cons h rfl
      have hrec := ih (fun c hc => hplain c (List.mem_cons_of_mem _ hc)) hnext
        (Nat.lt_of_succ_lt_succ hfuel)
      rw [← hlen, Nat.add_assoc, Nat.add_comm 1] at hrec
      rw [loop, literalRound, hget, pure_bind, if_pos hgo, pure_bind]
      exact hrec

theorem printLiteral_eq {literal : List Byte} (hplain : ∀ b ∈ literal, b ≠ byteOf '%' ∧ b ≠ 0)
    (h : fmt.bytes = pre ++ (literal ++ rest))
    (hrest : rest.headD 0 = byteOf '%' ∨ rest.headD 0 = 0) :
    printLiteral fmt pre.length retPrinted = putLiteralBytes literal retPrinted >>= fun r =>
      pure (r.map fun retPrinted => (pre.length + literal.length, retPrinted)) := by
  have hfuel : literal.length < fmt.bytes.length + 1 := by
    rw [h, List.length_append, List.length_append]
    omega
  have hdata : (fmt.bytes.drop pre.length).take literal.length = literal := by
    rw [h, List.drop_left, List.take_left]
  rw [printLiteral, literalLoop_eq hplain h hrest hfuel, pure_bind, putLiteralBytes]
  simp only [Nat.add_sub_cancel_left, hdata]
  split_ifs with hlen
  · rw [bind_assoc]
    congr 1
    funext status
    split_ifs <;> rw [pure_bind] <;> rfl
  · rw [pure_bind]
    rfl

/-- The bytes up to the next percent sign, and the rest. -/
theorem takeWhile_plain (h : fmt.bytes = pre ++ bytes) :
    ∀ b ∈ bytes.takeWhile (· ≠ byteOf '%'), b ≠ byteOf '%' ∧ b ≠ 0 := by
  intro b hb
  refine ⟨by simpa using List.mem_takeWhile_imp hb, ?_⟩
  rintro rfl
  have hmem : (0 : Byte) ∈ bytes := (List.takeWhile_sublist _).subset hb
  exact fmt.noNul (h ▸ List.mem_append_right pre hmem)

theorem dropWhile_eq (bytes : List Byte) : bytes.dropWhile (· ≠ byteOf '%') = [] ∨
    ∃ rest, bytes.dropWhile (· ≠ byteOf '%') = byteOf '%' :: rest := by
  cases hdrop : bytes.dropWhile (· ≠ byteOf '%') with
  | nil => exact .inl rfl
  | cons c rest =>
      have hne : bytes.dropWhile (· ≠ byteOf '%') ≠ [] := by
        rw [hdrop]
        exact List.cons_ne_nil _ _
      have hc := List.head_dropWhile_not (· ≠ byteOf '%') hne
      simp only [hdrop, List.head_cons] at hc
      exact .inr ⟨rest, by rw [of_not_not (of_decide_eq_false hc)]⟩

/-! ### Directives -/

theorem printDirective_malformed (h : fmt.bytes = pre ++ byteOf '%' :: bytes)
    (hi : i = pre.length) (hsize : scanSize bytes = none) :
    printDirective fmt i retPrinted = pure none := by
  obtain ⟨-, hnext, hi'⟩ := CString.get_cons h hi
  rw [printDirective, readIntArgSize_eq hnext hi', hsize, pure_bind]
  rfl

/-- At the end of the format, the NUL is taken for the letter. -/
theorem printDirective_eq {size : IntSize} (h : fmt.bytes = pre ++ byteOf '%' :: bytes)
    (hi : i = pre.length) (hsize : scanSize bytes = some (size, rest)) :
    printDirective fmt i retPrinted = putConversion size (rest.headD 0) retPrinted >>= fun r =>
      pure (r.map fun retPrinted => (i + 1 + size.bytes.length + 1, retPrinted)) := by
  obtain ⟨-, hnext, hi'⟩ := CString.get_cons h hi
  have hletter : fmt.bytes = (pre ++ [byteOf '%'] ++ size.bytes) ++ rest := by
    rw [hnext, eq_of_scanSize hsize, List.append_assoc _ size.bytes]
  have hlen : i + 1 + size.bytes.length = (pre ++ [byteOf '%'] ++ size.bytes).length := by
    rw [List.length_append, hi']
  rw [printDirective, readIntArgSize_eq hnext hi', hsize, pure_bind]
  dsimp only [Option.map_some]
  rw [CString.get_append hletter hlen, pure_bind, putConversion, bind_assoc]
  congr 1
  funext r
  cases r with
  | none => rw [pure_bind]; rfl
  | some argChars =>
      dsimp only
      rw [bind_assoc]
      congr 1
      funext argChars
      split_ifs <;> rw [pure_bind] <;> rfl

/-! ### The loop -/

/-- Where the format goes on behind a literal run. -/
theorem behind_literal {literal : List Byte} (h : fmt.bytes = pre ++ (literal ++ rest))
    (hi : i = pre.length) :
    fmt.bytes = (pre ++ literal) ++ rest ∧ i + literal.length = (pre ++ literal).length := by
  rw [h, hi, List.append_assoc, List.length_append]
  exact ⟨rfl, rfl⟩

/-- A round of the loop, which is not at the end of the format. -/
theorem printfRound_eq (retPrinted : ℤ) {literal : List Byte}
    (hplain : ∀ b ∈ literal, b ≠ byteOf '%' ∧ b ≠ 0)
    (h : fmt.bytes = pre ++ (literal ++ rest)) (hi : i = pre.length)
    (hne : literal ++ rest ≠ []) (hrest : rest = [] ∨ ∃ bytes, rest = byteOf '%' :: bytes) :
    printfRound fmt (i, retPrinted) = (do
      match ← putLiteralBytes literal retPrinted with
      | none => return .inr none
      | some retPrinted =>
          if rest = [] then
            return .inr (some retPrinted)
          else do
            match ← printDirective fmt (i + literal.length) retPrinted with
            | none => return .inr none
            | some b => return .inl b) := by
  obtain ⟨hbehind, hlen⟩ := behind_literal h hi
  have hfirst : (literal ++ rest).headD 0 ≠ 0 := by
    cases hbytes : literal ++ rest with
    | nil => exact absurd hbytes hne
    | cons c bytes =>
        rintro rfl
        exact fmt.noNul (h ▸ hbytes ▸ List.mem_append_right pre List.mem_cons_self)
  have hend : rest.headD 0 = byteOf '%' ∨ rest.headD 0 = 0 := by
    rcases hrest with rfl | ⟨bytes, rfl⟩
    · exact .inr rfl
    · exact .inl rfl
  rw [printfRound, CString.get_append h hi, pure_bind, if_neg hfirst, hi,
    printLiteral_eq hplain h hend, bind_assoc, ← hi]
  congr 1
  funext r
  cases r with
  | none => rw [pure_bind]; rfl
  | some retPrinted =>
      rw [pure_bind]
      dsimp only [Option.map_some]
      rw [CString.get_append hbehind hlen, pure_bind]
      rcases hrest with rfl | ⟨bytes, rfl⟩
      · rw [if_pos rfl]
        rfl
      · rw [if_neg (List.cons_ne_nil _ _), List.headD_cons, if_neg (by decide)]
        congr 1
        funext r
        cases r <;> rfl

theorem putLiteralBytes_nil (retPrinted : ℤ) :
    putLiteralBytes [] retPrinted = pure (some retPrinted) := by
  rw [putLiteralBytes, if_neg (by decide)]

/-- The loop where no directive is left. -/
theorem loop_last {literal : List Byte} {fuel : ℕ}
    (hplain : ∀ b ∈ literal, b ≠ byteOf '%' ∧ b ≠ 0) (h : fmt.bytes = pre ++ (literal ++ []))
    (hi : i = pre.length) :
    loop (printfRound fmt) (fuel + 1) (i, retPrinted) = do
      match ← putLiteralBytes literal retPrinted with
      | none => return none
      | some retPrinted => return some retPrinted := by
  by_cases hne : literal = []
  · rw [hne, List.append_nil] at h
    rw [loop, hne, putLiteralBytes_nil, pure_bind, printfRound, CString.get_append h hi, pure_bind,
      List.headD_nil, if_pos rfl, pure_bind]
  · rw [loop, printfRound_eq retPrinted hplain h hi (by rwa [List.append_nil]) (.inl rfl),
      bind_assoc]
    congr 1
    funext r
    cases r <;> exact pure_bind _ _

/-- The loop at a literal run with a directive behind it. -/
theorem loop_percent {literal : List Byte} {fuel : ℕ}
    (hplain : ∀ b ∈ literal, b ≠ byteOf '%' ∧ b ≠ 0)
    (h : fmt.bytes = pre ++ (literal ++ byteOf '%' :: bytes)) (hi : i = pre.length) :
    loop (printfRound fmt) (fuel + 1) (i, retPrinted) = (do
      match ← putLiteralBytes literal retPrinted with
      | none => return none
      | some retPrinted => do
          match ← printDirective fmt (i + literal.length) retPrinted with
          | none => return none
          | some b => loop (printfRound fmt) fuel b) := by
  rw [loop, printfRound_eq retPrinted hplain h hi (by simp) (.inr ⟨bytes, rfl⟩), bind_assoc]
  refine bind_option_congr (pure_bind _ _) fun retPrinted => ?_
  dsimp only
  rw [if_neg (List.cons_ne_nil _ _), bind_assoc]
  congr 1
  funext r
  cases r <;> exact pure_bind _ _

theorem loop_malformed {literal : List Byte} {fuel : ℕ}
    (hplain : ∀ b ∈ literal, b ≠ byteOf '%' ∧ b ≠ 0)
    (h : fmt.bytes = pre ++ (literal ++ byteOf '%' :: bytes)) (hi : i = pre.length)
    (hsize : scanSize bytes = none) :
    loop (printfRound fmt) (fuel + 1) (i, retPrinted) = do
      match ← putLiteralBytes literal retPrinted with
      | none => return none
      | some _ => return none := by
  obtain ⟨hbehind, hlen⟩ := behind_literal h hi
  rw [loop_percent hplain h hi]
  refine bind_option_congr rfl fun retPrinted => ?_
  dsimp only
  rw [printDirective_malformed hbehind hlen hsize, pure_bind]

theorem loop_directive {literal : List Byte} {size : IntSize} {fuel : ℕ}
    (hplain : ∀ b ∈ literal, b ≠ byteOf '%' ∧ b ≠ 0)
    (h : fmt.bytes = pre ++ (literal ++ byteOf '%' :: bytes)) (hi : i = pre.length)
    (hsize : scanSize bytes = some (size, rest)) :
    loop (printfRound fmt) (fuel + 1) (i, retPrinted) = (do
      match ← putLiteralBytes literal retPrinted with
      | none => return none
      | some retPrinted => do
          match ← putConversion size (rest.headD 0) retPrinted with
          | none => return none
          | some retPrinted =>
              loop (printfRound fmt) fuel
                (i + literal.length + 1 + size.bytes.length + 1, retPrinted)) := by
  obtain ⟨hbehind, hlen⟩ := behind_literal h hi
  rw [loop_percent hplain h hi]
  refine bind_option_congr rfl fun retPrinted => ?_
  dsimp only
  rw [printDirective_eq hbehind hlen hsize, bind_assoc]
  congr 1
  funext r
  rw [pure_bind]
  cases r <;> rfl

/-- Behind the NUL of the format. -/
theorem loop_behind {fuel : ℕ} (hi : fmt.bytes.length < i) (hfuel : 0 < fuel) :
    loop (printfRound fmt) fuel (i, retPrinted) = throw .overread := by
  obtain ⟨fuel, rfl⟩ := Nat.exists_eq_succ_of_ne_zero (Nat.ne_of_gt hfuel)
  rw [loop, printfRound, CString.get, if_neg (Nat.not_le_of_gt hi)]
  rfl

/-- Where the format ends in a directive, the size does not matter. -/
theorem putConversion_nul (size : IntSize) (retPrinted : ℤ) :
    putConversion size 0 retPrinted = putConversion .plain 0 retPrinted := rfl

/-- The loop goes through the tokens of what is left of the format. -/
theorem printfLoop_eq {fuel scanFuel : ℕ} (h : fmt.bytes = pre ++ bytes) (hi : i = pre.length)
    (hfuel : bytes.length < fuel) (hscan : bytes.length < scanFuel) :
    loop (printfRound fmt) fuel (i, retPrinted) = putTokens (scan scanFuel bytes) retPrinted := by
  -- a round takes a literal run and a directive; `pre` is what the rounds before took
  induction scanFuel generalizing pre bytes i fuel retPrinted with
  | zero => omega
  | succ scanFuel ih =>
      obtain ⟨fuel, rfl⟩ := Nat.exists_eq_succ_of_ne_zero (Nat.ne_of_gt (by omega : 0 < fuel))
      have hplain := takeWhile_plain h
      have hsplit := List.takeWhile_append_dropWhile (p := (· ≠ byteOf '%')) (l := bytes)
      rw [scan, putTokens]
      generalize bytes.takeWhile (· ≠ byteOf '%') = literal at hplain hsplit
      rcases dropWhile_eq bytes with hdrop | ⟨bytes', hdrop⟩ <;> rw [hdrop] at hsplit ⊢ <;>
        subst hsplit
      · rw [loop_last hplain h hi]
        rfl
      rw [List.length_append, List.length_cons] at hfuel hscan
      cases hsize : scanSize bytes' with
      | none =>
          rw [loop_malformed hplain h hi hsize]
          refine bind_option_congr rfl fun retPrinted => ?_
          dsimp only
          rw [hsize]
          rfl
      | some r =>
          obtain ⟨size, rest⟩ := r
          obtain rfl := eq_of_scanSize hsize
          rw [List.length_append] at hfuel hscan
          rw [loop_directive hplain h hi hsize]
          refine bind_option_congr rfl fun retPrinted => ?_
          dsimp only
          rw [hsize]
          cases rest with
          | nil =>
              -- the index is behind the NUL then
              have hbehind :
                  fmt.bytes.length < i + literal.length + 1 + size.bytes.length + 1 := by
                rw [h, hi]
                simp only [List.length_append, List.length_cons, List.length_nil]
                omega
              have hpos : 0 < fuel := by omega
              rw [List.headD_nil, putConversion_nul, putTokens]
              exact bind_option_congr rfl fun _ => loop_behind hbehind hpos
          | cons letter rest =>
              have hnext : fmt.bytes =
                  (pre ++ literal ++ [byteOf '%'] ++ size.bytes ++ [letter]) ++ rest := by
                rw [h]
                simp
              have hlen : i + literal.length + 1 + size.bytes.length + 1 =
                  (pre ++ literal ++ [byteOf '%'] ++ size.bytes ++ [letter]).length := by
                rw [hi]
                simp only [List.length_append, List.length_singleton]
              rw [List.length_cons] at hfuel hscan
              rw [List.headD_cons, putTokens]
              exact bind_option_congr rfl fun _ => ih hnext hlen (by omega) (by omega)

theorem printf_eq_putTokens (fmt : CString) (args : List Arg) : printf fmt args = (do
    vaStart args
    lock
    let result ← putTokens fmt.tokens 0
    finish result) := by
  have hloop : loop (printfRound fmt) (fmt.bytes.length + 1) (0, 0) = putTokens fmt.tokens 0 :=
    printfLoop_eq (List.nil_append _).symm rfl (Nat.lt_succ_self _) (Nat.lt_succ_self _)
  rw [printf, hloop]

end Ciabatta.StdlibFile
