import Ciabatta.Lib.Footprint
import Ciabatta.Lib.Settles
import Mathlib.Order.Compare

/-!
`_wcsicmp` (`os/windows/cia-init.c`). The loop moves neither of its pointers, so that it
looks at the first characters only: it ends if one of them is the terminator or if the two
differ, and then the case of a letter counts.
-/

namespace Ciabatta.Os

open ByteMemory Exec

variable {κ : Type}

/-- `*s1 != 0 && *s2 != 0`, and the body of the loop: the difference that it returns. -/
def wcsicmpRound (s1 s2 : Word) (_ : Unit) : Exec κ (Unit ⊕ Option ℤ) := do
  let c1 ← loadShort s1
  if c1 ≠ 0 then do
    let c2 ← loadShort s2
    if c2 ≠ 0 then do
      let c1 ← loadShort s1
      let c2 ← loadShort s2
      if c1 ≠ c2 then do
        let c1 ← loadShort s1
        let c2 ← loadShort s2
        return .inr (some (c1.toNat - c2.toNat))
      else
        return .inl ()
    else
      return .inr none
  else
    return .inr none

/-- `*s1 == 0 && *s2 != 0` -/
def endsFirst (s1 s2 : Word) : Exec κ Bool := do
  let c1 ← loadShort s1
  if c1 = 0 then do
    let c2 ← loadShort s2
    return c2 ≠ 0
  else
    return false

/-- `*s1 != 0 && *s2 == 0` -/
def endsSecond (s1 s2 : Word) : Exec κ Bool := do
  let c1 ← loadShort s1
  if c1 ≠ 0 then do
    let c2 ← loadShort s2
    return c2 = 0
  else
    return false

/-- With at most `rounds` comparisons. -/
def wcsicmp (rounds : ℕ) (s1 s2 : Word) : Exec κ ℤ := do
  match ← loop (wcsicmpRound s1 s2) rounds () with
  | some difference => return difference
  | none => do
      if ← endsFirst s1 s2 then
        return -1
      else do
        if ← endsSecond s1 s2 then
          return 1
        else
          return 0

/-! ### Strings of 16-bit characters -/

/-- The string `str` stands in memory from `p` up, with its terminator. -/
structure WideStringAt (m : Mem) (p : Word) (str : List (BitVec 16)) : Prop where
  char : ∀ i c, str[i]? = some c → load16 m (p + BitVec.ofNat 64 (2 * i)) = c
  nul : load16 m (p + BitVec.ofNat 64 (2 * str.length)) = 0
  ne : ∀ c ∈ str, c ≠ 0

/-- The bytes of a string, up to those of its terminator. -/
def wideRegion (p : Word) (str : List (BitVec 16)) : Set Word :=
  region p (2 * (str.length + 1))

/-- ASCII letters count as small ones. -/
def toLower (c : BitVec 16) : BitVec 16 :=
  if 65 ≤ c ∧ c ≤ 90 then c + 32 else c

def compareChars (c d : BitVec 16) : Ordering :=
  compare (toLower c).toNat (toLower d).toNat

/-- By the first difference; a proper prefix is the smaller one. -/
def compareWide (str1 str2 : List (BitVec 16)) : Ordering :=
  str1.compareLex compareChars str2

theorem compareWide_eq_iff (str1 str2 : List (BitVec 16)) :
    compareWide str1 str2 = .eq ↔ str1.map toLower = str2.map toLower := by
  induction str1 generalizing str2 with
  | nil => cases str2 <;> simp [compareWide, List.compareLex_nil_cons, List.compareLex_nil_nil]
  | cons c str1 ih =>
      cases str2 with
      | nil => simp [compareWide, List.compareLex_cons_nil]
      | cons d str2 =>
          rw [compareWide, List.compareLex_cons_cons, Ordering.then_eq_eq, ← compareWide, ih,
            List.map_cons, List.map_cons, List.cons.injEq, compareChars, compare_eq_iff_eq,
            BitVec.toNat_inj]

/-- The sign of a result, with zero for strings that are equal up to case. -/
structure Compares (str1 str2 : List (BitVec 16)) (result : ℤ) : Prop where
  zero_iff : result = 0 ↔ str1.map toLower = str2.map toLower
  sign : compare result 0 = compareWide str1 str2

/-- The function returns after at most one comparison more than the shorter string has
characters, reads no more than the two strings, and compares them. -/
def WcsicmpOk (s1 s2 : Word) (str1 str2 : List (BitVec 16)) (s : Machine κ) : Prop :=
  Yields (wcsicmp (min str1.length str2.length + 1) s1 s2) s fun result t =>
    Compares str1 str2 result ∧ OnlyReads (wideRegion s1 str1 ∪ wideRegion s2 str2) s t

/-- What comes out at the first characters is right. The first characters, if both strings
have one, differ; if they are not the same letter, their order is the one that they have as
small letters, and otherwise it is that of the rest of the strings. -/
def FirstDecides : List (BitVec 16) → List (BitVec 16) → Prop
  | c :: str1, d :: str2 =>
      if toLower c = toLower d then c ≠ d ∧ compareWide str1 str2 = compare c.toNat d.toNat
      else c < d ↔ toLower c < toLower d
  | _, _ => True

variable {s1 s2 p : Word} {str str1 str2 : List (BitVec 16)} {m : Mem} {A : Set Word}
  {s t : Machine κ}

/-! ### The first characters -/

/-- The first character, or the terminator. -/
def firstChar (str : List (BitVec 16)) : BitVec 16 :=
  str.headD 0

@[simp] theorem firstChar_nil : firstChar [] = 0 := rfl

@[simp] theorem firstChar_cons (c : BitVec 16) (str : List (BitVec 16)) :
    firstChar (c :: str) = c := rfl

theorem WideStringAt.first (h : WideStringAt m p str) : load16 m p = firstChar str := by
  cases str with
  | nil => simpa [firstChar] using h.nul
  | cons c str => simpa [firstChar] using h.char 0 c rfl

theorem yields_loadFirst (h : OnlyReads A s t) (hstr : WideStringAt s.mem p str)
    (hA : wideRegion p str ⊆ A) :
    Yields (loadShort p) t fun c u => c = firstChar str ∧ OnlyReads A s u := by
  have hsubset : region p 2 ⊆ wideRegion p str := region_mono (by omega)
  rw [← hstr.first]
  exact h.loadShort (hsubset.trans hA)

/-- What a round makes of the first characters. -/
def firstRound (c d : BitVec 16) : Unit ⊕ Option ℤ :=
  if c ≠ 0 then
    if d ≠ 0 then
      if c ≠ d then .inr (some (c.toNat - d.toNat)) else .inl ()
    else .inr none
  else .inr none

section Run

variable (hstr1 : WideStringAt s.mem s1 str1) (hstr2 : WideStringAt s.mem s2 str2)
  (hA1 : wideRegion s1 str1 ⊆ A) (hA2 : wideRegion s2 str2 ⊆ A)

include hstr1 hstr2 hA1 hA2

/-- Both first characters. -/
theorem yields_loadBoth {α : Type} {f : BitVec 16 → BitVec 16 → Exec κ α}
    {Q : α → Machine κ → Prop} (h : OnlyReads A s t)
    (hf : ∀ u, OnlyReads A s u → Yields (f (firstChar str1) (firstChar str2)) u Q) :
    Yields (do
      let c1 ← loadShort s1
      let c2 ← loadShort s2
      f c1 c2) t Q := by
  refine (yields_loadFirst h hstr1 hA1).bind ?_
  rintro _ t ⟨rfl, h⟩
  refine (yields_loadFirst h hstr2 hA2).bind ?_
  rintro _ t ⟨rfl, h⟩
  exact hf t h

theorem yields_wcsicmpRound (h : OnlyReads A s t) : Yields (wcsicmpRound s1 s2 ()) t fun r u =>
    r = firstRound (firstChar str1) (firstChar str2) ∧ OnlyReads A s u := by
  refine (yields_loadFirst h hstr1 hA1).bind ?_
  rintro _ t ⟨rfl, h⟩
  rw [firstRound]
  by_cases hc : firstChar str1 ≠ 0
  · rw [if_pos hc, if_pos hc]
    refine (yields_loadFirst h hstr2 hA2).bind ?_
    rintro _ t ⟨rfl, h⟩
    by_cases hd : firstChar str2 ≠ 0
    · rw [if_pos hd, if_pos hd]
      refine yields_loadBoth hstr1 hstr2 hA1 hA2 h fun t h => ?_
      by_cases hne : firstChar str1 ≠ firstChar str2
      · rw [if_pos hne, if_pos hne]
        exact yields_loadBoth hstr1 hstr2 hA1 hA2 h fun t h => yields_pure ⟨rfl, h⟩
      · rw [if_neg hne, if_neg hne]
        exact yields_pure ⟨rfl, h⟩
    · rw [if_neg hd, if_neg hd]
      exact yields_pure ⟨rfl, h⟩
  · rw [if_neg hc, if_neg hc]
    exact yields_pure ⟨rfl, h⟩

/-- The same first character twice: the loop does not end. -/
theorem stops_wcsicmp (hloop : firstRound (firstChar str1) (firstChar str2) = .inl ())
    (rounds : ℕ) : Stops (wcsicmp rounds s1 s2) s .outOfFuel := by
  refine (stops_endless (fun _ t => OnlyReads A s t) (fun _ t ht => ?_) (onlyReads_refl A s)
    rounds).bind _
  refine (yields_wcsicmpRound hstr1 hstr2 hA1 hA2 ht).mono ?_
  rintro _ u ⟨rfl, hu⟩
  exact ⟨(), hloop, hu⟩

/-- A test of the first characters that leaves out the second one where the first one
decides. -/
theorem yields_testBoth {p q : BitVec 16 → Prop} [DecidablePred p] [DecidablePred q]
    (h : OnlyReads A s t) : Yields (do
      let c1 ← loadShort s1
      if p c1 then do
        let c2 ← loadShort s2
        return decide (q c2)
      else
        return false) t fun b u =>
    b = decide (p (firstChar str1) ∧ q (firstChar str2)) ∧ OnlyReads A s u := by
  refine (yields_loadFirst h hstr1 hA1).bind ?_
  rintro _ t ⟨rfl, h⟩
  by_cases hc : p (firstChar str1)
  · refine .ite_pos hc ((yields_loadFirst h hstr2 hA2).bind ?_)
    rintro _ t ⟨rfl, h⟩
    exact yields_pure ⟨decide_eq_decide.mpr (and_iff_right hc).symm, h⟩
  · exact .ite_neg hc (yields_pure ⟨(decide_eq_false fun hand => hc hand.1).symm, h⟩)

theorem yields_endsFirst (h : OnlyReads A s t) : Yields (endsFirst s1 s2) t fun b u =>
    b = decide (firstChar str1 = 0 ∧ firstChar str2 ≠ 0) ∧ OnlyReads A s u :=
  yields_testBoth (p := (· = 0)) (q := (· ≠ 0)) hstr1 hstr2 hA1 hA2 h

theorem yields_endsSecond (h : OnlyReads A s t) : Yields (endsSecond s1 s2) t fun b u =>
    b = decide (firstChar str1 ≠ 0 ∧ firstChar str2 = 0) ∧ OnlyReads A s u :=
  yields_testBoth (p := (· ≠ 0)) (q := (· = 0)) hstr1 hstr2 hA1 hA2 h

/-- The loop ends in its first round or never. -/
theorem yields_loop_wcsicmp {difference : Option ℤ}
    (hround : firstRound (firstChar str1) (firstChar str2) = .inr difference) (rounds : ℕ) :
    Yields (loop (wcsicmpRound s1 s2) (rounds + 1) ()) s fun r t =>
      r = difference ∧ OnlyReads A s t := by
  refine Yields.loop_end (a := difference) ?_
  refine (yields_wcsicmpRound hstr1 hstr2 hA1 hA2 (onlyReads_refl A s)).mono ?_
  rintro _ t ⟨rfl, ht⟩
  exact ⟨hround, rfl, ht⟩

/-- Two characters that differ. -/
theorem yields_wcsicmp_some {r : ℤ}
    (hround : firstRound (firstChar str1) (firstChar str2) = .inr (some r)) (rounds : ℕ) :
    Yields (wcsicmp (rounds + 1) s1 s2) s fun result t => result = r ∧ OnlyReads A s t := by
  refine (yields_loop_wcsicmp hstr1 hstr2 hA1 hA2 hround rounds).bind ?_
  rintro _ t ⟨rfl, ht⟩
  exact yields_pure ⟨rfl, ht⟩

/-- A string that is empty. -/
theorem yields_wcsicmp_none
    (hround : firstRound (firstChar str1) (firstChar str2) = .inr none) (rounds : ℕ) :
    Yields (wcsicmp (rounds + 1) s1 s2) s fun result t =>
      result = (if firstChar str1 = 0 ∧ firstChar str2 ≠ 0 then -1
        else if firstChar str1 ≠ 0 ∧ firstChar str2 = 0 then 1 else 0) ∧ OnlyReads A s t := by
  refine (yields_loop_wcsicmp hstr1 hstr2 hA1 hA2 hround rounds).bind ?_
  rintro _ t ⟨rfl, ht⟩
  refine (yields_endsFirst hstr1 hstr2 hA1 hA2 ht).bind ?_
  rintro _ u ⟨rfl, hu⟩
  by_cases hfirst : firstChar str1 = 0 ∧ firstChar str2 ≠ 0
  · rw [if_pos hfirst]
    exact .ite_pos (decide_eq_true hfirst) (yields_pure ⟨rfl, hu⟩)
  · rw [if_neg hfirst]
    refine .ite_neg (mt of_decide_eq_true hfirst) ?_
    refine (yields_endsSecond hstr1 hstr2 hA1 hA2 hu).bind ?_
    rintro _ v ⟨rfl, hv⟩
    by_cases hsecond : firstChar str1 ≠ 0 ∧ firstChar str2 = 0
    · rw [if_pos hsecond]
      exact .ite_pos (decide_eq_true hsecond) (yields_pure ⟨rfl, hv⟩)
    · rw [if_neg hsecond]
      exact .ite_neg (mt of_decide_eq_true hsecond) (yields_pure ⟨rfl, hv⟩)

end Run

/-! ### Main result -/

/-- What the function returns, if the strings do not begin with the same character. -/
def wcsicmpResult : List (BitVec 16) → List (BitVec 16) → ℤ
  | [], [] => 0
  | [], _ :: _ => -1
  | _ :: _, [] => 1
  | c :: _, d :: _ => c.toNat - d.toNat

def BeginAlike : List (BitVec 16) → List (BitVec 16) → Prop
  | c :: _, d :: _ => c = d
  | _, _ => False

/-- Two strings in memory, of which no more than the given part is read. -/
structure InMemory (A : Set Word) (s1 s2 : Word) (str1 str2 : List (BitVec 16)) (m : Mem) :
    Prop where
  first : WideStringAt m s1 str1
  second : WideStringAt m s2 str2
  first_subset : wideRegion s1 str1 ⊆ A
  second_subset : wideRegion s2 str2 ⊆ A

theorem InMemory.stops (h : InMemory A s1 s2 str1 str2 s.mem) (halike : BeginAlike str1 str2)
    (rounds : ℕ) : Stops (wcsicmp rounds s1 s2) s .outOfFuel := by
  refine stops_wcsicmp h.first h.second h.first_subset h.second_subset ?_ rounds
  cases str1 with
  | nil => exact halike.elim
  | cons c str1 =>
      cases str2 with
      | nil => exact halike.elim
      | cons d str2 =>
          obtain rfl : c = d := halike
          have hne : c ≠ 0 := h.first.ne c List.mem_cons_self
          rw [firstChar_cons, firstChar_cons, firstRound, if_pos hne, if_pos hne,
            if_neg (not_not.mpr rfl)]

theorem InMemory.yields (h : InMemory A s1 s2 str1 str2 s.mem) (hne : ¬ BeginAlike str1 str2)
    (rounds : ℕ) : Yields (wcsicmp (rounds + 1) s1 s2) s fun result t =>
      result = wcsicmpResult str1 str2 ∧ OnlyReads A s t := by
  obtain ⟨hstr1, hstr2, hA1, hA2⟩ := h
  cases str1 with
  | nil =>
      refine (yields_wcsicmp_none hstr1 hstr2 hA1 hA2 rfl rounds).mono ?_
      rintro _ t ⟨rfl, ht⟩
      refine ⟨?_, ht⟩
      cases str2 with
      | nil => rfl
      | cons d str2 => exact if_pos ⟨rfl, hstr2.ne d List.mem_cons_self⟩
  | cons c str1 =>
      have hc : c ≠ 0 := hstr1.ne c List.mem_cons_self
      cases str2 with
      | nil =>
          refine (yields_wcsicmp_none hstr1 hstr2 hA1 hA2 (if_pos hc) rounds).mono ?_
          rintro _ t ⟨rfl, ht⟩
          exact ⟨(if_neg fun hand => hc hand.1).trans (if_pos ⟨hc, rfl⟩), ht⟩
      | cons d str2 =>
          have hd : d ≠ 0 := hstr2.ne d List.mem_cons_self
          have hround : firstRound c d = .inr (some (c.toNat - d.toNat)) := by
            rw [firstRound, if_pos hc, if_pos hd, if_pos (show c ≠ d from hne)]
          exact yields_wcsicmp_some hstr1 hstr2 hA1 hA2 hround rounds

/-- The sign of a difference. -/
theorem compare_sub_zero (n k : ℕ) : compare ((n : ℤ) - k) 0 = compare n k := by
  rcases lt_trichotomy n k with hlt | rfl | hgt
  · rw [compare_lt_iff_lt.mpr hlt, compare_lt_iff_lt]
    omega
  · rw [compare_eq_iff_eq.mpr rfl, compare_eq_iff_eq]
    omega
  · rw [compare_gt_iff_gt.mpr hgt, compare_gt_iff_gt]
    omega

/-- A result with the right sign is zero for the right strings. -/
theorem compares_iff (result : ℤ) :
    Compares str1 str2 result ↔ compare result 0 = compareWide str1 str2 := by
  refine ⟨Compares.sign, fun hsign => ⟨?_, hsign⟩⟩
  rw [← compareWide_eq_iff, ← hsign, compare_eq_iff_eq]

/-- The order of two characters is the one that decides. -/
theorem compare_eq_then_iff {c d : BitVec 16} (hne : c ≠ d) (o : Ordering) :
    compare c.toNat d.toNat = (compareChars c d).then o ↔
      if toLower c = toLower d then c ≠ d ∧ o = compare c.toNat d.toNat
      else c < d ↔ toLower c < toLower d := by
  have hnat : c.toNat ≠ d.toNat := mt BitVec.eq_of_toNat_eq hne
  rw [compareChars, BitVec.lt_def, BitVec.lt_def]
  split_ifs with hsame
  · rw [hsame, compare_eq_iff_eq.mpr rfl, show Ordering.eq.then o = o from rfl,
      and_iff_right hne]
    exact eq_comm
  · rcases lt_or_gt_of_ne (mt BitVec.eq_of_toNat_eq hsame) with hlt | hgt
    · rw [compare_lt_iff_lt.mpr hlt, show Ordering.lt.then o = .lt from rfl, compare_lt_iff_lt]
      exact (iff_true_right hlt).symm
    · rw [compare_gt_iff_gt.mpr hgt, show Ordering.gt.then o = .gt from rfl, compare_gt_iff_gt]
      omega

theorem compares_result_iff (hne : ¬ BeginAlike str1 str2) :
    Compares str1 str2 (wcsicmpResult str1 str2) ↔ FirstDecides str1 str2 := by
  rw [compares_iff]
  cases str1 with
  | nil =>
      cases str2 with
      | nil => exact iff_of_true rfl trivial
      | cons d str2 => exact iff_of_true rfl trivial
  | cons c str1 =>
      cases str2 with
      | nil => exact iff_of_true rfl trivial
      | cons d str2 =>
          rw [wcsicmpResult, compare_sub_zero, compareWide, List.compareLex_cons_cons]
          exact compare_eq_then_iff hne _

theorem FirstDecides.not_beginAlike (h : FirstDecides str1 str2) : ¬ BeginAlike str1 str2 := by
  cases str1 with
  | nil => exact id
  | cons c str1 =>
      cases str2 with
      | nil => exact id
      | cons d str2 =>
          rintro (rfl : c = d)
          rw [FirstDecides, if_pos rfl] at h
          exact h.1 rfl

/-- The function ends and compares if and only if the first characters decide. -/
theorem wcsicmp_iff (hstr1 : WideStringAt s.mem s1 str1) (hstr2 : WideStringAt s.mem s2 str2) :
    WcsicmpOk s1 s2 str1 str2 s ↔ FirstDecides str1 str2 := by
  have hmem : InMemory (wideRegion s1 str1 ∪ wideRegion s2 str2) s1 s2 str1 str2 s.mem :=
    ⟨hstr1, hstr2, Set.subset_union_left, Set.subset_union_right⟩
  constructor
  · rintro ⟨result, t, hrun, hcompares, -⟩
    have hne : ¬ BeginAlike str1 str2 :=
      fun halike => (hmem.stops halike _).ne_ok result t hrun
    obtain ⟨rfl, -⟩ := (hmem.yields hne _).of_eq hrun
    exact (compares_result_iff hne).mp hcompares
  · intro hdecides
    have hne := hdecides.not_beginAlike
    refine (hmem.yields hne _).mono ?_
    rintro _ t ⟨rfl, ht⟩
    exact ⟨(compares_result_iff hne).mpr hdecides, ht⟩

/-- A memory in which the string "Ab" stands at 4096 and "ac" at 4102. -/
def letters : Mem := fun x => [65, 0, 98, 0, 0, 0, 97, 0, 99].getD (x - 4096).toNat 0

theorem wideStringAt_first : WideStringAt letters 4096 [65, 98] where
  char i c hi := by
    rcases i with _ | _ | i
    · obtain rfl := Option.some.inj hi
      rfl
    · obtain rfl := Option.some.inj hi
      rfl
    · cases hi
  nul := rfl
  ne := by simp

theorem wideStringAt_second : WideStringAt letters 4102 [97, 99] where
  char i c hi := by
    rcases i with _ | _ | i
    · obtain rfl := Option.some.inj hi
      rfl
    · obtain rfl := Option.some.inj hi
      rfl
    · cases hi
  nul := rfl
  ne := by simp

/-- The first characters are one letter, and the sign they give is that of the rest. -/
theorem wcsicmp_letters :
    WcsicmpOk 4096 4102 [65, 98] [97, 99] (⟨letters, []⟩ : Machine Empty) := by
  have hdecides : FirstDecides [65, 98] [97, 99] := by
    rw [FirstDecides]
    decide
  exact (wcsicmp_iff wideStringAt_first wideStringAt_second).mpr hdecides

/-- The string "ac" compared with itself. -/
theorem wcsicmp_fails : ¬ ∀ (s1 s2 : Word) (str1 str2 : List (BitVec 16)) (s : Machine Empty),
    WideStringAt s.mem s1 str1 → WideStringAt s.mem s2 str2 → WcsicmpOk s1 s2 str1 str2 s := by
  intro h
  obtain ⟨result, t, hrun, -⟩ :=
    h 4102 4102 [97, 99] [97, 99] ⟨letters, []⟩ wideStringAt_second wideStringAt_second
  have hmem : InMemory Set.univ 4102 4102 [97, 99] [97, 99] letters :=
    ⟨wideStringAt_second, wideStringAt_second, Set.subset_univ _, Set.subset_univ _⟩
  exact (InMemory.stops (s := ⟨letters, []⟩) hmem rfl _).ne_ok result t hrun

end Ciabatta.Os
