import Ciabatta.Loader.InitialStack
import Ciabatta.Loader.TlsImage

/-!
`ld_stage1_entry` (`loader-self-reloc.c`) when the loader is run as a command: the
load address does not stand in the auxiliary vector, and the code computes it from
`_DYNAMIC` and its header. The loop over the headers starts with the second one, and
`dynv - ph->p_vaddr` is a subtraction on a pointer to `Elf64_Dyn`.
-/

namespace Ciabatta.Loader

open ByteMemory Exec

def atPhdr : Fin 32 := 3
def atPhent : Fin 32 := 4
def atPhnum : Fin 32 := 5
def atBase : Fin 32 := 7

def ptDynamic : BitVec 32 := 2

/-- `dynv - n`, for the pointer to the 16 bytes of an `Elf64_Dyn`. -/
def dynvSub (dynv n : Word) : Word := dynv - n * 16

/-- What a header makes of `base`. -/
def headerBase (dynv ph base : Word) : Exec Call Word := do
  let type ← loadInt (pType ph)
  if type = ptDynamic then do
    let vaddr ← loadWord (pVaddr ph)
    return dynvSub dynv vaddr
  else
    return base

/-- The loop over `int i` that starts at 1. -/
def phdrsRound (phdrs phEnt phNum dynv : Word) : ℕ × Word → Exec Call ((ℕ × Word) ⊕ Word)
  | (i, base) =>
      if BitVec.ofNat 64 i < phNum then do
        let phOff := BitVec.ofNat 64 i * phEnt
        let base ← headerBase dynv (phdrs + phOff) base
        let i ← incrementInt i
        return .inl (i, base)
      else
        return .inr base

def ldStage1Base (fuel : ℕ) (dynv : Word) (aux : AuxTable) : Exec Call Word :=
  let base := aux atBase
  if base = 0 then
    loop (phdrsRound (aux atPhdr) (aux atPhent) (aux atPhnum) dynv) fuel (1, base)
  else
    pure base

/-! ### The program headers -/

structure ProgramHeader where
  type : BitVec 32
  vaddr : Word

/-- A table of program headers, one of which is that of the dynamic section. -/
structure HeaderTable where
  before : List ProgramHeader
  vaddr : Word
  behind : List ProgramHeader
  only : ∀ ph ∈ before ++ behind, ph.type ≠ ptDynamic

def HeaderTable.headers (table : HeaderTable) : List ProgramHeader :=
  table.before ++ ⟨ptDynamic, table.vaddr⟩ :: table.behind

/-- The place of the `PT_DYNAMIC` header. -/
def HeaderTable.position (table : HeaderTable) : ℕ :=
  table.before.length

/-- The address of the `i`-th header. -/
def phdrsEntry (aux : AuxTable) (i : ℕ) : Word :=
  aux atPhdr + BitVec.ofNat 64 i * aux atPhent

/-- The auxiliary vector of a loader that is run as a command, with the table of its
headers in memory. -/
structure Describes (aux : AuxTable) (m : Mem) (table : HeaderTable) : Prop where
  base : aux atBase = 0
  phnum : (aux atPhnum).toNat = table.headers.length
  type : ∀ i ph, table.headers[i]? = some ph → load32 m (pType (phdrsEntry aux i)) = ph.type
  vaddr : ∀ i ph, table.headers[i]? = some ph → load64 m (pVaddr (phdrsEntry aux i)) = ph.vaddr

/-- The base that the code computes from `_DYNAMIC` is `b`. -/
def DiscoversBase (dynv : Word) (aux : AuxTable) (b : Word) (s : Machine Call) : Prop :=
  ∃ n, ∀ fuel, n ≤ fuel → Yields (ldStage1Base fuel dynv aux) s fun base _ => base = b

/-- What the loop has made of `base` in front of the `i`-th header. -/
def HeaderTable.found (table : HeaderTable) (dynv : Word) (i : ℕ) : Word :=
  if 0 < table.position ∧ table.position < i then dynvSub dynv table.vaddr else 0

variable {table : HeaderTable} {aux : AuxTable} {dynv b : Word} {s t : Machine Call} {i : ℕ}

theorem HeaderTable.position_lt (table : HeaderTable) :
    table.position < table.headers.length := by
  rw [headers, position, List.length_append, List.length_cons]
  omega

theorem HeaderTable.getElem?_position (table : HeaderTable) :
    table.headers[table.position]? = some ⟨ptDynamic, table.vaddr⟩ := by
  rw [headers, position, List.getElem?_append_right le_rfl, Nat.sub_self]
  rfl

/-- No other header is that of the dynamic section. -/
theorem HeaderTable.type_ne {ph : ProgramHeader} (hph : table.headers[i]? = some ph)
    (hi : i ≠ table.position) : ph.type ≠ ptDynamic := by
  apply table.only
  rw [headers] at hph
  rw [position] at hi
  rcases lt_or_gt_of_ne hi with hlt | hgt
  · rw [List.getElem?_append_left hlt] at hph
    exact List.mem_append_left _ (List.mem_of_getElem? hph)
  · obtain ⟨k, rfl⟩ := Nat.exists_eq_add_of_lt hgt
    rw [List.getElem?_append_right (by omega),
      show table.before.length + k + 1 - table.before.length = k + 1 by omega,
      List.getElem?_cons_succ] at hph
    exact List.mem_append_right _ (List.mem_of_getElem? hph)

/-! ### The loop -/

/-- The round up to the counter. -/
theorem Describes.yields_headerBase (h : Describes aux s.mem table) (hpos : 0 < i)
    (hi : i < table.headers.length) (ht : OnlyReads Set.univ s t) :
    Yields (headerBase dynv (phdrsEntry aux i) (table.found dynv i)) t fun base u =>
      base = table.found dynv (i + 1) ∧ OnlyReads Set.univ s u := by
  have hph := List.getElem?_eq_getElem hi
  refine (ht.loadInt (Set.subset_univ _)).bind ?_
  rintro _ u ⟨rfl, hu⟩
  rw [h.type i _ hph]
  by_cases hdynamic : i = table.position
  · have hfirst : table.headers[i] = ⟨ptDynamic, table.vaddr⟩ := by
      have hsome := table.getElem?_position
      rw [← hdynamic, hph] at hsome
      exact Option.some.inj hsome
    refine .ite_pos (by rw [hfirst]) ((hu.loadWord (Set.subset_univ _)).bind ?_)
    rintro _ v ⟨rfl, hv⟩
    refine yields_pure ⟨?_, hv⟩
    rw [h.vaddr i _ hph, hfirst, HeaderTable.found, if_pos (by omega)]
  · refine .ite_neg (table.type_ne hph hdynamic) (yields_pure ⟨?_, hu⟩)
    have hiff : table.position < i + 1 ↔ table.position < i := by omega
    rw [HeaderTable.found, HeaderTable.found]
    simp only [hiff]

theorem Describes.counts (h : Describes aux s.mem table) :
    Counts (2 ^ 31) table.headers.length
      (fun i b t => 0 < i ∧ b = (i, table.found dynv i) ∧ OnlyReads Set.univ s t)
      (fun base _ => base = table.found dynv table.headers.length)
      (phdrsRound (aux atPhdr) (aux atPhent) (aux atPhnum) dynv) where
  next := by
    rintro i _ t ⟨hpos, rfl, ht⟩ hlt hnext
    have htest : BitVec.ofNat 64 i < aux atPhnum := by
      rw [ofNat_lt_iff (by omega), h.phnum]
      exact hlt
    refine .ite_pos htest ((h.yields_headerBase hpos hlt ht).bind ?_)
    rintro _ u ⟨rfl, hu⟩
    rw [incrementInt_of_lt hnext]
    exact yields_pure ⟨_, rfl, Nat.succ_pos i, rfl, hu⟩
  overflow := by
    rintro i _ t ⟨hpos, rfl, ht⟩ hlt hnext
    have hphnum := (aux atPhnum).isLt
    rw [h.phnum] at hphnum
    have htest : BitVec.ofNat 64 i < aux atPhnum := by
      rw [ofNat_lt_iff (by omega), h.phnum]
      exact hlt
    rw [phdrsRound, if_pos htest]
    refine (h.yields_headerBase hpos hlt ht).bind_stops ?_
    rintro _ u -
    rw [incrementInt_of_not_lt hnext]
    exact stops_throw.bind _
  last := by
    rintro _ t ⟨-, rfl, -⟩
    have hphnum := (aux atPhnum).isLt
    rw [h.phnum] at hphnum
    have htest : ¬ BitVec.ofNat 64 table.headers.length < aux atPhnum := by
      rw [ofNat_lt_iff hphnum, h.phnum]
      exact lt_irrefl _
    exact .ite_neg htest (yields_pure ⟨_, rfl, rfl⟩)

/-- The code computes a base if an `int` can count the headers, and which one. -/
theorem discoversBase_iff_found (h : Describes aux s.mem table) : DiscoversBase dynv aux b s ↔
    table.headers.length < 2 ^ 31 ∧ table.found dynv table.headers.length = b := by
  have hcode : ∀ fuel, ldStage1Base fuel dynv aux
      = loop (phdrsRound (aux atPhdr) (aux atPhent) (aux atPhnum) dynv) fuel (1, 0) := by
    intro fuel
    rw [ldStage1Base, h.base, if_pos rfl]
  have hstart : (1, 0) = (1, table.found dynv 1) := by
    rw [HeaderTable.found, if_neg (by omega)]
  have hpos := table.position_lt
  constructor
  · rintro ⟨fuel, hn⟩
    obtain ⟨base, t, hrun, rfl⟩ := hn fuel le_rfl
    rw [hcode] at hrun
    have hI : 0 < 1 ∧ (1, 0) = (1, table.found dynv 1) ∧ OnlyReads Set.univ s s :=
      ⟨Nat.one_pos, hstart, onlyReads_refl _ s⟩
    exact ⟨h.counts.lt_of_ok hI (by omega) (by decide) hrun,
      (h.counts.of_ok hI (by omega) (by decide) hrun).symm⟩
  · rintro ⟨hlength, rfl⟩
    refine ⟨table.headers.length, fun fuel hfuel => ?_⟩
    rw [hcode]
    exact h.counts.yields hlength ⟨Nat.one_pos, hstart, onlyReads_refl _ s⟩ (by omega) (by omega)

/-! ### Main result -/

/-- Only the address 0 is the same counted in bytes and in entries. -/
theorem dynvSub_add_iff {v : Word} : dynvSub (b + v) v = b ↔ v = 0 := by
  -- 15 has an inverse modulo `2 ^ 64`
  have hinverse : (15 : Word) * 0xEEEEEEEEEEEEEEEF = 1 := by decide
  have hsame : dynvSub (b + v) v = b ↔ v = v * 16 := by
    rw [dynvSub, add_sub_assoc, add_eq_left, sub_eq_zero]
  rw [hsame]
  constructor
  · intro h
    have hzero : v * 15 = 0 := by
      calc v * 15 = v * 16 - v := by rw [show (15 : Word) = 16 - 1 from rfl, mul_sub, mul_one]
        _ = 0 := by rw [← h, sub_self]
    calc v = v * (15 * 0xEEEEEEEEEEEEEEEF) := by rw [hinverse, mul_one]
      _ = v * 15 * 0xEEEEEEEEEEEEEEEF := (mul_assoc _ _ _).symm
      _ = 0 := by rw [hzero, zero_mul]
  · rintro rfl
    rfl

/-- The base is computed right if and only if an `int` can count the headers, and that of the
dynamic section is the first one and the base 0, or is a later one and its address 0. -/
theorem discoversBase_iff (h : Describes aux s.mem table) (hdynv : dynv = b + table.vaddr) :
    DiscoversBase dynv aux b s ↔ table.headers.length < 2 ^ 31 ∧
      (table.position = 0 ∧ b = 0 ∨ 0 < table.position ∧ table.vaddr = 0) := by
  rw [discoversBase_iff_found h, HeaderTable.found, hdynv]
  refine and_congr_right fun _ => ?_
  by_cases hpos : 0 < table.position
  · rw [if_pos ⟨hpos, table.position_lt⟩, dynvSub_add_iff, or_iff_right fun h => hpos.ne' h.1,
      and_iff_right hpos]
  · rw [if_neg fun hfound => hpos hfound.1, or_iff_left fun h => hpos h.1,
      and_iff_right (Nat.eq_zero_of_not_pos hpos)]
    exact eq_comm

/-- Two headers: of a segment, and of the dynamic section at `v`. -/
def twoHeaders (v : Word) : HeaderTable where
  before := [⟨1, 0⟩]
  vaddr := v
  behind := []
  only := by simp [ptDynamic]

/-- Their words, with the flags in the high half of the first of each. -/
def twoHeadersWords (v : Word) : List Word :=
  [0x400000001, 0, 0, 0, 0x4000, 0x4000, 4096, 0x600000002, 0x3000, v, v, 0x1d0, 0x1d0, 8]

def twoHeadersAux : AuxTable := fun t =>
  if t = atPhdr then 0x10040 else if t = atPhent then 56 else if t = atPhnum then 2 else 0

theorem describes_twoHeaders (v : Word) :
    Describes twoHeadersAux (ofWords 0x10040 (twoHeadersWords v)) (twoHeaders v) := by
  have hfits : (0x10040 : Word).toNat + 8 * (twoHeadersWords v).length ≤ 2 ^ 64 := by
    rw [show (twoHeadersWords v).length = 14 from rfl]
    decide
  have hwords := holdsWords_ofWords hfits
  have hphdr : ∀ i < 2, phdrsEntry twoHeadersAux i = wordSlot 0x10040 (7 * i) := by decide
  have hvaddr : ∀ i < 2, pVaddr (phdrsEntry twoHeadersAux i) = wordSlot 0x10040 (7 * i + 2) := by
    decide
  have htype : ∀ i w, (twoHeadersWords v)[7 * i]? = some w → i < 2 →
      load32 (ofWords 0x10040 (twoHeadersWords v)) (pType (phdrsEntry twoHeadersAux i))
        = w.setWidth 32 := by
    intro i w hw hi
    rw [pType, hphdr i hi, load32_eq_setWidth, hwords.word _ _ hw]
  refine ⟨rfl, rfl, fun i ph hph => ?_, fun i ph hph => ?_⟩
  · rcases i with _ | _ | i
    · cases hph
      exact htype 0 _ rfl (by decide)
    · cases hph
      exact htype 1 _ rfl (by decide)
    · cases hph
  · rcases i with _ | _ | i
    · cases hph
      rw [hvaddr 0 (by decide)]
      exact hwords.word 2 _ rfl
    · cases hph
      rw [hvaddr 1 (by decide)]
      exact hwords.word 9 _ rfl
    · cases hph

theorem discoversBase_twoHeaders : DiscoversBase 0x10000 twoHeadersAux 0x10000
    ⟨ofWords 0x10040 (twoHeadersWords 0), []⟩ :=
  (discoversBase_iff (describes_twoHeaders 0) (add_zero _).symm).mpr
    ⟨Nat.lt_of_lt_of_le (m := 3) (by decide) (by norm_num), .inr ⟨by decide, rfl⟩⟩

theorem discoversBase_fails : ¬ ∀ (table : HeaderTable) (aux : AuxTable) (dynv b : Word)
    (s : Machine Call), Describes aux s.mem table → dynv = b + table.vaddr →
      DiscoversBase dynv aux b s := by
  intro h
  have hbase := h (twoHeaders 0x3e00) twoHeadersAux 0x13e00 0x10000
    ⟨ofWords 0x10040 (twoHeadersWords 0x3e00), []⟩ (describes_twoHeaders _) (by decide)
  have hfound := ((discoversBase_iff_found (describes_twoHeaders _)).mp hbase).2
  exact absurd hfound (by decide)

end Ciabatta.Loader
