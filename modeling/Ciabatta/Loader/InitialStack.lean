import Ciabatta.Lib.Counted
import Ciabatta.Lib.Footprint
import Ciabatta.Lib.WordArray
import Ciabatta.World

/-!
`ld_stage1_entry` (`loader-self-reloc.c`) on the stack of a new process: over the
arguments and the environment to the auxiliary vector, whose values it puts into
the array `aux`. The debug prints are compiled out, so that of the loop over the
arguments only the counter is left. Each loop gets `fuel` rounds.
-/

namespace Ciabatta.Loader

open ByteMemory Exec

/-- `u64 aux[AUX_CNT]`. -/
abbrev AuxTable := Fin 32 → Word

/-- `AUX_CNT` -/
def auxCnt : ℕ := 32

def atNull : BitVec 32 := 0

/-- The members of `Elf64_Aux`, by their address. -/
def aType (aux : Word) : Word := aux
def aVal (aux : Word) : Word := aux + 8

/-- `&auxv[i]`, an array of `Elf64_Aux`. -/
def auxvEntry (auxv : Word) (i : ℕ) : Word := auxv + BitVec.ofNat 64 (16 * i)

/-- `aux[i] = v`. A write off the array stops the program. -/
def setAux (aux : AuxTable) (i : ℤ) (v : Word) : Exec Call AuxTable :=
  if h : 0 ≤ i ∧ i < auxCnt then
    pure (Function.update aux ⟨i.toNat, (Int.toNat_lt h.1).mpr h.2⟩ v)
  else
    throw .outOfBounds

def argvRound (argc : BitVec 32) (i : ℕ) : Exec Call (ℕ ⊕ Unit) :=
  if (i : ℤ) < argc.toInt then do
    return .inl (← incrementInt i)
  else
    return .inr ()

/-- A round of the loop over the environment, on `i` and `envc`. -/
def envpRound (envp : Word) : ℕ × ℕ → Exec Call ((ℕ × ℕ) ⊕ ℕ)
  | (i, envc) => do
      let env ← loadWord (wordSlot envp i)
      if env ≠ 0 then do
        let envc ← incrementInt envc
        let i ← incrementInt i
        return .inl (i, envc)
      else
        return .inr envc

def clearAuxRound : ℕ × AuxTable → Exec Call ((ℕ × AuxTable) ⊕ AuxTable)
  | (i, aux) =>
      if i < auxCnt then do
        let aux ← setAux aux i 0
        let i ← incrementInt i
        return .inl (i, aux)
      else
        return .inr aux

/-- The body of the loop over the auxiliary vector. -/
def storeAux (entry : Word) (aux : AuxTable) : Exec Call AuxTable := do
  let auxType ← loadInt (aType entry)
  if auxType.toInt < auxCnt then do
    let val ← loadWord (aVal entry)
    setAux aux auxType.toInt val
  else
    return aux

def auxvRound (auxv : Word) : ℕ × AuxTable → Exec Call ((ℕ × AuxTable) ⊕ AuxTable)
  | (i, aux) => do
      let type ← loadInt (aType (auxvEntry auxv i))
      if type ≠ atNull then do
        let aux ← storeAux (auxvEntry auxv i) aux
        let i ← incrementInt i
        return .inl (i, aux)
      else
        return .inr aux

/-- The code from the start to the auxiliary vector. It returns `aux`, which holds
anything before. -/
def ldStage1Aux (fuel : ℕ) (sp : Word) (aux : AuxTable) : Exec Call AuxTable := do
  let word ← loadWord sp
  let argc : BitVec 32 := word.setWidth 32
  let argv := sp + 8
  loop (argvRound argc) fuel 0
  let envp := argv + 8 * argc.signExtend 64 + 8
  let envc ← loop (envpRound envp) fuel (0, 0)
  let auxv := wordSlot envp (envc + 1)
  let aux ← loop clearAuxRound fuel (0, aux)
  loop (auxvRound auxv) fuel (0, aux)

/-! ### The stack of a new process -/

/-- An entry of the auxiliary vector as the kernel writes it, in two words. -/
structure AuxEntry where
  type : Word
  val : Word

/-- What the kernel puts on the stack of a new process. -/
structure InitialStack where
  args : List Word
  env : List Word
  auxv : List AuxEntry
  /-- The second word of the `AT_NULL` entry. -/
  nullVal : Word
  argc : args.length < 2 ^ 31
  env_ne : ∀ p ∈ env, p ≠ 0
  types : ∀ e ∈ auxv, 0 < e.type.toNat ∧ e.type.toNat < 2 ^ 31

namespace InitialStack

variable (stack : InitialStack)

/-- `MAX_ARG_STRINGS`, the most pointers that the kernel takes for an environment. -/
def maxArgStrings : ℕ := 0x7fffffff

/-- The kernel's limits on what `argc` does not count. The auxiliary vector comes from a
table of fixed size, which an `int` can index. -/
structure KernelLimits : Prop where
  env : stack.env.length ≤ maxArgStrings
  auxv : stack.auxv.length < 2 ^ 31

def auxWords : List Word :=
  stack.auxv.flatMap (fun e => [e.type, e.val]) ++ [0, stack.nullVal]

def argWords : List Word :=
  BitVec.ofNat 64 stack.args.length :: stack.args ++ [0]

def envWords : List Word :=
  stack.env ++ [0]

/-- The words from `sp` up. -/
def words : List Word :=
  stack.argWords ++ (stack.envWords ++ stack.auxWords)

/-- The addresses of the layout. -/
def extent (sp : Word) : Set Word :=
  region sp (8 * stack.words.length)

/-- The value of the last entry of type `t`, or 0 if there is none. -/
def lastAux (es : List AuxEntry) (t : Fin 32) : Word :=
  ((es.reverse.find? fun e => e.type.toNat = t.val).map AuxEntry.val).getD 0

/-- The code returns, has read nothing outside the layout, and leaves in each place
of `aux` the value of the last entry of this type. -/
def Decodes (sp : Word) (s : Machine Call) : Prop :=
  ∃ n, ∀ fuel aux, n ≤ fuel → Yields (ldStage1Aux fuel sp aux) s fun aux' t =>
    (∀ t, aux' t = lastAux stack.auxv t) ∧ OnlyReads (stack.extent sp) s t

variable {stack} {A : Set Word} {sp envp auxv entry : Word} {s t : Machine Call}
  {aux aux' : AuxTable} {e : AuxEntry} {es : List AuxEntry} {i : ℕ}

/-! ### The layout -/

theorem argWords_length : stack.argWords.length = stack.args.length + 2 := by
  simp [argWords]

theorem envWords_length : stack.envWords.length = stack.env.length + 1 := by
  simp [envWords]

/-- The two words of an entry, in front of `ws`. -/
theorem getElem?_flatMap_entry (es : List AuxEntry) (ws : List Word) (hi : i < es.length) :
    (es.flatMap (fun e => [e.type, e.val]) ++ ws)[2 * i]? = some es[i].type ∧
      (es.flatMap (fun e => [e.type, e.val]) ++ ws)[2 * i + 1]? = some es[i].val := by
  induction es generalizing i with
  | nil => exact absurd hi (Nat.not_lt_zero _)
  | cons e es ih =>
      cases i with
      | zero => exact ⟨rfl, rfl⟩
      | succ i => exact ih (Nat.lt_of_succ_lt_succ hi)

theorem length_flatMap_entry (es : List AuxEntry) :
    (es.flatMap fun e => [e.type, e.val]).length = 2 * es.length := by
  simp [Nat.mul_comm]

theorem auxWords_length : stack.auxWords.length = 2 * stack.auxv.length + 2 := by
  rw [auxWords, List.length_append, length_flatMap_entry]
  rfl

theorem words_length : stack.words.length
    = stack.args.length + stack.env.length + 2 * stack.auxv.length + 5 := by
  rw [words, List.length_append, List.length_append, argWords_length, envWords_length,
    auxWords_length]
  omega

theorem auxvEntry_eq_slot (auxv : Word) (i : ℕ) : auxvEntry auxv i = wordSlot auxv (2 * i) := by
  rw [auxvEntry, wordSlot, ← Nat.mul_assoc]

theorem aVal_eq_slot (auxv : Word) (i : ℕ) :
    aVal (auxvEntry auxv i) = wordSlot auxv (2 * i + 1) := by
  rw [auxvEntry_eq_slot, ← wordSlot_add]
  rfl

/-- The end of the vector, and `AT_NULL` as the type there. -/
theorem getElem?_auxWords_length : stack.auxWords[2 * stack.auxv.length]? = some 0 := by
  rw [auxWords, ← length_flatMap_entry, List.getElem?_append_right le_rfl, Nat.sub_self]
  rfl

/-! ### The values -/

/-- The value of the entry goes to the place of its type, if it has one. -/
def Puts (aux : AuxTable) (e : AuxEntry) (aux' : AuxTable) : Prop :=
  ∀ t, aux' t = if e.type.toNat = t.val then e.val else aux t

theorem lastAux_concat (es : List AuxEntry) (e : AuxEntry) (t : Fin 32) :
    lastAux (es ++ [e]) t = if e.type.toNat = t.val then e.val else lastAux es t := by
  rw [lastAux, List.reverse_concat, List.find?_cons]
  by_cases htype : e.type.toNat = t.val
  · simp [htype]
  · simp [htype, lastAux]

theorem setAux_of_lt {v : Word} (h : i < 32) :
    setAux aux i v = pure (Function.update aux ⟨i, h⟩ v) := by
  have hbounds : (0 : ℤ) ≤ i ∧ (i : ℤ) < auxCnt := ⟨Int.natCast_nonneg i, Int.ofNat_lt.mpr h⟩
  rw [setAux, dif_pos hbounds]
  rfl

theorem puts_update (h : e.type.toNat < 32) :
    Puts aux e (Function.update aux ⟨e.type.toNat, h⟩ e.val) := by
  intro t
  by_cases htype : e.type.toNat = t.val
  · have hplace : t = ⟨e.type.toNat, h⟩ := Fin.ext htype.symm
    rw [if_pos htype, hplace, Function.update_self]
  · have hplace : t ≠ ⟨e.type.toNat, h⟩ := fun heq => htype (congrArg Fin.val heq).symm
    rw [if_neg htype, Function.update_of_ne hplace]

/-- An entry of a type with no place in the array is passed over. -/
theorem puts_self (h : ¬ e.type.toNat < 32) : Puts aux e aux := by
  intro t
  have htype : ¬ e.type.toNat = t.val := by
    omega
  rw [if_neg htype]

/-- The `int` of a type is the type. -/
theorem toInt_setWidth (h : e.type.toNat < 2 ^ 31) :
    (e.type.setWidth 32).toInt = (e.type.toNat : ℤ) := by
  rw [BitVec.toInt_eq_toNat_cond, BitVec.toNat_setWidth, Nat.mod_eq_of_lt (by omega),
    if_pos (by omega)]

theorem yields_storeAux (htype : e.type.toNat < 2 ^ 31) (hA : OnlyReads A s t)
    (hload : load64 s.mem entry = e.type) (hval : load64 s.mem (aVal entry) = e.val)
    (htypeA : region entry 4 ⊆ A) (hvalA : region (aVal entry) 8 ⊆ A) :
    Yields (storeAux entry aux) t fun aux' u => Puts aux e aux' ∧ OnlyReads A s u := by
  refine (hA.loadInt htypeA).bind ?_
  rintro _ u ⟨rfl, hu⟩
  rw [load32_eq_setWidth, hload, toInt_setWidth htype]
  by_cases hlt : e.type.toNat < 32
  · refine .ite_pos (Int.ofNat_lt.mpr hlt) ((hu.loadWord hvalA).bind ?_)
    rintro _ v ⟨rfl, hv⟩
    rw [setAux_of_lt hlt, hval]
    exact yields_pure ⟨puts_update hlt, hv⟩
  · exact .ite_neg (mt Int.ofNat_lt.mp hlt) (yields_pure ⟨puts_self hlt, hu⟩)

/-! ### The loops -/

theorem counts_argv {argc : BitVec 32} {n : ℕ} (hargc : argc.toInt = (n : ℤ)) :
    Counts (2 ^ 31) n (fun i b t => b = i ∧ OnlyReads A s t) (fun _ t => OnlyReads A s t)
      (argvRound argc) where
  next := by
    rintro i _ t ⟨rfl, ht⟩ hlt hnext
    rw [argvRound, hargc, if_pos (Int.ofNat_lt.mpr hlt), incrementInt_of_lt hnext]
    exact yields_pure ⟨_, rfl, rfl, ht⟩
  overflow := by
    rintro i _ t ⟨rfl, ht⟩ hlt hnext
    rw [argvRound, hargc, if_pos (Int.ofNat_lt.mpr hlt), incrementInt_of_not_lt hnext]
    exact stops_throw.bind _
  last := by
    rintro _ t ⟨rfl, ht⟩
    rw [argvRound, hargc, if_neg (lt_irrefl _)]
    exact yields_pure ⟨(), rfl, ht⟩

theorem load64_env {rest : List Word} (henv : HoldsWords s.mem envp (stack.envWords ++ rest))
    (hi : i < stack.env.length) : load64 s.mem (wordSlot envp i) = stack.env[i] := by
  apply henv.word
  rw [envWords, List.append_assoc, List.getElem?_append_left hi, List.getElem?_eq_getElem hi]

theorem load64_env_length {rest : List Word}
    (henv : HoldsWords s.mem envp (stack.envWords ++ rest)) :
    load64 s.mem (wordSlot envp stack.env.length) = 0 := by
  apply henv.word
  rw [envWords, List.append_assoc, List.getElem?_append_right le_rfl, Nat.sub_self]
  rfl

/-- A pointer of the environment is met. -/
theorem yields_env {rest : List Word} (henv : HoldsWords s.mem envp (stack.envWords ++ rest))
    (hA : ∀ i ≤ stack.env.length, region (wordSlot envp i) 8 ⊆ A) (hi : i < stack.env.length)
    (ht : OnlyReads A s t) :
    Yields (loadWord (wordSlot envp i)) t fun v u => v ≠ 0 ∧ OnlyReads A s u := by
  refine (ht.loadWord (hA i hi.le)).mono ?_
  rintro _ u ⟨rfl, hu⟩
  refine ⟨?_, hu⟩
  rw [load64_env henv hi]
  exact stack.env_ne _ (List.getElem_mem hi)

theorem counts_envp {rest : List Word} (henv : HoldsWords s.mem envp (stack.envWords ++ rest))
    (hA : ∀ i ≤ stack.env.length, region (wordSlot envp i) 8 ⊆ A) :
    Counts (2 ^ 31) stack.env.length (fun i b t => b = (i, i) ∧ OnlyReads A s t)
      (fun envc t => envc = stack.env.length ∧ OnlyReads A s t) (envpRound envp) where
  next := by
    rintro i _ t ⟨rfl, ht⟩ hlt hnext
    refine (yields_env henv hA hlt ht).bind fun v u hu => .ite_pos hu.1 ?_
    rw [incrementInt_of_lt hnext]
    exact yields_pure ⟨_, rfl, rfl, hu.2⟩
  overflow := by
    rintro i _ t ⟨rfl, ht⟩ hlt hnext
    refine (yields_env henv hA hlt ht).bind_stops fun v u hu => ?_
    rw [if_pos hu.1, incrementInt_of_not_lt hnext]
    exact stops_throw.bind _
  last := by
    rintro _ t ⟨rfl, ht⟩
    refine (ht.loadWord (hA _ le_rfl)).bind ?_
    rintro _ u ⟨rfl, hu⟩
    exact .ite_neg (not_not.mpr (load64_env_length henv)) (yields_pure ⟨_, rfl, rfl, hu⟩)

/-- The first places are cleared. -/
theorem counts_clearAux : Counts (2 ^ 31) 32
    (fun i b u => ∃ aux, b = (i, aux) ∧ (∀ t : Fin 32, t.val < i → aux t = 0) ∧ OnlyReads A s u)
    (fun aux u => aux = (fun _ => 0) ∧ OnlyReads A s u) clearAuxRound where
  next := by
    rintro i _ u ⟨aux, rfl, hzero, hu⟩ hlt hnext
    refine .ite_pos hlt ?_
    rw [setAux_of_lt hlt, incrementInt_of_lt hnext]
    refine yields_pure ⟨_, rfl, Function.update aux ⟨i, hlt⟩ 0, rfl, fun t ht => ?_, hu⟩
    by_cases hti : t = ⟨i, hlt⟩
    · rw [hti, Function.update_self]
    · rw [Function.update_of_ne hti]
      exact hzero t (Nat.lt_of_le_of_ne (Nat.le_of_lt_succ ht) fun h => hti (Fin.ext h))
  overflow := by
    rintro i b u - hlt hnext
    exact absurd (Nat.lt_of_le_of_lt hlt (by decide)) hnext
  last := by
    rintro _ u ⟨aux, rfl, hzero, hu⟩
    rw [clearAuxRound, if_neg (show ¬ 32 < auxCnt from Nat.lt_irrefl 32)]
    exact yields_pure ⟨aux, rfl, funext fun t => hzero t t.isLt, hu⟩

/-- The vector, and where it is read. -/
structure VectorAt (stack : InitialStack) (A : Set Word) (m : Mem) (auxv : Word) : Prop where
  words : HoldsWords m auxv stack.auxWords
  extent : region auxv (8 * stack.auxWords.length) ⊆ A

theorem VectorAt.type_subset (h : VectorAt stack A s.mem auxv) (hi : i ≤ stack.auxv.length) :
    region (aType (auxvEntry auxv i)) 4 ⊆ A := by
  have hfits := h.words.fits
  have hlength : stack.auxWords.length = 2 * stack.auxv.length + 2 := auxWords_length
  refine Set.Subset.trans ?_ h.extent
  exact region_add_subset (by omega) (by omega)

theorem VectorAt.val_subset (h : VectorAt stack A s.mem auxv) (hi : i < stack.auxv.length) :
    region (aVal (auxvEntry auxv i)) 8 ⊆ A := by
  have hfits := h.words.fits
  have hlength : stack.auxWords.length = 2 * stack.auxv.length + 2 := auxWords_length
  refine Set.Subset.trans ?_ h.extent
  rw [aVal_eq_slot]
  exact region_add_subset (by omega) (by omega)

theorem VectorAt.load_type (h : VectorAt stack A s.mem auxv) (hi : i < stack.auxv.length) :
    load64 s.mem (auxvEntry auxv i) = stack.auxv[i].type := by
  rw [auxvEntry_eq_slot]
  exact h.words.word _ _ (getElem?_flatMap_entry _ _ hi).1

theorem VectorAt.load_val (h : VectorAt stack A s.mem auxv) (hi : i < stack.auxv.length) :
    load64 s.mem (aVal (auxvEntry auxv i)) = stack.auxv[i].val := by
  rw [aVal_eq_slot]
  exact h.words.word _ _ (getElem?_flatMap_entry _ _ hi).2

/-- In front of its end the vector has no `AT_NULL`. -/
theorem VectorAt.type_ne (h : VectorAt stack A s.mem auxv) (hi : i < stack.auxv.length) :
    load32 s.mem (aType (auxvEntry auxv i)) ≠ atNull := by
  have htype := stack.types _ (List.getElem_mem hi)
  intro heq
  have hint := toInt_setWidth htype.2
  rw [aType, load32_eq_setWidth, h.load_type hi] at heq
  rw [heq] at hint
  exact absurd hint.symm (Int.natCast_pos.mpr htype.1).ne'

theorem VectorAt.type_length (h : VectorAt stack A s.mem auxv) :
    load32 s.mem (aType (auxvEntry auxv stack.auxv.length)) = atNull := by
  rw [aType, load32_eq_setWidth, auxvEntry_eq_slot, h.words.word _ _ getElem?_auxWords_length]
  rfl

/-- A round of the loop over the vector up to the counter. -/
theorem VectorAt.yields_entry (h : VectorAt stack A s.mem auxv) (hi : i < stack.auxv.length)
    (ht : OnlyReads A s t) :
    Yields (storeAux (auxvEntry auxv i) aux) t fun aux' u =>
      Puts aux stack.auxv[i] aux' ∧ OnlyReads A s u :=
  yields_storeAux (stack.types _ (List.getElem_mem hi)).2 ht (h.load_type hi) (h.load_val hi)
    (h.type_subset hi.le) (h.val_subset hi)

/-- The entries up to the counter are in their places. -/
theorem counts_auxv (h : VectorAt stack A s.mem auxv) : Counts (2 ^ 31) stack.auxv.length
    (fun i b u => ∃ aux, b = (i, aux) ∧ (∀ t, aux t = lastAux (stack.auxv.take i) t) ∧
      OnlyReads A s u)
    (fun aux u => (∀ t, aux t = lastAux stack.auxv t) ∧ OnlyReads A s u) (auxvRound auxv) where
  next := by
    rintro i _ t ⟨aux, rfl, haux, ht⟩ hlt hnext
    refine (ht.loadInt (h.type_subset hlt.le)).bind ?_
    rintro _ u ⟨rfl, hu⟩
    refine .ite_pos (h.type_ne hlt) ((h.yields_entry hlt hu).bind fun aux' v hv => ?_)
    rw [incrementInt_of_lt hnext]
    refine yields_pure ⟨_, rfl, aux', rfl, fun t => ?_, hv.2⟩
    rw [← List.take_concat_get' _ _ hlt, lastAux_concat, hv.1 t, haux t]
  overflow := by
    rintro i _ t ⟨aux, rfl, -, ht⟩ hlt hnext
    refine (ht.loadInt (h.type_subset hlt.le)).bind_stops ?_
    rintro _ u ⟨rfl, hu⟩
    rw [if_pos (h.type_ne hlt)]
    refine (h.yields_entry hlt hu).bind_stops fun aux' v _ => ?_
    rw [incrementInt_of_not_lt hnext]
    exact stops_throw.bind _
  last := by
    rintro _ t ⟨aux, rfl, haux, ht⟩
    refine (ht.loadInt (h.type_subset le_rfl)).bind ?_
    rintro _ u ⟨rfl, hu⟩
    refine .ite_neg (not_not.mpr h.type_length) (yields_pure ⟨aux, rfl, fun t => ?_, hu⟩)
    rw [haux t, List.take_length]

/-! ### The three sections together -/

/-- The count of the arguments, as the code gets it. -/
theorem toInt_argc : ((BitVec.ofNat 64 stack.args.length).setWidth 32).toInt
    = (stack.args.length : ℤ) := by
  have hargc := stack.argc
  rw [BitVec.toInt_eq_toNat_cond, BitVec.toNat_setWidth, BitVec.toNat_ofNat]
  omega

theorem envp_eq (sp : Word) :
    sp + 8 + 8 * ((BitVec.ofNat 64 stack.args.length).setWidth 32).signExtend 64 + 8
      = wordSlot sp stack.argWords.length := by
  have hargc := stack.argc
  have hsign : ((BitVec.ofNat 64 stack.args.length).setWidth 32).signExtend 64
      = BitVec.ofNat 64 stack.args.length := by
    apply BitVec.eq_of_toInt_eq
    rw [BitVec.toInt_signExtend_of_le (by decide), toInt_argc, BitVec.toInt_eq_toNat_cond,
      BitVec.toNat_ofNat]
    omega
  apply BitVec.eq_of_toNat_eq
  rw [hsign, argWords_length, wordSlot]
  simp only [BitVec.toNat_add, BitVec.toNat_mul, BitVec.toNat_ofNat,
    show (8 : Word).toNat = 8 from rfl]
  omega

theorem sp_subset : region sp 8 ⊆ stack.extent sp :=
  region_mono (by rw [words, List.length_append, argWords_length]; omega)

theorem onlyReads_sp : OnlyReads (stack.extent sp) s (s.record (.load sp 8)) :=
  (onlyReads_refl _ s).load sp_subset

section

variable (h : HoldsWords s.mem sp stack.words)
include h

theorem load64_sp : load64 s.mem sp = BitVec.ofNat 64 stack.args.length := by
  have hfirst := h.word 0 _ rfl
  rwa [wordSlot_zero] at hfirst

theorem holdsWords_env :
    HoldsWords s.mem (wordSlot sp stack.argWords.length) (stack.envWords ++ stack.auxWords) :=
  HoldsWords.suffix h

theorem env_subset (hi : i ≤ stack.env.length) :
    region (wordSlot (wordSlot sp stack.argWords.length) i) 8 ⊆ stack.extent sp := by
  have hfits := h.fits
  rw [words_length] at hfits
  rw [wordSlot_add, extent, words_length, argWords_length]
  exact region_add_subset (by omega) (by omega)

theorem vectorAt : VectorAt stack (stack.extent sp) s.mem
    (wordSlot (wordSlot sp stack.argWords.length) (stack.env.length + 1)) := by
  have hfits := h.fits
  rw [words_length] at hfits
  rw [← envWords_length]
  refine ⟨(holdsWords_env h).suffix, ?_⟩
  rw [wordSlot_add, extent, words_length, argWords_length, envWords_length, auxWords_length]
  exact region_add_subset (by omega) (by omega)

/-- The first word, and what the rest of the code makes of it. -/
theorem ldStage1Aux_eq (fuel : ℕ) (aux : AuxTable) : ldStage1Aux fuel sp aux s =
    (do
      loop (argvRound ((BitVec.ofNat 64 stack.args.length).setWidth 32)) fuel 0
      let envc ← loop (envpRound (wordSlot sp stack.argWords.length)) fuel (0, 0)
      let aux ← loop clearAuxRound fuel (0, aux)
      loop (auxvRound (wordSlot (wordSlot sp stack.argWords.length) (envc + 1))) fuel (0, aux) :
      Exec Call AuxTable) (s.record (.load sp 8)) := by
  rw [ldStage1Aux, loadWord_bind, load64_sp h, envp_eq]

theorem decodes_of_lt (henv : stack.env.length < 2 ^ 31) (hauxv : stack.auxv.length < 2 ^ 31) :
    stack.Decodes sp s := by
  refine ⟨stack.args.length + stack.env.length + stack.auxv.length + 33, fun fuel aux hfuel => ?_⟩
  rw [Yields, ldStage1Aux_eq h]
  have hsp : OnlyReads (stack.extent sp) s (s.record (.load sp 8)) := onlyReads_sp
  refine ((counts_argv toInt_argc).yields stack.argc ⟨rfl, hsp⟩ (Nat.zero_le _)
    (by omega)).bind fun _ t ht => ?_
  refine ((counts_envp (holdsWords_env h) fun i hi => env_subset h hi).yields henv ⟨rfl, ht⟩
    (Nat.zero_le _) (by omega)).bind ?_
  rintro _ u ⟨rfl, hu⟩
  refine (counts_clearAux.yields (by decide)
    ⟨aux, rfl, fun t ht => absurd ht (Nat.not_lt_zero _), hu⟩ (Nat.zero_le _) (by omega)).bind ?_
  rintro _ v ⟨rfl, hv⟩
  exact (counts_auxv (vectorAt h)).yields hauxv ⟨_, rfl, fun _ => rfl, hv⟩ (Nat.zero_le _)
    (by omega)

/-- Code that returns has counted the environment and the vector. -/
theorem Decodes.lt (hdecodes : stack.Decodes sp s) :
    stack.env.length < 2 ^ 31 ∧ stack.auxv.length < 2 ^ 31 := by
  obtain ⟨fuel, hn⟩ := hdecodes
  obtain ⟨_, w, hrun, -⟩ := hn fuel (fun _ => 0) le_rfl
  rw [ldStage1Aux_eq h] at hrun
  obtain ⟨_, t, hargv, hrun⟩ := exists_of_bind_ok hrun
  have hsp : OnlyReads (stack.extent sp) s (s.record (.load sp 8)) := onlyReads_sp
  have ht := (counts_argv toInt_argc).of_ok ⟨rfl, hsp⟩ (Nat.zero_le _) (by decide) hargv
  obtain ⟨envc, u, henvp, hrun⟩ := exists_of_bind_ok hrun
  have hcounts := counts_envp (holdsWords_env h) fun i hi => env_subset h hi
  have henv := hcounts.lt_of_ok ⟨rfl, ht⟩ (Nat.zero_le _) (by decide) henvp
  obtain ⟨rfl, hu⟩ := hcounts.of_ok ⟨rfl, ht⟩ (Nat.zero_le _) (by decide) henvp
  obtain ⟨_, v, hclear, hrun⟩ := exists_of_bind_ok hrun
  obtain ⟨rfl, hv⟩ := counts_clearAux.of_ok
    ⟨_, rfl, fun t ht => absurd ht (Nat.not_lt_zero _), hu⟩ (Nat.zero_le _) (by decide) hclear
  exact ⟨henv, (counts_auxv (vectorAt h)).lt_of_ok ⟨_, rfl, fun _ => rfl, hv⟩ (Nat.zero_le _)
    (by decide) hrun⟩

/-- The two counters are what bounds the code. -/
theorem decodes_iff_lt : stack.Decodes sp s ↔
    stack.env.length < 2 ^ 31 ∧ stack.auxv.length < 2 ^ 31 := by
  constructor
  · exact Decodes.lt h
  · rintro ⟨henv, hauxv⟩
    exact decodes_of_lt h henv hauxv

/-- The code decodes each stack that the kernel lays out for a new process. -/
theorem decodes_stack (hlimits : stack.KernelLimits) : stack.Decodes sp s :=
  decodes_of_lt h (Nat.lt_succ_of_le hlimits.env) hlimits.auxv

end

/-- Two entries of one type, and one of a type that `aux` has no place for. -/
def repeatedEntry : InitialStack where
  args := [0x7000]
  env := [0x7100, 0x7200]
  auxv := [⟨3, 64⟩, ⟨33, 5⟩, ⟨3, 72⟩]
  nullVal := 0
  argc := by decide
  env_ne := by simp
  types := by simp

theorem decodes_stack_repeatedEntry :
    repeatedEntry.Decodes 0x6000 ⟨ofWords 0x6000 repeatedEntry.words, []⟩ :=
  decodes_stack (holdsWords_ofWords (by decide)) ⟨by decide, by decide⟩

end InitialStack

end Ciabatta.Loader
