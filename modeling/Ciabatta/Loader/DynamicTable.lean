import Ciabatta.Loader.Relocation

/-!
How the loader decodes a dynamic vector into the array `dyn`. The code stands
twice in the source, in `ld_stage1_entry` (`loader-self-reloc.c`) and in
`ld_stage2_entry` (`loader.c`). The first copy compares the tag with the size of
the array as an unsigned number, the second one as a signed number; the second
one also keeps a mask of the tags that it has met. Each `for` loop gets `fuel`
rounds.
-/

namespace Ciabatta.Loader

open ByteMemory Exec

structure Elf64Dyn where
  dTag : Word
  dVal : Word
  deriving DecidableEq

def dtNull : Word := 0

/-- `DYN_CNT` -/
def dynCnt : ℕ := 37

/-- `dyn[0]`, which no tag leads to; the second copy has its mask there. -/
def dtNullPlace : Fin 37 := ⟨0, by decide⟩

/-- Programs that write to `u64 dyn[DYN_CNT]`. -/
abbrev DynM := EStateM Stop DynTable

/-- `dyn[i] = v`. A write off the array stops the program. -/
def setDyn (i : ℤ) (v : Word) : DynM Unit := fun dyn =>
  if h : 0 ≤ i ∧ i < dynCnt then
    .ok () (Function.update dyn ⟨i.toNat, (Int.toNat_lt h.1).mpr h.2⟩ v)
  else
    .error .outOfBounds dyn

/-- `dynv[i]` -/
def dynvEntry (dynv : List Elf64Dyn) (i : ℕ) : DynM Elf64Dyn :=
  match dynv[i]? with
  | some e => pure e
  | none => throw .overread

def clearRound (i : ℕ) : DynM (ℕ ⊕ Unit) :=
  if i < dynCnt then do
    setDyn i 0
    return .inl (← incrementInt i)
  else
    return .inr ()

/-- The round of the loop over `int i` that hands the entries to `store`. -/
def decodeRound (store : Elf64Dyn → DynM Unit) (dynv : List Elf64Dyn) (i : ℕ) :
    DynM (ℕ ⊕ Unit) := do
  let e ← dynvEntry dynv i
  if e.dTag ≠ dtNull then do
    store e
    return .inl (← incrementInt i)
  else
    return .inr ()

def Stage1.storeDyn (e : Elf64Dyn) : DynM Unit :=
  let dynTag : Word := e.dTag
  if dynTag < BitVec.ofNat 64 dynCnt then setDyn dynTag.toNat e.dVal else pure ()

/-- `dyn[0] |= 1ul << d_tag`. The processor takes the count modulo 64. -/
def Stage2.markTag (dTag : Word) : DynM Unit := fun dyn =>
  .ok () (Function.update dyn dtNullPlace (dyn dtNullPlace ||| (1 : Word) <<< (dTag &&& 63)))

def Stage2.storeDyn (e : Elf64Dyn) : DynM Unit :=
  let dTag : ℤ := e.dTag.toInt
  if dTag < dynCnt then do
    markTag e.dTag
    setDyn dTag e.dVal
  else
    pure ()

/-- The code that is the same in both copies. -/
def decodeDyn (store : Elf64Dyn → DynM Unit) (fuel : ℕ) (dynv : List Elf64Dyn) : DynM Unit := do
  loop clearRound fuel 0
  loop (decodeRound store dynv) fuel 0

def ldStage1Decode : ℕ → List Elf64Dyn → DynM Unit :=
  decodeDyn Stage1.storeDyn

def ldStage2Decode : ℕ → List Elf64Dyn → DynM Unit :=
  decodeDyn Stage2.storeDyn

/-! ### The vectors and what they say -/

/-- A vector of `Elf64_Dyn` that ends with `DT_NULL`. -/
structure DynVector where
  entries : List Elf64Dyn
  nullVal : Word
  tags : ∀ e ∈ entries, e.dTag ≠ dtNull

def DynVector.toList (v : DynVector) : List Elf64Dyn :=
  v.entries ++ [⟨dtNull, v.nullVal⟩]

/-- The value of the last entry with tag `t`, or 0 if there is none. -/
def lastVal (es : List Elf64Dyn) (t : Fin 37) : Word :=
  ((es.reverse.find? fun e => e.dTag.toInt = (t.val : ℤ)).map Elf64Dyn.dVal).getD 0

/-- The decoder returns without a write off the array, whatever this holds before,
and leaves in each place but that of `DT_NULL` the value of the last entry with
this tag. -/
def Decodes (decode : ℕ → List Elf64Dyn → DynM Unit) (v : DynVector) : Prop :=
  ∃ n, ∀ fuel dyn, n ≤ fuel → Yields (decode fuel v.toList) dyn fun _ dyn' =>
    ∀ t, t ≠ dtNullPlace → dyn' t = lastVal v.entries t

/-- An `int` can count the entries, and none of their tags is negative. -/
structure WellTagged (v : DynVector) : Prop where
  length : v.entries.length < 2 ^ 31
  tags : ∀ e ∈ v.entries, 0 ≤ e.dTag.toInt

/-- From `dyn` to `dyn'` the value of the entry goes to the place of its tag. -/
def Puts (dyn : DynTable) (e : Elf64Dyn) (dyn' : DynTable) : Prop :=
  ∀ t, t ≠ dtNullPlace → dyn' t = if e.dTag.toInt = (t.val : ℤ) then e.dVal else dyn t

variable {v : DynVector} {es : List Elf64Dyn} {e : Elf64Dyn} {dyn dyn' : DynTable} {fuel i : ℕ}
  {store : Elf64Dyn → DynM Unit}

/-! ### The loops -/

theorem setDyn_ofNat {v : Word} (h : i < 37) :
    setDyn i v dyn = .ok () (Function.update dyn ⟨i, h⟩ v) := by
  have hbounds : (0 : ℤ) ≤ i ∧ (i : ℤ) < dynCnt := ⟨Int.natCast_nonneg i, Int.ofNat_lt.mpr h⟩
  rw [setDyn, dif_pos hbounds]
  rfl

theorem yields_clear (hfuel : 37 < fuel) :
    Yields (loop clearRound fuel 0) dyn fun _ dyn' => dyn' = fun _ => 0 := by
  refine yields_loop (fun i dyn => i ≤ 37 ∧ ∀ t : Fin 37, t.val < i → dyn t = 0)
    (fun i => 37 - i) ?_ ⟨Nat.zero_le _, fun _ h => absurd h (Nat.not_lt_zero _)⟩ hfuel
  rintro i dyn ⟨hi, hzero⟩
  by_cases hlt : i < 37
  · have hincrement : incrementInt (σ := DynTable) i = pure (i + 1) := if_pos (by omega)
    refine .ite_pos hlt ⟨.inl (i + 1), Function.update dyn ⟨i, hlt⟩ 0, ?_, ⟨hlt, ?_⟩, by omega⟩
    · rw [bind_of_ok (setDyn_ofNat hlt), hincrement]
      rfl
    · intro t ht
      by_cases hti : t = ⟨i, hlt⟩
      · rw [hti, Function.update_self]
      · rw [Function.update_of_ne hti]
        exact hzero t (Nat.lt_of_le_of_ne (Nat.le_of_lt_succ ht) fun h => hti (Fin.ext h))
  · refine .ite_neg hlt (yields_pure ?_)
    funext t
    exact hzero t (by omega)

theorem dynvEntry_of_lt (hi : i < v.entries.length) :
    dynvEntry v.toList i = pure (v.entries[i]) := by
  rw [dynvEntry, DynVector.toList, List.getElem?_append_left hi, List.getElem?_eq_getElem hi]

theorem dynvEntry_length : dynvEntry v.toList v.entries.length = pure ⟨dtNull, v.nullVal⟩ := by
  rw [dynvEntry, DynVector.toList, List.getElem?_append_right le_rfl, Nat.sub_self]
  rfl

theorem decodeRound_of_lt (hi : i < v.entries.length) :
    decodeRound store v.toList i
      = store (v.entries[i]) >>= fun _ => Sum.inl <$> incrementInt i := by
  rw [decodeRound, dynvEntry_of_lt hi, pure_bind, if_pos (v.tags _ (List.getElem_mem hi))]
  rfl

theorem decodeRound_length : decodeRound store v.toList v.entries.length = pure (.inr ()) := by
  rw [decodeRound, dynvEntry_length, pure_bind, if_neg (not_not_intro rfl)]

/-- As long as the counter does not overflow, the loop hands each entry to
`store` in turn. -/
theorem decodeLoop_eq (hlength : v.entries.length < 2 ^ 31) (hi : i ≤ v.entries.length)
    (hfuel : v.entries.length - i < fuel) :
    loop (decodeRound store v.toList) fuel i = forM (v.entries.drop i) store := by
  induction fuel generalizing i with
  | zero => exact absurd hfuel (Nat.not_lt_zero _)
  | succ fuel ih =>
      rcases hi.lt_or_eq with hlt | rfl
      · have hincrement : incrementInt (σ := DynTable) i = pure (i + 1) := if_pos (by omega)
        rw [loop, decodeRound_of_lt hlt, hincrement, List.drop_eq_getElem_cons hlt, bind_assoc]
        refine bind_congr fun _ => ?_
        exact ih hlt (by omega)
      · rw [loop, decodeRound_length, List.drop_length]
        rfl

theorem of_decodeRound_ok {r : ℕ ⊕ Unit} (hi : i < v.entries.length)
    (h : decodeRound store v.toList i dyn = .ok r dyn') : i + 1 < 2 ^ 31 ∧ r = .inl (i + 1) := by
  rw [decodeRound_of_lt hi] at h
  obtain ⟨_, _, -, hnext⟩ := exists_of_bind_ok h
  rw [map_eq_pure_bind] at hnext
  obtain ⟨n, _, hcount, hlast⟩ := exists_of_bind_ok hnext
  obtain ⟨hlt, rfl, -⟩ := of_incrementInt_ok hcount
  exact ⟨hlt, (eq_of_pure_ok hlast).1⟩

/-- If the loop returns then the counter did not overflow. -/
theorem length_lt_of_decodeLoop (hi : i ≤ v.entries.length) (hcount : i < 2 ^ 31)
    (h : loop (decodeRound store v.toList) fuel i dyn = .ok () dyn') :
    v.entries.length < 2 ^ 31 := by
  induction fuel generalizing i dyn with
  | zero => cases h
  | succ fuel ih =>
      rcases hi.lt_or_eq with hlt | rfl
      · obtain ⟨k, r, u, hfuel, hround, hrest⟩ := exists_of_loop_ok h
        obtain rfl := Nat.succ.inj hfuel
        obtain ⟨hnext, rfl⟩ := of_decodeRound_ok hlt hround
        exact ih hlt hnext hrest
      · exact hcount

/-! ### The entries -/

theorem toInt_eq_iff {d : Word} {t : Fin 37} : d.toInt = (t.val : ℤ) ↔ d.toNat = t.val := by
  have hd : d.toNat < 2 ^ 64 := d.isLt
  have ht : t.val < 37 := t.isLt
  rw [BitVec.toInt_eq_toNat_cond]
  split <;> omega

theorem puts_update (h : e.dTag.toNat < 37) (hdyn : ∀ t, t ≠ dtNullPlace → dyn' t = dyn t) :
    Puts dyn e (Function.update dyn' ⟨e.dTag.toNat, h⟩ e.dVal) := by
  intro t ht
  by_cases htag : e.dTag.toNat = t.val
  · have hplace : t = ⟨e.dTag.toNat, h⟩ := Fin.ext htag.symm
    rw [if_pos (toInt_eq_iff.mpr htag), hplace, Function.update_self]
  · have hplace : t ≠ ⟨e.dTag.toNat, h⟩ := fun heq => htag (congrArg Fin.val heq).symm
    rw [if_neg (mt toInt_eq_iff.mp htag), Function.update_of_ne hplace, hdyn t ht]

/-- An entry with no place in the array is passed over. -/
theorem puts_self (h : ¬ e.dTag.toNat < 37) : Puts dyn e dyn := by
  intro t _
  have htag : ¬ e.dTag.toInt = (t.val : ℤ) := by
    rw [toInt_eq_iff]
    omega
  rw [if_neg htag]

theorem yields_stage1_storeDyn :
    Yields (Stage1.storeDyn e) dyn fun _ dyn' => Puts dyn e dyn' := by
  have hiff : e.dTag < BitVec.ofNat 64 dynCnt ↔ e.dTag.toNat < 37 := Iff.rfl
  by_cases hlt : e.dTag.toNat < 37
  · exact .ite_pos (hiff.mpr hlt) ⟨(), _, setDyn_ofNat hlt, puts_update hlt fun _ _ => rfl⟩
  · exact .ite_neg (mt hiff.mp hlt) (yields_pure (puts_self hlt))

theorem yields_markTag {d : Word} : Yields (Stage2.markTag d) dyn fun _ dyn' =>
    ∀ t, t ≠ dtNullPlace → dyn' t = dyn t :=
  ⟨(), _, rfl, fun _ ht => Function.update_of_ne ht _ _⟩

theorem yields_stage2_storeDyn (htag : 0 ≤ e.dTag.toInt) :
    Yields (Stage2.storeDyn e) dyn fun _ dyn' => Puts dyn e dyn' := by
  have hnat := toInt_eq_toNat htag
  have hiff : e.dTag.toInt < dynCnt ↔ e.dTag.toNat < 37 := by
    rw [hnat]
    exact Int.ofNat_lt
  by_cases hlt : e.dTag.toNat < 37
  · refine .ite_pos (hiff.mpr hlt) (yields_markTag.bind fun _ dyn' hdyn' => ?_)
    rw [hnat]
    exact ⟨(), _, setDyn_ofNat hlt, puts_update hlt hdyn'⟩
  · exact .ite_neg (mt hiff.mp hlt) (yields_pure (puts_self hlt))

/-- A negative tag passes the test, and is no index. -/
theorem stops_stage2_storeDyn (htag : e.dTag.toInt < 0) :
    Stops (Stage2.storeDyn e) dyn .outOfBounds := by
  have hlt : e.dTag.toInt < dynCnt := htag.trans (by decide)
  have hbounds : ¬ (0 ≤ e.dTag.toInt ∧ e.dTag.toInt < dynCnt) := fun h => absurd h.1 (by omega)
  rw [Stage2.storeDyn, if_pos hlt]
  exact yields_markTag.bind_stops fun _ dyn' _ => ⟨dyn', dif_neg hbounds⟩

/-! ### The vector -/

theorem lastVal_concat (es : List Elf64Dyn) (e : Elf64Dyn) (t : Fin 37) :
    lastVal (es ++ [e]) t = if e.dTag.toInt = (t.val : ℤ) then e.dVal else lastVal es t := by
  rw [lastVal, List.reverse_concat, List.find?_cons]
  by_cases htag : e.dTag.toInt = (t.val : ℤ)
  · simp [htag]
  · simp [htag, lastVal]

/-- Entries that are put in one after the other leave the last of each tag. -/
theorem yields_forM
    (hstore : ∀ e ∈ es, ∀ dyn, Yields (store e) dyn fun _ dyn' => Puts dyn e dyn') :
    Yields (forM es store) (fun _ => 0) fun _ dyn' =>
      ∀ t, t ≠ dtNullPlace → dyn' t = lastVal es t := by
  induction es using List.reverseRecOn with
  | nil => exact yields_pure fun _ _ => rfl
  | append_singleton es e ih =>
      rw [List.forM_append]
      refine (ih fun e he => hstore e (List.mem_append_left _ he)).bind fun _ dyn hdyn => ?_
      have hlast := hstore e (List.mem_append_right _ (List.mem_singleton_self e)) dyn
      refine hlast.bind fun _ dyn' hputs => yields_pure fun t ht => ?_
      rw [lastVal_concat, hputs t ht, hdyn t ht]

theorem exists_of_forM_ok (h : forM es store dyn = .ok () dyn') (he : e ∈ es) :
    ∃ dyn₁ dyn₂, store e dyn₁ = .ok () dyn₂ := by
  induction es generalizing dyn with
  | nil => cases he
  | cons e' es ih =>
      obtain ⟨_, u, hfirst, hrest⟩ := exists_of_bind_ok h
      rcases List.mem_cons.mp he with rfl | he
      · exact ⟨dyn, u, hfirst⟩
      · exact ih hrest he

theorem yields_decodeDyn (hlength : v.entries.length < 2 ^ 31)
    (hstore : ∀ e ∈ v.entries, ∀ dyn, Yields (store e) dyn fun _ dyn' => Puts dyn e dyn')
    (hfuel : 37 + v.entries.length < fuel) :
    Yields (decodeDyn store fuel v.toList) dyn fun _ dyn' =>
      ∀ t, t ≠ dtNullPlace → dyn' t = lastVal v.entries t := by
  refine (yields_clear (by omega)).bind fun _ dyn' hclear => ?_
  rw [hclear, decodeLoop_eq hlength (Nat.zero_le _) (by omega), List.drop_zero]
  exact yields_forM hstore

theorem decodes_of_puts (hlength : v.entries.length < 2 ^ 31)
    (hstore : ∀ e ∈ v.entries, ∀ dyn, Yields (store e) dyn fun _ dyn' => Puts dyn e dyn') :
    Decodes (decodeDyn store) v :=
  ⟨38 + v.entries.length, fun _ _ hfuel => yields_decodeDyn hlength hstore (by omega)⟩

/-- A decoder that returns has handed all entries to `store`. -/
theorem Decodes.returns (h : Decodes (decodeDyn store) v) : v.entries.length < 2 ^ 31 ∧
    ∀ e ∈ v.entries, ∃ dyn dyn', store e dyn = .ok () dyn' := by
  obtain ⟨n, hn⟩ := h
  obtain ⟨_, u, hrun, -⟩ := hn (n + v.entries.length + 1) (fun _ => 0) (by omega)
  obtain ⟨_, w, -, hloop⟩ := exists_of_bind_ok hrun
  have hlength := length_lt_of_decodeLoop (Nat.zero_le _) (by norm_num) hloop
  rw [decodeLoop_eq hlength (Nat.zero_le _) (by omega), List.drop_zero] at hloop
  exact ⟨hlength, fun e he => exists_of_forM_ok hloop he⟩

theorem decodes_stage1_iff : Decodes ldStage1Decode v ↔ v.entries.length < 2 ^ 31 := by
  constructor
  · intro h
    exact h.returns.1
  · intro hlength
    exact decodes_of_puts hlength fun _ _ _ => yields_stage1_storeDyn

theorem decodes_stage2_iff : Decodes ldStage2Decode v ↔ WellTagged v := by
  constructor
  · intro h
    obtain ⟨hlength, hreturns⟩ := h.returns
    refine ⟨hlength, fun e he => ?_⟩
    by_contra htag
    obtain ⟨dyn, dyn', hstore⟩ := hreturns e he
    exact (stops_stage2_storeDyn (not_le.mp htag)).ne_ok () dyn' hstore
  · intro h
    exact decodes_of_puts h.length fun e he _ => yields_stage2_storeDyn (h.tags e he)

/-- Both decoders do what they should if and only if the vector is short enough
and no tag is negative. -/
theorem decodes_iff (v : DynVector) :
    (Decodes ldStage1Decode v ∧ Decodes ldStage2Decode v) ↔ WellTagged v := by
  rw [decodes_stage1_iff, decodes_stage2_iff]
  exact and_iff_right_of_imp fun h => h.length

/-- A vector with one entry, whose tag is -1. -/
def negativeTag : DynVector where
  entries := [⟨-1, 5⟩]
  nullVal := 0
  tags := by decide

theorem decodes_fails : ¬ ∀ v : DynVector, Decodes ldStage1Decode v ∧ Decodes ldStage2Decode v := by
  intro h
  have htagged := decodes_stage2_iff.mp (h negativeTag).2
  exact absurd (htagged.tags _ (List.mem_singleton_self _)) (by decide)

end Ciabatta.Loader
