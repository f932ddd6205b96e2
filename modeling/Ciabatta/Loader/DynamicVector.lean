import Ciabatta.Lib.Footprint
import Ciabatta.Lib.Hosted
import Ciabatta.Lib.WordArray
import Ciabatta.Loader.DynamicTable
import Ciabatta.Loader.RelocationResult

/-!
The two decoders on a dynamic vector that stands in memory, as `ld_stage1_entry`
and `ld_stage2_entry` run them. They do what the decoders do on the list of its
entries. The array `dyn` that they leave is what relocation starts from; only its
place of `DT_NULL` differs between the two.
-/

namespace Ciabatta.Loader

open ByteMemory Exec

/-- The members of `Elf64_Dyn`, by their address. -/
def dTag (entry : Word) : Word := entry
def dVal (entry : Word) : Word := entry + 8

/-- `&dynv[i]` -/
def dynvSlot (dynv : Word) (i : ℕ) : Word := dynv + BitVec.ofNat 64 (16 * i)

/-- A program on `dyn` as a part of one on the memory. -/
def onDyn (x : DynM Unit) (dyn : DynTable) : Exec Call DynTable := fun s =>
  match x dyn with
  | .ok _ dyn' => .ok dyn' s
  | .error e _ => .error e s

/-- The body of the loop over `dynv`, on `u64 dyn_tag`. -/
def Stage1.storeEntry (entry : Word) (dyn : DynTable) : Exec Call DynTable := do
  let dynTag ← loadWord (dTag entry)
  if dynTag < BitVec.ofNat 64 dynCnt then do
    let val ← loadWord (dVal entry)
    onDyn (setDyn dynTag.toNat val) dyn
  else
    return dyn

/-- The same on `i64 d_tag`, with the mask in `dyn[0]`. -/
def Stage2.storeEntry (entry : Word) (dyn : DynTable) : Exec Call DynTable := do
  let dTag ← loadWord (dTag entry)
  if dTag.toInt < dynCnt then do
    let dyn ← onDyn (markTag dTag) dyn
    let val ← loadWord (dVal entry)
    onDyn (setDyn dTag.toInt val) dyn
  else
    return dyn

def dynvRound (storeEntry : Word → DynTable → Exec Call DynTable) (dynv : Word) :
    ℕ × DynTable → Exec Call ((ℕ × DynTable) ⊕ DynTable)
  | (i, dyn) => do
      let tag ← loadWord (dTag (dynvSlot dynv i))
      if tag ≠ dtNull then do
        let dyn ← storeEntry (dynvSlot dynv i) dyn
        let i ← incrementInt i
        return .inl (i, dyn)
      else
        return .inr dyn

/-- What a round leaves in `i` and `dyn`. -/
def roundEnd (r : ℕ ⊕ Unit) (dyn : DynTable) : (ℕ × DynTable) ⊕ DynTable :=
  r.map (·, dyn) fun _ => dyn

/-- From the declaration of `dyn`, which holds anything then, to the end of the
loop over `dynv`. -/
def decodeDynv (storeEntry : Word → DynTable → Exec Call DynTable) (fuel : ℕ) (dynv : Word)
    (dyn : DynTable) : Exec Call DynTable := do
  let dyn ← onDyn (loop clearRound fuel 0) dyn
  loop (dynvRound storeEntry dynv) fuel (0, dyn)

namespace DynVector

/-- The words of the vector. -/
def words (v : DynVector) : List Word :=
  v.entries.flatMap (fun e => [e.dTag, e.dVal]) ++ [dtNull, v.nullVal]

/-- What a decoder should make of the vector. -/
def table (v : DynVector) : DynTable :=
  lastVal v.entries

end DynVector

/-- The array agrees with the table but for its place of `DT_NULL`. -/
def Tabulates (v : DynVector) (dyn : DynTable) : Prop :=
  ∀ t, t ≠ dtNullPlace → dyn t = v.table t

/-- On an entry that stands in memory the body of the loop does what `store` does. -/
def Stores (store : Elf64Dyn → DynM Unit) (storeEntry : Word → DynTable → Exec Call DynTable) :
    Prop :=
  ∀ (m : Mem) (e : Elf64Dyn) (entry : Word) (dyn : DynTable),
    load64 m (dTag entry) = e.dTag → load64 m (dVal entry) = e.dVal →
      Hosts (fun t : Machine Call => t.mem = m) (store e) dyn (storeEntry entry dyn)
        fun _ dyn' => dyn'

variable {v : DynVector} {e : Elf64Dyn} {es : List Elf64Dyn} {m : Mem} {base dynv entry : Word}
  {dyn dyn' : DynTable} {s t : Machine Call} {fuel i : ℕ}
  {store : Elf64Dyn → DynM Unit} {storeEntry : Word → DynTable → Exec Call DynTable}

/-! ### The entries -/

theorem hosts_onDyn (x : DynM Unit) (dyn : DynTable) :
    Hosts (fun t : Machine Call => t.mem = m) x dyn (onDyn x dyn) fun _ dyn' => dyn' where
  ok hx ht := by
    refine ⟨_, _, ?_, rfl, ht⟩
    rw [onDyn, hx]
  error {_ _ t} hx _ := by
    refine ⟨t, ?_⟩
    rw [onDyn, hx]

theorem stores_stage1 : Stores Stage1.storeDyn Stage1.storeEntry := by
  intro m e entry dyn htag hval
  refine .loadWord_bind ?_
  rw [htag]
  refine .ite (.loadWord_bind ?_) (hosts_pure () fun _ dyn' => dyn')
  rw [hval]
  exact hosts_onDyn _ _

theorem stores_stage2 : Stores Stage2.storeDyn Stage2.storeEntry := by
  intro m e entry dyn htag hval
  refine .loadWord_bind ?_
  rw [htag]
  refine .ite ((hosts_onDyn _ _).bind fun _ _ _ => .loadWord_bind ?_)
    (hosts_pure () fun _ dyn' => dyn')
  rw [hval]
  exact hosts_onDyn _ _

/-! ### The vector -/

theorem dynvSlot_eq_slot (dynv : Word) (i : ℕ) : dynvSlot dynv i = wordSlot dynv (2 * i) := by
  rw [dynvSlot, wordSlot, ← Nat.mul_assoc]

theorem dVal_eq_slot (dynv : Word) (i : ℕ) :
    dVal (dynvSlot dynv i) = wordSlot dynv (2 * i + 1) := by
  rw [dynvSlot_eq_slot, ← wordSlot_add]
  rfl

/-- The two words of an entry, in front of `ws`. -/
theorem getElem?_flatMap_dyn (es : List Elf64Dyn) (ws : List Word) (hi : i < es.length) :
    (es.flatMap (fun e => [e.dTag, e.dVal]) ++ ws)[2 * i]? = some es[i].dTag ∧
      (es.flatMap (fun e => [e.dTag, e.dVal]) ++ ws)[2 * i + 1]? = some es[i].dVal := by
  induction es generalizing i with
  | nil => exact absurd hi (Nat.not_lt_zero _)
  | cons e es ih =>
      cases i with
      | zero => exact ⟨rfl, rfl⟩
      | succ i => exact ih (Nat.lt_of_succ_lt_succ hi)

theorem getElem?_words_length : v.words[2 * v.entries.length]? = some dtNull := by
  have hlength : (v.entries.flatMap fun e => [e.dTag, e.dVal]).length = 2 * v.entries.length := by
    simp [Nat.mul_comm]
  rw [DynVector.words, ← hlength, List.getElem?_append_right le_rfl, Nat.sub_self]
  rfl

/-- The counter of the loop stays in the vector. -/
theorem le_of_decodeRound {i' : ℕ} (hi : i ≤ v.entries.length)
    (hround : decodeRound store v.toList i dyn = .ok (.inl i') dyn') : i' ≤ v.entries.length := by
  rcases hi.lt_or_eq with hlt | rfl
  · have hi' : i' = i + 1 := Sum.inl.inj (of_decodeRound_ok hlt hround).2
    omega
  · rw [decodeRound_length] at hround
    cases hround

section

variable (h : HoldsWords m dynv v.words)
include h

theorem load_dTag (hi : i < v.entries.length) :
    load64 m (dTag (dynvSlot dynv i)) = v.entries[i].dTag := by
  rw [dTag, dynvSlot_eq_slot]
  exact h.word _ _ (getElem?_flatMap_dyn _ _ hi).1

theorem load_dVal (hi : i < v.entries.length) :
    load64 m (dVal (dynvSlot dynv i)) = v.entries[i].dVal := by
  rw [dVal_eq_slot]
  exact h.word _ _ (getElem?_flatMap_dyn _ _ hi).2

theorem load_dTag_length : load64 m (dTag (dynvSlot dynv v.entries.length)) = dtNull := by
  rw [dTag, dynvSlot_eq_slot]
  exact h.word _ _ getElem?_words_length

/-- A round at an entry, or at the `DT_NULL` behind them. -/
theorem hosts_dynvRound (hstores : Stores store storeEntry) (hi : i ≤ v.entries.length) :
    Hosts (fun t : Machine Call => t.mem = m) (decodeRound store v.toList i) dyn
      (dynvRound storeEntry dynv (i, dyn)) roundEnd := by
  refine .loadWord_bind ?_
  rcases hi.lt_or_eq with hlt | rfl
  · have hne : v.entries[i].dTag ≠ dtNull := v.tags _ (List.getElem_mem hlt)
    rw [load_dTag h hlt, if_pos hne, decodeRound_of_lt hlt]
    refine (hstores m _ _ _ (load_dTag h hlt) (load_dVal h hlt)).bind fun _ dyn' _ => ?_
    rw [map_eq_pure_bind]
    exact .incrementInt_bind (hosts_pure (Sum.inl (i + 1)) roundEnd)
  · rw [load_dTag_length h, if_neg (not_not_intro rfl), decodeRound_length]
    exact hosts_pure (Sum.inr ()) roundEnd

/-- The decoder in memory does what the one on the list does. -/
theorem hosts_decodeDynv (hstores : Stores store storeEntry) :
    Hosts (fun t : Machine Call => t.mem = m) (decodeDyn store fuel v.toList) dyn
      (decodeDynv storeEntry fuel dynv dyn) fun _ dyn' => dyn' := by
  refine (hosts_onDyn _ _).bind fun _ dyn' _ => ?_
  exact Hosts.loop (· ≤ v.entries.length) (fun i dyn hi => hosts_dynvRound h hstores hi)
    (fun i dyn i' dyn' hi hround => le_of_decodeRound hi hround) fuel (Nat.zero_le _)

/-- The decoder leaves the table of the vector. -/
theorem yields_decodeDynv (hstores : Stores store storeEntry)
    (hputs : ∀ e ∈ v.entries, ∀ dyn, Yields (store e) dyn fun _ dyn' => Puts dyn e dyn')
    (hlength : v.entries.length < 2 ^ 31) (hfuel : 37 + v.entries.length < fuel)
    (hs : s.mem = m) :
    Yields (decodeDynv storeEntry fuel dynv dyn) s fun dyn' t =>
      Tabulates v dyn' ∧ t.mem = m := by
  refine ((hosts_decodeDynv h hstores).yields (yields_decodeDyn hlength hputs hfuel) hs).mono ?_
  rintro _ t ⟨_, dyn', rfl, htable, ht⟩
  exact ⟨htable, ht⟩

end

/-! ### Relocation by a decoded table -/

/-- Relocation does not look at the place of `DT_NULL`. -/
theorem ldStage2Relocate_congr (h : ∀ t, t ≠ dtNullPlace → dyn t = dyn' t) :
    ldStage2Relocate fuel base dyn = ldStage2Relocate fuel base dyn' := by
  have hrel := h dtRel (by decide)
  have hrelsz := h dtRelsz (by decide)
  have hrela := h dtRela (by decide)
  have hrelasz := h dtRelasz (by decide)
  have hrelaent := h dtRelaent (by decide)
  have hsymtab := h dtSymtab (by decide)
  have hpltgot := h dtPltgot (by decide)
  have hpltrel := h dtPltrel (by decide)
  have hpltrelsz := h dtPltrelsz (by decide)
  have hjmprel := h dtJmprel (by decide)
  simp only [ldStage2Relocate, Stage2.rel, Stage2.rela, Stage2.plt, hrel, hrelsz, hrela, hrelasz,
    hrelaent, hsymtab, hpltgot, hpltrel, hpltrelsz, hjmprel]

/-- The memory after relocation. -/
def relocatedMem (m : Mem) (base : Word) (dyn : DynTable) : Mem :=
  storeAll m (relocationStores m base dyn (relocations m base dyn))

/-- The rounds that relocation needs. -/
def relocationRounds (dyn : DynTable) : ℕ :=
  (dyn dtRelasz).toNat / 24 + (dyn dtPltrelsz).toNat / 24

theorem yields_ldStage2Relocate (h : Relocatable m base v.table)
    (hannounced : TablesAnnounced v.table) (hdyn : Tabulates v dyn)
    (hfuel : relocationRounds v.table < fuel) (hs : s.mem = m) :
    Yields (ldStage2Relocate fuel base dyn) s fun _ t =>
      t.mem = relocatedMem m base v.table := by
  rw [relocationRounds] at hfuel
  rw [ldStage2Relocate_congr hdyn]
  refine .bind (R := fun _ t => s = t) (.ite_neg (not_not.mpr h.no_rel) (yields_pure rfl)) ?_
  rintro _ _ rfl
  refine (yields_rela h hs hannounced.rela (by omega)).bind fun _ t ht => ?_
  exact yields_plt h ht hannounced.jmprel (by omega)

theorem yields_ldStage1Relocate (h : Relocatable m base v.table)
    (hannounced : TablesAnnounced v.table) (hdyn : Tabulates v dyn)
    (hfuel : relocationRounds v.table < fuel) (hs : s.mem = m) :
    Yields (ldStage1Relocate fuel base dyn) s fun _ t =>
      t.mem = relocatedMem m base v.table := by
  have hrel : dyn dtRel = 0 := (hdyn dtRel (by decide)).trans h.no_rel
  rw [ldRelocate_eq hrel]
  exact yields_ldStage2Relocate h hannounced hdyn hfuel hs

end Ciabatta.Loader
