import Ciabatta.Loader.RelocationAgreement

/-!
What relocation does to the memory. The tables are read while the slots are
written; as long as the two do not overlap, every slot ends up with the value of
its entry and no other byte changes.
-/

namespace Ciabatta.Loader

open ByteMemory Exec

structure Elf64Rela where
  rOffset : Word
  rInfo : Word
  rAddend : Word

def Elf64Rela.type (e : Elf64Rela) : BitVec 32 :=
  (elf64RType e.rInfo).setWidth 32

/-- The `k`-th entry of a table. -/
def relaAddr (table : Word) (k : ℕ) : Word :=
  table + BitVec.ofNat 64 (24 * k)

def readRela (m : Mem) (a : Word) : Elf64Rela where
  rOffset := load64 m (rOffset a)
  rInfo := load64 m (rInfo a)
  rAddend := load64 m (rAddend a)

/-- The entries of a table of the given size in bytes. -/
def relaEntries (m : Mem) (table size : Word) : List Elf64Rela :=
  (List.range (size.toNat / 24)).map fun k => readRela m (relaAddr table k)

section Tables

variable (m : Mem) (base : Word) (dyn : DynTable)

/-- The table at `DT_RELA`. -/
def relaTable : List Elf64Rela :=
  relaEntries m (base + dyn dtRela) (dyn dtRelasz)

/-- The table at `DT_JMPREL`. -/
def jmprelTable : List Elf64Rela :=
  relaEntries m (base + dyn dtJmprel) (dyn dtPltrelsz)

/-- Both tables, in the order in which they are applied. -/
def relocations : List Elf64Rela :=
  relaTable m base dyn ++ jmprelTable m base dyn

/-- The address that an entry tells to relocate. -/
def slot (e : Elf64Rela) : Word :=
  base + e.rOffset

/-- Where the value of the symbol of an entry is found. -/
def symValueAddr (e : Elf64Rela) : Word :=
  stValue (symtabEntry (base + dyn dtSymtab) (e.rInfo >>> 32))

/-- What an entry asks for in its slot: `B + A` for `RELATIVE`, the address of
the symbol otherwise. -/
def relocated (e : Elf64Rela) : Word :=
  if e.type = rX8664Relative then base + e.rAddend
  else base + load64 m (symValueAddr base dyn e)

/-- The images that the relocators are made for: no `DT_REL` table, entries of the types that
are handled and of the size of an `Elf64_Rela`, and slots that overlap neither each other nor
what the relocators read. -/
structure Relocatable : Prop where
  no_rel : dyn dtRel = 0
  pltrel : dyn dtPltrel = 7
  relaent : dyn dtRelaent = 24
  relasz : 24 ∣ (dyn dtRelasz).toNat
  pltrelsz : 24 ∣ (dyn dtPltrelsz).toNat
  rela_types : ∀ e ∈ relaTable m base dyn, e.type = rX8664GlobDat ∨ e.type = rX8664Relative
  jmprel_types : ∀ e ∈ jmprelTable m base dyn, e.type = rX8664JumpSlot
  slots : (relocations m base dyn).Pairwise fun e e' =>
    Disjoint (region (slot base e) 8) (region (slot base e') 8)
  off_rela : ∀ e ∈ relocations m base dyn, Disjoint (region (slot base e) 8)
    (region (base + dyn dtRela) (dyn dtRelasz).toNat)
  off_jmprel : ∀ e ∈ relocations m base dyn, Disjoint (region (slot base e) 8)
    (region (base + dyn dtJmprel) (dyn dtPltrelsz).toNat)
  off_symtab : ∀ e ∈ relocations m base dyn, ∀ e' ∈ relocations m base dyn,
    e'.type ≠ rX8664Relative → Disjoint (region (slot base e) 8)
      (region (symValueAddr base dyn e') 8)

/-- The source only looks at a table if another entry of the dynamic table is
there: at `DT_RELA` for the first one, at `DT_PLTGOT` for the second. -/
structure TablesAnnounced : Prop where
  rela : dyn dtRelasz ≠ 0 → dyn dtRela ≠ 0
  jmprel : dyn dtPltrelsz ≠ 0 → dyn dtPltgot ≠ 0

/-- Memory `m'` is memory `m` relocated. -/
structure Relocated (m' : Mem) : Prop where
  slots : ∀ e ∈ relocations m base dyn, load64 m' (slot base e) = relocated m base dyn e
  frame : ∀ x, (∀ e ∈ relocations m base dyn, x ∉ region (slot base e) 8) → m' x = m x

end Tables

variable {m : Mem} {base : Word} {dyn : DynTable} {s : Machine Call}

/-- The stores for a list of entries. -/
def relocationStores (m : Mem) (base : Word) (dyn : DynTable) (es : List Elf64Rela) :
    List (Word × Word) :=
  es.map fun e => (slot base e, relocated m base dyn e)

/-- An entry of a table is read as it was, if the stores so far kept off it. -/
theorem readRela_storeAll {table size : Word} {ws : List (Word × Word)} {k : ℕ}
    (hk : k < size.toNat / 24)
    (hoff : ∀ w ∈ ws, Disjoint (region w.1 8) (region table size.toNat)) :
    readRela (storeAll m ws) (relaAddr table k) = readRela m (relaAddr table k) := by
  have hword (d : ℕ) (hd : d + 8 ≤ 24) :
      load64 (storeAll m ws) (relaAddr table k + BitVec.ofNat 64 d) =
        load64 m (relaAddr table k + BitVec.ofNat 64 d) := by
    apply load64_congr
    intro x hx
    apply storeAll_of_notMem
    intro w hw hxw
    have haddr : relaAddr table k + BitVec.ofNat 64 d = table + BitVec.ofNat 64 (24 * k + d) := by
      rw [relaAddr, BitVec.add_assoc, BitVec.ofNat_add]
    have hlt := size.isLt
    rw [haddr] at hx
    exact Set.disjoint_left.mp (hoff w hw) hxw
      (region_add_subset (by omega) hlt.le hx)
  have h0 := hword 0 (by norm_num)
  have h8 := hword 8 (by norm_num)
  have h16 := hword 16 (by norm_num)
  rw [BitVec.add_zero] at h0
  simp only [readRela, rOffset, rInfo, rAddend, h0]
  exact congrArg₂ (Elf64Rela.mk _) h8 h16

/-- And so is the value of a symbol. -/
theorem relocated_storeAll {ws : List (Word × Word)} {e : Elf64Rela}
    (hoff : e.type ≠ rX8664Relative → ∀ w ∈ ws,
      Disjoint (region w.1 8) (region (symValueAddr base dyn e) 8)) :
    relocated (storeAll m ws) base dyn e = relocated m base dyn e := by
  by_cases htype : e.type = rX8664Relative
  · rw [relocated, relocated, if_pos htype, if_pos htype]
  · have hvalue : load64 (storeAll m ws) (symValueAddr base dyn e)
        = load64 m (symValueAddr base dyn e) := by
      apply load64_congr
      intro x hx
      apply storeAll_of_notMem
      intro w hw hxw
      exact Set.disjoint_left.mp (hoff htype w hw) hxw hx
    rw [relocated, relocated, if_neg htype, if_neg htype, hvalue]

/-! ### The rounds -/

/-- From machine `s` to machine `t` the entry at `a` is applied, and nothing
else is stored. -/
structure EntryApplied (base : Word) (dyn : DynTable) (a : Word) (s t : Machine Call) : Prop where
  mem : t.mem = store64 s.mem (slot base (readRela s.mem a))
    (relocated s.mem base dyn (readRela s.mem a))
  stored : t.stored = s.stored ++ [(slot base (readRela s.mem a), 8)]

theorem yields_relaRound {table size ent offs : Word} (hlt : offs < size)
    (htype : (readRela s.mem (table + offs)).type = rX8664GlobDat ∨
      (readRela s.mem (table + offs)).type = rX8664Relative) :
    Yields (Stage2.relaRound base (base + dyn dtSymtab) table size ent offs) s fun r t =>
      r = .inl (offs + ent) ∧ EntryApplied base dyn (table + offs) s t := by
  refine .ite_pos hlt ?_
  refine .loadWord_bind (.loadWord_bind (.loadWord_bind (.loadWord_bind (.loadWord_bind ?_))))
  refine Yields.bind (R := fun _ t => EntryApplied base dyn (table + offs) s t) ?_ fun _ t ht =>
    yields_pure ⟨rfl, ht⟩
  rcases htype with htype | htype
  · have hother : (readRela s.mem (table + offs)).type ≠ rX8664Relative := by
      rw [htype]
      decide
    refine .ite_pos htype (yields_storeWord ⟨?_, ?_⟩)
    · rw [relocated, if_neg hother]
      rfl
    · exact (Machine.stored_record_store _ _ _).trans (by simp [slot, readRela, elfAddr])
  · have hother : (readRela s.mem (table + offs)).type ≠ rX8664GlobDat := by
      rw [htype]
      decide
    refine .ite_neg hother (.ite_pos htype (yields_storeWord ⟨?_, ?_⟩))
    · rw [relocated, if_pos htype]
      rfl
    · exact (Machine.stored_record_store _ _ _).trans (by simp [slot, readRela, elfAddr])

/-- The index of a symbol fits into 32 bits. -/
theorem setWidth_elf64RSym (i : Word) : ((elf64RSym i).setWidth 32).setWidth 64 = i >>> 32 := by
  apply BitVec.eq_of_toNat_eq
  have hlt : i.toNat < 2 ^ 64 := i.isLt
  rw [elf64RSym, BitVec.toNat_setWidth, BitVec.toNat_setWidth, BitVec.toNat_ushiftRight,
    Nat.shiftRight_eq_div_pow]
  omega

theorem yields_pltRound {table size offs : Word} (hlt : offs < size)
    (htype : (readRela s.mem (table + offs)).type = rX8664JumpSlot) :
    Yields (Stage2.pltRound base (base + dyn dtSymtab) table size offs) s fun r t =>
      r = .inl (offs + 24) ∧ EntryApplied base dyn (table + offs) s t := by
  refine .ite_pos hlt ?_
  refine .loadWord_bind (.loadWord_bind (.loadWord_bind (.loadWord_bind ?_)))
  refine Yields.bind (R := fun _ t => EntryApplied base dyn (table + offs) s t) ?_ fun _ t ht =>
    yields_pure ⟨rfl, ht⟩
  have hother : (readRela s.mem (table + offs)).type ≠ rX8664Relative := by
    rw [htype]
    decide
  refine .ite_pos htype (.loadWord_bind (yields_storeWord ⟨?_, ?_⟩))
  · rw [relocated, if_neg hother, setWidth_elf64RSym]
    rfl
  · exact (Machine.stored_record_store _ _ _).trans (by simp [slot, readRela, elfAddr])

/-! ### The loops -/

theorem relaOffs_lt {size : Word} {k : ℕ} (hk : k < size.toNat / 24) :
    BitVec.ofNat 64 (24 * k) < size := by
  have hlt := size.isLt
  rw [BitVec.lt_def, BitVec.toNat_ofNat]
  omega

theorem relaOffs_succ (k : ℕ) :
    BitVec.ofNat 64 (24 * k) + 24 = BitVec.ofNat 64 (24 * (k + 1)) := by
  rw [Nat.mul_succ, BitVec.ofNat_add]
  rfl

theorem mem_relaEntries {table size : Word} {k : ℕ} (hk : k < size.toNat / 24) :
    readRela m (relaAddr table k) ∈ relaEntries m table size :=
  List.mem_map.mpr ⟨k, List.mem_range.mpr hk, rfl⟩

/-- The stores of a loop that has done its first `k` rounds, after those of `ws`. -/
def storesUpTo (m : Mem) (base : Word) (dyn : DynTable) (ws : List (Word × Word))
    (table : Word) (k : ℕ) : List (Word × Word) :=
  ws ++ relocationStores m base dyn ((List.range k).map fun j => readRela m (relaAddr table j))

theorem storeAll_storesUpTo_succ (ws : List (Word × Word)) (table : Word) (k : ℕ) :
    storeAll m (storesUpTo m base dyn ws table (k + 1))
      = store64 (storeAll m (storesUpTo m base dyn ws table k))
          (slot base (readRela m (relaAddr table k)))
          (relocated m base dyn (readRela m (relaAddr table k))) := by
  simp only [storesUpTo, relocationStores, List.range_succ, List.map_append, List.map_cons,
    List.map_nil, ← List.append_assoc]
  rw [storeAll_append, storeAll_cons, storeAll_nil]

/-- A loop over a table whose rounds each do the store of their entry. -/
theorem yields_tableLoop {round : Word → Exec Call (Word ⊕ Unit)} {table size : Word}
    (ws : List (Word × Word)) {fuel : ℕ} (hsize : 24 ∣ size.toNat)
    (hround : ∀ k < size.toNat / 24, ∀ t : Machine Call,
      t.mem = storeAll m (storesUpTo m base dyn ws table k) →
        Yields (round (BitVec.ofNat 64 (24 * k))) t fun r u =>
          r = .inl (BitVec.ofNat 64 (24 * k) + 24) ∧
            u.mem = store64 t.mem (slot base (readRela m (relaAddr table k)))
              (relocated m base dyn (readRela m (relaAddr table k))))
    (hend : ∀ t, Yields (round size) t fun r u => r = .inr () ∧ u = t)
    (hs : s.mem = storeAll m ws) (hfuel : size.toNat / 24 < fuel) :
    Yields (loop round fuel 0) s fun _ t =>
      t.mem = storeAll m (ws ++ relocationStores m base dyn (relaEntries m table size)) := by
  have hlt := size.isLt
  -- after `k` rounds the first `k` stores are done; the entries left are the variant
  refine yields_loop (fun offs t => ∃ k ≤ size.toNat / 24, offs = BitVec.ofNat 64 (24 * k) ∧
    t.mem = storeAll m (storesUpTo m base dyn ws table k))
    (fun offs => size.toNat / 24 - offs.toNat / 24) ?_ ⟨0, Nat.zero_le _, rfl, ?_⟩ ?_
  · rintro _ t ⟨k, hk, rfl, ht⟩
    rcases hk.lt_or_eq with hk | hk
    · refine (hround k hk t ht).mono fun r u hr => ?_
      obtain ⟨rfl, hu⟩ := hr
      refine ⟨⟨k + 1, hk, relaOffs_succ k, ?_⟩, ?_⟩
      · rw [hu, ht, storeAll_storesUpTo_succ]
      · have hnow : (BitVec.ofNat 64 (24 * k)).toNat = 24 * k := by
          rw [BitVec.toNat_ofNat, Nat.mod_eq_of_lt (by omega)]
        have hnext : (BitVec.ofNat 64 (24 * (k + 1))).toNat = 24 * (k + 1) := by
          rw [BitVec.toNat_ofNat, Nat.mod_eq_of_lt (by omega)]
        rw [relaOffs_succ, hnow, hnext]
        omega
    · have hoffs : BitVec.ofNat 64 (24 * k) = size := by
        rw [hk, Nat.mul_div_cancel' hsize, BitVec.ofNat_toNat, BitVec.setWidth_eq]
      rw [hoffs]
      refine (hend t).mono fun r u hr => ?_
      obtain ⟨rfl, rfl⟩ := hr
      rw [hk] at ht
      exact ht
  · simpa [storesUpTo, relocationStores] using hs
  · exact lt_of_le_of_lt (Nat.sub_le _ _) hfuel

/-- The first `k` stores of a loop are stores of relocations. -/
theorem exists_of_mem_storesUpTo {ws : List (Word × Word)} {table size : Word} {k : ℕ}
    (hk : k ≤ size.toNat / 24) {es : List Elf64Rela}
    (hws : ∀ w ∈ ws, ∃ e ∈ es, w.1 = slot base e) (htable : relaEntries m table size ⊆ es)
    {w : Word × Word} (hw : w ∈ storesUpTo m base dyn ws table k) :
    ∃ e ∈ es, w.1 = slot base e := by
  rcases List.mem_append.mp hw with hw | hw
  · exact hws w hw
  · obtain ⟨e, he, rfl⟩ := List.mem_map.mp hw
    obtain ⟨j, hj, rfl⟩ := List.mem_map.mp he
    have hlt : j < size.toNat / 24 := lt_of_lt_of_le (List.mem_range.mp hj) hk
    exact ⟨_, htable (mem_relaEntries hlt), rfl⟩

/-- In its `k`-th round a loop finds the entry, and the value for it, as they
were before relocation. -/
theorem entry_unchanged {ws : List (Word × Word)} {table size : Word} {k : ℕ}
    {t : Machine Call} (h : Relocatable m base dyn) (hk : k < size.toNat / 24)
    (hoff : ∀ e ∈ relocations m base dyn,
      Disjoint (region (slot base e) 8) (region table size.toNat))
    (hsub : relaEntries m table size ⊆ relocations m base dyn)
    (hws : ∀ w ∈ ws, ∃ e ∈ relocations m base dyn, w.1 = slot base e)
    (ht : t.mem = storeAll m (storesUpTo m base dyn ws table k)) :
    readRela t.mem (relaAddr table k) = readRela m (relaAddr table k) ∧
      relocated t.mem base dyn (readRela m (relaAddr table k))
        = relocated m base dyn (readRela m (relaAddr table k)) := by
  have hstores : ∀ w ∈ storesUpTo m base dyn ws table k,
      ∃ e ∈ relocations m base dyn, w.1 = slot base e :=
    fun w hw => exists_of_mem_storesUpTo hk.le hws hsub hw
  have hmem := hsub (mem_relaEntries hk)
  rw [ht]
  constructor
  · refine readRela_storeAll hk fun w hw => ?_
    obtain ⟨e, he, heq⟩ := hstores w hw
    rw [heq]
    exact hoff e he
  · refine relocated_storeAll fun htype w hw => ?_
    obtain ⟨e, he, heq⟩ := hstores w hw
    rw [heq]
    exact h.off_symtab e he _ hmem htype

theorem relaEntries_of_size_zero {table size : Word} (h : size = 0) :
    relaEntries m table size = [] := by
  rw [h]
  rfl

variable {fuel : ℕ}

theorem yields_rela (h : Relocatable m base dyn) (hs : s.mem = m)
    (hannounced : dyn dtRelasz ≠ 0 → dyn dtRela ≠ 0)
    (hfuel : (dyn dtRelasz).toNat / 24 < fuel) :
    Yields (Stage2.rela fuel base dyn) s fun _ t =>
      t.mem = storeAll m (relocationStores m base dyn (relaTable m base dyn)) := by
  by_cases hgate : dyn dtRela ≠ 0
  · have hsub : relaEntries m (base + dyn dtRela) (dyn dtRelasz) ⊆ relocations m base dyn :=
      List.subset_append_left _ _
    refine .ite_pos hgate (yields_tableLoop [] h.relasz ?_ ?_ hs hfuel)
    · intro k hk t ht
      obtain ⟨hentry, hvalue⟩ := entry_unchanged h hk h.off_rela hsub
        (fun w hw => absurd hw List.not_mem_nil) ht
      have htype := h.rela_types _ (mem_relaEntries hk)
      rw [← hentry] at htype
      rw [← hvalue, ← hentry, h.relaent]
      exact (yields_relaRound (relaOffs_lt hk) htype).mono fun _ _ hr => ⟨hr.1, hr.2.mem⟩
    · intro t
      exact .ite_neg (by simp) (yields_pure ⟨rfl, rfl⟩)
  -- without a table the size is zero, and there is nothing to store
  · have hsize : dyn dtRelasz = 0 := by
      by_contra hne
      exact hgate (hannounced hne)
    refine .ite_neg hgate (yields_pure ?_)
    rw [relaTable, relaEntries_of_size_zero hsize]
    exact hs

theorem yields_plt (h : Relocatable m base dyn)
    (hs : s.mem = storeAll m (relocationStores m base dyn (relaTable m base dyn)))
    (hannounced : dyn dtPltrelsz ≠ 0 → dyn dtPltgot ≠ 0)
    (hfuel : (dyn dtPltrelsz).toNat / 24 < fuel) :
    Yields (Stage2.plt fuel base dyn) s fun _ t =>
      t.mem = storeAll m (relocationStores m base dyn (relocations m base dyn)) := by
  have hmap : relocationStores m base dyn (relocations m base dyn)
      = relocationStores m base dyn (relaTable m base dyn)
        ++ relocationStores m base dyn (jmprelTable m base dyn) :=
    List.map_append
  by_cases hgate : dyn dtPltgot ≠ 0
  · have hsub : relaEntries m (base + dyn dtJmprel) (dyn dtPltrelsz) ⊆ relocations m base dyn :=
      List.subset_append_right _ _
    have hws : ∀ w ∈ relocationStores m base dyn (relaTable m base dyn),
        ∃ e ∈ relocations m base dyn, w.1 = slot base e := by
      intro w hw
      obtain ⟨e, he, rfl⟩ := List.mem_map.mp hw
      exact ⟨e, List.mem_append_left _ he, rfl⟩
    have hpltrel : dyn dtPltrel ≠ 17 := by
      rw [h.pltrel]
      decide
    refine .ite_pos hgate (.bind (R := fun _ t => s = t) (.ite_neg hpltrel (yields_pure rfl)) ?_)
    rintro _ _ rfl
    rw [hmap]
    refine yields_tableLoop _ h.pltrelsz ?_ ?_ hs hfuel
    · intro k hk t ht
      obtain ⟨hentry, hvalue⟩ := entry_unchanged h hk h.off_jmprel hsub hws ht
      have htype := h.jmprel_types _ (mem_relaEntries hk)
      rw [← hentry] at htype
      rw [← hvalue, ← hentry]
      exact (yields_pltRound (relaOffs_lt hk) htype).mono fun _ _ hr => ⟨hr.1, hr.2.mem⟩
    · intro t
      exact .ite_neg (by simp) (yields_pure ⟨rfl, rfl⟩)
  · have hsize : dyn dtPltrelsz = 0 := by
      by_contra hne
      exact hgate (hannounced hne)
    refine .ite_neg hgate (yields_pure ?_)
    rw [hmap, jmprelTable, relaEntries_of_size_zero hsize]
    simpa [relocationStores] using hs

/-- Stores that do not overlap relocate the memory. -/
theorem Relocatable.storeAll_relocated (h : Relocatable m base dyn) :
    Relocated m base dyn
      (storeAll m (relocationStores m base dyn (relocations m base dyn))) := by
  have hpairwise : (relocationStores m base dyn (relocations m base dyn)).Pairwise
      fun u w => Disjoint (region u.1 8) (region w.1 8) := by
    rw [relocationStores, List.pairwise_map]
    exact h.slots
  refine ⟨fun e he => ?_, fun x hx => ?_⟩
  · have hmem : (slot base e, relocated m base dyn e)
        ∈ relocationStores m base dyn (relocations m base dyn) :=
      List.mem_map.mpr ⟨e, he, rfl⟩
    have hslot := load64_storeAll (m := m) hpairwise hmem
    exact hslot
  · refine storeAll_of_notMem fun w hw => ?_
    obtain ⟨e, he, rfl⟩ := List.mem_map.mp hw
    exact hx e he

/-- With enough fuel, both relocators return and leave the memory relocated. -/
theorem relocation_correct (h : Relocatable s.mem base dyn) (hannounced : TablesAnnounced dyn) :
    ∃ enough, ∀ fuel, enough ≤ fuel →
      (∃ t, ldStage1Relocate fuel base dyn s = .ok () t ∧ Relocated s.mem base dyn t.mem) ∧
      ∃ t, ldStage2Relocate fuel base dyn s = .ok () t ∧ Relocated s.mem base dyn t.mem := by
  refine ⟨(dyn dtRelasz).toNat / 24 + (dyn dtPltrelsz).toNat / 24 + 1, fun fuel hfuel => ?_⟩
  have hrun : Yields (ldStage2Relocate fuel base dyn) s fun _ t =>
      Relocated s.mem base dyn t.mem := by
    refine .bind (R := fun _ t => s = t) (.ite_neg (not_not.mpr h.no_rel) (yields_pure rfl)) ?_
    rintro _ _ rfl
    refine (yields_rela h rfl hannounced.rela (by omega)).bind fun _ t ht => ?_
    refine (yields_plt h ht hannounced.jmprel (by omega)).mono fun _ u hu => ?_
    rw [hu]
    exact h.storeAll_relocated
  rw [ldRelocate_eq h.no_rel]
  obtain ⟨_, t, ht, hrelocated⟩ := hrun
  exact ⟨⟨t, ht, hrelocated⟩, t, ht, hrelocated⟩

/-! ### The image with both tables -/

section TablesImage

variable (pltgot : Word)

def tablesGlobDat : Elf64Rela := ⟨1024, 6, 0⟩
def tablesRelative : Elf64Rela := ⟨1032, 8, 16⟩
def tablesJumpSlot : Elf64Rela := ⟨1040, 0x100000007, 0⟩

theorem tablesImage_relaTable :
    relaTable tablesImage.mem 4096 (tablesDyn pltgot) = [tablesGlobDat, tablesRelative] := by
  have hentries : relaEntries tablesImage.mem 4352 48 = [tablesGlobDat, tablesRelative] := rfl
  exact hentries

theorem tablesImage_jmprelTable :
    jmprelTable tablesImage.mem 4096 (tablesDyn pltgot) = [tablesJumpSlot] := by
  have hentries : relaEntries tablesImage.mem 4400 24 = [tablesJumpSlot] := rfl
  exact hentries

theorem tablesImage_relocations : relocations tablesImage.mem 4096 (tablesDyn pltgot) =
    [tablesGlobDat, tablesRelative, tablesJumpSlot] := by
  rw [relocations, tablesImage_relaTable, tablesImage_jmprelTable]
  rfl

/-- The slots are three words behind each other. -/
theorem tablesImage_slot {e : Elf64Rela}
    (he : e ∈ relocations tablesImage.mem 4096 (tablesDyn pltgot)) :
    5120 ≤ (slot 4096 e).toNat ∧ (slot 4096 e).toNat ≤ 5136 := by
  have hslots : ∀ e ∈ [tablesGlobDat, tablesRelative, tablesJumpSlot],
      5120 ≤ (slot 4096 e).toNat ∧ (slot 4096 e).toNat ≤ 5136 := by
    simp only [List.forall_mem_cons]
    exact ⟨by decide, by decide, by decide, List.forall_mem_nil _⟩
  rw [tablesImage_relocations] at he
  exact hslots e he

/-- What ends in front of them is apart from each. -/
theorem tablesImage_apart {e : Elf64Rela} {a : Word} {n : ℕ}
    (he : e ∈ relocations tablesImage.mem 4096 (tablesDyn pltgot)) (hn : 0 < n)
    (ha : a.toNat + n ≤ 5120) : Disjoint (region (slot 4096 e) 8) (region a n) := by
  obtain ⟨hlow, hhigh⟩ := tablesImage_slot pltgot he
  exact (disjoint_region_iff (by omega) (by omega) (by decide) hn).mpr (.inr (by omega))

theorem tablesImage_relocatable :
    Relocatable tablesImage.mem 4096 (tablesDyn pltgot) where
  no_rel := rfl
  pltrel := rfl
  relaent := rfl
  relasz := ⟨2, rfl⟩
  pltrelsz := ⟨1, rfl⟩
  rela_types := by
    rw [tablesImage_relaTable]
    simp only [List.forall_mem_cons]
    exact ⟨by decide, by decide, List.forall_mem_nil _⟩
  jmprel_types := by
    rw [tablesImage_jmprelTable]
    simp only [List.forall_mem_cons]
    exact ⟨by decide, List.forall_mem_nil _⟩
  slots := by
    have hbehind {a b : Word} (ha : a.toNat + 8 ≤ b.toNat) (hb : b.toNat + 8 ≤ 2 ^ 64) :
        Disjoint (region a 8) (region b 8) :=
      (disjoint_region_iff (by omega) hb (by decide) (by decide)).mpr (.inl ha)
    rw [tablesImage_relocations]
    simp only [List.pairwise_cons, List.forall_mem_cons]
    exact ⟨⟨hbehind (by decide) (by decide), hbehind (by decide) (by decide),
      List.forall_mem_nil _⟩, ⟨hbehind (by decide) (by decide), List.forall_mem_nil _⟩,
      List.forall_mem_nil _, .nil⟩
  off_rela e he := by
    have hapart : Disjoint (region (slot 4096 e) 8) (region 4352 48) :=
      tablesImage_apart pltgot he (by decide) (by decide)
    exact hapart
  off_jmprel e he := by
    have hapart : Disjoint (region (slot 4096 e) 8) (region 4400 24) :=
      tablesImage_apart pltgot he (by decide) (by decide)
    exact hapart
  off_symtab e he e' he' _ := by
    have hsymbols : ∀ e ∈ [tablesGlobDat, tablesRelative, tablesJumpSlot],
        (stValue (symtabEntry 4608 (e.rInfo >>> 32))).toNat ≤ 4640 := by
      simp only [List.forall_mem_cons]
      exact ⟨by decide, by decide, by decide, List.forall_mem_nil _⟩
    rw [tablesImage_relocations] at he'
    have hsymbol : (symValueAddr 4096 (tablesDyn pltgot) e').toNat ≤ 4640 := hsymbols e' he'
    exact tablesImage_apart pltgot he (by decide) (by omega)

end TablesImage

theorem relocation_correct_tablesImage : ∃ fuel t,
    ldStage2Relocate fuel 4096 (tablesDyn 2048) tablesImage = .ok () t ∧
      Relocated tablesImage.mem 4096 (tablesDyn 2048) t.mem := by
  obtain ⟨enough, h⟩ := relocation_correct (tablesImage_relocatable 2048)
    ⟨fun _ => by decide, fun _ => by decide⟩
  obtain ⟨t, ht⟩ := (h enough le_rfl).2
  exact ⟨enough, t, ht⟩

/-- Without `DT_PLTGOT` the PLT relocation is not applied. -/
theorem relocation_skips_plt :
    ¬ ∀ (base : Word) (dyn : DynTable) (s : Machine Call), Relocatable s.mem base dyn →
      ∃ enough, ∀ fuel, enough ≤ fuel →
        (∃ t, ldStage1Relocate fuel base dyn s = .ok () t ∧ Relocated s.mem base dyn t.mem) ∧
        ∃ t, ldStage2Relocate fuel base dyn s = .ok () t ∧ Relocated s.mem base dyn t.mem := by
  intro hclaim
  obtain ⟨enough, h⟩ := hclaim 4096 (tablesDyn 0) tablesImage (tablesImage_relocatable 0)
  obtain ⟨t, ht, hrelocated⟩ := (h (enough + 3) (Nat.le_add_right _ _)).2
  have hrun : ∃ t, ldStage2Relocate (enough + 3) 4096 (tablesDyn 0) tablesImage = .ok () t ∧
      load64 t.mem 5136 = 0 := ⟨_, rfl, rfl⟩
  obtain ⟨u, hu, hskipped⟩ := hrun
  rw [hu] at ht
  cases ht
  have hmem : tablesJumpSlot ∈ relocations tablesImage.mem 4096 (tablesDyn 0) := by
    rw [tablesImage_relocations]
    simp
  have hslot : load64 t.mem 5136 = 4096 + load64 tablesImage.mem 4640 :=
    hrelocated.slots tablesJumpSlot hmem
  rw [hskipped] at hslot
  exact absurd hslot (by decide)

end Ciabatta.Loader
