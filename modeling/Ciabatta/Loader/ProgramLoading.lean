import Ciabatta.Loader.StackSwitch

/-!
The whole loader, for a program that the kernel has mapped and that names the loader
as its interpreter: from the stack of the new process to the call of the program.
-/

namespace Ciabatta.Loader

open ByteMemory Exec Tinyrt Trampoline

/-- The addresses that relocation writes to. -/
def slotArea (m : Mem) (base : Word) (dyn : DynTable) : Set Word :=
  {x | ∃ e ∈ relocations m base dyn, x ∈ region (slot base e) 8}

/-- The program in the memory `m` that the loader finds once it has relocated itself:
its headers stand at `AT_PHDR`, one tells its base and one its dynamic section. -/
structure ProgramMapped (stack : InitialStack) (program : DynVector) (app : ElfImage) (m : Mem) :
    Prop where
  phdr_ne : stack.aux atPhdr ≠ stack.ldsoBase
  image : ∃ ph, lastHeader m stack.aux ptPhdr = some ph ∧ app = ⟨stack.aux atPhdr
    - load64 m (pVaddr ph), stack.aux atPhdr, stack.aux atPhnum, stack.aux atPhent⟩
  dynamic : ∃ ph, lastHeader m stack.aux ptDynamic = some ph ∧
    HoldsWords m (app.base + load64 m (pVaddr ph)) program.words
  tagged : WellTagged program
  relocatable : Relocatable m app.base program.table
  announced : TablesAnnounced program.table

/-- The memory once the program is relocated too. -/
def programRelocated (stack : InitialStack) (own program : DynVector) (app : ElfImage) (m : Mem) :
    Mem :=
  relocatedMem (selfRelocated stack own m) app.base program.table

/-- The slots of the loader, those of the program and the stacks are apart. -/
structure SlotsApart (stack : InitialStack) (own program : DynVector) (app : ElfImage)
    (w : Surroundings) (m : Mem) : Prop where
  images : Disjoint (slotArea m stack.ldsoBase own.table)
    (slotArea (selfRelocated stack own m) app.base program.table)
  own_switch : Disjoint (slotArea m stack.ldsoBase own.table) (switchArea w)
  program_switch : Disjoint (slotArea (selfRelocated stack own m) app.base program.table)
    (switchArea w)

/-- The program has been called, the loader and the program are relocated, and
nothing else has been written to but the stacks. -/
structure ProgramLoaded (stack : InitialStack) (own program : DynVector) (app : ElfImage)
    (w : Surroundings) (old : StackInfo) (m : Mem) (r : Handover) (t : Machine Call) : Prop where
  called : ProgramCalled w app (programRelocated stack own program app m)
    (roundDown16 (newTop (trampolineState w old (programRelocated stack own program app m)))) r
    t.mem
  own_slots : ∀ e ∈ relocations m stack.ldsoBase own.table,
    load64 t.mem (slot stack.ldsoBase e) = relocated m stack.ldsoBase own.table e
  program_slots : ∀ e ∈ relocations (selfRelocated stack own m) app.base program.table,
    load64 t.mem (slot app.base e)
      = relocated (selfRelocated stack own m) app.base program.table e
  frame : SameOff (slotArea m stack.ldsoBase own.table
    ∪ slotArea (selfRelocated stack own m) app.base program.table ∪ switchArea w) m t.mem

variable {stack : InitialStack} {own program v : DynVector} {app : ElfImage} {w : Surroundings}
  {lines : List MapsLine} {old : StackInfo} {sp dynv base : Word} {m : Mem} {dyn : DynTable}
  {info : LoaderInfo} {s : Machine Call} {r : Handover} {e : Elf64Rela}

/-! ### Relocation and what comes after it -/

theorem subset_slotArea (he : e ∈ relocations m base dyn) :
    region (slot base e) 8 ⊆ slotArea m base dyn :=
  fun _ hx => ⟨e, he, hx⟩

theorem sameOff_relocatedMem : SameOff (slotArea m base dyn) m (relocatedMem m base dyn) := by
  refine sameOff_storeAll fun word hword => ?_
  obtain ⟨e, he, rfl⟩ := List.mem_map.mp hword
  exact subset_slotArea he

/-- What is written elsewhere does not undo a relocation. -/
theorem Relocatable.load64_slot (h : Relocatable m base dyn) {A : Set Word} {m' : Mem}
    (hsame : SameOff A (relocatedMem m base dyn) m') (hdisj : Disjoint (slotArea m base dyn) A)
    (he : e ∈ relocations m base dyn) : load64 m' (slot base e) = relocated m base dyn e := by
  rw [hsame.load64 (hdisj.mono_left (subset_slotArea he))]
  exact h.storeAll_relocated.slots e he

/-! ### The second stage -/

/-- The rounds of the loops over the headers, the entries and the relocations. -/
def programRounds (stack : InitialStack) (program : DynVector) : ℕ :=
  (stack.aux atPhnum).toNat + program.entries.length + relocationRounds program.table + 37

theorem ProgramMapped.ldStage2Entry_leads (h : ProgramMapped stack program app m)
    (hbase : info.ldsoBase = stack.ldsoBase) (haux : info.aux = stack.aux) (hs : s.mem = m)
    {fuel : ℕ} (hfuel : programRounds stack program < fuel) :
    Leads (ldStage2Entry fuel w info dyn) s (switchAndEnter fuel w app) fun t =>
      t.mem = relocatedMem m app.base program.table := by
  rw [programRounds] at hfuel
  obtain ⟨ph, hph, himage⟩ := h.image
  obtain ⟨phDynamic, hdynamic, hwords⟩ := h.dynamic
  rw [ldStage2Entry, haux, hbase, if_pos h.phdr_ne]
  refine (yields_mappedApp hph hs (by omega)).bind_leads ?_
  rintro _ t ⟨rfl, ht⟩
  rw [← himage]
  refine (yields_appDynv hdynamic ht (by omega)).bind_leads ?_
  rintro _ u ⟨rfl, hu⟩
  refine (yields_decodeDynv hwords stores_stage2
    (fun e he _ => yields_stage2_storeDyn (h.tagged.tags e he)) h.tagged.length (by omega)
    hu).bind_leads fun dyn' x hx => ?_
  refine (yields_ldStage2Relocate h.relocatable h.announced hx.1 (by omega) hx.2).bind_leads ?_
  intro _ y hy
  exact leads_self hy

/-- Both stages up to the search for the stack. -/
theorem LoaderStarted.ldEntry_leads (h : LoaderStarted stack own sp dynv s.mem)
    (hprogram : ProgramMapped stack program app (selfRelocated stack own s.mem)) :
    ∃ n, ∀ fuel aux dyn dyn', n ≤ fuel →
      Leads (ldEntry fuel w sp dynv aux dyn dyn') s (switchAndEnter fuel w app) fun t =>
        t.mem = programRelocated stack own program app s.mem := by
  obtain ⟨n, hn⟩ := h.handsOver
  refine ⟨n + programRounds stack program + 1, fun fuel aux dyn dyn' hfuel => ?_⟩
  refine (hn fuel aux dyn (by omega)).bind_leads fun info t ht => ?_
  exact hprogram.ldStage2Entry_leads ht.base ht.aux ht.mem (by omega)

/-! ### Main result -/

def relativeVector : DynVector where
  entries := [⟨7, 0x100⟩, ⟨8, 24⟩, ⟨9, 24⟩, ⟨20, 7⟩]
  nullVal := 0
  tags := by decide

def relativeEntry : Elf64Rela := ⟨0x200, 8, 0x300⟩

theorem argc_small : ([] : List Word).length < 2 ^ 31 := by decide

def smallStack : InitialStack where
  args := []
  env := []
  auxv := [⟨3, 0x20040⟩, ⟨4, 56⟩, ⟨5, 3⟩, ⟨7, 0x10000⟩]
  nullVal := 0
  argc := argc_small
  env_ne := by simp
  types := by simp

/-- The headers of types `PT_PHDR`, `PT_DYNAMIC` and `PT_TLS`. -/
def smallHeaders : List Word :=
  [6, 0, 0x40, 0, 168, 168, 8, 2, 0, 0x180, 0, 80, 80, 8, 7, 0, 0x240, 0, 8, 8, 8]

/-- From the relocation table to the end of the dynamic section. -/
def relativeWords : List Word :=
  [0x200, 8, 0x300] ++ List.replicate 13 0 ++ relativeVector.words

/-- From `e_entry` to the TLS image. -/
def programWords : List Word :=
  [0x1040] ++ List.replicate 4 0 ++ smallHeaders ++ List.replicate 3 0 ++ relativeWords
    ++ List.replicate 14 0 ++ [0x2a]

def smallMem : Mem := fun x =>
  if x < 0x10000 then ofWords 0x7f80 smallStack.words x
  else if x < 0x20000 then ofWords 0x10100 relativeWords x
  else ofWords 0x20018 programWords x

def smallApp : ElfImage := ⟨0x20000, 0x20040, 3, 56⟩

/-- The stack of the process, from 0x7000 to 0x8000. -/
def smallStackLine : MapsLine :=
  { stackLine with
    startDigits := stackLine.startDigits ++ stackLine.offset.take 3
    endDigits := stackLine.endDigits ++ stackLine.offset.take 3
    start_ne := by decide
    start_lt := by decide
    end_ne := by decide
    end_lt := by decide }

def smallSurroundings : Surroundings where
  execFd := 3
  maps := mapsFile (text [heapLine, smallStackLine])
  newStack := 0x7f0000000000
  archPrctl := 0
  rax := 0
  rsp := 0x7f00
  stage3Entry := 0x10400
  stage3 := 0x30000
  appBase := 0
  tlsImage := 0

/-- The memory after one and after both relocations. -/
def smallMem₁ : Mem := store64 smallMem 0x10200 0x10300
def smallMem₂ : Mem := store64 smallMem₁ 0x20200 0x20300

theorem holdsWords_of_forall {p : Word} {ws : List Word} (hfits : p.toNat + 8 * ws.length ≤ 2 ^ 64)
    (h : ∀ i, ∀ hi : i < ws.length, load64 m (wordSlot p i) = ws[i]) : HoldsWords m p ws where
  fits := hfits
  word i w hw := by
    obtain ⟨hi, rfl⟩ := List.getElem?_eq_some_iff.mp hw
    exact h i hi

section

variable (base) (h : readRela m (base + 0x100) = relativeEntry)
include h

theorem relocations_relative : relocations m base relativeVector.table = [relativeEntry] := by
  have hsize : (relativeVector.table dtRelasz).toNat / 24 = 1 := by decide
  have htable : relativeVector.table dtRela = 0x100 := by decide
  have hplt : (relativeVector.table dtPltrelsz).toNat / 24 = 0 := by decide
  have hfirst : relaAddr (base + 0x100) 0 = base + 0x100 := add_zero _
  rw [relocations, relaTable, jmprelTable, relaEntries, relaEntries, hsize, hplt, htable,
    List.range_one, List.map_singleton, hfirst, h]
  rfl

theorem relocatedMem_relative :
    relocatedMem m base relativeVector.table = store64 m (base + 0x200) (base + 0x300) := by
  have hvalue : relocated m base relativeVector.table relativeEntry = base + 0x300 :=
    if_pos (by decide)
  rw [relocatedMem, relocations_relative base h, relocationStores, List.map_singleton, hvalue]
  rfl

theorem relocatable_relative : Relocatable m base relativeVector.table := by
  have hrelocations := relocations_relative base h
  have htypes : ∀ e ∈ relocations m base relativeVector.table, e.type = rX8664Relative := by
    intro e he
    rw [hrelocations, List.mem_singleton] at he
    rw [he]
    decide
  have hslot : ∀ e ∈ relocations m base relativeVector.table, slot base e = base + 0x200 := by
    intro e he
    rw [hrelocations, List.mem_singleton] at he
    rw [he]
    rfl
  have hempty : (relativeVector.table dtPltrelsz).toNat = 0 := by decide
  constructor
  · decide
  · decide
  · decide
  · decide
  · decide
  · intro e he
    exact .inr (htypes e (List.mem_append_left _ he))
  · intro e he
    rw [jmprelTable, relaEntries, hempty] at he
    exact absurd he List.not_mem_nil
  · rw [hrelocations]
    exact List.pairwise_singleton _ _
  · intro e he
    have hsize : (relativeVector.table dtRelasz).toNat = 24 := by decide
    have htable : relativeVector.table dtRela = 0x100 := by decide
    rw [hslot e he, hsize, htable]
    have hbehind : Disjoint (region (base + 0x200) 8) (region base 0x200) :=
      disjoint_region_add (k := 0x200) (by decide)
    exact hbehind.mono_right (region_add_subset (k := 0x100) (by decide) (by decide))
  · intro e _
    rw [hempty, region_zero]
    exact disjoint_bot_right
  · intro e _ e' he' htype
    exact absurd (htypes e' he') htype

end

theorem readRela_small : readRela smallMem 0x10100 = relativeEntry := by
  have h0 : load64 smallMem (rOffset 0x10100) = 0x200 := by decide
  have h8 : load64 smallMem (rInfo 0x10100) = 8 := by decide
  have h16 : load64 smallMem (rAddend 0x10100) = 0x300 := by decide
  rw [readRela, h0, h8, h16, relativeEntry]

theorem announced_relative : TablesAnnounced relativeVector.table where
  rela := by decide
  jmprel := by decide

theorem loaderStarted_small : LoaderStarted smallStack relativeVector 0x7f80 0x10180 smallMem where
  words := holdsWords_of_forall (by decide) (by decide)
  env := by decide
  auxv := by decide
  base_ne := by decide
  own_words := holdsWords_of_forall (by decide) (by decide)
  own_length := by decide
  relocatable := relocatable_relative 0x10000 readRela_small
  announced := announced_relative

theorem selfRelocated_small : selfRelocated smallStack relativeVector smallMem = smallMem₁ := by
  rw [selfRelocated, show smallStack.ldsoBase = 0x10000 by decide]
  exact relocatedMem_relative 0x10000 readRela_small

theorem readRela_small₁ : readRela smallMem₁ 0x20100 = relativeEntry := by
  have h0 : load64 smallMem₁ (rOffset 0x20100) = 0x200 := by decide
  have h8 : load64 smallMem₁ (rInfo 0x20100) = 8 := by decide
  have h16 : load64 smallMem₁ (rAddend 0x20100) = 0x300 := by decide
  rw [readRela, h0, h8, h16, relativeEntry]

theorem programRelocated_small :
    programRelocated smallStack relativeVector relativeVector smallApp smallMem = smallMem₂ := by
  rw [programRelocated, selfRelocated_small]
  exact relocatedMem_relative 0x20000 readRela_small₁

theorem programMapped_small :
    ProgramMapped smallStack relativeVector smallApp smallMem₁ where
  phdr_ne := by decide
  image := ⟨0x20040, by decide, by
    rw [show load64 smallMem₁ (pVaddr 0x20040) = 0x40 by decide,
      show smallStack.aux atPhdr = 0x20040 by decide, show smallStack.aux atPhent = 56 by decide,
      show smallStack.aux atPhnum = 3 by decide]
    rfl⟩
  dynamic := ⟨0x20078, by decide, by
    rw [show load64 smallMem₁ (pVaddr 0x20078) = 0x180 by decide]
    exact holdsWords_of_forall (by decide) (by decide)⟩
  tagged := ⟨by decide, by decide⟩
  relocatable := relocatable_relative 0x20000 readRela_small₁
  announced := announced_relative

/-- The image with the header of type `PT_TLS`. -/
theorem phTls_small : phTls smallMem₂ smallApp = some 0x200b0 := by decide

theorem ldStage2TlsSize_small : ldStage2TlsSize smallMem₂ smallApp = 8 := by
  rw [ldStage2TlsSize_eq phTls_small, tlsImageSize]
  decide

def smallOld : StackInfo := smallStackLine.stackInfo

theorem stackSwitchable_small :
    StackSwitchable smallSurroundings [heapLine, smallStackLine] smallOld 8 smallMem₂ where
  delivers := delivers_mapsFile (by decide) (by decide)
  straight := by decide
  found := by decide
  entry := by
    constructor
    · rfl
    · decide
    · rw [mem_region]
      decide
    · decide
    · decide
    · rw [disjoint_region_iff] <;> decide
  room := by decide
  saved := by
    rw [SavedApart, disjoint_region_iff] <;> decide
  mapped := ⟨⟨20, rfl⟩, by decide, by decide, by decide⟩

/-- Between the old stack and the new one nothing is written to. -/
theorem disjoint_switchArea_small {a : Word} {n : ℕ} (hlow : 0x7f00 ≤ a.toNat)
    (hhigh : a.toNat + n ≤ 0x7f0000000000) :
    Disjoint (region a n) (switchArea smallSurroundings) := by
  have hsaved : (smallSurroundings.rsp - 8 - 8 - 8).toNat + 24 = 0x7f00 := by decide
  have hnew : smallSurroundings.newStack.toNat = 0x7f0000000000 := rfl
  refine Set.disjoint_union_right.mpr ⟨?_, ?_⟩
  · exact (disjoint_region_of_le (by omega) (by omega)).symm
  · exact disjoint_region_of_le (by omega) (by omega)

theorem programApart_small : ProgramApart smallSurroundings smallApp smallMem₂ where
  headers i hi := by
    have hheader : ∀ i < 3,
        0x7f00 ≤ (smallApp.phdr + BitVec.ofNat 64 i * smallApp.phEnt).toNat ∧
          (smallApp.phdr + BitVec.ofNat 64 i * smallApp.phEnt).toNat + 56 ≤ 0x7f0000000000 := by
      decide
    exact disjoint_switchArea_small (hheader i hi).1 (hheader i hi).2
  entry := disjoint_switchArea_small (by decide) (by decide)
  image ph hph := by
    obtain rfl : 0x200b0 = ph := Option.some.inj (phTls_small.symm.trans hph)
    have hbase : tlsImageBase smallMem₂ smallApp 0x200b0 = 0x20240 := by
      rw [tlsImageBase]
      decide
    have hsize : tlsImageSize smallMem₂ 0x200b0 = 8 := by
      rw [tlsImageSize]
      decide
    rw [hbase, hsize]
    exact ⟨by decide, disjoint_switchArea_small (by decide) (by decide)⟩

/-- The slot of an image with the one relocation. -/
theorem slotArea_relative (base : Word) (h : readRela m (base + 0x100) = relativeEntry) :
    slotArea m base relativeVector.table = region (base + 0x200) 8 := by
  ext x
  rw [slotArea, relocations_relative base h]
  simp [slot, relativeEntry]

theorem slotsApart_small :
    SlotsApart smallStack relativeVector relativeVector smallApp smallSurroundings smallMem := by
  have hown : slotArea smallMem smallStack.ldsoBase relativeVector.table = region 0x10200 8 := by
    rw [show smallStack.ldsoBase = 0x10000 by decide]
    exact slotArea_relative 0x10000 readRela_small
  have hprogram : slotArea (selfRelocated smallStack relativeVector smallMem) smallApp.base
      relativeVector.table = region 0x20200 8 := by
    rw [selfRelocated_small]
    exact slotArea_relative 0x20000 readRela_small₁
  constructor
  · rw [hown, hprogram]
    exact disjoint_region_of_le (by decide) (by decide)
  · rw [hown]
    exact disjoint_switchArea_small (by decide) (by decide)
  · rw [hprogram]
    exact disjoint_switchArea_small (by decide) (by decide)

/-- What keeps the loader from the call of the program: it has been run as a command,
the list of the mappings has no stack, or the thread pointer cannot be set. -/
inductive Refuses (stack : InitialStack) (own program : DynVector) (app : ElfImage)
    (w : Surroundings) (lines : List MapsLine) (m : Mem) : Prop
  | command (h : stack.aux atPhdr = stack.ldsoBase)
  | noStack (hprogram : ProgramMapped stack program app (selfRelocated stack own m))
      (hmaps : Delivers w.maps (text lines)) (hstraight : Straight lines)
      (hmissing : lines.find? MapsLine.isStack = none)
  | threadPointer {old : StackInfo}
      (hprogram : ProgramMapped stack program app (selfRelocated stack own m))
      (hswitch : StackSwitchable w lines old
        (ldStage2TlsSize (programRelocated stack own program app m) app)
        (programRelocated stack own program app m))
      (hapart : ProgramApart w app (programRelocated stack own program app m))
      (hprctl : w.archPrctl.slt 0 = true)

end Ciabatta.Loader
