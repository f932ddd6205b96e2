import Ciabatta.Loader.BaseDiscovery
import Ciabatta.Loader.DynamicVector

/-!
`ld_stage1_entry` (`loader-self-reloc.c`) as a whole: from the stack of the new
process to the call of `ld_stage2_entry`. The parts are those of the other modules,
in the order of the source.
-/

namespace Ciabatta.Loader

open ByteMemory Exec

/-- `Loader_Info` -/
structure LoaderInfo where
  sp : Word
  ldsoBase : Word
  dyn : DynTable
  aux : AuxTable

/-- The arrays `aux` and `dyn` hold anything at first. The program returns what the
source passes to `ld_stage2_entry`. -/
def ldStage1Entry (fuel : ℕ) (sp dynv : Word) (aux : AuxTable) (dyn : DynTable) :
    Exec Call LoaderInfo := do
  let aux ← ldStage1Aux fuel sp aux
  let dyn ← decodeDynv Stage1.storeEntry fuel dynv dyn
  let base ← ldStage1Base fuel dynv aux
  ldStage1Relocate fuel base dyn
  return ⟨sp, base, dyn, aux⟩

namespace InitialStack

/-- What the auxiliary vector says. -/
def aux (stack : InitialStack) : AuxTable :=
  lastAux stack.auxv

/-- Where the kernel has loaded the loader. -/
def ldsoBase (stack : InitialStack) : Word :=
  stack.aux atBase

end InitialStack

/-- A new process whose program has asked for the loader: the kernel has put both
into memory, and the dynamic vector `own` of the loader stands at `dynv`. -/
structure LoaderStarted (stack : InitialStack) (own : DynVector) (sp dynv : Word) (m : Mem) :
    Prop where
  words : HoldsWords m sp stack.words
  env : stack.env.length < 2 ^ 31
  auxv : stack.auxv.length < 2 ^ 31
  base_ne : stack.ldsoBase ≠ 0
  own_words : HoldsWords m dynv own.words
  own_length : own.entries.length < 2 ^ 31
  relocatable : Relocatable m stack.ldsoBase own.table
  announced : TablesAnnounced own.table

/-- The memory once the loader has relocated itself. -/
def selfRelocated (stack : InitialStack) (own : DynVector) (m : Mem) : Mem :=
  relocatedMem m stack.ldsoBase own.table

/-- What `ld_stage2_entry` finds. -/
structure HandedOver (stack : InitialStack) (own : DynVector) (sp : Word) (m : Mem)
    (info : LoaderInfo) (t : Machine Call) : Prop where
  sp : info.sp = sp
  base : info.ldsoBase = stack.ldsoBase
  dyn : Tabulates own info.dyn
  aux : info.aux = stack.aux
  mem : t.mem = selfRelocated stack own m

variable {stack : InitialStack} {own : DynVector} {sp dynv : Word} {s : Machine Call}

/-- With a base in the auxiliary vector there is no search for it. -/
theorem ldStage1Base_of_ne {aux : AuxTable} {fuel : ℕ} (h : aux atBase ≠ 0) :
    ldStage1Base fuel dynv aux = pure (aux atBase) :=
  if_neg h

/-- The first stage decodes the stack and its own dynamic vector, relocates the
loader and hands over. -/
theorem LoaderStarted.handsOver (h : LoaderStarted stack own sp dynv s.mem) :
    ∃ n, ∀ fuel aux dyn, n ≤ fuel →
      Yields (ldStage1Entry fuel sp dynv aux dyn) s (HandedOver stack own sp s.mem) := by
  obtain ⟨n, hn⟩ := InitialStack.decodes_of_lt h.words h.env h.auxv
  refine ⟨n + own.entries.length + relocationRounds own.table + 38, fun fuel aux dyn hfuel => ?_⟩
  refine (hn fuel aux (by omega)).bind fun aux' t ht => ?_
  obtain ⟨haux, hreads⟩ := ht
  obtain rfl : aux' = stack.aux := funext haux
  refine (yields_decodeDynv h.own_words stores_stage1 (fun _ _ _ => yields_stage1_storeDyn)
    h.own_length (by omega) hreads.mem).bind fun dyn' u hu => ?_
  rw [ldStage1Base_of_ne h.base_ne]
  refine Yields.bind (R := fun base v => base = stack.ldsoBase ∧ v.mem = s.mem)
    (yields_pure ⟨rfl, hu.2⟩) ?_
  rintro _ v ⟨rfl, hv⟩
  refine (yields_ldStage1Relocate h.relocatable h.announced hu.1 (by omega) hv).bind ?_
  intro _ w hw
  exact yields_pure ⟨rfl, rfl, hu.1, rfl, hw⟩

end Ciabatta.Loader
