import Ciabatta.Loader.Relocation

/-!
The two relocators agree. Without a `DT_REL` table the two pieces of code are
one function: they come to the same end with the same fuel, after the same
accesses.
-/

namespace Ciabatta.Loader

open ByteMemory Exec

/-- The order in which the two read the type and the symbol index does not
matter. -/
theorem relaRound_eq (base symtab relaEnts relaSize relaEnt : Word) :
    Stage1.relaRound base symtab relaEnts relaSize relaEnt
      = Stage2.relaRound base symtab relaEnts relaSize relaEnt := by
  funext offs s
  unfold Stage1.relaRound Stage2.relaRound
  by_cases h : offs < relaSize
  · rw [if_pos h, if_pos h]
    simp only [loadWord_bind, Machine.record_mem, elfAddr]
    rfl
  · rw [if_neg h, if_neg h]

theorem rela_eq (fuel : ℕ) (base : Word) (dyn : DynTable) :
    Stage1.rela fuel base dyn = Stage2.rela fuel base dyn := by
  rw [Stage1.rela, Stage2.rela, relaRound_eq]
  rfl

theorem plt_eq : Stage1.plt = Stage2.plt := rfl

theorem ldRelocate_eq {dyn : DynTable} (h : dyn dtRel = 0) (fuel : ℕ) (base : Word) :
    ldStage1Relocate fuel base dyn = ldStage2Relocate fuel base dyn := by
  have hrel₁ : Stage1.rel fuel base dyn = pure () := if_neg (not_not.mpr h)
  have hrel₂ : Stage2.rel fuel base dyn = pure () := if_neg (not_not.mpr h)
  rw [ldStage1Relocate, ldStage2Relocate, hrel₁, hrel₂, rela_eq, plt_eq]

/-- The ways in which a relocator can fail to return: the error exit, and fuel
that does not suffice. -/
def ErrorExit (e : Stop) : Prop :=
  e = .exit 1 ∨ e = .outOfFuel

theorem stopsOnly_relaRound (base symtab relaEnts relaSize relaEnt relaOffs : Word) :
    StopsOnly ErrorExit (Stage2.relaRound base symtab relaEnts relaSize relaEnt relaOffs) := by
  refine .ite (fun _ => ?_) (fun _ => stopsOnly_pure _)
  refine (stopsOnly_loadWord _).bind fun _ => (stopsOnly_loadWord _).bind fun _ => ?_
  refine (stopsOnly_loadWord _).bind fun _ => (stopsOnly_loadWord _).bind fun _ => ?_
  refine (stopsOnly_loadWord _).bind fun _ => .bind ?_ fun _ => stopsOnly_pure _
  refine .ite (fun _ => stopsOnly_storeWord _ _) fun _ => ?_
  refine .ite (fun _ => stopsOnly_storeWord _ _) fun _ => ?_
  exact (stopsOnly_call _).bind fun _ => stopsOnly_throw (.inl rfl)

/-- A round over the PLT relocations never stops. -/
theorem stopsOnly_pltRound {P : Stop → Prop} (base symtab relaPlt relaSize relaOffs : Word) :
    StopsOnly P (Stage2.pltRound base symtab relaPlt relaSize relaOffs) := by
  refine .ite (fun _ => ?_) (fun _ => stopsOnly_pure _)
  refine (stopsOnly_loadWord _).bind fun _ => (stopsOnly_loadWord _).bind fun _ => ?_
  refine (stopsOnly_loadWord _).bind fun _ => (stopsOnly_loadWord _).bind fun _ => ?_
  refine .bind (.ite (fun _ => ?_) fun _ => stopsOnly_pure _) fun _ => stopsOnly_pure _
  exact (stopsOnly_loadWord _).bind fun _ => stopsOnly_storeWord _ _

theorem stopsOnly_ldStage2Relocate {dyn : DynTable} (h : dyn dtRel = 0) (fuel : ℕ)
    (base : Word) : StopsOnly ErrorExit (ldStage2Relocate fuel base dyn) := by
  refine .bind (.ite (fun hne => absurd h hne) fun _ => stopsOnly_pure _) fun _ => ?_
  refine .bind ?_ fun _ => ?_
  · refine .ite (fun _ => ?_) fun _ => stopsOnly_pure _
    exact stopsOnly_loop (.inr rfl) (fun _ => stopsOnly_relaRound _ _ _ _ _ _) _ _
  · refine .ite (fun _ => .bind (.ite (fun _ => ?_) fun _ => stopsOnly_pure _) fun _ => ?_)
      fun _ => stopsOnly_pure _
    · exact (stopsOnly_call _).bind fun _ => stopsOnly_throw (.inl rfl)
    · exact stopsOnly_loop (.inr rfl) (fun _ => stopsOnly_pltRound _ _ _ _ _) _ _

/-- From the same machine the two relocators both finish, or both stop in the
error exit, or both go on past any given number of rounds; and they leave the
same memory and the same record of stores behind. -/
theorem relocators_agree (dyn : DynTable) (h : dyn dtRel = 0) (base : Word) (fuel : ℕ)
    (s : Machine Call) :
    (∃ t, ldStage1Relocate fuel base dyn s = .ok () t ∧
      ldStage2Relocate fuel base dyn s = .ok () t) ∨
    (∃ t, ldStage1Relocate fuel base dyn s = .error (.exit 1) t ∧
      ldStage2Relocate fuel base dyn s = .error (.exit 1) t) ∨
    ∃ t, ldStage1Relocate fuel base dyn s = .error .outOfFuel t ∧
      ldStage2Relocate fuel base dyn s = .error .outOfFuel t := by
  rw [ldRelocate_eq h]
  cases hrun : ldStage2Relocate fuel base dyn s with
  | ok _ t => exact .inl ⟨t, rfl, rfl⟩
  | error e t =>
      rcases stopsOnly_ldStage2Relocate h fuel base s e t hrun with rfl | rfl
      · exact .inr (.inl ⟨t, rfl, rfl⟩)
      · exact .inr (.inr ⟨t, rfl, rfl⟩)

/-! ### An image with both tables

It stands at 4096. Its entries ask for symbol 0, which is 77, at 5120, for an address in the
image at 5128, and for symbol 1, which is 99, at 5136. -/

def tablesImage : Machine Call where
  mem := storeAll (fun _ => 0) [(4352, 1024), (4360, 6), (4376, 1032), (4384, 8), (4392, 16),
    (4400, 1040), (4408, 0x100000007), (4616, 77), (4640, 99)]
  log := []

def tablesDyn (pltgot : Word) : DynTable := fun i =>
  if i = dtRela then 256
  else if i = dtRelasz then 48
  else if i = dtRelaent then 24
  else if i = dtPltgot then pltgot
  else if i = dtPltrel then 7
  else if i = dtJmprel then 304
  else if i = dtPltrelsz then 24
  else if i = dtSymtab then 512
  else 0

theorem relocators_agree_tablesImage :
    ∃ t, ldStage1Relocate 3 4096 (tablesDyn 2048) tablesImage = .ok () t ∧
      ldStage2Relocate 3 4096 (tablesDyn 2048) tablesImage = .ok () t := by
  have hreturns : ∃ t, ldStage2Relocate 3 4096 (tablesDyn 2048) tablesImage = .ok () t := ⟨_, rfl⟩
  obtain ⟨u, hu⟩ := hreturns
  rcases relocators_agree (tablesDyn 2048) rfl 4096 3 tablesImage with
    hok | ⟨t, -, hrun⟩ | ⟨t, -, hrun⟩
  · exact hok
  · rw [hu] at hrun
    cases hrun
  · rw [hu] at hrun
    cases hrun

end Ciabatta.Loader
