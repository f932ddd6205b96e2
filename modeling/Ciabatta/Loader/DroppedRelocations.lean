import Ciabatta.Loader.RelocationWalk

/-!
Which relocations the relocators leave out. The loop over the entries at
`DT_RELA` ends the loader on a type that it does not know; the one over the
entries at `DT_JMPREL` has no such branch.
-/

namespace Ciabatta.Loader

open ByteMemory Exec

/-- The relocator leaves out no entry of the two tables: if it returns then all
of them have been applied, and if one has another type then it stops with an
error. -/
structure NoneDropped (relocate : ℕ → Word → DynTable → Exec Call Unit) (base : Word)
    (dyn : DynTable) (s : Machine Call) : Prop where
  applied : ∀ fuel t, relocate fuel base dyn s = .ok () t → ∃ slots m slots',
    Applies base dyn (relaWalk base dyn) 0 s.mem slots m ∧
      Applies base dyn (jmprelWalk base dyn) 0 m slots' t.mem ∧
      t.stored = s.stored ++ (slots ++ slots').map (·, 8)
  rela_other : Meets base dyn (relaWalk base dyn) 0 s.mem →
    ∃ n, ∀ fuel, n ≤ fuel → Stops (relocate fuel base dyn) s (.exit 1)
  jmprel_other : ∀ slots m, Applies base dyn (relaWalk base dyn) 0 s.mem slots m →
    Meets base dyn (jmprelWalk base dyn) 0 m →
      ∃ n, ∀ fuel, n ≤ fuel → Stops (relocate fuel base dyn) s (.exit 1)

/-- Where the entries at `DT_RELA` can all be applied, `DT_PLTGOT` announces
those at `DT_JMPREL`, and they are all jump slots or of the kind `REL`. -/
def JmprelCovered (base : Word) (dyn : DynTable) (s : Machine Call) : Prop :=
  ∀ slots m, Applies base dyn (relaWalk base dyn) 0 s.mem slots m →
    if dyn dtPltgot = 0 then dyn dtPltrelsz = 0
    else dyn dtPltrel = 17 ∨ ¬ Meets base dyn (jmprelWalk base dyn) 0 m

variable {base : Word} {dyn : DynTable} {m m' : Mem} {slots : List Word} {s t : Machine Call}
  {fuel : ℕ}

/-! ### The parts of a relocator -/

theorem ldStage2Relocate_eq (h : dyn dtRel = 0) (fuel : ℕ) (base : Word) :
    ldStage2Relocate fuel base dyn
      = Stage2.rela fuel base dyn >>= fun _ => Stage2.plt fuel base dyn := by
  have hrel : Stage2.rel fuel base dyn = pure () := if_neg (not_not.mpr h)
  rw [ldStage2Relocate, hrel, pure_bind]

theorem relaWalk_size_zero (h : dyn dtRela = 0) : (relaWalk base dyn).size = 0 :=
  if_pos h

theorem yields_rela_of_applies
    (h : Applies base dyn (relaWalk base dyn) 0 s.mem slots m) :
    ∃ n, ∀ fuel, n ≤ fuel → Yields (Stage2.rela fuel base dyn) s fun _ t =>
      t.mem = m ∧ t.stored = s.stored ++ slots.map (·, 8) := by
  by_cases hgate : dyn dtRela = 0
  · cases h with
    | done => exact ⟨0, fun _ _ => .ite_neg (not_not.mpr hgate) (yields_pure ⟨rfl, by simp⟩)⟩
    | entry hlt =>
        rw [relaWalk_size_zero hgate] at hlt
        exact absurd hlt (by simp)
  · obtain ⟨n, hn⟩ := h.yields_loop (walks_relaRound hgate) rfl
    exact ⟨n, fun fuel hfuel => .ite_pos hgate (hn fuel hfuel)⟩

theorem stops_rela_of_meets (h : Meets base dyn (relaWalk base dyn) 0 s.mem) :
    ∃ n, ∀ fuel, n ≤ fuel → Stops (Stage2.rela fuel base dyn) s (.exit 1) := by
  have hgate : dyn dtRela ≠ 0 := by
    intro hnone
    cases h with
    | here hlt | later hlt =>
        rw [relaWalk_size_zero hnone] at hlt
        exact absurd hlt (by simp)
  obtain ⟨n, hn⟩ := h.stops_loop (walks_relaRound hgate)
    (fun _ _ hlt htype => stops_relaRound hgate hlt htype) rfl
  refine ⟨n, fun fuel hfuel => ?_⟩
  rw [Stage2.rela, if_pos hgate]
  exact hn fuel hfuel

theorem applies_of_rela_ok (h : Stage2.rela fuel base dyn s = .ok () t) :
    ∃ slots, Applies base dyn (relaWalk base dyn) 0 s.mem slots t.mem ∧
      t.stored = s.stored ++ slots.map (·, 8) := by
  by_cases hgate : dyn dtRela = 0
  · rw [Stage2.rela, if_neg (not_not.mpr hgate)] at h
    obtain ⟨-, rfl⟩ := eq_of_pure_ok h
    refine ⟨[], .done ?_, by simp⟩
    rw [relaWalk_size_zero hgate]
    simp
  · rw [Stage2.rela, if_pos hgate] at h
    refine (walks_relaRound hgate).applies_of_ok ?_ h
    intro hmeets
    obtain ⟨n, hn⟩ := stops_rela_of_meets hmeets
    have hstops := hn (fuel + n) (Nat.le_add_left _ _)
    rw [Stage2.rela, if_pos hgate] at hstops
    exact hstops.ne_ok () t (loop_fuel_mono h (Nat.le_add_right _ _))

/-! ### Main result -/

theorem JmprelCovered.noneDropped (h : JmprelCovered base dyn s) (hrel : dyn dtRel = 0) :
    NoneDropped ldStage2Relocate base dyn s where
  applied := by
    intro fuel t hrun
    rw [ldStage2Relocate_eq hrel] at hrun
    obtain ⟨_, u, hrela, hplt⟩ := exists_of_bind_ok hrun
    obtain ⟨slots, happlies, hstored⟩ := applies_of_rela_ok hrela
    have hcovered := h slots u.mem happlies
    by_cases hgate : dyn dtPltgot = 0
    · rw [if_pos hgate] at hcovered
      rw [plt_of_pltgot_zero hgate] at hplt
      obtain ⟨-, rfl⟩ := eq_of_pure_ok hplt
      refine ⟨slots, t.mem, [], happlies, .done ?_, by rw [hstored, List.append_nil]⟩
      change ¬ (0 : Word) < dyn dtPltrelsz
      simp [hcovered]
    · rw [if_neg hgate] at hcovered
      by_cases hkind : dyn dtPltrel = 17
      · exact absurd hplt ((stops_plt hgate hkind).ne_ok () t)
      · rw [plt_eq_loop hgate hkind] at hplt
        obtain ⟨slots', happlies', hstored'⟩ :=
          walks_pltRound.applies_of_ok (hcovered.resolve_left hkind) hplt
        refine ⟨slots, u.mem, slots', happlies, happlies', ?_⟩
        rw [hstored', hstored, List.map_append, List.append_assoc]
  rela_other := by
    intro hmeets
    obtain ⟨n, hn⟩ := stops_rela_of_meets hmeets
    refine ⟨n, fun fuel hfuel => ?_⟩
    rw [ldStage2Relocate_eq hrel]
    exact (hn fuel hfuel).bind _
  jmprel_other := by
    intro slots m happlies hmeets
    have hcovered := h slots m happlies
    by_cases hgate : dyn dtPltgot = 0
    · rw [if_pos hgate] at hcovered
      cases hmeets with
      | here hlt | later hlt =>
          change (0 : Word) < dyn dtPltrelsz at hlt
          rw [hcovered] at hlt
          exact absurd hlt (by simp)
    · rw [if_neg hgate] at hcovered
      have hkind := hcovered.resolve_right (not_not.mpr hmeets)
      obtain ⟨n, hn⟩ := yields_rela_of_applies happlies
      refine ⟨n, fun fuel hfuel => ?_⟩
      rw [ldStage2Relocate_eq hrel]
      exact (hn fuel hfuel).bind_stops fun _ _ _ => stops_plt hgate hkind

/-- Without `DT_PLTGOT` the entries at `DT_JMPREL` are not applied. -/
theorem NoneDropped.pltrelsz_eq_zero (h : NoneDropped ldStage2Relocate base dyn s)
    (hrel : dyn dtRel = 0) (hgate : dyn dtPltgot = 0)
    (happlies : Applies base dyn (relaWalk base dyn) 0 s.mem slots m) :
    dyn dtPltrelsz = 0 := by
  obtain ⟨n, hn⟩ := yields_rela_of_applies happlies
  obtain ⟨_, u, hrela, hmem, hstored⟩ := hn n le_rfl
  have hrun : ldStage2Relocate n base dyn s = .ok () u := by
    rw [ldStage2Relocate_eq hrel, bind_of_ok hrela, plt_of_pltgot_zero hgate]
    rfl
  obtain ⟨slots₁, m₁, slots', happlies₁, happlies', hstored'⟩ := h.applied n u hrun
  obtain ⟨rfl, rfl⟩ := happlies.eq happlies₁
  rw [hstored, List.append_cancel_left_eq, List.map_append, eq_comm, List.append_right_eq_self,
    List.map_eq_nil_iff] at hstored'
  subst hstored'
  cases happlies' with
  | done hend =>
      change ¬ (0 : Word) < dyn dtPltrelsz at hend
      rw [BitVec.lt_def, show (0 : Word).toNat = 0 from rfl, Nat.not_lt, Nat.le_zero] at hend
      exact BitVec.eq_of_toNat_eq hend

/-- With it the loop goes over entries of other types. -/
theorem NoneDropped.not_meets (h : NoneDropped ldStage2Relocate base dyn s)
    (hrel : dyn dtRel = 0) (hgate : dyn dtPltgot ≠ 0) (hkind : dyn dtPltrel ≠ 17)
    (happlies : Applies base dyn (relaWalk base dyn) 0 s.mem slots m) :
    ¬ Meets base dyn (jmprelWalk base dyn) 0 m := by
  intro hmeets
  obtain ⟨n, hn⟩ := yields_rela_of_applies happlies
  obtain ⟨k, hk⟩ := h.jmprel_other slots m happlies hmeets
  obtain ⟨_, u, hrela, -⟩ := hn (n + k) (Nat.le_add_right _ _)
  obtain ⟨t, ht⟩ := hk (n + k) (Nat.le_add_left _ _)
  rw [ldStage2Relocate_eq hrel, bind_of_ok hrela, plt_eq_loop hgate hkind] at ht
  have honly := stopsOnly_loop (P := (· = .outOfFuel)) rfl
    (fun offs => stopsOnly_pltRound base (base + dyn dtSymtab) (base + dyn dtJmprel)
      (dyn dtPltrelsz) offs) (n + k) 0 u _ t ht
  cases honly

/-- An image with one entry at `DT_JMPREL`, which is of type `IRELATIVE`. -/
def irelativeImage : Machine Call where
  mem := storeAll (fun _ => 0) [(4352, 1024), (4360, 37), (4616, 77)]
  log := []

def irelativeDyn : DynTable := fun i =>
  if i = dtPltgot then 2048
  else if i = dtPltrelsz then 24
  else if i = dtSymtab then 512
  else if i = dtPltrel then 7
  else if i = dtJmprel then 256
  else 0

end Ciabatta.Loader
