import Ciabatta.Lib.Stride
import Ciabatta.Loader.RelocationWalk

/-!
Which relocation loops come to an end. The stride of the `REL` and `RELA` loops
is what the dynamic table says, and nobody looks at it first; that of the PLT
loop is the size of an entry.
-/

namespace Ciabatta.Loader

open ByteMemory Exec

/-- Each of the loops returns or ends the loader. -/
structure RelocationEnds (base : Word) (dyn : DynTable) (s : Machine Call) : Prop where
  stage1_rel : Ends (fun fuel => Stage1.rel fuel base dyn) s
  stage1_rela : Ends (fun fuel => Stage1.rela fuel base dyn) s
  stage1_plt : Ends (fun fuel => Stage1.plt fuel base dyn) s
  stage2_rel : Ends (fun fuel => Stage2.rel fuel base dyn) s
  stage2_rela : Ends (fun fuel => Stage2.rela fuel base dyn) s
  stage2_plt : Ends (fun fuel => Stage2.plt fuel base dyn) s

/-- The strides clear the sizes of the tables that are there. The `RELA` loop
also ends at an entry that is not supported. -/
structure StridesClear (base : Word) (dyn : DynTable) (m : Mem) : Prop where
  rel : dyn dtRel ≠ 0 → Clears (dyn dtRelent) (dyn dtRelsz)
  rela : dyn dtRela ≠ 0 →
    Clears (dyn dtRelaent) (dyn dtRelasz) ∨ Meets base dyn (relaWalk base dyn) 0 m
  plt : dyn dtPltgot ≠ 0 → dyn dtPltrel ≠ 17 → Clears sizeofElf64Rela (dyn dtPltrelsz)

variable {base : Word} {dyn : DynTable} {T : RelocationTable}
  {round : Word → Exec Call (Word ⊕ Unit)} {offs : Word} {m m' : Mem} {slots : List Word}
  {s : Machine Call}

theorem ends_pure : Ends (fun _ => (pure () : Exec Call Unit)) s :=
  ⟨0, .inl ⟨(), s, rfl⟩⟩

/-- A loop that stands behind a test. -/
theorem ends_gate_iff {gate P : Prop} [Decidable gate] {x : ℕ → Exec Call Unit}
    (h : gate → (Ends x s ↔ P)) :
    Ends (fun fuel => if gate then x fuel else pure ()) s ↔ (gate → P) := by
  by_cases hgate : gate
  · simp only [if_pos hgate]
    exact (h hgate).trans (imp_iff_right hgate).symm
  · simp only [if_neg hgate]
    exact iff_of_true ends_pure fun h => absurd h hgate

/-! ### The loops over `REL` entries -/

theorem stepsThrough_relRound (table size ent : Word) :
    StepsThrough (fun _ _ => True) (Stage1.relRound table size ent) size ent where
  next := by
    intro offs s _ hlt
    refine .ite_pos hlt ?_
    refine .loadWord_bind (.loadWord_bind (.loadWord_bind ?_))
    exact yields_pure ⟨rfl, trivial⟩
  last := by
    intro offs s hend
    exact .ite_neg hend (yields_pure ⟨(), rfl⟩)

theorem ends_stage1_rel_iff : Ends (fun fuel => Stage1.rel fuel base dyn) s ↔
    (dyn dtRel ≠ 0 → Clears (dyn dtRelent) (dyn dtRelsz)) :=
  ends_gate_iff fun _ => (stepsThrough_relRound _ _ _).ends_iff trivial

/-- The second copy comes to its `sys_exit` at once. -/
theorem ends_stage2_rel : Ends (fun fuel => Stage2.rel fuel base dyn) s := by
  by_cases hgate : dyn dtRel ≠ 0
  · refine ⟨1, ?_⟩
    simp only [Stage2.rel, if_pos hgate]
    by_cases hlt : 0 < dyn dtRelsz
    · refine .inr ⟨0, ?_⟩
      simp only [Stops, loop, Stage2.relRound, if_pos hlt]
      exact ⟨_, rfl⟩
    · refine .inl ?_
      simp only [loop, Stage2.relRound, if_neg hlt]
      exact ⟨_, _, rfl⟩
  · simp only [Stage2.rel, if_neg hgate]
    exact ends_pure

/-! ### The loops over `RELA` entries -/

/-- On its way to no entry that is not supported a loop steps through the
table. -/
theorem Walks.stepsThrough (h : Walks base dyn T round) :
    StepsThrough (fun offs s => ¬ Meets base dyn T offs s.mem) round T.size T.ent where
  next := by
    intro offs s hmeets hlt
    obtain ⟨htype, hfree⟩ := supports_of_not_meets hmeets hlt
    refine (h.next offs s hlt htype).mono fun r t hr => ⟨hr.1, ?_⟩
    rw [hr.2.mem]
    exact hfree
  last := by
    intro offs s hend
    exact ⟨_, s, h.last offs s hend, (), rfl⟩

theorem Walks.ends_iff (h : Walks base dyn T round)
    (hstops : ∀ offs s, offs < T.size → ¬ T.Supports s.mem offs → Stops (round offs) s (.exit 1)) :
    Ends (fun fuel => loop round fuel 0) s ↔
      Clears T.ent T.size ∨ Meets base dyn T 0 s.mem := by
  by_cases hmeets : Meets base dyn T 0 s.mem
  · obtain ⟨n, hn⟩ := hmeets.stops_loop h hstops rfl
    exact iff_of_true ⟨n, .inr ⟨1, hn n le_rfl⟩⟩ (.inr hmeets)
  · rw [h.stepsThrough.ends_iff hmeets]
    exact (or_iff_left hmeets).symm

theorem ends_stage2_rela_iff : Ends (fun fuel => Stage2.rela fuel base dyn) s ↔
    (dyn dtRela ≠ 0 →
      Clears (dyn dtRelaent) (dyn dtRelasz) ∨ Meets base dyn (relaWalk base dyn) 0 s.mem) := by
  apply ends_gate_iff
  intro hgate
  have hwalks : Walks base dyn (relaWalk base dyn) _ := walks_relaRound hgate
  have hends := hwalks.ends_iff (s := s) fun _ _ hlt htype => stops_relaRound hgate hlt htype
  rw [relaWalk_size hgate] at hends
  exact hends

/-! ### The loops over PLT relocations -/

theorem stepsThrough_pltRound (base symtab table size : Word) :
    StepsThrough (fun _ _ => True) (Stage2.pltRound base symtab table size) size
      sizeofElf64Rela where
  next := by
    intro offs s _ hlt
    refine .ite_pos hlt ?_
    refine .loadWord_bind (.loadWord_bind (.loadWord_bind (.loadWord_bind ?_)))
    refine Yields.bind (R := fun _ _ => True) ?_ fun _ _ _ => yields_pure ⟨rfl, trivial⟩
    split
    · exact .loadWord_bind (yields_storeWord trivial)
    · exact yields_pure trivial
  last := by
    intro offs s hend
    exact .ite_neg hend (yields_pure ⟨(), rfl⟩)

theorem ends_stage2_plt_iff : Ends (fun fuel => Stage2.plt fuel base dyn) s ↔
    (dyn dtPltgot ≠ 0 → dyn dtPltrel ≠ 17 → Clears sizeofElf64Rela (dyn dtPltrelsz)) := by
  by_cases hgate : dyn dtPltgot = 0
  · simp only [plt_of_pltgot_zero hgate]
    exact ⟨fun _ h => absurd hgate h, fun _ => ends_pure⟩
  · by_cases hkind : dyn dtPltrel = 17
    · exact ⟨fun _ _ h => absurd hkind h, fun _ => ⟨0, .inr ⟨1, stops_plt hgate hkind⟩⟩⟩
    · simp only [plt_eq_loop hgate hkind]
      rw [(stepsThrough_pltRound _ _ _ _).ends_iff trivial]
      exact ⟨fun h _ _ => h, fun h => h hgate hkind⟩

/-! ### Main result -/

/-- A dynamic table without `DT_RELAENT`. -/
def noRelaent : DynTable := fun i =>
  if i = dtRela then 512 else if i = dtRelasz then 24 else 0

/-- One entry, `RELATIVE`, whose slot is off the table. -/
def relativeImage : Machine Call where
  mem := storeAll (fun _ => 0) [(4608, 768), (4616, 8)]
  log := []

/-- The loop applies the first entry again and again. -/
theorem not_meets_noRelaent {offs : Word} {m : Mem} (hoffs : offs = 0)
    (hslot : load64 m 4608 = 768) (hinfo : load64 m 4616 = 8) :
    ¬ Meets 4096 noRelaent (relaWalk 4096 noRelaent) offs m := by
  intro hmeets
  induction hmeets with
  | @here offs m _ htype =>
      subst hoffs
      refine htype (relaWalk_supports.mpr (.inr ?_))
      change ((elf64RType (load64 m 4616)).setWidth 32) = rX8664Relative
      rw [hinfo]
      rfl
  | @later offs m _ _ _ ih =>
      subst hoffs
      -- the entry lies off the slot and stays what it was
      have hkept (a v : Word) (hoff : a.toNat + 8 ≤ 4864) :
          load64 (store64 m (4096 + load64 m 4608) v) a = load64 m a := by
        rw [hslot]
        exact load64_store64_of_disjoint (disjoint_region_of_le (by decide) hoff)
      exact ih rfl ((hkept 4608 _ (by decide)).trans hslot)
        ((hkept 4616 _ (by decide)).trans hinfo)

end Ciabatta.Loader
