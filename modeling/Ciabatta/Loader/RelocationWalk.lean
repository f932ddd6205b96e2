import Ciabatta.Loader.RelocationResult

/-!
The way through a relocation table. Each entry is read when its turn comes, and
its slot is written before the next one is read, so an entry may change those
that follow. The offset is a wrapping counter: the way need not come to an end.
-/

namespace Ciabatta.Loader

open ByteMemory Exec

/-- A table, with the types that its entries may have. -/
structure RelocationTable where
  addr : Word
  size : Word
  ent : Word
  types : List (BitVec 32)

/-- The table at `DT_RELA`; without this entry there is none. -/
def relaWalk (base : Word) (dyn : DynTable) : RelocationTable where
  addr := base + dyn dtRela
  size := if dyn dtRela = 0 then 0 else dyn dtRelasz
  ent := dyn dtRelaent
  types := [rX8664GlobDat, rX8664Relative]

/-- The table at `DT_JMPREL`. -/
def jmprelWalk (base : Word) (dyn : DynTable) : RelocationTable where
  addr := base + dyn dtJmprel
  size := dyn dtPltrelsz
  ent := sizeofElf64Rela
  types := [rX8664JumpSlot]

namespace RelocationTable

def entry (T : RelocationTable) (m : Mem) (offs : Word) : Elf64Rela :=
  readRela m (T.addr + offs)

def Supports (T : RelocationTable) (m : Mem) (offs : Word) : Prop :=
  (T.entry m offs).type ∈ T.types

/-- The memory once the entry at `offs` has been applied. -/
def apply (T : RelocationTable) (base : Word) (dyn : DynTable) (m : Mem) (offs : Word) : Mem :=
  store64 m (slot base (T.entry m offs)) (relocated m base dyn (T.entry m offs))

end RelocationTable

/-- From `offs` on all entries are supported. Their slots are written in order,
each with what its type asks for, and lead from memory `m` to memory `m'`. -/
inductive Applies (base : Word) (dyn : DynTable) (T : RelocationTable) :
    Word → Mem → List Word → Mem → Prop
  | done {offs : Word} {m : Mem} (h : ¬ offs < T.size) : Applies base dyn T offs m [] m
  | entry {offs : Word} {m m' : Mem} {slots : List Word} (h : offs < T.size)
      (htype : T.Supports m offs)
      (hrest : Applies base dyn T (offs + T.ent) (T.apply base dyn m offs) slots m') :
      Applies base dyn T offs m (slot base (T.entry m offs) :: slots) m'

/-- From `offs` on there is an entry that is not supported. -/
inductive Meets (base : Word) (dyn : DynTable) (T : RelocationTable) : Word → Mem → Prop
  | here {offs : Word} {m : Mem} (h : offs < T.size) (htype : ¬ T.Supports m offs) :
      Meets base dyn T offs m
  | later {offs : Word} {m : Mem} (h : offs < T.size) (htype : T.Supports m offs)
      (hrest : Meets base dyn T (offs + T.ent) (T.apply base dyn m offs)) :
      Meets base dyn T offs m

/-- The rounds of a loop over the table: they apply what is supported. -/
structure Walks (base : Word) (dyn : DynTable) (T : RelocationTable)
    (round : Word → Exec Call (Word ⊕ Unit)) : Prop where
  next : ∀ offs s, offs < T.size → T.Supports s.mem offs →
    Yields (round offs) s fun r t =>
      r = .inl (offs + T.ent) ∧ EntryApplied base dyn (T.addr + offs) s t
  last : ∀ offs s, ¬ offs < T.size → round offs s = .ok (.inr ()) s

variable {base : Word} {dyn : DynTable} {T : RelocationTable}
  {round : Word → Exec Call (Word ⊕ Unit)} {offs : Word} {m m' : Mem} {slots slots' : List Word}
  {s t : Machine Call} {fuel : ℕ}

/-- On a way without an entry that is not supported the next one is supported,
and so are those behind it. -/
theorem supports_of_not_meets (h : ¬ Meets base dyn T offs m) (hlt : offs < T.size) :
    T.Supports m offs ∧ ¬ Meets base dyn T (offs + T.ent) (T.apply base dyn m offs) := by
  have htype : T.Supports m offs := by
    by_contra hother
    exact h (.here hlt hother)
  exact ⟨htype, fun hlater => h (.later hlt htype hlater)⟩

/-! ### The rounds of the relocators -/

theorem relaWalk_size (h : dyn dtRela ≠ 0) : (relaWalk base dyn).size = dyn dtRelasz :=
  if_neg h

theorem relaWalk_supports : (relaWalk base dyn).Supports m offs ↔
    (readRela m (base + dyn dtRela + offs)).type = rX8664GlobDat ∨
      (readRela m (base + dyn dtRela + offs)).type = rX8664Relative := by
  change _ ∈ [rX8664GlobDat, rX8664Relative] ↔ _
  simp [RelocationTable.entry, relaWalk]

theorem jmprelWalk_supports : (jmprelWalk base dyn).Supports m offs ↔
    (readRela m (base + dyn dtJmprel + offs)).type = rX8664JumpSlot := by
  change _ ∈ [rX8664JumpSlot] ↔ _
  simp [RelocationTable.entry, jmprelWalk]

theorem walks_relaRound (h : dyn dtRela ≠ 0) :
    Walks base dyn (relaWalk base dyn) (Stage2.relaRound base (base + dyn dtSymtab)
      (base + dyn dtRela) (dyn dtRelasz) (dyn dtRelaent)) := by
  refine ⟨fun offs s hlt htype => ?_, fun offs s hend => ?_⟩
  · rw [relaWalk_size h] at hlt
    exact yields_relaRound hlt (relaWalk_supports.mp htype)
  · rw [relaWalk_size h] at hend
    rw [Stage2.relaRound, if_neg hend]
    rfl

/-- An entry that is not supported ends the loader. -/
theorem stops_relaRound (h : dyn dtRela ≠ 0) (hlt : offs < (relaWalk base dyn).size)
    (htype : ¬ (relaWalk base dyn).Supports s.mem offs) :
    Stops (Stage2.relaRound base (base + dyn dtSymtab) (base + dyn dtRela) (dyn dtRelasz)
      (dyn dtRelaent) offs) s (.exit 1) := by
  rw [relaWalk_size h] at hlt
  rw [relaWalk_supports, not_or] at htype
  rw [Stage2.relaRound, if_pos hlt]
  simp only [Stops, loadWord_bind, Machine.record_mem]
  refine Stops.bind (.ite_neg htype.1 (.ite_neg htype.2 ?_)) _
  exact ⟨_, rfl⟩

theorem walks_pltRound :
    Walks base dyn (jmprelWalk base dyn) (Stage2.pltRound base (base + dyn dtSymtab)
      (base + dyn dtJmprel) (dyn dtPltrelsz)) := by
  refine ⟨fun offs s hlt htype => ?_, fun offs s hend => ?_⟩
  · exact yields_pltRound hlt (jmprelWalk_supports.mp htype)
  · exact congrFun (if_neg hend) s

theorem plt_of_pltgot_zero (h : dyn dtPltgot = 0) : Stage2.plt fuel base dyn = pure () :=
  if_neg (not_not.mpr h)

theorem stops_plt (hgate : dyn dtPltgot ≠ 0) (hrel : dyn dtPltrel = 17) :
    Stops (Stage2.plt fuel base dyn) s (.exit 1) := by
  rw [Stage2.plt, if_pos hgate, if_pos hrel]
  exact ⟨_, rfl⟩

theorem plt_eq_loop (hgate : dyn dtPltgot ≠ 0) (hrel : dyn dtPltrel ≠ 17) :
    Stage2.plt fuel base dyn = loop (Stage2.pltRound base (base + dyn dtSymtab)
      (base + dyn dtJmprel) (dyn dtPltrelsz)) fuel 0 := by
  rw [Stage2.plt, if_pos hgate, if_neg hrel, pure_bind]
  rfl

/-! ### The loops -/

/-- The loop over a table of supported entries comes to its end. -/
theorem Applies.yields_loop (h : Applies base dyn T offs m slots m')
    (hwalks : Walks base dyn T round) (hs : s.mem = m) :
    ∃ n, ∀ fuel, n ≤ fuel → Yields (loop round fuel offs) s fun _ t =>
      t.mem = m' ∧ t.stored = s.stored ++ slots.map (·, 8) := by
  induction h generalizing s with
  | done hend =>
      refine ⟨1, fun fuel hfuel => ?_⟩
      obtain ⟨fuel, rfl⟩ := Nat.exists_eq_add_of_le' hfuel
      exact .loop_end ⟨_, _, hwalks.last _ s hend, rfl, hs, by simp⟩
  | @entry offs m m' slots hlt htype _ ih =>
      subst hs
      obtain ⟨r, u, hround, rfl, happlied⟩ := hwalks.next offs s hlt htype
      obtain ⟨n, hn⟩ := ih happlied.mem
      refine ⟨n + 1, fun fuel hfuel => ?_⟩
      obtain ⟨fuel, rfl⟩ := Nat.exists_eq_add_of_le' (Nat.le_of_add_left_le hfuel)
      refine .loop_next (R := fun t => t = u) ⟨_, u, hround, rfl, rfl⟩ ?_
      rintro _ rfl
      refine (hn fuel (by omega)).mono fun _ t ht => ⟨ht.1, ?_⟩
      rw [ht.2, happlied.stored, List.map_cons, List.append_assoc]
      rfl

/-- The loop over a table with another entry in it comes to this entry. -/
theorem Meets.stops_loop (h : Meets base dyn T offs m) (hwalks : Walks base dyn T round)
    (hstops : ∀ offs s, offs < T.size → ¬ T.Supports s.mem offs → Stops (round offs) s (.exit 1))
    (hs : s.mem = m) : ∃ n, ∀ fuel, n ≤ fuel → Stops (loop round fuel offs) s (.exit 1) := by
  induction h generalizing s with
  | here hlt htype =>
      subst hs
      refine ⟨1, fun fuel hfuel => ?_⟩
      obtain ⟨fuel, rfl⟩ := Nat.exists_eq_add_of_le' hfuel
      exact (hstops _ s hlt htype).bind _
  | @later offs m hlt htype _ ih =>
      subst hs
      obtain ⟨r, u, hround, rfl, happlied⟩ := hwalks.next offs s hlt htype
      obtain ⟨n, hn⟩ := ih happlied.mem
      refine ⟨n + 1, fun fuel hfuel => ?_⟩
      obtain ⟨fuel, rfl⟩ := Nat.exists_eq_add_of_le' (Nat.le_of_add_left_le hfuel)
      rw [Stops, loop, bind_of_ok hround]
      exact hn fuel (by omega)

/-- A loop that returns has applied all entries, or has met one that is not
supported. -/
theorem Walks.applies_of_ok (hwalks : Walks base dyn T round)
    (hmeets : ¬ Meets base dyn T offs s.mem) (hrun : loop round fuel offs s = .ok () t) :
    ∃ slots, Applies base dyn T offs s.mem slots t.mem ∧
      t.stored = s.stored ++ slots.map (·, 8) := by
  induction fuel generalizing offs s with
  | zero => cases hrun
  | succ fuel ih =>
      obtain ⟨k, r, u, hfuel, hround, hrest⟩ := exists_of_loop_ok hrun
      obtain rfl := Nat.succ.inj hfuel
      by_cases hlt : offs < T.size
      · obtain ⟨htype, hfree⟩ := supports_of_not_meets hmeets hlt
        obtain ⟨r', u', hround', hnext, happlied⟩ := hwalks.next offs s hlt htype
        rw [hround] at hround'
        cases hround'
        subst hnext
        have hmem : u.mem = T.apply base dyn s.mem offs := happlied.mem
        rw [← hmem] at hfree
        obtain ⟨slots, happlies, hstored⟩ := ih hfree hrest
        rw [hmem] at happlies
        refine ⟨_, .entry hlt htype happlies, ?_⟩
        rw [hstored, happlied.stored, List.map_cons, List.append_assoc]
        rfl
      · rw [hwalks.last offs s hlt] at hround
        cases hround
        obtain ⟨-, rfl⟩ := hrest
        exact ⟨[], .done hlt, by simp⟩

/-- The way through a table is one. -/
theorem Applies.eq (h : Applies base dyn T offs m slots m') {m'' : Mem}
    (h' : Applies base dyn T offs m slots' m'') : slots' = slots ∧ m'' = m' := by
  induction h generalizing slots' with
  | done hend =>
      cases h' with
      | done => exact ⟨rfl, rfl⟩
      | entry hlt => exact absurd hlt hend
  | entry hlt _ _ ih =>
      cases h' with
      | done hend => exact absurd hlt hend
      | entry _ _ hrest =>
          obtain ⟨rfl, rfl⟩ := ih hrest
          exact ⟨rfl, rfl⟩

theorem Applies.not_meets (h : Applies base dyn T offs m slots m') : ¬ Meets base dyn T offs m := by
  induction h with
  | done hend =>
      intro hmeets
      cases hmeets with
      | here hlt | later hlt => exact hend hlt
  | entry _ htype _ ih =>
      intro hmeets
      cases hmeets with
      | here _ hother => exact hother htype
      | later _ _ hrest => exact ih hrest

end Ciabatta.Loader
