import Ciabatta.CiaMem.PoolRelease
import Ciabatta.Lib.Lots

/-!
When a pool grows. The buckets are a stock that comes in lots, a buffer each: a further
buffer is obtained only if all buckets are out, and a bucket that comes back is used
again.
-/

namespace Ciabatta.CiaMem

open ByteMemory Exec FreeList Layout Transition System

variable {params : PoolParams} {s : PoolRun} {d : Depot Word}

/-- What a step of the pool is for the stock of buckets. -/
def liveActs : PoolAct → List Lots.Act
  | .alloc _ _ => [.take]
  | .free _ => [.giveBack]
  | .write => []

theorem length_stock (params : PoolParams) (bases : List Word) :
    (params.carving.stock bases).length = params.carving.count * bases.length := by
  induction bases with
  | nil => rfl
  | cons base bases ih =>
      rw [Carving.stock] at ih
      rw [Carving.stock, List.flatMap_cons, List.length_append, ih, List.length_cons,
        Nat.mul_succ, Nat.add_comm]
      simp [Carving.buckets]

/-- The live buckets and those of the free list are all there are. -/
theorem Represents.card (h : Represents params s d) :
    d.free.card + s.live.length = params.carving.count * s.buffers.length := by
  have hcard := congrArg Multiset.card d.split
  rw [Multiset.card_add, h.live, h.stock, Multiset.coe_card, Multiset.coe_card,
    length_stock] at hcard
  exact hcard

theorem Represents.free_eq_zero_iff (h : Represents params s d) :
    d.free = 0 ↔ s.pool.freelistHead = 0 := by
  obtain ⟨l, hl, hchain⟩ := h.chain
  rw [hl, Multiset.coe_eq_zero]
  exact hchain.eq_nil_iff

/-- The pool as a stock of buckets. -/
def Stocks (params : PoolParams) (s : PoolRun) (stock : Lots.Stock) : Prop :=
  (∃ d, Represents params s d) ∧ stock.out = s.live.length ∧ stock.lots = s.buffers.length

theorem pool_simulates_lots : Simulation (poolService params)
    (Lots.service params.carving.count) liveActs (Stocks params) where
  init s hinit := by
    obtain ⟨d, -, hrep⟩ := represents_init hinit
    obtain ⟨m, base, t, -, -, hbuffers, hlive⟩ := hinit
    exact ⟨⟨0, 1⟩, ⟨rfl, rfl⟩, ⟨d, hrep⟩, by rw [hlive]; rfl, by rw [hbuffers]; rfl⟩
  step := by
    rintro s a s' ⟨out, lots⟩ ⟨⟨d, hrep⟩, hout, hlots⟩ hstep
    dsimp only at hout hlots
    obtain ⟨d', -, hrep'⟩ := pool_simulates_depot.step _ _ _ _ hrep hstep
    have hcard := hrep.card
    cases hstep with
    | alloc hobtains hcall =>
        cases hobtains with
        | none hhead =>
            -- a bucket is free, so not all of them are out
            have hfree : 0 < d.free.card :=
              Multiset.card_pos.mpr (mt hrep.free_eq_zero_iff.mp hhead)
            refine ⟨⟨out + 1, lots⟩, .single (.take ?_), ⟨d', hrep'⟩, ?_, hlots⟩
            · dsimp only
              rw [hout, hlots]
              omega
            · rw [hout]
              rfl
        | grow hhead hsupplies =>
            have hfree : d.free.card = 0 := by
              rw [hrep.free_eq_zero_iff.mpr hhead, Multiset.card_zero]
            refine ⟨⟨out + 1, lots + 1⟩, .single (.buy ?_), ⟨d', hrep'⟩, ?_, ?_⟩
            · dsimp only
              rw [hout, hlots]
              omega
            · rw [hout]
              rfl
            · rw [hlots]
              rfl
    | @free p pool t hlive hcall =>
        have hlength := List.length_erase_add_one hlive
        refine ⟨⟨(s.live.erase p).length, lots⟩, .single (.giveBack ?_), ⟨d', hrep'⟩, rfl, hlots⟩
        rw [hout, hlength]
    | write hwritable => exact ⟨⟨out, lots⟩, .refl _, ⟨d', hrep'⟩, hout, hlots⟩

end Ciabatta.CiaMem
