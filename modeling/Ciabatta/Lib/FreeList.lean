import Ciabatta.Lib.ByteMemory
import Ciabatta.Lib.Transition
import Mathlib.Data.Multiset.AddSub
import Mathlib.Data.Multiset.ZeroCons
import Mathlib.Data.Multiset.UnionInter

/-!
Free lists. A chain is a list threaded through the memory that it lists: the
first word of each element holds the address of the next one. A depot is what
such a list is for, a stock of distinct items of which some are handed out.
-/

namespace FreeList

open ByteMemory

/-! ### Chains -/

/-- The chain that starts at `head` runs through the list and ends in null. -/
def Chain (m : Mem) : Word → List Word → Prop
  | head, [] => head = 0
  | head, p :: l => head = p ∧ p ≠ 0 ∧ Chain m (load64 m p) l

variable {m m' : Mem} {head p : Word} {l : List Word}

theorem Chain.eq_nil_iff (h : Chain m head l) : l = [] ↔ head = 0 := by
  cases l with
  | nil => exact ⟨fun _ => h, fun _ => rfl⟩
  | cons p l =>
      obtain ⟨rfl, hne, -⟩ := h
      exact ⟨nofun, fun hzero => absurd hzero hne⟩

theorem Chain.exists_cons (h : Chain m head l) (hne : head ≠ 0) :
    ∃ l', l = head :: l' ∧ Chain m (load64 m head) l' := by
  cases l with
  | nil => exact absurd h hne
  | cons p l =>
      obtain ⟨rfl, -, htail⟩ := h
      exact ⟨l, rfl, htail⟩

/-- Only the words on the chain matter. -/
theorem Chain.congr (h : Chain m head l) (hm : ∀ p ∈ l, ∀ x ∈ region p 8, m' x = m x) :
    Chain m' head l := by
  induction l generalizing head with
  | nil => exact h
  | cons p l ih =>
      obtain ⟨rfl, hne, htail⟩ := h
      have hword : load64 m' head = load64 m head := load64_congr (hm head List.mem_cons_self)
      refine ⟨rfl, hne, ?_⟩
      rw [hword]
      exact ih htail fun q hq => hm q (List.mem_cons_of_mem head hq)

/-- Linking an item in front. -/
theorem Chain.push (h : Chain m head l) (hne : p ≠ 0)
    (hdisj : ∀ q ∈ l, Disjoint (region q 8) (region p 8)) :
    Chain (store64 m p head) p (p :: l) := by
  refine ⟨rfl, hne, ?_⟩
  rw [load64_store64]
  apply h.congr
  intro q hq x hx
  exact store64_of_notMem (Set.disjoint_left.mp (hdisj q hq) hx)

end FreeList

/-- A stock of distinct items, each free or handed out. -/
structure Depot (α : Type*) where
  free : Multiset α
  live : Multiset α
  stock : Multiset α
  nodup : stock.Nodup
  split : free + live = stock

namespace Depot

variable {α : Type*} (d : Depot α) {a : α}

theorem nodup_add : (d.free + d.live).Nodup :=
  d.split ▸ d.nodup

theorem mem_stock_iff : a ∈ d.stock ↔ a ∈ d.free ∨ a ∈ d.live := by
  rw [← d.split, Multiset.mem_add]

theorem notMem_live (h : a ∈ d.free) : a ∉ d.live :=
  Multiset.disjoint_left.mp (Multiset.nodup_add.mp d.nodup_add).2.2 h

/-- More items, all of them free. -/
def extend (d : Depot α) (new : Multiset α) (h : (new + d.stock).Nodup) : Depot α where
  free := new + d.free
  live := d.live
  stock := new + d.stock
  nodup := h
  split := by rw [Multiset.add_assoc, d.split]

section Extend

variable {d : Depot α} {new : Multiset α} {hnew : (new + d.stock).Nodup}

@[simp] theorem extend_free : (d.extend new hnew).free = new + d.free := rfl
@[simp] theorem extend_live : (d.extend new hnew).live = d.live := rfl
@[simp] theorem extend_stock : (d.extend new hnew).stock = new + d.stock := rfl

end Extend

variable [DecidableEq α]

/-- Handing out a free item. -/
def take (d : Depot α) (a : α) (h : a ∈ d.free) : Depot α where
  free := d.free.erase a
  live := a ::ₘ d.live
  stock := d.stock
  nodup := d.nodup
  split := by rw [Multiset.add_cons, ← Multiset.cons_add, Multiset.cons_erase h, d.split]

/-- Taking a live item back. -/
def giveBack (d : Depot α) (a : α) (h : a ∈ d.live) : Depot α where
  free := a ::ₘ d.free
  live := d.live.erase a
  stock := d.stock
  nodup := d.nodup
  split := by rw [Multiset.cons_add, ← Multiset.add_cons, Multiset.cons_erase h, d.split]

section Move

variable {d : Depot α} {a : α} {hfree : a ∈ d.free} {hlive : a ∈ d.live}

@[simp] theorem take_free : (d.take a hfree).free = d.free.erase a := rfl
@[simp] theorem take_live : (d.take a hfree).live = a ::ₘ d.live := rfl
@[simp] theorem take_stock : (d.take a hfree).stock = d.stock := rfl
@[simp] theorem giveBack_free : (d.giveBack a hlive).free = a ::ₘ d.free := rfl
@[simp] theorem giveBack_live : (d.giveBack a hlive).live = d.live.erase a := rfl
@[simp] theorem giveBack_stock : (d.giveBack a hlive).stock = d.stock := rfl

end Move

inductive Act (α : Type*)
  | extend (new : Multiset α)
  | take (a : α)
  | giveBack (a : α)

inductive Step : Depot α → Act α → Depot α → Prop
  | extend {d : Depot α} {new : Multiset α} (h : (new + d.stock).Nodup) :
      Step d (.extend new) (d.extend new h)
  | take {d : Depot α} {a : α} (h : a ∈ d.free) : Step d (.take a) (d.take a h)
  | giveBack {d : Depot α} {a : α} (h : a ∈ d.live) : Step d (.giveBack a) (d.giveBack a h)

/-- A depot that opens with all its items in. -/
def service (α : Type*) [DecidableEq α] : Transition.System (Depot α) (Act α) where
  init d := d.live = 0
  step := Step

/-- Whatever was handed out belongs to the stock, also when it came back since. -/
theorem mem_stock_of_take {tr : List (Act α)} {d : Depot α} {a : α}
    (h : (service α).Reaches tr d) (ha : .take a ∈ tr) : a ∈ d.stock := by
  have hall : ∀ b, .take b ∈ tr → b ∈ d.stock := by
    refine h.history (I := fun tr d => ∀ b, .take b ∈ tr → b ∈ d.stock) (fun _ _ => nofun) ?_
    intro tr d act d' ih hstep b hb
    rcases List.mem_append.mp hb with hold | hnew
    · have hmem := ih b hold
      cases hstep with
      | extend => exact Multiset.mem_add.mpr (.inr hmem)
      | take => exact hmem
      | giveBack => exact hmem
    · rw [List.mem_singleton] at hnew
      subst hnew
      cases hstep with
      | take hfree => exact d.mem_stock_iff.mpr (.inl hfree)
  exact hall a ha

end Depot
