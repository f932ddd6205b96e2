import Mathlib.Data.List.Basic
import Mathlib.Logic.Function.Basic

/-!
Memory behind store buffers, as the cores of x86-64 see it. A store goes to the
end of the buffer of its core and reaches the memory later, in order with the
other stores of this core. A load takes the newest store of its place in the own
buffer, or else what the memory holds. A locked instruction works on the memory
with the own buffer drained.
-/

namespace StoreBuffer

variable {Loc : Type*} {Val : Loc → Type*} {ι : Type*}

structure Store (Val : Loc → Type*) where
  loc : Loc
  val : Val loc

structure Memory (ι : Type*) (Val : Loc → Type*) where
  main : ∀ a, Val a
  /-- Oldest store first. -/
  buffer : ι → List (Store Val)

namespace Memory

variable {m : Memory ι Val} {i j : ι} {a : Loc} {v : Val a} {e : Store Val}
  {es : List (Store Val)}

def Drained (m : Memory ι Val) (i : ι) : Prop :=
  m.buffer i = []

section Stores

variable [DecidableEq ι]

def store (m : Memory ι Val) (i : ι) (a : Loc) (v : Val a) : Memory ι Val :=
  { m with buffer := Function.update m.buffer i (m.buffer i ++ [⟨a, v⟩]) }

@[simp] theorem store_main : (m.store i a v).main = m.main := rfl

@[simp] theorem store_buffer_self : (m.store i a v).buffer i = m.buffer i ++ [⟨a, v⟩] :=
  Function.update_self ..

@[simp] theorem store_buffer_of_ne (h : j ≠ i) : (m.store i a v).buffer j = m.buffer j :=
  Function.update_of_ne h ..

end Stores

variable [DecidableEq Loc]

/-- A locked store. -/
def write (m : Memory ι Val) (a : Loc) (v : Val a) : Memory ι Val :=
  { m with main := Function.update m.main a v }

@[simp] theorem write_main : (m.write a v).main = Function.update m.main a v := rfl

@[simp] theorem write_buffer : (m.write a v).buffer = m.buffer := rfl

/-- What a memory is once the stores have reached it, in order. -/
def commit (main : ∀ a, Val a) (es : List (Store Val)) : ∀ a, Val a :=
  es.foldl (fun main e => Function.update main e.loc e.val) main

/-- The memory as core `i` loads from it. -/
def view (m : Memory ι Val) (i : ι) : ∀ a, Val a :=
  commit m.main (m.buffer i)

@[simp] theorem view_of_drained (h : m.Drained i) : m.view i = m.main := by
  rw [view, h]
  rfl

variable [DecidableEq ι]

/-- The memory after the store `e`, which leaves `es` in the buffer of its core. -/
def drain (m : Memory ι Val) (i : ι) (e : Store Val) (es : List (Store Val)) :
    Memory ι Val where
  main := Function.update m.main e.loc e.val
  buffer := Function.update m.buffer i es

@[simp] theorem drain_main : (m.drain i e es).main = Function.update m.main e.loc e.val := rfl

@[simp] theorem drain_buffer_self : (m.drain i e es).buffer i = es :=
  Function.update_self ..

@[simp] theorem drain_buffer_of_ne (h : j ≠ i) : (m.drain i e es).buffer j = m.buffer j :=
  Function.update_of_ne h ..

end Memory

end StoreBuffer
