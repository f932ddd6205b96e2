import Ciabatta.Lib.ByteMemory

/-!
Memories that are the same but for some addresses. What a program may have changed
is a set, and what it has kept is read off from outside of it.
-/

namespace ByteMemory

/-- Outside `A` memory `m'` is memory `m`. -/
def SameOff (A : Set Word) (m m' : Mem) : Prop :=
  ∀ x, x ∉ A → m' x = m x

variable {A B : Set Word} {m m' m'' : Mem} {a x : Word} {n : ℕ}

theorem SameOff.trans (h : SameOff A m m') (h' : SameOff A m' m'') : SameOff A m m'' := by
  intro x hx
  rw [h' x hx, h x hx]

theorem SameOff.mono (h : SameOff A m m') (hAB : A ⊆ B) : SameOff B m m' :=
  fun x hx => h x fun hA => hx (hAB hA)

theorem SameOff.apply (h : SameOff A m m') (hdisj : Disjoint (region a n) A)
    (hx : x ∈ region a n) : m' x = m x :=
  h x (Set.disjoint_left.mp hdisj hx)

theorem SameOff.load64 (h : SameOff A m m') (hdisj : Disjoint (region a 8) A) :
    load64 m' a = load64 m a :=
  load64_congr fun _ hx => h.apply hdisj hx

theorem SameOff.load32 (h : SameOff A m m') (hdisj : Disjoint (region a 4) A) :
    load32 m' a = load32 m a :=
  load32_congr fun _ hx => h.apply hdisj hx

theorem sameOff_store64 {v : Word} (h : region a 8 ⊆ A) : SameOff A m (store64 m a v) :=
  fun _ hx => store64_of_notMem fun hmem => hx (h hmem)

theorem sameOff_store32 {v : BitVec 32} (h : region a 4 ⊆ A) : SameOff A m (store32 m a v) :=
  fun _ hx => store32_of_notMem fun hmem => hx (h hmem)

theorem sameOff_copied {src : Word} (h : region a n ⊆ A) : SameOff A m (copied m a src n) :=
  fun _ hx => copied_of_notMem fun hmem => hx (h hmem)

theorem sameOff_storeAll {ws : List (Word × Word)} (h : ∀ w ∈ ws, region w.1 8 ⊆ A) :
    SameOff A m (storeAll m ws) :=
  fun _ hx => storeAll_of_notMem fun w hw hmem => hx (h w hw hmem)

end ByteMemory
