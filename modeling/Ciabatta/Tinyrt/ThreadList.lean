import Ciabatta.CiaMem.Pool
import Ciabatta.Lib.DoublyLinked
import Ciabatta.Lib.Transition
import Ciabatta.Tinyrt.ThreadLayout
import Ciabatta.Tinyrt.Threads

/-!
The list of the thread blocks over a sequence of calls of `_rt_thread_create`.
The kernel answers each call twice, to `mmap` and to `clone`, and refuses with a
negative number. The fields of a block that a running thread changes are no
links.
-/

namespace Ciabatta.Tinyrt.ThreadList

open Transition ByteMemory LinkedList ThreadLayout

/-- What the kernel returns to the two system calls. -/
structure Answer where
  mmap : Word
  clone : Word
  deriving DecidableEq

/-- What a call returns, and what it stores in `thread->handle`. -/
structure Outcome where
  status : ℤ
  handle : Option Word
  deriving DecidableEq

structure State where
  blocks : Word → LdThreadBlock
  threadBlocksHead : Word
  /-- The stacks that `_rt_thread_create` has mapped. -/
  mapped : List Word

namespace State

def modifyBlock (st : State) (tcb : Word) (f : LdThreadBlock → LdThreadBlock) : State :=
  { st with blocks := Function.update st.blocks tcb (f (st.blocks tcb)) }

/-- A new stack, filled with zeros. -/
def map (st : State) (s stackBase : Word) : State :=
  { st with
    blocks := Function.update st.blocks (threadTcb s stackBase) .zero
    mapped := stackBase :: st.mapped }

/-- The stores of `_rt_thread_create` into the thread block and into the list. -/
def link (st : State) (tcb : Word) : State :=
  let written := st.modifyBlock tcb fun block => rtThreadCreateTcb block st.threadBlocksHead
  let linked :=
    if st.threadBlocksHead ≠ 0 then
      written.modifyBlock st.threadBlocksHead fun block => { block with nextTcb := tcb }
    else
      written
  { linked with threadBlocksHead := tcb }

end State

/-- `_rt_thread_create` -/
def rtThreadCreate (s : Word) (answer : Answer) (st : State) : Outcome × State :=
  if answer.mmap.toInt < 0 then
    (⟨CiaMem.rtErrorGeneric, none⟩, st)
  else
    let tcb := threadTcb s answer.mmap
    let linked := (st.map s answer.mmap).link tcb
    if answer.clone.toInt < 0 then
      (⟨CiaMem.rtErrorGeneric, some tcb⟩, linked)
    else
      (⟨CiaMem.rtStatusOk, some tcb⟩, linked.modifyBlock tcb fun block =>
        cloneSetTid rtThreadCreateFlags block (answer.clone.setWidth 32))

/-- What `mmap` returns lies apart from every stack that is mapped. -/
structure State.Fresh (st : State) (s stackBase : Word) : Prop where
  mapped : Mapped s stackBase
  apart : ∀ b ∈ st.mapped,
    Disjoint (region b (2 * s.toNat)) (region stackBase (2 * s.toNat))

/-- One call. -/
structure Act where
  answer : Answer
  outcome : Outcome
  deriving DecidableEq

/-- Any sequence of calls, for a `cia_stack_size` of `s`. -/
def calls (s : Word) : System State Act where
  init st := st.threadBlocksHead = 0 ∧ st.mapped = []
  step st a st' := (0 ≤ a.answer.mmap.toInt → st.Fresh s a.answer.mmap) ∧
    rtThreadCreate s a.answer st = (a.outcome, st')

def Act.Fails (a : Act) : Prop :=
  a.outcome.status ≠ CiaMem.rtStatusOk

/-- The stack is mapped, and the kernel does not make the thread. -/
def Act.FailsAtClone (a : Act) : Prop :=
  0 ≤ a.answer.mmap.toInt ∧ a.answer.clone.toInt < 0

/-- The handle of a call that returned OK. -/
def Act.created (a : Act) : Option Word :=
  if a.outcome.status = CiaMem.rtStatusOk then a.outcome.handle else none

/-- The thread blocks of the calls that returned OK, the newest first. -/
def created (tr : List Act) : List Word :=
  (tr.filterMap Act.created).reverse

def State.next (st : State) (tcb : Word) : Word :=
  (st.blocks tcb).nextTcb

def State.prev (st : State) (tcb : Word) : Word :=
  (st.blocks tcb).prevTcb

/-- `threadBlocksHead` leads to the blocks, forward and back. -/
def State.Lists (st : State) (tcbs : List Word) : Prop :=
  DoublyLinked st.next st.prev 0 st.threadBlocksHead tcbs

/-- The same stacks are mapped, and the same list is reached from the head. -/
structure Untouched (st st' : State) : Prop where
  mapped : ∀ b, b ∈ st'.mapped ↔ b ∈ st.mapped
  head : st'.threadBlocksHead = st.threadBlocksHead
  links : ∀ tcbs, Chain st.prev 0 st.threadBlocksHead tcbs →
    ∀ tcb ∈ tcbs, st'.next tcb = st.next tcb ∧ st'.prev tcb = st.prev tcb

/-- The list after a run holds what was created, and no call that failed has
left a trace. -/
structure Integrity (s : Word) (tr : List Act) (st : State) : Prop where
  lists : st.Lists (created tr)
  atomic : ∀ pre a post, tr = pre ++ a :: post → a.Fails →
    ∀ u u', (calls s).Reaches pre u → (calls s).step u a u' → Untouched u u'

variable {s stackBase tcb : Word} {st st' : State} {a : Act} {tr : List Act} {tcbs : List Word}

/-! ### One call -/

@[simp] theorem State.modifyBlock_self (f : LdThreadBlock → LdThreadBlock) :
    (st.modifyBlock tcb f).blocks tcb = f (st.blocks tcb) :=
  Function.update_self _ _ _

theorem State.modifyBlock_of_ne {p : Word} (f : LdThreadBlock → LdThreadBlock) (h : p ≠ tcb) :
    (st.modifyBlock tcb f).blocks p = st.blocks p :=
  Function.update_of_ne h _ _

theorem State.map_of_ne {p : Word} (h : p ≠ threadTcb s stackBase) :
    (st.map s stackBase).blocks p = st.blocks p :=
  Function.update_of_ne h _ _

theorem State.link_self (h : tcb ≠ st.threadBlocksHead) :
    (st.link tcb).blocks tcb = rtThreadCreateTcb (st.blocks tcb) st.threadBlocksHead := by
  unfold link
  by_cases hhead : st.threadBlocksHead ≠ 0
  · simp only [if_pos hhead]
    rw [modifyBlock_of_ne _ h, modifyBlock_self]
  · simp only [if_neg hhead]
    rw [modifyBlock_self]

theorem State.link_head (h : tcb ≠ st.threadBlocksHead) (hhead : st.threadBlocksHead ≠ 0) :
    (st.link tcb).blocks st.threadBlocksHead
      = { st.blocks st.threadBlocksHead with nextTcb := tcb } := by
  unfold link
  simp only [if_pos hhead]
  rw [modifyBlock_self, modifyBlock_of_ne _ h.symm]

theorem State.link_of_ne {p : Word} (h : p ≠ tcb) (hhead : p ≠ st.threadBlocksHead) :
    (st.link tcb).blocks p = st.blocks p := by
  unfold link
  by_cases hnull : st.threadBlocksHead ≠ 0
  · simp only [if_pos hnull]
    rw [modifyBlock_of_ne _ hhead, modifyBlock_of_ne _ h]
  · simp only [if_neg hnull]
    rw [modifyBlock_of_ne _ h]

@[simp] theorem State.modifyBlock_mapped (tcb : Word) (f : LdThreadBlock → LdThreadBlock) :
    (st.modifyBlock tcb f).mapped = st.mapped := rfl

@[simp] theorem State.map_mapped (s stackBase : Word) :
    (st.map s stackBase).mapped = stackBase :: st.mapped := rfl

@[simp] theorem State.link_mapped (tcb : Word) : (st.link tcb).mapped = st.mapped := by
  unfold link
  by_cases hhead : st.threadBlocksHead ≠ 0
  · simp only [if_pos hhead, modifyBlock_mapped]
  · simp only [if_neg hhead, modifyBlock_mapped]

theorem step_cases (h : (calls s).step st a st') :
    (a.answer.mmap.toInt < 0 ∧ a.outcome = ⟨CiaMem.rtErrorGeneric, none⟩ ∧ st' = st) ∨
    (st.Fresh s a.answer.mmap ∧ a.FailsAtClone ∧
      a.outcome = ⟨CiaMem.rtErrorGeneric, some (threadTcb s a.answer.mmap)⟩ ∧
      st' = (st.map s a.answer.mmap).link (threadTcb s a.answer.mmap)) ∨
    (st.Fresh s a.answer.mmap ∧ ¬ a.FailsAtClone ∧
      a.outcome = ⟨CiaMem.rtStatusOk, some (threadTcb s a.answer.mmap)⟩ ∧
      st' = ((st.map s a.answer.mmap).link (threadTcb s a.answer.mmap)).modifyBlock
        (threadTcb s a.answer.mmap) fun block =>
          cloneSetTid rtThreadCreateFlags block (a.answer.clone.setWidth 32)) := by
  obtain ⟨hfresh, hcall⟩ := h
  by_cases hmmap : a.answer.mmap.toInt < 0
  · rw [rtThreadCreate, if_pos hmmap, Prod.mk.injEq] at hcall
    exact .inl ⟨hmmap, hcall.1.symm, hcall.2.symm⟩
  · have hmapped : 0 ≤ a.answer.mmap.toInt := Int.not_lt.mp hmmap
    right
    by_cases hclone : a.answer.clone.toInt < 0
    · simp only [rtThreadCreate, if_neg hmmap, if_pos hclone, Prod.mk.injEq] at hcall
      exact .inl ⟨hfresh hmapped, ⟨hmapped, hclone⟩, hcall.1.symm, hcall.2.symm⟩
    · simp only [rtThreadCreate, if_neg hmmap, if_neg hclone, Prod.mk.injEq] at hcall
      exact .inr ⟨hfresh hmapped, fun hfails => hclone hfails.2, hcall.1.symm, hcall.2.symm⟩

/-! ### The list -/

theorem State.Lists.map (h : st.Lists tcbs) (hnew : threadTcb s stackBase ∉ tcbs) :
    (st.map s stackBase).Lists tcbs := by
  have hkeep (p : Word) (hp : p ∈ tcbs) : (st.map s stackBase).blocks p = st.blocks p :=
    State.map_of_ne fun heq => hnew (heq ▸ hp)
  apply h.congr
  · intro p hp
    rw [State.next, hkeep p hp, State.next]
  · intro p hp
    rw [State.prev, hkeep p hp, State.prev]

theorem State.Lists.link (h : st.Lists tcbs) (hnew : tcb ∉ tcbs) (hnull : tcb ≠ 0) :
    (st.link tcb).Lists (tcb :: tcbs) := by
  have hhead : tcb ≠ st.threadBlocksHead := by
    intro heq
    exact hnew (heq ▸ h.chain.head_mem (heq ▸ hnull))
  apply h.push hnew hnull
  · rw [State.prev, State.link_self hhead]
    rfl
  · rw [State.next, State.link_self hhead]
    rfl
  · intro hne
    rw [State.next, State.link_head hhead hne]
  · intro q hq
    have hother : q ≠ tcb := fun heq => hnew (heq ▸ hq)
    by_cases hold : q = st.threadBlocksHead
    · subst hold
      rw [State.prev, State.link_head hhead (h.chain.ne_null hq), State.prev]
    · rw [State.prev, State.link_of_ne hother hold, State.prev]
  · intro q hq hold
    have hother : q ≠ tcb := fun heq => hnew (heq ▸ hq)
    rw [State.next, State.link_of_ne hother hold, State.next]

/-- The thread id is no link. -/
theorem State.Lists.setTid (h : st.Lists tcbs) (tcb : Word) (tid : BitVec 32) :
    (st.modifyBlock tcb fun block => cloneSetTid rtThreadCreateFlags block tid).Lists tcbs := by
  have hid (block : LdThreadBlock) :
      cloneSetTid rtThreadCreateFlags block tid = { block with threadId := tid } :=
    if_pos (by decide)
  simp only [hid]
  apply h.congr
  · intro p _
    by_cases hp : p = tcb
    · subst hp
      rw [State.next, State.modifyBlock_self, State.next]
    · rw [State.next, State.modifyBlock_of_ne _ hp, State.next]
  · intro p _
    by_cases hp : p = tcb
    · subst hp
      rw [State.prev, State.modifyBlock_self, State.prev]
    · rw [State.prev, State.modifyBlock_of_ne _ hp, State.prev]

/-- Every listed block lies in a stack of its own. -/
structure Listed (s : Word) (st : State) (tcbs : List Word) : Prop where
  lists : st.Lists tcbs
  placed : ∀ tcb ∈ tcbs, ∃ b ∈ st.mapped, Mapped s b ∧ tcb = threadTcb s b

theorem threadTcb_mem_region (h : Mapped s stackBase) :
    threadTcb s stackBase ∈ region stackBase (2 * s.toNat) := by
  have hbounds := h.threadTcb_bounds
  rw [mem_region_iff h.no_wrap]
  omega

theorem Listed.threadTcb_notMem (h : Listed s st tcbs) (hfresh : st.Fresh s stackBase) :
    threadTcb s stackBase ∉ tcbs := by
  intro hmem
  obtain ⟨b, hb, hmapped, heq⟩ := h.placed _ hmem
  have hold := threadTcb_mem_region hmapped
  rw [← heq] at hold
  exact Set.disjoint_left.mp (hfresh.apart b hb) hold (threadTcb_mem_region hfresh.mapped)

theorem threadTcb_ne_zero (h : Mapped s stackBase) : threadTcb s stackBase ≠ 0 := by
  have hbounds := h.threadTcb_bounds
  have hpos := h.toNat_pos
  intro hzero
  rw [hzero, show (0 : Word).toNat = 0 from rfl] at hbounds
  omega

theorem created_snoc (tr : List Act) (a : Act) :
    created (tr ++ [a]) = a.created.toList ++ created tr := by
  rw [created, List.filterMap_append, List.reverse_append]
  cases h : a.created <;> simp [created, h]

theorem Listed.step (h : Listed s st tcbs) (hstep : (calls s).step st a st')
    (hclone : ¬ a.FailsAtClone) : Listed s st' (a.created.toList ++ tcbs) := by
  rcases step_cases hstep with ⟨-, hout, rfl⟩ | ⟨-, hfails, -⟩ | ⟨hfresh, -, hout, rfl⟩
  · have hnone : a.created = none := by
      rw [Act.created, hout]
      exact if_neg (by decide)
    rw [hnone]
    exact h
  · exact absurd hfails hclone
  · have hsome : a.created = some (threadTcb s a.answer.mmap) := by
      rw [Act.created, hout]
      exact if_pos rfl
    have hnew := h.threadTcb_notMem hfresh
    rw [hsome]
    refine ⟨((h.lists.map hnew).link hnew (threadTcb_ne_zero hfresh.mapped)).setTid _ _, ?_⟩
    simp only [State.modifyBlock_mapped, State.link_mapped, State.map_mapped]
    intro tcb hmem
    rcases List.mem_cons.mp hmem with rfl | hold
    · exact ⟨_, List.mem_cons_self, hfresh.mapped, rfl⟩
    · obtain ⟨b, hb, hplace⟩ := h.placed tcb hold
      exact ⟨b, List.mem_cons_of_mem _ hb, hplace⟩

theorem listed_of_reaches (h : (calls s).Reaches tr st) (hclone : ∀ a ∈ tr, ¬ a.FailsAtClone) :
    Listed s st (created tr) := by
  refine h.history (I := fun tr st => (∀ a ∈ tr, ¬ a.FailsAtClone) → Listed s st (created tr))
    ?_ ?_ hclone
  · rintro st ⟨hhead, -⟩ -
    refine ⟨?_, nofun⟩
    unfold State.Lists
    rw [hhead]
    exact DoublyLinked.nil
  · intro tr st a st' ih hstep hall
    rw [List.forall_mem_append, List.forall_mem_singleton] at hall
    rw [created_snoc]
    exact (ih hall.1).step hstep hall.2

/-! ### Main result -/

/-- A call that fails at `clone` keeps its stack. -/
theorem not_untouched (h : (calls s).step st a st') (hclone : a.FailsAtClone) :
    a.Fails ∧ ¬ Untouched st st' := by
  rcases step_cases h with ⟨hmmap, -⟩ | ⟨hfresh, -, hout, rfl⟩ | ⟨-, hok, -⟩
  · exact absurd hclone.1 (Int.not_le.mpr hmmap)
  · refine ⟨?_, ?_⟩
    · rw [Act.Fails, hout]
      exact show CiaMem.rtErrorGeneric ≠ CiaMem.rtStatusOk by decide
    · intro hsame
      have hold : a.answer.mmap ∈ st.mapped := by
        rw [← hsame.mapped, State.link_mapped, State.map_mapped]
        exact List.mem_cons_self
      have hmem := threadTcb_mem_region hfresh.mapped
      exact Set.disjoint_left.mp (hfresh.apart _ hold) hmem hmem
  · exact absurd hclone hok

theorem untouched_of_fails (h : (calls s).step st a st') (hfails : a.Fails)
    (hclone : ¬ a.FailsAtClone) : Untouched st st' := by
  rcases step_cases h with ⟨-, -, rfl⟩ | ⟨-, hbad, -⟩ | ⟨-, -, hout, -⟩
  · exact ⟨fun _ => Iff.rfl, rfl, fun _ _ _ _ => ⟨rfl, rfl⟩⟩
  · exact absurd hbad hclone
  · rw [Act.Fails, hout] at hfails
    exact absurd rfl hfails

/-- The list holds together in exactly the runs without a failed `clone`. -/
theorem integrity_iff (h : (calls s).Reaches tr st) :
    Integrity s tr st ↔ ∀ a ∈ tr, ¬ a.FailsAtClone := by
  constructor
  · intro hintegrity a hmem hclone
    obtain ⟨pre, post, rfl⟩ := List.append_of_mem hmem
    obtain ⟨u, u', hreach, hstep, -⟩ := h.exists_of_append
    obtain ⟨hfails, htouched⟩ := not_untouched hstep hclone
    exact htouched (hintegrity.atomic pre a post rfl hfails u u' hreach hstep)
  · intro hclone
    refine ⟨(listed_of_reaches h hclone).lists, ?_⟩
    rintro pre a post rfl hfails u u' - hstep
    exact untouched_of_fails hstep hfails (hclone a (by simp))

/-- A thread is made, then there is no memory for another one. -/
def answeredRun : List Act :=
  [⟨⟨0x7f0000000000, 7⟩, ⟨CiaMem.rtStatusOk, some 0x7f0000100000⟩⟩,
    ⟨⟨-12, 0⟩, ⟨CiaMem.rtErrorGeneric, none⟩⟩]

theorem mapped_0x7f0000000000 : Mapped 0x100000 0x7f0000000000 :=
  ⟨⟨20, rfl⟩, by decide, by decide, by decide⟩

theorem integrity_iff_answeredRun :
    ∃ st, (calls 0x100000).Reaches answeredRun st ∧ st.threadBlocksHead = 0x7f0000100000 ∧
      (Integrity 0x100000 answeredRun st ↔ ∀ a ∈ answeredRun, ¬ a.FailsAtClone) := by
  have hrun : ∃ st, (calls 0x100000).Reaches answeredRun st ∧
      st.threadBlocksHead = 0x7f0000100000 := by
    refine System.exists_reaches (s := ⟨fun _ => .zero, 0, []⟩) ⟨rfl, rfl⟩ ?_
    refine System.exists_run_cons ⟨fun _ => ⟨mapped_0x7f0000000000, nofun⟩, rfl⟩ ?_
    exact System.exists_run_cons ⟨fun hneg => absurd hneg (by decide), rfl⟩
      (System.exists_run_nil rfl)
  obtain ⟨st, hst, hhead⟩ := hrun
  exact ⟨st, hst, hhead, integrity_iff hst⟩

/-- The kernel makes no thread for the one call: its block is in the list. -/
theorem integrity_fails : ¬ ∀ s tr st, (calls s).Reaches tr st → Integrity s tr st := by
  intro h
  have hreach : (calls 0x100000).Reaches
      [⟨⟨0x7f0000000000, -11⟩, ⟨CiaMem.rtErrorGeneric, some 0x7f0000100000⟩⟩] _ :=
    ⟨⟨fun _ => .zero, 0, []⟩, ⟨rfl, rfl⟩,
      .single ⟨fun _ => ⟨mapped_0x7f0000000000, nofun⟩, rfl⟩⟩
  have hhead : threadTcb 0x100000 0x7f0000000000 = 0 := (h _ _ _ hreach).lists.chain
  exact absurd hhead (by decide)

end Ciabatta.Tinyrt.ThreadList
