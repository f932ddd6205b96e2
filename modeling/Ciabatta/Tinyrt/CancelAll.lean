import Ciabatta.Tinyrt.Termination
import Mathlib.Data.List.Nodup

/-!
The threads that `_rt_thread_cancell_all_running` reaches. A new thread block is the head of
the list, and its `next_tcb` is null: the older ones are behind its `prev_tcb`, and the walk
follows the other link.
-/

namespace Ciabatta.Tinyrt.Termination

open Transition ByteMemory

/-- The thread that the step creates. -/
def Act.created : Act → Option Word
  | .create _ child => some child
  | _ => none

/-- The threads created by a run, the newest last. -/
def created (tr : List Act) : List Word :=
  tr.filterMap Act.created

/-- No thread is cancelled by the step, and no call of `_rt_thread_create` fails. -/
def Act.Creates : Act → Prop
  | .cloneFails _ => False
  | .terminate _ _ => False
  | .leaveMain => False
  | .cancelNext => False
  | _ => True

def State.Cancelled (s : State) (tcb : Word) : Prop :=
  ∃ block, s.blocks tcb = some block ∧ block.isCancelled = 1

/-- `_rt_thread_cancell_all_running` leads from `s` to `t`. -/
def CancellsAllRunning (main : Word) (s t : State) : Prop :=
  ∃ n, (threads main).Run s (.leaveMain :: List.replicate n .cancelNext) t ∧
    t.pc main = .cancelling 0

/-- The thread blocks, the newest last. None is cancelled, and no link leads on from the
head. -/
structure Linked (s : State) (tcbs : List Word) : Prop where
  head : s.threadBlocksHead = tcbs.getLastD 0
  nodup : tcbs.Nodup
  ne_zero : 0 ∉ tcbs
  block : ∀ tcb ∈ tcbs, ∃ block, s.blocks tcb = some block ∧ block.isCancelled = 0 ∧
    (tcb = s.threadBlocksHead → block.nextTcb = 0)

variable {main tcb child : Word} {s t : State} {a : Act} {tr : List Act} {tcbs : List Word}
  {block : LdThreadBlock}

/-! ### The links -/

theorem State.setPc_blocks (s : State) (thread : Word) (pc : Pc) :
    (s.setPc thread pc).blocks = s.blocks := rfl

theorem State.modifyBlock_self (f : LdThreadBlock → LdThreadBlock)
    (h : s.blocks tcb = some block) : (s.modifyBlock tcb f).blocks tcb = some (f block) := by
  simp [State.modifyBlock, h]

theorem State.modifyBlock_of_ne (f : LdThreadBlock → LdThreadBlock) (h : tcb ≠ child) :
    (s.modifyBlock child f).blocks tcb = s.blocks tcb :=
  Function.update_of_ne h _ _

theorem State.addBlock_self (s : State) (tcb : Word) :
    (s.addBlock tcb).blocks tcb = some (rtThreadCreateTcb .zero s.threadBlocksHead) :=
  Function.update_self _ _ _

/-- An older block keeps its flag. -/
theorem State.addBlock_of_ne (hne : tcb ≠ child) (h : s.blocks tcb = some block) :
    ∃ block', (s.addBlock child).blocks tcb = some block' ∧
      block'.isCancelled = block.isCancelled := by
  have hunlinked : (s.addBlock child).blocks tcb =
      (if s.threadBlocksHead ≠ 0 then
        s.modifyBlock s.threadBlocksHead fun block => { block with nextTcb := child }
      else s).blocks tcb := Function.update_of_ne hne _ _
  rw [hunlinked]
  by_cases hnull : s.threadBlocksHead = 0
  · rw [if_neg (not_not.mpr hnull)]
    exact ⟨block, h, rfl⟩
  · rw [if_pos hnull]
    by_cases hhead : tcb = s.threadBlocksHead
    · subst hhead
      exact ⟨_, State.modifyBlock_self _ h, rfl⟩
    · exact ⟨block, (State.modifyBlock_of_ne _ hhead).trans h, rfl⟩

theorem Linked.of_eq (h : Linked s tcbs) (hblocks : t.blocks = s.blocks)
    (hhead : t.threadBlocksHead = s.threadBlocksHead) : Linked t tcbs where
  head := hhead.trans h.head
  nodup := h.nodup
  ne_zero := h.ne_zero
  block := by
    rw [hblocks, hhead]
    exact h.block

theorem linked_initial (main : Word) : Linked (.initial main) [] where
  head := rfl
  nodup := List.nodup_nil
  ne_zero := List.not_mem_nil
  block := nofun

/-- The new block is the head, and nothing comes after it. -/
theorem Linked.addBlock (h : Linked s tcbs) (hnew : s.blocks child = none) (hnull : child ≠ 0) :
    Linked (s.addBlock child) (tcbs ++ [child]) where
  head := by
    rw [List.getLastD_concat]
    rfl
  nodup := by
    have hfresh : child ∉ tcbs := by
      intro hmem
      obtain ⟨block, hblock, -⟩ := h.block child hmem
      rw [hnew] at hblock
      cases hblock
    rw [← List.concat_eq_append]
    exact h.nodup.concat hfresh
  ne_zero := by
    rw [List.mem_append, List.mem_singleton]
    rintro (hmem | heq)
    · exact h.ne_zero hmem
    · exact hnull heq.symm
  block := by
    intro tcb hmem
    by_cases hne : tcb = child
    · subst hne
      exact ⟨_, s.addBlock_self tcb, rfl, fun _ => rfl⟩
    · have hold : tcb ∈ tcbs := by simpa [hne] using hmem
      obtain ⟨block, hblock, hflag, -⟩ := h.block tcb hold
      obtain ⟨block', hblock', hflag'⟩ := State.addBlock_of_ne hne hblock
      exact ⟨block', hblock', hflag'.trans hflag, fun hhead => absurd hhead hne⟩

/-- The thread id is neither a flag nor a link. -/
theorem Linked.setTid (h : Linked s tcbs) (child : Word) (tid : BitVec 32) :
    Linked (s.modifyBlock child fun block => cloneSetTid rtThreadCreateFlags block tid) tcbs where
  head := h.head
  nodup := h.nodup
  ne_zero := h.ne_zero
  block := by
    intro tcb hmem
    obtain ⟨block, hblock, hflag, hnext⟩ := h.block tcb hmem
    by_cases hne : tcb = child
    · subst hne
      refine ⟨_, State.modifyBlock_self _ hblock, ?_, ?_⟩
      · rw [cloneSetTid, if_pos (by decide)]
        exact hflag
      · rw [cloneSetTid, if_pos (by decide)]
        exact hnext
    · exact ⟨block, (State.modifyBlock_of_ne _ hne).trans hblock, hflag, hnext⟩

theorem Linked.step (h : Linked s tcbs) (ha : a.Creates) (hstep : Step main s a t) :
    Linked t (tcbs ++ a.created.toList) := by
  cases hstep with
  | create _ _ hnew hnull => exact (h.addBlock hnew hnull).of_eq rfl rfl
  | clone =>
      change Linked _ (tcbs ++ [])
      rw [List.append_nil]
      exact (h.setTid _ _).of_eq rfl rfl
  | work | tkill | handler | finish | final | finalStart =>
      change Linked _ (tcbs ++ [])
      rw [List.append_nil]
      exact h.of_eq rfl rfl
  | cloneFails | terminate | leaveMain | cancelNext => exact ha.elim

theorem created_snoc (tr : List Act) (a : Act) :
    created (tr ++ [a]) = created tr ++ a.created.toList := by
  rw [created, List.filterMap_append]
  cases h : a.created <;> simp [created, h]

theorem linked_of_reaches (h : (threads main).Reaches tr s) (hcreates : ∀ a ∈ tr, a.Creates) :
    Linked s (created tr) := by
  refine h.history (I := fun tr s => (∀ a ∈ tr, a.Creates) → Linked s (created tr)) ?_ ?_ hcreates
  · rintro s rfl -
    exact linked_initial main
  · intro tr s a t ih hstep hall
    rw [List.forall_mem_append, List.forall_mem_singleton] at hall
    rw [created_snoc]
    exact (ih hall.1).step hall.2 hstep

/-! ### The walk -/

def State.cancelHead (s : State) (main : Word) : State :=
  if s.threadBlocksHead = 0 then
    s.setPc main (.cancelling 0)
  else
    ((s.setPc main (.cancelling s.threadBlocksHead)).modifyBlock s.threadBlocksHead
      fun block => { block with isCancelled := 1 }).setPc main (.cancelling 0)

theorem Linked.head_mem (h : Linked s tcbs) (hne : tcbs ≠ []) : s.threadBlocksHead ∈ tcbs := by
  obtain ⟨tcb, rest, rfl⟩ := List.exists_cons_of_ne_nil hne
  rw [h.head, List.getLastD_cons]
  exact List.getLastD_mem_cons

theorem Linked.head_eq_zero_iff (h : Linked s tcbs) : s.threadBlocksHead = 0 ↔ tcbs = [] := by
  constructor
  · intro hnull
    by_contra hne
    exact h.ne_zero (hnull ▸ h.head_mem hne)
  · rintro rfl
    exact h.head

theorem Step.leaveMain_eq (h : Step main s .leaveMain t) :
    main ∈ s.live ∧ t = s.setPc main (.cancelling s.threadBlocksHead) := by
  cases h with
  | leaveMain hlive => exact ⟨hlive, rfl⟩

/-- The walk is over at null. -/
theorem Step.cancelNext_eq (h : Step main s .cancelNext t) (hpc : s.pc main = .cancelling tcb) :
    tcb ≠ 0 ∧ ∃ block, s.blocks tcb = some block ∧
      t = (s.modifyBlock tcb fun block => { block with isCancelled := 1 }).setPc main
        (.cancelling block.nextTcb) := by
  cases h with
  | cancelNext _ hpc' hblock hcur =>
      rw [hpc] at hpc'
      cases hpc'
      exact ⟨hcur, _, hblock, rfl⟩

@[simp] theorem State.setPc_pc (s : State) (thread : Word) (pc : Pc) :
    (s.setPc thread pc).pc thread = pc :=
  Function.update_self _ _ _

/-- A walk that stands at null takes no further step. -/
theorem eq_of_run_cancelNext {n : ℕ} (h : (threads main).Run s (List.replicate n .cancelNext) t)
    (hpc : s.pc main = .cancelling 0) : t = s := by
  cases n with
  | zero => exact h.eq_of_nil.symm
  | succ n =>
      rw [List.replicate_succ] at h
      obtain ⟨u, hstep, -⟩ := h.exists_of_cons
      exact absurd rfl (Step.cancelNext_eq hstep hpc).1

theorem step_leaveMain (hlive : main ∈ s.live) (hpc : s.pc main = .running) :
    (threads main).step s .leaveMain (s.setPc main (.cancelling s.threadBlocksHead)) :=
  .leaveMain hlive hpc

/-- Of no thread blocks. -/
theorem cancellsAllRunning_iff_of_null (hlive : main ∈ s.live) (hpc : s.pc main = .running)
    (hnull : s.threadBlocksHead = 0) :
    CancellsAllRunning main s t ↔ t = s.setPc main (.cancelling 0) := by
  have hstart := step_leaveMain hlive hpc
  rw [hnull] at hstart
  constructor
  · rintro ⟨n, hrun, -⟩
    obtain ⟨u, hstep, hwalk⟩ := hrun.exists_of_cons
    obtain ⟨-, rfl⟩ := Step.leaveMain_eq hstep
    rw [hnull] at hwalk
    exact eq_of_run_cancelNext hwalk (s.setPc_pc main _)
  · rintro rfl
    exact ⟨0, .single hstart, s.setPc_pc main _⟩

/-- From a head that no link leads on from. -/
theorem cancellsAllRunning_iff_of_last (hlive : main ∈ s.live) (hpc : s.pc main = .running)
    (hnull : s.threadBlocksHead ≠ 0) (hblock : s.blocks s.threadBlocksHead = some block)
    (hnext : block.nextTcb = 0) :
    CancellsAllRunning main s t ↔
      t = ((s.setPc main (.cancelling s.threadBlocksHead)).modifyBlock s.threadBlocksHead
        fun block => { block with isCancelled := 1 }).setPc main (.cancelling 0) := by
  have hstart := step_leaveMain hlive hpc
  have hcancel : (threads main).step (s.setPc main (.cancelling s.threadBlocksHead)) .cancelNext
      _ := .cancelNext hlive (s.setPc_pc main _) hblock hnull
  rw [hnext] at hcancel
  constructor
  · rintro ⟨n, hrun, hend⟩
    obtain ⟨u, hstep, hwalk⟩ := hrun.exists_of_cons
    obtain ⟨-, rfl⟩ := Step.leaveMain_eq hstep
    cases n with
    | zero =>
        obtain rfl := hwalk.eq_of_nil
        rw [State.setPc_pc, Pc.cancelling.injEq] at hend
        exact absurd hend hnull
    | succ n =>
        rw [List.replicate_succ] at hwalk
        obtain ⟨v, hcancel', hrest⟩ := hwalk.exists_of_cons
        obtain ⟨-, block', hblock', rfl⟩ := Step.cancelNext_eq hcancel' (s.setPc_pc main _)
        rw [State.setPc_blocks, hblock] at hblock'
        cases hblock'
        rw [hnext] at hrest
        exact eq_of_run_cancelNext hrest (State.setPc_pc _ main _)
  · rintro rfl
    exact ⟨1, .cons hstart (.single hcancel), State.setPc_pc _ main _⟩

/-- The walk ends, and has been at the head only. -/
theorem Linked.cancellsAllRunning_iff (h : Linked s tcbs) (hlive : main ∈ s.live)
    (hpc : s.pc main = .running) : CancellsAllRunning main s t ↔ t = s.cancelHead main := by
  by_cases hnull : s.threadBlocksHead = 0
  · rw [State.cancelHead, if_pos hnull]
    exact cancellsAllRunning_iff_of_null hlive hpc hnull
  · obtain ⟨block, hblock, -, hlast⟩ := h.block _ (h.head_mem (mt h.head_eq_zero_iff.mpr hnull))
    rw [State.cancelHead, if_neg hnull]
    exact cancellsAllRunning_iff_of_last hlive hpc hnull hblock (hlast rfl)

theorem Linked.cancelled_cancelHead (h : Linked s tcbs) (hmem : tcb ∈ tcbs) :
    (s.cancelHead main).Cancelled tcb ↔ tcb = s.threadBlocksHead := by
  obtain ⟨block, hblock, hflag, -⟩ := h.block tcb hmem
  have hnull : s.threadBlocksHead ≠ 0 :=
    mt h.head_eq_zero_iff.mp (List.ne_nil_of_mem hmem)
  rw [State.cancelHead, if_neg hnull, State.Cancelled, State.setPc_blocks]
  by_cases hhead : tcb = s.threadBlocksHead
  · rw [hhead] at hblock ⊢
    exact iff_of_true ⟨_, State.modifyBlock_self _ hblock, rfl⟩ rfl
  · rw [State.modifyBlock_of_ne _ hhead, State.setPc_blocks, hblock]
    refine iff_of_false ?_ hhead
    rintro ⟨block', hsome, hset⟩
    cases hsome
    rw [hflag] at hset
    exact absurd hset (by decide)

/-! ### Main result -/

/-- The walk reaches every created thread if and only if there is at most one. -/
theorem cancelled_iff (h : (threads main).Reaches tr s) (hcreates : ∀ a ∈ tr, a.Creates)
    (hlive : main ∈ s.live) (hpc : s.pc main = .running) :
    (∃ t, CancellsAllRunning main s t) ∧ ∀ t, CancellsAllRunning main s t →
      ((∀ tcb ∈ created tr, t.Cancelled tcb) ↔ (created tr).length ≤ 1) := by
  have hlinked := linked_of_reaches h hcreates
  simp only [hlinked.cancellsAllRunning_iff hlive hpc]
  refine ⟨⟨_, rfl⟩, ?_⟩
  rintro t rfl
  constructor
  · intro hall
    have hreplicate := List.eq_replicate_of_mem fun tcb hmem =>
      (hlinked.cancelled_cancelHead hmem).mp (hall tcb hmem)
    have hnodup := hlinked.nodup
    rw [hreplicate, List.nodup_replicate] at hnodup
    exact hnodup
  · intro hle tcb hmem
    have hlength := le_antisymm hle (List.length_pos_of_mem hmem)
    obtain ⟨newest, hcreated⟩ := List.length_eq_one_iff.mp hlength
    rw [hlinked.cancelled_cancelHead hmem, hlinked.head, hcreated]
    rw [hcreated] at hmem
    exact List.mem_singleton.mp hmem

def oneThread : List Act :=
  [.create 4096 8192, .clone 4096 8192 7]

def twoThreads : List Act :=
  oneThread ++ [.create 4096 12288, .clone 4096 12288 8]

theorem oneThread_reaches : ∃ s, (threads 4096).Reaches oneThread s ∧
    4096 ∈ s.live ∧ s.pc 4096 = .running := by
  refine System.exists_reaches rfl ?_
  refine System.exists_run_cons (.create (by decide) rfl rfl (by decide)) ?_
  refine System.exists_run_cons (.clone (by decide) rfl) ?_
  exact System.exists_run_nil ⟨by decide, rfl⟩

theorem twoThreads_reaches : ∃ s, (threads 4096).Reaches twoThreads s ∧
    4096 ∈ s.live ∧ s.pc 4096 = .running := by
  refine System.exists_reaches rfl ?_
  refine System.exists_run_cons (.create (by decide) rfl rfl (by decide)) ?_
  refine System.exists_run_cons (.clone (by decide) rfl) ?_
  refine System.exists_run_cons (.create (by decide) rfl rfl (by decide)) ?_
  refine System.exists_run_cons (.clone (by decide) rfl) ?_
  exact System.exists_run_nil ⟨by decide, rfl⟩

theorem cancelled_iff_oneThread : ∃ s, (threads 4096).Reaches oneThread s ∧
    (∃ t, CancellsAllRunning 4096 s t) ∧ ∀ t, CancellsAllRunning 4096 s t →
      ((∀ tcb ∈ created oneThread, t.Cancelled tcb) ↔ (created oneThread).length ≤ 1) := by
  obtain ⟨s, hreaches, hlive, hpc⟩ := oneThread_reaches
  have hcreates : ∀ a ∈ oneThread, a.Creates := by simp [oneThread, Act.Creates]
  exact ⟨s, hreaches, cancelled_iff hreaches hcreates hlive hpc⟩

/-- With two threads the older one is not reached. -/
theorem cancelled_fails : ∃ tr s t, (threads 4096).Reaches tr s ∧ (∀ a ∈ tr, a.Creates) ∧
    CancellsAllRunning 4096 s t ∧ ∃ tcb ∈ created tr, ¬ t.Cancelled tcb := by
  obtain ⟨s, hreaches, hlive, hpc⟩ := twoThreads_reaches
  have hcreates : ∀ a ∈ twoThreads, a.Creates := by simp [twoThreads, oneThread, Act.Creates]
  have hlinked := linked_of_reaches hreaches hcreates
  have holder : 8192 ∈ created twoThreads := List.mem_cons_self
  refine ⟨_, s, _, hreaches, hcreates, (hlinked.cancellsAllRunning_iff hlive hpc).mpr rfl, _,
    holder, ?_⟩
  rw [hlinked.cancelled_cancelHead holder, hlinked.head]
  decide

end Ciabatta.Tinyrt.Termination
