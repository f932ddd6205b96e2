import Ciabatta.CiaMem.Arena
import Ciabatta.Lib.Layout
import Ciabatta.Lib.Transition
import Ciabatta.Tinyrt.Threads

/-!
Thread-local variables. The loader and `_rt_thread_create` both copy the TLS
image to the bytes below a thread block, and an access goes to the bytes below
the FS base of the thread that makes it. A thread is named by the address of its
thread block. An access of several bytes is several steps, and a byte is named
by its distance below the FS base. The fields of the thread block lie above it
and are left out.
-/

namespace Ciabatta.Tinyrt.ThreadLocal

open Transition ByteMemory Layout CiaMem

/-- `cia_stack_size`: half of the stack that the loader maps. -/
def ciaStackSize : Word := 0x100000

/-- The length of the loader's stack, and of each mapping of
`_rt_thread_create`. -/
def mappingSize : ℕ := 0x200000

/-- A program as `ld_stage3_entry` finds it: its TLS image, and the new stack. -/
structure Loaded where
  imageBase : Word
  imageSize : ℕ
  stackBase : Word
  image_fits : imageSize ≤ ciaStackSize.toNat
  stack_user : stackBase.toNat < 2 ^ 63
  image_apart : Disjoint (region imageBase imageSize) (region stackBase mappingSize)

def ldStage3Tcb (stackBase : Word) (tlsSize : ℕ) : Word :=
  ciaPtrAlignf (stackBase + BitVec.ofNat 64 tlsSize) ciaStackSize

def Loaded.mainTcb (l : Loaded) : Word :=
  ldStage3Tcb l.stackBase l.imageSize

def rtThreadTcb (stackBase : Word) : Word :=
  (stackBase + 2 * ciaStackSize - 1) &&& ~~~(ciaStackSize - 1)

/-- The loop that copies `n` bytes of the TLS image, lowest first. -/
def copyImage (m : Mem) (tlsBase imageBase : Word) : ℕ → Mem
  | 0 => m
  | n + 1 =>
      let copied := copyImage m tlsBase imageBase n
      Function.update copied (tlsBase + BitVec.ofNat 64 n) (copied (imageBase + BitVec.ofNat 64 n))

/-- The image copied below the thread block at `tcb`. -/
def Loaded.placeImage (l : Loaded) (m : Mem) (tcb : Word) : Mem :=
  copyImage m (tcb - BitVec.ofNat 64 l.imageSize) l.imageBase l.imageSize

def cloneSettls : Word := 0x00080000

/-- The kernel's side of `clone`: the FS base of the child. -/
def cloneFsBase (flags tls fsBase : Word) : Word :=
  if flags &&& cloneSettls ≠ 0 then tls else fsBase

/-- The `tls` argument that `_rt_thread_create` passes on. -/
def rtThreadCreateTls : Word := 0

structure State where
  mem : Mem
  /-- The mappings of `_rt_thread_create`. -/
  mapped : List Word
  fsBase : Word → Option Word
  /-- The thread block of the child, in a thread before the clone. -/
  cloning : Word → Option Word

inductive Act
  /-- `_rt_thread_create` up to the clone. It stores in its new mapping alone. -/
  | prepare (thread stackBase : Word)
  | clone (thread child : Word)
  | cloneFails (thread : Word)
  | read (thread : Word) (offset : ℕ) (value : Byte)
  | write (thread : Word) (offset : ℕ) (value : Byte)
  deriving DecidableEq

def Act.thread : Act → Word
  | .prepare thread _ => thread
  | .clone thread _ => thread
  | .cloneFails thread => thread
  | .read thread _ _ => thread
  | .write thread _ _ => thread

def State.Running (s : State) (thread fs : Word) : Prop :=
  s.fsBase thread = some fs ∧ s.cloning thread = none

def Loaded.Within (l : Loaded) (offset : ℕ) : Prop :=
  0 < offset ∧ offset ≤ l.imageSize

/-- What `mmap` returns lies apart from everything mapped before. -/
structure Loaded.Fresh (l : Loaded) (s : State) (stackBase : Word) : Prop where
  user : stackBase.toNat < 2 ^ 63
  image : Disjoint (region l.imageBase l.imageSize) (region stackBase mappingSize)
  main : Disjoint (region l.stackBase mappingSize) (region stackBase mappingSize)
  mapped : ∀ b ∈ s.mapped, Disjoint (region b mappingSize) (region stackBase mappingSize)

inductive Step (l : Loaded) : State → Act → State → Prop
  | prepare {s : State} {thread fs stackBase : Word} (hrun : s.Running thread fs)
      (hfresh : l.Fresh s stackBase) :
      Step l s (.prepare thread stackBase)
        { s with
          mem := l.placeImage s.mem (rtThreadTcb stackBase)
          mapped := stackBase :: s.mapped
          cloning := Function.update s.cloning thread (some (rtThreadTcb stackBase)) }
  | clone {s : State} {thread child fs : Word} (hfs : s.fsBase thread = some fs)
      (hcloning : s.cloning thread = some child) :
      Step l s (.clone thread child)
        { s with
          fsBase := Function.update s.fsBase child
            (some (cloneFsBase rtThreadCreateFlags rtThreadCreateTls fs))
          cloning := Function.update s.cloning thread none }
  | cloneFails {s : State} {thread child : Word} (hcloning : s.cloning thread = some child) :
      Step l s (.cloneFails thread) { s with cloning := Function.update s.cloning thread none }
  | read {s : State} {thread fs : Word} {offset : ℕ} (hrun : s.Running thread fs)
      (hoffset : l.Within offset) :
      Step l s (.read thread offset (s.mem (fs - BitVec.ofNat 64 offset))) s
  | write {s : State} {thread fs : Word} {offset : ℕ} {value : Byte} (hrun : s.Running thread fs)
      (hoffset : l.Within offset) :
      Step l s (.write thread offset value)
        { s with mem := Function.update s.mem (fs - BitVec.ofNat 64 offset) value }

/-- The bytes of the image, by their distance below its end. -/
def Loaded.imageByte (l : Loaded) (m : Mem) (offset : ℕ) : Byte :=
  m (l.imageBase + BitVec.ofNat 64 (l.imageSize - offset))

/-- The program from the end of `ld_stage3_entry` on, in a memory that was `m`
before. -/
def threads (l : Loaded) (m : Mem) : System State Act where
  init s := s =
    { mem := l.placeImage m l.mainTcb
      mapped := []
      fsBase := Function.update (fun _ => none) l.mainTcb (some l.mainTcb)
      cloning := fun _ => none }
  step := Step l

variable {l : Loaded} {m : Mem} {s t : State} {a : Act} {tr : List Act} {offset n : ℕ}
  {thread stackBase tcb fs : Word} {value : Byte}

/-! ### Where the blocks lie -/

theorem below_eq_add {k : ℕ} (hn : n ≤ k) :
    tcb - BitVec.ofNat 64 n = tcb - BitVec.ofNat 64 k + BitVec.ofNat 64 (k - n) := by
  apply BitVec.eq_of_toNat_eq
  rw [BitVec.toNat_add, BitVec.toNat_sub, BitVec.toNat_sub]
  simp only [BitVec.toNat_ofNat]
  omega

theorem below_mem_region {k : ℕ} (hpos : 0 < n) (hn : n ≤ k) (hk : k < 2 ^ 64) :
    tcb - BitVec.ofNat 64 n ∈ region (tcb - BitVec.ofNat 64 k) k := by
  rw [mem_region, below_eq_add hn, add_sub_cancel_left, BitVec.toNat_ofNat]
  omega

theorem below_injective {k : ℕ} (hn : n < 2 ^ 64) (hk : k < 2 ^ 64)
    (h : tcb - BitVec.ofNat 64 n = tcb - BitVec.ofNat 64 k) : n = k := by
  have hnat := congrArg BitVec.toNat h
  rw [BitVec.toNat_sub, BitVec.toNat_sub] at hnat
  simp only [BitVec.toNat_ofNat] at hnat
  omega

theorem region_below_subset (huser : stackBase.toNat < 2 ^ 63)
    (hlow : stackBase.toNat + n ≤ tcb.toNat) (hhigh : tcb.toNat ≤ stackBase.toNat + mappingSize) :
    region (tcb - BitVec.ofNat 64 n) n ⊆ region stackBase mappingSize := by
  intro x hx
  rw [mem_region, BitVec.toNat_sub, BitVec.toNat_sub, BitVec.toNat_ofNat] at hx
  rw [mem_region, BitVec.toNat_sub]
  have hlt := x.isLt
  unfold mappingSize at *
  omega

theorem toNat_ciaStackSize : ciaStackSize.toNat = 2 ^ 20 :=
  rfl

theorem ldStage3Tcb_bounds (huser : stackBase.toNat < 2 ^ 63) (hn : n ≤ ciaStackSize.toNat) :
    stackBase.toNat + n ≤ (ldStage3Tcb stackBase n).toNat ∧
      (ldStage3Tcb stackBase n).toNat ≤ stackBase.toNat + mappingSize := by
  rw [toNat_ciaStackSize] at hn
  have hsum : (stackBase + BitVec.ofNat 64 n).toNat = stackBase.toNat + n := by
    rw [BitVec.toNat_add, BitVec.toNat_ofNat]
    omega
  have hle := le_alignUp (n := stackBase.toNat + n) (a := 2 ^ 20) (by decide)
  have hround := Nat.div_mul_le_self (stackBase.toNat + n + 2 ^ 20 - 1) (2 ^ 20)
  rw [ldStage3Tcb, ciaPtrAlignf, toNat_alignUp toNat_ciaStackSize, hsum, toNat_ciaStackSize]
  · unfold mappingSize
    unfold alignUp at *
    omega
  · rw [hsum, toNat_ciaStackSize]
    omega

theorem rtThreadTcb_bounds (huser : stackBase.toNat < 2 ^ 63) (hn : n ≤ ciaStackSize.toNat) :
    stackBase.toNat + n ≤ (rtThreadTcb stackBase).toNat ∧
      (rtThreadTcb stackBase).toNat ≤ stackBase.toNat + mappingSize := by
  rw [toNat_ciaStackSize] at hn
  have hend : (stackBase + 2 * ciaStackSize - 1).toNat = stackBase.toNat + 2 ^ 21 - 1 := by
    rw [BitVec.toNat_sub, BitVec.toNat_add]
    simp only [ciaStackSize, BitVec.reduceMul, BitVec.reduceToNat]
    omega
  rw [rtThreadTcb, toNat_and_not_pred toNat_ciaStackSize, hend, toNat_ciaStackSize]
  unfold mappingSize
  omega

theorem Loaded.imageSize_lt (l : Loaded) : l.imageSize < 2 ^ 64 :=
  lt_of_le_of_lt l.image_fits (by decide)

theorem Loaded.mainBlock_subset (l : Loaded) :
    region (l.mainTcb - BitVec.ofNat 64 l.imageSize) l.imageSize
      ⊆ region l.stackBase mappingSize :=
  region_below_subset l.stack_user (ldStage3Tcb_bounds l.stack_user l.image_fits).1
    (ldStage3Tcb_bounds l.stack_user l.image_fits).2

theorem Loaded.block_subset (l : Loaded) (huser : stackBase.toNat < 2 ^ 63) :
    region (rtThreadTcb stackBase - BitVec.ofNat 64 l.imageSize) l.imageSize
      ⊆ region stackBase mappingSize :=
  region_below_subset huser (rtThreadTcb_bounds huser l.image_fits).1
    (rtThreadTcb_bounds huser l.image_fits).2

/-! ### The copy of the image -/

theorem copyImage_of_notMem {x tlsBase imageBase : Word} {k : ℕ} (hn : n ≤ k) (hk : k < 2 ^ 64)
    (hx : x ∉ region tlsBase k) : copyImage m tlsBase imageBase n x = m x := by
  induction n with
  | zero => rfl
  | succ n ih =>
      have hne : x ≠ tlsBase + BitVec.ofNat 64 n := by
        rintro rfl
        apply hx
        rw [mem_region, add_sub_cancel_left, BitVec.toNat_ofNat]
        omega
      rw [copyImage, Function.update_of_ne hne]
      exact ih (Nat.le_of_succ_le hn)

theorem copyImage_apply {tlsBase imageBase : Word} {i k : ℕ} (hi : i < n) (hn : n ≤ k)
    (hk : k < 2 ^ 64) (hdisj : Disjoint (region imageBase k) (region tlsBase k)) :
    copyImage m tlsBase imageBase n (tlsBase + BitVec.ofNat 64 i)
      = m (imageBase + BitVec.ofNat 64 i) := by
  induction n with
  | zero => exact absurd hi (Nat.not_lt_zero i)
  | succ n ih =>
      rw [copyImage]
      by_cases hlast : i = n
      · subst hlast
        rw [Function.update_self]
        apply copyImage_of_notMem (Nat.le_of_succ_le hn) hk
        apply Set.disjoint_left.mp hdisj
        rw [mem_region, add_sub_cancel_left, BitVec.toNat_ofNat]
        omega
      · rw [Function.update_of_ne]
        · exact ih (by omega) (Nat.le_of_succ_le hn)
        · intro heq
          have hnat := congrArg BitVec.toNat (add_left_cancel heq)
          simp only [BitVec.toNat_ofNat] at hnat
          omega

theorem placeImage_of_notMem {x : Word}
    (hx : x ∉ region (tcb - BitVec.ofNat 64 l.imageSize) l.imageSize) :
    l.placeImage m tcb x = m x :=
  copyImage_of_notMem (Nat.le_refl _) l.imageSize_lt hx

theorem placeImage_below (hoffset : l.Within offset)
    (hdisj : Disjoint (region l.imageBase l.imageSize)
      (region (tcb - BitVec.ofNat 64 l.imageSize) l.imageSize)) :
    l.placeImage m tcb (tcb - BitVec.ofNat 64 offset) = l.imageByte m offset := by
  rw [below_eq_add hoffset.2]
  exact copyImage_apply (Nat.sub_lt (Nat.lt_of_lt_of_le hoffset.1 hoffset.2) hoffset.1)
    (Nat.le_refl _) l.imageSize_lt hdisj

/-! ### What a thread should see -/

def Act.written (offset : ℕ) : Act → Option (Word × Byte)
  | .write thread o value => if o = offset then some (thread, value) else none
  | _ => none

/-- The last write to a byte, with the thread that made it. -/
def lastWrite (offset : ℕ) (tr : List Act) : Option (Word × Byte) :=
  (tr.filterMap (Act.written offset)).getLast?

/-- What `tr` left in a byte that held its byte of the image at first. -/
def Loaded.byteAfter (l : Loaded) (m : Mem) (offset : ℕ) (tr : List Act) : Byte :=
  ((lastWrite offset tr).map Prod.snd).getD (l.imageByte m offset)

/-- The threads do not observe one another: each read has what the own writes of
its thread left in the copy of the image. -/
def Isolated (l : Loaded) (m : Mem) (tr : List Act) : Prop :=
  ∀ pre thread offset value post, tr = pre ++ .read thread offset value :: post →
    value = l.byteAfter m offset (pre.filter (·.thread = thread))

/-- A byte that another thread has written to is not read before the reader has
written to it again. -/
def ReadsOwn (tr : List Act) : Prop :=
  ∀ pre thread offset value post, tr = pre ++ .read thread offset value :: post →
    ∀ writer v, lastWrite offset pre = some (writer, v) → writer = thread

theorem lastWrite_snoc :
    lastWrite offset (tr ++ [a]) = (a.written offset).or (lastWrite offset tr) := by
  cases h : a.written offset with
  | some w => simp [lastWrite, h]
  | none => simp [lastWrite, h]

theorem Act.thread_of_written {w : Word × Byte} (h : a.written offset = some w) :
    a.thread = w.1 := by
  cases a with
  | write thread o v =>
      simp only [written] at h
      split at h
      · cases h
        rfl
      · cases h
  | prepare | clone | cloneFails | read => cases h

theorem lastWrite_filter
    (h : ∀ writer v, lastWrite offset tr = some (writer, v) → writer = thread) :
    lastWrite offset (tr.filter (·.thread = thread)) = lastWrite offset tr := by
  induction tr using List.reverseRecOn with
  | nil => rfl
  | append_singleton tr a ih =>
      rw [lastWrite_snoc] at h ⊢
      cases hw : a.written offset with
      | some w =>
          have hthread : a.thread = thread := by
            rw [Act.thread_of_written hw]
            exact h w.1 w.2 (by rw [hw, Option.some_or])
          rw [List.filter_append, List.filter_singleton, decide_eq_true hthread, cond_true,
            lastWrite_snoc, hw, Option.some_or, Option.some_or]
      | none =>
          rw [hw, Option.none_or] at h
          rw [Option.none_or, ← ih h]
          by_cases hthread : a.thread = thread
          · simp [List.filter_append, hthread, lastWrite_snoc, hw]
          · simp [List.filter_append, hthread]

/-! ### What it does see -/

/-- After the steps `tr`: the main thread's copy of the image is the one that all
threads use, and the others are as `_rt_thread_create` left them. -/
structure Shared (l : Loaded) (m : Mem) (tr : List Act) (s : State) : Prop where
  image : ∀ offset, l.Within offset → l.imageByte s.mem offset = l.imageByte m offset
  fsBase : ∀ thread fs, s.fsBase thread = some fs → fs = l.mainTcb
  main : ∀ offset, l.Within offset →
    s.mem (l.mainTcb - BitVec.ofNat 64 offset) = l.byteAfter m offset tr
  mapped : ∀ b ∈ s.mapped, b.toNat < 2 ^ 63 ∧
    Disjoint (region l.stackBase mappingSize) (region b mappingSize)
  copies : ∀ b ∈ s.mapped, ∀ offset, l.Within offset →
    s.mem (rtThreadTcb b - BitVec.ofNat 64 offset) = l.imageByte m offset

theorem Loaded.below_mem_main (hoffset : l.Within offset) :
    l.mainTcb - BitVec.ofNat 64 offset ∈ region l.stackBase mappingSize :=
  l.mainBlock_subset (below_mem_region hoffset.1 hoffset.2 l.imageSize_lt)

theorem Loaded.below_mem_mapping (huser : stackBase.toNat < 2 ^ 63) (hoffset : l.Within offset) :
    rtThreadTcb stackBase - BitVec.ofNat 64 offset ∈ region stackBase mappingSize :=
  l.block_subset huser (below_mem_region hoffset.1 hoffset.2 l.imageSize_lt)

theorem Loaded.image_mem (hoffset : l.Within offset) :
    l.imageBase + BitVec.ofNat 64 (l.imageSize - offset) ∈ region l.imageBase l.imageSize := by
  have hlt := l.imageSize_lt
  obtain ⟨hpos, hle⟩ := hoffset
  rw [mem_region, add_sub_cancel_left, BitVec.toNat_ofNat]
  omega

theorem shared_init (h : (threads l m).init s) : Shared l m [] s := by
  obtain rfl : s = _ := h
  have hdisj := l.image_apart.mono_right l.mainBlock_subset
  constructor
  case image =>
    intro offset hoffset
    apply placeImage_of_notMem
    exact Set.disjoint_left.mp hdisj (Loaded.image_mem hoffset)
  case fsBase =>
    intro thread fs hfs
    by_cases hthread : thread = l.mainTcb
    · subst hthread
      simpa using hfs.symm
    · simp [Function.update_of_ne hthread] at hfs
  case main =>
    intro offset hoffset
    exact placeImage_below hoffset hdisj
  case mapped => simp
  case copies => simp

/-- A step that stores nothing and creates no mapping. -/
theorem Shared.of_eq (h : Shared l m tr s) (hmem : t.mem = s.mem) (hmapped : t.mapped = s.mapped)
    (hfs : ∀ thread fs, t.fsBase thread = some fs → fs = l.mainTcb)
    (hwritten : ∀ offset, a.written offset = none) : Shared l m (tr ++ [a]) t := by
  constructor
  case image =>
    rw [hmem]
    exact h.image
  case fsBase => exact hfs
  case main =>
    intro offset hoffset
    rw [hmem, Loaded.byteAfter, lastWrite_snoc, hwritten]
    exact h.main offset hoffset
  case mapped =>
    rw [hmapped]
    exact h.mapped
  case copies =>
    rw [hmem, hmapped]
    exact h.copies

theorem Shared.prepare (h : Shared l m tr s) (hfresh : l.Fresh s stackBase) {t : State}
    (hmem : t.mem = l.placeImage s.mem (rtThreadTcb stackBase))
    (hmapped : t.mapped = stackBase :: s.mapped) (hfs : t.fsBase = s.fsBase) :
    Shared l m (tr ++ [.prepare thread stackBase]) t := by
  -- the image is copied into the new mapping, which is away from everything else
  have hkept : ∀ x ∉ region stackBase mappingSize, t.mem x = s.mem x := by
    intro x hx
    rw [hmem]
    exact placeImage_of_notMem fun hmem => hx (l.block_subset hfresh.user hmem)
  constructor
  case image =>
    intro offset hoffset
    rw [← h.image offset hoffset]
    exact hkept _ (Set.disjoint_left.mp hfresh.image (Loaded.image_mem hoffset))
  case fsBase =>
    rw [hfs]
    exact h.fsBase
  case main =>
    intro offset hoffset
    rw [hkept _ (Set.disjoint_left.mp hfresh.main (Loaded.below_mem_main hoffset)),
      h.main offset hoffset, Loaded.byteAfter, Loaded.byteAfter, lastWrite_snoc]
    rfl
  case mapped =>
    intro b hb
    rw [hmapped] at hb
    rcases List.mem_cons.mp hb with rfl | hb
    · exact ⟨hfresh.user, hfresh.main⟩
    · exact h.mapped b hb
  case copies =>
    intro b hb offset hoffset
    rw [hmapped] at hb
    rcases List.mem_cons.mp hb with rfl | hb
    · rw [hmem, placeImage_below hoffset (hfresh.image.mono_right (l.block_subset hfresh.user))]
      exact h.image offset hoffset
    · rw [hkept _ (Set.disjoint_left.mp (hfresh.mapped b hb)
        (Loaded.below_mem_mapping (h.mapped b hb).1 hoffset))]
      exact h.copies b hb offset hoffset

theorem Shared.write (h : Shared l m tr s) (hoffset : l.Within offset) :
    Shared l m (tr ++ [.write thread offset value])
      { s with mem := Function.update s.mem (l.mainTcb - BitVec.ofNat 64 offset) value } := by
  have hstack := Loaded.below_mem_main hoffset
  constructor
  case image =>
    intro o ho
    have himage := Loaded.image_mem ho
    -- the variables of the main thread do not overlap the image
    have hne : l.imageBase + BitVec.ofNat 64 (l.imageSize - o)
        ≠ l.mainTcb - BitVec.ofNat 64 offset := by
      intro heq
      rw [heq] at himage
      exact Set.disjoint_left.mp l.image_apart himage hstack
    exact (Function.update_of_ne hne _ _).trans (h.image o ho)
  case fsBase => exact h.fsBase
  case main =>
    intro o ho
    rw [Loaded.byteAfter, lastWrite_snoc]
    by_cases hsame : o = offset
    · subst hsame
      simp [Act.written]
    · have hne : l.mainTcb - BitVec.ofNat 64 o ≠ l.mainTcb - BitVec.ofNat 64 offset := by
        intro heq
        exact hsame (below_injective (lt_of_le_of_lt ho.2 l.imageSize_lt)
          (lt_of_le_of_lt hoffset.2 l.imageSize_lt) heq)
      simp only [Function.update_of_ne hne, h.main o ho, Act.written,
        if_neg (Ne.symm hsame), Loaded.byteAfter, Option.none_or]
  case mapped => exact h.mapped
  case copies =>
    intro b hb o ho
    obtain ⟨huser, hdisj⟩ := h.mapped b hb
    have hcopy := Loaded.below_mem_mapping huser ho
    -- nor the copies below the other thread blocks, which no write ever reaches
    have hne : rtThreadTcb b - BitVec.ofNat 64 o ≠ l.mainTcb - BitVec.ofNat 64 offset := by
      intro heq
      rw [heq] at hcopy
      exact Set.disjoint_left.mp hdisj hstack hcopy
    dsimp only
    rw [Function.update_of_ne hne]
    exact h.copies b hb o ho

/-- Without `CLONE_SETTLS` the child has the FS base of its parent. -/
theorem cloneFsBase_create (tls fs : Word) : cloneFsBase rtThreadCreateFlags tls fs = fs :=
  if_neg (by decide)

theorem shared_step (h : Shared l m tr s) (hstep : Step l s a t) : Shared l m (tr ++ [a]) t := by
  cases hstep with
  | prepare hrun hfresh => exact h.prepare hfresh rfl rfl rfl
  | @clone thread child fs hfs hcloning =>
      refine h.of_eq rfl rfl (fun u fs' hu => ?_) (fun _ => rfl)
      dsimp only at hu
      by_cases hchild : u = child
      · subst hchild
        rw [Function.update_self, cloneFsBase_create] at hu
        cases hu
        exact h.fsBase thread fs hfs
      · rw [Function.update_of_ne hchild] at hu
        exact h.fsBase u fs' hu
  | cloneFails hcloning => exact h.of_eq rfl rfl h.fsBase fun _ => rfl
  | read hrun hoffset => exact h.of_eq rfl rfl h.fsBase fun _ => rfl
  | write hrun hoffset =>
      rw [h.fsBase _ _ hrun.1]
      exact h.write hoffset

theorem shared_reaches (h : (threads l m).Reaches tr s) : Shared l m tr s :=
  h.history (fun _ => shared_init) fun _ _ _ _ => shared_step

/-- Every read has the value of the last write by any thread. -/
theorem read_shared {pre post : List Act} (h : (threads l m).Reaches tr s)
    (htr : tr = pre ++ .read thread offset value :: post) :
    value = l.byteAfter m offset pre := by
  rw [htr] at h
  obtain ⟨t, t', hpre, hstep, -⟩ := h.exists_of_append
  have hshared := shared_reaches hpre
  cases hstep with
  | read hrun hoffset =>
      rw [hshared.fsBase _ _ hrun.1]
      exact hshared.main offset hoffset

/-- Thread-local variables are isolated in every run in which no thread reads a
byte that another one was the last to write. -/
theorem isolated_of_readsOwn (h : (threads l m).Reaches tr s) (hown : ReadsOwn tr) :
    Isolated l m tr := by
  intro pre thread offset value post htr
  rw [read_shared h htr, Loaded.byteAfter, Loaded.byteAfter,
    lastWrite_filter (hown pre thread offset value post htr)]

/-- A program with one `u64` thread-local variable. -/
def oneVariable : Loaded where
  imageBase := 0x400000
  imageSize := 8
  stackBase := 0x10000000
  image_fits := by decide
  stack_user := by decide
  image_apart := by
    rw [disjoint_region_iff] <;> decide

def oneChild : Word := rtThreadTcb 0x20000000

theorem oneVariable_fresh {s : State} (h : s.mapped = []) :
    oneVariable.Fresh s 0x20000000 where
  user := by decide
  image := by
    rw [disjoint_region_iff] <;> decide
  main := by
    rw [disjoint_region_iff] <;> decide
  mapped := by simp [h]

theorem Step.read_value {s : State} (hrun : s.Running thread fs) (hoffset : l.Within offset)
    (hvalue : s.mem (fs - BitVec.ofNat 64 offset) = value) :
    Step l s (.read thread offset value) s := by
  rw [← hvalue]
  exact .read hrun hoffset

/-- The created thread writes to the variable before it reads it. -/
def writeFirstRun : List Act :=
  [.prepare oneVariable.mainTcb 0x20000000, .clone oneVariable.mainTcb oneChild,
    .write oneVariable.mainTcb 8 2, .write oneChild 8 3, .read oneChild 8 3]

theorem writeFirstRun_reaches :
    ∃ s, (threads oneVariable fun _ => 0).Reaches writeFirstRun s ∧
      s.mapped = [0x20000000] := by
  refine System.exists_reaches rfl ?_
  refine System.exists_run_cons (.prepare ⟨rfl, rfl⟩ (oneVariable_fresh rfl)) ?_
  refine System.exists_run_cons (.clone rfl rfl) ?_
  refine System.exists_run_cons (.write ⟨rfl, rfl⟩ ⟨by decide, by decide⟩) ?_
  refine System.exists_run_cons (.write ⟨rfl, rfl⟩ ⟨by decide, by decide⟩) ?_
  refine System.exists_run_cons (.read_value ⟨rfl, rfl⟩ ⟨by decide, by decide⟩ ?_) ?_
  · simp [rtThreadCreateTls, cloneFsBase_create]
  · exact System.exists_run_nil rfl

theorem isolated_writeFirstRun : ∃ s, (threads oneVariable fun _ => 0).Reaches writeFirstRun s ∧
    Isolated oneVariable (fun _ => 0) writeFirstRun := by
  obtain ⟨s, hs, -⟩ := writeFirstRun_reaches
  refine ⟨s, hs, isolated_of_readsOwn hs ?_⟩
  intro pre thread offset value post htr writer v hlast
  rcases pre with _ | ⟨a, _ | ⟨b, _ | ⟨c, _ | ⟨d, _ | ⟨e, pre⟩⟩⟩⟩⟩ <;>
    simp [writeFirstRun] at htr
  obtain ⟨rfl, rfl, rfl, rfl, ⟨rfl, rfl, -⟩, -⟩ := htr
  cases hlast
  rfl

/-- The created thread reads the variable after the main thread has set it. -/
def setFirstRun : List Act :=
  [.prepare oneVariable.mainTcb 0x20000000, .clone oneVariable.mainTcb oneChild,
    .write oneVariable.mainTcb 8 2, .read oneChild 8 2]

theorem setFirstRun_reaches :
    ∃ s, (threads oneVariable fun _ => 0).Reaches setFirstRun s ∧
      s.mapped = [0x20000000] := by
  refine System.exists_reaches rfl ?_
  refine System.exists_run_cons (.prepare ⟨rfl, rfl⟩ (oneVariable_fresh rfl)) ?_
  refine System.exists_run_cons (.clone rfl rfl) ?_
  refine System.exists_run_cons (.write ⟨rfl, rfl⟩ ⟨by decide, by decide⟩) ?_
  refine System.exists_run_cons (.read_value ⟨rfl, rfl⟩ ⟨by decide, by decide⟩ ?_) ?_
  · simp [rtThreadCreateTls, cloneFsBase_create]
  · exact System.exists_run_nil rfl

theorem isolated_fails : ¬ ∀ tr s, (threads oneVariable fun _ => 0).Reaches tr s →
    Isolated oneVariable (fun _ => 0) tr := by
  intro h
  obtain ⟨s, hs, -⟩ := setFirstRun_reaches
  have hread := h _ s hs [.prepare oneVariable.mainTcb 0x20000000,
    .clone oneVariable.mainTcb oneChild, .write oneVariable.mainTcb 8 2] oneChild 8 2 [] rfl
  revert hread
  decide

end Ciabatta.Tinyrt.ThreadLocal
