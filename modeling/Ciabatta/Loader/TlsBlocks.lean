import Ciabatta.Loader.TlsImage

/-!
What the copies of the TLS image make of a thread's TLS block: which bytes it
holds at first, and where they are for the thread.
-/

namespace Ciabatta.Loader

open ByteMemory Exec Layout
open Tinyrt.ThreadLocal (copyImage copyImage_of_notMem)

variable {m : Mem} {app : ElfImage} {ph dst src tcb stackBase tlsImage : Word} {n filesz : ℕ}
  {e : ℕ → Byte} {later : List Creation}

/-! ### The contents -/

/-- The byte that the copy loads in round `k`, where the bytes of the block so
far are those of `e`. The copy may come to its own block behind the image. -/
def loadedByte (m : Mem) (dst src : Word) (e : ℕ → Byte) (k : ℕ) : Byte :=
  let j := (src + BitVec.ofNat 64 k - dst).toNat
  if j < k then e j else m (src + BitVec.ofNat 64 k)

/-- Byte `k` of the block: of the image, and zero behind it. -/
def initialByte (m : Mem) (src : Word) (filesz k : ℕ) : Byte :=
  if k < filesz then m (src + BitVec.ofNat 64 k) else 0

theorem copyImage_loaded (hn : n < 2 ^ 64)
    (h : ∀ k < n, copyImage m dst src n (dst + BitVec.ofNat 64 k) = e k) :
    copyImage m dst src n (src + BitVec.ofNat 64 n) = loadedByte m dst src e n := by
  rw [loadedByte]
  by_cases hlt : (src + BitVec.ofNat 64 n - dst).toNat < n
  · have hplace : src + BitVec.ofNat 64 n
        = dst + BitVec.ofNat 64 (src + BitVec.ofNat 64 n - dst).toNat :=
      (toNat_sub_eq_iff (by omega)).mp rfl
    rw [if_pos hlt, ← h _ hlt, ← hplace]
  · rw [if_neg hlt]
    exact copyImage_of_notMem le_rfl hn hlt

/-- The copy makes the bytes of `e` if and only if it loads them. -/
theorem copyImage_eq_iff (hn : n ≤ 2 ^ 64) :
    (∀ k < n, copyImage m dst src n (dst + BitVec.ofNat 64 k) = e k) ↔
      ∀ k < n, loadedByte m dst src e k = e k := by
  induction n with
  | zero => simp
  | succ n ih =>
      have hearlier (k : ℕ) (hk : k < n) :
          copyImage m dst src (n + 1) (dst + BitVec.ofNat 64 k)
            = copyImage m dst src n (dst + BitVec.ofNat 64 k) := by
        apply Function.update_of_ne
        intro heq
        have hnat := congrArg BitVec.toNat (add_left_cancel heq)
        simp only [BitVec.toNat_ofNat] at hnat
        omega
      have hlast : copyImage m dst src (n + 1) (dst + BitVec.ofNat 64 n)
          = copyImage m dst src n (src + BitVec.ofNat 64 n) := Function.update_self _ _ _
      rw [Nat.forall_lt_succ_right, Nat.forall_lt_succ_right, ← ih (by omega), hlast]
      constructor
      · rintro ⟨hbefore, hend⟩
        have hkept (k : ℕ) (hk : k < n) :
            copyImage m dst src n (dst + BitVec.ofNat 64 k) = e k := by
          rw [← hearlier k hk]
          exact hbefore k hk
        exact ⟨hkept, by rw [← copyImage_loaded (by omega) hkept, hend]⟩
      · rintro ⟨hbefore, hend⟩
        refine ⟨fun k hk => ?_, ?_⟩
        · rw [hearlier k hk]
          exact hbefore k hk
        · rw [copyImage_loaded (by omega) hbefore, hend]

/-- The image lies apart from the block, so only what is behind it counts. -/
theorem copyImage_initial_iff (hn : n ≤ 2 ^ 64) (hfile : filesz ≤ n)
    (hdisj : Disjoint (region src filesz) (region dst n)) :
    (∀ k < n, copyImage m dst src n (dst + BitVec.ofNat 64 k) = initialByte m src filesz k) ↔
      ∀ k, filesz ≤ k → k < n →
        loadedByte m dst src (initialByte m src filesz) k = 0 := by
  rw [copyImage_eq_iff hn]
  have himage (k : ℕ) (hk : k < filesz) :
      loadedByte m dst src (initialByte m src filesz) k = initialByte m src filesz k := by
    have hmem : src + BitVec.ofNat 64 k ∈ region src filesz := by
      rw [mem_region, add_sub_cancel_left, BitVec.toNat_ofNat]
      omega
    have hapart := Set.disjoint_left.mp hdisj hmem
    rw [mem_region] at hapart
    simp only [loadedByte]
    rw [if_neg (by omega), initialByte, if_pos hk]
  constructor
  · intro h k hk hkn
    rw [h k hkn, initialByte, if_neg (Nat.not_lt.mpr hk)]
  · intro h k hkn
    by_cases hk : k < filesz
    · exact himage k hk
    · rw [h k (Nat.le_of_not_lt hk) hkn, initialByte, if_neg hk]

/-- The TLS block at `tls` after the copy: `filesz` bytes of the image, then
zeros. Nothing else has been written. -/
structure TlsContents (m : Mem) (image tls : Word) (filesz memsz : ℕ) (t : Machine Call) :
    Prop where
  image : ∀ k < filesz, t.mem (tls + BitVec.ofNat 64 k) = m (image + BitVec.ofNat 64 k)
  zero : ∀ k, filesz ≤ k → k < memsz → t.mem (tls + BitVec.ofNat 64 k) = 0
  frame : ∀ a l, .store a l ∈ t.log → region a l ⊆ region tls memsz

theorem store_of_copyLog {a : Word} {l : ℕ} (hn : n ≤ 2 ^ 64)
    (h : (.store a l : Event Call) ∈ copyLog dst src (List.range n)) :
    region a l ⊆ region dst n := by
  obtain ⟨k, hk, hmem⟩ := List.mem_flatMap.mp h
  simp only [List.mem_cons, reduceCtorEq, Event.store.injEq, List.not_mem_nil, or_false,
    false_or] at hmem
  obtain ⟨rfl, rfl⟩ := hmem
  have hlt := List.mem_range.mp hk
  exact region_add_subset (by omega) hn

theorem tlsContents_copied_iff {s : Machine Call} (hn : n ≤ 2 ^ 64) (hfile : filesz ≤ n)
    (hdisj : Disjoint (region src filesz) (region dst n))
    (hlog : ∀ a l, .store a l ∉ s.log) :
    TlsContents s.mem src dst filesz n (copiedMachine s dst src n) ↔
      ∀ k, filesz ≤ k → k < n →
        loadedByte s.mem dst src (initialByte s.mem src filesz) k = 0 := by
  rw [← copyImage_initial_iff hn hfile hdisj]
  constructor
  · intro h k hk
    by_cases himage : k < filesz
    · rw [initialByte, if_pos himage]
      exact h.image k himage
    · rw [initialByte, if_neg himage]
      exact h.zero k (Nat.le_of_not_lt himage) hk
  · intro h
    refine ⟨?_, ?_, ?_⟩
    · intro k hk
      rw [copiedMachine_mem, h k (by omega), initialByte, if_pos hk]
    · intro k hk hkn
      rw [copiedMachine_mem, h k hkn, initialByte, if_neg (Nat.not_lt.mpr hk)]
    · intro a l hstore
      rcases List.mem_append.mp hstore with hold | hcopy
      · exact absurd hold (hlog a l)
      · exact store_of_copyLog hn hcopy

def tlsFilesz (m : Mem) (ph : Word) : ℕ :=
  (load64 m (pFilesz ph)).toNat

/-- The image of the program with the header at `ph` lies apart from the new TLS
block. -/
def ImageApart (m : Mem) (app : ElfImage) (ph tcb : Word) : Prop :=
  Disjoint (region (tlsImageBase m app ph) (tlsFilesz m ph))
    (region (tcb - tlsImageSize m ph) (tlsImageSize m ph).toNat)

/-- Behind the image in memory `m'` the copy finds zeros only. -/
def ZeroBehind (m : Mem) (app : ElfImage) (ph : Word) (m' : Mem) (tcb : Word) : Prop :=
  ∀ k, tlsFilesz m ph ≤ k → k < (tlsImageSize m ph).toNat →
    loadedByte m' (tcb - tlsImageSize m ph) (tlsImageBase m app ph)
      (initialByte m' (tlsImageBase m app ph) (tlsFilesz m ph)) k = 0

/-- The TLS block of a thread has its initial contents. -/
def InitialTls (m : Mem) (app : ElfImage) (ph : Word) (m' : Mem) (tcb : Word)
    (t : Machine Call) : Prop :=
  TlsContents m' (tlsImageBase m app ph) (tcb - tlsImageSize m ph) (tlsFilesz m ph)
    (tlsImageSize m ph).toNat t

/-- One header of type `PT_TLS` at 0x400040: `filesz` bytes of image at 0x401000, in a block of
`memsz` bytes with alignment `align`. Behind the first byte of the image stands `behind`. -/
def tlsProgram (filesz memsz align behind : Byte) : Mem := fun a =>
  if a = 0x400040 then 7
  else if a = 0x400051 then 0x10
  else if a = 0x400060 then filesz
  else if a = 0x400068 then memsz
  else if a = 0x400070 then align
  else if a = 0x401000 then 0x2a
  else if a = 0x401001 then behind
  else 0

def tlsApp : ElfImage where
  base := 0x400000
  phdr := 0x400040
  phNum := 1
  phEnt := 56

/-- The new stacks lie far above. -/
theorem imageApart_of_size (hbase : tlsImageBase m app ph = 0x401000) (hfile : tlsFilesz m ph = 1)
    (hpos : 0 < (tlsImageSize m ph).toNat) (hsize : (tlsImageSize m ph).toNat ≤ 8)
    (htcb : 0x402000 ≤ tcb.toNat) : ImageApart m app ph tcb := by
  have hplace : (tcb - tlsImageSize m ph).toNat = tcb.toNat - (tlsImageSize m ph).toNat := by
    rw [BitVec.toNat_sub]
    omega
  have hlow : (0x401000 : Word).toNat = 0x401000 := rfl
  rw [ImageApart, hbase, hfile, disjoint_region_iff (by omega) (by omega) (by omega) hpos]
  omega

/-- The bytes that the log of a copy moves: from where, and to where. -/
def moves : List (Event Call) → List (Word × Word)
  | .load a 1 :: .store b 1 :: rest => (a, b) :: moves rest
  | _ :: rest => moves rest
  | [] => []

theorem moves_copyLog (ks : List ℕ) :
    moves (copyLog dst src ks)
      = ks.map fun k => (src + BitVec.ofNat 64 k, dst + BitVec.ofNat 64 k) := by
  induction ks with
  | nil => rfl
  | cons k ks ih =>
      change (_, _) :: moves (copyLog dst src ks) = _
      rw [ih, List.map_cons]

/-- All bytes of an image at `src` are moved to a block at `place`. -/
def MovesTo (src place : Word) (n : ℕ) (t : Machine Call) : Prop :=
  ∀ k < n, (src + BitVec.ofNat 64 k, place + BitVec.ofNat 64 k) ∈ moves t.log

theorem movesTo_copied_iff {s : Machine Call} {place : Word} (hn : n ≤ 2 ^ 64)
    (hlog : ∀ rest, moves (s.log ++ rest) = moves rest) :
    MovesTo src place n (copiedMachine s dst src n) ↔ n = 0 ∨ place = dst := by
  rw [MovesTo, copiedMachine, hlog, moves_copyLog]
  constructor
  · intro h
    rcases Nat.eq_zero_or_pos n with hzero | hpos
    · exact .inl hzero
    · right
      obtain ⟨k, hk, heq⟩ := List.mem_map.mp (h 0 hpos)
      rw [Prod.mk.injEq] at heq
      have hnat := congrArg BitVec.toNat (add_left_cancel heq.1)
      simp only [BitVec.toNat_ofNat] at hnat
      have hlt := List.mem_range.mp hk
      obtain rfl : k = 0 := by omega
      exact (add_right_cancel heq.2).symm
  · rintro (rfl | rfl) k hk
    · exact absurd hk (Nat.not_lt_zero k)
    · exact List.mem_map.mpr ⟨k, List.mem_range.mpr hk, rfl⟩

def tlsAlign (m : Mem) (ph : Word) : ℕ :=
  (load64 m (pAlign ph)).toNat

/-- The offset of the image below the thread pointer, for code that is linked
for the program. -/
def tlsOffset (m : Mem) (ph : Word) : ℕ :=
  alignUp (tlsImageSize m ph).toNat (tlsAlign m ph)

/-- A `PT_TLS` header with an alignment that its address has. -/
structure TlsAligned (m : Mem) (ph : Word) : Prop where
  power : ∃ k, tlsAlign m ph = 2 ^ k
  vaddr : tlsAlign m ph ∣ (load64 m (pVaddr ph)).toNat

/-- Each byte of the image is placed where the linked code looks for it. -/
def PlacedTls (m : Mem) (app : ElfImage) (ph : Word) (tcb : Word) (t : Machine Call) : Prop :=
  MovesTo (tlsImageBase m app ph) (tcb - BitVec.ofNat 64 (tlsOffset m ph))
    (tlsImageSize m ph).toNat t

/-- The block is in its place, or empty, if the size is a multiple of the
alignment. -/
theorem tlsOffset_iff (halign : TlsAligned m ph) :
    ((tlsImageSize m ph).toNat = 0 ∨
      tcb - BitVec.ofNat 64 (tlsOffset m ph) = tcb - tlsImageSize m ph) ↔
    tlsAlign m ph ∣ (tlsImageSize m ph).toNat := by
  obtain ⟨k, hk⟩ := halign.power
  have hpos : 0 < tlsAlign m ph := by
    rw [hk]
    positivity
  have hsize := (tlsImageSize m ph).isLt
  have hbound : tlsOffset m ph ≤ 2 ^ 64 := alignUp_le_two_pow _ hk
  have hle : (tlsImageSize m ph).toNat ≤ tlsOffset m ph := le_alignUp hpos
  have hempty : (tlsImageSize m ph).toNat = 0 → tlsOffset m ph = (tlsImageSize m ph).toNat := by
    intro hzero
    rw [tlsOffset, hzero, alignUp_eq_self_iff hpos]
    exact dvd_zero _
  rw [sub_right_inj, ← BitVec.toNat_inj, BitVec.toNat_ofNat, ← alignUp_eq_self_iff hpos,
    ← tlsOffset]
  constructor
  · rintro (hzero | hmod)
    · exact hempty hzero
    · by_cases hzero : (tlsImageSize m ph).toNat = 0
      · exact hempty hzero
      · omega
  · intro heq
    right
    omega

theorem placedTls_copied_iff {s : Machine Call} (halign : TlsAligned m ph)
    (hlog : ∀ rest, moves (s.log ++ rest) = moves rest) :
    PlacedTls m app ph tcb (copiedMachine s (tcb - tlsImageSize m ph) (tlsImageBase m app ph)
        (tlsImageSize m ph).toNat) ↔ tlsAlign m ph ∣ (tlsImageSize m ph).toNat := by
  rw [PlacedTls, movesTo_copied_iff (tlsImageSize m ph).isLt.le hlog]
  exact tlsOffset_iff halign

end Ciabatta.Loader
