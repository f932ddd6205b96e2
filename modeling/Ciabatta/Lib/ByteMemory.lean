import Mathlib.Data.BitVec
import Mathlib.Data.Set.Lattice
import Mathlib.Order.CompletePartialOrder
import Mathlib.Tactic.NormNum

/-!
Byte-addressed memory with 64-bit addresses. Numbers are stored with the low
byte first, and address arithmetic is modulo `2 ^ 64`, so a region may run over
the end of the address space.
-/

namespace ByteMemory

abbrev Byte := BitVec 8
abbrev Word := BitVec 64
abbrev Mem := Word → Byte

def byteOf (c : Char) : Byte := BitVec.ofNat 8 c.toNat

/-- The `n` addresses from `a` on. -/
def region (a : Word) (n : ℕ) : Set Word :=
  {x | (x - a).toNat < n}

/-- The number in the `n` bytes from `a` on. -/
def read (m : Mem) : Word → ℕ → ℕ
  | _, 0 => 0
  | a, n + 1 => (m a).toNat + 256 * read m (a + 1) n

/-- The low `n` bytes of `v`, stored from `a` on. -/
def write (m : Mem) (a : Word) (n v : ℕ) : Mem :=
  fun x => if (x - a).toNat < n then BitVec.ofNat 8 (v / 256 ^ (x - a).toNat) else m x

def load64 (m : Mem) (a : Word) : Word :=
  BitVec.ofNat 64 (read m a 8)

def store64 (m : Mem) (a : Word) (v : Word) : Mem :=
  write m a 8 v.toNat

def load32 (m : Mem) (a : Word) : BitVec 32 :=
  BitVec.ofNat 32 (read m a 4)

def load16 (m : Mem) (a : Word) : BitVec 16 :=
  BitVec.ofNat 16 (read m a 2)

def store32 (m : Mem) (a : Word) (v : BitVec 32) : Mem :=
  write m a 4 v.toNat

theorem toNat_pos {w : Word} (h : w ≠ 0) : 0 < w.toNat :=
  Nat.pos_of_ne_zero fun hzero => h (BitVec.eq_of_toNat_eq hzero)

theorem ofNat_lt_iff {n : ℕ} {w : Word} (hn : n < 2 ^ 64) :
    BitVec.ofNat 64 n < w ↔ n < w.toNat := by
  rw [BitVec.lt_def, BitVec.toNat_ofNat, Nat.mod_eq_of_lt hn]

theorem msb_eq_false {w : Word} (h : 0 ≤ w.toInt) : w.msb = false := by
  rw [BitVec.msb_eq_toInt, decide_eq_false_iff_not]
  omega

/-- A number that is not negative is the same signed and unsigned. -/
theorem toInt_eq_toNat {w : Word} (h : 0 ≤ w.toInt) : w.toInt = w.toNat :=
  BitVec.toInt_eq_toNat_of_msb (msb_eq_false h)

/-! ### Regions -/

theorem mem_region {a x : Word} {n : ℕ} : x ∈ region a n ↔ (x - a).toNat < n :=
  Iff.rfl

/-- Without a turn around the address space a region is an interval. -/
theorem mem_region_iff {a x : Word} {n : ℕ} (h : a.toNat + n ≤ 2 ^ 64) :
    x ∈ region a n ↔ a.toNat ≤ x.toNat ∧ x.toNat < a.toNat + n := by
  rw [mem_region, BitVec.toNat_sub]
  omega

theorem self_mem_region {a : Word} {n : ℕ} (h : 0 < n) : a ∈ region a n := by
  rw [mem_region, BitVec.sub_self]
  exact h

@[simp] theorem region_zero (a : Word) : region a 0 = ∅ := by
  ext x
  simp [mem_region]

theorem region_mono {a : Word} {n k : ℕ} (h : n ≤ k) : region a n ⊆ region a k :=
  fun _ hx => lt_of_lt_of_le hx h

theorem mem_region_succ {a x : Word} {n : ℕ} (h : n < 2 ^ 64) :
    x ∈ region a (n + 1) ↔ x = a ∨ x ∈ region (a + 1) n := by
  have hx : (x - a).toNat < 2 ^ 64 := (x - a).isLt
  have hsub : x - (a + 1) = x - a - 1 := by
    rw [sub_add_eq_sub_sub]
  have heq : x = a ↔ (x - a).toNat = 0 := by
    rw [← BitVec.toNat_zero (w := 64), BitVec.toNat_inj]
    exact sub_eq_zero.symm
  rw [mem_region, mem_region, hsub, heq, BitVec.toNat_sub _ 1, show (1 : Word).toNat = 1 from rfl]
  omega

/-- A part of a region. -/
theorem region_add_subset {a : Word} {k n l : ℕ} (h : k + n ≤ l) (hl : l ≤ 2 ^ 64) :
    region (a + BitVec.ofNat 64 k) n ⊆ region a l := by
  intro x hx
  have hsub : x - (a + BitVec.ofNat 64 k) = x - a - BitVec.ofNat 64 k := by
    rw [sub_add_eq_sub_sub]
  rw [mem_region, hsub, BitVec.toNat_sub, BitVec.toNat_ofNat] at hx
  have hlt : (x - a).toNat < 2 ^ 64 := (x - a).isLt
  rw [mem_region]
  omega

/-- A region and the bytes behind it. -/
theorem disjoint_region_add {a : Word} {k n : ℕ} (h : k + n ≤ 2 ^ 64) :
    Disjoint (region (a + BitVec.ofNat 64 k) n) (region a k) := by
  rw [Set.disjoint_left]
  intro x hx hxa
  have hsub : x - (a + BitVec.ofNat 64 k) = x - a - BitVec.ofNat 64 k := by
    rw [sub_add_eq_sub_sub]
  rw [mem_region, hsub, BitVec.toNat_sub, BitVec.toNat_ofNat] at hx
  rw [mem_region] at hxa
  omega

theorem disjoint_region_iff {a b : Word} {n k : ℕ} (ha : a.toNat + n ≤ 2 ^ 64)
    (hb : b.toNat + k ≤ 2 ^ 64) (hn : 0 < n) (hk : 0 < k) :
    Disjoint (region a n) (region b k) ↔
      a.toNat + n ≤ b.toNat ∨ b.toNat + k ≤ a.toNat := by
  constructor
  · intro hdisj
    rw [Set.disjoint_left] at hdisj
    by_contra hover
    rcases le_total a.toNat b.toNat with hab | hba
    · exact hdisj ((mem_region_iff ha).mpr ⟨hab, by omega⟩) (self_mem_region hk)
    · exact hdisj (self_mem_region hn) ((mem_region_iff hb).mpr ⟨hba, by omega⟩)
  · intro hsep
    rw [Set.disjoint_left]
    intro x hxa hxb
    rw [mem_region_iff ha] at hxa
    rw [mem_region_iff hb] at hxb
    omega

theorem subset_region {a b : Word} {n k : ℕ} (ha : a.toNat + n ≤ 2 ^ 64)
    (hb : b.toNat + k ≤ 2 ^ 64) (hlow : b.toNat ≤ a.toNat) (hhigh : a.toNat + n ≤ b.toNat + k) :
    region a n ⊆ region b k := by
  intro x hx
  rw [mem_region_iff ha] at hx
  rw [mem_region_iff hb]
  omega

theorem disjoint_region_of_le {a b : Word} {n k : ℕ} (hb : b.toNat + k ≤ 2 ^ 64)
    (hle : a.toNat + n ≤ b.toNat) : Disjoint (region a n) (region b k) := by
  rw [Set.disjoint_left]
  intro x hxa hxb
  rw [mem_region_iff (by omega)] at hxa
  rw [mem_region_iff hb] at hxb
  omega

/-- The `i`-th byte of a region. -/
theorem add_ofNat_mem_region {a : Word} {n i : ℕ} (hi : i < n) (hn : n ≤ 2 ^ 64) :
    a + BitVec.ofNat 64 i ∈ region a n := by
  rw [mem_region, add_sub_cancel_left, BitVec.toNat_ofNat, Nat.mod_eq_of_lt (by omega)]
  exact hi

theorem add_ofNat_ne {a : Word} {i j : ℕ} (hi : i < 2 ^ 64) (hj : j < 2 ^ 64) (h : i ≠ j) :
    a + BitVec.ofNat 64 i ≠ a + BitVec.ofNat 64 j := by
  rw [Ne, add_right_inj, ← BitVec.toNat_inj, BitVec.toNat_ofNat, BitVec.toNat_ofNat,
    Nat.mod_eq_of_lt hi, Nat.mod_eq_of_lt hj]
  exact h

/-! ### Reading and writing -/

theorem write_of_notMem {m : Mem} {a x : Word} {n v : ℕ} (h : x ∉ region a n) :
    write m a n v x = m x :=
  if_neg h

theorem read_congr {m m' : Mem} {a : Word} {n : ℕ} (hn : n ≤ 2 ^ 64)
    (h : ∀ x ∈ region a n, m x = m' x) : read m a n = read m' a n := by
  induction n generalizing a with
  | zero => rfl
  | succ n ih =>
      have hrest : read m (a + 1) n = read m' (a + 1) n := by
        apply ih (by omega)
        intro x hx
        exact h x ((mem_region_succ (by omega)).mpr (.inr hx))
      rw [read, read, hrest, h a (self_mem_region (by omega))]

theorem read_write {m : Mem} {a : Word} {n v : ℕ} (hn : n ≤ 2 ^ 64) :
    read (write m a n v) a n = v % 256 ^ n := by
  induction n generalizing m a v with
  | zero => simp [read, Nat.mod_one]
  | succ n ih =>
      have hhead : (write m a (n + 1) v a).toNat = v % 256 := by
        simp [write]
      -- past its first byte, the write is one of `v / 256` from `a + 1` on
      have hrest : read (write m a (n + 1) v) (a + 1) n
          = read (write m (a + 1) n (v / 256)) (a + 1) n := by
        apply read_congr (by omega)
        intro x hx
        have hx' : (x - (a + 1)).toNat < n := hx
        have hstep : (x - a).toNat = (x - (a + 1)).toNat + 1 := by
          have hsub : x - a = x - (a + 1) + 1 := by
            rw [sub_add_eq_sub_sub, sub_add_cancel]
          rw [hsub, BitVec.toNat_add, show (1 : Word).toNat = 1 from rfl]
          omega
        rw [write, write, if_pos (by omega), if_pos hx', hstep, pow_succ', Nat.div_div_eq_div_mul]
      rw [read, hhead, hrest, ih (by omega), pow_succ', Nat.mod_mul]

theorem load64_congr {m m' : Mem} {a : Word} (h : ∀ x ∈ region a 8, m x = m' x) :
    load64 m a = load64 m' a := by
  rw [load64, load64, read_congr (by norm_num) h]

@[simp] theorem load64_store64 (m : Mem) (a v : Word) : load64 (store64 m a v) a = v := by
  rw [load64, store64, read_write (by norm_num)]
  apply BitVec.eq_of_toNat_eq
  rw [BitVec.toNat_ofNat]
  have hv : v.toNat < 2 ^ 64 := v.isLt
  norm_num
  omega

theorem store64_of_notMem {m : Mem} {a v x : Word} (h : x ∉ region a 8) :
    store64 m a v x = m x :=
  write_of_notMem h

theorem load64_store64_of_disjoint {m : Mem} {a b v : Word}
    (h : Disjoint (region b 8) (region a 8)) : load64 (store64 m a v) b = load64 m b :=
  load64_congr fun _ hx => store64_of_notMem (Set.disjoint_left.mp h hx)

theorem load32_congr {m m' : Mem} {a : Word} (h : ∀ x ∈ region a 4, m x = m' x) :
    load32 m a = load32 m' a := by
  rw [load32, load32, read_congr (by norm_num) h]

@[simp] theorem load32_store32 (m : Mem) (a : Word) (v : BitVec 32) :
    load32 (store32 m a v) a = v := by
  rw [load32, store32, read_write (by norm_num)]
  apply BitVec.eq_of_toNat_eq
  rw [BitVec.toNat_ofNat]
  have hv : v.toNat < 2 ^ 32 := v.isLt
  norm_num
  omega

theorem store32_of_notMem {m : Mem} {a x : Word} {v : BitVec 32} (h : x ∉ region a 4) :
    store32 m a v x = m x :=
  write_of_notMem h

theorem load32_eq_zero {m : Mem} {a : Word} (h : ∀ x ∈ region a 4, m x = 0) :
    load32 m a = 0 := by
  have hblank : load32 m a = load32 (fun _ => 0) a := load32_congr h
  rw [hblank]
  simp [load32, read]

/-! ### Copying -/

/-- The `n` bytes from `src` on, copied to `dst` all at once. -/
def copied (m : Mem) (dst src : Word) (n : ℕ) : Mem :=
  fun x => if (x - dst).toNat < n then m (src + (x - dst)) else m x

@[simp] theorem copied_zero (m : Mem) (dst src : Word) : copied m dst src 0 = m := rfl

theorem copied_of_notMem {m : Mem} {dst src x : Word} {n : ℕ} (h : x ∉ region dst n) :
    copied m dst src n x = m x :=
  if_neg h

theorem copied_add {m : Mem} {dst src : Word} {n i : ℕ} (hi : i < n) (hn : n ≤ 2 ^ 64) :
    copied m dst src n (dst + BitVec.ofNat 64 i) = m (src + BitVec.ofNat 64 i) := by
  have hoffset : dst + BitVec.ofNat 64 i - dst = BitVec.ofNat 64 i := add_sub_cancel_left _ _
  rw [copied, hoffset, BitVec.toNat_ofNat, Nat.mod_eq_of_lt (by omega), if_pos hi]

/-- Where the two ranges do not overlap, the source is as it was. -/
theorem copied_source {m : Mem} {dst src : Word} {n l i k : ℕ}
    (hdisj : Disjoint (region src n) (region dst l)) (hn : n ≤ 2 ^ 64) (hi : i < n) (hk : k ≤ l) :
    copied m dst src k (src + BitVec.ofNat 64 i) = m (src + BitVec.ofNat 64 i) := by
  apply copied_of_notMem
  intro hdst
  exact Set.disjoint_left.mp hdisj (add_ofNat_mem_region hi hn) (region_mono hk hdst)

theorem toNat_sub_eq_iff {x a : Word} {i : ℕ} (hi : i < 2 ^ 64) :
    (x - a).toNat = i ↔ x = a + BitVec.ofNat 64 i := by
  constructor
  · rintro rfl
    rw [BitVec.ofNat_toNat, BitVec.setWidth_eq, add_sub_cancel]
  · rintro rfl
    rw [add_sub_cancel_left, BitVec.toNat_ofNat, Nat.mod_eq_of_lt hi]

/-- One byte more, at the end. -/
theorem update_copied_end {m : Mem} {dst src : Word} {n : ℕ} (hn : n < 2 ^ 64) :
    Function.update (copied m dst src n) (dst + BitVec.ofNat 64 n)
      (m (src + BitVec.ofNat 64 n)) = copied m dst src (n + 1) := by
  funext x
  rcases eq_or_ne x (dst + BitVec.ofNat 64 n) with rfl | hne
  · rw [Function.update_self, copied_add (Nat.lt_succ_self n) hn]
  · have hx : (x - dst).toNat ≠ n := mt (toNat_sub_eq_iff hn).mp hne
    have hiff : (x - dst).toNat < n + 1 ↔ (x - dst).toNat < n := by omega
    rw [Function.update_of_ne hne, copied, copied]
    simp only [hiff]

/-- One byte more, at the start. -/
theorem update_copied_start {m : Mem} {dst src : Word} {n : ℕ} (hn : n < 2 ^ 64) :
    Function.update (copied m (dst + 1) (src + 1) n) dst (m src) = copied m dst src (n + 1) := by
  funext x
  rcases eq_or_ne x dst with rfl | hne
  · have hstart : copied m x src (n + 1) (x + BitVec.ofNat 64 0) = m (src + BitVec.ofNat 64 0) :=
      copied_add (Nat.succ_pos n) hn
    rw [show BitVec.ofNat 64 0 = (0 : Word) from rfl, add_zero, add_zero] at hstart
    rw [Function.update_self, hstart]
  · have hmem : x ∈ region (dst + 1) n ↔ x ∈ region dst (n + 1) := by
      rw [mem_region_succ hn]
      exact (or_iff_right hne).symm
    have hsame : src + 1 + (x - (dst + 1)) = src + (x - dst) := by
      rw [sub_add_eq_sub_sub, add_assoc, add_sub_cancel]
    rw [mem_region, mem_region] at hmem
    rw [Function.update_of_ne hne, copied, copied, hsame]
    simp only [hmem]

/-- A byte of the number that `n` bytes make. -/
theorem ofNat_read_div {m : Mem} {a : Word} {n i : ℕ} (hi : i < n) :
    BitVec.ofNat 8 (read m a n / 256 ^ i) = m (a + BitVec.ofNat 64 i) := by
  induction n generalizing a i with
  | zero => exact absurd hi (Nat.not_lt_zero i)
  | succ n ih =>
      have hbyte := (m a).isLt
      cases i with
      | zero =>
          apply BitVec.eq_of_toNat_eq
          rw [read, pow_zero, Nat.div_one, BitVec.toNat_ofNat,
            show BitVec.ofNat 64 0 = (0 : Word) from rfl, add_zero]
          omega
      | succ i =>
          have hrest : read m a (n + 1) / 256 = read m (a + 1) n := by
            rw [read]
            omega
          rw [pow_succ', ← Nat.div_div_eq_div_mul, hrest, ih (Nat.lt_of_succ_lt_succ hi), add_assoc,
            show (1 : Word) = BitVec.ofNat 64 1 from rfl, ← BitVec.ofNat_add, Nat.add_comm 1 i]

theorem read_lt (m : Mem) (a : Word) (n : ℕ) : read m a n < 256 ^ n := by
  induction n generalizing a with
  | zero => exact Nat.one_pos
  | succ n ih =>
      have hbyte := (m a).isLt
      have hrest := ih (a + 1)
      rw [read, pow_succ']
      omega

/-- A word that is loaded and stored is eight bytes moved. -/
theorem store64_load64 (m m' : Mem) (a b x : Word) :
    store64 m a (load64 m' b) x = if (x - a).toNat < 8 then m' (b + (x - a)) else m x := by
  have hword : (load64 m' b).toNat = read m' b 8 := by
    rw [load64, BitVec.toNat_ofNat]
    exact Nat.mod_eq_of_lt (read_lt m' b 8)
  rw [store64, hword, write]
  by_cases hx : (x - a).toNat < 8
  · rw [if_pos hx, if_pos hx, ofNat_read_div hx, BitVec.ofNat_toNat, BitVec.setWidth_eq]
  · rw [if_neg hx, if_neg hx]

/-- One word more, at the end. -/
theorem store64_copied {m : Mem} {dst src : Word} {n : ℕ} (hn : n + 8 ≤ 2 ^ 64)
    (hdisj : Disjoint (region src (n + 8)) (region dst (n + 8))) :
    store64 (copied m dst src n) (dst + BitVec.ofNat 64 n)
      (load64 (copied m dst src n) (src + BitVec.ofNat 64 n)) = copied m dst src (n + 8) := by
  funext x
  have hlt := (x - dst).isLt
  have hoffset : (x - (dst + BitVec.ofNat 64 n)).toNat
      = ((x - dst).toNat + (2 ^ 64 - n)) % 2 ^ 64 := by
    rw [sub_add_eq_sub_sub, BitVec.toNat_sub, BitVec.toNat_ofNat]
    omega
  have hsame : src + BitVec.ofNat 64 n + (x - (dst + BitVec.ofNat 64 n)) = src + (x - dst) := by
    rw [sub_add_eq_sub_sub, add_assoc, add_sub_cancel]
  rw [store64_load64, hsame]
  by_cases hbefore : (x - dst).toNat < n
  · rw [if_neg (by omega), copied, copied, if_pos hbefore, if_pos (by omega)]
  · by_cases hword : (x - dst).toNat < n + 8
    · have hsrc : src + (x - dst) ∈ region src (n + 8) := by
        rw [mem_region, add_sub_cancel_left]
        exact hword
      have hapart : src + (x - dst) ∉ region dst n :=
        fun hmem => Set.disjoint_left.mp hdisj hsrc (region_mono (Nat.le_add_right n 8) hmem)
      rw [if_pos (by omega), copied_of_notMem hapart, copied, if_pos hword]
    · rw [if_neg (by omega), copied, copied, if_neg hbefore, if_neg hword]

/-! ### Several stores -/

/-- The stores of `ws`, an address with its value each, in order. -/
def storeAll (m : Mem) (ws : List (Word × Word)) : Mem :=
  ws.foldl (fun m w => store64 m w.1 w.2) m

@[simp] theorem storeAll_nil (m : Mem) : storeAll m [] = m := rfl

@[simp] theorem storeAll_cons (m : Mem) (w : Word × Word) (ws : List (Word × Word)) :
    storeAll m (w :: ws) = storeAll (store64 m w.1 w.2) ws := rfl

theorem storeAll_append (m : Mem) (ws ws' : List (Word × Word)) :
    storeAll m (ws ++ ws') = storeAll (storeAll m ws) ws' :=
  List.foldl_append

theorem storeAll_of_notMem {m : Mem} {ws : List (Word × Word)} {x : Word}
    (h : ∀ w ∈ ws, x ∉ region w.1 8) : storeAll m ws x = m x := by
  induction ws generalizing m with
  | nil => rfl
  | cons w ws ih =>
      rw [storeAll_cons, ih fun u hu => h u (List.mem_cons_of_mem w hu)]
      exact store64_of_notMem (h w List.mem_cons_self)

/-- Where the stores do not overlap, each of them lasts. -/
theorem load64_storeAll {m : Mem} {ws : List (Word × Word)}
    (h : ws.Pairwise fun u w => Disjoint (region u.1 8) (region w.1 8))
    {w : Word × Word} (hw : w ∈ ws) : load64 (storeAll m ws) w.1 = w.2 := by
  induction ws generalizing m with
  | nil => exact absurd hw List.not_mem_nil
  | cons u ws ih =>
      rw [List.pairwise_cons] at h
      rcases List.mem_cons.mp hw with rfl | hmem
      · have hkept : load64 (storeAll (store64 m w.1 w.2) ws) w.1
            = load64 (store64 m w.1 w.2) w.1 := by
          apply load64_congr
          intro x hx
          exact storeAll_of_notMem fun u hu => Set.disjoint_left.mp (h.1 u hu) hx
        rw [storeAll_cons, hkept, load64_store64]
      · exact ih h.2 hmem

end ByteMemory
