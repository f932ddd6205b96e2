import Ciabatta.Lib.ByteMemory
import Mathlib.Data.List.Pairwise

/-!
Sizes and places. The mask idiom for rounding to a power of two, and blocks of
memory cut into buckets of one width after a header.
-/

namespace Layout

open ByteMemory

/-! ### Alignment -/

/-- The least multiple of `a` that is not below `n`. -/
def alignUp (n a : ℕ) : ℕ :=
  (n + a - 1) / a * a

theorem le_alignUp {n a : ℕ} (ha : 0 < a) : n ≤ alignUp n a := by
  have hdiv := Nat.div_add_mod (n + a - 1) a
  have hmod := Nat.mod_lt (n + a - 1) ha
  rw [Nat.mul_comm] at hdiv
  unfold alignUp
  omega

theorem dvd_alignUp (n a : ℕ) : a ∣ alignUp n a :=
  Nat.dvd_mul_left a _

theorem alignUp_le {n m a : ℕ} (ha : 0 < a) (hle : n ≤ m) (hdvd : a ∣ m) : alignUp n a ≤ m := by
  obtain ⟨q, rfl⟩ := hdvd
  have hlt : (n + a - 1) / a < q + 1 := by
    rw [Nat.div_lt_iff_lt_mul ha, Nat.succ_mul, Nat.mul_comm q]
    omega
  rw [alignUp, Nat.mul_comm]
  exact Nat.mul_le_mul_left a (Nat.le_of_lt_succ hlt)

theorem alignUp_le_iff {n m a : ℕ} (ha : 0 < a) (hdvd : a ∣ m) : alignUp n a ≤ m ↔ n ≤ m :=
  ⟨(le_alignUp ha).trans, fun hle => alignUp_le ha hle hdvd⟩

theorem isLeast_alignUp {n a : ℕ} (ha : 0 < a) : IsLeast {m | a ∣ m ∧ n ≤ m} (alignUp n a) :=
  ⟨⟨dvd_alignUp n a, le_alignUp ha⟩, fun _ hm => alignUp_le ha hm.2 hm.1⟩

theorem isGreatest_div_mul {n a : ℕ} (ha : 0 < a) : IsGreatest {m | a ∣ m ∧ m ≤ n} (n / a * a) := by
  refine ⟨⟨Nat.dvd_mul_left a _, Nat.div_mul_le_self n a⟩, ?_⟩
  rintro _ ⟨⟨q, rfl⟩, hle⟩
  rw [Nat.mul_comm a q] at hle ⊢
  exact Nat.mul_le_mul_right a ((Nat.le_div_iff_mul_le ha).mpr hle)

theorem alignUp_mono {n m a : ℕ} (ha : 0 < a) (hle : n ≤ m) : alignUp n a ≤ alignUp m a :=
  alignUp_le ha (hle.trans (le_alignUp ha)) (dvd_alignUp m a)

theorem alignUp_eq_self_iff {n a : ℕ} (ha : 0 < a) : alignUp n a = n ↔ a ∣ n := by
  constructor
  · intro heq
    rw [← heq]
    exact dvd_alignUp n a
  · intro hdvd
    exact le_antisymm (alignUp_le ha le_rfl hdvd) (le_alignUp ha)

theorem alignUp_one (n : ℕ) : alignUp n 1 = n := by
  simp [alignUp]

/-- A rounded address that fits the address space was reached without a turn
around it. -/
theorem add_lt_of_alignUp_lt {n k : ℕ} (hk : k ≤ 64) (h : alignUp n (2 ^ k) < 2 ^ 64) :
    n + 2 ^ k - 1 < 2 ^ 64 := by
  by_contra hge
  have hsplit : 2 ^ 64 = 2 ^ (64 - k) * 2 ^ k := by
    rw [← pow_add, Nat.sub_add_cancel hk]
  have hdiv : 2 ^ (64 - k) ≤ (n + 2 ^ k - 1) / 2 ^ k := by
    rw [Nat.le_div_iff_mul_le (by positivity), ← hsplit]
    exact Nat.le_of_not_lt hge
  have hmul := Nat.mul_le_mul_right (2 ^ k) hdiv
  rw [← hsplit] at hmul
  exact absurd h (Nat.not_lt.mpr hmul)

/-- Clearing the bits below a power of two rounds down. -/
theorem toNat_and_not_pred {x a : Word} {k : ℕ} (ha : a.toNat = 2 ^ k) :
    (x &&& ~~~(a - 1)).toNat = x.toNat / a.toNat * a.toNat := by
  have hpred : (a - 1).toNat = 2 ^ k - 1 := by
    have hpos : 0 < 2 ^ k := by positivity
    have hlt := a.isLt
    rw [BitVec.toNat_sub, show (1 : Word).toNat = 1 from rfl]
    omega
  apply Nat.eq_of_testBit_eq
  intro i
  have hmask : (2 ^ 64 - 1 - (2 ^ k - 1)).testBit i = (decide (i < 64) && !decide (i < k)) := by
    have hlt : 2 ^ k - 1 < 2 ^ 64 := by omega
    rw [Nat.sub_sub, Nat.add_comm, Nat.testBit_two_pow_sub_succ hlt, Nat.testBit_two_pow_sub_one]
  rw [BitVec.toNat_and, BitVec.toNat_not, hpred, Nat.testBit_and, hmask, ha,
    Nat.testBit_mul_two_pow, Nat.testBit_div_two_pow]
  by_cases hi : i < 64
  · by_cases hk : i < k
    · simp [hk]
    · have hle := Nat.le_of_not_lt hk
      simp [hi, hk, hle]
  · have hhigh : x.toNat.testBit i = false :=
      Nat.testBit_lt_two_pow (lt_of_lt_of_le x.isLt (Nat.pow_le_pow_right (by decide) (by omega)))
    by_cases hk : i < k
    · simp [hi, hk]
    · have hle := Nat.le_of_not_lt hk
      simp [hi, hhigh, hle]

theorem toNat_alignUp {x a : Word} {k : ℕ} (ha : a.toNat = 2 ^ k)
    (hfit : x.toNat + a.toNat - 1 < 2 ^ 64) :
    ((x + a - 1) &&& ~~~(a - 1)).toNat = alignUp x.toNat a.toNat := by
  have hpos : 0 < 2 ^ k := by positivity
  have hsum : (x + a - 1).toNat = x.toNat + a.toNat - 1 := by
    rw [BitVec.toNat_sub, BitVec.toNat_add, show (1 : Word).toNat = 1 from rfl]
    omega
  rw [toNat_and_not_pred ha, hsum, alignUp]

theorem two_pow_dvd {a : Word} {k : ℕ} (ha : a.toNat = 2 ^ k) : a.toNat ∣ 2 ^ 64 := by
  have hlt := a.isLt
  rw [ha] at hlt ⊢
  exact pow_dvd_pow 2 (Nat.le_of_lt ((Nat.pow_lt_pow_iff_right (by decide)).mp hlt))

/-- Also where the sum turns around the address space, which leads to 0. -/
theorem toNat_alignUp_mod {x a : Word} {k : ℕ} (ha : a.toNat = 2 ^ k) :
    ((x + a - 1) &&& ~~~(a - 1)).toNat = alignUp x.toNat a.toNat % 2 ^ 64 := by
  have hpos : 0 < a.toNat := by
    rw [ha]
    positivity
  have hsum : (x + a - 1).toNat = (x.toNat + a.toNat - 1) % 2 ^ 64 := by
    rw [BitVec.toNat_sub, BitVec.toNat_add, show (1 : Word).toNat = 1 from rfl]
    omega
  obtain ⟨q, hq⟩ := two_pow_dvd ha
  rw [toNat_and_not_pred ha, hsum, hq, alignUp, Nat.mul_comm a.toNat q, Nat.mod_mul_left_div_self,
    Nat.mul_mod_mul_right]

theorem alignUp_le_two_pow (x : Word) {a : Word} {k : ℕ} (ha : a.toNat = 2 ^ k) :
    alignUp x.toNat a.toNat ≤ 2 ^ 64 :=
  alignUp_le (by rw [ha]; positivity) x.isLt.le (two_pow_dvd ha)

/-! ### Carvings -/

/-- How a block of `size` bytes is cut: `count` buckets of `width` bytes after a
header. -/
structure Carving where
  size : ℕ
  header : ℕ
  width : ℕ
  count : ℕ
  width_pos : 0 < width
  fits : header + count * width ≤ size

/-- A block at `base` that is not the null pointer and does not run over the end
of the address space. -/
structure Carving.Placed (c : Carving) (base : Word) : Prop where
  ne_null : base ≠ 0
  no_wrap : base.toNat + c.size ≤ 2 ^ 64

namespace Carving

variable (c : Carving) {base p q : Word} {i j : ℕ}

def bucket (base : Word) (i : ℕ) : Word :=
  base + BitVec.ofNat 64 (c.header + i * c.width)

/-- The buckets of the block at `base`, lowest first. -/
def buckets (base : Word) : List Word :=
  (List.range c.count).map (c.bucket base)

/-- The first words of the buckets of a block, in which a list can run through
them. -/
def links (base : Word) : Set Word :=
  {x | ∃ p ∈ c.buckets base, x ∈ region p 8}

/-- The buckets of several blocks. -/
def stock (bases : List Word) : List Word :=
  bases.flatMap c.buckets

variable {c}

theorem mem_buckets : p ∈ c.buckets base ↔ ∃ i < c.count, c.bucket base i = p := by
  simp [buckets]

theorem bucket_end_le (hi : i < c.count) : c.header + i * c.width + c.width ≤ c.size := by
  have hmul : (i + 1) * c.width ≤ c.count * c.width := Nat.mul_le_mul_right _ hi
  have hfits := c.fits
  rw [Nat.succ_mul] at hmul
  omega

theorem toNat_bucket (hbase : c.Placed base) (hi : i < c.count) :
    (c.bucket base i).toNat = base.toNat + (c.header + i * c.width) := by
  have hend := bucket_end_le hi
  have hwidth := c.width_pos
  have hwrap := hbase.no_wrap
  rw [bucket, BitVec.toNat_add, BitVec.toNat_ofNat]
  omega

theorem bucket_ne_null (hbase : c.Placed base) (hi : i < c.count) : c.bucket base i ≠ 0 := by
  have hplace := toNat_bucket hbase hi
  have hpos := toNat_pos hbase.ne_null
  intro hzero
  rw [hzero, show (0 : Word).toNat = 0 from rfl] at hplace
  omega

theorem region_bucket_subset (hbase : c.Placed base) (hi : i < c.count) :
    region (c.bucket base i) c.width ⊆ region base c.size := by
  have hend := bucket_end_le hi
  have hwrap := hbase.no_wrap
  exact region_add_subset hend (by omega)

theorem bucket_disjoint (hbase : c.Placed base) (hi : i < c.count) (hj : j < c.count)
    (hij : i ≠ j) :
    Disjoint (region (c.bucket base i) c.width) (region (c.bucket base j) c.width) := by
  have hiend := bucket_end_le hi
  have hjend := bucket_end_le hj
  have hwidth := c.width_pos
  have hwrap := hbase.no_wrap
  rw [disjoint_region_iff, toNat_bucket hbase hi, toNat_bucket hbase hj]
  · rcases Nat.lt_or_gt_of_ne hij with hlt | hgt
    · have hmul : (i + 1) * c.width ≤ j * c.width := Nat.mul_le_mul_right _ hlt
      rw [Nat.succ_mul] at hmul
      omega
    · have hmul : (j + 1) * c.width ≤ i * c.width := Nat.mul_le_mul_right _ hgt
      rw [Nat.succ_mul] at hmul
      omega
  · rw [toNat_bucket hbase hi]
    omega
  · rw [toNat_bucket hbase hj]
    omega
  · exact hwidth
  · exact hwidth

theorem bucket_injective (hbase : c.Placed base) (hi : i < c.count) (hj : j < c.count)
    (heq : c.bucket base i = c.bucket base j) : i = j := by
  by_contra hij
  have hdisj := bucket_disjoint hbase hi hj hij
  rw [heq, disjoint_self] at hdisj
  have hmem : c.bucket base j ∈ region (c.bucket base j) c.width := self_mem_region c.width_pos
  rw [hdisj] at hmem
  exact hmem

theorem nodup_buckets (hbase : c.Placed base) : (c.buckets base).Nodup := by
  rw [buckets, List.nodup_map_iff_inj_on List.nodup_range]
  intro i hi j hj heq
  exact bucket_injective hbase (List.mem_range.mp hi) (List.mem_range.mp hj) heq

/-- Blocks in their places, none over another. -/
structure Blocks (c : Carving) (bases : List Word) : Prop where
  placed : ∀ base ∈ bases, c.Placed base
  disjoint : bases.Pairwise fun b b' => Disjoint (region b c.size) (region b' c.size)

variable {bases : List Word}

theorem blocks_nil : c.Blocks [] :=
  ⟨nofun, .nil⟩

theorem Blocks.cons (h : c.Blocks bases) (hbase : c.Placed base)
    (hdisj : ∀ b ∈ bases, Disjoint (region base c.size) (region b c.size)) :
    c.Blocks (base :: bases) :=
  ⟨List.forall_mem_cons.mpr ⟨hbase, h.placed⟩, .cons hdisj h.disjoint⟩

theorem blocks_singleton (hbase : c.Placed base) : c.Blocks [base] :=
  blocks_nil.cons hbase nofun

theorem mem_stock : p ∈ c.stock bases ↔ ∃ b ∈ bases, ∃ i < c.count, c.bucket b i = p := by
  simp [stock, mem_buckets]

theorem Blocks.ne_null (h : c.Blocks bases) (hp : p ∈ c.stock bases) : p ≠ 0 := by
  obtain ⟨b, hb, i, hi, rfl⟩ := mem_stock.mp hp
  exact bucket_ne_null (h.placed b hb) hi

/-- Every bucket lies in one of the blocks, after its header. -/
theorem Blocks.place (h : c.Blocks bases) (hp : p ∈ c.stock bases) :
    ∃ b ∈ bases, b.toNat + c.header ≤ p.toNat ∧ p.toNat + c.width ≤ b.toNat + c.size := by
  obtain ⟨b, hb, i, hi, rfl⟩ := mem_stock.mp hp
  have hend := bucket_end_le hi
  refine ⟨b, hb, ?_, ?_⟩ <;> rw [toNat_bucket (h.placed b hb) hi] <;> omega

theorem Blocks.dvd_bucket (h : c.Blocks bases) (hp : p ∈ c.stock bases) {a : ℕ}
    (hbases : ∀ b ∈ bases, a ∣ b.toNat) (hheader : a ∣ c.header) (hwidth : a ∣ c.width) :
    a ∣ p.toNat := by
  obtain ⟨b, hb, i, hi, rfl⟩ := mem_stock.mp hp
  rw [toNat_bucket (h.placed b hb) hi]
  exact Nat.dvd_add (hbases b hb) (Nat.dvd_add hheader (hwidth.mul_left i))

/-- A bucket does not reach out of the blocks. -/
theorem Blocks.region_subset (h : c.Blocks bases) (hp : p ∈ c.stock bases) :
    ∃ b ∈ bases, region p c.width ⊆ region b c.size := by
  obtain ⟨b, hb, i, hi, rfl⟩ := mem_stock.mp hp
  exact ⟨b, hb, region_bucket_subset (h.placed b hb) hi⟩

/-- Two different buckets, of one block or of two, have no byte in common. -/
theorem Blocks.bucket_disjoint (h : c.Blocks bases) (hp : p ∈ c.stock bases)
    (hq : q ∈ c.stock bases) (hpq : p ≠ q) :
    Disjoint (region p c.width) (region q c.width) := by
  obtain ⟨b, hb, i, hi, rfl⟩ := mem_stock.mp hp
  obtain ⟨b', hb', j, hj, rfl⟩ := mem_stock.mp hq
  by_cases hbb : b = b'
  · subst hbb
    refine Carving.bucket_disjoint (h.placed b hb) hi hj fun hij => hpq ?_
    rw [hij]
  · have : Std.Symm fun b b' => Disjoint (region b c.size) (region b' c.size) :=
      ⟨fun _ _ hd => hd.symm⟩
    have hblocks := h.disjoint.forall hb hb' hbb
    exact hblocks.mono (region_bucket_subset (h.placed b hb) hi)
      (region_bucket_subset (h.placed b' hb') hj)

theorem Blocks.nodup_stock (h : c.Blocks bases) : (c.stock bases).Nodup := by
  rw [stock, List.nodup_flatMap]
  refine ⟨fun b hb => nodup_buckets (h.placed b hb), ?_⟩
  apply h.disjoint.imp_of_mem
  intro b b' hb hb' hdisj p hp hp'
  obtain ⟨i, hi, rfl⟩ := mem_buckets.mp hp
  obtain ⟨j, hj, heq⟩ := mem_buckets.mp hp'
  have hmem : c.bucket b i ∈ region (c.bucket b i) c.width := self_mem_region c.width_pos
  have hleft := region_bucket_subset (h.placed b hb) hi hmem
  rw [← heq] at hmem
  have hright := region_bucket_subset (h.placed b' hb') hj hmem
  rw [heq] at hright
  exact Set.disjoint_left.mp hdisj hleft hright

end Carving

end Layout
