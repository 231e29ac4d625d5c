import MemoryBank.SizeClasses
import Mathlib.Algebra.Group.Nat.Defs
import Mathlib.Order.Interval.Set.Defs
import Mathlib.Order.Monotone.Basic

/-!
# Where the size classes begin

The class of a size is found by a division and a logarithm, both rounded down. In exact arithmetic,
whether or not the products are addresses, class `k` begins at the base times `2 ^ k`.

* `SizeClasses.le_classOf_iff`: which sizes have at least a given class.
* `SizeClasses.classOf_mono`: a larger size has no lower class.
* `SizeClasses.ofCount_partitions`: what each class holds, for every legal base and number of
  classes.
-/

namespace MemoryBank.SizeClasses

variable {c : SizeClasses} {k : ℕ}

/-- Rounding down twice does not miss a power of two. -/
theorem le_log2_div_iff {n b : ℕ} (hb : 0 < b) (hk : 0 < k) :
    k ≤ (n / b).log2 ↔ b * 2 ^ k ≤ n := by
  rw [Nat.mul_comm, ← Nat.le_div_iff_mul_le hb]
  rcases Nat.eq_zero_or_pos (n / b) with hzero | hpos
  · have := Nat.two_pow_pos k
    rw [hzero, Nat.log2_zero]
    omega
  · exact Nat.le_log2 hpos.ne'

/-- **Where a class begins.** -/
theorem le_classOf_iff (size : ℕ) (hk : 0 < k) (hc : k < c.count) :
    k ≤ c.classOf size ↔ c.base * 2 ^ k ≤ size := by
  rw [classOf, Nat.le_min, le_log2_div_iff c.base_pos hk]
  exact and_iff_left (Nat.le_sub_one_of_lt hc)

theorem classOf_lt_iff (size : ℕ) (hk : 0 < k) (hc : k < c.count) :
    c.classOf size < k ↔ size < c.base * 2 ^ k := by
  rw [← not_le, le_classOf_iff size hk hc, not_le]

/-- A larger size has no lower class. -/
theorem classOf_mono (c : SizeClasses) : Monotone c.classOf := by
  intro m n h
  rcases Nat.eq_zero_or_pos (c.classOf m) with hzero | hpos
  · omega
  · have hm := (le_classOf_iff _ hpos (c.classOf_lt m)).1 le_rfl
    exact (le_classOf_iff _ hpos (c.classOf_lt m)).2 (hm.trans h)

/-- What each class of a division holds. -/
structure Partitions (c : SizeClasses) : Prop where
  lt_count : ∀ size, c.classOf size < c.count
  le_iff : ∀ size k, 0 < k → k < c.count → (k ≤ c.classOf size ↔ c.base * 2 ^ k ≤ size)
  mono : Monotone c.classOf
  first : 1 < c.count → {size | c.classOf size = 0} = Set.Iio (2 * c.base)
  between : ∀ k, 0 < k → k + 1 < c.count →
    {size | c.classOf size = k} = Set.Ico (c.base * 2 ^ k) (c.base * 2 ^ (k + 1))
  last : 1 < c.count →
    {size | c.classOf size = c.count - 1} = Set.Ici (c.base * 2 ^ (c.count - 1))

theorem partitions (c : SizeClasses) : c.Partitions where
  lt_count := c.classOf_lt
  le_iff size _ := le_classOf_iff size
  mono := c.classOf_mono
  first hc := by
    ext size
    have hone := classOf_lt_iff size Nat.one_pos hc
    rw [Set.mem_ofPred_eq, Set.mem_Iio, Nat.mul_comm 2, ← Nat.lt_one_iff, hone, Nat.pow_one]
  between k hk hc := by
    ext size
    have hlow := le_classOf_iff size hk (Nat.lt_of_succ_lt hc)
    have hhigh := classOf_lt_iff size k.succ_pos hc
    rw [Set.mem_ofPred_eq, Set.mem_Ico, ← hlow, ← hhigh]
    omega
  last hc := by
    ext size
    have hlow := le_classOf_iff (c := c) (k := c.count - 1) size (by omega) (by omega)
    have hlt := c.classOf_lt size
    rw [Set.mem_ofPred_eq, Set.mem_Ici, ← hlow]
    omega

/-- **The classes have exact bounds**, whatever legal base and number of classes they are made
with. -/
theorem ofCount_partitions {base count : ℕ} (hb : 0 < base) (hc : 0 < count) (hl : count < 64) :
    ∃ c, ofCount base count = .ok c ∧ c.base = base ∧ c.count = count ∧ c.Partitions :=
  ⟨⟨base, count, hb, hc, hl⟩, by rw [ofCount, dif_pos hb, dif_pos ⟨hc, hl⟩], rfl, rfl,
    partitions _⟩

/-- A base that is no power of two, with a last class that begins beyond the last address. -/
theorem ofCount_partitions_of_five :
    ∃ c, ofCount 5 63 = .ok c ∧ c.base = 5 ∧ c.count = 63 ∧ c.Partitions :=
  ofCount_partitions (by decide) (by decide) (by decide)

end MemoryBank.SizeClasses
