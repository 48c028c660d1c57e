import Mathlib.Algebra.BigOperators.Intervals
import Mathlib.Algebra.BigOperators.Ring.Finset
import Mathlib.Tactic.Ring

/-!
# The Walsh transform

The sign of `i` and `j` is minus one to the number of bits they have in common. `transform m f`
is the product of the vector `f` of length `2 ^ m` with the matrix of the signs. The highest
bit splits it into two transforms of half the length (`transform_succ`), from which follow the
two facts here: a stage of butterflies joins the transforms of neighbouring blocks to those of
blocks of twice the length (`stage_blockTransform`), and inner products are kept but for the
factor `2 ^ m` (`transform_inner`).
-/

namespace Colibri.Walsh

open Finset

/-- The number of bits that are set. -/
def popcount (n : Nat) : Nat := ∑ k ∈ range n, if n.testBit k then 1 else 0

/-- Bits past the highest are not set. -/
theorem popcount_of_lt {n w : Nat} (h : n < 2 ^ w) :
    popcount n = ∑ k ∈ range w, if n.testBit k then 1 else 0 := by
  have hzero : ∀ v, n < 2 ^ v → ∀ k, v ≤ k → (if n.testBit k then 1 else 0) = 0 := by
    intro v hv k hk
    rw [Nat.testBit_lt_two_pow (Nat.lt_of_lt_of_le hv (Nat.pow_le_pow_right (by decide) hk))]
    rfl
  have hext : ∀ v u, v ≤ u → n < 2 ^ v → (∑ k ∈ range v, if n.testBit k then 1 else 0)
      = ∑ k ∈ range u, if n.testBit k then 1 else 0 := by
    intro v u hvu hv
    refine sum_subset (range_subset_range.mpr hvu) fun k _ hk => hzero v hv k ?_
    rw [mem_range] at hk
    omega
  rw [popcount, hext n (max n w) (Nat.le_max_left _ _) Nat.lt_two_pow_self,
    hext w (max n w) (Nat.le_max_right _ _) h]

section

variable {α : Type} [CommRing α]

/-! ## Signs -/

/-- Minus one to the number of bits in common. -/
def sign (α : Type) [CommRing α] (i j : Nat) : α := (-1) ^ popcount (i &&& j)

/-- The sign of a bit. -/
def bitSign (α : Type) [CommRing α] (b : Bool) : α := if b then -1 else 1

theorem sign_of_lt {i j m : Nat} (hj : j < 2 ^ m) :
    sign α i j = (-1) ^ ∑ k ∈ range m, if i.testBit k && j.testBit k then 1 else 0 := by
  rw [sign, popcount_of_lt (Nat.and_lt_two_pow i hj)]
  simp only [Nat.testBit_and]

/-- A bit more in `j` counts if `i` has it. -/
theorem sign_two_pow_add {i j m : Nat} (hj : j < 2 ^ m) :
    sign α i (2 ^ m + j) = bitSign α (i.testBit m) * sign α i j := by
  have hlt : 2 ^ m + j < 2 ^ (m + 1) := by
    rw [Nat.pow_succ]
    omega
  have hlow : ∀ k ∈ range m, (if i.testBit k && (2 ^ m + j).testBit k then 1 else 0)
      = if i.testBit k && j.testBit k then 1 else 0 := fun k hk => by
    rw [Nat.testBit_two_pow_add_gt (mem_range.mp hk)]
  have hhigh : (2 ^ m + j).testBit m = true := by
    rw [Nat.testBit_two_pow_add_eq, Nat.testBit_lt_two_pow hj]
    rfl
  rw [sign_of_lt hlt, sign_of_lt hj, sum_range_succ, sum_congr rfl hlow, hhigh, Bool.and_true,
    pow_add, mul_comm, bitSign]
  cases i.testBit m with
  | false => rw [if_neg Bool.false_ne_true, if_neg Bool.false_ne_true, pow_zero]
  | true => rw [if_pos rfl, if_pos rfl, pow_one]

theorem sign_two_pow_add_left {i j m : Nat} (hj : j < 2 ^ m) :
    sign α (2 ^ m + i) j = sign α i j := by
  rw [sign_of_lt hj, sign_of_lt hj]
  refine congrArg _ (sum_congr rfl fun k hk => ?_)
  rw [Nat.testBit_two_pow_add_gt (mem_range.mp hk)]

/-! ## The transform -/

/-- The product with the matrix of signs. -/
def transform (m : Nat) (f : Nat → α) (i : Nat) : α := ∑ j ∈ range (2 ^ m), sign α i j * f j

theorem transform_zero (f : Nat → α) (i : Nat) : transform 0 f i = f 0 := by
  have hnone : popcount 0 = 0 := rfl
  rw [transform, Nat.pow_zero, sum_range_one, sign, Nat.and_zero, hnone, pow_zero, one_mul]

/-- The two halves of a vector. -/
theorem transform_succ (m : Nat) (f : Nat → α) (i : Nat) :
    transform (m + 1) f i
      = transform m f i
        + bitSign α (i.testBit m) * transform m (fun j => f (2 ^ m + j)) i := by
  unfold transform
  rw [Nat.pow_succ, Nat.mul_two, sum_range_add, mul_sum]
  refine congrArg _ (sum_congr rfl fun j hj => ?_)
  rw [sign_two_pow_add (mem_range.mp hj), mul_assoc]

theorem transform_two_pow_add (m : Nat) (f : Nat → α) (i : Nat) :
    transform m f (2 ^ m + i) = transform m f i :=
  sum_congr rfl fun j hj => by rw [sign_two_pow_add_left (mem_range.mp hj)]

theorem transform_low {m i : Nat} (f : Nat → α) (hi : i < 2 ^ m) :
    transform (m + 1) f i = transform m f i + transform m (fun j => f (2 ^ m + j)) i := by
  rw [transform_succ, Nat.testBit_lt_two_pow hi, bitSign, if_neg Bool.false_ne_true, one_mul]

theorem transform_high {m i : Nat} (f : Nat → α) (hi : i < 2 ^ m) :
    transform (m + 1) f (2 ^ m + i)
      = transform m f i - transform m (fun j => f (2 ^ m + j)) i := by
  rw [transform_succ, Nat.testBit_two_pow_add_eq, Nat.testBit_lt_two_pow hi, Bool.not_false,
    bitSign, if_pos rfl, transform_two_pow_add, transform_two_pow_add]
  ring

/-! ## Stages of butterflies -/

/-- The transforms of the blocks of length `2 ^ m`. -/
def blockTransform (m : Nat) (f : Nat → α) (i : Nat) : α :=
  transform m (fun j => f (i / 2 ^ m * 2 ^ m + j)) (i % 2 ^ m)

/-- A butterfly for every two entries `h` apart in a block of length `2 * h`. -/
def stage (h : Nat) (f : Nat → α) (i : Nat) : α :=
  if i % (2 * h) < h then f i + f (i + h) else f (i - h) - f i

theorem blockTransform_zero (f : Nat → α) (i : Nat) : blockTransform 0 f i = f i := by
  rw [blockTransform, transform_zero, Nat.pow_zero, Nat.div_one, Nat.mul_one, Nat.add_zero]

theorem blockTransform_of_lt {m i : Nat} (f : Nat → α) (hi : i < 2 ^ m) :
    blockTransform m f i = transform m f i := by
  rw [blockTransform, Nat.div_eq_of_lt hi, Nat.mod_eq_of_lt hi, Nat.zero_mul]
  simp only [Nat.zero_add]

/-- Where an entry is, by its block and its place in the block. -/
theorem blockTransform_at {m q r : Nat} (f : Nat → α) (hr : r < 2 ^ m) :
    blockTransform m f (q * 2 ^ m + r) = transform m (fun j => f (q * 2 ^ m + j)) r := by
  have hdiv : (q * 2 ^ m + r) / 2 ^ m = q := by
    rw [Nat.mul_comm, Nat.mul_add_div (Nat.two_pow_pos m), Nat.div_eq_of_lt hr, Nat.add_zero]
  have hmod : (q * 2 ^ m + r) % 2 ^ m = r := by
    rw [Nat.mul_comm, Nat.mul_add_mod, Nat.mod_eq_of_lt hr]
  rw [blockTransform, hdiv, hmod]

/-- **A stage joins the transforms of two blocks to that of both.** -/
theorem stage_blockTransform (m : Nat) (f : Nat → α) (i : Nat) :
    stage (2 ^ m) (blockTransform m f) i = blockTransform (m + 1) f i := by
  obtain ⟨q, r, hi, hr⟩ : ∃ q r, i = q * 2 ^ (m + 1) + r ∧ r < 2 ^ (m + 1) :=
    ⟨i / 2 ^ (m + 1), i % 2 ^ (m + 1), (Nat.div_add_mod' _ _).symm,
      Nat.mod_lt _ (Nat.two_pow_pos _)⟩
  have htwo : 2 * 2 ^ m = 2 ^ (m + 1) := by rw [Nat.pow_succ, Nat.mul_comm]
  have hmod : i % (2 * 2 ^ m) = r := by
    rw [htwo, hi, Nat.mul_comm, Nat.mul_add_mod, Nat.mod_eq_of_lt hr]
  have hfirst : q * 2 ^ (m + 1) = 2 * q * 2 ^ m := by
    rw [Nat.pow_succ]
    ring
  have hsecond : (fun j => f (q * 2 ^ (m + 1) + (2 ^ m + j)))
      = fun j => f ((2 * q + 1) * 2 ^ m + j) := by
    funext j
    rw [hfirst]
    congr 1
    ring
  rw [stage, hmod, hi, blockTransform_at f hr]
  by_cases hlow : r < 2 ^ m
  · -- the entry is in the first of the two blocks, its partner in the second
    have hpartner : q * 2 ^ (m + 1) + r + 2 ^ m = (2 * q + 1) * 2 ^ m + r := by
      rw [hfirst]
      ring
    rw [if_pos hlow, transform_low _ hlow, hsecond, hpartner, blockTransform_at f hlow, hfirst,
      blockTransform_at f hlow]
  · obtain ⟨s, rfl⟩ : ∃ s, r = 2 ^ m + s := ⟨r - 2 ^ m, by omega⟩
    have hs : s < 2 ^ m := by omega
    have hself : q * 2 ^ (m + 1) + (2 ^ m + s) = (2 * q + 1) * 2 ^ m + s := by
      rw [hfirst]
      ring
    have hpartner : (2 * q + 1) * 2 ^ m + s - 2 ^ m = 2 * q * 2 ^ m + s := by
      rw [Nat.add_mul, Nat.one_mul]
      omega
    rw [if_neg hlow, transform_high _ hs, hsecond, hself, hpartner, blockTransform_at f hs,
      blockTransform_at f hs, hfirst]

/-! ## Inner products -/

/-- **The transform keeps inner products**, up to the length of the vectors. -/
theorem transform_inner (m : Nat) (f g : Nat → α) :
    ∑ i ∈ range (2 ^ m), transform m f i * transform m g i
      = 2 ^ m * ∑ i ∈ range (2 ^ m), f i * g i := by
  induction m generalizing f g with
  | zero =>
    rw [Nat.pow_zero, sum_range_one, sum_range_one, transform_zero, transform_zero, pow_zero,
      one_mul]
  | succ m ih =>
    have hlow : ∀ i ∈ range (2 ^ m), transform (m + 1) f i * transform (m + 1) g i
        + transform (m + 1) f (2 ^ m + i) * transform (m + 1) g (2 ^ m + i)
        = 2 * (transform m f i * transform m g i)
          + 2 * (transform m (fun j => f (2 ^ m + j)) i
            * transform m (fun j => g (2 ^ m + j)) i) := by
      intro i hi
      rw [transform_low f (mem_range.mp hi), transform_low g (mem_range.mp hi),
        transform_high f (mem_range.mp hi), transform_high g (mem_range.mp hi)]
      ring
    rw [Nat.pow_succ, Nat.mul_two, sum_range_add, ← sum_add_distrib, sum_congr rfl hlow,
      sum_add_distrib, ← mul_sum, ← mul_sum, ih, ih, sum_range_add, pow_succ]
    ring

end

end Colibri.Walsh
