import Mathlib.Algebra.Order.BigOperators.Ring.Finset
import Mathlib.Algebra.Order.Field.Basic

/-!
# Rows and columns in turn

`rowNorm` divides the entries of a matrix by their row's sum, `colNorm` by their column's.
The sums have `eps` added, so neither result is stochastic; but a column divided last sums
to at most 1 (`rounds_spec`), whatever the rows do, and mixing vectors through such
columns makes no entry larger than the largest (`abs_mix_le`).

A matrix is a function of two indices, of which those in `s` count. What the functions do
outside of `s` is not seen (`iterate_agree`).

* `rowNorm_congr`, `colNorm_congr`, `rounds_congr`, `mix_congr`: only the entries in `s` matter.
* `Nonneg.rowNorm`, `Nonneg.colNorm`: no entry becomes negative.
* `colsLeOne_colNorm`: what a division by columns comes to.
-/

namespace Colibri.Sinkhorn

variable {ι α : Type} [Field α]

/-- Entries over the sum of their row. -/
def rowNorm (s : Finset ι) (eps : α) (M : ι → ι → α) (j k : ι) : α :=
  M j k * (1 / (∑ i ∈ s, M j i + eps))

/-- Entries over the sum of their column. -/
def colNorm (s : Finset ι) (eps : α) (M : ι → ι → α) (j k : ι) : α :=
  M j k * (1 / (∑ i ∈ s, M i k + eps))

def round (s : Finset ι) (eps : α) (M : ι → ι → α) : ι → ι → α :=
  colNorm s eps (rowNorm s eps M)

/-- Columns first, and then `n` times rows and columns. -/
def rounds (s : Finset ι) (eps : α) (n : Nat) (M : ι → ι → α) : ι → ι → α :=
  (round s eps)^[n] (colNorm s eps M)

/-- The vectors `r` mixed through column `k`. -/
def mix (s : Finset ι) (C : ι → ι → α) (r : ι → α) (k : ι) : α := ∑ j ∈ s, C j k * r j

/-! ## Only the entries in `s` count -/

/-- `M` and `N` have the same entries in `s`. -/
def AgreeOn (s : Finset ι) (M N : ι → ι → α) : Prop := ∀ j ∈ s, ∀ k ∈ s, M j k = N j k

variable {s : Finset ι} {eps : α} {M N : ι → ι → α}

omit [Field α] in
theorem AgreeOn.trans {L : ι → ι → α} (h : AgreeOn s L M) (h' : AgreeOn s M N) :
    AgreeOn s L N :=
  fun j hj k hk => (h j hj k hk).trans (h' j hj k hk)

theorem rowNorm_congr (h : AgreeOn s M N) : AgreeOn s (rowNorm s eps M) (rowNorm s eps N) := by
  intro j hj k hk
  have hsum : ∑ i ∈ s, M j i = ∑ i ∈ s, N j i := Finset.sum_congr rfl (h j hj)
  rw [rowNorm, rowNorm, h j hj k hk, hsum]

theorem colNorm_congr (h : AgreeOn s M N) : AgreeOn s (colNorm s eps M) (colNorm s eps N) := by
  intro j hj k hk
  have hsum : ∑ i ∈ s, M i k = ∑ i ∈ s, N i k := Finset.sum_congr rfl fun i hi => h i hi k hk
  rw [colNorm, colNorm, h j hj k hk, hsum]

/-- A program's rounds `f` that do to the entries in `s` what `round` does. -/
theorem iterate_agree {f : (ι → ι → α) → ι → ι → α} (hf : ∀ M, AgreeOn s (f M) (round s eps M))
    (h : AgreeOn s M N) (n : Nat) : AgreeOn s (f^[n] M) ((round s eps)^[n] N) := by
  induction n generalizing M N with
  | zero => exact h
  | succ n ih =>
    rw [Function.iterate_succ_apply, Function.iterate_succ_apply]
    exact ih ((hf M).trans (colNorm_congr (rowNorm_congr h)))

theorem rounds_congr (h : AgreeOn s M N) (n : Nat) :
    AgreeOn s (rounds s eps n M) (rounds s eps n N) :=
  iterate_agree (fun _ _ _ _ _ => rfl) (colNorm_congr h) n

theorem mix_congr {r t : ι → α} {k : ι} (h : AgreeOn s M N) (hr : ∀ j ∈ s, r j = t j)
    (hk : k ∈ s) : mix s M r k = mix s N t k :=
  Finset.sum_congr rfl fun j hj => by rw [h j hj k hk, hr j hj]

/-! ## The columns of the result -/

variable [LinearOrder α] [IsStrictOrderedRing α]

/-- No entry in `s` is negative. -/
def Nonneg (s : Finset ι) (M : ι → ι → α) : Prop := ∀ j ∈ s, ∀ k ∈ s, 0 ≤ M j k

/-- The columns in `s` sum to at most 1. -/
def ColsLeOne (s : Finset ι) (M : ι → ι → α) : Prop := ∀ k ∈ s, ∑ j ∈ s, M j k ≤ 1

theorem Nonneg.rowNorm (h : Nonneg s M) (heps : 0 ≤ eps) : Nonneg s (rowNorm s eps M) := by
  intro j hj k hk
  have hsum : 0 ≤ ∑ i ∈ s, M j i := Finset.sum_nonneg (h j hj)
  exact mul_nonneg (h j hj k hk) (one_div_nonneg.mpr (add_nonneg hsum heps))

theorem Nonneg.colNorm (h : Nonneg s M) (heps : 0 ≤ eps) : Nonneg s (colNorm s eps M) := by
  intro j hj k hk
  have hsum : 0 ≤ ∑ i ∈ s, M i k := Finset.sum_nonneg fun i hi => h i hi k hk
  exact mul_nonneg (h j hj k hk) (one_div_nonneg.mpr (add_nonneg hsum heps))

/-- **Columns that were divided by their sums sum to at most 1.** -/
theorem colsLeOne_colNorm (h : Nonneg s M) (heps : 0 ≤ eps) : ColsLeOne s (colNorm s eps M) := by
  intro k hk
  have hsum : 0 ≤ ∑ i ∈ s, M i k := Finset.sum_nonneg fun i hi => h i hi k hk
  calc ∑ j ∈ s, M j k * (1 / (∑ i ∈ s, M i k + eps))
      = (∑ j ∈ s, M j k) / (∑ i ∈ s, M i k + eps) := by
        rw [← Finset.sum_mul, mul_one_div]
    _ ≤ 1 := div_le_one_of_le₀ (le_add_of_nonneg_right heps) (add_nonneg hsum heps)

/-- However many rounds: nonnegative entries, and columns that sum to at most 1. -/
theorem rounds_spec (h : Nonneg s M) (heps : 0 ≤ eps) (n : Nat) :
    Nonneg s (rounds s eps n M) ∧ ColsLeOne s (rounds s eps n M) := by
  rw [rounds]
  have hfirst : Nonneg s (colNorm s eps M) ∧ ColsLeOne s (colNorm s eps M) :=
    ⟨h.colNorm heps, colsLeOne_colNorm h heps⟩
  generalize colNorm s eps M = C at hfirst
  induction n generalizing C with
  | zero => exact hfirst
  | succ n ih =>
    rw [Function.iterate_succ_apply]
    have hrows := hfirst.1.rowNorm heps
    exact ih _ ⟨hrows.colNorm heps, colsLeOne_colNorm hrows heps⟩

/-- A mix of what is bounded by `b`. -/
theorem abs_mix_le {r : ι → α} {b : α} {k : ι} (hC : Nonneg s M) (hcols : ColsLeOne s M)
    (hk : k ∈ s) (hb : 0 ≤ b) (hr : ∀ j ∈ s, |r j| ≤ b) : |mix s M r k| ≤ b := by
  calc |∑ j ∈ s, M j k * r j| ≤ ∑ j ∈ s, |M j k * r j| := Finset.abs_sum_le_sum_abs _ _
    _ ≤ ∑ j ∈ s, M j k * b := Finset.sum_le_sum fun j hj => by
        rw [abs_mul, abs_of_nonneg (hC j hj k hk)]
        exact mul_le_mul_of_nonneg_left (hr j hj) (hC j hj k hk)
    _ = (∑ j ∈ s, M j k) * b := (Finset.sum_mul ..).symm
    _ ≤ 1 * b := mul_le_mul_of_nonneg_right (hcols k hk) hb
    _ = b := one_mul b

end Colibri.Sinkhorn
