import Colibri.Lib.Nearest
import Mathlib.Data.Int.Log
import Mathlib.Data.Rat.Floor

/-!
# Rounding to a binary format

A format has numbers of `prec` binary digits. `Format.last` is the weight of the last digit
a number has in it: the digits are counted from the leading one, and the weight is
`2 ^ emin` at the least, so small numbers have fewer of them. `Format.round` rounds to the
nearest multiple of that weight, in the middle to the even one. What is not below
`2 ^ emax` is cut down to it, and stands for an infinity.

> round_digits: what has few enough digits is not rounded
> round_nonneg: rounding keeps the sign

`binary32` is the format of an `f32`. Everything computes: `Int.log` finds the leading
digit of a rational.
-/

namespace Colibri.Binary

open Nearest

structure Format where
  prec : ℕ
  emin : ℤ
  emax : ℤ

/-- 24 digits; the smallest subnormal is `2 ^ -149`. -/
def binary32 : Format := ⟨24, -149, 128⟩

/-- The exponent of the last digit of a number. -/
def Format.last (f : Format) (x : ℚ) : ℤ := max (Int.log 2 |x| + 1 - f.prec) f.emin

/-- To the nearest number of the format, in the middle to the even one. -/
def Format.round (f : Format) (x : ℚ) : ℚ :=
  let y : ℚ := roundTiesEven (x / 2 ^ f.last x) * 2 ^ f.last x
  max (-2 ^ f.emax) (min (2 ^ f.emax) y)

variable (f : Format) {x : ℚ}

theorem round_nonneg (h : 0 ≤ x) : 0 ≤ f.round x := by
  have hunit : (0 : ℚ) < 2 ^ f.last x := zpow_pos (by norm_num) _
  have hint : 0 ≤ roundTiesEven (x / 2 ^ f.last x) :=
    (le_roundTiesEven_iff rfl).mpr (by push_cast; linarith [div_nonneg h hunit.le])
  have hcast : (0 : ℚ) ≤ roundTiesEven (x / 2 ^ f.last x) := by exact_mod_cast hint
  exact le_max_of_le_right
    (le_min (zpow_pos (by norm_num) _).le (mul_nonneg hcast hunit.le))

/-- The last digit of a number that is written with few enough digits is among them. -/
theorem last_le {n e : ℤ} (hn : |n| < 2 ^ f.prec) (he : f.emin ≤ e) (hpos : n ≠ 0) :
    f.last (n * 2 ^ e) ≤ e := by
  have hunit : (0 : ℚ) < 2 ^ e := zpow_pos (by norm_num) _
  have hnq : (0 : ℚ) < |(n : ℚ)| := abs_pos.mpr (by exact_mod_cast hpos)
  have habs : |(n : ℚ) * 2 ^ e| = |(n : ℚ)| * 2 ^ e := by rw [abs_mul, abs_of_pos hunit]
  have hlt : |(n : ℚ) * 2 ^ e| < ((2 : ℕ) : ℚ) ^ ((f.prec : ℤ) + e) := by
    have hcast : |(n : ℚ)| < 2 ^ f.prec := by exact_mod_cast hn
    have hpow : ((2 : ℕ) : ℚ) ^ ((f.prec : ℤ) + e) = 2 ^ f.prec * 2 ^ e := by
      rw [Nat.cast_ofNat, zpow_add₀ (by norm_num), zpow_natCast]
    rw [habs, hpow]
    exact mul_lt_mul_of_pos_right hcast hunit
  have hlog := (Int.lt_zpow_iff_log_lt Nat.one_lt_two (habs ▸ mul_pos hnq hunit)).mp hlt
  unfold Format.last
  omega

/-- **What has few enough digits is not rounded.** -/
theorem round_digits {n e : ℤ} (hn : |n| < 2 ^ f.prec) (he : f.emin ≤ e)
    (hmax : |(n : ℚ) * 2 ^ e| ≤ 2 ^ f.emax) : f.round (n * 2 ^ e) = n * 2 ^ e := by
  obtain ⟨hlow, hhigh⟩ := abs_le.mp hmax
  have hexact : (roundTiesEven ((n : ℚ) * 2 ^ e / 2 ^ f.last (n * 2 ^ e)) : ℚ)
      * 2 ^ f.last (n * 2 ^ e) = n * 2 ^ e := by
    rcases eq_or_ne n 0 with rfl | hpos
    · have hzero := roundTiesEven_intCast (K := ℚ) 0
      rw [Int.cast_zero] at hzero
      rw [Int.cast_zero, zero_mul, zero_div, hzero, Int.cast_zero, zero_mul]
    · -- the number in units of its last digit
      obtain ⟨d, hd⟩ := Int.le.dest (last_le f hn he hpos)
      generalize f.last (n * 2 ^ e) = l at hd ⊢
      have hunit : (2 : ℚ) ^ l ≠ 0 := zpow_ne_zero _ (by norm_num)
      have hunits : (n : ℚ) * 2 ^ e = ((n * 2 ^ d : ℤ) : ℚ) * 2 ^ l := by
        rw [← hd, zpow_add₀ (by norm_num), zpow_natCast]
        push_cast
        ring
      rw [hunits, mul_div_cancel_right₀ _ hunit, roundTiesEven_intCast]
  unfold Format.round
  dsimp only
  rw [hexact, min_eq_right hhigh, max_eq_right hlow]

end Colibri.Binary
