import Colibri.Lib.Binary
import Colibri.Moe.Formats
import Mathlib.Tactic.LinearCombination

/-!
# Rounding a block scale

The scale of a block is rounded to `e4m3` in two places. The quantizer rounds it to a byte
(`float_to_e4m3`), and takes the even mantissa when the scale is in the middle of two. The
simulation searches the values there are (`ue4m3_round`), and takes the lower one there.

> floatToE4m3_spec: the quantizer rounds to nearest, ties to the even byte
> ue4m3Round_spec: the simulation rounds to nearest, ties down
> scale_agree_iff: they differ in the middle behind an odd byte, and nowhere else

The values of the bytes up to `0x7E` are a grid (`e4m3Grid`). The one behind exponent `e` and
mantissa `m` is `8 * (e + 7) + m`, also where the mantissa carries.

`FloatArith` is the `f32` arithmetic that the quantizer and its simulation share. Products and
quotients are rounded; the differences are not, since they are of numbers so close together
(at most a factor of two apart where it matters) that an `f32` holds them.
-/

namespace Colibri.Convert

open Nearest
open Moe.Formats (e4m3ToF32 e2m1)

/-- The `f32` operations whose results are rounded: `rnd` is what becomes of a product or a
quotient, an infinity being a number too. The product of a weight's level and a scale has few
digits and is exact. `log2().floor()` may be one too large just below a power of two. -/
structure FloatArith where
  rnd : ℚ → ℚ
  log2Floor : ℚ → ℤ
  rnd_nonneg : ∀ x, 0 ≤ x → 0 ≤ rnd x
  rnd_level : ∀ l ∈ e2m1, ∀ k < 127, rnd (l * e4m3ToF32 (UInt8.ofNat k))
    = l * e4m3ToF32 (UInt8.ofNat k)
  log2Floor_le : ∀ a, 0 < a → 2 ^ log2Floor a * (31 / 32) ≤ a
  lt_log2Floor : ∀ a, 0 < a → a < 2 ^ (log2Floor a + 1)

def FloatArith.mul (A : FloatArith) (a b : ℚ) : ℚ := A.rnd (a * b)

def FloatArith.div (A : FloatArith) (a b : ℚ) : ℚ := A.rnd (a / b)

/-! ## The two roundings -/

def floatToE4m3 (A : FloatArith) (x : ℚ) : UInt8 :=
  let sign : Nat := if x < 0 then 0x80 else 0
  let a := |x|
  if ¬ 0 < a then UInt8.ofNat sign
  else if 448 ≤ a then UInt8.ofNat (sign + 0x7E)
  else
    let e := A.log2Floor a
    if e < -6 then
      let m := roundTiesEven (a * 512)
      if 8 ≤ m then UInt8.ofNat (sign + 0x08) else UInt8.ofNat (sign + (max m 0).toNat)
    else
      let m := roundTiesEven ((a * 2 ^ (-e) - 1) * 8)
      -- the mantissa may carry into the exponent
      let (m, eb) := if 8 ≤ m then (0, e + 7 + 1) else (m, e + 7)
      if 15 ≤ eb ∧ 6 < m then UInt8.ofNat (sign + 0x7E)
      else UInt8.ofNat (sign + 8 * eb.toNat + (m % 8).toNat)

/-- What `ue4m3_round` considers, in its order. -/
def ue4m3Levels : List ℚ :=
  ((List.range 8).map fun m => 1 / 2 ^ 6 * ((m : ℚ) / 8)) ++
    (List.range' 1 15).flatMap fun e =>
      ((List.range 8).filter fun m => !(e == 15 && m == 7)).map fun m =>
        2 ^ e / 2 ^ 7 * (1 + (m : ℚ) / 8)

def ue4m3Round (v : ℚ) : ℚ := if ¬ 0 < v then 0 else search v id 0 ue4m3Levels

/-! ## The grid -/

/-- The value of byte `k`, in units of the smallest. -/
def gridUnits (k : ℕ) : ℕ := if k < 8 then k else (8 + k % 8) * 2 ^ (k / 8 - 1)

/-- The value of byte `k`. -/
def e4m3Grid (k : ℕ) : ℚ := gridUnits k / 512

theorem gridUnits_small {k : ℕ} (h : k ≤ 8) : gridUnits k = k := by
  unfold gridUnits
  rcases Nat.lt_or_eq_of_le h with h | rfl
  · rw [if_pos h]
  · rfl

/-- Up to the mantissa that carries. -/
theorem gridUnits_normal (e : ℕ) {m : ℕ} (hm : m ≤ 8) :
    gridUnits (8 * (e + 1) + m) = (8 + m) * 2 ^ e := by
  unfold gridUnits
  rw [if_neg (by omega)]
  rcases Nat.lt_or_eq_of_le hm with h | rfl
  · have hmod : (8 * (e + 1) + m) % 8 = m := by omega
    have hdiv : (8 * (e + 1) + m) / 8 - 1 = e := by omega
    rw [hmod, hdiv]
  · have hmod : (8 * (e + 1) + 8) % 8 = 0 := by omega
    have hdiv : (8 * (e + 1) + 8) / 8 - 1 = e + 1 := by omega
    rw [hmod, hdiv, Nat.pow_succ]
    ring

theorem gridUnits_lt_succ (k : ℕ) : gridUnits k < gridUnits (k + 1) := by
  rcases Nat.lt_or_ge k 8 with h | h
  · rw [gridUnits_small h.le, gridUnits_small h]
    exact Nat.lt_succ_self k
  · have hk : k = 8 * (k / 8 - 1 + 1) + k % 8 := by omega
    have hpos : 0 < 2 ^ (k / 8 - 1) := Nat.two_pow_pos _
    rw [hk, gridUnits_normal _ (by omega), Nat.add_assoc, gridUnits_normal _ (by omega)]
    exact Nat.mul_lt_mul_of_pos_right (by omega) hpos

theorem e4m3Grid_strictMono : StrictMono e4m3Grid := by
  refine strictMono_nat_of_lt_succ fun k => ?_
  have h : ((gridUnits k : ℕ) : ℚ) < gridUnits (k + 1) := Nat.cast_lt.mpr (gridUnits_lt_succ k)
  unfold e4m3Grid
  linarith

theorem e4m3ToF32_ofNat : ∀ k < 127, e4m3ToF32 (UInt8.ofNat k) = e4m3Grid k := by
  decide +kernel

theorem ue4m3Levels_eq : ue4m3Levels = (List.range 127).map e4m3Grid := by
  decide +kernel

/-! ## What they round to -/

/-- **The simulation rounds to nearest, ties down.** -/
theorem ue4m3Round_spec {q : ℚ} (hq : 0 ≤ q) :
    ∃ j, RoundsDown e4m3Grid 126 q j ∧ ue4m3Round q = e4m3Grid j := by
  obtain ⟨j, hj, hsearch⟩ := search_grid e4m3Grid_strictMono q 0 126
  unfold ue4m3Round
  split
  next h =>
    have hzero : q = 0 := le_antisymm (not_lt.mp h) hq
    have hgrid : e4m3Grid 0 = 0 := by norm_num [e4m3Grid, gridUnits]
    have hmid : 0 ≤ mid e4m3Grid 0 := by norm_num [mid, e4m3Grid, gridUnits]
    exact ⟨0, ⟨Nat.zero_le _, .inl rfl, .inr (hzero ▸ hmid)⟩, hgrid.symm⟩
  next =>
    rw [ue4m3Levels_eq]
    exact ⟨j, hj, hsearch⟩

theorem mid_e4m3Grid {k u v : ℕ} (hu : gridUnits k = u) (hv : gridUnits (k + 1) = v) :
    mid e4m3Grid k = ((u : ℚ) + v) / 1024 := by
  rw [mid, e4m3Grid, e4m3Grid, hu, hv]
  ring

theorem natCast_even {m : ℕ} : ((m : ℤ) % 2 = 0) ↔ Even m := by
  rw [Nat.even_iff]
  omega

/-- Below the normal numbers the units are the mantissas. -/
theorem roundsEven_small {q : ℚ} {m : ℕ} (hm : m ≤ 8) (hq : q * 512 < 8)
    (hround : roundTiesEven (q * 512) = m) : RoundsEven e4m3Grid 126 q m := by
  obtain ⟨hlow, hhigh⟩ := roundTiesEven_spec (q * 512)
  rw [hround, natCast_even, Int.cast_natCast] at hlow hhigh
  refine ⟨by omega, ?_, ?_⟩
  · cases m with
    | zero => exact .inl rfl
    | succ m =>
      have hmid : mid e4m3Grid m = ((m : ℚ) + (m + 1 : ℕ)) / 1024 :=
        mid_e4m3Grid (gridUnits_small (by omega)) (gridUnits_small hm)
      rw [Nat.add_sub_cancel, hmid]
      push_cast at hlow ⊢
      rcases hlow with h | ⟨h, heven⟩
      · exact .inr (.inl (by linarith))
      · exact .inr (.inr ⟨by linarith, heven⟩)
  · rcases Nat.lt_or_eq_of_le hm with hlt | rfl
    · have hmid : mid e4m3Grid m = ((m : ℚ) + (m + 1 : ℕ)) / 1024 :=
        mid_e4m3Grid (gridUnits_small hm) (gridUnits_small hlt)
      rw [hmid]
      push_cast
      rcases hhigh with h | ⟨h, heven⟩
      · exact .inr (.inl (by linarith))
      · exact .inr (.inr ⟨by linarith, heven⟩)
    · have hmid : mid e4m3Grid 8 = (((8 : ℕ) : ℚ) + (9 : ℕ)) / 1024 := mid_e4m3Grid rfl rfl
      rw [hmid]
      push_cast
      exact .inr (.inl (by linarith))

/-- From exponent `e` on, `x` eighths above the power of two. -/
theorem roundsEven_normal {q x : ℚ} {e m : ℕ} (hm : m ≤ 8) (hk : 8 * (e + 1) + m ≤ 126)
    (hq : q * 512 = (8 + x) * 2 ^ e) (hx : -1 / 4 ≤ x) (hx8 : x < 8)
    (hround : roundTiesEven x = m) : RoundsEven e4m3Grid 126 q (8 * (e + 1) + m) := by
  obtain ⟨hlow, hhigh⟩ := roundTiesEven_spec x
  rw [hround, natCast_even, Int.cast_natCast] at hlow hhigh
  have hunit : (0 : ℚ) < 2 ^ e := by positivity
  have heven : Even (8 * (e + 1) + m) ↔ Even m := by
    rw [Nat.even_iff, Nat.even_iff]
    omega
  rw [add_mul] at hq
  refine ⟨hk, .inr ?_, ?_⟩
  · rcases Nat.eq_zero_or_pos m with rfl | hpos
    · -- the power of two: the point before is a sixteenth below, or an eighth
      have hle : mid e4m3Grid (8 * (e + 1) + 0 - 1) ≤ (8 - 1 / 4) * 2 ^ e / 512 := by
        have hself : gridUnits (8 * (e + 1) + 0 - 1 + 1) = 8 * 2 ^ e := by
          have := gridUnits_normal e (Nat.zero_le 8)
          rwa [Nat.add_zero] at this
        cases e with
        | zero =>
          have hmid : mid e4m3Grid 7 = (((7 : ℕ) : ℚ) + (8 : ℕ)) / 1024 := mid_e4m3Grid rfl rfl
          rw [hmid]
          norm_num
        | succ e =>
          have hbefore : gridUnits (8 * (e + 1 + 1) + 0 - 1) = (8 + 7) * 2 ^ e :=
            gridUnits_normal e (Nat.le_succ 7)
          rw [mid_e4m3Grid hbefore hself]
          push_cast
          rw [pow_succ]
          linarith
      have hxu : -1 / 4 * (2 : ℚ) ^ e ≤ x * 2 ^ e := mul_le_mul_of_nonneg_right hx hunit.le
      rcases lt_or_eq_of_le (show mid e4m3Grid (8 * (e + 1) + 0 - 1) ≤ q by linarith) with h | h
      · exact .inl h
      · exact .inr ⟨h, heven.mpr Even.zero⟩
    · obtain ⟨m, rfl⟩ : ∃ m', m = m' + 1 := ⟨m - 1, by omega⟩
      have hmid := mid_e4m3Grid (gridUnits_normal e (by omega : m ≤ 8)) (gridUnits_normal e hm)
      rw [← Nat.add_assoc, Nat.add_sub_cancel, hmid]
      push_cast at hlow ⊢
      rcases hlow with h | ⟨h, hm2⟩
      · have := mul_lt_mul_of_pos_right h hunit
        exact .inl (by linarith)
      · rw [← h] at hq
        exact .inr ⟨by linarith, heven.mpr hm2⟩
  · refine .inr ?_
    rcases Nat.lt_or_eq_of_le hm with hlt | rfl
    · have hmid := mid_e4m3Grid (gridUnits_normal e hm) (gridUnits_normal e (Nat.succ_le_of_lt hlt))
      rw [hmid]
      push_cast
      rcases hhigh with h | ⟨h, hm2⟩
      · have := mul_lt_mul_of_pos_right h hunit
        exact .inl (by linarith)
      · rw [h] at hq
        exact .inr ⟨by linarith, heven.mpr hm2⟩
    · -- the carry: the next power of two is not reached
      have hnext := gridUnits_normal (e + 1) (Nat.succ_le_succ (Nat.zero_le 7))
      have hmid := mid_e4m3Grid (gridUnits_normal e (Nat.le_refl 8)) hnext
      have := mul_lt_mul_of_pos_right hx8 hunit
      rw [hmid]
      push_cast
      rw [pow_succ]
      exact .inl (by linarith)

theorem roundTiesEven_bounds {x : ℚ} {l h : ℤ} (hl : (l : ℚ) - 1 / 4 ≤ x) (hh : x < h) :
    l ≤ roundTiesEven x ∧ roundTiesEven x ≤ h := by
  obtain ⟨hlow, hhigh⟩ := roundTiesEven_spec x
  have hle : x ≤ roundTiesEven x + 1 / 2 := by
    rcases hhigh with h | ⟨h, -⟩ <;> linarith
  have hge : (roundTiesEven x : ℚ) - 1 / 2 ≤ x := by
    rcases hlow with h | ⟨h, -⟩ <;> linarith
  constructor
  · have : (l : ℚ) < roundTiesEven x + 1 := by linarith
    have : l < roundTiesEven x + 1 := by exact_mod_cast this
    omega
  · have : (roundTiesEven x : ℚ) < h + 1 := by linarith
    have : roundTiesEven x < h + 1 := by exact_mod_cast this
    omega

/-- How far above its power of two a number is, in eighths. -/
theorem eighths {q : ℚ} {n : ℕ} (hlow : 2 ^ ((n : ℤ) - 6) * (31 / 32) ≤ q)
    (hhigh : q < 2 ^ ((n : ℤ) - 6 + 1)) :
    q * 512 = (8 + (q * 2 ^ (-((n : ℤ) - 6)) - 1) * 8) * 2 ^ n ∧
      -1 / 4 ≤ (q * 2 ^ (-((n : ℤ) - 6)) - 1) * 8 ∧ (q * 2 ^ (-((n : ℤ) - 6)) - 1) * 8 < 8 := by
  have hscale : (2 : ℚ) ^ ((n : ℤ) - 6) * 64 = 2 ^ n := by
    rw [zpow_sub₀ (by norm_num), zpow_natCast]
    norm_num
  have hinv : (2 : ℚ) ^ (-((n : ℤ) - 6)) * 2 ^ ((n : ℤ) - 6) = 1 := by
    rw [← zpow_add₀ (by norm_num), neg_add_cancel, zpow_zero]
  have hunit : (0 : ℚ) < 2 ^ (-((n : ℤ) - 6)) := zpow_pos (by norm_num) _
  rw [zpow_add_one₀ (by norm_num)] at hhigh
  generalize (2 : ℚ) ^ (-((n : ℤ) - 6)) = inv at *
  generalize (2 : ℚ) ^ ((n : ℤ) - 6) = pow at *
  refine ⟨?_, ?_, ?_⟩
  · rw [← hscale]
    linear_combination (-(q * 512)) * hinv
  · have := mul_le_mul_of_nonneg_right hlow hunit.le
    linear_combination 8 * this - (31 / 4) * hinv
  · have := mul_lt_mul_of_pos_right hhigh hunit
    linear_combination 8 * this + 16 * hinv

/-- It is rounded to the nearest, in the middle to the even byte. -/
theorem floatToE4m3_spec (A : FloatArith) {q : ℚ} (hq : 0 ≤ q) :
    ∃ k, RoundsEven e4m3Grid 126 q k ∧ floatToE4m3 A q = UInt8.ofNat k := by
  unfold floatToE4m3
  dsimp only
  rw [if_neg (not_lt.mpr hq), abs_of_nonneg hq]
  split
  next h =>
    have hzero : q = 0 := le_antisymm (not_lt.mp h) hq
    have hmid : 0 < mid e4m3Grid 0 := by norm_num [mid, e4m3Grid, gridUnits]
    exact ⟨0, ⟨Nat.zero_le _, .inl rfl, .inr (.inl (hzero ▸ hmid))⟩, rfl⟩
  next h =>
    have hpos : 0 < q := not_not.mp h
    split
    next hbig =>
      have hmid : mid e4m3Grid 125 < 448 := by norm_num [mid, e4m3Grid, gridUnits]
      exact ⟨126, ⟨Nat.le_refl _, .inr (.inl (hmid.trans_le hbig)), .inl rfl⟩, rfl⟩
    next hbig =>
      have hlow := A.log2Floor_le q hpos
      have hhigh := A.lt_log2Floor q hpos
      generalize A.log2Floor q = e at hlow hhigh
      split
      next he =>
        -- a subnormal
        have hunits : q * 512 < 8 := by
          have hle : (2 : ℚ) ^ (e + 1) ≤ 2 ^ (-6 : ℤ) :=
            zpow_le_zpow_right₀ (by norm_num) (by omega)
          norm_num at hle
          linarith
        have hm := roundTiesEven_bounds (x := q * 512) (l := 0) (h := 8)
          (by push_cast; linarith) (by push_cast; linarith)
        obtain ⟨m, hround⟩ := Int.eq_ofNat_of_zero_le hm.1
        rw [hround] at hm ⊢
        refine ⟨m, roundsEven_small (by omega) hunits hround, ?_⟩
        split
        next h8 =>
          obtain rfl : m = 8 := by omega
          rfl
        next =>
          have htoNat : (max (m : ℤ) 0).toNat = m := by omega
          rw [htoNat, Nat.zero_add]
      next he =>
        obtain ⟨n, rfl⟩ : ∃ n : ℕ, e = n - 6 := ⟨(e + 6).toNat, by omega⟩
        obtain ⟨hunits, hx, hx8⟩ := eighths hlow hhigh
        generalize (q * 2 ^ (-((n : ℤ) - 6)) - 1) * 8 = x at hunits hx hx8 ⊢
        have hn : n ≤ 14 := by
          by_contra hlarge
          have hle : (2 : ℚ) ^ (9 : ℤ) ≤ 2 ^ ((n : ℤ) - 6) :=
            zpow_le_zpow_right₀ (by norm_num) (by omega)
          norm_num at hle
          linarith
        have hm := roundTiesEven_bounds (x := x) (l := 0) (h := 8)
          (by push_cast; linarith) (by push_cast; linarith)
        obtain ⟨m, hround⟩ := Int.eq_ofNat_of_zero_le hm.1
        have htop : n = 14 → m ≤ 6 := by
          rintro rfl
          have := roundTiesEven_bounds (x := x) (l := 0) (h := 6)
            (by push_cast; linarith) (by push_cast; linarith)
          omega
        rw [hround] at hm ⊢
        refine ⟨8 * (n + 1) + m, roundsEven_normal (by omega) (by omega) hunits hx hx8 hround, ?_⟩
        by_cases h8 : 8 ≤ (m : ℤ)
        · have hm8 : m = 8 := by omega
          simp only [if_pos h8]
          rw [if_neg (by omega)]
          congr 1
          omega
        · have hsat : ¬ (15 ≤ (n : ℤ) - 6 + 7 ∧ 6 < (m : ℤ)) := by
            rintro ⟨hn15, hm6⟩
            have := htop (by omega)
            omega
          simp only [if_neg h8, if_neg hsat]
          congr 1
          omega

/-- In the middle behind a byte that is odd. -/
def OddTie (q : ℚ) : Prop := ∃ t < 126, ¬ Even t ∧ q = mid e4m3Grid t

instance (q : ℚ) : Decidable (OddTie q) := inferInstanceAs (Decidable (∃ t < 126, _ ∧ _))

/-- The two roundings of a scale agree but there. -/
theorem scale_agree_iff (A : FloatArith) {q : ℚ} (hq : 0 ≤ q) :
    e4m3ToF32 (floatToE4m3 A q) = ue4m3Round q ↔ ¬ OddTie q := by
  obtain ⟨k, hk, hcode⟩ := floatToE4m3_spec A hq
  obtain ⟨j, hj, hround⟩ := ue4m3Round_spec hq
  rw [hcode, hround, e4m3ToF32_ofNat k (Nat.lt_succ_of_le hk.le),
    e4m3Grid_strictMono.injective.eq_iff]
  exact agree_iff e4m3Grid_strictMono hk hj

end Colibri.Convert
