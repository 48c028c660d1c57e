import Mathlib.Algebra.Order.Ring.Nat

/-!
# Numbers of a JSON text

A number is read as an `f64`, and every number of a header goes through `as_i64` after
that: what the tensors get is the integer part of the nearest `f64`, held to the range of
an `i64`. Up to `2 ^ 53` that is the number that was written. Above, it is one of the
numbers that an `f64` holds, and those are read again as what they are (`asI64_ofInt_asI64`):
a dimension that has been through a header once survives every header after it.

* `f64Trunc_held`: a number that an `f64` holds is its own nearest.
* `asI64_ofInt_of_le`: so a number up to `2 ^ 53` is read as it is written.
* `asI64_ofInt_asI64`: and so is whatever has been read once, at the ends of the range too.
-/

namespace Colibri.JsonValue

/-- What is written: `± digits * 10 ^ exp`. -/
structure Decimal where
  neg : Bool
  digits : Nat
  exp : Int
  deriving Repr, DecidableEq

/-! ## Rounding -/

/-- `p / q` to the nearest, ties to even. -/
def roundDiv (p q : Nat) : Nat :=
  if 2 * (p % q) < q ∨ 2 * (p % q) = q ∧ p / q % 2 = 0 then p / q else p / q + 1

/-- The integer part of the `f64` nearest to `p / q`. Numbers too large for an `f64` are
too large for an `i64` as well, and are not told apart. -/
def f64Trunc (p q : Nat) : Nat :=
  if p < q then roundDiv (p * 2 ^ 53) q / 2 ^ 53
  else if (p / q).log2 ≤ 52 then
    roundDiv (p * 2 ^ (52 - (p / q).log2)) q / 2 ^ (52 - (p / q).log2)
  else roundDiv p (q * 2 ^ ((p / q).log2 - 52)) * 2 ^ ((p / q).log2 - 52)

/-- `n as i64` of a float: towards zero, and no further than the ends of the range. -/
def saturate (neg : Bool) (m : Nat) : Int :=
  if neg then -((min m (2 ^ 63) : Nat) : Int) else ((min m (2 ^ 63 - 1) : Nat) : Int)

/-- `as_i64` of the `f64`. -/
def Decimal.asI64 (d : Decimal) : Int :=
  saturate d.neg (f64Trunc (d.digits * 10 ^ d.exp.toNat) (10 ^ (-d.exp).toNat))

/-- A number as `to_string` writes it. -/
def Decimal.ofInt (i : Int) : Decimal := ⟨decide (i < 0), i.natAbs, 0⟩

theorem roundDiv_mul {n q : Nat} (hq : 0 < q) : roundDiv (n * q) q = n := by
  unfold roundDiv
  rw [Nat.mul_mod_left, Nat.mul_div_cancel _ hq, if_pos (.inl (by omega))]

theorem roundDiv_le {p q n : Nat} (hq : 0 < q) (h : p ≤ n * q) : roundDiv p q ≤ n := by
  rcases Nat.eq_or_lt_of_le h with rfl | hlt
  · exact Nat.le_of_eq (roundDiv_mul hq)
  · have hdiv : p / q < n := Nat.div_lt_of_lt_mul (Nat.mul_comm n q ▸ hlt)
    unfold roundDiv
    split <;> omega

/-- What an `f64` holds, of the natural numbers. -/
def Held (n : Nat) : Prop := ∃ m k, m < 2 ^ 53 ∧ n = m * 2 ^ k

theorem held_of_le {n : Nat} (h : n ≤ 2 ^ 53) : Held n := by
  rcases Nat.eq_or_lt_of_le h with rfl | hlt
  · exact ⟨1, 53, by decide, by omega⟩
  · exact ⟨n, 0, hlt, (Nat.mul_one n).symm⟩

theorem Held.mul_pow {n : Nat} (h : Held n) (k : Nat) : Held (n * 2 ^ k) := by
  obtain ⟨m, j, hm, rfl⟩ := h
  exact ⟨m, j + k, hm, by rw [Nat.mul_assoc, Nat.pow_add]⟩

/-- What is rounded is held. -/
theorem held_f64Trunc (p : Nat) {q : Nat} (hq : 0 < q) : Held (f64Trunc p q) := by
  have hlog : p < 2 ^ ((p / q).log2 + 1) * q := by
    have hlt : p / q < 2 ^ ((p / q).log2 + 1) := Nat.lt_log2_self
    exact (Nat.div_lt_iff_lt_mul hq).mp hlt
  unfold f64Trunc
  split
  next hlt =>
    have hround : roundDiv (p * 2 ^ 53) q ≤ 2 ^ 53 :=
      roundDiv_le hq (by rw [Nat.mul_comm]; exact Nat.mul_le_mul_left _ (Nat.le_of_lt hlt))
    exact held_of_le (Nat.le_trans (Nat.div_le_self ..) hround)
  next hge =>
    split
    next he =>
      -- the fraction has the bits that the integer part leaves free
      have hbits : 2 ^ ((p / q).log2 + 1) * 2 ^ (52 - (p / q).log2) = 2 ^ 53 := by
        rw [← Nat.pow_add]
        congr 1
        omega
      have hround : roundDiv (p * 2 ^ (52 - (p / q).log2)) q ≤ 2 ^ 53 := by
        refine roundDiv_le hq ?_
        rw [← hbits, Nat.mul_right_comm]
        exact Nat.mul_le_mul_right _ (Nat.le_of_lt hlog)
      exact held_of_le (Nat.le_trans (Nat.div_le_self ..) hround)
    next he =>
      have hbits : 2 ^ ((p / q).log2 + 1) = 2 ^ 53 * 2 ^ ((p / q).log2 - 52) := by
        rw [← Nat.pow_add]
        congr 1
        omega
      refine (held_of_le (roundDiv_le (Nat.mul_pos hq (Nat.two_pow_pos _)) ?_)).mul_pow _
      rw [Nat.mul_comm q, ← Nat.mul_assoc, ← hbits]
      exact Nat.le_of_lt hlog

/-- **What an `f64` holds is read as it is written.** -/
theorem f64Trunc_held {n : Nat} (h : Held n) : f64Trunc n 1 = n := by
  obtain ⟨m, k, hm, rfl⟩ := h
  have hlog : m * 2 ^ k < 2 ^ (53 + k) := by
    rw [Nat.pow_add]
    exact Nat.mul_lt_mul_of_pos_right hm (Nat.two_pow_pos k)
  unfold f64Trunc
  rw [Nat.div_one]
  split
  next hlt =>
    have hzero : m * 2 ^ k = 0 := by omega
    rw [hzero]
    rfl
  next hge =>
    split
    next he =>
      have hone : ∀ f, roundDiv (m * 2 ^ k * 2 ^ f) 1 = m * 2 ^ k * 2 ^ f := fun f => by
        have := roundDiv_mul (n := m * 2 ^ k * 2 ^ f) (q := 1) Nat.one_pos
        rwa [Nat.mul_one] at this
      rw [hone, Nat.mul_div_cancel _ (Nat.two_pow_pos _)]
    next he =>
      -- the bits that are rounded away are all zero
      have hle : (m * 2 ^ k).log2 - 52 ≤ k := by
        have hlt := (Nat.log2_lt (by omega)).mpr hlog
        omega
      obtain ⟨j, hj⟩ := Nat.exists_eq_add_of_le hle
      generalize (m * 2 ^ k).log2 - 52 = i at hj
      rw [Nat.one_mul, hj, Nat.add_comm i, Nat.pow_add, ← Nat.mul_assoc,
        roundDiv_mul (Nat.two_pow_pos i)]

theorem asI64_ofInt (i : Int) :
    (Decimal.ofInt i).asI64 = saturate (decide (i < 0)) (f64Trunc i.natAbs 1) := by
  unfold Decimal.asI64 Decimal.ofInt
  simp

/-- **A number up to `2 ^ 53` is read as it is written.** -/
theorem asI64_ofInt_of_le {n : Nat} (h : n ≤ 2 ^ 53) : (Decimal.ofInt n).asI64 = n := by
  rw [asI64_ofInt, Int.natAbs_natCast, f64Trunc_held (held_of_le h),
    decide_eq_false (Int.not_lt.mpr (Int.natCast_nonneg n))]
  show ((min n (2 ^ 63 - 1) : Nat) : Int) = n
  rw [Nat.min_eq_left (by omega)]

theorem f64Trunc_max : f64Trunc (2 ^ 63 - 1) 1 = 2 ^ 63 := by decide

/-- A held number that was cut to the range stays. -/
theorem asI64_ofInt_saturate {m : Nat} (h : Held m) (neg : Bool) :
    (Decimal.ofInt (saturate neg m)).asI64 = saturate neg m := by
  rw [asI64_ofInt]
  cases neg with
  | true =>
    have hheld : Held (min m (2 ^ 63)) := by
      rcases Nat.le_total m (2 ^ 63) with hle | hle
      · rw [Nat.min_eq_left hle]
        exact h
      · rw [Nat.min_eq_right hle]
        exact ⟨1, 63, by decide, (Nat.one_mul _).symm⟩
    show saturate (decide (-((min m (2 ^ 63) : Nat) : Int) < 0))
      (f64Trunc (-((min m (2 ^ 63) : Nat) : Int)).natAbs 1) = -((min m (2 ^ 63) : Nat) : Int)
    have hle : min m (2 ^ 63) ≤ 2 ^ 63 := Nat.min_le_right ..
    generalize min m (2 ^ 63) = n at hheld hle
    rw [Int.natAbs_neg, Int.natAbs_natCast, f64Trunc_held hheld]
    by_cases hneg : -(n : Int) < 0
    · rw [decide_eq_true hneg]
      show -((min n (2 ^ 63) : Nat) : Int) = _
      rw [Nat.min_eq_left hle]
    · have hzero : n = 0 := by omega
      rw [hzero]
      rfl
  | false =>
    show saturate (decide (((min m (2 ^ 63 - 1) : Nat) : Int) < 0))
      (f64Trunc (((min m (2 ^ 63 - 1) : Nat) : Int)).natAbs 1) = ((min m (2 ^ 63 - 1) : Nat) : Int)
    rw [Int.natAbs_natCast, decide_eq_false (Int.not_lt.mpr (Int.natCast_nonneg _))]
    show ((min _ (2 ^ 63 - 1) : Nat) : Int) = _
    rcases Nat.lt_or_ge m (2 ^ 63) with hlt | hge
    · rw [Nat.min_eq_left (a := m) (by omega), f64Trunc_held h]
      rw [Nat.min_eq_left (by omega)]
    · -- the largest `i64` is rounded up, and held back again
      rw [Nat.min_eq_right (a := m) (by omega), f64Trunc_max]
      rfl

/-- **What has been read once is read as it is written.** -/
theorem asI64_ofInt_asI64 (d : Decimal) : (Decimal.ofInt d.asI64).asI64 = d.asI64 :=
  asI64_ofInt_saturate (held_f64Trunc _ (Nat.pow_pos (show 0 < 10 by decide))) d.neg

end Colibri.JsonValue
