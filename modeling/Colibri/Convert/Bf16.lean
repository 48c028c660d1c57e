import Colibri.Preload.Blob
import Colibri.Quantize.Tensor
import Mathlib.Tactic.Positivity

/-!
# bf16

A bf16 is the high half of an `f32`. `f32_to_bf16` rounds to it by adding to the bit pattern:
the patterns of a sign are in the order of their values, and between two bf16s that follow each
other the values are evenly spaced, whatever the exponent, so that the carry goes where the
nearest value is (`f32_to_bf16_spec`).

The converter keeps a tensor of the io tier in bf16 if every value comes back as it was, and in
`f32` if one does not. Either way what is read from the container is what was written, bit for
bit, up to which NaN a NaN is (`io_tensor_exact`).

* `magnitude_add` is the reason that adding to the pattern rounds: between two bf16s that follow
  each other the values are evenly spaced.
* `roundHigh_sign` keeps the sign apart, and `roundsEven_round` is the rounding of what is left: to
  the nearest, and from the middle to the even one.
* `bf16Ok_iff` is the check of the converter, and `bf16Out_spec` what it writes.

A NaN stays a NaN, but a signalling one comes back quiet: `f32_to_bf16` sets a bit of it.
-/

namespace Colibri.Convert

open Loader Nearest Quantize
open Preload (toLeBytes pushS floats4_pushS length_pushS f32OfLe_toLeBytes)
open Safetensors (floats4 floats2 floats u16OfLe bf16ToF32 Conv DType)

/-! ## The source -/

def isNan (v : UInt32) : Bool := 0x7f800000 < v &&& 0x7fffffff

def f32ToBf16 (v : UInt32) : UInt16 :=
  if isNan v then (v >>> 16).toUInt16 ||| 0x0040
  else ((v + (0x7fff : UInt32) + (v >>> 16 &&& 1 : UInt32)) >>> 16).toUInt16

/-- `==` of floats: a NaN equals nothing, and the zeros are equal. -/
def floatEq (a b : UInt32) : Bool :=
  !isNan a && !isNan b && (a == b || ((a ||| b) &&& 0x7fffffff) == 0)

/-- `to_le_bytes` of a `u16` -/
def leBytes16 (h : UInt16) : List UInt8 := [h.toUInt8, (h >>> 8).toUInt8]

/-- `ok`: a NaN is one afterwards, any other value is equal. -/
def bf16Ok (v : UInt32) : Bool :=
  if isNan v then isNan (bf16ToF32 (f32ToBf16 v)) else floatEq (bf16ToF32 (f32ToBf16 v)) v

/-- `bf16_out`: the bytes, if every value comes back. -/
def bf16Out : List F32 → Option (List UInt8)
  | [] => some []
  | v :: w =>
    if bf16Ok v then (bf16Out w).map (leBytes16 (f32ToBf16 v) ++ ·) else none

def f32Out (w : List F32) : List UInt8 := w.flatMap toLeBytes

/-- A tensor of the io tier at 16 bits or more: its dtype and its bytes. -/
def ioTensor (w : List F32) : DType × List UInt8 :=
  match bf16Out w with
  | some bytes => (.bf16, bytes)
  | none => (.f32, f32Out w)

/-! ## The bits -/

variable {v : UInt32}

theorem toNat_lt (v : UInt32) : v.toNat < 2 ^ 32 := UInt32.toNat_lt v

theorem isNan_iff : isNan v = true ↔ 255 * 2 ^ 23 < v.toNat % 2 ^ 31 := by
  have hmask : (v &&& 0x7fffffff).toNat = v.toNat % 2 ^ 31 := by
    rw [UInt32.toNat_and]
    exact Nat.and_two_pow_sub_one_eq_mod v.toNat 31
  rw [isNan, decide_eq_true_eq, UInt32.lt_iff_toNat_lt, hmask]
  rfl

theorem isNan_eq_false : isNan v = false ↔ v.toNat % 2 ^ 31 ≤ 255 * 2 ^ 23 := by
  rw [← Bool.not_eq_true, isNan_iff, Nat.not_lt]

theorem toNat_bf16ToF32 (h : UInt16) : (bf16ToF32 h).toNat = h.toNat * 2 ^ 16 := by
  have hlt := h.toNat_lt
  rw [bf16ToF32, UInt32.toNat_shiftLeft, UInt16.toNat_toUInt32, Nat.shiftLeft_eq]
  exact Nat.mod_eq_of_lt (show h.toNat * 65536 < 2 ^ 32 by omega)

theorem toNat_high (v : UInt32) : (v >>> 16).toNat = v.toNat / 2 ^ 16 := by
  rw [UInt32.toNat_shiftRight]
  exact Nat.shiftRight_eq_div_pow _ _

/-- The bits that are kept, by the bits that are dropped: the carry of a half and more, of a
half only if the last bit kept is odd. -/
def roundHigh (n : Nat) : Nat := (n + 0x7fff + n / 2 ^ 16 % 2) / 2 ^ 16

theorem toNat_f32ToBf16 (h : isNan v = false) : (f32ToBf16 v).toNat = roundHigh v.toNat := by
  have hlt := toNat_lt v
  have hmax := isNan_eq_false.mp h
  have hodd : (v >>> 16 &&& 1 : UInt32).toNat = v.toNat / 2 ^ 16 % 2 := by
    rw [UInt32.toNat_and, toNat_high]
    exact Nat.and_one_is_mod _
  have hsum : (v + (0x7fff : UInt32) + (v >>> 16 &&& 1 : UInt32)).toNat =
      v.toNat + 0x7fff + v.toNat / 2 ^ 16 % 2 := by
    rw [UInt32.toNat_add, UInt32.toNat_add, hodd]
    show ((v.toNat + 0x7fff) % 2 ^ 32 + _) % 2 ^ 32 = _
    omega
  rw [f32ToBf16, h, if_neg Bool.false_ne_true, UInt32.toNat_toUInt16, toNat_high, hsum, roundHigh]
  omega

/-- **The sign is kept**, and the rest is rounded by itself. -/
theorem roundHigh_sign {n : Nat} (h : n % 2 ^ 31 ≤ 255 * 2 ^ 23) :
    roundHigh n / 2 ^ 15 = n / 2 ^ 31 ∧ roundHigh n % 2 ^ 15 = roundHigh (n % 2 ^ 31) ∧
      roundHigh (n % 2 ^ 31) ≤ 32640 := by
  have hodd : n / 2 ^ 16 % 2 = n % 2 ^ 31 / 2 ^ 16 % 2 := by omega
  have hsum : roundHigh n = n / 2 ^ 31 * 2 ^ 15 + roundHigh (n % 2 ^ 31) := by
    rw [roundHigh, roundHigh, hodd]
    omega
  have hle : roundHigh (n % 2 ^ 31) ≤ 32640 := by
    rw [roundHigh]
    omega
  omega

theorem bf16_back_iff (h : isNan v = false) :
    bf16ToF32 (f32ToBf16 v) = v ↔ v.toNat % 2 ^ 16 = 0 := by
  rw [← UInt32.toNat_inj, toNat_bf16ToF32, toNat_f32ToBf16 h, roundHigh]
  omega

theorem f32ToBf16_bf16ToF32 {h : UInt16} (hnan : isNan (bf16ToF32 h) = false) :
    f32ToBf16 (bf16ToF32 h) = h := by
  rw [← UInt16.toNat_inj, toNat_f32ToBf16 hnan, toNat_bf16ToF32, roundHigh]
  omega

/-- A NaN stays one. -/
theorem isNan_back (h : isNan v = true) : isNan (bf16ToF32 (f32ToBf16 v)) = true := by
  have hbits : (f32ToBf16 v).toNat = (v.toNat / 2 ^ 16) ||| 0x0040 := by
    have hlt := toNat_lt v
    rw [f32ToBf16, h, if_pos rfl, UInt16.toNat_or, UInt32.toNat_toUInt16, toNat_high]
    show v.toNat / 2 ^ 16 % 2 ^ 16 ||| 64 = _
    rw [Nat.mod_eq_of_lt (by omega)]
  -- the quiet bit is set, and the bits in front of it are as they were
  have hfront : (v.toNat / 2 ^ 16 ||| 64) / 2 ^ 7 = v.toNat / 2 ^ 16 / 2 ^ 7 := by
    rw [← Nat.shiftRight_eq_div_pow, Nat.shiftRight_or_distrib, Nat.shiftRight_eq_div_pow]
    exact Nat.or_zero _
  have hquiet : 64 ≤ (v.toNat / 2 ^ 16 ||| 64) % 2 ^ 7 := by
    rw [Nat.or_mod_two_pow]
    exact Nat.right_le_or
  rw [isNan_iff] at h ⊢
  rw [toNat_bf16ToF32, hbits]
  omega

/-! ## The values -/

/-- The value of the bits without the sign. -/
def magnitude (m : ℕ) : ℚ :=
  if m / 2 ^ 23 = 0 then (m % 2 ^ 23 : ℕ) / 2 ^ 149
  else (2 ^ 23 + (m % 2 ^ 23 : ℕ)) * 2 ^ (m / 2 ^ 23) / 2 ^ 150

/-- The bf16 values of a sign; the last, 32640, stands for infinity. -/
def bf16Grid (k : ℕ) : ℚ := magnitude (k * 2 ^ 16)

/-- How far patterns with the high half `k` are apart. -/
def ulp (k : ℕ) : ℚ := if k / 2 ^ 7 = 0 then 1 / 2 ^ 149 else 2 ^ (k / 2 ^ 7) / 2 ^ 150

theorem ulp_pos (k : ℕ) : 0 < ulp k := by
  unfold ulp
  split <;> positivity

theorem exponent_eq (k : ℕ) {r : ℕ} (hr : r < 2 ^ 16) :
    (k * 2 ^ 16 + r) / 2 ^ 23 = k / 2 ^ 7 := by omega

theorem mantissa_eq (k : ℕ) {r : ℕ} (hr : r < 2 ^ 16) :
    (k * 2 ^ 16 + r) % 2 ^ 23 = k % 2 ^ 7 * 2 ^ 16 + r := by omega

theorem magnitude_eq (k : ℕ) {r : ℕ} (hr : r < 2 ^ 16) :
    magnitude (k * 2 ^ 16 + r) =
      if k / 2 ^ 7 = 0 then (((k % 2 ^ 7 : ℕ) : ℚ) * 2 ^ 16 + r) / 2 ^ 149
      else (2 ^ 23 + (((k % 2 ^ 7 : ℕ) : ℚ) * 2 ^ 16 + r)) * 2 ^ (k / 2 ^ 7) / 2 ^ 150 := by
  have hcast : ((k % 2 ^ 7 * 2 ^ 16 + r : ℕ) : ℚ) = ((k % 2 ^ 7 : ℕ) : ℚ) * 2 ^ 16 + r := by
    rw [Nat.cast_add, Nat.cast_mul, Nat.cast_pow, Nat.cast_ofNat]
  rw [magnitude, exponent_eq k hr, mantissa_eq k hr, hcast]

theorem bf16Grid_eq (k : ℕ) : bf16Grid k =
    if k / 2 ^ 7 = 0 then ((k % 2 ^ 7 : ℕ) : ℚ) * 2 ^ 16 / 2 ^ 149
    else (2 ^ 23 + ((k % 2 ^ 7 : ℕ) : ℚ) * 2 ^ 16) * 2 ^ (k / 2 ^ 7) / 2 ^ 150 := by
  have h := magnitude_eq k (r := 0) (by decide)
  simpa [bf16Grid] using h

/-- **From one bf16 to the next the values are evenly spaced.** -/
theorem magnitude_add (k : ℕ) {r : ℕ} (hr : r < 2 ^ 16) :
    magnitude (k * 2 ^ 16 + r) = bf16Grid k + r * ulp k := by
  rw [magnitude_eq k hr, bf16Grid_eq, ulp]
  split <;> ring

/-- The next bf16 is a unit above. -/
theorem bf16Grid_succ (k : ℕ) : bf16Grid (k + 1) = bf16Grid k + 2 ^ 16 * ulp k := by
  rw [bf16Grid_eq, bf16Grid_eq, ulp]
  by_cases hlast : k % 2 ^ 7 = 127
  · -- the exponent goes up, and the rest starts again
    have hexp : (k + 1) / 2 ^ 7 = k / 2 ^ 7 + 1 := by omega
    have hman : (k + 1) % 2 ^ 7 = 0 := by omega
    rw [hexp, hman, hlast, if_neg (Nat.succ_ne_zero _)]
    split
    next hzero =>
      rw [hzero]
      norm_num
    next =>
      push_cast
      ring
  · have hexp : (k + 1) / 2 ^ 7 = k / 2 ^ 7 := by omega
    have hman : (k + 1) % 2 ^ 7 = k % 2 ^ 7 + 1 := by omega
    rw [hexp, hman]
    split
    · push_cast
      ring
    · push_cast
      ring

theorem mid_bf16Grid (k : ℕ) : mid bf16Grid k = bf16Grid k + 2 ^ 15 * ulp k := by
  rw [mid, bf16Grid_succ]
  ring

theorem roundHigh_low (k : ℕ) {r : ℕ} (hr : r < 2 ^ 15) : roundHigh (k * 2 ^ 16 + r) = k := by
  unfold roundHigh
  omega

theorem roundHigh_high (k : ℕ) {r : ℕ} (hlow : 2 ^ 15 < r) (hr : r < 2 ^ 16) :
    roundHigh (k * 2 ^ 16 + r) = k + 1 := by
  unfold roundHigh
  omega

theorem high_tie (k : ℕ) : (k * 2 ^ 16 + 2 ^ 15) / 2 ^ 16 = k := by omega

theorem roundHigh_tie (k : ℕ) : roundHigh (k * 2 ^ 16 + 2 ^ 15) = k + k % 2 := by
  rw [roundHigh, high_tie]
  omega

theorem high_le {k r : ℕ} (hr : r < 2 ^ 16) (hm : k * 2 ^ 16 + r ≤ 255 * 2 ^ 23) :
    k ≤ 32640 ∧ (0 < r → k + 1 ≤ 32640) := by omega

/-- **The carry goes to the nearest, and from the middle to the even one.** -/
theorem roundsEven_round {m : ℕ} (hm : m ≤ 255 * 2 ^ 23) :
    RoundsEven bf16Grid 32640 (magnitude m) (roundHigh m) := by
  obtain ⟨k, r, hr, rfl⟩ : ∃ k r, r < 2 ^ 16 ∧ m = k * 2 ^ 16 + r :=
    ⟨m / 2 ^ 16, m % 2 ^ 16, Nat.mod_lt _ (by decide), by omega⟩
  obtain ⟨hk, hk'⟩ := high_le hr hm
  have hpos := ulp_pos k
  have hmid := mid_bf16Grid k
  have hnext : bf16Grid (k + 1) < mid bf16Grid (k + 1) := by
    have hpos' := ulp_pos (k + 1)
    rw [mid_bf16Grid]
    linarith
  have hprev : k = 0 ∨ mid bf16Grid (k - 1) < bf16Grid k := by
    rcases Nat.eq_zero_or_pos k with hzero | hk
    · exact .inl hzero
    · right
      have hpos' := ulp_pos (k - 1)
      have hsucc := bf16Grid_succ (k - 1)
      rw [Nat.sub_add_cancel hk] at hsucc
      rw [mid_bf16Grid, hsucc]
      linarith
  have hr' : (r : ℚ) < 2 ^ 16 := by exact_mod_cast hr
  have hdown : bf16Grid k ≤ magnitude (k * 2 ^ 16 + r) := by
    have hnonneg : (0 : ℚ) ≤ r * ulp k := by positivity
    rw [magnitude_add k hr]
    linarith
  have hup : magnitude (k * 2 ^ 16 + r) < bf16Grid (k + 1) := by
    rw [magnitude_add k hr, bf16Grid_succ]
    nlinarith
  rcases Nat.lt_trichotomy r (2 ^ 15) with hlt | rfl | hgt
  · have hlt' : (r : ℚ) < 2 ^ 15 := by exact_mod_cast hlt
    rw [roundHigh_low k hlt]
    refine ⟨hk, hprev.imp_right fun h => .inl (h.trans_le hdown), .inr (.inl ?_)⟩
    rw [hmid, magnitude_add k hr]
    nlinarith
  · have hvalue : magnitude (k * 2 ^ 16 + 2 ^ 15) = mid bf16Grid k := by
      rw [hmid, magnitude_add k hr]
      push_cast
      ring
    rw [roundHigh_tie]
    rcases Nat.mod_two_eq_zero_or_one k with heven | hodd
    · rw [heven, Nat.add_zero]
      exact ⟨hk, hprev.imp_right fun h => .inl (h.trans_le hdown),
        .inr (.inr ⟨hvalue, Nat.even_iff.mpr heven⟩)⟩
    · rw [hodd]
      exact ⟨hk' (by decide), .inr (.inr ⟨hvalue.symm, (Nat.odd_iff.mpr hodd).add_one⟩),
        .inr (.inl (hup.trans hnext))⟩
  · have hgt' : (2 ^ 15 : ℚ) < r := by exact_mod_cast hgt
    rw [roundHigh_high k hgt hr]
    refine ⟨hk' (Nat.zero_lt_of_lt hgt), .inr (.inl ?_), .inr (.inl (hup.trans hnext))⟩
    show mid bf16Grid k < _
    rw [hmid, magnitude_add k hr]
    nlinarith

/-! ## What the bits stand for -/

def signOf (v : UInt32) : ℚ := if 2 ^ 31 ≤ v.toNat then -1 else 1

/-- What the bits of an `f32` stand for. -/
theorem ofBits_eq (v : UInt32) : ofBits v =
    if v.toNat % 2 ^ 31 < 255 * 2 ^ 23 then .num (signOf v * magnitude (v.toNat % 2 ^ 31))
    else if v.toNat % 2 ^ 31 = 255 * 2 ^ 23 then .inf (decide (2 ^ 31 ≤ v.toNat)) else .nan := by
  have hexp : v.toNat / 2 ^ 23 % 2 ^ 8 = v.toNat % 2 ^ 31 / 2 ^ 23 := by omega
  have hman : v.toNat % 2 ^ 23 = v.toNat % 2 ^ 31 % 2 ^ 23 := by omega
  have hlt : v.toNat % 2 ^ 31 < 2 ^ 31 := Nat.mod_lt _ (by decide)
  unfold ofBits
  dsimp only
  rw [hexp, hman]
  generalize v.toNat % 2 ^ 31 = m at hlt ⊢
  by_cases hmax : m / 2 ^ 23 = 255
  · have hge : ¬ m < 255 * 2 ^ 23 := by omega
    have hiff : m % 2 ^ 23 = 0 ↔ m = 255 * 2 ^ 23 := by omega
    rw [if_pos hmax, if_neg hge]
    simp only [hiff]
  · have hfin : m < 255 * 2 ^ 23 := by omega
    rw [if_neg hmax, if_pos hfin, magnitude]
    have hsign : (if decide (2 ^ 31 ≤ v.toNat) = true then (-1 : ℚ) else 1) = signOf v := by
      simp only [decide_eq_true_eq]
      rfl
    rw [hsign]
    split
    · rw [mul_div_assoc]
    · rw [mul_assoc, mul_div_assoc]

/-- What the bits of a bf16 stand for. -/
theorem ofBits_bf16ToF32 (h : UInt16) : ofBits (bf16ToF32 h) =
    if h.toNat % 2 ^ 15 < 32640 then
      .num ((if 2 ^ 15 ≤ h.toNat then -1 else 1) * bf16Grid (h.toNat % 2 ^ 15))
    else if h.toNat % 2 ^ 15 = 32640 then .inf (decide (2 ^ 15 ≤ h.toNat)) else .nan := by
  have hbits : (bf16ToF32 h).toNat % 2 ^ 31 = h.toNat % 2 ^ 15 * 2 ^ 16 := by
    rw [toNat_bf16ToF32]
    omega
  have hneg : 2 ^ 31 ≤ (bf16ToF32 h).toNat ↔ 2 ^ 15 ≤ h.toNat := by
    rw [toNat_bf16ToF32]
    omega
  have hlt : h.toNat % 2 ^ 15 * 2 ^ 16 < 255 * 2 ^ 23 ↔ h.toNat % 2 ^ 15 < 32640 := by omega
  have heq : h.toNat % 2 ^ 15 * 2 ^ 16 = 255 * 2 ^ 23 ↔ h.toNat % 2 ^ 15 = 32640 := by omega
  rw [ofBits_eq, hbits, signOf]
  simp only [hlt, heq, hneg]
  rfl

/-- **Rounding to bf16.** A NaN stays a NaN; for any other float the sign is kept, and its
magnitude is rounded to the nearest bf16 of that sign, from the middle to the one whose last bit
is zero, beyond the largest to infinity. A bf16 that is not a NaN comes back as it was, and a float
comes back exactly if the bits that were dropped are zeros. -/
theorem f32_to_bf16_spec (v : UInt32) :
    (isNan v = true → isNan (bf16ToF32 (f32ToBf16 v)) = true) ∧
    (isNan v = false →
      ((f32ToBf16 v).toNat / 2 ^ 15 = v.toNat / 2 ^ 31 ∧
        RoundsEven bf16Grid 32640 (magnitude (v.toNat % 2 ^ 31)) ((f32ToBf16 v).toNat % 2 ^ 15)) ∧
      (bf16ToF32 (f32ToBf16 v) = v ↔ v.toNat % 2 ^ 16 = 0)) ∧
    (∀ x, ofBits v = .num x → x = signOf v * magnitude (v.toNat % 2 ^ 31)) ∧
    ∀ h, isNan (bf16ToF32 h) = false → f32ToBf16 (bf16ToF32 h) = h := by
  refine ⟨isNan_back, fun hnan => ⟨?_, bf16_back_iff hnan⟩, fun x hx => ?_,
    fun h => f32ToBf16_bf16ToF32⟩
  · have hmax := isNan_eq_false.mp hnan
    obtain ⟨hsign, hlow, -⟩ := roundHigh_sign hmax
    rw [toNat_f32ToBf16 hnan]
    exact ⟨hsign, hlow ▸ roundsEven_round hmax⟩
  · rw [ofBits_eq] at hx
    split at hx
    · exact (Extended.Ext.num.inj hx).symm
    · split at hx <;> cases hx

/-! ## The io tier -/

/-- **A value passes the check exactly if its bits come back**, or some NaN for a NaN. -/
theorem bf16Ok_iff (v : UInt32) :
    bf16Ok v = true ↔ isNan v = true ∨ v.toNat % 2 ^ 16 = 0 := by
  unfold bf16Ok
  by_cases hnan : isNan v = true
  · rw [if_pos hnan, isNan_back hnan]
    exact iff_of_true rfl (.inl hnan)
  · have hfalse := Bool.eq_false_of_not_eq_true hnan
    rw [if_neg hnan, or_iff_right hnan, ← bf16_back_iff hfalse]
    constructor
    · intro heq
      rw [floatEq, Bool.and_eq_true, Bool.or_eq_true, beq_iff_eq, beq_iff_eq] at heq
      rcases heq.2 with heq | hzero
      · exact heq
      · -- both are zeros, and a zero comes back with its sign
        refine (bf16_back_iff hfalse).mpr ?_
        have hbits : (bf16ToF32 (f32ToBf16 v)).toNat % 2 ^ 31 ||| v.toNat % 2 ^ 31 = 0 := by
          have hmask := congrArg UInt32.toNat hzero
          rw [UInt32.toNat_and, UInt32.toNat_or] at hmask
          rw [← Nat.or_mod_two_pow]
          exact (Nat.and_two_pow_sub_one_eq_mod _ 31).symm.trans hmask
        have hlow := (Nat.or_eq_zero_iff.mp hbits).2
        omega
    · intro heq
      have hback : isNan (bf16ToF32 (f32ToBf16 v)) = false := by rw [heq, hfalse]
      rw [floatEq, hback, hfalse, heq, beq_self_eq_true]
      rfl

theorem back_of_bf16Ok (h : isNan v = true ∨ v.toNat % 2 ^ 16 = 0) :
    bf16ToF32 (f32ToBf16 v) = v ∨ isNan v = true ∧ isNan (bf16ToF32 (f32ToBf16 v)) = true := by
  by_cases hnan : isNan v = true
  · exact .inr ⟨hnan, isNan_back hnan⟩
  · exact .inl ((bf16_back_iff (Bool.eq_false_of_not_eq_true hnan)).mpr (h.resolve_left hnan))

theorem u16OfLe_leBytes16 (h : UInt16) : u16OfLe h.toUInt8 (h >>> 8).toUInt8 = h := by
  have hlt := h.toNat_lt
  have hlow : h.toUInt8.toUInt16.toNat = h.toNat % 2 ^ 8 := by
    rw [UInt8.toNat_toUInt16, UInt16.toNat_toUInt8]
  have hhigh : (h >>> 8).toUInt8.toUInt16.toNat = h.toNat / 2 ^ 8 := by
    rw [UInt8.toNat_toUInt16, UInt16.toNat_toUInt8, UInt16.toNat_shiftRight]
    show h.toNat >>> 8 % 2 ^ 8 = _
    rw [Nat.shiftRight_eq_div_pow]
    omega
  rw [← UInt16.toNat_inj, u16OfLe, UInt16.toNat_or, UInt16.toNat_shiftLeft, hlow, hhigh]
  show h.toNat % 2 ^ 8 ||| (h.toNat / 2 ^ 8) <<< 8 % 2 ^ 16 = _
  have hword : (h.toNat / 2 ^ 8) <<< 8 < 2 ^ 16 := by
    rw [Nat.shiftLeft_eq]
    omega
  rw [Nat.mod_eq_of_lt hword, Nat.or_comm, ← Nat.shiftLeft_add_eq_or_of_lt (by omega),
    Nat.shiftLeft_eq]
  omega

/-- **The bytes in bf16**: they are written exactly if every value passes, and then what is read
of them is each value's bf16. -/
theorem bf16Out_spec (w : List F32) :
    ((bf16Out w).isSome = true ↔ ∀ v ∈ w, isNan v = true ∨ v.toNat % 2 ^ 16 = 0) ∧
    ∀ bytes, bf16Out w = some bytes → bytes.length = w.length * 2 ∧
      floats2 (fun lo hi => bf16ToF32 (u16OfLe lo hi)) bytes = w.map fun v => bf16ToF32 (f32ToBf16 v) := by
  induction w with
  | nil =>
    refine ⟨iff_of_true rfl fun v hv => absurd hv List.not_mem_nil, fun bytes h => ?_⟩
    obtain rfl := Option.some.inj h
    exact ⟨rfl, rfl⟩
  | cons v w ih =>
    obtain ⟨hsome, hbytes⟩ := ih
    rw [bf16Out, List.forall_mem_cons, ← bf16Ok_iff]
    split
    next hpass =>
      refine ⟨?_, fun bytes h => ?_⟩
      · rw [Option.isSome_map, hsome, and_iff_right hpass]
      · obtain ⟨rest, hrest, rfl⟩ := Option.map_eq_some_iff.mp h
        obtain ⟨hlen, hread⟩ := hbytes rest hrest
        refine ⟨?_, ?_⟩
        · rw [List.length_append, hlen, List.length_cons, Nat.succ_mul, Nat.add_comm]
          rfl
        · show bf16ToF32 (u16OfLe _ _) :: floats2 _ rest = _
          rw [u16OfLe_leBytes16, hread, List.map_cons]
    next hpass =>
      exact ⟨iff_of_false Bool.false_ne_true fun h => hpass h.1, fun bytes h => nomatch h⟩

/-- **A tensor of the io tier is exact.** What is read from the container is what was written,
bit for bit, but that a NaN may be another NaN; and it is in bf16, at half the bytes, exactly if
every value but NaNs has zeros in its low half. -/
theorem io_tensor_exact (C : Conv) (w : List F32) :
    (∃ back, floats C (ioTensor w).1 (ioTensor w).2 = back.map some ∧
      List.Forall₂ (fun v b => b = v ∨ isNan v = true ∧ isNan b = true) w back) ∧
    ((ioTensor w).1 = .bf16 ↔ ∀ v ∈ w, isNan v = true ∨ v.toNat % 2 ^ 16 = 0) ∧
    ((ioTensor w).1 = .bf16 ∧ (ioTensor w).2.length = w.length * 2 ∨
      (ioTensor w).1 = .f32 ∧ (ioTensor w).2.length = w.length * 4) := by
  obtain ⟨hsome, hbytes⟩ := bf16Out_spec w
  unfold ioTensor
  split
  next bytes hout =>
    obtain ⟨hlen, hread⟩ := hbytes bytes hout
    have hall := hsome.mp (by rw [hout]; rfl)
    refine ⟨⟨_, congrArg (List.map some) hread, ?_⟩, iff_of_true rfl hall, .inl ⟨rfl, hlen⟩⟩
    refine List.forall₂_map_right_iff.mpr (List.forall₂_same.mpr fun v hv => ?_)
    exact back_of_bf16Ok (hall v hv)
  next hout =>
    have hnot : ¬ ∀ v ∈ w, isNan v = true ∨ v.toNat % 2 ^ 16 = 0 := by
      rw [← hsome, hout]
      exact Bool.false_ne_true
    refine ⟨⟨w, congrArg (List.map some) (floats4_pushS w), ?_⟩, iff_of_false nofun hnot,
      .inr ⟨rfl, length_pushS w⟩⟩
    exact List.forall₂_same.mpr fun v _ => .inl rfl

end Colibri.Convert
