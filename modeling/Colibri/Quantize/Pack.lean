import Colibri.Quantize.Tensor
import Mathlib.Data.Rat.Floor

/-!
# Quantizing a weight matrix

`qtensor_from_f32` keeps floats at sixteen bits and more, and stores a code for each weight
below: a byte down to five bits, a field of two bits under that. A code is the weight over
its row's scale, rounded, and goes up to `qmax`, which the number of bits gives. The byte and
the field hold what they hold whatever that number is. So they are wide enough at eight bits
and fewer, and at two; at other widths a row of ordinary weights always has a code that is
cut, or that runs into the next weight's field (`decodes_iff`).

The scale has a floor. Under it the codes are small, and a matrix of very small weights is
stored right at any width.

`rowScale` and `codeAt` are the code's, on values that may be infinite or NaN; `scaleOf` and
`codeOf` are the same for finite weights, on rationals (`rowScale_num`, `amax_num`), and the bounds
are proved there: a scale is positive, and a code is at most `qmax`.
-/

namespace Colibri.Quantize

open Blocks Extended Loader Nearest Vectors
open Extended.Ext (num inf nan)

/-! ## The quantizers -/

/-- `((1i32 << (bits - 1)) - 1)`: of no bits, the shift and both differences wrap. -/
def qmax (bits : Nat) : Int := if bits = 0 then 2 ^ 31 - 1 else 2 ^ (bits - 1) - 1

/-- `1e-8` -/
def scaleFloor : ℚ := 1 / 10 ^ 8

/-- `amax` of a row. -/
def amax (wr : List Val) : Val := wr.foldl (fun m v => Ext.max m v.abs) (num 0)

/-- The scale of a row. -/
def rowScale (bits : Nat) (wr : List Val) : Val :=
  Ext.max (amax wr / num ((qmax bits : Int) : ℚ)) (num scaleFloor)

/-- `(v * inv).round_ties_even().clamp(lo, qmax)` -/
def rounded (lo : ℚ) (bits : Nat) (s v : Val) : Val :=
  ((v * (num 1 / s)).round).clamp lo (qmax bits)

/-- A code of `quantize_rows`: `as i8`. -/
def int8Code (bits : Nat) (s v : Val) : Int8 :=
  Int8.ofInt ((rounded (-(qmax bits + 1)) bits s v).toInt (-128) 127)

/-- A code of `pack_int2`: `as i32`. -/
def int2Code (bits : Nat) (s v : Val) : Int := (rounded (-2) bits s v).toInt (-2 ^ 31) (2 ^ 31 - 1)

/-- `&w[row * i..(row + 1) * i]`, for every row. -/
def rowsOf (w : List Val) (o i : Nat) : Option (List (List Val)) :=
  (List.range o).mapM fun row => slice w (row * i) ((row + 1) * i)

def quantizeRows (w : List Val) (o i bits : Nat) : Option (List Int8 × List Val) :=
  -- the capacities of `q` and `scale`
  if o * i < 2 ^ 63 ∧ o * 4 < 2 ^ 63 then do
    let rows ← rowsOf w o i
    return (rows.flatMap fun wr => wr.map (int8Code bits (rowScale bits wr)),
      rows.map (rowScale bits))
  else none

/-- Four weights of a row, from column `col` on: `byte |= ((v + 2) << (k * 2)) as u8`. -/
def packByte (bits : Nat) (s : Val) (wr : List Val) (col : Nat) : UInt8 :=
  (List.range 4).foldl
    (fun byte k => match wr[col + k]? with
      | some v => byte ||| (UInt8.ofInt (int2Code bits s v + 2) <<< UInt8.ofNat (k * 2))
      | none => byte) 0

def packRow (bits i : Nat) (wr : List Val) : List UInt8 :=
  (List.range ((i + 3) / 4)).map fun b => packByte bits (rowScale bits wr) wr (4 * b)

def packInt2 (w : List Val) (o i bits : Nat) : Option (List UInt8 × List Val) :=
  if o * ((i + 3) / 4) < 2 ^ 63 ∧ o * 4 < 2 ^ 63 then do
    let rows ← rowsOf w o i
    return (rows.flatMap (packRow bits i), rows.map (rowScale bits))
  else none

def qtensorFromF32 (w : List Val) (o i bits : Nat) : Option QTensor :=
  if 16 ≤ bits then
    some { fmtCode := 0, qf := w, o := asI32 o, i := asI32 i }
  else if 5 ≤ bits then do
    let (q8, s) ← quantizeRows w o i bits
    return { fmtCode := 1, q8, s, o := asI32 o, i := asI32 i }
  else do
    let (q4, s) ← packInt2 w o i bits
    return { fmtCode := 3, q4 := .owned q4, s, o := asI32 o, i := asI32 i }

/-! ## What is built -/

section

variable {w : List Val} {o i bits : Nat} {t : QTensor}

/-- The weights of row `row`. -/
def rowAt {α : Type} (w : List α) (i row : Nat) : List α := (w.drop (row * i)).take i

theorem length_rowAt {α : Type} {w : List α} {row : Nat} (hw : o * i ≤ w.length) (hrow : row < o) :
    (rowAt w i row).length = i := by
  have hle : (row + 1) * i ≤ o * i := Nat.mul_le_mul_right i hrow
  rw [Nat.succ_mul] at hle
  rw [rowAt, List.length_take, List.length_drop]
  omega

theorem getElem?_rowAt {α : Type} (w : List α) {row k : Nat} (hk : k < i) :
    (rowAt w i row)[k]? = w[row * i + k]? := by
  rw [rowAt, List.getElem?_take_of_lt hk, List.getElem?_drop]

theorem slice_rowAt {row : Nat} (hw : (row + 1) * i ≤ w.length) :
    slice w (row * i) ((row + 1) * i) = some (rowAt w i row) := by
  have hstep : (row + 1) * i = row * i + i := Nat.succ_mul row i
  rw [slice, if_pos ⟨by omega, hw⟩, hstep, Nat.add_sub_cancel_left, rowAt]

theorem rowsOf_eq (hw : o * i ≤ w.length) : rowsOf w o i = some (tab o (rowAt w i)) :=
  mapM_eq_map fun _ hrow => slice_rowAt
    ((Nat.mul_le_mul_right i (List.mem_range.mp hrow)).trans hw)

theorem rowsOf_some {rows : List (List Val)} (h : rowsOf w o i = some rows) :
    o * i ≤ w.length ∧ rows = tab o (rowAt w i) := by
  have hle : o * i ≤ w.length := by
    rcases Nat.eq_zero_or_pos o with rfl | ho
    · rw [Nat.zero_mul]
      exact Nat.zero_le _
    · -- the last row's slice ends there
      obtain ⟨r, hr⟩ := exists_of_mapM h (List.mem_range.mpr (show o - 1 < o by omega))
      rw [Nat.sub_add_cancel ho] at hr
      unfold slice at hr
      split at hr
      next hfits => exact hfits.2
      next => cases hr
  rw [rowsOf_eq hle] at h
  exact ⟨hle, (Option.some.inj h).symm⟩

/-- What is built at fewer than sixteen bits. -/
theorem built_eq (hbits : bits < 16) (h : qtensorFromF32 w o i bits = some t) :
    o * i ≤ w.length ∧ t.o = asI32 o ∧ t.i = asI32 i ∧
      t.s = tab o (fun row => rowScale bits (rowAt w i row)) ∧
      if 5 ≤ bits then t.fmtCode = 1 ∧ t.q8 = blocks o (fun row =>
        (rowAt w i row).map (int8Code bits (rowScale bits (rowAt w i row))))
      else t.fmtCode = 3 ∧ t.q4 = .owned (blocks o fun row => packRow bits i (rowAt w i row)) := by
  have hflat : ∀ {α : Type} (f : List Val → List α),
      (tab o (rowAt w i)).flatMap f = blocks o fun row => f (rowAt w i row) :=
    fun f => List.flatMap_map _ _ _
  rw [qtensorFromF32, if_neg (by omega)] at h
  split at h
  next hint8 =>
    obtain ⟨⟨q8, s⟩, hq, h⟩ := Option.bind_eq_some_iff.mp h
    cases h
    rw [quantizeRows, Option.ite_none_right_eq_some] at hq
    obtain ⟨rows, hrows, hq⟩ := Option.bind_eq_some_iff.mp hq.2
    obtain ⟨hle, rfl⟩ := rowsOf_some hrows
    cases hq
    rw [if_pos hint8]
    exact ⟨hle, rfl, rfl, map_tab .., rfl, hflat _⟩
  next hint2 =>
    obtain ⟨⟨q4, s⟩, hq, h⟩ := Option.bind_eq_some_iff.mp h
    cases h
    rw [packInt2, Option.ite_none_right_eq_some] at hq
    obtain ⟨rows, hrows, hq⟩ := Option.bind_eq_some_iff.mp hq.2
    obtain ⟨hle, rfl⟩ := rowsOf_some hrows
    cases hq
    rw [if_neg hint2]
    exact ⟨hle, rfl, rfl, map_tab .., rfl, congrArg Bytes.owned (hflat _)⟩

/-- It is built if there are as many weights as the shape has. -/
theorem built_isSome (hw : o * i ≤ w.length) (hlen : w.length < 2 ^ 61) (ho : o < 2 ^ 61) :
    (qtensorFromF32 w o i bits).isSome := by
  have hpacked : o * ((i + 3) / 4) ≤ o * i := by
    rcases Nat.eq_zero_or_pos i with rfl | hi
    · exact Nat.le_refl _
    · exact Nat.mul_le_mul_left o (by omega)
  unfold qtensorFromF32
  split
  · rfl
  · split
    · rw [quantizeRows, if_pos ⟨by omega, by omega⟩, rowsOf_eq hw]
      rfl
    · rw [packInt2, if_pos ⟨by omega, by omega⟩, rowsOf_eq hw]
      rfl

end

theorem scaleFloor_pos : 0 < scaleFloor := by norm_num [scaleFloor]

/-- The scale of a row is positive, or infinite. -/
theorem rowScale_cases (bits : Nat) (wr : List Val) :
    (∃ s, 0 < s ∧ rowScale bits wr = num s) ∨ rowScale bits wr = inf false := by
  unfold rowScale
  cases amax wr / num ((qmax bits : Int) : ℚ) with
  | num x => exact .inl ⟨_, lt_max_of_lt_right scaleFloor_pos, rfl⟩
  | inf neg =>
    cases neg with
    | true => exact .inl ⟨_, scaleFloor_pos, rfl⟩
    | false => exact .inr rfl
  | nan => exact .inl ⟨_, scaleFloor_pos, rfl⟩

/-! ## Finite weights -/

/-- The greatest magnitude in a row. -/
def amaxOf (wr : List ℚ) : ℚ := wr.foldl (fun m x => max m |x|) 0

/-- The scale of a row of finite weights. -/
def scaleOf (bits : Nat) (wr : List ℚ) : ℚ := max (amaxOf wr / qmax bits) scaleFloor

/-- The code that is asked for. -/
def codeOf (s x : ℚ) : Int := roundTiesEven (x / s)

section

variable {bits : Nat} {wr : List ℚ} {x : ℚ}

theorem foldl_max_le (l : List ℚ) (a : ℚ) :
    a ≤ l.foldl (fun m x => max m |x|) a ∧ (∀ x ∈ l, |x| ≤ l.foldl (fun m x => max m |x|) a) ∧
      (l.foldl (fun m x => max m |x|) a = a ∨ ∃ x ∈ l, l.foldl (fun m x => max m |x|) a = |x|) := by
  induction l generalizing a with
  | nil => exact ⟨le_refl a, fun x hx => absurd hx List.not_mem_nil, Or.inl rfl⟩
  | cons y l ih =>
    obtain ⟨hle, hall, hor⟩ := ih (max a |y|)
    rw [List.foldl_cons]
    refine ⟨(le_max_left a _).trans hle, fun x hx => ?_, ?_⟩
    · rcases List.mem_cons.mp hx with rfl | hx
      · exact (le_max_right a _).trans hle
      · exact hall x hx
    · rcases hor with h | ⟨x, hx, h⟩
      · rcases max_choice a |y| with hm | hm
        · exact Or.inl (h.trans hm)
        · exact Or.inr ⟨y, List.mem_cons_self .., h.trans hm⟩
      · exact Or.inr ⟨x, List.mem_cons_of_mem _ hx, h⟩

theorem abs_le_amaxOf (hx : x ∈ wr) : |x| ≤ amaxOf wr := (foldl_max_le wr 0).2.1 x hx

theorem amaxOf_mem (wr : List ℚ) : amaxOf wr = 0 ∨ ∃ x ∈ wr, amaxOf wr = |x| :=
  (foldl_max_le wr 0).2.2

theorem qmax_pos (hbits : 2 ≤ bits) : 0 < qmax bits := by
  have hpow : (2 : Int) ^ 1 ≤ 2 ^ (bits - 1) := pow_le_pow_right₀ (by decide) (by omega)
  rw [qmax, if_neg (by omega)]
  omega

theorem qmax_lt (hbits : 2 ≤ bits) (hbits' : bits < 16) : qmax bits < 2 ^ 15 := by
  have hpow : (2 : Int) ^ (bits - 1) ≤ 2 ^ 14 := pow_le_pow_right₀ (by decide) (by omega)
  rw [qmax, if_neg (by omega)]
  omega

theorem scaleOf_pos (bits : Nat) (wr : List ℚ) : 0 < scaleOf bits wr :=
  scaleFloor_pos.trans_le (le_max_right ..)

/-- No weight of a row is more than `qmax` steps from zero. -/
theorem abs_div_scaleOf_le (hbits : 2 ≤ bits) (hx : x ∈ wr) : |x / scaleOf bits wr| ≤ qmax bits := by
  have hq : (0 : ℚ) < qmax bits := by exact_mod_cast qmax_pos hbits
  have hs := scaleOf_pos bits wr
  rw [abs_div, abs_of_pos hs, div_le_iff₀ hs]
  calc |x| ≤ amaxOf wr := abs_le_amaxOf hx
    _ = qmax bits * (amaxOf wr / qmax bits) := (mul_div_cancel₀ _ hq.ne').symm
    _ ≤ qmax bits * scaleOf bits wr := mul_le_mul_of_nonneg_left (le_max_left ..) hq.le

/-- **A code is at most `qmax`.** -/
theorem abs_codeOf_le (hbits : 2 ≤ bits) (hx : x ∈ wr) : |codeOf (scaleOf bits wr) x| ≤ qmax bits :=
  abs_roundTiesEven_le (abs_div_scaleOf_le hbits hx)

/-- The code is within half a step of the weight. -/
theorem abs_codeOf_mul_sub {s : ℚ} (hs : 0 < s) (x : ℚ) : |codeOf s x * s - x| ≤ s / 2 := by
  have hhalf := abs_roundTiesEven_sub (x / s)
  calc |codeOf s x * s - x| = |(codeOf s x - x / s) * s| := by
        rw [sub_mul, div_mul_cancel₀ x hs.ne']
    _ = |(codeOf s x : ℚ) - x / s| * s := by rw [abs_mul, abs_of_pos hs]
    _ ≤ 1 / 2 * s := mul_le_mul_of_nonneg_right hhalf hs.le
    _ = s / 2 := by ring

/-! ### On floats -/

theorem amax_num (wr : List ℚ) : amax (wr.map num) = num (amaxOf wr) := by
  have hfold : ∀ (l : List ℚ) (a : ℚ), (l.map num).foldl (fun m v => Ext.max m v.abs) (num a)
      = num (l.foldl (fun m x => max m |x|) a) := by
    intro l
    induction l with
    | nil => exact fun _ => rfl
    | cons x l ih => exact fun a => ih (max a |x|)
  exact hfold wr 0

theorem rowScale_num (hbits : 2 ≤ bits) (wr : List ℚ) :
    rowScale bits (wr.map num) = num (scaleOf bits wr) := by
  have hq : ((qmax bits : Int) : ℚ) ≠ 0 := by exact_mod_cast (qmax_pos hbits).ne'
  rw [rowScale, amax_num, Ext.num_div hq]
  rfl

/-- Rounding to a code between `lo` and `qmax`. -/
theorem rounded_num (hbits : 2 ≤ bits) (hx : x ∈ wr) (lo : Int) :
    rounded lo bits (num (scaleOf bits wr)) (num x)
      = num ((max lo (codeOf (scaleOf bits wr) x) : Int) : ℚ) := by
  have hs := scaleOf_pos bits wr
  have hle : codeOf (scaleOf bits wr) x ≤ qmax bits := (abs_le.mp (abs_codeOf_le hbits hx)).2
  have hcast : ((codeOf (scaleOf bits wr) x : Int) : ℚ) ≤ qmax bits := by exact_mod_cast hle
  rw [rounded, Ext.num_div hs.ne', Ext.num_mul, mul_one_div]
  show num (max (lo : ℚ) (min ((codeOf (scaleOf bits wr) x : Int) : ℚ) (qmax bits))) = _
  rw [min_eq_left hcast, Int.cast_max]

theorem toInt_num (lo hi m : Int) : (num (m : ℚ) : Val).toInt lo hi = max lo (min m hi) := by
  show max lo (min (if (0 : ℚ) ≤ m then ⌊(m : ℚ)⌋ else ⌈(m : ℚ)⌉) hi) = _
  rw [Int.floor_intCast, Int.ceil_intCast, ite_self]

/-- A code of `quantize_rows` is cut to a byte. -/
theorem int8Code_num (hbits : 2 ≤ bits) (hx : x ∈ wr) :
    (int8Code bits (num (scaleOf bits wr)) (num x)).toInt
      = max (-128) (min (codeOf (scaleOf bits wr) x) 127) := by
  have hbound := (abs_le.mp (abs_codeOf_le hbits hx)).1
  have hlo : max (-(qmax bits + 1)) (codeOf (scaleOf bits wr) x) = codeOf (scaleOf bits wr) x :=
    max_eq_right (by omega)
  have hround := rounded_num hbits hx (-(qmax bits + 1))
  rw [hlo] at hround
  push_cast at hround
  rw [int8Code, hround, toInt_num]
  refine Int8.toInt_ofInt_of_le ?_ ?_
  · exact le_max_left ..
  · exact (max_lt (by decide) (min_lt_of_right_lt (by decide)))

/-- A code of `pack_int2` is cut below only. -/
theorem int2Code_num (hbits : 2 ≤ bits) (hbits' : bits < 16) (hx : x ∈ wr) :
    int2Code bits (num (scaleOf bits wr)) (num x) = max (-2) (codeOf (scaleOf bits wr) x) := by
  have hle : codeOf (scaleOf bits wr) x ≤ qmax bits := (abs_le.mp (abs_codeOf_le hbits hx)).2
  have hq : qmax bits < 2 ^ 15 := qmax_lt hbits hbits'
  have hround := rounded_num hbits hx (-2)
  rw [Int.cast_neg, Int.cast_ofNat] at hround
  rw [int2Code, hround, toInt_num]
  omega

end

/-! ## The fields of a byte -/

theorem field_or : ∀ a b c d : Fin 4,
    let byte := ((((0 : UInt8) ||| UInt8.ofNat a <<< 0) ||| UInt8.ofNat b <<< 2) |||
      UInt8.ofNat c <<< 4) ||| UInt8.ofNat d <<< 6
    field byte 0 = UInt8.ofNat a ∧ field byte 1 = UInt8.ofNat b ∧ field byte 2 = UInt8.ofNat c ∧
      field byte 3 = UInt8.ofNat d := by
  decide

theorem field_mod (byte : UInt8) (k : Nat) : field byte (k % 4) = field byte k := by
  rw [field, field, Nat.mod_mod]

theorem field_le (byte : UInt8) (k : Nat) : (field byte k).toNat ≤ 3 := by
  rw [field, UInt8.toNat_and]
  exact Nat.and_le_right

section

variable {bits : Nat} {s : Val} {wr : List Val}

/-- What is put into the byte for column `k`: nothing beyond the row. -/
def codeAt (bits : Nat) (s : Val) (wr : List Val) (k : Nat) : UInt8 :=
  match wr[k]? with
  | some v => UInt8.ofInt (int2Code bits s v + 2)
  | none => 0

theorem packByte_eq (bits : Nat) (s : Val) (wr : List Val) (col : Nat) :
    packByte bits s wr col
      = ((((0 : UInt8) ||| codeAt bits s wr col <<< 0) ||| codeAt bits s wr (col + 1) <<< 2) |||
        codeAt bits s wr (col + 2) <<< 4) ||| codeAt bits s wr (col + 3) <<< 6 := by
  have hstep : ∀ (byte : UInt8) (k : Nat), (match wr[col + k]? with
      | some v => byte ||| (UInt8.ofInt (int2Code bits s v + 2) <<< UInt8.ofNat (k * 2))
      | none => byte) = byte ||| codeAt bits s wr (col + k) <<< UInt8.ofNat (k * 2) := by
    intro byte k
    unfold codeAt
    cases wr[col + k]? with
    | none => rw [UInt8.zero_shiftLeft, UInt8.or_zero]
    | some v => rfl
  unfold packByte
  simp only [hstep]
  rfl

/-- **Codes below four are read back**, each from its own field. -/
theorem field_packByte (h : ∀ k, (codeAt bits s wr k).toNat < 4) (k : Nat) :
    field (packByte bits s wr (4 * (k / 4))) k = codeAt bits s wr k := by
  have hof : ∀ k, UInt8.ofNat (⟨_, h k⟩ : Fin 4) = codeAt bits s wr k :=
    fun k => UInt8.ofNat_toNat
  have hmod : 4 * (k / 4) + k % 4 = k := Nat.div_add_mod k 4
  have hlt : k % 4 < 4 := Nat.mod_lt _ (by decide)
  have hfields := field_or ⟨_, h (4 * (k / 4))⟩ ⟨_, h (4 * (k / 4) + 1)⟩ ⟨_, h (4 * (k / 4) + 2)⟩
    ⟨_, h (4 * (k / 4) + 3)⟩
  dsimp only [hof] at hfields
  rw [hof, hof, hof, hof, ← packByte_eq] at hfields
  obtain ⟨h₀, h₁, h₂, h₃⟩ := hfields
  rw [← field_mod]
  generalize k / 4 = b at *
  generalize k % 4 = j at *
  subst hmod
  match j, hlt with
  | 0, _ => exact h₀
  | 1, _ => exact h₁
  | 2, _ => exact h₂
  | 3, _ => exact h₃

end

end Colibri.Quantize
