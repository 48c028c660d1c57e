import Colibri.Quantize.Pack
import Mathlib.Tactic.IntervalCases

/-!
# Which widths decode

A matrix of finite weights, quantized and read back a row at a time. What comes back is the
weight's code times the row's scale, and that is within half a step of the weight, if the
code is one the storage holds (`decodes_iff`).

At two bits, and from five to eight, every code is. At any other width the greatest weight of
a row has the code `qmax`, which is not, unless the scale is at its floor.

`readBack_int8` and `readBack_int2` are the two ways of storing, and `readBack` both: the code that
is read is the one that was stored, cut to what the storage holds.
-/

namespace Colibri.Quantize

open Blocks Extended Loader Nearest Vectors
open Extended.Ext (num inf nan)

/-! ## What the storage holds -/

/-- The least code a byte or a field of two bits holds. -/
def storedLo (bits : Nat) : Int := if 5 ≤ bits then -128 else -2

/-- The greatest. -/
def storedHi (bits : Nat) : Int := if 5 ≤ bits then 127 else 1

/-- The storage holds the code `c`. -/
def Stored (bits : Nat) (c : Int) : Prop := storedLo bits ≤ c ∧ c ≤ storedHi bits

/-- A weight whose code is stored if its row's scale is at the floor. -/
def Small (bits : Nat) (x : ℚ) : Prop :=
  (storedLo bits - 1 / 2) * scaleFloor ≤ x ∧ x < (storedHi bits + 1 / 2) * scaleFloor

section

variable {bits : Nat} {wr : List ℚ} {x : ℚ}

theorem stored_even_odd (bits : Nat) : storedLo bits % 2 = 0 ∧ storedHi bits % 2 = 1 ∧
    storedLo bits = -(storedHi bits + 1) ∧ 0 < storedHi bits := by
  unfold storedLo storedHi
  split <;> decide

theorem qmax_storedHi (hbits : 2 ≤ bits) (hbits' : bits < 16) :
    (qmax bits ≤ storedHi bits ↔ bits = 2 ∨ (5 ≤ bits ∧ bits ≤ 8)) ∧
      (qmax bits ≤ storedHi bits ∨ storedHi bits + 2 ≤ qmax bits) := by
  unfold qmax storedHi
  interval_cases bits <;> decide

theorem stored_floor_iff (bits : Nat) (x : ℚ) : Stored bits (codeOf scaleFloor x) ↔ Small bits x := by
  obtain ⟨heven, hodd, -, -⟩ := stored_even_odd bits
  rw [Stored, Small, codeOf, le_roundTiesEven_iff heven, roundTiesEven_le_iff hodd,
    le_div_iff₀ scaleFloor_pos, div_lt_iff₀ scaleFloor_pos]

/-- The scale of a row of small weights is the floor, where the codes go beyond the storage. -/
theorem scaleOf_small (hq : storedHi bits + 2 ≤ qmax bits) (h : ∀ x ∈ wr, Small bits x) :
    scaleOf bits wr = scaleFloor := by
  obtain ⟨-, -, hlo, hpos⟩ := stored_even_odd bits
  have hq' : (storedHi bits : ℚ) + 2 ≤ qmax bits := by exact_mod_cast hq
  have hpos' : (0 : ℚ) < storedHi bits := by exact_mod_cast hpos
  have hlo' : (storedLo bits : ℚ) = -(storedHi bits + 1) := by exact_mod_cast hlo
  have hqpos : (0 : ℚ) < qmax bits := by linarith
  have hfloor := scaleFloor_pos
  refine max_eq_right ((div_le_iff₀ hqpos).mpr ?_)
  rcases amaxOf_mem wr with hzero | ⟨x, hx, hmax⟩
  · rw [hzero]
    positivity
  · obtain ⟨hge, hlt⟩ := h x hx
    rw [hlo'] at hge
    rw [hmax, abs_le]
    constructor
    · nlinarith
    · nlinarith

/-- **When the codes of a row are stored**: they do not go beyond the storage, or the
weights are small. -/
theorem stored_iff (hbits : 2 ≤ bits) (hbits' : bits < 16) (wr : List ℚ) :
    (∀ x ∈ wr, Stored bits (codeOf (scaleOf bits wr) x)) ↔
      qmax bits ≤ storedHi bits ∨ ∀ x ∈ wr, Small bits x := by
  obtain ⟨-, -, hlo, -⟩ := stored_even_odd bits
  constructor
  · intro h
    rcases (qmax_storedHi hbits hbits').2 with hle | hgt
    · exact .inl hle
    · refine .inr ?_
      have hfloor : scaleOf bits wr = scaleFloor := by
        by_contra hne
        have hq : (0 : ℚ) < qmax bits := by exact_mod_cast qmax_pos hbits
        -- above the floor, the greatest weight is `qmax` steps from zero
        have hscale : scaleOf bits wr = amaxOf wr / qmax bits :=
          (max_choice _ _).resolve_right hne
        have hspos := scaleOf_pos bits wr
        have hapos : 0 < amaxOf wr := by
          rw [hscale] at hspos
          exact (div_pos_iff_of_pos_right hq).mp hspos
        obtain ⟨x, hx, hmax⟩ := (amaxOf_mem wr).resolve_left hapos.ne'
        have hstep : |x| / scaleOf bits wr = qmax bits := by
          rw [← hmax, hscale, div_div_cancel₀ hapos.ne']
        obtain ⟨hge, hle⟩ := h x hx
        rcases abs_choice x with hx' | hx'
        · rw [hx'] at hstep
          rw [codeOf, hstep, roundTiesEven_intCast] at hle
          omega
        · have hneg : x / scaleOf bits wr = ((-qmax bits : Int) : ℚ) := by
            rw [hx', neg_div] at hstep
            push_cast
            linarith
          rw [codeOf, hneg, roundTiesEven_intCast] at hge
          omega
      intro x hx
      have hstored := h x hx
      rw [hfloor] at hstored
      exact (stored_floor_iff bits x).mp hstored
  · rintro (hle | hsmall) x hx
    · have habs := abs_le.mp (abs_codeOf_le hbits hx)
      exact ⟨by omega, by omega⟩
    · rcases (qmax_storedHi hbits hbits').2 with hle | hgt
      · have habs := abs_le.mp (abs_codeOf_le hbits hx)
        exact ⟨by omega, by omega⟩
      · rw [scaleOf_small hgt hsmall]
        exact (stored_floor_iff bits x).mpr (hsmall x hx)

end

/-! ## Rows read back -/

theorem asUsize_asI32 (n : Nat) : (n < 2 ^ 31 ∧ asUsize (asI32 n) = n) ∨
    (2 ^ 31 ≤ n ∧ (asUsize (asI32 n) < 2 ^ 31 ∨
      (2 ^ 64 - 2 ^ 31 ≤ asUsize (asI32 n) ∧ asUsize (asI32 n) < 2 ^ 64))) := by
  unfold asUsize asI32 usizeCount
  omega

theorem asUsize_asI32_of_lt {n : Nat} (hn : n < 2 ^ 31) : asUsize (asI32 n) = n :=
  (asUsize_asI32 n).elim And.right fun hbig => absurd hbig.1 (by omega)

theorem slice_blocks {α : Type} {n m b : Nat} {f : Nat → List α} (hf : ∀ i < n, (f i).length = m)
    (hb : b < n) : slice (blocks n f) (b * m) ((b + 1) * m) = some (f b) := by
  have hle : (b + 1) * m ≤ n * m := Nat.mul_le_mul_right m hb
  have hstep : (b + 1) * m = b * m + m := Nat.succ_mul b m
  rw [slice, if_pos ⟨by omega, by rwa [length_blocks hf]⟩, hstep, Nat.add_sub_cancel_left,
    chunk_blocks hf hb]

theorem length_packRow (bits i : Nat) (wr : List Val) : (packRow bits i wr).length = (i + 3) / 4 := by
  rw [packRow, List.length_map, List.length_range]

section

variable {w : List Val} {o i bits row : Nat} {t : QTensor}

theorem scale_row (hbits : bits < 16) (h : qtensorFromF32 w o i bits = some t) (hrow : row < o) :
    t.s[row]? = some (rowScale bits (rowAt w i row)) := by
  obtain ⟨-, -, -, hs, -⟩ := built_eq hbits h
  rw [hs, tab, List.getElem?_map, List.getElem?_range hrow, Option.map_some]

/-- A row of bytes, decoded. -/
theorem int8_row (hint8 : 5 ≤ bits) (hbits : bits < 16) (hi : i < 2 ^ 31)
    (h : qtensorFromF32 w o i bits = some t) (hrow : row < o) :
    qtRowDequant t row = some ((rowAt w i row).map fun v =>
      int8 (int8Code bits (rowScale bits (rowAt w i row)) v) * rowScale bits (rowAt w i row)) := by
  obtain ⟨hle, -, hcols, -, hq⟩ := built_eq hbits h
  have hscale := scale_row hbits h hrow
  rw [if_pos hint8] at hq
  have hr : qtRowDequant t row = (do
      let q ← slice t.q8 (row * i) ((row + 1) * i)
      let s ← t.s[row]?
      return q.map fun c => int8 c * s) := by
    unfold qtRowDequant
    rw [hq.1, hcols, asUsize_asI32_of_lt hi]
    exact if_pos (by omega)
  rw [hq.2, slice_blocks (fun b hb => by rw [List.length_map, length_rowAt hle hb]) hrow,
    hscale] at hr
  rw [hr]
  exact congrArg some (List.map_map ..)

/-- A row of fields, decoded. -/
theorem int2_row (hint2 : bits < 5) (hi : i < 2 ^ 31) (h : qtensorFromF32 w o i bits = some t)
    (hrow : row < o) :
    qtRowDequant t row = some (tab i fun k => int2 (field (packByte bits
      (rowScale bits (rowAt w i row)) (rowAt w i row) (4 * (k / 4))) k)
        * rowScale bits (rowAt w i row)) := by
  obtain ⟨hle, -, hcols, -, hq⟩ := built_eq (by omega) h
  have hscale := scale_row (by omega) h hrow
  rw [if_neg (by omega)] at hq
  have hr : qtRowDequant t row = (do
      let q ← slice (← t.q4.asSlice) (row * ((i + 3) / 4)) ((row + 1) * ((i + 3) / 4))
      let s ← t.s[row]?
      (List.range i).mapM fun k => do return int2 (field (← q[k / 4]?) k) * s) := by
    unfold qtRowDequant
    rw [hq.1, hcols, asUsize_asI32_of_lt hi]
    exact if_pos (by omega)
  rw [hq.2, Bytes.asSlice, Option.bind_eq_bind, Option.bind_some,
    slice_blocks (fun b _ => length_packRow ..) hrow, hscale] at hr
  refine hr.trans (mapM_eq_map fun k hk => ?_)
  have hk := List.mem_range.mp hk
  rw [packRow, List.getElem?_map, List.getElem?_range (by omega)]
  rfl

end

/-! ### Finite weights -/

section

variable {w : List ℚ} {o i bits row : Nat} {t : QTensor}

theorem rowAt_num (w : List ℚ) (i row : Nat) : rowAt (w.map num) i row = (rowAt w i row).map num := by
  rw [rowAt, rowAt, List.map_take, List.map_drop]

theorem scale_row_num (hbits : 2 ≤ bits) (hbits' : bits < 16)
    (h : qtensorFromF32 (w.map num) o i bits = some t) (hrow : row < o) :
    t.s[row]? = some (num (scaleOf bits (rowAt w i row))) := by
  rw [scale_row hbits' h hrow, rowAt_num, rowScale_num hbits]

/-- What the row decoder has for a column: a code that is stored. It is the weight's, if all
the codes of the row are stored. -/
def ReadBack (bits : Nat) (wr : List ℚ) (r : List Val) (col : Nat) (x : ℚ) : Prop :=
  ∃ c : Int, r[col]? = some (num (c * scaleOf bits wr)) ∧ Stored bits c ∧
    ((∀ y ∈ wr, Stored bits (codeOf (scaleOf bits wr) y)) → c = codeOf (scaleOf bits wr) x)

theorem readBack_int8 (hint8 : 5 ≤ bits) (hbits' : bits < 16) (hi : i < 2 ^ 31)
    (h : qtensorFromF32 (w.map num) o i bits = some t) (hrow : row < o) :
    ∃ r, qtRowDequant t row = some r ∧ ∀ col x, (rowAt w i row)[col]? = some x →
      ReadBack bits (rowAt w i row) r col x := by
  have hr := int8_row hint8 hbits' hi h hrow
  rw [rowAt_num, rowScale_num (by omega)] at hr
  refine ⟨_, hr, fun col x hx => ?_⟩
  have hmem := List.mem_of_getElem? hx
  refine ⟨max (-128) (min (codeOf (scaleOf bits (rowAt w i row)) x) 127), ?_, ?_, fun hall => ?_⟩
  · rw [List.getElem?_map, List.getElem?_map, hx, ← int8Code_num (by omega) hmem]
    rfl
  · rw [Stored, storedLo, storedHi, if_pos hint8, if_pos hint8]
    omega
  · have hstored := hall x hmem
    rw [Stored, storedLo, storedHi, if_pos hint8, if_pos hint8] at hstored
    omega

theorem toNat_ofInt {m : Int} (hlo : 0 ≤ m) (hhi : m < 256) : ((UInt8.ofInt m).toNat : Int) = m := by
  have hmod : m % 2 ^ 8 = m := Int.emod_eq_of_lt hlo (by omega)
  have hlt : m.toNat < 2 ^ 8 := by omega
  rw [UInt8.ofInt, hmod, UInt8.toNat_ofNat', Nat.mod_eq_of_lt hlt, Int.toNat_of_nonneg hlo]

/-- What is read back of fields. -/
theorem readBack_int2 (hbits : 2 ≤ bits) (hint2 : bits < 5) (hi : i < 2 ^ 31)
    (h : qtensorFromF32 (w.map num) o i bits = some t) (hrow : row < o) :
    ∃ r, qtRowDequant t row = some r ∧ ∀ col x, (rowAt w i row)[col]? = some x →
      ReadBack bits (rowAt w i row) r col x := by
  obtain ⟨hle, -⟩ := built_eq (by omega) h
  have hlen : (rowAt w i row).length = i := length_rowAt (by rwa [List.length_map] at hle) hrow
  have hr := int2_row hint2 hi h hrow
  rw [rowAt_num, rowScale_num hbits] at hr
  generalize hwr : rowAt w i row = wr at *
  let byte : Nat → UInt8 := fun b => packByte bits (num (scaleOf bits wr)) (wr.map num) (4 * b)
  refine ⟨_, hr, ?_⟩
  intro col x hx
  have hcol : col < i := hlen ▸ (List.getElem?_eq_some_iff.mp hx).1
  have hfield := field_le (byte (col / 4)) col
  refine ⟨(field (byte (col / 4)) col).toNat - 2, ?_, ?_, fun hall => ?_⟩
  · rw [tab, List.getElem?_map, List.getElem?_range hcol]
    refine congrArg some ?_
    show num (_ * _) = _
    push_cast
    rfl
  · rw [Stored, storedLo, storedHi, if_neg (by omega), if_neg (by omega)]
    omega
  · -- no code runs into the next one's field
    have hcode : ∀ k y, wr[k]? = some y →
        ((codeAt bits (num (scaleOf bits wr)) (wr.map num) k).toNat : Int)
          = codeOf (scaleOf bits wr) y + 2 ∧ codeOf (scaleOf bits wr) y < 2 := by
      intro k y hy
      have hmem := List.mem_of_getElem? hy
      have hstored := hall y hmem
      rw [Stored, storedLo, storedHi, if_neg (by omega), if_neg (by omega)] at hstored
      rw [codeAt, List.getElem?_map, hy]
      show ((UInt8.ofInt (int2Code bits (num (scaleOf bits wr)) (num y) + 2)).toNat : Int) = _ ∧ _
      rw [int2Code_num hbits (by omega) hmem, max_eq_right hstored.1,
        toNat_ofInt (by omega) (by omega)]
      exact ⟨rfl, by omega⟩
    have hlt : ∀ k, (codeAt bits (num (scaleOf bits wr)) (wr.map num) k).toNat < 4 := by
      intro k
      cases hk : wr[k]? with
      | none =>
        rw [codeAt, List.getElem?_map, hk]
        exact (by decide : (0 : UInt8).toNat < 4)
      | some y =>
        obtain ⟨heq, hlt⟩ := hcode k y hk
        omega
    have hread : field (byte (col / 4)) col = _ := field_packByte hlt col
    rw [hread]
    have hx := (hcode col x hx).1
    omega

/-- **What is read back**, in either storage. -/
theorem readBack (hbits : 2 ≤ bits) (hbits' : bits < 16) (hi : i < 2 ^ 31)
    (h : qtensorFromF32 (w.map num) o i bits = some t) (hrow : row < o) :
    ∃ r, qtRowDequant t row = some r ∧ ∀ col x, (rowAt w i row)[col]? = some x →
      ReadBack bits (rowAt w i row) r col x := by
  by_cases hint8 : 5 ≤ bits
  · exact readBack_int8 hint8 hbits' hi h hrow
  · exact readBack_int2 hbits (by omega) hi h hrow

/-! ## The matrix -/

/-- At every place, what is read back is the rounded weight, with the scale the tensor has
for the row, and so within half a step of the weight. -/
def Decodes (t : QTensor) (w : List ℚ) (o i : Nat) : Prop :=
  ∀ row < o, ∀ col < i, ∃ r x s, qtRowDequant t row = some r ∧ w[row * i + col]? = some x ∧
    t.s[row]? = some (num s) ∧ r[col]? = some (num (roundTiesEven (x / s) * s)) ∧
    |roundTiesEven (x / s) * s - x| ≤ s / 2

/-- Every weight is in a row. -/
theorem mem_rowAt {x : ℚ} (hw : w.length = o * i) (hx : x ∈ w) :
    ∃ row < o, x ∈ rowAt w i row := by
  obtain ⟨n, hn⟩ := List.mem_iff_getElem?.mp hx
  have hlt : n < o * i := hw ▸ (List.getElem?_eq_some_iff.mp hn).1
  have hi : 0 < i := Nat.pos_of_ne_zero fun hi => by
    rw [hi, Nat.mul_zero] at hlt
    exact Nat.not_lt_zero n hlt
  refine ⟨n / i, (Nat.div_lt_iff_lt_mul hi).mpr hlt, List.mem_of_getElem? (i := n % i) ?_⟩
  rw [getElem?_rowAt w (Nat.mod_lt n hi), Nat.mul_comm, Nat.div_add_mod]
  exact hn

/-- **When a quantized matrix decodes.** It is built whenever its weights are there; and then
every place decodes exactly if there is none, or the width fits its storage, or the weights
are small; and the columns are no more than an `i32` counts. -/
theorem decodes_iff (hbits : 2 ≤ bits) (hbits' : bits ≤ 15) (hw : w.length = o * i) :
    (w.length < 2 ^ 61 → o < 2 ^ 61 → ∃ t, qtensorFromF32 (w.map num) o i bits = some t) ∧
      ∀ t, qtensorFromF32 (w.map num) o i bits = some t →
        (Decodes t w o i ↔ o = 0 ∨ i = 0 ∨ (i < 2 ^ 31 ∧
          (bits = 2 ∨ (5 ≤ bits ∧ bits ≤ 8) ∨ ∀ x ∈ w, Small bits x))) := by
  constructor
  · intro hlen ho
    exact Option.isSome_iff_exists.mp (built_isSome (by rw [List.length_map, hw])
      (by rwa [List.length_map]) ho)
  intro t h
  have hbits' : bits < 16 := by omega
  obtain ⟨-, -, hcols, -⟩ := built_eq hbits' h
  constructor
  · intro hdec
    by_cases ho : o = 0
    · exact .inl ho
    by_cases hi : i = 0
    · exact .inr (.inl hi)
    have hi31 : i < 2 ^ 31 := by
      obtain ⟨r, x, s, hr, -, -, hcol, -⟩ := hdec 0 (by omega) (i - 1) (by omega)
      obtain ⟨hlen, hfits⟩ := qtRowDequant_length hr
      have hlast := (List.getElem?_eq_some_iff.mp hcol).1
      have hdim := asUsize_asI32 i
      rw [← hcols] at hdim
      omega
    refine .inr (.inr ⟨hi31, ?_⟩)
    have hstored : ∀ row < o, ∀ x ∈ rowAt w i row,
        Stored bits (codeOf (scaleOf bits (rowAt w i row)) x) := by
      intro row hrow x hx
      obtain ⟨col, hcol⟩ := List.mem_iff_getElem?.mp hx
      have hlt : col < i :=
        length_rowAt (Nat.le_of_eq hw.symm) hrow ▸ (List.getElem?_eq_some_iff.mp hcol).1
      obtain ⟨r, x', s, hr, hx', hs, hval, -⟩ := hdec row hrow col hlt
      obtain ⟨r', hr', hback⟩ := readBack hbits hbits' hi31 h hrow
      obtain ⟨c, hc, hstored, -⟩ := hback col x hcol
      -- the same row, the same scale and the same weight
      cases hr.symm.trans hr'
      cases hs.symm.trans (scale_row_num hbits hbits' h hrow)
      cases hx'.symm.trans ((getElem?_rowAt w hlt).symm.trans hcol)
      have hmul := Ext.num.inj (Option.some.inj (hc.symm.trans hval))
      have hcode := mul_right_cancel₀ (scaleOf_pos bits (rowAt w i row)).ne' hmul
      rw [codeOf, ← Int.cast_injective hcode]
      exact hstored
    by_cases hq : qmax bits ≤ storedHi bits
    · rw [← or_assoc]
      exact .inl ((qmax_storedHi hbits hbits').1.mp hq)
    · refine .inr (.inr fun x hx => ?_)
      obtain ⟨row, hrow, hmem⟩ := mem_rowAt hw hx
      exact ((stored_iff hbits hbits' _).mp (hstored row hrow)).resolve_left hq x hmem
  · intro hcond row hrow col hcol
    obtain ⟨hi31, hwidth⟩ : i < 2 ^ 31 ∧
        (bits = 2 ∨ (5 ≤ bits ∧ bits ≤ 8) ∨ ∀ x ∈ w, Small bits x) := by
      rcases hcond with ho | hi | hcond
      · omega
      · omega
      · exact hcond
    have hall : ∀ x ∈ rowAt w i row, Stored bits (codeOf (scaleOf bits (rowAt w i row)) x) := by
      refine (stored_iff hbits hbits' _).mpr ?_
      rw [← or_assoc, ← (qmax_storedHi hbits hbits').1] at hwidth
      exact hwidth.imp_right fun hsmall x hx =>
        hsmall x (List.mem_of_mem_drop (List.mem_of_mem_take hx))
    have hlt : col < (rowAt w i row).length := by
      rwa [length_rowAt (Nat.le_of_eq hw.symm) hrow]
    have hx := List.getElem?_eq_getElem hlt
    obtain ⟨r, hr, hback⟩ := readBack hbits hbits' hi31 h hrow
    obtain ⟨c, hc, -, hcode⟩ := hback col _ hx
    refine ⟨r, _, _, hr, (getElem?_rowAt w hcol).symm.trans hx, scale_row_num hbits hbits' h hrow, ?_,
      abs_codeOf_mul_sub (scaleOf_pos bits _) _⟩
    rw [hc, hcode hall, codeOf]

end

/-- At two bits every code is stored. -/
theorem decodes_two :
    ∃ t, qtensorFromF32 (([1, -1 / 2] : List ℚ).map num) 1 2 2 = some t ∧
      Decodes t [1, -1 / 2] 1 2 := by
  obtain ⟨hbuilt, hdecodes⟩ := @decodes_iff [1, -1 / 2] 1 2 2 (by decide) (by decide) rfl
  obtain ⟨t, ht⟩ := hbuilt (by decide) (by decide)
  exact ⟨t, ht, (hdecodes t ht).mpr (.inr (.inr ⟨by decide, .inl rfl⟩))⟩

/-- At four bits the weight 1 has the code 7, which is put down as 9. Its field has the low
two bits of that, and the weight is read back as -1/7. -/
theorem wide_code_lost : ∃ t, qtensorFromF32 (([1] : List ℚ).map num) 1 1 4 = some t ∧
    qtRowDequant t 0 = some [num (-1 / 7)] ∧ ¬Decodes t [1] 1 1 := by
  have hpack : packInt2 [num 1] 1 1 4 = some ([9], [num (1 / 7)]) := by decide +kernel
  have hrow : qtRowDequant
      { fmtCode := 3, q4 := .owned [9], s := [num (1 / 7)], o := asI32 1, i := asI32 1 } 0
        = some [num (-1 / 7)] := by decide +kernel
  refine ⟨_, ?_, hrow, fun hdec => ?_⟩
  · rw [qtensorFromF32, if_neg (by decide), if_neg (by decide)]
    show (packInt2 [num 1] 1 1 4).bind _ = _
    rw [hpack]
    rfl
  · obtain ⟨r, x, s, hr, hx, hs, hcol, -⟩ := hdec 0 Nat.one_pos 0 Nat.one_pos
    cases hr.symm.trans hrow
    cases hx
    cases hs
    have hval := Ext.num.inj (Option.some.inj hcol)
    rw [show (1 : ℚ) / (1 / 7) = ((7 : Int) : ℚ) by norm_num, roundTiesEven_intCast] at hval
    norm_num at hval

end Colibri.Quantize
