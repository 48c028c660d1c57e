import Colibri.Quantize.Width

/-!
# The decoders of a weight matrix, compared

What `matmul_qt` multiplies by is a matrix, and the product with a unit vector should be a
column of it, whose entries are those `qt_row_dequant` and `embed_row` give. They are for
the formats the row decoders have arms for: `qt_row_dequant` has none for MXFP4, `embed_row`
none for e4m3 and the two formats of four bits, and so they panic on a matrix that can be
multiplied by (`columns_iff`, `embeds_iff`).

Of the formats without scales a row can hold any float. An infinity next to a number makes
the product `nan`, whatever the row decoder says.

The fourth decoder, `dequantize_qtensor`, is compared on the matrices that `qtensor_from_f32` makes:
`Restores` says that it agrees with `qt_row_dequant` at every place. `restores_floats`,
`restores_int8` and `restores_zeros` are the cases, and `decoders_agree` puts the three equivalences
together.
-/

namespace Colibri.Quantize

open Blocks Extended Loader Moe.Formats Vectors
open Extended.Ext (num inf nan)

variable {t : QTensor} {row : Nat}

/-- A row that can be multiplied by has its slices. -/
theorem matmulRow_isSome (t : QTensor) (row : Nat) :
    (matmulRow t row).isSome ↔ (t.view row).isSome := by
  have hrel := matmulRow_view t row
  revert hrel
  generalize matmulRow t row = sum
  generalize t.view row = p
  intro hrel
  cases hrel with
  | some _ => exact Iff.rfl
  | none => exact Iff.rfl

variable {x out : List Val}

theorem slice_input {s si i : Nat} (hx : x.length = s * i) (hsi : si < s) :
    slice x (si * i) ((si + 1) * i) = some ((x.drop (si * i)).take i) := by
  have hle : (si + 1) * i ≤ s * i := Nat.mul_le_mul_right i hsi
  have hstep : (si + 1) * i = si * i + i := Nat.succ_mul si i
  rw [slice, if_pos ⟨by omega, hx ▸ hle⟩, hstep, Nat.add_sub_cancel_left]

theorem length_input {s si i : Nat} (hx : x.length = s * i) (hsi : si < s) :
    ((x.drop (si * i)).take i).length = i :=
  row_length (slice_input hx hsi)

/-- The product of a row of the matrix with a row of the input. -/
def rowSum (t : QTensor) (x : List Val) (row si : Nat) : Val :=
  (t.view row).elim nan fun p =>
    p.scaled (dot p.codes ((x.drop (si * asUsize t.i)).take (asUsize t.i)))

/-- With the slices of every row, `matmul_qt` gives all the products. -/
theorem matmulQt_eq {s : Nat} (hx : x.length = s * asUsize t.i)
    (hfmt : t.fmtCode ≤ 6) (hrows : ∀ row < asUsize t.o, (t.view row).isSome) :
    matmulQt (s * asUsize t.o) x t s
      = some (blocks s fun si => (List.range (asUsize t.o)).map fun row => rowSum t x row si) := by
  have hrow : ∀ row ∈ List.range (asUsize t.o),
      (do
        let sum ← matmulRow t row
        (List.range s).mapM fun si => do sum (← slice x (si * asUsize t.i) ((si + 1) * asUsize t.i)))
        = some ((List.range s).map (rowSum t x row)) := by
    intro row hrow
    obtain ⟨p, hp⟩ := Option.isSome_iff_exists.mp (hrows row (List.mem_range.mp hrow))
    have hrel := matmulRow_view t row
    rw [hp] at hrel
    generalize matmulRow t row = sum at hrel ⊢
    cases hrel with
    | some h =>
      refine mapM_eq_map fun si hsi => ?_
      have hsi := List.mem_range.mp hsi
      rw [slice_input hx hsi, rowSum, hp]
      exact h.2 _ (length_input hx hsi)
  rw [matmulQt, if_pos ⟨hx, rfl, hfmt⟩, mapM_eq_map hrow]
  refine congrArg some (blocks_congr fun si hsi => ?_)
  rw [List.map_map]
  exact List.map_congr_left fun row _ => getD_tab hsi

theorem getElem?_product {s si : Nat} (hsi : si < s) (hrow : row < asUsize t.o) :
    (blocks s fun si => (List.range (asUsize t.o)).map fun row => rowSum t x row si)[
      si * asUsize t.o + row]? = some (rowSum t x row si) := by
  rw [getElem?_blocks (w := asUsize t.o) (fun si _ => by rw [List.length_map, List.length_range])
    hsi hrow, List.getElem?_map, List.getElem?_range hrow, Option.map_some]

/-- There is a vector that `matmul_qt` multiplies by the matrix. A slice of floats has less
than `2 ^ 61`. -/
def Accepts (t : QTensor) : Prop :=
  ∃ x : List Val, x.length < 2 ^ 61 ∧ (matmulQt (asUsize t.o) x t 1).isSome

/-- **When a matrix can be multiplied by.** -/
theorem accepts_iff (t : QTensor) :
    Accepts t ↔ asUsize t.i < 2 ^ 61 ∧ t.fmtCode ≤ 6 ∧
      ∀ row < asUsize t.o, (t.view row).isSome := by
  constructor
  · rintro ⟨x, hlen, hsome⟩
    obtain ⟨y, hy⟩ := Option.isSome_iff_exists.mp hsome
    unfold matmulQt at hy
    dsimp only at hy
    rw [Option.ite_none_right_eq_some] at hy
    obtain ⟨⟨hx, -, hfmt⟩, hy⟩ := hy
    obtain ⟨sums, hsums, -⟩ := Option.bind_eq_some_iff.mp hy
    refine ⟨by omega, hfmt, fun row hrow => ?_⟩
    obtain ⟨_, hsum⟩ := exists_of_mapM hsums (List.mem_range.mpr hrow)
    obtain ⟨sum, hsum, -⟩ := Option.bind_eq_some_iff.mp hsum
    exact (matmulRow_isSome t row).mp (Option.isSome_iff_exists.mpr ⟨sum, hsum⟩)
  · rintro ⟨hlen, hfmt, hrows⟩
    refine ⟨List.replicate (asUsize t.i) nan, by rwa [List.length_replicate], ?_⟩
    have h := matmulQt_eq (x := List.replicate (asUsize t.i) nan) (s := 1)
      (by rw [List.length_replicate, Nat.one_mul]) hfmt hrows
    rw [Nat.one_mul] at h
    rw [h]
    rfl

/-! ## Columns -/

/-- The product with the unit vector `j` is column `j` of the rows that `qt_row_dequant`
gives, in every row of an input; and neither panics. -/
def RowsAreColumns (t : QTensor) : Prop :=
  ∀ (s : Nat) (x : List Val), x.length = s * asUsize t.i →
    ∃ y, matmulQt (s * asUsize t.o) x t s = some y ∧
      ∀ row < asUsize t.o, ∃ r, qtRowDequant t row = some r ∧
        ∀ si < s, ∀ j < asUsize t.i,
          (x.drop (si * asUsize t.i)).take (asUsize t.i) = unit ℚ (asUsize t.i) j →
            ∃ v, r[j]? = some v ∧ y[si * asUsize t.o + row]? = some v

/-- `embed_row` gives what `qt_row_dequant` does, and neither panics. -/
def RowsEmbed (t : QTensor) : Prop :=
  ∀ tok < asUsize t.o, ∃ r, embedRow t tok (asUsize t.i) = some r ∧ qtRowDequant t tok = some r

/-- No row without a scale has an infinity or `nan` next to another value. -/
def Plain (t : QTensor) : Prop :=
  ∀ row < asUsize t.o, ∀ p, t.view row = some p → p.scale = none → Unmixed p.codes

theorem embedRow_fmt {n : Nat} {r : List Val} (h : embedRow t row n = some r) : t.fmtCode ≤ 3 := by
  unfold embedRow at h
  rw [Option.ite_none_right_eq_some] at h
  revert h
  generalize t.fmtCode = fmt
  rintro ⟨-, h⟩
  match fmt with
  | 0 | 1 | 2 | 3 => omega
  | _ + 4 => cases h

theorem isNum_mem_tab {n : Nat} {f : Nat → Val} (hf : ∀ k, (f k).IsNum) : ∀ v ∈ tab n f, v.IsNum := by
  intro v hv
  obtain ⟨k, -, rfl⟩ := List.mem_map.mp hv
  exact hf k

/-- The codes of a row with a scale are numbers, in the formats of `qt_row_dequant`. -/
theorem codes_isNum {p : RowView} (hp : t.view row = some p) (hfmt : t.fmtCode ≤ 5)
    (hscale : p.scale ≠ none) : ∀ v ∈ p.codes, v.IsNum := by
  have hmap : ∀ {α : Type} (q : List α) (f : α → ℚ), ∀ v ∈ q.map fun c => num (f c), v.IsNum := by
    intro α q f v hv
    obtain ⟨c, -, rfl⟩ := List.mem_map.mp hv
    trivial
  unfold QTensor.view at hp
  generalize t.fmtCode = fmt at hp hfmt
  match fmt with
  | 0 =>
    obtain ⟨wr, -, hp⟩ := Option.bind_eq_some_iff.mp hp
    cases hp
    exact absurd rfl hscale
  | 1 =>
    obtain ⟨q, -, hp⟩ := Option.bind_eq_some_iff.mp hp
    obtain ⟨s, -, hp⟩ := Option.bind_eq_some_iff.mp hp
    cases hp
    exact hmap q _
  | 2 =>
    obtain ⟨b, -, hp⟩ := Option.bind_eq_some_iff.mp hp
    obtain ⟨q, -, hp⟩ := Option.bind_eq_some_iff.mp hp
    cases hp
    exact absurd rfl hscale
  | 3 =>
    obtain ⟨b, -, hp⟩ := Option.bind_eq_some_iff.mp hp
    obtain ⟨q, -, hp⟩ := Option.bind_eq_some_iff.mp hp
    obtain ⟨s, -, hp⟩ := Option.bind_eq_some_iff.mp hp
    cases hp
    exact isNum_mem_tab fun _ => trivial
  | 4 =>
    obtain ⟨b, -, hp⟩ := Option.bind_eq_some_iff.mp hp
    obtain ⟨q, -, hp⟩ := Option.bind_eq_some_iff.mp hp
    obtain ⟨s, -, hp⟩ := Option.bind_eq_some_iff.mp hp
    cases hp
    exact hmap q _
  | 5 =>
    obtain ⟨b, -, hp⟩ := Option.bind_eq_some_iff.mp hp
    obtain ⟨bs, -, hp⟩ := Option.bind_eq_some_iff.mp hp
    obtain ⟨sl, -, hp⟩ := Option.bind_eq_some_iff.mp hp
    cases hp
    exact isNum_mem_tab fun _ => trivial
  | _ + 6 => omega

theorem qtRowDequant_some {p : RowView} (hi : asUsize t.i < 2 ^ 61) (hfmt : t.fmtCode ≤ 5)
    (hp : t.view row = some p) : qtRowDequant t row = some p.weights := by
  rw [qtRowDequant_view (by omega) hfmt, hp]
  rfl

theorem rowSum_unit {si j : Nat} {p : RowView} (hp : t.view row = some p)
    (hx : (x.drop (si * asUsize t.i)).take (asUsize t.i) = unit ℚ (asUsize t.i) j) :
    rowSum t x row si = p.scaled (dot p.codes (unit ℚ p.codes.length j)) := by
  rw [rowSum, hp, hx, view_length hp]
  rfl

/-- **When the products with unit vectors are columns**: there is no row, or the format is
one of `qt_row_dequant`'s, and the rows are plain. -/
theorem columns_iff (h : Accepts t) :
    RowsAreColumns t ↔ asUsize t.o = 0 ∨ (t.fmtCode ≤ 5 ∧ Plain t) := by
  obtain ⟨hi, hfmt, hrows⟩ := (accepts_iff t).mp h
  constructor
  · intro hcols
    by_cases ho : asUsize t.o = 0
    · exact .inl ho
    have hfmt' : t.fmtCode ≤ 5 := by
      obtain ⟨_, -, hr⟩ := hcols 0 [] (Nat.zero_mul _).symm
      obtain ⟨r, hr, -⟩ := hr 0 (Nat.pos_of_ne_zero ho)
      exact qtRowDequant_fmt hr
    refine .inr ⟨hfmt', fun row hrow p hp hscale => (dot_unit_iff p.codes).mp fun j v hj => ?_⟩
    have hlen : (unit ℚ (asUsize t.i) j).length = 1 * asUsize t.i := by
      rw [unit, length_tab, Nat.one_mul]
    have hunit : ((unit ℚ (asUsize t.i) j).drop (0 * asUsize t.i)).take (asUsize t.i)
        = unit ℚ (asUsize t.i) j := by
      rw [Nat.zero_mul, List.drop_zero, List.take_of_length_le (by rw [hlen, Nat.one_mul])]
    have hlt : j < asUsize t.i := view_length hp ▸ (List.getElem?_eq_some_iff.mp hj).1
    obtain ⟨y, hy, hr⟩ := hcols 1 _ hlen
    obtain ⟨r, hr, hcol⟩ := hr row hrow
    obtain ⟨u, hru, hyu⟩ := hcol 0 Nat.one_pos j hlt hunit
    -- a row without a scale is its codes
    have hplain : ∀ w, p.scaled w = w := by
      intro w
      rw [RowView.scaled, hscale]
    rw [qtRowDequant_some hi hfmt' hp] at hr
    cases hr
    rw [matmulQt_eq hlen hfmt hrows] at hy
    cases hy
    rw [getElem?_product Nat.one_pos hrow, rowSum_unit hp hunit, hplain] at hyu
    rw [getElem?_weights, hj, Option.map_some, hplain] at hru
    exact (Option.some.inj hyu).trans (Option.some.inj hru).symm
  · intro hcond s x hx
    refine ⟨_, matmulQt_eq hx hfmt hrows, fun row hrow => ?_⟩
    obtain ⟨hfmt', hplain⟩ : t.fmtCode ≤ 5 ∧ Plain t := by
      rcases hcond with ho | hcond
      · omega
      · exact hcond
    obtain ⟨p, hp⟩ := Option.isSome_iff_exists.mp (hrows row hrow)
    refine ⟨_, qtRowDequant_some hi hfmt' hp, fun si hsi j hj hunit => ?_⟩
    have hget := List.getElem?_eq_getElem (l := p.codes) (view_length hp ▸ hj)
    refine ⟨_, by rw [getElem?_weights, hget, Option.map_some], ?_⟩
    rw [getElem?_product hsi hrow, rowSum_unit hp hunit]
    refine congrArg (fun v => some (p.scaled v)) ?_
    by_cases hscale : p.scale = none
    · exact (dot_unit_iff p.codes).mpr (hplain row hrow p hp hscale) j _ hget
    · exact dot_unit hget fun k u _ hu => codes_isNum hp hfmt' hscale u (List.mem_of_getElem? hu)

/-- **When the embedding's rows are the matrix's.** -/
theorem embeds_iff (h : Accepts t) : RowsEmbed t ↔ asUsize t.o = 0 ∨ t.fmtCode ≤ 3 := by
  obtain ⟨hi, -, hrows⟩ := (accepts_iff t).mp h
  constructor
  · intro hrow
    by_cases ho : asUsize t.o = 0
    · exact .inl ho
    · obtain ⟨r, hr, -⟩ := hrow 0 (Nat.pos_of_ne_zero ho)
      exact .inr (embedRow_fmt hr)
  · intro hcond tok htok
    have hfmt : t.fmtCode ≤ 3 := by omega
    obtain ⟨p, hp⟩ := Option.isSome_iff_exists.mp (hrows tok htok)
    have hr := qtRowDequant_some hi (by omega) hp
    exact ⟨_, (embedRow_eq (by omega) htok hfmt).trans hr, hr⟩

/-! ## The whole matrix -/

/-- `dequantize_qtensor` gives, at every place of the matrix, what `qt_row_dequant` does. -/
def Restores (t : QTensor) (o i : Nat) : Prop :=
  ∃ out, dequantizeQtensor t = some out ∧ out.length = o * i ∧
    ∀ row < o, ∀ col < i, ∃ r v, qtRowDequant t row = some r ∧ r[col]? = some v ∧
      out[row * i + col]? = some v

/-- Every field of two bits that is stored is the code of zero, and no scale is infinite. -/
def Zeros (t : QTensor) (o i : Nat) : Prop :=
  ∀ row < o, ∀ col < i, ∃ q byte s, t.q4.asSlice = some q ∧
    q[row * ((i + 3) / 4) + col / 4]? = some byte ∧ Loader.field byte col = 2 ∧ t.s[row]? = some (num s)

theorem int2_mul_eq_zero {f : UInt8} {s : Val} (hs : (∃ x, 0 < x ∧ s = num x) ∨ s = inf false) :
    int2 f * s = num 0 ↔ f = 2 ∧ s.IsNum := by
  rcases hs with ⟨x, hx, rfl⟩ | rfl
  · rw [int2, Ext.num_mul, Ext.num.injEq, mul_eq_zero, sub_eq_zero]
    constructor
    · intro h
      have hf : (f.toNat : ℚ) = 2 := h.resolve_right hx.ne'
      exact ⟨UInt8.toNat_inj.mp (by exact_mod_cast hf), trivial⟩
    · rintro ⟨rfl, -⟩
      exact .inl rfl
  · refine iff_of_false (fun h => ?_) fun h => h.2
    unfold int2 at h
    change (if ((f.toNat : ℚ) - 2) = 0 then nan else inf _ : Val) = _ at h
    split at h <;> cases h

theorem length_flatten {rows : List (List Val)} {n : Nat} (h : ∀ r ∈ rows, r.length = n) :
    rows.flatten.length = rows.length * n := by
  rw [List.length_flatten, List.map_congr_left h, List.map_const', List.sum_replicate_nat]

/-- Floats are copied. -/
theorem dequantize_floats (hfmt : t.fmtCode = 0) :
    dequantizeQtensor t = some out ↔ umul (asUsize t.o) (asUsize t.i) * 4 < 2 ^ 63 ∧
      t.qf.length = umul (asUsize t.o) (asUsize t.i) ∧ t.qf = out := by
  unfold dequantizeQtensor
  rw [hfmt]
  refine Option.ite_none_right_eq_some.trans (and_congr_right fun _ => ?_)
  exact Option.ite_none_right_eq_some.trans (and_congr_right fun _ => Option.some_inj)

theorem dequantize_fields (hfmt : t.fmtCode = 3) :
    dequantizeQtensor t = some out ↔ umul (asUsize t.o) (asUsize t.i) * 4 < 2 ^ 63 ∧
      List.replicate (umul (asUsize t.o) (asUsize t.i)) (num 0) = out := by
  unfold dequantizeQtensor
  rw [hfmt]
  exact Option.ite_none_right_eq_some.trans (and_congr_right fun _ => Option.some_inj)

/-- Bytes are decoded, row after row. -/
theorem dequantize_bytes {f : Nat → List Val} (hfmt : t.fmtCode = 1)
    (hcap : umul (asUsize t.o) (asUsize t.i) * 4 < 2 ^ 63)
    (hrows : ∀ r ∈ List.range (asUsize t.o), ((List.range (asUsize t.i)).mapM fun c => do
      let q ← t.q8[r * asUsize t.i + c]?
      let s ← t.s[r]?
      if r * asUsize t.i + c < umul (asUsize t.o) (asUsize t.i) then some (int8 q * s) else none)
        = some (f r)) : dequantizeQtensor t = some (blocks (asUsize t.o) f) := by
  unfold dequantizeQtensor
  dsimp only
  rw [if_pos hcap, hfmt, mapM_eq_map hrows]
  rfl

/-- What is allocated for the matrix, and how long it is then. -/
theorem dequantizeQtensor_length (h : dequantizeQtensor t = some out) :
    umul (asUsize t.o) (asUsize t.i) * 4 < 2 ^ 63 ∧
      (out.length = umul (asUsize t.o) (asUsize t.i) ∨ out.length = asUsize t.o * asUsize t.i) := by
  unfold dequantizeQtensor at h
  dsimp only at h
  rw [Option.ite_none_right_eq_some] at h
  obtain ⟨hcap, h⟩ := h
  refine ⟨hcap, ?_⟩
  generalize t.fmtCode = fmt at h
  match fmt with
  | 0 =>
    obtain ⟨hlen, h⟩ := Option.ite_none_right_eq_some.mp h
    cases h
    exact .inl hlen
  | 1 =>
    obtain ⟨rows, hrows, h⟩ := Option.bind_eq_some_iff.mp h
    cases h
    obtain ⟨hlen, hmem⟩ := of_mapM hrows
    refine .inr ?_
    rw [length_flatten fun r hr => ?_, hlen, List.length_range]
    obtain ⟨_, -, hr⟩ := hmem r hr
    rw [(of_mapM hr).1, List.length_range]
  | 2 =>
    obtain ⟨q, -, h⟩ := Option.bind_eq_some_iff.mp h
    exact .inl ((of_mapM h).1.trans List.length_range)
  | _ + 3 =>
    cases h
    exact .inl List.length_replicate

/-- The rows of a matrix that was allocated are no more than an `i32` counts. -/
theorem rows_lt {o i : Nat} (hi : 0 < i) (hi31 : i < 2 ^ 31)
    (hcap : umul (asUsize (asI32 o)) i * 4 < 2 ^ 63)
    (hlen : o * i = umul (asUsize (asI32 o)) i ∨ o * i = asUsize (asI32 o) * i) : o < 2 ^ 31 := by
  rcases asUsize_asI32 o with ⟨hlt, -⟩ | ⟨hge, hsmall | ⟨hneg, hlt⟩⟩
  · exact hlt
  · -- fewer rows than there are
    rw [umul_eq hsmall hi31, or_self] at hlen
    have heq := Nat.eq_of_mul_eq_mul_right hi hlen
    omega
  · -- a negative number of rows is more than can be allocated
    exfalso
    obtain ⟨k, hk⟩ : ∃ k, asUsize (asI32 o) + k = 2 ^ 64 := ⟨2 ^ 64 - asUsize (asI32 o), by omega⟩
    have hki : k * i ≤ 2 ^ 31 * i := Nat.mul_le_mul_right i (by omega)
    have hpos : 0 < k * i := Nat.mul_pos (by omega) hi
    have hmul : asUsize (asI32 o) * i + k * i = 2 ^ 64 * i := by rw [← Nat.add_mul, hk]
    unfold umul at hcap
    omega

section

variable {w : List Val} {o i bits : Nat}

/-- Of floats, every row is read back. -/
theorem float_row (hbits : 16 ≤ bits) (hi : i < 2 ^ 31) (hw : w.length = o * i)
    (h : qtensorFromF32 w o i bits = some t) (hrow : row < o) :
    qtRowDequant t row = some (rowAt w i row) := by
  rw [qtensorFromF32, if_pos hbits] at h
  cases h
  unfold qtRowDequant
  dsimp only
  rw [asUsize_asI32_of_lt hi, if_pos (by omega)]
  exact slice_rowAt (hw ▸ Nat.mul_le_mul_right i hrow)

theorem built_dims (h : qtensorFromF32 w o i bits = some t) : t.o = asI32 o ∧ t.i = asI32 i := by
  by_cases hbits : bits < 16
  · obtain ⟨-, ho, hi, -⟩ := built_eq hbits h
    exact ⟨ho, hi⟩
  · rw [qtensorFromF32, if_pos (by omega)] at h
    cases h
    exact ⟨rfl, rfl⟩

/-- The formats that are built. -/
theorem built_fmt (h : qtensorFromF32 w o i bits = some t) :
    if 16 ≤ bits then t.fmtCode = 0 ∧ t.qf = w else if 5 ≤ bits then t.fmtCode = 1
      else t.fmtCode = 3 := by
  by_cases hbits : 16 ≤ bits
  · rw [if_pos hbits]
    rw [qtensorFromF32, if_pos hbits] at h
    cases h
    exact ⟨rfl, rfl⟩
  · obtain ⟨-, -, -, -, hfmt⟩ := built_eq (by omega) h
    rw [if_neg hbits]
    split
    next hint8 =>
      rw [if_pos hint8] at hfmt
      exact hfmt.1
    next hint2 =>
      rw [if_neg hint2] at hfmt
      exact hfmt.1

/-- A place decides the number of columns. -/
theorem cols_lt {r : List Val} {v : Val} (h : qtensorFromF32 w o i bits = some t)
    (hr : qtRowDequant t row = some r) (hlast : r[i - 1]? = some v) : i < 2 ^ 31 := by
  obtain ⟨hlen, hfits⟩ := qtRowDequant_length hr
  have hlt := (List.getElem?_eq_some_iff.mp hlast).1
  have hdim := asUsize_asI32 i
  rw [← (built_dims h).2] at hdim
  omega

/-- Bytes, decoded at once, are the rows. -/
theorem dequantize_int8 (hint8 : 5 ≤ bits) (hbits : bits < 16) (ho : o < 2 ^ 31) (hi : i < 2 ^ 31)
    (hw : w.length < 2 ^ 61) (h : qtensorFromF32 w o i bits = some t) :
    dequantizeQtensor t = some (blocks o fun row => (rowAt w i row).map fun v =>
      int8 (int8Code bits (rowScale bits (rowAt w i row)) v) * rowScale bits (rowAt w i row)) := by
  obtain ⟨hle, hrows, hcols, -, hq⟩ := built_eq hbits h
  rw [if_pos hint8] at hq
  have hrow : ∀ r ∈ List.range o, ((List.range i).mapM fun c => do
      let q ← t.q8[r * i + c]?
      let s ← t.s[r]?
      if r * i + c < o * i then some (int8 q * s) else none)
        = some ((rowAt w i r).map fun v =>
          int8 (int8Code bits (rowScale bits (rowAt w i r)) v) * rowScale bits (rowAt w i r)) := by
    intro r hr
    have hr := List.mem_range.mp hr
    have hlen := length_rowAt hle hr
    have hmap : ∀ f : Val → Val,
        (rowAt w i r).map f = (List.range i).map fun c => f ((rowAt w i r).getD c nan) := by
      intro f
      conv_lhs => rw [eq_tab hlen nan, map_tab]
      rfl
    rw [hmap]
    refine mapM_eq_map fun c hc => ?_
    have hc := List.mem_range.mp hc
    have hplace : r * i + c < o * i := by
      have hstep := Nat.mul_le_mul_right i hr
      rw [Nat.succ_mul] at hstep
      omega
    rw [hq.2, getElem?_blocks (w := i) (fun b hb => by rw [List.length_map, length_rowAt hle hb]) hr
      hc, List.getElem?_map, getElem?_getD (hlen.symm ▸ hc) nan, scale_row hbits h hr]
    exact if_pos hplace
  have hall := @dequantize_bytes t
  rw [hrows, hcols, asUsize_asI32_of_lt ho, asUsize_asI32_of_lt hi, umul_eq ho hi] at hall
  exact hall hq.1 (by omega) hrow

/-- The byte a field of two bits is in. -/
theorem stored_byte {col : Nat} (hbits : bits < 5) (h : qtensorFromF32 w o i bits = some t)
    (hrow : row < o) (hcol : col < i) :
    ∃ q, t.q4.asSlice = some q ∧ q[row * ((i + 3) / 4) + col / 4]? = some (packByte bits
      (rowScale bits (rowAt w i row)) (rowAt w i row) (4 * (col / 4))) := by
  obtain ⟨-, -, -, -, hq⟩ := built_eq (by omega) h
  rw [if_neg (by omega)] at hq
  refine ⟨_, by rw [hq.2]; rfl, ?_⟩
  have hlt : col / 4 < (i + 3) / 4 := by omega
  rw [getElem?_blocks (fun b _ => length_packRow ..) hrow hlt, packRow, List.getElem?_map,
    List.getElem?_range hlt]
  rfl

/-- A field that is stored, decoded. -/
theorem int2_place {r : List Val} {col : Nat} (hbits : bits < 5) (hi : i < 2 ^ 31)
    (h : qtensorFromF32 w o i bits = some t) (hrow : row < o) (hcol : col < i)
    (hr : qtRowDequant t row = some r) :
    r[col]? = some (int2 (Loader.field (packByte bits (rowScale bits (rowAt w i row))
      (rowAt w i row) (4 * (col / 4))) col) * rowScale bits (rowAt w i row)) := by
  rw [int2_row hbits hi h hrow] at hr
  cases hr
  rw [tab, List.getElem?_map, List.getElem?_range hcol]
  rfl

/-- With no place there is nothing to decode. -/
theorem dequantize_empty (hfmt : t.fmtCode = 0 ∧ t.qf = [] ∨ t.fmtCode = 1 ∨ t.fmtCode = 3)
    (hempty : asUsize t.o = 0 ∨ asUsize t.i = 0) : dequantizeQtensor t = some [] := by
  have hn : umul (asUsize t.o) (asUsize t.i) = 0 := by
    rcases hempty with h | h
    · rw [umul, h, Nat.zero_mul, Nat.zero_mod]
    · rw [umul, h, Nat.mul_zero, Nat.zero_mod]
  have hcap : umul (asUsize t.o) (asUsize t.i) * 4 < 2 ^ 63 := by
    rw [hn]
    decide
  rcases hfmt with ⟨hfmt, hqf⟩ | hfmt | hfmt
  · exact (dequantize_floats hfmt).mpr ⟨hcap, by rw [hqf, hn]; rfl, hqf⟩
  · rcases hempty with h | h
    · have hrows := dequantize_bytes (f := fun _ => []) hfmt hcap fun r hr => by
        rw [h] at hr
        exact absurd (List.mem_range.mp hr) (Nat.not_lt_zero r)
      rw [hrows, h]
      rfl
    · have hrows := dequantize_bytes (f := fun _ => []) hfmt hcap fun r _ => by
        rw [h]
        rfl
      rw [hrows, blocks, List.flatMap_eq_nil_iff.mpr fun _ _ => rfl]
  · exact (dequantize_fields hfmt).mpr ⟨hcap, by rw [hn]; rfl⟩

theorem restores_empty (h : qtensorFromF32 w o i bits = some t)
    (hfloats : 16 ≤ bits → w.length = o * i) (hempty : o = 0 ∨ i = 0) : Restores t o i := by
  have hfmt := built_fmt h
  have hplaces : o * i = 0 := Nat.mul_eq_zero.mpr hempty
  obtain ⟨hrows, hcols⟩ := built_dims h
  refine ⟨[], dequantize_empty ?_ ?_, hplaces.symm, fun row hrow col hcol => by omega⟩
  · split at hfmt
    next hbits =>
      have hnil := List.eq_nil_of_length_eq_zero ((hfloats hbits).trans hplaces)
      exact .inl ⟨hfmt.1, hfmt.2.trans hnil⟩
    next =>
      split at hfmt
      · exact .inr (.inl hfmt)
      · exact .inr (.inr hfmt)
  · rw [hrows, hcols]
    rcases hempty with rfl | rfl
    · exact .inl (asUsize_asI32_of_lt (by decide))
    · exact .inr (asUsize_asI32_of_lt (by decide))

theorem place_lt {row col : Nat} (hrow : row < o) (hcol : col < i) : row * i + col < o * i := by
  have hstep := Nat.mul_le_mul_right i hrow
  rw [Nat.succ_mul] at hstep
  omega

/-- **Floats**: the two decoders agree. -/
theorem restores_floats (h : qtensorFromF32 w o i bits = some t) (hbits : 16 ≤ bits)
    (hlen : w.length = o * i) (hw : w.length < 2 ^ 61) (ho : o < 2 ^ 31) (hi : i < 2 ^ 31) :
    Restores t o i := by
  have hfmt := built_fmt h
  rw [if_pos hbits] at hfmt
  obtain ⟨hrows, hcols⟩ := built_dims h
  refine ⟨w, ?_, hlen, fun row hrow col hcol => ?_⟩
  · rw [dequantize_floats hfmt.1, hrows, hcols, asUsize_asI32_of_lt ho, asUsize_asI32_of_lt hi,
      umul_eq ho hi, hfmt.2]
    exact ⟨by omega, hlen, rfl⟩
  · obtain ⟨v, hv⟩ := getElem?_isSome hlen (place_lt hrow hcol)
    exact ⟨_, v, float_row hbits hi hlen h hrow, (getElem?_rowAt w hcol).trans hv, hv⟩

/-- **Bytes**: the two decoders agree. -/
theorem restores_int8 (h : qtensorFromF32 w o i bits = some t) (hint8 : 5 ≤ bits)
    (hbits : bits < 16) (hw : w.length < 2 ^ 61) (ho : o < 2 ^ 31) (hi : i < 2 ^ 31) :
    Restores t o i := by
  obtain ⟨hle, -⟩ := built_eq hbits h
  have hlenrow : ∀ b < o, ((rowAt w i b).map fun v => int8 (int8Code bits
      (rowScale bits (rowAt w i b)) v) * rowScale bits (rowAt w i b)).length = i :=
    fun b hb => by rw [List.length_map, length_rowAt hle hb]
  refine ⟨_, dequantize_int8 hint8 hbits ho hi hw h, length_blocks hlenrow,
    fun row hrow col hcol => ?_⟩
  obtain ⟨v, hv⟩ := getElem?_isSome (hlenrow row hrow) hcol
  exact ⟨_, v, int8_row hint8 hbits hi h hrow, hv, (getElem?_blocks hlenrow hrow hcol).trans hv⟩

/-- Fields of two bits are not decoded: the matrix is all zeros, if there is room for it. -/
theorem dequantize_int2 (h : qtensorFromF32 w o i bits = some t) (hint2 : bits < 5)
    (hout : dequantizeQtensor t = some out) : ∀ v ∈ out, v = num 0 := by
  have hfmt := built_fmt h
  rw [if_neg (by omega), if_neg (by omega)] at hfmt
  obtain ⟨-, rfl⟩ := (dequantize_fields hfmt).mp hout
  exact fun v hv => List.eq_of_mem_replicate hv

/-- Fields of two bits: the two decoders agree on a matrix of zeros. -/
theorem restores_zeros (h : qtensorFromF32 w o i bits = some t) (hint2 : bits < 5)
    (hw : w.length < 2 ^ 61) (ho : o < 2 ^ 31) (hi : i < 2 ^ 31) (hzeros : Zeros t o i) :
    Restores t o i := by
  obtain ⟨hle, -⟩ := built_eq (by omega) h
  have hfmt := built_fmt h
  rw [if_neg (by omega), if_neg (by omega)] at hfmt
  obtain ⟨hrows, hcols⟩ := built_dims h
  refine ⟨List.replicate (o * i) (num 0), ?_, List.length_replicate, fun row hrow col hcol => ?_⟩
  · rw [dequantize_fields hfmt, hrows, hcols, asUsize_asI32_of_lt ho, asUsize_asI32_of_lt hi,
      umul_eq ho hi]
    exact ⟨by omega, rfl⟩
  · obtain ⟨q, byte, s, hq, hbyte, hfield, hs⟩ := hzeros row hrow col hcol
    obtain ⟨q', hq', hbyte'⟩ := stored_byte hint2 h hrow hcol
    cases hq.symm.trans hq'
    cases hbyte.symm.trans hbyte'
    have hr := int2_row hint2 hi h hrow
    refine ⟨_, num 0, hr, ?_, List.getElem?_replicate_of_lt (place_lt hrow hcol)⟩
    rw [int2_place hint2 hi h hrow hcol hr]
    refine congrArg some ((int2_mul_eq_zero (rowScale_cases bits _)).mpr ⟨hfield, ?_⟩)
    rw [Option.some.inj ((scale_row (by omega) h hrow).symm.trans hs)]
    trivial

/-- Where the whole matrix is what the rows are, a row of fields is zero. -/
theorem zeros_of_restores (h : qtensorFromF32 w o i bits = some t) (hint2 : bits < 5)
    (hi : i < 2 ^ 31) (hres : Restores t o i) : Zeros t o i := by
  obtain ⟨out, hout, -, hget⟩ := hres
  intro row hrow col hcol
  obtain ⟨r, v, hr, hv, houtv⟩ := hget row hrow col hcol
  obtain rfl := dequantize_int2 h hint2 hout v (List.mem_of_getElem? houtv)
  obtain ⟨q, hq, hbyte⟩ := stored_byte hint2 h hrow hcol
  have hplace := hv.symm.trans (int2_place hint2 hi h hrow hcol hr)
  obtain ⟨hfield, hnum⟩ :=
    (int2_mul_eq_zero (rowScale_cases bits _)).mp (Option.some.inj hplace).symm
  obtain ⟨s, hs⟩ := Ext.isNum_iff.mp hnum
  exact ⟨q, _, s, hq, hbyte, hfield, (scale_row (by omega) h hrow).trans (congrArg some hs)⟩

/-- Floats are copied, so they are as many as the shape has. -/
theorem floats_of_restores (h : qtensorFromF32 w o i bits = some t) (hbits : 16 ≤ bits)
    (hres : Restores t o i) : w.length = o * i := by
  obtain ⟨out, hout, hlen, -⟩ := hres
  have hfmt := built_fmt h
  rw [if_pos hbits] at hfmt
  obtain ⟨-, -, rfl⟩ := (dequantize_floats hfmt.1).mp hout
  rw [← hfmt.2, hlen]

/-- A place decides both dimensions. -/
theorem dims_of_restores (h : qtensorFromF32 w o i bits = some t) (ho : o ≠ 0) (hi : i ≠ 0)
    (hres : Restores t o i) : o < 2 ^ 31 ∧ i < 2 ^ 31 := by
  obtain ⟨out, hout, hlen, hget⟩ := hres
  obtain ⟨hrows, hcols⟩ := built_dims h
  have hi31 : i < 2 ^ 31 := by
    obtain ⟨r, v, hr, hv, -⟩ := hget 0 (by omega) (i - 1) (by omega)
    exact cols_lt h hr hv
  obtain ⟨hcap, hlen'⟩ := dequantizeQtensor_length hout
  rw [hrows, hcols, asUsize_asI32_of_lt hi31] at hcap hlen'
  rw [hlen] at hlen'
  exact ⟨rows_lt (by omega) hi31 hcap hlen', hi31⟩

/-- **When the whole matrix is what the rows are**: of floats, there are as many as the shape
has; and there is no place, or the dimensions are `i32`s and the codes are bytes, or all of
them are zero. -/
theorem restores_iff (h : qtensorFromF32 w o i bits = some t) (hw : w.length < 2 ^ 61) :
    Restores t o i ↔ (16 ≤ bits → w.length = o * i) ∧
      (o = 0 ∨ i = 0 ∨ (o < 2 ^ 31 ∧ i < 2 ^ 31 ∧ (5 ≤ bits ∨ Zeros t o i))) := by
  constructor
  · intro hres
    refine ⟨fun hbits => floats_of_restores h hbits hres, ?_⟩
    by_cases ho : o = 0
    · exact .inl ho
    by_cases hi : i = 0
    · exact .inr (.inl hi)
    obtain ⟨ho31, hi31⟩ := dims_of_restores h ho hi hres
    refine .inr (.inr ⟨ho31, hi31, ?_⟩)
    by_cases hint8 : 5 ≤ bits
    · exact .inl hint8
    · exact .inr (zeros_of_restores h (by omega) hi31 hres)
  · rintro ⟨hfloats, ho | hi | ⟨ho, hi, hcodes⟩⟩
    · exact restores_empty h hfloats (.inl ho)
    · exact restores_empty h hfloats (.inr hi)
    by_cases hbits : 16 ≤ bits
    · exact restores_floats h hbits (hfloats hbits) hw ho hi
    by_cases hint8 : 5 ≤ bits
    · exact restores_int8 h hint8 (by omega) hw ho hi
    · exact restores_zeros h (by omega) hw ho hi (hcodes.resolve_left hint8)

end

/-! ## All of them -/

/-- **When the decoders agree.** Of a matrix that can be multiplied by: the products with
unit vectors are the columns, if the format is one of the row decoder's and the rows are
plain; the embedding's rows are the matrix's, if the format is one of the embedding's. Of a
matrix that was quantized: the whole of it is its rows, if its codes are bytes or floats, or
all zero. -/
theorem decoders_agree {t t' : QTensor} {w : List Val} {o i bits : Nat} (h : Accepts t)
    (hw : w.length < 2 ^ 61) (hq : qtensorFromF32 w o i bits = some t') :
    (RowsAreColumns t ↔ asUsize t.o = 0 ∨ (t.fmtCode ≤ 5 ∧ Plain t)) ∧
      (RowsEmbed t ↔ asUsize t.o = 0 ∨ t.fmtCode ≤ 3) ∧
      (Restores t' o i ↔ (16 ≤ bits → w.length = o * i) ∧
        (o = 0 ∨ i = 0 ∨ (o < 2 ^ 31 ∧ i < 2 ^ 31 ∧ (5 ≤ bits ∨ Zeros t' o i)))) :=
  ⟨columns_iff h, embeds_iff h, restores_iff hq hw⟩

/-- The matrix of one weight, 1, in the last of the formats. -/
def mxfp4One : QTensor :=
  { fmtCode := 6, q4 := .owned [2], bs := .owned [127], g := num 1, o := 1, i := 1 }

theorem mxfp4One_accepted : Accepts mxfp4One :=
  ⟨[num 1], by decide, by decide⟩

/-- The weight 1, quantized to two bits. -/
def int2One : QTensor :=
  { fmtCode := 3, q4 := .owned [3], s := [num 1], o := asI32 1, i := asI32 1 }

theorem int2One_built : qtensorFromF32 [num 1] 1 1 2 = some int2One := by
  have hpack : packInt2 [num 1] 1 1 2 = some ([3], [num 1]) := by decide +kernel
  rw [qtensorFromF32, if_neg (by decide), if_neg (by decide), hpack]
  rfl

/-- The weight 1, quantized to eight bits. -/
def int8One : QTensor :=
  { fmtCode := 1, q8 := [127], s := [num (1 / 127)], o := asI32 1, i := asI32 1 }

theorem int8One_built : qtensorFromF32 [num 1] 1 1 8 = some int8One := by
  have hrows : quantizeRows [num 1] 1 1 8 = some ([127], [num (1 / 127)]) := by decide +kernel
  rw [qtensorFromF32, if_neg (by decide), if_pos (by decide), hrows]
  rfl

/-- One MXFP4 weight, which the row decoders panic on, and one int8 weight, on which all agree. -/
theorem decoders_agree_mxfp4 :
    ¬ RowsAreColumns mxfp4One ∧ ¬ RowsEmbed mxfp4One ∧ Restores int8One 1 1 := by
  obtain ⟨hcolumns, hembeds, hrestores⟩ :=
    decoders_agree mxfp4One_accepted (by decide) int8One_built
  refine ⟨fun h => ?_, fun h => ?_, hrestores.mpr ⟨fun h => ?_, .inr (.inr ?_)⟩⟩
  · rcases hcolumns.mp h with ho | ⟨hfmt, -⟩
    · exact absurd ho (by decide)
    · exact absurd hfmt (by decide)
  · exact absurd (hembeds.mp h) (by decide)
  · exact absurd h (by decide)
  · exact ⟨by decide, by decide, .inl (by decide)⟩

/-- It is multiplied by, and its row cannot be read. And the weight 1, quantized to two bits,
is 1 as a row and 0 as a matrix. -/
theorem decoders_differ :
    (matmulQt 1 [num 1] mxfp4One 1 = some [num 1] ∧ qtRowDequant mxfp4One 0 = none ∧
      embedRow mxfp4One 0 1 = none ∧ ¬RowsAreColumns mxfp4One) ∧
    ∃ t, qtensorFromF32 [num 1] 1 1 2 = some t ∧ qtRowDequant t 0 = some [num 1] ∧
      dequantizeQtensor t = some [num 0] := by
  have hrow : qtRowDequant mxfp4One 0 = none := by decide +kernel
  refine ⟨⟨by decide +kernel, hrow, by decide +kernel, fun hcols => ?_⟩,
    int2One, int2One_built, by decide +kernel, by decide +kernel⟩
  obtain ⟨_, -, hr⟩ := hcols 0 [] rfl
  obtain ⟨r, hr, -⟩ := hr 0 (by decide)
  rw [hrow] at hr
  cases hr

end Colibri.Quantize
