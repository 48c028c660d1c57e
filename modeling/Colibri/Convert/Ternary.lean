import Colibri.Convert.Passthrough
import Colibri.Moe.Ffn
import Colibri.Moe.Formats
import Mathlib.Tactic.IntervalCases

/-!
# Ternary weights

The experts and projections of Maple are ternary: in every row there is one magnitude. They
are written with two bits a weight, and come back as they were (`ternary_int2`): a row that
has two magnitudes is found out, a code is not disturbed by the other three of its byte, and
the bits that pad a row are not read.

A weight that is not a finite number is `none`.

* `rowScale_isSome_iff` and `ternaryRowScales_isSome_iff`: a row has a scale exactly where it is
  ternary, and a matrix where every row is.
* `field_packByte` and `code_mul`: a column's two bits are its code, and the code times the scale of
  the row is the weight.
* `packTernaryInt2_some`: so the check that the converter makes of its own packing never fails.
-/

namespace Colibri.Convert

open Batch Safetensors
open Loader (F32 rowsOf)
open Moe (rowOf rowOf_flatMap)
open Moe.Formats (Value rowScale ternaryRowScales ternaryCode ternaryCode_range packByte packRow
  packRow_length packTernaryInt2 field mk mk_int2 Stored)
open Vectors (mapM_get)

/-! ## The experts of Maple -/

/-- What an `f32` denotes; an infinity or a `NaN` is `none`. -/
def valueOf (b : F32) : Value :=
  let m : ℚ := ((b.toNat % 2 ^ 23 : Nat) : ℚ)
  let e := b.toNat / 2 ^ 23 % 2 ^ 8
  let sign : ℚ := if b.toNat / 2 ^ 31 = 1 then -1 else 1
  if e = 255 then none
  else if e = 0 then some (sign * m / 2 ^ 149)
  else some (sign * (2 ^ 23 + m) * 2 ^ e / 2 ^ 150)

/-- An expert that is copied. -/
def Copied (s : Shards) (xfp8 expert : Bool) (name : List Char) : Prop :=
  expert = true ∧ xfp8 = false ∧ (mxfp4Source s name).isSome

instance (s : Shards) (xfp8 expert : Bool) (name : List Char) :
    Decidable (Copied s xfp8 expert name) := inferInstanceAs (Decidable (_ ∧ _ ∧ _))

/-- `process_one` from where a tensor of Maple is classified as an expert (`expert`) or as a
projection: MXFP4 experts are copied, matrices packed or refused. -/
def processTernary (A : Arith) (s : Shards) (xfp8 expert : Bool) (name outName : List Char) :
    Outcome ConvertError TensorOut :=
  if Copied s xfp8 expert name then mxfp4PassthroughOut s outName name
  else do
    let (w, shape) ← dequant A s name
    match shape with
    | [o, i] =>
      let rows ← .ofOption (rowsOf w (asUsize o) (asUsize i))
      match packTernaryInt2 (rows.map fun row => row.map valueOf) (asUsize o) (asUsize i) with
      | some (codes, scales) => return .quant outName codes (outName ++ ".qs".toList) scales
      | none => .error (.notTernary outName (asUsize o) (asUsize i))
    | _ => return .plain outName shape w

/-! ## Finding the scales -/

/-- One magnitude, or zero. -/
def OneOf (s : ℚ) (v : Value) : Prop := v = some 0 ∨ v = some s ∨ v = some (-s)

/-- A row of one magnitude. -/
def Ternary (row : List Value) : Prop := ∃ s, 0 ≤ s ∧ ∀ v ∈ row, OneOf s v

theorem OneOf.abs {s v : ℚ} (h : OneOf s (some v)) (hv : v ≠ 0) (hs : 0 ≤ s) : |v| = s := by
  rcases h with h | h | h
  · exact absurd (Option.some.inj h) hv
  · rw [Option.some.inj h, abs_of_nonneg hs]
  · rw [Option.some.inj h, abs_neg, abs_of_nonneg hs]

theorem oneOf_abs (v : ℚ) : OneOf |v| (some v) := by
  rcases abs_choice v with h | h
  · rw [h]
    exact .inr (.inl rfl)
  · rw [h, OneOf, neg_neg]
    exact .inr (.inr rfl)

variable {row : List Value}

/-- From a scale that is set on, it is kept; the row has no other. -/
theorem rowScale_set {s t : ℚ} (hs : 0 < s) (h : rowScale s row = some t) :
    t = s ∧ ∀ v ∈ row, OneOf s v := by
  induction row with
  | nil =>
    cases h
    exact ⟨rfl, fun v hv => by cases hv⟩
  | cons v row ih =>
    unfold rowScale at h
    split at h
    next hzero =>
      obtain ⟨ht, hrow⟩ := ih h
      exact ⟨ht, List.forall_mem_cons.mpr ⟨.inl hzero, hrow⟩⟩
    next =>
      cases v with
      | none => cases h
      | some v =>
        dsimp only at h
        rw [if_neg hs.ne'] at h
        split at h
        next => cases h
        next heq =>
          obtain ⟨ht, hrow⟩ := ih h
          have habs : |v| = s := not_not.mp heq
          exact ⟨ht, List.forall_mem_cons.mpr ⟨habs ▸ oneOf_abs v, hrow⟩⟩

/-- The scale that is found is the magnitude of every weight that is not zero. -/
theorem rowScale_some {t : ℚ} (h : rowScale 0 row = some t) :
    0 ≤ t ∧ ∀ v ∈ row, OneOf t v := by
  induction row with
  | nil =>
    cases h
    exact ⟨le_refl 0, fun v hv => by cases hv⟩
  | cons v row ih =>
    unfold rowScale at h
    split at h
    next hzero =>
      obtain ⟨ht, hrow⟩ := ih h
      exact ⟨ht, List.forall_mem_cons.mpr ⟨.inl hzero, hrow⟩⟩
    next hne =>
      cases v with
      | none => cases h
      | some v =>
        -- the first weight that is not zero sets the scale
        dsimp only at h
        rw [if_pos rfl] at h
        have hpos : 0 < |v| := abs_pos.mpr fun hzero => hne (hzero ▸ rfl)
        obtain ⟨rfl, hrow⟩ := rowScale_set hpos h
        exact ⟨hpos.le, List.forall_mem_cons.mpr ⟨oneOf_abs v, hrow⟩⟩

/-- A row of one magnitude has a scale, from that magnitude or zero on. -/
theorem rowScale_isSome {s t : ℚ} (ht : 0 ≤ t) (hs : s = 0 ∨ s = t)
    (h : ∀ v ∈ row, OneOf t v) : (rowScale s row).isSome := by
  induction row generalizing s with
  | nil => rfl
  | cons v row ih =>
    obtain ⟨hv, hrow⟩ := List.forall_mem_cons.mp h
    unfold rowScale
    split
    next => exact ih hs hrow
    next hne =>
      cases v with
      | none => rcases hv with hv | hv | hv <;> cases hv
      | some v =>
        have habs : |v| = t := hv.abs (fun hzero => hne (hzero ▸ rfl)) ht
        dsimp only
        rw [habs]
        by_cases hzero : s = 0
        · rw [if_pos hzero]
          exact ih (.inr rfl) hrow
        · have hst : t = s := (hs.resolve_left hzero).symm
          rw [if_neg hzero, if_neg (not_not_intro hst)]
          exact ih hs hrow

/-- **A row has a scale exactly where it is ternary.** -/
theorem rowScale_isSome_iff : (rowScale 0 row).isSome ↔ Ternary row := by
  constructor
  · intro h
    obtain ⟨t, ht⟩ := Option.isSome_iff_exists.mp h
    exact ⟨t, rowScale_some ht⟩
  · rintro ⟨t, ht, hrow⟩
    exact rowScale_isSome ht (.inl rfl) hrow

theorem ternaryRowScales_isSome_iff {w : List (List Value)} :
    (ternaryRowScales w).isSome ↔ ∀ row ∈ w, Ternary row := by
  unfold ternaryRowScales
  induction w with
  | nil => simp
  | cons row w ih =>
    rw [List.forall_mem_cons, ← ih, ← rowScale_isSome_iff, List.mapM_cons]
    cases rowScale 0 row with
    | none => simp
    | some t => cases w.mapM (rowScale 0) <;> simp

/-! ## Two bits a weight -/

/-- The code of a column of a row, zero behind its end. -/
def codeAt (row : List Value) (c : Nat) : Nat := (row[c]?.map ternaryCode).getD 0

theorem codeAt_le (row : List Value) (c : Nat) : codeAt row c ≤ 3 := by
  unfold codeAt
  cases row[c]? with
  | none => exact Nat.zero_le 3
  | some v => exact (ternaryCode_range v).2

/-- The four codes do not run into each other, and fill a byte. -/
theorem packByte_toNat (row : List Value) (k : Nat) : (packByte row k).toNat
    = codeAt row (4 * k) + codeAt row (4 * k + 1) * 4 + codeAt row (4 * k + 2) * 16
      + codeAt row (4 * k + 3) * 64 := by
  have h0 := codeAt_le row (4 * k)
  have h1 := codeAt_le row (4 * k + 1)
  have h2 := codeAt_le row (4 * k + 2)
  have h3 := codeAt_le row (4 * k + 3)
  have hfold : packByte row k = UInt8.ofNat ((List.range 4).foldl
      (fun acc j => acc + codeAt row (4 * k + j) * 4 ^ j) 0) := by
    refine congrArg UInt8.ofNat (List.foldl_ext _ _ _ fun acc j _ => ?_)
    unfold codeAt
    cases row[4 * k + j]? with
    | none => simp
    | some v => rfl
  rw [hfold]
  simp only [List.range_succ, List.range_zero, List.nil_append, List.foldl_append,
    List.foldl_cons, List.foldl_nil, Nat.add_zero, Nat.zero_add, UInt8.toNat_ofNat']
  omega

/-- A column's two bits are its code. -/
theorem field_packByte {c : Nat} (hc : c < row.length) :
    field (packByte row (c / 4)) c = ((ternaryCode row[c] : Nat) : ℚ) - 2 := by
  have h0 := codeAt_le row (4 * (c / 4))
  have h1 := codeAt_le row (4 * (c / 4) + 1)
  have h2 := codeAt_le row (4 * (c / 4) + 2)
  have h3 := codeAt_le row (4 * (c / 4) + 3)
  have hmod : 4 * (c / 4) + c % 4 = c := Nat.div_add_mod c 4
  have hfield : (packByte row (c / 4)).toNat / 4 ^ (c % 4) % 4 = codeAt row c := by
    rw [packByte_toNat]
    have hlt : c % 4 < 4 := Nat.mod_lt _ (Nat.succ_pos 3)
    generalize c / 4 = k at *
    generalize c % 4 = j at *
    subst hmod
    interval_cases j
    · simp only [Nat.pow_zero, Nat.div_one, Nat.add_zero]
      omega
    · omega
    · omega
    · omega
  have hcode : codeAt row c = ternaryCode row[c] := by
    rw [codeAt, List.getElem?_eq_getElem hc]
    rfl
  rw [field, hfield, hcode]

/-- The code of a weight, times the magnitude of its row, is the weight. -/
theorem code_mul {s : ℚ} (hs : 0 ≤ s) {v : Value} (h : OneOf s v) :
    some ((((ternaryCode v : Nat) : ℚ) - 2) * s) = v := by
  rcases h with rfl | rfl | rfl
  · simp [ternaryCode]
  · rcases hs.eq_or_lt with rfl | hpos
    · simp [ternaryCode]
    · simp only [ternaryCode, if_neg hpos.ne', if_pos hpos]
      norm_num
  · rcases hs.eq_or_lt with rfl | hpos
    · simp [ternaryCode]
    · have hneg : ¬ 0 < -s := by linarith
      simp only [ternaryCode, if_neg (neg_ne_zero.mpr hpos.ne'), if_neg hneg]
      norm_num

section

variable {w : List (List Value)} {o i : Nat}

theorem getD_packed (hcols : ∀ row ∈ w, row.length = i) {r c : Nat} (hr : r < w.length)
    (hc : c < i) : (w.flatMap packRow).getD (r * ((i + 3) / 4) + c / 4) 0
      = packByte w[r] (c / 4) := by
  have hwidth : ∀ row ∈ w, (packRow row).length = (i + 3) / 4 := by
    intro row hrow
    rw [packRow_length, hcols row hrow]
  have hk : c / 4 < (i + 3) / 4 := by omega
  have hrow := congrArg (fun l => l.getD (c / 4) 0) (rowOf_flatMap hwidth hr)
  simp only [rowOf, List.getD_eq_getElem?_getD, List.getElem?_take_of_lt hk,
    List.getElem?_drop] at hrow
  rw [List.getD_eq_getElem?_getD, hrow, packRow, List.getElem?_map, hcols _ (List.getElem_mem hr),
    List.getElem?_range hk]
  rfl

/-- Every weight of rows with scales is read back. -/
theorem field_mul_scale {scales : List ℚ} (hcols : ∀ row ∈ w, row.length = i)
    (hscales : ternaryRowScales w = some scales) {r c : Nat} (hr : r < w.length) (hc : c < i) :
    some (field ((w.flatMap packRow).getD (r * ((i + 3) / 4) + c / 4) 0) c * scales.getD r 0)
      = (w.getD r []).getD c none := by
  have hscale := (mapM_get hscales).2 r hr [] 0
  rw [List.getD_eq_getElem _ _ hr] at hscale ⊢
  have hlen := hcols _ (List.getElem_mem hr)
  obtain ⟨hnonneg, hrow⟩ := rowScale_some hscale
  have hc' : c < w[r].length := hlen ▸ hc
  rw [getD_packed hcols hr hc, field_packByte hc', List.getD_eq_getElem w[r] none hc']
  exact code_mul hnonneg (hrow _ (List.getElem_mem _))

/-- The packing returns on ternary rows: the check of its round trip never fails. -/
theorem packTernaryInt2_some {scales : List ℚ} (hrows : w.length = o)
    (hcols : ∀ row ∈ w, row.length = i) (hscales : ternaryRowScales w = some scales) :
    packTernaryInt2 w o i = some (w.flatMap packRow, scales) := by
  unfold packTernaryInt2
  rw [hscales]
  dsimp only
  rw [if_pos fun r hr c hc => field_mul_scale hcols hscales (hrows ▸ hr) hc]

end

/-! ## What becomes of a tensor -/

section

variable {A : Arith} {s : Shards} {xfp8 expert : Bool} {name outName : List Char}

/-- The values of a matrix. -/
def matrixOf (v : List F32) (o i : Int) : Option (List (List Value)) :=
  (rowsOf v (asUsize o) (asUsize i)).map fun rows => rows.map fun row => row.map valueOf

/-- What may be written for a tensor: the source's bytes, codes of ternary rows, or, where
there are no rows, the source's floats. -/
inductive Written (A : Arith) (s : Shards) (name outName : List Char) : TensorOut → Prop
  | copied {sname nib sc : List _} : mxfp4ScaleName name = some sname →
      s.readRaw name = .ok nib → s.readRaw sname = .ok sc →
      Written A s name outName (.quant outName (nib ++ sc) (outName ++ ".mx".toList) [1])
  | packed {v : List F32} {o i : Int} {w : List (List Value)} {codes : List UInt8}
      {scales : List ℚ} : dequant A s name = .ok (v, [o, i]) → matrixOf v o i = some w →
      (∀ row ∈ w, Ternary row) → packTernaryInt2 w (asUsize o) (asUsize i) = some (codes, scales) →
      Written A s name outName (.quant outName codes (outName ++ ".qs".toList) scales)
  | plain {v : List F32} {shape : List Int} : dequant A s name = .ok (v, shape) →
      shape.length ≠ 2 → Written A s name outName (.plain outName shape v)

theorem packTernaryInt2_none {w : List (List Value)} {o i : Nat} (h : ¬ ∀ row ∈ w, Ternary row) :
    packTernaryInt2 w o i = none := by
  have hscales : ternaryRowScales w = none := by
    rw [← Option.not_isSome_iff_eq_none, ternaryRowScales_isSome_iff]
    exact h
  rw [packTernaryInt2, hscales]

/-- `processTernary` of a matrix that is not copied. -/
theorem processTernary_matrix (hcopied : ¬ Copied s xfp8 expert name) {v : List F32} {o i : Int}
    (hv : dequant A s name = .ok (v, [o, i])) {w : List (List Value)}
    (hw : matrixOf v o i = some w) : processTernary A s xfp8 expert name outName =
      match packTernaryInt2 w (asUsize o) (asUsize i) with
      | some (codes, scales) => .ok (.quant outName codes (outName ++ ".qs".toList) scales)
      | none => .error (.notTernary outName (asUsize o) (asUsize i)) := by
  obtain ⟨rows, hrows, rfl⟩ := Option.map_eq_some_iff.mp hw
  rw [processTernary, if_neg hcopied, hv, Outcome.ok_bind]
  dsimp only
  rw [hrows]
  rfl

/-- Nothing is rounded. -/
theorem processTernary_written {out : TensorOut}
    (h : processTernary A s xfp8 expert name outName = .ok out) : Written A s name outName out := by
  by_cases hcopied : Copied s xfp8 expert name
  · rw [processTernary, if_pos hcopied] at h
    obtain ⟨sname, nib, sc, hsname, hnib, hsc, rfl⟩ := passthrough_copies h
    exact .copied hsname hnib hsc
  · have hrun := h
    rw [processTernary, if_neg hcopied] at h
    obtain ⟨⟨v, shape⟩, hv, h⟩ := Outcome.bind_eq_ok h
    dsimp only at h
    split at h
    next o i =>
      cases hrows : rowsOf v (asUsize o) (asUsize i) with
      | none =>
        rw [hrows] at h
        cases h
      | some rows =>
        have hw : matrixOf v o i = some (rows.map fun row => row.map valueOf) := by
          rw [matrixOf, hrows]
          rfl
        rw [processTernary_matrix hcopied hv hw] at hrun
        by_cases hternary : ∀ row ∈ rows.map fun row => row.map valueOf, Ternary row
        · split at hrun
          next codes scales hpack =>
            cases hrun
            exact .packed hv hw hternary hpack
          next => cases hrun
        · rw [packTernaryInt2_none hternary] at hrun
          cases hrun
    next hshape =>
      cases h
      refine .plain hv fun hlen => ?_
      obtain ⟨o, i, rfl⟩ := List.length_eq_two.mp hlen
      exact hshape o i rfl

end

/-- **Ternary weights are found out, packed without loss, or refused.** A matrix has scales
just when every row has one magnitude; then it is packed and every weight is decoded from
its two bits as it was, whatever the width, and with more columns than one that is how the
loader reads it. Of a tensor that has to be ternary nothing else is written, and a matrix
that is not is an error. -/
theorem ternary_int2 (w : List (List Value)) (o i : Nat) (hrows : w.length = o)
    (hcols : ∀ row ∈ w, row.length = i) (A : Arith) (s : Shards) (xfp8 expert : Bool)
    (name outName : List Char) :
    ((ternaryRowScales w).isSome ↔ ∀ row ∈ w, Ternary row) ∧
      (∀ scales, ternaryRowScales w = some scales → ∃ codes,
        packTernaryInt2 w o i = some (codes, scales) ∧
          ∀ r < o, ∀ c < i, (Moe.Formats.QTensor.mk 3 o i [] codes scales [] 0).value r c
            = (w.getD r []).getD c none) ∧
      (∀ codes scales (hpack : packTernaryInt2 w o i = some (codes, scales)), 0 < o → 1 < i →
        ∀ fp8 base (v : Moe.Formats.View), v.Of codes →
          mk ((Stored.int2 w codes scales hrows hcols hpack).out base) fp8 o i v base
            = .ok ⟨3, o, i, [], codes, scales, [], 0⟩) ∧
      (∀ out, processTernary A s xfp8 expert name outName = .ok out →
        Written A s name outName out) ∧
      ∀ v oi ii m, dequant A s name = .ok (v, [oi, ii]) → matrixOf v oi ii = some m →
        ¬ Copied s xfp8 expert name → ¬ (∀ row ∈ m, Ternary row) →
          processTernary A s xfp8 expert name outName
            = .error (.notTernary outName (asUsize oi) (asUsize ii)) := by
  refine ⟨ternaryRowScales_isSome_iff, ?_, ?_, fun out => processTernary_written, ?_⟩
  · intro scales hscales
    refine ⟨_, packTernaryInt2_some hrows hcols hscales, fun r hr c hc => ?_⟩
    exact field_mul_scale hcols hscales (hrows ▸ hr) hc
  · intro codes scales hpack ho hi fp8 base v hv
    rw [mk_int2 hrows hcols hpack fp8 base hv, if_neg (by omega)]
  · intro v oi ii m hv hm hcopied hternary
    rw [processTernary_matrix hcopied hv hm, packTernaryInt2_none hternary]

/-- Two rows of five columns: one of a half, one of zeros. -/
def halves : List (List Value) :=
  [[some (1/2), some 0, some (-1/2), some 0, some (1/2)], [some 0, some 0, some 0, some 0, some 0]]

theorem halves_width : ∀ row ∈ halves, row.length = 5 := by
  simp [halves]

/-- Five columns end within a byte. -/
theorem ternary_int2_five :
    ((ternaryRowScales halves).isSome ↔ ∀ row ∈ halves, Ternary row) ∧
      (∀ scales, ternaryRowScales halves = some scales → ∃ codes,
        packTernaryInt2 halves 2 5 = some (codes, scales) ∧
          ∀ r < 2, ∀ c < 5, (Moe.Formats.QTensor.mk 3 2 5 [] codes scales [] 0).value r c
            = (halves.getD r []).getD c none) :=
  have h := ternary_int2 halves 2 5 rfl halves_width powers
    (markedSource mxBlocks fortyColumns 0) false true ['w'] ['w']
  ⟨h.1, h.2.1⟩

end Colibri.Convert
