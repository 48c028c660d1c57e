import Colibri.Convert.E4m3
import Colibri.Lib.Blocks

/-!
# NVFP4 and its simulation

`quantize_nvfp4` writes a matrix in blocks of 16 columns, each with a scale of its own, and
`quantize_nvfp4_sim` says beforehand what the engine will read back. Weights are finite; every
product and quotient is rounded as the machine rounds it (`FloatArith`).

There are two differences between them.

The scale of a block is rounded by two routines (`Convert/E4m3`), which part in the middle of
two scales if the lower one's byte is odd. Where the scales are the same, so are the levels
chosen for the weights.

The engine multiplies a level by its block's scale, which is exact, and the product by the
global scale. The simulation multiplies the two scales first, which is rounded, and then the
level. So the simulation rounds twice where the engine rounds once, and it may end one
place off.

> nvfp4_scales_iff: the same scales are chosen if and only if no block is at an odd tie
> nvfp4_agrees_iff: and the same values are read if and only if rounding twice does no harm

`f32` is the arithmetic itself, in which `rows_differ` shows both differences.
-/

namespace Colibri.Convert

open Binary Blocks Nearest Tiles Vectors
open Moe.Formats (e4m3ToF32 e2m1 level)

def e2m1Levels : List ℚ := [0, 1/2, 1, 3/2, 2, 3, 4, 6]

def e2m1Round (v : ℚ) : ℚ :=
  let best := search |v| id 0 e2m1Levels
  if v < 0 then -best else best

def e2m1Code (t : ℚ) : ℕ :=
  let best := (search |t| Prod.fst (0, 0) e2m1Levels.zipIdx).2
  (if t < 0 then 8 else 0) + best

section

variable (A : FloatArith) (w : List ℚ) (o i r b : ℕ)

/-- `fold(0f32, |m, &v| m.max(v.abs()))` -/
def absMax (l : List ℚ) : ℚ := l.foldl (fun m v => max m |v|) 0

/-- `global`; `f32::MIN_POSITIVE` at least. -/
def globalScale : ℚ := max (A.div (absMax w) (6 * 448)) (1 / 2 ^ 126)

/-- `blk`: the columns of a block in its row. -/
def block : List ℚ :=
  let c0 := b * 16
  let c1 := min ((b + 1) * 16) i
  (w.drop (r * i + c0)).take (c1 - c0)

/-- `bmax / E2M1_LEVELS[7] / global`: a block's scale before it is rounded. -/
def scaleQuotient : ℚ := A.div (A.div (absMax (block w i r b)) 6) (globalScale A w)

/-! ## The quantizer -/

def scaleByte : UInt8 := floatToE4m3 A (scaleQuotient A w i r b)

/-- The codes of a block, by what is read back of its scale. -/
def blockCodes : List ℕ :=
  let eff := A.mul (e4m3ToF32 (scaleByte A w i r b)) (globalScale A w)
  (block w i r b).map fun v => if 0 < eff then e2m1Code (A.div v eff) else 0

def rowCodes : List ℕ := (List.range ((i + 15) / 16)).flatMap (blockCodes A w i r)

/-- The codes of a row, two to a byte, the even column low. -/
def rowNibbles : List UInt8 :=
  (List.range ((i + 1) / 2)).map fun k =>
    UInt8.ofNat ((rowCodes A w i r).getD (2 * k) 0 + 16 * (rowCodes A w i r).getD (2 * k + 1) 0)

def quantizeNvfp4 : List UInt8 × List UInt8 × ℚ :=
  (blocks o (rowNibbles A w i), blocks o fun r => tab ((i + 15) / 16) (scaleByte A w i r),
    globalScale A w)

/-! ## The simulation -/

def simScale : ℚ := ue4m3Round (scaleQuotient A w i r b)

def simBlock : List ℚ :=
  let eff := A.mul (simScale A w i r b) (globalScale A w)
  (block w i r b).map fun v => if 0 < eff then A.mul (e2m1Round (A.div v eff)) eff else 0

def quantizeNvfp4Sim : List ℚ :=
  blocks o fun r => (List.range ((i + 15) / 16)).flatMap (simBlock A w i r)

/-- The level that the simulation gives the weight of row `r` and column `c`. -/
def simLevel (c : ℕ) : ℚ :=
  let eff := A.mul (simScale A w i r (c / 16)) (globalScale A w)
  if 0 < eff then e2m1Round (A.div (w.getD (r * i + c) 0) eff) else 0

/-! ## The engine -/

/-- The engine's tensor. -/
def nvfp4Tensor : Moe.Formats.QTensor :=
  let (nib, bsc, g) := quantizeNvfp4 A w o i
  ⟨5, o, i, [], nib, [], bsc, g⟩

/-- `qt_row_dequant` of format 5, a place of the row. `matmul_qt` does the same with a vector
that is one there and zero elsewhere. -/
def rowDequant (t : Moe.Formats.QTensor) (r c : ℕ) : ℚ :=
  A.mul (A.mul (level t.q4 (r * ((t.i + 1) / 2) + c / 2) c)
    (e4m3ToF32 (t.bs.getD (r * ((t.i + 15) / 16) + c / 16) 0))) t.g

/-- The same scale for every block, the same level for every weight, and the decoded value that
the simulation says. -/
structure Agrees : Prop where
  scales : ∀ r < o, ∀ b < (i + 15) / 16,
    e4m3ToF32 ((quantizeNvfp4 A w o i).2.1.getD (r * ((i + 15) / 16) + b) 0) = simScale A w i r b
  levels : ∀ r < o, ∀ c < i,
    level (quantizeNvfp4 A w o i).1 (r * ((i + 1) / 2) + c / 2) c = simLevel A w i r c
  values : ∀ r < o, ∀ c < i,
    rowDequant A (nvfp4Tensor A w o i) r c = (quantizeNvfp4Sim A w o i).getD (r * i + c) 0

/-- No block's scale is in the middle of two values of `e4m3` of which the lower one has an odd
byte. -/
def NoTie : Prop := ∀ r < o, ∀ b < (i + 15) / 16, ¬ OddTie (scaleQuotient A w i r b)

/-- With `s` the scale next to a block's and `l` the level next to a weight, `l * s * global` is
rounded to the same number whether or not `s * global` is rounded before. -/
def RoundsOnce : Prop := ∀ r < o, ∀ c < i,
  let s := ue4m3Round (scaleQuotient A w i r (c / 16))
  let l := simLevel A w i r c
  A.rnd (l * s * globalScale A w) = A.rnd (l * A.rnd (s * globalScale A w))

end

/-! ## A code and its level -/

theorem e2m1_zipIdx : ∀ p ∈ e2m1Levels.zipIdx,
    p.2 < 8 ∧ e2m1.getD p.2 0 = p.1 ∧ e2m1.getD (8 + p.2) 0 = -p.1 := by
  decide +kernel

/-- A code is less than 16, and its level is what `e2m1_round` gives. -/
theorem e2m1Code_level (t : ℚ) : e2m1Code t < 16 ∧ e2m1.getD (e2m1Code t) 0 = e2m1Round t := by
  have hsearch := key_search |t| Prod.fst (0, 0) e2m1Levels.zipIdx
  rw [List.zipIdx_map_fst] at hsearch
  have hmem : search |t| Prod.fst (0, 0) e2m1Levels.zipIdx ∈ e2m1Levels.zipIdx := by
    rcases search_mem |t| Prod.fst (0, 0) e2m1Levels.zipIdx with h | h
    · rw [h]
      exact List.mem_cons_self ..
    · exact h
  obtain ⟨hlt, hpos, hneg⟩ := e2m1_zipIdx _ hmem
  unfold e2m1Code e2m1Round
  dsimp only
  rw [← hsearch]
  split
  · exact ⟨by omega, hneg⟩
  · exact ⟨by omega, by rw [Nat.zero_add]; exact hpos⟩

/-! ## Places -/

section

variable {A : FloatArith} {w : List ℚ} {o i r b c : ℕ}

theorem block_eq : block w i r b = (((w.drop (r * i)).take i).drop (b * 16)).take 16 := by
  rw [block, List.drop_take, List.drop_drop, List.take_take]
  congr 1
  omega

/-- What is done to the weights of each block is done to the weights of the row. -/
theorem getElem?_overBlocks {β : Type} (hw : w.length = o * i) (hr : r < o) (hc : c < i)
    (f : ℕ → ℚ → β) :
    ((List.range ((i + 15) / 16)).flatMap fun b => (block w i r b).map (f b))[c]?
      = some (f (c / 16) (w.getD (r * i + c) 0)) := by
  have hplace := place_lt hr hc
  simp only [block_eq]
  rw [flatMap_pieces, List.getElem?_mapIdx, List.getElem?_take_of_lt (by omega),
    List.getElem?_take_of_lt hc, List.getElem?_drop, List.getD_eq_getElem?_getD,
    List.getElem?_eq_getElem (hw ▸ hplace)]
  rfl

theorem length_overBlocks {β : Type} (hw : w.length = o * i) (hr : r < o) (f : ℕ → ℚ → β) :
    ((List.range ((i + 15) / 16)).flatMap fun b => (block w i r b).map (f b)).length = i := by
  have hle : (r + 1) * i ≤ o * i := Nat.mul_le_mul_right i hr
  rw [Nat.succ_mul] at hle
  simp only [block_eq]
  rw [flatMap_pieces, List.length_mapIdx, List.length_take, List.length_take, List.length_drop, hw]
  omega

/-- The code that the quantizer chooses for a weight. -/
def codeOf (A : FloatArith) (w : List ℚ) (i r c : ℕ) : ℕ :=
  let eff := A.mul (e4m3ToF32 (scaleByte A w i r (c / 16))) (globalScale A w)
  if 0 < eff then e2m1Code (A.div (w.getD (r * i + c) 0) eff) else 0

theorem getElem?_rowCodes (hw : w.length = o * i) (hr : r < o) (hc : c < i) :
    (rowCodes A w i r)[c]? = some (codeOf A w i r c) := by
  have h := getElem?_overBlocks hw hr hc fun b v =>
    let eff := A.mul (e4m3ToF32 (scaleByte A w i r b)) (globalScale A w)
    if 0 < eff then e2m1Code (A.div v eff) else 0
  exact h

theorem codeOf_lt : codeOf A w i r c < 16 := by
  unfold codeOf
  dsimp only
  split
  · exact (e2m1Code_level _).1
  · exact Nat.succ_pos 15

/-- Behind the end of the row the code is zero. -/
theorem getD_rowCodes_lt (hw : w.length = o * i) (hr : r < o) (c : ℕ) :
    (rowCodes A w i r).getD c 0 < 16 := by
  rw [List.getD_eq_getElem?_getD]
  rcases Nat.lt_or_ge c i with hc | hc
  · rw [getElem?_rowCodes hw hr hc]
    exact codeOf_lt
  · have hlen : (rowCodes A w i r).length = i := length_overBlocks hw hr _
    rw [List.getElem?_eq_none (hlen.trans_le hc)]
    exact Nat.succ_pos 15

/-- The nibble of a column is its code. -/
theorem level_quantized (hw : w.length = o * i) (hr : r < o) (hc : c < i) :
    level (quantizeNvfp4 A w o i).1 (r * ((i + 1) / 2) + c / 2) c
      = e2m1.getD (codeOf A w i r c) 0 := by
  have hk : c / 2 < (i + 1) / 2 := by omega
  have hbyte : (quantizeNvfp4 A w o i).1.getD (r * ((i + 1) / 2) + c / 2) 0
      = UInt8.ofNat ((rowCodes A w i r).getD (2 * (c / 2)) 0
        + 16 * (rowCodes A w i r).getD (2 * (c / 2) + 1) 0) := by
    have hrow : ∀ r, r < o → (rowNibbles A w i r).length = (i + 1) / 2 := by
      intro r _
      rw [rowNibbles, List.length_map, List.length_range]
    rw [List.getD_eq_getElem?_getD, quantizeNvfp4, getElem?_blocks hrow hr hk, rowNibbles,
      List.getElem?_map, List.getElem?_range hk]
    rfl
  have hself : (rowCodes A w i r).getD c 0 = codeOf A w i r c := by
    rw [List.getD_eq_getElem?_getD, getElem?_rowCodes hw hr hc]
    rfl
  have hlow := getD_rowCodes_lt (A := A) hw hr (2 * (c / 2))
  have hhigh := getD_rowCodes_lt (A := A) hw hr (2 * (c / 2) + 1)
  rw [level, hbyte, UInt8.toNat_ofNat', ← hself]
  rcases Nat.mod_two_eq_zero_or_one c with h | h
  · have hc2 : 2 * (c / 2) = c := by omega
    rw [if_neg (by omega)]
    rw [hc2] at hlow hhigh ⊢
    congr 1
    omega
  · have hc2 : 2 * (c / 2) + 1 = c := by omega
    rw [if_pos h]
    rw [hc2] at hhigh ⊢
    congr 1
    omega

theorem scale_quantized (hr : r < o) (hb : b < (i + 15) / 16) :
    (quantizeNvfp4 A w o i).2.1.getD (r * ((i + 15) / 16) + b) 0 = scaleByte A w i r b := by
  rw [List.getD_eq_getElem?_getD, quantizeNvfp4,
    getElem?_blocks (fun _ _ => length_tab _ _) hr hb, ← List.getD_eq_getElem?_getD, getD_tab hb]

theorem rnd_zero : A.rnd 0 = 0 := by
  have h := A.rnd_level 0 (List.mem_cons_self ..) 0 (Nat.succ_pos 126)
  rwa [zero_mul] at h

/-- A place of the simulation. -/
theorem getD_sim (hw : w.length = o * i) (hr : r < o) (hc : c < i) :
    (quantizeNvfp4Sim A w o i).getD (r * i + c) 0
      = A.mul (simLevel A w i r c) (A.mul (simScale A w i r (c / 16)) (globalScale A w)) := by
  have hrow := getElem?_overBlocks hw hr hc fun b v =>
    let eff := A.mul (simScale A w i r b) (globalScale A w)
    if 0 < eff then A.mul (e2m1Round (A.div v eff)) eff else 0
  have hwidth : ∀ r, r < o →
      ((List.range ((i + 15) / 16)).flatMap (simBlock A w i r)).length = i :=
    fun _ hr => length_overBlocks hw hr _
  rw [List.getD_eq_getElem?_getD, quantizeNvfp4Sim, getElem?_blocks hwidth hr hc]
  refine (congrArg (Option.getD · 0) hrow).trans ?_
  unfold simLevel
  dsimp only [Option.getD_some]
  split
  · rfl
  · rw [FloatArith.mul, zero_mul, rnd_zero]

/-! ## When they agree -/

theorem absMax_nonneg (l : List ℚ) : 0 ≤ absMax l := by
  have hfold : ∀ (l : List ℚ) (m : ℚ), 0 ≤ m → 0 ≤ l.foldl (fun m v => max m |v|) m := by
    intro l
    induction l with
    | nil => exact fun _ hm => hm
    | cons v l ih => exact fun m hm => ih _ (le_max_of_le_left hm)
  exact hfold l 0 (le_refl 0)

theorem globalScale_pos : 0 < globalScale A w :=
  lt_max_of_lt_right (by positivity)

theorem scaleQuotient_nonneg : 0 ≤ scaleQuotient A w i r b :=
  A.rnd_nonneg _ (div_nonneg (A.rnd_nonneg _ (div_nonneg (absMax_nonneg _) (by positivity)))
    globalScale_pos.le)

theorem scaleByte_agrees_iff : e4m3ToF32 (scaleByte A w i r b) = simScale A w i r b ↔
    ¬ OddTie (scaleQuotient A w i r b) :=
  scale_agree_iff A scaleQuotient_nonneg

/-- With the same scale a weight has the same level. -/
theorem codeOf_level (h : e4m3ToF32 (scaleByte A w i r (c / 16)) = simScale A w i r (c / 16)) :
    e2m1.getD (codeOf A w i r c) 0 = simLevel A w i r c := by
  unfold codeOf simLevel
  dsimp only
  rw [h]
  split
  · exact (e2m1Code_level _).2
  · rfl

/-- The product that the engine makes first is exact. -/
theorem rnd_level_scale :
    A.rnd (e2m1.getD (codeOf A w i r c) 0 * e4m3ToF32 (scaleByte A w i r b))
      = e2m1.getD (codeOf A w i r c) 0 * e4m3ToF32 (scaleByte A w i r b) := by
  obtain ⟨k, hk, hcode⟩ := floatToE4m3_spec A (scaleQuotient_nonneg (w := w) (i := i) (r := r)
    (b := b))
  have hmem : e2m1.getD (codeOf A w i r c) 0 ∈ e2m1 := by
    have hlt : codeOf A w i r c < e2m1.length := codeOf_lt
    rw [List.getD_eq_getElem _ _ hlt]
    exact List.getElem_mem hlt
  rw [scaleByte, hcode]
  exact A.rnd_level _ hmem k (Nat.lt_succ_of_le hk.le)

/-- A place as the engine reads it. -/
theorem rowDequant_quantized (hw : w.length = o * i) (hr : r < o) (hc : c < i) :
    rowDequant A (nvfp4Tensor A w o i) r c
      = A.rnd (e2m1.getD (codeOf A w i r c) 0 * e4m3ToF32 (scaleByte A w i r (c / 16))
          * globalScale A w) := by
  have hb : c / 16 < (i + 15) / 16 := by omega
  show A.mul (A.mul (level (quantizeNvfp4 A w o i).1 (r * ((i + 1) / 2) + c / 2) c)
    (e4m3ToF32 ((quantizeNvfp4 A w o i).2.1.getD (r * ((i + 15) / 16) + c / 16) 0)))
    (globalScale A w) = _
  rw [level_quantized hw hr hc, scale_quantized hr hb, FloatArith.mul, FloatArith.mul,
    rnd_level_scale]

/-- **The same scales**, but at an odd tie. -/
theorem nvfp4_scales_iff : (∀ r < o, ∀ b < (i + 15) / 16,
      e4m3ToF32 ((quantizeNvfp4 A w o i).2.1.getD (r * ((i + 15) / 16) + b) 0)
        = simScale A w i r b) ↔ NoTie A w o i := by
  refine forall_congr' fun r => forall_congr' fun hr => forall_congr' fun b =>
    forall_congr' fun hb => ?_
  rw [scale_quantized hr hb]
  exact scaleByte_agrees_iff

end

/-- **When the simulation is right**: no block's scale is at an odd tie, and at no weight does it
matter that the simulation rounds twice. -/
theorem nvfp4_agrees_iff (A : FloatArith) (w : List ℚ) (o i : ℕ) (hw : w.length = o * i) :
    Agrees A w o i ↔ NoTie A w o i ∧ RoundsOnce A w o i := by
  -- with the same scales the levels are the same, and a value is a product of the three
  have hplace : NoTie A w o i → ∀ r < o, ∀ c < i,
      level (quantizeNvfp4 A w o i).1 (r * ((i + 1) / 2) + c / 2) c = simLevel A w i r c ∧
        rowDequant A (nvfp4Tensor A w o i) r c
          = A.rnd (simLevel A w i r c * simScale A w i r (c / 16) * globalScale A w) := by
    intro hno r hr c hc
    have hscale := scaleByte_agrees_iff.mpr (hno r hr (c / 16) (by omega))
    have hlevel := codeOf_level hscale
    exact ⟨by rw [level_quantized hw hr hc, hlevel],
      by rw [rowDequant_quantized hw hr hc, hlevel, hscale]⟩
  constructor
  · intro h
    have hno := nvfp4_scales_iff.mp h.scales
    refine ⟨hno, fun r hr c hc => ?_⟩
    have hvalue := h.values r hr c hc
    rw [(hplace hno r hr c hc).2, getD_sim hw hr hc] at hvalue
    exact hvalue
  · rintro ⟨hno, hround⟩
    refine ⟨nvfp4_scales_iff.mpr hno, fun r hr c hc => (hplace hno r hr c hc).1,
      fun r hr c hc => ?_⟩
    rw [(hplace hno r hr c hc).2, getD_sim hw hr hc]
    exact hround r hr c hc

/-! ## The arithmetic of the machine -/

theorem log2Floor_le (a : ℚ) (ha : 0 < a) : 2 ^ Int.log 2 a * (31 / 32) ≤ a := by
  have hlog : (2 : ℚ) ^ Int.log 2 a ≤ a := Int.zpow_log_le_self Nat.one_lt_two ha
  have hpos : (0 : ℚ) < 2 ^ Int.log 2 a := zpow_pos (by norm_num) _
  linarith

theorem lt_log2Floor (a : ℚ) (_ : 0 < a) : a < 2 ^ (Int.log 2 a + 1) :=
  Int.lt_zpow_succ_log_self Nat.one_lt_two a

theorem e2m1_halves : ∀ l ∈ e2m1, ∃ n ∈ List.range 13, l = (n : ℚ) / 2 ∨ l = -(n : ℚ) / 2 := by
  decide +kernel

theorem gridUnits_digits {k : ℕ} (hk : k < 127) :
    ∃ m < 16, ∃ e < 15, gridUnits k = m * 2 ^ e := by
  unfold gridUnits
  split
  next h => exact ⟨k, by omega, 0, by omega, by rw [Nat.pow_zero, Nat.mul_one]⟩
  next h => exact ⟨8 + k % 8, by omega, k / 8 - 1, by omega, rfl⟩

/-- The product of a level and a scale has eight digits. -/
theorem binary32_level (l : ℚ) (hl : l ∈ e2m1) (k : ℕ) (hk : k < 127) :
    binary32.round (l * e4m3ToF32 (UInt8.ofNat k)) = l * e4m3ToF32 (UInt8.ofNat k) := by
  obtain ⟨m, hm, e, he, hunits⟩ := gridUnits_digits hk
  obtain ⟨n, hn, hl⟩ := e2m1_halves l hl
  have hn13 := List.mem_range.mp hn
  obtain ⟨d, hd, hdigits⟩ : ∃ d : ℤ, |d| ≤ 180 ∧
      l * e4m3ToF32 (UInt8.ofNat k) = d * 2 ^ ((e : ℤ) - 10) := by
    have hscale : (2 : ℚ) ^ ((e : ℤ) - 10) = 2 ^ e / 1024 := by
      rw [zpow_sub₀ (by norm_num), zpow_natCast]
      norm_num
    have hnm : (n : ℤ) * m ≤ 12 * 15 := by
      exact_mod_cast Nat.mul_le_mul (by omega : n ≤ 12) (by omega : m ≤ 15)
    have hnm0 : 0 ≤ (n : ℤ) * m := by positivity
    rw [e4m3ToF32_ofNat k hk, e4m3Grid, hunits, hscale]
    rcases hl with rfl | rfl
    · refine ⟨n * m, by rw [abs_of_nonneg hnm0]; omega, ?_⟩
      push_cast
      ring
    · refine ⟨-(n * m), by rw [abs_neg, abs_of_nonneg hnm0]; omega, ?_⟩
      push_cast
      ring
  rw [hdigits]
  refine round_digits binary32 (hd.trans_lt (by norm_num [binary32])) ?_ ?_
  · show -149 ≤ (e : ℤ) - 10
    omega
  · have hpow : (2 : ℚ) ^ ((e : ℤ) - 10) ≤ 2 ^ (4 : ℤ) :=
      zpow_le_zpow_right₀ (by norm_num) (by omega)
    have hpos : (0 : ℚ) < 2 ^ ((e : ℤ) - 10) := zpow_pos (by norm_num) _
    have hdq : |(d : ℚ)| ≤ 180 := by exact_mod_cast hd
    calc |(d : ℚ) * 2 ^ ((e : ℤ) - 10)| = |(d : ℚ)| * 2 ^ ((e : ℤ) - 10) := by
          rw [abs_mul, abs_of_pos hpos]
      _ ≤ 180 * 2 ^ (4 : ℤ) := mul_le_mul hdq hpow hpos.le (by norm_num)
      _ ≤ 2 ^ (128 : ℤ) := by norm_num

/-- `f32`, with an infinity for `2 ^ 128`. -/
def f32 : FloatArith where
  rnd := binary32.round
  log2Floor := Int.log 2
  rnd_nonneg _ := round_nonneg binary32
  rnd_level := binary32_level
  log2Floor_le := log2Floor_le
  lt_log2Floor := lt_log2Floor

/-! ## Two matrices -/

/-- Two rows of one weight: the scale of the first is 448, that of the second `19/16`. -/
def tiedRows : List ℚ := [2688, 57 / 8]

theorem tied_rows_tie : ¬ NoTie f32 tiedRows 2 1 := by
  intro h
  exact h 1 Nat.one_lt_two 0 Nat.one_pos
    ⟨57, Nat.lt_add_of_pos_right (Nat.succ_pos 68), by decide, by decide +kernel⟩

/-- **Both differences show.** The matrix of the one weight 3/2 has no tie: the simulation says
3/2, and the engine reads `3/2 + 2 ^ -23`. -/
theorem rows_differ : ¬ Agrees f32 tiedRows 2 1 ∧ ¬ Agrees f32 [3 / 2] 1 1 := by
  constructor
  · exact fun h => tied_rows_tie (nvfp4_scales_iff.mp h.scales)
  · intro h
    have hvalue := h.values 0 Nat.one_pos 0 Nat.one_pos
    revert hvalue
    decide +kernel

/-- A row of two weights where the simulation is right. -/
theorem nvfp4_agrees_row : Agrees f32 [2688, 3] 1 2 :=
  (nvfp4_agrees_iff f32 [2688, 3] 1 2 rfl).mpr (by
    constructor
    · unfold NoTie
      decide +kernel
    · unfold RoundsOnce
      decide +kernel)

end Colibri.Convert
