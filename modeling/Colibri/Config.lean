import Mathlib.Data.List.Basic
import Mathlib.Algebra.Order.Ring.Nat
import Mathlib.Algebra.Order.Ring.Int

/-!
# The model configuration

The fields of `Config` that the cache, the V4 attention and the byte accounting
read. Sizes are the `i32`s of `config.json`; the code casts them to `usize`
where it uses them, so a negative one becomes a huge count (`asUsize`), not an
error. Compress ratios and the Indexer's width keep their `i32` bound, so that a
positive one stays positive after the cast.

`asI32` is the cast the other way, from a wider number to the `i32` of a field. It keeps exactly the
numbers of its range (`asI32_eq_iff`) and never grows a count (`asI32_le`).
-/

namespace Colibri

/-- The architectures the loader tells apart. -/
inductive Arch where
  | glmMoeDsa
  | minimaxM3
  | minimaxM2
  | nemotronH
  | kimiK3
  | deepseekV4
  | maple
  deriving Repr, DecidableEq

/-- What sits in a layer's mixer slot. -/
inductive LayerKind where
  | mamba
  | attn
  | moe
  | kda
  deriving Repr, DecidableEq

/-- `2^64`, the number of `usize` values. -/
def usizeCount : Nat := 2 ^ 64

/-- An `i32 as usize` cast: negative values wrap. -/
def asUsize (v : Int) : Nat := (v % (usizeCount : Int)).toNat

/-- An `as i32` cast: the low 32 bits, with their sign. -/
def asI32 (v : Int) : Int := (v + 2147483648) % 4294967296 - 2147483648

theorem asI32_range (v : Int) : -2147483648 ≤ asI32 v ∧ asI32 v ≤ 2147483647 := by
  unfold asI32
  omega

theorem asI32_of_range {v : Int} (hlo : -2147483648 ≤ v) (hhi : v ≤ 2147483647) : asI32 v = v := by
  unfold asI32
  omega

theorem asI32_eq_iff (n : Nat) : asI32 n = n ↔ n < 2 ^ 31 := by
  unfold asI32
  omega

theorem asI32_of_lt {n : Nat} (h : n < 2147483648) : asI32 n = n :=
  (asI32_eq_iff n).mpr (by omega)

theorem asI32_le (n : Nat) : asI32 n ≤ n := by
  unfold asI32
  omega

theorem asUsize_of_nonneg {v : Int} (h : 0 ≤ v) (hlt : v < 2 ^ 64) : asUsize v = v.toNat := by
  rw [asUsize, usizeCount, Int.emod_eq_of_lt h (by exact_mod_cast hlt)]

theorem asUsize_pos {v : Int} (h : 0 < v) (hlt : v < 2 ^ 64) : 0 < asUsize v := by
  rw [asUsize_of_nonneg (Int.le_of_lt h) hlt]
  omega

/-- The configuration fields the modelled functions read. -/
structure Config where
  arch : Arch
  nLayers : Int
  kvLora : Int
  qkHead : Int
  qkRope : Int
  nKvHeads : Int
  maxCtx : Int
  indexTopk : Int
  indexHd : Int
  window : Int
  compressRatios : List Int
  layerKind : List LayerKind
  mambaDState : Int
  mambaDConv : Int
  mambaNHeads : Int
  mambaHeadDim : Int
  mambaNGroups : Int
  mambaInter : Int
  kdaNHeads : Int
  kdaHeadDim : Int
  kdaDConv : Int
  ratios_lt : ∀ r ∈ compressRatios, r < 2147483648
  indexHd_lt : indexHd < 2147483648

/-- The `config.json` integers of a DeepSeek-V4 checkpoint; a missing key
reads as 0. -/
structure Dsv4Json where
  numHiddenLayers : Int
  headDim : Int
  qkRopeHeadDim : Int
  numKeyValueHeads : Int
  maxPositionEmbeddings : Int
  indexTopk : Int
  indexHeadDim : Int
  slidingWindow : Int
  compressRatios : List Int
  ratios_lt : ∀ r ∈ compressRatios, r < 2147483648
  indexHeadDim_lt : indexHeadDim < 2147483648

/-- `from_json_deepseek_v4`: every value is taken as it stands, no range is
checked, and `layer_kind` stays empty. -/
def fromJsonDeepseekV4 (r : Dsv4Json) : Config where
  arch := .deepseekV4
  nLayers := r.numHiddenLayers
  kvLora := r.headDim
  qkHead := r.headDim
  qkRope := r.qkRopeHeadDim
  nKvHeads := r.numKeyValueHeads
  maxCtx := r.maxPositionEmbeddings
  indexTopk := r.indexTopk
  indexHd := r.indexHeadDim
  window := r.slidingWindow
  compressRatios := r.compressRatios
  layerKind := []
  mambaDState := 0
  mambaDConv := 0
  mambaNHeads := 0
  mambaHeadDim := 0
  mambaNGroups := 0
  mambaInter := 0
  kdaNHeads := 0
  kdaHeadDim := 0
  kdaDConv := 0
  ratios_lt := r.ratios_lt
  indexHd_lt := r.indexHeadDim_lt

/-- The compress ratio of a layer, 0 past the end of the list. -/
def Config.compRatio (cfg : Config) (li : Nat) : Int := cfg.compressRatios.getD li 0

theorem Config.compRatio_pos {cfg : Config} {li : Nat} (h : 0 < cfg.compRatio li) :
    0 < asUsize (cfg.compRatio li) := by
  have hget : cfg.compressRatios[li]?.getD 0 = cfg.compRatio li :=
    (List.getD_eq_getElem?_getD ..).symm
  cases hr : cfg.compressRatios[li]? with
  | none =>
    rw [hr, Option.getD_none] at hget
    omega
  | some r =>
    rw [hr, Option.getD_some] at hget
    have hlt := cfg.ratios_lt r (List.mem_of_getElem? hr)
    exact asUsize_pos h (by omega)

end Colibri
